import Mathlib.Data.List.Infix
import Mathlib.Logic.Function.Basic
import Ridgeline.BoundedFifo
import Ridgeline.WrappedIndex

/-!
# The ring buffer

`SpscRingBuffer`, one memory access at a time. The producer calls `TryPush` and
`TryPushWith`, the consumer `TryPop` and `TryPopWith`, and the accesses of the two are
interleaved in any way.

The state also keeps what was published, what was popped, each with its slot, and how many
slots were released. The slots that are published and not released are those that the
two indices enclose (`Inv`); each side acts on a copy of the other's index, which only
grows, so what it concludes from the copy stays true (`PushPc.Inv.mono`, `PopPc.Inv.mono`).
The ring refines a queue of `Capacity - 1` values (`refines_boundedFifo`).
-/

namespace Ridgeline

variable {α : Type*}

/-! ## The producer and the consumer -/

/-- The calls of the producer. -/
inductive PushCall (α : Type*)
  | tryPush (item : α)
  | tryPushWith

/-- Where the producer is : between calls, with the result of the last one, or in a call
with its local `tail` and, once the slot is written, the item that the call put there. -/
inductive PushPc (α : Type*)
  | idle (result : Option Bool)
  | loadedTail (call : PushCall α) (tail : ℕ)
  | hasRoom (call : PushCall α) (tail : ℕ)
  | written (tail : ℕ) (item : α)

/-- The next access of the producer publishes its slot. -/
def PushPc.publishing : PushPc α → Bool
  | .written _ _ => true
  | _ => false

/-- The item of the call in progress, as far as the call has one. -/
def PushPc.item : PushPc α → Option α
  | .loadedTail (.tryPush item) _ => some item
  | .hasRoom (.tryPush item) _ => some item
  | .written _ item => some item
  | _ => none

/-- The accesses of `TryPush` and `TryPushWith`. The callback `fill` leaves `v` in the slot
and returns `ok`. -/
inductive PushAct (α : Type*)
  | loadTail (call : PushCall α)
  | loadHead
  | assign
  | fill (v : α) (ok : Bool)
  | storeTail

/-- Where the consumer is : between calls, with the result of the last one, or in a call
with its local `head` and the value it took. -/
inductive PopPc (α : Type*)
  | idle (result : Option Bool)
  | loadedHead (head : ℕ)
  | nonEmpty (head : ℕ)
  | accessed (head : ℕ) (v : α)

/-- The accesses of `TryPop` and `TryPopWith`, which are the same : moving the item out of
the slot, as well as the callback `consume`, takes the value and leaves some other. -/
inductive PopAct (α : Type*)
  | loadHead
  | loadTail
  | access (left : α)
  | storeHead

/-- An access of the one or the other. -/
inductive RingAct (α : Type*)
  | push (a : PushAct α)
  | pop (a : PopAct α)

/-- What the accesses say of the producer's calls, without the ring : the item of the call in
progress, which is the argument of `TryPush` or what `fill` left in the slot, and the items of
the calls that have stored `tail_`. -/
structure Offers (α : Type*) where
  current : Option α := none
  stored : List α := []

/-- The item that an access of the producer brings. -/
def PushAct.item : PushAct α → Option α
  | .loadTail (.tryPush item) => some item
  | .fill v _ => some v
  | _ => none

/-- One more access. -/
def Offers.access (o : Offers α) : RingAct α → Offers α
  | .push (.loadTail (.tryPush item)) => { o with current := some item }
  | .push (.fill v _) => { o with current := some v }
  | .push .storeTail => { o with stored := o.stored ++ o.current.toList }
  | _ => o

/-- The items of the calls of the producer that were not refused or declined, in order. -/
def offered (as : List (RingAct α)) : List α :=
  (as.foldl Offers.access {}).stored

/-- The item of the call in progress is the one offered, and the values published are those of
the calls that have stored `tail_`. -/
structure Offers.Match (o : Offers α) (producer : PushPc α) (published : List (ℕ × α)) : Prop where
  current : ∀ item, producer.item = some item → o.current = some item
  stored : published.map Prod.snd = o.stored

/-- `slots_`, `head_` and `tail_`, the two threads, the slots and values published and
popped so far, and the number of slots released. -/
structure RingBuffer (α : Type*) where
  slots : ℕ → α
  head : ℕ := 0
  tail : ℕ := 0
  producer : PushPc α := .idle none
  consumer : PopPc α := .idle none
  published : List (ℕ × α) := []
  popped : List (ℕ × α) := []
  released : ℕ := 0

namespace RingBuffer

variable (C : Capacity)

/-- An access of the producer. -/
def pushStep (s : RingBuffer α) (a : PushAct α) : Option (RingBuffer α) :=
  match s.producer, a with
  | .idle _, .loadTail call => some { s with producer := .loadedTail call s.tail }
  | .loadedTail call tail, .loadHead =>
    if C.next tail = s.head then some { s with producer := .idle (some false) }
    else some { s with producer := .hasRoom call tail }
  | .hasRoom (.tryPush item) tail, .assign =>
    some { s with slots := Function.update s.slots tail item, producer := .written tail item }
  | .hasRoom .tryPushWith tail, .fill v ok =>
    some { s with
      slots := Function.update s.slots tail v
      producer := if ok then .written tail v else .idle (some false) }
  | .written tail item, .storeTail =>
    some { s with
      tail := C.next tail
      producer := .idle (some true)
      published := s.published ++ [(tail, item)] }
  | _, _ => none

/-- An access of the consumer. -/
def popStep (s : RingBuffer α) (a : PopAct α) : Option (RingBuffer α) :=
  match s.consumer, a with
  | .idle _, .loadHead => some { s with consumer := .loadedHead s.head }
  | .loadedHead head, .loadTail =>
    if head = s.tail then some { s with consumer := .idle (some false) }
    else some { s with consumer := .nonEmpty head }
  | .nonEmpty head, .access left =>
    some { s with
      slots := Function.update s.slots head left
      consumer := .accessed head (s.slots head)
      popped := s.popped ++ [(head, s.slots head)] }
  | .accessed head _, .storeHead =>
    some { s with
      head := C.next head
      consumer := .idle (some true)
      released := s.released + 1 }
  | _, _ => none

/-- An access of either side. -/
def step (s : RingBuffer α) : RingAct α → Option (RingBuffer α)
  | .push a => s.pushStep C a
  | .pop a => s.popStep C a

/-- The empty ring. -/
def start (slots : ℕ → α) : RingBuffer α :=
  { slots := slots }

/-- What is published and not released, in order. -/
def held (s : RingBuffer α) : List (ℕ × α) :=
  s.published.drop s.released

/-- `SizeApprox`, of the values loaded for `tail` and `head`. -/
def sizeApprox (tail head : ℕ) : ℕ :=
  C.distance tail head

/-- The slot that the access of the producer touches. -/
def touches (s : RingBuffer α) (a : PushAct α) : Option ℕ :=
  match s.producer, a with
  | .hasRoom _ tail, .assign => some tail
  | .hasRoom _ tail, .fill _ _ => some tail
  | _, _ => none

/-- The call of the queue that the access completes : a push when `tail_` is stored, a pop
when `head_` is stored, a refusal when the other side's index is loaded. -/
def completes (s : RingBuffer α) : RingAct α → Option (FifoOp α)
  | .push .loadHead =>
    match s.producer with
    | .loadedTail _ tail => if C.next tail = s.head then some .pushRefused else none
    | _ => none
  | .push .storeTail =>
    match s.producer with
    | .written _ item => some (.push item)
    | _ => none
  | .pop .loadTail =>
    match s.consumer with
    | .loadedHead head => if head = s.tail then some .popRefused else none
    | _ => none
  | .pop .storeHead => some .pop
  | _ => none

/-- What holds in every state of the ring. -/
structure Sound (s : RingBuffer α) : Prop where
  /-- The values popped are the first ones published, each once, each from its slot. -/
  popped : s.popped <+: s.published
  /-- One slot is always kept empty. -/
  held_le : s.held.length ≤ C.val - 1
  /-- A push is refused as full only if all other slots are held when `head_` is loaded. -/
  full : ∀ t, s.pushStep C .loadHead = some t → t.producer = .idle (some false) →
    s.held.length = C.val - 1
  /-- A pop is refused only if nothing is published when `tail_` is loaded. -/
  empty : ∀ t, s.popStep C .loadTail = some t → t.consumer = .idle (some false) →
    s.popped = s.published
  /-- A callback that declines publishes nothing. -/
  declined : ∀ v t, s.pushStep C (.fill v false) = some t →
    t.producer = .idle (some false) ∧ t.tail = s.tail ∧ t.published = s.published
  /-- The producer touches no slot that is published and not released. -/
  untouched : ∀ a i, s.touches a = some i → ∀ e ∈ s.held, e.1 ≠ i

end RingBuffer

/-! ## The invariant -/

/-- What the producer knows, `published` and `released` slots being counted. -/
def PushPc.Inv (C : Capacity) (published released : ℕ) : PushPc α → Prop
  | .idle _ => True
  | .loadedTail _ tail => tail = published % C.val
  | .hasRoom _ tail => tail = published % C.val ∧ published + 1 < released + C.val
  | .written tail _ => tail = published % C.val ∧ published + 1 < released + C.val

/-- What the consumer knows. -/
def PopPc.Inv (C : Capacity) (published : ℕ) (popped : List (ℕ × α)) (released : ℕ) :
    PopPc α → Prop
  | .idle _ => popped.length = released
  | .loadedHead head => popped.length = released ∧ head = released % C.val
  | .nonEmpty head => popped.length = released ∧ head = released % C.val ∧ released < published
  | .accessed head v => popped.length = released + 1 ∧ head = released % C.val ∧
    popped.getLast? = some (head, v)

/-- A release leaves the producer what it knows. -/
theorem PushPc.Inv.mono {C : Capacity} {p r r' : ℕ} {pc : PushPc α} (h : pc.Inv C p r)
    (hr : r ≤ r') : pc.Inv C p r' := by
  cases pc with
  | idle | loadedTail => exact h
  | hasRoom | written => exact ⟨h.1, by have := h.2; omega⟩

/-- A publication leaves the consumer what it knows. -/
theorem PopPc.Inv.mono {C : Capacity} {p p' r : ℕ} {popped : List (ℕ × α)} {pc : PopPc α}
    (h : pc.Inv C p popped r) (hp : p ≤ p') : pc.Inv C p' popped r := by
  cases pc with
  | idle | loadedHead | accessed => exact h
  | nonEmpty => exact ⟨h.1, h.2.1, h.2.2.trans_le hp⟩

/-- A slot is released only after it is read. -/
theorem PopPc.Inv.released_le {C : Capacity} {p r : ℕ} {popped : List (ℕ × α)} {pc : PopPc α}
    (h : pc.Inv C p popped r) : r ≤ popped.length := by
  cases pc with
  | idle => exact h.ge
  | loadedHead | nonEmpty => exact h.1.ge
  | accessed => exact h.1 ▸ Nat.le_succ r

theorem getElem?_snoc {l : List α} {x e : α} {m : ℕ} (h : (l ++ [x])[m]? = some e) :
    l[m]? = some e ∨ (m = l.length ∧ e = x) := by
  grind

namespace RingBuffer

/-- The `m`-th value is published in the slot `m` modulo the capacity, and stays there until
it is popped; the indices are the numbers of published and released slots, which are less
than the capacity apart; the item of the call in progress is in the slot that it wrote. -/
structure Inv (C : Capacity) (s : RingBuffer α) : Prop where
  tail : s.tail = s.published.length % C.val
  head : s.head = s.released % C.val
  room : s.published.length < s.released + C.val
  popped : s.popped <+: s.published
  slot : ∀ m e, s.published[m]? = some e → e.1 = m % C.val
  stored : ∀ m e, s.popped.length ≤ m → s.published[m]? = some e → s.slots e.1 = e.2
  written : ∀ tail item, s.producer = .written tail item → s.slots tail = item
  producer : s.producer.Inv C s.published.length s.released
  consumer : s.consumer.Inv C s.published.length s.popped s.released

variable {C : Capacity} {s t : RingBuffer α}

theorem inv_start (slots : ℕ → α) : (start slots).Inv C where
  tail := (Nat.zero_mod _).symm
  head := (Nat.zero_mod _).symm
  room := by simpa [start] using C.pos
  popped := List.prefix_rfl
  slot := by simp [start]
  stored := by simp [start]
  written := by simp [start]
  producer := trivial
  consumer := rfl

namespace Inv

variable (hs : s.Inv C)
include hs

theorem producer_at {pc : PushPc α} (h : s.producer = pc) :
    pc.Inv C s.published.length s.released :=
  h ▸ hs.producer

theorem consumer_at {pc : PopPc α} (h : s.consumer = pc) :
    pc.Inv C s.published.length s.popped s.released :=
  h ▸ hs.consumer

theorem released_le_published : s.released ≤ s.published.length :=
  hs.consumer.released_le.trans hs.popped.length_le

/-- The ring is full when the next tail would be the head. -/
theorem next_tail_eq_head_iff :
    C.next (s.published.length % C.val) = s.head ↔ s.published.length + 1 = s.released + C.val := by
  have hle := hs.released_le_published
  have hroom := hs.room
  rw [C.next_mod, hs.head]
  constructor
  · intro heq
    by_contra hne
    exact C.mod_ne (m := s.published.length + 1) (by omega) (by omega) heq.symm
  · intro heq
    rw [heq, Nat.add_mod_right]

/-- The ring is empty when the head is the tail. -/
theorem head_eq_tail_iff : s.head = s.tail ↔ s.released = s.published.length := by
  have hle := hs.released_le_published
  have hroom := hs.room
  rw [hs.head, hs.tail]
  constructor
  · intro heq
    by_contra hne
    exact C.mod_ne (by omega) (by omega) heq
  · intro heq
    rw [heq]

/-- A write to a slot other than those of the values published from the `n`-th on. -/
theorem stored_update {n k : ℕ} {v : α} (hn : s.popped.length ≤ n)
    (hk : ∀ m, n ≤ m → m < s.published.length → m % C.val ≠ k) :
    ∀ m e, n ≤ m → s.published[m]? = some e → Function.update s.slots k v e.1 = e.2 := by
  intro m e hm he
  obtain ⟨hlt, -⟩ := List.getElem?_eq_some_iff.1 he
  rw [Function.update_of_ne (hs.slot m e he ▸ hk m hm hlt), hs.stored m e (hn.trans hm) he]

/-- The slot behind the published ones is not among those not yet popped. -/
theorem mod_ne_tail {m : ℕ} (hm : s.released ≤ m) (hlt : m < s.published.length) :
    m % C.val ≠ s.published.length % C.val := by
  have hroom := hs.room
  exact C.mod_ne hlt (by omega)

end Inv

/-! ## The accesses keep the invariant -/

/-- The accesses of the producer. -/
theorem pushStep_cases {a : PushAct α} (h : s.pushStep C a = some t) :
    (∃ r call, s.producer = .idle r ∧ a = .loadTail call ∧
      t = { s with producer := .loadedTail call s.tail }) ∨
    (∃ call tail, s.producer = .loadedTail call tail ∧ a = .loadHead ∧ C.next tail = s.head ∧
      t = { s with producer := .idle (some false) }) ∨
    (∃ call tail, s.producer = .loadedTail call tail ∧ a = .loadHead ∧ C.next tail ≠ s.head ∧
      t = { s with producer := .hasRoom call tail }) ∨
    (∃ item tail, s.producer = .hasRoom (.tryPush item) tail ∧ a = .assign ∧
      t = { s with slots := Function.update s.slots tail item, producer := .written tail item }) ∨
    (∃ tail v ok, s.producer = .hasRoom .tryPushWith tail ∧ a = .fill v ok ∧
      t = { s with
        slots := Function.update s.slots tail v
        producer := if ok then .written tail v else .idle (some false) }) ∨
    (∃ tail item, s.producer = .written tail item ∧ a = .storeTail ∧
      t = { s with
        tail := C.next tail
        producer := .idle (some true)
        published := s.published ++ [(tail, item)] }) := by
  unfold pushStep at h
  split at h
  · next r call hp =>
    cases h
    exact .inl ⟨r, call, hp, rfl, rfl⟩
  · next call tail hp =>
    split_ifs at h with hfull
    · cases h
      exact .inr (.inl ⟨call, tail, hp, rfl, hfull, rfl⟩)
    · cases h
      exact .inr (.inr (.inl ⟨call, tail, hp, rfl, hfull, rfl⟩))
  · next item tail hp =>
    cases h
    exact .inr (.inr (.inr (.inl ⟨item, tail, hp, rfl, rfl⟩)))
  · next tail v ok hp =>
    cases h
    exact .inr (.inr (.inr (.inr (.inl ⟨tail, v, ok, hp, rfl, rfl⟩))))
  · next tail item hp =>
    cases h
    exact .inr (.inr (.inr (.inr (.inr ⟨tail, item, hp, rfl, rfl⟩))))
  · cases h

/-- The accesses of the consumer. -/
theorem popStep_cases {a : PopAct α} (h : s.popStep C a = some t) :
    (∃ r, s.consumer = .idle r ∧ a = .loadHead ∧
      t = { s with consumer := .loadedHead s.head }) ∨
    (∃ head, s.consumer = .loadedHead head ∧ a = .loadTail ∧ head = s.tail ∧
      t = { s with consumer := .idle (some false) }) ∨
    (∃ head, s.consumer = .loadedHead head ∧ a = .loadTail ∧ head ≠ s.tail ∧
      t = { s with consumer := .nonEmpty head }) ∨
    (∃ head left, s.consumer = .nonEmpty head ∧ a = .access left ∧
      t = { s with
        slots := Function.update s.slots head left
        consumer := .accessed head (s.slots head)
        popped := s.popped ++ [(head, s.slots head)] }) ∨
    (∃ head v, s.consumer = .accessed head v ∧ a = .storeHead ∧
      t = { s with
        head := C.next head
        consumer := .idle (some true)
        released := s.released + 1 }) := by
  unfold popStep at h
  split at h
  · next r hc =>
    cases h
    exact .inl ⟨r, hc, rfl, rfl⟩
  · next head hc =>
    split_ifs at h with hempty
    · cases h
      exact .inr (.inl ⟨head, hc, rfl, hempty, rfl⟩)
    · cases h
      exact .inr (.inr (.inl ⟨head, hc, rfl, hempty, rfl⟩))
  · next head left hc =>
    cases h
    exact .inr (.inr (.inr (.inl ⟨head, left, hc, rfl, rfl⟩)))
  · next head v hc =>
    cases h
    exact .inr (.inr (.inr (.inr ⟨head, v, hc, rfl, rfl⟩)))
  · cases h

/-- The producer leaves the consumer's side. -/
theorem pushStep_frame {a : PushAct α} (h : s.pushStep C a = some t) :
    t.consumer = s.consumer ∧ t.popped = s.popped ∧ t.released = s.released ∧ t.head = s.head := by
  rcases pushStep_cases h with ⟨_, _, -, -, rfl⟩ | ⟨_, _, -, -, -, rfl⟩ | ⟨_, _, -, -, -, rfl⟩ |
    ⟨_, _, -, -, rfl⟩ | ⟨_, _, _, -, -, rfl⟩ | ⟨_, _, -, -, rfl⟩ <;> exact ⟨rfl, rfl, rfl, rfl⟩

/-- Only the store of `tail_` publishes. -/
theorem published_pushStep {a : PushAct α} (h : s.pushStep C a = some t)
    (hp : s.producer.publishing = false) : t.published = s.published := by
  rcases pushStep_cases h with ⟨_, _, -, -, rfl⟩ | ⟨_, _, -, -, -, rfl⟩ | ⟨_, _, -, -, -, rfl⟩ |
    ⟨_, _, -, -, rfl⟩ | ⟨_, _, _, -, -, rfl⟩ | ⟨tail, item, hw, -, -⟩
  · rfl
  · rfl
  · rfl
  · rfl
  · rfl
  · rw [hw] at hp
    cases hp

/-- What holds of the items that the accesses bring holds of the values published. -/
theorem items_pushStep {P : α → Prop} {a : PushAct α} (h : s.pushStep C a = some t)
    (hitem : ∀ v, s.producer.item = some v → P v) (hpublished : ∀ e ∈ s.published, P e.2)
    (ha : ∀ v, a.item = some v → P v) :
    (∀ v, t.producer.item = some v → P v) ∧ ∀ e ∈ t.published, P e.2 := by
  rcases pushStep_cases h with ⟨r, call, hp, rfl, rfl⟩ | ⟨call, tail, hp, rfl, -, rfl⟩ |
    ⟨call, tail, hp, rfl, -, rfl⟩ | ⟨item, tail, hp, rfl, rfl⟩ | ⟨tail, v, ok, hp, rfl, rfl⟩ |
    ⟨tail, item, hp, rfl, rfl⟩
  · exact ⟨by cases call <;> exact ha, hpublished⟩
  · exact ⟨by simp [PushPc.item], hpublished⟩
  · rw [hp] at hitem
    exact ⟨by cases call <;> exact hitem, hpublished⟩
  · rw [hp] at hitem
    exact ⟨hitem, hpublished⟩
  · refine ⟨?_, hpublished⟩
    cases ok with
    | true => exact ha
    | false => simp [PushPc.item]
  · refine ⟨by simp [PushPc.item], List.forall_mem_append.2 ⟨hpublished, ?_⟩⟩
    exact List.forall_mem_singleton.2 (hitem item (hp ▸ rfl))

/-- The consumer leaves the producer's side. -/
theorem popStep_frame {a : PopAct α} (h : s.popStep C a = some t) :
    t.producer = s.producer ∧ t.published = s.published ∧ t.tail = s.tail := by
  rcases popStep_cases h with ⟨_, -, -, rfl⟩ | ⟨_, -, -, -, rfl⟩ | ⟨_, -, -, -, rfl⟩ |
    ⟨_, _, -, -, rfl⟩ | ⟨_, _, -, -, rfl⟩ <;> exact ⟨rfl, rfl, rfl⟩

/-- The producer writes to the slot behind the published ones. -/
theorem Inv.write {call : PushCall α} {tail : ℕ} {v : α} {pc : PushPc α} (hs : s.Inv C)
    (hp : s.producer = .hasRoom call tail)
    (hpc : pc = .written tail v ∨ pc = .idle (some false)) :
    Inv C { s with slots := Function.update s.slots tail v, producer := pc } := by
  have hknow := hs.producer_at hp
  have hstored := hs.stored_update (v := v) le_rfl fun m hm hlt =>
    hknow.1 ▸ hs.mod_ne_tail (hs.consumer.released_le.trans hm) hlt
  rcases hpc with rfl | rfl
  · refine { hs with stored := hstored, written := ?_, producer := hknow }
    rintro _ _ ⟨⟩
    exact Function.update_self ..
  · exact { hs with stored := hstored, written := by simp, producer := trivial }

theorem inv_pushStep {a : PushAct α} (hs : s.Inv C) (h : s.pushStep C a = some t) : t.Inv C := by
  rcases pushStep_cases h with ⟨r, call, hp, -, rfl⟩ | ⟨call, tail, hp, -, -, rfl⟩ |
    ⟨call, tail, hp, -, hroom, rfl⟩ | ⟨item, tail, hp, -, rfl⟩ | ⟨tail, v, ok, hp, -, rfl⟩ |
    ⟨tail, item, hp, -, rfl⟩
  · exact { hs with written := by simp, producer := hs.tail }
  · exact { hs with written := by simp, producer := trivial }
  · have htail : tail = s.published.length % C.val := hs.producer_at hp
    rw [htail, ne_eq, hs.next_tail_eq_head_iff] at hroom
    have hlt := hs.room
    exact { hs with written := by simp, producer := ⟨htail, by simp only; omega⟩ }
  · exact hs.write hp (.inl rfl)
  · exact hs.write hp (by cases ok <;> simp)
  · obtain ⟨htail, hlt⟩ := hs.producer_at hp
    refine { hs with
      tail := ?_, room := ?_, popped := ?_, slot := ?_, stored := ?_, written := by simp,
      producer := trivial, consumer := ?_ }
    · simp [htail, C.next_mod]
    · simpa using hlt
    · exact hs.popped.trans (List.prefix_append _ _)
    · intro m e he
      rcases getElem?_snoc he with he | ⟨rfl, rfl⟩
      · exact hs.slot m e he
      · exact htail
    · intro m e hm he
      rcases getElem?_snoc he with he | ⟨rfl, rfl⟩
      · exact hs.stored m e hm he
      · exact hs.written tail item hp
    · exact hs.consumer.mono (by simp)

theorem inv_popStep {a : PopAct α} (hs : s.Inv C) (h : s.popStep C a = some t) : t.Inv C := by
  rcases popStep_cases h with ⟨r, hc, -, rfl⟩ | ⟨head, hc, -, -, rfl⟩ |
    ⟨head, hc, -, hne, rfl⟩ | ⟨head, left, hc, -, rfl⟩ | ⟨head, v, hc, -, rfl⟩
  · exact { hs with consumer := ⟨hs.consumer_at hc, hs.head⟩ }
  · exact { hs with consumer := (hs.consumer_at hc).1 }
  · obtain ⟨hlen, hhead⟩ := hs.consumer_at hc
    rw [hhead, ← hs.head, ne_eq, hs.head_eq_tail_iff] at hne
    exact { hs with
      consumer := ⟨hlen, hhead, lt_of_le_of_ne hs.released_le_published hne⟩ }
  · obtain ⟨hlen, hhead, hlt⟩ := hs.consumer_at hc
    have hroom := hs.room
    refine { hs with popped := ?_, stored := ?_, written := ?_, consumer := ⟨?_, hhead, ?_⟩ }
    · have hget := List.getElem?_eq_getElem (hlen ▸ hlt : s.popped.length < s.published.length)
      have hslot := hs.slot _ _ hget
      have hstored := hs.stored _ _ le_rfl hget
      have hentry : (head, s.slots head) = s.published[s.popped.length] := by
        rw [← hlen, ← hslot] at hhead
        exact Prod.ext hhead (hhead ▸ hstored)
      rw [hentry]
      exact List.concat_get_prefix hs.popped (hlen ▸ hlt)
    · refine hs.stored_update (by simp) fun m hm hlt' => ?_
      rw [List.length_append, hlen, List.length_singleton] at hm
      rw [hhead]
      exact (C.mod_ne hm (by omega)).symm
    · intro tail item hp
      have hne : tail ≠ head := by
        rw [(hs.producer_at hp).1, hhead]
        exact (C.mod_ne hlt hroom).symm
      exact (Function.update_of_ne hne ..).trans (hs.written tail item hp)
    · simp [hlen]
    · simp
  · obtain ⟨hlen, hhead, -⟩ := hs.consumer_at hc
    have hroom := hs.room
    refine { hs with
      head := ?_, room := ?_, producer := hs.producer.mono (Nat.le_succ _), consumer := hlen }
    · simp [hhead, C.next_mod]
    · simp only
      omega

theorem inv_step {a : RingAct α} (hs : s.Inv C) (h : s.step C a = some t) : t.Inv C := by
  cases a with
  | push a => exact inv_pushStep hs h
  | pop a => exact inv_popStep hs h

/-! ## The ring as a queue -/

theorem Inv.length_held (hs : s.Inv C) : s.held.length + s.released = s.published.length := by
  have := hs.released_le_published
  simp only [held, List.length_drop]
  omega

theorem Inv.touches_eq {a : PushAct α} {i : ℕ} (hs : s.Inv C) (h : s.touches a = some i) :
    i = s.published.length % C.val := by
  unfold touches at h
  split at h
  · next call tail hp =>
    cases h
    exact (hs.producer_at hp).1
  · next call tail v ok hp =>
    cases h
    exact (hs.producer_at hp).1
  · cases h

/-- `SizeApprox` of the current indices is the number of slots held. -/
theorem Inv.sizeApprox_eq (hs : s.Inv C) : sizeApprox C s.tail s.head = s.held.length := by
  have hlen := hs.length_held
  rw [sizeApprox, hs.tail, hs.head, C.distance_mod hs.released_le_published hs.room]
  omega

/-- The next tail is the head when all slots but one are held. -/
theorem Inv.full (hs : s.Inv C) {call : PushCall α} {tail : ℕ}
    (hp : s.producer = .loadedTail call tail) (hfull : C.next tail = s.head) :
    s.held.length = C.val - 1 := by
  have hlen := hs.length_held
  have htail : tail = s.published.length % C.val := hs.producer_at hp
  rw [htail, hs.next_tail_eq_head_iff] at hfull
  omega

/-- The head is the tail when no slot is held. -/
theorem Inv.empty (hs : s.Inv C) {head : ℕ} (hc : s.consumer = .loadedHead head)
    (hempty : head = s.tail) : s.popped.length = s.published.length ∧ s.held.length = 0 := by
  have hlen := hs.length_held
  obtain ⟨hpopped, hhead⟩ := hs.consumer_at hc
  rw [hhead, ← hs.head, hs.head_eq_tail_iff] at hempty
  omega

/-- Between two calls of the consumer, all that is published is popped if no slot is held. -/
theorem Inv.popped_eq (hs : s.Inv C) {r : Option Bool} (hc : s.consumer = .idle r)
    (hheld : s.held.length = 0) : s.popped = s.published := by
  have hlen := hs.length_held
  have hpopped : s.popped.length = s.released := hs.consumer_at hc
  exact hs.popped.eq_of_length (by omega)

theorem Inv.sound (hs : s.Inv C) : s.Sound C where
  popped := hs.popped
  held_le := by
    have hlen := hs.length_held
    have hroom := hs.room
    omega
  full := by
    intro t h ht
    rcases pushStep_cases h with ⟨r, call, -, ha, -⟩ | ⟨call, tail, hp, -, hfull, -⟩ |
      ⟨call, tail, -, -, -, rfl⟩ | ⟨_, _, -, ha, -⟩ | ⟨_, _, _, -, ha, -⟩ | ⟨_, _, -, ha, -⟩
    · cases ha
    · exact hs.full hp hfull
    · cases ht
    all_goals cases ha
  empty := by
    intro t h ht
    rcases popStep_cases h with ⟨_, -, ha, -⟩ | ⟨head, hc, -, hempty, -⟩ |
      ⟨head, -, -, -, rfl⟩ | ⟨_, _, -, ha, -⟩ | ⟨_, _, -, ha, -⟩
    · cases ha
    · exact hs.popped.eq_of_length (hs.empty hc hempty).1
    · cases ht
    all_goals cases ha
  declined := by
    intro v t h
    rcases pushStep_cases h with ⟨_, _, -, ha, -⟩ | ⟨_, _, -, ha, -⟩ | ⟨_, _, -, ha, -⟩ |
      ⟨_, _, -, ha, -⟩ | ⟨tail, v, ok, -, ha, rfl⟩ | ⟨_, _, -, ha, -⟩ <;> cases ha
    exact ⟨rfl, rfl, rfl⟩
  untouched := by
    intro a i h e he
    obtain ⟨j, hj⟩ := List.mem_iff_getElem?.1 he
    rw [held, List.getElem?_drop] at hj
    obtain ⟨hlt, -⟩ := List.getElem?_eq_some_iff.1 hj
    rw [hs.slot _ e hj, hs.touches_eq h]
    exact hs.mod_ne_tail (Nat.le_add_right _ _) hlt

/-- The queue holds the values published and not released, and those released are taken. -/
def Models (s : RingBuffer α) (f : BoundedFifo α (C.val - 1)) : Prop :=
  f.queue = s.held.map Prod.snd ∧ f.taken = (s.published.take s.released).map Prod.snd

theorem Models.push {f : BoundedFifo α (C.val - 1)} (hs : s.Inv C) (hf : s.Models f)
    {e : ℕ × α} (hroom : s.published.length + 1 < s.released + C.val)
    (hp : t.published = s.published ++ [e]) (hr : t.released = s.released) :
    ∃ g, f.step (.push e.2) = some g ∧ t.Models g := by
  have hle := hs.released_le_published
  have hlen := hs.length_held
  obtain ⟨g, hg, hqueue, htaken⟩ := BoundedFifo.step_push (f := f) (v := e.2) (by
    rw [hf.1, List.length_map]
    omega)
  refine ⟨g, hg, ?_, ?_⟩
  · rw [hqueue, hf.1, held, held, hp, hr, List.drop_append_of_le_length hle, List.map_append]
    rfl
  · rw [htaken, hf.2, hp, hr, List.take_append_of_le_length hle]

theorem Models.pop {f : BoundedFifo α (C.val - 1)} (hf : s.Models f)
    (hlt : s.released < s.published.length) (hp : t.published = s.published)
    (hr : t.released = s.released + 1) : ∃ g, f.step .pop = some g ∧ t.Models g := by
  have hheld : s.held = s.published[s.released] :: s.published.drop (s.released + 1) :=
    List.drop_eq_getElem_cons hlt
  obtain ⟨g, hg, hqueue, htaken⟩ := BoundedFifo.step_pop (f := f) (by
    rw [hf.1, hheld, List.map_cons])
  refine ⟨g, hg, ?_, ?_⟩
  · rw [hqueue, held, hp, hr]
  · rw [htaken, hf.2, hp, hr, List.take_add_one, List.getElem?_eq_getElem hlt, Option.toList_some,
      List.map_append]
    rfl

/-- An access is the call of the queue that it completes. -/
theorem simulates {a : RingAct α} {f : BoundedFifo α (C.val - 1)} (hs : s.Inv C)
    (hf : s.Models f) (h : s.step C a = some t) :
    ∃ g, exec BoundedFifo.step f (s.completes C a).toList = some g ∧ t.Models g := by
  cases a with
  | push a =>
    rcases pushStep_cases h with ⟨r, call, hp, rfl, rfl⟩ | ⟨call, tail, hp, rfl, hfull, rfl⟩ |
      ⟨call, tail, hp, rfl, hroom, rfl⟩ | ⟨item, tail, hp, rfl, rfl⟩ | ⟨tail, v, ok, hp, rfl, rfl⟩ |
      ⟨tail, item, hp, rfl, rfl⟩
    · exact ⟨f, rfl, hf⟩
    · have hrefused : f.queue.length = C.val - 1 := by
        rw [hf.1, List.length_map, hs.full hp hfull]
      refine ⟨f, ?_, hf⟩
      simp [completes, hp, hfull, exec, BoundedFifo.step, hrefused]
    · refine ⟨f, ?_, hf⟩
      simp [completes, hp, hroom]
    · exact ⟨f, rfl, hf⟩
    · exact ⟨f, rfl, hf⟩
    · obtain ⟨-, hroom⟩ := hs.producer_at hp
      obtain ⟨g, hg, hmodels⟩ := Models.push (t := { s with
        tail := C.next tail
        producer := .idle (some true)
        published := s.published ++ [(tail, item)] }) hs hf hroom rfl rfl
      refine ⟨g, ?_, hmodels⟩
      simpa [completes, hp, exec] using hg
  | pop a =>
    rcases popStep_cases h with ⟨r, hc, rfl, rfl⟩ | ⟨head, hc, rfl, hempty, rfl⟩ |
      ⟨head, hc, rfl, hne, rfl⟩ | ⟨head, left, hc, rfl, rfl⟩ | ⟨head, v, hc, rfl, rfl⟩
    · exact ⟨f, rfl, hf⟩
    · have hrefused : f.queue = [] := by
        rw [hf.1, List.map_eq_nil_iff, ← List.length_eq_zero_iff]
        exact (hs.empty hc hempty).2
      refine ⟨f, ?_, hf⟩
      simp [completes, hc, hempty, exec, BoundedFifo.step, hrefused]
    · refine ⟨f, ?_, hf⟩
      simp [completes, hc, hne]
    · exact ⟨f, rfl, hf⟩
    · obtain ⟨hpopped, -⟩ := hs.consumer_at hc
      have hlt : s.released < s.published.length := by
        have := hs.popped.length_le
        omega
      obtain ⟨g, hg, hmodels⟩ := Models.pop (t := { s with
        head := C.next head
        consumer := .idle (some true)
        released := s.released + 1 }) hf hlt rfl rfl
      refine ⟨g, ?_, hmodels⟩
      simpa [completes, exec] using hg

/-! ## What the calls offer -/

theorem matches_step {a : RingAct α} {o : Offers α} (ho : o.Match s.producer s.published)
    (h : s.step C a = some t) : (o.access a).Match t.producer t.published := by
  obtain ⟨hcurrent, hstored⟩ := ho
  cases a with
  | pop a =>
    obtain ⟨hproducer, hpublished, -⟩ := popStep_frame h
    rw [hproducer, hpublished]
    exact ⟨hcurrent, hstored⟩
  | push a =>
    rcases pushStep_cases h with ⟨r, call, hp, rfl, rfl⟩ | ⟨call, tail, hp, rfl, -, rfl⟩ |
      ⟨call, tail, hp, rfl, -, rfl⟩ | ⟨item, tail, hp, rfl, rfl⟩ | ⟨tail, v, ok, hp, rfl, rfl⟩ |
      ⟨tail, item, hp, rfl, rfl⟩
    · refine ⟨fun item hitem => ?_, by cases call <;> exact hstored⟩
      cases call with
      | tryPush => exact hitem
      | tryPushWith => cases hitem
    · exact ⟨by simp [PushPc.item], hstored⟩
    · refine ⟨fun item hitem => hcurrent item ?_, hstored⟩
      rw [hp]
      cases call <;> exact hitem
    · exact ⟨fun v hv => hcurrent v (hp ▸ hv), hstored⟩
    · refine ⟨fun item hitem => ?_, hstored⟩
      cases ok with
      | true => exact hitem
      | false => cases hitem
    · have hitem : o.current = some item := hcurrent item (hp ▸ rfl)
      exact ⟨by simp [PushPc.item], by simp [Offers.access, hitem, hstored]⟩

/-- Along every interleaving the values published are the items offered. -/
theorem published_eq_offered {slots : ℕ → α} {as : List (RingAct α)}
    (h : exec (step C) (start slots) as = some s) : s.published.map Prod.snd = offered as :=
  have hstart : Offers.Match {} (start slots).producer (start slots).published :=
    ⟨by simp [start, PushPc.item], rfl⟩
  (exec_foldl (R := fun s o => Offers.Match o s.producer s.published)
    (fun _ _ _ _ ho h => matches_step ho h) hstart h).stored

/-- The ring refines a queue of `Capacity - 1` values. Along every interleaving, what the
accesses complete is a run of that queue, which pushes the values that are published and
holds those that are not released; the values published are the items that the calls were
given, or filled in, in the order of the calls; and the ring is sound in the state reached. -/
theorem refines_boundedFifo (slots : ℕ → α) {as : List (RingAct α)}
    (h : exec (step C) (start slots) as = some s) :
    s.Sound C ∧ s.published.map Prod.snd = offered as ∧ ∃ f : BoundedFifo α (C.val - 1),
      exec BoundedFifo.step .empty (observe (step C) (completes C) (start slots) as) = some f ∧
        BoundedFifo.pushed (observe (step C) (completes C) (start slots) as) =
          s.published.map Prod.snd ∧
            f.queue = s.held.map Prod.snd := by
  have hinv : s.Inv C := exec_invariant (fun _ _ _ hs h => inv_step hs h) (inv_start slots) h
  have hsim : ∀ (s : RingBuffer α) a t (f : BoundedFifo α (C.val - 1)), s.Inv C ∧ s.Models f →
      s.step C a = some t → ∃ g, exec BoundedFifo.step f (s.completes C a).toList = some g ∧
        t.Inv C ∧ t.Models g := by
    rintro s a t f ⟨hs, hf⟩ h
    obtain ⟨g, hg, hmodels⟩ := simulates hs hf h
    exact ⟨g, hg, inv_step hs h, hmodels⟩
  obtain ⟨f, hf, -, hmodels⟩ := exec_simulates hsim (u := .empty) ⟨inv_start slots, rfl, rfl⟩ h
  refine ⟨hinv.sound, published_eq_offered h, f, hf, ?_, hmodels.1⟩
  have hpushed := BoundedFifo.exec_taken_queue hf
  rw [hmodels.1, hmodels.2, held, ← List.map_append, List.take_append_drop] at hpushed
  simpa [BoundedFifo.empty] using hpushed.symm

/-- Two slots. -/
def twoSlots : Capacity :=
  ⟨2, by decide, by decide, by decide⟩

/-- The producer publishes 7 and is refused, the consumer takes 7 while the producer fills
the slot behind it, which it declines to publish, and is then refused. -/
def refusedRun : List (RingAct ℕ) :=
  [.push (.loadTail (.tryPush 7)), .push .loadHead, .push .assign, .push .storeTail,
    .push (.loadTail .tryPushWith), .pop .loadHead, .push .loadHead, .pop .loadTail,
    .pop (.access 0), .pop .storeHead, .push (.loadTail .tryPushWith), .pop .loadHead,
    .push .loadHead, .push (.fill 8 false), .pop .loadTail]

theorem refines_boundedFifo_refusedRun : ∃ s, exec (step twoSlots) (start fun _ => 0) refusedRun =
    some s ∧ s.popped = [(0, 7)] ∧ s.Sound twoSlots ∧ s.published.map Prod.snd = [7] := by
  obtain ⟨s, hs, hpopped⟩ : ∃ s, exec (step twoSlots) (start fun _ => 0) refusedRun = some s ∧
      s.popped = [(0, 7)] := exists_exec_of_any (by decide)
  obtain ⟨hsound, hoffered, -⟩ := refines_boundedFifo _ hs
  exact ⟨s, hs, hpopped, hsound, hoffered⟩

end RingBuffer

end Ridgeline
