import Ridgeline.ReleaseAcquire
import Ridgeline.RingBuffer
import Ridgeline.Transition

/-!
# The memory orders of the ring buffer

`SpscRingBuffer` on release/acquire memory, one memory access at a time, with the memory order
of each access. An index is loaded from any message that its thread may still read, so that
the producer may see fewer releases, and the consumer fewer publications, than there were.

The orders are parameters (`MemoryOrders`). With those of the source no access to a slot races
and the values popped are those that the calls were given, in order (`sound_of_source_orders`);
with any of them relaxed some run races, so that the ring is free of data races with exactly the
orders it has (`raceFree_iff`).
-/

namespace Ridgeline

variable {α : Type*}

/-- The two threads. -/
inductive RingSide
  | producer
  | consumer
  deriving DecidableEq

/-- The two atomics. -/
inductive RingIndex
  | head
  | tail
  deriving DecidableEq

/-- For the accesses of one side to the other's index and the stores of its own, whether the
order is acquire or release, and not relaxed. -/
structure MemoryOrders where
  pushLoadsHead : Bool
  pushStoresTail : Bool
  popLoadsTail : Bool
  popStoresHead : Bool
  deriving DecidableEq

/-- The orders of `TryPush`, `TryPushWith`, `TryPop` and `TryPopWith`. -/
def MemoryOrders.source : MemoryOrders :=
  ⟨true, true, true, true⟩

/-- The accesses of the producer. A load reads the `k`-th message. -/
inductive PushAccess (α : Type*)
  | loadTail (call : PushCall α) (k : ℕ)
  | loadHead (k : ℕ)
  | assign
  | fill (v : α) (ok : Bool)
  | storeTail

/-- The accesses of the consumer. -/
inductive PopAccess (α : Type*)
  | loadHead (k : ℕ)
  | loadTail (k : ℕ)
  | access (left : α)
  | storeHead

/-- An access of the one or the other. -/
inductive RingAccess (α : Type*)
  | push (a : PushAccess α)
  | pop (a : PopAccess α)

/-- The access, without the message that it reads. -/
def RingAccess.act : RingAccess α → RingAct α
  | .push (.loadTail call _) => .push (.loadTail call)
  | .push (.loadHead _) => .push .loadHead
  | .push .assign => .push .assign
  | .push (.fill v ok) => .push (.fill v ok)
  | .push .storeTail => .push .storeTail
  | .pop (.loadHead _) => .pop .loadHead
  | .pop (.loadTail _) => .pop .loadTail
  | .pop (.access left) => .pop (.access left)
  | .pop .storeHead => .pop .storeHead

/-- The memory, the two threads, the slots and values published and popped so far, and the
number of slots released. -/
structure OrderedRing (α : Type*) where
  mem : RaMemory RingSide RingIndex ℕ ℕ α
  producer : PushPc α := .idle none
  consumer : PopPc α := .idle none
  published : List (ℕ × α) := []
  popped : List (ℕ × α) := []
  released : ℕ := 0

namespace OrderedRing

variable (o : MemoryOrders) (C : Capacity)

/-- An access of the producer. Its own index it loads relaxed. -/
def pushStep (s : OrderedRing α) (a : PushAccess α) : Option (OrderedRing α) :=
  match s.producer, a with
  | .idle _, .loadTail call k =>
    (s.mem.load false .producer .tail k).map fun r =>
      { s with mem := r.2, producer := .loadedTail call r.1 }
  | .loadedTail call tail, .loadHead k =>
    (s.mem.load o.pushLoadsHead .producer .head k).map fun r =>
      { s with
        mem := r.2
        producer := if C.next tail = r.1 then .idle (some false) else .hasRoom call tail }
  | .hasRoom (.tryPush item) tail, .assign =>
    some { s with mem := s.mem.access .producer tail item, producer := .written tail item }
  | .hasRoom .tryPushWith tail, .fill v ok =>
    some { s with
      mem := s.mem.access .producer tail v
      producer := if ok then .written tail v else .idle (some false) }
  | .written tail item, .storeTail =>
    some { s with
      mem := s.mem.store o.pushStoresTail .producer .tail (C.next tail)
      producer := .idle (some true)
      published := s.published ++ [(tail, item)] }
  | _, _ => none

/-- An access of the consumer. Its own index it loads relaxed. -/
def popStep (s : OrderedRing α) (a : PopAccess α) : Option (OrderedRing α) :=
  match s.consumer, a with
  | .idle _, .loadHead k =>
    (s.mem.load false .consumer .head k).map fun r =>
      { s with mem := r.2, consumer := .loadedHead r.1 }
  | .loadedHead head, .loadTail k =>
    (s.mem.load o.popLoadsTail .consumer .tail k).map fun r =>
      { s with
        mem := r.2
        consumer := if head = r.1 then .idle (some false) else .nonEmpty head }
  | .nonEmpty head, .access left =>
    some { s with
      mem := s.mem.access .consumer head left
      consumer := .accessed head (s.mem.cells head)
      popped := s.popped ++ [(head, s.mem.cells head)] }
  | .accessed head _, .storeHead =>
    some { s with
      mem := s.mem.store o.popStoresHead .consumer .head (C.next head)
      consumer := .idle (some true)
      released := s.released + 1 }
  | _, _ => none

/-- An access of either side. -/
def step (s : OrderedRing α) : RingAccess α → Option (OrderedRing α)
  | .push a => s.pushStep o C a
  | .pop a => s.popStep o C a

/-- The empty ring. -/
def start (slots : ℕ → α) : OrderedRing α :=
  { mem := .start (fun _ => 0) slots }

/-- How many releases the producer has seen. -/
def seenReleased (s : OrderedRing α) : ℕ :=
  s.mem.views .producer (.inl .head)

/-- How many publications the consumer has seen. -/
def seenPublished (s : OrderedRing α) : ℕ :=
  s.mem.views .consumer (.inl .tail)

/-- What holds in every state of the ring with the orders of the source. -/
structure Sound (s : OrderedRing α) : Prop where
  /-- No two accesses to a slot race. -/
  raceFree : s.mem.raced = false
  /-- The values popped are the first ones published, each once, each from its slot. -/
  popped : s.popped <+: s.published
  /-- One slot is always kept empty. -/
  held_le : s.published.length - s.released ≤ C.val - 1
  /-- A push is refused as full only if all other slots were held after the last release that
  the producer has loaded. -/
  full : ∀ k t, s.pushStep .source C (.loadHead k) = some t → t.producer = .idle (some false) →
    k ≤ s.released ∧ s.published.length - k = C.val - 1
  /-- A pop is refused only if all is popped up to the last publication that the consumer has
  loaded. -/
  empty : ∀ k t, s.popStep .source C (.loadTail k) = some t → t.consumer = .idle (some false) →
    k = s.popped.length

end OrderedRing

/-! ## The invariant -/

/-- What the producer knows, with `published` values published. -/
def PushPc.Knows (C : Capacity) (published : ℕ) (mem : RaMemory RingSide RingIndex ℕ ℕ α) :
    PushPc α → Prop
  | .idle _ => True
  | .loadedTail _ tail => tail = published % C.val
  | .hasRoom _ tail | .written tail _ => tail = published % C.val ∧
    published + 1 < mem.views .producer (.inl .head) + C.val ∧
    mem.accesses tail ≤ mem.views .producer (.inr tail)

/-- What the consumer knows, with `popped` values popped and `released` slots released. -/
def PopPc.Knows (C : Capacity) (popped released : ℕ) (mem : RaMemory RingSide RingIndex ℕ ℕ α) :
    PopPc α → Prop
  | .idle _ => popped = released
  | .loadedHead head => popped = released ∧ head = released % C.val
  | .nonEmpty head => popped = released ∧ head = released % C.val ∧
    released < mem.views .consumer (.inl .tail) ∧
    mem.accesses head ≤ mem.views .consumer (.inr head)
  | .accessed head _ => popped = released + 1 ∧ head = released % C.val ∧
    mem.accesses head ≤ mem.views .consumer (.inr head)

variable {C : Capacity} {mem mem' : RaMemory RingSide RingIndex ℕ ℕ α}

theorem PushPc.Knows.mono {n : ℕ} {pc : PushPc α} (h : pc.Knows C n mem)
    (hviews : mem.views .producer ≤ mem'.views .producer)
    (hacc : mem'.accesses (n % C.val) = mem.accesses (n % C.val)) : pc.Knows C n mem' := by
  cases pc with
  | idle | loadedTail => exact h
  | hasRoom _ tail | written tail _ =>
    obtain ⟨rfl, hroom, hslot⟩ := h
    exact ⟨rfl, hroom.trans_le (Nat.add_le_add_right (hviews _) _),
      hacc ▸ hslot.trans (hviews _)⟩

theorem PopPc.Knows.mono {q r : ℕ} {pc : PopPc α} (h : pc.Knows C q r mem)
    (hviews : mem.views .consumer ≤ mem'.views .consumer)
    (hacc : r < q ∨ r < mem.views .consumer (.inl .tail) →
      mem'.accesses (r % C.val) = mem.accesses (r % C.val)) : pc.Knows C q r mem' := by
  cases pc with
  | idle | loadedHead => exact h
  | nonEmpty head =>
    obtain ⟨hq, rfl, hseen, hslot⟩ := h
    exact ⟨hq, rfl, hseen.trans_le (hviews _), hacc (.inr hseen) ▸ hslot.trans (hviews _)⟩
  | accessed head v =>
    obtain ⟨hq, rfl, hslot⟩ := h
    exact ⟨hq, rfl, hacc (.inl (by omega)) ▸ hslot.trans (hviews _)⟩

namespace OrderedRing

/-- The `k`-th message of an index carries `k` modulo the capacity. The accesses to a slot are
known to the message that hands the slot to the other side : that of its publication until
the value is popped (`handed`), that of its release until the slot is the next one to be
written (`returned`). -/
structure Inv (C : Capacity) (s : OrderedRing α) : Prop where
  bounded : s.mem.Bounded
  tailWriter : s.mem.Writer .producer .tail
  headWriter : s.mem.Writer .consumer .head
  tails : (s.mem.history .tail).map Message.value =
    (List.range (s.published.length + 1)).map (· % C.val)
  heads : (s.mem.history .head).map Message.value = (List.range (s.released + 1)).map (· % C.val)
  room : s.published.length < s.seenReleased + C.val
  seen : s.popped.length ≤ s.seenPublished
  popped : s.popped <+: s.published
  slot : ∀ m e, s.published[m]? = some e → e.1 = m % C.val
  stored : ∀ m e, s.popped.length ≤ m → s.published[m]? = some e → s.mem.cells e.1 = e.2
  written : ∀ tail item, s.producer = .written tail item → s.mem.cells tail = item
  untouched : ∀ x, s.published.length < x → x < C.val → s.mem.accesses x = 0
  handed : ∀ m msg, s.popped.length ≤ m → (s.mem.history .tail)[m + 1]? = some msg →
    s.mem.accesses (m % C.val) ≤ msg.view (.inr (m % C.val))
  returned : ∀ r msg, s.published.length < r + C.val →
    (s.mem.history .head)[r + 1]? = some msg →
    s.mem.accesses (r % C.val) ≤ msg.view (.inr (r % C.val))
  next : s.mem.accesses (s.published.length % C.val) ≤
      s.mem.views .producer (.inr (s.published.length % C.val)) ∨
    ∃ r, r + C.val = s.published.length ∧ ∀ msg, (s.mem.history .head)[r + 1]? = some msg →
      s.mem.accesses (r % C.val) ≤ msg.view (.inr (r % C.val))
  producer : s.producer.Knows C s.published.length s.mem
  consumer : s.consumer.Knows C s.popped.length s.released s.mem
  raced : s.mem.raced = false

variable {C : Capacity} {s t : OrderedRing α}

theorem inv_start (slots : ℕ → α) : (start slots).Inv C where
  bounded := ⟨fun _ _ => Nat.one_pos, fun _ msg hmsg _ => by
    rw [List.mem_singleton.1 hmsg]
    exact Nat.one_pos⟩
  tailWriter := ⟨le_rfl, fun msg hmsg => by rw [List.mem_singleton.1 hmsg]; exact le_rfl,
    List.pairwise_singleton _ _⟩
  headWriter := ⟨le_rfl, fun msg hmsg => by rw [List.mem_singleton.1 hmsg]; exact le_rfl,
    List.pairwise_singleton _ _⟩
  tails := by simp [start, RaMemory.start]
  heads := by simp [start, RaMemory.start]
  room := by simpa [start] using Nat.lt_add_left _ C.pos
  seen := Nat.zero_le _
  popped := List.prefix_rfl
  slot := by simp [start]
  stored := by simp [start]
  written := by simp [start]
  untouched _ _ _ := rfl
  handed _ _ _ _ := Nat.zero_le _
  returned _ _ _ _ := Nat.zero_le _
  next := .inl (Nat.zero_le _)
  producer := trivial
  consumer := rfl
  raced := rfl

namespace Inv

variable (hs : s.Inv C)
include hs

theorem length_tail : (s.mem.history .tail).length = s.published.length + 1 := by
  simpa using congrArg List.length hs.tails

theorem length_head : (s.mem.history .head).length = s.released + 1 := by
  simpa using congrArg List.length hs.heads

/-- The `k`-th message of `tail_`. -/
theorem tail_value {k : ℕ} {msg : Message ℕ RingIndex ℕ}
    (h : (s.mem.history .tail)[k]? = some msg) :
    k ≤ s.published.length ∧ msg.value = k % C.val := by
  have hlen := (List.getElem?_eq_some_iff.1 h).1
  rw [hs.length_tail] at hlen
  have hval := congrArg (·[k]?) hs.tails
  simp only [List.getElem?_map, h, List.getElem?_range hlen, Option.map_some] at hval
  exact ⟨Nat.le_of_lt_succ hlen, Option.some.inj hval⟩

/-- The `k`-th message of `head_`. -/
theorem head_value {k : ℕ} {msg : Message ℕ RingIndex ℕ}
    (h : (s.mem.history .head)[k]? = some msg) : k ≤ s.released ∧ msg.value = k % C.val := by
  have hlen := (List.getElem?_eq_some_iff.1 h).1
  rw [hs.length_head] at hlen
  have hval := congrArg (·[k]?) hs.heads
  simp only [List.getElem?_map, h, List.getElem?_range hlen, Option.map_some] at hval
  exact ⟨Nat.le_of_lt_succ hlen, Option.some.inj hval⟩

theorem seenReleased_le : s.seenReleased ≤ s.released := by
  have := hs.bounded.views .producer .head
  rw [hs.length_head] at this
  exact Nat.le_of_lt_succ this

theorem seenPublished_le : s.seenPublished ≤ s.published.length := by
  have := hs.bounded.views .consumer .tail
  rw [hs.length_tail] at this
  exact Nat.le_of_lt_succ this

theorem released_le_popped : s.released ≤ s.popped.length := by
  have h := hs.consumer
  revert h
  cases s.consumer with
  | idle => exact fun h => h.ge
  | loadedHead | nonEmpty => exact fun h => h.1.ge
  | accessed => exact fun h => h.1 ▸ Nat.le_succ _

/-- The ring never holds as many values as it has slots. -/
theorem lt_released_add : s.published.length < s.released + C.val := by
  have := hs.room
  have := hs.seenReleased_le
  omega

/-- A thread learns what messages carry. -/
theorem see {side : RingSide} {view : View RingIndex ℕ} (hb : (s.mem.see side view).Bounded) :
    Inv C { s with mem := s.mem.see side view } :=
  have hviews := fun u => RaMemory.le_views_see (m := s.mem) side u view
  { hs with
    bounded := hb
    tailWriter := hs.tailWriter.see _ _
    headWriter := hs.headWriter.see _ _
    room := hs.room.trans_le (Nat.add_le_add_right (hviews .producer _) _)
    seen := hs.seen.trans (hviews .consumer _)
    next := hs.next.imp_left fun h => h.trans (hviews .producer _)
    producer := hs.producer.mono (hviews .producer) rfl
    consumer := hs.consumer.mono (hviews .consumer) fun _ => rfl }

/-- The producer accesses the slot that it writes next. -/
theorem access_tail (hslot : s.mem.accesses (s.published.length % C.val) ≤
      s.mem.views .producer (.inr (s.published.length % C.val))) {v : α} {pc : PushPc α}
    (hitem : ∀ tail item, pc = .written tail item → item = v) (hpc : pc.Knows C s.published.length
      (s.mem.access .producer (s.published.length % C.val) v)) :
    Inv C { s with
      mem := s.mem.access .producer (s.published.length % C.val) v
      producer := pc } := by
  have hviews := fun u => RaMemory.le_views_access (m := s.mem) .producer u
    (s.published.length % C.val) v
  have hlt := hs.lt_released_add
  have hpop := hs.released_le_popped
  have hkeep : ∀ {m}, m < s.published.length → s.published.length < m + C.val →
      (s.mem.access .producer (s.published.length % C.val) v).accesses (m % C.val) =
        s.mem.accesses (m % C.val) := fun hm hr =>
    RaMemory.accesses_access_of_ne (C.mod_ne hm hr)
  refine { hs with
    bounded := hs.bounded.access _ _ _
    tailWriter := hs.tailWriter.access _ _ _
    headWriter := hs.headWriter.access _ _ _
    room := hs.room.trans_le (Nat.add_le_add_right (hviews .producer _) _)
    seen := hs.seen.trans (hviews .consumer _)
    stored := fun m e (hm : s.popped.length ≤ m) (he : s.published[m]? = some e) => ?_
    written := fun tail item hw => ?_
    untouched := fun x hx hxC => ?_
    handed := fun m msg (hm : s.popped.length ≤ m) hmsg => ?_
    returned := fun r msg (hr : s.published.length < r + C.val) hmsg => ?_
    next := .inl RaMemory.accesses_access_le
    producer := hpc
    consumer := hs.consumer.mono (hviews .consumer) fun hr => ?_
    raced := (RaMemory.raced_access hslot).trans hs.raced }
  · have hmlt := (List.getElem?_eq_some_iff.1 he).1
    have hne : e.1 ≠ s.published.length % C.val := by
      rw [hs.slot m e he]
      exact C.mod_ne hmlt (by omega)
    exact (Function.update_of_ne hne ..).trans (hs.stored m e hm he)
  · rw [show pc = .written tail item from hw] at hpc
    rw [hpc.1, hitem tail item hw]
    exact Function.update_self ..
  · have hne : x ≠ s.published.length % C.val := by
      rw [Nat.mod_eq_of_lt (hx.trans hxC)]
      exact hx.ne'
    exact (RaMemory.accesses_access_of_ne hne).trans (hs.untouched x hx hxC)
  · have hm' := (hs.tail_value hmsg).1
    exact (hkeep (by omega) (by omega)).le.trans (hs.handed m msg hm hmsg)
  · have hr' := (hs.head_value hmsg).1
    have := hs.popped.length_le
    exact (hkeep (by omega) hr).le.trans (hs.returned r msg hr hmsg)
  · have := hs.popped.length_le
    have := hs.seenPublished_le
    exact hkeep (hr.elim (by omega) fun h => h.trans_le this) hlt

/-- The consumer accesses the slot that it reads next. -/
theorem access_head (hq : s.popped.length = s.released) (hseen : s.released < s.seenPublished)
    (hslot : s.mem.accesses (s.released % C.val) ≤
      s.mem.views .consumer (.inr (s.released % C.val))) (left : α) :
    Inv C { s with
      mem := s.mem.access .consumer (s.released % C.val) left
      consumer := .accessed (s.released % C.val) (s.mem.cells (s.released % C.val))
      popped := s.popped ++ [(s.released % C.val, s.mem.cells (s.released % C.val))] } := by
  have hviews := fun u => RaMemory.le_views_access (m := s.mem) .consumer u
    (s.released % C.val) left
  have hlt := hs.lt_released_add
  have hP := hseen.trans_le hs.seenPublished_le
  obtain ⟨e, he⟩ : ∃ e, s.published[s.released]? = some e := ⟨_, List.getElem?_eq_getElem hP⟩
  have hval : e = (s.released % C.val, s.mem.cells (s.released % C.val)) := by
    have h1 := hs.slot _ e he
    have h2 := hs.stored _ e hq.le he
    rw [h1] at h2
    exact Prod.ext h1 h2.symm
  have hkeep : ∀ {m}, m % C.val ≠ s.released % C.val →
      (s.mem.access .consumer (s.released % C.val) left).accesses (m % C.val) =
        s.mem.accesses (m % C.val) := fun h => RaMemory.accesses_access_of_ne h
  have hnext := hkeep (m := s.published.length) (C.mod_ne hP hlt).symm
  refine { hs with
    bounded := hs.bounded.access _ _ _
    tailWriter := hs.tailWriter.access _ _ _
    headWriter := hs.headWriter.access _ _ _
    room := hs.room.trans_le (Nat.add_le_add_right (hviews .producer _) _)
    seen := ?_
    popped := ?_
    stored := fun m e hm (he : s.published[m]? = some e) => ?_
    written := fun tail item hw => ?_
    untouched := fun x (hx : s.published.length < x) hxC => ?_
    handed := fun m msg hm hmsg => ?_
    returned := fun r msg (hr : s.published.length < r + C.val) hmsg => ?_
    next := ?_
    producer := hs.producer.mono (hviews .producer) hnext
    consumer := ⟨by simp [hq], rfl, RaMemory.accesses_access_le⟩
    raced := (RaMemory.raced_access hslot).trans hs.raced }
  · rw [List.length_append, List.length_singleton, hq]
    exact hseen.trans_le (hviews .consumer _)
  · have htake : s.popped ++ [e] = s.published.take (s.released + 1) := by
      rw [List.take_add_one, he, ← hq, ← List.prefix_iff_eq_take.1 hs.popped]
      rfl
    rw [← hval, htake]
    exact List.take_prefix _ _
  · have hm : s.released + 1 ≤ m := by simpa [hq] using hm
    have hmlt := (List.getElem?_eq_some_iff.1 he).1
    have hne : e.1 ≠ s.released % C.val := by
      rw [hs.slot m e he]
      exact (C.mod_ne (by omega) (by omega)).symm
    exact (Function.update_of_ne hne ..).trans (hs.stored m e (by omega) he)
  · have hknows := hs.producer
    rw [hw] at hknows
    have hne : tail ≠ s.released % C.val := hknows.1 ▸ (C.mod_ne hP hlt).symm
    exact (Function.update_of_ne hne ..).trans (hs.written tail item hw)
  · have hne : x ≠ s.released % C.val := by
      rw [Nat.mod_eq_of_lt (by omega)]
      omega
    exact (RaMemory.accesses_access_of_ne hne).trans (hs.untouched x hx hxC)
  · have hm : s.released + 1 ≤ m := by simpa [hq] using hm
    have hm' := (hs.tail_value hmsg).1
    exact (hkeep (C.mod_ne (by omega) (by omega)).symm).le.trans (hs.handed m msg (by omega) hmsg)
  · have hr' := (hs.head_value hmsg).1
    exact (hkeep (C.mod_ne (by omega) (by omega))).le.trans (hs.returned r msg hr hmsg)
  · refine hs.next.imp (fun h => hnext.le.trans (h.trans (hviews .producer _))) ?_
    rintro ⟨r, hr, h⟩
    have hmod : r % C.val = s.published.length % C.val := by rw [← hr, Nat.add_mod_right]
    refine ⟨r, hr, fun msg hmsg => le_trans (le_of_eq ?_) (h msg hmsg)⟩
    exact hkeep (hmod ▸ (C.mod_ne hP hlt).symm)

/-- The producer publishes the slot that it has written. -/
theorem store_tail (hroom : s.published.length + 1 < s.seenReleased + C.val)
    (hslot : s.mem.accesses (s.published.length % C.val) ≤
      s.mem.views .producer (.inr (s.published.length % C.val))) {item : α}
    (hitem : s.mem.cells (s.published.length % C.val) = item) :
    Inv C { s with
      mem := s.mem.store true .producer .tail (C.next (s.published.length % C.val))
      producer := .idle (some true)
      published := s.published ++ [(s.published.length % C.val, item)] } := by
  have hviews := fun u => RaMemory.le_views_store (m := s.mem) true .producer u .tail
    (C.next (s.published.length % C.val))
  have hhead := RaMemory.history_store_of_ne (m := s.mem) (i := RingIndex.tail)
    (j := RingIndex.head) nofun true .producer (C.next (s.published.length % C.val))
  have hlen : (s.published ++ [(s.published.length % C.val, item)]).length =
      s.published.length + 1 := by simp
  refine { hs with
    bounded := hs.bounded.store _ _ _ _
    tailWriter := hs.tailWriter.store _
    headWriter := hs.headWriter.store_of_ne (by decide) _ _ _
    tails := ?_
    heads := ?_
    room := ?_
    seen := hs.seen.trans (hviews .consumer _)
    popped := hs.popped.trans (List.prefix_append _ _)
    slot := fun m e he => ?_
    stored := fun m e hm he => ?_
    written := by simp
    untouched := fun x hx hxC => ?_
    handed := fun m msg hm hmsg => ?_
    returned := fun r msg hr hmsg => ?_
    next := ?_
    producer := trivial
    consumer := hs.consumer.mono (hviews .consumer) fun _ => rfl
    raced := hs.raced }
  · rw [RaMemory.history_store, List.map_append, hs.tails, hlen, List.range_succ (n := _ + 1),
      List.map_append]
    simp [C.next_mod]
  · rw [hhead]
    exact hs.heads
  · rw [hlen]
    exact hroom.trans_le (Nat.add_le_add_right (hviews .producer _) _)
  · rcases getElem?_snoc he with he | ⟨rfl, rfl⟩
    · exact hs.slot m e he
    · rfl
  · rcases getElem?_snoc he with he | ⟨rfl, rfl⟩
    · exact hs.stored m e hm he
    · exact hitem
  · rw [hlen] at hx
    exact hs.untouched x (by omega) hxC
  · rw [RaMemory.history_store] at hmsg
    rcases getElem?_snoc hmsg with hmsg | ⟨hm', rfl⟩
    · exact hs.handed m msg hm hmsg
    · rw [hs.length_tail] at hm'
      obtain rfl : m = s.published.length := by omega
      exact hslot.trans (RaMemory.le_views_see RingSide.producer _ _ _)
  · rw [hlen] at hr
    rw [hhead] at hmsg
    exact hs.returned r msg (by omega) hmsg
  · rw [hlen]
    rcases Nat.lt_or_ge (s.published.length + 1) C.val with hlt | hge
    · left
      rw [Nat.mod_eq_of_lt hlt]
      exact (hs.untouched _ (Nat.lt_succ_self _) hlt).le.trans (Nat.zero_le _)
    · refine .inr ⟨s.published.length + 1 - C.val, by omega, fun msg hmsg => ?_⟩
      rw [hhead] at hmsg
      exact hs.returned _ msg (by omega) hmsg

/-- The consumer releases the slot that it has read. -/
theorem store_head (hq : s.popped.length = s.released + 1)
    (hslot : s.mem.accesses (s.released % C.val) ≤
      s.mem.views .consumer (.inr (s.released % C.val))) :
    Inv C { s with
      mem := s.mem.store true .consumer .head (C.next (s.released % C.val))
      consumer := .idle (some true)
      released := s.released + 1 } := by
  have hviews := fun u => RaMemory.le_views_store (m := s.mem) true .consumer u .head
    (C.next (s.released % C.val))
  have htail := RaMemory.history_store_of_ne (m := s.mem) (i := RingIndex.head)
    (j := RingIndex.tail) nofun true .consumer (C.next (s.released % C.val))
  refine { hs with
    bounded := hs.bounded.store _ _ _ _
    tailWriter := hs.tailWriter.store_of_ne (by decide) _ _ _
    headWriter := hs.headWriter.store _
    tails := ?_
    heads := ?_
    room := hs.room.trans_le (Nat.add_le_add_right (hviews .producer _) _)
    seen := hs.seen.trans (hviews .consumer _)
    handed := fun m msg hm hmsg => ?_
    returned := fun r msg hr hmsg => ?_
    next := hs.next.imp (fun h => h.trans (hviews .producer _)) ?_
    producer := hs.producer.mono (hviews .producer) rfl
    consumer := hq
    raced := hs.raced }
  · rw [htail]
    exact hs.tails
  · rw [RaMemory.history_store, List.map_append, hs.heads, List.range_succ (n := _ + 1),
      List.map_append]
    simp [C.next_mod]
  · rw [htail] at hmsg
    exact hs.handed m msg hm hmsg
  · rw [RaMemory.history_store] at hmsg
    rcases getElem?_snoc hmsg with hmsg | ⟨hr', rfl⟩
    · exact hs.returned r msg hr hmsg
    · rw [hs.length_head] at hr'
      obtain rfl : r = s.released := by omega
      exact hslot.trans (RaMemory.le_views_see RingSide.consumer _ _ _)
  · rintro ⟨r, hr, h⟩
    refine ⟨r, hr, fun msg hmsg => ?_⟩
    rw [RaMemory.history_store] at hmsg
    rcases getElem?_snoc hmsg with hmsg | ⟨hr', rfl⟩
    · exact h msg hmsg
    · rw [hs.length_head] at hr'
      have := hs.lt_released_add
      omega

/-- The full check, on the `k`-th message of `head_`. -/
theorem next_tail_eq_iff {k : ℕ} (hk : s.seenReleased ≤ k) (hk' : k ≤ s.released) :
    C.next (s.published.length % C.val) = k % C.val ↔ s.published.length + 1 = k + C.val := by
  have hroom := hs.room
  have hle := hs.released_le_popped.trans hs.popped.length_le
  rw [C.next_mod]
  constructor
  · intro heq
    by_contra hne
    exact C.mod_ne (m := s.published.length + 1) (by omega) (by omega) heq.symm
  · intro heq
    rw [heq, Nat.add_mod_right]

/-- The empty check, on the `k`-th message of `tail_`. -/
theorem head_eq_iff {k : ℕ} (hq : s.popped.length = s.released) (hk : s.seenPublished ≤ k)
    (hk' : k ≤ s.published.length) : s.released % C.val = k % C.val ↔ k = s.released := by
  have hseen := hs.seen
  have hlt := hs.lt_released_add
  constructor
  · intro heq
    by_contra hne
    exact C.mod_ne (by omega) (by omega) heq
  · intro heq
    rw [heq]

/-- The producer has loaded a message of `head_` that leaves it room : it knows all accesses
to the slot that it writes next. -/
theorem knows_tail {k : ℕ} {msg : Message ℕ RingIndex ℕ}
    (hmsg : (s.mem.history .head)[k]? = some msg) (hroom : s.published.length + 1 < k + C.val)
    {view : View RingIndex ℕ} (hview : msg.view ≤ view) (hview' : s.mem.views .producer ≤ view) :
    s.mem.accesses (s.published.length % C.val) ≤ view (.inr (s.published.length % C.val)) := by
  rcases hs.next with h | ⟨r, hr, h⟩
  · exact h.trans (hview' _)
  · have hmod : s.published.length % C.val = r % C.val := by rw [← hr, Nat.add_mod_right]
    have hlen := (List.getElem?_eq_some_iff.1 hmsg).1
    obtain ⟨msg', hmsg'⟩ : ∃ msg', (s.mem.history .head)[r + 1]? = some msg' :=
      ⟨_, List.getElem?_eq_getElem (by omega)⟩
    rw [hmod]
    exact (h msg' hmsg').trans
      ((hs.headWriter.view_mono (by omega) hmsg' hmsg).trans hview _)

/-- The consumer has loaded a message of `tail_` with something to pop : it knows all accesses
to the slot that it reads next. -/
theorem knows_head {k : ℕ} {msg : Message ℕ RingIndex ℕ}
    (hmsg : (s.mem.history .tail)[k]? = some msg) (hq : s.popped.length = s.released)
    (hk : s.released < k) {view : View RingIndex ℕ} (hview : msg.view ≤ view) :
    s.mem.accesses (s.released % C.val) ≤ view (.inr (s.released % C.val)) := by
  have hlen := (List.getElem?_eq_some_iff.1 hmsg).1
  obtain ⟨msg', hmsg'⟩ : ∃ msg', (s.mem.history .tail)[s.released + 1]? = some msg' :=
    ⟨_, List.getElem?_eq_getElem (by omega)⟩
  exact (hs.handed _ msg' hq.le hmsg').trans
    ((hs.tailWriter.view_mono hk hmsg' hmsg).trans hview _)

end Inv

/-- The accesses of the producer keep the invariant. -/
theorem inv_pushStep (hs : s.Inv C) {a : PushAccess α} (h : s.pushStep .source C a = some t) :
    t.Inv C := by
  have hpc := hs.producer
  unfold pushStep at h
  split at h
  · next r call k hp =>
    obtain ⟨⟨v, mem⟩, hload, rfl⟩ := Option.map_eq_some_iff.1 h
    obtain ⟨hk, msg, hmsg, rfl, rfl⟩ := RaMemory.exists_of_load hload
    have hlast := hs.tailWriter.load_own hk hmsg
    rw [hs.length_tail] at hlast
    obtain rfl : k = s.published.length := by omega
    exact { hs.see (hs.bounded.load hmsg false _) with
      written := by simp
      producer := (hs.tail_value hmsg).2 }
  · next call tail k hp =>
    obtain ⟨⟨v, mem⟩, hload, rfl⟩ := Option.map_eq_some_iff.1 h
    obtain ⟨hk, msg, hmsg, rfl, rfl⟩ := RaMemory.exists_of_load hload
    obtain ⟨hk', hval⟩ := hs.head_value hmsg
    rw [hp] at hpc
    obtain rfl : tail = s.published.length % C.val := hpc
    refine { hs.see (hs.bounded.load hmsg true _) with
      written := by split_ifs <;> simp
      producer := ?_ }
    simp only [hval]
    by_cases hfull : C.next (s.published.length % C.val) = k % C.val
    · rw [if_pos hfull]
      trivial
    · rw [if_neg hfull]
      rw [hs.next_tail_eq_iff hk hk'] at hfull
      have hroom := hs.room
      have hseen : k ≤ (s.mem.see .producer
          (Function.update ⊥ (.inl .head) k ⊔ msg.view)).views .producer (.inl .head) :=
        RaMemory.le_views_load
      have hk'' : s.seenReleased ≤ k := hk
      refine ⟨rfl, ?_, hs.knows_tail hmsg (by omega) ?_ (RaMemory.le_views_see _ _ _)⟩
      · exact lt_of_lt_of_le (show s.published.length + 1 < k + C.val by omega)
          (Nat.add_le_add_right hseen _)
      · exact le_sup_right.trans (RaMemory.view_le_views_see _ _)
  · next item tail hp =>
    cases h
    rw [hp] at hpc
    obtain ⟨rfl, hroom, hslot⟩ := hpc
    exact hs.access_tail hslot (by simp) ⟨rfl, hroom.trans_le (Nat.add_le_add_right
      (RaMemory.le_views_access _ _ _ _ _) _), RaMemory.accesses_access_le⟩
  · next tail v ok hp =>
    cases h
    rw [hp] at hpc
    obtain ⟨rfl, hroom, hslot⟩ := hpc
    refine hs.access_tail hslot (by cases ok <;> simp) ?_
    cases ok with
    | false => trivial
    | true => exact ⟨rfl, hroom.trans_le (Nat.add_le_add_right
        (RaMemory.le_views_access _ _ _ _ _) _), RaMemory.accesses_access_le⟩
  · next tail item hp =>
    cases h
    rw [hp] at hpc
    obtain ⟨rfl, hroom, hslot⟩ := hpc
    exact hs.store_tail hroom hslot (hs.written _ item hp)
  · cases h

/-- The accesses of the consumer keep the invariant. -/
theorem inv_popStep (hs : s.Inv C) {a : PopAccess α} (h : s.popStep .source C a = some t) :
    t.Inv C := by
  have hpc := hs.consumer
  unfold popStep at h
  split at h
  · next r k hp =>
    obtain ⟨⟨v, mem⟩, hload, rfl⟩ := Option.map_eq_some_iff.1 h
    obtain ⟨hk, msg, hmsg, rfl, rfl⟩ := RaMemory.exists_of_load hload
    have hlast := hs.headWriter.load_own hk hmsg
    rw [hs.length_head] at hlast
    obtain rfl : k = s.released := by omega
    rw [hp] at hpc
    exact { hs.see (hs.bounded.load hmsg false _) with
      consumer := ⟨hpc, (hs.head_value hmsg).2⟩ }
  · next head k hp =>
    obtain ⟨⟨v, mem⟩, hload, rfl⟩ := Option.map_eq_some_iff.1 h
    obtain ⟨hk, msg, hmsg, rfl, rfl⟩ := RaMemory.exists_of_load hload
    obtain ⟨hk', hval⟩ := hs.tail_value hmsg
    rw [hp] at hpc
    obtain ⟨hq, rfl⟩ := hpc
    refine { hs.see (hs.bounded.load hmsg true _) with consumer := ?_ }
    simp only [hval]
    by_cases hempty : s.released % C.val = k % C.val
    · rw [if_pos hempty]
      exact hq
    · rw [if_neg hempty]
      rw [hs.head_eq_iff hq hk hk'] at hempty
      have hseen := hs.seen
      have hk'' : s.seenPublished ≤ k := hk
      have hlt : s.released < k := by omega
      exact ⟨hq, rfl, hlt.trans_le RaMemory.le_views_load,
        hs.knows_head hmsg hq hlt (le_sup_right.trans (RaMemory.view_le_views_see _ _))⟩
  · next head left hp =>
    cases h
    rw [hp] at hpc
    obtain ⟨hq, rfl, hseen, hslot⟩ := hpc
    exact hs.access_head hq hseen hslot left
  · next head v hp =>
    cases h
    rw [hp] at hpc
    obtain ⟨hq, rfl, hslot⟩ := hpc
    exact hs.store_head hq hslot
  · cases h

theorem inv_of_run {slots : ℕ → α} {as : List (RingAccess α)}
    (h : exec (step .source C) (start slots) as = some s) : s.Inv C := by
  refine exec_invariant (fun s a t hs ht => ?_) (inv_start slots) h
  cases a with
  | push a => exact inv_pushStep hs ht
  | pop a => exact inv_popStep hs ht

theorem Inv.full (hs : s.Inv C) {k : ℕ} (h : s.pushStep .source C (.loadHead k) = some t)
    (ht : t.producer = .idle (some false)) :
    k ≤ s.released ∧ s.published.length - k = C.val - 1 := by
  cases hp : s.producer with
  | loadedTail call tail =>
    simp only [pushStep, hp] at h
    obtain ⟨⟨v, mem⟩, hload, rfl⟩ := Option.map_eq_some_iff.1 h
    obtain ⟨hk, msg, hmsg, rfl, rfl⟩ := RaMemory.exists_of_load hload
    obtain ⟨hk', hval⟩ := hs.head_value hmsg
    have hpc := hs.producer
    rw [hp] at hpc
    obtain rfl : tail = s.published.length % C.val := hpc
    simp only [hval] at ht
    split_ifs at ht with hfull
    rw [hs.next_tail_eq_iff hk hk'] at hfull
    exact ⟨hk', by omega⟩
  | idle | hasRoom | written => simp [pushStep, hp] at h

theorem Inv.empty (hs : s.Inv C) {k : ℕ} (h : s.popStep .source C (.loadTail k) = some t)
    (ht : t.consumer = .idle (some false)) : k = s.popped.length := by
  cases hp : s.consumer with
  | loadedHead head =>
    simp only [popStep, hp] at h
    obtain ⟨⟨v, mem⟩, hload, rfl⟩ := Option.map_eq_some_iff.1 h
    obtain ⟨hk, msg, hmsg, rfl, rfl⟩ := RaMemory.exists_of_load hload
    obtain ⟨hk', hval⟩ := hs.tail_value hmsg
    have hpc := hs.consumer
    rw [hp] at hpc
    obtain ⟨hq, rfl⟩ := hpc
    simp only [hval] at ht
    split_ifs at ht with hempty
    rw [hs.head_eq_iff hq hk hk'] at hempty
    exact hempty.trans hq.symm
  | idle | nonEmpty | accessed => simp [popStep, hp] at h

/-- With any orders, an access carries on the item of the call in progress. -/
theorem matches_step {o : MemoryOrders} {a : RingAccess α} {offers : Offers α}
    (ho : offers.Match s.producer s.published) (h : s.step o C a = some t) :
    (offers.access a.act).Match t.producer t.published := by
  obtain ⟨hcurrent, hstored⟩ := ho
  cases a with
  | pop a =>
    obtain ⟨hproducer, hpublished, hact⟩ : t.producer = s.producer ∧ t.published = s.published ∧
        offers.access (RingAccess.act (.pop a)) = offers := by
      simp only [step] at h
      unfold popStep at h
      split at h
      · obtain ⟨r, -, rfl⟩ := Option.map_eq_some_iff.1 h
        exact ⟨rfl, rfl, rfl⟩
      · obtain ⟨r, -, rfl⟩ := Option.map_eq_some_iff.1 h
        exact ⟨rfl, rfl, rfl⟩
      · cases h
        exact ⟨rfl, rfl, rfl⟩
      · cases h
        exact ⟨rfl, rfl, rfl⟩
      · cases h
    rw [hproducer, hpublished, hact]
    exact ⟨hcurrent, hstored⟩
  | push a =>
    simp only [step] at h
    unfold pushStep at h
    split at h
    · next r call k hp =>
      obtain ⟨r, -, rfl⟩ := Option.map_eq_some_iff.1 h
      refine ⟨fun item hitem => ?_, by cases call <;> exact hstored⟩
      cases call with
      | tryPush => exact hitem
      | tryPushWith => cases hitem
    · next call tail k hp =>
      obtain ⟨r, -, rfl⟩ := Option.map_eq_some_iff.1 h
      refine ⟨fun item hitem => hcurrent item ?_, hstored⟩
      rw [hp]
      simp only at hitem
      split_ifs at hitem
      · cases hitem
      · cases call <;> exact hitem
    · next item tail hp =>
      cases h
      exact ⟨fun v hv => hcurrent v (hp ▸ hv), hstored⟩
    · next tail v ok hp =>
      cases h
      refine ⟨fun item hitem => ?_, hstored⟩
      cases ok with
      | true => exact hitem
      | false => cases hitem
    · next tail item hp =>
      cases h
      have hitem : offers.current = some item := hcurrent item (hp ▸ rfl)
      exact ⟨by simp [PushPc.item], by simp [RingAccess.act, Offers.access, hitem, hstored]⟩
    · cases h

/-- The values published are the items offered, with any orders. -/
theorem published_eq_offered {o : MemoryOrders} {slots : ℕ → α} {as : List (RingAccess α)}
    (h : exec (step o C) (start slots) as = some s) :
    s.published.map Prod.snd = offered (as.map RingAccess.act) := by
  have hstart : Offers.Match {} (start slots).producer (start slots).published :=
    ⟨by simp [start, PushPc.item], rfl⟩
  rw [offered, List.foldl_map]
  exact (exec_foldl (R := fun s o => Offers.Match o s.producer s.published)
    (fun _ _ _ _ ho h => matches_step ho h) hstart h).stored

/-- With the orders of the source, in every state of every interleaving and whatever messages
the loads read : no two accesses to a slot race, the values popped are the first ones
published, one slot is kept empty, and a call is refused only for what its thread has loaded.
The values published are the items that the calls were given, or filled in, in the order of the
calls. -/
theorem sound_of_source_orders {slots : ℕ → α} {as : List (RingAccess α)}
    (h : exec (step .source C) (start slots) as = some s) :
    s.Sound C ∧ s.published.map Prod.snd = offered (as.map RingAccess.act) := by
  have hs := inv_of_run h
  have hlt := hs.lt_released_add
  exact ⟨{
      raceFree := hs.raced
      popped := hs.popped
      held_le := by omega
      full := fun k t ht => hs.full ht
      empty := fun k t ht => hs.empty ht }, published_eq_offered h⟩

/-! ## The orders are needed -/

/-- A value is pushed and popped. -/
def handOver : List (RingAccess ℕ) :=
  [.push (.loadTail (.tryPush 7) 0), .push (.loadHead 0), .push .assign, .push .storeTail,
    .pop (.loadHead 0), .pop (.loadTail 1), .pop (.access 0)]

/-- The first slot is released, the second one pushed, popped and released, and the first one
written again. -/
def reuse : List (RingAccess ℕ) :=
  handOver ++
  [.pop .storeHead, .push (.loadTail (.tryPush 8) 1), .push (.loadHead 1), .push .assign,
    .push .storeTail, .pop (.loadHead 1), .pop (.loadTail 2), .pop (.access 0), .pop .storeHead,
    .push (.loadTail (.tryPush 9) 2), .push (.loadHead 2), .push .assign]

/-- A slot is handed over without the order, or taken back without it. -/
theorem exists_race {o : MemoryOrders} (ho : o ≠ .source) :
    ∃ as s, exec (step o RingBuffer.twoSlots) (start fun _ => 0) as = some s ∧
      s.mem.raced = true := by
  by_cases htail : o.pushStoresTail ∧ o.popLoadsTail
  · refine ⟨reuse, exists_exec_of_any ?_⟩
    rcases o with ⟨_ | _, _ | _, _ | _, _ | _⟩ <;> revert ho htail <;> decide +kernel
  · refine ⟨handOver, exists_exec_of_any ?_⟩
    rcases o with ⟨_ | _, _ | _, _ | _, _ | _⟩ <;> revert ho htail <;> decide +kernel

theorem sound_of_source_orders_reuse :
    ∃ s, exec (step .source RingBuffer.twoSlots) (start fun _ => 0) reuse = some s ∧
      s.popped = [(0, 7), (1, 8)] ∧ s.Sound RingBuffer.twoSlots ∧
        s.published.map Prod.snd = [7, 8] := by
  obtain ⟨s, hs, hpopped⟩ : ∃ s,
      exec (step .source RingBuffer.twoSlots) (start fun _ => 0) reuse = some s ∧
      s.popped = [(0, 7), (1, 8)] := exists_exec_of_any (by decide +kernel)
  obtain ⟨hsound, hoffered⟩ := sound_of_source_orders hs
  exact ⟨s, hs, hpopped, hsound, hoffered⟩

/-- The ring is free of data races with exactly the orders of the source. -/
theorem raceFree_iff (o : MemoryOrders) :
    (∀ (C : Capacity) (slots : ℕ → ℕ) (as : List (RingAccess ℕ)) (s : OrderedRing ℕ),
      exec (step o C) (start slots) as = some s → s.mem.raced = false) ↔ o = .source := by
  constructor
  · intro hfree
    by_contra ho
    obtain ⟨as, s, hs, hraced⟩ := exists_race ho
    exact Bool.false_ne_true ((hfree RingBuffer.twoSlots _ as s hs).symm.trans hraced)
  · rintro rfl C slots as s hs
    exact (inv_of_run hs).raced

end OrderedRing

end Ridgeline
