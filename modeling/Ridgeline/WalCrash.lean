import Ridgeline.FileSystem
import Ridgeline.WalThreads

/-!
# The log when a call is interrupted

`Acknowledge` and `Compact` replace a file through `AtomicWriteFile` : open the temp file, write
it, `fsync` it, and `rename` it over the file. Here each of these calls is one step of a process
on a file system, the process may be killed after any of them, and a call that fails throws
(`WalMachine.step`). A temp file that an earlier call has left, by this process or by one before
it, stays where it is until it is opened again.

Reopening the log sees only the calls whose `rename` was made, each as a whole : the machine
refines the log of one call at a time (`reopen_exec`). So a call that is interrupted has taken
effect or has not (`crash_atomic`), and what a temp file holds is never noticed.
-/

namespace Ridgeline

/-! ## Paths -/

/-- The path of the temp file of `AtomicWriteFile`. -/
def tmpPath (path : Bytes) : Bytes :=
  path ++ ascii ".tmp"

theorem ne_tmpPath (path : Bytes) : path ≠ tmpPath path := by
  intro h
  have hlen := congrArg List.length h
  simp [tmpPath, ascii] at hlen

/-- The two paths of a `Wal`. Neither is the other one or its temp file. -/
structure WalPaths where
  wal : Bytes
  checkpoint : Bytes
  wal_ne : wal ≠ checkpoint
  wal_ne_tmp : wal ≠ tmpPath checkpoint
  checkpoint_ne_tmp : checkpoint ≠ tmpPath wal

/-- What `fs::path(dir) / name` puts before `name`. -/
def withSlash (dir : Bytes) : Bytes :=
  if dir = [] ∨ dir.getLast? = some 47 then dir else dir ++ ascii "/"

/-- The paths that `main` of the agent opens its log at. -/
def WalPaths.agent (stateDir : Bytes) : WalPaths where
  wal := withSlash stateDir ++ ascii "events.wal"
  checkpoint := withSlash stateDir ++ ascii "events.ckpt"
  wal_ne h := absurd (List.append_cancel_left h) (by decide)
  wal_ne_tmp h := by
    rw [tmpPath, List.append_assoc] at h
    exact absurd (List.append_cancel_left h) (by decide)
  checkpoint_ne_tmp h := by
    rw [tmpPath, List.append_assoc] at h
    exact absurd (List.append_cancel_left h) (by decide)

/-- The two temp files. -/
def WalPaths.IsTmp (p : WalPaths) (path : Bytes) : Prop :=
  path = tmpPath p.wal ∨ path = tmpPath p.checkpoint

theorem WalPaths.not_isTmp_wal (p : WalPaths) : ¬ p.IsTmp p.wal :=
  not_or.2 ⟨ne_tmpPath p.wal, p.wal_ne_tmp⟩

theorem WalPaths.not_isTmp_checkpoint (p : WalPaths) : ¬ p.IsTmp p.checkpoint :=
  not_or.2 ⟨p.checkpoint_ne_tmp, ne_tmpPath p.checkpoint⟩

/-! ## The calls -/

/-- A call that replaces a file. -/
inductive WalCall
  | acknowledge (upToSeq : UInt64)
  | compact
  deriving DecidableEq, Repr

namespace WalCall

/-- The file that the call replaces. -/
def path (p : WalPaths) : WalCall → Bytes
  | acknowledge _ => p.checkpoint
  | compact => p.wal

/-- The call, when it returns. -/
def apply (w : Wal) : WalCall → Wal
  | acknowledge upToSeq => w.acknowledge upToSeq
  | compact => w.compact

/-- What the call gives to `AtomicWriteFile`. -/
def contents (w : Wal) : WalCall → Bytes
  | acknowledge upToSeq => checkpointBytes upToSeq
  | compact => w.compact.disk.wal

/-- `last_acked_seq_` when the call returns. -/
def lastAcked (lastAckedSeq : UInt64) : WalCall → UInt64
  | acknowledge upToSeq => upToSeq
  | compact => lastAckedSeq

/-- The call is a stale ack, which returns at once. -/
def Stale (lastAckedSeq : UInt64) : WalCall → Prop
  | acknowledge upToSeq => upToSeq ≤ lastAckedSeq
  | compact => False

instance (lastAckedSeq : UInt64) : ∀ c : WalCall, Decidable (c.Stale lastAckedSeq)
  | acknowledge _ => inferInstanceAs (Decidable (_ ≤ _))
  | compact => .isFalse id

end WalCall

/-! ## The machine -/

/-- A process with its log : between two calls, in `AtomicWriteFile`, or behind its `rename`. -/
inductive WalPc
  | idle
  | replacing (call : WalCall) (file : AtomicWrite)
  | renamed (call : WalCall)
  deriving DecidableEq, Repr

/-- A process : `last_acked_seq_`, and where it is. -/
structure WalProcess where
  lastAckedSeq : UInt64
  pc : WalPc
  deriving DecidableEq, Repr

/-- The files, and the process if there is one. -/
structure WalMachine where
  files : FileSystem Bytes
  process : Option WalProcess

/-- A process opens the log, enters a call, makes one of the file-system calls, or returns. Where
a file-system call fails, the call throws. -/
inductive WalMachineAct
  | start
  | enter (call : WalCall)
  | tmp (a : AtomicWriteAct)
  | rename
  | finish
  | fail
  | kill
  deriving DecidableEq, Repr

/-- The step is one of the call in progress, or its interruption. -/
def WalMachineAct.InCall : WalMachineAct → Prop
  | start | enter _ => False
  | _ => True

instance : ∀ a : WalMachineAct, Decidable a.InCall
  | .start | .enter _ => .isFalse id
  | .tmp _ | .rename | .finish | .fail | .kill => .isTrue trivial

/-- What a call of `AtomicWriteFile` before `rename` does to the temp file. -/
def AtomicWrite.writeTo (fs : FileSystem Bytes) (tmp : Bytes) :
    AtomicWrite → AtomicWriteAct → FileSystem Bytes
  | _, .openTmp => fs.truncate tmp
  | writing _ rest, .write n => fs.append tmp (rest.take n)
  | _, _ => fs

/-- The log that a process finds on the files. -/
def reopen (p : WalPaths) (fs : FileSystem Bytes) : Wal :=
  Wal.open ⟨fs.read p.wal, fs.read p.checkpoint⟩

namespace WalMachine

variable (p : WalPaths)

/-- The state after a call is entered. -/
def enter (m : WalMachine) (lastAckedSeq : UInt64) (c : WalCall) : WalPc :=
  if c.Stale lastAckedSeq then .idle
  else .replacing c (.entered (c.contents
    ⟨⟨m.files.read p.wal, m.files.read p.checkpoint⟩, lastAckedSeq⟩))

/-- One step. A process begins with the checkpoint of the files, and its death leaves the files as
they are. -/
def step (m : WalMachine) : WalMachineAct → Option WalMachine
  | .start =>
    match m.process with
    | none => some ⟨m.files.create p.wal,
        some ⟨loadCheckpoint (m.files.read p.checkpoint), .idle⟩⟩
    | some _ => none
  | .enter c =>
    match m.process with
    | some ⟨last, .idle⟩ => some { m with process := some ⟨last, m.enter p last c⟩ }
    | _ => none
  | .tmp a =>
    match m.process with
    | some ⟨last, .replacing c file⟩ => (file.step a).map fun file' =>
        ⟨file.writeTo m.files (tmpPath (c.path p)) a, some ⟨last, .replacing c file'⟩⟩
    | _ => none
  | .rename =>
    match m.process with
    | some ⟨last, .replacing c (.synced _)⟩ =>
      some ⟨m.files.rename (tmpPath (c.path p)) (c.path p), some ⟨last, .renamed c⟩⟩
    | _ => none
  | .finish =>
    match m.process with
    | some ⟨last, .renamed c⟩ => some { m with process := some ⟨c.lastAcked last, .idle⟩ }
    | _ => none
  | .fail =>
    match m.process with
    | some ⟨last, .replacing _ _⟩ => some { m with process := some ⟨last, .idle⟩ }
    | _ => none
  | .kill => m.process.map fun _ => { m with process := none }

/-- What a step can do. -/
inductive Step (m : WalMachine) : WalMachineAct → WalMachine → Prop
  | start (h : m.process = none) : Step m .start
      ⟨m.files.create p.wal, some ⟨loadCheckpoint (m.files.read p.checkpoint), .idle⟩⟩
  | enter {last} (c) (h : m.process = some ⟨last, .idle⟩) : Step m (.enter c)
      { m with process := some ⟨last, m.enter p last c⟩ }
  | tmp {last c file file'} (a) (h : m.process = some ⟨last, .replacing c file⟩)
      (hfile : file.step a = some file') : Step m (.tmp a)
      ⟨file.writeTo m.files (tmpPath (c.path p)) a, some ⟨last, .replacing c file'⟩⟩
  | rename {last c contents} (h : m.process = some ⟨last, .replacing c (.synced contents)⟩) :
      Step m .rename
      ⟨m.files.rename (tmpPath (c.path p)) (c.path p), some ⟨last, .renamed c⟩⟩
  | finish {last c} (h : m.process = some ⟨last, .renamed c⟩) : Step m .finish
      { m with process := some ⟨c.lastAcked last, .idle⟩ }
  | fail {last c file} (h : m.process = some ⟨last, .replacing c file⟩) : Step m .fail
      { m with process := some ⟨last, .idle⟩ }
  | kill {proc} (h : m.process = some proc) : Step m .kill { m with process := none }

variable {p} {m t : WalMachine} {a : WalMachineAct}

theorem Step.of_step (h : m.step p a = some t) : Step p m a t := by
  rcases m with ⟨fs, _ | ⟨last, _ | ⟨c, file⟩ | c⟩⟩ <;> cases a <;>
    simp only [WalMachine.step, reduceCtorEq, Option.some.injEq, Option.map_none,
      Option.map_some] at h
  case none.start => exact h ▸ .start rfl
  case some.idle.enter c => exact h ▸ .enter c rfl
  case some.replacing.tmp a =>
    obtain ⟨file', hfile, rfl⟩ := Option.map_eq_some_iff.1 h
    exact .tmp a rfl hfile
  case some.replacing.rename =>
    cases file with
    | synced contents =>
      cases h
      exact .rename rfl
    | entered | writing => cases h
  case some.replacing.fail => exact h ▸ .fail rfl
  case some.renamed.finish => exact h ▸ .finish rfl
  all_goals exact h ▸ .kill rfl

theorem Step.step (h : Step p m a t) : m.step p a = some t := by
  cases h with
  | tmp a h hfile => simp [WalMachine.step, h, hfile]
  | start h | enter _ h | rename h | finish h | fail h | kill h => simp [WalMachine.step, h]

end WalMachine

/-! ## What reopening finds -/

theorem reopen_congr {p : WalPaths} {fs gs : FileSystem Bytes}
    (hwal : fs.read p.wal = gs.read p.wal)
    (hcheckpoint : fs.read p.checkpoint = gs.read p.checkpoint) : reopen p fs = reopen p gs := by
  rw [reopen, hwal, hcheckpoint, reopen]

/-- The temp file of a call is not one of the two files. -/
theorem WalPaths.ne_tmpPath_path (p : WalPaths) (c : WalCall) :
    p.wal ≠ tmpPath (c.path p) ∧ p.checkpoint ≠ tmpPath (c.path p) := by
  cases c with
  | acknowledge n => exact ⟨p.wal_ne_tmp, ne_tmpPath p.checkpoint⟩
  | compact => exact ⟨ne_tmpPath p.wal, p.checkpoint_ne_tmp⟩

namespace AtomicWrite

variable {fs : FileSystem Bytes} {tmp : Bytes} {w v : AtomicWrite} {a : AtomicWriteAct}

/-- The temp file, once it is open, holds what has been written. -/
def OnDisk (data : Bytes) : AtomicWrite → Prop
  | entered _ => True
  | writing tmp _ | synced tmp => data = tmp

/-- Opening the temp file empties it, whatever it held. -/
theorem OnDisk.step (hw : w.OnDisk (fs.read tmp)) (h : w.step a = some v) :
    v.OnDisk ((w.writeTo fs tmp a).read tmp) := by
  rcases w with c | ⟨written, _ | ⟨b, rest⟩⟩ | written <;> rcases a with _ | n | _ <;>
    simp only [AtomicWrite.step, reduceCtorEq, Option.some.injEq,
      Option.ite_none_right_eq_some] at h
  · subst h
    exact fs.read_truncate_self tmp
  · subst h
    exact hw
  · obtain ⟨-, rfl⟩ := h
    simp only [OnDisk, writeTo, FileSystem.read_append_self] at hw ⊢
    rw [hw]

theorem read_writeTo_of_ne {path : Bytes} (h : path ≠ tmp) :
    (w.writeTo fs tmp a).read path = fs.read path := by
  unfold writeTo
  split
  · exact fs.read_set_of_ne _ h
  · exact fs.read_set_of_ne _ h
  · rfl

end AtomicWrite

namespace WalCall

theorem apply_acknowledge {w : Wal} {n : UInt64} (h : ¬ (acknowledge n).Stale w.lastAckedSeq) :
    apply w (.acknowledge n) = ⟨{ w.disk with checkpoint := checkpointBytes n }, n⟩ :=
  if_neg h

/-- The rename of a complete temp file is the call as a whole. -/
theorem reopen_rename {p : WalPaths} {fs : FileSystem Bytes} {c : WalCall}
    (hstale : ¬ c.Stale (reopen p fs).lastAckedSeq)
    (htmp : fs.read (tmpPath (c.path p)) = c.contents (reopen p fs)) :
    reopen p (fs.rename (tmpPath (c.path p)) (c.path p)) = c.apply (reopen p fs) := by
  cases c with
  | acknowledge n =>
    have hwal := fs.read_rename_of_ne p.wal_ne_tmp p.wal_ne
    have hcheckpoint := fs.read_rename_dst (ne_tmpPath p.checkpoint)
    simp only [path, contents] at htmp ⊢
    rw [reopen, hwal, hcheckpoint, htmp, apply_acknowledge hstale, Wal.open,
      loadCheckpoint_checkpointBytes]
    rfl
  | compact =>
    have hwal := fs.read_rename_dst (ne_tmpPath p.wal)
    have hcheckpoint := fs.read_rename_of_ne p.checkpoint_ne_tmp p.wal_ne.symm
    simp only [path, contents] at htmp ⊢
    rw [reopen, hwal, hcheckpoint, htmp]
    rfl

theorem lastAckedSeq_apply (w : Wal) (c : WalCall) : (c.apply w).lastAckedSeq = w.lastAckedSeq ∨
    ∃ n, c = .acknowledge n ∧ (c.apply w).lastAckedSeq = max w.lastAckedSeq n := by
  cases c with
  | compact => exact .inl rfl
  | acknowledge n =>
    refine .inr ⟨n, rfl, ?_⟩
    rw [apply, Wal.acknowledge]
    split_ifs with hle
    · exact (max_eq_left hle).symm
    · exact (max_eq_right (not_le.1 hle).le).symm

theorem replayUnacked_apply (w : Wal) (c : WalCall) :
    (c.apply w).replayUnacked = Wal.unacked (c.apply w).lastAckedSeq w.records := by
  rw [Wal.replayUnacked_eq]
  cases c with
  | acknowledge n =>
    rw [apply, Wal.acknowledge]
    split_ifs <;> rfl
  | compact =>
    rw [apply, Wal.records_compact]
    exact Wal.unacked_unacked le_rfl _

end WalCall

/-! ## The invariant -/

/-- What a process knows about its files. -/
def WalPc.Fits (p : WalPaths) (fs : FileSystem Bytes) (lastAckedSeq : UInt64) : WalPc → Prop
  | idle => lastAckedSeq = (reopen p fs).lastAckedSeq
  | replacing c file => lastAckedSeq = (reopen p fs).lastAckedSeq ∧ ¬ c.Stale lastAckedSeq ∧
      file.contents = c.contents (reopen p fs) ∧ file.OnDisk (fs.read (tmpPath (c.path p)))
  | renamed c => c.lastAcked lastAckedSeq = (reopen p fs).lastAckedSeq

namespace WalMachine

/-- What holds of the files and the process, if there is one. -/
def Inv (p : WalPaths) (m : WalMachine) : Prop :=
  ∀ proc ∈ m.process, proc.pc.Fits p m.files proc.lastAckedSeq

variable {p : WalPaths} {m t : WalMachine} {a : WalMachineAct}

/-- Only `rename` changes what reopening finds. -/
theorem Step.reopen_eq (h : Step p m a t) (hne : a ≠ .rename) :
    reopen p t.files = reopen p m.files := by
  cases h with
  | start => exact reopen_congr (m.files.read_create ..) (m.files.read_create ..)
  | @tmp last c =>
    obtain ⟨hwal, hcheckpoint⟩ := p.ne_tmpPath_path c
    exact reopen_congr (AtomicWrite.read_writeTo_of_ne hwal)
      (AtomicWrite.read_writeTo_of_ne hcheckpoint)
  | rename => exact absurd rfl hne
  | enter | finish | fail | kill => rfl

theorem Step.reopen_rename {last : UInt64} {c : WalCall} {contents : Bytes} (hm : m.Inv p)
    (h : m.process = some ⟨last, .replacing c (.synced contents)⟩) :
    reopen p (m.files.rename (tmpPath (c.path p)) (c.path p)) = c.apply (reopen p m.files) := by
  obtain ⟨hlast, hstale, hcontents, htmp⟩ := hm _ h
  exact WalCall.reopen_rename (hlast ▸ hstale) (htmp.trans hcontents)

theorem inv_step (hm : m.Inv p) (h : Step p m a t) : t.Inv p := by
  have hreopen := h.reopen_eq
  cases h with
  | start h =>
    rintro _ ⟨⟩
    show _ = (reopen p (m.files.create p.wal)).lastAckedSeq
    rw [hreopen (by simp)]
    rfl
  | @enter last c h =>
    rintro _ ⟨⟩
    have hlast : last = (reopen p m.files).lastAckedSeq := hm _ h
    show (m.enter p last c).Fits p m.files last
    rw [enter]
    split_ifs with hstale
    · exact hlast
    · exact ⟨hlast, hstale, by rw [hlast]; rfl, trivial⟩
  | @tmp last c file file' a h hfile =>
    rintro _ ⟨⟩
    obtain ⟨hlast, hstale, hcontents, htmp⟩ := hm _ h
    show WalPc.Fits p (file.writeTo m.files (tmpPath (c.path p)) a) last (.replacing c file')
    have hsame := hreopen (by simp)
    refine ⟨hsame ▸ hlast, hstale, ?_, htmp.step hfile⟩
    rw [AtomicWrite.contents_step hfile, hcontents]
    exact congrArg c.contents hsame.symm
  | @rename last c contents h =>
    rintro _ ⟨⟩
    obtain ⟨hlast, hstale, -, -⟩ := hm _ h
    show c.lastAcked last = (reopen p (m.files.rename (tmpPath (c.path p)) (c.path p))).lastAckedSeq
    rw [Step.reopen_rename hm h]
    cases c with
    | acknowledge n =>
      rw [WalCall.apply_acknowledge (hlast ▸ hstale)]
      rfl
    | compact => exact hlast
  | finish h =>
    rintro _ ⟨⟩
    have hfits := hm _ h
    exact hfits
  | fail h =>
    rintro _ ⟨⟩
    exact (hm _ h).1
  | kill => exact nofun

theorem inv_of_exec {fs : FileSystem Bytes} {as : List WalMachineAct}
    (h : exec (WalMachine.step p) ⟨fs, none⟩ as = some t) : t.Inv p :=
  exec_invariant (fun _ _ _ hs hstep => inv_step hs (.of_step hstep)) (by exact nofun) h

/-- The call that a step makes as a whole. -/
def taking (m : WalMachine) : WalMachineAct → Option WalCall
  | .rename =>
    match m.process with
    | some ⟨_, .replacing c (.synced _)⟩ => some c
    | _ => none
  | _ => none

theorem simulates_step (s : WalMachine) (a : WalMachineAct) (u : WalMachine) (w : Wal)
    (hs : s.Inv p ∧ reopen p s.files = w) (h : s.step p a = some u) :
    ∃ v, exec (fun w c => some (WalCall.apply w c)) w (s.taking a).toList = some v ∧
      u.Inv p ∧ reopen p u.files = v := by
  obtain ⟨hs, rfl⟩ := hs
  have hstep := Step.of_step h
  refine ⟨_, ?_, inv_step hs hstep, rfl⟩
  by_cases hne : a = .rename
  · subst hne
    cases hstep with
    | rename hproc => simp [taking, hproc, Step.reopen_rename hs hproc, exec]
  · rw [hstep.reopen_eq hne]
    cases a <;> first | rfl | exact absurd rfl hne

/-- The machine refines the log of one call at a time. Reopening after any run, with calls that
are interrupted anywhere and any temp files, finds the calls whose `rename` was made. -/
theorem reopen_exec {fs : FileSystem Bytes} {as : List WalMachineAct}
    (h : exec (WalMachine.step p) ⟨fs, none⟩ as = some t) :
    exec (fun w c => some (WalCall.apply w c)) (reopen p fs)
      (observe (WalMachine.step p) taking ⟨fs, none⟩ as) = some (reopen p t.files) := by
  have hstart : (⟨fs, none⟩ : WalMachine).Inv p ∧ reopen p fs = reopen p fs :=
    ⟨by exact nofun, rfl⟩
  obtain ⟨w, hw, -, rfl⟩ := exec_simulates simulates_step hstart h
  exact hw

end WalMachine

/-! ## Leftover temp files -/

/-- The temp file is open. -/
def AtomicWrite.IsOpen : AtomicWrite → Prop
  | entered _ => False
  | writing _ _ | synced _ => True

/-- A step of `AtomicWriteFile` does the same to a temp file that is open. -/
theorem AtomicWrite.writeTo_agree {fs gs : FileSystem Bytes} {hidden : Bytes → Prop} {tmp : Bytes}
    {w v : AtomicWrite} {a : AtomicWriteAct} (hfiles : fs.AgreeOutside hidden gs)
    (hopen : w.IsOpen → fs.file tmp = gs.file tmp) (h : w.step a = some v) :
    (w.writeTo fs tmp a).AgreeOutside hidden (w.writeTo gs tmp a) ∧
      (w.writeTo fs tmp a).file tmp = (w.writeTo gs tmp a).file tmp := by
  cases a with
  | openTmp => exact ⟨hfiles.set tmp _, by simp [writeTo, FileSystem.truncate]⟩
  | write n =>
    cases w with
    | writing written rest =>
      have htmp := hopen trivial
      exact ⟨hfiles.append htmp _, by simp [writeTo, FileSystem.append, FileSystem.read, htmp]⟩
    | entered | synced => cases h
  | fsync =>
    cases w with
    | writing written rest => exact ⟨hfiles, hopen trivial⟩
    | entered | synced => cases h

namespace WalMachine

/-- Two machines that differ in temp files only, and not in one that is open. -/
structure SameButTmp (p : WalPaths) (m m' : WalMachine) : Prop where
  process : m.process = m'.process
  files : m.files.AgreeOutside p.IsTmp m'.files
  opened : ∀ last c file, m.process = some ⟨last, .replacing c file⟩ → file.IsOpen →
    m.files.file (tmpPath (c.path p)) = m'.files.file (tmpPath (c.path p))

variable {p : WalPaths} {m m' t : WalMachine} {a : WalMachineAct}

/-- What a temp file holds that is not open is not noticed. -/
theorem SameButTmp.step (hm : SameButTmp p m m') (h : Step p m a t) :
    ∃ t', Step p m' a t' ∧ SameButTmp p t t' := by
  have hwal := hm.files.read p.not_isTmp_wal
  have hcheckpoint := hm.files.read p.not_isTmp_checkpoint
  cases h with
  | start h =>
    refine ⟨_, .start (hm.process ▸ h), ?_, hm.files.create p.not_isTmp_wal, by simp⟩
    rw [hcheckpoint]
  | @enter last c h =>
    have henter : m.enter p last c = m'.enter p last c := by
      rw [enter, hwal, hcheckpoint, enter]
    refine ⟨_, .enter c (hm.process ▸ h), by rw [henter], hm.files, ?_⟩
    rintro last' c' file hproc hopen
    simp only [enter, Option.some.injEq, WalProcess.mk.injEq] at hproc
    split_ifs at hproc
    · exact absurd hproc.2 (by simp)
    · obtain ⟨-, rfl⟩ := WalPc.replacing.inj hproc.2
      exact hopen.elim
  | @tmp last c file file' a h hfile =>
    have hagree := AtomicWrite.writeTo_agree hm.files (hm.opened _ _ _ h) hfile
    refine ⟨_, .tmp a (hm.process ▸ h) hfile, rfl, hagree.1, ?_⟩
    rintro _ _ _ ⟨⟩ -
    exact hagree.2
  | @rename last c contents h =>
    have htmp := hm.opened _ _ _ h trivial
    exact ⟨_, .rename (hm.process ▸ h), rfl, hm.files.rename htmp, by simp⟩
  | finish h => exact ⟨_, .finish (hm.process ▸ h), rfl, hm.files, by simp⟩
  | fail h => exact ⟨_, .fail (hm.process ▸ h), rfl, hm.files, by simp⟩
  | kill h => exact ⟨_, .kill (hm.process ▸ h), rfl, hm.files, by simp⟩

theorem SameButTmp.exec {as : List WalMachineAct} (hm : SameButTmp p m m')
    (h : Ridgeline.exec (WalMachine.step p) m as = some t) :
    ∃ t', Ridgeline.exec (WalMachine.step p) m' as = some t' ∧ SameButTmp p t t' := by
  have hlock := exec_purge (R := SameButTmp p) (fun _ => true)
    (fun s a u s' hs _ hstep => by
      obtain ⟨u', hu', hsame⟩ := hs.step (.of_step hstep)
      exact ⟨u', hu'.step, hsame⟩)
    (fun _ _ _ _ _ hfalse _ => absurd hfalse (by simp)) hm h
  simpa using hlock

/-! ## A call that is interrupted -/

/-- The call `c` has taken effect or has not, as far as reopening shows. -/
structure Atomic (old : Wal) (c : WalCall) (new : Wal) : Prop where
  lastAcked : new.lastAckedSeq = old.lastAckedSeq ∨
    ∃ n, c = .acknowledge n ∧ new.lastAckedSeq = max old.lastAckedSeq n
  replay : new.replayUnacked = Wal.unacked new.lastAckedSeq old.records

/-- The call `c` on the log `old` is in progress or over. -/
def During (p : WalPaths) (old : Wal) (c : WalCall) (m : WalMachine) : Prop :=
  m.Inv p ∧
    ((reopen p m.files = old ∧
      ∀ proc ∈ m.process, proc.pc = .idle ∨ ∃ file, proc.pc = .replacing c file) ∨
    (reopen p m.files = c.apply old ∧
      ∀ proc ∈ m.process, proc.pc = .idle ∨ proc.pc = .renamed c))

theorem During.step {old : Wal} {c : WalCall} (hm : m.During p old c) (ha : a.InCall)
    (h : Step p m a t) : t.During p old c := by
  refine ⟨inv_step hm.1 h, ?_⟩
  have hsame := h.reopen_eq
  rcases hm.2 with ⟨hold, hpc⟩ | ⟨hnew, hpc⟩
  · cases h with
    | start | enter => exact ha.elim
    | @tmp last c' file file' a h =>
      obtain ⟨_, hfile⟩ := (hpc _ h).resolve_left (by simp)
      obtain ⟨rfl, -⟩ := WalPc.replacing.inj hfile
      refine .inl ⟨(hsame (by simp)).trans hold, ?_⟩
      rintro _ ⟨⟩
      exact .inr ⟨_, rfl⟩
    | rename h =>
      obtain ⟨_, hfile⟩ := (hpc _ h).resolve_left (by simp)
      obtain ⟨rfl, -⟩ := WalPc.replacing.inj hfile
      refine .inr ⟨hold ▸ Step.reopen_rename hm.1 h, ?_⟩
      rintro _ ⟨⟩
      exact .inr rfl
    | finish h => simpa using hpc _ h
    | fail h =>
      refine .inl ⟨hold, ?_⟩
      rintro _ ⟨⟩
      exact .inl rfl
    | kill h => exact .inl ⟨hold, nofun⟩
  · cases h with
    | start | enter => exact ha.elim
    | tmp a h | rename h | fail h => simpa using hpc _ h
    | finish h =>
      refine .inr ⟨hnew, ?_⟩
      rintro _ ⟨⟩
      exact .inl rfl
    | kill h => exact .inr ⟨hnew, nofun⟩

theorem During.atomic {old : Wal} {c : WalCall} (hm : m.During p old c) :
    Atomic old c (reopen p m.files) := by
  rcases hm.2 with ⟨hold, -⟩ | ⟨hnew, -⟩
  · rw [hold]
    exact ⟨.inl rfl, Wal.replayUnacked_eq old⟩
  · rw [hnew]
    exact ⟨c.lastAckedSeq_apply old, c.replayUnacked_apply old⟩

/-- A call that is entered is in progress. -/
theorem during_enter {c : WalCall} (hm : m.Inv p) (h : Step p m (.enter c) t) :
    t.During p (reopen p m.files) c := by
  refine ⟨inv_step hm h, .inl ⟨h.reopen_eq (by simp), ?_⟩⟩
  cases h with
  | @enter last c h =>
    rintro _ ⟨⟩
    show m.enter p last c = _ ∨ _
    rw [enter]
    split_ifs
    · exact .inl rfl
    · exact .inr ⟨_, rfl⟩

/-- On any files, after any calls of any processes, however they ended, let a call be entered,
and take any of its steps. Reopening then finds that it has taken effect or has not, and this is
so whatever the temp files held. -/
theorem crash_atomic (p : WalPaths) (fs : FileSystem Bytes) {before during : List WalMachineAct}
    {c : WalCall} {s : WalMachine} (hs : exec (WalMachine.step p) ⟨fs, none⟩ before = some s)
    (ht : exec (WalMachine.step p) s (.enter c :: during) = some t)
    (hin : ∀ a ∈ during, a.InCall) :
    (∃ proc, s.process = some proc ∧ proc.lastAckedSeq = (reopen p s.files).lastAckedSeq) ∧
      Atomic (reopen p s.files) c (reopen p t.files) ∧
        ∀ gs, fs.AgreeOutside p.IsTmp gs → ∃ t',
          exec (WalMachine.step p) ⟨gs, none⟩ (before ++ .enter c :: during) = some t' ∧
            t.process = t'.process ∧ t.files.AgreeOutside p.IsTmp t'.files := by
  have hinv := inv_of_exec hs
  obtain ⟨u, hu, hrest⟩ := exec_cons_iff.1 ht
  have henter := Step.of_step hu
  refine ⟨?_, ?_, fun gs hgs => ?_⟩
  · cases henter with
    | enter c h => exact ⟨_, h, hinv _ h⟩
  · have hduring := exec_invariant_guarded (fun m a m' (hm : m.During p _ c) ha hstep =>
      hm.step ha (.of_step hstep)) (during_enter hinv henter) (.of_forall fun _ => hin) hrest
    exact hduring.atomic
  · have hsame : SameButTmp p ⟨fs, none⟩ ⟨gs, none⟩ := ⟨rfl, hgs, by simp⟩
    obtain ⟨t', ht', h⟩ := hsame.exec (exec_append_iff.2 ⟨s, hs, ht⟩)
    exact ⟨t', ht', h.process, h.files⟩

/-- An ack that throws and leaves three bytes in its temp file. -/
def thrownAck : List WalMachineAct :=
  [.start, .enter (.acknowledge 1), .tmp .openTmp, .tmp (.write 3), .fail]

/-- The next ack up to its `rename`, and the process is killed there. -/
def killedAck : List WalMachineAct :=
  [.tmp .openTmp, .tmp (.write 5), .tmp (.write 3), .tmp .fsync, .rename, .kill]

theorem crash_atomic_killedAck : ∃ s t,
    exec (WalMachine.step (.agent [])) ⟨⟨fun _ => none⟩, none⟩ thrownAck = some s ∧
      exec (WalMachine.step (.agent [])) s (.enter (.acknowledge 2) :: killedAck) = some t ∧
        (reopen (.agent []) t.files).lastAckedSeq = 2 ∧
          Atomic (reopen (.agent []) s.files) (.acknowledge 2) (reopen (.agent []) t.files) := by
  obtain ⟨t, ht, hlast⟩ : ∃ t, exec (WalMachine.step (.agent [])) ⟨⟨fun _ => none⟩, none⟩
      (thrownAck ++ .enter (.acknowledge 2) :: killedAck) = some t ∧
        (reopen (.agent []) t.files).lastAckedSeq = 2 := exists_exec_of_any (by decide +kernel)
  obtain ⟨s, hs, ht⟩ := exec_append_iff.1 ht
  exact ⟨s, t, hs, ht, hlast, (crash_atomic _ _ hs ht (by decide)).2.1⟩

end WalMachine

end Ridgeline
