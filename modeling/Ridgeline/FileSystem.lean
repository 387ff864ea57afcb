import Mathlib.Logic.Function.Basic
import Ridgeline.Word

/-!
# Files by path

The files that a process sees, and the calls that change them. `rename` replaces the file at its
target in one step, and a file that is missing reads as empty.

`AgreeOutside hidden` compares two file systems at the paths that are not hidden. A call keeps it
if both file systems give the call the same contents to work with.
-/

namespace Ridgeline

/-- The file at each path, if there is one. -/
structure FileSystem (P : Type*) where
  file : P → Option Bytes

namespace FileSystem

variable {P : Type*} [DecidableEq P] (fs : FileSystem P) {p q : P}

/-- The contents of a file. A missing file reads as empty. -/
def read (p : P) : Bytes :=
  (fs.file p).getD []

/-- Put a file at a path, or take it away. -/
def set (p : P) (contents : Option Bytes) : FileSystem P :=
  ⟨Function.update fs.file p contents⟩

/-- Open with `O_CREAT`. -/
def create (p : P) : FileSystem P :=
  fs.set p (some (fs.read p))

/-- Open with `O_CREAT` and `O_TRUNC`. -/
def truncate (p : P) : FileSystem P :=
  fs.set p (some [])

/-- Write behind the end of a file. -/
def append (p : P) (data : Bytes) : FileSystem P :=
  fs.set p (some (fs.read p ++ data))

/-- The file at `src` is from now on at `dst`. -/
def rename (src dst : P) : FileSystem P :=
  (fs.set dst (fs.file src)).set src none

@[simp] theorem file_set_self (contents : Option Bytes) : (fs.set p contents).file p = contents :=
  Function.update_self ..

theorem file_set_of_ne (contents : Option Bytes) (h : p ≠ q) :
    (fs.set q contents).file p = fs.file p :=
  Function.update_of_ne h ..

theorem read_set_of_ne (contents : Option Bytes) (h : p ≠ q) :
    (fs.set q contents).read p = fs.read p := by
  rw [read, fs.file_set_of_ne contents h, read]

@[simp] theorem read_create (p q : P) : (fs.create q).read p = fs.read p := by
  by_cases h : p = q
  · subst h
    simp [create, read]
  · exact fs.read_set_of_ne _ h

@[simp] theorem read_truncate_self (p : P) : (fs.truncate p).read p = [] := by
  simp [truncate, read]

@[simp] theorem read_append_self (p : P) (data : Bytes) :
    (fs.append p data).read p = fs.read p ++ data := by
  simp [append, read]

theorem read_rename_dst (h : q ≠ p) : (fs.rename p q).read q = fs.read p := by
  rw [rename, read_set_of_ne _ _ h]
  simp [read]

theorem read_rename_of_ne {src dst : P} (hsrc : p ≠ src) (hdst : p ≠ dst) :
    (fs.rename src dst).read p = fs.read p := by
  rw [rename, read_set_of_ne _ _ hsrc, read_set_of_ne _ _ hdst]

/-! ## Hidden paths -/

/-- Two file systems with the same files, those at hidden paths apart. -/
def AgreeOutside (hidden : P → Prop) (fs gs : FileSystem P) : Prop :=
  ∀ p, ¬ hidden p → fs.file p = gs.file p

variable {fs} {gs : FileSystem P} {hidden : P → Prop}

omit [DecidableEq P] in
theorem AgreeOutside.read (h : fs.AgreeOutside hidden gs) (hp : ¬ hidden p) :
    fs.read p = gs.read p := by
  rw [FileSystem.read, h p hp, FileSystem.read]

theorem AgreeOutside.set (h : fs.AgreeOutside hidden gs) (p : P) (contents : Option Bytes) :
    (fs.set p contents).AgreeOutside hidden (gs.set p contents) := by
  intro q hq
  by_cases hqp : q = p
  · subst hqp
    simp
  · rw [fs.file_set_of_ne _ hqp, gs.file_set_of_ne _ hqp, h q hq]

theorem AgreeOutside.create (h : fs.AgreeOutside hidden gs) (hp : ¬ hidden p) :
    (fs.create p).AgreeOutside hidden (gs.create p) := by
  rw [FileSystem.create, FileSystem.create, h.read hp]
  exact h.set _ _

theorem AgreeOutside.append (h : fs.AgreeOutside hidden gs) (hp : fs.file p = gs.file p)
    (data : Bytes) : (fs.append p data).AgreeOutside hidden (gs.append p data) := by
  rw [FileSystem.append, FileSystem.append, FileSystem.read, hp]
  exact h.set _ _

theorem AgreeOutside.rename (h : fs.AgreeOutside hidden gs) {src dst : P}
    (hsrc : fs.file src = gs.file src) :
    (fs.rename src dst).AgreeOutside hidden (gs.rename src dst) := by
  rw [FileSystem.rename, FileSystem.rename, hsrc]
  exact (h.set _ _).set _ _

end FileSystem

end Ridgeline
