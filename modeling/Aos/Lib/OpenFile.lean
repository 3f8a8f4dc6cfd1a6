/-
  Aos.Lib.OpenFile — a file that is written from an offset on.

  A write puts its bytes over those at the offset and moves the offset behind
  them; a file that is too short grows.  The file is held as what lies in front
  of the offset and what lies behind it, so that the offset is inside the file.

  Main results:
    • `write_write` — two writes are one write of both;
    • `overwrite_eq_iff` — a file that was not truncated is what has been written
      exactly when it was no longer than that.
-/
import Mathlib.Tactic

namespace Lib.OpenFile

variable {α : Type}

/-- A file that is open for writing. -/
structure File (α : Type) where
  /-- in front of the offset -/
  before : List α
  /-- behind it -/
  after : List α
  deriving DecidableEq

namespace File

/-- What is in the file. -/
def content (f : File α) : List α := f.before ++ f.after

/-- Open what is there, or a new file. -/
def existing (old : Option (List α)) : File α := ⟨[], old.getD []⟩

/-- Open and cut what is there off. -/
def truncated (_old : Option (List α)) : File α := ⟨[], []⟩

/-- Write at the offset. -/
def write (f : File α) (s : List α) : File α := ⟨f.before ++ s, f.after.drop s.length⟩

@[simp] theorem write_nil (f : File α) : f.write [] = f := by
  unfold write
  rw [List.append_nil]
  rfl

/-- Two writes are one. -/
@[simp] theorem write_write (f : File α) (s t : List α) :
    (f.write s).write t = f.write (s ++ t) := by
  unfold write
  rw [List.append_assoc, List.drop_drop, List.length_append]

theorem content_truncated (old : Option (List α)) (s : List α) :
    ((truncated old).write s).content = s := by
  unfold truncated write content
  rw [List.nil_append, List.drop_nil, List.append_nil]

/-- What was longer stays behind what is written. -/
theorem content_existing (old : Option (List α)) (s : List α) :
    ((existing old).write s).content = s ++ (old.getD []).drop s.length := rfl

/-- **A file that is not truncated is what has been written where it was no longer.** -/
theorem overwrite_eq_iff (old : Option (List α)) (s : List α) :
    ((existing old).write s).content = s ↔ (old.getD []).length ≤ s.length := by
  rw [content_existing, List.append_right_eq_self, List.drop_eq_nil_iff]

end File

end Lib.OpenFile
