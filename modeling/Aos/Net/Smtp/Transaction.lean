/-
  Aos.Net.Smtp.Transaction — the order of an SMTP transaction.

  A session is any sequence of command lines given to `exec_cmd`.  What it has
  accepted so far, by the replies it has sent, is its history; what the
  protocol means by the current sender and recipients is read off the history.
  `emails_` keeps the same in the object.

  DATA is accepted in the state MAIL, which RCPT does not leave: the object
  does not know whether there is a recipient.

  Main results:
    • `dispatch_moves`, `exec_moves` — what one command can do to the state and
      the addresses;
    • `session_tracks` — the addresses follow the history in every session;
    • `transaction_order` — in the states MAIL and DATA, and wherever DATA is
      entered, the history holds an open transaction, `emails_` its addresses.
-/
import Aos.Net.Smtp.ServerIO

namespace Aos

namespace SMTP_Server_IO

/-! ## §1. The history of a session. -/

/-- An accepted command. -/
inductive Event where
  | helo
  | mail (addr : Bytes)
  | rcpt (addr : Bytes)
  | data
  deriving DecidableEq

/-- A reply 2yz or 3yz. -/
def positive (text : Bytes) : Bool := deref text = 50 ∨ deref text = 51

/-- The command that a reply accepts. -/
def event (r : Reply) : Option Event :=
  if !positive r.text then none
  else if is_cmd r.io.params_ (lit "HELO") then some .helo
  else if is_cmd r.io.params_ (lit "MAIL") then some (.mail (c_str r.io.param1))
  else if is_cmd r.io.params_ (lit "RCPT") then some (.rcpt (c_str r.io.param1))
  else if is_cmd r.io.params_ (lit "DATA") then some .data
  else none

/-- The command that `exec` accepts; in the state DATA it replies to the mail
    data, and accepts none. -/
def accepted (io : SMTP_Server_IO) : Option Event :=
  if io.state_ = .DATA then none else event io.exec

variable {B : Type} (MB : Message_Block B) (mb : B)

/-- One command line, as `read_line` leaves it in `buf_`. -/
def command (io : SMTP_Server_IO) (line : Bytes) : SMTP_Server_IO :=
  (exec_cmd MB { io with buf_ := line } mb).1

/-- The session of these lines: the object and the history. -/
def session (io : SMTP_Server_IO) (history : List Event) :
    List Bytes → SMTP_Server_IO × List Event
  | [] => (io, history)
  | line :: lines =>
      session (command MB mb io line)
        (history ++ (accepted { io with buf_ := line }).toList) lines

/-- In the history, `sender` is the sender of the last MAIL, which has a HELO
    before it, and `rcpts` are the recipients since. -/
def Open (history : List Event) (sender : Bytes) (rcpts : List Bytes) : Prop :=
  ∃ before since, history = before ++ .mail sender :: since ∧ .helo ∈ before ∧
    (∀ addr, .mail addr ∉ since) ∧
    since.filterMap (fun e => match e with | .rcpt addr => some addr | _ => none) = rcpts

/-- `emails_[0]` is the sender, `emails_[1..]` are the recipients. -/
def Addresses (emails : Multi_String) (sender : Bytes) (rcpts : List Bytes) : Prop :=
  emails.count = rcpts.length + 1 ∧
    ∀ i, (emails.at_ i).map c_str = (sender :: rcpts)[i]?

/-! ## §2. One command. -/

/-- What a command does to the state and the addresses, and what it accepts. -/
inductive Moves (io : SMTP_Server_IO) : Option Event → SMTP_Server_IO → Prop
  | stay {io'} (hstate : io'.state_ = io.state_) (hemails : io'.emails_ = io.emails_) :
      Moves io none io'
  | helo {io'} (hstate : io'.state_ = .RESET) (hemails : io'.emails_ = io.emails_) :
      Moves io (some .helo) io'
  | mail {io'} (addr : Bytes) (hold : io.state_ = .RESET) (hstate : io'.state_ = .MAIL)
      (hemails : io'.emails_ = Multi_String.new.push_back (c_str addr)) :
      Moves io (some (.mail (c_str addr))) io'
  | rcpt {io'} (addr : Bytes) (hold : io.state_ = .MAIL) (hstate : io'.state_ = .MAIL)
      (hemails : io'.emails_ = io.emails_.push_back (c_str addr)) :
      Moves io (some (.rcpt (c_str addr))) io'
  | data {io'} (hold : io.state_ = .MAIL) (hstate : io'.state_ = .DATA)
      (hemails : io'.emails_ = io.emails_) : Moves io (some .data) io'
  | completed {io'} (hold : io.state_ = .DATA) (hstate : io'.state_ = .RESET)
      (hemails : io'.emails_ = io.emails_) : Moves io none io'

theorem Moves.congr {io p io' p' : SMTP_Server_IO} {e : Option Event} (h : Moves p e p')
    (hstate : p.state_ = io.state_) (hemails : p.emails_ = io.emails_)
    (hstate' : io'.state_ = p'.state_) (hemails' : io'.emails_ = p'.emails_) : Moves io e io' := by
  cases h with
  | stay hs he => exact .stay (hstate'.trans (hs.trans hstate)) (hemails'.trans (he.trans hemails))
  | helo hs he => exact .helo (hstate'.trans hs) (hemails'.trans (he.trans hemails))
  | mail addr hold hs he => exact .mail addr (hstate ▸ hold) (hstate'.trans hs) (hemails'.trans he)
  | rcpt addr hold hs he =>
      exact .rcpt addr (hstate ▸ hold) (hstate'.trans hs) (hemails'.trans (hemails ▸ he))
  | data hold hs he =>
      exact .data (hstate ▸ hold) (hstate'.trans hs) (hemails'.trans (he.trans hemails))
  | completed hold hs he =>
      exact .completed (hstate ▸ hold) (hstate'.trans hs) (hemails'.trans (he.trans hemails))

/-- A reply that is an error, or to a command the history does not record. -/
theorem moves_stay (p : SMTP_Server_IO) (text : Bytes) (rc : Int) (h : event ⟨p, text, rc⟩ = none) :
    Moves p (event ⟨p, text, rc⟩) p := by
  rw [h]
  exact .stay rfl rfl

theorem event_error (p : SMTP_Server_IO) (text : Bytes) (rc : Int) (h : positive text = false) :
    event ⟨p, text, rc⟩ = none := by
  unfold event
  rw [if_pos (by simp [h])]

theorem event_positive (p : SMTP_Server_IO) (text : Bytes) (rc : Int) (h : positive text = true) :
    event ⟨p, text, rc⟩ =
      if is_cmd p.params_ (lit "HELO") then some .helo
      else if is_cmd p.params_ (lit "MAIL") then some (.mail (c_str p.param1))
      else if is_cmd p.params_ (lit "RCPT") then some (.rcpt (c_str p.param1))
      else if is_cmd p.params_ (lit "DATA") then some .data
      else none := by
  unfold event
  rw [if_neg (by simp [h])]

/-- **One command outside DATA.**  `dispatch` and `event` look for the commands
    in one order. -/
theorem dispatch_moves (p : SMTP_Server_IO) : Moves p (event p.dispatch) p.dispatch.io := by
  unfold dispatch
  by_cases hcount : p.params_.count ≠ 0
  · rw [if_pos hcount]
    by_cases hh : is_cmd p.params_ (lit "HELO") = true
    · rw [if_pos hh]
      unfold SMTP_Server_IO.helo
      split
      · rw [event_positive _ _ _ (by decide), if_pos hh]
        exact .helo rfl rfl
      · exact moves_stay p _ _ (event_error p _ _ (by decide))
    · rw [if_neg hh]
      by_cases hm : is_cmd p.params_ (lit "MAIL") = true
      · rw [if_pos hm]
        unfold SMTP_Server_IO.mail
        split
        · rename_i hargs
          rw [event_positive _ _ _ (by decide), if_neg hh, if_pos hm]
          exact .mail p.param1 hargs.1 rfl rfl
        · exact moves_stay p _ _ (event_error p _ _ (by decide))
      · rw [if_neg hm]
        by_cases hr : is_cmd p.params_ (lit "RCPT") = true
        · rw [if_pos hr]
          unfold SMTP_Server_IO.rcpt
          split
          · rename_i hargs
            rw [event_positive _ _ _ (by decide), if_neg hh, if_neg hm, if_pos hr]
            exact .rcpt p.param1 hargs.1 rfl rfl
          · exact moves_stay p _ _ (event_error p _ _ (by decide))
        · rw [if_neg hr]
          by_cases hd : is_cmd p.params_ (lit "DATA") = true
          · rw [if_pos hd]
            unfold SMTP_Server_IO.data
            split
            · rename_i hargs
              rw [event_positive _ _ _ (by decide), if_neg hh, if_neg hm, if_neg hr, if_pos hd]
              exact .data hargs.1 rfl rfl
            · exact moves_stay p _ _ (event_error p _ _ (by decide))
          · rw [if_neg hd]
            -- the commands that are left change nothing and are not recorded
            have hrest : ∀ text rc, event ⟨p, text, rc⟩ = none := by
              intro text rc
              unfold event
              rw [if_neg hh, if_neg hm, if_neg hr, if_neg hd, ite_self]
            split
            · exact moves_stay p _ _ (hrest _ _)
            · split
              · exact moves_stay p _ _ (hrest _ _)
              · exact moves_stay p _ _ (hrest _ _)
  · rw [if_neg hcount]
    exact moves_stay p _ _ (event_error p _ _ (by decide))

/-- **One command.** -/
theorem exec_moves (io : SMTP_Server_IO) : Moves io (accepted io) io.exec.io := by
  unfold accepted exec
  by_cases hdata : io.state_ = .DATA
  · rw [if_pos hdata]
    show Moves io none (if io.state_ ≠ .DATA then _ else _ : Reply).io
    rw [if_neg (by simp [hdata])]
    exact .completed hdata rfl rfl
  · rw [if_neg hdata]
    show Moves io (event (if io.state_ ≠ .DATA then _ else _)) (if io.state_ ≠ .DATA then _ else _ : Reply).io
    rw [if_pos hdata]
    exact (dispatch_moves _).congr rfl rfl rfl rfl

/-! ## §3. A session. -/

/-- What holds between the object and the history. -/
structure Tracks (io : SMTP_Server_IO) (history : List Event) : Prop where
  greeted : io.state_ ≠ .START → .helo ∈ history
  tracked : io.state_ = .MAIL ∨ io.state_ = .DATA →
    ∃ sender rcpts, Open history sender rcpts ∧
      Represents io.emails_ (sender :: rcpts) ∧ ∀ s ∈ sender :: rcpts, NUL ∉ s

theorem Open.other {history : List Event} {sender : Bytes} {rcpts : List Bytes}
    (h : Open history sender rcpts) (e : Event) (hm : ∀ addr, e ≠ .mail addr)
    (hr : ∀ addr, e ≠ .rcpt addr) : Open (history ++ [e]) sender rcpts := by
  obtain ⟨before, since, rfl, hhelo, hno, hrcpts⟩ := h
  refine ⟨before, since ++ [e], by simp, hhelo, ?_, ?_⟩
  · intro addr hmem
    rcases List.mem_append.mp hmem with hmem | hmem
    · exact hno addr hmem
    · exact hm addr (List.mem_singleton.mp hmem).symm
  · rw [List.filterMap_append, hrcpts]
    cases e with
    | helo => simp
    | mail addr => exact absurd rfl (hm addr)
    | rcpt addr => exact absurd rfl (hr addr)
    | data => simp

theorem Open.rcpt {history : List Event} {sender : Bytes} {rcpts : List Bytes}
    (h : Open history sender rcpts) (addr : Bytes) :
    Open (history ++ [.rcpt addr]) sender (rcpts ++ [addr]) := by
  obtain ⟨before, since, rfl, hhelo, hno, hrcpts⟩ := h
  refine ⟨before, since ++ [.rcpt addr], by simp, hhelo, ?_, ?_⟩
  · intro a hmem
    rcases List.mem_append.mp hmem with hmem | hmem
    · exact hno a hmem
    · exact absurd (List.mem_singleton.mp hmem) (by simp)
  · rw [List.filterMap_append, hrcpts]
    rfl

/-- **One command keeps the object and the history together.** -/
theorem Tracks.step {io io' : SMTP_Server_IO} {history : List Event} {e : Option Event}
    (h : Tracks io history) (hmove : Moves io e io') : Tracks io' (history ++ e.toList) := by
  cases hmove with
  | stay hstate hemails =>
      rw [Option.toList_none, List.append_nil]
      refine ⟨?_, ?_⟩
      · rw [hstate]
        exact h.greeted
      · rw [hstate, hemails]
        exact h.tracked
  | helo hstate hemails =>
      refine ⟨fun _ => by simp, ?_⟩
      intro hor
      rw [hstate] at hor
      exact absurd hor (by decide)
  | mail addr hold hstate hemails =>
      have hhelo := h.greeted (by rw [hold]; decide)
      refine ⟨fun _ => List.mem_append_left _ hhelo, fun _ => ⟨c_str addr, [], ?_, ?_, ?_⟩⟩
      · exact ⟨history, [], rfl, hhelo, by simp, rfl⟩
      · rw [hemails]
        exact push_back_represents (L := []) ⟨rfl, rfl⟩ (c_str addr)
      · intro s hs
        rw [List.mem_singleton.mp hs]
        exact c_str_no_nul addr
  | rcpt addr hold hstate hemails =>
      have hhelo := h.greeted (by rw [hold]; decide)
      obtain ⟨sender, rcpts, hopen, hrep, hnul⟩ := h.tracked (Or.inl hold)
      refine ⟨fun _ => List.mem_append_left _ hhelo,
        fun _ => ⟨sender, rcpts ++ [c_str addr], hopen.rcpt _, ?_, ?_⟩⟩
      · rw [hemails]
        exact push_back_represents hrep (c_str addr)
      · intro s hs
        rw [← List.cons_append] at hs
        rcases List.mem_append.mp hs with hs | hs
        · exact hnul s hs
        · rw [List.mem_singleton.mp hs]
          exact c_str_no_nul addr
  | data hold hstate hemails =>
      have hhelo := h.greeted (by rw [hold]; decide)
      obtain ⟨sender, rcpts, hopen, hrep, hnul⟩ := h.tracked (Or.inl hold)
      refine ⟨fun _ => List.mem_append_left _ hhelo, fun _ => ⟨sender, rcpts, ?_, ?_, hnul⟩⟩
      · exact hopen.other .data (by simp) (by simp)
      · rw [hemails]
        exact hrep
  | completed hold hstate hemails =>
      rw [Option.toList_none, List.append_nil]
      refine ⟨fun _ => h.greeted (by rw [hold]; decide), ?_⟩
      intro hor
      rw [hstate] at hor
      exact absurd hor (by decide)

/-- The writing of the reply leaves the state and the addresses alone. -/
theorem command_moves (io : SMTP_Server_IO) (line : Bytes) :
    Moves io (accepted { io with buf_ := line }) (command MB mb io line) :=
  (exec_moves { io with buf_ := line }).congr rfl rfl rfl rfl

/-- **The addresses follow the history in every session.** -/
theorem session_tracks (lines : List Bytes) :
    ∀ (io : SMTP_Server_IO) (history : List Event), Tracks io history →
      Tracks (session MB mb io history lines).1 (session MB mb io history lines).2 := by
  induction lines with
  | nil => intro io history h; exact h
  | cons line lines ih =>
      intro io history h
      exact ih _ _ (h.step (command_moves MB mb io line))

theorem tracks_open (io : SMTP_Server_IO) : Tracks io.open_ [] := by
  refine ⟨fun h => absurd rfl h, ?_⟩
  intro hor
  have hstart : ¬ (State.START = .MAIL ∨ State.START = .DATA) := by decide
  exact absurd hor hstart

theorem addresses_of_represents {emails : Multi_String} {sender : Bytes} {rcpts : List Bytes}
    (h : Represents emails (sender :: rcpts)) (hnul : ∀ s ∈ sender :: rcpts, NUL ∉ s) :
    Addresses emails sender rcpts := by
  have hcount : emails.offs_.length = rcpts.length + 1 := by
    rw [h.offs, Lib.Packed.offsets_length, List.length_cons]
  refine ⟨hcount, ?_⟩
  intro i
  by_cases hi : i < (sender :: rcpts).length
  · obtain ⟨tail, htail⟩ := h.at_ i hi
    have hno := hnul _ (List.getElem_mem hi)
    rw [htail, List.getElem?_eq_getElem hi, Option.map_some]
    congr 1
    -- the C string ends at the NUL behind the entry
    unfold c_str
    rw [List.takeWhile_append_of_pos, List.takeWhile_cons, if_neg (by simp), List.append_nil]
    intro b hb
    have hne : b ≠ NUL := fun heq => hno (heq ▸ hb)
    simpa using hne
  · have hnone : emails.at_ i = none := by
      unfold Multi_String.at_
      rw [List.length_cons] at hi
      rw [if_neg (by omega)]
    rw [hnone, List.getElem?_eq_none (by omega)]
    rfl

/-- **The order of a transaction.**  After every sequence of command lines from
    `open()`: in the states MAIL and DATA there is a last accepted MAIL with an
    accepted HELO before it, `emails_[0]` is its sender and `emails_[1..]` are
    the recipients accepted since, in order; and a command line enters DATA,
    with the reply 354, only where the same holds. -/
theorem transaction_order (io₀ : SMTP_Server_IO) (lines : List Bytes) :
    ((session MB mb io₀.open_ [] lines).1.state_ = .MAIL ∨
        (session MB mb io₀.open_ [] lines).1.state_ = .DATA →
      ∃ sender rcpts, Open (session MB mb io₀.open_ [] lines).2 sender rcpts ∧
        Addresses (session MB mb io₀.open_ [] lines).1.emails_ sender rcpts) ∧
    ∀ line, (session MB mb io₀.open_ [] lines).1.state_ ≠ .DATA →
      (command MB mb (session MB mb io₀.open_ [] lines).1 line).state_ = .DATA →
      accepted { (session MB mb io₀.open_ [] lines).1 with buf_ := line } = some .data ∧
      ∃ sender rcpts, Open (session MB mb io₀.open_ [] lines).2 sender rcpts ∧
        Addresses (session MB mb io₀.open_ [] lines).1.emails_ sender rcpts := by
  have htracks := session_tracks MB mb lines _ _ (tracks_open io₀)
  generalize session MB mb io₀.open_ [] lines = s at htracks ⊢
  have hopen : s.1.state_ = .MAIL ∨ s.1.state_ = .DATA →
      ∃ sender rcpts, Open s.2 sender rcpts ∧ Addresses s.1.emails_ sender rcpts := by
    intro hor
    obtain ⟨sender, rcpts, ho, hrep, hnul⟩ := htracks.tracked hor
    exact ⟨sender, rcpts, ho, addresses_of_represents hrep hnul⟩
  refine ⟨hopen, ?_⟩
  intro line hnot henter
  have hmove := command_moves MB mb s.1 line
  -- only the data command leads into the state
  generalize accepted { s.1 with buf_ := line } = e at hmove ⊢
  cases hmove with
  | stay hstate _ => exact absurd (hstate ▸ henter) hnot
  | helo hstate _ => rw [hstate] at henter; exact absurd henter (by decide)
  | mail addr _ hstate _ => rw [hstate] at henter; exact absurd henter (by decide)
  | rcpt addr _ hstate _ => rw [hstate] at henter; exact absurd henter (by decide)
  | data hold _ _ => exact ⟨rfl, hopen (Or.inl hold)⟩
  | completed hold _ _ => exact absurd hold hnot

/-- HELO, MAIL and DATA without a RCPT: DATA is entered with no recipient. -/
theorem data_without_rcpt :
    (session list_block (list_block.new 4096) (open_ ⟨.START, [], .RD_MORE, 0, .WR_OK, .new, .new⟩) []
        [lit "HELO a\r\n", lit "MAIL FROM:<b>\r\n"]).1.state_ = .MAIL ∧
    (session list_block (list_block.new 4096) (open_ ⟨.START, [], .RD_MORE, 0, .WR_OK, .new, .new⟩) []
        [lit "HELO a\r\n", lit "MAIL FROM:<b>\r\n", lit "DATA\r\n"]).1.state_ = .DATA ∧
    (session list_block (list_block.new 4096) (open_ ⟨.START, [], .RD_MORE, 0, .WR_OK, .new, .new⟩) []
        [lit "HELO a\r\n", lit "MAIL FROM:<b>\r\n", lit "DATA\r\n"]).2
      = [.helo, .mail (lit "b"), .data] := by
  decide

end SMTP_Server_IO

end Aos
