/-
  Aos.Net.Imap4.ServerIO — `IMAP4_Server_IO`, the server's side of an IMAP session.

  A command is a line of parameters: atoms, which end with a space, and quoted
  strings, of which the character behind the closing quote is passed over.  The
  first parameter is the tag.  A parser that passes over a character behind the
  end of its buffer, and a reply to a command without a tag, give `none`.

  Main results:
    • `Parsed`, `parse_loop_parsed` — a run of the parser as a derivation;
    • `Parsed.length_le` — what the parameters take of the line;
    • `Parsed.atoms` — a line too short for quotes holds nothing but atoms.
-/
import Aos.Str.Compare
import Aos.Str.Line
import Aos.Str.MultiString
import Aos.Str.QuotedString
import Aos.Net.MessageBlock

namespace Aos

namespace IMAP4_Server_IO

inductive Read where
  | RD_MORE
  | RD_OK
  deriving DecidableEq

inductive Write where
  | WR_MORE
  | WR_OK
  deriving DecidableEq

inductive State where
  | NOT_AUTH
  | AUTH
  | SELECT
  deriving DecidableEq

end IMAP4_Server_IO

open IMAP4_Server_IO in
structure IMAP4_Server_IO where
  state_ : State
  buf_ : Bytes
  rd_state_ : Read
  rd_byte_ : Nat
  wr_state_ : Write
  params_ : Multi_String

namespace IMAP4_Server_IO

def read_reset (io : IMAP4_Server_IO) : IMAP4_Server_IO :=
  { io with rd_state_ := .RD_MORE, rd_byte_ := 0, buf_ := [] }

/-! ## §1. Reading. -/

/-- `if( rd_state_ != RD_MORE ) buf_.resize(0)`: what a call begins with. -/
def pending (io : IMAP4_Server_IO) : Bytes := if io.rd_state_ ≠ .RD_MORE then [] else io.buf_

/-- `read_cmd(mb)`: the object, the line, and what is left in the block. -/
def read_cmd (io : IMAP4_Server_IO) (mb : Bytes) : IMAP4_Server_IO × Bytes × Bytes :=
  let r := collect_line io.pending mb
  ({ io with buf_ := r.buf, rd_state_ := if r.complete then .RD_OK else .RD_MORE }, r.line, r.rest)

/-! ## §2. Parsing. -/

/-- One pass of `parse_cmd`: the parameters, and what is left of the line. -/
def parse_next (params : Multi_String) (left : Bytes) : Option (Multi_String × Bytes) :=
  if left.head? = some QS.default.quote_ then
    let d := QS.default.decode left
    if d.1.state_ = .OK then
      -- escape next character ' ' || '\r' || '\n'
      if d.1.n_read_ + 1 ≤ left.length then
        some (params.push_back d.2, left.drop (d.1.n_read_ + 1))
      else none
    else some (params, left.drop d.1.n_read_)
  else
    let token := get_line left SP
    let left := left.drop token.length
    if token.length > 1 then
      if token.getLast? = some SP then
        some (params.push_back (token.take (token.length - 1)), left)
      else some (params.push_back (token.take (token.length - 2)), left)
    else some (params, left)

/-- The loop of `parse_cmd`; every pass takes a byte at least. -/
def parse_loop : Nat → Multi_String → Bytes → Option Multi_String
  | 0, params, _ => some params
  | fuel + 1, params, left =>
      if left.length > 0 then (parse_next params left).bind (fun r => parse_loop fuel r.1 r.2)
      else some params

/-- `parse_cmd(params, buf, len)`. -/
def parse_cmd (buf : Bytes) : Option Multi_String := parse_loop buf.length .new buf

/-! ## §3. Runs of the parser. -/

/-- The parameters of a line, with the passes that find them. -/
inductive Parsed : Bytes → List Bytes → Prop where
  | done : Parsed [] []
  | quoted {left : Bytes} {ps : List Bytes} (hquote : left.head? = some QS.default.quote_)
      (hok : (QS.default.decode left).1.state_ = .OK)
      (hlen : (QS.default.decode left).1.n_read_ + 1 ≤ left.length)
      (h : Parsed (left.drop ((QS.default.decode left).1.n_read_ + 1)) ps) :
      Parsed left ((QS.default.decode left).2 :: ps)
  | unclosed {left : Bytes} {ps : List Bytes} (hquote : left.head? = some QS.default.quote_)
      (h : Parsed (left.drop (QS.default.decode left).1.n_read_) ps) : Parsed left ps
  | blank {c : Byte} {left : Bytes} {ps : List Bytes} (h : Parsed left ps) : Parsed (c :: left) ps
  | atom {t left : Bytes} {ps : List Bytes} (hne : t ≠ []) (hsp : SP ∉ t)
      (hquote : t.head? ≠ some QS.default.quote_) (h : Parsed left ps) :
      Parsed (t ++ SP :: left) (t :: ps)
  | last {left : Bytes} (hlen : 1 < left.length) (hsp : SP ∉ left)
      (hquote : left.head? ≠ some QS.default.quote_) :
      Parsed left [left.take (left.length - 2)]

theorem Parsed.of_nil {ps : List Bytes} (h : Parsed [] ps) : ps = [] := by
  generalize hnil : ([] : Bytes) = left at h
  cases h with
  | done => rfl
  | quoted hquote _ _ _ => rw [← hnil] at hquote; exact absurd hquote (by simp)
  | unclosed hquote _ => rw [← hnil] at hquote; exact absurd hquote (by simp)
  | blank h => exact absurd hnil (by simp)
  | atom hne _ _ h => exact absurd hnil (by simp)
  | last hlen _ _ => rw [← hnil] at hlen; exact absurd hlen (by simp)

section Pass

variable (L : List Bytes) {t left : Bytes}

/-- **An atom and its space.** -/
theorem parse_next_atom (rest : Bytes) (hne : t ≠ []) (hsp : SP ∉ t)
    (hquote : t.head? ≠ some QS.default.quote_) :
    parse_next (packed L) (t ++ SP :: rest) = some (packed (L ++ [t]), rest) := by
  have hpos := List.length_pos_iff.mpr hne
  have hhead : (t ++ SP :: rest).head? ≠ some QS.default.quote_ := by
    rw [List.head?_append_of_ne_nil _ hne]
    exact hquote
  have hlen : (t ++ [SP]).length > 1 := by
    rw [List.length_append, List.length_singleton]
    omega
  have htake : (t ++ [SP]).take ((t ++ [SP]).length - 1) = t := by
    rw [List.length_append, List.length_singleton, Nat.add_sub_cancel, List.take_left]
  have hdrop : (t ++ SP :: rest).drop (t ++ [SP]).length = rest := by
    rw [List.append_cons t SP rest, List.drop_left]
  unfold parse_next
  rw [if_neg hhead]
  simp only [get_line_delim t rest SP hsp]
  rw [hdrop, if_pos hlen, if_pos (by simp), htake, push_back_packed]

/-- A space in front of a line is passed over. -/
theorem parse_next_space (params : Multi_String) (rest : Bytes) :
    parse_next params (SP :: rest) = some (params, rest) := by
  have hline : get_line (SP :: rest) SP = [SP] := get_line_delim [] rest SP List.not_mem_nil
  have hquote : (SP :: rest).head? ≠ some QS.default.quote_ := by
    rw [List.head?_cons]
    decide
  unfold parse_next
  rw [if_neg hquote]
  simp only [hline]
  rw [if_neg (by simp)]
  rfl

/-- **The last atom, without the end of the line.** -/
theorem parse_next_last (hlen : 1 < left.length) (hsp : SP ∉ left)
    (hquote : left.head? ≠ some QS.default.quote_) :
    parse_next (packed L) left = some (packed (L ++ [left.take (left.length - 2)]), []) := by
  have hlast : ¬ left.getLast? = some SP := fun hl => hsp (List.mem_of_getLast? hl)
  unfold parse_next
  rw [if_neg hquote]
  simp only [get_line_none left SP hsp]
  rw [List.drop_length, if_pos hlen, if_neg hlast, push_back_packed]

/-- A byte alone is passed over. -/
theorem parse_next_byte (params : Multi_String) {c : Byte} (hsp : SP ∉ [c])
    (hquote : [c].head? ≠ some QS.default.quote_) : parse_next params [c] = some (params, []) := by
  unfold parse_next
  rw [if_neg hquote]
  simp only [get_line_none [c] SP hsp]
  rw [List.drop_length, if_neg (by simp)]

variable {L} {params : Multi_String} {rest : Bytes}

/-- What a pass does at a quote. -/
theorem parse_next_quote (hquote : left.head? = some QS.default.quote_)
    (h : parse_next (packed L) left = some (params, rest)) :
    rest.length < left.length ∧
    ∃ ps, params = packed (L ++ ps) ∧ ∀ qs, Parsed rest qs → Parsed left (ps ++ qs) := by
  obtain ⟨hpos, hle, _, _⟩ := QS.decode_cases QS.default hquote
  unfold parse_next at h
  rw [if_pos hquote] at h
  simp only at h
  by_cases hok : (QS.default.decode left).1.state_ = .OK
  · rw [if_pos hok] at h
    by_cases hlen : (QS.default.decode left).1.n_read_ + 1 ≤ left.length
    · rw [if_pos hlen, push_back_packed] at h
      obtain ⟨rfl, rfl⟩ := Prod.mk.inj (Option.some.inj h)
      refine ⟨?_, [(QS.default.decode left).2], rfl, fun qs hqs => Parsed.quoted hquote hok hlen hqs⟩
      rw [List.length_drop]
      omega
    · rw [if_neg hlen] at h
      exact absurd h (by simp)
  · rw [if_neg hok] at h
    obtain ⟨rfl, rfl⟩ := Prod.mk.inj (Option.some.inj h)
    refine ⟨?_, [], by rw [List.append_nil], fun qs hqs => Parsed.unclosed hquote hqs⟩
    rw [List.length_drop]
    omega

/-- **What one pass does.** -/
theorem parse_next_cases (hne : left ≠ []) (h : parse_next (packed L) left = some (params, rest)) :
    rest.length < left.length ∧
    ∃ ps, params = packed (L ++ ps) ∧ ∀ qs, Parsed rest qs → Parsed left (ps ++ qs) := by
  by_cases hquote : left.head? = some QS.default.quote_
  · exact parse_next_quote hquote h
  · by_cases hsp : SP ∈ left
    · obtain ⟨t, rest', rfl, ht⟩ := List.eq_append_cons_of_mem hsp
      have hshort : rest'.length < (t ++ SP :: rest').length := by
        rw [List.length_append, List.length_cons]
        omega
      by_cases hnil : t = []
      · subst hnil
        rw [List.nil_append, parse_next_space] at h
        obtain ⟨rfl, rfl⟩ := Prod.mk.inj (Option.some.inj h)
        exact ⟨hshort, [], by rw [List.append_nil], fun qs hqs => Parsed.blank hqs⟩
      · rw [List.head?_append_of_ne_nil _ hnil] at hquote
        rw [parse_next_atom L rest' hnil ht hquote] at h
        obtain ⟨rfl, rfl⟩ := Prod.mk.inj (Option.some.inj h)
        exact ⟨hshort, [t], rfl, fun qs hqs => Parsed.atom hnil ht hquote hqs⟩
    · have hpos := List.length_pos_iff.mpr hne
      by_cases hlen : 1 < left.length
      · rw [parse_next_last L hlen hsp hquote] at h
        obtain ⟨rfl, rfl⟩ := Prod.mk.inj (Option.some.inj h)
        refine ⟨hpos, [left.take (left.length - 2)], rfl, fun qs hqs => ?_⟩
        obtain rfl := hqs.of_nil
        exact Parsed.last hlen hsp hquote
      · obtain ⟨c, rfl⟩ := List.length_eq_one_iff.mp (by omega : left.length = 1)
        rw [parse_next_byte (packed L) hsp hquote] at h
        obtain ⟨rfl, rfl⟩ := Prod.mk.inj (Option.some.inj h)
        exact ⟨hpos, [], by rw [List.append_nil], fun qs hqs => Parsed.blank hqs⟩

end Pass

/-- **A run of the parser is a derivation.** -/
theorem parse_loop_parsed (fuel : Nat) : ∀ (L : List Bytes) (left : Bytes) (m : Multi_String),
    left.length ≤ fuel → parse_loop fuel (packed L) left = some m →
      ∃ ps, m = packed (L ++ ps) ∧ Parsed left ps := by
  induction fuel with
  | zero =>
      intro L left m hle h
      obtain rfl := List.length_eq_zero_iff.mp (Nat.le_zero.mp hle)
      exact ⟨[], by rw [List.append_nil, ← Option.some.inj h], Parsed.done⟩
  | succ fuel ih =>
      intro L left m hle h
      rw [parse_loop] at h
      by_cases hpos : left.length > 0
      · rw [if_pos hpos] at h
        obtain ⟨⟨params, rest⟩, hnext, hloop⟩ := Option.bind_eq_some_iff.mp h
        obtain ⟨hshort, ps, rfl, hparsed⟩ :=
          parse_next_cases (List.length_pos_iff.mp hpos) hnext
        obtain ⟨qs, rfl, hqs⟩ := ih (L ++ ps) rest m (by omega) hloop
        exact ⟨ps ++ qs, by rw [List.append_assoc], hparsed qs hqs⟩
      · obtain rfl := List.length_eq_zero_iff.mp (by omega : left.length = 0)
        rw [if_neg hpos] at h
        exact ⟨[], by rw [List.append_nil, ← Option.some.inj h], Parsed.done⟩

/-- The bytes of the parameters, and one more for each. -/
def weight (ps : List Bytes) : Nat := (ps.map (·.length + 1)).sum

@[simp] theorem weight_nil : weight [] = 0 := rfl

@[simp] theorem weight_cons (p : Bytes) (ps : List Bytes) :
    weight (p :: ps) = p.length + 1 + weight ps := List.sum_cons

/-- **What the parameters take of a line.** -/
theorem Parsed.length_le {left : Bytes} {ps : List Bytes} (h : Parsed left ps) :
    weight ps ≤ left.length := by
  induction h with
  | done => exact le_rfl
  | @quoted left ps hquote hok hlen h ih =>
      obtain ⟨_, _, hclosed, _⟩ := QS.decode_cases QS.default hquote
      have hout := hclosed hok
      rw [List.length_drop] at ih
      rw [weight_cons]
      omega
  | unclosed hquote h ih =>
      rw [List.length_drop] at ih
      omega
  | blank h ih =>
      rw [List.length_cons]
      omega
  | atom hne hsp hquote h ih =>
      rw [weight_cons, List.length_append, List.length_cons]
      omega
  | last hlen hsp hquote =>
      rw [weight_cons, weight_nil, List.length_take]
      omega

/-- **A line that is too short for quotes holds nothing but atoms**, and only the
    last of them can be empty. -/
theorem Parsed.atoms {left : Bytes} {ps : List Bytes} (h : Parsed left ps)
    (hshort : left.length ≤ weight ps + 1) :
    (∀ p ∈ ps, SP ∉ p ∧ p.head? ≠ some QS.default.quote_) ∧ ∀ p ∈ ps.dropLast, p ≠ [] := by
  induction h with
  | done => simp
  | @quoted left ps hquote hok hlen h ih =>
      -- a quoted string takes two bytes more
      obtain ⟨_, _, hclosed, _⟩ := QS.decode_cases QS.default hquote
      have hout := hclosed hok
      have hle := h.length_le
      rw [List.length_drop] at hle
      rw [weight_cons] at hshort
      omega
  | @unclosed left ps hquote h ih =>
      have hpos := (QS.decode_cases QS.default hquote).1
      rw [List.length_drop] at ih
      exact ih (by omega)
  | blank h ih =>
      rw [List.length_cons] at hshort
      exact ih (by omega)
  | @atom t left ps hne hsp hquote h ih =>
      rw [weight_cons, List.length_append, List.length_cons] at hshort
      obtain ⟨hatoms, hnil⟩ := ih (by omega)
      refine ⟨?_, ?_⟩
      · intro p hp
        rcases List.mem_cons.mp hp with rfl | hp
        · exact ⟨hsp, hquote⟩
        · exact hatoms p hp
      · intro p hp
        cases ps with
        | nil => exact absurd hp (by simp)
        | cons q ps =>
            rcases List.mem_cons.mp hp with rfl | hp
            · exact hne
            · exact hnil p hp
  | @last left hlen hsp hquote =>
      refine ⟨?_, by simp⟩
      intro p hp
      obtain rfl := List.mem_singleton.mp hp
      refine ⟨fun hmem => hsp (List.mem_of_mem_take hmem), ?_⟩
      rw [List.head?_take]
      split
      · simp
      · exact hquote

/-- The parameters are made of the bytes of the line. -/
theorem Parsed.mem {left : Bytes} {ps : List Bytes} (h : Parsed left ps) :
    ∀ p ∈ ps, ∀ c ∈ p, c ∈ left := by
  induction h with
  | done => simp
  | @quoted left ps hquote hok hlen h ih =>
      intro p hp c hc
      rcases List.mem_cons.mp hp with rfl | hp
      · exact (QS.decode_cases QS.default hquote).2.2.2 c hc
      · exact List.mem_of_mem_drop (ih p hp c hc)
  | unclosed hquote h ih =>
      intro p hp c hc
      exact List.mem_of_mem_drop (ih p hp c hc)
  | blank h ih =>
      intro p hp c hc
      exact List.mem_cons_of_mem _ (ih p hp c hc)
  | atom hne hsp hquote h ih =>
      intro p hp c hc
      rcases List.mem_cons.mp hp with rfl | hp
      · exact List.mem_append_left _ hc
      · exact List.mem_append_right _ (List.mem_cons_of_mem _ (ih p hp c hc))
  | last hlen hsp hquote =>
      intro p hp c hc
      obtain rfl := List.mem_singleton.mp hp
      exact List.mem_of_mem_take hc

/-! ## §4. Executing. -/

/-- What a command does: the object, the text of the reply, the return value. -/
structure Reply where
  io : IMAP4_Server_IO
  text : Bytes
  rc : Int

/-- `tag()`, the pointer. -/
def tag (io : IMAP4_Server_IO) : Option Bytes := io.params_.at_ 0

/-- `"%s .."` with the tag in front. -/
def tagged (io : IMAP4_Server_IO) (before text : Bytes) (rc : Int) : Option Reply :=
  io.tag.map fun tag => ⟨io, before ++ c_str tag ++ text, rc⟩

def greetings (io : IMAP4_Server_IO) : Reply := ⟨io, lit "* OK ready\r\n", 0⟩

def login (io : IMAP4_Server_IO) : Option Reply :=
  io.tagged [] (lit " OK LOGIN completed\r\n") 0

def logout (io : IMAP4_Server_IO) : Option Reply :=
  io.tagged [] (lit " OK LOGOUT completed\r\n") (-1) -- -1 for close connection

def noop (io : IMAP4_Server_IO) : Option Reply := io.tagged [] (lit " OK NOOP completed\r\n") 0

def capability (io : IMAP4_Server_IO) : Option Reply :=
  io.tagged (lit "* CAPABILITY imap4rev1\r\n") (lit " OK CAPABILITY completed\r\n") 0

def list (io : IMAP4_Server_IO) : Option Reply :=
  io.tagged (lit "* LIST (\\HasNoChildren) \"\\\" \"INBOX\"\r\n") (lit " OK LIST completed\r\n") 0

def bad_cmd (io : IMAP4_Server_IO) : Option Reply :=
  io.tagged [] (lit " BAD bad command\r\n") 1 -- 1 for error code #1

/-- `strcmp(params_[1], cmd) == 0`. -/
def is_cmd (io : IMAP4_Server_IO) (cmd : Bytes) : Bool :=
  (io.params_.at_ 1).map c_str == some cmd

/-- `exec_cmd` up to the writing of the reply. -/
def exec (io : IMAP4_Server_IO) : Option Reply := do
  let params ← parse_cmd io.buf_
  let io := { io with params_ := params, buf_ := [] }
  if io.params_.count < 2 then io.bad_cmd -- missing arguments
  else if io.is_cmd (lit "NOOP") then io.noop
  else if io.is_cmd (lit "CAPABILITY") then io.capability
  else if io.is_cmd (lit "LOGOUT") then io.logout
  else if io.is_cmd (lit "LOGIN") ∧ io.params_.count = 4 then
    io.login.map fun r => if r.rc = 0 then { r with io := { r.io with state_ := .AUTH } } else r
  else if io.is_cmd (lit "LIST") ∧ io.params_.count = 4 then
    if io.state_ = .AUTH then io.list else io.bad_cmd
  else io.bad_cmd

/-- What every command does with its reply: `mb.reset()`, `snprintf`, and the
    write state by the space that is left. -/
def write {B : Type} (MB : Message_Block B) (r : Reply) (mb : B) : IMAP4_Server_IO × B × Int :=
  let mb := MB.print (MB.reset mb) r.text
  ({ r.io with wr_state_ := if MB.space mb > 0 then .WR_OK else .WR_MORE }, mb, r.rc)

/-- `exec_cmd(mb)`. -/
def exec_cmd {B : Type} (MB : Message_Block B) (io : IMAP4_Server_IO) (mb : B) :
    Option ( IMAP4_Server_IO × B × Int) :=
  io.exec.map fun r => write MB r mb

end IMAP4_Server_IO

end Aos
