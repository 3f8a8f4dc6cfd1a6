/-
  Aos.Net.Imap4.Loops — the loops of `greetings`, `login` and `fetch_to_data` on a
  connection that the server closes.

  Each loop leaves on an error of `recv` and when its reader is done.  On a
  closed connection `recv` gives 0, which is neither: nothing comes into the
  block, and the loop goes round again.  So a loop ends on the streams that
  finish its reader and on no others.

  Main results:
    • `answers_line_iff`, `answers_literal_iff` — what the first line of an answer
      says of the rest;
    • `login_verdict`, `fetch_verdict` — a stream finishes the reader or starves
      it;
    • `loops_end_iff` — the streams on which the three loops end.
-/
import Aos.Net.Imap4.Fetch
import Aos.Lib.LineReader

namespace Aos

open Lib Lib.Feed Lib.Loop

namespace IMAP4_Client_IO

/-! ## §1. The readers. -/

/-- `read_greeting(mb)`: the object, the line, and what is left in the block. -/
def read_greeting (io : IMAP4_Client_IO) (mb : Bytes) : IMAP4_Client_IO × Bytes × Bytes :=
  let r := collect_line io.pending mb
  ({ io with buf_ := r.buf, rd_state_ := if r.complete then .RD_OK else .RD_MORE }, r.line, r.rest)

/-- The loop of `greetings(..)`. -/
def greeting_reader : LineReader IMAP4_Client_IO Byte LF where
  read io mb := ((io.read_greeting mb).1, (io.read_greeting mb).2.2)
  ok io := io.rd_state_ = .RD_OK
  line io := io.buf_
  pending := pending
  part io mb hne hlf := by
    unfold read_greeting
    rw [collect_line_part _ mb hne hlf]
    exact ⟨rfl, rfl, rfl⟩
  whole io t rest hlf := by
    unfold read_greeting
    rw [collect_line_whole _ t rest hlf]
    exact ⟨rfl, (List.append_assoc _ _ _).symm, rfl, rfl⟩

/-- The loop of `login(..)`: a literal is not looked for. -/
def login_reader : Reader IMAP4_Client_IO Byte where
  read io mb := (io.read_line mb).map fun r => (r.1, r.2.2)
  done io := io.rd_state_ = .RD_OK

theorem login_calls : Calls login_reader id (fun _ => True) where
  read _ _ _ := rfl
  done _ := rfl
  more _ _ := trivial

/-! ## §2. Answers. -/

/-- The stream begins with an answer that the loop can end on: untagged lines, each
    with a number that is an `int`, and a line that does not begin with '*'.
    Where literals are read, a number of bytes announces so many and the line
    that closes them. -/
inductive Answers (literals : Bool) : Bytes → Prop where
  | last {t rest : Bytes} (hlf : LF ∉ t) (hstar : (t ++ [LF]).head? ≠ some 42) :
      Answers literals (t ++ LF :: rest)
  | line {t rest : Bytes} {n : Int} (hlf : LF ∉ t) (hstar : (t ++ [LF]).head? = some 42)
      (hnum : atoi (c_str (number (t ++ [LF]))) = some n) (hno : literals = false ∨ n ≤ 0)
      (h : Answers literals rest) : Answers literals (t ++ LF :: rest)
  | literal {t d close rest : Bytes} {n : Int} (hlf : LF ∉ t)
      (hstar : (t ++ [LF]).head? = some 42)
      (hnum : atoi (c_str (number (t ++ [LF]))) = some n) (hlit : literals = true) (hpos : 0 < n)
      (hlen : d.length = n.toNat) (hclose : LF ∉ close) (h : Answers literals rest) :
      Answers literals (t ++ LF :: (d ++ (close ++ LF :: rest)))

section Lines

variable {literals : Bool} {t rest : Bytes}

/-- An untagged line announces a number that is an `int`. -/
theorem answers_number (hlf : LF ∉ t) (hstar : (t ++ [LF]).head? = some 42)
    (h : Answers literals (t ++ LF :: rest)) : atoi (c_str (number (t ++ [LF]))) ≠ none := by
  generalize hs : t ++ LF :: rest = s at h
  cases h with
  | last hlf' hstar' =>
      obtain ⟨rfl, _⟩ := Lines.line_unique hlf hlf' hs
      exact absurd hstar hstar'
  | line hlf' _ hnum _ _ =>
      obtain ⟨rfl, _⟩ := Lines.line_unique hlf hlf' hs
      exact Option.ne_none_iff_exists'.mpr ⟨_, hnum⟩
  | literal hlf' _ hnum _ _ _ _ _ =>
      obtain ⟨rfl, _⟩ := Lines.line_unique hlf hlf' hs
      exact Option.ne_none_iff_exists'.mpr ⟨_, hnum⟩

variable {n : Int} (hlf : LF ∉ t) (hstar : (t ++ [LF]).head? = some 42)
  (hnum : atoi (c_str (number (t ++ [LF]))) = some n)

include hlf hstar hnum

/-- **A line that announces nothing** leaves the answer to the rest. -/
theorem answers_line_iff (hno : literals = false ∨ n ≤ 0) :
    Answers literals (t ++ LF :: rest) ↔ Answers literals rest := by
  refine ⟨fun h => ?_, Answers.line hlf hstar hnum hno⟩
  generalize hs : t ++ LF :: rest = s at h
  cases h with
  | last hlf' hstar' =>
      obtain ⟨rfl, _⟩ := Lines.line_unique hlf hlf' hs
      exact absurd hstar hstar'
  | line hlf' _ _ _ h =>
      obtain ⟨_, rfl⟩ := Lines.line_unique hlf hlf' hs
      exact h
  | literal hlf' _ hnum' hlit hpos _ _ _ =>
      obtain ⟨rfl, _⟩ := Lines.line_unique hlf hlf' hs
      obtain rfl := Option.some.inj (hnum.symm.trans hnum')
      cases hno with
      | inl hfalse => exact absurd (hfalse.symm.trans hlit) (by simp)
      | inr hle => omega

/-- **A line that announces a literal** is followed by it. -/
theorem answers_announced (hpos : 0 < n) (h : Answers true (t ++ LF :: rest)) :
    ∃ d close rest', rest = d ++ (close ++ LF :: rest') ∧ d.length = n.toNat ∧ LF ∉ close ∧
      Answers true rest' := by
  generalize hs : t ++ LF :: rest = s at h
  cases h with
  | last hlf' hstar' =>
      obtain ⟨rfl, _⟩ := Lines.line_unique hlf hlf' hs
      exact absurd hstar hstar'
  | line hlf' _ hnum' hno _ =>
      obtain ⟨rfl, _⟩ := Lines.line_unique hlf hlf' hs
      obtain rfl := Option.some.inj (hnum.symm.trans hnum')
      cases hno with
      | inl hfalse => exact absurd hfalse (by simp)
      | inr hle => omega
  | literal hlf' _ hnum' _ _ hlen hclose h =>
      obtain ⟨rfl, rfl⟩ := Lines.line_unique hlf hlf' hs
      obtain rfl := Option.some.inj (hnum.symm.trans hnum')
      exact ⟨_, _, _, rfl, hlen, hclose, h⟩

theorem answers_literal_iff (hpos : 0 < n) {d close : Bytes} (hlen : d.length = n.toNat)
    (hclose : LF ∉ close) :
    Answers true (t ++ LF :: (d ++ (close ++ LF :: rest))) ↔ Answers true rest := by
  refine ⟨fun h => ?_, Answers.literal hlf hstar hnum rfl hpos hlen hclose⟩
  obtain ⟨d', close', rest', heq, hlen', hclose', h⟩ := answers_announced hlf hstar hnum hpos h
  obtain ⟨_, htail⟩ := List.append_inj heq (hlen.trans hlen'.symm)
  obtain ⟨_, rfl⟩ := Lines.line_unique hclose hclose' htail
  exact h

/-- A literal whose closing line does not come. -/
theorem not_answers_open (hpos : 0 < n) (hopen : LF ∉ rest.drop n.toNat) :
    ¬ Answers true (t ++ LF :: rest) := by
  intro h
  obtain ⟨d, close, rest', rfl, hlen, _, _⟩ := answers_announced hlf hstar hnum hpos h
  rw [← hlen, List.drop_left] at hopen
  exact hopen (by simp)

end Lines

theorem answers_mem {literals : Bool} {s : Bytes} (h : Answers literals s) : LF ∈ s := by
  cases h with
  | last hlf hstar => simp
  | line hlf hstar hnum hno h => simp
  | literal hlf hstar hnum hlit hpos hlen hclose h => simp

/-! ## §3. The stream in front of a loop. -/

namespace Calls

variable {S : Type} {R : Reader S Byte} {f : IMAP4_Client_IO → S} {good : IMAP4_Client_IO → Prop}
  (hR : Calls R f good) {io : IMAP4_Client_IO} (hgood : good io) (hok : io.rd_state_ ≠ .RD_OK)
  (hpending : io.pending = [])

include hR hgood hok

/-- A stream without the end of a line. -/
theorem starves_part {s : Bytes} (hlf : LF ∉ s) : R.Starves id (f io) s := by
  by_cases hnil : s = []
  · subst hnil
    have hidle : R.done (f io) = false := by
      rw [hR.done]
      exact decide_eq_false hok
    exact Or.inr ⟨f io, R.drains_nil (fun _ h => h) (f io), hidle⟩
  · refine Or.inr ⟨_, hR.drains_part s io hlf hnil hgood hok, ?_⟩
    rw [hR.done]
    rfl

include hpending

variable {t : Bytes} (hlf : LF ∉ t)

include hlf

/-- A line that is not untagged ends the loop. -/
theorem finishes_line (hstar : (t ++ [LF]).head? ≠ some 42) (rest : Bytes) :
    R.Finishes id (f io) (t ++ LF :: rest) := by
  have hline := (hR.reads_line t io hlf hgood hok).1
  rw [hpending, List.nil_append] at hline
  have hread : io.line_read (t ++ [LF]) = some { io with buf_ := t ++ [LF], rd_state_ := .RD_OK } := by
    unfold line_read
    rw [if_pos hstar]
  refine ⟨t ++ [LF], rest, _, by simp, hline _ hread, ?_⟩
  rw [hR.done]
  rfl

variable (hstar : (t ++ [LF]).head? = some 42)

include hstar

/-- An untagged line with a number that is no `int`. -/
theorem starves_number (hnum : atoi (c_str (number (t ++ [LF]))) = none) (rest : Bytes) :
    R.Starves id (f io) (t ++ LF :: rest) := by
  have hline := (hR.reads_line t io hlf hgood hok).2
  rw [hpending, List.nil_append] at hline
  have hread : io.line_read (t ++ [LF]) = none := by
    unfold line_read
    rw [if_neg (by simpa using hstar), hnum]
    rfl
  exact Or.inl ⟨t ++ [LF], rest, by simp, hline hread⟩

/-- One with a number that is. -/
theorem takes_number {n : Int} (hnum : atoi (c_str (number (t ++ [LF]))) = some n) :
    R.Takes id (f io) (t ++ [LF]) (f (if n > 0 then
        { io with buf_ := t ++ [LF], rd_byte_ := n.toNat, rd_state_ := .RD_DATA }
      else { io with buf_ := t ++ [LF], rd_state_ := .RD_LINE })) := by
  have hline := (hR.reads_line t io hlf hgood hok).1
  rw [hpending, List.nil_append] at hline
  apply hline
  unfold line_read
  rw [if_neg (by simpa using hstar), hnum]
  rfl

end Calls

/-- **A stream finishes the login loop, or starves it.** -/
theorem login_verdict (s : Bytes) : ∀ io : IMAP4_Client_IO, io.rd_state_ ≠ .RD_OK →
    io.pending = [] → login_reader.Decided id io s (Answers false s) := by
  induction hn : s.length using Nat.strong_induction_on generalizing s with
  | _ n ih =>
      intro io hok hpending
      by_cases hmem : LF ∈ s
      · obtain ⟨t, rest, rfl, ht⟩ := List.eq_append_cons_of_mem hmem
        by_cases hstar : (t ++ [LF]).head? = some 42
        · cases hnum : atoi (c_str (number (t ++ [LF]))) with
          | none =>
              have hstarve := login_calls.starves_number trivial hok hpending ht hstar hnum rest
              exact hstarve.decided fun h => answers_number ht hstar h hnum
          | some k =>
              -- an untagged line: the loop reads the next one
              have htakes := login_calls.takes_number trivial hok hpending ht hstar hnum
              have hcons : t ++ LF :: rest = t ++ [LF] ++ rest := by simp
              rw [List.length_append, List.length_cons] at hn
              have hsame : Answers false (t ++ LF :: rest) ↔ Answers false rest :=
                answers_line_iff ht hstar hnum (Or.inl rfl)
              rw [hcons] at hsame ⊢
              refine htakes.decided hsame (ih rest.length (by omega) rest rfl _ ?_ ?_)
              · split <;> simp
              · split <;> rfl
        · exact (login_calls.finishes_line trivial hok hpending ht hstar rest).decided
            (Answers.last ht hstar)
      · exact (login_calls.starves_part trivial hok hmem).decided fun h => hmem (answers_mem h)

/-! ## §4. The stream in front of a fetch loop. -/

/-- A block in which the closing line of a literal does not end. -/
theorem read_data_open {io : IMAP4_Client_IO} (hst : io.rd_state_ = .RD_DATA) {mb : Bytes}
    (hmb : mb ≠ []) (hlf : LF ∉ mb.drop io.rd_byte_) :
    io.read_data mb
      = ({ io with rd_byte_ := io.rd_byte_ - mb.length }, mb.take io.rd_byte_, []) := by
  by_cases hle : mb.length ≤ io.rd_byte_
  · rw [read_data_part hst mb hmb hle, List.take_of_length_le hle]
  · have hsplit := List.take_append_drop io.rd_byte_ mb
    have hclose : mb.drop io.rd_byte_ ≠ [] := by
      rw [Ne, List.drop_eq_nil_iff]
      exact hle
    have hlen : io.rd_byte_ = (mb.take io.rd_byte_).length := by
      rw [List.length_take]
      omega
    have hlast : ¬ (mb.drop io.rd_byte_).getLast? = some LF :=
      fun h => hlf (List.mem_of_getLast? h)
    have hzero : io.rd_byte_ - mb.length = 0 := by omega
    have hcall := read_data_end hst (mb.take io.rd_byte_) (mb.drop io.rd_byte_) hlen hclose
    rw [hsplit, get_line_none _ LF hlf, if_neg hlast, List.drop_length] at hcall
    rw [hzero]
    exact hcall

/-- A literal that is not complete, or whose closing line is not, is waited for. -/
theorem drains_data (s : Bytes) : ∀ (io : IMAP4_Client_IO) (data : Bytes),
    io.rd_state_ = .RD_DATA → LF ∉ s.drop io.rd_byte_ →
    reader.Drains id (io, data) s
      ({ io with rd_byte_ := io.rd_byte_ - s.length }, data ++ s.take io.rd_byte_) := by
  induction hn : s.length using Nat.strong_induction_on generalizing s with
  | _ n ih =>
      intro io data hst hlf
      have hidle : reader.done (io, data) = false := by
        show decide (io.rd_state_ = .RD_OK) = false
        rw [hst]
        rfl
      by_cases hnil : s = []
      · subst hnil
        obtain rfl : 0 = n := hn
        rw [List.take_nil, List.append_nil]
        exact reader.drains_nil (fun _ h => h) (io, data)
      · apply reader.drains_of_call rfl hidle hnil
        intro mb hmb hpre
        rw [id_eq] at hpre
        obtain ⟨s', rfl⟩ := hpre
        have hpos := List.length_pos_iff.mpr hmb
        rw [List.length_append] at hn
        rw [List.drop_append, List.mem_append, not_or] at hlf
        have hcall := read_data_open hst hmb hlf.1
        refine ⟨_, [], mb, s', rfl, (List.append_nil mb).symm, by rw [reader_data hst, hcall], ?_⟩
        have hrest := ih s'.length (by omega) s' rfl
          { io with rd_byte_ := io.rd_byte_ - mb.length } (data ++ mb.take io.rd_byte_) hst hlf.2
        have hbyte : io.rd_byte_ - mb.length - s'.length = io.rd_byte_ - n := by omega
        have hdata : data ++ mb.take io.rd_byte_ ++ s'.take (io.rd_byte_ - mb.length)
            = data ++ (mb ++ s').take io.rd_byte_ := by
          rw [List.take_append, List.append_assoc]
        rw [← hdata, ← hbyte]
        exact hrest

theorem starves_data (s : Bytes) {io : IMAP4_Client_IO} (data : Bytes) (hst : io.rd_state_ = .RD_DATA)
    (hlf : LF ∉ s.drop io.rd_byte_) : reader.Starves id (io, data) s := by
  refine Or.inr ⟨_, drains_data s io data hst hlf, ?_⟩
  show decide (io.rd_state_ = .RD_OK) = false
  rw [hst]
  rfl

/-- A literal and the line that closes it, or what there is of them. -/
theorem literal_cases (n : Nat) (rest : Bytes) :
    LF ∉ rest.drop n ∨
    ∃ d close rest', rest = d ++ (close ++ LF :: rest') ∧ d.length = n ∧ LF ∉ close := by
  by_cases hmem : LF ∈ rest.drop n
  · obtain ⟨close, rest', hdrop, hclose⟩ := List.eq_append_cons_of_mem hmem
    have hlong := List.length_pos_of_mem hmem
    rw [List.length_drop] at hlong
    refine Or.inr ⟨rest.take n, close, rest', ?_, ?_, hclose⟩
    · rw [← hdrop, List.take_append_drop]
    · rw [List.length_take]
      omega
  · exact Or.inl hmem

/-- **A stream finishes the fetch loop, or starves it.** -/
theorem fetch_verdict (s : Bytes) : ∀ (io : IMAP4_Client_IO) (data : Bytes), Waiting io →
    reader.Decided id (io, data) s (Answers true s) := by
  induction hn : s.length using Nat.strong_induction_on generalizing s with
  | _ n ih =>
      intro io data hwait
      have hR := reader_calls data
      by_cases hmem : LF ∈ s
      · obtain ⟨t, rest, rfl, ht⟩ := List.eq_append_cons_of_mem hmem
        by_cases hstar : (t ++ [LF]).head? = some 42
        · cases hnum : atoi (c_str (number (t ++ [LF]))) with
          | none =>
              have hstarve := hR.starves_number hwait.data hwait.ok hwait.pending ht hstar hnum rest
              exact hstarve.decided fun h => answers_number ht hstar h hnum
          | some k =>
              have htakes := hR.takes_number hwait.data hwait.ok hwait.pending ht hstar hnum
              have hcons : t ++ LF :: rest = t ++ [LF] ++ rest := by simp
              rw [List.length_append, List.length_cons] at hn
              by_cases hpos : k > 0
              · rw [if_pos hpos] at htakes
                cases literal_cases k.toNat rest with
                | inl hopen =>
                    -- the stream ends inside the literal or the line that closes it
                    have hno := not_answers_open ht hstar hnum hpos hopen
                    have hstarve := htakes.starves (starves_data rest data rfl hopen)
                    rw [← hcons] at hstarve
                    exact hstarve.decided hno
                | inr hclosed =>
                    obtain ⟨d, close, rest', rfl, hlen, hclose⟩ := hclosed
                    have hall := htakes.trans (takes_data d close _ data hclose rfl hlen.symm)
                    have hsame : Answers true (t ++ LF :: (d ++ (close ++ LF :: rest'))) ↔
                        Answers true rest' := answers_literal_iff ht hstar hnum hpos hlen hclose
                    have hsplit : t ++ LF :: (d ++ (close ++ LF :: rest'))
                        = t ++ [LF] ++ (d ++ (close ++ [LF])) ++ rest' := by simp
                    rw [List.length_append, List.length_append, List.length_cons] at hn
                    rw [hsplit] at hsame ⊢
                    exact hall.decided hsame (ih rest'.length (by omega) rest' rfl _ _
                      ⟨by simp, by simp, rfl⟩)
              · rw [if_neg hpos] at htakes
                have hsame : Answers true (t ++ LF :: rest) ↔ Answers true rest :=
                  answers_line_iff ht hstar hnum (Or.inr (by omega))
                rw [hcons] at hsame ⊢
                exact htakes.decided hsame (ih rest.length (by omega) rest rfl _ data
                  ⟨by simp, by simp, rfl⟩)
        · exact (hR.finishes_line hwait.data hwait.ok hwait.pending ht hstar rest).decided
            (Answers.last ht hstar)
      · exact (hR.starves_part hwait.data hwait.ok hmem).decided fun h => hmem (answers_mem h)

/-! ## §5. A connection that is closed. -/

/-- **When the three loops end.**  For every stream, in every chunks, behind which
    `recv` gives 0 for ever: `greetings` ends exactly when a line feed comes,
    `login` exactly when the stream begins with untagged lines and a line that
    is not, `fetch_to_data` exactly when it does so with its literals. -/
theorem loops_end_iff (io : IMAP4_Client_IO) (mb : Bytes) (chunks : List Bytes)
    (hne : ∀ chunk ∈ chunks, chunk ≠ []) :
    ((∃ c, Ends greeting_reader.reader.poll ⟨io.read_reset, mb, chunks⟩ (some c))
      ↔ LF ∈ mb ++ chunks.flatten) ∧
    ((∃ c, Ends login_reader.poll ⟨io.read_reset, [], chunks⟩ (some c))
      ↔ Answers false chunks.flatten) ∧
    ((∃ c, Ends reader.poll ⟨(io.read_reset, []), [], chunks⟩ (some c))
      ↔ Answers true chunks.flatten) := by
  have hd : ∀ mb : Bytes, Reader.Delivers id mb chunks (mb ++ chunks.flatten) :=
    fun mb => ⟨by rw [List.map_id]; rfl, hne⟩
  have hd₀ : Reader.Delivers id [] chunks chunks.flatten := hd []
  refine ⟨greeting_reader.polls_iff_line rfl (hd mb), ?_, ?_⟩
  · exact (login_verdict chunks.flatten io.read_reset (by simp [read_reset]) rfl).polls_iff hd₀
  · exact (fetch_verdict chunks.flatten io.read_reset [] (waiting_reset io)).polls_iff hd₀

/-- A greeting and a login that are answered, cut in the middle. -/
theorem loops_end_ok :
    (∃ c, Ends greeting_reader.reader.poll
      ⟨read_reset ⟨lit "a", [], .RD_OK, 0⟩, [], [lit "* O", lit "K\r\n"]⟩ (some c)) ∧
    (∃ c, Ends login_reader.poll
      ⟨read_reset ⟨lit "a", [], .RD_OK, 0⟩, [], [lit "a O", lit "K\r\n"]⟩ (some c)) ∧
    (∃ c, Ends reader.poll
      ⟨(read_reset ⟨lit "a", [], .RD_OK, 0⟩, []), [], [lit "a O", lit "K\r\n"]⟩ (some c)) := by
  have hline : ∀ b, Answers b [lit "a O", lit "K\r\n"].flatten := by
    intro b
    have hsplit : [lit "a O", lit "K\r\n"].flatten = lit "a OK\r" ++ LF :: [] := by decide
    rw [hsplit]
    exact Answers.last (by decide) (by decide)
  exact ⟨(loops_end_iff ⟨lit "a", [], .RD_OK, 0⟩ [] [lit "* O", lit "K\r\n"]
      (by decide)).1.mpr (by decide),
    (loops_end_iff ⟨lit "a", [], .RD_OK, 0⟩ [] [lit "a O", lit "K\r\n"]
      (by decide)).2.1.mpr (hline false),
    (loops_end_iff ⟨lit "a", [], .RD_OK, 0⟩ [] [lit "a O", lit "K\r\n"]
      (by decide)).2.2.mpr (hline true)⟩

/-- A server that closes in the middle of its first line: all three loops go on. -/
theorem loops_spin :
    (¬ ∃ c, Ends greeting_reader.reader.poll
      ⟨read_reset ⟨lit "a", [], .RD_OK, 0⟩, [], [lit "* OK"]⟩ (some c)) ∧
    (¬ ∃ c, Ends login_reader.poll
      ⟨read_reset ⟨lit "a", [], .RD_OK, 0⟩, [], [lit "* OK"]⟩ (some c)) ∧
    (¬ ∃ c, Ends reader.poll
      ⟨(read_reset ⟨lit "a", [], .RD_OK, 0⟩, []), [], [lit "* OK"]⟩ (some c)) := by
  have hno : LF ∉ lit "* OK" := by decide
  have hd : Reader.Delivers id [] [lit "* OK"] (lit "* OK") :=
    ⟨by decide, by decide⟩
  refine ⟨?_, ?_, ?_⟩
  · rw [greeting_reader.polls_iff_line rfl hd]
    exact hno
  · rw [(login_verdict (lit "* OK") _ (by simp [read_reset]) rfl).polls_iff hd]
    exact fun hans => hno (answers_mem hans)
  · rw [(fetch_verdict (lit "* OK") _ [] (waiting_reset _)).polls_iff hd]
    exact fun hans => hno (answers_mem hans)

end IMAP4_Client_IO

end Aos
