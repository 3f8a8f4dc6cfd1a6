/-
  Aos.Str.QuotedGrammar — what a quoted string is, and the decoders that read it.

  Behind the opening quote stand items, each a character other than the quote and
  the escape or an escape and any character, and then the closing quote.  The
  decoder with a length recognises this, whatever comes behind.

  The decoder of C strings has the same loop with another end: it tests the first
  byte of the text instead of the one it stands on, and so goes on behind a text
  that is not closed.  A read behind the terminating NUL gives `none`.

  Main results:
    • `decode_quoted` — the decoder stops behind the closing quote;
    • `decode_encode` — what was encoded is read back, with anything behind it;
    • `decode_str_iff` — where the decoder of C strings agrees.
-/
import Aos.Str.QuotedString

namespace Aos

namespace QS

/-! ## §1. The grammar. -/

/-- The text behind an opening quote, what it stands for, and what is left behind the
    closing quote.  Where the escape is the quote, it is the quote. -/
inductive Quoted (quote escape : Byte) : Bytes → Bytes → Bytes → Prop
  | close (rest : Bytes) : Quoted quote escape (quote :: rest) [] rest
  | char {c : Byte} {text body rest : Bytes} : c ≠ quote → c ≠ escape →
      Quoted quote escape text body rest → Quoted quote escape (c :: text) (c :: body) rest
  | escape {c : Byte} {text body rest : Bytes} : escape ≠ quote →
      Quoted quote escape text body rest →
      Quoted quote escape (escape :: c :: text) (c :: body) rest

/-- The text behind an opening quote has a closing one. -/
def Closed (quote escape : Byte) (text : Bytes) : Prop :=
  ∃ body rest, Quoted quote escape text body rest

section Grammar

variable {quote escape : Byte} {text body rest : Bytes}

theorem Quoted.length (h : Quoted quote escape text body rest) :
    rest.length + body.length + 1 ≤ text.length := by
  induction h with
  | close rest => exact le_rfl
  | char _ _ _ ih =>
      rw [List.length_cons, List.length_cons]
      omega
  | escape _ _ ih =>
      rw [List.length_cons, List.length_cons, List.length_cons]
      omega

/-- **The decoder stops behind the closing quote.** -/
theorem Quoted.sized_loop (h : Quoted quote escape text body rest) :
    decode_loop quote escape .DECODE_CHAR text
      = ⟨body, text.length - rest.length, .DECODE_QUOTE⟩ := by
  induction h with
  | close rest =>
      rw [decode_loop, if_pos rfl, decode_loop_quote, List.length_cons, Nat.add_sub_cancel_left]
      rfl
  | @char c text body rest hquote hescape htext ih =>
      have hlen := htext.length
      rw [decode_loop, if_neg hquote, if_neg hescape, ih, List.length_cons,
        Nat.succ_sub (by omega)]
      rfl
  | @escape c text body rest hne htext ih =>
      have hlen := htext.length
      rw [decode_loop, if_neg hne, if_pos rfl, decode_loop, ih, List.length_cons,
        List.length_cons, Nat.succ_sub (by omega), Nat.succ_sub (by omega)]
      rfl

/-- **A text on which the decoder sees a closing quote is in the grammar**; behind an
    escape, once the next character is taken. -/
theorem quoted_of_decode (s : Bytes) :
    ((decode_loop quote escape .DECODE_CHAR s).state = .DECODE_QUOTE →
      Closed quote escape s) ∧
    ((decode_loop quote escape .DECODE_ESCAPE s).state = .DECODE_QUOTE →
      ∃ c text, s = c :: text ∧ Closed quote escape text) := by
  induction s with
  | nil => exact ⟨State.noConfusion, State.noConfusion⟩
  | cons c s ih =>
      refine ⟨fun h => ?_, fun h => ⟨c, s, rfl, ih.1 h⟩⟩
      by_cases hquote : c = quote
      · rw [hquote]
        exact ⟨[], s, .close s⟩
      · rw [decode_loop, if_neg hquote] at h
        by_cases hescape : c = escape
        · rw [if_pos hescape] at h
          obtain ⟨d, text, rfl, body, rest, htext⟩ := ih.2 h
          rw [hescape] at hquote ⊢
          exact ⟨d :: body, rest, .escape hquote htext⟩
        · rw [if_neg hescape] at h
          obtain ⟨body, rest, htext⟩ := ih.1 h
          exact ⟨c :: body, rest, .char hquote hescape htext⟩

theorem closed_iff (s : Bytes) :
    Closed quote escape s ↔ (decode_loop quote escape .DECODE_CHAR s).state = .DECODE_QUOTE := by
  constructor
  · intro h
    obtain ⟨body, rest, htext⟩ := h
    rw [htext.sized_loop]
  · exact (quoted_of_decode s).1

/-- Nothing stands behind the closing quote if the decoder ends at the end. -/
theorem quoted_all_iff (s body : Bytes) :
    Quoted quote escape s body [] ↔
      decode_loop quote escape .DECODE_CHAR s = ⟨body, s.length, .DECODE_QUOTE⟩ := by
  constructor
  · exact fun h => h.sized_loop
  · intro h
    obtain ⟨body', rest, htext⟩ : Closed quote escape s := (closed_iff s).mpr (by rw [h])
    have hlen := htext.length
    have hloop := htext.sized_loop
    rw [h, Decoded.mk.injEq] at hloop
    have hrest : rest = [] := List.eq_nil_of_length_eq_zero (by omega)
    rw [hloop.1, ← hrest]
    exact htext

end Grammar

/-! ## §2. What was encoded. -/

/-- `enough_encode_size(size)`. -/
def enough_encode_size (size : Nat) : Nat := size * 2 + 3

section Encode

variable {quote escape : Byte}

/-- **An encoded text is in the grammar**, with anything behind it. -/
theorem quoted_encode (hne : quote ≠ escape) (x rest : Bytes) :
    Quoted quote escape (encode_loop quote escape x ++ quote :: rest) x rest := by
  induction x with
  | nil => exact .close rest
  | cons c x ih =>
      rw [encode_loop]
      split
      · exact .escape hne.symm ih
      · rename_i hc
        exact .char (fun h => hc (Or.inl h)) (fun h => hc (Or.inr h)) ih

theorem encode_loop_length (quote escape : Byte) (x : Bytes) :
    (encode_loop quote escape x).length ≤ 2 * x.length := by
  induction x with
  | nil => exact le_rfl
  | cons c x ih =>
      rw [encode_loop, List.length_cons]
      split
      · rw [List.length_cons, List.length_cons]
        omega
      · rw [List.length_cons]
        omega

/-- The two quotes and the terminating NUL are the other three bytes. -/
theorem encode_length (qs : QS) (x : Bytes) :
    (qs.encode x).2.length + 1 ≤ enough_encode_size x.length := by
  have hloop := encode_loop_length qs.quote_ qs.escape_ x
  show (qs.quote_ :: (encode_loop qs.quote_ qs.escape_ x ++ [qs.quote_])).length + 1
    ≤ x.length * 2 + 3
  rw [List.length_cons, List.length_append, List.length_singleton]
  omega

end Encode

/-- What the decoder gives for a text in the grammar. -/
theorem decode_quoted (qs : QS) {text body rest : Bytes}
    (h : Quoted qs.quote_ qs.escape_ text body rest) :
    qs.decode (qs.quote_ :: text)
      = ({ qs with state_ := .OK, n_read_ := text.length - rest.length + 1 }, body) := by
  rw [decode, List.head?_cons, if_pos rfl, List.tail_cons, h.sized_loop]
  rfl

/-- **What was encoded is read back**, whatever stands behind it, and the decoder stops
    there. -/
theorem decode_encode (qs : QS) (hne : qs.quote_ ≠ qs.escape_) (x r : Bytes) :
    qs.decode ((qs.encode x).2 ++ r)
        = ({ qs with state_ := .OK, n_read_ := (qs.encode x).2.length }, x) ∧
      (qs.encode x).2.length + 1 ≤ enough_encode_size x.length := by
  refine ⟨?_, encode_length qs x⟩
  have hencode : (qs.encode x).2 ++ r
      = qs.quote_ :: (encode_loop qs.quote_ qs.escape_ x ++ qs.quote_ :: r) := by
    show qs.quote_ :: (encode_loop qs.quote_ qs.escape_ x ++ [qs.quote_]) ++ r = _
    rw [List.cons_append, List.append_assoc, List.singleton_append]
  have hlen : (encode_loop qs.quote_ qs.escape_ x ++ qs.quote_ :: r).length - r.length + 1
      = (qs.encode x).2.length := by
    show _ = (qs.quote_ :: (encode_loop qs.quote_ qs.escape_ x ++ [qs.quote_])).length
    rw [List.length_append, List.length_cons, List.length_cons, List.length_append,
      List.length_singleton]
    omega
  rw [hencode, decode_quoted qs (quoted_encode hne x r), hlen]

/-- A text of quotes and escapes, with another quoted string behind it. -/
theorem decode_encode_default :
    (default.decode ((default.encode [34, 92, 65]).2 ++ [34, 66, 34])
        = ({ default with state_ := .OK, n_read_ := (default.encode [34, 92, 65]).2.length },
          [34, 92, 65])) ∧
      (default.encode [34, 92, 65]).2.length + 1
        ≤ enough_encode_size ([34, 92, 65] : Bytes).length :=
  decode_encode default (by decide) [34, 92, 65] [34, 66, 34]

/-! ## §3. The decoder of C strings. -/

/-- The loop of `decode(in, out)` behind the opening quote, over the memory there.  Its
    test is of `*in`, which is the opening quote all the time. -/
def decode_str_loop (quote escape : Byte) : State → Bytes → Option Decoded
  | state, m =>
      if quote = NUL then some ⟨[], 0, state⟩
      else if state ≠ .DECODE_CHAR ∧ state ≠ .DECODE_ESCAPE then some ⟨[], 0, state⟩
      else
        match m with
        | [] => none
        | c :: m =>
            if state = .DECODE_CHAR ∧ c = quote then
              (decode_str_loop quote escape .DECODE_QUOTE m).map Decoded.skip
            else if state = .DECODE_CHAR ∧ c = escape then
              (decode_str_loop quote escape .DECODE_ESCAPE m).map Decoded.skip
            else (decode_str_loop quote escape .DECODE_CHAR m).map (Decoded.put c)

/-- `decode(in, out)`, over the memory at `in`. -/
def decode_str (qs : QS) (m : Bytes) : Option (QS × Bytes) :=
  match m with
  | [] => none
  | c :: m =>
      if c = qs.quote_ then
        (decode_str_loop qs.quote_ qs.escape_ .DECODE_CHAR m).map fun d =>
          ({ qs with
              state_ := if d.state = .DECODE_QUOTE then .OK else d.state
              n_read_ := d.n_read + 1 },
            d.out)
      else some ({ qs with state_ := .DECODE_CHAR, n_read_ := 0 }, [])

end QS

structure QCS where
  quote_ : Byte
  escape_ : Byte
  state_ : QS.State
  flag_ : Int
  n_read_ : Nat

namespace QCS

/-- `decode(in, in_size, out)`, a copy of the one of `QS`. -/
def decode (qcs : QCS) (in_ : Bytes) : QCS × Bytes :=
  if in_.head? = some qcs.quote_ then
    let d := QS.decode_loop qcs.quote_ qcs.escape_ .DECODE_CHAR in_.tail
    ({ qcs with
        state_ := if d.state = .DECODE_QUOTE then .OK else d.state
        n_read_ := d.n_read + 1 },
      d.out)
  else ({ qcs with state_ := .DECODE_CHAR, n_read_ := 0 }, [])

/-- `decode(in, out)`, a copy of the one of `QS`. -/
def decode_str (qcs : QCS) (m : Bytes) : Option (QCS × Bytes) :=
  match m with
  | [] => none
  | c :: m =>
      if c = qcs.quote_ then
        (QS.decode_str_loop qcs.quote_ qcs.escape_ .DECODE_CHAR m).map fun d =>
          ({ qcs with
              state_ := if d.state = .DECODE_QUOTE then .OK else d.state
              n_read_ := d.n_read + 1 },
            d.out)
      else some ({ qcs with state_ := .DECODE_CHAR, n_read_ := 0 }, [])

end QCS

namespace QS

section CString

variable {quote escape : Byte}

/-- **A step of the loop** on a character: the step of the other loop, and the rest. -/
theorem decode_str_char (hnul : quote ≠ NUL) (c : Byte) (m : Bytes) :
    decode_str_loop quote escape .DECODE_CHAR (c :: m)
      = if c = quote then (decode_str_loop quote escape .DECODE_QUOTE m).map Decoded.skip
        else if c = escape then (decode_str_loop quote escape .DECODE_ESCAPE m).map Decoded.skip
        else (decode_str_loop quote escape .DECODE_CHAR m).map (Decoded.put c) := by
  rw [decode_str_loop, if_neg hnul, if_neg (fun h => h.1 rfl)]
  split_ifs with h1 h2 h3 h4 h5 h6 <;> first | rfl | simp_all

theorem decode_str_escape (hnul : quote ≠ NUL) (c : Byte) (m : Bytes) :
    decode_str_loop quote escape .DECODE_ESCAPE (c :: m)
      = (decode_str_loop quote escape .DECODE_CHAR m).map (Decoded.put c) := by
  rw [decode_str_loop, if_neg hnul, if_neg (fun h => h.2 rfl), if_neg (by simp), if_neg (by simp)]

theorem decode_str_quote (m : Bytes) :
    decode_str_loop quote escape .DECODE_QUOTE m = some ⟨[], 0, .DECODE_QUOTE⟩ := by
  cases m <;> simp [decode_str_loop]

/-- A read at the end of the memory. -/
theorem decode_str_nil (hnul : quote ≠ NUL) {state : State}
    (h : state = .DECODE_CHAR ∨ state = .DECODE_ESCAPE) :
    decode_str_loop quote escape state [] = none := by
  rw [decode_str_loop, if_neg hnul, if_neg (fun hne => h.elim hne.1 hne.2)]

/-- **A closed text**: the loop stops behind the closing quote. -/
theorem Quoted.str_loop (hnul : quote ≠ NUL) {text body rest : Bytes}
    (h : Quoted quote escape text body rest) (t : Bytes) :
    decode_str_loop quote escape .DECODE_CHAR (text ++ t)
      = some (decode_loop quote escape .DECODE_CHAR text) := by
  induction h with
  | close rest =>
      rw [List.cons_append, decode_str_char hnul, if_pos rfl, decode_str_quote,
        decode_loop, if_pos rfl, decode_loop_quote]
      rfl
  | char hquote hescape _ ih =>
      rw [List.cons_append, decode_str_char hnul, if_neg hquote, if_neg hescape, ih,
        decode_loop, if_neg hquote, if_neg hescape]
      rfl
  | escape hne _ ih =>
      rw [List.cons_append, List.cons_append, decode_str_char hnul, if_neg hne, if_pos rfl,
        decode_str_escape hnul, ih, decode_loop, if_neg hne, if_pos rfl, decode_loop]
      rfl

/-- **A text that is not closed**: the loop goes on behind the NUL. -/
theorem decode_str_open (hnul : quote ≠ NUL) (s : Bytes) :
    ∀ state, state = .DECODE_CHAR ∨ state = .DECODE_ESCAPE →
      (decode_loop quote escape state s).state ≠ .DECODE_QUOTE →
      decode_str_loop quote escape state (s ++ [NUL]) = none := by
  induction s with
  | nil =>
      intro state hstate _
      rcases hstate with rfl | rfl
      · rw [List.nil_append, decode_str_char hnul, if_neg hnul.symm]
        split
        · rw [decode_str_nil hnul (Or.inr rfl)]
          rfl
        · rw [decode_str_nil hnul (Or.inl rfl)]
          rfl
      · rw [List.nil_append, decode_str_escape hnul, decode_str_nil hnul (Or.inl rfl)]
        rfl
  | cons c s ih =>
      intro state hstate h
      rcases hstate with rfl | rfl
      · rw [List.cons_append, decode_str_char hnul]
        rw [decode_loop] at h
        split_ifs at h ⊢ with hquote hescape
        · rw [decode_loop_quote] at h
          exact absurd rfl h
        · rw [ih .DECODE_ESCAPE (Or.inr rfl) h]
          rfl
        · rw [ih .DECODE_CHAR (Or.inl rfl) h]
          rfl
      · rw [List.cons_append, decode_str_escape hnul, ih .DECODE_CHAR (Or.inl rfl) h]
        rfl

end CString

/-- The strings on which the two decoders agree: one that begins with the quote has a
    closing one.  The empty string begins with a quote that is NUL. -/
def Terminated (quote escape : Byte) (s : Bytes) : Prop :=
  (s.head? = some quote → Closed quote escape s.tail) ∧ (quote = NUL → s ≠ [])

section Agree

variable {σ : Type} {quote escape : Byte}

/-- What both classes do around the loop: `enter` is the object behind it, and `refuse`
    the one of a text without an opening quote. -/
theorem terminated_iff {s : Bytes} (hs : NUL ∉ s) (enter : Decoded → σ) (refuse : σ)
    (hrefuse : enter ⟨[], 0, .DECODE_CHAR⟩ ≠ refuse) :
    (if (s ++ [NUL]).head? = some quote then
        (decode_str_loop quote escape .DECODE_CHAR (s ++ [NUL]).tail).map enter
      else some refuse)
      = some (if s.head? = some quote then
          enter (decode_loop quote escape .DECODE_CHAR s.tail) else refuse)
      ↔ Terminated quote escape s := by
  cases s with
  | nil =>
      by_cases hnul : quote = NUL
      · rw [hnul]
        refine ⟨fun h => absurd (Option.some.inj h) hrefuse, fun h => absurd rfl (h.2 rfl)⟩
      · have hne : some NUL ≠ some quote := fun h => hnul (Option.some.inj h).symm
        show (if some NUL = some quote then _ else _) = _ ↔ _
        rw [if_neg hne]
        exact ⟨fun _ => ⟨fun h => absurd h (by simp), fun h => absurd h hnul⟩, fun _ => rfl⟩
  | cons c s =>
      show (if some c = some quote then _ else _) = some (if some c = some quote then _ else _) ↔ _
      by_cases hquote : some c = some quote
      · have hnul : quote ≠ NUL := by
          rw [← Option.some.inj hquote]
          exact fun h => hs (h ▸ List.mem_cons_self)
        rw [if_pos hquote, if_pos hquote]
        constructor
        · intro h
          refine ⟨fun _ => ?_, fun heq => absurd heq hnul⟩
          show Closed quote escape s
          by_contra hopen
          rw [closed_iff] at hopen
          have hloop := decode_str_open hnul s .DECODE_CHAR (Or.inl rfl) hopen
          change (decode_str_loop quote escape .DECODE_CHAR (s ++ [NUL])).map enter = _ at h
          rw [hloop] at h
          cases h
        · intro h
          obtain ⟨body, rest, htext⟩ : Closed quote escape s := h.1 hquote
          show (decode_str_loop quote escape .DECODE_CHAR (s ++ [NUL])).map enter = _
          rw [htext.str_loop hnul [NUL]]
          rfl
      · rw [if_neg hquote, if_neg hquote]
        exact ⟨fun _ => ⟨fun h => absurd h hquote, fun _ => List.cons_ne_nil c s⟩, fun _ => rfl⟩

end Agree

theorem decode_str_eq (qs : QS) (s : Bytes) :
    qs.decode_str (s ++ [NUL])
      = if (s ++ [NUL]).head? = some qs.quote_ then
          (decode_str_loop qs.quote_ qs.escape_ .DECODE_CHAR (s ++ [NUL]).tail).map fun d =>
            ({ qs with
                state_ := if d.state = .DECODE_QUOTE then .OK else d.state
                n_read_ := d.n_read + 1 },
              d.out)
        else some ({ qs with state_ := .DECODE_CHAR, n_read_ := 0 }, []) := by
  cases s with
  | nil => simp [decode_str]
  | cons c s => simp [decode_str]

end QS

theorem QCS.decode_str_eq (qcs : QCS) (s : Bytes) :
    qcs.decode_str (s ++ [NUL])
      = if (s ++ [NUL]).head? = some qcs.quote_ then
          (QS.decode_str_loop qcs.quote_ qcs.escape_ .DECODE_CHAR (s ++ [NUL]).tail).map fun d =>
            ({ qcs with
                state_ := if d.state = .DECODE_QUOTE then .OK else d.state
                n_read_ := d.n_read + 1 },
              d.out)
        else some ({ qcs with state_ := .DECODE_CHAR, n_read_ := 0 }, []) := by
  cases s with
  | nil => simp [decode_str]
  | cons c s => simp [decode_str]

/-- **Where the decoders of C strings agree** with the sized ones, and stay in the text:
    what begins with a quote has to be closed. -/
theorem decode_str_iff {s : Bytes} (hs : NUL ∉ s) :
    (∀ qs : QS, qs.decode_str (s ++ [NUL]) = some (qs.decode s)
      ↔ QS.Terminated qs.quote_ qs.escape_ s) ∧
    (∀ qcs : QCS, qcs.decode_str (s ++ [NUL]) = some (qcs.decode s)
      ↔ QS.Terminated qcs.quote_ qcs.escape_ s) := by
  constructor
  · intro qs
    rw [QS.decode_str_eq]
    refine QS.terminated_iff hs _ _ fun h => ?_
    have hread : 0 + 1 = 0 := congrArg (fun p : QS × Bytes => p.1.n_read_) h
    omega
  · intro qcs
    rw [QCS.decode_str_eq]
    refine QS.terminated_iff hs _ _ fun h => ?_
    have hread : 0 + 1 = 0 := congrArg (fun p : QCS × Bytes => p.1.n_read_) h
    omega

/-- A closed string with another behind it. -/
theorem decode_str_iff_closed :
    (∀ qs : QS, qs.decode_str (([34, 92, 65, 34, 66] : Bytes) ++ [NUL])
        = some (qs.decode [34, 92, 65, 34, 66])
      ↔ QS.Terminated qs.quote_ qs.escape_ [34, 92, 65, 34, 66]) ∧
    (∀ qcs : QCS, qcs.decode_str (([34, 92, 65, 34, 66] : Bytes) ++ [NUL])
        = some (qcs.decode [34, 92, 65, 34, 66])
      ↔ QS.Terminated qcs.quote_ qcs.escape_ [34, 92, 65, 34, 66]) :=
  decode_str_iff (by decide)

/-- **An opening quote alone**: the loop reads behind the NUL. -/
theorem decode_str_open_quote :
    NUL ∉ ([34, 65] : Bytes) ∧ QS.default.decode_str ([34, 65] ++ [NUL]) = none ∧
      some (QS.default.decode [34, 65]) ≠ none :=
  ⟨by decide, rfl, Option.some_ne_none _⟩

end Aos
