/-
  Aos.Str.QuotedStringConverter — `Quoted_String_Converter::quoted_to_str`.

  The converter does not put out character by character: it keeps a window
  (`ch_buf`, `ch_len`) of characters to copy, which it flushes at an escaped
  character and at the end.  Its automaton is in a member, which `buffer()` sets
  back.

  While a character is awaited, the window ends where the converter stands; behind
  an escape and behind the closing quote it has been passed.  With the window, the
  buffer is what the decoder of `QS` has put out.

  Main results:
    • `quoted_loop_decode` — the loop is the one of `QS::decode`;
    • `quoted_to_str_iff` — what is accepted, and what the buffer holds.
-/
import Aos.Str.QuotedGrammar

namespace Aos

namespace Quoted_String_Converter

/-- The convert results. -/
inductive Result where
  | CONVERT_OK
  | CONVERT_CHAR
  | CONVERT_QUOTE
  | CONVERT_ESCAPE
  deriving DecidableEq

end Quoted_String_Converter

structure Quoted_String_Converter where
  str_ : Bytes
  result_ : Quoted_String_Converter.Result
  /-- What the user's buffer holds, if one is attached. -/
  ustr_ : Option Bytes
  deriving DecidableEq

namespace Quoted_String_Converter

/-! ## §1. The converter. -/

/-- What `buffer()` refers to. -/
def content (conv : Quoted_String_Converter) : Bytes := conv.ustr_.getD conv.str_

/-- What is left when a call has put `dest` into the buffer and ended in `result`. -/
def store (conv : Quoted_String_Converter) (dest : Bytes) (result : Result) :
    Quoted_String_Converter :=
  match conv.ustr_ with
  | none => { conv with str_ := dest, result_ := result }
  | some _ => { conv with ustr_ := some dest, result_ := result }

/-- The locals of `quoted_to_str(buf, len)`, and `result_`; the pointers as offsets. -/
structure Locals where
  dest : Bytes
  ch_buf : Nat
  ch_len : Nat
  result : Result
  ptr : Nat

/-- `if ( ch_len > 0 ) dest->append(ch_buf, ch_len)`, and a new window behind `ptr`. -/
def Locals.flush (buf : Bytes) (l : Locals) : Locals :=
  { l with
    dest := if 0 < l.ch_len then l.dest ++ (buf.drop l.ch_buf).take l.ch_len else l.dest
    ch_buf := l.ptr + 1
    ch_len := 0 }

/-- The loop behind the opening quote; `rest` is what stands from `ptr` on. -/
def quoted_loop (buf : Bytes) (quote escape : Byte) : Bytes → Locals → Locals
  | [], l => l
  | c :: rest, l =>
      if l.result = .CONVERT_CHAR then
        if c = quote then
          quoted_loop buf quote escape rest { l with result := .CONVERT_QUOTE, ptr := l.ptr + 1 }
        else if c = escape then
          quoted_loop buf quote escape rest { l with result := .CONVERT_ESCAPE, ptr := l.ptr + 1 }
        else quoted_loop buf quote escape rest { l with ch_len := l.ch_len + 1, ptr := l.ptr + 1 }
      else if l.result = .CONVERT_ESCAPE then
        quoted_loop buf quote escape rest
          { l.flush buf with
            dest := (l.flush buf).dest ++ [c], result := .CONVERT_CHAR, ptr := l.ptr + 1 }
      else l.flush buf

/-- `quoted_to_str(buf, len, quote, escape)`: the converter, and the string that is
    returned.  An empty text does not pass the assertion. -/
def quoted_to_str (conv : Quoted_String_Converter) (buf : Bytes) (quote escape : Byte) :
    Quoted_String_Converter × Option Bytes :=
  match buf with
  | [] => (conv, none)
  | c :: rest =>
      if c ≠ quote then (conv.store [c] .CONVERT_CHAR, none)
      else
        let l := quoted_loop buf quote escape rest ⟨[], 1, 0, .CONVERT_CHAR, 1⟩
        if l.ptr = buf.length then
          let l := l.flush buf
          if l.result = .CONVERT_QUOTE then (conv.store l.dest .CONVERT_OK, some l.dest)
          else (conv.store l.dest l.result, none)
        else (conv.store l.dest l.result, none)

theorem content_store (conv : Quoted_String_Converter) (dest : Bytes) (result : Result) :
    (conv.store dest result).content = dest := by
  unfold store content
  cases conv.ustr_ <;> rfl

/-! ## §2. The window. -/

/-- What the buffer holds once the window is flushed. -/
def Locals.pending (buf : Bytes) (l : Locals) : Bytes :=
  l.dest ++ (buf.drop l.ch_buf).take l.ch_len

theorem flush_dest (buf : Bytes) (l : Locals) : (l.flush buf).dest = l.pending buf := by
  unfold Locals.flush Locals.pending
  split
  · rfl
  · rename_i hlen
    rw [Nat.eq_zero_of_not_pos hlen, List.take_zero, List.append_nil]

/-- A flushed window is empty. -/
theorem flush_pending (buf : Bytes) (l : Locals) : (l.flush buf).pending buf = l.pending buf := by
  show (l.flush buf).dest ++ (buf.drop (l.ptr + 1)).take 0 = _
  rw [List.take_zero, List.append_nil, flush_dest]

/-- **A window that ends here** grows by the next character. -/
theorem pending_grow {buf : Bytes} {l : Locals} {c : Byte} {rest : Bytes}
    (hrest : buf.drop l.ptr = c :: rest) (hwindow : l.ch_buf + l.ch_len = l.ptr) :
    Locals.pending buf { l with ch_len := l.ch_len + 1, ptr := l.ptr + 1 }
      = l.pending buf ++ [c] := by
  show l.dest ++ (buf.drop l.ch_buf).take (l.ch_len + 1)
    = l.dest ++ (buf.drop l.ch_buf).take l.ch_len ++ [c]
  have hnext : (buf.drop l.ch_buf).drop l.ch_len = c :: rest := by
    rw [List.drop_drop, hwindow, hrest]
  rw [List.take_add, hnext, List.append_assoc]
  rfl

/-! ## §3. The loop is the one of `QS::decode`. -/

/-- The states of `QS`, under the converter's names. -/
def result_of : QS.State → Result
  | .OK => .CONVERT_OK
  | .DECODE_CHAR => .CONVERT_CHAR
  | .DECODE_QUOTE => .CONVERT_QUOTE
  | .DECODE_ESCAPE => .CONVERT_ESCAPE

theorem result_of_quote (state : QS.State) :
    result_of state = .CONVERT_QUOTE ↔ state = .DECODE_QUOTE := by
  cases state <;> decide

/-- `l'` is what the loop leaves when it starts from `l` and the decoder gives `d`. -/
structure Follows (buf : Bytes) (l l' : Locals) (d : QS.Decoded) : Prop where
  pending : l'.pending buf = l.pending buf ++ d.out
  ptr : l'.ptr = l.ptr + d.n_read
  result : l'.result = result_of d.state

section Loop

variable {buf : Bytes} {quote escape : Byte} {l l' : Locals} {d : QS.Decoded}

/-- A character that is not put out. -/
theorem Follows.skip {result : Result}
    (h : Follows buf { l with result := result, ptr := l.ptr + 1 } l' d) :
    Follows buf l l' d.skip := by
  refine ⟨h.pending, ?_, h.result⟩
  rw [h.ptr]
  show l.ptr + 1 + d.n_read = l.ptr + (d.n_read + 1)
  omega

/-- A character that is put out. -/
theorem Follows.put {c : Byte} {m : Locals} (h : Follows buf m l' d)
    (hpending : m.pending buf = l.pending buf ++ [c]) (hptr : m.ptr = l.ptr + 1) :
    Follows buf l l' (d.put c) := by
  refine ⟨?_, ?_, h.result⟩
  · rw [h.pending, hpending, List.append_assoc]
    rfl
  · rw [h.ptr, hptr]
    show l.ptr + 1 + d.n_read = l.ptr + (d.n_read + 1)
    omega

/-- Behind the closing quote the loop ends, at the next character or at the end. -/
theorem quoted_loop_quote (hresult : l.result = .CONVERT_QUOTE) (rest : Bytes) :
    Follows buf l (quoted_loop buf quote escape rest l) ⟨[], 0, .DECODE_QUOTE⟩ := by
  cases rest with
  | nil => exact ⟨(List.append_nil _).symm, rfl, hresult⟩
  | cons c rest =>
      rw [quoted_loop, if_neg (by rw [hresult]; decide), if_neg (by rw [hresult]; decide)]
      refine ⟨?_, rfl, hresult⟩
      rw [flush_pending, List.append_nil]

/-- **The loop is the one of `QS::decode`**: where a character is awaited, the window
    ends here. -/
theorem quoted_loop_decode (rest : Bytes) : ∀ l : Locals, buf.drop l.ptr = rest →
    (l.result = .CONVERT_CHAR → l.ch_buf + l.ch_len = l.ptr →
      Follows buf l (quoted_loop buf quote escape rest l)
        (QS.decode_loop quote escape .DECODE_CHAR rest)) ∧
    (l.result = .CONVERT_ESCAPE →
      Follows buf l (quoted_loop buf quote escape rest l)
        (QS.decode_loop quote escape .DECODE_ESCAPE rest)) := by
  induction rest with
  | nil =>
      intro l _
      exact ⟨fun hresult _ => ⟨(List.append_nil _).symm, rfl, hresult⟩,
        fun hresult => ⟨(List.append_nil _).symm, rfl, hresult⟩⟩
  | cons c rest ih =>
      intro l hrest
      have hnext : buf.drop (l.ptr + 1) = rest := by
        rw [← List.drop_drop, hrest]
        rfl
      constructor
      · intro hresult hwindow
        rw [quoted_loop, if_pos hresult, QS.decode_loop]
        split_ifs with hquote hescape
        · rw [QS.decode_loop_quote]
          exact Follows.skip (quoted_loop_quote rfl rest)
        · exact Follows.skip ((ih _ hnext).2 rfl)
        · refine Follows.put ((ih _ hnext).1 hresult ?_) (pending_grow hrest hwindow) rfl
          show l.ch_buf + (l.ch_len + 1) = l.ptr + 1
          omega
      · intro hresult
        rw [quoted_loop, if_neg (by rw [hresult]; decide), if_pos hresult]
        refine Follows.put ((ih _ hnext).1 rfl (Nat.add_zero _)) ?_ rfl
        show (l.flush buf).dest ++ [c] ++ (buf.drop (l.ptr + 1)).take 0 = _
        rw [List.take_zero, List.append_nil, flush_dest]

end Loop

/-! ## §4. What is accepted. -/

section Accept

variable (conv : Quoted_String_Converter) (quote escape : Byte)

/-- **The converter has its string from the decoder's loop**, if that ends behind the
    closing quote and at the end. -/
theorem quoted_to_str_loop (text body : Bytes) :
    (conv.quoted_to_str (quote :: text) quote escape).2 = some body ↔
      QS.decode_loop quote escape .DECODE_CHAR text = ⟨body, text.length, .DECODE_QUOTE⟩ := by
  obtain ⟨hpending, hptr, hresult⟩ :=
    (@quoted_loop_decode (quote :: text) quote escape text
      ⟨[], 1, 0, .CONVERT_CHAR, 1⟩ rfl).1 rfl rfl
  rw [quoted_to_str, if_neg (fun h => h rfl)]
  generalize quoted_loop (quote :: text) quote escape text ⟨[], 1, 0, .CONVERT_CHAR, 1⟩ = l
    at hpending hptr hresult ⊢
  generalize QS.decode_loop quote escape .DECODE_CHAR text = d at hpending hptr hresult ⊢
  have hdest : (l.flush (quote :: text)).dest = d.out := by
    rw [flush_dest, hpending]
    rfl
  have hend : l.ptr = (quote :: text).length ↔ d.n_read = text.length := by
    rw [hptr, List.length_cons]
    show 1 + d.n_read = text.length + 1 ↔ d.n_read = text.length
    omega
  have hquote : (l.flush (quote :: text)).result = .CONVERT_QUOTE ↔ d.state = .DECODE_QUOTE := by
    show l.result = _ ↔ _
    rw [hresult, result_of_quote]
  show (if l.ptr = (quote :: text).length then
      if (l.flush (quote :: text)).result = .CONVERT_QUOTE then
        (conv.store (l.flush (quote :: text)).dest .CONVERT_OK,
          some (l.flush (quote :: text)).dest)
      else (conv.store (l.flush (quote :: text)).dest (l.flush (quote :: text)).result, none)
    else (conv.store l.dest l.result, none)).2 = some body ↔ d = ⟨body, text.length, .DECODE_QUOTE⟩
  rw [hdest]
  constructor
  · intro h
    split_ifs at h with hptr hres
    cases h
    rw [← hend.mp hptr, ← hquote.mp hres]
  · intro h
    rw [if_pos (hend.mpr (by rw [h])), if_pos (hquote.mpr (by rw [h])), h]

/-- The string that is returned is the buffer. -/
theorem quoted_to_str_content {x body : Bytes}
    (h : (conv.quoted_to_str x quote escape).2 = some body) :
    (conv.quoted_to_str x quote escape).1.content = body := by
  cases x with
  | nil => cases h
  | cons c rest =>
      rw [quoted_to_str] at h ⊢
      split_ifs at h ⊢ with hquote
      dsimp only at h ⊢
      split_ifs at h ⊢ with hend hresult
      rw [content_store]
      exact Option.some.inj h

/-- A text that does not begin with the quote. -/
theorem quoted_to_str_other {x body : Bytes} (h : x.head? ≠ some quote) :
    (conv.quoted_to_str x quote escape).2 ≠ some body := by
  cases x with
  | nil => exact (Option.some_ne_none body).symm
  | cons c rest =>
      rw [quoted_to_str, if_pos (fun heq => h (congrArg some heq))]
      exact (Option.some_ne_none body).symm

end Accept

end Quoted_String_Converter

/-- **`QS::decode` says that all is well at the end of a text** if its loop ends there,
    behind the closing quote. -/
theorem QS.decode_all_iff (qs : QS) (text body : Bytes) :
    ((qs.decode (qs.quote_ :: text)).1.state_ = .OK ∧
        (qs.decode (qs.quote_ :: text)).1.n_read_ = (qs.quote_ :: text).length ∧
        (qs.decode (qs.quote_ :: text)).2 = body) ↔
      decode_loop qs.quote_ qs.escape_ .DECODE_CHAR text
        = ⟨body, text.length, .DECODE_QUOTE⟩ := by
  have hok := decode_loop_not_ok qs.quote_ qs.escape_ text .DECODE_CHAR (by decide)
  rw [decode, List.head?_cons, if_pos rfl, List.tail_cons]
  generalize decode_loop qs.quote_ qs.escape_ .DECODE_CHAR text = d at hok ⊢
  show ((if d.state = .DECODE_QUOTE then State.OK else d.state) = .OK ∧
    d.n_read + 1 = text.length + 1 ∧ d.out = body) ↔ _
  constructor
  · intro h
    obtain ⟨hstate, hread, rfl⟩ := h
    split_ifs at hstate with hquote
    · rw [← hquote, ← Nat.succ.inj hread]
    · exact absurd hstate hok
  · intro h
    rw [h]
    exact ⟨rfl, rfl, rfl⟩

/-- **What `quoted_to_str` accepts**, whatever the converter was used for before: a
    quoted string with nothing behind it, which is what `QS::decode` reads to the end.
    The string is in the buffer. -/
theorem quoted_to_str_iff (conv : Quoted_String_Converter) (qs : QS) {x : Bytes} (hx : x ≠ []) :
    (∀ body, (conv.quoted_to_str x qs.quote_ qs.escape_).2 = some body ↔
      ∃ text, x = qs.quote_ :: text ∧ QS.Quoted qs.quote_ qs.escape_ text body []) ∧
    (∀ body, (conv.quoted_to_str x qs.quote_ qs.escape_).2 = some body ↔
      (qs.decode x).1.state_ = .OK ∧ (qs.decode x).1.n_read_ = x.length ∧
        (qs.decode x).2 = body) ∧
    (∀ body, (conv.quoted_to_str x qs.quote_ qs.escape_).2 = some body →
      (conv.quoted_to_str x qs.quote_ qs.escape_).1.content = body) := by
  obtain ⟨c, text, rfl⟩ := List.exists_cons_of_ne_nil hx
  refine ⟨fun body => ?_, fun body => ?_, fun body =>
    conv.quoted_to_str_content qs.quote_ qs.escape_⟩
  · by_cases hquote : c = qs.quote_
    · rw [hquote, Quoted_String_Converter.quoted_to_str_loop, ← QS.quoted_all_iff]
      constructor
      · exact fun h => ⟨text, rfl, h⟩
      · intro h
        obtain ⟨text', htext, h⟩ := h
        rw [(List.cons.inj htext).2]
        exact h
    · have hother : (conv.quoted_to_str (c :: text) qs.quote_ qs.escape_).2 ≠ some body :=
        conv.quoted_to_str_other qs.quote_ qs.escape_ fun h => hquote (Option.some.inj h)
      refine ⟨fun h => absurd h hother, fun h => ?_⟩
      obtain ⟨text', htext, _⟩ := h
      exact absurd (List.cons.inj htext).1 hquote
  · by_cases hquote : c = qs.quote_
    · rw [hquote, Quoted_String_Converter.quoted_to_str_loop, QS.decode_all_iff]
    · have hhead : (c :: text).head? ≠ some qs.quote_ := fun h => hquote (Option.some.inj h)
      have hother : (conv.quoted_to_str (c :: text) qs.quote_ qs.escape_).2 ≠ some body :=
        conv.quoted_to_str_other qs.quote_ qs.escape_ hhead
      refine ⟨fun h => absurd h hother, fun h => ?_⟩
      rw [QS.decode, if_neg hhead] at h
      exact absurd h.1 QS.State.noConfusion

/-- A converter with a buffer of the user's, after a call that failed. -/
theorem quoted_to_str_iff_attached :
    (∀ body, ((⟨[], .CONVERT_ESCAPE, some [66]⟩ : Quoted_String_Converter).quoted_to_str
        [34, 65, 92, 34, 34] 34 92).2 = some body ↔
      ∃ text, ([34, 65, 92, 34, 34] : Bytes) = 34 :: text ∧ QS.Quoted 34 92 text body []) ∧
    (∀ body, ((⟨[], .CONVERT_ESCAPE, some [66]⟩ : Quoted_String_Converter).quoted_to_str
        [34, 65, 92, 34, 34] 34 92).2 = some body ↔
      (QS.default.decode [34, 65, 92, 34, 34]).1.state_ = .OK ∧
        (QS.default.decode [34, 65, 92, 34, 34]).1.n_read_
          = ([34, 65, 92, 34, 34] : Bytes).length ∧
        (QS.default.decode [34, 65, 92, 34, 34]).2 = body) ∧
    (∀ body, ((⟨[], .CONVERT_ESCAPE, some [66]⟩ : Quoted_String_Converter).quoted_to_str
        [34, 65, 92, 34, 34] 34 92).2 = some body →
      ((⟨[], .CONVERT_ESCAPE, some [66]⟩ : Quoted_String_Converter).quoted_to_str
        [34, 65, 92, 34, 34] 34 92).1.content = body) :=
  quoted_to_str_iff ⟨[], .CONVERT_ESCAPE, some [66]⟩ QS.default (by decide)

end Aos
