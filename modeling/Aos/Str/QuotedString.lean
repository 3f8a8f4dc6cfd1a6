/-
  Aos.Str.QuotedString — `QS`, quoted strings with escapes.

  A quoted string stands between two quotes; inside, a quote or an escape
  character has an escape in front.  The decoder takes any character behind an
  escape, stops behind the closing quote, and says how far it has read.

  The decoder of C strings looks for the closing quote as far as memory goes: a
  read behind the text gives `none`.

  Main results:
    • `decode_cases` — how far `decode` reads, and what it gives;
    • `in_place_weigh` — the quotes and escapes put out have cost escapes;
    • `in_place_clean` — a string without either comes out as it is.
-/
import Aos.Byte

namespace Aos

namespace QS

/-- `ENCODE_OK` and `DECODE_OK` are both 0. -/
inductive State where
  | OK
  | DECODE_CHAR
  | DECODE_QUOTE
  | DECODE_ESCAPE
  deriving DecidableEq

end QS

structure QS where
  quote_ : Byte
  escape_ : Byte
  state_ : QS.State
  n_read_ : Nat

namespace QS

/-- `QS(quote, escape)`. -/
def new (quote escape : Byte) : QS := ⟨quote, escape, .OK, 0⟩

/-- The constructor's defaults, '"' and '\'. -/
def default : QS := new 34 92

/-- The loop of `encode(in, in_size, out)`. -/
def encode_loop (quote escape : Byte) : Bytes → Bytes
  | [] => []
  | c :: ptr =>
      if c = quote ∨ c = escape then escape :: c :: encode_loop quote escape ptr
      else c :: encode_loop quote escape ptr

/-- `encode(in, in_size, out)`. -/
def encode (qs : QS) (in_ : Bytes) : QS × Bytes :=
  ({ qs with state_ := .OK }, qs.quote_ :: (encode_loop qs.quote_ qs.escape_ in_ ++ [qs.quote_]))

/-- What the decoder's loop leaves. -/
structure Decoded where
  out : Bytes
  n_read : Nat
  state : State
  deriving DecidableEq

def Decoded.put (c : Byte) (d : Decoded) : Decoded := ⟨c :: d.out, d.n_read + 1, d.state⟩

def Decoded.skip (d : Decoded) : Decoded := ⟨d.out, d.n_read + 1, d.state⟩

/-- The loop of `decode(in, in_size, out)`, behind the opening quote. -/
def decode_loop (quote escape : Byte) : State → Bytes → Decoded
  | state, [] => ⟨[], 0, state⟩
  | .DECODE_CHAR, c :: ptr =>
      if c = quote then (decode_loop quote escape .DECODE_QUOTE ptr).skip
      else if c = escape then (decode_loop quote escape .DECODE_ESCAPE ptr).skip
      else (decode_loop quote escape .DECODE_CHAR ptr).put c
  | .DECODE_ESCAPE, c :: ptr => (decode_loop quote escape .DECODE_CHAR ptr).put c
  | state, _ :: _ => ⟨[], 0, state⟩ -- behind the closing quote

/-- `decode(in, in_size, out)`: the object and what it has put out. -/
def decode (qs : QS) (in_ : Bytes) : QS × Bytes :=
  if in_.head? = some qs.quote_ then
    let d := decode_loop qs.quote_ qs.escape_ .DECODE_CHAR in_.tail
    ({ qs with
        state_ := if d.state = .DECODE_QUOTE then .OK else d.state
        n_read_ := d.n_read + 1 },
      d.out)
  else ({ qs with state_ := .DECODE_CHAR, n_read_ := 0 }, [])

/-! ## §1. What the decoder reads. -/

variable (quote escape : Byte)

theorem decode_loop_read (s : Bytes) :
    ∀ state, (decode_loop quote escape state s).n_read ≤ s.length := by
  induction s with
  | nil => intro state; cases state <;> exact le_rfl
  | cons c s ih =>
      intro state
      cases state with
      | OK => exact Nat.zero_le _
      | DECODE_QUOTE => exact Nat.zero_le _
      | DECODE_ESCAPE => exact Nat.succ_le_succ (ih .DECODE_CHAR)
      | DECODE_CHAR =>
          rw [decode_loop]
          split
          · exact Nat.succ_le_succ (ih .DECODE_QUOTE)
          · split
            · exact Nat.succ_le_succ (ih .DECODE_ESCAPE)
            · exact Nat.succ_le_succ (ih .DECODE_CHAR)

/-- Nothing is read behind the closing quote. -/
theorem decode_loop_quote (s : Bytes) :
    decode_loop quote escape .DECODE_QUOTE s = ⟨[], 0, .DECODE_QUOTE⟩ := by
  cases s with
  | nil => rfl
  | cons c s => rfl

/-- The loop itself never says that all is well. -/
theorem decode_loop_not_ok (s : Bytes) :
    ∀ state, state ≠ .OK → (decode_loop quote escape state s).state ≠ .OK := by
  induction s with
  | nil => intro state h; cases state <;> exact h
  | cons c s ih =>
      intro state h
      cases state with
      | OK => exact h
      | DECODE_QUOTE => exact h
      | DECODE_ESCAPE => exact ih .DECODE_CHAR (by decide)
      | DECODE_CHAR =>
          rw [decode_loop]
          split
          · exact ih .DECODE_QUOTE (by decide)
          · split
            · exact ih .DECODE_ESCAPE (by decide)
            · exact ih .DECODE_CHAR (by decide)

/-- **A string that is closed is longer than what it stands for.** -/
theorem decode_loop_closed (s : Bytes) : ∀ state, state = .DECODE_CHAR ∨ state = .DECODE_ESCAPE →
    (decode_loop quote escape state s).state = .DECODE_QUOTE →
    (decode_loop quote escape state s).out.length + 1
      ≤ (decode_loop quote escape state s).n_read := by
  induction s with
  | nil =>
      intro state hstate h
      have hend : state = .DECODE_QUOTE := by
        cases state <;> exact h
      rw [hend] at hstate
      exact absurd hstate (by decide)
  | cons c s ih =>
      intro state hstate h
      rcases hstate with rfl | rfl
      · rw [decode_loop] at h ⊢
        split at h
        · rename_i hquote
          rw [if_pos hquote, decode_loop_quote]
          exact le_rfl
        · rename_i hquote
          rw [if_neg hquote]
          split at h
          · rename_i hescape
            rw [if_pos hescape]
            exact Nat.le_succ_of_le (ih .DECODE_ESCAPE (Or.inr rfl) h)
          · rename_i hescape
            rw [if_neg hescape]
            exact Nat.succ_le_succ (ih .DECODE_CHAR (Or.inl rfl) h)
      · exact Nat.succ_le_succ (ih .DECODE_CHAR (Or.inl rfl) h)

/-- What is put out has been read. -/
theorem decode_loop_mem (s : Bytes) :
    ∀ state, ∀ c ∈ (decode_loop quote escape state s).out, c ∈ s := by
  induction s with
  | nil => intro state c hc; cases state <;> exact hc
  | cons a s ih =>
      intro state c hc
      cases state with
      | OK => exact absurd hc (by simp [decode_loop])
      | DECODE_QUOTE => exact absurd hc (by simp [decode_loop])
      | DECODE_ESCAPE =>
          rcases List.mem_cons.mp hc with rfl | hc
          · exact List.mem_cons_self
          · exact List.mem_cons_of_mem a (ih .DECODE_CHAR c hc)
      | DECODE_CHAR =>
          rw [decode_loop] at hc
          split at hc
          · exact List.mem_cons_of_mem a (ih .DECODE_QUOTE c hc)
          · split at hc
            · exact List.mem_cons_of_mem a (ih .DECODE_ESCAPE c hc)
            · rcases List.mem_cons.mp hc with rfl | hc
              · exact List.mem_cons_self
              · exact List.mem_cons_of_mem a (ih .DECODE_CHAR c hc)

variable {quote escape}

/-- A text that begins with a quote: how far `decode` reads, and what it gives. -/
theorem decode_cases (qs : QS) {in_ : Bytes} (h : in_.head? = some qs.quote_) :
    0 < (qs.decode in_).1.n_read_ ∧ (qs.decode in_).1.n_read_ ≤ in_.length ∧
    ((qs.decode in_).1.state_ = .OK →
      (qs.decode in_).2.length + 2 ≤ (qs.decode in_).1.n_read_) ∧
    ∀ c ∈ (qs.decode in_).2, c ∈ in_ := by
  obtain ⟨s, rfl⟩ : ∃ s, in_ = qs.quote_ :: s := by
    cases in_ with
    | nil => exact absurd h (by simp)
    | cons a s => exact ⟨s, congrArg (· :: s) (Option.some.inj h)⟩
  have hdecode : qs.decode (qs.quote_ :: s)
      = ({ qs with
            state_ := if (decode_loop qs.quote_ qs.escape_ .DECODE_CHAR s).state = .DECODE_QUOTE
              then .OK else (decode_loop qs.quote_ qs.escape_ .DECODE_CHAR s).state
            n_read_ := (decode_loop qs.quote_ qs.escape_ .DECODE_CHAR s).n_read + 1 },
          (decode_loop qs.quote_ qs.escape_ .DECODE_CHAR s).out) := if_pos h
  rw [hdecode]
  refine ⟨Nat.succ_pos _, Nat.succ_le_succ (decode_loop_read _ _ s _), fun hok => ?_, fun c hc => ?_⟩
  · have hquote : (decode_loop qs.quote_ qs.escape_ .DECODE_CHAR s).state = .DECODE_QUOTE := by
      by_contra hne
      have hstate : (if (decode_loop qs.quote_ qs.escape_ .DECODE_CHAR s).state = .DECODE_QUOTE
          then State.OK else (decode_loop qs.quote_ qs.escape_ .DECODE_CHAR s).state) = .OK := hok
      rw [if_neg hne] at hstate
      exact decode_loop_not_ok _ _ s .DECODE_CHAR (by decide) hstate
    have hclosed := decode_loop_closed _ _ s .DECODE_CHAR (Or.inl rfl) hquote
    exact Nat.succ_le_succ hclosed
  · exact List.mem_cons_of_mem _ (decode_loop_mem _ _ s _ c hc)

/-! ## §2. Decoding in place.

`decode(in, out)` reads up to the closing quote.  Its loop tests the first byte
of the text, and where `out` is `in`, that is the first one that was put out. -/

/-- The loop of `decode(in, out)` behind the opening quote, over the memory there;
    `front` is the byte that has been put over the quote. -/
def decode_in_place (quote escape : Byte) : State → Option Byte → Bytes → Option Decoded
  | state, front, m =>
      if front = some NUL then some ⟨[], 0, state⟩
      else if state ≠ .DECODE_CHAR ∧ state ≠ .DECODE_ESCAPE then some ⟨[], 0, state⟩
      else
        match m with
        | [] => none
        | c :: m =>
            if state = .DECODE_CHAR ∧ c = quote then
              (decode_in_place quote escape .DECODE_QUOTE front m).map Decoded.skip
            else if state = .DECODE_CHAR ∧ c = escape then
              (decode_in_place quote escape .DECODE_ESCAPE front m).map Decoded.skip
            else
              (decode_in_place quote escape .DECODE_CHAR (some (front.getD c)) m).map
                (Decoded.put c)

/-- `decode(ptr, ptr)` of a C string: what it puts out, and `decode_read()`. -/
def decode_cstr (qs : QS) (m : Bytes) : Option (Bytes × Nat) :=
  match m with
  | [] => none
  | c :: m =>
      if c = qs.quote_ then
        (decode_in_place qs.quote_ qs.escape_ .DECODE_CHAR none m).map
          fun d => (d.out, d.n_read + 1)
      else some ([], 0)

section InPlace

variable {quote escape : Byte} {state : State} {front : Option Byte} {m : Bytes} {d : Decoded}

/-- Nothing is read behind the closing quote. -/
theorem in_place_quote (front : Option Byte) (m : Bytes) :
    decode_in_place quote escape .DECODE_QUOTE front m = some ⟨[], 0, .DECODE_QUOTE⟩ := by
  cases m <;> simp [decode_in_place]

/-- **A step of the loop**: it ends, or closes the string, or takes an escape off, or
    puts a byte out. -/
theorem in_place_step (h : decode_in_place quote escape state front m = some d) :
    (d.out = [] ∧ d.n_read = 0) ∨ ∃ c m', m = c :: m' ∧
      (d = ⟨[], 1, .DECODE_QUOTE⟩ ∨
        (state = .DECODE_CHAR ∧ c = escape ∧ ∃ d',
          decode_in_place quote escape .DECODE_ESCAPE front m' = some d' ∧ d = d'.skip) ∨
        (((state = .DECODE_CHAR ∧ c ≠ quote ∧ c ≠ escape) ∨ state = .DECODE_ESCAPE) ∧ ∃ d',
          decode_in_place quote escape .DECODE_CHAR (some (front.getD c)) m' = some d' ∧
            d = d'.put c)) := by
  cases m with
  | nil =>
      rw [decode_in_place] at h
      split_ifs at h
      · exact Or.inl ⟨by rw [← Option.some.inj h], by rw [← Option.some.inj h]⟩
      · exact Or.inl ⟨by rw [← Option.some.inj h], by rw [← Option.some.inj h]⟩
  | cons c m =>
      rw [decode_in_place] at h
      split_ifs at h with hnul hend hquote hescape
      · exact Or.inl ⟨by rw [← Option.some.inj h], by rw [← Option.some.inj h]⟩
      · exact Or.inl ⟨by rw [← Option.some.inj h], by rw [← Option.some.inj h]⟩
      · rw [in_place_quote] at h
        exact Or.inr ⟨c, m, rfl, Or.inl (Option.some.inj h).symm⟩
      · obtain ⟨d', hd', rfl⟩ := Option.map_eq_some_iff.mp h
        exact Or.inr ⟨c, m, rfl, Or.inr (Or.inl ⟨hescape.1, hescape.2, d', hd', rfl⟩)⟩
      · obtain ⟨d', hd', rfl⟩ := Option.map_eq_some_iff.mp h
        refine Or.inr ⟨c, m, rfl, Or.inr (Or.inr ⟨?_, d', hd', rfl⟩)⟩
        by_cases hchar : state = .DECODE_CHAR
        · exact Or.inl ⟨hchar, fun heq => hquote ⟨hchar, heq⟩, fun heq => hescape ⟨hchar, heq⟩⟩
        · exact Or.inr (not_not.mp fun hnot => hend ⟨hchar, hnot⟩)

end InPlace

/-! ### What an escape pays for. -/

/-- The bytes of a text, each with its weight. -/
def weigh (w : Byte → Nat) (s : Bytes) : Nat := (s.map w).sum

theorem weigh_nil (w : Byte → Nat) : weigh w [] = 0 := rfl

theorem weigh_cons (w : Byte → Nat) (c : Byte) (s : Bytes) : weigh w (c :: s) = w c + weigh w s := by
  unfold weigh
  rw [List.map_cons, List.sum_cons]

theorem weigh_append (w : Byte → Nat) (s t : Bytes) : weigh w (s ++ t) = weigh w s + weigh w t := by
  unfold weigh
  rw [List.map_append, List.sum_append]

theorem weigh_sublist (w : Byte → Nat) {s t : Bytes} (h : s.Sublist t) : weigh w s ≤ weigh w t := by
  induction h with
  | slnil => exact le_rfl
  | cons c _ ih =>
      rw [weigh_cons]
      omega
  | cons_cons c _ ih =>
      rw [weigh_cons, weigh_cons]
      omega

/-- Every occurrence of a byte weighs one. -/
def one_of (b : Byte) : Byte → Nat := fun c => if c = b then 1 else 0

/-- Quotes weigh one and escapes two, and nothing else weighs anything. -/
def Payable (quote escape : Byte) (w : Byte → Nat) : Prop :=
  ∀ c, w c ≤ (if c = quote ∨ c = escape then 1 else 0) + one_of escape c

/-- **The quotes and escapes that are put out** have been paid for by the escapes
    that are read; the one that was read last counts too. -/
theorem in_place_weigh {quote escape : Byte} {w : Byte → Nat} (hw : Payable quote escape w) :
    ∀ (m : Bytes) (state : State) (front : Option Byte) (d : Decoded),
      decode_in_place quote escape state front m = some d →
      weigh w d.out ≤ weigh (one_of escape) (m.take d.n_read)
        + if state = .DECODE_ESCAPE then 1 else 0 := by
  intro m
  induction m with
  | nil =>
      intro state front d h
      rcases in_place_step h with ⟨hout, _⟩ | ⟨c, m', hm, _⟩
      · rw [hout, weigh_nil]
        exact Nat.zero_le _
      · cases hm
  | cons c m ih =>
      intro state front d h
      rcases in_place_step h with ⟨hout, _⟩ | ⟨c', m', hm, hstep⟩
      · rw [hout, weigh_nil]
        exact Nat.zero_le _
      · obtain ⟨rfl, rfl⟩ := List.cons.inj hm
        rcases hstep with rfl | ⟨hchar, rfl, d', hd', rfl⟩ | ⟨hstate, d', hd', rfl⟩
        · exact Nat.zero_le _
        · -- an escape is read, and pays for the next byte
          have hrest := ih _ _ _ hd'
          rw [if_pos rfl] at hrest
          show weigh w d'.out ≤ weigh (one_of c) ((c :: m).take (d'.n_read + 1)) + _
          rw [List.take_succ_cons, weigh_cons, one_of, if_pos rfl]
          change weigh w d'.out ≤ weigh (one_of c) (m.take d'.n_read) + 1 at hrest
          show weigh w d'.out ≤ 1 + weigh (one_of c) (m.take d'.n_read) + _
          omega
        · have hrest := ih _ _ _ hd'
          rw [if_neg (by decide), Nat.add_zero] at hrest
          show weigh w (c :: d'.out) ≤ weigh (one_of escape) ((c :: m).take (d'.n_read + 1)) + _
          have hc := hw c
          rw [List.take_succ_cons, weigh_cons, weigh_cons]
          rcases hstate with ⟨rfl, hquote, hescape⟩ | rfl
          · rw [if_neg (by simp [hquote, hescape])] at hc
            rw [if_neg (by decide)]
            omega
          · rw [if_pos rfl]
            split_ifs at hc <;> omega

/-- A byte that is put out. -/
theorem in_place_plain {quote escape c : Byte} (hc : c ≠ quote ∧ c ≠ escape ∧ c ≠ NUL)
    {front : Option Byte} (hfront : front ≠ some NUL) (m : Bytes) :
    some (front.getD c) ≠ some NUL ∧
      decode_in_place quote escape .DECODE_CHAR front (c :: m) =
        (decode_in_place quote escape .DECODE_CHAR (some (front.getD c)) m).map
          (Decoded.put c) := by
  obtain ⟨hquote, hescape, hnul⟩ := hc
  constructor
  · cases front with
    | none => exact fun heq => hnul (Option.some.inj heq)
    | some b => exact hfront
  · rw [decode_in_place, if_neg hfront, if_neg (by simp), if_neg (by simp [hquote]),
      if_neg (by simp [hescape])]

/-- **A string that is closed and holds no escape** is put out as it is. -/
theorem in_place_clean {quote escape : Byte} {s rest : Bytes}
    (hs : ∀ c ∈ s, c ≠ quote ∧ c ≠ escape ∧ c ≠ NUL) :
    ∀ front, front ≠ some NUL →
      decode_in_place quote escape .DECODE_CHAR front (s ++ quote :: rest)
        = some ⟨s, s.length + 1, .DECODE_QUOTE⟩ := by
  induction s with
  | nil =>
      intro front hfront
      rw [List.nil_append, decode_in_place, if_neg hfront, if_neg (by simp), if_pos ⟨rfl, rfl⟩,
        in_place_quote]
      rfl
  | cons c s ih =>
      intro front hfront
      obtain ⟨hnext, hput⟩ := in_place_plain (hs c List.mem_cons_self) hfront (s ++ quote :: rest)
      rw [List.cons_append, hput, ih (fun b hb => hs b (List.mem_cons_of_mem c hb)) _ hnext]
      rfl

/-- An escape in front of the closing quote is read. -/
theorem in_place_escape {quote escape : Byte} {s rest : Bytes}
    (hs : ∀ c ∈ s, c ≠ quote ∧ c ≠ escape ∧ c ≠ NUL) (hne : escape ≠ quote) :
    ∀ front d, front ≠ some NUL →
      decode_in_place quote escape .DECODE_CHAR front (s ++ escape :: rest) = some d →
      0 < weigh (one_of escape) ((s ++ escape :: rest).take d.n_read) := by
  induction s with
  | nil =>
      intro front d hfront h
      rw [List.nil_append, decode_in_place, if_neg hfront, if_neg (by simp),
        if_neg (by simp [hne]), if_pos ⟨rfl, rfl⟩] at h
      obtain ⟨d', _, rfl⟩ := Option.map_eq_some_iff.mp h
      show 0 < weigh _ ((escape :: rest).take (d'.n_read + 1))
      rw [List.take_succ_cons, weigh_cons, one_of, if_pos rfl]
      omega
  | cons c s ih =>
      intro front d hfront h
      obtain ⟨hnext, hput⟩ := in_place_plain (hs c List.mem_cons_self) hfront (s ++ escape :: rest)
      rw [List.cons_append, hput] at h
      obtain ⟨d', hd', rfl⟩ := Option.map_eq_some_iff.mp h
      have hrest := ih (fun b hb => hs b (List.mem_cons_of_mem c hb)) _ _ hnext hd'
      show 0 < weigh _ ((c :: (s ++ escape :: rest)).take (d'.n_read + 1))
      rw [List.take_succ_cons, weigh_cons]
      omega

/-- **An escape is lost**: of the escapes that are read, one in two is put out at most. -/
theorem in_place_loses {quote escape : Byte} {s rest : Bytes}
    (hs : ∀ c ∈ s, c ≠ quote ∧ c ≠ escape ∧ c ≠ NUL) (hne : escape ≠ quote) {d : Decoded}
    (h : decode_in_place quote escape .DECODE_CHAR none (s ++ escape :: rest) = some d) :
    weigh (one_of escape) d.out < weigh (one_of escape) ((s ++ escape :: rest).take d.n_read) := by
  have hdouble : Payable quote escape (fun c => 2 * one_of escape c) := by
    intro c
    by_cases hc : c = escape
    · simp only [one_of, if_pos hc, if_pos (Or.inr hc)]
      exact le_rfl
    · simp only [one_of, if_neg hc]
      exact Nat.zero_le _
  have htwice : weigh (fun c => 2 * one_of escape c) d.out = 2 * weigh (one_of escape) d.out :=
    List.sum_map_mul_left _ _ 2
  have hpaid := in_place_weigh hdouble _ _ _ _ h
  have hread := in_place_escape hs hne none d (by simp) h
  rw [htwice, if_neg (by decide), Nat.add_zero] at hpaid
  omega

end QS

end Aos
