/-
  Aos.Str.TokenizerWalk — `Char_Tokenizer` walking both ways.

  `prev` is `next` turned round, with positions that go below the start of the
  string, where `next` goes past its end.  Here the two pointers are integers
  from `min_` on, and both calls are there with all their arguments; `Tokenizer`
  has `next` with its default ones.

  The loops read the byte they stand on before they test where they stand, so
  the bytes around the string are read too; what they are makes no difference.

  Main results:
    • `next_pointers` — `next` here is the one of `Tokenizer`;
    • `forward_tokens` — the calls of `next` give the tokens of the string;
    • `backward_tokens` — those of `prev` give them from the last to the first.
-/
import Aos.Str.Tokenizer
import Aos.Lib.Spans

namespace Aos

open Lib.Spans

/-! ## §1. The calls with their arguments. -/

namespace Char_Tokenizer

/-- `set_separator(sep, invert)`. -/
def set_separator_with (t : Char_Tokenizer) (sep : Bytes) (invert : Bool) : Char_Tokenizer :=
  { t with cm_ := if invert then (Char_Map.set (c_str sep)).invert else Char_Map.set (c_str sep) }

theorem has_separator_with (t : Char_Tokenizer) (sep : Bytes) (invert : Bool) (c : Byte) :
    (t.set_separator_with sep invert).cm_.has c = (decide (c ∈ c_str sep) != invert) := by
  unfold set_separator_with
  cases invert with
  | true => exact (Char_Map.has_invert _ c).trans (by rw [Char_Map.has_set, Bool.bne_true])
  | false => exact (Char_Map.has_set _ c).trans (Bool.bne_false _).symm

/-- `beg_` and `end_`, counted from `min_`. -/
structure Pointers where
  beg_ : Int
  end_ : Int

/-- The byte a pointer points at, in the string or around it. -/
def byte_at (str : Bytes) (around : Int → Byte) (p : Int) : Byte :=
  if 0 ≤ p then str[p.toNat]?.getD (around p) else around p

section Calls

variable (cm : Char_Map) (str : Bytes) (around : Int → Byte)

/-- `cm_.has(*p)` -/
def on_separator (p : Int) : Bool := cm.has (byte_at str around p)

/-- `next(skip_leading_separator, begin)`; the search has found a separator where it
    has stopped before `max_`. -/
def next_with (skip_leading_separator : Bool) (begin_ : Option Int) (t : Pointers) :
    Pointers × Int :=
  let t : Pointers := match begin_ with
    | some p => ⟨p, p⟩
    | none => t
  let start := if t.beg_ < t.end_ then t.end_ + 1 else t.beg_
  if skip_leading_separator = false ∧ on_separator cm str around start ∧ start < str.length then
    (⟨start + 1, start + 1⟩, schar (byte_at str around start))
  else
    let beg := if skip_leading_separator then up (on_separator cm str around) str.length start
      else start
    let stop := up (fun p => ! on_separator cm str around p) str.length beg
    (⟨beg, stop⟩,
      if stop < str.length then (byte_at str around stop).toNat
      else if stop = str.length ∧ stop ≠ beg then Last
      else End)

/-- `prev(skip_leading_separator, begin)`; the search has found a separator where it
    has stopped before it was below `min_`. -/
def prev_with (skip_leading_separator : Bool) (begin_ : Option Int) (t : Pointers) :
    Pointers × Int :=
  let t : Pointers := match begin_ with
    | some p => ⟨p, p⟩
    | none => t
  let start := if t.beg_ < t.end_ then t.beg_ - 1 else t.end_
  if skip_leading_separator = false ∧ on_separator cm str around (start - 1) ∧ 0 ≤ start - 1 then
    (⟨start - 1, start - 1⟩, schar (byte_at str around (start - 1)))
  else
    let stop := if skip_leading_separator then down (on_separator cm str around) (start - 1) + 1
      else start
    let beg := down (fun p => ! on_separator cm str around p) (stop - 1) + 1
    (⟨beg, stop⟩,
      if 0 ≤ beg - 1 then (byte_at str around (beg - 1)).toNat
      else if beg = 0 ∧ stop ≠ beg then Last
      else End)

end Calls

/-! ## §2. Upwards. -/

section Up

variable {cm : Char_Map} {str : Bytes} (around : Int → Byte)

theorem byte_at_of_lt {p : Int} (h0 : 0 ≤ p) (hp : p < str.length) :
    str[p.toNat]? = some (byte_at str around p) := by
  have hlt : p.toNat < str.length := by omega
  rw [byte_at, if_pos h0, List.getElem?_eq_getElem hlt, Option.getD_some]

theorem byte_at_cons (k : Nat) {c : Byte} {s : Bytes} (h : str.drop k = c :: s) :
    byte_at str around k = c ∧ k < str.length ∧ str.drop (k + 1) = s := by
  have hlt : k < str.length := by
    by_contra hnot
    rw [List.drop_eq_nil_of_le (by omega)] at h
    cases h
  have hget : str[k]? = some c := by
    rw [← List.head?_drop, h]
    rfl
  refine ⟨?_, hlt, ?_⟩
  · have hat := @byte_at_of_lt str around k (by omega) (by omega)
    rw [Int.toNat_natCast, hget] at hat
    exact (Option.some.inj hat).symm
  · rw [← List.drop_drop, h]
    rfl

/-- Scanning up stops behind the bytes that are passed. -/
theorem up_bytes (go : Byte → Bool) (s : Bytes) : ∀ k : Nat, str.drop k = s →
    up (fun p => go (byte_at str around p)) str.length k
      = (k + (s.takeWhile go).length : Nat) := by
  induction s with
  | nil =>
      intro k hk
      have hle := List.drop_eq_nil_iff.mp hk
      rw [up, if_neg (by omega)]
      rfl
  | cons c s ih =>
      intro k hk
      obtain ⟨hc, hlt, hs⟩ := byte_at_cons around k hk
      rw [up, hc]
      by_cases hgo : go c = true
      · rw [if_pos ⟨by omega, hgo⟩, List.takeWhile_cons_of_pos hgo, ← Nat.cast_succ, ih (k + 1) hs,
          List.length_cons]
        omega
      · rw [if_neg (fun h => hgo h.2), List.takeWhile_cons_of_neg hgo, List.length_nil, Nat.add_zero]

theorem skip_separators_length (cm : Char_Map) (s : Bytes) :
    skip_separators cm s = (s.takeWhile cm.has).length := by
  induction s with
  | nil => rfl
  | cons c s ih =>
      rw [skip_separators, List.takeWhile_cons]
      split_ifs
      · rw [ih, List.length_cons]
      · rfl

theorem find_separator_length (cm : Char_Map) (s : Bytes) :
    find_separator cm s = (s.takeWhile fun c => ! cm.has c).length := by
  rw [← (find_separator_split cm s).1, List.length_take, min_eq_left (find_separator_le cm s)]

theorem up_skip (cm : Char_Map) (k : Nat) :
    up (on_separator cm str around) str.length k
      = (k + skip_separators cm (str.drop k) : Nat) := by
  rw [skip_separators_length]
  exact up_bytes around cm.has _ k rfl

theorem up_find (cm : Char_Map) (k : Nat) :
    up (fun p => ! on_separator cm str around p) str.length k
      = (k + find_separator cm (str.drop k) : Nat) := by
  rw [find_separator_length]
  exact up_bytes around (fun c => ! cm.has c) _ k rfl

/-- **With its default arguments `next` is the one of `Tokenizer`.** -/
theorem next_pointers (t : Char_Tokenizer) :
    next_with t.cm_ t.str around true none ⟨t.beg_, t.end_⟩
      = (⟨t.next.1.beg_, t.next.1.end_⟩, t.next.2) := by
  have hstart : (if (t.beg_ : Int) < t.end_ then (t.end_ : Int) + 1 else t.beg_)
      = ((if t.beg_ < t.end_ then t.end_ + 1 else t.beg_ : Nat) : Int) := by
    split_ifs <;> omega
  have hbeg : up (on_separator t.cm_ t.str around) t.str.length
      ((if t.beg_ < t.end_ then t.end_ + 1 else t.beg_ : Nat) : Int) = (t.seek.beg_ : Int) :=
    up_skip around t.cm_ _
  have hend : up (fun p => ! on_separator t.cm_ t.str around p) t.str.length (t.seek.beg_ : Int)
      = (t.seek.end_ : Int) := up_find around t.cm_ _
  unfold next_with
  dsimp only
  rw [if_neg (by simp), if_pos rfl, hstart, hbeg, hend]
  refine Prod.ext rfl ?_
  show _ = t.seek.stopped
  unfold stopped
  by_cases hlt : t.seek.end_ < t.str.length
  · have hat := @byte_at_of_lt t.str around t.seek.end_ (by omega) (by omega)
    rw [Int.toNat_natCast] at hat
    have hat' : t.seek.str[t.seek.end_]? = some (byte_at t.str around t.seek.end_) := hat
    rw [if_pos (by omega), hat']
  · have hnone : t.seek.str[t.seek.end_]? = none := List.getElem?_eq_none (not_lt.mp hlt)
    have hlen : t.seek.str.length = t.str.length := rfl
    rw [if_neg (by omega), hnone, hlen]
    dsimp only
    by_cases hlast : t.seek.end_ = t.str.length ∧ t.seek.end_ ≠ t.seek.beg_
    · rw [if_pos hlast, if_pos ⟨by omega, by omega⟩]
    · rw [if_neg hlast, if_neg fun h => hlast ⟨by omega, by omega⟩]

end Up

/-! ## §3. All the tokens. -/

/-- A separator of the string. -/
def separates (cm : Char_Map) (str : Bytes) (p : Int) : Bool :=
  decide (0 ≤ p) && (str[p.toNat]?.map cm.has).getD false

/-- A token: no separator in it, and none can be added to it. -/
def Token (cm : Char_Map) (str : Bytes) (x : Int × Int) : Prop :=
  Span (separates cm str) str.length x.1 x.2

/-- What `next` has done, where the next token is this one. -/
def Reports (str : Bytes) (r : Char_Tokenizer × Int) : Option (Int × Int) → Prop
  | some (a, b) => (r.1.beg_ : Int) = a ∧ (r.1.end_ : Int) = b ∧
      r.2 = (str[b.toNat]?.map fun c => (c.toNat : Int)).getD Last
  | none => r.2 = End

/-- What `prev` has done, where the token before is this one. -/
def Reports_Back (str : Bytes) (r : Pointers × Int) : Option (Int × Int) → Prop
  | some (a, b) => r.1 = ⟨a, b⟩ ∧
      r.2 = if a = 0 then Last else (str[(a - 1).toNat]?.map fun c => (c.toNat : Int)).getD Last
  | none => r.2 = End

section Tokens

variable {cm : Char_Map} {str : Bytes} (around : Int → Byte)

theorem token_iff (x : Int × Int) :
    Token cm str x ↔ Span (on_separator cm str around) str.length x.1 x.2 := by
  refine Span.congr fun i h0 hn => ?_
  rw [separates, byte_at_of_lt around h0 hn, decide_eq_true h0, on_separator]
  rfl

/-- No byte is one of the other return codes. -/
theorem code_ne_end (str : Bytes) (p : Nat) :
    (str[p]?.map fun c => (c.toNat : Int)).getD Last ≠ End := by
  cases str[p]? with
  | none => decide
  | some c =>
      have hpos : (c.toNat : Int) ≥ 0 := Int.natCast_nonneg _
      show (c.toNat : Int) ≠ -2
      omega

/-- The place where `next` goes on. -/
def going_on (t : Char_Tokenizer) : Int :=
  if t.beg_ < t.end_ then t.end_ + 1 else t.beg_

/-- Where `next` moves the pointers, and what it returns. -/
theorem next_places (t : Char_Tokenizer) :
    (t.next.1.beg_ : Int) = up (on_separator t.cm_ t.str around) t.str.length (going_on t) ∧
      (t.next.1.end_ : Int)
        = up (fun p => ! on_separator t.cm_ t.str around p) t.str.length t.next.1.beg_ ∧
      t.next.2 = if (t.next.1.end_ : Int) < t.str.length then
          ((byte_at t.str around t.next.1.end_).toNat : Int)
        else if (t.next.1.end_ : Int) = t.str.length ∧ (t.next.1.end_ : Int) ≠ t.next.1.beg_
          then Last else End := by
  have hstart : going_on t = if (t.beg_ : Int) < t.end_ then (t.end_ : Int) + 1 else t.beg_ := by
    unfold going_on
    split_ifs <;> omega
  have hnext := next_pointers around t
  unfold next_with at hnext
  dsimp only at hnext
  rw [if_neg (by simp), if_pos rfl, ← hstart] at hnext
  have hbeg : up (on_separator t.cm_ t.str around) t.str.length (going_on t)
      = (t.next.1.beg_ : Int) := congrArg (fun r : Pointers × Int => r.1.beg_) hnext
  rw [hbeg] at hnext
  have hend : up (fun p => ! on_separator t.cm_ t.str around p) t.str.length
      (t.next.1.beg_ : Int) = (t.next.1.end_ : Int) :=
    congrArg (fun r : Pointers × Int => r.1.end_) hnext
  rw [hend] at hnext
  exact ⟨hbeg.symm, hend.symm, (congrArg Prod.snd hnext).symm⟩

/-- No token reaches over the place where `next` goes on. -/
structure Forward (cm : Char_Map) (str : Bytes) (t : Char_Tokenizer) : Prop where
  cm_eq : t.cm_ = cm
  str_eq : t.str = str
  edge : going_on t = 0 ∨ str.length < going_on t ∨
    on_separator cm str (fun _ => NUL) (going_on t - 1) = true

/-- **A call of `next`**: it takes the first token that is left, or there is none. -/
theorem next_step {t : Char_Tokenizer} (h : Forward cm str t) :
    Forward cm str t.next.1 ∧
      ((Token cm str (t.next.1.beg_, t.next.1.end_) ∧ going_on t ≤ t.next.1.beg_ ∧
          Reports str t.next (some (t.next.1.beg_, t.next.1.end_)) ∧
          going_on t.next.1 = t.next.1.end_ + 1 ∧
          ∀ x, Token cm str x → going_on t ≤ x.1 → (t.next.1.beg_ : Int) ≤ x.1) ∨
        (t.next.2 = End ∧ going_on t ≤ going_on t.next.1 ∧
          ∀ x, Token cm str x → ¬ going_on t ≤ x.1)) := by
  obtain ⟨rfl, rfl, hedge⟩ := h
  obtain ⟨hbeg, hend, hcode⟩ := next_places (fun _ => NUL) t
  have h0 : 0 ≤ going_on t := by
    unfold going_on
    omega
  have hspan := next_span (on_separator t.cm_ t.str fun _ => NUL) t.str.length h0 hedge
  dsimp only at hspan
  rw [← hbeg, ← hend] at hspan
  have hgoing : going_on t.next.1
      = if t.next.1.beg_ < t.next.1.end_ then (t.next.1.end_ : Int) + 1 else t.next.1.beg_ := by
    unfold going_on
    split_ifs <;> omega
  rcases hspan with ⟨hlt, hspan, hfirst⟩ | ⟨hge, heq, hle, hedge', hnone⟩
  · -- a token: the next call goes on behind the byte that ended it
    have hne := hspan.ne
    have hle : going_on t ≤ t.next.1.beg_ := by
      rw [hbeg]
      exact (up_spec _ _ _).1
    have hgoing' : going_on t.next.1 = t.next.1.end_ + 1 := by
      rw [hgoing, if_pos (by omega)]
    refine ⟨⟨rfl, rfl, Or.inr ?_⟩, Or.inl ⟨(token_iff _ _).mpr hspan, hle, ⟨rfl, rfl, ?_⟩,
      hgoing', fun x hx => hfirst x.1 x.2 ((token_iff _ x).mp hx)⟩⟩
    · rw [hgoing', Int.add_sub_cancel]
      rcases hspan.behind with hn | hsep
      · exact Or.inl (by omega)
      · exact Or.inr hsep
    · have hstop := hspan.stop
      rw [hcode]
      by_cases hlast : (t.next.1.end_ : Int) < t.str.length
      · rw [if_pos hlast, byte_at_of_lt (fun _ => NUL) (by omega) hlast]
        rfl
      · rw [if_neg hlast, if_pos ⟨by omega, by omega⟩, List.getElem?_eq_none (by omega)]
        rfl
  · -- no token: both pointers stand where the separators end
    have hgoing' : going_on t.next.1 = t.next.1.beg_ := by
      rw [hgoing, if_neg (by omega)]
    refine ⟨⟨rfl, rfl, ?_⟩, Or.inr ⟨?_, by omega, fun x hx => hnone x.1 x.2 ((token_iff _ x).mp hx)⟩⟩
    · rw [hgoing']
      exact hedge'
    · rw [hcode, if_neg (by omega), if_neg fun hlast => hlast.2 heq]

/-- **The calls of `next`** give the tokens that are left. -/
theorem next_tokens {t : Char_Tokenizer} (ht : Forward cm str t) :
    ∃ tokens : List (Int × Int), tokens.Pairwise (fun x y => x.2 < y.1) ∧
      (∀ x, x ∈ tokens ↔ Token cm str x ∧ going_on t ≤ x.1) ∧
      ∀ i, Reports str (calls next i t) tokens[i]? := by
  have hkeep : ∀ t, Forward cm str t → Forward cm str t.next.1 := fun t ht => (next_step ht).1
  have hstep : ∀ t, Forward cm str t →
      Handed (fun t x => Token cm str x ∧ going_on t ≤ x.1) (fun x y => x.2 < y.1) (Reports str)
        t t.next := by
    intro t ht
    rcases (next_step ht).2 with ⟨htoken, hle, hreport, hgoing, hfirst⟩ | ⟨hend, hle, hnone⟩
    · have hne := htoken.ne
      dsimp only at hne
      refine Or.inl ⟨_, ⟨htoken, hle⟩, hreport, fun y hy => ?_, fun y => ?_⟩
      · rcases htoken.eq_or_apart hy.1 with ⟨ha, hb⟩ | hlt | hlt
        · exact Or.inl (Prod.ext ha.symm hb.symm)
        · exact Or.inr hlt
        · have hfar := hfirst y hy.1 hy.2
          have hne' := hy.1.ne
          dsimp only at hlt
          omega
      · show Token cm str y ∧ going_on t.next.1 ≤ y.1 ↔
          (Token cm str y ∧ going_on t ≤ y.1) ∧ (t.next.1.end_ : Int) < y.1
        rw [hgoing]
        exact ⟨fun hy => ⟨⟨hy.1, by omega⟩, by omega⟩, fun hy => ⟨hy.1.1, hy.2⟩⟩
    · exact Or.inr ⟨hend, fun y hy => hnone y hy.1 hy.2, fun y hy => hnone y hy.1 (by omega)⟩
  have hsize : ∀ t, Forward cm str t → ¬ Reports str t.next none →
      (str.length + 2 - going_on t.next.1).toNat < (str.length + 2 - going_on t).toNat := by
    intro t ht hreport
    rcases (next_step ht).2 with ⟨htoken, hle, -, hgoing, -⟩ | ⟨hend, -, -⟩
    · have hne := htoken.ne
      have hstop := htoken.stop
      dsimp only at hne hstop
      omega
    · exact absurd hend hreport
  exact hands_out next (Forward cm str) _ _ (Reports str)
    (fun t => (str.length + 2 - going_on t).toNat) hkeep hstep hsize
    (fun r x hreport hend => code_ne_end str x.2.toNat (hreport.2.2.symm.trans hend)) t ht

/-- From the start on, every token is left. -/
theorem tokens_left (cm : Char_Map) (str : Bytes) (x : Int × Int) :
    Token cm str x ∧ going_on ⟨str, 0, 0, cm⟩ ≤ x.1 ↔ Token cm str x :=
  ⟨And.left, fun hx => ⟨hx, hx.start⟩⟩

/-- **Every call of `next`** gives the next token of the string, and the separator
    behind it; then there are no more. -/
theorem forward_tokens (cm : Char_Map) (str : Bytes) :
    ∃ tokens : List (Int × Int), tokens.Pairwise (fun x y => x.2 < y.1) ∧
      (∀ x, x ∈ tokens ↔ Token cm str x) ∧
      ∀ i, Reports str (calls next i ⟨str, 0, 0, cm⟩) tokens[i]? := by
  have hstart : Forward cm str ⟨str, 0, 0, cm⟩ := ⟨rfl, rfl, Or.inl rfl⟩
  obtain ⟨tokens, hsorted, hmem, hcalls⟩ := next_tokens hstart
  exact ⟨tokens, hsorted, fun x => (hmem x).trans (tokens_left cm str x), hcalls⟩

/-- The place before which `prev` goes on. -/
def going_back (t : Pointers) : Int := if t.beg_ < t.end_ then t.beg_ - 1 else t.end_

/-- `prev()` with its default arguments. -/
def prev (cm : Char_Map) (str : Bytes) (around : Int → Byte) (t : Pointers) : Pointers × Int :=
  prev_with cm str around true none t

/-- Call number `i` of `prev`, the first one with `str_end()`. -/
def prev_calls (cm : Char_Map) (str : Bytes) (around : Int → Byte) (t : Pointers) :
    Nat → Pointers × Int
  | 0 => prev_with cm str around true (some str.length) t
  | i + 1 => calls (prev cm str around) i
      (prev_with cm str around true (some str.length) t).1

/-- To begin at the end is to stand there. -/
theorem prev_calls_eq (cm : Char_Map) (str : Bytes) (t : Pointers) (i : Nat) :
    prev_calls cm str around t i = calls (prev cm str around) i ⟨str.length, str.length⟩ := by
  cases i with
  | zero => rfl
  | succ i => rfl

/-- No token reaches over the place before which `prev` goes on. -/
structure Backward (cm : Char_Map) (str : Bytes) (around : Int → Byte) (t : Pointers) : Prop where
  le : going_back t ≤ str.length
  edge : going_back t = str.length ∨ going_back t < 0 ∨
    on_separator cm str around (going_back t) = true

/-- **A call of `prev`**: it takes the last token that is left, or there is none. -/
theorem prev_step {t : Pointers} (h : Backward cm str around t) :
    let r := prev cm str around t
    Backward cm str around r.1 ∧
      ((Token cm str (r.1.beg_, r.1.end_) ∧ r.1.end_ ≤ going_back t ∧
          Reports_Back str r (some (r.1.beg_, r.1.end_)) ∧ going_back r.1 = r.1.beg_ - 1 ∧
          ∀ x, Token cm str x → x.2 ≤ going_back t → x.2 ≤ r.1.end_) ∨
        (r.2 = End ∧ going_back r.1 ≤ going_back t ∧
          ∀ x, Token cm str x → ¬ x.2 ≤ going_back t)) := by
  intro r
  obtain ⟨hle, hedge⟩ := h
  have hspan := prev_span (on_separator cm str around) str.length hle hedge
  dsimp only at hspan
  have hend : r.1.end_ = down (on_separator cm str around) (going_back t - 1) + 1 := rfl
  have hbeg : r.1.beg_ = down (fun p => ! on_separator cm str around p) (r.1.end_ - 1) + 1 := rfl
  have hcode : r.2 = if 0 ≤ r.1.beg_ - 1 then ((byte_at str around (r.1.beg_ - 1)).toNat : Int)
      else if r.1.beg_ = 0 ∧ r.1.end_ ≠ r.1.beg_ then Last else End := rfl
  rw [← hend, ← hbeg] at hspan
  have hgoing : going_back r.1 = if r.1.beg_ < r.1.end_ then r.1.beg_ - 1 else r.1.end_ := rfl
  rcases hspan with ⟨hlt, hspan, hlast⟩ | ⟨hge, heq, hle', hedge', hnone⟩
  · -- a token: the next call goes on before the byte in front of it
    have hne := hspan.ne
    have hstart := hspan.start
    have hstop := hspan.stop
    have hgoing' : going_back r.1 = r.1.beg_ - 1 := by
      rw [hgoing, if_pos (by omega)]
    have hle' : r.1.end_ ≤ going_back t := by
      have hdown := (down_spec (on_separator cm str around) (going_back t - 1)).1
      omega
    refine ⟨⟨by omega, Or.inr ?_⟩, Or.inl ⟨(token_iff around _).mpr hspan, hle', ⟨rfl, ?_⟩,
      hgoing', fun x hx => hlast x.1 x.2 ((token_iff around x).mp hx)⟩⟩
    · rw [hgoing']
      rcases hspan.before with h0 | hsep
      · exact Or.inl (by omega)
      · exact Or.inr hsep
    · rw [hcode]
      by_cases h0 : r.1.beg_ = 0
      · rw [if_neg (by omega), if_pos ⟨h0, by omega⟩, if_pos h0]
      · rw [if_pos (by omega), if_neg h0, byte_at_of_lt around (by omega) (by omega)]
        rfl
  · have hgoing' : going_back r.1 = r.1.end_ := by
      rw [hgoing, if_neg (by omega)]
    refine ⟨⟨by omega, ?_⟩, Or.inr ⟨?_, by omega, fun x hx => hnone x.1 x.2 ((token_iff around x).mp hx)⟩⟩
    · rw [hgoing']
      exact hedge'
    · rw [hcode, if_neg (by omega), if_neg fun hlast => hlast.2 heq.symm]

/-- **The calls of `prev`** give the tokens that are left, backwards. -/
theorem prev_tokens {t : Pointers} (ht : Backward cm str around t) :
    ∃ tokens : List (Int × Int), tokens.Pairwise (fun x y => y.2 < x.1) ∧
      (∀ x, x ∈ tokens ↔ Token cm str x ∧ x.2 ≤ going_back t) ∧
      ∀ i, Reports_Back str (calls (prev cm str around) i t) tokens[i]? := by
  have hkeep : ∀ t, Backward cm str around t → Backward cm str around (prev cm str around t).1 :=
    fun t ht => (prev_step around ht).1
  have hstep : ∀ t, Backward cm str around t →
      Handed (fun t x => Token cm str x ∧ x.2 ≤ going_back t) (fun x y => y.2 < x.1)
        (Reports_Back str) t (prev cm str around t) := by
    intro t ht
    rcases (prev_step around ht).2 with ⟨htoken, hle, hreport, hgoing, hlast⟩ | ⟨hend, hle, hnone⟩
    · have hne := htoken.ne
      dsimp only at hne
      refine Or.inl ⟨_, ⟨htoken, hle⟩, hreport, fun y hy => ?_, fun y => ?_⟩
      · rcases htoken.eq_or_apart hy.1 with ⟨ha, hb⟩ | hlt | hlt
        · exact Or.inl (Prod.ext ha.symm hb.symm)
        · have hfar := hlast y hy.1 hy.2
          have hne' := hy.1.ne
          dsimp only at hlt
          omega
        · exact Or.inr hlt
      · show Token cm str y ∧ y.2 ≤ going_back (prev cm str around t).1 ↔
          (Token cm str y ∧ y.2 ≤ going_back t) ∧ y.2 < (prev cm str around t).1.beg_
        rw [hgoing]
        exact ⟨fun hy => ⟨⟨hy.1, by omega⟩, by omega⟩, fun hy => ⟨hy.1.1, by omega⟩⟩
    · exact Or.inr ⟨hend, fun y hy => hnone y hy.1 hy.2, fun y hy => hnone y hy.1 (by omega)⟩
  have hsize : ∀ t, Backward cm str around t → ¬ Reports_Back str (prev cm str around t) none →
      (going_back (prev cm str around t).1 + 2).toNat < (going_back t + 2).toNat := by
    intro t ht hreport
    rcases (prev_step around ht).2 with ⟨htoken, hle, -, hgoing, -⟩ | ⟨hend, -, -⟩
    · have hne := htoken.ne
      have hstart := htoken.start
      dsimp only at hne hstart
      omega
    · exact absurd hend hreport
  have hone : ∀ r x, Reports_Back str r (some x) → ¬ Reports_Back str r none := by
    intro r x hreport hend
    have hcode := hreport.2.symm.trans hend
    split_ifs at hcode
    · exact absurd hcode (by decide)
    · exact code_ne_end str _ hcode
  exact hands_out (prev cm str around) (Backward cm str around) _ _ (Reports_Back str)
    (fun t => (going_back t + 2).toNat) hkeep hstep hsize hone t ht

/-- **The calls of `prev`** give the tokens that `next` gives, from the last one to the
    first, and the separator in front of each; then there are no more. -/
theorem backward_tokens (cm : Char_Map) (str : Bytes) (around : Int → Byte) (t : Pointers) :
    ∃ tokens : List (Int × Int),
      (∀ i, Reports str (calls next i ⟨str, 0, 0, cm⟩) tokens[i]?) ∧
      ∀ i, Reports_Back str (prev_calls cm str around t i) tokens.reverse[i]? := by
  have hstart : Forward cm str ⟨str, 0, 0, cm⟩ := ⟨rfl, rfl, Or.inl rfl⟩
  have hback : going_back ⟨str.length, str.length⟩ = (str.length : Int) := if_neg (lt_irrefl _)
  have hend : Backward cm str around ⟨str.length, str.length⟩ := ⟨hback.le, Or.inl hback⟩
  obtain ⟨tokens, hsorted, hmem, hcalls⟩ := next_tokens hstart
  obtain ⟨back, hsorted', hmem', hcalls'⟩ := prev_tokens around hend
  have hall : ∀ x, x ∈ tokens ↔ Token cm str x :=
    fun x => (hmem x).trans (tokens_left cm str x)
  have hall' : ∀ x, x ∈ back ↔ Token cm str x := by
    intro x
    rw [hmem', hback]
    exact ⟨And.left, fun hx => ⟨hx, hx.stop⟩⟩
  -- both lists are ordered by where the tokens begin
  have hfirst : tokens.Pairwise fun x y => x.1 < y.1 :=
    hsorted.imp_of_mem fun {x y} hx _ hlt => lt_trans ((hall x).mp hx).ne hlt
  have hlast : back.Pairwise fun x y => y.1 < x.1 :=
    hsorted'.imp_of_mem fun {x y} _ hy hlt => lt_trans ((hall' y).mp hy).ne hlt
  have hreverse := handed_reverse (fun x y => lt_asymm) hfirst hlast
    fun x => (hall' x).trans (hall x).symm
  refine ⟨tokens, hcalls, fun i => ?_⟩
  rw [prev_calls_eq, ← hreverse]
  exact hcalls' i

end Tokens

end Char_Tokenizer

end Aos
