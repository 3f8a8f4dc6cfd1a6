/-
  Aos.Str.Explode — a text taken apart into a `Multi_String`, and put together.

  The three forms of `explode` count the pieces in an `int` and keep those whose
  number is in the window from `start` on.  Behind the loops over separators the
  last piece is kept whatever its number is; the tokenizer's loop has no such
  piece.  `implode` takes the number of strings for an `int`.

  Main results:
    • `explode_slice` — when each form leaves the pieces of the window;
    • `implode_explode` — when taking apart and putting together are inverse.
-/
import Aos.Lib.Loop
import Aos.Lib.Pieces
import Aos.Str.MultiString
import Aos.Str.Tokenizer

namespace Aos

open Lib.Loop Lib.Occurrence Lib.Pieces

namespace Multi_String

/-! ## §1. The loops. -/

section Explode

variable (start size max : Int)

/-- `if ( i >= start && (size < 0 || i < max) ) this->push_back(...)` -/
def push_in (m : Multi_String) (i : Int) (piece : Bytes) : Multi_String :=
  if start ≤ i ∧ (size < 0 ∨ i < max) then m.push_back piece else m

/-- The loop of `explode(separator, cstr, start, size)`; `beg` is what has been read of the
    current piece. -/
def explode_chars (separator : Byte) (m : Multi_String) (i : Int) (beg : Bytes) :
    Bytes → Option Multi_String
  -- the last piece is not tested
  | [] => some (m.push_back beg)
  | c :: cstr =>
      if c = separator then
        (int_add i 1).bind fun i' =>
          explode_chars separator (push_in start size max m i beg) i' [] cstr
      else explode_chars separator m i (beg ++ [c]) cstr

/-- The loop over `strstr(beg, separator)`. -/
def explode_strs (separator : Bytes) (hne : separator ≠ []) (m : Multi_String) (i : Int)
    (beg : Bytes) : Option Multi_String :=
  match _hocc : occurrence separator beg with
  | none => some (m.push_back beg)
  -- `beg = end + n_separator`
  | some p =>
      (int_add i 1).bind fun i' =>
        explode_strs separator hne (push_in start size max m i (beg.take p)) i'
          (beg.drop (p + separator.length))
termination_by beg.length
decreasing_by exact behind_shorter hne _hocc

/-- A pass of the loop over the tokens: the strings, the tokenizer, `ch` and `i`. -/
def token_pass : Multi_String × Char_Tokenizer × Int × Int →
    (Multi_String × Char_Tokenizer × Int × Int) ⊕ Option Multi_String
  | (m, toker, ch, i) =>
      if ch > Char_Tokenizer.End then
        match int_add i 1 with
        | some i' =>
            .inl (push_in start size max m i toker.token, toker.next.1, toker.next.2, i')
        | none => .inr none
      else .inr (some m)

end Explode

/-- `explode(separator, cstr, start, size)` with one character; there is no result where an
    `int` overflows. -/
def explode (m : Multi_String) (separator : Byte) (cstr : Bytes) (start size : Int) :
    Option Multi_String :=
  (int_add start size).bind fun max =>
    explode_chars start size max separator (m.clear true) 0 [] (c_str cstr)

/-- `explode(separator, cstr, start, size)` with a string. -/
def explode_str (m : Multi_String) (separator cstr : Bytes) (start size : Int) :
    Option Multi_String :=
  (int_add start size).bind fun max =>
    if hne : c_str separator = [] then some ((m.clear true).push_back (c_str cstr))
    else explode_strs start size max (c_str separator) hne (m.clear true) 0 (c_str cstr)

/-- `explode_token(delimiter, cstr, start, size)` leaves `r`. -/
def Explodes_Token (m : Multi_String) (delimiter cstr : Bytes) (start size : Int)
    (r : Option Multi_String) : Prop :=
  match int_add start size with
  | some max =>
      let toker := (Char_Tokenizer.new (c_str cstr)).set_separator delimiter
      Ends (token_pass start size max) (m.clear true, toker.next.1, toker.next.2, 0) r
  | none => r = none

/-- The loop of `implode`; `operator[]` of a position without a string is a null pointer. -/
def implode_loop (m : Multi_String) (glue : Bytes) (start end_ : Int) (i : Int) (str : Bytes) :
    Option Bytes :=
  if i < end_ then
    (m.at_ (i % 2 ^ 64).toNat).bind fun mem =>
      implode_loop m glue start end_ (i + 1)
        ((if i ≠ start then str ++ c_str glue else str) ++ c_str mem)
  else some str
termination_by (end_ - i).toNat
decreasing_by omega

/-- `implode(glue, start, size)` -/
def implode (m : Multi_String) (glue : Bytes) (start size : Int) : Option Bytes :=
  (int_add start size).bind fun end_ =>
    -- `int n = (int) this->size()`
    let n := toInt m.count
    implode_loop m glue start (if size < 0 ∨ end_ > n then n else end_) start []

/-! ## §2. What the loops keep. -/

section Kept

variable {start size : Int}

/-- The pieces that are kept of a list with a last piece. -/
def kept (start size : Int) (A : List Bytes) (i : Int) : List Bytes → Option (List Bytes)
  | [] => some A
  | p :: L =>
      if L = [] then some (A ++ [p])
      else (int_add i 1).bind fun i' =>
        kept start size (if In_Window start size i then A ++ [p] else A) i' L

theorem kept_cons (A : List Bytes) (i : Int) (p : Bytes) {L : List Bytes} (hne : L ≠ []) :
    kept start size A i (p :: L) = (int_add i 1).bind fun i' =>
      kept start size (if In_Window start size i then A ++ [p] else A) i' L := by
  rw [kept, if_neg hne]

theorem push_in_packed (A : List Bytes) (i : Int) (p : Bytes) :
    push_in start size (start + size) (packed A) i p
      = packed (if In_Window start size i then A ++ [p] else A) := by
  rw [push_in]
  show (if In_Window start size i then (packed A).push_back p else packed A) = _
  rw [push_back_packed]
  split_ifs
  · rfl
  · rfl

theorem explode_chars_eq (separator : Byte) (cstr : Bytes) :
    ∀ (A : List Bytes) (i : Int) (beg : Bytes), separator ∉ beg →
      explode_chars start size (start + size) separator (packed A) i beg cstr
        = (kept start size A i ((beg ++ cstr).splitOn separator)).map packed := by
  induction cstr with
  | nil =>
      intro A i beg hfree
      rw [explode_chars, push_back_packed, List.append_nil, List.splitOn_eq_singleton hfree]
      rfl
  | cons c cstr ih =>
      intro A i beg hfree
      rw [explode_chars]
      by_cases hc : c = separator
      · -- a piece ends
        rw [if_pos hc, hc, List.splitOn_append_cons_self_of_not_mem hfree,
          kept_cons _ _ _ (List.splitOn_ne_nil _ _), push_in_packed, Option.map_bind]
        exact congrArg _ (funext fun i' => ih _ i' [] List.not_mem_nil)
      · have hfree' : separator ∉ beg ++ [c] := by
          rw [List.mem_append, List.mem_singleton]
          exact fun h => h.elim hfree fun heq => hc heq.symm
        rw [if_neg hc, ih A i (beg ++ [c]) hfree', List.append_assoc]
        rfl

theorem explode_strs_eq {separator : Bytes} (hne : separator ≠ []) (beg : Bytes) :
    ∀ (A : List Bytes) (i : Int),
      explode_strs start size (start + size) separator hne (packed A) i beg
        = (kept start size A i (pieces separator beg)).map packed := by
  induction beg using pieces_induction hne with
  | last beg hocc =>
      intro A i
      rw [explode_strs, pieces_none hocc]
      split
      · rw [push_back_packed]
        rfl
      · next p hp => exact absurd (hocc.symm.trans hp) (by simp)
  | piece beg p hocc ih =>
      intro A i
      rw [explode_strs, pieces_some hne hocc, kept_cons _ _ _ (pieces_ne_nil _ _), Option.map_bind]
      split
      · next hp => exact absurd (hocc.symm.trans hp) (by simp)
      · next q hq =>
          obtain rfl := Option.some.inj (hocc.symm.trans hq)
          rw [push_in_packed]
          exact congrArg _ (funext fun i' => ih _ i')

/-- **What is kept of the pieces**: those of the window, and the last one. -/
theorem kept_eq (D : List Bytes) (last : Bytes) :
    ∀ (A : List Bytes) (i : Int), 0 ≤ i → i < 2 ^ 31 →
      kept start size A i (D ++ [last]) =
        if i + D.length < 2 ^ 31 then some (A ++ (window start size i D ++ [last])) else none := by
  induction D with
  | nil =>
      intro A i h0 h1
      rw [List.nil_append, kept, if_pos rfl, List.length_nil, if_pos (by omega)]
      rfl
  | cons p D ih =>
      intro A i h0 h1
      have hne : D ++ [last] ≠ [] := List.append_ne_nil_of_right_ne_nil _ (List.cons_ne_nil _ _)
      rw [List.cons_append, kept_cons A i p hne, List.length_cons, window]
      by_cases hlt : i + 1 < 2 ^ 31
      · rw [int_add_eq_some (by omega) hlt, Option.bind_some, ih _ (i + 1) (by omega) hlt]
        refine if_congr (by omega) ?_ rfl
        split_ifs
        · rw [List.append_assoc]
          rfl
        · rfl
      · rw [int_add_eq_none (by omega), Option.bind_none, if_neg (by omega)]

/-- The number of the last piece. -/
def last_number (L : List Bytes) : Int := L.length - 1

/-- **Where the pieces of the window are kept**: the last one has to be one of them, and its
    number an `int`. -/
theorem kept_slice_iff (h0 : 0 ≤ start) {L : List Bytes} (hne : L ≠ []) :
    kept start size [] 0 L = some (slice start size L) ↔
      last_number L < 2 ^ 31 ∧ In_Window start size (last_number L) := by
  obtain ⟨D, last, rfl⟩ : ∃ D last, L = D ++ [last] :=
    ⟨_, _, (List.dropLast_concat_getLast hne).symm⟩
  have hnumber : last_number (D ++ [last]) = D.length := by
    rw [last_number, List.length_append, List.length_singleton]
    omega
  rw [kept_eq D last [] 0 le_rfl (by decide), ← window_eq_slice start size h0, window_append,
    window_singleton, hnumber, Int.zero_add, List.nil_append]
  by_cases hlt : (D.length : Int) < 2 ^ 31
  · rw [if_pos hlt, Option.some_inj, List.append_cancel_left_eq, and_iff_right hlt]
    by_cases hin : In_Window start size D.length
    · rw [if_pos hin]
      exact iff_of_true rfl hin
    · rw [if_neg hin]
      exact iff_of_false (List.cons_ne_nil _ _) hin
  · rw [if_neg hlt]
    exact iff_of_false (by simp) fun h => hlt h.1

end Kept

/-! ## §3. The tokens. -/

/-- What stands between delimiters, without the empty pieces. -/
def tokens (cm : Char_Map) (s : Bytes) : List Bytes :=
  (s.splitOnP cm.has).filter fun w => decide (w ≠ [])

section Tokens

variable {cm : Char_Map} {start size : Int}

theorem tokens_cons_delimiter {c : Byte} (hc : cm.has c = true) (s : Bytes) :
    tokens cm (c :: s) = tokens cm s := by
  rw [tokens, List.splitOnP_cons_eq_if_modifyHead, if_pos hc]
  rfl

theorem tokens_dropWhile (s : Bytes) : tokens cm (s.dropWhile cm.has) = tokens cm s := by
  induction s with
  | nil => rfl
  | cons c s ih =>
      by_cases hc : cm.has c = true
      · rw [List.dropWhile_cons_of_pos hc, ih, tokens_cons_delimiter hc]
      · rw [List.dropWhile_cons_of_neg hc]

/-- The first token and those behind it. -/
theorem tokens_step (cm : Char_Map) (s : Bytes) :
    let word := (s.dropWhile cm.has).takeWhile fun c => ! cm.has c
    tokens cm s = if word = [] then [] else
      word :: tokens cm ((s.dropWhile cm.has).dropWhile fun c => ! cm.has c).tail := by
  intro word
  have hfree : ∀ c ∈ word, cm.has c = false := fun c hc => by
    simpa using List.mem_takeWhile_imp hc
  have hsplit : s.dropWhile cm.has
      = word ++ (s.dropWhile cm.has).dropWhile fun c => ! cm.has c :=
    List.takeWhile_append_dropWhile.symm
  rw [← tokens_dropWhile]
  by_cases hword : word = []
  · rw [if_pos hword, Char_Tokenizer.dropWhile_nil_of_takeWhile_nil hword]
    rfl
  · have hkeep : decide (word ≠ []) = true := decide_eq_true hword
    rw [if_neg hword]
    cases hrest : (s.dropWhile cm.has).dropWhile fun c => ! cm.has c with
    | nil =>
        rw [hsplit, hrest, List.append_nil, tokens, List.splitOnP_eq_singleton hfree]
        exact List.filter_cons_of_pos (p := fun w => decide (w ≠ [])) hkeep
    | cons c rest =>
        have hc : cm.has c = true := by
          have hhead := List.head_dropWhile_not (fun c => ! cm.has c)
            (l := s.dropWhile cm.has) (by simp [hrest])
          simpa [hrest] using hhead
        rw [hsplit, hrest, tokens, List.splitOnP_append_cons_of_forall_mem hfree c hc]
        exact List.filter_cons_of_pos (p := fun w => decide (w ≠ [])) hkeep

/-- **The loop over the tokens** keeps those of the window. -/
theorem token_loop (start size : Int) (n : Nat) : ∀ (t : Char_Tokenizer) (A : List Bytes) (i : Int),
    t.ahead.length = n → 0 ≤ i → i < 2 ^ 31 →
      Ends (token_pass start size (start + size)) (packed A, t.next.1, t.next.2, i)
        (if i + (tokens t.cm_ t.ahead).length < 2 ^ 31 then
          some (packed (A ++ window start size i (tokens t.cm_ t.ahead))) else none) := by
  induction n using Nat.strong_induction_on with
  | _ n ih =>
      intro t A i hn h0 h1
      obtain ⟨htoken, hahead⟩ := Char_Tokenizer.next_split t
      have hstep := tokens_step t.cm_ t.ahead
      dsimp only at hstep
      rw [← htoken, ← hahead] at hstep
      by_cases hfound : t.next.2 > Char_Tokenizer.End
      · have hne := (Char_Tokenizer.next_found t).mp hfound
        rw [if_neg hne] at hstep
        rw [hstep, List.length_cons, window]
        by_cases hlt : i + 1 < 2 ^ 31
        · have hpass : token_pass start size (start + size) (packed A, t.next.1, t.next.2, i)
              = .inl (packed (if In_Window start size i then A ++ [t.next.1.token] else A),
                  t.next.1.next.1, t.next.1.next.2, i + 1) := by
            rw [token_pass, if_pos hfound, int_add_eq_some (by omega) hlt, push_in_packed]
          rw [ends_next _ hpass]
          have hrest := ih _ (hn ▸ Char_Tokenizer.ahead_shrinks hfound) t.next.1
            (if In_Window start size i then A ++ [t.next.1.token] else A) (i + 1) rfl (by omega) hlt
          have hsum : i + 1 + ((tokens t.next.1.cm_ t.next.1.ahead).length : Int)
              = i + ((tokens t.cm_ t.next.1.ahead).length + 1 : Nat) := by
            show i + 1 + ((tokens t.cm_ t.next.1.ahead).length : Int) = _
            omega
          rw [hsum] at hrest
          convert hrest using 4
          split_ifs
          · rw [List.append_assoc]
            rfl
          · rfl
        · have hpass : token_pass start size (start + size) (packed A, t.next.1, t.next.2, i)
              = .inr none := by
            rw [token_pass, if_pos hfound, int_add_eq_none (by omega)]
          rw [ends_exit _ hpass, if_neg (by omega)]
      · have hpass : token_pass start size (start + size) (packed A, t.next.1, t.next.2, i)
            = .inr (some (packed A)) := by
          rw [token_pass, if_neg hfound]
        rw [if_pos (not_not.mp ((Char_Tokenizer.next_found t).not.mp hfound))] at hstep
        rw [ends_exit _ hpass, hstep, List.length_nil, if_pos (by omega), window, List.append_nil]

end Tokens

/-! ## §4. The window. -/

section Slices

variable {start size : Int}

theorem explode_kept (h : int_add start size = some (start + size)) (m : Multi_String)
    (separator : Byte) (cstr : Bytes) :
    m.explode separator cstr start size
      = (kept start size [] 0 ((c_str cstr).splitOn separator)).map packed := by
  rw [explode, h, Option.bind_some]
  exact explode_chars_eq separator (c_str cstr) [] 0 [] List.not_mem_nil

theorem explode_str_kept (h : int_add start size = some (start + size)) (m : Multi_String)
    {separator : Bytes} (hne : c_str separator ≠ []) (cstr : Bytes) :
    m.explode_str separator cstr start size
      = (kept start size [] 0 (pieces (c_str separator) (c_str cstr))).map packed := by
  rw [explode_str, h, Option.bind_some, dif_neg hne]
  exact explode_strs_eq hne (c_str cstr) [] 0

theorem map_packed_iff {r : Option (List Bytes)} {L : List Bytes} :
    r.map packed = some (packed L) ↔ r = some L := by
  rw [Option.map_eq_some_iff]
  constructor
  · rintro ⟨L', rfl, hpacked⟩
    rw [packed_inj hpacked]
  · exact fun h => ⟨L, h, rfl⟩

theorem explode_token_iff (h : int_add start size = some (start + size)) (h0 : 0 ≤ start)
    (m : Multi_String) (delimiter cstr : Bytes) :
    let L := tokens (Char_Map.set (c_str delimiter)) (c_str cstr)
    Explodes_Token m delimiter cstr start size (some (packed (slice start size L)))
      ↔ (L.length : Int) < 2 ^ 31 := by
  intro L
  have hloop := token_loop start size _
    ((Char_Tokenizer.new (c_str cstr)).set_separator delimiter) [] 0 rfl le_rfl (by decide)
  rw [Int.zero_add, List.nil_append, window_eq_slice start size h0] at hloop
  change Ends _ _ (if (L.length : Int) < 2 ^ 31 then some (packed (slice start size L)) else none)
    at hloop
  rw [Explodes_Token, h]
  constructor
  · intro hends
    have heq := Ends.unique _ hends hloop
    by_contra hnot
    exact absurd heq (by rw [if_neg hnot]; simp)
  · intro hlt
    rw [if_pos hlt] at hloop
    exact hloop

end Slices

/-- **The window on the pieces.**  The forms with a separator leave the pieces of the window
    exactly where the last piece is one of them, and the tokenizer's form always does, as long
    as every number they count is an `int`. -/
theorem explode_slice {start size : Int} (h0 : 0 ≤ start) (h1 : start < 2 ^ 31)
    (hs0 : -2 ^ 31 ≤ size) (hs1 : size < 2 ^ 31) (m : Multi_String) (cstr : Bytes) :
    (∀ separator : Byte,
      let L := (c_str cstr).splitOn separator
      m.explode separator cstr start size = some (packed (slice start size L)) ↔
        start + size < 2 ^ 31 ∧ last_number L < 2 ^ 31 ∧ In_Window start size (last_number L)) ∧
    (∀ separator : Bytes, c_str separator ≠ [] →
      let L := pieces (c_str separator) (c_str cstr)
      m.explode_str separator cstr start size = some (packed (slice start size L)) ↔
        start + size < 2 ^ 31 ∧ last_number L < 2 ^ 31 ∧ In_Window start size (last_number L)) ∧
    ∀ delimiter : Bytes,
      let L := tokens (Char_Map.set (c_str delimiter)) (c_str cstr)
      Explodes_Token m delimiter cstr start size (some (packed (slice start size L))) ↔
        start + size < 2 ^ 31 ∧ (L.length : Int) < 2 ^ 31 := by
  by_cases hsum : start + size < 2 ^ 31
  · have hadd : int_add start size = some (start + size) := int_add_eq_some (by omega) hsum
    refine ⟨fun separator => ?_, fun separator hne => ?_, fun delimiter => ?_⟩
    · dsimp only
      rw [explode_kept hadd, map_packed_iff, kept_slice_iff h0 (List.splitOn_ne_nil _ _),
        and_iff_right hsum]
    · dsimp only
      rw [explode_str_kept hadd m hne, map_packed_iff, kept_slice_iff h0 (pieces_ne_nil _ _),
        and_iff_right hsum]
    · exact (explode_token_iff hadd h0 m delimiter cstr).trans (and_iff_right hsum).symm
  · -- `max` does not fit in an `int`
    have hadd : int_add start size = none := int_add_eq_none (by omega)
    refine ⟨fun separator => ?_, fun separator hne => ?_, fun delimiter => ?_⟩
    · refine iff_of_false ?_ fun h => hsum h.1
      rw [explode, hadd, Option.bind_none]
      simp
    · refine iff_of_false ?_ fun h => hsum h.1
      rw [explode_str, hadd, Option.bind_none]
      simp
    · refine iff_of_false ?_ fun h => hsum h.1
      rw [Explodes_Token, hadd]
      simp

/-- Three pieces, of which the last two are asked for. -/
theorem explode_slice_last_two :
    (Multi_String.new.explode 0x2C (lit "a,b,c") 1 2
        = some (packed (slice 1 2 ((c_str (lit "a,b,c")).splitOn 0x2C))) ↔
      (1 : Int) + 2 < 2 ^ 31 ∧ last_number ((c_str (lit "a,b,c")).splitOn 0x2C) < 2 ^ 31 ∧
        In_Window 1 2 (last_number ((c_str (lit "a,b,c")).splitOn 0x2C))) :=
  (explode_slice (by decide) (by decide) (by decide) (by decide) Multi_String.new
    (lit "a,b,c")).1 0x2C

/-- Two pieces, of which the first one is asked for: the second one is left too. -/
theorem explode_first_piece :
    Multi_String.new.explode 0x2C (lit "a,b") 0 1 = some (packed (lit "a" :: [lit "b"])) ∧
      Multi_String.new.explode 0x2C (lit "a,b") 0 1
        ≠ some (packed (slice 0 1 ((c_str (lit "a,b")).splitOn 0x2C))) := by
  decide

/-! ## §5. Putting together. -/

section Implode

theorem intercalate_cons (glue a : Bytes) (L : List Bytes) :
    glue.intercalate (a :: L) = a ++ L.flatMap (glue ++ ·) := by
  induction L generalizing a with
  | nil => simp [List.intercalate, List.intersperse]
  | cons b L ih =>
      rw [intercalate_cons_of_ne_nil _ _ (List.cons_ne_nil b L), ih, List.flatMap_cons]
      simp only [List.append_assoc]

theorem c_str_before_nul {s : Bytes} (h : NUL ∉ s) (tail : Bytes) :
    c_str (s ++ NUL :: tail) = s := by
  induction s with
  | nil => exact c_str_nul tail
  | cons c s ih =>
      rw [List.mem_cons, not_or] at h
      rw [List.cons_append, c_str_cons (Ne.symm h.1), ih h.2]

variable {L : List Bytes} (hnul : ∀ p ∈ L, NUL ∉ p) (glue : Bytes)

include hnul

/-- The loop of `implode`, from a string in front of the end. -/
theorem implode_loop_eq (k : Nat) (hk : k ≤ L.length) (hint : k < 2 ^ 31) (D : List Bytes) :
    ∀ (i : Nat) (str : Bytes), (L.take k).drop i = D → i ≤ k →
      implode_loop (packed L) glue 0 k i str
        = some (str ++ if i = 0 then (c_str glue).intercalate D
            else D.flatMap (c_str glue ++ ·)) := by
  induction D with
  | nil =>
      intro i str hD hi
      have hge : k ≤ i := by
        have hlen := congrArg List.length hD
        rw [List.length_drop, List.length_take, List.length_nil] at hlen
        omega
      rw [implode_loop, if_neg (by omega)]
      split_ifs
      · simp [List.intercalate, List.intersperse]
      · simp
  | cons a D ih =>
      intro i str hD hi
      have hlt : i < k := by
        have hlen := congrArg List.length hD
        rw [List.length_drop, List.length_take, List.length_cons] at hlen
        omega
      have hat : L[i] = a := by
        have hget : ((L.take k).drop i)[0]? = some a := by rw [hD]; rfl
        rw [List.getElem?_drop, Nat.add_zero, List.getElem?_take_of_lt hlt,
          List.getElem?_eq_getElem (by omega)] at hget
        exact Option.some.inj hget
      have hrest : (L.take k).drop (i + 1) = D := by
        rw [← List.drop_drop, hD]
        rfl
      have hidx : ((i : Int) % 2 ^ 64).toNat = i := by omega
      obtain ⟨tail, htail⟩ := (represents_packed L).at_ i (by omega)
      rw [implode_loop, if_pos (by omega), hidx, htail, Option.bind_some, hat,
        c_str_before_nul (hat ▸ hnul _ (List.getElem_mem _)), ← Nat.cast_succ,
        ih (i + 1) _ hrest hlt, if_neg (Nat.succ_ne_zero i)]
      by_cases h0 : i = 0
      · rw [if_pos h0, if_neg (by omega), intercalate_cons, List.append_assoc]
      · rw [if_neg h0, if_pos (by omega), List.flatMap_cons]
        simp only [List.append_assoc]

/-- **`implode` puts together** as many strings as their number is as an `int`. -/
theorem implode_packed :
    (packed L).implode glue 0 (-1)
      = some ((c_str glue).intercalate (L.take (toInt L.length).toNat)) := by
  have hcount : (packed L).count = L.length := by
    show (Lib.Packed.offsets 0 L).length = L.length
    rw [Lib.Packed.offsets_length]
  have hneg : (-1 : Int) < 0 := by decide
  rw [implode, int_add_eq_some (by decide) (by decide), Option.bind_some, hcount]
  dsimp only
  rw [if_pos (Or.inl hneg)]
  by_cases h0 : 0 ≤ toInt L.length
  · obtain ⟨k, hk⟩ := Int.eq_ofNat_of_zero_le h0
    have hrange : (k : Int) < 2 ^ 31 ∧ k ≤ L.length := by
      unfold toInt at hk
      rw [Int.bmod_def] at hk
      omega
    rw [hk, Int.toNat_natCast]
    have hloop := implode_loop_eq hnul glue k hrange.2 (by omega) (L.take k) 0 [] rfl
      (Nat.zero_le k)
    rw [if_pos rfl, List.nil_append] at hloop
    exact hloop
  · rw [implode_loop, if_neg (by omega), Int.toNat_of_nonpos (by omega), List.take_zero]
    rfl

end Implode

/-! ## §6. Both ways. -/

/-- Without a window all the pieces are kept. -/
theorem kept_all {L : List Bytes} (hne : L ≠ []) :
    kept 0 (-1) [] 0 L = if L.length ≤ 2 ^ 31 then some L else none := by
  obtain ⟨D, last, rfl⟩ : ∃ D last, L = D ++ [last] :=
    ⟨_, _, (List.dropLast_concat_getLast hne).symm⟩
  have hall : window 0 (-1) 0 D = D := by
    rw [window_eq_slice 0 (-1) le_rfl]
    exact if_pos (by decide)
  rw [kept_eq D last [] 0 le_rfl (by decide), hall, List.nil_append, List.length_append,
    List.length_singleton]
  exact if_congr (by omega) rfl rfl

theorem mem_intercalate {c : Byte} {glue : Bytes} {L : List Bytes}
    (h : c ∈ glue.intercalate L) : c ∈ glue ∨ ∃ p ∈ L, c ∈ p := by
  cases L with
  | nil => exact absurd h List.not_mem_nil
  | cons a L =>
      rw [intercalate_cons, List.mem_append, List.mem_flatMap] at h
      rcases h with ha | ⟨p, hp, hmem⟩
      · exact Or.inr ⟨a, List.mem_cons_self, ha⟩
      · rw [List.mem_append] at hmem
        exact hmem.imp_right fun hin => ⟨p, List.mem_cons_of_mem a hp, hin⟩

theorem mem_intercalate_of_mem {c : Byte} (glue : Bytes) {p : Bytes} {L : List Bytes} (hp : p ∈ L)
    (hc : c ∈ p) : c ∈ glue.intercalate L := by
  cases L with
  | nil => exact absurd hp List.not_mem_nil
  | cons a L =>
      rw [intercalate_cons, List.mem_append, List.mem_flatMap]
      rcases List.mem_cons.mp hp with rfl | hp
      · exact Or.inl hc
      · exact Or.inr ⟨p, hp, List.mem_append_right _ hc⟩

/-- The number of strings as an `int`. -/
theorem toInt_length {n : Nat} (h : n < 2 ^ 31) : (toInt n).toNat = n := by
  rw [toInt_of_lt (by omega) (by omega), Int.toNat_natCast]

/-- **The pieces of a text are put together again** where their number is an `int`. -/
theorem implode_kept_iff {L : List Bytes} (hne : L ≠ []) (hnul : ∀ p ∈ L, NUL ∉ p) (glue : Bytes)
    (hglue : c_str glue ≠ []) :
    ((kept 0 (-1) [] 0 L).map packed).bind (fun m => m.implode glue 0 (-1))
      = some ((c_str glue).intercalate L) ↔ L.length < 2 ^ 31 := by
  rw [kept_all hne]
  by_cases hlt : L.length < 2 ^ 31
  · rw [if_pos hlt.le, Option.map_some, Option.bind_some, implode_packed hnul, toInt_length hlt,
      List.take_length]
    exact iff_of_true rfl hlt
  · refine iff_of_false ?_ hlt
    by_cases heq : L.length = 2 ^ 31
    · -- as an `int` the number is negative, and nothing is put together
      have hzero : (toInt L.length).toNat = 0 := by
        rw [heq]
        decide
      rw [if_pos heq.le, Option.map_some, Option.bind_some, implode_packed hnul, hzero,
        List.take_zero, Option.some_inj]
      obtain ⟨a, M, rfl⟩ := List.exists_cons_of_ne_nil hne
      obtain ⟨b, M, rfl⟩ := List.exists_cons_of_length_pos (by
        rw [List.length_cons] at heq
        omega : 0 < M.length)
      intro hempty
      have hlen := congrArg List.length hempty
      have hpos := List.length_pos_iff.mpr hglue
      rw [intercalate_cons, List.flatMap_cons] at hlen
      simp only [List.length_append, List.intercalate, List.intersperse, List.flatten_nil,
        List.length_nil] at hlen
      omega
    · rw [if_neg (by omega), Option.map_none, Option.bind_none]
      simp

/-- **Strings that are put together** are taken apart again where their number is an `int`. -/
theorem explode_implode_iff {c : Byte} (hc : c ≠ NUL) {L : List Bytes} (hne : L ≠ [])
    (hnul : ∀ p ∈ L, NUL ∉ p) (hfree : ∀ p ∈ L, c ∉ p) (m : Multi_String) :
    ((packed L).implode [c] 0 (-1)).bind (fun s => m.explode c s 0 (-1)) = some (packed L)
      ↔ L.length < 2 ^ 31 := by
  have hglue : c_str [c] = [c] := c_str_of_no_nul (by
    rw [List.mem_singleton]
    exact Ne.symm hc)
  have htext : NUL ∉ [c].intercalate (L.take (toInt L.length).toNat) := by
    intro hmem
    rcases mem_intercalate hmem with h | ⟨p, hp, h⟩
    · exact hc (List.mem_singleton.mp h).symm
    · exact hnul p (List.mem_of_mem_take hp) h
  have hadd : int_add 0 (-1) = some (0 + -1) := int_add_eq_some (by decide) (by decide)
  rw [implode_packed hnul, Option.bind_some, hglue, explode_kept hadd, c_str_of_no_nul htext,
    map_packed_iff]
  by_cases hlt : L.length < 2 ^ 31
  · rw [toInt_length hlt, List.take_length, List.splitOn_intercalate c hfree hne, kept_all hne,
      if_pos hlt.le]
    exact iff_of_true rfl hlt
  · refine iff_of_false ?_ hlt
    rw [kept_all (List.splitOn_ne_nil _ _)]
    intro h
    split_ifs at h with hle
    -- fewer strings have been put together
    have hfew : (toInt L.length).toNat < 2 ^ 31 := by
      unfold toInt
      rw [Int.bmod_def]
      omega
    have hlen := congrArg List.length (Option.some.inj h)
    by_cases hnil : L.take (toInt L.length).toNat = []
    · rw [hnil] at hlen
      have hone : ([c].intercalate []).splitOn c = [[]] := List.splitOn_nil c
      rw [hone, List.length_singleton] at hlen
      omega
    · rw [List.splitOn_intercalate c (fun p hp => hfree p (List.mem_of_mem_take hp)) hnil,
        List.length_take] at hlen
      omega

/-- **Taking apart and putting together are inverse**, both ways and in both forms, exactly
    where the number of strings is an `int`. -/
theorem implode_explode {c : Byte} (hc : c ≠ NUL) {separator : Bytes}
    (hsep : c_str separator ≠ []) (m : Multi_String) (cstr : Bytes) {L : List Bytes} (hne : L ≠ [])
    (hL : ∀ p ∈ L, NUL ∉ p ∧ c ∉ p) :
    ((m.explode c cstr 0 (-1)).bind (fun m => m.implode [c] 0 (-1)) = some (c_str cstr) ↔
        ((c_str cstr).splitOn c).length < 2 ^ 31) ∧
      ((m.explode_str separator cstr 0 (-1)).bind (fun m => m.implode separator 0 (-1))
          = some (c_str cstr) ↔
        (pieces (c_str separator) (c_str cstr)).length < 2 ^ 31) ∧
      (((packed L).implode [c] 0 (-1)).bind (fun s => m.explode c s 0 (-1)) = some (packed L) ↔
        L.length < 2 ^ 31) := by
  have hadd : int_add 0 (-1) = some (0 + -1) := int_add_eq_some (by decide) (by decide)
  have hglue : c_str [c] = [c] := c_str_of_no_nul (by
    rw [List.mem_singleton]
    exact Ne.symm hc)
  have hnul : ∀ {pat : Bytes}, ∀ p ∈ pieces pat (c_str cstr), NUL ∉ p := by
    intro pat p hp hmem
    have htext := mem_intercalate_of_mem pat hp hmem
    rw [intercalate_pieces] at htext
    exact c_str_no_nul cstr htext
  refine ⟨?_, ?_, explode_implode_iff hc hne (fun p hp => (hL p hp).1) (fun p hp => (hL p hp).2) m⟩
  · have hjoined := intercalate_pieces [c] (c_str cstr)
    have hround := implode_kept_iff (pieces_ne_nil [c] (c_str cstr)) hnul [c]
      (by rw [hglue]; exact List.cons_ne_nil c [])
    rw [hglue, hjoined, pieces_letter] at hround
    rw [explode_kept hadd]
    exact hround
  · have hround := implode_kept_iff (pieces_ne_nil (c_str separator) (c_str cstr)) hnul separator hsep
    rw [intercalate_pieces] at hround
    rw [explode_str_kept hadd m hsep]
    exact hround

theorem implode_explode_two :
    (Multi_String.new.explode 0x2C (lit "a,b") 0 (-1)).bind (fun m => m.implode [0x2C] 0 (-1))
      = some (c_str (lit "a,b")) :=
  (implode_explode (c := 0x2C) (by decide) (by decide : c_str (lit ", ") ≠ []) Multi_String.new
    (lit "a,b")
    (L := [lit "a"]) (by decide) (by decide)).1.mpr (by decide)

/-- As many empty strings as an `int` cannot count: nothing is put together. -/
theorem implode_explode_many :
    ¬ ∀ (c : Byte) (L : List Bytes), c ≠ NUL → L ≠ [] → (∀ p ∈ L, NUL ∉ p ∧ c ∉ p) →
      ((packed L).implode [c] 0 (-1)).bind (fun s => Multi_String.new.explode c s 0 (-1))
        = some (packed L) := by
  intro h
  have hone : ∀ p ∈ List.replicate (2 ^ 31) ([] : Bytes), p = [] := fun p => List.eq_of_mem_replicate
  have hne : List.replicate (2 ^ 31) ([] : Bytes) ≠ [] := by
    intro hnil
    rw [List.replicate_eq_nil_iff] at hnil
    exact absurd hnil (by decide)
  have hnul : ∀ p ∈ List.replicate (2 ^ 31) ([] : Bytes), NUL ∉ p := fun p hp => by
    rw [hone p hp]
    exact List.not_mem_nil
  have hfree : ∀ p ∈ List.replicate (2 ^ 31) ([] : Bytes), (0x2C : Byte) ∉ p := fun p hp => by
    rw [hone p hp]
    exact List.not_mem_nil
  have hlt := (explode_implode_iff (by decide) hne hnul hfree Multi_String.new).mp
    (h 0x2C _ (by decide) hne fun p hp => ⟨hnul p hp, hfree p hp⟩)
  rw [List.length_replicate] at hlt
  exact absurd hlt (lt_irrefl _)

end Multi_String

end Aos
