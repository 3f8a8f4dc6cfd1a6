/-
  Aos.Str.Tokenizer — `Char_Tokenizer` and `trim`.

  A tokenizer walks over a string with two positions, the begin and the end of
  the current token; `next` moves both to the token behind the separator.

  Main results:
    • `token_no_separator` — a token holds no separator;
    • `next_progress` — `next` never moves back, and a token found is not empty;
    • `next_token`, `next_last`, `next_end` — the token at the head of a text;
    • `next_split`, `next_found`, `next_behind` — the next token, whatever stands ahead;
    • `trim_sublist`, `trim_char_sublist` — trimming only takes bytes away;
    • `trim_around` — and those are the ones around a text.
-/
import Aos.Str.CharMap

namespace Aos

/-! ## §1. The tokenizer. -/

structure Char_Tokenizer where
  /-- the string from `min_` to `max_` -/
  str : Bytes
  beg_ : Nat
  end_ : Nat
  cm_ : Char_Map

namespace Char_Tokenizer

/-- The token ended with the string. -/
def Last : Int := -1

/-- There is no token left. -/
def End : Int := -2

def new (str : Bytes) : Char_Tokenizer := ⟨str, 0, 0, Char_Map.clear⟩

def set_separator (t : Char_Tokenizer) (sep : Bytes) : Char_Tokenizer :=
  { t with cm_ := Char_Map.set (c_str sep) }

/-- `while( cm_.has(*end_) && end_ < max_ ) ++end_`, over what lies before `max_`. -/
def skip_separators (cm : Char_Map) : Bytes → Nat
  | [] => 0
  | c :: s => if cm.has c then skip_separators cm s + 1 else 0

/-- `for(; end_ < max_; ++end_) if( cm_.has(*end_) ) break`. -/
def find_separator (cm : Char_Map) : Bytes → Nat
  | [] => 0
  | c :: s => if cm.has c then 0 else find_separator cm s + 1

/-- How `next()` moves: over the separator behind the last token, over more
    separators, to the end of the token. -/
def seek (t : Char_Tokenizer) : Char_Tokenizer :=
  let start := if t.beg_ < t.end_ then t.end_ + 1 else t.beg_
  let beg := start + skip_separators t.cm_ (t.str.drop start)
  { t with beg_ := beg, end_ := beg + find_separator t.cm_ (t.str.drop beg) }

/-- What `next()` returns where it has stopped. -/
def stopped (t : Char_Tokenizer) : Int :=
  match t.str[t.end_]? with
  | some c => c.toNat -- found token ended with separators
  | none =>
      if t.end_ = t.str.length ∧ t.end_ ≠ t.beg_ then Last -- found token that ends up to string end
      else End

/-- `next()` with its default arguments. -/
def next (t : Char_Tokenizer) : Char_Tokenizer × Int := (t.seek, t.seek.stopped)

/-- `token()` and `size()`: the bytes of the token. -/
def token (t : Char_Tokenizer) : Bytes := (t.str.drop t.beg_).take (t.end_ - t.beg_)

/-! ## §2. Tokens. -/

theorem take_find_separator (cm : Char_Map) (s : Bytes) :
    ∀ c ∈ s.take (find_separator cm s), cm.has c = false := by
  induction s with
  | nil => intro c hc; exact absurd hc (by simp)
  | cons a s ih =>
      intro c hc
      rw [find_separator] at hc
      by_cases ha : cm.has a = true
      · rw [if_pos ha] at hc
        exact absurd hc (by simp)
      · rw [if_neg ha, List.take_succ_cons] at hc
        rcases List.mem_cons.mp hc with rfl | hc
        · simpa using ha
        · exact ih c hc

theorem seek_end (t : Char_Tokenizer) :
    t.seek.end_ = t.seek.beg_ + find_separator t.cm_ (t.str.drop t.seek.beg_) := rfl

/-- **A token holds no separator.** -/
theorem token_no_separator (t : Char_Tokenizer) (sep : Bytes) :
    ∀ c ∈ (t.set_separator sep).next.1.token, c ∉ c_str sep := by
  intro c hc hmem
  have hsize : (t.set_separator sep).seek.end_ - (t.set_separator sep).seek.beg_
      = find_separator (t.set_separator sep).cm_
          (t.str.drop (t.set_separator sep).seek.beg_) := by
    rw [seek_end, Nat.add_sub_cancel_left]
    rfl
  change c ∈ (t.str.drop (t.set_separator sep).seek.beg_).take
    ((t.set_separator sep).seek.end_ - (t.set_separator sep).seek.beg_) at hc
  rw [hsize] at hc
  -- every byte of the token has been tested by the loop
  have hhas := take_find_separator _ _ c hc
  rw [set_separator, Char_Map.has_set, decide_eq_false_iff_not] at hhas
  exact hhas hmem

theorem skip_separators_stop (cm : Char_Map) (s : Bytes) :
    ∀ c s', s.drop (skip_separators cm s) = c :: s' → cm.has c = false := by
  induction s with
  | nil => intro c s' h; exact absurd h (by simp)
  | cons a s ih =>
      intro c s' h
      rw [skip_separators] at h
      by_cases ha : cm.has a = true
      · rw [if_pos ha, List.drop_succ_cons] at h
        exact ih c s' h
      · rw [if_neg ha, List.drop_zero] at h
        rw [← (List.cons.inj h).1]
        simpa using ha

/-- The token is not behind its own end. -/
theorem seek_le (t : Char_Tokenizer) : t.seek.beg_ ≤ t.seek.end_ := Nat.le_add_right _ _

/-- `next` never moves back. -/
theorem seek_mono (t : Char_Tokenizer) (h : t.beg_ ≤ t.end_) : t.end_ ≤ t.seek.beg_ := by
  have hstart : t.end_ ≤ if t.beg_ < t.end_ then t.end_ + 1 else t.beg_ := by
    split <;> omega
  exact Nat.le_trans hstart (Nat.le_add_right _ _)

/-- **`next` moves on.**  A token it reports is not empty and lies in the string. -/
theorem next_progress (t : Char_Tokenizer) (h : t.next.2 > End) :
    t.seek.beg_ < t.seek.end_ ∧ t.seek.end_ ≤ t.str.length := by
  change t.seek.stopped > End at h
  unfold stopped at h
  cases hc : t.seek.str[t.seek.end_]? with
  | none =>
      rw [hc] at h
      change (if _ then Last else End) > End at h
      by_cases hlast : t.seek.end_ = t.seek.str.length ∧ t.seek.end_ ≠ t.seek.beg_
      · have hle := seek_le t
        have hlen : t.seek.end_ = t.str.length := hlast.1
        exact ⟨by omega, by omega⟩
      · rw [if_neg hlast] at h
        exact absurd h (lt_irrefl End)
  | some c =>
      have hlt : t.seek.end_ < t.str.length := (List.getElem?_eq_some_iff.mp hc).1
      refine ⟨?_, by omega⟩
      -- the byte at `beg_` is no separator, so the search for the end goes past it
      by_contra hnot
      have hle := seek_le t
      have hzero : find_separator t.cm_ (t.str.drop t.seek.beg_) = 0 := by
        have hend := seek_end t
        omega
      cases hd : t.str.drop t.seek.beg_ with
      | nil =>
          have := List.drop_eq_nil_iff.mp hd
          omega
      | cons a s =>
          have hskip : (t.str.drop (if t.beg_ < t.end_ then t.end_ + 1 else t.beg_)).drop
              (skip_separators t.cm_
                (t.str.drop (if t.beg_ < t.end_ then t.end_ + 1 else t.beg_))) = a :: s := by
            rw [List.drop_drop]
            exact hd
          have hno := skip_separators_stop t.cm_ _ a s hskip
          rw [hd, find_separator, if_neg (by simp [hno])] at hzero
          exact absurd hzero (Nat.succ_ne_zero _)

/-! ### What lies ahead of a tokenizer. -/

/-- What `next` has still to look at: what lies behind the separator of the last token. -/
def ahead (t : Char_Tokenizer) : Bytes :=
  t.str.drop (if t.beg_ < t.end_ then t.end_ + 1 else t.beg_)

theorem find_separator_append {cm : Char_Map} {tok rest : Bytes}
    (htok : ∀ b ∈ tok, cm.has b = false) :
    find_separator cm (tok ++ rest) = tok.length + find_separator cm rest := by
  induction tok with
  | nil => rw [List.nil_append, List.length_nil, Nat.zero_add]
  | cons b tok ih =>
      have hb : ¬ cm.has b = true := by
        rw [htok b List.mem_cons_self]
        decide
      rw [List.cons_append, find_separator, if_neg hb,
        ih fun c hc => htok c (List.mem_cons_of_mem b hc), List.length_cons]
      omega

section Ahead

variable {t : Char_Tokenizer} {tok rest : Bytes} {c : Byte}

/-- Where the text ahead begins with a token, `next` stops behind it. -/
theorem seek_token (h : t.ahead = tok ++ rest) (hne : tok ≠ [])
    (htok : ∀ b ∈ tok, t.cm_.has b = false)
    (hrest : ∀ c, rest.head? = some c → t.cm_.has c = true) :
    t.str.drop t.seek.beg_ = tok ++ rest ∧ t.seek.end_ = t.seek.beg_ + tok.length := by
  unfold ahead at h
  have hskip : skip_separators t.cm_ (tok ++ rest) = 0 := by
    obtain ⟨b, tok, rfl⟩ := List.exists_cons_of_ne_nil hne
    have hb : ¬ t.cm_.has b = true := by
      rw [htok b List.mem_cons_self]
      decide
    rw [List.cons_append, skip_separators, if_neg hb]
  have hstop : find_separator t.cm_ rest = 0 := by
    cases rest with
    | nil => rfl
    | cons c rest => rw [find_separator, if_pos (hrest c rfl)]
  have hbeg : t.seek.beg_ = if t.beg_ < t.end_ then t.end_ + 1 else t.beg_ := by
    show (if t.beg_ < t.end_ then t.end_ + 1 else t.beg_)
      + skip_separators t.cm_ (t.str.drop (if t.beg_ < t.end_ then t.end_ + 1 else t.beg_)) = _
    rw [h, hskip, Nat.add_zero]
  refine ⟨hbeg ▸ h, ?_⟩
  rw [seek_end, hbeg, h, find_separator_append htok, hstop]
  rfl

theorem seek_token_text (h : t.ahead = tok ++ rest) (hne : tok ≠ [])
    (htok : ∀ b ∈ tok, t.cm_.has b = false)
    (hrest : ∀ c, rest.head? = some c → t.cm_.has c = true) :
    t.next.1.token = tok ∧ t.next.1.ahead = rest.tail ∧ t.next.1.str.drop t.next.1.end_ = rest := by
  obtain ⟨hdrop, hend⟩ := seek_token h hne htok hrest
  have hpos : 0 < tok.length := List.length_pos_iff.mpr hne
  have hbehind : t.str.drop t.seek.end_ = rest := by
    rw [hend, ← List.drop_drop, hdrop, List.drop_left]
  refine ⟨?_, ?_, hbehind⟩
  · show (t.str.drop t.seek.beg_).take (t.seek.end_ - t.seek.beg_) = tok
    rw [hdrop, hend, Nat.add_sub_cancel_left, List.take_left]
  · show t.str.drop (if t.seek.beg_ < t.seek.end_ then t.seek.end_ + 1 else t.seek.beg_) = _
    rw [if_pos (by omega), ← List.drop_drop, hbehind, List.drop_one]

/-- **A token that a separator ends.** -/
theorem next_token (h : t.ahead = tok ++ c :: rest) (hne : tok ≠ [])
    (htok : ∀ b ∈ tok, t.cm_.has b = false) (hc : t.cm_.has c = true) :
    t.next.2 = c.toNat ∧ t.next.1.token = tok ∧ t.next.1.ahead = rest := by
  have hrest : ∀ d, (c :: rest).head? = some d → t.cm_.has d = true := by
    intro d hd
    obtain rfl := Option.some.inj hd
    exact hc
  obtain ⟨htoken, hahead, hbehind⟩ := seek_token_text h hne htok hrest
  refine ⟨?_, htoken, hahead⟩
  have hat : t.seek.str[t.seek.end_]? = some c := by
    rw [← List.head?_drop]
    exact congrArg List.head? hbehind
  show t.seek.stopped = _
  unfold stopped
  rw [hat]

/-- **The last token**, that no separator ends. -/
theorem next_last (h : t.ahead = tok) (hne : tok ≠ []) (htok : ∀ b ∈ tok, t.cm_.has b = false) :
    t.next.2 = Last ∧ t.next.1.token = tok ∧ t.next.1.ahead = [] := by
  have hall : t.ahead = tok ++ [] := by rw [List.append_nil, h]
  have hnone : ∀ d, ([] : Bytes).head? = some d → t.cm_.has d = true := by
    intro d hd
    cases hd
  obtain ⟨hdrop, hend⟩ := seek_token hall hne htok hnone
  obtain ⟨htoken, hahead, hbehind⟩ := seek_token_text hall hne htok hnone
  refine ⟨?_, htoken, hahead⟩
  have hpos : 0 < tok.length := List.length_pos_iff.mpr hne
  have hlen := congrArg List.length hdrop
  rw [List.length_drop, List.append_nil] at hlen
  have hstop : t.seek.end_ = t.seek.str.length := by
    show t.seek.end_ = t.str.length
    omega
  show t.seek.stopped = Last
  unfold stopped
  rw [List.getElem?_eq_none hstop.ge]
  exact if_pos ⟨hstop, by omega⟩

/-- **Nothing is left.** -/
theorem next_end (h : t.ahead = []) : t.next.2 = End := by
  unfold ahead at h
  have hbeg : t.seek.beg_ = if t.beg_ < t.end_ then t.end_ + 1 else t.beg_ := by
    show (if t.beg_ < t.end_ then t.end_ + 1 else t.beg_)
      + skip_separators t.cm_ (t.str.drop (if t.beg_ < t.end_ then t.end_ + 1 else t.beg_)) = _
    rw [h, skip_separators, Nat.add_zero]
  have hend : t.seek.end_ = t.seek.beg_ := by
    rw [seek_end, hbeg, h, find_separator, Nat.add_zero]
  have hle : t.seek.str.length ≤ t.seek.end_ := by
    rw [hend, hbeg]
    exact List.drop_eq_nil_iff.mp h
  show t.seek.stopped = End
  unfold stopped
  rw [List.getElem?_eq_none hle]
  exact if_neg fun hboth => hboth.2 hend

/-- A token that is found takes something off. -/
theorem ahead_shrinks (h : t.next.2 > End) : t.next.1.ahead.length < t.ahead.length := by
  obtain ⟨hlt, hle⟩ := next_progress t h
  have hbeg : (if t.beg_ < t.end_ then t.end_ + 1 else t.beg_) ≤ t.seek.beg_ :=
    Nat.le_add_right _ _
  show (t.str.drop (if t.seek.beg_ < t.seek.end_ then t.seek.end_ + 1 else t.seek.beg_)).length
    < (t.str.drop (if t.beg_ < t.end_ then t.end_ + 1 else t.beg_)).length
  rw [if_pos hlt, List.length_drop, List.length_drop]
  omega

end Ahead

/-! ### Any text ahead. -/

/-- Where nothing stands behind the separators, nothing is left. -/
theorem dropWhile_nil_of_takeWhile_nil {s : Bytes} {p : Byte → Bool}
    (h : (s.dropWhile p).takeWhile (fun c => ! p c) = []) : s.dropWhile p = [] := by
  cases hs : s.dropWhile p with
  | nil => rfl
  | cons c rest =>
      have hno := List.head?_dropWhile_not p s
      rw [hs] at hno
      have hc : p c = false := by simpa using hno
      rw [hs, List.takeWhile_cons_of_pos (by simpa using hc)] at h
      exact absurd h (List.cons_ne_nil _ _)

theorem drop_skip_separators (cm : Char_Map) (s : Bytes) :
    s.drop (skip_separators cm s) = s.dropWhile cm.has := by
  induction s with
  | nil => rfl
  | cons c s ih =>
      rw [skip_separators, List.dropWhile_cons]
      split
      · exact ih
      · rfl

theorem find_separator_split (cm : Char_Map) (s : Bytes) :
    s.take (find_separator cm s) = s.takeWhile (fun c => ! cm.has c) ∧
      s.drop (find_separator cm s) = s.dropWhile (fun c => ! cm.has c) := by
  induction s with
  | nil => exact ⟨rfl, rfl⟩
  | cons c s ih =>
      rw [find_separator, List.takeWhile_cons, List.dropWhile_cons]
      cases cm.has c with
      | true => exact ⟨rfl, rfl⟩
      | false => exact ⟨congrArg (c :: ·) ih.1, ih.2⟩

theorem find_separator_le (cm : Char_Map) (s : Bytes) : find_separator cm s ≤ s.length := by
  induction s with
  | nil => exact Nat.le_refl 0
  | cons c s ih =>
      rw [find_separator, List.length_cons]
      split
      · exact Nat.zero_le _
      · exact Nat.succ_le_succ ih

/-- **The next token, whatever stands ahead**: separators are skipped, and the token
    reaches up to the next one. -/
theorem next_split (t : Char_Tokenizer) :
    t.next.1.token = (t.ahead.dropWhile t.cm_.has).takeWhile (fun c => ! t.cm_.has c) ∧
      t.next.1.ahead = ((t.ahead.dropWhile t.cm_.has).dropWhile (fun c => ! t.cm_.has c)).tail := by
  have hbeg : t.str.drop t.seek.beg_ = t.ahead.dropWhile t.cm_.has := by
    rw [← drop_skip_separators]
    unfold ahead
    rw [List.drop_drop]
    rfl
  obtain ⟨htake, hdrop⟩ := find_separator_split t.cm_ (t.ahead.dropWhile t.cm_.has)
  have hend : t.seek.end_
      = t.seek.beg_ + find_separator t.cm_ (t.ahead.dropWhile t.cm_.has) := by
    rw [seek_end, hbeg]
  constructor
  · show (t.str.drop t.seek.beg_).take (t.seek.end_ - t.seek.beg_) = _
    rw [hbeg, hend, Nat.add_sub_cancel_left, htake]
  · show t.str.drop (if t.seek.beg_ < t.seek.end_ then t.seek.end_ + 1 else t.seek.beg_) = _
    rw [← hdrop]
    by_cases hlt : t.seek.beg_ < t.seek.end_
    · rw [if_pos hlt, ← hbeg, List.drop_drop, ← List.drop_one, List.drop_drop, hbeg, hend]
    · -- no token: what is left begins with no separator, so nothing is left
      have hzero : find_separator t.cm_ (t.ahead.dropWhile t.cm_.has) = 0 := by omega
      rw [hzero, List.take_zero] at htake
      rw [if_neg hlt, hbeg, dropWhile_nil_of_takeWhile_nil htake.symm]
      rfl

/-- Where there is no token, nothing is left. -/
theorem next_none {t : Char_Tokenizer} (h : t.next.1.token = []) : t.next.1.ahead = [] := by
  obtain ⟨htoken, hahead⟩ := next_split t
  rw [hahead, dropWhile_nil_of_takeWhile_nil (htoken.symm.trans h)]
  rfl

/-- A token is reported where it is not empty. -/
theorem next_found (t : Char_Tokenizer) : t.next.2 > End ↔ t.next.1.token ≠ [] := by
  constructor
  · intro h
    obtain ⟨hlt, hle⟩ := next_progress t h
    refine List.ne_nil_of_length_pos ?_
    show 0 < ((t.str.drop t.seek.beg_).take (t.seek.end_ - t.seek.beg_)).length
    rw [List.length_take, List.length_drop]
    omega
  · intro h
    have hlt : t.seek.beg_ < t.seek.end_ := by
      by_contra hnot
      refine h ?_
      show (t.str.drop t.seek.beg_).take (t.seek.end_ - t.seek.beg_) = []
      rw [Nat.sub_eq_zero_of_le (not_lt.mp hnot), List.take_zero]
    show t.seek.stopped > End
    unfold stopped
    cases hc : t.seek.str[t.seek.end_]? with
    | some c =>
        have hpos : (c.toNat : Int) ≥ 0 := Int.natCast_nonneg _
        show (c.toNat : Int) > -2
        omega
    | none =>
        have hle := find_separator_le t.cm_ (t.str.drop t.seek.beg_)
        have hend := seek_end t
        have hlen : t.seek.str.length ≤ t.seek.end_ := List.getElem?_eq_none_iff.mp hc
        have hstr : t.seek.str = t.str := rfl
        rw [List.length_drop] at hle
        rw [hstr] at hlen
        have hlast : t.seek.end_ = t.seek.str.length ∧ t.seek.end_ ≠ t.seek.beg_ := by
          rw [hstr]
          omega
        show (if _ then Last else End) > End
        rw [if_pos hlast]
        decide

/-- **A token behind separators**, up to the next one. -/
theorem next_behind {t : Char_Tokenizer} {gap tok rest : Bytes}
    (h : t.ahead = gap ++ (tok ++ rest)) (hgap : ∀ b ∈ gap, t.cm_.has b = true) (hne : tok ≠ [])
    (htok : ∀ b ∈ tok, t.cm_.has b = false)
    (hrest : ∀ c, rest.head? = some c → t.cm_.has c = true) :
    t.next.2 > End ∧ t.next.1.token = tok ∧ t.next.1.ahead = rest.tail := by
  obtain ⟨htoken, hahead⟩ := next_split t
  have hdrop : t.ahead.dropWhile t.cm_.has = tok ++ rest := by
    rw [h, List.dropWhile_append_of_pos hgap]
    obtain ⟨b, tok, rfl⟩ := List.exists_cons_of_ne_nil hne
    rw [List.cons_append]
    exact List.dropWhile_cons_of_neg (by rw [htok b List.mem_cons_self]; decide)
  have hall : ∀ b ∈ tok, (! t.cm_.has b) = true := by
    intro b hb
    rw [htok b hb]
    rfl
  have hstop : rest.takeWhile (fun c => ! t.cm_.has c) = [] ∧
      rest.dropWhile (fun c => ! t.cm_.has c) = rest := by
    cases rest with
    | nil => exact ⟨rfl, rfl⟩
    | cons c rest =>
        have hc := hrest c rfl
        exact ⟨List.takeWhile_cons_of_neg (by rw [hc]; decide),
          List.dropWhile_cons_of_neg (by rw [hc]; decide)⟩
  rw [hdrop, List.takeWhile_append_of_pos hall, hstop.1, List.append_nil] at htoken
  rw [hdrop, List.dropWhile_append_of_pos hall, hstop.2] at hahead
  exact ⟨(next_found t).mpr (htoken ▸ hne), htoken, hahead⟩

/-- **Behind separators alone** there is no token. -/
theorem next_only_separators {t : Char_Tokenizer} (h : ∀ b ∈ t.ahead, t.cm_.has b = true) :
    ¬ t.next.2 > End := by
  have htoken := (next_split t).1
  rw [List.dropWhile_eq_nil_iff.mpr h] at htoken
  rw [next_found]
  exact not_not.mpr htoken

end Char_Tokenizer

/-! ## §3. Trimming. -/

/-- `TRIM_CM(" \t\r\n\0\v", 6)`. -/
def TRIM_CM : Char_Map := Char_Map.set [SP, TAB, CR, LF, NUL, 11]

theorem has_trim (b : Byte) :
    TRIM_CM.has b = decide (b = SP ∨ b = TAB ∨ b = CR ∨ b = LF ∨ b = NUL ∨ b = 11) := by
  rw [TRIM_CM, Char_Map.has_set]
  simp only [List.mem_cons, List.not_mem_nil, or_false]

/-- The loop of `ltrim(str, cm)` and the erase behind it. -/
def ltrim (cm : Char_Map) : Bytes → Bytes
  | [] => []
  | c :: str => if ¬ cm.has c then c :: str else ltrim cm str

/-- `rtrim(str, cm)` walks the string from its end. -/
def rtrim (cm : Char_Map) (str : Bytes) : Bytes := (ltrim cm str.reverse).reverse

/-- `trim(str)`. -/
def trim (str : Bytes) : Bytes := ltrim TRIM_CM (rtrim TRIM_CM str)

/-- `ltrim(str, ch)`: `str.erase(0, str.find_first_not_of(ch))`. -/
def ltrim_char (ch : Byte) (str : Bytes) : Bytes := str.dropWhile (· = ch)

/-- `rtrim(str, ch)`: `str.erase(str.find_last_not_of(ch) + 1)`. -/
def rtrim_char (ch : Byte) (str : Bytes) : Bytes := (str.reverse.dropWhile (· = ch)).reverse

/-- `trim(str, ch)`. -/
def trim_char (ch : Byte) (str : Bytes) : Bytes := ltrim_char ch (rtrim_char ch str)

/-- `ltrim(str, trim)`: `str.erase(0, str.find_first_not_of(trim))`. -/
def ltrim_set (trim : Bytes) (str : Bytes) : Bytes := str.dropWhile (· ∈ c_str trim)

/-- `rtrim(str, trim)`: `str.erase(str.find_last_not_of(trim) + 1)`. -/
def rtrim_set (trim : Bytes) (str : Bytes) : Bytes :=
  (str.reverse.dropWhile (· ∈ c_str trim)).reverse

/-- `trim(str, trim)`. -/
def trim_set (trim : Bytes) (str : Bytes) : Bytes := ltrim_set trim (rtrim_set trim str)

theorem ltrim_sublist (cm : Char_Map) (str : Bytes) : (ltrim cm str).Sublist str := by
  induction str with
  | nil => exact List.Sublist.slnil
  | cons c str ih =>
      rw [ltrim]
      split
      · exact List.Sublist.refl _
      · exact List.Sublist.cons c ih

theorem rtrim_sublist (cm : Char_Map) (str : Bytes) : (rtrim cm str).Sublist str := by
  have hback := (ltrim_sublist cm str.reverse).reverse
  rwa [List.reverse_reverse] at hback

/-- **Trimming takes bytes away and adds none.** -/
theorem trim_sublist (str : Bytes) : (trim str).Sublist str :=
  (ltrim_sublist TRIM_CM _).trans (rtrim_sublist TRIM_CM str)

theorem ltrim_eq (cm : Char_Map) (str : Bytes) : ltrim cm str = str.dropWhile cm.has := by
  induction str with
  | nil => rfl
  | cons c str ih =>
      rw [ltrim, List.dropWhile_cons, ih]
      split_ifs <;> rfl

/-- A trimmed text begins and ends with a byte that is not trimmed. -/
theorem trimmed_ends {str : Bytes} (h : trim str = str) :
    (∀ c, str.head? = some c → TRIM_CM.has c = false) ∧
      ∀ c, str.getLast? = some c → TRIM_CM.has c = false := by
  have hright : rtrim TRIM_CM str = str := by
    refine (rtrim_sublist TRIM_CM str).eq_of_length_le ?_
    rw [← congrArg List.length h]
    exact (ltrim_sublist TRIM_CM _).length_le
  have hleft : str.dropWhile TRIM_CM.has = str := by
    rw [← ltrim_eq, ← hright]
    exact h.trans hright.symm
  have hback : str.reverse.dropWhile TRIM_CM.has = str.reverse := by
    rw [← ltrim_eq, ← List.reverse_inj, List.reverse_reverse]
    exact hright
  have hfirst : ∀ s : Bytes, s.dropWhile TRIM_CM.has = s →
      ∀ c, s.head? = some c → TRIM_CM.has c = false := by
    intro s hs c hc
    have hnot := List.head?_dropWhile_not TRIM_CM.has s
    rw [hs, hc] at hnot
    exact hnot
  refine ⟨hfirst str hleft, fun c hc => hfirst str.reverse hback c ?_⟩
  rw [List.head?_reverse]
  exact hc

/-- **What lies around a text is trimmed off.** -/
theorem trim_around {a s b : Bytes} (ha : ∀ c ∈ a, TRIM_CM.has c = true)
    (hb : ∀ c ∈ b, TRIM_CM.has c = true)
    (hfirst : ∀ c, s.head? = some c → TRIM_CM.has c = false)
    (hlast : ∀ c, s.getLast? = some c → TRIM_CM.has c = false) (hne : s ≠ []) :
    trim (a ++ s ++ b) = s := by
  have hleft : ∀ (u v : Bytes), (∀ c ∈ u, TRIM_CM.has c = true) →
      (∀ c, v.head? = some c → TRIM_CM.has c = false) → ltrim TRIM_CM (u ++ v) = v := by
    intro u v hu hv
    rw [ltrim_eq, List.dropWhile_append_of_pos hu]
    cases v with
    | nil => rfl
    | cons c v => rw [List.dropWhile_cons_of_neg (by simp [hv c rfl])]
  have hright : rtrim TRIM_CM (a ++ s ++ b) = a ++ s := by
    unfold rtrim
    rw [List.reverse_append, hleft, List.reverse_reverse]
    · intro c hc
      exact hb c (List.mem_reverse.mp hc)
    · intro c hc
      rw [List.head?_reverse, List.getLast?_append_of_ne_nil _ hne] at hc
      exact hlast c hc
  unfold trim
  rw [hright, hleft a s ha hfirst]

/-- A text that begins and ends with bytes that are not trimmed is kept. -/
theorem trim_of_ends {s : Bytes} (hfirst : ∀ c, s.head? = some c → TRIM_CM.has c = false)
    (hlast : ∀ c, s.getLast? = some c → TRIM_CM.has c = false) : trim s = s := by
  by_cases hne : s = []
  · rw [hne]
    exact List.sublist_nil.mp (trim_sublist [])
  · have haround := trim_around (a := []) (b := []) (fun c hc => absurd hc List.not_mem_nil)
      (fun c hc => absurd hc List.not_mem_nil) hfirst hlast hne
    rwa [List.nil_append, List.append_nil] at haround

theorem trim_char_sublist (ch : Byte) (str : Bytes) : (trim_char ch str).Sublist str := by
  have hr : (rtrim_char ch str).Sublist str := by
    have := (List.dropWhile_sublist (l := str.reverse) (· = ch)).reverse
    rwa [List.reverse_reverse] at this
  exact (List.dropWhile_sublist _).trans hr

end Aos
