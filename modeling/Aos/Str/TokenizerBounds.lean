/-
  Aos.Str.TokenizerBounds — which calls of `next` and `prev` stay in their buffer.

  Here a read has no byte where the pointer is outside of the buffer, and a call
  with such a read has no result.  The loops test the byte they stand on before
  they test where they stand, so they go over the edge whenever nothing in the
  buffer stops them.

  Main results:
    • `call_inside_eq` — a call that stays in the buffer is the one of
      `TokenizerWalk`;
    • `call_inside_iff` — which calls stay in it;
    • `calls_inside_iff` — a sequence of calls stays in it exactly when each of
      them does so from the pointers it finds.
-/
import Aos.Str.Fields
import Aos.Lib.Runs

namespace Aos.Char_Tokenizer

open Lib.Spans Lib.Runs
open Lib.Suffixes (run)

/-! ## §1. The calls with their reads. -/

/-- The byte a pointer points at; there is none outside of the buffer. -/
def read (str : Bytes) (p : Int) : Option Byte := if 0 ≤ p then str[p.toNat]? else none

section Calls

variable (cm : Char_Map) (str : Bytes)

/-- `while( cm_.has(*end_) && end_ < max_ ) ++end_` -/
def skip_ahead (e : Int) : Option Int :=
  -- the byte is read before its place is tested
  match read str e with
  | none => none
  | some c => if cm.has c = true ∧ e < str.length then skip_ahead (e + 1) else some e
termination_by (str.length - e).toNat
decreasing_by omega

/-- `for(; end_ < max_; ++end_)`, up to a separator. -/
def find_ahead (e : Int) : Option Int :=
  if e < str.length then
    match read str e with
    | none => none
    | some c => if cm.has c = true then some e else find_ahead (e + 1)
  else some e
termination_by (str.length - e).toNat
decreasing_by omega

/-- `while( cm_.has(*beg_) && beg_ >= min_ ) --beg_` -/
def skip_back (b : Int) : Option Int :=
  match read str b with
  | none => none
  | some c => if cm.has c = true ∧ 0 ≤ b then skip_back (b - 1) else some b
termination_by (b + 1).toNat
decreasing_by omega

/-- `for(; beg_ >= min_; --beg_)`, down to a separator. -/
def find_back (b : Int) : Option Int :=
  if 0 ≤ b then
    match read str b with
    | none => none
    | some c => if cm.has c = true then some b else find_back (b - 1)
  else some b
termination_by (b + 1).toNat
decreasing_by omega

/-- `if ( begin ) beg_ = end_ = begin` -/
def begins (begin_ : Option Int) (t : Pointers) : Pointers :=
  match begin_ with
  | some p => ⟨p, p⟩
  | none => t

/-- How `next` returns, with its pointers. -/
def next_code (beg stop : Int) : Option (Pointers × Int) :=
  if stop < str.length then (read str stop).map fun c => (⟨beg, stop⟩, (c.toNat : Int))
  else some (⟨beg, stop⟩, if stop = str.length ∧ stop ≠ beg then Last else End)

/-- `next(skip_leading_separator, begin)` -/
def next_inside (skip_leading_separator : Bool) (begin_ : Option Int) (t : Pointers) :
    Option (Pointers × Int) :=
  let start := starts (begins begin_ t)
  if skip_leading_separator then do
    let beg ← skip_ahead cm str start
    let stop ← find_ahead cm str beg
    next_code str beg stop
  else do
    let c ← read str start
    if cm.has c = true ∧ start < str.length then
      -- an empty field: `beg_ = ++end_; return *(beg_-1)`
      some (⟨start + 1, start + 1⟩, schar c)
    else
      let stop ← find_ahead cm str start
      next_code str start stop

/-- How `prev` returns, with its pointers. -/
def prev_code (beg stop : Int) : Option (Pointers × Int) :=
  if 0 ≤ beg - 1 then (read str (beg - 1)).map fun c => (⟨beg, stop⟩, (c.toNat : Int))
  else some (⟨beg, stop⟩, if beg = 0 ∧ stop ≠ beg then Last else End)

/-- `prev(skip_leading_separator, begin)` -/
def prev_inside (skip_leading_separator : Bool) (begin_ : Option Int) (t : Pointers) :
    Option (Pointers × Int) :=
  let start := going_back (begins begin_ t)
  if skip_leading_separator then do
    let last ← skip_back cm str (start - 1)
    let front ← find_back cm str last
    prev_code str (front + 1) (last + 1)
  else do
    let c ← read str (start - 1)
    if cm.has c = true ∧ 0 ≤ start - 1 then
      some (⟨start - 1, start - 1⟩, schar c)
    else
      let front ← find_back cm str (start - 1)
      prev_code str (front + 1) start

end Calls

/-! ## §2. The loops. -/

section Loops

variable {cm : Char_Map} {str : Bytes} (around : Int → Byte)

theorem read_eq {p : Int} {c : Byte} (h : read str p = some c) :
    0 ≤ p ∧ p < str.length ∧ str[p.toNat]? = some c ∧ byte_at str around p = c := by
  unfold read at h
  split_ifs at h with h0
  have hlt := (List.getElem?_eq_some_iff.mp h).1
  refine ⟨h0, by omega, h, ?_⟩
  rw [byte_at, if_pos h0, h, Option.getD_some]

theorem read_isSome_iff {p : Int} : (read str p).isSome ↔ 0 ≤ p ∧ p < str.length := by
  unfold read
  split_ifs with h0
  · rw [Option.isSome_iff_ne_none, Ne, List.getElem?_eq_none_iff]
    omega
  · exact iff_of_false Bool.false_ne_true fun h => h0 h.1

theorem read_inside {p : Int} (h0 : 0 ≤ p) (hlt : p < str.length) : ∃ c, read str p = some c :=
  Option.isSome_iff_exists.mp (read_isSome_iff.mpr ⟨h0, hlt⟩)

/-- A byte that is no separator, at this place or behind it. -/
def Stops_Ahead (cm : Char_Map) (str : Bytes) (e : Int) : Prop :=
  ∃ (k : Nat) (c : Byte), e ≤ k ∧ str[k]? = some c ∧ cm.has c = false

/-- A byte that is no separator, at this place or in front of it. -/
def Stops_Behind (cm : Char_Map) (str : Bytes) (b : Int) : Prop :=
  ∃ (k : Nat) (c : Byte), (k : Int) ≤ b ∧ str[k]? = some c ∧ cm.has c = false

/-- A place of the buffer that stops the loop, or the next places do. -/
theorem stops_ahead_iff {e : Int} {c : Byte} (hread : read str e = some c) :
    Stops_Ahead cm str e ↔ cm.has c = false ∨ Stops_Ahead cm str (e + 1) := by
  obtain ⟨h0, -, hget, -⟩ := read_eq (fun _ => NUL) hread
  constructor
  · rintro ⟨k, d, hk, hd, hno⟩
    by_cases heq : e = k
    · obtain rfl : c = d := Option.some.inj (by rw [← hget, heq, Int.toNat_natCast, hd])
      exact Or.inl hno
    · exact Or.inr ⟨k, d, by omega, hd, hno⟩
  · rintro (hno | ⟨k, d, hk, hd, hno⟩)
    · exact ⟨e.toNat, c, by omega, hget, hno⟩
    · exact ⟨k, d, by omega, hd, hno⟩

theorem stops_behind_iff {b : Int} {c : Byte} (hread : read str b = some c) :
    Stops_Behind cm str b ↔ cm.has c = false ∨ Stops_Behind cm str (b - 1) := by
  obtain ⟨h0, -, hget, -⟩ := read_eq (fun _ => NUL) hread
  constructor
  · rintro ⟨k, d, hk, hd, hno⟩
    by_cases heq : b = k
    · obtain rfl : c = d := Option.some.inj (by rw [← hget, heq, Int.toNat_natCast, hd])
      exact Or.inl hno
    · exact Or.inr ⟨k, d, by omega, hd, hno⟩
  · rintro (hno | ⟨k, d, hk, hd, hno⟩)
    · exact ⟨b.toNat, c, by omega, hget, hno⟩
    · exact ⟨k, d, by omega, hd, hno⟩

/-- **Skipping ahead** stays in the buffer exactly when something there stops it. -/
theorem skip_ahead_isSome_iff {e : Int} (h0 : 0 ≤ e) :
    (skip_ahead cm str e).isSome ↔ Stops_Ahead cm str e := by
  induction e using skip_ahead.induct cm str with
  | case1 e hread =>
      rw [skip_ahead, hread]
      refine iff_of_false Bool.false_ne_true ?_
      rintro ⟨k, c, hk, hc, -⟩
      have hlt := (List.getElem?_eq_some_iff.mp hc).1
      have hin : (read str e).isSome := read_isSome_iff.mpr ⟨h0, by omega⟩
      rw [hread] at hin
      exact Bool.false_ne_true hin
  | case2 e c hread hgo ih =>
      rw [skip_ahead, hread, stops_ahead_iff hread, hgo.1]
      dsimp only
      rw [if_pos hgo, ih (by omega)]
      simp
  | case3 e c hread hstop =>
      obtain ⟨-, hlt, -, -⟩ := read_eq (fun _ => NUL) hread
      rw [skip_ahead, hread, stops_ahead_iff hread]
      dsimp only
      rw [if_neg hstop]
      refine iff_of_true rfl (Or.inl ?_)
      simpa using fun hhas => hstop ⟨hhas, hlt⟩

theorem skip_ahead_eq {e x : Int} (h : skip_ahead cm str e = some x) :
    x = up (on_separator cm str around) str.length e ∧ x < str.length ∧ e ≤ x := by
  induction e using skip_ahead.induct cm str with
  | case1 e hread =>
      rw [skip_ahead, hread] at h
      cases h
  | case2 e c hread hgo ih =>
      obtain ⟨-, -, -, hat⟩ := read_eq around hread
      rw [skip_ahead, hread] at h
      dsimp only at h
      rw [if_pos hgo] at h
      obtain ⟨hx, hlt, hle⟩ := ih h
      refine ⟨?_, hlt, by omega⟩
      rw [up, if_pos ⟨hgo.2, by rw [on_separator, hat]; exact hgo.1⟩]
      exact hx
  | case3 e c hread hstop =>
      obtain ⟨-, hlt, -, hat⟩ := read_eq around hread
      rw [skip_ahead, hread] at h
      dsimp only at h
      rw [if_neg hstop] at h
      obtain rfl := Option.some.inj h
      refine ⟨?_, hlt, le_rfl⟩
      rw [up, if_neg fun hgo => hstop ⟨by rw [on_separator, hat] at hgo; exact hgo.2, hlt⟩]

theorem skip_back_isSome_iff {b : Int} (hlt : b < str.length) :
    (skip_back cm str b).isSome ↔ Stops_Behind cm str b := by
  induction b using skip_back.induct cm str with
  | case1 b hread =>
      rw [skip_back, hread]
      refine iff_of_false Bool.false_ne_true ?_
      rintro ⟨k, c, hk, hc, -⟩
      have hin : (read str b).isSome := read_isSome_iff.mpr ⟨by omega, hlt⟩
      rw [hread] at hin
      exact Bool.false_ne_true hin
  | case2 b c hread hgo ih =>
      rw [skip_back, hread, stops_behind_iff hread, hgo.1]
      dsimp only
      rw [if_pos hgo, ih (by omega)]
      simp
  | case3 b c hread hstop =>
      obtain ⟨h0, -, -, -⟩ := read_eq (fun _ => NUL) hread
      rw [skip_back, hread, stops_behind_iff hread]
      dsimp only
      rw [if_neg hstop]
      refine iff_of_true rfl (Or.inl ?_)
      simpa using fun hhas => hstop ⟨hhas, h0⟩

theorem skip_back_eq {b x : Int} (h : skip_back cm str b = some x) :
    x = down (on_separator cm str around) b ∧ 0 ≤ x ∧ x ≤ b := by
  induction b using skip_back.induct cm str with
  | case1 b hread =>
      rw [skip_back, hread] at h
      cases h
  | case2 b c hread hgo ih =>
      obtain ⟨-, -, -, hat⟩ := read_eq around hread
      rw [skip_back, hread] at h
      dsimp only at h
      rw [if_pos hgo] at h
      obtain ⟨hx, h0, hle⟩ := ih h
      refine ⟨?_, h0, by omega⟩
      rw [down, if_pos ⟨hgo.2, by rw [on_separator, hat]; exact hgo.1⟩]
      exact hx
  | case3 b c hread hstop =>
      obtain ⟨h0, -, -, hat⟩ := read_eq around hread
      rw [skip_back, hread] at h
      dsimp only at h
      rw [if_neg hstop] at h
      obtain rfl := Option.some.inj h
      refine ⟨?_, h0, le_rfl⟩
      rw [down, if_neg fun hgo => hstop ⟨by rw [on_separator, hat] at hgo; exact hgo.2, h0⟩]

/-- **Finding a separator** stays in the buffer, from a place in it. -/
theorem find_ahead_eq (cm : Char_Map) (str : Bytes) {e : Int} (h0 : 0 ≤ e) :
    find_ahead cm str e
      = some (up (fun p => ! on_separator cm str around p) str.length e) := by
  induction e using find_ahead.induct cm str with
  | case1 e hlt hread =>
      have hin : (read str e).isSome := read_isSome_iff.mpr ⟨h0, hlt⟩
      rw [hread] at hin
      exact absurd hin Bool.false_ne_true
  | case2 e hlt c hread hsep =>
      obtain ⟨-, -, -, hat⟩ := read_eq around hread
      rw [find_ahead, if_pos hlt, hread, up, on_separator, hat]
      dsimp only
      rw [if_pos hsep, if_neg fun h => by rw [hsep] at h; exact Bool.false_ne_true h.2]
  | case3 e hlt c hread hno ih =>
      obtain ⟨-, -, -, hat⟩ := read_eq around hread
      rw [find_ahead, if_pos hlt, hread, up, on_separator, hat]
      dsimp only
      rw [if_neg hno, if_pos ⟨hlt, by simpa using hno⟩]
      exact ih (by omega)
  | case4 e hge =>
      rw [find_ahead, if_neg hge, up, if_neg fun h => hge h.1]

theorem find_back_eq (cm : Char_Map) {b : Int} (hlt : b < str.length) :
    find_back cm str b = some (down (fun p => ! on_separator cm str around p) b) := by
  induction b using find_back.induct cm str with
  | case1 b h0 hread =>
      have hin : (read str b).isSome := read_isSome_iff.mpr ⟨h0, hlt⟩
      rw [hread] at hin
      exact absurd hin Bool.false_ne_true
  | case2 b h0 c hread hsep =>
      obtain ⟨-, -, -, hat⟩ := read_eq around hread
      rw [find_back, if_pos h0, hread, down, on_separator, hat]
      dsimp only
      rw [if_pos hsep, if_neg fun h => by rw [hsep] at h; exact Bool.false_ne_true h.2]
  | case3 b h0 c hread hno ih =>
      obtain ⟨-, -, -, hat⟩ := read_eq around hread
      rw [find_back, if_pos h0, hread, down, on_separator, hat]
      dsimp only
      rw [if_neg hno, if_pos ⟨h0, by simpa using hno⟩]
      exact ih (by omega)
  | case4 b hneg =>
      rw [find_back, if_neg hneg, down, if_neg fun h => hneg h.1]

theorem next_code_eq {beg stop : Int} (h0 : 0 ≤ stop) :
    next_code str beg stop = some (⟨beg, stop⟩,
      if stop < str.length then ((byte_at str around stop).toNat : Int)
      else if stop = str.length ∧ stop ≠ beg then Last else End) := by
  unfold next_code
  split_ifs with hlt hlast
  · obtain ⟨c, hc⟩ := read_inside h0 hlt
    rw [hc, (read_eq around hc).2.2.2]
    rfl
  · rfl
  · rfl

theorem prev_code_eq {beg stop : Int} (hlt : beg - 1 < str.length) :
    prev_code str beg stop = some (⟨beg, stop⟩,
      if 0 ≤ beg - 1 then ((byte_at str around (beg - 1)).toNat : Int)
      else if beg = 0 ∧ stop ≠ beg then Last else End) := by
  unfold prev_code
  split_ifs with h0 hlast
  · obtain ⟨c, hc⟩ := read_inside h0 hlt
    rw [hc, (read_eq around hc).2.2.2]
    rfl
  · rfl
  · rfl

end Loops
/-! ## §3. A call. -/

/-- A call of `next` or `prev`, with its arguments. -/
inductive Call where
  | next (skip_leading_separator : Bool) (begin_ : Option Int)
  | prev (skip_leading_separator : Bool) (begin_ : Option Int)

/-- The call, where all its reads are in the buffer. -/
def Call.inside (cm : Char_Map) (str : Bytes) (t : Pointers) : Call → Option (Pointers × Int)
  | .next skip begin_ => next_inside cm str skip begin_ t
  | .prev skip begin_ => prev_inside cm str skip begin_ t

/-- The call, wherever it reads. -/
def Call.anywhere (cm : Char_Map) (str : Bytes) (around : Int → Byte) (t : Pointers) :
    Call → Pointers × Int
  | .next skip begin_ => next_with cm str around skip begin_ t
  | .prev skip begin_ => prev_with cm str around skip begin_ t

/-- The place where `next` goes on, or the one in front of the place where `prev` goes on,
    is in the buffer, and so is a byte that stops the call where it skips separators. -/
def Call.Stops (cm : Char_Map) (str : Bytes) (t : Pointers) : Call → Prop
  | .next skip begin_ =>
      let p := starts (begins begin_ t)
      0 ≤ p ∧ p < str.length ∧ (skip = true → Stops_Ahead cm str p)
  | .prev skip begin_ =>
      let p := going_back (begins begin_ t) - 1
      0 ≤ p ∧ p < str.length ∧ (skip = true → Stops_Behind cm str p)

section Call

variable {cm : Char_Map} {str : Bytes}

section Equations

variable (around : Int → Byte) (begin_ : Option Int) (t : Pointers)

/-- `next(1)`, from the place where it goes on. -/
theorem next_with_skip :
    next_with cm str around true begin_ t =
      (let beg := up (on_separator cm str around) str.length (starts (begins begin_ t))
       let stop := up (fun p => ! on_separator cm str around p) str.length beg
       (⟨beg, stop⟩,
        if stop < str.length then ((byte_at str around stop).toNat : Int)
        else if stop = str.length ∧ stop ≠ beg then Last else End)) := by
  cases begin_ <;> rfl

/-- `next(0)`, from the place where it goes on. -/
theorem next_with_all :
    next_with cm str around false begin_ t =
      (let p := starts (begins begin_ t)
       if on_separator cm str around p = true ∧ p < str.length then
         (⟨p + 1, p + 1⟩, schar (byte_at str around p))
       else
         let stop := up (fun p => ! on_separator cm str around p) str.length p
         (⟨p, stop⟩,
          if stop < str.length then ((byte_at str around stop).toNat : Int)
          else if stop = str.length ∧ stop ≠ p then Last else End)) := by
  cases begin_ <;> exact if_congr (and_iff_right rfl) rfl rfl

/-- `prev(1)`, from the place where it goes on. -/
theorem prev_with_skip :
    prev_with cm str around true begin_ t =
      (let stop := down (on_separator cm str around) (going_back (begins begin_ t) - 1) + 1
       let beg := down (fun p => ! on_separator cm str around p) (stop - 1) + 1
       (⟨beg, stop⟩,
        if 0 ≤ beg - 1 then ((byte_at str around (beg - 1)).toNat : Int)
        else if beg = 0 ∧ stop ≠ beg then Last else End)) := by
  cases begin_ <;> rfl

/-- `prev(0)`, from the place where it goes on. -/
theorem prev_with_all :
    prev_with cm str around false begin_ t =
      (let p := going_back (begins begin_ t)
       if on_separator cm str around (p - 1) = true ∧ 0 ≤ p - 1 then
         (⟨p - 1, p - 1⟩, schar (byte_at str around (p - 1)))
       else
         let beg := down (fun p => ! on_separator cm str around p) (p - 1) + 1
         (⟨beg, p⟩,
          if 0 ≤ beg - 1 then ((byte_at str around (beg - 1)).toNat : Int)
          else if beg = 0 ∧ p ≠ beg then Last else End)) := by
  cases begin_ <;> exact if_congr (and_iff_right rfl) rfl rfl

end Equations

/-- **A call of `next` that something stops** reads in the buffer only. -/
theorem next_inside_of_stops (around : Int → Byte) {skip : Bool} {begin_ : Option Int}
    {t : Pointers} (h : Call.Stops cm str t (.next skip begin_)) :
    next_inside cm str skip begin_ t = some (next_with cm str around skip begin_ t) := by
  obtain ⟨h0, hlt, hstop⟩ := h
  cases skip with
  | true =>
      rw [next_with_skip, next_inside]
      generalize starts (begins begin_ t) = p at h0 hlt hstop ⊢
      obtain ⟨beg, hbeg⟩ := Option.isSome_iff_exists.mp ((skip_ahead_isSome_iff h0).mpr (hstop rfl))
      obtain ⟨hup, -, hle⟩ := skip_ahead_eq around hbeg
      have hfind := find_ahead_eq around cm str (by omega : 0 ≤ beg)
      have hle' := (up_spec (fun p => ! on_separator cm str around p) str.length beg).1
      dsimp only
      rw [if_pos rfl, hbeg, Option.bind_eq_bind, Option.bind_some, hfind, Option.bind_some,
        next_code_eq around (by omega), ← hup]
  | false =>
      rw [next_with_all, next_inside]
      generalize starts (begins begin_ t) = p at h0 hlt hstop ⊢
      obtain ⟨c, hc⟩ := read_inside h0 hlt
      have hat := (read_eq around hc).2.2.2
      have hfind := find_ahead_eq around cm str h0
      have hle' := (up_spec (fun p => ! on_separator cm str around p) str.length p).1
      dsimp only
      rw [if_neg Bool.false_ne_true, hc, Option.bind_eq_bind, Option.bind_some, on_separator, hat]
      by_cases hsep : cm.has c = true ∧ p < str.length
      · rw [if_pos hsep, if_pos hsep]
      · rw [if_neg hsep, if_neg hsep, hfind, Option.bind_eq_bind, Option.bind_some,
          next_code_eq around (by omega)]

/-- A call of `prev` that something stops reads in the buffer only. -/
theorem prev_inside_of_stops (around : Int → Byte) {skip : Bool} {begin_ : Option Int}
    {t : Pointers} (h : Call.Stops cm str t (.prev skip begin_)) :
    prev_inside cm str skip begin_ t = some (prev_with cm str around skip begin_ t) := by
  obtain ⟨h0, hlt, hstop⟩ := h
  cases skip with
  | true =>
      rw [prev_with_skip, prev_inside]
      generalize going_back (begins begin_ t) = p at h0 hlt hstop ⊢
      obtain ⟨last, hlast⟩ := Option.isSome_iff_exists.mp
        ((skip_back_isSome_iff hlt).mpr (hstop rfl))
      obtain ⟨hdown, -, hle⟩ := skip_back_eq around hlast
      have hfind := find_back_eq around cm (by omega : last < str.length)
      have hle' := (down_spec (fun p => ! on_separator cm str around p) last).1
      have hback : last + 1 - 1 = last := by omega
      dsimp only
      rw [if_pos rfl, hlast, Option.bind_eq_bind, Option.bind_some, hfind, Option.bind_some,
        prev_code_eq around (by omega), ← hdown, hback]
  | false =>
      rw [prev_with_all, prev_inside]
      generalize going_back (begins begin_ t) = p at h0 hlt hstop ⊢
      obtain ⟨c, hc⟩ := read_inside h0 hlt
      have hat := (read_eq around hc).2.2.2
      have hfind := find_back_eq around cm hlt
      have hle' := (down_spec (fun p => ! on_separator cm str around p) (p - 1)).1
      dsimp only
      rw [if_neg Bool.false_ne_true, hc, Option.bind_eq_bind, Option.bind_some, on_separator, hat]
      by_cases hsep : cm.has c = true ∧ 0 ≤ p - 1
      · rw [if_pos hsep, if_pos hsep]
      · rw [if_neg hsep, if_neg hsep, hfind, Option.bind_eq_bind, Option.bind_some,
          prev_code_eq around (by omega)]

/-- The first read of a call, and the loop that it begins. -/
theorem stops_of_next_inside {skip : Bool} {begin_ : Option Int} {t : Pointers}
    (h : (next_inside cm str skip begin_ t).isSome) :
    Call.Stops cm str t (.next skip begin_) := by
  unfold next_inside at h
  show 0 ≤ starts (begins begin_ t) ∧ starts (begins begin_ t) < str.length ∧ _
  generalize starts (begins begin_ t) = p at h ⊢
  have hin : (read str p).isSome := by
    cases hread : read str p with
    | some c => rfl
    | none =>
        cases skip with
        | true =>
            dsimp only at h
            rw [if_pos rfl, skip_ahead, hread] at h
            exact h
        | false =>
            dsimp only at h
            rw [if_neg Bool.false_ne_true, hread] at h
            exact h
  obtain ⟨h0, hlt⟩ := read_isSome_iff.mp hin
  refine ⟨h0, hlt, ?_⟩
  rintro rfl
  rw [← skip_ahead_isSome_iff h0]
  cases hskip : skip_ahead cm str p with
  | some beg => rfl
  | none =>
      dsimp only at h
      rw [if_pos rfl, hskip] at h
      exact h

theorem stops_of_prev_inside {skip : Bool} {begin_ : Option Int} {t : Pointers}
    (h : (prev_inside cm str skip begin_ t).isSome) :
    Call.Stops cm str t (.prev skip begin_) := by
  unfold prev_inside at h
  show 0 ≤ going_back (begins begin_ t) - 1 ∧ going_back (begins begin_ t) - 1 < str.length ∧ _
  generalize going_back (begins begin_ t) = p at h ⊢
  have hin : (read str (p - 1)).isSome := by
    cases hread : read str (p - 1) with
    | some c => rfl
    | none =>
        cases skip with
        | true =>
            dsimp only at h
            rw [if_pos rfl, skip_back, hread] at h
            exact h
        | false =>
            dsimp only at h
            rw [if_neg Bool.false_ne_true, hread] at h
            exact h
  obtain ⟨h0, hlt⟩ := read_isSome_iff.mp hin
  refine ⟨h0, hlt, ?_⟩
  rintro rfl
  rw [← skip_back_isSome_iff hlt]
  cases hskip : skip_back cm str (p - 1) with
  | some beg => rfl
  | none =>
      dsimp only at h
      rw [if_pos rfl, hskip] at h
      exact h

/-- **Which calls stay in the buffer.** -/
theorem call_inside_iff (t : Pointers) (c : Call) :
    (c.inside cm str t).isSome ↔ c.Stops cm str t := by
  cases c with
  | next skip begin_ =>
      refine ⟨stops_of_next_inside, fun h => ?_⟩
      show (next_inside cm str skip begin_ t).isSome = true
      rw [next_inside_of_stops (fun _ => NUL) h]
      rfl
  | prev skip begin_ =>
      refine ⟨stops_of_prev_inside, fun h => ?_⟩
      show (prev_inside cm str skip begin_ t).isSome = true
      rw [prev_inside_of_stops (fun _ => NUL) h]
      rfl

/-- **A call that stays in the buffer** does what it does wherever it reads. -/
theorem call_inside_eq (around : Int → Byte) {t : Pointers} {c : Call} {r : Pointers × Int}
    (h : c.inside cm str t = some r) : r = c.anywhere cm str around t := by
  have hstops := (call_inside_iff t c).mp (by rw [h]; rfl)
  cases c with
  | next skip begin_ =>
      exact Option.some.inj (h.symm.trans (next_inside_of_stops around hstops))
  | prev skip begin_ =>
      exact Option.some.inj (h.symm.trans (prev_inside_of_stops around hstops))

end Call

/-! ## §4. Sequences of calls. -/

section Sequences

variable (cm : Char_Map) (str : Bytes)

/-- The pointers behind a call that stays in the buffer. -/
def pointers_inside (t : Pointers) (c : Call) : Option Pointers :=
  (c.inside cm str t).map Prod.fst

/-- The pointers behind a call, wherever it reads. -/
def pointers_anywhere (around : Int → Byte) (t : Pointers) (c : Call) : Pointers :=
  (c.anywhere cm str around t).1

theorem pointers_inside_isSome_iff (t : Pointers) (c : Call) :
    (pointers_inside cm str t c).isSome ↔ c.Stops cm str t := by
  rw [pointers_inside, Option.isSome_map, call_inside_iff]

theorem pointers_inside_eq (around : Int → Byte) {t t' : Pointers} {c : Call}
    (h : pointers_inside cm str t c = some t') : t' = pointers_anywhere cm str around t c := by
  obtain ⟨r, hr, rfl⟩ := Option.map_eq_some_iff.mp h
  exact congrArg Prod.fst (call_inside_eq around hr)

/-- **A sequence of calls stays in the buffer** exactly when something in the buffer stops
    each of them, from the pointers that it finds. -/
theorem calls_inside_iff (around : Int → Byte) (t : Pointers) (ops : List Call) :
    (run (pointers_inside cm str) t ops).isSome ↔
      ∀ pre c, pre ++ [c] <+: ops →
        c.Stops cm str (pre.foldl (pointers_anywhere cm str around) t) :=
  run_isSome_iff (C := fun t c => c.Stops cm str t) _ (pointers_inside_isSome_iff cm str)
    (fun _ _ _ => pointers_inside_eq cm str around) t ops

/-- A buffer with a separator and nothing else: the first call tests the byte behind it. -/
theorem calls_inside_separator : ¬ ∀ (cm : Char_Map) (str : Bytes) (ops : List Call),
    (run (pointers_inside cm str) ⟨0, 0⟩ ops).isSome := by
  intro h
  have hrun := h (Char_Map.set [0x2C]) [0x2C] [.next true none]
  rw [Lib.Suffixes.run_cons] at hrun
  have hcall := (pointers_inside_isSome_iff _ _ _ _).mp (Option.isSome_of_isSome_bind hrun)
  obtain ⟨k, c, -, hc, hno⟩ := hcall.2.2 rfl
  obtain rfl := List.mem_singleton.mp (List.mem_of_getElem? hc)
  rw [Char_Map.has_set] at hno
  exact absurd hno (by decide)

end Sequences

end Aos.Char_Tokenizer
