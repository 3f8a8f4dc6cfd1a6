/-
  Aos.Str.Line — `get_line_delimiter` and `get_line`.

  The delimiter is guessed: the first line break decides, and a buffer without
  one (its last byte is not looked at) gives 0xFF.  `get_line` then takes the
  bytes up to and including the next delimiter.
-/
import Aos.Byte
import Aos.Lib.Lines

namespace Aos

open Lib.Lines

/-- What `get_line_delimiter` returns when it has seen no line break. -/
def NO_DELIMITER : Byte := 0xFF

/-- `get_line_delimiter(buf, len)`: the loop runs while `ptr < buf + len - 1`. -/
def get_line_delimiter : Bytes → Byte
  | b :: next :: buf =>
      if b = LF then b
      else if b = CR then
        if next = LF then next else b
      else get_line_delimiter (next :: buf)
  | _ => NO_DELIMITER

/-- `get_line(buf, len, delimiter)`: the bytes of the `bcstr` it returns. -/
def get_line : Bytes → Byte → Bytes
  | [], _ => []
  | b :: buf, delimiter => if b = delimiter then [b] else b :: get_line buf delimiter

/-! ## §1. The next line. -/

theorem get_line_text (t buf : Bytes) (delimiter : Byte) (h : delimiter ∉ t) :
    get_line (t ++ buf) delimiter = t ++ get_line buf delimiter := by
  induction t with
  | nil => rfl
  | cons b t ih =>
      have hb : b ≠ delimiter := fun he => h (he ▸ List.mem_cons_self)
      rw [List.cons_append, get_line, if_neg hb, ih (fun hm => h (List.mem_cons_of_mem b hm)),
        List.cons_append]

theorem get_line_none (buf : Bytes) (delimiter : Byte) (h : delimiter ∉ buf) :
    get_line buf delimiter = buf := by
  have := get_line_text buf [] delimiter h
  rwa [List.append_nil, get_line, List.append_nil] at this

theorem get_line_delim (t buf : Bytes) (delimiter : Byte) (h : delimiter ∉ t) :
    get_line (t ++ delimiter :: buf) delimiter = t ++ [delimiter] := by
  rw [get_line_text t _ delimiter h, get_line, if_pos rfl]

theorem get_line_pos (buf : Bytes) (delimiter : Byte) (h : buf ≠ []) :
    0 < (get_line buf delimiter).length := by
  cases buf with
  | nil => exact absurd rfl h
  | cons b buf =>
      rw [get_line]
      split
      · exact Nat.one_pos
      · exact Nat.succ_pos _

/-- Taking the next line makes a buffer shorter. -/
theorem get_line_shrinks (buf : Bytes) (delimiter : Byte) (h : buf ≠ []) :
    (buf.drop (get_line buf delimiter).length).length < buf.length := by
  have hpos := get_line_pos buf delimiter h
  have hbuf := List.length_pos_iff.mpr h
  rw [List.length_drop]
  omega

/-! ## §2. A line collected over several blocks. -/

/-- What the line readers do with a block: the line is completed or not, the
    buffer, the line that is returned, and what is left in the block. -/
structure Collected where
  complete : Bool
  buf : Bytes
  line : Bytes
  rest : Bytes
  deriving DecidableEq

/-- `get_line`, `buf_.append`, and the test for the line feed. -/
def collect_line (buf mb : Bytes) : Collected :=
  let line := get_line mb LF
  if line.length > 0 then
    let buf := buf ++ line
    if line.getLast? = some LF then ⟨true, buf, buf, mb.drop line.length⟩ -- one completed line read
    else ⟨false, buf, line, mb.drop line.length⟩ -- incompleted line
  else ⟨false, buf, line, mb⟩

/-- A block that does not hold the end of the line. -/
theorem collect_line_part (buf mb : Bytes) (hne : mb ≠ []) (hlf : LF ∉ mb) :
    collect_line buf mb = ⟨false, buf ++ mb, mb, []⟩ := by
  have hlast : ¬ mb.getLast? = some LF := fun h => hlf (List.mem_of_getLast? h)
  unfold collect_line
  simp only [get_line_none mb LF hlf]
  rw [if_pos (List.length_pos_iff.mpr hne), if_neg hlast, List.drop_length]

/-- A block that does. -/
theorem collect_line_whole (buf t rest : Bytes) (hlf : LF ∉ t) :
    collect_line buf (t ++ LF :: rest)
      = ⟨true, buf ++ (t ++ [LF]), buf ++ (t ++ [LF]), rest⟩ := by
  have hdrop : (t ++ LF :: rest).drop (t ++ [LF]).length = rest := by
    have hcons : t ++ LF :: rest = t ++ [LF] ++ rest := by simp
    rw [hcons, List.drop_left]
  unfold collect_line
  simp only [get_line_delim t rest LF hlf]
  rw [if_pos (by simp), if_pos (by simp), hdrop]

/-! ## §3. The delimiter that is guessed. -/

theorem get_line_delimiter_values (buf : Bytes) :
    get_line_delimiter buf = LF ∨ get_line_delimiter buf = CR ∨
      get_line_delimiter buf = NO_DELIMITER := by
  fun_induction get_line_delimiter buf with
  | case1 next buf => exact Or.inl rfl
  | case2 buf _ => exact Or.inl rfl
  | case3 next buf _ _ => exact Or.inr (Or.inl rfl)
  | case4 b next buf _ _ ih => exact ih
  | case5 buf _ => exact Or.inr (Or.inr rfl)

/-- A delimiter once seen is the delimiter of every longer buffer. -/
theorem get_line_delimiter_append (buf rest : Bytes)
    (h : get_line_delimiter buf ≠ NO_DELIMITER) :
    get_line_delimiter (buf ++ rest) = get_line_delimiter buf := by
  fun_induction get_line_delimiter buf with
  | case1 next buf => rfl
  | case2 buf _ => rfl
  | case3 next buf hlf hnext =>
      show get_line_delimiter (CR :: next :: (buf ++ rest)) = CR
      rw [get_line_delimiter, if_neg hlf, if_pos rfl, if_neg hnext]
  | case4 b next buf hlf hcr ih =>
      show get_line_delimiter (b :: next :: (buf ++ rest)) = _
      rw [get_line_delimiter, if_neg hlf, if_neg hcr]
      exact ih h
  | case5 buf _ => exact absurd rfl h

/-- The guessed delimiter occurs in the buffer. -/
theorem get_line_delimiter_mem (buf : Bytes) (h : get_line_delimiter buf ≠ NO_DELIMITER) :
    get_line_delimiter buf ∈ buf := by
  fun_induction get_line_delimiter buf with
  | case1 next buf => exact List.mem_cons_self
  | case2 buf _ => exact List.mem_cons_of_mem _ List.mem_cons_self
  | case3 next buf _ _ => exact List.mem_cons_self
  | case4 b next buf _ _ ih => exact List.mem_cons_of_mem b (ih h)
  | case5 buf _ => exact absurd rfl h

/-- No delimiter is found exactly when only the last byte can be a line break. -/
theorem get_line_delimiter_none_iff (buf : Bytes) :
    get_line_delimiter buf = NO_DELIMITER ↔ ∀ b ∈ buf.dropLast, b ≠ LF ∧ b ≠ CR := by
  fun_induction get_line_delimiter buf with
  | case1 next buf =>
      constructor
      · intro h
        exact absurd h (by decide)
      · intro h
        exact absurd rfl (h LF (by simp)).1
  | case2 buf _ =>
      constructor
      · intro h
        exact absurd h (by decide)
      · intro h
        exact absurd rfl (h CR (by simp)).2
  | case3 next buf _ _ =>
      constructor
      · intro h
        exact absurd h (by decide)
      · intro h
        exact absurd rfl (h CR (by simp)).2
  | case4 b next buf hlf hcr ih =>
      -- the first byte is no line break, and not the last byte
      rw [ih, List.dropLast_cons_cons]
      constructor
      · intro h b' hb'
        rcases List.mem_cons.mp hb' with rfl | hb'
        · exact ⟨hlf, hcr⟩
        · exact h b' hb'
      · intro h b' hb'
        exact h b' (List.mem_cons_of_mem b hb')
  | case5 buf hbuf =>
      refine ⟨fun _ b hb => ?_, fun _ => rfl⟩
      cases buf with
      | nil => exact absurd hb List.not_mem_nil
      | cons a buf =>
          cases buf with
          | nil => exact absurd hb List.not_mem_nil
          | cons b buf => exact absurd rfl (hbuf a b buf)

/-- A text whose first line break is CRLF. -/
theorem get_line_delimiter_crlf (t buf : Bytes) (h : ∀ b ∈ t, b ≠ LF ∧ b ≠ CR) :
    get_line_delimiter (t ++ CR :: LF :: buf) = LF := by
  induction t with
  | nil => rfl
  | cons a t ih =>
      have ha := h a List.mem_cons_self
      have hrest := ih (fun b hb => h b (List.mem_cons_of_mem a hb))
      cases t with
      | nil =>
          show get_line_delimiter (a :: CR :: LF :: buf) = LF
          rw [get_line_delimiter, if_neg ha.1, if_neg ha.2]
          rfl
      | cons a' t =>
          show get_line_delimiter (a :: a' :: (t ++ CR :: LF :: buf)) = LF
          rw [get_line_delimiter, if_neg ha.1, if_neg ha.2]
          exact hrest

/-- A buffer that begins with a line break and is one line by its own
    delimiter is a lone CRLF. -/
theorem eq_crlf_of_blank_line (buf : Bytes) (h0 : buf.head? = some CR ∨ buf.head? = some LF)
    (hd : get_line_delimiter buf ≠ NO_DELIMITER) (hline : IsLine (get_line_delimiter buf) buf) :
    buf = [CR, LF] := by
  obtain ⟨t, ht, hbuf⟩ := hline
  cases buf with
  | nil => simp at h0
  | cons a buf =>
      cases buf with
      | nil => exact absurd rfl hd
      | cons b buf =>
          have ha : a = CR ∨ a = LF := by simpa using h0
          -- the line has at least two bytes, so its first one is no delimiter
          have hat : get_line_delimiter (a :: b :: buf) ≠ a := by
            cases t with
            | nil => simp at hbuf
            | cons a' t =>
                have haa : a = a' := (List.cons.inj hbuf).1
                intro h
                rw [h, haa] at ht
                exact ht List.mem_cons_self
          rcases ha with rfl | rfl
          · rw [get_line_delimiter, if_neg (by decide), if_pos rfl] at hat hbuf ht
            by_cases hb : b = LF
            · subst hb
              rw [if_pos rfl] at hbuf ht
              cases t with
              | nil => simp at hbuf
              | cons a' t =>
                  cases t with
                  | nil =>
                      have := (List.cons.inj hbuf).2
                      rw [this]
                      rfl
                  | cons b' t =>
                      have hlf : LF = b' := (List.cons.inj (List.cons.inj hbuf).2).1
                      exact absurd (List.mem_cons_of_mem a' (hlf ▸ List.mem_cons_self)) ht
            · rw [if_neg hb] at hat
              exact absurd rfl hat
          · rw [get_line_delimiter, if_pos rfl] at hat
            exact absurd rfl hat

/-! ## §4. The delimiter a buffer has. -/

def is_break (c : Byte) : Bool := c = LF || c = CR

/-- The line feed or carriage return that comes first decides: a CR with no LF behind it is
    the delimiter itself, and a buffer with neither of them has none. -/
def first_delimiter (buf : Bytes) : Byte :=
  match buf.dropWhile (fun c => ! is_break c) with
  | [] => NO_DELIMITER
  | c :: rest => if c = CR ∧ rest.head? ≠ some LF then CR else LF

theorem first_delimiter_break (c : Byte) (rest : Bytes) (hc : is_break c = true) :
    first_delimiter (c :: rest) = if c = CR ∧ rest.head? ≠ some LF then CR else LF := by
  unfold first_delimiter
  rw [List.dropWhile_cons_of_neg (by simp [hc])]

theorem first_delimiter_text (c : Byte) (rest : Bytes) (hc : is_break c = false) :
    first_delimiter (c :: rest) = first_delimiter rest := by
  unfold first_delimiter
  rw [List.dropWhile_cons_of_pos (by simp [hc])]

/-- **The guess is right unless the buffer's only line break is its last byte.** -/
theorem get_line_delimiter_eq_iff (buf : Bytes) :
    get_line_delimiter buf = first_delimiter buf ↔
      (∃ c ∈ buf.dropLast, is_break c) ∨ ∀ c, buf.getLast? = some c → ¬ is_break c := by
  fun_induction get_line_delimiter buf with
  | case1 next buf =>
      refine iff_of_true ?_ (Or.inl ⟨LF, by simp, rfl⟩)
      rw [first_delimiter_break LF _ rfl, if_neg (fun h => absurd h.1 (by decide))]
  | case2 buf _ =>
      refine iff_of_true ?_ (Or.inl ⟨CR, by simp, rfl⟩)
      rw [first_delimiter_break CR _ rfl, if_neg (fun h => h.2 rfl)]
  | case3 next buf hnext _ =>
      refine iff_of_true ?_ (Or.inl ⟨CR, by simp, rfl⟩)
      rw [first_delimiter_break CR _ rfl, if_pos ⟨rfl, by simpa using hnext⟩]
  | case4 b next buf hlf hcr ih =>
      -- a byte that is no line break, with others behind it, plays no part
      have hb : is_break b = false := by simp [is_break, hlf, hcr]
      rw [first_delimiter_text b _ hb, ih, List.dropLast_cons_cons, List.getLast?_cons_cons]
      simp [hb]
  | case5 buf hbuf =>
      cases buf with
      | nil => exact iff_of_true rfl (Or.inr (by simp))
      | cons c rest =>
          cases rest with
          | cons next rest => exact absurd rfl (hbuf c next rest)
          | nil =>
              -- the last byte is the one the loop does not look at
              cases hc : is_break c with
              | false =>
                  refine iff_of_true ?_ (Or.inr (by simp [hc]))
                  rw [first_delimiter_text c _ hc]
                  rfl
              | true =>
                  refine iff_of_false ?_ (by simp [hc])
                  rw [first_delimiter_break c _ hc]
                  split
                  · exact fun h => absurd h (by decide)
                  · exact fun h => absurd h (by decide)

/-- The buffer `"\n"`: the delimiter is not seen. -/
theorem lone_line_feed_missed :
    first_delimiter [LF] = LF ∧ get_line_delimiter [LF] ≠ first_delimiter [LF] := by
  decide

end Aos
