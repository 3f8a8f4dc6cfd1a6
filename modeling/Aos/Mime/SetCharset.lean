/-
  Aos.Mime.SetCharset — `MIME_Entity::set_charset` and the field that it writes.

  The setter looks for "charset=" in the text of the first "content-type:" field
  and replaces what stands behind it; without one it puts "charset=" and the name
  behind the line.  So the name goes between a front and a rest that do not depend
  on it.

  Main results:
    • `set_charset_field_eq` — the field that is written;
    • `find_written` — "charset=" is found again where it was found or put;
    • `set_charset_again` — the second call changes nothing.
-/
import Mathlib.Data.List.DropRight
import Aos.Lib.Occurrence
import Aos.Mime.Parameters

namespace Aos

open Lib.Occurrence

/-! ## §1. The setter. -/

/-- `str.find(pat)`. -/
def str_find (str pat : Bytes) : Option Nat := occurrence pat str

/-- `str.find_first_of(set, pos)`. -/
def str_find_first_of (str set : Bytes) (pos : Nat) : Option Nat :=
  ((str.drop pos).findIdx? (· ∈ set)).map (pos + ·)

/-- `str.find_last_not_of(set)`. -/
def str_find_last_not_of (str set : Bytes) : Option Nat :=
  match (str.rdropWhile (· ∈ set)).length with
  | 0 => none
  | pos + 1 => some pos

/-- What the loop of `set_charset` does to the first "content-type:" field. -/
def set_charset_field (it charset : Bytes) : Bytes :=
  let lcase := tolower_str it
  match (str_find lcase (lit "charset=")).map (· + 8) with
  | some pos_beg =>
      match str_find_first_of lcase (lit ";\r\n") pos_beg with
      | some pos_end => it.take pos_beg ++ charset ++ it.drop pos_end
      | none => it.take pos_beg ++ charset ++ lit ";\r\n" -- append to tail
  | none =>
      match str_find_last_not_of it (lit "\r\n") with
      | some pos =>
          let cs := (if it[pos]? ≠ some 59 ∧ it[pos]? ≠ some 58 then lit ";" else [])
            ++ lit " charset=" ++ charset ++ lit ";"
          it.take (pos + 1) ++ cs ++ it.drop (pos + 1)
      | none =>
          -- never reached: the field has a name
          it ++ lit "; charset=" ++ charset ++ lit ";\r\n"

/-- The loop of `set_charset`; `none` where `has_ctype` stays false. -/
def set_charset_loop (charset : Bytes) : MIME_Header_List → Option MIME_Header_List
  | [] => none
  | it :: header_ =>
      if strncasecmp it (lit "content-type:") 13 = 0 then
        some (set_charset_field it charset :: header_)
      else (set_charset_loop charset header_).map (it :: ·)

namespace MIME_Entity

/-- `add_last_header(field)`: behind the last line that is not blank. -/
def add_last_header (e : MIME_Entity) (field : Bytes) : MIME_Entity :=
  let blank := fun line : Bytes => line = [] ∨ is_blank line = true
  { e with
    header_ := e.header_.rdropWhile (blank ·) ++ field :: e.header_.rtakeWhile (blank ·) }

/-- `set_charset(charset)`, which returns 0 always. -/
def set_charset (e : MIME_Entity) (charset : Bytes) : MIME_Entity :=
  match set_charset_loop (c_str charset) e.header_ with
  | some header_ => { e with header_ := header_ }
  | none => e.add_last_header (lit "Content-Type: charset=" ++ c_str charset ++ lit ";\r\n")

end MIME_Entity

/-! ## §2. Names of character sets. -/

/-- The characters of a token: no blank, no control character and none of the special ones. -/
def token_char (c : Byte) : Prop :=
  33 ≤ c.toNat ∧ c.toNat ≤ 126 ∧ c ∉ lit "()<>@,;:\\\"/[]?="

instance (c : Byte) : Decidable (token_char c) := inferInstanceAs (Decidable (_ ∧ _ ∧ _))

/-- A token is looked at once, from its begin to its end. -/
theorem token_of_all {s : Bytes} (h : s.all (fun c => decide (token_char c)) = true) :
    ∀ c ∈ s, token_char c := fun c hc => of_decide_eq_true (List.all_eq_true.mp h c hc)

/-- No character of a token is trimmed. -/
theorem token_not_trimmed {c : Byte} (h : token_char c) : TRIM_CM.has c = false := by
  rw [has_trim, decide_eq_false_iff_not]
  intro htrim
  have hlow : c.toNat ≤ 32 := by
    rcases htrim with rfl | rfl | rfl | rfl | rfl | rfl <;> decide
  have hhigh := h.1
  omega

/-- The name of a character set. -/
structure Charset_Name (charset : Bytes) : Prop where
  ne : charset ≠ []
  token : ∀ c ∈ charset, token_char c

instance (charset : Bytes) : Decidable (Charset_Name charset) :=
  decidable_of_iff (charset ≠ [] ∧ ∀ c ∈ charset, token_char c)
    ⟨fun h => ⟨h.1, h.2⟩, fun h => ⟨h.ne, h.token⟩⟩

/-- A token holds nothing that ends a value. -/
theorem charset_no_break {charset : Bytes} (hc : Charset_Name charset) :
    ∀ c ∈ charset, c ∉ lit ";\r\n" := by
  have hno : ¬ token_char 59 ∧ ¬ token_char CR ∧ ¬ token_char LF := by decide
  intro c hmem hbreak
  rcases (mem_value_ends c).mp hbreak with rfl | rfl | rfl
  · exact hno.1 (hc.token _ hmem)
  · exact hno.2.1 (hc.token _ hmem)
  · exact hno.2.2 (hc.token _ hmem)

theorem charset_c_str {charset : Bytes} (hc : Charset_Name charset) : c_str charset = charset := by
  have hnul : ¬ token_char NUL := by decide
  exact c_str_of_no_nul fun hmem => hnul (hc.token NUL hmem)

/-! ## §3. The field that is written. -/

/-- A "content-type:" field. -/
def is_content_type (it : Bytes) : Prop := strncasecmp it (lit "content-type:") 13 = 0

instance (it : Bytes) : Decidable (is_content_type it) := inferInstanceAs (Decidable (_ = _))

/-- What ends the last parameter of a line. -/
def closing (line : Bytes) : Bytes :=
  if line.getLast? ≠ some 59 ∧ line.getLast? ≠ some 58 then lit ";" else []

/-- What stands in front of the name in the field that is written. -/
def written_front (it : Bytes) : Bytes :=
  match str_find (tolower_str it) (lit "charset=") with
  | some pos => it.take (pos + 8)
  | none =>
      let line := it.rdropWhile (· ∈ lit "\r\n")
      line ++ closing line ++ lit " charset="

/-- The text that the name replaces, where it replaces one. -/
def replaced (it : Bytes) : Option Bytes :=
  (str_find (tolower_str it) (lit "charset=")).map fun pos =>
    (it.drop (pos + 8)).takeWhile (· ∉ lit ";\r\n")

/-- What stands behind the name. -/
def written_rest (it : Bytes) : Bytes :=
  match str_find (tolower_str it) (lit "charset=") with
  | some pos =>
      let behind := (it.drop (pos + 8)).dropWhile (· ∉ lit ";\r\n")
      if behind = [] then lit ";\r\n" else behind
  | none => lit ";" ++ it.rtakeWhile (· ∈ lit "\r\n")

/-! ### Lower case. -/

/-- A byte below the letters is the lower case of itself only. -/
theorem tolower_char_special {d : Byte} (hd : d.toNat < 65) (c : Byte) :
    tolower_char c = d ↔ c = d := by
  have hall : ∀ n < 256, tolower_char (UInt8.ofNat n) = UInt8.ofNat n ∨
      (65 ≤ n ∧ 65 ≤ (tolower_char (UInt8.ofNat n)).toNat) := by decide +kernel
  have hc := hall c.toNat c.toNat_lt
  rw [UInt8.ofNat_toNat] at hc
  rcases hc with hsame | ⟨hc, hlower⟩
  · rw [hsame]
  · constructor
    · rintro rfl
      omega
    · rintro rfl
      omega

theorem tolower_char_ends (c : Byte) : tolower_char c ∈ lit ";\r\n" ↔ c ∈ lit ";\r\n" := by
  rw [mem_value_ends, mem_value_ends, tolower_char_special (by decide),
    tolower_char_special (by decide), tolower_char_special (by decide)]

theorem tolower_str_drop (s : Bytes) (n : Nat) : tolower_str (s.drop n) = (tolower_str s).drop n :=
  List.map_drop

theorem tolower_str_append (a b : Bytes) :
    tolower_str (a ++ b) = tolower_str a ++ tolower_str b := List.map_append

/-! ### The front and the rest. -/

theorem closing_cases (line : Bytes) : closing line = [] ∨ closing line = lit ";" := by
  unfold closing
  split_ifs
  · exact Or.inr rfl
  · exact Or.inl rfl

/-- The name is ended by what stands behind it. -/
theorem rest_break (it : Bytes) : ∃ b more, written_rest it = b :: more ∧ b ∈ lit ";\r\n" := by
  unfold written_rest
  cases str_find (tolower_str it) (lit "charset=") with
  | none =>
      refine ⟨59, it.rtakeWhile (· ∈ lit "\r\n"), ?_, (mem_value_ends 59).mpr (Or.inl rfl)⟩
      have hlit : lit ";" = [59] := by decide
      show lit ";" ++ _ = _
      rw [hlit]
      rfl
  | some pos =>
      dsimp only
      by_cases hnone : (it.drop (pos + 8)).dropWhile (· ∉ lit ";\r\n") = []
      · rw [if_pos hnone]
        exact ⟨59, [CR, LF], by decide, (mem_value_ends 59).mpr (Or.inl rfl)⟩
      · rw [if_neg hnone]
        obtain ⟨b, more, hcons⟩ := List.exists_cons_of_ne_nil hnone
        have hno := List.head?_dropWhile_not (fun b => decide (b ∉ lit ";\r\n")) (it.drop (pos + 8))
        rw [hcons] at hno ⊢
        exact ⟨b, more, rfl, by simpa using hno⟩

section Field

variable {it : Bytes} (h : is_content_type it)
include h

theorem field_name : tolower_str (it.take 13) = lit "content-type:" := by
  have hlower := lower_of_strncasecmp 13 it (lit "content-type:") h (by decide)
    (by decide)
  have hchars := congrArg (List.map UInt8.ofInt) hlower
  rw [List.map_map, List.map_map] at hchars
  have hsame : tolower_str ((lit "content-type:").take 13) = lit "content-type:" := by
    decide
  exact hchars.trans hsame

theorem field_length : 13 ≤ it.length := by
  have hlen := congrArg List.length (field_name h)
  rw [tolower_str, List.length_map, List.length_take] at hlen
  have h13 : (lit "content-type:").length = 13 := by decide
  omega

/-- The name ends with the colon, and holds no other. -/
theorem field_colon : it.findIdx? (· = HIDDEN_HEADER_CHAR) = some 12 := by
  have hname := field_name h
  have hlen := field_length h
  have hcolon : HIDDEN_HEADER_CHAR.toNat < 65 := by decide
  have hlit : ∀ i < 13, (lit "content-type:")[i]? = some HIDDEN_HEADER_CHAR ↔ i = 12 := by
    decide
  have hat : ∀ i < 13, it[i]? = some HIDDEN_HEADER_CHAR ↔ i = 12 := by
    intro i hi
    rw [← hlit i hi, ← hname, tolower_str, List.getElem?_map, List.getElem?_take_of_lt hi,
      List.getElem?_eq_getElem (by omega), Option.map_some, Option.some.injEq, Option.some.injEq,
      tolower_char_special hcolon]
  obtain ⟨h12, hget⟩ := List.getElem?_eq_some_iff.mp ((hat 12 (by omega)).mpr rfl)
  rw [List.findIdx?_eq_some_iff_getElem]
  refine ⟨h12, by simpa using hget, ?_⟩
  intro j hj hcolon'
  have hj' := (hat j (by omega)).mp (List.getElem?_eq_some_iff.mpr ⟨by omega, by simpa using hcolon'⟩)
  omega

/-- "charset=" is not found in the name. -/
theorem find_behind_name {pos : Nat}
    (hfind : str_find (tolower_str it) (lit "charset=") = some pos) :
    13 ≤ pos ∧ pos + 8 ≤ it.length := by
  have hname := field_name h
  have hlen := field_length h
  have h8 : (lit "charset=").length = 8 := by decide
  obtain ⟨hle, hpre, -⟩ := occurrence_some_iff.mp hfind
  have hroom := hpre.length_le
  rw [List.length_drop, tolower_str, List.length_map, h8] at hroom
  rw [tolower_str, List.length_map] at hle
  refine ⟨?_, by omega⟩
  by_contra hlt
  have hapart : ∀ q < 13, ¬ lit "charset=" <+: (lit "content-type:").drop q ∧
      ¬ (lit "content-type:").drop q <+: lit "charset=" := by decide
  have hin : (lit "content-type:").drop pos <+: (tolower_str it).drop pos := by
    refine List.IsPrefix.drop ?_ pos
    rw [← hname]
    exact (List.take_prefix 13 it).map tolower_char
  rcases List.prefix_or_prefix_of_prefix hpre hin with hleft | hright
  · exact (hapart pos (by omega)).1 hleft
  · exact (hapart pos (by omega)).2 hright

/-- Nor is the name part of the line end. -/
theorem name_in_line : it.take 13 <+: it.rdropWhile (· ∈ lit "\r\n") := by
  have hlen := field_length h
  have hsplit := List.rdropWhile_append_rtakeWhile (p := (· ∈ lit "\r\n")) (l := it)
  refine List.prefix_of_prefix_length_le (List.take_prefix 13 it)
    (List.rdropWhile_prefix _ it) ?_
  rw [List.length_take]
  by_contra hlt
  -- the colon would be in the line end
  obtain ⟨hat, hcolon, -⟩ := List.findIdx?_eq_some_iff_getElem.mp (field_colon h)
  have hmem : it[12] ∈ it.rtakeWhile (· ∈ lit "\r\n") := by
    have hget : it[12]? = (it.rtakeWhile (· ∈ lit "\r\n"))[12
        - (it.rdropWhile (· ∈ lit "\r\n")).length]? := by
      conv_lhs => rw [← hsplit]
      exact List.getElem?_append_right (by omega)
    rw [List.getElem?_eq_getElem hat] at hget
    exact List.mem_of_getElem? hget.symm
  have hbreak := List.mem_rtakeWhile_imp hmem
  rw [decide_eq_true_iff] at hcolon hbreak
  rw [hcolon, mem_breaks] at hbreak
  exact absurd hbreak (by decide)

/-- The front begins with the name. -/
theorem front_name : it.take 13 <+: written_front it := by
  unfold written_front
  cases hfind : str_find (tolower_str it) (lit "charset=") with
  | none =>
      dsimp only
      rw [List.append_assoc]
      exact (name_in_line h).trans (List.prefix_append _ _)
  | some pos =>
      have hpos := find_behind_name h hfind
      exact List.take_prefix_take_left (by omega)

/-- And it ends with "t=". -/
theorem front_end : ∃ g c, (written_front it).drop 13 = g ++ [c, 61] ∧
    c ≠ 61 ∧ c ∉ lit ";\r\n" := by
  unfold written_front
  cases hfind : str_find (tolower_str it) (lit "charset=") with
  | none =>
      dsimp only
      have hlit : lit " charset=" = lit " charse" ++ [116, 61] := by decide
      have hlen := (name_in_line h).length_le
      rw [List.length_take, min_eq_left (field_length h)] at hlen
      rw [List.append_assoc, List.drop_append_of_le_length hlen, hlit]
      refine ⟨(it.rdropWhile (· ∈ lit "\r\n")).drop 13
        ++ (closing (it.rdropWhile (· ∈ lit "\r\n")) ++ lit " charse"), 116, ?_, by decide,
          by rw [mem_value_ends]; decide⟩
      simp only [List.append_assoc]
  | some pos =>
      dsimp only
      obtain ⟨h13, hlen⟩ := find_behind_name h hfind
      obtain ⟨-, ⟨more, hmore⟩, -⟩ := occurrence_some_iff.mp hfind
      have hlast : ∀ i, i < 8 → (it[pos + i]?).map tolower_char = (lit "charset=")[i]? := by
        intro i hi
        have hat : (lit "charset=" ++ more)[i]? = ((tolower_str it).drop pos)[i]? := by rw [hmore]
        rw [List.getElem?_append_left hi, List.getElem?_drop, tolower_str, List.getElem?_map] at hat
        exact hat.symm
      have h6 := hlast 6 (by omega)
      have h7 := hlast 7 (by omega)
      rw [show (lit "charset=")[6]? = some 116 by decide] at h6
      rw [show (lit "charset=")[7]? = some 61 by decide] at h7
      obtain ⟨c, hc, hlower⟩ := Option.map_eq_some_iff.mp h6
      obtain ⟨d, hd, hequal⟩ := Option.map_eq_some_iff.mp h7
      rw [tolower_char_special (by decide)] at hequal
      have htake : it.take (pos + 8) = it.take (pos + 6) ++ [c, 61] := by
        rw [show pos + 8 = pos + 6 + 1 + 1 from rfl, List.take_add_one, List.take_add_one, hc, hd,
          hequal, List.append_assoc]
        rfl
      refine ⟨(it.take (pos + 6)).drop 13, c, ?_, ?_, ?_⟩
      · rw [htake, List.drop_append_of_le_length]
        rw [List.length_take]
        omega
      · intro hc'
        rw [← tolower_char_special (by decide), hlower] at hc'
        exact absurd hc' (by decide)
      · rw [← tolower_char_ends, hlower, mem_value_ends]
        decide

/-- **The field that is written.** -/
theorem set_charset_field_eq (charset : Bytes) :
    set_charset_field it charset = written_front it ++ charset ++ written_rest it := by
  unfold set_charset_field written_front written_rest
  dsimp only
  cases hfind : str_find (tolower_str it) (lit "charset=") with
  | none =>
      dsimp only [Option.map_none]
      have hlen := (name_in_line h).length_le
      rw [List.length_take, min_eq_left (field_length h)] at hlen
      have hsplit := List.rdropWhile_append_rtakeWhile (p := (· ∈ lit "\r\n")) (l := it)
      unfold str_find_last_not_of
      generalize hline : it.rdropWhile (· ∈ lit "\r\n") = line at hlen hsplit ⊢
      generalize it.rtakeWhile (· ∈ lit "\r\n") = tail at hsplit ⊢
      obtain ⟨n, hn⟩ : ∃ n, line.length = n + 1 := ⟨line.length - 1, by omega⟩
      rw [hn]
      dsimp only
      have hlast : it[n]? = line.getLast? := by
        rw [← hsplit, List.getElem?_append_left (by omega), List.getLast?_eq_getElem?, hn]
        rfl
      have htake : it.take (n + 1) = line := by rw [← hsplit, ← hn, List.take_left]
      have hdrop : it.drop (n + 1) = tail := by rw [← hsplit, ← hn, List.drop_left]
      rw [hlast, htake, hdrop]
      unfold closing
      simp only [List.append_assoc]
  | some pos =>
      dsimp only [Option.map_some]
      have hbreaks : (fun c => decide (c ∈ lit ";\r\n")) ∘ tolower_char
          = fun c => decide (c ∈ lit ";\r\n") :=
        funext fun c => decide_eq_decide.mpr (tolower_char_ends c)
      have hsearch : ((tolower_str it).drop (pos + 8)).findIdx? (· ∈ lit ";\r\n")
          = (it.drop (pos + 8)).findIdx? (· ∈ lit ";\r\n") := by
        rw [← tolower_str_drop, tolower_str, List.findIdx?_map, hbreaks]
      unfold str_find_first_of
      rw [hsearch]
      cases hend : (it.drop (pos + 8)).findIdx? (· ∈ lit ";\r\n") with
      | none =>
          have hall : (it.drop (pos + 8)).dropWhile (· ∉ lit ";\r\n") = [] := by
            rw [List.dropWhile_eq_nil_iff]
            intro c hc
            have hno := List.findIdx?_eq_none_iff.mp hend c hc
            simpa using hno
          rw [if_pos hall]
          rfl
      | some n =>
          obtain ⟨hlt, hidx⟩ := List.findIdx?_eq_some_iff_findIdx_eq.mp hend
          have hdrop : (it.drop (pos + 8)).dropWhile (· ∉ lit ";\r\n") = it.drop (pos + 8 + n) := by
            rw [List.dropWhile_eq_drop_findIdx_not, List.drop_drop]
            simp only [decide_not, Bool.not_not, hidx]
          rw [hdrop, if_neg]
          · rfl
          · rw [List.length_drop] at hlt
            rw [List.drop_eq_nil_iff]
            omega

/-- The name of the field is not touched. -/
theorem set_charset_field_name (charset : Bytes) :
    (set_charset_field it charset).take 13 = it.take 13 ∧
      (set_charset_field it charset).drop 13
        = (written_front it).drop 13 ++ (charset ++ written_rest it) := by
  obtain ⟨more, hmore⟩ := front_name h
  have hlen : (it.take 13).length = 13 := by
    rw [List.length_take]
    exact min_eq_left (field_length h)
  have htext : set_charset_field it charset
      = it.take 13 ++ (more ++ (charset ++ written_rest it)) := by
    rw [set_charset_field_eq h, ← hmore]
    simp only [List.append_assoc]
  have hdrop : (written_front it).drop 13 = more := by rw [← hmore, List.drop_left' hlen]
  rw [htext, hdrop, List.take_left' hlen, List.drop_left' hlen]
  exact ⟨rfl, rfl⟩

/-- It stays a "content-type:" field. -/
theorem set_charset_field_content_type (charset : Bytes) :
    is_content_type (set_charset_field it charset) := by
  unfold is_content_type at h ⊢
  rw [← strncasecmp_take, (set_charset_field_name h charset).1, strncasecmp_take, h]

/-! ### The second call. -/

/-- **"charset=" is found again where it was found or put.** -/
theorem find_written (charset : Bytes) :
    ∃ pos, str_find (tolower_str (set_charset_field it charset)) (lit "charset=") = some pos ∧
      pos + 8 = (written_front it).length := by
  have h8 : (lit "charset=").length = 8 := by decide
  rw [set_charset_field_eq h, List.append_assoc, tolower_str_append]
  generalize charset ++ written_rest it = more
  unfold written_front
  cases hfind : str_find (tolower_str it) (lit "charset=") with
  | some pos =>
      obtain ⟨-, hlen⟩ := find_behind_name h hfind
      refine ⟨pos, occurrence_keep hfind ?_, ?_⟩
      · rw [h8, tolower_str, ← List.map_take]
        exact List.prefix_append _ _
      · dsimp only
        rw [List.length_take]
        omega
  | none =>
      dsimp only
      generalize hline : it.rdropWhile (· ∈ lit "\r\n") = line
      have hnone : occurrence (lit "charset=") (tolower_str line) = none := by
        have hsplit := List.rdropWhile_append_rtakeWhile (p := (· ∈ lit "\r\n")) (l := it)
        unfold str_find at hfind
        rw [← hsplit, hline, tolower_str_append] at hfind
        exact occurrence_none_of_append hfind
      have hlit : tolower_str (lit " charset=") = lit " " ++ lit "charset=" := by decide
      have hforeign : ∀ c ∈ tolower_str (closing line) ++ lit " ", c ∉ lit "charset=" := by
        rcases closing_cases line with hcase | hcase
        · rw [hcase]
          decide +kernel
        · rw [hcase]
          decide +kernel
      have hnew := occurrence_new hnone hforeign (by simp [lit]) (tolower_str more)
      refine ⟨(tolower_str line ++ (tolower_str (closing line) ++ lit " ")).length, ?_, ?_⟩
      · rw [← hnew]
        unfold str_find
        simp only [tolower_str_append, hlit, List.append_assoc]
      · have hone : (lit " ").length = 1 := by decide
        have hnine : (lit " charset=").length = 9 := by decide
        simp only [List.length_append, tolower_str, List.length_map, hone, hnine]
        omega

/-- **The second call changes nothing** in the field. -/
theorem set_charset_field_again {charset : Bytes} (hc : Charset_Name charset) :
    set_charset_field (set_charset_field it charset) charset = set_charset_field it charset := by
  obtain ⟨pos, hfind, hpos⟩ := find_written h charset
  obtain ⟨b, more, hrest, hb⟩ := rest_break it
  have htext := set_charset_field_eq h charset
  have hfront : written_front (set_charset_field it charset) = written_front it := by
    have htake : written_front (set_charset_field it charset)
        = (set_charset_field it charset).take (pos + 8) := by
      unfold written_front
      rw [hfind]
    rw [htake, hpos, htext, List.append_assoc, List.take_left]
  have hdrop : ((set_charset_field it charset).drop (pos + 8)).dropWhile (· ∉ lit ";\r\n")
      = written_rest it := by
    have hname : ∀ c ∈ charset, decide (c ∉ lit ";\r\n") = true := by
      intro c hmem
      exact decide_eq_true (charset_no_break hc c hmem)
    rw [hpos, htext, List.append_assoc, List.drop_left, List.dropWhile_append_of_pos hname, hrest,
      List.dropWhile_cons_of_neg (by simpa using hb)]
  have hbehind : written_rest (set_charset_field it charset) = written_rest it := by
    have hif : written_rest (set_charset_field it charset)
        = if written_rest it = [] then lit ";\r\n" else written_rest it := by
      rw [← hdrop]
      conv_lhs => unfold written_rest
      rw [hfind]
    rw [hif, if_neg (by rw [hrest]; exact List.cons_ne_nil b more)]
  rw [set_charset_field_eq (set_charset_field_content_type h charset), hfront, hbehind, ← htext]

end Field

/-! ## §4. The header. -/

section Header

variable {pre post : MIME_Header_List} {it charset : Bytes}

/-- The loop stops at the first field of the name. -/
theorem set_charset_loop_found (hpre : ∀ a ∈ pre, ¬ is_content_type a) (h : is_content_type it) :
    set_charset_loop charset (pre ++ it :: post)
      = some (pre ++ set_charset_field it charset :: post) := by
  induction pre with
  | nil => exact if_pos h
  | cons a pre ih =>
      have hnot : ¬ strncasecmp a (lit "content-type:") 13 = 0 := hpre a List.mem_cons_self
      rw [List.cons_append, set_charset_loop, if_neg hnot,
        ih fun b hb => hpre b (List.mem_cons_of_mem a hb)]
      rfl

theorem set_charset_loop_none (hpre : ∀ a ∈ pre, ¬ is_content_type a) :
    set_charset_loop charset pre = none := by
  induction pre with
  | nil => rfl
  | cons a pre ih =>
      have hnot : ¬ strncasecmp a (lit "content-type:") 13 = 0 := hpre a List.mem_cons_self
      rw [set_charset_loop, if_neg hnot, ih fun b hb => hpre b (List.mem_cons_of_mem a hb)]
      rfl

/-- A header with a "content-type:" field. -/
theorem set_charset_found {e : MIME_Entity} (hc : Charset_Name charset)
    (he : e.header_ = pre ++ it :: post) (hpre : ∀ a ∈ pre, ¬ is_content_type a)
    (h : is_content_type it) :
    (e.set_charset charset).header_ = pre ++ set_charset_field it charset :: post := by
  unfold MIME_Entity.set_charset
  rw [charset_c_str hc, he, set_charset_loop_found hpre h]

/-- The field that is added to a header without one. -/
def added_field (charset : Bytes) : Bytes :=
  lit "Content-Type: charset=" ++ charset ++ lit ";\r\n"

/-- It is a field whose charset is set. -/
theorem added_field_eq (charset : Bytes) :
    is_content_type (lit "Content-Type: charset=;\r\n") ∧
      added_field charset = set_charset_field (lit "Content-Type: charset=;\r\n") charset := by
  have h : is_content_type (lit "Content-Type: charset=;\r\n") := by decide
  have hparts : written_front (lit "Content-Type: charset=;\r\n") = lit "Content-Type: charset=" ∧
      written_rest (lit "Content-Type: charset=;\r\n") = lit ";\r\n" := by decide
  refine ⟨h, ?_⟩
  rw [set_charset_field_eq h, hparts.1, hparts.2]
  rfl

/-- A header without a "content-type:" field. -/
theorem set_charset_added {e : MIME_Entity} (hc : Charset_Name charset)
    (he : ∀ a ∈ e.header_, ¬ is_content_type a) :
    ∃ before behind, (e.set_charset charset).header_ = before ++ added_field charset :: behind ∧
      ∀ a ∈ before, ¬ is_content_type a := by
  refine ⟨e.header_.rdropWhile fun line => decide (line = [] ∨ is_blank line = true),
    e.header_.rtakeWhile fun line => decide (line = [] ∨ is_blank line = true), ?_, ?_⟩
  · unfold MIME_Entity.set_charset
    rw [charset_c_str hc, set_charset_loop_none he]
    rfl
  · exact fun a ha => he a ((List.rdropWhile_prefix _ _).subset ha)

/-- A header without a "content-type:" field, or the first one of it. -/
theorem header_cases (header_ : MIME_Header_List) :
    (∀ a ∈ header_, ¬ is_content_type a) ∨
      ∃ pre it post, header_ = pre ++ it :: post ∧ (∀ a ∈ pre, ¬ is_content_type a) ∧
        is_content_type it := by
  cases hfind : header_.find? (is_content_type ·) with
  | none =>
      refine Or.inl ?_
      intro a ha
      simpa using List.find?_eq_none.mp hfind a ha
  | some it =>
      obtain ⟨hit, pre, post, hheader, hpre⟩ := List.find?_eq_some_iff_append.mp hfind
      exact Or.inr ⟨pre, it, post, hheader, fun a ha => by simpa using hpre a ha, by simpa using hit⟩

end Header

/-- **The second call changes nothing.** -/
theorem set_charset_again (e : MIME_Entity) {charset : Bytes} (hc : Charset_Name charset) :
    ((e.set_charset charset).set_charset charset).header_ = (e.set_charset charset).header_ := by
  rcases header_cases e.header_ with hnone | ⟨pre, it, post, he, hpre, h⟩
  · obtain ⟨before, behind, hadd, hbefore⟩ := set_charset_added hc hnone
    obtain ⟨h, hadded⟩ := added_field_eq charset
    rw [hadded] at hadd
    rw [set_charset_found hc hadd hbefore (set_charset_field_content_type h charset),
      set_charset_field_again h hc, hadd]
  · have hset := set_charset_found hc he hpre h
    rw [set_charset_found hc hset hpre (set_charset_field_content_type h charset),
      set_charset_field_again h hc, hset]

end Aos
