/-
  Aos.Mime.Hidden — hidden fields, left out on import and on export.

  The exporter leaves out a field that begins with a colon, whole.  The importer
  leaves out a line that begins with one; a folded line behind it goes to the last
  field there is, a visible one in front of the hidden one.

  The two are the same as long as that does not happen (`no_leak`).  Where it
  happens first, one export goes on with a blank and the other does not.

  Main results:
    • `add_fields_visible` — without a leak, the fields that are kept;
    • `leak_differs` — with one, the first byte that is different;
    • `hidden_fields_iff` — the two exports.
-/
import Aos.Mime.Agree
import Aos.Mime.Lossless

namespace Aos

open Lib.Lines MIME_Entity

/-! ## §1. Hidden lines and fields. -/

theorem is_hidden_iff (s : Bytes) : is_hidden true s = true ↔ deref s = HIDDEN_HEADER_CHAR := by
  unfold is_hidden
  cases s with
  | nil => decide
  | cons c s => simp

/-- A folded line does not hide a field or make it visible. -/
theorem is_hidden_append (f : Bytes) {c : Bytes} (hc : is_continuation c = true) :
    is_hidden true (f ++ c) = is_hidden true f := by
  cases f with
  | cons a f => rfl
  | nil =>
      have hnot : ¬ is_hidden true c = true := by
        rw [is_hidden_iff]
        rcases (is_continuation_iff c).mp hc with h | h
        · rw [h]
          decide
        · rw [h]
          decide
      rw [List.nil_append, Bool.eq_false_iff.mpr hnot]
      rfl

/-- The fields that are not hidden. -/
def visible (hs : MIME_Header_List) : MIME_Header_List := hs.filter (fun f => ! is_hidden true f)

theorem visible_concat (hs : MIME_Header_List) (f : Bytes) :
    visible (hs ++ [f]) = visible hs ++ if is_hidden true f then [] else [f] := by
  unfold visible
  rw [List.filter_append]
  by_cases h : is_hidden true f = true
  · rw [if_pos h, List.filter_cons_of_neg (by rw [h]; decide)]
    rfl
  · rw [if_neg h, List.filter_cons_of_pos (by simpa using h)]
    rfl

/-- A line of its own, of a field that is seen. -/
def is_visible_line (l : Bytes) : Prop := is_hidden true l = false ∧ is_continuation l = false

/-- No folded line stands directly behind a hidden line that has a visible one in
    front of it. -/
def no_leak (ls : List Bytes) : Prop :=
  ∀ (A : List Bytes) (h c : Bytes) (B : List Bytes), ls = A ++ h :: c :: B →
    is_hidden true h = true → is_continuation c = true → ∀ l ∈ A, ¬ is_visible_line l

/-! ## §2. One line. -/

section Step

variable (hs : MIME_Header_List) {line : Bytes}

theorem add_field_continuation (no_hidden_header : Bool) (hc : is_continuation line = true)
    (f : Bytes) : add_field no_hidden_header (hs ++ [f]) line = hs ++ [f ++ line] := by
  unfold add_field
  rw [if_pos ((is_continuation_iff line).mp hc), if_pos (by simp), append_to_last_concat]

theorem add_field_drop (no_hidden_header : Bool) (hc : is_continuation line = true) :
    add_field no_hidden_header [] line = [] := by
  unfold add_field
  rw [if_pos ((is_continuation_iff line).mp hc), if_neg (fun h => h rfl)]

theorem add_field_line (hc : is_continuation line = false) : add_field false hs line = hs ++ [line] := by
  unfold add_field
  rw [if_neg (fun h => by rw [(is_continuation_iff line).mpr h] at hc; cases hc), if_pos (Or.inl rfl)]

theorem add_field_line_hidden (hc : is_continuation line = false) :
    add_field true hs line = hs ++ if is_hidden true line then [] else [line] := by
  unfold add_field
  rw [if_neg (fun h => by rw [(is_continuation_iff line).mpr h] at hc; cases hc)]
  by_cases hline : is_hidden true line = true
  · rw [if_pos hline, List.append_nil,
      if_neg (fun h => h.elim Bool.noConfusion (fun h => h ((is_hidden_iff line).mp hline)))]
  · rw [if_neg hline, if_pos (Or.inr (fun h => hline ((is_hidden_iff line).mpr h)))]

/-- The last field is hidden. -/
def last_hidden (hs : MIME_Header_List) : Prop := ∃ init f, hs = init ++ [f] ∧ is_hidden true f = true

/-- **A line that does not leak** is left out on import, or kept, as it is on export. -/
theorem add_field_visible
    (h : is_continuation line = true → last_hidden hs → visible hs = []) :
    add_field true (visible hs) line = visible (add_field false hs line) := by
  by_cases hc : is_continuation line = true
  · rcases List.eq_nil_or_concat' hs with rfl | ⟨init, f, rfl⟩
    · rw [add_field_drop false hc]
      exact add_field_drop true hc
    · rw [add_field_continuation init false hc, visible_concat init (f ++ line),
        is_hidden_append f hc]
      by_cases hf : is_hidden true f = true
      · have hnone : visible (init ++ [f]) = [] := h hc ⟨init, f, rfl, hf⟩
        rw [hnone, add_field_drop true hc, if_pos hf]
        rw [visible_concat, if_pos hf] at hnone
        exact hnone.symm
      · rw [visible_concat, if_neg hf, if_neg hf, add_field_continuation _ true hc]
  · have hline : is_continuation line = false := Bool.eq_false_iff.mpr hc
    rw [add_field_line_hidden _ hline, add_field_line _ hline, visible_concat]

/-- **A line that leaks**: the exporter leaves it out. -/
theorem add_field_leak (hc : is_continuation line = true) (hlast : last_hidden hs) :
    visible (add_field false hs line) = visible hs ∧ last_hidden (add_field false hs line) := by
  obtain ⟨init, f, rfl, hf⟩ := hlast
  have hf' : is_hidden true (f ++ line) = true := (is_hidden_append f hc).trans hf
  rw [add_field_continuation init false hc, visible_concat, visible_concat, if_pos hf, if_pos hf']
  exact ⟨rfl, init, f ++ line, rfl, hf'⟩

/-- A line adds its bytes behind all others, or none. -/
theorem add_field_grows (no_hidden_header : Bool) :
    hs.flatten <+: (add_field no_hidden_header hs line).flatten := by
  unfold add_field
  split_ifs with hcont hne
  · rw [(append_to_last_flatten line hs hne).1]
    exact List.prefix_append _ _
  · exact List.prefix_rfl
  · rw [List.flatten_append]
    exact List.prefix_append _ _
  · exact List.prefix_rfl

theorem visible_grows : (visible hs).flatten <+: (visible (add_field false hs line)).flatten := by
  by_cases hleak : is_continuation line = true ∧ last_hidden hs
  · rw [(add_field_leak hs hleak.1 hleak.2).1]
  · rw [← add_field_visible hs (fun hc hlast => absurd ⟨hc, hlast⟩ hleak)]
    exact add_field_grows _ true

end Step

/-! ## §3. All lines. -/

theorem add_fields_concat (no_hidden_header : Bool) (hs : MIME_Header_List) (ls : List Bytes)
    (l : Bytes) : add_fields no_hidden_header hs (ls ++ [l])
      = add_field no_hidden_header (add_fields no_hidden_header hs ls) l := List.foldl_append

/-- A hidden field comes from a hidden line, and the folded ones behind it. -/
theorem last_hidden_line (ls : List Bytes) : last_hidden (add_fields false [] ls) →
    ∃ A h cs, ls = A ++ h :: cs ∧ is_hidden true h = true ∧ ∀ c ∈ cs, is_continuation c = true := by
  induction ls using List.reverseRecOn with
  | nil =>
      intro hlast
      obtain ⟨init, f, hnil, _⟩ := hlast
      exact absurd hnil.symm (by simp [add_fields])
  | append_singleton ls l ih =>
      intro hlast
      rw [add_fields_concat] at hlast
      by_cases hc : is_continuation l = true
      · have hbefore : last_hidden (add_fields false [] ls) := by
          obtain ⟨init', f', hsplit, hf'⟩ := hlast
          rcases List.eq_nil_or_concat' (add_fields false [] ls) with hnil | ⟨init, f, hconcat⟩
          · rw [hnil, add_field_drop false hc] at hsplit
            exact absurd hsplit.symm (by simp)
          · rw [hconcat, add_field_continuation init false hc] at hsplit
            obtain ⟨_, hlast⟩ := List.append_inj' hsplit rfl
            rw [← (List.cons.inj hlast).1, is_hidden_append f hc] at hf'
            exact ⟨init, f, hconcat, hf'⟩
        obtain ⟨A, h, cs, rfl, hh, hcs⟩ := ih hbefore
        refine ⟨A, h, cs ++ [l], by simp, hh, fun c hmem => ?_⟩
        rcases List.mem_append.mp hmem with hmem | hmem
        · exact hcs c hmem
        · rw [List.mem_singleton.mp hmem]
          exact hc
      · obtain ⟨init, f, hsplit, hf⟩ := hlast
        rw [add_field_line _ (Bool.eq_false_iff.mpr hc)] at hsplit
        obtain ⟨_, hlast⟩ := List.append_inj' hsplit rfl
        rw [← (List.cons.inj hlast).1] at hf
        exact ⟨ls, l, [], rfl, hf, fun c hmem => absurd hmem List.not_mem_nil⟩

/-- A line changes no field that is there from visible to hidden, or back. -/
theorem visible_add_field (hs : MIME_Header_List) (l : Bytes) :
    visible (add_field false hs l) = [] ↔ visible hs = [] ∧ ¬ is_visible_line l := by
  unfold is_visible_line
  by_cases hc : is_continuation l = true
  · rcases List.eq_nil_or_concat' hs with rfl | ⟨init, f, rfl⟩
    · rw [add_field_drop false hc, hc]
      simp [visible]
    · rw [add_field_continuation init false hc, visible_concat, visible_concat,
        is_hidden_append f hc, hc]
      by_cases hf : is_hidden true f = true
      · simp [hf]
      · simp [hf]
  · rw [add_field_line _ (Bool.eq_false_iff.mpr hc), visible_concat]
    by_cases hl : is_hidden true l = true
    · simp [hl]
    · simp [hl, hc]

/-- **There is a visible field if there is a line of one.** -/
theorem visible_add_fields (ls : List Bytes) :
    visible (add_fields false [] ls) = [] ↔ ∀ l ∈ ls, ¬ is_visible_line l := by
  induction ls using List.reverseRecOn with
  | nil => exact ⟨fun _ l hl => absurd hl List.not_mem_nil, fun _ => rfl⟩
  | append_singleton ls l ih =>
      rw [add_fields_concat, visible_add_field, ih, List.forall_mem_append,
        List.forall_mem_singleton]

theorem no_leak_init {ls : List Bytes} {l : Bytes} (h : no_leak (ls ++ [l])) : no_leak ls := by
  intro A hd c B hsplit
  refine h A hd c (B ++ [l]) ?_
  rw [hsplit, List.append_assoc]
  rfl

/-- **The first leak** is at a folded line behind a hidden field, with a visible one read
    before. -/
theorem no_leak_concat {ls : List Bytes} {l : Bytes} (hls : no_leak ls) :
    no_leak (ls ++ [l]) ↔
      (is_continuation l = true → last_hidden (add_fields false [] ls) →
        visible (add_fields false [] ls) = []) := by
  constructor
  · intro h hl hlast
    obtain ⟨A, hd, cs, rfl, hhd, hcs⟩ := last_hidden_line ls hlast
    rw [visible_add_fields]
    -- the first folded line behind the hidden one
    obtain ⟨c, B, hB, hc⟩ : ∃ c B, cs ++ [l] = c :: B ∧ is_continuation c = true := by
      cases cs with
      | nil => exact ⟨l, [], rfl, hl⟩
      | cons c cs => exact ⟨c, cs ++ [l], rfl, hcs c List.mem_cons_self⟩
    have hA := h A hd c B (by rw [List.append_assoc, List.cons_append, hB]) hhd hc
    intro m hm
    rcases List.mem_append.mp hm with hm | hm
    · exact hA m hm
    · rcases List.mem_cons.mp hm with rfl | hm
      · exact fun hv => Bool.noConfusion (hhd.symm.trans hv.1)
      · exact fun hv => Bool.noConfusion ((hcs m hm).symm.trans hv.2)
  · intro h A hd c B hsplit hhd hc
    rcases List.eq_nil_or_concat' B with rfl | ⟨B, b, rfl⟩
    · have hsplit' : ls ++ [l] = (A ++ [hd]) ++ [c] := by
        rw [hsplit, List.append_assoc]
        rfl
      obtain ⟨rfl, hlast⟩ := List.append_inj' hsplit' rfl
      have hline : is_continuation hd = false := by
        cases hcont : is_continuation hd with
        | false => rfl
        | true =>
            have := (is_hidden_append [] hcont).symm.trans hhd
            exact absurd this (by decide)
      have hnone := h (by rw [(List.cons.inj hlast).1]; exact hc) ?_
      · rw [visible_add_fields] at hnone
        exact fun m hm => hnone m (List.mem_append_left _ hm)
      · rw [add_fields_concat, add_field_line _ hline]
        exact ⟨_, hd, rfl, hhd⟩
    · have hsplit' : ls ++ [l] = (A ++ hd :: c :: B) ++ [b] := by
        rw [hsplit, List.append_assoc]
        rfl
      obtain ⟨rfl, _⟩ := List.append_inj' hsplit' rfl
      exact hls A hd c B rfl hhd hc

/-- **Without a leak, the fields that are kept on import** are those that are visible. -/
theorem add_fields_visible (ls : List Bytes) : no_leak ls →
    add_fields true [] ls = visible (add_fields false [] ls) := by
  induction ls using List.reverseRecOn with
  | nil => exact fun _ => rfl
  | append_singleton ls l ih =>
      intro h
      have hinit := no_leak_init h
      rw [add_fields_concat, add_fields_concat, ih hinit]
      exact add_field_visible _ ((no_leak_concat hinit).mp h)

/-! ## §4. With a leak. -/

theorem first_leak (ls : List Bytes) (h : ¬ no_leak ls) :
    ∃ ls₁ c ls₂, ls = ls₁ ++ c :: ls₂ ∧ no_leak ls₁ ∧ ¬ no_leak (ls₁ ++ [c]) := by
  induction ls using List.reverseRecOn with
  | nil => exact absurd (fun A hd c B hsplit => absurd hsplit (by simp)) h
  | append_singleton ls l ih =>
      by_cases hls : no_leak ls
      · exact ⟨ls, l, [], rfl, hls, h⟩
      · obtain ⟨ls₁, c, ls₂, rfl, h₁, h₂⟩ := ih hls
        exact ⟨ls₁, c, ls₂ ++ [l], by simp, h₁, h₂⟩

theorem add_fields_prefix (no_hidden_header : Bool) (ls : List Bytes) :
    ∀ hs : MIME_Header_List, hs.flatten <+: (add_fields no_hidden_header hs ls).flatten := by
  induction ls with
  | nil => exact fun hs => List.prefix_rfl
  | cons l ls ih => exact fun hs => (add_field_grows hs no_hidden_header).trans (ih _)

theorem visible_fields_prefix (ls : List Bytes) :
    ∀ hs : MIME_Header_List, (visible hs).flatten <+: (visible (add_fields false hs ls)).flatten := by
  induction ls with
  | nil => exact fun hs => List.prefix_rfl
  | cons l ls ih => exact fun hs => (visible_grows hs).trans (ih _)

/-- A text that does not begin with a blank. -/
def no_blank_first (s : Bytes) : Prop := deref s ≠ TAB ∧ deref s ≠ SP

theorem no_blank_first_line {l : Bytes} (h : is_continuation l = false) : no_blank_first l := by
  have hnot := (is_continuation_iff l).not.mp (Bool.eq_false_iff.mp h)
  exact ⟨fun h => hnot (Or.inl h), fun h => hnot (Or.inr h)⟩

theorem no_blank_first_append {s t : Bytes} (hs : no_blank_first s) (h : s = [] → no_blank_first t) :
    no_blank_first (s ++ t) := by
  cases s with
  | nil => exact h rfl
  | cons c s => exact hs

/-- **Behind a hidden field** the exporter goes on with the next line that is seen, which
    does not begin with a blank.  Only the last line may be empty. -/
theorem behind_hidden (ls : List Bytes) : (∀ l ∈ ls.dropLast, l ≠ []) →
    ∀ hs : MIME_Header_List, last_hidden hs →
      ∃ R, (visible (add_fields false hs ls)).flatten = (visible hs).flatten ++ R ∧
        no_blank_first R := by
  induction ls with
  | nil =>
      intro _ hs _
      exact ⟨[], (List.append_nil _).symm, by unfold no_blank_first; decide⟩
  | cons l ls ih =>
      intro hne hs hlast
      have hrest : ∀ m ∈ ls.dropLast, m ≠ [] := by
        cases ls with
        | nil => exact fun m hm => absurd hm List.not_mem_nil
        | cons m ls => exact fun n hn => hne n (List.mem_cons_of_mem l hn)
      show ∃ R, (visible (add_fields false (add_field false hs l) ls)).flatten = _ ∧ _
      by_cases hc : is_continuation l = true
      · obtain ⟨hsame, hstill⟩ := add_field_leak hs hc hlast
        rw [← hsame]
        exact ih hrest _ hstill
      · have hline : is_continuation l = false := Bool.eq_false_iff.mpr hc
        by_cases hl : is_hidden true l = true
        · have hsame : visible (add_field false hs l) = visible hs := by
            rw [add_field_line _ hline, visible_concat, if_pos hl, List.append_nil]
          rw [← hsame]
          refine ih hrest _ ?_
          rw [add_field_line _ hline]
          exact ⟨hs, l, rfl, hl⟩
        · -- the line that is seen
          have hseen : (visible (add_field false hs l)).flatten = (visible hs).flatten ++ l := by
            rw [add_field_line _ hline, visible_concat, if_neg hl, List.flatten_append,
              List.flatten_singleton]
          obtain ⟨R, hR⟩ := visible_fields_prefix ls (add_field false hs l)
          rw [hseen, List.append_assoc] at hR
          refine ⟨l ++ R, hR.symm, no_blank_first_append (no_blank_first_line hline) ?_⟩
          intro hnil
          -- an empty line is the last one
          have hlast : ls = [] := by
            cases ls with
            | nil => rfl
            | cons m ls => exact absurd hnil (hne l List.mem_cons_self)
          rw [hlast, hnil] at hR
          have hflat : (visible (add_fields false (add_field false hs l) [])).flatten
              = (visible hs).flatten ++ l := hseen
          rw [hnil] at hflat
          rw [hflat, List.append_cancel_left_eq, List.nil_append] at hR
          rw [hR]
          unfold no_blank_first
          decide

/-- **A leak shows**: the fields kept on import go on with a blank where the visible ones
    do not. -/
theorem leak_differs (ls : List Bytes) (hne : ∀ l ∈ ls.dropLast, l ≠ []) (h : ¬ no_leak ls) :
    ∃ P c R, is_continuation c = true ∧ P ++ c <+: (add_fields true [] ls).flatten ∧
      (visible (add_fields false [] ls)).flatten = P ++ R ∧ no_blank_first R := by
  obtain ⟨ls₁, c, ls₂, rfl, hls, hleak⟩ := first_leak ls h
  rw [no_leak_concat hls] at hleak
  rw [Classical.not_imp, Classical.not_imp] at hleak
  obtain ⟨hc, hlast, hsome⟩ := hleak
  have hsame := add_fields_visible ls₁ hls
  have hfalse : add_fields false [] (ls₁ ++ c :: ls₂)
      = add_fields false (add_field false (add_fields false [] ls₁) c) ls₂ := List.foldl_append
  have htrue : add_fields true [] (ls₁ ++ c :: ls₂)
      = add_fields true (add_field true (add_fields true [] ls₁) c) ls₂ := List.foldl_append
  obtain ⟨hvis, hstill⟩ := add_field_leak (add_fields false [] ls₁) hc hlast
  have hne₂ : ∀ l ∈ ls₂.dropLast, l ≠ [] := by
    intro l hl
    refine hne l ?_
    rw [List.dropLast_append_of_ne_nil (List.cons_ne_nil c ls₂)]
    refine List.mem_append_right _ ?_
    cases ls₂ with
    | nil => exact absurd hl List.not_mem_nil
    | cons m ls₂ => exact List.mem_cons_of_mem c hl
  obtain ⟨R, hR, hfirst⟩ := behind_hidden ls₂ hne₂ _ hstill
  refine ⟨(visible (add_fields false [] ls₁)).flatten, c, R, hc, ?_, ?_, hfirst⟩
  · have hadd : (add_field true (visible (add_fields false [] ls₁)) c).flatten
        = (visible (add_fields false [] ls₁)).flatten ++ c := by
      unfold add_field
      rw [if_pos ((is_continuation_iff c).mp hc), if_pos hsome]
      exact (append_to_last_flatten c _ hsome).1
    rw [htrue, hsame, ← hadd]
    exact add_fields_prefix true ls₂ _
  · rw [hfalse, hR, hvis]

/-! ## §5. What is read from the header. -/

/-- A hidden field is not a field of any name that begins with another character. -/
theorem strncasecmp_hidden {s name : Bytes} {c : Byte} {count : Nat}
    (hs : is_hidden true s = true) (hc : fold_diff HIDDEN_HEADER_CHAR c ≠ 0) :
    strncasecmp s (c :: name) (count + 1) ≠ 0 := by
  have hderef := (is_hidden_iff s).mp hs
  have hdiff : fold_diff (deref s) (deref (c :: name)) ≠ 0 := by
    rw [hderef]
    exact hc
  rw [strncasecmp]
  show (if fold_diff (deref s) (deref (c :: name)) ≠ 0 ∨ deref s = NUL then
    fold_diff (deref s) (deref (c :: name)) else _) ≠ 0
  rw [if_pos (Or.inl hdiff)]
  exact hdiff

/-- **Hidden fields change no parameter.** -/
theorem header_parameter_visible (hs : MIME_Header_List) (c : Byte) (field name : Bytes)
    (count : Nat) (hc : fold_diff HIDDEN_HEADER_CHAR c ≠ 0) :
    header_parameter (visible hs) (c :: field) (count + 1) name
      = header_parameter hs (c :: field) (count + 1) name := by
  unfold header_parameter visible
  rw [List.find?_filter]
  have hsame : (fun it : Bytes => decide ((! is_hidden true it) = true
        ∧ decide (strncasecmp it (c :: field) (count + 1) = 0) = true))
      = fun it => decide (strncasecmp it (c :: field) (count + 1) = 0) := by
    funext it
    by_cases hit : is_hidden true it = true
    · have hne : strncasecmp it (c :: field) (count + 1) ≠ 0 := strncasecmp_hidden hit hc
      simp [hne]
    · simp [hit]
  rw [hsame]

theorem is_message_visible (hs : MIME_Header_List) : is_message (visible hs) = is_message hs :=
  congrArg (fun s : Bytes => decide (s = lit "message/rfc822"))
    (header_parameter_visible hs 99 (lit "ontent-type:") (lit "content-type:") 12 (by decide))

theorem separator_of_visible (hs : MIME_Header_List) : separator_of (visible hs) = separator_of hs :=
  congrArg (fun s : Bytes => if s ≠ [] then lit "--" ++ s else s)
    (header_parameter_visible hs 99 (lit "ontent-type:") (lit "boundary") 12 (by decide))

/-! ## §6. The two exports. -/

theorem add_fields_no_hidden (ls : List Bytes) : ∀ f ∈ add_fields true [] ls, is_hidden true f = false := by
  induction ls using List.reverseRecOn with
  | nil => exact fun f hf => absurd hf List.not_mem_nil
  | append_singleton ls l ih =>
      intro f hf
      rw [add_fields_concat] at hf
      by_cases hc : is_continuation l = true
      · rcases List.eq_nil_or_concat' (add_fields true [] ls) with hnil | ⟨init, last, hconcat⟩
        · rw [hnil, add_field_drop true hc] at hf
          exact absurd hf List.not_mem_nil
        · rw [hconcat] at ih hf
          rw [add_field_continuation init true hc] at hf
          rcases List.mem_append.mp hf with hf | hf
          · exact ih f (List.mem_append_left _ hf)
          · rw [List.mem_singleton.mp hf, is_hidden_append last hc]
            exact ih last (List.mem_append_right _ List.mem_cons_self)
      · rw [add_field_line_hidden _ (Bool.eq_false_iff.mpr hc)] at hf
        rcases List.mem_append.mp hf with hf | hf
        · exact ih f hf
        · split at hf
          · exact absurd hf List.not_mem_nil
          · rename_i hl
            rw [List.mem_singleton.mp hf]
            exact Bool.eq_false_iff.mpr hl

/-- What was kept on import is exported, with either option. -/
theorem dump_header_kept (b : Bool) (ls : List Bytes) :
    dump_header b (fields_of true ls) = (fields_of true ls).flatten := by
  cases b with
  | false => exact dump_header_all _
  | true =>
      unfold fields_of
      rw [dump_header_no_hidden _ (add_fields_no_hidden (field_lines ls)), dump_header_all]

/-- Only the last field line may be empty. -/
theorem field_lines_ne_nil (delimiter : Byte) (x : Bytes) :
    ∀ l ∈ (field_lines (all_lines delimiter x)).dropLast, l ≠ [] := by
  intro l hl
  have hwhole : l ∈ (cut delimiter [] x).1 := by
    have hsplit := lines_split (all_lines delimiter x)
    have hinit : (all_lines delimiter x).dropLast = (cut delimiter [] x).1 := List.dropLast_concat
    rw [← hinit, hsplit, List.append_assoc]
    cases hrest : blank_lines (all_lines delimiter x) ++ content_lines (all_lines delimiter x) with
    | nil => rwa [List.append_nil]
    | cons m ms =>
        rw [List.dropLast_append_of_ne_nil (List.cons_ne_nil m ms)]
        exact List.mem_append_left _ (List.dropLast_subset _ hl)
  exact (cut_isLine delimiter x [] List.not_mem_nil l hwhole).ne_nil

/-- **Whatever the parser has made of the lines**, the export begins with the fields,
    and goes on with a line break, if at all. -/
theorem export_begins (no_hidden_header b : Bool) (lines : List Bytes) :
    ∃ Z, (export_data (new.parse_lines no_hidden_header true lines) .ALL b).1
        = dump_header b (fields_of no_hidden_header lines) ++ Z ∧ no_blank_first Z := by
  cases hb : blank_lines lines with
  | nil =>
      rw [parse_message, if_pos hb, export_leaf _ b rfl rfl rfl]
      exact ⟨_, rfl, (by decide : deref [] ≠ TAB ∧ deref [] ≠ SP)⟩
  | cons l ls =>
      have hblank := blank_lines_blank lines
      rw [hb] at hblank
      obtain ⟨c, s, rfl, hc⟩ := is_blank_cases (hblank l List.mem_cons_self)
      show ∃ Z, dump_data .ALL b _ = _ ∧ _
      rw [dump_data_eq]
      unfold compose
      rw [header_of_message, hb, dump_header_blanks b _ _ hblank, List.append_assoc]
      refine ⟨_, rfl, ?_⟩
      show c ≠ TAB ∧ c ≠ SP
      rcases hc with rfl | rfl
      · decide
      · decide

/-- A folded line is no beginning of a text that does not begin with a blank. -/
theorem not_prefix_of_blank {c s : Bytes} (hc : is_continuation c = true)
    (hs : no_blank_first s) : ¬ c <+: s := by
  intro hprefix
  obtain ⟨t, rfl⟩ := hprefix
  rw [is_continuation_iff] at hc
  cases c with
  | nil => exact absurd hc (by decide)
  | cons a c => exact hc.elim hs.1 hs.2

/-- The lines of the header: up to the first blank one. -/
def header_lines (x : Bytes) : List Bytes := field_lines (all_lines (get_line_delimiter x) x)

/-- A leaf: neither a multipart nor an enclosed message. -/
def single_part (e : MIME_Entity) : Prop :=
  e.get_boundary = [] ∧ e.get_content_type ≠ lit "message/rfc822"

/-- **Hidden fields left out on import, or on export**: the same bytes exactly if no
    folded line of a hidden field has a visible field to go to. -/
theorem hidden_fields_iff (x : Bytes) (hx : x ≠ []) (b : Bool)
    (hleaf : ∃ no_hidden_header, single_part (import_data x .ALL no_hidden_header).1) :
    (export_data (import_data x .ALL true).1 .ALL b).1
        = (export_data (import_data x .ALL false).1 .ALL true).1 ↔
      no_leak (header_lines x) := by
  have hlines : ∀ n, (import_data x .ALL n).1
      = new.parse_lines n true (all_lines (get_line_delimiter x) x) :=
    fun n => import_data_lines .ALL n Flag.noConfusion x hx
  have hne := field_lines_ne_nil (get_line_delimiter x) x
  simp only [hlines] at hleaf ⊢
  unfold header_lines
  generalize all_lines (get_line_delimiter x) x = lines at hleaf hne ⊢
  have hvisible : dump_header true (fields_of false lines)
      = (visible (fields_of false lines)).flatten := dump_header_filter true _
  constructor
  · intro h
    by_contra hleak
    obtain ⟨P, c, R, hc, hbegin, hR, hfirst⟩ := leak_differs (field_lines lines) hne hleak
    obtain ⟨Z, hkept, _⟩ := export_begins true b lines
    obtain ⟨Z', hall, hZ'⟩ := export_begins false true lines
    change _ = P ++ R at hR
    rw [hkept, hall, dump_header_kept, hvisible] at h
    have hprefix : P ++ c <+: (fields_of true lines).flatten ++ Z :=
      hbegin.trans (List.prefix_append _ _)
    rw [h] at hprefix
    change P ++ c <+: (visible (add_fields false [] (field_lines lines))).flatten ++ Z' at hprefix
    rw [hR, List.append_assoc, List.prefix_append_right_inj] at hprefix
    exact not_prefix_of_blank hc (no_blank_first_append hfirst (fun _ => hZ')) hprefix
  · intro h
    have hfields : fields_of true lines = visible (fields_of false lines) :=
      add_fields_visible (field_lines lines) h
    have hsep : separator_of (fields_of true lines) = separator_of (fields_of false lines) := by
      rw [hfields, separator_of_visible]
    have hmsg : is_message (fields_of true lines) = is_message (fields_of false lines) := by
      rw [hfields, is_message_visible]
    -- the two are leaves together
    obtain ⟨hsep', hmsg'⟩ : separator_of (fields_of false lines) = [] ∧
        is_message (fields_of false lines) = false := by
      obtain ⟨n, hbound, hct⟩ := hleaf
      have hsays := leaf_of_lines n true lines hbound hct
      cases n with
      | true => rwa [hsep, hmsg] at hsays
      | false => exact hsays
    rw [export_parsed true b lines (hsep.trans hsep') (hmsg.trans hmsg'),
      export_parsed false true lines hsep' hmsg', dump_header_kept, hvisible, hfields]

/-- A hidden field in front, another one in the middle, and a folded line behind a
    visible one. -/
theorem hidden_fields_iff_mixed :
    let x := lit ":a\r\n b\r\nC: d\r\n e\r\n:f\r\nG: h\r\n\r\ni"
    ((export_data (import_data x .ALL true).1 .ALL true).1
        = (export_data (import_data x .ALL false).1 .ALL true).1 ↔
      no_leak (header_lines x)) := by
  have hall := import_data_lines .ALL false Flag.noConfusion
    (lit ":a\r\n b\r\nC: d\r\n e\r\n:f\r\nG: h\r\n\r\ni") (by decide)
  refine hidden_fields_iff _ (by decide) true ⟨false, ?_⟩
  rw [hall]
  unfold single_part
  decide +kernel

/-- **A folded line of a hidden field** is kept on import. -/
theorem hidden_field_leaks :
    let x := lit "A: b\r\n:c\r\n d\r\n\r\n"
    single_part (import_data x .ALL true).1 ∧ single_part (import_data x .ALL false).1 ∧
      (export_data (import_data x .ALL true).1 .ALL true).1 = lit "A: b\r\n d\r\n\r\n" ∧
      (export_data (import_data x .ALL false).1 .ALL true).1 = lit "A: b\r\n\r\n" ∧
      lit "A: b\r\n d\r\n\r\n" ≠ lit "A: b\r\n\r\n" := by
  have hkept := import_data_lines .ALL true Flag.noConfusion
    (lit "A: b\r\n:c\r\n d\r\n\r\n") (by decide)
  have hall := import_data_lines .ALL false Flag.noConfusion
    (lit "A: b\r\n:c\r\n d\r\n\r\n") (by decide)
  dsimp only
  rw [hkept, hall]
  unfold single_part
  decide +kernel

end Aos
