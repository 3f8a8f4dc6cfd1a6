/-
  Aos.Mime.Rendered — a field that is written out, and its parameters looked up.

  `get_parameter` cuts the text of a field at every ';', whether it stands in
  quotes or not, and takes the quotes off the pieces then.

  Main results:
    • `read_parameters` — values without a ';' are read as they were written,
      folded or not;
    • `label_parameter`, `key_parameter` — what is looked up then;
    • `parameters_read_iff` — so a field is read back if no parameter holds a ';'
      and the value in front is not one in quotes.
-/
import Aos.Mime.SetCharset

namespace Aos

/-! ## §1. Fields with quoted parameters. -/

/-- `; key="value"`, or folded behind the ';'. -/
structure Rendered_Parameter where
  folded : Bool
  blanks : Bytes
  key : Bytes
  value : Bytes
  blanks_ne : blanks ≠ []
  blanks_ok : ∀ c ∈ blanks, c = SP ∨ c = TAB
  key_ne : key ≠ []
  key_ok : ∀ c ∈ key, token_char c
  value_ok : ∀ c ∈ value, c ≠ QUOTE ∧ c ≠ 92 ∧ c ≠ CR ∧ c ≠ LF

namespace Rendered_Parameter

/-- The value in quotes. -/
def quoted (p : Rendered_Parameter) : Bytes := QUOTE :: (p.value ++ [QUOTE])

theorem quoted_ne (p : Rendered_Parameter) : p.quoted ≠ [] := List.cons_ne_nil _ _

/-- What stands behind the ';'. -/
def text (p : Rendered_Parameter) : Bytes :=
  (if p.folded then [CR, LF] else []) ++ (p.blanks ++ p.key ++ 61 :: p.quoted)

/-- The key in lower case. -/
def lower_key (p : Rendered_Parameter) : List Int := p.key.map fun c => tolower (schar c)

end Rendered_Parameter

/-- The parameters, each behind a ';'. -/
def parameters_text : List Rendered_Parameter → Bytes
  | [] => []
  | p :: ps => 59 :: (p.text ++ parameters_text ps)

/-- `Name: value; key="value"; ...` -/
structure Rendered_Field where
  name : Bytes
  value : Bytes
  parameters : List Rendered_Parameter
  name_ne : name ≠ []
  name_ok : ∀ c ∈ name, 33 ≤ c.toNat ∧ c.toNat ≤ 126 ∧ c ≠ HIDDEN_HEADER_CHAR
  value_ok : ∀ c ∈ value, c ∉ lit ";\r\n"
  value_trimmed : trim value = value
  distinct : parameters.Pairwise fun p q => p.lower_key ≠ q.lower_key

namespace Rendered_Field

/-- The name with its colon. -/
def label (f : Rendered_Field) : Bytes := f.name ++ [HIDDEN_HEADER_CHAR]

def text (f : Rendered_Field) : Bytes :=
  f.label ++ SP :: (f.value ++ (parameters_text f.parameters ++ [CR, LF]))

/-- The value in front begins and ends with a quote. -/
def value_in_quotes (f : Rendered_Field) : Prop :=
  f.value.length > 1 ∧ f.value.head? = some QUOTE ∧ f.value.head? = f.value.getLast?

end Rendered_Field

/-! ## §2. Reading the parameters. -/

/-- A quote at the end is taken off. -/
theorem trim_char_shorter {ch : Byte} {str : Bytes} (h : str.getLast? = some ch) :
    (trim_char ch str).length < str.length := by
  obtain ⟨front, rfl⟩ := List.getLast?_eq_some_iff.mp h
  have hright : (rtrim_char ch (front ++ [ch])).length ≤ front.length := by
    have hdrop := (List.dropWhile_suffix (l := front.reverse) (· = ch)).length_le
    unfold rtrim_char
    rw [List.reverse_concat, List.dropWhile_cons_of_pos (by simp), List.length_reverse]
    rwa [List.length_reverse] at hdrop
  have hleft := (List.dropWhile_suffix (l := rtrim_char ch (front ++ [ch])) (· = ch)).length_le
  rw [List.length_append, List.length_singleton]
  exact Nat.lt_succ_of_le (hleft.trans hright)

namespace Rendered_Parameter

variable (p : Rendered_Parameter)

theorem key_trim : trim (p.blanks ++ p.key) = p.key := by
  have hblank : ∀ c ∈ p.blanks, TRIM_CM.has c = true := by
    intro c hc
    rw [has_trim]
    rcases p.blanks_ok c hc with rfl | rfl <;> decide
  have haround := trim_around (b := []) hblank (fun c hc => absurd hc List.not_mem_nil)
    (fun c hhead => token_not_trimmed (p.key_ok c (List.mem_of_mem_head? hhead)))
    (fun c hlast => token_not_trimmed (p.key_ok c (List.mem_of_getLast? hlast))) p.key_ne
  rwa [List.append_nil] at haround

theorem key_no_nul : NUL ∉ p.key := by
  have hnul : ¬ token_char NUL := by decide
  exact fun hmem => hnul (p.key_ok NUL hmem)

/-- **The quotes are taken off.** -/
theorem quoted_value : param_value p.quoted = p.value := by
  have hquote : TRIM_CM.has QUOTE = false := by decide
  have hlast : p.quoted.getLast? = some QUOTE :=
    List.getLast?_concat (l := QUOTE :: p.value)
  have htrim : trim p.quoted = p.quoted := by
    refine trim_of_ends (fun c hc => ?_) fun c hc => ?_
    · obtain rfl := Option.some.inj hc
      exact hquote
    · rw [hlast] at hc
      obtain rfl := Option.some.inj hc
      exact hquote
  have hlong : p.quoted.length > 1 := by
    unfold quoted
    rw [List.length_cons, List.length_append, List.length_singleton]
    omega
  -- nothing but the two quotes is taken off
  have hkeep : ∀ s t : Bytes, s ≠ [] → (∀ c ∈ s, c ∈ p.value) →
      (QUOTE :: (s ++ t)).dropWhile (· = QUOTE) = s ++ t := by
    intro s t hne hs
    obtain ⟨c, s, rfl⟩ := List.exists_cons_of_ne_nil hne
    have hc := (p.value_ok c (hs c List.mem_cons_self)).1
    rw [List.dropWhile_cons_of_pos (by simp), List.cons_append,
      List.dropWhile_cons_of_neg (by simpa using hc)]
  have hback : p.quoted.reverse = QUOTE :: (p.value.reverse ++ [QUOTE]) := by
    unfold quoted
    rw [List.reverse_cons, List.reverse_append, List.reverse_singleton]
    rfl
  unfold param_value
  dsimp only
  rw [htrim, if_pos ⟨hlong, rfl, hlast.symm⟩]
  unfold trim_char rtrim_char ltrim_char
  rw [hback]
  by_cases hne : p.value = []
  · rw [hne]
    decide
  · rw [hkeep _ _ (by simpa using hne) fun c hc => List.mem_reverse.mp hc, List.reverse_append,
      List.reverse_reverse]
    have hfront := hkeep p.value [] hne fun c hc => hc
    rwa [List.append_nil] at hfront

end Rendered_Parameter

/-- What the reader makes of the parameters. -/
def read_as (ps : List Rendered_Parameter) : List Parameter :=
  ps.map fun p => (p.blanks ++ p.key, p.quoted)

/-- **Parameters without a ';' in their values** are read as they were written, behind a
    value that ends where they begin. -/
theorem read_parameters {ps : List Rendered_Parameter} (hps : ∀ p ∈ ps, 59 ∉ p.value) :
    ∀ (qs : List Parameter) (key value : Bytes), value ≠ [] →
      ((Field_Reader.mk qs (some key) value).read (parameters_text ps ++ [CR, LF])).all
        = qs ++ (key, value) :: read_as ps := by
  induction ps with
  | nil =>
      intro qs key value _
      rw [parameters_text, List.nil_append, Field_Reader.read_breaks_all
        fun c hc => (mem_breaks c).mpr (List.mem_pair.mp hc)]
      rfl
  | cons p ps ih =>
      intro qs key value hne
      have hblank : ∀ c ∈ p.blanks ++ p.key, c ∉ lit "=\r\n" := by
        intro c hc hend
        rw [mem_key_ends] at hend
        rcases List.mem_append.mp hc with hc | hc
        · rcases p.blanks_ok c hc with rfl | rfl <;> exact absurd hend (by decide)
        · have htoken := p.key_ok c hc
          rcases hend with rfl | rfl | rfl <;> exact absurd htoken (by decide)
      have hquoted : ∀ c ∈ p.quoted, c ∉ lit ";\r\n" := by
        intro c hc hend
        rw [mem_value_ends] at hend
        have hcases : c = QUOTE ∨ c ∈ p.value := by
          simpa [Rendered_Parameter.quoted, or_comm] using hc
        rcases hcases with rfl | hc
        · exact absurd hend (by decide)
        · rcases hend with rfl | rfl | rfl
          · exact hps p List.mem_cons_self hc
          · exact (p.value_ok CR hc).2.2.1 rfl
          · exact (p.value_ok LF hc).2.2.2 rfl
      have hsemi : (Field_Reader.mk qs (some key) value).read
          (59 :: (p.text ++ (parameters_text ps ++ [CR, LF])))
          = (Field_Reader.mk (qs ++ [(key, value)]) none []).read
            (p.text ++ (parameters_text ps ++ [CR, LF])) :=
        Field_Reader.read_close _ hne ((mem_value_ends 59).mpr (Or.inl rfl)) _
      have hfold : (Field_Reader.mk (qs ++ [(key, value)]) none []).read
          (if p.folded then [CR, LF] else []) = ⟨qs ++ [(key, value)], none, []⟩ := by
        refine Field_Reader.read_separators _ rfl fun c hc => (mem_key_ends c).mpr (Or.inr ?_)
        split_ifs at hc
        · exact List.mem_pair.mp hc
        · exact absurd hc List.not_mem_nil
      have hkey : (Field_Reader.mk (qs ++ [(key, value)]) none []).read (p.blanks ++ p.key)
          = ⟨qs ++ [(key, value)], none, p.blanks ++ p.key⟩ := Field_Reader.read_token _ hblank
      have hequal : (Field_Reader.mk (qs ++ [(key, value)]) none (p.blanks ++ p.key)).read
          (61 :: p.quoted)
          = (Field_Reader.mk (qs ++ [(key, value)]) (some (p.blanks ++ p.key)) []).read p.quoted :=
        Field_Reader.read_close _ (by simp [p.key_ne]) ((mem_key_ends 61).mpr (Or.inl rfl)) _
      have hvalue : (Field_Reader.mk (qs ++ [(key, value)]) (some (p.blanks ++ p.key)) []).read
          p.quoted = ⟨qs ++ [(key, value)], some (p.blanks ++ p.key), p.quoted⟩ :=
        Field_Reader.read_token _ hquoted
      have htext : (Field_Reader.mk (qs ++ [(key, value)]) none []).read p.text
          = ⟨qs ++ [(key, value)], some (p.blanks ++ p.key), p.quoted⟩ := by
        rw [Rendered_Parameter.text, Field_Reader.read_append, hfold, Field_Reader.read_append,
          hkey, hequal, hvalue]
      rw [parameters_text, List.cons_append, List.append_assoc, hsemi,
        Field_Reader.read_append _ p.text, htext,
        ih (fun q hq => hps q (List.mem_cons_of_mem p hq)) _ _ _ p.quoted_ne, List.append_assoc]
      rfl

/-! ## §3. Looking one up. -/

/-- The value of the only parameter with the name. -/
theorem lookup_only {name : Bytes} {p : Parameter} {ps : List Parameter} (hp : p ∈ ps)
    (hname : is_named name p.1) (honly : ∀ q ∈ ps, is_named name q.1 → q = p) :
    lookup name ps = param_value p.2 := by
  induction ps with
  | nil => exact absurd hp List.not_mem_nil
  | cons q ps ih =>
      rw [lookup]
      by_cases hq : is_named name q.1
      · rw [if_pos hq, honly q List.mem_cons_self hq]
      · rw [if_neg hq]
        rcases List.mem_cons.mp hp with rfl | hp
        · exact absurd hname hq
        · exact ih hp fun r hr => honly r (List.mem_cons_of_mem q hr)

namespace Rendered_Field

variable (f : Rendered_Field)

theorem label_trim : trim f.label = f.label := by
  refine trim_of_ends (fun c hc => ?_) fun c hc => ?_
  · have hmem : c ∈ f.name := by
      obtain ⟨d, name, hname⟩ := List.exists_cons_of_ne_nil f.name_ne
      unfold label at hc
      rw [hname] at hc ⊢
      obtain rfl := Option.some.inj hc
      exact List.mem_cons_self
    have hlow := (f.name_ok c hmem).1
    rw [has_trim, decide_eq_false_iff_not]
    intro htrim
    have hhigh : c.toNat ≤ 32 := by
      rcases htrim with rfl | rfl | rfl | rfl | rfl | rfl <;> decide
    omega
  · have hlast : f.label.getLast? = some HIDDEN_HEADER_CHAR := List.getLast?_concat
    rw [hlast] at hc
    obtain rfl := Option.some.inj hc
    decide

/-- The colon behind the name is the first one. -/
theorem colon : f.text.findIdx? (· = HIDDEN_HEADER_CHAR) = some f.name.length := by
  have hname : f.name.findIdx? (· = HIDDEN_HEADER_CHAR) = none := by
    rw [List.findIdx?_eq_none_iff]
    exact fun c hc => decide_eq_false (f.name_ok c hc).2.2
  unfold text label
  rw [List.append_assoc, List.findIdx?_append, hname, List.singleton_append, List.findIdx?_cons]
  simp

theorem no_nul : NUL ∉ f.label := by
  intro hmem
  rcases List.mem_append.mp hmem with hmem | hmem
  · exact absurd (f.name_ok NUL hmem).1 (by decide)
  · exact absurd hmem (by decide)

theorem take_label : f.text.take (f.name.length + 1) = f.label := by
  have hlen : f.name.length + 1 = f.label.length := by
    rw [label, List.length_append, List.length_singleton]
  rw [hlen]
  exact List.take_left

/-- The parameters of a field are those it is written from. -/
theorem parameters_text_read (hps : ∀ p ∈ f.parameters, 59 ∉ p.value) :
    field_parameters f.text = (f.label, SP :: f.value) :: read_as f.parameters := by
  have hlen : f.name.length + 1 = f.label.length := by
    rw [label, List.length_append, List.length_singleton]
  have hdrop : f.text.drop (f.name.length + 1)
      = SP :: f.value ++ (parameters_text f.parameters ++ [CR, LF]) := by
    rw [hlen]
    exact List.drop_left
  have hvalue : (Field_Reader.colon f.label).read (SP :: f.value)
      = ⟨[], some f.label, SP :: f.value⟩ := by
    refine Field_Reader.read_token _ fun c hc => ?_
    rcases List.mem_cons.mp hc with rfl | hc
    · exact fun hmem => absurd ((mem_value_ends SP).mp hmem) (by decide)
    · exact f.value_ok c hc
  unfold field_parameters
  rw [f.colon]
  dsimp only
  rw [f.take_label, hdrop, Field_Reader.read_append, hvalue,
    read_parameters hps _ _ _ (List.cons_ne_nil _ _)]
  rfl

/-- A key is not the label, which ends with a colon. -/
theorem key_ne_label (p : Rendered_Parameter) : strcasecmp p.key f.label ≠ 0 := by
  intro heq
  have hlower := lower_of_strcasecmp _ _ p.key_no_nul f.no_nul heq
  have hcolon : tolower (schar HIDDEN_HEADER_CHAR) ∈ p.key.map fun c => tolower (schar c) := by
    rw [hlower]
    exact List.mem_map_of_mem (List.mem_append_right f.name List.mem_cons_self)
  obtain ⟨c, hc, hfold⟩ := List.mem_map.mp hcolon
  have htoken := p.key_ok c hc
  have h58 : c = HIDDEN_HEADER_CHAR := by
    have hval : tolower (schar HIDDEN_HEADER_CHAR) = 58 := by decide
    have hlow := htoken.1
    have hhigh := htoken.2.1
    rw [hval] at hfold
    unfold tolower schar at hfold
    refine UInt8.toNat_inj.mp ?_
    show c.toNat = 58
    split_ifs at hfold <;> omega
  rw [h58] at htoken
  exact absurd htoken (by decide)

/-- The value behind the label is read as it is, unless it is one in quotes. -/
theorem value_read_iff : param_value (SP :: f.value) = f.value ↔ ¬ f.value_in_quotes := by
  have htrim : trim (SP :: f.value) = f.value := by
    by_cases hne : f.value = []
    · rw [hne]
      decide
    · have hblank : ∀ c ∈ [SP], TRIM_CM.has c = true := by
        intro c hc
        rw [List.mem_singleton.mp hc]
        decide
      obtain ⟨hfirst, hlast⟩ := trimmed_ends f.value_trimmed
      have haround := trim_around (b := []) hblank (fun c hc => absurd hc List.not_mem_nil)
        hfirst hlast hne
      rwa [List.append_nil] at haround
  unfold param_value
  rw [htrim]
  constructor
  · intro h hquotes
    have hread : trim_char QUOTE f.value = f.value := (if_pos hquotes).symm.trans h
    have hshort := trim_char_shorter (hquotes.2.2.symm.trans hquotes.2.1)
    rw [hread] at hshort
    exact lt_irrefl _ hshort
  · exact fun hplain => if_neg hplain

/-- The text in front of the value is trimmed already. -/
theorem front_trim : ∀ colon, f.text.findIdx? (· = HIDDEN_HEADER_CHAR) = some colon →
    trim (f.text.take (colon + 1)) = f.text.take (colon + 1) := by
  intro colon hcolon
  rw [f.colon] at hcolon
  obtain rfl := Option.some.inj hcolon
  rw [f.take_label, f.label_trim]

/-- A name that is not empty is asked for. -/
theorem asked {name : Bytes} (hnul : NUL ∉ name) (hne : name ≠ []) : strcasecmp name [] ≠ 0 := by
  intro heq
  have hnil := lower_of_strcasecmp _ _ hnul List.not_mem_nil heq
  exact hne (List.map_eq_nil_iff.mp hnil)

theorem strcasecmp_self (s : Bytes) : strcasecmp s s = 0 := strcasecmp_of_lower s s rfl

section Plain

variable {f} (hps : ∀ p ∈ f.parameters, 59 ∉ p.value)

include hps

/-- What is read for the label. -/
theorem label_parameter : get_parameter f.text f.label = param_value (SP :: f.value) := by
  rw [get_parameter_read (asked f.no_nul (by simp [label])) f.text f.front_trim,
    f.parameters_text_read hps, lookup, if_pos]
  rw [is_named, f.label_trim]
  exact strcasecmp_self f.label

/-- What is read for a key. -/
theorem key_parameter {p : Rendered_Parameter} (hp : p ∈ f.parameters) :
    get_parameter f.text p.key = p.value := by
  have hread := f.parameters_text_read hps
  have hin : (p.blanks ++ p.key, p.quoted) ∈ field_parameters f.text := by
    rw [hread]
    exact List.mem_cons_of_mem _ (List.mem_map_of_mem hp)
  rw [get_parameter_read (asked p.key_no_nul p.key_ne) f.text f.front_trim, lookup_only hin,
    p.quoted_value]
  · rw [is_named, p.key_trim]
    exact strcasecmp_self p.key
  · -- no other parameter has the key, and the label has not
    intro q hq hname
    rw [hread] at hq
    rcases List.mem_cons.mp hq with rfl | hq
    · rw [is_named, f.label_trim] at hname
      exact absurd hname (f.key_ne_label p)
    · obtain ⟨p', hp', rfl⟩ := List.mem_map.mp hq
      rw [is_named, p'.key_trim] at hname
      have hlower := lower_of_strcasecmp _ _ p.key_no_nul p'.key_no_nul hname
      by_contra hne
      have hapart : p ≠ p' := fun heq => hne (by rw [heq])
      have : Std.Symm fun p q : Rendered_Parameter => p.lower_key ≠ q.lower_key :=
        ⟨fun _ _ => Ne.symm⟩
      exact f.distinct.forall hp hp' hapart hlower

end Plain

/-- **The whole field is read back** if no value of a parameter holds a ';' and the value in
    front is not one in quotes. -/
theorem parameters_read_iff :
    ((∀ p ∈ f.parameters, get_parameter f.text p.key = p.value) ∧
        get_parameter f.text f.label = f.value) ↔
      (∀ p ∈ f.parameters, 59 ∉ p.value) ∧ ¬ f.value_in_quotes := by
  constructor
  · intro h
    have hps : ∀ p ∈ f.parameters, 59 ∉ p.value := by
      intro p hp hsemi
      -- no value that is returned holds a ';'
      have hno := get_parameter_no_break f.text p.key 59
      rw [h.1 p hp] at hno
      exact hno hsemi (show (59 : Byte) ∈ c_str (lit ";\r\n") by decide)
    exact ⟨hps, f.value_read_iff.mp ((label_parameter hps).symm.trans h.2)⟩
  · intro h
    obtain ⟨hps, hplain⟩ := h
    exact ⟨fun p hp => key_parameter hps hp,
      (label_parameter hps).trans (f.value_read_iff.mpr hplain)⟩

end Rendered_Field

/-- A file name with a ';' in it. -/
def semicolon_field : Rendered_Field where
  name := lit "Content-Disposition"
  value := lit "attachment"
  parameters :=
    [{ folded := false, blanks := lit " ", key := lit "filename", value := lit "a;b.txt",
       blanks_ne := by decide +kernel, blanks_ok := by decide +kernel, key_ne := by decide +kernel,
       key_ok := by decide +kernel, value_ok := by decide +kernel }]
  name_ne := by decide +kernel
  name_ok := by decide +kernel
  value_ok := by decide +kernel
  value_trimmed := by decide +kernel
  distinct := List.pairwise_singleton _ _

/-- The name is cut at the ';', and keeps its first quote. -/
theorem semicolon_cuts : get_parameter semicolon_field.text (lit "filename") = lit "\"a" ∧
    ¬ ((∀ p ∈ semicolon_field.parameters, get_parameter semicolon_field.text p.key = p.value) ∧
      get_parameter semicolon_field.text semicolon_field.label = semicolon_field.value) := by
  have hcut : get_parameter semicolon_field.text (lit "filename") = lit "\"a" := by
    decide +kernel
  refine ⟨hcut, fun h => ?_⟩
  have hwhole := h.1 _ List.mem_cons_self
  exact absurd (hcut.symm.trans hwhole) (by decide +kernel)

end Aos
