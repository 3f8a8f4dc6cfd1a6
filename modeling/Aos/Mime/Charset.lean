/-
  Aos.Mime.Charset — the charset that is set and the charset that is read.

  The setter knows nothing of parameters; the getter goes through them.  What the
  getter finds in the field that was written depends on where its reader stands at
  the end of the front: at the begin of a value, or in the midst of one (`spot`).

  Main results:
    • `field_parameters_set` — the parameters that are read in the field that is
      written;
    • `lookup_appended`, `field_parameters_replaced` — which of them were there
      before;
    • `observed_field_iff`, `set_charset_iff` — when the name that is set is the name
      that is read;
    • `placed_plain`, `placed_appended` — so in a field in plain layout.
-/
import Aos.Mime.Import
import Aos.Mime.SetCharset

namespace Aos

/-! ## §1. The parameters of a "content-type:" field. -/

section Field

variable {it : Bytes} (h : is_content_type it)
include h

theorem field_trim : trim (it.take 13) = it.take 13 := by
  have hname := field_name h
  have hhas : ∀ c, tolower_char c = 99 ∨ tolower_char c = 58 → TRIM_CM.has c = false := by
    have hall : ∀ n < 256, tolower_char (UInt8.ofNat n) = 99 ∨ tolower_char (UInt8.ofNat n) = 58 →
        TRIM_CM.has (UInt8.ofNat n) = false := by decide +kernel
    intro c hc
    have h := hall c.toNat c.toNat_lt
    rw [UInt8.ofNat_toNat] at h
    exact h hc
  refine trim_of_ends ?_ ?_
  · intro c hc
    have hfirst := congrArg List.head? hname
    rw [tolower_str, List.head?_map, hc] at hfirst
    have hlit : (lit "content-type:").head? = some 99 := by decide
    exact hhas c (Or.inl (Option.some.inj (hfirst.trans hlit)))
  · intro c hc
    have hlast := congrArg List.getLast? hname
    rw [tolower_str, List.getLast?_map, hc] at hlast
    have hlit : (lit "content-type:").getLast? = some 58 := by decide
    exact hhas c (Or.inr (Option.some.inj (hlast.trans hlit)))

/-- The parameters of the field, behind its name. -/
theorem field_parameters_eq :
    field_parameters it = ((Field_Reader.colon (it.take 13)).read (it.drop 13)).all := by
  unfold field_parameters
  rw [field_colon h]

/-- The getters look names up in the parameters. -/
theorem get_parameter_field {name : Bytes} (hname : strcasecmp name [] ≠ 0) :
    get_parameter it name = lookup name (field_parameters it) := by
  refine get_parameter_read hname it ?_
  intro colon hcolon
  rw [field_colon h] at hcolon
  obtain rfl := Option.some.inj hcolon
  exact field_trim h

theorem named_content_type : is_named (lit "content-type:") (it.take 13) := by
  have hlower := lower_of_strncasecmp 13 it (lit "content-type:") h (by decide)
    (by decide)
  have htake : (lit "content-type:").take 13 = lit "content-type:" := by decide
  rw [htake] at hlower
  unfold is_named
  rw [field_trim h]
  exact strcasecmp_of_lower _ _ hlower.symm

end Field

/-- The getters stop at the first field of the name. -/
theorem header_parameter_found {pre post : MIME_Header_List} {it name : Bytes}
    (hpre : ∀ a ∈ pre, ¬ is_content_type a)
    (h : is_content_type it) (hname : strcasecmp name [] ≠ 0) :
    header_parameter (pre ++ it :: post) (lit "content-type:") 13 name
      = lookup name (field_parameters it) := by
  have hfind : (pre ++ it :: post).find? (fun it => strncasecmp it (lit "content-type:") 13 = 0)
      = some it := by
    rw [List.find?_eq_some_iff_append]
    refine ⟨decide_eq_true h, pre, post, rfl, ?_⟩
    intro a ha
    have hfalse : decide (strncasecmp a (lit "content-type:") 13 = 0) = false :=
      decide_eq_false (hpre a ha)
    rw [hfalse]
    rfl
  unfold header_parameter
  rw [hfind]
  exact get_parameter_field h hname

/-! ## §2. Where the reader stands. -/

/-- The reader at the end of the front. -/
def at_front (it : Bytes) : Field_Reader :=
  (Field_Reader.colon (it.take 13)).read ((written_front it).drop 13)

/-- It goes on from there. -/
theorem at_front_read (it s : Bytes) :
    (Field_Reader.colon (it.take 13)).read ((written_front it).drop 13 ++ s)
      = (at_front it).read s := Field_Reader.read_append _ _ _

/-- The parameter that the name is written into, and those around it. -/
structure Spot where
  before : List Parameter
  key : Bytes
  /-- what stands in front of the name in its value -/
  pre : Bytes
  behind : List Parameter

def spot (it : Bytes) : Spot :=
  ⟨(at_front it).parameters, (at_front it).key.getD [], (at_front it).token,
    ((Field_Reader.next_key []).read (written_rest it).tail).all⟩

namespace Spot

/-- The parameters that the name is not written into. -/
def others (s : Spot) : List Parameter := s.before ++ s.behind

/-- A search for `name` ends at the parameter that the name is written into. -/
def holds (s : Spot) (name : Bytes) : Prop :=
  is_named name s.key ∧ ∀ p ∈ s.before, ¬ is_named name p.1

instance (s : Spot) (name : Bytes) : Decidable (s.holds name) :=
  inferInstanceAs (Decidable (_ ∧ _))

/-- The parameters, with `value` written into the spot. -/
def parameters (s : Spot) (value : Bytes) : List Parameter :=
  s.before ++ (s.key, s.pre ++ value) :: s.behind

/-- **What is looked up in the spot, and what is looked up around it.** -/
theorem lookup_parameters (s : Spot) (name value : Bytes) :
    lookup name (s.parameters value)
      = if s.holds name then param_value (s.pre ++ value) else lookup name s.others := by
  unfold parameters others
  by_cases hbefore : ∃ p ∈ s.before, is_named name p.1
  · rw [lookup_append_of_mem _ hbefore, lookup_append_of_mem _ hbefore, if_neg]
    rintro ⟨-, hnot⟩
    obtain ⟨p, hp, hname⟩ := hbefore
    exact hnot p hp hname
  · have hnot : ∀ p ∈ s.before, ¬ is_named name p.1 := fun p hp hname => hbefore ⟨p, hp, hname⟩
    rw [lookup_append_of_not _ hnot, lookup_append_of_not _ hnot, lookup]
    by_cases hkey : is_named name s.key
    · rw [if_pos hkey, if_pos ⟨hkey, hnot⟩]
    · rw [if_neg hkey, if_neg fun hholds => hkey hholds.1]

end Spot

/-- What the setter appends itself holds no parameter. -/
theorem breaks_hold_nothing {s : Bytes} (hs : ∀ c ∈ s, c ∈ lit "\r\n") :
    ((Field_Reader.next_key []).read s).all = [] :=
  Field_Reader.read_breaks_all hs _

/-- A reader that takes "; charset=" or " charset=" for the end of a key has ended the
    value in front of it. -/
theorem appended_reader {r : Field_Reader} {sep : Bytes} (hsep : sep = [] ∨ sep = lit ";")
    (hempty : (r.read (sep ++ lit " charset=")).token = []) (name : Bytes) :
    lookup name (r.read (sep ++ lit " charset=")).parameters = lookup name r.all := by
  have hkey : ∀ (ps : List Parameter) (token : Bytes),
      (Field_Reader.mk ps none token).read (lit " charset=")
        = ⟨ps, some (token ++ lit " charset"), []⟩ := by
    intro ps token
    have hlit : lit " charset=" = lit " charset" ++ [61] := by decide
    have hno : ∀ c ∈ lit " charset", c ∉ lit "=\r\n" := by
      simp only [mem_key_ends]
      decide +kernel
    have hequal : (61 : Byte) ∈ lit "=\r\n" := (mem_key_ends 61).mpr (Or.inl rfl)
    have htoken : (Field_Reader.mk ps none token).read (lit " charset")
        = ⟨ps, none, token ++ lit " charset"⟩ := Field_Reader.read_token _ hno
    rw [hlit, Field_Reader.read_append, htoken]
    exact Field_Reader.read_close _ (by simp [lit]) hequal []
  have hvalue : ∀ (ps : List Parameter) (key token : Bytes),
      ((Field_Reader.mk ps (some key) token).read (lit " charset=")).token ≠ [] := by
    intro ps key token
    have hno : ∀ c ∈ lit " charset=", c ∉ lit ";\r\n" := by
      simp only [mem_value_ends]
      decide +kernel
    rw [Field_Reader.read_token _ hno]
    simp [lit]
  have hsemi : lit ";" = [59] ∧ (59 : Byte) ∈ lit ";\r\n" ∧ (59 : Byte) ∉ lit "=\r\n" := by
    rw [mem_value_ends, mem_key_ends]
    decide +kernel
  obtain ⟨ps, key, token⟩ := r
  rw [Field_Reader.read_append] at hempty ⊢
  cases key with
  | none =>
      -- the text is the rest of a key: what there was of it had no value
      have hread : ∃ token', (Field_Reader.mk ps none token).read sep = ⟨ps, none, token'⟩ := by
        rcases hsep with rfl | rfl
        · exact ⟨token, rfl⟩
        · rw [hsemi.1]
          exact ⟨token ++ [59], Field_Reader.read_token _ (by
            rw [List.forall_mem_singleton]
            exact hsemi.2.2)⟩
      obtain ⟨token', hread⟩ := hread
      rw [hread, hkey]
      unfold Field_Reader.all
      dsimp only
      split_ifs
      · rfl
      · rw [lookup_valueless]
  | some key =>
      rcases hsep with rfl | rfl
      · exact absurd hempty (hvalue ps key token)
      rw [hsemi.1] at hempty ⊢
      by_cases htoken : token = []
      · -- the ';' is skipped
        have hskip : (Field_Reader.mk ps (some key) token).read [59] = ⟨ps, some key, token⟩ := by
          refine Field_Reader.read_separators _ htoken ?_
          rw [List.forall_mem_singleton]
          exact hsemi.2.1
        rw [hskip] at hempty
        exact absurd hempty (hvalue ps key token)
      · -- the ';' ends the value
        have hclose : (Field_Reader.mk ps (some key) token).read [59]
            = ⟨ps ++ [(key, token)], none, []⟩ := Field_Reader.read_close _ htoken hsemi.2.1 []
        rw [hclose, hkey]
        rfl

section Field

variable {it : Bytes} (h : is_content_type it)
include h

/-- **The reader stands in a value**, at its begin or behind an '='. -/
theorem at_front_value : ∃ ps key pre, at_front it = ⟨ps, some key, pre⟩ ∧
    (pre = [] ∨ (61 : Byte) ∈ pre) := by
  obtain ⟨g, c, hfront, hequal, hc⟩ := front_end h
  unfold at_front
  rw [hfront, Field_Reader.read_append]
  generalize (Field_Reader.colon (it.take 13)).read g = r
  obtain ⟨ps, key, token⟩ := r
  cases key with
  | none =>
      have hno : c ∉ lit "=\r\n" := by
        rw [mem_value_ends, not_or] at hc
        rw [mem_key_ends, not_or]
        exact ⟨hequal, hc.2⟩
      have htoken : (Field_Reader.mk ps none token).read [c] = ⟨ps, none, token ++ [c]⟩ :=
        Field_Reader.read_token _ (by rwa [List.forall_mem_singleton])
      rw [show [c, (61 : Byte)] = [c] ++ [61] from rfl, Field_Reader.read_append, htoken]
      exact ⟨ps, token ++ [c], [],
        Field_Reader.read_close _ (by simp) ((mem_key_ends 61).mpr (Or.inl rfl)) [], Or.inl rfl⟩
  | some key =>
      have hno : ∀ d ∈ [c, (61 : Byte)], d ∉ lit ";\r\n" := by
        intro d hd
        rcases List.mem_pair.mp hd with rfl | rfl
        · exact hc
        · rw [mem_value_ends]
          decide
      exact ⟨ps, key, token ++ [c, 61], Field_Reader.read_token _ hno, Or.inr (by simp)⟩

/-- **The parameters that are read in the field that is written.** -/
theorem field_parameters_set {charset : Bytes} (hc : Charset_Name charset) :
    field_parameters (set_charset_field it charset) = (spot it).parameters charset := by
  obtain ⟨htake, hdrop⟩ := set_charset_field_name h charset
  obtain ⟨ps, key, pre, hat, -⟩ := at_front_value h
  obtain ⟨b, more, hrest, hb⟩ := rest_break it
  have hname : (Field_Reader.mk ps (some key) pre).read charset = ⟨ps, some key, pre ++ charset⟩ :=
    Field_Reader.read_token _ (charset_no_break hc)
  have hclose : (Field_Reader.mk ps (some key) (pre ++ charset)).read (b :: more)
      = (Field_Reader.mk (ps ++ [(key, pre ++ charset)]) none []).read more :=
    Field_Reader.read_close _ (by simp [hc.ne]) hb more
  rw [field_parameters_eq (set_charset_field_content_type h charset), htake, hdrop,
    at_front_read, hat, Field_Reader.read_append, hname, hrest, hclose, Field_Reader.all_before]
  unfold Spot.parameters spot
  rw [hat, hrest]
  exact List.append_assoc _ _ _

/-! ### What was there before. -/

/-- The text that a name replaces stands behind the front. -/
theorem replaced_split {old : Bytes} (hold : replaced it = some old) :
    ∃ behind, it.drop 13 = (written_front it).drop 13 ++ (old ++ behind) ∧
      (∀ c ∈ old, c ∉ lit ";\r\n") ∧
      written_rest it = if behind = [] then lit ";\r\n" else behind := by
  unfold replaced at hold
  unfold written_front written_rest
  cases hfind : str_find (tolower_str it) (lit "charset=") with
  | none =>
      rw [hfind] at hold
      exact absurd hold (by simp)
  | some pos =>
      obtain ⟨h13, -⟩ := find_behind_name h hfind
      rw [hfind, Option.map_some, Option.some.injEq] at hold
      refine ⟨(it.drop (pos + 8)).dropWhile (· ∉ lit ";\r\n"), ?_, ?_, rfl⟩
      · dsimp only
        rw [← hold, List.takeWhile_append_dropWhile]
        conv_lhs => rw [← List.take_append_drop (pos + 8) it]
        rw [List.drop_append_of_le_length]
        rw [List.length_take]
        have := find_behind_name h hfind
        omega
      · intro c hc
        rw [← hold] at hc
        simpa using List.mem_takeWhile_imp hc

/-- **A value that is replaced stood in the spot.** -/
theorem field_parameters_replaced {old : Bytes} (hold : replaced it = some old)
    (hne : (spot it).pre ++ old ≠ []) :
    field_parameters it = (spot it).parameters old := by
  obtain ⟨behind, hdrop, hno, hrest⟩ := replaced_split h hold
  obtain ⟨ps, key, pre, hat, -⟩ := at_front_value h
  have htoken : (Field_Reader.mk ps (some key) pre).read old = ⟨ps, some key, pre ++ old⟩ :=
    Field_Reader.read_token _ hno
  obtain ⟨b, more, hcons, hb⟩ := rest_break it
  have hpre : (spot it).pre = pre := by
    unfold spot
    rw [hat]
  rw [hpre] at hne
  unfold Spot.parameters spot
  rw [field_parameters_eq h, hdrop, at_front_read, hat, Field_Reader.read_append, htoken]
  dsimp only [Option.getD_some]
  cases behind with
  | nil =>
      have htail : ∀ c ∈ (lit ";\r\n").tail, c ∈ lit "\r\n" := by
        have hlit : (lit ";\r\n").tail = lit "\r\n" := by decide
        exact fun c hc => hlit ▸ hc
      rw [hrest, if_pos rfl, breaks_hold_nothing htail]
      rfl
  | cons d behind =>
      rw [if_neg (List.cons_ne_nil d behind)] at hrest
      obtain ⟨rfl, rfl⟩ := List.cons.inj (hrest.symm.trans hcons)
      have hclose : (Field_Reader.mk ps (some key) (pre ++ old)).read (d :: behind)
          = (Field_Reader.mk (ps ++ [(key, pre ++ old)]) none []).read behind :=
        Field_Reader.read_close _ hne hb behind
      rw [hclose, Field_Reader.all_before, hrest]
      exact List.append_assoc _ _ _

/-- What stands in front of the spot stands in front of what was there. -/
theorem field_parameters_before {old : Bytes} (hold : replaced it = some old) :
    ∃ qs, field_parameters it = (spot it).before ++ qs := by
  obtain ⟨behind, hdrop, -, -⟩ := replaced_split h hold
  obtain ⟨ps, key, pre, hat, -⟩ := at_front_value h
  refine ⟨((Field_Reader.mk [] (some key) pre).read (old ++ behind)).all, ?_⟩
  rw [field_parameters_eq h, hdrop, at_front_read, hat, Field_Reader.all_before]
  unfold spot
  rw [hat]

/-- **A parameter of its own changes no other one.** -/
theorem lookup_appended (hnone : replaced it = none) (hpre : (spot it).pre = []) (name : Bytes) :
    lookup name (spot it).others = lookup name (field_parameters it) := by
  have hfind : str_find (tolower_str it) (lit "charset=") = none := Option.map_eq_none_iff.mp hnone
  have hlen := (name_in_line h).length_le
  rw [List.length_take, min_eq_left (field_length h)] at hlen
  have hsplit := List.rdropWhile_append_rtakeWhile (p := (· ∈ lit "\r\n")) (l := it)
  have htail : ∀ c ∈ it.rtakeWhile (· ∈ lit "\r\n"), c ∈ lit "\r\n" := by
    intro c hc
    simpa using List.mem_rtakeWhile_imp hc
  -- behind the name stands the line end
  have hbehind : (spot it).behind = [] := by
    have hrest : (written_rest it).tail = it.rtakeWhile (· ∈ lit "\r\n") := by
      unfold written_rest
      rw [hfind]
      rfl
    unfold spot
    rw [hrest]
    exact breaks_hold_nothing htail
  have hothers : (spot it).others = (at_front it).parameters := by
    unfold Spot.others
    rw [hbehind, List.append_nil]
    rfl
  -- in front of it, the line and what closes it
  have hfront : (written_front it).drop 13
      = (it.rdropWhile (· ∈ lit "\r\n")).drop 13
        ++ (closing (it.rdropWhile (· ∈ lit "\r\n")) ++ lit " charset=") := by
    unfold written_front
    rw [hfind]
    dsimp only
    rw [List.append_assoc, List.drop_append_of_le_length hlen]
  have hfield : field_parameters it
      = ((Field_Reader.colon (it.take 13)).read ((it.rdropWhile (· ∈ lit "\r\n")).drop 13)).all := by
    rw [field_parameters_eq h]
    have hdrop : it.drop 13 = (it.rdropWhile (· ∈ lit "\r\n")).drop 13
        ++ it.rtakeWhile (· ∈ lit "\r\n") := by
      conv_lhs => rw [← hsplit]
      exact List.drop_append_of_le_length hlen
    rw [hdrop, Field_Reader.read_append, Field_Reader.read_breaks_all htail]
  have hat : at_front it = ((Field_Reader.colon (it.take 13)).read
      ((it.rdropWhile (· ∈ lit "\r\n")).drop 13)).read
        (closing (it.rdropWhile (· ∈ lit "\r\n")) ++ lit " charset=") := by
    unfold at_front
    rw [hfront, Field_Reader.read_append]
  have hempty : (at_front it).token = [] := hpre
  rw [hothers, hfield]
  rw [hat] at hempty ⊢
  generalize (Field_Reader.colon (it.take 13)).read ((it.rdropWhile (· ∈ lit "\r\n")).drop 13) = r
    at hempty ⊢
  have hclosing := closing_cases (it.rdropWhile (· ∈ lit "\r\n"))
  generalize closing (it.rdropWhile (· ∈ lit "\r\n")) = sep at hclosing hempty ⊢
  exact appended_reader hclosing hempty name

end Field

/-- **The getter finds no charset in the field that the setter adds**: what the setter writes
    is the field's first value. -/
theorem added_field_charset {charset : Bytes} (hc : Charset_Name charset) :
    lookup (lit "charset") (field_parameters (added_field charset)) = [] := by
  obtain ⟨h, hadded⟩ := added_field_eq charset
  have hspot : ¬ (spot (lit "Content-Type: charset=;\r\n")).holds (lit "charset") ∧
      (spot (lit "Content-Type: charset=;\r\n")).others = [] := by decide +kernel
  rw [hadded, field_parameters_set h hc, Spot.lookup_parameters, if_neg hspot.1, hspot.2]
  rfl

/-! ## §3. When the name that is set is the name that is read. -/

/-- The name becomes the charset: the place where it is written is the whole value of the
    first parameter called charset.  A value that was empty had taken the next parameter
    for itself, which the boundary must not notice. -/
structure Placed (it : Bytes) : Prop where
  charset : (spot it).holds (lit "charset")
  whole : (spot it).pre = []
  boundary : replaced it = some [] →
    lookup (lit "boundary") (spot it).others = lookup (lit "boundary") (field_parameters it)

/-- The name is the charset already, by a parameter that the setter does not find; the
    text that it writes elsewhere is not noticed. -/
structure Already (it charset : Bytes) : Prop where
  elsewhere : ¬ (spot it).holds (lit "charset")
  reads : lookup (lit "charset") (spot it).others = charset
  kept : ∀ name ∈ [lit "content-type:", lit "boundary"],
    (if (spot it).holds name then param_value ((spot it).pre ++ charset)
      else lookup name (spot it).others) = lookup name (field_parameters it)

/-- What setting a charset should do. -/
structure Observed (e : MIME_Entity) (charset : Bytes) : Prop where
  read : (e.set_charset charset).get_charset = charset
  others : (∃ it ∈ e.header_, is_content_type it) →
    (e.set_charset charset).get_content_type = e.get_content_type ∧
      (e.set_charset charset).get_boundary = e.get_boundary
  again : ((e.set_charset charset).set_charset charset).header_
    = (e.set_charset charset).header_

/-- The names that are looked up. -/
theorem names_apart :
    (∀ name ∈ [lit "content-type:", lit "boundary", lit "charset"], strcasecmp name [] ≠ 0) ∧
      ∀ name ∈ [lit "content-type:", lit "boundary"], strcasecmp (lit "charset") name ≠ 0 := by
  decide +kernel

/-- A byte that is not trimmed stays in a value. -/
theorem param_value_keeps {val : Bytes} {c : Byte} (hc : c ∈ val) (htrim : TRIM_CM.has c = false)
    (hquote : c ≠ QUOTE) : c ∈ param_value val := by
  have hdrop : ∀ (p : Byte → Bool) (s : Bytes), c ∈ s → p c = false → c ∈ s.dropWhile p := by
    intro p s hs hp
    rw [← List.takeWhile_append_dropWhile (p := p) (l := s)] at hs
    rcases List.mem_append.mp hs with htake | hdrop
    · rw [List.mem_takeWhile_imp htake] at hp
      exact absurd hp (by decide)
    · exact hdrop
  have hback : ∀ (p : Byte → Bool) (s : Bytes), c ∈ s → p c = false →
      c ∈ (s.reverse.dropWhile p).reverse :=
    fun p s hs hp => List.mem_reverse.mpr (hdrop p _ (List.mem_reverse.mpr hs) hp)
  have hmem : c ∈ trim val := by
    unfold trim rtrim
    rw [ltrim_eq, ltrim_eq]
    exact hdrop _ _ (hback _ _ hc htrim) htrim
  unfold param_value
  dsimp only
  split
  · exact hdrop _ _ (hback _ _ hmem (by simpa using hquote)) (by simpa using hquote)
  · exact hmem

/-- A token stands for itself. -/
theorem param_value_charset {charset : Bytes} (hc : Charset_Name charset) :
    param_value charset = charset := by
  have hquote : ¬ token_char QUOTE := by decide
  have hhas : ∀ c ∈ charset, TRIM_CM.has c = false :=
    fun c hmem => token_not_trimmed (hc.token c hmem)
  have htrim : trim charset = charset :=
    trim_of_ends (fun c hhead => hhas c (List.mem_of_mem_head? hhead))
      fun c hlast => hhas c (List.mem_of_getLast? hlast)
  unfold param_value
  rw [htrim]
  dsimp only
  rw [if_neg]
  rintro ⟨-, hhead, -⟩
  exact hquote (hc.token QUOTE (List.mem_of_mem_head? hhead))

section Field

variable {it charset : Bytes} (h : is_content_type it)
include h

/-- **A name that is placed changes no other parameter.** -/
theorem placed_kept (hplaced : Placed it) : ∀ name ∈ [lit "content-type:", lit "boundary"],
    lookup name ((spot it).parameters charset) = lookup name (field_parameters it) := by
  intro name hname
  have hnot : ¬ (spot it).holds name := by
    intro hholds
    exact names_apart.2 name hname (is_named_join hplaced.charset.1 hholds.1)
  rw [Spot.lookup_parameters, if_neg hnot]
  cases hold : replaced it with
  | none => exact lookup_appended h hold hplaced.whole name
  | some old =>
      by_cases hempty : old = []
      · rcases List.mem_pair.mp hname with rfl | rfl
        · -- the field's own value stands in front of the spot
          have hfirst : ∃ p ∈ (spot it).before, is_named (lit "content-type:") p.1 := by
            have hname := named_content_type h
            have hunder : Field_Reader.Under (it.take 13) (at_front it) :=
              Field_Reader.under_read _ _ (Or.inl ⟨rfl, rfl⟩)
            rcases hunder with ⟨-, hkey⟩ | ⟨v, ps, hps⟩
            · -- otherwise it would be the charset too
              have hspot : (spot it).key = it.take 13 := by
                unfold spot
                rw [hkey]
                rfl
              have hcharset := hplaced.charset.1
              rw [hspot] at hcharset
              exact absurd (is_named_join hcharset hname) (names_apart.2 _ List.mem_cons_self)
            · refine ⟨(it.take 13, v), ?_, hname⟩
              show _ ∈ (at_front it).parameters
              rw [hps]
              exact List.mem_cons_self
          obtain ⟨qs, hqs⟩ := field_parameters_before h hold
          unfold Spot.others
          rw [hqs, lookup_append_of_mem _ hfirst, lookup_append_of_mem _ hfirst]
        · exact hplaced.boundary (hold.trans (congrArg some hempty))
      · have hne : (spot it).pre ++ old ≠ [] := by
          rw [hplaced.whole]
          exact hempty
        rw [field_parameters_replaced h hold hne, Spot.lookup_parameters, if_neg hnot]

/-- **The name is the whole value, or it is not the value.** -/
theorem param_value_spot (hc : Charset_Name charset) :
    param_value ((spot it).pre ++ charset) = charset ↔ (spot it).pre = [] := by
  constructor
  · intro hval
    obtain ⟨ps, key, pre, hat, hpre⟩ := at_front_value h
    have hspot : (spot it).pre = pre := by
      unfold spot
      rw [hat]
    rw [hspot] at hval ⊢
    rcases hpre with hnil | hequal
    · exact hnil
    · -- the '=' stays, and a token holds none
      have hkeep : TRIM_CM.has 61 = false ∧ (61 : Byte) ≠ QUOTE ∧ ¬ token_char 61 := by
        decide +kernel
      have hmem := param_value_keeps (List.mem_append_left charset hequal) hkeep.1 hkeep.2.1
      rw [hval] at hmem
      exact absurd (hc.token 61 hmem) hkeep.2.2
  · intro hpre
    rw [hpre, List.nil_append, param_value_charset hc]

/-- **The field that is written**, as the getters read it. -/
theorem set_charset_field_iff (hc : Charset_Name charset) :
    (lookup (lit "charset") ((spot it).parameters charset) = charset ∧
      ∀ name ∈ [lit "content-type:", lit "boundary"],
        lookup name ((spot it).parameters charset) = lookup name (field_parameters it))
      ↔ Placed it ∨ Already it charset := by
  constructor
  · rintro ⟨hread, hkept⟩
    rw [Spot.lookup_parameters] at hread
    by_cases hholds : (spot it).holds (lit "charset")
    · rw [if_pos hholds, param_value_spot h hc] at hread
      refine Or.inl ⟨hholds, hread, ?_⟩
      intro _
      have hboundary := hkept (lit "boundary") (by simp)
      rwa [Spot.lookup_parameters, if_neg] at hboundary
      exact fun hb => names_apart.2 _ (by simp) (is_named_join hholds.1 hb.1)
    · rw [if_neg hholds] at hread
      refine Or.inr ⟨hholds, hread, ?_⟩
      intro name hname
      rw [← Spot.lookup_parameters]
      exact hkept name hname
  · rintro (hplaced | halready)
    · refine ⟨?_, placed_kept h hplaced⟩
      rw [Spot.lookup_parameters, if_pos hplaced.charset, param_value_spot h hc]
      exact hplaced.whole
    · refine ⟨?_, ?_⟩
      · rw [Spot.lookup_parameters, if_neg halready.elsewhere]
        exact halready.reads
      · intro name hname
        rw [Spot.lookup_parameters]
        exact halready.kept name hname

end Field

/-- The field that is added where there is none is not read. -/
theorem not_observed_added (e : MIME_Entity) {charset : Bytes} (hc : Charset_Name charset)
    (hnone : ∀ it ∈ e.header_, ¬ is_content_type it) : ¬ Observed e charset := by
  intro hobserved
  obtain ⟨before, behind, hadd, hbefore⟩ := set_charset_added hc hnone
  obtain ⟨h, hadded⟩ := added_field_eq charset
  have hct : is_content_type (added_field charset) := by
    rw [hadded]
    exact set_charset_field_content_type h charset
  have hread := hobserved.read
  unfold MIME_Entity.get_charset at hread
  rw [hadd, header_parameter_found hbefore hct (names_apart.1 _ (by simp)), added_field_charset hc]
    at hread
  exact hc.ne hread.symm

/-- A field that is there decides. -/
theorem observed_field_iff {e : MIME_Entity} {charset it : Bytes} {pre post : List Bytes}
    (hc : Charset_Name charset) (he : e.header_ = pre ++ it :: post)
    (hpre : ∀ it ∈ pre, ¬ is_content_type it) (h : is_content_type it) :
    Observed e charset ↔ Placed it ∨ Already it charset := by
  have hset := set_charset_found hc he hpre h
  have hct := set_charset_field_content_type h charset
  -- both headers are read in this field, before the name is set and behind it
  have hnew : ∀ name ∈ [lit "content-type:", lit "boundary", lit "charset"],
      header_parameter (e.set_charset charset).header_ (lit "content-type:") 13 name
        = lookup name ((spot it).parameters charset) := by
    intro name hmem
    rw [hset, header_parameter_found hpre hct (names_apart.1 name hmem), field_parameters_set h hc]
  have hold : ∀ name ∈ [lit "content-type:", lit "boundary", lit "charset"],
      header_parameter e.header_ (lit "content-type:") 13 name
        = lookup name (field_parameters it) := by
    intro name hmem
    rw [he, header_parameter_found hpre h (names_apart.1 name hmem)]
  rw [← set_charset_field_iff h hc]
  constructor
  · intro hobserved
    refine ⟨?_, ?_⟩
    · rw [← hnew _ (by simp)]
      exact hobserved.read
    · obtain ⟨htype, hboundary⟩ := hobserved.others ⟨it, by rw [he]; simp, h⟩
      intro name hmem
      rcases List.mem_pair.mp hmem with rfl | rfl
      · rw [← hnew _ (by simp), ← hold _ (by simp)]
        exact htype
      · rw [← hnew _ (by simp), ← hold _ (by simp)]
        exact hboundary
  · rintro ⟨hread, hkept⟩
    refine ⟨(hnew _ (by simp)).trans hread, ?_, set_charset_again e hc⟩
    intro _
    exact ⟨(hnew _ (by simp)).trans ((hkept _ (by simp)).trans (hold _ (by simp)).symm),
      (hnew _ (by simp)).trans ((hkept _ (by simp)).trans (hold _ (by simp)).symm)⟩

/-- **When the name that is set is the name that is read.** -/
theorem set_charset_iff (e : MIME_Entity) {charset : Bytes} (hc : Charset_Name charset) :
    Observed e charset ↔
      ∃ it, e.header_.find? (is_content_type ·) = some it ∧ (Placed it ∨ Already it charset) := by
  rcases header_cases e.header_ with hnone | ⟨pre, it, post, he, hpre, h⟩
  · refine ⟨fun hobserved => absurd hobserved (not_observed_added e hc hnone), ?_⟩
    rintro ⟨it, hfind, -⟩
    have hit := List.find?_some hfind
    exact absurd (by simpa using hit) (hnone it (List.mem_of_find?_eq_some hfind))
  · have hfind : e.header_.find? (is_content_type ·) = some it := by
      rw [he, List.find?_eq_some_iff_append]
      exact ⟨decide_eq_true h, pre, post, rfl, fun a ha => by simpa using hpre a ha⟩
    rw [observed_field_iff hc he hpre h]
    constructor
    · exact fun hcase => ⟨it, hfind, hcase⟩
    · rintro ⟨it', hfind', hcase⟩
      obtain rfl := Option.some.inj (hfind.symm.trans hfind')
      exact hcase

theorem charset_name_utf8 : Charset_Name (lit "utf-8") where
  ne := by decide
  token := token_of_all (by decide +kernel)

/-- A charset between two other parameters, in a folded field. -/
theorem set_charset_iff_folded :
    let it := lit "Content-Type: multipart/mixed; CharSet=\"a\";\r\n boundary=b\r\n"
    let e := (import_data (it ++ lit "\r\n") .ALL true).1
    e.header_ = [it, lit "\r\n"] ∧ Observed e (lit "utf-8") := by
  have himport := import_data_lines .ALL true Flag.noConfusion
    (lit "Content-Type: multipart/mixed; CharSet=\"a\";\r\n boundary=b\r\n\r\n") (by decide)
  have happend : lit "Content-Type: multipart/mixed; CharSet=\"a\";\r\n boundary=b\r\n" ++ lit "\r\n"
      = lit "Content-Type: multipart/mixed; CharSet=\"a\";\r\n boundary=b\r\n\r\n" := by
    decide +kernel
  dsimp only
  rw [happend, himport]
  refine ⟨by decide +kernel, (set_charset_iff _ charset_name_utf8).mpr ⟨lit
    "Content-Type: multipart/mixed; CharSet=\"a\";\r\n boundary=b\r\n", by decide +kernel,
    Or.inl ⟨by decide +kernel, by decide +kernel, by decide +kernel⟩⟩⟩

/-- **What is set is not read** where there is no "content-type:" field, or a blank in
    front of the '='. -/
theorem set_charset_unread :
    let absent := (import_data (lit "A: b\r\n\r\n") .ALL true).1
    let blank := (import_data
      (lit "Content-Type: text/plain; charset =a\r\n\r\n") .ALL true).1
    Charset_Name (lit "utf-8") ∧
      (absent.set_charset (lit "utf-8")).get_charset = [] ∧ ¬ Observed absent (lit "utf-8") ∧
      (blank.set_charset (lit "utf-8")).get_charset = lit "a" ∧ ¬ Observed blank (lit "utf-8") := by
  have habsent := import_data_lines .ALL true Flag.noConfusion
    (lit "A: b\r\n\r\n") (by decide)
  have hblank := import_data_lines .ALL true Flag.noConfusion
    (lit "Content-Type: text/plain; charset =a\r\n\r\n") (by decide)
  dsimp only
  rw [habsent, hblank]
  refine ⟨charset_name_utf8, by decide +kernel, fun h => absurd h.read (by decide +kernel),
    by decide +kernel, fun h => absurd h.read (by decide +kernel)⟩

/-! ## §4. Fields in plain layout. -/

/-- A parameter that is written without a blank in front of its '=', and read whole. -/
structure Plain (p : Parameter) : Prop where
  key_ne : p.1 ≠ []
  key : ∀ c ∈ p.1, c ∉ lit "=\r\n"
  value_ne : p.2 ≠ []
  value : ∀ c ∈ p.2, c ∉ lit ";\r\n"

/-- The text of parameters behind a value. -/
def plain_text : List Parameter → Bytes
  | [] => []
  | p :: ps => 59 :: (p.1 ++ 61 :: (p.2 ++ plain_text ps))

/-- **A plain text is read as the parameters it is written from**; the reader stands in the
    last value. -/
theorem read_plain {ps : List Parameter} (hps : ∀ p ∈ ps, Plain p) :
    ∀ (qs : List Parameter) (key value : Bytes), value ≠ [] →
      ∃ qs' key' value', (Field_Reader.mk qs (some key) value).read (plain_text ps)
          = ⟨qs', some key', value'⟩ ∧ value' ≠ [] ∧
        qs' ++ [(key', value')] = qs ++ (key, value) :: ps := by
  induction ps with
  | nil => exact fun qs key value hne => ⟨qs, key, value, rfl, hne, rfl⟩
  | cons p ps ih =>
      intro qs key value hne
      have hp := hps p List.mem_cons_self
      obtain ⟨qs', key', value', hread, hne', hall⟩ :=
        ih (fun q hq => hps q (List.mem_cons_of_mem p hq)) (qs ++ [(key, value)]) p.1 p.2
          hp.value_ne
      refine ⟨qs', key', value', ?_, hne', ?_⟩
      · have hsemi : (Field_Reader.mk qs (some key) value).read
            (59 :: (p.1 ++ 61 :: (p.2 ++ plain_text ps)))
            = (Field_Reader.mk (qs ++ [(key, value)]) none []).read
              (p.1 ++ 61 :: (p.2 ++ plain_text ps)) :=
          Field_Reader.read_close _ hne ((mem_value_ends 59).mpr (Or.inl rfl)) _
        have hkey : (Field_Reader.mk (qs ++ [(key, value)]) none []).read p.1
            = ⟨qs ++ [(key, value)], none, p.1⟩ := Field_Reader.read_token _ hp.key
        have hequal : (Field_Reader.mk (qs ++ [(key, value)]) none p.1).read
            (61 :: (p.2 ++ plain_text ps))
            = (Field_Reader.mk (qs ++ [(key, value)]) (some p.1) []).read
              (p.2 ++ plain_text ps) :=
          Field_Reader.read_close _ hp.key_ne ((mem_key_ends 61).mpr (Or.inl rfl)) _
        have hvalue : (Field_Reader.mk (qs ++ [(key, value)]) (some p.1) []).read p.2
            = ⟨qs ++ [(key, value)], some p.1, p.2⟩ := Field_Reader.read_token _ hp.value
        rw [plain_text, hsemi, Field_Reader.read_append, hkey, hequal, Field_Reader.read_append,
          hvalue, hread]
      · rw [hall, List.append_assoc]
        rfl

/-- A plain text ends inside its last value. -/
theorem plain_last {ps : List Parameter} (hps : ∀ p ∈ ps, Plain p) :
    ∀ value : Bytes, value ≠ [] → (∀ c ∈ value, c ∉ lit ";\r\n") →
      ∀ c, (value ++ plain_text ps).getLast? = some c → c ∉ lit ";\r\n" := by
  induction ps with
  | nil =>
      intro value _ hvalue c hc
      rw [plain_text, List.append_nil] at hc
      exact hvalue c (List.mem_of_getLast? hc)
  | cons p ps ih =>
      intro value _ _ c hc
      have hp := hps p List.mem_cons_self
      have hsplit : value ++ plain_text (p :: ps)
          = (value ++ 59 :: (p.1 ++ [61])) ++ (p.2 ++ plain_text ps) := by
        simp only [plain_text, List.append_assoc, List.cons_append, List.nil_append]
      rw [hsplit, List.getLast?_append_of_ne_nil _ (by simp [hp.value_ne])] at hc
      exact ih (fun q hq => hps q (List.mem_cons_of_mem p hq)) p.2 hp.value_ne hp.value c hc

section Plain

variable {it value : Bytes} {ps : List Parameter} (h : is_content_type it)
  (hne : value ≠ []) (hvalue : ∀ c ∈ value, c ∉ lit ";\r\n") (hps : ∀ p ∈ ps, Plain p)
  (hnot : ∀ p ∈ ps, ¬ is_named (lit "charset") p.1)
include h hne hvalue hps hnot

omit hne hvalue hps in
/-- Nor is the field's own name the charset. -/
theorem plain_not_charset (v : Bytes) :
    ∀ p ∈ (it.take 13, v) :: ps, ¬ is_named (lit "charset") p.1 := by
  intro p hp
  rcases List.mem_cons.mp hp with rfl | hp
  · exact fun hname => names_apart.2 _ (by simp) (is_named_join hname (named_content_type h))
  · exact hnot p hp

/-- **The name is placed** where the text in front of it is plain, and ends with the first
    parameter called charset. -/
theorem placed_plain {key : Bytes} (hkey : key ≠ []) (hends : ∀ c ∈ key, c ∉ lit "=\r\n")
    (hname : is_named (lit "charset") key)
    (hfront : written_front it = it.take 13 ++ (value ++ plain_text ps ++ 59 :: (key ++ [61])))
    (hold : replaced it ≠ some []) : Placed it := by
  have hlen : (it.take 13).length = 13 := by
    rw [List.length_take]
    exact min_eq_left (field_length h)
  have hfirst : (Field_Reader.colon (it.take 13)).read value = ⟨[], some (it.take 13), value⟩ :=
    Field_Reader.read_token _ hvalue
  obtain ⟨qs, key', value', hread, hne', hall⟩ := read_plain hps [] (it.take 13) value hne
  have hsemi : (Field_Reader.mk qs (some key') value').read (59 :: (key ++ [61]))
      = (Field_Reader.mk ((it.take 13, value) :: ps) none []).read (key ++ [61]) := by
    have hclose := @Field_Reader.read_close ⟨qs, some key', value'⟩ hne' 59
      ((mem_value_ends 59).mpr (Or.inl rfl)) (key ++ [61])
    change _ = (Field_Reader.mk (qs ++ [(key', value')]) none []).read _ at hclose
    rw [hclose, hall]
    rfl
  have htoken : (Field_Reader.mk ((it.take 13, value) :: ps) none []).read key
      = ⟨(it.take 13, value) :: ps, none, key⟩ := Field_Reader.read_token _ hends
  have hequal : (Field_Reader.mk ((it.take 13, value) :: ps) none key).read [61]
      = ⟨(it.take 13, value) :: ps, some key, []⟩ :=
    Field_Reader.read_close _ hkey ((mem_key_ends 61).mpr (Or.inl rfl)) []
  have hat : at_front it = ⟨(it.take 13, value) :: ps, some key, []⟩ := by
    unfold at_front
    rw [hfront, List.drop_left' hlen, Field_Reader.read_append, Field_Reader.read_append, hfirst,
      hread, hsemi, Field_Reader.read_append, htoken, hequal]
  have hspot : (spot it).before = (it.take 13, value) :: ps ∧ (spot it).key = key ∧
      (spot it).pre = [] := by
    unfold spot
    rw [hat]
    exact ⟨rfl, rfl, rfl⟩
  refine ⟨⟨?_, ?_⟩, hspot.2.2, fun hempty => absurd hempty hold⟩
  · rw [hspot.2.1]
    exact hname
  · rw [hspot.1]
    exact plain_not_charset h hnot value

/-- **In a plain field without a charset** it is placed behind the last parameter. -/
theorem placed_appended {tail : Bytes} (hit : it.drop 13 = value ++ plain_text ps ++ tail)
    (htail : ∀ c ∈ tail, c ∈ lit "\r\n") (hnone : replaced it = none)
    (hcolon : (value ++ plain_text ps).getLast? ≠ some 58) : Placed it := by
  have hlast := plain_last hps value hne hvalue
  have htext : it = (it.take 13 ++ (value ++ plain_text ps)) ++ tail := by
    conv_lhs => rw [← List.take_append_drop 13 it, hit]
    exact (List.append_assoc _ _ _).symm
  have hgetLast : (it.take 13 ++ (value ++ plain_text ps)).getLast?
      = (value ++ plain_text ps).getLast? :=
    List.getLast?_append_of_ne_nil _ (by simp [hne])
  have hline : it.rdropWhile (· ∈ lit "\r\n") = it.take 13 ++ (value ++ plain_text ps) := by
    conv_lhs => rw [htext]
    unfold List.rdropWhile
    rw [List.reverse_append, List.dropWhile_append_of_pos]
    · refine List.rdropWhile_eq_self_iff.mpr fun hl hp => ?_
      refine hlast _ ?_ ((mem_value_ends _).mpr (Or.inr ((mem_breaks _).mp (of_decide_eq_true hp))))
      rw [← hgetLast, List.getLast?_eq_some_getLast hl]
    · intro c hc
      exact decide_eq_true (htail c (List.mem_reverse.mp hc))
  have hclosing : closing (it.take 13 ++ (value ++ plain_text ps)) = [59] := by
    have hlit : lit ";" = [59] := by decide
    have hsemi : (value ++ plain_text ps).getLast? ≠ some 59 :=
      fun h59 => hlast 59 h59 ((mem_value_ends 59).mpr (Or.inl rfl))
    unfold closing
    rw [hgetLast, if_pos ⟨hsemi, hcolon⟩, hlit]
  have hkey : lit " charset=" = lit " charset" ++ [61] := by decide
  have hfront : written_front it
      = it.take 13 ++ (value ++ plain_text ps ++ 59 :: (lit " charset" ++ [61])) := by
    have hfind : str_find (tolower_str it) (lit "charset=") = none :=
      Option.map_eq_none_iff.mp hnone
    unfold written_front
    rw [hfind]
    dsimp only
    rw [hline, hclosing, hkey]
    simp only [List.append_assoc, List.singleton_append]
  refine placed_plain h hne hvalue hps hnot (by simp [lit]) ?_ (by decide) hfront ?_
  · simp only [mem_key_ends]
    decide +kernel
  · rw [hnone]
    exact (Option.some_ne_none []).symm

end Plain

end Aos
