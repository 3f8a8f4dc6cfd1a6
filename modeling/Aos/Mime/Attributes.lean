/-
  Aos.Mime.Attributes — the attributes of a header, taken apart and built.

  `MIME_Header_Util` keeps a list of pairs.  The builder puts every value but the
  first in quotes, and leaves out the separator at the end; the parser looks for
  separators first and for quotes then, and takes a first value only where a
  separator ends it.

  Main results:
    • `parse_items_text` — the attributes behind the first one are read back;
    • `parse_no_semicolon` — a value that is read holds no ';';
    • `attribute_round_trip_iff` — which lists come back.
-/
import Aos.Str.Tokenizer

namespace Aos

namespace MIME_Header_Util

/-- `std::list< std::pair< std::string, std::string > >` -/
abbrev Pairs := List (Bytes × Bytes)

inductive Parser
  | No_Parser
  | Encoded_Parser
  | Address_Parser
  | Attribute_Parser
  deriving Repr, DecidableEq

end MIME_Header_Util

structure MIME_Header_Util where
  parser_ : MIME_Header_Util.Parser
  pairs_ : MIME_Header_Util.Pairs
  deriving Repr, DecidableEq

namespace MIME_Header_Util

/-! ## §1. The parser and the builder. -/

/-- `trim_quotes(str, quote)` -/
def trim_quotes (str : Bytes) (quote : Byte) : Bytes :=
  let str := trim str
  if str.length > 1 ∧ str.head? = some quote ∧ str.getLast? = some quote then str.dropLast.tail
  else str

/-- The loop of `parse_attribute`: an attribute name, its value, and so on. -/
def parse_items (toker : Char_Tokenizer) : Pairs :=
  let name := (toker.set_separator (lit "=\r\n")).next
  if _hname : name.2 ≤ Char_Tokenizer.End then []
  else
    let value := (name.1.set_separator (lit ";\r\n")).next
    if _hvalue : value.2 ≤ Char_Tokenizer.End then []
    else (trim name.1.token, trim_quotes value.1.token 34) :: parse_items value.1
termination_by toker.ahead.length
decreasing_by
  have hname := Char_Tokenizer.ahead_shrinks (not_le.mp _hname)
  have hvalue := Char_Tokenizer.ahead_shrinks (not_le.mp _hvalue)
  exact Nat.lt_trans hvalue hname

/-- `parse_attribute(str)` -/
def parse_attribute (u : MIME_Header_Util) (str : Bytes) : MIME_Header_Util :=
  let first := ((Char_Tokenizer.new str).set_separator (lit ";\r\n")).next
  let pairs := if first.2 = 59 then [([], trim_quotes first.1.token 34)] else []
  { u with parser_ := .Attribute_Parser, pairs_ := pairs ++ parse_items first.1 }

/-- The loop of `build_attribute` from the item number `count` on. -/
def build_items (count : Nat) : Pairs → Bytes
  | [] => []
  | p :: ps =>
      (if count ≠ 0 then p.1 ++ lit "=\"" ++ p.2 ++ lit "\"; " else p.2 ++ lit "; ")
        ++ build_items (count + 1) ps

/-- `build_attribute(str, charset, enc)` -/
def build_attribute (u : MIME_Header_Util) : Bytes :=
  if u.parser_ ≠ .Attribute_Parser then []
  else
    let str := build_items 0 u.pairs_
    if str.length ≥ 2 then str.take (str.length - 2) else str

/-! ## §2. What is built. -/

theorem lit_quote : lit "\"" = [34] := by decide

theorem lit_separator (s : Bytes) : lit "; " ++ s = 59 :: SP :: s := by
  have hlit : lit "; " = [59, SP] := by decide
  rw [hlit]
  rfl

/-- An attribute behind the first one. -/
def item (p : Bytes × Bytes) : Bytes := p.1 ++ lit "=\"" ++ p.2 ++ lit "\""

/-- The attributes behind the first one. -/
def items : Pairs → Bytes
  | [] => []
  | [p] => item p
  | p :: q :: ps => item p ++ lit "; " ++ items (q :: ps)

theorem build_items_text {ps : Pairs} (hne : ps ≠ []) (count : Nat) :
    build_items (count + 1) ps = items ps ++ lit "; " := by
  have hitem : ∀ p : Bytes × Bytes,
      p.1 ++ lit "=\"" ++ p.2 ++ lit "\"; " = item p ++ lit "; " := by
    intro p
    unfold item
    simp only [List.append_assoc]
    rfl
  induction ps generalizing count with
  | nil => exact absurd rfl hne
  | cons p ps ih =>
      rw [build_items, if_pos (Nat.succ_ne_zero count), hitem]
      cases ps with
      | nil =>
          rw [build_items, List.append_nil]
          rfl
      | cons q ps =>
          rw [ih (by simp), items, List.append_assoc, List.append_assoc]
          simp only [List.append_assoc]

/-- **The header that is built.** -/
theorem build_text (p : Bytes × Bytes) (ps : Pairs) :
    build_attribute ⟨.Attribute_Parser, p :: ps⟩
      = if ps = [] then p.2 else p.2 ++ lit "; " ++ items ps := by
  have htake : ∀ s : Bytes, (s ++ lit "; ").take ((s ++ lit "; ").length - 2) = s := by
    intro s
    have hlen : (s ++ lit "; ").length - 2 = s.length := by
      rw [List.length_append]
      exact Nat.add_sub_cancel s.length 2
    rw [hlen, List.take_left]
  have hlong : ∀ s : Bytes, (s ++ lit "; ").length ≥ 2 := by
    intro s
    rw [List.length_append]
    exact Nat.le_add_left 2 _
  have hfirst : build_items 0 (p :: ps) = p.2 ++ lit "; " ++ build_items 1 ps := rfl
  show (if (build_items 0 (p :: ps)).length ≥ 2 then
    (build_items 0 (p :: ps)).take ((build_items 0 (p :: ps)).length - 2)
    else build_items 0 (p :: ps)) = _
  rw [hfirst]
  by_cases hps : ps = []
  · rw [if_pos hps, hps, build_items, List.append_nil, if_pos (hlong _), htake]
  · rw [if_neg hps, build_items_text hps, ← List.append_assoc, if_pos (hlong _), htake]

/-! ## §3. What is read. -/

theorem has_name (t : Char_Tokenizer) (b : Byte) :
    (t.set_separator (lit "=\r\n")).cm_.has b = decide (b = 61 ∨ b = CR ∨ b = LF) := by
  have hsep : c_str (lit "=\r\n") = [61, CR, LF] := by decide
  rw [Char_Tokenizer.set_separator, Char_Map.has_set, hsep]
  simp only [List.mem_cons, List.not_mem_nil, or_false]

theorem has_value (t : Char_Tokenizer) (b : Byte) :
    (t.set_separator (lit ";\r\n")).cm_.has b = decide (b = 59 ∨ b = CR ∨ b = LF) := by
  have hsep : c_str (lit ";\r\n") = [59, CR, LF] := by decide
  rw [Char_Tokenizer.set_separator, Char_Map.has_set, hsep]
  simp only [List.mem_cons, List.not_mem_nil, or_false]

theorem parse_items_end {t : Char_Tokenizer} (h : t.ahead = []) : parse_items t = [] := by
  have hend : (t.set_separator (lit "=\r\n")).next.2 = Char_Tokenizer.End :=
    Char_Tokenizer.next_end h
  rw [parse_items]
  simp only
  rw [dif_pos hend.le]

/-- A value in quotes, which are taken off. -/
theorem trim_quotes_quoted (v : Bytes) :
    trim_quotes (lit "\"" ++ v ++ lit "\"") 34 = v := by
  have htrim : trim (lit "\"" ++ v ++ lit "\"") = lit "\"" ++ v ++ lit "\"" := by
    have hend : ∀ c, (lit "\"" ++ v ++ lit "\"").getLast? = some c → TRIM_CM.has c = false := by
      intro c hc
      rw [lit_quote, List.getLast?_concat] at hc
      obtain rfl := Option.some.inj hc
      decide
    have hbegin : ∀ c, (lit "\"" ++ v ++ lit "\"").head? = some c → TRIM_CM.has c = false := by
      intro c hc
      rw [lit_quote] at hc
      obtain rfl := Option.some.inj hc
      decide
    exact trim_of_ends hbegin hend
  unfold trim_quotes
  rw [htrim]
  simp only
  rw [lit_quote, if_pos]
  · rw [List.dropLast_concat]
    rfl
  · refine ⟨?_, rfl, List.getLast?_concat⟩
    simp only [List.length_append, List.length_cons, List.length_nil]
    omega

/-- A text without quotes, trimmed, is kept. -/
theorem trim_quotes_plain {v : Bytes} (htrim : trim v = v) (hquote : (34 : Byte) ∉ v) :
    trim_quotes v 34 = v := by
  unfold trim_quotes
  rw [htrim]
  simp only
  rw [if_neg]
  intro h
  exact hquote (List.mem_of_mem_head? h.2.1)

/-! ## §4. Lists that come back. -/

/-- The name of an attribute behind the first one. -/
structure Name (n : Bytes) : Prop where
  ne : n ≠ []
  trimmed : trim n = n
  plain : ∀ c ∈ n, c ≠ 61 ∧ c ≠ 59 ∧ c ≠ CR ∧ c ≠ LF

structure Value (v : Bytes) : Prop where
  ne : v ≠ []
  trimmed : trim v = v
  plain : ∀ c ∈ v, c ≠ 34 ∧ c ≠ CR ∧ c ≠ LF

/-- The first value has no name; behind it stand attributes. -/
structure Attributes (pairs : Pairs) : Prop where
  ne : pairs ≠ []
  first : ∀ p, pairs.head? = some p → p.1 = []
  names : ∀ p ∈ pairs.tail, Name p.1
  values : ∀ p ∈ pairs, Value p.2

section RoundTrip

variable {t : Char_Tokenizer} {p : Bytes × Bytes} {rest : Bytes}

/-- A name is read up to its '=', and trimmed. -/
theorem next_name (h : t.ahead = SP :: (item p ++ rest)) (hname : Name p.1) :
    let r := (t.set_separator (lit "=\r\n")).next
    r.2 = 61 ∧ trim r.1.token = p.1 ∧ r.1.ahead = lit "\"" ++ p.2 ++ lit "\"" ++ rest := by
  have hequal : lit "=\"" = 61 :: lit "\"" := by decide
  have htext : (t.set_separator (lit "=\r\n")).ahead
      = (SP :: p.1) ++ 61 :: (lit "\"" ++ p.2 ++ lit "\"" ++ rest) := by
    show t.ahead = _
    rw [h, item, hequal]
    simp only [List.append_assoc, List.cons_append]
  have hno : ∀ b ∈ SP :: p.1, (t.set_separator (lit "=\r\n")).cm_.has b = false := by
    intro b hb
    rw [has_name, decide_eq_false_iff_not]
    rcases List.mem_cons.mp hb with rfl | hb
    · decide
    · obtain ⟨h61, _, hcr, hlf⟩ := hname.plain b hb
      simp only [h61, hcr, hlf, or_self, not_false_eq_true]
  obtain ⟨hch, htoken, hahead⟩ := Char_Tokenizer.next_token htext (by simp) hno
    (by rw [has_name]; decide)
  refine ⟨hch, ?_, hahead⟩
  obtain ⟨hfirst, hlast⟩ := trimmed_ends hname.trimmed
  have htrim := trim_around (a := [SP]) (b := []) (s := p.1)
    (by rw [List.forall_mem_singleton, has_trim]; decide)
    (fun c hc => absurd hc List.not_mem_nil) hfirst hlast hname.ne
  rw [htoken]
  rwa [List.append_nil, List.singleton_append] at htrim

/-- A quoted value without ';' is one token. -/
theorem value_no_separator (hvalue : Value p.2) (hsemi : (59 : Byte) ∉ p.2) :
    ∀ b ∈ lit "\"" ++ p.2 ++ lit "\"", (t.set_separator (lit ";\r\n")).cm_.has b = false := by
  intro b hb
  rw [has_value, decide_eq_false_iff_not]
  simp only [lit_quote, List.mem_append, List.mem_singleton] at hb
  rcases hb with (rfl | hb) | rfl
  · decide
  · obtain ⟨_, hcr, hlf⟩ := hvalue.plain b hb
    have h59 : b ≠ 59 := fun heq => hsemi (heq ▸ hb)
    simp only [h59, hcr, hlf, or_self, not_false_eq_true]
  · decide

theorem quoted_ne (v : Bytes) : lit "\"" ++ v ++ lit "\"" ≠ [] := by
  simp [lit_quote]

/-- A value is read up to its ';'. -/
theorem next_value (h : t.ahead = lit "\"" ++ p.2 ++ lit "\"" ++ 59 :: rest) (hvalue : Value p.2)
    (hsemi : (59 : Byte) ∉ p.2) :
    let r := (t.set_separator (lit ";\r\n")).next
    r.2 = 59 ∧ trim_quotes r.1.token 34 = p.2 ∧ r.1.ahead = rest := by
  obtain ⟨hch, htoken, hahead⟩ := Char_Tokenizer.next_token (t := t.set_separator (lit ";\r\n")) h
    (quoted_ne p.2) (value_no_separator hvalue hsemi) (by rw [has_value]; decide)
  exact ⟨hch, by rw [htoken, trim_quotes_quoted], hahead⟩

/-- Or to the end of the text. -/
theorem next_value_last (h : t.ahead = lit "\"" ++ p.2 ++ lit "\"") (hvalue : Value p.2)
    (hsemi : (59 : Byte) ∉ p.2) :
    let r := (t.set_separator (lit ";\r\n")).next
    r.2 = Char_Tokenizer.Last ∧ trim_quotes r.1.token 34 = p.2 ∧ r.1.ahead = [] := by
  obtain ⟨hch, htoken, hahead⟩ := Char_Tokenizer.next_last (t := t.set_separator (lit ";\r\n")) h
    (quoted_ne p.2) (value_no_separator hvalue hsemi)
  exact ⟨hch, by rw [htoken, trim_quotes_quoted], hahead⟩

/-- **The attributes behind the first value are read back.** -/
theorem parse_items_text {ps : Pairs} (hnames : ∀ p ∈ ps, Name p.1) (hvalues : ∀ p ∈ ps, Value p.2)
    (hsemi : ∀ p ∈ ps, (59 : Byte) ∉ p.2) (hne : ps ≠ []) :
    ∀ t : Char_Tokenizer, t.ahead = SP :: items ps → parse_items t = ps := by
  induction ps with
  | nil => exact absurd rfl hne
  | cons p ps ih =>
      intro t h
      have hname := hnames p List.mem_cons_self
      have hvalue := hvalues p List.mem_cons_self
      have hno := hsemi p List.mem_cons_self
      cases ps with
      | nil =>
          -- the last value ends with the text
          obtain ⟨hch, hkey, hahead⟩ := @next_name t p []
            (by rw [h, items, List.append_nil]) hname
          rw [List.append_nil] at hahead
          obtain ⟨hch', hval, hend⟩ := next_value_last hahead hvalue hno
          rw [parse_items]
          simp only
          rw [dif_neg (by rw [hch]; decide), dif_neg (by rw [hch']; decide), hkey, hval,
            parse_items_end hend]
      | cons q ps =>
          obtain ⟨hch, hkey, hahead⟩ := @next_name t p (59 :: SP :: items (q :: ps))
            (by rw [h, items, List.append_assoc, lit_separator]) hname
          obtain ⟨hch', hval, hnext⟩ := next_value hahead hvalue hno
          have hrest := ih (fun r hr => hnames r (List.mem_cons_of_mem p hr))
            (fun r hr => hvalues r (List.mem_cons_of_mem p hr))
            (fun r hr => hsemi r (List.mem_cons_of_mem p hr)) (by simp) _ hnext
          rw [parse_items]
          simp only
          rw [dif_neg (by rw [hch]; decide), dif_neg (by rw [hch']; decide), hkey, hval, hrest]

end RoundTrip

/-! ## §5. What is never read. -/

theorem trim_quotes_sublist (s : Bytes) (quote : Byte) : (trim_quotes s quote).Sublist s := by
  unfold trim_quotes
  simp only
  split_ifs
  · exact ((List.tail_sublist _).trans (List.dropLast_sublist _)).trans (trim_sublist s)
  · exact trim_sublist s

/-- A token that ends at a ';' holds none. -/
theorem token_no_semicolon (t : Char_Tokenizer) :
    (59 : Byte) ∉ trim_quotes (t.set_separator (lit ";\r\n")).next.1.token 34 := by
  intro hmem
  have hsep : (59 : Byte) ∈ c_str (lit ";\r\n") := by decide
  exact Char_Tokenizer.token_no_separator t _ 59 ((trim_quotes_sublist _ _).subset hmem) hsep

/-- The loop ends, or reads a value and goes on with less text ahead. -/
theorem parse_items_step (t : Char_Tokenizer) :
    parse_items t = [] ∨ ∃ (key : Bytes) (s : Char_Tokenizer),
      let value := (s.set_separator (lit ";\r\n")).next.1
      parse_items t = (key, trim_quotes value.token 34) :: parse_items value ∧
        value.ahead.length < t.ahead.length := by
  by_cases hname : (t.set_separator (lit "=\r\n")).next.2 ≤ Char_Tokenizer.End
  · refine Or.inl ?_
    rw [parse_items]
    simp only
    rw [dif_pos hname]
  · by_cases hvalue : ((t.set_separator (lit "=\r\n")).next.1.set_separator (lit ";\r\n")).next.2
        ≤ Char_Tokenizer.End
    · refine Or.inl ?_
      rw [parse_items]
      simp only
      rw [dif_neg hname, dif_pos hvalue]
    · have hname' := Char_Tokenizer.ahead_shrinks (not_le.mp hname)
      have hvalue' := Char_Tokenizer.ahead_shrinks (not_le.mp hvalue)
      refine Or.inr ⟨trim (t.set_separator (lit "=\r\n")).next.1.token,
        (t.set_separator (lit "=\r\n")).next.1, ?_, Nat.lt_trans hvalue' hname'⟩
      rw [parse_items]
      simp only
      rw [dif_neg hname, dif_neg hvalue]

theorem parse_items_no_semicolon (t : Char_Tokenizer) : ∀ p ∈ parse_items t, (59 : Byte) ∉ p.2 := by
  induction hk : t.ahead.length using Nat.strong_induction_on generalizing t with
  | _ k ih =>
      intro p hp
      rcases parse_items_step t with hnil | ⟨key, s, hcons, hless⟩
      · rw [hnil] at hp
        exact absurd hp List.not_mem_nil
      · rw [hcons, List.mem_cons] at hp
        rcases hp with hfirst | hp
        · rw [hfirst]
          dsimp only
          exact token_no_semicolon s
        · exact ih _ (hk ▸ hless) _ rfl p hp

/-- **A value that is read holds no ';'**, quoted or not. -/
theorem parse_no_semicolon (u : MIME_Header_Util) (str : Bytes) :
    ∀ p ∈ (u.parse_attribute str).pairs_, (59 : Byte) ∉ p.2 := by
  intro p hp
  rcases List.mem_append.mp hp with hfirst | hrest
  · split_ifs at hfirst
    · rw [List.mem_singleton] at hfirst
      rw [hfirst]
      dsimp only
      exact token_no_semicolon (Char_Tokenizer.new str)
    · exact absurd hfirst List.not_mem_nil
  · exact parse_items_no_semicolon _ p hrest

/-! ## §6. There and back. -/

section Back

variable {p : Bytes × Bytes} {ps : Pairs}

/-- A first value without ';' is one token. -/
theorem first_no_separator (hvalue : Value p.2) (hsemi : (59 : Byte) ∉ p.2) (t : Char_Tokenizer) :
    ∀ b ∈ p.2, (t.set_separator (lit ";\r\n")).cm_.has b = false := by
  intro b hb
  obtain ⟨_, hcr, hlf⟩ := hvalue.plain b hb
  have h59 : b ≠ 59 := fun heq => hsemi (heq ▸ hb)
  rw [has_value, decide_eq_false_iff_not]
  simp only [h59, hcr, hlf, or_self, not_false_eq_true]

/-- A value alone is not read, since no ';' ends it. -/
theorem parse_single (u : MIME_Header_Util) (hvalue : Value p.2) (hsemi : (59 : Byte) ∉ p.2) :
    (u.parse_attribute p.2).pairs_ = [] := by
  obtain ⟨hch, _, hahead⟩ := @Char_Tokenizer.next_last
    ((Char_Tokenizer.new p.2).set_separator (lit ";\r\n")) p.2 rfl hvalue.ne
    (first_no_separator hvalue hsemi _)
  show (if _ = (59 : Int) then _ else []) ++ parse_items _ = []
  rw [hch, if_neg (by decide), List.nil_append, parse_items_end hahead]

/-- **A value and attributes without ';' are read back.** -/
theorem parse_text (u : MIME_Header_Util) (hname : p.1 = []) (hvalue : Value p.2)
    (hsemi : (59 : Byte) ∉ p.2) (hnames : ∀ p ∈ ps, Name p.1) (hvalues : ∀ p ∈ ps, Value p.2)
    (hsemis : ∀ p ∈ ps, (59 : Byte) ∉ p.2) (hne : ps ≠ []) :
    (u.parse_attribute (p.2 ++ lit "; " ++ items ps)).pairs_ = p :: ps := by
  have hplain : (34 : Byte) ∉ p.2 := fun hmem => (hvalue.plain 34 hmem).1 rfl
  obtain ⟨hch, htoken, hahead⟩ := @Char_Tokenizer.next_token
    ((Char_Tokenizer.new (p.2 ++ lit "; " ++ items ps)).set_separator (lit ";\r\n")) p.2
    (SP :: items ps) 59
    (by show p.2 ++ lit "; " ++ items ps = _; rw [List.append_assoc, lit_separator]) hvalue.ne
    (first_no_separator hvalue hsemi _) (by rw [has_value]; decide)
  show (if _ = (59 : Int) then [([], trim_quotes _ 34)] else []) ++ parse_items _ = p :: ps
  rw [hch, if_pos (by decide), htoken, trim_quotes_plain hvalue.trimmed hplain,
    parse_items_text hnames hvalues hsemis hne _ hahead, ← hname]
  rfl

/-- The lists that come back. -/
theorem parse_build_iff (u : MIME_Header_Util) {pairs : Pairs} (h : Attributes pairs) :
    (u.parse_attribute (build_attribute ⟨.Attribute_Parser, pairs⟩)).pairs_ = pairs
      ↔ 2 ≤ pairs.length ∧ ∀ p ∈ pairs, (59 : Byte) ∉ p.2 := by
  obtain ⟨p, ps, rfl⟩ := List.exists_cons_of_ne_nil h.ne
  have hvalue := h.values p List.mem_cons_self
  rw [build_text]
  constructor
  · intro hback
    have hsemi : ∀ q ∈ p :: ps, (59 : Byte) ∉ q.2 := by
      intro q hq
      rw [← hback] at hq
      exact parse_no_semicolon u _ q hq
    refine ⟨?_, hsemi⟩
    by_contra hshort
    have hps : ps = [] := by
      rw [← List.length_eq_zero_iff]
      rw [List.length_cons] at hshort
      omega
    rw [if_pos hps, parse_single u hvalue (hsemi p List.mem_cons_self)] at hback
    cases hback
  · intro hgood
    obtain ⟨hlen, hsemi⟩ := hgood
    have hps : ps ≠ [] := by
      intro hnil
      rw [hnil, List.length_singleton] at hlen
      exact absurd hlen (by decide)
    rw [if_neg hps]
    exact parse_text u (h.first p rfl) hvalue (hsemi p List.mem_cons_self) h.names
      (fun q hq => h.values q (List.mem_cons_of_mem p hq))
      (fun q hq => hsemi q (List.mem_cons_of_mem p hq)) hps

/-- **Attribute lists there and back**: what is built is read back exactly for the
    lists of two or more values none of which holds a ';'. -/
theorem attribute_round_trip_iff (u : MIME_Header_Util) {pairs : Pairs} (h : Attributes pairs) :
    (u.parse_attribute (build_attribute ⟨.Attribute_Parser, pairs⟩)).pairs_ = pairs
      ↔ 2 ≤ pairs.length ∧ ∀ p ∈ pairs, (59 : Byte) ∉ p.2 :=
  parse_build_iff u h

/-- An attachment with a file name. -/
def attachment : Pairs := [([], lit "attachment"), (lit "filename", lit "a.txt")]

theorem attribute_round_trip_attachment :
    (parse_attribute ⟨.No_Parser, []⟩ (build_attribute ⟨.Attribute_Parser, attachment⟩)).pairs_
        = attachment
      ↔ 2 ≤ attachment.length ∧ ∀ p ∈ attachment, (59 : Byte) ∉ p.2 :=
  attribute_round_trip_iff ⟨.No_Parser, []⟩
    ⟨by decide, fun p hp => by obtain rfl := Option.some.inj hp; rfl,
      fun p hp => by
        obtain rfl := List.mem_singleton.mp hp
        exact ⟨by decide +kernel, by decide +kernel, by decide +kernel⟩,
      fun p hp => by
        rcases List.mem_cons.mp hp with rfl | hp
        · exact ⟨by decide +kernel, by decide +kernel, by decide +kernel⟩
        · obtain rfl := List.mem_singleton.mp hp
          exact ⟨by decide +kernel, by decide +kernel, by decide +kernel⟩⟩

/-- A value that stands alone is lost, and so is one with a ';'. -/
theorem attribute_values_lost :
    (parse_attribute ⟨.No_Parser, []⟩
        (build_attribute ⟨.Attribute_Parser, [([], lit "attachment")]⟩)).pairs_
      ≠ [([], lit "attachment")] ∧
    (parse_attribute ⟨.No_Parser, []⟩ (build_attribute ⟨.Attribute_Parser,
        [([], lit "attachment"), (lit "filename", lit "a;b")]⟩)).pairs_
      ≠ [([], lit "attachment"), (lit "filename", lit "a;b")] := by
  constructor
  · have hvalue : Value (([], lit "attachment") : Bytes × Bytes).2 :=
      ⟨by decide +kernel, by decide +kernel, by decide +kernel⟩
    rw [build_text, if_pos rfl, parse_single _ hvalue (by decide)]
    decide
  · intro hback
    have hsemi := parse_no_semicolon ⟨.No_Parser, []⟩ (build_attribute ⟨.Attribute_Parser,
      [([], lit "attachment"), (lit "filename", lit "a;b")]⟩) (lit "filename", lit "a;b")
    rw [hback] at hsemi
    exact hsemi (List.mem_cons_of_mem _ (List.mem_singleton_self _)) (by decide)

end Back

end MIME_Header_Util

end Aos
