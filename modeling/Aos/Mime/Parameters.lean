/-
  Aos.Mime.Parameters — the parameters of a field, read byte by byte.

  `get_parameter` asks a tokenizer for a key, then for a value, then for a key
  again.  Here the same text goes through a reader that takes one byte at a time
  and keeps the parameters it has read: what it reads of a text is read off its
  pieces, so that a text put in somewhere can be followed.

  Main results:
    • `read_append`, `all_before` — a text is read piece by piece, behind what
      has been read;
    • `next_parameter_read` — the parameter loop looks a name up in what the
      reader finds;
    • `get_parameter_read` — and so does `get_parameter`.
-/
import Aos.Mime.Entity

namespace Aos

/-! ## §1. The reader. -/

/-- A key, not trimmed, and its value. -/
abbrev Parameter := Bytes × Bytes

/-- What has been read of a field: whole parameters, the key whose value comes
    next (none where a key comes next), and what there is of the token. -/
structure Field_Reader where
  parameters : List Parameter
  key : Option Bytes
  token : Bytes
  deriving DecidableEq

namespace Field_Reader

/-- The reader behind the colon of a field, and behind a whole parameter. -/
def colon (name : Bytes) : Field_Reader := ⟨[], some name, []⟩

def next_key (ps : List Parameter) : Field_Reader := ⟨ps, none, []⟩

/-- What ends a token here. -/
def separators (r : Field_Reader) : Bytes :=
  match r.key with
  | none => lit "=\r\n"
  | some _ => lit ";\r\n"

/-- A token has ended. -/
def close (r : Field_Reader) : Field_Reader :=
  match r.key with
  | none => ⟨r.parameters, some r.token, []⟩
  | some key => ⟨r.parameters ++ [(key, r.token)], none, []⟩

def step (r : Field_Reader) (c : Byte) : Field_Reader :=
  if c ∈ r.separators then if r.token = [] then r else r.close
  else { r with token := r.token ++ [c] }

def read (r : Field_Reader) (text : Bytes) : Field_Reader := text.foldl step r

/-- The reader, with parameters read before. -/
def behind (ps : List Parameter) (r : Field_Reader) : Field_Reader :=
  { r with parameters := ps ++ r.parameters }

/-- The parameters, where the text ends here. -/
def all (r : Field_Reader) : List Parameter :=
  match r.key with
  | none => if r.token = [] then r.parameters else r.parameters ++ [(r.token, [])]
  | some key => r.parameters ++ [(key, r.token)]

end Field_Reader

/-- The parameters of a field; its first value stands under the field's name. -/
def field_parameters (header : Bytes) : List Parameter :=
  match header.findIdx? (· = HIDDEN_HEADER_CHAR) with
  | none => []
  | some colon => ((Field_Reader.colon (header.take (colon + 1))).read (header.drop (colon + 1))).all

/-- `stricmp(name, key)` on the trimmed key. -/
def is_named (name key : Bytes) : Prop := strcasecmp name (trim key) = 0

instance (name key : Bytes) : Decidable (is_named name key) := inferInstanceAs (Decidable (_ = _))

/-- The value of the first parameter with the name. -/
def lookup (name : Bytes) : List Parameter → Bytes
  | [] => []
  | p :: ps => if is_named name p.1 then param_value p.2 else lookup name ps

/-- The separators, byte by byte. -/
theorem mem_key_ends (c : Byte) : c ∈ lit "=\r\n" ↔ c = 61 ∨ c = CR ∨ c = LF := by
  have hlit : lit "=\r\n" = [61, CR, LF] := by decide
  rw [hlit]
  simp only [List.mem_cons, List.not_mem_nil, or_false]

theorem mem_value_ends (c : Byte) : c ∈ lit ";\r\n" ↔ c = 59 ∨ c = CR ∨ c = LF := by
  have hlit : lit ";\r\n" = [59, CR, LF] := by decide
  rw [hlit]
  simp only [List.mem_cons, List.not_mem_nil, or_false]

theorem mem_breaks (c : Byte) : c ∈ lit "\r\n" ↔ c = CR ∨ c = LF := by
  have hlit : lit "\r\n" = [CR, LF] := by decide
  rw [hlit]
  simp only [List.mem_cons, List.not_mem_nil, or_false]

/-! ## §2. Lists of parameters. -/

theorem lookup_append_of_mem {name : Bytes} {ps : List Parameter} (qs : List Parameter)
    (h : ∃ p ∈ ps, is_named name p.1) : lookup name (ps ++ qs) = lookup name ps := by
  induction ps with
  | nil =>
      obtain ⟨p, hp, _⟩ := h
      exact absurd hp List.not_mem_nil
  | cons q ps ih =>
      rw [List.cons_append, lookup, lookup]
      by_cases hq : is_named name q.1
      · rw [if_pos hq, if_pos hq]
      · rw [if_neg hq, if_neg hq]
        obtain ⟨p, hp, hname⟩ := h
        rcases List.mem_cons.mp hp with rfl | hp
        · exact absurd hname hq
        · exact ih ⟨p, hp, hname⟩

theorem lookup_append_of_not {name : Bytes} {ps : List Parameter} (qs : List Parameter)
    (h : ∀ p ∈ ps, ¬ is_named name p.1) : lookup name (ps ++ qs) = lookup name qs := by
  induction ps with
  | nil => rfl
  | cons q ps ih =>
      rw [List.cons_append, lookup, if_neg (h q List.mem_cons_self)]
      exact ih fun p hp => h p (List.mem_cons_of_mem q hp)

theorem param_value_nil : param_value [] = [] := by decide

/-- A parameter without a value, behind the others, is not seen. -/
theorem lookup_valueless (name key : Bytes) (ps : List Parameter) :
    lookup name (ps ++ [(key, [])]) = lookup name ps := by
  induction ps with
  | nil =>
      rw [List.nil_append, lookup, lookup, param_value_nil]
      split_ifs <;> rfl
  | cons p ps ih => rw [List.cons_append, lookup, lookup, ih]

/-- **No key has two names.** -/
theorem is_named_join {a b key : Bytes} (ha : is_named a key) (hb : is_named b key) :
    strcasecmp a b = 0 := strcasecmp_join a b (trim key) ha hb

/-! ## §3. Reading. -/

namespace Field_Reader

theorem read_nil (r : Field_Reader) : r.read [] = r := rfl

theorem read_cons (r : Field_Reader) (c : Byte) (s : Bytes) : r.read (c :: s) = (r.step c).read s := rfl

/-- **A text is read piece by piece.** -/
theorem read_append (r : Field_Reader) (a b : Bytes) : r.read (a ++ b) = (r.read a).read b :=
  List.foldl_append

/-- The bytes of a token are kept. -/
theorem read_token (r : Field_Reader) {s : Bytes} (h : ∀ c ∈ s, c ∉ r.separators) :
    r.read s = { r with token := r.token ++ s } := by
  induction s generalizing r with
  | nil => rw [read_nil, List.append_nil]
  | cons c s ih =>
      have hstep : r.step c = { r with token := r.token ++ [c] } :=
        if_neg (h c List.mem_cons_self)
      rw [read_cons, hstep, ih]
      · rw [List.append_assoc]
        rfl
      · exact fun d hd => h d (List.mem_cons_of_mem c hd)

/-- Separators in front of a token are skipped. -/
theorem read_separators (r : Field_Reader) (hr : r.token = []) {s : Bytes}
    (h : ∀ c ∈ s, c ∈ r.separators) : r.read s = r := by
  induction s with
  | nil => rfl
  | cons c s ih =>
      have hstep : r.step c = r := by
        unfold step
        rw [if_pos (h c List.mem_cons_self), if_pos hr]
      rw [read_cons, hstep]
      exact ih fun d hd => h d (List.mem_cons_of_mem c hd)

/-- A separator ends a token. -/
theorem read_close (r : Field_Reader) (hr : r.token ≠ []) {c : Byte} (hc : c ∈ r.separators)
    (s : Bytes) : r.read (c :: s) = r.close.read s := by
  have hstep : r.step c = r.close := by
    unfold step
    rw [if_pos hc, if_neg hr]
  rw [read_cons, hstep]

/-- A step looks at the key and the token only. -/
theorem step_behind (ps : List Parameter) (r : Field_Reader) (c : Byte) :
    (r.behind ps).step c = (r.step c).behind ps := by
  have hsep : (r.behind ps).separators = r.separators := rfl
  have htoken : (r.behind ps).token = r.token := rfl
  unfold step
  rw [hsep, htoken]
  by_cases hc : c ∈ r.separators
  · rw [if_pos hc, if_pos hc]
    by_cases hr : r.token = []
    · rw [if_pos hr, if_pos hr]
    · rw [if_neg hr, if_neg hr]
      obtain ⟨parameters, key, token⟩ := r
      cases key with
      | none => rfl
      | some key =>
          show Field_Reader.mk ((ps ++ parameters) ++ [(key, token)]) none []
            = Field_Reader.mk (ps ++ (parameters ++ [(key, token)])) none []
          rw [List.append_assoc]
  · rw [if_neg hc, if_neg hc]
    rfl

/-- What has been read stays in front. -/
theorem read_behind (ps : List Parameter) (s : Bytes) :
    ∀ r : Field_Reader, (r.behind ps).read s = (r.read s).behind ps := by
  induction s with
  | nil => exact fun _ => rfl
  | cons c s ih =>
      intro r
      rw [read_cons, step_behind, ih, read_cons]

theorem all_behind (ps : List Parameter) (r : Field_Reader) : (r.behind ps).all = ps ++ r.all := by
  obtain ⟨parameters, key, token⟩ := r
  cases key with
  | none =>
      show (if token = [] then ps ++ parameters else ps ++ parameters ++ [(token, [])])
        = ps ++ if token = [] then parameters else parameters ++ [(token, [])]
      rw [List.append_assoc]
      split_ifs <;> rfl
  | some key => exact List.append_assoc _ _ _

/-- **What a text adds does not depend on what has been read.** -/
theorem all_before (ps : List Parameter) (key : Option Bytes) (token s : Bytes) :
    ((Field_Reader.mk ps key token).read s).all
      = ps ++ ((Field_Reader.mk [] key token).read s).all := by
  have hread := read_behind ps s ⟨[], key, token⟩
  rw [behind, List.append_nil] at hread
  rw [hread, all_behind]

/-- To end a token is not to lose it. -/
theorem close_all (r : Field_Reader) (hr : r.token ≠ []) : r.close.all = r.all := by
  obtain ⟨ps, key, token⟩ := r
  cases key with
  | none => exact (if_neg hr).symm
  | some key => rfl

/-- Line breaks end a token, and that is all they do. -/
theorem read_breaks_all {s : Bytes} (hs : ∀ c ∈ s, c ∈ lit "\r\n") :
    ∀ r : Field_Reader, (r.read s).all = r.all := by
  have hsep : ∀ c ∈ lit "\r\n", c ∈ lit "=\r\n" ∧ c ∈ lit ";\r\n" := by
    intro c hc
    rw [mem_breaks] at hc
    exact ⟨(mem_key_ends c).mpr (Or.inr hc), (mem_value_ends c).mpr (Or.inr hc)⟩
  induction s with
  | nil => exact fun _ => rfl
  | cons c s ih =>
      intro r
      have hc : c ∈ r.separators := by
        obtain ⟨ps, key, token⟩ := r
        have hboth := hsep c (hs c List.mem_cons_self)
        cases key with
        | none => exact hboth.1
        | some key => exact hboth.2
      have hrest := ih fun d hd => hs d (List.mem_cons_of_mem c hd)
      rw [read_cons, step, if_pos hc]
      by_cases hr : r.token = []
      · rw [if_pos hr, hrest]
      · rw [if_neg hr, hrest, close_all r hr]

/-- The first parameter, or the one that is being read, stands under the field's name. -/
def Under (name : Bytes) (r : Field_Reader) : Prop :=
  (r.parameters = [] ∧ r.key = some name) ∨ ∃ v ps, r.parameters = (name, v) :: ps

theorem under_step {name : Bytes} {r : Field_Reader} (h : Under name r) (c : Byte) :
    Under name (r.step c) := by
  unfold step
  split_ifs with hc hr
  · exact h
  · unfold close
    rcases h with ⟨hps, hkey⟩ | ⟨v, ps, hps⟩
    · rw [hkey]
      exact Or.inr ⟨r.token, [], by rw [hps]; rfl⟩
    · cases r.key with
      | none => exact Or.inr ⟨v, ps, hps⟩
      | some key => exact Or.inr ⟨v, ps ++ [(key, r.token)], by rw [hps]; rfl⟩
  · exact h

/-- **The first parameter stays where it is.** -/
theorem under_read {name : Bytes} (s : Bytes) :
    ∀ r : Field_Reader, Under name r → Under name (r.read s) := by
  induction s with
  | nil => exact fun _ h => h
  | cons c s ih => exact fun r h => ih _ (under_step h c)

/-- **The next token of a text**, as a tokenizer splits it off. -/
theorem read_split (r : Field_Reader) (hr : r.token = []) (s : Bytes) :
    let rest := s.dropWhile (· ∈ r.separators)
    (r.read s).all
      = if rest.takeWhile (· ∉ r.separators) = [] then r.all
        else (({ r with token := rest.takeWhile (· ∉ r.separators) }).close.read
          (rest.dropWhile (· ∉ r.separators)).tail).all := by
  intro rest
  have hskip : r.read s = r.read rest := by
    have hsplit := List.takeWhile_append_dropWhile (p := (· ∈ r.separators)) (l := s)
    rw [← hsplit, read_append, read_separators r hr]
    intro c hc
    simpa using List.mem_takeWhile_imp hc
  rw [hskip]
  have htoken : ∀ c ∈ rest.takeWhile (· ∉ r.separators), c ∉ r.separators := by
    intro c hc
    simpa using List.mem_takeWhile_imp hc
  conv_lhs => rw [← List.takeWhile_append_dropWhile (p := (· ∉ r.separators)) (l := rest)]
  rw [read_append, read_token r htoken, hr, List.nil_append]
  by_cases hnone : rest.takeWhile (· ∉ r.separators) = []
  · -- nothing is left: a separator would have been skipped
    have hrest : rest = [] := by
      refine Char_Tokenizer.dropWhile_nil_of_takeWhile_nil ?_
      simpa only [decide_not] using hnone
    rw [if_pos hnone, hnone, hrest, List.dropWhile_nil, read_nil, ← hr]
  · rw [if_neg hnone]
    cases hend : rest.dropWhile (· ∉ r.separators) with
    | nil => exact (close_all _ hnone).symm
    | cons c s' =>
        have hsep : c ∈ r.separators := by
          have hno := List.head?_dropWhile_not (fun b => decide (b ∉ r.separators)) rest
          rw [hend] at hno
          simpa using hno
        exact congrArg all (@read_close { r with token := rest.takeWhile (· ∉ r.separators) }
          hnone c hsep s')

end Field_Reader

/-! ## §4. The parameter loop. -/

theorem trim_nil : trim [] = [] := by decide

/-- The two separators, as the tokenizer holds them. -/
theorem has_separator (t : Char_Tokenizer) (r : Field_Reader) (b : Byte) :
    (t.set_separator r.separators).cm_.has b = decide (b ∈ r.separators) := by
  have hnul : c_str r.separators = r.separators := by
    have hkey : c_str (lit "=\r\n") = lit "=\r\n" :=
      c_str_of_no_nul (by rw [mem_key_ends]; decide)
    have hvalue : c_str (lit ";\r\n") = lit ";\r\n" :=
      c_str_of_no_nul (by rw [mem_value_ends]; decide)
    obtain ⟨parameters, key, token⟩ := r
    cases key with
    | none => exact hkey
    | some key => exact hvalue
  rw [Char_Tokenizer.set_separator, Char_Map.has_set, hnul]

/-- What a tokenizer takes off and what the reader takes off are the same. -/
theorem read_next (t : Char_Tokenizer) (r : Field_Reader) (hr : r.token = []) :
    let next := (t.set_separator r.separators).next
    (r.read t.ahead).all
      = if next.1.token = [] then r.all
        else (({ r with token := next.1.token }).close.read next.1.ahead).all := by
  intro next
  obtain ⟨htoken, hahead⟩ := Char_Tokenizer.next_split (t.set_separator r.separators)
  have hhas : (t.set_separator r.separators).cm_.has = fun b => decide (b ∈ r.separators) :=
    funext (has_separator t r)
  have hnot : (fun c => ! (t.set_separator r.separators).cm_.has c)
      = fun b => decide (b ∉ r.separators) := by
    funext b
    rw [has_separator, decide_not]
  rw [hnot, hhas] at htoken hahead
  have hsame : (t.set_separator r.separators).ahead = t.ahead := rfl
  rw [hsame] at htoken hahead
  show (r.read t.ahead).all = if next.1.token = [] then r.all else _
  rw [htoken, hahead]
  exact Field_Reader.read_split r hr t.ahead

/-- A key is taken off. -/
theorem read_key (t : Char_Tokenizer) :
    let key := (t.set_separator (lit "=\r\n")).next.1
    ((Field_Reader.next_key []).read t.ahead).all
      = if key.token = [] then [] else ((Field_Reader.colon key.token).read key.ahead).all :=
  read_next t (Field_Reader.next_key []) rfl

/-- A value is taken off. -/
theorem read_value (t : Char_Tokenizer) (key : Bytes) :
    let val := (t.set_separator (lit ";\r\n")).next.1
    ((Field_Reader.colon key).read t.ahead).all
      = if val.token = [] then [(key, [])]
        else (key, val.token) :: ((Field_Reader.next_key []).read val.ahead).all := by
  intro val
  have hnext := read_next t (Field_Reader.colon key) rfl
  change _ = if val.token = [] then [(key, [])]
    else ((Field_Reader.mk [(key, val.token)] none []).read val.ahead).all at hnext
  rw [hnext, Field_Reader.all_before]
  rfl

/-- **The loop looks the name up in what lies ahead.** -/
theorem next_parameter_read {name : Bytes} (hname : strcasecmp name [] ≠ 0) (fuel : Nat) :
    ∀ (toker : Char_Tokenizer) (ch : Int), (¬ ch > Char_Tokenizer.End → toker.ahead = []) →
      toker.ahead.length < fuel →
      next_parameter name fuel toker ch
        = lookup name ((Field_Reader.next_key []).read toker.ahead).all := by
  induction fuel with
  | zero => exact fun _ _ _ h => absurd h (Nat.not_lt_zero _)
  | succ fuel ih =>
      intro toker ch hch hfuel
      by_cases hend : ch > Char_Tokenizer.End
      · rw [next_parameter, if_pos hend]
        dsimp only
        have hkey := Char_Tokenizer.next_found (toker.set_separator (lit "=\r\n"))
        have hshrink := @Char_Tokenizer.ahead_shrinks (toker.set_separator (lit "=\r\n"))
        change (_ → _ < toker.ahead.length) at hshrink
        have hnothing := @Char_Tokenizer.next_none (toker.set_separator (lit "=\r\n"))
        rw [read_key]
        generalize (toker.set_separator (lit "=\r\n")).next = key at hkey hshrink hnothing ⊢
        by_cases hnone : key.1.token = []
        · -- no key, so no value either
          have hlast : (key.1.set_separator (lit ";\r\n")).next.2 = Char_Tokenizer.End :=
            Char_Tokenizer.next_end (hnothing hnone)
          rw [if_pos hnone, hnone, trim_nil, if_neg hname,
            next_parameter_end name (by rw [hlast]; exact lt_irrefl _)]
          rfl
        · have hlt := hshrink (hkey.mpr hnone)
          have hval := Char_Tokenizer.next_found (key.1.set_separator (lit ";\r\n"))
          have hshrink' := @Char_Tokenizer.ahead_shrinks (key.1.set_separator (lit ";\r\n"))
          change (_ → _ < key.1.ahead.length) at hshrink'
          have hnothing' := @Char_Tokenizer.next_none (key.1.set_separator (lit ";\r\n"))
          rw [if_neg hnone, read_value]
          generalize (key.1.set_separator (lit ";\r\n")).next = val at hval hshrink' hnothing' ⊢
          -- behind the value the loop goes on
          have hrest : next_parameter name fuel val.1 val.2
              = lookup name ((Field_Reader.next_key []).read val.1.ahead).all := by
            refine ih val.1 val.2 ?_ ?_
            · intro hstop
              exact hnothing' (not_not.mp (mt hval.mpr hstop))
            · by_cases hempty : val.1.token = []
              · rw [hnothing' hempty, List.length_nil]
                omega
              · have hlt' := hshrink' (hval.mpr hempty)
                omega
          rw [hrest]
          by_cases hempty : val.1.token = []
          · rw [if_pos hempty, hempty, hnothing' hempty]
            rfl
          · rw [if_neg hempty]
            rfl
      · rw [next_parameter_end name hend, hch hend]
        rfl

/-- **`get_parameter` looks the name up in what the reader finds**, where the field's
    own name needs no trimming. -/
theorem get_parameter_read {name : Bytes} (hname : strcasecmp name [] ≠ 0) (header : Bytes)
    (htrim : ∀ colon, header.findIdx? (· = HIDDEN_HEADER_CHAR) = some colon →
      trim (header.take (colon + 1)) = header.take (colon + 1)) :
    get_parameter header name = lookup name (field_parameters header) := by
  unfold get_parameter field_parameters
  cases hcolon : header.findIdx? (· = HIDDEN_HEADER_CHAR) with
  | none => rfl
  | some colon =>
      dsimp only
      generalize hbuf : header.drop (colon + 1) = buf
      have hahead : (Char_Tokenizer.new buf).ahead = buf := rfl
      have hfound := Char_Tokenizer.next_found ((Char_Tokenizer.new buf).set_separator (lit ";\r\n"))
      have hnothing :=
        @Char_Tokenizer.next_none ((Char_Tokenizer.new buf).set_separator (lit ";\r\n"))
      have hshrink :=
        @Char_Tokenizer.ahead_shrinks ((Char_Tokenizer.new buf).set_separator (lit ";\r\n"))
      change (_ → _ < buf.length) at hshrink
      have hread := read_value (Char_Tokenizer.new buf) (header.take (colon + 1))
      rw [hahead] at hread
      rw [hread]
      generalize ((Char_Tokenizer.new buf).set_separator (lit ";\r\n")).next = val
        at hfound hnothing hshrink ⊢
      have hrest : next_parameter name (buf.length + 1) val.1 val.2
          = lookup name ((Field_Reader.next_key []).read val.1.ahead).all := by
        refine next_parameter_read hname _ _ _ ?_ ?_
        · intro hstop
          exact hnothing (not_not.mp (mt hfound.mpr hstop))
        · by_cases hempty : val.1.token = []
          · rw [hnothing hempty]
            exact Nat.succ_pos _
          · exact Nat.lt_succ_of_lt (hshrink (hfound.mpr hempty))
      rw [hrest]
      have hfirst : (strcasecmp name (header.take (colon + 1)) = 0)
          = is_named name (header.take (colon + 1)) := by
        rw [is_named, htrim colon hcolon]
      by_cases hempty : val.1.token = []
      · rw [if_pos hempty, hempty, hnothing hempty, lookup]
        simp only [hfirst]
        rfl
      · rw [if_neg hempty, lookup]
        simp only [hfirst]

end Aos
