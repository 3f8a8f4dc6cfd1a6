/-
  Aos.Net.Imap4.Commands — what `IMAP4_Server_IO::parse_cmd` makes of a command
  line, for the two ways a line can end.

  The parser knows nothing of line ends.  Behind the last atom it takes off two
  bytes, whatever they are, and behind a quoted string one; a space in front of
  CRLF leaves these two as an atom of no bytes.

  Main results:
    • `parse_cmd_ends` — the loop ends, on every line;
    • `parse_cmd_lf_isSome` — it never goes behind the end of a line that ends in LF;
    • `parse_cmd_crlf`, `parse_cmd_lf` — the parameters of a command line;
    • `parse_cmd_line_ends_iff` — when they are those of the line, both ways.
-/
import Aos.Lib.Loop
import Aos.Net.Imap4.ServerIO
import Aos.Str.QuotedGrammar

namespace Aos.IMAP4_Server_IO

open Lib.Loop

/-! ## §1. The loop. -/

/-- One pass of `while( n_left > 0 )`. -/
def parse_pass (s : Multi_String × Bytes) : (Multi_String × Bytes) ⊕ Option Multi_String :=
  if s.2.length > 0 then
    match parse_next s.1 s.2 with
    | some s' => .inl s'
    | none => .inr none
  else .inr (some s.1)

theorem parse_pass_next {m m' : Multi_String} {left left' : Bytes} (hne : left ≠ [])
    (h : parse_next m left = some (m', left')) : parse_pass (m, left) = .inl (m', left') := by
  unfold parse_pass
  rw [if_pos (List.length_pos_iff.mpr hne)]
  dsimp only
  rw [h]

theorem parse_pass_nil (m : Multi_String) : parse_pass (m, []) = .inr (some m) := rfl

/-- The fuel is enough: every pass takes a byte. -/
theorem parse_loop_ends (fuel : Nat) : ∀ (L : List Bytes) (left : Bytes), left.length ≤ fuel →
    Ends parse_pass (packed L, left) (parse_loop fuel (packed L) left) := by
  induction fuel with
  | zero =>
      intro L left hle
      obtain rfl := List.eq_nil_of_length_eq_zero (Nat.le_zero.mp hle)
      exact (ends_exit _ (parse_pass_nil _)).mpr rfl
  | succ fuel ih =>
      intro L left hle
      rw [parse_loop]
      by_cases hpos : left.length > 0
      · have hne := List.length_pos_iff.mp hpos
        rw [if_pos hpos]
        cases hnext : parse_next (packed L) left with
        | none =>
            refine (ends_exit _ (r := none) ?_).mpr rfl
            unfold parse_pass
            rw [if_pos hpos]
            dsimp only
            rw [hnext]
        | some s =>
            obtain ⟨m, rest⟩ := s
            obtain ⟨hshort, ps, rfl, _⟩ := parse_next_cases hne hnext
            rw [ends_next _ (parse_pass_next hne hnext)]
            exact ih (L ++ ps) rest (by omega)
      · obtain rfl := List.eq_nil_of_length_eq_zero (by omega : left.length = 0)
        exact (ends_exit _ (parse_pass_nil _)).mpr rfl

/-- **The loop ends**, on every line. -/
theorem parse_cmd_ends (buf : Bytes) : Ends parse_pass (.new, buf) (parse_cmd buf) :=
  parse_loop_ends buf.length [] buf (le_refl _)

/-- What the loop comes to is what `parse_cmd` gives. -/
theorem parse_cmd_eq {buf : Bytes} {r : Option Multi_String}
    (h : Ends parse_pass (packed [], buf) r) : parse_cmd buf = r :=
  Ends.unique parse_pass (parse_cmd_ends buf) h

/-! ## §2. Lines that end in LF. -/

/-- What is left of a line that ends in LF. -/
def Ends_LF (left : Bytes) : Prop := ∀ c, left.getLast? = some c → c = LF

theorem Ends_LF.suffix {left left' : Bytes} (h : Ends_LF left) (hsuf : left' <:+ left) :
    Ends_LF left' := by
  obtain ⟨front, rfl⟩ := hsuf
  intro c hc
  refine h c ?_
  rw [List.getLast?_append, hc]
  rfl

theorem parse_next_suffix {m m' : Multi_String} {left left' : Bytes}
    (h : parse_next m left = some (m', left')) : left' <:+ left := by
  unfold parse_next at h
  dsimp only at h
  split_ifs at h <;>
    (obtain ⟨_, rfl⟩ := Prod.mk.inj (Option.some.inj h); exact List.drop_suffix _ _)

/-- The closing quote is the last byte of a quoted string. -/
theorem quoted_getLast {quote escape : Byte} {text body rest : Bytes}
    (h : QS.Quoted quote escape text body rest) (hrest : rest = []) :
    text.getLast? = some quote := by
  induction h with
  | close rest =>
      subst hrest
      rfl
  | char _ _ htext ih =>
      rw [List.getLast?_cons, ih hrest]
      rfl
  | escape _ htext ih =>
      rw [List.getLast?_cons, List.getLast?_cons, ih hrest]
      rfl

/-- **A byte stands behind every closing quote.** -/
theorem parse_next_isSome {m : Multi_String} {left : Bytes} (h : Ends_LF left) :
    (parse_next m left).isSome := by
  unfold parse_next
  split_ifs with hquote
  · obtain ⟨text, rfl⟩ : ∃ text, left = QS.default.quote_ :: text := by
      cases left with
      | nil => exact absurd hquote (by simp)
      | cons c text => exact ⟨text, congrArg (· :: text) (Option.some.inj hquote)⟩
    dsimp only
    split_ifs with hok hlen
    · rfl
    · -- then the closing quote would be the last byte
      exfalso
      have hclosed : QS.Closed QS.default.quote_ QS.default.escape_ text := by
        rw [QS.closed_iff]
        by_contra hopen
        have hstate : (QS.default.decode (QS.default.quote_ :: text)).1.state_
            = (QS.decode_loop QS.default.quote_ QS.default.escape_ .DECODE_CHAR text).state := by
          unfold QS.decode
          rw [if_pos (by rfl)]
          exact if_neg hopen
        rw [hstate] at hok
        exact QS.decode_loop_not_ok _ _ text .DECODE_CHAR (by decide) hok
      obtain ⟨body, rest, htext⟩ := hclosed
      have hle := htext.length
      rw [QS.decode_quoted QS.default htext] at hlen
      rw [List.length_cons] at hlen
      dsimp only at hlen
      have hrest : rest = [] := List.eq_nil_of_length_eq_zero (by omega)
      have hlast := quoted_getLast htext hrest
      have hlf : QS.default.quote_ = LF := h _ (by rw [List.getLast?_cons, hlast]; rfl)
      exact absurd hlf (by decide)
    · rfl
  · dsimp only
    split_ifs <;> rfl

/-- **`n_left` never underflows** on a line that ends in LF. -/
theorem parse_cmd_lf_isSome (line : Bytes) : (parse_cmd (line ++ [LF])).isSome := by
  have hstart : Ends_LF (line ++ [LF]) := by
    intro c hc
    rw [List.getLast?_concat] at hc
    exact (Option.some.inj hc).symm
  obtain ⟨r, hr, hsome⟩ := ends_of_invariant parse_pass
    (fun s => Ends_LF s.2 ∧ ∃ L, s.1 = packed L) (fun r => r.isSome) (fun s => s.2.length)
    (by
      rintro ⟨m, left⟩ s' ⟨hlf, L, rfl⟩ hpass
      unfold parse_pass at hpass
      dsimp only at hpass hlf
      split_ifs at hpass with hpos
      cases hnext : parse_next (packed L) left with
      | none => rw [hnext] at hpass; exact absurd hpass (by simp)
      | some s =>
          rw [hnext] at hpass
          obtain rfl := Sum.inl.inj hpass
          obtain ⟨hshort, ps, hps, _⟩ :=
            parse_next_cases (List.length_pos_iff.mp hpos) hnext
          exact ⟨⟨hlf.suffix (parse_next_suffix hnext), L ++ ps, hps⟩, hshort⟩)
    (by
      rintro ⟨m, left⟩ r ⟨hlf, _⟩ hpass
      unfold parse_pass at hpass
      dsimp only at hpass hlf
      split_ifs at hpass with hpos
      · obtain ⟨s, hs⟩ := Option.isSome_iff_exists.mp (parse_next_isSome (m := m) hlf)
        rw [hs] at hpass
        exact absurd hpass (by simp)
      · obtain rfl := Sum.inr.inj hpass
        rfl)
    (packed [], line ++ [LF]) ⟨hstart, [], rfl⟩
  rw [parse_cmd_eq hr]
  exact hsome

/-! ## §3. Command lines. -/

/-- A parameter as it stands in a line. -/
inductive Item where
  | atom (t : Bytes) (hne : t ≠ []) (hsp : SP ∉ t) (hquote : t.head? ≠ some QS.default.quote_)
  | quoted (text body : Bytes)
      (h : QS.Quoted QS.default.quote_ QS.default.escape_ text body [])

/-- Its bytes. -/
def Item.text : Item → Bytes
  | .atom t _ _ _ => t
  | .quoted text _ _ => QS.default.quote_ :: text

/-- What it stands for. -/
def Item.param : Item → Bytes
  | .atom t _ _ _ => t
  | .quoted _ body _ => body

def Item.is_quoted : Item → Bool
  | .atom _ _ _ _ => false
  | .quoted _ _ _ => true

/-- Items, each with the number of spaces behind it; behind all but the last there is one at
    least. -/
structure Command_Line where
  /-- the spaces in front -/
  lead : Nat
  items : List (Item × Nat)
  apart : ∀ i ∈ items.dropLast, 0 < i.2

def spaces (n : Nat) : Bytes := List.replicate n SP

/-- The bytes of the items. -/
def items_text (items : List (Item × Nat)) : Bytes :=
  items.flatMap fun i => i.1.text ++ spaces i.2

/-- The line, without its end. -/
def Command_Line.text (line : Command_Line) : Bytes := spaces line.lead ++ items_text line.items

/-- The atoms and the unescaped strings, in order. -/
def Command_Line.params (line : Command_Line) : List Bytes := line.items.map fun i => i.1.param

/-! ## §4. The passes over a command line. -/

section Passes

variable (L : List Bytes) {r : Option Multi_String}

theorem quoted_append {quote escape : Byte} {text body rest : Bytes}
    (h : QS.Quoted quote escape text body rest) (more : Bytes) :
    QS.Quoted quote escape (text ++ more) body (rest ++ more) := by
  induction h with
  | close rest => exact .close _
  | char hquote hescape _ ih => exact .char hquote hescape ih
  | escape hne _ ih => exact .escape hne ih

/-- **A quoted string, and the byte behind it.** -/
theorem parse_next_quoted {text body : Bytes}
    (h : QS.Quoted QS.default.quote_ QS.default.escape_ text body []) (c : Byte) (rest : Bytes) :
    parse_next (packed L) (QS.default.quote_ :: text ++ c :: rest)
      = some (packed (L ++ [body]), rest) := by
  -- the closing quote is the last byte that is read
  have hquoted := quoted_append h (c :: rest)
  rw [List.nil_append] at hquoted
  have hlen : (text ++ c :: rest).length - (c :: rest).length + 1 + 1
      = (QS.default.quote_ :: text ++ [c]).length := by
    simp only [List.length_append, List.length_cons, List.length_nil]
    omega
  have hdrop : (QS.default.quote_ :: (text ++ c :: rest)).drop
      (QS.default.quote_ :: text ++ [c]).length = rest := by
    have hsplit : QS.default.quote_ :: (text ++ c :: rest)
        = (QS.default.quote_ :: text ++ [c]) ++ rest := by simp
    rw [hsplit, List.drop_left]
  unfold parse_next
  rw [List.cons_append, if_pos (by rfl), QS.decode_quoted QS.default hquoted]
  dsimp only
  rw [if_pos rfl, hlen, hdrop, push_back_packed, if_pos]
  simp only [List.length_append, List.length_cons, List.length_nil]
  omega

theorem ends_spaces (m : Multi_String) (n : Nat) (rest : Bytes) :
    Ends parse_pass (m, spaces n ++ rest) r ↔ Ends parse_pass (m, rest) r := by
  induction n with
  | zero => exact Iff.rfl
  | succ n ih =>
      have hcons : spaces (n + 1) ++ rest = SP :: (spaces n ++ rest) := rfl
      rw [hcons, ends_next _ (parse_pass_next (List.cons_ne_nil _ _) (parse_next_space m _)), ih]

/-- An item with a space behind it. -/
theorem ends_item (i : Item) (rest : Bytes) :
    Ends parse_pass (packed L, i.text ++ SP :: rest) r ↔
      Ends parse_pass (packed (L ++ [i.param]), rest) r := by
  cases i with
  | atom t hne hsp hquote =>
      exact ends_next _ (parse_pass_next (by simp [Item.text]) (parse_next_atom L rest hne hsp hquote))
  | quoted text body h =>
      exact ends_next _ (parse_pass_next (by simp [Item.text]) (parse_next_quoted L h SP rest))

/-- An item with spaces behind it. -/
theorem ends_item_spaces (i : Item) {n : Nat} (hn : 0 < n) (rest : Bytes) :
    Ends parse_pass (packed L, i.text ++ spaces n ++ rest) r ↔
      Ends parse_pass (packed (L ++ [i.param]), rest) r := by
  obtain ⟨k, rfl⟩ := Nat.exists_eq_succ_of_ne_zero hn.ne'
  have hcons : i.text ++ spaces (k + 1) ++ rest = i.text ++ SP :: (spaces k ++ rest) := by
    rw [List.append_assoc]
    rfl
  rw [hcons, ends_item, ends_spaces]

/-- CRLF alone is taken for an atom of no bytes. -/
theorem ends_crlf : Ends parse_pass (packed L, [CR, LF]) (some (packed (L ++ [[]]))) := by
  have hlen : 1 < [CR, LF].length := by decide
  have hnext := parse_next_last L hlen (by decide) (by decide)
  exact (ends_next _ (parse_pass_next (by simp) hnext)).mpr
    ((ends_exit _ (parse_pass_nil _)).mpr rfl)

/-- LF alone is passed over. -/
theorem ends_lf : Ends parse_pass (packed L, [LF]) (some (packed L)) := by
  have hnext := parse_next_byte (packed L) (c := LF) (by decide) (by decide)
  exact (ends_next _ (parse_pass_next (by simp) hnext)).mpr
    ((ends_exit _ (parse_pass_nil _)).mpr rfl)

/-- **The last atom** loses the two bytes in front of the end of the buffer. -/
theorem ends_last_atom {t : Bytes} (hne : t ≠ []) (hsp : SP ∉ t)
    (hquote : t.head? ≠ some QS.default.quote_) {eol : Bytes} (heol : eol ≠ []) (heolsp : SP ∉ eol) :
    Ends parse_pass (packed L, t ++ eol)
      (some (packed (L ++ [(t ++ eol).take ((t ++ eol).length - 2)]))) := by
  have hlen : 1 < (t ++ eol).length := by
    have hpos := List.length_pos_iff.mpr hne
    have hpos' := List.length_pos_iff.mpr heol
    rw [List.length_append]
    omega
  have hnext := parse_next_last L hlen
    (by rw [List.mem_append]; exact fun h => h.elim hsp heolsp)
    (by rw [List.head?_append_of_ne_nil _ hne]; exact hquote)
  exact (ends_next _ (parse_pass_next (by simp [hne]) hnext)).mpr
    ((ends_exit _ (parse_pass_nil _)).mpr rfl)

end Passes

/-! ## §5. The parameters of a line. -/

/-- What CRLF makes of the items. -/
def crlf_params : List (Item × Nat) → List Bytes
  | [] => [[]]
  | [i] => if i.2 = 0 then [i.1.param] else [i.1.param, []]
  | i :: items => i.1.param :: crlf_params items

/-- What LF makes of them. -/
def lf_params : List (Item × Nat) → List Bytes
  | [] => []
  | [i] => if i.2 = 0 ∧ i.1.is_quoted = false then [i.1.param.dropLast] else [i.1.param]
  | i :: items => i.1.param :: lf_params items

/-- **The items up to the last** are parameters whatever the end of the line is; what is made
    of the last one, and of a line without items, depends on it. -/
theorem ends_items {eol : Bytes} {params : List (Item × Nat) → List Bytes}
    (hnil : ∀ L, Ends parse_pass (packed L, eol) (some (packed (L ++ params []))))
    (hlast : ∀ L i, Ends parse_pass (packed L, i.1.text ++ spaces i.2 ++ eol)
      (some (packed (L ++ params [i]))))
    (hcons : ∀ i j items, params (i :: j :: items) = i.1.param :: params (j :: items))
    (items : List (Item × Nat)) : ∀ L : List Bytes, (∀ i ∈ items.dropLast, 0 < i.2) →
      Ends parse_pass (packed L, items_text items ++ eol) (some (packed (L ++ params items))) := by
  induction items with
  | nil => exact fun L _ => hnil L
  | cons i items ih =>
      intro L hapart
      have htext : items_text (i :: items) ++ eol
          = i.1.text ++ spaces i.2 ++ (items_text items ++ eol) := by
        unfold items_text
        rw [List.flatMap_cons, List.append_assoc]
      rw [htext]
      cases items with
      | nil => exact hlast L i
      | cons j items =>
          have hi : 0 < i.2 := hapart i List.mem_cons_self
          have hrest := ih (L ++ [i.1.param]) fun k hk => hapart k (List.mem_cons_of_mem i hk)
          rw [List.append_assoc] at hrest
          rw [ends_item_spaces L i.1 hi, hcons]
          exact hrest

/-- The last item in front of CRLF: with a space behind it, CRLF is an atom. -/
theorem ends_last_crlf (L : List Bytes) (i : Item × Nat) :
    Ends parse_pass (packed L, i.1.text ++ spaces i.2 ++ [CR, LF])
      (some (packed (L ++ crlf_params [i]))) := by
  obtain ⟨i, n⟩ := i
  unfold crlf_params
  by_cases hn : n = 0
  · subst hn
    rw [if_pos rfl]
    show Ends parse_pass (packed L, i.text ++ [] ++ [CR, LF]) _
    rw [List.append_nil]
    cases i with
    | atom t hne hsp hquote =>
        have heol : [CR, LF] ≠ [] := List.cons_ne_nil CR [LF]
        have hlast := ends_last_atom L hne hsp hquote heol (by decide)
        have htake : (t ++ [CR, LF]).take ((t ++ [CR, LF]).length - 2) = t := by
          rw [List.length_append]
          exact List.take_left
        rw [htake] at hlast
        exact hlast
    | quoted text body h =>
        exact (ends_next _ (parse_pass_next (List.cons_ne_nil _ _)
          (parse_next_quoted L h CR [LF]))).mpr (ends_lf _)
  · rw [if_neg hn, ends_item_spaces L i (Nat.pos_of_ne_zero hn)]
    have hrest := ends_crlf (L ++ [i.param])
    rw [List.append_assoc] at hrest
    exact hrest

/-- The last item in front of LF: an atom loses its last byte. -/
theorem ends_last_lf (L : List Bytes) (i : Item × Nat) :
    Ends parse_pass (packed L, i.1.text ++ spaces i.2 ++ [LF])
      (some (packed (L ++ lf_params [i]))) := by
  obtain ⟨i, n⟩ := i
  unfold lf_params
  by_cases hn : n = 0
  · subst hn
    show Ends parse_pass (packed L, i.text ++ [] ++ [LF]) _
    rw [List.append_nil]
    cases i with
    | atom t hne hsp hquote =>
        have heol : [LF] ≠ [] := List.cons_ne_nil LF []
        have hlast := ends_last_atom L hne hsp hquote heol (by decide)
        have htake : (t ++ [LF]).take ((t ++ [LF]).length - 2) = t.dropLast := by
          rw [List.length_append, List.dropLast_eq_take, List.take_append_of_le_length]
          · rfl
          · rw [List.length_singleton]
            omega
        rw [htake] at hlast
        exact hlast
    | quoted text body h =>
        exact (ends_next _ (parse_pass_next (List.cons_ne_nil _ _)
          (parse_next_quoted L h LF []))).mpr ((ends_exit _ (parse_pass_nil _)).mpr rfl)
  · rw [if_neg fun h => hn h.1, ends_item_spaces L i (Nat.pos_of_ne_zero hn)]
    exact ends_lf _

theorem ends_items_crlf (items : List (Item × Nat)) (L : List Bytes)
    (hapart : ∀ i ∈ items.dropLast, 0 < i.2) :
    Ends parse_pass (packed L, items_text items ++ [CR, LF])
      (some (packed (L ++ crlf_params items))) :=
  ends_items ends_crlf ends_last_crlf (fun _ _ _ => rfl) items L hapart

theorem ends_items_lf (items : List (Item × Nat)) (L : List Bytes)
    (hapart : ∀ i ∈ items.dropLast, 0 < i.2) :
    Ends parse_pass (packed L, items_text items ++ [LF])
      (some (packed (L ++ lf_params items))) := by
  refine ends_items (fun L => ?_) ends_last_lf (fun _ _ _ => rfl) items L hapart
  rw [lf_params, List.append_nil]
  exact ends_lf L

/-- **A line that ends in CRLF**: without items, or with a space in front of its end, it has
    an empty parameter. -/
theorem parse_cmd_crlf (line : Command_Line) :
    parse_cmd (line.text ++ [CR, LF]) = some (packed (crlf_params line.items)) := by
  refine parse_cmd_eq ?_
  unfold Command_Line.text
  rw [List.append_assoc, ends_spaces]
  exact ends_items_crlf line.items [] line.apart

/-- **A line that ends in LF**: an atom in front of it loses its last byte. -/
theorem parse_cmd_lf (line : Command_Line) :
    parse_cmd (line.text ++ [LF]) = some (packed (lf_params line.items)) := by
  refine parse_cmd_eq ?_
  unfold Command_Line.text
  rw [List.append_assoc, ends_spaces]
  exact ends_items_lf line.items [] line.apart

/-! ## §6. Both ways. -/

/-- The last item is a quoted string, and the end of the line follows at once. -/
def Command_Line.Ends_Quoted (line : Command_Line) : Prop :=
  ∃ i, line.items.getLast? = some i ∧ i.2 = 0 ∧ i.1.is_quoted = true

theorem crlf_params_iff (items : List (Item × Nat)) :
    crlf_params items = items.map (fun i => i.1.param) ↔
      ∃ i, items.getLast? = some i ∧ i.2 = 0 := by
  induction items with
  | nil => simp [crlf_params]
  | cons i items ih =>
      cases items with
      | nil =>
          by_cases hi : i.2 = 0
          · simp [crlf_params, hi]
          · simp [crlf_params, hi]
      | cons j items =>
          rw [crlf_params, List.map_cons, List.cons.injEq, and_iff_right rfl, ih,
            List.getLast?_cons_cons]
          exact List.cons_ne_nil j items

theorem lf_params_iff (items : List (Item × Nat)) :
    lf_params items = items.map (fun i => i.1.param) ↔
      ∀ i, items.getLast? = some i → i.2 = 0 → i.1.is_quoted = true := by
  induction items with
  | nil => simp [lf_params]
  | cons i items ih =>
      cases items with
      | nil =>
          obtain ⟨i, n⟩ := i
          cases i with
          | quoted text body h => simp [lf_params, Item.is_quoted]
          | atom t hne hsp hquote =>
              -- an atom is longer than what is left of it
              have hshort : t.dropLast ≠ t := by
                intro heq
                have hlen := congrArg List.length heq
                have hpos := List.length_pos_iff.mpr hne
                rw [List.length_dropLast] at hlen
                omega
              by_cases hn : n = 0
              · simp [lf_params, Item.is_quoted, Item.param, hn, hshort]
              · simp [lf_params, hn]
      | cons j items =>
          rw [lf_params, List.map_cons, List.cons.injEq, and_iff_right rfl, ih,
            List.getLast?_cons_cons]
          exact List.cons_ne_nil j items

/-- **The end of the line.**  The parser comes to an end on every line, and does not go behind
    the end of one that ends in LF; and both ways it gives the parameters of a command line
    exactly when the last of them is quoted, and the end of the line follows at once. -/
theorem parse_cmd_line_ends_iff (buf text : Bytes) (line : Command_Line) :
    Ends parse_pass (.new, buf) (parse_cmd buf) ∧ (parse_cmd (text ++ [LF])).isSome ∧
      ((parse_cmd (line.text ++ [CR, LF]) = some (packed line.params) ∧
        parse_cmd (line.text ++ [LF]) = some (packed line.params)) ↔ line.Ends_Quoted) := by
  refine ⟨parse_cmd_ends buf, parse_cmd_lf_isSome text, ?_⟩
  have hpacked : ∀ ps : List Bytes,
      some (packed ps) = some (packed line.params) ↔ ps = line.params := by
    intro ps
    rw [Option.some.injEq]
    exact ⟨packed_inj, congrArg packed⟩
  rw [parse_cmd_crlf, parse_cmd_lf, hpacked, hpacked]
  unfold Command_Line.params
  rw [crlf_params_iff, lf_params_iff]
  constructor
  · rintro ⟨⟨i, hlast, hgap⟩, hquoted⟩
    exact ⟨i, hlast, hgap, hquoted i hlast hgap⟩
  · rintro ⟨i, hlast, hgap, hquoted⟩
    refine ⟨⟨i, hlast, hgap⟩, fun j hj _ => ?_⟩
    obtain rfl := Option.some.inj (hlast.symm.trans hj)
    exact hquoted

/-- "a NOOP" -/
def noop_line : Command_Line :=
  ⟨0, [(.atom [97] (by decide) (by decide) (by decide), 1),
    (.atom [78, 79, 79, 80] (by decide) (by decide) (by decide), 0)], by simp⟩

/-- With LF behind it, the command is "NOO". -/
theorem parse_cmd_noop_lf : ¬ ∀ line : Command_Line,
    parse_cmd (line.text ++ [CR, LF]) = some (packed line.params) ∧
      parse_cmd (line.text ++ [LF]) = some (packed line.params) := by
  intro h
  have hlf := (h noop_line).2
  rw [parse_cmd_lf, Option.some.injEq] at hlf
  exact absurd (packed_inj hlf) (by decide)

end Aos.IMAP4_Server_IO
