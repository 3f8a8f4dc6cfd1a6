/-
  Aos.Net.Smtp.Receiver — mail data as a conforming receiver reads it.

  The receiver stops at the first CRLF '.' CRLF, and takes a leading dot off
  every line that begins with one.  A text sent as it is, with CRLF '.' CRLF
  behind it, comes through exactly when no line of it begins with a dot.

  Main results:
    • `dotted_iff` — the lines with a leading dot, in the text;
    • `unstuff_of_plain`, `unstuff_dotted` — what taking the dots off leaves;
    • `plain_iff` — the texts that come through as they are.
-/
import Aos.Net.Smtp.ServerIO

namespace Aos

open SMTP_Server_IO

namespace SMTP_Receiver

/-! ## §1. The receiver. -/

/-- Where a byte of the text stands. -/
inductive Place where
  | line_start
  | after_cr
  | inside
  deriving DecidableEq

def Place.next (p : Place) (c : Byte) : Place :=
  if c = CR then .after_cr else if c = LF ∧ p = .after_cr then .line_start else .inside

/-- The text without the dots its lines begin with. -/
def unstuff (p : Place) : Bytes → Bytes
  | [] => []
  | c :: rest =>
      if p = .line_start ∧ c = 46 then unstuff (p.next c) rest
      else c :: unstuff (p.next c) rest

/-- What stands in front of the first CRLF '.' CRLF. -/
def until_end : Bytes → Option Bytes
  | [] => none
  | c :: rest => if END_OF_DATA <+: c :: rest then some [] else (until_end rest).map (c :: ·)

def receive (wire : Bytes) : Option Bytes := (until_end wire).map (unstuff .line_start)

/-- Two texts are the same, up to a final CRLF. -/
def Same (a b : Bytes) : Prop := a = b ∨ a = b ++ [CR, LF] ∨ b = a ++ [CR, LF]

/-- The bytes on the wire give the mail back. -/
def Transparent (wire eml : Bytes) : Prop := ∃ text, receive wire = some text ∧ Same text eml

/-! ## §2. Lines with a leading dot. -/

/-- Some line begins with a dot. -/
def Dotted (p : Place) : Bytes → Prop
  | [] => False
  | c :: rest => p = .line_start ∧ c = 46 ∨ Dotted (p.next c) rest

/-- **The lines with a leading dot.** -/
theorem dotted_place_iff (s : Bytes) :
    ∀ p, Dotted p s ↔ p = .line_start ∧ [46] <+: s ∨ p = .after_cr ∧ [LF, 46] <+: s ∨
      [CR, LF, 46] <:+: s := by
  induction s with
  | nil =>
      intro p
      simp [Dotted]
  | cons c s ih =>
      intro p
      have hdot : ¬ (46 : Byte) = LF := by decide
      have hdotcr : ¬ (46 : Byte) = CR := by decide
      have hlfcr : ¬ LF = CR := by decide
      rw [Dotted, ih, List.infix_cons_iff]
      simp only [List.cons_prefix_cons, List.nil_prefix, and_true]
      unfold Place.next
      by_cases hc : c = CR
      · subst hc
        rw [if_pos rfl]
        simp [hdotcr]
        grind
      · rw [if_neg hc]
        by_cases hlf : c = LF ∧ p = .after_cr
        · rw [if_pos hlf]
          obtain ⟨rfl, rfl⟩ := hlf
          simp
          grind
        · rw [if_neg hlf]
          grind

theorem dotted_iff (s : Bytes) : Dotted .line_start s ↔ [46] <+: s ∨ [CR, LF, 46] <:+: s := by
  rw [dotted_place_iff]
  simp

/-- Without such a line nothing is taken off. -/
theorem unstuff_of_plain (s : Bytes) : ∀ p, ¬ Dotted p s → unstuff p s = s := by
  induction s with
  | nil => exact fun _ _ => rfl
  | cons c s ih =>
      intro p h
      rw [Dotted, not_or] at h
      rw [unstuff, if_neg h.1, ih _ h.2]

theorem unstuff_length (s : Bytes) : ∀ p, (unstuff p s).length ≤ s.length := by
  induction s with
  | nil => exact fun _ => le_refl _
  | cons c s ih =>
      intro p
      have hrest := ih (p.next c)
      rw [unstuff]
      split
      · rw [List.length_cons]
        omega
      · rw [List.length_cons, List.length_cons]
        omega

/-- Dots that stand inside a line are no CRLF. -/
theorem dots_ne_crlf (s : Bytes) : 46 :: s ≠ unstuff .inside s ++ [CR, LF] := by
  induction s with
  | nil => decide
  | cons c s ih =>
      intro heq
      rw [unstuff, if_neg (by simp), List.cons_append, List.cons.injEq] at heq
      obtain ⟨rfl, htail⟩ := heq
      exact ih htail

/-- **With one, the text is not what it was**, and not without its last CRLF. -/
theorem unstuff_dotted (s : Bytes) :
    ∀ p, Dotted p s → (unstuff p s).length < s.length ∧ s ≠ unstuff p s ++ [CR, LF] := by
  induction s with
  | nil => exact fun p h => h.elim
  | cons c s ih =>
      intro p h
      rw [unstuff]
      by_cases hdot : p = .line_start ∧ c = 46
      · rw [if_pos hdot]
        obtain ⟨rfl, rfl⟩ := hdot
        have hlen := unstuff_length s .inside
        refine ⟨?_, dots_ne_crlf s⟩
        show (unstuff .inside s).length < _
        rw [List.length_cons]
        omega
      · rw [if_neg hdot]
        obtain ⟨hlen, hne⟩ := ih (p.next c) (h.resolve_left hdot)
        rw [List.length_cons, List.length_cons]
        refine ⟨by omega, ?_⟩
        intro heq
        exact hne (List.cons.inj heq).2

/-! ## §3. The end of the data. -/

/-- What is found stands in front of an end. -/
theorem prefix_until_end (wire : Bytes) :
    ∀ text, until_end wire = some text → text ++ END_OF_DATA <+: wire := by
  induction wire with
  | nil =>
      intro text h
      exact absurd h (by simp [until_end])
  | cons c wire ih =>
      intro text h
      rw [until_end] at h
      by_cases hend : END_OF_DATA <+: c :: wire
      · rw [if_pos hend] at h
        obtain rfl := Option.some.inj h
        exact hend
      · rw [if_neg hend] at h
        obtain ⟨rest, hrest, rfl⟩ := Option.map_eq_some_iff.mp h
        rw [List.cons_append, List.cons_prefix_cons]
        exact ⟨rfl, ih rest hrest⟩

/-- An end is found, and none behind it. -/
theorem until_end_first (wire : Bytes) :
    ∀ text, text ++ END_OF_DATA <+: wire →
      ∃ text', until_end wire = some text' ∧ text'.length ≤ text.length := by
  induction wire with
  | nil =>
      intro text h
      exact absurd (List.prefix_nil.mp h) (by simp [END_OF_DATA])
  | cons c wire ih =>
      intro text h
      rw [until_end]
      by_cases hend : END_OF_DATA <+: c :: wire
      · rw [if_pos hend]
        exact ⟨[], rfl, Nat.zero_le _⟩
      · rw [if_neg hend]
        cases text with
        | nil => exact absurd h hend
        | cons d text =>
            rw [List.cons_append, List.cons_prefix_cons] at h
            obtain ⟨text', htext', hlen⟩ := ih text h.2
            refine ⟨c :: text', by rw [htext']; rfl, ?_⟩
            rw [List.length_cons, List.length_cons]
            omega

/-- In a text with its end behind it, an earlier end shows its dot in the text. -/
theorem earlier_end {eml text : Bytes} (h : text ++ END_OF_DATA <+: eml ++ END_OF_DATA)
    (hlt : text.length < eml.length) :
    text.length + 3 ≤ eml.length ∧ [CR, LF, 46] <:+: eml := by
  -- what stands behind the text is the rest of the mail, and the end
  obtain ⟨rest, hrest⟩ : text <+: eml :=
    List.prefix_of_prefix_length_le ((List.prefix_append _ _).trans h) (List.prefix_append _ _)
      (by omega)
  subst hrest
  rw [List.append_assoc, List.prefix_append_right_inj] at h
  have hlen : rest ≠ [] := by
    intro hnil
    rw [hnil, List.append_nil] at hlt
    omega
  -- CR is neither LF nor '.', so the rest is longer than two bytes
  have hlong : 3 ≤ rest.length := by
    have hlf : ¬ LF = CR := by decide
    have hmark : ¬ (46 : Byte) = CR := by decide
    match rest, hlen with
    | [c], _ => exact absurd h (by simp [END_OF_DATA, hlf])
    | [c, d], _ => exact absurd h (by simp [END_OF_DATA, hmark])
    | c :: d :: e :: rest, _ => simp
  have hdot : [CR, LF, 46] <+: rest := by
    have hshort : [CR, LF, 46] <+: END_OF_DATA := by decide
    exact List.prefix_of_prefix_length_le (hshort.trans h) (List.prefix_append _ _) hlong
  rw [List.length_append]
  exact ⟨by omega, hdot.isInfix.trans (List.suffix_append text rest).isInfix⟩

/-- A text that is too short is not the mail. -/
theorem not_same_of_short {text eml : Bytes} (h : text.length + 3 ≤ eml.length) :
    ¬ Same text eml := by
  intro hsame
  have htwo : ([CR, LF] : Bytes).length = 2 := rfl
  rcases hsame with heq | heq | heq
  · rw [heq] at h
    omega
  · rw [heq, List.length_append, htwo] at h
    omega
  · rw [heq, List.length_append, htwo] at h
    omega

/-- **The texts that come through as they are.** -/
theorem plain_iff (eml : Bytes) :
    Transparent (eml ++ END_OF_DATA) eml ↔ ¬ [46] <+: eml ∧ ¬ [CR, LF, 46] <:+: eml := by
  obtain ⟨text, htext, hle⟩ := until_end_first (eml ++ END_OF_DATA) eml List.prefix_rfl
  have hprefix := prefix_until_end _ text htext
  rw [← not_or, ← dotted_iff]
  have hreceive : receive (eml ++ END_OF_DATA) = some (unstuff .line_start text) := by
    unfold receive
    rw [htext]
    rfl
  by_cases hlt : text.length < eml.length
  · -- an end in the mail itself
    obtain ⟨hshort, hdot⟩ := earlier_end hprefix hlt
    constructor
    · intro htrans
      obtain ⟨text', htext', hsame⟩ := htrans
      obtain rfl := Option.some.inj (hreceive.symm.trans htext')
      have hlen := unstuff_length text .line_start
      exact absurd hsame (not_same_of_short (by omega))
    · intro hplain
      exact absurd ((dotted_iff eml).mpr (Or.inr hdot)) hplain
  · -- the end behind it
    have hsame : text = eml := by
      have hpre : text <+: eml :=
        List.prefix_of_prefix_length_le ((List.prefix_append _ _).trans hprefix)
          (List.prefix_append _ _) hle
      exact hpre.eq_of_length (by omega)
    rw [hsame] at hreceive
    constructor
    · intro htrans hdotted
      obtain ⟨text', htext', hsame⟩ := htrans
      obtain rfl := Option.some.inj (hreceive.symm.trans htext')
      obtain ⟨hshort, hne⟩ := unstuff_dotted eml .line_start hdotted
      rcases hsame with heq | heq | heq
      · rw [heq] at hshort
        omega
      · rw [heq, List.length_append] at hshort
        omega
      · exact hne heq
    · intro hplain
      exact ⟨_, hreceive, Or.inl (unstuff_of_plain eml .line_start hplain)⟩

end SMTP_Receiver

end Aos
