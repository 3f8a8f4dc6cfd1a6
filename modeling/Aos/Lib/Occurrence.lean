/-
  Aos.Lib.Occurrence — the first place where a pattern occurs in a text.

  Main results:
    • `occurrence_some_iff`, `occurrence_none_iff` — the place that is found is
      the first one, and nothing is found where there is none;
    • `occurrence_keep` — what stands behind the pattern does not matter;
    • `occurrence_new` — a pattern put behind a text without one, with something
      foreign to the pattern between the two, is found where it was put;
    • `occurrence_split`, `occurrence_letter`, `occurrence_pair` — the text around
      what is found, for patterns of one letter and of two.
-/
import Mathlib.Tactic

namespace Lib.Occurrence

variable {α : Type} [DecidableEq α]

/-- The first position of `text` at which `pat` occurs. -/
def occurrence (pat : List α) : List α → Option Nat
  | [] => if pat = [] then some 0 else none
  | c :: text =>
      if pat <+: c :: text then some 0 else (occurrence pat text).map (· + 1)

variable {pat text : List α} {p : Nat}

theorem occurrence_cons (c : α) (text : List α) (h : ¬ pat <+: c :: text) :
    occurrence pat (c :: text) = (occurrence pat text).map (· + 1) := if_neg h

/-- **The place is the first one.** -/
theorem occurrence_some_iff :
    occurrence pat text = some p ↔
      p ≤ text.length ∧ pat <+: text.drop p ∧ ∀ q < p, ¬ pat <+: text.drop q := by
  induction text generalizing p with
  | nil =>
      rw [occurrence]
      by_cases hpat : pat = []
      · rw [if_pos hpat, hpat]
        constructor
        · intro h
          obtain rfl := Option.some.inj h
          exact ⟨le_refl 0, List.nil_prefix, fun q hq => absurd hq (Nat.not_lt_zero q)⟩
        · rintro ⟨hle, -, -⟩
          rw [Nat.le_zero.mp hle]
      · rw [if_neg hpat]
        constructor
        · exact fun h => absurd h (by simp)
        · rintro ⟨-, hpre, -⟩
          rw [List.drop_nil] at hpre
          exact absurd (List.prefix_nil.mp hpre) hpat
  | cons c text ih =>
      by_cases hhere : pat <+: c :: text
      · rw [occurrence, if_pos hhere]
        constructor
        · intro h
          obtain rfl := Option.some.inj h
          exact ⟨Nat.zero_le _, hhere, fun q hq => absurd hq (Nat.not_lt_zero q)⟩
        · rintro ⟨-, -, hfirst⟩
          cases p with
          | zero => rfl
          | succ p => exact absurd hhere (hfirst 0 (Nat.succ_pos p))
      · rw [occurrence_cons c text hhere]
        cases p with
        | zero =>
            constructor
            · intro h
              obtain ⟨q, -, hq⟩ := Option.map_eq_some_iff.mp h
              exact absurd hq (Nat.succ_ne_zero q)
            · rintro ⟨-, hpre, -⟩
              exact absurd hpre hhere
        | succ p =>
            have hmap : (occurrence pat text).map (· + 1) = some (p + 1)
                ↔ occurrence pat text = some p := by
              rw [Option.map_eq_some_iff]
              constructor
              · rintro ⟨q, hq, heq⟩
                rwa [← Nat.succ.inj heq]
              · exact fun h => ⟨p, h, rfl⟩
            rw [hmap, ih, List.length_cons]
            constructor
            · rintro ⟨hle, hpre, hfirst⟩
              refine ⟨Nat.succ_le_succ hle, hpre, ?_⟩
              intro q hq
              cases q with
              | zero => exact hhere
              | succ q => exact hfirst q (Nat.lt_of_succ_lt_succ hq)
            · rintro ⟨hle, hpre, hfirst⟩
              exact ⟨Nat.le_of_succ_le_succ hle, hpre,
                fun q hq => hfirst (q + 1) (Nat.succ_lt_succ hq)⟩

theorem occurrence_none_iff :
    occurrence pat text = none ↔ ∀ q ≤ text.length, ¬ pat <+: text.drop q := by
  induction text with
  | nil =>
      rw [occurrence]
      by_cases hpat : pat = []
      · rw [if_pos hpat, hpat]
        exact ⟨fun h => absurd h (by simp),
          fun h => absurd List.nil_prefix (h 0 (Nat.zero_le _))⟩
      · rw [if_neg hpat]
        refine ⟨?_, fun _ => rfl⟩
        intro _ q _ hpre
        rw [List.drop_nil] at hpre
        exact hpat (List.prefix_nil.mp hpre)
  | cons c text ih =>
      by_cases hhere : pat <+: c :: text
      · rw [occurrence, if_pos hhere]
        exact ⟨fun h => absurd h (by simp), fun h => absurd hhere (h 0 (Nat.zero_le _))⟩
      · rw [occurrence_cons c text hhere, Option.map_eq_none_iff, ih]
        constructor
        · intro h q hq
          cases q with
          | zero => exact hhere
          | succ q => exact h q (Nat.le_of_succ_le_succ hq)
        · exact fun h q hq => h (q + 1) (Nat.succ_le_succ hq)

/-- **What stands behind the pattern does not matter.** -/
theorem occurrence_keep {other : List α} (h : occurrence pat text = some p)
    (hkeep : text.take (p + pat.length) <+: other) : occurrence pat other = some p := by
  obtain ⟨hle, hpre, hfirst⟩ := occurrence_some_iff.mp h
  have hlong : p + pat.length ≤ text.length := by
    have hlen := hpre.length_le
    rw [List.length_drop] at hlen
    omega
  obtain ⟨behind, rfl⟩ := hkeep
  have hlen : (text.take (p + pat.length)).length = p + pat.length := by
    rw [List.length_take]
    omega
  -- up to the end of the pattern the two texts are one
  have hsame : ∀ q ≤ p, pat <+: (text.take (p + pat.length) ++ behind).drop q
      ↔ pat <+: text.drop q := by
    intro q hq
    have hcut : ∀ t : List α, text.take (p + pat.length) <+: t →
        (pat <+: t.drop q ↔ pat <+: (text.take (p + pat.length)).drop q) := by
      intro t ht
      have hdrop := ht.drop q
      constructor
      · intro hpat
        refine List.prefix_of_prefix_length_le hpat hdrop ?_
        rw [List.length_drop, hlen]
        omega
      · exact fun hpat => hpat.trans hdrop
    rw [hcut _ (List.prefix_append _ _), hcut _ (List.take_prefix _ _)]
  refine occurrence_some_iff.mpr ⟨?_, (hsame p le_rfl).mpr hpre, ?_⟩
  · rw [List.length_append, hlen]
    omega
  · exact fun q hq hq' => hfirst q hq ((hsame q hq.le).mp hq')

/-- **A new pattern is found where it was put**, behind a text that holds none and
    something foreign to it. -/
theorem occurrence_new {foreign : List α} (hnone : occurrence pat text = none)
    (hforeign : ∀ c ∈ foreign, c ∉ pat) (hne : foreign ≠ []) (behind : List α) :
    occurrence pat (text ++ foreign ++ (pat ++ behind)) = some (text ++ foreign).length := by
  have hno := occurrence_none_iff.mp hnone
  refine occurrence_some_iff.mpr ⟨?_, ?_, ?_⟩
  · simp only [List.length_append]
    omega
  · rw [List.drop_left]
    exact List.prefix_append _ _
  · intro q hq hpre
    rw [List.append_assoc] at hpre
    rcases Nat.lt_or_ge text.length q with hbehind | hle
    · -- the pattern would begin with a foreign letter
      obtain ⟨k, rfl⟩ := Nat.exists_eq_add_of_lt hbehind
      rw [Nat.add_assoc, ← List.drop_drop, List.drop_left] at hpre
      rw [List.length_append] at hq
      rw [List.drop_append_of_le_length (by omega)] at hpre
      obtain ⟨c, more, hcons⟩ : ∃ c more, foreign.drop (k + 1) = c :: more :=
        List.exists_cons_of_length_pos (by rw [List.length_drop]; omega)
      rw [hcons, List.cons_append] at hpre
      cases pat with
      | nil => exact hno 0 (Nat.zero_le _) List.nil_prefix
      | cons d pat =>
          obtain ⟨rfl, -⟩ := List.cons_prefix_cons.mp hpre
          refine hforeign d ?_ List.mem_cons_self
          exact List.mem_of_mem_drop (hcons ▸ List.mem_cons_self)
    · rw [List.drop_append_of_le_length hle] at hpre
      -- the pattern ends before the foreign letters, or reaches into them
      rcases List.prefix_or_prefix_of_prefix hpre (List.prefix_append (text.drop q) _)
        with hin | hover
      · exact hno q hle hin
      · obtain ⟨more, rfl⟩ := hover
        rw [List.prefix_append_right_inj] at hpre
        cases more with
        | nil =>
            rw [List.append_nil] at hno
            exact hno q hle List.prefix_rfl
        | cons d more =>
            obtain ⟨c, foreign, rfl⟩ := List.exists_cons_of_ne_nil hne
            obtain ⟨rfl, -⟩ := List.cons_prefix_cons.mp hpre
            exact hforeign d List.mem_cons_self (List.mem_append_right _ List.mem_cons_self)

/-- Where the whole holds no pattern, its beginning holds none. -/
theorem occurrence_none_of_append {more : List α} (h : occurrence pat (text ++ more) = none) :
    occurrence pat text = none := by
  rw [occurrence_none_iff] at h ⊢
  intro q hq hpre
  refine h q (by rw [List.length_append]; omega) ?_
  rw [List.drop_append_of_le_length hq]
  exact hpre.trans (List.prefix_append _ _)

/-! ### The text around. -/

theorem occurrence_none_iff_absent : occurrence pat text = none ↔ ¬ pat <:+: text := by
  rw [occurrence_none_iff]
  constructor
  · rintro h ⟨a, b, rfl⟩
    refine h a.length (by simp only [List.length_append]; omega) ?_
    rw [List.append_assoc, List.drop_left]
    exact List.prefix_append pat b
  · intro h q _ hpre
    exact h (hpre.isInfix.trans (List.drop_suffix q text).isInfix)

/-- The text in front of the first occurrence, and the text behind it. -/
theorem occurrence_split (h : occurrence pat text = some p) :
    ∃ a b, text = a ++ (pat ++ b) ∧ a.length = p := by
  obtain ⟨hle, ⟨b, hb⟩, -⟩ := occurrence_some_iff.mp h
  refine ⟨text.take p, b, ?_, List.length_take_of_le hle⟩
  rw [hb, List.take_append_drop]

/-- **A letter** is found behind a text without it. -/
theorem occurrence_letter {c : α} {a : List α} (h : c ∉ a) (b : List α) :
    occurrence [c] (a ++ c :: b) = some a.length := by
  induction a with
  | nil =>
      have hpre : [c] <+: c :: b := List.prefix_append [c] b
      rw [List.nil_append, occurrence, if_pos hpre]
      rfl
  | cons d a ih =>
      have hd : ¬ [c] <+: d :: (a ++ c :: b) := by
        intro hpre
        exact h (by rw [(List.cons_prefix_cons.mp hpre).1]; exact List.mem_cons_self)
      rw [List.cons_append, occurrence_cons d _ hd, ih fun hmem => h (List.mem_cons_of_mem d hmem)]
      rfl

theorem occurrence_letter_none {c : α} {a : List α} (h : c ∉ a) : occurrence [c] a = none := by
  rw [occurrence_none_iff_absent]
  exact fun hin => h (hin.subset List.mem_cons_self)

/-- **Two letters** are found behind a text without them. -/
theorem occurrence_pair {c d : α} (hcd : c ≠ d) {a : List α} (h : ¬ [c, d] <:+: a) (b : List α) :
    occurrence [c, d] (a ++ c :: d :: b) = some a.length := by
  induction a with
  | nil =>
      have hpre : [c, d] <+: c :: d :: b := List.prefix_append [c, d] b
      rw [List.nil_append, occurrence, if_pos hpre]
      rfl
  | cons e a ih =>
      have he : ¬ [c, d] <+: e :: (a ++ c :: d :: b) := by
        intro hpre
        obtain ⟨hc, hpre⟩ := List.cons_prefix_cons.mp hpre
        cases a with
        | nil => exact hcd (List.cons_prefix_cons.mp hpre).1.symm
        | cons f a =>
            refine h ?_
            rw [hc, (List.cons_prefix_cons.mp hpre).1]
            exact (List.prefix_append [e, f] a).isInfix
      have hrest : ¬ [c, d] <:+: a := fun hin => h (hin.trans (List.suffix_cons e a).isInfix)
      rw [List.cons_append, occurrence_cons e _ he, ih hrest]
      rfl

/-- What is found first has nothing like it in front. -/
theorem occurrence_front (h : occurrence pat text = some p) {a b : List α}
    (htext : text = a ++ (pat ++ b)) (hlen : a.length = p) (hne : pat ≠ []) : ¬ pat <:+: a := by
  obtain ⟨-, -, hfirst⟩ := occurrence_some_iff.mp h
  rintro ⟨u, v, huv⟩
  have hlt : u.length < p := by
    have hpos := List.length_pos_iff.mpr hne
    have hsum := congrArg List.length huv
    simp only [List.length_append] at hsum
    omega
  refine hfirst u.length hlt ?_
  rw [htext, ← huv, List.append_assoc, List.append_assoc, List.drop_left]
  exact List.prefix_append pat _

end Lib.Occurrence
