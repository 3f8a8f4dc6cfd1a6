/-
  Aos.Lib.Spans — the runs between separators, and what hands them out.

  A span is a run of places without a separator that cannot be made longer.  A
  scanner walks up or down over the places; an iterator hands out the members of
  a set, each once and in an order of its own, and then says for ever that there
  are no more.

  Main results:
    • `next_span`, `prev_span` — skipping separators and then what is none
      finds the next span, and the last one;
    • `hands_out` — from a step of an iterator to all its calls;
    • `handed_reverse` — two iterators over one set in opposite orders.
-/
import Mathlib.Tactic
import Mathlib.Data.List.Sort

namespace Lib.Spans

/-! ## §1. Scanning. -/

/-- `while( e < n && go(e) ) ++e` -/
def up (go : Int → Bool) (n e : Int) : Int :=
  if e < n ∧ go e = true then up go n (e + 1) else e
termination_by (n - e).toNat
decreasing_by omega

/-- `while( 0 <= b && go(b) ) --b` -/
def down (go : Int → Bool) (b : Int) : Int :=
  if 0 ≤ b ∧ go b = true then down go (b - 1) else b
termination_by (b + 1).toNat
decreasing_by omega

section Scan

variable (go : Int → Bool) (n : Int)

/-- **Scanning up** stops at the first place to stop at. -/
theorem up_spec (e : Int) :
    e ≤ up go n e ∧ (∀ i, e ≤ i → i < up go n e → go i = true) ∧
      (n ≤ up go n e ∨ go (up go n e) = false) ∧ (up go n e ≤ n ∨ up go n e = e) := by
  induction e using up.induct go n with
  | case1 e h ih =>
      obtain ⟨hle, hall, hstop, hend⟩ := ih
      rw [up, if_pos h]
      refine ⟨by omega, fun i hi hlt => ?_, hstop, by omega⟩
      by_cases heq : i = e
      · rw [heq]
        exact h.2
      · exact hall i (by omega) hlt
  | case2 e h =>
      rw [up, if_neg h]
      refine ⟨le_rfl, fun i hi hlt => by omega, ?_, Or.inr rfl⟩
      by_cases hn : e < n
      · exact Or.inr (by simpa using fun hgo => h ⟨hn, hgo⟩)
      · exact Or.inl (by omega)

/-- **Scanning down** stops at the first place to stop at. -/
theorem down_spec (b : Int) :
    down go b ≤ b ∧ (∀ i, down go b < i → i ≤ b → go i = true) ∧
      (down go b < 0 ∨ go (down go b) = false) ∧ (-1 ≤ down go b ∨ down go b = b) := by
  induction b using down.induct go with
  | case1 b h ih =>
      obtain ⟨hle, hall, hstop, hend⟩ := ih
      rw [down, if_pos h]
      refine ⟨by omega, fun i hlt hi => ?_, hstop, by omega⟩
      by_cases heq : i = b
      · rw [heq]
        exact h.2
      · exact hall i hlt (by omega)
  | case2 b h =>
      rw [down, if_neg h]
      refine ⟨le_rfl, fun i hlt hi => by omega, ?_, Or.inr rfl⟩
      by_cases hn : 0 ≤ b
      · exact Or.inr (by simpa using fun hgo => h ⟨hn, hgo⟩)
      · exact Or.inl (by omega)

end Scan

/-! ## §2. Spans. -/

/-- The places from `a` up to `b`, among the places from 0 up to `n`. -/
structure Span (sep : Int → Bool) (n a b : Int) : Prop where
  start : 0 ≤ a
  ne : a < b
  stop : b ≤ n
  free : ∀ i, a ≤ i → i < b → sep i = false
  before : a = 0 ∨ sep (a - 1) = true
  behind : b = n ∨ sep b = true

section Spans

variable {sep : Int → Bool} {n a b a' b' e : Int}

/-- **Two spans do not touch.** -/
theorem Span.apart (h : Span sep n a b) (h' : Span sep n a' b') (hlt : a < a') : b < a' := by
  by_contra hnot
  have hstart := h.start
  rcases h'.before with h0 | hsep
  · omega
  · have hfree := h.free (a' - 1) (by omega) (by omega)
    rw [hsep] at hfree
    exact absurd hfree (by decide)

theorem Span.stop_le (h : Span sep n a b) (h' : Span sep n a b') : b' ≤ b := by
  by_contra hnot
  have hstop := h'.stop
  rcases h.behind with hn | hsep
  · omega
  · have hfree := h'.free b (by have := h.ne; omega) (by omega)
    rw [hsep] at hfree
    exact absurd hfree (by decide)

/-- A span is known by its first place. -/
theorem Span.unique (h : Span sep n a b) (h' : Span sep n a b') : b = b' :=
  le_antisymm (h'.stop_le h) (h.stop_le h')

theorem Span.eq_or_apart (h : Span sep n a b) (h' : Span sep n a' b') :
    (a = a' ∧ b = b') ∨ b < a' ∨ b' < a := by
  rcases lt_trichotomy a a' with hlt | rfl | hgt
  · exact Or.inr (Or.inl (h.apart h' hlt))
  · exact Or.inl ⟨rfl, h.unique h'⟩
  · exact Or.inr (Or.inr (h'.apart h hgt))

/-- Only the places themselves count. -/
theorem Span.congr {sep' : Int → Bool} (hsep : ∀ i, 0 ≤ i → i < n → sep i = sep' i) :
    Span sep n a b ↔ Span sep' n a b := by
  have hone : ∀ {s s' : Int → Bool}, (∀ i, 0 ≤ i → i < n → s i = s' i) →
      Span s n a b → Span s' n a b := by
    intro s s' hs h
    have hstart := h.start
    have hne := h.ne
    have hstop := h.stop
    refine ⟨h.start, h.ne, h.stop, fun i hi hib => ?_, ?_, ?_⟩
    · rw [← hs i (by omega) (by omega)]
      exact h.free i hi hib
    · by_cases h0 : a = 0
      · exact Or.inl h0
      · rw [← hs (a - 1) (by omega) (by omega)]
        exact h.before
    · by_cases hn : b = n
      · exact Or.inl hn
      · rw [← hs b (by omega) (by omega)]
        exact h.behind
  exact ⟨hone hsep, hone fun i h0 hn => (hsep i h0 hn).symm⟩

/-- **The next span** behind a place where none is cut in two. -/
theorem next_span (sep : Int → Bool) (n : Int) (he : 0 ≤ e)
    (hedge : e = 0 ∨ n < e ∨ sep (e - 1) = true) :
    let a := up sep n e
    let b := up (fun i => ! sep i) n a
    (a < n ∧ Span sep n a b ∧ ∀ a' b', Span sep n a' b' → e ≤ a' → a ≤ a') ∨
      (n ≤ a ∧ b = a ∧ e ≤ a ∧ (a = 0 ∨ n < a ∨ sep (a - 1) = true) ∧
        ∀ a' b', Span sep n a' b' → ¬ e ≤ a') := by
  intro a b
  obtain ⟨hle, hskip, hstop, hend⟩ := up_spec sep n e
  obtain ⟨hle', hfree, hstop', hend'⟩ := up_spec (fun i => ! sep i) n a
  change e ≤ a at hle
  change a ≤ b at hle'
  have hedge' : a = 0 ∨ n < a ∨ sep (a - 1) = true := by
    by_cases heq : a = e
    · rw [heq]
      exact hedge
    · exact Or.inr (Or.inr (hskip (a - 1) (by omega) (by omega)))
  -- a span that begins at or behind `e` begins behind the separators there
  have hfirst : ∀ a' b', Span sep n a' b' → e ≤ a' → a ≤ a' := by
    intro a' b' h' hea
    by_contra hnot
    have hsep := hskip a' hea (by omega)
    rw [h'.free a' le_rfl h'.ne] at hsep
    exact absurd hsep (by decide)
  by_cases hlt : a < n
  · have hno : sep a = false := by
      rcases hstop with hn | hno
      · exact absurd hn (by omega)
      · exact hno
    have hne : a ≠ b := by
      intro heq
      rcases hstop' with hn | hsep
      · change n ≤ b at hn
        omega
      · change (! sep b) = false at hsep
        rw [← heq, hno] at hsep
        exact absurd hsep (by decide)
    refine Or.inl ⟨hlt, ⟨by omega, by omega, ?_, fun i hi hib => ?_,
      hedge'.imp_right fun h => h.resolve_left (by omega), ?_⟩, hfirst⟩
    · rcases hend' with hn | heq
      · exact hn
      · exact absurd heq.symm hne
    · simpa using hfree i hi hib
    · rcases hstop' with hn | hsep
      · change n ≤ b at hn
        rcases hend' with hn' | heq
        · exact Or.inl (le_antisymm hn' hn)
        · exact absurd heq.symm hne
      · exact Or.inr (by simpa using hsep)
  · have hb : b = a := by
      show up _ n a = a
      rw [up, if_neg fun h => hlt h.1]
    refine Or.inr ⟨by omega, hb, hle, hedge', fun a' b' h' hea => ?_⟩
    have hfar := hfirst a' b' h' hea
    have hstop' := h'.stop
    have hne' := h'.ne
    omega

/-- **The last span** before a place where none is cut in two. -/
theorem prev_span (sep : Int → Bool) (n : Int) (he : e ≤ n)
    (hedge : e = n ∨ e < 0 ∨ sep e = true) :
    let b := down sep (e - 1) + 1
    let a := down (fun i => ! sep i) (b - 1) + 1
    (0 < b ∧ Span sep n a b ∧ ∀ a' b', Span sep n a' b' → b' ≤ e → b' ≤ b) ∨
      (b ≤ 0 ∧ a = b ∧ b ≤ e ∧ (b = n ∨ b < 0 ∨ sep b = true) ∧
        ∀ a' b', Span sep n a' b' → ¬ b' ≤ e) := by
  intro b a
  obtain ⟨hle, hskip, hstop, hend⟩ := down_spec sep (e - 1)
  obtain ⟨hle', hfree, hstop', hend'⟩ := down_spec (fun i => ! sep i) (b - 1)
  have hb : down sep (e - 1) = b - 1 := by
    show down sep (e - 1) = down sep (e - 1) + 1 - 1
    omega
  have ha : down (fun i => ! sep i) (b - 1) = a - 1 := by
    show down _ (b - 1) = down _ (b - 1) + 1 - 1
    omega
  rw [hb] at hle hskip hstop hend
  rw [ha] at hle' hfree hstop' hend'
  have hedge' : b = n ∨ b < 0 ∨ sep b = true := by
    by_cases heq : b = e
    · rw [heq]
      exact hedge
    · exact Or.inr (Or.inr (hskip b (by omega) (by omega)))
  -- a span that ends at or before `e` ends before the separators there
  have hlast : ∀ a' b', Span sep n a' b' → b' ≤ e → b' ≤ b := by
    intro a' b' h' hbe
    by_contra hnot
    have hsep := hskip (b' - 1) (by omega) (by omega)
    rw [h'.free (b' - 1) (by have := h'.ne; omega) (by omega)] at hsep
    exact absurd hsep (by decide)
  by_cases hlt : 0 < b
  · have hno : sep (b - 1) = false := by
      rcases hstop with hn | hno
      · exact absurd hn (by omega)
      · exact hno
    have hne : a ≠ b := by
      intro heq
      rcases hstop' with hn | hsep
      · omega
      · rw [heq, hno] at hsep
        exact absurd hsep (by decide)
    refine Or.inl ⟨hlt, ⟨by omega, by omega, by omega, fun i hi hib => ?_, ?_,
      hedge'.imp_right fun h => h.resolve_left (by omega)⟩, hlast⟩
    · simpa using hfree i (by omega) (by omega)
    · rcases hstop' with hn | hsep
      · exact Or.inl (by omega)
      · exact Or.inr (by simpa using hsep)
  · have hab : a = b := by
      show down _ (b - 1) + 1 = b
      rw [down, if_neg fun h => absurd h.1 (by omega)]
      omega
    refine Or.inr ⟨by omega, hab, by omega, hedge', fun a' b' h' hbe => ?_⟩
    have hfar := hlast a' b' h' hbe
    have hstart := h'.start
    have hne' := h'.ne
    omega

end Spans

/-! ## §3. Iterators. -/

section Iterate

variable {σ ρ ι : Type}

/-- The call number `i`, counted from 0. -/
def calls (f : σ → σ × ρ) : Nat → σ → σ × ρ
  | 0, t => f t
  | i + 1, t => calls f i (f t).1

/-- A call hands out the member that comes before the others that are left, or there
    is none, and the iterator says so. -/
def Handed (left : σ → ι → Prop) (before : ι → ι → Prop) (report : σ × ρ → Option ι → Prop)
    (t : σ) (r : σ × ρ) : Prop :=
  (∃ x, left t x ∧ report r (some x) ∧
      (∀ y, left t y → y = x ∨ before x y) ∧ ∀ y, left r.1 y ↔ left t y ∧ before x y) ∨
    (report r none ∧ (∀ y, ¬ left t y) ∧ ∀ y, ¬ left r.1 y)

/-- **All the calls of an iterator**: they hand out what is left, each once and in
    order, and then there is no more for ever. -/
theorem hands_out (f : σ → σ × ρ) (inv : σ → Prop) (left : σ → ι → Prop)
    (before : ι → ι → Prop) (report : σ × ρ → Option ι → Prop) (size : σ → Nat)
    (hinv : ∀ t, inv t → inv (f t).1)
    (hstep : ∀ t, inv t → Handed left before report t (f t))
    (hsize : ∀ t, inv t → ¬ report (f t) none → size (f t).1 < size t)
    (hone : ∀ r x, report r (some x) → ¬ report r none) :
    ∀ t, inv t → ∃ L : List ι, L.Pairwise before ∧ (∀ x, x ∈ L ↔ left t x) ∧
      ∀ i, report (calls f i t) L[i]? := by
  -- behind the end there is nothing but the end
  have hend : ∀ i t, inv t → (∀ y, ¬ left t y) → report (calls f i t) none := by
    intro i
    induction i with
    | zero =>
        intro t ht hnone
        rcases hstep t ht with ⟨x, hx, _⟩ | ⟨hreport, _⟩
        · exact absurd hx (hnone x)
        · exact hreport
    | succ i ih =>
        intro t ht hnone
        rcases hstep t ht with ⟨x, hx, _⟩ | ⟨_, _, hnext⟩
        · exact absurd hx (hnone x)
        · exact ih (f t).1 (hinv t ht) hnext
  intro t
  induction hk : size t using Nat.strong_induction_on generalizing t with
  | _ k ih =>
      intro ht
      rcases hstep t ht with ⟨x, hx, hreport, hfirst, hleft⟩ | ⟨hreport, hnone, hnext⟩
      · have hlt := hsize t ht (hone _ x hreport)
        obtain ⟨L, hsorted, hmem, hcalls⟩ := ih _ (hk ▸ hlt) _ rfl (hinv t ht)
        refine ⟨x :: L, List.pairwise_cons.mpr ⟨fun y hy => ?_, hsorted⟩, fun y => ?_, fun i => ?_⟩
        · exact ((hleft y).mp ((hmem y).mp hy)).2
        · rw [List.mem_cons, hmem, hleft]
          constructor
          · intro h
            rcases h with rfl | h
            · exact hx
            · exact h.1
          · intro h
            exact (hfirst y h).imp_right fun hbefore => ⟨h, hbefore⟩
        · cases i with
          | zero => exact hreport
          | succ i => exact hcalls i
      · refine ⟨[], List.Pairwise.nil, fun y => ?_, fun i => ?_⟩
        · exact ⟨fun hy => absurd hy List.not_mem_nil, fun hy => absurd hy (hnone y)⟩
        · rw [List.getElem?_nil]
          exact hend i t ht hnone

/-- **Two iterators over one set**, in opposite orders. -/
theorem handed_reverse {before : ι → ι → Prop} (hasymm : ∀ x y, before x y → ¬ before y x) {L L' : List ι}
    (h : L.Pairwise before) (h' : L'.Pairwise fun x y => before y x)
    (hmem : ∀ x, x ∈ L' ↔ x ∈ L) : L' = L.reverse := by
  have : Std.Irrefl fun x y => before y x := ⟨fun x hx => hasymm x x hx hx⟩
  have : Std.Antisymm fun x y => before y x := ⟨fun x y hx hy => absurd hy (hasymm y x hx)⟩
  exact h'.eq_of_mem_iff (List.pairwise_reverse.mpr h)
    fun x => (hmem x).trans List.mem_reverse.symm

end Iterate

end Lib.Spans
