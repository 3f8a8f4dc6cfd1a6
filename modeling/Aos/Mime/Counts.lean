/-
  Aos.Mime.Counts — what the file exporters report.

  `dump_file` adds up what `fwrite` returns: items, one for every string that is not
  empty.  `export_file_handle` adds up what `write` returns: bytes.  Both leave the
  boundary lines in front of the parts out, and both count the one behind them.

  What is left out never makes up for anything (`uncounted_add`), so the count is
  right exactly where nothing is left out, entity by entity.

  **`file_exporters_count`** says where that is.
-/
import Aos.Mime.Size

namespace Aos

open MIME_Entity

/-- `export_file(filename, flag, no_hidden_header)`: what is in the file, and the value
    returned. -/
def export_file (e : MIME_Entity) (flag : Flag) (no_hidden_header : Bool) : Bytes × Int :=
  let w := dump_file e flag no_hidden_header
  (w.bytes, toInt w.n_byte)

/-! ## §1. What is not counted. -/

/-- The bytes that are missing from the count. -/
def Written.missing (w : Written) : Int := w.bytes.length - w.n_byte

@[simp] theorem missing_add (a b : Written) : (a ++ b).missing = a.missing + b.missing := by
  show ((a.bytes ++ b.bytes).length : Int) - (a.n_byte + b.n_byte)
    = (a.bytes.length - a.n_byte) + (b.bytes.length - b.n_byte)
  rw [List.length_append]
  omega

@[simp] theorem missing_none : Written.none.missing = 0 := rfl

theorem missing_uncounted (w : Written) : w.uncounted.missing = w.bytes.length := Int.sub_zero _

/-- The strings of an entity of which a write is counted. -/
def own_strings (flag : Flag) (no_hidden_header : Bool) (e : MIME_Entity) : List Bytes :=
  e.header_.filter (fun field => ! is_hidden no_hidden_header field) ++
    if flag = .HEADER then []
    else [e.preamble] ++ (if e.child_ = [] ∧ flag ≠ .NO_BODY then [e.body] else []) ++ [e.epilogue]

/-- The entities that are written. -/
def exported (flag : Flag) (e : MIME_Entity) : List MIME_Entity :=
  e :: if flag = .HEADER then [] else descendants e

/-- No boundary lines are written between parts. -/
def no_boundary (flag : Flag) (e : MIME_Entity) : Prop :=
  flag ≠ .HEADER → e.child_ ≠ [] → e.get_boundary = []

/-! ### What holds of every write. -/

section Closed

variable {put : Bytes → Written} {P : Written → Prop} (hnone : P .none)
  (hadd : ∀ a b, P a → P b → P (a ++ b)) (hput : ∀ s, P (put s))

include hnone hadd hput

theorem write_header_closed (no_hidden_header : Bool) (hs : MIME_Header_List) :
    P (write_header put no_hidden_header hs) := by
  induction hs with
  | nil => exact hnone
  | cons it hs ih =>
      rw [write_header]
      split
      · exact ih
      · exact hadd _ _ (hput it) ih

variable (huncounted : ∀ s, P (put s).uncounted)

include huncounted

omit hput in
theorem dump_child_with_closed (flag : Flag) (no_hidden_header : Bool) (boundary : Bytes)
    (es : List MIME_Entity) (h : ∀ c ∈ es, P (dump_with put flag no_hidden_header c)) :
    P (dump_child_with put flag no_hidden_header boundary es) := by
  induction es with
  | nil => exact hnone
  | cons e es ih =>
      rw [dump_child_with]
      refine hadd _ _ (hadd _ _ ?_ (h e List.mem_cons_self))
        (ih (fun c hc => h c (List.mem_cons_of_mem e hc)))
      split
      · exact hadd _ _ (hadd _ _ (huncounted _) (huncounted _)) (huncounted _)
      · exact hnone

/-- **What holds of every write** and of what is put together from such, holds of the
    whole. -/
theorem dump_with_closed (flag : Flag) (no_hidden_header : Bool) : ∀ e,
    P (dump_with put flag no_hidden_header e) := by
  intro e
  induction e using MIME_Entity.induct with
  | h e ih =>
      have hheader := write_header_closed hnone hadd hput no_hidden_header e.header_
      have hchild := dump_child_with_closed hnone hadd huncounted flag no_hidden_header
        e.get_boundary e.child_ ih
      obtain ⟨header_, preamble_, body_, epilogue_, child_, status_, pstate_, separator_⟩ := e
      rw [dump_with]
      dsimp only
      split
      · exact hheader
      · refine hadd _ _ ?_ (hput _)
        split_ifs
        · exact hadd _ _ (hadd _ _ hheader (hput _)) (hput _)
        · exact hadd _ _ hheader (hput _)
        · refine hadd _ _ (hadd _ _ (hadd _ _ ?_ (hput _)) (hput _)) (hput _)
          exact hadd _ _ (hadd _ _ hheader (hput _)) hchild
        · exact hadd _ _ (hadd _ _ hheader (hput _)) hchild

end Closed

/-! ### Where nothing is missing. -/

section Missing

variable {put : Bytes → Written} (hbytes : ∀ s, (put s).bytes = s)
  (hput : ∀ s, 0 ≤ (put s).missing)

theorem missing_add_nonneg (a b : Written) (ha : 0 ≤ a.missing) (hb : 0 ≤ b.missing) :
    0 ≤ (a ++ b).missing := by
  rw [missing_add]
  omega

theorem missing_uncounted_nonneg (w : Written) : 0 ≤ w.uncounted.missing := by
  rw [missing_uncounted]
  omega

include hput

theorem write_header_missing (no_hidden_header : Bool) (hs : MIME_Header_List) :
    (write_header put no_hidden_header hs).missing = 0 ↔
      ∀ s ∈ hs.filter (fun field => ! is_hidden no_hidden_header field), (put s).missing = 0 := by
  induction hs with
  | nil => exact ⟨fun _ s hs => absurd hs List.not_mem_nil, fun _ => rfl⟩
  | cons it hs ih =>
      rw [write_header]
      by_cases hit : is_hidden no_hidden_header it = true
      · rw [if_pos hit, List.filter_cons_of_neg (by rw [hit]; decide)]
        exact ih
      · have hpos := hput it
        have hrest := write_header_closed (P := fun w => 0 ≤ w.missing) le_rfl missing_add_nonneg
          hput no_hidden_header hs
        rw [if_neg hit, List.filter_cons_of_pos (by simpa using hit), missing_add,
          List.forall_mem_cons, ← ih]
        omega

theorem dump_with_nonneg (flag : Flag) (no_hidden_header : Bool) (e : MIME_Entity) :
    0 ≤ (dump_with put flag no_hidden_header e).missing :=
  dump_with_closed (P := fun w => 0 ≤ w.missing) le_rfl missing_add_nonneg hput
    (fun _ => missing_uncounted_nonneg _) flag no_hidden_header e

include hbytes

/-- A boundary line in front of a part is missing altogether. -/
theorem dump_child_with_missing (flag : Flag) (no_hidden_header : Bool) (boundary : Bytes)
    (es : List MIME_Entity) :
    (dump_child_with put flag no_hidden_header boundary es).missing = 0 ↔
      (es ≠ [] → boundary = []) ∧
      ∀ c ∈ es, (dump_with put flag no_hidden_header c).missing = 0 := by
  induction es with
  | nil =>
      exact ⟨fun _ => ⟨fun h => absurd rfl h, fun c hc => absurd hc List.not_mem_nil⟩,
        fun _ => rfl⟩
  | cons e es ih =>
      have he := dump_with_nonneg hput flag no_hidden_header e
      have hes := dump_child_with_closed (P := fun w => 0 ≤ w.missing) le_rfl missing_add_nonneg
        (fun _ => missing_uncounted_nonneg _) flag no_hidden_header boundary es
        (fun c _ => dump_with_nonneg hput flag no_hidden_header c)
      rw [dump_child_with, missing_add, missing_add, List.forall_mem_cons]
      by_cases hb : boundary = []
      · have hes' : es ≠ [] → boundary = [] := fun _ => hb
        have hall : e :: es ≠ [] → boundary = [] := fun _ => hb
        rw [if_neg (not_not.mpr hb), missing_none, and_iff_right hall]
        rw [and_iff_right hes'] at ih
        rw [← ih]
        omega
      · have hline : 0 < ((put (lit "--")).uncounted ++ (put boundary).uncounted
            ++ (put (lit "\r\n")).uncounted).missing := by
          rw [missing_add, missing_add, missing_uncounted, missing_uncounted, missing_uncounted,
            hbytes, hbytes, hbytes]
          have hlen : (lit "--").length = 2 := by decide
          omega
        rw [if_pos hb]
        refine ⟨fun hsum => by omega, fun h => ?_⟩
        exact absurd (h.1 (List.cons_ne_nil e es)) hb

omit hbytes hput

/-- Nothing is missing from an entity itself. -/
def Counted (put : Bytes → Written) (flag : Flag) (no_hidden_header : Bool) (e : MIME_Entity) :
    Prop :=
  no_boundary flag e ∧ ∀ s ∈ own_strings flag no_hidden_header e, (put s).missing = 0

theorem exported_iff {flag : Flag} (hflag : flag ≠ .HEADER) (P : MIME_Entity → Prop)
    (e : MIME_Entity) : (∀ d ∈ exported flag e, P d) ↔ everywhere P e := by
  unfold exported everywhere
  rw [if_neg hflag, List.forall_mem_cons]

/-- What is missing from an entity, piece by piece. -/
theorem dump_with_missing_eq (put : Bytes → Written) {flag : Flag} (hflag : flag ≠ .HEADER)
    (no_hidden_header : Bool) (e : MIME_Entity) :
    (dump_with put flag no_hidden_header e).missing
      = (write_header put no_hidden_header e.header_).missing + (put e.preamble).missing
        + (if e.child_ = [] then if flag ≠ .NO_BODY then (put e.body).missing else 0
          else (dump_child_with put flag no_hidden_header e.get_boundary e.child_).missing
            + if e.get_boundary ≠ [] then
                (put (lit "--") ++ put e.get_boundary ++ put (lit "--\r\n")).missing
              else 0)
        + (put e.epilogue).missing := by
  obtain ⟨header_, preamble_, body_, epilogue_, child_, status_, pstate_, separator_⟩ := e
  rw [dump_with, if_neg hflag]
  dsimp only
  rw [missing_add]
  congr 1
  split_ifs
  · rw [missing_add, missing_add]
  · rw [missing_add]
    omega
  · rw [missing_add, missing_add, missing_add, missing_add, missing_add, missing_add, missing_add]
    omega
  · rw [missing_add, missing_add]
    omega

include hput in
theorem counted_iff {flag : Flag} (hflag : flag ≠ .HEADER) (no_hidden_header : Bool)
    (e : MIME_Entity) :
    Counted put flag no_hidden_header e ↔
      (e.child_ ≠ [] → e.get_boundary = []) ∧
      (write_header put no_hidden_header e.header_).missing = 0 ∧ (put e.preamble).missing = 0 ∧
      (e.child_ = [] ∧ flag ≠ .NO_BODY → (put e.body).missing = 0) ∧
      (put e.epilogue).missing = 0 := by
  unfold Counted own_strings no_boundary
  rw [if_neg hflag, write_header_missing hput no_hidden_header e.header_,
    forall_prop_of_true hflag]
  simp only [List.forall_mem_append, List.forall_mem_singleton]
  split_ifs with hbody
  · simp only [List.forall_mem_singleton, hbody, ne_eq, not_false_eq_true, true_imp_iff, and_assoc,
      and_self]
  · simp only [List.not_mem_nil, false_imp_iff, implies_true, and_true, true_and, hbody]

include hbytes hput

/-- **The entity and its parts**: nothing is missing if nothing is missing from any of the
    entities that are written. -/
theorem dump_with_missing (flag : Flag) (no_hidden_header : Bool) : ∀ e,
    (dump_with put flag no_hidden_header e).missing = 0 ↔
      ∀ d ∈ exported flag e, Counted put flag no_hidden_header d := by
  intro e
  induction e using MIME_Entity.induct with
  | h e ih =>
      have hfields := write_header_missing hput no_hidden_header e.header_
      have hchild := dump_child_with_missing hbytes hput flag no_hidden_header e.get_boundary
        e.child_
      by_cases hflag : flag = .HEADER
      · obtain ⟨header_, preamble_, body_, epilogue_, child_, status_, pstate_, separator_⟩ := e
        rw [dump_with, if_pos hflag]
        refine hfields.trans ?_
        unfold exported Counted own_strings no_boundary
        rw [if_pos hflag, List.forall_mem_singleton, if_pos hflag, List.append_nil]
        exact (and_iff_right (fun h => absurd hflag h)).symm
      · have hparts : (∀ c ∈ e.child_, (dump_with put flag no_hidden_header c).missing = 0) ↔
            ∀ c ∈ e.child_, everywhere (Counted put flag no_hidden_header) c := by
          refine forall_congr' fun c => forall_congr' fun hc => ?_
          rw [ih c hc, exported_iff hflag]
        rw [hparts] at hchild
        rw [exported_iff hflag, everywhere_iff, dump_with_missing_eq put hflag,
          counted_iff hput hflag]
        -- nothing that is missing makes up for anything
        have hheader := write_header_closed (P := fun w => 0 ≤ w.missing) le_rfl
          missing_add_nonneg hput no_hidden_header e.header_
        have hbelow := dump_child_with_closed (P := fun w => 0 ≤ w.missing) le_rfl
          missing_add_nonneg (fun _ => missing_uncounted_nonneg _) flag no_hidden_header
          e.get_boundary e.child_ (fun c _ => dump_with_nonneg hput flag no_hidden_header c)
        have hpreamble := hput e.preamble
        have hbody := hput e.body
        have hepilogue := hput e.epilogue
        have hend := missing_add_nonneg _ _ (missing_add_nonneg _ _ (hput (lit "--"))
          (hput e.get_boundary)) (hput (lit "--\r\n"))
        by_cases hleaf : e.child_ = []
        · have hnone : ∀ c ∈ e.child_, everywhere (Counted put flag no_hidden_header) c := by
            rw [hleaf]
            exact fun c hc => absurd hc List.not_mem_nil
          rw [if_pos hleaf, and_iff_left hnone, and_iff_right (fun h => absurd hleaf h)]
          by_cases hno : flag ≠ .NO_BODY
          · have hboth : e.child_ = [] ∧ flag ≠ .NO_BODY := ⟨hleaf, hno⟩
            rw [if_pos hno, forall_prop_of_true hboth]
            omega
          · have hnot : ¬ (e.child_ = [] ∧ flag ≠ .NO_BODY) := fun h => hno h.2
            rw [if_neg hno, forall_prop_of_false hnot, true_and]
            omega
        · have hnot : ¬ (e.child_ = [] ∧ flag ≠ .NO_BODY) := fun h => hleaf h.1
          rw [if_neg hleaf, forall_prop_of_false hnot, true_and]
          by_cases hb : e.get_boundary = []
          · rw [if_neg (not_not.mpr hb), and_iff_right (fun _ => hb)]
            rw [and_iff_right (fun _ => hb)] at hchild
            rw [← hchild]
            omega
          · have hpos : (dump_child_with put flag no_hidden_header e.get_boundary
                e.child_).missing ≠ 0 := fun h => hb ((hchild.mp h).1 hleaf)
            rw [if_pos hb]
            refine ⟨fun h => by omega, fun h => ?_⟩
            exact absurd (h.1.1 hleaf) hb

end Missing

/-! ## §2. How much is written. -/

/-- The bytes of an entity's own strings. -/
def own_bytes (flag : Flag) (no_hidden_header : Bool) (e : MIME_Entity) : Nat :=
  (own_strings flag no_hidden_header e).flatten.length

/-- The bytes of the strings that are to be written. -/
def exported_bytes (flag : Flag) (no_hidden_header : Bool) (e : MIME_Entity) : Nat :=
  ((exported flag e).map (own_bytes flag no_hidden_header)).sum

theorem sum_descendants (f : MIME_Entity → Nat) (e : MIME_Entity) :
    ((descendants e).map f).sum
      = (e.child_.map (fun c => f c + ((descendants c).map f).sum)).sum := by
  have hof : ∀ es, ((descendants_of es).map f).sum
      = (es.map (fun c => f c + ((descendants c).map f).sum)).sum := by
    intro es
    induction es with
    | nil => rfl
    | cons a es ih =>
        rw [descendants_of, List.map_append, List.sum_append, List.map_cons, List.sum_cons, ih,
          List.map_cons, List.sum_cons]
  obtain ⟨header_, preamble_, body_, epilogue_, child_, status_, pstate_, separator_⟩ := e
  rw [descendants]
  exact hof child_

/-- Without boundary lines an entity's own size is that of its strings. -/
theorem own_size_eq {flag : Flag} (hflag : flag ≠ .HEADER) (no_hidden_header : Bool)
    (e : MIME_Entity) (hb : no_boundary flag e) :
    own_size flag no_hidden_header e = own_bytes flag no_hidden_header e := by
  unfold own_size own_bytes own_strings compose
  rw [if_neg hflag, if_neg hflag, List.flatten_append, ← dump_header_filter]
  by_cases hchild : e.child_ = []
  · by_cases hno : flag = .NO_BODY
    · simp [hchild, hno]
    · simp [hchild, hno]
  · have hempty : e.get_boundary = [] := hb hflag hchild
    simp [hchild, hempty]

/-- **What is written**, where there are no boundary lines. -/
theorem dump_bytes_strings (flag : Flag) (no_hidden_header : Bool) : ∀ e,
    (∀ d ∈ exported flag e, no_boundary flag d) →
    (dump_bytes flag no_hidden_header e).length = exported_bytes flag no_hidden_header e := by
  by_cases hflag : flag = .HEADER
  · intro e _
    rw [dump_bytes_eq]
    unfold compose exported_bytes exported own_bytes own_strings
    rw [if_pos hflag, if_pos hflag, List.map_singleton, List.sum_singleton, if_pos hflag,
      List.append_nil, List.append_nil, dump_header_filter]
  · intro e
    induction e using MIME_Entity.induct with
    | h e ih =>
        intro hb
        obtain ⟨hself, hbelow⟩ := (everywhere_iff _ e).mp ((exported_iff hflag _ e).mp hb)
        have hchild : (e.child_.map (fun c => (dump_bytes flag no_hidden_header c).length))
            = e.child_.map (fun c => own_bytes flag no_hidden_header c
              + ((descendants c).map (own_bytes flag no_hidden_header)).sum) := by
          refine List.map_congr_left fun c hc => ?_
          rw [ih c hc ((exported_iff hflag _ c).mpr (hbelow c hc))]
          unfold exported_bytes exported
          rw [if_neg hflag, List.map_cons, List.sum_cons]
        rw [dump_bytes_eq, compose_length flag hflag, own_size_eq hflag no_hidden_header e hself,
          hchild, ← sum_descendants]
        unfold exported_bytes exported
        rw [if_neg hflag, List.map_cons, List.sum_cons]

/-! ## §3. The two exporters. -/

theorem fwrite_missing (s : Bytes) :
    0 ≤ (fwrite s).missing ∧ ((fwrite s).missing = 0 ↔ s.length ≤ 1) := by
  show 0 ≤ (s.length : Int) - (if s = [] then 0 else 1) ∧
    ((s.length : Int) - (if s = [] then 0 else 1) = 0 ↔ s.length ≤ 1)
  split_ifs with hs
  · rw [hs, List.length_nil]
    omega
  · have hpos := List.length_pos_iff.mpr hs
    omega

theorem fwrite_nonneg (s : Bytes) : 0 ≤ (fwrite s).n_byte := by
  show 0 ≤ (if s = [] then 0 else 1 : Int)
  split <;> decide

theorem write_missing (s : Bytes) : (write s).missing = 0 := Int.sub_self _

theorem missing_eq_zero (w : Written) : w.missing = 0 ↔ w.n_byte = w.bytes.length := by
  show (w.bytes.length : Int) - w.n_byte = 0 ↔ _
  omega

/-- A count that is too low stays too low as an `int`. -/
theorem toInt_count_iff {n : Int} {m : Nat} (h0 : 0 ≤ n) (hn : n ≤ m) :
    toInt n = m ↔ n = m ∧ m < 2 ^ 31 := by
  constructor
  · intro h
    have hlt := Int.bmod_lt (x := n) (m := 2 ^ 32) (by decide)
    unfold toInt at h
    refine ⟨?_, by omega⟩
    have hsmall : toInt n = n := toInt_of_lt (by omega) (by omega)
    rw [← hsmall]
    exact h
  · intro h
    rw [h.1, toInt_eq_iff]
    exact h.2

/-- The strings of an entity have at most one byte each. -/
def single_bytes (flag : Flag) (no_hidden_header : Bool) (e : MIME_Entity) : Prop :=
  ∀ s ∈ own_strings flag no_hidden_header e, s.length ≤ 1

/-- **When the file exporters report what they have written.**  `export_file` does where no
    boundary line is written and no string is longer than the one it is counted as;
    `export_file_handle` does where no boundary line is written. -/
theorem file_exporters_count (e : MIME_Entity) (flag : Flag) (no_hidden_header : Bool) :
    ((export_file e flag no_hidden_header).2 = (export_file e flag no_hidden_header).1.length ↔
      (∀ d ∈ exported flag e, no_boundary flag d ∧ single_bytes flag no_hidden_header d) ∧
        exported_bytes flag no_hidden_header e < 2 ^ 31) ∧
    ((export_file_handle e flag no_hidden_header).n_byte
        = (export_file_handle e flag no_hidden_header).bytes.length ↔
      ∀ d ∈ exported flag e, no_boundary flag d) := by
  constructor
  · have hcounted : ∀ d, Counted fwrite flag no_hidden_header d ↔
        no_boundary flag d ∧ single_bytes flag no_hidden_header d := by
      intro d
      unfold Counted single_bytes
      simp only [fwrite_missing]
    have hzero : (dump_file e flag no_hidden_header).missing = 0 ↔
        ∀ d ∈ exported flag e, no_boundary flag d ∧ single_bytes flag no_hidden_header d := by
      simp only [← hcounted]
      exact dump_with_missing (fun _ => rfl) (fun s => (fwrite_missing s).1) flag
        no_hidden_header e
    have hle : (dump_file e flag no_hidden_header).n_byte
        ≤ ((dump_file e flag no_hidden_header).bytes.length : Nat) :=
      Int.sub_nonneg.mp (dump_with_nonneg (fun s => (fwrite_missing s).1) flag no_hidden_header e)
    have hpos : 0 ≤ (dump_file e flag no_hidden_header).n_byte :=
      dump_with_closed (P := fun w => 0 ≤ w.n_byte) le_rfl (fun a b ha hb => Int.add_nonneg ha hb)
        fwrite_nonneg (fun _ => le_rfl) flag no_hidden_header e
    show toInt (dump_file e flag no_hidden_header).n_byte
      = ((dump_file e flag no_hidden_header).bytes.length : Nat) ↔ _
    rw [toInt_count_iff hpos hle, ← missing_eq_zero, hzero]
    refine and_congr_right fun h => ?_
    rw [← dump_bytes_strings flag no_hidden_header e (fun d hd => (h d hd).1)]
    rfl
  · have hcounted : ∀ d, Counted write flag no_hidden_header d ↔ no_boundary flag d := by
      intro d
      unfold Counted
      simp only [write_missing, implies_true, and_true]
    rw [← missing_eq_zero]
    simp only [← hcounted]
    exact dump_with_missing (fun _ => rfl) (fun s => (write_missing s).ge) flag no_hidden_header e

/-- A field, a blank line and a body. -/
def three_strings : MIME_Entity :=
  { new with header_ := [lit "A: b\r\n", lit "\r\n"], body_ := some (lit "c\r\n") }

/-- A multipart entity with one part. -/
def boundary_part : MIME_Entity :=
  { new with header_ := [lit "Content-Type: a/b; boundary=c\r\n"], child_ := [three_strings] }

/-- `fwrite` has written three items, and the boundary line in front of a part is not
    counted. -/
theorem file_exporters_miscount :
    (export_file three_strings .ALL true).2 = 3 ∧
    (export_file three_strings .ALL true).1.length = 11 ∧
    (export_file_handle boundary_part .ALL true).n_byte = 49 ∧
    (export_file_handle boundary_part .ALL true).bytes.length = 54 := by
  decide

end Aos
