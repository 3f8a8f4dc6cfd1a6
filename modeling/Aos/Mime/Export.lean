/-
  Aos.Mime.Export — the three exporters, and when they agree.

  `dump_data` appends to a string, `dump_file` writes to a `FILE*` and
  `export_file_handle` to a handle.  The last two hand their options to every
  part.  `dump_data` calls itself without them, so its parts are written with
  the defaults: all of the body, hidden fields left out.

  Main results:
    • `dump_with_bytes` — both file exporters write `dump_bytes`, the entity
      with one set of options throughout;
    • `dump_data_eq` — `dump_data` has its own options at the root only;
    • **`exporters_agree_iff`** — the exporters agree for all options exactly
      when no entity below the root has a hidden field or, as a leaf, a body.
-/
import Aos.Mime.Entity

namespace Aos

open MIME_Entity

/-! ## §1. What is written. -/

/-- `no_hidden_header && (*it)->size() && (*(*it))[0] == HIDDEN_HEADER_CHAR`. -/
def is_hidden (no_hidden_header : Bool) (field : Bytes) : Bool :=
  no_hidden_header && (decide (field.length ≠ 0) && decide (deref field = HIDDEN_HEADER_CHAR))

/-- The line in front of a part. -/
def boundary_line (boundary : Bytes) : Bytes := lit "--" ++ boundary ++ lit "\r\n"

/-- The line behind the last part. -/
def boundary_end_line (boundary : Bytes) : Bytes := lit "--" ++ boundary ++ lit "--\r\n"

theorem boundary_line_length (boundary : Bytes) :
    (boundary_line boundary).length = boundary.length + 4 := by
  have hdash : (lit "--").length = 2 := by decide
  have hend : (lit "\r\n").length = 2 := by decide
  unfold boundary_line
  rw [List.length_append, List.length_append, hdash, hend]
  omega

theorem boundary_end_line_length (boundary : Bytes) :
    (boundary_end_line boundary).length = boundary.length + 6 := by
  have hdash : (lit "--").length = 2 := by decide
  have hend : (lit "--\r\n").length = 4 := by decide
  unfold boundary_end_line
  rw [List.length_append, List.length_append, hdash, hend]
  omega

/-- The loop over `header_` of `dump_data`. -/
def dump_header (no_hidden_header : Bool) : MIME_Header_List → Bytes
  | [] => []
  | it :: header_ =>
      if is_hidden no_hidden_header it then dump_header no_hidden_header header_
      else it ++ dump_header no_hidden_header header_

mutual

/-- `dump_data(data, flag, no_hidden_header)`: what it appends to `data`. -/
def dump_data (flag : Flag) (no_hidden_header : Bool) : MIME_Entity → Bytes
  | ⟨header_, preamble_, body_, epilogue_, child_, status_, pstate_, separator_⟩ =>
      let e : MIME_Entity :=
        ⟨header_, preamble_, body_, epilogue_, child_, status_, pstate_, separator_⟩
      let data := dump_header no_hidden_header header_
      if flag = .HEADER then data
      else
        let data := data ++ e.preamble
        let data :=
          if child_ = [] then
            if flag ≠ .NO_BODY then data ++ e.body else data
          else
            -- dump child
            let data := data ++ dump_data_child e.get_boundary child_
            if e.get_boundary ≠ [] then data ++ boundary_end_line e.get_boundary else data
        data ++ e.epilogue

/-- The loop over `child_`: `(*it)->dump_data(data)` leaves the options to their defaults. -/
def dump_data_child (boundary : Bytes) : List MIME_Entity → Bytes
  | [] => []
  | it :: child_ =>
      (if boundary ≠ [] then boundary_line boundary else []) ++ dump_data .ALL true it
        ++ dump_data_child boundary child_

end

/-- `export_data`: the string and the value returned. -/
def export_data (e : MIME_Entity) (flag : Flag) (no_hidden_header : Bool) : Bytes × Int :=
  let data := dump_data flag no_hidden_header e
  (data, toInt data.length - toInt 0)

/-- Bytes written to a file, and what the exporter has counted for them. -/
structure Written where
  bytes : Bytes
  n_byte : Int

instance : Append Written := ⟨fun a b => ⟨a.bytes ++ b.bytes, a.n_byte + b.n_byte⟩⟩

/-- Nothing. -/
def Written.none : Written := ⟨[], 0⟩

/-- The count of a write is not used. -/
def Written.uncounted (w : Written) : Written := ⟨w.bytes, 0⟩

/-- `::fwrite(ptr, size, 1, fp)` counts items. -/
def fwrite (s : Bytes) : Written := ⟨s, if s = [] then 0 else 1⟩

/-- `ACE_OS::write(fh, ptr, size)` counts bytes. -/
def write (s : Bytes) : Written := ⟨s, s.length⟩

/-- The loop over `header_`. -/
def write_header (put : Bytes → Written) (no_hidden_header : Bool) : MIME_Header_List → Written
  | [] => .none
  | it :: header_ =>
      if is_hidden no_hidden_header it then write_header put no_hidden_header header_
      else put it ++ write_header put no_hidden_header header_

mutual

/-- The body of `dump_file` and of `export_file_handle`.  Writing a null string
    and writing an empty one is the same: nothing, counted as nothing. -/
def dump_with (put : Bytes → Written) (flag : Flag) (no_hidden_header : Bool) :
    MIME_Entity → Written
  | ⟨header_, preamble_, body_, epilogue_, child_, status_, pstate_, separator_⟩ =>
      let e : MIME_Entity :=
        ⟨header_, preamble_, body_, epilogue_, child_, status_, pstate_, separator_⟩
      let out := write_header put no_hidden_header header_
      if flag = .HEADER then out
      else
        let out := out ++ put e.preamble
        let out :=
          if child_ = [] then
            if flag ≠ .NO_BODY then out ++ put e.body else out
          else
            -- dump child
            let out := out ++ dump_child_with put flag no_hidden_header e.get_boundary child_
            if e.get_boundary ≠ [] then
              out ++ put (lit "--") ++ put e.get_boundary ++ put (lit "--\r\n")
            else out
        out ++ put e.epilogue

/-- The loop over `child_`: the recursive call passes the options on. -/
def dump_child_with (put : Bytes → Written) (flag : Flag) (no_hidden_header : Bool)
    (boundary : Bytes) : List MIME_Entity → Written
  | [] => .none
  | it :: child_ =>
      (if boundary ≠ [] then
          (put (lit "--")).uncounted ++ (put boundary).uncounted ++ (put (lit "\r\n")).uncounted
        else .none)
        ++ dump_with put flag no_hidden_header it
        ++ dump_child_with put flag no_hidden_header boundary child_

end

/-- `dump_file(fp, flag, no_hidden_header)`; `export_file` is this on a fresh file. -/
def dump_file (e : MIME_Entity) (flag : Flag) (no_hidden_header : Bool) : Written :=
  dump_with fwrite flag no_hidden_header e

/-- `MIME_Util::export_file_handle(e, fh, flag, no_hidden_header)`. -/
def export_file_handle (e : MIME_Entity) (flag : Flag) (no_hidden_header : Bool) : Written :=
  dump_with write flag no_hidden_header e

/-! ## §2. One entity, its parts given. -/

/-- An entity's bytes when its children are written by `part`. -/
def compose (flag : Flag) (no_hidden_header : Bool) (part : MIME_Entity → Bytes)
    (e : MIME_Entity) : Bytes :=
  dump_header no_hidden_header e.header_ ++
    if flag = .HEADER then []
    else
      e.preamble ++
      (if e.child_ = [] then if flag = .NO_BODY then [] else e.body
        else
          e.child_.flatMap (fun c =>
            (if e.get_boundary ≠ [] then boundary_line e.get_boundary else []) ++ part c)
          ++ if e.get_boundary ≠ [] then boundary_end_line e.get_boundary else [])
      ++ e.epilogue

/-- Only the bytes of the children matter. -/
theorem compose_congr (flag : Flag) (no_hidden_header : Bool) (part part' : MIME_Entity → Bytes)
    (e : MIME_Entity) (h : ∀ c ∈ e.child_, part c = part' c) :
    compose flag no_hidden_header part e = compose flag no_hidden_header part' e := by
  unfold compose
  have hparts : e.child_.flatMap (fun c =>
        (if e.get_boundary ≠ [] then boundary_line e.get_boundary else []) ++ part c)
      = e.child_.flatMap (fun c =>
        (if e.get_boundary ≠ [] then boundary_line e.get_boundary else []) ++ part' c) := by
    apply List.flatMap_congr
    intro c hc
    rw [h c hc]
  rw [hparts]

theorem dump_data_child_eq (boundary : Bytes) (es : List MIME_Entity) :
    dump_data_child boundary es = es.flatMap (fun c =>
      (if boundary ≠ [] then boundary_line boundary else []) ++ dump_data .ALL true c) := by
  induction es with
  | nil => rfl
  | cons e es ih => rw [dump_data_child, ih, List.flatMap_cons]

/-- **`dump_data`** has its own options at the root and the defaults below it. -/
theorem dump_data_eq (flag : Flag) (no_hidden_header : Bool) (e : MIME_Entity) :
    dump_data flag no_hidden_header e
      = compose flag no_hidden_header (dump_data .ALL true) e := by
  obtain ⟨header_, preamble_, body_, epilogue_, child_, status_, pstate_, separator_⟩ := e
  rw [dump_data, dump_data_child_eq]
  unfold compose
  dsimp only
  by_cases hflag : flag = .HEADER
  · rw [if_pos hflag, if_pos hflag, List.append_nil]
  · rw [if_neg hflag, if_neg hflag]
    by_cases hchild : child_ = []
    · by_cases hbody : flag = .NO_BODY
      · simp [hchild, hbody]
      · simp [hchild, hbody]
    · rw [if_neg hchild, if_neg hchild]
      generalize MIME_Entity.get_boundary ⟨header_, preamble_, body_, epilogue_, child_, status_,
        pstate_, separator_⟩ = boundary
      by_cases hb : boundary = []
      · simp [hb]
      · simp [hb]

@[simp] theorem append_bytes (a b : Written) : (a ++ b).bytes = a.bytes ++ b.bytes := rfl

@[simp] theorem uncounted_bytes (w : Written) : w.uncounted.bytes = w.bytes := rfl

@[simp] theorem none_bytes : Written.none.bytes = [] := rfl

section

variable (put : Bytes → Written) (hput : ∀ s, (put s).bytes = s)

include hput

theorem write_header_bytes (no_hidden_header : Bool) (hs : MIME_Header_List) :
    (write_header put no_hidden_header hs).bytes = dump_header no_hidden_header hs := by
  induction hs with
  | nil => rfl
  | cons it hs ih =>
      rw [write_header, dump_header]
      split
      · exact ih
      · rw [append_bytes, hput, ih]

theorem dump_child_with_bytes (flag : Flag) (no_hidden_header : Bool) (boundary : Bytes)
    (es : List MIME_Entity) :
    (dump_child_with put flag no_hidden_header boundary es).bytes = es.flatMap (fun c =>
      (if boundary ≠ [] then boundary_line boundary else [])
        ++ (dump_with put flag no_hidden_header c).bytes) := by
  induction es with
  | nil => rfl
  | cons e es ih =>
      rw [dump_child_with, append_bytes, append_bytes, ih, List.flatMap_cons]
      split
      · simp [hput, boundary_line]
      · rfl

/-- The file exporters pass their options on. -/
theorem dump_with_eq (flag : Flag) (no_hidden_header : Bool) (e : MIME_Entity) :
    (dump_with put flag no_hidden_header e).bytes = compose flag no_hidden_header
      (fun c => (dump_with put flag no_hidden_header c).bytes) e := by
  obtain ⟨header_, preamble_, body_, epilogue_, child_, status_, pstate_, separator_⟩ := e
  rw [dump_with]
  unfold compose
  dsimp only
  by_cases hflag : flag = .HEADER
  · rw [if_pos hflag, if_pos hflag, List.append_nil, write_header_bytes put hput]
  · rw [if_neg hflag, if_neg hflag, append_bytes, hput]
    by_cases hchild : child_ = []
    · by_cases hbody : flag = .NO_BODY
      · simp [hchild, hbody, hput, write_header_bytes put hput]
      · simp [hchild, hbody, hput, write_header_bytes put hput]
    · rw [if_neg hchild, if_neg hchild]
      generalize MIME_Entity.get_boundary ⟨header_, preamble_, body_, epilogue_, child_, status_,
        pstate_, separator_⟩ = boundary
      by_cases hb : boundary = []
      · simp [hb, hput, write_header_bytes put hput, dump_child_with_bytes put hput]
      · simp [hb, hput, write_header_bytes put hput, dump_child_with_bytes put hput,
          boundary_end_line]

end

/-- What a file exporter writes. -/
def dump_bytes (flag : Flag) (no_hidden_header : Bool) (e : MIME_Entity) : Bytes :=
  (dump_file e flag no_hidden_header).bytes

theorem dump_bytes_eq (flag : Flag) (no_hidden_header : Bool) (e : MIME_Entity) :
    dump_bytes flag no_hidden_header e
      = compose flag no_hidden_header (dump_bytes flag no_hidden_header) e :=
  dump_with_eq fwrite (fun _ => rfl) flag no_hidden_header e

/-- **The two file exporters write the same bytes**, whatever the tree and the options. -/
theorem export_file_handle_bytes (flag : Flag) (no_hidden_header : Bool) :
    ∀ e, (export_file_handle e flag no_hidden_header).bytes = dump_bytes flag no_hidden_header e := by
  intro e
  induction e using MIME_Entity.induct with
  | h e ih =>
      rw [dump_bytes_eq, export_file_handle, dump_with_eq write (fun _ => rfl)]
      exact compose_congr flag no_hidden_header _ _ e ih

/-- With the default options `dump_data` writes them too. -/
theorem dump_data_default : ∀ e, dump_data .ALL true e = dump_bytes .ALL true e := by
  intro e
  induction e using MIME_Entity.induct with
  | h e ih =>
      rw [dump_data_eq, dump_bytes_eq]
      exact compose_congr .ALL true _ _ e ih

/-! ## §3. Where the options make a difference. -/

mutual

/-- The entities below an entity. -/
def descendants : MIME_Entity → List MIME_Entity
  | ⟨_, _, _, _, child_, _, _, _⟩ => descendants_of child_

def descendants_of : List MIME_Entity → List MIME_Entity
  | [] => []
  | e :: es => e :: descendants e ++ descendants_of es

end

theorem mem_descendants (e d : MIME_Entity) :
    d ∈ descendants e ↔ ∃ c ∈ e.child_, d = c ∨ d ∈ descendants c := by
  have hof : ∀ es, d ∈ descendants_of es ↔ ∃ c ∈ es, d = c ∨ d ∈ descendants c := by
    intro es
    induction es with
    | nil => simp [descendants_of]
    | cons a es ih => simp [descendants_of, ih, or_assoc]
  obtain ⟨header_, preamble_, body_, epilogue_, child_, status_, pstate_, separator_⟩ := e
  rw [descendants]
  exact hof child_

/-- No field of the entity is hidden. -/
def no_hidden (e : MIME_Entity) : Prop := ∀ field ∈ e.header_, is_hidden true field = false

/-- The entity is no leaf, or its body is empty. -/
def no_leaf_body (e : MIME_Entity) : Prop := e.child_ = [] → e.body = []

theorem is_hidden_false (field : Bytes) : is_hidden false field = false := Bool.false_and _

theorem dump_header_all (hs : MIME_Header_List) : dump_header false hs = hs.flatten := by
  induction hs with
  | nil => rfl
  | cons it hs ih =>
      rw [dump_header, if_neg (by rw [is_hidden_false]; exact Bool.false_ne_true), ih,
        List.flatten_cons]

theorem dump_header_filter (no_hidden_header : Bool) (hs : MIME_Header_List) :
    dump_header no_hidden_header hs
      = (hs.filter (fun field => ! is_hidden no_hidden_header field)).flatten := by
  induction hs with
  | nil => rfl
  | cons it hs ih =>
      rw [dump_header]
      by_cases hit : is_hidden no_hidden_header it = true
      · rw [if_pos hit, List.filter_cons_of_neg (by rw [hit]; decide), ih]
      · rw [if_neg hit, List.filter_cons_of_pos (by simpa using hit), List.flatten_cons, ih]

/-- Leaving hidden fields out makes a header shorter, if there are any. -/
theorem dump_header_length (hs : MIME_Header_List) :
    (dump_header true hs).length ≤ (dump_header false hs).length ∧
    ((dump_header true hs).length = (dump_header false hs).length →
      ∀ field ∈ hs, is_hidden true field = false) := by
  induction hs with
  | nil => exact ⟨le_rfl, fun _ field h => absurd h List.not_mem_nil⟩
  | cons it hs ih =>
      obtain ⟨hle, heq⟩ := ih
      rw [dump_header_all] at hle heq ⊢
      rw [dump_header, List.flatten_cons, List.length_append]
      by_cases hit : is_hidden true it = true
      · -- a hidden field is not empty
        have hpos : it.length ≠ 0 := by
          unfold is_hidden at hit
          simp only [Bool.true_and, Bool.and_eq_true, decide_eq_true_eq] at hit
          exact hit.1
        rw [if_pos hit]
        refine ⟨by omega, ?_⟩
        intro h
        omega
      · rw [if_neg hit, List.length_append]
        refine ⟨by omega, ?_⟩
        intro h field hfield
        rcases List.mem_cons.mp hfield with rfl | hfield
        · simpa using hit
        · exact heq (by omega) field hfield

theorem dump_header_no_hidden (hs : MIME_Header_List)
    (h : ∀ field ∈ hs, is_hidden true field = false) : dump_header true hs = dump_header false hs := by
  induction hs with
  | nil => rfl
  | cons it hs ih =>
      have hit : ¬ is_hidden true it = true := by simp [h it List.mem_cons_self]
      have hit' : ¬ is_hidden false it = true := by simp [is_hidden_false]
      rw [dump_header, dump_header, if_neg hit, if_neg hit',
        ih (fun f hf => h f (List.mem_cons_of_mem it hf))]

/-- Without hidden fields the second option does not matter. -/
theorem dump_bytes_no_hidden (flag : Flag) : ∀ e, no_hidden e → (∀ d ∈ descendants e, no_hidden d) →
    dump_bytes flag true e = dump_bytes flag false e := by
  intro e
  induction e using MIME_Entity.induct with
  | h e ih =>
      intro he hdesc
      rw [dump_bytes_eq, dump_bytes_eq]
      -- the parts are the same by induction, so only the header is left
      have hparts : compose flag true (dump_bytes flag true) e
          = compose flag true (dump_bytes flag false) e := by
        apply compose_congr flag true _ _ e
        intro c hc
        refine ih c hc (hdesc c ?_) ?_
        · exact (mem_descendants e c).mpr ⟨c, hc, Or.inl rfl⟩
        · intro d hd
          exact hdesc d ((mem_descendants e d).mpr ⟨c, hc, Or.inr hd⟩)
      rw [hparts]
      unfold compose
      rw [dump_header_no_hidden e.header_ he]

/-- Without leaf bodies `NO_BODY` does not matter. -/
theorem dump_bytes_no_body (no_hidden_header : Bool) : ∀ e, no_leaf_body e →
    (∀ d ∈ descendants e, no_leaf_body d) →
    dump_bytes .ALL no_hidden_header e = dump_bytes .NO_BODY no_hidden_header e := by
  intro e
  induction e using MIME_Entity.induct with
  | h e ih =>
      intro he hdesc
      rw [dump_bytes_eq, dump_bytes_eq]
      -- the parts are the same by induction, so only the body is left
      have hparts : compose .ALL no_hidden_header (dump_bytes .ALL no_hidden_header) e
          = compose .ALL no_hidden_header (dump_bytes .NO_BODY no_hidden_header) e := by
        apply compose_congr .ALL no_hidden_header _ _ e
        intro c hc
        refine ih c hc (hdesc c ?_) ?_
        · exact (mem_descendants e c).mpr ⟨c, hc, Or.inl rfl⟩
        · intro d hd
          exact hdesc d ((mem_descendants e d).mpr ⟨c, hc, Or.inr hd⟩)
      rw [hparts]
      unfold compose
      rw [if_neg (show ¬ Flag.ALL = .HEADER from Flag.noConfusion),
        if_neg (show ¬ Flag.NO_BODY = .HEADER from Flag.noConfusion)]
      by_cases hchild : e.child_ = []
      · simp [hchild, he hchild]
      · simp [hchild]

/-! ## §4. Counting bytes. -/

/-- The bytes of an entity that are not bytes of its parts. -/
def own_size (flag : Flag) (no_hidden_header : Bool) (e : MIME_Entity) : Nat :=
  (compose flag no_hidden_header (fun _ => []) e).length

theorem sum_append_length (s : Bytes) (part : MIME_Entity → Bytes) (es : List MIME_Entity) :
    (es.flatMap (fun c => s ++ part c)).length
      = (es.flatMap (fun _ => s ++ [])).length + (es.map (fun c => (part c).length)).sum := by
  induction es with
  | nil => rfl
  | cons e es ih =>
      simp only [List.flatMap_cons, List.map_cons, List.sum_cons, List.length_append,
        List.length_nil, ih]
      omega

theorem compose_length (flag : Flag) (hflag : flag ≠ .HEADER) (no_hidden_header : Bool)
    (part : MIME_Entity → Bytes) (e : MIME_Entity) :
    (compose flag no_hidden_header part e).length
      = own_size flag no_hidden_header e + (e.child_.map (fun c => (part c).length)).sum := by
  unfold own_size compose
  rw [if_neg hflag, if_neg hflag]
  by_cases hchild : e.child_ = []
  · simp [hchild]
  · rw [if_neg hchild, if_neg hchild]
    have hsum := sum_append_length
      (if e.get_boundary ≠ [] then boundary_line e.get_boundary else []) part e.child_
    simp only [List.length_append, hsum]
    omega

theorem sum_le_and_eq (f g : MIME_Entity → Nat) (es : List MIME_Entity)
    (h : ∀ e ∈ es, f e ≤ g e) :
    (es.map f).sum ≤ (es.map g).sum ∧
    ((es.map f).sum = (es.map g).sum → ∀ e ∈ es, f e = g e) := by
  induction es with
  | nil => exact ⟨le_rfl, fun _ e he => absurd he List.not_mem_nil⟩
  | cons a es ih =>
      obtain ⟨hle, heq⟩ := ih (fun e he => h e (List.mem_cons_of_mem a he))
      have ha := h a List.mem_cons_self
      simp only [List.map_cons, List.sum_cons]
      refine ⟨by omega, ?_⟩
      intro hsum e he
      rcases List.mem_cons.mp he with rfl | he
      · omega
      · exact heq (by omega) e he

section

variable (flag flag' : Flag) (nhh nhh' : Bool) (hf : flag ≠ .HEADER) (hf' : flag' ≠ .HEADER)
  (hown : ∀ e, own_size flag nhh e ≤ own_size flag' nhh' e)

include hf hf' hown

/-- Options that make no entity longer make no tree longer, and a tree stays as
    long as it was only if every entity in it does. -/
theorem dump_bytes_length : ∀ e,
    (dump_bytes flag nhh e).length ≤ (dump_bytes flag' nhh' e).length ∧
    ((dump_bytes flag nhh e).length = (dump_bytes flag' nhh' e).length →
      own_size flag nhh e = own_size flag' nhh' e ∧
      ∀ d ∈ descendants e, own_size flag nhh d = own_size flag' nhh' d) := by
  intro e
  induction e using MIME_Entity.induct with
  | h e ih =>
      rw [dump_bytes_eq, dump_bytes_eq, compose_length flag hf, compose_length flag' hf']
      -- sums of lengths: equal totals leave no room for an unequal part
      have hsum := sum_le_and_eq (fun c => (dump_bytes flag nhh c).length)
        (fun c => (dump_bytes flag' nhh' c).length) e.child_ (fun c hc => (ih c hc).1)
      have he := hown e
      refine ⟨by omega, ?_⟩
      intro heq
      refine ⟨by omega, ?_⟩
      intro d hd
      obtain ⟨c, hc, hdc⟩ := (mem_descendants e d).mp hd
      have hlen := hsum.2 (by omega) c hc
      rcases hdc with rfl | hdc
      · exact ((ih d hc).2 hlen).1
      · exact ((ih c hc).2 hlen).2 d hdc

/-- The same below a root whose own options do not change. -/
theorem compose_eq_descendants (f : Flag) (n : Bool) (hfr : f ≠ .HEADER) (e : MIME_Entity)
    (h : compose f n (dump_bytes flag nhh) e = compose f n (dump_bytes flag' nhh') e) :
    ∀ d ∈ descendants e, own_size flag nhh d = own_size flag' nhh' d := by
  have hall := dump_bytes_length flag flag' nhh nhh' hf hf' hown
  have hlen := congrArg List.length h
  rw [compose_length f hfr, compose_length f hfr] at hlen
  have hsum := sum_le_and_eq (fun c => (dump_bytes flag nhh c).length)
    (fun c => (dump_bytes flag' nhh' c).length) e.child_ (fun c _ => (hall c).1)
  intro d hd
  obtain ⟨c, hc, hdc⟩ := (mem_descendants e d).mp hd
  have hc' := (hall c).2 (hsum.2 (by omega) c hc)
  rcases hdc with rfl | hdc
  · exact hc'.1
  · exact hc'.2 d hdc

end

theorem own_size_hidden (e : MIME_Entity) :
    own_size .ALL true e ≤ own_size .ALL false e ∧
    (own_size .ALL true e = own_size .ALL false e → no_hidden e) := by
  have h := dump_header_length e.header_
  unfold own_size compose
  rw [List.length_append, List.length_append]
  refine ⟨by omega, ?_⟩
  intro heq
  exact h.2 (by omega)

theorem own_size_body (e : MIME_Entity) :
    own_size .NO_BODY true e ≤ own_size .ALL true e ∧
    (own_size .NO_BODY true e = own_size .ALL true e → no_leaf_body e) := by
  unfold own_size compose no_leaf_body
  rw [if_neg (show ¬ Flag.ALL = .HEADER from Flag.noConfusion),
    if_neg (show ¬ Flag.NO_BODY = .HEADER from Flag.noConfusion)]
  by_cases hchild : e.child_ = []
  · simp only [if_pos hchild, List.length_append, if_pos,
      if_neg (show ¬ Flag.ALL = .NO_BODY from Flag.noConfusion), List.length_nil]
    refine ⟨by omega, ?_⟩
    intro heq _
    exact List.length_eq_zero_iff.mp (by omega)
  · simp only [if_neg hchild]
    exact ⟨le_rfl, fun _ h => absurd h hchild⟩

/-! ## §5. Agreement. -/

/-- The three exporters produce the same bytes. -/
def exporters_agree (e : MIME_Entity) (flag : Flag) (no_hidden_header : Bool) : Prop :=
  (export_data e flag no_hidden_header).1 = (dump_file e flag no_hidden_header).bytes ∧
  (export_data e flag no_hidden_header).1 = (export_file_handle e flag no_hidden_header).bytes

theorem exporters_agree_eq (e : MIME_Entity) (flag : Flag) (no_hidden_header : Bool) :
    exporters_agree e flag no_hidden_header ↔
      compose flag no_hidden_header (dump_bytes .ALL true) e
        = compose flag no_hidden_header (dump_bytes flag no_hidden_header) e := by
  -- `export_data` writes the children with the default options
  have hdata : (export_data e flag no_hidden_header).1
      = compose flag no_hidden_header (dump_bytes .ALL true) e := by
    show dump_data flag no_hidden_header e = _
    rw [dump_data_eq]
    exact compose_congr flag no_hidden_header _ _ e (fun c _ => dump_data_default c)
  unfold exporters_agree
  rw [export_file_handle_bytes, hdata, ← dump_bytes_eq]
  exact and_self_iff

theorem exporters_agree_header (e : MIME_Entity) (no_hidden_header : Bool) :
    exporters_agree e .HEADER no_hidden_header := by
  rw [exporters_agree_eq]
  rfl

theorem exporters_agree_default (e : MIME_Entity) : exporters_agree e .ALL true := by
  rw [exporters_agree_eq]

theorem exporters_agree_hidden_iff (e : MIME_Entity) :
    exporters_agree e .ALL false ↔ ∀ d ∈ descendants e, no_hidden d := by
  rw [exporters_agree_eq]
  constructor
  · intro h d hd
    apply (own_size_hidden d).2
    exact compose_eq_descendants .ALL .ALL true false Flag.noConfusion Flag.noConfusion
      (fun e => (own_size_hidden e).1) .ALL false Flag.noConfusion e h d hd
  · intro h
    apply compose_congr .ALL false _ _ e
    intro c hc
    refine dump_bytes_no_hidden .ALL c (h c ((mem_descendants e c).mpr ⟨c, hc, Or.inl rfl⟩)) ?_
    intro d hd
    exact h d ((mem_descendants e d).mpr ⟨c, hc, Or.inr hd⟩)

theorem exporters_agree_body_iff (e : MIME_Entity) :
    exporters_agree e .NO_BODY true ↔ ∀ d ∈ descendants e, no_leaf_body d := by
  rw [exporters_agree_eq]
  constructor
  · intro h d hd
    apply (own_size_body d).2
    exact compose_eq_descendants .NO_BODY .ALL true true Flag.noConfusion Flag.noConfusion
      (fun e => (own_size_body e).1) .NO_BODY true Flag.noConfusion e h.symm d hd
  · intro h
    apply compose_congr .NO_BODY true _ _ e
    intro c hc
    refine dump_bytes_no_body true c (h c ((mem_descendants e c).mpr ⟨c, hc, Or.inl rfl⟩)) ?_
    intro d hd
    exact h d ((mem_descendants e d).mpr ⟨c, hc, Or.inr hd⟩)

theorem exporters_agree_both (e : MIME_Entity) (hh : ∀ d ∈ descendants e, no_hidden d)
    (hb : ∀ d ∈ descendants e, no_leaf_body d) : exporters_agree e .NO_BODY false := by
  rw [exporters_agree_eq]
  apply compose_congr .NO_BODY false _ _ e
  intro c hc
  have hmem : c ∈ descendants e := (mem_descendants e c).mpr ⟨c, hc, Or.inl rfl⟩
  have hbelow : ∀ d ∈ descendants c, d ∈ descendants e := fun d hd =>
    (mem_descendants e d).mpr ⟨c, hc, Or.inr hd⟩
  rw [dump_bytes_no_body true c (hb c hmem) (fun d hd => hb d (hbelow d hd)),
    dump_bytes_no_hidden .NO_BODY c (hh c hmem) (fun d hd => hh d (hbelow d hd))]

/-- **When the exporters agree.**  For `HEADER`, and for `ALL` without hidden
    fields, they always do.  For `ALL` with hidden fields no entity below the
    root may have one; for `NO_BODY` no leaf below the root may have a body.
    For all options together both are needed. -/
theorem exporters_agree_iff (e : MIME_Entity) :
    (∀ no_hidden_header, exporters_agree e .HEADER no_hidden_header) ∧
    exporters_agree e .ALL true ∧
    (exporters_agree e .ALL false ↔ ∀ d ∈ descendants e, no_hidden d) ∧
    (exporters_agree e .NO_BODY true ↔ ∀ d ∈ descendants e, no_leaf_body d) ∧
    ((∀ flag no_hidden_header, exporters_agree e flag no_hidden_header) ↔
      ∀ d ∈ descendants e, no_hidden d ∧ no_leaf_body d) := by
  refine ⟨exporters_agree_header e, exporters_agree_default e, exporters_agree_hidden_iff e,
    exporters_agree_body_iff e, ?_⟩
  constructor
  · intro h d hd
    exact ⟨(exporters_agree_hidden_iff e).mp (h .ALL false) d hd,
      (exporters_agree_body_iff e).mp (h .NO_BODY true) d hd⟩
  · intro h flag no_hidden_header
    have hh : ∀ d ∈ descendants e, no_hidden d := fun d hd => (h d hd).1
    have hb : ∀ d ∈ descendants e, no_leaf_body d := fun d hd => (h d hd).2
    cases flag with
    | HEADER => exact exporters_agree_header e no_hidden_header
    | ALL =>
        cases no_hidden_header with
        | true => exact exporters_agree_default e
        | false => exact (exporters_agree_hidden_iff e).mpr hh
    | NO_BODY =>
        cases no_hidden_header with
        | true => exact (exporters_agree_body_iff e).mpr hb
        | false => exact exporters_agree_both e hh hb

/-- A message with one part, whose only field is ":x". -/
def hidden_part : MIME_Entity :=
  { new with child_ := [{ new with header_ := [lit ":x\r\n"] }] }

/-- The string exporter drops the part's hidden field, the file exporters keep it. -/
theorem exporters_differ_hidden_part : ¬ exporters_agree hidden_part .ALL false := by
  intro h
  have hdata : (export_data hidden_part .ALL false).1 = [] := by decide
  have hfile : (dump_file hidden_part .ALL false).bytes = lit ":x\r\n" := by decide
  have heq := h.1
  rw [hdata, hfile] at heq
  exact absurd heq (by decide)

end Aos
