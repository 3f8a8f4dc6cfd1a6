/-
  Aos.Mime.Size — how many bytes an entity is written as.

  `size` goes through the tree as `dump_data` does, with counted constants for the
  boundary lines.  It counts the body in any case, `dump_data` writes it only for a
  leaf.  The two come to the same for what the parser builds: an entity with parts
  has no body (`Shaped`), here and everywhere below.

  Main results:
    • `parse_line_everywhere` — what every line keeps in an entity it keeps in a tree;
    • `size_eq` — the size of a tree in which no entity has parts and a body;
    • `size_predicts_export` — and so of an imported one.
-/
import Aos.Mime.Export
import Aos.Mime.Import

namespace Aos

open MIME_Entity

/-! ## §1. Invariants of a tree. -/

/-- The entity and all entities below it have the property. -/
def everywhere (P : MIME_Entity → Prop) (e : MIME_Entity) : Prop := P e ∧ ∀ d ∈ descendants e, P d

theorem everywhere_iff (P : MIME_Entity → Prop) (e : MIME_Entity) :
    everywhere P e ↔ P e ∧ ∀ c ∈ e.child_, everywhere P c := by
  unfold everywhere
  constructor
  · intro h
    refine ⟨h.1, fun c hc => ⟨h.2 c ?_, fun d hd => h.2 d ?_⟩⟩
    · exact (mem_descendants e c).mpr ⟨c, hc, Or.inl rfl⟩
    · exact (mem_descendants e d).mpr ⟨c, hc, Or.inr hd⟩
  · intro h
    refine ⟨h.1, fun d hd => ?_⟩
    obtain ⟨c, hc, hdc⟩ := (mem_descendants e d).mp hd
    rcases hdc with rfl | hdc
    · exact (h.2 d hc).1
    · exact (h.2 c hc).2 d hdc

section Invariant

variable (no_hidden_header with_body : Bool)

theorem parse_last_child_mem (line : Bytes) (es : List MIME_Entity) :
    ∀ c ∈ parse_last_child line no_hidden_header with_body es,
      c ∈ es ∨ ∃ d ∈ es, c = d.parse_line line no_hidden_header with_body := by
  rcases List.eq_nil_or_concat es with rfl | ⟨init, last, rfl⟩
  · exact fun c hc => Or.inl hc
  · intro c hc
    rw [List.concat_eq_append, parse_last_child_concat] at hc
    rw [List.concat_eq_append]
    rcases List.mem_append.mp hc with hc | hc
    · exact Or.inl (List.mem_append_left _ hc)
    · refine Or.inr ⟨last, List.mem_append_right _ List.mem_cons_self, ?_⟩
      exact List.mem_singleton.mp hc

/-- What a line does to an entity that is in its header. -/
inductive Header_Step (e : MIME_Entity) (line : Bytes) : MIME_Entity → Prop
  | ignore (pstate : e.pstate_ = .HEADER) : Header_Step e line e
  | field (hs : MIME_Header_List) (pstate : e.pstate_ = .HEADER) :
      Header_Step e line { e with header_ := hs }
  | blank (separator : Bytes) (pstate : e.pstate_ = .HEADER) (is_blank : is_blank line = true) :
      Header_Step e line
        { e with
          header_ := e.header_ ++ [line]
          child_ := if e.get_content_type = lit "message/rfc822" then e.child_ ++ [new] else e.child_
          pstate_ := .HEADER_CRLF
          separator_ := separator }
  | again (is_blank : is_blank line = true) :
      Header_Step e line { e with header_ := e.header_ ++ [line], pstate_ := .HEADER_CRLF }
  | done (status : Byte) :
      Header_Step e line { e with pstate_ := .HEADER_DONE, status_ := status }

theorem parse_header_line_step (e : MIME_Entity) (line : Bytes) :
    Header_Step e line (e.parse_header_line line no_hidden_header) := by
  unfold parse_header_line
  by_cases hheader : e.pstate_ = .HEADER
  · rw [if_pos hheader]
    by_cases hblank : deref line = CR ∨ deref line = LF
    · rw [if_pos hblank]
      have hstep := Header_Step.blank (if e.get_boundary ≠ [] then lit "--" ++ e.get_boundary
        else e.get_boundary) hheader ((is_blank_iff line).mpr hblank)
      -- the content type is read before the blank line is kept
      show Header_Step e line
        ((if e.get_content_type = lit "message/rfc822" then _ else _ : MIME_Entity).append_header line)
      by_cases hct : e.get_content_type = lit "message/rfc822"
      · rw [if_pos hct] at hstep ⊢
        exact hstep
      · rw [if_neg hct] at hstep ⊢
        exact hstep
    · rw [if_neg hblank]
      split_ifs
      · exact .field _ hheader
      · exact .ignore hheader
      · exact .field _ hheader
      · exact .ignore hheader
  · rw [if_neg hheader]
    split_ifs with hcrlf
    · exact .again ((is_blank_iff line).mpr hcrlf.2)
    · exact .done _

/-- What a line does to an entity behind its header, with `fed` the children of which
    the last one has taken the line. -/
inductive Content_Step (e : MIME_Entity) (line : Bytes) (fed : List MIME_Entity) :
    MIME_Entity → Prop
  | ignore : Content_Step e line fed e
  | parts (preamble epilogue : Option Bytes) (child : List MIME_Entity) (pstate : Parse)
      (separator : e.separator_ ≠ []) (member : ∀ c ∈ child, c ∈ e.child_ ∨ c = new ∨ c ∈ fed)
      (content : 2 ≤ pstate.val) :
      Content_Step e line fed
        { e with preamble_ := preamble, epilogue_ := epilogue, child_ := child, pstate_ := pstate }
  | message (separator : e.separator_ = []) (content_type : e.get_content_type = lit "message/rfc822")
      (child : e.child_ ≠ []) : Content_Step e line fed { e with child_ := fed }
  | body (separator : e.separator_ = []) (content_type : e.get_content_type ≠ lit "message/rfc822") :
      Content_Step e line fed { e with body_ := some (e.body ++ line) }

theorem parse_content_line_step (e : MIME_Entity) (line : Bytes) (fed : List MIME_Entity)
    (he : 2 ≤ e.pstate_.val) :
    Content_Step e line fed (e.parse_content_line line with_body fed) := by
  have hself : ∀ c ∈ e.child_, c ∈ e.child_ ∨ c = new ∨ c ∈ fed := fun c hc => Or.inl hc
  by_cases hsep : e.separator_ = []
  · unfold parse_content_line
    rw [if_neg (not_not.mpr hsep)]
    split_ifs with hct hchild hbody
    · exact .message hsep hct hchild
    · exact .ignore
    · exact .body hsep hct
    · exact .ignore
  · cases hb : is_boundary e.separator_ line with
    | true =>
        cases hend : is_boundary_end e.separator_ line with
        | true =>
            rw [parse_content_boundary_end with_body e line fed hsep hb hend]
            exact .parts e.preamble_ e.epilogue_ e.child_ .BOUNDARY_END hsep hself (by decide)
        | false =>
            by_cases hp : e.pstate_ = .HEADER_DONE ∨ e.pstate_ = .BOUNDARY
            · rw [parse_content_boundary with_body e line fed hsep hb hend hp]
              refine .parts e.preamble_ e.epilogue_ _ .BOUNDARY hsep (fun c hc => ?_) (by decide)
              rcases List.mem_append.mp hc with hc | hc
              · exact Or.inl hc
              · exact Or.inr (Or.inl (List.mem_singleton.mp hc))
            · rw [parse_content_boundary_after with_body e line fed hsep hb hend hp]
              exact .ignore
    | false =>
        unfold parse_content_line
        rw [if_pos hsep, if_neg (of_decide_eq_false hb)]
        split_ifs
        · exact .parts _ e.epilogue_ e.child_ e.pstate_ hsep hself he
        · exact .parts e.preamble_ _ e.child_ e.pstate_ hsep hself he
        · exact .parts e.preamble_ e.epilogue_ fed e.pstate_ hsep (fun c hc => Or.inr (Or.inr hc)) he
        · exact .ignore

/-- **What a line does to an entity**: it stays in its header, or the line is a line of
    its content, at once or when the header has ended. -/
theorem parse_line_step (e : MIME_Entity) (line : Bytes) :
    let e' := e.parse_line line no_hidden_header with_body
    let fed := parse_last_child line no_hidden_header with_body e.child_
    (e.pstate_.val < 2 ∧ Header_Step e line e' ∧ e'.pstate_.val < 2) ∨
    (2 ≤ e.pstate_.val ∧ Content_Step e line fed e') ∨
    (e.pstate_.val < 2 ∧ ∃ status : Byte, Content_Step
      { e with pstate_ := .HEADER_DONE, status_ := status } line fed e') := by
  dsimp only
  rw [parse_line_eq]
  dsimp only
  by_cases hhead : e.pstate_.val < 2
  · rw [if_pos hhead]
    have hstep := parse_header_line_step no_hidden_header e line
    generalize e.parse_header_line line no_hidden_header = e₁ at hstep ⊢
    by_cases hdone : e₁.pstate_.val ≥ 2
    · rw [if_pos hdone]
      have hcontent := parse_content_line_step with_body e₁ line
        (parse_last_child line no_hidden_header with_body e.child_) hdone
      have hval : ∀ p : Parse, p = .HEADER → p.val = 0 := fun p hp => by rw [hp]; rfl
      cases hstep with
      | ignore hp => exact absurd (hval _ hp) (by omega)
      | field hs hp => exact absurd (hval _ hp) (by dsimp only at hdone; omega)
      | blank => exact absurd (show 1 ≥ 2 from hdone) (by decide)
      | again => exact absurd (show 1 ≥ 2 from hdone) (by decide)
      | done status => exact Or.inr (Or.inr ⟨hhead, status, hcontent⟩)
    · rw [if_neg hdone]
      exact Or.inl ⟨hhead, hstep, by omega⟩
  · rw [if_neg hhead, if_pos (by omega)]
    exact Or.inr (Or.inl ⟨by omega, parse_content_line_step with_body e line _ (by omega)⟩)

theorem Header_Step.child {e e' : MIME_Entity} {line : Bytes} (h : Header_Step e line e') :
    ∀ c ∈ e'.child_, c ∈ e.child_ ∨ c = new := by
  intro c hc
  cases h with
  | ignore => exact Or.inl hc
  | field => exact Or.inl hc
  | blank =>
      dsimp only at hc
      split at hc
      · rcases List.mem_append.mp hc with hc | hc
        · exact Or.inl hc
        · exact Or.inr (List.mem_singleton.mp hc)
      · exact Or.inl hc
  | again => exact Or.inl hc
  | done => exact Or.inl hc

theorem Content_Step.member {e e' : MIME_Entity} {line : Bytes} {fed : List MIME_Entity}
    (h : Content_Step e line fed e') :
    ∀ c ∈ e'.child_, c ∈ e.child_ ∨ c = new ∨ c ∈ fed := by
  intro c hc
  cases h with
  | ignore => exact Or.inl hc
  | parts _ _ _ _ _ hmember => exact hmember c hc
  | message => exact Or.inr (Or.inr hc)
  | body => exact Or.inl hc

/-- **The parts after a line**: those that were there, a new one, and one that has taken
    the line. -/
theorem parse_line_child (e : MIME_Entity) (line : Bytes) :
    ∀ c ∈ (e.parse_line line no_hidden_header with_body).child_, c ∈ e.child_ ∨ c = new ∨
      ∃ d ∈ e.child_, c = d.parse_line line no_hidden_header with_body := by
  intro c hc
  have hfed := parse_last_child_mem no_hidden_header with_body line e.child_ c
  rcases parse_line_step no_hidden_header with_body e line with
    ⟨_, hstep, _⟩ | ⟨_, hstep⟩ | ⟨_, status, hstep⟩
  · exact (hstep.child c hc).imp_right Or.inl
  · rcases hstep.member c hc with hc | hc | hc
    · exact Or.inl hc
    · exact Or.inr (Or.inl hc)
    · exact (hfed hc).imp_right Or.inr
  · rcases hstep.member c hc with hc | hc | hc
    · exact Or.inl hc
    · exact Or.inr (Or.inl hc)
    · exact (hfed hc).imp_right Or.inr

variable {no_hidden_header with_body} {P : MIME_Entity → Prop} (hnew : P new)
  (hstep : ∀ e line, P e → P (e.parse_line line no_hidden_header with_body))

include hnew hstep

/-- **What a line keeps in an entity, it keeps in a tree.** -/
theorem parse_line_everywhere (line : Bytes) : ∀ e, everywhere P e →
    everywhere P (e.parse_line line no_hidden_header with_body) := by
  intro e
  induction e using MIME_Entity.induct with
  | h e ih =>
      intro he
      obtain ⟨hself, hchild⟩ := (everywhere_iff P e).mp he
      refine (everywhere_iff P _).mpr ⟨hstep e line hself, fun c hc => ?_⟩
      rcases parse_line_child no_hidden_header with_body e line c hc with hc | rfl | ⟨d, hd, rfl⟩
      · exact hchild c hc
      · exact ⟨hnew, fun d hd => absurd hd List.not_mem_nil⟩
      · exact ih d hd (hchild d hd)

theorem parse_lines_everywhere (lines : List Bytes) : ∀ e, everywhere P e →
    everywhere P (e.parse_lines no_hidden_header with_body lines) := by
  induction lines with
  | nil => exact fun e he => he
  | cons line lines ih =>
      intro e he
      exact ih _ (parse_line_everywhere hnew hstep line e he)

end Invariant

/-! ## §2. What an import has done. -/

theorem feed_lines (flag : Flag) (no_hidden_header : Bool) (ls : List Bytes) :
    ∀ (e : MIME_Entity) (n : Int), ∃ lines,
      (feed flag no_hidden_header e n ls).e
        = e.parse_lines no_hidden_header (with_body flag) lines := by
  induction ls with
  | nil => exact fun e n => ⟨[], rfl⟩
  | cons line ls ih =>
      intro e n
      rw [feed]
      split
      · exact ⟨[line], rfl⟩
      · obtain ⟨lines, hlines⟩ := ih (e.parse_line line no_hidden_header (with_body flag))
          (n + toInt line.length)
        exact ⟨line :: lines, hlines⟩

/-- **Every import is a run of the parser**, over some lines. -/
theorem import_data_run (x : Bytes) (hx : x ≠ []) (flag : Flag) (no_hidden_header : Bool) :
    ∃ lines, (import_data x flag no_hidden_header).1
      = new.parse_lines no_hidden_header (with_body flag) lines := by
  rw [import_data_eq flag no_hidden_header x hx]
  obtain ⟨lines, hlines⟩ := feed_lines flag no_hidden_header
    (Lib.Lines.cut (get_line_delimiter x) [] x).1 new 0
  -- the line that is left is parsed behind the loop
  have hlast : ∀ line : Bytes,
      ((feed flag no_hidden_header new 0 (Lib.Lines.cut (get_line_delimiter x) [] x).1).e).parse_line
          line no_hidden_header (with_body flag)
        = new.parse_lines no_hidden_header (with_body flag) (lines ++ [line]) := by
    intro line
    rw [parse_lines_append, ← hlines]
    rfl
  unfold read_stream
  dsimp only
  split
  · exact ⟨_, hlast _⟩
  · exact ⟨_, hlast _⟩

/-! ## §3. Entities with parts have no body. -/

/-- What the parser keeps in an entity. -/
structure Shaped (e : MIME_Entity) : Prop where
  header : e.pstate_ = .HEADER → e.child_ = []
  before : e.pstate_.val < 2 → e.body = []
  multipart : e.separator_ ≠ [] → e.body = []
  message : e.separator_ = [] → e.child_ ≠ [] →
    e.get_content_type = lit "message/rfc822" ∧ e.body = []

/-- **An entity with parts has no body.** -/
theorem Shaped.exclusive {e : MIME_Entity} (h : Shaped e) (hchild : e.child_ ≠ []) :
    e.body = [] := by
  by_cases hsep : e.separator_ = []
  · exact (h.message hsep hchild).2
  · exact h.multipart hsep

theorem shaped_new : Shaped new :=
  ⟨fun _ => rfl, fun _ => rfl, fun _ => rfl, fun _ h => absurd rfl h⟩

/-- A blank line says nothing about the content type. -/
theorem get_content_type_blank {e e' : MIME_Entity} {line : Bytes}
    (he' : e'.header_ = e.header_ ++ [line]) (hline : is_blank line = true) :
    e'.get_content_type = e.get_content_type := by
  rw [get_content_type_blanks e.header_ [line] e' he'
    (fun b hb => by rw [List.mem_singleton.mp hb]; exact hline)]
  rfl

theorem Shaped.header_step {e e' : MIME_Entity} {line : Bytes} (he : Shaped e)
    (h : Header_Step e line e') (hval : e.pstate_.val < 2) : Shaped e' := by
  have hbody := he.before hval
  cases h with
  | ignore => exact he
  | field hs hp =>
      exact ⟨he.header, he.before, he.multipart, fun _ hchild => absurd (he.header hp) hchild⟩
  | blank separator hp hblank =>
      refine ⟨fun h => Parse.noConfusion h, fun _ => hbody, fun _ => hbody, fun _ hchild => ?_⟩
      refine ⟨?_, hbody⟩
      dsimp only at hchild
      rw [he.header hp] at hchild
      split_ifs at hchild with hct
      · rw [get_content_type_blank rfl hblank]
        exact hct
      · exact absurd rfl hchild
  | again hblank =>
      refine ⟨fun h => Parse.noConfusion h, fun _ => hbody, he.multipart, fun hsep hchild => ?_⟩
      refine ⟨?_, hbody⟩
      rw [get_content_type_blank rfl hblank]
      exact (he.message hsep hchild).1
  | done status => exact ⟨fun h => Parse.noConfusion h, fun _ => hbody, he.multipart, he.message⟩

theorem Shaped.content_step {e e' : MIME_Entity} {line : Bytes} {fed : List MIME_Entity}
    (he : Shaped e) (h : Content_Step e line fed e') (hval : 2 ≤ e.pstate_.val) : Shaped e' := by
  have hnot : ∀ p : Parse, 2 ≤ p.val → p ≠ .HEADER := fun p hp heq => by
    rw [heq] at hp
    exact absurd hp (by decide)
  cases h with
  | ignore => exact he
  | parts preamble epilogue child pstate hsep _ hcontent =>
      exact ⟨fun hp => absurd hp (hnot _ hcontent), fun hp => absurd hcontent (by dsimp only at hp; omega),
        he.multipart, fun h => absurd h hsep⟩
  | message hsep hct hchild =>
      exact ⟨fun hp => absurd hp (hnot _ hval), fun hp => absurd hval (by dsimp only at hp; omega),
        he.multipart, fun _ _ => ⟨hct, (he.message hsep hchild).2⟩⟩
  | body hsep hct =>
      refine ⟨fun hp => absurd hp (hnot _ hval), fun hp => absurd hval (by dsimp only at hp; omega),
        fun h => absurd hsep h, fun _ hchild => ?_⟩
      exact absurd (he.message hsep hchild).1 hct

theorem Shaped.parse_line {e : MIME_Entity} (he : Shaped e) (line : Bytes)
    (no_hidden_header with_body : Bool) :
    Shaped (e.parse_line line no_hidden_header with_body) := by
  rcases parse_line_step no_hidden_header with_body e line with
    ⟨hval, hstep, _⟩ | ⟨hval, hstep⟩ | ⟨hval, status, hstep⟩
  · exact he.header_step hstep hval
  · exact he.content_step hstep hval
  · have hdone : Shaped { e with pstate_ := .HEADER_DONE, status_ := status } :=
      ⟨fun h => Parse.noConfusion h, fun _ => he.before hval, he.multipart, he.message⟩
    exact hdone.content_step hstep le_rfl

/-- **Imported trees**: no entity in them has parts and a body. -/
theorem import_data_shaped (x : Bytes) (hx : x ≠ []) (flag : Flag) (no_hidden_header : Bool) :
    everywhere Shaped (import_data x flag no_hidden_header).1 := by
  obtain ⟨lines, hlines⟩ := import_data_run x hx flag no_hidden_header
  rw [hlines]
  refine parse_lines_everywhere shaped_new (fun e line he => he.parse_line line _ _) lines new ?_
  exact ⟨shaped_new, fun d hd => absurd hd List.not_mem_nil⟩

/-! ## §4. The size. -/

/-- The loop over `header_` of `size`. -/
def header_size (no_hidden_header : Bool) : MIME_Header_List → Nat
  | [] => 0
  | it :: header_ =>
      if is_hidden no_hidden_header it then header_size no_hidden_header header_
      else it.length + header_size no_hidden_header header_

mutual

/-- `MIME_Entity::size(no_hidden_header)`. -/
def size (no_hidden_header : Bool) : MIME_Entity → Nat
  | ⟨header_, preamble_, body_, epilogue_, child_, status_, pstate_, separator_⟩ =>
      let e : MIME_Entity :=
        ⟨header_, preamble_, body_, epilogue_, child_, status_, pstate_, separator_⟩
      let n_total := header_size no_hidden_header header_
      let n_total := n_total + e.preamble.length
      let n_total := n_total + e.body.length
      let n_total :=
        if child_ ≠ [] then
          let n_boundary := e.get_boundary.length
          let n_total := n_total + size_child n_boundary child_
          -- prefix("--"), suffix("--") and CRLF
          if n_boundary ≠ 0 then n_total + (n_boundary + 4 + 2) else n_total
        else n_total
      n_total + e.epilogue.length

/-- The loop over `child_`: `(*it)->size()` leaves the option to its default. -/
def size_child (n_boundary : Nat) : List MIME_Entity → Nat
  | [] => 0
  | it :: child_ =>
      -- prefix("--") and CRLF
      (if n_boundary ≠ 0 then n_boundary + 2 + 2 else 0) + size true it
        + size_child n_boundary child_

end

theorem header_size_eq (no_hidden_header : Bool) (hs : MIME_Header_List) :
    header_size no_hidden_header hs = (dump_header no_hidden_header hs).length := by
  induction hs with
  | nil => rfl
  | cons it hs ih =>
      rw [header_size, dump_header]
      split
      · exact ih
      · rw [List.length_append, ih]

/-- The children, each with its boundary line. -/
theorem size_child_eq (boundary : Bytes) (part : MIME_Entity → Bytes) (es : List MIME_Entity)
    (h : ∀ c ∈ es, size true c = (part c).length) :
    size_child boundary.length es = (es.flatMap (fun c =>
      (if boundary ≠ [] then boundary_line boundary else []) ++ part c)).length := by
  induction es with
  | nil => rfl
  | cons e es ih =>
      have hline : (if boundary.length ≠ 0 then boundary.length + 2 + 2 else 0)
          = (if boundary ≠ [] then boundary_line boundary else []).length := by
        by_cases hb : boundary = []
        · rw [hb]
          rfl
        · rw [if_pos hb, if_pos (fun hlen => hb (List.length_eq_zero_iff.mp hlen)),
            boundary_line_length]
      rw [size_child, List.flatMap_cons, List.length_append, List.length_append, hline,
        h e List.mem_cons_self, ih (fun c hc => h c (List.mem_cons_of_mem e hc))]

/-- **The size is the length of what is exported**, if no entity has parts and a body. -/
theorem size_eq : ∀ e, everywhere Shaped e → ∀ no_hidden_header,
    size no_hidden_header e = (dump_data .ALL no_hidden_header e).length := by
  intro e
  induction e using MIME_Entity.induct with
  | h e ih =>
      intro he no_hidden_header
      obtain ⟨hself, hbelow⟩ := (everywhere_iff Shaped e).mp he
      have hparts := size_child_eq e.get_boundary (dump_data .ALL true) e.child_
        (fun c hc => ih c hc (hbelow c hc) true)
      have hexclusive := hself.exclusive
      rw [dump_data_eq]
      obtain ⟨header_, preamble_, body_, epilogue_, child_, status_, pstate_, separator_⟩ := e
      rw [size]
      unfold compose
      dsimp only at hparts hexclusive ⊢
      rw [if_neg (show ¬ Flag.ALL = .HEADER from Flag.noConfusion),
        if_neg (show ¬ Flag.ALL = .NO_BODY from Flag.noConfusion), header_size_eq]
      generalize MIME_Entity.get_boundary ⟨header_, preamble_, body_, epilogue_, child_, status_,
        pstate_, separator_⟩ = boundary at hparts ⊢
      by_cases hchild : child_ = []
      · rw [if_neg (not_not.mpr hchild), if_pos hchild]
        simp only [List.length_append]
        omega
      · rw [if_pos hchild, if_neg hchild, hexclusive hchild, hparts]
        by_cases hb : boundary = []
        · rw [hb]
          simp
          omega
        · have hlen : boundary.length ≠ 0 := fun hlen => hb (List.length_eq_zero_iff.mp hlen)
          simp only [if_pos hlen, if_pos hb, List.length_append, boundary_end_line_length,
            List.length_nil]
          omega

/-! ## §5. Imported trees. -/

theorem toInt_eq_iff (n : Nat) : toInt n = n ↔ n < 2 ^ 31 := by
  constructor
  · intro h
    have hlt := Int.bmod_lt (x := (n : Int)) (m := 2 ^ 32) (by decide)
    unfold toInt at h
    omega
  · intro h
    exact toInt_of_lt (by omega) (by omega)

/-- What `export_data` returns is the length as an `int`. -/
theorem export_data_value (e : MIME_Entity) (flag : Flag) (b : Bool) :
    (export_data e flag b).2 = toInt (export_data e flag b).1.length := by
  show toInt _ - toInt 0 = _
  rw [show toInt 0 = 0 from rfl, Int.sub_zero]
  rfl

/-- **`size` predicts the export** of an imported tree; what `export_data` returns is that
    number as an `int`. -/
theorem size_predicts_export (x : Bytes) (hx : x ≠ []) (flag : Flag)
    (no_hidden_header b : Bool) :
    let e := (import_data x flag no_hidden_header).1
    size b e = (export_data e .ALL b).1.length ∧
    (export_data e .ALL b).2 = toInt (size b e) ∧
    ((export_data e .ALL b).2 = size b e ↔ (export_data e .ALL b).1.length < 2 ^ 31) := by
  have hsize : size b (import_data x flag no_hidden_header).1
      = (export_data (import_data x flag no_hidden_header).1 .ALL b).1.length :=
    size_eq _ (import_data_shaped x hx flag no_hidden_header) b
  dsimp only
  rw [export_data_value, hsize]
  exact ⟨rfl, rfl, toInt_eq_iff _⟩

/-- A multipart message with a preamble and an epilogue. -/
theorem size_predicts_export_multipart :
    let x := lit "Content-Type: a/b; boundary=c\r\n\r\np\r\n--c\r\nA: b\r\n\r\nd\r\n--c--\r\ne"
    let e := (import_data x .ALL true).1
    size true e = (export_data e .ALL true).1.length ∧
    (export_data e .ALL true).2 = toInt (size true e) ∧
    ((export_data e .ALL true).2 = size true e ↔ (export_data e .ALL true).1.length < 2 ^ 31) :=
  size_predicts_export _ (by decide) .ALL true true

/-- A text without a line break is one field. -/
theorem import_data_field (c : Byte) (s : Bytes) (hs : ∀ d ∈ c :: s, d ≠ CR ∧ d ≠ LF)
    (hc : c ≠ TAB ∧ c ≠ SP ∧ c ≠ HIDDEN_HEADER_CHAR) (hdelim : get_line_delimiter (c :: s) ∉ c :: s) :
    (import_data (c :: s) .ALL true).1.header_ = [c :: s] := by
  have hlines : all_lines (get_line_delimiter (c :: s)) (c :: s) = [c :: s] := by
    have hcut := Lib.Lines.cut_text (get_line_delimiter (c :: s)) (c :: s) [] [] hdelim
    rw [List.append_nil, List.nil_append] at hcut
    unfold all_lines
    rw [hcut]
    rfl
  have hblank : is_blank (c :: s) = false := by
    have hfirst := hs c List.mem_cons_self
    exact decide_eq_false (fun h => h.elim hfirst.1 hfirst.2)
  have hadd : add_field true [] (c :: s) = [c :: s] := by
    unfold add_field
    rw [if_neg (fun h => h.elim hc.1 hc.2.1)]
    exact if_pos (Or.inr hc.2.2)
  rw [import_data_lines .ALL true Flag.noConfusion _ (List.cons_ne_nil c s), hlines,
    parse_lines_cons, parse_lines_nil, new_eq_in_header,
    parse_line_in_header true _ [] (c :: s) hblank, hadd]
  rfl

/-- A long line: the value that is returned is not its length. -/
theorem export_data_long_line {n : Nat} (hn : 2 ^ 31 ≤ n) :
    (export_data (import_data (List.replicate n (65 : Byte)) .ALL true).1 .ALL true).2
      ≠ size true (import_data (List.replicate n (65 : Byte)) .ALL true).1 := by
  obtain ⟨m, rfl⟩ : ∃ m, n = m + 1 := ⟨n - 1, by omega⟩
  have hmem : ∀ d ∈ (65 : Byte) :: List.replicate m 65, d = 65 := by
    intro d hd
    rw [← List.replicate_succ] at hd
    exact (List.mem_replicate.mp hd).2
  have hbreak : ∀ d ∈ (65 : Byte) :: List.replicate m 65, d ≠ CR ∧ d ≠ LF := by
    intro d hd
    rw [hmem d hd]
    decide
  have hdelim : get_line_delimiter ((65 : Byte) :: List.replicate m 65)
      ∉ (65 : Byte) :: List.replicate m 65 := by
    intro hd
    have hval := hmem _ hd
    rcases get_line_delimiter_values ((65 : Byte) :: List.replicate m 65) with h | h | h
    · rw [h] at hval
      exact absurd hval (by decide)
    · rw [h] at hval
      exact absurd hval (by decide)
    · rw [h] at hval
      exact absurd hval (by decide)
  have hheader := import_data_field 65 (List.replicate m 65) hbreak (by decide) hdelim
  have hshaped := import_data_shaped ((65 : Byte) :: List.replicate m 65) (List.cons_ne_nil _ _)
    .ALL true
  rw [List.replicate_succ]
  generalize (import_data ((65 : Byte) :: List.replicate m 65) .ALL true).1 = e at hheader hshaped ⊢
  -- the field alone is long enough
  have hlong : m + 1 ≤ (export_data e .ALL true).1.length := by
    show m + 1 ≤ (dump_data .ALL true e).length
    rw [dump_data_eq]
    unfold compose
    rw [hheader, List.length_append, ← header_size_eq]
    have hfield : header_size true [(65 : Byte) :: List.replicate m 65] = m + 1 := by
      have hvisible : ¬ is_hidden true ((65 : Byte) :: List.replicate m 65) = true := by
        unfold is_hidden
        rw [decide_eq_false (show ¬ deref ((65 : Byte) :: List.replicate m 65) = HIDDEN_HEADER_CHAR
          from by show ¬ (65 : Byte) = 58; decide), Bool.and_false, Bool.and_false]
        exact Bool.false_ne_true
      rw [header_size, if_neg hvisible, List.length_cons, List.length_replicate]
      rfl
    omega
  have hsize : size true e = (export_data e .ALL true).1.length := size_eq e hshaped true
  rw [hsize, export_data_value, Ne, toInt_eq_iff]
  omega

/-- **A line of 2 ^ 31 bytes**: a negative value is returned. -/
theorem export_data_value_wraps :
    List.replicate (2 ^ 31) (65 : Byte) ≠ [] ∧
    (export_data (import_data (List.replicate (2 ^ 31) (65 : Byte)) .ALL true).1 .ALL true).2
      ≠ size true (import_data (List.replicate (2 ^ 31) (65 : Byte)) .ALL true).1 := by
  refine ⟨?_, export_data_long_line le_rfl⟩
  rw [Ne, List.replicate_eq_nil_iff]
  norm_num

end Aos
