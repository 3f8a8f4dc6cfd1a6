/-
  Aos.Mime.Entity — `MIME_Entity`, a message or one of its parts, and the
  parameters read from its header.

  The header is a list of raw field lines.  `get_content_type`, `get_boundary`,
  `get_charset` and `get_encoding` are one search with different names: the first
  field with the name, then the parameter inside it.

  Main results:
    • `next_parameter_fuel` — the parameter loop ends by itself;
    • `get_boundary_no_break` — a boundary holds no CR, LF or ';', so a boundary
      line is one line;
    • `header_parameter_blank` — blank lines at the end of a header change no
      parameter.
-/
import Aos.Str.Compare
import Aos.Str.Tokenizer

namespace Aos

/-! ## §1. The entity. -/

/-- `MIME_Entity::Parse`, in the order of the enumeration. -/
inductive Parse where
  | HEADER
  | HEADER_CRLF
  | HEADER_DONE
  | BOUNDARY
  | BOUNDARY_END
  deriving DecidableEq

/-- The value of the enumerator. -/
def Parse.val : Parse → Nat
  | HEADER => 0
  | HEADER_CRLF => 1
  | HEADER_DONE => 2
  | BOUNDARY => 3
  | BOUNDARY_END => 4

/-- `MIME_Entity::Flag`. -/
inductive Flag where
  | ALL
  | HEADER
  | NO_BODY
  deriving DecidableEq

abbrev MIME_Header_List := List Bytes

/-- A null `std::string*` is `none`. -/
structure MIME_Entity where
  header_ : MIME_Header_List
  preamble_ : Option Bytes
  body_ : Option Bytes
  epilogue_ : Option Bytes
  child_ : List MIME_Entity
  status_ : Byte
  pstate_ : Parse
  separator_ : Bytes

/-- `HIDDEN_HEADER_CHAR`. -/
def HIDDEN_HEADER_CHAR : Byte := 58

namespace MIME_Entity

/-- `Status::BODY_ENCODED`. -/
def BODY_ENCODED : Byte := 0x01

def new : MIME_Entity := ⟨[], none, none, none, [], 0, .HEADER, []⟩

/-- `preamble()`, `body()` and `epilogue()` read as strings. -/
def preamble (e : MIME_Entity) : Bytes := e.preamble_.getD []

def body (e : MIME_Entity) : Bytes := e.body_.getD []

def epilogue (e : MIME_Entity) : Bytes := e.epilogue_.getD []

/-- `append_header(field)`. -/
def append_header (e : MIME_Entity) (field : Bytes) : MIME_Entity :=
  { e with header_ := e.header_ ++ [field] }

/-- `append_child(entity)`. -/
def append_child (e : MIME_Entity) (entity : MIME_Entity) : MIME_Entity :=
  { e with child_ := e.child_ ++ [entity] }

end MIME_Entity

/-! ## §2. What a message says. -/

/-- An entity as its users see it: the strings and the parts, not the state of
    the parser.  A missing string reads as an empty one. -/
structure Tree where
  header : List Bytes
  preamble : Bytes
  body : Bytes
  epilogue : Bytes
  child : List Tree

mutual

def MIME_Entity.tree : MIME_Entity → Tree
  | ⟨header_, preamble_, body_, epilogue_, child_, _, _, _⟩ =>
      ⟨header_, preamble_.getD [], body_.getD [], epilogue_.getD [], trees child_⟩

def trees : List MIME_Entity → List Tree
  | [] => []
  | e :: es => e.tree :: trees es

end

theorem trees_eq_map (es : List MIME_Entity) : trees es = es.map MIME_Entity.tree := by
  induction es with
  | nil => rfl
  | cons e es ih => rw [trees, ih, List.map_cons]

theorem MIME_Entity.tree_eq (e : MIME_Entity) :
    e.tree = ⟨e.header_, e.preamble, e.body, e.epilogue, e.child_.map MIME_Entity.tree⟩ := by
  obtain ⟨header_, preamble_, body_, epilogue_, child_, status_, pstate_, separator_⟩ := e
  rw [MIME_Entity.tree, trees_eq_map]
  rfl

/-- **Induction over an entity tree**: an entity has the property when all its
    children have it. -/
theorem MIME_Entity.induct {P : MIME_Entity → Prop}
    (h : ∀ e : MIME_Entity, (∀ c ∈ e.child_, P c) → P e) : ∀ e, P e := by
  intro e
  refine MIME_Entity.rec (motive_1 := P) (motive_2 := fun es => ∀ c ∈ es, P c) ?_ ?_ ?_ e
  · intro header_ preamble_ body_ epilogue_ child_ status_ pstate_ separator_ hchild
    exact h _ hchild
  · intro c hc
    exact absurd hc List.not_mem_nil
  · intro c es hc hes d hd
    rcases List.mem_cons.mp hd with rfl | hd
    · exact hc
    · exact hes d hd

/-! ## §3. Parameters of a header field. -/

/-- The double quote. -/
def QUOTE : Byte := 34

/-- `"` …`"` around a value is taken off: the last lines of both branches of `get_parameter`. -/
def param_value (val : Bytes) : Bytes :=
  let val := trim val
  if val.length > 1 ∧ val.head? = some QUOTE ∧ val.head? = val.getLast? then trim_char QUOTE val
  else val

/-- `while( ch > aos::Tokenizer::End )`: a key up to '=', its value up to ';'. -/
def next_parameter (name : Bytes) : Nat → Char_Tokenizer → Int → Bytes
  | 0, _, _ => []
  | fuel + 1, toker, ch =>
      if ch > Char_Tokenizer.End then
        -- get key
        let toker_key := ((toker.set_separator (lit "=\r\n")).next).1
        let key := trim toker_key.token
        -- get value
        let toker_val := (toker_key.set_separator (lit ";\r\n")).next
        let val := toker_val.1.token
        if strcasecmp name key = 0 then param_value val
        else next_parameter name fuel toker_val.1 toker_val.2
      else []

/-- `get_parameter(header, name)`. -/
def get_parameter (header : Bytes) (name : Bytes) : Bytes :=
  match header.findIdx? (· = HIDDEN_HEADER_CHAR) with
  | none => []
  | some colon =>
      let buf := header.drop (colon + 1)
      let toker := ((Char_Tokenizer.new buf).set_separator (lit ";\r\n")).next
      let key := header.take (colon + 1) -- include ':'
      let val := toker.1.token
      if strcasecmp name key = 0 then param_value val
      else next_parameter name (buf.length + 1) toker.1 toker.2

/-- The loop `if( strnicmp((*it)->c_str(), field, count) == 0 ) return get_parameter(**it, name)`. -/
def header_parameter (header_ : MIME_Header_List) (field : Bytes) (count : Nat) (name : Bytes) :
    Bytes :=
  match header_.find? (fun it => strncasecmp it field count = 0) with
  | some it => get_parameter it name
  | none => []

namespace MIME_Entity

def get_content_type (e : MIME_Entity) : Bytes :=
  header_parameter e.header_ (lit "content-type:") 13 (lit "content-type:")

def get_boundary (e : MIME_Entity) : Bytes :=
  header_parameter e.header_ (lit "content-type:") 13 (lit "boundary")

def get_charset (e : MIME_Entity) : Bytes :=
  header_parameter e.header_ (lit "content-type:") 13 (lit "charset")

def get_encoding (e : MIME_Entity) : Bytes :=
  header_parameter e.header_ (lit "content-transfer-encoding:") 26 (lit "content-transfer-encoding:")

end MIME_Entity

/-! ## §4. The parameter loop. -/

/-- The loop's test fails: the fuel does not matter. -/
theorem next_parameter_end (name : Bytes) {ch : Int} (h : ¬ ch > Char_Tokenizer.End) (fuel : Nat)
    (toker : Char_Tokenizer) : next_parameter name fuel toker ch = [] := by
  cases fuel with
  | zero => rfl
  | succ fuel => rw [next_parameter, if_neg h]

/-- **The loop ends by itself.**  Each round that goes on has moved the token's
    end, so any fuel above the room that is left gives the same value. -/
theorem next_parameter_fuel (name : Bytes) :
    ∀ (fuel fuel' : Nat) (toker : Char_Tokenizer) (ch : Int), toker.beg_ ≤ toker.end_ →
      (ch > Char_Tokenizer.End → toker.end_ ≤ toker.str.length) →
      toker.str.length + 1 - toker.end_ ≤ fuel → toker.str.length + 1 - toker.end_ ≤ fuel' →
      next_parameter name fuel toker ch = next_parameter name fuel' toker ch := by
  intro fuel
  induction fuel with
  | zero =>
      intro fuel' toker ch _ hch hfuel _
      have hend : ¬ ch > Char_Tokenizer.End := by
        intro h
        have := hch h
        omega
      rw [next_parameter_end name hend, next_parameter_end name hend]
  | succ fuel ih =>
      intro fuel' toker ch hle hch hfuel hfuel'
      by_cases hend : ch > Char_Tokenizer.End
      · have hin := hch hend
        obtain ⟨fuel', rfl⟩ : ∃ n, fuel' = n + 1 := ⟨fuel' - 1, by omega⟩
        rw [next_parameter, next_parameter, if_pos hend, if_pos hend]
        dsimp only
        -- the two positions after the key and after the value
        generalize hkey : ((toker.set_separator (lit "=\r\n")).next).1 = toker_key
        have hkeyle : toker_key.beg_ ≤ toker_key.end_ := by
          rw [← hkey]
          exact Char_Tokenizer.seek_le _
        have hkeymono : toker.end_ ≤ toker_key.end_ := by
          rw [← hkey] at hkeyle ⊢
          exact Nat.le_trans (Char_Tokenizer.seek_mono (toker.set_separator _) hle) hkeyle
        have hstr : toker_key.str = toker.str := by
          rw [← hkey]
          rfl
        have hvalmono := Char_Tokenizer.seek_mono (toker_key.set_separator (lit ";\r\n")) hkeyle
        by_cases hname : strcasecmp name (trim toker_key.token) = 0
        · rw [if_pos hname, if_pos hname]
        · rw [if_neg hname, if_neg hname]
          change toker_key.end_ ≤ (toker_key.set_separator (lit ";\r\n")).seek.beg_ at hvalmono
          by_cases hnext : ((toker_key.set_separator (lit ";\r\n")).next).2 > Char_Tokenizer.End
          · have hprog := Char_Tokenizer.next_progress _ hnext
            have hstr' : ((toker_key.set_separator (lit ";\r\n")).next).1.str = toker.str := hstr
            change _ ∧ _ ≤ toker_key.str.length at hprog
            rw [hstr] at hprog
            refine ih fuel' _ _ (Char_Tokenizer.seek_le _) ?_ ?_ ?_
            · intro _
              rw [hstr']
              exact hprog.2
            · rw [hstr']
              change _ - (toker_key.set_separator (lit ";\r\n")).seek.end_ ≤ _
              omega
            · rw [hstr']
              change _ - (toker_key.set_separator (lit ";\r\n")).seek.end_ ≤ _
              omega
          · -- the next test of the loop fails
            rw [next_parameter_end name hnext, next_parameter_end name hnext]
      · rw [next_parameter_end name hend, next_parameter_end name hend]

/-! ## §5. What a value cannot hold. -/

/-- The bytes no value of a parameter holds. -/
def ends_value (c : Byte) : Prop := c ∈ c_str (lit ";\r\n")

theorem param_value_sublist (val : Bytes) : (param_value val).Sublist val := by
  unfold param_value
  dsimp only
  split
  · exact (trim_char_sublist QUOTE _).trans (trim_sublist val)
  · exact trim_sublist val

theorem param_value_token (toker : Char_Tokenizer) :
    ∀ c ∈ param_value ((toker.set_separator (lit ";\r\n")).next).1.token, ¬ ends_value c := by
  intro c hc
  exact Char_Tokenizer.token_no_separator toker _ c ((param_value_sublist _).subset hc)

theorem next_parameter_no_break (name : Bytes) (fuel : Nat) :
    ∀ (toker : Char_Tokenizer) (ch : Int), ∀ c ∈ next_parameter name fuel toker ch,
      ¬ ends_value c := by
  induction fuel with
  | zero =>
      intro toker ch c hc
      exact absurd hc List.not_mem_nil
  | succ fuel ih =>
      intro toker ch c hc
      rw [next_parameter] at hc
      split at hc
      · dsimp only at hc
        -- the value of this key, or of a later one
        split at hc
        · exact param_value_token _ c hc
        · exact ih _ _ c hc
      · exact absurd hc List.not_mem_nil

theorem get_parameter_no_break (header name : Bytes) :
    ∀ c ∈ get_parameter header name, ¬ ends_value c := by
  intro c hc
  unfold get_parameter at hc
  split at hc
  · exact absurd hc List.not_mem_nil
  · dsimp only at hc
    split at hc
    · exact param_value_token _ c hc
    · exact next_parameter_no_break name _ _ _ c hc

/-- **A boundary holds no line break.** -/
theorem get_boundary_no_break (e : MIME_Entity) :
    ∀ c ∈ e.get_boundary, c ≠ CR ∧ c ≠ LF := by
  intro c hc
  unfold MIME_Entity.get_boundary header_parameter at hc
  split at hc
  · have hno := get_parameter_no_break _ _ c hc
    refine ⟨?_, ?_⟩
    · intro heq
      subst heq
      exact hno (by unfold ends_value; decide)
    · intro heq
      subst heq
      exact hno (by unfold ends_value; decide)
  · exact absurd hc List.not_mem_nil

/-! ## §6. Blank lines. -/

/-- `line[0] == '\r' || line[0] == '\n'`. -/
def is_blank (line : Bytes) : Bool := deref line = CR ∨ deref line = LF

theorem is_blank_cases {line : Bytes} (h : is_blank line = true) :
    ∃ b s, line = b :: s ∧ (b = CR ∨ b = LF) := by
  cases line with
  | nil => exact absurd h (by decide)
  | cons b s => exact ⟨b, s, rfl, of_decide_eq_true h⟩

/-- **Blank lines behind a header change none of its parameters.** -/
theorem header_parameter_blank (header_ blanks : MIME_Header_List) (c : Byte) (field name : Bytes)
    (count : Nat) (hc : 33 ≤ tolower (schar c) ∧ tolower (schar c) < 128)
    (hb : ∀ b ∈ blanks, is_blank b = true) :
    header_parameter (header_ ++ blanks) (c :: field) (count + 1) name
      = header_parameter header_ (c :: field) (count + 1) name := by
  have hnone : blanks.find? (fun it => strncasecmp it (c :: field) (count + 1) = 0) = none := by
    rw [List.find?_eq_none]
    intro b hmem
    obtain ⟨a, s, rfl, ha⟩ := is_blank_cases (hb b hmem)
    have := strncasecmp_blank a s field c count ha hc
    simpa using this
  unfold header_parameter
  rw [List.find?_append, hnone, Option.or_none]

end Aos
