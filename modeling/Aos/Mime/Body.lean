/-
  Aos.Mime.Body — the transfer encoding of bodies.

  An entity's body is either encoded or decoded, and a status bit says which.
  Four functions take it from one to the other, two of them into a copy; they
  repeat one dispatch on the Content-Transfer-Encoding.  `MIME_Util` applies
  them to a whole tree.

  Below each function stands what it does to the text (`encode_text`,
  `decode_text`): the buffers are large enough (`encode_body_eq`,
  `copy_encoded_body_eq`) and decoding in place is decoding.

  **`body_encoding_reversible`**: the trees that come back, the copies, and
  idempotence.
-/
import Aos.Codec.Base64
import Aos.Codec.QP
import Aos.Mime.Export

namespace Aos

/-! ## §1. One entity. -/

/-- A string resized to `size` bytes and written to from its start; `none` when
    the text does not fit. -/
def into_buffer (size : Nat) (out : Bytes) : Option Bytes :=
  if out.length ≤ size then some out else none

namespace MIME_Entity

/-- `body_ == 0 || body().empty()`. -/
def empty_body (e : MIME_Entity) : Bool := e.body_ = none ∨ e.body = []

/-- `status_ & Status::BODY_ENCODED`. -/
def is_encoded (e : MIME_Entity) : Bool := e.status_ &&& BODY_ENCODED ≠ 0

/-- `strnicmp(encoding.c_str(), "base64", 6) == 0`. -/
def is_base64 (e : MIME_Entity) : Bool := strncasecmp e.get_encoding (lit "base64") 6 = 0

/-- `strnicmp(encoding.c_str(), "quoted-printable", 16) == 0`. -/
def is_qp (e : MIME_Entity) : Bool := strncasecmp e.get_encoding (lit "quoted-printable") 16 = 0

def set_body (e : MIME_Entity) (body : Bytes) : MIME_Entity := { e with body_ := some body }

/-- Erase the `BODY_ENCODED` bit. -/
def clear_encoded (e : MIME_Entity) : MIME_Entity :=
  if e.status_ &&& BODY_ENCODED ≠ 0 then { e with status_ := e.status_ ^^^ BODY_ENCODED } else e

/-- Set the `BODY_ENCODED` bit. -/
def set_encoded (e : MIME_Entity) : MIME_Entity := { e with status_ := e.status_ ||| BODY_ENCODED }

def decode_body (e : MIME_Entity) : MIME_Entity :=
  -- if empty body, or already decoded
  if e.empty_body ∨ ¬ e.is_encoded then e
  else if e.is_base64 then (e.set_body (Base64.decode_in_place e.body)).clear_encoded
  else if e.is_qp then (e.set_body (QP.decode_in_place e.body)).clear_encoded
  else e.clear_encoded -- default for 7bit/8bit/binary encoding

def encode_body (e : MIME_Entity) : Option MIME_Entity :=
  -- if empty body, or already encoded
  if e.empty_body ∨ e.is_encoded then some e
  else if e.is_base64 then
    (into_buffer (Base64.enough_encode_size Base64.DEFAULT_LINE_SIZE e.body.length)
      (Base64.encode Base64.DEFAULT_LINE_SIZE e.body)).map
      (fun body => (e.set_body (body ++ lit "\r\n")).set_encoded)
  else if e.is_qp then
    (into_buffer (QP.enough_encode_size QP.DEFAULT_LINE_SIZE e.body.length)
      (QP.encode QP.DEFAULT_LINE_SIZE e.body)).map
      (fun body => (e.set_body body).set_encoded)
  else some e.set_encoded -- default for 7bit/8bit/binary encoding, or anything else

/-- What a call of `body()` does to the entity: a null string becomes an empty one. -/
def touch_body (e : MIME_Entity) : MIME_Entity := e.set_body e.body

/-- `copy_decoded_body(str)`: the entity afterwards, and `str`. -/
def copy_decoded_body (e : MIME_Entity) : Option (MIME_Entity × Bytes) :=
  if e.empty_body then some (e, [])
  else
    let e := e.touch_body
    if ¬ e.is_encoded then some (e, e.body) -- already decoded, just copy
    else if e.is_base64 then
      (into_buffer e.body.length (Base64.decode e.body)).map (fun str => (e, str))
    else if e.is_qp then
      (into_buffer e.body.length (QP.decode e.body)).map (fun str => (e, str))
    else some (e, e.body)

/-- `copy_encoded_body(str)`: the entity afterwards, and `str`. -/
def copy_encoded_body (e : MIME_Entity) : Option (MIME_Entity × Bytes) :=
  if e.empty_body then some (e, [])
  else
    let e := e.touch_body
    if e.is_encoded then some (e, e.body) -- already encoded, just copy
    else if e.is_base64 then
      (into_buffer (Base64.enough_encode_size Base64.DEFAULT_LINE_SIZE e.body.length)
        (Base64.encode Base64.DEFAULT_LINE_SIZE e.body)).map (fun str => (e, str ++ lit "\r\n"))
    else if e.is_qp then
      (into_buffer (QP.enough_encode_size QP.DEFAULT_LINE_SIZE e.body.length)
        (QP.encode QP.DEFAULT_LINE_SIZE e.body)).map (fun str => (e, str))
    else some (e, e.body)

end MIME_Entity

/-! ## §2. A tree. -/

namespace MIME_Util

mutual

/-- `MIME_Util::decode_body(e, process_child)`. -/
def decode_body (process_child : Bool) : MIME_Entity → MIME_Entity
  | ⟨header_, preamble_, body_, epilogue_, child_, status_, pstate_, separator_⟩ =>
      let e := MIME_Entity.decode_body
        ⟨header_, preamble_, body_, epilogue_, child_, status_, pstate_, separator_⟩
      if child_ ≠ [] ∧ process_child then { e with child_ := decode_child process_child child_ }
      else e

def decode_child (process_child : Bool) : List MIME_Entity → List MIME_Entity
  | [] => []
  | it :: child_ => decode_body process_child it :: decode_child process_child child_

end

mutual

/-- `MIME_Util::encode_body(e, process_child)`. -/
def encode_body (process_child : Bool) : MIME_Entity → Option MIME_Entity
  | ⟨header_, preamble_, body_, epilogue_, child_, status_, pstate_, separator_⟩ =>
      (MIME_Entity.encode_body
        ⟨header_, preamble_, body_, epilogue_, child_, status_, pstate_, separator_⟩).bind fun e =>
      if child_ ≠ [] ∧ process_child then
        (encode_child process_child child_).map (fun child_ => { e with child_ := child_ })
      else some e

def encode_child (process_child : Bool) : List MIME_Entity → Option (List MIME_Entity)
  | [] => some []
  | it :: child_ =>
      (encode_body process_child it).bind fun it =>
      (encode_child process_child child_).map (fun child_ => it :: child_)

end

end MIME_Util

/-! ## §3. What is done to the text. -/

namespace MIME_Entity

/-- The body in its transfer encoding. -/
def encode_text (e : MIME_Entity) (s : Bytes) : Bytes :=
  if e.is_base64 then Base64.encode Base64.DEFAULT_LINE_SIZE s ++ lit "\r\n"
  else if e.is_qp then QP.encode QP.DEFAULT_LINE_SIZE s
  else s

/-- The text an encoded body stands for. -/
def decode_text (e : MIME_Entity) (s : Bytes) : Bytes :=
  if e.is_base64 then Base64.decode s
  else if e.is_qp then QP.decode s
  else s

theorem run_crlf (y : Bytes) : ∀ s : Base64.DecState,
    Lib.Cursor.run Base64.decode_body s 0 (y ++ [CR, LF])
      = Lib.Cursor.run Base64.decode_body s 0 y := by
  induction y with
  | nil => intro s; exact Base64.run_line_break s [CR, LF] [] (Or.inr rfl)
  | cons b y ih =>
      intro s
      -- the loop body does not look ahead
      have hsame : Base64.decode_body s b (y ++ [CR, LF]) = Base64.decode_body s b y := rfl
      cases hb : Base64.decode_body s b y with
      | none =>
          rw [List.cons_append, Lib.Cursor.run_break (hsame.trans hb), Lib.Cursor.run_break hb]
      | some r =>
          obtain ⟨s', w, k⟩ := r
          have hk : k = 0 := by
            unfold Base64.decode_body at hb
            dsimp only at hb
            split at hb
            · exact absurd hb (by simp)
            · split at hb
              · exact ((Prod.mk.inj (Prod.mk.inj (Option.some.inj hb)).2).2).symm
              · split at hb
                · exact ((Prod.mk.inj (Prod.mk.inj (Option.some.inj hb)).2).2).symm
                · exact ((Prod.mk.inj (Prod.mk.inj (Option.some.inj hb)).2).2).symm
          subst hk
          rw [List.cons_append, Lib.Cursor.run_step (hsame.trans hb), Lib.Cursor.run_step hb, ih]

/-- The CRLF behind an encoded body is invisible to the decoder. -/
theorem base64_decode_crlf (y : Bytes) : Base64.decode (y ++ [CR, LF]) = Base64.decode y := by
  unfold Base64.decode
  rw [run_crlf]

/-- **Decoding takes the encoding back**, for every value of the header field. -/
theorem decode_encode_text (e : MIME_Entity) (s : Bytes) :
    e.decode_text (e.encode_text s) = s := by
  unfold decode_text encode_text
  by_cases h64 : e.is_base64 = true
  · rw [if_pos h64, if_pos h64]
    show Base64.decode (Base64.encode _ s ++ [CR, LF]) = s
    rw [base64_decode_crlf]
    exact Base64.decode_encode_loop _ s 0
  · rw [if_neg h64, if_neg h64]
    by_cases hqp : e.is_qp = true
    · rw [if_pos hqp, if_pos hqp]
      exact QP.decode_encode_loop _ s 0
    · rw [if_neg hqp, if_neg hqp]

/-- No encoding of a text is empty, unless the text is. -/
theorem encode_text_ne_nil (e : MIME_Entity) (s : Bytes) (hs : s ≠ []) : e.encode_text s ≠ [] := by
  intro h
  have hback := decode_encode_text e s
  rw [h] at hback
  have hnil : e.decode_text [] = [] := by
    unfold decode_text
    split
    · rfl
    · split
      · rfl
      · rfl
  exact hs (hback.symm.trans hnil)

/-! ## §4. The four functions. -/

theorem into_base64 (s : Bytes) :
    into_buffer (Base64.enough_encode_size Base64.DEFAULT_LINE_SIZE s.length)
      (Base64.encode Base64.DEFAULT_LINE_SIZE s)
      = some (Base64.encode Base64.DEFAULT_LINE_SIZE s) := by
  have hfit := Base64.encode_length_le Base64.DEFAULT_LINE_SIZE s
  exact if_pos (by omega)

theorem into_qp (s : Bytes) :
    into_buffer (QP.enough_encode_size QP.DEFAULT_LINE_SIZE s.length)
      (QP.encode QP.DEFAULT_LINE_SIZE s) = some (QP.encode QP.DEFAULT_LINE_SIZE s) := by
  have hfit := QP.encode_length_le QP.DEFAULT_LINE_SIZE s
  exact if_pos (by omega)

/-- An empty body reads as the empty string. -/
theorem body_of_empty (e : MIME_Entity) (h : e.empty_body = true) : e.body = [] := by
  rcases of_decide_eq_true h with h | h
  · show e.body_.getD [] = []
    rw [h]
    rfl
  · exact h

/-- A body that is there is touched without a change. -/
theorem touch_body_eq (e : MIME_Entity) (h : e.empty_body = false) : e.touch_body = e := by
  have hbody : e.body_ ≠ none := fun h' => (of_decide_eq_false h) (Or.inl h')
  obtain ⟨s, hs⟩ := Option.ne_none_iff_exists'.mp hbody
  unfold touch_body set_body body
  rw [hs, Option.getD_some]
  obtain ⟨header_, preamble_, body_, epilogue_, child_, status_, pstate_, separator_⟩ := e
  exact congrArg (fun b => (⟨header_, preamble_, b, epilogue_, child_, status_, pstate_,
    separator_⟩ : MIME_Entity)) hs.symm

theorem set_body_self (e : MIME_Entity) (h : e.empty_body = false) : e.set_body e.body = e :=
  touch_body_eq e h

/-- **`decode_body`** decodes the text, once. -/
theorem decode_body_eq (e : MIME_Entity) :
    e.decode_body = if e.empty_body ∨ ¬ e.is_encoded then e
      else (e.set_body (e.decode_text e.body)).clear_encoded := by
  unfold decode_body decode_text
  by_cases hskip : e.empty_body = true ∨ ¬ e.is_encoded = true
  · rw [if_pos hskip, if_pos hskip]
  · rw [if_neg hskip, if_neg hskip, Base64.decode_in_place_eq, QP.decode_in_place_eq]
    split
    · rfl
    · split
      · rfl
      · rw [set_body_self e (by simpa using fun h => hskip (Or.inl h))]

/-- **`encode_body`** has room enough, and encodes the text once. -/
theorem encode_body_eq (e : MIME_Entity) :
    e.encode_body = some (if e.empty_body ∨ e.is_encoded then e
      else (e.set_body (e.encode_text e.body)).set_encoded) := by
  unfold encode_body encode_text
  by_cases hskip : e.empty_body = true ∨ e.is_encoded = true
  · rw [if_pos hskip, if_pos hskip]
  · rw [if_neg hskip, if_neg hskip, into_base64, into_qp]
    split
    · rfl
    · split
      · rfl
      · rw [set_body_self e (by simpa using fun h => hskip (Or.inl h))]

/-- **`copy_decoded_body`** has room enough, and leaves the entity as it was. -/
theorem copy_decoded_body_eq (e : MIME_Entity) :
    e.copy_decoded_body = some (e, if e.empty_body then []
      else if ¬ e.is_encoded then e.body else e.decode_text e.body) := by
  unfold copy_decoded_body decode_text
  cases hempty : e.empty_body with
  | true => rfl
  | false =>
      rw [if_neg Bool.false_ne_true, if_neg Bool.false_ne_true, touch_body_eq e hempty]
      dsimp only
      have h64 : into_buffer e.body.length (Base64.decode e.body) = some (Base64.decode e.body) :=
        if_pos (Base64.decode_length_le e.body)
      have hqp : into_buffer e.body.length (QP.decode e.body) = some (QP.decode e.body) :=
        if_pos (QP.decode_length_le e.body)
      rw [h64, hqp]
      split
      · rfl
      · split
        · rfl
        · split
          · rfl
          · rfl

/-- **`copy_encoded_body`** has room enough, and leaves the entity as it was. -/
theorem copy_encoded_body_eq (e : MIME_Entity) :
    e.copy_encoded_body = some (e, if e.empty_body then []
      else if e.is_encoded then e.body else e.encode_text e.body) := by
  unfold copy_encoded_body encode_text
  cases hempty : e.empty_body with
  | true => rfl
  | false =>
      rw [if_neg Bool.false_ne_true, if_neg Bool.false_ne_true, touch_body_eq e hempty]
      dsimp only
      rw [into_base64, into_qp]
      split
      · rfl
      · split
        · rfl
        · split
          · rfl
          · rfl

/-! ## §5. The status bit. -/

theorem bit_set_clear : ∀ s : Byte, s &&& BODY_ENCODED = 0 →
    (s ||| BODY_ENCODED) &&& BODY_ENCODED ≠ 0 ∧ (s ||| BODY_ENCODED) ^^^ BODY_ENCODED = s := by
  decide +kernel

theorem bit_cleared : ∀ s : Byte, s &&& BODY_ENCODED ≠ 0 →
    (s ^^^ BODY_ENCODED) &&& BODY_ENCODED = 0 := by
  decide +kernel

theorem is_encoded_set (e : MIME_Entity) : e.set_encoded.is_encoded = true := by
  have hbit : ∀ s : Byte, (s ||| BODY_ENCODED) &&& BODY_ENCODED ≠ 0 := by decide +kernel
  exact decide_eq_true (hbit e.status_)

theorem is_encoded_clear (e : MIME_Entity) : e.clear_encoded.is_encoded = false := by
  unfold clear_encoded
  by_cases h : e.status_ &&& BODY_ENCODED ≠ 0
  · rw [if_pos h]
    exact decide_eq_false (fun hne => hne (bit_cleared e.status_ h))
  · rw [if_neg h]
    exact decide_eq_false h

/-- What is set on a decoded entity is cleared again. -/
theorem clear_set_encoded (e : MIME_Entity) (h : e.is_encoded = false) :
    e.set_encoded.clear_encoded = e := by
  have h0 : e.status_ &&& BODY_ENCODED = 0 := by simpa [is_encoded] using h
  obtain ⟨hset, hclear⟩ := bit_set_clear e.status_ h0
  unfold set_encoded clear_encoded
  rw [if_pos hset]
  obtain ⟨header_, preamble_, body_, epilogue_, child_, status_, pstate_, separator_⟩ := e
  exact congrArg (fun s => (⟨header_, preamble_, body_, epilogue_, child_, s, pstate_,
    separator_⟩ : MIME_Entity)) hclear

/-! ## §6. There and back. -/

@[simp] theorem clear_encoded_body (e : MIME_Entity) : e.clear_encoded.body = e.body := by
  unfold clear_encoded
  split <;> rfl

/-- An entity whose body is empty or decoded comes back as it was. -/
theorem decode_encode_body (e : MIME_Entity) (h : e.empty_body = false → e.is_encoded = false) :
    e.encode_body.map decode_body = some e := by
  rw [encode_body_eq, Option.map_some]
  congr 1
  by_cases hempty : e.empty_body = true
  · rw [if_pos (Or.inl hempty), decode_body_eq, if_pos (Or.inl hempty)]
  · have hfull : e.empty_body = false := by simpa using hempty
    have hdec := h hfull
    have hbody : e.body ≠ [] := fun h' => (of_decide_eq_false hfull) (Or.inr h')
    rw [if_neg (by simp [hfull, hdec]), decode_body_eq]
    -- the encoded body is neither empty nor taken for a decoded one
    have hne := encode_text_ne_nil e e.body hbody
    have hfull' : (e.set_body (e.encode_text e.body)).set_encoded.empty_body = false := by
      apply decide_eq_false
      intro hor
      rcases hor with h' | h'
      · exact absurd h' (by simp [set_encoded, set_body])
      · exact hne h'
    rw [if_neg (by simp [hfull', is_encoded_set])]
    have htext : (e.set_body (e.encode_text e.body)).set_encoded.decode_text
        (e.set_body (e.encode_text e.body)).set_encoded.body = e.body :=
      decode_encode_text e e.body
    rw [htext]
    have hback : ((e.set_body (e.encode_text e.body)).set_encoded.set_body e.body)
        = (e.set_body e.body).set_encoded := rfl
    rw [hback, set_body_self e hfull]
    exact clear_set_encoded e hdec

/-- Decoding twice is decoding once. -/
theorem decode_body_idem (e : MIME_Entity) : e.decode_body.decode_body = e.decode_body := by
  rw [decode_body_eq e]
  by_cases hskip : e.empty_body = true ∨ ¬ e.is_encoded = true
  · rw [if_pos hskip, decode_body_eq, if_pos hskip]
  · rw [if_neg hskip, decode_body_eq, if_pos]
    right
    rw [is_encoded_clear]
    exact Bool.false_ne_true

/-- Encoding twice is encoding once. -/
theorem encode_body_idem (e : MIME_Entity) : e.encode_body.bind encode_body = e.encode_body := by
  rw [encode_body_eq e, Option.bind_some, encode_body_eq]
  by_cases hskip : e.empty_body = true ∨ e.is_encoded = true
  · rw [if_pos hskip, if_pos hskip]
  · rw [if_neg hskip, if_pos (Or.inr (is_encoded_set _))]

/-! ## §7. The children do not matter. -/

/-- The entity with other children. -/
def with_child (child_ : List MIME_Entity) (e : MIME_Entity) : MIME_Entity :=
  { e with child_ := child_ }

theorem with_child_self (e : MIME_Entity) : e.with_child e.child_ = e := by
  obtain ⟨header_, preamble_, body_, epilogue_, child_, status_, pstate_, separator_⟩ := e
  rfl

theorem clear_encoded_with_child (cs : List MIME_Entity) (e : MIME_Entity) :
    (e.with_child cs).clear_encoded = e.clear_encoded.with_child cs := by
  unfold clear_encoded
  rw [apply_ite (with_child cs)]
  rfl

theorem decode_body_with_child (cs : List MIME_Entity) (e : MIME_Entity) :
    (e.with_child cs).decode_body = e.decode_body.with_child cs := by
  rw [decode_body_eq, decode_body_eq, apply_ite (with_child cs), ← clear_encoded_with_child]
  rfl

theorem encode_body_with_child (cs : List MIME_Entity) (e : MIME_Entity) :
    (e.with_child cs).encode_body = e.encode_body.map (with_child cs) := by
  rw [encode_body_eq, encode_body_eq, Option.map_some, apply_ite (with_child cs)]
  rfl

theorem decode_body_child (e : MIME_Entity) : e.decode_body.child_ = e.child_ := by
  have hsame := decode_body_with_child e.child_ e
  rw [with_child_self] at hsame
  rw [hsame]
  rfl

theorem encode_body_child (e e' : MIME_Entity) (h : e.encode_body = some e') :
    e'.child_ = e.child_ := by
  have hsame := encode_body_with_child e.child_ e
  rw [with_child_self, h, Option.map_some] at hsame
  rw [Option.some.inj hsame]
  rfl

end MIME_Entity

/-! ## §8. Whole trees. -/

namespace MIME_Util

open MIME_Entity

theorem decode_body_eq (process_child : Bool) (e : MIME_Entity) :
    decode_body process_child e =
      if e.child_ ≠ [] ∧ process_child then
        e.decode_body.with_child (decode_child process_child e.child_)
      else e.decode_body := by
  obtain ⟨header_, preamble_, body_, epilogue_, child_, status_, pstate_, separator_⟩ := e
  rw [decode_body]
  rfl

theorem encode_body_eq (process_child : Bool) (e : MIME_Entity) :
    encode_body process_child e = e.encode_body.bind fun e' =>
      if e.child_ ≠ [] ∧ process_child then
        (encode_child process_child e.child_).map (fun cs => e'.with_child cs)
      else some e' := by
  obtain ⟨header_, preamble_, body_, epilogue_, child_, status_, pstate_, separator_⟩ := e
  rw [encode_body]
  rfl

theorem decode_child_eq (process_child : Bool) (es : List MIME_Entity) :
    decode_child process_child es = es.map (decode_body process_child) := by
  induction es with
  | nil => rfl
  | cons e es ih => rw [decode_child, ih, List.map_cons]

/-- A tree whose bodies are empty or decoded comes back as it was. -/
theorem decode_encode_tree : ∀ e, (e.empty_body = false → e.is_encoded = false) →
    (∀ d ∈ descendants e, d.empty_body = false → d.is_encoded = false) →
    (encode_body true e).map (decode_body true) = some e := by
  intro e
  induction e using MIME_Entity.induct with
  | h e ih =>
      intro he hdesc
      -- the children, one after the other
      have hchildren : ∀ es : List MIME_Entity, (∀ c ∈ es, c ∈ e.child_) →
          (encode_child true es).map (decode_child true) = some es := by
        intro es
        induction es with
        | nil => intro _; rfl
        | cons c es ihes =>
            intro hmem
            have hc := hmem c List.mem_cons_self
            have hback := ih c hc (hdesc c ((mem_descendants e c).mpr ⟨c, hc, Or.inl rfl⟩))
              (fun d hd => hdesc d ((mem_descendants e d).mpr ⟨c, hc, Or.inr hd⟩))
            have hrest := ihes (fun c' hc' => hmem c' (List.mem_cons_of_mem c hc'))
            obtain ⟨c', hc', hc''⟩ := Option.map_eq_some_iff.mp hback
            obtain ⟨es', hes', hes''⟩ := Option.map_eq_some_iff.mp hrest
            rw [encode_child, hc', Option.bind_some, hes']
            show some (decode_body true c' :: decode_child true es') = _
            rw [hc'', hes'']
      obtain ⟨e', he', hback⟩ := Option.map_eq_some_iff.mp (decode_encode_body e he)
      obtain ⟨cs, hcs, hcsback⟩ := Option.map_eq_some_iff.mp (hchildren e.child_ (fun _ h => h))
      rw [encode_body_eq, he', Option.bind_some]
      -- the entity itself: its body and its children do not meet
      by_cases hchild : e.child_ = []
      · rw [if_neg (by simp [hchild]), Option.map_some, decode_body_eq,
          encode_body_child e e' he', if_neg (by simp [hchild]), hback]
      · have hcsne : cs ≠ [] := by
          intro heq
          subst heq
          exact hchild hcsback.symm
        rw [if_pos ⟨hchild, rfl⟩, hcs, Option.map_some, Option.map_some, decode_body_eq,
          if_pos ⟨hcsne, rfl⟩, decode_body_with_child, hback]
        show some ((e.with_child cs).with_child (decode_child true cs)) = some e
        rw [hcsback]
        exact congrArg some (with_child_self e)

theorem decode_tree_idem (process_child : Bool) : ∀ e,
    decode_body process_child (decode_body process_child e) = decode_body process_child e := by
  intro e
  induction e using MIME_Entity.induct with
  | h e ih =>
      rw [decode_body_eq process_child e]
      by_cases hrec : e.child_ ≠ [] ∧ process_child = true
      · have hne : decode_child process_child e.child_ ≠ [] := by
          rw [decode_child_eq]
          exact fun h => hrec.1 (List.map_eq_nil_iff.mp h)
        -- the children are decoded twice, which the induction covers
        have hchildren : decode_child process_child (decode_child process_child e.child_)
            = decode_child process_child e.child_ := by
          rw [decode_child_eq, decode_child_eq, List.map_map]
          exact List.map_congr_left ih
        rw [if_pos hrec, decode_body_eq, if_pos ⟨hne, hrec.2⟩, decode_body_with_child,
          decode_body_idem]
        show (e.decode_body.with_child _).with_child
          (decode_child process_child (decode_child process_child e.child_)) = _
        rw [hchildren]
        rfl
      · rw [if_neg hrec, decode_body_eq, decode_body_child, if_neg hrec, decode_body_idem]

theorem encode_tree_idem (process_child : Bool) : ∀ e,
    ∃ e', encode_body process_child e = some e' ∧ encode_body process_child e' = some e' := by
  intro e
  induction e using MIME_Entity.induct with
  | h e ih =>
      -- no child is lost, so the second run has children to enter as well
      have hchildren : ∀ es : List MIME_Entity, (∀ c ∈ es, c ∈ e.child_) →
          ∃ es', encode_child process_child es = some es' ∧
            encode_child process_child es' = some es' ∧ (es' = [] → es = []) := by
        intro es
        induction es with
        | nil => intro _; exact ⟨[], rfl, rfl, fun h => h⟩
        | cons c es ihes =>
            intro hmem
            obtain ⟨c', hc, hc'⟩ := ih c (hmem c List.mem_cons_self)
            obtain ⟨es', hes, hes', _⟩ := ihes (fun d hd => hmem d (List.mem_cons_of_mem c hd))
            refine ⟨c' :: es', ?_, ?_, ?_⟩
            · rw [encode_child, hc, Option.bind_some, hes, Option.map_some]
            · rw [encode_child, hc', Option.bind_some, hes', Option.map_some]
            · intro h
              exact absurd h (List.cons_ne_nil c' es')
      obtain ⟨e', he⟩ : ∃ e', e.encode_body = some e' := ⟨_, MIME_Entity.encode_body_eq e⟩
      have he' : e'.encode_body = some e' := by
        have hidem := encode_body_idem e
        rwa [he, Option.bind_some] at hidem
      have hchild := encode_body_child e e' he
      obtain ⟨cs, hcs, hcs', hnil⟩ := hchildren e.child_ (fun _ h => h)
      by_cases hrec : e.child_ ≠ [] ∧ process_child = true
      · refine ⟨e'.with_child cs, ?_, ?_⟩
        · rw [encode_body_eq, he, Option.bind_some, if_pos hrec, hcs, Option.map_some]
        · rw [encode_body_eq, encode_body_with_child, he', Option.map_some, Option.bind_some,
            if_pos ⟨fun h => hrec.1 (hnil h), hrec.2⟩]
          show (encode_child process_child cs).map _ = _
          rw [hcs', Option.map_some]
          rfl
      · refine ⟨e', ?_, ?_⟩
        · rw [encode_body_eq, he, Option.bind_some, if_neg hrec]
        · rw [encode_body_eq, he', Option.bind_some, hchild, if_neg hrec]

end MIME_Util

/-! ## §9. Reversible and consistent. -/

/-- Every body that is there is in decoded status. -/
def decoded_tree (e : MIME_Entity) : Prop :=
  ∀ d ∈ e :: descendants e, d.empty_body = false → d.is_encoded = false

/-- **Transfer encoding of bodies.**  Encoding a decoded tree and decoding it
    gives the tree back; the two copying functions give the body the two others
    would leave, and change nothing; doing either twice is doing it once. -/
theorem body_encoding_reversible :
    (∀ e, decoded_tree e →
      (MIME_Util.encode_body true e).map (MIME_Util.decode_body true) = some e) ∧
    (∀ e : MIME_Entity, e.copy_decoded_body = some (e, e.decode_body.body)) ∧
    (∀ e : MIME_Entity, ∃ e', e.encode_body = some e' ∧ e.copy_encoded_body = some (e, e'.body)) ∧
    (∀ e : MIME_Entity, e.decode_body.decode_body = e.decode_body) ∧
    (∀ e : MIME_Entity, e.encode_body.bind MIME_Entity.encode_body = e.encode_body) ∧
    (∀ process_child e, MIME_Util.decode_body process_child (MIME_Util.decode_body process_child e)
      = MIME_Util.decode_body process_child e) ∧
    (∀ process_child e, ∃ e', MIME_Util.encode_body process_child e = some e' ∧
      MIME_Util.encode_body process_child e' = some e') := by
  refine ⟨?_, ?_, ?_, MIME_Entity.decode_body_idem, MIME_Entity.encode_body_idem,
    MIME_Util.decode_tree_idem, MIME_Util.encode_tree_idem⟩
  · intro e h
    exact MIME_Util.decode_encode_tree e (h e List.mem_cons_self)
      (fun d hd => h d (List.mem_cons_of_mem e hd))
  · -- `copy_decoded_body` beside `decode_body`
    intro e
    rw [MIME_Entity.copy_decoded_body_eq, MIME_Entity.decode_body_eq]
    congr 2
    by_cases hempty : e.empty_body = true
    · rw [if_pos hempty, if_pos (Or.inl hempty), MIME_Entity.body_of_empty e hempty]
    · rw [if_neg hempty]
      by_cases henc : e.is_encoded = true
      · rw [if_neg (by simpa using henc), if_neg (by simp [hempty, henc]),
          MIME_Entity.clear_encoded_body]
        rfl
      · rw [if_pos henc, if_pos (Or.inr henc)]
  · -- `copy_encoded_body` beside `encode_body`
    intro e
    refine ⟨_, MIME_Entity.encode_body_eq e, ?_⟩
    rw [MIME_Entity.copy_encoded_body_eq]
    congr 2
    by_cases hempty : e.empty_body = true
    · rw [if_pos hempty, if_pos (Or.inl hempty), MIME_Entity.body_of_empty e hempty]
    · rw [if_neg hempty]
      by_cases henc : e.is_encoded = true
      · rw [if_pos henc, if_pos (Or.inr henc)]
      · rw [if_neg henc, if_neg (by simp [hempty, henc])]
        rfl

/-- A base64 message with an unencoded leaf. -/
def base64_message (body : Bytes) (status : Byte) : MIME_Entity :=
  { MIME_Entity.new with
    header_ := [lit "Content-Transfer-Encoding: base64\r\n"]
    body_ := some body
    status_ := status
    child_ := [{ MIME_Entity.new with body_ := some (lit "x") }] }

theorem body_encoding_reversible_base64 :
    decoded_tree (base64_message (lit "A") 0) ∧
    (MIME_Util.encode_body true (base64_message (lit "A") 0)).map (MIME_Util.decode_body true)
      = some (base64_message (lit "A") 0) := by
  have hdec : decoded_tree (base64_message (lit "A") 0) := by
    unfold decoded_tree
    decide
  exact ⟨hdec, body_encoding_reversible.1 _ hdec⟩

/-- A body that lies encoded in an entity with children is only decoded: the
    leaves are all in decoded status, and the root's body changes. -/
theorem encoded_inner_body_changes :
    (∀ d ∈ base64_message (lit "QQ==") 1 :: descendants (base64_message (lit "QQ==") 1),
      d.child_ = [] → d.is_encoded = false) ∧
    (MIME_Util.encode_body true (base64_message (lit "QQ==") 1)).map
      (fun e => (MIME_Util.decode_body true e).body) = some (lit "A") ∧
    (base64_message (lit "QQ==") 1).body ≠ lit "A" := by
  refine ⟨by decide, by decide, by decide⟩

end Aos
