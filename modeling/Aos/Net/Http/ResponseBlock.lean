/-
  Aos.Net.Http.ResponseBlock — the block that `HTTP_Server_Session` answers in.

  A request is read into a block of BUFSIZE+1 bytes and answered in one of BUFSIZE.
  A GET has its URL in the answer ten times and a POST all its tokens; what
  `snprintf` returns for them is added to the write pointer as it is.

  Main results:
    • `post_tokens_eq`     — the tokens of a POST;
    • `response_length_eq` — where the write pointer stands at the end;
    • `response_fits_iff`  — when that is inside the block.
-/
import Aos.Net.Http.Responser

namespace Aos

namespace HTTP

open Responser

/-! ## §1. The session. -/

/-- `AIO_Session::BUFSIZE` -/
def BUFSIZE : Nat := 4096

/-- What stands in the read block, from its base on. -/
structure Read_Block where
  text : Bytes
  fits : text.length ≤ BUFSIZE + 1

namespace Read_Block

/-- `space() == 0` -/
def full (mb : Read_Block) : Bool := mb.text.length = BUFSIZE + 1

/-- `length() > 4 && strncmp(wr_ptr()-4, "\r\n\r\n", 4) == 0` -/
def ended (mb : Read_Block) : Bool :=
  mb.text.length > 4 ∧ strncmp (mb.text.drop (mb.text.length - 4)) (lit "\r\n\r\n") 4 = 0

/-- `on_read_complete`: the status and the answer, or another read. -/
def on_read_complete (date : Gmt_Time) (mb : Read_Block) : Option (Int × Option Raw_Block) :=
  if mb.full || mb.ended then
    let n_err := if mb.full then Response.Request_Entity_Too_Large else 0
    some (parse_header date mb.text (some (raw_block.new BUFSIZE)) n_err)
  else none

end Read_Block

/-! ## §2. The tokens of a POST. -/

def gap (c : Byte) : Bool := c = SP ∨ c = TAB ∨ c = CR ∨ c = LF

def word (s : Bytes) : Bytes := (s.dropWhile gap).takeWhile fun c => ! gap c

def from_gap (s : Bytes) : Bytes := (s.dropWhile gap).dropWhile fun c => ! gap c

/-- What ends the word: the value of the byte, or -1. -/
def word_end (s : Bytes) : Int :=
  match (from_gap s).head? with
  | some c => c.toNat
  | none => -1

theorem word_shrinks {s : Bytes} (h : word s ≠ []) : (from_gap s).tail.length < s.length := by
  have hsplit : (word s).length + (from_gap s).length = (s.dropWhile gap).length := by
    rw [← List.length_append]
    exact congrArg List.length List.takeWhile_append_dropWhile
  have hle : (s.dropWhile gap).length ≤ s.length := (List.dropWhile_suffix gap).length_le
  have hpos := List.length_pos_iff.mpr h
  rw [List.length_tail]
  omega

/-- The words of a text, each with what ends it. -/
def words (s : Bytes) : List (Bytes × Int) :=
  if _h : word s = [] then [] else (word s, word_end s) :: words (from_gap s).tail
termination_by s.length
decreasing_by exact word_shrinks _h

theorem has_gap (c : Byte) : (Char_Map.set (c_str (lit " \t\r\n"))).has c = gap c := by
  have hlit : c_str (lit " \t\r\n") = [SP, TAB, CR, LF] := by decide
  rw [hlit, Char_Map.has_set]
  simp [gap]

/-- **The loop over the tokens gives the words.** -/
theorem post_tokens_eq (t : Char_Tokenizer) (ht : t.cm_.has = gap) :
    post_tokens t = words t.ahead := by
  obtain ⟨htoken, hahead⟩ := Char_Tokenizer.next_split t
  have hresult := next_result t
  have hfound := Char_Tokenizer.next_found t
  rw [ht] at htoken hahead hresult
  rw [post_tokens, words]
  by_cases hword : word t.ahead = []
  · have hnone : t.next.2 ≤ Char_Tokenizer.End :=
      not_lt.mp fun h => hfound.mp h (htoken.trans hword)
    rw [dif_pos hnone, dif_pos hword]
  · have hne : t.next.1.token ≠ [] := fun h => hword (htoken.symm.trans h)
    have hsome : ¬ t.next.2 ≤ Char_Tokenizer.End := not_le.mpr (hfound.mpr hne)
    have hend : t.next.2 = word_end t.ahead := by
      rw [hresult, if_neg hne]
      rfl
    have hshrinks := Char_Tokenizer.ahead_shrinks (hfound.mpr hne)
    rw [dif_neg hsome, dif_neg hword, post_tokens_eq t.next.1 ht, hend, htoken, hahead]
    rfl
termination_by t.ahead.length

/-! ## §3. How long an answer is. -/

theorem c_str_append_left {a : Bytes} (h : NUL ∉ a) (b : Bytes) : c_str (a ++ b) = a ++ c_str b := by
  induction a with
  | nil => rfl
  | cons c a ih =>
      have hc : c ≠ NUL := fun he => h (he ▸ List.mem_cons_self)
      rw [List.cons_append, c_str_cons hc, ih fun hm => h (List.mem_cons_of_mem c hm)]
      rfl

theorem c_str_append_of_nul {a : Bytes} (h : NUL ∈ a) (b : Bytes) : c_str (a ++ b) = c_str a := by
  obtain ⟨s, t, rfl⟩ := List.append_of_mem h
  rw [List.append_assoc, List.cons_append, c_str_append_nul, c_str_append_nul]

theorem dec_int_no_nul (i : Int) : NUL ∉ dec_int i := by
  have hdec : ∀ n, NUL ∉ dec n := by
    intro n hmem
    exact absurd ((dec_digits n).2 NUL hmem) (by decide)
  unfold dec_int
  split_ifs
  · intro hmem
    rcases List.mem_cons.mp hmem with h | h
    · exact absurd h (by decide)
    · exact hdec _ h
  · exact hdec _

/-- How much of the tokens is sent back: up to the first NUL. -/
def echo_length : List (Bytes × Int) → Nat
  | [] => 0
  | t :: ts =>
      if NUL ∈ t.1 then 1 + (c_str t.1).length
      else t.1.length + (dec_int t.2).length + 6 + echo_length ts

theorem echo_length_eq (ts : List (Bytes × Int)) :
    (c_str (ts.map post_line).flatten).length = echo_length ts := by
  have hopen : NUL ∉ lit "<" := by decide
  have hmid : NUL ∉ lit ">(" := by decide
  have hend : NUL ∉ lit ")\r\n" := by decide
  have hlens : (lit "<").length = 1 ∧ (lit ">(").length = 2 ∧ (lit ")\r\n").length = 3 := by
    decide
  induction ts with
  | nil => rfl
  | cons t ts ih =>
      rw [List.map_cons, List.flatten_cons, echo_length, ← ih]
      generalize (ts.map post_line).flatten = rest
      have hline : post_line t ++ rest
          = lit "<" ++ (t.1 ++ (lit ">(" ++ (dec_int t.2 ++ (lit ")\r\n" ++ rest)))) := by
        unfold post_line
        simp only [List.append_assoc]
      rw [hline, c_str_append_left hopen, List.length_append, hlens.1]
      by_cases hnul : NUL ∈ t.1
      · rw [if_pos hnul, c_str_append_of_nul hnul]
      · rw [if_neg hnul, c_str_append_left hnul, c_str_append_left hmid,
          c_str_append_left (dec_int_no_nul t.2), c_str_append_left hend]
        simp only [List.length_append, hlens]
        omega

/-- What the status of a request needs: a GET ten times its URL, a POST its words. -/
def Fits (date : Gmt_Time) (in_ : Bytes) : Prop :=
  match request_type (first_token in_) with
  | some .GET =>
      Followed_by_text (behind_token in_) →
        121 + date.text.length + 10 * (c_str (first_token (behind_token in_))).length ≤ BUFSIZE
  | some .POST => 88 + date.text.length + echo_length (words (behind_token in_)) ≤ BUFSIZE
  | _ => True

theorem field_length (name value : Bytes) :
    (Header.field name value).length = name.length + value.length + 4 := by
  have hlens : (lit ": ").length = 2 ∧ (lit "\r\n").length = 2 := by decide
  unfold Header.field
  simp only [List.length_append, hlens]
  omega

section Lengths

variable (date : Gmt_Time)

theorem date_length : (Header.Date date.text).length = 8 + date.text.length := by
  have hname : (lit "Date").length = 4 := by decide
  rw [Header.Date, field_length]
  omega

theorem fixed_lengths :
    (Header._Response_ Response.OK).length = 17 ∧
      (Header.Content_Type (lit "text/plain")).length = 26 ∧
      (Header.Server get_server_name).length = 27 ∧
      (Header.Connection (lit "close")).length = 19 ∧ Header._End_.length = 2 ∧
      Header._CRLF_.length = 2 := by
  decide +kernel

theorem get_texts_length (url : Bytes) :
    (get_texts date url).flatten.length = 121 + date.text.length + 10 * (c_str url).length := by
  have hlit : (lit "\r\n").length = 2 := by decide
  have hurls : (List.replicate 10 (c_str url ++ lit "\r\n")).flatten.length
      = 10 * ((c_str url).length + 2) := by
    rw [List.length_flatten, List.map_replicate, List.sum_replicate, List.length_append, hlit]
    rfl
  unfold get_texts
  rw [List.flatten_append, List.flatten_append, List.length_append, List.length_append, hurls]
  simp only [List.flatten_cons, List.flatten_nil, List.length_append, List.length_nil,
    fixed_lengths, date_length]
  omega

theorem post_texts_length (sstr : Bytes) :
    (post_texts date sstr).flatten.length = 82 + date.text.length + (c_str sstr).length := by
  unfold post_texts
  simp only [List.flatten_cons, List.flatten_nil, List.length_append, List.length_nil,
    fixed_lengths, date_length]
  omega

/-- The errors that a request of the session can have are short. -/
theorem error_texts_fit {n_code : Int}
    (h : n_code = Response.Bad_Request ∨ n_code = Response.Request_Entity_Too_Large ∨
      n_code = Response.Not_Implemented) :
    (error_texts date n_code).flatten.length ≤ BUFSIZE := by
  have hstatus : (Header._Response_ n_code).length ≤ 60 := by
    rcases h with rfl | rfl | rfl <;> decide +kernel
  have hshort := date.short
  unfold error_texts BUFSIZE
  simp only [List.flatten_cons, List.flatten_nil, List.length_append, List.length_nil,
    fixed_lengths, date_length]
  omega

end Lengths

/-! ## §4. The write pointer. -/

/-- A write pointer inside the block that is answered in. -/
def Inside (r : Int × Option Raw_Block) : Prop := ∀ b, r.2 = some b → b.wr_ ≤ b.size_

theorem inside_print_iff (n_code : Int) (texts : List Bytes) :
    Inside (n_code, print (some (raw_block.new BUFSIZE)) texts)
      ↔ texts.flatten.length ≤ BUFSIZE := by
  have hwr := Raw_Block.print_all_wr texts (raw_block.new BUFSIZE)
  have hsize := Raw_Block.print_all_size texts (raw_block.new BUFSIZE)
  have hzero : (raw_block.new BUFSIZE).wr_ = 0 := rfl
  have hnew : (raw_block.new BUFSIZE).size_ = BUFSIZE := rfl
  constructor
  · intro h
    have hle := h _ rfl
    rw [hwr, hsize, hnew] at hle
    omega
  · rintro h b hb
    obtain rfl := Option.some.inj hb
    rw [hwr, hsize, hnew]
    omega

/-- What is echoed of a POST. -/
theorem post_echo_length (in_ : Bytes) :
    (c_str (lit "POST\r\n" ++ ((post_tokens ((behind_method in_).set_separator
        (lit " \t\r\n"))).map post_line).flatten)).length
      = 6 + echo_length (words (behind_token in_)) := by
  have hname : NUL ∉ lit "POST\r\n" := by decide
  have hlen : (lit "POST\r\n").length = 6 := by decide
  have hahead : ((behind_method in_).set_separator (lit " \t\r\n")).ahead = behind_token in_ :=
    (behind_method_eq in_).2.1
  have htokens := post_tokens_eq ((behind_method in_).set_separator (lit " \t\r\n"))
    (funext has_gap)
  rw [c_str_append_left hname, List.length_append, hlen, echo_length_eq, htokens, hahead]

/-- **Where the answer to a request stays in the block.** -/
theorem parse_header_inside (date : Gmt_Time) (in_ : Bytes) :
    Inside (parse_header date in_ (some (raw_block.new BUFSIZE)) 0) ↔ Fits date in_ := by
  have htoken := (behind_method_eq in_).1
  have hget := get_request_eq date in_ (some (raw_block.new BUFSIZE))
  have hecho := post_echo_length in_
  have hstart : (0 : Int) < Response.Bad_Request := by decide
  have hok : ¬ Response.OK ≥ Response.Bad_Request := by decide
  have hbad : Response.Bad_Request ≥ Response.Bad_Request := le_rfl
  have hno : Response.Not_Implemented ≥ Response.Bad_Request := by decide
  -- an error is short, whatever the request
  have herror : ∀ n_code, n_code = Response.Bad_Request ∨ n_code = Response.Not_Implemented →
      Inside (n_code, print (some (raw_block.new BUFSIZE)) (error_texts date n_code)) := by
    intro n_code h
    exact (inside_print_iff n_code _).mpr (error_texts_fit date (h.imp_right Or.inr))
  unfold behind_method at htoken hget hecho
  unfold parse_header Fits
  simp only [if_pos hstart, htoken]
  cases request_type (first_token in_) with
  | none =>
      simp only [if_pos hbad]
      exact iff_of_true (herror _ (Or.inl rfl)) trivial
  | some m =>
      cases m with
      | GET =>
          simp only [hget]
          by_cases hfollowed : Followed_by_text (behind_token in_)
          · simp only [if_pos hfollowed, if_neg hok]
            rw [inside_print_iff, get_texts_length]
            exact ⟨fun h _ => h, fun h => h hfollowed⟩
          · simp only [if_neg hfollowed, if_pos hbad]
            exact iff_of_true (herror _ (Or.inl rfl)) fun h => absurd h hfollowed
      | POST =>
          have hpost := post_texts_length date (lit "POST\r\n" ++ ((post_tokens
            (((Char_Tokenizer.new in_).set_separator (lit " \t")).next.1.set_separator
              (lit " \t\r\n"))).map post_line).flatten)
          refine (inside_print_iff Response.OK _).trans ?_
          rw [hpost, hecho]
          constructor <;> intro h <;> omega
      | HEAD | PUT | DELETE | TRACE | OPTIONS | CONNECT =>
          simp only [if_pos hno]
          exact iff_of_true (herror _ (Or.inr rfl)) trivial

/-- A block that is full is answered with an error. -/
theorem parse_header_full (date : Gmt_Time) (in_ : Bytes) :
    Inside (parse_header date in_ (some (raw_block.new BUFSIZE))
      Response.Request_Entity_Too_Large) := by
  have hlarge : ¬ Response.Request_Entity_Too_Large < Response.Bad_Request := by decide
  have herror : Response.Request_Entity_Too_Large ≥ Response.Bad_Request := by decide
  unfold parse_header
  simp only [if_neg hlarge, if_pos herror]
  exact (inside_print_iff _ _).mpr (error_texts_fit date (Or.inr (Or.inl rfl)))

/-- A request that is complete and does not fill its block. -/
theorem answer_inside_iff (date : Gmt_Time) {mb : Read_Block} (hended : mb.ended = true)
    (hfull : mb.full = false) :
    (∀ r, mb.on_read_complete date = some r → Inside r) ↔ Fits date mb.text := by
  unfold Read_Block.on_read_complete
  rw [hended, hfull]
  constructor
  · intro h
    exact (parse_header_inside date mb.text).mp (h _ rfl)
  · intro h r hr
    obtain rfl := Option.some.inj hr
    exact (parse_header_inside date mb.text).mpr h

/-- **The answers of the session stay in their block exactly for the requests that do not fill
    theirs and whose URL, sent back ten times, or words fit.** -/
theorem response_fits_iff (date : Gmt_Time) (mb : Read_Block) :
    (∀ r, mb.on_read_complete date = some r → Inside r)
      ↔ (mb.ended = true → mb.full = false → Fits date mb.text) := by
  cases hfull : mb.full with
  | true =>
      refine iff_of_true ?_ fun _ h => absurd h (by decide)
      unfold Read_Block.on_read_complete
      rw [hfull]
      rintro r hr
      obtain rfl := Option.some.inj hr
      exact parse_header_full date mb.text
  | false =>
      cases hended : mb.ended with
      | true =>
          rw [answer_inside_iff date hended hfull]
          exact ⟨fun h _ _ => h, fun h => h rfl rfl⟩
      | false =>
          refine iff_of_true ?_ fun h => absurd h (by decide)
          unfold Read_Block.on_read_complete
          rw [hfull, hended]
          exact fun r hr => absurd hr (by simp)

/-- A GET with a URL of 400 bytes. -/
def long_url : Read_Block :=
  ⟨lit "GET " ++ List.replicate 400 97 ++ lit " HTTP/1.0\r\n\r\n", by decide +kernel⟩

theorem response_overruns :
    ¬ ∀ r, long_url.on_read_complete ⟨[], by decide, by decide⟩ = some r → Inside r := by
  have htype : request_type (first_token long_url.text) = some .GET := by decide +kernel
  rw [answer_inside_iff _ (by decide +kernel) (by decide +kernel)]
  unfold Fits
  rw [htype]
  exact fun h => absurd (h (by decide +kernel)) (by decide +kernel)

end HTTP

end Aos
