/-
  Aos.Net.Http.Responser — `HTTP::Responser`, which answers the requests of
  `HTTP_Server_Session`.

  The first token of a request is compared with the names of the methods, over as
  many characters as the token has: the begin of a name is taken for the name.

  Main results:
    • `request_type_spec` — the method that a token is taken for;
    • `parse_header_code` — the status of a request;
    • `method_exact_iff`  — when it is the one of the method that was sent.
-/
import Aos.Net.RawBlock
import Aos.Str.Compare
import Aos.Str.Number
import Aos.Str.Tokenizer

namespace Aos

namespace HTTP

/-! ## §1. Texts. -/

namespace Response

def OK : Int := 200
def Bad_Request : Int := 400
def Request_Entity_Too_Large : Int := 413
def Not_Implemented : Int := 501

/-- `Text`, the table `msg_`; what it does not have is printed as null. -/
def text (code : Int) : Bytes :=
  match code with
  | 100 => lit "Continue"
  | 101 => lit "Switching Protocol"
  | 200 => lit "OK"
  | 201 => lit "Created"
  | 202 => lit "Accepted"
  | 203 => lit "Non Authoritative Information"
  | 204 => lit "No Content"
  | 205 => lit "Reset Content"
  | 206 => lit "Partial Content"
  | 300 => lit "Multiple Choices"
  | 301 => lit "Moved Permanently"
  | 302 => lit "Found"
  | 303 => lit "See Other"
  | 304 => lit "Not Modified"
  | 305 => lit "Use Proxy"
  | 306 => lit "Unused"
  | 307 => lit "Temporary Redirect"
  | 400 => lit "Bad Request"
  | 401 => lit "Unauthorized"
  | 402 => lit "Payment Required"
  | 403 => lit "Forbidden"
  | 404 => lit "Not Found"
  | 405 => lit "Method Not Allowed"
  | 406 => lit "Not Acceptable"
  | 407 => lit "Proxy Authentication Required"
  | 408 => lit "Request Timeout"
  | 409 => lit "Conflict"
  | 410 => lit "Gone"
  | 411 => lit "Length Required"
  | 412 => lit "Precondition Failed"
  | 413 => lit "Request Entity Too Large"
  | 414 => lit "Request URI Too Long"
  | 415 => lit "Unsupported Media Type"
  | 416 => lit "Requested Range Not Satisfiable"
  | 417 => lit "Expectation Failed"
  | 500 => lit "Internal Server Error"
  | 501 => lit "Not Implemented"
  | 502 => lit "Bad Gateway"
  | 503 => lit "Service Unavailable"
  | 504 => lit "Gateway Timeout"
  | 505 => lit "HTTP Version Not Supported"
  | _ => lit "(null)"

end Response

namespace Header

/-- `_Response_`, with version 1.0. -/
def _Response_ (code : Int) : Bytes :=
  lit "HTTP/1.0 " ++ dec_int code ++ lit " " ++ Response.text code ++ lit "\r\n"

def _End_ : Bytes := lit "\r\n"

def _CRLF_ : Bytes := lit "\r\n"

/-- `"%s: %s\r\n"` for the fields there are. -/
def field (name value : Bytes) : Bytes := name ++ lit ": " ++ value ++ lit "\r\n"

def Connection : Bytes → Bytes := field (lit "Connection")

def Content_Type : Bytes → Bytes := field (lit "Content-Type")

def Date : Bytes → Bytes := field (lit "Date")

def Server : Bytes → Bytes := field (lit "Server")

end Header

def get_server_name : Bytes := lit "Mini (Angus) v0.1"

/-- What `get_gmt_time` leaves in `date[128]`. -/
structure Gmt_Time where
  text : Bytes
  no_nul : NUL ∉ text
  short : text.length ≤ 127

/-! ## §2. Methods. -/

inductive Method
  | GET | POST | HEAD | PUT | DELETE | TRACE | OPTIONS | CONNECT
  deriving DecidableEq

namespace Method

def name : Method → Bytes
  | GET => lit "GET"
  | POST => lit "POST"
  | HEAD => lit "HEAD"
  | PUT => lit "PUT"
  | DELETE => lit "DELETE"
  | TRACE => lit "TRACE"
  | OPTIONS => lit "OPTIONS"
  | CONNECT => lit "CONNECT"

/-- In the order of the comparisons. -/
def all : List Method := [GET, POST, HEAD, PUT, DELETE, TRACE, OPTIONS, CONNECT]

theorem mem_all (m : Method) : m ∈ all := by
  cases m <;> decide

end Method

/-- `if ( strnicmp("GET", token, size) == 0 ) ... else if ...` -/
def request_type (token : Bytes) : Option Method :=
  Method.all.find? fun m => strncasecmp m.name token token.length == 0

namespace Responser

/-! ## §3. `parse_header`. -/

/-- What is written for a GET. -/
def get_texts (date : Gmt_Time) (url : Bytes) : List Bytes :=
  [Header._Response_ Response.OK, Header.Content_Type (lit "text/plain"), Header.Date date.text,
      Header.Server get_server_name, Header.Connection (lit "close"), Header._End_]
    ++ List.replicate 10 (c_str url ++ lit "\r\n") ++ [Header._CRLF_]

/-- For a POST, `sstr` being what was sent. -/
def post_texts (date : Gmt_Time) (sstr : Bytes) : List Bytes :=
  [Header._Response_ Response.OK, Header.Content_Type (lit "text/plain"), Header.Date date.text,
    Header.Server get_server_name, Header._End_, c_str sstr, Header._CRLF_]

/-- For an error. -/
def error_texts (date : Gmt_Time) (n_code : Int) : List Bytes :=
  [Header._Response_ n_code, Header.Date date.text, Header.Server get_server_name, Header._End_]

/-- `if ( out ) { ... }`: one `snprintf` and `wr_ptr(n)` after the other. -/
def print (out : Option Raw_Block) (texts : List Bytes) : Option Raw_Block :=
  out.map fun b => texts.foldl Raw_Block.print b

/-- The loop over the tokens of a POST: each with what `next` returns. -/
def post_tokens (tok : Char_Tokenizer) : List (Bytes × Int) :=
  let res := tok.next
  if _htoken : res.2 ≤ Char_Tokenizer.End then []
  else (res.1.token, res.2) :: post_tokens res.1
termination_by tok.ahead.length
decreasing_by exact Char_Tokenizer.ahead_shrinks (not_le.mp _htoken)

/-- `sstr << "<" << token << ">(" << res << ")\r\n"` -/
def post_line (t : Bytes × Int) : Bytes :=
  lit "<" ++ t.1 ++ lit ">(" ++ dec_int t.2 ++ lit ")\r\n"

/-- The branch of GET. -/
def get_request (date : Gmt_Time) (tok : Char_Tokenizer) (out : Option Raw_Block) :
    Int × Option Raw_Block :=
  let res := tok.next
  if res.2 > Char_Tokenizer.Last then
    let url := res.1.token
    -- make sure first line ended with "HTTP/1.0\r\n"
    let res := (res.1.set_separator (lit "\r\n")).next
    if res.2 > Char_Tokenizer.Last then (Response.OK, print out (get_texts date url))
    else (Response.Bad_Request, out)
  else (Response.Bad_Request, out)

/-- The branch of POST. -/
def post_request (date : Gmt_Time) (tok : Char_Tokenizer) (out : Option Raw_Block) :
    Int × Option Raw_Block :=
  let tokens := post_tokens (tok.set_separator (lit " \t\r\n"))
  let sstr := lit "POST\r\n" ++ (tokens.map post_line).flatten
  (Response.OK, print out (post_texts date sstr))

/-- `parse_header(in, out, n_err)`: the code that is returned, and the block. -/
def parse_header (date : Gmt_Time) (in_ : Bytes) (out : Option Raw_Block) (n_err : Int) :
    Int × Option Raw_Block :=
  let (n_code, out) :=
    if n_err < Response.Bad_Request then
      let tok := ((Char_Tokenizer.new in_).set_separator (lit " \t")).next.1
      match request_type tok.token with
      | some .GET => get_request date tok out
      | some .POST => post_request date tok out
      | some _ => (Response.Not_Implemented, out)
      | none => (Response.Bad_Request, out)
    else (n_err, out)
  -- Handle Error Resquest ( n_code >= 400 )
  if n_code ≥ Response.Bad_Request then (n_code, print out (error_texts date n_code))
  else (n_code, out)

end Responser

/-! ## §4. The method of a token. -/

/-- The token is the method's name, up to case. -/
def Names (token : Bytes) (m : Method) : Prop := lower token = lower m.name

instance (token : Bytes) (m : Method) : Decidable (Names token m) :=
  inferInstanceAs (Decidable (_ = _))

theorem request_type_some {token : Bytes} {m : Method} (h : request_type token = some m) :
    Begins token m.name := by
  have hmatch := List.find?_some h
  exact (strncasecmp_begins_iff token m.name).mp (beq_iff_eq.mp hmatch)

theorem request_type_none {token : Bytes} (h : request_type token = none) (m : Method) :
    ¬ Begins token m.name := by
  intro hbegins
  have hmatch := List.find?_eq_none.mp h m (Method.mem_all m)
  exact hmatch (beq_iff_eq.mpr ((strncasecmp_begins_iff token m.name).mpr hbegins))

/-- No name is the begin of another. -/
theorem request_type_name (m : Method) : request_type m.name = some m := by
  cases m <;> decide +kernel

/-- **A token that is a name is taken for that method.** -/
theorem request_type_of_names {token : Bytes} {m : Method} (h : Names token m) :
    request_type token = some m := by
  have hlen : token.length = m.name.length := by
    have hmap := congrArg List.length h
    rwa [lower, lower, List.length_map, List.length_map] at hmap
  have hsame : request_type token = request_type m.name := by
    unfold request_type
    rw [hlen]
    congr 1
    funext n
    rw [strncasecmp_congr m.name.length rfl h]
  rw [hsame, request_type_name]

/-! ## §5. The request line. -/

def blank (c : Byte) : Bool := c = SP ∨ c = TAB

def line_break (c : Byte) : Bool := c = CR ∨ c = LF

/-- The first token that blanks delimit. -/
def first_token (s : Bytes) : Bytes := (s.dropWhile blank).takeWhile fun c => ! blank c

/-- From the blank behind it on. -/
def from_blank (s : Bytes) : Bytes := (s.dropWhile blank).dropWhile fun c => ! blank c

/-- What stands behind that blank. -/
def behind_token (s : Bytes) : Bytes := (from_blank s).tail

/-- A URL follows with a blank behind it, and then a rest of line that CR or LF ends. -/
def Followed (s : Bytes) : Prop :=
  first_token s ≠ [] ∧ from_blank s ≠ [] ∧ ∃ c ∈ behind_token s, line_break c = true

/-- And that rest is not empty. -/
def Followed_by_text (s : Bytes) : Prop :=
  from_blank s ≠ [] ∧ ∃ c ∈ (behind_token s).dropWhile line_break, line_break c = true

instance (s : Bytes) : Decidable (Followed s) := inferInstanceAs (Decidable (_ ∧ _ ∧ _))

instance (s : Bytes) : Decidable (Followed_by_text s) := inferInstanceAs (Decidable (_ ∧ _))

theorem has_blank (c : Byte) : (Char_Map.set (c_str (lit " \t"))).has c = blank c := by
  have hlit : c_str (lit " \t") = [SP, TAB] := by decide
  rw [hlit, Char_Map.has_set]
  simp [blank]

theorem has_line_break (c : Byte) : (Char_Map.set (c_str (lit "\r\n"))).has c = line_break c := by
  have hlit : c_str (lit "\r\n") = [CR, LF] := by decide
  rw [hlit, Char_Map.has_set]
  simp [line_break]

/-- What `next` returns: the separator behind the token, if there is one. -/
theorem next_result (t : Char_Tokenizer) :
    t.next.2 = match ((t.ahead.dropWhile t.cm_.has).dropWhile (fun c => ! t.cm_.has c)).head? with
      | some c => (c.toNat : Int)
      | none => if t.next.1.token = [] then Char_Tokenizer.End else Char_Tokenizer.Last := by
  have hbeg : t.str.drop t.seek.beg_ = t.ahead.dropWhile t.cm_.has := by
    rw [← Char_Tokenizer.drop_skip_separators]
    unfold Char_Tokenizer.ahead
    rw [List.drop_drop]
    rfl
  have hrest : t.str.drop t.seek.end_
      = (t.ahead.dropWhile t.cm_.has).dropWhile (fun c => ! t.cm_.has c) := by
    rw [← (Char_Tokenizer.find_separator_split t.cm_ _).2, Char_Tokenizer.seek_end, ← hbeg,
      List.drop_drop]
  have hfound := Char_Tokenizer.next_found t
  rw [← hrest, List.head?_drop]
  change t.seek.stopped > Char_Tokenizer.End ↔ _ at hfound
  show t.seek.stopped = _
  unfold Char_Tokenizer.stopped at hfound ⊢
  have hstr : t.seek.str = t.str := rfl
  rw [hstr] at hfound ⊢
  cases hc : t.str[t.seek.end_]? with
  | some c => rfl
  | none =>
      rw [hc] at hfound
      by_cases hlast : t.seek.end_ = t.str.length ∧ t.seek.end_ ≠ t.seek.beg_
      · have htoken := hfound.mp (by rw [if_pos hlast]; decide)
        rw [if_pos hlast, if_neg htoken]
      · have htoken : t.next.1.token = [] := by
          by_contra hne
          exact absurd (hfound.mpr hne) (by rw [if_neg hlast]; decide)
        rw [if_neg hlast, if_pos htoken]

/-- A token that a separator ends. -/
theorem next_ended (t : Char_Tokenizer) :
    t.next.2 > Char_Tokenizer.Last
      ↔ (t.ahead.dropWhile t.cm_.has).dropWhile (fun c => ! t.cm_.has c) ≠ [] := by
  rw [next_result]
  cases (t.ahead.dropWhile t.cm_.has).dropWhile (fun c => ! t.cm_.has c) with
  | nil =>
      refine ⟨fun h => absurd h ?_, fun h => absurd rfl h⟩
      show ¬ (if _ then Char_Tokenizer.End else Char_Tokenizer.Last) > Char_Tokenizer.Last
      split_ifs <;> decide
  | cons c rest =>
      refine ⟨fun _ => List.cons_ne_nil c rest, fun _ => ?_⟩
      show (c.toNat : Int) > -1
      omega

theorem dropWhile_ne_nil_iff (p : Byte → Bool) (s : Bytes) :
    s.dropWhile (fun c => ! p c) ≠ [] ↔ ∃ c ∈ s, p c = true := by
  rw [Ne, List.dropWhile_eq_nil_iff]
  simp

/-! ## §6. The status of a request. -/

/-- The tokenizer behind the method. -/
def behind_method (in_ : Bytes) : Char_Tokenizer :=
  ((Char_Tokenizer.new in_).set_separator (lit " \t")).next.1

theorem behind_method_eq (in_ : Bytes) :
    (behind_method in_).token = first_token in_ ∧ (behind_method in_).ahead = behind_token in_ ∧
      (behind_method in_).cm_.has = blank := by
  have hcm : ((Char_Tokenizer.new in_).set_separator (lit " \t")).cm_.has = blank :=
    funext has_blank
  obtain ⟨htoken, hahead⟩ :=
    Char_Tokenizer.next_split ((Char_Tokenizer.new in_).set_separator (lit " \t"))
  rw [hcm] at htoken hahead
  exact ⟨htoken, hahead, hcm⟩

/-- The URL of a GET, and what its branch asks for. -/
theorem get_request_eq (date : Gmt_Time) (in_ : Bytes) (out : Option Raw_Block) :
    Responser.get_request date (behind_method in_) out
      = if Followed_by_text (behind_token in_) then
          (Response.OK, Responser.print out
            (Responser.get_texts date (first_token (behind_token in_))))
        else (Response.Bad_Request, out) := by
  obtain ⟨-, hahead, hcm⟩ := behind_method_eq in_
  have hurl := next_ended (behind_method in_)
  obtain ⟨htoken, hbehind⟩ := Char_Tokenizer.next_split (behind_method in_)
  rw [hahead, hcm] at hurl htoken hbehind
  have hline := next_ended ((behind_method in_).next.1.set_separator (lit "\r\n"))
  have hbreak : ((behind_method in_).next.1.set_separator (lit "\r\n")).cm_.has = line_break :=
    funext has_line_break
  have hrest : ((behind_method in_).next.1.set_separator (lit "\r\n")).ahead
      = behind_token (behind_token in_) := hbehind
  rw [hbreak, hrest, dropWhile_ne_nil_iff] at hline
  unfold Responser.get_request
  simp only
  by_cases hended : from_blank (behind_token in_) ≠ []
  · rw [if_pos (hurl.mpr hended)]
    by_cases htext : ∃ c ∈ (behind_token (behind_token in_)).dropWhile line_break,
        line_break c = true
    · rw [if_pos (hline.mpr htext), if_pos ⟨hended, htext⟩, htoken]
      rfl
    · rw [if_neg (fun h => htext (hline.mp h)), if_neg (fun h => htext h.2)]
  · rw [if_neg (fun h => hended (hurl.mp h)), if_neg (fun h => hended h.1)]

/-- The status of a request. -/
def status (in_ : Bytes) : Int :=
  match request_type (first_token in_) with
  | some .GET =>
      if Followed_by_text (behind_token in_) then Response.OK else Response.Bad_Request
  | some .POST => Response.OK
  | some _ => Response.Not_Implemented
  | none => Response.Bad_Request

/-- **What `parse_header` returns** for a request that was not too large. -/
theorem parse_header_code (date : Gmt_Time) (in_ : Bytes) (out : Option Raw_Block) {n_err : Int}
    (h : n_err < Response.Bad_Request) :
    (Responser.parse_header date in_ out n_err).1 = status in_ := by
  obtain ⟨htoken, -, -⟩ := behind_method_eq in_
  have hget := get_request_eq date in_ out
  unfold behind_method at htoken hget
  unfold Responser.parse_header status
  simp only [if_pos h, htoken]
  cases hm : request_type (first_token in_) with
  | none => rfl
  | some m =>
      cases m with
      | GET =>
          simp only [hget]
          split_ifs <;> rfl
      | _ => rfl

/-! ## §7. Exactness. -/

/-- 200 is returned for a GET with a URL and a rest of line, and for a POST; 501 for the
    other methods; 400 for all that is no method. -/
def Exact (in_ : Bytes) (n_code : Int) : Prop :=
  (n_code = Response.OK →
      (Names (first_token in_) .GET ∧ Followed (behind_token in_)) ∨ Names (first_token in_) .POST) ∧
    (n_code = Response.Not_Implemented →
      ∃ m, m ≠ .GET ∧ m ≠ .POST ∧ Names (first_token in_) m) ∧
    ((∀ m, ¬ Names (first_token in_) m) → n_code = Response.Bad_Request)

/-- The first token is no name but the begin of one; the begin of GET does no harm where no URL
    and no text behind it follow. -/
def Misread (in_ : Bytes) : Prop :=
  (∀ m, ¬ Names (first_token in_) m) ∧
    if Begins (first_token in_) Method.GET.name then Followed_by_text (behind_token in_)
    else ∃ m : Method, Begins (first_token in_) m.name

theorem followed_of_text {s : Bytes} (h : Followed_by_text s) : Followed s := by
  obtain ⟨hended, c, hc, hbreak⟩ := h
  refine ⟨?_, hended, c, (List.dropWhile_suffix _).subset hc, hbreak⟩
  -- a blank ends the URL, so there is one
  intro hnone
  have hempty := Char_Tokenizer.dropWhile_nil_of_takeWhile_nil hnone
  unfold from_blank at hended
  rw [hempty] at hended
  exact hended rfl

/-- GET is compared first. -/
theorem request_type_get {token : Bytes} (h : Begins token Method.GET.name) :
    request_type token = some .GET := by
  unfold request_type Method.all
  rw [List.find?_cons_of_pos]
  exact beq_iff_eq.mpr ((strncasecmp_begins_iff token Method.GET.name).mpr h)

/-- A name has its own status. -/
theorem exact_of_names {in_ : Bytes} {m : Method} (hm : Names (first_token in_) m) :
    Exact in_ (status in_) := by
  have hnamed : (∀ m, ¬ Names (first_token in_) m) → status in_ = Response.Bad_Request :=
    fun hall => absurd hm (hall m)
  have htype := request_type_of_names hm
  have hother : Response.OK ≠ Response.Not_Implemented := by decide
  unfold status at hnamed ⊢
  rw [htype] at hnamed ⊢
  cases m with
  | GET =>
      refine ⟨fun hok => ?_, fun hno => ?_, hnamed⟩
      · by_cases hfollowed : Followed_by_text (behind_token in_)
        · exact Or.inl ⟨hm, followed_of_text hfollowed⟩
        · exact absurd ((if_neg hfollowed).symm.trans hok) (by decide)
      · exact absurd hno (by simp only; split_ifs <;> decide)
  | POST => exact ⟨fun _ => Or.inr hm, fun hno => absurd hno hother, hnamed⟩
  | HEAD | PUT | DELETE | TRACE | OPTIONS | CONNECT =>
      exact ⟨fun hok => absurd hok.symm hother, fun _ => ⟨_, by decide, by decide, hm⟩, hnamed⟩

/-- What is no name has to be refused. -/
theorem exact_unnamed_iff {in_ : Bytes} (hall : ∀ m, ¬ Names (first_token in_) m) (n_code : Int) :
    Exact in_ n_code ↔ n_code = Response.Bad_Request := by
  constructor
  · intro h
    exact h.2.2 hall
  · rintro rfl
    exact ⟨fun hok => absurd hok (by decide), fun hno => absurd hno (by decide), fun _ => rfl⟩

/-- It is, unless it is misread. -/
theorem refused_iff {in_ : Bytes} (hall : ∀ m, ¬ Names (first_token in_) m) :
    status in_ = Response.Bad_Request ↔ ¬ Misread in_ := by
  unfold Misread
  by_cases hget : Begins (first_token in_) Method.GET.name
  · have htype := request_type_get hget
    unfold status
    rw [htype, if_pos hget]
    by_cases hfollowed : Followed_by_text (behind_token in_)
    · exact ⟨fun h => absurd ((if_pos hfollowed).symm.trans h) (by decide),
        fun h => absurd ⟨hall, hfollowed⟩ h⟩
    · exact ⟨fun _ h => hfollowed h.2, fun _ => if_neg hfollowed⟩
  · rw [if_neg hget]
    unfold status
    cases htype : request_type (first_token in_) with
    | none => exact ⟨fun _ h => h.2.elim (request_type_none htype), fun _ => rfl⟩
    | some m =>
        have hmis : (∀ m, ¬ Names (first_token in_) m) ∧
            ∃ m : Method, Begins (first_token in_) m.name :=
          ⟨hall, m, request_type_some htype⟩
        have hok : Response.OK ≠ Response.Bad_Request := by decide
        have hno : Response.Not_Implemented ≠ Response.Bad_Request := by decide
        cases m with
        | GET => exact absurd (request_type_some htype) hget
        | POST => exact ⟨fun h => absurd h hok, fun h => absurd hmis h⟩
        | HEAD | PUT | DELETE | TRACE | OPTIONS | CONNECT =>
            exact ⟨fun h => absurd h hno, fun h => absurd hmis h⟩

/-- **The status is that of the method that was sent, exactly when the first token is not
    misread.** -/
theorem method_exact_iff (date : Gmt_Time) (in_ : Bytes) (out : Option Raw_Block) {n_err : Int}
    (h : n_err < Response.Bad_Request) :
    Exact in_ (Responser.parse_header date in_ out n_err).1 ↔ ¬ Misread in_ := by
  rw [parse_header_code date in_ out h]
  by_cases hnamed : ∃ m, Names (first_token in_) m
  · obtain ⟨m, hm⟩ := hnamed
    exact ⟨fun _ hmis => hmis.1 m hm, fun _ => exact_of_names hm⟩
  · have hall := not_exists.mp hnamed
    rw [exact_unnamed_iff hall, refused_iff hall]

/-- A GET as it is sent. -/
theorem method_exact_get :
    (0 : Int) < Response.Bad_Request ∧
      Exact (lit "GET /a HTTP/1.0\r\n\r\n")
        (Responser.parse_header ⟨[], by decide, by decide⟩ (lit "GET /a HTTP/1.0\r\n\r\n") none
          0).1 :=
  ⟨by decide, (method_exact_iff ⟨[], by decide, by decide⟩ (lit "GET /a HTTP/1.0\r\n\r\n") none
    (show (0 : Int) < Response.Bad_Request by decide)).mpr fun h => h.1 .GET (by decide +kernel)⟩

/-- One letter of GET does as well. -/
theorem method_misread_g :
    ¬ Exact (lit "G /a HTTP/1.0\r\n\r\n")
      (Responser.parse_header ⟨[], by decide, by decide⟩ (lit "G /a HTTP/1.0\r\n\r\n") none
        0).1 := by
  have hall : ∀ m, ¬ Names (first_token (lit "G /a HTTP/1.0\r\n\r\n")) m := by
    intro m
    cases m <;> decide +kernel
  rw [parse_header_code _ _ _ (by decide), exact_unnamed_iff hall]
  decide +kernel

end HTTP

end Aos
