/-
  Aos.Mime.EncodedWords — `MIME_Header_Util::parse_encoded`.

  The scanner looks for "=?", then for the two '?' behind the name of the
  character set and behind the encoding, then for "?=".  Where one of them is
  missing, the text up to there goes to a pair of its own, and the search goes on
  from there; the position `npos`, where nothing is found, ends the loop.

  Main results:
    • `scan_cases` — what the scanner makes of a text behind "=?";
    • `pass_cases`, `pass_keeps` — one pass of the loop, and what it keeps of the text;
    • `encoded_lossless` — no text is lost, and every word is decoded in its place.
-/
import Aos.Codec.Base64
import Aos.Codec.QP
import Aos.Lib.Loop
import Aos.Lib.Occurrence
import Aos.Mime.Attributes
import Aos.Str.Compare

namespace Aos

open Lib.Occurrence Lib.Loop

/-- `MIME_Util::map_charset(charset, 0)` -/
def MIME_Util.map_charset (charset : Bytes) : Bytes :=
  let charset := tolower_str charset
  if occurrence (lit "utf-7") charset ≠ none then lit "utf-7"
  else if occurrence (lit "gb2312") charset ≠ none then lit "gbk"
  else if occurrence (lit "big5") charset ≠ none then lit "big5"
  else charset

namespace MIME_Header_Util

/-! ## §1. The parser. -/

/-- `s.find(pat, pos)`. -/
def find_from (s pat : Bytes) (pos : Nat) : Option Nat :=
  (occurrence pat (s.drop pos)).map (pos + ·)

/-- `if ( len > 0 && ( *buf == ' ' || *buf == '\t' ) ) { ++buf; --len; }` -/
def drop_blank (buf : Bytes) : Bytes :=
  if buf.head? = some SP ∨ buf.head? = some TAB then buf.tail else buf

/-- The loop of `trim_crlf`: a blank in front of a piece is left out. -/
def append_pieces (toker : Char_Tokenizer) : Bytes :=
  let piece := toker.next
  if _hpiece : piece.2 ≤ Char_Tokenizer.End then []
  else drop_blank piece.1.token ++ append_pieces piece.1
termination_by toker.ahead.length
decreasing_by exact Char_Tokenizer.ahead_shrinks (not_le.mp _hpiece)

/-- `s`, the text that is scanned. -/
def scanned (str : Bytes) (trim_crlf : Bool) : Bytes :=
  if trim_crlf then append_pieces ((Char_Tokenizer.new str).set_separator (lit "\r\n")) else str

/-- Where the scanner has come to behind "=?". -/
inductive Scanned
  | word (charset : Bytes) (enc : Byte) (text : Bytes) (pos_end : Nat)
  | broken (pos_end : Option Nat)

/-- The searches behind "=?", which stands at the begin of `s`; a position that is not
    found is `npos`. -/
def scan_word (s : Bytes) : Scanned :=
  match find_from s (lit "?") 2 with
  | none => .broken none
  | some qmark1 =>
      if qmark1 > 2 then
        match find_from s (lit "?") (qmark1 + 1) with
        | none => .broken none
        | some qmark2 =>
            if qmark2 - qmark1 = 2 then
              let enc := toupper_char (s.getD (qmark1 + 1) NUL)
              if enc = 66 ∨ enc = 81 then
                match find_from s (lit "?=") (qmark2 + 1) with
                | none => .broken none
                | some qmark_end =>
                    .word ((s.drop 2).take (qmark1 - 2)) enc
                      ((s.drop (qmark2 + 1)).take (qmark_end - qmark2 - 1)) (qmark_end + 2)
              else .broken (some qmark2)
            else .broken (some qmark2)
      else .broken (some qmark1)

/-- `switch(enc)` -/
def decode_word (enc : Byte) (text : Bytes) : Bytes :=
  if enc = 66 then Base64.decode_in_place text
  else if enc = 81 then
    QP.decode_in_place (text.map fun c => if c = 95 then SP else c) -- replace '_' with ' '
  else text

/-- Text without charset is merged into the last pair. -/
def add_text (pairs : Pairs) (text : Bytes) : Pairs :=
  if text = [] then pairs
  else
    match pairs.getLast? with
    | some last => pairs.dropLast ++ [(last.1, last.2 ++ text)]
    | none => pairs ++ [([], text)]

/-- `if ( !text.empty() ) pairs_.push_back(std::make_pair("", text))` -/
def push_text (pairs : Pairs) (text : Bytes) : Pairs :=
  if text = [] then pairs else pairs ++ [([], text)]

/-- If the same charset as the last one, append text to the last one, else new entry. -/
def add_word (pairs : Pairs) (charset text : Bytes) : Pairs :=
  match pairs.getLast? with
  | some last =>
      if strncasecmp last.1 charset charset.length = 0 then
        pairs.dropLast ++ [(last.1, last.2 ++ text)]
      else pairs ++ [(charset, text)]
  | none => pairs ++ [(charset, text)]

/-- The charset that is kept with a word. -/
def mapped (map_charset : Bool) (charset : Bytes) : Bytes :=
  if map_charset then MIME_Util.map_charset charset else charset

/-- One pass of the loop; `s` is the text from `pos_beg` on. -/
def encoded_pass (map_charset : Bool) :
    Pairs × Bytes → (Pairs × Bytes) ⊕ Pairs := fun (pairs, s) =>
  match occurrence (lit "=?") s with
  | none => .inr (pairs ++ [([], s)])
  | some pos_end =>
      let pairs := add_text pairs (s.take pos_end)
      let s := s.drop pos_end
      match scan_word s with
      | .word charset enc text pos_end =>
          .inl (add_word pairs (mapped map_charset charset) (decode_word enc text), s.drop pos_end)
      | .broken none => .inr (push_text pairs s)
      | .broken (some pos_end) => .inl (push_text pairs (s.take pos_end), s.drop pos_end)

/-- `parse_encoded(str, trim_crlf, map_charset)` ends with these pairs. -/
def Parses_Encoded (str : Bytes) (trim_crlf : Bool) (map_charset : Bool)
    (u : MIME_Header_Util) : Prop :=
  u.parser_ = .Encoded_Parser ∧
    Ends (encoded_pass map_charset) ([], scanned str trim_crlf) u.pairs_

/-! ## §2. The scanner. -/

theorem find_letter {s a b : Bytes} {c : Byte} {pos : Nat} (hs : s.drop pos = a ++ c :: b)
    (hc : c ∉ a) : find_from s [c] pos = some (pos + a.length) := by
  rw [find_from, hs, occurrence_letter hc]
  rfl

theorem find_letter_none {s a : Bytes} {c : Byte} {pos : Nat} (hs : s.drop pos = a) (hc : c ∉ a) :
    find_from s [c] pos = none := by
  rw [find_from, hs, occurrence_letter_none hc]
  rfl

/-- A text has a letter, or has none of it in front of it. -/
theorem letter_split (c : Byte) (s : Bytes) : c ∉ s ∨ ∃ a b, s = a ++ c :: b ∧ c ∉ a := by
  by_cases hc : c ∈ s
  · obtain ⟨a, b, hs, ha⟩ := List.eq_append_cons_of_mem hc
    exact Or.inr ⟨a, b, hs, ha⟩
  · exact Or.inl hc

/-- The encodings the scanner knows. -/
def known_enc (e : Byte) : Prop := toupper_char e = 66 ∨ toupper_char e = 81

instance (e : Byte) : Decidable (known_enc e) := inferInstanceAs (Decidable (_ ∨ _))

/-- A text behind "=?", in the parts the scanner takes it into. -/
inductive Scans : Bytes → Scanned → Prop
  | no_charset {s : Bytes} : 63 ∉ s → Scans s (.broken none)
  | empty_charset (r : Bytes) : Scans (63 :: r) (.broken (some 2))
  | no_enc {c r : Bytes} : 63 ∉ c → c ≠ [] → 63 ∉ r → Scans (c ++ 63 :: r) (.broken none)
  | bad_enc {c a : Bytes} (r : Bytes) : 63 ∉ c → c ≠ [] → 63 ∉ a →
      (∀ e, a = [e] → ¬ known_enc e) →
      Scans (c ++ 63 :: (a ++ 63 :: r)) (.broken (some (c.length + a.length + 3)))
  | no_end {c r : Bytes} {e : Byte} : 63 ∉ c → c ≠ [] → known_enc e → ¬ [63, 61] <:+: r →
      Scans (c ++ 63 :: e :: 63 :: r) (.broken none)
  | word {c t : Bytes} {e : Byte} (r : Bytes) : 63 ∉ c → c ≠ [] → known_enc e →
      ¬ [63, 61] <:+: t →
      Scans (c ++ 63 :: e :: 63 :: (t ++ 63 :: 61 :: r))
        (.word c (toupper_char e) t (c.length + t.length + 7))

theorem known_ne_qmark {e : Byte} (h : known_enc e) : e ≠ 63 := by
  rintro rfl
  exact absurd h (by unfold known_enc; decide)

/-- What stands behind the first '?', and behind the second one. -/
theorem drop_first (c r : Bytes) : (61 :: 63 :: (c ++ 63 :: r)).drop (2 + c.length + 1) = r := by
  have hsplit : (61 :: 63 :: (c ++ 63 :: r) : Bytes) = (61 :: 63 :: (c ++ [63])) ++ r := by
    simp
  have hlen : 2 + c.length + 1 = (61 :: 63 :: (c ++ [63]) : Bytes).length := by
    simp only [List.length_cons, List.length_append, List.length_nil]
    omega
  rw [hsplit, hlen, List.drop_left]

theorem drop_second (c a r : Bytes) :
    (61 :: 63 :: (c ++ 63 :: (a ++ 63 :: r))).drop (2 + c.length + 1 + a.length + 1) = r := by
  rw [Nat.add_assoc (2 + c.length + 1), ← List.drop_drop, drop_first, ← List.drop_drop,
    List.drop_left]
  rfl

/-- The character behind the first '?'. -/
theorem char_first (c r : Bytes) (e : Byte) :
    (61 :: 63 :: (c ++ 63 :: e :: r)).getD (2 + c.length + 1) NUL = e := by
  have hat : (61 :: 63 :: (c ++ 63 :: e :: r))[2 + c.length + 1]? = some e := by
    rw [← List.head?_drop, drop_first]
    rfl
  rw [List.getD_eq_getElem?_getD, hat]
  rfl

/-- The scanner behind a name of a character set. -/
theorem scan_charset {c : Bytes} (hc : 63 ∉ c) (hne : c ≠ []) (r : Bytes) :
    scan_word (61 :: 63 :: (c ++ 63 :: r))
      = match find_from (61 :: 63 :: (c ++ 63 :: r)) [63] (2 + c.length + 1) with
        | none => .broken none
        | some qmark2 =>
            if qmark2 - (2 + c.length) = 2 then
              if known_enc ((61 :: 63 :: (c ++ 63 :: r)).getD (2 + c.length + 1) NUL) then
                match find_from (61 :: 63 :: (c ++ 63 :: r)) [63, 61] (qmark2 + 1) with
                | none => .broken none
                | some qmark_end =>
                    .word c (toupper_char ((61 :: 63 :: (c ++ 63 :: r)).getD (2 + c.length + 1) NUL))
                      (((61 :: 63 :: (c ++ 63 :: r)).drop (qmark2 + 1)).take
                        (qmark_end - qmark2 - 1)) (qmark_end + 2)
              else .broken (some qmark2)
            else .broken (some qmark2) := by
  have hq : lit "?" = [63] := by decide
  have hend : lit "?=" = [63, 61] := by decide
  have hlong : 2 + c.length > 2 := by
    have hpos := List.length_pos_iff.mpr hne
    omega
  have htake : ((61 :: 63 :: (c ++ 63 :: r)).drop 2).take (2 + c.length - 2) = c := by
    rw [Nat.add_sub_cancel_left]
    exact List.take_left
  unfold scan_word
  rw [hq, hend, find_letter (a := c) (b := r) rfl hc]
  dsimp only
  rw [if_pos hlong, htake]
  rfl

/-- **What the scanner makes of the parts of a text.** -/
theorem scans_eq {s : Bytes} {r : Scanned} (h : Scans s r) : scan_word (61 :: 63 :: s) = r := by
  have hq : lit "?" = [63] := by decide
  cases h with
  | no_charset h =>
      unfold scan_word
      rw [hq, find_letter_none rfl h]
  | empty_charset r =>
      unfold scan_word
      rw [hq, find_letter (a := []) (b := r) rfl List.not_mem_nil]
      rfl
  | @no_enc c r hc hne hr => rw [scan_charset hc hne, find_letter_none (drop_first c r) hr]
  | @bad_enc c a r hc hne ha hbad =>
      rw [scan_charset hc hne, find_letter (drop_first c _) ha]
      dsimp only
      have hpos : 2 + c.length + 1 + a.length = c.length + a.length + 3 := by omega
      -- the encoding is not one character, or not a known one
      by_cases hone : a.length = 1
      · obtain ⟨e, rfl⟩ := List.length_eq_one_iff.mp hone
        rw [if_pos (by omega), List.singleton_append, char_first, if_neg (hbad e rfl), hpos]
      · rw [if_neg (by omega), hpos]
  | @no_end c r e hc hne he hr =>
      have hsecond : find_from (61 :: 63 :: (c ++ 63 :: e :: 63 :: r)) [63] (2 + c.length + 1)
          = some (2 + c.length + 1 + 1) :=
        find_letter (a := [e]) (drop_first c _) (by simpa using (known_ne_qmark he).symm)
      have hnone : find_from (61 :: 63 :: (c ++ 63 :: e :: 63 :: r)) [63, 61]
          (2 + c.length + 1 + 1 + 1) = none := by
        have hbehind : (61 :: 63 :: (c ++ 63 :: e :: 63 :: r)).drop (2 + c.length + 1 + 1 + 1) = r :=
          drop_second c [e] r
        rw [find_from, hbehind, occurrence_none_iff_absent.mpr hr]
        rfl
      rw [scan_charset hc hne, hsecond]
      dsimp only
      rw [if_pos (by omega), char_first, if_pos he, hnone]
  | @word c t e r hc hne he ht =>
      have hsecond : find_from (61 :: 63 :: (c ++ 63 :: e :: 63 :: (t ++ 63 :: 61 :: r))) [63]
          (2 + c.length + 1) = some (2 + c.length + 1 + 1) :=
        find_letter (a := [e]) (drop_first c _) (by simpa using (known_ne_qmark he).symm)
      have hbehind : (61 :: 63 :: (c ++ 63 :: e :: 63 :: (t ++ 63 :: 61 :: r))).drop
          (2 + c.length + 1 + 1 + 1) = t ++ 63 :: 61 :: r :=
        drop_second c [e] (t ++ 63 :: 61 :: r)
      have hthird : find_from (61 :: 63 :: (c ++ 63 :: e :: 63 :: (t ++ 63 :: 61 :: r))) [63, 61]
          (2 + c.length + 1 + 1 + 1) = some (2 + c.length + 1 + 1 + 1 + t.length) := by
        rw [find_from, hbehind, occurrence_pair (by decide) ht]
        rfl
      have htext : 2 + c.length + 1 + 1 + 1 + t.length - (2 + c.length + 1 + 1) - 1 = t.length := by
        omega
      have hstop : 2 + c.length + 1 + 1 + 1 + t.length + 2 = c.length + t.length + 7 := by omega
      rw [scan_charset hc hne, hsecond]
      dsimp only
      rw [if_pos (by omega), char_first, if_pos he, hthird]
      dsimp only
      rw [hbehind, htext, List.take_left, hstop]

/-- **Every text has its parts.** -/
theorem scan_cases (s : Bytes) : Scans s (scan_word (61 :: 63 :: s)) := by
  have hall : ∃ r, Scans s r := by
    rcases letter_split 63 s with hno | ⟨c, r, rfl, hc⟩
    · exact ⟨_, .no_charset hno⟩
    · by_cases hne : c = []
      · rw [hne]
        exact ⟨_, .empty_charset r⟩
      · rcases letter_split 63 r with hno | ⟨a, r, rfl, ha⟩
        · exact ⟨_, .no_enc hc hne hno⟩
        · by_cases hbad : ∀ e, a = [e] → ¬ known_enc e
          · exact ⟨_, .bad_enc r hc hne ha hbad⟩
          · obtain ⟨e, hnot⟩ := not_forall.mp hbad
            obtain ⟨rfl, hknown⟩ := Classical.not_imp.mp hnot
            have he := not_not.mp hknown
            cases hfind : occurrence [63, 61] r with
            | none => exact ⟨_, .no_end hc hne he (occurrence_none_iff_absent.mp hfind)⟩
            | some p =>
                obtain ⟨t, b, htext, hlen⟩ := occurrence_split hfind
                have ht := occurrence_front hfind htext hlen (by decide)
                rw [htext]
                exact ⟨_, .word b hc hne he ht⟩
  obtain ⟨r, hr⟩ := hall
  rw [scans_eq hr]
  exact hr

/-! ## §3. One pass. -/

/-- The texts of the pairs, one behind the other. -/
def spoken (pairs : Pairs) : Bytes := (pairs.map Prod.snd).flatten

theorem spoken_append (ps qs : Pairs) : spoken (ps ++ qs) = spoken ps ++ spoken qs := by
  unfold spoken
  rw [List.map_append, List.flatten_append]

theorem spoken_one (p : Bytes × Bytes) : spoken [p] = p.2 := List.append_nil p.2

/-- Text that is added to the last pair is added to the texts. -/
theorem spoken_last {pairs : Pairs} {last : Bytes × Bytes} (h : pairs.getLast? = some last)
    (text : Bytes) :
    spoken (pairs.dropLast ++ [(last.1, last.2 ++ text)]) = spoken pairs ++ text := by
  have hpairs : pairs = pairs.dropLast ++ [last] :=
    (List.dropLast_append_getLast? last h).symm
  conv_rhs => rw [hpairs]
  rw [spoken_append, spoken_append, spoken_one, spoken_one, List.append_assoc]

theorem spoken_add_text (pairs : Pairs) (text : Bytes) :
    spoken (add_text pairs text) = spoken pairs ++ text := by
  unfold add_text
  by_cases hnil : text = []
  · rw [if_pos hnil, hnil, List.append_nil]
  · rw [if_neg hnil]
    cases hlast : pairs.getLast? with
    | none => exact spoken_append pairs _ |>.trans (congrArg (spoken pairs ++ ·) (spoken_one _))
    | some last => exact spoken_last hlast text

theorem spoken_push_text (pairs : Pairs) (text : Bytes) :
    spoken (push_text pairs text) = spoken pairs ++ text := by
  unfold push_text
  by_cases hnil : text = []
  · rw [if_pos hnil, hnil, List.append_nil]
  · rw [if_neg hnil, spoken_append, spoken_one]

theorem spoken_add_word (pairs : Pairs) (charset text : Bytes) :
    spoken (add_word pairs charset text) = spoken pairs ++ text := by
  unfold add_word
  cases hlast : pairs.getLast? with
  | none => exact (spoken_append pairs _).trans (congrArg (spoken pairs ++ ·) (spoken_one _))
  | some last =>
      show spoken (if strncasecmp last.1 charset charset.length = 0 then
        pairs.dropLast ++ [(last.1, last.2 ++ text)] else pairs ++ [(charset, text)]) = _
      split_ifs
      · exact spoken_last hlast text
      · rw [spoken_append, spoken_one]

section Pass

variable (map_charset : Bool) (pairs : Pairs)

/-- The loop is left where no "=?" is found. -/
theorem pass_end {s : Bytes} (h : ¬ [61, 63] <:+: s) :
    encoded_pass map_charset (pairs, s) = .inr (pairs ++ [([], s)]) := by
  have hlit : lit "=?" = [61, 63] := by decide
  unfold encoded_pass
  dsimp only
  rw [hlit, occurrence_none_iff_absent.mpr h]

/-- Behind a "=?" the scanner decides. -/
theorem pass_found {p : Bytes} (h : ¬ [61, 63] <:+: p) (s : Bytes) :
    encoded_pass map_charset (pairs, p ++ 61 :: 63 :: s)
      = match scan_word (61 :: 63 :: s) with
        | .word charset enc text pos_end =>
            .inl (add_word (add_text pairs p) (mapped map_charset charset) (decode_word enc text),
              (61 :: 63 :: s).drop pos_end)
        | .broken none => .inr (push_text (add_text pairs p) (61 :: 63 :: s))
        | .broken (some pos_end) =>
            .inl (push_text (add_text pairs p) ((61 :: 63 :: s).take pos_end),
              (61 :: 63 :: s).drop pos_end) := by
  have hlit : lit "=?" = [61, 63] := by decide
  unfold encoded_pass
  dsimp only
  rw [hlit, occurrence_pair (by decide) h]
  dsimp only
  rw [List.take_left, List.drop_left]

/-- A text has a "=?", with none in front of it, or has none. -/
theorem marker_split (s : Bytes) :
    ¬ [61, 63] <:+: s ∨ ∃ p r, s = p ++ 61 :: 63 :: r ∧ ¬ [61, 63] <:+: p := by
  cases hfind : occurrence [61, 63] s with
  | none => exact Or.inl (occurrence_none_iff_absent.mp hfind)
  | some q =>
      obtain ⟨p, r, htext, hlen⟩ := occurrence_split hfind
      exact Or.inr ⟨p, r, htext, occurrence_front hfind htext hlen (by decide)⟩

end Pass

/-! ## §4. Whole texts. -/

/-- `=?charset?enc?text?=` -/
structure Encoded_Word where
  charset : Bytes
  enc : Byte
  text : Bytes
  charset_ne : charset ≠ []
  charset_ok : 63 ∉ charset
  enc_ok : enc = 66 ∨ enc = 98 ∨ enc = 81 ∨ enc = 113
  text_ok : ¬ [63, 61] <:+: text

theorem known_enc_iff (e : Byte) : known_enc e ↔ e = 66 ∨ e = 98 ∨ e = 81 ∨ e = 113 := by
  have hall : ∀ n < 256, known_enc (UInt8.ofNat n) ↔ UInt8.ofNat n = 66 ∨ UInt8.ofNat n = 98 ∨
      UInt8.ofNat n = 81 ∨ UInt8.ofNat n = 113 := by decide +kernel
  have he := hall e.toNat e.toNat_lt
  rwa [UInt8.ofNat_toNat] at he

namespace Encoded_Word

variable (w : Encoded_Word)

def rendered : Bytes :=
  61 :: 63 :: (w.charset ++ 63 :: w.enc :: 63 :: (w.text ++ [63, 61]))

/-- What the word stands for. -/
def decoded : Bytes :=
  if w.enc = 66 ∨ w.enc = 98 then Base64.decode w.text
  else QP.decode (w.text.map fun c => if c = 95 then SP else c)

theorem decode_word_eq : decode_word (toupper_char w.enc) w.text = w.decoded := by
  have hb : toupper_char 66 = 66 ∧ toupper_char 98 = 66 := by decide
  have hq : toupper_char 81 = 81 ∧ toupper_char 113 = 81 := by decide
  unfold decode_word decoded
  rw [Base64.decode_in_place_eq, QP.decode_in_place_eq]
  rcases w.enc_ok with h | h | h | h
  · rw [h, hb.1, if_pos rfl, if_pos (Or.inl rfl)]
  · rw [h, hb.2, if_pos rfl, if_pos (Or.inr rfl)]
  · rw [h, hq.1, if_neg (by decide), if_pos rfl, if_neg (by decide)]
  · rw [h, hq.2, if_neg (by decide), if_pos rfl, if_neg (by decide)]

/-- **A word is scanned as what it is**, whatever stands behind it. -/
theorem scan (r : Bytes) :
    scan_word (w.rendered ++ r)
        = .word w.charset (toupper_char w.enc) w.text w.rendered.length ∧
      ∃ s, w.rendered ++ r = 61 :: 63 :: s := by
  have htext : w.rendered ++ r = 61 :: 63 :: (w.charset ++ 63 :: w.enc :: 63 ::
      (w.text ++ 63 :: 61 :: r)) := by
    simp only [rendered, List.cons_append, List.append_assoc, List.nil_append]
  have hlen : w.rendered.length = w.charset.length + w.text.length + 7 := by
    simp only [rendered, List.length_cons, List.length_append, List.length_nil]
    omega
  refine ⟨?_, _, htext⟩
  rw [htext, hlen]
  exact scans_eq (.word r w.charset_ok w.charset_ne ((known_enc_iff _).mpr w.enc_ok) w.text_ok)

/-- There is no word in a short text. -/
theorem not_within {s : Bytes} (hs : s.length < 7) : ¬ w.rendered <:+: s := by
  intro hw
  have hlen := hw.length_le
  simp only [rendered, List.length_cons, List.length_append, List.length_nil] at hlen
  omega

/-- What the scanner takes for a word is one. -/
theorem of_parts {c t : Bytes} {e : Byte} (hc : 63 ∉ c) (hne : c ≠ []) (he : known_enc e)
    (ht : ¬ [63, 61] <:+: t) (r : Bytes) :
    ∃ w : Encoded_Word,
      w.rendered ++ r = 61 :: 63 :: (c ++ 63 :: e :: 63 :: (t ++ 63 :: 61 :: r)) := by
  refine ⟨⟨c, e, t, hne, hc, (known_enc_iff e).mp he, ht⟩, ?_⟩
  simp only [rendered, List.cons_append, List.append_assoc, List.nil_append]

/-- The pass that takes the word. -/
theorem pass (map_charset : Bool) (pairs : Pairs) {p : Bytes}
    (h : ¬ [61, 63] <:+: p) (r : Bytes) :
    encoded_pass map_charset (pairs, p ++ (w.rendered ++ r))
      = .inl (add_word (add_text pairs p) (mapped map_charset w.charset) w.decoded, r) := by
  obtain ⟨hscan, s, hs⟩ := w.scan r
  rw [hs, pass_found map_charset pairs h, ← hs, hscan]
  dsimp only
  rw [List.drop_left, w.decode_word_eq]

end Encoded_Word

section Whole

variable (map_charset : Bool)

/-- **What one pass does**: it ends and keeps all of the text, it moves the text up to some
    position to the pairs, or it takes a word. -/
theorem pass_cases (pairs : Pairs) (s : Bytes) :
    (∃ out, encoded_pass map_charset (pairs, s) = .inr out ∧ spoken out = spoken pairs ++ s) ∨
    (∃ pairs' gone rest, encoded_pass map_charset (pairs, s) = .inl (pairs', rest) ∧
      s = gone ++ rest ∧ gone ≠ [] ∧ spoken pairs' = spoken pairs ++ gone) ∨
    ∃ (w : Encoded_Word) (p rest : Bytes), s = p ++ (w.rendered ++ rest) ∧
      encoded_pass map_charset (pairs, s)
        = .inl (add_word (add_text pairs p) (mapped map_charset w.charset) w.decoded, rest) := by
  rcases marker_split s with hno | ⟨p, r, rfl, hp⟩
  · refine Or.inl ⟨_, pass_end map_charset pairs hno, ?_⟩
    rw [spoken_append, spoken_one]
  · have hpass := pass_found map_charset pairs hp r
    have hspoken : ∀ text, spoken (push_text (add_text pairs p) text)
        = spoken pairs ++ (p ++ text) := by
      intro text
      rw [spoken_push_text, spoken_add_text, List.append_assoc]
    -- a position that is found lies behind the "=?"
    have hgone : ∀ n, p ++ (61 :: 63 :: r).take (n + 1) ≠ [] := by
      intro n h
      exact absurd (List.append_eq_nil_iff.mp h).2 (List.cons_ne_nil _ _)
    have hsplit : ∀ n, p ++ 61 :: 63 :: r
        = (p ++ (61 :: 63 :: r).take n) ++ (61 :: 63 :: r).drop n := by
      intro n
      rw [List.append_assoc, List.take_append_drop]
    have hscan := scan_cases r
    generalize scan_word (61 :: 63 :: r) = found at hpass hscan
    cases hscan with
    | no_charset _ => exact Or.inl ⟨_, hpass, hspoken _⟩
    | empty_charset _ => exact Or.inr (Or.inl ⟨_, _, _, hpass, hsplit 2, hgone 1, hspoken _⟩)
    | no_enc _ _ _ => exact Or.inl ⟨_, hpass, hspoken _⟩
    | @bad_enc c a _ _ _ _ _ =>
        exact Or.inr (Or.inl ⟨_, _, _, hpass, hsplit _, hgone (c.length + a.length + 2), hspoken _⟩)
    | no_end _ _ _ _ => exact Or.inl ⟨_, hpass, hspoken _⟩
    | @word c t e r hc hne he ht =>
        obtain ⟨w, hw⟩ := Encoded_Word.of_parts hc hne he ht r
        have hword : p ++ 61 :: 63 :: (c ++ 63 :: e :: 63 :: (t ++ 63 :: 61 :: r))
            = p ++ (w.rendered ++ r) := by rw [hw]
        refine Or.inr (Or.inr ⟨w, p, r, hword, ?_⟩)
        rw [hword]
        exact w.pass map_charset pairs hp r

/-- A pass that goes round again leaves less to scan. -/
theorem pass_shrinks (σ σ' : Pairs × Bytes) (h : encoded_pass map_charset σ = .inl σ') :
    σ'.2.length < σ.2.length := by
  obtain ⟨pairs, s⟩ := σ
  rcases pass_cases map_charset pairs s with
    ⟨out, hpass, _⟩ | ⟨pairs', gone, rest, hpass, rfl, hgone, _⟩ | ⟨w, p, rest, rfl, hpass⟩
  · rw [hpass] at h
    exact (Sum.inr_ne_inl h).elim
  · rw [hpass] at h
    rw [← Sum.inl.inj h, List.length_append]
    exact Nat.lt_add_of_pos_left (List.length_pos_iff.mpr hgone)
  · rw [hpass] at h
    rw [← Sum.inl.inj h, List.length_append, List.length_append]
    have hpos : 0 < w.rendered.length := Nat.succ_pos _
    dsimp only
    omega

/-- **The scan ends.** -/
theorem parses_encoded_total (str : Bytes) (trim_crlf : Bool) :
    ∃ u, Parses_Encoded str trim_crlf map_charset u := by
  obtain ⟨pairs, hpairs⟩ := ends_of_measure (encoded_pass map_charset) (fun σ => σ.2.length)
    (pass_shrinks map_charset) ([], scanned str trim_crlf)
  exact ⟨⟨.Encoded_Parser, pairs⟩, rfl, hpairs⟩

/-- Where no word stands in the text, a pass moves text to the pairs and changes none. -/
theorem pass_keeps {s : Bytes} (hs : ∀ w : Encoded_Word, ¬ w.rendered <:+: s) (σ : Pairs × Bytes)
    (hσ : spoken σ.1 ++ σ.2 = s) :
    (∀ σ', encoded_pass map_charset σ = .inl σ' → spoken σ'.1 ++ σ'.2 = s) ∧
      ∀ pairs, encoded_pass map_charset σ = .inr pairs → spoken pairs = s := by
  obtain ⟨pairs, rest⟩ := σ
  dsimp only at hσ
  rcases pass_cases map_charset pairs rest with
    ⟨out, hpass, hout⟩ | ⟨pairs', gone, rest, hpass, rfl, _, hmoved⟩ | ⟨w, p, rest, rfl, _⟩
  · rw [hpass]
    refine ⟨fun σ' h => (Sum.inr_ne_inl h).elim, fun pairs' h => ?_⟩
    rw [← Sum.inr.inj h, hout]
    exact hσ
  · rw [hpass]
    refine ⟨fun σ' h => ?_, fun pairs' h => (Sum.inl_ne_inr h).elim⟩
    rw [← Sum.inl.inj h, hmoved, List.append_assoc]
    exact hσ
  · refine absurd ⟨spoken pairs ++ p, rest, ?_⟩ (hs w)
    rw [List.append_assoc, List.append_assoc]
    exact hσ

/-- **A text in which no word stands** is kept. -/
theorem parses_kept {str : Bytes} {trim_crlf : Bool} {u : MIME_Header_Util}
    (hu : Parses_Encoded str trim_crlf map_charset u)
    (hs : ∀ w : Encoded_Word, ¬ w.rendered <:+: scanned str trim_crlf) :
    spoken u.pairs_ = scanned str trim_crlf := by
  obtain ⟨fuel, hfuel⟩ := hu.2
  exact loop_invariant (encoded_pass map_charset)
    (fun σ => spoken σ.1 ++ σ.2 = scanned str trim_crlf)
    (fun pairs => spoken pairs = scanned str trim_crlf)
    (fun σ σ' hσ => (pass_keeps map_charset hs σ hσ).1 σ')
    (fun σ pairs hσ => (pass_keeps map_charset hs σ hσ).2 pairs) fuel _ u.pairs_ rfl hfuel

/-- What is written for a text of words, each with the plain text behind it. -/
def written (items : List (Encoded_Word × Bytes)) : Bytes :=
  items.flatMap fun item => item.1.rendered ++ item.2

/-- The same text with every word decoded. -/
def read (items : List (Encoded_Word × Bytes)) : Bytes :=
  items.flatMap fun item => item.1.decoded ++ item.2

/-- Words and plain texts are read one after the other. -/
theorem written_ends (items : List (Encoded_Word × Bytes)) :
    ∀ (pairs : Pairs) (p : Bytes), ¬ [61, 63] <:+: p → (∀ item ∈ items, ¬ [61, 63] <:+: item.2) →
      ∃ out, Ends (encoded_pass map_charset) (pairs, p ++ written items) out ∧
        spoken out = spoken pairs ++ p ++ read items := by
  induction items with
  | nil =>
      intro pairs p hp _
      refine ⟨pairs ++ [([], p)], ?_, ?_⟩
      · rw [written, List.flatMap_nil, List.append_nil]
        exact (ends_exit _ (pass_end map_charset pairs hp)).mpr rfl
      · rw [spoken_append, spoken_one, read, List.flatMap_nil, List.append_nil]
  | cons item items ih =>
      intro pairs p hp hitems
      obtain ⟨w, q⟩ := item
      obtain ⟨out, hends, hout⟩ :=
        ih (add_word (add_text pairs p) (mapped map_charset w.charset) w.decoded) q
          (hitems _ List.mem_cons_self) (fun i hi => hitems i (List.mem_cons_of_mem _ hi))
      refine ⟨out, ?_, ?_⟩
      · have hwritten : written ((w, q) :: items) = w.rendered ++ (q ++ written items) := by
          rw [written, List.flatMap_cons, List.append_assoc]
          rfl
        rw [hwritten]
        exact (ends_next _ (w.pass map_charset pairs hp _)).mpr hends
      · have hread : read ((w, q) :: items) = w.decoded ++ (q ++ read items) := by
          rw [read, List.flatMap_cons, List.append_assoc]
          rfl
        rw [hout, spoken_add_word, spoken_add_text, hread]
        simp only [List.append_assoc]

end Whole

/-- **Nothing is lost**: the scan ends on every text; a text in which no encoded word
    stands is kept as it is; and of plain texts and encoded words every word is decoded
    in its place. -/
theorem encoded_lossless :
    (∀ s, ∃ u, Parses_Encoded s false false u) ∧
    (∀ s u, Parses_Encoded s false false u → (∀ w : Encoded_Word, ¬ w.rendered <:+: s) →
      spoken u.pairs_ = s) ∧
    ∀ (front : Bytes) (items : List (Encoded_Word × Bytes)) (u : MIME_Header_Util),
      ¬ [61, 63] <:+: front → (∀ item ∈ items, ¬ [61, 63] <:+: item.2) →
      Parses_Encoded (front ++ written items) false false u →
      spoken u.pairs_ = front ++ read items := by
  refine ⟨fun s => parses_encoded_total false s false, fun s u hu hs => parses_kept false hu hs, ?_⟩
  intro front items u hfront hitems hu
  obtain ⟨out, hends, hout⟩ := written_ends false items [] front hfront hitems
  rw [Ends.unique _ hu.2 hends, hout]
  rfl

/-- The word "=?x?q?a_b?=". -/
def word_a_b : Encoded_Word where
  charset := [120]
  enc := 113
  text := [97, 95, 98]
  charset_ne := List.cons_ne_nil _ _
  charset_ok := by decide
  enc_ok := by decide
  text_ok := by decide

/-- A truncated word "=?x?q" is kept, and "<=?x?q?a_b?=>" is read as "<a b>". -/
theorem encoded_lossless_run :
    (∃ u, Parses_Encoded [61, 63, 120, 63, 113] false false u ∧
      spoken u.pairs_ = [61, 63, 120, 63, 113]) ∧
    ∃ u, Parses_Encoded ([60] ++ written [(word_a_b, [62])]) false false u ∧
      spoken u.pairs_ = [60, 97, SP, 98, 62] := by
  obtain ⟨htotal, hplain, hmixed⟩ := encoded_lossless
  constructor
  · obtain ⟨u, hu⟩ := htotal [61, 63, 120, 63, 113]
    refine ⟨u, hu, hplain _ u hu ?_⟩
    exact fun w => w.not_within (by decide)
  · obtain ⟨u, hu⟩ := htotal ([60] ++ written [(word_a_b, [62])])
    exact ⟨u, hu, hmixed [60] [(word_a_b, [62])] u (by decide) (by decide) hu⟩

end MIME_Header_Util

end Aos
