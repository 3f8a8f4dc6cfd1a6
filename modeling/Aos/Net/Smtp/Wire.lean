/-
  Aos.Net.Smtp.Wire — the client's commands, as the server parses them.

  `cmd_helo`, `cmd_mail_from` and `cmd_rcpt_to` write a host or an address into
  a command line, and `parse_cmd` takes it out again.  Of a MAIL line it takes
  everything up to the end of the line and trims brackets and blanks from both
  ends; a SIZE parameter stands behind the bracket and keeps it in.

  Main results:
    • `parse_word` — the command word of a line;
    • `parse_helo`, `parse_addr_line` — the second parameter;
    • `commands_parse_iff` — which commands give their argument back.
-/
import Aos.Net.Smtp.ServerIO
import Aos.Net.Smtp.ClientIO

namespace Aos

open SMTP_Client_IO (cmd_helo cmd_mail_from cmd_rcpt_to cmd_text)

namespace SMTP_Server_IO

/-! ## §1. Scanning. -/

/-- `strncasecmp` against the text that stands there. -/
theorem os_strncasecmp_self (p : Bytes) (t : Bytes) : os_strncasecmp (p ++ t) p p.length = 0 := by
  induction p with
  | nil => rfl
  | cons c p ih =>
      have hdiff : tolower c.toNat - tolower c.toNat = 0 := by omega
      show (if tolower c.toNat - tolower c.toNat ≠ 0 ∨ c = NUL then tolower c.toNat - tolower c.toNat
        else os_strncasecmp (p ++ t) p p.length) = 0
      rw [hdiff, ih, ite_self]

/-- **The command word.**  A word that holds no separator, with a blank behind it. -/
theorem parse_word (w rest : Bytes) (hne : w ≠ []) (hw : ∀ c ∈ w, c ∉ lit " \r\n") :
    (((Char_Tokenizer.new (w ++ SP :: rest)).set_separator (lit " \r\n")).next.1).token = w ∧
    (((Char_Tokenizer.new (w ++ SP :: rest)).set_separator (lit " \r\n")).next.1).end_ = w.length := by
  obtain ⟨t, ht⟩ : ∃ t, t = (Char_Tokenizer.new (w ++ SP :: rest)).set_separator (lit " \r\n") :=
    ⟨_, rfl⟩
  have hhas : ∀ c, t.cm_.has c = decide (c ∈ lit " \r\n") := by
    intro c
    have hstr : c_str (lit " \r\n") = lit " \r\n" := by decide
    rw [ht, Char_Tokenizer.set_separator, Char_Map.has_set, hstr]
  have hword : ∀ c ∈ w, t.cm_.has c = false := by
    intro c hc
    rw [hhas, decide_eq_false (hw c hc)]
  have hblank : ∀ c, (SP :: rest).head? = some c → t.cm_.has c = true := by
    intro c hc
    obtain rfl := Option.some.inj hc
    rw [hhas]
    decide
  have hahead : t.ahead = w ++ SP :: rest := by
    rw [ht]
    rfl
  obtain ⟨htoken, _, hbehind⟩ := Char_Tokenizer.seek_token_text hahead hne hword hblank
  rw [← ht]
  refine ⟨htoken, ?_⟩
  -- the blank and what follows it lie behind the token
  have hstr : t.next.1.str = w ++ SP :: rest := by
    rw [ht]
    rfl
  have hlen := congrArg List.length hbehind
  rw [hstr, List.length_drop, List.length_append, List.length_cons] at hlen
  omega

theorem parse_cmd_word (w rest : Bytes) (hne : w ≠ []) (hw : ∀ c ∈ w, c ∉ lit " \r\n") :
    parse_cmd (w ++ SP :: rest) = parse_args (Multi_String.new.push_back w) (SP :: rest) := by
  obtain ⟨htoken, hend⟩ := parse_word w rest hne hw
  have hptr : (w ++ SP :: rest).drop w.length = SP :: rest := List.drop_left
  unfold parse_cmd
  simp only [htoken, hend]
  rw [if_pos hne]
  show parse_args _ ((w ++ SP :: rest).drop w.length) = _
  rw [hptr]

/-- Bytes that end no line, and what comes behind them. -/
theorem takeWhile_line (s rest : Bytes) (hs : CR ∉ s ∧ LF ∉ s) :
    (s ++ CR :: rest).takeWhile (fun c => !line_end c) = s := by
  rw [List.takeWhile_append_of_pos, List.takeWhile_cons, if_neg (by decide), List.append_nil]
  intro c hc
  have hcr : c ≠ CR := fun heq => hs.1 (heq ▸ hc)
  have hlf : c ≠ LF := fun heq => hs.2 (heq ▸ hc)
  unfold line_end
  simp [hcr, hlf]

/-- Trimming takes off what stands on both sides of a text that begins and ends
    with something else. -/
theorem trim_set_around (t A s D : Bytes) (hne : s ≠ []) (hA : ∀ c ∈ A, c ∈ c_str t)
    (hD : ∀ c ∈ D, c ∈ c_str t) (hhead : ∀ c, s.head? = some c → c ∉ c_str t)
    (hlast : ∀ c, s.getLast? = some c → c ∉ c_str t) : trim_set t (A ++ s ++ D) = s := by
  have hdrop : ∀ (X Y : Bytes), (∀ c ∈ X, c ∈ c_str t) → (∀ c, Y.head? = some c → c ∉ c_str t) →
      (X ++ Y).dropWhile (· ∈ c_str t) = Y := by
    intro X Y hX hY
    rw [List.dropWhile_append_of_pos (by simpa using hX)]
    cases Y with
    | nil => rfl
    | cons c Y => rw [List.dropWhile_cons, if_neg (by simpa using hY c rfl)]
  have hright : rtrim_set t (A ++ s ++ D) = A ++ s := by
    unfold rtrim_set
    rw [List.reverse_append, hdrop, List.reverse_reverse]
    · intro c hc
      exact hD c (List.mem_reverse.mp hc)
    · intro c hc
      rw [List.head?_reverse, List.getLast?_append_of_ne_nil A hne] at hc
      exact hlast c hc
  unfold trim_set ltrim_set
  rw [hright]
  exact hdrop A s hA hhead

/-! ## §2. The second parameter. -/

/-- What the parser has made of a line: it succeeds, and `params[1]` is `s`. -/
def Gives (line s : Bytes) : Prop :=
  (parse_cmd line).2 = 0 ∧ (((parse_cmd line).1.at_ 1).map c_str) = some s

/-- A parameter list of two entries. -/
theorem param_of_two (w s : Bytes) (hs : NUL ∉ s) :
    (((Multi_String.new.push_back w).push_back s).at_ 1).map c_str = some s := by
  have hrep : Represents ((Multi_String.new.push_back w).push_back s) [w, s] :=
    push_back_represents (L := [w]) (push_back_represents (L := []) ⟨rfl, rfl⟩ w) s
  obtain ⟨tail, htail⟩ := hrep.at_ 1 (by simp)
  have hentry : ([w, s] : List Bytes)[1] = s := rfl
  rw [htail, Option.map_some, hentry]
  congr 1
  unfold c_str
  rw [List.takeWhile_append_of_pos, List.takeWhile_cons, if_neg (by simp), List.append_nil]
  intro b hb
  have hne : b ≠ NUL := fun heq => hs (heq ▸ hb)
  simpa using hne

/-- **A HELO line.** -/
theorem parse_helo (host rest : Bytes) (hne : host ≠ []) (hline : CR ∉ host ∧ LF ∉ host)
    (hhead : ∀ c, host.head? = some c → c ≠ SP) :
    parse_cmd (lit "HELO " ++ host ++ CR :: rest)
      = ((Multi_String.new.push_back (lit "HELO")).push_back host, 0) := by
  have hsplit : lit "HELO " ++ host ++ CR :: rest = lit "HELO" ++ SP :: (host ++ CR :: rest) := by
    have hword : lit "HELO " = lit "HELO" ++ [SP] := by decide
    rw [hword]
    simp
  have hcmd : is_cmd (Multi_String.new.push_back (lit "HELO")) (lit "HELO") = true := by
    decide
  -- the blanks in front of the host
  have hskip : (SP :: (host ++ CR :: rest)).dropWhile (· = SP) = host ++ CR :: rest := by
    rw [List.dropWhile_cons, if_pos (by simp)]
    obtain ⟨c, host, rfl⟩ := List.exists_cons_of_ne_nil hne
    rw [List.cons_append, List.dropWhile_cons, if_neg (by simpa using hhead c rfl)]
  rw [hsplit, parse_cmd_word (lit "HELO") _ (by decide) (by decide +kernel)]
  unfold parse_args
  rw [if_pos hcmd]
  simp only [hskip, takeWhile_line host rest hline]
  rw [if_pos hne]

/-- **A line with an address**, MAIL or RCPT: what stands behind the colon, trimmed. -/
theorem parse_addr_line (params : Multi_String) (str rest : Bytes) (hline : CR ∉ str ∧ LF ∉ str)
    (hne : str ≠ []) (htrim : trim_set (lit " <>") str ≠ []) :
    parse_addr params (str ++ CR :: rest) = (params.push_back (trim_set (lit " <>") str), 0) := by
  unfold parse_addr
  simp only [takeWhile_line str rest hline]
  rw [if_pos hne, if_pos htrim]

theorem parse_mail (str rest : Bytes) :
    parse_cmd (lit "MAIL FROM:" ++ str ++ CR :: rest)
      = parse_addr (Multi_String.new.push_back (lit "MAIL")) (str ++ CR :: rest) := by
  have hsplit : lit "MAIL FROM:" ++ str ++ CR :: rest
      = lit "MAIL" ++ SP :: (lit "FROM:" ++ (str ++ CR :: rest)) := by
    have hword : lit "MAIL FROM:" = lit "MAIL" ++ SP :: lit "FROM:" := by decide
    rw [hword]
    simp
  have hhelo : ¬ is_cmd (Multi_String.new.push_back (lit "MAIL")) (lit "HELO") = true := by
    decide
  have hcmd : is_cmd (Multi_String.new.push_back (lit "MAIL")) (lit "MAIL") = true := by
    decide
  have hfrom : os_strncasecmp (SP :: (lit "FROM:" ++ (str ++ CR :: rest))) (lit " FROM:") 6 = 0 :=
    os_strncasecmp_self (lit " FROM:") (str ++ CR :: rest)
  have hdrop : (SP :: (lit "FROM:" ++ (str ++ CR :: rest))).drop 6 = str ++ CR :: rest :=
    List.drop_left' rfl
  rw [hsplit, parse_cmd_word (lit "MAIL") _ (by decide) (by decide +kernel)]
  unfold parse_args
  rw [if_neg hhelo, if_pos hcmd, if_pos hfrom, hdrop]

theorem parse_rcpt (str rest : Bytes) :
    parse_cmd (lit "RCPT TO:" ++ str ++ CR :: rest)
      = parse_addr (Multi_String.new.push_back (lit "RCPT")) (str ++ CR :: rest) := by
  have hsplit : lit "RCPT TO:" ++ str ++ CR :: rest
      = lit "RCPT" ++ SP :: (lit "TO:" ++ (str ++ CR :: rest)) := by
    have hword : lit "RCPT TO:" = lit "RCPT" ++ SP :: lit "TO:" := by decide
    rw [hword]
    simp
  have hhelo : ¬ is_cmd (Multi_String.new.push_back (lit "RCPT")) (lit "HELO") = true := by
    decide
  have hmail : ¬ is_cmd (Multi_String.new.push_back (lit "RCPT")) (lit "MAIL") = true := by
    decide
  have hcmd : is_cmd (Multi_String.new.push_back (lit "RCPT")) (lit "RCPT") = true := by
    decide
  have hto : os_strncasecmp (SP :: (lit "TO:" ++ (str ++ CR :: rest))) (lit " TO:") 4 = 0 :=
    os_strncasecmp_self (lit " TO:") (str ++ CR :: rest)
  have hdrop : (SP :: (lit "TO:" ++ (str ++ CR :: rest))).drop 4 = str ++ CR :: rest :=
    List.drop_left' rfl
  rw [hsplit, parse_cmd_word (lit "RCPT") _ (by decide) (by decide +kernel)]
  unfold parse_args
  rw [if_neg hhelo, if_neg hmail, if_pos hcmd, if_pos hto, hdrop]

/-! ## §3. The commands. -/

/-- A host or an address: not empty, without CR, LF and NUL, and neither blank
    nor bracket at its ends. -/
structure Argument (s : Bytes) : Prop where
  ne : s ≠ []
  line : CR ∉ s ∧ LF ∉ s
  nul : NUL ∉ s
  head : ∀ c, s.head? = some c → c ∉ lit " <>"
  last : ∀ c, s.getLast? = some c → c ∉ lit " <>"

theorem trims : c_str (lit " <>") = lit " <>" := by decide

/-- The address in brackets, as both commands print it. -/
theorem trim_brackets {s : Bytes} (hs : Argument s) :
    trim_set (lit " <>") (lit "<" ++ s ++ lit ">") = s := by
  apply trim_set_around
  · exact hs.ne
  · rw [trims]
    decide +kernel
  · rw [trims]
    decide +kernel
  · rw [trims]
    exact hs.head
  · rw [trims]
    exact hs.last

/-- The address with a size behind it: the bracket between the two stays. -/
theorem trim_size {s : Bytes} (hs : Argument s) (n : Nat) :
    trim_set (lit " <>") (lit "<" ++ s ++ lit "> SIZE=" ++ dec n) = s ++ lit "> SIZE=" ++ dec n := by
  obtain ⟨hne, hdigits⟩ := dec_digits n
  have hgroup : lit "<" ++ s ++ lit "> SIZE=" ++ dec n
      = lit "<" ++ (s ++ lit "> SIZE=" ++ dec n) ++ [] := by simp
  rw [hgroup]
  apply trim_set_around
  · simp [hs.ne]
  · rw [trims]
    decide +kernel
  · simp
  · rw [trims]
    intro c hc
    rw [List.append_assoc, List.head?_append_of_ne_nil s hs.ne] at hc
    exact hs.head c hc
  · rw [trims]
    intro c hc
    rw [List.getLast?_append_of_ne_nil _ hne] at hc
    -- a digit is no bracket and no blank
    have hdigit := hdigits c (List.mem_of_getLast? hc)
    intro hmem
    have hnone : ∀ c ∈ lit " <>", isdigit c = false := by decide +kernel
    rw [hnone c hmem] at hdigit
    exact absurd hdigit (by simp)

/-! ## §4. What is written is parsed. -/

/-- **HELO gives its host.** -/
theorem helo_gives {s : Bytes} (hs : Argument s) : Gives (lit "HELO " ++ s ++ lit "\r\n") s := by
  have hparse := parse_helo s [LF] hs.ne hs.line (by
    intro c hc heq
    have hsp : SP ∈ lit " <>" := by decide
    exact hs.head c hc (heq ▸ hsp))
  show Gives (lit "HELO " ++ s ++ CR :: [LF]) s
  unfold Gives
  rw [hparse]
  exact ⟨rfl, param_of_two (lit "HELO") s hs.nul⟩

/-- What the brackets and the parameter behind them are printed as. -/
def addr (s : Bytes) (param : Bytes) : Bytes := lit "<" ++ s ++ lit ">" ++ param

/-- An address line gives the trimmed text behind its colon. -/
theorem addr_gives {s v : Bytes} {param : Bytes} (w : Bytes) (hs : Argument s)
    (hparam : ∀ c ∈ param, c ≠ CR ∧ c ≠ LF ∧ c ≠ NUL)
    (htrim : trim_set (lit " <>") (addr s param) = v) (hv : v ≠ []) :
    parse_addr (Multi_String.new.push_back w) (addr s param ++ lit "\r\n")
      = ((Multi_String.new.push_back w).push_back v, 0) := by
  have hbracket : ∀ c : Byte, c ∈ lit "<" ∨ c ∈ lit ">" → c ≠ CR ∧ c ≠ LF := by decide +kernel
  -- the address and the parameter end no line
  have hline : ∀ c ∈ addr s param, c ≠ CR ∧ c ≠ LF := by
    intro c hc
    unfold addr at hc
    rw [List.mem_append, List.mem_append, List.mem_append] at hc
    rcases hc with ((hopen | hmem) | hclose) | hrest
    · exact hbracket c (Or.inl hopen)
    · exact ⟨fun heq => hs.line.1 (heq ▸ hmem), fun heq => hs.line.2 (heq ▸ hmem)⟩
    · exact hbracket c (Or.inr hclose)
    · exact ⟨(hparam c hrest).1, (hparam c hrest).2.1⟩
  show parse_addr _ (addr s param ++ CR :: [LF]) = _
  rw [parse_addr_line _ (addr s param) [LF]
    ⟨fun hc => (hline CR hc).1 rfl, fun hc => (hline LF hc).2 rfl⟩
    (by unfold addr; simp [hs.ne]) (by rw [htrim]; exact hv), htrim]

/-- **RCPT gives its address.** -/
theorem rcpt_gives {s : Bytes} (hs : Argument s) :
    Gives (lit "RCPT TO:<" ++ s ++ lit ">\r\n") s := by
  have hline : lit "RCPT TO:<" ++ s ++ lit ">\r\n"
      = lit "RCPT TO:" ++ addr s [] ++ CR :: [LF] := by
    have hopen : lit "RCPT TO:<" = lit "RCPT TO:" ++ lit "<" := by decide
    have hclose : lit ">\r\n" = lit ">" ++ [CR, LF] := by decide
    unfold addr
    rw [hopen, hclose]
    simp
  have htrim : trim_set (lit " <>") (addr s []) = s := by
    unfold addr
    rw [List.append_nil, trim_brackets hs]
  have hparse := addr_gives (lit "RCPT") hs (by simp) htrim hs.ne
  unfold Gives
  rw [hline, parse_rcpt]
  show (parse_addr _ (addr s [] ++ lit "\r\n")).2 = 0 ∧
    ((parse_addr _ (addr s [] ++ lit "\r\n")).1.at_ 1).map c_str = some s
  rw [hparse]
  exact ⟨rfl, param_of_two (lit "RCPT") s hs.nul⟩

/-- A MAIL line gives what trimming leaves of its address and parameter. -/
theorem mail_gives_trimmed {s v param : Bytes} (hs : Argument s)
    (hparam : ∀ c ∈ param, c ≠ CR ∧ c ≠ LF ∧ c ≠ NUL)
    (htrim : trim_set (lit " <>") (addr s param) = v) (hv : v ≠ []) (hnul : NUL ∉ v) :
    Gives (lit "MAIL FROM:<" ++ s ++ lit ">" ++ param ++ lit "\r\n") s ↔ v = s := by
  have hline : lit "MAIL FROM:<" ++ s ++ lit ">" ++ param ++ lit "\r\n"
      = lit "MAIL FROM:" ++ addr s param ++ CR :: [LF] := by
    have hopen : lit "MAIL FROM:<" = lit "MAIL FROM:" ++ lit "<" := by decide
    have hend : lit "\r\n" = CR :: [LF] := by decide
    unfold addr
    rw [hopen, hend]
    simp
  unfold Gives
  rw [hline, parse_mail]
  show (parse_addr _ (addr s param ++ lit "\r\n")).2 = 0 ∧
    ((parse_addr _ (addr s param ++ lit "\r\n")).1.at_ 1).map c_str = some s ↔ v = s
  rw [addr_gives (lit "MAIL") hs hparam htrim hv, param_of_two (lit "MAIL") v hnul]
  exact ⟨fun h => Option.some.inj h.2, fun h => ⟨rfl, congrArg some h⟩⟩

/-- No byte of a SIZE parameter ends the line. -/
theorem size_bytes (n : Nat) : ∀ c ∈ lit " SIZE=" ++ dec n, c ≠ CR ∧ c ≠ LF ∧ c ≠ NUL := by
  intro c hc
  rw [List.mem_append] at hc
  rcases hc with hword | hnum
  · have hall : ∀ c ∈ lit " SIZE=", c ≠ CR ∧ c ≠ LF ∧ c ≠ NUL := by decide +kernel
    exact hall c hword
  · have hdigit := (dec_digits n).2 c hnum
    have hother : ∀ d : Byte, isdigit d = false → c ≠ d := by
      intro d hd heq
      rw [heq, hd] at hdigit
      exact absurd hdigit (by simp)
    exact ⟨hother CR (by decide), hother LF (by decide), hother NUL (by decide)⟩

/-- **MAIL gives the text between its outer brackets**, and that is the address
    when no parameter stands behind it. -/
theorem mail_gives {s : Bytes} (hs : Argument s) (size : Int) (hsize : size ≥ -1) :
    Gives (lit "MAIL FROM:<" ++ s ++ lit ">" ++
        (if size ≥ 0 then lit " SIZE=" ++ dec size.toNat else []) ++ lit "\r\n") s ↔
      size = -1 := by
  by_cases hneg : size = -1
  · have htrim : trim_set (lit " <>") (addr s []) = s := by
      unfold addr
      rw [List.append_nil, trim_brackets hs]
    rw [if_neg (by omega), mail_gives_trimmed hs (by simp) htrim hs.ne hs.nul]
    exact ⟨fun _ => hneg, fun _ => rfl⟩
  · -- the bracket and the size stay behind the address
    have hbytes := size_bytes size.toNat
    have hword : lit "> SIZE=" = lit ">" ++ lit " SIZE=" := by decide
    have htrim : trim_set (lit " <>") (addr s (lit " SIZE=" ++ dec size.toNat))
        = s ++ lit "> SIZE=" ++ dec size.toNat := by
      have hjoin : addr s (lit " SIZE=" ++ dec size.toNat)
          = lit "<" ++ s ++ lit "> SIZE=" ++ dec size.toNat := by
        unfold addr
        rw [hword]
        simp
      rw [hjoin, trim_size hs]
    have hnul : NUL ∉ s ++ lit "> SIZE=" ++ dec size.toNat := by
      have hclose : NUL ∉ lit ">" := by decide
      have hgroup : s ++ lit "> SIZE=" ++ dec size.toNat
          = s ++ lit ">" ++ (lit " SIZE=" ++ dec size.toNat) := by
        rw [hword]
        simp
      rw [hgroup]
      intro hmem
      rw [List.mem_append, List.mem_append] at hmem
      rcases hmem with (hmem | hmem) | hmem
      · exact hs.nul hmem
      · exact hclose hmem
      · exact (hbytes NUL hmem).2.2 rfl
    rw [if_pos (by omega), mail_gives_trimmed hs hbytes htrim (by simp [hs.ne]) hnul]
    constructor
    · intro heq
      have hlen := congrArg List.length heq
      have hseven : (lit "> SIZE=").length = 7 := rfl
      rw [List.length_append, List.length_append, hseven] at hlen
      omega
    · intro heq
      exact absurd heq hneg

/-- **Encoding and parsing.**  HELO and RCPT give their argument back; MAIL does
    if and only if it is sent without a size. -/
theorem commands_parse_iff {B : Type} (MB : Message_Block B) (mb : B) (s : Bytes) (size : Int)
    (hs : Argument s) (hsize : size ≥ -1) :
    ((lit "HELO " ++ s ++ lit "\r\n").length < MB.size mb →
      Gives (MB.text (cmd_helo MB mb s).1) s) ∧
    ((lit "MAIL FROM:<" ++ s ++ lit ">" ++
        (if size ≥ 0 then lit " SIZE=" ++ dec size.toNat else []) ++ lit "\r\n").length
          < MB.size mb →
      (Gives (MB.text (cmd_mail_from MB mb s size).1) s ↔ size = -1)) ∧
    ((lit "RCPT TO:<" ++ s ++ lit ">\r\n").length < MB.size mb →
      Gives (MB.text (cmd_rcpt_to MB mb s).1) s) := by
  have hstr : c_str s = s := c_str_of_no_nul hs.nul
  refine ⟨?_, ?_, ?_⟩
  · intro hfit
    have htexts : [lit "HELO " ++ s ++ lit "\r\n"].flatten = lit "HELO " ++ s ++ lit "\r\n" :=
      List.flatten_singleton
    unfold cmd_helo
    rw [hstr, (cmd_text MB mb _ (by rw [htexts]; exact hfit)).1, htexts]
    exact helo_gives hs
  · intro hfit
    have htexts : ([lit "MAIL FROM:<" ++ s ++ lit ">"] ++
        (if size ≥ 0 then [lit " SIZE=" ++ dec size.toNat] else []) ++ [lit "\r\n"]).flatten
        = lit "MAIL FROM:<" ++ s ++ lit ">" ++
          (if size ≥ 0 then lit " SIZE=" ++ dec size.toNat else []) ++ lit "\r\n" := by
      split
      · simp
      · simp
    unfold cmd_mail_from
    rw [hstr, (cmd_text MB mb _ (by rw [htexts]; exact hfit)).1, htexts]
    exact mail_gives hs size hsize
  · intro hfit
    have htexts : [lit "RCPT TO:<" ++ s ++ lit ">\r\n"].flatten
        = lit "RCPT TO:<" ++ s ++ lit ">\r\n" := List.flatten_singleton
    unfold cmd_rcpt_to
    rw [hstr, (cmd_text MB mb _ (by rw [htexts]; exact hfit)).1, htexts]
    exact rcpt_gives hs

theorem argument_ab : Argument (lit "a@b") := by
  refine ⟨by decide, by decide, by decide, ?_, ?_⟩
  · intro c hc
    obtain rfl : 97 = c := Option.some.inj hc
    decide
  · intro c hc
    obtain rfl : 98 = c := Option.some.inj hc
    decide

/-- The commands for one address, in the connection's block, without a size. -/
theorem commands_parse_ab :
    Gives (list_block.text (cmd_helo list_block (list_block.new 4096) (lit "a@b")).1)
      (lit "a@b") ∧
    Gives (list_block.text
      (cmd_mail_from list_block (list_block.new 4096) (lit "a@b") (-1)).1)
      (lit "a@b") ∧
    Gives (list_block.text
      (cmd_rcpt_to list_block (list_block.new 4096) (lit "a@b")).1) (lit "a@b") := by
  have hall := commands_parse_iff list_block (list_block.new 4096) (lit "a@b") (-1) argument_ab
    (by decide)
  exact ⟨hall.1 (by decide), (hall.2.1 (by decide)).mpr rfl, hall.2.2 (by decide)⟩

/-- The same address with a size of 5: `params[1]` is "a@b> SIZE=5". -/
theorem mail_size_five :
    ¬ Gives (list_block.text
      (cmd_mail_from list_block (list_block.new 4096) (lit "a@b") 5).1)
      (lit "a@b") := by
  have htexts : list_block.text
      (cmd_mail_from list_block (list_block.new 4096) (lit "a@b") 5).1
      = lit "MAIL FROM:<" ++ lit "a@b" ++ lit ">" ++
        (if (5 : Int) ≥ 0 then lit " SIZE=" ++ dec (5 : Int).toNat else []) ++ lit "\r\n" := by
    decide
  rw [htexts, mail_gives argument_ab 5 (by decide)]
  decide

end SMTP_Server_IO

end Aos
