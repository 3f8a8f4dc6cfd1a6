/-
  Aos.Mboxd.MailProcessor — `Mail_Processor`, and the *.done files it reads.

  A *.done file says where the mails of a delivery go: a line "@mail" names the
  file of a mail and the folder it is for.  The loop takes the file by `fgets`, a
  line in pieces of up to 1023 bytes, and breaks each piece that begins with '@'
  into its tokens.  It then reads the second and the third token, whether or not
  they are there.

  Main results:
    • `parse_done_iff`   — what the loop makes of every file;
    • `tokens_exist_iff` — the files of which it reads no token that is missing.
-/
import Aos.Str.Explode
import Aos.Str.Compare
import Aos.Str.Line

namespace Aos

open Multi_String

/-! ## §1. The C library. -/

/-- `ACE_OS::fgets(line, n, fp)`: what is put into `line` in front of the NUL, and what is left
    of the file; nothing at its end. -/
def fgets (n : Nat) (fp : Bytes) : Option (Bytes × Bytes) :=
  if fp = [] then none
  else
    let line := get_line (fp.take (n - 1)) LF
    some (line, fp.drop line.length)

theorem fgets_shorter {n : Nat} (hn : 1 < n) {fp line rest : Bytes}
    (h : fgets n fp = some (line, rest)) : rest.length < fp.length := by
  unfold fgets at h
  split_ifs at h with hfp
  obtain ⟨rfl, rfl⟩ := Prod.mk.inj (Option.some.inj h)
  have htake : fp.take (n - 1) ≠ [] := by
    rw [ne_eq, List.take_eq_nil_iff]
    exact fun h => h.elim (by omega) hfp
  have hpos := get_line_pos (fp.take (n - 1)) LF htake
  have hlen := List.length_pos_of_ne_nil hfp
  rw [List.length_drop]
  omega

namespace Mail_Processor

/-! ## §2. The loop. -/

def LINE_MAX : Nat := 1024

def AT : Byte := 0x40

/-- The delimiters of `mstr.explode_token(" \r\n", line)`. -/
def DELIMITER : Bytes := [SP, CR, LF]

/-- What a line says about a mail. -/
structure Spooled_Mail where
  m_id : Bytes
  m_folder : Bytes
  path_spool_mail : Bytes
  deriving DecidableEq

section Loop

variable (dirname : Bytes → Byte → Bytes) (path_done dir_sep : Bytes)

/-- The test for "@mail" and the strings made of its tokens; `none` is a null pointer that is
    read. -/
def read_mail (mstr : Multi_String) : Option (Option Spooled_Mail) :=
  (mstr.at_ 0).bind fun p0 =>
    if os_strcasecmp (lit "@mail") p0 = 0 then
      (mstr.at_ 1).bind fun p1 =>
        (mstr.at_ 2).bind fun p2 =>
          some (some ⟨dirname (c_str p1) 0x2E, c_str p2,
            dirname path_done 0x2F ++ dir_sep ++ c_str p1⟩)
    else some none

/-- "parse *.done": from a place in the file on, the loop finds these mails, or reads a null
    pointer. -/
inductive Parse_Done : Multi_String → Bytes → Option (List Spooled_Mail) → Prop
  | eof {mstr : Multi_String} {fp : Bytes} :
      fgets LINE_MAX fp = none → Parse_Done mstr fp (some [])
  | skipped {mstr : Multi_String} {fp line rest : Bytes} {r : Option (List Spooled_Mail)} :
      fgets LINE_MAX fp = some (line, rest) → deref line ≠ AT →
      Parse_Done mstr rest r → Parse_Done mstr fp r
  | command {mstr mstr' : Multi_String} {fp line rest : Bytes} {mail : Option Spooled_Mail}
      {r : Option (List Spooled_Mail)} :
      fgets LINE_MAX fp = some (line, rest) → deref line = AT →
      mstr.Explodes_Token DELIMITER line 0 (-1) (some mstr') →
      read_mail dirname path_done dir_sep mstr' = some mail →
      Parse_Done mstr' rest r → Parse_Done mstr fp (r.map (mail.toList ++ ·))
  | null {mstr mstr' : Multi_String} {fp line rest : Bytes} :
      fgets LINE_MAX fp = some (line, rest) → deref line = AT →
      mstr.Explodes_Token DELIMITER line 0 (-1) (some mstr') →
      read_mail dirname path_done dir_sep mstr' = none → Parse_Done mstr fp none
  -- more tokens than an `int` counts
  | overflow {mstr : Multi_String} {fp line rest : Bytes} :
      fgets LINE_MAX fp = some (line, rest) → deref line = AT →
      mstr.Explodes_Token DELIMITER line 0 (-1) none → Parse_Done mstr fp none

end Loop

/-! ## §3. What stands in a file. -/

/-- The pieces in which the loop gets the lines of a file. -/
def read_lines (fp : Bytes) : List Bytes :=
  match _h : fgets LINE_MAX fp with
  | none => []
  | some (line, rest) => line :: read_lines rest
termination_by fp.length
decreasing_by exact fgets_shorter (by decide) _h

/-- The words of a piece, up to a NUL in it. -/
def words (line : Bytes) : List Bytes := tokens (Char_Map.set (c_str DELIMITER)) (c_str line)

/-- The piece begins with '@', and its first word is "@mail" up to case. -/
def Is_Mail (line : Bytes) : Prop :=
  deref line = AT ∧ (words line).head?.map tolower_str = some (lit "@mail")

instance (line : Bytes) : Decidable (Is_Mail line) :=
  inferInstanceAs (Decidable (_ ∧ _))

/-! ## §4. The words of a piece. -/

theorem mem_of_splitOnP {p : Byte → Bool} {s w : Bytes} (hw : w ∈ s.splitOnP p) :
    ∀ c ∈ w, c ∈ s := by
  induction s generalizing w with
  | nil =>
      rw [List.splitOnP_nil, List.mem_singleton] at hw
      rw [hw]
      exact fun c hc => hc
  | cons b s ih =>
      rw [List.splitOnP_cons_eq_if_modifyHead] at hw
      obtain ⟨v, vs, hvs⟩ := List.exists_cons_of_ne_nil (List.splitOnP_ne_nil p s)
      rw [hvs] at hw ih
      intro c hc
      split_ifs at hw with hb
      · -- the byte is a delimiter, in front of the other words
        cases List.mem_cons.mp hw with
        | inl hnil => exact absurd (hnil ▸ hc) List.not_mem_nil
        | inr hrest => exact List.mem_cons_of_mem b (ih hrest c hc)
      · -- it belongs to the first word
        rw [List.modifyHead_cons] at hw
        cases List.mem_cons.mp hw with
        | inl hfirst =>
            rw [hfirst] at hc
            cases List.mem_cons.mp hc with
            | inl heq => exact heq ▸ List.mem_cons_self
            | inr hv => exact List.mem_cons_of_mem b (ih List.mem_cons_self c hv)
        | inr hrest => exact List.mem_cons_of_mem b (ih (List.mem_cons_of_mem v hrest) c hc)

theorem splitOnP_length (p : Byte → Bool) (s : Bytes) : (s.splitOnP p).length ≤ s.length + 1 := by
  induction s with
  | nil => simp
  | cons b s ih =>
      rw [List.splitOnP_cons_eq_if_modifyHead, List.length_cons]
      split_ifs
      · rw [List.length_cons]
        omega
      · rw [List.length_modifyHead]
        omega

theorem nul_not_mem_word {line w : Bytes} (hw : w ∈ words line) : NUL ∉ w := fun hnul =>
  c_str_no_nul line (mem_of_splitOnP (List.mem_filter.mp hw).1 NUL hnul)

theorem words_length (line : Bytes) : (words line).length ≤ line.length + 1 :=
  calc (words line).length ≤ ((c_str line).splitOnP _).length := List.length_filter_le _ _
    _ ≤ (c_str line).length + 1 := splitOnP_length _ _
    _ ≤ line.length + 1 := Nat.succ_le_succ (List.takeWhile_sublist _).length_le

/-- A piece that begins with '@' has a word. -/
theorem words_ne_nil {line : Bytes} (h : deref line = AT) : words line ≠ [] := by
  obtain ⟨s, rfl⟩ : ∃ s, line = AT :: s := by
    cases line with
    | nil => exact absurd h (by decide)
    | cons c s => exact ⟨s, congrArg (· :: s) h⟩
  have hat : (Char_Map.set (c_str DELIMITER)).has AT = false := by
    rw [Char_Map.has_set]
    decide
  have hc : c_str (AT :: s) = AT :: c_str s := List.takeWhile_cons_of_pos (by decide)
  have hstep := tokens_step (Char_Map.set (c_str DELIMITER)) (c_str (AT :: s))
  dsimp only at hstep
  rw [words, hstep, hc, List.dropWhile_cons_of_neg (by rw [hat]; simp),
    List.takeWhile_cons_of_pos (by rw [hat]; rfl), if_neg (List.cons_ne_nil _ _)]
  exact List.cons_ne_nil _ _

theorem get_line_begins (buf : Bytes) (delimiter : Byte) : get_line buf delimiter <+: buf := by
  induction buf with
  | nil => exact List.prefix_rfl
  | cons b buf ih =>
      rw [get_line]
      split_ifs
      · exact ⟨buf, rfl⟩
      · exact List.cons_prefix_cons.mpr ⟨rfl, ih⟩

theorem fgets_length {n : Nat} {fp line rest : Bytes} (h : fgets n fp = some (line, rest)) :
    line.length ≤ n - 1 := by
  unfold fgets at h
  split_ifs at h
  obtain ⟨rfl, -⟩ := Prod.mk.inj (Option.some.inj h)
  exact (get_line_begins _ _).length_le.trans (List.length_take_le _ _)

/-! ## §5. What the loop makes of a file. -/

section Parsed

variable {dirname : Bytes → Byte → Bytes} {path_done dir_sep : Bytes}

/-- The tokens of a piece. -/
theorem explode_line {line : Bytes} (hline : line.length < LINE_MAX) (mstr : Multi_String)
    (r : Option Multi_String) :
    mstr.Explodes_Token DELIMITER line 0 (-1) r ↔ r = some (packed (words line)) := by
  have hadd : int_add 0 (-1) = some (0 + -1) := int_add_eq_some (by decide) (by decide)
  have hcount : ((words line).length : Int) < 2 ^ 31 := by
    have hlen := words_length line
    have hmax : LINE_MAX = 1024 := rfl
    omega
  have hends : mstr.Explodes_Token DELIMITER line 0 (-1) (some (packed (words line))) :=
    (explode_token_iff hadd le_rfl mstr DELIMITER line).mpr hcount
  constructor
  · intro h
    rw [Explodes_Token, hadd] at h hends
    exact Lib.Loop.Ends.unique _ h hends
  · intro h
    rw [h]
    exact hends

variable (dirname path_done dir_sep) in
/-- The mail a line of two words or more behind "@mail" is about. -/
def mail_of (line : Bytes) : Option Spooled_Mail :=
  match words line with
  | _ :: name :: folder :: _ =>
      if Is_Mail line then
        some ⟨dirname name 0x2E, folder, dirname path_done 0x2F ++ dir_sep ++ name⟩
      else none
  | _ => none

theorem mail_of_other {line : Bytes} (h : ¬ Is_Mail line) :
    mail_of dirname path_done dir_sep line = none := by
  unfold mail_of
  split
  · exact if_neg h
  · rfl

/-- The tokens that are read of a piece are there. -/
def Tokens_Exist (line : Bytes) : Prop := Is_Mail line → 3 ≤ (words line).length

instance (line : Bytes) : Decidable (Tokens_Exist line) :=
  inferInstanceAs (Decidable (_ → _))

/-- The string at a place of the container. -/
theorem c_str_at {L : List Bytes} (hnul : ∀ w ∈ L, NUL ∉ w) {i : Nat} {w : Bytes}
    (hw : L[i]? = some w) : ∃ tail, (packed L).at_ i = some (w ++ NUL :: tail) ∧
      c_str (w ++ NUL :: tail) = w := by
  obtain ⟨hi, rfl⟩ := List.getElem?_eq_some_iff.mp hw
  obtain ⟨tail, hat⟩ := (represents_packed L).at_ i hi
  exact ⟨tail, hat, by rw [c_str_append_nul, c_str_of_no_nul (hnul _ (List.getElem_mem hi))]⟩

theorem at_beyond {L : List Bytes} {i : Nat} (hi : L.length ≤ i) : (packed L).at_ i = none :=
  if_neg (by rw [(represents_packed L).offs, Lib.Packed.offsets_length]; omega)

section Tokens

variable {w : Bytes} {ws : List Bytes}

theorem read_mail_other (hnul : ∀ v ∈ w :: ws, NUL ∉ v) (hw : tolower_str w ≠ lit "@mail") :
    read_mail dirname path_done dir_sep (packed (w :: ws)) = some none := by
  obtain ⟨tail, hat, -⟩ := c_str_at hnul (i := 0) rfl
  have hcmp := os_strcasecmp_eq_zero_iff (lit "@mail") tail (by decide) w
    (hnul w List.mem_cons_self)
  unfold read_mail
  rw [hat, Option.bind_some, if_neg (hcmp.not.mpr hw)]

theorem read_mail_full {name folder : Bytes} (hnul : ∀ v ∈ w :: name :: folder :: ws, NUL ∉ v)
    (hw : tolower_str w = lit "@mail") :
    read_mail dirname path_done dir_sep (packed (w :: name :: folder :: ws)) =
      some (some ⟨dirname name 0x2E, folder, dirname path_done 0x2F ++ dir_sep ++ name⟩) := by
  obtain ⟨tail, hat, -⟩ := c_str_at hnul (i := 0) rfl
  obtain ⟨tail₁, hat₁, hname⟩ := c_str_at hnul (i := 1) rfl
  obtain ⟨tail₂, hat₂, hfolder⟩ := c_str_at hnul (i := 2) rfl
  have hcmp := os_strcasecmp_eq_zero_iff (lit "@mail") tail (by decide) w
    (hnul w List.mem_cons_self)
  unfold read_mail
  rw [hat, Option.bind_some, if_pos (hcmp.mpr hw), hat₁, Option.bind_some, hat₂,
    Option.bind_some, hname, hfolder]

/-- One token of the two is missing: `operator[]` gives a null pointer. -/
theorem read_mail_short (hnul : ∀ v ∈ w :: ws, NUL ∉ v) (hw : tolower_str w = lit "@mail")
    (hshort : (w :: ws).length < 3) :
    read_mail dirname path_done dir_sep (packed (w :: ws)) = none := by
  obtain ⟨tail, hat, -⟩ := c_str_at hnul (i := 0) rfl
  have hcmp := os_strcasecmp_eq_zero_iff (lit "@mail") tail (by decide) w
    (hnul w List.mem_cons_self)
  unfold read_mail
  rw [hat, Option.bind_some, if_pos (hcmp.mpr hw), at_beyond (i := 2) (by omega)]
  cases (packed (w :: ws)).at_ 1 with
  | none => rfl
  | some p1 => rfl

end Tokens

/-- **What is read of a piece** that begins with '@'. -/
theorem read_mail_eq {line : Bytes} (h : deref line = AT) :
    read_mail dirname path_done dir_sep (packed (words line)) =
      if Tokens_Exist line then some (mail_of dirname path_done dir_sep line) else none := by
  have hnul : ∀ w ∈ words line, NUL ∉ w := fun w hw => nul_not_mem_word hw
  have hmail : Is_Mail line ↔ (words line).head?.map tolower_str = some (lit "@mail") :=
    and_iff_right h
  have hexist : Tokens_Exist line ↔ (Is_Mail line → 3 ≤ (words line).length) := Iff.rfl
  unfold mail_of
  cases hwords : words line with
  | nil => exact absurd hwords (words_ne_nil h)
  | cons w ws =>
      rw [hwords] at hnul hexist
      rw [hwords, List.head?_cons, Option.map_some, Option.some_inj] at hmail
      by_cases hw : tolower_str w = lit "@mail"
      · by_cases hlen : 3 ≤ (w :: ws).length
        · obtain ⟨name, folder, vs, rfl⟩ : ∃ name folder vs, ws = name :: folder :: vs := by
            match ws, hlen with
            | name :: folder :: vs, _ => exact ⟨name, folder, vs, rfl⟩
          rw [read_mail_full hnul hw, if_pos (hexist.mpr fun _ => hlen)]
          exact congrArg some (if_pos (hmail.mpr hw)).symm
        · rw [read_mail_short hnul hw (by omega),
            if_neg fun hall => hlen (hexist.mp hall (hmail.mpr hw))]
      · rw [read_mail_other hnul hw, if_pos (hexist.mpr fun h => absurd (hmail.mp h) hw)]
        -- the line is about no mail
        match ws with
        | [] => rfl
        | [_] => rfl
        | _ :: _ :: _ => exact congrArg some (if_neg fun h => hw (hmail.mp h)).symm

/-! ### The loop. -/

theorem parse_done_eof {fp : Bytes} (h : fgets LINE_MAX fp = none) (mstr : Multi_String)
    (r : Option (List Spooled_Mail)) :
    Parse_Done dirname path_done dir_sep mstr fp r ↔ r = some [] := by
  constructor
  · intro hparse
    cases hparse with
    | eof _ => rfl
    | skipped hline _ _ => exact absurd (h.symm.trans hline) (by simp)
    | command hline _ _ _ _ => exact absurd (h.symm.trans hline) (by simp)
    | null hline _ _ _ => exact absurd (h.symm.trans hline) (by simp)
    | overflow hline _ _ => exact absurd (h.symm.trans hline) (by simp)
  · intro hr
    rw [hr]
    exact .eof h

/-- What one pass of the loop can do with the piece it gets. -/
theorem parse_done_cases {fp line rest : Bytes} (h : fgets LINE_MAX fp = some (line, rest))
    {mstr : Multi_String} {r : Option (List Spooled_Mail)}
    (hparse : Parse_Done dirname path_done dir_sep mstr fp r) :
    (deref line ≠ AT ∧ Parse_Done dirname path_done dir_sep mstr rest r) ∨
      (deref line = AT ∧ mstr.Explodes_Token DELIMITER line 0 (-1) none ∧ r = none) ∨
      (deref line = AT ∧ ∃ mstr', mstr.Explodes_Token DELIMITER line 0 (-1) (some mstr') ∧
        ((read_mail dirname path_done dir_sep mstr' = none ∧ r = none) ∨
          ∃ mail r', read_mail dirname path_done dir_sep mstr' = some mail ∧
            Parse_Done dirname path_done dir_sep mstr' rest r' ∧
            r = r'.map (mail.toList ++ ·))) := by
  cases hparse with
  | eof hline => exact absurd (h.symm.trans hline) (by simp)
  | skipped hline hat hrest =>
      obtain ⟨rfl, rfl⟩ := Prod.mk.inj (Option.some.inj (h.symm.trans hline))
      exact Or.inl ⟨hat, hrest⟩
  | command hline hat hexplode hmail hrest =>
      obtain ⟨rfl, rfl⟩ := Prod.mk.inj (Option.some.inj (h.symm.trans hline))
      exact Or.inr (Or.inr ⟨hat, _, hexplode, Or.inr ⟨_, _, hmail, hrest, rfl⟩⟩)
  | null hline hat hexplode hmail =>
      obtain ⟨rfl, rfl⟩ := Prod.mk.inj (Option.some.inj (h.symm.trans hline))
      exact Or.inr (Or.inr ⟨hat, _, hexplode, Or.inl ⟨hmail, rfl⟩⟩)
  | overflow hline hat hexplode =>
      obtain ⟨rfl, rfl⟩ := Prod.mk.inj (Option.some.inj (h.symm.trans hline))
      exact Or.inr (Or.inl ⟨hat, hexplode, rfl⟩)

/-- A piece that begins with another byte is passed over. -/
theorem parse_done_skipped {fp line rest : Bytes} (h : fgets LINE_MAX fp = some (line, rest))
    (hat : deref line ≠ AT) (mstr : Multi_String) (r : Option (List Spooled_Mail)) :
    Parse_Done dirname path_done dir_sep mstr fp r ↔
      Parse_Done dirname path_done dir_sep mstr rest r := by
  constructor
  · intro hparse
    rcases parse_done_cases h hparse with ⟨-, hrest⟩ | ⟨hat', -⟩ | ⟨hat', -⟩
    · exact hrest
    · exact absurd hat' hat
    · exact absurd hat' hat
  · exact .skipped h hat

/-- A command: what its tokens give, and what the rest of the file gives. -/
theorem parse_done_command {fp line rest : Bytes} (h : fgets LINE_MAX fp = some (line, rest))
    (hat : deref line = AT) (mstr : Multi_String) (r : Option (List Spooled_Mail)) :
    Parse_Done dirname path_done dir_sep mstr fp r ↔
      if Tokens_Exist line then
        ∃ r', Parse_Done dirname path_done dir_sep (packed (words line)) rest r' ∧
          r = r'.map ((mail_of dirname path_done dir_sep line).toList ++ ·)
      else r = none := by
  have hlen : line.length < LINE_MAX := (fgets_length h).trans_lt (by decide)
  have hread : read_mail dirname path_done dir_sep (packed (words line)) =
      if Tokens_Exist line then some (mail_of dirname path_done dir_sep line) else none :=
    read_mail_eq hat
  have hends := (explode_line hlen mstr _).mpr rfl
  constructor
  · intro hparse
    rcases parse_done_cases h hparse with ⟨hat', -⟩ | ⟨-, hover, -⟩ | ⟨-, mstr', hexplode, hmail⟩
    · exact absurd hat hat'
    · -- a piece has fewer words than an `int` counts
      exact absurd ((explode_line hlen mstr _).mp hover) (by simp)
    · obtain rfl := Option.some.inj ((explode_line hlen mstr _).mp hexplode)
      rw [hread] at hmail
      split_ifs at hmail ⊢ with hexist
      · obtain ⟨hnone, -⟩ | ⟨mail, r', hmail, hrest, rfl⟩ := hmail
        · exact absurd hnone (by simp)
        · obtain rfl := Option.some.inj hmail
          exact ⟨r', hrest, rfl⟩
      · obtain ⟨-, rfl⟩ | ⟨mail, r', hmail, -⟩ := hmail
        · rfl
        · exact absurd hmail (by simp)
  · intro hr
    split_ifs at hr with hexist
    · obtain ⟨r', hrest, rfl⟩ := hr
      rw [if_pos hexist] at hread
      exact .command h hat hends hread hrest
    · rw [if_neg hexist] at hread
      rw [hr]
      exact .null h hat hends hread

theorem read_lines_eof {fp : Bytes} (h : fgets LINE_MAX fp = none) : read_lines fp = [] := by
  rw [read_lines]
  split
  · rfl
  · next hline => exact absurd (h.symm.trans hline) (by simp)

theorem read_lines_next {fp line rest : Bytes} (h : fgets LINE_MAX fp = some (line, rest)) :
    read_lines fp = line :: read_lines rest := by
  rw [read_lines]
  split
  · next hline => exact absurd (h.symm.trans hline) (by simp)
  · next hline =>
      obtain ⟨rfl, rfl⟩ := Prod.mk.inj (Option.some.inj (h.symm.trans hline))
      rfl

/-- **What the loop makes of a file**: the mails of its lines, where every "@mail" has the name
    of a file and a folder behind it, and a null pointer that is read elsewhere. -/
theorem parse_done_iff (mstr : Multi_String) (fp : Bytes) (r : Option (List Spooled_Mail)) :
    Parse_Done dirname path_done dir_sep mstr fp r ↔
      r = if ∀ line ∈ read_lines fp, Tokens_Exist line then
        some ((read_lines fp).filterMap (mail_of dirname path_done dir_sep)) else none := by
  induction hn : fp.length using Nat.strong_induction_on generalizing mstr fp r with
  | _ n ih =>
      cases hline : fgets LINE_MAX fp with
      | none =>
          rw [parse_done_eof hline, read_lines_eof hline, if_pos (by simp)]
          rfl
      | some next =>
          obtain ⟨line, rest⟩ := next
          have hrest := fun mstr r =>
            ih _ (hn ▸ fgets_shorter (by decide) hline) mstr rest r rfl
          rw [read_lines_next hline, List.filterMap_cons, if_congr List.forall_mem_cons rfl rfl]
          by_cases hat : deref line = AT
          · rw [parse_done_command hline hat]
            by_cases hexist : Tokens_Exist line
            · rw [if_pos hexist, if_congr (and_iff_right hexist) rfl rfl]
              -- the mail of the piece, and those of the rest
              simp only [hrest, exists_eq_left]
              split_ifs
              · cases mail_of dirname path_done dir_sep line with
                | none => rfl
                | some mail => rfl
              · rfl
            · rw [if_neg hexist, if_neg fun h => hexist h.1]
          · have hno : ¬ Is_Mail line := fun h => hat h.1
            have hexist : Tokens_Exist line := fun h => absurd h hno
            rw [parse_done_skipped hline hat, hrest, if_congr (and_iff_right hexist) rfl rfl,
              mail_of_other hno]

/-- **The tokens that are read exist** exactly where each piece with "@mail" for its first word
    has two words behind it. -/
theorem tokens_exist_iff (dirname : Bytes → Byte → Bytes) (path_done dir_sep : Bytes)
    (mstr : Multi_String) (fp : Bytes) :
    (∃ mails, Parse_Done dirname path_done dir_sep mstr fp (some mails)) ↔
      ∀ line ∈ read_lines fp, Is_Mail line → 3 ≤ (words line).length := by
  show _ ↔ ∀ line ∈ read_lines fp, Tokens_Exist line
  constructor
  · intro h
    obtain ⟨mails, hmails⟩ := h
    rw [parse_done_iff] at hmails
    by_contra hnot
    rw [if_neg hnot] at hmails
    exact absurd hmails (by simp)
  · intro h
    exact ⟨_, (parse_done_iff mstr fp _).mpr (if_pos h).symm⟩

/-- The file `"@mail\n"`, with nothing behind the command. -/
theorem mail_without_name :
    ¬ ∃ (dirname : Bytes → Byte → Bytes) (path_done dir_sep : Bytes) (mstr : Multi_String)
      (mails : List Spooled_Mail),
      Parse_Done dirname path_done dir_sep mstr (lit "@mail\n") (some mails) := by
  intro h
  obtain ⟨dirname, path_done, dir_sep, mstr, mails, hparse⟩ := h
  have hline : fgets LINE_MAX (lit "@mail\n") = some (lit "@mail\n", []) := by decide
  have hwords : ¬ Tokens_Exist (lit "@mail\n") := by decide +kernel
  rw [parse_done_iff, read_lines_next hline, read_lines_eof rfl,
    if_neg fun hall => hwords (hall _ List.mem_cons_self)] at hparse
  exact absurd hparse (by simp)

end Parsed

end Mail_Processor

end Aos
