/-
  Aos.Net.Imap4.Login — the LOGIN line, written by the client and parsed by the
  server.

  `cmd_login` prints the tag, the user and the password as they are; the server
  knows atoms and quoted strings.  A credential that is no atom, with a space in
  it or a quote in front, is not quoted by the client and is not read back.

  Main results:
    • `parse_loop_atom`, `parse_loop_last` — atoms are read as they stand;
    • `login_parsed_iff` — the logins that are read back.
-/
import Aos.Net.Imap4.ClientIO
import Aos.Net.Imap4.ServerIO

namespace Aos

namespace IMAP4_Server_IO

/-! ## §1. Atoms. -/

/-- A parameter that the parser takes as it stands. -/
def Atom (p : Bytes) : Prop := SP ∉ p ∧ p.head? ≠ some QS.default.quote_

/-- **An atom and its space.** -/
theorem parse_loop_atom (fuel : Nat) (L : List Bytes) (t rest : Bytes) (hne : t ≠ [])
    (h : Atom t) :
    parse_loop (fuel + 1) (packed L) (t ++ SP :: rest)
      = parse_loop fuel (packed (L ++ [t])) rest := by
  rw [parse_loop, if_pos (by simp), parse_next_atom L rest hne h.1 h.2, Option.bind_some]

/-- **The last atom and the end of the line.** -/
theorem parse_loop_last (fuel : Nat) (L : List Bytes) (t : Bytes) (hne : t ≠ []) (h : Atom t) :
    parse_loop (fuel + 1) (packed L) (t ++ [CR, LF]) = some (packed (L ++ [t])) := by
  have hquote : (t ++ [CR, LF]).head? ≠ some QS.default.quote_ := by
    rw [List.head?_append_of_ne_nil _ hne]
    exact h.2
  have hsp : SP ∉ t ++ [CR, LF] := by
    intro hmem
    rcases List.mem_append.mp hmem with hmem | hmem
    · exact h.1 hmem
    · exact absurd hmem (by decide)
  have hlen : 1 < (t ++ [CR, LF]).length := by simp
  have htake : (t ++ [CR, LF]).take ((t ++ [CR, LF]).length - 2) = t := by
    have hsub : (t ++ [CR, LF]).length - 2 = t.length := by simp
    rw [hsub, List.take_left]
  have hnext := parse_next_last L hlen hsp hquote
  rw [htake] at hnext
  have hend : ∀ m, parse_loop fuel m [] = some m := by
    intro m
    cases fuel with
    | zero => rfl
    | succ fuel => rfl
  rw [parse_loop, if_pos (by simp), hnext, Option.bind_some, hend]

end IMAP4_Server_IO

/-! ## §2. The login line. -/

open IMAP4_Server_IO IMAP4_Client_IO

/-- A user or a password: not empty, and without CR, LF or NUL. -/
def Credential (s : Bytes) : Prop := s ≠ [] ∧ CR ∉ s ∧ LF ∉ s ∧ NUL ∉ s

theorem Credential.c_str {s : Bytes} (h : Credential s) : c_str s = s := c_str_of_no_nul h.2.2.2

/-- Atoms are read back. -/
theorem parse_login {tag user pass : Bytes} (htag : tag ≠ []) (hatom : Atom tag)
    (hnul : NUL ∉ tag) (huser : Credential user) (hpass : Credential pass) (hu : Atom user)
    (hp : Atom pass) :
    parse_cmd (login_line tag user pass) = some (packed [tag, lit "LOGIN", user, pass]) := by
  have hlogin : Atom (lit "LOGIN") := by
    unfold Atom
    decide
  have hline : login_line tag user pass
      = tag ++ SP :: (lit "LOGIN" ++ SP :: (user ++ SP :: (pass ++ [CR, LF]))) := by
    have hword : lit " LOGIN " = SP :: (lit "LOGIN" ++ [SP]) := by decide
    unfold login_line
    rw [c_str_of_no_nul hnul, huser.c_str, hpass.c_str, hword]
    simp
  obtain ⟨n, hn⟩ : ∃ n, (login_line tag user pass).length = n + 1 + 1 + 1 + 1 := by
    refine ⟨(login_line tag user pass).length - 4, ?_⟩
    have hlong : 4 ≤ (login_line tag user pass).length := by
      have hword : (lit "LOGIN").length = 5 := by decide
      rw [hline]
      simp only [List.length_append, List.length_cons, hword]
      omega
    omega
  unfold parse_cmd
  rw [hn, hline, show Multi_String.new = packed [] from rfl,
    parse_loop_atom _ _ _ _ htag hatom, parse_loop_atom _ _ _ _ (by decide) hlogin,
    parse_loop_atom _ _ _ _ huser.1 hu, parse_loop_last _ _ _ hpass.1 hp]
  rfl

/-- What is read back was written as atoms. -/
theorem atoms_of_parse_login {tag user pass : Bytes} (huser : Credential user)
    (hpass : Credential pass)
    (h : parse_cmd (login_line tag user pass) = some (packed [tag, lit "LOGIN", user, pass])) :
    tag ≠ [] ∧ NUL ∉ tag ∧ Atom user ∧ Atom pass := by
  obtain ⟨ps, hpacked, hparsed⟩ := parse_loop_parsed _ [] _ _ le_rfl h
  obtain rfl : [tag, lit "LOGIN", user, pass] = ps := packed_inj hpacked
  have hlogin : (lit "LOGIN").length = 5 := by decide
  have hword : (lit " LOGIN ").length = 7 := by decide
  -- the line has one byte more than its parameters take at least
  have hshort : (login_line tag user pass).length
      ≤ weight [tag, lit "LOGIN", user, pass] + 1 := by
    have htag : (c_str tag).length ≤ tag.length := (List.takeWhile_sublist _).length_le
    unfold login_line
    rw [huser.c_str, hpass.c_str]
    simp only [weight_cons, weight_nil, List.length_append, List.length_cons, List.length_nil,
      hlogin, hword]
    omega
  obtain ⟨hatoms, hnonempty⟩ := hparsed.atoms hshort
  refine ⟨hnonempty tag (by simp), ?_, hatoms user (by simp), hatoms pass (by simp)⟩
  intro hnul
  have hmem := hparsed.mem tag (by simp) NUL hnul
  unfold login_line at hmem
  rw [huser.c_str, hpass.c_str] at hmem
  have hwords : NUL ∉ lit " LOGIN " := by decide
  have hends : NUL ∉ [SP] ∧ NUL ∉ [CR, LF] := by decide
  simp only [List.mem_append] at hmem
  rcases hmem with ((((htag | hlit) | hu) | hsp) | hp) | hcrlf
  · exact c_str_no_nul tag htag
  · exact hwords hlit
  · exact huser.2.2.2 hu
  · exact hends.1 hsp
  · exact hpass.2.2.2 hp
  · exact hends.2 hcrlf

/-- **LOGIN.**  For every tag without spaces and quotes and every credentials that
    fit in the block, the server reads the tag, "LOGIN", the user and the
    password exactly when the tag is a string that is not empty and neither
    credential has a space in it or a quote in front. -/
theorem login_parsed_iff {B : Type} (MB : Message_Block B) (mb : B) (io : IMAP4_Client_IO)
    (user pass : Bytes) (htag : SP ∉ io.tag_ ∧ 34 ∉ io.tag_) (huser : Credential user)
    (hpass : Credential pass) (hfits : (login_line io.tag_ user pass).length < MB.size mb) :
    parse_cmd (MB.text (io.cmd_login MB mb user pass).1)
        = some (packed [io.tag_, lit "LOGIN", user, pass]) ↔
      (io.tag_ ≠ [] ∧ NUL ∉ io.tag_) ∧
      (SP ∉ user ∧ user.head? ≠ some 34) ∧ (SP ∉ pass ∧ pass.head? ≠ some 34) := by
  have htext := (cmd_text MB mb (login_line io.tag_ user pass) hfits).1
  unfold cmd_login
  rw [htext]
  constructor
  · intro h
    obtain ⟨hne, hnul, hu, hp⟩ := atoms_of_parse_login huser hpass h
    exact ⟨⟨hne, hnul⟩, hu, hp⟩
  · intro h
    obtain ⟨⟨hne, hnul⟩, hu, hp⟩ := h
    have hatom : Atom io.tag_ := ⟨htag.1, fun hhead => htag.2 (List.mem_of_head? hhead)⟩
    exact parse_login hne hatom hnul huser hpass hu hp

/-- Atoms in a block of 4096 bytes. -/
theorem login_parsed_atoms :
    parse_cmd (list_block.text (cmd_login ⟨lit "A001", [], .RD_OK, 0⟩ list_block
        (list_block.new 4096) (lit "ntut") (lit "111111")).1)
      = some (packed [lit "A001", lit "LOGIN", lit "ntut", lit "111111"]) :=
  (login_parsed_iff list_block (list_block.new 4096) ⟨lit "A001", [], .RD_OK, 0⟩ (lit "ntut")
    (lit "111111") (by decide) ⟨by decide, by decide, by decide,
      by decide⟩ ⟨by decide, by decide, by decide,
      by decide⟩ (by decide)).mpr (by decide)

/-- A user with a space is read as two parameters, a password in quotes without them. -/
theorem login_not_quoted :
    Credential (lit "john smith") ∧ Credential (lit "secret") ∧ Credential (lit "\"s\"") ∧
    parse_cmd (list_block.text (cmd_login ⟨lit "A001", [], .RD_OK, 0⟩ list_block
        (list_block.new 4096) (lit "john smith") (lit "secret")).1)
      ≠ some (packed [lit "A001", lit "LOGIN", lit "john smith", lit "secret"]) ∧
    parse_cmd (list_block.text (cmd_login ⟨lit "A001", [], .RD_OK, 0⟩ list_block
        (list_block.new 4096) (lit "ntut") (lit "\"s\"")).1)
      ≠ some (packed [lit "A001", lit "LOGIN", lit "ntut", lit "\"s\""]) := by
  unfold Credential
  decide

end Aos
