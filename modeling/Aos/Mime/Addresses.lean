/-
  Aos.Mime.Addresses — the addresses of a header, taken apart and built.

  The builder puts quotes around a name and changes nothing in it; the parser
  decodes what stands between quotes, and drops the escapes.

  Main results:
    • `parse_name` — a name in quotes is read as the decoder gives it;
    • `weigh_parse` — what is read of quotes and escapes has cost escapes;
    • `address_round_trip_iff` — which lists come back.
-/
import Aos.Mime.Attributes
import Aos.Str.QuotedString

namespace Aos.MIME_Header_Util

open QS (weigh one_of Payable)

/-! ## §1. The parser and the builder. -/

/-- `find_last_of(c)` -/
def find_last_of (c : Byte) : Bytes → Option Nat
  | [] => none
  | b :: s =>
      match find_last_of c s with
      | some i => some (i + 1)
      | none => if b = c then some 0 else none

/-- The pair of an item: what stands in angle brackets, and the name before it. -/
def address_pair (item : Bytes) : Bytes × Bytes :=
  match find_last_of 60 item, find_last_of 62 item with
  | some l, some r =>
      if r > l then (trim (item.take l), (item.drop (l + 1)).take (r - l - 1)) else ([], trim item)
  | _, _ => ([], trim item)

/-- The loop of `parse_address`: `m` is what lies between `ptr` and `ptr_end`, `item` what
    has been read of the item, up to `ptr`. -/
def parse_addresses (item : Bytes) (m : Bytes) : Option Pairs :=
  match m with
  | [] => some [address_pair item] -- process last item
  | c :: rest =>
      if c = 34 then
        match QS.default.decode_cstr (c :: rest ++ [NUL]) with
        | none => none
        | some (out, n_read) =>
            if _hread : n_read = 0 then none else parse_addresses (item ++ out) ((c :: rest).drop n_read)
      else if c = 44 then (parse_addresses [] rest).map (address_pair item :: ·)
      else parse_addresses (item ++ [c]) rest
termination_by m.length
decreasing_by
  · rw [List.length_drop, List.length_cons]
    omega
  · exact Nat.lt_succ_self _
  · exact Nat.lt_succ_self _

/-- `parse_address(str)` -/
def parse_address (u : MIME_Header_Util) (str : Bytes) : Option MIME_Header_Util :=
  (parse_addresses [] str).map fun pairs =>
    { u with parser_ := .Address_Parser, pairs_ := pairs }

/-- The loop of `build_address`. -/
def build_addresses : Pairs → Bytes
  | [] => []
  | p :: ps =>
      (if p.1 ≠ [] then lit "\"" ++ p.1 ++ lit "\" " else [])
        ++ (if p.2 ≠ [] then lit "<" ++ p.2 ++ lit ">, " else []) ++ build_addresses ps

/-- `build_address(str, charset, enc)` -/
def build_address (u : MIME_Header_Util) : Bytes :=
  if u.parser_ ≠ .Address_Parser then []
  else
    let str := build_addresses u.pairs_
    if str.length ≥ 2 then str.take (str.length - 2) else str

/-! ## §2. What is built. -/

/-- The text of a pair. -/
def mailbox (p : Bytes × Bytes) : Bytes :=
  (if p.1 ≠ [] then 34 :: (p.1 ++ [34, SP]) else []) ++ 60 :: (p.2 ++ [62])

/-- The pairs, one behind the other. -/
def mailboxes : Pairs → Bytes
  | [] => []
  | [p] => mailbox p
  | p :: q :: ps => mailbox p ++ 44 :: SP :: mailboxes (q :: ps)

theorem build_addresses_text {ps : Pairs} (hne : ps ≠ []) (haddr : ∀ p ∈ ps, p.2 ≠ []) :
    build_addresses ps = mailboxes ps ++ [44, SP] := by
  have hspace : lit "\" " = [34, SP] := by decide
  have hopen : lit "<" = [60] := by decide
  have hclose : lit ">, " = [62, 44, SP] := by decide
  have hitem : ∀ p : Bytes × Bytes, p.2 ≠ [] →
      (if p.1 ≠ [] then lit "\"" ++ p.1 ++ lit "\" " else [])
        ++ (if p.2 ≠ [] then lit "<" ++ p.2 ++ lit ">, " else []) = mailbox p ++ [44, SP] := by
    intro p hp
    rw [if_pos hp, lit_quote, hspace, hopen, hclose, mailbox]
    simp only [List.append_assoc, List.cons_append, List.nil_append]
  induction ps with
  | nil => exact absurd rfl hne
  | cons p ps ih =>
      rw [build_addresses, hitem p (haddr p List.mem_cons_self)]
      cases ps with
      | nil =>
          rw [build_addresses, List.append_nil]
          rfl
      | cons q ps =>
          rw [ih (by simp) fun r hr => haddr r (List.mem_cons_of_mem p hr), mailboxes]
          simp only [List.append_assoc, List.cons_append, List.nil_append]

/-- **The header that is built.** -/
theorem build_address_text {ps : Pairs} (hne : ps ≠ []) (haddr : ∀ p ∈ ps, p.2 ≠ []) :
    build_address ⟨.Address_Parser, ps⟩ = mailboxes ps := by
  have hlen : (mailboxes ps ++ [44, SP]).length = (mailboxes ps).length + 2 := List.length_append
  show (if (build_addresses ps).length ≥ 2 then
    (build_addresses ps).take ((build_addresses ps).length - 2) else build_addresses ps) = _
  rw [build_addresses_text hne haddr, hlen, if_pos (Nat.le_add_left 2 _), Nat.add_sub_cancel,
    List.take_left]

/-! ## §3. What is read. -/

theorem find_last_of_none {c : Byte} {s : Bytes} (h : c ∉ s) : find_last_of c s = none := by
  induction s with
  | nil => rfl
  | cons b s ih =>
      have hb : b ≠ c := fun heq => h (by rw [heq]; exact List.mem_cons_self)
      rw [find_last_of, ih fun hmem => h (List.mem_cons_of_mem b hmem)]
      exact if_neg hb

/-- The last occurrence is the one behind which there is none. -/
theorem find_last_of_at {c : Byte} (a : Bytes) {b : Bytes} (h : c ∉ b) :
    find_last_of c (a ++ c :: b) = some a.length := by
  induction a with
  | nil =>
      rw [List.nil_append, find_last_of, find_last_of_none h]
      exact if_pos rfl
  | cons d a ih =>
      rw [List.cons_append, find_last_of, ih]
      rfl

/-- **What stands in the last angle brackets is the address**, whatever the name is. -/
theorem address_pair_text (name : Bytes) {addr : Bytes} (hopen : (60 : Byte) ∉ addr) :
    address_pair (name ++ 60 :: (addr ++ [62])) = (trim name, addr) := by
  have hleft : find_last_of 60 (name ++ 60 :: (addr ++ [62])) = some name.length := by
    refine find_last_of_at name fun hmem => ?_
    rcases List.mem_append.mp hmem with hmem | hmem
    · exact hopen hmem
    · exact absurd (List.mem_singleton.mp hmem) (by decide)
  have hright : find_last_of 62 (name ++ 60 :: (addr ++ [62]))
      = some (name.length + 1 + addr.length) := by
    have htext : name ++ 60 :: (addr ++ [62]) = (name ++ 60 :: addr) ++ 62 :: [] := by
      rw [List.append_assoc]
      rfl
    rw [htext, find_last_of_at _ List.not_mem_nil, List.length_append, List.length_cons]
    congr 1
    omega
  have hdrop : (name ++ 60 :: (addr ++ [62])).drop (name.length + 1) = addr ++ [62] := by
    rw [← List.drop_drop, List.drop_left]
    rfl
  have hlen : name.length + 1 + addr.length - name.length - 1 = addr.length := by omega
  unfold address_pair
  rw [hleft, hright]
  simp only
  rw [if_pos (by omega), List.take_left, hdrop, hlen, List.take_left]

theorem parse_end (item : Bytes) : parse_addresses item [] = some [address_pair item] := by
  rw [parse_addresses]

theorem parse_comma (item m : Bytes) :
    parse_addresses item (44 :: m) = (parse_addresses [] m).map (address_pair item :: ·) := by
  rw [parse_addresses, if_neg (by decide), if_pos rfl]

/-- Bytes that are neither quotes nor commas go to the item. -/
theorem parse_plain {s : Bytes} (hs : ∀ c ∈ s, c ≠ 34 ∧ c ≠ 44) :
    ∀ item m, parse_addresses item (s ++ m) = parse_addresses (item ++ s) m := by
  induction s with
  | nil =>
      intro item m
      rw [List.append_nil, List.nil_append]
  | cons c s ih =>
      intro item m
      obtain ⟨hquote, hcomma⟩ := hs c List.mem_cons_self
      rw [List.cons_append, parse_addresses, if_neg hquote, if_neg hcomma,
        ih fun b hb => hs b (List.mem_cons_of_mem c hb), List.append_assoc]
      rfl

theorem parse_space (item m : Bytes) :
    parse_addresses item (SP :: m) = parse_addresses (item ++ [SP]) m := by
  rw [parse_addresses, if_neg (by decide), if_neg (by decide)]

/-- A quote hands the text to the decoder. -/
theorem parse_quote {m out : Bytes} {n_read : Nat}
    (h : QS.default.decode_cstr (34 :: (m ++ [NUL])) = some (out, n_read + 1)) (item : Bytes) :
    parse_addresses item (34 :: m) = parse_addresses (item ++ out) (m.drop n_read) := by
  rw [parse_addresses, if_pos rfl]
  simp only [List.cons_append]
  rw [h]
  simp only
  rw [dif_neg (Nat.succ_ne_zero n_read), List.drop_succ_cons]

/-- **A name in quotes that holds neither quote nor escape is read as it is.** -/
theorem parse_name {name : Bytes} (hname : ∀ c ∈ name, c ≠ 34 ∧ c ≠ 92 ∧ c ≠ NUL) (item m : Bytes) :
    parse_addresses item (34 :: (name ++ 34 :: m)) = parse_addresses (item ++ name) m := by
  have hdecode : QS.default.decode_cstr (34 :: (name ++ 34 :: m ++ [NUL]))
      = some (name, name.length + 1 + 1) := by
    rw [List.append_assoc, List.cons_append]
    show (QS.decode_in_place 34 92 .DECODE_CHAR none (name ++ 34 :: (m ++ [NUL]))).map _ = _
    rw [QS.in_place_clean hname none (by simp)]
    rfl
  rw [parse_quote hdecode, ← List.drop_drop, List.drop_left]
  rfl

/-! ## §4. Lists that come back. -/

/-- A name may hold quotes, escapes, commas and angle brackets. -/
structure Person (n : Bytes) : Prop where
  trimmed : trim n = n
  plain : ∀ c ∈ n, c ≠ NUL ∧ c ≠ CR ∧ c ≠ LF

structure Address (a : Bytes) : Prop where
  ne : a ≠ []
  plain : ∀ c ∈ a, c ≠ 34 ∧ c ≠ 44 ∧ c ≠ 60 ∧ c ≠ 62 ∧ c ≠ SP ∧ c ≠ CR ∧ c ≠ LF ∧ c ≠ NUL

structure Addresses (pairs : Pairs) : Prop where
  ne : pairs ≠ []
  names : ∀ p ∈ pairs, Person p.1
  addresses : ∀ p ∈ pairs, Address p.2

/-- The name holds nothing that the decoder looks for. -/
def Clean (p : Bytes × Bytes) : Prop := (34 : Byte) ∉ p.1 ∧ (92 : Byte) ∉ p.1

section RoundTrip

variable {p : Bytes × Bytes} {item : Bytes}

theorem trim_spaces {s : Bytes} (hs : ∀ c ∈ s, c = SP) : trim s = [] := by
  have hall : ∀ c ∈ rtrim TRIM_CM s, TRIM_CM.has c = true := by
    intro c hc
    rw [hs c ((rtrim_sublist TRIM_CM s).subset hc), has_trim]
    decide
  rw [trim, ltrim_eq]
  exact List.dropWhile_eq_nil_iff.mpr hall

/-- The name of a pair, trimmed of the spaces around it. -/
theorem trim_name (hname : Person p.1) (hitem : ∀ c ∈ item, c = SP) :
    trim (item ++ (if p.1 ≠ [] then p.1 ++ [SP] else [])) = p.1 := by
  by_cases hne : p.1 ≠ []
  · have hspace : ∀ s : Bytes, (∀ c ∈ s, c = SP) → ∀ c ∈ s, TRIM_CM.has c = true := by
      intro s hs c hc
      rw [hs c hc, has_trim]
      decide
    obtain ⟨hfirst, hlast⟩ := trimmed_ends hname.trimmed
    rw [if_pos hne, ← List.append_assoc]
    exact trim_around (hspace item hitem) (hspace [SP] (by simp)) hfirst hlast hne
  · rw [if_neg hne, List.append_nil, trim_spaces hitem, not_not.mp hne]

/-- **A pair whose name is clean is read up to its end.** -/
theorem parse_mailbox (hname : Person p.1) (haddr : Address p.2) (hclean : Clean p)
    (item m : Bytes) :
    parse_addresses item (mailbox p ++ m)
      = parse_addresses (item ++ (if p.1 ≠ [] then p.1 ++ [SP] else []) ++ 60 :: (p.2 ++ [62])) m := by
  have hangle : ∀ c ∈ 60 :: (p.2 ++ [62]), c ≠ 34 ∧ c ≠ 44 := by
    intro c hc
    rcases List.mem_cons.mp hc with rfl | hc
    · decide
    · rcases List.mem_append.mp hc with hc | hc
      · exact ⟨(haddr.plain c hc).1, (haddr.plain c hc).2.1⟩
      · rw [List.mem_singleton.mp hc]
        decide
  have hplain : ∀ c ∈ p.1, c ≠ 34 ∧ c ≠ 92 ∧ c ≠ NUL := by
    intro c hc
    exact ⟨fun heq => hclean.1 (heq ▸ hc), fun heq => hclean.2 (heq ▸ hc), (hname.plain c hc).1⟩
  rw [mailbox]
  by_cases hne : p.1 ≠ []
  · have htext : 34 :: (p.1 ++ [34, SP]) ++ 60 :: (p.2 ++ [62]) ++ m
        = 34 :: (p.1 ++ 34 :: SP :: (60 :: (p.2 ++ [62]) ++ m)) := by
      simp only [List.append_assoc, List.cons_append, List.nil_append]
    rw [if_pos hne, if_pos hne, htext, parse_name hplain, parse_space, parse_plain hangle, List.append_assoc item]
  · rw [if_neg hne, if_neg hne, List.nil_append, List.append_nil, parse_plain hangle]

/-- What has been read of it is the pair. -/
theorem address_pair_mailbox (hname : Person p.1) (haddr : Address p.2)
    (hitem : ∀ c ∈ item, c = SP) :
    address_pair (item ++ (if p.1 ≠ [] then p.1 ++ [SP] else []) ++ 60 :: (p.2 ++ [62])) = p := by
  rw [address_pair_text _ fun hmem => (haddr.plain 60 hmem).2.2.1 rfl, trim_name hname hitem]

/-- **A clean pair in front of others is read**, and the parser goes on behind the comma. -/
theorem parse_first (hname : Person p.1) (haddr : Address p.2) (hclean : Clean p)
    (hitem : ∀ c ∈ item, c = SP) (m : Bytes) :
    parse_addresses item (mailbox p ++ 44 :: SP :: m)
      = (parse_addresses [SP] m).map (p :: ·) := by
  rw [parse_mailbox hname haddr hclean, parse_comma, address_pair_mailbox hname haddr hitem,
    parse_space, List.nil_append]

/-- **Pairs with clean names are read back.** -/
theorem parse_mailboxes {ps : Pairs} (hnames : ∀ p ∈ ps, Person p.1)
    (haddrs : ∀ p ∈ ps, Address p.2) (hclean : ∀ p ∈ ps, Clean p) (hne : ps ≠ []) :
    ∀ item, (∀ c ∈ item, c = SP) → parse_addresses item (mailboxes ps) = some ps := by
  induction ps with
  | nil => exact absurd rfl hne
  | cons p ps ih =>
      intro item hitem
      have hname := hnames p List.mem_cons_self
      have haddr := haddrs p List.mem_cons_self
      have hp := hclean p List.mem_cons_self
      cases ps with
      | nil =>
          have hread := parse_mailbox hname haddr hp item []
          rw [List.append_nil, parse_end, address_pair_mailbox hname haddr hitem] at hread
          exact hread
      | cons q ps =>
          have hrest := ih (fun r hr => hnames r (List.mem_cons_of_mem p hr))
            (fun r hr => haddrs r (List.mem_cons_of_mem p hr))
            (fun r hr => hclean r (List.mem_cons_of_mem p hr)) (by simp) [SP] (by simp)
          rw [mailboxes, parse_first hname haddr hp hitem, hrest]
          rfl

end RoundTrip

/-! ## §5. What an escape pays for. -/

/-- What the names and the addresses weigh. -/
def weigh_pairs (w : Byte → Nat) (ps : Pairs) : Nat :=
  (ps.map fun p => weigh w p.1 + weigh w p.2).sum

theorem weigh_pairs_cons (w : Byte → Nat) (p : Bytes × Bytes) (ps : Pairs) :
    weigh_pairs w (p :: ps) = weigh w p.1 + weigh w p.2 + weigh_pairs w ps := by
  unfold weigh_pairs
  rw [List.map_cons, List.sum_cons]

/-- An item weighs no less than the pair that is taken from it. -/
theorem weigh_address_pair (w : Byte → Nat) (item : Bytes) :
    weigh w (address_pair item).1 + weigh w (address_pair item).2 ≤ weigh w item := by
  have htrim : ∀ s, weigh w (trim s) ≤ weigh w s := fun s => QS.weigh_sublist w (trim_sublist s)
  have hall : weigh w ([] : Bytes) + weigh w (trim item) ≤ weigh w item := by
    rw [QS.weigh_nil, Nat.zero_add]
    exact htrim item
  unfold address_pair
  split
  · rename_i l r _ _
    split_ifs
    · have hsplit := QS.weigh_append w (item.take l) (item.drop l)
      rw [List.take_append_drop] at hsplit
      have hsub : ((item.drop (l + 1)).take (r - l - 1)).Sublist (item.drop l) := by
        rw [← List.drop_drop]
        exact (List.take_sublist _ _).trans (List.drop_sublist 1 _)
      have haddr := QS.weigh_sublist w hsub
      have hname := htrim (item.take l)
      show weigh w (trim (item.take l)) + weigh w ((item.drop (l + 1)).take (r - l - 1)) ≤ _
      omega
    · exact hall
  · exact hall

/-- The decoder is run on the text and the NUL behind it, which is no escape. -/
theorem decode_region {m out : Bytes} {n : Nat}
    (h : QS.default.decode_cstr (34 :: (m ++ [NUL])) = some (out, n)) :
    ∃ d, QS.decode_in_place 34 92 .DECODE_CHAR none (m ++ [NUL]) = some d ∧
      out = d.out ∧ n = d.n_read + 1 ∧
      weigh (one_of 92) ((m ++ [NUL]).take d.n_read) = weigh (one_of 92) (m.take d.n_read) := by
  obtain ⟨d, hd, hout⟩ := Option.map_eq_some_iff.mp h
  obtain ⟨rfl, rfl⟩ := Prod.mk.inj hout
  refine ⟨d, hd, rfl, rfl, ?_⟩
  have hnul : weigh (one_of 92) ([NUL].take (d.n_read - m.length)) ≤ 0 :=
    QS.weigh_sublist (one_of 92) (List.take_sublist _ [NUL])
  rw [List.take_append, QS.weigh_append]
  omega

/-- **A step of the parser**: it ends, or decodes, or takes a pair, or takes a byte. -/
theorem parse_step {item m : Bytes} {res : Pairs} (h : parse_addresses item m = some res) :
    (m = [] ∧ res = [address_pair item]) ∨ ∃ c rest, m = c :: rest ∧
      ((c = 34 ∧ ∃ out n_read, QS.default.decode_cstr (34 :: (rest ++ [NUL])) = some (out, n_read + 1)
          ∧ parse_addresses (item ++ out) (rest.drop n_read) = some res) ∨
        (c = 44 ∧ ∃ ps, parse_addresses [] rest = some ps ∧ res = address_pair item :: ps) ∨
        (c ≠ 34 ∧ parse_addresses (item ++ [c]) rest = some res)) := by
  cases m with
  | nil =>
      rw [parse_end] at h
      exact Or.inl ⟨rfl, (Option.some.inj h).symm⟩
  | cons c rest =>
      refine Or.inr ⟨c, rest, rfl, ?_⟩
      by_cases hquote : c = 34
      · refine Or.inl ⟨hquote, ?_⟩
        rw [hquote, parse_addresses, if_pos rfl] at h
        simp only [List.cons_append] at h
        cases hdecode : QS.default.decode_cstr (34 :: (rest ++ [NUL])) with
        | none =>
            rw [hdecode] at h
            cases h
        | some r =>
            rw [hdecode] at h
            simp only at h
            split_ifs at h with hread
            obtain ⟨n, hn⟩ := Nat.exists_eq_succ_of_ne_zero hread
            rw [hn, List.drop_succ_cons] at h
            exact ⟨r.1, n, congrArg some (Prod.ext rfl hn), h⟩
      · refine Or.inr ?_
        by_cases hcomma : c = 44
        · rw [hcomma, parse_comma] at h
          obtain ⟨ps, hps, hres⟩ := Option.map_eq_some_iff.mp h
          exact Or.inl ⟨hcomma, ps, hps, hres.symm⟩
        · rw [parse_addresses, if_neg hquote, if_neg hcomma] at h
          exact Or.inr ⟨hquote, h⟩

/-- **Quotes and escapes that are read** have cost as many escapes of the text. -/
theorem weigh_parse {w : Byte → Nat} (hw : ∀ c, w c ≤ if c = 34 ∨ c = 92 then 1 else 0) :
    ∀ (m item : Bytes) (res : Pairs), parse_addresses item m = some res →
      weigh_pairs w res ≤ weigh w item + weigh (one_of 92) m := by
  have hpay : Payable 34 92 w := fun c => Nat.le_add_right_of_le (hw c)
  have hone : ∀ c, c ≠ 34 → w c ≤ one_of 92 c := by
    intro c hquote
    have hc := hw c
    simp only [hquote, false_or] at hc
    exact hc
  have hnil : weigh w [] = 0 := QS.weigh_nil w
  intro m
  induction hk : m.length using Nat.strong_induction_on generalizing m with
  | _ k ih =>
      intro item res h
      rcases parse_step h with ⟨rfl, rfl⟩ | ⟨c, rest, rfl, hstep⟩
      · have hpair := weigh_address_pair w item
        rw [weigh_pairs_cons, weigh_pairs, List.map_nil, List.sum_nil, QS.weigh_nil]
        omega
      · rw [List.length_cons] at hk
        rw [QS.weigh_cons]
        rcases hstep with ⟨_, out, n_read, hdecode, hrest⟩ | ⟨_, ps, hrest, rfl⟩ | ⟨hquote, hrest⟩
        · -- what is decoded is paid for by the region, what follows by the rest
          obtain ⟨d, hd, rfl, hn, hregion⟩ := decode_region hdecode
          obtain rfl := Nat.succ.inj hn
          have hout := QS.in_place_weigh hpay _ _ _ _ hd
          rw [hregion, if_neg (by decide)] at hout
          have hih := ih (rest.drop d.n_read).length
            (by rw [List.length_drop]; omega) (rest.drop d.n_read) rfl _ _ hrest
          have hsplit := QS.weigh_append (one_of 92) (rest.take d.n_read) (rest.drop d.n_read)
          rw [List.take_append_drop] at hsplit
          rw [QS.weigh_append] at hih
          omega
        · have hih := ih rest.length (by omega) rest rfl _ _ hrest
          have hpair := weigh_address_pair w item
          rw [weigh_pairs_cons]
          omega
        · have hih := ih rest.length (by omega) rest rfl _ _ hrest
          have hc := hone c hquote
          rw [QS.weigh_append, QS.weigh_cons, hnil] at hih
          omega

/-! ## §6. There and back. -/

section Back

variable {p : Bytes × Bytes} {pairs : Pairs}

theorem weigh_mailboxes (ps : Pairs) :
    weigh (one_of 92) (mailboxes ps) = weigh_pairs (one_of 92) ps := by
  have hitem : ∀ p : Bytes × Bytes,
      weigh (one_of 92) (mailbox p) = weigh (one_of 92) p.1 + weigh (one_of 92) p.2 := by
    intro p
    have haddr : weigh (one_of 92) (60 :: (p.2 ++ [62])) = weigh (one_of 92) p.2 := by
      rw [QS.weigh_cons, QS.weigh_append]
      exact Nat.zero_add _
    rw [mailbox, QS.weigh_append, haddr]
    by_cases hne : p.1 ≠ []
    · rw [if_pos hne, QS.weigh_cons, QS.weigh_append]
      exact congrArg (· + weigh (one_of 92) p.2) (Nat.zero_add _)
    · rw [if_neg hne, not_not.mp hne]
  induction ps with
  | nil => rfl
  | cons p ps ih =>
      cases ps with
      | nil =>
          rw [mailboxes, hitem, weigh_pairs_cons]
          rfl
      | cons q ps =>
          have hsep : weigh (one_of 92) (44 :: SP :: mailboxes (q :: ps))
              = weigh_pairs (one_of 92) (q :: ps) := by
            rw [QS.weigh_cons, QS.weigh_cons, ih]
            exact (Nat.zero_add _).trans (Nat.zero_add _)
          rw [mailboxes, QS.weigh_append, hsep, hitem, weigh_pairs_cons _ p]

theorem escape_le (c : Byte) : one_of 92 c ≤ if c = 34 ∨ c = 92 then 1 else 0 := by
  unfold one_of
  by_cases hescape : c = 92
  · rw [if_pos hescape, if_pos (Or.inr hescape)]
  · rw [if_neg hescape]
    exact Nat.zero_le _

/-- **An escape in a name is lost**: once the name is decoded, fewer escapes are left
    than have been written. -/
theorem parse_escape {rest : Bytes} {item : Bytes} (hquote : (34 : Byte) ∉ p.1)
    (hnul : NUL ∉ p.1) (hescape : (92 : Byte) ∈ p.1) {res : Pairs}
    (h : parse_addresses item (mailbox p ++ rest) = some res) :
    weigh_pairs (one_of 92) res
      < weigh (one_of 92) item + weigh (one_of 92) (mailbox p ++ rest) := by
  obtain ⟨s, t, hname, hfirst⟩ := List.eq_append_cons_of_mem hescape
  have hclean : ∀ c ∈ s, c ≠ 34 ∧ c ≠ 92 ∧ c ≠ NUL := by
    intro c hc
    have hmem : c ∈ p.1 := by
      rw [hname]
      exact List.mem_append_left _ hc
    exact ⟨fun heq => hquote (heq ▸ hmem), fun heq => hfirst (heq ▸ hc),
      fun heq => hnul (heq ▸ hmem)⟩
  obtain ⟨tail, htext⟩ : ∃ tail, mailbox p ++ rest = 34 :: (s ++ 92 :: tail) := by
    refine ⟨t ++ [34, SP] ++ 60 :: (p.2 ++ [62]) ++ rest, ?_⟩
    rw [mailbox, if_pos (List.ne_nil_of_mem hescape), hname]
    simp only [List.append_assoc, List.cons_append, List.nil_append]
  rw [htext] at h ⊢
  rcases parse_step h with ⟨hnil, _⟩ | ⟨c, m, hm, hstep⟩
  · cases hnil
  · obtain ⟨rfl, rfl⟩ := List.cons.inj hm
    rcases hstep with ⟨_, out, n_read, hdecode, hrest⟩ | ⟨hcomma, _⟩ | ⟨hno, _⟩
    · obtain ⟨d, hd, rfl, hn, hregion⟩ := decode_region hdecode
      obtain rfl := Nat.succ.inj hn
      have hlost : weigh (one_of 92) d.out < weigh (one_of 92) ((s ++ 92 :: tail).take d.n_read) := by
        rw [← hregion]
        rw [List.append_assoc, List.cons_append] at hd ⊢
        exact QS.in_place_loses hclean (by decide) hd
      have hparse := weigh_parse escape_le _ _ _ hrest
      have hsplit := QS.weigh_append (one_of 92) ((s ++ 92 :: tail).take d.n_read)
        ((s ++ 92 :: tail).drop d.n_read)
      rw [List.take_append_drop] at hsplit
      rw [QS.weigh_append] at hparse
      rw [QS.weigh_cons]
      omega
    · exact absurd hcomma (by decide)
    · exact absurd rfl hno

/-- A list that comes back has no quote in a name: every quote has cost an escape, and the
    escapes have come back too. -/
theorem no_quote (h : parse_addresses [] (mailboxes pairs) = some pairs) :
    ∀ p ∈ pairs, (34 : Byte) ∉ p.1 := by
  have hboth : ∀ c, one_of 34 c + one_of 92 c ≤ if c = 34 ∨ c = 92 then 1 else 0 := by
    intro c
    unfold one_of
    by_cases hquote : c = 34
    · rw [if_pos hquote, if_neg (by rw [hquote]; decide), if_pos (Or.inl hquote)]
    · by_cases hescape : c = 92
      · rw [if_neg hquote, if_pos hescape, if_pos (Or.inr hescape)]
      · rw [if_neg hquote, if_neg hescape]
        exact Nat.zero_le _
  have hadd : ∀ s, weigh (fun c => one_of 34 c + one_of 92 c) s
      = weigh (one_of 34) s + weigh (one_of 92) s := fun s => List.sum_map_add
  have hsum : ∀ ps, weigh_pairs (fun c => one_of 34 c + one_of 92 c) ps
      = weigh_pairs (one_of 34) ps + weigh_pairs (one_of 92) ps := by
    intro ps
    induction ps with
    | nil => rfl
    | cons p ps ih =>
        rw [weigh_pairs_cons, weigh_pairs_cons, weigh_pairs_cons, hadd, hadd, ih]
        omega
  have hle := weigh_parse hboth _ _ _ h
  rw [hsum, weigh_mailboxes, QS.weigh_nil] at hle
  have hzero : weigh_pairs (one_of 34) pairs = 0 := by omega
  intro p hp hmem
  have hpair := List.sum_eq_zero_iff.mp hzero _ (List.mem_map_of_mem hp)
  have hname : weigh (one_of 34) p.1 = 0 := Nat.eq_zero_of_add_eq_zero_right hpair
  exact absurd (List.sum_eq_zero_iff.mp hname _ (List.mem_map_of_mem hmem)) (by decide)

/-- Nor has it an escape in a name. -/
theorem no_escape {ps : Pairs} (hnames : ∀ p ∈ ps, Person p.1) (haddrs : ∀ p ∈ ps, Address p.2)
    (hquotes : ∀ p ∈ ps, (34 : Byte) ∉ p.1) :
    ∀ item, (∀ c ∈ item, c = SP) → parse_addresses item (mailboxes ps) = some ps →
      ∀ p ∈ ps, Clean p := by
  induction ps with
  | nil => intro item _ _ p hp; exact absurd hp List.not_mem_nil
  | cons p ps ih =>
      intro item hitem h
      have hname := hnames p List.mem_cons_self
      have hquote := hquotes p List.mem_cons_self
      obtain ⟨rest, hrest⟩ : ∃ rest, mailboxes (p :: ps) = mailbox p ++ rest := by
        cases ps with
        | nil => exact ⟨[], (List.append_nil _).symm⟩
        | cons q ps => exact ⟨_, rfl⟩
      have hspaces : weigh (one_of 92) item = 0 := by
        refine List.sum_eq_zero_iff.mpr fun n hn => ?_
        obtain ⟨c, hc, rfl⟩ := List.mem_map.mp hn
        rw [hitem c hc]
        rfl
      have hclean : Clean p := by
        refine ⟨hquote, fun hescape => ?_⟩
        have hnul : NUL ∉ p.1 := fun hmem => (hname.plain NUL hmem).1 rfl
        have hlost := parse_escape hquote hnul hescape (hrest ▸ h)
        rw [← hrest, weigh_mailboxes, hspaces] at hlost
        omega
      intro q hq
      rcases List.mem_cons.mp hq with rfl | hq
      · exact hclean
      · cases ps with
        | nil => exact absurd hq List.not_mem_nil
        | cons r ps =>
            rw [mailboxes, parse_first hname (haddrs p List.mem_cons_self) hclean hitem] at h
            obtain ⟨res, hres, hcons⟩ := Option.map_eq_some_iff.mp h
            obtain rfl := (List.cons.inj hcons).2
            exact ih (fun r hr => hnames r (List.mem_cons_of_mem p hr))
              (fun r hr => haddrs r (List.mem_cons_of_mem p hr))
              (fun r hr => hquotes r (List.mem_cons_of_mem p hr)) [SP] (by simp) hres q hq

/-- The lists that come back. -/
theorem parse_build_address_iff (u : MIME_Header_Util) (h : Addresses pairs) :
    u.parse_address (build_address ⟨.Address_Parser, pairs⟩) = some ⟨.Address_Parser, pairs⟩
      ↔ ∀ p ∈ pairs, Clean p := by
  have hnil : ∀ c ∈ ([] : Bytes), c = SP := fun c hc => absurd hc List.not_mem_nil
  rw [build_address_text h.ne fun p hp => (h.addresses p hp).ne, parse_address]
  constructor
  · intro hback
    obtain ⟨ps, hps, hu⟩ := Option.map_eq_some_iff.mp hback
    obtain rfl : ps = pairs := congrArg pairs_ hu
    exact no_escape h.names h.addresses (no_quote hps) [] hnil hps
  · intro hclean
    rw [parse_mailboxes h.names h.addresses hclean h.ne [] hnil]
    rfl

/-- **Address lists there and back**: what is built is read back exactly for the lists in
    whose names there is neither a quote nor an escape. -/
theorem address_round_trip_iff (u : MIME_Header_Util) (h : Addresses pairs) :
    u.parse_address (build_address ⟨.Address_Parser, pairs⟩) = some ⟨.Address_Parser, pairs⟩
      ↔ ∀ p ∈ pairs, (34 : Byte) ∉ p.1 ∧ (92 : Byte) ∉ p.1 :=
  parse_build_address_iff u h

/-- Two receivers, one of them without a name. -/
def receivers : Pairs := [(lit "Ann, <B>", lit "a@b"), ([], lit "c@d")]

theorem address_round_trip_receivers :
    parse_address ⟨.No_Parser, []⟩ (build_address ⟨.Address_Parser, receivers⟩)
        = some ⟨.Address_Parser, receivers⟩
      ↔ ∀ p ∈ receivers, (34 : Byte) ∉ p.1 ∧ (92 : Byte) ∉ p.1 :=
  address_round_trip_iff ⟨.No_Parser, []⟩
    ⟨by decide,
      fun p hp => by
        rcases List.mem_cons.mp hp with rfl | hp
        · exact ⟨by decide +kernel, by decide +kernel⟩
        · obtain rfl := List.mem_singleton.mp hp
          exact ⟨by decide +kernel, by decide +kernel⟩,
      fun p hp => by
        rcases List.mem_cons.mp hp with rfl | hp
        · exact ⟨by decide +kernel, by decide +kernel⟩
        · obtain rfl := List.mem_singleton.mp hp
          exact ⟨by decide +kernel, by decide +kernel⟩⟩

/-- The builder has not escaped the name `a\b`, and the parser drops its backslash. -/
theorem address_escape_lost :
    Addresses [(lit "a\\b", lit "x@y")] ∧
    parse_address ⟨.No_Parser, []⟩ (build_address ⟨.Address_Parser, [(lit "a\\b", lit "x@y")]⟩)
      = some ⟨.Address_Parser, [(lit "ab", lit "x@y")]⟩ ∧
    [(lit "ab", lit "x@y")] ≠ [(lit "a\\b", lit "x@y")] := by
  refine ⟨⟨by decide, fun p hp => ?_, fun p hp => ?_⟩, ?_, by decide⟩
  · obtain rfl := List.mem_singleton.mp hp
    exact ⟨by decide +kernel, by decide +kernel⟩
  · obtain rfl := List.mem_singleton.mp hp
    exact ⟨by decide +kernel, by decide +kernel⟩
  · have htext : build_address ⟨.Address_Parser, [(lit "a\\b", lit "x@y")]⟩
        = 34 :: lit "a\\b\" <x@y>" := by decide
    have hdecode : QS.default.decode_cstr (34 :: (lit "a\\b\" <x@y>" ++ [NUL]))
        = some (lit "ab", 4 + 1) := by decide
    have hdrop : (lit "a\\b\" <x@y>").drop 4 = lit " <x@y>" ++ [] := by decide
    have hplain : ∀ c ∈ lit " <x@y>", c ≠ 34 ∧ c ≠ 44 := by decide +kernel
    have hpair : address_pair ([] ++ lit "ab" ++ lit " <x@y>") = (lit "ab", lit "x@y") := by
      decide
    rw [parse_address, htext, parse_quote hdecode, hdrop, parse_plain hplain, parse_end, hpair]
    rfl

end Back

end Aos.MIME_Header_Util
