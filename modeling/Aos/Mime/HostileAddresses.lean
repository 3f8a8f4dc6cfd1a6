/-
  Aos.Mime.HostileAddresses — `parse_address` on any header.

  The parser hands every quote to the decoder of C strings, which decodes in the
  string itself.  The decoder looks for the end of the text at the opening quote:
  that byte is a NUL only when the first character it puts out is one.  So an open
  quote sends it past the end, unless nothing is put out before the end; and what
  it has put over the quote is closed by a NUL of its own.

  Main results:
    • `in_place_region` — what the decoder does with a text behind a quote;
    • `address_safe_iff` — for which headers the parser stays in the string;
    • `parse_in_place_fst`, `address_left_iff` — which headers it leaves as they were.
-/
import Aos.Mime.Addresses
import Aos.Str.QuotedGrammar

namespace Aos

/-! ## §1. The decoder in place. -/

namespace QS

section InPlace

variable {quote escape : Byte}

theorem in_place_char {front : Option Byte} (hfront : front ≠ some NUL) (c : Byte) (m : Bytes) :
    decode_in_place quote escape .DECODE_CHAR front (c :: m)
      = if c = quote then some ⟨[], 1, .DECODE_QUOTE⟩
        else if c = escape then (decode_in_place quote escape .DECODE_ESCAPE front m).map Decoded.skip
        else (decode_in_place quote escape .DECODE_CHAR (some (front.getD c)) m).map
          (Decoded.put c) := by
  rw [decode_in_place, if_neg hfront, if_neg (fun h => h.1 rfl)]
  by_cases hquote : c = quote
  · rw [if_pos ⟨rfl, hquote⟩, if_pos hquote, in_place_quote]
    rfl
  · rw [if_neg (fun h => hquote h.2), if_neg hquote]
    by_cases hescape : c = escape
    · rw [if_pos ⟨rfl, hescape⟩, if_pos hescape]
    · rw [if_neg (fun h => hescape h.2), if_neg hescape]

theorem in_place_escaped {front : Option Byte} (hfront : front ≠ some NUL) (c : Byte) (m : Bytes) :
    decode_in_place quote escape .DECODE_ESCAPE front (c :: m)
      = (decode_in_place quote escape .DECODE_CHAR (some (front.getD c)) m).map
          (Decoded.put c) := by
  rw [decode_in_place, if_neg hfront, if_neg (fun h => h.2 rfl), if_neg (by simp), if_neg (by simp)]

/-- A read behind the memory. -/
theorem in_place_nil {front : Option Byte} (hfront : front ≠ some NUL) {state : State}
    (h : state = .DECODE_CHAR ∨ state = .DECODE_ESCAPE) :
    decode_in_place quote escape state front [] = none := by
  rw [decode_in_place, if_neg hfront, if_neg (fun hne => h.elim hne.1 hne.2)]

/-- The loop ends when a NUL has been put over the quote. -/
theorem in_place_stop (state : State) (m : Bytes) :
    decode_in_place quote escape state (some NUL) m = some ⟨[], 0, state⟩ := by
  cases m with
  | nil => rw [decode_in_place, if_pos rfl]
  | cons c m => rw [decode_in_place, if_pos rfl]

theorem front_ne_nul {front : Option Byte} (hfront : front ≠ some NUL) {c : Byte} (hc : c ≠ NUL) :
    some (front.getD c) ≠ some NUL := by
  cases front with
  | none => exact fun h => hc (Option.some.inj h)
  | some b => exact hfront

/-- **A closed text**: the decoder stops behind the closing quote. -/
theorem Quoted.in_place {text body rest : Bytes} (h : Quoted quote escape text body rest)
    (hnul : NUL ∉ text) (t : Bytes) :
    ∀ front, front ≠ some NUL → decode_in_place quote escape .DECODE_CHAR front (text ++ t)
      = some (decode_loop quote escape .DECODE_CHAR text) := by
  induction h with
  | close rest =>
      intro front hfront
      rw [List.cons_append, in_place_char hfront, if_pos rfl, decode_loop, if_pos rfl,
        decode_loop_quote]
      rfl
  | @char c text body rest hquote hescape _ ih =>
      intro front hfront
      rw [List.mem_cons, not_or] at hnul
      rw [List.cons_append, in_place_char hfront, if_neg hquote, if_neg hescape,
        ih hnul.2 _ (front_ne_nul hfront (Ne.symm hnul.1)), decode_loop, if_neg hquote,
        if_neg hescape]
      rfl
  | @escape c text body rest hne _ ih =>
      intro front hfront
      rw [List.mem_cons, List.mem_cons, not_or, not_or] at hnul
      rw [List.cons_append, List.cons_append, in_place_char hfront, if_neg hne, if_pos rfl,
        in_place_escaped hfront, ih hnul.2.2 _ (front_ne_nul hfront (Ne.symm hnul.2.1)),
        decode_loop, if_neg hne, if_pos rfl, decode_loop]
      rfl

/-- **A text that is not closed**, once a character is put over the quote: the decoder
    goes on behind the NUL. -/
theorem in_place_open (hquote : quote ≠ NUL) (s : Bytes) :
    ∀ (state : State) (b : Byte), state = .DECODE_CHAR ∨ state = .DECODE_ESCAPE → b ≠ NUL →
      (decode_loop quote escape state s).state ≠ .DECODE_QUOTE →
      decode_in_place quote escape state (some b) (s ++ [NUL]) = none := by
  induction s with
  | nil =>
      intro state b hstate hb _
      have hfront : some b ≠ some NUL := fun h => hb (Option.some.inj h)
      rw [List.nil_append]
      rcases hstate with rfl | rfl
      · rw [in_place_char hfront, if_neg hquote.symm, Option.getD_some,
          in_place_nil hfront (Or.inr rfl), in_place_nil hfront (Or.inl rfl)]
        exact ite_self none
      · rw [in_place_escaped hfront, Option.getD_some, in_place_nil hfront (Or.inl rfl)]
        rfl
  | cons c s ih =>
      intro state b hstate hb h
      have hfront : some b ≠ some NUL := fun h => hb (Option.some.inj h)
      rw [List.cons_append]
      rcases hstate with rfl | rfl
      · rw [in_place_char hfront]
        rw [decode_loop] at h
        split_ifs at h ⊢
        · rw [decode_loop_quote] at h
          exact absurd rfl h
        · rw [ih .DECODE_ESCAPE b (Or.inr rfl) hb h]
          rfl
        · rw [Option.getD_some, ih .DECODE_CHAR b (Or.inl rfl) hb h]
          rfl
      · rw [decode_loop] at h
        rw [in_place_escaped hfront, Option.getD_some, ih .DECODE_CHAR b (Or.inl rfl) hb h]
        rfl

theorem Quoted.suffix {text body rest : Bytes} (h : Quoted quote escape text body rest) :
    rest <:+ text := by
  induction h with
  | close rest => exact List.suffix_cons _ _
  | char _ _ _ ih => exact ih.trans (List.suffix_cons _ _)
  | escape _ _ ih => exact (ih.trans (List.suffix_cons _ _)).trans (List.suffix_cons _ _)

theorem Quoted.drop {text body rest : Bytes} (h : Quoted quote escape text body rest) :
    text.drop (text.length - rest.length) = rest := (List.suffix_iff_eq_drop.mp h.suffix).symm

/-- **What the decoder does behind an opening quote**: the text there is closed, or it has
    nothing but an escape, or the decoder leaves the memory. -/
theorem in_place_region (hquote : quote ≠ NUL) (hescape : escape ≠ NUL) {s : Bytes}
    (hnul : NUL ∉ s) :
    (∃ body rest, Quoted quote escape s body rest ∧
        decode_in_place quote escape .DECODE_CHAR none (s ++ [NUL])
          = some ⟨body, s.length - rest.length, .DECODE_QUOTE⟩) ∨
      ((s = [] ∨ s = [escape]) ∧ decode_in_place quote escape .DECODE_CHAR none (s ++ [NUL])
          = some ⟨[NUL], s.length + 1, .DECODE_CHAR⟩) ∨
      (¬ Closed quote escape s ∧ s ≠ [] ∧ s ≠ [escape] ∧
        decode_in_place quote escape .DECODE_CHAR none (s ++ [NUL]) = none) := by
  have hnone : (none : Option Byte) ≠ some NUL := (Option.some_ne_none NUL).symm
  by_cases hclosed : Closed quote escape s
  · -- the front byte is never a NUL here, so both decoders go the same way
    obtain ⟨body, rest, h⟩ := hclosed
    refine Or.inl ⟨body, rest, h, ?_⟩
    rw [h.in_place hnul [NUL] none hnone, h.sized_loop]
  · have hopen := mt (closed_iff s).mpr hclosed
    refine Or.inr ?_
    cases s with
    | nil =>
        -- the terminator is what is put over the quote
        refine Or.inl ⟨Or.inl rfl, ?_⟩
        rw [List.nil_append, in_place_char hnone, if_neg hquote.symm, if_neg hescape.symm,
          Option.getD_none, in_place_stop]
        rfl
    | cons c s =>
        rw [List.mem_cons, not_or] at hnul
        rw [decode_loop] at hopen
        by_cases hc : c = quote
        · rw [if_pos hc, decode_loop_quote] at hopen
          exact absurd rfl hopen
        rw [if_neg hc] at hopen
        by_cases hesc : c = escape
        · rw [if_pos hesc] at hopen
          cases s with
          | nil =>
              refine Or.inl ⟨Or.inr (by rw [hesc]), ?_⟩
              rw [List.cons_append, in_place_char hnone, if_neg hc, if_pos hesc, List.nil_append,
                in_place_escaped hnone, Option.getD_none, in_place_stop]
              rfl
          | cons d s =>
              rw [List.mem_cons, not_or] at hnul
              refine Or.inr ⟨hclosed, List.cons_ne_nil _ _, fun h => ?_, ?_⟩
              · exact absurd (List.cons.inj h).2 (List.cons_ne_nil _ _)
              · rw [List.cons_append, in_place_char hnone, if_neg hc, if_pos hesc, List.cons_append,
                  in_place_escaped hnone, Option.getD_none,
                  in_place_open hquote s .DECODE_CHAR d (Or.inl rfl) (Ne.symm hnul.2.1) hopen]
                rfl
        · rw [if_neg hesc] at hopen
          refine Or.inr ⟨hclosed, List.cons_ne_nil _ _, fun h => hesc (List.cons.inj h).1, ?_⟩
          rw [List.cons_append, in_place_char hnone, if_neg hc, if_neg hesc, Option.getD_none,
            in_place_open hquote s .DECODE_CHAR c (Or.inl rfl) (Ne.symm hnul.1) hopen]
          rfl

end InPlace

end QS

/-! ## §2. Headers with their quotes. -/

namespace MIME_Header_Util

/-- Every quote that opens is closed. -/
inductive Balanced : Bytes → Prop
  | nil : Balanced []
  | char {c : Byte} {s : Bytes} : c ≠ 34 → Balanced s → Balanced (c :: s)
  | quoted {text body rest : Bytes} : QS.Quoted 34 92 text body rest → Balanced rest →
      Balanced (34 :: text)

/-- The header is balanced, or its last quote is open and there is nothing behind it, or an
    escape alone. -/
def Readable (s : Bytes) : Prop :=
  Balanced s ∨ ∃ p t, s = p ++ t ∧ Balanced p ∧ (t = [34] ∨ t = [34, 92])

theorem Readable.char {c : Byte} {s : Bytes} (hc : c ≠ 34) (h : Readable s) : Readable (c :: s) := by
  rcases h with h | ⟨p, t, rfl, hp, ht⟩
  · exact Or.inl (.char hc h)
  · exact Or.inr ⟨c :: p, t, rfl, .char hc hp, ht⟩

/-- A closed string, whatever stands behind it. -/
theorem quoted_before {text body rest : Bytes} (h : QS.Quoted 34 92 text body rest) :
    ∃ front, text = front ++ rest ∧ ∀ r, QS.Quoted 34 92 (front ++ r) body r := by
  induction h with
  | close rest => exact ⟨[34], rfl, fun r => .close r⟩
  | @char c _ _ _ hquote hescape _ ih =>
      obtain ⟨front, rfl, hall⟩ := ih
      exact ⟨c :: front, rfl, fun r => .char hquote hescape (hall r)⟩
  | @escape c _ _ _ hne _ ih =>
      obtain ⟨front, rfl, hall⟩ := ih
      exact ⟨92 :: c :: front, rfl, fun r => .escape hne (hall r)⟩

theorem Readable.quoted {text body rest : Bytes} (hq : QS.Quoted 34 92 text body rest)
    (h : Readable rest) : Readable (34 :: text) := by
  rcases h with h | ⟨p, t, rfl, hp, ht⟩
  · exact Or.inl (.quoted hq h)
  · obtain ⟨front, rfl, hall⟩ := quoted_before hq
    exact Or.inr ⟨34 :: (front ++ p), t, by simp, .quoted (hall p) hp, ht⟩

/-- Nothing, or an escape alone, is not closed. -/
theorem not_quoted_short {text body rest : Bytes} (h : text = [] ∨ text = [92]) :
    ¬ QS.Quoted 34 92 text body rest := by
  intro hq
  rcases h with rfl | rfl
  · cases hq
  · cases hq with
    | char _ hescape _ => exact absurd rfl hescape

/-! ## §3. The parser stays in the string. -/

section Safe

variable {s : Bytes}

/-- What the parser does at a quote. -/
theorem parse_at_quote {text : Bytes} (hnul : NUL ∉ text) (item : Bytes) :
    (∃ body rest, QS.Quoted 34 92 text body rest ∧
        QS.default.decode_cstr (34 :: (text ++ [NUL]))
          = some (body, text.length - rest.length + 1) ∧
        parse_addresses item (34 :: text) = parse_addresses (item ++ body) rest) ∨
      ((text = [] ∨ text = [92]) ∧ parse_addresses item (34 :: text) ≠ none) ∨
      (¬ QS.Closed 34 92 text ∧ text ≠ [] ∧ text ≠ [92] ∧
        parse_addresses item (34 :: text) = none) := by
  have hregion := @QS.in_place_region 34 92 (by decide) (by decide) text hnul
  have hcstr : QS.default.decode_cstr (34 :: (text ++ [NUL]))
      = (QS.decode_in_place 34 92 .DECODE_CHAR none (text ++ [NUL])).map
          fun d => (d.out, d.n_read + 1) := rfl
  rcases hregion with ⟨body, rest, hq, hloop⟩ | ⟨htext, hloop⟩ | ⟨hclosed, hne, hescape, hloop⟩
  · rw [hloop] at hcstr
    refine Or.inl ⟨body, rest, hq, hcstr, ?_⟩
    rw [parse_quote hcstr, hq.drop]
  · rw [hloop] at hcstr
    refine Or.inr (Or.inl ⟨htext, ?_⟩)
    rw [parse_quote hcstr, List.drop_eq_nil_of_le (Nat.le_succ _), parse_end]
    exact Option.some_ne_none _
  · rw [hloop] at hcstr
    refine Or.inr (Or.inr ⟨hclosed, hne, hescape, ?_⟩)
    rw [parse_addresses, if_pos rfl]
    simp only [List.cons_append]
    rw [hcstr]
    rfl

theorem parse_char {c : Byte} (hc : c ≠ 34) (item s : Bytes) :
    ∃ item', (parse_addresses item (c :: s) = none ↔ parse_addresses item' s = none) := by
  by_cases hcomma : c = 44
  · refine ⟨[], ?_⟩
    rw [hcomma, parse_comma, Option.map_eq_none_iff]
  · refine ⟨item ++ [c], ?_⟩
    rw [parse_addresses, if_neg hc, if_neg hcomma]

/-- **Balanced quotes are passed**: what stands behind them decides. -/
theorem parse_balanced {p : Bytes} (hp : Balanced p) {t : Bytes} (hnul : NUL ∉ p ++ t)
    (ht : ∀ item, parse_addresses item t ≠ none) :
    ∀ item, parse_addresses item (p ++ t) ≠ none := by
  induction hp with
  | nil => exact ht
  | @char c p hc _ ih =>
      intro item
      obtain ⟨item', hstep⟩ := parse_char hc item (p ++ t)
      rw [List.cons_append, Ne, hstep]
      exact ih (fun h => hnul (List.mem_cons_of_mem c h)) item'
  | @quoted text body rest hq _ ih =>
      intro item
      obtain ⟨front, rfl, hall⟩ := quoted_before hq
      have hsplit : 34 :: (front ++ rest) ++ t = 34 :: (front ++ (rest ++ t)) := by simp
      rw [hsplit] at hnul ⊢
      rw [List.mem_cons, not_or] at hnul
      have hrest : NUL ∉ rest ++ t := fun h => hnul.2 (List.mem_append_right _ h)
      rcases parse_at_quote hnul.2 item with ⟨body', rest', hq', _, hparse⟩ | ⟨_, hsome⟩ | ⟨hopen, _⟩
      · -- the grammar has one way to read the text
        have hone := hq'.sized_loop.symm.trans (hall (rest ++ t)).sized_loop
        have hlen : rest'.length = (rest ++ t).length := by
          have h' := hq'.suffix.length_le
          have hall' := (hall (rest ++ t)).suffix.length_le
          have hread := congrArg QS.Decoded.n_read hone
          dsimp only at hread
          omega
        have heq : rest' = rest ++ t :=
          List.IsSuffix.eq_of_length ((List.suffix_of_suffix_length_le hq'.suffix
            (hall (rest ++ t)).suffix hlen.le)) hlen
        rw [hparse, heq]
        exact ih hrest _
      · exact hsome
      · exact absurd ⟨body, rest ++ t, hall (rest ++ t)⟩ hopen

/-- A header on which the parser stays in the string can be read. -/
theorem readable_of_parse : ∀ (s item : Bytes), NUL ∉ s → parse_addresses item s ≠ none →
    Readable s := by
  intro s
  -- on the length, since the decoder takes a whole quoted string at once
  induction hk : s.length using Nat.strong_induction_on generalizing s with
  | _ k ih =>
      intro item hnul h
      subst hk
      cases s with
      | nil => exact Or.inl .nil
      | cons c s =>
          rw [List.mem_cons, not_or] at hnul
          by_cases hc : c = 34
          · subst hc
            rcases parse_at_quote hnul.2 item with
              ⟨body, rest, hq, _, hparse⟩ | ⟨htext, _⟩ | ⟨_, _, _, hnone⟩
            · have hlen := hq.suffix.length_le
              rw [hparse] at h
              refine Readable.quoted hq (ih rest.length ?_ rest rfl (item ++ body) ?_ h)
              · rw [List.length_cons]
                omega
              · exact fun hmem => hnul.2 (hq.suffix.subset hmem)
            · exact Or.inr ⟨[], 34 :: s, rfl, .nil,
                htext.imp (congrArg (34 :: ·)) (congrArg (34 :: ·))⟩
            · exact absurd hnone h
          · obtain ⟨item', hstep⟩ := parse_char hc item s
            exact Readable.char hc (ih s.length (Nat.lt_succ_self _) s rfl item' hnul.2
              (mt hstep.mpr h))

/-- The headers on which the parser stays in the string. -/
theorem readable_iff (hnul : NUL ∉ s) (item : Bytes) :
    parse_addresses item s ≠ none ↔ Readable s := by
  constructor
  · exact readable_of_parse s item hnul
  · intro h
    rcases h with h | ⟨p, t, rfl, hp, ht⟩
    · have hend : ∀ item, parse_addresses item [] ≠ none := by
        intro item
        rw [parse_end]
        exact Option.some_ne_none _
      have hparse := parse_balanced h (by rwa [List.append_nil]) hend item
      rwa [List.append_nil] at hparse
    · refine parse_balanced hp hnul (fun item => ?_) item
      have hno : ∀ text : Bytes, NUL ∉ text → (text = [] ∨ text = [92]) →
          parse_addresses item (34 :: text) ≠ none := by
        intro text htext hends
        rcases parse_at_quote htext item with ⟨_, _, hq, _, _⟩ | ⟨_, hsome⟩ | ⟨_, hne, hescape, _⟩
        · exact absurd hq (not_quoted_short hends)
        · exact hsome
        · exact absurd hends (not_or.mpr ⟨hne, hescape⟩)
      rcases ht with rfl | rfl
      · exact hno [] (by decide) (Or.inl rfl)
      · exact hno [92] (by decide) (Or.inr rfl)

end Safe

/-- **Where the parser stays in the string**: every quote is closed, or nothing but an
    escape stands behind the last one. -/
theorem address_safe_iff (u : MIME_Header_Util) {str : Bytes} (hnul : NUL ∉ str) :
    (∃ v, u.parse_address str = some v) ↔ Readable str := by
  rw [← readable_iff hnul [], ← Option.isSome_iff_exists, Option.isSome_iff_ne_none, parse_address,
    Ne, Option.map_eq_none_iff]

/-- A quote on its own and a closed string are read. -/
theorem address_safe_iff_closed :
    (∃ v, parse_address ⟨.No_Parser, []⟩ [34, 44, 34, 34] = some v) ↔ Readable [34, 44, 34, 34] :=
  address_safe_iff ⟨.No_Parser, []⟩ (by decide)

/-- **An open quote**: the decoder goes on behind the NUL. -/
theorem address_open_quote :
    NUL ∉ ([34, 97] : Bytes) ∧ parse_address ⟨.No_Parser, []⟩ [34, 97] = none := by
  refine ⟨by decide, ?_⟩
  rw [parse_address, parse_addresses]
  rfl

/-! ## §4. What the parser leaves in the string. -/

/-- The bytes the decoder leaves where it has read `n_read` of them: what it has put out, its
    NUL, and the rest of what it has read. -/
def left_by_decode (m out : Bytes) (n_read : Nat) : Bytes :=
  (out ++ NUL :: ((m ++ [NUL]).take n_read).drop (out.length + 1)).take m.length

/-- The loop of `parse_address` with what it leaves between `ptr` and `ptr_end`. -/
def parse_in_place (item : Bytes) (m : Bytes) : Option (Pairs × Bytes) :=
  match m with
  | [] => some ([address_pair item], [])
  | c :: rest =>
      if c = 34 then
        match QS.default.decode_cstr (c :: rest ++ [NUL]) with
        | none => none
        | some (out, n_read) =>
            if _hread : n_read = 0 then none
            else (parse_in_place (item ++ out) ((c :: rest).drop n_read)).map fun (pairs, left) =>
              (pairs, left_by_decode (c :: rest) out n_read ++ left)
      else if c = 44 then
        (parse_in_place [] rest).map fun (pairs, left) => (address_pair item :: pairs, c :: left)
      else (parse_in_place (item ++ [c]) rest).map fun (pairs, left) => (pairs, c :: left)
termination_by m.length
decreasing_by
  · rw [List.length_drop, List.length_cons]
    omega
  · exact Nat.lt_succ_self _
  · exact Nat.lt_succ_self _

/-- `parse_address(str)`, with what it leaves in `str`. -/
def parse_address_in_place (u : MIME_Header_Util) (str : Bytes) :
    Option (MIME_Header_Util × Bytes) :=
  (parse_in_place [] str).map fun (pairs, left) =>
    ({ u with parser_ := .Address_Parser, pairs_ := pairs }, left)

/-- **The pairs are those of `parse_addresses`.** -/
theorem parse_in_place_fst : ∀ m item : Bytes,
    (parse_in_place item m).map Prod.fst = parse_addresses item m := by
  intro m
  induction hk : m.length using Nat.strong_induction_on generalizing m with
  | _ k ih =>
      intro item
      subst hk
      cases m with
      | nil => rw [parse_in_place, parse_addresses]; rfl
      | cons c rest =>
          have hrest := ih rest.length (Nat.lt_succ_self _) rest rfl
          rw [parse_in_place, parse_addresses]
          split_ifs with hquote hcomma
          · cases QS.default.decode_cstr (c :: rest ++ [NUL]) with
            | none => rfl
            | some r =>
                obtain ⟨out, n_read⟩ := r
                dsimp only
                split_ifs with hread
                · rfl
                · rw [Option.map_map]
                  refine ih ((c :: rest).drop n_read).length ?_ _ rfl _
                  rw [List.length_drop, List.length_cons]
                  omega
          · rw [Option.map_map, ← hrest []]
            cases parse_in_place [] rest <;> rfl
          · rw [Option.map_map, ← hrest (item ++ [c])]
            rfl

/-- Without a quote the string is left as it is. -/
theorem left_of_no_quote (s : Bytes) (h : (34 : Byte) ∉ s) :
    ∀ item, ∃ pairs, parse_in_place item s = some (pairs, s) := by
  induction s with
  | nil => intro item; exact ⟨[address_pair item], by rw [parse_in_place]⟩
  | cons c s ih =>
      intro item
      rw [List.mem_cons, not_or] at h
      rw [parse_in_place, if_neg (Ne.symm h.1)]
      split_ifs
      · obtain ⟨pairs, hpairs⟩ := ih h.2 []
        exact ⟨address_pair item :: pairs, by rw [hpairs]; rfl⟩
      · obtain ⟨pairs, hpairs⟩ := ih h.2 (item ++ [c])
        exact ⟨pairs, by rw [hpairs]; rfl⟩

/-- The decoder's NUL stays in what a closed string leaves. -/
theorem nul_left_by_decode {m out : Bytes} (h : out.length < m.length) (n_read : Nat) :
    NUL ∈ left_by_decode m out n_read := by
  have hat : (out ++ NUL :: ((m ++ [NUL]).take n_read).drop (out.length + 1))[out.length]? = some NUL := by
    rw [List.getElem?_append_right le_rfl, Nat.sub_self, List.getElem?_cons_zero]
  have hat' : (left_by_decode m out n_read)[out.length]? = some NUL := by
    rw [left_by_decode, List.getElem?_take, if_pos h, hat]
  exact List.mem_of_getElem? hat'

/-- **A quoted string leaves a NUL** in a balanced header. -/
theorem left_of_quote {s : Bytes} (hs : Balanced s) :
    NUL ∉ s → (34 : Byte) ∈ s → ∀ item pairs left, parse_in_place item s = some (pairs, left) →
      NUL ∈ left := by
  induction hs with
  | nil => intro _ h; exact absurd h List.not_mem_nil
  | @char c s hc _ ih =>
      intro hnul hmem item pairs left h
      rw [List.mem_cons, not_or] at hnul
      have hrest := ih hnul.2 ((List.mem_cons.mp hmem).resolve_left (Ne.symm hc))
      rw [parse_in_place, if_neg hc] at h
      split_ifs at h
      · obtain ⟨⟨ps, l⟩, hps, heq⟩ := Option.map_eq_some_iff.mp h
        obtain ⟨_, rfl⟩ := Prod.mk.inj heq
        exact List.mem_cons_of_mem c (hrest _ _ _ hps)
      · obtain ⟨⟨ps, l⟩, hps, heq⟩ := Option.map_eq_some_iff.mp h
        obtain ⟨_, rfl⟩ := Prod.mk.inj heq
        exact List.mem_cons_of_mem c (hrest _ _ _ hps)
  | @quoted text body rest hq _ _ =>
      intro hnul _ item pairs left h
      rw [List.mem_cons, not_or] at hnul
      rw [parse_in_place, if_pos rfl] at h
      simp only [List.cons_append] at h
      rcases parse_at_quote hnul.2 item with
        ⟨body', rest', hq', hdecode, _⟩ | ⟨htext, _⟩ | ⟨hopen, _⟩
      · have hlen := hq'.length
        rw [hdecode] at h
        dsimp only at h
        rw [dif_neg (Nat.succ_ne_zero _)] at h
        obtain ⟨⟨ps, l⟩, _, heq⟩ := Option.map_eq_some_iff.mp h
        obtain ⟨_, rfl⟩ := Prod.mk.inj heq
        refine List.mem_append_left _ (nul_left_by_decode ?_ _)
        rw [List.length_cons]
        omega
      · exact absurd hq (not_quoted_short htext)
      · exact absurd ⟨body, rest, hq⟩ hopen

/-- **Which balanced headers are left as they were**, so that they can be parsed again: those
    without a quoted string. -/
theorem address_left_iff (u : MIME_Header_Util) {str : Bytes} (hnul : NUL ∉ str)
    (hquotes : Balanced str) :
    (∃ v, u.parse_address_in_place str = some (v, str) ∧
      v.parse_address_in_place str = some (v, str)) ↔ (34 : Byte) ∉ str := by
  constructor
  · intro h hmem
    obtain ⟨v, hv, _⟩ := h
    obtain ⟨⟨pairs, left⟩, hparse, heq⟩ := Option.map_eq_some_iff.mp hv
    obtain ⟨_, rfl⟩ := Prod.mk.inj heq
    exact hnul (left_of_quote hquotes hnul hmem [] pairs _ hparse)
  · intro h
    obtain ⟨pairs, hpairs⟩ := left_of_no_quote str h []
    refine ⟨⟨.Address_Parser, pairs⟩, ?_, ?_⟩
    · rw [parse_address_in_place, hpairs]
      rfl
    · rw [parse_address_in_place, hpairs]
      rfl

theorem address_left_plain :
    (∃ v, parse_address_in_place ⟨.No_Parser, []⟩ [97, 64, 98] = some (v, [97, 64, 98]) ∧
      v.parse_address_in_place [97, 64, 98] = some (v, [97, 64, 98])) ↔
        (34 : Byte) ∉ ([97, 64, 98] : Bytes) :=
  address_left_iff ⟨.No_Parser, []⟩ (by decide)
    (.char (by decide) (.char (by decide) (.char (by decide) .nil)))

/-- **A name in quotes**: `"a"` is left as an `a`, a NUL and a quote. -/
theorem address_quote_overwritten :
    NUL ∉ ([34, 97, 34] : Bytes) ∧ Balanced [34, 97, 34] ∧
      parse_address_in_place ⟨.No_Parser, []⟩ [34, 97, 34]
        = some (⟨.Address_Parser, [([], [97])]⟩, [97, NUL, 34]) := by
  refine ⟨by decide, .quoted (.char (by decide) (by decide) (.close [])) .nil, ?_⟩
  have hdecode : QS.default.decode_cstr [34, 97, 34, NUL] = some ([97], 3) := by decide
  have hpair : address_pair [97] = ([], [97]) := by decide
  rw [parse_address_in_place, parse_in_place, if_pos rfl]
  simp only [List.cons_append, List.nil_append]
  rw [hdecode]
  dsimp only
  rw [dif_neg (by decide), List.drop_of_length_le (by decide), parse_in_place, hpair]
  rfl

end MIME_Header_Util

end Aos
