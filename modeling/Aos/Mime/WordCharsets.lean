/-
  Aos.Mime.WordCharsets — the charsets of encoded words.

  `parse_encoded` takes words of one charset together.  It compares the charset of
  the last pair with that of the new word, and looks at no more characters than
  the new one has: a name that begins another one is taken for it.

  Main results:
    • `words_ends` — the pairs of a text of encoded words;
    • `words_placed_iff` — every word lies in a pair of its own charset exactly when
      no word's charset begins another one that the word in front of it has.
-/
import Aos.Lib.Groups
import Aos.Mime.EncodedWords

namespace Aos

open Lib.Loop Lib.Groups

namespace MIME_Header_Util

/-! ## §1. The pairs of a text of words. -/

section Words

variable (map_charset : Bool)

/-- A word is taken to the pair of another one. -/
def Joins (v w : Encoded_Word) : Prop :=
  strncasecmp (mapped map_charset v.charset) (mapped map_charset w.charset)
    (mapped map_charset w.charset).length = 0

instance : DecidableRel (Joins map_charset) := fun _ _ => inferInstanceAs (Decidable (_ = _))

/-- The charset that is kept with a word, in lower case. -/
def kind (w : Encoded_Word) : List Int := lower (mapped map_charset w.charset)

theorem joins_sees_kind : Sees_Kind (Joins map_charset) (kind map_charset) where
  same := fun {a b} h => by
    unfold Joins
    rw [strncasecmp_congr _ h rfl]
    exact strncasecmp_self _ _
  left := fun {a b c} h hac => by
    unfold Joins at hac ⊢
    rw [strncasecmp_congr _ h.symm rfl]
    exact hac
  right := fun {a b c} h hab => by
    have hlen : (mapped map_charset b.charset).length = (mapped map_charset c.charset).length := by
      have hlower := congrArg List.length h
      rwa [kind, kind, lower, lower, List.length_map, List.length_map] at hlower
    unfold Joins at hab ⊢
    rw [strncasecmp_congr _ rfl h.symm, ← hlen]
    exact hab

/-- The pair of a group of words. -/
def pair (group : Encoded_Word × List Encoded_Word) : Bytes × Bytes :=
  (mapped map_charset group.1.charset, group.2.flatMap Encoded_Word.decoded)

/-- Encoded words, one behind the other. -/
def words (ws : List Encoded_Word) : Bytes := ws.flatMap Encoded_Word.rendered

theorem add_word_joins (pairs : Pairs) (k : Encoded_Word) (g : List Encoded_Word)
    (w : Encoded_Word) :
    add_word (pairs ++ [pair map_charset (k, g)]) (mapped map_charset w.charset) w.decoded
      = if Joins map_charset k w then pairs ++ [pair map_charset (k, g ++ [w])]
        else (pairs ++ [pair map_charset (k, g)]) ++ [pair map_charset (w, [w])] := by
  have hone : pair map_charset (w, [w]) = (mapped map_charset w.charset, w.decoded) := by
    unfold pair
    rw [List.flatMap_singleton]
  have hmore : pair map_charset (k, g ++ [w])
      = ((pair map_charset (k, g)).1, (pair map_charset (k, g)).2 ++ w.decoded) := by
    unfold pair
    rw [List.flatMap_append, List.flatMap_singleton]
  rw [hone, hmore]
  unfold add_word
  rw [List.getLast?_concat]
  dsimp only
  rw [List.dropLast_concat]
  rfl

/-- **The pairs of a text of words** are the groups of the words. -/
theorem words_ends (ws : List Encoded_Word) :
    ∀ (pairs : Pairs) (k : Encoded_Word) (g : List Encoded_Word),
      Ends (encoded_pass map_charset) (pairs ++ [pair map_charset (k, g)], words ws)
        (pairs ++ (gathered (Joins map_charset) k g ws).map (pair map_charset) ++ [([], [])]) := by
  induction ws with
  | nil =>
      intro pairs k g
      exact (ends_exit _ (pass_end map_charset _ (by decide))).mpr rfl
  | cons w ws ih =>
      intro pairs k g
      have hpass := w.pass map_charset (pairs ++ [pair map_charset (k, g)]) (p := [])
        (by decide) (words ws)
      have hnext : add_text (pairs ++ [pair map_charset (k, g)]) []
          = pairs ++ [pair map_charset (k, g)] := if_pos rfl
      rw [hnext, add_word_joins] at hpass
      refine (ends_next _ hpass).mpr ?_
      rw [gathered]
      split_ifs
      · exact ih pairs k (g ++ [w])
      · have hpairs := List.append_cons pairs (pair map_charset (k, g))
          ((gathered (Joins map_charset) w [w] ws).map (pair map_charset))
        rw [List.map_cons, hpairs]
        exact ih (pairs ++ [pair map_charset (k, g)]) w [w]

/-- The pairs of a text that begins with a word. -/
theorem words_parse (w : Encoded_Word) (ws : List Encoded_Word) :
    Ends (encoded_pass map_charset) ([], words (w :: ws))
      ((gathered (Joins map_charset) w [w] ws).map (pair map_charset) ++ [([], [])]) := by
  have hpass := w.pass map_charset [] (p := []) (by decide) (words ws)
  refine (ends_next _ hpass).mpr ?_
  have hone : add_word (add_text [] []) (mapped map_charset w.charset) w.decoded
      = [] ++ [pair map_charset (w, [w])] := by
    unfold pair
    rw [List.flatMap_singleton]
    rfl
  rw [hone]
  exact words_ends map_charset ws [] w [w]

/-! ## §2. Every word in a pair of its charset. -/

/-- Every word's decoded bytes lie in a pair that has the word's charset, up to letter
    case; the words keep their order. -/
def Placed (ws : List Encoded_Word) (pairs : Pairs) : Prop :=
  ∃ gs : List (List Encoded_Word), gs.flatten = ws ∧
    List.Forall₂ (fun g p => p.2 = g.flatMap Encoded_Word.decoded ∧
      ∀ w ∈ g, kind map_charset w = lower p.1) gs pairs

/-- No name of a charset is lost. -/
theorem mapped_ne_nil {charset : Bytes} (h : charset ≠ []) : mapped map_charset charset ≠ [] := by
  unfold mapped MIME_Util.map_charset
  dsimp only
  split_ifs
  · exact List.cons_ne_nil _ _
  · exact List.cons_ne_nil _ _
  · exact List.cons_ne_nil _ _
  · exact fun hnil => h (List.map_eq_nil_iff.mp hnil)
  · exact h

/-- The pair behind the last word holds none. -/
theorem placed_end_iff (ws : List Encoded_Word) (pairs : Pairs) :
    Placed map_charset ws (pairs ++ [([], [])]) ↔ Placed map_charset ws pairs := by
  constructor
  · intro h
    obtain ⟨gs, hflat, hgs⟩ := h
    refine ⟨gs.take pairs.length, ?_, List.forall₂_take_append gs pairs _ hgs⟩
    have hlast := List.forall₂_drop_append gs pairs _ hgs
    generalize hrest : gs.drop pairs.length = rest at hlast
    cases hlast with
    | @cons g _ rest _ hg hnil =>
        cases hnil
        -- a word in it would have no charset
        have hno : g = [] := by
          refine List.eq_nil_iff_forall_not_mem.mpr fun w hw => ?_
          have hkind := hg.2 w hw
          exact mapped_ne_nil map_charset w.charset_ne (List.map_eq_nil_iff.mp hkind)
        rw [← hflat]
        conv_rhs => rw [← List.take_append_drop pairs.length gs, hrest, hno]
        rw [List.flatten_append, List.flatten_cons, List.flatten_nil, List.append_nil,
          List.append_nil]
  · intro h
    obtain ⟨gs, hflat, hgs⟩ := h
    refine ⟨gs ++ [[]], ?_, List.rel_append hgs (.cons ⟨rfl, ?_⟩ .nil)⟩
    · rw [List.flatten_append, hflat]
      exact List.append_nil ws
    · exact fun w hw => absurd hw List.not_mem_nil

/-- The neighbours of a text of words have charsets that do not begin one another,
    unless they are the same. -/
def Apart_Names (ws : List Encoded_Word) : Prop :=
  ws.IsChain fun v w =>
    Begins (mapped map_charset w.charset) (mapped map_charset v.charset) →
      kind map_charset v = kind map_charset w

theorem apart_names_iff (ws : List Encoded_Word) :
    Apart_Names map_charset ws ↔ Apart (Joins map_charset) (kind map_charset) ws := by
  have hsees : ∀ v w : Encoded_Word, Joins map_charset v w ↔
      Begins (mapped map_charset w.charset) (mapped map_charset v.charset) :=
    fun v w => strncasecmp_begins_iff _ _
  unfold Apart_Names Apart
  simp only [hsees]

/-- **The words of a group lie in their own charset** exactly when no name stands in front
    of one that begins it. -/
theorem groups_placed_iff (w : Encoded_Word) (ws : List Encoded_Word) :
    Placed map_charset (w :: ws)
        ((gathered (Joins map_charset) w [w] ws).map (pair map_charset))
      ↔ Apart_Names map_charset (w :: ws) := by
  have hsees := joins_sees_kind map_charset
  rw [apart_names_iff]
  constructor
  · intro h
    -- the words are cut into as many pieces of one kind as there are pairs
    obtain ⟨gs, hflat, hgs⟩ := h
    rw [List.forall₂_map_right_iff] at hgs
    exact apart_of_placed hsees w ws gs hflat (hgs.imp fun g p hg => hg.2)
  · intro hapart
    refine ⟨(gathered (Joins map_charset) w [w] ws).map Prod.snd,
      gathered_flatten _ ws w [w], ?_⟩
    rw [List.forall₂_map_left_iff, List.forall₂_map_right_iff]
    refine List.forall₂_same.mpr fun p hp => ⟨rfl, ?_⟩
    refine gathered_kind hsees ws w [w] w rfl ?_ hapart p hp
    intro v hv
    rw [List.mem_singleton.mp hv]

end Words

/-- **Every word lies in a pair of its own charset** exactly when no word's charset begins
    the other charset that the word in front of it has. -/
theorem words_placed_iff (ws : List Encoded_Word) (str : Bytes) (trim_crlf map_charset : Bool)
    (hstr : scanned str trim_crlf = words ws) :
    (∀ u, Parses_Encoded str trim_crlf map_charset u → Placed map_charset ws u.pairs_)
      ↔ Apart_Names map_charset ws := by
  cases ws with
  | nil =>
      have hends : Ends (encoded_pass map_charset) ([], words []) [([], [])] :=
        (ends_exit _ (pass_end map_charset [] (by decide))).mpr rfl
      refine ⟨fun _ => List.isChain_nil, fun _ u hu => ?_⟩
      have hpairs := hu.2
      rw [hstr] at hpairs
      rw [Ends.unique _ hpairs hends]
      exact (placed_end_iff map_charset [] []).mpr ⟨[], rfl, .nil⟩
  | cons w ws =>
      have hends := words_parse map_charset w ws
      rw [← groups_placed_iff, ← placed_end_iff]
      constructor
      · intro h
        rw [← hstr] at hends
        exact h ⟨.Encoded_Parser, _⟩ ⟨rfl, hends⟩
      · intro h u hu
        have hpairs := hu.2
        rw [hstr] at hpairs
        rw [Ends.unique _ hpairs hends]
        exact h

theorem known_q : (113 : Byte) = 66 ∨ (113 : Byte) = 98 ∨ (113 : Byte) = 81 ∨ (113 : Byte) = 113 :=
  Or.inr (Or.inr (Or.inr rfl))

theorem letter_no_end (c : Byte) : ¬ [63, 61] <:+: [c] := fun h => absurd h.length_le (by simp)

/-- "=?" charset "?q?" letter "?=" -/
def one_letter (charset : Bytes) (c : Byte) (hne : charset ≠ []) (hok : 63 ∉ charset) :
    Encoded_Word where
  charset := charset
  enc := 113
  text := [c]
  charset_ne := hne
  charset_ok := hok
  enc_ok := known_q
  text_ok := letter_no_end c

/-- "=?iso-8859-15?q?a?=" -/
def word_latin9 : Encoded_Word :=
  one_letter (lit "iso-8859-15") 97 (by decide) (by decide +kernel)

/-- "=?iso-8859-1?q?b?=" -/
def word_latin1 : Encoded_Word :=
  one_letter (lit "iso-8859-1") 98 (by decide) (by decide +kernel)

theorem latin1_begins_latin9 : Begins (lit "iso-8859-1") (lit "iso-8859-15") := by
  decide +kernel

/-- A word in "iso-8859-1" goes to the pair of the "iso-8859-15" in front of it. -/
theorem latin1_taken_for_latin9 :
    ∃ u, Parses_Encoded (words [word_latin9, word_latin1]) false false u ∧
      u.pairs_ = [(lit "iso-8859-15", [97, 98]), ([], [])] ∧
      ¬ Placed false [word_latin9, word_latin1] u.pairs_ := by
  have hends := words_parse false word_latin9 [word_latin1]
  have hjoins : Joins false word_latin9 word_latin1 :=
    (strncasecmp_begins_iff _ _).mpr latin1_begins_latin9
  have hapart : ¬ Apart_Names false [word_latin9, word_latin1] := by
    intro h
    have hkind := (List.isChain_cons_cons.mp h).1 latin1_begins_latin9
    have hlen := congrArg List.length hkind
    revert hlen
    decide +kernel
  refine ⟨⟨.Encoded_Parser, _⟩, ⟨rfl, hends⟩, ?_, ?_⟩
  · show (gathered (Joins false) word_latin9 [word_latin9] [word_latin1]).map (pair false) ++ _ = _
    rw [gathered, if_pos hjoins]
    rfl
  · rw [placed_end_iff, groups_placed_iff]
    exact hapart

/-- Two words in one charset, with their names mapped. -/
theorem words_placed_same :
    ∃ u, Parses_Encoded (words [word_latin1, word_latin1]) false true u ∧
      Placed true [word_latin1, word_latin1] u.pairs_ := by
  obtain ⟨u, hu⟩ := parses_encoded_total true (words [word_latin1, word_latin1]) false
  exact ⟨u, hu, (words_placed_iff [word_latin1, word_latin1] _ false true rfl).mpr
    (List.isChain_cons_cons.mpr ⟨fun _ => rfl, List.isChain_singleton _⟩) u hu⟩

end MIME_Header_Util

end Aos
