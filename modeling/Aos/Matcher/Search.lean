/-
  Aos.Matcher.Search — the two `search` functions of `Char_Indexer`.

  `search(cstr)` and `search(buf, len)` each hold a copy of the body of `move`
  inside a loop.  Where `move` returns on a character that no key begins with
  and nothing is pending for, the copies say `continue`, and the step `c++`
  stands behind it: the loop stays at that character.

  Main results:
    • `search_of_goes`, `not_ends_of_not_goes` — a search that is never stuck
      ends with the calls of `move`, any other does not end;
    • `goes_iff_covered` — when a search is never stuck, said of the keys, the
      pending matches and the text;
    • `search_agrees_iff` — both loops end with the calls of `move` on exactly
      these inputs.
-/
import Aos.Matcher.CharIndexer
import Aos.Str.Compare
import Aos.Lib.Loop

namespace Aos

open Lib.Suffixes Lib.Loop

namespace Char_Indexer

/-! ## §1. The loops. -/

/-- The state of a search: what is still to be read, and the calls made so far. -/
structure Search where
  self : Char_Indexer
  c : Nat
  text : Bytes
  calls : List (Nat × Nat)

/-- One pass of a loop that ends where `stop` says so. -/
def search_pass (stop : Bytes → Bool) (s : Search) : Search ⊕ Search :=
  if stop s.text then .inr s
  else
    let ch := deref s.text
    let new_match := s.self.root_.find ch
    if new_match.isNone ∧ s.self.match_.isEmpty then .inl s -- continue, without c++
    else
      let moved := move_matches s.c ch s.self.match_
      match new_match with
      | some node =>
          let new_result : Result := ⟨node, s.c⟩
          .inl ⟨{ s.self with match_ := new_result :: moved.1 }, s.c + 1, s.text.tail,
            s.calls ++ (moved.2 ++ on_match new_result s.c)⟩
      | none => .inl ⟨{ s.self with match_ := moved.1 }, s.c + 1, s.text.tail, s.calls ++ moved.2⟩

/-- `search(cstr)`: `while( *c )`. -/
def search_cstr_pass : Search → Search ⊕ Search := search_pass (fun text => deref text == NUL)

/-- `search(buf, len)`: `while( c < c_end )`. -/
def search_buf_pass : Search → Search ⊕ Search := search_pass List.isEmpty

/-- A search of the text at `c` ends, and has made the calls `move` makes. -/
def Agrees (pass : Search → Search ⊕ Search) (m : Char_Indexer) (c : Nat) (mem text : Bytes) :
    Prop :=
  ∃ s, Ends pass ⟨m, c, mem, []⟩ s ∧ s.calls.Perm (m.move_all c text)

/-! ## §2. A search that is never stuck. -/

/-- At no character of the text is there nothing to do. -/
def Goes (m : Char_Indexer) (c : Nat) : Bytes → Prop
  | [] => True
  | ch :: text =>
      ¬ ((m.root_.find ch).isNone ∧ m.match_.isEmpty) ∧ Goes (m.move c ch).1 (c + 1) text

theorem search_pass_stuck (stop : Bytes → Bool) (s : Search) (hs : stop s.text = false)
    (h : (s.self.root_.find (deref s.text)).isNone ∧ s.self.match_.isEmpty) :
    search_pass stop s = .inl s := by
  unfold search_pass
  rw [if_neg (by simp [hs])]
  show (if _ then _ else _) = _
  rw [if_pos h]

/-- **Elsewhere a pass is a `move` and a step.** -/
theorem search_pass_move (stop : Bytes → Bool) (s : Search) (hs : stop s.text = false)
    (h : ¬ ((s.self.root_.find (deref s.text)).isNone ∧ s.self.match_.isEmpty)) :
    search_pass stop s = .inl ⟨(s.self.move s.c (deref s.text)).1, s.c + 1, s.text.tail,
      s.calls ++ (s.self.move s.c (deref s.text)).2⟩ := by
  unfold search_pass move
  rw [if_neg (by simp [hs])]
  show (if _ then _ else _) = _
  rw [if_neg h, if_neg h]
  cases s.self.root_.find (deref s.text) with
  | none => rfl
  | some node => rfl

section Loops

-- `view` is the text a loop that ends at `stop` reads from the memory at `c`
variable (stop : Bytes → Bool) (view : Bytes → Bytes)
  (hend : ∀ mem, stop mem = true → view mem = [])
  (hstep : ∀ mem, stop mem = false → view mem = deref mem :: view mem.tail)

include hend hstep

/-- **A search that is never stuck ends with the calls of `move`.** -/
theorem search_of_goes (text : Bytes) :
    ∀ (m : Char_Indexer) (c : Nat) (mem : Bytes) (calls : List (Nat × Nat)), view mem = text →
      m.Goes c text →
      ∃ s, Ends (search_pass stop) ⟨m, c, mem, calls⟩ s ∧ s.calls = calls ++ m.move_all c text := by
  induction text with
  | nil =>
      intro m c mem calls hview _
      have hs : stop mem = true := by
        by_contra hs
        rw [hstep mem (by simpa using hs)] at hview
        exact List.cons_ne_nil _ _ hview
      refine ⟨⟨m, c, mem, calls⟩, ?_, (List.append_nil calls).symm⟩
      rw [ends_exit (r := ⟨m, c, mem, calls⟩)]
      unfold search_pass
      rw [if_pos hs]
  | cons ch text ih =>
      intro m c mem calls hview hgoes
      have hs : stop mem = false := by
        by_contra hs
        rw [hend mem (by simpa using hs)] at hview
        exact List.cons_ne_nil _ _ hview.symm
      rw [hstep mem hs] at hview
      obtain ⟨rfl, htail⟩ := List.cons.inj hview
      obtain ⟨hfree, hrest⟩ := hgoes
      have hpass := search_pass_move stop ⟨m, c, mem, calls⟩ hs hfree
      obtain ⟨s, hends, hcalls⟩ := ih (m.move c (deref mem)).1 (c + 1) mem.tail
        (calls ++ (m.move c (deref mem)).2) htail hrest
      refine ⟨s, (ends_next _ hpass).mpr hends, ?_⟩
      rw [hcalls, move_all, List.append_assoc]

/-- **A search that is stuck at some character does not end.** -/
theorem not_ends_of_not_goes (text : Bytes) :
    ∀ (m : Char_Indexer) (c : Nat) (mem : Bytes) (calls : List (Nat × Nat)), view mem = text →
      ¬ m.Goes c text → ∀ s, ¬ Ends (search_pass stop) ⟨m, c, mem, calls⟩ s := by
  induction text with
  | nil =>
      intro m c mem calls _ hgoes
      exact absurd trivial hgoes
  | cons ch text ih =>
      intro m c mem calls hview hgoes s
      have hs : stop mem = false := by
        by_contra hs
        rw [hend mem (by simpa using hs)] at hview
        exact List.cons_ne_nil _ _ hview.symm
      rw [hstep mem hs] at hview
      obtain ⟨rfl, htail⟩ := List.cons.inj hview
      by_cases hfree : (m.root_.find (deref mem)).isNone ∧ m.match_.isEmpty
      · exact not_ends_of_stuck _ (search_pass_stuck stop ⟨m, c, mem, calls⟩ hs hfree) s
      · have hpass := search_pass_move stop ⟨m, c, mem, calls⟩ hs hfree
        rw [ends_next _ hpass]
        exact ih _ _ _ _ htail (fun hrest => hgoes ⟨hfree, hrest⟩) s

theorem agrees_iff_goes (m : Char_Indexer) (c : Nat) (mem : Bytes) :
    Agrees (search_pass stop) m c mem (view mem) ↔ m.Goes c (view mem) := by
  constructor
  · intro hagrees
    obtain ⟨s, hends, _⟩ := hagrees
    by_contra hgoes
    exact not_ends_of_not_goes stop view hend hstep _ m c mem [] rfl hgoes s hends
  · intro hgoes
    obtain ⟨s, hends, hcalls⟩ := search_of_goes stop view hend hstep _ m c mem [] rfl hgoes
    refine ⟨s, hends, ?_⟩
    rw [hcalls, List.nil_append]

end Loops

/-! ## §3. The two ends of a text. -/

theorem c_str_end (mem : Bytes) (h : (deref mem == NUL) = true) : c_str mem = [] := by
  cases mem with
  | nil => rfl
  | cons b mem =>
      have hb : b = NUL := by simpa [deref] using h
      unfold c_str
      rw [List.takeWhile_cons, if_neg (by simp [hb])]

theorem c_str_step (mem : Bytes) (h : (deref mem == NUL) = false) :
    c_str mem = deref mem :: c_str mem.tail := by
  cases mem with
  | nil => exact absurd h (by decide)
  | cons b mem =>
      have hb : b ≠ NUL := by simpa [deref] using h
      unfold c_str
      rw [List.takeWhile_cons, if_pos (by simpa using hb)]
      rfl

theorem buf_step (mem : Bytes) (h : mem.isEmpty = false) : mem = deref mem :: mem.tail := by
  cases mem with
  | nil => exact absurd h (by decide)
  | cons b mem => rfl

/-! ## §4. When a search is never stuck. -/

/-- At every character of the text a key begins, or a partial match is alive: one
    that was pending, or one of a key that has begun inside the text. -/
def Covered (keys : List Bytes) (match_ : List Result) (text : Bytes) : Prop :=
  ∀ read ch rest, text = read ++ ch :: rest →
    (∃ k ∈ keys, [ch] <+: k) ∨
    (∃ r ∈ match_, (run Char_Node.find r.curr read).isSome) ∨
    ∃ s, s ≠ [] ∧ s <:+ read ∧ ∃ k ∈ keys, s <+: k

/-- **The trie has a path for exactly the beginnings of its keys.** -/
theorem path_insert_key (buf : Bytes) :
    ∀ (node : Char_Node), Char_Node.Ok node → ∀ s,
      (run Char_Node.find (node.insert_key buf) s).isSome
        ↔ s <+: buf ∨ (run Char_Node.find node s).isSome := by
  induction buf with
  | nil =>
      intro node hok s
      cases s with
      | nil => simp
      | cons ch s =>
          have hsame : (node.insert_key []).find ch = node.find ch := rfl
          rw [run_cons, run_cons, hsame]
          simp
  | cons d buf ih =>
      intro node hok s
      cases s with
      | nil => simp
      | cons ch s =>
          rw [Char_Node.insert_key_cons, run_cons,
            Char_Node.find_update node d ch _ hok (Char_Node.insert_key_ok buf)]
          by_cases hd : ch = d
          · subst hd
            have hchild : Char_Node.Ok ((node.find ch).getD (Char_Node.new ch 0)) := by
              cases hf : node.find ch with
              | none => exact Char_Node.ok_new ch 0
              | some child => exact Char_Node.ok_of_find hok hf
            rw [if_pos rfl, Option.bind_some, ih _ hchild s, List.prefix_cons_inj, run_cons]
            cases hf : node.find ch with
            | some child => rfl
            | none =>
                -- a fresh child has no path of its own but the empty one
                have hfresh : (run Char_Node.find (Char_Node.new ch 0) s).isSome → s <+: buf := by
                  intro hrun
                  cases s with
                  | nil => exact List.nil_prefix
                  | cons e s =>
                      rw [run_cons, Char_Node.find_eq _ e (Char_Node.ok_new ch 0)] at hrun
                      exact absurd hrun (by simp [Char_Node.new])
                constructor
                · intro hor
                  exact Or.inl (hor.elim id hfresh)
                · intro hor
                  exact Or.inl (hor.elim id (fun h => absurd h (by simp)))
          · have hpre : ¬ (ch :: s <+: d :: buf) := by
              intro hp
              exact hd (List.cons_prefix_cons.mp hp).1
            rw [if_neg hd, run_cons]
            simp [hpre]

theorem path_insert_keys (keys : List Bytes) :
    ∀ (m : Char_Indexer), Char_Node.Ok m.root_ → ∀ s,
      (run Char_Node.find (m.insert_keys keys).root_ s).isSome
        ↔ (∃ k ∈ keys, s <+: k) ∨ (run Char_Node.find m.root_ s).isSome := by
  induction keys with
  | nil => intro m _ s; simp [insert_keys]
  | cons k keys ih =>
      intro m hok s
      have hroot := path_insert_key k m.root_ hok s
      have hrest := ih (m.insert_key k) (Char_Node.insert_key_ok k m.root_ hok).2 s
      show (run Char_Node.find ((m.insert_key k).insert_keys keys).root_ s).isSome ↔ _
      rw [hrest]
      show _ ∨ (run Char_Node.find (m.root_.insert_key k) s).isSome ↔ _
      rw [hroot]
      simp only [List.mem_cons, exists_eq_or_imp]
      rw [or_assoc]
      exact or_left_comm

/-- In a fresh trie only the empty word has a path. -/
theorem path_insert_keys_new (keys : List Bytes) {s : Bytes} (hne : s ≠ []) :
    (run Char_Node.find (new.insert_keys keys).root_ s).isSome ↔ ∃ k ∈ keys, s <+: k := by
  have hok : Char_Node.Ok new.root_ := Char_Node.ok_new 0 0
  rw [path_insert_keys keys new hok s]
  have hnone : ¬ (run Char_Node.find new.root_ s).isSome := by
    cases s with
    | nil => exact absurd rfl hne
    | cons ch s =>
        rw [run_cons, Char_Node.find_eq _ ch hok]
        simp [new, Char_Node.new]
  simp [hnone]

/-- A partial match is alive after `read`: an old one, or one begun inside. -/
def Alive (m : Char_Indexer) (read : Bytes) : Prop :=
  (∃ r ∈ m.match_, (run Char_Node.find r.curr read).isSome) ∨
    ∃ s, s ≠ [] ∧ s <:+ read ∧ (run Char_Node.find m.root_ s).isSome

theorem mem_move_matches (c : Nat) (ch : Byte) (l : List Result) (r' : Result) :
    r' ∈ (move_matches c ch l).1
      ↔ ∃ r ∈ l, ∃ node, r.curr.find ch = some node ∧ r' = { r with curr := node } := by
  induction l with
  | nil => simp [move_matches]
  | cons r l ih =>
      rw [move_matches]
      cases hf : r.curr.find ch with
      | none =>
          rw [ih]
          simp [hf]
      | some node =>
          show r' ∈ { r with curr := node } :: (move_matches c ch l).1 ↔ _
          rw [List.mem_cons, ih]
          simp [hf]

theorem mem_move (m : Char_Indexer) (c : Nat) (ch : Byte) (r' : Result) :
    r' ∈ (m.move c ch).1.match_
      ↔ (∃ node, m.root_.find ch = some node ∧ r' = ⟨node, c⟩) ∨
        ∃ r ∈ m.match_, ∃ node, r.curr.find ch = some node ∧ r' = { r with curr := node } := by
  rw [← mem_move_matches c ch m.match_ r']
  unfold move
  cases hf : m.root_.find ch with
  | none =>
      by_cases hempty : m.match_.isEmpty = true
      · rw [if_pos ⟨rfl, hempty⟩]
        rw [List.isEmpty_iff] at hempty
        simp [hempty, move_matches]
      · rw [if_neg (by simp [hempty])]
        simp
  | some node =>
      rw [if_neg (by simp)]
      simp

/-- **One character moves the partial matches on.** -/
theorem alive_cons (m : Char_Indexer) (c : Nat) (ch : Byte) (read : Bytes) :
    m.Alive (ch :: read) ↔ (m.move c ch).1.Alive read := by
  unfold Alive
  rw [move_root]
  constructor
  · intro halive
    rcases halive with ⟨r, hr, hrun⟩ | ⟨s, hne, hsuf, hrun⟩
    · rw [run_cons] at hrun
      cases hf : r.curr.find ch with
      | none => rw [hf] at hrun; exact absurd hrun (by simp)
      | some node =>
          rw [hf, Option.bind_some] at hrun
          exact Or.inl ⟨{ r with curr := node }, (mem_move m c ch _).mpr (Or.inr ⟨r, hr, node, hf, rfl⟩),
            hrun⟩
    · rcases List.suffix_cons_iff.mp hsuf with rfl | hsuf
      · -- the match that begins with `ch`
        rw [run_cons] at hrun
        cases hf : m.root_.find ch with
        | none => rw [hf] at hrun; exact absurd hrun (by simp)
        | some node =>
            rw [hf, Option.bind_some] at hrun
            exact Or.inl ⟨⟨node, c⟩, (mem_move m c ch _).mpr (Or.inl ⟨node, hf, rfl⟩), hrun⟩
      · exact Or.inr ⟨s, hne, hsuf, hrun⟩
  · intro halive
    rcases halive with ⟨r', hr', hrun⟩ | ⟨s, hne, hsuf, hrun⟩
    · rcases (mem_move m c ch r').mp hr' with ⟨node, hf, rfl⟩ | ⟨r, hr, node, hf, rfl⟩
      · refine Or.inr ⟨ch :: read, List.cons_ne_nil _ _, List.suffix_rfl, ?_⟩
        rw [run_cons, hf, Option.bind_some]
        exact hrun
      · refine Or.inl ⟨r, hr, ?_⟩
        rw [run_cons, hf, Option.bind_some]
        exact hrun
    · exact Or.inr ⟨s, hne, hsuf.trans (List.suffix_cons ch read), hrun⟩

theorem alive_nil (m : Char_Indexer) : m.Alive [] ↔ ¬ m.match_.isEmpty := by
  unfold Alive
  constructor
  · intro halive
    rcases halive with ⟨r, hr, _⟩ | ⟨s, hne, hsuf, _⟩
    · rw [List.isEmpty_iff]
      exact List.ne_nil_of_mem hr
    · exact absurd (List.suffix_nil.mp hsuf) hne
  · intro hempty
    rw [List.isEmpty_iff] at hempty
    obtain ⟨r, hr⟩ := List.exists_mem_of_ne_nil _ hempty
    exact Or.inl ⟨r, hr, rfl⟩

theorem goes_iff_alive (text : Bytes) :
    ∀ (m : Char_Indexer) (c : Nat), m.Goes c text ↔
      ∀ read ch rest, text = read ++ ch :: rest → (m.root_.find ch).isSome ∨ m.Alive read := by
  induction text with
  | nil =>
      intro m c
      refine ⟨fun _ read ch rest h => ?_, fun _ => trivial⟩
      exact absurd h.symm (by simp)
  | cons a text ih =>
      intro m c
      rw [Goes, ih (m.move c a).1 (c + 1), move_root]
      have hhere : ¬ ((m.root_.find a).isNone ∧ m.match_.isEmpty)
          ↔ (m.root_.find a).isSome ∨ m.Alive [] := by
        rw [alive_nil, not_and_or]
        cases m.root_.find a with
        | none => simp
        | some node => simp
      rw [hhere]
      constructor
      · intro hboth read ch rest heq
        cases read with
        | nil =>
            obtain ⟨rfl, _⟩ := List.cons.inj heq
            exact hboth.1
        | cons b read =>
            obtain ⟨rfl, htext⟩ := List.cons.inj heq
            rw [alive_cons m c]
            exact hboth.2 read ch rest htext
      · intro hall
        refine ⟨hall [] a text rfl, ?_⟩
        intro read ch rest htext
        rw [← alive_cons m c]
        apply hall (a :: read) ch rest
        rw [htext, List.cons_append]

/-- **Stuckness, said of the keys and the text.** -/
theorem goes_iff_covered (keys : List Bytes) (match_ : List Result) (c : Nat) (text : Bytes) :
    Goes ⟨(new.insert_keys keys).root_, match_⟩ c text ↔ Covered keys match_ text := by
  have hone : ∀ ch, ((new.insert_keys keys).root_.find ch).isSome ↔ ∃ k ∈ keys, [ch] <+: k := by
    intro ch
    rw [← path_insert_keys_new keys (List.cons_ne_nil ch []), run_cons]
    cases (new.insert_keys keys).root_.find ch with
    | none => simp
    | some node => simp
  rw [goes_iff_alive]
  unfold Covered Alive
  constructor
  · intro hall read ch rest heq
    rcases hall read ch rest heq with hfind | hold | ⟨s, hne, hsuf, hrun⟩
    · exact Or.inl ((hone ch).mp hfind)
    · exact Or.inr (Or.inl hold)
    · exact Or.inr (Or.inr ⟨s, hne, hsuf, (path_insert_keys_new keys hne).mp hrun⟩)
  · intro hall read ch rest heq
    rcases hall read ch rest heq with hfind | hold | ⟨s, hne, hsuf, hkey⟩
    · exact Or.inl ((hone ch).mpr hfind)
    · exact Or.inr (Or.inl hold)
    · exact Or.inr (Or.inr ⟨s, hne, hsuf, (path_insert_keys_new keys hne).mpr hkey⟩)

/-- **When `search` does what `move` does.**  For every set of keys, every list
    of pending matches and every text: each of the two loops ends, with the
    calls `move` makes, exactly when at every character of the text a key
    begins or a partial match is alive. -/
theorem search_agrees_iff (keys : List Bytes) (match_ : List Result) (c : Nat) (text : Bytes) :
    (Agrees search_buf_pass ⟨(new.insert_keys keys).root_, match_⟩ c text text
      ↔ Covered keys match_ text) ∧
    (Agrees search_cstr_pass ⟨(new.insert_keys keys).root_, match_⟩ c text (c_str text)
      ↔ Covered keys match_ (c_str text)) := by
  refine ⟨?_, ?_⟩
  · rw [← goes_iff_covered keys match_ c]
    exact agrees_iff_goes List.isEmpty id (fun _ h => List.isEmpty_iff.mp h) buf_step _ c text
  · rw [← goes_iff_covered keys match_ c]
    exact agrees_iff_goes _ c_str c_str_end c_str_step _ c text

/-- The key "a" and the text "b": neither loop leaves the first character. -/
theorem search_stuck_b :
    ¬ (Agrees search_buf_pass (new.insert_keys [lit "a"]) 0 (lit "b") (lit "b") ∨
      Agrees search_cstr_pass (new.insert_keys [lit "a"]) 0 (lit "b") (lit "b")) := by
  have hfree : ((new.insert_keys [lit "a"]).root_.find (deref (lit "b"))).isNone
      ∧ (new.insert_keys [lit "a"]).match_.isEmpty := by decide +kernel
  intro hor
  rcases hor with ⟨s, hends, _⟩ | ⟨s, hends, _⟩
  · exact not_ends_of_stuck _ (search_pass_stuck _ ⟨_, 0, lit "b", []⟩ (by decide) hfree) s hends
  · exact not_ends_of_stuck _ (search_pass_stuck _ ⟨_, 0, lit "b", []⟩ (by decide) hfree) s hends

end Char_Indexer

end Aos
