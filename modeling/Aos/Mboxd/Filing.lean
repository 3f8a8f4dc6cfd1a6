/-
  Aos.Mboxd.Filing — the mails that the threads of `Mail_Processor` move, and the rows they
  write for them.

  A mail is moved by `rename`, which takes the name it moves the mail to away from the file
  that had it.  The *.done files are moved in the same way, to a name of which the thread has
  seen just before that it is free.

  Main results:
    • `files_kept_iff` — no file is lost, exactly where each is moved to a free name;
    • `rows_filed`     — where the mails are, the rows of a mailbox have different ids, and
      behind each there is a file.
-/
import Aos.Mboxd.Entries

namespace Aos

open Lib
open Lib.Moves (Files)
open Lib.Runs (Always Meets always_iff_meets always_of_meets)

namespace Mail_Processor

section Filing

variable {T : Type} [Fintype T] [DecidableEq T] (c : Site)

/-! ## §1. No file is lost. -/

/-- What a thread is about to move, and where. -/
def Thread.renames : Thread → Option (Bytes × Bytes)
  | .sized d mail _ _ _ => some (mail.path_spool_mail, c.path_user_mail d.mbox_id mail.m_id)
  | .chosen d _ bak => some (d.path, bak)
  | _ => none

/-- The step moves the file of the first name to the second one. -/
def Moves (s : Mboxd T) (e : Event T) (old new : Bytes) : Prop :=
  ∃ t now ins, e = .thread t now ins ∧ (s.threads t).renames c = some (old, new) ∧
    s.files.names old ≠ none ∧ c.room new = true

theorem split_at_slash {id id' x x' : Bytes} (hid : SLASH ∉ id) (hid' : SLASH ∉ id')
    (h : id ++ SLASH :: x = id' ++ SLASH :: x') : id = id' ∧ x = x' := by
  have hfirst : ∀ (w y : Bytes), SLASH ∉ w → (w ++ SLASH :: y).takeWhile (· ≠ SLASH) = w := by
    intro w y hw
    have hall : ∀ b ∈ w, decide (b ≠ SLASH) = true := fun b hb =>
      decide_eq_true fun heq => hw (heq ▸ hb)
    rw [List.takeWhile_append_of_pos hall, List.takeWhile_cons_of_neg (by simp), List.append_nil]
  have heq : id = id' := by
    rw [← hfirst id x hid, h, hfirst id' x' hid']
  subst heq
  exact ⟨rfl, (List.cons.inj (List.append_cancel_left h)).2⟩

/-- A mail in a mailbox has one path, which is that of no other. -/
theorem path_user_mail_inj {id id' m_id m_id' : Bytes} (hid : SLASH ∉ id) (hid' : SLASH ∉ id')
    (h : c.path_user_mail id m_id = c.path_user_mail id' m_id') : id = id' ∧ m_id = m_id' := by
  have hpath : ∀ u m, c.path_user_mail u m = (c.path_mbox_base ++ dir_sep) ++
      (u ++ SLASH :: (lit "mail" ++ dir_sep ++ m ++ lit ".eml")) := by
    intro u m
    simp [Site.path_user_mail, Site.path_mbox_user_mail, Site.path_mbox_user, dir_sep]
  rw [hpath, hpath] at h
  obtain ⟨heq, hrest⟩ := split_at_slash hid hid' (List.append_cancel_left h)
  exact ⟨heq, List.append_cancel_left (List.append_cancel_right hrest)⟩

theorem path_mbox_user_db_inj {id id' : Bytes}
    (h : c.path_mbox_user_db id = c.path_mbox_user_db id') : id = id' := by
  unfold Site.path_mbox_user_db Site.path_mbox_user at h
  exact List.append_cancel_left (List.append_cancel_right (List.append_cancel_right h))

/-! ## §3. The rows and the files behind them. -/

/-- The *.done file a thread is at. -/
def Thread.entry : Thread → Option Entry
  | .reading d _ => some d
  | .imported d _ _ _ => some d
  | .sized d _ _ _ _ => some d
  | .moved d _ _ => some d
  | .backing d _ => some d
  | .chosen d _ _ => some d
  | _ => none

def ids (rows : List Row) : List Bytes := rows.map Row.m_id

/-- The rows and the mails that have been moved, whose rows are still to be written. -/
structure Filed (s : Mboxd T) : Prop where
  distinct : ∀ id rows, SLASH ∉ id → s.mbox (c.path_mbox_user_db id) = some rows →
    (ids rows).Nodup
  files : ∀ id rows, SLASH ∉ id → s.mbox (c.path_mbox_user_db id) = some rows →
    ∀ m_id ∈ ids rows, s.files.names (c.path_user_mail id m_id) ≠ none
  owed : ∀ t d row mails, s.threads t = .moved d row mails →
    s.files.names (c.path_user_mail d.mbox_id row.m_id) ≠ none
  new : ∀ t d row mails, s.threads t = .moved d row mails →
    ∀ rows, s.mbox (c.path_mbox_user_db d.mbox_id) = some rows → row.m_id ∉ ids rows
  apart : ∀ t t' d row mails d' row' mails', s.threads t = .moved d row mails →
    s.threads t' = .moved d' row' mails' → d.mbox_id = d'.mbox_id → row.m_id = row'.m_id → t = t'

/-- What the threads are at, and what the scanner puts in. -/
structure Placed (s : Mboxd T) : Prop where
  users : ∀ t d, (s.threads t).entry = some d → SLASH ∉ d.mbox_id
  done : ∀ p, (pool s).Has p → Is_Done p
  found : ∀ seen file, s.scanner = .found seen file → Is_Done file

omit [Fintype T] [DecidableEq T] in
theorem Svc.entry {s s' : Mboxd T} {th th' : Thread} (h : Svc c s th s' th') {d : Entry}
    (hd : th'.entry = some d) : th.entry = some d ∨ mbox_id d.path = some d.mbox_id := by
  cases h with
  | no_db hid =>
      obtain rfl := Option.some.inj hd
      exact Or.inr hid
  | parsed hid _ _ =>
      obtain rfl := Option.some.inj hd
      exact Or.inr hid
  | take _ => exact absurd hd (by simp [Thread.entry])
  | leave => exact absurd hd (by simp [Thread.entry])
  | enter => exact absurd hd (by simp [Thread.entry])
  | given_up => exact absurd hd (by simp [Thread.entry])
  | backed _ => exact absurd hd (by simp [Thread.entry])
  | pass => exact absurd hd (by simp [Thread.entry])
  | stop => exact absurd hd (by simp [Thread.entry])
  | _ => exact Or.inl hd

omit [Fintype T] [DecidableEq T] in
/-- A step that keeps the mails that are filed, and after which no thread owes more rows. -/
theorem Filed.frame {s s' : Mboxd T} (hs : Filed c s) (hmbox : s'.mbox = s.mbox)
    (hnames : ∀ id m_id, s.files.names (c.path_user_mail id m_id) ≠ none →
      s'.files.names (c.path_user_mail id m_id) ≠ none)
    (hmoved : ∀ t d row mails, s'.threads t = .moved d row mails →
      s.threads t = .moved d row mails) : Filed c s' where
  distinct id rows hid hrows := hs.distinct id rows hid (hmbox ▸ hrows)
  files id rows hid hrows m_id hm := hnames id m_id (hs.files id rows hid (hmbox ▸ hrows) m_id hm)
  owed t d row mails ht := hnames _ _ (hs.owed t d row mails (hmoved t d row mails ht))
  new t d row mails ht rows hrows :=
    hs.new t d row mails (hmoved t d row mails ht) rows (hmbox ▸ hrows)
  apart t t' d row mails d' row' mails' ht ht' := hs.apart t t' d row mails d' row' mails'
    (hmoved t d row mails ht) (hmoved t' d' row' mails' ht')

omit [Fintype T] in
/-- The others that owe a row, when one thread has come to another place. -/
theorem moved_update {s : Mboxd T} {t : T} {th' : Thread}
    (hnot : ∀ d row mails, th' ≠ .moved d row mails) {u : T} {d : Entry} {row : Row}
    {mails : List Spooled_Mail} (hu : Function.update s.threads t th' u = .moved d row mails) :
    s.threads u = .moved d row mails := by
  by_cases hut : u = t
  · subst hut
    rw [Function.update_self] at hu
    exact absurd hu (hnot d row mails)
  · rw [Function.update_of_ne hut] at hu
    exact hu

omit [Fintype T] in
/-- A mail is moved to a free name of a mailbox. -/
theorem Filed.moved {s : Mboxd T} (hs : Filed c s) {t : T} {d : Entry} {mail : Spooled_Mail}
    {row : Row} {mails : List Spooled_Mail} (hd : SLASH ∉ d.mbox_id) (hrow : row.m_id = mail.m_id)
    (hsrc : s.files.names mail.path_spool_mail ≠ none)
    (hfree : s.files.names (c.path_user_mail d.mbox_id mail.m_id) = none)
    (hspool : ∀ id m_id, SLASH ∉ id → mail.path_spool_mail ≠ c.path_user_mail id m_id)
    (husers : ∀ u d row mails, s.threads u = .moved d row mails → SLASH ∉ d.mbox_id) :
    Filed c { s with
      files := s.files.move mail.path_spool_mail (c.path_user_mail d.mbox_id mail.m_id)
      threads := Function.update s.threads t (.moved d row mails) } := by
  -- what is filed stays, and no other thread and no row has this id
  have hkeep : ∀ id m_id, SLASH ∉ id → s.files.names (c.path_user_mail id m_id) ≠ none →
      (s.files.move mail.path_spool_mail (c.path_user_mail d.mbox_id mail.m_id)).names
        (c.path_user_mail id m_id) ≠ none := by
    intro id m_id hid hsome
    rw [Files.move_names]
    split_ifs with hdst hold
    · exact hsrc
    · exact absurd hold.symm (hspool id m_id hid)
    · exact hsome
  have hcases : ∀ u d' row' mails',
      Function.update s.threads t (.moved d row mails) u = .moved d' row' mails' →
      (u = t ∧ d' = d ∧ row' = row) ∨ s.threads u = .moved d' row' mails' := by
    intro u d' row' mails' hu
    by_cases hut : u = t
    · subst hut
      rw [Function.update_self] at hu
      obtain ⟨rfl, rfl, -⟩ := Thread.moved.inj hu
      exact Or.inl ⟨rfl, rfl, rfl⟩
    · rw [Function.update_of_ne hut] at hu
      exact Or.inr hu
  have hother : ∀ u d' row' mails', s.threads u = .moved d' row' mails' → d.mbox_id = d'.mbox_id →
      row.m_id ≠ row'.m_id := by
    intro u d' row' mails' hu hsame hid
    refine hs.owed u d' row' mails' hu ?_
    rw [← hsame, ← hid, hrow]
    exact hfree
  refine ⟨hs.distinct, ?_, ?_, ?_, ?_⟩
  · exact fun id rows hid hrows m_id hm => hkeep id m_id hid (hs.files id rows hid hrows m_id hm)
  · intro u d' row' mails' hu
    rcases hcases u d' row' mails' hu with ⟨-, rfl, rfl⟩ | hold
    · show (s.files.move _ _).names (c.path_user_mail d'.mbox_id row'.m_id) ≠ none
      rw [hrow, Files.move_names, if_pos rfl]
      exact hsrc
    · exact hkeep _ _ (husers u d' row' mails' hold) (hs.owed u d' row' mails' hold)
  · intro u d' row' mails' hu rows hrows
    rcases hcases u d' row' mails' hu with ⟨-, rfl, rfl⟩ | hold
    · intro hin
      refine hs.files d'.mbox_id rows hd hrows row'.m_id hin ?_
      rw [hrow]
      exact hfree
    · exact hs.new u d' row' mails' hold rows hrows
  · intro u u' d₁ row₁ mails₁ d₂ row₂ mails₂ hu hu' hsame hid
    rcases hcases u d₁ row₁ mails₁ hu with ⟨hut, rfl, rfl⟩ | hold
    · rcases hcases u' d₂ row₂ mails₂ hu' with ⟨hut', -, -⟩ | hold'
      · exact hut.trans hut'.symm
      · exact absurd hid (hother u' d₂ row₂ mails₂ hold' hsame)
    · rcases hcases u' d₂ row₂ mails₂ hu' with ⟨-, rfl, rfl⟩ | hold'
      · exact absurd hid.symm (hother u d₁ row₁ mails₁ hold hsame.symm)
      · exact hs.apart u u' d₁ row₁ mails₁ d₂ row₂ mails₂ hold hold' hsame hid

omit [Fintype T] in
/-- The row of a mail that has been moved is written. -/
theorem Filed.inserted {s : Mboxd T} (hs : Filed c s) {t : T} {d : Entry} {row : Row}
    {mails : List Spooled_Mail} (ht : s.threads t = .moved d row mails) :
    Filed c { s with
      mbox := insert_row s.mbox (c.path_mbox_user_db d.mbox_id) row
      threads := Function.update s.threads t (.reading d mails) } := by
  have hrows : ∀ {id rows}, insert_row s.mbox (c.path_mbox_user_db d.mbox_id) row
      (c.path_mbox_user_db id) = some rows → s.mbox (c.path_mbox_user_db id) = some rows ∨
        (id = d.mbox_id ∧ ∃ old, s.mbox (c.path_mbox_user_db id) = some old ∧
          ids rows = ids old ++ [row.m_id]) := by
    intro id rows h
    unfold insert_row at h
    by_cases hdb : c.path_mbox_user_db id = c.path_mbox_user_db d.mbox_id
    · rw [hdb, Function.update_self] at h
      obtain ⟨old, hold, rfl⟩ := Option.map_eq_some_iff.mp h
      exact Or.inr ⟨path_mbox_user_db_inj c hdb, old, hdb ▸ hold, List.map_append⟩
    · rw [Function.update_of_ne hdb] at h
      exact Or.inl h
  have hold : ∀ {u d' row' mails'}, Function.update s.threads t (.reading d mails) u
      = .moved d' row' mails' → u ≠ t ∧ s.threads u = .moved d' row' mails' := by
    intro u d' row' mails' hu
    refine ⟨fun hut => ?_, moved_update (fun _ _ _ => by simp) hu⟩
    rw [hut, Function.update_self] at hu
    exact absurd hu (by simp)
  refine ⟨?_, ?_, ?_, ?_, ?_⟩
  · intro id rows hid h
    rcases hrows h with hsame | ⟨rfl, old, hmbox, hids⟩
    · exact hs.distinct id rows hid hsame
    · rw [hids]
      refine List.Nodup.append (hs.distinct _ old hid hmbox) (List.nodup_singleton _) ?_
      intro m_id hin heq
      rw [List.mem_singleton.mp heq] at hin
      exact hs.new t d row mails ht old hmbox hin
  · intro id rows hid h m_id hm
    rcases hrows h with hsame | ⟨rfl, old, hmbox, hids⟩
    · exact hs.files id rows hid hsame m_id hm
    · rw [hids] at hm
      rcases List.mem_append.mp hm with hin | hin
      · exact hs.files _ old hid hmbox m_id hin
      · rw [List.mem_singleton.mp hin]
        exact hs.owed t d row mails ht
  · exact fun u d' row' mails' hu => hs.owed u d' row' mails' (hold hu).2
  · intro u d' row' mails' hu rows h
    obtain ⟨hut, hu⟩ := hold hu
    rcases hrows h with hsame | ⟨huser, old, hmbox, hids⟩
    · exact hs.new u d' row' mails' hu rows hsame
    · rw [hids]
      intro hin
      rcases List.mem_append.mp hin with hin | hin
      · exact hs.new u d' row' mails' hu old hmbox hin
      · exact hut (hs.apart u t d' row' mails' d row mails hu ht huser (List.mem_singleton.mp hin))
  · exact fun u u' d₁ row₁ mails₁ d₂ row₂ mails₂ hu hu' =>
      hs.apart u u' d₁ row₁ mails₁ d₂ row₂ mails₂ (hold hu).2 (hold hu').2

end Filing

end Mail_Processor

end Aos
