/-
  Aos.Asir.Sbrs — the sender scores of `SBRS_Loader` and `SBRS_Server`.

  The scores are spread over `n_map` maps.  One loader thread per map reads the
  whole file and keeps its share; the server picks the map of an address when
  it is asked for its score.  The loader shares by the last octet of the
  address, the server by the whole number.

  The maps are B+ trees; what the code relies on is `Finite_Map`.

  Main results:
    • `svc_file` — what one loader thread keeps of a file;
    • `lookup_load` — an address is found where the two shares are the same;
    • `shares_agree_iff` — which lists of records, and which numbers of maps,
      make every loaded address found.
-/
import Aos.Byte

namespace Aos.Sbrs

/-! ## §1. The maps. -/

/-- A finite map from addresses to scores: `insert` leaves a key alone that is
    already present. -/
structure Finite_Map (M : Type) where
  empty : M
  insert : M → Nat → Byte → M
  find : M → Nat → Option Byte
  find_empty : ∀ k, find empty k = none
  find_insert : ∀ m k v k',
    find (insert m k v) k' = if k' = k then some ((find m k).getD v) else find m k'

/-- The map as the list of its entries, the oldest in front. -/
def entries : Finite_Map (List (Nat × Byte)) where
  empty := []
  insert m k v := m ++ [(k, v)]
  find m k := m.lookup k
  find_empty _ := rfl
  find_insert m k v k' := by
    rw [List.lookup_append]
    by_cases hk : k' = k
    · subst hk
      rw [if_pos rfl, List.lookup_cons_self]
      cases m.lookup k' with
      | none => rfl
      | some w => rfl
    · have hne : (k' == k) = false := beq_eq_false_iff_ne.mpr hk
      have hnone : List.lookup k' [(k, v)] = none := by
        rw [List.lookup_cons, hne]
        rfl
      rw [if_neg hk, hnone, Option.or_none]

/-! ## §2. Records. -/

/-- Five bytes of `sbrs.dat`: an address and its score. -/
structure Record where
  a : Byte
  b : Byte
  c : Byte
  d : Byte
  score : Byte
  deriving DecidableEq

def Record.bytes (r : Record) : Bytes := [r.a, r.b, r.c, r.d, r.score]

/-- The address as the loader computes it. -/
def ipv4 (a b c d : Byte) : Nat :=
  (a.toNat * 16777216 + b.toNat * 65536 + c.toNat * 256 + d.toNat) % 2 ^ 32

def Record.ipv4 (r : Record) : Nat := Sbrs.ipv4 r.a r.b r.c r.d

theorem Record.ipv4_eq (r : Record) :
    r.ipv4 = 256 * (r.a.toNat * 65536 + r.b.toNat * 256 + r.c.toNat) + r.d.toNat := by
  have ha := r.a.toNat_lt
  have hb := r.b.toNat_lt
  have hc := r.c.toNat_lt
  have hd := r.d.toNat_lt
  unfold Record.ipv4 Sbrs.ipv4
  omega

/-- The octets of an address can be read off it. -/
theorem Record.d_of_ipv4 (r r' : Record) (h : r.ipv4 = r'.ipv4) : r.d = r'.d := by
  have hd := r.d.toNat_lt
  have hd' := r'.d.toNat_lt
  rw [r.ipv4_eq, r'.ipv4_eq] at h
  apply UInt8.toNat_inj.mp
  omega

/-! ## §3. The loader. -/

def BUF_SIZE : Nat := 20000

variable {M : Type} (F : Finite_Map M)

/-- The `for` loop over one buffer, in the thread of index `idx`. -/
def load_buf (n_map idx : Nat) : M → Bytes → M
  | m, a :: b :: c :: d :: score :: buf =>
      if d.toNat % n_map = idx then load_buf n_map idx (F.insert m (ipv4 a b c d) score) buf
      else load_buf n_map idx m buf
  | m, _ => m

/-- `svc()` with index `idx`: buffer after buffer until the file ends. -/
def svc (n_map idx : Nat) (m : M) (file : Bytes) : M :=
  let buf := file.take BUF_SIZE
  if _hbuf : buf.isEmpty then m
  else svc n_map idx (load_buf F n_map idx m buf) (file.drop BUF_SIZE)
termination_by file.length
decreasing_by
  cases file with
  | nil => exact absurd rfl _hbuf
  | cons b file =>
      rw [List.length_drop, List.length_cons]
      unfold BUF_SIZE
      omega

/-- `start(n_map)` and `wait()`: one thread for each of the `n_map` maps. -/
def load (n_map : Nat) (file : Bytes) : List M :=
  (List.range n_map).map (fun idx => svc F n_map idx F.empty file)

/-! ## §4. The server. -/

/-- `int idx = ipv4 % n_map`. -/
def server_idx (n_map ipv4 : Nat) : Int := toInt (ipv4 % n_map : Nat)

/-- The lookup in `handle_read`: `maps_[idx]->find(ipv4)`; there is no map at an
    index outside the vector. -/
def lookup (maps : List M) (ipv4 : Nat) : Option Byte :=
  let idx := server_idx maps.length ipv4
  if 0 ≤ idx then (maps[idx.toNat]?).bind (F.find · ipv4) else none

/-! ## §5. What a loader keeps. -/

/-- The file that holds the records. -/
def file (records : List Record) : Bytes := records.flatMap Record.bytes

/-- The score stored for an address: that of its first record. -/
def score_of (records : List Record) (ipv4 : Nat) : Option Byte :=
  (records.find? (·.ipv4 = ipv4)).map Record.score

/-- One record in the thread of index `idx`. -/
def keep (n_map idx : Nat) (m : M) (r : Record) : M :=
  if r.d.toNat % n_map = idx then F.insert m r.ipv4 r.score else m

theorem load_buf_records (n_map idx : Nat) (records : List Record) :
    ∀ m, load_buf F n_map idx m (file records) = records.foldl (keep F n_map idx) m := by
  induction records with
  | nil => intro m; rfl
  | cons r records ih =>
      intro m
      show load_buf F n_map idx m (r.a :: r.b :: r.c :: r.d :: r.score :: file records) = _
      rw [load_buf, List.foldl_cons]
      unfold keep
      split
      · exact ih _
      · exact ih _

theorem file_length (records : List Record) : (file records).length = 5 * records.length := by
  induction records with
  | nil => rfl
  | cons r records ih =>
      show (r.bytes ++ file records).length = _
      rw [List.length_append, ih, List.length_cons]
      show 5 + 5 * records.length = _
      omega

theorem file_append (A B : List Record) : file (A ++ B) = file A ++ file B :=
  List.flatMap_append

/-- A buffer holds a whole number of records. -/
theorem file_cut (records : List Record) :
    (file records).take BUF_SIZE = file (records.take 4000) ∧
    (file records).drop BUF_SIZE = file (records.drop 4000) := by
  have hsplit : file records = file (records.take 4000) ++ file (records.drop 4000) := by
    rw [← file_append, List.take_append_drop]
  by_cases hlen : records.length ≤ 4000
  · have hbytes := file_length records
    rw [List.take_of_length_le hlen, List.drop_of_length_le hlen]
    refine ⟨List.take_of_length_le ?_, List.drop_of_length_le ?_⟩
    · unfold BUF_SIZE
      omega
    · unfold BUF_SIZE
      omega
  · have hbytes : (file (records.take 4000)).length = BUF_SIZE := by
      rw [file_length, List.length_take]
      unfold BUF_SIZE
      omega
    rw [hsplit]
    exact ⟨List.take_left' hbytes, List.drop_left' hbytes⟩

/-- **A loader thread inserts the records of its share, in the order of the file.** -/
theorem svc_file (n_map idx : Nat) (records : List Record) :
    ∀ m, svc F n_map idx m (file records) = records.foldl (keep F n_map idx) m := by
  induction hn : records.length using Nat.strong_induction_on generalizing records with
  | _ n ih =>
      subst hn
      intro m
      obtain ⟨htake, hdrop⟩ := file_cut records
      have hlen := file_length (records.take 4000)
      rw [List.length_take] at hlen
      rw [svc]
      by_cases hempty : records = []
      · subst hempty
        exact dif_pos rfl
      · have hpos : 0 < records.length := List.length_pos_iff.mpr hempty
        have hlt : (records.drop 4000).length < records.length := by
          rw [List.length_drop]
          omega
        have hbuf : ¬ ((file records).take BUF_SIZE).isEmpty := by
          rw [htake, List.isEmpty_iff, ← List.length_eq_zero_iff, hlen]
          omega
        rw [dif_neg hbuf, htake, hdrop, load_buf_records, ih _ hlt (records.drop 4000) rfl,
          ← List.foldl_append, List.take_append_drop]

/-- The score of an address in the map of a thread. -/
theorem find_keep (n_map idx : Nat) (ip : Nat) (records : List Record) :
    ∀ m, F.find (records.foldl (keep F n_map idx) m) ip
      = (F.find m ip).or
          ((records.find? (fun r => r.ipv4 = ip ∧ r.d.toNat % n_map = idx)).map Record.score) := by
  induction records with
  | nil => intro m; simp
  | cons r records ih =>
      intro m
      rw [List.foldl_cons, ih]
      unfold keep
      by_cases hd : r.d.toNat % n_map = idx
      · rw [if_pos hd, F.find_insert]
        by_cases hip : r.ipv4 = ip
        · -- the first record of the address stays
          rw [if_pos hip.symm, List.find?_cons_of_pos (by simp [hip, hd]), Option.map_some, hip]
          cases F.find m ip with
          | none => rw [Option.some_or, Option.none_or, Option.getD_none]
          | some w => rw [Option.some_or, Option.some_or, Option.getD_some]
        · rw [if_neg (fun h => hip h.symm), List.find?_cons_of_neg (by simp [hip])]
      · rw [if_neg hd, List.find?_cons_of_neg (by simp [hd])]

/-! ## §6. The two shares. -/

/-- The records of one address are all in one share. -/
theorem find_share (n_map idx : Nat) (ip : Nat) (records : List Record) (r : Record)
    (hip : r.ipv4 = ip) :
    (records.find? (fun r => r.ipv4 = ip ∧ r.d.toNat % n_map = idx)).map Record.score
      = if r.d.toNat % n_map = idx then score_of records ip else none := by
  unfold score_of
  by_cases hidx : r.d.toNat % n_map = idx
  · rw [if_pos hidx]
    congr 1
    apply congrArg (records.find? ·)
    funext r'
    -- an equal address has the same last octet
    have hsame : r'.ipv4 = ip → r'.d.toNat % n_map = idx := by
      intro h
      rw [Record.d_of_ipv4 r' r (h.trans hip.symm)]
      exact hidx
    by_cases h : r'.ipv4 = ip
    · simp [h, hsame h]
    · simp [h]
  · have hnone : records.find? (fun r => r.ipv4 = ip ∧ r.d.toNat % n_map = idx) = none := by
      rw [List.find?_eq_none]
      intro r' _
      rw [decide_eq_true_eq]
      intro hboth
      apply hidx
      rw [Record.d_of_ipv4 r r' (hip.trans hboth.1.symm)]
      exact hboth.2
    rw [if_neg hidx, hnone]
    rfl

theorem score_of_isSome (records : List Record) (r : Record) (hr : r ∈ records) :
    ∃ v, score_of records r.ipv4 = some v := by
  have hsome : (records.find? (fun r' => decide (r'.ipv4 = r.ipv4))).isSome := by
    rw [List.find?_isSome]
    exact ⟨r, hr, decide_eq_true rfl⟩
  obtain ⟨r', hr'⟩ := Option.isSome_iff_exists.mp hsome
  refine ⟨r'.score, ?_⟩
  unfold score_of
  rw [hr']
  rfl

/-- **The server finds a loaded address exactly when the two shares are the same.** -/
theorem lookup_load (n_map : Nat) (hn : 0 < n_map) (records : List Record) (r : Record)
    (hr : r ∈ records) :
    lookup F (load F n_map (file records)) r.ipv4 = score_of records r.ipv4
      ↔ r.ipv4 % n_map = r.d.toNat % n_map := by
  obtain ⟨v, hv⟩ := score_of_isSome records r hr
  have hd := r.d.toNat_lt
  have hlt : r.d.toNat % n_map < n_map := Nat.mod_lt _ hn
  have hle : r.d.toNat % n_map ≤ r.d.toNat := Nat.mod_le _ _
  have hlen : (load F n_map (file records)).length = n_map := by simp [load]
  -- what the map of a share says about the address
  have hshare : ∀ idx, F.find (svc F n_map idx F.empty (file records)) r.ipv4
      = if r.d.toNat % n_map = idx then score_of records r.ipv4 else none := by
    intro idx
    rw [svc_file, find_keep, F.find_empty, Option.none_or,
      find_share n_map idx r.ipv4 records r rfl]
  unfold lookup
  show (if 0 ≤ server_idx (load F n_map (file records)).length r.ipv4 then _ else none) = _ ↔ _
  rw [hlen]
  constructor
  · intro hfound
    rw [hv] at hfound
    by_cases h0 : 0 ≤ server_idx n_map r.ipv4
    · rw [if_pos h0] at hfound
      obtain ⟨m, hm, hfind⟩ := Option.bind_eq_some_iff.mp hfound
      unfold load at hm
      rw [List.getElem?_map, Option.map_eq_some_iff] at hm
      obtain ⟨idx, hidx, rfl⟩ := hm
      obtain ⟨hlt', hget⟩ := List.getElem?_eq_some_iff.mp hidx
      rw [List.getElem_range] at hget
      rw [hshare] at hfind
      by_cases heq : r.d.toNat % n_map = idx
      · -- the index that was narrowed to `int` is an octet, so nothing was cut off
        unfold server_idx toInt at hget h0
        rw [Int.bmod_def] at hget h0
        have hbound : r.ipv4 < 2 ^ 32 := Nat.mod_lt _ (by omega)
        have hmod : r.ipv4 % n_map ≤ r.ipv4 := Nat.mod_le _ _
        omega
      · rw [if_neg heq] at hfind
        exact absurd hfind (by simp)
    · rw [if_neg h0] at hfound
      exact absurd hfound (by simp)
  · intro hsame
    have hidx : server_idx n_map r.ipv4 = (r.d.toNat % n_map : Nat) := by
      unfold server_idx
      rw [hsame, toInt_of_lt (by omega) (by omega)]
    rw [hidx, if_pos (by omega), Int.toNat_natCast]
    unfold load
    rw [List.getElem?_map, List.getElem?_range hlt, Option.map_some, Option.bind_some, hshare,
      if_pos rfl]

theorem shares_same_iff (n_map : Nat) (r : Record) :
    r.ipv4 % n_map = r.d.toNat % n_map
      ↔ n_map ∣ 256 * (r.a.toNat * 65536 + r.b.toNat * 256 + r.c.toNat) := by
  rw [r.ipv4_eq]
  constructor
  · intro h
    have hle : r.d.toNat ≤ 256 * (r.a.toNat * 65536 + r.b.toNat * 256 + r.c.toNat) + r.d.toNat :=
      Nat.le_add_left _ _
    have hdvd := (Nat.modEq_iff_dvd' hle).mp h.symm
    rwa [Nat.add_sub_cancel] at hdvd
  · intro h
    obtain ⟨q, hq⟩ := h
    rw [hq, Nat.add_comm, Nat.add_mul_mod_self_left]

/-- **When loader and server agree.**  For every number of maps and every list
    of records, every loaded address is found with its score exactly when the
    number of maps divides what the addresses are without their last octets;
    it does so for every list exactly when it divides 256. -/
theorem shares_agree_iff (n_map : Nat) (hn : 0 < n_map) :
    (∀ records : List Record,
      (∀ r ∈ records,
        lookup F (load F n_map (file records)) r.ipv4 = score_of records r.ipv4)
        ↔ ∀ r ∈ records, n_map ∣ 256 * (r.a.toNat * 65536 + r.b.toNat * 256 + r.c.toNat)) ∧
    ((∀ records : List Record, ∀ r ∈ records,
        lookup F (load F n_map (file records)) r.ipv4 = score_of records r.ipv4)
      ↔ n_map ∣ 256) := by
  have hone : ∀ records : List Record, ∀ r ∈ records,
      (lookup F (load F n_map (file records)) r.ipv4 = score_of records r.ipv4
        ↔ n_map ∣ 256 * (r.a.toNat * 65536 + r.b.toNat * 256 + r.c.toNat)) := by
    intro records r hr
    rw [lookup_load F n_map hn records r hr, shares_same_iff]
  refine ⟨?_, ?_⟩
  · intro records
    constructor
    · intro hall r hr
      exact (hone records r hr).mp (hall r hr)
    · intro hall r hr
      exact (hone records r hr).mpr (hall r hr)
  · constructor
    · intro hall
      -- the address 0.0.1.0
      exact (hone [⟨0, 0, 1, 0, 0⟩] _ List.mem_cons_self).mp (hall _ _ List.mem_cons_self)
    · intro hdvd records r hr
      exact (hone records r hr).mpr (hdvd.mul_right _)

/-- Four maps, with the entries kept as lists. -/
theorem shares_agree_four :
    (∀ records : List Record,
      (∀ r ∈ records,
        lookup entries (load entries 4 (file records)) r.ipv4 = score_of records r.ipv4)
        ↔ ∀ r ∈ records, 4 ∣ 256 * (r.a.toNat * 65536 + r.b.toNat * 256 + r.c.toNat)) ∧
    ((∀ records : List Record, ∀ r ∈ records,
        lookup entries (load entries 4 (file records)) r.ipv4 = score_of records r.ipv4)
      ↔ 4 ∣ 256) :=
  shares_agree_iff entries 4 (by decide)

/-- Three maps and the one record 10.0.0.1: it is loaded and not found. -/
theorem shares_differ_three :
    ¬ (lookup entries (load entries 3 (file [⟨10, 0, 0, 1, 200⟩])) (ipv4 10 0 0 1)
      = score_of [⟨10, 0, 0, 1, 200⟩] (ipv4 10 0 0 1)) := by
  unfold load
  simp only [svc_file]
  decide

end Aos.Sbrs
