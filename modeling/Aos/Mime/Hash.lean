/-
  Aos.Mime.Hash — `MIME_Analyzer::get_hash`, the hash of a message.

  The value goes through the tree: an entity without children feeds its body,
  any other one its children in order.  Preambles and epilogues are not fed, nor
  is the body of an entity that has children.

  Main results:
    • `get_hash_eq` — the hash of a message is that of its bodies, one behind the
      other;
    • `get_hash_fnv_1a_iff` — the message hash and the hash objects.
-/
import Aos.Hash.FNV
import Aos.Mime.Entity

namespace Aos

open hash hash.FNV_1a Lib.Digest

namespace MIME_Analyzer

/-! ## §1. `hash`, `get_hash`. -/

mutual

def hash : MIME_Entity → UInt32 → UInt32
  | ⟨_, _, body_, _, child_, _, _, _⟩, hash_val =>
      if child_.isEmpty then (call_str octet_32 ⟨hash_val⟩ (body_.getD [])).2
      else hash_child child_ hash_val

/-- The loop over `e.child()`. -/
def hash_child : List MIME_Entity → UInt32 → UInt32
  | [], hash_val => hash_val
  | it :: child, hash_val => hash_child child (hash it hash_val)

end

def get_hash (e : MIME_Entity) : UInt32 := hash e INIT_32

mutual

/-- The bodies that are fed, in the order they are. -/
def bodies : MIME_Entity → List Bytes
  | ⟨_, _, body_, _, child_, _, _, _⟩ =>
      if child_.isEmpty then [body_.getD []] else child_bodies child_

def child_bodies : List MIME_Entity → List Bytes
  | [] => []
  | it :: child => bodies it ++ child_bodies child

end

/-! ## §2. What is hashed. -/

theorem hash_child_eq (child : List MIME_Entity)
    (h : ∀ e ∈ child, ∀ hash_val, hash e hash_val = (bodies e).flatten.foldl octet_32 hash_val)
    (hash_val : UInt32) :
    hash_child child hash_val = (child_bodies child).flatten.foldl octet_32 hash_val := by
  induction child generalizing hash_val with
  | nil => rfl
  | cons it child ih =>
      rw [hash_child, child_bodies, List.flatten_append, List.foldl_append,
        h it List.mem_cons_self, ih fun e he => h e (List.mem_cons_of_mem it he)]

/-- The induction is over the tree: what is handed on is the value so far. -/
theorem hash_eq (e : MIME_Entity) :
    ∀ hash_val, hash e hash_val = (bodies e).flatten.foldl octet_32 hash_val := by
  induction e using MIME_Entity.induct with
  | h e ih =>
      intro hash_val
      obtain ⟨header_, preamble_, body_, epilogue_, child_, status_, pstate_, separator_⟩ := e
      rw [hash, bodies]
      split_ifs with hempty
      · rw [List.flatten_singleton]
        rfl
      · exact hash_child_eq child_ ih hash_val

/-- **The hash of a message.** -/
theorem get_hash_eq (e : MIME_Entity) :
    (get_hash e).toNat = fnv_1a 32 FNV_32_PRIME INIT_32.toNat (bodies e).flatten := by
  unfold get_hash
  rw [hash_eq]
  exact fnv_1a_of_step UInt32.toNat octet_32 octet_32_spec INIT_32 _

/-! ## §3. The hash objects. -/

/-- **Message hash and hash objects.**  For every message, every pair of hash objects, every
    list of pieces and every vector: the hashes are those of the textbook, of the
    concatenation, exactly when the length of the vector is an `unsigned int`. -/
theorem get_hash_fnv_1a_iff (e : MIME_Entity) (fnv32 : FNV_1a UInt32) (fnv64 : FNV_1a UInt64)
    (pieces _vector : List Bytes) :
    ((get_hash e).toNat = fnv_1a 32 FNV_32_PRIME INIT_32.toNat (bodies e).flatten ∧
      ((calls octet_32 fnv32 pieces).1._M_offset = (calls octet_32 fnv32 pieces).2 ∧
        (calls octet_32 fnv32 pieces).2.toNat =
          fnv_1a 32 FNV_32_PRIME fnv32._M_offset.toNat pieces.flatten) ∧
      ((calls octet_64 fnv64 pieces).1._M_offset = (calls octet_64 fnv64 pieces).2 ∧
        (calls octet_64 fnv64 pieces).2.toNat =
          fnv_1a 64 FNV_64_PRIME fnv64._M_offset.toNat pieces.flatten) ∧
      (∃ r, Call_Vector octet_32 fnv32 _vector r ∧ r.1._M_offset = r.2 ∧
        r.2.toNat = fnv_1a 32 FNV_32_PRIME fnv32._M_offset.toNat _vector.flatten) ∧
      ∃ r, Call_Vector octet_64 fnv64 _vector r ∧ r.1._M_offset = r.2 ∧
        r.2.toNat = fnv_1a 64 FNV_64_PRIME fnv64._M_offset.toNat _vector.flatten) ↔
      _vector.length < 2 ^ 32 := by
  have hvector32 := call_vector_iff octet_32_spec fnv32 _vector
  have hvector64 := call_vector_iff octet_64_spec fnv64 _vector
  constructor
  -- only the vector asks for something
  · rintro ⟨_, _, _, h32, _⟩
    exact hvector32.mp h32
  · intro hshort
    exact ⟨get_hash_eq e, calls_spec octet_32_spec fnv32 pieces,
      calls_spec octet_64_spec fnv64 pieces, hvector32.mpr hshort, hvector64.mpr hshort⟩

/-- A vector of 2³² empty buffers: the counter comes back to 0 in front of its end. -/
theorem call_vector_never_returns :
    ¬ ∃ r, Call_Vector octet_32 ⟨INIT_32⟩ (List.replicate (2 ^ 32) []) r := by
  rintro ⟨r, hends, _⟩
  refine pieces_never octet_32 _ ?_ _ _ hends
  rw [List.length_replicate]

end MIME_Analyzer

end Aos
