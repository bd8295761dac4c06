import Sahyadri.Lib.Bytes
import Sahyadri.Lib.Outcome

/-!
# `crypto/smt`: 32-byte hashes as Goldilocks elements, and the hashes of nodes and keys

The Poseidon2 sponge is third-party code. It is the parameter `Sponge`: any function from sequences
of field elements to four of them. What this crate does around it is here:

* `bytesToGoldilocks`, `goldilocksToBytes`: eight bytes per element, little-endian. Reading reduces
  modulo the Goldilocks prime, so two byte strings can read as the same elements
  (`bytesToGoldilocks_eq_iff`); writing does not lose anything
  (`bytesToGoldilocks_goldilocksToBytes`).
-/

namespace Sahyadri.Smt

open Lib List

/-! ## 1. Hashes and field elements -/

/-- `H256`: 32 bytes. -/
structure H256 where
  bytes : Bytes
  length_eq : bytes.length = 32
  deriving DecidableEq, Repr

theorem H256.ext {a b : H256} (h : a.bytes = b.bytes) : a = b := by
  cases a
  cases b
  cases h
  rfl

/-- `EMPTY`: the root of an empty tree. -/
def H256.empty : H256 := ⟨List.replicate 32 0, by decide⟩

/-- The Goldilocks prime `2^64 - 2^32 + 1`. -/
def goldilocksPrime : Nat := 18446744069414584321

theorem goldilocksPrime_pos : 0 < goldilocksPrime := by decide

/-- A field element by its canonical value. -/
abbrev Goldilocks := Fin goldilocksPrime

def Goldilocks.fromU64 (n : Nat) : Goldilocks :=
  ⟨n % goldilocksPrime, Nat.mod_lt _ goldilocksPrime_pos⟩

/-- What the sponge returns: four field elements. -/
structure Digest where
  limbs : List Goldilocks
  length_eq : limbs.length = 4
  deriving DecidableEq

/-- The Poseidon2 sponge. -/
abbrev Sponge := List Goldilocks → Digest

def Digest.zero : Digest := ⟨List.replicate 4 (Goldilocks.fromU64 0), by decide⟩

variable (bytes : Bytes)

/-- The `i`-th eight bytes of a byte string as a number. -/
def limb (i : Nat) : Nat := ofLe ((bytes.drop (8 * i)).take 8)

/-- `bytes_to_goldilocks`: 32 bytes as four field elements. -/
def bytesToGoldilocks : List Goldilocks :=
  (List.range 4).map fun i => Goldilocks.fromU64 (limb bytes i)

def limbBytes (limbs : List Nat) : Bytes := limbs.flatMap (leBytes 8)

theorem length_limbBytes (limbs : List Nat) : (limbBytes limbs).length = 8 * limbs.length := by
  induction limbs with
  | nil => rfl
  | cons n ns ih =>
    rw [limbBytes, flatMap_cons, length_append, length_leBytes]
    rw [limbBytes] at ih
    rw [ih, length_cons]
    omega

theorem limb_limbBytes {limbs : List Nat} (hlt : ∀ n ∈ limbs, n < 256 ^ 8) {i : Nat}
    (hi : i < limbs.length) : limb (limbBytes limbs) i = limbs[i] := by
  induction limbs generalizing i with
  | nil => simp at hi
  | cons n ns ih =>
    obtain ⟨hn, hns⟩ := forall_mem_cons.mp hlt
    cases i with
    | zero =>
      have : (limbBytes (n :: ns)).take 8 = leBytes 8 n := by
        rw [limbBytes, flatMap_cons, take_append_of_le_length (by simp),
          take_of_length_le (by simp)]
      simp [limb, this, ofLe_leBytes_of_lt hn]
    | succ i =>
      have hi' : i < ns.length := by simpa using hi
      rw [getElem_cons_succ, ← ih hns hi', limb, limb]
      have : (limbBytes (n :: ns)).drop (8 * (i + 1)) = (limbBytes ns).drop (8 * i) := by
        rw [limbBytes, flatMap_cons, drop_append]
        have h1 : (leBytes 8 n).drop (8 * (i + 1)) = [] := drop_eq_nil_of_le (by simp)
        rw [h1, nil_append, length_leBytes]
        congr 1
      rw [this]

theorem limb_lt (i : Nat) : limb bytes i < 2 ^ 64 := by
  refine lt_of_lt_of_le (ofLe_lt _) ?_
  calc 256 ^ ((bytes.drop (8 * i)).take 8).length ≤ 256 ^ 8 :=
        Nat.pow_le_pow_right (by decide) (by rw [length_take]; omega)
    _ = 2 ^ 64 := by decide

theorem limbBytes_limb {n : Nat} : ∀ (bytes : Bytes), bytes.length = 8 * n →
    limbBytes ((List.range n).map (limb bytes)) = bytes := by
  induction n with
  | zero =>
    intro bytes h
    rw [eq_nil_of_length_eq_zero h]
    rfl
  | succ n ih =>
    intro bytes h
    have htake : leBytes 8 (limb bytes 0) = bytes.take 8 := by
      have h8 : (bytes.take 8).length = 8 := by rw [length_take]; omega
      have := leBytes_ofLe (bytes.take 8)
      rwa [h8] at this
    have hrest := ih (bytes.drop 8) (by rw [length_drop]; omega)
    have hmap : (range n).map (limb (bytes.drop 8)) = (range n).map (limb bytes ∘ Nat.succ) := by
      refine map_congr_left fun i _ => ?_
      simp only [limb, drop_drop, Function.comp]
      rw [show 8 + 8 * i = 8 * i.succ by omega]
    rw [range_succ_eq_map, map_cons, map_map, ← hmap, limbBytes,
      flatMap_cons, htake, ← limbBytes, hrest, take_append_drop]

theorem H256.eq_of_limbs {a b : H256} (h : ∀ i < 4, limb a.bytes i = limb b.bytes i) : a = b := by
  apply H256.ext
  rw [← limbBytes_limb (n := 4) _ a.length_eq, ← limbBytes_limb (n := 4) _ b.length_eq]
  exact congrArg limbBytes (map_congr_left fun i hi => h i (mem_range.mp hi))

/-- `goldilocks_to_bytes`: four field elements as 32 bytes. -/
def goldilocksToBytes (d : Digest) : H256 :=
  ⟨limbBytes (d.limbs.map (·.val)), by rw [length_limbBytes, length_map, d.length_eq]⟩

@[simp] theorem length_bytesToGoldilocks : (bytesToGoldilocks bytes).length = 4 := by
  simp [bytesToGoldilocks]

/-- Two byte strings read as the same elements exactly when their limbs are congruent. -/
theorem bytesToGoldilocks_eq_iff {a b : Bytes} : bytesToGoldilocks a = bytesToGoldilocks b ↔
      ∀ i < 4, limb a i % goldilocksPrime = limb b i % goldilocksPrime := by
  rw [bytesToGoldilocks, bytesToGoldilocks, map_inj_left]
  constructor
  · intro h i hi
    exact congrArg Fin.val (h i (mem_range.mpr hi))
  · intro h i hi
    exact Fin.ext (h i (mem_range.mp hi))

theorem bytesToGoldilocks_goldilocksToBytes (d : Digest) :
    bytesToGoldilocks (goldilocksToBytes d).bytes = d.limbs := by
  apply ext_getElem (by simp [d.length_eq])
  intro i h1 h2
  have hlt : ∀ n ∈ d.limbs.map (·.val), n < 256 ^ 8 := by
    intro n hn
    obtain ⟨f, _, rfl⟩ := mem_map.mp hn
    exact lt_of_lt_of_le f.isLt (by decide)
  have hval := limb_limbBytes hlt (by rw [length_map]; exact h2)
  rw [getElem_map] at hval
  apply Fin.ext
  simp only [bytesToGoldilocks, getElem_map, getElem_range, Goldilocks.fromU64]
  rw [goldilocksToBytes, hval, Nat.mod_eq_of_lt (d.limbs[i]).isLt]

theorem goldilocksToBytes_inj {d e : Digest} (h : goldilocksToBytes d = goldilocksToBytes e) :
    d = e := by
  have := congrArg (fun x => bytesToGoldilocks x.bytes) h
  simp only [bytesToGoldilocks_goldilocksToBytes] at this
  cases d
  cases e
  cases this
  rfl

theorem goldilocksToBytes_zero : goldilocksToBytes .zero = .empty := by decide

/-- A digest is written as `EMPTY` only when it is zero. -/
theorem goldilocksToBytes_eq_empty {d : Digest} : goldilocksToBytes d = .empty ↔ d = .zero := by
  rw [← goldilocksToBytes_zero]
  exact ⟨goldilocksToBytes_inj, fun h => h ▸ rfl⟩

/-! ## 2. Domains and hashed sequences -/

open Goldilocks

def ascii (s : String) : Bytes := s.toUTF8.data.toList

/-- `domain_from_bytes`: at most 32 bytes, padded with zeros. -/
def domainFromBytes (bytes : Bytes) : List Goldilocks :=
  bytesToGoldilocks (bytes.take 32 ++ List.replicate (32 - min bytes.length 32) 0)

def leafDomain : List Goldilocks := domainFromBytes (ascii "SAHYADRI_SMT_LEAF_V1")

def branchDomain : List Goldilocks := domainFromBytes (ascii "SAHYADRI_SMT_BRANCH_V1")

def keyDomain : List Goldilocks := domainFromBytes (ascii "SAHYADRI_SMT_KEY_V1")

@[simp] theorem length_leafDomain : leafDomain.length = 4 := length_bytesToGoldilocks _

@[simp] theorem length_branchDomain : branchDomain.length = 4 := length_bytesToGoldilocks _

def leafSeq (key value : H256) : List Goldilocks :=
  leafDomain ++ bytesToGoldilocks key.bytes ++ bytesToGoldilocks value.bytes

def branchSeq (left right : H256) : List Goldilocks :=
  branchDomain ++ bytesToGoldilocks left.bytes ++ bytesToGoldilocks right.bytes

theorem seq_inj {domain : List Goldilocks}
    {a b a' b' : H256} (h : domain ++ bytesToGoldilocks a.bytes ++ bytesToGoldilocks
      b.bytes = domain ++ bytesToGoldilocks a'.bytes ++ bytesToGoldilocks b'.bytes) :
    bytesToGoldilocks a.bytes = bytesToGoldilocks a'.bytes ∧
    bytesToGoldilocks b.bytes = bytesToGoldilocks b'.bytes := by
  obtain ⟨h1, h2⟩ := append_inj h (by simp)
  exact ⟨(append_inj h1 rfl).2, h2⟩

theorem leafSeq_ne_branchSeq (k v l r : H256) : leafSeq k v ≠ branchSeq l r := by
  intro h
  obtain ⟨h1, _⟩ := append_inj h (by simp)
  exact absurd (append_inj h1 (by simp)).1 (by decide)

def hashLeaf (σ : Sponge) (key value : H256) : H256 := goldilocksToBytes (σ (leafSeq key value))

def hashBranch (σ : Sponge) (left right : H256) : H256 :=
  goldilocksToBytes (σ (branchSeq left right))

/-! ## 3. Keys -/

/-- The padding of `hash_key`: zeros up to a multiple of 32 bytes, and at least one chunk. -/
def padKey (data : Bytes) : Bytes :=
  let padded := data ++ List.replicate ((32 - data.length % 32) % 32) 0
  if padded.isEmpty then List.replicate 32 0 else padded

/-- The elements hashed for a key: the domain, then each 32-byte chunk. -/
def keySeq (data : Bytes) : List Goldilocks :=
  let padded := padKey data
  keyDomain ++ (List.range (padded.length / 32)).flatMap fun i =>
    bytesToGoldilocks ((padded.drop (32 * i)).take 32)

def hashKey (σ : Sponge) (data : Bytes) : H256 := goldilocksToBytes (σ (keySeq data))

/-- `bit`: the bit of `key` at position `i` from the left; the byte access panics past the end. -/
def bit {ε : Type} (key : H256) (i : Nat) : Run ε UInt8 :=
  match key.bytes[i / 8]? with
  | some b => .ok ((b >>> UInt8.ofNat (7 - i % 8)) &&& 1)
  | none => .panicked

/-! ## 4. A sponge that can be run

The theorems hold for any sponge. Where one of them is tried on a concrete input, the sponge is
this polynomial in the elements. -/

/-- A polynomial of the elements in the first place, zeros in the others. -/
def polySponge : Sponge := fun seq =>
  ⟨[fromU64 (seq.foldl (fun h x => (h * 65537 + x.val + 1) % goldilocksPrime) 1),
    fromU64 0, fromU64 0, fromU64 0], rfl⟩

/-- The 32 little-endian bytes of a number. -/
def H256.ofNat (n : Nat) : H256 := ⟨leBytes 32 n, length_leBytes 32 n⟩

end Sahyadri.Smt
