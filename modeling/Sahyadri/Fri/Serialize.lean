import Sahyadri.Lib.Bytes
import Sahyadri.Lib.Encoding

/-!
# FRI proofs and their bytes: `proof_to_bytes` and `proof_from_bytes`

* `proof_bytes_canonical`: a byte string is decoded to a proof exactly when it is the encoding of
  it.
-/

namespace Sahyadri.Fri

open Lib List

/-! ## 1. The code -/

/-- `BinaryField128`, by its payload. -/
abbrev Block128 := BitVec 128

def blkToLeBytes (x : Block128) : Bytes := leBytes 16 x.toNat

/-- `block_from_bytes`, on 16 bytes. -/
def blockFromBytes (b : Bytes) : Block128 := .ofNat 128 (ofLe b)

inductive FriBiniusError where
  | invalidParams (msg : String)
  | commitmentMismatch
  | query (query : Nat) (msg : String)
  | verification (msg : String)
  | malformedProof (msg : String)
  deriving DecidableEq, Repr

structure FriRoundCommitment where
  root : Block128
  logLen : Nat

structure FriQueryProof where
  index0 : UInt64
  pairs : List (Block128 × Block128)
  paths : List (List Block128)

structure FriProof where
  rounds : List FriRoundCommitment
  finalPoly : List Block128
  queries : List FriQueryProof
  powNonce : UInt64

/-- A list with its length as a `u32` in front. -/
def counted {α : Type} (enc : α → Bytes) (l : List α) : Bytes := leBytes 4 l.length ++ l.flatMap enc

def roundToBytes (r : FriRoundCommitment) : Bytes := blkToLeBytes r.root ++ leBytes 4 r.logLen

def pairToBytes (pair : Block128 × Block128) : Bytes := blkToLeBytes pair.1 ++ blkToLeBytes pair.2

def queryToBytes (q : FriQueryProof) : Bytes :=
  u64Le q.index0 ++ (counted pairToBytes q.pairs ++ counted (counted blkToLeBytes) q.paths)

def proofToBytes (p : FriProof) : Bytes :=
  counted roundToBytes p.rounds ++ (counted blkToLeBytes p.finalPoly ++
    (counted queryToBytes p.queries ++ u64Le p.powNonce))

abbrev Cursor := Reader UInt8 FriBiniusError

def take (n : Nat) : Cursor Bytes := fun c =>
  if c.length < n then .error (.malformedProof s!"truncated: want {n}, have {c.length}")
  else .ok (c.take n, c.drop n)

def readU32 : Cursor Nat := ofLe <$> take 4

def readU64 : Cursor UInt64 := ofU64Le <$> take 8

def readBlock : Cursor Block128 := blockFromBytes <$> take 16

def readCounted {α : Type} (read : Cursor α) : Cursor (List α) := readU32 >>= readMany read

def readRound : Cursor FriRoundCommitment := do
  let root ← readBlock
  let logLen ← readU32
  return ⟨root, logLen⟩

def readPair : Cursor (Block128 × Block128) := do
  let a ← readBlock
  let b ← readBlock
  return (a, b)

def readQuery : Cursor FriQueryProof := do
  let index0 ← readU64
  let pairs ← readCounted readPair
  let paths ← readCounted (readCounted readBlock)
  return ⟨index0, pairs, paths⟩

/-- `proof_from_bytes` up to the check for trailing bytes. -/
def readProof : Cursor FriProof := do
  let rounds ← readCounted readRound
  let finalPoly ← readCounted readBlock
  let queries ← readCounted readQuery
  let powNonce ← readU64
  return ⟨rounds, finalPoly, queries, powNonce⟩

def proofFromBytes (bytes : Bytes) : Except FriBiniusError FriProof := do
  let (p, cur) ← readProof bytes
  if cur.isEmpty then return p else throw (.malformedProof s!"{cur.length} trailing bytes")

/-! ## 2. Reading what was written -/

theorem reads_take (n : Nat) : Reads (take n) id (·.length = n) := by
  intro c b rest
  unfold take
  split
  · rename_i hlt
    refine iff_of_false (fun h => by cases h) ?_
    rintro ⟨hc, rfl⟩
    rw [hc, id, length_append] at hlt
    omega
  · rename_i hlt
    rw [Except.ok.injEq, Prod.mk.injEq]
    constructor
    · rintro ⟨rfl, rfl⟩
      exact ⟨(take_append_drop n c).symm, length_take_of_le (Nat.le_of_not_lt hlt)⟩
    · rintro ⟨rfl, rfl⟩
      exact ⟨take_left, drop_left⟩

theorem reads_u32 : Reads readU32 (leBytes 4) (· < 2 ^ 32) :=
  (reads_take 4).convert (fun b hb => ⟨(ofLe_lt b).trans_eq (hb ▸ rfl), hb ▸ leBytes_ofLe b⟩)
    (fun _ hn => ⟨length_leBytes 4 _, ofLe_leBytes_of_lt hn⟩) fun _ => rfl

theorem reads_u64 : Reads readU64 u64Le fun _ => True :=
  (reads_take 8).convert (fun _ hb => ⟨trivial, u64Le_ofU64Le hb⟩)
    (fun x _ => ⟨length_u64Le x, ofU64Le_u64Le x⟩) fun _ => rfl

theorem reads_block : Reads readBlock blkToLeBytes fun _ => True := by
  refine (reads_take 16).convert (g := blkToLeBytes) (fun b hb => ⟨trivial, ?_⟩)
    (fun x _ => ⟨length_leBytes 16 _, ?_⟩) fun _ => rfl
  · have hlt := ofLe_lt b
    rw [hb] at hlt
    rw [blkToLeBytes, blockFromBytes, BitVec.toNat_ofNat, Nat.mod_eq_of_lt (by omega), ← hb,
      leBytes_ofLe]
  · rw [blockFromBytes, blkToLeBytes, ofLe_leBytes_of_lt x.isLt, BitVec.ofNat_toNat,
      BitVec.setWidth_eq]

theorem reads_counted {α : Type} {read : Cursor α} {enc : α → Bytes} {P : α → Prop}
    (h : Reads read enc P) : Reads (readCounted read) (counted enc) fun l => l.length < 2 ^ 32 ∧
      ∀ a ∈ l, P a := h.counted reads_u32

theorem reads_round : Reads readRound roundToBytes fun r => r.logLen < 2 ^ 32 := by
  rintro c ⟨root, logLen⟩ rest
  simp [readRound, reads_block.bind, reads_u32.map, roundToBytes]

theorem reads_pair : Reads readPair pairToBytes fun _ => True := by
  rintro c ⟨a, b⟩ rest
  simp [readPair, reads_block.bind, reads_block.map, pairToBytes]

/-- The lengths of a query proof fit into a `u32`. -/
def FriQueryProof.Fits (q : FriQueryProof) : Prop :=
  q.pairs.length < 2 ^ 32 ∧ q.paths.length < 2 ^ 32 ∧ ∀ path ∈ q.paths, path.length < 2 ^ 32

theorem reads_query : Reads readQuery queryToBytes FriQueryProof.Fits := by
  rintro c ⟨index0, pairs, paths⟩ rest
  simp [readQuery, reads_u64.bind, (reads_counted reads_pair).bind,
    (reads_counted (reads_counted reads_block)).map, queryToBytes, FriQueryProof.Fits]

/-- The lengths of a proof, and the logarithms of the lengths of its rounds, fit into a `u32`. -/
def FriProof.Fits (p : FriProof) : Prop :=
  (p.rounds.length < 2 ^ 32 ∧ ∀ r ∈ p.rounds, r.logLen < 2 ^ 32) ∧ p.finalPoly.length < 2 ^ 32 ∧
    p.queries.length < 2 ^ 32 ∧ ∀ q ∈ p.queries, q.Fits

theorem reads_proof : Reads readProof proofToBytes FriProof.Fits := by
  rintro c ⟨rounds, finalPoly, queries, powNonce⟩ rest
  simp [readProof, (reads_counted reads_round).bind, (reads_counted reads_block).bind,
    (reads_counted reads_query).bind, reads_u64.map, proofToBytes, FriProof.Fits, and_assoc]

theorem proofFromBytes_eq_ok {p : FriProof} {b : Bytes} :
    proofFromBytes b = .ok p ↔ p.Fits ∧ b = proofToBytes p := by
  unfold proofFromBytes
  rw [except_bind_eq_ok]
  constructor
  · rintro ⟨⟨p', cur⟩, hr, h⟩
    obtain ⟨rfl, hp⟩ := (reads_proof _ _ _).mp hr
    cases cur <;> cases h
    exact ⟨hp, append_nil _⟩
  · rintro ⟨hp, rfl⟩
    exact ⟨(p, []), (reads_proof _ p []).mpr ⟨(append_nil _).symm, hp⟩, rfl⟩

/-- **The encoding is canonical.** -/
theorem proof_bytes_canonical (p : FriProof) (b : Bytes) :
    proofFromBytes b = .ok p ↔ p.Fits ∧ b = proofToBytes p := proofFromBytes_eq_ok

end Sahyadri.Fri
