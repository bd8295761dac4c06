import Sahyadri.Lib.Explore
import Sahyadri.Lib.Table
import Sahyadri.Core.Header
import Mathlib.Data.Prod.Lex
import Mathlib.Data.List.Lex
import Mathlib.Data.List.Sort

/-!
# `SahyadriConsensusManager`: the selected parent, the mergeset and its colouring

* `SahyadriConsensusData`: what is stored for a block. The anticone sizes are kept as changes: a
  block's map has only the blue blocks whose size its own mergeset changed.
-/

namespace Sahyadri.Consensus

open Lib Smt Core

/-! ## 1. Data -/

abbrev KType := UInt16

def origin : Hash := ⟨List.replicate 32 0xfe, by decide⟩

structure SahyadriConsensusData where
  blueScore : UInt64
  blueWork : BlueWorkType
  selectedParent : Hash
  mergesetBlues : List Hash
  mergesetReds : List Hash
  bluesAnticoneSizes : Table Hash KType

namespace SahyadriConsensusData

def newWithSelectedParent (selectedParent : Hash) : SahyadriConsensusData :=
  ⟨0, 0, selectedParent, [selectedParent], [], (∅ : Table Hash KType).insert selectedParent 0⟩

variable (d : SahyadriConsensusData)

/-- `add_blue`; the entries of the map have different keys, so their order does not matter. -/
def addBlue (block : Hash) (blueAnticoneSize : KType)
    (blockBluesAnticoneSizes : Table Hash KType) : SahyadriConsensusData :=
  { d with
    mergesetBlues := d.mergesetBlues ++ [block]
    bluesAnticoneSizes := blockBluesAnticoneSizes.pairs.foldl (fun t e => t.insert e.1 (e.2 + 1))
      (d.bluesAnticoneSizes.insert block blueAnticoneSize) }

def addRed (block : Hash) : SahyadriConsensusData :=
  { d with mergesetReds := d.mergesetReds ++ [block] }

def finalizeScoreAndWork (blueScore : UInt64) (blueWork : BlueWorkType) :
    SahyadriConsensusData := { d with blueScore := blueScore, blueWork := blueWork }

end SahyadriConsensusData

/-- `SahyadriConsensusStoreReader`: the data of the blocks that have any. -/
abbrev StoreReader := Hash → Option SahyadriConsensusData

structure ConsensusStores where
  data : StoreReader
  /-- `relations_store.get_parents`. -/
  parents : Hash → Option (List Hash)
  /-- `headers_store.get_bits`. -/
  bits : Hash → Option UInt32
  /-- `reachability_service.is_dag_ancestor_of`. -/
  isDagAncestorOf : Hash → Hash → Bool

structure SahyadriConsensusManager where
  genesisHash : Hash
  k : KType
  levelWork : BlueWorkType

/-! ## 2. Work -/

/-- `Uint256::from_compact_target_bits`; a shift by more than the width is taken modulo it. -/
def fromCompactTargetBits (bits : UInt32) : BitVec 256 :=
  let unshiftedExpt := bits.toNat / 2 ^ 24
  let (mant, expt) :=
    if unshiftedExpt ≤ 3 then (bits.toNat % 2 ^ 24 / 2 ^ (8 * (3 - unshiftedExpt)), 0)
    else (bits.toNat % 2 ^ 24, 8 * (unshiftedExpt - 3))
  if mant > 0x7FFFFF then 0 else BitVec.ofNat 256 mant <<< (expt % 256)

/-- `calc_work`; the sum wraps around, so a target of zero has no work. -/
def calcWork {ε : Type} (bits : UInt32) : Run ε BlueWorkType :=
  let target := fromCompactTargetBits bits
  let res := ~~~target / (target + 1) + 1
  if res.toNat < 2 ^ 192 then .ok (res.setWidth 192) else .panicked

/-! ## 3. Order -/

/-- A block with its blue work. -/
structure SortableBlock where
  hash : Hash
  blueWork : BlueWorkType

/-- What blocks are compared by: the blue work, and then the bytes of the hash. -/
abbrev SortKey := ℕ ×ₗ List ℕ

def SortableBlock.key (b : SortableBlock) : SortKey :=
  toLex (b.blueWork.toNat, b.hash.bytes.map UInt8.toNat)

/-- The later of two blocks in the order, the second one if they are equal. -/
def SortableBlock.max (a b : SortableBlock) : SortableBlock := if b.key < a.key then a else b

def sortables (s : ConsensusStores) : List Hash → Run Diverged (List SortableBlock)
  | [] => .ok []
  | h :: rest =>
    match s.data h with
    | none => .panicked
    | some d => do
      let bs ← sortables s rest
      return ⟨h, d.blueWork⟩ :: bs

def findSelectedParent (s : ConsensusStores) (parents : List Hash) : Run Diverged Hash := do
  match ← sortables s parents with
  | [] => .panicked
  | b :: rest => .ok (rest.foldl SortableBlock.max b).hash

def sortBlocks (s : ConsensusStores) (blocks : List Hash) : Run Diverged (List Hash) := do
  let bs ← sortables s blocks
  return (bs.insertionSort fun a b => a.key ≤ b.key).map (·.hash)

/-! ## 4. The mergeset -/

/-- The queue, the mergeset, and blocks known to be in the past of the selected parent. -/
structure MergesetSearch where
  queue : List Hash
  mergeset : List Hash
  past : List Hash

/-- The loop over the parents of a block. -/
def scanParents (s : ConsensusStores) (selectedParent : Hash) :
    List Hash → MergesetSearch → MergesetSearch
  | [], q => q
  | parent :: rest, q =>
    if parent ∈ q.mergeset ∨ parent ∈ q.past then scanParents s selectedParent rest q
    else if s.isDagAncestorOf parent selectedParent then
      scanParents s selectedParent rest { q with past := parent :: q.past }
    else
      scanParents s selectedParent rest
        { q with mergeset := q.mergeset ++ [parent], queue := q.queue ++ [parent] }

/-- The loop over the queue. -/
def mergesetLoop (s : ConsensusStores) (selectedParent : Hash) :
    Nat → MergesetSearch → Run Diverged (List Hash)
  | 0, _ => .fail .outOfSteps
  | fuel + 1, q =>
    match q.queue with
    | [] => .ok q.mergeset
    | current :: queue =>
      match s.parents current with
      | none => .panicked
      | some currentParents =>
        mergesetLoop s selectedParent fuel
          (scanParents s selectedParent currentParents { q with queue := queue })

def unorderedMergesetWithoutSelectedParent (s : ConsensusStores) (fuel : Nat)
    (selectedParent : Hash) (parents : List Hash) : Run Diverged (List Hash) :=
  let queue := parents.filter (· ≠ selectedParent)
  mergesetLoop s selectedParent fuel ⟨queue, queue.dedup, []⟩

def orderedMergesetWithoutSelectedParent (s : ConsensusStores) (fuel : Nat) (selectedParent : Hash)
    (parents : List Hash) : Run Diverged (List Hash) := do
  let blocks ← unorderedMergesetWithoutSelectedParent s fuel selectedParent parents
  sortBlocks s blocks

/-! ## 5. Colouring -/

inductive ColoringState where
  | blue
  | red
  | pending
  deriving DecidableEq, Repr

inductive ColoringOutput where
  | blue (anticoneSize : KType) (anticoneSizes : Table Hash KType)
  | red

/-- The blue blocks found in the anticone of a candidate with their sizes, and how many they are. -/
structure Candidate where
  bluesAnticoneSizes : Table Hash KType
  blueAnticoneSize : KType

namespace SahyadriConsensusManager

variable (m : SahyadriConsensusManager) (s : ConsensusStores)

/-- The loop of `blue_anticone_size`. -/
def blueAnticoneSizeLoop (block : Hash) : Nat → Table Hash KType → Hash → Run Diverged KType
  | 0, _, _ => .fail .outOfSteps
  | fuel + 1, currentBluesAnticoneSizes, currentSelectedParent =>
    match currentBluesAnticoneSizes.lookup block with
    | some size => .ok size
    | none =>
      if currentSelectedParent = m.genesisHash ∨ currentSelectedParent = origin then .panicked
      else
        match s.data currentSelectedParent with
        | none => .panicked
        | some d => blueAnticoneSizeLoop block fuel d.bluesAnticoneSizes d.selectedParent

variable (fuel : Nat)

def blueAnticoneSize (block : Hash) (context : SahyadriConsensusData) : Run Diverged KType :=
  m.blueAnticoneSizeLoop s block fuel context.bluesAnticoneSizes context.selectedParent

/-- The loop over the blue blocks of a chain block. -/
def checkPeers (fuel : Nat) (newBlockData : SahyadriConsensusData) (blueCandidate : Hash) :
    List Hash → Candidate → Run Diverged (ColoringState × Candidate)
  | [], c => .ok (.pending, c)
  | peer :: rest, c =>
    if s.isDagAncestorOf peer blueCandidate then checkPeers fuel newBlockData blueCandidate rest c
    else do
      let peerBlueAnticoneSize ← m.blueAnticoneSize s fuel peer newBlockData
      let c : Candidate :=
        ⟨c.bluesAnticoneSizes.insert peer peerBlueAnticoneSize, c.blueAnticoneSize + 1⟩
      if c.blueAnticoneSize > m.k then return (.red, c)
      else if peerBlueAnticoneSize = m.k then return (.red, c)
      else if ¬ peerBlueAnticoneSize ≤ m.k then .panicked
      else checkPeers fuel newBlockData blueCandidate rest c

/-- `check_blue_candidate_with_chain_block`; the new block has no hash. -/
def checkBlueCandidateWithChainBlock (newBlockData : SahyadriConsensusData)
    (hash : Option Hash) (chainData : SahyadriConsensusData) (blueCandidate : Hash)
    (c : Candidate) : Run Diverged (ColoringState × Candidate) :=
  if hash.any (s.isDagAncestorOf · blueCandidate) then .ok (.blue, c)
  else m.checkPeers s fuel newBlockData blueCandidate chainData.mergesetBlues c

/-- The loop of `check_blue_candidate` down the selected chain. -/
def checkLoop (fuel : Nat) (newBlockData : SahyadriConsensusData) (blueCandidate : Hash) :
    Nat → Option Hash → SahyadriConsensusData → Candidate → Run Diverged ColoringOutput
  | 0, _, _, _ => .fail .outOfSteps
  | steps + 1, hash, chainData, c => do
    match ← m.checkBlueCandidateWithChainBlock s fuel newBlockData hash chainData
      blueCandidate c with
    | (.blue, c) => return .blue c.blueAnticoneSize c.bluesAnticoneSizes
    | (.red, _) => return .red
    | (.pending, c) =>
      match s.data chainData.selectedParent with
      | none => .panicked
      | some d =>
        checkLoop fuel newBlockData blueCandidate steps (some chainData.selectedParent) d c

def checkBlueCandidate (newBlockData : SahyadriConsensusData) (blueCandidate : Hash) :
    Run Diverged ColoringOutput :=
  if UInt16.ofNat newBlockData.mergesetBlues.length = m.k + 1 then .ok .red
  else m.checkLoop s fuel newBlockData blueCandidate fuel none newBlockData ⟨∅, 0⟩

/-- The loop over the ordered mergeset. -/
def colorAll (fuel : Nat) : List Hash → SahyadriConsensusData → Run Diverged SahyadriConsensusData
  | [], d => .ok d
  | blueCandidate :: rest, d => do
    match ← m.checkBlueCandidate s fuel d blueCandidate with
    | .blue size sizes => colorAll fuel rest (d.addBlue blueCandidate size sizes)
    | .red => colorAll fuel rest (d.addRed blueCandidate)

def addedBlueWork : List Hash → Run Diverged BlueWorkType
  | [] => .ok 0
  | h :: rest =>
    match s.bits h with
    | none => .panicked
    | some bits => do
      let work ← calcWork bits
      let sum ← addedBlueWork rest
      return (if work < m.levelWork then m.levelWork else work) + sum

def sahyadriConsensus (parents : List Hash) : Run Diverged SahyadriConsensusData :=
  if parents.isEmpty then .panicked
  else do
    let selectedParent ← findSelectedParent s parents
    if selectedParent = origin then return .newWithSelectedParent selectedParent
    else do
      let orderedMergeset ← orderedMergesetWithoutSelectedParent s fuel selectedParent parents
      let d ← m.colorAll s fuel orderedMergeset (.newWithSelectedParent selectedParent)
      match s.data selectedParent with
      | none => .panicked
      | some parentData => do
        let added ← m.addedBlueWork s d.mergesetBlues
        return d.finalizeScoreAndWork
          (parentData.blueScore + UInt64.ofNat d.mergesetBlues.length) (parentData.blueWork + added)

def genesisSahyadriConsensusData : SahyadriConsensusData := ⟨0, 0, origin, [], [], ∅⟩

end SahyadriConsensusManager

/-! ## 6. The consensus order -/

/-- `merge_join_by` with an order of the blocks; equal blocks are a panic of the caller. -/
def mergeJoinBy (r : SortableBlock → SortableBlock → Prop) [DecidableRel r] :
    List SortableBlock → List SortableBlock → Run Diverged (List SortableBlock)
  | [], bs => .ok bs
  | a :: as, [] => .ok (a :: as)
  | a :: as, b :: bs =>
    if r a b then do
      let rest ← mergeJoinBy r as (b :: bs)
      return a :: rest
    else if r b a then do
      let rest ← mergeJoinBy r (a :: as) bs
      return b :: rest
    else .panicked
  termination_by as bs => as.length + bs.length

def SahyadriConsensusData.ascendingMergesetWithoutSelectedParent (d : SahyadriConsensusData)
    (s : ConsensusStores) : Run Diverged (List SortableBlock) := do
  let blues ← sortables s (d.mergesetBlues.drop 1)
  let reds ← sortables s d.mergesetReds
  mergeJoinBy (fun a b => a.key < b.key) blues reds

def SahyadriConsensusData.consensusOrderedMergeset (d : SahyadriConsensusData)
    (s : ConsensusStores) : Run Diverged (List Hash) := do
  let blocks ← d.ascendingMergesetWithoutSelectedParent s
  return d.selectedParent :: blocks.map (·.hash)

end Sahyadri.Consensus
