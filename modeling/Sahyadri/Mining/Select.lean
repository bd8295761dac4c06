import Sahyadri.Mining.SearchTree

/-!
# `build_selector`: which transactions a block template may choose from

* `TakeAllSelector`, `SequenceSelector`, `RebalancingWeightedTransactionSelector`: the three
  selectors, as they are made. Draws are numbers from 0 up to 1; a draw of a range is such a number
  times its end.
-/

namespace Sahyadri.Mining

open Lib Smt Core Tx

structure Policy where
  maxBlockMass : UInt64

/-! ## 1. Selectors -/

structure TakeAllSelector where
  txs : List Transaction

structure SequenceSelectorTransaction where
  tx : Transaction
  mass : UInt64
  deriving DecidableEq, Repr

/-- `SequenceSelectorInput`: transactions by a priority index of 32 bits. -/
abbrev SequenceSelectorInput := Table UInt32 SequenceSelectorTransaction

def SequenceSelectorInput.push (input : SequenceSelectorInput) (tx : Transaction) (mass : UInt64) :
    SequenceSelectorInput := input.insert (UInt32.ofNat input.keys.length) ⟨tx, mass⟩

structure SequenceSelectorSelection where
  txId : TransactionId
  mass : UInt64
  priorityIndex : UInt32

structure SequenceSelector where
  inputSequence : SequenceSelectorInput
  selectedVec : List SequenceSelectorSelection
  selectedMap : Option (Table TransactionId UInt64)
  totalSelectedMass : UInt64
  overallCandidates : Nat
  overallRejections : Nat
  policy : Policy

def SequenceSelector.new (inputSequence : SequenceSelectorInput) (policy : Policy) :
    SequenceSelector :=
  ⟨inputSequence, [], none, 0, inputSequence.keys.length, 0, policy⟩

structure CandidateTransaction where
  tx : Transaction
  calculatedFee : UInt64
  calculatedMass : UInt64

def CandidateTransaction.fromKey (key : FeerateTransactionKey) : CandidateTransaction :=
  ⟨key.tx, key.fee, key.mass⟩

def subnetworkIdRegistry : SubnetworkId := .fromByte 2

def isBuiltinOrNative (id : SubnetworkId) : Bool :=
  id = subnetworkIdNative || (id = subnetworkIdCoinbase || id = subnetworkIdRegistry)

variable (K : Type)

structure SelectableTransaction where
  gasLimit : UInt64
  p : K

/-- An index of a transaction, with its part of the line of all chances. -/
structure Candidate where
  index : Nat
  start : K
  stop : K
  isMarkedForDeletion : Bool

structure CandidateList where
  candidates : List (Candidate K)
  totalP : K

structure RebalancingWeightedTransactionSelector where
  policy : Policy
  transactions : List CandidateTransaction
  selectableTxs : List (SelectableTransaction K)
  selectedTxs : List Nat
  selectedTxsMap : Option (Table TransactionId Nat)
  candidateList : CandidateList K
  overallRejections : Nat
  usedCount : Nat
  usedP : K
  totalMass : UInt64
  totalFees : UInt64
  gasUsageMap : Table SubnetworkId UInt64

section Rebalancing

variable {K : Type} [Field K]

def SelectableTransaction.new (txValue : K) (gasLimit : UInt64) (alpha : Nat) :
    SelectableTransaction K :=
  ⟨gasLimit, txValue ^ alpha⟩

def CandidateList.new (selectableTxs : List (SelectableTransaction K)) : CandidateList K :=
  selectableTxs.zipIdx.foldl
    (fun l (tx, i) => ⟨l.candidates ++ [⟨i, l.totalP, l.totalP + tx.p, false⟩], l.totalP + tx.p⟩)
    ⟨[], 0⟩

def calcTxValue (policy : Policy) (t : CandidateTransaction) : K :=
  let value :=
    (t.calculatedFee.toNat : K) / (t.calculatedMass.toNat : K) / (policy.maxBlockMass.toNat : K)
  if isBuiltinOrNative t.tx.subnetworkId then value
  else value + (t.tx.gas.toNat : K) / ((2 ^ 64 - 1 : Nat) : K)

/-- `RebalancingWeightedTransactionSelector::new`: the transactions are sorted by subnetwork. -/
def RebalancingWeightedTransactionSelector.new (policy : Policy)
    (transactions : List CandidateTransaction) : RebalancingWeightedTransactionSelector K :=
  let transactions := transactions.insertionSort fun a b =>
    ¬ b.tx.subnetworkId.bytes < a.tx.subnetworkId.bytes
  let selectableTxs :=
    transactions.map fun t => SelectableTransaction.new (calcTxValue policy t) 0 3
  ⟨policy, transactions, selectableTxs, [], none, .new selectableTxs, 0, 0, 0, 0, 0, ∅⟩

end Rebalancing

/-- `Box<dyn TemplateTransactionSelector>`. -/
inductive Selector (K : Type) where
  | takeAll (s : TakeAllSelector)
  | sequence (s : SequenceSelector)
  | rebalancing (s : RebalancingWeightedTransactionSelector K)

def Selector.transactions {K : Type} : Selector K → List Transaction
  | .takeAll s => s.txs
  | .sequence s => s.inputSequence.pairs.map fun e => e.2.tx
  | .rebalancing s => s.transactions.map fun t => t.tx

/-! ## 2. Sampling -/

/-- Where a computation stands that takes draws. -/
inductive Drawing (σ α : Type) where
  | running (s : σ)
  | done (a : α)
  | panicked

/-- A result is worked on. -/
def Drawing.map {σ α β : Type} (f : α → β) : Drawing σ α → Drawing σ β
  | .running s => .running s
  | .done a => .done (f a)
  | .panicked => .panicked

/-- The variables of `sample_inplace`. -/
structure Sampling (K : Type) where
  /-- The end of the range of `distr`. -/
  range : K
  top : FeerateTransactionKey
  downIter : List FeerateTransactionKey
  cache : List TransactionId
  sequence : SequenceSelectorInput
  totalSelectedMass : UInt64

section Sampling

variable {K : Type} [Field K] [LinearOrder K] {fl : Floats} (tree : SearchTree fl)

/-- `Uniform::new(0, high)`: it panics if there is nothing to draw from. -/
def uniformNew (high : K) : Option K := if 0 < high then some high else none

variable (s : Sampling K)

/-- The range ends at the next key in descending order that is not in the cache. -/
def Sampling.narrow : Drawing (Sampling K) SequenceSelectorInput :=
  match s.downIter.dropWhile fun k => k.tx.id ∈ s.cache with
  | [] => .done s.sequence
  | next :: rest =>
    match (tree.prefixWeight next).bind uniformNew with
    | none => .panicked
    | some range => .running { s with range := range, top := next, downIter := rest }

def Sampling.push (item : FeerateTransactionKey) : Sampling K :=
  { s with
    cache := item.tx.id :: s.cache
    sequence := s.sequence.push item.tx item.mass
    totalSelectedMass := s.totalSelectedMass + item.mass }

def Sampling.draw (u : K) : Drawing (Sampling K) SequenceSelectorInput :=
  match tree.search (s.range * u) with
  | none => .panicked
  | some item =>
    if item.tx.id ∈ s.cache then
      if s.top.tx.id ∈ s.cache then s.narrow tree else .running s
    else .running (s.push item)

def Sampling.wants (desiredMass : UInt64) (s : Sampling K) : Prop :=
  s.cache.length < tree.len ∧ s.totalSelectedMass ≤ desiredMass

instance (desiredMass : UInt64) (s : Sampling K) : Decidable (s.wants tree desiredMass) :=
  inferInstanceAs (Decidable (_ ∧ _))

/-- The loops, draw after draw; after a collision the condition of the outer loop holds as
    before. -/
def Sampling.run (desiredMass : UInt64) :
    List K → Sampling K → Drawing (Sampling K) SequenceSelectorInput
  | [], s => if s.wants tree desiredMass then .running s else .done s.sequence
  | u :: us, s =>
    if s.wants tree desiredMass then
      match s.draw tree u with
      | .running s' => run desiredMass us s'
      | .done sequence => .done sequence
      | .panicked => .panicked
    else .done s.sequence

def sampleInplace (desiredMass : UInt64) (draws : List K) :
    Drawing (Sampling K) SequenceSelectorInput :=
  match uniformNew tree.totalWeight with
  | none => .panicked
  | some range =>
    match tree.descendingIter with
    | [] => .panicked
    | top :: rest => Sampling.run tree desiredMass draws ⟨range, top, rest, [], ∅, 0⟩

/-- A frontier, with a tree of its keys. -/
structure IndexedFrontier (fl : Floats) extends Frontier where
  tree : SearchTree fl
  tree_keys : tree.ascendingIter = searchTree

/-- `build_selector`. The mass that is wanted, `(max_block_mass as f64 * MASS_LIMIT_FACTOR) as u64`,
    is a parameter. -/
def IndexedFrontier.buildSelector (f : IndexedFrontier fl) (desiredMass : UInt64 → UInt64)
    (policy : Policy) (draws : List K) : Drawing (Sampling K) (Selector K) :=
  if f.totalMass ≤ policy.maxBlockMass then
    .done (.takeAll ⟨f.tree.ascendingIter.map fun k => k.tx⟩)
  else if f.totalMass > policy.maxBlockMass * 4 then
    (sampleInplace f.tree (desiredMass policy.maxBlockMass) draws).map fun input =>
      .sequence (.new input policy)
  else .done (.rebalancing (.new policy (f.tree.ascendingIter.map .fromKey)))

end Sampling

end Sahyadri.Mining
