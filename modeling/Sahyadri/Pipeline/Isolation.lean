import Sahyadri.Pipeline.Order
import Sahyadri.Pipeline.Chain

/-!
# `validate_body_in_isolation`, and whether what passes it can crash the state step

The body checks look at the output values of a flash transaction and at nothing else of it. The
recipient is any number of bytes, and the state step asserts that it has 20.

* `stepSafe_iff`: a body is safe exactly if the recipient of every flash payload that it carries
  behind the coinbase has at least 20 bytes. `bare_recipient_panics`: one without bytes passes every
  check.
-/

namespace Sahyadri.Pipeline

open Lib Smt Core Tx Account List

/-! ## 1. The Merkle root -/

/-- One level of `calc_merkle_root`: a missing right neighbour counts as zero. -/
def merkleLevel (merkleHash : Hash → Hash → Hash) : List (Option Hash) → List (Option Hash)
  | left :: right :: rest =>
    (left.map fun l => merkleHash l (right.getD Hash.default)) :: merkleLevel merkleHash rest
  | _ => []

def nextPot (n : Nat) : Nat := if n ≤ 1 then 0 else Nat.log2 (n - 1) + 1

/-- `calc_merkle_root`; the code keeps the levels one after the other in one vector. -/
def calcMerkleRoot (merkleHash : Hash → Hash → Hash) (hashes : List Hash) : Hash :=
  if hashes.isEmpty then Hash.default
  else
    let depth := nextPot hashes.length
    let leaves := hashes.map some ++ replicate (2 ^ depth - hashes.length) none
    ((Nat.repeat (merkleLevel merkleHash) depth leaves).head?.join).getD Hash.default

/-! ## 2. The checks -/

/-- What the body processor has at hand. -/
structure BlockBodyProcessor where
  crypto : Crypto
  transactionValidator : TransactionValidator
  massCalculator : MassCalculator
  maxBlockMass : UInt64
  /-- `hashing::tx::hash`. -/
  txHash : Transaction → Hash
  merkleHash : Hash → Hash → Hash

structure Mass where
  nonContextual : NonContextualMasses
  storageMass : UInt64
  deriving DecidableEq, Repr

def checkHasTransactions (block : Block) : Run RuleError Unit :=
  if block.transactions.isEmpty then .fail .noTransactions else .ok ()

/-- `check_block_double_spends`, with the outpoints seen so far. -/
def checkDoubleSpends (existing : List RegistryRef) : List TransactionInput → Run RuleError Unit
  | [] => .ok ()
  | input :: rest =>
    if input.previousOutpoint ∈ existing then .fail (.doubleSpendInSameBlock input.previousOutpoint)
    else checkDoubleSpends (input.previousOutpoint :: existing) rest

def createdOutpoints (txs : List Transaction) : List RegistryRef :=
  txs.flatMap fun tx => (range tx.outputs.length).map fun index => ⟨tx.id, index % 2 ^ 32⟩

def checkNoChainedTransactions (block : Block) : Run RuleError Unit :=
  let created := createdOutpoints block.transactions
  match (block.transactions.flatMap Transaction.inputs).find? fun i =>
    i.previousOutpoint ∈ created with
  | some input => .fail (.chainedTransaction input.previousOutpoint)
  | none => .ok ()

namespace BlockBodyProcessor

variable (p : BlockBodyProcessor)

/-- `check_hash_merkle_root`, with the root in the header. -/
def checkHashMerkleRoot (hashMerkleRoot : Hash) (block : Block) : Run RuleError Unit :=
  let calculated := calcMerkleRoot p.merkleHash (block.transactions.map p.txHash)
  if calculated ≠ hashMerkleRoot then .fail (.badMerkleRoot hashMerkleRoot calculated) else .ok ()

/-- `check_block_mass`, with the sums so far. -/
def checkBlockMass (sums : Mass) : List Transaction → Run RuleError Mass
  | [] => .ok sums
  | tx :: rest =>
    let masses := p.massCalculator.calcNonContextualMasses tx
    let totalComputeMass := satAdd sums.nonContextual.computeMass masses.computeMass
    let totalTransientMass := satAdd sums.nonContextual.transientMass masses.transientMass
    let totalStorageMass := satAdd sums.storageMass tx.mass
    if totalComputeMass > p.maxBlockMass then
      .fail (.exceedsComputeMassLimit totalComputeMass p.maxBlockMass)
    else if totalTransientMass > p.maxBlockMass then
      .fail (.exceedsTransientMassLimit totalTransientMass p.maxBlockMass)
    else if totalStorageMass > p.maxBlockMass then
      .fail (.exceedsStorageMassLimit totalStorageMass p.maxBlockMass)
    else checkBlockMass ⟨⟨totalComputeMass, totalTransientMass⟩, totalStorageMass⟩ rest

/-- `validate_body_in_isolation`; the Merkle root of the header is passed beside the block. -/
def validateBodyInIsolation (hashMerkleRoot : Hash) (block : Block) : Run RuleError Mass := do
  checkHasTransactions block
  p.checkHashMerkleRoot hashMerkleRoot block
  checkOnlyOneCoinbase block
  checkTransactionsInIsolation p.crypto p.transactionValidator block.transactions
  let mass ← p.checkBlockMass ⟨⟨0, 0⟩, 0⟩ block.transactions
  checkDuplicateTransactions [] block.transactions
  checkDoubleSpends [] (block.transactions.flatMap Transaction.inputs)
  checkNoChainedTransactions block
  return mass

end BlockBodyProcessor

/-! ## 3. The state step on an accepted body -/

/-- Every node under the root is in the store. -/
inductive Stored {S : Type} (N : NodeStore S) (s : S) : H256 → Prop
  | empty : Stored N s .empty
  | leaf {h key value : H256} : N.get s h = some (.leaf key value) → Stored N s h
  | branch {h left right : H256} : N.get s h = some (.branch left right) → Stored N s left →
      Stored N s right → Stored N s h

/-- On no root whose nodes are stored do the transactions make the state step panic. -/
def StepSafe {S : Type} (c : Crypto) (N : NodeStore S) (m : CoinbaseManager) (treasuryHex : String)
    (txs : List Transaction) : Prop :=
  ∀ (s : S) (root : H256) (states : StatesReader) (ord : IterOrder ScriptPublicKey AccountState)
    (daaScore : UInt64), Stored N s root →
      (computeBlockAccountChanges c N states ord root (extractBlockEffects m treasuryHex txs).1
        (extractBlockEffects m treasuryHex txs).2 daaScore s).1 ≠ .panicked

section Safe

variable {S : Type} {c : Crypto} {N : NodeStore S}

theorem mem_extractBlockEffects {m : CoinbaseManager}
    {treasuryHex : String} {txs : List Transaction}
    {f : FlashTransaction} : f ∈ (extractBlockEffects m treasuryHex txs).1 ↔
      ∃ tx ∈ txs.drop 1, f ∈ FlashTransaction.fromTransaction tx := by
  cases txs with
  | nil => exact iff_of_false not_mem_nil fun ⟨_, h, _⟩ => not_mem_nil h
  | cons coinbase rest => exact mem_filterMap

theorem readAccountState_empty (states : StatesReader) (s : S) (spk : ScriptPublicKey) :
    readAccountState c N states s .empty spk = .ok .default := by
  unfold readAccountState Smt.get
  rw [getLoop.eq_def]
  rfl

/-- **The state step is safe exactly if the recipient of every flash payload behind the coinbase has
    at least 20 bytes**; that a body was accepted changes nothing. -/
theorem stepSafe_iff [Nonempty S] (m : CoinbaseManager)
    (treasuryHex : String) (txs : List Transaction) : StepSafe c N m treasuryHex txs ↔
      ∀ tx ∈ txs.drop 1, ∀ f ∈ FlashTransaction.fromTransaction tx, 20 ≤ f.recipient.length := by
  constructor
  · intro hsafe tx htx f hf
    obtain ⟨s⟩ := (inferInstance : Nonempty S)
    by_contra hshort
    have hpanic : touchedAccounts c (readAccountState c N noStates s .empty)
        (extractBlockEffects m treasuryHex txs).1 (extractBlockEffects m treasuryHex txs).2 0 =
          .panicked :=
      touchedAccounts_panics (fun spk => ⟨_, readAccountState_empty _ _ _⟩)
        (mem_extractBlockEffects.mpr ⟨tx, htx, hf⟩) (Nat.lt_of_not_le hshort)
    refine hsafe s .empty noStates (.asListed _ _) 0 .empty ?_
    rw [computeBlockAccountChanges_batch, writeBatch_error _ hpanic]
  · intro hlen s root states ord daaScore _
    refine computeBlockAccountChanges_noPanic (fun f hf => ?_) s
    obtain ⟨tx, htx, hdecode⟩ := mem_extractBlockEffects.mp hf
    exact hlen tx htx f hdecode

end Safe

/-! ## 4. Two bodies -/

/-- A body processor with primitives that can be run and the mass parameters of the main net. -/
def toyBodies : BlockBodyProcessor where
  crypto := toyCrypto
  transactionValidator := toyValidator
  massCalculator := ⟨1, 1, 100⟩
  maxBlockMass := 20000000
  txHash := toyCrypto.txId
  merkleHash left right := polyHash (left.bytes ++ right.bytes)

def flashBody (f : FlashTransaction) : Block :=
  ⟨toyHeader .empty 1 1, [toyCoinbase 1 0 [], f.toTransaction toyCrypto]⟩

def flashBodyRoot (f : FlashTransaction) : Hash :=
  calcMerkleRoot toyBodies.merkleHash ((flashBody f).transactions.map toyBodies.txHash)

def bareTransfer : FlashTransaction := { transfer [] with recipient := [] }

theorem transfer_safe : (toyBodies.validateBodyInIsolation (flashBodyRoot (transfer []))
      (flashBody (transfer []))).isOk ∧ StepSafe toyCrypto polyStore toyProcessor.coinbaseManager ""
        (flashBody (transfer [])).transactions := by
  have : Nonempty MemStore := ⟨⟨[]⟩⟩
  exact ⟨by decide +kernel, (stepSafe_iff _ _ _).mpr (by decide +kernel)⟩

/-- **A recipient without bytes**: every body check passes, and the state step panics on the empty
    root. -/
theorem bare_recipient_panics :
    (toyBodies.validateBodyInIsolation (flashBodyRoot bareTransfer) (flashBody bareTransfer)).isOk ∧
      (computeBlockAccountChanges toyCrypto polyStore noStates (.asListed _ _) .empty
        (extractBlockEffects toyProcessor.coinbaseManager ""
          (flashBody bareTransfer).transactions).1 (extractBlockEffects
            toyProcessor.coinbaseManager "" (flashBody bareTransfer).transactions).2
        1 ⟨[]⟩).1 = .panicked ∧ ¬ StepSafe toyCrypto polyStore toyProcessor.coinbaseManager ""
        (flashBody bareTransfer).transactions := by
  refine ⟨by decide +kernel, by decide +kernel, fun h => ?_⟩
  exact h ⟨[]⟩ .empty noStates (.asListed _ _) 1 .empty (by decide)

end Sahyadri.Pipeline
