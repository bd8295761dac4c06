import Sahyadri.Lib.Table
import Sahyadri.Tx.Validator

/-!
# Transactions in the mempool: fees, masses, sizes, and the errors that reject them

* `MutableTransaction`: a transaction with the fields that validation is to fill in. Nothing fills
  in `entries`; `populateFlashTxFields` fills in the fee of a readable flash payload.
-/

namespace Sahyadri.Mining

open Lib Smt Core Tx

/-! ## 1. Policies and errors -/

abbrev TransactionId := Hash

inductive Priority where
  | low
  | high
  deriving DecidableEq, Repr

inductive Orphan where
  | forbidden
  | allowed
  deriving DecidableEq, Repr

inductive RbfPolicy where
  | forbidden
  | allowed
  | mandatory
  deriving DecidableEq, Repr

inductive NonStandardError where
  | rejectVersion (id : TransactionId) (version min max : UInt16)
  | rejectComputeMass (id : TransactionId) (mass max : UInt64)
  | rejectTransientMass (id : TransactionId) (mass max : UInt64)
  | rejectStorageMass (id : TransactionId) (mass max : UInt64)
  | rejectSignatureScriptSize (id : TransactionId) (index size max : Nat)
  | rejectScriptPublicKeyVersion (id : TransactionId) (index : Nat)
  | rejectOutputScriptClass (id : TransactionId) (index : Nat)
  | rejectDust (id : TransactionId) (index : Nat) (value : UInt64)
  | rejectInputScriptClass (id : TransactionId) (index : Nat)
  | rejectInsufficientFee (id : TransactionId) (fee minimum : UInt64)
  | rejectSignatureCount (id : TransactionId) (index : Nat) (count max : UInt64)
  deriving DecidableEq, Repr

/-- `RuleError` of the mempool. The code turns a `NonStandardError` into its text. -/
inductive RuleError where
  | rejectTxRule (e : TxRuleError)
  | rejectMissingOutpoint
  | rejectAlreadyAccepted (id : TransactionId)
  | rejectDuplicate (id : TransactionId)
  | rejectDoubleSpendInMempool (outpoint : RegistryRef) (owner : TransactionId)
  | rejectRbfNoDoubleSpend
  | rejectRbfTooManyDoubleSpendingTransactions
  | rejectMempoolIsFull
  | rejectNonStandard (e : NonStandardError)
  | rejectMissingTransaction (id : TransactionId)
  | rejectBadOrphanMass (mass max : UInt64)
  | rejectDuplicateOrphan (id : TransactionId)
  | rejectDoubleSpendOrphan (id other : TransactionId)
  | rejectDisallowedOrphan (id : TransactionId)
  | rejectMissingOrphanOutpoint (index : Nat) (id : TransactionId) (outpoint : RegistryRef)
  | rejectMissingOrphanTransaction (id : TransactionId)
  | rejectOrphanPoolIsFull (count : Nat) (max : UInt64)
  | rejectInvalid (id : TransactionId)
  deriving DecidableEq, Repr

/-! ## 2. Fee rates -/

/-- The fee rate `fee as f64 / mass as f64`. -/
structure Feerate where
  fee : UInt64
  mass : UInt64
  deriving DecidableEq, Repr

/-- Floating point numbers, as far as the mempool compares them. -/
structure Floats where
  /-- `a > b` for two fee rates. -/
  gt : Feerate → Feerate → Bool
  /-- The place of the weight `(fee / mass)^ALPHA` in the order of `f64::total_cmp`. -/
  weight : UInt64 → UInt64 → Int

/-! ## 3. Transactions -/

structure RegistryUnit where
  amount : UInt64
  scriptPublicKey : ScriptPublicKey
  blockDaaScore : UInt64
  isCoinbase : Bool
  deriving DecidableEq, Repr

structure MutableTransaction where
  tx : Transaction
  entries : List (Option RegistryUnit)
  calculatedFee : Option UInt64
  calculatedNonContextualMasses : Option NonContextualMasses
  deriving DecidableEq, Repr

namespace MutableTransaction

def fromTx (tx : Transaction) : MutableTransaction :=
  ⟨tx, List.replicate tx.inputs.length none, none, none⟩

def id (t : MutableTransaction) : TransactionId := t.tx.id

/-- `is_verifiable`, with its assertion. -/
def isVerifiable {ε : Type} (t : MutableTransaction) : Run ε Bool :=
  if t.entries.length ≠ t.tx.inputs.length then .panicked else .ok (t.entries.all Option.isSome)

def isFullyPopulated {ε : Type} (t : MutableTransaction) : Run ε Bool := do
  let verifiable ← t.isVerifiable
  return verifiable && t.calculatedFee.isSome && t.calculatedNonContextualMasses.isSome

def calculatedFeerate (t : MutableTransaction) : Option Feerate :=
  match t.calculatedNonContextualMasses, t.calculatedFee with
  | some masses, some fee => some ⟨fee, contextualMax t.tx.mass masses⟩
  | _, _ => none

theorem calculatedFeerate_eq_none {t : MutableTransaction} (h : t.calculatedFee = none) :
    t.calculatedFeerate = none := by
  unfold calculatedFeerate
  rw [h]
  cases t.calculatedNonContextualMasses <;> rfl

def hasParentInSet (t : MutableTransaction) (possibleParents : List TransactionId) : Bool :=
  t.tx.inputs.any fun input => input.previousOutpoint.transactionId ∈ possibleParents

end MutableTransaction

def slice (p : Bytes) (off n : Nat) : Bytes := (p.drop off).take n

/-- The fee that `populate_flash_tx_fields` reads from a payload, if it does not return before. -/
def flashFee (payload : Bytes) : Option UInt64 :=
  if payload.length < 8 ∨ payload.take 8 ≠ FlashTransaction.magic then none
  else
    let off := 8 + 2
    if payload.length < off + 4 then none
    else
      let pkLen := ofLe (slice payload off 4)
      let off := off + 4 + pkLen
      if payload.length < off + 4 then none
      else
        let rcLen := ofLe (slice payload off 4)
        let off := off + 4 + rcLen
        if payload.length < off + 16 then none
        else some (ofU64Le (slice payload (off + 8) 8))

def populateFlashTxFields (t : MutableTransaction) : MutableTransaction :=
  match flashFee t.tx.payload with
  | none => t
  | some fee =>
    let approxMass := 1000 + UInt64.ofNat t.tx.payload.length
    { t with
      calculatedFee := some fee
      calculatedNonContextualMasses := some ⟨approxMass, approxMass⟩ }

structure MempoolTransaction where
  mtx : MutableTransaction
  priority : Priority
  addedAtDaaScore : UInt64
  deriving DecidableEq, Repr

namespace MempoolTransaction

/-- `MempoolTransaction::new`, with its assertion. -/
def new {ε : Type} (mtx : MutableTransaction) (priority : Priority) (addedAtDaaScore : UInt64) :
    Run ε MempoolTransaction :=
  if mtx.tx.inputs.length ≠ mtx.entries.length then .panicked
  else .ok ⟨mtx, priority, addedAtDaaScore⟩

def id (t : MempoolTransaction) : TransactionId := t.mtx.id

end MempoolTransaction

/-- `FeerateTransactionKey`, without the cached weight. -/
structure FeerateTransactionKey where
  fee : UInt64
  mass : UInt64
  tx : Transaction
  deriving DecidableEq, Repr

/-- `FeerateTransactionKey::from`: a missing fee counts as 0. -/
def FeerateTransactionKey.ofTransaction (t : MempoolTransaction) : FeerateTransactionKey where
  fee := t.mtx.calculatedFee.getD 0
  mass :=
    match t.mtx.calculatedNonContextualMasses with
    | some masses => contextualMax t.mtx.tx.mass masses
    | none => t.mtx.tx.mass
  tx := t.mtx.tx

/-- `DoubleSpend`; its outpoint is made up from the flash id. -/
structure DoubleSpend where
  outpoint : RegistryRef
  ownerId : TransactionId
  deriving DecidableEq, Repr

/-- `RuleError::from(DoubleSpend)`. -/
def DoubleSpend.toError (d : DoubleSpend) : RuleError :=
  .rejectDoubleSpendInMempool d.outpoint d.ownerId

/-! ## 4. The node -/

/-- `Config`: the fields that the mempool reads. -/
structure Config where
  maximumTransactionCount : Nat
  mempoolSizeLimit : Nat
  transactionExpireIntervalDaaScore : UInt64
  transactionExpireScanIntervalDaaScore : UInt64
  transactionExpireScanIntervalMilliseconds : UInt64
  acceptedTransactionExpireIntervalDaaScore : UInt64
  acceptedTransactionExpireScanIntervalDaaScore : UInt64
  acceptedTransactionExpireScanIntervalMilliseconds : UInt64
  orphanExpireIntervalDaaScore : UInt64
  orphanExpireScanIntervalDaaScore : UInt64
  maximumOrphanTransactionMass : UInt64
  maximumOrphanTransactionCount : UInt64
  acceptNonStandard : Bool
  minimumRelayTransactionFee : UInt64
  minimumStandardTransactionVersion : UInt16
  maximumStandardTransactionVersion : UInt16

inductive ScriptClass where
  | nonStandard
  | pubKey
  | pubKeyEcdsa
  | scriptHash
  | pubKeyDilithium
  deriving DecidableEq, Repr

/-- What the script engine says about scripts. -/
structure Scripts where
  /-- `ScriptClass::from_script`. -/
  scriptClass : ScriptPublicKey → ScriptClass
  /-- `is_unspendable`. -/
  isUnspendable : Bytes → Bool
  /-- `get_sig_op_count_upper_bound`. -/
  sigOpCount : Bytes → ScriptPublicKey → UInt64

/-- `size_of` of the types that are counted, and the inlined length of a script. -/
structure Sizes where
  mutableTransaction : Nat
  optionRegistryUnit : Nat
  transaction : Nat
  transactionInput : Nat
  transactionOutput : Nat
  scriptVector : Nat

/-- What the mempool works with. -/
structure Node where
  crypto : Crypto
  config : Config
  validator : TransactionValidator
  /-- `calculate_transaction_non_contextual_masses`. -/
  masses : Transaction → NonContextualMasses
  scripts : Scripts
  floats : Floats
  sizes : Sizes
  /-- The order in which a hash set of ids is iterated. -/
  iter : List TransactionId → List TransactionId
  iter_perm : ∀ l, (iter l).Perm l
  /-- The order in which the pooled transactions are iterated. -/
  poolOrder : IterOrder TransactionId MempoolTransaction

/-- What `get_virtual_daa_score` and the virtual state give at the time of a call. -/
structure Virtual where
  daaScore : UInt64
  pastMedianTime : UInt64

namespace Node

variable (n : Node)

/-- `estimate_mem_bytes` of a transaction. -/
def transactionBytes (tx : Transaction) : Nat :=
  n.sizes.transaction + tx.payload.length +
    ((tx.inputs.map fun i => i.signatureScript.length + n.sizes.transactionInput).sum +
      (tx.outputs.map fun o =>
        o.scriptPublicKey.script.length - n.sizes.scriptVector + n.sizes.transactionOutput).sum)

def mempoolEstimatedBytes (t : MutableTransaction) : Nat :=
  n.sizes.mutableTransaction + (t.entries.map fun e => n.sizes.optionRegistryUnit +
      (e.map fun u => u.scriptPublicKey.script.length - n.sizes.scriptVector).getD 0).sum +
      n.transactionBytes t.tx

/-- `validate_mempool_transaction`; no error that `RuleError::from` sets apart comes from these
    checks. -/
def validateMempoolTransaction (v : Virtual) (t : MutableTransaction) : Except RuleError Unit :=
  match (do
    n.validator.validateTxInIsolation n.crypto t.tx
    validateTxInHeaderContext t.tx (match getLockTimeType t.tx with
      | .finalized => .finalized
      | .daaScore => .daaScore v.daaScore
      | .time => .medianTime v.pastMedianTime) : TxResult Unit) with
  | .ok () => .ok ()
  | .error e => .error (.rejectTxRule e)

end Node

/-- The order of keys: by weight, by fee, and by id. -/
def FeerateTransactionKey.le (fl : Floats) (a b : FeerateTransactionKey) : Prop :=
  fl.weight a.fee a.mass < fl.weight b.fee b.mass ∨
    (fl.weight a.fee a.mass = fl.weight b.fee b.mass ∧
      (a.fee < b.fee ∨ (a.fee = b.fee ∧ ¬ b.tx.id.bytes < a.tx.id.bytes)))

instance (fl : Floats) : DecidableRel (FeerateTransactionKey.le fl) := fun _ _ =>
  inferInstanceAs (Decidable (_ ∨ (_ ∧ (_ ∨ (_ ∧ _)))))

def FeerateTransactionKey.same (fl : Floats) (a b : FeerateTransactionKey) : Bool :=
  fl.weight a.fee a.mass = fl.weight b.fee b.mass ∧ a.fee = b.fee ∧ a.tx.id = b.tx.id

end Sahyadri.Mining
