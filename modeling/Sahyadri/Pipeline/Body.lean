import Sahyadri.Tx.Validator

/-!
# Blocks, their rule errors, and the body validation that comes before the state

* `validateBodyInContext`: parent bodies, the blue score of the coinbase payload, lock times. The
  expected subsidy is computed and not compared with the payload.
-/

namespace Sahyadri.Pipeline

open Lib Smt Core Tx LockTimeArg

/-! ## 1. Blocks -/

/-- The header fields that the modelled checks read. -/
structure Header where
  hash : Hash
  directParents : List Hash
  accountCommitment : Hash
  daaScore : UInt64
  blueScore : UInt64
  pruningPoint : Hash
  deriving DecidableEq, Repr

structure Block where
  header : Header
  transactions : List Transaction
  deriving DecidableEq, Repr

inductive RuleError where
  | noTransactions
  | badMerkleRoot (header calculated : Hash)
  | exceedsComputeMassLimit (mass max : UInt64)
  | exceedsTransientMassLimit (mass max : UInt64)
  | exceedsStorageMassLimit (mass max : UInt64)
  | doubleSpendInSameBlock (outpoint : RegistryRef)
  | chainedTransaction (outpoint : RegistryRef)
  | missingParents (parents : List Hash)
  | badCoinbasePayload (e : CoinbaseError)
  | badCoinbasePayloadBlueScore (payload header : UInt64)
  | txInIsolationValidationFailed (id : Hash) (e : TxRuleError)
  | txInContextFailed (id : Hash) (e : TxRuleError)
  | firstTxNotCoinbase
  | multipleCoinbases (index : Nat)
  | duplicateTransactions (id : Hash)
  | accountCommitmentComputeFailed
  | badAccountCommitment (block header expected : Hash)
  | wrongHeaderPruningPoint (expected header : Hash)
  | invalidTransactionsInBlockContext (invalid total : Nat)
  deriving DecidableEq, Repr

/-! ## 2. Isolation -/

/-- `check_only_one_coinbase`; indexing an empty list panics. -/
def checkOnlyOneCoinbase (block : Block) : Run RuleError Unit :=
  match block.transactions with
  | [] => .panicked
  | first :: rest =>
    if ¬ first.isCoinbase then .fail .firstTxNotCoinbase
    else
      match rest.findIdx? Transaction.isCoinbase with
      | some i => .fail (.multipleCoinbases i)
      | none => .ok ()

/-- `check_transactions_in_isolation`, on what is left of the transactions. -/
def checkTransactionsInIsolation (c : Crypto) (v : TransactionValidator) :
    List Transaction → Run RuleError Unit
  | [] => .ok ()
  | tx :: rest =>
    match v.validateTxInIsolation c tx with
    | .error e => .fail (.txInIsolationValidationFailed tx.id e)
    | .ok () => checkTransactionsInIsolation c v rest

/-- `check_duplicate_transactions`, with the ids seen so far. -/
def checkDuplicateTransactions (seen : List Hash) : List Transaction → Run RuleError Unit
  | [] => .ok ()
  | tx :: rest =>
    if tx.id ∈ seen then .fail (.duplicateTransactions tx.id)
    else checkDuplicateTransactions (tx.id :: seen) rest

/-! ## 3. Context -/

/-- What `validate_body_in_context` reads from its stores. -/
structure BodyContext where
  /-- The status of the block is stored and has a body. -/
  hasBlockBody : Hash → Bool
  /-- `calc_past_median_time_for_known_hash` of the block. -/
  pastMedianTime : Run RuleError UInt64

def checkParentBodiesExist (ctx : BodyContext) (block : Block) : Run RuleError Unit :=
  let missing := block.header.directParents.filter fun p => ¬ ctx.hasBlockBody p
  if ¬ missing.isEmpty then .fail (.missingParents missing) else .ok ()

/-- `check_coinbase_blue_score_and_subsidy`; indexing an empty list panics. -/
def checkCoinbaseBlueScoreAndSubsidy (m : CoinbaseManager) (block : Block) : Run RuleError Unit :=
  match block.transactions with
  | [] => .panicked
  | coinbase :: _ =>
    match m.deserializeCoinbasePayload coinbase.payload with
    | .error e => .fail (.badCoinbasePayload e)
    | .ok data =>
      if data.blueScore ≠ block.header.blueScore then
        .fail (.badCoinbasePayloadBlueScore data.blueScore block.header.blueScore)
      else
        let _expectedSubsidy := m.calcBlockSubsidy block.header.daaScore
        .ok ()

/-- `check_block_transactions_in_context`, on what is left of the transactions. -/
def checkBlockTransactionsInContext (ctx : BodyContext) (header : Header) :
    List Transaction → Run RuleError Unit
  | [] => .ok ()
  | tx :: rest => do
    let arg ← match getLockTimeType tx with
      | .finalized => pure finalized
      | .daaScore => pure (daaScore header.daaScore)
      | .time => do
        let t ← ctx.pastMedianTime
        pure (medianTime t)
    match validateTxInHeaderContext tx arg with
    | .error e => .fail (.txInContextFailed tx.id e)
    | .ok () => checkBlockTransactionsInContext ctx header rest

def validateBodyInContext (m : CoinbaseManager) (ctx : BodyContext) (block : Block) :
    Run RuleError Unit := do
  checkParentBodiesExist ctx block
  checkCoinbaseBlueScoreAndSubsidy m block
  checkBlockTransactionsInContext ctx block.header block.transactions

/-- The modelled checks of body validation pass. -/
def BodyAccepted (c : Crypto) (v : TransactionValidator) (m : CoinbaseManager) (ctx : BodyContext)
    (block : Block) : Prop :=
  checkOnlyOneCoinbase block = .ok () ∧ checkTransactionsInIsolation c v block.transactions =
    .ok () ∧ checkDuplicateTransactions [] block.transactions = .ok () ∧
    validateBodyInContext m ctx block = .ok ()

instance (c : Crypto) (v : TransactionValidator) (m : CoinbaseManager) (ctx : BodyContext)
    (block : Block) : Decidable (BodyAccepted c v m ctx block) :=
  inferInstanceAs (Decidable (_ ∧ _))

end Sahyadri.Pipeline
