import Sahyadri.Mining.Orphans
import Sahyadri.Mining.Standard

/-!
# `Mempool`: submission, replacement by fee, removal, new blocks and expiry

* `preValidateAndPopulateTransaction`, `postValidateAndInsertTransaction`: the two halves of a
  submission, with the validation by consensus between them.
-/

namespace Sahyadri.Mining

open Lib Smt Core Tx Action TransactionsPool

structure AcceptedTransactions where
  /-- The accepted ids, with the DAA score of the block. -/
  transactions : Table TransactionId UInt64
  lastExpireScanDaaScore : UInt64
  lastExpireScanTime : UInt64

structure Mempool where
  transactionPool : TransactionsPool
  orphanPool : OrphanPool
  acceptedTransactions : AcceptedTransactions

def unacceptedDaaScore : UInt64 := 0xFFFFFFFFFFFFFFFF

namespace Mempool

/-- `Mempool::new`, at the time `now`. -/
def new (now : UInt64) : Mempool := ⟨.new now, .new, ⟨∅, 0, now⟩⟩

abbrev PoolAction := Action Mempool RuleError

def onPool {α : Type} (x : Action TransactionsPool RuleError α) : PoolAction α :=
  within Mempool.transactionPool (fun m p => { m with transactionPool := p }) x

def onOrphans {α : Type} (x : Action OrphanPool RuleError α) : PoolAction α :=
  within Mempool.orphanPool (fun m p => { m with orphanPool := p }) x

variable (n : Node)

/-! ## 1. Removal -/

/-- One round of the loop of `remove_transaction`. -/
def removeOne (removeRedeemers : Bool) (id : TransactionId) : PoolAction Unit := do
  let tx ← onPool (removeTransaction n id)
  let _ ← onOrphans (OrphanPool.updateOrphansAfterTransactionRemoved n tx removeRedeemers)

def removeTransaction (id : TransactionId) (removeRedeemers : Bool) : PoolAction Unit := fun m =>
  if id ∈ m.orphanPool.allOrphans then
    (do let _ ← onOrphans (OrphanPool.removeOrphan n id true) : PoolAction Unit) m
  else if id ∉ m.transactionPool.allTransactions then (.ok (), m)
  else
    (id :: if removeRedeemers then m.transactionPool.redeemerIds n id else []).forM
      (removeOne n removeRedeemers) m

/-! ## 2. Replacement by fee -/

variable (m : Mempool)

def getDoubleSpendOwner (d : DoubleSpend) : Except RuleError MempoolTransaction :=
  match m.transactionPool.allTransactions.lookup d.ownerId with
  | some transaction => .ok transaction
  | none => .error d.toError

def getDoubleSpendFeerate (d : DoubleSpend) : Except RuleError Feerate := do
  let owner ← m.getDoubleSpendOwner d
  match owner.mtx.calculatedFeerate with
  | some feerate => .ok feerate
  | none => .error d.toError

variable (t : MutableTransaction)

def validateDoubleSpendingTransaction (d : DoubleSpend) :
    Except RuleError MempoolTransaction := do
  let owner ← m.getDoubleSpendOwner d
  match t.calculatedFeerate, owner.mtx.calculatedFeerate with
  | some feerate, some ownerFeerate =>
    if n.floats.gt feerate ownerFeerate then .ok owner else .error d.toError
  | _, _ => .error d.toError

/-- `get_replace_by_fee_constraint`. The threshold is the greatest of the fee rates returned. -/
def getReplaceByFeeConstraint :
    RbfPolicy → Except RuleError (Option (List Feerate))
  | .forbidden => do
    m.transactionPool.accountSet.checkDoubleSpends n.crypto t
    return none
  | .allowed =>
    match m.transactionPool.accountSet.getDoubleSpendTransactionIds n.crypto t with
    | [] => .ok none
    | ds => do
      let feerates ← ds.mapM m.getDoubleSpendFeerate
      return some feerates
  | .mandatory =>
    match m.transactionPool.accountSet.getDoubleSpendTransactionIds n.crypto t with
    | [] => .error .rejectRbfNoDoubleSpend
    | [d] => do
      let feerate ← m.getDoubleSpendFeerate d
      return some [feerate]
    | _ => .error .rejectRbfTooManyDoubleSpendingTransactions

def executeReplaceByFee : RbfPolicy → PoolAction (Option Transaction)
  | .forbidden => do
    check fun m => m.transactionPool.accountSet.checkDoubleSpends n.crypto t
    return none
  | .allowed => fun m =>
    match m.transactionPool.accountSet.getDoubleSpendTransactionIds n.crypto t with
    | [] => (.ok none, m)
    | d :: ds => (do
        let removed ← check fun m => m.validateDoubleSpendingTransaction n t d
        ds.forM fun d => do
          let _ ← check fun m => m.validateDoubleSpendingTransaction n t d
        (d :: ds).forM fun d => removeTransaction n d.ownerId true
        return some removed.mtx.tx : PoolAction (Option Transaction)) m
  | .mandatory => fun m =>
    match m.transactionPool.accountSet.getDoubleSpendTransactionIds n.crypto t with
    | [] => (.fail .rejectRbfNoDoubleSpend, m)
    | [d] => (do
        let removed ← check fun m => m.validateDoubleSpendingTransaction n t d
        removeTransaction n d.ownerId true
        return some removed.mtx.tx : PoolAction (Option Transaction)) m
    | _ => (.fail .rejectRbfTooManyDoubleSpendingTransactions, m)

/-! ## 3. Submission -/

variable (m : Mempool) (t : MutableTransaction)

def validateTransactionUnacceptance : Except RuleError Unit :=
  if t.id ∈ m.acceptedTransactions.transactions then .error (.rejectAlreadyAccepted t.id)
    else .ok ()

def validateTransactionInIsolation : Except RuleError Unit :=
  if t.id ∈ m.transactionPool.allTransactions then .error (.rejectDuplicate t.id)
  else if n.config.acceptNonStandard then .ok ()
  else (n.checkTransactionStandardInIsolation t).mapError .rejectNonStandard

def preValidateAndPopulateTransaction (rbfPolicy : RbfPolicy) :
    Except RuleError (MutableTransaction × Option (List Feerate)) := do
  m.validateTransactionUnacceptance t
  let t := { t with calculatedNonContextualMasses := some (n.masses t.tx) }
  m.validateTransactionInIsolation n t
  let feerateThreshold ← m.getReplaceByFeeConstraint n t rbfPolicy
  return (populateFlashTxFields t, feerateThreshold)

/-- The two rules against spam. More than 80% full is an emergency. -/
def antiSpam : Except RuleError Unit :=
  let isEmergencyMode := 5 * m.transactionPool.len > 4 * n.config.maximumTransactionCount
  let pendingCount :=
    m.transactionPool.countTxsBySender ((senderAddress t.entries).getD [])
  if pendingCount ≥ 50 then .error (.rejectInvalid t.id)
  else if isEmergencyMode ∧ pendingCount > 0 then .error (.rejectInvalid t.id)
  else .ok ()

/-- The loop that evicts what `limit_transaction_count` has selected, until there is room. -/
def evict (transactionSize : Nat) : List TransactionId → PoolAction Unit
  | [] => pure ()
  | x :: rest => do
    removeTransaction n x true
    fun m =>
      if m.transactionPool.hasRoom n transactionSize then (.ok (), m)
        else evict transactionSize rest m

/-- The last part of `post_validate_and_insert_transaction`: room is made, and the transaction is
    added. -/
def insertTransaction (daaScore : UInt64) (t : MutableTransaction) (priority : Priority) :
    PoolAction Transaction := do
  let transactionSize := n.mempoolEstimatedBytes t
  let txsToRemove ← lift fun m => m.transactionPool.limitTransactionCount n t transactionSize
  evict n transactionSize txsToRemove
  lift fun m =>
    if m.transactionPool.hasRoom n transactionSize then (.ok () : Run RuleError Unit) else .panicked
  let added ← onPool (addTransaction n t daaScore priority transactionSize)
  return added.mtx.tx

/-- `post_validate_and_insert_transaction` from the replacement by fee on. -/
def replaceAndInsert (daaScore : UInt64) (t : MutableTransaction) (priority : Priority)
    (rbfPolicy : RbfPolicy) : PoolAction (Option Transaction × Option Transaction) := do
  let removed ← executeReplaceByFee n t rbfPolicy
  check fun m => m.antiSpam n t
  let accepted ← insertTransaction n daaScore t priority
  return (removed, some accepted)

/-- `post_validate_and_insert_transaction` for a transaction that consensus has found valid. -/
def insertValidated (daaScore : UInt64) (t : MutableTransaction) (priority : Priority)
    (rbfPolicy : RbfPolicy) : PoolAction (Option Transaction × Option Transaction) := do
  lift fun _ => n.validateTransactionInContext t
  replaceAndInsert n daaScore t priority rbfPolicy

/-- `post_validate_and_insert_transaction`: what was replaced and what was accepted. -/
def postValidateAndInsertTransaction (daaScore : UInt64) (validationResult : Except RuleError Unit)
    (t : MutableTransaction) (priority : Priority) (orphan : Orphan) (rbfPolicy : RbfPolicy) :
    PoolAction (Option Transaction × Option Transaction) := do
  check fun m =>
    if t.id ∈ m.transactionPool.allTransactions then .error (.rejectDuplicate t.id) else .ok ()
  check fun m => m.validateTransactionUnacceptance t
  match validationResult with
  | .ok () => insertValidated n daaScore t priority rbfPolicy
  | .error .rejectMissingOutpoint =>
    if orphan = .forbidden then fail (.rejectDisallowedOrphan t.id)
    else do
      let _ ← check fun m => m.getReplaceByFeeConstraint n t rbfPolicy
      onOrphans (OrphanPool.tryAddOrphan n daaScore t priority)
      return (none, none)
  | .error e => fail e

/-! ## 4. Orphans that are orphans no longer -/

def getOrphanTransactionRbfPolicy : Priority → RbfPolicy
  | .high => .forbidden
  | .low => .allowed

def unorphanTransaction (id : TransactionId) : PoolAction MempoolTransaction := do
  let transactions ← onOrphans (OrphanPool.removeOrphan n id false)
  match transactions with
  | [transaction] => do
    check fun m => m.validateTransactionUnacceptance transaction.mtx
    let _ ← check fun m => m.getReplaceByFeeConstraint n transaction.mtx
      (getOrphanTransactionRbfPolicy transaction.priority)
    return transaction
  | _ => panicked

/-- One round of `get_unorphaned_transactions_after_accepted_transaction`: an output is handed to
    the orphan that waits for it. -/
def offerOutput (outpoint : RegistryRef) (output : TransactionOutput) :
    PoolAction (Option MempoolTransaction) := fun m =>
  match m.orphanPool.outpointOrphan outpoint with
  | none => (.ok none, m)
  | some orphan =>
    match orphan.mtx.tx.inputs.findIdx? fun input => input.previousOutpoint = outpoint with
    | none => (.ok none, m)
    | some i =>
      match orphan.mtx.entries[i]? with
      | none => (.panicked, m)
      | some (some _) => (.ok none, m)
      | some none =>
        let entry := ⟨output.value, output.scriptPublicKey, unacceptedDaaScore, false⟩
        let orphan := { orphan with
          mtx := { orphan.mtx with entries := orphan.mtx.entries.set i (some entry) } }
        let m := { m with orphanPool := { m.orphanPool with
          allOrphans := m.orphanPool.allOrphans.insert orphan.id orphan } }
        match (orphan.mtx.isVerifiable : Run RuleError Bool) with
        | .error e => (.error e, m)
        | .ok false => (.ok none, m)
        | .ok true => (do
            let unorphaned ← attempt (unorphanTransaction n orphan.id)
            return unorphaned.toOption : PoolAction (Option MempoolTransaction)) m

def getUnorphanedTransactionsAfterAcceptedTransaction (tx : Transaction) :
    PoolAction (List MempoolTransaction) := do
  let unorphaned ← tx.outputs.zipIdx.mapM fun (output, i) =>
    offerOutput n ⟨tx.id, i % 2 ^ 32⟩ output
  return unorphaned.reduceOption

/-- One transaction in a round of `validate_and_insert_unorphaned_transactions`. -/
def insertUnorphaned (v : Virtual) (t : MempoolTransaction) :
    PoolAction (List Transaction × List MempoolTransaction) := do
  let result ← attempt (postValidateAndInsertTransaction n v.daaScore
    (n.validateMempoolTransaction v t.mtx) t.mtx t.priority .forbidden
    (getOrphanTransactionRbfPolicy t.priority))
  match result with
  | .ok (_, some accepted) => do
    let unorphaned ← getUnorphanedTransactionsAfterAcceptedTransaction n accepted
    return ([accepted], unorphaned)
  | _ => return ([], [])

/-- `validate_and_insert_unorphaned_transactions`. Each round takes orphans from the pool, so as
    many rounds as there were orphans are enough. -/
def validateAndInsertUnorphanedTransactions (v : Virtual) :
    Nat → List MempoolTransaction → PoolAction (List Transaction)
  | _, [] => pure []
  | 0, _ => pure []
  | rounds + 1, incoming => do
    let results ← incoming.mapM (insertUnorphaned n v)
    let rest ← validateAndInsertUnorphanedTransactions v rounds (results.flatMap Prod.snd)
    return results.flatMap Prod.fst ++ rest

/-! ## 5. What the manager calls -/

variable (v : Virtual)

/-- `validate_and_insert_transaction` from the validation on: the mempool is locked again, and may
    have changed. -/
def completeTransaction (t : MutableTransaction) (priority : Priority) (orphan : Orphan)
    (rbfPolicy : RbfPolicy) : PoolAction (Option Transaction × List Transaction) := do
  let orphans ← lift fun m => (.ok m.orphanPool.allOrphans.entries.length : Run RuleError Nat)
  let (removed, accepted) ← postValidateAndInsertTransaction n v.daaScore
    (n.validateMempoolTransaction v t) t priority orphan rbfPolicy
  match accepted with
  | none => return (removed, [])
  | some accepted => do
    let unorphaned ← getUnorphanedTransactionsAfterAcceptedTransaction n accepted
    let others ← validateAndInsertUnorphanedTransactions n v (orphans + 1) unorphaned
    return (removed, accepted :: others)

/-- `validate_and_insert_transaction`: what was replaced, and what was accepted. -/
def validateAndInsertTransaction (tx : Transaction) (priority : Priority) (orphan : Orphan)
    (rbfPolicy : RbfPolicy) : PoolAction (Option Transaction × List Transaction) := do
  let (t, _) ← check fun m => m.preValidateAndPopulateTransaction n (.fromTx tx) rbfPolicy
  completeTransaction n v t priority orphan rbfPolicy

def removeDoubleSpends (tx : Transaction) : PoolAction Unit := fun m =>
  (n.iter ((tx.inputs.filterMap fun input =>
    m.transactionPool.accountSet.getOutpointOwnerId input.previousOutpoint).foldl setInsert
      [])).forM
    (fun x => removeTransaction n x true) m

/-- One transaction of `handle_new_block_transactions`. -/
def handleBlockTransaction (blockDaaScore : UInt64) (tx : Transaction) :
    PoolAction (List MempoolTransaction) := do
  fun m =>
    if tx.id ∈ m.orphanPool.allOrphans then ((.ok () : Run RuleError Unit), m)
    else removeTransaction n tx.id false m
  removeDoubleSpends n tx
  let _ ← onOrphans (OrphanPool.removeOrphan n tx.id false)
  modify fun m => { m with acceptedTransactions := { m.acceptedTransactions with
    transactions := m.acceptedTransactions.transactions.insert tx.id blockDaaScore } }
  getUnorphanedTransactionsAfterAcceptedTransaction n tx

/-- `handle_new_block_transactions`; it slices the coinbase off without looking. -/
def handleNewBlockTransactions (blockDaaScore : UInt64) :
    List Transaction → PoolAction (List Transaction)
  | [] => panicked
  | _ :: txs => do
    let orphans ← lift fun m => (.ok m.orphanPool.allOrphans.entries.length : Run RuleError Nat)
    let unorphaned ← txs.mapM (handleBlockTransaction n blockDaaScore)
    validateAndInsertUnorphanedTransactions n v (orphans + 1) unorphaned.flatten

/-- `AcceptedTransactions::expire`. -/
def expireAccepted (virtualDaaScore now : UInt64) (a : AcceptedTransactions) :
    AcceptedTransactions :=
  if virtualDaaScore <
    a.lastExpireScanDaaScore + n.config.acceptedTransactionExpireScanIntervalDaaScore ∨
      now < a.lastExpireScanTime + n.config.acceptedTransactionExpireScanIntervalMilliseconds then a
  else {
    transactions := a.transactions.retain fun daaScore =>
      ¬ virtualDaaScore > daaScore + n.config.acceptedTransactionExpireIntervalDaaScore
    lastExpireScanDaaScore := virtualDaaScore
    lastExpireScanTime := now }

/-- `expire_low_priority_transactions`; errors are logged. -/
def expireLowPriorityTransactions (now : UInt64) : PoolAction Unit := do
  let _ ← attempt (onOrphans (OrphanPool.expireLowPriorityTransactions n v.daaScore))
  modify fun m =>
    { m with acceptedTransactions := expireAccepted n v.daaScore now m.acceptedTransactions }
  let expired ← onPool fun s =>
    (.ok (s.collectExpiredLowPriorityTransactions n v.daaScore now).1,
      (s.collectExpiredLowPriorityTransactions n v.daaScore now).2)
  expired.forM fun x => do
    let _ ← (attempt (removeTransaction n x true) : PoolAction _)

end Mempool

end Sahyadri.Mining
