import Sahyadri.Mining.Pool

/-!
# `OrphanPool`: transactions that wait for outputs nobody has seen

* `tryAddOrphan`, `removeOrphan`, `updateOrphansAfterTransactionRemoved`,
  `expireLowPriorityTransactions`: the operations of the pool.
-/

namespace Sahyadri.Mining

open Lib Smt Core Tx List

structure OrphanPool where
  allOrphans : MempoolTransactionCollection
  chainedOrphans : TransactionsEdges
  outpointOwnerId : Table RegistryRef TransactionId
  lastExpireScan : UInt64

namespace OrphanPool

def new : OrphanPool := ⟨∅, ∅, ∅, 0⟩

def outpointOrphan (o : OrphanPool) (outpoint : RegistryRef) : Option MempoolTransaction := do
  let id ← o.outpointOwnerId.lookup outpoint
  o.allOrphans.lookup id

variable (n : Node)

/-! ## 1. Removal -/

variable (id : TransactionId)

def removeSingleOrphan : Action OrphanPool RuleError MempoolTransaction := fun o =>
  match o.allOrphans.lookup id with
  | none => (.fail (.rejectMissingOrphanTransaction id), o)
  | some transaction =>
    let all := o.allOrphans.erase id
    let unlink := fun (c : TransactionsEdges) (parent : TransactionId) =>
      match c.lookup parent with
      | none => c
      | some chains =>
        if (setRemove chains id).isEmpty then c.erase parent
          else c.insert parent (setRemove chains id)
    let chained := ((n.iter (getParentTransactionIdsInPool all transaction.mtx)).foldl unlink
      o.chainedOrphans).erase id
    -- every input is taken out of the index; the last one that was not there is the error
    let (owners, error) := transaction.mtx.tx.inputs.zipIdx.foldl
      (fun (acc : Table RegistryRef TransactionId × Option RuleError) (input, i) =>
        (acc.1.erase input.previousOutpoint,
          if input.previousOutpoint ∈ acc.1 then acc.2
          else some (.rejectMissingOrphanOutpoint i transaction.id input.previousOutpoint)))
      (o.outpointOwnerId, none)
    let o := { o with allOrphans := all, chainedOrphans := chained, outpointOwnerId := owners }
    match error with
    | none => (.ok transaction, o)
    | some e => (.fail e, o)

def redeemerIds (o : OrphanPool) (id : TransactionId) : List TransactionId :=
  getRedeemerIdsInPool n.iter o.allOrphans o.chainedOrphans id

def removeOrphan (removeRedeemers : Bool) :
    Action OrphanPool RuleError (List MempoolTransaction) := fun o =>
  if id ∈ o.allOrphans then
    (id :: if removeRedeemers then redeemerIds n o id else []).mapM (removeSingleOrphan n) o
  else (.ok [], o)

def removeRedeemersOf : Action OrphanPool RuleError (List MempoolTransaction) :=
  fun o => (redeemerIds n o id).mapM (removeSingleOrphan n) o

/-- The entries that a removed transaction had given to an orphan are taken back. -/
def forget (removed : TransactionId) (orphan : MempoolTransaction) : MempoolTransaction :=
  { orphan with mtx := { orphan.mtx with
      entries := orphan.mtx.entries.mapIdx fun i entry =>
        match orphan.mtx.tx.inputs[i]? with
        | some input => if input.previousOutpoint.transactionId = removed then none else entry
        | none => entry } }

def updateOrphansAfterTransactionRemoved (removed : MempoolTransaction) (removeRedeemers : Bool) :
    Action OrphanPool RuleError (List MempoolTransaction) :=
  if removeRedeemers then removeRedeemersOf n removed.id
  else fun o =>
    (.ok [], (range removed.mtx.tx.outputs.length).foldl (fun o i =>
        match o.outpointOwnerId.lookup ⟨removed.id, i % 2 ^ 32⟩ with
        | none => o
        | some orphan => { o with allOrphans := o.allOrphans.modify orphan (forget removed.id) }) o)

/-! ## 2. Addition -/

/-- One round of `limit_orphan_pool_size`: the first orphan of low priority is removed. -/
def evictOrphan : Action OrphanPool RuleError Unit := fun o =>
  match (n.poolOrder.order o.allOrphans.pairs).find? fun e => e.2.priority = .low with
  | none =>
    (.fail (.rejectOrphanPoolIsFull o.allOrphans.entries.length
      n.config.maximumOrphanTransactionCount), o)
  | some (_, orphan) =>
    (do let _ ← removeOrphan n orphan.id false : Action OrphanPool RuleError Unit) o

/-- `limit_orphan_pool_size`; each round removes one orphan. -/
def limitOrphanPoolSize (freeSlots : Nat) : Action OrphanPool RuleError Unit := fun o =>
  (replicate (o.allOrphans.entries.length +
    freeSlots - n.config.maximumOrphanTransactionCount.toNat) ()).forM (fun _ => evictOrphan n) o

/-- `check_orphan_duplicate`, `check_orphan_mass` and `check_orphan_double_spend`. -/
def checkOrphan (o : OrphanPool) (t : MutableTransaction) : Except RuleError Unit := do
  if t.id ∈ o.allOrphans then .error (.rejectDuplicateOrphan t.id) else .ok ()
  match t.calculatedNonContextualMasses with
  | none => .ok ()
  | some masses =>
    if masses.max > n.config.maximumOrphanTransactionMass then
      .error (.rejectBadOrphanMass masses.max n.config.maximumOrphanTransactionMass)
    else .ok ()
  match t.tx.inputs.findSome? fun input =>
      (o.outpointOrphan input.previousOutpoint).filter fun orphan => orphan.id ≠ t.id with
  | none => .ok ()
  | some other => .error (.rejectDoubleSpendOrphan t.id other.id)

def addOrphan (virtualDaaScore : UInt64) (t : MutableTransaction) (priority : Priority) :
    Action OrphanPool RuleError Unit := fun o =>
  match (MempoolTransaction.new t priority virtualDaaScore : Run RuleError MempoolTransaction) with
  | .error e => (.error e, o)
  | .ok transaction =>
    let id := t.id
    let o := { o with
      outpointOwnerId := t.tx.inputs.foldl
        (fun owners (input : TransactionInput) => owners.insert input.previousOutpoint id)
        o.outpointOwnerId }
    let link := fun (c : TransactionsEdges) (parent chain : TransactionId) =>
      c.insert parent (setInsert ((c.lookup parent).getD []) chain)
    let incoming := (n.iter (getParentTransactionIdsInPool o.allOrphans t)).foldl
      (fun c parent => link c parent id) o.chainedOrphans
    let outgoing := (range t.tx.outputs.length).foldl (fun c i =>
        match o.outpointOrphan ⟨id, i % 2 ^ 32⟩ with
        | none => c
        | some chained => link c id chained.id) incoming
    (.ok (),
      { o with chainedOrphans := outgoing, allOrphans := o.allOrphans.insert id transaction })

def tryAddOrphan (virtualDaaScore : UInt64) (t : MutableTransaction) (priority : Priority) :
    Action OrphanPool RuleError Unit := fun o =>
  if n.config.maximumOrphanTransactionCount = 0 then (.ok (), o)
  else
    match checkOrphan n o t with
    | .error e => (.fail e, o)
    | .ok () => (do
        limitOrphanPoolSize n 1
        addOrphan n virtualDaaScore t priority : Action OrphanPool RuleError Unit) o

def expireLowPriorityTransactions (virtualDaaScore : UInt64) : Action OrphanPool RuleError Unit :=
  fun o =>
  if virtualDaaScore < o.lastExpireScan + n.config.orphanExpireScanIntervalDaaScore then (.ok (), o)
  else (do
    ((n.poolOrder.order o.allOrphans.pairs).filter fun e => e.2.priority = .low ∧
        virtualDaaScore > e.2.addedAtDaaScore + n.config.orphanExpireIntervalDaaScore).forM
      fun e => do
      let _ ← removeOrphan n e.2.id false
    Action.modify fun o =>
      { o with lastExpireScan := virtualDaaScore } : Action OrphanPool RuleError Unit) o

/-! ## 3. A pool without orphans -/

/-- There are no orphans. -/
def Deserted (o : OrphanPool) : Prop := o.allOrphans = ∅

variable {n} {o : OrphanPool}

variable (h : Deserted o)

include h

theorem Deserted.redeemerIds (id : TransactionId) : redeemerIds n o id = [] := by
  unfold OrphanPool.redeemerIds getRedeemerIdsInPool
  rw [h, if_neg (AList.notMem_empty id)]

theorem Deserted.removeOrphan (id : TransactionId) (removeRedeemers : Bool) :
    removeOrphan n id removeRedeemers o = (.ok [], o) := by
  unfold OrphanPool.removeOrphan
  rw [if_neg (by rw [h]; exact AList.notMem_empty id)]

theorem Deserted.updateOrphansAfterTransactionRemoved (removed : MempoolTransaction)
    (removeRedeemers : Bool) :
    updateOrphansAfterTransactionRemoved n removed removeRedeemers o = (.ok [], o) := by
  cases removeRedeemers with
  | true =>
    show (OrphanPool.redeemerIds n o removed.id).mapM (removeSingleOrphan n) o = _
    rw [h.redeemerIds]
    rfl
  | false =>
    refine Prod.ext rfl ?_
    refine foldlRecOn (motive := fun o' => o' = o) _ _ rfl fun o' ho i _ => ?_
    subst ho
    cases o'.outpointOwnerId.lookup ⟨removed.id, i % 2 ^ 32⟩ with
    | none => rfl
    | some orphan =>
      have hmod : o'.allOrphans.modify orphan (forget removed.id) = o'.allOrphans := by
        rw [h]
        rfl
      show { o' with allOrphans := o'.allOrphans.modify orphan (forget removed.id) } = o'
      rw [hmod]

theorem Deserted.expireLowPriorityTransactions (virtualDaaScore : UInt64) :
    ∃ o', expireLowPriorityTransactions n virtualDaaScore o = (.ok (), o') ∧ Deserted o' := by
  unfold OrphanPool.expireLowPriorityTransactions
  split
  · exact ⟨o, rfl, h⟩
  · have hperm := n.poolOrder.perm o.allOrphans.pairs
    have hnil : n.poolOrder.order o.allOrphans.pairs = [] := perm_nil.mp (h ▸ hperm)
    rw [hnil]
    exact ⟨_, rfl, h⟩

end OrphanPool

end Sahyadri.Mining
