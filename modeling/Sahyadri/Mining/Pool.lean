import Sahyadri.Lib.Explore
import Sahyadri.Mining.AccountSet
import Mathlib.Data.List.Sort

/-!
# `TransactionsPool`: the transactions that wait for a block

* `Frontier`: the keys of the transactions without a parent in the pool, in the order of their
  weights. The tree behind it is a library's; here it is the sorted list of its keys.
-/

namespace Sahyadri.Mining

open Lib Smt Core Tx List FeerateTransactionKey

/-! ## 1. The frontier -/

/-- `Frontier`; the average mass is for fee estimates only. -/
structure Frontier where
  searchTree : List FeerateTransactionKey
  totalMass : UInt64

namespace Frontier

variable (fl : Floats)

def new : Frontier := ⟨[], 0⟩

/-- `insert`; a key that compares as equal is not entered again. -/
def insert (f : Frontier) (key : FeerateTransactionKey) : Frontier :=
  if f.searchTree.any (same fl key) then f
  else ⟨f.searchTree.orderedInsert (le fl) key, f.totalMass + key.mass⟩

def remove (f : Frontier) (key : FeerateTransactionKey) : Frontier :=
  if f.searchTree.any (same fl key) then
    ⟨f.searchTree.eraseP (same fl key), f.totalMass - key.mass⟩
  else f

variable {key k : FeerateTransactionKey} {f : Frontier}

theorem mem_insert (h : k ∈ (f.insert fl key).searchTree) : k = key ∨ k ∈ f.searchTree := by
  unfold insert at h
  split at h
  · exact .inr h
  · exact mem_cons.mp ((perm_orderedInsert _ _ _).mem_iff.mp h)

theorem nodup_insert (h : f.searchTree.Nodup) (key : FeerateTransactionKey) :
    (f.insert fl key).searchTree.Nodup := by
  unfold insert
  split
  · exact h
  · rename_i hany
    refine (perm_orderedInsert _ _ _).nodup_iff.mpr (nodup_cons.mpr ⟨fun hm => hany ?_, h⟩)
    exact any_eq_true.mpr ⟨key, hm, decide_eq_true ⟨rfl, rfl, rfl⟩⟩

theorem nodup_remove (h : f.searchTree.Nodup) (key : FeerateTransactionKey) :
    (f.remove fl key).searchTree.Nodup := by
  unfold remove
  split
  · exact h.sublist eraseP_sublist
  · exact h

theorem mem_of_mem_remove (h : k ∈ (f.remove fl key).searchTree) : k ∈ f.searchTree := by
  unfold remove at h
  split at h
  · exact mem_of_mem_eraseP h
  · exact h

variable {p : TransactionId → Bool}

theorem filter_insert (h : p key.tx.id = false) : (f.insert fl key).searchTree.filter
      (fun k => p k.tx.id) = f.searchTree.filter (fun k => p k.tx.id) := by
  unfold insert
  split
  · rfl
  · rw [orderedInsert_eq_take_drop, filter_append, filter_cons_of_neg (by simp [h]),
      ← filter_append, takeWhile_append_dropWhile]

theorem filter_remove (h : p key.tx.id = false) : (f.remove fl key).searchTree.filter
      (fun k => p k.tx.id) = f.searchTree.filter (fun k => p k.tx.id) := by
  unfold remove
  split
  · rename_i hany
    obtain ⟨k, hk, hsame⟩ := any_eq_true.mp hany
    obtain ⟨k', l₁, l₂, _, hp, hsplit, herase⟩ := exists_of_eraseP hk hsame
    have hid : key.tx.id = k'.tx.id := (of_decide_eq_true hp).2.2
    rw [herase, hsplit, filter_append, filter_append, filter_cons_of_neg (by rw [← hid]; simp [h])]
  · rfl

theorem ne_of_mem_remove (hnd : f.searchTree.Nodup)
    (huniq : ∀ k ∈ f.searchTree, k.tx.id = key.tx.id → k = key)
    (h : k ∈ (f.remove fl key).searchTree) : k ≠ key := by
  intro he
  subst he
  have hm := mem_of_mem_remove fl h
  have hself : same fl k k = true := decide_eq_true ⟨rfl, rfl, rfl⟩
  unfold remove at h
  rw [if_pos (any_eq_true.mpr ⟨k, hm, hself⟩)] at h
  -- the first key that compares as equal has the same id, so it is this key
  obtain ⟨k', l₁, l₂, _, hp, hsplit, herase⟩ := exists_of_eraseP hm hself
  have hk' : k' ∈ f.searchTree := hsplit ▸ mem_append_right _ mem_cons_self
  obtain rfl := huniq k' hk' (of_decide_eq_true hp).2.2.symm
  rw [herase] at h
  rw [hsplit] at hnd
  exact (nodup_middle.mp hnd).notMem h

end Frontier

/-! ## 2. Relations between transactions -/

/-- `TransactionsEdges`: sets of ids. -/
abbrev TransactionsEdges := Table TransactionId (List TransactionId)

def setInsert (l : List TransactionId) (id : TransactionId) : List TransactionId :=
  if id ∈ l then l else l ++ [id]

def setRemove (l : List TransactionId) (id : TransactionId) : List TransactionId :=
  l.filter (· ≠ id)

/-- The pooled transactions by id. -/
abbrev MempoolTransactionCollection := Table TransactionId MempoolTransaction

def getParentTransactionIdsInPool (all : MempoolTransactionCollection) (t : MutableTransaction) :
    List TransactionId :=
  (t.tx.inputs.map fun i => i.previousOutpoint.transactionId).foldl
    (fun parents id => if id ∈ all then setInsert parents id else parents) []

variable (iter : List TransactionId → List TransactionId)

/-- What is chained to a transaction, in the order of an iteration. -/
def redeemersOf (chained : TransactionsEdges)
    (id : TransactionId) : List TransactionId := iter ((chained.lookup id).getD [])

def getRedeemerIdsInPool
    (all : MempoolTransactionCollection) (chained : TransactionsEdges) (id : TransactionId) :
    List TransactionId :=
  if id ∈ all then
    match explore (fun x => some (redeemersOf iter chained x)) (fun y => y ∉ all)
      (all.keys.length + 2) [id] [] with
    | .ok descendants => descendants
    | .error _ => []
  else []

abbrev Chained (all : MempoolTransactionCollection)
    (chained : TransactionsEdges) : TransactionId → TransactionId → Prop :=
  Leads (redeemersOf iter chained) fun y => y ∉ all

/-- **The search for redeemers ends**, and finds what is chained to the transaction directly or
    through others. -/
theorem getRedeemerIdsInPool_spec {iter : List TransactionId → List TransactionId}
    {all : MempoolTransactionCollection} {chained : TransactionsEdges} {id : TransactionId}
    (hid : id ∈ all) : explore (fun x => some (redeemersOf iter chained x)) (fun y => y ∉ all)
        (all.keys.length + 2) [id] [] = .ok (getRedeemerIdsInPool iter all chained id) ∧
      (getRedeemerIdsInPool iter all chained id).Nodup ∧
      ∀ x, x ∈ getRedeemerIdsInPool iter all chained id ↔
        Relation.TransGen (Chained iter all chained) id x := by
  have hin : ∀ x y, Chained iter all chained x y → y ∈ all.keys := fun x y h =>
    AList.mem_keys.mp (not_not.mp (of_decide_eq_false h.2))
  obtain ⟨l, hl, hnd, hmem⟩ := explore_from hin id
  have heq : getRedeemerIdsInPool iter all chained id = l := by
    unfold getRedeemerIdsInPool
    rw [if_pos hid, hl]
  rw [heq]
  exact ⟨hl, hnd, hmem⟩

/-! ## 3. The pool -/

structure TransactionsPool where
  allTransactions : MempoolTransactionCollection
  /-- The parents that each pooled transaction has in the pool. -/
  parentTransactions : TransactionsEdges
  /-- What is chained to each pooled transaction. -/
  chainedTransactions : TransactionsEdges
  readyTransactions : Frontier
  lastExpireScanDaaScore : UInt64
  lastExpireScanTime : UInt64
  estimatedSize : Nat
  accountSet : MempoolAccountSet

/-- The test of `add_mempool_transaction` for payloads that go into the account model. -/
def isAccountModel (tx : Transaction) : Bool := hasFlashPrefix tx || hasDidPrefix tx

namespace TransactionsPool

def new (now : UInt64) : TransactionsPool := ⟨∅, ∅, ∅, .new, 0, now, 0, .new⟩

def len (s : TransactionsPool) : Nat := s.allTransactions.entries.length

variable (n : Node)

/-- `add_mempool_transaction`. The relations are written before the account set can reject. -/
def addMempoolTransaction (transaction : MempoolTransaction) (transactionSize : Nat) :
    Action TransactionsPool RuleError Unit := fun s =>
  let id := transaction.id
  if id ∈ s.allTransactions then (.panicked, s)
  else
    match (if isAccountModel transaction.mtx.tx then .ok true
      else transaction.mtx.isFullyPopulated : Run RuleError Bool) with
    | .error e => (.error e, s)
    | .ok false => (.panicked, s)
    | .ok true =>
      let parents := getParentTransactionIdsInPool s.allTransactions transaction.mtx
      let s := { s with
        parentTransactions := s.parentTransactions.insert id parents
        readyTransactions :=
          if parents.isEmpty then s.readyTransactions.insert n.floats (.ofTransaction transaction)
          else s.readyTransactions
        chainedTransactions := (n.iter parents).foldl
          (fun c parent => c.insert parent (setInsert ((c.lookup parent).getD []) id))
          s.chainedTransactions }
      match s.accountSet.addTransaction n.crypto transaction.mtx with
      | .error e => (.fail e, s)
      | .ok accountSet =>
        (.ok (), { s with
          accountSet
          estimatedSize := s.estimatedSize + transactionSize
          allTransactions := s.allTransactions.insert id transaction })

def addTransaction (transaction : MutableTransaction) (virtualDaaScore : UInt64)
    (priority : Priority)
    (transactionSize : Nat) : Action TransactionsPool RuleError MempoolTransaction := do
  let transaction ← Action.lift fun _ => MempoolTransaction.new transaction priority virtualDaaScore
  addMempoolTransaction n transaction transactionSize
  Action.lift fun s =>
    match s.allTransactions.lookup transaction.id with
    | some added => .ok added
    | none => .panicked

variable (id : TransactionId)

/-- The first loop of `remove_transaction`: the transaction is no longer chained to its parents. -/
def unlinkParents (s : TransactionsPool) : TransactionsPool :=
  { s with
    chainedTransactions := (n.iter ((s.parentTransactions.lookup id).getD [])).foldl
      (fun c parent => c.modify parent (setRemove · id)) s.chainedTransactions }

/-- One round of the second loop of `remove_transaction`: a chained transaction loses a parent, and
    is ready if it has none left. -/
def releaseChain (s : TransactionsPool) (chain : TransactionId) :
    Run RuleError TransactionsPool :=
  match s.parentTransactions.lookup chain with
  | none => .ok s
  | some parents =>
    let parents := setRemove parents id
    let s := { s with parentTransactions := s.parentTransactions.insert chain parents }
    if parents.isEmpty then
      match s.allTransactions.lookup chain with
      | none => .panicked
      | some tx =>
        .ok { s with readyTransactions := s.readyTransactions.insert n.floats (.ofTransaction tx) }
    else .ok s

def removeTransaction : Action TransactionsPool RuleError MempoolTransaction := fun s =>
  let s := unlinkParents n id s
  match (redeemersOf n.iter s.chainedTransactions id).foldlM (releaseChain n id) s with
  | .error e => (.error e, s)
  | .ok s =>
    let s := { s with
      parentTransactions := s.parentTransactions.erase id
      chainedTransactions := s.chainedTransactions.erase id }
    match s.allTransactions.lookup id with
    | none => (.fail (.rejectMissingTransaction id), s)
    | some removed =>
      let s := { s with
        allTransactions := s.allTransactions.erase id
        readyTransactions := s.readyTransactions.remove n.floats (.ofTransaction removed)
        accountSet := s.accountSet.removeTransaction removed.mtx
        estimatedSize := s.estimatedSize - n.mempoolEstimatedBytes removed.mtx }
      if s.allTransactions.entries.isEmpty ∧ s.estimatedSize ≠ 0 then (.panicked, s)
      else (.ok removed, s)

def redeemerIds (s : TransactionsPool) (id : TransactionId) : List TransactionId :=
  getRedeemerIdsInPool n.iter s.allTransactions s.chainedTransactions id

/-- The loop of `limit_transaction_count`, with what it has selected so far and its size. -/
def selectEvictions (s : TransactionsPool)
    (t : MutableTransaction) (transactionSize : Nat) (threshold : Feerate) :
    List FeerateTransactionKey → List TransactionId → Nat → Run RuleError (List TransactionId)
  | [], _, _ => .fail .rejectMempoolIsFull
  | key :: rest, selected, freed =>
    match s.allTransactions.lookup key.tx.id with
    | none => .panicked
    | some tx =>
      if tx.priority ≠ .low ∨ t.hasParentInSet (redeemerIds n s tx.id ++ [tx.id]) then
        selectEvictions s t transactionSize threshold rest selected freed
      else
        match tx.mtx.calculatedFeerate with
        | none => .panicked
        | some feerate =>
          if n.floats.gt feerate threshold then .fail .rejectMempoolIsFull
          else
            let selected := selected ++ [tx.id]
            let freed := freed + n.mempoolEstimatedBytes tx.mtx
            if s.len + 1 - selected.length ≤ n.config.maximumTransactionCount ∧ s.estimatedSize +
              transactionSize - freed ≤ n.config.mempoolSizeLimit then .ok selected
            else selectEvictions s t transactionSize threshold rest selected freed

/-- The test for room in the pool. -/
def hasRoom (s : TransactionsPool) (transactionSize : Nat) : Prop :=
  s.len < n.config.maximumTransactionCount ∧
    s.estimatedSize + transactionSize ≤ n.config.mempoolSizeLimit

instance (s : TransactionsPool) (transactionSize : Nat) : Decidable (hasRoom n s transactionSize) :=
  inferInstanceAs (Decidable (_ ∧ _))

def limitTransactionCount (s : TransactionsPool) (t : MutableTransaction) (transactionSize : Nat) :
    Run RuleError (List TransactionId) :=
  if hasRoom n s transactionSize then .ok []
  else
    match t.calculatedFeerate with
    | none => .panicked
    | some threshold =>
      selectEvictions n s t transactionSize threshold s.readyTransactions.searchTree [] 0

/-- The address that `count_txs_by_sender` makes of an entry. -/
def senderAddress (entries : List (Option RegistryUnit)) : Option Bytes :=
  match entries.head? with
  | some (some entry) =>
    some (u16Le entry.scriptPublicKey.version ++
      [UInt8.ofNat entry.scriptPublicKey.script.length] ++ entry.scriptPublicKey.script)
  | _ => none

/-- `count_txs_by_sender`, for the address as bytes; the empty address stands for none. -/
def countTxsBySender (s : TransactionsPool) (target : Bytes) : Nat :=
  s.allTransactions.pairs.countP fun e => senderAddress e.2.mtx.entries = some target

/-- `collect_expired_low_priority_transactions`, at the time `now`. -/
def collectExpiredLowPriorityTransactions (virtualDaaScore now : UInt64) (s : TransactionsPool) :
    List TransactionId × TransactionsPool :=
  if virtualDaaScore < s.lastExpireScanDaaScore + n.config.transactionExpireScanIntervalDaaScore ∨
      now < s.lastExpireScanTime + n.config.transactionExpireScanIntervalMilliseconds then ([], s)
  else
    (((n.poolOrder.order s.allTransactions.pairs).filter fun e => e.2.priority = .low ∧
        virtualDaaScore > e.2.addedAtDaaScore + n.config.transactionExpireIntervalDaaScore).map
        (·.2.id), { s with lastExpireScanDaaScore := virtualDaaScore, lastExpireScanTime := now })

end TransactionsPool

end Sahyadri.Mining
