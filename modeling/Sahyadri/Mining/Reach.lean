import Sahyadri.Mining.Steps

/-!
# What a submission does as a whole, and which mempools are reached

* `Screened`: what a submission has to pass before it is inserted. `validateAndInsert_spec`: a
  submission that passes panics exactly if it is not `Insertable`.
-/

namespace Sahyadri.Mining

open Lib Smt Core Tx List Action
open Lib.Action (Meets)
open OrphanPool (Deserted)

namespace Mempool

variable {n : Node} {m m' : Mempool} {t : MutableTransaction} (tx : Transaction)

/-! ## 1. No orphans -/

theorem offerOutput_deserted (h : Deserted m.orphanPool) (outpoint : RegistryRef)
    (output : TransactionOutput) : offerOutput n outpoint output m = (.ok none, m) := by
  have hnone : m.orphanPool.outpointOrphan outpoint = none := by
    unfold OrphanPool.outpointOrphan
    cases m.orphanPool.outpointOwnerId.lookup outpoint with
    | none => rfl
    | some id =>
      rw [h]
      rfl
  unfold offerOutput
  rw [hnone]

theorem getUnorphaned_deserted (h : Deserted m.orphanPool) (tx : Transaction) :
    getUnorphanedTransactionsAfterAcceptedTransaction n tx m = (.ok [], m) := by
  have hloop :
      Meets (· = m) (tx.outputs.zipIdx.mapM fun e => offerOutput n ⟨tx.id, e.2 % 2 ^ 32⟩ e.1)
      (fun r s => r = tx.outputs.zipIdx.map (fun _ => none) ∧ s = m) fun _ _ => False :=
    meets_mapM fun e _ => meets_of_ok fun s hs =>
      ⟨none, m, by rw [hs]; exact offerOutput_deserted h _ _, rfl, rfl⟩
  obtain ⟨r, s, hrun, rfl, rfl⟩ := hloop.exists_ok rfl
  have hnil : ∀ l : List (TransactionOutput × Nat),
      (l.map fun _ => (none : Option MempoolTransaction)).reduceOption = [] := fun l => by
    induction l with
    | nil => rfl
    | cons _ _ ih => exact ih
  refine (bind_ok hrun _).trans ?_
  show ((.ok _ : Run RuleError (List MempoolTransaction)), s) = _
  rw [hnil]

/-! ## 2. Submissions -/

/-- A submitted transaction with its masses. -/
def weighed (n : Node) (tx : Transaction) : MutableTransaction :=
  { MutableTransaction.fromTx tx with calculatedNonContextualMasses := some (n.masses tx) }

/-- A submitted transaction as consensus and the pool get it. -/
def prepared (n : Node) (tx : Transaction) : MutableTransaction :=
  populateFlashTxFields (weighed n tx)

theorem populateFlashTxFields_tx (t : MutableTransaction) :
    (populateFlashTxFields t).tx = t.tx := by
  unfold populateFlashTxFields
  split <;> rfl

theorem prepared_tx : (prepared n tx).tx = tx := populateFlashTxFields_tx _

theorem prepared_id : (prepared n tx).id = tx.id := congrArg Transaction.id (prepared_tx tx)

theorem prepared_bare : Bare (prepared n tx) := Bare.populate (show Bare (weighed n tx) from rfl)

theorem prepared_fee {tx : Transaction} (h : isAccountModel (prepared n tx).tx = false) :
    (prepared n tx).calculatedFee = none := by
  have hflash : hasFlashPrefix tx = false := by
    rw [prepared_tx] at h
    exact (Bool.or_eq_false_iff.mp h).1
  have hnone : flashFee tx.payload = none := by
    unfold flashFee
    rw [if_pos]
    by_contra hn
    obtain ⟨hlen, hmagic⟩ := not_or.mp hn
    unfold hasFlashPrefix at hflash
    rw [decide_eq_true (not_lt.mp hlen), decide_eq_true (not_not.mp hmagic)] at hflash
    cases hflash
  unfold prepared populateFlashTxFields
  rw [show flashFee (weighed n tx).tx.payload = none from hnone]
  rfl

/-- What a submission has to pass before it is inserted. -/
structure Screened (n : Node) (v : Virtual) (m : Mempool) (tx : Transaction) (policy : RbfPolicy) :
    Prop where
  unaccepted : tx.id ∉ m.acceptedTransactions.transactions
  new : tx.id ∉ m.transactionPool.allTransactions
  standard : n.config.acceptNonStandard = true ∨
    n.checkTransactionStandardInIsolation (weighed n tx) = .ok ()
  constraint : ∃ c, m.getReplaceByFeeConstraint n (weighed n tx) policy = .ok c
  valid : n.validateMempoolTransaction v (prepared n tx) = .ok ()

theorem validateTransactionUnacceptance_ok_iff :
    m.validateTransactionUnacceptance t = .ok () ↔ t.id ∉ m.acceptedTransactions.transactions := by
  unfold validateTransactionUnacceptance
  split
  · rename_i h
    exact iff_of_false (by simp) fun hn => hn h
  · rename_i h
    exact iff_of_true rfl h

theorem validateTransactionInIsolation_ok_iff : m.validateTransactionInIsolation n t = .ok () ↔
    t.id ∉ m.transactionPool.allTransactions ∧
      (n.config.acceptNonStandard = true ∨ n.checkTransactionStandardInIsolation t = .ok ()) := by
  unfold validateTransactionInIsolation
  split
  · rename_i h
    exact iff_of_false (by simp) fun hn => hn.1 h
  · rename_i h
    split
    · rename_i hacc
      exact iff_of_true rfl ⟨h, .inl hacc⟩
    · rename_i hacc
      cases hc : n.checkTransactionStandardInIsolation t with
      | error e =>
        refine iff_of_false (by simp [Except.mapError]) fun hn => ?_
        rcases hn.2 with h' | h'
        · exact hacc h'
        · cases h'
      | ok _ => exact iff_of_true rfl ⟨h, .inr rfl⟩

/-- **The first half of a submission** passes the transaction on with its masses, and with its fee
    if it is a flash transaction. -/
theorem preValidate_ok_iff {tx : Transaction}
    {policy : RbfPolicy} {r : MutableTransaction × Option (List Feerate)} :
    m.preValidateAndPopulateTransaction n (.fromTx tx) policy = .ok r ↔
      tx.id ∉ m.acceptedTransactions.transactions ∧ tx.id ∉ m.transactionPool.allTransactions ∧
      (n.config.acceptNonStandard = true ∨
        n.checkTransactionStandardInIsolation (weighed n tx) = .ok ()) ∧
      ∃ c, m.getReplaceByFeeConstraint n (weighed n tx) policy = .ok c ∧
      r = (prepared n tx, c) := by
  show (m.validateTransactionUnacceptance (.fromTx tx) >>= fun _ =>
    m.validateTransactionInIsolation n (weighed n tx) >>= fun _ =>
      m.getReplaceByFeeConstraint n (weighed n tx) policy >>= fun c =>
        .ok (prepared n tx, c)) = .ok r ↔ _
  rw [except_bind_eq_ok]
  constructor
  · rintro ⟨_, hu, h⟩
    obtain ⟨_, hi, h⟩ := except_bind_eq_ok.mp h
    obtain ⟨c, hc, h⟩ := except_bind_eq_ok.mp h
    obtain ⟨hnew, hstd⟩ := validateTransactionInIsolation_ok_iff.mp hi
    exact ⟨validateTransactionUnacceptance_ok_iff.mp hu, hnew, hstd, c, hc, (Except.ok.inj h).symm⟩
  · rintro ⟨hu, hnew, hstd, c, hc, rfl⟩
    exact ⟨(), validateTransactionUnacceptance_ok_iff.mpr hu, except_bind_eq_ok.mpr ⟨(),
      validateTransactionInIsolation_ok_iff.mpr ⟨hnew, hstd⟩, except_bind_eq_ok.mpr ⟨c, hc, rfl⟩⟩⟩

/-- What a transaction has to pass in the second half. -/
def Passes (m : Mempool) (t : MutableTransaction) (validationResult : Except RuleError Unit) :
    Prop :=
  t.id ∉ m.transactionPool.allTransactions ∧ t.id ∉ m.acceptedTransactions.transactions ∧
    validationResult = .ok ()

section Second

variable (h : Settled n m) (hbare : Bare t)
  (hfee : isAccountModel t.tx = false → t.calculatedFee = none) (priority : Priority)
  (orphan : Orphan) (policy : RbfPolicy)

include h hbare hfee

/-- **The second half of a submission** inserts the transaction if it passes. -/
theorem postValidate_spec {res : Except RuleError Unit} (hres : res ≠ .error .rejectMissingOutpoint)
    (daaScore : UInt64) : Decides n m t (Passes m t res → Insertable n m t policy)
      (postValidateAndInsertTransaction n daaScore res t priority orphan policy m) := by
  have hreject : ∀ {e}, ¬ Passes m t res →
      postValidateAndInsertTransaction n daaScore res t priority orphan policy m = (.fail e, m) →
      Decides n m t (Passes m t res → Insertable n m t policy)
        (postValidateAndInsertTransaction n daaScore res t priority orphan policy m) :=
    fun hno he =>
    .inr ⟨fun hp => absurd hp hno, .inl ⟨_, m, he, h.shrinks⟩⟩
  let dup := fun m : Mempool => (if t.id ∈ m.transactionPool.allTransactions then
    .error (.rejectDuplicate t.id) else .ok () : Except RuleError Unit)
  let acc := fun m : Mempool => m.validateTransactionUnacceptance t
  by_cases hid : t.id ∈ m.transactionPool.allTransactions
  · exact hreject (fun hp => hp.1 hid) (bind_error (check_error (f := dup) (if_pos hid)) _)
  · have hdup : check dup m = (.ok (), m) := check_ok (if_neg hid)
    by_cases hacc : t.id ∈ m.acceptedTransactions.transactions
    · exact hreject (fun hp => hp.2.1 hacc) ((bind_ok hdup _).trans
        (bind_error (check_error (f := acc) (if_pos hacc)) _))
    · have hun : check acc m = (.ok (), m) := check_ok (if_neg hacc)
      cases res with
      | error e =>
        have hfail : postValidateAndInsertTransaction n daaScore
            (.error e) t priority orphan policy m = (.fail e, m) := by
          refine (bind_ok hdup _).trans ((bind_ok hun _).trans ?_)
          cases e with
          | rejectMissingOutpoint => exact absurd rfl hres
          | _ => rfl
        exact hreject (fun hp => by cases hp.2.2) hfail
      | ok _ =>
        have hgo : postValidateAndInsertTransaction n daaScore (.ok ()) t priority orphan policy m =
            insertValidated n daaScore t priority policy m := (bind_ok hdup _).trans (bind_ok hun _)
        rw [hgo]
        refine (insertValidated_spec h hbare hfee hid daaScore priority policy).congr ?_
        exact ⟨fun hi _ => hi, fun hi => hi ⟨hid, hacc, rfl⟩⟩

theorem completeTransaction_spec (v : Virtual) :
    ((completeTransaction n v t priority orphan policy m).1 = .panicked ∧
      ¬ (Passes m t (n.validateMempoolTransaction v t) → Insertable n m t policy)) ∨
    (Passes m t (n.validateMempoolTransaction v t) → Insertable n m t policy) ∧
      ∃ r m', completeTransaction n v t priority orphan policy m = (r, m') ∧ r ≠ .panicked ∧
        (Shrinks n m m' ∨ Inserted n m t m') := by
  obtain ⟨rest, hrun, hrest⟩ : ∃ rest, completeTransaction n v t priority orphan policy m =
      (postValidateAndInsertTransaction n v.daaScore (n.validateMempoolTransaction v t) t priority
        orphan policy >>= rest) m ∧ ∀ removed accepted, rest (removed, some accepted) = do
          let unorphaned ← getUnorphanedTransactionsAfterAcceptedTransaction n accepted
          let others ← validateAndInsertUnorphanedTransactions n v
            (m.orphanPool.allOrphans.entries.length + 1) unorphaned
          return (removed, accepted :: others) := ⟨_, rfl, fun _ _ => rfl⟩
  rw [hrun]
  -- consensus never finds an output missing
  have hres : n.validateMempoolTransaction v t ≠ .error .rejectMissingOutpoint := by
    unfold Node.validateMempoolTransaction
    split <;> simp
  rcases postValidate_spec h hbare hfee priority orphan policy hres v.daaScore
    with ⟨hpanic, hnot⟩ | ⟨hp, ⟨e, m', he, hshr⟩ | ⟨removed, m', hok, hins⟩⟩
  · refine .inl ⟨?_, hnot⟩
    rw [bind_error (Prod.ext hpanic rfl)]
  · exact .inr ⟨hp, .fail e, m', bind_error he _, by simp, .inl hshr⟩
  · refine .inr ⟨hp, .ok (removed, [t.tx]), m', ?_, by simp, .inr hins⟩
    refine (bind_ok hok _).trans ?_
    rw [hrest]
    exact bind_ok (getUnorphaned_deserted hins.settled.deserted t.tx) _

end Second

theorem validateAndInsert_spec (h : Settled n m) (v : Virtual)
    (tx : Transaction) (priority : Priority) (orphan : Orphan) (policy : RbfPolicy) :
    ((validateAndInsertTransaction n v tx priority orphan policy m).1 = .panicked ∧
      ¬ (Screened n v m tx policy → Insertable n m (prepared n tx) policy)) ∨
    (Screened n v m tx policy → Insertable n m (prepared n tx) policy) ∧
      ∃ r m', validateAndInsertTransaction n v tx priority orphan policy m = (r, m') ∧
      r ≠ .panicked ∧ (Shrinks n m m' ∨ Inserted n m (prepared n tx) m') := by
  let pre := fun m : Mempool => m.preValidateAndPopulateTransaction n (.fromTx tx) policy
  cases hpre : m.preValidateAndPopulateTransaction n (.fromTx tx) policy with
  | error e =>
    refine .inr ⟨fun hs => ?_, .fail e, m, ?_, by simp, .inl h.shrinks⟩
    · obtain ⟨c, hc⟩ := hs.constraint
      rw [preValidate_ok_iff.mpr ⟨hs.unaccepted, hs.new, hs.standard, c, hc, rfl⟩] at hpre
      cases hpre
    · exact bind_error (check_error (f := pre) hpre) _
  | ok r =>
    obtain ⟨hacc, hnew, hstd, c, hc, rfl⟩ := preValidate_ok_iff.mp hpre
    have hgo : validateAndInsertTransaction n v tx priority orphan policy m =
        completeTransaction n v (prepared n tx) priority orphan policy m :=
      bind_ok (check_ok (f := pre) hpre) _
    have hpass : Passes m (prepared n tx) (n.validateMempoolTransaction v (prepared n tx)) ↔
        Screened n v m tx policy := by
      unfold Passes
      rw [prepared_id]
      exact ⟨fun hp => ⟨hacc, hnew, hstd, ⟨c, hc⟩, hp.2.2⟩, fun hs => ⟨hnew, hacc, hs.valid⟩⟩
    rw [hgo, ← hpass]
    exact completeTransaction_spec h (prepared_bare tx) prepared_fee priority orphan policy v

/-- A transaction whose id is remembered is refused, in both halves. -/
theorem accepted_refused {tx : Transaction} (h : tx.id ∈ m.acceptedTransactions.transactions)
    (v : Virtual) (priority : Priority) (orphan : Orphan) (policy : RbfPolicy) :
    (∃ e, validateAndInsertTransaction n v tx priority orphan policy m = (.fail e, m)) ∧
      ∃ e, completeTransaction n v (prepared n tx) priority orphan policy m = (.fail e, m) := by
  constructor
  · cases hpre : m.preValidateAndPopulateTransaction n (.fromTx tx) policy with
    | error e =>
      have hpre' := check_error
        (f := fun m : Mempool => m.preValidateAndPopulateTransaction n (.fromTx tx) policy) hpre
      exact ⟨e, bind_error hpre' _⟩
    | ok r => exact absurd h (preValidate_ok_iff.mp hpre).1
  · let dup := fun m : Mempool => (if (prepared n tx).id ∈ m.transactionPool.allTransactions then
      .error (.rejectDuplicate (prepared n tx).id) else .ok () : Except RuleError Unit)
    let acc := fun m : Mempool => m.validateTransactionUnacceptance (prepared n tx)
    by_cases hid : (prepared n tx).id ∈ m.transactionPool.allTransactions
    · exact ⟨_, bind_error (bind_error (check_error (f := dup) (if_pos hid)) _) _⟩
    · have hacc := check_error (f := acc) (if_pos ((prepared_id tx).symm ▸ h))
      exact ⟨_, bind_error ((bind_ok (check_ok (f := dup) (if_neg hid)) _).trans
        (bind_error hacc _)) _⟩

/-! ## 3. Blocks and expiry -/

theorem removeDoubleSpends_eq : removeDoubleSpends n tx m = (.ok (), m) := by
  have hnone : (tx.inputs.filterMap fun input =>
      m.transactionPool.accountSet.getOutpointOwnerId input.previousOutpoint) = [] :=
    filterMap_eq_nil_iff.mpr fun _ _ => rfl
  have hnil : n.iter [] = [] := perm_nil.mp (n.iter_perm [])
  unfold removeDoubleSpends
  rw [hnone, foldl_nil, hnil]
  rfl

theorem handleBlockTransaction_ok (h : Settled n m) (daaScore : UInt64) (tx : Transaction) :
    ∃ m', handleBlockTransaction n daaScore tx m = (.ok [], m') ∧ Loses n [tx.id] m m' ∧
      ∀ id, id ∈ m'.acceptedTransactions.transactions ↔
        id = tx.id ∨ id ∈ m.acceptedTransactions.transactions := by
  obtain ⟨m₁, h₁, hloses, hacc⟩ := removeAlone_ok h tx.id
  let m₂ : Mempool := { m₁ with acceptedTransactions := { m₁.acceptedTransactions with
    transactions := m₁.acceptedTransactions.transactions.insert tx.id daaScore } }
  have hset := hloses.settled
  refine ⟨m₂, ?_, ⟨⟨hset.sound, hset.deserted⟩, hloses.lookup⟩, fun id => hacc ▸ AList.mem_insert _⟩
  have hnot : tx.id ∉ m.orphanPool.allOrphans := by
    rw [h.deserted]
    exact AList.notMem_empty _
  have hfirst : (fun m : Mempool => if tx.id ∈ m.orphanPool.allOrphans then
      ((.ok () : Run RuleError Unit), m) else removeTransaction n tx.id false m) m = (.ok (), m₁) :=
    (if_neg hnot).trans h₁
  have horphan : onOrphans (OrphanPool.removeOrphan n tx.id false) m₁ = (.ok [], m₁) :=
    within_apply (hset.deserted.removeOrphan tx.id false)
  refine (bind_ok hfirst _).trans ((bind_ok (removeDoubleSpends_eq tx) _).trans
    ((bind_ok horphan _).trans ?_))
  exact getUnorphaned_deserted (m := m₂) hset.deserted tx

theorem handleBlockTransactions_ok (daaScore : UInt64) :
    ∀ {txs : List Transaction} {m : Mempool}, Settled n m → ∃ m',
      txs.mapM (handleBlockTransaction n daaScore) m = (.ok (txs.map fun _ => []), m') ∧
      Loses n (txs.map (·.id)) m m' ∧ ∀ id, id ∈ m'.acceptedTransactions.transactions ↔
        id ∈ txs.map (·.id) ∨ id ∈ m.acceptedTransactions.transactions
  | [], m, h => ⟨m, rfl, ⟨h, fun _ => rfl⟩, by simp⟩
  | tx :: txs, m, h => by
    obtain ⟨m₁, h₁, hl₁, hacc₁⟩ := handleBlockTransaction_ok h daaScore tx
    obtain ⟨m₂, h₂, hl₂, hacc₂⟩ := @handleBlockTransactions_ok daaScore txs m₁ hl₁.settled
    refine ⟨m₂, ?_, hl₁.trans hl₂, fun id => ?_⟩
    · rw [mapM_cons, bind_ok h₁, bind_ok h₂]
      rfl
    · rw [hacc₂, hacc₁, map_cons, mem_cons, or_assoc, or_left_comm]

/-- **A new block** removes its transactions from the pool and remembers them. -/
theorem handleNewBlockTransactions_ok (h : Settled n m) (v : Virtual) (daaScore : UInt64)
    (coinbase : Transaction) (txs : List Transaction) :
    ∃ m', handleNewBlockTransactions n v daaScore (coinbase :: txs) m = (.ok [], m') ∧
      Loses n (txs.map (·.id)) m m' ∧ ∀ id, id ∈ m'.acceptedTransactions.transactions ↔
          id ∈ txs.map (·.id) ∨ id ∈ m.acceptedTransactions.transactions := by
  obtain ⟨m', hrun, hrest⟩ := @handleBlockTransactions_ok n daaScore txs m h
  refine ⟨m', (bind_ok hrun _).trans ?_, hrest⟩
  rw [show (txs.map fun _ => ([] : List MempoolTransaction)).flatten = [] by simp]
  rfl

/-- **Expiry only removes transactions.** -/
theorem expireLowPriorityTransactions_ok (h : Settled n m) (v : Virtual) (now : UInt64) :
    ∃ m', expireLowPriorityTransactions n v now m = (.ok (), m') ∧ Shrinks n m m' := by
  obtain ⟨o, ho, hdes⟩ :=
    @OrphanPool.Deserted.expireLowPriorityTransactions n _ h.deserted v.daaScore
  let m₁ : Mempool := { m with orphanPool := o }
  have h₁ : attempt (onOrphans (OrphanPool.expireLowPriorityTransactions n v.daaScore)) m =
      ((.ok (.ok ()), m₁) : Run RuleError _ × _) := attempt_eq_ok.mpr (within_apply ho)
  let m₂ : Mempool := { m₁ with
    acceptedTransactions := expireAccepted n v.daaScore now m₁.acceptedTransactions }
  let s := (m.transactionPool.collectExpiredLowPriorityTransactions n v.daaScore now).2
  have hs : s.allTransactions = m.transactionPool.allTransactions ∧ TransactionsPool.Sound n s := by
    have hsound := h.sound
    unfold s TransactionsPool.collectExpiredLowPriorityTransactions
    split
    · exact ⟨rfl, hsound⟩
    · exact ⟨rfl, hsound.keyed, hsound.bare, hsound.size, hsound.ready, hsound.ready_nodup,
        hsound.child, hsound.linked, hsound.older, hsound.tracks⟩
  let m₃ : Mempool := { m₂ with transactionPool := s }
  have h₃ : Shrinks n m m₃ := ⟨⟨hs.2, hdes⟩, fun hx => hs.1 ▸ hx⟩
  have hloop : Meets (Shrinks n m)
      ((m.transactionPool.collectExpiredLowPriorityTransactions n v.daaScore now).1.forM fun x => do
        let _ ← (attempt (removeTransaction n x true) : PoolAction _))
      (fun _ => Shrinks n m) fun _ _ => False :=
    meets_forM fun x _ => meets_of_ok fun m₄ h₄ => by
      obtain ⟨m₅, h₅, hshr, _⟩ := removeTransaction_ok h₄.settled x true
      exact ⟨(), m₅, bind_ok (attempt_eq_ok.mpr h₅) _, h₄.trans hshr⟩
  obtain ⟨_, m', hrun, hshr⟩ := hloop.exists_ok h₃
  exact ⟨m', (bind_ok h₁ _).trans hrun, hshr⟩

/-! ## 4. Reachable mempools -/

/-- A call that does not panic, with the transaction that it submits. -/
inductive Step (n : Node) (m : Mempool) : Option Transaction → Mempool → Prop
  | submit {m' : Mempool} {v : Virtual} {tx : Transaction} {priority : Priority} {orphan : Orphan}
      {policy : RbfPolicy} {r : Run RuleError (Option Transaction × List Transaction)} :
      validateAndInsertTransaction n v tx priority orphan policy m = (r, m') → r ≠ .panicked →
      Step n m (some tx) m'
  /-- The second half of a submission whose first half saw another mempool. -/
  | complete {m₀ m' : Mempool} {v : Virtual} {tx : Transaction} {t : MutableTransaction}
      {c : Option (List Feerate)} {priority : Priority} {orphan : Orphan} {policy : RbfPolicy}
      {r : Run RuleError (Option Transaction × List Transaction)} :
      m₀.preValidateAndPopulateTransaction n (.fromTx tx) policy = .ok (t, c) →
      completeTransaction n v t priority orphan policy m = (r, m') → r ≠ .panicked →
      Step n m (some tx) m'
  | remove {m' : Mempool} {id : TransactionId} {removeRedeemers : Bool} {r : Run RuleError Unit} :
      removeTransaction n id removeRedeemers m = (r, m') → r ≠ .panicked → Step n m none m'
  | block {m' : Mempool} {v : Virtual} {daaScore : UInt64} {txs : List Transaction}
      {r : Run RuleError (List Transaction)} :
      handleNewBlockTransactions n v daaScore txs m = (r, m') → r ≠ .panicked → Step n m none m'
  | expire {m' : Mempool} {v : Virtual} {now : UInt64} {r : Run RuleError Unit} :
      expireLowPriorityTransactions n v now m = (r, m') → r ≠ .panicked → Step n m none m'

/-- **A step removes transactions, or inserts the one that is submitted.** -/
theorem Step.effect {tx? : Option Transaction} (h : Settled n m) (hstep : Step n m tx? m') :
    Shrinks n m m' ∨ ∃ tx, tx? = some tx ∧ Inserted n m (prepared n tx) m' := by
  cases hstep with
  | @submit _ v tx priority orphan policy r hrun hr =>
    rcases validateAndInsert_spec h v tx priority orphan policy with ⟨hp, _⟩ | ⟨_, r', m₁, hrun',
      _, hend⟩
    · rw [hrun] at hp
      exact absurd hp hr
    · cases hrun.symm.trans hrun'
      exact hend.imp_right fun hins => ⟨tx, rfl, hins⟩
  | @complete _ _ v tx t c priority orphan policy r hpre hrun hr =>
    obtain ⟨_, _, _, _, _, he⟩ := preValidate_ok_iff.mp hpre
    cases he
    rcases completeTransaction_spec h (prepared_bare tx) prepared_fee priority orphan policy v with
      ⟨hp, _⟩ | ⟨_, r', m₁, hrun', _, hend⟩
    · rw [hrun] at hp
      exact absurd hp hr
    · cases hrun.symm.trans hrun'
      exact hend.imp_right fun hins => ⟨tx, rfl, hins⟩
  | @remove _ id removeRedeemers r hrun _ =>
    obtain ⟨m₁, hrun', hshr, _⟩ := removeTransaction_ok h id removeRedeemers
    cases hrun.symm.trans hrun'
    exact .inl hshr
  | @block _ v daaScore txs r hrun hr =>
    cases txs with
    | nil =>
      cases hrun
      exact absurd rfl hr
    | cons coinbase txs =>
      obtain ⟨m₁, hrun', hloses, _⟩ := handleNewBlockTransactions_ok h v daaScore coinbase txs
      cases hrun.symm.trans hrun'
      exact .inl hloses.shrinks
  | @expire _ v now r hrun _ =>
    obtain ⟨m₁, hrun', hshr⟩ := expireLowPriorityTransactions_ok h v now
    cases hrun.symm.trans hrun'
    exact .inl hshr

/-- The mempools that steps reach in which every submission meets the condition `C`. -/
inductive ReachableBy (n : Node) (C : Mempool → Transaction → Prop) : Mempool → Prop
  | new (now : UInt64) : ReachableBy n C (.new now)
  | step {m m' : Mempool} {tx? : Option Transaction} : ReachableBy n C m → Step n m tx? m' →
      (∀ tx, tx? = some tx → C m tx) → ReachableBy n C m'

/-- The mempools that steps reach. -/
abbrev Reachable (n : Node) : Mempool → Prop := ReachableBy n fun _ _ => True

/-- **Every reachable mempool is settled.** -/
theorem ReachableBy.settled {C : Mempool → Transaction → Prop} (h : ReachableBy n C m) :
    Settled n m := by
  induction h with
  | new now => exact ⟨TransactionsPool.sound_new now, rfl⟩
  | step _ hstep _ ih =>
    rcases hstep.effect ih with hshr | ⟨_, _, hins⟩
    · exact hshr.settled
    · exact hins.settled

end Mempool

end Sahyadri.Mining
