import Sahyadri.Mining.Insert
import Sahyadri.Mining.Room

/-!
# What removals, replacements and insertions do to a mempool

* `Settled`: a sound pool of transactions and no orphans. Nothing becomes an orphan, since the
  validation by consensus never finds an output missing.
-/

namespace Sahyadri.Mining

open Lib Smt Core Tx List Action AList
open TransactionsPool (Sound Drop mem_of_lookup)
open OrphanPool (Deserted)

namespace Mempool

variable {n : Node} {m m' : Mempool} {t : MutableTransaction}

/-- A mempool between two calls. -/
structure Settled (n : Node) (m : Mempool) : Prop where
  sound : Sound n m.transactionPool
  deserted : Deserted m.orphanPool

/-- A settled mempool with no transactions but those from before. -/
structure Shrinks (n : Node) (m m' : Mempool) : Prop where
  settled : Settled n m'
  sub : ∀ {id x}, m'.transactionPool.allTransactions.lookup id = some x →
    m.transactionPool.allTransactions.lookup id = some x

theorem Settled.shrinks (h : Settled n m) : Shrinks n m m := ⟨h, fun h => h⟩

theorem Shrinks.trans {m₁ m₂ m₃ : Mempool} (h₁ : Shrinks n m₁ m₂) (h₂ : Shrinks n m₂ m₃) :
    Shrinks n m₁ m₃ := ⟨h₂.settled, fun h => h₁.sub (h₂.sub h)⟩

variable {id : TransactionId} {gone : List TransactionId} {policy : RbfPolicy} {d : DoubleSpend}

theorem Shrinks.mem (h : Shrinks n m m') (hid : id ∈ m'.transactionPool.allTransactions) :
    id ∈ m.transactionPool.allTransactions := by
  obtain ⟨x, hx⟩ := Option.isSome_iff_exists.mp (lookup_isSome.mpr hid)
  exact mem_of_lookup (h.sub hx)

/-! ## 1. Removal -/

theorem removeOne_ok (h : Settled n m) (hid : id ∈ m.transactionPool.allTransactions)
    (removeRedeemers : Bool) :
    ∃ s', removeOne n removeRedeemers id m = (.ok (), { m with transactionPool := s' }) ∧
    Sound n s' ∧ Drop [id] m.transactionPool s' := by
  obtain ⟨x, hx⟩ := Option.isSome_iff_exists.mp (lookup_isSome.mpr hid)
  obtain ⟨s', hs', hsound, hdrop⟩ := TransactionsPool.removeTransaction_ok h.sound hx
  have hpool : onPool (TransactionsPool.removeTransaction n id) m =
      (.ok x, { m with transactionPool := s' }) := within_apply hs'
  have horphans : onOrphans (OrphanPool.updateOrphansAfterTransactionRemoved n x removeRedeemers)
      { m with transactionPool := s' } = (.ok [], { m with transactionPool := s' }) :=
    within_apply (h.deserted.updateOrphansAfterTransactionRemoved x removeRedeemers)
  refine ⟨s', ?_, hsound, hdrop⟩
  unfold removeOne
  rw [bind_ok hpool, bind_ok horphans]
  rfl

theorem removeAll_ok {removeRedeemers : Bool} : ∀ {ids : List TransactionId} {m : Mempool},
    Settled n m → ids.Nodup → (∀ x ∈ ids, x ∈ m.transactionPool.allTransactions) →
      ∃ s', ids.forM (removeOne n removeRedeemers) m = (.ok (), { m with transactionPool := s' }) ∧
        Sound n s' ∧ Drop ids m.transactionPool s'
  | [], m, h, _, _ => ⟨m.transactionPool, rfl, h.sound, .refl _⟩
  | id :: ids, m, h, hnd, hin => by
    obtain ⟨hnot, hnd⟩ := nodup_cons.mp hnd
    obtain ⟨s₁, h₁, hsound₁, hdrop₁⟩ := removeOne_ok h (hin id mem_cons_self) removeRedeemers
    have hin₁ : ∀ x ∈ ids, x ∈ s₁.allTransactions := fun x hx => by
      refine hdrop₁.mem_iff.mpr ⟨hin x (mem_cons_of_mem _ hx), fun he => hnot ?_⟩
      exact mem_singleton.mp he ▸ hx
    obtain ⟨s₂, h₂, hsound₂, hdrop₂⟩ := @removeAll_ok removeRedeemers ids
      { m with transactionPool := s₁ } ⟨hsound₁, h.deserted⟩ hnd hin₁
    refine ⟨s₂, ?_, hsound₂, hdrop₁.trans hdrop₂⟩
    show (removeOne n removeRedeemers id >>= fun _ => ids.forM (removeOne n removeRedeemers)) m = _
    rw [bind_ok h₁, h₂]

/-- **A transaction is removed with its redeemers**, without a failure. -/
theorem removeWithRedeemers_ok (h : Settled n m) (hid : id ∈ m.transactionPool.allTransactions) :
    ∃ s', removeTransaction n id true m = (.ok (), { m with transactionPool := s' }) ∧ Sound n s' ∧
      Drop (id :: m.transactionPool.redeemerIds n id) m.transactionPool s' := by
  obtain ⟨hnd, hin, _⟩ := h.sound.redeemerIds hid
  obtain ⟨s', hs', hsound, hdrop⟩ := @removeAll_ok n true _ m h hnd fun x hx => by
    rcases mem_cons.mp hx with rfl | hx
    · exact hid
    · exact hin x hx
  refine ⟨s', ?_, hsound, hdrop⟩
  unfold removeTransaction
  rw [if_neg (by rw [h.deserted]; exact notMem_empty id), if_neg (not_not.mpr hid)]
  exact hs'

/-- A settled mempool that has lost the transactions `gone` and no others. -/
structure Loses (n : Node) (gone : List TransactionId) (m m' : Mempool) : Prop where
  settled : Settled n m'
  lookup : ∀ x, m'.transactionPool.allTransactions.lookup x =
    if x ∈ gone then none else m.transactionPool.allTransactions.lookup x

theorem Loses.notMem (h : Loses n gone m m') (hid : id ∈ gone) :
    id ∉ m'.transactionPool.allTransactions :=
  lookup_eq_none.mp ((h.lookup id).trans (if_pos hid))

theorem Loses.shrinks (h : Loses n gone m m') : Shrinks n m m' :=
  ⟨h.settled, fun {id x} hx => by
    have hid : id ∉ gone := fun hid => h.notMem hid (mem_of_lookup hx)
    rwa [h.lookup, if_neg hid] at hx⟩

theorem Loses.trans {m₂ : Mempool} {gone gone' : List TransactionId} (h : Loses n gone m m')
    (h' : Loses n gone' m' m₂) : Loses n (gone ++ gone') m m₂ := by
  refine ⟨h'.settled, fun x => ?_⟩
  rw [h'.lookup, h.lookup]
  by_cases hx' : x ∈ gone'
  · rw [if_pos hx', if_pos (mem_append_right _ hx')]
  · by_cases hx : x ∈ gone
    · rw [if_neg hx', if_pos hx, if_pos (mem_append_left _ hx)]
    · rw [if_neg hx', if_neg hx, if_neg (mem_append.not.mpr (not_or_intro hx hx'))]

/-- **A removal without redeemers** takes out its transaction and nothing else. -/
theorem removeAlone_ok (h : Settled n m) (id : TransactionId) :
    ∃ m', removeTransaction n id false m = (.ok (), m') ∧ Loses n [id] m m' ∧
      m'.acceptedTransactions = m.acceptedTransactions := by
  have horphan : id ∉ m.orphanPool.allOrphans := by
    rw [h.deserted]
    exact notMem_empty id
  by_cases hid : id ∈ m.transactionPool.allTransactions
  · obtain ⟨s', hs', hsound, hdrop⟩ := removeOne_ok h hid false
    refine ⟨{ m with transactionPool := s' }, ?_, ⟨⟨hsound, h.deserted⟩, hdrop.lookup⟩, rfl⟩
    unfold removeTransaction
    rw [if_neg horphan, if_neg (not_not.mpr hid)]
    show (removeOne n false id >>= fun _ => pure ()) m = _
    rw [bind_ok hs']
    rfl
  · refine ⟨m, ?_, ⟨h, fun x => ?_⟩, rfl⟩
    · unfold removeTransaction
      rw [if_neg horphan, if_pos hid]
    · by_cases hx : x ∈ [id]
      · rw [if_pos hx, mem_singleton.mp hx]
        exact lookup_eq_none.mpr hid
      · rw [if_neg hx]

/-- **A removal succeeds**, whatever its arguments. -/
theorem removeTransaction_ok (h : Settled n m) (id : TransactionId) (removeRedeemers : Bool) :
    ∃ m', removeTransaction n id removeRedeemers m = (.ok (), m') ∧ Shrinks n m m' ∧
      id ∉ m'.transactionPool.allTransactions := by
  by_cases hid : removeRedeemers = true ∧ id ∈ m.transactionPool.allTransactions
  · obtain ⟨rfl, hid⟩ := hid
    obtain ⟨s', hs', hsound, hdrop⟩ := removeWithRedeemers_ok h hid
    refine ⟨_, hs', ⟨⟨hsound, h.deserted⟩, fun hx => (hdrop.lookup_some.mp hx).2⟩, fun hm => ?_⟩
    exact (hdrop.mem_iff.mp hm).2 mem_cons_self
  · have hsame : removeTransaction n id removeRedeemers m = removeTransaction n id false m := by
      cases removeRedeemers with
      | false => rfl
      | true =>
        have hnot : id ∉ m.transactionPool.allTransactions := fun hin => hid ⟨rfl, hin⟩
        unfold removeTransaction
        rw [if_pos hnot, if_pos hnot]
    obtain ⟨m', hm', hloses, -⟩ := removeAlone_ok h id
    exact ⟨m', hsame.trans hm', hloses.shrinks, hloses.notMem mem_cons_self⟩

/-- The evictions end with room, or with all that was selected gone. -/
theorem evict_ok {size : Nat} : ∀ {ids : List TransactionId} {m : Mempool}, Settled n m →
    ∃ m', evict n size ids m = (.ok (), m') ∧ Shrinks n m m' ∧
      (m'.transactionPool.hasRoom n size ∨ ∀ x ∈ ids, x ∉ m'.transactionPool.allTransactions)
  | [], m, h => ⟨m, rfl, h.shrinks, .inr fun _ hx => absurd hx not_mem_nil⟩
  | x :: ids, m, h => by
    obtain ⟨m₁, h₁, hshr₁, hout⟩ := removeTransaction_ok h x true
    have hev : evict n size (x :: ids) m =
        if m₁.transactionPool.hasRoom n size then (.ok (), m₁) else evict n size ids m₁ :=
      bind_ok h₁ _
    rw [hev]
    by_cases hroom : m₁.transactionPool.hasRoom n size
    · rw [if_pos hroom]
      exact ⟨m₁, rfl, hshr₁, .inl hroom⟩
    · rw [if_neg hroom]
      obtain ⟨m₂, h₂, hshr₂, hend⟩ := @evict_ok size ids m₁ hshr₁.settled
      refine ⟨m₂, h₂, hshr₁.trans hshr₂, hend.imp_right fun hall y hy => ?_⟩
      rcases mem_cons.mp hy with rfl | hy
      · exact fun hm => hout (hshr₂.mem hm)
      · exact hall y hy

/-! ## 2. Replacement by fee -/

/-- What a replacement takes out for `t`: nothing, or the owner of its flash id and its
    redeemers. -/
inductive Displaces (n : Node) (m : Mempool) (t : MutableTransaction) (policy : RbfPolicy) :
    List TransactionId → Prop
  | nothing : policy ≠ .mandatory → m.transactionPool.accountSet.Free n.crypto t →
      Displaces n m t policy []
  | owner {d : DoubleSpend} {x : MempoolTransaction} {feerate ownerFeerate : Feerate} :
      policy ≠ .forbidden → m.transactionPool.accountSet.getDoubleSpendTransactionIds n.crypto t =
      [d] → m.transactionPool.allTransactions.lookup d.ownerId = some x →
      t.calculatedFeerate = some feerate → x.mtx.calculatedFeerate = some ownerFeerate →
      n.floats.gt feerate ownerFeerate = true →
      Displaces n m t policy (d.ownerId :: m.transactionPool.redeemerIds n d.ownerId)

/-- **A transaction with a higher fee rate may replace the owner of its flash id.** -/
theorem validateDoubleSpendingTransaction_ok_iff {x : MempoolTransaction} :
    m.validateDoubleSpendingTransaction n t d = .ok x ↔
      m.transactionPool.allTransactions.lookup d.ownerId = some x ∧ ∃ feerate ownerFeerate,
        t.calculatedFeerate = some feerate ∧ x.mtx.calculatedFeerate = some ownerFeerate ∧
          n.floats.gt feerate ownerFeerate = true := by
  unfold validateDoubleSpendingTransaction getDoubleSpendOwner
  cases hl : m.transactionPool.allTransactions.lookup d.ownerId with
  | none => exact iff_of_false (by simp [bind, Except.bind]) fun h => (by cases h.1)
  | some y =>
    dsimp only [bind, Except.bind]
    cases ht : t.calculatedFeerate with
    | none =>
      refine iff_of_false (by simp) ?_
      rintro ⟨_, _, _, he, _⟩
      cases he
    | some feerate =>
      cases hy : y.mtx.calculatedFeerate with
      | none =>
        refine iff_of_false (by simp) ?_
        rintro ⟨he, _, _, _, hx, _⟩
        cases he
        cases hy.symm.trans hx
      | some ownerFeerate =>
        dsimp only
        split
        · rename_i hgt
          constructor
          · intro he
            cases he
            exact ⟨rfl, feerate, ownerFeerate, rfl, hy, hgt⟩
          · rintro ⟨he, _⟩
            cases he
            rfl
        · rename_i hgt
          refine iff_of_false (by simp) ?_
          rintro ⟨he, _, _, hf, hx, hgt'⟩
          cases he
          cases hf
          cases hy.symm.trans hx
          exact hgt hgt'

/-- The pool `s'` without the transactions `gone`, in which the flash id of `t` is free. -/
structure Cleared (n : Node) (m : Mempool) (t : MutableTransaction) (gone : List TransactionId)
    (s' : TransactionsPool) : Prop where
  sound : Sound n s'
  drop : Drop gone m.transactionPool s'
  closed : ∀ x ∈ gone, ∀ y ∈ m.transactionPool.chainedTo x, y ∈ gone
  free : s'.accountSet.Free n.crypto t

/-- The part of a replacement that two of the policies share. -/
theorem replaceOwner_spec (h : Settled n m) (hpol : policy ≠ .forbidden)
    (hd : m.transactionPool.accountSet.getDoubleSpendTransactionIds n.crypto t = [d]) :
    (∃ gone s' x, Displaces n m t policy gone ∧
      check (fun m => m.validateDoubleSpendingTransaction n t d) m = (.ok x, m) ∧
      removeTransaction n d.ownerId true m = (.ok (), { m with transactionPool := s' }) ∧
      Cleared n m t gone s') ∨
    (∃ e, check (fun m => m.validateDoubleSpendingTransaction n t d) m = (.fail e, m)) ∧
      ∀ gone, ¬ Displaces n m t policy gone := by
  obtain ⟨_, pubkey, debit, flashId, hflash, howner⟩ := getDoubleSpendTransactionIds_cons hd
  cases hv : m.validateDoubleSpendingTransaction n t d with
  | error e =>
    refine .inr ⟨⟨e, check_error hv⟩, fun gone hgone => ?_⟩
    cases hgone with
    | nothing _ hfree =>
      rw [getDoubleSpendTransactionIds_nil_iff.mpr hfree] at hd
      cases hd
    | owner _ hd' hx hf hf' hgt =>
      obtain rfl := singleton_inj.mp (hd'.symm.trans hd)
      rw [validateDoubleSpendingTransaction_ok_iff.mpr ⟨hx, _, _, hf, hf', hgt⟩] at hv
      cases hv
  | ok x =>
    obtain ⟨hx, feerate, ownerFeerate, hf, hf', hgt⟩ :=
      validateDoubleSpendingTransaction_ok_iff.mp hv
    have hid := mem_of_lookup hx
    obtain ⟨s', hs', hsound, hdrop⟩ := removeWithRedeemers_ok h hid
    refine .inl ⟨_, s', x, .owner hpol hd hx hf hf' hgt, check_ok hv, hs', hsound, hdrop,
      fun y hy z hz => ?_, ?_⟩
    · exact mem_cons_of_mem _ ((h.sound.redeemerIds hid).2.2 y hy z hz)
    · -- the owner of the flash id was the removed transaction, and there was no other
      intro pubkey' debit' flashId' hflash'
      cases hflash.symm.trans hflash'
      cases ho : s'.accountSet.flashOwners.lookup flashId with
      | none => rfl
      | some id =>
        obtain ⟨y, _, _, hy, hey⟩ := hsound.tracks.owned ho
        obtain ⟨hout, hy⟩ := hdrop.lookup_some.mp hy
        have hsame := (h.sound.tracks.owner hy hey).1
        rw [howner] at hsame
        exact absurd (Option.some.inj hsame ▸ mem_cons_self) hout

/-- **A replacement by fee succeeds exactly where there is something that it may displace**, or
    nothing in its way. -/
theorem executeReplaceByFee_spec (h : Settled n m) (policy : RbfPolicy) :
    (∃ gone r s', Displaces n m t policy gone ∧
      executeReplaceByFee n t policy m = (.ok r, { m with transactionPool := s' }) ∧
      Cleared n m t gone s') ∨ (∃ e, executeReplaceByFee n t policy m = (.fail e, m)) ∧
        ∀ gone, ¬ Displaces n m t policy gone := by
  have hkeep : m.transactionPool.accountSet.Free n.crypto t → policy ≠ .mandatory →
      executeReplaceByFee n t policy m = (.ok none, m) → ∃ gone r s', Displaces n m t policy gone ∧
        executeReplaceByFee n t policy m = (.ok r, { m with transactionPool := s' }) ∧
        Cleared n m t gone s' := fun hfree hpol he =>
    ⟨[], none, m.transactionPool, .nothing hpol hfree, he, h.sound, .refl _,
      forall_mem_nil _, hfree⟩
  let check := fun m : Mempool => m.transactionPool.accountSet.checkDoubleSpends n.crypto t
  cases policy with
  | forbidden =>
    cases hc : m.transactionPool.accountSet.checkDoubleSpends n.crypto t with
    | ok _ =>
      have hrun : executeReplaceByFee n t .forbidden m = (.ok none, m) := by
        exact bind_ok (check_ok (f := check) hc) _
      exact .inl (hkeep (checkDoubleSpends_ok_iff.mp hc) (by simp) hrun)
    | error e =>
      refine .inr ⟨⟨e, ?_⟩, fun gone hgone => ?_⟩
      · exact bind_error (check_error (f := check) hc) _
      · cases hgone with
        | nothing _ hfree =>
          rw [checkDoubleSpends_ok_iff.mpr hfree] at hc
          cases hc
        | owner hpol => exact hpol rfl
  | allowed =>
    cases hd : m.transactionPool.accountSet.getDoubleSpendTransactionIds n.crypto t with
    | nil =>
      have hrun : executeReplaceByFee n t .allowed m = (.ok none, m) := by
        simp only [executeReplaceByFee, hd]
      exact .inl (hkeep (getDoubleSpendTransactionIds_nil_iff.mp hd) (by simp) hrun)
    | cons d ds =>
      obtain ⟨rfl, _⟩ := getDoubleSpendTransactionIds_cons hd
      rcases replaceOwner_spec h (by simp : RbfPolicy.allowed ≠ .forbidden) hd with
        ⟨gone, s', x, hdis, hv, hs', hrest⟩ | ⟨⟨e, hv⟩, hnone⟩
      · refine .inl ⟨gone, some x.mtx.tx, s', hdis, ?_, hrest⟩
        simp only [executeReplaceByFee, hd]
        rw [bind_ok hv]
        show ((removeTransaction n d.ownerId true >>= fun _ => pure ()) >>= _) m = _
        rw [bind_pure_unit]
        exact bind_ok hs' _
      · refine .inr ⟨⟨e, ?_⟩, hnone⟩
        simp only [executeReplaceByFee, hd]
        exact bind_error hv _
  | mandatory =>
    cases hd : m.transactionPool.accountSet.getDoubleSpendTransactionIds n.crypto t with
    | nil =>
      refine .inr ⟨⟨.rejectRbfNoDoubleSpend, ?_⟩, fun gone hgone => ?_⟩
      · simp only [executeReplaceByFee, hd]
      · cases hgone with
        | nothing hpol => exact hpol rfl
        | owner _ hd' =>
          rw [hd'] at hd
          cases hd
    | cons d ds =>
      obtain ⟨rfl, _⟩ := getDoubleSpendTransactionIds_cons hd
      rcases replaceOwner_spec h (by simp : RbfPolicy.mandatory ≠ .forbidden) hd with
        ⟨gone, s', x, hdis, hv, hs', hrest⟩ | ⟨⟨e, hv⟩, hnone⟩
      · refine .inl ⟨gone, some x.mtx.tx, s', hdis, ?_, hrest⟩
        simp only [executeReplaceByFee, hd]
        rw [bind_ok hv]
        exact bind_ok hs' _
      · refine .inr ⟨⟨e, ?_⟩, hnone⟩
        simp only [executeReplaceByFee, hd]
        exact bind_error hv _

/-! ## 3. Insertion -/

theorem senderAddress_bare (h : Bare t) : TransactionsPool.senderAddress t.entries = none := by
  rw [h]
  cases t.tx.inputs.length <;> rfl

/-- **The rules against spam count nothing**: they look at entries that nobody fills in. -/
theorem antiSpam_ok (h : Sound n m.transactionPool) : m.antiSpam n t = .ok () := by
  have hzero : ∀ target, m.transactionPool.countTxsBySender target = 0 := by
    intro target
    refine countP_eq_zero.mpr fun e he => ?_
    rw [senderAddress_bare (h.bare (Table.mem_pairs.mp he))]
    simp
  unfold antiSpam
  rw [hzero, if_neg (by omega), if_neg (by omega)]

/-- The mempool after an insertion: `t` and what is left of the transactions from before. -/
structure Inserted (n : Node) (m : Mempool) (t : MutableTransaction) (m' : Mempool) : Prop where
  settled : Settled n m'
  lookup : ∃ mid priority daaScore, Shrinks n m mid ∧ t.id ∉ mid.transactionPool.allTransactions ∧
    mid.transactionPool.accountSet.Free n.crypto t ∧ m'.transactionPool.allTransactions =
      mid.transactionPool.allTransactions.insert t.id ⟨t, priority, daaScore⟩

theorem Shrinks.free (h : Shrinks n m m')
    (hs : Settled n m) (hfree : m.transactionPool.accountSet.Free n.crypto t) :
    m'.transactionPool.accountSet.Free n.crypto t := by
  intro pubkey debit flashId ht
  cases ho : m'.transactionPool.accountSet.flashOwners.lookup flashId with
  | none => rfl
  | some id =>
    obtain ⟨x, _, _, hx, hex⟩ := h.settled.sound.tracks.owned ho
    have howner := (hs.sound.tracks.owner (h.sub hx) hex).1
    rw [hfree pubkey debit flashId ht] at howner
    cases howner

/-- **An insertion panics exactly where the pool cannot take the transaction in.** -/
theorem insertTransaction_spec (h : Settled n m) (hbare : Bare t)
    (hfee : isAccountModel t.tx = false → t.calculatedFee = none)
    (hid : t.id ∉ m.transactionPool.allTransactions)
    (hfree : m.transactionPool.accountSet.Free n.crypto t) (daaScore : UInt64)
    (priority : Priority) : ((insertTransaction n daaScore t priority m).1 = .panicked ∧
      ¬ TransactionsPool.Fits n m.transactionPool t) ∨ TransactionsPool.Fits n m.transactionPool t ∧
        ((∃ e, insertTransaction n daaScore t priority m = (.fail e, m)) ∨
      ∃ m', insertTransaction n daaScore t priority m = (.ok t.tx, m') ∧ Inserted n m t m') := by
  have hpanics :=
    @TransactionsPool.Sound.limitTransactionCount_panics_iff n m.transactionPool t h.sound
  unfold insertTransaction
  cases hl : m.transactionPool.limitTransactionCount n t (n.mempoolEstimatedBytes t) with
  | error e =>
    have hlift : lift (fun m : Mempool => m.transactionPool.limitTransactionCount n t
        (n.mempoolEstimatedBytes t)) m = (.error e, m) := Prod.ext hl rfl
    rw [bind_error hlift]
    cases e with
    | panic => exact .inl ⟨rfl, (hpanics.mp hl).2⟩
    | err e =>
      have hroom : ¬ m.transactionPool.hasRoom n (n.mempoolEstimatedBytes t) := fun hroom => by
        unfold TransactionsPool.limitTransactionCount at hl
        rw [if_pos hroom] at hl
        cases hl
      refine .inr ⟨?_, .inl ⟨e, rfl⟩⟩
      by_contra hn
      rw [hpanics.mpr ⟨hroom, hn⟩] at hl
      cases hl
  | ok ids =>
    have hlift : lift (fun m : Mempool => m.transactionPool.limitTransactionCount n t
        (n.mempoolEstimatedBytes t)) m = (.ok ids, m) := Prod.ext hl rfl
    obtain ⟨mid, hev, hshr, hend⟩ := @evict_ok n (n.mempoolEstimatedBytes t) ids m h
    rw [bind_ok hlift, bind_ok hev]
    -- after the evictions there is room, and only the account model is left to ask for
    have hroom : mid.transactionPool.hasRoom n (n.mempoolEstimatedBytes t) ∧
        (TransactionsPool.Fits n m.transactionPool t ↔ isAccountModel t.tx = true) := by
      rcases h.sound.limitTransactionCount_ok hl with ⟨hroom, rfl⟩ | ⟨hrate, hnot, hmakes⟩
      · cases hev
        refine ⟨hroom, ?_⟩
        unfold TransactionsPool.Fits
        rw [if_pos hroom]
      · refine ⟨?_, iff_of_true ?_ ?_⟩
        · rcases hend with hroom | hgone
          · exact hroom
          · exact hmakes _ (fun _ _ hx => hshr.sub hx) hshr.settled.sound hgone
        · by_contra hn
          rw [hpanics.mpr ⟨hnot, hn⟩] at hl
          cases hl
        · by_contra hmodel
          rw [MutableTransaction.calculatedFeerate_eq_none
            (hfee (Bool.eq_false_iff.mpr hmodel))] at hrate
          cases hrate
    obtain ⟨hroom, hfits⟩ := hroom
    have hassert : lift (fun m : Mempool =>
        if m.transactionPool.hasRoom n (n.mempoolEstimatedBytes t) then
          (.ok () : Run RuleError Unit)
        else .panicked) mid = (.ok (), mid) := Prod.ext (if_pos hroom) rfl
    rw [bind_ok hassert]
    have hmid : t.id ∉ mid.transactionPool.allTransactions := fun hm => hid (hshr.mem hm)
    have hmidfree := hshr.free h hfree
    cases hmodel : isAccountModel t.tx with
    | false =>
      refine .inl ⟨?_, fun hf => ?_⟩
      · have hadd : onPool (TransactionsPool.addTransaction n t daaScore priority
            (n.mempoolEstimatedBytes t)) mid = (.panicked, mid) :=
          within_apply (TransactionsPool.addTransaction_panics hmid hbare hmodel
            (hfee hmodel) daaScore priority _)
        rw [bind_error hadd]
      · rw [hfits.mp hf] at hmodel
        cases hmodel
    | true =>
      obtain ⟨s', hs', hsound, hall⟩ :=
        TransactionsPool.addTransaction_ok hshr.settled.sound hmid hbare
        hmodel hmidfree daaScore priority
      refine .inr ⟨hfits.mpr hmodel, .inr ⟨{ mid with transactionPool := s' }, ?_,
        ⟨hsound, hshr.settled.deserted⟩, mid, priority, daaScore, hshr, hmid, hmidfree, hall⟩⟩
      have hadd : onPool
          (TransactionsPool.addTransaction n t daaScore priority (n.mempoolEstimatedBytes t)) mid =
            (.ok ⟨t, priority, daaScore⟩, { mid with transactionPool := s' }) := within_apply hs'
      rw [bind_ok hadd]
      rfl

theorem Inserted.of_shrinks {m₁ : Mempool} (h : Shrinks n m m₁) (hi : Inserted n m₁ t m') :
    Inserted n m t m' := by
  obtain ⟨hs, mid, priority, daaScore, hshr, hrest⟩ := hi
  exact ⟨hs, mid, priority, daaScore, h.trans hshr, hrest⟩

theorem Displaces.unique {g g' : List TransactionId}
    (h : Displaces n m t policy g) (h' : Displaces n m t policy g') : g = g' := by
  cases h with
  | nothing _ hfree =>
    cases h' with
    | nothing => rfl
    | owner _ hd =>
      rw [getDoubleSpendTransactionIds_nil_iff.mpr hfree] at hd
      cases hd
  | owner _ hd =>
    cases h' with
    | nothing _ hfree =>
      rw [getDoubleSpendTransactionIds_nil_iff.mpr hfree] at hd
      cases hd
    | owner _ hd' =>
      cases hd.symm.trans hd'
      rfl

/-- `t` is inserted or rejected without a panic: its inputs are not looked at, and the pool can take
    it in once what it displaces is gone. -/
def Insertable (n : Node) (m : Mempool) (t : MutableTransaction) (policy : RbfPolicy) : Prop :=
  (n.config.acceptNonStandard = true ∨
    t.tx.mass > maximumStandardTransactionMass ∨ t.tx.inputs = []) ∧
    (n.config.acceptNonStandard = true ∨ ¬ t.tx.mass > maximumStandardTransactionMass → ∀ gone,
      Displaces n m t policy gone → TransactionsPool.Fits n (m.transactionPool.without n gone) t)

/-- The call panics exactly where `P` fails; otherwise it rejects `t` or inserts it. -/
def Decides (n : Node) (m : Mempool) (t : MutableTransaction) (P : Prop)
    (r : Run RuleError (Option Transaction × Option Transaction) × Mempool) : Prop :=
  (r.1 = .panicked ∧ ¬ P) ∨ P ∧ ((∃ e m', r = (.fail e, m') ∧ Shrinks n m m') ∨
    ∃ removed m', r = (.ok (removed, some t.tx), m') ∧ Inserted n m t m')

theorem Decides.congr {P Q : Prop}
    {r : Run RuleError (Option Transaction × Option Transaction) × Mempool}
    (h : Decides n m t P r) (hPQ : P ↔ Q) : Decides n m t Q r := propext hPQ ▸ h

section Insertion

variable (h : Settled n m)
  (hbare : Bare t) (hfee : isAccountModel t.tx = false → t.calculatedFee = none)
  (hid : t.id ∉ m.transactionPool.allTransactions) (daaScore : UInt64) (priority : Priority)
  (policy : RbfPolicy)

include h hbare hfee hid

/-- After the check in context, the pool without what is displaced decides. -/
theorem replaceAndInsert_spec : Decides n m t (∀ gone, Displaces n m t policy gone →
      TransactionsPool.Fits n (m.transactionPool.without n gone) t)
    (replaceAndInsert n daaScore t priority policy m) := by
  rcases @executeReplaceByFee_spec n m t h policy with ⟨gone, r, s', hdis, hrun,
    hcl⟩ | ⟨⟨e, he⟩, hnone⟩
  · let m₁ : Mempool := { m with transactionPool := s' }
    have hset : Settled n m₁ := ⟨hcl.sound, h.deserted⟩
    have hshr : Shrinks n m m₁ := ⟨hset, fun hx => (hcl.drop.lookup_some.mp hx).2⟩
    have hfits := @TransactionsPool.Drop.fits_iff n m.transactionPool s' t gone hcl.drop h.sound
      hcl.sound hcl.closed
    have hid₁ : t.id ∉ s'.allTransactions := fun hm => hid (hcl.drop.mem_iff.mp hm).1
    have hspam : check (fun m : Mempool => m.antiSpam n t) m₁ = (.ok (), m₁) :=
      check_ok (antiSpam_ok hcl.sound)
    have hrun' : replaceAndInsert n daaScore t priority policy m =
        (insertTransaction n daaScore t priority >>= fun accepted => pure (r, some accepted)) m₁ :=
      (bind_ok hrun _).trans (bind_ok hspam _)
    have hall : TransactionsPool.Fits n s' t → ∀ gone', Displaces n m t policy gone' →
        TransactionsPool.Fits n (m.transactionPool.without n gone') t := fun hf gone' hdis' =>
      hdis.unique hdis' ▸ hfits.mp hf
    rw [hrun']
    rcases insertTransaction_spec hset hbare hfee hid₁ hcl.free daaScore priority with
      ⟨hpanic, hnot⟩ | ⟨hf, ⟨e, he⟩ | ⟨m', hm', hins⟩⟩
    · refine .inl ⟨?_, fun hn => hnot (hfits.mpr (hn gone hdis))⟩
      have hp : insertTransaction n daaScore t priority m₁ =
          (.panicked, (insertTransaction n daaScore t priority m₁).2) := Prod.ext hpanic rfl
      rw [bind_error hp]
    · exact .inr ⟨hall hf, .inl ⟨e, m₁, bind_error he _, hshr⟩⟩
    · exact .inr ⟨hall hf, .inr ⟨r, m', bind_ok hm' _, hins.of_shrinks hshr⟩⟩
  · exact .inr ⟨fun gone hd => absurd hd (hnone gone), .inl ⟨e, m, bind_error he _, h.shrinks⟩⟩

/-- **A transaction that consensus has found valid** panics exactly where it is not insertable. -/
theorem insertValidated_spec :
    Decides n m t (Insertable n m t policy) (insertValidated n daaScore t priority policy m) := by
  have hctx := @validateTransactionInContext_bare n t hbare
  have hlift : ∀ {r : Run RuleError Unit}, n.validateTransactionInContext t = r →
      lift (fun _ => n.validateTransactionInContext t) m = (r, m) := fun hr => Prod.ext hr rfl
  have hnext : n.validateTransactionInContext t = .ok () →
      (n.config.acceptNonStandard = true ∨ t.tx.inputs = []) →
      (n.config.acceptNonStandard = true ∨ ¬ t.tx.mass > maximumStandardTransactionMass) →
      Decides n m t (Insertable n m t policy) (insertValidated n daaScore t priority policy m) := by
    intro hok hin hmass
    have hrun : insertValidated n daaScore t priority policy m =
        replaceAndInsert n daaScore t priority policy m := bind_ok (hlift hok) _
    rw [hrun]
    refine (replaceAndInsert_spec h hbare hfee hid daaScore priority policy).congr
      ⟨fun hall => ?_, fun hi => ?_⟩
    · exact ⟨hin.imp_right .inr, fun _ => hall⟩
    · exact hi.2 hmass
  by_cases hacc : n.config.acceptNonStandard = true
  · rw [if_pos hacc] at hctx
    exact hnext hctx (.inl hacc) (.inl hacc)
  · rw [if_neg hacc] at hctx
    by_cases hmass : t.tx.mass > maximumStandardTransactionMass
    · rw [if_pos hmass] at hctx
      have hskip :
          ¬ (n.config.acceptNonStandard = true ∨ ¬ t.tx.mass > maximumStandardTransactionMass) :=
        not_or.mpr ⟨hacc, not_not.mpr hmass⟩
      exact .inr ⟨⟨.inr (.inl hmass), fun hor => absurd hor hskip⟩,
        .inl ⟨.rejectNonStandard (.rejectStorageMass t.id t.tx.mass maximumStandardTransactionMass),
          m, bind_error (hlift hctx) _, h.shrinks⟩⟩
    · rw [if_neg hmass] at hctx
      by_cases hin : t.tx.inputs = []
      · rw [if_pos hin] at hctx
        exact hnext hctx (.inr hin) (.inr hmass)
      · rw [if_neg hin] at hctx
        have hpanic : insertValidated n daaScore t priority policy m = (.panicked, m) :=
          bind_error (hlift hctx) _
        refine .inl ⟨congrArg Prod.fst hpanic, fun hi => ?_⟩
        rcases hi.1 with h' | h' | h'
        · exact hacc h'
        · exact hmass h'
        · exact hin h'

end Insertion

end Mempool

end Sahyadri.Mining
