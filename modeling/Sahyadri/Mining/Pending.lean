import Sahyadri.Mining.Panics

/-!
# What the senders of the pooled flash transactions are to pay

* **`pending_le_balance`**: if every submission is covered, no sender owes more than it has, and no
  two pooled transactions have the same flash id.
* **`block_payments_gone_iff`**: a block takes its payments out of the pool exactly if they are
  pooled under the ids that the block has. `twin_stays`: they may be pooled under another id.
-/

namespace Sahyadri.Mining

open Lib Smt Core Tx MempoolTransaction FlashTransaction Option Table

/-! ## 1. What a sender owes -/

def MempoolTransaction.flash (x : MempoolTransaction) : Option FlashTransaction :=
  fromTransaction x.mtx.tx

/-- What a pooled transaction takes from the sender `pubkey`. -/
def MempoolTransaction.debit (pubkey : Bytes) (x : MempoolTransaction) : Nat :=
  match x.flash with
  | some f => if f.pubkey = pubkey then f.amount.toNat + f.fee.toNat else 0
  | none => 0

/-- The same, but for the flash id `flashId`. -/
def MempoolTransaction.otherDebit (c : Crypto) (flashId : Hash) (pubkey : Bytes)
    (x : MempoolTransaction) : Nat :=
  if x.flash.map (FlashTransaction.flashId c) = some flashId then 0 else x.debit pubkey

namespace Mempool

/-- What the pooled flash transactions of a sender take. -/
def pending (m : Mempool) (pubkey : Bytes) : Nat :=
  m.transactionPool.allTransactions.total (debit pubkey)

/-- No two pooled transactions carry the same flash id. -/
def FlashIdsApart (c : Crypto) (m : Mempool) : Prop :=
  ∀ {id id' x x' f f'}, m.transactionPool.allTransactions.lookup id = some x →
    m.transactionPool.allTransactions.lookup id' = some x' → x.flash = some f → x'.flash = some f' →
      f.flashId c = f'.flashId c → id = id'

/-- Every sender can pay its pooled flash transactions, and each is pooled once. -/
structure Solvent (c : Crypto) (balance : Bytes → UInt64) (m : Mempool) : Prop where
  funded : ∀ pubkey, m.pending pubkey ≤ (balance pubkey).toNat
  apart : FlashIdsApart c m

/-- The sender of a flash transaction can pay it, besides its pooled flash transactions with other
    flash ids. -/
def Covered (c : Crypto) (balance : Bytes → UInt64) (m : Mempool) (tx : Transaction) : Prop :=
  match fromTransaction tx with
  | none => True
  | some f => m.transactionPool.allTransactions.total (otherDebit c (f.flashId c) f.pubkey) +
      f.amount.toNat + f.fee.toNat ≤ (balance f.pubkey).toNat

instance (c : Crypto) (balance : Bytes → UInt64) (m : Mempool) (tx : Transaction) :
    Decidable (Covered c balance m tx) := by
  unfold Covered
  cases fromTransaction tx <;> exact inferInstance

section Solvent

variable {n : Node} {balance : Bytes → UInt64} {m m' mid : Mempool} {t : MutableTransaction}
variable {f f' : FlashTransaction}

theorem extractFlashDebit_of_fits {c : Crypto} (hf : fromTransaction t.tx = some f)
    (hfits : f.amount.toNat + f.fee.toNat < 2 ^ 64) :
    extractFlashDebit c t = some (f.pubkey, f.amount + f.fee, f.flashId c) := by
  have hadd : Live.checkedAdd f.amount f.fee = some (f.amount + f.fee) := if_pos hfits
  unfold extractFlashDebit
  rw [hf]
  show (Live.checkedAdd f.amount f.fee >>= fun debit => some (f.pubkey, debit, f.flashId c)) = _
  rw [hadd]
  rfl

variable {x : MempoolTransaction}

theorem debit_of_flash (hf : x.flash = some f) :
    x.debit f.pubkey = f.amount.toNat + f.fee.toNat := by
  unfold debit
  rw [hf]
  exact if_pos rfl

section

variable (h : Solvent n.crypto balance m) {id : TransactionId}

include h

theorem Solvent.owner (hs : Settled n m)
    (hx : m.transactionPool.allTransactions.lookup id = some x) (hf : x.flash = some f) :
    m.transactionPool.accountSet.flashOwners.lookup (f.flashId n.crypto) = some id := by
  have hle : x.debit f.pubkey ≤ m.pending f.pubkey := le_total hx
  have hfits : f.amount.toNat + f.fee.toNat < 2 ^ 64 := by
    have := h.funded f.pubkey
    have := (balance f.pubkey).toNat_lt
    rw [debit_of_flash hf] at hle
    omega
  exact (hs.sound.tracks.owner hx (extractFlashDebit_of_fits hf hfits)).1

theorem Solvent.shrink (hshr : Shrinks n m m') : Solvent n.crypto balance m' :=
  ⟨fun pubkey => (total_mono fun _ _ hx => hshr.sub hx).trans (h.funded pubkey),
    fun hx hx' => h.apart (hshr.sub hx) (hshr.sub hx')⟩

/-- Where the flash id of a covered transaction is free, no pooled transaction carries it. -/
theorem Solvent.flashId_ne (hs : Settled n m) (hfree : m.transactionPool.accountSet.Free n.crypto t)
    (hf : fromTransaction t.tx = some f) (hfits : f.amount.toNat + f.fee.toNat < 2 ^ 64)
    (hx : m.transactionPool.allTransactions.lookup id = some x) (hf' : x.flash = some f') :
    f'.flashId n.crypto ≠ f.flashId n.crypto := by
  intro he
  have howner := h.owner hs hx hf'
  rw [he, hfree _ _ _ (extractFlashDebit_of_fits hf hfits)] at howner
  cases howner

/-- What a covered flash transaction adds to the pool can be paid. -/
theorem Solvent.insert (hmid : Shrinks n m mid)
    (hfree : mid.transactionPool.accountSet.Free n.crypto t)
    (hnew : t.id ∉ mid.transactionPool.allTransactions) (hcov : Covered n.crypto balance m t.tx)
    {priority : Priority} {daaScore : UInt64} (hall : m'.transactionPool.allTransactions =
      mid.transactionPool.allTransactions.insert t.id ⟨t, priority, daaScore⟩) :
    Solvent n.crypto balance m' := by
  have hsol := h.shrink hmid
  let x : MempoolTransaction := ⟨t, priority, daaScore⟩
  have htotal : ∀ pubkey, m'.pending pubkey = x.debit pubkey + mid.pending pubkey :=
    fun pubkey => by
    unfold pending
    rw [hall]
    exact total_insert_new hnew x
  have hlookup : ∀ {id y}, m'.transactionPool.allTransactions.lookup id = some y →
      (id = t.id ∧ y = x) ∨ mid.transactionPool.allTransactions.lookup id = some y := by
    intro id y hy
    rw [hall] at hy
    by_cases hid : id = t.id
    · subst hid
      rw [AList.lookup_insert] at hy
      exact .inl ⟨rfl, (some.inj hy).symm⟩
    · rw [AList.lookup_insert_ne hid] at hy
      exact .inr hy
  cases hf : fromTransaction t.tx with
  | none =>
    have hx : x.flash = none := hf
    refine ⟨fun pubkey => ?_, fun {id id' y y' f f'} hy hy' hyf hyf' he => ?_⟩
    · have hzero : x.debit pubkey = 0 := by
        unfold debit
        rw [hx]
      rw [htotal, hzero, zero_add]
      exact hsol.funded pubkey
    · rcases hlookup hy with ⟨_, rfl⟩ | hy
      · cases hx.symm.trans hyf
      · rcases hlookup hy' with ⟨_, rfl⟩ | hy'
        · cases hx.symm.trans hyf'
        · exact hsol.apart hy hy' hyf hyf' he
  | some f =>
    have hx : x.flash = some f := hf
    have hcov' : m.transactionPool.allTransactions.total
        (otherDebit n.crypto (f.flashId n.crypto) f.pubkey) + f.amount.toNat +
          f.fee.toNat ≤ (balance f.pubkey).toNat := by
      unfold Covered at hcov
      rwa [hf] at hcov
    have hfits : f.amount.toNat + f.fee.toNat < 2 ^ 64 := by
      have := (balance f.pubkey).toNat_lt
      omega
    have hother : ∀ {id y f'}, mid.transactionPool.allTransactions.lookup id = some y →
        y.flash = some f' →
        f'.flashId n.crypto ≠ f.flashId n.crypto := hsol.flashId_ne hmid.settled hfree hf hfits
    refine ⟨fun pubkey => ?_, fun {id id' y y' g g'} hy hy' hyf hyf' he => ?_⟩
    · rw [htotal]
      by_cases hp : f.pubkey = pubkey
      · subst hp
        have hmid' : mid.pending f.pubkey ≤ m.transactionPool.allTransactions.total
            (otherDebit n.crypto (f.flashId n.crypto) f.pubkey) := by
          refine total_le_total fun id y hy => ⟨hmid.sub hy, le_of_eq ?_⟩
          refine (if_neg fun he => ?_).symm
          obtain ⟨f', hyf, he⟩ := map_eq_some_iff.mp he
          exact hother hy hyf he
        rw [debit_of_flash hx]
        omega
      · have hzero : x.debit pubkey = 0 := by
          unfold debit
          rw [hx]
          exact if_neg hp
        rw [hzero, zero_add]
        exact hsol.funded pubkey
    · rcases hlookup hy with ⟨rfl, rfl⟩ | hy
      · rcases hlookup hy' with ⟨rfl, rfl⟩ | hy'
        · rfl
        · cases hx.symm.trans hyf
          exact absurd he.symm (hother hy' hyf')
      · rcases hlookup hy' with ⟨rfl, rfl⟩ | hy'
        · cases hx.symm.trans hyf'
          exact absurd he (hother hy hyf)
        · exact hsol.apart hy hy' hyf hyf' he

end

end Solvent

/-- **If every submitted flash transaction can be paid, so can all that are pooled**, and no two of
    them have the same flash id. -/
theorem pending_le_balance {n : Node} {balance : Bytes → UInt64} {m : Mempool}
    (h : ReachableBy n (Covered n.crypto balance) m) :
    (∀ pubkey, m.pending pubkey ≤ (balance pubkey).toNat) ∧ FlashIdsApart n.crypto m := by
  suffices hs : Solvent n.crypto balance m from ⟨hs.funded, hs.apart⟩
  induction h with
  | new now => exact ⟨fun _ => Nat.zero_le _, fun hx => by cases hx⟩
  | step hreach hstep hcov ih =>
    rcases hstep.effect hreach.settled with hshr | ⟨tx, rfl, hins⟩
    · exact ih.shrink hshr
    · obtain ⟨mid, priority, daaScore, hmid, hnew, hfree, hall⟩ := hins.lookup
      exact ih.insert hmid hfree hnew (by rw [prepared_tx]; exact hcov tx rfl) hall

def afterFlash (amount fee : UInt64) : Mempool :=
  (validateAndInsertTransaction toyNode toyVirtual (toyFlash amount fee 0) .low .allowed .allowed
    (.new 0)).2

theorem afterFlash_step (amount fee : UInt64) (h : (validateAndInsertTransaction toyNode toyVirtual
      (toyFlash amount fee 0) .low .allowed .allowed (.new 0)).1 ≠ .panicked) :
    Step toyNode (.new 0) (some (toyFlash amount fee 0)) (afterFlash amount fee) := by
  exact .submit Prod.mk.eta.symm h

theorem afterFlash_reachable : Reachable toyNode (afterFlash 5 1) :=
  .step (.new 0) (afterFlash_step 5 1 (by decide +kernel)) fun _ _ => trivial

/-- **A flash transaction of a sender with nothing is pooled.** -/
theorem unfunded_flash_pooled : Reachable toyNode (afterFlash 5 1) ∧
    ¬ (afterFlash 5 1).pending [5] ≤ (0 : UInt64).toNat := ⟨afterFlash_reachable, by decide +kernel⟩

theorem funded_flash_pending :
    ReachableBy toyNode (Covered toyNode.crypto fun _ => 10) (afterFlash 5 1) ∧
    (afterFlash 5 1).pending [5] = 6 ∧
    (∀ pubkey, (afterFlash 5 1).pending pubkey ≤ (10 : UInt64).toNat) ∧
      FlashIdsApart toyNode.crypto (afterFlash 5 1) := by
  have hreach : ReachableBy toyNode (Covered toyNode.crypto fun _ => 10) (afterFlash 5 1) := by
    refine .step (.new 0) (afterFlash_step 5 1 (by decide +kernel)) fun tx htx => ?_
    cases htx
    decide
  exact ⟨hreach, by decide +kernel, (pending_le_balance hreach).1, (pending_le_balance hreach).2⟩

/-! ## 2. The payments of a block -/

def flashIdOf (c : Crypto) (tx : Transaction) : Option Hash := (fromTransaction tx).map (flashId c)

def carried (c : Crypto) (m : Mempool) (id : TransactionId) : Option Hash :=
  (m.transactionPool.allTransactions.lookup id).bind fun x => flashIdOf c x.mtx.tx

/-- No pooled transaction carries the flash id of a transaction of the block. -/
def PaymentsGone (c : Crypto) (block : List Transaction) (m : Mempool) : Prop :=
  ∀ tx ∈ block, ∀ flashId, flashIdOf c tx = some flashId → ∀ id, m.carried c id ≠ some flashId

/-- Where transactions are taken out, no payments are left if what carries them was taken out. -/
theorem Loses.paymentsGone_iff {n : Node} {gone : List TransactionId} {m m' : Mempool}
    (h : Loses n gone m m') (c : Crypto) (block : List Transaction) :
    PaymentsGone c block m' ↔ ∀ tx ∈ block, ∀ flashId, flashIdOf c tx = some flashId →
      ∀ id, m.carried c id = some flashId → id ∈ gone := by
  have hcarried : ∀ id, m'.carried c id = if id ∈ gone then none else m.carried c id := fun id => by
    unfold carried
    rw [h.lookup]
    split <;> rfl
  refine forall₄_congr fun tx _ flashId _ => forall_congr' fun id => ?_
  rw [hcarried]
  by_cases hid : id ∈ gone
  · rw [if_pos hid]
    exact iff_of_true (by rintro ⟨⟩) fun _ => hid
  · rw [if_neg hid]
    exact (imp_iff_not hid).symm

/-- **The payments of a block leave the pool** exactly if what carries them has an id of the block;
    the ids are remembered and not inserted again. -/
theorem block_payments_gone_iff {n : Node} {m : Mempool} (h : Reachable n m) (v : Virtual)
    (daaScore : UInt64) (coinbase : Transaction) (txs : List Transaction) :
    ∃ m', handleNewBlockTransactions n v daaScore (coinbase :: txs) m = (.ok [], m') ∧
      (PaymentsGone n.crypto (coinbase :: txs) m' ↔
        ∀ tx ∈ coinbase :: txs, ∀ flashId, flashIdOf n.crypto tx = some flashId →
          ∀ id, m.carried n.crypto id = some flashId → id ∈ txs.map (·.id)) ∧
      (∀ tx ∈ txs, tx.id ∈ m'.acceptedTransactions.transactions) ∧ ∀ tx ∈ coinbase :: txs,
      ∀ (later : Mempool) (v : Virtual) (priority : Priority) (orphan : Orphan)
        (policy : RbfPolicy), tx.id ∈ later.acceptedTransactions.transactions →
        (∃ e, validateAndInsertTransaction n v tx priority orphan policy later = (.fail e, later)) ∧
        ∃ e, completeTransaction n v (prepared n tx) priority orphan policy later =
          (.fail e, later) := by
  obtain ⟨m', hrun, hloses, hacc⟩ := handleNewBlockTransactions_ok h.settled v daaScore coinbase txs
  exact ⟨m', hrun, hloses.paymentsGone_iff n.crypto _,
    fun tx htx => (hacc _).mpr (.inl (List.mem_map_of_mem htx)),
    fun tx _ later v priority orphan policy hin => accepted_refused hin v priority orphan policy⟩

/-- The payment of `toyFlash 5 1 0`, with a byte behind it. -/
def twinFlash : Transaction :=
  .new toyCrypto 0 [] [] 0 subnetworkIdNative 0 ((toyFlash 5 1 0).payload ++ [0])

theorem block_payment_gone : ∃ m', handleNewBlockTransactions toyNode toyVirtual 0
    [didOperation 0, toyFlash 5 1 0] (afterFlash 5 1) = (.ok [], m') ∧
      PaymentsGone toyNode.crypto [didOperation 0, toyFlash 5 1 0] m' ∧
      (toyFlash 5 1 0).id ∈ m'.acceptedTransactions.transactions := by
  have hkeys : (afterFlash 5 1).transactionPool.allTransactions.keys = [(toyFlash 5 1 0).id] := by
    decide +kernel
  obtain ⟨m', hrun, hgone, hacc, -⟩ :=
    block_payments_gone_iff afterFlash_reachable toyVirtual 0 (didOperation 0) [toyFlash 5 1 0]
  refine ⟨m', hrun, hgone.mpr fun tx _ flashId _ id hid => ?_, hacc _ List.mem_cons_self⟩
  obtain ⟨x, hx, -⟩ := bind_eq_some_iff.mp hid
  have hin := AList.mem_keys.mp (TransactionsPool.mem_of_lookup hx)
  rwa [hkeys] at hin

/-- **A payment that stays.** The block has the payment in a transaction with another id. -/
theorem twin_stays : Reachable toyNode (afterFlash 5 1) ∧
    (handleNewBlockTransactions toyNode toyVirtual 0 [didOperation 0, twinFlash]
      (afterFlash 5 1)).1 = .ok [] ∧
    flashIdOf toyNode.crypto twinFlash ≠ none ∧ (handleNewBlockTransactions toyNode toyVirtual 0
      [didOperation 0, twinFlash] (afterFlash 5 1)).2.carried
        toyNode.crypto (toyFlash 5 1 0).id = flashIdOf toyNode.crypto twinFlash :=
  ⟨afterFlash_reachable, by decide +kernel, by decide +kernel, by decide +kernel⟩

end Mempool

end Sahyadri.Mining
