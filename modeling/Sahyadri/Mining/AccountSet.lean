import Sahyadri.Mining.Tx
import Sahyadri.Live.Flash

/-!
# `MempoolAccountSet`: the flash ids and debits of the pooled transactions

The debits are added up and nothing reads the sums: no function compares them with a balance. A
flash transaction whose amount and fee do not fit into 64 bits is not entered at all.

* `Tracks`: the flash ids in the table are those of the pooled transactions with a debit, each with
  its owner.
-/

namespace Sahyadri.Mining

open Lib Smt Core Tx AList Table

/-! ## 1. The set -/

structure MempoolAccountSet where
  /-- The flash ids, with the pooled transaction that carries each. -/
  flashOwners : Table Hash TransactionId
  /-- The public keys of senders, with what they pay. -/
  pendingDebits : Table Bytes UInt64
  txDebits : Table TransactionId (Bytes × UInt64)

def extractFlashDebit (c : Crypto) (t : MutableTransaction) : Option (Bytes × UInt64 × Hash) := do
  let flash ← FlashTransaction.fromTransaction t.tx
  let debit ← Live.checkedAdd flash.amount flash.fee
  return (flash.pubkey, debit, flash.flashId c)

namespace MempoolAccountSet

def new : MempoolAccountSet := ⟨∅, ∅, ∅⟩

variable (c : Crypto) (s : MempoolAccountSet) (t : MutableTransaction)

def addTransaction : Except RuleError MempoolAccountSet :=
  match extractFlashDebit c t with
  | none => .ok s
  | some (pubkey, debit, flashId) =>
    match s.flashOwners.lookup flashId with
    | some existing => .error (.rejectDuplicate existing)
    | none =>
      .ok {
        flashOwners := s.flashOwners.insert flashId t.id
        pendingDebits := s.pendingDebits.insert pubkey
          (satAdd ((s.pendingDebits.lookup pubkey).getD 0) debit)
        txDebits := s.txDebits.insert t.id (pubkey, debit) }

def removeTransaction : MempoolAccountSet :=
  match s.txDebits.lookup t.id with
  | none => s
  | some (pubkey, debit) => {
      flashOwners := s.flashOwners.retain fun owner => owner ≠ t.id
      pendingDebits :=
        match s.pendingDebits.lookup pubkey with
        | none => s.pendingDebits
        | some entry =>
          if satSub entry debit = 0 then s.pendingDebits.erase pubkey
          else s.pendingDebits.insert pubkey (satSub entry debit)
      txDebits := s.txDebits.erase t.id }

def checkDoubleSpends : Except RuleError Unit :=
  match extractFlashDebit c t with
  | none => .ok ()
  | some (_, _, flashId) =>
    match s.flashOwners.lookup flashId with
    | some owner => .error (.rejectDuplicate owner)
    | none => .ok ()

def getOutpointOwnerId (_ : MempoolAccountSet) (_ : RegistryRef) : Option TransactionId := none

def getDoubleSpendTransactionIds : List DoubleSpend :=
  match extractFlashDebit c t with
  | none => []
  | some (_, _, flashId) =>
    match s.flashOwners.lookup flashId with
    | some owner => [⟨⟨flashId, 0⟩, owner⟩]
    | none => []

end MempoolAccountSet

/-! ## 2. What the set knows about the pool -/

open MempoolAccountSet

/-- The flash id of `t` is not in the set. -/
def MempoolAccountSet.Free (c : Crypto) (s : MempoolAccountSet) (t : MutableTransaction) : Prop :=
  ∀ pubkey debit flashId, extractFlashDebit c t = some (pubkey, debit, flashId) →
    s.flashOwners.lookup flashId = none

/-- The set has the flash ids of the pooled transactions, and no others. -/
structure Tracks (c : Crypto) (all : Table TransactionId MempoolTransaction)
    (s : MempoolAccountSet) : Prop where
  owned : ∀ {flashId id}, s.flashOwners.lookup flashId = some id → ∃ t pubkey debit, all.lookup id =
    some t ∧ extractFlashDebit c t.mtx = some (pubkey, debit, flashId)
  owner : ∀ {id t pubkey debit flashId}, all.lookup id = some t →
    extractFlashDebit c t.mtx = some (pubkey, debit, flashId) →
    s.flashOwners.lookup flashId = some id ∧ id ∈ s.txDebits

section Tracks

variable {c : Crypto} {all : Table TransactionId MempoolTransaction} {s : MempoolAccountSet}

theorem tracks_new : Tracks c ∅ .new := ⟨fun h => (by cases h), fun h => (by cases h)⟩

variable {t : MutableTransaction}

theorem checkDoubleSpends_ok_iff : s.checkDoubleSpends c t = .ok () ↔ s.Free c t := by
  unfold checkDoubleSpends MempoolAccountSet.Free
  cases he : extractFlashDebit c t with
  | none => exact iff_of_true rfl fun _ _ _ h => (by cases h)
  | some d =>
    obtain ⟨pubkey, debit, flashId⟩ := d
    dsimp only
    cases hl : s.flashOwners.lookup flashId with
    | none =>
      refine iff_of_true rfl fun _ _ _ h => ?_
      cases h
      exact hl
    | some owner =>
      refine iff_of_false (by simp) fun h => ?_
      cases (h _ _ _ rfl).symm.trans hl

theorem getDoubleSpendTransactionIds_nil_iff :
    s.getDoubleSpendTransactionIds c t = [] ↔ s.Free c t := by
  rw [← checkDoubleSpends_ok_iff]
  unfold getDoubleSpendTransactionIds checkDoubleSpends
  cases extractFlashDebit c t with
  | none => exact iff_of_true rfl rfl
  | some d =>
    obtain ⟨pubkey, debit, flashId⟩ := d
    dsimp only
    cases s.flashOwners.lookup flashId <;> simp

theorem getDoubleSpendTransactionIds_cons {d : DoubleSpend} {ds : List DoubleSpend}
    (h : s.getDoubleSpendTransactionIds c t = d :: ds) :
    ds = [] ∧ ∃ pubkey debit flashId, extractFlashDebit c t = some (pubkey, debit, flashId) ∧
      s.flashOwners.lookup flashId = some d.ownerId := by
  unfold getDoubleSpendTransactionIds at h
  cases he : extractFlashDebit c t with
  | none =>
    rw [he] at h
    cases h
  | some e =>
    obtain ⟨pubkey, debit, flashId⟩ := e
    rw [he] at h
    dsimp only at h
    cases hl : s.flashOwners.lookup flashId with
    | none =>
      rw [hl] at h
      cases h
    | some owner =>
      rw [hl] at h
      cases h
      exact ⟨rfl, pubkey, debit, flashId, rfl, hl⟩

/-- **A transaction with a new flash id is entered.** -/
theorem Tracks.add (h : Tracks c all s)
    {t : MempoolTransaction} (hid : t.id ∉ all) (hfree : s.Free c t.mtx) :
    ∃ s', s.addTransaction c t.mtx = .ok s' ∧ Tracks c (all.insert t.id t) s' := by
  have hother : ∀ {id t'}, (all.insert t.id t).lookup id = some t' →
      (id = t.id ∧ t' = t) ∨ (id ≠ t.id ∧ all.lookup id = some t') := by
    intro id t' hl
    exact (lookup_insert_eq_some.mp hl).imp_left (And.imp_right Eq.symm)
  have hne : ∀ {id t'}, all.lookup id = some t' → id ≠ t.id :=
    fun hl he => hid (he ▸ lookup_isSome.mp (hl ▸ rfl))
  unfold addTransaction
  cases he : extractFlashDebit c t.mtx with
  | none =>
    refine ⟨s, rfl, fun hl => ?_, fun hl hx => ?_⟩
    · obtain ⟨t', pubkey, debit, ht', hx⟩ := h.owned hl
      exact ⟨t', pubkey, debit, by rw [lookup_insert_ne (hne ht')]; exact ht', hx⟩
    · rcases hother hl with ⟨_, rfl⟩ | ⟨_, hl⟩
      · cases he.symm.trans hx
      · exact h.owner hl hx
  | some d =>
    obtain ⟨pubkey, debit, flashId⟩ := d
    have hnone := hfree _ _ _ he
    dsimp only
    rw [hnone]
    refine ⟨_, rfl, fun {flashId' id} hl => ?_, fun {id t' pubkey' debit' flashId'} hl hx => ?_⟩
    · rcases lookup_insert_eq_some.mp hl with ⟨rfl, rfl⟩ | ⟨_, hl⟩
      · exact ⟨t, pubkey, debit, lookup_insert _, he⟩
      · obtain ⟨t', pubkey', debit', ht', hx⟩ := h.owned hl
        exact ⟨t', pubkey', debit', by rw [lookup_insert_ne (hne ht')]; exact ht', hx⟩
    · rcases hother hl with ⟨rfl, rfl⟩ | ⟨_, hl⟩
      · cases he.symm.trans hx
        exact ⟨lookup_insert _, (mem_insert _).mpr (.inl rfl)⟩
      · obtain ⟨ho, hd⟩ := h.owner hl hx
        have hf : flashId' ≠ flashId := fun hf => by
          subst hf
          cases hnone.symm.trans ho
        exact ⟨by rw [lookup_insert_ne hf]; exact ho, (mem_insert _).mpr (.inr hd)⟩

/-- Removing a transaction takes no owner away but itself. -/
theorem lookup_removeTransaction {flashId : Hash} {id : TransactionId} :
    (s.removeTransaction t).flashOwners.lookup flashId = some id →
      s.flashOwners.lookup flashId = some id ∧ (t.id ∈ s.txDebits → id ≠ t.id) := by
  unfold removeTransaction
  cases hl : s.txDebits.lookup t.id with
  | none => exact fun h => ⟨h, fun hm => absurd hm (lookup_eq_none.mp hl)⟩
  | some d =>
    intro h
    obtain ⟨h, hp⟩ := lookup_retain.mp h
    exact ⟨h, fun _ => of_decide_eq_true hp⟩

/-- **A removed transaction is forgotten**, and nothing else. -/
theorem Tracks.remove (h : Tracks c all s) {t : MempoolTransaction} :
    Tracks c (all.erase t.id) (s.removeTransaction t.mtx) := by
  refine ⟨fun {flashId id} hl => ?_, fun {id t' pubkey debit flashId} hl hx => ?_⟩
  · obtain ⟨hl, hne⟩ := lookup_removeTransaction hl
    obtain ⟨t', pubkey, debit, ht', hx⟩ := h.owned hl
    by_cases hi : id = t.id
    · subst hi
      exact absurd rfl (hne (h.owner ht' hx).2)
    · exact ⟨t', pubkey, debit, by rw [lookup_erase_ne hi]; exact ht', hx⟩
  · have hi : id ≠ t.id := fun hi => by
      subst hi
      rw [lookup_erase] at hl
      cases hl
    rw [lookup_erase_ne hi] at hl
    obtain ⟨ho, hd⟩ := h.owner hl hx
    unfold removeTransaction
    cases hdeb : s.txDebits.lookup t.mtx.id with
    | none => exact ⟨ho, hd⟩
    | some d =>
      exact ⟨lookup_retain.mpr ⟨ho, decide_eq_true hi⟩, mem_erase.mpr ⟨hi, hd⟩⟩

end Tracks

end Sahyadri.Mining
