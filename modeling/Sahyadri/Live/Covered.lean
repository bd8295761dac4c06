import Sahyadri.Live.Replay

/-!
# Whether an accepted batch of flash transactions can be applied without cutting anything off

The debits of each sender are checked once, all together and against the accounts before the block.
They are applied one by one, to accounts that change on the way.

* `covered_iff`: an accepted batch is applied exactly unless a recipient has less than 20 bytes; the
  validation does not look at that, and the application panics on it.
-/

namespace Sahyadri.Live

open Lib Smt Core Tx Account Pipeline List

/-! ## 1. What an accepted batch has -/

section Accepted

variable {c : Crypto} {L L' : Ledger} {daaScore : UInt64}

variable {txs valid : List FlashTransaction}

theorem each_of_validateEach (h : validateEach c ledgerStore daaScore txs L = (.ok (), L')) :
    ∀ tx ∈ txs, validateFlashTransaction c ledgerStore tx daaScore L = (.ok (), L) := by
  induction txs with
  | nil => exact forall_mem_nil _
  | cons tx txs ih =>
    obtain ⟨_, L₁, h1, h2⟩ := Action.bind_eq_ok.mp h
    obtain rfl : L₁ = L := (congrArg Prod.snd h1).symm.trans (validateFlashTransaction_reads tx L)
    exact forall_mem_cons.mpr ⟨h1, ih h2⟩

/-- What the validation has checked of a batch that it returns. -/
structure Accepted (c : Crypto) (L : Ledger) (daaScore : UInt64) (txs : List FlashTransaction) :
    Prop where
  ids : (txs.map (FlashTransaction.flashId c)).Nodup
  covered : ∀ a, debits (txs.flatMap (flashChanges c a)) ≤ L.bal a
  valid : ∀ tx ∈ txs, validateFlashTransaction c ledgerStore tx daaScore L = (.ok (), L)

theorem Accepted.nil : Accepted c L daaScore [] :=
  ⟨nodup_nil, fun _ => Nat.zero_le _, forall_mem_nil _⟩

/-- **An accepted batch**: no id twice, the debits of every sender covered, and every transaction
    valid on its own. -/
theorem validateFlashBatch_accepted {ord : DebitOrder}
    (h : validateFlashBatch c ledgerStore ord txs daaScore L = (.ok valid, L')) :
    Accepted c L daaScore valid := by
  have hids := (validateFlashBatch_batch h).ids
  rcases validateFlashBatch_cases h with rfl | ⟨L₁, t, L₂, L₃, h1, h2, h3, h4⟩
  · exact .nil
  obtain rfl : L₁ = L := (congrArg Prod.snd h1).symm.trans (filterEligible_reads txs [] L)
  obtain ⟨rfl, hcheck⟩ := checkDebits_eq_ok.mp h3
  refine ⟨hids, fun a => ?_, each_of_validateEach h4⟩
  have hentered := entered_of_addDebits h2 a
  rw [show entered ∅ a = 0 from rfl, Nat.zero_add] at hentered
  rw [← hentered, entered]
  -- a sender without an entry has no debits
  cases hl : t.lookup a with
  | none => exact Nat.zero_le _
  | some v =>
    exact hcheck (a, v) ((ord.perm _).mem_iff.mpr (Table.mem_pairs.mpr hl))

end Accepted

/-! ## 2. Applying it -/

section Exact

variable {ε : Type} {c : Crypto} {L L' L'' : Ledger}

/-- All balances together stay below `2^64`. -/
def Bounded (L : Ledger) : Prop := ∀ T : Finset ScriptPublicKey, L.total T < 2 ^ 64

/-- The transactions moved the balances from `L` to `L'`, with nothing cut off. -/
def Exact (c : Crypto) (L : Ledger) (txs : List FlashTransaction) (L' : Ledger) : Prop :=
  ∀ a, L'.bal a + debits (txs.flatMap (flashChanges c a)) =
    L.bal a + credits (txs.flatMap (flashChanges c a))

variable {txs txs' : List FlashTransaction}

theorem Exact.trans (h : Exact c L txs L') (h' : Exact c L' txs' L'') :
    Exact c L (txs ++ txs') L'' := fun a => by
  have h1 := h a
  have h2 := h' a
  rw [flatMap_append, debits_append, credits_append]
  omega

theorem Exact.total {T : Finset ScriptPublicKey}
    (h : Exact c L txs L') (hS : ∀ tx ∈ txs, senderOf c tx ∈ T)
    (hR : ∀ tx ∈ txs, recipientOf tx ∈ T) : L'.total T + totalFees txs = L.total T := by
  have hd := sum_debits_effects [] hS
  have hc : ∑ a ∈ T, credits (effectChanges c txs [] a) = _ :=
    sum_credits_effects hR fun _ hm => absurd hm not_mem_nil
  simp only [effectChanges, flatMap_nil, append_nil, map_nil, sum_nil] at hd hc
  have hsum := Finset.sum_congr (rfl : T = T) fun a _ => h a
  rw [Finset.sum_add_distrib, Finset.sum_add_distrib, hd, hc] at hsum
  unfold Ledger.total
  omega

theorem Bounded.exact (hb : Bounded L) (h : Exact c L txs L') : Bounded L' := fun T => by
  -- in a set with all senders and recipients the sum does not grow
  let T' := T ∪ ((txs.map (senderOf c)).toFinset ∪ (txs.map recipientOf).toFinset)
  have hsum : L'.total T' + totalFees txs = L.total T' := by
    refine h.total (fun tx htx => ?_) fun tx htx => ?_
    · exact Finset.mem_union_right _
        (Finset.mem_union_left _ (mem_toFinset.mpr (mem_map_of_mem htx)))
    · exact Finset.mem_union_right _
        (Finset.mem_union_right _ (mem_toFinset.mpr (mem_map_of_mem htx)))
  have hle : L'.total T ≤ L'.total T' := Finset.sum_le_sum_of_subset Finset.subset_union_left
  have hlt := hb T'
  omega

theorem Bounded.pair (hb : Bounded L) {a b : ScriptPublicKey} (hne : a ≠ b) :
    L.bal a + L.bal b < 2 ^ 64 := by
  have h := hb {a, b}
  rwa [Ledger.total, Finset.sum_pair hne] at h

variable {tx : FlashTransaction}

/-- A transfer that its sender can pay for is not cut off. -/
theorem settle_transfer (hb : Bounded L)
    (hpay : tx.amount.toNat + tx.fee.toNat ≤ L.bal (senderOf c tx)) (a : ScriptPublicKey) :
    settle maxBalance (L.bal a) (flashChanges c a tx) + debits (flashChanges c a tx) =
      L.bal a + credits (flashChanges c a tx) := by
  have hlt : L.bal a < 2 ^ 64 := (L a).balance.toNat_lt
  unfold flashChanges maxBalance
  by_cases hs : senderOf c tx = a
  · rw [if_pos hs]
    rw [hs] at hpay
    by_cases hr : recipientOf tx = a
    · rw [if_pos hr]
      show min (L.bal a - (tx.amount.toNat + tx.fee.toNat) + tx.amount.toNat) (2 ^ 64 - 1) +
        (tx.amount.toNat + tx.fee.toNat + 0) = L.bal a + (0 + tx.amount.toNat)
      omega
    · rw [if_neg hr]
      show L.bal a - (tx.amount.toNat + tx.fee.toNat) + (tx.amount.toNat + tx.fee.toNat) =
        L.bal a + 0
      omega
  · rw [if_neg hs]
    by_cases hr : recipientOf tx = a
    · have hfit := hb.pair hs
      rw [if_pos hr]
      show min (L.bal a + tx.amount.toNat) (2 ^ 64 - 1) + 0 = L.bal a + tx.amount.toNat
      omega
    · rw [if_neg hr]
      rfl

/-- **A batch**: if the accounts before it cover all debits of every sender, nothing is cut off. -/
theorem exact_foldl_liveFlash (hash : Hash) (txs : List FlashTransaction) :
    ∀ {L : Ledger}, Bounded L → (∀ a, debits (txs.flatMap (flashChanges c a)) ≤ L.bal a) →
    Exact c L txs (txs.foldl (liveFlash c hash) L) := by
  induction txs with
  | nil => exact fun _ _ _ => rfl
  | cons tx txs ih =>
    intro L hb hcov
    have hpay := (le_debits_of_mem mem_cons_self).trans (hcov (senderOf c tx))
    have hex : Exact c L [tx] (liveFlash c hash L tx) := fun a => by
      rw [bal_liveFlash, flatMap_singleton]
      exact settle_transfer hb hpay a
    -- what the rest takes was there beside the first debit, and credits only add to it
    refine hex.trans (ih (hb.exact hex) fun a => ?_)
    have h1 := hex a
    have h2 := hcov a
    rw [flatMap_cons, debits_append] at h2
    rw [flatMap_singleton] at h1
    omega

end Exact

/-! ## 3. Accepted batches are covered -/

/-- When its turn comes the sender of every transaction holds amount and fee; the sum of all
    balances drops by the fees, no id occurs twice, and every transaction is valid for the accounts
    before the batch. -/
structure CoveredBatch (c : Crypto) (L : Ledger) (daaScore : UInt64) (hash : Hash)
    (txs : List FlashTransaction) : Prop where
  paid : ∀ before tx after, txs = before ++ tx :: after → ∃ affected L₁,
    (applyAll c ledgerStore hash before : Action Ledger Empty _) L = (.ok affected, L₁) ∧
      tx.amount.toNat + tx.fee.toNat ≤ L₁.bal (senderOf c tx)
  total : ∃ affected L₁, (applyAll c ledgerStore hash txs : Action Ledger Empty _) L =
    (.ok affected, L₁) ∧
      ∀ T : Finset ScriptPublicKey, (∀ tx ∈ txs, senderOf c tx ∈ T ∧ recipientOf tx ∈ T) →
        L₁.total T + totalFees txs = L.total T
  ids : (txs.map (FlashTransaction.flashId c)).Nodup
  valid : ∀ tx ∈ txs, validateFlashTransaction c ledgerStore tx daaScore L = (.ok (), L)

/-- **An accepted batch is covered exactly if all its recipients have at least 20 bytes.** -/
theorem covered_iff {c : Crypto} {ord : DebitOrder} {L L' : Ledger}
    {daaScore : UInt64} {txs eligible : List FlashTransaction} (hb : Bounded L)
    (h : validateFlashBatch c ledgerStore ord txs daaScore L = (.ok eligible, L')) (hash : Hash) :
    CoveredBatch c L daaScore hash eligible ↔ ∀ tx ∈ eligible, 20 ≤ tx.recipient.length := by
  have hacc := validateFlashBatch_accepted h
  constructor
  · intro hcov
    obtain ⟨affected, L₁, happly, _⟩ := hcov.total
    exact (affected_of_applyAll happly).1
  · intro hlen
    refine ⟨fun before tx after hsplit => ?_, ?_, hacc.ids, hacc.valid⟩
    · subst hsplit
      have hcov := hacc.covered
      simp only [flatMap_append, flatMap_cons, debits_append] at hcov
      have h1 := exact_foldl_liveFlash (c := c) hash before hb (fun a => by
        have := hcov a
        omega) (senderOf c tx)
      refine ⟨_, _, ledgerStore_applyAll hash (fun tx' hm => hlen tx' (mem_append_left _ hm)) L, ?_⟩
      have h2 := hcov (senderOf c tx)
      rw [debits_flashChanges, if_pos rfl] at h2
      omega
    · have hex := exact_foldl_liveFlash hash eligible hb hacc.covered
      exact ⟨_, _, ledgerStore_applyAll hash hlen L,
        fun T hT => hex.total (fun tx hm => (hT tx hm).1) fun tx hm => (hT tx hm).2⟩

def soleHolder : Ledger :=
  Function.update (fun _ => .default) toySender { AccountState.default with balance := 5000 }

theorem soleHolder_bounded : Bounded soleHolder := fun T => by
  have hle : ∀ a ∈ T, soleHolder.bal a ≤ if toySender = a then 5000 else 0 := fun a _ => by
    unfold soleHolder Ledger.bal
    by_cases h : a = toySender
    · subst h
      decide
    · rw [Function.update_of_ne h, if_neg (Ne.symm h)]
      decide
  refine (Finset.sum_le_sum hle).trans_lt ?_
  rw [Finset.sum_ite_eq]
  split <;> decide

def selfTransfer (signature : Bytes) : FlashTransaction :=
  { paidTransfer signature with recipient := (toyCrypto.sha3 [5]).bytes.take 20 }

def shortTransfer (signature : Bytes) : FlashTransaction :=
  { paidTransfer signature with recipient := [] }

def selfSignature : Bytes := ((selfTransfer []).sighash toyCrypto).bytes

def shortSignature : Bytes := ((shortTransfer []).sighash toyCrypto).bytes

def twoTransfers : List FlashTransaction := [selfTransfer selfSignature, paidTransfer paidSignature]

theorem covered_two : Bounded soleHolder ∧
      (validateFlashBatch toyCrypto ledgerStore (.asListed _ _) twoTransfers 1 soleHolder).1 =
        .ok twoTransfers ∧ CoveredBatch toyCrypto soleHolder 1 (.ofNat 2) twoTransfers := by
  have hok :
      (validateFlashBatch toyCrypto ledgerStore (.asListed _ _) twoTransfers 1 soleHolder).1 =
      .ok twoTransfers := by decide +kernel
  exact ⟨soleHolder_bounded,
    hok, (covered_iff soleHolder_bounded (Prod.ext hok (validateFlashBatch_reads _ _ _)) _).mpr
      (by decide)⟩

/-- **A recipient without bytes**: the batch is accepted, and applying it panics. -/
theorem short_recipient_uncovered : Bounded soleHolder ∧
      (validateFlashBatch toyCrypto ledgerStore (.asListed _ _) [shortTransfer shortSignature] 1
        soleHolder).1 = .ok [shortTransfer shortSignature] ∧
      ((applyFlashTx toyCrypto ledgerStore (shortTransfer shortSignature) (.ofNat 2) :
        Action Ledger Empty Unit) soleHolder).1 = .panicked ∧
      ¬ CoveredBatch toyCrypto soleHolder 1 (.ofNat 2) [shortTransfer shortSignature] := by
  refine ⟨soleHolder_bounded, by decide +kernel, rfl, fun h => ?_⟩
  obtain ⟨affected, L₁, happly, _⟩ := h.total
  exact absurd ((affected_of_applyAll happly).1 _ (mem_singleton_self _)) (by decide)

end Sahyadri.Live
