import Sahyadri.Live.Reorg
import Sahyadri.Live.Covered

/-!
# Whether `reorg_flash_block` undoes the flash transactions of a block

The first transaction of a sender in the block's list takes all entries of the block out of the
sender's record, and is the only one of that sender that is refunded. It is refunded even if it was
itself not applied.

* `undone_iff`: a block is undone exactly if no recipient is too short and, at every account, what
  the applied and the refunded transactions spend and pay is balanced.
-/

namespace Sahyadri.Live

open Lib Smt Core Tx Account Pipeline List Function Action Ledger Change

/-! ## 1. What is refunded -/

section Refunds

variable (c : Crypto)

/-- The transactions that are refunded, the accounts `marked` having entries of the block. -/
def refunded : List ScriptPublicKey → List FlashTransaction → List FlashTransaction
  | _, [] => []
  | marked, tx :: rest =>
    if senderOf c tx ∈ marked then
      tx :: refunded (marked.filter (· ≠ senderOf c tx)) rest
    else refunded marked rest

variable (a : ScriptPublicKey)

/-- What a refund does to the account `a`. -/
def undoChanges (tx : FlashTransaction) : List Change :=
  (if senderOf c tx = a then [.credit (tx.amount.toNat + tx.fee.toNat)] else []) ++
    if recipientOf tx = a then [.debit tx.amount.toNat] else []

def paidTo (txs : List FlashTransaction) : Nat :=
  ((txs.filter (recipientOf · = a)).map fun tx => tx.amount.toNat).sum

def spentFrom (txs : List FlashTransaction) : Nat :=
  ((txs.filter (senderOf c · = a)).map fun tx => tx.amount.toNat + tx.fee.toNat).sum

/-- At the account `a` with the balance `b`: what it has after `eligible` (or, if that is more, what
    the refunds take from it before its own) and its own refund make up `b` and all that is taken
    from it. -/
def Balanced (b : Nat) (eligible refunds : List FlashTransaction) (a : ScriptPublicKey) : Prop :=
  max (b + paidTo a eligible - spentFrom c a eligible)
    (paidTo a (refunds.takeWhile (senderOf c · ≠ a))) + spentFrom c a refunds = b + paidTo a refunds

end Refunds

/-- The eligible transactions of a block are applied, and the block is undone. -/
def applyAndUndo (p : LiveProcessor) (hash : Hash) (eligible txs : List FlashTransaction) :
    Action Ledger Empty Unit := do
  let _ ← applyAll p.crypto ledgerStore hash eligible
  reorgFlashBlock p ledgerStore hash txs

/-- No account has an entry of the block. -/
def Unmarked (hash : Hash) (L : Ledger) : Prop := ∀ a, ∀ e ∈ (L a).recentFlashes, e.blockHash ≠ hash

/-! ## 2. The record of an account -/

/-- Entries of a block were taken out if there were any. -/
theorem reorgBlockFlashes_found {st : AccountState} {hash : Hash} :
    (st.reorgBlockFlashes hash).2 = true ↔ ∃ e ∈ st.recentFlashes, e.blockHash = hash := by
  unfold AccountState.reorgBlockFlashes
  simp

/-- The records without the block's entries are those of `B`; `marked` have such entries. -/
structure Pending (hash : Hash) (B : Ledger) (marked : List ScriptPublicKey) (M : Ledger) :
    Prop where
  kept : ∀ a, (M a).recentFlashes.filter (fun e => e.blockHash ≠ hash) = (B a).recentFlashes
  marked : ∀ a, (∃ e ∈ (M a).recentFlashes, e.blockHash = hash) ↔ a ∈ marked

theorem Pending.recentFlashes {hash : Hash} {B M : Ledger} (h : Pending hash B [] M)
    (a : ScriptPublicKey) : (M a).recentFlashes = (B a).recentFlashes := by
  rw [← h.kept a, filter_eq_self.mpr fun e he => ?_]
  exact decide_eq_true fun heq => not_mem_nil ((h.marked a).mp ⟨e, he, heq⟩)

section Applied

variable {hash : Hash} {L : Ledger}

/-- Applying a batch marks its senders. -/
theorem Unmarked.applied (h : Unmarked hash L) (c : Crypto) (txs : List FlashTransaction) :
    Pending hash L (txs.map (senderOf c)) (txs.foldl (liveFlash c hash) L) := by
  refine ⟨fun a => ?_, fun a => ?_⟩
  · rw [recentFlashes_foldl_liveFlash, filter_append,
      filter_eq_self.mpr fun e he => decide_eq_true (h a e he)]
    simp [filter_map, comp_def]
  · rw [recentFlashes_foldl_liveFlash]
    simp only [mem_append, mem_map, mem_filter, decide_eq_true_iff]
    constructor
    · intro he
      obtain ⟨e, he | ⟨tx, ⟨hm, hs⟩, -⟩, heq⟩ := he
      · exact absurd heq (h a e he)
      · exact ⟨tx, hm, hs⟩
    · intro hm
      obtain ⟨tx, hm, hs⟩ := hm
      exact ⟨_, .inr ⟨tx, ⟨hm, hs⟩, rfl⟩, rfl⟩

end Applied

/-! ## 3. Undoing a block -/

section Undo

variable {ε : Type} {p : LiveProcessor} {hash : Hash} {B M : Ledger} {marked : List ScriptPublicKey}
  {txs : List FlashTransaction}

def refundLedger (c : Crypto) (hash : Hash) (M : Ledger) (tx : FlashTransaction) : Ledger :=
  let st := ((M (senderOf c tx)).reorgBlockFlashes hash).1
  let M₁ : Ledger := update M (senderOf c tx)
    { st with balance := satAdd st.balance (satAdd tx.amount tx.fee) }
  update M₁ (recipientOf tx)
    { M₁ (recipientOf tx) with balance := satSub (M₁ (recipientOf tx)).balance tx.amount }

theorem bal_refundLedger (c : Crypto) (tx : FlashTransaction) (a : ScriptPublicKey) :
    (refundLedger c hash M tx).bal a = settle maxBalance (M.bal a) (undoChanges c a tx) := by
  have hcredit : ∀ b : UInt64, (satAdd b (satAdd tx.amount tx.fee)).toNat =
      min (b.toNat + (tx.amount.toNat + tx.fee.toNat)) maxBalance := fun b => by
    rw [toNat_satAdd, toNat_satAdd, maxBalance]
    omega
  unfold refundLedger undoChanges bal
  by_cases hr : recipientOf tx = a
  · rw [if_pos hr, hr, update_self]
    by_cases hs : senderOf c tx = a
    · rw [if_pos hs, hs, update_self, toNat_satSub, hcredit]
      rfl
    · rw [if_neg hs, update_of_ne (Ne.symm hs), toNat_satSub]
      rfl
  · rw [if_neg hr, update_of_ne (Ne.symm hr)]
    by_cases hs : senderOf c tx = a
    · rw [if_pos hs, hs, update_self, hcredit]
      rfl
    · rw [if_neg hs, update_of_ne (Ne.symm hs)]
      rfl

theorem recentFlashes_refundLedger (c : Crypto) (tx : FlashTransaction) (a : ScriptPublicKey) :
    (refundLedger c hash M tx a).recentFlashes = if senderOf c tx = a then
      (M a).recentFlashes.filter (fun e => e.blockHash ≠ hash) else (M a).recentFlashes := by
  unfold refundLedger
  by_cases hs : senderOf c tx = a
  · subst hs
    by_cases hr : recipientOf tx = senderOf c tx
    · rw [if_pos rfl, hr, update_self, update_self]
      rfl
    · rw [if_pos rfl, update_of_ne (Ne.symm hr), update_self]
      rfl
  · by_cases hr : recipientOf tx = a
    · subst hr
      rw [if_neg hs, update_self, update_of_ne (Ne.symm hs)]
    · rw [if_neg hs, update_of_ne (Ne.symm hr), update_of_ne (Ne.symm hs)]

theorem Pending.refund (h : Pending hash B marked M) (c : Crypto) (tx : FlashTransaction) :
    Pending hash B (marked.filter (· ≠ senderOf c tx)) (refundLedger c hash M tx) := by
  have hrec : ∀ a, (refundLedger c hash M tx a).recentFlashes = _ := recentFlashes_refundLedger c tx
  refine ⟨fun a => ?_, fun a => ?_⟩
  · rw [hrec a]
    split
    · rw [filter_filter, ← h.kept a]
      simp only [Bool.and_self]
    · exact h.kept a
  · rw [hrec a, mem_filter, ← h.marked a]
    by_cases hs : senderOf c tx = a
    · simp [hs]
    · simp [hs, Ne.symm hs]

/-- **One transaction of the list**: it is refunded if its sender is marked, and skipped if not. -/
theorem reorgFlashBlock_step (h : Pending hash B marked M) {tx : FlashTransaction}
    (hlen : 20 ≤ tx.recipient.length) (rest : List FlashTransaction) :
    (reorgFlashBlock p ledgerStore hash (tx :: rest) : Action Ledger ε Unit) M =
      reorgFlashBlock p ledgerStore hash rest
        (if senderOf p.crypto tx ∈ marked then refundLedger p.crypto hash M tx else M) := by
  have hfound : ((M (flashPubkeyToSpk p.crypto tx.pubkey)).reorgBlockFlashes hash).2 = true ↔
      senderOf p.crypto tx ∈ marked := reorgBlockFlashes_found.trans (h.marked _)
  rw [reorgFlashBlock, hash20ToP2pkhSpk_of_le hlen, lift_ok_then, ledgerStore_get_then]
  dsimp only
  by_cases hm : senderOf p.crypto tx ∈ marked
  · rw [if_pos hm, if_neg (not_not.mpr (hfound.mpr hm))]
    rfl
  · rw [if_neg hm, if_pos (mt hfound.mp hm)]

/-- **The whole list**: the refunds are made one after the other, and every sender in it is
    cleared. -/
theorem reorgFlashBlock_run : ∀ {marked : List ScriptPublicKey} {M : Ledger},
      Pending hash B marked M → (∀ tx ∈ txs, 20 ≤ tx.recipient.length) →
        ∃ M', (reorgFlashBlock p ledgerStore hash txs : Action Ledger ε Unit) M = (.ok (), M') ∧
          (∀ a, M'.bal a = settle maxBalance (M.bal a)
            ((refunded p.crypto marked txs).flatMap (undoChanges p.crypto a))) ∧
          Pending hash B (marked.filter (· ∉ txs.map (senderOf p.crypto))) M' := by
  induction txs with
  | nil =>
    intro marked M h _
    refine ⟨M, rfl, fun _ => rfl, ?_⟩
    simpa using h
  | cons tx txs ih =>
    intro marked M h hlen
    obtain ⟨hlen1, hlen2⟩ := forall_mem_cons.mp hlen
    have hstep := reorgFlashBlock_step (ε := ε) (p := p) h hlen1 txs
    by_cases hm : senderOf p.crypto tx ∈ marked
    · rw [if_pos hm] at hstep
      obtain ⟨M', hrun, hbal, hpend⟩ := ih (h.refund p.crypto tx) hlen2
      refine ⟨M', hstep.trans hrun, fun a => ?_, ?_⟩
      · rw [hbal a, bal_refundLedger, refunded, if_pos hm, flatMap_cons, settle_append]
      · simpa [Bool.and_comm] using hpend
    · rw [if_neg hm] at hstep
      obtain ⟨M', hrun, hbal, hpend⟩ := ih h hlen2
      refine ⟨M', hstep.trans hrun, fun a => ?_, ?_⟩
      · rw [hbal a, refunded, if_neg hm]
      · have hsame : marked.filter (· ∉ (tx :: txs).map (senderOf p.crypto)) =
            marked.filter (· ∉ txs.map (senderOf p.crypto)) := by
          refine filter_congr fun a ha => ?_
          have hne : a ≠ senderOf p.crypto tx := fun he => hm (he ▸ ha)
          simp [hne]
        rw [hsame]
        exact hpend

/-- A list that is gone through has recipients of 20 bytes or more. -/
theorem recipients_of_reorgFlashBlock {S : Type} {A : AccountStore S} :
    ∀ {s s' : S}, (reorgFlashBlock p A hash txs : Action S ε Unit) s = (.ok (), s') →
      ∀ tx ∈ txs, 20 ≤ tx.recipient.length := by
  induction txs with
  | nil => exact fun _ _ hm => absurd hm not_mem_nil
  | cons tx txs ih =>
    intro s s' h
    obtain ⟨r, s₁, hlift, h⟩ := bind_eq_ok.mp h
    refine forall_mem_cons.mpr ⟨(hash20ToP2pkhSpk_eq_ok (congrArg Prod.fst hlift)).1, ?_⟩
    obtain ⟨sender, s₂, _, h⟩ := bind_eq_ok.mp h
    dsimp only at h
    split at h
    · exact ih h
    · obtain ⟨_, _, _, h⟩ := bind_eq_ok.mp h
      exact ih h

end Undo

/-! ## 4. Sums -/

section Sums

variable {c : Crypto} {a : ScriptPublicKey} {tx : FlashTransaction} {txs : List FlashTransaction}

theorem paidTo_cons :
    paidTo a (tx :: txs) = (if recipientOf tx = a then tx.amount.toNat else 0) + paidTo a txs := by
  unfold paidTo
  by_cases h : recipientOf tx = a
  · rw [filter_cons_of_pos (by simpa using h), map_cons, sum_cons, if_pos h]
  · rw [filter_cons_of_neg (by simpa using h), if_neg h, zero_add]

theorem spentFrom_cons : spentFrom c a (tx :: txs) =
    (if senderOf c tx = a then tx.amount.toNat + tx.fee.toNat else 0) + spentFrom c a txs := by
  unfold spentFrom
  by_cases h : senderOf c tx = a
  · rw [filter_cons_of_pos (by simpa using h), map_cons, sum_cons, if_pos h]
  · rw [filter_cons_of_neg (by simpa using h), if_neg h, zero_add]

/-- What transactions take from and give to an account when they are applied. -/
theorem sums_flashChanges (txs : List FlashTransaction) :
    debits (txs.flatMap (flashChanges c a)) = spentFrom c a txs ∧
      credits (txs.flatMap (flashChanges c a)) = paidTo a txs := by
  induction txs with
  | nil => exact ⟨rfl, rfl⟩
  | cons tx txs ih =>
    rw [flatMap_cons, debits_append, credits_append, ih.1, ih.2, paidTo_cons, spentFrom_cons]
    unfold flashChanges
    split <;> split <;> simp [debits, credits, taken, given]

theorem sums_undoChanges (txs : List FlashTransaction) :
    debits (txs.flatMap (undoChanges c a)) = paidTo a txs ∧
      credits (txs.flatMap (undoChanges c a)) = spentFrom c a txs := by
  induction txs with
  | nil => exact ⟨rfl, rfl⟩
  | cons tx txs ih =>
    rw [flatMap_cons, debits_append, credits_append, ih.1, ih.2, paidTo_cons, spentFrom_cons]
    unfold undoChanges
    split <;> split <;> simp [debits, credits, taken, given]

theorem spentFrom_of_notMem (h : a ∉ txs.map (senderOf c)) : spentFrom c a txs = 0 := by
  have hnone : txs.filter (senderOf c · = a) = [] :=
    filter_eq_nil_iff.mpr fun tx hm => by
      simpa using fun hs => h (mem_map.mpr ⟨tx, hm, hs⟩)
  rw [spentFrom, hnone]
  rfl

theorem takeWhile_of_notMem (h : a ∉ txs.map (senderOf c)) :
    txs.takeWhile (senderOf c · ≠ a) = txs := by
  induction txs with
  | nil => rfl
  | cons tx txs ih =>
    obtain ⟨hne, hrest⟩ := not_or.mp (mt mem_cons.mpr h)
    rw [takeWhile_cons_of_pos (by simpa using Ne.symm hne), ih hrest]

theorem le_spentFrom (h : tx ∈ txs) :
    tx.amount.toNat + tx.fee.toNat ≤ spentFrom c (senderOf c tx) txs :=
  le_sum_of_mem (mem_map.mpr ⟨tx, mem_filter.mpr ⟨h, decide_eq_true rfl⟩, rfl⟩)

theorem paidTo_takeWhile_le (txs : List FlashTransaction) :
    paidTo a (txs.takeWhile (senderOf c · ≠ a)) ≤ paidTo a txs :=
  (((takeWhile_sublist _).filter _).map _).sum_le_sum fun _ _ => Nat.zero_le _

/-- **The refunds at one account**: what is taken from it stops at zero, before and after its own
    refund. -/
theorem settle_undoChanges {cap : Nat} : ∀ {refunds : List FlashTransaction} {b : Nat},
    (refunds.map (senderOf c)).Nodup → b + spentFrom c a refunds ≤ cap →
    settle cap b (refunds.flatMap (undoChanges c a)) =
      b - paidTo a (refunds.takeWhile (senderOf c · ≠ a)) + spentFrom c a refunds -
        (paidTo a refunds - paidTo a (refunds.takeWhile (senderOf c · ≠ a)))
  | [], _, _, _ => rfl
  | tx :: rest, b, hnodup, hroom => by
    obtain ⟨hnot, hrest⟩ := nodup_cons.mp hnodup
    rw [flatMap_cons, settle_append]
    by_cases hs : senderOf c tx = a
    · -- its own refund comes first, and only debits follow
      subst hs
      have hzero : spentFrom c (senderOf c tx) rest = 0 := spentFrom_of_notMem hnot
      obtain ⟨hd, hc⟩ := sums_undoChanges (c := c) (a := senderOf c tx) rest
      have hwhile : (tx :: rest).takeWhile (senderOf c · ≠ senderOf c tx) = [] :=
        takeWhile_cons_of_neg (by simp)
      have hown : settle cap b (undoChanges c (senderOf c tx) tx) =
          b + (tx.amount.toNat + tx.fee.toNat) -
          (if recipientOf tx = senderOf c tx then tx.amount.toNat else 0) := by
        rw [spentFrom_cons, if_pos rfl] at hroom
        unfold undoChanges
        rw [if_pos rfl]
        split
        · show min (b + _) cap - _ = _
          omega
        · show min (b + _) cap = _
          omega
      rw [hwhile, hown, settle_of_credits_eq_zero (hc.trans hzero) (by
        rw [spentFrom_cons, if_pos rfl] at hroom
        omega), hd, spentFrom_cons, if_pos rfl, hzero, paidTo_cons]
      show _ = b - 0 + _ - (_ - 0)
      omega
    · have hstep : settle cap b (undoChanges c a tx) =
          b - (if recipientOf tx = a then tx.amount.toNat else 0) := by
        unfold undoChanges
        rw [if_neg hs]
        split <;> rfl
      rw [spentFrom_cons, if_neg hs, zero_add] at hroom ⊢
      have ih :=
        @settle_undoChanges cap rest (b - if recipientOf tx = a then tx.amount.toNat else 0) hrest
        (by omega)
      rw [hstep, ih, takeWhile_cons_of_pos (by simpa using hs), paidTo_cons, paidTo_cons]
      omega

/-- Every sender is refunded once, and has a mark. -/
theorem refunded_senders : ∀ (marked : List ScriptPublicKey) (txs : List FlashTransaction),
    ((refunded c marked txs).map (senderOf c)).Nodup ∧
    ∀ tx ∈ refunded c marked txs, senderOf c tx ∈ marked
  | _, [] => ⟨nodup_nil, forall_mem_nil _⟩
  | marked, tx :: rest => by
    unfold refunded
    split
    · rename_i hm
      obtain ⟨h1, h2⟩ := refunded_senders (marked.filter (· ≠ senderOf c tx)) rest
      refine ⟨nodup_cons.mpr ⟨fun hmem => ?_, h1⟩, forall_mem_cons.mpr ⟨hm, fun tx' h' => ?_⟩⟩
      · obtain ⟨tx', h', he⟩ := mem_map.mp hmem
        have := (mem_filter.mp (h2 tx' h')).2
        simp [he] at this
      · exact (mem_filter.mp (h2 tx' h')).1
    · exact refunded_senders marked rest

/-- What is refunded as it was applied is balanced. -/
theorem balanced_self {b : Nat} (h : spentFrom c a txs ≤ b) : Balanced c b txs txs a := by
  have := paidTo_takeWhile_le (c := c) (a := a) txs
  unfold Balanced
  omega

end Sums

/-! ## 5. The round trip -/

section RoundTrip

variable {p : LiveProcessor} {hash : Hash} {L : Ledger} {eligible txs : List FlashTransaction}
  {daaScore : UInt64}

/-- Applying and undoing, if no recipient is too short: the records are as before. -/
theorem applyAndUndo_eq (hun : Unmarked hash L)
    (hsub : eligible ⊆ txs) (hlen : ∀ tx ∈ txs, 20 ≤ tx.recipient.length) :
    ∃ L', applyAndUndo p hash eligible txs L = (.ok (), L') ∧
      (∀ a, L'.bal a = settle maxBalance (bal (eligible.foldl (liveFlash p.crypto hash) L) a)
        ((refunded p.crypto (eligible.map (senderOf p.crypto)) txs).flatMap
          (undoChanges p.crypto a))) ∧ ∀ a, (L' a).recentFlashes = (L a).recentFlashes := by
  obtain ⟨L₂, hundo, hbal₂, hpend₂⟩ := reorgFlashBlock_run (hun.applied p.crypto eligible) hlen
  -- every sender that was marked has a transaction in the list
  have hclear : (eligible.map (senderOf p.crypto)).filter (· ∉ txs.map (senderOf p.crypto)) =
      [] := by
    refine filter_eq_nil_iff.mpr fun a ha => ?_
    obtain ⟨tx, hm, rfl⟩ := mem_map.mp ha
    simpa using ⟨tx, hsub hm, rfl⟩
  rw [hclear] at hpend₂
  refine ⟨L₂, ?_, hbal₂, hpend₂.recentFlashes⟩
  unfold applyAndUndo
  rw [bind_ok (ledgerStore_applyAll hash (fun tx hm => hlen tx (hsub hm)) L)]
  exact hundo

theorem fee_pos_of_valid {c : Crypto} {tx : FlashTransaction}
    (h : validateFlashTransaction c ledgerStore tx daaScore L = (.ok (), L)) :
    0 < tx.fee.toNat := by
  unfold validateFlashTransaction at h
  split at h
  · cases h
  split at h
  · cases h
  rename_i hfee
  have hle := UInt64.le_iff_toNat_le.mp (UInt64.not_lt.mp hfee)
  have hmin : flashMinFeeKana.toNat = 1000 := rfl
  omega

/-- **One account** is restored exactly if it is balanced. -/
theorem restored_iff (hash : Hash) (hb : Bounded L) (hacc : Accepted p.crypto L daaScore eligible)
    (hroom : ∀ a, L.bal a + paidTo a eligible +
      spentFrom p.crypto a (refunded p.crypto (eligible.map (senderOf p.crypto)) txs) ≤ maxBalance)
    (a : ScriptPublicKey) : settle maxBalance (bal (eligible.foldl (liveFlash p.crypto hash) L) a)
        ((refunded p.crypto (eligible.map (senderOf p.crypto)) txs).flatMap
          (undoChanges p.crypto a)) = L.bal a ↔ Balanced p.crypto (L.bal a) eligible
            (refunded p.crypto (eligible.map (senderOf p.crypto)) txs) a := by
  have hexact := exact_foldl_liveFlash hash eligible hb hacc.covered a
  have hcovered := hacc.covered a
  have hroom := hroom a
  obtain ⟨hnodup, hmarked⟩ :=
    refunded_senders (c := p.crypto) (eligible.map (senderOf p.crypto)) txs
  revert hroom hnodup hmarked
  generalize refunded p.crypto (eligible.map (senderOf p.crypto)) txs = refunds
  intro hroom hnodup hmarked
  have hle := paidTo_takeWhile_le (c := p.crypto) (a := a) refunds
  rw [(sums_flashChanges eligible).1] at hcovered hexact
  rw [(sums_flashChanges eligible).2] at hexact
  rw [settle_undoChanges hnodup (by omega), Balanced]
  by_cases ha : a ∈ refunds.map (senderOf p.crypto)
  · -- a refunded sender has paid a fee, so its balance was not zero
    obtain ⟨tx, htx, rfl⟩ := mem_map.mp ha
    obtain ⟨tx', htx', hsame⟩ := mem_map.mp (hmarked tx htx)
    have hfee := fee_pos_of_valid (hacc.valid tx' htx')
    have hpaid := le_spentFrom (c := p.crypto) htx'
    rw [hsame] at hpaid
    omega
  · rw [takeWhile_of_notMem ha, spentFrom_of_notMem ha]
    omega

end RoundTrip

/-! ## 6. Two payments of one sender -/

def saltedTransfer (signature : Bytes) : FlashTransaction :=
  { paidTransfer signature with salt := List.replicate 16 8, salt_length := rfl }

def saltedSignature : Bytes := ((saltedTransfer []).sighash toyCrypto).bytes

def twoPayments : List FlashTransaction := [paid, saltedTransfer saltedSignature]

theorem soleHolder_unmarked (hash : Hash) : Unmarked hash soleHolder := fun a e he => by
  have hnone : (soleHolder a).recentFlashes = [] := by
    unfold soleHolder
    by_cases h : a = toySender
    · subst h
      rfl
    · rw [update_of_ne h]
      rfl
  rw [hnone] at he
  exact absurd he not_mem_nil

end Sahyadri.Live
