import Sahyadri.Tx.Validator
import Sahyadri.Account.Total
import Sahyadri.Live.Store

/-!
# Flash transactions on the live accounts: validation, application, pruning

* `validateFlashTransaction`, `validateFlashBatch`: the checks that the state transition of a block
  does not make. A batch drops duplicates, expired and recorded transactions, and is refused as a
  whole for anything else.
-/

namespace Sahyadri.Live

open Lib Smt Core Tx Account List Action Ledger Function AccountState Option AList

/-! ## 1. The code -/

def checkedAdd (a b : UInt64) : Option UInt64 :=
  if a.toNat + b.toNat < 2 ^ 64 then some (a + b) else none

def displayHash (h : Hash) : String :=
  String.ofList
    (h.bytes.flatMap fun b => [Nat.digitChar (b.toNat / 16), Nat.digitChar (b.toNat % 16)])

def flashMinFeeKana : UInt64 := 1000

/-- The validator's `pubkey_to_p2pkh_spk`. -/
def pubkeyToP2pkhSpk (c : Crypto) (pubkey : Bytes) : ScriptPublicKey :=
  p2pkhSpk ((c.sha3 pubkey).bytes.take 20)

section Code

variable {S ε : Type} (c : Crypto) (A : AccountStore S)

def validateFlashTransaction (tx : FlashTransaction) (currentDaaScore : UInt64) :
    Action S TxRuleError Unit :=
  if currentDaaScore > tx.expiryDaaScore then
    .fail (.message ("FlashTx expired: current_daa=" ++ toString currentDaaScore ++ " > expiry=" ++
      toString tx.expiryDaaScore))
  else if tx.fee < flashMinFeeKana then .fail .zeroFee
  else do
    let accountState ← A.getAccount (pubkeyToP2pkhSpk c tx.pubkey)
    if accountState.isFlashReplay (tx.flashId c) then
      .fail (.message ("FlashTx replay detected: " ++ displayHash (tx.flashId c)))
    else if ¬ c.verify tx.pubkey tx.signature (tx.sighash c).bytes then
      .fail (.message "FlashTx ML-DSA-65 signature verification FAILED")
    else
      match checkedAdd tx.amount tx.fee with
      | none => .fail .inputAmountOverflow
      | some totalRequired =>
        if accountState.balance < totalRequired then
          .fail (.spendTooHigh tx.amount accountState.balance)
        else pure ()

/-- Step 1 of the batch: drop duplicates, expired and recorded transactions. `seen` are the ids so
    far. -/
def filterEligible (blockDaaScore : UInt64) (seen : List Hash) :
    List FlashTransaction → Action S TxRuleError (List FlashTransaction)
  | [] => pure []
  | tx :: rest =>
    let id := tx.flashId c
    if id ∈ seen then filterEligible blockDaaScore seen rest
    else if blockDaaScore > tx.expiryDaaScore then filterEligible blockDaaScore (id :: seen) rest
    else do
      let account ← A.getAccount (pubkeyToP2pkhSpk c tx.pubkey)
      let eligible ← filterEligible blockDaaScore (id :: seen) rest
      return if account.isFlashReplay id then eligible else tx :: eligible

/-- Step 2: add a transaction to its sender's debits. -/
def addDebit (senderDebits : Table ScriptPublicKey UInt64) (tx : FlashTransaction) :
    Run TxRuleError (Table ScriptPublicKey UInt64) :=
  let spk := pubkeyToP2pkhSpk c tx.pubkey
  let entry := (senderDebits.lookup spk).getD 0
  match (checkedAdd entry tx.amount).bind (checkedAdd · tx.fee) with
  | some total => .ok (senderDebits.insert spk total)
  | none => .fail .inputAmountOverflow

/-- Step 3: every sender has what all its transactions take. -/
def checkDebits : Rewards → Action S TxRuleError Unit
  | [] => pure ()
  | (spk, totalDebit) :: rest => do
    let account ← A.getAccount spk
    if account.balance < totalDebit then .fail (.spendTooHigh totalDebit account.balance)
    else checkDebits rest

/-- Step 4: each transaction on its own. -/
def validateEach (blockDaaScore : UInt64) : List FlashTransaction → Action S TxRuleError Unit
  | [] => pure ()
  | tx :: rest => do
    validateFlashTransaction c A tx blockDaaScore
    validateEach blockDaaScore rest

abbrev DebitOrder := IterOrder ScriptPublicKey UInt64

/-- `validate_flash_batch`; `ord` is the iteration order of the debits. -/
def validateFlashBatch (ord : DebitOrder) (txs : List FlashTransaction)
    (blockDaaScore : UInt64) : Action S TxRuleError (List FlashTransaction) :=
  if txs.isEmpty then pure []
  else do
    let eligible ← filterEligible c A blockDaaScore [] txs
    if eligible.isEmpty then pure []
    else do
      let senderDebits ← lift fun _ => eligible.foldlM (addDebit c) ∅
      checkDebits A (ord.order senderDebits.pairs)
      validateEach c A blockDaaScore eligible
      return eligible

/-- `apply_flash_tx`; a recipient that is too short is a panic before anything is written. -/
def applyFlashTx (tx : FlashTransaction) (blockHash : Hash) : Action S ε Unit := do
  let senderSpk := flashPubkeyToSpk c tx.pubkey
  let recipientSpk ← lift fun _ => hash20ToP2pkhSpk tx.recipient
  let sender ← A.getAccount senderSpk
  let totalDebit := satAdd tx.amount tx.fee
  let sender := { sender with balance := satSub sender.balance totalDebit }
  A.setBatch senderSpk (sender.recordFlash (tx.flashId c) tx.expiryDaaScore blockHash)
  let recipient ← A.getAccount recipientSpk
  A.setBatch recipientSpk { recipient with balance := satAdd recipient.balance tx.amount }

/-- The loop over a validated batch: apply, and collect the affected accounts. -/
def applyAll (blockHash : Hash) : List FlashTransaction → Action S ε (List ScriptPublicKey)
  | [] => pure []
  | tx :: rest => do
    applyFlashTx c A tx blockHash
    let recipientSpk ← lift fun _ => hash20ToP2pkhSpk tx.recipient
    let affected ← applyAll blockHash rest
    return flashPubkeyToSpk c tx.pubkey :: recipientSpk :: affected

def pruneFlashesForAccounts (currentDaaScore : UInt64) : List ScriptPublicKey → Action S ε Unit
  | [] => pure ()
  | spk :: rest => do
    let acc ← A.getAccount spk
    let pruned := acc.pruneRecentFlashes currentDaaScore
    if acc.recentFlashes.isEmpty ∨ pruned.recentFlashes.length = acc.recentFlashes.length then
      pruneFlashesForAccounts currentDaaScore rest
    else do
      A.setBatch spk pruned
      pruneFlashesForAccounts currentDaaScore rest

end Code

theorem pubkeyToP2pkhSpk_eq (c : Crypto) (tx : FlashTransaction) :
    pubkeyToP2pkhSpk c tx.pubkey = senderOf c tx := rfl

/-! ## 2. Stores that answer alike -/

section Sim

variable {S T ε : Type} {c : Crypto} {A : AccountStore S} {B : AccountStore T}
  {K : Finset ScriptPublicKey} {R : S → T → Prop} {tx : FlashTransaction}
  {txs eligible : List FlashTransaction}

section Validation

variable (hget : ∀ {spk}, spk ∈ K →
  Rel R (A.getAccount spk : Action S TxRuleError AccountState) (B.getAccount spk))
  {daaScore : UInt64}

include hget

theorem validateFlashTransaction_sim (hk : senderOf c tx ∈ K) (daaScore : UInt64) : Rel R
      (validateFlashTransaction c A tx daaScore) (validateFlashTransaction c B tx daaScore) := by
  unfold validateFlashTransaction
  split
  · exact rel_fail _
  split
  · exact rel_fail _
  refine rel_bind (hget hk) fun st => ?_
  split
  · exact rel_fail _
  split
  · exact rel_fail _
  cases checkedAdd tx.amount tx.fee with
  | none => exact rel_fail _
  | some total =>
    dsimp only
    split
    · exact rel_fail _
    · exact rel_pure _

theorem filterEligible_sim (daaScore : UInt64) (hk : ∀ tx ∈ txs, senderOf c tx ∈ K) : ∀ seen, Rel R
      (filterEligible c A daaScore seen txs) (filterEligible c B daaScore seen txs) := by
  induction txs with
  | nil => exact fun _ => rel_pure _
  | cons tx txs ih =>
    obtain ⟨h1, h2⟩ := forall_mem_cons.mp hk
    intro seen
    unfold filterEligible
    dsimp only
    split
    · exact ih h2 seen
    split
    · exact ih h2 _
    · exact rel_bind (hget h1) fun _ => rel_bind (ih h2 _) fun _ => rel_pure _

omit hget in
theorem filterEligible_sublist :
    ∀ {seen : List Hash} {s s' : S} {eligible : List FlashTransaction},
      filterEligible c A daaScore seen txs s = (.ok eligible, s') → eligible.Sublist txs := by
  induction txs with
  | nil =>
    intro seen s s' eligible h
    cases h
    exact .refl _
  | cons tx txs ih =>
    intro seen s s' eligible h
    unfold filterEligible at h
    dsimp only at h
    split at h
    · exact (ih h).cons _
    split at h
    · exact (ih h).cons _
    obtain ⟨account, s₁, _, h⟩ := bind_eq_ok.mp h
    obtain ⟨rest, s₂, h1, h2⟩ := bind_eq_ok.mp h
    cases h2
    split
    · exact (ih h1).cons _
    · exact (ih h1).cons_cons _

theorem checkDebits_sim {debits : Rewards} (hk : ∀ e ∈ debits, e.1 ∈ K) :
    Rel R (checkDebits A debits) (checkDebits B debits) := by
  induction debits with
  | nil => exact rel_pure _
  | cons e es ih =>
    obtain ⟨h1, h2⟩ := forall_mem_cons.mp hk
    refine rel_bind (hget h1) fun st => ?_
    split
    · exact rel_fail _
    · exact ih h2

omit hget in
theorem senders_of_addDebit (hk : ∀ tx ∈ txs, senderOf c tx ∈ K) :
    ∀ {t t' : Table ScriptPublicKey UInt64}, (∀ spk ∈ t, spk ∈ K) →
      txs.foldlM (addDebit c) t = .ok t' → ∀ spk ∈ t', spk ∈ K := by
  induction txs with
  | nil =>
    intro t t' ht h
    cases h
    exact ht
  | cons tx txs ih =>
    intro t t' ht h
    obtain ⟨h1, h2⟩ := forall_mem_cons.mp hk
    obtain ⟨t₁, ha, h⟩ := Run.bind_eq_ok.mp h
    refine ih h2 (fun spk hm => ?_) h
    unfold addDebit at ha
    dsimp only at ha
    split at ha
    · cases ha
      rcases (mem_insert _).mp hm with rfl | hm
      · exact h1
      · exact ht spk hm
    · cases ha

theorem validateEach_sim (daaScore : UInt64) (hk : ∀ tx ∈ txs, senderOf c tx ∈ K) :
    Rel R (validateEach c A daaScore txs) (validateEach c B daaScore txs) := by
  induction txs with
  | nil => exact rel_pure _
  | cons tx txs ih =>
    obtain ⟨h1, h2⟩ := forall_mem_cons.mp hk
    exact rel_bind (validateFlashTransaction_sim hget h1 _) fun _ => ih h2

theorem validateFlashBatch_sim (ord : DebitOrder) (daaScore : UInt64)
    (hk : ∀ tx ∈ txs, senderOf c tx ∈ K) : Rel R (validateFlashBatch c A ord txs daaScore)
      (validateFlashBatch c B ord txs daaScore) := by
  unfold validateFlashBatch
  split
  · exact rel_pure _
  refine rel_bind_of_ok (filterEligible_sim hget daaScore hk []) fun {eligible _ _} he => ?_
  have hke : ∀ tx ∈ eligible, senderOf c tx ∈ K :=
    fun tx htx => hk tx ((filterEligible_sublist he).subset htx)
  split
  · exact rel_pure _
  refine rel_bind_of_ok (rel_lift fun _ _ _ => rfl) fun {debits _ _} hd => ?_
  have hkd :=
    senders_of_addDebit hke (fun spk hm => absurd hm (notMem_empty spk)) (congrArg Prod.fst hd)
  refine rel_bind (checkDebits_sim hget fun e he => ?_) fun _ => ?_
  · have hm := mem_map_of_mem (f := Prod.fst) ((ord.perm _).mem_iff.mp he)
    rw [Table.map_fst_pairs] at hm
    exact hkd e.1 hm
  · exact rel_bind (validateEach_sim hget daaScore hke) fun _ => rel_pure _

omit hget in
/-- What is returned, if anything, was left by the first step and went through the others. -/
theorem validateFlashBatch_cases {ord : DebitOrder} {s s' : S}
    (h : validateFlashBatch c A ord txs daaScore s = (.ok eligible, s')) :
    eligible = [] ∨ ∃ s₁ t s₂ s₃, filterEligible c A daaScore [] txs s = (.ok eligible, s₁) ∧
    eligible.foldlM (addDebit c) ∅ = .ok t ∧ checkDebits A (ord.order t.pairs) s₁ = (.ok (), s₂) ∧
    validateEach c A daaScore eligible s₂ = (.ok (), s₃) := by
  unfold validateFlashBatch at h
  split at h
  · cases h
    exact .inl rfl
  obtain ⟨l, s₁, h1, h⟩ := bind_eq_ok.mp h
  split at h
  · cases h
    exact .inl rfl
  obtain ⟨t, s₂, h2, h⟩ := bind_eq_ok.mp h
  obtain ⟨_, s₃, h3, h⟩ := bind_eq_ok.mp h
  obtain ⟨_, s₄, h4, h⟩ := bind_eq_ok.mp h
  cases h
  cases congrArg Prod.snd h2
  exact .inr ⟨_, t, _, _, h1, congrArg Prod.fst h2, h3, h4⟩

end Validation

theorem validateFlashBatch_sublist {ord : DebitOrder} {daaScore : UInt64} {s s' : S}
    (h : validateFlashBatch c A ord txs daaScore s = (.ok eligible, s')) :
    eligible.Sublist txs := by
  rcases validateFlashBatch_cases h with rfl | ⟨_, _, _, _, h1, _⟩
  · exact nil_sublist _
  · exact filterEligible_sublist h1

variable (H : AccountStoreSim A B K R)

include H

theorem applyFlashTx_sim (hs : senderOf c tx ∈ K) (hr : recipientOf tx ∈ K) (hash : Hash) :
    Rel R (applyFlashTx c A tx hash : Action S ε Unit) (applyFlashTx c B tx hash) := by
  unfold applyFlashTx
  by_cases hlen : 20 ≤ tx.recipient.length
  · rw [hash20ToP2pkhSpk_of_le hlen, lift_ok_then]
    exact rel_bind (getAccount_sim H hs) fun _ => rel_bind (setBatch_sim H hs _) fun _ =>
      rel_bind (getAccount_sim H hr) fun _ => setBatch_sim H hr _
  · rw [hash20ToP2pkhSpk_of_lt hlen]
    exact fun _ _ h => ⟨rfl, h⟩

theorem applyAll_sim (hash : Hash)
    (hs : ∀ tx ∈ txs, senderOf c tx ∈ K) (hr : ∀ tx ∈ txs, recipientOf tx ∈ K) :
    Rel R (applyAll c A hash txs : Action S ε (List ScriptPublicKey)) (applyAll c B hash txs) := by
  induction txs with
  | nil => exact rel_pure _
  | cons tx txs ih =>
    obtain ⟨h1, h2⟩ := forall_mem_cons.mp hs
    obtain ⟨k1, k2⟩ := forall_mem_cons.mp hr
    refine rel_bind (applyFlashTx_sim H h1 k1 _) fun _ => ?_
    refine rel_bind (rel_lift fun _ _ _ => rfl) fun _ => ?_
    exact rel_bind (ih h2 k2) fun _ => rel_pure _

omit H in
/-- A batch that is applied has recipients of 20 bytes or more, and affects the accounts of its
    transactions. -/
theorem affected_of_applyAll {hash : Hash} : ∀ {s s' : S} {affected : List ScriptPublicKey},
    (applyAll c A hash txs : Action S ε _) s = (.ok affected, s') →
    (∀ tx ∈ txs, 20 ≤ tx.recipient.length) ∧
      affected = txs.flatMap fun tx => [senderOf c tx, recipientOf tx] := by
  induction txs with
  | nil =>
    intro s s' affected h
    cases h
    exact ⟨forall_mem_nil _, rfl⟩
  | cons tx txs ih =>
    intro s s' affected h
    obtain ⟨_, s₁, _, h⟩ := bind_eq_ok.mp h
    obtain ⟨r, s₂, hl, h⟩ := bind_eq_ok.mp h
    obtain ⟨rest, s₃, ha, h⟩ := bind_eq_ok.mp h
    cases h
    obtain ⟨hlen, rfl⟩ := hash20ToP2pkhSpk_eq_ok (congrArg Prod.fst hl)
    obtain ⟨hlens, rfl⟩ := ih ha
    exact ⟨forall_mem_cons.mpr ⟨hlen, hlens⟩, rfl⟩

theorem pruneFlashesForAccounts_sim (daaScore : UInt64) {spks : List ScriptPublicKey}
    (hk : ∀ spk ∈ spks, spk ∈ K) : Rel R (pruneFlashesForAccounts A daaScore spks : Action S ε Unit)
      (pruneFlashesForAccounts B daaScore spks) := by
  induction spks with
  | nil => exact rel_pure _
  | cons spk spks ih =>
    obtain ⟨h1, h2⟩ := forall_mem_cons.mp hk
    refine rel_bind (getAccount_sim H h1) fun st => ?_
    dsimp only
    split
    · exact ih h2
    · exact rel_bind (setBatch_sim H h1 _) fun _ => ih h2

end Sim

/-! ## 3. On a ledger -/

section OnLedger

variable {ε : Type} {c : Crypto} {L : Ledger} {daaScore : UInt64}

/-- A transaction that passes on its own, its sender's balance apart. -/
structure Passes (c : Crypto) (L : Ledger) (daaScore : UInt64) (tx : FlashTransaction) : Prop where
  unexpired : daaScore ≤ tx.expiryDaaScore
  fee : flashMinFeeKana ≤ tx.fee
  unrecorded : (L (senderOf c tx)).isFlashReplay (tx.flashId c) = false
  signed : c.verify tx.pubkey tx.signature (tx.sighash c).bytes = true

instance (c : Crypto) (L : Ledger) (daaScore : UInt64) (tx : FlashTransaction) :
    Decidable (Passes c L daaScore tx) :=
  decidable_of_iff (daaScore ≤ tx.expiryDaaScore ∧ flashMinFeeKana ≤ tx.fee ∧
      (L (senderOf c tx)).isFlashReplay (tx.flashId c) = false ∧
      c.verify tx.pubkey tx.signature (tx.sighash c).bytes = true)
    ⟨fun h => ⟨h.1, h.2.1, h.2.2.1, h.2.2.2⟩, fun h => ⟨h.unexpired, h.fee, h.unrecorded, h.signed⟩⟩

theorem checkedAdd_eq_some {a b : UInt64} (h : a.toNat + b.toNat < 2 ^ 64) :
    ∃ v, checkedAdd a b = some v ∧ v.toNat = a.toNat + b.toNat :=
  ⟨a + b, if_pos h, by rw [UInt64.toNat_add]; exact Nat.mod_eq_of_lt h⟩

variable {txs : List FlashTransaction} (a : ScriptPublicKey)

theorem filterEligible_all (hp : ∀ tx ∈ txs, Passes c L daaScore tx)
    (hids : (txs.map (FlashTransaction.flashId c)).Nodup) :
    ∀ {seen : List Hash}, (∀ tx ∈ txs, tx.flashId c ∉ seen) →
        filterEligible c ledgerStore daaScore seen txs L = (.ok txs, L) := by
  induction txs with
  | nil => exact fun _ => rfl
  | cons tx txs ih =>
    intro seen hseen
    obtain ⟨h1, h2⟩ := forall_mem_cons.mp hp
    obtain ⟨k1, k2⟩ := forall_mem_cons.mp hseen
    obtain ⟨hnew, hids⟩ := nodup_cons.mp hids
    have hrest : filterEligible c ledgerStore daaScore (tx.flashId c :: seen) txs L =
        (.ok txs, L) := by
      refine ih h2 hids fun tx' htx' hm => ?_
      rcases mem_cons.mp hm with he | hm
      · exact hnew (he ▸ mem_map_of_mem htx')
      · exact k2 tx' htx' hm
    unfold filterEligible
    rw [if_neg k1, if_neg (UInt64.not_lt.mpr h1.unexpired)]
    rw [pubkeyToP2pkhSpk_eq, ledgerStore_get_then, bind_ok hrest, h1.unrecorded]
    rfl

theorem debits_flashChanges (tx : FlashTransaction) : debits (flashChanges c a tx) =
      if senderOf c tx = a then tx.amount.toNat + tx.fee.toNat else 0 := by
  unfold flashChanges
  split <;> split <;> rfl

/-- What is entered for a sender. -/
def entered (t : Table ScriptPublicKey UInt64) (a : ScriptPublicKey) : Nat :=
  ((t.lookup a).getD 0).toNat

variable {tx : FlashTransaction} {L' : Ledger}

theorem toNat_of_checkedAdd {a b v : UInt64} (h : checkedAdd a b = some v) :
    v.toNat = a.toNat + b.toNat := by
  unfold checkedAdd at h
  split at h
  · cases h
    exact Nat.mod_eq_of_lt ‹_›
  · cases h

theorem entered_of_addDebit {t t' : Table ScriptPublicKey UInt64}
    (h : addDebit c t tx = .ok t') (a : ScriptPublicKey) :
    entered t' a = entered t a + debits (flashChanges c a tx) := by
  unfold addDebit at h
  dsimp only at h
  split at h
  · rename_i total htotal
    cases h
    obtain ⟨v, hv, hw⟩ := bind_eq_some_iff.mp htotal
    have hvn := toNat_of_checkedAdd hv
    have hwn := toNat_of_checkedAdd hw
    rw [pubkeyToP2pkhSpk_eq] at hvn ⊢
    rw [debits_flashChanges, entered, entered]
    by_cases ha : a = senderOf c tx
    · subst ha
      rw [lookup_insert, if_pos rfl, getD_some, hwn, hvn]
      omega
    · rw [lookup_insert_ne ha, if_neg (Ne.symm ha)]
      rfl
  · cases h

theorem entered_of_addDebits :
    ∀ {t t' : Table ScriptPublicKey UInt64}, txs.foldlM (addDebit c) t = .ok t' →
      ∀ a, entered t' a = entered t a + debits (txs.flatMap (flashChanges c a)) := by
  induction txs with
  | nil =>
    intro t t' h a
    cases h
    rfl
  | cons tx txs ih =>
    intro t t' h a
    obtain ⟨t₁, h1, h2⟩ := Run.bind_eq_ok.mp h
    rw [ih h2 a, entered_of_addDebit h1 a, flatMap_cons, debits_append]
    omega

theorem addDebit_ok {t : Table ScriptPublicKey UInt64}
    (h : entered t (senderOf c tx) + (tx.amount.toNat + tx.fee.toNat) < 2 ^ 64) :
    ∃ t', addDebit c t tx = .ok t' := by
  unfold entered at h
  obtain ⟨v, hv, hvn⟩ :=
    checkedAdd_eq_some (a := (t.lookup (senderOf c tx)).getD 0) (b := tx.amount) (by omega)
  obtain ⟨w, hw, _⟩ := checkedAdd_eq_some (a := v) (b := tx.fee) (by omega)
  refine ⟨t.insert (senderOf c tx) w, ?_⟩
  unfold addDebit
  dsimp only
  rw [pubkeyToP2pkhSpk_eq, hv, bind_some, hw]

theorem addDebits_ok : ∀ {t : Table ScriptPublicKey UInt64},
    (∀ a, entered t a + debits (txs.flatMap (flashChanges c a)) < 2 ^ 64) →
      ∃ t', txs.foldlM (addDebit c) t = .ok t' := by
  induction txs with
  | nil => exact fun {t} _ => ⟨t, rfl⟩
  | cons tx txs ih =>
    intro t h
    simp only [flatMap_cons, debits_append] at h ⊢
    have hfit : entered t (senderOf c tx) + (tx.amount.toNat + tx.fee.toNat) < 2 ^ 64 := by
      have := h (senderOf c tx)
      rw [debits_flashChanges, if_pos rfl] at this
      omega
    obtain ⟨t₁, h1⟩ := addDebit_ok hfit
    obtain ⟨t₂, h2⟩ := ih fun a => by
      have := h a
      rw [entered_of_addDebit h1]
      omega
    exact ⟨t₂, Run.bind_eq_ok.mpr ⟨t₁, h1, h2⟩⟩

theorem checkDebits_eq_ok {debits : Rewards} : checkDebits ledgerStore debits L = (.ok (), L') ↔
      L = L' ∧ ∀ e ∈ debits, e.2.toNat ≤ L.bal e.1 := by
  induction debits with
  | nil => exact ⟨fun h => ⟨congrArg Prod.snd h, forall_mem_nil _⟩, fun h => congrArg _ h.1⟩
  | cons e es ih =>
    unfold checkDebits
    rw [ledgerStore_get_then, forall_mem_cons]
    split
    · rename_i hlt
      refine iff_of_false (fun h => ?_) fun h =>
        absurd (UInt64.lt_iff_toNat_lt.mp hlt) (not_lt.mpr h.2.1)
      cases h
    · rename_i hle
      rw [ih, and_iff_right (UInt64.le_iff_toNat_le.mp (UInt64.not_lt.mp hle))]

theorem validateFlashTransaction_ok (hp : Passes c L daaScore tx)
    (hpay : tx.amount.toNat + tx.fee.toNat ≤ L.bal (senderOf c tx)) :
    validateFlashTransaction c ledgerStore tx daaScore L = (.ok (), L) := by
  have hlt := (L (senderOf c tx)).balance.toNat_lt
  obtain ⟨v, hv, hvn⟩ := checkedAdd_eq_some (a := tx.amount) (b := tx.fee) (by
    unfold bal at hpay
    omega)
  unfold validateFlashTransaction
  rw [if_neg (UInt64.not_lt.mpr hp.unexpired),
    if_neg (UInt64.not_lt.mpr hp.fee), pubkeyToP2pkhSpk_eq, ledgerStore_get_then,
    if_neg (by rw [hp.unrecorded]; exact Bool.false_ne_true), if_neg (not_not.mpr hp.signed), hv]
  dsimp only
  rw [if_neg (UInt64.not_lt.mpr (UInt64.le_iff_toNat_le.mpr (hvn ▸ hpay)))]
  rfl

theorem validateEach_all (hp : ∀ tx ∈ txs, Passes c L daaScore tx)
    (hpay : ∀ tx ∈ txs, tx.amount.toNat + tx.fee.toNat ≤ L.bal (senderOf c tx)) :
    validateEach c ledgerStore daaScore txs L = (.ok (), L) := by
  induction txs with
  | nil => rfl
  | cons tx txs ih =>
    obtain ⟨h1, h2⟩ := forall_mem_cons.mp hp
    obtain ⟨k1, k2⟩ := forall_mem_cons.mp hpay
    unfold validateEach
    rw [bind_ok (validateFlashTransaction_ok h1 k1)]
    exact ih h2 k2

theorem le_debits_of_mem (h : tx ∈ txs) :
    tx.amount.toNat + tx.fee.toNat ≤ debits (txs.flatMap (flashChanges c (senderOf c tx))) := by
  obtain ⟨pre, post, rfl⟩ := append_of_mem h
  rw [flatMap_append, flatMap_cons, debits_append, debits_append, debits_flashChanges, if_pos rfl]
  omega

/-- **A batch that passes with nothing dropped**: distinct ids, each transaction passes, and every
    sender can pay for all of its own. -/
theorem validateFlashBatch_all (ord : DebitOrder) (hp : ∀ tx ∈ txs, Passes c L daaScore tx)
    (hids : (txs.map (FlashTransaction.flashId c)).Nodup)
    (hpay : ∀ a, debits (txs.flatMap (flashChanges c a)) ≤ L.bal a) :
    validateFlashBatch c ledgerStore ord txs daaScore L = (.ok txs, L) := by
  unfold validateFlashBatch
  split
  · rename_i hempty
    rw [isEmpty_iff.mp hempty]
    rfl
  rename_i hne
  have hfit : ∀ a, entered ∅ a + debits (txs.flatMap (flashChanges c a)) < 2 ^ 64 := fun a => by
    have hb := (L a).balance.toNat_lt
    have ha := hpay a
    unfold bal at ha
    rw [show entered ∅ a = 0 from rfl]
    omega
  obtain ⟨t, ht⟩ := addDebits_ok hfit
  have hlift : (lift fun _ => txs.foldlM (addDebit c) ∅ :
      Action Ledger TxRuleError (Table ScriptPublicKey UInt64)) L = (.ok t, L) := Prod.ext ht rfl
  have hcheck : checkDebits ledgerStore (ord.order t.pairs) L = (.ok (), L) := by
    refine checkDebits_eq_ok.mpr ⟨rfl, fun e he => ?_⟩
    have hl := Table.mem_pairs.mp ((ord.perm _).mem_iff.mp he)
    have hs' := entered_of_addDebits ht e.1
    rw [entered, hl, getD_some, show entered ∅ e.1 = 0 from rfl, zero_add] at hs'
    rw [hs']
    exact hpay e.1
  have heach := validateEach_all hp fun tx htx => (le_debits_of_mem htx).trans (hpay _)
  rw [bind_ok (filterEligible_all hp hids fun _ _ => not_mem_nil), if_neg hne,
    bind_ok hlift, bind_ok hcheck, bind_ok heach]
  rfl

variable {hash : Hash}

/-- The ledger after a transaction: it is recorded for its sender, who pays, and the recipient is
    paid. -/
def liveFlash (c : Crypto) (hash : Hash) (L : Ledger) (tx : FlashTransaction) : Ledger :=
  reward (update L (senderOf c tx) (recordFlash { L (senderOf c tx) with
      balance := satSub (L (senderOf c tx)).balance (satAdd tx.amount tx.fee) }
    (tx.flashId c) tx.expiryDaaScore hash)) (recipientOf tx, tx.amount)

/-- **One transaction** moves the balances as the state transition of a block does. -/
theorem bal_liveFlash :
    (liveFlash c hash L tx).bal a = settle maxBalance (L.bal a) (flashChanges c a tx) := by
  refine L.bal_transfer_settle c tx ?_ a
  rfl

theorem bal_foldl_liveFlash : ∀ {L : Ledger}, bal (txs.foldl (liveFlash c hash) L) a =
    settle maxBalance (L.bal a) (txs.flatMap (flashChanges c a)) := by
  induction txs with
  | nil => exact rfl
  | cons tx txs ih =>
    intro L
    rw [foldl_cons, ih, bal_liveFlash, flatMap_cons, settle_append]

/-- The transactions are recorded for their senders, and for nobody else. -/
theorem recentFlashes_foldl_liveFlash : ∀ {L : Ledger},
    (txs.foldl (liveFlash c hash) L a).recentFlashes = (L a).recentFlashes ++
      (txs.filter (senderOf c · = a)).map fun tx => ⟨tx.flashId c, tx.expiryDaaScore, hash⟩ := by
  induction txs with
  | nil => exact fun {L} => (append_nil _).symm
  | cons tx txs ih =>
    intro L
    rw [foldl_cons, ih, liveFlash, recentFlashes_reward]
    by_cases ha : senderOf c tx = a
    · subst ha
      rw [update_self, recordFlash, filter_cons_of_pos (by simp), append_assoc]
      rfl
    · rw [update_of_ne (Ne.symm ha), filter_cons_of_neg (by simpa using ha)]

/-- **Applying a batch**, with recipients of 20 bytes or more. -/
theorem ledgerStore_applyAll (hash : Hash) (hlen : ∀ tx ∈ txs, 20 ≤ tx.recipient.length) :
    ∀ L : Ledger, (applyAll c ledgerStore hash txs : Action Ledger ε (List ScriptPublicKey)) L =
      (.ok (txs.flatMap fun tx => [senderOf c tx, recipientOf tx]),
        txs.foldl (liveFlash c hash) L) := by
  induction txs with
  | nil => exact fun L => rfl
  | cons tx txs ih =>
    intro L
    obtain ⟨h1, h2⟩ := forall_mem_cons.mp hlen
    have hstep : (applyFlashTx c ledgerStore tx hash : Action Ledger ε Unit) L =
        (.ok (), liveFlash c hash L tx) := by
      unfold applyFlashTx
      rw [hash20ToP2pkhSpk_of_le h1]
      rfl
    unfold applyAll
    rw [bind_ok hstep, hash20ToP2pkhSpk_of_le h1, lift_ok_then, bind_ok (ih h2 _)]
    rfl

theorem foldl_of_applyAll {affected : List ScriptPublicKey}
    (h : (applyAll c ledgerStore hash txs : Action Ledger ε _) L = (.ok affected, L')) :
    L' = txs.foldl (liveFlash c hash) L :=
  congrArg Prod.snd (h.symm.trans (ledgerStore_applyAll hash (affected_of_applyAll h).1 L))

theorem ledgerStore_prune (daaScore : UInt64) (spks : List ScriptPublicKey) :
    ∀ L : Ledger, ∃ L' : Ledger,
      (pruneFlashesForAccounts ledgerStore daaScore spks : Action Ledger ε Unit) L = (.ok (), L') ∧
        ∀ a, L'.bal a = L.bal a := by
  induction spks with
  | nil => exact fun L => ⟨L, rfl, fun _ => rfl⟩
  | cons spk spks ih =>
    intro L
    unfold pruneFlashesForAccounts
    rw [ledgerStore_get_then]
    split
    · exact ih L
    · obtain ⟨L', h1, h2⟩ := ih (update L spk ((L spk).pruneRecentFlashes daaScore))
      refine ⟨L', h1, fun a => (h2 a).trans ?_⟩
      by_cases ha : a = spk
      · subst ha
        rw [bal, update_self, balance_prune]
      · rw [bal, update_of_ne ha]

end OnLedger

end Sahyadri.Live
