import Sahyadri.Live.Flash
import Sahyadri.Pipeline.Verify

/-!
# `commit_virtual_state` on added blocks: what it does to the live accounts

For every added block the state is computed and stored once more, the coinbase is credited, legacy
transactions with a valid signature and enough balance are applied, and the flash transactions go
through `validate_flash_batch` with the DAA score of the virtual block.

* `commitAdded`, `commitVirtualState`: the code, for paths without removed blocks.
-/

namespace Sahyadri.Live

open Lib Smt Core Tx Account Did List Action FlashTransaction
open Pipeline

/-! ## 1. The code -/

/-- `VirtualStateProcessor` with the switch of its flash hook. -/
structure LiveProcessor extends VirtualProcessor where
  enableFlashTx : Bool

/-- The fields of the new virtual state that the function uses. The addresses of the diff are given
    by their scripts. -/
structure VirtualState where
  daaScore : UInt64
  accountDiff : List (ScriptPublicKey × Int64)

/-- The treasury's script, decoded into a buffer of `PUBKEY_SIZE` bytes. -/
def treasuryScript (hex : String) : Option ScriptPublicKey :=
  (hexDecodeInto pubkeySize (strBytes hex)).map fun bytes => ⟨0, bytes⟩

/-- The checks of a legacy transaction that look at no account, and its sender if they pass. -/
def checkLegacy (c : Crypto) (tx : Transaction) : Option ScriptPublicKey :=
  if hasFlashPrefix tx then none
  else if (tx.payload.length > 4 && hasDidPrefix tx) && tx.payload.length ≥ 20 then none
  else if tx.payload.length < pubkeySize + 8 + sigSize then none
  else
    let sigStart := tx.payload.length - sigSize
    let nonceStart := sigStart - 8
    let senderPubkey := tx.payload.take nonceStart
    let sigBytes := tx.payload.drop sigStart
    let sighash := tx.computeAccountTxSighash c (tx.payload.take sigStart)
    if c.verify senderPubkey sigBytes sighash.bytes then some (pubkeyToP2pkhSpk c senderPubkey)
    else none

section Code

variable {S ε : Type} (p : LiveProcessor) (A : AccountStore S)

/-- The coinbase: the miner's share, and the treasury's share also when it is zero. -/
def creditCoinbase (tx : Transaction) : Action S ε Unit :=
  match p.coinbaseManager.deserializeCoinbasePayload tx.payload with
  | .error _ => pure ()
  | .ok coinbaseData =>
    let totalReward := coinbaseData.subsidy
    if totalReward > 0 then do
      let devFee := if p.treasuryHex.isEmpty then 0 else totalReward / 20
      let minerReward := totalReward - devFee
      A.updateBalanceBatch coinbaseData.minerData.scriptPublicKey minerReward.toInt64
      match treasuryScript p.treasuryHex with
      | some treasurySpk => A.updateBalanceBatch treasurySpk devFee.toInt64
      | none => pure ()
    else pure ()

def creditOutputs : List TransactionOutput → Action S ε Unit
  | [] => pure ()
  | out :: rest => do
    A.updateBalanceBatch out.scriptPublicKey out.value.toInt64
    creditOutputs rest

/-- A legacy transaction. The sum of its outputs wraps around. -/
def applyLegacy (tx : Transaction) : Action S ε Unit :=
  match checkLegacy p.crypto tx with
  | none => pure ()
  | some senderSpk => do
    let totalSpent := tx.outputs.foldl (fun sum out => sum + out.value) 0 + tx.gas
    let balance ← A.getBalance senderSpk
    if balance < totalSpent then pure ()
    else do
      A.updateBalanceBatch senderSpk (-totalSpent.toInt64)
      creditOutputs A tx.outputs

def applyLegacies : List Transaction → Action S ε Unit
  | [] => pure ()
  | tx :: rest => do
    applyLegacy p A tx
    applyLegacies rest

/-- The flash hook; a batch that is refused is dropped. -/
def flashHook (ord : DebitOrder) (currentDaa : UInt64) (hash : Hash)
    (txs : List Transaction) : Action S ε Unit :=
  let flashTxs := txs.filterMap fromTransaction
  if p.enableFlashTx ∧ ¬ flashTxs.isEmpty then do
    match ← (validateFlashBatch p.crypto A ord flashTxs currentDaa).attempt with
    | .error _ => pure ()
    | .ok validFlashTxs => do
      let affectedSpks ← applyAll p.crypto A hash validFlashTxs
      pruneFlashesForAccounts A currentDaa affectedSpks
  else pure ()

def commitLive (ord : DebitOrder) (currentDaa : UInt64) (hash : Hash) :
    List Transaction → Action S ε Unit
  | [] => flashHook p A ord currentDaa hash []
  | coinbase :: rest => do
    creditCoinbase p A coinbase
    applyLegacies p A rest
    flashHook p A ord currentDaa hash (coinbase :: rest)

/-- The account diff of the virtual state. -/
def applyDiff : List (ScriptPublicKey × Int64) → Action S ε Unit
  | [] => pure ()
  | (spk, change) :: rest => do
    A.updateBalanceBatch spk change
    applyDiff rest

end Code

/-- What a node has on disk. -/
structure NodeState where
  stores : Stores
  live : DbAccounts

/-- An added block: its header, its context, and the iteration order of its senders' debits. -/
structure AddedBlock where
  header : Pipeline.Header
  ctx : VerifyContext
  debitOrder : DebitOrder

section Commit

variable {ε : Type} (p : LiveProcessor)

def commitStores (b : AddedBlock) (txs : List Transaction) (st : Stores) : Run ε Stores :=
  let parentRoot := match b.ctx.parentHeader with
    | some header => p.parentAccountRoot b.ctx.selectedParent header
    | none => .empty
  match p.computeBlockState st b.ctx.orders parentRoot txs b.header.daaScore with
  | .ok x => .ok (st.persist p.crypto x)
  | .error (.err _) => .ok st
  | .error .panic => .panicked

/-- One added block of `commit_virtual_state`. -/
def commitAdded (v : VirtualState) (b : AddedBlock) : Action NodeState ε Unit := fun n =>
  match b.ctx.transactions with
  | none => (.ok (), n)
  | some txs =>
    match (commitStores p b txs n.stores : Run ε Stores) with
    | .error e => (.error e, n)
    | .ok stores =>
      let (result, live) :=
        commitLive p dbAccountStore b.debitOrder v.daaScore b.header.hash txs n.live
      (result, ⟨stores, live⟩)

def commitAll (v : VirtualState) : List AddedBlock → Action NodeState ε Unit
  | [] => pure ()
  | b :: rest => do
    commitAdded p v b
    commitAll v rest

/-- `commit_virtual_state` without removed blocks: the diff, the added blocks, and the write of the
    batch. -/
def commitVirtualState (v : VirtualState) (added : List AddedBlock) : Action NodeState ε Unit := do
  fun n => ((applyDiff dbAccountStore v.accountDiff n.live).1,
    { n with live := (applyDiff dbAccountStore v.accountDiff n.live : Run ε Unit × _).2 })
  commitAll p v added
  fun n => (.ok (), { n with live := n.live.flush })

end Commit

/-! ## 2. Stores that answer alike -/

/-- The scripts that an added block can touch in the live accounts. -/
structure Within (p : LiveProcessor) (K : Finset ScriptPublicKey) (txs : List Transaction) :
    Prop where
  miner : ∀ coinbase ∈ txs.head?, ∀ data,
    p.coinbaseManager.deserializeCoinbasePayload coinbase.payload = .ok data → data.subsidy > 0 →
      data.minerData.scriptPublicKey ∈ K
  treasury : ∀ spk, treasuryScript p.treasuryHex = some spk → spk ∈ K
  legacy : ∀ tx ∈ txs.drop 1, checkLegacy p.crypto tx = none
  senders : ∀ tx ∈ txs.filterMap fromTransaction, senderOf p.crypto tx ∈ K
  recipients : ∀ tx ∈ txs.filterMap fromTransaction, recipientOf tx ∈ K

section Sim

variable {S T ε : Type} {p : LiveProcessor} {A : AccountStore S} {B : AccountStore T}
  {K : Finset ScriptPublicKey} {R : S → T → Prop} (H : AccountStoreSim A B K R)

include H

theorem creditCoinbase_sim {tx : Transaction}
    (hminer : ∀ data, p.coinbaseManager.deserializeCoinbasePayload tx.payload = .ok data →
      data.subsidy > 0 → data.minerData.scriptPublicKey ∈ K)
    (htreasury : ∀ spk, treasuryScript p.treasuryHex = some spk → spk ∈ K) :
    Rel R (creditCoinbase p A tx : Action S ε Unit) (creditCoinbase p B tx) := by
  unfold creditCoinbase
  cases hd : p.coinbaseManager.deserializeCoinbasePayload tx.payload with
  | error e => exact rel_pure _
  | ok data =>
    dsimp only
    split
    · rename_i hpos
      refine rel_bind (updateBalanceBatch_sim H (hminer data hd hpos) _) fun _ => ?_
      cases ht : treasuryScript p.treasuryHex with
      | some spk => exact updateBalanceBatch_sim H (htreasury spk ht) _
      | none => exact rel_pure _
    · exact rel_pure _

variable {txs : List Transaction}

omit H in
/-- Legacy transactions that fail a check that looks at no account do nothing. -/
theorem applyLegacies_skipped (h : ∀ tx ∈ txs, checkLegacy p.crypto tx = none) :
    (applyLegacies p A txs : Action S ε Unit) = pure () := by
  induction txs with
  | nil => rfl
  | cons tx txs ih =>
    obtain ⟨h1, h2⟩ := forall_mem_cons.mp h
    unfold applyLegacies applyLegacy
    rw [h1, ih h2]
    rfl

theorem flashHook_sim (ord : DebitOrder) (daaScore : UInt64) (hash : Hash)
    (hs : ∀ tx ∈ txs.filterMap fromTransaction, senderOf p.crypto tx ∈ K)
    (hr : ∀ tx ∈ txs.filterMap fromTransaction, recipientOf tx ∈ K) :
    Rel R (flashHook p A ord daaScore hash txs : Action S ε Unit)
      (flashHook p B ord daaScore hash txs) := by
  unfold flashHook
  dsimp only
  split
  · refine rel_bind_of_ok (rel_attempt (validateFlashBatch_sim (getAccount_sim H) ord daaScore hs))
      fun {result s s'} hres => ?_
    cases result with
    | error e => exact rel_pure _
    | ok valid =>
      have hsub := (validateFlashBatch_sublist (attempt_eq_ok.mp hres)).subset
      have hs' : ∀ tx ∈ valid, senderOf p.crypto tx ∈ K := fun tx htx => hs tx (hsub htx)
      have hr' : ∀ tx ∈ valid, recipientOf tx ∈ K := fun tx htx => hr tx (hsub htx)
      refine rel_bind_of_ok (applyAll_sim H hash hs' hr') fun {affected _ _} ha => ?_
      obtain ⟨-, rfl⟩ := affected_of_applyAll ha
      refine pruneFlashesForAccounts_sim H daaScore fun spk hm => ?_
      obtain ⟨tx, htx, hm⟩ := mem_flatMap.mp hm
      rcases mem_pair.mp hm with rfl | rfl
      · exact hs' tx htx
      · exact hr' tx htx
  · exact rel_pure _

/-- **An added block does alike on stores that answer alike.** -/
theorem commitLive_sim (ord : DebitOrder) (daaScore : UInt64) (hash : Hash)
    (hw : Within p K txs) : Rel R (commitLive p A ord daaScore hash txs : Action S ε Unit)
      (commitLive p B ord daaScore hash txs) := by
  cases txs with
  | nil => exact flashHook_sim H ord daaScore hash hw.senders hw.recipients
  | cons coinbase rest =>
    have hleg : ∀ tx ∈ rest, checkLegacy p.crypto tx = none := hw.legacy
    unfold commitLive
    dsimp only
    rw [applyLegacies_skipped hleg, applyLegacies_skipped hleg]
    refine rel_bind (creditCoinbase_sim H (hw.miner coinbase rfl) hw.treasury) fun _ => ?_
    refine rel_bind (rel_pure _) fun _ => ?_
    exact flashHook_sim H ord daaScore hash hw.senders hw.recipients

end Sim

/-! ## 3. On a ledger -/

section OnLedger

variable {ε : Type} {p : LiveProcessor}

/-- The two decodings of the treasury's key agree. -/
theorem treasuryScript_eq (hex : String) : treasuryScript hex = treasurySpkFromHex hex := by
  unfold treasuryScript treasurySpkFromHex
  split
  · rename_i he
    rw [String.isEmpty_iff.mp he]
    rfl
  · rfl

theorem reward_zero (L : Ledger) (spk : ScriptPublicKey) : L.reward (spk, 0) = L := by
  refine Function.update_eq_self_iff.mpr ?_
  have hb := (L spk).balance.toNat_lt
  have hsame : satAdd (L spk).balance 0 = (L spk).balance := by
    apply UInt64.toNat_inj.mp
    rw [toNat_satAdd, UInt64.toNat_zero]
    omega
  rw [credit, hsame]

variable {n devFee daaScore : UInt64}

theorem ledgerStore_credit (L : Ledger) (spk : ScriptPublicKey) (h : n.toNat < 2 ^ 63) :
    (ledgerStore.updateBalanceBatch spk n.toInt64 : Action Ledger ε Unit) L =
      (.ok (), L.reward (spk, n)) := by
  rw [ledgerStore_updateBalanceBatch, applyChange_credit h]
  rfl

/-- The treasury's share: a reward if there is a treasury, and nothing that is seen if it is
    zero. -/
theorem ledgerStore_creditTreasury
    (hsmall : devFee.toNat < 2 ^ 63) (hnone : p.treasuryHex.isEmpty → devFee = 0) (L : Ledger) :
    (match treasuryScript p.treasuryHex with
      | some spk => ledgerStore.updateBalanceBatch spk devFee.toInt64
      | none => pure () : Action Ledger ε Unit) L =
    (.ok (), (if devFee > 0 then
      match treasurySpkFromHex p.treasuryHex with
      | some spk => [(spk, devFee)]
      | none => []
      else []).foldl Ledger.reward L) := by
  by_cases hzero : devFee = 0
  · subst hzero
    cases treasuryScript p.treasuryHex with
    | none => rfl
    | some spk =>
      dsimp only
      rw [ledgerStore_credit L spk hsmall, reward_zero]
      rfl
  · have hne : p.treasuryHex.isEmpty = false := Bool.eq_false_iff.mpr fun h => hzero (hnone h)
    have hpos : devFee > 0 :=
      UInt64.lt_iff_toNat_lt.mpr (Nat.pos_of_ne_zero fun h => hzero (UInt64.toNat_inj.mp h))
    rw [if_pos hpos, treasuryScript_eq]
    cases treasurySpkFromHex p.treasuryHex with
    | none => rfl
    | some spk => exact ledgerStore_credit L spk hsmall

/-- **The coinbase is credited as the rewards of the state transition are.** -/
theorem ledgerStore_creditCoinbase {tx : Transaction}
    (hsmall : ∀ data, p.coinbaseManager.deserializeCoinbasePayload tx.payload =
      .ok data → data.subsidy.toNat < 2 ^ 63) (L : Ledger) :
    (creditCoinbase p ledgerStore tx : Action Ledger ε Unit) L = (.ok (),
      (coinbaseRewards p.coinbaseManager p.treasuryHex tx.payload).foldl Ledger.reward L) := by
  unfold creditCoinbase coinbaseRewards
  cases hd : p.coinbaseManager.deserializeCoinbasePayload tx.payload with
  | error e => rfl
  | ok data =>
    have hlt := hsmall data hd
    dsimp only
    split
    · have hfee := treasuryShare_le p.treasuryHex data.subsidy
      have hnone : p.treasuryHex.isEmpty →
          (if p.treasuryHex.isEmpty then (0 : UInt64) else data.subsidy / 20) = 0 :=
        fun h => if_pos h
      generalize (if p.treasuryHex.isEmpty then (0 : UInt64) else data.subsidy / 20) =
        fee at hfee hnone ⊢
      have hshares := toNat_minerShare hfee
      have hminer : (data.subsidy - fee).toNat < 2 ^ 63 := by omega
      rw [bind_ok (ledgerStore_credit L _ hminer)]
      exact ledgerStore_creditTreasury (by omega) hnone _
    · rfl

/-- **A batch that passes**: the hook moves the balances as the state transition does. -/
theorem ledgerStore_flashHook (ord : DebitOrder) (hash : Hash) {txs : List Transaction}
    {flashTxs : List FlashTransaction}
    {L : Ledger} (hdecode : txs.filterMap fromTransaction = flashTxs)
    (hon : p.enableFlashTx = true ∨ flashTxs = [])
    (hp : ∀ tx ∈ flashTxs, Passes p.crypto L daaScore tx)
    (hids : (flashTxs.map (flashId p.crypto)).Nodup)
    (hpay : ∀ a, debits (flashTxs.flatMap (flashChanges p.crypto a)) ≤ L.bal a)
    (hlen : ∀ tx ∈ flashTxs, 20 ≤ tx.recipient.length) : ∃ L' : Ledger,
      (flashHook p ledgerStore ord daaScore hash txs : Action Ledger ε Unit) L = (.ok (), L') ∧
      ∀ a, L'.bal a = settle maxBalance (L.bal a) (flashTxs.flatMap (flashChanges p.crypto a)) := by
  unfold flashHook
  rw [hdecode]
  split
  · have h1 := ledgerStore_applyAll (ε := ε) (c := p.crypto) hash hlen L
    obtain ⟨L₂, h2, hb₂⟩ := ledgerStore_prune daaScore
      (flashTxs.flatMap fun tx => [senderOf p.crypto tx, recipientOf tx])
      (flashTxs.foldl (liveFlash p.crypto hash) L)
    have hbatch : (validateFlashBatch p.crypto ledgerStore ord flashTxs daaScore).attempt L =
        ((.ok (.ok flashTxs), L) : Run ε _ × Ledger) :=
      attempt_eq_ok.mpr (validateFlashBatch_all ord hp hids hpay)
    refine ⟨L₂, ?_, fun a => (hb₂ a).trans (bal_foldl_liveFlash a)⟩
    exact (bind_ok hbatch _).trans ((bind_ok h1 _).trans h2)
  · rename_i hoff
    have hempty : flashTxs = [] := by
      rcases hon with hon | hon
      · by_contra hne
        exact hoff ⟨hon, by rwa [List.isEmpty_iff]⟩
      · exact hon
    subst hempty
    exact ⟨L, rfl, fun _ => rfl⟩

end OnLedger

end Sahyadri.Live
