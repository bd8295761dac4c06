import Sahyadri.Live.Commit
import Sahyadri.Pipeline.Chain

/-!
# `commit_virtual_state` on removed blocks, and whether it undoes what adding them did

A removed block has the outputs of all its transactions deducted, those of the coinbase and of
skipped transactions included. A sender is refunded if the last transaction applied to the account
is this one; the store keeps no such id and always answers with zeros.

* `restores_iff`: a block of valid transactions is undone exactly if every account is given by the
  coinbase's payload what the coinbase lists for it and what it spends itself. `reward_not_undone`:
  a reward is not.
-/

namespace Sahyadri.Live

open Lib Smt Core Tx Account Pipeline List Action CachedDb FlashTransaction Option Ledger Function

/-! ## 1. The code -/

/-- `get_last_tx_id`: no id is kept. -/
def getLastTxId (_scriptPublicKey : ScriptPublicKey) : Hash := Hash.default

section Code

variable {S ε : Type} (p : LiveProcessor) (A : AccountStore S)

/-- The outputs of a removed transaction are deducted. -/
def reverseOutputs : List TransactionOutput → Action S ε Unit
  | [] => pure ()
  | out :: rest => do
    A.updateBalanceBatch out.scriptPublicKey (-out.value.toInt64)
    reverseOutputs rest

/-- The sender is refunded if this transaction is the last one applied to the account. -/
def refundSender (tx : Transaction) : Action S ε Unit :=
  if tx.payload.length ≥ pubkeySize + 8 + sigSize then
    let sigStart := tx.payload.length - sigSize
    let senderPubkey := tx.payload.take (sigStart - 8)
    let senderSpk := pubkeyToP2pkhSpk p.crypto senderPubkey
    if getLastTxId senderSpk ≠ tx.id then pure ()
    else
      let totalSpent := tx.outputs.foldl (fun sum out => sum + out.value) tx.gas
      A.updateBalanceBatch senderSpk totalSpent.toInt64
  else pure ()

def reverseCoinbase (tx : Transaction) : Action S ε Unit :=
  if hasFlashPrefix tx then pure () else reverseOutputs A tx.outputs

def reverseAll : List Transaction → Action S ε Unit
  | [] => pure ()
  | tx :: rest => do
    if hasFlashPrefix tx then pure ()
    else do
      reverseOutputs A tx.outputs
      refundSender p A tx
    reverseAll rest

/-- `reorg_flash_block`: a sender with entries of the block is refunded and the recipient
    debited. -/
def reorgFlashBlock (blockHash : Hash) : List FlashTransaction → Action S ε Unit
  | [] => pure ()
  | tx :: rest => do
    let senderSpk := flashPubkeyToSpk p.crypto tx.pubkey
    let recipientSpk ← lift fun _ => hash20ToP2pkhSpk tx.recipient
    let sender ← A.getAccount senderSpk
    let (sender, found) := sender.reorgBlockFlashes blockHash
    if ¬ found then reorgFlashBlock blockHash rest
    else do
      let totalCredit := satAdd tx.amount tx.fee
      A.setBatch senderSpk { sender with balance := satAdd sender.balance totalCredit }
      let recipient ← A.getAccount recipientSpk
      A.setBatch recipientSpk { recipient with balance := satSub recipient.balance tx.amount }
      reorgFlashBlock blockHash rest

/-- The flash hook of a removed block. -/
def reorgHook (hash : Hash) (txs : List Transaction) : Action S ε Unit :=
  let flashTxs := txs.filterMap fromTransaction
  if p.enableFlashTx ∧ ¬ flashTxs.isEmpty then reorgFlashBlock p A hash flashTxs else pure ()

def removeLive (hash : Hash) : List Transaction → Action S ε Unit
  | [] => reorgHook p A hash []
  | coinbase :: rest => do
    reverseCoinbase A coinbase
    reverseAll p A rest
    reorgHook p A hash (coinbase :: rest)

end Code

section Calls

variable {ε : Type} (p : LiveProcessor)

/-- A block is added, and the batch is written. -/
def connect (ord : DebitOrder) (currentDaa : UInt64) (hash : Hash)
    (txs : List Transaction) : Action DbAccounts ε Unit := do
  commitLive p dbAccountStore ord currentDaa hash txs
  fun s => (.ok (), s.flush)

/-- A block is removed, and the batch is written. -/
def disconnect (hash : Hash) (txs : List Transaction) : Action DbAccounts ε Unit := do
  removeLive p dbAccountStore hash txs
  fun s => (.ok (), s.flush)

end Calls

/-- The calls succeed and leave every balance as it was. -/
def Restores (x : Action DbAccounts Empty Unit) (s : DbAccounts) : Prop :=
  ∃ s', x s = (.ok (), s') ∧
    ∀ a, (dbAccountStore.get s' a).1.balance = (dbAccountStore.get s a).1.balance

/-! ## 2. The balance changes as lists -/

/-- An account and the signed change of its balance. -/
abbrev Move := ScriptPublicKey × Int64

/-- A signed change as a debit or a credit. -/
def signed (change : Int64) : Change :=
  if change ≥ 0 then .credit change.toUInt64.toNat else .debit (unsignedAbs change).toNat

/-- What a list of moves does to the account `a`. -/
def changesOf (a : ScriptPublicKey) (ms : List Move) : List Change :=
  (ms.filter (·.1 = a)).map (signed ·.2)

def applyMove (L : Ledger) (m : Move) : Ledger :=
  update L m.1 { L m.1 with balance := applyChange m.2 (L m.1).balance }

variable (p : LiveProcessor) (tx : Transaction)

/-- What adding a block credits for its coinbase. -/
def coinbaseMoves : List Move :=
  match p.coinbaseManager.deserializeCoinbasePayload tx.payload with
  | .error _ => []
  | .ok coinbaseData =>
    if coinbaseData.subsidy > 0 then
      let devFee := if p.treasuryHex.isEmpty then 0 else coinbaseData.subsidy / 20
      (coinbaseData.minerData.scriptPublicKey, (coinbaseData.subsidy - devFee).toInt64) ::
        ((treasuryScript p.treasuryHex).map fun spk => (spk, devFee.toInt64)).toList
    else []

/-- What a transaction spends: outputs and gas, modulo `2^64`. -/
def totalSpent : UInt64 := tx.outputs.foldl (fun sum out => sum + out.value) 0 + tx.gas

def outputMoves (outs : List TransactionOutput) : List Move :=
  outs.map fun out => (out.scriptPublicKey, out.value.toInt64)

/-- Who pays for a transaction: the sender, if the checks pass and the balance suffices. -/
def payer (L : Ledger) (tx : Transaction) : Option ScriptPublicKey :=
  (checkLegacy p.crypto tx).filter fun spk => ¬ (L spk).balance < totalSpent tx

/-- What adding a block does for a transaction, given who pays. -/
def legacyMoves : Option ScriptPublicKey → List Move
  | none => []
  | some spk => (spk, -(totalSpent tx).toInt64) :: outputMoves tx.outputs

/-- What adding a block does for its transactions. -/
def legaciesMoves (p : LiveProcessor) : Ledger → List Transaction → List Move
  | _, [] => []
  | L, tx :: rest =>
    let ms := legacyMoves tx (payer p L tx)
    ms ++ legaciesMoves p (ms.foldl applyMove L) rest

/-- The changes of adding a block. -/
def connectMoves (L : Ledger) : List Transaction → List Move
  | [] => []
  | coinbase :: rest =>
    coinbaseMoves p coinbase ++ legaciesMoves p ((coinbaseMoves p coinbase).foldl applyMove L) rest

def reverseMoves (outs : List TransactionOutput) : List Move :=
  outs.map fun out => (out.scriptPublicKey, -out.value.toInt64)

/-- The sender named by the payload of a transaction. -/
def senderScript (c : Crypto) (tx : Transaction) : ScriptPublicKey :=
  pubkeyToP2pkhSpk c (tx.payload.take (tx.payload.length - sigSize - 8))

/-- The refund: only of a transaction whose id is zero. -/
def refundMoves : List Move :=
  if tx.payload.length ≥ pubkeySize + 8 + sigSize ∧ tx.id = Hash.default then
    [(senderScript p.crypto tx, (totalSpent tx).toInt64)]
  else []

/-- The changes of removing a block. -/
def disconnectMoves : List Transaction → List Move
  | [] => []
  | coinbase :: rest =>
    reverseMoves coinbase.outputs ++ rest.flatMap fun tx =>
      reverseMoves tx.outputs ++ refundMoves p tx

/-! ## 3. The code makes these changes -/

section Moves

variable {S ε : Type} {p : LiveProcessor} {A : AccountStore S} (tx : Transaction)

theorem applyDiff_append (ms ns : List Move) :
    (applyDiff A (ms ++ ns) : Action S ε Unit) = applyDiff A ms >>= fun _ => applyDiff A ns := by
  induction ms with
  | nil => rfl
  | cons m ms ih =>
    show (A.updateBalanceBatch m.1 m.2 >>= fun _ => applyDiff A (ms ++ ns)) =
      (A.updateBalanceBatch m.1 m.2 >>= fun _ => applyDiff A ms) >>= fun _ => applyDiff A ns
    rw [ih, bind_then]

theorem creditCoinbase_eq :
    (creditCoinbase p A tx : Action S ε Unit) = applyDiff A (coinbaseMoves p tx) := by
  unfold creditCoinbase coinbaseMoves
  cases p.coinbaseManager.deserializeCoinbasePayload tx.payload with
  | error e => rfl
  | ok data =>
    dsimp only
    split
    · cases treasuryScript p.treasuryHex with
      | none => rfl
      | some spk =>
        rfl
    · rfl

section

variable (outs : List TransactionOutput)

include outs

theorem creditOutputs_eq :
    (creditOutputs A outs : Action S ε Unit) = applyDiff A (outputMoves outs) := by
  induction outs with
  | nil => rfl
  | cons out outs ih =>
    unfold creditOutputs
    rw [ih]
    rfl

theorem reverseOutputs_eq :
    (reverseOutputs A outs : Action S ε Unit) = applyDiff A (reverseMoves outs) := by
  induction outs with
  | nil => rfl
  | cons out outs ih =>
    unfold reverseOutputs
    rw [ih]
    rfl

theorem foldl_add_gas (a gas : UInt64) : outs.foldl (fun sum out => sum + out.value) (a + gas) =
      outs.foldl (fun sum out => sum + out.value) a + gas := by
  induction outs generalizing a with
  | nil => rfl
  | cons out outs ih =>
    rw [foldl_cons, foldl_cons, ← ih, UInt64.add_assoc, UInt64.add_comm gas, ← UInt64.add_assoc]

end

/-- The two passes add up what a transaction spends in different orders. -/
theorem totalSpent_eq :
    tx.outputs.foldl (fun sum out => sum + out.value) tx.gas = totalSpent tx := by
  rw [totalSpent, ← foldl_add_gas, UInt64.zero_add]

theorem refundSender_eq :
    (refundSender p A tx : Action S ε Unit) = applyDiff A (refundMoves p tx) := by
  unfold refundSender refundMoves getLastTxId
  by_cases hlen : tx.payload.length ≥ pubkeySize + 8 + sigSize
  · by_cases hid : tx.id = Hash.default
    · rw [if_pos hlen, if_neg (not_not.mpr hid.symm), if_pos ⟨hlen, hid⟩, totalSpent_eq]
      rfl
    · rw [if_pos hlen, if_pos (Ne.symm hid), if_neg fun h => hid h.2]
      rfl
  · rw [if_neg hlen, if_neg fun h => hlen h.1]
    rfl

variable {txs rest : List Transaction}

theorem reverseAll_eq (hno : ∀ tx ∈ txs, hasFlashPrefix tx = false) :
    (reverseAll p A txs : Action S ε Unit) =
      applyDiff A (txs.flatMap fun tx => reverseMoves tx.outputs ++ refundMoves p tx) := by
  induction txs with
  | nil => rfl
  | cons tx txs ih =>
    obtain ⟨h1, h2⟩ := forall_mem_cons.mp hno
    unfold reverseAll
    rw [h1, if_neg Bool.false_ne_true, ih h2, reverseOutputs_eq, refundSender_eq, flatMap_cons,
      applyDiff_append, applyDiff_append, bind_then]

theorem fromTransaction_eq_none {tx : Transaction} (h : hasFlashPrefix tx = false) :
    fromTransaction tx = none := by
  unfold fromTransaction decode
  cases hr : readN 8 tx.payload with
  | none => rfl
  | some x =>
    obtain ⟨magic', rest⟩ := x
    obtain ⟨heq, hlen⟩ := readN_eq_some hr
    have hne : magic' ≠ magic := by
      rintro rfl
      rw [hasFlashPrefix, heq, take_left' hlen, length_append, hlen] at h
      simp at h
    simp only [bind_eq_bind, bind_some, if_pos hne]

theorem no_flashes (hno : ∀ tx ∈ txs, hasFlashPrefix tx = false) :
    txs.filterMap fromTransaction = [] :=
  filterMap_eq_nil_iff.mpr fun tx htx => fromTransaction_eq_none (hno tx htx)

/-- **Removing a block** without flash transactions: its changes do not depend on the store. -/
theorem removeLive_eq (hash : Hash) (hno : ∀ tx ∈ txs, hasFlashPrefix tx = false) :
    (removeLive p A hash txs : Action S ε Unit) = applyDiff A (disconnectMoves p txs) := by
  have hhook : (reorgHook p A hash txs : Action S ε Unit) = pure () := by
    unfold reorgHook
    rw [no_flashes hno, if_neg fun h => h.2 rfl]
  cases txs with
  | nil => exact hhook
  | cons coinbase rest =>
    obtain ⟨h1, h2⟩ := forall_mem_cons.mp hno
    unfold removeLive reverseCoinbase
    dsimp only
    rw [hhook, h1, if_neg Bool.false_ne_true, bind_pure_unit, reverseOutputs_eq, reverseAll_eq h2,
      ← applyDiff_append]
    rfl

theorem commitLive_eq (ord : DebitOrder) (daaScore : UInt64) (hash : Hash)
    {coinbase : Transaction} (hno : ∀ tx ∈ coinbase :: rest, hasFlashPrefix tx = false) :
    (commitLive p A ord daaScore hash (coinbase :: rest) : Action S ε Unit) =
      applyDiff A (coinbaseMoves p coinbase) >>= fun _ => applyLegacies p A rest := by
  have hhook : (flashHook p A ord daaScore hash (coinbase :: rest) : Action S ε Unit) =
      pure () := by
    unfold flashHook
    rw [no_flashes hno, if_neg fun h => h.2 rfl]
  unfold commitLive
  dsimp only
  rw [hhook, creditCoinbase_eq, bind_pure_unit]

end Moves

/-! ## 4. On a ledger -/

section OnLedger

variable {ε : Type} {p : LiveProcessor}

/-- **A signed change is a debit or a credit, cut off at the ends.** -/
theorem toNat_applyChange (change : Int64) (b : UInt64) :
    (applyChange change b).toNat = (signed change).apply maxBalance b.toNat := by
  unfold applyChange signed
  split
  · exact toNat_satAdd _ _
  · exact toNat_satSub _ _

theorem bal_applyMoves (a : ScriptPublicKey) : ∀ (ms : List Move) (L : Ledger),
    bal (ms.foldl applyMove L) a = settle maxBalance (L.bal a) (changesOf a ms)
  | [], _ => rfl
  | m :: ms, L => by
    rw [foldl_cons, bal_applyMoves a ms]
    unfold changesOf applyMove
    by_cases h : m.1 = a
    · subst h
      rw [filter_cons_of_pos (by simp), map_cons, bal, update_self, toNat_applyChange]
      rfl
    · rw [filter_cons_of_neg (by simpa using h), bal, update_of_ne (Ne.symm h)]

theorem ledgerStore_applyDiff : ∀ (ms : List Move) (L : Ledger),
    (applyDiff ledgerStore ms : Action Ledger ε Unit) L = (.ok (), ms.foldl applyMove L)
  | [], _ => rfl
  | m :: ms, L => by
    show ((ledgerStore.updateBalanceBatch m.1 m.2 >>= fun _ => applyDiff ledgerStore ms) : Action
      Ledger ε Unit) L = _
    rw [bind_ok (ledgerStore_updateBalanceBatch L m.1 m.2), ledgerStore_applyDiff ms]
    rfl

theorem ledgerStore_applyLegacy (L : Ledger) (tx : Transaction) :
    (applyLegacy p ledgerStore tx : Action Ledger ε Unit) L =
      (.ok (), (legacyMoves tx (payer p L tx)).foldl applyMove L) := by
  unfold applyLegacy payer
  cases checkLegacy p.crypto tx with
  | none => rfl
  | some spk =>
    by_cases hlow : (L spk).balance < totalSpent tx
    · have hskip : Option.filter (fun q => decide ¬ (L q).balance < totalSpent tx) (some spk) =
          none := by simp [hlow]
      rw [hskip]
      exact congrFun (if_pos hlow) L
    · have hpay : Option.filter (fun q => decide ¬ (L q).balance < totalSpent tx) (some spk) =
          some spk := by simpa using hlow
      rw [hpay]
      refine (congrFun (if_neg hlow) L).trans ?_
      rw [creditOutputs_eq]
      exact ledgerStore_applyDiff ((spk, -(totalSpent tx).toInt64) :: outputMoves tx.outputs) L

theorem ledgerStore_applyLegacies : ∀ (txs : List Transaction) (L : Ledger),
    (applyLegacies p ledgerStore txs : Action Ledger ε Unit) L =
      (.ok (), (legaciesMoves p L txs).foldl applyMove L)
  | [], _ => rfl
  | tx :: txs, L => by
    unfold applyLegacies legaciesMoves
    rw [bind_ok (ledgerStore_applyLegacy L tx), ledgerStore_applyLegacies txs, foldl_append]

/-- **Adding a block** without flash transactions to a ledger. -/
theorem ledgerStore_connect (ord : DebitOrder) (daaScore : UInt64)
    (hash : Hash) {txs : List Transaction} (hno : ∀ tx ∈ txs, hasFlashPrefix tx = false)
    (L : Ledger) : (commitLive p ledgerStore ord daaScore hash txs : Action Ledger ε Unit) L =
      (.ok (), (connectMoves p L txs).foldl applyMove L) := by
  cases txs with
  | nil =>
    show (flashHook p ledgerStore ord daaScore hash [] : Action Ledger ε Unit) L = _
    unfold flashHook
    rw [if_neg fun h => h.2 rfl]
    rfl
  | cons coinbase rest =>
    rw [commitLive_eq ord daaScore hash hno, bind_ok (ledgerStore_applyDiff _ L),
      ledgerStore_applyLegacies, connectMoves, foldl_append]

end OnLedger

/-! ## 5. What a block gives and takes -/

def outputSum (outs : List TransactionOutput) : Nat := (outs.map fun out => out.value.toNat).sum

def received (a : ScriptPublicKey) (outs : List TransactionOutput) : Nat :=
  outputSum (outs.filter (·.scriptPublicKey = a))

theorem outputSum_cons (out : TransactionOutput) (outs : List TransactionOutput) :
    outputSum (out :: outs) = out.value.toNat + outputSum outs := sum_cons

variable (a : ScriptPublicKey) {outs : List TransactionOutput} {out : TransactionOutput}

theorem received_cons (out : TransactionOutput) (outs : List TransactionOutput) :
    received a (out :: outs) =
      (if out.scriptPublicKey = a then out.value.toNat else 0) + received a outs := by
  unfold received
  by_cases h : out.scriptPublicKey = a
  · rw [filter_cons_of_pos (by simpa using h), outputSum_cons, if_pos h]
  · rw [filter_cons_of_neg (by simpa using h), if_neg h, zero_add]

theorem outputSum_append (outs outs' : List TransactionOutput) :
    outputSum (outs ++ outs') = outputSum outs + outputSum outs' := by
  rw [outputSum, map_append, sum_append, outputSum, outputSum]

theorem received_append (outs outs' : List TransactionOutput) :
    received a (outs ++ outs') = received a outs + received a outs' := by
  rw [received, filter_append, outputSum_append, received, received]

theorem le_outputSum (h : out ∈ outs) :
    out.value.toNat ≤ outputSum outs := le_sum_of_mem (mem_map_of_mem h)

theorem le_received (h : out ∈ outs) :
    out.value.toNat ≤ received out.scriptPublicKey outs :=
  le_outputSum (mem_filter.mpr ⟨h, decide_eq_true rfl⟩)

/-- What the payload of the coinbase gives to the account `a`. -/
def rewardOf (p : LiveProcessor) (coinbase : Transaction) (a : ScriptPublicKey) : Nat :=
  (((coinbaseMoves p coinbase).filter (·.1 = a)).map fun m => m.2.toUInt64.toNat).sum

/-- What the transactions of the sender `a` spend, each sum taken modulo `2^64`. -/
def spentBy (c : Crypto) (a : ScriptPublicKey) (txs : List Transaction) : Nat :=
  ((txs.filter (senderScript c · = a)).map fun tx => (totalSpent tx).toNat).sum

/-- Every transaction passes the checks, and its sender can pay for it when its turn comes. -/
def AllPaid (p : LiveProcessor) : Ledger → List Transaction → Prop
  | _, [] => True
  | L, tx :: rest =>
    (payer p L tx).isSome ∧ AllPaid p ((legacyMoves tx (payer p L tx)).foldl applyMove L) rest

/-- A block of valid transactions after the coinbase, with amounts far from the ends of the
    integers. -/
structure ValidBlock (p : LiveProcessor) (L : Ledger) (coinbase : Transaction)
    (rest : List Transaction) : Prop where
  paid : AllPaid p ((coinbaseMoves p coinbase).foldl applyMove L) rest
  room : ∀ a, L.bal a + rewardOf p coinbase a + received a (rest.flatMap (·.outputs)) < 2 ^ 63
  listed : ∀ out ∈ coinbase.outputs, out.value.toNat < 2 ^ 63
  ids : ∀ tx ∈ rest, tx.id ≠ Hash.default

section Sums

variable {p : LiveProcessor} {L : Ledger} {tx coinbase : Transaction} {sender : ScriptPublicKey}
  {rest : List Transaction}

theorem payer_eq_some : payer p L tx = some sender ↔
    checkLegacy p.crypto tx = some sender ∧ (totalSpent tx).toNat ≤ L.bal sender := by
  unfold payer
  rw [Option.filter_eq_some_iff]
  simp only [decide_eq_true_eq, UInt64.not_lt, UInt64.le_iff_toNat_le]

theorem checkLegacy_eq_some {c : Crypto}
    {tx : Transaction} {spk : ScriptPublicKey} (h : checkLegacy c tx = some spk) :
    tx.payload.length ≥ pubkeySize + 8 + sigSize ∧ spk = senderScript c tx := by
  unfold checkLegacy at h
  split at h
  · cases h
  · split at h
    · cases h
    · split at h
      · cases h
      · rename_i hlen
        dsimp only at h
        split at h
        · cases h
          exact ⟨Nat.le_of_not_lt hlen, rfl⟩
        · cases h

theorem signed_of_small {x : Int64} (h : x.toUInt64.toNat < 2 ^ 63) :
    signed x = .credit x.toUInt64.toNat := by
  have hge : x ≥ 0 := by
    have hx : x.toUInt64.toInt64 = x := Int64.toInt64_toUInt64 x
    rw [ge_iff_le, Int64.le_iff_toInt_le, ← hx, toInt_toInt64 h]
    exact Int.natCast_nonneg _
  rw [signed, if_pos hge]

/-- A small debit takes its amount and gives nothing; of zero it is a credit. -/
theorem signed_debit {n : UInt64} (h : n.toNat < 2 ^ 63) :
    (signed (-n.toInt64)).taken = n.toNat ∧ (signed (-n.toInt64)).given = 0 := by
  by_cases h0 : n = 0
  · subst h0
    exact ⟨rfl, rfl⟩
  · have hpos : 0 < n.toNat := Nat.pos_of_ne_zero fun hz => h0 (UInt64.toNat_inj.mp hz)
    have hneg : ¬ (-n.toInt64 ≥ 0) := by
      rw [ge_iff_le, Int64.le_iff_toInt_le, Int64.toInt_neg, toInt_toInt64 h, Int.bmod_def]
      have h00 : (0 : Int64).toInt = 0 := rfl
      omega
    rw [signed, if_neg hneg, unsignedAbs, Int64.neg_neg]
    exact ⟨rfl, rfl⟩

theorem changesOf_credits {ms : List Move} (h : ∀ m ∈ ms, m.2.toUInt64.toNat < 2 ^ 63)
    (a : ScriptPublicKey) : debits (changesOf a ms) = 0 ∧
      credits (changesOf a ms) = ((ms.filter (·.1 = a)).map fun m => m.2.toUInt64.toNat).sum := by
  have hsigned : changesOf a ms = (ms.filter (·.1 = a)).map fun m => .credit m.2.toUInt64.toNat :=
    map_congr_left fun m hm => signed_of_small (h m (mem_filter.mp hm).1)
  rw [hsigned, debits, credits, List.map_map, List.map_map]
  exact ⟨sum_eq_zero fun n hn => by obtain ⟨m, -, rfl⟩ := mem_map.mp hn; rfl, rfl⟩

variable {outs : List TransactionOutput}

theorem changesOf_outputMoves (h : ∀ out ∈ outs, out.value.toNat < 2 ^ 63) (a : ScriptPublicKey) :
    debits (changesOf a (outputMoves outs)) = 0 ∧
    credits (changesOf a (outputMoves outs)) = received a outs := by
  have hsmall : ∀ m ∈ outputMoves outs, m.2.toUInt64.toNat < 2 ^ 63 :=
    forall_mem_map.mpr fun out ho => by
    exact h out ho
  obtain ⟨hd, hc⟩ := changesOf_credits hsmall a
  refine ⟨hd, hc.trans ?_⟩
  rw [outputMoves, List.filter_map, List.map_map, received, outputSum]
  exact congrArg sum (map_congr_left fun out _ => congrArg UInt64.toNat (UInt64.toUInt64_toInt64 _))

theorem changesOf_reverseMoves (h : ∀ out ∈ outs, out.value.toNat < 2 ^ 63) (a : ScriptPublicKey) :
    debits (changesOf a (reverseMoves outs)) = received a outs ∧
    credits (changesOf a (reverseMoves outs)) = 0 := by
  induction outs with
  | nil => exact ⟨rfl, rfl⟩
  | cons out outs ih =>
    obtain ⟨hout, hrest⟩ := forall_mem_cons.mp h
    obtain ⟨h1, h2⟩ := ih hrest
    obtain ⟨h3, h4⟩ := signed_debit hout
    unfold changesOf reverseMoves at h1 h2 ⊢
    rw [map_cons, received_cons]
    by_cases ha : out.scriptPublicKey = a
    · rw [filter_cons_of_pos (by simpa using ha), map_cons, if_pos ha, debits, credits, map_cons,
        map_cons, sum_cons, sum_cons, h3, h4, ← debits, ← credits, h1, h2]
      exact ⟨rfl, rfl⟩
    · rw [filter_cons_of_neg (by simpa using ha), if_neg ha, zero_add]
      exact ⟨h1, h2⟩

theorem changesOf_legacyMoves (hout : ∀ out ∈ tx.outputs, out.value.toNat < 2 ^ 63)
    (hspent : (totalSpent tx).toNat < 2 ^ 63) (sender a : ScriptPublicKey) :
    debits (changesOf a (legacyMoves tx (some sender))) =
      (if a = sender then (totalSpent tx).toNat else 0) ∧
      credits (changesOf a (legacyMoves tx (some sender))) = received a tx.outputs := by
  obtain ⟨h1, h2⟩ := changesOf_outputMoves hout a
  obtain ⟨h3, h4⟩ := signed_debit hspent
  unfold changesOf at h1 h2 ⊢
  rw [legacyMoves]
  by_cases ha : a = sender
  · subst ha
    rw [filter_cons_of_pos (by simp), map_cons, if_pos rfl, debits, credits, map_cons,
      map_cons, sum_cons, sum_cons, h3, h4, ← debits, ← credits, h1, h2]
    exact ⟨rfl, zero_add _⟩
  · rw [filter_cons_of_neg (by simpa using Ne.symm ha), if_neg ha]
    exact ⟨h1, h2⟩

theorem bal_coinbaseMoves (hroom : ∀ a, L.bal a + rewardOf p coinbase a < 2 ^ 63)
    (a : ScriptPublicKey) :
    bal ((coinbaseMoves p coinbase).foldl applyMove L) a = L.bal a + rewardOf p coinbase a := by
  have hsmall : ∀ m ∈ coinbaseMoves p coinbase, m.2.toUInt64.toNat < 2 ^ 63 := fun m hm => by
    have hle : m.2.toUInt64.toNat ≤ rewardOf p coinbase m.1 :=
      le_sum_of_mem (mem_map_of_mem (mem_filter.mpr ⟨hm, decide_eq_true rfl⟩))
    have := hroom m.1
    omega
  obtain ⟨hd, hc⟩ := changesOf_credits hsmall a
  rw [← rewardOf] at hc
  have hcov : Covered maxBalance (L.bal a) (changesOf a (coinbaseMoves p coinbase)) := by
    refine ⟨hd ▸ Nat.zero_le _, ?_⟩
    have := hroom a
    rw [hc, maxBalance]
    omega
  have heq := settle_eq hcov
  rw [hd, hc, add_zero] at heq
  rw [bal_applyMoves, heq]

/-- **One transaction**: its sender pays, and its outputs are credited. -/
theorem bal_legacyMoves (hpay : payer p L tx = some sender)
    (hout : ∀ out ∈ tx.outputs, out.value.toNat < 2 ^ 63) (hspent : (totalSpent tx).toNat < 2 ^ 63)
    {a : ScriptPublicKey} (hroom : L.bal a + received a tx.outputs ≤ maxBalance) :
    bal ((legacyMoves tx (payer p L tx)).foldl applyMove L) a +
      (if a = sender then (totalSpent tx).toNat else 0) = L.bal a + received a tx.outputs := by
  obtain ⟨hd, hc⟩ := changesOf_legacyMoves hout hspent sender a
  have hcov : Covered maxBalance (L.bal a) (changesOf a (legacyMoves tx (some sender))) := by
    constructor
    · rw [hd]
      split
      · rename_i ha
        rw [ha]
        exact (payer_eq_some.mp hpay).2
      · exact Nat.zero_le _
    · rwa [hc]
  rw [hpay, bal_applyMoves, ← hd, ← hc]
  exact settle_eq hcov

/-- **All of them.** -/
theorem bal_legaciesMoves : ∀ {rest : List Transaction} {L : Ledger}, AllPaid p L rest →
    (∀ a, L.bal a + received a (rest.flatMap (·.outputs)) < 2 ^ 63) → ∀ a,
      bal ((legaciesMoves p L rest).foldl applyMove L) a + spentBy p.crypto a rest =
        L.bal a + received a (rest.flatMap (·.outputs))
  | [], _, _, _, _ => rfl
  | tx :: rest, L, h, hroom, a => by
    obtain ⟨hsome, hrest⟩ := h
    obtain ⟨sender, hpay⟩ := Option.isSome_iff_exists.mp hsome
    obtain ⟨-, rfl⟩ := checkLegacy_eq_some (payer_eq_some.mp hpay).1
    simp only [flatMap_cons, received_append] at hroom ⊢
    have hout : ∀ out ∈ tx.outputs, out.value.toNat < 2 ^ 63 := fun out ho => by
      have := le_received ho
      have := hroom out.scriptPublicKey
      omega
    have hspent : (totalSpent tx).toNat < 2 ^ 63 := by
      have := hroom (senderScript p.crypto tx)
      have := (payer_eq_some.mp hpay).2
      omega
    have hone := fun b => bal_legacyMoves hpay hout hspent (a := b) (by
      have := hroom b
      unfold maxBalance
      omega)
    have ih := bal_legaciesMoves hrest (fun b => by
      have := hone b
      have := hroom b
      omega) a
    have hsum : spentBy p.crypto a (tx :: rest) =
        (if a = senderScript p.crypto tx then (totalSpent tx).toNat else 0) + spentBy p.crypto a
          rest := by
      unfold spentBy
      by_cases ha : senderScript p.crypto tx = a
      · rw [filter_cons_of_pos (by simpa using ha), map_cons, sum_cons, if_pos ha.symm]
      · rw [filter_cons_of_neg (by simpa using ha), if_neg (Ne.symm ha), zero_add]
    have := hone a
    rw [legaciesMoves, foldl_append, hsum]
    omega

/-- Removing a block without a zero id deducts all outputs. -/
theorem disconnectMoves_eq (hids : ∀ tx ∈ rest, tx.id ≠ Hash.default) : disconnectMoves p
      (coinbase :: rest) = reverseMoves (coinbase.outputs ++ rest.flatMap (·.outputs)) := by
  have hnone : (rest.flatMap fun tx => reverseMoves tx.outputs ++ refundMoves p tx) =
      rest.flatMap fun tx => reverseMoves tx.outputs := flatMap_congr fun tx htx => by
    rw [refundMoves, if_neg fun h => hids tx htx h.2, append_nil]
  rw [disconnectMoves, hnone, reverseMoves, reverseMoves, map_append, map_flatMap]
  rfl

/-- **The balances after adding and removing a valid block.** -/
theorem ValidBlock.bal_eq (h : ValidBlock p L coinbase rest) (a : ScriptPublicKey) : ∃ b,
    b + spentBy p.crypto a rest = L.bal a +
      rewardOf p coinbase a + received a (rest.flatMap (·.outputs)) ∧
    bal ((connectMoves p L (coinbase :: rest) ++ disconnectMoves p (coinbase :: rest)).foldl
      applyMove L) a =
      b - (received a coinbase.outputs + received a (rest.flatMap (·.outputs))) := by
  have hcoinbase :
      ∀ a, bal ((coinbaseMoves p coinbase).foldl applyMove L) a = L.bal a + rewardOf p coinbase a :=
    bal_coinbaseMoves fun a => by
      have := h.room a
      omega
  have hrest := bal_legaciesMoves h.paid fun a => by
    rw [hcoinbase a]
    exact h.room a
  have hout : ∀ out ∈ coinbase.outputs ++ rest.flatMap (·.outputs), out.value.toNat < 2 ^ 63 :=
    fun out ho => by
    rcases mem_append.mp ho with ho | ho
    · exact h.listed out ho
    · have := le_received ho
      have := h.room out.scriptPublicKey
      omega
  obtain ⟨hd, hc⟩ := changesOf_reverseMoves hout a
  refine ⟨_, (hrest a).trans (by rw [hcoinbase a]), ?_⟩
  have hle : ∀ M : Ledger, M.bal a ≤ maxBalance := fun M => Nat.le_sub_one_of_lt (UInt64.toNat_lt _)
  rw [foldl_append, disconnectMoves_eq h.ids, bal_applyMoves, settle_of_credits_eq_zero hc (hle _),
    hd, received_append, connectMoves, foldl_append]

end Sums

/-! ## 6. On the store -/

/-- The scripts that a block without flash transactions can touch, added or removed. -/
structure Touches (p : LiveProcessor) (K : Finset ScriptPublicKey) (txs : List Transaction) :
    Prop where
  coinbase : ∀ tx ∈ txs.head?, ∀ m ∈ coinbaseMoves p tx, m.1 ∈ K
  outputs : ∀ tx ∈ txs, ∀ out ∈ tx.outputs, out.scriptPublicKey ∈ K
  senders : ∀ tx ∈ txs.drop 1, tx.payload.length ≥ pubkeySize + 8 + sigSize →
    senderScript p.crypto tx ∈ K

section Sim

variable {S T ε : Type} {p : LiveProcessor} {A : AccountStore S} {B : AccountStore T}
  {K : Finset ScriptPublicKey} {R : S → T → Prop} (H : AccountStoreSim A B K R)

include H

theorem applyDiff_sim {ms : List Move} (hk : ∀ m ∈ ms, m.1 ∈ K) :
    Rel R (applyDiff A ms : Action S ε Unit) (applyDiff B ms) := by
  induction ms with
  | nil => exact rel_pure _
  | cons m ms ih =>
    obtain ⟨h1, h2⟩ := forall_mem_cons.mp hk
    exact rel_bind (updateBalanceBatch_sim H h1 m.2) fun _ => ih h2

variable {outs : List TransactionOutput}

theorem applyLegacy_sim {tx : Transaction} (hout : ∀ out ∈ tx.outputs, out.scriptPublicKey ∈ K)
    (hsender : tx.payload.length ≥ pubkeySize + 8 + sigSize → senderScript p.crypto tx ∈ K) :
    Rel R (applyLegacy p A tx : Action S ε Unit) (applyLegacy p B tx) := by
  unfold applyLegacy
  cases hc : checkLegacy p.crypto tx with
  | none => exact rel_pure _
  | some spk =>
    obtain ⟨hlen, rfl⟩ := checkLegacy_eq_some hc
    have hk := hsender hlen
    refine rel_bind (rel_bind (getAccount_sim H hk) fun _ => rel_pure _) fun balance => ?_
    split
    · exact rel_pure _
    · refine rel_bind (updateBalanceBatch_sim H hk _) fun _ => ?_
      rw [creditOutputs_eq, creditOutputs_eq]
      exact applyDiff_sim H (forall_mem_map.mpr hout)

variable {txs : List Transaction}

theorem applyLegacies_sim (hout : ∀ tx ∈ txs, ∀ out ∈ tx.outputs, out.scriptPublicKey ∈ K)
    (hsender : ∀ tx ∈ txs, tx.payload.length ≥ pubkeySize + 8 + sigSize →
      senderScript p.crypto tx ∈ K) :
    Rel R (applyLegacies p A txs : Action S ε Unit) (applyLegacies p B txs) := by
  induction txs with
  | nil => exact rel_pure _
  | cons tx txs ih =>
    obtain ⟨ho1, ho2⟩ := forall_mem_cons.mp hout
    obtain ⟨hs1, hs2⟩ := forall_mem_cons.mp hsender
    exact rel_bind (applyLegacy_sim H ho1 hs1) fun _ => ih ho2 hs2

theorem connect_sim (ord : DebitOrder) (daaScore : UInt64) (hash : Hash)
    (hno : ∀ tx ∈ txs, hasFlashPrefix tx = false) (ht : Touches p K txs) :
    Rel R (commitLive p A ord daaScore hash txs : Action S ε Unit)
      (commitLive p B ord daaScore hash txs) := by
  cases txs with
  | nil =>
    exact flashHook_sim H ord daaScore hash (forall_mem_nil _) (forall_mem_nil _)
  | cons coinbase rest =>
    rw [commitLive_eq ord daaScore hash hno, commitLive_eq ord daaScore hash hno]
    refine rel_bind (applyDiff_sim H (ht.coinbase coinbase rfl)) fun _ => ?_
    exact applyLegacies_sim H (forall_mem_cons.mp ht.outputs).2 ht.senders

omit H in
theorem disconnectMoves_mem (ht : Touches p K txs) : ∀ m ∈ disconnectMoves p txs, m.1 ∈ K := by
  cases txs with
  | nil => exact forall_mem_nil _
  | cons coinbase rest =>
    obtain ⟨ho1, ho2⟩ := forall_mem_cons.mp ht.outputs
    intro m hm
    rcases mem_append.mp hm with hm | hm
    · obtain ⟨out, ho, rfl⟩ := mem_map.mp hm
      exact ho1 out ho
    · obtain ⟨tx, htx, hm⟩ := mem_flatMap.mp hm
      rcases mem_append.mp hm with hm | hm
      · obtain ⟨out, ho, rfl⟩ := mem_map.mp hm
        exact ho2 tx htx out ho
      · unfold refundMoves at hm
        split at hm
        · rename_i h
          rw [mem_singleton.mp hm]
          exact ht.senders tx htx h.1
        · exact absurd hm not_mem_nil

end Sim

section Store

variable {p : LiveProcessor} {K : Finset ScriptPublicKey} {s : DbAccounts} {txs : List Transaction}

theorem connect_disconnect_mirrors (ord : DebitOrder) (daaScore : UInt64) (hash : Hash)
    (hfit : s.Fits K) (hno : ∀ tx ∈ txs, hasFlashPrefix tx = false) (ht : Touches p K txs) :
    ∃ s', (connect p ord daaScore hash txs >>= fun _ => disconnect p hash txs :
        Action DbAccounts Empty Unit) s = (.ok (), s') ∧
      Mirrors K s' ((connectMoves p (liveLedger s) txs ++ disconnectMoves p txs).foldl applyMove
        (liveLedger s)) := by
  have H := dbAccountStore_sim K
  have hadd : (commitLive p ledgerStore ord daaScore hash txs : Action Ledger Empty Unit)
      (liveLedger s) = _ := ledgerStore_connect ord daaScore hash hno _
  obtain ⟨h1, hm1⟩ := connect_sim H ord daaScore hash hno ht s (liveLedger s) ⟨hfit, rfl⟩
  rw [hadd] at h1 hm1
  have hundo := removeLive_eq (ε := Empty) (p := p) (A := dbAccountStore) hash hno
  obtain ⟨h2, hm2⟩ := applyDiff_sim H (disconnectMoves_mem ht) _ _ hm1.flush
  rw [ledgerStore_applyDiff] at h2 hm2
  refine ⟨_, ?_, by rw [foldl_append]; exact hm2.flush⟩
  have hc : (connect p ord daaScore hash txs : Action DbAccounts Empty Unit) s =
      (.ok (), ((commitLive p dbAccountStore ord daaScore hash txs : Action DbAccounts Empty Unit)
        s).2.flush) := bind_ok (Prod.ext h1 rfl) _
  rw [bind_ok hc, disconnect, hundo]
  exact bind_ok (Prod.ext h2 rfl) _

/-- **A valid block is undone exactly if the payload of the coinbase gives every account what the
    coinbase lists for it and what it spends itself**, or no more than that to an account that was
    empty. -/
theorem restores_iff {coinbase : Transaction} {rest : List Transaction} (ord : DebitOrder)
    (daaScore : UInt64)
    (hash : Hash) (hfit : s.Fits K) (hno : ∀ tx ∈ coinbase :: rest, hasFlashPrefix tx = false)
    (ht : Touches p K (coinbase :: rest)) (hvalid : ValidBlock p (liveLedger s) coinbase rest) :
    Restores (connect p ord daaScore hash (coinbase :: rest) >>= fun _ =>
      disconnect p hash (coinbase :: rest)) s ↔
      ∀ a, rewardOf p coinbase a = received a coinbase.outputs + spentBy p.crypto a rest ∨
        (liveLedger s).bal a = 0 ∧
        rewardOf p coinbase a ≤ received a coinbase.outputs + spentBy p.crypto a rest := by
  obtain ⟨s', hrun, hfit', hlive⟩ := connect_disconnect_mirrors ord daaScore hash hfit hno ht
  have hbal : ∀ a, (dbAccountStore.get s' a).1.balance = (dbAccountStore.get s a).1.balance ↔
      (rewardOf p coinbase a = received a coinbase.outputs + spentBy p.crypto a rest ∨
        (liveLedger s).bal a = 0 ∧
          rewardOf p coinbase a ≤ received a coinbase.outputs + spentBy p.crypto a rest) :=
    fun a => by
    obtain ⟨b, hb, hafter⟩ := hvalid.bal_eq a
    rw [dbAccountStore_get hfit', dbAccountStore_get hfit, hlive, ← UInt64.toNat_inj, ← bal, ← bal,
      hafter]
    omega
  constructor
  · rintro ⟨t, ht, hsame⟩ a
    cases hrun.symm.trans ht
    exact (hbal a).mp (hsame a)
  · intro h
    exact ⟨s', hrun, fun a => (hbal a).mpr (h a)⟩

end Store

/-! ## 7. Two blocks -/

def legacyToy : LiveProcessor := ⟨stampProcessor, true⟩

def legacySender : ScriptPublicKey := pubkeyToP2pkhSpk stampCrypto legacyKey

def rewardCoinbase (outputs : List TransactionOutput) : Transaction :=
  { toyCoinbase 1 5000 legacySender.script with outputs := outputs }

def legacyAccounts : Finset ScriptPublicKey := {legacySender, legacyRecipient}

/-- The sender is given 5000, spends 10 of it, and the coinbase lists the other 4990. -/
def listedBlock : List Transaction := [rewardCoinbase [⟨4990, legacySender⟩], signedPay 10 0]

theorem rewardOf_rewardCoinbase (outputs : List TransactionOutput) (a : ScriptPublicKey) :
    rewardOf legacyToy (rewardCoinbase outputs) a = if legacySender = a then 5000 else 0 := by
  have hmoves : coinbaseMoves legacyToy (rewardCoinbase outputs) = [(legacySender, 5000)] := by
    show coinbaseMoves legacyToy (rewardCoinbase []) = _
    decide +kernel
  rw [rewardOf, hmoves]
  by_cases h : legacySender = a
  · rw [filter_cons_of_pos (by simpa using h), if_pos h]
    rfl
  · rw [filter_cons_of_neg (by simpa using h), if_neg h]
    rfl

theorem spentBy_signedPay :
    spentBy legacyToy.crypto a [signedPay 10 0] = if legacySender = a then 10 else 0 := by
  have hsender : senderScript legacyToy.crypto (signedPay 10 0) = legacySender := by decide +kernel
  have htotal : (totalSpent (signedPay 10 0)).toNat = 10 := rfl
  rw [spentBy]
  by_cases h : legacySender = a
  · rw [filter_cons_of_pos (by simpa [hsender] using h), if_pos h, map_cons, htotal]
    rfl
  · rw [filter_cons_of_neg (by simpa [hsender] using h), if_neg h]
    rfl

theorem restores_listed_reward :
    Restores (connect legacyToy (.asListed _ _) 1 (.ofNat 2) listedBlock >>=
      fun _ => disconnect legacyToy (.ofNat 2) listedBlock) (new 10000 id) := by
  have hfit : (new 10000 id : DbAccounts).Fits legacyAccounts := fits_new (by decide) id
  have ht : Touches legacyToy legacyAccounts listedBlock :=
    ⟨by decide +kernel, by decide +kernel, by decide +kernel⟩
  have hvalid : ValidBlock legacyToy (liveLedger (new 10000 id))
      (rewardCoinbase [⟨4990, legacySender⟩]) [signedPay 10 0] := by
    refine ⟨⟨by decide +kernel, trivial⟩, fun a => ?_, by decide +kernel, by decide +kernel⟩
    have hpaid : received a ([signedPay 10 0].flatMap (·.outputs)) ≤ 10 := by
      show received a [⟨10, legacyRecipient⟩] ≤ 10
      rw [received_cons]
      split
      · exact Nat.le_refl 10
      · exact Nat.zero_le 10
    have hempty : bal (liveLedger (new 10000 id)) a = 0 := rfl
    rw [rewardOf_rewardCoinbase, hempty]
    split <;> omega
  have hno : ∀ tx ∈ listedBlock, hasFlashPrefix tx = false := by decide +kernel
  have hiff :=
    @restores_iff legacyToy legacyAccounts (new 10000 id) (rewardCoinbase [⟨4990, legacySender⟩])
    [signedPay 10 0] (.asListed _ _) 1 (.ofNat 2) hfit hno ht hvalid
  have houts : (rewardCoinbase [⟨4990, legacySender⟩]).outputs = [⟨4990, legacySender⟩] := rfl
  have hcond : ∀ a, rewardOf legacyToy (rewardCoinbase [⟨4990, legacySender⟩]) a =
      received a (rewardCoinbase [⟨4990, legacySender⟩]).outputs +
        spentBy legacyToy.crypto a [signedPay 10 0] := fun a => by
    rw [rewardOf_rewardCoinbase, spentBy_signedPay, houts, received_cons]
    split <;> rfl
  unfold listedBlock
  exact hiff.mpr fun a => .inl (hcond a)

/-- **A reward is not undone**: the coinbase has no outputs, so removing the block deducts
    nothing. -/
theorem reward_not_undone :
    [rewardCoinbase []].map (fun tx =>
        (legacyToy.coinbaseManager.deserializeCoinbasePayload tx.payload).toOption.map
          (·.subsidy)) = [some 5000] ∧
      (∀ tx ∈ [rewardCoinbase []], hasFlashPrefix tx = false) ∧
      ¬ Restores (connect legacyToy (.asListed _ _) 1 (.ofNat 2) [rewardCoinbase []] >>=
        fun _ => disconnect legacyToy (.ofNat 2) [rewardCoinbase []]) (new 10000 id) := by
  refine ⟨by decide, by decide, ?_⟩
  rintro ⟨s', hrun, hsame⟩
  have hafter :
      (dbAccountStore.get (((connect legacyToy (.asListed _ _) 1 (.ofNat 2) [rewardCoinbase []] >>=
      fun _ => disconnect legacyToy (.ofNat 2) [rewardCoinbase []]) : Action DbAccounts Empty Unit)
      (new 10000 id)).2 legacySender).1.balance = 5000 := by decide +kernel
  rw [hrun, hsame legacySender] at hafter
  revert hafter
  decide

end Sahyadri.Live
