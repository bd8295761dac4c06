import Sahyadri.Lib.Table
import Sahyadri.Smt.Tree
import Sahyadri.Core.Keys
import Sahyadri.Core.Coinbase
import Sahyadri.Account.State

/-!
# `account_changes`: the account state transition of a block, as the code computes it

* `flashPubkeyToSpk`, `hash20ToP2pkhSpk`: the accounts of a flash transaction. A recipient of fewer
  than 20 bytes is a panic.
-/

namespace Sahyadri.Account

open Lib Smt Core

/-! ## 1. Accounts of a flash transaction -/

/-- The P2PKH script `0x14 <20 bytes> 0xac`. -/
def p2pkhSpk (hash20 : Bytes) : ScriptPublicKey := ⟨0, 0x14 :: (hash20 ++ [0xac])⟩

/-- `hash20_to_p2pkh_spk`: the assertion on the length is a panic. -/
def hash20ToP2pkhSpk {ε : Type} (hash20 : Bytes) : Run ε ScriptPublicKey :=
  if hash20.length ≥ 20 then .ok (p2pkhSpk (hash20.take 20)) else .panicked

def flashPubkeyToSpk (c : Crypto) (pubkey : Bytes) : ScriptPublicKey :=
  p2pkhSpk ((c.sha3 pubkey).bytes.take 20)

/-! ## 2. Reading an account -/

inductive StoreError where
  | keyNotFound
  | other (text : String)
  deriving DecidableEq, Repr

inductive AccountError where
  | smt (e : SmtError)
  | store (e : StoreError)
  deriving DecidableEq, Repr

/-- `AccountStatesStoreReader`: account states by content hash. -/
abbrev StatesReader := Hash → Except StoreError AccountState

section Changes

variable {S : Type} (c : Crypto) (N : NodeStore S) (states : StatesReader)

def readAccountState (s : S) (root : H256) (spk : ScriptPublicKey) :
    Run AccountError AccountState := do
  match ← (get N s root (accountKeyHash c spk)).mapErr AccountError.smt with
  | none => return .default
  | some stateHash =>
    match states stateHash with
    | .ok state => return state
    | .error .keyNotFound => return .default
    | .error e => .fail (.store e)

/-! ## 3. The touched accounts -/

abbrev AccountReader := ScriptPublicKey → Run AccountError AccountState

/-- Who is credited, and with how much. -/
abbrev Rewards := List (ScriptPublicKey × UInt64)

/-- The `touched` map. -/
abbrev Touched := Table ScriptPublicKey AccountState

variable (read : AccountReader) (touched : Touched)

/-- Read an account into the map unless it is there. -/
def touch
    (spk : ScriptPublicKey) : Run AccountError Touched :=
  if spk ∈ touched then return touched
  else do
    let s ← read spk
    return touched.insert spk s

def debit (tx : FlashTransaction) (sender : AccountState) : AccountState where
  balance := satSub sender.balance (satAdd tx.amount tx.fee)
  recentFlashes := sender.recentFlashes ++ [⟨tx.flashId c, tx.expiryDaaScore, Hash.default⟩]

def credit (amount : UInt64) (st : AccountState) : AccountState :=
  { st with balance := satAdd st.balance amount }

/-- One round of the flash loop. -/
def applyFlash
    (tx : FlashTransaction) : Run AccountError Touched := do
  let senderSpk := flashPubkeyToSpk c tx.pubkey
  let recipientSpk ← hash20ToP2pkhSpk tx.recipient
  let touched ← touch read touched senderSpk
  let touched ← touch read touched recipientSpk
  let touched ← touched.getMut senderSpk (debit c tx)
  touched.getMut recipientSpk (credit tx.amount)

def applyReward
    (reward : ScriptPublicKey × UInt64) : Run AccountError Touched := do
  let touched ← touch read touched reward.1
  touched.getMut reward.1 (credit reward.2)

/-- Steps 1 to 3: flash transactions, rewards, pruning. -/
def touchedAccounts
    (flashTxs : List FlashTransaction) (rewards : Rewards)
    (daaScore : UInt64) : Run AccountError Touched := do
  let touched ← flashTxs.foldlM (applyFlash c read) ∅
  let touched ← rewards.foldlM (applyReward read) touched
  return touched.mapValues (·.pruneRecentFlashes daaScore)

/-- Step 4: one tree update per account. -/
def writeLeaves (root : H256) : List (ScriptPublicKey × AccountState) → Action S AccountError H256
  | [] => return root
  | (spk, state) :: rest => do
    let root ← (update N root (accountKeyHash c spk) (state.leaf c)).mapErr AccountError.smt
    writeLeaves root rest

/-- `compute_block_account_changes`; `ord` is the iteration order of the map. -/
def computeBlockAccountChanges (ord : IterOrder ScriptPublicKey AccountState) (parentRoot : H256)
    (flashTxs : List FlashTransaction) (rewards : Rewards) (daaScore : UInt64) :
    Action S AccountError (H256 × List (ScriptPublicKey × AccountState)) := do
  let touched ← Action.lift fun s =>
    touchedAccounts c (readAccountState c N states s parentRoot) flashTxs rewards daaScore
  let root ← writeLeaves c N parentRoot (ord.order touched.pairs)
  return (root, ord.order touched.pairs)

end Changes

/-! ## 4. Effects of a block -/

def hexDigit (b : UInt8) : Option UInt8 :=
  if 48 ≤ b ∧ b ≤ 57 then some (b - 48)
  else if 65 ≤ b ∧ b ≤ 70 then some (b - 55)
  else if 97 ≤ b ∧ b ≤ 102 then some (b - 87)
  else none

/-- `faster_hex::hex_decode` into a buffer of half the length. -/
def hexDecode : Bytes → Option Bytes
  | [] => some []
  | [_] => none
  | hi :: lo :: rest => do
    let hi ← hexDigit hi
    let lo ← hexDigit lo
    let rest ← hexDecode rest
    return (hi <<< 4 ||| lo) :: rest

theorem length_hexDecode :
    ∀ {src bytes : Bytes}, hexDecode src = some bytes → src.length = 2 * bytes.length
  | [], bytes, h => by
    cases h
    rfl
  | [_], bytes, h => by cases h
  | hi :: lo :: rest, bytes, h => by
    unfold hexDecode at h
    simp only [Option.bind_eq_bind, Option.bind_eq_some_iff] at h
    obtain ⟨x, _, y, _, tail, ht, h⟩ := h
    cases h
    have := length_hexDecode ht
    simp only [List.length_cons]
    omega

/-- `faster_hex::hex_decode` into a buffer of `n` bytes. -/
def hexDecodeInto (n : Nat) (src : Bytes) : Option Bytes :=
  if src.length < 2 * n ∨ src.length % 2 = 1 then none else (hexDecode src).map (·.take n)

/-- `treasury_spk_from_hex`: the public key of 1952 bytes is the script. -/
def treasurySpkFromHex (hex : String) : Option ScriptPublicKey :=
  if hex.isEmpty then none else (hexDecodeInto 1952 (strBytes hex)).map fun bytes => ⟨0, bytes⟩

/-- The rewards of a coinbase payload: 95% to the miner and 5% to the treasury. -/
def coinbaseRewards (m : CoinbaseManager) (treasuryHex : String) (payload : Bytes) :
    Rewards :=
  match m.deserializeCoinbasePayload payload with
  | .error _ => []
  | .ok cb =>
    let total := cb.subsidy
    if total > 0 then
      let devFee := if treasuryHex.isEmpty then 0 else total / 20
      let minerReward := total - devFee
      (cb.minerData.scriptPublicKey, minerReward) ::
        if devFee > 0 then
          match treasurySpkFromHex treasuryHex with
          | some spk => [(spk, devFee)]
          | none => []
        else []
    else []

def extractBlockEffects (m : CoinbaseManager) (treasuryHex : String) (txs : List Transaction) :
    List FlashTransaction × Rewards :=
  match txs with
  | [] => ([], [])
  | coinbase :: rest =>
    (rest.filterMap FlashTransaction.fromTransaction,
      coinbaseRewards m treasuryHex coinbase.payload)

end Sahyadri.Account
