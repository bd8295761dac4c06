import Sahyadri.Did.Changes
import Sahyadri.Pipeline.Body

/-!
# `verify_block_state`

* `legacy_signatures_iff`: the comparison of the two counts rejects every badly signed legacy
  transaction exactly when there are none, or more of them than passing account-model ones.
-/

namespace Sahyadri.Pipeline

open Lib Smt Core Tx Account Did List FlashTransaction

/-! ## 1. Stores -/

/-- The SMT node store, the account state store and the DID state store, newest pair first. -/
structure Stores where
  smtNodes : NodeMap
  accountStates : List (Hash × AccountState)
  didStates : List (Hash × DidDocument)

namespace Stores

def empty : Stores := ⟨[], [], []⟩

def accountReader (st : Stores) : StatesReader := fun h =>
  match st.accountStates.lookup h with
  | some state => .ok state
  | none => .error .keyNotFound

def didReader (st : Stores) : DidStatesReader := fun h => .ok (st.didStates.lookup h)

end Stores

/-! ## 2. The state of a block -/

/-- The parameters of `VirtualStateProcessor` that the function uses. -/
structure VirtualProcessor where
  crypto : Crypto
  coinbaseManager : CoinbaseManager
  /-- `SAHYADRI_TREASURY_PUBKEY_HEX`. -/
  treasuryHex : String
  networkPrefix : Prefix
  genesisHash : Hash

structure BlockState where
  root : H256
  changes : List (ScriptPublicKey × AccountState)
  didDocs : List DidDocument
  pending : NodeMap

def didVerify (c : Crypto) (pk sig msg : Bytes) : Bool :=
  if sig.length ≠ sigSize then false else c.verify pk sig msg

def didOpsOf (txs : List Transaction) : List DidOp :=
  (txs.drop 1).filterMap fun tx => parseDidOp tx.payload sigSize

/-- The overlay over the node store. -/
def overlay (c : Crypto) : NodeStore (OverlayStore NodeMap) :=
  overlayStore c.sponge fun base h => base.lookup h

/-- The iteration orders of the two touched maps. -/
structure Orders where
  accounts : IterOrder ScriptPublicKey AccountState
  dids : IterOrder String DidDocument

namespace VirtualProcessor

variable (p : VirtualProcessor)

def parentAccountRoot (parentHash : Hash) (parentHeader : Header) : H256 :=
  if parentHash = p.genesisHash then .empty else parentHeader.accountCommitment

def effects (txs : List Transaction) : List FlashTransaction × Rewards :=
  extractBlockEffects p.coinbaseManager p.treasuryHex txs

/-- The accounts and then the DIDs, on the same overlay. -/
def computeOnOverlay (st : Stores) (ord : Orders) (parentRoot : H256)
    (txs : List Transaction) (daaScore : UInt64) : Action (OverlayStore NodeMap) RuleError
      (H256 × List (ScriptPublicKey × AccountState) × List DidDocument) := do
  let (accountsRoot, changes) ←
    (computeBlockAccountChanges p.crypto (overlay p.crypto) st.accountReader ord.accounts parentRoot
      (p.effects txs).1 (p.effects txs).2 daaScore).mapErr fun _ =>
      RuleError.accountCommitmentComputeFailed
  let (root, didDocs)
    ← (computeBlockDidChanges p.crypto (overlay p.crypto) st.didReader daaScore p.networkPrefix
      (didVerify p.crypto) ord.dids accountsRoot (didOpsOf txs)).mapErr
      fun _ => RuleError.accountCommitmentComputeFailed
  return (root, changes, didDocs)

def computeBlockState (st : Stores) (ord : Orders) (parentRoot : H256) (txs : List Transaction)
    (daaScore : UInt64) : Run RuleError BlockState :=
  match p.computeOnOverlay st ord parentRoot txs daaScore (.new st.smtNodes) with
  | (.error e, _) => .error e
  | (.ok (root, changes, didDocs), o) => .ok ⟨root, changes, didDocs, o.pending⟩

end VirtualProcessor

/-- The writes of a verified block: pending nodes, account states and documents. -/
def Stores.persist (c : Crypto) (st : Stores) (x : BlockState) : Stores where
  smtNodes := x.pending ++ st.smtNodes
  accountStates := (x.changes.map fun e => (e.2.contentHash c, e.2)).reverse ++ st.accountStates
  didStates := (x.didDocs.map fun d => (didContentHash c d, d)).reverse ++ st.didStates

/-! ## 3. The checks after it -/

/-- `validate_transactions_in_parallel`: the non-coinbase transactions that pass, with their
    index. -/
def validateTransactionsInParallel (c : Crypto) (txs : List Transaction) :
    List (Transaction × Nat) :=
  let candidates := txs.zipIdx.drop 1
  let results := verifyAccountTxSignaturesBatch c (candidates.map Prod.fst)
  (candidates.zip results).filterMap fun e => if e.2.toBool then some e.1 else none

def isAccountModel (tx : Transaction) : Bool := hasFlashPrefix tx || hasDidPrefix tx

/-- The comparison at the end of the function. -/
def checkValidatedCount (c : Crypto) (txs : List Transaction) : Run RuleError Unit :=
  let validated := validateTransactionsInParallel c txs
  let accountModelCount := (txs.drop 1).countP isAccountModel
  let accountExpected := txs.length - 1 - accountModelCount
  if validated.length < accountExpected then
    .fail (.invalidTransactionsInBlockContext (accountExpected - validated.length) (txs.length - 1))
  else .ok ()

/-- What the function reads about a block besides its header. -/
structure VerifyContext where
  selectedParent : Hash
  /-- `headers_store.get_header(selected_parent)`. -/
  parentHeader : Option Header
  /-- `block_transactions_store.get(header.hash)`. -/
  transactions : Option (List Transaction)
  /-- `daa_excluded_store` has the block. -/
  hasMergesetNonDaa : Bool
  /-- `expected_header_pruning_point`. -/
  expectedPruningPoint : Hash
  orders : Orders

/-- The checks between the commitment and the signatures. -/
def checkPruningPoint (ctx : VerifyContext) (header : Header) (txs : List Transaction) :
    Run RuleError Unit :=
  if txs.isEmpty ∨ ¬ ctx.hasMergesetNonDaa then .panicked
  else if ctx.expectedPruningPoint ≠ header.pruningPoint then
    .fail (.wrongHeaderPruningPoint ctx.expectedPruningPoint header.pruningPoint)
  else .ok ()

/-- The checks once the state is computed. -/
def checkAgainstHeader (c : Crypto) (ctx : VerifyContext) (header : Header) (txs : List Transaction)
    (root : H256) : Run RuleError Unit :=
  if root ≠ header.accountCommitment then
    .fail (.badAccountCommitment header.hash header.accountCommitment root)
  else do
    checkPruningPoint ctx header txs
    checkValidatedCount c txs

def VirtualProcessor.verifyBlockState (p : VirtualProcessor) (ctx : VerifyContext)
    (header : Header) : Action Stores RuleError Unit := fun st =>
  match ctx.parentHeader with
  | none => (.fail .accountCommitmentComputeFailed, st)
  | some parentHeader =>
    match ctx.transactions with
    | none => (.fail .accountCommitmentComputeFailed, st)
    | some txs =>
      match p.computeBlockState st ctx.orders (p.parentAccountRoot ctx.selectedParent parentHeader)
          txs header.daaScore with
      | .error e => (.error e, st)
      | .ok x => (checkAgainstHeader p.crypto ctx header txs x.root, st.persist p.crypto x)

/-! ## 4. What an accepted block has passed -/

section Accepted

variable {p : VirtualProcessor} {ctx : VerifyContext} {header : Header} {st st' : Stores}
  {txs : List Transaction}

/-- The state of the block was computed from these, and this is it. -/
structure Computes (p : VirtualProcessor) (ctx : VerifyContext) (header : Header) (st : Stores)
    (parentHeader : Header) (txs : List Transaction) (x : BlockState) : Prop where
  parent : ctx.parentHeader = some parentHeader
  transactions : ctx.transactions = some txs
  state : p.computeBlockState st ctx.orders
    (p.parentAccountRoot ctx.selectedParent parentHeader) txs header.daaScore = .ok x

/-- **The function, case by case**: without a computed state the stores stay, with one they are
    written whatever the checks say. -/
theorem verifyBlockState_cases (p : VirtualProcessor) (ctx : VerifyContext)
    (header : Header) (st : Stores) : (∃ e, p.verifyBlockState ctx header st = (.error e, st)) ∨
      ∃ parentHeader txs x, Computes p ctx header st parentHeader txs x ∧
      p.verifyBlockState ctx header st =
          (checkAgainstHeader p.crypto ctx header txs x.root, st.persist p.crypto x) := by
  unfold VirtualProcessor.verifyBlockState
  cases hp : ctx.parentHeader with
  | none => exact .inl ⟨_, rfl⟩
  | some parentHeader =>
    cases ht : ctx.transactions with
    | none => exact .inl ⟨_, rfl⟩
    | some txs =>
      dsimp only
      cases hx : p.computeBlockState st ctx.orders
          (p.parentAccountRoot ctx.selectedParent parentHeader) txs header.daaScore with
      | error e => exact .inl ⟨_, rfl⟩
      | ok x => exact .inr ⟨parentHeader, txs, x, ⟨hp, ht, hx⟩, rfl⟩

theorem Computes.verifyBlockState_eq {parentHeader : Header}
    {x : BlockState} (h : Computes p ctx header st parentHeader txs x) :
    p.verifyBlockState ctx header st =
      (checkAgainstHeader p.crypto ctx header txs x.root, st.persist p.crypto x) := by
  rw [VirtualProcessor.verifyBlockState, h.parent, h.transactions]
  dsimp only
  rw [h.state]

theorem checkAgainstHeader_ok_iff {c : Crypto} {root : H256} :
    checkAgainstHeader c ctx header txs root = .ok () ↔
      root = header.accountCommitment ∧ checkPruningPoint ctx header txs = .ok () ∧
        checkValidatedCount c txs = .ok () := by
  unfold checkAgainstHeader
  split
  · rename_i h
    exact iff_of_false (by simp) fun h' => h h'.1
  · rename_i h
    rw [Run.bind_eq_ok]
    exact ⟨fun ⟨_, h1, h2⟩ => ⟨not_not.mp h, h1, h2⟩, fun ⟨_, h1, h2⟩ => ⟨(), h1, h2⟩⟩

/-- **An accepted block**: its state was computed and is what the header commits to. -/
theorem verifyBlockState_ok (h : p.verifyBlockState ctx header st = (.ok (), st')) :
    ∃ parentHeader txs x, Computes p ctx header st parentHeader txs x ∧
      x.root = header.accountCommitment ∧ checkPruningPoint ctx header txs = .ok () ∧
      checkValidatedCount p.crypto txs = .ok () ∧ st' = st.persist p.crypto x := by
  rcases verifyBlockState_cases p ctx header st with ⟨e, he⟩ | ⟨ph, txs, x, hx, he⟩
  · rw [he] at h
    cases h
  · rw [he] at h
    obtain ⟨h1, h2⟩ := Prod.mk.inj h
    obtain ⟨h3, h4, h5⟩ := checkAgainstHeader_ok_iff.mp h1
    exact ⟨ph, txs, x, hx, h3, h4, h5, h2.symm⟩

end Accepted

/-! ## 5. The two counts -/

section Counts

variable (c : Crypto) (tx : Transaction)

def passes : Bool := (verifyAccountTxSignature c tx).toBool

/-- A legacy transaction whose signature check fails. -/
def badLegacy : Bool := !isAccountModel tx && !passes c tx

/-- A flash or DID payload that the signature check accepts: every flash one does. -/
def passingAccountModel : Bool := isAccountModel tx && passes c tx

variable (txs : List Transaction)

include txs

theorem length_validateTransactionsInParallel :
    (validateTransactionsInParallel c txs).length = (txs.drop 1).countP (passes c) := by
  have hfst : (txs.zipIdx.drop 1).map Prod.fst = txs.drop 1 := by
    rw [map_drop, zipIdx_map_fst]
  unfold validateTransactionsInParallel verifyAccountTxSignaturesBatch
  dsimp only
  rw [← hfst, countP_map, map_map]
  induction txs.zipIdx.drop 1 with
  | nil => rfl
  | cons e es ih =>
    rw [map_cons, zip_cons_cons, filterMap_cons, countP_cons, ← ih]
    by_cases h : (verifyAccountTxSignature c e.1).toBool = true
    · simp [passes, h]
    · simp [passes, h]

theorem counts_by_kind :
    txs.countP (passes c) + txs.countP (badLegacy c) + txs.countP isAccountModel =
      txs.length + txs.countP (passingAccountModel c) := by
  induction txs with
  | nil => rfl
  | cons tx txs ih =>
    simp only [countP_cons, length_cons, badLegacy, passingAccountModel]
    rcases Bool.eq_false_or_eq_true (isAccountModel tx) with ha | ha <;>
      rcases Bool.eq_false_or_eq_true (passes c tx) with hp | hp <;> simp [ha, hp] <;> omega

/-- **The comparison**: at most as many badly signed legacy transactions as passing account-model
    ones. -/
theorem checkValidatedCount_ok_iff :
    checkValidatedCount c txs = .ok () ↔
      (txs.drop 1).countP (badLegacy c) ≤ (txs.drop 1).countP (passingAccountModel c) := by
  have hk := counts_by_kind c (txs.drop 1)
  rw [length_drop] at hk
  unfold checkValidatedCount
  dsimp only
  rw [length_validateTransactionsInParallel]
  split
  · exact iff_of_false (by simp) (by omega)
  · exact iff_of_true rfl (by omega)

end Counts

section Signatures

variable {p : VirtualProcessor} {ctx : VerifyContext} {header : Header} {st : Stores}

/-- The checks before the signatures pass. -/
def ReachesSignatures (p : VirtualProcessor) (ctx : VerifyContext) (header : Header) (st : Stores)
    (txs : List Transaction) : Prop :=
  ∃ parentHeader x, Computes p ctx header st parentHeader txs x ∧
    x.root = header.accountCommitment ∧ checkPruningPoint ctx header txs = .ok ()

/-- **When every badly signed legacy transaction is rejected**: there is none, or more of them than
    account-model transactions that pass. -/
theorem legacy_signatures_iff {txs : List Transaction} (htxs : ctx.transactions = some txs) :
    ((p.verifyBlockState ctx header st).1 = .ok () →
        ∀ tx ∈ txs.drop 1, hasFlashPrefix tx = true ∨ hasDidPrefix tx = true ∨
          verifyAccountTxSignature p.crypto tx = .ok ()) ↔ (ReachesSignatures p ctx header st txs →
        (txs.drop 1).countP (badLegacy p.crypto) = 0 ∨ (txs.drop 1).countP
          (passingAccountModel p.crypto) < (txs.drop 1).countP (badLegacy p.crypto)) := by
  have hok : (p.verifyBlockState ctx header st).1 = .ok () ↔ ReachesSignatures p ctx header st txs ∧
      (txs.drop 1).countP (badLegacy p.crypto) ≤ (txs.drop 1).countP
        (passingAccountModel p.crypto) := by
    rw [← checkValidatedCount_ok_iff]
    constructor
    · intro h
      obtain ⟨ph, txs', x, hx, h1, h2, h3, _⟩ := verifyBlockState_ok (Prod.ext h rfl)
      obtain rfl : txs' = txs := Option.some.inj (hx.transactions.symm.trans htxs)
      exact ⟨⟨ph, x, hx, h1, h2⟩, h3⟩
    · rintro ⟨⟨ph, x, hx, h1, h2⟩, h3⟩
      rw [hx.verifyBlockState_eq]
      exact checkAgainstHeader_ok_iff.mpr ⟨h1, h2, h3⟩
  have hall : (∀ tx ∈ txs.drop 1, hasFlashPrefix tx = true ∨ hasDidPrefix tx = true ∨
      verifyAccountTxSignature p.crypto tx = .ok ()) ↔
      (txs.drop 1).countP (badLegacy p.crypto) = 0 := by
    rw [countP_eq_zero]
    refine forall₂_congr fun tx _ => ?_
    have hpass : passes p.crypto tx = true ↔ verifyAccountTxSignature p.crypto tx = .ok () := by
      rw [passes]
      rcases verifyAccountTxSignature p.crypto tx with e | ⟨⟩ <;> simp [Except.toBool]
    rw [badLegacy, isAccountModel, ← hpass]
    cases hasFlashPrefix tx <;> cases hasDidPrefix tx <;> cases passes p.crypto tx <;> simp
  rw [hok, hall]
  constructor
  · intro h hr
    by_cases hle : (txs.drop 1).countP (badLegacy p.crypto) ≤ (txs.drop 1).countP
      (passingAccountModel p.crypto)
    · exact .inl (h ⟨hr, hle⟩)
    · exact .inr (Nat.lt_of_not_le hle)
  · rintro h ⟨hr, hle⟩
    exact (h hr).resolve_right (not_lt.mpr hle)

end Signatures

/-! ## 6. Two blocks

The processor, headers and transactions on which the results of this and the following modules are
tried. -/

/-- A processor with primitives that can be run, and no treasury. -/
def toyProcessor : VirtualProcessor where
  crypto := toyCrypto
  coinbaseManager := ⟨150, 204, 1, by decide, by decide⟩
  treasuryHex := ""
  networkPrefix := .mainnet
  genesisHash := .ofNat 1

def toyValidator : TransactionValidator := ⟨10, 10, 100, 100, 150⟩

def toyGenesis : Header := ⟨.ofNat 1, [], .empty, 0, 0, .empty⟩

def toyHeader (commitment : Hash) (daaScore blueScore : UInt64) : Header :=
  ⟨.ofNat 2, [.ofNat 1], commitment, daaScore, blueScore, .empty⟩

/-- A block on the genesis block, with the maps iterated as they are listed. -/
def toyContext (txs : List Transaction) : VerifyContext :=
  ⟨.ofNat 1, some toyGenesis, some txs, true, .empty, ⟨.asListed _ _, .asListed _ _⟩⟩

/-- A coinbase transaction that pays `subsidy` to `script`. -/
def toyCoinbase (blueScore subsidy : UInt64) (script : Bytes) : Transaction :=
  .new toyCrypto 0 [] [] 0 subnetworkIdCoinbase 0
    (u64Le blueScore ++ u64Le subsidy ++ u16Le 0 ++ [UInt8.ofNat script.length] ++ script)

def carrier (payload : Bytes) : Transaction := .new toyCrypto 0 [] [] 0 subnetworkIdNative 0 payload

/-- A legacy transaction with an input and the payload `01`: it has no signature at all. -/
def unsignedLegacy : Transaction :=
  .new toyCrypto 0 [⟨⟨.ofNat 7, 0⟩, [], 0, 0⟩] [] 0 subnetworkIdNative 0 [1]

/-- Primitives for long inputs: the hashes read 128 bytes, and a signature is accepted if it begins
    with the message. -/
def stampCrypto : Crypto where
  sponge := polySponge
  sha3 bytes := polyHash (bytes.take 128)
  sha256 bytes := polyHash (bytes.take 128)
  txId tx := polyHash ((u16Le tx.version ++ tx.payload).take 128)
  verify _ sig msg := sig.take 32 = msg

def stampProcessor : VirtualProcessor := { toyProcessor with crypto := stampCrypto }

/-- A sender with a key of the length of a Dilithium key, and a recipient. -/
def legacyKey : Bytes := List.replicate 1952 9

def legacyRecipient : ScriptPublicKey := ⟨0, [6]⟩

/-- The key and the nonce 1, and a transaction with a payload that pays `amount` for `gas`. -/
def signable : Bytes := legacyKey ++ u64Le 1

def pay (amount gas : UInt64) (payload : Bytes) : Transaction :=
  .new stampCrypto 0 [] [⟨amount, legacyRecipient⟩] 0 subnetworkIdNative gas payload

/-- The same, signed, and a block with it and a flash payload. -/
def signedPay (amount gas : UInt64) : Transaction :=
  pay amount gas (signable ++
    ((pay amount gas []).computeAccountTxSighash stampCrypto signable).bytes ++
    List.replicate 3277 0)

def signedBlock : List Transaction := [toyCoinbase 1 0 [], carrier magic, signedPay 10 0]

/-- A block with a flash payload, and one with an unsigned legacy transaction besides. -/
def flashBlock : List Transaction := [toyCoinbase 1 0 [], carrier magic]

def mixedBlock : List Transaction := flashBlock ++ [unsignedLegacy]

/-- **One flash payload pays for one unsigned transaction**: the block is accepted, also by the
    body checks. -/
theorem unsigned_legacy_accepted :
    (toyProcessor.verifyBlockState (toyContext mixedBlock) (toyHeader .empty 1 1) .empty).1 =
      .ok () ∧ checkTransactionsInIsolation toyCrypto toyValidator mixedBlock = .ok () ∧
      unsignedLegacy ∈ mixedBlock.drop 1 ∧
      hasFlashPrefix unsignedLegacy = false ∧ hasDidPrefix unsignedLegacy = false ∧
      verifyAccountTxSignature toyCrypto unsignedLegacy ≠ .ok () := by
  decide

theorem legacy_signatures_signed :
    (stampProcessor.verifyBlockState (toyContext signedBlock) (toyHeader .empty 1 1) .empty).1 =
      .ok () ∧ hasFlashPrefix (signedPay 10 0) = false ∧ hasDidPrefix (signedPay 10 0) = false ∧
      verifyAccountTxSignature stampCrypto (signedPay 10 0) = .ok () := by
  have hok :
      (stampProcessor.verifyBlockState (toyContext signedBlock) (toyHeader .empty 1 1) .empty).1 =
      .ok () := by decide +kernel
  have htxs : (toyContext signedBlock).transactions = some signedBlock := rfl
  have hflash : hasFlashPrefix (signedPay 10 0) = false := by decide +kernel
  have hdid : hasDidPrefix (signedPay 10 0) = false := by decide +kernel
  have hsigned :=
    (legacy_signatures_iff htxs).mpr (fun _ => .inl (by decide +kernel)) hok (signedPay 10 0)
    (mem_cons_of_mem _ (mem_singleton_self _))
  rw [hflash, hdid] at hsigned
  exact ⟨hok, hflash, hdid,
    (hsigned.resolve_left Bool.false_ne_true).resolve_left Bool.false_ne_true⟩

end Sahyadri.Pipeline
