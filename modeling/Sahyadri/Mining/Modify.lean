import Sahyadri.Core.FlashCodec
import Sahyadri.Core.Header
import Sahyadri.Pipeline.Isolation

/-!
# `modify_block_template`: a cached template for another miner

The coinbase payload is replaced and the header gets a new time and hash. The two roots of the
header that depend on the payload stay as they were.

* `modified_roots_iff`: they match after the change exactly if the payload is the same, or if the
  hashes collide. `stale_roots`: a template for another miner.
-/

namespace Sahyadri.Mining

open Lib Smt Core Pipeline List Run

/-! ## 1. The payload -/

/-- The script and the extra data as they stand in a payload. -/
def encodeMinerData (minerData : MinerData) : Bytes :=
  u16Le minerData.scriptPublicKey.version ++ (UInt8.ofNat minerData.scriptPublicKey.script.length ::
      (minerData.scriptPublicKey.script ++ minerData.extraData))

variable (m : CoinbaseManager)

/-- `modify_coinbase_payload`: only blue score and subsidy are kept. -/
def modifyCoinbasePayload (payload : Bytes) (minerData : MinerData) :
    Except CoinbaseError Bytes :=
  if minerData.scriptPublicKey.script.length > m.coinbasePayloadScriptPublicKeyMaxLen.toNat then
    .error (.payloadScriptPublicKeyLenAboveMax minerData.scriptPublicKey.script.length
      m.coinbasePayloadScriptPublicKeyMaxLen)
  else .ok (payload.take (8 + 8) ++ encodeMinerData minerData)

/-- `PayloadParser::take`: `split_at` panics past the end. -/
def takeBytes (n : Nat) (remaining : Bytes) : Run CoinbaseError (Bytes × Bytes) :=
  if n ≤ remaining.length then .ok (remaining.take n, remaining.drop n) else .panicked

/-- `deserialize_coinbase_payload`, with the parser. -/
def parseCoinbasePayload (payload : Bytes) : Run CoinbaseError CoinbaseData :=
  if payload.length < minPayloadLength then
    .fail (.payloadLenBelowMin payload.length minPayloadLength)
  else if payload.length > m.maxCoinbasePayloadLen then
    .fail (.payloadLenAboveMax payload.length m.maxCoinbasePayloadLen)
  else do
    let (blueScore, remaining) ← takeBytes 8 payload
    let (subsidy, remaining) ← takeBytes 8 remaining
    let (version, remaining) ← takeBytes 2 remaining
    let (scriptLen, remaining) ← takeBytes 1 remaining
    let scriptLen := scriptLen.headD 0
    if scriptLen > m.coinbasePayloadScriptPublicKeyMaxLen then
      .fail
        (.payloadScriptPublicKeyLenAboveMax scriptLen.toNat m.coinbasePayloadScriptPublicKeyMaxLen)
    else if remaining.length < scriptLen.toNat then
      .fail (.payloadCantContainScriptPublicKey payload.length (minPayloadLength + scriptLen.toNat))
    else do
      let (script, extraData) ← takeBytes scriptLen.toNat remaining
      return ⟨ofU64Le blueScore, ofU64Le subsidy, ⟨ofU16Le version, script⟩, extraData⟩

def serializeCoinbasePayload (data : CoinbaseData) : Except CoinbaseError Bytes :=
  if data.minerData.scriptPublicKey.script.length >
    m.coinbasePayloadScriptPublicKeyMaxLen.toNat then
    .error (.payloadScriptPublicKeyLenAboveMax data.minerData.scriptPublicKey.script.length
      m.coinbasePayloadScriptPublicKeyMaxLen)
  else .ok (u64Le data.blueScore ++ (u64Le data.subsidy ++ encodeMinerData data.minerData))

section Payload

variable {m : CoinbaseManager} {payload : Bytes} {data : CoinbaseData}

/-- The checks make every `take` of the parser fit. -/
theorem parseCoinbasePayload_eq : parseCoinbasePayload m payload =
    (m.deserializeCoinbasePayload payload).mapError .err := by
  unfold parseCoinbasePayload CoinbaseManager.deserializeCoinbasePayload
  split
  · rfl
  rename_i hmin
  have hmin : 19 ≤ payload.length := Nat.le_of_not_lt hmin
  split
  · rfl
  have htake : ∀ k n, k + n ≤ payload.length → takeBytes n (payload.drop k) =
      .ok ((payload.drop k).take n, payload.drop (k + n)) := fun k n h => by
    rw [takeBytes, if_pos (by rw [length_drop]; omega), drop_drop]
  have hhead : ((payload.drop 18).take 1).headD 0 = (payload.drop 18).headD 0 := by
    cases payload.drop 18 <;> rfl
  simp only [show takeBytes 8 payload = _ from htake 0 8 (by omega), htake 8 8 (by omega),
    htake 16 2 (by omega), htake 18 1 (by omega), ok_bind, hhead]
  split
  · rfl
  split
  · rfl
  rename_i hscript
  rw [takeBytes, if_pos (Nat.le_of_not_lt hscript)]
  rfl

theorem takeBytes_bind {n : Nat} {bytes : Bytes}
    {f : Bytes × Bytes → Run CoinbaseError CoinbaseData} : (takeBytes n bytes >>= f) = .ok data ↔
      ∃ a b, bytes = a ++ b ∧ a.length = n ∧ f (a, b) = .ok data := by
  rw [takeBytes]
  split
  · rename_i h
    constructor
    · exact fun hf => ⟨_, _, (take_append_drop n bytes).symm, length_take_of_le h, hf⟩
    · rintro ⟨a, b, rfl, rfl, hf⟩
      rwa [take_left, drop_left]
  · refine iff_of_false (by rintro ⟨⟩) ?_
    rintro ⟨a, b, rfl, rfl, -⟩
    simp at *

theorem serializeCoinbasePayload_eq_ok : serializeCoinbasePayload m data = .ok payload ↔
    data.minerData.scriptPublicKey.script.length ≤ m.coinbasePayloadScriptPublicKeyMaxLen.toNat ∧
      u64Le data.blueScore ++ (u64Le data.subsidy ++ encodeMinerData data.minerData) = payload := by
  rw [serializeCoinbasePayload, ← not_lt]
  split <;> simp [*]

/-- **What a payload is decoded to stands in it**, and nothing else does. -/
theorem parseCoinbasePayload_iff : parseCoinbasePayload m payload = .ok data ↔
    serializeCoinbasePayload m data = .ok payload ∧ payload.length ≤ m.maxCoinbasePayloadLen := by
  have hmax := UInt8.toNat_lt m.coinbasePayloadScriptPublicKeyMaxLen
  have hite :
      ∀ {c : Prop} [Decidable c] {e : Fault CoinbaseError} {x : Run CoinbaseError CoinbaseData},
      (if c then .error e else x) = .ok data ↔ ¬ c ∧ x = .ok data :=
    fun {c _ e x} => by split <;> simp [*]
  simp only [parseCoinbasePayload, serializeCoinbasePayload_eq_ok, hite, takeBytes_bind,
    encodeMinerData]
  constructor
  · rintro ⟨-, hlen, b, _, rfl, hb, s, _, rfl, hs, v, _, rfl, hv, l, _, rfl, hl, hn, -, script,
      extra, rfl, hscript, h⟩
    obtain ⟨n, rfl⟩ := length_eq_one_iff.mp hl
    cases h
    refine ⟨⟨?_, ?_⟩, Nat.le_of_not_lt hlen⟩
    · rw [hscript]
      exact UInt8.le_iff_toNat_le.mp (UInt8.not_lt.mp hn)
    · rw [u64Le_ofU64Le hb, u64Le_ofU64Le hs, u16Le_ofU16Le hv, hscript, headD_cons,
        UInt8.ofNat_toNat, singleton_append]
  · rintro ⟨⟨hfits, rfl⟩, hlen⟩
    have hscript := UInt8.toNat_ofNat_of_lt' (lt_of_le_of_lt hfits hmax)
    refine ⟨by simp [minPayloadLength]; omega, not_lt.mpr hlen, _, _, rfl, length_u64Le _, _, _,
      rfl, length_u64Le _, _, _, rfl, length_u16Le _, [_], _, rfl, rfl, ?_, ?_, _, _, rfl, ?_, ?_⟩
    · rwa [headD_cons, UInt8.not_lt, UInt8.le_iff_toNat_le, hscript]
    · simp [hscript]
    · rw [headD_cons, hscript]
    · rw [ofU64Le_u64Le, ofU64Le_u64Le, ofU16Le_u16Le]
      rfl

/-- **Payloads and their data**: what is written is read, a payload is that of its data, and new
    miner data change only these. -/
theorem coinbase_payload_round_trip (m : CoinbaseManager) : (∀ data : CoinbaseData,
      data.minerData.scriptPublicKey.script.length ≤ m.coinbasePayloadScriptPublicKeyMaxLen.toNat →
      ∃ payload, serializeCoinbasePayload m data = .ok payload ∧
        (payload.length ≤ m.maxCoinbasePayloadLen → parseCoinbasePayload m payload = .ok data)) ∧
    (∀ payload data, parseCoinbasePayload m payload = .ok data →
      serializeCoinbasePayload m data = .ok payload ∧ ∀ minerData : MinerData,
      minerData.scriptPublicKey.script.length ≤ m.coinbasePayloadScriptPublicKeyMaxLen.toNat →
        ∃ modified, modifyCoinbasePayload m payload minerData = .ok modified ∧
          (modified.length ≤ m.maxCoinbasePayloadLen →
            parseCoinbasePayload m modified = .ok { data with minerData })) ∧
    ∀ payload, parseCoinbasePayload m payload ≠ .panicked := by
  refine ⟨fun data hfits => ?_, fun payload data h => ?_, fun payload h => ?_⟩
  · have hpayload := serializeCoinbasePayload_eq_ok.mpr ⟨hfits, rfl⟩
    exact ⟨_, hpayload, fun hlen => parseCoinbasePayload_iff.mpr ⟨hpayload, hlen⟩⟩
  · have hpayload := (parseCoinbasePayload_iff.mp h).1
    refine ⟨hpayload, fun minerData hfits => ⟨_, if_neg (not_lt.mpr hfits), fun hlen => ?_⟩⟩
    obtain ⟨-, rfl⟩ := serializeCoinbasePayload_eq_ok.mp hpayload
    refine parseCoinbasePayload_iff.mpr ⟨serializeCoinbasePayload_eq_ok.mpr ⟨hfits, ?_⟩, hlen⟩
    rw [← append_assoc, ← append_assoc, take_left' (by simp)]
  · rw [parseCoinbasePayload_eq] at h
    cases hx : m.deserializeCoinbasePayload payload <;> rw [hx] at h <;> cases h

/-- Behind the first 16 bytes of a payload stand its miner data, and no others that fit. -/
theorem drop_of_deserialize (h : m.deserializeCoinbasePayload payload = .ok data)
    {minerData : MinerData} (hfits : minerData.scriptPublicKey.script.length ≤
      m.coinbasePayloadScriptPublicKeyMaxLen.toNat) :
    encodeMinerData minerData = payload.drop 16 ↔ minerData = data.minerData := by
  have hparse : parseCoinbasePayload m payload = .ok data := by
    rw [parseCoinbasePayload_eq, h]
    rfl
  obtain ⟨hserialize, hlen⟩ := parseCoinbasePayload_iff.mp hparse
  obtain ⟨-, rfl⟩ := serializeCoinbasePayload_eq_ok.mp hserialize
  rw [← append_assoc, drop_left' (by simp)]
  refine ⟨fun he => ?_, fun he => by rw [he]⟩
  have hother : parseCoinbasePayload m _ = .ok { data with minerData } :=
    parseCoinbasePayload_iff.mpr ⟨serializeCoinbasePayload_eq_ok.mpr ⟨hfits, by rw [he]⟩, hlen⟩
  exact congrArg CoinbaseData.minerData (Except.ok.inj (hother.symm.trans hparse))

end Payload

/-! ## 2. The template -/

/-- `BlockTemplate`: its block and the miner. -/
structure BlockTemplate where
  header : Core.Header
  transactions : List Transaction
  minerData : MinerData

def finalize {ε : Type} (blockHash : Bytes → Hash) (header : Core.Header) : Run ε Core.Header := do
  let hash ← header.hashOverrideNonceTime blockHash header.nonce header.timestamp
  .ok { header with hash }

/-- `modify_block_template`, with the two answers of `unix_now`. -/
def modifyBlockTemplate (blockHash : Bytes → Hash) (m : CoinbaseManager) (now now' : UInt64)
    (newMinerData : MinerData) (template : BlockTemplate) : Run CoinbaseError BlockTemplate :=
  match template.transactions with
  | [] => .panicked
  | coinbase :: rest =>
    match modifyCoinbasePayload m coinbase.payload newMinerData with
    | .error e => .fail e
    | .ok newPayload => do
      let timestamp := max template.header.timestamp now
      let timestamp := if now' > timestamp then now' else timestamp
      let header ← finalize blockHash { template.header with timestamp }
      return ⟨header, { coinbase with payload := newPayload } :: rest, newMinerData⟩

/-- The fields of a header that the body checks read. -/
def bodyHeader (header : Core.Header) : Pipeline.Header :=
  ⟨header.hash, header.parents, header.accountCommitment, header.daaScore, header.blueScore,
    header.pruningPoint⟩

def BlockTemplate.block (template : BlockTemplate) : Block :=
  ⟨bodyHeader template.header, template.transactions⟩

/-! ## 3. The two roots -/

section Roots

variable (B : BlockBodyProcessor) (p : VirtualProcessor) (st : Stores) (ord : Orders)
  (parentRoot : H256)

def calcHashMerkleRoot (txs : List Transaction) : Hash :=
  calcMerkleRoot B.merkleHash (txs.map B.txHash)

/-- The account root after the transactions is the given one. -/
def HasAccountRoot (daaScore : UInt64) (txs : List Transaction) (root : H256) : Prop :=
  ∃ x, p.computeBlockState st ord parentRoot txs daaScore = .ok x ∧ x.root = root

/-- The roots of the header are those of the transactions. -/
structure RootsMatch (t : BlockTemplate) : Prop where
  merkle : t.header.hashMerkleRoot = calcHashMerkleRoot B t.transactions
  commitment :
    HasAccountRoot p st ord parentRoot t.header.daaScore t.transactions t.header.accountCommitment

/-- Other transactions with the same two roots. -/
structure Collide (daaScore : UInt64) (txs txs' : List Transaction) : Prop where
  other : txs' ≠ txs
  merkle : calcHashMerkleRoot B txs' = calcHashMerkleRoot B txs
  commitment : ∃ root, HasAccountRoot p st ord parentRoot daaScore txs root ∧
    HasAccountRoot p st ord parentRoot daaScore txs' root

variable {B p st ord parentRoot}
  {blockHash : Bytes → Hash} {m : CoinbaseManager} {minerData : MinerData}
  {t : BlockTemplate} {coinbase : Transaction} {data : CoinbaseData} {mass : Mass}

theorem checks_merkle (h : B.validateBodyInIsolation t.header.hashMerkleRoot t.block = .ok mass) :
    t.header.hashMerkleRoot = calcHashMerkleRoot B t.transactions ∧ t.transactions ≠ [] := by
  obtain ⟨_, hsome, h⟩ := bind_eq_ok.mp h
  obtain ⟨_, hroot, _⟩ := bind_eq_ok.mp h
  constructor
  · unfold BlockBodyProcessor.checkHashMerkleRoot at hroot
    dsimp only at hroot
    split at hroot
    · cases hroot
    · rename_i heq
      exact (not_not.mp heq).symm
  · intro hnil
    have : t.block.transactions = [] := hnil
    rw [checkHasTransactions, this] at hsome
    cases hsome

/-- **What the function returns**: the roots of the old header over the new coinbase. -/
theorem modifyBlockTemplate_ok {rest : List Transaction} (now now' : UInt64)
    (htxs : t.transactions = coinbase :: rest)
    (hfinal : (finalize blockHash t.header : Run CoinbaseError _) = .ok t.header)
    (hfits : minerData.scriptPublicKey.script.length ≤
      m.coinbasePayloadScriptPublicKeyMaxLen.toNat) :
    ∃ t', modifyBlockTemplate blockHash m now now' minerData t = .ok t' ∧
      t'.header.hashMerkleRoot = t.header.hashMerkleRoot ∧
      t'.header.accountCommitment = t.header.accountCommitment ∧
      t'.header.daaScore = t.header.daaScore ∧ t'.transactions = { coinbase with
        payload := coinbase.payload.take 16 ++ encodeMinerData minerData } :: rest := by
  obtain ⟨hash, hhash, -⟩ := bind_eq_ok.mp hfinal
  obtain ⟨levels, hlevels, -⟩ := bind_eq_ok.mp hhash
  rw [modifyBlockTemplate, htxs]
  dsimp only
  rw [modifyCoinbasePayload, if_neg (not_lt.mpr hfits)]
  rw [finalize, Header.hashOverrideNonceTime]
  rw [hlevels, ok_bind, ok_bind]
  exact ⟨_, rfl, rfl, rfl, rfl, rfl⟩

/-- Under the old header, other transactions have the right roots exactly if they collide with the
    old. -/
theorem rootsMatch_iff {t' : BlockTemplate}
    (hmerkle : t.header.hashMerkleRoot = calcHashMerkleRoot B t.transactions)
    (hroot : HasAccountRoot p st ord parentRoot t.header.daaScore t.transactions
      t.header.accountCommitment) (hm : t'.header.hashMerkleRoot = t.header.hashMerkleRoot)
    (hc : t'.header.accountCommitment = t.header.accountCommitment)
    (hd : t'.header.daaScore = t.header.daaScore) :
    RootsMatch B p st ord parentRoot t' ↔ t'.transactions = t.transactions ∨
      Collide B p st ord parentRoot t.header.daaScore t.transactions t'.transactions := by
  refine ⟨fun h => ?_, fun h => ?_⟩
  · by_cases heq : t'.transactions = t.transactions
    · exact .inl heq
    · refine .inr ⟨heq, h.merkle.symm.trans (hm.trans hmerkle), _, hroot, ?_⟩
      rw [← hd, ← hc]
      exact h.commitment
  · rcases h with heq | hcollide
    · refine ⟨?_, ?_⟩
      · rw [hm, heq, hmerkle]
      · rw [hd, hc, heq]
        exact hroot
    · refine ⟨hm.trans (hmerkle.trans hcollide.merkle.symm), ?_⟩
      obtain ⟨root, ⟨x, hx, hxr⟩, hroot'⟩ := hcollide.commitment
      obtain ⟨y, hy, hyr⟩ := hroot
      cases hx.symm.trans hy
      rw [hd, hc, ← hyr, hxr]
      exact hroot'

/-- A new coinbase payload is the old one exactly for the old miner data. -/
theorem coinbase_kept_iff (rest : List Transaction)
    (hdata : m.deserializeCoinbasePayload coinbase.payload = .ok data) (hfits :
      minerData.scriptPublicKey.script.length ≤ m.coinbasePayloadScriptPublicKeyMaxLen.toNat) :
    { coinbase with payload := coinbase.payload.take 16 ++ encodeMinerData minerData } :: rest =
      coinbase :: rest ↔ minerData = data.minerData := by
  rw [← drop_of_deserialize hdata hfits]
  constructor
  · intro heq
    have hpayload := congrArg Transaction.payload (cons.inj heq).1
    exact append_cancel_left (hpayload.trans (take_append_drop 16 coinbase.payload).symm)
  · intro heq
    rw [heq, take_append_drop]

variable (blockHash m minerData) (now now' : UInt64)
  (hbody : B.validateBodyInIsolation t.header.hashMerkleRoot t.block = .ok mass) (hroot :
  HasAccountRoot p st ord parentRoot t.header.daaScore t.transactions t.header.accountCommitment)
  (hfinal : (finalize blockHash t.header : Run CoinbaseError _) = .ok t.header)
  (hfits : minerData.scriptPublicKey.script.length ≤ m.coinbasePayloadScriptPublicKeyMaxLen.toNat)

include hbody hroot hfinal hfits

/-- **A template for new miner data keeps its roots right** exactly if its transactions stay the
    same, which means the same miner data, or if the hashes collide. -/
theorem modified_roots_iff : ∃ t', modifyBlockTemplate blockHash m now now' minerData t = .ok t' ∧
      (RootsMatch B p st ord parentRoot t' ↔ t'.transactions = t.transactions ∨
        Collide B p st ord parentRoot t.header.daaScore t.transactions t'.transactions) ∧
      ∀ coinbase data, t.transactions.head? = some coinbase →
      m.deserializeCoinbasePayload coinbase.payload = .ok data →
        (t'.transactions = t.transactions ↔ minerData = data.minerData) := by
  obtain ⟨hmerkle, hne⟩ := checks_merkle hbody
  obtain ⟨coinbase, rest, htxs⟩ := exists_cons_of_ne_nil hne
  obtain ⟨t', hok, hm, hc, hd, htxs'⟩ := modifyBlockTemplate_ok now now' htxs hfinal hfits
  refine ⟨t', hok, rootsMatch_iff hmerkle hroot hm hc hd, fun coinbase' data hhead hdata => ?_⟩
  rw [htxs] at hhead
  cases hhead
  rw [htxs', htxs, coinbase_kept_iff rest hdata hfits]

/-- **Where no transactions collide with those of the template**, only the old miner data keep the
    roots right. -/
theorem modified_roots_iff_same_miner
    (hno : ∀ txs, ¬ Collide B p st ord parentRoot t.header.daaScore t.transactions txs)
    (hhead : t.transactions.head? = some coinbase)
    (hdata : m.deserializeCoinbasePayload coinbase.payload = .ok data) :
    ∃ t', modifyBlockTemplate blockHash m now now' minerData t = .ok t' ∧
      (RootsMatch B p st ord parentRoot t' ↔ minerData = data.minerData) := by
  obtain ⟨rest, htxs⟩ := head?_eq_some_iff.mp hhead
  obtain ⟨t', hok, hm, hc, hd, htxs'⟩ := modifyBlockTemplate_ok now now' htxs hfinal hfits
  refine ⟨t', hok, ?_⟩
  rw [rootsMatch_iff (checks_merkle hbody).1 hroot hm hc hd, or_iff_left (hno _), htxs', htxs,
    coinbase_kept_iff rest hdata hfits]

end Roots

/-! ## 4. Another miner -/

def listed : Orders := ⟨.asListed _ _, .asListed _ _⟩

def toyRoot (txs : List Transaction) : H256 :=
  match toyProcessor.computeBlockState .empty listed .empty txs 1 with
  | .ok x => x.root
  | .error _ => .empty

theorem hasAccountRoot_iff {txs : List Transaction}
    (h : (toyProcessor.computeBlockState .empty listed .empty txs 1).isOk = true) (root : H256) :
    HasAccountRoot toyProcessor .empty listed .empty 1 txs root ↔ toyRoot txs = root := by
  obtain ⟨x, hx⟩ := exists_ok_of_isOk h
  rw [HasAccountRoot, toyRoot, hx]
  refine ⟨fun ⟨y, hy, hr⟩ => ?_, fun hr => ⟨x, rfl, hr⟩⟩
  cases hy
  exact hr

/-- The template of a block on the genesis block that pays 100 to `script`. -/
def minerTemplate (script : Bytes) : BlockTemplate where
  header :=
    { hash := .empty, version := 1, parentsByLevel := ⟨[]⟩, hashMerkleRoot :=
      calcHashMerkleRoot toyBodies [toyCoinbase 1 100 script], acceptedIdMerkleRoot := .empty,
      accountCommitment := toyRoot [toyCoinbase 1 100 script], timestamp := 5, bits := 0, nonce :=
      0, daaScore := 1, blueWork := 0, blueScore := 1, pruningPoint := .empty }
  transactions := [toyCoinbase 1 100 script]
  minerData := ⟨⟨0, script⟩, []⟩

theorem minerTemplate_valid : (∃ mass, toyBodies.validateBodyInIsolation
      (minerTemplate [1]).header.hashMerkleRoot (minerTemplate [1]).block = .ok mass) ∧
        HasAccountRoot toyProcessor .empty listed .empty 1 (minerTemplate [1]).transactions
      (minerTemplate [1]).header.accountCommitment :=
  ⟨exists_ok_of_isOk (by decide), (hasAccountRoot_iff (by decide +kernel) _).mpr rfl⟩

theorem same_miner_roots :
    ∃ t', modifyBlockTemplate (fun _ => .empty) toyProcessor.coinbaseManager 6 7 ⟨⟨0, [1]⟩, []⟩
    (minerTemplate [1]) = .ok t' ∧ RootsMatch toyBodies toyProcessor .empty listed .empty t' := by
  obtain ⟨⟨mass, hbody⟩, hroot⟩ := minerTemplate_valid
  obtain ⟨t', hok, hiff, hsame⟩ := modified_roots_iff (fun _ => .empty) toyProcessor.coinbaseManager
    ⟨⟨0, [1]⟩, []⟩ 6 7 hbody hroot rfl (by decide)
  exact ⟨t', hok, hiff.mpr (.inl ((hsame _ _ rfl rfl).mpr rfl))⟩

/-- **The template for another miner has the roots of the first one.** -/
theorem stale_roots : (∃ mass, toyBodies.validateBodyInIsolation
      (minerTemplate [1]).header.hashMerkleRoot (minerTemplate [1]).block = .ok mass) ∧
        HasAccountRoot toyProcessor .empty listed .empty 1 (minerTemplate [1]).transactions
      (minerTemplate [1]).header.accountCommitment ∧
    ∃ t', modifyBlockTemplate (fun _ => .empty) toyProcessor.coinbaseManager 6 7 ⟨⟨0, [2]⟩, []⟩
        (minerTemplate [1]) = .ok t' ∧
        t'.header.hashMerkleRoot ≠ calcHashMerkleRoot toyBodies t'.transactions ∧ ¬ HasAccountRoot
          toyProcessor .empty listed .empty 1 t'.transactions t'.header.accountCommitment := by
  refine ⟨minerTemplate_valid.1, minerTemplate_valid.2, _, rfl, by decide, ?_⟩
  rw [hasAccountRoot_iff (by decide +kernel)]
  decide +kernel

end Sahyadri.Mining
