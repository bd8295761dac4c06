import Sahyadri.Smt.Hash

/-!
# `consensus/core`: transactions and flash transactions

* `ScriptPublicKey`, `Transaction`: the fields the modelled code reads.
-/

namespace Sahyadri.Core

open Lib Smt List Option

/-! ## 1. Transactions -/

/-- `sahyadri_hashes::Hash`: 32 bytes, as `H256`. -/
abbrev Hash := H256

abbrev Hash.default : Hash := H256.empty

/-- `u16::to_le_bytes`. -/
def u16Le (x : UInt16) : Bytes := leBytes 2 x.toNat

@[simp] theorem length_u16Le (x : UInt16) : (u16Le x).length = 2 := length_leBytes 2 _

theorem u16Le_inj {x y : UInt16} (h : u16Le x = u16Le y) : x = y := by
  have hx := x.toNat_lt
  have hy := y.toNat_lt
  exact UInt16.toNat_inj.mp (leBytes_inj (by omega) (by omega) h)

/-- `u16::from_le_bytes` on two bytes. -/
def ofU16Le (bs : Bytes) : UInt16 := UInt16.ofNat (ofLe bs)

@[simp] theorem ofU16Le_u16Le (x : UInt16) : ofU16Le (u16Le x) = x := by
  have hx := x.toNat_lt
  apply UInt16.toNat_inj.mp
  rw [ofU16Le, u16Le, ofLe_leBytes_of_lt (by omega), UInt16.toNat_ofNat']
  omega

theorem u16Le_ofU16Le {bs : Bytes} (h : bs.length = 2) : u16Le (ofU16Le bs) = bs := by
  have hlt := ofLe_lt bs
  rw [h] at hlt
  rw [u16Le, ofU16Le, UInt16.toNat_ofNat_of_lt' hlt, ← h, leBytes_ofLe]

/-- `(n as u32).to_le_bytes()`. -/
def u32Le (n : Nat) : Bytes := leBytes 4 n

@[simp] theorem length_u32Le (n : Nat) : (u32Le n).length = 4 := length_leBytes 4 _

structure ScriptPublicKey where
  version : UInt16
  script : Bytes
  deriving DecidableEq, Repr

structure SubnetworkId where
  bytes : Bytes
  length_eq : bytes.length = 20
  deriving DecidableEq, Repr

def SubnetworkId.fromByte (b : UInt8) : SubnetworkId :=
  ⟨b :: List.replicate 19 0, by rw [length_cons, length_replicate]⟩

def subnetworkIdNative : SubnetworkId := .fromByte 0

def subnetworkIdCoinbase : SubnetworkId := .fromByte 1

/-- `RegistryRef`: an output by the transaction that made it. -/
structure RegistryRef where
  transactionId : Hash
  index : Nat
  deriving DecidableEq, Repr

structure TransactionInput where
  previousOutpoint : RegistryRef
  signatureScript : Bytes
  sequence : UInt64
  sigOpCount : UInt8
  deriving DecidableEq, Repr

structure TransactionOutput where
  value : UInt64
  scriptPublicKey : ScriptPublicKey
  deriving DecidableEq, Repr

/-- A transaction, with its cached id. -/
structure Transaction where
  version : UInt16
  inputs : List TransactionInput
  outputs : List TransactionOutput
  lockTime : UInt64
  subnetworkId : SubnetworkId
  gas : UInt64
  payload : Bytes
  mass : UInt64
  id : Hash
  deriving DecidableEq, Repr

def Transaction.isCoinbase (tx : Transaction) : Bool := tx.subnetworkId = subnetworkIdCoinbase

abbrev Verifier := Bytes → Bytes → Bytes → Bool

/-- The primitives the node calls. -/
structure Crypto where
  sponge : Sponge
  sha3 : Bytes → Hash
  sha256 : Bytes → Hash
  /-- `hashing::tx::id`; the cached id is not hashed. -/
  txId : Transaction → Hash
  /-- `DilithiumKeyPair::verify pk sig msg` with the empty context and the node's mode. -/
  verify : Verifier

/-- A polynomial of the bytes, as 32 bytes: a hash that can be run on concrete inputs. -/
def polyHash (bytes : Bytes) : Hash :=
  .ofNat (bytes.foldl (fun h b => (h * 65537 + b.toNat + 1) % (2 ^ 255 - 19)) 1)

/-- Primitives that can be run on concrete inputs; a signature is accepted if it repeats the
    message. -/
def toyCrypto : Crypto where
  sponge := polySponge
  sha3 := polyHash
  sha256 := polyHash
  txId tx := polyHash (u16Le tx.version ++ tx.payload)
  verify _ sig msg := sig = msg

section Sighash

variable (c : Crypto)

def TransactionOutput.sighashBytes (out : TransactionOutput) : Bytes :=
  u64Le out.value ++ u16Le out.scriptPublicKey.version ++
    leBytes 8 out.scriptPublicKey.script.length ++ out.scriptPublicKey.script

def Transaction.computeAccountTxSighash (tx : Transaction) (signablePayload : Bytes) : Hash :=
  c.sha256 (ascii "SAHYADRI_ACCOUNT_TX_V1" ++ u16Le tx.version ++
    tx.outputs.flatMap TransactionOutput.sighashBytes ++ u64Le tx.lockTime ++
    tx.subnetworkId.bytes ++ u64Le tx.gas ++ leBytes 8 signablePayload.length ++ signablePayload)

/-- `Transaction::new`: mass 0, and the id of the finished transaction. -/
def Transaction.new (version : UInt16) (inputs : List TransactionInput)
    (outputs : List TransactionOutput) (lockTime : UInt64) (subnetworkId : SubnetworkId)
    (gas : UInt64) (payload : Bytes) : Transaction :=
  let tx : Transaction :=
    ⟨version, inputs, outputs, lockTime, subnetworkId, gas, payload, 0, Hash.default⟩
  { tx with id := c.txId tx }

end Sighash

/-! ## 2. Flash transactions -/

structure FlashTransaction where
  version : UInt16
  pubkey : Bytes
  recipient : Bytes
  amount : UInt64
  fee : UInt64
  expiryDaaScore : UInt64
  salt : Bytes
  signature : Bytes
  salt_length : salt.length = 16
  deriving DecidableEq, Repr

namespace FlashTransaction

variable (tx : FlashTransaction)

def signedBytes : Bytes :=
  u16Le tx.version ++ tx.pubkey ++ tx.recipient ++ u64Le tx.amount ++ u64Le tx.fee ++ u64Le
    tx.expiryDaaScore ++ tx.salt

/-- The signed bytes fix the expiry: it stands at a fixed distance from their end. -/
theorem expiry_of_signedBytes {f g : FlashTransaction} (h : f.signedBytes = g.signedBytes) :
    f.expiryDaaScore = g.expiryDaaScore := by
  obtain ⟨h, _⟩ := append_inj' h (by rw [f.salt_length, g.salt_length])
  exact u64Le_inj (append_inj' h (by rw [length_u64Le, length_u64Le])).2

variable (c : Crypto) (tx : FlashTransaction)

def flashId : Hash := c.sha3 (ascii "SAHYADRI_FLASH_ID_V1" ++ tx.signedBytes)

def sighash : Hash := c.sha3 (ascii "SAHYADRI_FLASH_TX_V1" ++ tx.signedBytes)

def magic : Bytes := ascii "FLASH_V1"

/-- The payload of `to_transaction`. -/
def payload : Bytes :=
  magic ++ u16Le tx.version ++ u32Le tx.pubkey.length ++ tx.pubkey ++ u32Le tx.recipient.length ++
    tx.recipient ++ u64Le tx.amount ++ u64Le tx.fee ++ u64Le tx.expiryDaaScore ++ tx.salt ++
    u32Le tx.signature.length ++ tx.signature

def toTransaction : Transaction :=
  .new c 0 [] [] 0 subnetworkIdNative 0 tx.payload

/-- A `u32` length and that many bytes. -/
def readBytes (p : Bytes) : Option (Bytes × Bytes) := do
  let (len, p) ← readN 4 p
  readN (ofLe len) p

/-- `from_transaction`, on the payload. The code moves an offset; here `p` is what is left. -/
def decode (p : Bytes) : Option FlashTransaction := do
  let (magic', p) ← readN 8 p
  if magic' ≠ magic then none
  else
    let (version, p) ← readN 2 p
    let (pubkey, p) ← readBytes p
    let (recipient, p) ← readBytes p
    let (amount, p) ← readN 8 p
    let (fee, p) ← readN 8 p
    let (expiry, p) ← readN 8 p
    match hs : readN 16 p with
    | none => none
    | some (salt, p) =>
      let (signature, _) ← readBytes p
      return ⟨ofU16Le version, pubkey, recipient, ofU64Le amount, ofU64Le fee, ofU64Le expiry, salt,
        signature, (readN_eq_some hs).2⟩

def fromTransaction (tx : Transaction) : Option FlashTransaction := decode tx.payload

/-- The lengths that `to_transaction` writes as `u32` fit. -/
def Encodable : Prop :=
  tx.pubkey.length < 2 ^ 32 ∧ tx.recipient.length < 2 ^ 32 ∧ tx.signature.length < 2 ^ 32

theorem readBytes_append {bs : Bytes} (h : bs.length < 2 ^ 32) (rest : Bytes) :
    readBytes (u32Le bs.length ++ (bs ++ rest)) = some (bs, rest) := by
  show readN (ofLe (u32Le bs.length)) (bs ++ rest) = _
  rw [u32Le, ofLe_leBytes_of_lt (by omega)]
  exact readN_append rfl rest

/-- **A flash is decoded from its payload, whatever follows it.** -/
theorem decode_payload (h : tx.Encodable) (rest : Bytes) :
    decode (tx.payload ++ rest) = some tx := by
  obtain ⟨h1, h2, h3⟩ := h
  simp only [payload, append_assoc]
  unfold decode
  rw [readN_append (by decide)]
  simp only [bind_eq_bind, bind_some, ne_eq, not_true_eq_false, if_false]
  rw [readN_append (length_u16Le _)]
  simp only [bind_some]
  rw [readBytes_append h1]
  simp only [bind_some]
  rw [readBytes_append h2]
  simp only [bind_some]
  rw [readN_append (length_u64Le _)]
  simp only [bind_some]
  rw [readN_append (length_u64Le _)]
  simp only [bind_some]
  rw [readN_append (length_u64Le _)]
  simp only [bind_some]
  split
  · rename_i hs
    rw [readN_append tx.salt_length] at hs
    cases hs
  · rename_i salt p hs
    rw [readN_append tx.salt_length] at hs
    cases hs
    rw [readBytes_append h3]
    simp

theorem fromTransaction_toTransaction (h : tx.Encodable) :
    fromTransaction (tx.toTransaction c) = some tx := by
  have := decode_payload tx h []
  rwa [append_nil] at this

end FlashTransaction

/-! ## 3. What a transaction weighs -/

/-- `u64::max`. -/
def u64Max (a b : UInt64) : UInt64 := if a < b then b else a

structure NonContextualMasses where
  computeMass : UInt64
  transientMass : UInt64
  deriving DecidableEq, Repr

def NonContextualMasses.max (m : NonContextualMasses) : UInt64 :=
  u64Max m.computeMass m.transientMass

/-- `ContextualMasses::max`. -/
def contextualMax (storageMass : UInt64) (m : NonContextualMasses) : UInt64 :=
  u64Max storageMass m.max

/-- `transaction_input_estimated_serialized_size`. -/
def transactionInputEstimatedSerializedSize (input : TransactionInput) : UInt64 :=
  (32 + 4) + 8 + UInt64.ofNat input.signatureScript.length + 8

/-- `transaction_output_estimated_serialized_size`. -/
def transactionOutputEstimatedSerializedSize (output : TransactionOutput) : UInt64 :=
  8 + 2 + 8 + UInt64.ofNat output.scriptPublicKey.script.length

/-- `Iterator::sum` at `u64`. -/
def wrappingSum (ns : List UInt64) : UInt64 := ns.foldl (· + ·) 0

def transactionEstimatedSerializedSize (tx : Transaction) : UInt64 :=
  2 + 8 + wrappingSum (tx.inputs.map transactionInputEstimatedSerializedSize) +
    8 + wrappingSum (tx.outputs.map transactionOutputEstimatedSerializedSize) +
    8 + 20 + 8 + 32 + 8 + UInt64.ofNat tx.payload.length

def transientByteToMassFactor : UInt64 := 4

/-- `MassCalculator`; the storage mass is not calculated here. -/
structure MassCalculator where
  massPerTxByte : UInt64
  massPerScriptPubKeyByte : UInt64
  massPerSigOp : UInt64

def MassCalculator.calcNonContextualMasses (m : MassCalculator) (tx : Transaction) :
    NonContextualMasses :=
  if tx.isCoinbase then ⟨0, 0⟩
  else
    let size := transactionEstimatedSerializedSize tx
    let computeMassForSize := size * m.massPerTxByte
    let totalScriptPublicKeySize := wrappingSum
      (tx.outputs.map fun output => 2 + UInt64.ofNat output.scriptPublicKey.script.length)
    let totalScriptPublicKeyMass := totalScriptPublicKeySize * m.massPerScriptPubKeyByte
    let totalSigops := wrappingSum (tx.inputs.map fun input => input.sigOpCount.toUInt64)
    let totalSigopsMass := totalSigops * m.massPerSigOp
    ⟨computeMassForSize + totalScriptPublicKeyMass + totalSigopsMass,
      size * transientByteToMassFactor⟩

end Sahyadri.Core
