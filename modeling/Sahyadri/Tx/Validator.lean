import Sahyadri.Core.Coinbase

/-!
# `TransactionValidator`: the checks of a transaction in isolation and in its header

* `verifyAccountTxSignature`: the signature check of a legacy account transaction, which a flash
  payload skips.
-/

namespace Sahyadri.Tx

open Lib Smt Core

/-! ## 1. Parameters and errors -/

/-- The limits of `TransactionValidator`. -/
structure TransactionValidator where
  maxTxInputs : Nat
  maxTxOutputs : Nat
  maxSignatureScriptLen : Nat
  maxScriptPublicKeyLen : Nat
  coinbasePayloadScriptPublicKeyMaxLen : UInt8

/-- The errors that the modelled checks return. -/
inductive TxRuleError where
  | unknown
  | zeroFee
  | message (text : String)
  | noTxInputs
  | txDuplicateInputs
  | txHasGas
  | unknownTxVersion (version : UInt16)
  | tooManyInputs (len max : Nat)
  | tooManyOutputs (len max : Nat)
  | tooBigSignatureScript (index max : Nat)
  | tooBigScriptPublicKey (index max : Nat)
  | notFinalized (index : Nat)
  | coinbaseHasInputs (len : Nat)
  | coinbaseTooManyOutputs (len : Nat) (max : UInt64)
  | coinbaseScriptPublicKeyTooLong (index : Nat)
  | coinbaseNonZeroMassCommitment
  | inputAmountOverflow
  | txOutZero (index : Nat)
  | txOutTooHigh (index : Nat)
  | outputsValueOverflow
  | totalTxOutTooHigh
  | spendTooHigh (spent available : UInt64)
  | subnetworksDisabled (id : SubnetworkId)
  deriving DecidableEq, Repr

abbrev TxResult := Except TxRuleError

/-- `PUBKEY_SIZE` of the Dilithium mode in use. -/
def pubkeySize : Nat := 1952

def sigSize : Nat := 3309

def accountTxMinPayload : Nat := pubkeySize + 8 + sigSize

def txVersion : UInt16 := 0

def lockTimeThreshold : UInt64 := 500000000000

/-! ## 2. Payload kinds -/

/-- The payload of a flash transaction: `FLASH_V1`. -/
def hasFlashPrefix (tx : Transaction) : Bool :=
  tx.payload.length ≥ 8 && tx.payload.take 8 = FlashTransaction.magic

/-- The payload of a DID operation: `DCRT`, `DUPD` or `DDEC`. -/
def hasDidPrefix (tx : Transaction) : Bool :=
  tx.payload.length ≥ 4 && (tx.payload.take 4 = ascii "DCRT" || tx.payload.take 4 = ascii "DUPD" ||
    tx.payload.take 4 = ascii "DDEC")

/-! ## 3. The signature of an account transaction -/

def verifyAccountTxSignature (c : Crypto) (tx : Transaction) : TxResult Unit :=
  if hasFlashPrefix tx then .ok ()
  else if tx.payload.length < accountTxMinPayload then
    .error (.message ("Account tx payload too small: " ++ toString tx.payload.length ++
      " bytes, minimum " ++ toString accountTxMinPayload))
  else
    let sigStart := tx.payload.length - sigSize
    let nonceStart := sigStart - 8
    let senderPubkey := tx.payload.take nonceStart
    let sigBytes := tx.payload.drop sigStart
    if senderPubkey.length ≠ pubkeySize then
      .error (.message ("Account tx sender pubkey invalid: " ++ toString senderPubkey.length ++
        " bytes, expected " ++ toString pubkeySize))
    else
      let sighash := tx.computeAccountTxSighash c (tx.payload.take sigStart)
      if c.verify senderPubkey sigBytes sighash.bytes then .ok ()
      else .error (.message "Account tx Dilithium3 signature verification FAILED")

/-- `verify_account_tx_signatures_batch`; the pool only decides in which order they are done. -/
def verifyAccountTxSignaturesBatch (c : Crypto) (txs : List Transaction) : List (TxResult Unit) :=
  txs.map (verifyAccountTxSignature c)

/-! ## 4. Isolation -/

/-- The loop of `check_transaction_output_value_ranges`, from output `i` with the sum so far. -/
def checkOutputValues (i : Nat) (total : UInt64) : List TransactionOutput → TxResult Unit
  | [] => .ok ()
  | out :: rest =>
    if out.value = 0 then .error (.txOutZero i)
    else if out.value.toNat > maxKana then .error (.txOutTooHigh i)
    else if total.toNat + out.value.toNat ≥ 2 ^ 64 then .error .outputsValueOverflow
    else if (total + out.value).toNat > maxKana then .error .totalTxOutTooHigh
    else checkOutputValues (i + 1) (total + out.value) rest

variable (tx : Transaction)

def checkTransactionOutputValueRanges : TxResult Unit := checkOutputValues 0 0 tx.outputs

def checkDuplicateTransactionInputs : TxResult Unit :=
  if (tx.inputs.map TransactionInput.previousOutpoint).Nodup then .ok ()
  else .error .txDuplicateInputs

def checkGas : TxResult Unit :=
  if tx.gas > 0 then .error .txHasGas else .ok ()

def checkTransactionVersion : TxResult Unit :=
  if tx.version ≠ txVersion then .error (.unknownTxVersion tx.version) else .ok ()

def checkTransactionSubnetwork : TxResult Unit :=
  if tx.isCoinbase || tx.subnetworkId = subnetworkIdNative then .ok ()
  else .error (.subnetworksDisabled tx.subnetworkId)

namespace TransactionValidator

variable (v : TransactionValidator) (tx : Transaction)

def checkTransactionInputsCount : TxResult Unit :=
  if ¬ tx.isCoinbase ∧ tx.inputs.isEmpty ∧ tx.payload.isEmpty then .error .noTxInputs
  else if tx.inputs.length > v.maxTxInputs then
    .error (.tooManyInputs tx.inputs.length v.maxTxInputs)
  else .ok ()

def checkTransactionSignatureScripts : TxResult Unit :=
  match tx.inputs.findIdx? fun input => input.signatureScript.length > v.maxSignatureScriptLen with
  | some i => .error (.tooBigSignatureScript i v.maxSignatureScriptLen)
  | none => .ok ()

/-- `check_transaction_outputs_count`; the error names the limit of the inputs. -/
def checkTransactionOutputsCount : TxResult Unit :=
  if tx.isCoinbase then .ok ()
  else if tx.outputs.length > v.maxTxOutputs then
    .error (.tooManyOutputs tx.outputs.length v.maxTxInputs)
  else .ok ()

def checkTransactionScriptPublicKeys : TxResult Unit :=
  match tx.outputs.findIdx? fun out =>
    out.scriptPublicKey.script.length > v.maxScriptPublicKeyLen with
  | some i => .error (.tooBigScriptPublicKey i v.maxScriptPublicKeyLen)
  | none => .ok ()

def checkCoinbaseInIsolation : TxResult Unit :=
  if ¬ tx.isCoinbase then .ok ()
  else if ¬ tx.inputs.isEmpty then .error (.coinbaseHasInputs tx.inputs.length)
  else if tx.mass > 0 then .error .coinbaseNonZeroMassCommitment
  else if tx.outputs.length > 100 then .error (.coinbaseTooManyOutputs tx.outputs.length 100)
  else
    match tx.outputs.findIdx? fun out =>
        out.scriptPublicKey.script.length > v.coinbasePayloadScriptPublicKeyMaxLen.toNat with
    | some i => .error (.coinbaseScriptPublicKeyTooLong i)
    | none => .ok ()

def validateTxInIsolation (c : Crypto) (tx : Transaction) : TxResult Unit :=
  if hasDidPrefix tx then .ok ()
  else if tx.inputs.isEmpty ∧ ¬ tx.payload.isEmpty ∧ ¬ tx.isCoinbase then do
    checkTransactionOutputValueRanges tx
    verifyAccountTxSignature c tx
  else do
    v.checkTransactionInputsCount tx
    v.checkTransactionSignatureScripts tx
    v.checkTransactionOutputsCount tx
    v.checkTransactionScriptPublicKeys tx
    v.checkCoinbaseInIsolation tx
    checkTransactionOutputValueRanges tx
    checkDuplicateTransactionInputs tx
    checkGas tx
    checkTransactionSubnetwork tx
    checkTransactionVersion tx

end TransactionValidator

/-! ## 5. Header context -/

inductive LockTimeType where
  | finalized
  | daaScore
  | time

inductive LockTimeArg where
  | finalized
  | daaScore (ctx : UInt64)
  | medianTime (ctx : UInt64)

variable (tx : Transaction)

def getLockTimeType : LockTimeType :=
  if tx.lockTime = 0 then .finalized
  else if tx.lockTime < lockTimeThreshold then .daaScore
  else .time

def checkTxIsFinalized (arg : LockTimeArg) : TxResult Unit :=
  let check (ctx : UInt64) : TxResult Unit :=
    if tx.lockTime < ctx then .ok ()
    else
      match tx.inputs.findIdx? fun input => input.sequence ≠ UInt64.ofNat (2 ^ 64 - 1) with
      | some i => .error (.notFinalized i)
      | none => .ok ()
  match arg with
  | .finalized => .ok ()
  | .daaScore ctx => check ctx
  | .medianTime ctx => check ctx

def validateTxInHeaderContext (arg : LockTimeArg) : TxResult Unit := checkTxIsFinalized tx arg

end Sahyadri.Tx
