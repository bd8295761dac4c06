import Sahyadri.Mining.Tx

/-!
# `check_transaction_standard`: which transactions the mempool takes as standard

* `checkTransactionStandardInIsolation`: version, masses, script sizes and dust; DID operations pass
  unchecked.
-/

namespace Sahyadri.Mining

open Lib Smt Core Tx

def maxScriptPublicKeyVersion : UInt16 := 0

def maxStandardP2shSigOps : UInt64 := 15

def maximumStandardSignatureScriptSize : Nat := 1650

def maximumStandardTransactionMass : UInt64 := 100000

namespace Node

variable (n : Node)

def outputSize (out : TransactionOutput) : Nat := 8 + 2 + 8 + out.scriptPublicKey.script.length

/-- `is_transaction_output_dust`. The two ways of the code compute the same quotient. -/
def isTransactionOutputDust (out : TransactionOutput) : Bool :=
  n.scripts.isUnspendable out.scriptPublicKey.script || out.value.toNat * 1000 /
    (3 * (outputSize out + 148)) < n.config.minimumRelayTransactionFee.toNat

def checkStandardOutputs (id : TransactionId) :
    Nat → List TransactionOutput → Except NonStandardError Unit
  | _, [] => .ok ()
  | i, out :: rest =>
    if out.scriptPublicKey.version > maxScriptPublicKeyVersion then
      .error (.rejectScriptPublicKeyVersion id i)
    else if n.scripts.scriptClass out.scriptPublicKey = .nonStandard then
      .error (.rejectOutputScriptClass id i)
    else if n.isTransactionOutputDust out then .error (.rejectDust id i out.value)
    else checkStandardOutputs id (i + 1) rest

def checkTransactionStandardInIsolation (t : MutableTransaction) : Except NonStandardError Unit :=
  if hasDidPrefix t.tx then .ok ()
  else if t.tx.version > n.config.maximumStandardTransactionVersion ∨
      t.tx.version < n.config.minimumStandardTransactionVersion then
    .error (.rejectVersion t.id t.tx.version n.config.minimumStandardTransactionVersion
      n.config.maximumStandardTransactionVersion)
  else
    match t.calculatedNonContextualMasses with
    | none => .ok ()
    | some masses =>
      if masses.computeMass > maximumStandardTransactionMass then
        .error (.rejectComputeMass t.id masses.computeMass maximumStandardTransactionMass)
      else if masses.transientMass > maximumStandardTransactionMass then
        .error (.rejectTransientMass t.id masses.transientMass maximumStandardTransactionMass)
      else
        match t.tx.inputs.findIdx? fun input =>
          input.signatureScript.length > maximumStandardSignatureScriptSize with
        | some i =>
          .error (.rejectSignatureScriptSize t.id i
            (t.tx.inputs[i]?.elim 0 (·.signatureScript.length)) maximumStandardSignatureScriptSize)
        | none => n.checkStandardOutputs t.id 0 t.tx.outputs

def minimumRequiredTransactionRelayFee (mass : UInt64) : UInt64 := u64Max 1000 (mass / 10)

/-- One input of `check_transaction_standard_in_context`, with its entry. -/
def checkStandardInput (t : MutableTransaction) (i : Nat) (input : TransactionInput)
    (entry : RegistryUnit) : Except NonStandardError Unit := do
  match n.scripts.scriptClass entry.scriptPublicKey with
  | .nonStandard => .error (.rejectInputScriptClass t.id i)
  | .scriptHash =>
    if n.scripts.sigOpCount input.signatureScript entry.scriptPublicKey > maxStandardP2shSigOps then
      .error (.rejectSignatureCount t.id i
        (n.scripts.sigOpCount input.signatureScript entry.scriptPublicKey) maxStandardP2shSigOps)
    else .ok ()
  | _ => .ok ()
  let minimumFee := minimumRequiredTransactionRelayFee
    ((t.calculatedNonContextualMasses.map (·.computeMass)).getD 0)
  if t.calculatedFee.getD 0 < minimumFee then
    .error (.rejectInsufficientFee t.id (t.calculatedFee.getD 0) minimumFee)
  else .ok ()

/-- The loop over the inputs, from input `i`; a missing entry panics. -/
def checkStandardInputs (t : MutableTransaction) :
    Nat → List TransactionInput → Run NonStandardError Unit
  | _, [] => .ok ()
  | i, input :: rest =>
    match t.entries[i]? with
    | some (some entry) =>
      match n.checkStandardInput t i input entry with
      | .error e => .fail e
      | .ok () => checkStandardInputs t (i + 1) rest
    | _ => .panicked

def checkTransactionStandardInContext (t : MutableTransaction) : Run NonStandardError Unit :=
  if t.tx.mass > maximumStandardTransactionMass then
    .fail (.rejectStorageMass t.id t.tx.mass maximumStandardTransactionMass)
  else n.checkStandardInputs t 0 t.tx.inputs

def validateTransactionInContext (t : MutableTransaction) : Run RuleError Unit :=
  if n.config.acceptNonStandard then .ok ()
  else (n.checkTransactionStandardInContext t).mapErr .rejectNonStandard

end Node

def Bare (t : MutableTransaction) : Prop := t.entries = List.replicate t.tx.inputs.length none

theorem Bare.populate {t : MutableTransaction} (h : Bare t) : Bare (populateFlashTxFields t) := by
  unfold populateFlashTxFields
  split
  · exact h
  · exact h

section Context

variable {n : Node} {t : MutableTransaction}

/-- **Without entries, the first input panics.** -/
theorem checkTransactionStandardInContext_bare (h : Bare t) :
    n.checkTransactionStandardInContext t =
      if t.tx.mass > maximumStandardTransactionMass then
        .fail (.rejectStorageMass t.id t.tx.mass maximumStandardTransactionMass)
      else if t.tx.inputs = [] then .ok () else .panicked := by
  unfold Node.checkTransactionStandardInContext
  split
  · rfl
  · cases hi : t.tx.inputs with
    | nil => rfl
    | cons input rest =>
      have hentry : t.entries[0]? = some none := by
        rw [h, hi]
        rfl
      rw [Node.checkStandardInputs, hentry, if_neg (List.cons_ne_nil _ _)]

/-- The check in context lets a transaction pass, rejects it or panics. -/
theorem validateTransactionInContext_bare (h : Bare t) :
    n.validateTransactionInContext t =
      if n.config.acceptNonStandard then .ok ()
      else if t.tx.mass > maximumStandardTransactionMass then
        .fail
          (.rejectNonStandard (.rejectStorageMass t.id t.tx.mass maximumStandardTransactionMass))
      else if t.tx.inputs = [] then .ok () else .panicked := by
  unfold Node.validateTransactionInContext
  split
  · rfl
  · rw [checkTransactionStandardInContext_bare h]
    split
    · rfl
    · split <;> rfl

end Context

end Sahyadri.Mining
