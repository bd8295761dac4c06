import Sahyadri.Core.Address
import Sahyadri.Account.Changes
import Mathlib.Data.List.Sort

/-!
# `did_changes`: DID documents in the account tree, as the code computes them

* `DidDocument`, `didContentHash`, `didBindingHash`: documents and what is hashed of them.
-/

namespace Sahyadri.Did

open Lib Smt Core Account

def maxDidDocBytes : Nat := 16 * 1024

def didPrefix : String := "did:sahyadri:"

def pubkeyBytes : Nat := 1952

/-! ## 1. Documents -/

structure DidDocument where
  did : String
  csmAddress : String
  publicKey : String
  document : String
  purposes : List String
  services : List String
  active : Bool
  createdAt : UInt64
  updatedAt : UInt64
  version : UInt64
  deriving DecidableEq, Repr

inductive DidError where
  | smt (e : SmtError)
  | store (e : StoreError)
  | missingState (did : String)
  deriving DecidableEq, Repr

/-- `DidStatesReader`: documents by content hash. -/
abbrev DidStatesReader := Hash → Except StoreError (Option DidDocument)

/-- `put_str`: the length and the bytes. -/
def putStr (s : String) : Bytes := u32Le (strBytes s).length ++ strBytes s

def strLe (a b : String) : Prop := strBytes a ≤ strBytes b

instance : DecidableRel strLe := fun a b => by unfold strLe; infer_instance

def putSorted (l : List String) : Bytes :=
  let sorted := l.insertionSort strLe
  u32Le sorted.length ++ sorted.flatMap putStr

def DidDocument.preimage (d : DidDocument) : Bytes :=
  ascii "SAHYADRI_DID_STATE_V1" ++ (putStr d.did ++ putStr d.csmAddress ++ putStr d.publicKey ++
    putStr d.document ++ [if d.active then 1 else 0] ++ u64Le d.version ++ u64Le d.createdAt ++
    u64Le d.updatedAt ++ putSorted d.purposes ++ putSorted d.services)

def didContentHash (c : Crypto) (d : DidDocument) : Hash := c.sha3 d.preimage

def didBindingHash (c : Crypto) (did csmAddress publicKeyHex document : String) (version : UInt64) :
    Hash :=
  c.sha3 (ascii "SAHYADRI_DID_BIND_V1" ++ (putStr did ++ putStr csmAddress ++ putStr publicKeyHex ++
    putStr document ++ u64Le version))

def deriveCsmAddress (c : Crypto) (pubkey : Bytes) (network : Prefix) : String :=
  (Address.mk network .pubKeyDilithium ((c.sha3 pubkey).bytes.take 20)).toText

def hexString (bytes : Bytes) : String :=
  String.ofList (bytes.flatMap fun b : UInt8 =>
    ["0123456789abcdef".toList.getD (b >>> 4).toNat '0',
      "0123456789abcdef".toList.getD (b &&& 15).toNat '0'])

def hexToBytes (s : String) : Option Bytes := hexDecode (strBytes s)

/-! ## 2. The wire format -/

inductive DidOp where
  | create (pubkey : Bytes) (did csmAddress document : String) (timestamp : UInt64) (sig : Bytes)
  | update (did document : String) (timestamp : UInt64) (sig : Bytes)
  | deactivate (did : String) (timestamp : UInt64) (sig : Bytes)
  deriving DecidableEq, Repr

/-- `rd_str`, on what is left of the body. -/
def rdStr (p : Bytes) : Option (String × Bytes) := do
  let (n, p) ← readN 4 p
  let (bytes, p) ← readN (ofLe n) p
  let s ← String.fromUTF8? ⟨bytes.toArray⟩
  return (s, p)

/-- `last_u64`: the last eight bytes of the body, if they come after what was read. -/
def lastU64 (rest : Bytes) : Option UInt64 :=
  if rest.length < 8 then none else some (ofU64Le (rest.drop (rest.length - 8)))

def parseDidOp (payload : Bytes) (sigSize : Nat) : Option DidOp :=
  if payload.length < 4 + sigSize then none
  else
    let body := payload.take (payload.length - sigSize)
    let sig := payload.drop (payload.length - sigSize)
    let p := body.drop 4
    if body.take 4 = ascii "DCRT" then do
      let (did, p) ← rdStr p
      let (pubkey, p) ← readN pubkeyBytes p
      let (csmAddress, p) ← rdStr p
      let (document, p) ← rdStr p
      let (timestamp, _) ← readN 8 p
      return .create pubkey did csmAddress document (ofU64Le timestamp) sig
    else if body.take 4 = ascii "DUPD" then do
      let (did, p) ← rdStr p
      let (document, p) ← rdStr p
      let timestamp ← lastU64 p
      return .update did document timestamp sig
    else if body.take 4 = ascii "DDEC" then do
      let (did, p) ← rdStr p
      let timestamp ← lastU64 p
      return .deactivate did timestamp sig
    else none

/-! ## 3. The transition -/

abbrev TouchedDids := Table String DidDocument

section Transition

variable {S : Type} (c : Crypto) (N : NodeStore S) (states : DidStatesReader)

/-- The committed document of a DID: tree, then document store. -/
def readDid (s : S) (root : H256) (did : String) : Run DidError (Option DidDocument) := do
  match ← (get N s root (didKeyHash c did)).mapErr DidError.smt with
  | none => return none
  | some h =>
    match states h with
    | .error e => .fail (.store e)
    | .ok (some d) => return some d
    | .ok none => .fail (.missingState did)

/-- `lookup`: the touched document, or the committed one. -/
def lookupDid (read : String → Run DidError (Option DidDocument)) (touched : TouchedDids)
    (did : String) : Run DidError (Option DidDocument) :=
  match touched.lookup did with
  | some d => return some d
  | none => read did

/-- The message a creation signs. -/
def createMessage (pubkey : Bytes) (did csmAddress document : String) : Bytes :=
  let binding := didBindingHash c did csmAddress (hexString pubkey) document 1
  strBytes ("did:create:" ++ csmAddress ++ ":1:" ++ hexString binding.bytes)

def updateMessage (cur : DidDocument) (document : String) : Bytes :=
  let newVersion := cur.version + 1
  let binding := didBindingHash c cur.did cur.csmAddress cur.publicKey document newVersion
  strBytes ("did:update:" ++ cur.csmAddress ++ ":" ++ toString newVersion.toNat ++ ":" ++ hexString
    binding.bytes)

def deactivateMessage (cur : DidDocument) : Bytes :=
  strBytes ("did:deactivate:" ++ cur.csmAddress ++ ":" ++ toString (cur.version + 1).toNat)

variable (daaScore : UInt64) (network : Prefix) (verify : Verifier)

/-- The checks of an operation that come before the document is looked up. -/
def DidOp.wellFormed : DidOp → Bool
  | .create pubkey did csmAddress document _ _ =>
    (strBytes document).length ≤ maxDidDocBytes && did == didPrefix ++ csmAddress &&
      deriveCsmAddress c pubkey network == csmAddress
  | .update _ document _ _ => (strBytes document).length ≤ maxDidDocBytes
  | .deactivate _ _ _ => true

def DidOp.did : DidOp → String
  | .create _ did _ _ _ _ => did
  | .update did _ _ _ => did
  | .deactivate did _ _ => did

/-- The document an operation leaves, given the current one; `none` if the operation is skipped. -/
def DidOp.outcome (op : DidOp) (cur : Option DidDocument) : Option DidDocument :=
  match op, cur with
  | .create pubkey did csmAddress document _ sig, none =>
    if verify pubkey sig (createMessage c pubkey did csmAddress document) then
      some ⟨did, csmAddress, hexString pubkey, document, ["authentication"], [], true, daaScore,
        daaScore, 1⟩
    else none
  | .create .., some _ => none
  | .update .., none => none
  | .update _ document _ sig, some cur =>
    if cur.active then do
      let pk ← hexToBytes cur.publicKey
      if verify pk sig (updateMessage c cur document) then
        return { cur with document := document, updatedAt := daaScore, version := cur.version + 1 }
      else none
    else none
  | .deactivate .., none => none
  | .deactivate _ _ sig, some cur =>
    if cur.active then do
      let pk ← hexToBytes cur.publicKey
      if verify pk sig (deactivateMessage cur) then
        return { cur with active := false, updatedAt := daaScore, version := cur.version + 1 }
      else none
    else none

def applyDidOp (read : String → Run DidError (Option DidDocument)) (touched : TouchedDids)
    (op : DidOp) : Run DidError TouchedDids :=
  if op.wellFormed c network then do
    let cur ← lookupDid read touched op.did
    match op.outcome c daaScore verify cur with
    | some doc => return touched.insert op.did doc
    | none => return touched
  else return touched

def touchedDids (read : String → Run DidError (Option DidDocument)) (ops : List DidOp) :
    Run DidError TouchedDids := ops.foldlM (applyDidOp c daaScore network verify read) ∅

def writeDidLeaves (root : H256) : List (String × DidDocument) → Action S DidError H256
  | [] => return root
  | (did, doc) :: rest => do
    let root ← (Smt.update N root (didKeyHash c did) (some (didContentHash c doc))).mapErr
      DidError.smt
    writeDidLeaves root rest

/-- `compute_block_did_changes`; `ord` is the iteration order of the map. -/
def computeBlockDidChanges (ord : IterOrder String DidDocument) (root : H256) (ops : List DidOp) :
    Action S DidError (H256 × List DidDocument) := do
  let touched ← Action.lift fun s =>
    touchedDids c daaScore network verify (readDid c N states s root) ops
  let newRoot ← writeDidLeaves c N root (ord.order touched.pairs)
  return (newRoot, (ord.order touched.pairs).map Prod.snd)

end Transition

end Sahyadri.Did
