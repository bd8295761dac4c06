import Sahyadri.Core.Tx

/-!
# `crypto/addresses`: the textual form of an address (bech32m)

* `polymod`, `checksum`, `conv8to5`, `encodePayload`: the encoder, as the code computes it.
-/

namespace Sahyadri.Core

open Lib Smt

inductive Prefix where
  | mainnet
  | testnet
  | simnet
  | devnet
  deriving DecidableEq, Repr

def Prefix.asStr : Prefix → String
  | .mainnet => "csm"
  | .testnet => "csmtest"
  | .simnet => "csmsim"
  | .devnet => "csmdev"

inductive Version where
  | pubKey
  | pubKeyECDSA
  | scriptHash
  | pubKeyDilithium
  deriving DecidableEq, Repr

/-- `version as u8`. -/
def Version.toByte : Version → UInt8
  | .pubKey => 128
  | .pubKeyECDSA => 1
  | .scriptHash => 8
  | .pubKeyDilithium => 129

structure Address where
  network : Prefix
  version : Version
  payload : Bytes
  deriving DecidableEq, Repr

def charset : List Char := "qpzry9x8gf2tvdw0s3jn54khce6mua7l".toList

def polymodStep (acc : UInt64) (d : UInt8) : UInt64 :=
  let c0 := acc >>> 35
  let acc := ((acc &&& 0x07ffffffff) <<< 5) ^^^ d.toUInt64
  let acc := if c0 &&& 0x01 ≠ 0 then acc ^^^ 0x98f2bc8e61 else acc
  let acc := if c0 &&& 0x02 ≠ 0 then acc ^^^ 0x79b76d99e2 else acc
  let acc := if c0 &&& 0x04 ≠ 0 then acc ^^^ 0xf33e5fb3c4 else acc
  let acc := if c0 &&& 0x08 ≠ 0 then acc ^^^ 0xae2eabe2a8 else acc
  if c0 &&& 0x10 ≠ 0 then acc ^^^ 0x1e4f43e470 else acc

def polymod (values : Bytes) : UInt64 := values.foldl polymodStep 1 ^^^ 0x2bc830a3

def checksum (payload network : Bytes) : UInt64 :=
  polymod (network ++ [0] ++ payload ++ List.replicate 8 0)

/-- The inner loop of `conv8to5`: take five bits while there are as many. -/
def takeFives (buff : UInt16) (bits : Nat) (out : Bytes) : UInt16 × Nat × Bytes :=
  if bits ≥ 5 then
    let bits' := bits - 5
    takeFives (buff &&& ((1 <<< UInt16.ofNat bits') - 1)) bits'
      (out ++ [(buff >>> UInt16.ofNat bits').toUInt8])
  else (buff, bits, out)
termination_by bits

/-- `conv8to5`: bytes as five-bit groups, padded on the right. -/
def conv8to5 (payload : Bytes) : Bytes :=
  let (buff, bits, out) := payload.foldl
    (fun acc b => takeFives ((acc.1 <<< 8) ||| b.toUInt16) (acc.2.1 + 8) acc.2.2) (0, 0, [])
  if bits > 0 then out ++ [(buff <<< UInt16.ofNat (5 - bits)).toUInt8] else out

/-- The last five bytes of `checksum.to_be_bytes()`. -/
def checksumBytes (x : UInt64) : Bytes := ((leBytes 8 x.toNat).take 5).reverse

def Address.encodePayload (a : Address) : String :=
  let fivebitPayload := conv8to5 (a.version.toByte :: a.payload)
  let fivebitPrefix := a.network.asStr.toUTF8.data.toList.map (· &&& 0x1f)
  let sum := checksum fivebitPayload fivebitPrefix
  String.ofList
    ((fivebitPayload ++ conv8to5 (checksumBytes sum)).map fun b => charset.getD b.toNat ' ')

def Address.toText (a : Address) : String := a.network.asStr ++ "1" ++ a.encodePayload

end Sahyadri.Core
