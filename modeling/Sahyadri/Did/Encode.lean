import Sahyadri.Did.Changes

/-!
# What the texts and hashes of a document can be read back from

* `hexToBytes_hexString`: the stored public key decodes to the key of the creation.
-/

namespace Sahyadri.Did

open Lib Smt Core Account List

/-! ## 1. Strings as bytes -/

theorem strBytes_inj {s t : String} (h : strBytes s = strBytes t) : s = t := by
  apply String.toByteArray_inj.mp
  exact ByteArray.ext (Array.toList_inj.mp h)

theorem strBytes_append (s t : String) : strBytes (s ++ t) = strBytes s ++ strBytes t := by
  simp [strBytes, String.toUTF8, ByteArray.data_append]

theorem strBytes_ofList (cs : List Char) :
    strBytes (String.ofList cs) = cs.flatMap String.utf8EncodeChar := by
  simp [strBytes, String.toUTF8, utf8Encode]

theorem length_strBytes_ofList_le (cs : List Char) :
    (strBytes (String.ofList cs)).length ≤ 4 * cs.length := by
  rw [strBytes_ofList]
  induction cs with
  | nil => simp
  | cons c cs ih =>
    have := c.utf8Size_le_four
    rw [flatMap_cons, length_append, String.length_utf8EncodeChar, length_cons]
    omega

/-! ## 2. Hex -/

def hexChar (n : Nat) : Char := "0123456789abcdef".toList.getD n '0'

theorem hexDigit_hexChar : ∀ n < 16, ∃ x, String.utf8EncodeChar (hexChar n) = [x] ∧
    hexDigit x = some (UInt8.ofNat n) := by
  have h : ∀ n < 16, String.utf8EncodeChar (hexChar n) = [(hexChar n).val.toUInt8] ∧
      hexDigit (hexChar n).val.toUInt8 = some (UInt8.ofNat n) := by decide
  exact fun n hn => ⟨_, h n hn⟩

theorem halves (b : UInt8) :
    (b >>> 4).toNat < 16 ∧ (b &&& 15).toNat < 16 ∧ (b >>> 4) <<< 4 ||| (b &&& 15) = b := by
  have h : ∀ n < 256, (UInt8.ofNat n >>> 4).toNat < 16 ∧ (UInt8.ofNat n &&& 15).toNat < 16 ∧
      (UInt8.ofNat n >>> 4) <<< 4 ||| (UInt8.ofNat n &&& 15) = UInt8.ofNat n := by decide +kernel
  have := h b.toNat b.toNat_lt
  rwa [UInt8.ofNat_toNat] at this

/-- **Hex text decodes to the bytes it was made from.** -/
theorem hexToBytes_hexString (bytes : Bytes) : hexToBytes (hexString bytes) = some bytes := by
  rw [hexToBytes, hexString, strBytes_ofList]
  induction bytes with
  | nil => rfl
  | cons b bytes ih =>
    obtain ⟨hhi, hlo, hb⟩ := halves b
    obtain ⟨x, hx, hdx⟩ := hexDigit_hexChar _ hhi
    obtain ⟨y, hy, hdy⟩ := hexDigit_hexChar _ hlo
    rw [hexChar] at hx hy
    rw [flatMap_cons, flatMap_append, flatMap_cons, flatMap_cons,
      flatMap_nil, append_nil, hx, hy, singleton_append, cons_append,
      singleton_append, hexDecode, hdx, hdy, ih, UInt8.ofNat_toNat, UInt8.ofNat_toNat]
    exact congrArg some (congrArg (· :: bytes) hb)

theorem hexDecode_zeros :
    ∀ n : Nat, hexDecode (List.replicate (2 * n) 48) = some (List.replicate n 0)
  | 0 => rfl
  | n + 1 => by
    show (do
      let hi ← hexDigit 48
      let lo ← hexDigit 48
      let rest ← hexDecode (replicate (2 * n) 48)
      return (hi <<< 4 ||| lo) :: rest) = _
    rw [hexDecode_zeros n]
    rfl

theorem strBytes_zeros (n : Nat) :
    strBytes (String.ofList (List.replicate n '0')) = List.replicate n 48 := by
  rw [strBytes_ofList]
  induction n with
  | zero => rfl
  | succ n ih =>
    rw [replicate_succ, flatMap_cons, ih]
    rfl

/-! ## 3. Addresses are short -/

theorem takeFives_spec (buff : UInt16) (bits : Nat) (out : Bytes) :
    (takeFives buff bits out).2.1 < 5 ∧
    (takeFives buff bits out).2.2.length ≤ out.length + bits := by
  fun_induction takeFives buff bits out with
  | case1 buff bits out h bits' ih =>
    refine ⟨ih.1, le_trans ih.2 ?_⟩
    rw [length_append, length_singleton]
    omega
  | case2 buff bits out h => exact ⟨Nat.lt_of_not_ge h, Nat.le_add_right _ _⟩

theorem length_conv8to5_le (payload : Bytes) :
    (conv8to5 payload).length ≤ 12 * payload.length + 1 := by
  have hfold : ∀ (l : Bytes) (acc : UInt16 × Nat × Bytes), acc.2.1 < 5 →
      (l.foldl (fun acc b => takeFives ((acc.1 <<< 8) ||| b.toUInt16) (acc.2.1 + 8) acc.2.2)
        acc).2.2.length ≤ acc.2.2.length + 12 * l.length := by
    intro l
    induction l with
    | nil => simp
    | cons b l ih =>
      intro acc hacc
      obtain ⟨h1, h2⟩ := takeFives_spec ((acc.1 <<< 8) ||| b.toUInt16) (acc.2.1 + 8) acc.2.2
      rw [foldl_cons]
      refine le_trans (ih _ h1) ?_
      rw [length_cons]
      omega
  have := hfold payload (0, 0, []) (by decide)
  rw [length_nil, zero_add] at this
  unfold conv8to5
  split
  rename_i buff bits out heq
  rw [heq] at this
  dsimp only at this
  split
  · rw [length_append, length_singleton]
    omega
  · omega

theorem length_checksumBytes_le (x : UInt64) : (checksumBytes x).length ≤ 5 := by
  simp [checksumBytes]

theorem length_asStr_le (network : Prefix) : (strBytes network.asStr).length ≤ 7 := by
  cases network <;> decide

theorem length_deriveCsmAddress_le (c : Crypto) (pubkey : Bytes) (network : Prefix) :
    (strBytes (deriveCsmAddress c pubkey network)).length ≤ 2000 := by
  have h1 : ((c.sha3 pubkey).bytes.take 20).length ≤ 20 := length_take_le _ _
  unfold deriveCsmAddress Address.toText Address.encodePayload
  dsimp only
  generalize checksum _ _ = sum
  have h2 := length_conv8to5_le (Version.pubKeyDilithium.toByte :: (c.sha3 pubkey).bytes.take 20)
  have h3 := length_conv8to5_le (checksumBytes sum)
  have h4 := length_checksumBytes_le sum
  have h5 := length_strBytes_ofList_le ((conv8to5 (Version.pubKeyDilithium.toByte ::
    (c.sha3 pubkey).bytes.take 20) ++ conv8to5 (checksumBytes sum)).map fun b =>
    charset.getD b.toNat ' ')
  have h6 := length_asStr_le network
  have h7 : (strBytes "1").length = 1 := by decide
  rw [length_map, length_append] at h5
  rw [length_cons] at h2
  rw [strBytes_append, strBytes_append, length_append, length_append]
  omega

/-! ## 4. Documents and their preimages -/

/-- What all stored documents have in common. -/
structure DidDocument.Plain (d : DidDocument) : Prop where
  did : (strBytes d.did).length < 2 ^ 32
  csmAddress : (strBytes d.csmAddress).length < 2 ^ 32
  document : (strBytes d.document).length ≤ maxDidDocBytes
  purposes : d.purposes = ["authentication"]
  services : d.services = []

theorem u32Le_mod {n m : Nat} (h : u32Le n = u32Le m) : n % 2 ^ 32 = m % 2 ^ 32 := by
  have := congrArg ofLe h
  rwa [u32Le, u32Le, ofLe_leBytes, ofLe_leBytes] at this

theorem putStr_append_inj {s t : String} {x y : Bytes} (hs : (strBytes s).length < 2 ^ 32)
    (ht : (strBytes t).length < 2 ^ 32) (h : putStr s ++ x = putStr t ++ y) : s = t ∧ x = y := by
  rw [putStr, putStr, append_assoc, append_assoc] at h
  obtain ⟨hlen, hrest⟩ := append_inj h (by rw [length_u32Le, length_u32Le])
  have hmod := u32Le_mod hlen
  rw [Nat.mod_eq_of_lt hs, Nat.mod_eq_of_lt ht] at hmod
  obtain ⟨hb, hx⟩ := append_inj hrest hmod
  exact ⟨strBytes_inj hb, hx⟩

/-- Two texts one after the other, the second one short. -/
theorem putStr_short_inj {s t u v : String} {x y : Bytes} (hxy : x.length = y.length)
    (hu : (strBytes u).length ≤ maxDidDocBytes) (hv : (strBytes v).length ≤ maxDidDocBytes)
    (h : putStr s ++ (putStr u ++ x) = putStr t ++ (putStr v ++ y)) : s = t ∧ u = v ∧ x = y := by
  have htotal := congrArg length h
  simp only [putStr, length_append, length_u32Le] at htotal
  have hfirst : u32Le (strBytes s).length = u32Le (strBytes t).length := by
    simp only [putStr, append_assoc] at h
    exact (append_inj h (by rw [length_u32Le, length_u32Le])).1
  have hmod := u32Le_mod hfirst
  unfold maxDidDocBytes at hu hv
  -- lengths that agree modulo 2³² and differ by less than that are equal
  have hlen : (putStr s).length = (putStr t).length := by
    simp only [putStr, length_append, length_u32Le]
    omega
  obtain ⟨hst, hrest⟩ := append_inj h hlen
  obtain ⟨-, hs⟩ := append_inj hst (by rw [length_u32Le, length_u32Le])
  obtain ⟨huv, hx⟩ := putStr_append_inj (by omega) (by omega) hrest
  exact ⟨strBytes_inj hs, huv, hx⟩

/-- **Plain documents with one preimage are equal.** -/
theorem DidDocument.preimage_inj {d e : DidDocument} (hd : d.Plain) (he : e.Plain)
    (h : d.preimage = e.preimage) : d = e := by
  have h := append_cancel_left h
  simp only [append_assoc] at h
  obtain ⟨h1, h⟩ := putStr_append_inj hd.did he.did h
  obtain ⟨h2, h⟩ := putStr_append_inj hd.csmAddress he.csmAddress h
  rw [hd.purposes, hd.services, he.purposes, he.services] at h
  obtain ⟨h3, h4, h⟩ := putStr_short_inj (by simp) hd.document he.document h
  obtain ⟨h5, h⟩ := append_inj h (by simp)
  obtain ⟨h6, h⟩ := append_inj h (by simp)
  obtain ⟨h7, h⟩ := append_inj h (by simp)
  obtain ⟨h8, -⟩ := append_inj h (by simp)
  have hactive : d.active = e.active := by
    revert h5
    cases d.active <;> cases e.active <;> simp
  obtain ⟨_, _, _, _, _, _, _, _, _, _⟩ := d
  obtain ⟨_, _, _, _, _, _, _, _, _, _⟩ := e
  simp only [DidDocument.mk.injEq]
  exact ⟨h1, h2, h3, h4, hd.purposes.trans he.purposes.symm, hd.services.trans he.services.symm,
    hactive, u64Le_inj h7, u64Le_inj h8, u64Le_inj h6⟩

end Sahyadri.Did
