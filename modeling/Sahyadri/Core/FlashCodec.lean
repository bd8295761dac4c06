import Sahyadri.Core.Tx
import Mathlib.Data.Set.Function

/-!
# What a flash payload and the two flash hashes determine

* `flash_codec_iff`: the round trip; two payloads of one flash are equal exactly when the bytes
  after the encoding are; and the two hashes bind the signed fields exactly when the boundary was
  not moved.
-/

namespace Sahyadri.Core

open Lib Smt List Option

namespace FlashTransaction

/-! ## 1. Decoding -/

variable {bs p rest : Bytes}

theorem readBytes_eq_some (h : readBytes p = some (bs, rest)) :
    p = u32Le bs.length ++ (bs ++ rest) ∧ bs.length < 2 ^ 32 := by
  obtain ⟨⟨len, p'⟩, hlen, hbs⟩ := bind_eq_some_iff.mp h
  obtain ⟨rfl, h4⟩ := readN_eq_some hlen
  obtain ⟨rfl, hn⟩ := readN_eq_some hbs
  have hlt := ofLe_lt len
  rw [h4] at hlt
  rw [hn]
  refine ⟨?_, hlt⟩
  rw [u32Le, ← h4, leBytes_ofLe]

variable {f g : FlashTransaction}

/-- **A payload that decodes to a flash starts with its encoding.** -/
theorem decode_eq_some (h : decode p = some f) : f.Encodable ∧ ∃ rest, p = f.payload ++ rest := by
  obtain ⟨⟨magic', p₁⟩, hmagic, h₁⟩ := bind_eq_some_iff.mp h
  obtain ⟨rfl, -⟩ := readN_eq_some hmagic
  dsimp only at h₁
  split at h₁
  · cases h₁
  rename_i hm
  obtain rfl : magic' = magic := not_not.mp hm
  obtain ⟨⟨version, p₂⟩, hversion, h₂⟩ := bind_eq_some_iff.mp h₁
  obtain ⟨rfl, hv⟩ := readN_eq_some hversion
  obtain ⟨⟨pubkey, p₃⟩, hpubkey, h₃⟩ := bind_eq_some_iff.mp h₂
  obtain ⟨rfl, hpk⟩ := readBytes_eq_some hpubkey
  obtain ⟨⟨recipient, p₄⟩, hrecipient, h₄⟩ := bind_eq_some_iff.mp h₃
  obtain ⟨rfl, hrc⟩ := readBytes_eq_some hrecipient
  obtain ⟨⟨amount, p₅⟩, hamount, h₅⟩ := bind_eq_some_iff.mp h₄
  obtain ⟨rfl, ha⟩ := readN_eq_some hamount
  obtain ⟨⟨fee, p₆⟩, hfee, h₆⟩ := bind_eq_some_iff.mp h₅
  obtain ⟨rfl, hf⟩ := readN_eq_some hfee
  obtain ⟨⟨expiry, p₇⟩, hexpiry, h₇⟩ := bind_eq_some_iff.mp h₆
  obtain ⟨rfl, he⟩ := readN_eq_some hexpiry
  dsimp only at h₇
  split at h₇
  · cases h₇
  rename_i salt p₈ hsalt
  obtain ⟨⟨signature, rest⟩, hsignature, h₈⟩ := bind_eq_some_iff.mp h₇
  obtain ⟨hp₇, -⟩ := readN_eq_some hsalt
  obtain ⟨rfl, hsg⟩ := readBytes_eq_some hsignature
  cases h₈
  refine ⟨⟨hpk, hrc, hsg⟩, rest, ?_⟩
  simp only [payload, u16Le_ofU16Le hv, u64Le_ofU64Le ha, u64Le_ofU64Le hf, u64Le_ofU64Le he, hp₇,
    append_assoc]

/-! ## 2. What the hashes cover -/

/-- The flashes agree on all signed fields. -/
structure SameSigned (f g : FlashTransaction) : Prop where
  version : f.version = g.version
  pubkey : f.pubkey = g.pubkey
  recipient : f.recipient = g.recipient
  amount : f.amount = g.amount
  fee : f.fee = g.fee
  expiryDaaScore : f.expiryDaaScore = g.expiryDaaScore
  salt : f.salt = g.salt

/-- The same, except that public key and recipient are divided at another place. -/
structure Shifted (f g : FlashTransaction) : Prop where
  version : f.version = g.version
  keys : f.pubkey ++ f.recipient = g.pubkey ++ g.recipient
  moved : f.pubkey.length ≠ g.pubkey.length
  amount : f.amount = g.amount
  fee : f.fee = g.fee
  expiryDaaScore : f.expiryDaaScore = g.expiryDaaScore
  salt : f.salt = g.salt

/-- **The hashed bytes fix all signed fields but the boundary.** -/
theorem signedBytes_eq_iff : f.signedBytes = g.signedBytes ↔ SameSigned f g ∨ Shifted f g := by
  constructor
  · intro h
    have hexpiry := expiry_of_signedBytes h
    obtain ⟨h, hsalt⟩ := append_inj' h (by rw [f.salt_length, g.salt_length])
    obtain ⟨h, -⟩ := append_inj' h (by rw [length_u64Le, length_u64Le])
    obtain ⟨h, hfee⟩ := append_inj' h (by rw [length_u64Le, length_u64Le])
    obtain ⟨h, hamount⟩ := append_inj' h (by rw [length_u64Le, length_u64Le])
    rw [append_assoc, append_assoc] at h
    obtain ⟨hversion, hkeys⟩ := append_inj h (by rw [length_u16Le, length_u16Le])
    by_cases hlen : f.pubkey.length = g.pubkey.length
    · obtain ⟨hpk, hrc⟩ := append_inj hkeys hlen
      exact .inl ⟨u16Le_inj hversion, hpk, hrc, u64Le_inj hamount, u64Le_inj hfee, hexpiry, hsalt⟩
    · exact .inr ⟨u16Le_inj hversion, hkeys, hlen, u64Le_inj hamount, u64Le_inj hfee,
        hexpiry, hsalt⟩
  · intro h
    have hkeys : f.pubkey ++ f.recipient = g.pubkey ++ g.recipient := by
      rcases h with h | h
      · rw [h.pubkey, h.recipient]
      · exact h.keys
    have hrest : f.version = g.version ∧ f.amount = g.amount ∧ f.fee = g.fee ∧
        f.expiryDaaScore = g.expiryDaaScore ∧ f.salt = g.salt := by
      rcases h with h | h <;> exact ⟨h.version, h.amount, h.fee, h.expiryDaaScore, h.salt⟩
    obtain ⟨hversion, hamount, hfee, hexpiry, hsalt⟩ := hrest
    simp only [signedBytes, append_assoc] at hkeys ⊢
    rw [hversion, hamount, hfee, hexpiry, hsalt, ← append_assoc f.pubkey, hkeys, append_assoc]

theorem binds_iff {sha3 : Bytes → Hash} (domain : Bytes)
    (hinj : Set.InjOn sha3 {domain ++ f.signedBytes, domain ++ g.signedBytes}) :
    (sha3 (domain ++ f.signedBytes) = sha3 (domain ++ g.signedBytes) → SameSigned f g) ↔
    ¬ Shifted f g := by
  constructor
  · intro h hshift
    have hbytes := signedBytes_eq_iff.mpr (.inr hshift)
    exact hshift.moved (congrArg length (h (by rw [hbytes])).pubkey)
  · intro h heq
    have hbytes := append_cancel_left (hinj (.inl rfl) (.inr rfl) heq)
    exact (signedBytes_eq_iff.mp hbytes).resolve_right h

/-! ## 3. The codec and the identifiers -/

def idPreimage (f : FlashTransaction) : Bytes := ascii "SAHYADRI_FLASH_ID_V1" ++ f.signedBytes

def sighashPreimage (f : FlashTransaction) : Bytes := ascii "SAHYADRI_FLASH_TX_V1" ++ f.signedBytes

/-- **The flash codec and its identifiers.** What is encoded is decoded again; two payloads of one
    flash are equal exactly when the bytes after its encoding are; and where SHA3-256 does not
    collide on the two preimages, equal ids (and equal signature hashes) mean equal signed fields
    exactly when the boundary between public key and recipient was not moved. -/
theorem flash_codec_iff (c : Crypto) :
    (∀ f : FlashTransaction, f.Encodable → fromTransaction (f.toTransaction c) = some f) ∧
    (∀ (t u : Transaction) (f : FlashTransaction), fromTransaction t = some f →
      fromTransaction u = some f → (t.payload = u.payload ↔
        t.payload.drop f.payload.length = u.payload.drop f.payload.length)) ∧
          ∀ f g : FlashTransaction, (Set.InjOn c.sha3 {f.idPreimage, g.idPreimage} →
            ((f.flashId c = g.flashId c → SameSigned f g) ↔ ¬ Shifted f g)) ∧
      (Set.InjOn c.sha3 {f.sighashPreimage, g.sighashPreimage} →
        ((f.sighash c = g.sighash c → SameSigned f g) ↔ ¬ Shifted f g)) := by
  refine ⟨fun f hf => fromTransaction_toTransaction c f hf, fun t u f ht hu => ?_,
    fun f g => ⟨binds_iff _, binds_iff _⟩⟩
  obtain ⟨-, x, hx⟩ := decode_eq_some ht
  obtain ⟨-, y, hy⟩ := decode_eq_some hu
  rw [hx, hy, drop_left, drop_left]
  exact append_right_inj f.payload

/-- A flash whose public key has `n` of the 22 bytes that it has together with the recipient. -/
def boundaryFlash (n : Nat) : FlashTransaction :=
  ⟨1, List.replicate n 7, List.replicate (22 - n) 7, 10, 1, 100, List.replicate 16 6, [],
    length_replicate⟩

/-- A byte after the encoding gives another payload of the flash, another boundary a flash of the
    same id and signature hash. -/
theorem flash_codec_ambiguous :
    fromTransaction ((boundaryFlash 2).toTransaction toyCrypto) = some (boundaryFlash 2) ∧
      fromTransaction { (boundaryFlash 2).toTransaction toyCrypto with
        payload := (boundaryFlash 2).payload ++ [0] } = some (boundaryFlash 2) ∧
      (boundaryFlash 2).payload ++ [0] ≠ (boundaryFlash 2).payload ∧
      (∀ c, (boundaryFlash 2).flashId c = (boundaryFlash 3).flashId c ∧
        (boundaryFlash 2).sighash c = (boundaryFlash 3).sighash c) ∧
      (boundaryFlash 2).pubkey ≠ (boundaryFlash 3).pubkey :=
  ⟨by decide, by decide, by simp, fun _ => ⟨rfl, rfl⟩, by decide⟩

theorem flash_codec_apart : (boundaryFlash 2).flashId toyCrypto ≠
      { boundaryFlash 2 with amount := 11 }.flashId toyCrypto := by
  intro h
  have hsame :=
    (((flash_codec_iff toyCrypto).2.2 (boundaryFlash 2) { boundaryFlash 2 with amount := 11 }).1
    (Set.injOn_pair.mpr fun h => absurd h (by decide +kernel))).mpr
      (fun hs => absurd hs.amount (by decide)) h
  exact absurd hsame.amount (by decide)

end FlashTransaction

end Sahyadri.Core
