import Sahyadri.Did.Encode
import Sahyadri.Tx.Validator

/-!
# The DID requests of the RPC service, and what consensus reads of them

* `requests_survive_iff`: a creation survives if its key is in lower case. The other two requests
  write the signature as hex text, and half of the text is read as the signature
  (`deactivation_garbled`).
-/

namespace Sahyadri.Did

open Lib Smt Core Account Tx List Option

/-! ## 1. The requests -/

structure SubmitDidCreateRequest where
  did : String
  sender : String
  publicKeyHex : String
  document : String
  timestamp : UInt64
  signature : String

structure SubmitDidUpdateRequest where
  did : String
  newPublicKeyHex : String
  purposes : String
  signature : String

structure SubmitDidDeactivateRequest where
  did : String
  signature : String

inductive DidRequest where
  | create (r : SubmitDidCreateRequest)
  | update (r : SubmitDidUpdateRequest)
  | deactivate (r : SubmitDidDeactivateRequest)

section Requests

variable (c : Crypto) (verify : Verifier) (isAddress : String → Bool)

/-- The message that `submit_did_create` verifies. -/
def SubmitDidCreateRequest.message (r : SubmitDidCreateRequest) : Bytes :=
  let binding := didBindingHash c r.did r.sender r.publicKeyHex r.document 1
  strBytes ("did:create:" ++ r.sender ++ ":1:" ++ hexString binding.bytes)

/-- `submit_did_create`: the payload, or the text of the error. `isAddress` says which texts
    `Address::try_from` reads. -/
def submitDidCreate (r : SubmitDidCreateRequest) : Except String Bytes :=
  match hexDecode (strBytes r.publicKeyHex) with
  | none => .error "Invalid public key hex"
  | some pubkey =>
    match hexDecode (strBytes r.signature) with
    | none => .error "Invalid signature hex"
    | some sig =>
      if ¬ verify pubkey sig (r.message c) then .error "Invalid signature — DID create rejected"
      else if ¬ isAddress r.sender then .error "Invalid sender address"
      else .ok (ascii "DCRT" ++ (putStr r.did ++
        (pubkey ++ (putStr r.sender ++ (putStr r.document ++ u64Le r.timestamp)))) ++ sig)

def submitDidUpdate (r : SubmitDidUpdateRequest) : Bytes :=
  ascii "DUPD" ++
    (putStr r.did ++ (putStr r.newPublicKeyHex ++ (putStr r.purposes ++ putStr r.signature)))

def submitDidDeactivate (r : SubmitDidDeactivateRequest) : Bytes :=
  ascii "DDEC" ++ (putStr r.did ++ putStr r.signature)

variable {c verify isAddress} {r : SubmitDidCreateRequest} {s : String}

theorem submitDidCreate_ok {pubkey sig : Bytes}
    (hkey : hexToBytes r.publicKeyHex = some pubkey) (hsig : hexToBytes r.signature = some sig)
    (hvalid : verify pubkey sig (r.message c) = true) (haddr : isAddress r.sender = true) :
    ∃ payload, submitDidCreate c verify isAddress r = .ok payload := by
  rw [hexToBytes] at hkey hsig
  simp [submitDidCreate, hkey, hsig, hvalid, haddr]

/-! ## 2. Reading them -/

theorem rdStr_putStr (h : (strBytes s).length < 2 ^ 32) (rest : Bytes) :
    rdStr (putStr s ++ rest) = some (s, rest) := by
  have hlen : ofLe (u32Le (strBytes s).length) = (strBytes s).length := ofLe_leBytes_of_lt h
  have hutf : String.fromUTF8? ⟨(strBytes s).toArray⟩ = some s := dif_pos s.isValidUTF8
  rw [rdStr, putStr, append_assoc, readN_append (length_u32Le _)]
  simp only [bind_eq_bind, bind_some, hlen, readN_append rfl, hutf]
  rfl

/-- The first four bytes are the tag, the last `n` bytes the signature. -/
theorem parse_split {payload tag rest sig : Bytes} {n : Nat} (h : payload = tag ++ rest ++ sig)
    (htag : tag.length = 4) (hsig : sig.length = n) : ¬ payload.length < 4 + n ∧
      payload.drop (payload.length - n) = sig ∧ (payload.take (payload.length - n)).take 4 = tag ∧
      (payload.take (payload.length - n)).drop 4 = rest := by
  subst h
  have hlen : (tag ++ rest ++ sig).length - n = (tag ++ rest).length := by
    rw [length_append, hsig, Nat.add_sub_cancel]
  rw [hlen, take_left, drop_left, take_left' htag, drop_left' htag]
  exact ⟨by simp; omega, rfl, rfl, rfl⟩

/-- What is read of a payload that ends in a signature in hex: its second half is the signature. -/
theorem parse_hexText {tag front : Bytes} {signature : String} (htag : tag.length = 4)
    (hsig : (strBytes signature).length = 2 * sigSize) {payload : Bytes}
    (h : payload = tag ++ (front ++ putStr signature)) : ∃ rest, 8 ≤ rest.length ∧
      ¬ payload.length < 4 + sigSize ∧
      payload.drop (payload.length - sigSize) = (strBytes signature).drop sigSize ∧
      (payload.take (payload.length - sigSize)).take 4 = tag ∧
      (payload.take (payload.length - sigSize)).drop 4 = front ++ rest := by
  refine ⟨u32Le (strBytes signature).length ++ (strBytes signature).take sigSize, ?_,
    parse_split ?_ htag ?_⟩
  · have hsize : sigSize = 3309 := rfl
    rw [length_append, length_u32Le, length_take]
    omega
  · rw [h, putStr, append_assoc, append_assoc, append_assoc, take_append_drop]
  · rw [length_drop]
    omega

variable {pubkey sig : Bytes}

/-- What is parsed of a creation is what was requested. -/
theorem create_parsed {payload : Bytes}
    (hdid : (strBytes r.did).length < 2 ^ 32) (hsender : (strBytes r.sender).length < 2 ^ 32)
    (hdoc : (strBytes r.document).length < 2 ^ 32) (hkey : hexToBytes r.publicKeyHex = some pubkey)
    (hkeyLen : pubkey.length = pubkeyBytes) (hsig : hexToBytes r.signature = some sig)
    (hsigLen : sig.length = sigSize) (h : submitDidCreate c verify isAddress r = .ok payload) :
    verify pubkey sig (r.message c) = true ∧ parseDidOp payload sigSize =
      some (.create pubkey r.did r.sender r.document r.timestamp sig) := by
  rw [hexToBytes] at hkey hsig
  simp only [submitDidCreate, hkey, hsig] at h
  split at h
  · cases h
  rename_i hvalid
  split at h
  · cases h
  obtain ⟨hlong, hend, htag, hrest⟩ := parse_split (Except.ok.inj h).symm rfl hsigLen
  have hlast := readN_append (length_u64Le r.timestamp) []
  rw [append_nil] at hlast
  refine ⟨not_not.mp hvalid, ?_⟩
  simp only [parseDidOp, if_neg hlong, hend, htag, hrest, if_true, rdStr_putStr hdid, bind_eq_bind,
    bind_some, readN_append hkeyLen, rdStr_putStr hsender, rdStr_putStr hdoc, hlast, ofU64Le_u64Le]
  rfl

/-- What is parsed of an update: the new key as the document, and the second half of the hex
    text. -/
theorem update_parsed {r : SubmitDidUpdateRequest} (hdid : (strBytes r.did).length < 2 ^ 32)
    (hkey : (strBytes r.newPublicKeyHex).length < 2 ^ 32)
    (hsig : (strBytes r.signature).length = 2 * sigSize) : ∃ timestamp,
      parseDidOp (submitDidUpdate r) sigSize =
        some (.update r.did r.newPublicKeyHex timestamp ((strBytes r.signature).drop sigSize)) := by
  have hpayload : submitDidUpdate r = ascii "DUPD" ++ ((putStr r.did ++ (putStr r.newPublicKeyHex ++
      putStr r.purposes)) ++ putStr r.signature) := by
    simp only [submitDidUpdate, append_assoc]
  obtain ⟨rest, hrest, hlong, hend, htag, hbody⟩ := parse_hexText rfl hsig hpayload
  have hts : ¬ (putStr r.purposes ++ rest).length < 8 := by
    rw [length_append]
    omega
  have htags : ascii "DUPD" ≠ ascii "DCRT" := by decide
  simp only [parseDidOp, if_neg hlong, hend, htag, hbody, if_neg htags, if_true, append_assoc,
    rdStr_putStr hdid, rdStr_putStr hkey, bind_eq_bind, bind_some, lastU64, if_neg hts]
  exact ⟨_, rfl⟩

/-- What is parsed of a deactivation has the second half of the hex text. -/
theorem deactivate_parsed {r : SubmitDidDeactivateRequest} (hdid : (strBytes r.did).length < 2 ^ 32)
    (hsig : (strBytes r.signature).length = 2 * sigSize) : ∃ timestamp,
      parseDidOp (submitDidDeactivate r) sigSize =
        some (.deactivate r.did timestamp ((strBytes r.signature).drop sigSize)) := by
  obtain ⟨rest, hrest, hlong, hend, htag, hbody⟩ :=
    @parse_hexText _ _ _ rfl hsig (submitDidDeactivate r) rfl
  have htags : ascii "DDEC" ≠ ascii "DCRT" ∧ ascii "DDEC" ≠ ascii "DUPD" := by decide
  simp only [parseDidOp, if_neg hlong, hend, htag, hbody, if_neg htags.1, if_neg htags.2, if_true,
    rdStr_putStr hdid, bind_eq_bind, bind_some, lastU64, if_neg (Nat.not_lt.mpr hrest)]
  exact ⟨_, rfl⟩

/-! ## 3. Which requests survive -/

variable (c isAddress pubkey sig)

/-- The operation of the same kind with the fields of the request; for a creation, under every
    verification that accepts keys and signatures of the right lengths, with a signature that stays
    valid. -/
def DidRequest.Survives : DidRequest → Prop
  | .create r => ∀ verify : Verifier,
      (∀ key s msg, verify key s msg = true → key.length = pubkeyBytes ∧ s.length = sigSize) →
      ∀ payload, submitDidCreate c verify isAddress r = .ok payload → parseDidOp payload sigSize =
      some (.create pubkey r.did r.sender r.document r.timestamp sig) ∧
          verify pubkey sig (createMessage c pubkey r.did r.sender r.document) = true
  | .update r => ∃ timestamp,
      parseDidOp (submitDidUpdate r) sigSize = some (.update r.did r.purposes timestamp sig)
  | .deactivate r => ∃ timestamp,
      parseDidOp (submitDidDeactivate r) sigSize = some (.deactivate r.did timestamp sig)

/-- The hex fields are those of key and signature, the texts fit their length prefixes, and a
    creation has nothing that is rejected without a look at the signature. -/
def DidRequest.WellFormed : DidRequest → Prop
  | .create r => hexToBytes r.publicKeyHex = some pubkey ∧ pubkey.length = pubkeyBytes ∧
      hexToBytes r.signature = some sig ∧
      isAddress r.sender = true ∧ (strBytes r.did).length < 2 ^ 32 ∧
      (strBytes r.sender).length < 2 ^ 32 ∧ (strBytes r.document).length < 2 ^ 32
  | .update r => hexToBytes r.newPublicKeyHex = some pubkey ∧ hexToBytes r.signature = some sig ∧
      (strBytes r.did).length < 2 ^ 32 ∧ (strBytes r.newPublicKeyHex).length < 2 ^ 32
  | .deactivate r => hexToBytes r.signature = some sig ∧ (strBytes r.did).length < 2 ^ 32

/-- The binding hash of a creation is not that of the same fields with another writing of the
    key. -/
def DidRequest.CollisionFree : DidRequest → Prop
  | .create r => didBindingHash c r.did r.sender r.publicKeyHex r.document 1 =
      didBindingHash c r.did r.sender (hexString pubkey) r.document 1 →
      r.publicKeyHex = hexString pubkey
  | _ => True

/-- The key of a creation is in lower case. The signature of another request is the second half of
    its own hex text, and the purposes of an update are its key. -/
def DidRequest.Plain : DidRequest → Prop
  | .create r => r.publicKeyHex = hexString pubkey
  | .update r => r.newPublicKeyHex = r.purposes ∧ (strBytes r.signature).drop sigSize = sig
  | .deactivate r => (strBytes r.signature).drop sigSize = sig

variable {c isAddress pubkey sig}

theorem length_hexText (h : hexToBytes s = some sig) (hlen : sig.length = sigSize) :
    (strBytes s).length = 2 * sigSize :=
  hlen ▸ length_hexDecode h

theorem hexString_inj {a b : Bytes} (h : hexString a = hexString b) : a = b := by
  have hb := hexToBytes_hexString b
  rw [← h, hexToBytes_hexString] at hb
  exact some.inj hb

/-- The two messages are of one binding hash if they are the same. -/
theorem message_eq
    (h : createMessage c pubkey r.did r.sender r.document = r.message c) :
    didBindingHash c r.did r.sender r.publicKeyHex r.document 1 =
      didBindingHash c r.did r.sender (hexString pubkey) r.document 1 := by
  have hbytes := h
  simp only [createMessage, SubmitDidCreateRequest.message, strBytes_append] at hbytes
  have hhex := strBytes_inj (append_cancel_left hbytes)
  exact (H256.ext (hexString_inj hhex)).symm

/-- **Which requests survive the way to consensus.** -/
theorem requests_survive_iff {q : DidRequest} (hsig : sig.length = sigSize)
    (hq : q.WellFormed isAddress pubkey sig) (hcf : q.CollisionFree c pubkey) :
    q.Survives c isAddress pubkey sig ↔ q.Plain pubkey sig := by
  cases q with
  | create r =>
    obtain ⟨hkey, hkeyLen, hs, haddr, hdid, hsender, hdoc⟩ := hq
    constructor
    · -- a verification that accepts the message of the service only
      intro h
      refine hcf (message_eq ?_)
      obtain ⟨payload, hok⟩ := @submitDidCreate_ok c
        (fun k s msg => decide (k = pubkey ∧ s = sig ∧ msg = r.message c)) isAddress r _ _ hkey hs
        (decide_eq_true ⟨rfl, rfl, rfl⟩) haddr
      have hv := (h _ ?_ payload hok).2
      · exact (of_decide_eq_true hv).2.2
      · intro k s msg hv
        obtain ⟨rfl, rfl, -⟩ := of_decide_eq_true hv
        exact ⟨hkeyLen, hsig⟩
    · intro hlower verify _ payload hok
      obtain ⟨hvalid, hparse⟩ := create_parsed hdid hsender hdoc hkey hkeyLen hs hsig hok
      refine ⟨hparse, ?_⟩
      have hplain : r.publicKeyHex = hexString pubkey := hlower
      rw [createMessage, ← hplain]
      exact hvalid
  | update r =>
    obtain ⟨-, hs, hdid, hnew⟩ := hq
    obtain ⟨timestamp, hparse⟩ := update_parsed hdid hnew (length_hexText hs hsig)
    constructor
    · rintro ⟨ts, h⟩
      obtain ⟨-, hdoc, -, hsame⟩ := DidOp.update.inj (some.inj (hparse.symm.trans h))
      exact ⟨hdoc, hsame⟩
    · rintro ⟨hdoc, hsame⟩
      exact ⟨timestamp, hdoc ▸ hsame ▸ hparse⟩
  | deactivate r =>
    obtain ⟨hs, hdid⟩ := hq
    obtain ⟨timestamp, hparse⟩ := deactivate_parsed hdid (length_hexText hs hsig)
    constructor
    · rintro ⟨ts, h⟩
      exact (DidOp.deactivate.inj (some.inj (hparse.symm.trans h))).2.2
    · intro hsame
      exact ⟨timestamp, (show _ = sig from hsame) ▸ hparse⟩

end Requests

/-! ## 4. Two requests -/

def zerosHex (n : Nat) : String := String.ofList (List.replicate (2 * n) '0')

theorem hexToBytes_zerosHex (n : Nat) : hexToBytes (zerosHex n) = some (List.replicate n 0) := by
  rw [hexToBytes, zerosHex, strBytes_zeros, hexDecode_zeros]

theorem zerosHex_eq (n : Nat) : zerosHex n = hexString (List.replicate n 0) := by
  refine congrArg String.ofList ?_
  induction n with
  | zero => rfl
  | succ n ih =>
    rw [replicate_succ, flatMap_cons, ← ih]
    rfl

def zerosRequest : SubmitDidCreateRequest :=
  ⟨"did:sahyadri:a", "a", zerosHex pubkeyBytes, "b", 7, zerosHex sigSize⟩

/-- The creation is accepted under a verification that looks at the lengths, and it survives. -/
theorem zerosRequest_survives :
    (∃ payload, submitDidCreate toyCrypto (fun k s _ => k.length = pubkeyBytes ∧ s.length = sigSize)
      (fun _ => true) zerosRequest = .ok payload) ∧
    (DidRequest.create zerosRequest).Survives toyCrypto (fun _ => true)
      (List.replicate pubkeyBytes 0) (List.replicate sigSize 0) := by
  have hkey := hexToBytes_zerosHex pubkeyBytes
  have hsig := hexToBytes_zerosHex sigSize
  have hlower := zerosHex_eq pubkeyBytes
  refine ⟨submitDidCreate_ok hkey hsig (decide_eq_true ⟨length_replicate, length_replicate⟩) rfl,
    ?_⟩
  refine (requests_survive_iff length_replicate ?_ ?_).mpr hlower
  · exact ⟨hkey, length_replicate, hsig, rfl, by decide, by decide, by decide⟩
  · exact fun _ => hlower

/-- **A deactivation whose signature is garbled.** The signature is zero bytes, and the digits `0`
    are read. -/
theorem deactivation_garbled :
    ∃ (r : SubmitDidDeactivateRequest) (sig sig' : Bytes) (timestamp : UInt64),
    hexToBytes r.signature = some sig ∧ sig.length = sigSize ∧
      parseDidOp (submitDidDeactivate r) sigSize = some (.deactivate r.did timestamp sig') ∧
      sig' ≠ sig := by
  have htext : strBytes (zerosHex sigSize) = replicate (2 * sigSize) 48 := strBytes_zeros _
  obtain ⟨timestamp, h⟩ := deactivate_parsed (r := ⟨"did:sahyadri:a", zerosHex sigSize⟩) (by decide)
    (by rw [htext, length_replicate])
  refine ⟨⟨"did:sahyadri:a", zerosHex sigSize⟩, _, _, timestamp, hexToBytes_zerosHex sigSize,
    length_replicate, h, ?_⟩
  rw [htext, drop_replicate, Nat.two_mul, Nat.add_sub_cancel]
  have hpos : sigSize ≠ 0 := by
    rw [sigSize]
    omega
  exact fun he => absurd ((replicate_right_inj hpos).mp he) (by decide)

end Sahyadri.Did
