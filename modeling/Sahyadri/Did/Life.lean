import Sahyadri.Did.Ledger
import Sahyadri.Did.Encode

/-!
# The life of a DID, operation by operation

* `DidHistory`: the documents together with the operations that were accepted, in order.
-/

namespace Sahyadri.Did

open Lib Smt Core Account List DidOp

/-! ## 1. Histories -/

/-- An accepted operation: when, which, and the document before and after it. -/
structure Accepted where
  daaScore : UInt64
  op : DidOp
  before : Option DidDocument
  after : DidDocument

/-- The documents, and the operations accepted so far. -/
structure DidHistory where
  docs : String → Option DidDocument
  log : List Accepted

def DidOp.sig : DidOp → Bytes
  | .create _ _ _ _ _ sig => sig
  | .update _ _ _ sig => sig
  | .deactivate _ _ sig => sig

def DidOp.isCreate : DidOp → Bool
  | .create .. => true
  | _ => false

/-- The words that the message of an operation begins with. -/
def DidOp.kind : DidOp → String
  | .create .. => "did:create:"
  | .update .. => "did:update:"
  | .deactivate .. => "did:deactivate:"

def logOf (did : String) (log : List Accepted) : List Accepted := log.filter fun a => a.op.did = did

section Step

variable (c : Crypto) (network : Prefix) (verify : Verifier)

def DidHistory.step (daaScore : UInt64) (h : DidHistory) (op : DidOp) : DidHistory :=
  if op.wellFormed c network then
    match op.outcome c daaScore verify (h.docs op.did) with
    | some doc =>
      ⟨Function.update h.docs op.did (some doc), h.log ++ [⟨daaScore, op, h.docs op.did, doc⟩]⟩
    | none => h
  else h

def DidHistory.run (daaScore : UInt64) (h : DidHistory) (ops : List DidOp) : DidHistory :=
  ops.foldl (DidHistory.step c network verify daaScore) h

/-! ## 2. Lives -/

def newDocument (daaScore : UInt64) (pubkey : Bytes) (did csmAddress document : String) :
    DidDocument :=
  ⟨did, csmAddress, hexString pubkey, document, ["authentication"], [], true, daaScore, daaScore, 1⟩

/-- The accepted operations on a DID, and its document after them. -/
inductive Life (did : String) : List Accepted → Option DidDocument → Prop
  | absent : Life did [] none
  | create {daaScore timestamp : UInt64} {pubkey sig : Bytes} {csmAddress document : String}
      (hdid : did = didPrefix ++ csmAddress)
      (haddr : deriveCsmAddress c pubkey network = csmAddress)
      (hshort : (strBytes document).length ≤ maxDidDocBytes)
      (hsig : verify pubkey sig (createMessage c pubkey did csmAddress document) = true) :
      Life did [⟨daaScore, .create pubkey did csmAddress document timestamp sig, none,
          newDocument daaScore pubkey did csmAddress document⟩]
        (some (newDocument daaScore pubkey did csmAddress document))
  | update {log : List Accepted} {cur : DidDocument} {daaScore timestamp : UInt64}
      {document : String} {sig pk : Bytes} (h : Life did log (some cur))
      (hactive : cur.active = true) (hshort : (strBytes document).length ≤ maxDidDocBytes)
      (hpk : hexToBytes cur.publicKey = some pk)
      (hsig : verify pk sig (updateMessage c cur document) = true) :
      Life did (log ++ [⟨daaScore, .update did document timestamp sig, some cur,
          { cur with document := document, updatedAt := daaScore, version := cur.version + 1 }⟩])
        (some { cur with document := document, updatedAt := daaScore, version := cur.version + 1 })
  | deactivate {log : List Accepted} {cur : DidDocument} {daaScore timestamp : UInt64}
      {sig pk : Bytes} (h : Life did log (some cur)) (hactive : cur.active = true)
      (hpk : hexToBytes cur.publicKey = some pk)
      (hsig : verify pk sig (deactivateMessage cur) = true) :
      Life did (log ++ [⟨daaScore, .deactivate did timestamp sig, some cur,
          { cur with active := false, updatedAt := daaScore, version := cur.version + 1 }⟩])
        (some { cur with active := false, updatedAt := daaScore, version := cur.version + 1 })

/-- How a document may change from one moment to a later one. -/
structure Continues (d d' : DidDocument) : Prop where
  did : d'.did = d.did
  csmAddress : d'.csmAddress = d.csmAddress
  publicKey : d'.publicKey = d.publicKey
  createdAt : d'.createdAt = d.createdAt
  inactive : d.active = false → d' = d

/-- `text` names the kind of the operation, the address and the version, as the messages do. -/
def NamesVersion (kind : String) (text : Bytes) (csmAddress : String) (version : UInt64) : Prop :=
  ∃ tail, (tail = "" ∨ ∃ rest, tail = ":" ++ rest) ∧
    text = strBytes (kind ++ csmAddress ++ ":" ++ toString version.toNat ++ tail)

/-- What holds of the document of a DID and of the operations accepted on it. -/
structure Lifecycle (did : String) (log : List Accepted) (cur : Option DidDocument) : Prop where
  /-- Nothing was accepted before a document is there. -/
  absent : cur = none → log = []
  /-- The first accepted operation is a creation, the others are not. -/
  created : ∀ d ∈ cur, ∃ first later, log = first :: later ∧ first.op.isCreate = true ∧
    first.daaScore = d.createdAt ∧ ∀ a ∈ later, a.op.isCreate = false
  /-- The version counts the accepted updates and deactivations. -/
  version : ∀ d ∈ cur, d.version = 1 + UInt64.ofNat (log.countP fun a => !a.op.isCreate)
  /-- The DID is the one of the address, and the address that of the key. -/
  address : ∀ d ∈ cur, d.did = did ∧ d.did = didPrefix ++ d.csmAddress ∧
    ∃ pk, hexToBytes d.publicKey = some pk ∧ d.csmAddress = deriveCsmAddress c pk network
  /-- Key, address and time of creation are those of every accepted operation. -/
  constant : ∀ d ∈ cur, ∀ a ∈ log, Continues a.after d ∧ ∀ b ∈ a.before, Continues b a.after
  active : ∀ a ∈ log, ∀ b ∈ a.before, b.active = true
  /-- The document was last changed by the last accepted operation. -/
  updatedAt : ∀ d ∈ cur, log.getLast?.map Accepted.daaScore = some d.updatedAt
  /-- Each accepted operation is signed with the stored key for the version that is next: the
      `i`-th names the version `i + 1`. -/
  signed : ∀ d ∈ cur, ∃ pk, hexToBytes d.publicKey = some pk ∧ ∀ i a, log[i]? = some a →
    a.after.version = UInt64.ofNat (i + 1) ∧ ∃ text, NamesVersion a.op.kind text d.csmAddress
    (UInt64.ofNat (i + 1)) ∧ verify pk a.op.sig text = true

end Step

variable {c : Crypto} {network : Prefix} {verify : Verifier}
  {daaScore : UInt64} {did : String}

/-! ## 3. What an accepted operation does -/

variable {d doc e f d' cur : DidDocument} {log : List Accepted} {op : DidOp}

/-- **An accepted operation continues the life of its DID.** -/
theorem Life.step {cur : Option DidDocument} (h : Life c network verify op.did log cur)
    (hwf : op.wellFormed c network = true) (hout : op.outcome c daaScore verify cur = some doc) :
    Life c network verify op.did (log ++ [⟨daaScore, op, cur, doc⟩]) (some doc) := by
  cases op with
  | create pubkey did csmAddress document timestamp sig =>
    simp only [wellFormed, Bool.and_eq_true, decide_eq_true_eq, beq_iff_eq] at hwf
    obtain ⟨⟨hshort, hdid⟩, haddr⟩ := hwf
    cases cur with
    | some cur => cases hout
    | none =>
      simp only [outcome] at hout
      split at hout
      · rename_i hsig
        cases hout
        cases h
        exact .create hdid haddr hshort hsig
      · cases hout
  | update did document timestamp sig =>
    simp only [wellFormed, decide_eq_true_eq] at hwf
    cases cur with
    | none => cases hout
    | some cur =>
      simp only [outcome] at hout
      split at hout
      · rename_i hactive
        obtain ⟨pk, hpk, hout⟩ := Option.bind_eq_some_iff.mp hout
        split at hout
        · rename_i hsig
          cases hout
          exact .update h hactive hwf hpk hsig
        · cases hout
      · cases hout
  | deactivate did timestamp sig =>
    cases cur with
    | none => cases hout
    | some cur =>
      simp only [outcome] at hout
      split at hout
      · rename_i hactive
        obtain ⟨pk, hpk, hout⟩ := Option.bind_eq_some_iff.mp hout
        split at hout
        · rename_i hsig
          cases hout
          exact .deactivate h hactive hpk hsig
        · cases hout
      · cases hout

/-- What a step does to one DID: nothing, or it continues the life with an accepted operation. -/
theorem DidHistory.step_cases (c : Crypto) (network : Prefix)
    (verify : Verifier) (daaScore : UInt64) (h : DidHistory)
    (op : DidOp) (did : String) : ((h.step c network verify daaScore op).docs did = h.docs did ∧
      logOf did (h.step c network verify daaScore op).log = logOf did h.log) ∨ ∃ doc, op.did = did ∧
        op.wellFormed c network = true ∧ op.outcome c daaScore verify (h.docs did) = some doc ∧
      (h.step c network verify daaScore op).docs did = some doc ∧
      logOf did (h.step c network verify daaScore op).log =
        logOf did h.log ++ [⟨daaScore, op, h.docs did, doc⟩] := by
  unfold DidHistory.step
  split
  · rename_i hwf
    split
    · rename_i doc hout
      by_cases hd : op.did = did
      · subst hd
        exact .inr ⟨doc, rfl, hwf, hout, by simp, by simp [logOf]⟩
      · exact .inl ⟨by simp [Function.update_of_ne (Ne.symm hd)], by simp [logOf, hd]⟩
    · exact .inl ⟨rfl, rfl⟩
  · exact .inl ⟨rfl, rfl⟩

/-- The history of every DID is a life. -/
def DidHistory.Lives (c : Crypto) (network : Prefix)
    (verify : Verifier) (h : DidHistory) : Prop :=
  ∀ did, Life c network verify did (logOf did h.log) (h.docs did)

variable {h : DidHistory}

theorem DidHistory.Lives.step (hl : h.Lives c network verify) (op : DidOp) :
    (h.step c network verify daaScore op).Lives c network verify := by
  intro did
  rcases h.step_cases c network verify daaScore op did with
    ⟨hdocs, hlog⟩ | ⟨doc, rfl, hwf, hout, hdocs, hlog⟩
  · rw [hdocs, hlog]
    exact hl did
  · rw [hdocs, hlog]
    exact (hl op.did).step hwf hout

/-- **Histories are made of lives.** -/
theorem DidHistory.Lives.run (hl : h.Lives c network verify) (ops : List DidOp) :
    (h.run c network verify daaScore ops).Lives c network verify := by
  induction ops generalizing h with
  | nil => exact hl
  | cons op ops ih => exact ih (hl.step op)

/-! ## 4. What follows for the document -/

theorem Continues.refl (d : DidDocument) : Continues d d := ⟨rfl, rfl, rfl, rfl, fun _ => rfl⟩

theorem Continues.trans (h : Continues d e) (h' : Continues e f) : Continues d f := by
  refine ⟨h'.did.trans h.did, h'.csmAddress.trans h.csmAddress, h'.publicKey.trans h.publicKey,
    h'.createdAt.trans h.createdAt, fun hd => ?_⟩
  obtain rfl := h.inactive hd
  exact h'.inactive hd

theorem Continues.of_active (hactive : d.active = true)
    (h1 : d'.did = d.did) (h2 : d'.csmAddress = d.csmAddress)
    (h3 : d'.publicKey = d.publicKey) (h4 : d'.createdAt = d.createdAt) : Continues d d' :=
  ⟨h1, h2, h3, h4, fun hd => by rw [hactive] at hd; cases hd⟩

theorem Life.plain (h : Life c network verify did log (some d)) : d.Plain := by
  generalize hcur : some d = cur at h
  induction h generalizing d with
  | absent => cases hcur
  | @create daaScore timestamp pubkey sig csmAddress document hdid haddr hshort hsig =>
    cases hcur
    have haddr' := length_deriveCsmAddress_le c pubkey network
    rw [haddr] at haddr'
    have hpre : (strBytes didPrefix).length = 13 := by decide
    refine ⟨?_, ?_, hshort, rfl, rfl⟩
    · simp only [newDocument, hdid, strBytes_append, length_append]
      omega
    · simp only [newDocument]
      omega
  | update h hactive hshort hpk hsig ih =>
    cases hcur
    obtain ⟨h1, h2, -, h4, h5⟩ := ih rfl
    exact ⟨h1, h2, hshort, h4, h5⟩
  | deactivate h hactive hpk hsig ih =>
    cases hcur
    obtain ⟨h1, h2, h3, h4, h5⟩ := ih rfl
    exact ⟨h1, h2, h3, h4, h5⟩

theorem createMessage_names (c : Crypto) (pubkey : Bytes) (did csmAddress document : String) :
    NamesVersion "did:create:" (createMessage c pubkey did csmAddress document) csmAddress 1 := by
  refine ⟨":" ++ hexString (didBindingHash c did csmAddress (hexString pubkey)
    document 1).bytes, .inr ⟨_, rfl⟩, ?_⟩
  rw [createMessage]
  congr 1
  simp only [String.append_assoc]
  rfl

theorem updateMessage_names (c : Crypto) (cur : DidDocument) (document : String) :
    NamesVersion "did:update:" (updateMessage c cur document) cur.csmAddress (cur.version + 1) := by
  refine ⟨":" ++ hexString (didBindingHash c cur.did cur.csmAddress cur.publicKey
    document (cur.version + 1)).bytes, .inr ⟨_, rfl⟩, ?_⟩
  rw [updateMessage]
  congr 1
  simp only [String.append_assoc]

theorem deactivateMessage_names (cur : DidDocument) :
    NamesVersion "did:deactivate:" (deactivateMessage cur) cur.csmAddress (cur.version + 1) := by
  refine ⟨"", .inl rfl, ?_⟩
  rw [deactivateMessage, String.append_empty]

theorem Life.version_eq (h : Life c network verify did log (some d)) :
    d.version = UInt64.ofNat log.length := by
  generalize hcur : some d = cur at h
  induction h generalizing d with
  | absent => cases hcur
  | create =>
    cases hcur
    rfl
  | update h hactive hshort hpk hsig ih =>
    cases hcur
    simp only [ih rfl, length_append, length_singleton, UInt64.ofNat_add]
    rfl
  | deactivate h hactive hpk hsig ih =>
    cases hcur
    simp only [ih rfl, length_append, length_singleton, UInt64.ofNat_add]
    rfl

theorem Lifecycle.extend {pk text : Bytes} (h : Lifecycle c network verify did log (some cur))
    (hlen : cur.version = UInt64.ofNat log.length) (hactive : cur.active = true)
    (hcont : Continues cur doc) (hop : op.isCreate = false) (hver : doc.version = cur.version + 1)
    (hupd : doc.updatedAt = daaScore) (hpk : hexToBytes cur.publicKey = some pk)
    (hnames : NamesVersion op.kind text cur.csmAddress (cur.version + 1))
    (hsig : verify pk op.sig text = true) :
    Lifecycle c network verify did (log ++ [⟨daaScore, op, some cur, doc⟩]) (some doc) where
  absent hnone := by cases hnone
  created d hd := by
    cases hd
    obtain ⟨first, later, rfl, hfirst, hcreated, hlater⟩ := h.created cur rfl
    refine ⟨first, later ++ [⟨daaScore, op, some cur, doc⟩], rfl, hfirst,
      hcreated.trans hcont.createdAt.symm, fun a ha => ?_⟩
    rcases mem_append.mp ha with ha | ha
    · exact hlater a ha
    · rw [mem_singleton.mp ha]
      exact hop
  version d hd := by
    cases hd
    rw [hver, h.version cur rfl, countP_append, UInt64.ofNat_add, ← UInt64.add_assoc]
    simp [hop]
  address d hd := by
    cases hd
    rw [hcont.did, hcont.csmAddress, hcont.publicKey]
    exact h.address cur rfl
  constant d hd a ha := by
    cases hd
    rcases mem_append.mp ha with ha | ha
    · obtain ⟨h1, h2⟩ := h.constant cur rfl a ha
      exact ⟨h1.trans hcont, h2⟩
    · rw [mem_singleton.mp ha]
      refine ⟨.refl _, fun b hb => ?_⟩
      cases hb
      exact hcont
  active a ha b hb := by
    rcases mem_append.mp ha with ha | ha
    · exact h.active a ha b hb
    · rw [mem_singleton.mp ha] at hb
      cases hb
      exact hactive
  updatedAt d hd := by
    cases hd
    simp [hupd]
  signed d hd := by
    cases hd
    obtain ⟨pk', hpk', hall⟩ := h.signed cur rfl
    obtain rfl : pk' = pk := Option.some.inj (hpk'.symm.trans hpk)
    rw [hcont.publicKey, hcont.csmAddress]
    refine ⟨pk', hpk, fun i a hi => ?_⟩
    rcases Nat.lt_trichotomy i log.length with hlt | rfl | hgt
    · rw [getElem?_append_left hlt] at hi
      exact hall i a hi
    · rw [getElem?_append_right (Nat.le_refl _), Nat.sub_self] at hi
      cases hi
      have hnext : cur.version + 1 = UInt64.ofNat (log.length + 1) := by
        rw [hlen, UInt64.ofNat_add]
        rfl
      exact ⟨hver.trans hnext, text, hnext ▸ hnames, hsig⟩
    · rw [getElem?_append_right (by omega), getElem?_eq_none (by simp; omega)] at hi
      cases hi

theorem lifecycle_create {timestamp : UInt64} {pubkey sig : Bytes}
    {csmAddress document : String} (hdid : did = didPrefix ++ csmAddress)
    (haddr : deriveCsmAddress c pubkey network = csmAddress)
    (hsig : verify pubkey sig (createMessage c pubkey did csmAddress document) = true) : Lifecycle
      c network verify did [⟨daaScore, .create pubkey did csmAddress document timestamp sig, none,
        newDocument daaScore pubkey did csmAddress document⟩]
      (some (newDocument daaScore pubkey did csmAddress document)) where
  absent hnone := by cases hnone
  created d hd := by
    cases hd
    exact ⟨_, [], rfl, rfl, rfl, nofun⟩
  version d hd := by
    cases hd
    rfl
  address d hd := by
    cases hd
    exact ⟨rfl, hdid, pubkey, hexToBytes_hexString pubkey, haddr.symm⟩
  constant d hd a ha := by
    cases hd
    rw [mem_singleton.mp ha]
    exact ⟨.refl _, nofun⟩
  active a ha b hb := by
    rw [mem_singleton.mp ha] at hb
    cases hb
  updatedAt d hd := by
    cases hd
    rfl
  signed d hd := by
    cases hd
    refine ⟨pubkey, hexToBytes_hexString pubkey, fun i a hi => ?_⟩
    cases i with
    | zero =>
      cases hi
      exact ⟨rfl, _, createMessage_names c pubkey did csmAddress document, hsig⟩
    | succ i => cases hi

/-- **Every life is a lifecycle.** -/
theorem Life.lifecycle {cur : Option DidDocument} (h : Life c network verify did log cur) :
    Lifecycle c network verify did log cur := by
  induction h with
  | absent =>
    refine ⟨fun _ => rfl, ?_, ?_, ?_, ?_, ?_, ?_, ?_⟩ <;> intro d hd <;> cases hd
  | create hdid haddr hshort hsig => exact lifecycle_create hdid haddr hsig
  | update h hactive hshort hpk hsig ih =>
    exact ih.extend h.version_eq hactive (.of_active hactive rfl rfl rfl rfl) rfl rfl rfl hpk
      (updateMessage_names c _ _) hsig
  | deactivate h hactive hpk hsig ih =>
    exact ih.extend h.version_eq hactive (.of_active hactive rfl rfl rfl rfl) rfl rfl rfl hpk
      (deactivateMessage_names _) hsig

/-! ## 5. From one moment to a later one -/

theorem DidHistory.Lives.continues_step (hl : h.Lives c network verify)
    (op : DidOp) (hd : h.docs did = some d) :
    ∃ d', (h.step c network verify daaScore op).docs did = some d' ∧ Continues d d' := by
  rcases h.step_cases c network verify daaScore op did with
    ⟨hdocs, -⟩ | ⟨doc, rfl, hwf, hout, hdocs, -⟩
  · exact ⟨d, hdocs.trans hd, .refl d⟩
  · -- the document before is that of the last entry of the new life
    have hlife := ((hl op.did).step hwf hout).lifecycle
    obtain ⟨-, hcont⟩ := hlife.constant doc rfl ⟨daaScore, op, h.docs op.did, doc⟩ (by simp)
    exact ⟨doc, hdocs, hcont d hd⟩

theorem DidHistory.Lives.continues (hl : h.Lives c network verify)
    (ops : List DidOp) (hd : h.docs did = some d) :
    ∃ d', (h.run c network verify daaScore ops).docs did = some d' ∧ Continues d d' := by
  induction ops generalizing h d with
  | nil => exact ⟨d, hd, .refl d⟩
  | cons op ops ih =>
    obtain ⟨d₁, hd₁, hc₁⟩ := hl.continues_step op hd
    obtain ⟨d', hd', hc'⟩ := ih (hl.step op) hd₁
    exact ⟨d', hd', hc₁.trans hc'⟩

end Sahyadri.Did
