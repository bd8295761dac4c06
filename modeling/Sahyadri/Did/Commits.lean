import Sahyadri.Did.Encode
import Mathlib.Data.Set.Function

/-!
# What the two DID hashes commit to

Every text stands with its length in front, the lists are sorted and stand with their length in
front, and the rest has fixed width. So the preimages fall apart in one way only.

* `did_hashes_commit`: without a collision on the preimages, the content hash commits to the
  document and the binding hash to its five arguments.
-/

namespace Sahyadri.Did

open Lib Smt Core Account List

/-! ## 1. Texts and lists of texts -/

/-- The length of the text fits in the `u32` in front of it. -/
def ShortText (s : String) : Prop := (strBytes s).length < 2 ^ 32

instance (s : String) : Decidable (ShortText s) := by unfold ShortText; infer_instance

/-- A list of short texts whose length fits in the `u32` in front of it. -/
def ShortList (l : List String) : Prop := l.length < 2 ^ 32 ∧ ∀ s ∈ l, ShortText s

instance (l : List String) : Decidable (ShortList l) := by unfold ShortList; infer_instance

theorem cuts_u32Le : Cuts u32Le (· < 2 ^ 32) := by
  intro n m hn hm x y h
  obtain ⟨hnm, hxy⟩ := append_inj h (by rw [length_u32Le, length_u32Le])
  have hmod := u32Le_mod hnm
  rw [Nat.mod_eq_of_lt hn, Nat.mod_eq_of_lt hm] at hmod
  exact ⟨hmod, hxy⟩

theorem cuts_u64Le : Cuts u64Le fun _ => True := cuts_of_length length_u64Le fun _ _ => u64Le_inj

theorem cuts_putStr : Cuts putStr ShortText := fun _ _ hs ht _ _ h => putStr_append_inj hs ht h

instance : Std.Total strLe := ⟨fun a b => List.le_total (strBytes a) (strBytes b)⟩

instance : IsTrans String strLe := ⟨fun _ _ _ h h' => List.le_trans h h'⟩

section

variable {l m : List String}

theorem sorted_eq_iff : l.insertionSort strLe = m.insertionSort strLe ↔ l.Perm m := by
  have hl := perm_insertionSort strLe l
  have hm := perm_insertionSort strLe m
  constructor
  · intro h
    rw [h] at hl
    exact hl.symm.trans hm
  · intro h
    exact insertionSort_eq_of_perm
      (fun a _ b _ hab hba => strBytes_inj (List.le_antisymm hab hba)) h

/-- **Two sorted lists, each followed by something.** -/
theorem putSorted_cuts (hl : ShortList l) (hm : ShortList m) {x y : Bytes}
    (h : putSorted l ++ x = putSorted m ++ y) : l.Perm m ∧ x = y := by
  have short : ∀ {k : List String}, ShortList k →
      (k.insertionSort strLe).length < 2 ^ 32 ∧ ∀ s ∈ k.insertionSort strLe, ShortText s :=
    fun {k} hk => ⟨by rw [length_insertionSort]; exact hk.1,
      fun s hs => hk.2 s ((perm_insertionSort strLe k).mem_iff.mp hs)⟩
  obtain ⟨hsort, hxy⟩ := cuts_counted cuts_u32Le cuts_putStr (short hl) (short hm) h
  exact ⟨sorted_eq_iff.mp hsort, hxy⟩

theorem putSorted_congr (h : l.Perm m) : putSorted l = putSorted m := by
  unfold putSorted
  rw [sorted_eq_iff.mpr h]

end

/-! ## 2. Documents -/

/-- All texts and lists of the document are shorter than `2^32`. -/
structure DidDocument.Short (d : DidDocument) : Prop where
  did : ShortText d.did
  csmAddress : ShortText d.csmAddress
  publicKey : ShortText d.publicKey
  document : ShortText d.document
  purposes : ShortList d.purposes
  services : ShortList d.services

/-- The documents agree in everything, the two lists up to their order. -/
structure DidDocument.Agree (d e : DidDocument) : Prop where
  did : d.did = e.did
  csmAddress : d.csmAddress = e.csmAddress
  publicKey : d.publicKey = e.publicKey
  document : d.document = e.document
  active : d.active = e.active
  version : d.version = e.version
  createdAt : d.createdAt = e.createdAt
  updatedAt : d.updatedAt = e.updatedAt
  purposes : d.purposes.Perm e.purposes
  services : d.services.Perm e.services

/-- **Short documents have one preimage exactly when they agree.** -/
theorem DidDocument.preimage_eq_iff {d e : DidDocument} (hd : d.Short) (he : e.Short) :
    d.preimage = e.preimage ↔ d.Agree e := by
  constructor
  · intro h
    replace h := append_cancel_left h
    simp only [append_assoc] at h
    obtain ⟨h1, h⟩ := cuts_putStr hd.did he.did h
    obtain ⟨h2, h⟩ := cuts_putStr hd.csmAddress he.csmAddress h
    obtain ⟨h3, h⟩ := cuts_putStr hd.publicKey he.publicKey h
    obtain ⟨h4, h⟩ := cuts_putStr hd.document he.document h
    obtain ⟨h5, h⟩ := append_inj h (by simp)
    obtain ⟨h6, h⟩ := cuts_u64Le trivial trivial h
    obtain ⟨h7, h⟩ := cuts_u64Le trivial trivial h
    obtain ⟨h8, h⟩ := cuts_u64Le trivial trivial h
    obtain ⟨h9, h⟩ := putSorted_cuts hd.purposes he.purposes h
    have h := congrArg (· ++ ([] : Bytes)) h
    obtain ⟨h10, -⟩ := putSorted_cuts hd.services he.services h
    refine ⟨h1, h2, h3, h4, ?_, h6, h7, h8, h9, h10⟩
    revert h5
    cases d.active <;> cases e.active <;> simp
  · intro h
    unfold DidDocument.preimage
    rw [h.did, h.csmAddress, h.publicKey, h.document, h.active, h.version, h.createdAt, h.updatedAt,
      putSorted_congr h.purposes, putSorted_congr h.services]

/-! ## 3. The binding hash -/

/-- The arguments of `did_binding_hash`. -/
structure Binding where
  did : String
  csmAddress : String
  publicKeyHex : String
  document : String
  version : UInt64
  deriving DecidableEq, Repr

namespace Binding

def hash (c : Crypto) (b : Binding) : Hash :=
  didBindingHash c b.did b.csmAddress b.publicKeyHex b.document b.version

def preimage (b : Binding) : Bytes :=
  ascii "SAHYADRI_DID_BIND_V1" ++ (putStr b.did ++ putStr b.csmAddress ++ putStr b.publicKeyHex ++
    putStr b.document ++ u64Le b.version)

structure Short (b : Binding) : Prop where
  did : ShortText b.did
  csmAddress : ShortText b.csmAddress
  publicKeyHex : ShortText b.publicKeyHex
  document : ShortText b.document

theorem preimage_inj {b b' : Binding} (hb : b.Short) (hb' : b'.Short)
    (h : b.preimage = b'.preimage) : b = b' := by
  replace h := append_cancel_left h
  simp only [append_assoc] at h
  obtain ⟨h1, h⟩ := cuts_putStr hb.did hb'.did h
  obtain ⟨h2, h⟩ := cuts_putStr hb.csmAddress hb'.csmAddress h
  obtain ⟨h3, h⟩ := cuts_putStr hb.publicKeyHex hb'.publicKeyHex h
  obtain ⟨h4, h⟩ := cuts_putStr hb.document hb'.document h
  cases b
  cases b'
  simp only at h1 h2 h3 h4 h
  rw [h1, h2, h3, h4, u64Le_inj h]

end Binding

/-! ## 4. The hashes -/

open Binding

/-- **The content hash commits to the whole document, the binding hash to its five arguments**, for
    texts and lists shorter than `2^32` on whose preimages SHA3-256 does not collide. -/
theorem did_hashes_commit (c : Crypto) :
    (∀ d e : DidDocument, d.Short → e.Short → Set.InjOn c.sha3 {d.preimage, e.preimage} →
      (didContentHash c d = didContentHash c e ↔ d.Agree e)) ∧
    ∀ b b' : Binding, b.Short → b'.Short → Set.InjOn c.sha3 {b.preimage, b'.preimage} →
      b.hash c = b'.hash c → b = b' := by
  refine ⟨fun d e hd he hinj => ?_, fun b b' hb hb' hinj h => ?_⟩
  · rw [← DidDocument.preimage_eq_iff hd he]
    exact ⟨fun h => hinj (.inl rfl) (.inr rfl) h, fun h => congrArg c.sha3 h⟩
  · exact preimage_inj hb hb' (hinj (.inl rfl) (.inr rfl) h)

def sampleDocument (purposes : List String) : DidDocument :=
  ⟨"did:1", "csm1", "00", "x", purposes, [], true, 3, 4, 1⟩

/-- The purposes may stand in either order, and two versions bind apart. -/
theorem did_hashes_commit_sample : didContentHash toyCrypto
      (sampleDocument ["a", "b"]) = didContentHash toyCrypto (sampleDocument ["b", "a"]) ∧
      (mk "did:1" "csm1" "00" "x" 1).hash toyCrypto ≠
        (mk "did:1" "csm1" "00" "x" 2).hash toyCrypto := by
  refine ⟨((did_hashes_commit toyCrypto).1 _ _ ?_ ?_ ?_).mpr ?_, fun h => ?_⟩
  · constructor <;> decide
  · constructor <;> decide
  · exact Set.injOn_pair.mpr fun _ => by decide
  · constructor <;> first | rfl | decide
  · have := (did_hashes_commit toyCrypto).2 (mk "did:1" "csm1" "00" "x" 1)
      (mk "did:1" "csm1" "00" "x" 2) (by constructor <;> decide) (by constructor <;> decide)
      (Set.injOn_pair.mpr fun h => absurd h (by decide +kernel)) h
    cases this

end Sahyadri.Did
