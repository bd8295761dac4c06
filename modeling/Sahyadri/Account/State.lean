import Sahyadri.Core.Tx
import Sahyadri.Lib.Encoding

/-!
# `account_store`: the state of one account, its canonical bytes and its flash record

* `canonical_iff`: the encoding stands for the balance and the multiset of committed entries exactly
  when entries with one flash id have one expiry. The encoder sorts them by their flash id only.
-/

namespace Sahyadri.Account

open Lib Smt Core List

/-! ## 1. States and what is committed of them -/

/-- A flash transaction in an account's recent history. -/
structure FlashEntry where
  flashId : Hash
  expiryDaaScore : UInt64
  blockHash : Hash
  deriving DecidableEq, Repr

def FlashEntry.core (e : FlashEntry) : Hash × UInt64 := (e.flashId, e.expiryDaaScore)

def FlashEntry.bytes (e : FlashEntry) : Bytes := e.flashId.bytes ++ u64Le e.expiryDaaScore

structure AccountState where
  balance : UInt64
  recentFlashes : List FlashEntry
  deriving DecidableEq, Repr

namespace AccountState

/-- `AccountState::default()`. -/
def default : AccountState := ⟨0, []⟩

def idLe (a b : FlashEntry) : Prop := a.flashId.bytes ≤ b.flashId.bytes

instance : DecidableRel idLe := fun a b => by unfold idLe; infer_instance

variable (st : AccountState)

def toCanonicalBytes : Bytes :=
  let flashes := st.recentFlashes.insertionSort idLe
  u64Le st.balance ++ u32Le flashes.length ++ flashes.flatMap FlashEntry.bytes

def preimage : Bytes := ascii "SAHYADRI_ACCOUNT_STATE_V1" ++ st.toCanonicalBytes

def contentHash (c : Crypto) (st : AccountState) : Hash := c.sha3 st.preimage

/-- `is_empty`: such a state is absent from the tree. -/
def isEmpty : Bool := st.balance == 0 && st.recentFlashes.isEmpty

def leaf (c : Crypto) (st : AccountState) : Option H256 :=
  if st.isEmpty then none else some (st.contentHash c)

/-- The same balance, and the same ids and expiries up to order. -/
structure Same (a b : AccountState) : Prop where
  balance : a.balance = b.balance
  flashes : (a.recentFlashes.map FlashEntry.core).Perm (b.recentFlashes.map FlashEntry.core)

theorem Same.refl (a : AccountState) : Same a a := ⟨rfl, .refl _⟩

variable {st a b : AccountState}

theorem isEmpty_iff : st.isEmpty = true ↔ st = default := by
  rcases st with ⟨b, fs⟩
  simp [isEmpty, default]

theorem core_eq_of_bytes {e f : FlashEntry} (h : e.bytes = f.bytes) : e.core = f.core := by
  obtain ⟨h1, h2⟩ := append_inj h (by rw [e.flashId.length_eq, f.flashId.length_eq])
  exact Prod.ext (H256.ext h1) (u64Le_inj h2)

theorem map_core_of_map_bytes : ∀ {xs ys : List FlashEntry},
    xs.map FlashEntry.bytes = ys.map FlashEntry.bytes →
    xs.map FlashEntry.core = ys.map FlashEntry.core
  | [], [], _ => rfl
  | [], _ :: _, h => by simp at h
  | _ :: _, [], h => by simp at h
  | x :: xs, y :: ys, h => by
    simp only [map_cons, cons.injEq] at h ⊢
    exact ⟨core_eq_of_bytes h.1, map_core_of_map_bytes h.2⟩

/-- **Equal canonical bytes are the same state**, up to the order of the entries. -/
theorem same_of_canonical (h : a.toCanonicalBytes = b.toCanonicalBytes) : Same a b := by
  obtain ⟨h1, h2⟩ := append_inj h (by simp only [length_append, length_u64Le, length_u32Le])
  obtain ⟨h3, _⟩ := append_inj h1 (by simp)
  have hlen : ∀ e : FlashEntry, e.bytes.length = 40 := fun e => by
    rw [FlashEntry.bytes, length_append, e.flashId.length_eq, length_u64Le]
  have hcore := map_core_of_map_bytes (flatMap_inj_of_length (by decide) hlen h2)
  refine ⟨u64Le_inj h3, ?_⟩
  have ha := (perm_insertionSort idLe a.recentFlashes).map FlashEntry.core
  have hb := (perm_insertionSort idLe b.recentFlashes).map FlashEntry.core
  rw [hcore] at ha
  exact ha.symm.trans hb

/-! ## 2. The flash record -/

def flashPruneBuffer : UInt64 := 50

def isFlashReplay (st : AccountState) (id : Hash) : Bool :=
  st.recentFlashes.any fun e => e.flashId = id

def recordFlash (st : AccountState) (id : Hash) (expiry : UInt64) (block : Hash) : AccountState :=
  { st with recentFlashes := st.recentFlashes ++ [⟨id, expiry, block⟩] }

def pruneRecentFlashes (st : AccountState) (currentDaaScore : UInt64) : AccountState :=
  let cutoff := satSub currentDaaScore flashPruneBuffer
  { st with recentFlashes := st.recentFlashes.filter fun e => e.expiryDaaScore > cutoff }

/-- `reorg_block_flashes`: the state without the block's entries, and whether there were any. -/
def reorgBlockFlashes (st : AccountState) (block : Hash) : AccountState × Bool :=
  let kept := st.recentFlashes.filter fun e => e.blockHash ≠ block
  ({ st with recentFlashes := kept }, kept.length < st.recentFlashes.length)

theorem isFlashReplay_iff {id : Hash} :
    st.isFlashReplay id = true ↔ ∃ x ∈ st.recentFlashes.map FlashEntry.core, x.1 = id := by
  simp [isFlashReplay, FlashEntry.core]

@[simp] theorem balance_prune (st : AccountState) (daa : UInt64) :
    (st.pruneRecentFlashes daa).balance = st.balance := rfl

theorem mem_prune {daa : UInt64} {x : Hash × UInt64} :
    x ∈ (st.pruneRecentFlashes daa).recentFlashes.map FlashEntry.core ↔
      x ∈ st.recentFlashes.map FlashEntry.core ∧ daa.toNat - 50 < x.2.toNat := by
  have hcut : (satSub daa flashPruneBuffer).toNat = daa.toNat - 50 := toNat_satSub _ _
  simp only [pruneRecentFlashes, mem_map, mem_filter, decide_eq_true_eq, gt_iff_lt,
    UInt64.lt_iff_toNat_lt, hcut]
  constructor
  · rintro ⟨e, ⟨hm, hlt⟩, rfl⟩
    exact ⟨⟨e, hm, rfl⟩, hlt⟩
  · rintro ⟨⟨e, hm, rfl⟩, hlt⟩
    exact ⟨e, ⟨hm, hlt⟩, rfl⟩

end AccountState

/-! ## 3. The committed entries, sorted -/

open FlashEntry

/-- The order of the sort, on what is committed of an entry. -/
def coreLe (x y : Hash × UInt64) : Prop := x.1.bytes ≤ y.1.bytes

instance : DecidableRel coreLe := fun x y => by unfold coreLe; infer_instance

instance : Std.Total coreLe := ⟨fun x y => List.le_total x.1.bytes y.1.bytes⟩

instance : IsTrans (Hash × UInt64) coreLe := ⟨fun _ _ _ h h' => List.le_trans h h'⟩

theorem coreLe_tied {x y : Hash × UInt64} : coreLe x y ∧ coreLe y x ↔ x.1 = y.1 := by
  constructor
  · intro h
    exact H256.ext (List.le_antisymm h.1 h.2)
  · intro h
    unfold coreLe
    rw [h]
    exact ⟨List.le_refl _, List.le_refl _⟩

namespace AccountState

/-- The committed entries in the order in which they are encoded. -/
def sortedCores (st : AccountState) : List (Hash × UInt64) :=
  (st.recentFlashes.map core).insertionSort coreLe

theorem sortedCores_eq (st : AccountState) :
    st.sortedCores = (st.recentFlashes.insertionSort idLe).map core :=
  (map_insertionSort (r := idLe) (s := coreLe) core st.recentFlashes fun _ _ _ _ => Iff.rfl).symm

/-- **Two states encode alike exactly when their balances and sorted committed entries agree.** -/
theorem canonical_eq_iff {a b : AccountState} : a.toCanonicalBytes = b.toCanonicalBytes ↔
    a.balance = b.balance ∧ a.sortedCores = b.sortedCores := by
  have hbytes : ∀ l : List FlashEntry, l.flatMap bytes =
      (l.map core).flatMap fun x => x.1.bytes ++ u64Le x.2 := fun l => by
    rw [flatMap_map]
    rfl
  constructor
  · intro h
    refine ⟨(same_of_canonical h).balance, ?_⟩
    obtain ⟨_, hflashes⟩ := append_inj h (by simp only [length_append, length_u64Le, length_u32Le])
    have hlen : ∀ e : FlashEntry, e.bytes.length = 40 := fun e => by
      rw [bytes, length_append, e.flashId.length_eq, length_u64Le]
    rw [sortedCores_eq, sortedCores_eq]
    exact map_core_of_map_bytes (flatMap_inj_of_length (by decide) hlen hflashes)
  · intro h
    obtain ⟨hbal, hcores⟩ := h
    rw [sortedCores_eq, sortedCores_eq] at hcores
    have hlen := congrArg length hcores
    rw [length_map, length_map] at hlen
    unfold toCanonicalBytes
    dsimp only
    rw [hbal, hlen, hbytes, hcores, ← hbytes]

/-! ## 4. Order-independence -/

/-- Entries with one flash id have one expiry. -/
def Untied (st : AccountState) : Prop :=
  ∀ e ∈ st.recentFlashes, ∀ f ∈ st.recentFlashes, e.flashId = f.flashId →
    e.expiryDaaScore = f.expiryDaaScore

theorem untied_iff (st : AccountState) :
    st.Untied ↔ ∀ x ∈ st.recentFlashes.map core, ∀ y ∈ st.recentFlashes.map core,
      coreLe x y → coreLe y x → x = y := by
  simp only [forall_mem_map]
  refine forall₄_congr fun e _ f _ => ⟨fun h hle hge => ?_, fun h hid => ?_⟩
  · have hid : e.flashId = f.flashId := coreLe_tied.mp ⟨hle, hge⟩
    exact Prod.ext hid (h hid)
  · obtain ⟨hle, hge⟩ := coreLe_tied.mpr (show e.core.1 = f.core.1 from hid)
    exact congrArg Prod.snd (h hle hge)

/-- **The encoding of a state stands for its balance and its multiset of committed entries exactly
    when its entries with one flash id have one expiry.** -/
theorem canonical_iff (a : AccountState) (ha : a.recentFlashes.length < 2 ^ 32) :
    (∀ b : AccountState, b.recentFlashes.length < 2 ^ 32 →
      (a.toCanonicalBytes = b.toCanonicalBytes ↔ a.balance = b.balance ∧
        (a.recentFlashes.map core).Perm (b.recentFlashes.map core))) ↔ a.Untied := by
  rw [untied_iff, ← insertionSort_perm_iff]
  constructor
  · intro h m hm
    -- the state with the entries in the other order
    have hcores : (m.map fun x => FlashEntry.mk x.1 x.2 .default).map FlashEntry.core = m := by
      rw [map_map]
      exact map_id m
    have hlen : (m.map fun x => FlashEntry.mk x.1 x.2 .default).length < 2 ^ 32 := by
      rw [length_map, ← hm.length_eq, length_map]
      exact ha
    have hb := (h ⟨a.balance, m.map fun x => FlashEntry.mk x.1 x.2 .default⟩ hlen).mpr
      ⟨rfl, by rw [hcores]; exact hm⟩
    have heq := (canonical_eq_iff.mp hb).2
    unfold sortedCores at heq
    rw [hcores] at heq
    exact heq
  · intro h b _
    constructor
    · intro hbytes
      exact ⟨(same_of_canonical hbytes).balance, (same_of_canonical hbytes).flashes⟩
    · intro hsame
      exact canonical_eq_iff.mpr ⟨hsame.1, h _ hsame.2⟩

/-- Two entries with one id and two expiries, in either order. -/
theorem tied_entries_encode_apart :
    let e : FlashEntry := ⟨.ofNat 1, 10, .default⟩
    let f : FlashEntry := ⟨.ofNat 1, 20, .default⟩
    ([e, f].map core).Perm ([f, e].map core) ∧
      toCanonicalBytes ⟨5, [e, f]⟩ ≠ toCanonicalBytes ⟨5, [f, e]⟩ :=
  ⟨by decide, by decide⟩

theorem untied_entries_encode_alike :
    toCanonicalBytes ⟨5, [⟨.ofNat 1, 10, .default⟩, ⟨.ofNat 2, 20, .default⟩]⟩ =
      toCanonicalBytes ⟨5, [⟨.ofNat 2, 20, .default⟩, ⟨.ofNat 1, 10, .default⟩]⟩ :=
  ((canonical_iff ⟨5, [⟨.ofNat 1, 10, .default⟩, ⟨.ofNat 2, 20, .default⟩]⟩ (by decide)).mpr
    (by unfold Untied; decide) ⟨5, [⟨.ofNat 2, 20, .default⟩, ⟨.ofNat 1, 10, .default⟩]⟩
    (by decide)).mpr ⟨rfl, by decide⟩

end AccountState

end Sahyadri.Account
