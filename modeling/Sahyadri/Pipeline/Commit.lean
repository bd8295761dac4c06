import Sahyadri.Account.Tree
import Sahyadri.Did.Tree
import Sahyadri.Pipeline.Verify

/-!
# The state committed under a root, and what one block does to it

`committed st root key` is the account that the stores `st` give for a slot of the tree under
`root`; an absent leaf, or a leaf that is no account state, reads as the empty account.

* `Holds`: the stores resolve a root to a canonical tree, and every leaf to a stored state or
  document. `Holds.extend`: it survives whatever is stored later, and the committed accounts stay
  the same.
-/

namespace Sahyadri.Pipeline

open Lib Smt Core Account Did List AccountState Stores Action

/-! ## 1. Stores that only grow -/

namespace Stores

/-- The node store as a memory store. -/
def mem (st : Stores) : MemStore := ⟨st.smtNodes⟩

def nodes (st : Stores) : Set Node := {n | ∃ h, (h, n) ∈ st.smtNodes}

/-- Everything is filed under its hash. -/
structure WellKeyed (c : Crypto) (st : Stores) : Prop where
  nodes : Keyed (Node.hash c.sponge) st.smtNodes
  states : Keyed (contentHash c) st.accountStates
  docs : Keyed (didContentHash c) st.didStates

/-- The byte strings hashed for the stored states and documents. -/
def preimages (st : Stores) : Set Bytes :=
  {b | (∃ e ∈ st.accountStates, b = e.2.preimage) ∨ ∃ e ∈ st.didStates, b = e.2.preimage}

/-- No collision among what is stored. -/
structure CollisionFree (c : Crypto) (st : Stores) : Prop where
  nodes : GoodNodes (Node.hash c.sponge) st.nodes
  preimages : Set.InjOn c.sha3 st.preimages

variable (c : Crypto)

theorem collisionFree_iff (st : Stores) : CollisionFree c st ↔
    (∀ a ∈ st.smtNodes, a.2.hash c.sponge ≠ .empty ∧
      ∀ b ∈ st.smtNodes, a.2.hash c.sponge = b.2.hash c.sponge → a.2 = b.2) ∧
    ∀ a ∈ st.accountStates.map (·.2.preimage) ++ st.didStates.map (·.2.preimage),
      ∀ b ∈ st.accountStates.map (·.2.preimage) ++ st.didStates.map (·.2.preimage),
      c.sha3 a = c.sha3 b → a = b := by
  have hpre : ∀ b, b ∈ st.preimages ↔
      b ∈ st.accountStates.map (·.2.preimage) ++ st.didStates.map (·.2.preimage) := fun b => by
    simp only [preimages, Set.mem_ofPred_eq, mem_append, mem_map, eq_comm]
  constructor
  · rintro ⟨⟨hinj, hne⟩, hp⟩
    exact ⟨fun a ha => ⟨hne _ ⟨_, ha⟩, fun b hb he => hinj ⟨_, ha⟩ ⟨_, hb⟩ he⟩,
      fun a ha b hb he => hp ((hpre a).mpr ha) ((hpre b).mpr hb) he⟩
  · rintro ⟨hn, hp⟩
    exact ⟨⟨fun a ⟨_, ha⟩ b ⟨_, hb⟩ he => (hn _ ha).2 _ hb he, fun a ⟨_, ha⟩ => (hn _ ha).1⟩,
      fun a ha b hb he => hp a ((hpre a).mp ha) b ((hpre b).mp hb) he⟩

instance (c : Crypto) (st : Stores) : Decidable (CollisionFree c st) :=
  decidable_of_iff' _ (collisionFree_iff c st)

/-- `st'` is `st` with more on top. -/
structure Extends (st st' : Stores) : Prop where
  nodes : st.smtNodes <:+ st'.smtNodes
  states : st.accountStates <:+ st'.accountStates
  docs : st.didStates <:+ st'.didStates

theorem Extends.refl (st : Stores) : Extends st st := ⟨suffix_refl _, suffix_refl _, suffix_refl _⟩

variable {st st' a b d : Stores}

theorem Extends.trans (h : Extends a b) (h' : Extends b d) : Extends a d :=
  ⟨h.nodes.trans h'.nodes, h.states.trans h'.states, h.docs.trans h'.docs⟩

theorem extends_persist (st : Stores) (x : BlockState) : Extends st (st.persist c x) :=
  ⟨suffix_append _ _, suffix_append _ _, suffix_append _ _⟩

theorem wellKeyed_empty : WellKeyed c empty :=
  ⟨forall_mem_nil _, forall_mem_nil _, forall_mem_nil _⟩

theorem Extends.nodes_subset (h : Extends st st') : st.nodes ⊆ st'.nodes :=
  fun _ ⟨k, hk⟩ => ⟨k, h.nodes.subset hk⟩

theorem CollisionFree.of_extends {c : Crypto} (h : CollisionFree c st') (he : Extends st st') :
    CollisionFree c st := by
  refine ⟨h.nodes.mono he.nodes_subset, h.preimages.mono ?_⟩
  rintro b (⟨e, hm, rfl⟩ | ⟨e, hm, rfl⟩)
  · exact .inl ⟨e, he.states.subset hm, rfl⟩
  · exact .inr ⟨e, he.docs.subset hm, rfl⟩

end Stores

theorem statePreimage_ne_didPreimage (s : AccountState) (d : DidDocument) :
    s.preimage ≠ d.preimage := by
  intro h
  have h' := congrArg (take 10) h
  rw [preimage, DidDocument.preimage, take_append_of_le_length (by decide),
    take_append_of_le_length (by decide)] at h'
  revert h'
  decide

section Resolve

variable {c : Crypto} {st st' : Stores}
variable {a b : Hash × AccountState}

/-- Stored states with one hash are the same state. -/
theorem Stores.CollisionFree.same (h : st.CollisionFree c) (ha : a ∈ st.accountStates)
    (hb : b ∈ st.accountStates) (hab : a.2.contentHash c = b.2.contentHash c) : a.2.Same b.2 :=
  same_of_canonical (append_cancel_left (h.preimages (.inl ⟨a, ha, rfl⟩) (.inl ⟨b, hb, rfl⟩) hab))

/-- No stored state has the hash of a stored document. -/
theorem Stores.CollisionFree.apart (h : st.CollisionFree c)
    {d : Hash × DidDocument} (ha : a ∈ st.accountStates)
    (hd : d ∈ st.didStates) : a.2.contentHash c ≠ didContentHash c d.2 := fun he =>
  statePreimage_ne_didPreimage a.2 d.2 (h.preimages (.inl ⟨a, ha, rfl⟩) (.inr ⟨d, hd, rfl⟩) he)

/-! ## 2. The committed accounts -/

/-- The account behind a leaf. -/
def Stores.stateOf (st : Stores) : Option H256 → AccountState
  | none => .default
  | some h => (st.accountStates.lookup h).getD .default

variable {h root : H256}

theorem Stores.stateOf_found {s : AccountState} (hl : st.accountStates.lookup h = some s) :
    st.stateOf (some h) = s := by
  rw [stateOf, hl, Option.getD_some]

theorem Stores.stateOf_missing (hl : st.accountStates.lookup h = none) :
    st.stateOf (some h) = .default := by
  rw [stateOf, hl, Option.getD_none]

/-- **The account committed under a root in a slot.** -/
def committed (c : Crypto) (st : Stores) (root key : H256) : AccountState :=
  match get (memStore c.sponge) st.mem root key with
  | .ok leaf => st.stateOf leaf
  | .error _ => .default

/-- A leaf stands for a stored state or a stored document. -/
def Stores.Backs (st : Stores) (h : H256) : Prop :=
  (∃ e ∈ st.accountStates, e.1 = h) ∨ ∃ e ∈ st.didStates, e.1 = h

/-- The stores resolve `root` to the tree `t`, and its leaves to states and documents. -/
structure Holds (c : Crypto) (st : Stores) (root : H256) (t : Tree) : Prop where
  rooted : Rooted (memStore c.sponge) (Node.hash c.sponge) st.nodes st.mem root t
  backed : ∀ key h, t.lookup key = some h → st.Backs h

theorem holds_empty (c : Crypto) (st : Stores) : Holds c st .empty .empty :=
  ⟨rooted_empty _, fun _ _ h => by cases h⟩

variable {t : Tree}

theorem Holds.committed_eq (h : Holds c st root t) (hcf : st.CollisionFree c) (key : H256) :
    committed c st root key = st.stateOf (t.lookup key) := by
  rw [committed, h.rooted.get_eq hcf.nodes]

section

variable (he : st.Extends st')

include he

theorem Stores.Extends.lookup_node (hk : st'.WellKeyed c) (hcf : st'.CollisionFree c)
    {n : Node} (hl : st.smtNodes.lookup h = some n) : st'.smtNodes.lookup h = some n := by
  obtain ⟨l, hl'⟩ := he.nodes
  have hkey : Keyed (Node.hash c.sponge) (l ++ st.smtNodes) := hl' ▸ hk.nodes
  obtain ⟨n', hn', hh⟩ := hkey.lookup_append hl
  rw [hl'] at hn'
  rw [hn']
  refine congrArg some (hcf.nodes.inj ⟨h, mem_of_lookup hn'⟩ ?_ hh)
  exact he.nodes_subset ⟨h, mem_of_lookup hl⟩

/-- The account behind a leaf stays the same. -/
theorem Stores.Extends.stateOf_same (hk : st'.WellKeyed c) (hcf : st'.CollisionFree c)
    (hb : st.Backs h) : (st'.stateOf (some h)).Same (st.stateOf (some h)) := by
  obtain ⟨l, hl'⟩ := he.states
  have hkey : Keyed (contentHash c) (l ++ st.accountStates) := hl' ▸ hk.states
  cases hs : st.accountStates.lookup h with
  | some s =>
    obtain ⟨s', hs', hh⟩ := hkey.lookup_append hs
    rw [hl'] at hs'
    rw [stateOf_found hs, stateOf_found hs']
    exact hcf.same (mem_of_lookup hs') (he.states.subset (mem_of_lookup hs)) hh
  | none =>
    -- the leaf is a document, and no state has its hash
    cases hs' : st'.accountStates.lookup h with
    | none =>
      rw [stateOf_missing hs, stateOf_missing hs']
      exact .refl _
    | some s' =>
      exfalso
      have hh := hk.states.hash_of_lookup hs'
      rcases hb with ⟨e, hm, rfl⟩ | ⟨e, hm, rfl⟩
      · obtain ⟨v, hv⟩ := exists_lookup hm
        rw [hs] at hv
        cases hv
      · refine hcf.apart (mem_of_lookup hs') (he.docs.subset hm) (hh.trans ?_)
        exact hk.docs e (he.docs.subset hm)

theorem Stores.Extends.backs (hb : st.Backs h) : st'.Backs h :=
  hb.imp (fun ⟨e, hm, hh⟩ => ⟨e, he.states.subset hm, hh⟩) fun ⟨e, hm, hh⟩ =>
    ⟨e, he.docs.subset hm, hh⟩

/-- **A root that is held stays held.** -/
theorem Holds.extend (h : Holds c st root t) (hk : st'.WellKeyed c)
    (hcf : st'.CollisionFree c) : Holds c st' root t where
  rooted :=
    { canon := h.rooted.canon
      within := fun n hn => he.nodes_subset (h.rooted.within n hn)
      held := fun n hn => he.lookup_node hk hcf (h.rooted.held n hn)
      root_eq := h.rooted.root_eq }
  backed key q hq := he.backs (h.backed key q hq)

/-- **Its accounts stay the same.** -/
theorem Holds.committed_same (h : Holds c st root t) (hk : st'.WellKeyed c)
    (hcf : st'.CollisionFree c) (key : H256) :
    (committed c st' root key).Same (committed c st root key) := by
  rw [(h.extend he hk hcf).committed_eq hcf, h.committed_eq (hcf.of_extends he)]
  cases hl : t.lookup key with
  | none => exact .refl _
  | some q => exact he.stateOf_same hk hcf (h.backed key q hl)

end

/-- The accounts of all scripts under a root. -/
def ledger (c : Crypto) (st : Stores) (root : H256) : Ledger :=
  fun spk => committed c st root (accountKeyHash c spk)

theorem Holds.read_eq (h : Holds c st root t) (hcf : st.CollisionFree c) (spk : ScriptPublicKey) :
    readAccountState c (memStore c.sponge) st.accountReader st.mem root spk =
      .ok (ledger c st root spk) := by
  rw [ledger, h.committed_eq hcf, readAccountState, h.rooted.get_eq hcf.nodes]
  show (match t.lookup (accountKeyHash c spk) with
    | none => _
    | some stateHash => _) = _
  cases t.lookup (accountKeyHash c spk) with
  | none => rfl
  | some q =>
    dsimp only [accountReader]
    cases hs : st.accountStates.lookup q with
    | none =>
      rw [stateOf_missing hs]
      rfl
    | some s =>
      rw [stateOf_found hs]
      rfl

end Resolve

/-! ## 3. One block -/

namespace VirtualProcessor

variable (p : VirtualProcessor)

/-- The scripts a block touches. -/
def scripts (txs : List Transaction) : List ScriptPublicKey :=
  touchedScripts p.crypto (p.effects txs).1 (p.effects txs).2

def after (st : Stores) (root : H256) (txs : List Transaction) (daaScore : UInt64) : Ledger :=
  blockState p.crypto (ledger p.crypto st root) (p.effects txs).1 (p.effects txs).2 daaScore

end VirtualProcessor

variable {txs : List Transaction} {p : VirtualProcessor}

theorem sender_mem_scripts {f : FlashTransaction} (hf : f ∈ (p.effects txs).1) :
    senderOf p.crypto f ∈ p.scripts txs :=
  mem_append_left _ (mem_flatMap.mpr ⟨f, hf, mem_cons_self⟩)

theorem computeBlockState_ok {st : Stores} {ord : Orders} {root : H256} {daaScore : UInt64}
    {x : BlockState} (h : p.computeBlockState st ord root txs daaScore = .ok x) : ∃ accountsRoot s₁,
      computeBlockAccountChanges p.crypto (memStore p.crypto.sponge) st.accountReader ord.accounts
          root (p.effects txs).1
            (p.effects txs).2 daaScore st.mem = (.ok (accountsRoot, x.changes), s₁) ∧
      computeBlockDidChanges p.crypto (memStore p.crypto.sponge) st.didReader daaScore
          p.networkPrefix (didVerify p.crypto) ord.dids accountsRoot (didOpsOf txs) s₁ =
        (.ok (x.root, x.didDocs), ⟨x.pending ++ st.smtNodes⟩) := by
  unfold VirtualProcessor.computeBlockState at h
  split at h
  · cases h
  rename_i r changes didDocs o hrun
  cases h
  obtain ⟨⟨r₁, changes'⟩, o₁, h1, hrun⟩ := bind_eq_ok.mp hrun
  obtain ⟨⟨r₂, didDocs'⟩, o₂, h2, h3⟩ := bind_eq_ok.mp hrun
  cases h3
  have hsim := overlay_mem_sim p.crypto.sponge st.smtNodes
  obtain ⟨s₁, k1, hR₁⟩ := (computeBlockAccountChanges_sim hsim).ok ⟨rfl, rfl⟩ (mapErr_eq_ok.mp h1)
  obtain ⟨s₂, k2, hR₂⟩ := (computeBlockDidChanges_sim hsim).ok hR₁ (mapErr_eq_ok.mp h2)
  refine ⟨r₁, s₁, k1, k2.trans ?_⟩
  rw [← hR₂.2]

/-- What a block does to the committed accounts. `dids` are the DIDs it changes. -/
structure Commits (p : VirtualProcessor) (st st' : Stores) (root root' : H256)
    (txs : List Transaction) (daaScore : UInt64) (dids : List String) : Prop where
  recipients : ∀ tx ∈ (p.effects txs).1, 20 ≤ tx.recipient.length
  named : ∀ d ∈ dids, d ∈ (didOpsOf txs).map DidOp.did
  did : ∀ d ∈ dids, committed p.crypto st' root' (didKeyHash p.crypto d) = .default
  touched : ∀ a ∈ p.scripts txs, (∀ d ∈ dids, didKeyHash p.crypto d ≠ accountKeyHash p.crypto a) →
    ∃ b ∈ p.scripts txs, accountKeyHash p.crypto b = accountKeyHash p.crypto a ∧
      (committed p.crypto st' root' (accountKeyHash p.crypto a)).Same
      (p.after st root txs daaScore b)
  untouched : ∀ key, (∀ d ∈ dids, didKeyHash p.crypto d ≠ key) →
    (∀ a ∈ p.scripts txs, accountKeyHash p.crypto a ≠ key) →
      (committed p.crypto st' root' key).Same (committed p.crypto st root key)

section Block

variable {p : VirtualProcessor} {st : Stores} {ord : Orders} {root : H256}
  {txs : List Transaction} {daaScore : UInt64} {x : BlockState}

/-- The computation of a block's state as two runs of `update_many` on the node store itself. -/
structure TreeRuns (p : VirtualProcessor) (st : Stores) (root : H256) (txs : List Transaction)
    (daaScore : UInt64) (x : BlockState) (touched : Touched) (docs : List (String × DidDocument))
    (accountsRoot : H256) (s₁ : MemStore) : Prop where
  accounts : touchedAccounts p.crypto
    (readAccountState p.crypto (memStore p.crypto.sponge) st.accountReader st.mem root)
    (p.effects txs).1 (p.effects txs).2 daaScore = .ok touched
  changes : x.changes.Perm touched.pairs
  run₁ : updateMany (memStore p.crypto.sponge) root (x.changes.map (leafChange p.crypto)) st.mem =
    (.ok accountsRoot, s₁)
  named : ∀ e ∈ docs, e.1 ∈ (didOpsOf txs).map DidOp.did
  didDocs : x.didDocs = docs.map Prod.snd
  run₂ : updateMany (memStore p.crypto.sponge) accountsRoot (docs.map (didLeafChange p.crypto)) s₁ =
    (.ok x.root, (st.persist p.crypto x).mem)

theorem computeBlockState_runs (h : p.computeBlockState st ord root txs daaScore = .ok x) :
    ∃ touched docs accountsRoot s₁,
    TreeRuns p st root txs daaScore x touched docs accountsRoot s₁ := by
  obtain ⟨accountsRoot, s₁, h1, h2⟩ := computeBlockState_ok h
  rw [computeBlockAccountChanges_batch] at h1
  rw [computeBlockDidChanges_batch] at h2
  obtain ⟨touched, ht, hc, hu⟩ := writeBatch_ok h1
  obtain ⟨touchedDocs, htd, hd, hud⟩ := writeBatch_ok h2
  refine ⟨touched, _, accountsRoot, s₁, ht, hc ▸ ord.accounts.perm _, hc ▸ hu, fun e he => ?_,
    hd, hud⟩
  have hm := (ord.dids.perm _).mem_iff.mp he
  exact DidView.mem_of_changed ((mem_touchedDids_pairs htd).mp hm).1

section Runs

variable {touched : Touched} {docs : List (String × DidDocument)} {accountsRoot : H256}
  {s₁ : MemStore}

section

variable (h : TreeRuns p st root txs daaScore x touched docs accountsRoot s₁)

include h

/-- The nodes stored after a block are those put by the two runs, on top of the nodes before. -/
theorem TreeRuns.smtNodes_eq : (st.persist p.crypto x).smtNodes = filed (Node.hash p.crypto.sponge)
          (putsOf (memStore p.crypto.sponge) s₁ accountsRoot (docs.map (didLeafChange p.crypto))) ++
        (filed (Node.hash p.crypto.sponge)
            (putsOf (memStore p.crypto.sponge) st.mem root (x.changes.map (leafChange p.crypto))) ++
              st.smtNodes) := by
  have h₁ := updateMany_mem_nodes p.crypto.sponge st.mem root (x.changes.map (leafChange p.crypto))
  have h₂ :=
    updateMany_mem_nodes p.crypto.sponge s₁ accountsRoot (docs.map (didLeafChange p.crypto))
  rw [h.run₁] at h₁
  rw [h.run₂, show s₁.nodes = _ from h₁] at h₂
  exact h₂

theorem TreeRuns.wellKeyed (hk : st.WellKeyed p.crypto) :
    (st.persist p.crypto x).WellKeyed p.crypto where
  nodes := by
    rw [h.smtNodes_eq]
    exact keyed_append.mpr ⟨keyed_filed _ _, keyed_append.mpr ⟨keyed_filed _ _, hk.nodes⟩⟩
  states := by
    refine keyed_append.mpr ⟨keyed_reverse.mpr fun e he => ?_, hk.states⟩
    obtain ⟨q, _, rfl⟩ := mem_map.mp he
    rfl
  docs := keyed_append.mpr ⟨keyed_reverse.mpr (keyed_filed _ x.didDocs), hk.docs⟩

theorem TreeRuns.rooted {t : Tree} (hroot : Holds p.crypto st root t)
    (hcf : (st.persist p.crypto x).CollisionFree p.crypto) :
    Rooted (memStore p.crypto.sponge) (Node.hash p.crypto.sponge) (st.persist p.crypto x).nodes
      (st.persist p.crypto x).mem x.root ((t.updates (x.changes.map (leafChange p.crypto))).updates
        (docs.map (didLeafChange p.crypto))) := by
  have hN := memStore_lawful p.crypto.sponge
  have hsub := (extends_persist p.crypto st x).nodes_subset
  have hput₁ : ∀ n ∈ putsOf (memStore p.crypto.sponge) st.mem root
      (x.changes.map (leafChange p.crypto)), n ∈ (st.persist p.crypto x).nodes := fun n hn => by
    refine ⟨n.hash p.crypto.sponge, ?_⟩
    rw [h.smtNodes_eq]
    exact mem_append_right _ (mem_append_left _ (mem_map_of_mem hn))
  have hput₂ : ∀ n ∈ putsOf (memStore p.crypto.sponge) s₁ accountsRoot
      (docs.map (didLeafChange p.crypto)), n ∈ (st.persist p.crypto x).nodes := fun n hn => by
    refine ⟨n.hash p.crypto.sponge, ?_⟩
    rw [h.smtNodes_eq]
    exact mem_append_left _ (mem_map_of_mem hn)
  have hr₀ : Rooted (memStore p.crypto.sponge) (Node.hash p.crypto.sponge)
      (st.persist p.crypto x).nodes st.mem root t :=
    { hroot.rooted with within := fun n hn => hsub (hroot.rooted.within n hn) }
  obtain ⟨q₁, z₁, hq₁, hr₁, _⟩ := hr₀.updateMany hN hcf.nodes hput₁
  rw [h.run₁] at hq₁
  cases hq₁
  obtain ⟨q₂, z₂, hq₂, hr₂, _⟩ := hr₁.updateMany hN hcf.nodes hput₂
  rw [h.run₂] at hq₂
  cases hq₂
  exact hr₂

end

end Runs

/-- What the tree after a block holds in a slot. -/
inductive Slot (p : VirtualProcessor) (st : Stores) (root : H256) (txs : List Transaction)
    (daaScore : UInt64) (x : BlockState) (dids : List String) (t : Tree) (key : H256) :
    Option H256 → Prop where
  | did (d : String) (doc : DidDocument)
      (hd : d ∈ dids) (hdoc : doc ∈ x.didDocs) (hkey : didKeyHash p.crypto d = key) :
      Slot p st root txs daaScore x dids t key (some (didContentHash p.crypto doc))
  | account (a : ScriptPublicKey) (hdid : ∀ d ∈ dids, didKeyHash p.crypto d ≠ key)
      (ha : a ∈ p.scripts txs) (hkey : accountKeyHash p.crypto a = key)
      (hmem : (a, p.after st root txs daaScore a) ∈ x.changes) :
      Slot p st root txs daaScore x dids t key ((p.after st root txs daaScore a).leaf p.crypto)
  | kept (hdid : ∀ d ∈ dids, didKeyHash p.crypto d ≠ key)
      (hacc : ∀ a ∈ p.scripts txs, accountKeyHash p.crypto a ≠ key) :
      Slot p st root txs daaScore x dids t key (t.lookup key)

variable {t : Tree}

/-- Each slot of the tree after the two runs is accounted for. -/
theorem TreeRuns.slot {touched : Touched} {docs : List (String × DidDocument)} {accountsRoot : H256}
    {s₁ : MemStore} (h : TreeRuns p st root txs daaScore x touched docs accountsRoot s₁)
    (hroot : Holds p.crypto st root t) (hcf : st.CollisionFree p.crypto) (key : H256) :
    Slot p st root txs daaScore x (docs.map Prod.fst) t key
      (((t.updates (x.changes.map (leafChange p.crypto))).updates
        (docs.map (didLeafChange p.crypto))).lookup key) := by
  have hcan := canon_updates hroot.rooted.canon (x.changes.map (leafChange p.crypto))
  rw [lookup_updates hcan]
  rcases KeyMap.apply_cases (Tree.lookup (t.updates (x.changes.map (leafChange p.crypto))))
    (docs.map (didLeafChange p.crypto)) key with ⟨hno, he⟩ | ⟨y, hy, hkey, he⟩
  · have hdids : ∀ d ∈ docs.map Prod.fst, didKeyHash p.crypto d ≠ key := fun d hd => by
      obtain ⟨e, hm, rfl⟩ := mem_map.mp hd
      exact hno _ (mem_map_of_mem hm)
    rw [he, lookup_updates hroot.rooted.canon]
    rcases KeyMap.apply_cases t.lookup (x.changes.map (leafChange p.crypto)) key with
      ⟨hno', he'⟩ | ⟨y, hy, hkey, he'⟩
    · rw [he']
      refine .kept hdids fun a ha hka => ?_
      have hm := h.changes.mem_iff.mpr (mem_touched_of_script h.accounts ha)
      exact hno' _ (mem_map_of_mem hm) hka
    · rw [he']
      obtain ⟨⟨a, s⟩, hm, rfl⟩ := mem_map.mp hy
      obtain ⟨ha, hs⟩ := (mem_touched_pairs h.accounts).mp (h.changes.mem_iff.mp hm)
      have hbase : baseLedger (readAccountState p.crypto (memStore p.crypto.sponge) st.accountReader
          st.mem root) = ledger p.crypto st root := by
        funext spk
        rw [baseLedger, hroot.read_eq hcf]
      rw [hbase] at hs
      obtain rfl : s = p.after st root txs daaScore a := hs
      exact .account a hdids ha hkey hm
  · rw [he]
    obtain ⟨⟨d, doc⟩, hm, rfl⟩ := mem_map.mp hy
    refine .did d doc (mem_map_of_mem hm) ?_ hkey
    rw [h.didDocs]
    exact mem_map_of_mem hm

variable {e : ScriptPublicKey × AccountState} {doc : DidDocument} {c : Crypto}

theorem mem_persist_states (c : Crypto) (st : Stores) (he : e ∈ x.changes) :
    (e.2.contentHash c, e.2) ∈ (st.persist c x).accountStates :=
  mem_append_left _ (mem_reverse.mpr (mem_map.mpr ⟨e, he, rfl⟩))

theorem mem_persist_docs (c : Crypto) (st : Stores) (hd : doc ∈ x.didDocs) :
    (didContentHash c doc, doc) ∈ (st.persist c x).didStates :=
  mem_append_left _ (mem_reverse.mpr (mem_map.mpr ⟨doc, hd, rfl⟩))

theorem stateOf_written (hk : (st.persist c x).WellKeyed c) (hcf : (st.persist c x).CollisionFree c)
    (he : e ∈ x.changes) : ((st.persist c x).stateOf (e.2.leaf c)).Same e.2 := by
  have hmem := mem_persist_states c st he
  unfold leaf
  split
  · rename_i hempty
    rw [isEmpty_iff.mp hempty]
    exact .refl _
  · obtain ⟨s, hs⟩ := exists_lookup hmem
    rw [stateOf_found hs]
    exact hcf.same (mem_of_lookup hs) hmem (hk.states.hash_of_lookup hs)

/-- A leaf that a block has written for a document is no account. -/
theorem stateOf_document (hk : (st.persist c x).WellKeyed c)
    (hcf : (st.persist c x).CollisionFree c)
    (hd : doc ∈ x.didDocs) : (st.persist c x).stateOf (some (didContentHash c doc)) = .default := by
  have hmem := mem_persist_docs c st hd
  cases hs : (st.persist c x).accountStates.lookup (didContentHash c doc) with
  | none => exact stateOf_missing hs
  | some s =>
    have hne := hcf.apart (mem_of_lookup hs) hmem
    exact absurd (hk.states.hash_of_lookup hs) hne

theorem Slot.backs {dids : List String}
    {key h : H256} (hs : Slot p st root txs daaScore x dids t key (some h))
    (hroot : Holds p.crypto st root t) : (st.persist p.crypto x).Backs h := by
  generalize hl : some h = leaf at hs
  cases hs with
  | did d doc _ hdoc _ =>
    cases hl
    exact .inr ⟨_, mem_persist_docs p.crypto st hdoc, rfl⟩
  | account a _ _ _ hmem =>
    refine .inl ⟨_, mem_persist_states p.crypto st hmem, ?_⟩
    unfold leaf at hl
    split at hl
    · cases hl
    · cases hl
      rfl
  | kept _ _ => exact (extends_persist p.crypto st x).backs (hroot.backed key h hl.symm)

/-- **What a block commits**: each slot is that of a changed DID, that of a touched account with its
    new state, or as before. -/
theorem block_commits (hroot : Holds p.crypto st root t) (hk : st.WellKeyed p.crypto)
    (hx : p.computeBlockState st ord root txs daaScore = .ok x)
    (hcf : (st.persist p.crypto x).CollisionFree p.crypto) :
    (st.persist p.crypto x).WellKeyed p.crypto ∧ ∃ t' dids,
      Holds p.crypto (st.persist p.crypto x) x.root t' ∧
        Commits p st (st.persist p.crypto x) root x.root txs daaScore dids := by
  obtain ⟨touched, docs, accountsRoot, s₁, hruns⟩ := computeBlockState_runs hx
  have hext := extends_persist p.crypto st x
  have hk' := hruns.wellKeyed hk
  have hslot := hruns.slot hroot (hcf.of_extends hext)
  have hholds : Holds p.crypto (st.persist p.crypto x) x.root _ :=
    ⟨hruns.rooted hroot hcf, fun key h hl => (hl ▸ hslot key).backs hroot⟩
  refine ⟨hk', _, docs.map Prod.fst, hholds, (touchedAccounts_spec hruns.accounts).1,
    fun d hd => ?_, fun d hd => ?_, fun a ha hdid => ?_, fun key hdid hacc => ?_⟩
  · obtain ⟨e, he, rfl⟩ := mem_map.mp hd
    exact hruns.named e he
  · rw [hholds.committed_eq hcf]
    have hs := hslot (didKeyHash p.crypto d)
    generalize Tree.lookup _ _ = leaf at hs ⊢
    cases hs with
    | did d' doc _ hdoc _ => exact stateOf_document hk' hcf hdoc
    | account a hno _ _ _ => exact absurd rfl (hno d hd)
    | kept hno _ => exact absurd rfl (hno d hd)
  · rw [hholds.committed_eq hcf]
    have hs := hslot (accountKeyHash p.crypto a)
    generalize Tree.lookup _ _ = leaf at hs ⊢
    cases hs with
    | did d doc hd _ hkey => exact absurd hkey (hdid d hd)
    | account b _ hb hkey hmem => exact ⟨b, hb, hkey, stateOf_written hk' hcf hmem⟩
    | kept _ hno => exact absurd rfl (hno a ha)
  · rw [hholds.committed_eq hcf]
    have hs := hslot key
    generalize Tree.lookup _ _ = leaf at hs ⊢
    cases hs with
    | did d doc hd _ hkey => exact absurd hkey (hdid d hd)
    | account b _ hb hkey _ => exact absurd hkey (hacc b hb)
    | kept _ _ =>
      rw [← (hroot.extend hext hk' hcf).committed_eq hcf]
      exact hroot.committed_same hext hk' hcf key

/-- **What an accepted block commits**, under the root of its header. -/
theorem accepted_commits {ctx : VerifyContext} {header parentHeader : Header} {st' : Stores}
    (hok : p.verifyBlockState ctx header st = (.ok (), st'))
    (hparent : ctx.parentHeader = some parentHeader) (htxs : ctx.transactions = some txs)
    (hroot : Holds p.crypto st (p.parentAccountRoot ctx.selectedParent parentHeader) t)
    (hk : st.WellKeyed p.crypto) (hcf : st'.CollisionFree p.crypto) :
    st'.WellKeyed p.crypto ∧ ∃ t' dids, Holds p.crypto st' header.accountCommitment t' ∧
      Commits p st st' (p.parentAccountRoot ctx.selectedParent parentHeader)
        header.accountCommitment txs header.daaScore dids := by
  obtain ⟨ph, txs', x, hx, hcommit, _, _, rfl⟩ := verifyBlockState_ok hok
  obtain rfl : ph = parentHeader := Option.some.inj (hx.parent.symm.trans hparent)
  obtain rfl : txs' = txs := Option.some.inj (hx.transactions.symm.trans htxs)
  rw [← hcommit]
  exact block_commits hroot hk hx.state hcf

end Block

end Sahyadri.Pipeline
