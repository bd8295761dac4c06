import Sahyadri.Did.Tree
import Sahyadri.Did.Life

/-!
# Block after block of DID operations, with the documents stored

* `did_lifecycle`: after any blocks, every DID in play is found as its lifecycle says, and what was
  found earlier is continued.
-/

namespace Sahyadri.Did

open Lib Smt Core Account List Node DidView

/-! ## 1. The run -/

structure DidBlock where
  daaScore : UInt64
  ops : List DidOp
  ord : IterOrder String DidDocument

/-- What is kept between blocks. -/
structure DidState (S : Type) where
  nodes : S
  docs : List (Hash × DidDocument)
  root : H256

def DidState.reader {S : Type} (st : DidState S) : DidStatesReader :=
  fun h => .ok (st.docs.lookup h)

section Run

variable {S : Type} (c : Crypto) (N : NodeStore S) (network : Prefix)
  (verify : Verifier)

variable (st : DidState S)

/-- One block: the operations on top of the root, then the documents returned are stored. -/
def applyDidBlock (b : DidBlock) : Run DidError (DidState S) :=
  match computeBlockDidChanges c N st.reader b.daaScore network verify b.ord st.root b.ops
    st.nodes with
  | (.ok (root, docs), nodes) => .ok ⟨nodes, filed (didContentHash c) docs ++ st.docs, root⟩
  | (.error e, _) => .error e

def applyDidBlocks (bs : List DidBlock) : Run DidError (DidState S) :=
  bs.foldlM (applyDidBlock c N network verify) st

/-- The document of a DID under the current root. -/
def DidState.find (did : String) : Run DidError (Option DidDocument) :=
  readDid c N st.reader st.nodes st.root did

def DidHistory.blocks (h : DidHistory) (bs : List DidBlock) : DidHistory :=
  bs.foldl (fun h b => h.run c network verify b.daaScore b.ops) h

def DidHistory.none : DidHistory := ⟨fun _ => Option.none, []⟩

variable (𝒩 : Set Node) (P : Set Bytes)

/-- A block puts nodes of `𝒩` only, and the preimages of the documents stored after it are in
    `P`. -/
structure WithinSets (st : DidState S) (b : DidBlock) : Prop where
  nodes : ∀ n ∈ didPuts c N st.reader b.daaScore network verify b.ord st.nodes st.root b.ops, n ∈ 𝒩
  docs : ∀ st', applyDidBlock c N network verify st b = .ok st' → ∀ e ∈ st'.docs, e.2.preimage ∈ P

/-- The same of every block of a run. -/
def RunsWithin (st : DidState S) (bs : List DidBlock) : Prop :=
  ∀ bs₁ b bs₂ st₁, bs = bs₁ ++ b :: bs₂ → applyDidBlocks c N network verify st bs₁ = .ok st₁ →
    WithinSets c N network verify 𝒩 P st₁ b

/-- The start: a tree without leaves for the DIDs `D`, and no document stored. -/
structure Fresh (D : Set String) (st : DidState S) : Prop where
  tree : ∃ t, Rooted N (hash c.sponge) 𝒩 st.nodes st.root t ∧
    ∀ did ∈ D, t.lookup (didKeyHash c did) = Option.none
  docs : st.docs = []

/-- The state holds the documents of `docs`, for the DIDs `D`. -/
structure Tracks (D : Set String) (st : DidState S)
    (docs : String → Option DidDocument) : Prop where
  tree : ∃ t, Rooted N (hash c.sponge) 𝒩 st.nodes st.root t ∧
    ∀ did ∈ D, t.lookup (didKeyHash c did) = (docs did).map (didContentHash c)
  stored : ∀ did ∈ D, ∀ d ∈ docs did, (didContentHash c d, d) ∈ st.docs
  keyed : Keyed (didContentHash c) st.docs
  plain : ∀ e ∈ st.docs, e.2.Plain
  preimages : ∀ e ∈ st.docs, e.2.preimage ∈ P

end Run

variable {S : Type} {c : Crypto} {N : NodeStore S} {network : Prefix}
  {verify : Verifier} {𝒩 : Set Node} {P : Set Bytes}
  {D : Set String} {st : DidState S} {did : String}

theorem Fresh.tracks (h : Fresh c N 𝒩 D st) : Tracks c N 𝒩 P D st DidHistory.none.docs := by
  refine ⟨h.tree, fun did _ d hd => (nomatch hd), ?_, ?_, ?_⟩
  all_goals
    rw [h.docs]
    exact forall_mem_nil _

/-! ## 2. A block -/

theorem Tracks.find_eq {docs : String → Option DidDocument} (h : Tracks c N 𝒩 P D st docs)
    (hg : GoodNodes (hash c.sponge) 𝒩) (hsha : Set.InjOn c.sha3 P)
    (hdid : did ∈ D) : st.find c N did = .ok (docs did) := by
  obtain ⟨t, hrooted, hlookup⟩ := h.tree
  rw [DidState.find, readDid, hrooted.get_eq hg, hlookup did hdid]
  cases hd : docs did with
  | none => rfl
  | some d =>
    have hmem := h.stored did hdid d hd
    obtain ⟨d', hd'⟩ := exists_lookup hmem
    -- what is stored under the content hash has the same preimage, and is the same document
    have hhash : didContentHash c d' = didContentHash c d := h.keyed.hash_of_lookup hd'
    have hmem' := mem_of_lookup hd'
    have hpre := hsha (h.preimages _ hmem') (h.preimages _ hmem) hhash
    have heq : d' = d := DidDocument.preimage_inj (h.plain _ hmem') (h.plain _ hmem) hpre
    subst heq
    simp only [Option.map_some, Run.mapErr_ok, Run.ok_bind, DidState.reader, hd']
    rfl

variable {h : DidHistory} {bs : List DidBlock}

theorem view_agrees {daaScore : UInt64} {ops : List DidOp}
    (hops : ∀ op ∈ ops, op.did ∈ D) {v : DidView} (hagree : ∀ did ∈ D, v.docs did = h.docs did) :
    ∀ did ∈ D, (ops.foldl (step c daaScore network verify) v).docs did =
      (h.run c network verify daaScore ops).docs did := by
  induction ops generalizing v h with
  | nil => exact hagree
  | cons op ops ih =>
    obtain ⟨hop, hops⟩ := forall_mem_cons.mp hops
    refine ih hops fun did hdid => ?_
    unfold step DidHistory.step
    rw [hagree op.did hop]
    split
    · cases op.outcome c daaScore verify (h.docs op.did) with
      | some doc =>
        simp only [Function.update_apply]
        rw [hagree did hdid]
      | none => exact hagree did hdid
    · exact hagree did hdid

section Block

variable {docs : String → Option DidDocument} {b : DidBlock} {touched : TouchedDids}

/-- The changes of the tree, seen at a DID in play. -/
theorem lookup_after_block (hinj : Set.InjOn (didKeyHash c) D)
    (hops : ∀ op ∈ b.ops, op.did ∈ D) {t : Tree} (hc : Trie.Canon h256Keying 0 t)
    {read : String → Run DidError (Option DidDocument)}
    (hread : ∀ did ∈ D, baseDocs read did = docs did)
    (hlookup : ∀ did ∈ D, t.lookup (didKeyHash c did) = (docs did).map (didContentHash c))
    (ht : touchedDids c b.daaScore network verify read b.ops = .ok touched)
    {did : String} (hdid : did ∈ D) :
    (t.updates ((b.ord.order touched.pairs).map (didLeafChange c))).lookup (didKeyHash c did) =
      ((run c b.daaScore network verify (baseDocs read) b.ops).docs did).map
        (didContentHash c) := by
  have hinD : ∀ x ∈ touched.pairs, x.1 ∈ D := fun x hx => by
    obtain ⟨op, hop, he⟩ := mem_map.mp (mem_of_changed ((mem_touchedDids_pairs ht).mp hx).1)
    exact he ▸ hops op hop
  have hmem : ∀ x, x ∈ (b.ord.order touched.pairs).map (didLeafChange c) ↔
      ∃ p ∈ touched.pairs, didLeafChange c p = x := fun x => by
    rw [mem_map]
    simp only [(b.ord.perm touched.pairs).mem_iff]
  rw [lookup_updates hc]
  by_cases hch : did ∈ (run c b.daaScore network verify (baseDocs read) b.ops).changed
  · obtain ⟨doc, hpair, hdoc⟩ := exists_mem_touchedDids ht hch
    have hcons : Consistent ((b.ord.order touched.pairs).map (didLeafChange c)) := by
      intro x hx y hy hxy
      obtain ⟨p, hp, rfl⟩ := (hmem x).mp hx
      obtain ⟨q, hq, rfl⟩ := (hmem y).mp hy
      have hpq : p.1 = q.1 := hinj (hinD p hp) (hinD q hq) hxy
      have h1 := ((mem_touchedDids_pairs ht).mp hp).2
      have h2 := ((mem_touchedDids_pairs ht).mp hq).2
      rw [hpq, h2, Option.some.injEq] at h1
      rw [didLeafChange, didLeafChange, h1]
    rw [hdoc]
    exact KeyMap.apply_of_mem hcons ((hmem _).mpr ⟨(did, doc), hpair, rfl⟩)
  · rw [KeyMap.apply_of_notMem, hlookup did hdid, ← hread did hdid]
    · exact congrArg _ ((tracksDids_empty.ops ht).2.untouched did hch).symm
    · intro hin
      obtain ⟨x, hx, hkey⟩ := mem_map.mp hin
      obtain ⟨p, hp, rfl⟩ := (hmem x).mp hx
      have hpd : p.1 = did := hinj (hinD p hp) hdid hkey
      exact hch (hpd ▸ ((mem_touchedDids_pairs ht).mp hp).1)

/-- **A block succeeds, and the state holds the documents after it.** -/
theorem Tracks.block {h : DidHistory} (hN : N.Lawful (hash c.sponge))
    (hg : GoodNodes (hash c.sponge) 𝒩) (hsha : Set.InjOn c.sha3 P)
    (hinj : Set.InjOn (didKeyHash c) D) (hst : Tracks c N 𝒩 P D st h.docs)
    (hlives : h.Lives c network verify) (hops : ∀ op ∈ b.ops, op.did ∈ D)
    (hw : WithinSets c N network verify 𝒩 P st b) :
    ∃ st', applyDidBlock c N network verify st b = .ok st' ∧
      Tracks c N 𝒩 P D st' (h.run c network verify b.daaScore b.ops).docs := by
  have hread : ∀ did ∈ D, readDid c N st.reader st.nodes st.root did = .ok (h.docs did) :=
    fun did hdid => hst.find_eq hg hsha hdid
  have hbase : ∀ did ∈ D, baseDocs (readDid c N st.reader st.nodes st.root) did = h.docs did :=
    fun did hdid => by rw [baseDocs, hread did hdid]
  obtain ⟨touched, ht⟩ := touchedDids_total b.daaScore verify
    (fun op hop (_ : op.wellFormed c network = true) => ⟨_, hread op.did (hops op hop)⟩)
  have hview : ∀ did ∈ D, (run c b.daaScore network verify
      (baseDocs (readDid c N st.reader st.nodes st.root)) b.ops).docs did =
        (h.run c network verify b.daaScore b.ops).docs did := view_agrees hops hbase
  obtain ⟨t, hrooted, hlookup⟩ := hst.tree
  have hputs : ∀ n ∈ putsOf N st.nodes st.root ((b.ord.order touched.pairs).map (didLeafChange c)),
      n ∈ 𝒩 := didPuts_eq ht ▸ hw.nodes
  obtain ⟨r, nodes, hupd, hrooted', -⟩ := hrooted.updateMany hN hg hputs
  have hok : applyDidBlock c N network verify st b = .ok ⟨nodes,
      filed (didContentHash c) ((b.ord.order touched.pairs).map Prod.snd) ++ st.docs, r⟩ := by
    rw [applyDidBlock, computeBlockDidChanges_batch, writeBatch_eq b.ord ht, hupd]
    rfl
  refine ⟨_, hok, ⟨_, hrooted', fun did hdid => ?_⟩, fun did hdid d hd => ?_, ?_, ?_, hw.docs _ hok⟩
  · rw [lookup_after_block hinj hops hrooted.canon hbase hlookup ht hdid]
    exact congrArg _ (hview did hdid)
  · -- a changed document is among those returned, another one was stored before
    have hd' := (hview did hdid).trans hd
    refine mem_append.mpr ?_
    by_cases hch : did ∈ (run c b.daaScore network verify
        (baseDocs (readDid c N st.reader st.nodes st.root)) b.ops).changed
    · obtain ⟨doc, hpair, hdoc⟩ := exists_mem_touchedDids ht hch
      rw [hd', Option.some.injEq] at hdoc
      subst hdoc
      exact .inl
        (mem_map.mpr ⟨d, mem_map.mpr ⟨(did, d), (b.ord.perm _).mem_iff.mpr hpair, rfl⟩, rfl⟩)
    · have hsame : _ = baseDocs (readDid c N st.reader st.nodes st.root) did :=
        (tracksDids_empty.ops ht).2.untouched did hch
      rw [hbase did hdid] at hsame
      exact .inr (hst.stored did hdid d (hsame.symm.trans hd'))
  · exact keyed_append.mpr ⟨keyed_filed _ _, hst.keyed⟩
  · intro e he
    rcases mem_append.mp he with he | he
    · obtain ⟨d, hd, rfl⟩ := mem_map.mp he
      obtain ⟨p, hp, rfl⟩ := mem_map.mp hd
      have hp' := (mem_touchedDids_pairs ht).mp ((b.ord.perm _).mem_iff.mp hp)
      obtain ⟨op, hop, hop'⟩ := mem_map.mp (mem_of_changed hp'.1)
      have hlife : Life c network verify p.1 _
          ((h.run c network verify b.daaScore b.ops).docs p.1) := hlives.run b.ops p.1
      rw [← hview p.1 (hop' ▸ hops op hop), hp'.2] at hlife
      exact hlife.plain
    · exact hst.plain e he

end Block

/-! ## 3. Any number of blocks -/

theorem lives_none : DidHistory.none.Lives c network verify := fun _ => .absent

theorem DidHistory.Lives.blocks (hl : h.Lives c network verify) (bs : List DidBlock) :
    (h.blocks c network verify bs).Lives c network verify := by
  induction bs generalizing h with
  | nil => exact hl
  | cons b bs ih => exact ih (hl.run b.ops)

theorem DidHistory.Lives.continues_blocks (hl : h.Lives c network verify) (bs : List DidBlock)
    {d : DidDocument} (hd : h.docs did = some d) :
    ∃ d', (h.blocks c network verify bs).docs did = some d' ∧ Continues d d' := by
  induction bs generalizing h d with
  | nil => exact ⟨d, hd, .refl d⟩
  | cons b bs ih =>
    obtain ⟨d₁, hd₁, hc₁⟩ := hl.continues b.ops hd
    obtain ⟨d', hd', hc'⟩ := ih (hl.run b.ops) hd₁
    exact ⟨d', hd', hc₁.trans hc'⟩

theorem Tracks.blocks (hN : N.Lawful (hash c.sponge)) (hg : GoodNodes (hash c.sponge) 𝒩)
    (hsha : Set.InjOn c.sha3 P) (hinj : Set.InjOn (didKeyHash c) D)
    (hst : Tracks c N 𝒩 P D st h.docs)
    (hlives : h.Lives c network verify) (hops : ∀ b ∈ bs, ∀ op ∈ b.ops, op.did ∈ D)
    (hw : RunsWithin c N network verify 𝒩 P st bs) :
    ∃ st', applyDidBlocks c N network verify st bs = .ok st' ∧
      Tracks c N 𝒩 P D st' (h.blocks c network verify bs).docs := by
  induction bs generalizing st h with
  | nil => exact ⟨st, rfl, hst⟩
  | cons b bs ih =>
    obtain ⟨hops, hopss⟩ := forall_mem_cons.mp hops
    obtain ⟨st₁, h1, htracks⟩ := hst.block hN hg hsha hinj hlives hops (hw [] b bs st rfl rfl)
    have hw' : RunsWithin c N network verify 𝒩 P st₁ bs := by
      rintro bs₁ b' bs₂ st₂ rfl hrun
      refine hw (b :: bs₁) b' bs₂ st₂ rfl ?_
      rw [applyDidBlocks, foldlM_cons, h1]
      exact hrun
    obtain ⟨st', h2, htracks'⟩ := ih htracks (hlives.run b.ops) hopss hw'
    refine ⟨st', ?_, htracks'⟩
    rw [applyDidBlocks, foldlM_cons, h1]
    exact h2

/-- **The life of every DID.** If the DIDs in play have tree keys of their own and nothing stored
    collides, each is found after any blocks with the document of the operations accepted on it, and
    a later one continues an earlier one. -/
theorem did_lifecycle (hN : N.Lawful (hash c.sponge)) (hg : GoodNodes (hash c.sponge) 𝒩)
    (hsha : Set.InjOn c.sha3 P)
    (hinj : Set.InjOn (didKeyHash c) D) (hst : Fresh c N 𝒩 D st) {bs : List DidBlock}
    (hops : ∀ b ∈ bs, ∀ op ∈ b.ops, op.did ∈ D) (hw : RunsWithin c N network verify 𝒩 P st bs) :
    ∃ st', applyDidBlocks c N network verify st bs = .ok st' ∧
    ∀ did ∈ D, ∃ cur, st'.find c N did = .ok cur ∧ Lifecycle c network verify did
      (logOf did (DidHistory.none.blocks c network verify bs).log) cur ∧
      ∀ bs₁ bs₂ st₁ d, bs = bs₁ ++ bs₂ → applyDidBlocks c N network verify st bs₁ = .ok st₁ →
        st₁.find c N did = .ok (some d) → ∃ d', cur = some d' ∧ Continues d d' := by
  obtain ⟨st', hrun, htracks⟩ := (hst.tracks).blocks hN hg hsha hinj lives_none hops hw
  refine ⟨st', hrun,
    fun did hdid => ⟨_, htracks.find_eq hg hsha hdid, (lives_none.blocks bs did).lifecycle, ?_⟩⟩
  rintro bs₁ bs₂ st₁ d rfl hrun₁ hfind
  have hw₁ : RunsWithin c N network verify 𝒩 P st bs₁ := by
    rintro l b m st₂ rfl hl
    exact hw l b (m ++ bs₂) st₂ (by simp) hl
  have hops₁ : ∀ b ∈ bs₁, ∀ op ∈ b.ops, op.did ∈ D := fun b hb => hops b (mem_append_left _ hb)
  obtain ⟨st₁', hrun₁', htracks₁⟩ := (hst.tracks).blocks hN hg hsha hinj lives_none hops₁ hw₁
  obtain rfl : st₁ = st₁' := Except.ok.inj (hrun₁.symm.trans hrun₁')
  have hd := Except.ok.inj ((htracks₁.find_eq hg hsha hdid).symm.trans hfind)
  obtain ⟨d', hd', hcont⟩ := (lives_none.blocks bs₁).continues_blocks bs₂ hd
  refine ⟨d', ?_, hcont⟩
  rw [← hd', DidHistory.blocks, DidHistory.blocks, DidHistory.blocks, foldl_append]

/-! ## 4. Two blocks: a DID is created, then updated and deactivated -/

theorem RunsWithin.cons {b : DidBlock} (hb : WithinSets c N network verify 𝒩 P st b)
    (hbs : ∀ st₁, applyDidBlock c N network verify st b = .ok st₁ →
      RunsWithin c N network verify 𝒩 P st₁ bs) :
    RunsWithin c N network verify 𝒩 P st (b :: bs) := by
  intro bs₁ b' bs₂ st₁ heq hrun
  cases bs₁ with
  | nil =>
    cases heq
    cases hrun
    exact hb
  | cons b₁ bs₁ =>
    cases heq
    obtain ⟨st₂, h1, h2⟩ := Run.bind_eq_ok.mp hrun
    exact hbs st₂ h1 bs₁ b' bs₂ st₁ rfl h2

def toyAddress : String := "csmdev1syysqqgqqqqqqqqqqqqqqqqqqqqqqqqqqq0ljd85ud"

def toyDid : String := didPrefix ++ toyAddress

def toyCreated : DidDocument := newDocument 5 [7] toyDid toyAddress "a"

def toyUpdated : DidDocument := { toyCreated with document := "b", updatedAt := 6, version := 2 }

def toyCreation : DidBlock :=
  ⟨5, [.create [7] toyDid toyAddress "a" 0 (createMessage toyCrypto [7] toyDid toyAddress "a")],
    .asListed _ _⟩

def toyChanges : DidBlock :=
  ⟨6, [.update toyDid "b" 0 (updateMessage toyCrypto toyCreated "b"),
      .deactivate toyDid 0 (deactivateMessage toyUpdated)], .asListed _ _⟩

def toyStart : DidState MemStore := ⟨⟨[]⟩, [], .empty⟩

def toyAfter (st : DidState MemStore) (b : DidBlock) : DidState MemStore :=
  (applyDidBlock toyCrypto (memStore toyCrypto.sponge) .devnet toyCrypto.verify st b).toOption.getD
    st

def toyNodes : List Node :=
  ((toyAfter (toyAfter toyStart toyCreation) toyChanges).nodes.nodes).map Prod.snd

def toyPreimages : List Bytes :=
  ((toyAfter (toyAfter toyStart toyCreation) toyChanges).docs).map fun e => e.2.preimage

theorem toyWithin : RunsWithin toyCrypto (memStore toyCrypto.sponge) .devnet toyCrypto.verify
    {n | n ∈ toyNodes} {p | p ∈ toyPreimages} toyStart [toyCreation, toyChanges] := by
  have hafter : ∀ st b st₁,
      applyDidBlock toyCrypto (memStore toyCrypto.sponge) .devnet toyCrypto.verify st b = .ok st₁ →
        st₁ = toyAfter st b := by
    intro st b st₁ h
    rw [toyAfter, h]
    rfl
  refine .cons ⟨by decide +kernel, fun st' h => ?_⟩ fun st₁ h => .cons ⟨?_, fun st' h' => ?_⟩ ?_
  · rw [hafter _ _ _ h]
    decide +kernel
  · rw [hafter _ _ _ h]
    decide +kernel
  · rw [hafter _ _ _ h', hafter _ _ _ h]
    decide +kernel
  · intro st₂ _ bs₁ b bs₂ st₃ heq
    cases bs₁ <;> cases heq

theorem did_lifecycle_toy : ∃ st', applyDidBlocks toyCrypto (memStore toyCrypto.sponge) .devnet
      toyCrypto.verify toyStart [toyCreation, toyChanges] = .ok st' ∧
    ∃ cur, st'.find toyCrypto (memStore toyCrypto.sponge) toyDid = .ok cur ∧
      Lifecycle toyCrypto .devnet toyCrypto.verify toyDid (logOf toyDid
        (DidHistory.none.blocks toyCrypto .devnet toyCrypto.verify [toyCreation, toyChanges]).log)
          cur := by
  have hg : GoodNodes (hash toyCrypto.sponge) {n | n ∈ toyNodes} :=
    goodNodes_of_list (by decide +kernel) fun n hn => hn
  have hsha : Set.InjOn toyCrypto.sha3 {p | p ∈ toyPreimages} := by
    have : ∀ a ∈ toyPreimages, ∀ b ∈ toyPreimages, toyCrypto.sha3 a = toyCrypto.sha3 b → a = b := by
      decide +kernel
    exact fun a ha b hb => this a ha b hb
  have hfresh : Fresh toyCrypto (memStore toyCrypto.sponge) {n | n ∈ toyNodes} {toyDid} toyStart :=
    ⟨⟨.empty, rooted_empty _, fun _ _ => rfl⟩, rfl⟩
  have hops : ∀ b ∈ [toyCreation, toyChanges], ∀ op ∈ b.ops, op.did ∈ ({toyDid} : Set String) := by
    have : ∀ b ∈ [toyCreation, toyChanges], ∀ op ∈ b.ops, op.did = toyDid := by decide
    exact this
  obtain ⟨st', hrun, hall⟩ :=
    did_lifecycle (memStore_lawful _) hg hsha (Set.injOn_singleton _ _) hfresh hops toyWithin
  obtain ⟨cur, hfind, hlife, -⟩ := hall toyDid rfl
  exact ⟨st', hrun, cur, hfind, hlife⟩

end Sahyadri.Did
