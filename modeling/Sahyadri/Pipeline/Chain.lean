import Sahyadri.Pipeline.Commit

/-!
# Chains of accepted blocks, and the runs of a node that builds them

* `World`: the stores of a node, and the chains of blocks it has accepted, on any number of forks.
-/

namespace Sahyadri.Pipeline

open Lib Smt Core Account Did List Stores

/-! ## 1. Chains -/

/-- Accepted blocks, newest first, on the genesis block. -/
abbrev Chain := List Block

/-- The root that a chain ends in: the tree is empty at the genesis block. -/
def Chain.root : Chain → H256
  | [] => .empty
  | b :: _ => b.header.accountCommitment

def Chain.tip (p : VirtualProcessor) : Chain → Hash
  | [] => p.genesisHash
  | b :: _ => b.header.hash

/-- `verify_block_state` is called for `b` with the end of `chain` as its selected parent. -/
structure OnTip (p : VirtualProcessor) (chain : Chain) (b : Block) (ctx : VerifyContext) :
    Prop where
  parent : ctx.selectedParent = chain.tip p
  header : ∀ b' ∈ chain.head?, ctx.parentHeader = some b'.header ∧ b'.header.hash ≠ p.genesisHash
  transactions : ctx.transactions = some b.transactions

/-- What a node has: its stores, and the chains it has accepted. -/
structure World where
  stores : Stores
  chains : List Chain

/-- The worlds reached from empty stores when every block accepted on a chain is one that `allow`
    allows. Nothing is asked of body validation. -/
inductive Reach (p : VirtualProcessor) (allow : Ledger → Chain → Block → Prop) : World → Prop where
  | start : Reach p allow ⟨.empty, [[]]⟩
  | extend {w : World} {chain : Chain} {b : Block} {ctx : VerifyContext} {st' : Stores}
      (hw : Reach p allow w) (hchain : chain ∈ w.chains)
      (hallow : allow (ledger p.crypto w.stores chain.root) chain b) (hon : OnTip p chain b ctx)
      (hstate : p.verifyBlockState ctx b.header w.stores = (.ok (), st')) :
      Reach p allow ⟨st', (b :: chain) :: w.chains⟩
  | visit {w : World} (hw : Reach p allow w) (ctx : VerifyContext) (header : Header) :
      Reach p allow ⟨(p.verifyBlockState ctx header w.stores).2, w.chains⟩

/-! ## 2. One call -/

section Step

variable {p : VirtualProcessor} {ctx : VerifyContext} {chain : Chain} {b : Block}

theorem committed_empty (c : Crypto) (st : Stores) (key : H256) :
    committed c st .empty key = .default := by
  rw [committed, Smt.get, getLoop]
  rfl

theorem OnTip.root_eq (h : OnTip p chain b ctx)
    {parentHeader : Header} (hp : ctx.parentHeader = some parentHeader) :
    p.parentAccountRoot ctx.selectedParent parentHeader = chain.root := by
  rw [h.parent]
  cases chain with
  | nil => exact if_pos rfl
  | cons b' chain =>
    obtain ⟨hb, hne⟩ := h.header b' rfl
    obtain rfl : b'.header = parentHeader := Option.some.inj (hb.symm.trans hp)
    exact if_neg hne

theorem verifyBlockState_extends (ctx : VerifyContext) (header : Header) (st : Stores) :
    st.Extends (p.verifyBlockState ctx header st).2 := by
  rcases verifyBlockState_cases p ctx header st with ⟨e, he⟩ | ⟨ph, txs, x, hx, he⟩
  · rw [he]
    exact .refl st
  · rw [he]
    exact extends_persist _ _ _

/-- The stores stay well keyed, also when the root is not held. -/
theorem verifyBlockState_wellKeyed (ctx : VerifyContext) (header : Header) {st : Stores}
    (hk : st.WellKeyed p.crypto) : (p.verifyBlockState ctx header st).2.WellKeyed p.crypto := by
  rcases verifyBlockState_cases p ctx header st with ⟨e, he⟩ | ⟨ph, txs, x, hx, he⟩
  · rw [he]
    exact hk
  · rw [he]
    obtain ⟨_, _, _, _, hruns⟩ := computeBlockState_runs hx.state
    exact hruns.wellKeyed hk

/-- **An accepted block on a chain.** -/
theorem OnTip.commits {st st' : Stores}
    (h : OnTip p chain b ctx) (hok : p.verifyBlockState ctx b.header st = (.ok (), st')) {t : Tree}
    (hroot : Holds p.crypto st chain.root t)
    (hk : st.WellKeyed p.crypto) (hcf : st'.CollisionFree p.crypto) :
    ∃ t' dids, Holds p.crypto st' b.header.accountCommitment t' ∧ Commits p st st' chain.root
      b.header.accountCommitment b.transactions b.header.daaScore dids := by
  obtain ⟨ph, txs, x, hx, _⟩ := verifyBlockState_ok hok
  have hr := h.root_eq hx.parent
  rw [← hr] at hroot ⊢
  exact (accepted_commits hok hx.parent h.transactions hroot hk hcf).2

end Step

/-! ## 3. Whole runs -/

section Runs

variable {p : VirtualProcessor} {allow : Ledger → Chain → Block → Prop} {w : World}

/-- The stores hold the end of `chain`, and `Inv` holds of the accounts there, by slot. -/
structure Chain.Keeps (p : VirtualProcessor) (Inv : (H256 → AccountState) → Chain → Prop)
    (st : Stores) (chain : Chain) : Prop where
  held : ∃ t, Holds p.crypto st chain.root t
  inv : Inv (committed p.crypto st chain.root) chain

/-- **Invariants of chains**: `Inv` holds of the empty accounts, survives every allowed block, and
    does not see what `Same` forgets. -/
theorem Reach.invariant (Inv : (H256 → AccountState) → Chain → Prop)
    (hstart : Inv (fun _ => .default) [])
    (hsame : ∀ {A A' chain}, (∀ key, (A' key).Same (A key)) → Inv A chain → Inv A' chain)
    (hstep : ∀ {st st' chain b dids}, Inv (committed p.crypto st chain.root) chain →
      allow (ledger p.crypto st chain.root) chain b →
      Commits p st st' chain.root b.header.accountCommitment b.transactions b.header.daaScore dids →
      Inv (committed p.crypto st' b.header.accountCommitment) (b :: chain))
    (h : Reach p allow w) (hcf : w.stores.CollisionFree p.crypto) :
    w.stores.WellKeyed p.crypto ∧ ∀ chain ∈ w.chains, chain.Keeps p Inv w.stores := by
  -- the accounts of a chain are the same in the stores after a call
  have hold : ∀ {st st' : Stores} {chain : Chain}, st.Extends st' → st'.WellKeyed p.crypto →
      st'.CollisionFree p.crypto → chain.Keeps p Inv st → chain.Keeps p Inv st' :=
    fun hext hk hcf ⟨⟨t, ht⟩, hi⟩ =>
      ⟨⟨t, ht.extend hext hk hcf⟩, hsame (ht.committed_same hext hk hcf) hi⟩
  induction h with
  | start =>
    refine ⟨wellKeyed_empty _, fun chain hc => ?_⟩
    rw [mem_singleton.mp hc]
    exact ⟨⟨_, holds_empty _ _⟩, (funext (committed_empty p.crypto .empty)) ▸ hstart⟩
  | @visit w hw ctx header ih =>
    have hext := verifyBlockState_extends (p := p) ctx header w.stores
    obtain ⟨hk, hinv⟩ := ih (hcf.of_extends hext)
    have hk' := verifyBlockState_wellKeyed ctx header hk
    exact ⟨hk', fun chain hc => hold hext hk' hcf (hinv chain hc)⟩
  | @extend w chain b ctx st' hw hchain hallow hon hstate ih =>
    have hext := verifyBlockState_extends (p := p) ctx b.header w.stores
    rw [hstate] at hext
    obtain ⟨hk, hinv⟩ := ih (hcf.of_extends hext)
    have hk' := verifyBlockState_wellKeyed ctx b.header hk
    rw [hstate] at hk'
    refine ⟨hk', fun chain' hc => ?_⟩
    rcases mem_cons.mp hc with rfl | hc
    · obtain ⟨⟨t, ht⟩, hi⟩ := hinv chain hchain
      obtain ⟨t', dids, ht', hcommits⟩ := hon.commits hstate ht hk hcf
      exact ⟨⟨t', ht'⟩, hstep hi hallow hcommits⟩
    · exact hold hext hk' hcf (hinv chain' hc)

/-- The chain up to an earlier block is a chain of the world too. -/
theorem Reach.past_mem (h : Reach p allow w) {chain past : Chain}
    (hc : chain ∈ w.chains) (hp : past <:+ chain) : past ∈ w.chains := by
  induction h generalizing chain past with
  | start =>
    rw [mem_singleton.mp hc, suffix_nil] at hp
    rw [hp]
    exact mem_singleton_self _
  | visit hw ctx header ih => exact ih hc hp
  | extend hw hchain hallow hon hstate ih =>
    rcases mem_cons.mp hc with rfl | hc
    · rcases suffix_cons_iff.mp hp with rfl | hp
      · exact mem_cons_self
      · exact mem_cons_of_mem _ (ih hchain hp)
    · exact mem_cons_of_mem _ (ih hc hp)

end Runs

/-! ## 4. A run of two blocks

The blocks on which the results about chains are tried. -/

variable (signature : Bytes)

def transfer : FlashTransaction :=
  ⟨0, [5], List.replicate 20 2, 5, 0, 100, List.replicate 16 7, signature, by decide⟩

def toySender : ScriptPublicKey := flashPubkeyToSpk toyCrypto [5]

def fundingBlock : List Transaction := [toyCoinbase 1 10 toySender.script]

def transferBlock : List Transaction :=
  [toyCoinbase 2 0 [], (transfer signature).toTransaction toyCrypto]

def toyRoot (st : Stores) (root : H256) (txs : List Transaction) (daaScore : UInt64) : H256 :=
  match toyProcessor.computeBlockState st ⟨.asListed _ _, .asListed _ _⟩ root txs daaScore with
  | .ok x => x.root
  | .error _ => .empty

/-- The header of the funding block, and the stores after it. -/
def fundingHeader : Header := toyHeader (toyRoot .empty .empty fundingBlock 1) 1 1

def fundedStores : Stores :=
  (toyProcessor.verifyBlockState (toyContext fundingBlock) fundingHeader .empty).2

def secondContext (txs : List Transaction) : VerifyContext :=
  { toyContext txs with selectedParent := .ofNat 2, parentHeader := some fundingHeader }

def secondHeader (txs : List Transaction) : Header :=
  { toyHeader (toyRoot fundedStores fundingHeader.accountCommitment txs 2) 2 2 with
    hash := .ofNat 3, directParents := [.ofNat 2] }

def transferStores : Stores :=
  (toyProcessor.verifyBlockState (secondContext (transferBlock signature))
    (secondHeader (transferBlock signature)) fundedStores).2

/-- The signature that the toy verifier accepts. -/
def toySignature : Bytes := ((transfer []).sighash toyCrypto).bytes

def fundingTip : Block := ⟨fundingHeader, fundingBlock⟩

def transferTip : Block := ⟨secondHeader (transferBlock signature), transferBlock signature⟩

abbrev transferChain : Chain := [transferTip toySignature, fundingTip]

/-- The world after the two, the transfer being signed. -/
def transferWorld : World := ⟨transferStores toySignature, [transferChain, [fundingTip], []]⟩

theorem funding_accepted :
    toyProcessor.verifyBlockState (toyContext fundingBlock) fundingHeader .empty =
    (.ok (), fundedStores) := Prod.ext (by decide +kernel) rfl

theorem holds_funded : fundedStores.WellKeyed toyCrypto ∧
    ∃ t, Holds toyCrypto fundedStores fundingHeader.accountCommitment t := by
  have hroot : toyProcessor.parentAccountRoot (.ofNat 1) toyGenesis = .empty := if_pos rfl
  obtain ⟨hk, t, _, ht, _⟩ := accepted_commits funding_accepted rfl rfl (hroot ▸ holds_empty _ _)
    (wellKeyed_empty _) (by decide +kernel)
  exact ⟨hk, t, ht⟩

theorem transfer_accepted :
    toyProcessor.verifyBlockState (secondContext (transferBlock toySignature))
    (secondHeader (transferBlock toySignature)) fundedStores =
      (.ok (), transferStores toySignature) :=
  Prod.ext (by decide +kernel) (by rw [transferStores])

theorem reach_transfer {allow : Ledger → Chain → Block → Prop}
    (hfund : allow (ledger toyCrypto .empty .empty) [] fundingTip)
    (htransfer : allow (ledger toyCrypto fundedStores fundingHeader.accountCommitment) [fundingTip]
      (transferTip toySignature)) : Reach toyProcessor allow transferWorld := by
  have h₁ : Reach toyProcessor allow ⟨fundedStores, [[fundingTip], []]⟩ :=
    .extend .start (mem_singleton_self _) hfund ⟨rfl, nofun, rfl⟩ funding_accepted
  refine .extend h₁ mem_cons_self htransfer ⟨rfl, fun b' h => ?_, rfl⟩ transfer_accepted
  cases h
  exact ⟨rfl, by decide⟩

/-! ## 5. Two nodes -/

variable {c : Crypto} {st st' : Stores} {h : H256}

/-- A leaf is the hash of a stored state, or of a document. -/
theorem Stores.Backs.cases (hb : st.Backs h) (hk : st.WellKeyed c) :
    ∃ b ∈ st.preimages, c.sha3 b = h ∧
    ((∃ s : AccountState, s.preimage = b ∧ st.stateOf (some h) = s) ∨
      ∃ d : DidDocument, d.preimage = b ∧ st.stateOf (some h) = .default) := by
  cases hl : st.accountStates.lookup h with
  | some s =>
    exact ⟨_, .inl ⟨_, mem_of_lookup hl, rfl⟩, hk.states.hash_of_lookup hl,
      .inl ⟨s, rfl, stateOf_found hl⟩⟩
  | none =>
    rcases hb with ⟨e, hm, rfl⟩ | ⟨e, hm, rfl⟩
    · obtain ⟨v, hv⟩ := exists_lookup hm
      rw [hl] at hv
      cases hv
    · exact ⟨_, .inr ⟨e, hm, rfl⟩, (hk.docs e hm).symm, .inr ⟨e.2, rfl, stateOf_missing hl⟩⟩

theorem Stores.stateOf_agree (hk : st.WellKeyed c) (hk' : st'.WellKeyed c)
    (hp : Set.InjOn c.sha3 (st.preimages ∪ st'.preimages)) (hb : st.Backs h) (hb' : st'.Backs h) :
    (st.stateOf (some h)).Same (st'.stateOf (some h)) := by
  obtain ⟨b, hm, hh, hs⟩ := hb.cases hk
  obtain ⟨b', hm', hh', hs'⟩ := hb'.cases hk'
  obtain rfl := hp (.inr hm') (.inl hm) (hh'.trans hh.symm)
  rcases hs with ⟨s, hpre, he⟩ | ⟨d, hpre, he⟩ <;>
    rcases hs' with ⟨s', rfl, he'⟩ | ⟨d', rfl, he'⟩ <;> rw [he, he']
  · exact AccountState.same_of_canonical (append_cancel_left hpre)
  · exact absurd hpre (statePreimage_ne_didPreimage s d')
  · exact absurd hpre.symm (statePreimage_ne_didPreimage s' d)
  · exact .refl _

/-- **Two nodes agree**: under a root that both have reached they have the same accounts, whatever
    led them there. -/
theorem nodes_agree {p : VirtualProcessor} {allow allow' : Ledger → Chain → Block → Prop}
    {w w' : World} (hw : Reach p allow w) (hw' : Reach p allow' w')
    (hn : GoodNodes (Node.hash p.crypto.sponge) (w.stores.nodes ∪ w'.stores.nodes))
    (hp : Set.InjOn p.crypto.sha3 (w.stores.preimages ∪ w'.stores.preimages)) {chain chain' : Chain}
    (hc : chain ∈ w.chains)
    (hc' : chain' ∈ w'.chains) (hroot : chain.root = chain'.root) (spk : ScriptPublicKey) :
    (ledger p.crypto w.stores chain.root spk).Same (ledger p.crypto w'.stores chain'.root spk) := by
  have hcf : w.stores.CollisionFree p.crypto :=
    ⟨hn.mono Set.subset_union_left, hp.mono Set.subset_union_left⟩
  have hcf' : w'.stores.CollisionFree p.crypto :=
    ⟨hn.mono Set.subset_union_right, hp.mono Set.subset_union_right⟩
  obtain ⟨hk, hkeeps⟩ :=
    hw.invariant (fun _ _ => True) trivial (fun _ _ => trivial) (fun _ _ _ => trivial) hcf
  obtain ⟨hk', hkeeps'⟩ :=
    hw'.invariant (fun _ _ => True) trivial (fun _ _ => trivial) (fun _ _ _ => trivial) hcf'
  obtain ⟨⟨t, ht⟩, -⟩ := hkeeps chain hc
  obtain ⟨⟨t', ht'⟩, -⟩ := hkeeps' chain' hc'
  -- one root, one tree
  have htree : t = t' := rootOf_inj hn (fun n hm => .inl (ht.rooted.within n hm))
    (fun n hm => .inr (ht'.rooted.within n hm))
    (ht.rooted.root_eq.symm.trans (hroot.trans ht'.rooted.root_eq))
  subst htree
  rw [ledger, ledger, ht.committed_eq hcf, ht'.committed_eq hcf']
  cases hl : t.lookup (accountKeyHash p.crypto spk) with
  | none => exact .refl _
  | some q => exact stateOf_agree hk hk' hp (ht.backed _ q hl) (ht'.backed _ q hl)

theorem nodes_agree_funding :
    (ledger toyCrypto fundedStores (Chain.root [fundingTip]) toySender).Same
    (ledger toyCrypto (transferStores toySignature) (Chain.root [fundingTip]) toySender) := by
  have hw : Reach toyProcessor (fun _ _ _ => True) ⟨fundedStores, [[fundingTip], []]⟩ :=
    .extend .start (mem_singleton_self _) trivial ⟨rfl, nofun, rfl⟩ funding_accepted
  have hw' : Reach toyProcessor (fun _ _ _ => True) transferWorld := reach_transfer trivial trivial
  unfold transferWorld at hw'
  have hext :=
    verifyBlockState_extends (p := toyProcessor) (secondContext (transferBlock toySignature))
    (secondHeader (transferBlock toySignature)) fundedStores
  rw [transfer_accepted] at hext
  have hcf : (transferStores toySignature).CollisionFree toyCrypto := by decide +kernel
  generalize transferStores toySignature = st at *
  refine nodes_agree hw hw' (hcf.nodes.mono (Set.union_subset hext.nodes_subset subset_rfl))
    (hcf.preimages.mono (Set.union_subset ?_ subset_rfl)) mem_cons_self
    (mem_cons_of_mem _ mem_cons_self) rfl toySender
  rintro b (⟨e, hm, he⟩ | ⟨e, hm, he⟩)
  · exact .inl ⟨e, hext.states.subset hm, he⟩
  · exact .inr ⟨e, hext.docs.subset hm, he⟩

end Sahyadri.Pipeline
