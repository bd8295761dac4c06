import Sahyadri.Live.Commit
import Sahyadri.Pipeline.Chain

/-!
# Whether the live accounts and the committed accounts have the same balances

Every block is executed twice: by the state transition whose root the header commits to, and by
`commit_virtual_state` on the live accounts.

* `live_agrees`: along runs of regular blocks the two agree, if `K` fits into the cache, on every
  script that does not share its slot in the tree with another account of `K`.
-/

namespace Sahyadri.Live

open Lib Smt Core Tx Account Did List Ledger FlashTransaction
open Pipeline

/-! ## 1. Runs -/

/-- No other account of `K` has the slot of `spk`. -/
def OwnSlot (c : Crypto) (K : Finset ScriptPublicKey) (spk : ScriptPublicKey) : Prop :=
  ∀ a ∈ K, accountKeyHash c a = accountKeyHash c spk → a = spk

/-- The live balances are the committed ones at the end of `chain`. -/
def LiveAgrees (p : LiveProcessor) (K : Finset ScriptPublicKey) (n : NodeState) (chain : Chain) :
    Prop :=
  ∀ spk, OwnSlot p.crypto K spk → (dbAccountStore.get n.live spk).1.balance =
    (ledger p.crypto n.stores chain.root spk).balance

/-- What a block does to the account `a`, the flash transactions first. -/
def blockChanges (p : VirtualProcessor) (txs : List Transaction) (a : ScriptPublicKey) :
    List Change :=
  (p.effects txs).1.flatMap (flashChanges p.crypto a) ++ (p.effects txs).2.flatMap (rewardChanges a)

/-- A block that both engines execute alike, `M` being the live accounts before it. -/
structure Regular (p : LiveProcessor) (K : Finset ScriptPublicKey) (v : VirtualState) (M : Ledger)
    (txs : List Transaction) : Prop where
  within : Within p K txs
  dids :
    ∀ d ∈ (didOpsOf txs).map DidOp.did, ∀ a ∈ K, didKeyHash p.crypto d ≠ accountKeyHash p.crypto a
  flashOn : p.enableFlashTx = true ∨ (p.effects txs).1 = []
  coinbase : ∀ coinbase ∈ txs.head?, fromTransaction coinbase = none
  subsidy : (p.coinbaseManager.declaredSubsidy txs).toNat < 2 ^ 63
  passes : ∀ tx ∈ (p.effects txs).1, Passes p.crypto M v.daaScore tx
  ids : ((p.effects txs).1.map (flashId p.crypto)).Nodup
  covered : ∀ a ∈ K, Covered maxBalance (M.bal a) (blockChanges p.toVirtualProcessor txs a)

/-- Added blocks, one after the other, each on the end of the chain so far. -/
inductive AddPath (p : LiveProcessor) (allow : VirtualState → Ledger → List Transaction → Prop)
    (v : VirtualState) : NodeState → Chain → List AddedBlock → NodeState → Chain → Prop where
  | nil (n : NodeState) (chain : Chain) : AddPath p allow v n chain [] n chain
  | cons {n n₁ n' : NodeState} {chain chain' : Chain} {b : AddedBlock} {rest : List AddedBlock}
      {txs : List Transaction} (hon : OnTip p.toVirtualProcessor chain ⟨b.header, txs⟩ b.ctx)
      (hok : (p.verifyBlockState b.ctx b.header n.stores).1 = .ok ())
      (hallow : allow v (liveLedger n.live) txs)
      (hadd : (commitAdded p v b : Action NodeState Empty Unit) n = (.ok (), n₁))
      (hrest : AddPath p allow v n₁ (⟨b.header, txs⟩ :: chain) rest n' chain') :
      AddPath p allow v n chain (b :: rest) n' chain'

/-- The states after calls of `commit_virtual_state` from empty stores, with the chain so far. -/
inductive LiveRun (p : LiveProcessor) (allow : VirtualState → Ledger → List Transaction → Prop)
    (maxSize : Nat) (draw : Nat → Nat) : NodeState → Chain → Prop where
  | start : LiveRun p allow maxSize draw ⟨.empty, .new maxSize draw⟩ []
  | visit {n : NodeState} {chain : Chain} (hrun : LiveRun p allow maxSize draw n chain)
      (ctx : VerifyContext) (header : Pipeline.Header) :
      LiveRun p allow maxSize draw ⟨(p.verifyBlockState ctx header n.stores).2, n.live⟩ chain
  | commit {n n₁ n' : NodeState} {chain chain' : Chain} {v : VirtualState} {added : List AddedBlock}
      (hrun : LiveRun p allow maxSize draw n chain) (hdiff : v.accountDiff = [])
      (hpath : AddPath p allow v n chain added n₁ chain')
      (hcommit : (commitVirtualState p v added : Action NodeState Empty Unit) n = (.ok (), n')) :
      LiveRun p allow maxSize draw n' chain'

/-! ## 2. One block on the live ledger -/

section OnLedger

variable {p : LiveProcessor} {K : Finset ScriptPublicKey} {v : VirtualState} {M : Ledger}
  {txs : List Transaction}

theorem Within.rewards (hw : Within p K txs) :
    ∀ r ∈ (p.effects txs).2, r.1 ∈ K := by
  cases txs with
  | nil => exact forall_mem_nil _
  | cons coinbase rest =>
    intro r hr
    rcases receiver_of_coinbaseRewards hr with ⟨data, hd, hpos, hr⟩ | ht
    · exact hr ▸ hw.miner coinbase rfl data hd hpos
    · exact hw.treasury r.1 ((treasuryScript_eq _).trans ht)

/-- The flash transactions of the state transition are among those of the hook. -/
theorem effects_subset_hook (p : VirtualProcessor) (txs : List Transaction) :
    (p.effects txs).1 ⊆ txs.filterMap fromTransaction := by
  cases txs with
  | nil => exact fun _ h => h
  | cons coinbase rest =>
    intro tx htx
    obtain ⟨t, ht, hdec⟩ := mem_filterMap.mp htx
    exact mem_filterMap.mpr ⟨t, mem_cons_of_mem _ ht, hdec⟩

theorem Within.scripts (hw : Within p K txs) : ∀ a ∈ p.scripts txs, a ∈ K := by
  intro a ha
  rcases mem_append.mp ha with ha | ha
  · obtain ⟨tx, htx, ha⟩ := mem_flatMap.mp ha
    have htx := effects_subset_hook p.toVirtualProcessor txs htx
    rcases mem_pair.mp ha with rfl | rfl
    · exact hw.senders tx htx
    · exact hw.recipients tx htx
  · obtain ⟨r, hr, rfl⟩ := mem_map.mp ha
    exact hw.rewards r hr

theorem blockChanges_untouched {p : VirtualProcessor} {a : ScriptPublicKey}
    (h : a ∉ p.scripts txs) : blockChanges p txs a = [] := by
  refine append_eq_nil_iff.mpr
    ⟨flatMap_eq_nil_iff.mpr fun tx htx => ?_, flatMap_eq_nil_iff.mpr fun r hr => ?_⟩
  · have hs : senderOf p.crypto tx ≠ a := fun he => h (he ▸ sender_mem_scripts htx)
    have hr : recipientOf tx ≠ a := fun he =>
      h (mem_append_left _ (mem_flatMap.mpr ⟨tx, htx, he ▸ mem_cons_of_mem _ mem_cons_self⟩))
    rw [flashChanges, if_neg hs, if_neg hr]
    rfl
  · have hr : r.1 ≠ a := fun he => h (mem_append_right _ (mem_map.mpr ⟨r, hr, he⟩))
    rw [rewardChanges, if_neg hr]

/-- Rewards change no flash record, so what passed before them passes after them. -/
theorem Passes.rewards {c : Crypto} {daaScore : UInt64} {tx : FlashTransaction}
    (h : Passes c M daaScore tx) (rewards : Rewards) :
    Passes c (rewards.foldl reward M) daaScore tx := by
  refine { h with unrecorded := ?_ }
  have hrec : record (rewards.foldl reward M) (senderOf c tx) = M.record (senderOf c tx) :=
    record_rewards _ M
  rw [← h.unrecorded, Bool.eq_iff_iff, AccountState.isFlashReplay_iff,
    AccountState.isFlashReplay_iff]
  unfold record at hrec
  rw [hrec]

variable (h : Regular p K v M txs)

include h

theorem Regular.covered_all (a : ScriptPublicKey) :
    Covered maxBalance (M.bal a) (blockChanges p.toVirtualProcessor txs a) := by
  by_cases ha : a ∈ K
  · exact h.covered a ha
  · rw [blockChanges_untouched fun hs => ha (h.within.scripts a hs)]
    exact ⟨Nat.zero_le _, Nat.le_sub_one_of_lt (M a).balance.toNat_lt⟩

/-- The coinbase is credited before the batch and only raises balances: the batch is still
    covered. -/
theorem Regular.payable (a : ScriptPublicKey) :
    debits ((p.effects txs).1.flatMap (flashChanges p.crypto a)) ≤
      bal ((p.effects txs).2.foldl reward M) a := by
  have hle : M.bal a ≤ bal ((p.effects txs).2.foldl reward M) a :=
    M.bal_effects_le p.crypto _ fun tx htx => absurd htx not_mem_nil
  have hd := (h.covered_all a).debits
  rw [blockChanges, debits_append] at hd
  omega

/-- **What a regular block does to the live balances**: the changes of the state transition. -/
theorem ledgerStore_commitLive {ε : Type}
    (hlen : ∀ tx ∈ (p.effects txs).1, 20 ≤ tx.recipient.length) (ord : DebitOrder) (hash : Hash) :
    ∃ L : Ledger,
    (commitLive p ledgerStore ord v.daaScore hash txs : Action Ledger ε Unit) M = (.ok (), L) ∧
      ∀ a, L.bal a = settle maxBalance (M.bal a) (blockChanges p.toVirtualProcessor txs a) := by
  cases txs with
  | nil =>
    refine ⟨M, ?_, fun _ => rfl⟩
    exact congrFun (if_neg fun hf => hf.2 rfl) M
  | cons coinbase rest =>
    have hsmall : ∀ data, p.coinbaseManager.deserializeCoinbasePayload coinbase.payload = .ok data →
        data.subsidy.toNat < 2 ^ 63 := fun data hd => by
      have hs := h.subsidy
      rw [CoinbaseManager.declaredSubsidy, hd] at hs
      exact hs
    have hdecode : (coinbase :: rest).filterMap fromTransaction =
        (p.effects (coinbase :: rest)).1 := filterMap_cons_none (h.coinbase coinbase rfl)
    have hleg : ∀ tx ∈ rest, checkLegacy p.crypto tx = none := h.within.legacy
    have hcredit := ledgerStore_creditCoinbase (ε := ε) hsmall M
    obtain ⟨L, hhook, hbal⟩ := ledgerStore_flashHook ord hash hdecode h.flashOn
      (fun tx htx => (h.passes tx htx).rewards _) h.ids (h.payable) hlen
    refine ⟨L, ?_, fun a => ?_⟩
    · unfold commitLive
      dsimp only
      rw [applyLegacies_skipped hleg]
      exact (Action.bind_ok hcredit _).trans hhook
    · rw [hbal a, bal_rewards_settle a _ M, ← settle_append]
      exact (settle_perm (h.covered_all a) perm_append_comm).symm

end OnLedger

/-! ## 3. One block on both sides -/

section Step

variable {p : LiveProcessor} {K : Finset ScriptPublicKey} {v : VirtualState} {n n' : NodeState}
  {chain : Chain}

/-- The invariant of a run. -/
structure InStep (p : LiveProcessor) (K : Finset ScriptPublicKey) (n : NodeState) (chain : Chain) :
    Prop where
  keyed : n.stores.WellKeyed p.crypto
  held : ∃ t, Holds p.crypto n.stores chain.root t
  fits : n.live.Fits K
  unused : ∀ spk, spk ∉ K → (liveLedger n.live).bal spk = 0
  balances : ∀ spk, OwnSlot p.crypto K spk →
    (liveLedger n.live).bal spk = (ledger p.crypto n.stores chain.root).bal spk

variable {txs : List Transaction} {st st' : Stores}

/-- The balance that the committed accounts have after a block, for a script with a slot of its
    own. -/
theorem bal_committed {p : VirtualProcessor} {root root' : H256} {daaScore : UInt64}
    {dids : List String} (h : Commits p st st' root root' txs daaScore dids)
    (hK : ∀ a ∈ p.scripts txs, a ∈ K) {spk : ScriptPublicKey} (hown : OwnSlot p.crypto K spk)
    (hdids : ∀ d ∈ dids, didKeyHash p.crypto d ≠ accountKeyHash p.crypto spk) :
    (ledger p.crypto st' root').bal spk =
      settle maxBalance ((ledger p.crypto st root).bal spk) (blockChanges p txs spk) := by
  by_cases hs : spk ∈ p.scripts txs
  · obtain ⟨b, hb, hkey, hsame⟩ := h.touched spk hs hdids
    obtain rfl := hown b (hK b hb) hkey
    rw [blockChanges, ← bal_effects_settle, ← bal_blockState p.crypto _ hs]
    exact congrArg UInt64.toNat hsame.balance
  · rw [blockChanges_untouched hs]
    refine congrArg UInt64.toNat (h.untouched _ hdids fun a ha hkey => ?_).balance
    exact hs (hown a (hK a ha) hkey ▸ ha)

variable {b : AddedBlock} {ε : Type}

/-- An accepted block is written as `verify_block_state` wrote it. -/
theorem commitStores_accepted (htxs : b.ctx.transactions = some txs)
    (hok : p.verifyBlockState b.ctx b.header st = (.ok (), st')) :
    (commitStores p b txs st : Run ε Stores) = .ok st' := by
  obtain ⟨ph, txs', x, hx, _, _, _, rfl⟩ := verifyBlockState_ok hok
  obtain rfl : txs = txs' := Option.some.inj (htxs.symm.trans hx.transactions)
  unfold commitStores
  rw [hx.parent]
  dsimp only
  rw [hx.state]

/-- An added block does the two executions, each on its own stores. -/
theorem commitAdded_accepted (htxs : b.ctx.transactions = some txs)
    (hok : (p.verifyBlockState b.ctx b.header n.stores).1 = .ok ())
    (hadd : (commitAdded p v b : Action NodeState ε Unit) n = (.ok (), n')) :
    p.verifyBlockState b.ctx b.header n.stores = (.ok (), n'.stores) ∧
      (commitLive p dbAccountStore b.debitOrder v.daaScore b.header.hash txs :
        Action DbAccounts ε Unit) n.live = (.ok (), n'.live) := by
  have hstores := commitStores_accepted (ε := ε) htxs (Prod.ext hok rfl)
  unfold commitAdded at hadd
  rw [htxs] at hadd
  dsimp only at hadd
  rw [hstores] at hadd
  obtain ⟨h1, h2⟩ := Prod.mk.inj hadd
  subst h2
  exact ⟨Prod.ext hok rfl, Prod.ext h1 rfl⟩

/-- **A regular block keeps the two in step.** -/
theorem InStep.add (h : InStep p K n chain)
    (hon : OnTip p.toVirtualProcessor chain ⟨b.header, txs⟩ b.ctx)
    (hok : (p.verifyBlockState b.ctx b.header n.stores).1 = .ok ())
    (hregular : Regular p K v (liveLedger n.live) txs)
    (hadd : (commitAdded p v b : Action NodeState Empty Unit) n = (.ok (), n'))
    (hcf : n'.stores.CollisionFree p.crypto) : InStep p K n' (⟨b.header, txs⟩ :: chain) := by
  obtain ⟨hverify, hlive⟩ := commitAdded_accepted hon.transactions hok hadd
  obtain ⟨t, ht⟩ := h.held
  obtain ⟨t', dids, ht', hcommits⟩ := hon.commits hverify ht h.keyed hcf
  have hkeyed := verifyBlockState_wellKeyed b.ctx b.header h.keyed
  rw [hverify] at hkeyed
  have hscripts := hregular.within.scripts
  -- the live side, first on a ledger and then on the cached database
  obtain ⟨L, hL, hbal⟩ := ledgerStore_commitLive hregular hcommits.recipients
    b.debitOrder b.header.hash
  have hsim := commitLive_sim (ε := Empty)
    (dbAccountStore_sim K) b.debitOrder v.daaScore b.header.hash hregular.within
  obtain ⟨L', hL', hfits, hmirror⟩ := hsim.ok ⟨h.fits, rfl⟩ hlive
  obtain rfl : L = L' := (Prod.mk.inj (hL.symm.trans hL')).2
  have hunused : ∀ spk, spk ∉ K → L.bal spk = 0 := fun spk hspk => by
    rw [hbal, blockChanges_untouched fun hs => hspk (hscripts spk hs)]
    exact h.unused spk hspk
  rw [← hmirror] at hbal hunused
  refine ⟨hkeyed, ⟨t', ht'⟩, hfits, hunused, fun spk hown => ?_⟩
  by_cases hd : ∃ d ∈ dids, didKeyHash p.crypto d = accountKeyHash p.crypto spk
  · -- a slot that holds a document is read as an empty account
    obtain ⟨d, hd, hkey⟩ := hd
    have hspk : spk ∉ K := fun hm => hregular.dids d (hcommits.named d hd) spk hm hkey
    have hzero := hcommits.did d hd
    rw [hkey] at hzero
    rw [hunused spk hspk]
    exact (congrArg (fun s : AccountState => s.balance.toNat) hzero).symm
  · push Not at hd
    rw [hbal, h.balances spk hown]
    exact (bal_committed hcommits hscripts hown hd).symm

end Step

/-! ## 4. Whole runs -/

section Runs

variable {p : LiveProcessor} {allow : VirtualState → Ledger → List Transaction → Prop}
  {K : Finset ScriptPublicKey} {v : VirtualState} {n n' : NodeState} {chain chain' : Chain}
  {added : List AddedBlock}

section

variable (h : AddPath p allow v n chain added n' chain')

include h

/-- Along a path the stores only grow. -/
theorem AddPath.stores_grow : n.stores.Extends n'.stores := by
  induction h with
  | nil => exact .refl _
  | @cons n _ _ _ _ b _ _ hon hok _ hadd _ ih =>
    have hstep := verifyBlockState_extends (p := p.toVirtualProcessor) b.ctx b.header n.stores
    rw [(commitAdded_accepted hon.transactions hok hadd).1] at hstep
    exact hstep.trans ih

theorem AddPath.commitAll_eq :
    (commitAll p v added : Action NodeState Empty Unit) n = (.ok (), n') := by
  induction h with
  | nil => rfl
  | cons _ _ _ hadd _ ih => exact (Action.bind_ok hadd _).trans ih

/-- The call ends where the path ends, with the batch written. -/
theorem AddPath.commitVirtualState_eq (hdiff : v.accountDiff = []) :
    (commitVirtualState p v added : Action NodeState Empty Unit) n =
      (.ok (), { n' with live := n'.live.flush }) := by
  unfold commitVirtualState
  rw [hdiff]
  exact Action.bind_ok h.commitAll_eq _

end

theorem AddPath.inStep (h : AddPath p (Regular p K) v n chain added n' chain')
    (hin : InStep p K n chain) (hcf : n'.stores.CollisionFree p.crypto) : InStep p K n' chain' := by
  induction h with
  | nil => exact hin
  | cons hon hok hregular hadd hrest ih =>
    have hcf₁ := hcf.of_extends hrest.stores_grow
    exact ih (hin.add hon hok hregular hadd hcf₁) hcf

/-- Writing the batch changes no value. -/
theorem InStep.flush (h : InStep p K n chain) :
    InStep p K { n with live := n.live.flush } chain := by
  obtain ⟨hfits, hsame⟩ := Mirrors.flush ⟨h.fits, rfl⟩
  refine ⟨h.keyed, h.held, hfits, ?_, ?_⟩
  · rw [hsame]
    exact h.unused
  · rw [hsame]
    exact h.balances

/-- A call of `verify_block_state` in between leaves the accounts as they are. -/
theorem InStep.visit (h : InStep p K n chain) (ctx : VerifyContext) (header : Pipeline.Header)
    (hcf : (p.verifyBlockState ctx header n.stores).2.CollisionFree p.crypto) :
    InStep p K ⟨(p.verifyBlockState ctx header n.stores).2, n.live⟩ chain := by
  have hext := verifyBlockState_extends (p := p.toVirtualProcessor) ctx header n.stores
  have hkeyed := verifyBlockState_wellKeyed ctx header h.keyed
  obtain ⟨t, ht⟩ := h.held
  refine ⟨hkeyed, ⟨t, ht.extend hext hkeyed hcf⟩, h.fits, h.unused, fun spk hown => ?_⟩
  rw [h.balances spk hown]
  exact congrArg UInt64.toNat (ht.committed_same hext hkeyed hcf _).balance.symm

theorem LiveRun.inStep {maxSize : Nat}
    {draw : Nat → Nat} (h : LiveRun p (Regular p K) maxSize draw n chain)
    (hroom : K.card < maxSize) (hcf : n.stores.CollisionFree p.crypto) : InStep p K n chain := by
  induction h with
  | start =>
    refine ⟨Stores.wellKeyed_empty _, ⟨_, holds_empty _ _⟩, CachedDb.fits_new hroom draw,
      fun _ _ => rfl, fun spk _ => ?_⟩
    exact (congrArg (fun s : AccountState => s.balance.toNat)
      (committed_empty p.crypto .empty (accountKeyHash p.crypto spk))).symm
  | visit _ ctx header ih =>
    exact (ih (hcf.of_extends (verifyBlockState_extends ctx header _))).visit ctx header hcf
  | commit _ hdiff hpath hcommit ih =>
    obtain rfl := (Prod.mk.inj (hcommit.symm.trans (hpath.commitVirtualState_eq hdiff))).2
    exact (hpath.inStep (ih (hcf.of_extends hpath.stores_grow)) hcf).flush

end Runs

/-! ## 5. A run of two blocks -/

def afterCommit (p : LiveProcessor) (v : VirtualState) (b : AddedBlock) (n : NodeState) :
    NodeState :=
  { (commitAdded p v b n : Run Empty Unit × NodeState).2 with
    live := (commitAdded p v b n : Run Empty Unit × NodeState).2.live.flush }

variable {allow : VirtualState → Ledger → List Transaction → Prop}

theorem LiveRun.commit_one {p : LiveProcessor} {maxSize : Nat} {draw : Nat → Nat}
    {v : VirtualState} {n : NodeState} {chain : Chain}
    {b : AddedBlock} {txs : List Transaction} (hrun : LiveRun p allow maxSize draw n chain)
    (hdiff : v.accountDiff = []) (hon : OnTip p.toVirtualProcessor chain ⟨b.header, txs⟩ b.ctx)
    (hok : (p.verifyBlockState b.ctx b.header n.stores).1 = .ok ())
    (hallow : allow v (liveLedger n.live) txs)
    (hadd : ((commitAdded p v b : Action NodeState Empty Unit) n).1 = .ok ()) :
    LiveRun p allow maxSize draw (afterCommit p v b n) (⟨b.header, txs⟩ :: chain) :=
  have hpath := AddPath.cons hon hok hallow (Prod.ext hadd rfl) (.nil _ _)
  hrun.commit hdiff hpath (hpath.commitVirtualState_eq hdiff)

def liveToy : LiveProcessor := ⟨toyProcessor, true⟩

def grant : List Transaction := [toyCoinbase 1 5000 toySender.script]

variable (f : FlashTransaction)

def spend : List Transaction := [toyCoinbase 2 0 [], f.toTransaction toyCrypto]

def startNode : NodeState := ⟨.empty, .new 10000 id⟩

def grantAdded : AddedBlock :=
  ⟨toyHeader (toyRoot .empty .empty grant 1) 1 1, toyContext grant, .asListed _ _⟩

def grantNode : NodeState := afterCommit liveToy ⟨1, []⟩ grantAdded startNode

def spendAdded : AddedBlock where
  header :=
    { toyHeader (toyRoot grantNode.stores grantAdded.header.accountCommitment (spend f) 2) 2 2 with
      hash := .ofNat 3, directParents := [.ofNat 2] }
  ctx :=
    { toyContext (spend f) with
      selectedParent := .ofNat 2, parentHeader := some grantAdded.header }
  debitOrder := .asListed _ _

def spendNode : NodeState := afterCommit liveToy ⟨2, []⟩ (spendAdded f) grantNode

def spendChain : Chain := [⟨(spendAdded f).header, spend f⟩, ⟨grantAdded.header, grant⟩]

theorem liveRun_spend {f : FlashTransaction}
    (hgrant : allow ⟨1, []⟩ (liveLedger startNode.live) grant)
    (hspend : allow ⟨2, []⟩ (liveLedger grantNode.live) (spend f))
    (hok : (toyProcessor.verifyBlockState (spendAdded f).ctx
      (spendAdded f).header grantNode.stores).1 = .ok ())
    (hadd : ((commitAdded liveToy ⟨2, []⟩ (spendAdded f) : Action NodeState Empty Unit)
      grantNode).1 = .ok ()) : LiveRun liveToy allow 10000 id (spendNode f) (spendChain f) := by
  have hrun : LiveRun liveToy allow 10000 id grantNode [⟨grantAdded.header, grant⟩] :=
    LiveRun.start.commit_one rfl ⟨rfl, nofun, rfl⟩ (by decide +kernel) hgrant (by decide +kernel)
  refine hrun.commit_one rfl ⟨rfl, fun b' h => ?_, rfl⟩ hok hspend hadd
  cases h
  exact ⟨rfl, by decide⟩

/-! ## 6. Agreement -/

/-- **The live balances along regular runs** are the committed ones. -/
theorem live_agrees {p : LiveProcessor} {K : Finset ScriptPublicKey} {maxSize : Nat}
    {draw : Nat → Nat}
    {n : NodeState} {chain : Chain} (h : LiveRun p (Regular p K) maxSize draw n chain)
    (hroom : K.card < maxSize) (hcf : n.stores.CollisionFree p.crypto) :
    LiveAgrees p K n chain := by
  have hin := h.inStep hroom hcf
  intro spk hown
  rw [dbAccountStore_get hin.fits]
  exact UInt64.toNat_inj.mp (hin.balances spk hown)

def paidTransfer (signature : Bytes) : FlashTransaction := { transfer signature with fee := 1000 }

def paidSignature : Bytes := ((paidTransfer []).sighash toyCrypto).bytes

def toyAccounts : Finset ScriptPublicKey := {toySender, recipientOf (transfer [])}

theorem live_agrees_paid : LiveAgrees liveToy toyAccounts (spendNode (paidTransfer paidSignature))
      (spendChain (paidTransfer paidSignature)) ∧ OwnSlot toyCrypto toyAccounts toySender ∧
      (dbAccountStore.get (spendNode (paidTransfer paidSignature)).live toySender).1.balance =
        3995 := by
  have hnone : ∀ spk, treasuryScript liveToy.treasuryHex = some spk → spk ∈ toyAccounts := by
    intro spk h
    cases h
  have hgrant : Regular liveToy toyAccounts ⟨1, []⟩ (liveLedger startNode.live) grant := by
    refine ⟨⟨?_, hnone, by decide, by decide, by decide⟩, by decide,
      .inl rfl, ?_, by decide, by decide, by decide, by decide⟩
    · rintro _ ⟨⟩ data hd _
      have hdata : toyProcessor.coinbaseManager.deserializeCoinbasePayload
          (toyCoinbase 1 5000 toySender.script).payload = .ok ⟨1, 5000, ⟨toySender, []⟩⟩ := by
        decide
      obtain rfl := Except.ok.inj (hdata.symm.trans hd)
      exact Finset.mem_insert_self _ _
    · rintro _ ⟨⟩
      decide
  have hspend : Regular liveToy toyAccounts ⟨2, []⟩ (liveLedger grantNode.live)
      (spend (paidTransfer paidSignature)) := by
    refine ⟨⟨?_, hnone, by decide +kernel, by decide +kernel, by decide +kernel⟩, by decide +kernel,
      .inl rfl, ?_, by decide +kernel, by decide +kernel, by decide +kernel, by decide +kernel⟩
    · rintro _ ⟨⟩ data hd hpos
      have hdata : toyProcessor.coinbaseManager.deserializeCoinbasePayload
          (toyCoinbase 2 0 []).payload = .ok ⟨2, 0, ⟨⟨0, []⟩, []⟩⟩ := by
        decide
      obtain rfl := Except.ok.inj (hdata.symm.trans hd)
      exact absurd hpos (by decide)
    · rintro _ ⟨⟩
      decide
  have hrun := liveRun_spend hgrant hspend (by decide +kernel) (by decide +kernel)
  exact ⟨live_agrees hrun (by decide +kernel) (by decide +kernel),
    by unfold OwnSlot; decide +kernel, by decide +kernel⟩

/-- **A flash transaction that pays no fee**: the block commits 4995 for the sender, the live
    account keeps 5000. -/
theorem live_disagrees :
    LiveRun liveToy (fun _ _ _ => True) 10000 id (spendNode (transfer toySignature))
        (spendChain (transfer toySignature)) ∧
      toyCrypto.verify (transfer toySignature).pubkey (transfer toySignature).signature
        ((transfer toySignature).sighash toyCrypto).bytes = true ∧
      (spendNode (transfer toySignature)).stores.CollisionFree toyCrypto ∧
      (dbAccountStore.get (spendNode (transfer toySignature)).live toySender).1.balance = 5000 ∧
      (ledger toyCrypto (spendNode (transfer toySignature)).stores
        (spendChain (transfer toySignature)).root toySender).balance = 4995 := by
  exact ⟨liveRun_spend trivial trivial (by decide +kernel) (by decide +kernel), by
    decide +kernel, by decide +kernel, by decide +kernel, by decide +kernel⟩

end Sahyadri.Live
