import Sahyadri.Pipeline.Chain

/-!
# Whether a flash transaction can be applied twice along a chain

* `no_replay`: not along a chain whose blocks are `Fresh`: they have no flash transaction twice,
  none that the parent's accounts have recorded, and none that has expired. The code records ids in
  the committed accounts and never looks at them there.
-/

namespace Sahyadri.Pipeline

open Lib Smt Core Account Did List Chain

/-! ## 1. Replays along a chain -/

variable (p : VirtualProcessor)

/-- The flash transactions applied along a chain, those of the newest block first. -/
def Chain.flashes (chain : Chain) : List FlashTransaction :=
  chain.flatMap fun b => (p.effects b.transactions).1

/-- The account that a flash transaction debits, and the id it is debited for. -/
def debitOf (c : Crypto) (f : FlashTransaction) : ScriptPublicKey × Hash :=
  (senderOf c f, f.flashId c)

/-- No account is debited twice for one id. -/
def NoReplay (chain : Chain) : Prop := ((chain.flashes p).map (debitOf p.crypto)).Nodup

/-- No collision among the hashed ids. -/
def IdsApart (c : Crypto) (fs : List FlashTransaction) : Prop :=
  ∀ f ∈ fs, ∀ g ∈ fs, f.flashId c = g.flashId c → f.signedBytes = g.signedBytes

theorem IdsApart.mono {c : Crypto} {fs gs : List FlashTransaction} (h : IdsApart c gs)
    (hsub : fs ⊆ gs) : IdsApart c fs := fun f hf g hg => h f (hsub hf) g (hsub hg)

/-- A block that replays nothing, on a chain that ends in the accounts `L`. -/
structure Fresh (L : Ledger) (chain : Chain) (b : Block) : Prop where
  distinct : ((p.effects b.transactions).1.map (debitOf p.crypto)).Nodup
  unrecorded : ∀ f ∈ (p.effects b.transactions).1, (L (senderOf p.crypto f)).isFlashReplay
    (f.flashId p.crypto) = false
  unexpired : ∀ f ∈ (p.effects b.transactions).1, b.header.daaScore ≤ f.expiryDaaScore
  positive : 0 < b.header.daaScore
  ordered : ∀ b' ∈ chain.head?, b'.header.daaScore ≤ b.header.daaScore
  slots : ∀ a ∈ p.scripts b.transactions, ∀ f ∈ flashes p (b :: chain),
    accountKeyHash p.crypto a = accountKeyHash p.crypto (senderOf p.crypto f) →
    a = senderOf p.crypto f
  dids : ∀ d ∈ (didOpsOf b.transactions).map DidOp.did, ∀ f ∈ flashes p (b :: chain),
    didKeyHash p.crypto d ≠ accountKeyHash p.crypto (senderOf p.crypto f)

/-- Every applied flash that the end of the chain has not outlived is recorded with its sender. -/
def Recorded (A : H256 → AccountState) (chain : Chain) : Prop :=
  ∀ f ∈ chain.flashes p, (∀ b ∈ chain.head?, b.header.daaScore ≤ f.expiryDaaScore) →
    (f.flashId p.crypto, f.expiryDaaScore) ∈
      (A (accountKeyHash p.crypto (senderOf p.crypto f))).recentFlashes.map FlashEntry.core

/-- The invariant, for chains whose ids do not collide. -/
def Unreplayed (A : H256 → AccountState) (chain : Chain) : Prop :=
  Recorded p A chain ∧ (IdsApart p.crypto (chain.flashes p) → NoReplay p chain)

/-! ## 2. One block -/

section Step

variable {p : VirtualProcessor} {st st' : Stores} {chain : Chain} {b : Block} {dids : List String}

theorem Chain.flashes_cons (p : VirtualProcessor) (b : Block) (chain : Chain) :
    flashes p (b :: chain) = (p.effects b.transactions).1 ++ chain.flashes p := flatMap_cons

/-- The record of a sender after a block: what was there and the block's own flashes, if they have
    not expired. -/
theorem Commits.mem_record
    (h : Commits p st st' chain.root b.header.accountCommitment b.transactions
      b.header.daaScore dids) (hf : Fresh p (ledger p.crypto st chain.root) chain b)
    {f : FlashTransaction}
    (hm : f ∈ flashes p (b :: chain)) {x : Hash × UInt64} (hx : b.header.daaScore ≤ x.2)
    (hin : x ∈ (ledger p.crypto st chain.root).record (senderOf p.crypto f) ∨
      f ∈ (p.effects b.transactions).1 ∧ x = (f.flashId p.crypto, f.expiryDaaScore)) :
    x ∈ (committed p.crypto st' b.header.accountCommitment
      (accountKeyHash p.crypto (senderOf p.crypto f))).recentFlashes.map FlashEntry.core := by
  have hdid : ∀ d ∈ dids, didKeyHash p.crypto d ≠ accountKeyHash p.crypto (senderOf p.crypto f) :=
    fun d hd => hf.dids d (h.named d hd) f hm
  by_cases ht : senderOf p.crypto f ∈ p.scripts b.transactions
  · obtain ⟨a, ha, hkey, hs⟩ := h.touched _ ht hdid
    obtain rfl := hf.slots a ha f hm hkey
    rw [hs.flashes.mem_iff]
    refine (mem_record_blockState p.crypto _ ht).mpr
      ⟨hin.imp_right fun ⟨h1, h2⟩ => ⟨f, h1, rfl, h2⟩, ?_⟩
    have h0 := UInt64.lt_iff_toNat_lt.mp hf.positive
    have h1 := UInt64.le_iff_toNat_le.mp hx
    omega
  · have hno : ∀ a ∈ p.scripts b.transactions,
        accountKeyHash p.crypto a ≠ accountKeyHash p.crypto (senderOf p.crypto f) :=
      fun a ha hkey =>
      ht (hf.slots a ha f hm hkey ▸ ha)
    rw [(h.untouched _ hdid hno).flashes.mem_iff]
    rcases hin with hin | ⟨h1, _⟩
    · exact hin
    · exact absurd (sender_mem_scripts h1) ht

theorem Recorded.step (h : Recorded p (committed p.crypto st chain.root) chain)
    (hf : Fresh p (ledger p.crypto st chain.root) chain b)
    (hc : Commits p st st' chain.root b.header.accountCommitment b.transactions b.header.daaScore
      dids) : Recorded p (committed p.crypto st' b.header.accountCommitment) (b :: chain) := by
  intro f hm hlive
  have hx := hlive b rfl
  refine hc.mem_record hf hm hx ?_
  rcases mem_append.mp hm with hm | hm
  · exact .inr ⟨hm, rfl⟩
  · exact .inl (h f hm fun b' hb' => UInt64.le_trans (hf.ordered b' hb') hx)

/-- **A fresh block replays nothing**: an earlier flash with the same id is still recorded, and the
    block has no recorded flash. -/
theorem NoReplay.step (h : Recorded p (committed p.crypto st chain.root) chain)
    (hn : NoReplay p chain) (hf : Fresh p (ledger p.crypto st chain.root) chain b)
    (hids : IdsApart p.crypto (flashes p (b :: chain))) : NoReplay p (b :: chain) := by
  unfold NoReplay
  rw [flashes_cons, map_append]
  refine nodup_append.mpr ⟨hf.distinct, hn, ?_⟩
  rintro x hx y hy rfl
  obtain ⟨f, hfm, rfl⟩ := mem_map.mp hx
  obtain ⟨g, hgm, hfg⟩ := mem_map.mp hy
  obtain ⟨hsender, hid⟩ := Prod.mk.inj hfg
  have hsigned := hids g (by rw [flashes_cons]; exact mem_append_right _ hgm) f
    (by rw [flashes_cons]; exact mem_append_left _ hfm) hid
  have hexpiry := FlashTransaction.expiry_of_signedBytes hsigned
  have hrec :=
    h g hgm fun b' hb' => hexpiry ▸ UInt64.le_trans (hf.ordered b' hb') (hf.unexpired f hfm)
  have hreplay : (ledger p.crypto st chain.root (senderOf p.crypto f)).isFlashReplay
      (f.flashId p.crypto) = true := by
    rw [← hsender, ← hid]
    exact AccountState.isFlashReplay_iff.mpr ⟨_, hrec, rfl⟩
  rw [hf.unrecorded f hfm] at hreplay
  cases hreplay

theorem Unreplayed.step (h : Unreplayed p (committed p.crypto st chain.root) chain)
    (hf : Fresh p (ledger p.crypto st chain.root) chain b)
    (hc : Commits p st st' chain.root b.header.accountCommitment b.transactions b.header.daaScore
      dids) : Unreplayed p (committed p.crypto st' b.header.accountCommitment) (b :: chain) := by
  refine ⟨h.1.step hf hc, fun hids => NoReplay.step h.1 (h.2 (hids.mono ?_)) hf hids⟩
  exact subset_append_right _ _

theorem Unreplayed.same {A A' : H256 → AccountState} (hsame : ∀ key, (A' key).Same (A key))
    (h : Unreplayed p A chain) : Unreplayed p A' chain :=
  ⟨fun f hm hlive => (hsame _).flashes.mem_iff.mpr (h.1 f hm hlive), h.2⟩

end Step

/-! ## 3. Whole chains -/

section Chains

variable {p : VirtualProcessor} {w : World}

/-- **No flash is applied twice along a chain of fresh blocks.** -/
theorem no_replay (h : Reach p (Fresh p) w) (hcf : w.stores.CollisionFree p.crypto) {chain : Chain}
    (hc : chain ∈ w.chains) (hids : IdsApart p.crypto (chain.flashes p)) : NoReplay p chain := by
  have hstart : Unreplayed p (fun _ => .default) [] := ⟨forall_mem_nil _, fun _ => nodup_nil⟩
  obtain ⟨_, hkeeps⟩ := h.invariant (Unreplayed p) hstart Unreplayed.same Unreplayed.step hcf
  exact (hkeeps chain hc).inv.2 hids

theorem no_replay_transfer : NoReplay toyProcessor transferChain := by
  have hfresh₁ : Fresh toyProcessor (ledger toyCrypto .empty .empty) [] fundingTip :=
    ⟨by decide, by decide, by decide, by decide, by decide,
      by decide, by decide⟩
  have hfresh₂ : Fresh toyProcessor (ledger toyCrypto fundedStores fundingHeader.accountCommitment)
      [fundingTip] (transferTip toySignature) :=
    ⟨by decide +kernel, by decide +kernel, by decide +kernel, by decide +kernel, by decide +kernel,
      by decide +kernel, by decide +kernel⟩
  have hcf : transferWorld.stores.CollisionFree toyProcessor.crypto := by decide +kernel
  have hids : IdsApart toyProcessor.crypto (flashes toyProcessor transferChain) := by
    unfold IdsApart
    decide +kernel
  exact no_replay (reach_transfer hfresh₁ hfresh₂) hcf mem_cons_self hids

end Chains

/-! ## 4. A flash with two carriers -/

/-- The signed transfer of 5 twice in one block, the second time with a byte after the signature. -/
def doubledBlock : List Transaction :=
  [toyCoinbase 2 0 [], carrier (transfer toySignature).payload,
    carrier ((transfer toySignature).payload ++ [0])]

def doubledTip : Block := ⟨secondHeader doubledBlock, doubledBlock⟩

def doubledStores : Stores :=
  (toyProcessor.verifyBlockState (secondContext doubledBlock) doubledTip.header fundedStores).2

/-- **One flash, two debits**: the block passes the isolation checks and `verify_block_state`, and
    its sender pays 5 twice. -/
theorem doubled_flash : checkTransactionsInIsolation toyCrypto toyValidator doubledBlock = .ok () ∧
      checkDuplicateTransactions [] doubledBlock = .ok () ∧
      (toyProcessor.verifyBlockState (secondContext doubledBlock) doubledTip.header
        fundedStores).1 = .ok () ∧
      ((ledger toyCrypto fundedStores fundingHeader.accountCommitment).bal toySender = 10 ∧
        (ledger toyCrypto doubledStores doubledTip.header.accountCommitment).bal toySender = 0) ∧
      ¬ NoReplay toyProcessor [doubledTip, fundingTip] := by
  unfold NoReplay
  decide +kernel

end Sahyadri.Pipeline
