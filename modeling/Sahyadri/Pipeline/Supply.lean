import Sahyadri.Account.Total
import Sahyadri.Pipeline.Chain

/-!
# The sum of all committed balances along a chain

* `supply_capped`: it is at most the cap along a chain whose blocks are `Fair`: they declare no more
  than the subsidy of their blue score, their flash transactions are funded, and their scripts have
  slots of their own. Nothing in the code checks any of the three.
-/

namespace Sahyadri.Pipeline

open Lib Smt Core Account Did List Chain

/-! ## 1. The bound -/

/-- What `calc_block_subsidy` gives for the blocks of a chain, added up. -/
def Chain.subsidies (m : CoinbaseManager) (chain : Chain) : Nat :=
  (chain.map fun b => (m.calcBlockSubsidy b.header.blueScore).toNat).sum

theorem Chain.subsidies_cons (m : CoinbaseManager) (b : Block) (chain : Chain) : subsidies m
      (b :: chain) = (m.calcBlockSubsidy b.header.blueScore).toNat + chain.subsidies m := by
  rw [subsidies, map_cons, sum_cons, subsidies]

def supply (A : H256 → AccountState) (keys : Finset H256) : Nat := ∑ k ∈ keys, (A k).balance.toNat

/-- However many slots are added up, the balances at the end of a chain stay below the subsidies of
    its blocks, and below the cap if blue scores increase and there is one block per second. -/
structure SupplyCapped (p : VirtualProcessor) (st : Stores) (chain : Chain) : Prop where
  issued :
    ∀ keys, supply (committed p.crypto st chain.root) keys ≤ chain.subsidies p.coinbaseManager
  cap : p.coinbaseManager.bps = 1 →
    chain.Pairwise (fun later earlier => earlier.header.blueScore < later.header.blueScore) →
    ∀ keys, supply (committed p.crypto st chain.root) keys ≤ maxKana

/-- A block that creates no more than its subsidy, on the accounts `L`. -/
structure Fair (p : VirtualProcessor) (L : Ledger) (_chain : Chain) (b : Block) : Prop where
  subsidy : p.coinbaseManager.declaredSubsidy b.transactions ≤ p.coinbaseManager.calcBlockSubsidy
    b.header.blueScore
  funded : Funded p.crypto L (p.effects b.transactions).1
  slots : ∀ a ∈ p.scripts b.transactions, ∀ a' ∈ p.scripts b.transactions,
    accountKeyHash p.crypto a = accountKeyHash p.crypto a' → a = a'

/-- At one block per second, increasing blue scores keep the subsidies below the cap. -/
theorem Chain.subsidies_le_cap {m : CoinbaseManager} (hbps : m.bps = 1) {chain : Chain}
    (h : chain.Pairwise fun later earlier => earlier.header.blueScore < later.header.blueScore) :
    chain.subsidies m ≤ maxKana := by
  have hscores : (chain.map fun b => b.header.blueScore.toNat).Nodup := by
    rw [List.Nodup, pairwise_map]
    exact h.imp fun hlt => ne_of_gt (UInt64.lt_iff_toNat_lt.mp hlt)
  have hsum : chain.subsidies m =
      ((chain.map fun b => b.header.blueScore.toNat).map (subsidyNat 126230400)).sum := by
    rw [subsidies, map_map]
    congr 1
    refine map_congr_left fun b _ => ?_
    rw [toNat_calcBlockSubsidy, hbps]
    rfl
  rw [hsum, ← sum_toFinset _ hscores]
  exact (subsidy_sum_le (by decide) _).trans (by decide)

/-! ## 2. One block -/

section Block

variable {p : VirtualProcessor} {st st' : Stores} {root root' : H256} {txs : List Transaction}
  {daaScore : UInt64} {dids : List String}

theorem sum_rewards_le (p : VirtualProcessor) (txs : List Transaction) :
    ((p.effects txs).2.map fun r => r.2.toNat).sum ≤
      (p.coinbaseManager.declaredSubsidy txs).toNat := by
  cases txs with
  | nil => exact Nat.zero_le _
  | cons coinbase rest =>
    show ((coinbaseRewards _ _ coinbase.payload).map fun r => r.2.toNat).sum ≤ _
    cases hd : p.coinbaseManager.deserializeCoinbasePayload coinbase.payload with
    | error e =>
      rw [coinbaseRewards, hd]
      exact Nat.zero_le _
    | ok data =>
      rw [CoinbaseManager.declaredSubsidy, hd]
      exact sum_coinbaseRewards_le hd _

/-- The balance in a slot after a block: that of the ledger for a touched script, what was there
    before in any other; a DID leaves nothing. -/
theorem Commits.balance_le (h : Commits p st st' root root' txs daaScore dids)
    (hslots : ∀ a ∈ p.scripts txs, ∀ a' ∈ p.scripts txs,
      accountKeyHash p.crypto a = accountKeyHash p.crypto a' → a = a') :
    (∀ a ∈ p.scripts txs, (committed p.crypto st' root' (accountKeyHash p.crypto a)).balance.toNat ≤
        ((ledger p.crypto st root).effects p.crypto (p.effects txs).1 (p.effects txs).2).bal a) ∧
      ∀ key, (∀ a ∈ p.scripts txs, accountKeyHash p.crypto a ≠ key) →
      (committed p.crypto st' root' key).balance.toNat ≤
          (committed p.crypto st root key).balance.toNat := by
  have hdid : ∀ key, (∃ d ∈ dids, didKeyHash p.crypto d = key) →
      (committed p.crypto st' root' key).balance.toNat = 0 := by
    rintro key ⟨d, hd, rfl⟩
    rw [h.did d hd]
    rfl
  constructor
  · intro a ha
    by_cases hd : ∃ d ∈ dids, didKeyHash p.crypto d = accountKeyHash p.crypto a
    · rw [hdid _ hd]
      exact Nat.zero_le _
    · push Not at hd
      obtain ⟨b, hb, hkey, hs⟩ := h.touched a ha hd
      obtain rfl := hslots b hb a ha hkey
      rw [hs.balance]
      exact le_of_eq (bal_blockState p.crypto _ ha)
  · intro key hkey
    by_cases hd : ∃ d ∈ dids, didKeyHash p.crypto d = key
    · rw [hdid _ hd]
      exact Nat.zero_le _
    · push Not at hd
      rw [(h.untouched key hd hkey).balance]

/-- **A block creates at most its rewards**: in the slots of touched scripts the ledger counts, the
    others only lose. -/
theorem Commits.supply_le (h : Commits p st st' root root' txs daaScore dids)
    (hslots : ∀ a ∈ p.scripts txs, ∀ a' ∈ p.scripts txs,
      accountKeyHash p.crypto a = accountKeyHash p.crypto a' → a = a')
    (hf : Funded p.crypto (ledger p.crypto st root) (p.effects txs).1) {bound : Nat}
    (hbound : ∀ keys, supply (committed p.crypto st root) keys ≤ bound) (keys : Finset H256) :
    supply (committed p.crypto st' root') keys ≤ bound +
      ((p.effects txs).2.map fun r => r.2.toNat).sum := by
  obtain ⟨htouched, hother⟩ := h.balance_le hslots
  let T := (p.scripts txs).toFinset
  let K := T.image (accountKeyHash p.crypto)
  have hinj : Set.InjOn (accountKeyHash p.crypto) T := fun a ha a' ha' he =>
    hslots a (mem_toFinset.mp ha) a' (mem_toFinset.mp ha') he
  have hrest : ∀ k ∈ keys \ K, (committed p.crypto st' root' k).balance.toNat ≤
      (committed p.crypto st root k).balance.toNat := fun k hk =>
    hother k fun a ha he =>
      (Finset.mem_sdiff.mp hk).2 (Finset.mem_image.mpr ⟨a, mem_toFinset.mpr ha, he⟩)
  have hledger : supply (committed p.crypto st' root') K ≤
      (ledger p.crypto st root).total T + ((p.effects txs).2.map fun r => r.2.toNat).sum := by
    refine le_trans ?_ (Ledger.total_effects_le p.crypto _ hf fun tx htx => ?_)
    · rw [supply, Finset.sum_image hinj]
      exact Finset.sum_le_sum fun a ha => htouched a (mem_toFinset.mp ha)
    · exact mem_toFinset.mpr (sender_mem_scripts htx)
  have htotal : (ledger p.crypto st root).total T = supply (committed p.crypto st root) K := by
    rw [supply, Finset.sum_image hinj]
    rfl
  calc supply (committed p.crypto st' root') keys ≤
        supply (committed p.crypto st' root') (keys \ K ∪ K) :=
        Finset.sum_le_sum_of_subset
          (by rw [Finset.sdiff_union_self_eq_union]; exact Finset.subset_union_left)
    _ = supply (committed p.crypto st' root') (keys \ K) +
          supply (committed p.crypto st' root') K :=
        Finset.sum_union Finset.sdiff_disjoint
    _ ≤ supply (committed p.crypto st root) (keys \ K) + (supply (committed p.crypto st root) K +
          ((p.effects txs).2.map fun r => r.2.toNat).sum) :=
          add_le_add (Finset.sum_le_sum hrest) (htotal ▸ hledger)
    _ = supply (committed p.crypto st root)
      (keys \ K ∪ K) + ((p.effects txs).2.map fun r => r.2.toNat).sum := by
        rw [supply, supply, supply, Finset.sum_union Finset.sdiff_disjoint, add_assoc]
    _ ≤ bound + ((p.effects txs).2.map fun r => r.2.toNat).sum := Nat.add_le_add_right (hbound _) _

end Block

/-! ## 3. Whole chains -/

section Chains

variable {p : VirtualProcessor} {w : World} {chain : Chain}

/-- The invariant: all balances together are at most the subsidies. -/
def Issued (m : CoinbaseManager) (A : H256 → AccountState) (chain : Chain) : Prop :=
  ∀ keys, supply A keys ≤ chain.subsidies m

theorem Issued.same {m : CoinbaseManager} {A A' : H256 → AccountState}
    (hsame : ∀ key, (A' key).Same (A key)) (h : Issued m A chain) : Issued m A' chain := by
  intro keys
  have heq : supply A' keys = supply A keys :=
    Finset.sum_congr rfl fun k _ => by rw [(hsame k).balance]
  rw [heq]
  exact h keys

theorem Issued.step {st st' : Stores} {b : Block} {dids : List String}
    (h : Issued p.coinbaseManager (committed p.crypto st chain.root) chain)
    (hfair : Fair p (ledger p.crypto st chain.root) chain b) (hcommits : Commits
      p st st' chain.root b.header.accountCommitment b.transactions b.header.daaScore dids) :
    Issued p.coinbaseManager (committed p.crypto st' b.header.accountCommitment) (b :: chain) := by
  intro keys
  have hrewards := sum_rewards_le p b.transactions
  have hsubsidy := UInt64.le_iff_toNat_le.mp hfair.subsidy
  have hsupply := hcommits.supply_le hfair.slots hfair.funded h keys
  rw [subsidies_cons]
  omega

/-- **The supply along fair chains**: all balances together are at most the subsidies of the blocks
    so far, below 21 million coins. -/
theorem supply_capped (h : Reach p (Fair p) w)
    (hcf : w.stores.CollisionFree p.crypto) {chain past : Chain}
    (hc : chain ∈ w.chains) (hpast : past <:+ chain) : SupplyCapped p w.stores past := by
  have hstart : Issued p.coinbaseManager (fun _ => .default) [] := fun keys =>
    le_of_eq (Finset.sum_eq_zero fun _ _ => rfl)
  obtain ⟨_, hkeeps⟩ := h.invariant (Issued p.coinbaseManager) hstart Issued.same Issued.step hcf
  have hissued := (hkeeps past (h.past_mem hc hpast)).inv
  exact ⟨hissued, fun hbps hblue keys => (hissued keys).trans (subsidies_le_cap hbps hblue)⟩

theorem supply_capped_transfer :
    SupplyCapped toyProcessor transferWorld.stores transferChain := by
  have hfair₁ : Fair toyProcessor (ledger toyCrypto .empty .empty) [] fundingTip :=
    ⟨by decide, by decide, by decide⟩
  have hfair₂ : Fair toyProcessor (ledger toyCrypto fundedStores fundingHeader.accountCommitment)
      [fundingTip] (transferTip toySignature) :=
    ⟨by decide +kernel, by decide +kernel, by decide +kernel⟩
  exact supply_capped (reach_transfer hfair₁ hfair₂) (by decide +kernel) mem_cons_self
    (suffix_refl _)

end Chains

/-! ## 4. A block that declares too much -/

def toyBody : BodyContext := ⟨fun _ => true, .ok 0⟩

/-- A block that declares ten million; the base reward is 8318123. -/
def greedyBlock : List Transaction := [toyCoinbase 1 10000000 [1]]

def greedyTip : Block := ⟨toyHeader (toyRoot .empty .empty greedyBlock 1) 1 1, greedyBlock⟩

def greedyStores : Stores :=
  (toyProcessor.verifyBlockState (toyContext greedyBlock) greedyTip.header .empty).2

/-- **The declared subsidy is paid whatever it is**: both validations accept the block. -/
theorem oversized_subsidy :
    validateBodyInContext toyProcessor.coinbaseManager toyBody greedyTip = .ok () ∧
      (toyProcessor.verifyBlockState (toyContext greedyBlock) greedyTip.header .empty).1 = .ok () ∧
      ¬ SupplyCapped toyProcessor greedyStores [greedyTip] := by
  refine ⟨by decide +kernel, by decide +kernel, fun h => ?_⟩
  have hle := h.issued {accountKeyHash toyCrypto ⟨0, [1]⟩}
  revert hle
  decide +kernel

end Sahyadri.Pipeline
