import Sahyadri.Mining.Sample
import Sahyadri.Mining.Panics
import Mathlib.Algebra.Order.Ring.Rat
import Mathlib.Data.Rat.Denumerable

/-!
# When a selector for a block template can be built

* `buildSelector_returns_iff`: it is built, whatever is drawn, unless the frontier is sampled and
  the transactions with a fee can run out.
-/

namespace Sahyadri.Mining

open Lib Smt Core Tx List Floats Draws

/-! ## 1. What the selectors hold -/

/-- The transactions of a selector are distinct, and in the frontier. -/
def IndexedFrontier.Offers {K : Type} {fl : Floats} (f : IndexedFrontier fl) (s : Selector K) :
    Prop :=
  (s.transactions.map fun tx => tx.id).Nodup ∧ ∀ tx ∈ s.transactions, ∃ k ∈ f.searchTree, k.tx = tx

variable {K σ α β : Type} {x : Drawing σ α} {g : α → β}

theorem IndexedFrontier.offers_of_perm {fl : Floats} {f : IndexedFrontier fl}
    (hids : (f.searchTree.map fun k => k.tx.id).Nodup) {s : Selector K}
    (h : s.transactions.Perm (f.searchTree.map fun k => k.tx)) : f.Offers s := by
  constructor
  · have hperm := h.map fun tx => tx.id
    rw [map_map] at hperm
    exact hperm.nodup_iff.mpr hids
  · intro tx htx
    obtain ⟨k, hk, rfl⟩ := mem_map.mp (h.mem_iff.mp htx)
    exact ⟨k, hk, rfl⟩

theorem RebalancingWeightedTransactionSelector.transactions_perm [Field K] (policy : Policy)
    (keys : List FeerateTransactionKey) :
    (Selector.rebalancing (K := K) (.new policy (keys.map .fromKey))).transactions.Perm
      (keys.map fun k => k.tx) := by
  have hperm := (perm_insertionSort (fun a b : CandidateTransaction =>
    ¬ b.tx.subnetworkId.bytes < a.tx.subnetworkId.bytes) (keys.map .fromKey)).map fun t => t.tx
  rw [map_map] at hperm
  exact hperm

theorem IndexedFrontier.offers_of_held {f : IndexedFrontier exact} {policy : Policy}
    {input : SequenceSelectorInput} (h : Held f.tree input) :
    f.Offers (Selector.sequence (K := K) (.new input policy)) := by
  constructor
  · show ((input.pairs.map fun e => e.2.tx).map fun tx => tx.id).Nodup
    rw [map_map]
    exact h.nodup
  · intro tx htx
    obtain ⟨e, he, rfl⟩ := mem_map.mp htx
    obtain ⟨k, hk, heq⟩ := h.mem e he
    exact ⟨k, f.tree_keys ▸ hk, heq⟩

theorem Drawing.map_eq_panicked (h : x.map g = .panicked) : x = .panicked := by
  cases x with
  | panicked => rfl
  | running s => cases h
  | done a => cases h

theorem Drawing.map_eq_done {b : β} (h : x.map g = .done b) :
    ∃ a, x = .done a ∧ b = g a := by
  cases x with
  | done a => exact ⟨a, rfl, by cases h; rfl⟩
  | running s => cases h
  | panicked => cases h

/-! ## 2. Building a selector -/

section Build

variable {K : Type} [Field K] [LinearOrder K]

/-- Whatever is drawn, nothing panics, and what is returned offers distinct transactions of the
    frontier; fair draws return something. -/
def IndexedFrontier.Builds {fl : Floats} (f : IndexedFrontier fl) (desiredMass : UInt64 → UInt64)
    (policy : Policy) (d : Draws K) : Prop :=
  (∀ n, f.buildSelector desiredMass policy (d.take n) ≠ .panicked) ∧
    (d.Fair → ∃ n s, f.buildSelector desiredMass policy (d.take n) = .done s) ∧
    ∀ n s, f.buildSelector desiredMass policy (d.take n) = .done s → f.Offers s

namespace IndexedFrontier

variable {f : IndexedFrontier exact} {desiredMass : UInt64 → UInt64} {policy : Policy}

/-- All transactions, or the ones that are sorted by subnetwork: nothing is drawn. -/
theorem builds_of_done (d : Draws K) {s : Selector K} (hs : f.Offers s)
    (h : ∀ us : List K, f.buildSelector desiredMass policy us = .done s) :
    f.Builds desiredMass policy d := by
  refine ⟨fun n hp => ?_, fun _ => ⟨0, s, h _⟩, fun n s' hs' => ?_⟩
  · cases (h _).symm.trans hp
  · cases (h _).symm.trans hs'
    exact hs

variable [IsStrictOrderedRing K]

/-- **When a template can be built.** If the frontier is sampled, some transaction has a fee, and if
    another has none, those with a fee cannot all be drawn before there is enough mass. -/
theorem buildSelector_returns_iff (f : IndexedFrontier exact) (desiredMass : UInt64 → UInt64)
    (policy : Policy) (hids : (f.searchTree.map fun k => k.tx.id).Nodup)
    (hmass : ∀ k ∈ f.searchTree, 0 < k.mass) : (∀ d : Draws K, f.Builds desiredMass policy d) ↔
      (policy.maxBlockMass < f.totalMass → policy.maxBlockMass * 4 < f.totalMass →
        (∃ k ∈ f.searchTree, k.fee ≠ 0) ∧ ((∀ k ∈ f.searchTree, k.fee ≠ 0) ∨
            ¬ Exhaustible (desiredMass policy.maxBlockMass) (paying f.searchTree))) := by
  have ht : f.tree.Proper := ⟨f.tree_keys ▸ hids, f.tree_keys ▸ hmass⟩
  by_cases hall : f.totalMass ≤ policy.maxBlockMass
  · refine iff_of_true (fun d => ?_) fun hlt => absurd hall (UInt64.not_le.mpr hlt)
    refine builds_of_done d (offers_of_perm hids ?_) fun us => if_pos hall
    exact .of_eq (congrArg _ f.tree_keys)
  have hmax : policy.maxBlockMass < f.totalMass := UInt64.not_le.mp hall
  by_cases hmany : policy.maxBlockMass * 4 < f.totalMass
  swap
  · refine iff_of_true (fun d => ?_) fun _ hlt => absurd hlt hmany
    refine builds_of_done d (offers_of_perm hids ?_) fun us => (if_neg hall).trans (if_neg hmany)
    rw [← f.tree_keys]
    exact RebalancingWeightedTransactionSelector.transactions_perm _ _
  · have hbuild : ∀ us : List K, f.buildSelector desiredMass policy us =
        (sampleInplace f.tree (desiredMass policy.maxBlockMass) us).map fun input =>
          .sequence (.new input policy) := fun us => (if_neg hall).trans (if_pos hmany)
    have hcond : ((∃ k ∈ f.searchTree, k.fee ≠ 0) ∧ ((∀ k ∈ f.searchTree, k.fee ≠ 0) ∨
          ¬ Exhaustible (desiredMass policy.maxBlockMass) (paying f.searchTree))) ↔
        ¬ ((∀ k ∈ f.tree.ascendingIter, k.fee = 0) ∨
        Exhausted f.tree (desiredMass policy.maxBlockMass)) := by
      have hsome : (∃ k ∈ f.searchTree, k.fee ≠ 0) ↔ ¬ ∀ k ∈ f.searchTree, k.fee = 0 := by
        push Not; rfl
      have hevery : (∀ k ∈ f.searchTree, k.fee ≠ 0) ↔ ¬ ∃ k ∈ f.searchTree, k.fee = 0 := by
        push Not; rfl
      rw [Exhausted, f.tree_keys, hsome, hevery, not_or, not_and_or]
    rw [imp_iff_right hmax, imp_iff_right hmany, hcond]
    constructor
    · intro h hbad
      obtain ⟨us, hus, hpanic⟩ := (sampleInplace_panics_iff (K := K) ht).mpr hbad
      obtain ⟨d, n, rfl⟩ := exists_take hus
      exact (h d).1 n (by rw [hbuild, hpanic]; rfl)
    · intro hgood d
      refine ⟨fun n hp => ?_, fun hd => ?_, fun n s hs => ?_⟩
      · rw [hbuild] at hp
        refine hgood ((sampleInplace_panics_iff ht).mp ⟨d.take n, fun u hu => mem_take hu, ?_⟩)
        exact Drawing.map_eq_panicked hp
      · obtain ⟨hfee, hne⟩ := not_or.mp hgood
        push Not at hfee
        obtain ⟨n, input, hn⟩ := sampleInplace_fair ht hfee hne hd
        exact ⟨n, _, by rw [hbuild, hn]; rfl⟩
      · rw [hbuild] at hs
        obtain ⟨input, hinput, rfl⟩ := Drawing.map_eq_done hs
        exact offers_of_held (sampleInplace_held ht (fun u hu => mem_take hu) hinput)

end IndexedFrontier

end Build

/-! ## 3. Frontiers that can be sampled -/

/-- There are fair draws: every number below 1 comes again and again. -/
theorem Draws.exists_fair : ∃ d : Draws Rat, d.Fair := by
  obtain ⟨place⟩ : Nonempty (Rat × Nat ≃ Nat) := ⟨Denumerable.eqv _⟩
  obtain ⟨clamp, hclamp, hsame⟩ : ∃ clamp : Rat → Rat, (∀ q, 0 ≤ clamp q ∧ clamp q < 1) ∧
      ∀ q, 0 ≤ q → q < 1 → clamp q = q := by
    refine ⟨fun q => if 0 ≤ q ∧ q < 1 then q else 0, fun q => ?_, fun q h0 h1 => if_pos ⟨h0, h1⟩⟩
    dsimp only
    split
    · assumption
    · exact ⟨le_rfl, zero_lt_one⟩
  refine ⟨⟨fun i => clamp (place.symm i).1, fun i => (hclamp _).1, fun i => (hclamp _).2⟩,
    fun a b ha hab hb n => ?_⟩
  have hinj : Function.Injective fun j : Nat => place (a, j) :=
    fun i j h => (Prod.mk.inj (place.injective h)).2
  obtain ⟨m, ⟨j, rfl⟩, hm⟩ := (Set.infinite_range_of_injective hinj).exists_gt n
  have hdraw : clamp (place.symm (place (a, j))).1 = a := by
    rw [Equiv.symm_apply_apply]
    exact hsame a ha (hab.trans_le hb)
  exact ⟨_, hm.le, hdraw.ge, hdraw.trans_lt hab⟩

def Frontier.leaf {fl : Floats}
    (f : Frontier) (h : f.searchTree.Pairwise fun a b => a.cmp fl b = .lt) :
    IndexedFrontier fl := { f with tree := ⟨0, f.searchTree, h⟩, tree_keys := rfl }

def frontierOf (txs : List MempoolTransaction) : Frontier :=
  txs.foldl (fun f t => f.insert exact (.ofTransaction t)) .new

/-- A pooled DID operation with the greatest standard mass. -/
def pooledDid (b : UInt8) : MempoolTransaction := ⟨{ MutableTransaction.fromTx (didOperation b) with
      calculatedNonContextualMasses := some ⟨100000, 100000⟩ }, .low, 0⟩

def pooledFlash (salt : UInt8) : MempoolTransaction :=
  ⟨populateFlashTxFields (.fromTx (toyFlash 5 1000 salt)), .low, 0⟩

def didFrontier : Frontier := frontierOf ((List.range 21).map fun i => pooledDid (UInt8.ofNat i))

def flashFrontier : Frontier := frontierOf ((List.range 5).map fun i => pooledFlash (UInt8.ofNat i))

theorem didFrontier_ordered :
    didFrontier.searchTree.Pairwise fun a b => a.cmp exact b = .lt := by decide

theorem flashFrontier_ordered :
    flashFrontier.searchTree.Pairwise fun a b => a.cmp exact b = .lt := by decide +kernel

namespace IndexedFrontier

/-- **DID operations alone crash the template** once they weigh more than a few blocks. -/
theorem didFrontier_panics :
    (didFrontier.leaf didFrontier_ordered).buildSelector (fun m => m * 6 / 5)
    ⟨500000⟩ ([] : List Rat) = .panicked := by
  refine (if_neg (by decide)).trans ((if_pos (by decide)).trans ?_)
  rw [sampleInplace_of_no_fee ⟨by decide, by decide⟩ (by decide)]
  rfl

theorem flashFrontier_builds : flashFrontier.totalMass > 1000 * 4 ∧ ∃ d : Draws Rat, d.Fair ∧
      (flashFrontier.leaf flashFrontier_ordered).Builds (fun m => m * 6 / 5) ⟨1000⟩ d := by
  obtain ⟨d, hd⟩ := exists_fair
  refine ⟨by decide +kernel, d, hd, ?_⟩
  exact (buildSelector_returns_iff (flashFrontier.leaf flashFrontier_ordered) (fun m => m * 6 / 5)
    ⟨1000⟩ (by decide +kernel) (by decide +kernel)).mpr
    (fun _ _ => ⟨by decide +kernel, .inl (by decide +kernel)⟩) d

end IndexedFrontier

end Sahyadri.Mining
