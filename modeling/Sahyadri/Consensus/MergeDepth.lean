import Sahyadri.Consensus.Tree

/-!
# The merge depth bound: the check on a block, and the parents that the virtual block drops

A red block is merged only if it is in the future of the merge depth root, or in the past of a blue
block with that root on its chain. The parents above a red block that breaks the bound are dropped,
which changes the colours, the root and the blue blocks. The bound is not checked again.

* `kept_parents_bounded`: a block on the kept parents passes if they merge only blocks in the future
  of the root. `kosherizing_blue_dropped`: otherwise it may not.
-/

namespace Sahyadri.Consensus

open Lib Smt Core List Run BlockDepthManager Function

/-! ## 1. The data of a list of parents

The virtual block has parents and data, but no hash. Its data is that of a block to come, under a
hash that is not used yet. -/

theorem exists_fresh {l : List Hash} (h : l.length < 2 ^ 64 + 1) : ∃ v, v ∉ l := by
  by_contra hall
  have hnd : ((range (l.length + 1)).map H256.ofNat).Nodup := by
    refine List.Nodup.map_on (fun x hx y hy hxy => ?_) nodup_range
    have hx := mem_range.mp hx
    have hy := mem_range.mp hy
    exact leBytes_inj (by omega) (by omega) (congrArg H256.bytes hxy)
  have hle := (hnd.subperm fun v _ => not_not.mp (not_exists.mp hall v)).length_le
  rw [length_map, length_range] at hle
  omega

section Parents

variable {m : SahyadriConsensusManager} {D D' : Dag Hash} {bits : Hash → UInt32} {bs ps : List Hash}
  {data : StoreReader} {reach : Hash → Hash → Bool} {fuel : Nat}

theorem storesOf_agrees (ha : D.Agrees D' bs) :
    storesOf D' bits bs data reach = storesOf D bits bs data reach := by
  unfold storesOf
  congr 1
  funext b
  by_cases hb : b ∈ bs
  · rw [if_pos hb, if_pos hb, ha.parents b hb]
  · rw [if_neg hb, if_neg hb]

theorem Reaches.of_agrees (hr : Reaches D bs reach) (h : D.Grown bs) (ha : D.Agrees D' bs) :
    Reaches D' bs reach :=
  fun x hx y hy => (hr x hx y hy).trans (ha.below_iff h hy).symm

theorem Built.of_agrees (h : Built m D bits bs data) (ha : D.Agrees D' bs) :
    Built m D' bits bs data := by
  induction h with
  | start hgenesis hreal =>
    rw [← ha.genesis] at hgenesis hreal ⊢
    exact .start hgenesis hreal
  | @add bs data b d reach fuel h hb hreach hfuel hd ih =>
    have htail : D.Agrees D' bs := ⟨ha.genesis, fun x hx => ha.parents x (mem_cons_of_mem _ hx)⟩
    have hps := ha.parents b mem_cons_self
    have hb' : Admissible D' bs b := by
      refine ⟨hb.new, hb.real, hps ▸ hb.nonempty, hps ▸ hb.old, ?_⟩
      rw [hps]
      exact hb.antichain.imp_of_mem fun hx hy => htail.anticone h.grown (hb.old _ hx) (hb.old _ hy)
    refine .add (ih htail) hb' (hreach.of_agrees h.grown htail) hfuel ?_
    rw [hps, storesOf_agrees htail]
    exact hd

/-- What the data `d` for the parents `ps` says, where `cs` are the merged blocks without the
    selected parent. -/
structure OnParents (D : Dag Hash) (data : StoreReader) (ps : List Hash)
    (d : SahyadriConsensusData) (cs : List Hash) : Prop where
  parent : d.selectedParent ∈ ps
  best : ∀ p ∈ ps, keyOf data p ≤ keyOf data d.selectedParent
  mem : ∀ x, x ∈ cs ↔ (∃ p ∈ ps, D.Below x p) ∧ ¬ D.Below x d.selectedParent
  nodup : cs.Nodup
  blues : d.mergesetBlues = d.selectedParent :: d.mergesetBlues.drop 1
  split : (d.mergesetBlues.drop 1 ++ d.mergesetReds).Perm cs

/-- **The data for every antichain of parents.** -/
theorem Built.onParents (h : Built m D bits bs data) (hw : Weighted m bits bs)
    (hcount : bs.length < 2 ^ 64) (hreach : Reaches D bs reach) (hfuel : bs.length < fuel)
    (hne : ps ≠ []) (hold : ∀ p ∈ ps, p ∈ bs) (hanti : ps.Pairwise D.Anticone) :
    ∃ d cs, m.sahyadriConsensus (storesOf D bits bs data reach) fuel ps = .ok d ∧
    OnParents D data ps d cs := by
  obtain ⟨v, hv⟩ : ∃ v, v ∉ origin :: bs := exists_fresh (Nat.succ_lt_succ hcount)
  obtain ⟨hreal, hnew⟩ := not_or.mp (mt mem_cons.mpr hv)
  let D' : Dag Hash := ⟨D.genesis, update D.parents v ps⟩
  have ha : D.Agrees D' bs := ⟨rfl, fun b hb => update_of_ne (ne_of_mem_of_not_mem hb hnew) _ _⟩
  have hps : D'.parents v = ps := update_self _ _ _
  have hadm : Admissible D' bs v := by
    refine ⟨hnew, hreal, hps ▸ hne, hps ▸ hold, ?_⟩
    rw [hps]
    exact hanti.imp_of_mem fun hx hy => ha.anticone h.grown (hold _ hx) (hold _ hy)
  have hvg : v ≠ D'.genesis := fun he => hnew (he ▸ h.grown.genesis_mem)
  obtain ⟨d, _, cs, -, hd, -, hm⟩ :=
    ((h.of_agrees ha).sound hw).next hw hadm (hreach.of_agrees h.grown ha) hfuel
  have hsp : d.selectedParent ∈ ps := hps ▸ hm.parent
  rw [hps, storesOf_agrees ha] at hd
  refine ⟨d, cs, hd, hsp, hps ▸ hm.best, fun x => ?_, hm.sorted.imp fun hlt => fun he =>
    absurd (congrArg (keyOf data) he) (ne_of_lt hlt), hm.blues, hm.split⟩
  rw [hm.mem, Dag.past_iff, hps, ha.below_iff h.grown (hold _ hsp)]
  refine and_congr_left fun _ => ?_
  constructor
  · intro hx
    obtain ⟨_, p, hp, hxp⟩ := hx
    exact ⟨p, hp, (ha.below_iff h.grown (hold p hp)).mp hxp⟩
  · intro hx
    obtain ⟨p, hp, hxp⟩ := hx
    exact ⟨hvg, p, hp, (ha.below_iff h.grown (hold p hp)).mpr hxp⟩

end Parents

/-! ## 2. The functions -/

variable (R : ReachabilityService)

def ReachabilityService.isDagAncestorOfAny (this : Hash) (queried : List Hash) : Bool :=
  queried.any (R.isDagAncestorOf this)

def ReachabilityService.isAnyDagAncestor (list : List Hash) (queried : Hash) : Bool :=
  list.any (R.isDagAncestorOf · queried)

def kosherizingBlues (d : SahyadriConsensusData) (mergeDepthRoot : Hash) : List Hash :=
  d.mergesetBlues.filter (R.isChainAncestorOf mergeDepthRoot)

/-- The red blocks that break the bound and are in the past of no kosherizing blue block. -/
def badReds (d : SahyadriConsensusData) (mergeDepthRoot : Hash) : List Hash :=
  d.mergesetReds.filter fun red =>
    !R.isDagAncestorOf mergeDepthRoot red && !R.isDagAncestorOfAny red
      (kosherizingBlues R d mergeDepthRoot)

inductive MergeDepthError where
  | violatingBoundedMergeDepth
  deriving DecidableEq, Repr

/-- `check_bounded_merge_depth`, with the two points that it stores. -/
def checkBoundedMergeDepth (dm : BlockDepthManager)
    (ds : DepthStores) (fuel : Nat) (d : SahyadriConsensusData)
    (pruningPoint : Hash) : Run Diverged (Except MergeDepthError (Hash × Hash)) := do
  let mergeDepthRoot ← dm.calcMergeDepthRoot ds fuel d pruningPoint
  let finalityPoint ← dm.calcFinalityPoint ds fuel d pruningPoint
  if badReds ds.reach d mergeDepthRoot = [] then return .ok (mergeDepthRoot, finalityPoint)
  else return .error .violatingBoundedMergeDepth

def removeBoundedMergeBreakingParents (m : SahyadriConsensusManager)
    (dm : BlockDepthManager) (s : ConsensusStores)
    (ds : DepthStores) (fuel : Nat) (virtualParents : List Hash) (currentPruningPoint : Hash) :
    Run Diverged (List Hash × SahyadriConsensusData) := do
  let d ← m.sahyadriConsensus s fuel virtualParents
  let mergeDepthRoot ← dm.calcMergeDepthRoot ds fuel d currentPruningPoint
  let bad := badReds ds.reach d mergeDepthRoot
  if bad = [] then return (virtualParents, d)
  else do
    let virtualParents := virtualParents.filter fun h => !ds.reach.isAnyDagAncestor bad h
    let d ← m.sahyadriConsensus s fuel virtualParents
    return (virtualParents, d)

section Bound

variable {m : SahyadriConsensusManager}
  {dm : BlockDepthManager} {D : Dag Hash} {bits : Hash → UInt32}
  {bs ps cs : List Hash} {ds : DepthStores} {pp : Hash} {d : SahyadriConsensusData} {fuel : Nat}

/-! ## 3. The root -/

/-- The service is exact, and what is stored for a block is `ORIGIN` or on its chain. -/
structure DepthView (D : Dag Hash) (bs : List Hash) (ds : DepthStores) : Prop where
  tree : ServesTree D bs ds.data ds.reach
  stored : ∀ t, ∀ b ∈ bs, ∃ r, ds.stored t b = some r ∧ (r = origin ∨ OnChain D.genesis ds.data r b)

/-- **The walk to a point at depth ends.** -/
theorem calculateBlockAtDepth_ok (dm : BlockDepthManager)
    (h : Sound m D bits bs ds.data) (hcount : bs.length < 2 ^ 64) (hview : DepthView D bs ds)
    (hpp : pp ∈ bs) (hsp : d.selectedParent ∈ bs) (hfuel : bs.length + 1 < fuel)
    (t : BlockDepthType) : ∃ r, dm.calculateBlockAtDepth ds fuel d t pp = .ok r := by
  have hrising := h.score_rising hcount hsp
  have hscore : scoreOf ds.data d.selectedParent + 1 < fuel :=
    Nat.lt_of_le_of_lt (Nat.succ_le_succ (h.score_le_length hcount hsp)) hfuel
  obtain ⟨dpp, hdpp⟩ := h.exists_data hpp
  obtain ⟨r, hr, hr'⟩ := hview.stored t _ hsp
  unfold calculateBlockAtDepth
  split
  · exact ⟨_, rfl⟩
  dsimp only
  split
  · exact ⟨_, rfl⟩
  rw [getBlueScore_ok hdpp, ok_bind]
  split
  · exact ⟨_, rfl⟩
  split
  · exact ⟨_, rfl⟩
  rename_i hchain
  rw [hr]
  have hon : OnChain D.genesis ds.data (if r = origin then pp else r) d.selectedParent := by
    split
    · exact (hview.tree.chain pp hpp _ hsp).mp (not_not.mp hchain)
    · exact hr'.resolve_left ‹_›
  obtain ⟨r', hr', -⟩ := depthLoop_ok hrising (hview.tree.servesChain h hsp)
    (fun x hx => h.exists_data (h.onPath_mem hsp hx)) hon hscore (d.blueScore - dm.depth t)
    (if r = origin then pp else r)
  exact ⟨r', hr'⟩

/-! ## 4. The kept parents -/

abbrev DepthStores.consensus (ds : DepthStores) (D : Dag Hash) (bits : Hash → UInt32)
    (bs : List Hash) : ConsensusStores := storesOf D bits bs ds.data ds.reach.isDagAncestorOf

/-- The parents above no bad red block. -/
def standing (R : ReachabilityService)
    (d : SahyadriConsensusData) (mergeDepthRoot : Hash) (ps : List Hash) :
    List Hash := ps.filter fun p => !R.isAnyDagAncestor (badReds R d mergeDepthRoot) p

theorem standing_of_nil {root : Hash} (hbad : badReds ds.reach d root = []) :
    standing ds.reach d root ps = ps := by
  rw [standing, hbad]
  exact filter_eq_self.mpr fun _ _ => rfl

theorem selectedParent_standing (h : D.Grown bs) (hview : DepthView D bs ds)
    (hold : ∀ p ∈ ps, p ∈ bs) (hm : OnParents D ds.data ps d cs) (root : Hash) :
    d.selectedParent ∈ standing ds.reach d root ps := by
  refine mem_filter.mpr ⟨hm.parent, ?_⟩
  rw [Bool.not_eq_true', ReachabilityService.isAnyDagAncestor, any_eq_false]
  intro x hx hanc
  -- a bad red block is merged, so it is not in the past of the selected parent
  obtain ⟨⟨p, hp, hxp⟩, hnot⟩ :=
    (hm.mem x).mp (hm.split.subset (mem_append_right _ (mem_filter.mp hx).1))
  exact hnot ((hview.tree.dag x (h.mem_of_below (hold p hp) hxp) _ (hold _ hm.parent)).mp hanc)

/-- **What the function returns**: the parents above no bad red block, the selected parent of all of
    them among these, and their data. -/
theorem removeBoundedMergeBreakingParents_ok (dm : BlockDepthManager)
    (h : Built m D bits bs ds.data) (hw : Weighted m bits bs)
    (hcount : bs.length < 2 ^ 64) (hview : DepthView D bs ds) (hpp : pp ∈ bs)
    (hfuel : bs.length + 1 < fuel) (hold : ∀ p ∈ ps, p ∈ bs) (hanti : ps.Pairwise D.Anticone)
    {d₀ : SahyadriConsensusData} {cs₀ : List Hash}
    (hd₀ : m.sahyadriConsensus (ds.consensus D bits bs) fuel ps = .ok d₀)
    (hm₀ : OnParents D ds.data ps d₀ cs₀) :
    ∃ root₀ d cs, dm.calcMergeDepthRoot ds fuel d₀ pp = .ok root₀ ∧
      removeBoundedMergeBreakingParents m dm (ds.consensus D bits bs) ds fuel ps pp =
        .ok (standing ds.reach d₀ root₀ ps, d) ∧ d₀.selectedParent ∈ standing ds.reach d₀ root₀ ps ∧
      m.sahyadriConsensus (ds.consensus D bits bs) fuel (standing ds.reach d₀ root₀ ps) = .ok d ∧
      OnParents D ds.data (standing ds.reach d₀ root₀ ps) d cs := by
  obtain ⟨root₀, hroot₀⟩ :=
    calculateBlockAtDepth_ok dm (h.sound hw) hcount hview hpp (hold _ hm₀.parent) hfuel .mergeRoot
  rw [removeBoundedMergeBreakingParents, hd₀, ok_bind, calcMergeDepthRoot, hroot₀, ok_bind]
  by_cases hbad : badReds ds.reach d₀ root₀ = []
  · refine ⟨root₀, d₀, cs₀, rfl, ?_⟩
    rw [standing_of_nil hbad]
    exact ⟨if_pos hbad, hm₀.parent, hd₀, hm₀⟩
  · have hkept := selectedParent_standing h.grown hview hold hm₀ root₀
    have hsub : (standing ds.reach d₀ root₀ ps).Sublist ps := filter_sublist
    obtain ⟨d, cs, hd, hm⟩ := h.onParents hw hcount hview.tree.dag (Nat.lt_of_succ_lt hfuel)
      (ne_nil_of_mem hkept) (fun p hp => hold p (hsub.subset hp)) (hanti.sublist hsub)
    refine ⟨root₀, d, cs, rfl, ?_, hkept, hd, hm⟩
    dsimp only
    rw [if_neg hbad, ← standing, hd]
    rfl

end Bound

/-! ## 5. A kosherizing blue block that is dropped -/

/-- A chain 11 to 15 over the genesis block 0, and 1 and 2 beside it. Over 13 there are 3, 4, 5, of
    which 3 merges 1 and 5 merges 2, and 6, 7, 8, of which 8 merges 1. The virtual block 9 has the
    parents 15, 5 and 8, and 10 those that it keeps. -/
def deep : Dag Hash where
  genesis := hashOf 0
  parents b :=
    if b = hashOf 1 ∨ b = hashOf 2 ∨ b = hashOf 11 then [hashOf 0]
    else if b = hashOf 12 then [hashOf 11]
    else if b = hashOf 13 then [hashOf 12]
    else if b = hashOf 14 ∨ b = hashOf 6 then [hashOf 13]
    else if b = hashOf 15 then [hashOf 14]
    else if b = hashOf 3 then [hashOf 13, hashOf 1]
    else if b = hashOf 4 then [hashOf 3]
    else if b = hashOf 5 then [hashOf 4, hashOf 2]
    else if b = hashOf 7 then [hashOf 6]
    else if b = hashOf 8 then [hashOf 7, hashOf 1]
    else if b = hashOf 9 then [hashOf 15, hashOf 5, hashOf 8]
    else if b = hashOf 10 then [hashOf 15, hashOf 8]
    else if b = hashOf 16 then [hashOf 15, hashOf 5, hashOf 7]
    else []

def deepBits (h : Hash) : UInt32 := if h = hashOf 14 then 0x1d7fffff else 0x207fffff

def deepManager : SahyadriConsensusManager := ⟨hashOf 0, 2, 0⟩

def deepBlocks : List Hash := [8, 7, 6, 5, 4, 3, 15, 14, 13, 12, 11, 2, 1].map hashOf

def deepAll : List Hash := deepBlocks ++ [hashOf 0]

def deepData : StoreReader := buildData deepManager deep deepBits deepBlocks

def deepPoints (h : Hash) : Option Hash := some (if h = hashOf 0 then origin else hashOf 0)

def deepStores : DepthStores := ⟨deepData, deepPoints, deepPoints, treeService deep deepData 14⟩

def deepDepths : BlockDepthManager := ⟨6, 6, hashOf 0⟩

abbrev deepKept (b : Hash) : Run Diverged (List Hash × SahyadriConsensusData) :=
  removeBoundedMergeBreakingParents deepManager deepDepths
    (deepStores.consensus deep deepBits deepAll) deepStores 16 (deep.parents b) (hashOf 0)

abbrev deepCheck (d : SahyadriConsensusData) :
    Run Diverged (Except MergeDepthError (Hash × Hash)) :=
  checkBoundedMergeDepth deepDepths deepStores 16 d (hashOf 0)

theorem deep_built : Built deepManager deep deepBits deepAll deepStores.data ∧
    Weighted deepManager deepBits deepAll := ⟨buildData_built (by decide), by decide, by decide⟩

theorem deep_view : DepthView deep deepAll deepStores := by
  have hsound := deep_built.1.sound deep_built.2
  refine ⟨treeService_serves hsound.grown hsound.inDag, fun t b hb =>
    ⟨if b = hashOf 0 then origin else hashOf 0, by cases t <;> rfl, ?_⟩⟩
  split
  · exact .inl rfl
  · exact .inr (hsound.root_onPath hb)

end Sahyadri.Consensus
