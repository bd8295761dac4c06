import Sahyadri.Consensus.Chain

/-!
# `BlockDepthManager`: the merge depth root and the finality point of a block

The point of a block is found by walking up its selected chain from the point stored for its
selected parent. What is stored there depends on the pruning point of that time: it is the genesis
block near the genesis block, `ORIGIN` near the pruning point, and a chain block otherwise.

* `calculateBlockAtDepth_highest`: above the pruning point the walk ends at the highest chain block
  below the required blue score.
-/

namespace Sahyadri.Consensus

open Lib Smt Core Option ReachabilityService

/-! ## 1. The manager -/

inductive BlockDepthType where
  | mergeRoot
  | finality
  deriving DecidableEq, Repr

structure BlockDepthManager where
  mergeDepth : UInt64
  finalityDepth : UInt64
  genesisHash : Hash

structure DepthStores where
  data : StoreReader
  mergeDepthRoot : Hash → Option Hash
  finalityPoint : Hash → Option Hash
  reach : ReachabilityService

def DepthStores.getBlueScore {ε : Type} (s : DepthStores) (h : Hash) : Run ε UInt64 :=
  match s.data h with
  | none => .panicked
  | some d => .ok d.blueScore

def DepthStores.stored (s : DepthStores) : BlockDepthType → Hash → Option Hash
  | .mergeRoot => s.mergeDepthRoot
  | .finality => s.finalityPoint

/-- The loop of `calculate_block_at_depth` over the chain. -/
def depthLoop (s : DepthStores) (requiredBlueScore : UInt64) :
    Nat → ChainIterator → Hash → Run Diverged Hash
  | 0, _, _ => .fail .outOfSteps
  | fuel + 1, it, current => do
    match ← s.reach.forwardNext it with
    | (none, _) => return current
    | (some chainBlock, it) => do
      if (← s.getBlueScore chainBlock) ≥ requiredBlueScore then return current
      else depthLoop s requiredBlueScore fuel it chainBlock

namespace BlockDepthManager

variable (m : BlockDepthManager) (s : DepthStores)

def depth : BlockDepthType → UInt64
  | .mergeRoot => m.mergeDepth
  | .finality => m.finalityDepth

def calculateBlockAtDepth (fuel : Nat) (d : SahyadriConsensusData) (depthType : BlockDepthType)
    (pruningPoint : Hash) : Run Diverged Hash :=
  if d.selectedParent = origin then .ok origin
  else
    let depth := m.depth depthType
    if d.blueScore < depth then .ok m.genesisHash
    else do
      let ppBs ← s.getBlueScore pruningPoint
      if d.blueScore < ppBs + depth then return origin
      else if ¬ s.reach.isChainAncestorOf pruningPoint d.selectedParent then return origin
      else
        match s.stored depthType d.selectedParent with
        | none => .panicked
        | some current =>
          let current := if current = origin then pruningPoint else current
          let requiredBlueScore := d.blueScore - depth
          depthLoop s requiredBlueScore fuel
            (forwardChainIterator current d.selectedParent true) current

def calcMergeDepthRoot (fuel : Nat) (d : SahyadriConsensusData) (pruningPoint : Hash) :
    Run Diverged Hash :=
  m.calculateBlockAtDepth s fuel d .mergeRoot pruningPoint

def calcFinalityPoint (fuel : Nat) (d : SahyadriConsensusData) (pruningPoint : Hash) :
    Run Diverged Hash :=
  m.calculateBlockAtDepth s fuel d .finality pruningPoint

end BlockDepthManager

/-! ## 2. The walk -/

def blueScoreOf (data : StoreReader) (h : Hash) : UInt64 := ((data h).map (·.blueScore)).getD 0

def scoreOf (data : StoreReader) (h : Hash) : Nat := (blueScoreOf data h).toNat

theorem scoreOf_eq {data : StoreReader} {h : Hash} {d : SahyadriConsensusData}
    (hd : data h = some d) : scoreOf data h = d.blueScore.toNat := by
  rw [scoreOf, blueScoreOf, hd]
  rfl

section Walk

variable {par : Hash → Option Hash} {s : DepthStores} {a p : Hash} {l : List Hash}
  {required : UInt64} {fuel : Nat}

theorem getBlueScore_ok {ε : Type} {h : Hash} {d : SahyadriConsensusData} (hd : s.data h = some d) :
    (s.getBlueScore h : Run ε UInt64) = .ok (blueScoreOf s.data h) := by
  rw [DepthStores.getBlueScore, blueScoreOf, hd]
  rfl

theorem depthLoop_eq : ∀ {it : ChainIterator} {l : List Hash} (current : Hash),
    Yields s.reach.forwardNext it l → (∀ x ∈ l, ∃ d, s.data x = some d) → l.length < fuel →
    depthLoop s required fuel it current =
      .ok (lastWhile (fun x => blueScoreOf s.data x < required) current l) := by
  induction fuel with
  | zero => exact fun _ _ _ h => absurd h (Nat.not_lt_zero _)
  | succ fuel ih =>
    intro it l current hl hdata hlen
    cases l with
    | nil =>
      obtain ⟨it', hnext⟩ := hl
      rw [depthLoop, hnext]
      rfl
    | cons x l =>
      obtain ⟨it', hnext, hl⟩ := hl
      obtain ⟨⟨d, hd⟩, hdata⟩ := List.forall_mem_cons.mp hdata
      rw [depthLoop, hnext, Run.ok_bind]
      dsimp only
      rw [getBlueScore_ok hd, Run.ok_bind, lastWhile]
      by_cases hx : blueScoreOf s.data x < required
      · rw [if_pos hx, if_neg (UInt64.not_le.mpr hx)]
        exact ih x hl hdata (Nat.lt_of_succ_lt_succ hlen)
      · rw [if_neg hx, if_pos (UInt64.not_lt.mp hx)]
        rfl

/-- **The walk up a chain** that starts below the required blue score ends at the highest block that
    is. -/
theorem depthLoop_ok (hp : Rising par (scoreOf s.data) p) (hserves : ServesChain par s.reach p)
    (hdata : ∀ x, OnPath par x p → ∃ d, s.data x = some d) (ha : OnPath par a p)
    (hfuel : scoreOf s.data p + 1 < fuel) (required : UInt64) (current : Hash) :
    ∃ r, depthLoop s required fuel (forwardChainIterator a p true) current = .ok r ∧
      (¬ blueScoreOf s.data a < required → r = current) ∧ (blueScoreOf s.data a < required →
        Highest par (fun x => blueScoreOf s.data x < required) p r) := by
  obtain ⟨l, hl⟩ := ha.climb
  have hlen := hl.length_le hp
  refine ⟨_, depthLoop_eq current (forward_yields hp hserves hl)
    (fun x hx => hdata x (hl.mem_onPath hx)) (by omega), hl.lastWhile_spec
    (P := fun x => blueScoreOf s.data x < required) hp (fun x y hy hxy hlt => ?_) current⟩
  exact lt_of_le_of_lt ((hp.of_onPath hy).le hxy) hlt

end Walk

/-! ## 3. Stored points -/

/-- The selected chain of `b` goes down to the genesis block, with blue scores that grow upwards. -/
structure SelectedLine (genesis : Hash) (data : StoreReader) (b : Hash) : Prop where
  root : OnChain genesis data genesis b
  known : ∀ x, OnChain genesis data x b → ∃ d, data x = some d
  real : ∀ x, OnChain genesis data x b → x ≠ origin
  first : ∀ d, data genesis = some d → d.selectedParent = origin
  rising : Rising (chainParent genesis data) (scoreOf data) b

section Points

variable {m : BlockDepthManager} {s : DepthStores} {t : BlockDepthType} {b p v pp : Hash}
  {d : SahyadriConsensusData} {fuel : Nat}

theorem SelectedLine.of_onPath {genesis x : Hash} {data : StoreReader}
    (h : SelectedLine genesis data b) (hx : OnChain genesis data x b) :
    SelectedLine genesis data x := by
  refine ⟨?_, fun y hy => h.known y (hy.trans hx), fun y hy => h.real y (hy.trans hx), h.first,
    h.rising.of_onPath hx⟩
  rcases h.root.total hx with hroot | hroot
  · exact hroot
  · rcases onPath_iff.mp hroot with rfl | ⟨q, hq, _⟩
    · exact .refl _
    · rw [chainParent_genesis] at hq
      cases hq

/-- The point stored for `x`: none yet, a chain block that is deep enough, or the genesis block
    while `x` is not deep enough. -/
def Stored (m : BlockDepthManager) (data : StoreReader) (t : BlockDepthType)
    (x v : Hash) : Prop :=
  v = origin ∨
    (OnChain m.genesisHash data v x ∧ scoreOf data v + (m.depth t).toNat ≤ scoreOf data x) ∨
    (v = m.genesisHash ∧ scoreOf data x < (m.depth t).toNat)

theorem Stored.start (hline : SelectedLine m.genesisHash s.data b)
    (hparent : chainParent m.genesisHash s.data b = some p)
    (hpp : OnChain m.genesisHash s.data pp p)
    (hdeep : scoreOf s.data pp + (m.depth t).toNat ≤ scoreOf s.data b)
    (hv : Stored m s.data t p v) : OnChain m.genesisHash s.data (if v = origin then pp else v) p ∧
      scoreOf s.data (if v = origin then pp else v) + (m.depth t).toNat ≤ scoreOf s.data b ∧
      (scoreOf s.data pp + (m.depth t).toNat < scoreOf s.data b →
        scoreOf s.data (if v = origin then pp else v) + (m.depth t).toNat < scoreOf s.data b) := by
  have hp := hline.of_onPath (onPath_parent hparent)
  have hlt := hline.rising b p (.refl b) hparent
  split
  · exact ⟨hpp, hdeep, id⟩
  · rcases hv with hv | ⟨hv, hle⟩ | ⟨rfl, hlow⟩
    · contradiction
    · exact ⟨hv, by omega, fun _ => by omega⟩
    · have hle := (hp.of_onPath hpp).rising.le (hp.of_onPath hpp).root
      exact ⟨hp.root, by omega, fun _ => by omega⟩

/-- **A call for a block over its selected parent**: the genesis block, nothing, or the end of a
    walk from a block that is deep enough. -/
theorem calculateBlockAtDepth_cases (hline : SelectedLine m.genesisHash s.data b)
    (hd : s.data b = some d)
    (hne : b ≠ m.genesisHash) (hserves : ServesChain (chainParent m.genesisHash s.data) s.reach b)
    (hpp : OnChain m.genesisHash s.data pp b) (hov : scoreOf s.data pp + (m.depth t).toNat < 2 ^ 64)
    (hv : s.stored t d.selectedParent = some v) (hstored : Stored m s.data t d.selectedParent v)
    (hfuel : scoreOf s.data b + 1 < fuel) : (scoreOf s.data b < (m.depth t).toNat ∧
      m.calculateBlockAtDepth s fuel d t pp = .ok m.genesisHash) ∨
    ((scoreOf s.data b < scoreOf s.data pp + (m.depth t).toNat ∨ pp = b) ∧
      m.calculateBlockAtDepth s fuel d t pp = .ok origin) ∨
    ∃ r, m.calculateBlockAtDepth s fuel d t pp = .ok r ∧ OnChain m.genesisHash s.data r b ∧
      scoreOf s.data r + (m.depth t).toNat ≤ scoreOf s.data b ∧
      (scoreOf s.data pp + (m.depth t).toNat < scoreOf s.data b →
        Highest (chainParent m.genesisHash s.data)
          (fun x => scoreOf s.data x < scoreOf s.data b - (m.depth t).toNat) b r) := by
  have hparent := chainParent_eq hd hne
  have hpb := onPath_parent hparent
  have hp := hline.of_onPath hpb
  have hscore := scoreOf_eq hd
  obtain ⟨dpp, hdpp⟩ := hline.known pp hpp
  unfold BlockDepthManager.calculateBlockAtDepth
  rw [if_neg (hp.real _ (.refl _))]
  by_cases hlow : d.blueScore < m.depth t
  · exact .inl ⟨hscore ▸ hlow, if_pos hlow⟩
  rw [if_neg hlow, getBlueScore_ok hdpp, Run.ok_bind]
  have hadd : (blueScoreOf s.data pp + m.depth t).toNat =
      scoreOf s.data pp + (m.depth t).toNat := by
    exact Nat.mod_eq_of_lt hov
  by_cases hnear : d.blueScore < blueScoreOf s.data pp + m.depth t
  · refine .inr (.inl ⟨.inl ?_, if_pos hnear⟩)
    rw [← hadd, hscore]
    exact hnear
  have hdeep : scoreOf s.data pp + (m.depth t).toNat ≤ scoreOf s.data b := by
    rw [← hadd, hscore]
    exact Nat.le_of_not_lt hnear
  rw [if_neg hnear]
  by_cases hchain : s.reach.isChainAncestorOf pp d.selectedParent = true
  swap
  · refine .inr (.inl ⟨.inr ?_, if_pos hchain⟩)
    by_contra hpne
    exact hchain ((hserves.chain hpp hpb).mpr (hpp.parent_of_ne hpne hparent))
  rw [if_neg (not_not.mpr hchain), hv]
  dsimp only
  obtain ⟨hstart, hle, hlt⟩ := hstored.start hline hparent ((hserves.chain hpp hpb).mp hchain) hdeep
  generalize (if v = origin then pp else v) = a at hstart hle hlt
  have hreq : (d.blueScore - m.depth t).toNat = scoreOf s.data b - (m.depth t).toNat := by
    rw [UInt64.toNat_sub_of_le _ _ (UInt64.not_lt.mp hlow), hscore]
  have hpserves : ServesChain (chainParent m.genesisHash s.data) s.reach d.selectedParent :=
    ⟨fun hx hy => hserves.chain (hx.trans hpb) (hy.trans hpb),
    fun hy => hserves.next (hy.trans hpb)⟩
  have hpscore := hline.rising b _ (.refl b) hparent
  obtain ⟨r, hr, hstay, hhigh⟩ := depthLoop_ok hp.rising hpserves hp.known hstart
    (show scoreOf s.data d.selectedParent + 1 < fuel by omega) (d.blueScore - m.depth t) a
  refine .inr (.inr ⟨r, hr, ?_⟩)
  have hbelow : ∀ x, blueScoreOf s.data x < d.blueScore - m.depth t ↔
      scoreOf s.data x < scoreOf s.data b - (m.depth t).toNat := fun x => by
    rw [UInt64.lt_iff_toNat_lt, hreq]
    rfl
  by_cases ha : blueScoreOf s.data a < d.blueScore - m.depth t
  · have hr := hhigh ha
    have hrlt := (hbelow r).mp hr.holds
    refine ⟨hr.onPath.trans hpb, by
      omega, fun _ => ⟨hr.onPath.trans hpb, hrlt, fun x hx hxlt => ?_⟩⟩
    have hxb : x ≠ b := by
      rintro rfl
      omega
    exact hr.above x (hx.parent_of_ne hxb hparent) ((hbelow x).mpr hxlt)
  · rw [hstay ha]
    refine ⟨hstart.trans hpb, hle, fun hpplt => absurd ((hbelow a).mpr ?_) ha⟩
    omega

end Points

/-! ## 4. A chain of points -/

/-- The points stored along the chain of `b`, each from a call with the pruning point of its
    time. -/
structure DepthRun (m : BlockDepthManager) (s : DepthStores) (t : BlockDepthType) (pp : Hash → Hash)
    (b : Hash) : Prop where
  line : SelectedLine m.genesisHash s.data b
  serves : ServesChain (chainParent m.genesisHash s.data) s.reach b
  /-- The pruning points are on the chain. -/
  pruned : ∀ x, OnChain m.genesisHash s.data x b → OnChain m.genesisHash s.data (pp x) x
  /-- They do not move backwards. -/
  forwards : ∀ x p, OnChain m.genesisHash s.data x b →
    chainParent m.genesisHash s.data x = some p → OnChain m.genesisHash s.data (pp p) (pp x)
  stored : ∀ x, OnChain m.genesisHash s.data x b → x ≠ b →
    ∃ d v fuel, s.data x = some d ∧ scoreOf s.data x + 1 < fuel ∧
      m.calculateBlockAtDepth s fuel d t (pp x) = .ok v ∧ s.stored t x = some v

section Run

variable {m : BlockDepthManager} {s : DepthStores} {t : BlockDepthType} {pp : Hash → Hash}
  {b x : Hash}

section

variable (h : DepthRun m s t pp b)

include h

theorem DepthRun.of_onPath (hx : OnChain m.genesisHash s.data x b) :
    DepthRun m s t pp x where
  line := h.line.of_onPath hx
  serves :=
    ⟨fun hy hz => h.serves.chain (hy.trans hx) (hz.trans hx), fun hy => h.serves.next (hy.trans hx)⟩
  pruned y hy := h.pruned y (hy.trans hx)
  forwards y p hy := h.forwards y p (hy.trans hx)
  stored y hy hne := by
    refine h.stored y (hy.trans hx) ?_
    rintro rfl
    exact hne (h.line.rising.eq_of_rank (.refl y) hx
      (le_antisymm ((h.line.rising.of_onPath hx).le hy) (h.line.rising.le hx)))

theorem DepthRun.pruned_le (hx : OnChain m.genesisHash s.data x b) :
    OnChain m.genesisHash s.data (pp x) (pp b) := by
  obtain ⟨n, hn⟩ := hx
  induction n generalizing b with
  | zero =>
    cases hn
    exact .refl _
  | succ n ih =>
    obtain ⟨p, hp, hn⟩ := bind_eq_some_iff.mp hn
    exact (ih (h.of_onPath (onPath_parent hp)) hn).trans (h.forwards b p (.refl b) hp)

/-- **Every stored point is deep enough**, by induction along the chain. -/
theorem DepthRun.stored_of_lt (hov : scoreOf s.data (pp b) + (m.depth t).toNat < 2 ^ 64) :
    ∀ x, OnChain m.genesisHash s.data x b → x ≠ b →
      ∃ v, s.stored t x = some v ∧ Stored m s.data t x v := by
  intro x
  induction hn : scoreOf s.data x using Nat.strong_induction_on generalizing x with
  | _ n ih =>
    intro hx hne
    subst hn
    obtain ⟨d, v, fuel, hd, hfuel, hcalc, hv⟩ := h.stored x hx hne
    refine ⟨v, hv, ?_⟩
    by_cases hg : x = m.genesisHash
    · subst hg
      rw [BlockDepthManager.calculateBlockAtDepth, if_pos (h.line.first d hd)] at hcalc
      cases hcalc
      exact .inl rfl
    · have hparent := chainParent_eq hd hg
      have hpx := onPath_parent hparent
      have hlt := h.line.rising x _ hx hparent
      have hpb : d.selectedParent ≠ b := by
        intro he
        have := h.line.rising.le hx
        rw [he] at hlt
        omega
      obtain ⟨w, hw, hstored⟩ := ih _ hlt _ rfl (hpx.trans hx) hpb
      have hppov := ((h.line.of_onPath (h.pruned b (.refl b))).rising.le (h.pruned_le hx))
      obtain hx' := h.of_onPath hx
      rcases calculateBlockAtDepth_cases hx'.line hd hg hx'.serves (h.pruned x hx)
        (by omega) hw hstored hfuel with
        ⟨hlow, hr⟩ | ⟨_, hr⟩ | ⟨r, hr, hon, hdeep, _⟩
      · rw [hr] at hcalc
        cases hcalc
        exact .inr (.inr ⟨rfl, hlow⟩)
      · rw [hr] at hcalc
        cases hcalc
        exact .inl rfl
      · rw [hr] at hcalc
        cases hcalc
        exact .inr (.inl ⟨hon, hdeep⟩)

end

/-- **Depth points do not depend on where the search starts**, if the pruning point is deeper than
    the depth asked for. -/
theorem calculateBlockAtDepth_highest (h : DepthRun m s t pp b) {d : SahyadriConsensusData}
    (hd : s.data b = some d)
    (hdeep : scoreOf s.data (pp b) < scoreOf s.data b - (m.depth t).toNat) {fuel : Nat}
    (hfuel : scoreOf s.data b + 1 < fuel) : ∃ r, m.calculateBlockAtDepth s fuel d t (pp b) = .ok r ∧
      Highest (chainParent m.genesisHash s.data)
        (fun x => scoreOf s.data x < scoreOf s.data b - (m.depth t).toNat) b r := by
  have hov : scoreOf s.data (pp b) + (m.depth t).toNat < 2 ^ 64 := by
    have : scoreOf s.data b < 2 ^ 64 := UInt64.toNat_lt _
    omega
  have hppb : pp b ≠ b := by
    intro he
    rw [he] at hdeep
    omega
  have hg : b ≠ m.genesisHash := by
    rintro rfl
    rcases onPath_iff.mp (h.pruned _ (.refl _)) with he | ⟨q, hq, _⟩
    · exact hppb he
    · rw [chainParent_genesis] at hq
      cases hq
  have hparent := chainParent_eq hd hg
  obtain ⟨v, hv, hstored⟩ := h.stored_of_lt hov d.selectedParent (onPath_parent hparent)
    (h.line.rising.ne_of_parent hparent (.refl _))
  rcases calculateBlockAtDepth_cases h.line hd hg h.serves (h.pruned b (.refl b)) hov hv hstored
    hfuel with
    ⟨hlow, _⟩ | ⟨hnear | he, _⟩ | ⟨r, hr, _, _, hhigh⟩
  · omega
  · omega
  · exact absurd he hppb
  · exact ⟨r, hr, hhigh (by omega)⟩

end Run

def rungData (h : Hash) : Option SahyadriConsensusData :=
  (List.range 5).findSome? fun i =>
    if h = rung i then some ⟨UInt64.ofNat i, 0, if i = 0 then origin else rung (i - 1), [], [], ∅⟩
      else none

def rungPoints (h : Hash) : Option Hash :=
  if h = rung 0 then some origin else if h = rung 1 ∨ h = rung 2 then some (rung 0)
  else if h = rung 3 then some (rung 1) else none

def rungDepths : DepthStores := ⟨rungData, rungPoints, rungPoints, rungReach 5⟩

def rungManager : BlockDepthManager := ⟨1, 1, rung 0⟩

def rungPruned (h : Hash) : Hash := if h = rung 4 then rung 1 else rung 0

theorem chainParent_rung :
    ∀ i < 4, chainParent (rung 0) rungData (rung (i + 1)) = some (rung i) := by
  decide

theorem onPath_rung {n : Nat} (hn : n ≤ 4) {x : Hash} :
    OnPath (chainParent (rung 0) rungData) x (rung n) ↔ ∃ i ≤ n, x = rung i :=
  onPath_seq chainParent_genesis fun i hi => chainParent_rung i (by omega)

theorem onPath_rung_rung {i j : Nat} (hi : i ≤ 4) (hj : j ≤ 4) :
    OnPath (chainParent (rung 0) rungData) (rung i) (rung j) ↔ i ≤ j := by
  have hinj : ∀ i ≤ 4, ∀ k ≤ 4, rung i = rung k → i = k := by decide
  rw [onPath_rung hj]
  constructor
  · rintro ⟨k, hk, he⟩
    rw [hinj i hi k (by omega) he]
    exact hk
  · exact fun h => ⟨i, h, rfl⟩

theorem eq_rung_of_parent {i : Nat} (hi : i ≤ 4) {p : Hash}
    (hp : chainParent (rung 0) rungData (rung i) = some p) : ∃ k, i = k + 1 ∧ p = rung k := by
  cases i with
  | zero =>
    cases hp
  | succ k =>
    rw [chainParent_rung k (by omega)] at hp
    cases hp
    exact ⟨k, rfl, rfl⟩

theorem forall_rung {P : Hash → Prop} (h : ∀ i ≤ 4, P (rung i)) (x : Hash)
    (hx : OnPath (chainParent (rung 0) rungData) x (rung 4)) : P x := by
  obtain ⟨i, hi, rfl⟩ := (onPath_rung (le_refl 4)).mp hx
  exact h i hi

theorem forall_parent_rung {P : Hash → Hash → Prop} (h : ∀ i < 4, P (rung (i + 1)) (rung i))
    (x p : Hash) (hx : OnPath (chainParent (rung 0) rungData) x (rung 4))
    (hp : chainParent (rung 0) rungData x = some p) : P x p := by
  obtain ⟨i, hi, rfl⟩ := (onPath_rung (le_refl 4)).mp hx
  obtain ⟨k, rfl, rfl⟩ := eq_rung_of_parent hi hp
  exact h k hi

theorem rung_run : DepthRun rungManager rungDepths .finality rungPruned (rung 4) := by
  have hsome : ∀ i ≤ 4, (rungData (rung i)).isSome = true := by decide
  have hpruned : ∀ i ≤ 4, rungPruned (rung i) = rung (if i = 4 then 1 else 0) := by decide
  refine ⟨⟨?_, forall_rung fun i hi => isSome_iff_exists.mp (hsome i hi), forall_rung (by decide),
    ?_, forall_parent_rung (by decide)⟩, ⟨?_, ?_⟩, forall_rung fun i hi => ?_,
    forall_parent_rung fun i hi => ?_, ?_⟩
  · exact (onPath_rung_rung (by decide) (by decide)).mpr (by decide)
  · intro d hd
    have hfirst : (rungData (rung 0)).map (·.selectedParent) = some origin := by decide
    rw [show rungData (rung 0) = some d from hd] at hfirst
    exact some.inj hfirst
  · intro x y hx hy
    obtain ⟨i, hi, rfl⟩ := (onPath_rung (le_refl 4)).mp hx
    obtain ⟨j, hj, rfl⟩ := (onPath_rung (le_refl 4)).mp hy
    have hchain :
        ∀ i ≤ 4, ∀ j ≤ 4, ((rungReach 5).isChainAncestorOf (rung i) (rung j) = true ↔ i ≤ j) := by
      decide
    exact (hchain i hi j hj).trans (onPath_rung_rung hi hj).symm
  · intro x y hy hxy hne
    obtain ⟨j, hj, rfl⟩ := (onPath_rung (le_refl 4)).mp hy
    obtain ⟨i, hi, rfl⟩ := (onPath_rung hj).mp hxy
    have hij : i < j := lt_of_le_of_ne hi fun he => hne (by rw [he])
    have hnext : ∀ j ≤ 4, ∀ i < 4, (rungReach 5).getNextChainAncestor (rung j) (rung i) =
        some (rung (i + 1)) := by
      decide
    exact ⟨rung (i + 1), hnext j hj i (by omega), chainParent_rung i (by omega),
      (onPath_rung_rung (by omega) hj).mpr hij⟩
  · rw [hpruned i hi]
    exact (onPath_rung_rung (by split <;> decide) hi).mpr (by split <;> omega)
  · rw [hpruned _ hi, hpruned i (by omega)]
    exact (onPath_rung_rung (by split <;> decide) (by split <;> decide)).mpr
      (by split <;> split <;> omega)
  · intro x hx hne
    obtain ⟨i, hi, rfl⟩ := (onPath_rung (le_refl 4)).mp hx
    have hi : i < 4 := lt_of_le_of_ne hi fun he => hne (by rw [he])
    have hrun : ∀ i < 4, ((rungData (rung i)).bind fun d => (rungPoints (rung i)).map fun v =>
        decide (scoreOf rungData (rung i) + 1 < 6 ∧ rungManager.calculateBlockAtDepth rungDepths 6 d
          .finality (rungPruned (rung i)) = .ok v)) =
        some true := by decide
    obtain ⟨d, hd, hmap⟩ := bind_eq_some_iff.mp (hrun i hi)
    obtain ⟨v, hv, hdec⟩ := map_eq_some_iff.mp hmap
    obtain ⟨hfuel, hcalc⟩ := of_decide_eq_true hdec
    exact ⟨d, v, 6, hd, hfuel, hcalc, hv⟩

theorem calculateBlockAtDepth_rung : ∃ d r, rungData (rung 4) = some d ∧
    rungManager.calculateBlockAtDepth rungDepths 6 d .finality (rung 1) = .ok r ∧
    Highest (chainParent (rung 0) rungData) (fun x => scoreOf rungData x < 3) (rung 4) r := by
  have hsome : (rungData (rung 4)).isSome = true := by decide
  obtain ⟨d, hd⟩ := isSome_iff_exists.mp hsome
  obtain ⟨r, hr, hhigh⟩ := calculateBlockAtDepth_highest rung_run hd (by decide)
    (show scoreOf rungData (rung 4) + 1 < 6 by decide)
  exact ⟨d, r, hd, hr, hhigh⟩

end Sahyadri.Consensus
