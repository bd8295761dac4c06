import Sahyadri.Consensus.Depth

/-!
# `PruningPointManager`: pruning samples and the pruning point expected of a header

A block is a pruning sample if it starts a finality epoch. Every block stores the last sample below
it, and its pruning point is found by jumping from sample to sample until one is deep enough. Two
further exits of that loop are clamps.

* `pruning_points_deep`: what is found is the last sample and the last sample at pruning depth, the
  clamps do not matter, and the pruning points between two are listed.
-/

namespace Sahyadri.Consensus

open Lib Smt Core List Run Option

/-! ## 1. The manager -/

structure CompactSahyadriConsensusData where
  blueScore : UInt64
  blueWork : BlueWorkType
  selectedParent : Hash

def SahyadriConsensusData.toCompact (d : SahyadriConsensusData) : CompactSahyadriConsensusData :=
  ⟨d.blueScore, d.blueWork, d.selectedParent⟩

structure PruningPointReply where
  /-- The most recent pruning sample from the point of view of the block. -/
  pruningSample : Hash
  pruningPoint : Hash
  deriving DecidableEq

structure PruningPointManager where
  pruningDepth : UInt64
  finalityDepth : UInt64
  genesisHash : Hash

structure PruningStores where
  /-- `headers_store.get_blue_score`. -/
  blueScore : Hash → Option UInt64
  /-- `headers_store.get_header`, the pruning point of it. -/
  pruningPoint : Hash → Option Hash
  pruningSampleFromPov : Hash → Option Hash

/-- A lookup that is unwrapped. -/
def unwrapped {ε α : Type} : Option α → Run ε α
  | none => .panicked
  | some a => .ok a

namespace PruningPointManager

variable (m : PruningPointManager) (s : PruningStores)

/-- `pruning_samples_steps`: `pruning_depth.div_ceil(finality_depth)`. -/
def pruningSamplesSteps : Nat :=
  m.pruningDepth.toNat / m.finalityDepth.toNat +
    if m.pruningDepth.toNat % m.finalityDepth.toNat = 0 then 0 else 1

def finalityScore {ε : Type} (blueScore finalityDepth : UInt64) : Run ε UInt64 :=
  if finalityDepth = 0 then .panicked else .ok (blueScore / finalityDepth)

def isPruningSample {ε : Type} (selfBlueScore epochChainAncestorBlueScore finalityDepth : UInt64) :
    Run ε Bool := do
  let ancestor ← finalityScore epochChainAncestorBlueScore finalityDepth
  let self ← finalityScore selfBlueScore finalityDepth
  return decide (ancestor < self)

/-- The loop of `expected_header_pruning_point` from sample to sample, with the steps taken so
    far. -/
def pruningLoop (blueScore : UInt64) (clamp : Nat → Hash → Bool) :
    Nat → Nat → Hash → Run Diverged Hash
  | 0, _, _ => .fail .outOfSteps
  | fuel + 1, steps, current =>
    if current = m.genesisHash then .ok current
    else do
      let currentBlueScore ← unwrapped (s.blueScore current)
      -- the most recent sample with pruning depth
      if currentBlueScore + m.pruningDepth ≤ blueScore then return current
      else if clamp steps current then return current
      else do
        let next ← unwrapped (s.pruningSampleFromPov current)
        pruningLoop blueScore clamp fuel (steps + 1) next

/-- The two clamps: the number of steps for samples, and the pruning point of the selected
    parent. -/
def clamps (isSelfPruningSample : Bool) (selectedParentPruningPoint : Hash) (steps : Nat)
    (current : Hash) : Bool :=
  (isSelfPruningSample && steps == m.pruningSamplesSteps) || current == selectedParentPruningPoint

/-- The most recent sample below a block with the given selected parent. -/
def pruningSample (selectedParent : Hash) (selectedParentBlueScore : UInt64) : Run Diverged Hash :=
  if selectedParent = m.genesisHash then .ok m.genesisHash
  else do
    let sample ← unwrapped (s.pruningSampleFromPov selectedParent)
    let sampleBlueScore ← unwrapped (s.blueScore sample)
    if ← isPruningSample selectedParentBlueScore sampleBlueScore m.finalityDepth then
      return selectedParent
    else return sample

def expectedHeaderPruningPoint (fuel : Nat) (d : CompactSahyadriConsensusData) :
    Run Diverged PruningPointReply := do
  let selectedParentBlueScore ← unwrapped (s.blueScore d.selectedParent)
  let pruningSample ← m.pruningSample s d.selectedParent selectedParentBlueScore
  let isSelfPruningSample ← isPruningSample d.blueScore selectedParentBlueScore m.finalityDepth
  let selectedParentPruningPoint ← unwrapped (s.pruningPoint d.selectedParent)
  let pruningPoint ← m.pruningLoop s d.blueScore
    (m.clamps isSelfPruningSample selectedParentPruningPoint) fuel 1 pruningSample
  return ⟨pruningSample, pruningPoint⟩

def nextLoop (currentPruningPoint : Hash) : Nat → Hash → List Hash → Run Diverged (List Hash)
  | 0, _, _ => .fail .outOfSteps
  | fuel + 1, current, deque =>
    if current = currentPruningPoint then .ok deque
    else do
      let next ← unwrapped (s.pruningSampleFromPov current)
      nextLoop currentPruningPoint fuel next (current :: deque)

def nextPruningPoints (fuel : Nat) (sink : CompactSahyadriConsensusData)
    (currentPruningPoint : Hash) : Run Diverged (List Hash) :=
  if sink.selectedParent = origin then .ok []
  else do
    let currentBlueScore ← unwrapped (s.blueScore currentPruningPoint)
    if currentBlueScore + m.pruningDepth > sink.blueScore then return []
    else do
      let reply ← m.expectedHeaderPruningPoint s fuel sink
      let sinkPruningPointBlueScore ← unwrapped (s.blueScore reply.pruningPoint)
      if sinkPruningPointBlueScore ≤ currentBlueScore then return []
      else nextLoop s currentPruningPoint fuel reply.pruningPoint []

end PruningPointManager

/-! ## 2. Samples and points -/

open PruningPointManager

variable (m : PruningPointManager) (data : StoreReader)

/-- The finality epoch starts with this block. -/
def StartsEpoch : Hash → Prop :=
  Starts (chainParent m.genesisHash data) (scoreOf data) m.finalityDepth.toNat

/-- The last block strictly below that starts an epoch, or the genesis block. -/
def SampleOf : Hash → Hash → Prop :=
  LastStart (chainParent m.genesisHash data) (scoreOf data) m.finalityDepth.toNat m.genesisHash

/-- The last such block at pruning depth, or the genesis block. -/
def PointOf (b : Hash) :
    Hash → Prop :=
  HighestOr (chainParent m.genesisHash data)
    (fun x => x ≠ b ∧ StartsEpoch m data x ∧ scoreOf data x + m.pruningDepth.toNat ≤ scoreOf data b)
    m.genesisHash b

variable (s : PruningStores) (data : StoreReader)

/-- A selected chain whose blue scores grow by at most `k + 1`; the pruning depth is not near a
    multiple of the finality depth. -/
structure PruningLine
    (k : Nat) (b : Hash) : Prop where
  line : SelectedLine m.genesisHash data b
  scores : ∀ x, OnChain m.genesisHash data x b → s.blueScore x = some (blueScoreOf data x)
  bounded : Bounded (chainParent m.genesisHash data) (scoreOf data) k b
  above : k < m.pruningDepth.toNat % m.finalityDepth.toNat
  below : m.pruningDepth.toNat % m.finalityDepth.toNat < m.finalityDepth.toNat - k
  first : ∃ g, s.pruningPoint m.genesisHash = some g

/-- What is stored for a block is its sample and its point. -/
def Recorded
    (x : Hash) : Prop :=
  ∃ v r, s.pruningSampleFromPov x = some v ∧ s.pruningPoint x = some r ∧ SampleOf m data x v ∧
    PointOf m data x r

/-- What is stored for the blocks strictly below `b` is right. -/
def RecordedBelow
    (b : Hash) : Prop :=
  ∀ x, OnChain m.genesisHash data x b → x ≠ b → x ≠ m.genesisHash → Recorded m s data x

section Points

variable {m : PruningPointManager} {s : PruningStores} {data : StoreReader}
  {k : Nat} {b p v r x y : Hash} {d : SahyadriConsensusData}

theorem PruningLine.of_onPath (h : PruningLine m s data k b)
    (hx : OnChain m.genesisHash data x b) : PruningLine m s data k x :=
  ⟨h.line.of_onPath hx, fun y hy => h.scores y (hy.trans hx), h.bounded.of_onPath hx, h.above,
    h.below, h.first⟩

theorem PruningLine.finality_pos (h : PruningLine m s data k b) :
    k + 1 ≤ m.finalityDepth.toNat := by
  have := h.below
  omega

theorem eq_of_onPath_genesis (h : OnChain m.genesisHash data x m.genesisHash) :
    x = m.genesisHash := by
  rcases onPath_iff.mp h with he | ⟨q, hq, _⟩
  · exact he
  · rw [chainParent_genesis] at hq
    cases hq

theorem SampleOf.onPath (h : PruningLine m s data k x) (hv : SampleOf m data x v) :
    OnChain m.genesisHash data v x := by
  rcases hv with hv | ⟨rfl, _⟩
  · exact hv.onPath
  · exact h.line.root

theorem PointOf.onPath (h : PruningLine m s data k x) (hr : PointOf m data x r) :
    OnChain m.genesisHash data r x := by
  rcases hr with hr | ⟨rfl, _⟩
  · exact hr.onPath
  · exact h.line.root

theorem isPruningSample_ok {ε : Type} {finalityDepth : UInt64} (hF : 0 < finalityDepth.toNat)
    (u w : UInt64) : (isPruningSample u w finalityDepth : Run ε Bool) =
      .ok (decide (w.toNat / finalityDepth.toNat < u.toNat / finalityDepth.toNat)) := by
  have hne : finalityDepth ≠ 0 := by
    rintro rfl
    exact absurd hF (lt_irrefl 0)
  unfold isPruningSample finalityScore
  rw [if_neg hne, if_neg hne, ok_bind]
  refine congrArg Except.ok (decide_eq_decide.mpr ?_)
  rw [UInt64.lt_iff_toNat_lt, UInt64.toNat_div, UInt64.toNat_div]

/-- **The stored sample of the selected parent decides**: it is a sample itself when its own is in
    an earlier epoch. -/
theorem pruningSample_ok (h : PruningLine m s data k b)
    (hparent : chainParent m.genesisHash data b = some p)
    (hrec : p ≠ m.genesisHash → Recorded m s data p) :
    ∃ v, m.pruningSample s p (blueScoreOf data p) = .ok v ∧ SampleOf m data b v := by
  have hpb := onPath_parent hparent
  unfold pruningSample
  by_cases hg : p = m.genesisHash
  · subst hg
    exact ⟨_, if_pos rfl, lastStart_of_root chainParent_genesis hparent⟩
  · obtain ⟨v, r, hv, _, hsample, _⟩ := hrec hg
    have hp := h.of_onPath hpb
    have hvp : OnChain m.genesisHash data v p := hsample.onPath hp
    obtain ⟨q, hq⟩ : ∃ q, chainParent m.genesisHash data p = some q := by
      obtain ⟨dp, hdp⟩ := hp.line.known p (.refl p)
      exact ⟨_, chainParent_eq hdp hg⟩
    have hepoch := LastStart.epoch_eq hp.line.rising hp.line.root hq hg hsample
    have hiff : (scoreOf data v / m.finalityDepth.toNat < scoreOf data p / m.finalityDepth.toNat) ↔
        StartsEpoch m data p := by
      rw [StartsEpoch, starts_iff hq, hepoch]
    rw [if_neg hg, hv, unwrapped, ok_bind, hp.scores v hvp, unwrapped, ok_bind,
      isPruningSample_ok (by have := h.finality_pos; omega), ok_bind]
    by_cases hs : StartsEpoch m data p
    · exact ⟨p, if_pos (decide_eq_true (hiff.mpr hs)), lastStart_parent h.line.rising hparent hs⟩
    · exact ⟨v, if_neg (fun hd => hs (hiff.mp (of_decide_eq_true hd))),
        hsample.child h.line.rising hparent hs⟩

/-! ## 3. From sample to sample -/

/-- The loop after some steps: at a sample or the genesis block, with no deep enough sample above
    it, as many epochs away as there were steps. -/
structure Jumping (m : PruningPointManager) (data : StoreReader) (b : Hash)
    (steps : Nat) (current : Hash) : Prop where
  onPath : OnChain m.genesisHash data current b
  sample : current = m.genesisHash ∨ (current ≠ b ∧ StartsEpoch m data current)
  epoch : current ≠ m.genesisHash → StartsEpoch m data b →
    scoreOf data current / m.finalityDepth.toNat + steps = scoreOf data b / m.finalityDepth.toNat
  shallow : ∀ y, OnChain m.genesisHash data y b → y ≠ b → StartsEpoch m data y →
    ¬ OnChain m.genesisHash data y current → scoreOf data b < scoreOf data y + m.pruningDepth.toNat

section

variable (hv : SampleOf m data b v)

include hv

theorem SampleOf.epoch (h : PruningLine m s data k b) (hne : b ≠ m.genesisHash)
    (hs : StartsEpoch m data b) :
    scoreOf data v / m.finalityDepth.toNat + 1 = scoreOf data b / m.finalityDepth.toNat := by
  obtain ⟨q, hq, _⟩ := id hs
  rw [Starts.epoch_succ h.finality_pos h.bounded hs hq,
    LastStart.epoch_eq h.line.rising h.line.root hq hne hv]

theorem SampleOf.sample : v = m.genesisHash ∨ (v ≠ b ∧ StartsEpoch m data v) := by
  rcases hv with hv | ⟨he, _⟩
  · exact .inr hv.holds
  · exact .inl he

theorem SampleOf.above (hy : OnChain m.genesisHash data y b)
    (hne : y ≠ b) (hs : StartsEpoch m data y) : OnChain m.genesisHash data y v := by
  rcases hv with hv | ⟨_, hnone⟩
  · exact hv.above y hy ⟨hne, hs⟩
  · exact absurd ⟨hne, hs⟩ (hnone y hy)

end

theorem SampleOf.lt (h : PruningLine m s data k x) (hg : x ≠ m.genesisHash)
    (hv : SampleOf m data x v) : scoreOf data v < scoreOf data x := by
  refine h.line.rising.lt (hv.onPath h) ?_
  rcases hv.sample with hvg | hvs
  · exact fun hvx => hg (hvx ▸ hvg)
  · exact hvs.1

section

variable (h : PruningLine m s data k b)

include h

theorem PruningLine.toNat_add_depth (hov : scoreOf data b + m.pruningDepth.toNat < 2 ^ 64)
    (hx : OnChain m.genesisHash data x b) :
    (blueScoreOf data x + m.pruningDepth).toNat = scoreOf data x + m.pruningDepth.toNat := by
  have hle := h.line.rising.le hx
  rw [UInt64.toNat_add]
  exact Nat.mod_eq_of_lt (by unfold scoreOf at *; omega)

theorem SampleOf.jumping (hne : b ≠ m.genesisHash) (hv : SampleOf m data b v) :
    Jumping m data b 1 v where
  onPath := hv.onPath h
  sample := hv.sample
  epoch _ := hv.epoch h hne
  shallow _ hy hyb hs hnot := absurd (hv.above hy hyb hs) hnot

variable {steps fuel : Nat}

theorem Jumping.next (hx : Jumping m data b steps x) (hg : x ≠ m.genesisHash)
    (hshallow : scoreOf data b < scoreOf data x + m.pruningDepth.toNat) (hv : SampleOf m data x v) :
    Jumping m data b (steps + 1) v where
  onPath := (hv.onPath (h.of_onPath hx.onPath)).trans hx.onPath
  sample := by
    obtain ⟨hxb, _⟩ := hx.sample.resolve_left hg
    refine hv.sample.imp_right fun hs => ⟨?_, hs.2⟩
    rintro rfl
    have hle := (h.line.rising.of_onPath hx.onPath).le (hv.onPath (h.of_onPath hx.onPath))
    have hlt := h.line.rising.lt hx.onPath hxb
    omega
  epoch _ hs := by
    have hprev := hx.epoch hg hs
    have hone := hv.epoch (h.of_onPath hx.onPath) hg (hx.sample.resolve_left hg).2
    omega
  shallow y hy hyb hs hnot := by
    by_cases hyx : OnChain m.genesisHash data y x
    · by_cases he : y = x
      · rw [he]
        exact hshallow
      · exact absurd (hv.above hyx he hs) hnot
    · exact hx.shallow y hy hyb hs hyx

/-- **The loop ends at the point**, if a clamp only stops it where it stops anyway. -/
theorem pruningLoop_ok (hd : data b = some d) (hov : scoreOf data b + m.pruningDepth.toNat < 2 ^ 64)
    (hrec : RecordedBelow m s data b) {clamp : Nat → Hash → Bool}
    (hclamp : ∀ steps x, Jumping m data b steps x → x ≠ m.genesisHash → clamp steps x = true →
      scoreOf data x + m.pruningDepth.toNat ≤ scoreOf data b) :
    ∀ {steps : Nat} {x : Hash}, Jumping m data b steps x → scoreOf data x < fuel →
      ∃ r, m.pruningLoop s d.blueScore clamp fuel steps x = .ok r ∧ PointOf m data b r := by
  induction fuel with
  | zero => exact fun _ hlt => absurd hlt (Nat.not_lt_zero _)
  | succ fuel ih =>
    intro steps x hx hfuel
    unfold pruningLoop
    by_cases hg : x = m.genesisHash
    · refine ⟨x, if_pos hg, .inr ⟨hg, fun y hy hyP => ?_⟩⟩
      by_cases hyx : OnChain m.genesisHash data y x
      · rw [hg] at hyx
        exact not_starts_root chainParent_genesis (eq_of_onPath_genesis hyx ▸ hyP.2.1)
      · have := hx.shallow y hy hyP.1 hyP.2.1 hyx
        omega
    have hscore := scoreOf_eq hd
    have hadd := h.toNat_add_depth hov hx.onPath
    obtain ⟨hxb, hs⟩ := hx.sample.resolve_left hg
    rw [if_neg hg, h.scores x hx.onPath, unwrapped, ok_bind]
    by_cases hdeep : blueScoreOf data x + m.pruningDepth ≤ d.blueScore
    · have hle : scoreOf data x + m.pruningDepth.toNat ≤ scoreOf data b := by
        rw [← hadd, hscore]
        exact hdeep
      refine ⟨x, if_pos hdeep, .inl ⟨hx.onPath, ⟨hxb, hs, hle⟩, fun y hy hyP => ?_⟩⟩
      by_contra hyx
      have := hx.shallow y hy hyP.1 hyP.2.1 hyx
      omega
    · have hshallow : scoreOf data b < scoreOf data x + m.pruningDepth.toNat := by
        rw [← hadd, hscore]
        exact Nat.lt_of_not_le hdeep
      have hno : clamp steps x ≠ true := fun hc => by
        have := hclamp steps x hx hg hc
        omega
      obtain ⟨v, r, hv, _, hsample, _⟩ := hrec x hx.onPath hxb hg
      rw [if_neg hdeep, if_neg hno, hv, unwrapped, ok_bind]
      have hlt := hsample.lt (h.of_onPath hx.onPath) hg
      exact ih (hx.next h hg hshallow hsample) (by omega)

/-! ## 4. The clamps -/

theorem deep_of_steps (hs : StartsEpoch m data x) (hx : OnChain m.genesisHash data x b)
    (hepoch : scoreOf data x / m.finalityDepth.toNat + m.pruningSamplesSteps = scoreOf data
      b / m.finalityDepth.toNat) : scoreOf data x + m.pruningDepth.toNat ≤ scoreOf data b := by
  have habove := h.above
  have hbelow := h.below
  have hnear := Starts.rank_le (by omega) (h.bounded.of_onPath hx) hs
  have hb := Nat.div_mul_le_self (scoreOf data b) m.finalityDepth.toNat
  have hP := Nat.div_add_mod m.pruningDepth.toNat m.finalityDepth.toNat
  rw [← hepoch, pruningSamplesSteps, if_neg (by omega), add_mul, add_mul,
    one_mul, mul_comm (m.pruningDepth.toNat / _)] at hb
  omega

/-- **The clamps do not matter**: each of them stops the loop only where the depth does. -/
theorem clamps_deep (hparent : chainParent m.genesisHash data b = some p)
    (hrec : p ≠ m.genesisHash → PointOf m data p r) {isSample : Bool}
    (hsample : isSample = true → StartsEpoch m data b) (hx : Jumping m data b steps x)
    (hg : x ≠ m.genesisHash) (hc : m.clamps isSample r steps x = true) :
    scoreOf data x + m.pruningDepth.toNat ≤ scoreOf data b := by
  obtain ⟨hxb, hs⟩ := hx.sample.resolve_left hg
  have hxp := hx.onPath.parent_of_ne hxb hparent
  rcases (Bool.or_eq_true _ _).mp hc with hc | hc
  · obtain ⟨hself, hsteps⟩ := (Bool.and_eq_true _ _).mp hc
    have hepoch := hx.epoch hg (hsample hself)
    rw [beq_iff_eq.mp hsteps] at hepoch
    exact deep_of_steps h hs hx.onPath hepoch
  · cases beq_iff_eq.mp hc
    have hpg : p ≠ m.genesisHash := by
      rintro rfl
      exact hg (eq_of_onPath_genesis hxp)
    rcases hrec hpg with hr | ⟨he, _⟩
    · have := hr.holds.2.2
      have := h.line.rising b p (.refl b) hparent
      omega
    · exact absurd he hg

/-! ## 5. Every block of the chain -/

/-- **The reply for a block**, if what is stored below it is right. -/
theorem expectedHeaderPruningPoint_ok (hd : data b = some d) (hne : b ≠ m.genesisHash)
    (hov : scoreOf data b + m.pruningDepth.toNat < 2 ^ 64) (hrec : RecordedBelow m s data b)
    (hfuel : scoreOf data b < fuel) :
    ∃ reply, m.expectedHeaderPruningPoint s fuel d.toCompact = .ok reply ∧
      SampleOf m data b reply.pruningSample ∧ PointOf m data b reply.pruningPoint ∧ m.pruningLoop s
        d.blueScore (fun _ _ => false) fuel 1 reply.pruningSample = .ok reply.pruningPoint := by
  have hparent := chainParent_eq hd hne
  have hpb := onPath_parent hparent
  have hpne := h.line.rising.ne_of_parent hparent (.refl _)
  obtain ⟨v, hv, hsample⟩ := pruningSample_ok h hparent (hrec _ hpb hpne)
  have hvle := h.line.rising.le (hsample.onPath h)
  -- the pruning point of the selected parent; the genesis block has any
  obtain ⟨r, hr, hrpoint⟩ : ∃ r, s.pruningPoint d.selectedParent = some r ∧
      (d.selectedParent ≠ m.genesisHash → PointOf m data d.selectedParent r) := by
    by_cases hg : d.selectedParent = m.genesisHash
    · obtain ⟨g, hgp⟩ := h.first
      exact ⟨g, by rw [hg]; exact hgp, fun hc => absurd hg hc⟩
    · obtain ⟨_, r, _, hr, _, hpoint⟩ := hrec _ hpb hpne hg
      exact ⟨r, hr, fun _ => hpoint⟩
  have hself : (decide (scoreOf data d.selectedParent / m.finalityDepth.toNat <
      d.blueScore.toNat / m.finalityDepth.toNat)) = true → StartsEpoch m data b := fun hlt => by
    exact ⟨_, hparent, by rw [scoreOf_eq hd]; exact of_decide_eq_true hlt⟩
  have hjump := hsample.jumping h hne
  obtain ⟨point, hpoint, hpoint'⟩ := pruningLoop_ok h hd hov hrec
    (fun steps x hx hg hc => clamps_deep h hparent hrpoint hself hx hg hc) hjump
    (show scoreOf data v < fuel by omega)
  have hnever : ∀ steps x, Jumping m data b steps x → x ≠ m.genesisHash →
      (fun _ _ => false : Nat → Hash → Bool) steps x = true →
      scoreOf data x + m.pruningDepth.toNat ≤ scoreOf data b :=
    fun _ _ _ _ hc => absurd hc Bool.false_ne_true
  obtain ⟨plain, hplain, hplain'⟩ :=
    pruningLoop_ok h hd hov hrec hnever hjump (show scoreOf data v < fuel by omega)
  have hsame : plain = point := by
    rcases hpoint' with h1 | ⟨h1, hnone⟩ <;> rcases hplain' with h2 | ⟨h2, hnone'⟩
    · exact h2.unique h.line.rising h1
    · exact absurd h1.holds (hnone' _ h1.onPath)
    · exact absurd h2.holds (hnone _ h2.onPath)
    · rw [h1, h2]
  refine ⟨⟨v, point⟩, ?_, hsample, hpoint', hsame ▸ hplain⟩
  show (unwrapped (s.blueScore d.selectedParent) >>= _) = _
  rw [h.scores _ hpb, unwrapped, ok_bind]
  show (m.pruningSample s d.selectedParent _ >>= _) = _
  rw [hv, ok_bind, isPruningSample_ok (by have := h.finality_pos; omega), ok_bind]
  show (unwrapped (s.pruningPoint d.selectedParent) >>= _) = _
  rw [hr, unwrapped, ok_bind]
  show (m.pruningLoop s d.blueScore (m.clamps (decide (scoreOf data d.selectedParent / _ <
    d.blueScore.toNat / _)) r) fuel 1 v >>= _) = _
  rw [hpoint]
  rfl

end

end Points

/-- The samples and points along the chain of `b`, each from the call for its block. -/
structure PruningChain (m : PruningPointManager) (s : PruningStores)
    (data : StoreReader) (k : Nat) (b : Hash) : Prop extends
    PruningLine m s data k b where
  recorded : ∀ x, OnChain m.genesisHash data x b → x ≠ b → x ≠ m.genesisHash →
    ∃ d reply fuel, data x = some d ∧ scoreOf data x < fuel ∧
      m.expectedHeaderPruningPoint s fuel d.toCompact = .ok reply ∧ s.pruningSampleFromPov x =
      some reply.pruningSample ∧ s.pruningPoint x = some reply.pruningPoint

section Chain

variable {m : PruningPointManager} {s : PruningStores} {data : StoreReader}
  {k : Nat} {b x : Hash} {d : SahyadriConsensusData}

/-- **What is stored along the chain is right**, by induction from the genesis block up. -/
theorem PruningChain.stored (h : PruningChain m s data k b)
    (hov : scoreOf data b + m.pruningDepth.toNat < 2 ^ 64) : RecordedBelow m s data b := by
  intro x
  induction hn : scoreOf data x using Nat.strong_induction_on generalizing x with
  | _ n ih =>
    intro hx hne hg
    subst hn
    obtain ⟨d, reply, fuel, hd, hfuel, hreply, hsample, hpoint⟩ := h.recorded x hx hne hg
    have hxle := h.line.rising.le hx
    obtain ⟨reply', hreply', hs, hp, _⟩ :=
      expectedHeaderPruningPoint_ok (h.toPruningLine.of_onPath hx) hd hg
      (by omega) (fun y hy hyx hyg =>
      ih _ ((h.line.rising.of_onPath hx).lt hy hyx) y rfl (hy.trans hx) (fun he => by
          have := (h.line.rising.of_onPath hx).lt hy hyx
          rw [he] at this
          omega) hyg) hfuel
    cases hreply.symm.trans hreply'
    exact ⟨_, _, hsample, hpoint, hs, hp⟩

/-- The samples above `r` up to `x`, in ascending order. -/
structure SamplesBetween (m : PruningPointManager) (data : StoreReader) (r x : Hash)
    (l : List Hash) : Prop where
  mem : ∀ y, y ∈ l ↔ OnChain m.genesisHash data y x ∧ StartsEpoch m data y ∧
    scoreOf data r < scoreOf data y
  ascending : l.Pairwise fun y z => scoreOf data y < scoreOf data z

variable {r point : Hash} {fuel : Nat}

/-- **The walk down the samples** lists those above its end. -/
theorem nextLoop_ok (h : PruningLine m s data k b) (hrec : RecordedBelow m s data b)
    (hr : r = m.genesisHash ∨ StartsEpoch m data r) :
    ∀ {x : Hash} (deque : List Hash), OnChain m.genesisHash data x b → x ≠ b →
      (x = m.genesisHash ∨ StartsEpoch m data x) →
      OnChain m.genesisHash data r x → scoreOf data x < fuel →
      ∃ l, nextLoop s r fuel x deque = .ok (l ++ deque) ∧ SamplesBetween m data r x l := by
  induction fuel with
  | zero => exact fun _ _ _ _ _ hlt => absurd hlt (Nat.not_lt_zero _)
  | succ fuel ih =>
    intro x deque hx hxb hsx hrx hfuel
    have hrise := h.line.rising.of_onPath hx
    unfold nextLoop
    by_cases he : x = r
    · subst he
      refine ⟨[], if_pos rfl, fun y => iff_of_false not_mem_nil fun hy => ?_, .nil⟩
      have := hrise.le hy.1
      omega
    have hg : x ≠ m.genesisHash := by
      rintro rfl
      exact he (eq_of_onPath_genesis hrx).symm
    have hlt := hrise.lt hrx (Ne.symm he)
    obtain ⟨v, _, hv, _, hsample, _⟩ := hrec x hx hxb hg
    have hxl := h.of_onPath hx
    have hvx := hsample.onPath hxl
    have hvlt := hsample.lt hxl hg
    have hvb : v ≠ b := by
      rintro rfl
      have := h.line.rising.le hx
      omega
    have hrv : OnChain m.genesisHash data r v := by
      rcases hr with rfl | hr
      · exact (hxl.of_onPath hvx).line.root
      · exact hsample.above hrx (Ne.symm he) hr
    obtain ⟨l, hl, hbetween⟩ :=
      ih (x :: deque) (hvx.trans hx) hvb (hsample.sample.imp_right And.right) hrv (by omega)
    refine ⟨l ++ [x], ?_, fun y => ?_, ?_⟩
    · rw [if_neg he, hv, unwrapped, ok_bind, hl, append_assoc, singleton_append]
    · rw [mem_append, mem_singleton, hbetween.mem]
      constructor
      · rintro (⟨hy, hs, hlt'⟩ | rfl)
        · exact ⟨hy.trans hvx, hs, hlt'⟩
        · exact ⟨.refl y, hsx.resolve_left hg, hlt⟩
      · rintro ⟨hy, hs, hlt'⟩
        by_cases hyx : y = x
        · exact .inr hyx
        · exact .inl ⟨hsample.above hy hyx hs, hs, hlt'⟩
    · refine pairwise_append.mpr ⟨hbetween.ascending, pairwise_singleton _ _, fun y hy z hz => ?_⟩
      rw [mem_singleton.mp hz]
      have := (hrise.of_onPath hvx).le ((hbetween.mem y).mp hy).1
      omega

theorem PointOf.deep (hr : PointOf m data x r) (hg : r ≠ m.genesisHash) :
    StartsEpoch m data r ∧ scoreOf data r + m.pruningDepth.toNat ≤ scoreOf data x ∧ r ≠ x := by
  rcases hr with hr | ⟨he, _⟩
  · exact ⟨hr.holds.2.1, hr.holds.2.2, hr.holds.1⟩
  · exact absurd he hg

/-- **Points do not move backwards.** -/
theorem PointOf.mono (h : PruningLine m s data k b) (hx : OnChain m.genesisHash data x b)
    (hr : PointOf m data x r) (hpoint : PointOf m data b point) :
    OnChain m.genesisHash data r point := by
  by_cases hg : r = m.genesisHash
  · rw [hg]
    exact (h.of_onPath (hpoint.onPath h)).line.root
  · obtain ⟨hs, hdeep, hrx⟩ := hr.deep hg
    have hrx' := hr.onPath (h.of_onPath hx)
    have hlt := (h.line.rising.of_onPath hx).lt hrx' hrx
    have hle := h.line.rising.le hx
    have hrb : r ≠ b := by
      rintro rfl
      omega
    have hP : r ≠ b ∧ StartsEpoch m data r ∧
        scoreOf data r + m.pruningDepth.toNat ≤ scoreOf data b := ⟨hrb, hs, by omega⟩
    rcases hpoint with hp | ⟨_, hnone⟩
    · exact hp.above r (hrx'.trans hx) hP
    · exact absurd hP (hnone r (hrx'.trans hx))

/-- **The pruning points between** that of an earlier block and that of the sink. -/
theorem nextPruningPoints_ok (h : PruningLine m s data k b)
    (hd : data b = some d) (hne : b ≠ m.genesisHash)
    (hov : scoreOf data b + m.pruningDepth.toNat < 2 ^ 64) (hrec : RecordedBelow m s data b)
    (hfuel : scoreOf data b < fuel) {reply : PruningPointReply}
    (hreply : m.expectedHeaderPruningPoint s fuel d.toCompact = .ok reply)
    (hpoint : PointOf m data b reply.pruningPoint) (hx : OnChain m.genesisHash data x b)
    (hr : PointOf m data x r) : ∃ l, m.nextPruningPoints s fuel d.toCompact r = .ok l ∧
      SamplesBetween m data r reply.pruningPoint l := by
  have hpb := hpoint.onPath h
  have hrb := (hr.onPath (h.of_onPath hx)).trans hx
  have hrp := hr.mono h hx hpoint
  have hscore := scoreOf_eq hd
  have hreal : d.selectedParent ≠ origin := h.line.real _ (onPath_parent (chainParent_eq hd hne))
  have hadd := h.toNat_add_depth hov hrb
  have hnone : scoreOf data reply.pruningPoint ≤ scoreOf data r →
      SamplesBetween m data r reply.pruningPoint [] :=
    fun hle => ⟨fun y => iff_of_false not_mem_nil fun hy => by
      have := (h.line.rising.of_onPath hpb).le hy.1
      omega, .nil⟩
  unfold nextPruningPoints
  rw [if_neg (show ¬ d.toCompact.selectedParent = origin from hreal), h.scores r hrb, unwrapped,
    ok_bind]
  by_cases hnear : blueScoreOf data r + m.pruningDepth > d.toCompact.blueScore
  · refine ⟨[], if_pos hnear, hnone ?_⟩
    -- the point of the sink is the genesis block, and nothing is below that
    have hlt : scoreOf data b < scoreOf data r + m.pruningDepth.toNat := by
      rw [← hadd, hscore]
      exact hnear
    have hg : reply.pruningPoint = m.genesisHash := by
      by_contra hg
      have hdeep := (hpoint.deep hg).2.1
      have := (h.line.rising.of_onPath hpb).le hrp
      omega
    rw [hg] at hrp ⊢
    rw [eq_of_onPath_genesis hrp]
  rw [if_neg hnear, hreply, ok_bind, h.scores _ hpb, unwrapped, ok_bind]
  by_cases hle : blueScoreOf data reply.pruningPoint ≤ blueScoreOf data r
  · exact ⟨[], if_pos hle, hnone hle⟩
  rw [if_neg hle]
  have hlt := Nat.lt_of_not_le hle
  have hg : reply.pruningPoint ≠ m.genesisHash := by
    intro hg
    rw [hg] at hrp hlt
    rw [eq_of_onPath_genesis hrp] at hlt
    omega
  obtain ⟨hs, hdeep, hpne⟩ := hpoint.deep hg
  have hrs : r = m.genesisHash ∨ StartsEpoch m data r := by
    by_cases hrg : r = m.genesisHash
    · exact .inl hrg
    · exact .inr (hr.deep hrg).1
  obtain ⟨l, hl, hbetween⟩ := nextLoop_ok h hrec hrs [] hpb hpne (.inr hs) hrp
    (show scoreOf data reply.pruningPoint < fuel by have := h.line.rising.le hpb; omega)
  rw [append_nil] at hl
  exact ⟨l, hl, hbetween⟩

/-- The reply expected for a block, and the pruning points that follow those of the blocks below. -/
structure Expected (m : PruningPointManager) (s : PruningStores)
    (data : StoreReader) (fuel : Nat) (b : Hash) (d : SahyadriConsensusData)
    (reply : PruningPointReply) : Prop where
  sample : SampleOf m data b reply.pruningSample
  point : PointOf m data b reply.pruningPoint
  /-- The loop without clamps ends at the same block. -/
  unclamped : m.pruningLoop s d.blueScore (fun _ _ => false) fuel 1 reply.pruningSample =
    .ok reply.pruningPoint
  forwards : ∀ x r, OnChain m.genesisHash data x b → x ≠ b → x ≠ m.genesisHash →
    s.pruningPoint x = some r → OnChain m.genesisHash data r reply.pruningPoint
  next : ∀ x r, OnChain m.genesisHash data x b → x ≠ b → x ≠ m.genesisHash →
    s.pruningPoint x = some r → ∃ l, m.nextPruningPoints s fuel d.toCompact r = .ok l ∧
      SamplesBetween m data r reply.pruningPoint l

/-- **Expected pruning points are the deep samples**, as long as blue score and pruning depth
    together stay below `2 ^ 64`. -/
theorem pruning_points_deep (h : PruningChain m s data k b) (hd : data b = some d)
    (hne : b ≠ m.genesisHash) (hov : scoreOf data b + m.pruningDepth.toNat < 2 ^ 64) {fuel : Nat}
    (hfuel : scoreOf data b < fuel) :
    ∃ reply, m.expectedHeaderPruningPoint s fuel d.toCompact = .ok reply ∧
    Expected m s data fuel b d reply := by
  have hrec := h.stored hov
  obtain ⟨reply, hreply, hsample, hpoint, hplain⟩ :=
    expectedHeaderPruningPoint_ok h.toPruningLine hd hne hov hrec hfuel
  have hstored : ∀ x r, OnChain m.genesisHash data x b → x ≠ b → x ≠ m.genesisHash →
      s.pruningPoint x = some r → PointOf m data x r := fun x r hx hxb hg hr => by
    obtain ⟨_, r', _, hr', _, hp⟩ := hrec x hx hxb hg
    cases hr.symm.trans hr'
    exact hp
  exact ⟨reply, hreply, hsample, hpoint, hplain,
    fun x r hx hxb hg hr => (hstored x r hx hxb hg hr).mono h.toPruningLine hx hpoint,
    fun x r hx hxb hg hr => nextPruningPoints_ok h.toPruningLine hd hne hov hrec hfuel hreply hpoint
    hx (hstored x r hx hxb hg hr)⟩

end Chain

/-! ## 6. Two pruning depths -/

def rungPruning : PruningStores where
  blueScore h := (rungData h).map (·.blueScore)
  pruningPoint h :=
    if h = rung 0 then some origin else if h = rung 1 ∨ h = rung 2 then some (rung 0)
    else if h = rung 3 then some (rung 2) else none
  pruningSampleFromPov h :=
    if h = rung 1 ∨ h = rung 2 then some (rung 0) else if h = rung 3 then some (rung 2) else none

theorem rung_pruningLine {P : UInt64} (hP : P.toNat % 2 = 1) :
    PruningLine ⟨P, 2, rung 0⟩ rungPruning rungData 0 (rung 4) := by
  refine ⟨rung_run.line, fun x hx => ?_, forall_parent_rung (by decide), ?_, ?_,
    ⟨origin, show rungPruning.pruningPoint (rung 0) = _ by decide⟩⟩
  · obtain ⟨d, hd⟩ := rung_run.line.known x hx
    show (rungData x).map (·.blueScore) = _
    rw [show rungData x = some d from hd, blueScoreOf, show rungData x = some d from hd]
    rfl
  · show 0 < P.toNat % 2
    omega
  · show P.toNat % 2 < 2 - 0
    omega

theorem rung_pruningChain {P : UInt64} (hP : P.toNat % 2 = 1) {n : Nat} (hn : n ≤ 4)
    (hrun : ∀ i < n, 0 < i → ((rungData (rung i)).bind fun d =>
      (rungPruning.pruningSampleFromPov (rung i)).bind fun v =>
        (rungPruning.pruningPoint (rung i)).map fun r => decide (scoreOf rungData (rung i) < 5 ∧
          (⟨P, 2, rung 0⟩ : PruningPointManager).expectedHeaderPruningPoint rungPruning
          5 d.toCompact = .ok ⟨v, r⟩)) = some true) :
          PruningChain ⟨P, 2, rung 0⟩ rungPruning rungData 0 (rung n) := by
  have hline := rung_pruningLine hP
  refine ⟨hline.of_onPath ((onPath_rung_rung hn (le_refl 4)).mpr hn), fun x hx hne hg => ?_⟩
  obtain ⟨i, hi, rfl⟩ := (onPath_rung hn).mp hx
  have hin : i < n := lt_of_le_of_ne hi fun he => hne (by rw [he])
  have hi0 : 0 < i := pos_of_ne_zero fun he => hg (by rw [he])
  obtain ⟨d, hd, hrest⟩ := bind_eq_some_iff.mp (hrun i hin hi0)
  obtain ⟨v, hv, hrest⟩ := bind_eq_some_iff.mp hrest
  obtain ⟨r, hr, hdec⟩ := map_eq_some_iff.mp hrest
  obtain ⟨hfuel, hreply⟩ := of_decide_eq_true hdec
  exact ⟨d, ⟨v, r⟩, 5, hd, hfuel, hreply, hv, hr⟩

theorem pruning_points_rung : ∃ d reply, rungData (rung 4) = some d ∧
    (⟨1, 2, rung 0⟩ : PruningPointManager).expectedHeaderPruningPoint rungPruning 5 d.toCompact =
      .ok reply ∧ Expected ⟨1, 2, rung 0⟩ rungPruning rungData 5 (rung 4) d reply := by
  have hsome : (rungData (rung 4)).isSome = true := by decide
  obtain ⟨d, hd⟩ := isSome_iff_exists.mp hsome
  obtain ⟨reply, hreply, hexp⟩ := pruning_points_deep
    (rung_pruningChain (P := 1) (by decide) (le_refl 4) (by decide)) hd (by decide)
    (by decide) (show scoreOf rungData (rung 4) < 5 by decide)
  exact ⟨d, reply, hd, hreply, hexp⟩

/-- **A pruning depth near `2 ^ 64` wraps around**: the third block becomes the pruning point of the
    fourth, one above it. -/
theorem pruning_depth_wraps :
    PruningChain ⟨0xffffffffffffffff, 2, rung 0⟩ rungPruning rungData 0 (rung 3) ∧
    ∃ d reply, rungData (rung 3) = some d ∧
      (⟨0xffffffffffffffff, 2, rung 0⟩ : PruningPointManager).expectedHeaderPruningPoint rungPruning
        5 d.toCompact = .ok reply ∧
        ¬ PointOf ⟨0xffffffffffffffff, 2, rung 0⟩ rungData (rung 3) reply.pruningPoint := by
  refine ⟨rung_pruningChain (by decide) (by decide) (by decide), ?_⟩
  have hrun : ((rungData (rung 3)).map fun d => ((⟨0xffffffffffffffff, 2, rung 0⟩ :
      PruningPointManager).expectedHeaderPruningPoint rungPruning 5 d.toCompact)) =
      some (.ok ⟨rung 2, rung 2⟩) := by decide
  obtain ⟨d, hd, hreply⟩ := map_eq_some_iff.mp hrun
  refine ⟨d, _, hd, hreply, fun hpoint => ?_⟩
  have hlt : scoreOf rungData (rung 3) < scoreOf rungData (rung 2) + 0xffffffffffffffff := by decide
  have hdeep := (hpoint.deep (by decide)).2.1
  exact absurd hlt (not_lt.mpr hdeep)

end Sahyadri.Consensus
