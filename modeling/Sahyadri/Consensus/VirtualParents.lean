import Sahyadri.Consensus.Antipast
import Sahyadri.Consensus.MergeDepth

/-!
# The choice of the virtual parents, with a limit on their number and on the mergeset

Candidates are taken in a partly random order. One whose past adds too many blocks is replaced by
the block at which the search stopped, so the candidates change while the loop runs.

* `pick_virtual_parents_in_limits`: the parents that are returned, as long as the work of all blocks
  fits into 192 bits; `replacement_selected`: what happens when it does not.
-/

namespace Sahyadri.Consensus

open Lib Smt Core List Relation

/-! ## 1. The functions -/

inductive MergesetIncreaseResult where
  | accepted (increaseSize : Nat)
  | rejected (newCandidate : Hash)

/-- The loop of `mergeset_increase`; the count does not wrap. -/
def mergesetIncreaseLoop (s : ConsensusStores) (R : ReachabilityService)
    (selectedParents : List Hash)
    (budget : Nat) : Nat → List Hash → List Hash → Nat → Run Diverged MergesetIncreaseResult
  | 0, _, _, _ => .fail .outOfSteps
  | _ + 1, [], _, mergesetIncrease => .ok (.accepted mergesetIncrease)
  | fuel + 1, current :: queue, visited, mergesetIncrease =>
    if R.isDagAncestorOfAny current selectedParents then
      mergesetIncreaseLoop s R selectedParents budget fuel queue visited mergesetIncrease
    else if mergesetIncrease + 1 > budget then .ok (.rejected current)
    else
      match s.parents current with
      | none => .panicked
      | some currentParents =>
        -- `visited.insert` and `push_back`, parent by parent
        let next := scan (fun _ => false) currentParents queue visited
        mergesetIncreaseLoop s R selectedParents budget fuel next.1 next.2 (mergesetIncrease + 1)

def mergesetIncrease (s : ConsensusStores)
    (R : ReachabilityService) (fuel : Nat) (selectedParents : List Hash)
    (candidate : Hash) (budget : Nat) : Run Diverged MergesetIncreaseResult :=
  match s.parents candidate with
  | none => .panicked
  | some candidateParents =>
    mergesetIncreaseLoop s R selectedParents budget fuel candidateParents candidateParents.dedup 1

/-- The limits that the processor has. -/
structure ParentLimits where
  maxBlockParents : UInt8
  mergesetSizeLimit : UInt64

def maxVirtualParentCandidates (maxBlockParents : Nat) : Nat := maxBlockParents * 3

/-- `thread_rng`: the number drawn for a place, and a shuffle. -/
structure ThreadRng where
  draw : Nat → Nat
  shuffle : List Hash → List Hash
  shuffle_perm : ∀ l, (shuffle l).Perm l

def ThreadRng.genRange (rng : ThreadRng) (i len : Nat) : Nat := i + rng.draw i % (len - i)

variable (rng : ThreadRng)

theorem ThreadRng.genRange_lt {i len : Nat} (h : i < len) : rng.genRange i len < len := by
  have := Nat.mod_lt (rng.draw i) (Nat.sub_pos_of_lt h)
  unfold genRange
  omega

/-- The swaps of the partial shuffle, at the places listed. -/
def partialShuffle (rng : ThreadRng) : List Nat → Array Hash → Run Diverged (Array Hash)
  | [], slice => .ok slice
  | i :: places, slice =>
    if h : i < slice.size then
      partialShuffle rng places (slice.swap i (rng.genRange i slice.size) h (rng.genRange_lt h))
    else .panicked

/-- Half of the parents are candidates with the highest blue work, the rest is random. -/
def shuffleCandidates (rng : ThreadRng) (maxBlockParents : Nat) (candidates : List Hash) :
    Run Diverged (List Hash) :=
  let maxCandidates := maxVirtualParentCandidates maxBlockParents
  let half := maxBlockParents / 2
  if candidates.length > maxCandidates then do
    let slice ← partialShuffle rng (List.range' half (maxCandidates - half)) candidates.toArray
    return slice.toList.take maxCandidates
  else if candidates.length > half then
    return candidates.take half ++ rng.shuffle (candidates.drop half)
  else return candidates

/-- The loop over the candidates, with the virtual parents and the size of the mergeset. -/
def pickLoop (s : ConsensusStores)
    (R : ReachabilityService) (maxBlockParents mergesetSizeLimit fuel : Nat) :
    Nat → List Hash → List Hash → Nat → Run Diverged (List Hash × Nat)
  | 0, _, _, _ => .fail .outOfSteps
  | _ + 1, [], virtualParents, mergesetSize => .ok (virtualParents, mergesetSize)
  | steps + 1, candidate :: candidates, virtualParents, mergesetSize =>
    if mergesetSize ≥ mergesetSizeLimit ∨ virtualParents.length ≥ maxBlockParents then
      .ok (virtualParents, mergesetSize)
    else do
      match ← mergesetIncrease s R fuel virtualParents candidate
        (mergesetSizeLimit - mergesetSize) with
      | .accepted increaseSize =>
        pickLoop s R maxBlockParents mergesetSizeLimit fuel steps candidates
          (virtualParents ++ [candidate]) (mergesetSize + increaseSize)
      | .rejected newCandidate =>
        if R.isAnyDagAncestor candidates newCandidate then
          pickLoop s R maxBlockParents mergesetSizeLimit fuel steps candidates virtualParents
            mergesetSize
        else
          pickLoop s R maxBlockParents mergesetSizeLimit fuel steps
            (candidates.filter (fun h => !R.isDagAncestorOf newCandidate h) ++ [newCandidate])
            virtualParents mergesetSize

/-- `pick_virtual_parents` up to its two assertions. -/
def chooseVirtualParents (limits : ParentLimits) (s : ConsensusStores) (R : ReachabilityService)
    (rng : ThreadRng) (fuel : Nat) (selectedParent : Hash) (candidates : List Hash) :
    Run Diverged (List Hash × Nat) := do
  let maxBlockParents := limits.maxBlockParents.toNat
  let mergesetSizeLimit := limits.mergesetSizeLimit.toNat
  let candidates ← shuffleCandidates rng maxBlockParents candidates
  let chosen ← pickLoop s R maxBlockParents mergesetSizeLimit fuel fuel candidates
    [selectedParent] 1
  if chosen.2 ≤ mergesetSizeLimit ∧ chosen.1.length ≤ maxBlockParents then return chosen
  else .panicked

def pickVirtualParents (limits : ParentLimits)
    (m : SahyadriConsensusManager) (dm : BlockDepthManager)
    (s : ConsensusStores) (ds : DepthStores) (rng : ThreadRng) (fuel : Nat) (selectedParent : Hash)
    (candidates : List Hash) (pruningPoint : Hash) :
    Run Diverged (List Hash × SahyadriConsensusData) := do
  let chosen ← chooseVirtualParents limits s ds.reach rng fuel selectedParent candidates
  removeBoundedMergeBreakingParents m dm s ds fuel chosen.1 pruningPoint

/-! ## 2. The shuffle -/

theorem partialShuffle_ok (rng : ThreadRng) : ∀ (places : List Nat) (slice : Array Hash),
    (∀ i ∈ places, i < slice.size) → ∃ out, partialShuffle rng places slice = .ok out ∧
    out.Perm slice
  | [], slice, _ => ⟨slice, rfl, .refl _⟩
  | i :: places, slice, h => by
    obtain ⟨hi, hrest⟩ := forall_mem_cons.mp h
    obtain ⟨out, hout, hperm⟩ := partialShuffle_ok rng places
      (slice.swap i (rng.genRange i slice.size) hi (rng.genRange_lt hi)) (fun j hj => by
        rw [Array.size_swap]
        exact hrest j hj)
    refine ⟨out, ?_, hperm.trans (Array.swap_perm _ _)⟩
    rw [partialShuffle, dif_pos hi, hout]

theorem shuffleCandidates_ok (maxBlockParents : Nat) (candidates : List Hash) :
    ∃ l, shuffleCandidates rng maxBlockParents candidates = .ok l ∧ l.Subperm candidates := by
  unfold shuffleCandidates
  dsimp only
  split
  · rename_i hmany
    obtain ⟨out, hout, hperm⟩ := partialShuffle_ok rng (range'
      (maxBlockParents / 2) (maxVirtualParentCandidates maxBlockParents - maxBlockParents / 2))
      candidates.toArray (fun i hi => by
        have hlt := (mem_range'_1.mp hi).2
        unfold maxVirtualParentCandidates at hlt hmany
        rw [size_toArray]
        omega)
    refine ⟨_, by rw [hout]; rfl, (take_sublist _ _).subperm.trans ?_⟩
    exact (Array.perm_iff_toList_perm.mp hperm).subperm
  · split
    · refine ⟨_, rfl, List.Perm.subperm ?_⟩
      have hperm := (rng.shuffle_perm (candidates.drop (maxBlockParents / 2))).append_left
        (candidates.take (maxBlockParents / 2))
      rwa [take_append_drop] at hperm
    · exact ⟨_, rfl, .refl _⟩

section Pick

variable {m : SahyadriConsensusManager} {D : Dag Hash} {bits : Hash → UInt32} {bs : List Hash}
  {data : StoreReader} {R : ReachabilityService} {s : ConsensusStores} {vps : List Hash}

/-! ## 3. The search below a candidate -/

/-- Where the search goes from a block: nowhere from one that the selected parents have already. -/
def beyond (D : Dag Hash) (R : ReachabilityService) (selectedParents : List Hash) (x : Hash) :
    List Hash :=
  if R.isDagAncestorOfAny x selectedParents then [] else D.parents x

theorem isDagAncestorOfAny_iff (hreach : Reaches D bs R.isDagAncestorOf)
    (hvps : ∀ p ∈ vps, p ∈ bs) {x : Hash} (hx : x ∈ bs) :
    R.isDagAncestorOfAny x vps = true ↔ ∃ p ∈ vps, D.Below x p := by
  rw [ReachabilityService.isDagAncestorOfAny, any_eq_true]
  exact exists_congr fun p => and_congr_right fun hp => hreach x hx p (hvps p hp)

variable {fuel budget steps : Nat}

theorem mergesetIncreaseLoop_spec {vps start : List Hash}
    (hparents : ∀ x ∈ bs, s.parents x = some (D.parents x))
    (hin : ∀ x, (∃ p ∈ start, ReflTransGen (Leads (beyond D R vps) fun _ => false) p x) → x ∈ bs) :
    ∀ {queue visited done : List Hash} {count : Nat},
      Searching (beyond D R vps) (fun _ => false) start done queue visited →
      count = (done.filter fun x => !R.isDagAncestorOfAny x vps).length + 1 → count ≤ budget →
      bs.length < done.length + fuel →
      (∃ x, mergesetIncreaseLoop s R vps budget fuel queue visited count = .ok (.rejected x) ∧
        R.isDagAncestorOfAny x vps = false ∧
        ∃ p ∈ start, ReflTransGen (Leads (beyond D R vps) fun _ => false) p x) ∨
      ∃ (l : List Hash) (n : Nat),
      mergesetIncreaseLoop s R vps budget fuel queue visited count = .ok (.accepted n) ∧
        n = (l.filter fun x => !R.isDagAncestorOfAny x vps).length + 1 ∧ n ≤ budget ∧ l.Nodup ∧
        ∀ x, x ∈ l ↔ ∃ p ∈ start, ReflTransGen (Leads (beyond D R vps) fun _ => false) p x := by
  induction fuel with
  | zero =>
    intro queue visited done count h hcount hbudget hfuel
    have hle : visited.length ≤ bs.length :=
      (h.nodup.subperm fun x hx => hin x (h.reached x hx)).length_le
    have hsplit := h.split.length_eq
    rw [length_append] at hsplit
    omega
  | succ fuel ih =>
    intro queue visited done count h hcount hbudget hfuel
    cases queue with
    | nil =>
      have hperm : visited.Perm done := by
        have := h.split
        rwa [append_nil] at this
      refine .inr ⟨visited, count, rfl, ?_, hbudget, h.nodup, h.complete⟩
      rw [hcount, (hperm.filter _).length_eq]
    | cons current queue =>
      have hseen : current ∈ visited := h.split.mem_iff.mpr (mem_append_right _ mem_cons_self)
      have hstep := h.step
      have hfuel' : bs.length < (current :: done).length + fuel := by
        rw [length_cons]
        omega
      rw [mergesetIncreaseLoop]
      by_cases hskip : R.isDagAncestorOfAny current vps = true
      · rw [if_pos hskip]
        rw [beyond, if_pos hskip] at hstep
        refine ih hstep ?_ hbudget hfuel'
        rw [hcount, filter_cons_of_neg (by rw [hskip]; decide)]
      · rw [if_neg hskip]
        by_cases hover : count + 1 > budget
        · rw [if_pos hover]
          exact .inl ⟨current, rfl, Bool.eq_false_iff.mpr hskip, h.reached _ hseen⟩
        · rw [if_neg hover, hparents _ (hin _ (h.reached _ hseen))]
          rw [beyond, if_neg hskip] at hstep
          refine ih hstep ?_ (Nat.le_of_not_lt hover) hfuel'
          rw [hcount, filter_cons_of_pos (by rw [Bool.eq_false_iff.mpr hskip]; rfl), length_cons]

/-- **What the search below a candidate returns**: the number of blocks that the candidate adds, or
    one of them other than itself. -/
theorem mergesetIncrease_spec (hgrown : D.Grown bs)
    (hparents : ∀ x ∈ bs, s.parents x = some (D.parents x))
    (hreach : Reaches D bs R.isDagAncestorOf) {c : Hash} (hne : vps ≠ []) (hvps : ∀ p ∈ vps, p ∈ bs)
    (hc : c ∈ bs) (hnew : ¬ ∃ p ∈ vps, D.Below c p) (hbudget : 1 ≤ budget)
    (hfuel : bs.length < fuel) : (∃ x, mergesetIncrease s R fuel vps c budget = .ok (.rejected x) ∧
      D.Past x c ∧ ¬ ∃ p ∈ vps, D.Below x p) ∨
    ∃ (l : List Hash) (n : Nat), mergesetIncrease s R fuel vps c budget = .ok (.accepted n) ∧
    n = l.length ∧ n ≤ budget ∧ l.Nodup ∧ ∀ x, x ∈ l ↔ D.Below x c ∧ ¬ ∃ p ∈ vps, D.Below x p := by
  obtain ⟨v, hv⟩ := exists_mem_of_ne_nil _ hne
  -- a block that is not below the chosen parents is above the genesis block
  have hroot : ∀ {x}, (¬ ∃ p ∈ vps, D.Below x p) → x ≠ D.genesis := fun hx he =>
    hx ⟨v, hv, he ▸ hgrown.genesis_below (hvps v hv)⟩
  have hsound : ∀ x, (∃ p ∈ D.parents c, ReflTransGen (Leads (beyond D R vps) fun _ => false) p x) →
      D.Past x c := by
    intro x hx
    obtain ⟨p, hp, hpath⟩ := hx
    induction hpath with
    | refl => exact Dag.past_of_parent (hroot hnew) hp
    | @tail y x _ hstep ih =>
      have hy := hstep.1
      unfold beyond at hy
      split at hy
      · exact absurd hy not_mem_nil
      · rename_i hfresh
        have hyb := hgrown.mem_of_past hc ih
        exact (Dag.past_of_parent
          (hroot (mt (isDagAncestorOfAny_iff hreach hvps hyb).mpr hfresh)) hy).trans ih
  have hcomplete : ∀ x, D.Past x c → (¬ ∃ p ∈ vps, D.Below x p) →
      ∃ p ∈ D.parents c, ReflTransGen (Leads (beyond D R vps) fun _ => false) p x := by
    intro x hx
    induction hx using TransGen.head_induction_on with
    | single he => exact fun _ => ⟨_, he.2, .refl⟩
    | @head x y he hyc ih =>
      intro hfresh
      have hxy : D.Past x y := he.past
      have hyfresh : ¬ ∃ p ∈ vps, D.Below y p := fun hy => by
        obtain ⟨p, hp, hyp⟩ := hy
        exact hfresh ⟨p, hp, .inr (hxy.below hyp)⟩
      obtain ⟨p, hp, hpath⟩ := ih hyfresh
      refine ⟨p, hp, hpath.tail ⟨?_, rfl⟩⟩
      rw [beyond,
        if_neg (mt (isDagAncestorOfAny_iff hreach hvps (hgrown.mem_of_past hc hyc)).mp hyfresh)]
      exact he.2
  have hnd : (D.parents c).Nodup := (hgrown.of_mem hc (hroot hnew)).2.2.imp fun h => h.1
  rw [mergesetIncrease, hparents c hc]
  dsimp only
  rw [dedup_eq_self.mpr hnd]
  have hfresh : ∀ {x}, D.Below x c → (R.isDagAncestorOfAny x vps = true ↔ ∃ p ∈ vps, D.Below x p) :=
    fun hx =>
    isDagAncestorOfAny_iff hreach hvps (hgrown.mem_of_below hc hx)
  rcases mergesetIncreaseLoop_spec hparents (fun x hx => hgrown.mem_of_past hc (hsound x hx))
    (searching_start hnd) rfl hbudget (by rw [length_nil, zero_add]; exact hfuel) with
    ⟨x, hrun, hx, hpath⟩ | ⟨l, n, hrun, hn, hle, hlnd, hl⟩
  · have hpast := hsound x hpath
    exact .inl ⟨x, hrun, hpast, mt (hfresh (.inr hpast)).mpr (Bool.eq_false_iff.mp hx)⟩
  · refine .inr ⟨c :: l.filter fun x => !R.isDagAncestorOfAny x vps, n, hrun, hn, hle, ?_,
      fun x => ?_⟩
    · refine nodup_cons.mpr ⟨fun hmem => ?_, hlnd.filter _⟩
      exact hgrown.past_irrefl hc (hsound c ((hl c).mp (mem_filter.mp hmem).1))
    · rw [mem_cons, mem_filter, hl, Bool.not_eq_true', Bool.eq_false_iff]
      constructor
      · intro hx
        rcases hx with rfl | ⟨hpath, hx⟩
        · exact ⟨.refl _, hnew⟩
        · have hpast := hsound x hpath
          exact ⟨.inr hpast, mt (hfresh (.inr hpast)).mpr hx⟩
      · intro hx
        obtain ⟨hbelow, hx⟩ := hx
        rcases hbelow with rfl | hpast
        · exact .inl rfl
        · exact .inr ⟨hcomplete x hpast hx, mt (hfresh (.inr hpast)).mp hx⟩

/-! ## 4. The loop over the candidates -/

/-- The state of the loop. -/
structure Picking (D : Dag Hash) (bs : List Hash) (data : StoreReader) (sp : Hash)
    (maxParents limit : Nat) (candidates vps : List Hash) (size : Nat) : Prop where
  selected : sp ∈ vps
  old : ∀ x ∈ vps ++ candidates, x ∈ bs
  antichain : (vps ++ candidates).Pairwise D.Anticone
  lighter : ∀ x ∈ vps ++ candidates, x ≠ sp → workRank data x < workRank data sp
  counted : ∃ l : List Hash, l.Nodup ∧ l.length = size ∧ ∀ x, x ∈ l ↔ (∃ p ∈ vps, D.Below x p) ∧
    ¬ D.Past x sp
  small : size ≤ limit
  few : vps.length ≤ maxParents

variable {sp c : Hash} {maxParents limit size : Nat} {candidates vps : List Hash}
variable {cs l l' ps candidates' new : List Hash}

theorem Picking.mono (h : Picking D bs data sp maxParents limit candidates vps size)
    (hsub : candidates'.Sublist candidates) :
    Picking D bs data sp maxParents limit candidates' vps size := by
  have hall := hsub.append_left vps
  exact ⟨h.selected, fun x hx => h.old x (hall.subset hx), h.antichain.sublist hall,
    fun x hx => h.lighter x (hall.subset hx), h.counted, h.small, h.few⟩

section

variable (h : Picking D bs data sp maxParents limit (c :: candidates) vps size)

include h

theorem Picking.apart : ∀ p ∈ vps, D.Anticone p c :=
  fun p hp => (pairwise_append.mp h.antichain).2.2 p hp c mem_cons_self

theorem Picking.accept (hnd : new.Nodup)
    (hnew : ∀ x, x ∈ new ↔ D.Below x c ∧ ¬ ∃ p ∈ vps, D.Below x p)
    (hsize : size + new.length ≤ limit) (hfew : vps.length < maxParents) :
    Picking D bs data sp maxParents limit candidates (vps ++ [c]) (size + new.length) := by
  obtain ⟨l, hlnd, hlen, hl⟩ := h.counted
  have hassoc : vps ++ [c] ++ candidates = vps ++ c :: candidates := append_assoc _ _ _
  refine ⟨mem_append_left _ h.selected, hassoc ▸ h.old, hassoc ▸ h.antichain, hassoc ▸ h.lighter,
    ⟨l ++ new, ?_, by rw [length_append, hlen], fun x => ?_⟩, hsize, by
      rw [length_append]
      exact hfew⟩
  · refine nodup_append.mpr ⟨hlnd, hnd, fun a ha b hb he => ?_⟩
    exact ((hnew b).mp hb).2 (he ▸ ((hl a).mp ha).1)
  · rw [mem_append, hl, hnew]
    constructor
    · intro hx
      rcases hx with ⟨⟨p, hp, hxp⟩, hnot⟩ | ⟨hxc, hnot⟩
      · exact ⟨⟨p, mem_append_left _ hp, hxp⟩, hnot⟩
      · exact ⟨⟨c, mem_append_right _ mem_cons_self, hxc⟩,
          fun hpast => hnot ⟨sp, h.selected, .inr hpast⟩⟩
    · intro hx
      obtain ⟨⟨p, hp, hxp⟩, hnot⟩ := hx
      by_cases hold : ∃ p ∈ vps, D.Below x p
      · exact .inl ⟨hold, hnot⟩
      · rcases mem_append.mp hp with hp | hp
        · exact absurd ⟨p, hp, hxp⟩ hold
        · exact .inr ⟨mem_singleton.mp hp ▸ hxp, hold⟩

theorem Picking.replace (hsound : Sound m D bits bs data)
    (hreach : Reaches D bs R.isDagAncestorOf) {x : Hash} (hpast : D.Past x c)
    (hnew : ¬ ∃ p ∈ vps, D.Below x p) (hnone : ¬ R.isAnyDagAncestor candidates x = true) :
    Picking D bs data sp maxParents limit
      (candidates.filter (fun h => !R.isDagAncestorOf x h) ++ [x]) vps size := by
  have hc : c ∈ bs := h.old c (mem_append_right _ mem_cons_self)
  have hxb := hsound.grown.mem_of_past hc hpast
  have hkept : (vps ++ candidates.filter fun h => !R.isDagAncestorOf x h).Sublist
      (vps ++ c :: candidates) := ((filter_sublist).trans (sublist_cons_self _ _)).append_left vps
  have hassoc : vps ++ (candidates.filter (fun h => !R.isDagAncestorOf x h) ++ [x]) =
      vps ++ candidates.filter (fun h => !R.isDagAncestorOf x h) ++ [x] := (append_assoc _ _ _).symm
  -- the new candidate is apart from the chosen parents and from the candidates that stay
  have hapart : ∀ y ∈ vps ++ candidates.filter (fun h => !R.isDagAncestorOf x h),
      D.Anticone y x := by
    intro y hy
    rcases mem_append.mp hy with hy | hy
    · exact ⟨fun he => hnew ⟨y, hy, .inl he.symm⟩, fun hyx => (h.apart y hy).2.1 (hyx.trans hpast),
        fun hxy => hnew ⟨y, hy, .inr hxy⟩⟩
    · obtain ⟨hy, hstay⟩ := mem_filter.mp hy
      have hyb := h.old y (mem_append_right _ (mem_cons_of_mem _ hy))
      have hnot : ¬ D.Below x y := fun hxy => by
        rw [(hreach x hxb y hyb).mpr hxy] at hstay
        cases hstay
      have hnot' : ¬ D.Below y x :=
        fun hyx => hnone (any_eq_true.mpr ⟨y, hy, (hreach y hyb x hxb).mpr hyx⟩)
      exact ⟨fun he => hnot (.inl he.symm), fun hyx => hnot' (.inr hyx), fun hxy => hnot (.inr hxy)⟩
  have hcsp : c ≠ sp := fun he => (h.apart sp h.selected).1 he.symm
  have hlight := h.lighter c (mem_append_right _ mem_cons_self) hcsp
  refine ⟨h.selected, ?_, ?_, ?_, h.counted, h.small, h.few⟩
  · intro y hy
    rw [hassoc] at hy
    rcases mem_append.mp hy with hy | hy
    · exact h.old y (hkept.subset hy)
    · exact mem_singleton.mp hy ▸ hxb
  · rw [hassoc]
    exact pairwise_append.mpr ⟨h.antichain.sublist hkept, pairwise_singleton _ _, fun y hy z hz =>
      mem_singleton.mp hz ▸ hapart y hy⟩
  · intro y hy hne
    rw [hassoc] at hy
    rcases mem_append.mp hy with hy | hy
    · exact h.lighter y (hkept.subset hy) hne
    · rw [mem_singleton.mp hy]
      exact (hsound.workRank_lt hc hpast).trans hlight

end

/-- A bound on the rounds that a list of candidates takes. -/
def rounds (data : StoreReader) (candidates : List Hash) : Nat :=
  (candidates.map fun c => workRank data c + 1).sum

theorem rounds_le_of_sublist (h : l.Sublist l') : rounds data l ≤ rounds data l' :=
  (h.map _).sum_le_sum fun _ _ => Nat.zero_le _

theorem rounds_le_of_subperm (h : l.Subperm l') : rounds data l ≤ rounds data l' := by
  obtain ⟨l₀, hperm, hsub⟩ := h
  rw [rounds, ← (hperm.map _).sum_eq]
  exact rounds_le_of_sublist hsub

/-- **The loop ends** with parents that keep the limits. A replaced candidate gives way to one of
    smaller blue work. -/
theorem pickLoop_ok (hsound : Sound m D bits bs data)
    (hparents : ∀ x ∈ bs, s.parents x = some (D.parents x))
    (hreach : Reaches D bs R.isDagAncestorOf) (hfuel : bs.length < fuel) :
    ∀ {candidates vps : List Hash} {size : Nat}, rounds data candidates < steps →
      Picking D bs data sp maxParents limit candidates vps size → ∃ vps' size',
      pickLoop s R maxParents limit fuel steps candidates vps size = .ok (vps', size') ∧
        Picking D bs data sp maxParents limit [] vps' size' := by
  induction steps with
  | zero => exact fun h => absurd h (Nat.not_lt_zero _)
  | succ steps ih =>
    intro candidates vps size hsteps h
    cases candidates with
    | nil => exact ⟨vps, size, rfl, h⟩
    | cons c candidates =>
      rw [rounds, map_cons, sum_cons] at hsteps
      have hrest : rounds data candidates < steps := by
        unfold rounds
        omega
      rw [pickLoop]
      by_cases hfull : size ≥ limit ∨ vps.length ≥ maxParents
      · exact ⟨vps, size, if_pos hfull, h.mono (nil_sublist _)⟩
      · rw [if_neg hfull]
        obtain ⟨hroom, hfew⟩ := not_or.mp hfull
        have hc : c ∈ bs := h.old c (mem_append_right _ mem_cons_self)
        have hnew : ¬ ∃ p ∈ vps, D.Below c p := fun hbelow => by
          obtain ⟨p, hp, hcp⟩ := hbelow
          exact hcp.elim (fun he => (h.apart p hp).1 he.symm) (h.apart p hp).2.2
        have hbudget : 1 ≤ limit - size := by omega
        rcases mergesetIncrease_spec hsound.grown hparents hreach (ne_nil_of_mem h.selected)
          (fun p hp => h.old p (mem_append_left _ hp)) hc hnew hbudget
          hfuel with ⟨x, hrun, hpast, hx⟩ | ⟨l, n, hrun, hn, hle, hnd, hl⟩
        · rw [hrun, Run.ok_bind]
          dsimp only
          by_cases hany : R.isAnyDagAncestor candidates x = true
          · rw [if_pos hany]
            exact ih hrest (h.mono (sublist_cons_self _ _))
          · rw [if_neg hany]
            refine ih ?_ (h.replace hsound hreach hpast hx hany)
            have hrank := hsound.workRank_lt hc hpast
            have hfilter : rounds data (candidates.filter fun h => !R.isDagAncestorOf x h) ≤
                rounds data candidates := rounds_le_of_sublist filter_sublist
            unfold rounds at hfilter ⊢
            rw [map_append, sum_append, map_singleton, sum_singleton]
            omega
        · rw [hrun, Run.ok_bind]
          rw [hn] at hle ⊢
          exact ih hrest (h.accept hnd hl (by omega) (Nat.lt_of_not_le hfew))

/-! ## 5. The parents -/

theorem Picking.start (hgrown : D.Grown bs)
    (hlimit : 1 ≤ limit) (hmax : 1 ≤ maxParents) (hsp : sp ∈ bs)
    (hold : ∀ c ∈ candidates, c ∈ bs) (hanti : (sp :: candidates).Pairwise D.Anticone)
    (hlight : ∀ c ∈ candidates, workRank data c < workRank data sp) :
    Picking D bs data sp maxParents limit candidates [sp] 1 := by
  refine ⟨mem_cons_self, forall_mem_cons.mpr ⟨hsp, hold⟩, hanti, ?_, ?_, hlimit, hmax⟩
  · exact forall_mem_cons.mpr ⟨fun hne => absurd rfl hne, fun c hc _ => hlight c hc⟩
  · refine ⟨[sp], nodup_singleton _, rfl, fun x => ?_⟩
    rw [mem_singleton]
    constructor
    · intro hx
      subst hx
      exact ⟨⟨x, mem_cons_self, .refl x⟩, hgrown.past_irrefl hsp⟩
    · intro hx
      obtain ⟨⟨p, hp, hxp⟩, hnot⟩ := hx
      exact (mem_singleton.mp hp ▸ hxp).resolve_right hnot

variable {d : SahyadriConsensusData}

theorem OnParents.selected_eq (hsound : Sound m D bits bs data) (hm : OnParents D data ps d cs)
    (hold : ∀ p ∈ ps, p ∈ bs) (hsp : sp ∈ ps)
    (hlight : ∀ p ∈ ps, p ≠ sp → workRank data p < workRank data sp) : d.selectedParent = sp := by
  by_contra hne
  have hlt := hlight _ hm.parent hne
  obtain ⟨dp, hdp⟩ := hsound.exists_data (hold _ hm.parent)
  obtain ⟨dsp, hdsp⟩ := hsound.exists_data (hold _ hsp)
  rw [workRank, workRank, hdp, hdsp] at hlt
  exact absurd (hm.best sp hsp) (not_le.mpr (keyOf_lt_of_work hdp hdsp hlt))

theorem OnParents.mergesetSize_eq (hm : OnParents D data ps d cs) :
    d.mergesetSize = cs.length + 1 := by
  have hlen := hm.split.length_eq
  rw [length_append] at hlen
  rw [SahyadriConsensusData.mergesetSize, hm.blues, length_cons, ← hlen]
  omega

theorem Picking.size_eq (hgrown : D.Grown bs)
    (h : Picking D bs data sp maxParents limit [] vps size)
    (hm : OnParents D data vps d cs) (hsel : d.selectedParent = sp) : d.mergesetSize = size := by
  obtain ⟨l, hnd, hlen, hl⟩ := h.counted
  have hsp := h.old sp (mem_append_left _ h.selected)
  have hsel' : sp ∉ cs := fun hmem => ((hm.mem sp).mp hmem).2 (hsel ▸ .refl _)
  have hperm : l.Perm (sp :: cs) := by
    refine (perm_ext_iff_of_nodup hnd (nodup_cons.mpr ⟨hsel', hm.nodup⟩)).mpr fun x => ?_
    rw [hl, mem_cons, hm.mem, hsel]
    constructor
    · intro hx
      exact (em (x = sp)).imp id fun hne => ⟨hx.1, fun hb => hb.elim hne hx.2⟩
    · intro hx
      rcases hx with hx | ⟨hx, hnot⟩
      · rw [hx]
        exact ⟨⟨sp, h.selected, .refl sp⟩, hgrown.past_irrefl hsp⟩
      · exact ⟨hx, fun hp => hnot (.inr hp)⟩
  rw [hm.mergesetSize_eq, ← hlen, hperm.length_eq, length_cons]

end Pick

/-- **The virtual parents keep all limits.** For every shuffle the loop ends, the assertions hold
    and the running count is the size of the mergeset; what is left after the merge depth bound is
    an antichain with the selected parent, within both limits. -/
theorem pick_virtual_parents_in_limits {m : SahyadriConsensusManager}
    {dm : BlockDepthManager} {D : Dag Hash} {bits : Hash → UInt32} {bs candidates : List Hash}
    {ds : DepthStores} {pp sp : Hash} {fuel : Nat} (limits : ParentLimits)
    (rng : ThreadRng) (h : Built m D bits bs ds.data) (hw : Weighted m bits bs)
    (hcount : bs.length < 2 ^ 64) (hview : DepthView D bs ds) (hpp : pp ∈ bs)
    (hmax : 1 ≤ limits.maxBlockParents.toNat)
    (hlimit : 1 ≤ limits.mergesetSizeLimit.toNat) (hsp : sp ∈ bs)
    (hold : ∀ c ∈ candidates, c ∈ bs) (hanti : (sp :: candidates).Pairwise D.Anticone)
    (hlight : ∀ c ∈ candidates, workRank ds.data c < workRank ds.data sp)
    (hfuel : bs.length + 1 + rounds ds.data candidates < fuel) : ∃ chosen size d₀ kept d,
      chooseVirtualParents limits
        (ds.consensus D bits bs) ds.reach rng fuel sp candidates = .ok (chosen, size) ∧
      m.sahyadriConsensus (ds.consensus D bits bs) fuel chosen = .ok d₀ ∧ d₀.mergesetSize = size ∧
      pickVirtualParents limits m dm
        (ds.consensus D bits bs) ds rng fuel sp candidates pp = .ok (kept, d) ∧
      kept.Pairwise D.Anticone ∧ kept.length ≤ limits.maxBlockParents.toNat ∧ sp ∈ kept ∧
      d.selectedParent = sp ∧ d.mergesetSize ≤ limits.mergesetSizeLimit.toNat := by
  have hsound := h.sound hw
  have hreach := hview.tree.dag
  have hlen : bs.length + 1 < fuel := by omega
  -- the shuffle and the loop
  obtain ⟨l, hl, hsubperm⟩ := shuffleCandidates_ok rng limits.maxBlockParents.toNat candidates
  have hl' : (sp :: l).Pairwise D.Anticone := by
    obtain ⟨l', hperm, hsub⟩ := hsubperm
    exact ((hperm.cons sp).pairwise_iff Dag.Anticone.symm).mp (hanti.sublist (hsub.cons_cons sp))
  have hrounds : rounds ds.data l < fuel :=
    lt_of_le_of_lt (rounds_le_of_subperm hsubperm) (by omega)
  have hstart : Picking
      D bs ds.data sp limits.maxBlockParents.toNat limits.mergesetSizeLimit.toNat l [sp] 1 :=
    .start h.grown hlimit hmax hsp (fun c hc => hold c (hsubperm.subset hc)) hl' fun c hc =>
      hlight c (hsubperm.subset hc)
  obtain ⟨chosen, size, hloop, hpick⟩ :=
    pickLoop_ok (s := ds.consensus D bits bs) hsound (fun x hx => if_pos hx)
    hreach (Nat.lt_of_succ_lt hlen) hrounds hstart
  have hchoose : chooseVirtualParents limits
      (ds.consensus D bits bs) ds.reach rng fuel sp candidates = .ok (chosen, size) := by
    rw [chooseVirtualParents, hl, Run.ok_bind, hloop]
    exact if_pos ⟨hpick.small, hpick.few⟩
  -- the data of the chosen parents, and of those that are kept
  have hold' : ∀ p ∈ chosen, p ∈ bs := fun p hp => hpick.old p (mem_append_left _ hp)
  have hanti' : chosen.Pairwise D.Anticone := (pairwise_append.mp hpick.antichain).1
  have hlight' : ∀ p ∈ chosen, p ≠ sp → workRank ds.data p < workRank ds.data sp := fun p hp =>
    hpick.lighter p (mem_append_left _ hp)
  obtain ⟨d₀, cs₀, hd₀, hm₀⟩ := h.onParents hw hcount hreach (Nat.lt_of_succ_lt hlen)
    (ne_nil_of_mem hpick.selected) hold' hanti'
  have hsel₀ := hm₀.selected_eq hsound hold' hpick.selected hlight'
  have hsize := hpick.size_eq h.grown hm₀ hsel₀
  obtain ⟨root₀, d, cs, -, hrun, hkept, -, hm⟩ :=
    removeBoundedMergeBreakingParents_ok dm h hw hcount hview hpp hlen hold' hanti' hd₀ hm₀
  rw [hsel₀] at hkept
  have hsub : (standing ds.reach d₀ root₀ chosen).Sublist chosen := filter_sublist
  have hsel := hm.selected_eq hsound (fun p hp => hold' p (hsub.subset hp)) hkept fun p hp =>
    hlight' p (hsub.subset hp)
  refine ⟨chosen, size, d₀, _, d, hchoose, hd₀, hsize, ?_, hanti'.sublist hsub,
    le_trans hsub.length_le hpick.few, hkept, hsel, ?_⟩
  · rw [pickVirtualParents, hchoose]
    exact hrun
  · have hle : cs.length ≤ cs₀.length := (hm.nodup.subperm fun x hx => by
      obtain ⟨⟨p, hp, hxp⟩, hnot⟩ := (hm.mem x).mp hx
      exact (hm₀.mem x).mpr ⟨⟨p, hsub.subset hp, hxp⟩, by rwa [hsel₀, ← hsel]⟩).length_le
    have hsmall := hpick.small
    rw [hm.mergesetSize_eq]
    rw [hm₀.mergesetSize_eq] at hsize
    omega

def reversing : ThreadRng := ⟨fun _ => 0, List.reverse, reverse_perm⟩

abbrev deepFuel : Nat := 16 + rounds deepData [hashOf 5, hashOf 8]

/-- The candidates 5 and 8 over the selected parent 15, with room for five blocks. -/
theorem pick_of_three : ∃ chosen size d₀ kept d,
    chooseVirtualParents ⟨2, 5⟩ (deepStores.consensus deep deepBits deepAll) deepStores.reach
        reversing deepFuel (hashOf 15) [hashOf 5, hashOf 8] = .ok (chosen, size) ∧
    deepManager.sahyadriConsensus (deepStores.consensus deep deepBits deepAll)
        deepFuel chosen = .ok d₀ ∧ d₀.mergesetSize = size ∧
    pickVirtualParents ⟨2, 5⟩ deepManager deepDepths (deepStores.consensus deep deepBits deepAll)
        deepStores reversing deepFuel (hashOf 15) [hashOf 5, hashOf 8] (hashOf 0) = .ok (kept, d) ∧
    kept.Pairwise deep.Anticone ∧ kept.length ≤ 2 ∧ hashOf 15 ∈ kept ∧
    d.selectedParent = hashOf 15 ∧ d.mergesetSize ≤ 5 := by
  have hv : Admissible deep deepAll (hashOf 9) :=
    admissible_of_grown deep_built.1.grown (by decide)
  have hparents : deep.parents (hashOf 9) = hashOf 15 :: [hashOf 5, hashOf 8] := by decide
  exact pick_virtual_parents_in_limits
    ⟨2, 5⟩ reversing deep_built.1 deep_built.2 (by decide) deep_view (by decide)
    (by decide) (by decide) (by decide) (by decide) (hparents ▸ hv.antichain) (by decide)
    (add_lt_add_right (by decide : 15 < 16) _)

/-- The genesis block 0 and 1 over it; over 1 there are 2 and 3, and 4 and 5. -/
def heavy : Dag Hash where
  genesis := hashOf 0
  parents b :=
    if b = hashOf 1 then [hashOf 0]
    else if b = hashOf 2 ∨ b = hashOf 4 then [hashOf 1]
    else if b = hashOf 3 then [hashOf 2]
    else if b = hashOf 5 then [hashOf 4]
    else []

/-- The work of 1 is nearly `2 ^ 192`, that of 2 about `2 ^ 144` and that of 4 about `2 ^ 136`. -/
def heavyBits (h : Hash) : UInt32 :=
  if h = hashOf 1 then 0x0b000001 else if h = hashOf 2 then 0x11000001
  else if h = hashOf 4 then 0x12000001 else 0x207fffff

def heavyBlocks : List Hash := [5, 4, 3, 2, 1].map hashOf

def heavyAll : List Hash := heavyBlocks ++ [hashOf 0]

def heavyData : StoreReader := buildData deepManager heavy heavyBits heavyBlocks

def heavyStores : DepthStores :=
  ⟨heavyData, fun _ => some origin, fun _ => some origin, treeService heavy heavyData 6⟩

theorem heavy_built : Built deepManager heavy heavyBits heavyAll heavyData :=
  buildData_built (by decide)

theorem heavy_view : DepthView heavy heavyAll heavyStores := by
  refine ⟨treeService_serves heavy_built.grown fun b hb p hp => ?_,
    fun t b _ => ⟨origin, by cases t <;> rfl, .inl rfl⟩⟩
  have hparent : ∀ b ∈ heavyAll, ∀ p ∈ chainParent heavy.genesis heavyData b,
      b ≠ heavy.genesis ∧ p ∈ heavy.parents b := by decide
  exact Dag.past_of_parent (hparent b hb p hp).1 (hparent b hb p hp).2

/-- **A replacement that is heavier than the selected parent.** The blue work of 3 and 5 has
    wrapped; 5 is replaced by 4, which becomes the selected parent, and the mergeset exceeds the
    limit. -/
theorem replacement_selected : Built deepManager heavy heavyBits heavyAll heavyStores.data ∧
    (∀ b ∈ heavyAll, 0 < deepManager.workOf (heavyBits b)) ∧
    DepthView heavy heavyAll heavyStores ∧ heavy.Anticone (hashOf 3) (hashOf 5) ∧
    workRank heavyData (hashOf 5) < workRank heavyData (hashOf 3) ∧ ∃ kept d,
      pickVirtualParents ⟨2, 2⟩ deepManager deepDepths
        (heavyStores.consensus heavy heavyBits heavyAll) heavyStores reversing 100
        (hashOf 3) [hashOf 5] (hashOf 0) = .ok (kept, d) ∧
      d.selectedParent = hashOf 4 ∧ d.mergesetSize = 3 := by
  have hrun : (do
      let r ← pickVirtualParents ⟨2, 2⟩ deepManager deepDepths
        (heavyStores.consensus heavy heavyBits heavyAll) heavyStores reversing 100
        (hashOf 3) [hashOf 5] (hashOf 0)
      return (r.2.selectedParent, r.2.mergesetSize)) = (.ok (hashOf 4, 3) : Run Diverged _) := by
    decide
  refine ⟨heavy_built, by decide, heavy_view, ?_, by decide, ?_⟩
  · exact (heavy_built.grown.anticone_iff le_rfl (by decide) (by decide)).mpr (by decide)
  · obtain ⟨r, hr, hpair⟩ := Run.bind_eq_ok.mp hrun
    obtain ⟨hselected, hsize⟩ := Prod.mk.inj (Except.ok.inj hpair)
    exact ⟨r.1, r.2, hr, hselected, hsize⟩

end Sahyadri.Consensus
