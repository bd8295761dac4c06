import Sahyadri.Consensus.Tree
import Sahyadri.Lib.Largest

/-!
# The block window of the difficulty and of the median time, with its cache

The window of a block is built by a walk down its selected chain that pushes the sampled blocks of
each mergeset into a heap of bounded size. The walk ends early when nothing below can enter the
heap, or at a chain block whose window is cached.

* `window_independent_of_cache`: the window has the largest of these blocks, whatever is cached.
-/

namespace Sahyadri.Consensus

open Lib Smt Core List

/-! ## 1. The functions -/

def SahyadriConsensusData.descendingMergesetWithoutSelectedParent (d : SahyadriConsensusData)
    (s : ConsensusStores) : Run Diverged (List SortableBlock) := do
  let blues ← sortables s (d.mergesetBlues.drop 1).reverse
  let reds ← sortables s d.mergesetReds.reverse
  mergeJoinBy (fun a b => b.key < a.key) blues reds

inductive WindowType where
  | difficultyWindow
  | medianTimeWindow
  | varyingWindow (size : Nat)

/-- A heap is the list of its blocks, the least first. -/
abbrev BlockWindowHeap := List SortableBlock

abbrev BlockWindowCache := Hash → Option BlockWindowHeap

/-- `SampledWindowManager`, with the sizes that its difficulty manager has as well. -/
structure SampledWindowManager where
  genesisHash : Hash
  difficultyWindowSize : Nat
  difficultySampleRate : UInt64
  pastMedianTimeWindowSize : Nat
  pastMedianTimeSampleRate : UInt64
  blockWindowCacheForDifficulty : BlockWindowCache
  blockWindowCacheForPastMedianTime : BlockWindowCache
  /-- `headers_store.get_daa_score`. -/
  daaScore : Hash → Option UInt64

inductive SampledBlock where
  | sampled (block : SortableBlock)
  | nonDaa (hash : Hash)

inductive WindowError where
  | insufficientDaaWindowSize (size : Nat)
  deriving DecidableEq, Repr

namespace SampledWindowManager

variable (w : SampledWindowManager)

def windowSize : WindowType → Nat
  | .difficultyWindow => w.difficultyWindowSize
  | .medianTimeWindow => w.pastMedianTimeWindowSize
  | .varyingWindow size => size

def sampleRate : WindowType → UInt64
  | .difficultyWindow => w.difficultySampleRate
  | .medianTimeWindow => w.pastMedianTimeSampleRate
  | .varyingWindow _ => 1

def cache : WindowType → BlockWindowCache
  | .difficultyWindow => w.blockWindowCacheForDifficulty
  | .medianTimeWindow => w.blockWindowCacheForPastMedianTime
  | .varyingWindow _ => fun _ => none

def difficultyFullWindowSize : UInt64 :=
  UInt64.ofNat w.difficultyWindowSize * w.difficultySampleRate

def lowestDaaBlueScore (d : SahyadriConsensusData) : UInt64 :=
  max d.blueScore w.difficultyFullWindowSize - w.difficultyFullWindowSize

/-- The `filter_map` of `sampled_mergeset_iterator`. -/
def sampleBlocks (s : ConsensusStores) (rate daa threshold : UInt64) :
    UInt64 → List SortableBlock → Run Diverged (List SampledBlock)
  | _, [] => .ok []
  | index, block :: blocks =>
    match s.data block.hash with
    | none => .panicked
    | some d =>
      if d.blueScore < threshold then do
        let rest ← sampleBlocks s rate daa threshold index blocks
        return .nonDaa block.hash :: rest
      else if (daa + (index + 1)) % rate = 0 then do
        let rest ← sampleBlocks s rate daa threshold (index + 1) blocks
        return .sampled block :: rest
      else sampleBlocks s rate daa threshold (index + 1) blocks

/-- `sampled_mergeset_iterator`. -/
def sampledMergeset (s : ConsensusStores) (rate : UInt64) (d : SahyadriConsensusData)
    (selectedParentBlueWork : BlueWorkType) : Run Diverged (List SampledBlock) :=
  match w.daaScore d.selectedParent with
  | none => .panicked
  | some daa => do
    let rest ← d.descendingMergesetWithoutSelectedParent s
    sampleBlocks s rate daa (w.lowestDaaBlueScore d) 0
      (⟨d.selectedParent, selectedParentBlueWork⟩ :: rest)

/-- `push_mergeset`; without an inserter for the others it returns at the first block that the heap
    refuses. -/
def pushMergeset (inserter : Bool) (size : Nat) :
    List SampledBlock → BlockWindowHeap → List Hash → BlockWindowHeap × List Hash
  | [], heap, nonDaa => (heap, nonDaa)
  | .sampled block :: rest, heap, nonDaa =>
    if inserter || (tryPush SortableBlock.key size heap block).2 then
      pushMergeset inserter size rest (tryPush SortableBlock.key size heap block).1 nonDaa
    else ((tryPush SortableBlock.key size heap block).1, nonDaa)
  | .nonDaa hash :: rest, heap, nonDaa =>
    pushMergeset inserter size rest heap (if inserter then nonDaa ++ [hash] else nonDaa)

def canPush (size : Nat) (heap : BlockWindowHeap) (block : SortableBlock) : Run Diverged Bool :=
  if heap.length = size then
    match heap with
    | [] => .panicked
    | least :: _ => .ok (decide (least.key ≤ block.key))
  else .ok true

def windowLoop (s : ConsensusStores) (cache : BlockWindowCache) (size : Nat) (rate : UInt64) : Nat →
      SahyadriConsensusData → BlockWindowHeap → Run Diverged (Except WindowError BlockWindowHeap)
  | 0, _, _ => .fail .outOfSteps
  | fuel + 1, current, heap =>
    if current.selectedParent = origin then
      if heap.length = size then .ok (.ok heap)
        else .ok (.error (.insufficientDaaWindowSize heap.length))
    else if current.selectedParent = w.genesisHash then .ok (.ok heap)
    else
      match s.data current.selectedParent with
      | none => .panicked
      | some parent => do
        let more ← canPush size heap ⟨current.selectedParent, parent.blueWork⟩
        if !more then return .ok heap
        else
          let samples ← w.sampledMergeset s rate current parent.blueWork
          let heap := (pushMergeset false size samples heap []).1
          match cache current.selectedParent with
          | some window => return .ok (mergeHeap SortableBlock.key size heap window)
          | none => windowLoop s cache size rate fuel parent heap

/-- `build_block_window`, with the blocks outside the DAA window; a cached heap that no sample is
    pushed to is returned as it is. -/
def buildBlockWindow (s : ConsensusStores) (fuel : Nat) (d : SahyadriConsensusData)
    (type : WindowType) : Run Diverged (Except WindowError (BlockWindowHeap × List Hash)) :=
  let size := w.windowSize type
  let rate := w.sampleRate type
  if size = 0 then .ok (.ok ([], []))
  else if d.selectedParent = w.genesisHash then .ok (.ok ([], [w.genesisHash]))
  else if d.selectedParent = origin then .ok (.error (.insufficientDaaWindowSize 0))
  else
    match s.data d.selectedParent with
    | none => .panicked
    | some parent => do
      let samples ← w.sampledMergeset s rate d parent.blueWork
      match w.cache type d.selectedParent with
      | some window => return .ok (pushMergeset true size samples window [])
      | none =>
        let pushed := pushMergeset true size samples [] []
        let window ← w.windowLoop s (w.cache type) size rate fuel parent pushed.1
        return window.map fun heap => (heap, pushed.2)

end SampledWindowManager

/-! ## 2. What a window is for -/

/-- The mergeset of `c`, from the selected parent down. -/
structure DescendingMergeset (D : Dag Hash) (data : StoreReader) (c selectedParent : Hash)
    (L : List Hash) : Prop where
  sorted : L.Pairwise fun a b => keyOf data b < keyOf data a
  mem : ∀ x, x ∈ L ↔ D.Past x c ∧ ¬ D.Past x selectedParent

variable (w : SampledWindowManager)

/-- `x` is a sample: the DAA score of the selected parent and its place among the blocks above the
    threshold add up to a multiple of the rate. -/
def SampledBy (D : Dag Hash) (data : StoreReader) (rate : UInt64)
    (c x : Hash) : Prop :=
  ∃ d daa L i, data c = some d ∧ w.daaScore d.selectedParent = some daa ∧
    DescendingMergeset D data c d.selectedParent L ∧
    (x, i) ∈ (L.filter fun y => w.lowestDaaBlueScore d ≤ blueScoreOf data y).zipIdx 1 ∧
    (daa + UInt64.ofNat i) % rate = 0

/-- The samples of one mergeset, as blocks with their blue work. -/
def Samples (D : Dag Hash) (data : StoreReader) (rate : UInt64) (c : Hash) : Set SortableBlock :=
  {e | ∃ x, SampledBy w D data rate c x ∧ x ≠ D.genesis ∧ e = sortableOf data x}

/-- The samples along the selected chain of a block. -/
def WindowBlocks (D : Dag Hash) (data : StoreReader)
    (rate : UInt64) (b : Hash) : Set SortableBlock :=
  {e | ∃ c, OnChain D.genesis data c b ∧ e ∈ Samples w D data rate c}

/-- The manager knows the genesis block and the DAA score of every block. -/
structure WindowView (D : Dag Hash) (bs : List Hash) : Prop where
  genesis : w.genesisHash = D.genesis
  scores : ∀ b ∈ bs, ∃ v, w.daaScore b = some v

/-- The window of `c`, and the blocks outside the DAA window: those below the threshold, or the
    genesis block as selected parent. -/
structure IsWindow (D : Dag Hash) (data : StoreReader) (type : WindowType) (c : Hash)
    (d : SahyadriConsensusData) (window : BlockWindowHeap) (nonDaa : List Hash) : Prop where
  largest : Largest SortableBlock.key (w.windowSize type)
    (WindowBlocks w D data (w.sampleRate type) c) window
  outside : ∀ x, x ∈ nonDaa ↔ if d.selectedParent = D.genesis then x = D.genesis
    else (D.Past x c ∧ ¬ D.Past x d.selectedParent) ∧ blueScoreOf data x < w.lowestDaaBlueScore d

/-! ## 3. The samples of a mergeset -/

def samplesOf : List SampledBlock → List SortableBlock
  | [] => []
  | .sampled block :: rest => block :: samplesOf rest
  | .nonDaa _ :: rest => samplesOf rest

def nonDaaOf : List SampledBlock → List Hash
  | [] => []
  | .sampled _ :: rest => nonDaaOf rest
  | .nonDaa hash :: rest => hash :: nonDaaOf rest

section Window

open SampledWindowManager

variable {w : SampledWindowManager} {m : SahyadriConsensusManager}
  {D : Dag Hash} {bits : Hash → UInt32} {bs : List Hash} {s : ConsensusStores} {c x : Hash}
  {d : SahyadriConsensusData} {rate : UInt64} {size : Nat}

theorem pushMergeset_heap (inserter : Bool) :
    ∀ (l : List SampledBlock) (heap : BlockWindowHeap) (nonDaa : List Hash),
    (pushMergeset inserter size l heap nonDaa).1 =
      pushMany SortableBlock.key inserter size heap (samplesOf l)
  | [], _, _ => rfl
  | .sampled b :: l, heap, nonDaa => by
    rw [pushMergeset, samplesOf, pushMany, ← pushMergeset_heap inserter l _ nonDaa]
    split <;> rfl
  | .nonDaa _ :: l, heap, _ => pushMergeset_heap inserter l heap _

theorem pushMergeset_nonDaa :
    ∀ (l : List SampledBlock) (heap : BlockWindowHeap) (nonDaa : List Hash),
    (pushMergeset true size l heap nonDaa).2 = nonDaa ++ nonDaaOf l
  | [], _, _ => (append_nil _).symm
  | .sampled _ :: l, _, _ => pushMergeset_nonDaa l _ _
  | .nonDaa h :: l, heap, nonDaa => by
    rw [pushMergeset, pushMergeset_nonDaa l, nonDaaOf, if_pos rfl, append_assoc, singleton_append]

theorem sampleBlocks_ok (rate daa threshold : UInt64) :
    ∀ (L : List Hash) (n : Nat), (∀ x ∈ L, ∃ d, s.data x = some d) → ∃ out,
    sampleBlocks s rate daa threshold (UInt64.ofNat n) (L.map (sortableOf s.data)) = .ok out ∧
      samplesOf out =
        (((L.filter fun y => threshold ≤ blueScoreOf s.data y).zipIdx (n + 1)).filter fun p =>
        (daa + UInt64.ofNat p.2) % rate = 0).map (fun p => sortableOf s.data p.1) ∧
      nonDaaOf out = L.filter fun y => blueScoreOf s.data y < threshold
  | [], _, _ => ⟨[], rfl, rfl, rfl⟩
  | y :: L, n, hdata => by
    obtain ⟨⟨dy, hdy⟩, hrest⟩ := forall_mem_cons.mp hdata
    have hscore : blueScoreOf s.data y = dy.blueScore := by rw [blueScoreOf, hdy]; rfl
    rw [map_cons, sampleBlocks, show (sortableOf s.data y).hash = y from rfl, hdy]
    by_cases hlow : dy.blueScore < threshold
    · obtain ⟨out, hout, hsamples, hnon⟩ := sampleBlocks_ok rate daa threshold L n hrest
      refine ⟨.nonDaa y :: out, by simp [hlow, hout], ?_, ?_⟩
      · rw [samplesOf, hsamples, filter_cons_of_neg (by simpa [hscore] using hlow)]
      · rw [nonDaaOf, hnon, filter_cons_of_pos (by simpa [hscore] using hlow)]
    · obtain ⟨out, hout, hsamples, hnon⟩ := sampleBlocks_ok rate daa threshold L (n + 1) hrest
      have hkeep : (y :: L).filter (fun y => threshold ≤ blueScoreOf s.data y) =
          y :: L.filter fun y => threshold ≤ blueScoreOf s.data y :=
        filter_cons_of_pos (by simpa [hscore] using hlow)
      have hnon' : (y :: L).filter (fun y => blueScoreOf s.data y < threshold) = nonDaaOf out := by
        rw [hnon, filter_cons_of_neg (by simpa [hscore] using hlow)]
      rw [hkeep, hnon', zipIdx_cons]
      dsimp only
      rw [if_neg hlow,
        show UInt64.ofNat n + 1 = UInt64.ofNat (n + 1) from (UInt64.ofNat_add n 1).symm, hout]
      by_cases hrate : (daa + UInt64.ofNat (n + 1)) % rate = 0
      · refine ⟨.sampled (sortableOf s.data y) :: out, by rw [if_pos hrate]; rfl, ?_, rfl⟩
        rw [samplesOf, hsamples, filter_cons_of_pos (by simpa using hrate), map_cons]
      · refine ⟨out, if_neg hrate, ?_, rfl⟩
        rw [hsamples, filter_cons_of_neg (by simpa using hrate)]

theorem Merges.descendingMergeset_ok {l : List ChainEntry} {cs : List Hash}
    (hm : Merges m D bits s.data c d l cs) (hdata : ∀ x ∈ cs, ∃ e, s.data x = some e) :
    d.descendingMergesetWithoutSelectedParent s = .ok (cs.reverse.map (sortableOf s.data)) := by
  have hsorted : (cs.reverse.map (sortableOf s.data)).Pairwise fun a b => b.key < a.key :=
    pairwise_map.mpr (pairwise_reverse.mpr hm.sorted)
  have hsplit : ((d.mergesetBlues.drop 1).reverse.map (sortableOf s.data) ++
      d.mergesetReds.reverse.map (sortableOf s.data)).Perm
        (cs.reverse.map (sortableOf s.data)) := by
    rw [← map_append]
    exact (((reverse_perm _).append (reverse_perm _)).trans
      (hm.split.trans (reverse_perm _).symm)).map _
  have hmerge :=
    mergeJoinBy_parts (r := fun a b => b.key < a.key) (fun _ _ _ hab hbc => hbc.trans hab)
    (fun _ => lt_irrefl _) hsorted (hm.taken.reverse.map _) (hm.reds.reverse.map _) hsplit
  unfold SahyadriConsensusData.descendingMergesetWithoutSelectedParent
  rw [sortables_ok fun x hx => hdata x (hm.taken.subset (mem_reverse.mp hx)), Run.ok_bind,
    sortables_ok fun x hx => hdata x (hm.reds.subset (mem_reverse.mp hx)), Run.ok_bind, hmerge]

theorem Sound.keyOf_lt (h : Sound m D bits bs s.data) (hc : c ∈ bs) (hx : D.Past x c) :
    keyOf s.data x < keyOf s.data c := by
  obtain ⟨dx, hdx⟩ := h.exists_data (h.grown.mem_of_past hc hx)
  obtain ⟨dc, hdc⟩ := h.exists_data hc
  exact keyOf_lt_of_work hdx hdc (h.increasing hc hx hdx hdc)

theorem Sound.keyOf_le_selected (h : Sound m D bits bs s.data)
    (hc : c ∈ bs) (hd : s.data c = some d)
    (hx : D.Past x c) : keyOf s.data x ≤ keyOf s.data d.selectedParent := by
  obtain ⟨hg, p, hp, hxp⟩ := Dag.past_iff.mp hx
  obtain ⟨d', _, _, hd', _, hm⟩ := h.merges c hc hg
  cases hd.symm.trans hd'
  refine le_trans ?_ (hm.best p hp)
  rcases hxp with rfl | hxp
  · exact le_rfl
  · exact le_of_lt (h.keyOf_lt ((h.grown.of_mem hc hg).2.1 p hp) hxp)

theorem DescendingMergeset.unique {data : StoreReader} {sp : Hash} {L L' : List Hash}
    (hL : DescendingMergeset D data c sp L) (hL' : DescendingMergeset D data c sp L') : L = L' := by
  have hnd : ∀ {L : List Hash}, (L.Pairwise fun a b => keyOf data b < keyOf data a) → L.Nodup :=
    fun h =>
    h.imp fun hlt he => absurd (congrArg (keyOf data) he) hlt.ne'
  refine List.Perm.eq_of_pairwise
    (fun a b _ _ hab hba => absurd (hab.trans hba) (lt_irrefl _)) hL.sorted hL'.sorted ?_
  exact (perm_ext_iff_of_nodup (hnd hL.sorted) (hnd hL'.sorted)).mpr fun x =>
    (hL.mem x).trans (hL'.mem x).symm

/-- **The samples of a mergeset**, the larger ones first, and the blocks below the threshold. -/
theorem sampledMergeset_ok (rate : UInt64) (h : Sound m D bits bs s.data) (hw : WindowView w D bs)
    (hc : c ∈ bs) (hg : c ≠ D.genesis) (hd : s.data c = some d) (hsp : d.selectedParent ≠ D.genesis)
    {parent : SahyadriConsensusData} (hparent : s.data d.selectedParent = some parent) :
    ∃ out, w.sampledMergeset s rate d parent.blueWork = .ok out ∧
    ((samplesOf out).Pairwise fun a b => b.key < a.key) ∧
      (∀ e, e ∈ samplesOf out ↔ e ∈ Samples w D s.data rate c) ∧
      ∀ x, x ∈ nonDaaOf out ↔ (D.Past x c ∧ ¬ D.Past x d.selectedParent) ∧
        blueScoreOf s.data x < w.lowestDaaBlueScore d := by
  obtain ⟨d', _, cs, hd', _, hm⟩ := h.merges c hc hg
  cases hd.symm.trans hd'
  have hspb := (h.grown.of_mem hc hg).2.1 _ hm.parent
  have hcs : ∀ x ∈ cs, x ∈ bs := fun x hx => h.grown.mem_of_past hc ((hm.mem x).mp hx).1
  have hL : DescendingMergeset D s.data c d.selectedParent (d.selectedParent :: cs.reverse) := by
    refine ⟨pairwise_cons.mpr ⟨fun x hx => ?_, pairwise_reverse.mpr hm.sorted⟩, fun x => ?_⟩
    · obtain ⟨hpast, hnot⟩ := (hm.mem x).mp (mem_reverse.mp hx)
      exact lt_of_le_of_ne (h.keyOf_le_selected hc hd hpast) fun he => hnot (.inl (keyOf_inj he))
    · rw [mem_cons, mem_reverse, hm.mem]
      constructor
      · intro hx
        rcases hx with rfl | ⟨hx, hnot⟩
        · exact ⟨Dag.past_of_parent hg hm.parent, h.grown.past_irrefl hspb⟩
        · exact ⟨hx, fun hp => hnot (.inr hp)⟩
      · intro hx
        exact (em (x = d.selectedParent)).imp id fun hne => ⟨hx.1, fun hb => hb.elim hne hx.2⟩
  have hLb : ∀ x ∈ d.selectedParent :: cs.reverse, ∃ e, s.data x = some e :=
    forall_mem_cons.mpr ⟨⟨parent, hparent⟩, fun x hx => h.exists_data (hcs x (mem_reverse.mp hx))⟩
  obtain ⟨daa, hdaa⟩ := hw.scores _ hspb
  obtain ⟨out, hout, hsamples, hnon⟩ := sampleBlocks_ok rate daa (w.lowestDaaBlueScore d)
    (d.selectedParent :: cs.reverse) 0 hLb
  refine ⟨out, ?_, ?_, fun e => ?_, fun x => by rw [hnon, mem_filter, hL.mem, decide_eq_true_iff]⟩
  · rw [sampledMergeset, hdaa]
    dsimp only
    rw [hm.descendingMergeset_ok fun x hx => h.exists_data (hcs x hx), Run.ok_bind, ← hout,
      map_cons, sortableOf, hparent]
    rfl
  · rw [hsamples, pairwise_map]
    refine List.Pairwise.filter _ (pairwise_map (R := fun a b => keyOf s.data b < keyOf s.data a)
      |>.mp ?_)
    rw [zipIdx_map_fst]
    exact hL.sorted.filter _
  · rw [hsamples, mem_map]
    constructor
    · intro he
      obtain ⟨⟨x, i⟩, hxi, rfl⟩ := he
      obtain ⟨hx, hmul⟩ := mem_filter.mp hxi
      refine ⟨x, ⟨d, daa, _, i, hd, hdaa, hL, hx, of_decide_eq_true hmul⟩, fun hxg => ?_, rfl⟩
      -- the genesis block is in the past of the selected parent
      have hxL := (hL.mem x).mp (mem_of_mem_filter (fst_mem_of_mem_zipIdx hx))
      exact hxL.2 (hxg ▸ (h.grown.genesis_below hspb).resolve_left hsp.symm)
    · intro he
      obtain ⟨x, ⟨d', daa', L, i, hd', hdaa', hL', hx, hmul⟩, _, rfl⟩ := he
      cases hd.symm.trans hd'
      cases hdaa.symm.trans hdaa'
      cases hL.unique hL'
      exact ⟨(x, i), mem_filter.mpr ⟨hx, decide_eq_true hmul⟩, rfl⟩

/-! ## 4. The walk -/

variable {data : StoreReader} {e : SortableBlock} {fuel : Nat}

theorem mem_windowBlocks (hd : data c = some d) (hg : c ≠ D.genesis) :
    e ∈ WindowBlocks w D data rate c ↔ e ∈ Samples w D data rate c ∨
    e ∈ WindowBlocks w D data rate d.selectedParent := by
  constructor
  · intro he
    obtain ⟨c', hc', he⟩ := he
    rcases onPath_iff.mp hc' with rfl | ⟨p, hp, hc'⟩
    · exact .inl he
    · rw [chainParent_eq hd hg] at hp
      exact .inr ⟨c', Option.some.inj hp ▸ hc', he⟩
  · intro he
    rcases he with he | ⟨c', hc', he⟩
    · exact ⟨c, .refl c, he⟩
    · exact ⟨c', .of_parent (chainParent_eq hd hg) hc', he⟩

theorem past_of_samples (hd : data c = some d) (he : e ∈ Samples w D data rate c) :
    ∃ x, e = sortableOf data x ∧ x ≠ D.genesis ∧ D.Past x c ∧ ¬ D.Past x d.selectedParent := by
  obtain ⟨x, ⟨d', _, L, i, hd', _, hL, hx, _⟩, hxg, he⟩ := he
  cases hd.symm.trans hd'
  exact ⟨x, he, hxg, (hL.mem x).mp (mem_of_mem_filter (fst_mem_of_mem_zipIdx hx))⟩

theorem past_of_windowBlocks (h : Sound m D bits bs data)
    (hc : c ∈ bs) (he : e ∈ WindowBlocks w D data rate c) :
    ∃ x, e = sortableOf data x ∧ x ≠ D.genesis ∧ D.Past x c := by
  obtain ⟨c', hc', he⟩ := he
  obtain ⟨d', hd'⟩ := h.exists_data (h.onPath_mem hc hc')
  obtain ⟨x, hex, hxg, hpast, -⟩ := past_of_samples hd' he
  exact ⟨x, hex, hxg, hpast.below (h.onPath_below hc hc')⟩

theorem windowBlocks_first (h : Sound m D bits bs data)
    (hc : c ∈ bs) (hg : c ≠ D.genesis) (hd : data c = some d)
    (hsp : d.selectedParent = D.genesis) : e ∉ WindowBlocks w D data rate c := by
  intro he
  obtain ⟨x, -, hxg, hpast⟩ := past_of_windowBlocks h hc he
  obtain ⟨d', _, _, hd', _, hm⟩ := h.merges c hc hg
  cases hd.symm.trans hd'
  obtain ⟨-, hold, hanti⟩ := h.grown.of_mem hc hg
  obtain ⟨_, p, hp, hxp⟩ := Dag.past_iff.mp hpast
  by_cases hpg : p = D.genesis
  · exact hxp.elim (fun he => hxg (he.trans hpg)) fun hxp => Dag.not_past_genesis (hpg ▸ hxp)
  · have hap : D.Anticone p D.genesis := hanti.forall hp (hsp ▸ hm.parent) hpg
    exact hap.2.2 ((h.grown.genesis_below (hold p hp)).resolve_left fun he => hpg he.symm)

/-- The set of blocks collected so far has nothing in the past of the chain block that is next. -/
def Away (D : Dag Hash) (data : StoreReader) (A : Set SortableBlock) (c : Hash) : Prop :=
  ∀ e ∈ A, ∃ x, e = sortableOf data x ∧ ¬ D.Past x c

theorem Away.key_ne {A : Set SortableBlock} (hA : Away D data A c) {a b : SortableBlock}
    (ha : a ∈ A) (hb : ∃ x, b = sortableOf data x ∧ D.Past x c) : a.key ≠ b.key := by
  intro he
  obtain ⟨x, rfl, hx⟩ := hA a ha
  obtain ⟨y, rfl, hy⟩ := hb
  exact hx (keyOf_inj he ▸ hy)

/-- **The walk** from a chain block adds the blocks of its window. -/
theorem windowLoop_ok (h : Sound m D bits bs s.data)
    (hcount : bs.length < 2 ^ 64) (hw : WindowView w D bs) (hsize : 0 < size)
    {cache : BlockWindowCache} (hcache : ∀ x ∈ bs, x ≠ D.genesis → ∀ V, cache x = some V →
      Largest SortableBlock.key size (WindowBlocks w D s.data rate x) V) :
    ∀ {c : Hash} {d : SahyadriConsensusData} {heap : BlockWindowHeap} {A : Set SortableBlock},
    c ∈ bs → c ≠ D.genesis →
    s.data c = some d → scoreOf s.data c < fuel → Largest SortableBlock.key size A heap →
      Away D s.data A c → ∃ W, w.windowLoop s cache size rate fuel d heap = .ok (.ok W) ∧
        Largest SortableBlock.key size (A ∪ WindowBlocks w D s.data rate c) W := by
  induction fuel with
  | zero => exact fun _ _ _ hfuel => absurd hfuel (Nat.not_lt_zero _)
  | succ fuel ih =>
    intro c d heap A hc hg hd hfuel hheap hA
    have hp := chainParent_eq hd hg
    have hpast := h.past_of_parent hc hp
    have hspb := h.grown.mem_of_past hc hpast
    obtain ⟨parent, hparent⟩ := h.exists_data hspb
    rw [windowLoop, if_neg (h.real _ hspb), hw.genesis]
    by_cases hsp : d.selectedParent = D.genesis
    · rw [if_pos hsp]
      exact ⟨heap, rfl,
        hheap.congr fun e => ⟨.inl, fun he => he.resolve_right (windowBlocks_first h hc hg hd hsp)⟩⟩
    rw [if_neg hsp, hparent]
    dsimp only
    obtain ⟨more, hmore, hstop⟩ : ∃ more, canPush size heap ⟨d.selectedParent, parent.blueWork⟩ =
        .ok more ∧ (more = false → heap.length = size ∧
        ∀ e ∈ heap, keyOf s.data d.selectedParent < e.key) := by
      unfold canPush
      by_cases hfull : heap.length = size
      · rw [if_pos hfull]
        cases heap with
        | nil => exact absurd hfull.symm (ne_of_gt hsize)
        | cons least rest =>
          refine ⟨_, rfl, fun hlt => ⟨hfull, fun e he => ?_⟩⟩
          have hlt : keyOf s.data d.selectedParent < least.key := by
            rw [keyOf, sortableOf, hparent]
            exact not_le.mp (of_decide_eq_false hlt)
          rcases mem_cons.mp he with rfl | he
          · exact hlt
          · exact hlt.trans ((pairwise_cons.mp hheap.sorted).1 e he)
      · exact ⟨true, if_neg hfull, fun hfalse => by cases hfalse⟩
    rw [hmore, Run.ok_bind]
    cases more with
    | false =>
      -- nothing below the selected parent can enter a full heap
      obtain ⟨hfull, hlow⟩ := hstop rfl
      refine ⟨heap, rfl, hheap.skip hfull fun e he e' he' => ?_⟩
      obtain ⟨x, rfl, -, hx⟩ := past_of_windowBlocks h hc he
      exact lt_of_le_of_lt (h.keyOf_le_selected hc hd hx) (hlow e' he')
    | true =>
      obtain ⟨out, hout, hsorted, hmem, -⟩ := sampledMergeset_ok rate h hw hc hg hd hsp hparent
      have hpushed : Largest SortableBlock.key size (A ∪ Samples w D s.data rate c)
          (pushMergeset false size out heap []).1 := by
        rw [pushMergeset_heap]
        refine (hheap.pushMany false hsize hsorted fun a ha e he => hA.key_ne ha ?_).congr fun e =>
          or_congr_right (hmem e)
        obtain ⟨x, hex, -, hx, -⟩ := past_of_samples hd ((hmem e).mp he)
        exact ⟨x, hex, hx⟩
      have hA' : Away D s.data (A ∪ Samples w D s.data rate c) d.selectedParent := fun e he => by
        rcases he with he | he
        · obtain ⟨x, hex, hx⟩ := hA e he
          exact ⟨x, hex, fun hp => hx (hp.trans hpast)⟩
        · obtain ⟨x, hex, -, -, hx⟩ := past_of_samples hd he
          exact ⟨x, hex, hx⟩
      have hall : ∀ e, e ∈ A ∪ Samples w D s.data rate c ∪ WindowBlocks w D s.data rate
          d.selectedParent ↔ e ∈ A ∪ WindowBlocks w D s.data rate c := fun e =>
        or_assoc.trans (or_congr_right (mem_windowBlocks hd hg).symm)
      rw [if_neg (by decide), hout]
      cases hV : cache d.selectedParent with
      | some V =>
        refine ⟨_, rfl,
          (hpushed.merge (hcache _ hspb hsp V hV) fun a ha b hb => hA'.key_ne ha ?_).congr hall⟩
        obtain ⟨x, hbx, -, hx⟩ := past_of_windowBlocks h hspb hb
        exact ⟨x, hbx, hx⟩
      | none =>
        have hscore := h.score_rising hcount hc _ _ (OnPath.refl c) hp
        obtain ⟨W, hW, hlargest⟩ := ih hspb hsp hparent (by omega) hpushed hA'
        exact ⟨W, hW, hlargest.congr hall⟩

/-- **The window**, where every cached window is one. -/
theorem buildBlockWindow_ok {type : WindowType} (h : Sound m D bits bs s.data)
    (hcount : bs.length < 2 ^ 64) (hw : WindowView w D bs) (hsize : 0 < w.windowSize type)
    (hcache : ∀ x ∈ bs, x ≠ D.genesis → ∀ V, w.cache type x = some V → Largest SortableBlock.key
      (w.windowSize type) (WindowBlocks w D s.data (w.sampleRate type) x) V)
    (hfuel : bs.length < fuel) (hc : c ∈ bs) (hg : c ≠ D.genesis) (hd : s.data c = some d) :
    ∃ window nonDaa, w.buildBlockWindow s fuel d type = .ok (.ok (window, nonDaa)) ∧
      IsWindow w D s.data type c d window nonDaa := by
  have hpast := h.past_of_parent hc (chainParent_eq hd hg)
  have hspb := h.grown.mem_of_past hc hpast
  obtain ⟨parent, hparent⟩ := h.exists_data hspb
  rw [buildBlockWindow]
  rw [if_neg (ne_of_gt hsize), hw.genesis]
  by_cases hsp : d.selectedParent = D.genesis
  · rw [if_pos hsp]
    refine ⟨[], _, rfl, largest_empty.congr fun e => ⟨fun he => he.elim, fun he =>
      absurd he (windowBlocks_first h hc hg hd hsp)⟩, fun x => by rw [if_pos hsp, mem_singleton]⟩
  rw [if_neg hsp, if_neg (h.real _ hspb), hparent]
  obtain ⟨out, hout, hsorted, hmem, hnon⟩ :=
    sampledMergeset_ok (w.sampleRate type) h hw hc hg hd hsp hparent
  dsimp only
  rw [hout, Run.ok_bind]
  have hsamples : ∀ e ∈ samplesOf out, ∃ x, e = sortableOf s.data x ∧ D.Past x c ∧
      ¬ D.Past x d.selectedParent :=
    fun e he => by
      obtain ⟨x, hex, -, hx⟩ := past_of_samples hd ((hmem e).mp he)
      exact ⟨x, hex, hx⟩
  have hreport : ∀ {window heap}, Largest SortableBlock.key (w.windowSize type)
      (WindowBlocks w D s.data (w.sampleRate type) c) window →
      IsWindow w D s.data type c d window (pushMergeset true (w.windowSize type) out heap []).2 :=
    fun hlargest =>
    ⟨hlargest, fun x => by rw [pushMergeset_nonDaa, if_neg hsp, nil_append, hnon]⟩
  cases hV : w.cache type d.selectedParent with
  | some V =>
    refine ⟨_, _, rfl, hreport ?_⟩
    rw [pushMergeset_heap]
    refine ((hcache _ hspb hsp V hV).pushMany true hsize hsorted fun a ha e he hkey => ?_).congr
      fun e => ?_
    · obtain ⟨x, rfl, -, hx⟩ := past_of_windowBlocks h hspb ha
      obtain ⟨y, rfl, -, hy⟩ := hsamples e he
      exact hy (keyOf_inj hkey ▸ hx)
    · exact or_comm.trans ((or_congr_left (hmem e)).trans (mem_windowBlocks hd hg).symm)
  | none =>
    have hpushed : Largest SortableBlock.key (w.windowSize type) (∅ ∪ {e | e ∈ samplesOf out})
        (pushMergeset true (w.windowSize type) out [] []).1 := by
      rw [pushMergeset_heap]
      exact largest_empty.pushMany true hsize hsorted fun a ha => ha.elim
    have hscore := h.score_le_length hcount hspb
    obtain ⟨W, hW, hlargest⟩ := windowLoop_ok h hcount hw hsize hcache hspb hsp hparent
      (lt_of_le_of_lt hscore hfuel) hpushed fun e he => by
        obtain ⟨x, hex, -, hx⟩ := hsamples e (he.resolve_left id)
        exact ⟨x, hex, hx⟩
    rw [hW]
    refine ⟨W, _, rfl, hreport (hlargest.congr fun e => ?_)⟩
    rw [mem_windowBlocks hd hg, ← hmem]
    exact or_congr_left (or_iff_right id)

/-! ## 5. The cache -/

def SampledWindowManager.uncached (w : SampledWindowManager) : SampledWindowManager :=
  { w with blockWindowCacheForDifficulty := fun _ => none, blockWindowCacheForPastMedianTime :=
    fun _ => none }

/-- **The window does not depend on the cache**, if every cached window has the blocks of the one
    built without: it has the largest samples along the selected chain. -/
theorem window_independent_of_cache {type : WindowType}
    (h : Sound m D bits bs s.data) (hcount : bs.length < 2 ^ 64)
    (hw : WindowView w D bs) (hsize : 0 < w.windowSize type) {fuel : Nat} (hfuel : bs.length < fuel)
    (hcache : ∀ x ∈ bs, x ≠ D.genesis → ∀ V, w.cache type x = some V →
      (V.Pairwise fun a b => a.key < b.key) ∧ ∃ dx W nonDaa, s.data x = some dx ∧
        w.uncached.buildBlockWindow s fuel dx type = .ok (.ok (W, nonDaa)) ∧
        ∀ e, e ∈ V ↔ e ∈ W) (hc : c ∈ bs) (hg : c ≠ D.genesis) (hd : s.data c = some d) :
    ∃ window nonDaa, w.buildBlockWindow s fuel d type = .ok (.ok (window, nonDaa)) ∧
      IsWindow w D s.data type c d window nonDaa := by
  have hnone : ∀ x, w.uncached.cache type x = none := fun x => by cases type <;> rfl
  have hsize' : w.uncached.windowSize type = w.windowSize type := by cases type <;> rfl
  have hw' : WindowView w.uncached D bs := ⟨hw.genesis, hw.scores⟩
  refine buildBlockWindow_ok h hcount hw hsize (fun x hx hxg V hV => ?_) hfuel hc hg hd
  obtain ⟨hsorted, dx, W, _, hdx, hbuild, hmem⟩ := hcache x hx hxg V hV
  obtain ⟨W', _, hbuild', hlargest, -⟩ :=
    buildBlockWindow_ok h hcount hw' (hsize'.symm ▸ hsize) (fun y _ _ V hV => by
    rw [hnone y] at hV
    cases hV) hfuel hx hxg hdx
  cases hbuild.symm.trans hbuild'
  exact hlargest.of_same hsorted hmem

end Window

deriving instance DecidableEq for SortableBlock

def forkWindows : SampledWindowManager where
  genesisHash := hashOf 0
  difficultyWindowSize := 2
  difficultySampleRate := 1
  pastMedianTimeWindowSize := 2
  pastMedianTimeSampleRate := 1
  blockWindowCacheForDifficulty h :=
    if h = hashOf 1 then some [sortableOf (forkData 0x207fffff) (hashOf 2)] else none
  blockWindowCacheForPastMedianTime _ := none
  daaScore _ := some 0

theorem fork_window : ∃ d window nonDaa, forkData 0x207fffff (hashOf 4) = some d ∧
    forkWindows.buildBlockWindow (forkStores 0x207fffff) 6 d .difficultyWindow =
      .ok (.ok (window, nonDaa)) ∧ IsWindow forkWindows fork (forkData 0x207fffff) .difficultyWindow
        (hashOf 4) d window nonDaa := by
  have hsound : Sound forkManager fork (fun _ => 0x207fffff) forkAll (forkStores 0x207fffff).data :=
    (fork_built 0x207fffff (by decide)).sound ⟨by decide, by decide⟩
  have hcached : (forkData 0x207fffff (hashOf 1)).map (fun d =>
      forkWindows.uncached.buildBlockWindow (forkStores 0x207fffff) 6 d .difficultyWindow) =
        some (.ok (.ok ([sortableOf (forkData 0x207fffff) (hashOf 2)], []))) := by decide +kernel
  have hcache : ∀ x ∈ forkAll, x ≠ fork.genesis → ∀ V,
      forkWindows.cache .difficultyWindow x = some V → (V.Pairwise fun a b => a.key < b.key) ∧
        ∃ dx W nonDaa, (forkStores 0x207fffff).data x = some dx ∧
        forkWindows.uncached.buildBlockWindow
          (forkStores 0x207fffff) 6 dx .difficultyWindow = .ok (.ok (W, nonDaa)) ∧ ∀ e, e ∈ V ↔
          e ∈ W := by
    intro x _ _ V hV
    obtain ⟨hx, hV⟩ := Option.ite_none_right_eq_some.mp hV
    cases hV
    obtain ⟨dx, hdx, hbuild⟩ := Option.map_eq_some_iff.mp hcached
    exact ⟨pairwise_singleton _ _, dx, _, _, hx ▸ hdx, hbuild, fun _ => Iff.rfl⟩
  obtain ⟨d, hd⟩ := hsound.exists_data (show hashOf 4 ∈ forkBlocks ++ [hashOf 0] by decide)
  obtain ⟨window, nonDaa, hwindow⟩ :=
    window_independent_of_cache hsound (by decide) ⟨rfl, fun _ _ => ⟨0, rfl⟩⟩
    (by decide) (by decide) hcache (by decide) (by decide) hd
  exact ⟨d, window, nonDaa, hd, hwindow⟩

end Sahyadri.Consensus
