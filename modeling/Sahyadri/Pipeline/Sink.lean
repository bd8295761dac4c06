import Sahyadri.Lib.Chain
import Sahyadri.Consensus.Clusters

/-!
# `sink_search_algorithm`: the best valid block of the DAG below the tips

The search takes the block with the most blue work from a heap. If the finality point is on its
chain, the chain is validated as far as it is not yet known to be valid; if all of it is valid, the
block is the sink. Otherwise its parents take its place.

* `sink_search_best`: the sink is the best of the eligible blocks.
-/

namespace Sahyadri.Pipeline

open Lib Smt Core Consensus List Function

/-! ## 1. The code -/

inductive BlockStatus where
  | statusInvalid
  | statusStateValid
  | statusStatePendingVerification
  | statusDisqualifiedFromChain
  | statusHeaderOnly
  deriving DecidableEq, Repr

abbrev Statuses := Hash → Option BlockStatus

structure SinkStores where
  parents : Hash → Option (List Hash)
  blueWork : Hash → Option BlueWorkType
  mergeDepthRoot : Hash → Option Hash
  isDagAncestorOf : Hash → Hash → Bool
  isChainAncestorOf : Hash → Hash → Bool
  /-- `get_parent` of the reachability store. -/
  chainParent : Hash → Option Hash
  /-- `get_next_chain_ancestor` of a descendant and an ancestor. -/
  nextChainAncestor : Hash → Hash → Option Hash
  /-- Whether `calculate_block_state` and `verify_block_state` accept a block. -/
  verifies : Hash → Bool

namespace SinkStores

variable (s : SinkStores)

def splitLoop (target : Hash) : Nat → Hash → Run Diverged (Option Hash)
  | 0, _ => .fail .outOfSteps
  | steps + 1, current =>
    if current = origin then .ok none
    else
      match s.chainParent current with
      | none => .panicked
      | some next =>
        if s.isChainAncestorOf current target then .ok (some current)
          else splitLoop target steps next

def chainStep (selectedParent current diffPoint : Hash) (statuses : Statuses) :
    Run Diverged (Hash × Statuses) :=
  match statuses current with
  | none => .panicked
  | some status =>
    if selectedParent ≠ diffPoint then
      .ok (diffPoint,
        if status ≠ .statusDisqualifiedFromChain then
          update statuses current (some .statusDisqualifiedFromChain)
        else statuses)
    else if status = .statusStateValid then .ok (current, statuses)
    else if status = .statusDisqualifiedFromChain then .ok (diffPoint, statuses)
    else if s.verifies current then
      .ok (current, update statuses current (some .statusStateValid))
    else .ok (diffPoint, update statuses current (some .statusDisqualifiedFromChain))

/-- The loop along `forward_chain_iterator`. -/
def forwardLoop (target : Hash) : Nat → Hash → Hash → Statuses → Run Diverged (Hash × Statuses)
  | 0, _, _, _ => .fail .outOfSteps
  | steps + 1, current, diffPoint, statuses =>
    if current = target then .ok (diffPoint, statuses)
    else
      match s.nextChainAncestor target current with
      | none => .panicked
      | some next => do
        let (diffPoint, statuses) ← s.chainStep current next diffPoint statuses
        forwardLoop target steps next diffPoint statuses

def calculateRegistryUnitStateRelatively (fuel : Nat) (statuses : Statuses) (source target : Hash) :
    Run Diverged (Hash × Statuses) :=
  match statuses target with
  | none => .panicked
  | some status =>
    if status = .statusDisqualifiedFromChain then .ok (source, statuses)
    else do
      match ← s.splitLoop target fuel source with
      | none => return (H256.empty, statuses)
      | some splitPoint => s.forwardLoop target fuel splitPoint splitPoint statuses

/-- `BinaryHeap::pop`: the largest block and the rest. -/
def popMax : List SortableBlock → Option (SortableBlock × List SortableBlock)
  | [] => none
  | b :: rest =>
    match popMax rest with
    | none => some (b, [])
    | some (c, others) => if c.key < b.key then some (b, c :: others) else some (c, b :: others)

def pushParents (finalityPoint : Hash) :
    List Hash → List SortableBlock → Run Diverged (List SortableBlock)
  | [], heap => .ok heap
  | parent :: rest, heap =>
    if s.isDagAncestorOf finalityPoint parent &&
      !(heap.any fun b => s.isDagAncestorOf parent b.hash) then
      match s.blueWork parent with
      | none => .panicked
      | some work => pushParents finalityPoint rest (⟨parent, work⟩ :: heap)
    else pushParents finalityPoint rest heap

/-- The reference point after a candidate was looked at: its chain is validated if the finality
    point is on it. -/
def lookAt (fuel : Nat) (finalityPoint diffPoint : Hash) (statuses : Statuses) (candidate : Hash) :
    Run Diverged (Hash × Statuses) :=
  if s.isChainAncestorOf finalityPoint candidate then
    s.calculateRegistryUnitStateRelatively fuel statuses diffPoint candidate
  else .ok (diffPoint, statuses)

/-- The loop of `sink_search_algorithm`. -/
def searchLoop (fuel : Nat) (finalityPoint : Hash) :
    Nat → List SortableBlock → Hash → Statuses → Run Diverged (Hash × List Hash × Statuses)
  | 0, _, _, _ => .fail .outOfSteps
  | steps + 1, heap, diffPoint, statuses =>
    match popMax heap with
    | none => .ok (H256.empty, [], statuses)
    | some (candidate, heap) => do
      let (diffPoint, statuses) ← s.lookAt fuel finalityPoint diffPoint statuses candidate.hash
      if s.isChainAncestorOf finalityPoint candidate.hash ∧ diffPoint = candidate.hash then
        match s.mergeDepthRoot candidate.hash with
        | none => .panicked
        | some filteringRoot =>
          let filteringBlueWork := (s.blueWork filteringRoot).getD 0
          return (candidate.hash, ((heap.insertionSort fun a b => b.key ≤ a.key).takeWhile
              fun b => filteringBlueWork ≤ b.blueWork).map (·.hash), statuses)
      else
        match s.parents candidate.hash with
        | none => .panicked
        | some parents => do
          let heap ← s.pushParents finalityPoint parents heap
          searchLoop fuel finalityPoint steps heap diffPoint statuses

def toHeap : List Hash → Run Diverged (List SortableBlock)
  | [] => .ok []
  | block :: rest =>
    match s.blueWork block with
    | none => .panicked
    | some work => do
      let heap ← toHeap rest
      return ⟨block, work⟩ :: heap

/-- `sink_search_algorithm`: the sink, the other candidates, and the statuses. -/
def sinkSearchAlgorithm (fuel : Nat) (statuses : Statuses) (prevSink : Hash) (tips : List Hash)
    (finalityPoint : Hash) : Run Diverged (Hash × List Hash × Statuses) := do
  let heap ← s.toHeap tips
  s.searchLoop fuel finalityPoint fuel heap prevSink statuses

end SinkStores

/-! ## 2. What is assumed -/

variable (D : Dag Hash) (selected : Hash → Hash)

/-- The tree of the selected parents. -/
def selectedTree (b : Hash) : Option Hash :=
  if b = D.genesis then none else some (selected b)

abbrev OnSelected (a b : Hash) : Prop := OnPath (selectedTree D selected) a b

/-- The stores have the data of the blocks `bs` of the DAG: reachability is exact, and the blue work
    grows along the edges. -/
structure Follows (bs : List Hash) (s : SinkStores) : Prop where
  grown : D.Grown bs
  /-- Only the first block can have the reserved hash. -/
  reserved : ∀ b ∈ bs, b = origin → b = D.genesis
  selected_mem : ∀ b ∈ bs, b ≠ D.genesis → selected b ∈ D.parents b
  parents : ∀ b ∈ bs, b ≠ D.genesis → s.parents b = some (D.parents b)
  work : ∀ b ∈ bs, ∃ w, s.blueWork b = some w
  increasing : ∀ {p b : Hash} {wp wb : BlueWorkType}, b ∈ bs → D.Edge p b → s.blueWork p = some wp →
    s.blueWork b = some wb → wp.toNat < wb.toNat
  depth : ∀ b ∈ bs, ∃ root, s.mergeDepthRoot b = some root
  dag : Reaches D bs s.isDagAncestorOf
  chain : ∀ a ∈ bs, ∀ b ∈ bs, (s.isChainAncestorOf a b = true ↔ OnSelected D selected a b)
  parent : ∀ b ∈ bs, b ≠ origin → ∃ p, s.chainParent b = some p ∧ (b ≠ D.genesis → p = selected b)
  next : ∀ {a c : Hash}, ∀ d ∈ bs, selectedTree D selected c = some a →
    OnSelected D selected c d → s.nextChainAncestor d a = some c

/-- The finality point is on the chain of a block, and from there up all blocks are valid. -/
def ChainValid (s : SinkStores) (finalityPoint b : Hash) : Prop :=
  OnSelected D selected finalityPoint b ∧
    ∀ x, OnSelected D selected finalityPoint x → OnSelected D selected x b → s.verifies x = true

/-- The statuses are known, and those of the blocks above the finality point are right. -/
structure Consistent (bs : List Hash) (s : SinkStores)
    (finalityPoint : Hash) (statuses : Statuses) : Prop where
  known : ∀ b ∈ bs, ∃ status, statuses b = some status
  valid : ∀ b ∈ bs, OnSelected D selected finalityPoint b →
    statuses b = some .statusStateValid → ChainValid D selected s finalityPoint b
  disqualified : ∀ b ∈ bs, OnSelected D selected finalityPoint b →
    statuses b = some .statusDisqualifiedFromChain →
      ∃ x, OnSelected D selected finalityPoint x ∧ OnSelected D selected x b ∧
        s.verifies x = false

/-- The chain of `b` is validated as far as `b`, with these statuses. -/
structure ValidUpTo (bs : List Hash) (s : SinkStores) (finalityPoint b : Hash)
    (statuses : Statuses) : Prop where
  consistent : Consistent D selected bs s finalityPoint statuses
  mem : b ∈ bs
  valid : ChainValid D selected s finalityPoint b

variable {D selected} {bs : List Hash} {s : SinkStores} {fp : Hash}

section Chain

variable {statuses : Statuses} {a b c target diffPoint source : Hash}

theorem ChainValid.of_onPath (h : ChainValid D selected s fp b) (hfp : OnSelected D selected fp a)
    (hab : OnSelected D selected a b) : ChainValid D selected s fp a :=
  ⟨hfp, fun x hx hxa => h.2 x hx (hxa.trans hab)⟩

theorem chainValid_child (hc : selectedTree D selected c = some a)
    (hfp : OnSelected D selected fp a) :
    ChainValid D selected s fp c ↔ ChainValid D selected s fp a ∧ s.verifies c = true := by
  constructor
  · intro h
    exact ⟨h.of_onPath hfp (onPath_parent hc), h.2 c (hfp.trans (onPath_parent hc)) (.refl c)⟩
  · rintro ⟨ha, hv⟩
    refine ⟨hfp.trans (onPath_parent hc), fun x hx hxc => ?_⟩
    rcases onPath_iff.mp hxc with rfl | ⟨p, hp, hxp⟩
    · exact hv
    · cases hc.symm.trans hp
      exact ha.2 x hx hxp

theorem not_chainValid_iff (hfp : OnSelected D selected fp b) :
    ¬ ChainValid D selected s fp b ↔ ∃ x, OnSelected D selected fp x ∧
      OnSelected D selected x b ∧ s.verifies x = false := by
  unfold ChainValid
  rw [and_iff_right hfp]
  push Not
  simp only [Bool.not_eq_true]

theorem Consistent.not_valid (h : Consistent D selected bs s fp statuses) (hb : b ∈ bs)
    (hfp : OnSelected D selected fp b) (hs : statuses b = some .statusDisqualifiedFromChain) :
    ¬ ChainValid D selected s fp b := (not_chainValid_iff hfp).mpr (h.disqualified b hb hfp hs)

/-- A status that is right may be set. -/
theorem Consistent.set (h : Consistent D selected bs s fp statuses) {status : BlockStatus}
    (hvalid : status = .statusStateValid → ChainValid D selected s fp c)
    (hdis : status = .statusDisqualifiedFromChain → ¬ ChainValid D selected s fp c) :
    Consistent D selected bs s fp (update statuses c (some status)) := by
  refine ⟨fun b hb => ?_, fun b hb hfp hs => ?_, fun b hb hfp hs => ?_⟩
  · by_cases hbc : b = c
    · rw [hbc, update_self]
      exact ⟨status, rfl⟩
    · rw [update_of_ne hbc]
      exact h.known b hb
  · by_cases hbc : b = c
    · subst hbc
      rw [update_self] at hs
      exact hvalid (Option.some.inj hs)
    · rw [update_of_ne hbc] at hs
      exact h.valid b hb hfp hs
  · by_cases hbc : b = c
    · subst hbc
      rw [update_self] at hs
      exact (not_chainValid_iff hfp).mp (hdis (Option.some.inj hs))
    · rw [update_of_ne hbc] at hs
      exact h.disqualified b hb hfp hs

/-! ## 3. Validating a chain -/

theorem inDag_selected (hsel : ∀ b ∈ bs, b ≠ D.genesis → selected b ∈ D.parents b) :
    InDag D (selectedTree D selected) bs := by
  intro b hb p hp
  unfold selectedTree at hp
  split at hp
  · cases hp
  · rename_i hg
    cases hp
    exact Dag.past_of_parent hg (hsel b hb hg)

section

variable (h : Follows D selected bs s)

include h

theorem Follows.inDag : InDag D (selectedTree D selected) bs := inDag_selected h.selected_mem

theorem Follows.mem_of_tree (hc : c ∈ bs) (htree : selectedTree D selected c = some a) :
    D.Past a c ∧ a ∈ bs :=
  ⟨h.inDag c hc a htree, h.grown.mem_of_past hc (h.inDag c hc a htree)⟩

theorem Follows.below_of_onPath (hb : b ∈ bs) (hab : OnSelected D selected a b) :
    D.Below a b := h.inDag.below h.grown hb hab

theorem Follows.mem_of_onPath (hb : b ∈ bs) (hab : OnSelected D selected a b) :
    a ∈ bs := h.inDag.mem h.grown hb hab

end

variable {n fuel : Nat}

/-- **The split point** is found, at or above the finality point. -/
theorem Follows.splitLoop_ok (h : Follows D selected bs s) (hfp : fp ≠ origin)
    (htarget : target ∈ bs)
    (hfpt : OnSelected D selected fp target) : ∀ {current : Hash} {steps : Nat},
    current ∈ bs → ancestorAt (selectedTree D selected) n current = some fp → n < steps →
      ∃ split, s.splitLoop target steps current = .ok (some split) ∧
        OnSelected D selected fp split ∧ OnSelected D selected split current ∧
        OnSelected D selected split target := by
  induction n with
  | zero =>
    intro current steps hcur hn hsteps
    obtain ⟨steps, rfl⟩ := Nat.exists_eq_add_of_lt hsteps
    cases Option.some.inj hn
    obtain ⟨p, hp, _⟩ := h.parent fp hcur hfp
    refine ⟨fp, ?_, .refl fp, .refl fp, hfpt⟩
    unfold SinkStores.splitLoop
    rw [if_neg hfp, hp]
    exact if_pos ((h.chain fp hcur target htarget).mpr hfpt)
  | succ n ih =>
    intro current steps hcur hn hsteps
    obtain ⟨steps, rfl⟩ := Nat.exists_eq_add_of_lt hsteps
    have hpath : OnSelected D selected fp current := ⟨n + 1, hn⟩
    obtain ⟨q, hq, hn⟩ := Option.bind_eq_some_iff.mp hn
    have hg : current ≠ D.genesis := fun he => by
      rw [he, selectedTree, if_pos rfl] at hq
      cases hq
    have hreal : current ≠ origin := fun he => hg (h.reserved current hcur he)
    obtain ⟨p, hp, hpsel⟩ := h.parent current hcur hreal
    have hqp : q = p := by
      rw [selectedTree, if_neg hg] at hq
      rw [hpsel hg]
      exact (Option.some.inj hq).symm
    subst hqp
    unfold SinkStores.splitLoop
    rw [if_neg hreal, hp]
    by_cases hanc : s.isChainAncestorOf current target = true
    · exact ⟨current, if_pos hanc, hpath, .refl _, (h.chain current hcur target htarget).mp hanc⟩
    · obtain ⟨split, hsplit, h1, h2, h3⟩ := ih (h.mem_of_tree hcur hq).2 hn
        (lt_of_lt_of_le (Nat.lt_succ_self n) (Nat.le_add_right _ _))
      refine ⟨split, ?_, h1, .of_parent hq h2, h3⟩
      dsimp only
      rw [if_neg hanc]
      exact hsplit

/-- **One block of the chain**: what is known of its chain decides what becomes of it. -/
theorem ValidUpTo.chainStep_ok (h : ValidUpTo D selected bs s fp diffPoint statuses) (hc : c ∈ bs)
    (htree : selectedTree D selected c = some a) (hfp : OnSelected D selected fp a)
    (hinv : diffPoint ≠ a → ¬ ChainValid D selected s fp a) :
    ∃ diffPoint' statuses', s.chainStep a c diffPoint statuses = .ok (diffPoint', statuses') ∧
      ValidUpTo D selected bs s fp diffPoint' statuses' ∧
      (diffPoint' ≠ c → ¬ ChainValid D selected s fp c) := by
  obtain ⟨hst, hdiff, hvalid⟩ := h
  obtain ⟨status, hstatus⟩ := hst.known c hc
  have hfpc := hfp.trans (onPath_parent htree)
  have hchild := chainValid_child (s := s) htree hfp
  unfold SinkStores.chainStep
  rw [hstatus]
  dsimp only
  by_cases hne : a ≠ diffPoint
  · -- the selected parent was disqualified
    have hnot : ¬ ChainValid D selected s fp c := fun h => hinv (Ne.symm hne) (hchild.mp h).1
    rw [if_pos hne]
    refine ⟨_, _, rfl, ⟨?_, hdiff, hvalid⟩, fun _ => hnot⟩
    split
    · exact hst.set (fun h => by cases h) fun _ => hnot
    · exact hst
  · cases not_not.mp hne
    rw [if_neg hne]
    by_cases hsv : status = .statusStateValid
    · rw [if_pos hsv]
      exact ⟨_, _, rfl, ⟨hst, hc, hst.valid c hc hfpc (hsv ▸ hstatus)⟩, fun h => absurd rfl h⟩
    rw [if_neg hsv]
    by_cases hdq : status = .statusDisqualifiedFromChain
    · rw [if_pos hdq]
      exact ⟨_, _, rfl, ⟨hst, hdiff, hvalid⟩, fun _ => hst.not_valid hc hfpc (hdq ▸ hstatus)⟩
    rw [if_neg hdq]
    by_cases hv : s.verifies c = true
    · have hcv := hchild.mpr ⟨hvalid, hv⟩
      rw [if_pos hv]
      exact ⟨_, _, rfl, ⟨hst.set (fun _ => hcv) (fun h => by cases h), hc, hcv⟩,
        fun h => absurd rfl h⟩
    · have hnot : ¬ ChainValid D selected s fp c := fun h => hv (hchild.mp h).2
      rw [if_neg hv]
      exact ⟨_, _, rfl, ⟨hst.set (fun h => by cases h) fun _ => hnot, hdiff, hvalid⟩, fun _ => hnot⟩

variable (h : Follows D selected bs s)

include h

theorem Follows.forwardLoop_ok (htarget : target ∈ bs) :
    ∀ {current diffPoint : Hash} {statuses : Statuses} {steps : Nat},
    ancestorAt (selectedTree D selected) n target = some current → n < steps →
    ValidUpTo D selected bs s fp diffPoint statuses → OnSelected D selected fp current →
    (diffPoint ≠ current → ¬ ChainValid D selected s fp current) → ∃ diffPoint' statuses',
    s.forwardLoop target steps current diffPoint statuses = .ok (diffPoint', statuses') ∧
        ValidUpTo D selected bs s fp diffPoint' statuses' ∧
        (diffPoint' = target ↔ ChainValid D selected s fp target) := by
  induction n with
  | zero =>
    intro current diffPoint statuses steps hn hsteps hup hfp hinv
    obtain ⟨steps, rfl⟩ := Nat.exists_eq_add_of_lt hsteps
    cases Option.some.inj hn
    refine ⟨diffPoint, statuses, if_pos rfl, hup, fun he => he ▸ hup.valid, fun hv => ?_⟩
    by_contra hne
    exact hinv hne hv
  | succ n ih =>
    intro current diffPoint statuses steps hn hsteps hup hfp hinv
    obtain ⟨steps, rfl⟩ := Nat.exists_eq_add_of_lt hsteps
    obtain ⟨c, hcn, htree⟩ := ancestorAt_succ_iff.mp hn
    have hcpath : OnSelected D selected c target := ⟨n, hcn⟩
    have hcb := h.mem_of_onPath htarget hcpath
    have hne : current ≠ target := fun he => by
      have hpast := (h.mem_of_tree hcb htree).1.below (h.below_of_onPath htarget hcpath)
      exact h.grown.past_irrefl htarget (he ▸ hpast)
    obtain ⟨diffPoint', statuses', hstep, hup', hinv'⟩ := hup.chainStep_ok hcb htree hfp hinv
    obtain ⟨d, st, hloop, hrest⟩ :=
      ih hcn (lt_of_lt_of_le (Nat.lt_succ_self n) (Nat.le_add_right _ steps)) hup'
      (hfp.trans (onPath_parent htree)) hinv'
    refine ⟨d, st, ?_, hrest⟩
    unfold SinkStores.forwardLoop
    rw [if_neg hne, h.next target htarget htree hcpath]
    dsimp only
    rw [hstep]
    exact hloop

/-- **Validating a chain**: it ends at the block exactly when the block's chain is valid from the
    finality point up. -/
theorem Follows.calculateRegistryUnitStateRelatively_ok (hreal : fp ≠ origin)
    (hup : ValidUpTo D selected bs s fp source statuses) (htarget : target ∈ bs)
    (hfp : OnSelected D selected fp target) (hfuel : bs.length ≤ fuel) : ∃ diffPoint statuses',
      s.calculateRegistryUnitStateRelatively fuel statuses source target =
        .ok (diffPoint, statuses') ∧ ValidUpTo D selected bs s fp diffPoint statuses' ∧
      (diffPoint = target ↔ ChainValid D selected s fp target) := by
  obtain ⟨status, hstatus⟩ := hup.consistent.known target htarget
  unfold SinkStores.calculateRegistryUnitStateRelatively
  rw [hstatus]
  dsimp only
  by_cases hdq : status = .statusDisqualifiedFromChain
  · rw [if_pos hdq]
    have hnot := hup.consistent.not_valid htarget hfp (hdq ▸ hstatus)
    exact ⟨source, statuses, rfl, hup, fun he => he ▸ hup.valid, fun hv => absurd hv hnot⟩
  · obtain ⟨n, hn⟩ := hup.valid.1
    obtain ⟨split, hsplit, hfps, hss, ⟨k, hk⟩⟩ := h.splitLoop_ok hreal htarget hfp hup.mem hn
      (lt_of_lt_of_le (h.inDag.steps_lt h.grown hup.mem hn) hfuel)
    rw [if_neg hdq, hsplit]
    exact h.forwardLoop_ok htarget hk (lt_of_lt_of_le (h.inDag.steps_lt h.grown htarget hk) hfuel)
      ⟨hup.consistent, h.mem_of_onPath hup.mem hss, hup.valid.of_onPath hfps hss⟩ hfps fun hne =>
      absurd rfl hne

theorem Follows.lookAt_ok (hreal : fp ≠ origin) (hfp : fp ∈ bs)
    (hup : ValidUpTo D selected bs s fp diffPoint statuses)
    (hc : c ∈ bs) (hfuel : bs.length ≤ fuel) :
    ∃ diffPoint' statuses', s.lookAt fuel fp diffPoint statuses c = .ok (diffPoint', statuses') ∧
      ValidUpTo D selected bs s fp diffPoint' statuses' ∧
      (s.isChainAncestorOf fp c = true ∧ diffPoint' = c ↔ ChainValid D selected s fp c) := by
  have hchain := h.chain fp hfp c hc
  unfold SinkStores.lookAt
  by_cases hon : s.isChainAncestorOf fp c = true
  · obtain ⟨d, st, hcalc, hup', hiff⟩ :=
      h.calculateRegistryUnitStateRelatively_ok hreal hup hc (hchain.mp hon) hfuel
    rw [if_pos hon]
    exact ⟨d, st, hcalc, hup', by rw [and_iff_right hon]; exact hiff⟩
  · rw [if_neg hon]
    exact ⟨diffPoint, statuses, rfl, hup,
      iff_of_false (fun hd => hon hd.1) fun hv => hon (hchain.mpr hv.1)⟩

end Chain

/-! ## 4. The heap -/

/-- The place of a block in the order. -/
def sinkKey (s : SinkStores) (b : Hash) : SortKey :=
  (⟨b, (s.blueWork b).getD 0⟩ : SortableBlock).key

section Heap

variable {heap rest : List SortableBlock}

theorem popMax_none (h : SinkStores.popMax heap = none) : heap = [] := by
  cases heap with
  | nil => rfl
  | cons b rest =>
    unfold SinkStores.popMax at h
    split at h
    · cases h
    · split at h <;> cases h

/-- **Popping** takes the largest block. -/
theorem popMax_some {c : SortableBlock} (h : SinkStores.popMax heap = some (c, rest)) :
    heap.Perm (c :: rest) ∧ ∀ b ∈ rest, b.key ≤ c.key := by
  induction heap generalizing c rest with
  | nil => cases h
  | cons b heap ih =>
    unfold SinkStores.popMax at h
    split at h
    · rename_i hnone
      cases h
      rw [popMax_none hnone]
      exact ⟨.refl _, forall_mem_nil _⟩
    · rename_i c' others hsome
      obtain ⟨hperm, hle⟩ := ih hsome
      split at h
      · rename_i hlt
        cases h
        refine ⟨hperm.cons b, forall_mem_cons.mpr ⟨hlt.le, fun x hx => ?_⟩⟩
        exact (hle x hx).trans hlt.le
      · rename_i hnlt
        cases h
        refine ⟨(hperm.cons b).trans (.swap _ _ _), forall_mem_cons.mpr ⟨not_lt.mp hnlt, hle⟩⟩

variable {x y a b : Hash}

theorem Follows.key_lt (h : Follows D selected bs s) (hy : y ∈ bs) (hxy : D.Past x y) :
    sinkKey s x < sinkKey s y := by
  have hedge : ∀ {x y : Hash}, y ∈ bs → D.Edge x y → sinkKey s x < sinkKey s y :=
    fun {x y} hy he => by
    obtain ⟨wx, hwx⟩ := h.work x (h.grown.mem_of_past hy he.past)
    obtain ⟨wy, hwy⟩ := h.work y hy
    unfold sinkKey SortableBlock.key
    rw [hwx, hwy]
    exact Prod.Lex.toLex_lt_toLex.mpr (.inl (h.increasing hy he hwx hwy))
  induction hxy with
  | single he => exact hedge hy he
  | tail hxz he ih => exact (ih (h.grown.mem_of_past hy he.past)).trans (hedge hy he)

theorem Follows.key_le (h : Follows D selected bs s) (hy : y ∈ bs) (hxy : D.Below x y) :
    sinkKey s x ≤ sinkKey s y := by
  rcases hxy with rfl | hxy
  · exact le_rfl
  · exact (h.key_lt hy hxy).le

theorem sinkKey_inj (h : sinkKey s a = sinkKey s b) : a = b := by
  have h2 := congrArg (fun k => (ofLex k).2) h
  exact H256.ext (toNat_map_inj h2)

theorem key_of_own {b : SortableBlock} (h : s.blueWork b.hash = some b.blueWork) :
    b.key = sinkKey s b.hash := by
  unfold sinkKey
  rw [h, Option.getD_some]

/-- **Pushing the parents** that can lead to an eligible block and are not below the heap
    already. -/
theorem Follows.pushParents_ok (h : Follows D selected bs s) (hfp : fp ∈ bs) {ps : List Hash} :
    ∀ {heap : List SortableBlock}, (∀ p ∈ ps, p ∈ bs) → ps.Pairwise D.Anticone →
    (∀ b ∈ heap, b.hash ∈ bs) → heap.Pairwise (fun a b => D.Anticone a.hash b.hash) →
    (∀ b ∈ heap, ∀ p ∈ ps, ¬ D.Past b.hash p) →
      ∃ heap', s.pushParents fp ps heap = .ok heap' ∧ (∀ b ∈ heap, b ∈ heap') ∧
        (∀ b ∈ heap', b ∈ heap ∨ b.hash ∈ ps ∧ s.blueWork b.hash = some b.blueWork) ∧
        heap'.Pairwise (fun a b => D.Anticone a.hash b.hash) ∧
        ∀ p ∈ ps, D.Below fp p → ∃ b ∈ heap', D.Below p b.hash := by
  induction ps with
  | nil =>
    intro heap _ _ _ hanti _
    exact ⟨heap, rfl, fun _ hb => hb, fun _ hb => .inl hb, hanti, forall_mem_nil _⟩
  | cons p ps ih =>
    intro heap hps hpanti hheap hanti hnot
    obtain ⟨hp, hps⟩ := forall_mem_cons.mp hps
    obtain ⟨hpfirst, hpanti⟩ := pairwise_cons.mp hpanti
    have hany : (heap.any fun b => s.isDagAncestorOf p b.hash) = true ↔
        ∃ b ∈ heap, D.Below p b.hash := by
      rw [any_eq_true]
      exact exists_congr fun b => and_congr_right fun hb => h.dag p hp _ (hheap b hb)
    unfold SinkStores.pushParents
    by_cases hpush :
      (s.isDagAncestorOf fp p && !(heap.any fun b => s.isDagAncestorOf p b.hash)) = true
    · obtain ⟨w, hw⟩ := h.work p hp
      have hnone : ¬ ∃ b ∈ heap, D.Below p b.hash := fun he => by
        rw [hany.mpr he] at hpush
        simp at hpush
      have hanti' : (⟨p, w⟩ :: heap : List SortableBlock).Pairwise fun a b =>
          D.Anticone a.hash b.hash := by
        refine pairwise_cons.mpr ⟨fun b hb => ⟨?_, ?_, ?_⟩, hanti⟩
        · exact fun he => hnone ⟨b, hb, .inl he⟩
        · exact fun hp => hnone ⟨b, hb, .inr hp⟩
        · exact hnot b hb p mem_cons_self
      obtain ⟨heap', hloop, hsub, hnew, hanti'', hcover⟩ :=
        ih hps hpanti (forall_mem_cons.mpr ⟨hp, hheap⟩) hanti' (forall_mem_cons.mpr
        ⟨fun q hq => (hpfirst q hq).2.1, fun b hb q hq => hnot b hb q (mem_cons_of_mem _ hq)⟩)
      rw [if_pos hpush, hw]
      refine ⟨heap', hloop, fun b hb => hsub b (mem_cons_of_mem _ hb), fun b hb => ?_, hanti'',
        forall_mem_cons.mpr ⟨fun _ => ⟨⟨p, w⟩, hsub _ mem_cons_self, .refl p⟩, hcover⟩⟩
      rcases hnew b hb with hb | ⟨hb, hbw⟩
      · rcases mem_cons.mp hb with rfl | hb
        · exact .inr ⟨mem_cons_self, hw⟩
        · exact .inl hb
      · exact .inr ⟨mem_cons_of_mem _ hb, hbw⟩
    · obtain ⟨heap', hloop, hsub, hnew, hanti', hcover⟩ := ih hps hpanti hheap hanti
        fun b hb q hq => hnot b hb q (mem_cons_of_mem _ hq)
      rw [if_neg hpush]
      refine ⟨heap', hloop, hsub, fun b hb => ?_, hanti',
        forall_mem_cons.mpr ⟨fun hfpp => ?_, hcover⟩⟩
      · exact (hnew b hb).imp_right fun hb => ⟨mem_cons_of_mem _ hb.1, hb.2⟩
      · have hreach := (h.dag fp hfp p hp).mpr hfpp
        rw [hreach, Bool.true_and, Bool.not_eq_true', Bool.not_eq_false] at hpush
        obtain ⟨b, hb, hpb⟩ := hany.mp hpush
        exact ⟨b, hsub b hb, hpb⟩

theorem Follows.toHeap_ok (h : Follows D selected bs s) {tips : List Hash}
    (htips : ∀ t ∈ tips, t ∈ bs) : ∃ heap, s.toHeap tips = .ok heap ∧ heap.map (·.hash) = tips ∧
      ∀ b ∈ heap, s.blueWork b.hash = some b.blueWork := by
  induction tips with
  | nil => exact ⟨[], rfl, rfl, forall_mem_nil _⟩
  | cons t tips ih =>
    obtain ⟨ht, htips⟩ := forall_mem_cons.mp htips
    obtain ⟨heap, hheap, hmap, hown⟩ := ih htips
    obtain ⟨w, hw⟩ := h.work t ht
    refine ⟨⟨t, w⟩ :: heap, ?_, by rw [map_cons, hmap], forall_mem_cons.mpr ⟨hw, hown⟩⟩
    unfold SinkStores.toHeap
    rw [hw]
    rw [hheap]
    rfl

end Heap

/-! ## 5. The search -/

/-- A block in the inclusive past of the tips with a valid chain from the finality point up. -/
def Eligible (D : Dag Hash) (selected : Hash → Hash) (s : SinkStores) (tips : List Hash)
    (finalityPoint b : Hash) : Prop :=
  (∃ t ∈ tips, D.Below b t) ∧ ChainValid D selected s finalityPoint b

/-- The heap: an antichain below the tips, with everything eligible below it; the blocks taken came
    later in the order. -/
structure SinkSearch (D : Dag Hash) (selected : Hash → Hash) (bs : List Hash) (s : SinkStores)
    (tips : List Hash) (finalityPoint : Hash) (heap : List SortableBlock) (popped : List Hash) :
    Prop where
  own : ∀ b ∈ heap, b.hash ∈ bs ∧ s.blueWork b.hash = some b.blueWork ∧ ∃ t ∈ tips, D.Below b.hash t
  antichain : heap.Pairwise fun a b => D.Anticone a.hash b.hash
  cover : ∀ e, Eligible D selected s tips finalityPoint e → ∃ b ∈ heap, D.Below e b.hash
  nodup : popped.Nodup
  mem : ∀ p ∈ popped, p ∈ bs
  later : ∀ p ∈ popped, ∀ b ∈ heap, sinkKey s b.hash < sinkKey s p

section Search

variable {tips popped : List Hash} {heap rest : List SortableBlock} {c : SortableBlock} {e : Hash}

section

variable (hs : SinkSearch D selected bs s tips fp heap popped)
  (hpop : SinkStores.popMax heap = some (c, rest))

include hs hpop

/-- Nothing eligible comes after the block that is taken. -/
theorem SinkSearch.best (h : Follows D selected bs s) (he : Eligible D selected s tips fp e) :
    sinkKey s e ≤ sinkKey s c.hash := by
  obtain ⟨hperm, hle⟩ := popMax_some hpop
  have hcheap : c ∈ heap := hperm.mem_iff.mpr mem_cons_self
  obtain ⟨b, hb, heb⟩ := hs.cover e he
  refine (h.key_le (hs.own b hb).1 heb).trans ?_
  rcases mem_cons.mp (hperm.mem_iff.mp hb) with rfl | hbr
  · exact le_rfl
  · have := hle b hbr
    rwa [key_of_own (hs.own b hb).2.1, key_of_own (hs.own c hcheap).2.1] at this

/-- The other blocks of the heap are in the anticone of the one that is taken, and before it. -/
theorem SinkSearch.others : (c :: rest).Pairwise (fun a b => D.Anticone a.hash b.hash) ∧
      ∀ b ∈ rest, b ∈ heap ∧ sinkKey s b.hash < sinkKey s c.hash := by
  obtain ⟨hperm, hle⟩ := popMax_some hpop
  have hcheap : c ∈ heap := hperm.mem_iff.mpr mem_cons_self
  have hanti := (hperm.pairwise_iff fun h => Dag.Anticone.symm h).mp hs.antichain
  refine ⟨hanti, fun b hb => ?_⟩
  have hbheap : b ∈ heap := hperm.mem_iff.mpr (mem_cons_of_mem _ hb)
  have hkey := hle b hb
  rw [key_of_own (hs.own b hbheap).2.1, key_of_own (hs.own c hcheap).2.1] at hkey
  refine ⟨hbheap, lt_of_le_of_ne hkey fun he => ?_⟩
  exact ((pairwise_cons.mp hanti).1 b hb).1 (sinkKey_inj he).symm

/-- **The parents take the place of a block** that is not eligible. -/
theorem SinkSearch.step (h : Follows D selected bs s) (hfp : fp ∈ bs) (hc : c.hash ≠ D.genesis)
    (hnot : ¬ ChainValid D selected s fp c.hash) :
    ∃ heap', s.pushParents fp (D.parents c.hash) rest = .ok heap' ∧
      SinkSearch D selected bs s tips fp heap' (c.hash :: popped) := by
  obtain ⟨hperm, _⟩ := popMax_some hpop
  obtain ⟨hanti, hrest⟩ := hs.others hpop
  obtain ⟨hcfirst, hanti⟩ := pairwise_cons.mp hanti
  have hcheap : c ∈ heap := hperm.mem_iff.mpr mem_cons_self
  obtain ⟨hcb, _, t, ht, hct⟩ := hs.own c hcheap
  obtain ⟨_, hpold, hpanti⟩ := h.grown.of_mem hcb hc
  have hpast : ∀ p ∈ D.parents c.hash, D.Past p c.hash := fun p hp => Dag.past_of_parent hc hp
  obtain ⟨heap', hpush, hsub, hnew, hanti', hcover⟩ := h.pushParents_ok hfp hpold hpanti
    (fun b hb => (hs.own b (hrest b hb).1).1) hanti fun b hb p hp hbp =>
    (hcfirst b hb).2.2 (hbp.trans (hpast p hp))
  have hbefore : ∀ b ∈ heap', sinkKey s b.hash < sinkKey s c.hash := fun b hb => by
    rcases hnew b hb with hb | ⟨hb, _⟩
    · exact (hrest b hb).2
    · exact h.key_lt hcb (hpast _ hb)
  refine ⟨heap', hpush, fun b hb => ?_, hanti', fun e he => ?_, ?_, ?_, ?_⟩
  · rcases hnew b hb with hb | ⟨hb, hbw⟩
    · exact hs.own b (hrest b hb).1
    · exact ⟨hpold _ hb, hbw, t, ht, .inr ((hpast _ hb).below hct)⟩
  · -- below another block of the heap, or below a parent
    obtain ⟨b, hb, heb⟩ := hs.cover e he
    rcases mem_cons.mp (hperm.mem_iff.mp hb) with rfl | hbr
    · rcases heb with rfl | heb
      · exact absurd he.2 hnot
      · obtain ⟨_, p, hp, hep⟩ := Dag.past_iff.mp heb
        have heb := h.grown.mem_of_below (hpold p hp) hep
        have hfpp := (h.below_of_onPath heb he.2.1).trans hep
        obtain ⟨b, hb, hpb⟩ := hcover p hp hfpp
        exact ⟨b, hb, hep.trans hpb⟩
    · exact ⟨b, hsub b hbr, heb⟩
  · exact nodup_cons.mpr ⟨fun hm => lt_irrefl _ (hs.later _ hm c hcheap), hs.nodup⟩
  · exact forall_mem_cons.mpr ⟨hcb, hs.mem⟩
  · exact forall_mem_cons.mpr
      ⟨hbefore, fun p hp b hb => (hbefore b hb).trans (hs.later p hp c hcheap)⟩

/-- The candidates that are returned: with the sink an antichain, in descending order. -/
theorem SinkSearch.candidates_ok (p : SortableBlock → Bool) :
    (c.hash :: ((rest.insertionSort fun a b => b.key ≤ a.key).takeWhile p).map (·.hash)).Pairwise
      D.Anticone ∧
    (c.hash :: ((rest.insertionSort fun a b => b.key ≤ a.key).takeWhile p).map (·.hash)).Pairwise
      (fun x y => sinkKey s y < sinkKey s x) := by
  obtain ⟨hanti, hrest⟩ := hs.others hpop
  have hperm := perm_insertionSort (fun a b : SortableBlock => b.key ≤ a.key) rest
  have hsub := takeWhile_sublist (l := rest.insertionSort fun a b => b.key ≤ a.key) p
  have hmem : ∀ b ∈ (rest.insertionSort fun a b => b.key ≤ a.key).takeWhile p, b ∈ rest :=
    fun b hb =>
    hperm.mem_iff.mp (hsub.subset hb)
  have hanti' : (c :: (rest.insertionSort fun a b => b.key ≤ a.key).takeWhile p).Pairwise
      fun a b => D.Anticone a.hash b.hash :=
    (((hperm.cons c).pairwise_iff fun h => Dag.Anticone.symm h).mpr hanti).sublist
      (hsub.cons_cons c)
  have hsorted :=
    (pairwise_insertionSort (fun a b : SortableBlock => b.key ≤ a.key) rest).sublist hsub
  have hkey : ∀ b ∈ rest, b.key = sinkKey s b.hash :=
    fun b hb => key_of_own (hs.own b (hrest b hb).1).2.1
  constructor
  · exact pairwise_map.mpr hanti'
  · refine pairwise_cons.mpr ⟨fun y hy => ?_, pairwise_map.mpr ?_⟩
    · obtain ⟨b, hb, rfl⟩ := mem_map.mp hy
      exact (hrest b (hmem b hb)).2
    · refine (hsorted.and (pairwise_cons.mp hanti').2).imp_of_mem fun ha hb hab => ?_
      have hle := hab.1
      rw [hkey _ (hmem _ ha), hkey _ (hmem _ hb)] at hle
      exact lt_of_le_of_ne hle fun he => hab.2.1 (sinkKey_inj he).symm

/-- As long as something is eligible, the search does not get below the first block. -/
theorem SinkSearch.ne_genesis (h : Follows D selected bs s) (he : Eligible D selected s tips fp e)
    (hnot : ¬ ChainValid D selected s fp c.hash) : c.hash ≠ D.genesis := by
  intro hg
  obtain ⟨hperm, _⟩ := popMax_some hpop
  obtain ⟨b, hb, heb⟩ := hs.cover e he
  rcases mem_cons.mp (hperm.mem_iff.mp hb) with rfl | hbr
  · rcases heb with rfl | heb
    · exact hnot he.2
    · exact Dag.not_past_genesis (hg ▸ heb)
  · have hap := (pairwise_cons.mp (hs.others hpop).1).1 b hbr
    rw [hg] at hap
    rcases h.grown.genesis_below (hs.own b hb).1 with hgb | hgb
    · exact hap.1 hgb
    · exact hap.2.1 hgb

end

/-- What the search returns. -/
structure BestSink (D : Dag Hash) (selected : Hash → Hash) (bs : List Hash) (s : SinkStores)
    (tips : List Hash) (finalityPoint : Hash) (sink : Hash) (candidates : List Hash)
    (statuses : Statuses) : Prop where
  eligible : Eligible D selected s tips finalityPoint sink
  best : ∀ b, Eligible D selected s tips finalityPoint b → sinkKey s b ≤ sinkKey s sink
  antichain : (sink :: candidates).Pairwise D.Anticone
  descending : (sink :: candidates).Pairwise fun x y => sinkKey s y < sinkKey s x
  consistent : Consistent D selected bs s finalityPoint statuses

theorem SinkSearch.searchLoop_ok (h : Follows D selected bs s) (hreal : fp ≠ origin) (hfp : fp ∈ bs)
    (he : Eligible D selected s tips fp e) {fuel : Nat} (hfuel : bs.length ≤ fuel) {steps : Nat} :
    ∀ {heap : List SortableBlock} {popped : List Hash} {diffPoint : Hash} {statuses : Statuses},
    SinkSearch D selected bs s tips fp heap popped →
    ValidUpTo D selected bs s fp diffPoint statuses →
    bs.length < popped.length + steps → ∃ sink candidates statuses',
        s.searchLoop fuel fp steps heap diffPoint statuses = .ok (sink, candidates, statuses') ∧
        BestSink D selected bs s tips fp sink candidates statuses' := by
  induction steps with
  | zero =>
    intro heap popped diffPoint statuses hs _ hlen
    exact absurd (hs.nodup.subperm hs.mem).length_le (not_le.mpr hlen)
  | succ steps ih =>
    intro heap popped diffPoint statuses hs hup hlen
    cases hpop : SinkStores.popMax heap with
    | none =>
      obtain ⟨b, hb, _⟩ := hs.cover e he
      rw [popMax_none hpop] at hb
      exact absurd hb not_mem_nil
    | some next =>
      obtain ⟨c, rest⟩ := next
      have hcheap : c ∈ heap := (popMax_some hpop).1.mem_iff.mpr mem_cons_self
      obtain ⟨hcb, _, hctip⟩ := hs.own c hcheap
      obtain ⟨diffPoint', statuses', hlook, hup', hiff⟩ := h.lookAt_ok hreal hfp hup hcb hfuel
      unfold SinkStores.searchLoop
      rw [hpop]
      dsimp only
      rw [hlook, Run.ok_bind]
      by_cases hcv : ChainValid D selected s fp c.hash
      · obtain ⟨root, hroot⟩ := h.depth c.hash hcb
        obtain ⟨hanti, hdesc⟩ :=
          hs.candidates_ok hpop fun b => decide ((s.blueWork root).getD 0 ≤ b.blueWork)
        rw [if_pos (hiff.mpr hcv), hroot]
        exact ⟨_, _, _, rfl, ⟨hctip, hcv⟩, fun b hb => hs.best hpop h hb, hanti, hdesc,
          hup'.consistent⟩
      · have hcg := hs.ne_genesis hpop h he hcv
        obtain ⟨heap', hpush, hs'⟩ := hs.step hpop h hfp hcg hcv
        rw [if_neg (mt hiff.mp hcv), h.parents c.hash hcb hcg]
        dsimp only
        rw [hpush]
        exact ih hs' hup' (by rw [length_cons]; omega)

/-- **The sink is the best valid chain tip.** -/
theorem sink_search_best (h : Follows D selected bs s) (hreal : fp ≠ origin)
    (htips : ∀ t ∈ tips, t ∈ bs) (hanti : tips.Pairwise D.Anticone) {statuses : Statuses}
    (hst : Consistent D selected bs s fp statuses) {prevSink : Hash}
    (hvalid : statuses prevSink = some .statusStateValid) (hbelow : ∃ t ∈ tips, D.Below prevSink t)
    (hchain : OnSelected D selected fp prevSink) {fuel : Nat} (hfuel : bs.length < fuel) :
    ∃ sink candidates statuses',
      s.sinkSearchAlgorithm fuel statuses prevSink tips fp = .ok (sink, candidates, statuses') ∧
      BestSink D selected bs s tips fp sink candidates statuses' := by
  obtain ⟨t, ht, hpt⟩ := hbelow
  have hprev : prevSink ∈ bs := h.grown.mem_of_below (htips t ht) hpt
  have hfp : fp ∈ bs := h.mem_of_onPath hprev hchain
  have hcv := hst.valid prevSink hprev hchain hvalid
  obtain ⟨heap, hheap, hmap, hown⟩ := h.toHeap_ok htips
  have htip : ∀ b ∈ heap, b.hash ∈ tips := fun b hb => hmap ▸ mem_map_of_mem hb
  have hs : SinkSearch D selected bs s tips fp heap [] := by
    refine ⟨fun b hb => ⟨htips _ (htip b hb), hown b hb, _, htip b hb, .refl _⟩, ?_, ?_, .nil,
      forall_mem_nil _, forall_mem_nil _⟩
    · rw [← hmap] at hanti
      exact pairwise_map.mp hanti
    · rintro e ⟨⟨t', ht', het⟩, _⟩
      rw [← hmap] at ht'
      obtain ⟨b, hb, rfl⟩ := mem_map.mp ht'
      exact ⟨b, hb, het⟩
  obtain ⟨sink, candidates, statuses', hloop, hbest⟩ := hs.searchLoop_ok h hreal hfp
    ⟨⟨t, ht, hpt⟩, hcv⟩ (le_of_lt hfuel) ⟨hst, hprev, hcv⟩
    (show bs.length < ([] : List Hash).length + fuel by rw [length_nil, zero_add]; exact hfuel)
  refine ⟨sink, candidates, statuses', ?_, hbest⟩
  unfold SinkStores.sinkSearchAlgorithm
  rw [hheap]
  exact hloop

end Search

/-! ## 6. Stores for a DAG -/

/-- Whether a block is on the chain of another one, by at most `n` steps. -/
def onChain (D : Dag Hash) (selected : Hash → Hash) (n : Nat) (a b : Hash) : Bool :=
  (List.range n).any fun i => decide (ancestorAt (selectedTree D selected) i b = some a)

/-- Stores in which everything about the blocks `bs` is computed from the DAG. -/
def computedStores (D : Dag Hash) (selected : Hash → Hash) (bs : List Hash)
    (work : Hash → BlueWorkType) (verifies : Hash → Bool) : SinkStores where
  parents b := some (D.parents b)
  blueWork b := some (work b)
  mergeDepthRoot _ := some D.genesis
  isDagAncestorOf := D.reaches bs.length
  isChainAncestorOf := onChain D selected bs.length
  chainParent b := some ((selectedTree D selected b).getD origin)
  nextChainAncestor d a :=
    bs.find? fun c =>
      decide (selectedTree D selected c = some a) && onChain D selected bs.length c d
  verifies := verifies

section Computed

variable {work : Hash → BlueWorkType} {verifies : Hash → Bool}

theorem follows_computed (hgrown : D.Grown bs) (hreserved : ∀ b ∈ bs, b = origin → b = D.genesis)
    (hsel : ∀ b ∈ bs, b ≠ D.genesis → selected b ∈ D.parents b)
    (hwork : ∀ b ∈ bs, b ≠ D.genesis → ∀ p ∈ D.parents b, (work p).toNat < (work b).toNat) :
    Follows D selected bs (computedStores D selected bs work verifies) := by
  have htree : InDag D (selectedTree D selected) bs := inDag_selected hsel
  have hchain : ∀ {a b : Hash}, b ∈ bs →
      (onChain D selected bs.length a b = true ↔ OnSelected D selected a b) := htree.any_iff hgrown
  refine ⟨hgrown, hreserved, hsel, fun _ _ _ => rfl, fun b _ => ⟨work b, rfl⟩, ?_,
    fun _ _ => ⟨_, rfl⟩, reaches_of_grown hgrown, fun a _ b hb => hchain hb, ?_, ?_⟩
  · intro p b wp wb hb he hp hb'
    cases hp
    cases hb'
    exact hwork b hb he.1 p he.2
  · intro b hb _
    refine ⟨_, rfl, fun hg => ?_⟩
    rw [selectedTree, if_neg hg]
    rfl
  · intro a c d hd hc hcd
    have hrise : Rising (selectedTree D selected) (fun b => (work b).toNat) d := by
      intro x p hx hp
      unfold selectedTree at hp
      split at hp
      · cases hp
      · rename_i hg
        cases hp
        have hxb := htree.mem hgrown hd hx
        exact hwork x hxb hg _ (hsel x hxb hg)
    have hsat : (decide (selectedTree D selected c = some a) && onChain D selected bs.length c d) =
        true := by
      rw [Bool.and_eq_true]
      exact ⟨decide_eq_true hc, (hchain hd).mpr hcd⟩
    have hsome : (bs.find? fun c => decide (selectedTree D selected c = some a) &&
        onChain D selected bs.length c d).isSome = true :=
      find?_isSome.mpr ⟨c, htree.mem hgrown hd hcd, hsat⟩
    obtain ⟨c', hc'⟩ := Option.isSome_iff_exists.mp hsome
    have hsat' := find?_some hc'
    rw [Bool.and_eq_true, decide_eq_true_iff, hchain hd] at hsat'
    exact hc'.trans (congrArg some (hrise.child_unique hsat'.2 hcd hsat'.1 hc))

end Computed

/-- The blocks of `fork` without the last one: 1 over 2, and 3, over the genesis block. -/
def openFork : List Hash := [hashOf 1, hashOf 2, hashOf 3, hashOf 0]

def openForkSelected (b : Hash) : Hash := if b = hashOf 1 then hashOf 2 else hashOf 0

def openForkStores : SinkStores :=
  computedStores fork openForkSelected openFork
    (fun b => if b = hashOf 1 then 2 else if b = hashOf 0 then 0 else 1)
    (fun b => decide (b ≠ hashOf 1))

def openForkStatuses : Statuses := fun b =>
  some (if b = hashOf 0 then .statusStateValid else .statusStatePendingVerification)

theorem open_fork_sink : ∃ sink candidates statuses',
      openForkStores.sinkSearchAlgorithm 5 openForkStatuses
        (hashOf 0) [hashOf 1, hashOf 3] (hashOf 0) = .ok (sink, candidates, statuses') ∧
      BestSink fork openForkSelected openFork openForkStores
        [hashOf 1, hashOf 3] (hashOf 0) sink candidates statuses' := by
  have hgrown : fork.Grown openFork := by
    refine .add (.add (.add .start ?_ ?_ ?_ ?_) ?_ ?_ ?_ ?_) ?_ ?_ ?_ ?_
    all_goals first | decide | exact pairwise_singleton _ _
  have hfollows : Follows fork openForkSelected openFork
      openForkStores :=
    follows_computed hgrown (by decide) (by decide) (by decide)
  have hanti : [hashOf 1, hashOf 3].Pairwise fork.Anticone := pairwise_pair.mpr
    ((hgrown.anticone_iff le_rfl (by decide) (by decide)).mpr (by decide))
  have hroot : ∀ {x}, OnSelected fork openForkSelected x (hashOf 0) → x = hashOf 0 :=
    fun {x} hx => by
    rcases onPath_iff.mp hx with he | ⟨p, hp, _⟩
    · exact he
    · cases hp
  have hst : Consistent fork openForkSelected openFork openForkStores
      (hashOf 0) openForkStatuses := by
    refine ⟨fun b _ => ⟨_, rfl⟩, fun b _ _ hs => ?_, fun b _ _ hs => ?_⟩
    · by_cases hb : b = hashOf 0
      · subst hb
        exact ⟨.refl _, fun x _ hx => by rw [hroot hx]; decide⟩
      · simp [openForkStatuses, hb] at hs
    · by_cases hb : b = hashOf 0 <;> simp [openForkStatuses, hb] at hs
  exact sink_search_best hfollows (by decide) (by decide) hanti hst (by decide)
    ⟨hashOf 1, by decide, hgrown.genesis_below (by decide)⟩ (.refl _) (by decide)

end Sahyadri.Pipeline
