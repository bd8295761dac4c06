import Sahyadri.Consensus.MergeDepth

/-!
# The parents of a block at every block level

At a level the parents of a block are gathered from those direct parents that are of this level and,
for the others, from the parents that their headers list; an antichain of them is kept.

* `level_parents_maximal`: every level has the maximal blocks of the level in the past.
  `levels_exceeded`: 256 levels do not fit into the list.
-/

namespace Sahyadri.Core.CompressedParents

open Lib List

/-! ## 1. Pushing a level -/

def push (p : CompressedParents) (parentsAtLevel : List Hash) : Run Empty CompressedParents :=
  match p.runs.getLast? with
  | none => .ok ⟨[(1, parentsAtLevel)]⟩
  | some last =>
    if last.1 = 255 then .panicked
    else if last.2 = parentsAtLevel then .ok ⟨p.runs.dropLast ++ [(last.1 + 1, last.2)]⟩
    else .ok ⟨p.runs ++ [(last.1 + 1, parentsAtLevel)]⟩

/-- The levels that the runs stand for. -/
def levels (p : CompressedParents) : List (List Hash) := expand 0 (counted p.runs)

variable {p : CompressedParents}

theorem length_levels (h : Grows 0 (counted p.runs)) : p.levels.length = p.expandedLen := by
  rw [levels, length_expand h, expandedLen_eq, Nat.sub_zero]

theorem get_levels (h : Grows 0 (counted p.runs)) (i : Nat) :
    (p.get i : Run Empty _) = .ok p.levels[i]? := by
  by_cases hi : i < p.expandedLen
  · exact get_eq h hi
  · rw [beyond_expandedLen (Nat.le_of_not_lt hi), getElem?_eq_none (by rw [length_levels h]; omega)]

theorem counted_concat (runs : List (UInt8 × List Hash)) (r : UInt8 × List Hash) :
    counted (runs ++ [r]) = counted runs ++ [(r.1.toNat, r.2)] := by
  rw [counted, map_append]
  rfl

theorem push_ok (h : Grows 0 (counted p.runs)) (hlen : p.levels.length < 255) (x : List Hash) :
    ∃ p', p.push x = .ok p' ∧ Grows 0 (counted p'.runs) ∧ p'.levels = p.levels ++ [x] := by
  rw [length_levels h] at hlen
  obtain ⟨runs⟩ := p
  unfold push levels
  rcases eq_nil_or_concat' runs with rfl | ⟨init, ⟨count, last⟩, rfl⟩
  · exact ⟨_, rfl, grows_cons.mpr ⟨Nat.one_pos, grows_nil _⟩, rfl⟩
  · rw [expandedLen, getLast?_concat] at hlen
    have hsucc : (count + 1).toNat = count.toNat + 1 := by
      have : count.toNat < 255 := hlen
      rw [UInt8.toNat_add, UInt8.toNat_one]
      omega
    have hne : count ≠ 255 := fun he => absurd hlen (by rw [he]; exact lt_irrefl 255)
    rw [counted_concat] at h ⊢
    obtain ⟨hinit, hlt⟩ := grows_concat.mp h
    rw [getLast?_concat]
    dsimp only
    rw [if_neg hne]
    by_cases hsame : last = x
    · refine ⟨_, if_pos hsame, ?_, ?_⟩
      · rw [dropLast_concat, counted_concat, hsucc]
        exact grows_concat.mpr ⟨hinit, Nat.lt_succ_of_lt hlt⟩
      · rw [dropLast_concat, counted_concat, hsucc, expand_concat, expand_concat,
          Nat.succ_sub (le_of_lt hlt), replicate_succ', append_assoc, hsame]
    · refine ⟨_, if_neg hsame, ?_, ?_⟩
      · rw [counted_concat, counted_concat, hsucc]
        exact grows_concat.mpr ⟨h, by rw [lastCount_concat]; exact Nat.lt_succ_self _⟩
      · rw [counted_concat, counted_concat, hsucc, expand_concat _ _ x, lastCount_concat,
          Nat.add_sub_cancel_left, replicate_one]

theorem expandedIter_levels {l : List (List Hash)} (h : (p.expandedIter : Run Empty _) = .ok l) :
    Grows 0 (counted p.runs) ∧ p.levels = l := by
  by_cases hg : Grows 0 (counted p.runs)
  · rw [expandedIter, expandRle_of_grows hg] at h
    exact ⟨hg, Except.ok.inj h⟩
  · rw [expandedIter, expandRle_of_not_grows hg] at h
    cases h

end Sahyadri.Core.CompressedParents

namespace Sahyadri.Consensus

open Lib Smt Core Core.CompressedParents List

/-! ## 2. The functions -/

structure HeaderWithBlockLevel where
  header : Header
  blockLevel : UInt8

/-- `ParentsManager`, with the order in which a hash map gives its keys. -/
structure ParentsManager where
  maxBlockLevel : UInt8
  genesisHash : Hash
  headers : Hash → Option HeaderWithBlockLevel
  reach : ReachabilityService
  hasReachabilityData : Hash → Bool
  /-- `relations_service.get_children(ORIGIN)`. -/
  originChildren : Option (List Hash)
  keyOrder : List Hash → List Hash
  keyOrder_perm : ∀ l, (keyOrder l).Perm l

/-- `level_candidates_to_reference_blocks`. -/
abbrev Candidates := List (Hash × List Hash)

def insertCandidate (candidates : Candidates) (parent : Hash) (referenceBlocks : List Hash) :
    Candidates :=
  candidates.filter (·.1 ≠ parent) ++ [(parent, referenceBlocks)]

def extendSet (set l : List Hash) : List Hash := (scan (fun _ => false) l [] set).2

inductive IndirectParentsError where
  | unexpectedIndirectParents (expected header : List (List Hash))
  deriving DecidableEq, Repr

def sameParents (expected header : List Hash) : Bool := header.length =
    expected.length && (header = expected || header.all (· ∈ expected) && expected.all (· ∈ header))

namespace ParentsManager

variable (pm : ParentsManager)

def parentsAtLevel (header : Header) (level : Nat) : Run Empty (List Hash) := do
  match ← header.parentsByLevel.get level with
  | some parents => .ok parents
  | none => .ok (if header.parentsByLevel.runs = [] then [] else [pm.genesisHash])

def getHeaders : List Hash → Run Empty (List HeaderWithBlockLevel)
  | [] => .ok []
  | hash :: hashes => do
    match pm.headers hash with
    | none => .panicked
    | some header => .ok (header :: (← getHeaders hashes))

/-- The `flat_map` over the parents of the headers at a level. -/
def collectParents (level : Nat) : List HeaderWithBlockLevel → Run Empty (List Hash)
  | [] => .ok []
  | h :: headers => do
    let parents ← pm.parentsAtLevel h.header level
    .ok (parents ++ (← collectParents level headers))

/-- `reference_blocks`: the block itself; if it is pruned, the children of `ORIGIN` that list it. -/
def referenceBlocks (level : Nat) (parent : Hash) : Run Empty (List Hash) :=
  if pm.hasReachabilityData parent then .ok [parent]
  else
    match pm.originChildren with
    | none => .panicked
    | some children => do
      let headers ← pm.getHeaders children
      let listed ← headers.mapM fun h => pm.parentsAtLevel h.header level
      .ok (((headers.zip listed).filter (parent ∈ ·.2)).map (·.1.header.hash))

/-- The body of the loop over the grandparents. -/
def addCandidate (level firstParentMarker i : Nat) (candidates : Candidates) (parent : Hash) :
    Run Empty Candidates := do
  let referenceBlocks ← pm.referenceBlocks level parent
  if i < firstParentMarker then .ok (insertCandidate candidates parent referenceBlocks)
  else if ¬ pm.hasReachabilityData parent then .ok candidates
  else
    let retained := candidates.filter fun c => !pm.reach.isAnyDagAncestor c.2 parent
    if retained.length < candidates.length ∨
      ¬ retained.any (fun c => pm.reach.isDagAncestorOfAny parent c.2) then
      .ok (insertCandidate retained parent referenceBlocks)
    else .ok retained

/-- The loop, from index `i` on. -/
def addCandidates (level firstParentMarker : Nat) :
    Nat → List Hash → Candidates → Run Empty Candidates
  | _, [], candidates => .ok candidates
  | i, parent :: grandparents, candidates => do
    let candidates ← pm.addCandidate level firstParentMarker i candidates parent
    addCandidates level firstParentMarker (i + 1) grandparents candidates

def directCandidates (headers : List HeaderWithBlockLevel) (level : Nat) : Candidates :=
  (headers.filter (level ≤ ·.blockLevel.toNat)).foldl
    (fun candidates h => insertCandidate candidates h.header.hash [h.header.hash]) []

/-- The parents at a level without direct parents; those of the first parent come first. -/
def indirectParents (first : HeaderWithBlockLevel) (others : List HeaderWithBlockLevel)
    (level : Nat) : Run Empty (List Hash) := do
  let firstParents := extendSet [] (← pm.parentsAtLevel first.header level)
  let grandparents := extendSet firstParents (← pm.collectParents level others)
  if firstParents.length = grandparents.length then .ok grandparents
  else
    let candidates ← pm.addCandidates level firstParents.length 0 grandparents []
    .ok (pm.keyOrder (candidates.map Prod.fst))

def levelParents (headers : List HeaderWithBlockLevel) (level : Nat) : Run Empty (List Hash) :=
  if directCandidates headers level = [] then
    match headers with
    | [] => .panicked
    | first :: others => pm.indirectParents first others level
  else do
    let grandparents ← pm.collectParents level (headers.filter (·.blockLevel.toNat < level))
    let candidates ← pm.addCandidates level 0 0 (extendSet [] grandparents)
      (directCandidates headers level)
    .ok (pm.keyOrder (candidates.map Prod.fst))

/-- The loop over the levels from `level` on, `n` of them. -/
def levelLoop (headers : List HeaderWithBlockLevel) :
    Nat → Nat → CompressedParents → Run Empty CompressedParents
  | 0, _, parents => .ok parents
  | n + 1, level, parents => do
    let parentsAtLevel ← pm.levelParents headers level
    if 0 < level ∧ parentsAtLevel = [pm.genesisHash] then .ok parents
    else
      let parents ← parents.push parentsAtLevel
      levelLoop headers n (level + 1) parents

def calcBlockParents (currentPruningPoint : Hash) (directParents : List Hash) :
    Run Empty CompressedParents := do
  let headers ← pm.getHeaders directParents
  match directParents.findIdx? (pm.reach.isDagAncestorOf currentPruningPoint) with
  | none => .panicked
  | some i =>
    pm.levelLoop (headers.toArray.swapIfInBounds 0 i).toList (pm.maxBlockLevel.toNat + 1) 0 ⟨[]⟩

/-- `check_indirect_parents`; runs that do not expand have panicked before, when the header was
    hashed. -/
def checkIndirectParents (pruningPoint : Hash) (header : Header) :
    Run Empty (Except IndirectParentsError Unit) := do
  let directParents ← header.directParents
  let expected ← pm.calcBlockParents pruningPoint directParents
  let expectedLevels ← expected.expandedIter
  let headerLevels ← header.parentsByLevel.expandedIter
  if header.parentsByLevel.expandedLen = expected.expandedLen ∧
      (expectedLevels.zip headerLevels).all (fun l => sameParents l.1 l.2) = true then .ok (.ok ())
  else .ok (.error (.unexpectedIndirectParents expectedLevels headerLevels))

def levelOf (b : Hash) : Nat := ((pm.headers b).map (·.blockLevel.toNat)).getD 0

end ParentsManager

/-- The blocks of level `L` or higher in the inclusive past of `ps`. -/
def AtLevel (pm : ParentsManager) (D : Dag Hash) (L : Nat) (ps : List Hash) (x : Hash) : Prop :=
  L ≤ pm.levelOf x ∧ ∃ p ∈ ps, D.Below x p

variable {set rest expected header cs : List Hash}

/-- An unpruned DAG with the genesis block at the highest level and with accepted headers. -/
structure LevelView (pm : ParentsManager) (D : Dag Hash) (bs : List Hash) : Prop where
  genesis : pm.genesisHash = D.genesis
  highest : pm.maxBlockLevel.toNat ≤ pm.levelOf D.genesis
  reach : Reaches D bs pm.reach.isDagAncestorOf
  unpruned : ∀ b ∈ bs, pm.hasReachabilityData b = true
  first : ∃ h, pm.headers D.genesis = some h ∧ h.header.hash = D.genesis ∧
    h.header.parentsByLevel.runs = []
  accepted : ∀ b ∈ bs, b ≠ D.genesis → ∃ h pp, pm.headers b = some h ∧ h.header.hash = b ∧
    h.header.parents = D.parents b ∧ pm.checkIndirectParents pp h.header = .ok (.ok ())

section Levels

variable {pm : ParentsManager} {D : Dag Hash} {bs ps : List Hash} {T : Hash → Prop} {R : List Hash}

/-! ## 3. One level -/

theorem extendSet_spec (h : set.Nodup) (l : List Hash) : ∃ new, extendSet set l = set ++ new ∧
      (set ++ new).Nodup ∧ ∀ x, x ∈ set ++ new ↔ x ∈ set ∨ x ∈ l := by
  obtain ⟨new, he, hnodup, hnew, hall⟩ := scan_spec (fun _ => false) l [] set h
  refine ⟨new, congrArg Prod.snd he, hnodup, fun x => ⟨fun hx => ?_, fun hx => ?_⟩⟩
  · exact (mem_append.mp hx).imp_right fun hx => (hnew x hx).1
  · exact hx.elim (mem_append_left _) fun hx => hall x hx rfl

def own (R : List Hash) : Candidates := R.map fun x => (x, [x])

theorem keys_own : (own R).map Prod.fst = R := by
  rw [own, map_map]
  exact map_id R

variable {x p pp : Hash}

theorem insert_own (hx : x ∉ R) : insertCandidate (own R) x [x] = own (R ++ [x]) := by
  have hkeep : (own R).filter (·.1 ≠ x) = own R := by
    refine filter_eq_self.mpr fun c hc => ?_
    obtain ⟨r, hr, rfl⟩ := mem_map.mp hc
    exact decide_eq_true (ne_of_mem_of_not_mem hr hx)
  rw [insertCandidate, hkeep, own, own, map_append]
  rfl

theorem foldl_insert_own : ∀ {l R : List Hash}, (R ++ l).Nodup →
    l.foldl (fun c x => insertCandidate c x [x]) (own R) = own (R ++ l)
  | [], R, _ => by rw [foldl_nil, append_nil]
  | x :: l, R, h => by
    have hx : x ∉ R := fun hx => (disjoint_of_nodup_append h) hx mem_cons_self
    rw [append_cons] at h ⊢
    rw [foldl_cons, insert_own hx, foldl_insert_own h]

theorem referenceBlocks_own (hx : pm.hasReachabilityData x = true) (L : Nat) :
    pm.referenceBlocks L x = .ok [x] := if_pos hx

variable {L marker i L' : Nat}

theorem addCandidates_first : ∀ {l R : List Hash} {i : Nat},
    (∀ x ∈ l, pm.hasReachabilityData x = true) → i + l.length ≤ marker → (R ++ l).Nodup →
    pm.addCandidates L marker i (l ++ rest) (own R) = pm.addCandidates L marker (i + l.length) rest
      (own (R ++ l))
  | [], R, i, _, _, _ => by rw [append_nil, nil_append, length_nil, add_zero]
  | x :: l, R, i, hdata, hi, h => by
    have hx : x ∉ R := fun hx => (disjoint_of_nodup_append h) hx mem_cons_self
    rw [length_cons] at hi ⊢
    rw [append_cons] at h ⊢
    rw [cons_append, ParentsManager.addCandidates, ParentsManager.addCandidate,
      referenceBlocks_own (hdata x mem_cons_self), Run.ok_bind, if_pos (by omega), Run.ok_bind,
      insert_own hx, addCandidates_first (fun y hy => hdata y (mem_cons_of_mem _ hy)) (by omega) h,
      add_right_comm, add_assoc]

theorem addCandidate_covers (hreach : Reaches D bs pm.reach.isDagAncestorOf)
    (hx : pm.hasReachabilityData x = true)
    (hxm : x ∈ bs) (hi : marker ≤ i) (h : D.Covers T R) (hR : ∀ r ∈ R, r ∈ bs) : ∃ R',
      pm.addCandidate L marker i (own R) x = .ok (own R') ∧ D.Covers (fun t => t = x ∨ T t) R' := by
  let kept (r : Hash) : Bool := !pm.reach.isDagAncestorOf r x
  have hkept : ∀ r ∈ R, kept r = true ↔ ¬ D.Below r x := by
    intro r hr
    rw [Bool.not_eq_true', ← Bool.not_eq_true, hreach r (hR r hr) x hxm]
  have hown : (own R).filter (fun c => !pm.reach.isAnyDagAncestor c.2 x) = own (R.filter kept) := by
    rw [own, filter_map]
    refine congrArg _ (filter_congr fun r _ => ?_)
    simp [ReachabilityService.isAnyDagAncestor, kept]
  have hany : (own (R.filter kept)).any (fun c => pm.reach.isDagAncestorOfAny x c.2) = true ↔
      ∃ r ∈ R.filter kept, D.Below x r := by
    rw [own, any_map, any_eq_true]
    refine exists_congr fun r => and_congr_right fun hr => ?_
    rw [← hreach x hxm r (hR r (mem_of_mem_filter hr))]
    simp [ReachabilityService.isDagAncestorOfAny]
  have hnew : x ∉ R.filter kept :=
    fun hm => (hkept x (mem_of_mem_filter hm)).mp (mem_filter.mp hm).2 (.refl x)
  have hlen : ∀ l : List Hash, (own l).length = l.length := fun l => length_map _
  rw [ParentsManager.addCandidate, referenceBlocks_own hx, Run.ok_bind, if_neg (by omega),
    if_neg (not_not.mpr hx), hown]
  by_cases hadd : (R.filter kept).length < R.length ∨ ¬ ∃ r ∈ R.filter kept, D.Below x r
  · rw [if_pos (by rwa [hany, hlen, hlen]), insert_own hnew]
    refine ⟨_, rfl, h.add hkept
      (hadd.imp length_filter_lt_length_iff_exists.mp fun hno r hr hb => hno ⟨r, hr, hb⟩)⟩
  · rw [if_neg (by rwa [hany, hlen, hlen])]
    obtain ⟨hsame, hbelow⟩ := not_or.mp hadd
    obtain ⟨r, hr, hb⟩ := not_not.mp hbelow
    have hR' : R.filter kept = R := filter_sublist.eq_of_length_le (Nat.le_of_not_lt hsame)
    rw [hR'] at hr ⊢
    exact ⟨R, rfl, h.add_below hr hb⟩

theorem addCandidates_covers (hreach : Reaches D bs pm.reach.isDagAncestorOf)
    (hdata : ∀ x ∈ bs, pm.hasReachabilityData x = true) :
    ∀ {l R : List Hash} {T : Hash → Prop} {i : Nat}, (∀ x ∈ l, x ∈ bs) → marker ≤ i → D.Covers T R →
    (∀ t, T t → t ∈ bs) → ∃ R', pm.addCandidates L marker i l (own R) = .ok (own R') ∧
    D.Covers (fun t => t ∈ l ∨ T t) R'
  | [], R, T, i, _, _, h, _ => ⟨R, rfl, h.congr fun t => by simp⟩
  | x :: l, R, T, i, hl, hi, h, hT => by
    have hx := hl x mem_cons_self
    obtain ⟨R₁, hadd, h₁⟩ :=
      addCandidate_covers hreach (hdata x hx) hx hi h fun r hr => hT r (h.sub r hr)
    obtain ⟨R₂, hrest, h₂⟩ :=
      addCandidates_covers hreach hdata (fun y hy => hl y (mem_cons_of_mem _ hy))
      (Nat.le_succ_of_le hi) h₁ fun t ht => ht.elim (fun he => he ▸ hx) (hT t)
    refine ⟨R₂, ?_, h₂.congr fun t => ?_⟩
    · rw [ParentsManager.addCandidates, hadd, Run.ok_bind, hrest]
    · rw [mem_cons, or_left_comm, or_assoc]

/-- What is known of a header: it is stored, and at every level it lists the maximal blocks of its
    past. -/
structure Listed (pm : ParentsManager) (D : Dag Hash) (bs : List Hash) (h : HeaderWithBlockLevel) :
    Prop where
  mem : h.header.hash ∈ bs
  stored : pm.headers h.header.hash = some h
  parents : ∀ L ≤ pm.maxBlockLevel.toNat, ∃ l, pm.parentsAtLevel h.header L = .ok l ∧
    D.Covers (fun x => L ≤ pm.levelOf x ∧ D.Past x h.header.hash) l

theorem Listed.levelOf {h : HeaderWithBlockLevel} (hh : Listed pm D bs h) :
    pm.levelOf h.header.hash = h.blockLevel.toNat := by
  rw [ParentsManager.levelOf, hh.stored]
  rfl

theorem collectParents_ok (hL : L ≤ pm.maxBlockLevel.toNat) : ∀ {hs : List HeaderWithBlockLevel},
    (∀ h ∈ hs, Listed pm D bs h) → ∃ G, pm.collectParents L hs = .ok G ∧
      (∀ x ∈ G, ∃ h ∈ hs, L ≤ pm.levelOf x ∧ D.Past x h.header.hash) ∧
      ∀ h ∈ hs, ∀ x, L ≤ pm.levelOf x → D.Past x h.header.hash → ∃ g ∈ G, D.Below x g
  | [], _ => ⟨[], rfl, by simp, by simp⟩
  | h :: hs, hall => by
    obtain ⟨l, hl, hcov⟩ := (hall h mem_cons_self).parents L hL
    obtain ⟨G, hG, hsub, hcover⟩ :=
      collectParents_ok hL fun h' hh' => hall h' (mem_cons_of_mem _ hh')
    refine ⟨l ++ G, by rw [ParentsManager.collectParents, hl, Run.ok_bind, hG, Run.ok_bind],
      fun x hx => ?_, fun h' hh' x hx hp => ?_⟩
    · rcases mem_append.mp hx with hx | hx
      · exact ⟨h, mem_cons_self, hcov.sub x hx⟩
      · obtain ⟨h', hh', hx⟩ := hsub x hx
        exact ⟨h', mem_cons_of_mem _ hh', hx⟩
    · rcases mem_cons.mp hh' with rfl | hh'
      · obtain ⟨g, hg, hb⟩ := hcov.cover x ⟨hx, hp⟩
        exact ⟨g, mem_append_left _ hg, hb⟩
      · obtain ⟨g, hg, hb⟩ := hcover h' hh' x hx hp
        exact ⟨g, mem_append_right _ hg, hb⟩

variable {hs : List HeaderWithBlockLevel}

/-- The direct parents of the level and the lists of the lower ones stand for all blocks of it. -/
theorem covers_atLevel (hall : ∀ h ∈ hs, Listed pm D bs h) (hcov : D.Covers T R)
    (hsub : ∀ t, T t → L ≤ pm.levelOf t ∧ ∃ h ∈ hs, D.Below t h.header.hash)
    (hdirect : ∀ h ∈ hs, L ≤ h.blockLevel.toNat → T h.header.hash)
    (hlower : ∀ h ∈ hs, h.blockLevel.toNat < L → ∀ x, L ≤ pm.levelOf x → D.Past x h.header.hash →
      ∃ t, T t ∧ D.Below x t) : D.Covers (AtLevel pm D L (hs.map (·.header.hash))) R := by
  refine hcov.mono (fun t ht => ?_) fun x hx => ?_
  · obtain ⟨hlevel, h, hh, hb⟩ := hsub t ht
    exact ⟨hlevel, _, mem_map_of_mem hh, hb⟩
  · obtain ⟨hlevel, p, hp, hb⟩ := hx
    obtain ⟨h, hh, rfl⟩ := mem_map.mp hp
    by_cases hup : L ≤ h.blockLevel.toNat
    · exact ⟨_, hdirect h hh hup, hb⟩
    · rcases hb with rfl | hb
      · exact absurd ((hall h hh).levelOf ▸ hlevel) hup
      · exact hlower h hh (Nat.lt_of_not_le hup) x hlevel hb

theorem directCandidates_own (hanti : (hs.map (·.header.hash)).Pairwise D.Anticone) (L : Nat) :
    ∃ R, ParentsManager.directCandidates hs L = own R ∧ R.Pairwise D.Anticone ∧
      ∀ x, x ∈ R ↔ ∃ h ∈ hs, L ≤ h.blockLevel.toNat ∧ h.header.hash = x := by
  have hup : ((hs.filter (L ≤ ·.blockLevel.toNat)).map (·.header.hash)).Pairwise D.Anticone :=
    hanti.sublist (filter_sublist.map _)
  have hfold := foldl_insert_own (R := []) (Dag.nodup_of_antichain hup)
  rw [foldl_map] at hfold
  exact ⟨_, hfold, hup, fun x => by simp [and_assoc]⟩

section Level

variable (hgrown : D.Grown bs) (hreach : Reaches D bs pm.reach.isDagAncestorOf)
  (hdata : ∀ x ∈ bs, pm.hasReachabilityData x = true) {L : Nat} (hL : L ≤ pm.maxBlockLevel.toNat)

include hgrown hreach hdata hL

variable {others hs : List HeaderWithBlockLevel}

theorem indirectParents_ok {first : HeaderWithBlockLevel}
    (hall : ∀ h ∈ first :: others, Listed pm D bs h)
    (hlow : ∀ h ∈ first :: others, ¬ L ≤ h.blockLevel.toNat) :
    ∃ l, pm.indirectParents first others L = .ok l ∧
      D.Covers (AtLevel pm D L ((first :: others).map (·.header.hash))) l := by
  obtain ⟨all, hall', hsub, hcover⟩ := collectParents_ok hL hall
  obtain ⟨l, hl, hcov⟩ := (hall first mem_cons_self).parents L hL
  rw [ParentsManager.collectParents, hl, Run.ok_bind] at hall'
  obtain ⟨G, hG, he⟩ := Run.bind_eq_ok.mp hall'
  cases he
  obtain ⟨F, hF, hFnodup, hFmem⟩ := extendSet_spec nodup_nil l
  obtain ⟨new, hnew, hnodup, hmem⟩ := extendSet_spec hFnodup G
  simp only [nil_append, not_mem_nil, false_or] at hF hFnodup hFmem hnew hnodup hmem
  simp only [hFmem, ← mem_append] at hmem
  have hperm : l.Perm F :=
    (perm_ext_iff_of_nodup (Dag.nodup_of_antichain hcov.antichain) hFnodup).mpr fun x =>
    (hFmem x).symm
  have hFcov : D.Covers (· ∈ F) F := .of_antichain (hcov.perm hperm).antichain
  have hbs : ∀ t ∈ F ++ new, t ∈ bs := by
    intro t ht
    obtain ⟨h, hh, _, hp⟩ := hsub t ((hmem t).mp ht)
    exact hgrown.mem_of_past (hall h hh).mem hp
  have hclose : ∀ {R}, D.Covers (· ∈ F ++ new) R →
      D.Covers (AtLevel pm D L ((first :: others).map (·.header.hash))) R := by
    intro R h
    refine covers_atLevel hall h (fun t ht => ?_) (fun h hh hle => absurd hle (hlow h hh))
      fun h hh _ x hx hp => ?_
    · obtain ⟨h, hh, hlevel, hp⟩ := hsub t ((hmem t).mp ht)
      exact ⟨hlevel, h, hh, .inr hp⟩
    · obtain ⟨g, hg, hb⟩ := hcover h hh x hx hp
      exact ⟨g, (hmem g).mpr hg, hb⟩
  rw [ParentsManager.indirectParents, hl, Run.ok_bind, hG, Run.ok_bind, hF, hnew]
  by_cases hlen : F.length = (F ++ new).length
  · -- the shortcut: all lists are that of the first parent
    rw [if_pos hlen]
    have hnil : new = [] := by simpa using hlen
    rw [hnil, append_nil] at hclose ⊢
    exact ⟨F, rfl, hclose hFcov⟩
  · rw [if_neg hlen]
    have hmark : pm.addCandidates L F.length 0 (F ++ new) (own []) =
        pm.addCandidates L F.length (0 + F.length) new (own ([] ++ F)) := addCandidates_first
      (fun x hx => hdata x (hbs x (mem_append_left _ hx))) (zero_add _).le hFnodup
    obtain ⟨R, hR, hRcov⟩ := addCandidates_covers hreach hdata
      (fun x hx => hbs x (mem_append_right _ hx)) (zero_add F.length).ge hFcov fun t ht =>
      hbs t (mem_append_left _ ht)
    rw [nil_append, hR] at hmark
    refine ⟨_, ?_, hclose ((hRcov.congr fun t => ?_).perm (pm.keyOrder_perm R).symm)⟩
    · show (pm.addCandidates L F.length 0 (F ++ new) (own []) >>= _) = _
      rw [hmark, Run.ok_bind, keys_own]
    · rw [mem_append, or_comm]

/-- **One level.** -/
theorem levelParents_ok (hne : hs ≠ []) (hall : ∀ h ∈ hs, Listed pm D bs h)
    (hanti : (hs.map (·.header.hash)).Pairwise D.Anticone) :
    ∃ l, pm.levelParents hs L = .ok l ∧ D.Covers (AtLevel pm D L (hs.map (·.header.hash))) l := by
  obtain ⟨R, hdirect, hRanti, hRmem⟩ := directCandidates_own hanti L
  unfold ParentsManager.levelParents
  by_cases hnone : ParentsManager.directCandidates hs L = []
  · rw [if_pos hnone]
    have hR : R = [] := map_eq_nil_iff.mp (hdirect.symm.trans hnone)
    obtain ⟨first, others, rfl⟩ := exists_cons_of_ne_nil hne
    refine indirectParents_ok hgrown hreach hdata hL hall fun h hh hle => ?_
    have := (hRmem h.header.hash).mpr ⟨h, hh, hle, rfl⟩
    rw [hR] at this
    exact not_mem_nil this
  · rw [if_neg hnone, hdirect]
    have hlower : ∀ h ∈ hs.filter (·.blockLevel.toNat < L), Listed pm D bs h :=
      fun h hh => hall h (mem_of_mem_filter hh)
    obtain ⟨G, hG, hsubG, hcoverG⟩ := collectParents_ok hL hlower
    obtain ⟨new, hnew, -, hmem⟩ := extendSet_spec nodup_nil G
    simp only [nil_append, not_mem_nil, false_or] at hnew hmem
    obtain ⟨R', hR', hcov⟩ := addCandidates_covers hreach hdata (fun x hx => by
        obtain ⟨h, hh, _, hp⟩ := hsubG x ((hmem x).mp hx)
        exact hgrown.mem_of_past (hlower h hh).mem hp)
      (le_refl 0) (.of_antichain hRanti)
      (fun t ht => by
        obtain ⟨h, hh, _, rfl⟩ := (hRmem t).mp ht
        exact (hall h hh).mem)
    refine ⟨_, ?_, (covers_atLevel hall hcov (fun t ht => ?_) (fun h hh hle => ?_)
      fun h hh hlt x hx hp => ?_).perm (pm.keyOrder_perm R').symm⟩
    · rw [hG, Run.ok_bind, hnew, hR', Run.ok_bind, keys_own]
    · rcases ht with ht | ht
      · obtain ⟨h, hh, hlevel, hp⟩ := hsubG t ((hmem t).mp ht)
        exact ⟨hlevel, h, mem_of_mem_filter hh, .inr hp⟩
      · obtain ⟨h, hh, hle, rfl⟩ := (hRmem t).mp ht
        exact ⟨(hall h hh).levelOf.symm ▸ hle, h, hh, .refl _⟩
    · exact .inr ((hRmem _).mpr ⟨h, hh, hle, rfl⟩)
    · obtain ⟨g, hg, hb⟩ := hcoverG h (mem_filter.mpr ⟨hh, decide_eq_true hlt⟩) x hx hp
      exact ⟨g, .inl ((hmem g).mpr hg), hb⟩

end Level

/-! ## 4. All levels -/

open ParentsManager

theorem atLevel_genesis (hgrown : D.Grown bs)
    (hhigh : pm.maxBlockLevel.toNat ≤ pm.levelOf D.genesis) (hp : p ∈ ps)
    (hpm : p ∈ bs) (h : D.Covers (AtLevel pm D L ps) [D.genesis]) (hle : L ≤ L')
    (hL' : L' ≤ pm.maxBlockLevel.toNat) (x : Hash) : AtLevel pm D L' ps x ↔ x = D.genesis := by
  constructor
  · rintro ⟨hlevel, hx⟩
    obtain ⟨r, hr, hb⟩ := h.cover x ⟨hle.trans hlevel, hx⟩
    rw [mem_singleton.mp hr] at hb
    exact hb.resolve_right Dag.not_past_genesis
  · rintro rfl
    exact ⟨hL'.trans hhigh, p, hp, hgrown.genesis_below hpm⟩

theorem covers_genesis (h : ∀ x, T x ↔ x = D.genesis) : D.Covers T [D.genesis] :=
  (Dag.Covers.of_antichain (pairwise_singleton _ _)).congr fun x => by rw [h, mem_singleton]

theorem getHeaders_ok : ∀ {ps : List Hash},
    (∀ p ∈ ps, ∃ h, pm.headers p = some h ∧ h.header.hash = p ∧ Listed pm D bs h) →
    ∃ hs, pm.getHeaders ps = .ok hs ∧ hs.map (·.header.hash) = ps ∧ ∀ h ∈ hs, Listed pm D bs h
  | [], _ => ⟨[], rfl, rfl, by simp⟩
  | p :: ps, hall => by
    obtain ⟨h, hh, hhash, hlisted⟩ := hall p mem_cons_self
    obtain ⟨hs, hps, hmap, hrest⟩ := getHeaders_ok fun q hq => hall q (mem_cons_of_mem _ hq)
    refine ⟨h :: hs, ?_, by rw [map_cons, hhash, hmap], fun g hg => ?_⟩
    · rw [getHeaders, hh, hps]
      rfl
    · rcases mem_cons.mp hg with rfl | hg
      · exact hlisted
      · exact hrest g hg

theorem swap_perm {α : Type} (l : List α) (i : Nat) :
    (l.toArray.swapIfInBounds 0 i).toList.Perm l := by
  unfold Array.swapIfInBounds
  split
  · split
    · exact Array.perm_iff_toList_perm.mp (Array.swap_perm _ _)
    · exact .refl l
  · exact .refl l

section Loop

variable (hgrown : D.Grown bs) (hview : LevelView pm D bs) (hmax : pm.maxBlockLevel.toNat ≤ 254)

include hgrown hview hmax

/-- **The loop.** -/
theorem levelLoop_ok (hne : hs ≠ []) (hall : ∀ h ∈ hs, Listed pm D bs h)
    (hanti : (hs.map (·.header.hash)).Pairwise D.Anticone) :
    ∀ {n level : Nat} {parents : CompressedParents}, level + n = pm.maxBlockLevel.toNat + 1 →
    Grows 0 (counted parents.runs) → parents.levels.length = level →
    ∃ p ls, pm.levelLoop hs n level parents = .ok p ∧ Grows 0 (counted p.runs) ∧
    p.levels = parents.levels ++ ls ∧ ∀ k, level + k ≤ pm.maxBlockLevel.toNat →
        D.Covers (AtLevel pm D (level + k) (hs.map (·.header.hash))) (ls.getD k [D.genesis]) := by
  intro n
  induction n with
  | zero =>
    intro level parents hn hg _
    exact ⟨parents, [], rfl, hg, (append_nil _).symm, fun k hk => by omega⟩
  | succ n ih =>
    intro level parents hn hg hlen
    obtain ⟨l, hl, hcov⟩ :=
      levelParents_ok hgrown hview.reach hview.unpruned (show level ≤ _ by omega) hne hall hanti
    rw [levelLoop, hl, Run.ok_bind]
    by_cases hstop : 0 < level ∧ l = [pm.genesisHash]
    · rw [if_pos hstop]
      refine ⟨parents, [], rfl, hg, (append_nil _).symm, fun k hk => ?_⟩
      rw [hstop.2, hview.genesis] at hcov
      obtain ⟨h, hh⟩ := exists_mem_of_ne_nil _ hne
      exact covers_genesis
        (atLevel_genesis hgrown hview.highest (mem_map_of_mem hh) (hall h hh).mem hcov
        (Nat.le_add_right _ _) hk)
    · rw [if_neg hstop]
      obtain ⟨p', hpush, hg', hlevels⟩ := push_ok hg (by omega) l
      obtain ⟨p, ls, hp, hgp, hpl, hls⟩ :=
        ih (show level + 1 + n = _ by omega) hg' (by simp [hlevels, hlen])
      refine ⟨p, l :: ls, by rw [hpush, Run.ok_bind, hp], hgp, by
        rw [hpl, hlevels, append_assoc]; rfl, ?_⟩
      intro k hk
      cases k with
      | zero => exact hcov
      | succ k => exact Nat.succ_add_eq_add_succ level k ▸ hls k (by omega)

/-- **The lists by level**, if the headers of the direct parents list the maximal blocks. -/
theorem calcBlockParents_ok (hanti : ps.Pairwise D.Anticone)
    (hall : ∀ p ∈ ps, ∃ h, pm.headers p = some h ∧ h.header.hash = p ∧ Listed pm D bs h)
    (hpp : ∃ p ∈ ps, pm.reach.isDagAncestorOf pp p = true) :
    ∃ p, pm.calcBlockParents pp ps = .ok p ∧ Grows 0 (counted p.runs) ∧
      ∀ L ≤ pm.maxBlockLevel.toNat, D.Covers (AtLevel pm D L ps) (p.levels.getD L [D.genesis]) := by
  obtain ⟨hs, hhs, hmap, hlisted⟩ := getHeaders_ok hall
  obtain ⟨i, hi⟩ : ∃ i, ps.findIdx? (pm.reach.isDagAncestorOf pp) = some i := by
    refine Option.isSome_iff_exists.mp ?_
    obtain ⟨p, hp, hpos⟩ := hpp
    rw [findIdx?_isSome, any_eq_true]
    exact ⟨p, hp, hpos⟩
  have hperm := swap_perm hs i
  have hpermp : ((hs.toArray.swapIfInBounds 0 i).toList.map (·.header.hash)).Perm ps :=
    hmap ▸ hperm.map _
  have hne : (hs.toArray.swapIfInBounds 0 i).toList ≠ [] := by
    intro he
    obtain ⟨p, hp, _⟩ := hpp
    rw [he] at hpermp
    exact not_mem_nil (hpermp.mem_iff.mpr hp)
  obtain ⟨p, ls, hp, hg, hlevels, hcov⟩ := levelLoop_ok hgrown hview hmax hne
    (fun h hh => hlisted h (hperm.mem_iff.mp hh)) (hpermp.symm.pairwise hanti .symm)
    (zero_add (pm.maxBlockLevel.toNat + 1))
    (show Grows 0 (counted (⟨[]⟩ : CompressedParents).runs) from grows_nil 0) rfl
  refine ⟨p, ?_, hg, fun L hL => ?_⟩
  · rw [calcBlockParents, hhs, Run.ok_bind, hi]
    exact hp
  · rw [hlevels]
    refine ((zero_add L) ▸ hcov L (by omega)).congr fun x => and_congr_right fun _ =>
      exists_congr fun q => ?_
    rw [hpermp.mem_iff]

end Loop

/-! ## 5. Headers -/

theorem perm_of_sameParents (h : sameParents expected header = true) (hnodup : expected.Nodup) :
    expected.Perm header := by
  simp only [sameParents, Bool.and_eq_true, decide_eq_true_eq, Bool.or_eq_true, all_eq_true] at h
  obtain ⟨hlen, rfl | ⟨-, hsub⟩⟩ := h
  · exact .refl _
  · exact (subperm_of_subset hnodup hsub).perm_of_length_le hlen.le

theorem checkIndirectParents_ok {header : Header}
    (h : pm.checkIndirectParents pp header = .ok (.ok ())) : ∃ p,
      pm.calcBlockParents pp header.parents = .ok p ∧ Grows 0 (counted header.parentsByLevel.runs) ∧
      header.parentsByLevel.levels.length = p.levels.length ∧
      ∀ (L : Nat) (l l' : List Hash), p.levels[L]? = some l →
        header.parentsByLevel.levels[L]? = some l' → sameParents l l' = true := by
  rw [checkIndirectParents, Header.directParents_eq, Run.ok_bind] at h
  obtain ⟨p, hp, h⟩ := Run.bind_eq_ok.mp h
  obtain ⟨expected, hexpected, h⟩ := Run.bind_eq_ok.mp h
  obtain ⟨listed, hlisted, h⟩ := Run.bind_eq_ok.mp h
  obtain ⟨hg, rfl⟩ := expandedIter_levels hexpected
  obtain ⟨hg', rfl⟩ := expandedIter_levels hlisted
  by_cases hsame : header.parentsByLevel.expandedLen = p.expandedLen ∧
      (p.levels.zip header.parentsByLevel.levels).all (fun l => sameParents l.1 l.2) = true
  · refine ⟨p, hp, hg', by rw [length_levels hg, length_levels hg', hsame.1],
      fun L l l' hl hl' => ?_⟩
    exact all_eq_true.mp hsame.2 (l, l') (mem_of_getElem? (getElem?_zip_eq_some.mpr ⟨hl, hl'⟩))
  · rw [if_neg hsame] at h
    cases Except.ok.inj h

theorem parentsAtLevel_eq {header : Header} (hg : Grows 0 (counted header.parentsByLevel.runs))
    (hne : header.parents ≠ []) (L : Nat) :
    pm.parentsAtLevel header L = .ok (header.parentsByLevel.levels.getD L [pm.genesisHash]) := by
  have hruns : header.parentsByLevel.runs ≠ [] := by
    intro he
    refine hne (if_pos ?_)
    rw [expandedLen, he]
    rfl
  rw [parentsAtLevel, get_levels hg, Run.ok_bind, getD_eq_getElem?_getD]
  cases header.parentsByLevel.levels[L]? with
  | none => exact congrArg Except.ok (if_neg hruns)
  | some l => rfl

/-- **The header of every block lists the maximal blocks of its past**, by induction on the growth
    of the DAG. -/
theorem header_levels (hview : LevelView pm D bs) (hgrown : D.Grown bs)
    (hmax : pm.maxBlockLevel.toNat ≤ 254) (h : D.Grown cs) (hsub : ∀ b ∈ cs, b ∈ bs) :
    ∀ b ∈ cs, ∃ h, pm.headers b = some h ∧ h.header.hash = b ∧ Listed pm D bs h := by
  induction h with
  | start =>
    intro b hb
    cases mem_singleton.mp hb
    obtain ⟨h, hh, hhash, hruns⟩ := hview.first
    refine ⟨h, hh, hhash, hhash ▸ hsub _ hb, hhash.symm ▸ hh, fun L _ => ⟨[], ?_, ?_⟩⟩
    · rw [parentsAtLevel, beyond_expandedLen (by simp [expandedLen, hruns])]
      exact congrArg Except.ok (if_pos hruns)
    · refine ⟨by simp, .nil, fun t ht => ?_⟩
      rw [hhash] at ht
      exact absurd ht.2 Dag.not_past_genesis
  | @add cs b h hnew hne hold hanti ih =>
    have ih := ih fun c hc => hsub c (mem_cons_of_mem _ hc)
    intro c hc
    rcases mem_cons.mp hc with rfl | hc
    swap
    · exact ih c hc
    have hcg : c ≠ D.genesis := fun he => hnew (he ▸ h.genesis_mem)
    obtain ⟨hd, pp, hh, hhash, hparents, hcheck⟩ := hview.accepted c (hsub c mem_cons_self) hcg
    obtain ⟨p, hp, hg, hlen, hsame⟩ := checkIndirectParents_ok hcheck
    rw [hparents] at hp
    have hpp : ∃ q ∈ D.parents c, pm.reach.isDagAncestorOf pp q = true := by
      by_contra hno
      obtain ⟨hs, hhs, h'⟩ := Run.bind_eq_ok.mp hp
      rw [findIdx?_eq_none_iff.mpr fun q hq => Bool.eq_false_iff.mpr fun ht =>
        hno ⟨q, hq, ht⟩] at h'
      cases h'
    obtain ⟨p', hp', -, hcov⟩ :=
      calcBlockParents_ok hgrown hview hmax hanti (fun q hq => ih q (hold q hq)) hpp
    cases hp.symm.trans hp'
    refine ⟨hd, hh, hhash, hhash ▸ hsub c mem_cons_self, hhash.symm ▸ hh, fun L hL => ⟨_,
      parentsAtLevel_eq hg (hparents ▸ hne) L, ((hcov L hL).perm ?_).congr fun x => ?_⟩⟩
    · have hnodup := Dag.nodup_of_antichain (hcov L hL).antichain
      simp only [getD_eq_getElem?_getD] at hnodup ⊢
      rcases lt_or_ge L p.levels.length with hlt | hge
      · have hl := getElem?_eq_getElem hlt
        have hl' := getElem?_eq_getElem (hlen.symm ▸ hlt)
        rw [hl] at hnodup ⊢
        rw [hl']
        exact perm_of_sameParents (hsame L _ _ hl hl') hnodup
      · rw [getElem?_eq_none hge, getElem?_eq_none (hlen ▸ hge), hview.genesis]
    · rw [hhash, Dag.past_iff]
      exact and_congr_right fun _ => (and_iff_right hcg).symm

/-! ## 6. The parents by level -/

/-- **Every level has the maximal blocks of the level**, for every antichain of direct parents, with
    at most 254 as highest level. -/
theorem level_parents_maximal (hgrown : D.Grown bs)
    (hview : LevelView pm D bs) (hmax : pm.maxBlockLevel.toNat ≤ 254)
    (hold : ∀ p ∈ ps, p ∈ bs) (hanti : ps.Pairwise D.Anticone) {pp : Hash}
    (hpp : ∃ p ∈ ps, D.Below pp p) : ∃ parents levels, pm.calcBlockParents pp ps = .ok parents ∧
      (parents.expandedIter : Run Empty _) = .ok levels ∧
      (∀ L ≤ pm.maxBlockLevel.toNat, (parents.get L : Run Empty _) = .ok levels[L]? ∧
        D.MaximalOf (AtLevel pm D L ps) (levels.getD L [pm.genesisHash])) ∧ ∀ L L', L ≤ L' →
          L' ≤ pm.maxBlockLevel.toNat → levels.getD L [pm.genesisHash] = [pm.genesisHash] →
        levels.getD L' [pm.genesisHash] = [pm.genesisHash] := by
  obtain ⟨q, hq, hqp⟩ := hpp
  obtain ⟨p, hp, hg, hcov⟩ := calcBlockParents_ok hgrown hview hmax hanti
    (fun p hp => header_levels hview hgrown hmax hgrown (fun _ hb => hb) p (hold p hp))
    ⟨q, hq, (hview.reach pp (hgrown.mem_of_below (hold q hq) hqp) q (hold q hq)).mpr hqp⟩
  have hirr : ∀ {L : Nat} (x : Hash), AtLevel pm D L ps x → ¬ D.Past x x := by
    intro L x ⟨_, p, hp, hx⟩
    exact hgrown.past_irrefl (hgrown.mem_of_below (hold p hp) hx)
  rw [hview.genesis]
  refine ⟨p, p.levels, hp, expandRle_of_grows hg,
    fun L hL => ⟨get_levels hg L, (hcov L hL).maximal hirr⟩, fun L L' hle hL' he => ?_⟩
  have hall :=
    atLevel_genesis hgrown hview.highest hq (hold q hq) (he ▸ hcov L (hle.trans hL')) hle hL'
  have hmax' := (hcov L' hL').maximal hirr
  have hmaxg := (covers_genesis hall).maximal hirr
  exact perm_singleton.mp ((perm_ext_iff_of_nodup hmax'.nodup hmaxg.nodup).mpr fun x => by
    rw [hmax'.mem_iff, hmaxg.mem_iff])

end Levels

/-- The headers of `fork`: the genesis block is of the highest level, block 2 of level `two`. -/
def forkParents (maxBlockLevel two : UInt8) : ParentsManager where
  maxBlockLevel := maxBlockLevel
  genesisHash := hashOf 0
  headers h :=
    let stored (runs : List (UInt8 × List Hash)) (level : UInt8) : Option HeaderWithBlockLevel :=
      some ⟨⟨h, 1, ⟨runs⟩, h, h, h, 0, 0, 0, 0, 0, 0, h⟩, level⟩
    if h = hashOf 0 then stored [] maxBlockLevel
    else if h = hashOf 1 then stored [(2, [hashOf 2])] 0
    else if h = hashOf 2 then stored [(1, [hashOf 0])] two
    else if h = hashOf 3 then stored [(1, [hashOf 0])] 0
    else if h = hashOf 4 then stored [(1, [hashOf 3, hashOf 1]), (2, [hashOf 2])] 0
    else none
  reach := ⟨fork.reaches 5, fork.reaches 5, fun _ _ => none, fun _ => none⟩
  hasReachabilityData _ := true
  originChildren := none
  keyOrder l := l
  keyOrder_perm := .refl

def forkAccepts (pm : ParentsManager) (b : Hash) : Bool :=
  (pm.headers b).any fun h => decide (h.header.hash = b ∧ h.header.parents = fork.parents b ∧
    pm.checkIndirectParents (hashOf 0) h.header = .ok (.ok ()))

theorem forkParents_view {maxBlockLevel two : UInt8} {bs : List Hash}
    (hgrown : fork.Grown bs) (hlen : bs.length ≤ 5)
    (h : ∀ b ∈ bs, b ≠ hashOf 0 → forkAccepts (forkParents maxBlockLevel two) b = true) :
    LevelView (forkParents maxBlockLevel two) fork bs where
  genesis := rfl
  highest := le_rfl
  reach _ _ _ hb := (hgrown.below_iff hlen hb).symm
  unpruned _ _ := rfl
  first := ⟨_, rfl, rfl, rfl⟩
  accepted b hb hg := by
    obtain ⟨hd, hh, hall⟩ := (Option.any_eq_true _ _).mp (h b hb hg)
    exact ⟨hd, hashOf 0, hh, of_decide_eq_true hall⟩

/-- With block 2 at level 1, the parents of a block on 3 and 1 at the levels 0 to 3. -/
theorem fork_levels : ∃ parents levels,
      (forkParents 3 1).calcBlockParents (hashOf 0) [hashOf 3, hashOf 1] = .ok parents ∧
      (parents.expandedIter : Run Empty _) = .ok levels ∧ ∀ L ≤ 3,
      (parents.get L : Run Empty _) = .ok levels[L]? ∧ fork.MaximalOf
        (AtLevel (forkParents 3 1) fork L [hashOf 3, hashOf 1]) (levels.getD L [hashOf 0]) := by
  have hgrown := (fork_built 0x207fffff (by decide)).grown
  have hview : LevelView (forkParents 3 1) fork forkAll :=
    forkParents_view hgrown (by decide) (by decide)
  have hanti : fork.Anticone (hashOf 3) (hashOf 1) :=
    (hgrown.anticone_iff (n := 5) (by decide) (by decide) (by decide)).mpr (by decide)
  obtain ⟨parents, levels, hcalc, hiter, hall, -⟩ := level_parents_maximal hgrown hview (by decide)
    (show ∀ p ∈ [hashOf 3, hashOf 1], p ∈ forkBlocks ++ [hashOf 0] by decide) (by simpa using hanti)
    ⟨hashOf 3, mem_cons_self, hgrown.genesis_below (by decide)⟩
  exact ⟨parents, levels, hcalc, hiter, hall⟩

/-- **256 levels do not fit**: over a block of level 255 the last `push` panics. -/
theorem levels_exceeded :
    fork.Grown [hashOf 2, hashOf 0] ∧ LevelView (forkParents 255 255) fork [hashOf 2, hashOf 0] ∧
    (forkParents 255 255).calcBlockParents (hashOf 0) [hashOf 2] = .panicked := by
  have hgrown : fork.Grown [hashOf 2, hashOf 0] :=
    .add .start (by decide) (by decide) (by decide) (pairwise_singleton _ _)
  exact ⟨hgrown, forkParents_view hgrown (by decide) (by decide +kernel), by decide +kernel⟩

end Sahyadri.Consensus
