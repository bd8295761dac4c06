import Sahyadri.Consensus.Tree

/-!
# `SyncManager::antipast_hashes_between`: the blocks that a peer is missing

The function walks up the selected chain of `high` from the highest chain block that it shares with
`low`, and appends the mergesets without what is in the past of `low`.

* `antipast_complete`: the answer, and the answers of repeated calls.
-/

namespace Sahyadri.Consensus

open Lib Smt Core List Run ReachabilityService

/-! ## 1. The functions -/

def SahyadriConsensusData.mergesetSize (d : SahyadriConsensusData) : Nat :=
  d.mergesetBlues.length + d.mergesetReds.length

def findLoop (R : ReachabilityService) (high : Hash) : Nat → ChainIterator → Run Diverged Hash
  | 0, _ => .fail .outOfSteps
  | fuel + 1, it => do
    match ← R.backwardNext it with
    | (none, _) => .panicked
    | (some candidate, it) =>
      if R.isChainAncestorOf candidate high then .ok candidate else findLoop R high fuel it

def findHighestCommonChainBlock (R : ReachabilityService) (fuel : Nat) (low high : Hash) :
    Run Diverged Hash := findLoop R high fuel (defaultBackwardChainIterator low)

/-- The filter of the loop: what is not in the inclusive past of `low`. -/
def notBelow (R : ReachabilityService) (low : Hash) (hashes : List Hash) : List Hash :=
  hashes.filter fun hash => !R.isDagAncestorOf hash low

/-- The loop of `antipast_hashes_between`. -/
def antipastLoop (s : ConsensusStores) (R : ReachabilityService) (originalLow : Hash)
    (maxBlocks : Nat) : Nat → ChainIterator → List Hash → Hash → Run Diverged (List Hash × Hash)
  | 0, _, _, _ => .fail .outOfSteps
  | fuel + 1, it, blocks, highestReached => do
    match ← R.forwardNext it with
    | (none, _) => return (blocks, highestReached)
    | (some current, it) =>
      match s.data current with
      | none => .panicked
      | some gd =>
        if blocks.length + gd.mergesetSize > maxBlocks then return (blocks, highestReached)
        else do
          let mergeset ← gd.consensusOrderedMergeset s
          antipastLoop s R originalLow maxBlocks fuel it
            (blocks ++ notBelow R originalLow mergeset) current

def antipastHashesBetween (s : ConsensusStores) (R : ReachabilityService)
    (mergesetSizeLimit : UInt64) (fuel : Nat) (originalLow high : Hash) (maxBlocks : Option Nat) :
    Run Diverged (List Hash × Hash) :=
  let maxBlocks := maxBlocks.getD (2 ^ 64 - 1)
  if ¬ maxBlocks ≥ mergesetSizeLimit.toNat then .panicked
  else do
    let low ← findHighestCommonChainBlock R fuel originalLow high
    match s.data low, s.data high with
    | some lowData, some highData =>
      if ¬ lowData.blueScore ≤ highData.blueScore then .panicked
      else do
        -- `skip(1)`
        let (_, it) ← R.forwardNext (forwardChainIterator low high true)
        let (blocks, highestReached) ← antipastLoop s R originalLow maxBlocks fuel it [] low
        -- the loop does not list `highestReached`
        if low ≠ highestReached then return (blocks ++ [highestReached], highestReached)
        else return (blocks, highestReached)
    | _, _ => .panicked

/-- Calls with the block reached as the next `low`, until that is `high`. -/
def antipastRounds (s : ConsensusStores) (R : ReachabilityService) (mergesetSizeLimit : UInt64)
    (fuel : Nat) (high : Hash) (maxBlocks : Option Nat) : Nat → Hash → Run Diverged (List Hash)
  | 0, _ => .fail .outOfSteps
  | rounds + 1, low =>
    if low = high then .ok []
    else do
      let (blocks, reached) ← antipastHashesBetween s R mergesetSizeLimit fuel low high maxBlocks
      let rest ← antipastRounds s R mergesetSizeLimit fuel high maxBlocks rounds reached
      return blocks ++ rest

section Antipast

variable {m : SahyadriConsensusManager} {D : Dag Hash} {bits : Hash → UInt32} {bs : List Hash}
  {s : ConsensusStores} {R : ReachabilityService} {low high b c x : Hash} {limit : UInt64}

/-! ## 2. The common chain block -/

/-- **The highest block of the chain of `low` that is on the chain of `high`.** -/
theorem findLoop_ok (h : Sound m D bits bs s.data) (hR : ServesTree D bs s.data R)
    (hhigh : high ∈ bs) {l : List ChainEntry} (hchain : SelectedChain D s.data b l) : b ∈ bs →
      ∀ {fuel : Nat}, l.length ≤ fuel → ∃ c, findLoop R high fuel ⟨some b, origin, false⟩ = .ok c ∧
        Highest (chainParent D.genesis s.data) (OnChain D.genesis s.data · high) b c := by
  have hfound : ∀ {b}, b ∈ bs → ∀ {n}, OnChain D.genesis s.data b high →
      (∃ q, R.getChainParent b = some q) →
      findLoop R high (n + 1) ⟨some b, origin, false⟩ = .ok b := by
    intro b hb n hon hq
    obtain ⟨q, hq⟩ := hq
    rw [findLoop, backwardNext, ChainIterator.next_move rfl (h.real b hb) hq]
    exact if_pos ((hR.chain b hb high hhigh).mpr hon)
  induction hchain with
  | genesis hd _ _ =>
    intro hb fuel hfuel
    obtain ⟨n, rfl⟩ := Nat.exists_eq_add_of_lt hfuel
    exact ⟨_, hfound hb (h.root_onPath hhigh) ⟨_, hR.origin⟩, .refl _, h.root_onPath hhigh,
      fun x hx _ => hx⟩
  | @step b d l hne hreal hd hpast _ _ ih =>
    intro hb fuel hfuel
    obtain ⟨n, rfl⟩ := Nat.exists_eq_add_of_lt hfuel
    have hparent := chainParent_eq hd hne
    have hq := (hR.parent b hb hne).trans hparent
    by_cases hon : OnChain D.genesis s.data b high
    · exact ⟨b, hfound hb hon ⟨_, hq⟩, .refl _, hon, fun x hx _ => hx⟩
    · obtain ⟨c, hc, hhighest⟩ := ih (h.grown.mem_of_past hb hpast) (Nat.le_add_right l.length n)
      refine ⟨c, ?_, .of_parent hparent hhighest.onPath, hhighest.holds, fun x hx hxh => ?_⟩
      · rw [findLoop, backwardNext, ChainIterator.next_move rfl hreal hq]
        exact (if_neg fun hc => hon ((hR.chain b hb high hhigh).mp hc)).trans hc
      · refine hhighest.above x (hx.parent_of_ne ?_ hparent) hxh
        rintro rfl
        exact hon hxh

/-! ## 3. The walk -/

theorem Sound.ordered_mergeset (h : Sound m D bits bs s.data) (hb : b ∈ bs)
    (hp : chainParent D.genesis s.data b = some c) : ∃ d cs, s.data b = some d ∧
      d.consensusOrderedMergeset s = .ok (c :: cs) ∧ d.mergesetSize = cs.length + 1 ∧
      ∀ L, Topological D c L → Topological D b (L ++ c :: cs) := by
  obtain ⟨hg, d, hd, rfl⟩ := chainParent_eq_some hp
  obtain ⟨d', l, cs, hd', _, hm⟩ := h.merges b hb hg
  cases hd.symm.trans hd'
  have hcsb : ∀ x ∈ cs, x ∈ bs := fun x hx => h.grown.mem_of_past hb ((hm.mem x).mp hx).1
  have hsp := h.grown.mem_of_past hb (h.past_of_parent hb hp)
  refine ⟨d, cs, hd, hm.consensusOrderedMergeset_ok fun x hx => h.exists_data (hcsb x hx), ?_,
    fun L hL => ?_⟩
  · have hlen := hm.split.length_eq
    rw [SahyadriConsensusData.mergesetSize, hm.blues, length_cons, ← hlen, length_append]
    omega
  · exact hL.step h.grown hsp (h.past_of_parent hb hp)
      (hm.sorted.imp fun hkey => ne_of_apply_ne (keyOf s.data) hkey.ne) hm.mem
      (hm.sorted.imp_of_mem fun hx _ hkey => h.not_past_of_key (hcsb _ hx) hkey)

variable {fuel maxBlocks rounds : Nat}

/-- **The walk up the chain of `high`** stops at `high`, or with something collected; with nothing
    yet it moves on. -/
theorem antipastLoop_ok (h : Sound m D bits bs s.data) (hhigh : high ∈ bs)
    (hsize : ∀ b ∈ bs, ∀ d, s.data b = some d → d.mergesetSize ≤ maxBlocks) :
    ∀ {l : List Hash} {c : Hash} {it : ChainIterator} {L : List Hash},
      Climb (chainParent D.genesis s.data) high c (c :: l) → Yields R.forwardNext it l →
      Topological D c L → (notBelow R low L).length ≤ maxBlocks → l.length < fuel →
      ∃ reached L', antipastLoop s R low maxBlocks fuel it
        (notBelow R low L) c = .ok (notBelow R low L', reached) ∧
        OnChain D.genesis s.data reached high ∧ Topological D reached L' ∧
        (notBelow R low L').length ≤ maxBlocks ∧ OnChain D.genesis s.data c reached ∧
        (reached = high ∨ notBelow R low L' ≠ []) ∧ (notBelow R low L = [] → l ≠ [] → c ≠ reached) ∧
        (bs.length ≤ maxBlocks → reached = high) := by
  induction fuel with
  | zero => exact fun _ _ _ _ hlt => absurd hlt (Nat.not_lt_zero _)
  | succ fuel ih =>
    intro l c it L hclimb hyields htop hlen hfuel
    rw [antipastLoop]
    cases l with
    | nil =>
      obtain ⟨it', hnext⟩ := hyields
      rw [hnext]
      have hc := hclimb.eq_of_singleton
      exact ⟨c, L, rfl, hclimb.onPath, htop, hlen, .refl c, .inl hc, fun _ hne => absurd rfl hne,
        fun _ => hc⟩
    | cons b l =>
      obtain ⟨it', hnext, hyields⟩ := hyields
      obtain ⟨hp, hclimb'⟩ := hclimb.cons_cons
      have hb := h.onPath_mem hhigh hclimb'.onPath
      obtain ⟨d, cs, hd, hown, hms, htop'⟩ := h.ordered_mergeset hb hp
      have htop' := htop' L htop
      rw [hnext, ok_bind]
      dsimp only
      rw [hd]
      dsimp only
      have hms_le := hsize b hb d hd
      by_cases hover : (notBelow R low L).length + d.mergesetSize > maxBlocks
      · refine ⟨c, L, if_pos hover, hclimb.onPath, htop, hlen, .refl c, .inr fun he => ?_,
          fun he => ?_, fun hall => ?_⟩
        · rw [he, length_nil] at hover
          omega
        · rw [he, length_nil] at hover
          omega
        · have h1 : (notBelow R low L).length ≤ L.length := length_filter_le _ _
          have h2 :=
            (htop'.nodup.subperm fun x hx => h.grown.mem_of_past hb ((htop'.mem x).mp hx)).length_le
          rw [length_append, length_cons] at h2
          omega
      · have hfilter : notBelow R low L ++ notBelow R low (c :: cs) =
            notBelow R low (L ++ c :: cs) := (filter_append _ _).symm
        have hlen' : (notBelow R low (L ++ c :: cs)).length ≤ maxBlocks := by
          have : (notBelow R low (c :: cs)).length ≤ (c :: cs).length := length_filter_le _ _
          rw [← hfilter, length_append]
          rw [length_cons] at this
          omega
        rw [if_neg hover, hown, ok_bind, hfilter]
        obtain ⟨reached, L', hrun, hcl, ht, hle, hon, hor, _, hall⟩ :=
          ih hclimb' hyields htop' hlen' (Nat.lt_of_succ_lt_succ hfuel)
        refine ⟨reached, L', hrun, hcl, ht, hle, (onPath_parent hp).trans hon, hor,
          fun _ _ he => ?_, hall⟩
        have hrising := h.rising (h.onPath_mem hhigh hcl)
        have hlt := hrising b c hon hp
        have := hrising.le hon
        rw [he] at hlt
        omega

/-! ## 4. The answer -/

/-- The inclusive past of `high` without that of `low`, each block once and from the past to the
    future. -/
structure Missing (D : Dag Hash) (low high : Hash) (blocks : List Hash) : Prop where
  nodup : blocks.Nodup
  mem : ∀ x, x ∈ blocks ↔ D.Below x high ∧ ¬ D.Below x low
  ordered : blocks.Pairwise fun x y => ¬ D.Past y x

theorem Topological.missing (hgrown : D.Grown bs)
    {L : List Hash} {reached : Hash} (hreached : reached ∈ bs)
    (h : Topological D reached L) (hreach : Reaches D bs R.isDagAncestorOf) (hlow : low ∈ bs)
    (hnot : ¬ D.Below reached low) : Missing D low reached (notBelow R low L ++ [reached]) := by
  have hmem : ∀ x, x ∈ notBelow R low L ↔ D.Past x reached ∧ ¬ D.Below x low := by
    intro x
    rw [notBelow, mem_filter, h.mem, Bool.not_eq_true']
    refine and_congr_right fun hx => ?_
    rw [← hreach x (hgrown.mem_of_past hreached hx) low hlow, Bool.not_eq_true]
  have hpast : ∀ x ∈ notBelow R low L, D.Past x reached := fun x hx => ((hmem x).mp hx).1
  refine ⟨?_, fun x => ?_, ?_⟩
  · refine nodup_append.mpr ⟨h.nodup.filter _, nodup_singleton _, fun x hx y hy he => ?_⟩
    rw [mem_singleton.mp hy] at he
    exact hgrown.past_irrefl hreached (he ▸ hpast x hx)
  · rw [mem_append, hmem, mem_singleton]
    constructor
    · rintro (⟨hx, hxl⟩ | rfl)
      · exact ⟨.inr hx, hxl⟩
      · exact ⟨.refl x, hnot⟩
    · rintro ⟨rfl | hx, hxl⟩
      · exact .inr rfl
      · exact .inl ⟨hx, hxl⟩
  · refine pairwise_append.mpr ⟨h.ordered.filter _, pairwise_singleton _ _, fun x hx y hy hp => ?_⟩
    rw [mem_singleton.mp hy] at hp
    exact hgrown.past_irrefl hreached (hp.trans (hpast x hx))

theorem Missing.append {mid : Hash} {blocks rest : List Hash}
    (hlm : D.Below low mid) (hmh : D.Below mid high) (h : Missing D low mid blocks)
    (h' : Missing D mid high rest) : Missing D low high (blocks ++ rest) := by
  refine ⟨nodup_append.mpr ⟨h.nodup, h'.nodup, fun x hx y hy he => ?_⟩, fun x => ?_,
    pairwise_append.mpr ⟨h.ordered, h'.ordered, fun x hx y hy hp => ?_⟩⟩
  · exact ((h'.mem y).mp hy).2 (he ▸ ((h.mem x).mp hx).1)
  · rw [mem_append, h.mem, h'.mem]
    constructor
    · rintro (⟨hx, hxl⟩ | ⟨hx, hxm⟩)
      · exact ⟨hx.trans hmh, hxl⟩
      · exact ⟨hx, fun hxl => hxm (hxl.trans hlm)⟩
    · rintro ⟨hx, hxl⟩
      by_cases hxm : D.Below x mid
      · exact .inl ⟨hxm, hxl⟩
      · exact .inr ⟨hx, hxm⟩
  · exact ((h'.mem y).mp hy).2 (.inr (hp.below ((h.mem x).mp hx).1))

/-- What `antipast_hashes_between` should answer. -/
structure AntipastAnswer (D : Dag Hash) (data : StoreReader) (low high : Hash)
    (maxBlocks : Option Nat) (blocks : List Hash) (reached : Hash) : Prop where
  missing : Missing D low reached blocks
  bounded : ∀ n, maxBlocks = some n → blocks.length ≤ n + 1
  chain : OnChain D.genesis data reached high
  /-- It is above the highest common chain block. -/
  common : ∃ c, Highest (chainParent D.genesis data) (OnChain D.genesis data · high) low c ∧
    OnChain D.genesis data c reached ∧ (low ≠ high → c ≠ reached)
  unlimited : maxBlocks = none → reached = high

section

variable (h : Sound m D bits bs s.data)

include h

theorem antipastWalk_ok (hR : ServesTree D bs s.data R)
    (hsize : ∀ b ∈ bs, ∀ d, s.data b = some d → d.mergesetSize ≤ maxBlocks)
    (hlow : low ∈ bs) (hhigh : high ∈ bs)
    (hc : OnChain D.genesis s.data c high) (hcl : D.Below c low) (hfuel : bs.length < fuel) :
    ∃ it L' reached, R.forwardNext (forwardChainIterator c high true) =
        (.ok (some c, it) : Run Diverged (Option Hash × ChainIterator)) ∧
      antipastLoop s R low maxBlocks fuel it [] c = .ok (notBelow R low L', reached) ∧
      OnChain D.genesis s.data reached high ∧ Topological D reached L' ∧
      (notBelow R low L').length ≤ maxBlocks ∧ OnChain D.genesis s.data c reached ∧
      (reached = high ∨ notBelow R low L' ≠ []) ∧ (c ≠ high → c ≠ reached) ∧
      (c = reached → notBelow R low L' = []) ∧ (bs.length ≤ maxBlocks → reached = high) := by
  have hcb := h.onPath_mem hhigh hc
  obtain ⟨dc, lc, -, hchain, -⟩ := h.stored hcb
  obtain ⟨L, _, htop⟩ := h.topological rfl hchain hcb (le_refl _)
  obtain ⟨l, hl⟩ := hc.climb
  obtain ⟨l, rfl⟩ := hl.exists_cons
  have hlen := h.climb_length hhigh hl
  rw [length_cons] at hlen
  -- nothing in the past of the common block is missing
  have hnone : ∀ {L}, Topological D c L → notBelow R low L = [] := by
    intro L htop
    refine filter_eq_nil_iff.mpr fun x hx => ?_
    have hx := (htop.mem x).mp hx
    rw [(hR.dag x (h.grown.mem_of_past hcb hx) low hlow).mpr (.inr (hx.below hcl))]
    exact Bool.false_ne_true
  obtain ⟨it, hfirst, hyields⟩ := forward_yields (h.rising hhigh) (hR.servesChain h hhigh) hl
  obtain ⟨reached, L', hrun, hclimb, htop', hle', hon, hor, hprog, hall⟩ :=
    antipastLoop_ok h hhigh hsize hl hyields htop (show (notBelow R low L).length ≤ maxBlocks by
      rw [hnone htop]
      exact Nat.zero_le _) (show l.length < fuel by omega)
  rw [hnone htop] at hrun
  refine ⟨it, L', reached, hfirst, hrun, hclimb, htop', hle', hon, hor,
    fun hne => hprog (hnone htop) ?_, ?_, hall⟩
  · rintro rfl
    exact hne hl.eq_of_singleton
  · rintro rfl
    exact hnone htop'

theorem antipastHashesBetween_ok (hcount : bs.length < 2 ^ 64) (hR : ServesTree D bs s.data R)
    (hsize : ∀ b ∈ bs, ∀ d, s.data b = some d → d.mergesetSize ≤ limit.toNat)
    (hlow : low ∈ bs) (hhigh : high ∈ bs) (hnot : ¬ D.Past high low) {maxBlocks : Option Nat}
    (hmax : ∀ n, maxBlocks = some n → limit.toNat ≤ n) (hfuel : bs.length < fuel) :
    ∃ blocks reached,
    antipastHashesBetween s R limit fuel low high maxBlocks = .ok (blocks, reached) ∧
      AntipastAnswer D s.data low high maxBlocks blocks reached := by
  have hmax' : limit.toNat ≤ maxBlocks.getD (2 ^ 64 - 1) := by
    cases maxBlocks with
    | none => exact Nat.le_pred_of_lt (UInt64.toNat_lt limit)
    | some n => exact hmax n rfl
  obtain ⟨dl, ll, hdl, hchain, hllen, -⟩ := h.stored hlow
  obtain ⟨c, hfind, hc⟩ := findLoop_ok h hR hhigh hchain hlow (le_trans hllen (le_of_lt hfuel))
  have hcl := h.onPath_below hlow hc.onPath
  obtain ⟨dc, hdc⟩ := h.exists_data (h.onPath_mem hlow hc.onPath)
  obtain ⟨dh, hdh⟩ := h.exists_data hhigh
  obtain ⟨it, L, reached, hfirst, hrun, hrh, htop, hlen, hon, hor, hmoved, hstay, hall⟩ :=
    antipastWalk_ok h hR
    (fun b hb d hd => le_trans (hsize b hb d hd) hmax') hlow hhigh hc.holds hcl hfuel
  have hreached := h.onPath_mem hhigh hrh
  have hmoved : low ≠ high → c ≠ reached :=
    fun hne => hmoved fun he => (he ▸ hcl).elim (fun he => hne he.symm) hnot
  have hfree : maxBlocks = none → reached = high := fun he => hall (by
    rw [he]
    exact Nat.le_pred_of_lt hcount)
  have hscore : dc.blueScore ≤ dh.blueScore := by
    have := (h.score_rising hcount hhigh).le hc.holds
    rwa [scoreOf_eq hdc, scoreOf_eq hdh] at this
  have hbelow : c ≠ reached → ¬ D.Below reached low := by
    intro hne hle
    rcases hor with rfl | hsome
    · rcases hle with rfl | hlt
      · exact hne ((h.rising hlow).eq_of_rank hc.onPath
          (.refl _) (le_antisymm ((h.rising hlow).le hc.onPath)
          (((h.rising hlow).of_onPath hc.onPath).le (hc.above _ (.refl _) (.refl _)))))
      · exact hnot hlt
    · obtain ⟨x, hx⟩ := exists_mem_of_ne_nil _ hsome
      have hx' := (htop.mem x).mp (mem_filter.mp hx).1
      have := (hR.dag x (h.grown.mem_of_past hreached hx') low hlow).mpr (.inr (hx'.below hle))
      rw [notBelow, mem_filter, this] at hx
      exact Bool.false_ne_true hx.2
  rw [antipastHashesBetween, findHighestCommonChainBlock]
  rw [if_neg (not_not_intro hmax'), defaultBackwardChainIterator,
    backwardChainIterator, hfind, ok_bind, hdc, hdh]
  dsimp only
  rw [if_neg (not_not_intro hscore), hfirst, ok_bind]
  rw [hrun, ok_bind]
  by_cases hne : c = reached
  · have hnil := hstay hne
    have heq : low = high := not_not.mp fun hlh => hmoved hlh hne
    have hrh' : reached = high := hor.resolve_right fun hsome => hsome hnil
    refine ⟨[], reached, ?_, ⟨nodup_nil, fun x => ?_, List.Pairwise.nil⟩, fun n _ => Nat.zero_le _,
      hrh, ⟨c, hc, hon, hmoved⟩, hfree⟩
    · rw [if_neg (not_not_intro hne), hnil]
      rfl
    · rw [hrh', ← heq]
      simp
  · refine ⟨_, reached, if_pos hne, htop.missing h.grown hreached hR.dag hlow (hbelow hne),
      fun n hn => ?_, hrh, ⟨c, hc, hon, hmoved⟩, hfree⟩
    rw [hn, Option.getD_some] at hlen
    rw [length_append]
    exact Nat.succ_le_succ hlen

/-- **The answers of repeated calls together.** -/
theorem antipastRounds_ok (hcount : bs.length < 2 ^ 64) (hR : ServesTree D bs s.data R)
    (hsize : ∀ b ∈ bs, ∀ d, s.data b = some d → d.mergesetSize ≤ limit.toNat)
    (hhigh : high ∈ bs) {maxBlocks : Option Nat} (hmax : ∀ n, maxBlocks = some n → limit.toNat ≤ n)
    (hfuel : bs.length < fuel) : ∀ {low : Hash} {l : List Hash},
      Climb (chainParent D.genesis s.data) high low l → l.length ≤ rounds →
      ∃ blocks, antipastRounds s R limit fuel high maxBlocks rounds low = .ok blocks ∧
      Missing D low high blocks := by
  induction rounds with
  | zero =>
    intro low l hl hlen
    obtain ⟨l, rfl⟩ := hl.exists_cons
    exact absurd hlen (Nat.not_succ_le_zero _)
  | succ rounds ih =>
    intro low l hl hlen
    rw [antipastRounds]
    by_cases heq : low = high
    · rw [if_pos heq, heq]
      exact ⟨[], rfl, nodup_nil, fun x => by simp, List.Pairwise.nil⟩
    have hlow := h.onPath_mem hhigh hl.onPath
    have hbelow := h.onPath_below hhigh hl.onPath
    have hnot : ¬ D.Past high low := fun hp => h.grown.past_irrefl hhigh (hp.below hbelow)
    obtain ⟨blocks, reached, hrun, hans⟩ :=
      antipastHashesBetween_ok h hcount hR hsize hlow hhigh hnot hmax hfuel
    obtain ⟨c, hc, hon, hmoved⟩ := hans.common
    -- on the chain of `high` the common block is `low` itself
    have hcl : c = low := (h.rising hlow).eq_of_rank hc.onPath (.refl low) (le_antisymm
      ((h.rising hlow).le hc.onPath)
      (((h.rising hlow).of_onPath hc.onPath).le (hc.above low (.refl low) hl.onPath)))
    rw [hcl] at hon hmoved
    obtain ⟨l', hl', hlt⟩ := hl.above (h.rising hhigh) hon hans.chain (hmoved heq)
    obtain ⟨rest, hrest, hmiss⟩ := ih hl' (Nat.le_of_lt_succ (Nat.lt_of_lt_of_le hlt hlen))
    rw [if_neg heq, hrun, ok_bind]
    dsimp only
    rw [hrest]
    exact ⟨_, rfl, hans.missing.append (h.onPath_below (h.onPath_mem hhigh hans.chain) hon)
      (h.onPath_below hhigh hans.chain) hmiss⟩

end

/-- **Header sync sends each missing block once and in order.** -/
theorem antipast_complete (h : Sound m D bits bs s.data)
    (hcount : bs.length < 2 ^ 64) (hR : ServesTree D bs s.data R)
    (hsize : ∀ b ∈ bs, ∀ d, s.data b = some d → d.mergesetSize ≤ limit.toNat) (hlow : low ∈ bs)
    (hhigh : high ∈ bs) (hnot : ¬ D.Past high low) {maxBlocks : Option Nat}
    (hmax : ∀ n, maxBlocks = some n → limit.toNat ≤ n) {fuel : Nat} (hfuel : bs.length < fuel) :
    (∃ blocks reached, antipastHashesBetween s R limit fuel low high maxBlocks =
      .ok (blocks, reached) ∧ AntipastAnswer D s.data low high maxBlocks blocks reached) ∧
    (OnChain D.genesis s.data low high → ∀ rounds, bs.length ≤ rounds →
      ∃ blocks, antipastRounds s R limit fuel high maxBlocks rounds low = .ok blocks ∧
      Missing D low high blocks) := by
  refine ⟨antipastHashesBetween_ok h hcount hR hsize hlow hhigh hnot hmax hfuel,
    fun hon rounds hrounds => ?_⟩
  obtain ⟨l, hl⟩ := hon.climb
  exact antipastRounds_ok h hcount hR hsize hhigh hmax hfuel hl
    (le_trans (h.climb_length hhigh hl) hrounds)

end Antipast

theorem antipast_fork : (∃ blocks reached,
      antipastHashesBetween (forkStores 0x207fffff) (treeService fork (forkData 0x207fffff) 5) 2 6
        (hashOf 2) (hashOf 4) (some 2) = .ok (blocks, reached) ∧
      AntipastAnswer fork (forkData 0x207fffff) (hashOf 2) (hashOf 4) (some 2) blocks reached) ∧
    ∃ blocks,
    antipastRounds (forkStores 0x207fffff) (treeService fork (forkData 0x207fffff) 5) 2 6 (hashOf 4)
        (some 2) 5 (hashOf 2) = .ok blocks ∧ Missing fork (hashOf 2) (hashOf 4) blocks := by
  have h : Sound forkManager fork (fun _ => 0x207fffff) forkAll (forkStores 0x207fffff).data :=
    (fork_built 0x207fffff (by decide)).sound ⟨by decide, by decide⟩
  have hsize : ∀ b ∈ forkAll, ∀ d, (forkStores 0x207fffff).data b = some d →
      d.mergesetSize ≤ (2 : UInt64).toNat := by
    have hall : ∀ b ∈ forkAll, ((forkStores 0x207fffff).data b).all
        (fun d => d.mergesetSize ≤ (2 : UInt64).toNat) = true := by
      decide
    intro b hb d hd
    have := hall b hb
    rw [hd] at this
    exact of_decide_eq_true this
  have hnot : ¬ fork.Past (hashOf 4) (hashOf 2) := fun hp =>
    absurd ((reaches_of_grown h.grown (hashOf 4) (by decide) (hashOf 2) (by decide)).mpr (.inr hp))
      (by decide)
  have hcomplete :=
    antipast_complete h (by decide) (treeService_serves h.grown h.inDag) hsize (by decide)
    (by decide) hnot (fun n hn => le_of_eq (Option.some.inj hn)) (show forkAll.length < 6 by decide)
  exact ⟨hcomplete.1, hcomplete.2 ⟨2, by decide⟩ 5 (by decide)⟩

end Sahyadri.Consensus
