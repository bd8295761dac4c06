import Sahyadri.Consensus.Depth
import Sahyadri.Consensus.Order

/-!
# The selected chains of a DAG with exact consensus data

* `workRank`: the blue work as a rank; it grows along every selected chain.
-/

namespace Sahyadri.Consensus

open Lib Smt Core List

/-! ## 1. The selected chains -/

def workRank (data : StoreReader) (h : Hash) : Nat :=
  ((data h).map fun d => d.blueWork.toNat).getD 0

/-- The service answers by the selected chains and by the DAG. -/
structure ServesTree (D : Dag Hash) (bs : List Hash) (data : StoreReader)
    (R : ReachabilityService) : Prop where
  dag : Reaches D bs R.isDagAncestorOf
  chain : ∀ x ∈ bs, ∀ y ∈ bs, (R.isChainAncestorOf x y = true ↔ OnChain D.genesis data x y)
  next : ∀ {x y}, y ∈ bs → OnChain D.genesis data x y → x ≠ y →
    ∃ c, R.getNextChainAncestor y x = some c ∧ chainParent D.genesis data c = some x ∧
      OnChain D.genesis data c y
  parent : ∀ x ∈ bs, x ≠ D.genesis → R.getChainParent x = chainParent D.genesis data x
  /-- The genesis block is over the virtual genesis. -/
  origin : R.getChainParent D.genesis = some origin

section Tree

variable {m : SahyadriConsensusManager} {D : Dag Hash} {bits : Hash → UInt32} {bs : List Hash}
  {data : StoreReader} {b p x : Hash}

section

variable (h : Sound m D bits bs data)

include h

theorem Sound.past_of_parent (hb : b ∈ bs) (hp : chainParent D.genesis data b = some p) :
    D.Past p b := by
  obtain ⟨hg, d, hd, rfl⟩ := chainParent_eq_some hp
  obtain ⟨d', _, _, hd', _, hm⟩ := h.merges b hb hg
  cases hd.symm.trans hd'
  exact Dag.past_of_parent hg hm.parent

theorem Sound.inDag : InDag D (chainParent D.genesis data) bs := fun _ hb _ => h.past_of_parent hb

theorem Sound.onPath_below (hb : b ∈ bs) (hx : OnChain D.genesis data x b) :
    D.Below x b := h.inDag.below h.grown hb hx

theorem Sound.onPath_mem (hb : b ∈ bs) (hx : OnChain D.genesis data x b) :
    x ∈ bs := h.inDag.mem h.grown hb hx

theorem Sound.workRank_lt (hb : b ∈ bs) (hx : D.Past x b) : workRank data x < workRank data b := by
  obtain ⟨db, hdb⟩ := h.exists_data hb
  obtain ⟨dx, hdx⟩ := h.exists_data (h.grown.mem_of_past hb hx)
  rw [workRank, workRank, hdb, hdx]
  exact h.increasing hb hx hdx hdb

/-- **The blue work grows along the selected chains.** -/
theorem Sound.rising (hb : b ∈ bs) : Rising (chainParent D.genesis data) (workRank data) b :=
  fun _ _ hx hp =>
  h.workRank_lt (h.onPath_mem hb hx) (h.past_of_parent (h.onPath_mem hb hx) hp)

theorem Sound.root_onPath (hb : b ∈ bs) : OnChain D.genesis data D.genesis b := by
  obtain ⟨d, l, hd, hchain, -⟩ := h.stored hb
  clear hb hd
  generalize (b, d) :: l = es at hchain
  induction hchain with
  | genesis => exact .refl _
  | step hne _ hd _ _ _ ih => exact .of_parent (chainParent_eq hd hne) ih

theorem ServesTree.servesChain {R : ReachabilityService} (hR : ServesTree D bs data R)
    (hb : b ∈ bs) : ServesChain (chainParent D.genesis data) R b :=
  ⟨fun hx hy => hR.chain _ (h.onPath_mem hb hx) _ (h.onPath_mem hb hy),
    fun hy => hR.next (h.onPath_mem hb hy)⟩

theorem Sound.climb_length (hb : b ∈ bs)
    {l : List Hash} (hl : Climb (chainParent D.genesis data) b x l) : l.length ≤ bs.length :=
  ((hl.nodup (h.rising hb)).subperm fun _ hy => h.onPath_mem hb (hl.mem_onPath hy)).length_le

variable (hcount : bs.length < 2 ^ 64)

include hcount

theorem Sound.score_eq (hb : b ∈ bs) {d : SahyadriConsensusData}
    (hd : data b = some d) {n : Nat} (hn : bs.length ≤ n) :
    d.blueScore.toNat = (blueSet data D.genesis n b).length := by
  obtain ⟨d', l, hd', hchain, hlen, hexact, _, hscore⟩ := h.stored hb
  cases hd.symm.trans hd'
  have hle : (bluesOf ((b, d) :: l)).length ≤ bs.length :=
    (hexact.nodup.subperm fun x hx => h.grown.mem_of_past hb (hchain.past x hx)).length_le
  rw [blueSet_eq hchain (le_trans hlen hn), hscore,
    UInt64.toNat_ofNat_of_lt' (lt_of_le_of_lt hle hcount)]

/-- **The blue score grows along the selected chains.** -/
theorem Sound.score_rising (hb : b ∈ bs) :
    Rising (chainParent D.genesis data) (scoreOf data) b := by
  intro x p hx hp
  have hxb := h.onPath_mem hb hx
  have hpb := h.grown.mem_of_past hxb (h.past_of_parent hxb hp)
  obtain ⟨dp, hdp⟩ := h.exists_data hpb
  obtain ⟨hg, dx, hdx, rfl⟩ := chainParent_eq_some hp
  obtain ⟨d', _, _, hd', _, hm⟩ := h.merges x hxb hg
  cases hdx.symm.trans hd'
  rw [scoreOf_eq hdp, scoreOf_eq hdx, h.score_eq hcount hpb hdp (le_refl _),
    h.score_eq hcount hxb hdx (Nat.le_succ _), blueSet, hdx]
  dsimp only
  rw [if_neg hg, length_append, hm.blues, length_cons]
  omega

theorem Sound.score_le_length (hb : b ∈ bs) : scoreOf data b ≤ bs.length := by
  obtain ⟨d, l, hd, hchain, hlen, hexact, _, hscore⟩ := h.stored hb
  have hle : (bluesOf ((b, d) :: l)).length ≤ bs.length :=
    (hexact.nodup.subperm fun x hx => h.grown.mem_of_past hb (hchain.past x hx)).length_le
  rw [scoreOf_eq hd, hscore, UInt64.toNat_ofNat_of_lt' (lt_of_le_of_lt hle hcount)]
  exact hle

end

end Tree

/-! ## 2. A service -/

def treeService (D : Dag Hash) (data : StoreReader) (k : Nat) : ReachabilityService where
  isChainAncestorOf x y :=
    (range k).any fun n => ancestorAt (chainParent D.genesis data) n y = some x
  isDagAncestorOf := D.reaches k
  getNextChainAncestor y x := (range k).findSome? fun n =>
    (ancestorAt (chainParent D.genesis data) n y).filter fun c =>
      chainParent D.genesis data c = some x
  getChainParent x := if x = D.genesis then some origin else chainParent D.genesis data x

theorem treeService_serves {D : Dag Hash} {bs : List Hash} {data : StoreReader}
    (hgrown : D.Grown bs) (h : InDag D (chainParent D.genesis data) bs) :
    ServesTree D bs data (treeService D data bs.length) := by
  refine ⟨reaches_of_grown hgrown, fun x _ y hy => h.any_iff hgrown hy, fun {x y} hy hx hne => ?_,
    fun x _ hne => if_neg hne, if_pos rfl⟩
  obtain ⟨c, hp, n, hn⟩ := hx.child hne
  have hsome : ((treeService D data bs.length).getNextChainAncestor y x).isSome = true := by
    rw [treeService, findSome?_isSome_iff]
    refine ⟨n, mem_range.mpr (h.steps_lt hgrown hy hn), ?_⟩
    rw [hn, Option.filter_some, if_pos (decide_eq_true hp)]
    rfl
  obtain ⟨c', hc'⟩ := Option.isSome_iff_exists.mp hsome
  obtain ⟨n', _, hfound⟩ := exists_of_findSome?_eq_some hc'
  obtain ⟨hn', hp'⟩ := Option.filter_eq_some_iff.mp hfound
  exact ⟨c', hc', of_decide_eq_true hp', n', hn'⟩

end Sahyadri.Consensus
