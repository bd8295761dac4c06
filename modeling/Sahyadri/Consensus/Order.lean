import Sahyadri.Consensus.Clusters

/-!
# The consensus order of a DAG that is built block by block

* `consensus_order_complete`: it lists the past of a block once, from the past to the future, as
  long as the work of all blocks fits into 192 bits; `work_wraps`: what happens when it does not.
-/

namespace Sahyadri.Consensus

open Lib Smt Core List SahyadriConsensusManager SahyadriConsensusData

/-! ## 1. Merging blues and reds -/

section Merge

variable {r : SortableBlock → SortableBlock → Prop} [DecidableRel r] {as bs cs : List SortableBlock}

theorem mergeJoinBy_ok (htrans : ∀ a b c, r a b → r b c → r a c)
    (has : as.Pairwise r) (hbs : bs.Pairwise r) (hne : ∀ a ∈ as, ∀ b ∈ bs, r a b ∨ r b a) :
    ∃ l, mergeJoinBy r as bs = .ok l ∧ l.Perm (as ++ bs) ∧ l.Pairwise r := by
  induction as, bs using mergeJoinBy.induct r with
  | case1 bs => exact ⟨bs, by unfold mergeJoinBy; rfl, .refl _, hbs⟩
  | case2 a as => exact ⟨a :: as, by unfold mergeJoinBy; rfl, by rw [append_nil], has⟩
  | case3 a as b bs hlt ih =>
    obtain ⟨hafirst, has⟩ := pairwise_cons.mp has
    obtain ⟨l, hl, hperm, hsorted⟩ := ih has hbs fun x hx => hne x (mem_cons_of_mem _ hx)
    refine ⟨a :: l, ?_, hperm.cons a, pairwise_cons.mpr ⟨fun x hx => ?_, hsorted⟩⟩
    · unfold mergeJoinBy
      rw [if_pos hlt, hl]
      rfl
    · rcases mem_append.mp (hperm.mem_iff.mp hx) with hx | hx
      · exact hafirst x hx
      · rcases mem_cons.mp hx with rfl | hx
        · exact hlt
        · exact htrans _ _ _ hlt ((pairwise_cons.mp hbs).1 x hx)
  | case4 a as b bs hnlt hlt ih =>
    obtain ⟨hbfirst, hbs⟩ := pairwise_cons.mp hbs
    obtain ⟨l, hl, hperm, hsorted⟩ := ih has hbs fun x hx y hy => hne x hx y (mem_cons_of_mem _ hy)
    refine ⟨b :: l, ?_, (hperm.cons b).trans perm_middle.symm,
      pairwise_cons.mpr ⟨fun x hx => ?_, hsorted⟩⟩
    · unfold mergeJoinBy
      rw [if_neg hnlt, if_pos hlt, hl]
      rfl
    · rcases mem_append.mp (hperm.mem_iff.mp hx) with hx | hx
      · rcases mem_cons.mp hx with rfl | hx
        · exact hlt
        · exact htrans _ _ _ hlt ((pairwise_cons.mp has).1 x hx)
      · exact hbfirst x hx
  | case5 a as b bs hnlt hnlt' =>
    exact ((hne a mem_cons_self b mem_cons_self).elim hnlt hnlt').elim

theorem mergeJoinBy_parts (htrans : ∀ a b c, r a b → r b c → r a c)
    (hirr : ∀ a, ¬ r a a) (hcs : cs.Pairwise r)
    (has : as.Sublist cs) (hbs : bs.Sublist cs) (hsplit : (as ++ bs).Perm cs) :
    mergeJoinBy r as bs = .ok cs := by
  have hne : ∀ a b, r a b → a ≠ b := fun a b h he => hirr b (he ▸ h)
  have hnd : cs.Nodup := hcs.imp (hne _ _)
  have hsymm : Std.Symm fun a b => r a b ∨ r b a := ⟨fun _ _ => Or.symm⟩
  obtain ⟨l, hl, hperm, hsorted⟩ :=
    mergeJoinBy_ok htrans (hcs.sublist has) (hcs.sublist hbs) fun a ha b hb =>
    (hcs.imp (S := fun a b => r a b ∨ r b a) .inl).forall (has.subset ha) (hbs.subset hb)
      ((nodup_append.mp (hsplit.nodup_iff.mpr hnd)).2.2 a ha b hb)
  rw [hl, (hperm.trans hsplit).eq_of_pairwise
    (fun a b _ _ hab hba => absurd (htrans a b a hab hba) (hirr a)) hsorted hcs]

end Merge

section Order

variable {m : SahyadriConsensusManager} {D : Dag Hash} {bits : Hash → UInt32} {bs : List Hash}
  {data : StoreReader} {s : ConsensusStores} {b : Hash}
  {d : SahyadriConsensusData} {l : List ChainEntry} {cs : List Hash}

/-- **The ordered mergeset** is the selected parent and the mergeset in its order. -/
theorem Merges.consensusOrderedMergeset_ok (hm : Merges m D bits s.data b d l cs)
    (hdata : ∀ x ∈ cs, ∃ e, s.data x = some e) :
    d.consensusOrderedMergeset s = .ok (d.selectedParent :: cs) := by
  have hsorted : (cs.map (sortableOf s.data)).Pairwise fun a b => a.key < b.key :=
    pairwise_map.mpr hm.sorted
  have hsplit := hm.split.map (sortableOf s.data)
  rw [map_append] at hsplit
  have hmerge :=
    mergeJoinBy_parts (r := fun a b => a.key < b.key) (fun _ _ _ => lt_trans) (fun _ => lt_irrefl _)
    hsorted (hm.taken.map _) (hm.reds.map _) hsplit
  unfold consensusOrderedMergeset ascendingMergesetWithoutSelectedParent
  rw [sortables_ok fun x hx => hdata x (hm.taken.subset hx), Run.ok_bind,
    sortables_ok fun x hx => hdata x (hm.reds.subset hx), Run.ok_bind, hmerge, Run.ok_bind,
    map_map, show (·.hash) ∘ sortableOf s.data = id from rfl, map_id]
  rfl

theorem consensusOrderedMergeset_genesis (s : ConsensusStores) :
    genesisSahyadriConsensusData.consensusOrderedMergeset s = .ok [origin] := by
  have hnone : genesisSahyadriConsensusData.ascendingMergesetWithoutSelectedParent s = .ok [] := by
    show mergeJoinBy _ [] [] = _
    unfold mergeJoinBy
    rfl
  unfold consensusOrderedMergeset
  rw [hnone]
  rfl

/-! ## 2. The order along the selected chain -/

/-- The ordered mergesets along the selected chain of a block, in at most `n` steps. -/
def consensusOrder (s : ConsensusStores) (genesis : Hash) : Nat → Hash → Run Diverged (List Hash)
  | 0, _ => .fail .outOfSteps
  | n + 1, b =>
    if b = genesis then .ok []
    else
      match s.data b with
      | none => .panicked
      | some d => do
        let below ← consensusOrder s genesis n d.selectedParent
        let own ← d.consensusOrderedMergeset s
        return below ++ own

/-- The past of a block, each block of it once and from the past to the future. -/
structure Topological (D : Dag Hash) (b : Hash) (L : List Hash) : Prop where
  nodup : L.Nodup
  mem : ∀ x, x ∈ L ↔ D.Past x b
  ordered : L.Pairwise fun x y => ¬ D.Past y x

theorem Topological.step (hgrown : D.Grown bs) {sp : Hash} {L : List Hash} (hsp : sp ∈ bs)
    (hpast : D.Past sp b) (h : Topological D sp L) (hnd : cs.Nodup)
    (hmem : ∀ x, x ∈ cs ↔ D.Past x b ∧ ¬ D.Below x sp) (hcs : cs.Pairwise fun x y => ¬ D.Past y x) :
    Topological D b (L ++ sp :: cs) := by
  have hnew : ∀ x ∈ sp :: cs, ¬ D.Past x sp := fun x hx => by
    rcases mem_cons.mp hx with rfl | hx
    · exact hgrown.past_irrefl hsp
    · exact fun hp => ((hmem x).mp hx).2 (.inr hp)
  refine ⟨?_, fun x => ?_, ?_⟩
  · refine nodup_append.mpr ⟨h.nodup, nodup_cons.mpr ⟨fun hx => ?_, hnd⟩, ?_⟩
    · exact ((hmem sp).mp hx).2 (.refl sp)
    · rintro x hx y hy rfl
      exact hnew x hy ((h.mem x).mp hx)
  · rw [mem_append, mem_cons, h.mem, hmem]
    constructor
    · rintro (hx | rfl | hx)
      · exact hx.trans hpast
      · exact hpast
      · exact hx.1
    · intro hx
      by_cases hb : D.Below x sp
      · exact hb.symm.imp_right .inl
      · exact .inr (.inr ⟨hx, hb⟩)
  · refine pairwise_append.mpr ⟨h.ordered, pairwise_cons.mpr ⟨fun y hy => ?_, hcs⟩, ?_⟩
    · exact hnew y (mem_cons_of_mem _ hy)
    · exact fun x hx y hy hp => hnew y hy (hp.trans ((h.mem x).mp hx))

theorem Sound.topological (h : Sound m D bits bs data) (hs : s.data = data)
    (hchain : SelectedChain D data b l) : b ∈ bs → ∀ {n : Nat}, l.length ≤ n →
      ∃ L, consensusOrder s D.genesis n b = .ok L ∧ Topological D b L := by
  induction hchain with
  | genesis hd hblues hsizes =>
    intro hb n hn
    obtain ⟨n, rfl⟩ := Nat.exists_eq_add_of_lt hn
    refine ⟨[], if_pos rfl, .nil, fun x => ?_, .nil⟩
    exact iff_of_false not_mem_nil Dag.not_past_genesis
  | @step b d l hne hreal hd hparent hblues hrest ih =>
    intro hb n hn
    obtain ⟨n, rfl⟩ := Nat.exists_eq_add_of_lt hn
    have hsp := h.grown.mem_of_past hb hparent
    obtain ⟨L, hL, htop⟩ := ih hsp (Nat.le_add_right l.length n)
    obtain ⟨d', l', cs, hd', _, hm⟩ := h.merges b hb hne
    cases hd.symm.trans hd'
    have hcsb : ∀ x ∈ cs, x ∈ bs := fun x hx => h.grown.mem_of_past hb ((hm.mem x).mp hx).1
    have hown : d.consensusOrderedMergeset s = .ok (d.selectedParent :: cs) := by
      refine Merges.consensusOrderedMergeset_ok (by rw [hs]; exact hm) fun x hx => ?_
      rw [hs]
      exact h.exists_data (hcsb x hx)
    refine ⟨L ++ d.selectedParent :: cs, ?_, htop.step h.grown hsp hparent ?_ hm.mem ?_⟩
    · unfold consensusOrder
      rw [if_neg hne, hs, hd]
      dsimp only
      rw [hL, Run.ok_bind, hown]
      rfl
    · exact hm.sorted.imp fun hkey => ne_of_apply_ne (keyOf data) hkey.ne
    · exact hm.sorted.imp_of_mem fun hx _ hkey => h.not_past_of_key (hcsb _ hx) hkey

/-! ## 3. Every block -/

/-- What the data of a block says about its past. -/
structure Ordered (D : Dag Hash) (s : ConsensusStores) (fuel : Nat) (b : Hash)
    (d : SahyadriConsensusData) : Prop where
  /-- The mergeset is the past without the past of the selected parent and without it. -/
  mergeset : b ≠ D.genesis → (d.mergesetBlues.drop 1 ++ d.mergesetReds).Nodup ∧
    ∀ x, x ∈ d.mergesetBlues.drop 1 ++ d.mergesetReds ↔ D.Past x b ∧ ¬ D.Past x d.selectedParent ∧
    x ≠ d.selectedParent
  work : ∀ p, D.Edge p b → ∀ dp, s.data p = some dp → dp.blueWork.toNat < d.blueWork.toNat
  score : d.blueScore.toNat = (blueSet s.data D.genesis fuel b).toFinset.card
  /-- The ordered mergeset is computed without a panic. -/
  own : ∃ L, d.consensusOrderedMergeset s = .ok L
  /-- The concatenation is a topological order of the past. -/
  chain : ∃ L, consensusOrder s D.genesis fuel b = .ok L ∧ L.Nodup ∧ (∀ x, x ∈ L ↔ D.Past x b) ∧
    L.Pairwise fun x y => ¬ D.Past y x

/-- **The consensus order is a complete topological order**, if every block has work, the work of
    all fits into 192 bits, and their number into 64. -/
theorem consensus_order_complete (h : Built m D bits bs data) (hw : Weighted m bits bs)
    (hcount : bs.length < 2 ^ 64)
    {reach : Hash → Hash → Bool} {fuel : Nat} (hfuel : bs.length < fuel) :
    ∀ b ∈ bs, ∃ d, data b = some d ∧ Ordered D (storesOf D bits bs data reach) fuel b d := by
  intro b hb
  have hsound := h.sound hw
  obtain ⟨d, l, hd, hchain, hlen, hexact, _, hscore⟩ := hsound.stored hb
  have hl : ((b, d) :: l).length ≤ fuel := by rw [length_cons]; omega
  have hpast := hchain.past
  refine ⟨d, hd, fun hg => ?_, fun p hp dp hdp => ?_, ?_, ?_, ?_⟩
  · obtain ⟨d', l', cs, hd', _, hm⟩ := hsound.merges b hb hg
    cases hd.symm.trans hd'
    have hnd : cs.Nodup := hm.sorted.imp fun hkey => ne_of_apply_ne (keyOf data) hkey.ne
    refine ⟨hm.split.nodup_iff.mpr hnd, fun x => ?_⟩
    rw [hm.split.mem_iff, hm.mem, Dag.Below, not_or, and_comm (a := ¬ _ = _)]
  · exact hsound.increasing hb hp.past hdp hd
  · have hset := blueSet_eq hchain hl
    have hle : (bluesOf ((b, d) :: l)).length ≤ bs.length :=
      (hexact.nodup.subperm fun x hx => hsound.grown.mem_of_past hb (hpast x hx)).length_le
    show _ = (blueSet data D.genesis fuel b).toFinset.card
    rw [hset, toFinset_card_of_nodup hexact.nodup, hscore,
      UInt64.toNat_ofNat_of_lt' (Nat.lt_of_le_of_lt hle hcount)]
  · by_cases hg : b = D.genesis
    · subst hg
      cases hd.symm.trans hsound.first
      exact ⟨[origin], consensusOrderedMergeset_genesis _⟩
    · obtain ⟨d', l', cs, hd', _, hm⟩ := hsound.merges b hb hg
      cases hd.symm.trans hd'
      exact ⟨_, Merges.consensusOrderedMergeset_ok hm fun x hx =>
        hsound.exists_data (hsound.grown.mem_of_past hb ((hm.mem x).mp hx).1)⟩
  · obtain ⟨L, hL, htop⟩ := hsound.topological (s := storesOf D bits bs data reach) rfl hchain hb hl
    exact ⟨L, hL, htop.nodup, htop.mem, htop.ordered⟩

end Order

/-! ## 4. Two runs -/

def line : Dag Hash where
  genesis := hashOf 0
  parents b := if b = hashOf 1 then [hashOf 0] else if b = hashOf 2 then [hashOf 1] else []

theorem fork_ordered : ∃ d, forkData 0x207fffff (hashOf 4) = some d ∧
    Ordered fork (forkStores 0x207fffff) 6 (hashOf 4) d :=
  consensus_order_complete (fork_built 0x207fffff (by decide))
    ⟨by decide, by decide⟩ (by decide) (by decide) _ mem_cons_self

/-- **The blue work wraps around**: every block has nearly `2 ^ 192` work, and 1 has less blue work
    than its parent 0. -/
theorem work_wraps :
    ∃ data d₁ d₂, Built forkManager line (fun _ => 0x0b000001) [hashOf 2, hashOf 1, hashOf 0] data ∧
    (∀ b : Hash, b ∈ [hashOf 2, hashOf 1, hashOf 0] → 0 < forkManager.workOf 0x0b000001) ∧
    line.Edge (hashOf 1) (hashOf 2) ∧ data (hashOf 1) = some d₁ ∧ data (hashOf 2) = some d₂ ∧
    d₂.blueWork.toNat < d₁.blueWork.toNat := by
  have hwork : ((build forkManager line (fun _ => 0x0b000001) [hashOf 2, hashOf 1]).bind fun data =>
      (data (hashOf 1)).bind fun d₁ => (data (hashOf 2)).map fun d₂ =>
        decide (d₂.blueWork.toNat < d₁.blueWork.toNat)) = some true := by
    decide
  obtain ⟨data, hdata, hwork⟩ := Option.bind_eq_some_iff.mp hwork
  obtain ⟨d₁, hd₁, hwork⟩ := Option.bind_eq_some_iff.mp hwork
  obtain ⟨d₂, hd₂, hlt⟩ := Option.map_eq_some_iff.mp hwork
  exact ⟨data, d₁, d₂, build_built hdata, fun _ _ => by decide, by unfold Dag.Edge; decide,
    hd₁, hd₂, of_decide_eq_true hlt⟩

end Sahyadri.Consensus
