import Sahyadri.Consensus.Run

/-!
# The blue sets of a DAG that is built block by block

* `blue_sets_exact`: with work in every block they are `k`-clusters, the stored sizes are exact, and
  the next block is coloured greedily without a panic.
-/

namespace Sahyadri.Consensus

open Lib Smt Core List Option

/-! ## 1. Blue sets -/

/-- The blue set of a block, by at most `n` steps down its selected chain. -/
def blueSet (data : StoreReader) (genesis : Hash) : Nat → Hash → List Hash
  | 0, _ => []
  | n + 1, b =>
    match data b with
    | none => []
    | some d =>
      d.mergesetBlues ++ if b = genesis then [] else blueSet data genesis n d.selectedParent

theorem blueSet_eq {D : Dag Hash} {data : StoreReader} {b : Hash}
    {l : List ChainEntry} (h : SelectedChain D data b l) :
    ∀ {n : Nat}, l.length ≤ n → blueSet data D.genesis n b = bluesOf l := by
  induction h with
  | genesis hd hblues hsizes =>
    intro n hn
    obtain ⟨n, rfl⟩ := Nat.exists_eq_add_of_lt hn
    unfold blueSet
    rw [hd, bluesOf_cons]
    dsimp only
    rw [if_pos rfl]
    rfl
  | step hne hreal hd hparent hblues hrest ih =>
    intro n hn
    obtain ⟨n, rfl⟩ := Nat.exists_eq_add_of_lt hn
    unfold blueSet
    rw [hd, bluesOf_cons]
    dsimp only
    rw [if_neg hne, ih (Nat.le_add_right _ _)]

/-- The blue set of a stored block is a `k`-cluster, and the sizes of its blocks are found. -/
def ExactBlueSet (m : SahyadriConsensusManager) (D : Dag Hash) (s : ConsensusStores) (fuel : Nat)
    (b : Hash) : Prop :=
  ∃ d, s.data b = some d ∧
    KCluster D.Anticone m.k.toNat (blueSet s.data D.genesis fuel b).toFinset ∧
    ∀ x ∈ blueSet s.data D.genesis fuel b, ∃ n, m.blueAnticoneSize s fuel x d = .ok n ∧
      n.toNat = (strangers D.Anticone (blueSet s.data D.genesis fuel b).toFinset x).card

/-- The mergeset is coloured greedily: blue is what leaves the blue set so far a `k`-cluster. -/
def ColoredInTurn (m : SahyadriConsensusManager) (D : Dag Hash) (s : ConsensusStores) (fuel : Nat)
    (b : Hash) (d : SahyadriConsensusData) : Prop :=
  ∃ cs, orderedMergesetWithoutSelectedParent s fuel d.selectedParent (D.parents b) = .ok cs ∧
    (d.mergesetBlues ++ d.mergesetReds).Perm (d.selectedParent :: cs) ∧
    ∀ pre c post, cs = pre ++ c :: post → (c ∈ d.mergesetBlues ↔ KCluster D.Anticone m.k.toNat
        (insert c ((d.selectedParent :: blueSet s.data D.genesis fuel d.selectedParent).toFinset ∪
          (d.mergesetBlues.filter (· ∈ pre)).toFinset)))

section Clusters

variable {m : SahyadriConsensusManager} {D : Dag Hash} {bits : Hash → UInt32} {bs : List Hash}
  {data : StoreReader} {reach : Hash → Hash → Bool} {fuel : Nat} {b : Hash}

theorem Sound.exactBlueSet (h : Sound m D bits bs data) (hk : m.k.toNat < 65535)
    (hfuel : bs.length < fuel) (hb : b ∈ bs) :
    ExactBlueSet m D (storesOf D bits bs data reach) fuel b := by
  obtain ⟨d, l, hd, hchain, hlen, hexact, _, _⟩ := h.stored hb
  have hset : blueSet data D.genesis fuel b = bluesOf ((b, d) :: l) :=
    blueSet_eq hchain (by rw [length_cons]; omega)
  refine ⟨d, hd, ?_, ?_⟩
  · show KCluster _ _ (blueSet data D.genesis fuel b).toFinset
    rw [hset]
    exact hexact.cluster hk
  · show ∀ x ∈ blueSet data D.genesis fuel b, _
    intro x hx
    have hset' : (strangers D.Anticone (blueSet data D.genesis fuel b).toFinset x).card =
        (strangers D.Anticone (bluesIn ((b, d) :: l)) x).card := by rw [hset]
    rw [hset] at hx
    have hle := hexact.cluster hk x (mem_toFinset.mpr hx)
    refine ⟨_, ?_, (UInt16.toNat_ofNat_of_lt' ?_).trans hset'.symm⟩
    swap
    · exact Nat.lt_of_le_of_lt hle (Nat.lt_succ_of_lt hk)
    cases hchain with
    | genesis _ hblues _ =>
      rw [bluesOf_cons, hblues] at hx
      exact absurd hx not_mem_nil
    | step _ _ _ _ _ hrest =>
      exact blueAnticoneSize_ok h.genesis hrest (hexact.size x hx) (by omega)

theorem Merges.coloredInTurn {d : SahyadriConsensusData} {l : List ChainEntry} {cs : List Hash}
    (hm : Merges m D bits data b d l cs) (hk : m.k.toNat < 65535) (hlen : l.length ≤ fuel) (hcs :
      orderedMergesetWithoutSelectedParent (storesOf D bits bs data reach) fuel d.selectedParent
      (D.parents b) = .ok cs) : ColoredInTurn m D (storesOf D bits bs data reach) fuel b d := by
  have hsp : d.selectedParent ∉ cs := fun hx => ((hm.mem _).mp hx).2 (.refl _)
  have hnd : cs.Nodup := hm.sorted.imp fun hkey => ne_of_apply_ne (keyOf data) hkey.ne
  refine ⟨cs, hcs, ?_, ?_⟩
  · rw [hm.blues]
    exact hm.split.cons _
  · rintro pre c post rfl
    have hset := blueSet_eq hm.chain hlen
    have hspc : c ≠ d.selectedParent := fun he => hsp (he ▸ mem_append_right _ mem_cons_self)
    have hsppre : d.selectedParent ∉ pre := fun hx => hsp (mem_append_left _ hx)
    show c ∈ d.mergesetBlues ↔ KCluster _ _ (insert c
      ((d.selectedParent :: blueSet data D.genesis fuel d.selectedParent).toFinset ∪ _))
    rw [hset, hm.blues, hm.greedily hk, mem_cons, or_iff_right hspc, mem_greedy_iff hnd,
      toFinset_cons, filter_cons_of_neg (by simpa using hsppre)]

/-- **Blue sets are `k`-clusters with exact sizes**, and the next block is coloured in turn, without
    a panic or a failed assertion, if every block has work and the work of all fits into 192
    bits. -/
theorem blue_sets_exact (h : Built m D bits bs data) (hw : Weighted m bits bs)
    (hk : m.k.toNat < 65535) (hreach : Reaches D bs reach) (hfuel : bs.length < fuel) :
    (∀ b ∈ bs, ExactBlueSet m D (storesOf D bits bs data reach) fuel b) ∧ ∀ b, Admissible D bs b →
      ∃ d, m.sahyadriConsensus (storesOf D bits bs data reach) fuel (D.parents b) = .ok d ∧
        ColoredInTurn m D (storesOf D bits bs data reach) fuel b d := by
  have hsound := h.sound hw
  refine ⟨fun b hb => hsound.exactBlueSet hk hfuel hb, fun b hb => ?_⟩
  obtain ⟨d, l, cs, hcs, hd, hlen, hm⟩ := hsound.next hw hb hreach hfuel
  exact ⟨d, hd, hm.coloredInTurn hk (by omega) hcs⟩

end Clusters

/-! ## 2. Two runs -/

def hashOf (n : UInt8) : Hash := ⟨n :: List.replicate 31 0, by simp⟩

/-- The genesis block 0; 2 and 3 over it, 1 over 2, and 4 over 3 and 1. -/
def fork : Dag Hash where
  genesis := hashOf 0
  parents b :=
    if b = hashOf 1 then [hashOf 2]
    else if b = hashOf 2 ∨ b = hashOf 3 then [hashOf 0]
    else if b = hashOf 4 then [hashOf 3, hashOf 1]
    else []

def forkManager : SahyadriConsensusManager := ⟨hashOf 0, 3, 0⟩

def forkBlocks : List Hash := [hashOf 4, hashOf 1, hashOf 2, hashOf 3]

def forkAll : List Hash := forkBlocks ++ [hashOf 0]

variable (bits : UInt32)

def forkData : StoreReader := buildData forkManager fork (fun _ => bits) forkBlocks

def forkStores : ConsensusStores :=
  storesOf fork (fun _ => bits) forkAll (forkData bits) (fork.reaches 5)

theorem fork_built (h : (build forkManager fork (fun _ => bits) forkBlocks).isSome = true) :
    Built forkManager fork (fun _ => bits) forkAll (forkData bits) := buildData_built h

theorem fork_exact :
    (∀ b ∈ forkAll, ExactBlueSet forkManager fork (forkStores 0x207fffff) 6 b) ∧
    ∀ b, Admissible fork forkAll b →
      ∃ d, forkManager.sahyadriConsensus (forkStores 0x207fffff) 6 (fork.parents b) = .ok d ∧
        ColoredInTurn forkManager fork (forkStores 0x207fffff) 6 b d :=
  have hbuilt := fork_built 0x207fffff (by decide)
  blue_sets_exact hbuilt ⟨by decide, by decide⟩ (by decide) (reaches_of_grown hbuilt.grown)
    (by decide)

/-- **Without work the sizes are wrong.** A target of zero has no work, the mergeset of 4 is sorted
    by hash alone, and the size stored for 2 counts its child 1. -/
theorem size_counts_future :
    Built forkManager fork (fun _ => 0) forkAll (forkData 0) ∧
    Reaches fork forkAll (fork.reaches 5) ∧
    ¬ ExactBlueSet forkManager fork (forkStores 0) 6 (hashOf 4) := by
  have hbuilt := fork_built 0 (by decide)
  refine ⟨hbuilt, reaches_of_grown hbuilt.grown, ?_⟩
  rintro ⟨d, hd, _, hsize⟩
  have hmem : ∀ y ∈ blueSet (forkStores 0).data fork.genesis 6 (hashOf 4),
      y ∈ forkBlocks ++ [hashOf 0] := by decide
  obtain ⟨n, hn, hcard⟩ := hsize (hashOf 2) (by decide)
  have hstored : ((forkStores 0).data (hashOf 4)).map
      (fun d => forkManager.blueAnticoneSize (forkStores 0) 6 (hashOf 2) d) = some (.ok 2) := by
    decide
  rw [hd, map_some, hn] at hstored
  have htwo : n = 2 := Except.ok.inj (some.inj hstored)
  have hone : strangers fork.Anticone
      (blueSet (forkStores 0).data fork.genesis 6 (hashOf 4)).toFinset (hashOf 2) ⊆ {hashOf 3} := by
    intro y hy
    obtain ⟨hy, ha⟩ := mem_strangers.mp hy
    have hap := (hbuilt.grown.anticone_iff (n := 5) (by decide) (by decide) (hmem y hy)).mp ha
    have hall : ∀ y ∈ blueSet (forkStores 0).data fork.genesis 6 (hashOf 4),
        fork.apart 5 (hashOf 2) y = true → y = hashOf 3 := by decide
    exact Finset.mem_singleton.mpr (hall y hy hap)
  have hle := Finset.card_le_card hone
  rw [Finset.card_singleton, ← hcard, htwo] at hle
  exact absurd hle (by decide)

/-! ## 3. Two nodes -/

variable {m : SahyadriConsensusManager} {D : Dag Hash} {bits : Hash → UInt32} {bs bs' : List Hash}
  {data data' : StoreReader} {b : Hash}

/-- Two nodes have the same data for a block, up to the table of sizes, and the same blue set. -/
structure Alike (D : Dag Hash) (data data' : StoreReader) (b : Hash) : Prop where
  stored : ∃ d d', data b = some d ∧ data' b = some d' ∧
    d' = { d with bluesAnticoneSizes := d'.bluesAnticoneSizes }
  blues : ∀ {l l'}, SelectedChain D data b l → SelectedChain D data' b l' → bluesOf l = bluesOf l'

theorem Alike.key (h : Alike D data data' b) : keyOf data' b = keyOf data b := by
  obtain ⟨d, d', hd, hd', he⟩ := h.stored
  unfold keyOf sortableOf
  rw [hd, hd', he]
  rfl

theorem eq_of_keys {as cs : List Hash} (ha : as.Pairwise fun x y => keyOf data x < keyOf data y)
    (hc : cs.Pairwise fun x y => keyOf data x < keyOf data y) (h : ∀ x, x ∈ as ↔ x ∈ cs) :
    as = cs := by
  have hperm : as.Perm cs := (perm_ext_iff_of_nodup (ha.imp fun hlt => ne_of_apply_ne _ hlt.ne)
    (hc.imp fun hlt => ne_of_apply_ne _ hlt.ne)).mpr h
  exact hperm.eq_of_pairwise (fun _ _ _ _ hlt hgt => absurd hlt (lt_asymm hgt)) ha hc

theorem Merges.alike {d d' : SahyadriConsensusData} {l l' : List ChainEntry} {cs cs' : List Hash}
    (h : Merges m D bits data b d l cs) (h' : Merges m D bits data' b d' l' cs')
    (hk : m.k.toNat < 65535) (hg : b ≠ D.genesis) (hpast : ∀ x, D.Past x b → Alike D data data' x) :
    d' = { d with bluesAnticoneSizes := d'.bluesAnticoneSizes } ∧
    bluesOf ((b, d) :: l) = bluesOf ((b, d') :: l') := by
  have hparent := fun {p} (hp : p ∈ D.parents b) => hpast p (Dag.past_of_parent hg hp)
  have hsp : d'.selectedParent = d.selectedParent := by
    have hle := h'.best _ h.parent
    rw [(hparent h.parent).key, (hparent h'.parent).key] at hle
    exact keyOf_inj (le_antisymm (h.best _ h'.parent) hle)
  have hl : bluesOf l = bluesOf l' := (hparent h.parent).blues h.chain (hsp ▸ h'.chain)
  have hsorted : cs'.Pairwise fun x y => keyOf data x < keyOf data y :=
    h'.sorted.imp_of_mem fun hx hy hlt => by
    rwa [(hpast _ ((h'.mem _).mp hx).1).key, (hpast _ ((h'.mem _).mp hy).1).key] at hlt
  obtain rfl : cs = cs' := eq_of_keys h.sorted hsorted fun x => by rw [h.mem, h'.mem, hsp]
  have hblues : d.mergesetBlues = d'.mergesetBlues := by
    rw [h.blues, h'.blues, h.greedily hk, h'.greedily hk, bluesIn, hl, hsp]
  have hreds : d.mergesetReds = d'.mergesetReds := by
    have hsplit := h.split.trans h'.split.symm
    rw [hblues, perm_append_left_iff] at hsplit
    exact eq_of_keys (h.sorted.sublist h.reds) (h.sorted.sublist h'.reds) fun _ => hsplit.mem_iff
  have hall : bluesOf ((b, d) :: l) = bluesOf ((b, d') :: l') := by
    rw [bluesOf_cons, bluesOf_cons, hblues, hl]
  have hscore : d.blueScore = d'.blueScore := by rw [h.score, h'.score, hall]
  have hwork : d.blueWork = d'.blueWork := by rw [h.work, h'.work, hall]
  exact ⟨by rw [hscore, hwork, ← hsp, hblues, hreds], hall⟩

/-- **Every node colours alike**: two nodes have the same data for a block that both have, in
    whatever order the blocks arrived. -/
theorem coloring_independent_of_arrival (h : Built m D bits bs data) (h' : Built m D bits bs' data')
    (hw : Weighted m bits bs) (hw' : Weighted m bits bs') (hk : m.k.toNat < 65535)
    (hb : b ∈ bs) (hb' : b ∈ bs') : ∃ d d', data b = some d ∧ data' b = some d' ∧
      d' = { d with bluesAnticoneSizes := d'.bluesAnticoneSizes } := by
  have hs := h.sound hw
  have hs' := h'.sound hw'
  refine (?_ : Alike D data data' b).stored
  obtain ⟨d, hd⟩ := hs.exists_data hb
  -- by the blue work, which is smaller in the past
  induction hn : d.blueWork.toNat using Nat.strong_induction_on generalizing b d with
  | _ n ih =>
    subst hn
    by_cases hg : b = D.genesis
    · subst hg
      refine ⟨⟨_, _, hs.first, hs'.first, rfl⟩, fun hl hl' => ?_⟩
      rw [hl.unique (.genesis hs.first rfl rfl), hl'.unique (.genesis hs'.first rfl rfl)]
    · obtain ⟨e, l, cs, he, -, hm⟩ := hs.merges b hb hg
      obtain ⟨e', l', cs', he', -, hm'⟩ := hs'.merges b hb' hg
      obtain ⟨hsame, hblues⟩ := hm.alike hm' hk hg fun x hx => by
        have hxb := hs.grown.mem_of_past hb hx
        obtain ⟨dx, hdx⟩ := hs.exists_data hxb
        exact ih _ (hs.increasing hb hx hdx hd) hxb (hs'.grown.mem_of_past hb' hx) dx hdx rfl
      refine ⟨⟨e, e', he, he', hsame⟩, fun hl hl' => ?_⟩
      rw [hl.unique (.step hg (hs.real b hb) he (Dag.past_of_parent hg hm.parent)
        (hm.blue_past hg) hm.chain), hblues, hl'.unique (.step hg (hs.real b hb) he'
        (Dag.past_of_parent hg hm'.parent) (hm'.blue_past hg) hm'.chain)]

theorem coloring_independent_at_fork : ∃ data, build forkManager fork (fun _ => 0x207fffff)
      [hashOf 4, hashOf 3, hashOf 1, hashOf 2] = some data ∧
      ∃ d d', forkData 0x207fffff (hashOf 4) = some d ∧
        data (hashOf 4) = some d' ∧ d' = { d with bluesAnticoneSizes := d'.bluesAnticoneSizes } :=
  (isSome_iff_exists.mp (by decide)).imp fun data hdata => ⟨hdata, coloring_independent_of_arrival
    (fork_built 0x207fffff (by decide)) (build_built hdata) ⟨by decide, by decide⟩
    ⟨by decide, by decide⟩ (by decide) mem_cons_self mem_cons_self⟩

end Sahyadri.Consensus
