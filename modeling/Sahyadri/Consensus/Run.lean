import Sahyadri.Consensus.Coloring
import Mathlib.Algebra.Ring.Nat
import Mathlib.Algebra.Order.BigOperators.Group.List

/-!
# A DAG with the data of its blocks, built block by block

* `Built`: from the genesis block on, every block gets the data that `sahyadri_consensus` returns.
-/

namespace Sahyadri.Consensus

open Lib Smt Core List Function SahyadriConsensusManager Dag

/-! ## 1. Work -/

def rawWork (bits : UInt32) : Nat :=
  (~~~fromCompactTargetBits bits / (fromCompactTargetBits bits + 1) + 1).toNat

/-- The work that a block adds: at least the work of the level. -/
def SahyadriConsensusManager.workOf (m : SahyadriConsensusManager) (bits : UInt32) : Nat :=
  max (rawWork bits) m.levelWork.toNat

theorem calcWork_ok {ε : Type} {bits : UInt32} (h : rawWork bits < 2 ^ 192) :
    ∃ w : BlueWorkType, (calcWork bits : Run ε BlueWorkType) = .ok w ∧ w.toNat = rawWork bits := by
  refine ⟨_, if_pos h, ?_⟩
  exact Nat.mod_eq_of_lt h

theorem addedBlueWork_ok {m : SahyadriConsensusManager} {s : ConsensusStores} {bits : Hash → UInt32}
    {l : List Hash} (h : ∀ x ∈ l, s.bits x = some (bits x) ∧ m.workOf (bits x) < 2 ^ 192) :
    m.addedBlueWork s l = .ok (BitVec.ofNat 192 (l.map fun x => m.workOf (bits x)).sum) := by
  induction l with
  | nil => rfl
  | cons x l ih =>
    obtain ⟨⟨hbits, hlt⟩, hrest⟩ := forall_mem_cons.mp h
    obtain ⟨w, hw, hwn⟩ := calcWork_ok (lt_of_le_of_lt (le_max_left _ _) hlt)
    have hmax : (if w < m.levelWork then m.levelWork else w) =
        BitVec.ofNat 192 (m.workOf (bits x)) := by
      apply BitVec.eq_of_toNat_eq
      rw [BitVec.toNat_ofNat, Nat.mod_eq_of_lt hlt]
      unfold workOf
      split
      · rename_i hlt'
        rw [BitVec.lt_def, hwn] at hlt'
        exact (max_eq_right (le_of_lt hlt')).symm
      · rename_i hge
        rw [BitVec.lt_def, hwn] at hge
        rw [hwn, Nat.max_eq_left (Nat.le_of_not_lt hge)]
    unfold addedBlueWork
    rw [hbits, ih hrest, map_cons, sum_cons, BitVec.ofNat_add, ← hmax]
    dsimp only
    rw [hw]
    rfl

/-- The blocks have work, and together less than `2 ^ 192`. -/
structure Weighted (m : SahyadriConsensusManager) (bits : Hash → UInt32) (bs : List Hash) :
    Prop where
  positive : ∀ b ∈ bs, 0 < m.workOf (bits b)
  total : (bs.map fun b => m.workOf (bits b)).sum < 2 ^ 192

section Weighted

variable {m : SahyadriConsensusManager} {bits : Hash → UInt32} {bs : List Hash} {b : Hash}

theorem Weighted.tail (h : Weighted m bits (b :: bs)) : Weighted m bits bs := by
  refine ⟨fun x hx => h.positive x (mem_cons_of_mem _ hx), ?_⟩
  have := h.total
  rw [map_cons, sum_cons] at this
  omega

theorem Weighted.sum_lt (h : Weighted m bits bs) {l : List Hash} (hnd : l.Nodup)
    (hsub : ∀ x ∈ l, x ∈ bs) : (l.map fun x => m.workOf (bits x)).sum < 2 ^ 192 := by
  obtain ⟨l', hperm, hsub'⟩ := hnd.subperm hsub
  refine lt_of_le_of_lt ?_ h.total
  rw [← (hperm.map _).sum_eq]
  exact (hsub'.map _).sum_le_sum fun _ _ => Nat.zero_le _

end Weighted

/-! ## 2. Runs -/

def storesOf (D : Dag Hash) (bits : Hash → UInt32) (bs : List Hash)
    (data : StoreReader) (reach : Hash → Hash → Bool) : ConsensusStores where
  data := data
  parents h := if h ∈ bs then some (D.parents h) else none
  bits h := if h ∈ bs then some (bits h) else none
  isDagAncestorOf := reach

/-- A block that can be added: it is new, no reserved hash, and its parents are known and an
    antichain. -/
structure Admissible (D : Dag Hash) (bs : List Hash) (b : Hash) : Prop where
  new : b ∉ bs
  real : b ≠ origin
  nonempty : D.parents b ≠ []
  old : ∀ p ∈ D.parents b, p ∈ bs
  antichain : (D.parents b).Pairwise D.Anticone

theorem Admissible.ne_genesis {D : Dag Hash} {bs : List Hash} {b : Hash} (hb : Admissible D bs b)
    (h : D.Grown bs) : b ≠ D.genesis := fun he => hb.new (he ▸ h.genesis_mem)

theorem Admissible.mem_of_past {D : Dag Hash} {bs : List Hash} {b x : Hash} (hb : Admissible D bs b)
    (h : D.Grown bs) (hx : D.Past x b) : x ∈ bs := by
  obtain ⟨_, p, hp, hxp⟩ := past_iff.mp hx
  exact h.mem_of_below (hb.old p hp) hxp

/-- The blocks, newest first, and the data stored for them. -/
inductive Built (m : SahyadriConsensusManager) (D : Dag Hash) (bits : Hash → UInt32) :
    List Hash → (StoreReader) → Prop where
  | start (hgenesis : m.genesisHash = D.genesis) (hreal : D.genesis ≠ origin) : Built m D bits
      [D.genesis] (update (fun _ => none) D.genesis (some genesisSahyadriConsensusData))
  | add {bs : List Hash} {data : StoreReader} {b : Hash} {d : SahyadriConsensusData}
      {reach : Hash → Hash → Bool} {fuel : Nat} (h : Built m D bits bs data)
      (hb : Admissible D bs b) (hreach : Reaches D bs reach) (hfuel : bs.length < fuel)
      (hd : m.sahyadriConsensus (storesOf D bits bs data reach) fuel (D.parents b) = .ok d) :
      Built m D bits (b :: bs) (update data b (some d))

/-- What the data `d` of `b` says; `l` is the selected chain of its selected parent, `cs` its
    mergeset in the order. -/
structure Merges (m : SahyadriConsensusManager) (D : Dag Hash) (bits : Hash → UInt32)
    (data : StoreReader) (b : Hash) (d : SahyadriConsensusData)
    (l : List ChainEntry) (cs : List Hash) : Prop where
  parent : d.selectedParent ∈ D.parents b
  best : ∀ p ∈ D.parents b, keyOf data p ≤ keyOf data d.selectedParent
  chain : SelectedChain D data d.selectedParent l
  mem : ∀ x, x ∈ cs ↔ D.Past x b ∧ ¬ D.Below x d.selectedParent
  sorted : cs.Pairwise fun x y => keyOf data x < keyOf data y
  blues : d.mergesetBlues = d.selectedParent :: d.mergesetBlues.drop 1
  taken : (d.mergesetBlues.drop 1).Sublist cs
  greedily : m.k.toNat < 65535 → d.mergesetBlues.drop 1 =
    greedy D.Anticone m.k.toNat (insert d.selectedParent (bluesIn l)) cs
  reds : d.mergesetReds.Sublist cs
  split : (d.mergesetBlues.drop 1 ++ d.mergesetReds).Perm cs
  exact : Exact D m.k.toNat ((b, d) :: l)
  work : d.blueWork = BitVec.ofNat 192 ((bluesOf ((b, d) :: l)).map fun x => m.workOf (bits x)).sum
  score : d.blueScore = UInt64.ofNat (bluesOf ((b, d) :: l)).length

/-- The data of every block says what it should, and the blue work grows from the past to the
    future. -/
structure Sound (m : SahyadriConsensusManager) (D : Dag Hash) (bits : Hash → UInt32)
    (bs : List Hash) (data : StoreReader) : Prop where
  genesis : m.genesisHash = D.genesis
  grown : D.Grown bs
  real : ∀ b ∈ bs, b ≠ origin
  outside : ∀ b, b ∉ bs → data b = none
  first : data D.genesis = some genesisSahyadriConsensusData
  merges : ∀ b ∈ bs, b ≠ D.genesis → ∃ d l cs, data b = some d ∧ l.length < bs.length ∧
    Merges m D bits data b d l cs
  increasing : ∀ {x y : Hash} {dx dy : SahyadriConsensusData}, y ∈ bs → D.Past x y →
    data x = some dx → data y = some dy → dx.blueWork.toNat < dy.blueWork.toNat

section Sound

variable {m : SahyadriConsensusManager} {D : Dag Hash} {bits : Hash → UInt32} {bs : List Hash}
  {data : StoreReader} {b : Hash} {d : SahyadriConsensusData}
  {l : List ChainEntry} {cs : List Hash}

theorem Merges.blue_past (h : Merges m D bits data b d l cs) (hb : b ≠ D.genesis) :
    ∀ x ∈ d.mergesetBlues, D.Past x b := by
  intro x hx
  rw [h.blues] at hx
  rcases mem_cons.mp hx with rfl | hx
  · exact past_of_parent hb h.parent
  · exact ((h.mem x).mp (h.taken.subset hx)).1

section

variable (h : Sound m D bits bs data)

include h

theorem Sound.exists_data (hb : b ∈ bs) : ∃ d, data b = some d := by
  by_cases hg : b = D.genesis
  · rw [hg]
    exact ⟨_, h.first⟩
  · obtain ⟨d, l, cs, hd, _⟩ := h.merges b hb hg
    exact ⟨d, hd⟩

theorem Sound.stored (hb : b ∈ bs) :
    ∃ d l, data b = some d ∧ SelectedChain D data b ((b, d) :: l) ∧ l.length < bs.length ∧
      Exact D m.k.toNat ((b, d) :: l) ∧
      d.blueWork = BitVec.ofNat 192 ((bluesOf ((b, d) :: l)).map fun x => m.workOf (bits x)).sum ∧
      d.blueScore = UInt64.ofNat (bluesOf ((b, d) :: l)).length := by
  by_cases hg : b = D.genesis
  · subst hg
    refine ⟨_, [], h.first, .genesis h.first rfl rfl, length_pos_of_mem hb, ⟨.nil, ?_, ?_⟩,
      rfl, rfl⟩
    · exact forall_mem_nil _
    · exact fun _ x hx => absurd hx (Finset.notMem_empty x)
  · obtain ⟨d, l, cs, hd, hlen, hm⟩ := h.merges b hb hg
    exact ⟨d, l, hd, .step hg (h.real b hb) hd (past_of_parent hg hm.parent)
      (hm.blue_past hg) hm.chain, hlen, hm.exact, hm.work, hm.score⟩

theorem Sound.serves {reach : Hash → Hash → Bool} (hreach : Reaches D bs reach) :
    Serves D bs (storesOf D bits bs data reach) :=
  ⟨fun _ hb => h.exists_data hb, fun _ hb _ => if_pos hb, hreach⟩

theorem Sound.not_past_of_key {x y : Hash} (hx : x ∈ bs) (hkey : keyOf data x < keyOf data y) :
    ¬ D.Past y x := by
  intro hp
  obtain ⟨dx, hdx⟩ := h.exists_data hx
  obtain ⟨dy, hdy⟩ := h.exists_data (h.grown.mem_of_past hx hp)
  exact absurd hkey (lt_asymm (keyOf_lt_of_work hdy hdx (h.increasing hx hp hdy hdx)))

end

end Sound

/-! ## 3. The next block -/

section Next

variable {m : SahyadriConsensusManager} {D : Dag Hash} {bits : Hash → UInt32} {bs : List Hash}
  {data : StoreReader} {b : Hash}

theorem bluesIn_start (b sp : Hash) (l : List ChainEntry) :
    bluesIn ((b, .newWithSelectedParent sp) :: l) = insert sp (bluesIn l) := toFinset_cons

/-- The colouring starts with the selected parent alone: all other blue blocks are in its past. -/
theorem InView.start {s : ConsensusStores} {sp : Hash} {l : List ChainEntry} {k : Nat}
    (hgrown : D.Grown bs) (hsp : sp ∈ bs) (hchain : SelectedChain D s.data sp l)
    (hexact : Exact D k l) : InView D s bs k b (.newWithSelectedParent sp) l := by
  have hne : ∀ x ∈ bluesOf l, x ≠ sp :=
    fun x hx he => hgrown.past_irrefl hsp (he ▸ hchain.past x hx)
  have hself : strangers D.Anticone (insert sp (bluesIn l)) sp = ∅ := by
    refine Finset.eq_empty_iff_forall_notMem.mpr fun x hx => ?_
    obtain ⟨hx, ha⟩ := mem_strangers.mp hx
    rcases Finset.mem_insert.mp hx with he | hx
    · exact ha.1 he.symm
    · exact ha.2.2 (hchain.past x (mem_toFinset.mp hx))
  have hothers : ∀ x ∈ bluesOf l, strangers D.Anticone (insert sp (bluesIn l)) x =
      strangers D.Anticone (bluesIn l) x := fun x hx =>
    strangers_insert_of_not fun ha => ha.2.1 (hchain.past x hx)
  refine ⟨hchain, hsp, ⟨[], rfl, forall_mem_nil _⟩, ?_, ?_, ?_⟩
  · exact nodup_cons.mpr ⟨fun hm => hne sp hm rfl, hexact.nodup⟩
  · intro x hx
    rw [bluesIn_start, sizeIn_cons]
    show (((∅ : Table Hash KType).insert sp 0).lookup x).or (sizeIn l x) = _
    rcases mem_cons.mp hx with rfl | hx
    · rw [AList.lookup_insert, hself]
      rfl
    · rw [AList.lookup_insert_ne (hne x hx), hothers x hx]
      exact hexact.size x hx
  · rw [bluesIn_start]
    intro hk x hx
    rcases Finset.mem_insert.mp hx with rfl | hx
    · rw [hself]
      exact Nat.zero_le _
    · rw [hothers x (mem_toFinset.mp hx)]
      exact hexact.cluster hk x hx

theorem anticone_of_mergeset {ps : List Hash} {sp x : Hash} (hanti : ps.Pairwise D.Anticone)
    (hsp : sp ∈ ps) (hbelow : ∃ p ∈ ps, D.Below x p) (hnot : ¬ D.Below x sp) : D.Anticone sp x := by
  obtain ⟨p, hp, hxp⟩ := hbelow
  have hne : sp ≠ p := fun he => hnot (he ▸ hxp)
  have hap : D.Anticone sp p := hanti.forall hsp hp hne
  exact ⟨fun he => hnot (.inl he.symm), fun h => hap.2.1 (h.below hxp), fun h => hnot (.inr h)⟩

/-- **The next block gets its data**: no panic, no failed assertion, and the loops end. -/
theorem Sound.next (h : Sound m D bits bs data) (hw : Weighted m bits bs)
    (hb : Admissible D bs b) {reach : Hash → Hash → Bool} (hreach : Reaches D bs reach) {fuel : Nat}
    (hfuel : bs.length < fuel) : ∃ d l cs, orderedMergesetWithoutSelectedParent
      (storesOf D bits bs data reach) fuel d.selectedParent (D.parents b) = .ok cs ∧
      m.sahyadriConsensus (storesOf D bits bs data reach) fuel (D.parents b) = .ok d ∧
      l.length ≤ bs.length ∧ Merges m D bits data b d l cs := by
  have hs := h.serves hreach
  obtain ⟨sp, hsp, hfind, hbest⟩ :=
    findSelectedParent_ok hb.nonempty fun p hp => hs.data p (hb.old p hp)
  have hspb := hb.old sp hsp
  obtain ⟨cs, hcs, hmem, hsorted⟩ := orderedMergeset_ok hs h.grown hb.old hb.antichain hsp hfuel
  have hmem' : ∀ x, x ∈ cs ↔ D.Past x b ∧ ¬ D.Below x sp := fun x => by
    rw [hmem, past_iff, and_iff_right (hb.ne_genesis h.grown)]
  have hcsb : ∀ x ∈ cs, x ∈ bs := fun x hx => hb.mem_of_past h.grown ((hmem' x).mp hx).1
  obtain ⟨dsp, l, hdsp, hchain, hlen, hexact, hwork, hscore⟩ := h.stored hspb
  have hview : InView D (storesOf D bits bs data reach) bs m.k.toNat b (.newWithSelectedParent sp)
      ((sp, dsp) :: l) := .start h.grown hspb hchain hexact
  have hnext : ∀ c ∈ cs, NextIn D bs (.newWithSelectedParent sp) c := fun c hc => by
    obtain ⟨hbelow, hnot⟩ := (hmem c).mp hc
    have hap : D.Anticone sp c := anticone_of_mergeset hb.antichain hsp hbelow hnot
    refine ⟨hcsb c hc, hap, fun x hx => ?_⟩
    rw [mem_singleton.mp hx]
    exact ⟨hap.1, hap.2.2⟩
  have htopo : cs.Pairwise fun x y => x ≠ y ∧ ¬ D.Past y x := hsorted.imp_of_mem fun hx _ hkey =>
    ⟨fun he => absurd hkey (he ▸ lt_irrefl _), h.not_past_of_key (hcsb _ hx) hkey⟩
  obtain ⟨d, blues, reds, hcolor, hdv, hdsp', hblues, hbsub, hgreedy, hreds, hsub, hperm⟩ :=
    hview.colorAll_ok h.grown hs.reach h.genesis (lt_of_le_of_lt hlen hfuel) hnext htopo
  rw [bluesIn_start] at hgreedy
  obtain rfl : d.selectedParent = sp := hdsp'
  obtain rfl : d.mergesetBlues.drop 1 = blues := by
    rw [hblues]
    rfl
  obtain rfl := hreds
  have hadded : m.addedBlueWork (storesOf D bits bs data reach) d.mergesetBlues =
      .ok (BitVec.ofNat 192 (d.mergesetBlues.map fun x => m.workOf (bits x)).sum) :=
    addedBlueWork_ok fun x hx => by
      have hxv : x ∈ bluesOf ((b, d) :: (d.selectedParent, dsp) :: l) := by
        exact mem_append_left _ hx
      have hxb := hdv.mem_of_blue h.grown x hxv
      refine ⟨if_pos hxb, lt_of_le_of_lt ?_ hw.total⟩
      exact single_le_sum (fun _ _ => Nat.zero_le _) _ (mem_map_of_mem hxb)
  refine ⟨d.finalizeScoreAndWork (dsp.blueScore + UInt64.ofNat d.mergesetBlues.length)
    (dsp.blueWork + BitVec.ofNat 192 (d.mergesetBlues.map fun x => m.workOf (bits x)).sum),
    (d.selectedParent, dsp) :: l, cs, hcs, ?_, hlen, ?_⟩
  · unfold sahyadriConsensus
    rw [if_neg (by simpa using hb.nonempty), hfind, Run.ok_bind, if_neg (h.real _ hspb), hcs,
      Run.ok_bind, hcolor, Run.ok_bind]
    rw [show (storesOf D bits bs data reach).data d.selectedParent = some dsp from hdsp]
    rw [hadded]
    rfl
  · have hall :
        bluesOf ((b, d.finalizeScoreAndWork (dsp.blueScore + UInt64.ofNat d.mergesetBlues.length)
        (dsp.blueWork + BitVec.ofNat 192 (d.mergesetBlues.map fun x => m.workOf (bits x)).sum)) ::
        (d.selectedParent, dsp) :: l) = d.mergesetBlues ++ bluesOf ((d.selectedParent, dsp) :: l) :=
      bluesOf_cons _ _
    exact
      { parent := hsp
        best := hbest
        chain := hchain
        mem := hmem'
        sorted := hsorted
        blues := hblues
        taken := hbsub
        greedily := hgreedy
        reds := hsub
        split := hperm
        exact := ⟨hdv.exact.nodup, hdv.exact.size, hdv.exact.cluster⟩
        work := by
          rw [hall, map_append, sum_append, BitVec.ofNat_add, ← hwork]
          exact BitVec.add_comm _ _
        score := by
          rw [hall, length_append, UInt64.ofNat_add, ← hscore]
          exact UInt64.add_comm _ _ }

end Next

/-! ## 4. Every state -/

section Run

variable {m : SahyadriConsensusManager} {D : Dag Hash} {bits : Hash → UInt32} {bs : List Hash}
  {data data' : StoreReader} {b : Hash} {d : SahyadriConsensusData}
  {l : List ChainEntry} {cs : List Hash} {x : Hash}

theorem keyOf_congr (h : data' x = data x) : keyOf data' x = keyOf data x := by
  unfold keyOf sortableOf
  rw [h]

theorem Merges.mono (hm : Merges m D bits data b d l cs)
    (hsub : ∀ {x e}, data x = some e → data' x = some e)
    (hsame : ∀ x ∈ bs, data' x = data x) (hps : ∀ p ∈ D.parents b, p ∈ bs)
    (hcs : ∀ x ∈ cs, x ∈ bs) : Merges m D bits data' b d l cs where
  parent := hm.parent
  best p hp := by
    rw [keyOf_congr (hsame p (hps p hp)), keyOf_congr (hsame _ (hps _ hm.parent))]
    exact hm.best p hp
  chain := hm.chain.mono hsub
  mem := hm.mem
  sorted := hm.sorted.imp_of_mem fun hx hy hkey => by
    rwa [keyOf_congr (hsame _ (hcs _ hx)), keyOf_congr (hsame _ (hcs _ hy))]
  blues := hm.blues
  taken := hm.taken
  greedily := hm.greedily
  reds := hm.reds
  split := hm.split
  exact := hm.exact
  work := hm.work
  score := hm.score

variable (hw : Weighted m bits bs)

include hw

theorem Sound.work_lt (h : Sound m D bits bs data) (hb : Admissible D bs b)
    (hm : Merges m D bits data b d l cs) {dx : SahyadriConsensusData} (hx : D.Past x b)
    (hdx : data x = some dx) : dx.blueWork.toNat < d.blueWork.toNat := by
  have hspb := hb.old _ hm.parent
  -- up to a parent, and from there to the selected parent
  obtain ⟨_, p, hp, hxp⟩ := past_iff.mp hx
  obtain ⟨dp, hdp⟩ := h.exists_data (hb.old p hp)
  obtain ⟨dsp, lsp, hdsp, hchain, _, hexact, hwork, _⟩ := h.stored hspb
  have hxp' : dx.blueWork.toNat ≤ dp.blueWork.toNat := by
    rcases hxp with rfl | hxp
    · cases hdx.symm.trans hdp
      exact le_rfl
    · exact le_of_lt (h.increasing (hb.old p hp) hxp hdx hdp)
  have hpsp : dp.blueWork.toNat ≤ dsp.blueWork.toNat :=
    not_lt.mp (mt (keyOf_lt_of_work hdsp hdp) (hm.best p hp).not_gt)
  -- the selected parent is one of the new blue blocks
  have hl : l = (d.selectedParent, dsp) :: lsp := SelectedChain.unique hm.chain hchain
  have hsub : ∀ y ∈ bluesOf ((b, d) :: l), y ∈ bs := fun y hy => by
    rcases mem_append.mp hy with hy | hy
    · exact hb.mem_of_past h.grown (hm.blue_past (hb.ne_genesis h.grown) y hy)
    · exact h.grown.mem_of_past hspb (hm.chain.past y hy)
  have hfit := hw.sum_lt hm.exact.nodup hsub
  have hbwork : d.blueWork.toNat =
      ((bluesOf ((b, d) :: l)).map fun x => m.workOf (bits x)).sum := by
    rw [hm.work, BitVec.toNat_ofNat, Nat.mod_eq_of_lt hfit]
  have hsplit : ((bluesOf ((b, d) :: l)).map fun x => m.workOf (bits x)).sum = m.workOf
      (bits d.selectedParent) + (((d.mergesetBlues.drop 1).map fun x => m.workOf (bits x)).sum +
          ((bluesOf l).map fun x => m.workOf (bits x)).sum) := by
    rw [bluesOf_cons, map_append, sum_append]
    rw [hm.blues, map_cons, sum_cons, add_assoc, ← hm.blues]
  have hspwork : dsp.blueWork.toNat = ((bluesOf l).map fun x => m.workOf (bits x)).sum := by
    rw [hwork, ← hl, BitVec.toNat_ofNat, Nat.mod_eq_of_lt (by omega)]
  have hpos := hw.positive _ hspb
  omega

/-- **Sound states stay sound.** -/
theorem Sound.add (h : Sound m D bits bs data) (hb : Admissible D bs b)
    (hlen : l.length ≤ bs.length) (hm : Merges m D bits data b d l cs) :
    Sound m D bits (b :: bs) (update data b (some d)) := by
  have hsame : ∀ x ∈ bs, update data b (some d) x = data x := fun x hx =>
    update_of_ne (fun he => hb.new (by rwa [← he])) _ _
  have hsub : ∀ {x e}, data x = some e → update data b (some d) x = some e := fun {x e} he => by
    have hx : x ∈ bs := by
      by_contra hn
      rw [h.outside x hn] at he
      cases he
    rw [hsame x hx]
    exact he
  have hgrown : D.Grown (b :: bs) := .add h.grown hb.new hb.nonempty hb.old hb.antichain
  have hpast : ∀ {x}, D.Past x b → x ∈ bs := hb.mem_of_past h.grown
  refine ⟨h.genesis, hgrown, ?_, ?_, ?_, ?_, ?_⟩
  · exact forall_mem_cons.mpr ⟨hb.real, h.real⟩
  · intro x hx
    obtain ⟨hne, hx⟩ := not_or.mp (mt mem_cons.mpr hx)
    rw [update_of_ne hne]
    exact h.outside x hx
  · exact hsub h.first
  · intro x hx hg
    rcases mem_cons.mp hx with rfl | hx
    · refine ⟨d, l, cs, update_self _ _ _, Nat.lt_succ_of_le hlen, ?_⟩
      exact hm.mono hsub hsame hb.old fun y hy => hpast ((hm.mem y).mp hy).1
    · obtain ⟨e, l', cs', he, hlen', hm'⟩ := h.merges x hx hg
      refine ⟨e, l', cs', hsub he, Nat.lt_succ_of_lt hlen', ?_⟩
      exact hm'.mono hsub hsame (h.grown.of_mem hx hg).2.1 fun y hy =>
        h.grown.mem_of_past hx ((hm'.mem y).mp hy).1
  · intro x y dx dy hy hxy hdx hdy
    rcases mem_cons.mp hy with rfl | hy
    · rw [update_self] at hdy
      rw [hsame x (hpast hxy)] at hdx
      cases hdy
      exact h.work_lt hw hb hm hxy hdx
    · rw [hsame x (h.grown.mem_of_past hy hxy)] at hdx
      rw [hsame y hy] at hdy
      exact h.increasing hy hxy hdx hdy

/-- **Every state that is built is sound.** -/
theorem Built.sound (h : Built m D bits bs data) : Sound m D bits bs data := by
  induction h with
  | start hgenesis hreal =>
    refine ⟨hgenesis, .start, ?_, ?_, update_self _ _ _, ?_, ?_⟩
    · exact forall_mem_singleton.mpr hreal
    · intro b hb
      exact update_of_ne (fun he => hb (mem_singleton.mpr he)) _ _
    · exact fun b hb hg => absurd (mem_singleton.mp hb) hg
    · intro x y dx dy hy hxy
      rw [mem_singleton.mp hy] at hxy
      exact absurd hxy not_past_genesis
  | add h hb hreach hfuel hd ih =>
    have hsound := ih hw.tail
    obtain ⟨d', l, cs, _, hd', hlen, hm⟩ := hsound.next hw.tail hb hreach hfuel
    cases hd.symm.trans hd'
    exact hsound.add hw.tail hb hlen hm

end Run

/-! ## 5. Computing a run -/

def admissible (D : Dag Hash) (bs : List Hash) (b : Hash) : Bool :=
  decide (b ∉ bs ∧ b ≠ origin ∧ D.parents b ≠ [] ∧ (∀ p ∈ D.parents b, p ∈ bs) ∧
    (D.parents b).Pairwise fun x y => D.apart bs.length x y = true)

/-- The data after the blocks of a list, newest first, were added to the genesis block. -/
def build (m : SahyadriConsensusManager) (D : Dag Hash) (bits : Hash → UInt32) :
    List Hash → Option (StoreReader)
  | [] =>
    if m.genesisHash = D.genesis ∧ D.genesis ≠ origin then
      some (update (fun _ => none) D.genesis (some genesisSahyadriConsensusData))
    else none
  | b :: rest =>
    let bs := rest ++ [D.genesis]
    match build m D bits rest with
    | none => none
    | some data =>
      if admissible D bs b then
        match m.sahyadriConsensus (storesOf D bits bs data (D.reaches bs.length)) (bs.length + 1)
          (D.parents b) with
        | .ok d => some (update data b (some d))
        | .error _ => none
      else none

section Build

variable {m : SahyadriConsensusManager} {D : Dag Hash} {bits : Hash → UInt32}
variable {bs l : List Hash} {data : StoreReader}

theorem Built.grown (h : Built m D bits bs data) : D.Grown bs := by
  induction h with
  | start _ _ => exact .start
  | add _ hb _ _ _ ih => exact .add ih hb.new hb.nonempty hb.old hb.antichain

theorem reaches_of_grown (h : D.Grown bs) : Reaches D bs (D.reaches bs.length) :=
  fun _ _ _ hb => (h.below_iff le_rfl hb).symm

theorem admissible_of_grown {b : Hash} (h : D.Grown bs) (hb : admissible D bs b = true) :
    Admissible D bs b := by
  obtain ⟨hnew, hreal, hne, hold, hanti⟩ := of_decide_eq_true hb
  exact ⟨hnew, hreal, hne, hold, hanti.imp_of_mem fun hx hy hap =>
    (h.anticone_iff le_rfl (hold _ hx) (hold _ hy)).mpr hap⟩

theorem build_built (h : build m D bits l = some data) :
    Built m D bits (l ++ [D.genesis]) data := by
  induction l generalizing data with
  | nil =>
    unfold build at h
    split at h
    · rename_i hstart
      cases h
      exact .start hstart.1 hstart.2
    · cases h
  | cons b rest ih =>
    unfold build at h
    dsimp only at h
    split at h
    · cases h
    · rename_i data' hrest
      split at h
      · rename_i hb
        split at h
        · rename_i d hd
          cases h
          have hbuilt := ih hrest
          exact .add hbuilt (admissible_of_grown hbuilt.grown hb) (reaches_of_grown hbuilt.grown)
            (Nat.lt_succ_self _) hd
        · cases h
      · cases h

def buildData (m : SahyadriConsensusManager) (D : Dag Hash) (bits : Hash → UInt32) (l : List Hash) :
    StoreReader :=
  (build m D bits l).getD fun _ => none

theorem buildData_built (h : (build m D bits l).isSome = true) :
    Built m D bits (l ++ [D.genesis]) (buildData m D bits l) := by
  obtain ⟨data, hdata⟩ := Option.isSome_iff_exists.mp h
  rw [buildData, hdata]
  exact build_built hdata

end Build

end Sahyadri.Consensus
