import Sahyadri.Lib.Dag
import Sahyadri.Consensus.Protocol
import Mathlib.Data.List.Dedup

/-!
# The selected parent and the ordered mergeset, against the DAG

* `Serves D bs s`: the stores have the parents and the data of the blocks `bs` of the DAG `D`, and
  the reachability service answers by ancestry.
-/

namespace Sahyadri.Consensus

open Lib Smt Core List SortableBlock

/-- The reachability service answers by ancestry. -/
def Reaches (D : Dag Hash) (bs : List Hash) (reach : Hash → Hash → Bool) : Prop :=
  ∀ a ∈ bs, ∀ b ∈ bs, (reach a b = true ↔ D.Below a b)

/-- The stores know the blocks `bs` of the DAG `D`. -/
structure Serves (D : Dag Hash) (bs : List Hash) (s : ConsensusStores) : Prop where
  data : ∀ b ∈ bs, ∃ d, s.data b = some d
  parents : ∀ b ∈ bs, b ≠ D.genesis → s.parents b = some (D.parents b)
  reach : Reaches D bs s.isDagAncestorOf

/-! ## 1. Order -/

/-- A block with the blue work that is stored for it. -/
def sortableOf (data : StoreReader) (h : Hash) : SortableBlock :=
  ⟨h, ((data h).map (·.blueWork)).getD 0⟩

def keyOf (data : StoreReader) (h : Hash) : SortKey := (sortableOf data h).key

section Order

variable {data : StoreReader} {s : ConsensusStores}

theorem toNat_map_inj {a b : Bytes} (h : a.map UInt8.toNat = b.map UInt8.toNat) : a = b :=
  map_injective_iff.mpr (fun _ _ => UInt8.toNat_inj.mp) h

variable {a b : Hash}

theorem keyOf_inj (h : keyOf data a = keyOf data b) : a = b := by
  have h2 := congrArg (fun k => (ofLex k).2) h
  exact H256.ext (toNat_map_inj h2)

variable {da db : SahyadriConsensusData}

theorem keyOf_lt_of_work (ha : data a = some da) (hb : data b = some db)
    (h : da.blueWork.toNat < db.blueWork.toNat) : keyOf data a < keyOf data b := by
  unfold keyOf sortableOf key
  rw [ha, hb]
  exact Prod.Lex.toLex_lt_toLex.mpr (.inl h)

variable {l ps : List Hash}

theorem sortables_ok (h : ∀ b ∈ l, ∃ d, s.data b = some d) :
    sortables s l = .ok (l.map (sortableOf s.data)) := by
  induction l with
  | nil => rfl
  | cons b l ih =>
    obtain ⟨⟨d, hd⟩, hrest⟩ := forall_mem_cons.mp h
    unfold sortables
    rw [hd, ih hrest, map_cons, sortableOf, hd]
    rfl

theorem foldl_max_spec (l : List SortableBlock) (b : SortableBlock) :
    l.foldl max b ∈ b :: l ∧ ∀ x ∈ b :: l, x.key ≤ (l.foldl max b).key := by
  induction l generalizing b with
  | nil => exact ⟨mem_singleton_self _, fun x hx => by rw [mem_singleton.mp hx]; exact le_rfl⟩
  | cons a l ih =>
    have hmax : max b a ∈ [b, a] ∧ b.key ≤ (max b a).key ∧ a.key ≤ (max b a).key := by
      unfold SortableBlock.max
      split
      · rename_i h
        exact ⟨mem_cons_self, le_rfl, le_of_lt h⟩
      · rename_i h
        exact ⟨mem_cons_of_mem _ (mem_singleton_self _), not_lt.mp h, le_rfl⟩
    obtain ⟨hm, hb, ha⟩ := hmax
    obtain ⟨ihm, ihle⟩ := ih (max b a)
    rw [foldl_cons]
    refine ⟨?_, fun x hx => ?_⟩
    · rcases mem_cons.mp ihm with he | ihm
      · rw [he]
        rcases mem_cons.mp hm with h | h
        · rw [h]
          exact mem_cons_self
        · rw [mem_singleton.mp h]
          exact mem_cons_of_mem _ mem_cons_self
      · exact mem_cons_of_mem _ (mem_cons_of_mem _ ihm)
    · have hbest := ihle _ mem_cons_self
      rcases mem_cons.mp hx with rfl | hx
      · exact hb.trans hbest
      · rcases mem_cons.mp hx with rfl | hx
        · exact ha.trans hbest
        · exact ihle x (mem_cons_of_mem _ hx)

/-- **The selected parent** is a parent, and no parent comes after it. -/
theorem findSelectedParent_ok (hne : ps ≠ []) (h : ∀ p ∈ ps, ∃ d, s.data p = some d) :
    ∃ sp ∈ ps, findSelectedParent s ps = .ok sp ∧ ∀ p ∈ ps, keyOf s.data p ≤ keyOf s.data sp := by
  cases ps with
  | nil => exact absurd rfl hne
  | cons p ps =>
    obtain ⟨hmem, hle⟩ := foldl_max_spec (ps.map (sortableOf s.data)) (sortableOf s.data p)
    rw [← map_cons] at hmem hle
    obtain ⟨sp, hsp, he⟩ := mem_map.mp hmem
    refine ⟨sp, hsp, ?_, fun q hq => ?_⟩
    · unfold findSelectedParent
      rw [sortables_ok h, Run.ok_bind, map_cons]
      dsimp only
      rw [← he]
      rfl
    · have := hle _ (mem_map_of_mem hq)
      rwa [← he] at this

/-- **Sorting**: the same blocks, in the order. -/
theorem sortBlocks_ok (hnd : l.Nodup) (h : ∀ b ∈ l, ∃ d, s.data b = some d) :
    ∃ l', sortBlocks s l = .ok l' ∧ l'.Perm l ∧
    l'.Pairwise fun a b => keyOf s.data a < keyOf s.data b := by
  have hperm : (((l.map (sortableOf s.data)).insertionSort fun a b => a.key ≤ b.key).map
      (·.hash)).Perm l := by
    have := (perm_insertionSort (fun a b : SortableBlock => a.key ≤ b.key)
      (l.map (sortableOf s.data))).map (·.hash)
    rwa [map_map, show (·.hash) ∘ sortableOf s.data = id from rfl, map_id] at this
  refine ⟨_, by unfold sortBlocks; rw [sortables_ok h]; rfl, hperm, ?_⟩
  have hle :=
    pairwise_insertionSort (fun a b : SortableBlock => a.key ≤ b.key) (l.map (sortableOf s.data))
  -- every entry is the block with its own work, so the keys are those of the hashes
  have hown : ∀ x ∈ (l.map (sortableOf s.data)).insertionSort fun a b => a.key ≤ b.key,
      x.key = keyOf s.data x.hash := fun x hx => by
    obtain ⟨b, _, rfl⟩ := mem_map.mp ((perm_insertionSort _ _).mem_iff.mp hx)
    rfl
  have hkeys : (((l.map (sortableOf s.data)).insertionSort fun a b => a.key ≤ b.key).map
      (·.hash)).Pairwise fun a b => keyOf s.data a ≤ keyOf s.data b :=
    pairwise_map.mpr (hle.imp_of_mem fun ha hb h => by rwa [hown _ ha, hown _ hb] at h)
  exact (hkeys.and (hperm.nodup_iff.mpr hnd)).imp fun h => lt_of_le_of_ne h.1 fun he =>
    h.2 (keyOf_inj he)

end Order

/-! ## 2. The search -/

section Search

variable {s : ConsensusStores} {sp : Hash}

/-- The blocks remembered as past change nothing: a scan does what it would do without them. -/
theorem scanParents_eq (ps : List Hash) :
    ∀ (q : MergesetSearch), (∀ y ∈ q.past, s.isDagAncestorOf y sp = true) →
      ∃ past, scanParents s sp ps q = ⟨(scan (s.isDagAncestorOf · sp) ps q.queue q.mergeset).1,
            (scan (s.isDagAncestorOf · sp) ps q.queue q.mergeset).2, past⟩ ∧
        ∀ y ∈ past, s.isDagAncestorOf y sp = true := by
  induction ps with
  | nil => exact fun q h => ⟨q.past, rfl, h⟩
  | cons p ps ih =>
    intro q h
    unfold scanParents scan
    by_cases hseen : p ∈ q.mergeset
    · rw [if_pos (.inl hseen), if_pos (.inl hseen)]
      exact ih q h
    · by_cases hstop : s.isDagAncestorOf p sp = true
      · rw [if_pos (.inr hstop : p ∈ q.mergeset ∨ _)]
        by_cases hpast : p ∈ q.past
        · rw [if_pos (.inr hpast)]
          exact ih q h
        · rw [if_neg (not_or.mpr ⟨hseen, hpast⟩), if_pos hstop]
          exact ih { q with past := p :: q.past } (forall_mem_cons.mpr ⟨hstop, h⟩)
      · have hpast : p ∉ q.past := fun hp => hstop (h p hp)
        rw [if_neg (not_or.mpr ⟨hseen, hpast⟩), if_neg hstop, if_neg (not_or.mpr ⟨hseen, hstop⟩)]
        exact ih { q with mergeset := q.mergeset ++ [p], queue := q.queue ++ [p] } h

theorem mergesetLoop_eq (fuel : Nat) :
    ∀ (q : MergesetSearch), (∀ y ∈ q.past, s.isDagAncestorOf y sp = true) → mergesetLoop s sp fuel
      q = explore s.parents (s.isDagAncestorOf · sp) fuel q.queue q.mergeset := by
  induction fuel with
  | zero => exact fun _ _ => rfl
  | succ fuel ih =>
    rintro ⟨queue, mergeset, past⟩ h
    cases queue with
    | nil => rfl
    | cons x queue =>
      unfold mergesetLoop explore
      dsimp only
      cases s.parents x with
      | none => rfl
      | some ps =>
        obtain ⟨past', he, h'⟩ := scanParents_eq ps ⟨queue, mergeset, past⟩ h
        dsimp only
        rw [he]
        exact ih _ h'

variable {D : Dag Hash} {bs ps : List Hash}

variable (hs : Serves D bs s) {fuel : Nat}

include hs

/-- The paths that the search takes go to what is below the parents and not below the selected
    parent. -/
theorem leads_iff (hgrown : D.Grown bs) (hps : ∀ p ∈ ps, p ∈ bs)
    (hanti : ps.Pairwise D.Anticone) (hsp : sp ∈ ps) (x : Hash) : (∃ p ∈ ps.filter (· ≠ sp),
      Relation.ReflTransGen (Leads D.parents (s.isDagAncestorOf · sp)) p x) ↔
      (∃ p ∈ ps, D.Below x p) ∧ ¬ D.Below x sp := by
  have hspb := hps sp hsp
  have hapart : ∀ p ∈ ps, p ≠ sp → D.Anticone p sp := fun p hp hne => hanti.forall hp hsp hne
  constructor
  · rintro ⟨p, hp, hpath⟩
    obtain ⟨hp, hne⟩ := mem_filter.mp hp
    have hstart : ¬ D.Below p sp := by
      obtain ⟨h1, h2, _⟩ := hapart p hp (of_decide_eq_true hne)
      exact fun h => h.elim h1 h2
    induction hpath with
    | refl => exact ⟨⟨p, hp, .refl p⟩, hstart⟩
    | @tail y x _ hstep ih =>
      obtain ⟨⟨q, hq, hyq⟩, hnot⟩ := ih
      have hyb := hgrown.mem_of_below (hps q hq) hyq
      have hyg : y ≠ D.genesis := fun he => hnot (he ▸ hgrown.genesis_below hspb)
      have hxy : D.Past x y := Dag.past_of_parent hyg hstep.1
      have hxb := hgrown.mem_of_past hyb hxy
      refine ⟨⟨q, hq, .inr (hxy.below hyq)⟩, fun h => ?_⟩
      exact absurd ((hs.reach x hxb sp hspb).mpr h) (Bool.eq_false_iff.mp hstep.2)
  · rintro ⟨⟨p, hp, hxp⟩, hnot⟩
    have hne : p ≠ sp := fun he => hnot (he ▸ hxp)
    refine ⟨p, mem_filter.mpr ⟨hp, decide_eq_true hne⟩, ?_⟩
    have hstep : ∀ {x z : Hash}, D.Edge x z → D.Below z p → ¬ D.Below x sp →
        Leads D.parents (s.isDagAncestorOf · sp) z x := fun {x z} he hz hx => by
      have hxb := hgrown.mem_of_past (hps p hp) (he.past.below hz)
      refine ⟨he.2, Bool.eq_false_iff.mpr fun h => hx ((hs.reach x hxb sp hspb).mp h)⟩
    -- from the parent down: what is above a block that is not below `sp` is not below it either
    rcases hxp with rfl | hxp
    · exact .refl
    · induction hxp using Relation.TransGen.head_induction_on with
      | single he => exact .single (hstep he (.refl p) hnot)
      | head he hzp ih =>
        have hz : ¬ D.Below _ sp := fun h => hnot (.inr (he.past.below h))
        exact (ih hz).tail (hstep he (.inr hzp) hnot)

/-- **The mergeset**: each block once. -/
theorem unorderedMergeset_ok (hgrown : D.Grown bs) (hps : ∀ p ∈ ps, p ∈ bs)
    (hanti : ps.Pairwise D.Anticone) (hsp : sp ∈ ps) (hfuel : bs.length < fuel) :
    ∃ l, unorderedMergesetWithoutSelectedParent s fuel sp ps = .ok l ∧ l.Nodup ∧
      ∀ x, x ∈ l ↔ (∃ p ∈ ps, D.Below x p) ∧ ¬ D.Below x sp := by
  have hspb := hps sp hsp
  have hnd : (ps.filter (· ≠ sp)).Nodup := List.Nodup.filter _ (hanti.imp fun h => h.1)
  have hmem : ∀ {x}, (∃ p ∈ ps, D.Below x p) ∧ ¬ D.Below x sp → x ∈ bs.filter (· ≠ D.genesis) := by
    rintro x ⟨⟨p, hp, hxp⟩, hnot⟩
    refine mem_filter.mpr ⟨hgrown.mem_of_below (hps p hp) hxp, decide_eq_true ?_⟩
    exact fun he => hnot (he ▸ hgrown.genesis_below hspb)
  have hsucc : ∀ x ∈ bs.filter (· ≠ D.genesis), s.parents x = some (D.parents x) := fun x hx => by
    obtain ⟨hx, hg⟩ := mem_filter.mp hx
    exact hs.parents x hx (of_decide_eq_true hg)
  have hstart : ∀ p ∈ ps.filter (· ≠ sp), p ∈ bs.filter (· ≠ D.genesis) := fun p hp =>
    hmem ((leads_iff hs hgrown hps hanti hsp p).mp ⟨p, hp, .refl⟩)
  have hclosed : ∀ x ∈ bs.filter (· ≠ D.genesis), ∀ y,
      Leads D.parents (s.isDagAncestorOf · sp) x y → y ∈ bs.filter (· ≠ D.genesis) := by
    intro x hx y hy
    obtain ⟨hx, hg⟩ := mem_filter.mp hx
    have hyb := hgrown.mem_of_past hx (Dag.past_of_parent (of_decide_eq_true hg) hy.1)
    refine mem_filter.mpr ⟨hyb, decide_eq_true fun he => ?_⟩
    exact absurd ((hs.reach y hyb sp hspb).mpr (he ▸ hgrown.genesis_below hspb))
      (Bool.eq_false_iff.mp hy.2)
  have hlen : (bs.filter (· ≠ D.genesis)).length < ([] : List Hash).length + fuel := by
    have := length_filter_le (fun b => decide (b ≠ D.genesis)) bs
    omega
  obtain ⟨l, hl, hlnd, hlm⟩ := explore_ok hsucc hclosed hstart (searching_start hnd) hlen
  refine ⟨l, ?_, hlnd, fun x => (hlm x).trans (leads_iff hs hgrown hps hanti hsp x)⟩
  unfold unorderedMergesetWithoutSelectedParent
  rw [mergesetLoop_eq _ _ (forall_mem_nil _), dedup_eq_self.mpr hnd]
  exact hl

/-- **The mergeset in the order.** -/
theorem orderedMergeset_ok (hgrown : D.Grown bs) (hps : ∀ p ∈ ps, p ∈ bs)
    (hanti : ps.Pairwise D.Anticone) (hsp : sp ∈ ps) (hfuel : bs.length < fuel) :
    ∃ l, orderedMergesetWithoutSelectedParent s fuel sp ps = .ok l ∧
      (∀ x, x ∈ l ↔ (∃ p ∈ ps, D.Below x p) ∧ ¬ D.Below x sp) ∧
      l.Pairwise fun a b => keyOf s.data a < keyOf s.data b := by
  obtain ⟨l, hl, hnd, hm⟩ := unorderedMergeset_ok hs hgrown hps hanti hsp hfuel
  have hdata : ∀ b ∈ l, ∃ d, s.data b = some d := fun b hb => by
    obtain ⟨⟨p, hp, hbp⟩, _⟩ := (hm b).mp hb
    exact hs.data b (hgrown.mem_of_below (hps p hp) hbp)
  obtain ⟨l', hl', hperm, hsorted⟩ := sortBlocks_ok hnd hdata
  refine ⟨l', ?_, fun x => hperm.mem_iff.trans (hm x), hsorted⟩
  unfold orderedMergesetWithoutSelectedParent
  rw [hl, Run.ok_bind, hl']

end Search

end Sahyadri.Consensus
