import Sahyadri.Mining.Select

/-!
# What `sample_inplace` can do

* `Sampling.Valid`: what holds of its variables between two draws; `Valid.draw`: what a draw can do;
  `Valid.run`, `Valid.run_fair`: where a run can get, and that it ends if the draws are fair.
-/

namespace Sahyadri.Mining

open Lib Smt Core Tx List FeerateTransactionKey

/-! ## 1. Masses and weights of the keys -/

variable (keys : List FeerateTransactionKey)

def massSum : UInt64 := keys.foldl (fun sum k => sum + k.mass) 0

@[simp] theorem massSum_concat (k : FeerateTransactionKey) :
    massSum (keys ++ [k]) = massSum keys + k.mass := foldl_concat _ _ _ _

/-- The keys can be taken one after the other, in some order, and the mass never passes the
    limit. -/
def Exhaustible (limit : UInt64) (keys : List FeerateTransactionKey) : Prop :=
  ∃ order, order.Perm keys ∧ ∀ pre, pre <+: order → massSum pre ≤ limit

def paying : List FeerateTransactionKey := keys.filter fun k => k.fee ≠ 0

variable {k item : FeerateTransactionKey}

theorem mem_paying {keys : List FeerateTransactionKey} :
    k ∈ paying keys ↔ k ∈ keys ∧ k.fee ≠ 0 := by
  rw [paying, mem_filter, decide_eq_true_iff]

/-- Distinct transactions with positive masses. -/
structure SearchTree.Proper {fl : Floats} (tree : SearchTree fl) : Prop where
  ids : (tree.ascendingIter.map fun k => k.tx.id).Nodup
  mass_pos : ∀ k ∈ tree.ascendingIter, 0 < k.mass

/-- Every key with a fee can be drawn before the limit is passed, and a key without a fee is
    left. -/
def Exhausted (tree : SearchTree Floats.exact) (limit : UInt64) : Prop :=
  (∃ k ∈ tree.ascendingIter, k.fee = 0) ∧ Exhaustible limit (paying tree.ascendingIter)

variable {K : Type} [Field K] [LinearOrder K] {tree : SearchTree Floats.exact}

namespace SearchTree.Proper

variable (ht : tree.Proper)
include ht

variable {k a b x : FeerateTransactionKey}

variable [IsStrictOrderedRing K]

theorem weight_pos_iff (hk : k ∈ tree.ascendingIter) : 0 < (k.weight : K) ↔ k.fee ≠ 0 := by
  rw [← not_iff_not, not_lt, not_not, ← weight_eq_zero_iff (K := K) (ht.mass_pos k hk)]
  exact ⟨fun h => le_antisymm h k.weight_nonneg, fun h => h.le⟩

theorem weight_le {before after : List FeerateTransactionKey}
    (h : tree.ascendingIter = before ++ k :: after)
    (hx : x ∈ before ++ [k]) : (x.weight : K) ≤ k.weight := by
  have hpair := tree.ascendingIter_pairwise
  rw [h] at hpair
  rcases mem_append.mp hx with hx | hx
  · have hlt := (pairwise_append.mp hpair).2.2 x hx k mem_cons_self
    refine weight_le_of_le (ht.mass_pos x ?_) (ht.mass_pos k ?_)
      (le_iff_cmp.mpr (by rw [hlt]; decide))
    · exact h ▸ mem_append_left _ hx
    · exact h ▸ mem_append_right _ mem_cons_self
  · rw [mem_singleton.mp hx]

end SearchTree.Proper

/-! ## 2. What the sequence holds -/

/-- Distinct transactions of the tree. -/
structure Held (tree : SearchTree Floats.exact) (input : SequenceSelectorInput) : Prop where
  nodup : (input.pairs.map fun e => e.2.tx.id).Nodup
  mem : ∀ e ∈ input.pairs, ∃ k ∈ tree.ascendingIter, k.tx = e.2.tx

theorem pairs_push (input : SequenceSelectorInput) (tx : Transaction) (mass : UInt64) :
    ∃ l, l.Sublist input.pairs ∧
    Table.pairs (input.push tx mass) = (UInt32.ofNat input.keys.length, ⟨tx, mass⟩) :: l :=
  ⟨_, (kerase_sublist _ _).map _, rfl⟩

theorem Held.push {input : SequenceSelectorInput} (h : Held tree input)
    (hitem : item ∈ tree.ascendingIter) (hnew : ∀ e ∈ input.pairs, e.2.tx.id ≠ item.tx.id) :
    Held tree (input.push item.tx item.mass) := by
  obtain ⟨l, hl, hpairs⟩ := pairs_push input item.tx item.mass
  refine ⟨?_, fun e he => ?_⟩
  · rw [hpairs, map_cons, nodup_cons]
    refine ⟨fun hm => ?_, h.nodup.sublist (hl.map _)⟩
    obtain ⟨e, he, heq⟩ := mem_map.mp hm
    exact hnew e (hl.subset he) heq
  · rw [hpairs] at he
    rcases mem_cons.mp he with rfl | he
    · exact ⟨item, hitem, rfl⟩
    · exact h.mem e (hl.subset he)

/-! ## 3. Between two draws -/

theorem dropWhile_cases {α : Type} (p : α → Bool) (l : List α) :
    (l.dropWhile p = [] ∧ ∀ x ∈ l, p x = true) ∨
      ∃ skipped x rest, l = skipped ++ x :: rest ∧ l.dropWhile p = x :: rest ∧
        (∀ y ∈ skipped, p y = true) ∧ p x = false := by
  induction l with
  | nil => exact .inl ⟨rfl, forall_mem_nil _⟩
  | cons a l ih =>
    cases ha : p a with
    | false =>
      exact .inr ⟨[], a, l, rfl, by rw [dropWhile_cons_of_neg (by simp [ha])], forall_mem_nil _, ha⟩
    | true =>
      rw [dropWhile_cons_of_pos ha]
      rcases ih with ⟨hnil, hall⟩ | ⟨skipped, x, rest, rfl, hdrop, hskip, hx⟩
      · exact .inl ⟨hnil, forall_mem_cons.mpr ⟨ha, hall⟩⟩
      · exact .inr ⟨a :: skipped, x, rest, rfl, hdrop, forall_mem_cons.mpr ⟨ha, hskip⟩, hx⟩

namespace Sampling

/-- The keys that can be drawn, and lighter ones. -/
def window (s : Sampling K) : List FeerateTransactionKey := s.downIter.reverse ++ [s.top]

def remaining (tree : SearchTree Floats.exact) (s : Sampling K) : Nat :=
  (tree.len - s.cache.length) + s.downIter.length

/-- What holds when the keys `taken` were drawn, in this order. -/
structure Valid (tree : SearchTree Floats.exact) (limit : UInt64) (s : Sampling K)
    (taken : List FeerateTransactionKey) : Prop where
  split : ∃ above, tree.ascendingIter = s.window ++ above ∧ ∀ k ∈ above, k ∈ taken
  range_eq : s.range = weightOf weight s.window
  range_pos : 0 < s.range
  cache_eq : s.cache = (taken.map fun k => k.tx.id).reverse
  nodup : (taken.map fun k => k.tx.id).Nodup
  taken_mem : ∀ k ∈ taken, k ∈ tree.ascendingIter
  taken_pos : ∀ k ∈ taken, 0 < (k.weight : K)
  mass_eq : s.totalSelectedMass = massSum taken
  within : ∀ pre, pre <+: taken → pre ≠ taken → massSum pre ≤ limit
  held : Held tree s.sequence
  held_cached : ∀ e ∈ s.sequence.pairs, e.2.tx.id ∈ s.cache

variable {limit : UInt64} {s : Sampling K} {taken : List FeerateTransactionKey}
variable {k item : FeerateTransactionKey}

namespace Valid

variable (hv : s.Valid tree limit taken)

include hv

theorem mem_cache_iff (ht : tree.Proper) (hk : k ∈ tree.ascendingIter) :
    k.tx.id ∈ s.cache ↔ k ∈ taken := by
  rw [hv.cache_eq, mem_reverse, mem_map]
  constructor
  · rintro ⟨x, hx, he⟩
    rwa [← inj_on_of_nodup_map ht.ids (hv.taken_mem x hx) hk he]
  · exact fun h => ⟨k, h, rfl⟩

theorem mem_of_window (hk : k ∈ s.window) : k ∈ tree.ascendingIter := by
  obtain ⟨above, hsplit, -⟩ := hv.split
  exact hsplit ▸ mem_append_left _ hk

theorem window_of_notMem (hk : k ∈ tree.ascendingIter) (hnot : k ∉ taken) : k ∈ s.window := by
  obtain ⟨above, hsplit, habove⟩ := hv.split
  rw [hsplit] at hk
  exact (mem_append.mp hk).resolve_right fun h => hnot (habove k h)

theorem push (ht : tree.Proper) (hw : s.wants tree limit)
    (hitem : item ∈ tree.ascendingIter) (hpos : 0 < (item.weight : K)) (hnew : item ∉ taken) :
    (s.push item).Valid tree limit (taken ++ [item]) where
  split := by
    obtain ⟨above, hsplit, habove⟩ := hv.split
    exact ⟨above, hsplit, fun k hk => mem_append_left _ (habove k hk)⟩
  range_eq := hv.range_eq
  range_pos := hv.range_pos
  cache_eq := by
    rw [map_append, reverse_append, ← hv.cache_eq]
    rfl
  nodup := by
    rw [map_append, nodup_append]
    refine ⟨hv.nodup, nodup_singleton _, fun a ha b hb he => ?_⟩
    have hb' : b = item.tx.id := mem_singleton.mp hb
    subst he hb'
    refine hnew ((hv.mem_cache_iff ht hitem).mp ?_)
    rw [hv.cache_eq]
    exact mem_reverse.mpr ha
  taken_mem k hk := by
    rcases mem_append.mp hk with hk | hk
    · exact hv.taken_mem k hk
    · exact mem_singleton.mp hk ▸ hitem
  taken_pos k hk := by
    rcases mem_append.mp hk with hk | hk
    · exact hv.taken_pos k hk
    · exact mem_singleton.mp hk ▸ hpos
  mass_eq := by
    rw [massSum_concat, ← hv.mass_eq]
    rfl
  within pre hpre hne := by
    rcases prefix_concat_iff.mp hpre with rfl | hpre
    · exact absurd rfl hne
    · by_cases he : pre = taken
      · rw [he, ← hv.mass_eq]
        exact hw.2
      · exact hv.within pre hpre he
  held := hv.held.push hitem fun e he hid =>
    hnew ((hv.mem_cache_iff ht hitem).mp (hid ▸ hv.held_cached e he))
  held_cached e he := by
    obtain ⟨l, hl, hpairs⟩ := pairs_push s.sequence item.tx item.mass
    rw [show (s.push item).sequence = s.sequence.push item.tx item.mass from rfl, hpairs] at he
    rcases mem_cons.mp he with rfl | he
    · exact mem_cons_self
    · exact mem_cons_of_mem _ (hv.held_cached e (hl.subset he))

variable [IsStrictOrderedRing K]
variable {u : K}

theorem search (h0 : 0 ≤ u) (h1 : u < 1) :
    tree.search (s.range * u) = pickAt weight (s.range * u) s.window ∧
      0 ≤ s.range * u ∧ s.range * u < weightOf weight s.window := by
  have hnonneg : 0 ≤ s.range * u := mul_nonneg hv.range_pos.le h0
  have hlt : s.range * u < weightOf weight s.window := by
    rw [← hv.range_eq]
    exact mul_lt_of_lt_one_right hv.range_pos h1
  obtain ⟨above, hsplit, -⟩ := hv.split
  refine ⟨?_, hnonneg, hlt⟩
  rw [SearchTree.search, getByArgument_eq _ hnonneg, ← SearchTree.ascendingIter, hsplit,
    pickAt_append_left _ hnonneg hlt]
  rw [← SearchTree.ascendingIter, hsplit, weightOf_append]
  exact lt_add_of_lt_of_nonneg hlt (weightOf_nonneg weight_nonneg _)

theorem search_some (h0 : 0 ≤ u) (h1 : u < 1) :
    ∃ item ∈ s.window, tree.search (s.range * u) = some item ∧ 0 < (item.weight : K) := by
  obtain ⟨hsearch, hnonneg, hlt⟩ := hv.search h0 h1
  obtain ⟨before, k, after, hwin, hpick, hle, hk⟩ := pickAt_spec hnonneg hlt
  refine ⟨k, hwin ▸ mem_append_right _ mem_cons_self, hsearch.trans hpick, ?_⟩
  exact lt_of_add_lt_add_left (lt_of_le_of_lt ((add_zero _).trans_le hle) hk)

/-- Every key of the window with a weight has draws of its own. -/
theorem search_eq {before after : List FeerateTransactionKey}
    (hwin : s.window = before ++ k :: after)
    (h0 : 0 ≤ u) (h1 : u < 1) (hle : weightOf weight before / s.range ≤ u)
    (hlt : u < (weightOf weight before + k.weight) / s.range) :
    tree.search (s.range * u) = some k := by
  rw [(hv.search h0 h1).1, hwin]
  refine pickAt_eq weight_nonneg ?_ ?_
  · rw [mul_comm]
    exact (div_le_iff₀ hv.range_pos).mp hle
  · rw [mul_comm]
    exact (lt_div_iff₀ hv.range_pos).mp hlt

/-- After a collision with the heaviest key the window is made smaller, or nothing with a weight is
    left. -/
theorem narrow (ht : tree.Proper) (hw : s.wants tree limit) (htop : s.top ∈ taken) :
    (∃ s', s.narrow tree = .running s' ∧ s'.Valid tree limit taken ∧ s'.top ∉ taken ∧
        s'.cache = s.cache ∧ s'.downIter.length < s.downIter.length) ∨
      (s.narrow tree = .panicked ∧ (∃ k ∈ tree.ascendingIter, k ∉ taken) ∧
        ∀ k ∈ tree.ascendingIter, 0 < (k.weight : K) → k ∈ taken) := by
  obtain ⟨above, hsplit, habove⟩ := hv.split
  have hcached : ∀ k ∈ s.downIter, decide (k.tx.id ∈ s.cache) = true → k ∈ taken := fun k hk hc =>
    (hv.mem_cache_iff ht (hv.mem_of_window (mem_append_left _ (mem_reverse.mpr hk)))).mp
      (of_decide_eq_true hc)
  unfold Sampling.narrow
  rcases dropWhile_cases (fun k => decide (k.tx.id ∈ s.cache)) s.downIter with
    ⟨-, hall⟩ | ⟨skipped, next, rest, hdown, hdrop, hskip, hnext⟩
  · -- every key would have been drawn
    exfalso
    have hsub : tree.ascendingIter ⊆ taken := by
      intro k hk
      rw [hsplit, window, mem_append, mem_append, mem_reverse, mem_singleton] at hk
      rcases hk with (hk | rfl) | hk
      · exact hcached k hk (hall k hk)
      · exact htop
      · exact habove k hk
    have hlen := ((ht.ids.of_map _).subperm hsub).length_le
    have hcache : s.cache.length = taken.length := by rw [hv.cache_eq, length_reverse, length_map]
    have hlt : s.cache.length < tree.ascendingIter.length := hw.1
    omega
  · have hsplit' : tree.ascendingIter =
        (rest.reverse ++ [next]) ++ (skipped.reverse ++ s.top :: above) := by
      rw [hsplit, window, hdown]
      simp
    have habove' : ∀ k ∈ skipped.reverse ++ s.top :: above, k ∈ taken := by
      intro k hk
      rw [mem_append, mem_reverse, mem_cons] at hk
      rcases hk with hk | rfl | hk
      · exact hcached k (hdown ▸ mem_append_left _ hk) (hskip k hk)
      · exact htop
      · exact habove k hk
    have hprefix :
        tree.prefixWeight next = some (weightOf (weight (K := K)) (rest.reverse ++ [next])) :=
      tree.prefixWeight_eq (by rw [hsplit', append_assoc]; rfl)
    have hmem : next ∈ tree.ascendingIter := by
      rw [hsplit']
      exact mem_append_left _ (mem_append_right _ mem_cons_self)
    have hnot : next ∉ taken := fun h => of_decide_eq_false hnext ((hv.mem_cache_iff ht hmem).mpr h)
    simp only [hdrop, hprefix, Option.bind_some, uniformNew]
    by_cases hpos : 0 < weightOf (weight (K := K)) (rest.reverse ++ [next])
    · rw [if_pos hpos]
      refine .inl ⟨_, rfl, ?_, hnot, rfl, ?_⟩
      · exact { hv with split := ⟨_, hsplit', habove'⟩, range_eq := rfl, range_pos := hpos }
      · show rest.length < s.downIter.length
        rw [hdown, length_append, length_cons]
        omega
    · rw [if_neg hpos]
      refine .inr ⟨rfl, ⟨next, hmem, hnot⟩, fun k hk hkpos => ?_⟩
      rw [hsplit'] at hk
      refine (mem_append.mp hk).elim (fun hk => ?_) (habove' k)
      exact absurd (hkpos.trans_le (le_weightOf weight_nonneg hk)) hpos

/-- **What a draw can do**: nothing, enter a key, make the window smaller, or panic because the keys
    with a weight are all drawn. -/
theorem draw (ht : tree.Proper) (hw : s.wants tree limit) (h0 : 0 ≤ u)
    (h1 : u < 1) : (s.draw tree u = .running s ∧ s.top ∉ taken) ∨
      (∃ s' taken', s.draw tree u = .running s' ∧ s'.Valid tree limit taken' ∧
        s'.remaining tree < s.remaining tree) ∨
      (s.draw tree u = .panicked ∧ (∃ k ∈ tree.ascendingIter, k ∉ taken) ∧
        ∀ k ∈ tree.ascendingIter, 0 < (k.weight : K) → k ∈ taken) := by
  obtain ⟨item, hitem, hsearch, hpos⟩ := hv.search_some h0 h1
  have hmem := hv.mem_of_window hitem
  have htop : s.top ∈ tree.ascendingIter := hv.mem_of_window (mem_append_right _ mem_cons_self)
  unfold Sampling.draw
  simp only [hsearch, hv.mem_cache_iff ht hmem, hv.mem_cache_iff ht htop]
  by_cases hin : item ∈ taken
  · rw [if_pos hin]
    by_cases hin' : s.top ∈ taken
    · rw [if_pos hin']
      rcases hv.narrow ht hw hin' with ⟨s', hs', hv', -, hcache, hlt⟩ | hspent
      · refine .inr (.inl ⟨s', taken, hs', hv', ?_⟩)
        unfold remaining
        rw [hcache]
        omega
      · exact .inr (.inr hspent)
    · rw [if_neg hin']
      exact .inl ⟨rfl, hin'⟩
  · rw [if_neg hin]
    refine .inr (.inl ⟨s.push item, _, rfl, hv.push ht hw hmem hpos hin, ?_⟩)
    have hlt : s.cache.length < tree.len := hw.1
    show (tree.len - (s.cache.length + 1)) + s.downIter.length < _
    unfold remaining
    omega

/-- If the keys with a weight are all drawn, they can all be drawn. -/
theorem exhausted (ht : tree.Proper)
    (hw : s.wants tree limit) (hleft : ∃ k ∈ tree.ascendingIter, k ∉ taken)
    (hall : ∀ k ∈ tree.ascendingIter, 0 < (k.weight : K) → k ∈ taken) : Exhausted tree limit := by
  obtain ⟨k, hk, hnot⟩ := hleft
  refine ⟨⟨k, hk, not_not.mp fun hfee => hnot (hall k hk ((ht.weight_pos_iff hk).mpr hfee))⟩, taken,
    ?_, fun pre hpre => ?_⟩
  · refine (perm_ext_iff_of_nodup (hv.nodup.of_map _) ((ht.ids.of_map _).filter _)).mpr fun x => ?_
    rw [← paying, mem_paying]
    constructor
    · intro hx
      exact ⟨hv.taken_mem x hx, (ht.weight_pos_iff (hv.taken_mem x hx)).mp (hv.taken_pos x hx)⟩
    · intro hx
      exact hall x hx.1 ((ht.weight_pos_iff hx.1).mpr hx.2)
  · by_cases he : pre = taken
    · rw [he, ← hv.mass_eq]
      exact hw.2
    · exact hv.within pre hpre he

/-! ## 4. Whole runs -/

/-- **Where a run can get.** -/
theorem run (ht : tree.Proper) {us : List K} (hus : ∀ u ∈ us, 0 ≤ u ∧ u < 1) :
    (∃ s' taken', s.run tree limit us = .running s' ∧ s'.Valid tree limit taken') ∨
      (∃ input, s.run tree limit us = .done input ∧ Held tree input) ∨
      (s.run tree limit us = .panicked ∧ Exhausted tree limit) := by
  induction us generalizing s taken with
  | nil =>
    by_cases hw : s.wants tree limit
    · exact .inl ⟨s, taken, if_pos hw, hv⟩
    · exact .inr (.inl ⟨s.sequence, if_neg hw, hv.held⟩)
  | cons u us ih =>
    unfold Sampling.run
    by_cases hw : s.wants tree limit
    · rw [if_pos hw]
      obtain ⟨hu, hus⟩ := forall_mem_cons.mp hus
      rcases hv.draw ht hw hu.1 hu.2 with ⟨hs, -⟩ | ⟨s', taken', hs, hv', -⟩ | ⟨hs, hleft, hall⟩
      · simp only [hs]
        exact ih hv hus
      · simp only [hs]
        exact ih hv' hus
      · simp only [hs]
        exact .inr (.inr ⟨trivial, hv.exhausted ht hw hleft hall⟩)
    · rw [if_neg hw]
      exact .inr (.inl ⟨s.sequence, rfl, hv.held⟩)

end Valid

end Sampling

/-- An unending sequence of draws. -/
structure Draws (K : Type) [Field K] [LinearOrder K] where
  draw : Nat → K
  nonneg : ∀ i, 0 ≤ draw i
  lt_one : ∀ i, draw i < 1

namespace Draws

variable (d : Draws K)

def take (n : Nat) : List K := (List.range n).map d.draw

/-- What comes after the first draw. -/
def tail : Draws K := ⟨fun i => d.draw (i + 1), fun _ => d.nonneg _, fun _ => d.lt_one _⟩

theorem take_succ (n : Nat) : d.take (n + 1) = d.draw 0 :: d.tail.take n := by
  rw [take, range_succ_eq_map, map_cons, map_map]
  rfl

theorem mem_take {d : Draws K} {n : Nat} {u : K} (h : u ∈ d.take n) : 0 ≤ u ∧ u < 1 := by
  obtain ⟨i, -, rfl⟩ := mem_map.mp h
  exact ⟨d.nonneg i, d.lt_one i⟩

/-- Every part of the range is hit again and again. -/
def Fair : Prop := ∀ a b : K, 0 ≤ a → a < b → b ≤ 1 → ∀ n, ∃ m, n ≤ m ∧ a ≤ d.draw m ∧ d.draw m < b

theorem Fair.tail {d : Draws K} (h : d.Fair) : d.tail.Fair := by
  intro a b ha hab hb n
  obtain ⟨m, hm, hlo, hhi⟩ := h a b ha hab hb (n + 1)
  obtain ⟨m, rfl⟩ := Nat.exists_eq_add_of_le' (Nat.le_trans (Nat.le_add_left 1 n) hm)
  exact ⟨m, Nat.le_of_succ_le_succ hm, hlo, hhi⟩

end Draws

namespace Sampling

variable {limit : UInt64} {s : Sampling K} {taken : List FeerateTransactionKey}

theorem run_cons (hw : s.wants tree limit)
    {s' : Sampling K} {u : K} (h : s.draw tree u = .running s')
    (us : List K) : s.run tree limit (u :: us) = s'.run tree limit us := by
  rw [Sampling.run, if_pos hw, h]

namespace Valid

variable (hv : s.Valid tree limit taken)

include hv

theorem wants_more {rest : List FeerateTransactionKey} (hzero : ∃ k ∈ tree.ascendingIter, k.fee = 0)
    (hperm : (taken ++ rest).Perm (paying tree.ascendingIter))
    (hmass : ∀ pre, pre <+: taken ++ rest → massSum pre ≤ limit) : s.wants tree limit := by
  obtain ⟨z, hz, hfee⟩ := hzero
  have hsub : z :: taken ⊆ tree.ascendingIter := cons_subset.mpr ⟨hz, hv.taken_mem⟩
  have hnd : (z :: taken).Nodup := nodup_cons.mpr
    ⟨fun h => (mem_paying.mp (hperm.mem_iff.mp (mem_append_left _ h))).2 hfee, hv.nodup.of_map _⟩
  refine ⟨?_, ?_⟩
  · rw [hv.cache_eq, length_reverse, length_map]
    exact (hnd.subperm hsub).length_le
  · rw [hv.mass_eq]
    exact hmass taken (prefix_append _ _)

variable [IsStrictOrderedRing K]
variable {k : FeerateTransactionKey}

theorem interval (hk : k ∈ s.window) (hpos : 0 < (k.weight : K)) : ∃ a b : K, 0 ≤ a ∧ a < b ∧
      b ≤ 1 ∧ ∀ u, 0 ≤ u → u < 1 → a ≤ u → u < b → tree.search (s.range * u) = some k := by
  obtain ⟨before, after, hwin⟩ := append_of_mem hk
  have hr := hv.range_pos
  refine ⟨weightOf weight before / s.range, (weightOf weight before + k.weight) / s.range, ?_, ?_,
    ?_, fun u h0 h1 hle hlt => hv.search_eq hwin h0 h1 hle hlt⟩
  · exact div_nonneg (weightOf_nonneg weight_nonneg _) hr.le
  · exact (div_lt_div_iff_of_pos_right hr).mpr (lt_add_of_pos_right _ hpos)
  · rw [div_le_one hr, hv.range_eq, hwin, weightOf_append, weightOf_cons, ← add_assoc]
    exact le_add_of_nonneg_right (weightOf_nonneg weight_nonneg _)

variable (ht : tree.Proper)

include ht

section

variable (hne : ¬ Exhausted tree limit)

include hne

/-- While keys are wanted, one with a weight is left, unless they run out. -/
theorem exists_left (hw : s.wants tree limit) :
    ∃ k ∈ tree.ascendingIter, 0 < (k.weight : K) ∧ k ∉ taken := by
  have hlt : taken.length < tree.ascendingIter.length := by
    have hlt : s.cache.length < tree.ascendingIter.length := hw.1
    rwa [hv.cache_eq, length_reverse, length_map] at hlt
  by_contra hnone
  push Not at hnone
  refine hne (hv.exhausted ht hw ?_ hnone)
  by_contra hall
  push Not at hall
  exact absurd ((ht.ids.of_map _).subperm hall).length_le (not_le.mpr hlt)

/-- A draw changes the state, or misses a key that is left. -/
theorem draw_or_miss (hw : s.wants tree limit)
    (hk : k ∈ tree.ascendingIter) (hnot : k ∉ taken) {u : K} (h0 : 0 ≤ u) (h1 : u < 1) :
    (∃ s' taken', s.draw tree u = .running s' ∧ s'.Valid tree limit taken' ∧
      s'.remaining tree < s.remaining tree) ∨
      (s.draw tree u = .running s ∧ tree.search (s.range * u) ≠ some k) := by
  rcases hv.draw ht hw h0 h1 with ⟨hs, -⟩ | hs | ⟨-, hleft, hall⟩
  · refine .inr ⟨hs, fun hsearch => ?_⟩
    unfold Sampling.draw at hs
    simp only [hsearch, hv.mem_cache_iff ht hk, if_neg hnot, Drawing.running.injEq] at hs
    exact absurd (congrArg (fun s : Sampling K => s.cache.length) hs) (Nat.succ_ne_self _)
  · exact .inl hs
  · exact absurd (hv.exhausted ht hw hleft hall) hne

/-- **With fair draws the loops end**, unless the keys with a weight run out. -/
theorem run_fair {d : Draws K} (hd : d.Fair) :
    ∃ n input, s.run tree limit (d.take n) = .done input := by
  induction hr : s.remaining tree using Nat.strong_induction_on generalizing s taken d with
  | _ r ih =>
    subst hr
    by_cases hw : s.wants tree limit
    swap
    · exact ⟨0, s.sequence, if_neg hw⟩
    obtain ⟨k, hk, hpos, hnot⟩ := hv.exists_left ht hne hw
    obtain ⟨a, b, ha, hab, hb, hhit⟩ := hv.interval (hv.window_of_notMem hk hnot) hpos
    obtain ⟨m, -, hlo, hhi⟩ := hd a b ha hab hb 0
    -- until the draw number `m` the state is as it is, or there is less left to draw
    induction m generalizing d with
    | zero =>
      rcases hv.draw_or_miss ht hne hw hk hnot (d.nonneg 0) (d.lt_one 0) with
        ⟨s', taken', hs, hv', hlt⟩ | ⟨-, hmiss⟩
      · obtain ⟨n, input, hn⟩ := ih _ hlt hv' hd.tail rfl
        exact ⟨n + 1, input, by rw [d.take_succ, run_cons hw hs, hn]⟩
      · exact absurd (hhit _ (d.nonneg 0) (d.lt_one 0) hlo hhi) hmiss
    | succ m ihm =>
      rcases hv.draw_or_miss ht hne hw hk hnot (d.nonneg 0) (d.lt_one 0) with
        ⟨s', taken', hs, hv', hlt⟩ | ⟨hs, -⟩
      · obtain ⟨n, input, hn⟩ := ih _ hlt hv' hd.tail rfl
        exact ⟨n + 1, input, by rw [d.take_succ, run_cons hw hs, hn]⟩
      · obtain ⟨n, input, hn⟩ := ihm hd.tail hlo hhi
        exact ⟨n + 1, input, by rw [d.take_succ, run_cons hw hs, hn]⟩

end

theorem top_pos : 0 < (s.top.weight : K) := by
  obtain ⟨above, hsplit, -⟩ := hv.split
  rw [window, append_assoc] at hsplit
  by_contra htop
  have hzero : ∀ k ∈ s.window, (k.weight : K) = 0 := fun k hk =>
    le_antisymm ((ht.weight_le hsplit hk).trans (not_lt.mp htop)) k.weight_nonneg
  exact hv.range_pos.ne' (hv.range_eq.trans (weightOf_eq_zero hzero))

/-- If the keys with a weight are all drawn, the next draw panics. -/
theorem draw_spent (hw : s.wants tree limit)
    (hall : ∀ k ∈ tree.ascendingIter, 0 < (k.weight : K) → k ∈ taken) :
    s.draw tree 0 = .panicked := by
  obtain ⟨item, hitem, hsearch, hpos⟩ := hv.search_some le_rfl zero_lt_one
  have hmem := hv.mem_of_window hitem
  have htop : s.top ∈ tree.ascendingIter := hv.mem_of_window (mem_append_right _ mem_cons_self)
  have hin : s.top ∈ taken := hall _ htop (hv.top_pos ht)
  unfold Sampling.draw
  simp only [hsearch, hv.mem_cache_iff ht hmem, hv.mem_cache_iff ht htop, if_pos (hall _ hmem hpos),
    if_pos hin]
  rcases hv.narrow ht hw hin with ⟨s', -, hv', hnot, -⟩ | ⟨hpanic, -⟩
  · have htop' : s'.top ∈ tree.ascendingIter := hv'.mem_of_window (mem_append_right _ mem_cons_self)
    exact absurd (hall _ htop' (hv'.top_pos ht)) hnot
  · exact hpanic

/-- Keys that can all be drawn are drawn by some draws, and one more draw panics. -/
theorem run_exhausts (hwin : s.window = tree.ascendingIter)
    (rest : List FeerateTransactionKey) (hzero : ∃ k ∈ tree.ascendingIter, k.fee = 0)
    (hperm : (taken ++ rest).Perm (paying tree.ascendingIter))
    (hmass : ∀ pre, pre <+: taken ++ rest → massSum pre ≤ limit) :
    ∃ us : List K, (∀ u ∈ us, 0 ≤ u ∧ u < 1) ∧ s.run tree limit us = .panicked := by
  induction rest generalizing s taken with
  | nil =>
    have hw := hv.wants_more hzero hperm hmass
    rw [append_nil] at hperm
    refine ⟨[0], forall_mem_singleton.mpr ⟨le_rfl, zero_lt_one⟩, ?_⟩
    rw [Sampling.run, if_pos hw, hv.draw_spent ht hw fun k hk hpos =>
      hperm.mem_iff.mpr (mem_paying.mpr ⟨hk, (ht.weight_pos_iff hk).mp hpos⟩)]
  | cons k rest ih =>
    have hw := hv.wants_more hzero hperm hmass
    obtain ⟨hk, hfee⟩ := mem_paying.mp (hperm.mem_iff.mp (mem_append_right taken (mem_cons_self)))
    have hpos : 0 < (k.weight : K) := (ht.weight_pos_iff hk).mpr hfee
    have hnd : (taken ++ k :: rest).Nodup := hperm.nodup_iff.mpr ((ht.ids.of_map _).filter _)
    have hnot : k ∉ taken := fun h => (nodup_append.mp hnd).2.2 k h k mem_cons_self rfl
    obtain ⟨a, b, ha, hab, hb, hhit⟩ := hv.interval (hwin ▸ hk) hpos
    have ha1 : a < 1 := hab.trans_le hb
    have hdraw : s.draw tree a = .running (s.push k) := by
      unfold Sampling.draw
      simp only [hhit a ha ha1 le_rfl hab, hv.mem_cache_iff ht hk, if_neg hnot]
    rw [append_cons] at hperm hmass
    obtain ⟨us, hus, hrun⟩ := ih (hv.push ht hw hk hpos hnot) hwin hperm hmass
    exact ⟨a :: us, forall_mem_cons.mpr ⟨⟨ha, ha1⟩, hus⟩, by rw [run_cons hw hdraw, hrun]⟩

end Valid

end Sampling

/-! ## 5. From the start -/

section Start

variable {limit : UInt64}

theorem sampleInplace_start (limit : UInt64)
    (hpos : 0 < weightOf (weight (K := K)) tree.ascendingIter) :
    ∃ s : Sampling K, s.Valid tree limit [] ∧ s.window = tree.ascendingIter ∧
      ∀ us, sampleInplace tree limit us = s.run tree limit us := by
  cases hdesc : tree.descendingIter with
  | nil =>
    rw [SearchTree.descendingIter, reverse_eq_nil_iff] at hdesc
    rw [hdesc] at hpos
    exact absurd hpos (lt_irrefl _)
  | cons top rest =>
    have hwin : rest.reverse ++ [top] = tree.ascendingIter := by
      rw [← reverse_cons, ← hdesc, SearchTree.descendingIter, reverse_reverse]
    refine ⟨⟨tree.totalWeight, top, rest, [], ∅, 0⟩, ?_, hwin, fun us => ?_⟩
    · exact {
        split := ⟨[], by rw [append_nil]; exact hwin.symm, forall_mem_nil _⟩
        range_eq := by rw [tree.totalWeight_eq, ← hwin]; rfl
        range_pos := by rw [tree.totalWeight_eq]; exact hpos
        cache_eq := rfl
        nodup := nodup_nil
        taken_mem := forall_mem_nil _
        taken_pos := forall_mem_nil _
        mass_eq := rfl
        within := fun pre hpre hne => absurd (prefix_nil.mp hpre) hne
        held := ⟨nodup_nil, forall_mem_nil _⟩
        held_cached := forall_mem_nil _ }
    · unfold sampleInplace
      simp only [uniformNew, tree.totalWeight_eq, if_pos hpos, hdesc]

variable [IsStrictOrderedRing K]

section

variable (ht : tree.Proper)

include ht

theorem weightOf_pos_iff :
    0 < weightOf (weight (K := K)) tree.ascendingIter ↔ ∃ k ∈ tree.ascendingIter, k.fee ≠ 0 := by
  constructor
  · intro hpos
    by_contra hnone
    push Not at hnone
    exact hpos.ne'
      (weightOf_eq_zero fun k hk => (weight_eq_zero_iff (ht.mass_pos k hk)).mpr (hnone k hk))
  · rintro ⟨k, hk, hfee⟩
    exact ((ht.weight_pos_iff hk).mpr hfee).trans_le (le_weightOf weight_nonneg hk)

theorem sampleInplace_of_no_fee (h : ∀ k ∈ tree.ascendingIter, k.fee = 0) (us : List K) :
    sampleInplace tree limit us = .panicked := by
  have hnot : ¬ 0 < weightOf (weight (K := K)) tree.ascendingIter := fun hpos => by
    obtain ⟨k, hk, hfee⟩ := (weightOf_pos_iff ht).mp hpos
    exact hfee (h k hk)
  unfold sampleInplace
  simp only [uniformNew, tree.totalWeight_eq, if_neg hnot]

/-- **When sampling can panic.** -/
theorem sampleInplace_panics_iff :
    (∃ us : List K, (∀ u ∈ us, 0 ≤ u ∧ u < 1) ∧ sampleInplace tree limit us = .panicked) ↔
      (∀ k ∈ tree.ascendingIter, k.fee = 0) ∨ Exhausted tree limit := by
  by_cases hfee : ∀ k ∈ tree.ascendingIter, k.fee = 0
  · exact iff_of_true ⟨[], forall_mem_nil _, sampleInplace_of_no_fee ht hfee []⟩ (.inl hfee)
  · rw [or_iff_right hfee]
    push Not at hfee
    obtain ⟨s, hv, hwin, hstart⟩ :=
      sampleInplace_start limit ((weightOf_pos_iff (K := K) ht).mpr hfee)
    constructor
    · rintro ⟨us, hus, hpanic⟩
      rw [hstart] at hpanic
      rcases hv.run ht hus with ⟨s', taken', hs, -⟩ | ⟨input, hs, -⟩ | ⟨-, hex⟩
      · cases hs.symm.trans hpanic
      · cases hs.symm.trans hpanic
      · exact hex
    · rintro ⟨hzero, order, hperm, hmass⟩
      obtain ⟨us, hus, hrun⟩ := hv.run_exhausts ht hwin order hzero hperm hmass
      exact ⟨us, hus, (hstart us).trans hrun⟩

theorem sampleInplace_held {us : List K} (hus : ∀ u ∈ us, 0 ≤ u ∧ u < 1)
    {input : SequenceSelectorInput} (h : sampleInplace tree limit us = .done input) :
    Held tree input := by
  by_cases hfee : ∀ k ∈ tree.ascendingIter, k.fee = 0
  · rw [sampleInplace_of_no_fee ht hfee] at h
    cases h
  · push Not at hfee
    obtain ⟨s, hv, -, hstart⟩ := sampleInplace_start limit ((weightOf_pos_iff (K := K) ht).mpr hfee)
    rw [hstart] at h
    rcases hv.run ht hus with ⟨s', taken', hs, -⟩ | ⟨input', hs, hheld⟩ | ⟨hs, -⟩
    · cases hs.symm.trans h
    · cases hs.symm.trans h
      exact hheld
    · cases hs.symm.trans h

theorem sampleInplace_fair (hfee : ∃ k ∈ tree.ascendingIter, k.fee ≠ 0)
    (hne : ¬ Exhausted tree limit) {d : Draws K} (hd : d.Fair) :
    ∃ n input, sampleInplace tree limit (d.take n) = .done input := by
  obtain ⟨s, hv, -, hstart⟩ := sampleInplace_start limit ((weightOf_pos_iff (K := K) ht).mpr hfee)
  obtain ⟨n, input, hrun⟩ := hv.run_fair ht hne hd
  exact ⟨n, input, (hstart _).trans hrun⟩

end

theorem Draws.exists_take {us : List K} (hus : ∀ u ∈ us, 0 ≤ u ∧ u < 1) :
    ∃ (d : Draws K) (n : Nat), d.take n = us := by
  have hget : ∀ i : Nat, 0 ≤ us[i]?.getD 0 ∧ us[i]?.getD 0 < 1 := by
    intro i
    rcases lt_or_ge i us.length with hi | hi
    · rw [getElem?_eq_getElem hi]
      exact hus _ (getElem_mem hi)
    · rw [getElem?_eq_none hi]
      exact ⟨le_rfl, zero_lt_one⟩
  refine ⟨⟨fun i => us[i]?.getD 0, fun i => (hget i).1, fun i => (hget i).2⟩, us.length, ?_⟩
  refine ext_getElem (by simp [Draws.take]) fun i h₁ h₂ => ?_
  simp [Draws.take, h₂]

end Start

end Sahyadri.Mining
