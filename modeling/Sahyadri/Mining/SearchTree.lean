import Sahyadri.Lib.BPlusTree
import Sahyadri.Lib.Search
import Sahyadri.Lib.Weighted
import Sahyadri.Mining.Pool
import Mathlib.Algebra.Order.Field.Basic

/-!
# `SearchTree`: the frontier's keys, searchable by weight

* `FeerateTransactionKey.cmp`: the order of keys; `FeerateTransactionKey.weight`: the weight of a
  key, in a field in place of `f64`; `Floats.exact`: how weights compare if quotients are not
  rounded.
-/

namespace Sahyadri.Mining

open Lib Smt Core Tx List FeerateTransactionKey Std.TransCmp Std.LawfulLTCmp

/-! ## 1. The order of keys -/

theorem bytes_compare_lt (a b : Bytes) : compare a b = .lt ↔ a < b := by
  induction a generalizing b with
  | nil => cases b <;> simp
  | cons x a ih =>
    cases b with
    | nil => simp
    | cons y b =>
      rw [List.compare_cons_cons, Ordering.then_eq_lt, ih, cons_lt_cons_iff,
        eq_lt_iff_lt, Std.LawfulEqOrd.compare_eq_iff_eq]

namespace FeerateTransactionKey

variable {fl : Floats} {a b : FeerateTransactionKey}

/-- `cmp`: by weight, by fee, and by id. -/
def cmp (fl : Floats) (a b : FeerateTransactionKey) : Ordering :=
  match compare (fl.weight a.fee a.mass) (fl.weight b.fee b.mass) with
  | .eq =>
    match compare a.fee b.fee with
    | .eq => compare a.tx.id.bytes b.tx.id.bytes
    | ord => ord
  | ord => ord

theorem cmp_eq_compareLex :
    cmp fl = compareLex (compareOn fun k : FeerateTransactionKey => fl.weight k.fee k.mass)
      (compareLex (compareOn fun k => k.fee) (compareOn fun k => k.tx.id.bytes)) := by
  funext a b
  cases compare (fl.weight a.fee a.mass) (fl.weight b.fee b.mass) <;>
    cases compare a.fee b.fee <;> rfl

instance : Std.TransCmp (cmp fl) := by
  rw [cmp_eq_compareLex]
  infer_instance

theorem le_iff_cmp : le fl a b ↔ cmp fl a b ≠ .gt := by
  unfold le cmp
  cases hw : compare (fl.weight a.fee a.mass) (fl.weight b.fee b.mass) with
  | lt => simp [compare_lt_iff_lt.mp hw]
  | gt =>
    have hgt := compare_gt_iff_gt.mp hw
    simp [hgt.not_gt, hgt.ne']
  | eq =>
    rw [compare_eq_iff_eq.mp hw]
    cases hf : compare a.fee b.fee with
    | lt => simp [eq_lt_iff_lt.mp hf]
    | gt =>
      have hgt : b.fee < a.fee := eq_gt_iff_gt.mp hf
      simp [UInt64.lt_asymm hgt, UInt64.ne_of_lt hgt |>.symm]
    | eq =>
      rw [Std.LawfulEqOrd.compare_eq_iff_eq.mp hf, ← bytes_compare_lt, ← Std.OrientedCmp.gt_iff_lt]
      simp [UInt64.lt_irrefl]

end FeerateTransactionKey

/-! ## 2. Exact weights -/

/-- Quotients by numbers below `2^64` that differ are at least `2^-128` apart. -/
theorem scaled_div_lt {a b c d N : Nat} (hb : 0 < b) (hd : 0 < d) (hN : b * d ≤ N)
    (h : a * d < c * b) : a * N / b < c * N / d := by
  have hx : a * N / b * b ≤ a * N := Nat.div_mul_le_self _ _
  refine (Nat.le_div_iff_mul_le hd).mpr (Nat.le_of_mul_le_mul_right ?_ hb)
  calc (a * N / b + 1) * d * b = a * N / b * b * d + b * d := by ring
    _ ≤ a * N * d + N := add_le_add (Nat.mul_le_mul_right d hx) hN
    _ = (a * d + 1) * N := by ring
    _ ≤ c * b * N := Nat.mul_le_mul_right N h
    _ = c * N * b := by ring

/-- Fee rates that are compared without rounding. -/
def Floats.exact : Floats where
  gt a b := b.fee.toNat * a.mass.toNat < a.fee.toNat * b.mass.toNat
  weight fee mass := (fee.toNat * 2 ^ 128 / mass.toNat : Nat)

theorem Floats.exact_weight_le {fee mass fee' mass' : UInt64} (hm : 0 < mass) (hm' : 0 < mass')
    (h : Floats.exact.weight fee mass ≤ Floats.exact.weight fee' mass') :
    fee.toNat * mass'.toNat ≤ fee'.toNat * mass.toNat := by
  by_contra hlt
  have hN : mass'.toNat * mass.toNat ≤ 2 ^ 64 * 2 ^ 64 :=
    Nat.mul_le_mul (Nat.le_of_lt mass'.toNat_lt) (Nat.le_of_lt mass.toNat_lt)
  have :=
    scaled_div_lt (UInt64.lt_iff_toNat_lt.mp hm') (UInt64.lt_iff_toNat_lt.mp hm) hN (not_le.mp hlt)
  exact absurd (Int.ofNat_lt.mpr this) (not_lt.mpr h)

section Weights

variable {K : Type} [Field K]

/-- The weight of a key: its fee rate to the power of `ALPHA`. -/
def FeerateTransactionKey.weight (k : FeerateTransactionKey) : K :=
  ((k.fee.toNat : K) / (k.mass.toNat : K)) ^ 3

variable [LinearOrder K] [IsStrictOrderedRing K]

namespace FeerateTransactionKey

theorem weight_nonneg (k : FeerateTransactionKey) : 0 ≤ (k.weight : K) :=
  pow_nonneg (div_nonneg (Nat.cast_nonneg _) (Nat.cast_nonneg _)) 3

variable {k a b : FeerateTransactionKey}

theorem weight_eq_zero_iff (hm : 0 < k.mass) : (k.weight : K) = 0 ↔ k.fee = 0 := by
  have hm' : (k.mass.toNat : K) ≠ 0 := Nat.cast_ne_zero.mpr (UInt64.lt_iff_toNat_lt.mp hm).ne'
  rw [weight, pow_eq_zero_iff (by decide), div_eq_zero_iff, or_iff_left hm', Nat.cast_eq_zero,
    ← UInt64.toNat_inj, UInt64.toNat_zero]

theorem weight_le_of_le (ha : 0 < a.mass) (hb : 0 < b.mass) (h : le Floats.exact a b) :
    (a.weight : K) ≤ b.weight := by
  have hw : Floats.exact.weight a.fee a.mass ≤ Floats.exact.weight b.fee b.mass := by
    rcases h with hlt | ⟨heq, _⟩
    · exact le_of_lt hlt
    · exact le_of_eq heq
  have hma : (0 : K) < a.mass.toNat := Nat.cast_pos.mpr (UInt64.lt_iff_toNat_lt.mp ha)
  have hmb : (0 : K) < b.mass.toNat := Nat.cast_pos.mpr (UInt64.lt_iff_toNat_lt.mp hb)
  refine pow_le_pow_left₀ (div_nonneg (Nat.cast_nonneg _) (Nat.cast_nonneg _)) ?_ 3
  rw [div_le_div_iff₀ hma hmb]
  exact_mod_cast Floats.exact_weight_le ha hb hw

end FeerateTransactionKey

end Weights

/-! ## 3. Sums of weights -/

namespace FeerateWeight

variable {K : Type} [Field K]

def fromLeaf (keys : List FeerateTransactionKey) : K := (keys.map fun k => k.weight).sum

def fromInner (_keys : List FeerateTransactionKey) (arguments : List K) : K := arguments.sum

variable [LinearOrder K]

/-- The loop of `locate_in_leaf`, from an index and the sum before it. -/
def leafLoop (query : K) : Nat → K → List FeerateTransactionKey → Option Nat
  | _, _, [] => none
  | i, sum, k :: keys =>
    if query < sum + k.weight then some i else leafLoop query (i + 1) (sum + k.weight) keys

/-- `locate_in_leaf`: a query that is out of bounds is clamped. -/
def locateInLeaf (query : K) (keys : List FeerateTransactionKey) : Option Nat :=
  match leafLoop query 0 0 keys with
  | some i => some i
  | none => if keys.length = 0 then none else some (keys.length - 1)

def innerLoop : Nat → K → List K → Option (Nat × K)
  | _, _, [] => none
  | i, query, a :: arguments =>
    if a ≤ query then innerLoop (i + 1) (query - a) arguments else some (i, query)

def locateInInner (query : K) (_keys : List FeerateTransactionKey) (arguments : List K) :
    Option (Nat × K) :=
  match innerLoop 0 query arguments with
  | some r => some r
  | none => arguments.getLast?.map fun a => (arguments.length - 1, a)

end FeerateWeight

/-- `search_in_keys`: the index of the first greater key. -/
def searchInKeys (fl : Floats) (key : FeerateTransactionKey) (keys : List FeerateTransactionKey) :
    Nat :=
  match binarySearchBy (fun k => k.cmp fl key) keys with
  | .error idx => idx
  | .ok idx => idx + 1

namespace PrefixWeightVisitor

variable {K : Type} [Field K] (fl : Floats) (key : FeerateTransactionKey)

/-- `visit_inner`: the state is the accumulated weight. -/
def visitInner (accumulated : K) (keys : List FeerateTransactionKey) (arguments : List K) :
    K × Nat :=
  let idx := searchInKeys fl key keys
  (accumulated + (arguments.take idx).sum, idx)

def visitLeaf (accumulated : K) (keys : List FeerateTransactionKey) : Option K :=
  some (accumulated + ((keys.take (searchInKeys fl key keys)).map fun k => k.weight).sum)

end PrefixWeightVisitor

open FeerateWeight PrefixWeightVisitor

structure SearchTree (fl : Floats) where
  depth : Nat
  root : BPlusNode FeerateTransactionKey depth
  ordered : root.Ordered (cmp fl)

namespace SearchTree

variable {K : Type} [Field K] {fl : Floats} (t : SearchTree fl)

def ascendingIter : List FeerateTransactionKey := t.root.keys

def descendingIter : List FeerateTransactionKey := t.ascendingIter.reverse

def len : Nat := t.ascendingIter.length

def totalWeight : K := t.root.argument fromLeaf fromInner

/-- `prefix_weight`, before it is unwrapped. -/
def prefixWeight (key : FeerateTransactionKey) : Option K :=
  t.root.descendVisit fromLeaf fromInner
    (visitInner fl key) (visitLeaf fl key) 0

variable [LinearOrder K]

/-- `search`, before its `expect`. -/
def search (query : K) : Option FeerateTransactionKey :=
  t.root.getByArgument fromLeaf fromInner
    locateInLeaf locateInInner query

end SearchTree

/-! ## 4. The tree and the list of its keys -/

section Refinement

variable {K : Type} [Field K] {fl : Floats}
variable {d : Nat}

/-- The argument of a node is the weight of its keys. -/
theorem argument_eq (node : BPlusNode FeerateTransactionKey d) :
    node.argument fromLeaf fromInner =
      weightOf (weight (K := K)) node.keys := by
  induction d with
  | zero => rfl
  | succ d ih =>
    obtain ⟨keys, children⟩ := node
    show (children.map _).sum = weightOf _ (children.flatMap BPlusNode.keys)
    induction children with
    | nil => rfl
    | cons c children ihc =>
      rw [map_cons, sum_cons, flatMap_cons, weightOf_append, ih c, ihc]

theorem sum_arguments (children : List (BPlusNode FeerateTransactionKey d)) :
    (children.map (BPlusNode.argument fromLeaf fromInner)).sum =
      weightOf (weight (K := K)) (children.flatMap BPlusNode.keys) :=
  argument_eq (d := d + 1) ([], children)

variable {keys : List FeerateTransactionKey}

theorem searchInKeys_spec (h : keys.Pairwise fun a b => a.cmp fl b = .lt)
    (key : FeerateTransactionKey) : searchInKeys fl key keys ≤ keys.length ∧
      (∀ (j : Nat) k, keys[j]? = some k → j < searchInKeys fl key keys → k.cmp fl key ≠ .gt) ∧
      ∀ (j : Nat) k, keys[j]? = some k → searchInKeys fl key keys ≤ j → k.cmp fl key = .gt := by
  have hasc : Ascending (fun k => k.cmp fl key) keys := h.imp fun {a b} hab =>
    ⟨fun hgt => gt_trans (Std.OrientedCmp.gt_of_lt hab) hgt, fun hlt => lt_trans hab hlt⟩
  unfold searchInKeys
  rcases binarySearchBy_spec hasc with ⟨i, he, hi, heq⟩ | ⟨i, he, hi, hlt, hgt⟩
  · rw [he]
    have hpair := pairwise_iff_getElem.mp h
    refine ⟨hi, fun j k hk hj => ?_, fun j k hk hj => ?_⟩
    · obtain ⟨hjl, rfl⟩ := List.getElem?_eq_some_iff.mp hk
      rcases Nat.lt_succ_iff_lt_or_eq.mp hj with hj | rfl
      · rw [lt_of_lt_of_eq (hpair j i hjl hi hj) heq]
        decide
      · rw [heq]
        decide
    · obtain ⟨hjl, rfl⟩ := List.getElem?_eq_some_iff.mp hk
      exact gt_of_gt_of_eq (Std.OrientedCmp.gt_of_lt (hpair i j hi hjl hj)) heq
  · rw [he]
    refine ⟨hi, fun j k hk hj => ?_, fun j k hk hj => ?_⟩
    · obtain ⟨hjl, rfl⟩ := List.getElem?_eq_some_iff.mp hk
      rw [hlt j hjl hj]
      decide
    · obtain ⟨hjl, rfl⟩ := List.getElem?_eq_some_iff.mp hk
      exact hgt j hjl hj

/-- What a filter leaves of a list that is kept on the left and dropped on the right. -/
theorem filter_split {α : Type} {p : α → Bool} {before after : List α} (mid : List α)
    (hb : ∀ k ∈ before, p k = true) (ha : ∀ k ∈ after, p k = false) :
    (before ++ (mid ++ after)).filter p = before ++ mid.filter p := by
  rw [filter_append, filter_append, filter_eq_self.mpr hb,
    filter_eq_nil_iff (l := after) |>.mpr fun k hk => by rw [ha k hk]; decide, append_nil]

theorem visitLeaf_eq (h : keys.Pairwise fun a b => a.cmp fl b = .lt) (key : FeerateTransactionKey)
    (accumulated : K) : visitLeaf fl key accumulated keys =
      some (accumulated + weightOf weight (keys.filter fun k => k.cmp fl key ≠ .gt)) := by
  obtain ⟨-, hleft, hright⟩ := searchInKeys_spec h key
  have hkeep : ∀ k ∈ keys.take (searchInKeys fl key keys), decide (k.cmp fl key ≠ .gt) = true := by
    intro k hk
    obtain ⟨j, hj, rfl⟩ := mem_take_iff_getElem.mp hk
    exact decide_eq_true (hleft j _ (getElem?_eq_getElem _) (by omega))
  have hdrop : ∀ k ∈ keys.drop (searchInKeys fl key keys), decide (k.cmp fl key ≠ .gt) = false := by
    intro k hk
    obtain ⟨j, hj, rfl⟩ := mem_drop_iff_getElem.mp hk
    exact decide_eq_false (not_not.mpr (hright _ _ (getElem?_eq_getElem _) (by omega)))
  have hsplit := filter_split [] hkeep hdrop
  rw [nil_append, take_append_drop, filter_nil, append_nil] at hsplit
  rw [hsplit]
  rfl

theorem descendVisit_eq {node : BPlusNode FeerateTransactionKey d} (h : node.Ordered (cmp fl))
    (key : FeerateTransactionKey) (accumulated : K) :
    node.descendVisit fromLeaf fromInner
        (visitInner fl key) (visitLeaf fl key) accumulated =
      some (accumulated + weightOf weight
        (node.keys.filter fun k => k.cmp fl key ≠ .gt)) := by
  induction d generalizing accumulated with
  | zero => exact visitLeaf_eq h key accumulated
  | succ d ih =>
    obtain ⟨seps, children⟩ := node
    obtain ⟨hle, hleft, hright⟩ := searchInKeys_spec h.2.1 key
    obtain ⟨c, hget, hc, hbefore, hafter⟩ := h.route hle hleft hright
    show (children[_]?).bind _ = _
    rw [hget]
    show c.descendVisit _ _ _ _ (accumulated + _) = _
    obtain ⟨hlt, rfl⟩ := List.getElem?_eq_some_iff.mp hget
    have hsplit : children.flatMap BPlusNode.keys =
        (children.take (searchInKeys fl key seps)).flatMap BPlusNode.keys ++
          (children[searchInKeys fl key seps].keys ++
            (children.drop (searchInKeys fl key seps + 1)).flatMap BPlusNode.keys) := by
      rw [← flatMap_cons, ← flatMap_append, ← drop_eq_getElem_cons, take_append_drop]
    rw [ih hc, ← map_take, sum_arguments]
    show _ = some (accumulated + weightOf _ (filter _ (children.flatMap BPlusNode.keys)))
    rw [hsplit, filter_split _ (fun k hk => decide_eq_true (by rw [hbefore k hk]; decide))
      (fun k hk => decide_eq_false (not_not.mpr (hafter k hk))), weightOf_append, add_assoc]

variable [LinearOrder K] [IsStrictOrderedRing K]
variable {query : K}

theorem leafLoop_eq (i : Nat) (sum : K) (h0 : 0 ≤ query - sum)
    (h : query - sum < weightOf weight keys) :
    ∃ j, leafLoop query i sum keys = some (i + j) ∧
      keys[j]? = pickAt weight (query - sum) keys := by
  induction keys generalizing i sum with
  | nil => exact absurd h h0.not_gt
  | cons k keys ih =>
    rw [leafLoop, pickAt]
    by_cases hq : query < sum + k.weight
    · exact ⟨0, if_pos hq, (if_pos (sub_lt_iff_lt_add'.mpr hq)).symm⟩
    · have hge : sum + k.weight ≤ query := not_lt.mp hq
      obtain ⟨j, hj, hget⟩ := ih (i + 1) (sum + k.weight) (sub_nonneg.mpr hge)
        (by rw [sub_add_eq_sub_sub]; exact sub_lt_iff_lt_add'.mpr h)
      refine ⟨j + 1, ?_, ?_⟩
      · rw [if_neg hq, hj, add_right_comm, add_assoc]
      · rw [if_neg (fun hlt => hq (sub_lt_iff_lt_add'.mp hlt)), getElem?_cons_succ, hget,
          sub_add_eq_sub_sub]

theorem locateInLeaf_eq (h0 : 0 ≤ query) (h : query < weightOf weight keys) :
    ((locateInLeaf query keys).bind fun i => keys[i]?) =
      pickAt weight query keys := by
  obtain ⟨j, hj, hget⟩ :=
    leafLoop_eq 0 (0 : K) ((sub_zero query).symm ▸ h0) ((sub_zero query).symm ▸ h)
  rw [sub_zero] at hget
  unfold locateInLeaf
  rw [hj, zero_add]
  exact hget

theorem innerLoop_eq {children : List (BPlusNode FeerateTransactionKey d)}
    (i : Nat) (h0 : 0 ≤ query) (h : query < weightOf weight (children.flatMap BPlusNode.keys)) :
    ∃ j c query', innerLoop i query (children.map (BPlusNode.argument fromLeaf fromInner)) =
          some (i + j, query') ∧ children[j]? = some c ∧ 0 ≤ query' ∧
      query' < weightOf weight c.keys ∧
      pickAt weight query (children.flatMap BPlusNode.keys) = pickAt weight query' c.keys := by
  induction children generalizing i query with
  | nil => exact absurd h h0.not_gt
  | cons c children ih =>
    rw [flatMap_cons, weightOf_append] at h
    rw [map_cons, innerLoop, argument_eq, flatMap_cons]
    by_cases hq : weightOf weight c.keys ≤ query
    · obtain ⟨j, c', query', hj, hget, h0', hlt, hpick⟩ :=
        ih (i + 1) (sub_nonneg.mpr hq) (sub_lt_iff_lt_add'.mpr h)
      refine ⟨j + 1, c', query', ?_, hget, h0', hlt, ?_⟩
      · rw [if_pos hq, hj, add_right_comm, add_assoc]
      · rw [pickAt_append_right weight_nonneg _ hq, hpick]
    · exact ⟨0, c, query, if_neg hq, rfl, h0, not_le.mp hq, pickAt_append_left _ h0 (not_le.mp hq)⟩

/-- The query goes to the key that it picks. -/
theorem getByArgument_eq (node : BPlusNode FeerateTransactionKey d) (h0 : 0 ≤ query)
    (h : query < weightOf weight node.keys) :
    node.getByArgument fromLeaf fromInner locateInLeaf
      locateInInner query = pickAt weight query node.keys := by
  induction d generalizing query with
  | zero => exact locateInLeaf_eq h0 h
  | succ d ih =>
    obtain ⟨keys, children⟩ := node
    obtain ⟨j, c, query', hj, hget, h0', hlt, hpick⟩ := innerLoop_eq 0 h0 h
    show (locateInInner query keys (children.map _)).bind _ = _
    unfold locateInInner
    rw [hj, zero_add]
    show children[j]?.bind _ = _
    rw [hget]
    exact (ih c h0' hlt).trans hpick.symm

end Refinement

namespace SearchTree

variable {K : Type} [Field K] {fl : Floats} (t : SearchTree fl)

theorem ascendingIter_pairwise : t.ascendingIter.Pairwise fun a b => a.cmp fl b = .lt :=
  t.ordered.pairwise

theorem totalWeight_eq : t.totalWeight = weightOf (weight (K := K)) t.ascendingIter :=
  argument_eq _

/-- **The prefix weight of a key** is the weight of the keys up to it. -/
theorem prefixWeight_eq {before after : List FeerateTransactionKey} {key : FeerateTransactionKey}
    (h : t.ascendingIter = before ++ key :: after) :
    t.prefixWeight key = some (weightOf (weight (K := K)) (before ++ [key])) := by
  have hpair := t.ascendingIter_pairwise
  rw [h] at hpair
  obtain ⟨-, hafter, hbefore⟩ := pairwise_append.mp hpair
  have hfilter : t.ascendingIter.filter (fun k => k.cmp fl key ≠ .gt) = before ++ [key] := by
    rw [h, show key :: after = [key] ++ after from rfl]
    refine (filter_split [key] (fun k hk => decide_eq_true ?_) fun k hk => decide_eq_false ?_).trans
      ?_
    · rw [hbefore k hk key mem_cons_self]
      decide
    · exact not_not.mpr (Std.OrientedCmp.gt_of_lt ((pairwise_cons.mp hafter).1 k hk))
    · rw [filter_eq_self.mpr]
      intro k hk
      have hself : key.cmp fl key = .eq := Std.ReflCmp.compare_self
      rw [mem_singleton.mp hk, hself]
      decide
  rw [prefixWeight, descendVisit_eq t.ordered, zero_add]
  exact congrArg (fun l => some (weightOf _ l)) hfilter

end SearchTree

end Sahyadri.Mining
