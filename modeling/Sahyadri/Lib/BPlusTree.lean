import Mathlib.Tactic.Common
import Mathlib.Data.List.Basic
import Mathlib.Order.Compare

/-!
# B+ trees whose nodes carry a summary of the keys below them

* `BPlusNode κ d`: a node `d` levels above the leaves. A leaf has keys; an inner node has children
  and, between any two of them, a separator.
-/

namespace Sahyadri.Lib

open List Std.OrientedCmp Std.TransCmp Ordering

/-- A node of a B+ tree, by its height. -/
def BPlusNode (κ : Type) : Nat → Type
  | 0 => List κ
  | d + 1 => List κ × List (BPlusNode κ d)

namespace BPlusNode

variable {κ A Q S R : Type} {d : Nat}

def keys : {d : Nat} → BPlusNode κ d → List κ
  | 0, l => l
  | _ + 1, t => t.2.flatMap keys

section Arguments

variable (fromLeaf : List κ → A) (fromInner : List κ → List A → A)

/-- The argument of a node, from the keys of a leaf or from the arguments of the children. -/
def argument : {d : Nat} → BPlusNode κ d → A
  | 0, l => fromLeaf l
  | _ + 1, t => fromInner t.1 (t.2.map argument)

/-- The way down to the key that a query locates. -/
def getByArgument (locateInLeaf : Q → List κ → Option Nat)
    (locateInInner : Q → List κ → List A → Option (Nat × Q)) :
    {d : Nat} → Q → BPlusNode κ d → Option κ
  | 0, q, (l : List κ) => (locateInLeaf q l).bind fun i => l[i]?
  | _ + 1, q, t =>
    (locateInInner q t.1 (t.2.map (argument fromLeaf fromInner))).bind fun (i, q') =>
      t.2[i]?.bind (getByArgument locateInLeaf locateInInner q')

/-- The way down of a visitor with a state. -/
def descendVisit (visitInner : S → List κ → List A → S × Nat) (visitLeaf : S → List κ → Option R) :
    {d : Nat} → S → BPlusNode κ d → Option R
  | 0, s, l => visitLeaf s l
  | _ + 1, s, t =>
    let (s', i) := visitInner s t.1 (t.2.map (argument fromLeaf fromInner))
    t.2[i]?.bind (descendVisit visitInner visitLeaf s')

end Arguments

/-- The keys of a leaf and the separators ascend; keys on the left of a separator are less than it,
    keys on the right are not. -/
def Ordered (cmp : κ → κ → Ordering) : {d : Nat} → BPlusNode κ d → Prop
  | 0, l => List.Pairwise (fun a b => cmp a b = .lt) l
  | _ + 1, t =>
    t.2.length = t.1.length + 1 ∧ t.1.Pairwise (fun a b => cmp a b = .lt) ∧
    (∀ c ∈ t.2, Ordered cmp c) ∧
    ∀ (i : Nat) (sep : κ), t.1[i]? = some sep → ∀ (j : Nat) c, t.2[j]? = some c → ∀ k ∈ keys c,
      if j ≤ i then cmp k sep = .lt else cmp k sep ≠ .lt

variable {cmp : κ → κ → Ordering} [Std.TransCmp cmp]

/-- **The child to go down to for a key**: on the left of it keys are less than the key, on the
    right of it they are greater. -/
theorem Ordered.route {t : BPlusNode κ (d + 1)} (h : Ordered cmp t) {x : κ} {i : Nat}
    (hi : i ≤ t.1.length) (hleft : ∀ (j : Nat) sep, t.1[j]? = some sep → j < i → cmp sep x ≠ .gt)
    (hright : ∀ (j : Nat) sep, t.1[j]? = some sep → i ≤ j → cmp sep x = .gt) :
    ∃ c, t.2[i]? = some c ∧ Ordered cmp c ∧ (∀ k ∈ (t.2.take i).flatMap keys, cmp k x = .lt) ∧
      ∀ k ∈ (t.2.drop (i + 1)).flatMap keys, cmp k x = .gt := by
  obtain ⟨hlen, -, hchild, hsep⟩ := h
  have hlt : i < t.2.length := by omega
  refine ⟨t.2[i], getElem?_eq_getElem hlt, hchild _ (getElem_mem hlt), fun k hk => ?_,
    fun k hk => ?_⟩
  · obtain ⟨c, hc, hk⟩ := mem_flatMap.mp hk
    obtain ⟨j, hj, rfl⟩ := mem_take_iff_getElem.mp hc
    have hji : j < i := by omega
    have hsepj := getElem?_eq_getElem (show j < t.1.length by omega)
    have hkj := hsep j _ hsepj j _ (getElem?_eq_getElem (by omega)) k hk
    rw [if_pos (Nat.le_refl j)] at hkj
    exact lt_of_lt_of_isLE hkj (isLE_iff_ne_gt.mpr (hleft j _ hsepj hji))
  · obtain ⟨c, hc, hk⟩ := mem_flatMap.mp hk
    obtain ⟨j, hj, rfl⟩ := mem_drop_iff_getElem.mp hc
    have hsepi := getElem?_eq_getElem (show i < t.1.length by omega)
    have hki := hsep i _ hsepi (i + 1 + j) _ (getElem?_eq_getElem (by omega)) k hk
    rw [if_neg (by omega)] at hki
    have hx : cmp x t.1[i] = .lt := lt_of_gt (hright i _ hsepi (Nat.le_refl i))
    have hle : (cmp t.1[i] k).isLE := isGE_iff_isLE.mp (isGE_iff_ne_lt.mpr hki)
    exact gt_of_lt (lt_of_lt_of_isLE hx hle)

theorem Ordered.pairwise :
    {d : Nat} → {t : BPlusNode κ d} → Ordered cmp t → (keys t).Pairwise fun a b => cmp a b = .lt
  | 0, _, h => h
  | _ + 1, t, h => by
    obtain ⟨hlen, -, hchild, hsep⟩ := h
    refine pairwise_flatMap.mpr ⟨fun c hc => (hchild c hc).pairwise, ?_⟩
    -- two children have a separator between them
    refine pairwise_iff_getElem.mpr fun i j hi hj hij x hx y hy => ?_
    have hsepi := getElem?_eq_getElem (show i < t.1.length by omega)
    have hxi := hsep i _ hsepi i _ (getElem?_eq_getElem hi) x hx
    have hyi := hsep i _ hsepi j _ (getElem?_eq_getElem hj) y hy
    rw [if_pos (Nat.le_refl i)] at hxi
    rw [if_neg (by omega)] at hyi
    exact lt_of_lt_of_isLE hxi (isGE_iff_isLE.mp (isGE_iff_ne_lt.mpr hyi))

end BPlusNode

end Sahyadri.Lib
