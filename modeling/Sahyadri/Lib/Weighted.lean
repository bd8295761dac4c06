import Mathlib.Algebra.Order.Group.Defs
import Mathlib.Algebra.Order.BigOperators.Group.List

/-!
# Lists of weighted elements, laid out side by side on a line

* `weightOf w l`: the length of the line.
-/

namespace Sahyadri.Lib

open List

variable {κ K : Type} [AddCommGroup K] {w : κ → K}

def weightOf (w : κ → K) (l : List κ) : K := (l.map w).sum

@[simp] theorem weightOf_nil : weightOf w [] = 0 := rfl

@[simp] theorem weightOf_cons (k : κ) (l : List κ) : weightOf w (k :: l) = w k + weightOf w l :=
  sum_cons

@[simp] theorem weightOf_append (l₁ l₂ : List κ) :
    weightOf w (l₁ ++ l₂) = weightOf w l₁ + weightOf w l₂ := by
  simp [weightOf, sum_append]

variable {l l₁ before after : List κ}

theorem weightOf_eq_zero (h : ∀ k ∈ l, w k = 0) : weightOf w l = 0 := sum_eq_zero fun x hx => by
    obtain ⟨k, hk, rfl⟩ := mem_map.mp hx
    exact h k hk

variable [LinearOrder K] [IsOrderedAddMonoid K] {k : κ}

theorem weightOf_nonneg (h : ∀ k, 0 ≤ w k) (l : List κ) : 0 ≤ weightOf w l :=
  sum_nonneg fun x hx => by
    obtain ⟨k, _, rfl⟩ := mem_map.mp hx
    exact h k

theorem le_weightOf (h : ∀ k, 0 ≤ w k) (hk : k ∈ l) : w k ≤ weightOf w l :=
  single_le_sum (fun x hx => by
    obtain ⟨k, _, rfl⟩ := mem_map.mp hx
    exact h k) _ (mem_map_of_mem hk)

/-- The first element up to which the weights exceed `q`. -/
def pickAt (w : κ → K) : K → List κ → Option κ
  | _, [] => none
  | q, k :: l => if q < w k then some k else pickAt w (q - w k) l

variable {q : K}

theorem pickAt_append_left (l₂ : List κ) (h0 : 0 ≤ q) (h : q < weightOf w l₁) :
    pickAt w q (l₁ ++ l₂) = pickAt w q l₁ := by
  induction l₁ generalizing q with
  | nil => exact absurd h h0.not_gt
  | cons k l ih =>
    rw [cons_append, pickAt, pickAt]
    by_cases hq : q < w k
    · rw [if_pos hq, if_pos hq]
    · rw [if_neg hq, if_neg hq]
      exact ih (sub_nonneg.mpr (not_lt.mp hq)) (sub_lt_iff_lt_add'.mpr h)

theorem pickAt_append_right (hw : ∀ k, 0 ≤ w k) (l₂ : List κ) (h : weightOf w l₁ ≤ q) :
    pickAt w q (l₁ ++ l₂) = pickAt w (q - weightOf w l₁) l₂ := by
  induction l₁ generalizing q with
  | nil => rw [weightOf_nil, sub_zero, nil_append]
  | cons k l ih =>
    have hk : w k ≤ q := (le_add_of_nonneg_right (weightOf_nonneg hw l)).trans h
    rw [cons_append, pickAt, if_neg hk.not_gt, ih (le_sub_iff_add_le'.mpr h), weightOf_cons,
      sub_add_eq_sub_sub]

/-- **A point of the line lies in the part of one element.** -/
theorem pickAt_spec (h0 : 0 ≤ q) (h : q < weightOf w l) :
    ∃ before k after, l = before ++ k :: after ∧ pickAt w q l = some k ∧
      weightOf w before ≤ q ∧ q < weightOf w before + w k := by
  induction l generalizing q with
  | nil => exact absurd h h0.not_gt
  | cons k l ih =>
    rw [pickAt]
    by_cases hq : q < w k
    · exact ⟨[], k, l, rfl, if_pos hq, h0, by rwa [weightOf_nil, zero_add]⟩
    · rw [if_neg hq]
      obtain ⟨before, k', after, rfl, hpick, hle, hlt⟩ :=
        ih (sub_nonneg.mpr (not_lt.mp hq)) (sub_lt_iff_lt_add'.mpr h)
      refine ⟨k :: before, k', after, rfl, hpick, ?_, ?_⟩
      · exact le_sub_iff_add_le'.mp hle
      · rw [weightOf_cons, add_assoc]
        exact sub_lt_iff_lt_add'.mp hlt

/-- A point in the part of an element picks it. -/
theorem pickAt_eq (hw : ∀ k, 0 ≤ w k) (hle : weightOf w before ≤ q)
    (hlt : q < weightOf w before + w k) : pickAt w q (before ++ k :: after) = some k := by
  rw [pickAt_append_right hw _ hle, pickAt, if_pos (sub_lt_iff_lt_add'.mpr hlt)]

end Sahyadri.Lib
