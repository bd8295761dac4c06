import Sahyadri.Lib.Outcome
import Mathlib.Data.List.Chain

/-!
# Run-length encoding with cumulative counts

* `expandRle prev runs`: a run `(cum, x)` stands for `x` at the places from the previous count up to
  `cum`. The expansion panics unless the counts grow strictly.
-/

namespace Sahyadri.Lib

open List

variable {ε α : Type}

/-! ## 1. Expansion -/

/-- `expand_rle` from the count `prev` on: `checked_sub` and the filter fail together. -/
def expandRle (prev : Nat) : List (Nat × α) → Run ε (List α)
  | [] => .ok []
  | (cum, x) :: runs =>
    if cum ≤ prev then .panicked
    else do
      let rest ← expandRle cum runs
      .ok (List.replicate (cum - prev) x ++ rest)

def expand (prev : Nat) : List (Nat × α) → List α
  | [] => []
  | (cum, x) :: runs => List.replicate (cum - prev) x ++ expand cum runs

/-- The counts grow strictly, from `prev` on. -/
def Grows (prev : Nat) (runs : List (Nat × α)) : Prop := (prev :: runs.map Prod.fst).IsChain (· < ·)

instance (prev : Nat) (runs : List (Nat × α)) : Decidable (Grows prev runs) :=
  inferInstanceAs (Decidable (List.IsChain _ _))

@[simp] theorem grows_nil (prev : Nat) : Grows prev ([] : List (Nat × α)) := .singleton _

variable {runs : List (Nat × α)} {prev cum i j n : Nat} {x : α}

@[simp] theorem grows_cons : Grows prev ((cum, x) :: runs) ↔ prev < cum ∧ Grows cum runs := by
  simp [Grows]

/-- The last count, `prev` if there is none. -/
def lastCount (prev : Nat) (runs : List (Nat × α)) : Nat := (runs.getLast?.map Prod.fst).getD prev

@[simp] theorem lastCount_nil (prev : Nat) : lastCount prev ([] : List (Nat × α)) = prev := rfl

@[simp] theorem lastCount_cons (prev cum : Nat) (x : α) (runs : List (Nat × α)) :
    lastCount prev ((cum, x) :: runs) = lastCount cum runs := by
  cases runs with
  | nil => rfl
  | cons r runs => simp [lastCount, getLast?_eq_some_getLast]

theorem Grows.le_lastCount (h : Grows prev runs) : prev ≤ lastCount prev runs := by
  induction runs generalizing prev with
  | nil => exact le_refl _
  | cons r runs ih =>
    obtain ⟨h1, h2⟩ := grows_cons.mp h
    rw [lastCount_cons]
    exact le_trans (le_of_lt h1) (ih h2)

theorem Grows.mem_le (h : Grows prev runs) {r : Nat × α} (hr : r ∈ runs) :
    r.1 ≤ lastCount prev runs := by
  induction runs generalizing prev with
  | nil => cases hr
  | cons s runs ih =>
    obtain ⟨-, h2⟩ := grows_cons.mp h
    rw [lastCount_cons]
    rcases mem_cons.mp hr with rfl | hmem
    · exact h2.le_lastCount
    · exact ih h2 hmem

theorem expandRle_of_grows (h : Grows prev runs) :
    (expandRle prev runs : Run ε (List α)) = .ok (expand prev runs) := by
  induction runs generalizing prev with
  | nil => rfl
  | cons r runs ih =>
    obtain ⟨h1, h2⟩ := grows_cons.mp h
    rw [expandRle, if_neg (by omega), ih h2]
    rfl

theorem expandRle_of_not_grows (h : ¬ Grows prev runs) :
    (expandRle prev runs : Run ε (List α)) = .panicked := by
  induction runs generalizing prev with
  | nil => exact absurd (grows_nil prev) h
  | cons r runs ih =>
    rw [expandRle]
    split
    · rfl
    · rename_i hlt
      rw [ih fun h2 => h (grows_cons.mpr ⟨by omega, h2⟩)]
      rfl

theorem lastCount_concat (prev cum : Nat) (x : α) (runs : List (Nat × α)) :
    lastCount prev (runs ++ [(cum, x)]) = cum := by
  rw [lastCount, getLast?_concat]
  rfl

theorem grows_concat :
    Grows prev (runs ++ [(cum, x)]) ↔ Grows prev runs ∧ lastCount prev runs < cum := by
  induction runs generalizing prev with
  | nil => simp
  | cons r runs ih =>
    obtain ⟨c, y⟩ := r
    simp [ih, and_assoc]

theorem expand_concat (prev cum : Nat) (x : α) (runs : List (Nat × α)) : expand prev
      (runs ++ [(cum, x)]) = expand prev runs ++ List.replicate (cum - lastCount prev runs) x := by
  induction runs generalizing prev with
  | nil => simp [expand]
  | cons r runs ih =>
    obtain ⟨c, y⟩ := r
    simp [expand, ih]

theorem length_expand (h : Grows prev runs) :
    (expand prev runs).length = lastCount prev runs - prev := by
  induction runs generalizing prev with
  | nil => simp [expand]
  | cons r runs ih =>
    obtain ⟨h1, h2⟩ := grows_cons.mp h
    have := h2.le_lastCount
    rw [expand, length_append, length_replicate, ih h2, lastCount_cons]
    omega

/-- The element at a place is that of the first run whose count is beyond it. -/
theorem getElem?_expand (h : Grows prev runs) (hj : j < runs.length) (hin : prev + i < (runs[j]).1)
    (hout : ∀ k (hk : k < j), (runs[k]).1 ≤ prev + i) :
    (expand prev runs)[i]? = some (runs[j]).2 := by
  induction runs generalizing prev i j with
  | nil => simp at hj
  | cons r runs ih =>
    obtain ⟨cum, x⟩ := r
    obtain ⟨h1, h2⟩ := grows_cons.mp h
    cases j with
    | zero =>
      simp only [getElem_cons_zero] at hin ⊢
      have hi : i < (replicate (cum - prev) x).length := by
        rw [length_replicate]
        omega
      rw [expand, getElem?_append_left hi, getElem?_replicate, if_pos (by omega)]
    | succ j =>
      have hcum := hout 0 (by omega)
      simp only [getElem_cons_zero] at hcum
      simp only [getElem_cons_succ] at hin ⊢
      have hlen : (replicate (cum - prev) x).length ≤ i := by
        rw [length_replicate]
        omega
      rw [expand, getElem?_append_right hlen, length_replicate]
      refine ih h2 (by simpa using hj) (by omega) fun k hk => ?_
      have := hout (k + 1) (by omega)
      simp only [getElem_cons_succ] at this
      omega

/-! ## 2. Compression -/

variable [DecidableEq α] (xs : List α)

/-- `dedup_with_count` with the run `(n, x)` open. -/
def dedupFrom (n : Nat) (x : α) : List α → List (Nat × α)
  | [] => [(n, x)]
  | y :: ys => if x = y then dedupFrom (n + 1) x ys else (n, x) :: dedupFrom 1 y ys

def dedupWithCount : List α → List (Nat × α)
  | [] => []
  | x :: xs => dedupFrom 1 x xs

def cumulate {α : Type} (cumulative : Nat) : List (Nat × α) → List (Nat × α)
  | [] => []
  | (count, x) :: runs => (cumulative + count, x) :: cumulate (cumulative + count) runs

def rleCumulative (xs : List α) : List (Nat × α) := cumulate 0 (dedupWithCount xs)

theorem grows_cumulate_dedupFrom (hn : 0 < n) (x : α) (xs : List α) :
    Grows prev (cumulate prev (dedupFrom n x xs)) := by
  induction xs generalizing prev n x with
  | nil => simp [dedupFrom, cumulate, hn]
  | cons y ys ih =>
    rw [dedupFrom]
    split
    · exact ih (by omega) x
    · exact grows_cons.mpr ⟨by omega, ih (by omega) y⟩

theorem grows_rleCumulative : Grows 0 (rleCumulative xs) := by
  cases xs with
  | nil => exact grows_nil 0
  | cons x xs => exact grows_cumulate_dedupFrom Nat.one_pos x xs

theorem expand_cumulate_dedupFrom (prev n : Nat) (x : α) (xs : List α) :
    expand prev (cumulate prev (dedupFrom n x xs)) = List.replicate n x ++ xs := by
  induction xs generalizing prev n x with
  | nil => simp [dedupFrom, cumulate, expand]
  | cons y ys ih =>
    rw [dedupFrom]
    split
    · rename_i hxy
      subst hxy
      rw [ih, replicate_succ', append_assoc, singleton_append]
    · rw [cumulate, expand, ih, Nat.add_sub_cancel_left, replicate_one, singleton_append]

/-- **What is compressed expands again.** -/
theorem expand_rleCumulative : expand 0 (rleCumulative xs) = xs := by
  cases xs with
  | nil => rfl
  | cons x xs =>
    rw [rleCumulative, dedupWithCount, expand_cumulate_dedupFrom, replicate_one, singleton_append]

/-- Neighbouring runs hold different values. -/
def Distinct {α : Type} (runs : List (Nat × α)) : Prop := runs.IsChain fun r s => r.2 ≠ s.2

theorem dedupFrom_replicate (n m : Nat) (x : α) (xs : List α) :
    dedupFrom n x (List.replicate m x ++ xs) = dedupFrom (n + m) x xs := by
  induction m generalizing n with
  | zero => rfl
  | succ m ih =>
    rw [replicate_succ, cons_append, dedupFrom, if_pos rfl, ih]
    congr 1
    omega

theorem cumulate_dedupFrom_expand (h : Grows prev ((cum, x) :: runs))
    (hd : Distinct ((cum, x) :: runs)) :
    cumulate prev (dedupFrom (cum - prev) x (expand cum runs)) = (cum, x) :: runs := by
  obtain ⟨h1, h2⟩ := grows_cons.mp h
  have hsum : prev + (cum - prev) = cum := by omega
  induction runs generalizing prev cum x with
  | nil => simp [expand, dedupFrom, cumulate, hsum]
  | cons r runs ih =>
    obtain ⟨cum', y⟩ := r
    obtain ⟨h3, h4⟩ := grows_cons.mp h2
    obtain ⟨hne, hd'⟩ := isChain_cons_cons.mp hd
    -- the next run is not empty: one element of it closes the open one
    obtain ⟨m, hm⟩ : ∃ m, cum' - cum = m + 1 := ⟨cum' - cum - 1, by omega⟩
    rw [expand, hm, replicate_succ, cons_append, dedupFrom, if_neg hne, cumulate, hsum,
      dedupFrom_replicate, Nat.add_comm 1 m, ← hm, ih h2 hd' h3 h4 (by omega)]

/-- **What is expanded compresses to the same runs**, if no two neighbours could be merged. -/
theorem rleCumulative_expand (h : Grows 0 runs) (hd : Distinct runs) :
    rleCumulative (expand 0 runs) = runs := by
  cases runs with
  | nil => rfl
  | cons r runs =>
    obtain ⟨cum, x⟩ := r
    obtain ⟨h1, -⟩ := grows_cons.mp h
    obtain ⟨m, rfl⟩ : ∃ m, cum = m + 1 := ⟨cum - 1, by omega⟩
    rw [expand, Nat.sub_zero, replicate_succ, cons_append, rleCumulative, dedupWithCount,
      dedupFrom_replicate, Nat.add_comm 1 m]
    exact cumulate_dedupFrom_expand h hd

theorem lastCount_rleCumulative : lastCount 0 (rleCumulative xs) = xs.length := by
  have h := length_expand (grows_rleCumulative xs)
  rw [expand_rleCumulative] at h
  exact h.symm

end Sahyadri.Lib
