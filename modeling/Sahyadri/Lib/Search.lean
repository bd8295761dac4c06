import Mathlib.Tactic.Common
import Mathlib.Data.List.Basic

/-!
# Binary search in a slice, as the Rust standard library runs it

* `binarySearchBy f l`: the loop of `slice::binary_search_by`. The window is halved without an early
  exit; only the last element that is not `Greater` is compared once more.
-/

namespace Sahyadri.Lib

variable {α : Type}

/-! ## 1. The loop -/

/-- The loop: the window is the `size` elements from `base`. The fuel bounds the halvings. -/
def searchLoop (f : α → Ordering) (l : List α) : Nat → Nat → Nat → Nat
  | 0, base, _ => base
  | fuel + 1, base, size =>
    if size ≤ 1 then base
    else
      let half := size / 2
      let mid := base + half
      let base' := if l[mid]?.map f = some .gt then base else mid
      searchLoop f l fuel base' (size - half)

/-- `slice::binary_search_by`: `ok i` for a match, `error i` for the place to insert at. -/
def binarySearchBy (f : α → Ordering) (l : List α) : Except Nat Nat :=
  let base := searchLoop f l l.length 0 l.length
  match l[base]?.map f with
  | none => .error 0
  | some .eq => .ok base
  | some .lt => .error (base + 1)
  | some .gt => .error base

def partitionPoint (p : α → Bool) (l : List α) : Nat :=
  match binarySearchBy (fun a => if p a then .lt else .gt) l with
  | .ok i => i
  | .error i => i

/-! ## 2. What it finds -/

/-- Along the slice `f` answers first `Less`, then `Equal`, then `Greater`. -/
def Ascending (f : α → Ordering) (l : List α) : Prop :=
  l.Pairwise fun a b => (f a = .gt → f b = .gt) ∧ (f b = .lt → f a = .lt)

variable {f : α → Ordering} {l : List α} {i j : Nat}

theorem Ascending.gt (h : Ascending f l) (hi : i < l.length) (hj : j < l.length)
    (hij : i ≤ j) (hgt : f l[i] = .gt) : f l[j] = .gt := by
  rcases Nat.lt_or_eq_of_le hij with hlt | rfl
  · exact (List.pairwise_iff_getElem.mp h i j hi hj hlt).1 hgt
  · exact hgt

theorem Ascending.lt (h : Ascending f l) (hi : i < l.length) (hj : j < l.length)
    (hij : i ≤ j) (hlt : f l[j] = .lt) : f l[i] = .lt := by
  rcases Nat.lt_or_eq_of_le hij with hlt' | rfl
  · exact (List.pairwise_iff_getElem.mp h i j hi hj hlt').2 hlt
  · exact hlt

/-- Everything behind the window is `Greater`, and the window begins at 0 or at an element that is
    not `Greater`. -/
structure Window (f : α → Ordering) (l : List α) (base size : Nat) : Prop where
  pos : 0 < size
  le : base + size ≤ l.length
  above : ∀ j (hj : j < l.length), base + size ≤ j → f l[j] = .gt
  below : base = 0 ∨ ∃ hb : base < l.length, f l[base] ≠ .gt

theorem Window.searchLoop (h : Ascending f l) {fuel base size : Nat} (hf : size ≤ fuel + 1)
    (w : Window f l base size) : Window f l (searchLoop f l fuel base size) 1 := by
  induction fuel generalizing base size with
  | zero =>
    have := w.pos
    obtain rfl : size = 1 := by omega
    exact w
  | succ fuel ih =>
    have hle := w.le
    unfold Lib.searchLoop
    split
    · rename_i h1
      have := w.pos
      obtain rfl : size = 1 := by omega
      exact w
    · rename_i h1
      have hmid : base + size / 2 < l.length := by omega
      simp only [List.getElem?_eq_getElem hmid, Option.map_some, Option.some.injEq]
      apply ih (by omega)
      split
      · rename_i hgt
        refine ⟨by omega, by omega, fun j hj hle' => h.gt hmid hj (by omega) hgt, w.below⟩
      · rename_i hgt
        exact ⟨by omega, by omega, fun j hj hle' => w.above j hj (by omega), .inr ⟨hmid, hgt⟩⟩

/-- **The search finds a match, or the place for one.** -/
theorem binarySearchBy_spec (h : Ascending f l) :
    (∃ i, binarySearchBy f l = .ok i ∧ ∃ hi : i < l.length, f l[i] = .eq) ∨
    (∃ i, binarySearchBy f l = .error i ∧
      i ≤ l.length ∧ (∀ j (hj : j < l.length), j < i → f l[j] = .lt) ∧
      (∀ j (hj : j < l.length), i ≤ j → f l[j] = .gt)) := by
  rcases Nat.eq_zero_or_pos l.length with h0 | hpos
  · have hnil : l = [] := List.length_eq_zero_iff.mp h0
    subst hnil
    exact .inr ⟨0, rfl, Nat.le_refl _, by simp, by simp⟩
  · have w : Window f l (searchLoop f l l.length 0 l.length) 1 :=
      Window.searchLoop h (by omega) ⟨hpos, by omega, fun j hj hle => by omega, .inl rfl⟩
    unfold binarySearchBy
    generalize searchLoop f l l.length 0 l.length = base at w
    have hb : base < l.length := by have := w.le; omega
    simp only [List.getElem?_eq_getElem hb, Option.map_some]
    cases hc : f l[base] with
    | eq => exact .inl ⟨base, rfl, hb, hc⟩
    | lt =>
      exact .inr ⟨base + 1, rfl, by
        omega, fun j hj hlt => h.lt hj hb (by omega) hc, fun j hj hle => w.above j hj hle⟩
    | gt =>
      -- the window begins with `Greater` only at the start of the slice
      have h0 : base = 0 := w.below.resolve_right fun ⟨_, hne⟩ => hne hc
      subst h0
      exact .inr ⟨0, rfl, by omega, fun j hj hlt => by
        omega, fun j hj hle => h.gt hb hj (by omega) hc⟩

theorem partitionPoint_spec {p : α → Bool} (h : l.Pairwise fun a b => p b = true → p a = true) :
    partitionPoint p l ≤ l.length ∧ ∀ j (hj : j < l.length), p l[j] = true ↔
    j < partitionPoint p l := by
  have hasc : Ascending (fun a => if p a then .lt else .gt) l := by
    refine h.imp fun {a b} hab => ⟨fun ha => ?_, fun hb => ?_⟩
    · cases hpb : p b with
      | false => simp [hpb]
      | true => simp [hab hpb] at ha
    · cases hpb : p b with
      | false => simp [hpb] at hb
      | true => simp [hab hpb]
  unfold partitionPoint
  rcases binarySearchBy_spec hasc with ⟨i, -, hi, heq⟩ | ⟨i, hr, hle, hlt, hgt⟩
  · split at heq <;> cases heq
  · simp only [hr]
    refine ⟨hle, fun j hj => ⟨fun hp => ?_, fun hlt' => ?_⟩⟩
    · by_contra hn
      have := hgt j hj (by omega)
      simp [hp] at this
    · have := hlt j hj hlt'
      by_contra hn
      simp [hn] at this

end Sahyadri.Lib
