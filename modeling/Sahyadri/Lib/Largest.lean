import Mathlib.Data.List.Sort
import Mathlib.Data.List.Perm.Subperm
import Mathlib.Data.Set.Insert

/-!
# The largest elements of a set, in a heap of bounded size

A heap is the list of its elements from the least up; the key decides the order.

* `tryPush`: a full heap refuses what is below all of its elements. `pushMany`: pushes, up to the
  first that is refused if the caller asks for that. `mergeHeap`: two heaps joined.
-/

namespace Sahyadri.Lib

open List

section Heap

variable {β α : Type} [LinearOrder α] (key : β → α)

/-- An element takes its place in the order. -/
def heapPush (x : β) (W : List β) : List β := W.orderedInsert (fun a b => key a ≤ key b) x

/-- Pushes into a heap of at most `k` elements, and says whether it did. -/
def tryPush (k : Nat) (W : List β) (x : β) : List β × Bool :=
  if W.length = k then
    match W with
    | [] => (heapPush key x [], true)
    | least :: rest =>
      if key x < key least then (least :: rest, false) else (heapPush key x rest, true)
  else (heapPush key x W, true)

/-- Pushes all elements, or those before the first that is refused. -/
def pushMany (all : Bool) (k : Nat) : List β → List β → List β
  | W, [] => W
  | W, x :: l => if all || (tryPush key k W x).2 then pushMany all k (tryPush key k W x).1 l
      else (tryPush key k W x).1

/-- All elements of two heaps, without the least ones beyond `k`. -/
def mergeHeap (k : Nat) (W V : List β) : List β :=
  let all := V.foldl (fun W x => heapPush key x W) W
  all.drop (all.length - k)

/-- `W` has the `k` largest elements of `A`, or all of them if they are fewer. -/
structure Largest (k : Nat) (A : Set β) (W : List β) : Prop where
  sorted : W.Pairwise fun a b => key a < key b
  mem : ∀ x ∈ W, x ∈ A
  size : W.length ≤ k
  rest : ∀ x ∈ A, x ∉ W → W.length = k ∧ ∀ y ∈ W, key x < key y

variable {key} {k : Nat} {A B : Set β} {W V l : List β} {x : β}

@[simp] theorem mem_heapPush {y : β} : y ∈ heapPush key x W ↔ y = x ∨ y ∈ W := mem_orderedInsert _

@[simp] theorem length_heapPush : (heapPush key x W).length = W.length + 1 :=
  orderedInsert_length _ _ _

theorem heapPush_sorted (hW : W.Pairwise fun a b => key a < key b) (hx : ∀ y ∈ W, key y ≠ key x) :
    (heapPush key x W).Pairwise fun a b => key a < key b := by
  induction W with
  | nil => exact pairwise_singleton _ _
  | cons w W ih =>
    obtain ⟨hw, hW⟩ := pairwise_cons.mp hW
    have ih := ih hW fun y hy => hx y (mem_cons_of_mem _ hy)
    unfold heapPush orderedInsert
    split
    · grind
    · refine pairwise_cons.mpr ⟨fun y hy => ?_, ih⟩
      rcases mem_heapPush.mp hy with rfl | hy
      · exact not_le.mp ‹_›
      · exact hw y hy

theorem Largest.congr (h : Largest key k A W) (hA : ∀ x, x ∈ A ↔ x ∈ B) : Largest key k B W :=
  ⟨h.sorted, fun x hx => (hA x).mp (h.mem x hx), h.size, fun x hx => h.rest x ((hA x).mpr hx)⟩

theorem largest_empty : Largest key k (∅ : Set β) [] :=
  ⟨List.Pairwise.nil, forall_mem_nil _, Nat.zero_le _, fun _ hx => hx.elim⟩

theorem Largest.of_same (h : Largest key k A W) (hV : V.Pairwise fun a b => key a < key b)
    (hmem : ∀ x, x ∈ V ↔ x ∈ W) : Largest key k A V := by
  have hnd : ∀ {l : List β}, (l.Pairwise fun a b => key a < key b) → l.Nodup := fun h =>
    h.imp fun hlt he => absurd (congrArg key he) hlt.ne
  have heq : V = W := ((perm_ext_iff_of_nodup (hnd hV) (hnd h.sorted)).mpr hmem).eq_of_pairwise
    (fun a b _ _ hab hba => absurd (hab.trans hba) (lt_irrefl _)) hV h.sorted
  exact heq ▸ h

theorem Largest.skip (h : Largest key k A W) (hfull : W.length = k)
    (hB : ∀ b ∈ B, ∀ w ∈ W, key b < key w) : Largest key k (A ∪ B) W :=
  ⟨h.sorted, fun x hx => .inl (h.mem x hx), h.size, fun x hx hn =>
    hx.elim (fun ha => h.rest x ha hn) fun hb => ⟨hfull, hB x hb⟩⟩

/-- What is refused is below a full heap, which stays as it is. -/
theorem tryPush_refused (hW : W.Pairwise fun a b => key a < key b)
    (h : (tryPush key k W x).2 = false) :
    (tryPush key k W x).1 = W ∧ W.length = k ∧ ∀ w ∈ W, key x < key w := by
  unfold tryPush at h ⊢
  cases W with
  | nil => split at h <;> cases h
  | cons least rest =>
    obtain ⟨hleast, -⟩ := pairwise_cons.mp hW
    by_cases hfull : (least :: rest).length = k
    · by_cases hlt : key x < key least
      · simp only [if_pos hfull, if_pos hlt, true_and]
        exact ⟨hfull, forall_mem_cons.mpr ⟨hlt, fun w hw => hlt.trans (hleast w hw)⟩⟩
      · simp only [if_pos hfull, if_neg hlt, reduceCtorEq] at h
    · simp only [if_neg hfull, reduceCtorEq] at h

/-- **A push keeps the largest elements.** -/
theorem Largest.push (h : Largest key k A W) (hk : 0 < k) (hx : ∀ a ∈ A, key a ≠ key x) :
    Largest key k (insert x A) (tryPush key k W x).1 := by
  by_cases hdone : (tryPush key k W x).2 = true
  · unfold tryPush at hdone ⊢
    by_cases hfull : W.length = k
    · cases W with
      | nil => exact absurd hfull.symm (ne_of_gt hk)
      | cons least rest =>
        obtain ⟨hleast, hrest⟩ := pairwise_cons.mp h.sorted
        have hlt : ¬ key x < key least := fun hlt => by
          simp only [if_pos hfull, if_pos hlt, reduceCtorEq] at hdone
        have hlx : key least < key x :=
          lt_of_le_of_ne (not_lt.mp hlt) (hx least (h.mem least mem_cons_self))
        simp only [if_pos hfull, if_neg hlt]
        refine ⟨heapPush_sorted hrest fun y hy => hx y (h.mem y (mem_cons_of_mem _ hy)),
          fun y hy => ?_, ?_, fun y hy hn => ?_⟩
        · exact (mem_heapPush.mp hy).imp id fun hy => h.mem y (mem_cons_of_mem _ hy)
        · rw [length_heapPush]
          exact le_of_eq hfull
        · -- what is left out is the least element, or was left out before
          obtain ⟨hyx, hyr⟩ := not_or.mp (mt mem_heapPush.mpr hn)
          have hle : key y ≤ key least := by
            by_cases he : y = least
            · rw [he]
            · exact le_of_lt
                ((h.rest y (hy.resolve_left hyx) (by simp [he, hyr])).2 least mem_cons_self)
          refine ⟨by rw [length_heapPush]; exact hfull, fun z hz => lt_of_le_of_lt hle ?_⟩
          rcases mem_heapPush.mp hz with rfl | hz
          · exact hlx
          · exact hleast z hz
    · simp only [if_neg hfull]
      refine ⟨heapPush_sorted h.sorted fun y hy => hx y (h.mem y hy), fun y hy => ?_, ?_,
        fun y hy hn => ?_⟩
      · exact (mem_heapPush.mp hy).imp id (h.mem y)
      · rw [length_heapPush]
        exact lt_of_le_of_ne h.size hfull
      · obtain ⟨hyx, hyW⟩ := not_or.mp (mt mem_heapPush.mpr hn)
        exact absurd (h.rest y (hy.resolve_left hyx) hyW).1 hfull
  · obtain ⟨hsame, hfull, hbelow⟩ := tryPush_refused h.sorted (Bool.eq_false_iff.mpr hdone)
    rw [hsame, ← Set.union_singleton]
    exact h.skip hfull fun b hb w hw => Set.mem_singleton_iff.mp hb ▸ hbelow w hw

/-- **Pushes of elements in descending order** may end at the first that is refused. -/
theorem Largest.pushMany (all : Bool) (hk : 0 < k) :
    ∀ {l W : List β} {A : Set β}, Largest key k A W →
    (l.Pairwise fun a b => key b < key a) → (∀ a ∈ A, ∀ x ∈ l, key a ≠ key x) →
    Largest key k (A ∪ {x | x ∈ l}) (Lib.pushMany key all k W l)
  | [], _, _, h, _, _ => h.congr fun x => by simp
  | x :: l, W, A, h, hl, hA => by
    obtain ⟨hfirst, hl⟩ := pairwise_cons.mp hl
    unfold Lib.pushMany
    split
    · have hpush := h.push hk fun a ha => hA a ha x mem_cons_self
      refine (hpush.pushMany all hk hl fun a ha y hy => ?_).congr fun y => ?_
      · rcases ha with rfl | ha
        · exact (hfirst y hy).ne'
        · exact hA a ha y (mem_cons_of_mem _ hy)
      · simp [or_assoc, or_left_comm]
    · rename_i hstop
      rw [Bool.not_eq_true, Bool.or_eq_false_iff] at hstop
      obtain ⟨hsame, hfull, hbelow⟩ := tryPush_refused h.sorted hstop.2
      rw [hsame]
      exact h.skip hfull fun y hy w hw => (mem_cons.mp hy).elim (fun he => he ▸ hbelow w hw)
        fun hy => (hfirst y hy).trans (hbelow w hw)

theorem foldl_heapPush : ∀ {V W : List β}, (W.Pairwise fun a b => key a < key b) →
    (V.Pairwise fun a b => key a < key b) → (∀ w ∈ W, ∀ v ∈ V, key w ≠ key v) →
    ((V.foldl (fun W x => heapPush key x W) W).Pairwise fun a b => key a < key b) ∧
      ∀ y, y ∈ V.foldl (fun W x => heapPush key x W) W ↔ y ∈ W ∨ y ∈ V
  | [], W, hW, _, _ => ⟨hW, fun y => by simp⟩
  | v :: V, W, hW, hV, hne => by
    obtain ⟨hv, hV⟩ := pairwise_cons.mp hV
    obtain ⟨hsorted, hmem⟩ := foldl_heapPush
      (heapPush_sorted hW fun w hw => hne w hw v mem_cons_self) hV fun w hw u hu => by
        rcases mem_heapPush.mp hw with rfl | hw
        · exact (hv u hu).ne
        · exact hne w hw u (mem_cons_of_mem _ hu)
    exact ⟨hsorted, fun y => by rw [foldl_cons, hmem]; simp [or_assoc, or_left_comm]⟩

/-- **Two heaps joined** have the largest elements of both sets. -/
theorem Largest.merge (hW : Largest key k A W) (hV : Largest key k B V)
    (hAB : ∀ a ∈ A, ∀ b ∈ B, key a ≠ key b) : Largest key k (A ∪ B) (mergeHeap key k W V) := by
  obtain ⟨hsorted, hmem⟩ :=
    foldl_heapPush hW.sorted hV.sorted fun w hw v hv => hAB w (hW.mem w hw) v (hV.mem v hv)
  unfold mergeHeap
  dsimp only
  generalize V.foldl (fun W x => heapPush key x W) W = all at hsorted hmem
  have hsplit := take_append_drop (all.length - k) all
  have hlen := length_drop (i := all.length - k) (l := all)
  obtain ⟨-, htop, hbetween⟩ := pairwise_append.mp (hsplit.symm ▸ hsorted)
  have hnd : ∀ {l : List β}, (l.Pairwise fun a b => key a < key b) → l.Nodup := fun h =>
    h.imp fun hlt he => absurd (congrArg key he) hlt.ne
  -- `k` elements above `y` leave no room for one that is not
  have habove : ∀ {U : List β} {y : β}, (U.Pairwise fun a b => key a < key b) →
      (∀ u ∈ U, u ∈ all) → U.length = k → (∀ u ∈ U, key y < key u) →
      (all.drop (all.length - k)).length = k ∧ ∀ z ∈ all.drop (all.length - k), key y < key z := by
    intro U y hU hin hUk hy
    have hle := ((hnd hU).subperm hin).length_le
    refine ⟨by omega, fun z hz => ?_⟩
    by_contra hnot
    have hzU : ∀ u ∈ U, key z < key u := fun u hu => lt_of_le_of_lt (not_lt.mp hnot) (hy u hu)
    have hsub : ∀ u ∈ z :: U, u ∈ all.drop (all.length - k) := forall_mem_cons.mpr ⟨hz, fun u hu =>
      (mem_append.mp (hsplit.symm ▸ hin u hu)).resolve_left fun htake =>
        lt_asymm (hbetween u htake z hz) (hzU u hu)⟩
    have := ((nodup_cons.mpr ⟨fun hm => lt_irrefl _ (hzU z hm), hnd hU⟩).subperm hsub).length_le
    rw [length_cons] at this
    omega
  refine ⟨htop, fun x hx => ?_, by omega, fun x hx hn => ?_⟩
  · exact ((hmem x).mp (mem_of_mem_drop hx)).imp (hW.mem x) (hV.mem x)
  · by_cases hxall : x ∈ all
    · have htake : x ∈ all.take (all.length - k) :=
        (mem_append.mp (hsplit.symm ▸ hxall)).resolve_right hn
      have hpos := length_pos_of_mem htake
      rw [length_take] at hpos
      exact ⟨by omega, hbetween x htake⟩
    · obtain ⟨hxW, hxV⟩ := not_or.mp (mt (hmem x).mpr hxall)
      rcases hx with hx | hx
      · obtain ⟨hk, hlt⟩ := hW.rest x hx hxW
        exact habove hW.sorted (fun u hu => (hmem u).mpr (.inl hu)) hk hlt
      · obtain ⟨hk, hlt⟩ := hV.rest x hx hxV
        exact habove hV.sorted (fun u hu => (hmem u).mpr (.inr hu)) hk hlt

end Heap

end Sahyadri.Lib
