import Mathlib.Data.Finset.Card
import Mathlib.Data.Finset.Lattice.Lemmas
import Mathlib.Data.List.Sublists

/-!
# Sets in which nobody has more than `k` strangers, built greedily

`A x y` says that `x` and `y` are strangers to each other.

* `strangers A S x`: those of `S`; `KCluster A k S`: at most `k` for every member.
-/

namespace Sahyadri.Lib

open Classical List Finset

section Cluster

variable {β : Type} [DecidableEq β] (A : β → β → Prop)

noncomputable def strangers (S : Finset β) (x : β) : Finset β := S.filter (A x)

/-- Nobody has more than `k` strangers. -/
def KCluster (k : Nat) (S : Finset β) : Prop := ∀ x ∈ S, (strangers A S x).card ≤ k

variable {A} {k : Nat} {S : Finset β} {c x : β}

omit [DecidableEq β] in
theorem mem_strangers {y : β} : y ∈ strangers A S x ↔ y ∈ S ∧ A x y := mem_filter

theorem strangers_insert_self (hirr : ¬ A c c) : strangers A (insert c S) c = strangers A S c := by
  unfold strangers
  rw [filter_insert, if_neg hirr]

theorem strangers_insert_of_not (h : ¬ A x c) : strangers A (insert c S) x = strangers A S x := by
  unfold strangers
  rw [filter_insert, if_neg h]

theorem card_strangers_insert (hc : c ∉ S) (h : A x c) :
    (strangers A (insert c S) x).card = (strangers A S x).card + 1 := by
  unfold strangers
  rw [filter_insert, if_pos h, card_insert_of_notMem]
  exact fun hm => hc (mem_filter.mp hm).1

/-- **When a new member is admissible.** -/
theorem kCluster_insert_iff (hsymm : ∀ {x y}, A x y → A y x) (hirr : ¬ A c c)
    (hc : c ∉ S) (hS : KCluster A k S) : KCluster A k (insert c S) ↔ (strangers A S c).card ≤ k ∧
      ∀ x ∈ strangers A S c, (strangers A S x).card < k := by
  constructor
  · intro h
    refine ⟨?_, fun x hx => ?_⟩
    · have := h c (mem_insert_self _ _)
      rwa [strangers_insert_self hirr] at this
    · obtain ⟨hxS, hcx⟩ := mem_strangers.mp hx
      have := h x (mem_insert_of_mem hxS)
      rw [card_strangers_insert hc (hsymm hcx)] at this
      omega
  · rintro ⟨hself, hothers⟩ x hx
    rcases mem_insert.mp hx with rfl | hx
    · rwa [strangers_insert_self hirr]
    · by_cases hxc : A x c
      · rw [card_strangers_insert hc hxc]
        exact hothers x (mem_strangers.mpr ⟨hx, hsymm hxc⟩)
      · rw [strangers_insert_of_not hxc]
        exact hS x hx

variable (A k)

/-- Those of a list that are taken. -/
noncomputable def greedy : Finset β → List β → List β
  | _, [] => []
  | S, c :: cs => if KCluster A k (insert c S) then c :: greedy (insert c S) cs else greedy S cs

variable {A k} {cs : List β}

theorem greedy_cons_of (h : KCluster A k (insert c S)) :
    greedy A k S (c :: cs) = c :: greedy A k (insert c S) cs := if_pos h

theorem greedy_cons_not (h : ¬ KCluster A k (insert c S)) :
    greedy A k S (c :: cs) = greedy A k S cs := if_neg h

theorem greedy_sublist (cs : List β) : ∀ S : Finset β, (greedy A k S cs).Sublist cs := by
  induction cs with
  | nil => exact fun _ => .slnil
  | cons c cs ih =>
    intro S
    by_cases h : KCluster A k (insert c S)
    · rw [greedy_cons_of h]
      exact (ih _).cons_cons c
    · rw [greedy_cons_not h]
      exact (ih _).cons c

theorem greedy_append (cs ds : List β) : ∀ S : Finset β, greedy A k S (cs ++ ds) =
      greedy A k S cs ++ greedy A k (S ∪ (greedy A k S cs).toFinset) ds := by
  induction cs with
  | nil =>
    intro S
    rw [nil_append, greedy, toFinset_nil, union_empty, nil_append]
  | cons c cs ih =>
    intro S
    rw [cons_append]
    by_cases h : KCluster A k (insert c S)
    · rw [greedy_cons_of h, greedy_cons_of h, ih, toFinset_cons, union_insert, ← insert_union,
        cons_append]
    · rw [greedy_cons_not h, greedy_cons_not h, ih]

/-- **One of the list is taken exactly when it is admissible at its turn**: together with those
    taken before it. -/
theorem mem_greedy_iff {pre post : List β} (hnd : (pre ++ c :: post).Nodup) :
    c ∈ greedy A k S (pre ++ c :: post) ↔ KCluster A k
      (insert c (S ∪ ((greedy A k S (pre ++ c :: post)).filter (· ∈ pre)).toFinset)) := by
  obtain ⟨hpre, hpost, hdis⟩ := nodup_append.mp hnd
  have hcpre : c ∉ pre := fun h => hdis c h c mem_cons_self rfl
  have hcpost : c ∉ post := (nodup_cons.mp hpost).1
  -- what is taken before `c` is what is taken of `pre`
  have hbefore : (greedy A k S (pre ++ c :: post)).filter (· ∈ pre) = greedy A k S pre := by
    rw [greedy_append, filter_append, filter_eq_self.mpr fun y hy =>
      decide_eq_true ((greedy_sublist pre S).subset hy), filter_eq_nil_iff.mpr, append_nil]
    intro y hy
    simp only [decide_eq_true_eq]
    exact fun hyp => hdis y hyp y ((greedy_sublist (c :: post) _).subset hy) rfl
  rw [hbefore, greedy_append, mem_append]
  have hnot : c ∉ greedy A k S pre := fun h => hcpre ((greedy_sublist pre S).subset h)
  rw [or_iff_right hnot]
  by_cases h : KCluster A k (insert c (S ∪ (greedy A k S pre).toFinset))
  · rw [greedy_cons_of h]
    exact iff_of_true mem_cons_self h
  · rw [greedy_cons_not h]
    exact iff_of_false (fun hm => hcpost ((greedy_sublist post _).subset hm)) h

end Cluster

end Sahyadri.Lib
