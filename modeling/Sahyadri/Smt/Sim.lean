import Sahyadri.Lib.Table
import Sahyadri.Smt.Tree
import Mathlib.Data.Set.Basic

/-!
# Stores that answer alike run alike, and the record of the nodes a run puts

* `StoreSim N M R`: related stores give the same answers, and stay related when the same node is put
  into both. The writers then give the same outcome on both (`updateMany_sim`), and so does `get`
  (`get_sim`).
-/

namespace Sahyadri.Smt

open Lib Action

/-! ## 1. Simulation -/

/-- Stores related by `R` answer alike and stay related. -/
structure StoreSim {S T : Type} (N : NodeStore S) (M : NodeStore T) (R : S → T → Prop) : Prop where
  get : ∀ {s t}, R s t → ∀ h, N.get s h = M.get t h
  put_fst : ∀ {s t}, R s t → ∀ n, (N.put s n).1 = (M.put t n).1
  put_snd : ∀ {s t}, R s t → ∀ n, R (N.put s n).2 (M.put t n).2

section NoPanic

variable {S : Type} (N : NodeStore S)

/-- A bit is only read on a level of the tree. -/
theorem bit_noPanic {ε : Type} (k : H256) {i : Nat} (hi : i < treeDepth) :
    (bit k i : Run ε UInt8).NoPanic := by
  have hlt : i / 8 < k.bytes.length := by rw [k.length_eq]; unfold treeDepth at hi; omega
  rw [bit, List.getElem?_eq_getElem hlt]
  exact .ok _

theorem fetch_noPanic (s : S) (h : H256) : (N.fetch s h).NoPanic := by
  unfold NodeStore.fetch
  cases N.get s h with
  | none => exact .fail _
  | some n => exact .ok n

/-- **`get` does not panic**: it stops below the last level. -/
theorem get_noPanic (s : S) (root key : H256) : (get N s root key).NoPanic := by
  have loop : ∀ n cur depth, treeDepth - depth = n → (getLoop N s key cur depth).NoPanic := by
    intro n
    induction n using Nat.strong_induction_on with
    | _ n ih =>
      intro cur depth hn
      rw [getLoop.eq_def]
      split
      · exact .ok _
      refine (fetch_noPanic N s cur).bind fun node _ => ?_
      cases node with
      | leaf k v => exact .ok _
      | branch left right =>
        dsimp only
        split
        · exact .fail _
        exact (bit_noPanic key (by omega)).bind fun b _ => ih _ (by omega) _ _ rfl
  exact loop _ root 0 rfl

end NoPanic

section Sim

variable {S T : Type} {N : NodeStore S} {M : NodeStore T} {R : S → T → Prop} (H : StoreSim N M R)

include H

theorem fetch_sim {s : S} {t : T} (hR : R s t) (h : H256) : N.fetch s h = M.fetch t h := by
  unfold NodeStore.fetch
  rw [H.get hR]

theorem putNode_alike (n : Node) : Alike R (N.putNode n) (M.putNode n) :=
  ⟨fun _ _ hR => ⟨congrArg Except.ok (H.put_fst hR n), H.put_snd hR n⟩, fun _ => .ok _⟩

theorem isLeaf_alike (h : H256) :
    Alike R (.lift fun s => isLeaf N s h) (.lift fun t => isLeaf M t h) := by
  refine .lift (fun s t hR => ?_) fun s => (fetch_noPanic N s h).bind fun n _ => by
    cases n <;> exact .ok _
  unfold isLeaf
  rw [fetch_sim H hR]

theorem normalize_alike (l r : H256) : Alike R (normalize N l r) (normalize M l r) := by
  unfold normalize
  split
  · exact .pure _
  split
  · refine .bind (isLeaf_alike H l) fun b => ?_
    split
    · exact .pure _
    · exact putNode_alike H _
  split
  · refine .bind (isLeaf_alike H r) fun b => ?_
    split
    · exact .pure _
    · exact putNode_alike H _
  · exact putNode_alike H _

theorem split_alike (depth : Nat) (ka va kb vb : H256) :
    Alike R (split N depth ka va kb vb) (split M depth ka va kb vb) := by
  induction hn : treeDepth - depth generalizing depth with
  | zero =>
    have hd : depth ≥ treeDepth := by omega
    rw [split.eq_def N, split.eq_def M, if_pos hd, if_pos hd]
    exact .lift (fun _ _ _ => rfl) fun _ => .fail _
  | succ n ih =>
    have hd : ¬ depth ≥ treeDepth := by omega
    rw [split.eq_def N, split.eq_def M, if_neg hd, if_neg hd]
    refine .bind (.lift (fun _ _ _ => rfl) fun _ => bit_noPanic ka (by omega)) fun ba => ?_
    refine .bind (.lift (fun _ _ _ => rfl) fun _ => bit_noPanic kb (by omega)) fun bb => ?_
    split
    · refine .bind (putNode_alike H _) fun ha => .bind (putNode_alike H _) fun hb => ?_
      split <;> exact putNode_alike H _
    · refine .bind (ih (depth + 1) (by omega)) fun child => ?_
      split <;> exact putNode_alike H _

theorem updateAt_alike (nodeHash : H256) (depth : Nat) (key : H256) (value : Option H256) :
    Alike R (updateAt N nodeHash depth key value) (updateAt M nodeHash depth key value) := by
  induction hn : treeDepth - depth using Nat.strong_induction_on generalizing depth nodeHash with
  | _ n ih =>
    rw [updateAt.eq_def N, updateAt.eq_def M]
    split
    · cases value with
      | none => exact .pure _
      | some v => exact putNode_alike H _
    refine .bind (.lift (fun _ _ hR => fetch_sim H hR _) fun s => fetch_noPanic N s _)
      fun node => ?_
    cases node with
    | leaf k v =>
      dsimp only
      split
      · cases value with
        | none => exact .pure _
        | some nv => exact putNode_alike H _
      · cases value with
        | none => exact .pure _
        | some nv => exact split_alike H _ _ _ _ _
    | branch left right =>
      dsimp only
      split
      · exact .lift (fun _ _ _ => rfl) fun _ => .fail _
      refine .bind (.lift (fun _ _ _ => rfl) fun _ => bit_noPanic key (by omega)) fun b => ?_
      split
      · exact .bind (ih _ (by omega) _ _ rfl) fun l => normalize_alike H _ _
      · exact .bind (ih _ (by omega) _ _ rfl) fun r => normalize_alike H _ _

/-- **Stores that answer alike run alike**, and no writer panics. -/
theorem updateMany_alike (root : H256) (changes : Changes) :
    Alike R (updateMany N root changes) (updateMany M root changes) := by
  induction changes generalizing root with
  | nil => exact .pure _
  | cons c changes ih => exact .bind (updateAt_alike H _ _ _ _) fun r => ih r

theorem updateMany_sim (root : H256) (changes : Changes) :
    Rel R (updateMany N root changes) (updateMany M root changes) :=
  (updateMany_alike H root changes).1

theorem get_sim {s : S} {t : T} (hR : R s t) (root key : H256) :
    get N s root key = get M t root key := by
  have loop : ∀ n cur depth, treeDepth - depth = n →
      getLoop N s key cur depth = getLoop M t key cur depth := by
    intro n
    induction n using Nat.strong_induction_on with
    | _ n ih =>
      intro cur depth hn
      rw [getLoop.eq_def N, getLoop.eq_def M, fetch_sim H hR]
      split
      · rfl
      refine congrArg (M.fetch t cur >>= ·) (funext fun node => ?_)
      cases node with
      | leaf k v => rfl
      | branch left right =>
        dsimp only
        split
        · rfl
        exact congrArg (bit key depth >>= ·) (funext fun b => ih _ (by omega) _ _ rfl)
  exact loop _ root 0 rfl

end Sim

theorem updateMany_noPanic {S : Type} (N : NodeStore S) (root : H256) (changes : Changes) :
    (updateMany N root changes).NoPanic :=
  (updateMany_alike (M := N) (R := Eq)
    ⟨fun h _ => h ▸ rfl, fun h _ => h ▸ rfl, fun h _ => h ▸ rfl⟩ root changes).2

/-! ## 2. The record of a run -/

/-- A store with the log of the nodes put, newest first. -/
structure Recorded (S : Type) where
  inner : S
  log : List Node

/-- The store `N`, keeping a log. -/
def recorded {S : Type} (N : NodeStore S) : NodeStore (Recorded S) where
  get r h := N.get r.inner h
  put r n := ((N.put r.inner n).1, ⟨(N.put r.inner n).2, n :: r.log⟩)

section Record

variable {S : Type} (N : NodeStore S)

theorem recorded_sim : StoreSim (recorded N) N fun r s => r.inner = s where
  get h _ := by rw [← h]; rfl
  put_fst h _ := by rw [← h]; rfl
  put_snd h _ := by rw [← h]; rfl

/-- What was in the log before does not matter. -/
theorem recorded_log_sim (l : List Node) : StoreSim (recorded N) (recorded N)
    fun r t => r.inner = t.inner ∧ r.log = t.log ++ l where
  get h _ := by simp only [recorded, h.1]
  put_fst h _ := by simp only [recorded, h.1]
  put_snd h _ := by simp [recorded, h.1, h.2]

/-- The log of an action only grows, if the action does not look at it. -/
theorem log_mono {ε α : Type} {x : Action (Recorded S) ε α}
    (hx : ∀ l, Rel (fun r t : Recorded S => r.inner = t.inner ∧ r.log = t.log ++ l) x x)
    (s : Recorded S) : s.log ⊆ (x s).2.log := by
  have h := (hx s.log s ⟨s.inner, []⟩ ⟨rfl, rfl⟩).2.2
  rw [h]
  exact List.subset_append_right _ _

/-- The nodes put by `changes` applied to `root` on the store `s`, newest first. -/
def putsOf (s : S) (root : H256) (changes : Changes) : List Node :=
  (updateMany (recorded N) root changes ⟨s, []⟩).2.log

end Record

variable (σ : Sponge)

/-- On a memory store, what is stored is the record and what was there before. -/
theorem recorded_mem_sim (base : NodeMap) :
    StoreSim (recorded (memStore σ)) (recorded (memStore σ)) fun r t =>
      r = t ∧ r.inner.nodes = filed (Node.hash σ) r.log ++ base where
  get h _ := by rw [h.1]
  put_fst h _ := by rw [h.1]
  put_snd h n := by
    obtain ⟨rfl, h⟩ := h
    refine ⟨rfl, ?_⟩
    show (n.hash σ, n) :: _ = _
    rw [h]
    rfl

theorem updateMany_mem_nodes (s : MemStore) (root : H256) (changes : Changes) :
    (updateMany (memStore σ) root changes s).2.nodes =
      filed (Node.hash σ) (putsOf (memStore σ) s root changes) ++ s.nodes := by
  have h1 := updateMany_sim (recorded_sim (memStore σ)) root changes ⟨s, []⟩ s rfl
  have h2 := updateMany_sim (recorded_mem_sim σ s.nodes) root changes ⟨s, []⟩ ⟨s, []⟩ ⟨rfl, rfl⟩
  rw [← h1.2, h2.2.2]
  rfl

/-- An overlay over `base` runs as a memory store that starts with `base`. -/
theorem overlay_mem_sim (base : NodeMap) :
    StoreSim (overlayStore σ fun (base : NodeMap) h => base.lookup h) (memStore σ) fun o m =>
      o.base = base ∧ m.nodes = o.pending ++ base where
  get {o m} h hash := by
    show (o.pending.lookup hash).or (o.base.lookup hash) = m.nodes.lookup hash
    rw [h.1, h.2, List.lookup_append]
  put_fst _ _ := rfl
  put_snd {o m} h n := by
    refine ⟨h.1, ?_⟩
    show (n.hash σ, n) :: m.nodes = (n.hash σ, n) :: o.pending ++ base
    rw [h.2]
    rfl

end Sahyadri.Smt
