import Sahyadri.Lib.Outcome
import Mathlib.Data.List.AList
import Mathlib.Data.List.Induction
import Mathlib.Algebra.Ring.Nat
import Mathlib.Algebra.Order.BigOperators.Group.List
import Mathlib.Algebra.Order.Group.Nat
import Mathlib.Data.List.Perm.Subperm

/-!
# Hash maps with an unspecified iteration order, and tables laid over a base

* `Table κ ν`: a finite map as an association list without repeated keys (Mathlib's `AList`).
-/

namespace Sahyadri.Lib

open List AList Function

/-! ## 1. Finite maps -/

/-- A finite map. -/
abbrev Table (κ ν : Type) := AList (fun _ : κ => ν)

namespace Table

variable {κ ν : Type} (t : Table κ ν) (t : Table κ ν)

def pairs : List (κ × ν) := t.entries.map fun e => (e.1, e.2)

/-- `values_mut` with a change of every value. -/
def mapValues (f : ν → ν) (t : Table κ ν) : Table κ ν :=
  ⟨t.entries.map (Sigma.map id fun _ => f), List.NodupKeys.map₂ (fun _ => f) t.entries t.nodupKeys⟩

theorem map_fst_pairs : t.pairs.map Prod.fst = t.keys := by
  simp [pairs, AList.keys, List.keys]

variable [DecidableEq κ]
variable {t t' : Table κ ν} {k q : κ} {v w : ν} {α : Type}

theorem mem_pairs : (k, v) ∈ t.pairs ↔ t.lookup k = some v := by
  rw [← Option.mem_def, mem_lookup_iff, pairs, mem_map]
  constructor
  · rintro ⟨⟨a, b⟩, hm, he⟩
    cases he
    exact hm
  · intro hm
    exact ⟨⟨k, v⟩, hm, rfl⟩

theorem lookup_mapValues (f : ν → ν) (t : Table κ ν) (k : κ) :
    (t.mapValues f).lookup k = (t.lookup k).map f := dlookup_map₂ k

/-- Entries written one after the other; the values written at `k` are all `v`. -/
theorem lookup_foldl_insert {key : α → κ} {val : α → ν} {l : List α}
    (h : ∀ a ∈ l, key a = k → val a = v) :
    ∀ t : Table κ ν, (l.foldl (fun t a => t.insert (key a) (val a)) t).lookup k =
        if k ∈ l.map key then some v else t.lookup k := by
  induction l with
  | nil => exact fun _ => rfl
  | cons a l ih =>
    intro t
    rw [foldl_cons, ih fun a' ha' => h a' (mem_cons_of_mem _ ha'), map_cons]
    by_cases hl : k ∈ l.map key
    · rw [if_pos hl, if_pos (mem_cons_of_mem _ hl)]
    · rw [if_neg hl]
      by_cases hk : key a = k
      · subst hk
        rw [if_pos mem_cons_self, lookup_insert, h a mem_cons_self rfl]
      · rw [if_neg (not_mem_cons_of_ne_of_not_mem (Ne.symm hk) hl), lookup_insert_ne (Ne.symm hk)]

/-- The table of a list of entries; the last entry of a key counts. -/
def ofList (l : List (κ × ν)) : Table κ ν := l.foldl (fun t e => t.insert e.1 e.2) ∅

theorem lookup_ofList_concat (l : List (κ × ν)) (e : κ × ν) (k : κ) :
    (ofList (l ++ [e])).lookup k = if k = e.1 then some e.2 else (ofList l).lookup k := by
  rw [ofList, foldl_append, foldl_cons, foldl_nil]
  by_cases h : k = e.1
  · rw [h, if_pos rfl, lookup_insert]
  · rw [if_neg h, lookup_insert_ne h]
    rfl

variable {l : List (κ × ν)} {base : κ → ν}

theorem mem_of_lookup_ofList (h : (ofList l).lookup k = some v) : (k, v) ∈ l := by
  induction l using reverseRecOn with
  | nil => cases h
  | append_singleton l e ih =>
    rw [lookup_ofList_concat] at h
    by_cases hk : k = e.1
    · rw [if_pos hk] at h
      cases h
      rw [hk]
      exact mem_append_right _ mem_cons_self
    · rw [if_neg hk] at h
      exact mem_append_left _ (ih h)

theorem exists_lookup_ofList (h : k ∈ l.map Prod.fst) : ∃ v, (ofList l).lookup k = some v := by
  induction l using reverseRecOn with
  | nil => exact absurd h not_mem_nil
  | append_singleton l e ih =>
    rw [lookup_ofList_concat]
    by_cases hk : k = e.1
    · exact ⟨e.2, if_pos hk⟩
    · rw [if_neg hk]
      rw [map_append, mem_append] at h
      exact ih (h.resolve_right fun he => hk (mem_singleton.mp he))

theorem lookup_ofList_iff (h : (l.map Prod.fst).Nodup) :
    (ofList l).lookup k = some v ↔ (k, v) ∈ l := by
  refine ⟨mem_of_lookup_ofList, fun hin => ?_⟩
  obtain ⟨w, hw⟩ := exists_lookup_ofList (mem_map_of_mem hin)
  cases inj_on_of_nodup_map h (mem_of_lookup_ofList hw) hin rfl
  exact hw

theorem lookup_ofList_map {μ : Type} (f : μ → ν) (l : List (κ × μ)) (k : κ) :
    (ofList (l.map fun e => (e.1, f e.2))).lookup k = ((ofList l).lookup k).map f := by
  induction l using reverseRecOn with
  | nil => rfl
  | append_singleton l e ih =>
    rw [map_append, map_cons, map_nil, lookup_ofList_concat, lookup_ofList_concat, ih]
    split <;> rfl

/-- The entries of a table in another order make the same table. -/
theorem lookup_ofList_perm (h : l.Perm t.pairs) (k : κ) : (ofList l).lookup k = t.lookup k := by
  cases hk : (ofList l).lookup k with
  | some v => exact (mem_pairs.mp (h.mem_iff.mp (mem_of_lookup_ofList hk))).symm
  | none =>
    cases ht : t.lookup k with
    | none => rfl
    | some v =>
      have hm : k ∈ l.map Prod.fst := mem_map_of_mem (h.mem_iff.mpr (mem_pairs.mpr ht))
      obtain ⟨w, hw⟩ := exists_lookup_ofList hm
      cases hk.symm.trans hw

/-- `get_mut(k).unwrap()` and a change of the value found there. -/
def getMut {ε : Type} (k : κ) (f : ν → ν) : Run ε (Table κ ν) :=
  match t.lookup k with
  | some v => .ok (t.insert k (f v))
  | none => .panicked

/-- `get_mut(k)` and a change of the value found there, if there is one. -/
def modify (k : κ) (f : ν → ν) : Table κ ν :=
  match t.lookup k with
  | some v => t.insert k (f v)
  | none => t

theorem lookup_insert_eq_some :
    (t.insert k v).lookup q = some w ↔ (q = k ∧ v = w) ∨ (q ≠ k ∧ t.lookup q = some w) := by
  by_cases hq : q = k
  · subst hq
    simp
  · simp [lookup_insert_ne hq, hq]

theorem lookup_erase_eq_some : (t.erase k).lookup q = some w ↔ q ≠ k ∧ t.lookup q = some w := by
  by_cases hq : q = k
  · subst hq
    simp
  · simp [lookup_erase_ne hq, hq]

theorem lookup_foldl_erase (f : α → κ) : ∀ (l : List α) (t : Table κ ν),
    (l.foldl (fun t a => t.erase (f a)) t).lookup k = if k ∈ l.map f then none else t.lookup k
  | [], t => by simp
  | a :: l, t => by
    rw [foldl_cons, lookup_foldl_erase f l, map_cons]
    by_cases hk : k = f a
    · rw [hk, lookup_erase, ite_self, if_pos mem_cons_self]
    · simp only [lookup_erase_ne hk, mem_cons, hk, false_or]

theorem lookup_modify (k : κ) (f : ν → ν) (q : κ) :
    (t.modify k f).lookup q = if q = k then (t.lookup k).map f else t.lookup q := by
  unfold modify
  cases h : t.lookup k with
  | none =>
    by_cases hq : q = k
    · rw [if_pos hq, hq, h]
      rfl
    · rw [if_neg hq]
  | some v =>
    by_cases hq : q = k
    · rw [if_pos hq, hq, lookup_insert]
      rfl
    · rw [if_neg hq, lookup_insert_ne hq]

/-- `retain`, by the value. -/
def retain (p : ν → Bool) (t : Table κ ν) : Table κ ν :=
  ⟨t.entries.filter fun e => p e.2, t.nodupKeys.sublist filter_sublist⟩

theorem lookup_retain {p : ν → Bool} :
    (t.retain p).lookup k = some v ↔ t.lookup k = some v ∧ p v = true := by
  rw [← Option.mem_def, ← Option.mem_def, mem_lookup_iff, mem_lookup_iff]
  exact mem_filter

/-! ## 2. Tables over a base -/

/-- The table's value, or the base's where the table has none. -/
def view (base : κ → ν) (t : Table κ ν) (k : κ) : ν := (t.lookup k).getD (base k)

theorem view_of_lookup (h : t.lookup k = some v) : view base t k = v := by
  rw [view, h, Option.getD_some]

theorem view_insert (base : κ → ν) (t : Table κ ν) (k : κ) (v : ν) :
    view base (t.insert k v) = update (view base t) k v := by
  funext q
  by_cases h : q = k
  · subst h
    rw [view, lookup_insert, Option.getD_some, update_self]
  · rw [view, lookup_insert_ne h, update_of_ne h, view]

/-- Filling in the base's own value changes nothing that is seen. -/
theorem view_fill (h : k ∉ t) : view base (t.insert k (base k)) = view base t := by
  rw [view_insert]
  refine update_eq_self_iff.mpr ?_
  rw [view, lookup_eq_none.mpr h, Option.getD_none]

theorem getMut_of_mem {ε : Type} (h : k ∈ t) (base : κ → ν) (f : ν → ν) :
    (t.getMut k f : Run ε (Table κ ν)) = .ok (t.insert k (f (view base t k))) := by
  obtain ⟨v, hv⟩ := Option.isSome_iff_exists.mp (lookup_isSome.mpr h)
  rw [getMut, hv, view_of_lookup hv]

/-! ## 3. Sums over a table -/

def total {κ ν : Type} (f : ν → Nat) (t : Table κ ν) : Nat := (t.entries.map fun e => f e.2).sum

variable {f g : ν → Nat}

theorem total_eq_add_erase (h : t.lookup k = some v) : total f t = f v + total f (t.erase k) := by
  obtain ⟨entries, hnd⟩ := t
  change dlookup k entries = some v at h
  change (entries.map fun e => f e.2).sum = f v + ((entries.kerase k).map fun e => f e.2).sum
  clear hnd
  induction entries with
  | nil => cases h
  | cons e entries ih =>
    obtain ⟨k', v'⟩ := e
    by_cases hk : k = k'
    · subst hk
      rw [dlookup_cons_eq, Option.some.injEq] at h
      subst h
      have herase : kerase k (⟨k, v'⟩ :: entries) = entries := kerase_cons_eq rfl
      rw [herase, map_cons, sum_cons]
    · rw [dlookup_cons_ne _ _ hk] at h
      rw [kerase_cons_ne hk, map_cons, map_cons, sum_cons, sum_cons, ih h]
      omega

theorem le_total (h : t.lookup k = some v) : f v ≤ total f t := by
  rw [total_eq_add_erase h]
  omega

theorem total_insert (f : ν → Nat) (t : Table κ ν) (k : κ) (v : ν) :
    total f (t.insert k v) = f v + total f (t.erase k) := rfl

theorem total_insert_new (h : k ∉ t) (v : ν) : total f (t.insert k v) = f v + total f t := by
  rw [total_insert]
  congr 2
  apply ext
  exact kerase_of_notMem_keys h

theorem total_replace (h : t.lookup k = some v) (w : ν) :
    total f (t.insert k w) + f v = total f t + f w := by
  rw [total_insert, total_eq_add_erase h]
  omega

theorem exists_pos_of_total_pos (h : 0 < total f t) : ∃ k v, t.lookup k = some v ∧ 0 < f v := by
  by_contra hn
  push Not at hn
  have hz : total f t = 0 := by
    refine List.sum_eq_zero_iff_forall_eq_nat.mpr ?_
    rintro n hn'
    obtain ⟨⟨k, v⟩, he, rfl⟩ := mem_map.mp hn'
    exact Nat.le_zero.mp (hn k v (mem_lookup_iff.mpr he))
  omega

theorem total_mono (h : ∀ k v, t'.lookup k = some v → t.lookup k = some v) :
    total f t' ≤ total f t := by
  have hsub : t'.entries.Subperm t.entries := List.Nodup.subperm t'.nodupKeys.nodup fun e he =>
    mem_lookup_iff.mp (h e.1 e.2 (mem_lookup_iff.mpr he))
  obtain ⟨l, hl, hle⟩ := hsub
  have hsum : (l.map fun e => f e.2).sum = total f t' := (hl.map fun e => f e.2).sum_nat
  rw [← hsum]
  exact (hle.map fun e => f e.2).sum_le_sum fun _ _ => Nat.zero_le _

theorem total_le_total (h : ∀ k v, t'.lookup k = some v → t.lookup k = some v ∧ f v ≤ g v) :
    total f t' ≤ total g t := by
  have hfg : total f t' ≤ total g t' := sum_le_sum fun e he => (h e.1 e.2 (mem_lookup_iff.mpr he)).2
  exact hfg.trans (total_mono fun k v hk => (h k v hk).1)

theorem total_congr (h : ∀ k, t'.lookup k = t.lookup k) : total f t' = total f t :=
  le_antisymm (total_mono fun k _ hk => h k ▸ hk) (total_mono fun k _ hk => (h k).symm ▸ hk)

theorem total_add_le : ∀ {l : List (κ × ν)} {t : Table κ ν},
    (l.map Prod.fst).Nodup → (∀ e ∈ l, t.lookup e.1 = some e.2 ∧ e.1 ∉ t') →
      (∀ k v, t'.lookup k = some v → t.lookup k = some v) →
      total f t' + (l.map fun e => f e.2).sum ≤ total f t
  | [], _, _, _, hsub => total_mono hsub
  | e :: l, t, hnd, hl, hsub => by
    obtain ⟨hnot, hnd⟩ := nodup_cons.mp hnd
    obtain ⟨he, hout⟩ := hl e mem_cons_self
    have hne : ∀ {k}, k ≠ e.1 → (t.erase e.1).lookup k = t.lookup k := fun hk => lookup_erase_ne hk
    have hrest : total f t' + (l.map fun e => f e.2).sum ≤ total f (t.erase e.1) := by
      refine total_add_le hnd (fun e' he' => ?_) fun k v hk => ?_
      · have hk : e'.1 ≠ e.1 := fun hk => hnot (hk ▸ mem_map_of_mem he')
        rw [hne hk]
        exact hl e' (mem_cons_of_mem _ he')
      · have hk' : k ≠ e.1 := fun hk' => hout (hk' ▸ lookup_isSome.mp (hk ▸ rfl))
        rw [hne hk']
        exact hsub k v hk
    rw [total_eq_add_erase he, map_cons, sum_cons]
    omega

omit [DecidableEq κ] in
theorem length_eq_total : t.entries.length = total (fun _ => 1) t := by
  unfold total
  rw [map_const', sum_replicate_nat, mul_one]

end Table

/-- An iteration lists the entries of a map in some order. -/
structure IterOrder (κ ν : Type) where
  order : List (κ × ν) → List (κ × ν)
  perm : ∀ l, (order l).Perm l

/-- Every order of a list is the order of some iteration. -/
theorem IterOrder.exists_of_perm {κ ν : Type} {l entries : List (κ × ν)} (h : l.Perm entries) :
    ∃ ord : IterOrder κ ν, ord.order entries = l := by
  classical
  refine ⟨⟨fun m => if m = entries then l else m, fun m => ?_⟩, if_pos rfl⟩
  split
  · rename_i he
    exact he ▸ h
  · exact .refl m

def IterOrder.asListed (κ ν : Type) : IterOrder κ ν := ⟨id, fun _ => .refl _⟩

def IterOrder.reversed (κ ν : Type) : IterOrder κ ν := ⟨List.reverse, reverse_perm⟩

/-! ## 4. Stores addressed by content

A store is a list of pairs of a hash and a value, newest first. -/

variable {κ α : Type}

/-- Every value is filed under its hash. -/
def Keyed (hash : α → κ) (l : List (κ × α)) : Prop := ∀ e ∈ l, e.1 = hash e.2

def filed (hash : α → κ) (vs : List α) : List (κ × α) := vs.map fun v => (hash v, v)

theorem keyed_filed (hash : α → κ) (vs : List α) : Keyed hash (filed hash vs) := by
  intro e he
  obtain ⟨v, _, rfl⟩ := mem_map.mp he
  rfl

variable {l l' : List (κ × α)} {hash : α → κ}

theorem keyed_append : Keyed hash (l ++ l') ↔ Keyed hash l ∧ Keyed hash l' := by
  simp only [Keyed, mem_append, or_imp, forall_and]

theorem keyed_reverse : Keyed hash l.reverse ↔ Keyed hash l := by
  simp only [Keyed, mem_reverse]

variable [BEq κ] [LawfulBEq κ] {v : α}

theorem mem_of_lookup {h : κ} (hl : l.lookup h = some v) : (h, v) ∈ l := by
  obtain ⟨l₁, l₂, rfl, _⟩ := lookup_eq_some_iff.mp hl
  exact mem_append_right _ mem_cons_self

theorem exists_lookup {e : κ × α} (he : e ∈ l) : ∃ v, l.lookup e.1 = some v := by
  cases hl : l.lookup e.1 with
  | some v => exact ⟨v, rfl⟩
  | none =>
    have := lookup_eq_none_iff.mp hl e he
    simp at this

theorem Keyed.hash_of_lookup (hk : Keyed hash l) {h : κ} (hl : l.lookup h = some v) : hash v = h :=
  (hk _ (mem_of_lookup hl)).symm

/-- **A value that was found is found again**, or one with its hash. -/
theorem Keyed.lookup_append (hk : Keyed hash (l ++ l')) {h : κ} (hl : l'.lookup h = some v) :
    ∃ v', (l ++ l').lookup h = some v' ∧ hash v' = hash v := by
  obtain ⟨v', hv'⟩ := exists_lookup (mem_append_right l (mem_of_lookup hl))
  refine ⟨v', hv', (hk.hash_of_lookup hv').trans ?_⟩
  exact ((keyed_append.mp hk).2.hash_of_lookup hl).symm

end Sahyadri.Lib
