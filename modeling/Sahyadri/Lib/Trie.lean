import Mathlib.Tactic.Common
import Mathlib.Data.List.Basic

/-!
# Compressed binary tries over keys that are told apart by finitely many bits

A key is read as a path of bits (`Keying`). A subtrie that holds one entry is that entry's leaf, a
subtrie that holds none is `empty`, and everything else branches on the next bit.

* `lookup`, `update`: the walk along a key's bits, and the change of one entry. `update` is built
  from `pair` (two entries where one stood) and `join` (a branch that collapses when fewer than two
  entries are left below it).
-/

namespace Sahyadri.Lib

open List

/-- Keys as bit paths: `depth` bits tell any two keys apart. -/
structure Keying (κ : Type) where
  bit : κ → Nat → Bool
  depth : Nat
  separates : ∀ a b, (∀ i < depth, bit a i = bit b i) → a = b

/-- A compressed binary trie. -/
inductive Trie (κ ν : Type) where
  | empty
  | leaf (k : κ) (v : ν)
  | branch (l r : Trie κ ν)
  deriving DecidableEq, Repr

namespace Trie

variable {κ ν : Type} [DecidableEq κ] (K : Keying κ)

/-- The entries from left to right. -/
def toList : Trie κ ν → List (κ × ν)
  | .empty => []
  | .leaf k v => [(k, v)]
  | .branch l r => l.toList ++ r.toList

/-- The value of `q` in the subtrie `t` at depth `d`. -/
def lookup : Nat → Trie κ ν → κ → Option ν
  | _, .empty, _ => none
  | _, .leaf k v, q => if k = q then some v else none
  | d, .branch l r, q => if K.bit q d then lookup (d + 1) r q else lookup (d + 1) l q

/-- A branch, collapsed when it holds at most one entry. -/
def join : Trie κ ν → Trie κ ν → Trie κ ν
  | .empty, .empty => .empty
  | .leaf k v, .empty => .leaf k v
  | .empty, .leaf k v => .leaf k v
  | l, r => .branch l r

/-- Two entries under one subtrie at depth `d`, with `n` levels left below it. -/
def pair : Nat → Nat → κ → ν → κ → ν → Trie κ ν
  | 0, _, _, _, _, _ => .empty
  | n + 1, d, ka, va, kb, vb =>
    if K.bit ka d = K.bit kb d then
      if K.bit ka d then .branch .empty (pair n (d + 1) ka va kb vb)
      else .branch (pair n (d + 1) ka va kb vb) .empty
    else if K.bit ka d then .branch (.leaf kb vb) (.leaf ka va)
    else .branch (.leaf ka va) (.leaf kb vb)

/-- Set (`some`) or remove (`none`) the entry of `k` in the subtrie at depth `d`. -/
def update : Nat → Trie κ ν → κ → Option ν → Trie κ ν
  | _, .empty, k, some v => .leaf k v
  | _, .empty, _, none => .empty
  | d, .leaf k' v', k, val =>
    if k' = k then
      match val with
      | some v => .leaf k' v
      | none => .empty
    else
      match val with
      | some v => pair K (K.depth - d) d k' v' k v
      | none => .leaf k' v'
  | d, .branch l r, k, val =>
    if K.bit k d then join l (update (d + 1) r k val) else join (update (d + 1) l k val) r

/-- The shape invariant of the subtrie at depth `d`. -/
def Canon : Nat → Trie κ ν → Prop
  | _, .empty => True
  | _, .leaf _ _ => True
  | d, .branch l r =>
    Canon (d + 1) l ∧ Canon (d + 1) r ∧ (∀ p ∈ l.toList, K.bit p.1 d = false) ∧
      (∀ p ∈ r.toList, K.bit p.1 d = true) ∧ 2 ≤ l.toList.length + r.toList.length

/-- Every key of `t` starts with the first `d` bits of `k`. -/
def Under (d : Nat) (k : κ) (t : Trie κ ν) : Prop :=
  ∀ p ∈ t.toList, ∀ i < d, K.bit p.1 i = K.bit k i

variable {K}

omit [DecidableEq κ] in
theorem under_zero (k : κ) (t : Trie κ ν) : Under K 0 k t :=
  fun _ _ _ hi => absurd hi (Nat.not_lt_zero _)

variable {l r t u : Trie κ ν} {d : Nat} {k q ka kb k' : κ}

omit [DecidableEq κ] in
theorem agree_succ (hag : ∀ i < d, K.bit ka i = K.bit kb i) (hb : K.bit ka d = K.bit kb d) :
    ∀ i < d + 1, K.bit ka i = K.bit kb i := by
  intro i hi
  rcases Nat.lt_succ_iff_lt_or_eq.mp hi with h | rfl
  · exact hag i h
  · exact hb

omit [DecidableEq κ] in
theorem Under.right (h : Under K d k (.branch l r))
    (hc : Canon K d (.branch l r)) (hb : K.bit k d = true) : Under K (d + 1) k r :=
  fun p hp => agree_succ (h p (mem_append_right _ hp)) ((hc.2.2.2.1 p hp).trans hb.symm)

omit [DecidableEq κ] in
theorem Under.left (h : Under K d k (.branch l r)) (hc : Canon K d (.branch l r))
    (hb : ¬ K.bit k d = true) : Under K (d + 1) k l := fun p hp =>
  agree_succ (h p (mem_append_left _ hp)) ((hc.2.2.1 p hp).trans (Bool.eq_false_iff.mpr hb).symm)

/-! ## 1. Lookups and entries -/

variable {v : ν} {b : Bool}

theorem mem_of_lookup : ∀ {d : Nat} {t : Trie κ ν}, lookup K d t q = some v → (q, v) ∈ t.toList
  | _, .empty, h => by simp [lookup] at h
  | _, .leaf k w, h => by
    simp only [lookup] at h
    split at h
    · rename_i hk
      cases h
      subst hk
      simp [toList]
    · cases h
  | d, .branch l r, h => by
    simp only [lookup] at h
    split at h
    · exact mem_append_right _ (mem_of_lookup h)
    · exact mem_append_left _ (mem_of_lookup h)

theorem lookup_of_mem :
    ∀ {d : Nat} {t : Trie κ ν}, Canon K d t → (q, v) ∈ t.toList → lookup K d t q = some v
  | _, .empty, _, h => by simp [toList] at h
  | _, .leaf k w, _, h => by
    simp only [toList, mem_singleton, Prod.mk.injEq] at h
    obtain ⟨rfl, rfl⟩ := h
    simp [lookup]
  | d, .branch l r, ⟨hcl, hcr, hl, hr, _⟩, h => by
    simp only [toList, mem_append] at h
    rcases h with h | h
    · have hb : K.bit q d = false := hl _ h
      simp [lookup, hb, lookup_of_mem hcl h]
    · have hb : K.bit q d = true := hr _ h
      simp [lookup, hb, lookup_of_mem hcr h]

theorem lookup_eq_some_iff (h : Canon K d t) : lookup K d t q = some v ↔ (q, v) ∈ t.toList :=
  ⟨mem_of_lookup, lookup_of_mem h⟩

theorem lookup_side_none (ht : ∀ p ∈ t.toList, K.bit p.1 d = b) (hq : K.bit q d ≠ b) (e : Nat) :
    lookup K e t q = none :=
  Option.eq_none_iff_forall_ne_some.mpr fun _ h => hq (ht _ (mem_of_lookup h))

omit [DecidableEq κ] in
theorem exists_two_keys : ∀ {d : Nat} {t : Trie κ ν}, Canon K d t → 2 ≤ t.toList.length →
    ∃ p ∈ t.toList, ∃ q ∈ t.toList, p.1 ≠ q.1
  | _, .empty, _, h => by simp [toList] at h
  | _, .leaf _ _, _, h => by simp [toList] at h
  | d, .branch l r, ⟨hcl, hcr, hl, hr, _⟩, h => by
    by_cases h1 : 2 ≤ l.toList.length
    · obtain ⟨p, hp, q, hq, hne⟩ := exists_two_keys hcl h1
      exact ⟨p, mem_append_left _ hp, q, mem_append_left _ hq, hne⟩
    by_cases h2 : 2 ≤ r.toList.length
    · obtain ⟨p, hp, q, hq, hne⟩ := exists_two_keys hcr h2
      exact ⟨p, mem_append_right _ hp, q, mem_append_right _ hq, hne⟩
    obtain ⟨p, hp⟩ := exists_mem_of_length_pos (l := l.toList) (by omega)
    obtain ⟨q, hq⟩ := exists_mem_of_length_pos (l := r.toList) (by omega)
    refine ⟨p, mem_append_left _ hp, q, mem_append_right _ hq, fun he => ?_⟩
    have h1 := hl p hp
    rw [he, hr q hq] at h1
    cases h1

omit [DecidableEq κ] in
/-- A canonical branch under a prefix sits above the last level. -/
theorem Canon.depth_lt (h : Canon K d (.branch l r)) (hu : Under K d k (.branch l r)) :
    d < K.depth := by
  obtain ⟨p, hp, q, hq, hne⟩ := exists_two_keys h (by simpa [toList] using h.2.2.2.2)
  refine Nat.lt_of_not_le fun hd => hne (K.separates _ _ fun i hi => ?_)
  rw [hu p hp i (by omega), hu q hq i (by omega)]

/-! ## 2. `join` and `pair` -/

omit [DecidableEq κ] in
@[simp] theorem toList_join (l r : Trie κ ν) : (join l r).toList = l.toList ++ r.toList := by
  cases l <;> cases r <;> rfl

theorem lookup_join (hl : ∀ p ∈ l.toList, K.bit p.1 d = false)
    (hr : ∀ p ∈ r.toList, K.bit p.1 d = true) (q : κ) :
    lookup K d (join l r) q = if K.bit q d then lookup K (d + 1) r q else lookup K (d + 1) l q := by
  rcases l with _ | ⟨k, v⟩ | ⟨l₁, l₂⟩ <;> rcases r with _ | ⟨k', v'⟩ | ⟨r₁, r₂⟩ <;>
    simp only [join, lookup, ite_self]
  · -- only a leaf on the right: a key going left is not its key
    have hb : K.bit k' d = true := hr (k', v') (by simp [toList])
    by_cases hk : k' = q
    · subst hk; simp [hb]
    · simp [hk]
  · have hb : K.bit k d = false := hl (k, v) (by simp [toList])
    by_cases hk : k = q
    · subst hk; simp [hb]
    · simp [hk]

omit [DecidableEq κ] in
theorem canon_join (hcl : Canon K (d + 1) l)
    (hcr : Canon K (d + 1) r) (hl : ∀ p ∈ l.toList, K.bit p.1 d = false)
    (hr : ∀ p ∈ r.toList, K.bit p.1 d = true) : Canon K d (join l r) := by
  have two : ∀ {a b : Trie κ ν}, Canon K (d + 1) (.branch a b) →
      2 ≤ a.toList.length + b.toList.length := fun h => h.2.2.2.2
  rcases l with _ | ⟨k, v⟩ | ⟨l₁, l₂⟩ <;> rcases r with _ | ⟨k', v'⟩ | ⟨r₁, r₂⟩ <;>
    simp only [join, Canon] <;> first
      | trivial
      | refine ⟨hcl, hcr, hl, hr, ?_⟩
        simp only [toList, length_append, length_cons, length_nil]
        first | omega | (have h2 := two hcl; omega) | (have h2 := two hcr; omega)

section Pair

variable {ka kb : κ} (hne : ka ≠ kb)

include hne

omit [DecidableEq κ] in
/-- Two different keys that agree on the first `d` bits leave a level to branch on. -/
theorem exists_level {d n : Nat} (hn : d + n = K.depth) (hag : ∀ i < d, K.bit ka i = K.bit kb i) :
    ∃ m, n = m + 1 := by
  cases n with
  | zero => exact absurd (K.separates _ _ fun i hi => hag i (by omega)) hne
  | succ m => exact ⟨m, rfl⟩

variable {va vb : ν}

omit [DecidableEq κ] in
theorem perm_toList_pair : ∀ {n d : Nat}, d + n = K.depth → (∀ i < d, K.bit ka i = K.bit kb i) →
    (pair K n d ka va kb vb).toList.Perm [(ka, va), (kb, vb)] := by
  intro n
  induction n with
  | zero =>
    intro d hn hag
    obtain ⟨m, hm⟩ := exists_level hne hn hag
    cases hm
  | succ n ih =>
    intro d hn hag
    simp only [pair]
    split
    · rename_i hb
      have := ih (by omega) (agree_succ hag hb)
      split <;> simpa [toList] using this
    · split
      · simpa [toList] using List.Perm.swap _ _ _
      · simp [toList]

omit [DecidableEq κ] in
theorem canon_pair : ∀ {n d : Nat}, d + n = K.depth →
    (∀ i < d, K.bit ka i = K.bit kb i) → Canon K d (pair K n d ka va kb vb) := by
  intro n
  induction n with
  | zero =>
    intro d hn hag
    obtain ⟨m, hm⟩ := exists_level hne hn hag
    cases hm
  | succ n ih =>
    intro d hn hag
    simp only [pair]
    split
    · rename_i hb
      have hag' := agree_succ hag hb
      have hp : (pair K n (d + 1) ka va kb vb).toList.Perm _ := perm_toList_pair hne (by omega) hag'
      have hc := ih (by omega) hag'
      have hlen := hp.length_eq
      -- both entries go the way of the common bit
      have hmem : ∀ p ∈ (pair K n (d + 1) ka va kb vb).toList, K.bit p.1 d = K.bit ka d := by
        intro p hpm
        rcases mem_cons.mp (hp.mem_iff.mp hpm) with rfl | hpm
        · rfl
        · rw [mem_singleton] at hpm
          subst hpm
          exact hb.symm
      split
      · rename_i hbit
        refine ⟨trivial, hc, by simp [toList], fun p hp' => by rw [hmem p hp', hbit], ?_⟩
        simp [toList, hlen]
      · rename_i hbit
        refine ⟨hc, trivial, fun p hp' => by rw [hmem p hp']; simpa using hbit, by
          simp [toList], ?_⟩
        simp [toList, hlen]
    · rename_i hb
      split
      · rename_i hbit
        have hkb : K.bit kb d = false := by
          rw [hbit] at hb
          simpa using Ne.symm hb
        simp [Canon, toList, hbit, hkb]
      · rename_i hbit
        have hka : K.bit ka d = false := by simpa using hbit
        have hkb : K.bit kb d = true := by
          rw [hka] at hb
          simpa using Ne.symm hb
        simp [Canon, toList, hka, hkb]

theorem lookup_pair {n d : Nat} (hn : d + n = K.depth) (hag : ∀ i < d, K.bit ka i = K.bit kb i)
    (q : κ) : lookup K d (pair K n d ka va kb vb) q = if q = kb then some vb
      else if ka = q then some va else none := by
  have hc : Canon K d (pair K n d ka va kb vb) := canon_pair hne hn hag
  have hp : (pair K n d ka va kb vb).toList.Perm _ := perm_toList_pair hne hn hag
  split
  · rename_i hq
    subst hq
    exact lookup_of_mem hc (hp.mem_iff.mpr (by simp))
  · rename_i hq
    split
    · rename_i hq'
      subst hq'
      exact lookup_of_mem hc (hp.mem_iff.mpr (by simp))
    · rename_i hq'
      cases h : lookup K d (pair K n d ka va kb vb) q with
      | none => rfl
      | some v =>
        have := hp.mem_iff.mp (mem_of_lookup h)
        simp only [mem_cons, Prod.mk.injEq, not_mem_nil, or_false] at this
        rcases this with ⟨he, _⟩ | ⟨he, _⟩
        · exact absurd he.symm hq'
        · exact absurd he hq

end Pair

/-! ## 3. `update` -/

omit [DecidableEq κ] in
/-- Under a prefix of `k`, a leaf of another key leaves room for a `pair`. -/
theorem Under.leaf_agree (h : Under K d k (.leaf k' v)) : ∀ i < d, K.bit k' i = K.bit k i :=
  h (k', v) (by simp [toList])

variable {val : Option ν}

theorem mem_toList_update {p : κ × ν} : ∀ {d : Nat} {t : Trie κ ν}, d ≤ K.depth → Canon K d t →
      Under K d k t → p ∈ (update K d t k val).toList → p.1 = k ∨ p ∈ t.toList
  | _, .empty, _, _, _, h => by
    cases val with
    | none => simp [update, toList] at h
    | some v =>
      simp only [update, toList, mem_singleton] at h
      exact .inl (by rw [h])
  | d, .leaf k' v', hd, _, hu, h => by
    simp only [update] at h
    split at h
    · rename_i hk
      cases val with
      | none => simp [toList] at h
      | some v =>
        simp only [toList, mem_singleton] at h
        exact .inl (by rw [h]; exact hk)
    · rename_i hk
      cases val with
      | none => exact .inr h
      | some v =>
        have hp := (perm_toList_pair hk (by omega) hu.leaf_agree).mem_iff.mp h
        simp only [mem_cons, not_mem_nil, or_false] at hp
        rcases hp with rfl | rfl
        · exact .inr (by simp [toList])
        · exact .inl rfl
  | d, .branch l r, hd, hc, hu, h => by
    have hlt := hc.depth_lt hu
    simp only [update] at h
    split at h
    · rename_i hb
      rw [toList_join, mem_append] at h
      rcases h with h | h
      · exact .inr (mem_append_left _ h)
      · exact (mem_toList_update (by omega) hc.2.1 (hu.right hc hb) h).imp id (mem_append_right _)
    · rename_i hb
      rw [toList_join, mem_append] at h
      rcases h with h | h
      · exact (mem_toList_update (by omega) hc.1 (hu.left hc hb) h).imp id (mem_append_left _)
      · exact .inr (mem_append_right _ h)

/-- After an update of a side, its entries keep to the side. -/
theorem bit_update (hd : d < K.depth) (hc : Canon K (d + 1) t) (hu : Under K (d + 1) k t)
    (ht : ∀ p ∈ t.toList, K.bit p.1 d = b) (hb : K.bit k d = b) :
    ∀ p ∈ (update K (d + 1) t k val).toList, K.bit p.1 d = b := by
  intro p hp
  rcases mem_toList_update hd hc hu hp with h | h
  · rw [h, hb]
  · exact ht p h

/-- **Updates keep the shape.** -/
theorem canon_update : ∀ {d : Nat} {t : Trie κ ν},
    d ≤ K.depth → Canon K d t → Under K d k t → Canon K d (update K d t k val)
  | _, .empty, _, _, _ => by cases val <;> trivial
  | d, .leaf k' v', hd, _, hu => by
    simp only [update]
    split
    · cases val <;> trivial
    · rename_i hk
      cases val with
      | none => trivial
      | some v => exact canon_pair hk (by omega) hu.leaf_agree
  | d, .branch l r, hd, hc, hu => by
    have hlt := hc.depth_lt hu
    simp only [update]
    split
    · rename_i hb
      exact canon_join hc.1 (canon_update (by omega) hc.2.1 (hu.right hc hb)) hc.2.2.1
        (bit_update hlt hc.2.1 (hu.right hc hb) hc.2.2.2.1 hb)
    · rename_i hb
      exact canon_join (canon_update (by omega) hc.1 (hu.left hc hb)) hc.2.1
        (bit_update hlt hc.1 (hu.left hc hb) hc.2.2.1 (Bool.eq_false_iff.mpr hb)) hc.2.2.2.1

/-- **An update changes the answer for its own key only.** -/
theorem lookup_update (q : κ) : ∀ {d : Nat} {t : Trie κ ν}, d ≤ K.depth → Canon K d t →
      Under K d k t → lookup K d (update K d t k val) q = if q = k then val else lookup K d t q
  | _, .empty, _, _, _ => by
    cases val with
    | none => simp [update, lookup]
    | some v => simp only [update, lookup, eq_comm]
  | d, .leaf k' v', hd, _, hu => by
    simp only [update]
    split
    · rename_i hk
      subst hk
      cases val with
      | none =>
        simp only [lookup]
        split <;> rename_i hq
        · rfl
        · rw [if_neg (Ne.symm hq)]
      | some v =>
        simp only [lookup]
        by_cases hq : k' = q
        · rw [if_pos hq, if_pos hq.symm]
        · rw [if_neg hq, if_neg (Ne.symm hq), if_neg hq]
    · rename_i hk
      cases val with
      | none =>
        simp only [lookup]
        by_cases hq : q = k
        · rw [if_pos hq, if_neg fun h => hk (h.trans hq)]
        · rw [if_neg hq]
      | some v => exact lookup_pair hk (by omega) hu.leaf_agree q
  | d, .branch l r, hd, hc, hu => by
    have hlt := hc.depth_lt hu
    simp only [update]
    split
    · rename_i hb
      rw [lookup_join hc.2.2.1 (bit_update hlt hc.2.1 (hu.right hc hb) hc.2.2.2.1 hb),
        lookup_update q (by omega) hc.2.1 (hu.right hc hb)]
      by_cases hq : q = k
      · simp [hq, hb]
      · simp [hq, lookup]
    · rename_i hb
      rw [lookup_join (bit_update hlt hc.1 (hu.left hc hb) hc.2.2.1 (Bool.eq_false_iff.mpr hb))
        hc.2.2.2.1, lookup_update q (by omega) hc.1 (hu.left hc hb)]
      by_cases hq : q = k
      · simp [hq, hb]
      · simp [hq, lookup]

/-! ## 4. Canonical tries are normal forms -/

theorem eq_empty_of_lookup (hc : Canon K d t) (h : ∀ q, lookup K d t q = none) : t = .empty := by
  have hnil : t.toList = [] := by
    refine eq_nil_iff_forall_not_mem.mpr fun p hp => ?_
    have := lookup_of_mem hc hp
    rw [h] at this
    cases this
  cases t with
  | empty => rfl
  | leaf k v => simp [toList] at hnil
  | branch l r =>
    have h2 := hc.2.2.2.2
    simp only [toList, append_eq_nil_iff] at hnil
    simp [hnil] at h2

/-- A canonical trie that answers for one key only is that key's leaf. -/
theorem eq_leaf_of_lookup (hc : Canon K d t)
    (h : ∀ q, lookup K d t q = if k = q then some v else none) : t = .leaf k v := by
  have hkey : ∀ p ∈ t.toList, p.1 = k ∧ p.2 = v := by
    intro p hp
    have hl := lookup_of_mem hc hp
    rw [h] at hl
    split at hl
    · rename_i hk
      exact ⟨hk.symm, (Option.some.inj hl).symm⟩
    · cases hl
  cases t with
  | empty =>
    have := h k
    simp [lookup] at this
  | leaf k' v' =>
    obtain ⟨h1, h2⟩ := hkey (k', v') (by simp [toList])
    simp only at h1 h2
    rw [h1, h2]
  | branch l r =>
    obtain ⟨p, hp, q, hq, hne⟩ := exists_two_keys hc (by simpa [toList] using hc.2.2.2.2)
    exact absurd ((hkey p hp).1.trans (hkey q hq).1.symm) hne

theorem lookup_left (hc : Canon K d (.branch l r)) (q : κ) :
    lookup K (d + 1) l q = if K.bit q d then none else lookup K d (.branch l r) q := by
  by_cases hb : K.bit q d = true
  · rw [if_pos hb, lookup_side_none hc.2.2.1 (by simp [hb])]
  · simp [lookup, hb]

theorem lookup_right (hc : Canon K d (.branch l r)) (q : κ) :
    lookup K (d + 1) r q = if K.bit q d then lookup K d (.branch l r) q else none := by
  by_cases hb : K.bit q d = true
  · simp [lookup, hb]
  · rw [if_neg hb, lookup_side_none hc.2.2.2.1 hb]

/-- **A canonical trie is determined by its answers.** -/
theorem canon_ext : ∀ {d : Nat} {t u : Trie κ ν}, Canon K d t → Canon K d u →
    (∀ q, lookup K d t q = lookup K d u q) → t = u
  | d, .empty, u, _, hu, h => (eq_empty_of_lookup hu fun q => (h q).symm).symm
  | d, .leaf k v, u, _, hu, h => (eq_leaf_of_lookup hu fun q => (h q).symm).symm
  | d, .branch l r, .empty, ht, _, h => eq_empty_of_lookup ht h
  | d, .branch l r, .leaf k v, ht, _, h => eq_leaf_of_lookup ht h
  | d, .branch l r, .branch l' r', ht, hu, h => by
    have hl : l = l' := canon_ext ht.1 hu.1 fun q => by
      rw [lookup_left ht, lookup_left hu, h]
    have hr : r = r' := canon_ext ht.2.1 hu.2.1 fun q => by
      rw [lookup_right ht, lookup_right hu, h]
    rw [hl, hr]

/-! ## 5. The walk along a key -/

variable (K) in
/-- The subtries that a walk along `q` leaves aside, from the top. -/
def offPath : Nat → Trie κ ν → κ → List (Trie κ ν)
  | _, .empty, _ => []
  | _, .leaf _ _, _ => []
  | d, .branch l r, q => if K.bit q d then l :: offPath (d + 1) r q else r :: offPath (d + 1) l q

variable (K) in
/-- The entry that a walk along `q` ends at. -/
def endOf : Nat → Trie κ ν → κ → Option (κ × ν)
  | _, .empty, _ => none
  | _, .leaf k v, _ => some (k, v)
  | d, .branch l r, q => if K.bit q d then endOf (d + 1) r q else endOf (d + 1) l q

theorem lookup_eq_endOf (q : κ) : ∀ (d : Nat) (t : Trie κ ν),
    lookup K d t q = (endOf K d t q).bind fun e => if e.1 = q then some e.2 else none
  | _, .empty => rfl
  | _, .leaf k v => rfl
  | d, .branch l r => by
    simp only [lookup, endOf, lookup_eq_endOf q (d + 1)]
    split <;> rfl

omit [DecidableEq κ] in
/-- The walk ends within the depth, at an entry that agrees with the key as far as it went. -/
theorem walk_spec : ∀ {d : Nat} {t : Trie κ ν}, d ≤ K.depth → Canon K d t → Under K d q t →
    d + (offPath K d t q).length ≤ K.depth ∧
      ∀ e ∈ endOf K d t q, ∀ i < d + (offPath K d t q).length, K.bit e.1 i = K.bit q i
  | d, .empty, hd, _, _ => ⟨hd, fun e he => by simp [endOf] at he⟩
  | d, .leaf k v, hd, _, hu => by
    refine ⟨hd, fun e he => ?_⟩
    obtain rfl : (k, v) = e := Option.some.inj he
    exact hu.leaf_agree
  | d, .branch l r, hd, hc, hu => by
    have hlt := hc.depth_lt hu
    simp only [offPath, endOf]
    by_cases hb : K.bit q d = true
    · rw [if_pos hb, if_pos hb, length_cons, show ∀ n, d + (n + 1) = d + 1 + n by omega]
      exact walk_spec hlt hc.2.1 (hu.right hc hb)
    · rw [if_neg hb, if_neg hb, length_cons, show ∀ n, d + (n + 1) = d + 1 + n by omega]
      exact walk_spec hlt hc.1 (hu.left hc hb)

/-! ## 6. The order of the entries -/

omit [DecidableEq κ] in
/-- Below a branch whose keys agree on `d` bits, the keys of a side agree on one more. -/
theorem agree_side (hag : ∀ p ∈ t.toList, ∀ p' ∈ t.toList, ∀ i < d, K.bit p.1 i = K.bit p'.1 i)
    (hsub : ∀ p ∈ u.toList, p ∈ t.toList) (hb : ∀ p ∈ u.toList, K.bit p.1 d = b) :
    ∀ p ∈ u.toList, ∀ p' ∈ u.toList, ∀ i < d + 1, K.bit p.1 i = K.bit p'.1 i :=
  fun p hp p' hp' =>
    agree_succ (hag p (hsub p hp) p' (hsub p' hp')) ((hb p hp).trans (hb p' hp').symm)

omit [DecidableEq κ] in
/-- **From left to right the keys ascend** in every relation that the first differing bit
    decides. -/
theorem pairwise_toList {R : κ → κ → Prop}
    (hR : ∀ a b d, d < K.depth → (∀ i < d, K.bit a i = K.bit b i) → K.bit a d = false →
      K.bit b d = true → R a b) : ∀ {d : Nat} {t : Trie κ ν}, Canon K d t →
    (∀ p ∈ t.toList, ∀ p' ∈ t.toList, ∀ i < d, K.bit p.1 i = K.bit p'.1 i) →
    t.toList.Pairwise fun x y => R x.1 y.1
  | _, .empty, _, _ => .nil
  | _, .leaf _ _, _, _ => pairwise_singleton _ _
  | d, .branch l r, hc, hag => by
    have hl : ∀ p ∈ l.toList, p ∈ (branch l r).toList := fun p hp => mem_append_left _ hp
    have hr : ∀ p ∈ r.toList, p ∈ (branch l r).toList := fun p hp => mem_append_right _ hp
    refine pairwise_append.mpr ⟨pairwise_toList hR hc.1 (agree_side hag hl hc.2.2.1),
      pairwise_toList hR hc.2.1 (agree_side hag hr hc.2.2.2.1), fun x hx y hy => ?_⟩
    have hlt : d < K.depth := hc.depth_lt fun p hp i hi => hag p hp x (hl x hx) i hi
    exact hR _ _ d hlt (hag x (hl x hx) y (hr y hy)) (hc.2.2.1 x hx) (hc.2.2.2.1 y hy)

end Trie

end Sahyadri.Lib
