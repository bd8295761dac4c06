import Sahyadri.Lib.Trie
import Sahyadri.Smt.Sim
import Mathlib.Data.Set.Function

/-!
# The hash-linked tree in a store is a canonical trie

* `h256Keying`: a key as its 256 bits; `bit_eq` says the code's `bit` reads them.
-/

namespace Sahyadri.Smt

open Lib List Trie Action NodeStore

/-! ## 1. Keys as bits -/

/-- Bit `i` of a key, from the left. -/
def keyBit (k : H256) (i : Nat) : Bool := (k.bytes[i / 8]?.getD 0).toNat.testBit (7 - i % 8)

theorem byte_bit (b : UInt8) {j : Nat} (hj : j < 8) :
    (b >>> UInt8.ofNat j) &&& 1 = if b.toNat.testBit j then 1 else 0 := by
  apply UInt8.toNat_inj.mp
  have h1 : (UInt8.ofNat j).toNat = j := by rw [UInt8.toNat_ofNat']; omega
  rw [UInt8.toNat_and, UInt8.toNat_shiftRight, h1, Nat.mod_eq_of_lt hj]
  show _ &&& 1 = _
  rw [Nat.and_one_is_mod, Nat.testBit_eq_decide_div_mod_eq, Nat.shiftRight_eq_div_pow]
  rcases Nat.mod_two_eq_zero_or_one (b.toNat / 2 ^ j) with h | h <;> simp [h]

variable (k : H256)

/-- **The code's `bit` on a level of the tree**: no panic, and the bit. -/
theorem bit_eq {ε : Type} {i : Nat} (hi : i < treeDepth) :
    (bit k i : Run ε UInt8) = .ok (if keyBit k i then 1 else 0) := by
  have hlt : i / 8 < k.bytes.length := by rw [k.length_eq]; unfold treeDepth at hi; omega
  rw [bit, keyBit, getElem?_eq_getElem hlt]
  exact congrArg _ (byte_bit _ (by omega))

theorem testBit_byte {j m : Nat} (hj : j < k.bytes.length) (hm : m < 8) :
    k.bytes[j].toNat.testBit m = keyBit k (8 * j + (7 - m)) := by
  rw [keyBit, show (8 * j + (7 - m)) / 8 = j by omega, show 7 - (8 * j + (7 - m)) % 8 = m by omega,
    getElem?_eq_getElem hj, Option.getD_some]

theorem testBit_byte_high (b : UInt8) {m : Nat} (hm : 8 ≤ m) : b.toNat.testBit m = false :=
  Nat.testBit_lt_two_pow (lt_of_lt_of_le b.toNat_lt (Nat.pow_le_pow_right two_pos hm))

theorem byte_eq_of_bits {a b : H256} {j : Nat} (ha : j < a.bytes.length) (hb : j < b.bytes.length)
    (h : ∀ m < 8, keyBit a (8 * j + (7 - m)) = keyBit b (8 * j + (7 - m))) :
    a.bytes[j] = b.bytes[j] := by
  refine UInt8.toNat_inj.mp (Nat.eq_of_testBit_eq fun m => ?_)
  by_cases hm : m < 8
  · rw [testBit_byte a ha hm, testBit_byte b hb hm, h m hm]
  · rw [testBit_byte_high _ (not_lt.mp hm), testBit_byte_high _ (not_lt.mp hm)]

theorem keyBit_separates (a b : H256) (h : ∀ i < treeDepth, keyBit a i = keyBit b i) : a = b := by
  refine H256.ext (ext_getElem (by rw [a.length_eq, b.length_eq]) fun j ha hb => ?_)
  refine byte_eq_of_bits ha hb fun m hm => h _ ?_
  rw [a.length_eq] at ha
  unfold treeDepth
  omega

/-- The keys of the tree: 256 bits tell two of them apart. -/
def h256Keying : Keying H256 := ⟨keyBit, treeDepth, keyBit_separates⟩

theorem h256_bit (i : Nat) : h256Keying.bit k i = keyBit k i := rfl

abbrev Tree := Trie H256 H256

abbrev Tree.lookup (t : Tree) (key : H256) : Option H256 := Trie.lookup h256Keying 0 t key

abbrev Tree.update (t : Tree) (key : H256) (value : Option H256) : Tree :=
  Trie.update h256Keying 0 t key value

def Tree.updates (t : Tree) (changes : Changes) : Tree :=
  changes.foldl (fun t c => Tree.update t c.1 c.2) t

/-! ## 2. Roots and nodes of a trie -/

section Roots

variable (hash : Node → H256)

/-- The root hash of a trie. -/
def rootOf : Tree → H256
  | .empty => .empty
  | .leaf k v => hash (.leaf k v)
  | .branch l r => hash (.branch (rootOf l) (rootOf r))

def nodesOf : Tree → List Node
  | .empty => []
  | .leaf k v => [.leaf k v]
  | .branch l r => .branch (rootOf hash l) (rootOf hash r) :: (nodesOf l ++ nodesOf r)

/-- The node hash has no collision on `𝒩` and never gives `EMPTY` there. -/
structure GoodNodes (𝒩 : Set Node) : Prop where
  inj : Set.InjOn hash 𝒩
  ne_empty : ∀ n ∈ 𝒩, hash n ≠ .empty

/-- All nodes of the trie are among `𝒩`. -/
def Within (𝒩 : Set Node) (t : Tree) : Prop := ∀ n ∈ nodesOf hash t, n ∈ 𝒩

/-- The store holds every node of the trie under its hash. -/
def Held {S : Type} (N : NodeStore S) (s : S) (t : Tree) : Prop :=
  ∀ n ∈ nodesOf hash t, N.get s (hash n) = some n

variable {hash} {𝒩 : Set Node}

theorem GoodNodes.mono {𝒩' : Set Node} (h : GoodNodes hash 𝒩) (hs : 𝒩' ⊆ 𝒩) :
    GoodNodes hash 𝒩' := ⟨h.inj.mono hs, fun n hn => h.ne_empty n (hs hn)⟩

theorem goodNodes_of_list {l : List Node}
    (h : (∀ a ∈ l, ∀ b ∈ l, hash a = hash b → a = b) ∧ ∀ a ∈ l, hash a ≠ .empty)
    (hs : ∀ n ∈ 𝒩, n ∈ l) : GoodNodes hash 𝒩 :=
  ⟨fun a ha b hb he => h.1 a (hs a ha) b (hs b hb) he, fun a ha => h.2 a (hs a ha)⟩

variable {l r t : Tree}

theorem within_branch : Within hash 𝒩 (.branch l r) ↔
    Node.branch (rootOf hash l) (rootOf hash r) ∈ 𝒩 ∧ Within hash 𝒩 l ∧ Within hash 𝒩 r := by
  simp only [Within, nodesOf, forall_mem_cons, forall_mem_append]

variable {S : Type} {N : NodeStore S} {s : S}

theorem held_branch : Held hash N s (.branch l r) ↔
      N.get s (rootOf hash (.branch l r)) = some (.branch (rootOf hash l) (rootOf hash r)) ∧
        Held hash N s l ∧ Held hash N s r := by
  simp only [Held, nodesOf, forall_mem_cons, forall_mem_append]
  rfl

theorem held_empty : Held hash N s .empty := forall_mem_nil _

theorem fetch_leaf {k v : H256} (hh : Held hash N s (.leaf k v)) :
    N.fetch s (rootOf hash (.leaf k v)) = .ok (.leaf k v) := by
  have hget : N.get s (rootOf hash (.leaf k v)) = some (.leaf k v) := hh _ (by simp [nodesOf])
  simp only [fetch, hget]

theorem fetch_branch (hh : Held hash N s (.branch l r)) :
    N.fetch s (rootOf hash (.branch l r)) = .ok (.branch (rootOf hash l) (rootOf hash r)) := by
  simp only [fetch, (held_branch.mp hh).1]

theorem within_empty : Within hash 𝒩 .empty := forall_mem_nil _

/-- On good nodes only the empty trie has the root `EMPTY`. -/
theorem rootOf_eq_empty (hg : GoodNodes hash 𝒩) (ht : Within hash 𝒩 t) :
    rootOf hash t = .empty ↔ t = .empty := by
  constructor
  · intro h
    cases t with
    | empty => rfl
    | leaf k v => exact absurd h (hg.ne_empty _ (ht (.leaf k v) (by simp [nodesOf])))
    | branch l r => exact absurd h (hg.ne_empty _ (within_branch.mp ht).1)
  · rintro rfl
    rfl

theorem rootOf_ne_empty (hg : GoodNodes hash 𝒩) (ht : Within hash 𝒩 t) (hne : t ≠ .empty) :
    rootOf hash t ≠ .empty :=
  fun h => hne ((rootOf_eq_empty hg ht).mp h)

/-- **On good nodes a root stands for one trie.** -/
theorem rootOf_inj (hg : GoodNodes hash 𝒩) : ∀ {t u : Tree}, Within hash 𝒩 t → Within hash 𝒩 u →
    rootOf hash t = rootOf hash u → t = u
  | .empty, u, _, hu, h => ((rootOf_eq_empty hg hu).mp h.symm).symm
  | t, .empty, ht, _, h => (rootOf_eq_empty hg ht).mp h
  | .leaf k v, .leaf k' v', ht, hu, h => by
    have := hg.inj (ht (.leaf k v) (by simp [nodesOf])) (hu (.leaf k' v') (by simp [nodesOf])) h
    cases this
    rfl
  | .leaf k v, .branch l r, ht, hu, h => by
    have := hg.inj (ht (.leaf k v) (by simp [nodesOf])) (within_branch.mp hu).1 h
    cases this
  | .branch l r, .leaf k v, ht, hu, h => by
    have := hg.inj (within_branch.mp ht).1 (hu (.leaf k v) (by simp [nodesOf])) h
    cases this
  | .branch l r, .branch l' r', ht, hu, h => by
    obtain ⟨hb, hl, hr⟩ := within_branch.mp ht
    obtain ⟨hb', hl', hr'⟩ := within_branch.mp hu
    have hn := hg.inj hb hb' h
    simp only [Node.branch.injEq] at hn
    rw [rootOf_inj hg hl hl' hn.1, rootOf_inj hg hr hr' hn.2]

/-- Putting a good node keeps every good trie in the store. -/
theorem Held.put (hN : N.Lawful hash) (hg : GoodNodes hash 𝒩) (h : Held hash N s t)
    (ht : Within hash 𝒩 t) {n : Node} (hn : n ∈ 𝒩) : Held hash N (N.put s n).2 t := by
  intro m hm
  rw [hN.get_put]
  split
  · rename_i he
    rw [hg.inj (ht m hm) hn he]
  · exact h m hm

end Roots

/-! ## 3. The writers refine the trie's update -/

section Writers

variable {S : Type} {N : NodeStore S} {hash : Node → H256} {𝒩 : Set Node}

/-- If the run put nodes of `𝒩` only, it returned the root of `t`, and the store holds `t` and every
    trie over `𝒩` that it held before. -/
def Ends (N : NodeStore S) (hash : Node → H256) (𝒩 : Set Node) (s : Recorded S)
    (out : Run SmtError H256 × Recorded S) (t : Tree) : Prop :=
  (∀ n ∈ out.2.log, n ∈ 𝒩) →
    out.1 = .ok (rootOf hash t) ∧ Within hash 𝒩 t ∧ Held hash N out.2.inner t ∧
    ∀ u, Within hash 𝒩 u → Held hash N s.inner u → Held hash N out.2.inner u

variable {s : Recorded S} {t l r u : Tree}

theorem ends_pure (ht : Within hash 𝒩 t) (hh : Held hash N s.inner t) :
    Ends N hash 𝒩 s ((pure (rootOf hash t) : Action (Recorded S) SmtError H256) s) t :=
  fun _ => ⟨rfl, ht, hh, fun _ _ h => h⟩

/-- Sequencing: the second part works on the trie the first one ends with. -/
theorem ends_bind {x : Action (Recorded S) SmtError H256}
    {f : H256 → Action (Recorded S) SmtError H256}
    (hx : Ends N hash 𝒩 s (x s) t) (hgrow : ∀ a r, r.log ⊆ (f a r).2.log)
    (hf : ∀ r : Recorded S, Within hash 𝒩 t → Held hash N r.inner t →
      (∀ w, Within hash 𝒩 w → Held hash N s.inner w → Held hash N r.inner w) →
        Ends N hash 𝒩 r (f (rootOf hash t) r) u) : Ends N hash 𝒩 s ((x >>= f) s) u := by
  intro hlog
  rcases hxs : x s with ⟨e | a, r⟩
  · rw [bind_error hxs] at hlog
    have h := (hx (by rw [hxs]; exact hlog)).1
    rw [hxs] at h
    cases h
  · rw [bind_ok hxs] at hlog ⊢
    obtain ⟨h1, h2, h3, h4⟩ := hx (by rw [hxs]; exact fun n hn => hlog n (hgrow a r hn))
    rw [hxs] at h1 h3 h4
    cases h1
    obtain ⟨g1, g2, g3, g4⟩ := hf r h2 h3 h4 hlog
    exact ⟨g1, g2, g3, fun w hw hs => g4 w hw (h4 w hw hs)⟩

variable (hN : N.Lawful hash) (hg : GoodNodes hash 𝒩)

include hN hg

theorem putNode_ends {n : Node} (hr : rootOf hash t = hash n)
    (hrest : ∀ m ∈ nodesOf hash t, m ≠ n → m ∈ 𝒩 ∧ N.get s.inner (hash m) = some m) :
    Ends N hash 𝒩 s ((recorded N).putNode n s) t := by
  intro hlog
  have hn𝒩 : n ∈ 𝒩 := hlog n (by simp [putNode, recorded])
  have hw : Within hash 𝒩 t := by
    intro m hm
    by_cases he : m = n
    · rw [he]; exact hn𝒩
    · exact (hrest m hm he).1
  refine ⟨?_, hw, ?_, fun u hu hh => hh.put hN hg hu hn𝒩⟩
  · show Except.ok (N.put s.inner n).1 = _
    rw [hN.put_fst, hr]
  · intro m hm
    show N.get (N.put s.inner n).2 (hash m) = some m
    rw [hN.get_put]
    split
    · rename_i he
      rw [hg.inj (hw m hm) hn𝒩 he]
    · rename_i he
      exact (hrest m hm fun h => he (by rw [h])).2

theorem putLeaf_ends (s : Recorded S) (k v : H256) :
    Ends N hash 𝒩 s ((recorded N).putNode (.leaf k v) s) (.leaf k v) := by
  refine putNode_ends hN hg rfl fun m hm hne => ?_
  simp only [nodesOf, mem_singleton] at hm
  exact absurd hm hne

theorem putBranch_ends (hl : Within hash 𝒩 l) (hr : Within hash 𝒩 r) (hhl : Held hash N s.inner l)
    (hhr : Held hash N s.inner r) : Ends N hash 𝒩 s
      ((recorded N).putNode (.branch (rootOf hash l) (rootOf hash r)) s) (.branch l r) := by
  refine putNode_ends hN hg rfl fun m hm hne => ?_
  simp only [nodesOf, mem_cons, mem_append] at hm
  rcases hm with hm | hm | hm
  · exact absurd hm hne
  · exact ⟨hl m hm, hhl m hm⟩
  · exact ⟨hr m hm, hhr m hm⟩

omit hN hg in
theorem isLeaf_leaf {s : S} {k v : H256} (hh : Held hash N s (.leaf k v)) :
    isLeaf N s (rootOf hash (.leaf k v)) = .ok true := by
  rw [isLeaf, fetch_leaf hh]
  rfl

omit hN hg in
theorem isLeaf_branch {s : S} (hh : Held hash N s (.branch l r)) :
    isLeaf N s (rootOf hash (.branch l r)) = .ok false := by
  rw [isLeaf, fetch_branch hh]
  rfl

/-- **`normalize` is the trie's `join`.** -/
theorem normalize_ends (hl : Within hash 𝒩 l) (hr : Within hash 𝒩 r) (hhl : Held hash N s.inner l)
    (hhr : Held hash N s.inner r) :
    Ends N hash 𝒩 s (normalize (recorded N) (rootOf hash l) (rootOf hash r) s) (join l r) := by
  have hle := rootOf_eq_empty hg hl
  have hre := rootOf_eq_empty hg hr
  have hput := putBranch_ends hN hg hl hr hhl hhr
  unfold normalize
  by_cases h1 : l = .empty
  · by_cases h2 : r = .empty
    · subst h1 h2
      exact ends_pure within_empty held_empty
    · rw [if_neg fun h => h2 (hre.mp h.2), if_neg fun h => h2 (hre.mp h), if_pos (hle.mpr h1)]
      subst h1
      cases r with
      | empty => exact absurd rfl h2
      | leaf k v =>
        rw [bind_lift (s := s) (isLeaf_leaf hhr)]
        exact ends_pure hr hhr
      | branch r₁ r₂ =>
        rw [bind_lift (s := s) (isLeaf_branch hhr)]
        exact hput
  · by_cases h2 : r = .empty
    · rw [if_neg fun h => h1 (hle.mp h.1), if_pos (hre.mpr h2)]
      subst h2
      cases l with
      | empty => exact absurd rfl h1
      | leaf k v =>
        rw [bind_lift (s := s) (isLeaf_leaf hhl)]
        exact ends_pure hl hhl
      | branch l₁ l₂ =>
        rw [bind_lift (s := s) (isLeaf_branch hhl)]
        exact hput
    · rw [if_neg fun h => h1 (hle.mp h.1), if_neg fun h => h2 (hre.mp h),
        if_neg fun h => h1 (hle.mp h)]
      have hj : join l r = .branch l r := by
        cases l <;> cases r <;> first | rfl | exact absurd rfl h1 | exact absurd rfl h2
      rw [hj]
      exact hput

omit hN hg in
theorem putNode_grow (n : Node) (r : Recorded S) : r.log ⊆ ((recorded N).putNode n r).2.log :=
  log_mono (fun l => (putNode_alike (recorded_log_sim N l) n).1) r

/-- **`split` is the trie's `pair`.** -/
theorem split_ends {ka va kb vb : H256} (hne : ka ≠ kb) : ∀ {n d : Nat} (s : Recorded S),
    d + n = treeDepth → (∀ i < d, keyBit ka i = keyBit kb i) →
      Ends N hash 𝒩 s (split (recorded N) d ka va kb vb s) (pair h256Keying n d ka va kb vb) := by
  intro n
  induction n with
  | zero =>
    intro d s hn hag
    obtain ⟨m, hm⟩ := exists_level (K := h256Keying) hne hn hag
    cases hm
  | succ n ih =>
    intro d s hn hag
    have hd : d < treeDepth := by omega
    rw [split.eq_def, if_neg (by omega), bit_eq ka hd, bit_eq kb hd, lift_ok_then, lift_ok_then]
    show Ends _ _ _ _ _ (if keyBit ka d = keyBit kb d then _ else _)
    by_cases heq : keyBit ka d = keyBit kb d
    · rw [if_neg (by rw [heq]; simp), if_pos heq]
      have hrec := ih s (by omega) (agree_succ (K := h256Keying) hag heq)
      refine ends_bind hrec (fun a r => ?_) fun r ht hh _ => ?_
      · split <;> exact putNode_grow _ r
      · show Ends _ _ _ _ _ (if keyBit ka d then _ else _)
        by_cases hbit : keyBit ka d = true
        · rw [if_neg (by simp [hbit]), if_pos hbit]
          exact putBranch_ends hN hg within_empty ht held_empty hh
        · rw [if_pos (by simp [hbit]), if_neg hbit]
          exact putBranch_ends hN hg ht within_empty hh held_empty
    · rw [if_pos (by revert heq; cases keyBit ka d <;> cases keyBit kb d <;> simp), if_neg heq]
      refine ends_bind (putLeaf_ends hN hg s ka va) (fun a r => ?_) fun r hta hha _ => ?_
      · refine List.Subset.trans (putNode_grow (N := N) (.leaf kb vb) r) ?_
        split <;> exact putNode_grow _ _
      refine ends_bind (putLeaf_ends hN hg r kb vb) (fun a r => ?_) fun r htb hhb hkeep => ?_
      · split <;> exact putNode_grow _ r
      show Ends _ _ _ _ _ (if keyBit ka d then _ else _)
      by_cases hbit : keyBit ka d = true
      · rw [if_neg (by simp [hbit]), if_pos hbit]
        exact putBranch_ends hN hg htb hta hhb (hkeep _ hta hha)
      · rw [if_pos (by simp [hbit]), if_neg hbit]
        exact putBranch_ends hN hg hta htb (hkeep _ hta hha) hhb

omit hN hg in
theorem normalize_grow (l r : H256) (s : Recorded S) :
    s.log ⊆ (normalize (recorded N) l r s).2.log :=
  log_mono (fun k => (normalize_alike (recorded_log_sim N k) l r).1) s

/-- **`update_at` is the trie's `update`**, at every depth. -/
theorem updateAt_ends {key : H256} {value : Option H256} : ∀ {t : Tree} {d : Nat} (s : Recorded S),
    d ≤ treeDepth → Canon h256Keying d t → Under h256Keying d key t → Within hash 𝒩 t →
    Held hash N s.inner t → Ends N hash 𝒩 s (updateAt (recorded N) (rootOf hash t) d key value s)
      (Trie.update h256Keying d t key value)
  | .empty, d, s, _, _, _, _, _ => by
    rw [updateAt.eq_def, if_pos (show rootOf hash .empty = H256.empty from rfl)]
    cases value with
    | none => exact ends_pure within_empty held_empty
    | some v => exact putLeaf_ends hN hg s key v
  | .leaf k v, d, s, hd, _, hu, hw, hh => by
    rw [updateAt.eq_def, if_neg (rootOf_ne_empty hg hw (by simp)),
      bind_lift (s := s) (fetch_leaf (N := recorded N) (s := s) hh)]
    simp only [Trie.update]
    split
    · cases value with
      | none => exact ends_pure within_empty held_empty
      | some nv => exact putLeaf_ends hN hg s k nv
    · rename_i hk
      cases value with
      | none => exact ends_pure hw hh
      | some nv =>
        have hag : ∀ i < d, keyBit k i = keyBit key i := hu.leaf_agree
        exact split_ends hN hg hk s (Nat.add_sub_cancel' hd) hag
  | .branch l r, d, s, _, hc, hu, hw, hh => by
    obtain ⟨_, hhl, hhr⟩ := held_branch.mp hh
    obtain ⟨_, hwl, hwr⟩ := within_branch.mp hw
    have hlt : d < treeDepth := hc.depth_lt hu
    rw [updateAt.eq_def, if_neg (rootOf_ne_empty hg hw (by simp)),
      bind_lift (s := s) (fetch_branch hh)]
    simp only [Trie.update]
    rw [if_neg (by omega), bit_eq key hlt, lift_ok_then]
    by_cases hk : h256Keying.bit key d = true
    · rw [if_neg (by simp [← h256_bit, hk]), if_pos hk]
      refine ends_bind (updateAt_ends s (by omega) hc.2.1 (hu.right hc hk) hwr hhr)
        (fun a q => normalize_grow _ _ q) fun q ht hq hkeep => ?_
      exact normalize_ends hN hg hwl ht (hkeep _ hwl hhl) hq
    · rw [if_pos (by simp [← h256_bit, hk]), if_neg hk]
      refine ends_bind (updateAt_ends s (by omega) hc.1 (hu.left hc hk) hwl hhl)
        (fun a q => normalize_grow _ _ q) fun q ht hq hkeep => ?_
      exact normalize_ends hN hg ht hwr hq (hkeep _ hwr hhr)

omit hN hg in
theorem updateMany_grow (root : H256) (changes : Changes) (s : Recorded S) :
    s.log ⊆ (updateMany (recorded N) root changes s).2.log :=
  log_mono (fun l => updateMany_sim (recorded_log_sim N l) root changes) s

/-- **`update_many` is the fold of the trie's `update`.** -/
theorem updateMany_ends (changes : Changes) (s : Recorded S) (hc : Trie.Canon h256Keying 0 t)
    (hw : Within hash 𝒩 t) (hh : Held hash N s.inner t) :
    Ends N hash 𝒩 s (updateMany (recorded N) (rootOf hash t) changes s) (t.updates changes) := by
  induction changes generalizing t s with
  | nil => exact ends_pure hw hh
  | cons c changes ih =>
    refine ends_bind (updateAt_ends hN hg s (Nat.zero_le _) hc (under_zero _ _) hw hh)
      (fun a r => updateMany_grow a changes r) fun r ht hr _ => ?_
    exact ih r (canon_update (Nat.zero_le _) hc (under_zero _ _)) ht hr

end Writers

/-! ## 4. The readers -/

section Readers

variable {S : Type} {N : NodeStore S} {hash : Node → H256} {𝒩 : Set Node} {s : S}

/-- **`get` is the trie's lookup.** -/
theorem getLoop_eq (hg : GoodNodes hash 𝒩) {key : H256} : ∀ {t : Tree} {d : Nat},
    Canon h256Keying d t → Under h256Keying d key t → Within hash 𝒩 t → Held hash N s t →
        getLoop N s key (rootOf hash t) d = .ok (lookup h256Keying d t key)
  | .empty, d, _, _, _, _ => by
    rw [getLoop.eq_def, if_pos (show rootOf hash .empty = H256.empty from rfl)]
    rfl
  | .leaf k v, d, _, _, hw, hh => by
    rw [getLoop.eq_def, if_neg (rootOf_ne_empty hg hw (by simp)), fetch_leaf hh]
    rfl
  | .branch l r, d, hc, hu, hw, hh => by
    obtain ⟨_, hhl, hhr⟩ := held_branch.mp hh
    obtain ⟨_, hwl, hwr⟩ := within_branch.mp hw
    have hlt : d < treeDepth := hc.depth_lt hu
    rw [getLoop.eq_def, if_neg (rootOf_ne_empty hg hw (by simp)), fetch_branch hh]
    simp only [Run.ok_bind, bit_eq key hlt, if_neg (not_le.mpr hlt), Trie.lookup]
    by_cases hk : h256Keying.bit key d = true
    · rw [if_neg (by simp [← h256_bit, hk]), if_pos hk]
      exact getLoop_eq hg hc.2.1 (hu.right hc hk) hwr hhr
    · rw [if_pos (by simp [← h256_bit, hk]), if_neg hk]
      exact getLoop_eq hg hc.1 (hu.left hc hk) hwl hhl

variable {t : Tree}

/-- The stack of `leaves_after`, with tries in place of their roots. -/
def stackOf (hash : Node → H256) (ts : List (Tree × Nat × H256)) : List (H256 × Nat × H256) :=
  ts.map fun e => (rootOf hash e.1, e.2)

theorem stackWeight_cons (hash : Node → H256) (t : Tree) (depth : Nat) (path : H256)
    (ts : List (Tree × Nat × H256)) : stackWeight (stackOf hash ((t, depth, path) :: ts)) =
      3 ^ (treeDepth + 1 - depth) + stackWeight (stackOf hash ts) := by
  simp [stackWeight, stackOf]

theorem stackWeight_children (hash : Node → H256) (l r : Tree) {depth : Nat} (h : depth < treeDepth)
    (path path' : H256) (ts : List (Tree × Nat × H256)) :
    stackWeight (stackOf hash ((l, depth + 1, path) :: (r, depth + 1, path') :: ts)) <
      3 ^ (treeDepth + 1 - depth) + stackWeight (stackOf hash ts) := by
  obtain ⟨n, hn⟩ := Nat.exists_eq_add_of_lt h
  have hpos : 0 < 3 ^ (n + 1) := Nat.pow_pos (by decide)
  rw [stackWeight_cons, stackWeight_cons, show treeDepth + 1 - (depth + 1) = n + 1 by omega,
    show treeDepth + 1 - depth = n + 1 + 1 by omega, pow_succ _ (n + 1)]
  omega

end Readers

end Sahyadri.Smt
