import Sahyadri.Smt.Map
import Sahyadri.Smt.Proofs

/-!
# `crypto/smt`: when the verifier returns, and what it answers to an honest proof

* `verify_returns_iff`: the two verifiers return exactly for proofs of at most 256 siblings and for
  proofs that end at another leaf than the one claimed.
-/

namespace Sahyadri.Smt

open Lib List Trie Run

/-! ## 1. When the verifier returns -/

section Total

variable {σ : Sponge} {key : H256} {i : Nat}

theorem bit_panics {ε : Type} (k : H256) (hi : treeDepth ≤ i) :
    (bit k i : Run ε UInt8) = .panicked := by
  have hlen : k.bytes.length ≤ i / 8 := by rw [k.length_eq]; unfold treeDepth at hi; omega
  rw [bit, getElem?_eq_none hlen]

variable {h a b sib h' : H256} {p : Proof}

theorem climb_step {rest : List H256} (hi : i < treeDepth)
    (hc : climb σ key (i + 1) rest h = .ok h') : climb σ key i (sib :: rest) h =
      .ok (if keyBit key i then hashBranch σ sib h' else hashBranch σ h' sib) := by
  rw [climb, hc, ok_bind, bit_eq key hi]
  cases keyBit key i <;> rfl

theorem climb_total : ∀ {i : Nat} {sibs : List H256}, i + sibs.length ≤ treeDepth →
    ∃ top, climb σ key i sibs h = .ok top
  | _, [], _ => ⟨h, rfl⟩
  | i, sib :: rest, hle => by
    simp only [length_cons] at hle
    obtain ⟨h', hc⟩ : ∃ h', climb σ key (i + 1) rest h = .ok h' := climb_total (by omega)
    exact ⟨_, climb_step (by omega) hc⟩

/-- The lowest sibling is hashed first, so a climb that starts too low hashes nothing. -/
theorem climb_panics : ∀ {i : Nat} {sibs : List H256}, sibs ≠ [] →
    treeDepth < i + sibs.length → climb σ key i sibs h = .panicked
  | i, [sib], _, hlt => by
    simp only [length_singleton] at hlt
    show (bit key i >>= _) = _
    rw [bit_panics key (by omega)]
    rfl
  | i, sib :: sib' :: rest, _, hlt => by
    simp only [length_cons] at hlt
    rw [climb, climb_panics (by simp) (by simp only [length_cons]; omega)]
    rfl

theorem computeRoot_total (σ : Sponge) (key : H256) (h : p.siblings.length ≤ treeDepth) :
    ∃ top, computeRoot σ key p = .ok top := climb_total (by omega)

theorem computeRoot_panics (σ : Sponge) (key : H256) (h : treeDepth < p.siblings.length) :
    computeRoot σ key p = .panicked := climb_panics (fun h0 => by rw [h0] at h; cases h) (by omega)

/-- `shares_prefix` on different keys stops at the first differing bit, if it gets that far. -/
theorem sharesPrefixFrom_eq :
    ∀ {n i : Nat}, (∃ j, i ≤ j ∧ j < treeDepth ∧ keyBit a j ≠ keyBit b j) →
      sharesPrefixFrom a b i n = .ok (decide (∀ j < n, keyBit a (i + j) = keyBit b (i + j)))
  | 0, i, _ => by simp [sharesPrefixFrom, pure, Except.pure]
  | n + 1, i, ⟨j, hij, hj, hne⟩ => by
    rw [sharesPrefixFrom, bit_eq a (by omega), ok_bind, bit_eq b (by omega), ok_bind]
    by_cases hb : keyBit a i = keyBit b i
    · have hlt : i + 1 ≤ j := lt_of_le_of_ne hij fun h => hne (h ▸ hb)
      rw [if_pos (by rw [hb]), sharesPrefixFrom_eq ⟨j, hlt, hj, hne⟩]
      refine congrArg Except.ok (decide_eq_decide.mpr ⟨fun h m hm => ?_, fun h m hm => ?_⟩)
      · cases m with
        | zero => exact hb
        | succ m => simpa only [add_assoc, add_comm 1] using h m (by omega)
      · simpa only [add_assoc, add_comm 1] using h (m + 1) (by omega)
    · rw [if_neg (by revert hb; cases keyBit a i <;> cases keyBit b i <;> simp)]
      exact congrArg Except.ok (decide_eq_false fun h => hb (h 0 (by omega))).symm

/-- **`shares_prefix` on different keys returns**, for every number of bits. -/
theorem sharesPrefix_eq (hne : a ≠ b) (n : Nat) :
    sharesPrefix a b n = .ok (decide (∀ i < n, keyBit a i = keyBit b i)) := by
  have hdiff : ∃ j, 0 ≤ j ∧ j < treeDepth ∧ keyBit a j ≠ keyBit b j := by
    by_contra hno
    push Not at hno
    exact hne (keyBit_separates a b fun i hi => hno i (Nat.zero_le i) hi)
  rw [sharesPrefix, sharesPrefixFrom_eq hdiff]
  simp only [zero_add]

variable (σ key)

theorem inclusion_returns_iff (root value : H256) (p : Proof) :
    (∃ b, verifyInclusion σ root key value p = .ok b) ↔
      p.siblings.length ≤ treeDepth ∨ p.terminal ≠ .leaf key value := by
  unfold verifyInclusion
  cases p.terminal with
  | empty => simp [pure, Except.pure]
  | leaf k v =>
    by_cases h : k = key ∧ v = value
    · obtain ⟨rfl, rfl⟩ := h
      by_cases hl : p.siblings.length ≤ treeDepth
      · obtain ⟨top, ht⟩ := computeRoot_total σ k hl
        simp [ht, hl, pure, Except.pure]
      · simp [computeRoot_panics σ k (Nat.lt_of_not_le hl), hl]
    · simp [h, pure, Except.pure]

theorem exclusion_returns_iff (root : H256) (p : Proof) :
    (∃ b, verifyExclusion σ root key p = .ok b) ↔ p.siblings.length ≤ treeDepth ∨
    p.terminal ≠ .empty := by
  unfold verifyExclusion
  cases p.terminal with
  | empty =>
    by_cases hl : p.siblings.length ≤ treeDepth
    · obtain ⟨top, ht⟩ := computeRoot_total σ key hl
      simp [ht, hl, pure, Except.pure]
    · simp [computeRoot_panics σ key (Nat.lt_of_not_le hl), hl]
  | leaf k v =>
    simp only [ne_eq, reduceCtorEq, not_false_eq_true, or_true, iff_true]
    by_cases hk : k = key
    · exact ⟨false, by rw [if_neg (not_not.mpr hk)]; rfl⟩
    · rw [if_pos hk, sharesPrefix_eq hk, ok_bind]
      by_cases hs : ∀ i < p.siblings.length, keyBit k i = keyBit key i
      · -- different keys share fewer bits than they have
        have hlt : p.siblings.length < treeDepth :=
          Nat.lt_of_not_le fun hle => hk (keyBit_separates _ _ fun i hi => hs i (by omega))
        obtain ⟨top, ht⟩ := computeRoot_total σ key hlt.le
        rw [decide_eq_true hs, if_pos rfl, ht]
        exact ⟨_, rfl⟩
      · rw [decide_eq_false hs]
        exact ⟨false, rfl⟩

/-- **The verifiers return exactly for proofs of at most 256 siblings and for proofs that end at
    another leaf than the one claimed.** -/
theorem verify_returns_iff (root value : H256) (p : Proof) :
    ((∃ b, verifyInclusion σ root key value p = .ok b) ∧
      ∃ b, verifyExclusion σ root key p = .ok b) ↔
      p.siblings.length ≤ treeDepth ∨ ∃ k v, p.terminal = .leaf k v ∧ ¬ (k = key ∧ v = value) := by
  rw [inclusion_returns_iff, exclusion_returns_iff, ← or_and_left]
  refine or_congr_right ?_
  cases p.terminal with
  | empty => simp
  | leaf k v => simp

/-- A proof of 257 empty siblings that ends in an empty subtree: the first bit read is bit 256. -/
theorem long_proof_panics :
    verifyExclusion polySponge .empty .empty ⟨List.replicate 257 .empty, .empty⟩ = .panicked := by
  show (computeRoot polySponge .empty ⟨replicate 257 .empty, .empty⟩ >>= _) = _
  rw [computeRoot_panics polySponge .empty (by rw [length_replicate]; decide)]
  rfl

theorem deep_proof_returns : (∃ b,
      verifyInclusion polySponge .empty .empty .empty ⟨List.replicate 256 .empty, .empty⟩ = .ok b) ∧
      ∃ b, verifyExclusion polySponge .empty .empty ⟨List.replicate 256 .empty, .empty⟩ = .ok b :=
  (verify_returns_iff polySponge .empty .empty .empty ⟨replicate 256 .empty, .empty⟩).mpr
    (.inl (by rw [length_replicate]; decide))

end Total

/-! ## 2. The honest proof -/

/-- The terminal of a walk that ends at an entry, or nowhere. -/
def terminalOf : Option (H256 × H256) → Terminal
  | none => .empty
  | some (k, v) => .leaf k v

section Walk

variable {S : Type} {N : NodeStore S} {hash : Node → H256} {𝒩 : Set Node} {key : H256}

/-- **`prove` collects the roots of the subtries left aside and the entry at the end.** -/
theorem proveLoop_eq (hg : GoodNodes hash 𝒩) {s : S} : ∀ {t : Tree} {d : Nat} (sibs : List H256),
      Canon h256Keying d t → Under h256Keying d key t → Within hash 𝒩 t → Held hash N s t →
        proveLoop N s key
          (rootOf hash t) d sibs = .ok ⟨sibs ++ (offPath h256Keying d t key).map (rootOf hash),
            terminalOf (endOf h256Keying d t key)⟩
  | .empty, d, sibs, _, _, _, _ => by
    rw [proveLoop.eq_def, if_pos (show rootOf hash .empty = H256.empty from rfl)]
    simp [offPath, endOf, terminalOf, pure, Except.pure]
  | .leaf k v, d, sibs, _, _, hw, hh => by
    rw [proveLoop.eq_def, if_neg (rootOf_ne_empty hg hw (by simp)), fetch_leaf hh]
    simp [offPath, endOf, terminalOf, pure, Except.pure]
  | .branch l r, d, sibs, hc, hu, hw, hh => by
    obtain ⟨_, hhl, hhr⟩ := held_branch.mp hh
    obtain ⟨_, hwl, hwr⟩ := within_branch.mp hw
    have hlt : d < treeDepth := hc.depth_lt hu
    rw [proveLoop.eq_def, if_neg (rootOf_ne_empty hg hw (by simp)), fetch_branch hh]
    simp only [ok_bind, bit_eq key hlt, if_neg (not_le.mpr hlt), offPath, endOf]
    by_cases hk : h256Keying.bit key d = true
    · rw [if_neg (by simp [← h256_bit, hk]), if_pos hk, if_pos hk,
        proveLoop_eq hg _ hc.2.1 (hu.right hc hk) hwr hhr, map_cons, append_assoc, singleton_append]
    · rw [if_pos (by simp [← h256_bit, hk]), if_neg hk, if_neg hk,
        proveLoop_eq hg _ hc.1 (hu.left hc hk) hwl hhl, map_cons, append_assoc, singleton_append]

theorem Rooted.prove_eq (hg : GoodNodes hash 𝒩) {s : S} {root : H256}
    {t : Tree} (h : Rooted N hash 𝒩 s root t) (key : H256) : prove N s root key =
      .ok ⟨(offPath h256Keying 0 t key).map (rootOf hash),
        terminalOf (endOf h256Keying 0 t key)⟩ := by
  rw [h.root_eq]
  exact proveLoop_eq hg [] h.canon (under_zero _ _) h.within h.held

/-- **The climb over the subtries left aside ends in the root.** -/
theorem climb_offPath {σ : Sponge} : ∀ {t : Tree} {d : Nat},
    Canon h256Keying d t → Under h256Keying d key t →
      climb σ key d ((offPath h256Keying d t key).map (rootOf (Node.hash σ)))
        ((terminalOf (endOf h256Keying d t key)).hash σ) = .ok (rootOf (Node.hash σ) t)
  | .empty, _, _, _ => rfl
  | .leaf k v, _, _, _ => rfl
  | .branch l r, d, hc, hu => by
    have hlt : d < treeDepth := hc.depth_lt hu
    simp only [offPath, endOf]
    by_cases hk : h256Keying.bit key d = true
    · rw [if_pos hk, if_pos hk, map_cons, climb_step hlt (climb_offPath hc.2.1 (hu.right hc hk))]
      exact congrArg Except.ok (if_pos hk)
    · rw [if_neg hk, if_neg hk, map_cons, climb_step hlt (climb_offPath hc.1 (hu.left hc hk))]
      exact congrArg Except.ok (if_neg hk)

end Walk

/-! ## 3. What the verifiers answer to it -/

/-- The answers to a proof for `key`, when the tree holds `value` there. -/
structure Answers (σ : Sponge) (root key : H256) (value : Option H256) (p : Proof) : Prop where
  inclusion : ∀ w, verifyInclusion σ root key w p = .ok (decide (value = some w))
  exclusion : verifyExclusion σ root key p = .ok value.isNone

section Answered

variable {σ : Sponge} {root key : H256} {p : Proof}

/-- A proof whose climb ends in the root, with a terminal that agrees with the key, is answered by
    its terminal. -/
theorem answers_of_climb {e : Option (H256 × H256)} (hroot : computeRoot σ key p = .ok root)
    (hterm : p.terminal = terminalOf e)
    (hag : ∀ x ∈ e, ∀ i < p.siblings.length, keyBit x.1 i = keyBit key i) :
    Answers σ root key (e.bind fun x => if x.1 = key then some x.2 else none) p := by
  have hself : (do return decide ((← computeRoot σ key p) = root) : Run Empty Bool) = .ok true := by
    rw [hroot]
    exact congrArg Except.ok (decide_eq_true rfl)
  constructor
  · intro w
    unfold verifyInclusion
    rw [hterm]
    rcases e with _ | ⟨k, v⟩
    · rfl
    · simp only [terminalOf, Option.bind_some]
      by_cases hk : k = key
      · by_cases hv : v = w
        · rw [if_pos ⟨hk, hv⟩, hself, if_pos hk, hv, decide_eq_true rfl]
        · simp [hv, pure, Except.pure]
      · rw [if_neg fun h => hk h.1, if_neg hk]
        rfl
  · unfold verifyExclusion
    rw [hterm]
    rcases e with _ | ⟨k, v⟩
    · exact hself
    · simp only [terminalOf, Option.bind_some]
      by_cases hk : k = key
      · rw [if_neg (not_not.mpr hk), if_pos hk]
        rfl
      · rw [if_pos hk, if_neg hk, sharesPrefix_eq hk, ok_bind, decide_eq_true (hag _ rfl)]
        exact hself

variable {S : Type} {N : NodeStore S} {𝒩 : Set Node}

/-- **Honest proofs are answered truly.** On a held tree `prove` returns a proof, and the verifiers
    answer it by what the tree holds. -/
theorem prove_answers (hg : GoodNodes (Node.hash σ) 𝒩) {s : S} {t : Tree}
    (h : Rooted N (Node.hash σ) 𝒩 s root t) (key : H256) :
    ∃ p, prove N s root key = .ok p ∧ p.terminal = terminalOf (endOf h256Keying 0 t key) ∧
      Answers σ root key (t.lookup key) p := by
  refine ⟨_, h.prove_eq hg key, rfl, ?_⟩
  obtain ⟨hc, hw, hh, rfl⟩ := h
  have hu : Under h256Keying 0 key t := under_zero _ _
  show Answers σ _ key (lookup h256Keying 0 t key) _
  rw [lookup_eq_endOf]
  refine answers_of_climb (climb_offPath hc hu) rfl fun x hx i hi => ?_
  exact (walk_spec (Nat.zero_le _) hc hu).2 x hx i (by simpa only [length_map, zero_add] using hi)

end Answered

end Sahyadri.Smt
