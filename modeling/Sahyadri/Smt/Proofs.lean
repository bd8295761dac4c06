import Sahyadri.Smt.Tree
import Mathlib.Data.Set.Function

/-!
# `crypto/smt`: what a verified proof says

* `proofs_consistent_iff`: contradictory proofs are ruled out exactly for unaliased keys, and for
  values that do not alias each other.
-/

namespace Sahyadri.Smt

open Lib List Terminal

/-! ## 1. The verifier -/

section Verifier

variable (σ : Sponge) (key : H256)

/-- The loop of `compute_root`, from sibling `i` on: the last sibling is hashed first. -/
def climb : Nat → List H256 → H256 → Run Empty H256
  | _, [], h => return h
  | i, sib :: rest, h => do
    let h ← climb (i + 1) rest h
    let b ← bit key i
    return if b = 0 then hashBranch σ h sib else hashBranch σ sib h

/-- The hash a proof starts from. -/
def Terminal.hash : Terminal → H256
  | .empty => .empty
  | .leaf k v => hashLeaf σ k v

def computeRoot (proof : Proof) : Run Empty H256 :=
  climb σ key 0 proof.siblings (proof.terminal.hash σ)

/-- `shares_prefix`, from bit `i` on with `n` bits to go. -/
def sharesPrefixFrom (a b : H256) : Nat → Nat → Run Empty Bool
  | _, 0 => return true
  | i, n + 1 => do
    let x ← bit a i
    let y ← bit b i
    if x = y then sharesPrefixFrom a b (i + 1) n else return false

def sharesPrefix (a b : H256) (n : Nat) : Run Empty Bool := sharesPrefixFrom a b 0 n

/-- `verify_inclusion`: `key -> value` is present under `root`. -/
def verifyInclusion (root key value : H256) (proof : Proof) : Run Empty Bool :=
  match proof.terminal with
  | .leaf k v =>
    if k = key ∧ v = value then do return (← computeRoot σ key proof) = root else return false
  | .empty => return false

/-- `verify_exclusion`: `key` is absent under `root`. -/
def verifyExclusion (root key : H256) (proof : Proof) : Run Empty Bool :=
  match proof.terminal with
  | .empty => do return (← computeRoot σ key proof) = root
  | .leaf k _ =>
    if k ≠ key then do
      if ← sharesPrefix k key proof.siblings.length then return (← computeRoot σ key proof) = root
      else return false
    else return false

/-! ## 2. The sequences hashed -/

/-- The sequences the loop of `compute_root` hashes. -/
def climbSeqs : Nat → List H256 → H256 → List (List Goldilocks)
  | _, [], _ => []
  | i, sib :: rest, h =>
    climbSeqs (i + 1) rest h ++
      match climb σ key (i + 1) rest h, (bit key i : Run Empty UInt8) with
      | .ok h', .ok b => [if b = 0 then branchSeq h' sib else branchSeq sib h']
      | _, _ => []

def Terminal.seqs : Terminal → List (List Goldilocks)
  | .empty => []
  | .leaf k v => [leafSeq k v]

/-- The field sequences hashed while `proof` is checked for `key`. -/
def hashedBy (proof : Proof) : List (List Goldilocks) :=
  proof.terminal.seqs ++ climbSeqs σ key 0 proof.siblings (proof.terminal.hash σ)

end Verifier

/-- The sponge has no collision on `𝒮` and never yields four zero elements there. -/
structure GoodSeqs (σ : Sponge) (𝒮 : Set (List Goldilocks)) : Prop where
  inj : Set.InjOn σ 𝒮
  ne_zero : ∀ x ∈ 𝒮, σ x ≠ .zero

/-! ## 3. Two climbs to one root -/

section Climbs

variable {σ : Sponge} {key : H256} {𝒮 : Set (List Goldilocks)}
variable {h top sib a b k v root : H256} {rest sibs : List H256} {i : Nat}

/-- A climb over at least one sibling ends in the hash of a branch. -/
theorem climb_cons (hc : climb σ key i (sib :: rest) h = .ok top) :
    ∃ h' b, climb σ key (i + 1) rest h = .ok h' ∧ (bit key i : Run Empty UInt8) = .ok b ∧
      climbSeqs σ key i (sib :: rest) h = climbSeqs σ key (i + 1) rest h ++
        [if b = 0 then branchSeq h' sib else branchSeq sib h'] ∧
      top = goldilocksToBytes (σ (if b = 0 then branchSeq h' sib else branchSeq sib h')) := by
  obtain ⟨h', h1, h2⟩ := Run.bind_eq_ok.mp hc
  obtain ⟨b, h3, h4⟩ := Run.bind_eq_ok.mp h2
  refine ⟨h', b, h1, h3, ?_, ?_⟩
  · rw [climbSeqs, h1, h3]
  · cases h4
    split <;> rfl

/-- `a` was written from field elements, as `EMPTY` is and every hash. -/
def Written (a : H256) : Prop := ∃ d, a = goldilocksToBytes d

theorem written_climb (hw : Written h) (hc : climb σ key i sibs h = .ok top) : Written top := by
  cases sibs with
  | nil => cases hc; exact hw
  | cons sib rest =>
    obtain ⟨h', b, _, _, _, rfl⟩ := climb_cons hc
    exact ⟨_, rfl⟩

theorem Terminal.written (t : Terminal) : Written (t.hash σ) := by
  cases t with
  | empty => exact ⟨.zero, goldilocksToBytes_zero.symm⟩
  | leaf k v => exact ⟨_, rfl⟩

theorem Written.eq (ha : Written a) (hb : Written b)
    (h : bytesToGoldilocks a.bytes = bytesToGoldilocks b.bytes) : a = b := by
  obtain ⟨d, rfl⟩ := ha
  obtain ⟨e, rfl⟩ := hb
  rw [bytesToGoldilocks_goldilocksToBytes, bytesToGoldilocks_goldilocksToBytes] at h
  cases d
  cases e
  cases h
  rfl

/-- `a` is the hash of a branch sequence of `𝒮`. -/
def BranchIn (σ : Sponge) (𝒮 : Set (List Goldilocks)) (a : H256) : Prop :=
  ∃ l r, branchSeq l r ∈ 𝒮 ∧ a = goldilocksToBytes (σ (branchSeq l r))

theorem branchIn_of_cons (hc : climb σ key i (sib :: rest) h = .ok top)
    (hs : ∀ x ∈ climbSeqs σ key i (sib :: rest) h, x ∈ 𝒮) : BranchIn σ 𝒮 top := by
  obtain ⟨h', b, _, _, hseq, rfl⟩ := climb_cons hc
  rw [hseq] at hs
  have hm := hs _ (mem_append_right _ (mem_singleton.mpr rfl))
  by_cases hb : b = 0
  · simp only [if_pos hb] at hm ⊢
    exact ⟨_, _, hm, rfl⟩
  · simp only [if_neg hb] at hm ⊢
    exact ⟨_, _, hm, rfl⟩

/-- **Two climbs along one key that end in one root meet.** -/
theorem climb_meet (hg : GoodSeqs σ 𝒮) (ha : Written a) (hb : Written b) :
    ∀ {i : Nat} {ps qs : List H256} {top : H256},
    climb σ key i ps a = .ok top → climb σ key i qs b = .ok top →
      (∀ x ∈ climbSeqs σ key i ps a, x ∈ 𝒮) → (∀ x ∈ climbSeqs σ key i qs b, x ∈ 𝒮) →
        a = b ∨ BranchIn σ 𝒮 a ∨ BranchIn σ 𝒮 b
  | i, [], [], top, hp, hq, _, _ => by
    cases hp
    cases hq
    exact .inl rfl
  | i, [], t :: qs, top, hp, hq, _, hsq => by
    cases hp
    exact .inr (.inl (branchIn_of_cons hq hsq))
  | i, s :: ps, [], top, hp, hq, hsp, _ => by
    cases hq
    exact .inr (.inr (branchIn_of_cons hp hsp))
  | i, s :: ps, t :: qs, top, hp, hq, hsp, hsq => by
    obtain ⟨h₁, b₁, hc₁, hb₁, hseq₁, rfl⟩ := climb_cons hp
    obtain ⟨h₂, b₂, hc₂, hb₂, hseq₂, htop⟩ := climb_cons hq
    rw [hseq₁] at hsp
    rw [hseq₂] at hsq
    obtain rfl : b₁ = b₂ := Except.ok.inj (hb₁.symm.trans hb₂)
    have heq := hg.inj (hsp _ (mem_append_right _ (mem_singleton.mpr rfl)))
      (hsq _ (mem_append_right _ (mem_singleton.mpr rfl))) (goldilocksToBytes_inj htop)
    -- the rest of both climbs is on the same side, and ends in written hashes
    have hside : h₁ = h₂ := by
      refine (written_climb ha hc₁).eq (written_climb hb hc₂) ?_
      split at heq
      · exact (seq_inj heq).1
      · exact (seq_inj heq).2
    subst hside
    exact climb_meet hg ha hb hc₁ hc₂ (fun x hx => hsp x (mem_append_left _ hx))
      fun x hx => hsq x (mem_append_left _ hx)

theorem not_branchIn_leaf (hg : GoodSeqs σ 𝒮) (hk : leafSeq k v ∈ 𝒮) :
    ¬ BranchIn σ 𝒮 (hashLeaf σ k v) := by
  rintro ⟨l, r, hm, h⟩
  exact leafSeq_ne_branchSeq k v l r (hg.inj hk hm (goldilocksToBytes_inj h))

theorem not_branchIn_empty (hg : GoodSeqs σ 𝒮) : ¬ BranchIn σ 𝒮 .empty := by
  rintro ⟨l, r, hm, h⟩
  exact hg.ne_zero _ hm (goldilocksToBytes_eq_empty.mp h.symm)

/-- **Two proofs for one key that compute one root start from one hash.** -/
theorem terminal_eq (hg : GoodSeqs σ 𝒮) {p q : Proof} (hp : computeRoot σ key p = .ok root)
    (hq : computeRoot σ key q = .ok root) (hsp : ∀ x ∈ hashedBy σ key p, x ∈ 𝒮)
    (hsq : ∀ x ∈ hashedBy σ key q, x ∈ 𝒮) : p.terminal.hash σ = q.terminal.hash σ := by
  have hno : ∀ t : Terminal, (∀ x ∈ t.seqs, x ∈ 𝒮) → ¬ BranchIn σ 𝒮 (t.hash σ) := by
    intro t ht
    cases t with
    | empty => exact not_branchIn_empty hg
    | leaf k v => exact not_branchIn_leaf hg (ht _ (mem_singleton.mpr rfl))
  rcases climb_meet hg p.terminal.written q.terminal.written hp hq (fun x hx =>
    hsp x (mem_append_right _ hx)) (fun x hx => hsq x (mem_append_right _ hx)) with h | h | h
  · exact h
  · exact absurd h (hno _ fun x hx => hsp x (mem_append_left _ hx))
  · exact absurd h (hno _ fun x hx => hsq x (mem_append_left _ hx))

end Climbs

/-! ## 4. What the verifier accepted -/

section Accepted

variable {σ : Sponge} {root key value : H256} {p q : Proof}

theorem inclusion_iff : verifyInclusion σ root key value p = .ok true ↔
    p.terminal = .leaf key value ∧ computeRoot σ key p = .ok root := by
  unfold verifyInclusion
  cases p.terminal with
  | empty => simp [pure, Except.pure]
  | leaf k v =>
    by_cases h : k = key ∧ v = value
    · obtain ⟨rfl, rfl⟩ := h
      cases computeRoot σ k p <;> simp [pure, Except.pure]
    · simp only [leaf.injEq, h, false_and, iff_false]
      simp [pure, Except.pure]

theorem exclusion_cases (h : verifyExclusion σ root key q = .ok true) :
    computeRoot σ key q = .ok root ∧
    (q.terminal = .empty ∨ ∃ k v, q.terminal = .leaf k v ∧ k ≠ key) := by
  unfold verifyExclusion at h
  cases ht : q.terminal with
  | empty =>
    rw [ht] at h
    obtain ⟨r, h1, h2⟩ := Run.bind_eq_ok.mp h
    refine ⟨?_, .inl rfl⟩
    rw [h1]
    simpa [pure, Except.pure] using h2
  | leaf k v =>
    rw [ht] at h
    dsimp only at h
    split at h
    · rename_i hk
      obtain ⟨b, _, h2⟩ := Run.bind_eq_ok.mp h
      split at h2
      · obtain ⟨r, h3, h4⟩ := Run.bind_eq_ok.mp h2
        refine ⟨?_, .inr ⟨k, v, rfl, hk⟩⟩
        rw [h3]
        simpa [pure, Except.pure] using h4
      · simp [pure, Except.pure] at h2
    · simp [pure, Except.pure] at h

end Accepted

/-! ## 5. Aliases

Reading eight bytes as a field element forgets whether the prime was added once. -/

/-- Every limb is large enough not to allow the prime, and smaller than it. -/
def Unaliased (a : H256) : Prop :=
  ∀ i < 4, 2 ^ 64 - goldilocksPrime ≤ limb a.bytes i ∧ limb a.bytes i < goldilocksPrime

instance (a : H256) : Decidable (Unaliased a) := by unfold Unaliased; infer_instance

theorem Unaliased.eq {a b : H256} (ha : Unaliased a)
    (h : bytesToGoldilocks b.bytes = bytesToGoldilocks a.bytes) : b = a := by
  apply H256.eq_of_limbs
  intro i hi
  have hmod := bytesToGoldilocks_eq_iff.mp h i hi
  obtain ⟨h1, h2⟩ := ha i hi
  have hb := limb_lt b.bytes i
  rw [Nat.mod_eq_of_lt h2] at hmod
  -- the quotient of the other limb is 0 or 1, and 1 would pass `2^64`
  have hdiv := Nat.div_add_mod (limb b.bytes i) goldilocksPrime
  rw [hmod] at hdiv
  have hq : limb b.bytes i / goldilocksPrime = 0 := by
    unfold goldilocksPrime at *
    omega
  rw [hq, mul_zero, zero_add] at hdiv
  exact hdiv.symm

def otherLimb (n : Nat) : Nat :=
  if n < goldilocksPrime then n + goldilocksPrime else n - goldilocksPrime

/-- The string with limb `j` replaced by the other one. -/
def aliasAt (a : H256) (j : Nat) : H256 :=
  ⟨limbBytes ((List.range 4).map fun i =>
    if i = j then otherLimb (limb a.bytes i) else limb a.bytes i), by simp [length_limbBytes]⟩

/-- **A string with a limb out of range has an alias.** -/
theorem exists_alias {a : H256} (ha : ¬ Unaliased a) :
    ∃ b, b ≠ a ∧ bytesToGoldilocks b.bytes = bytesToGoldilocks a.bytes := by
  simp only [Unaliased, not_forall] at ha
  obtain ⟨j, hj, hbad⟩ := ha
  have hlt := limb_lt a.bytes j
  have hother : otherLimb (limb a.bytes j) < 2 ^ 64 ∧ otherLimb (limb a.bytes j) ≠ limb a.bytes j ∧
      otherLimb (limb a.bytes j) % goldilocksPrime = limb a.bytes j % goldilocksPrime := by
    unfold otherLimb
    split
    · rename_i h
      refine ⟨by unfold goldilocksPrime at *; omega, by unfold goldilocksPrime; omega, ?_⟩
      rw [Nat.add_mod_right]
    · rename_i h
      refine ⟨by omega, by unfold goldilocksPrime at *; omega, ?_⟩
      rw [← Nat.mod_eq_sub_mod (Nat.le_of_not_lt h)]
  have hlimb : ∀ i < 4, limb (aliasAt a j).bytes i = if i = j then otherLimb (limb a.bytes i)
      else limb a.bytes i := by
    intro i hi
    rw [aliasAt, limb_limbBytes ?_ (by simpa using hi)]
    · simp
    · intro n hn
      obtain ⟨m, _, rfl⟩ := mem_map.mp hn
      split
      · rename_i hm
        rw [hm]
        exact hother.1
      · exact limb_lt _ _
  refine ⟨aliasAt a j, fun h => hother.2.1 ?_, bytesToGoldilocks_eq_iff.mpr fun i hi => ?_⟩
  · have := hlimb j hj
    rw [if_pos rfl, h] at this
    exact this.symm
  · rw [hlimb i hi]
    split
    · rename_i hm
      rw [hm]
      exact hother.2.2
    · rfl

/-! ## 6. Contradictory proofs -/

section Consistent

variable {σ : Sponge} {key : H256}
variable {k k' v v' : H256}

def leafProof (k v : H256) : Proof := ⟨[], .leaf k v⟩

theorem hashedBy_leafProof (k v : H256) : hashedBy σ key (leafProof k v) = [leafSeq k v] := rfl

theorem inclusion_leafProof (k v : H256) :
    verifyInclusion σ (hashLeaf σ k v) k v (leafProof k v) = .ok true :=
  inclusion_iff.mpr ⟨rfl, rfl⟩

theorem exclusion_leafProof (hk : k ≠ key) (v : H256) :
    verifyExclusion σ (hashLeaf σ k v) key (leafProof k v) = .ok true := by
  unfold verifyExclusion leafProof
  dsimp only
  rw [if_pos hk]
  exact congrArg Except.ok (decide_eq_true rfl)

theorem goodSeqs_leafProofs (h : leafSeq k' v' = leafSeq k v) (hσ : σ (leafSeq k v) ≠ .zero) :
    GoodSeqs σ {x | x ∈ hashedBy σ key (leafProof k v) ∨ x ∈ hashedBy σ key (leafProof k' v')} := by
  have hone : ∀ x, x ∈ hashedBy σ key (leafProof k v) ∨ x ∈ hashedBy σ key (leafProof k' v') →
      x = leafSeq k v := by
    intro x hx
    rw [hashedBy_leafProof, hashedBy_leafProof, h, or_self, mem_singleton] at hx
    exact hx
  refine ⟨fun x hx y hy _ => (hone x hx).trans (hone y hy).symm, fun x hx => ?_⟩
  rw [hone x hx]
  exact hσ

/-- **Contradictory proofs are ruled out exactly for unaliased keys and values that do not alias
    each other.** -/
theorem proofs_consistent_iff (σ : Sponge) (key v₁ v₂ : H256) (hσ : σ (leafSeq key v₁) ≠ .zero) :
    (∀ root p q, GoodSeqs σ {x | x ∈ hashedBy σ key p ∨ x ∈ hashedBy σ key q} →
      ¬ (verifyInclusion σ root key v₁ p = .ok true ∧ verifyExclusion σ root key q = .ok true) ∧
      (verifyInclusion σ root key v₁ p = .ok true →
        verifyInclusion σ root key v₂ q = .ok true → v₁ = v₂)) ↔ Unaliased key ∧
          ((∀ i < 4, limb v₁.bytes i % goldilocksPrime = limb v₂.bytes i % goldilocksPrime) →
            v₁ = v₂) := by
  constructor
  · intro h
    refine ⟨?_, fun hv => ?_⟩
    · by_contra hal
      obtain ⟨k, hne, hk⟩ := exists_alias hal
      have hseq : leafSeq k v₁ = leafSeq key v₁ := by rw [leafSeq, hk, leafSeq]
      refine (h (hashLeaf σ key v₁) (leafProof key v₁) (leafProof k v₁)
        (goodSeqs_leafProofs hseq hσ)).1 ⟨inclusion_leafProof _ _, ?_⟩
      have := exclusion_leafProof (σ := σ) hne v₁
      rwa [hashLeaf, hseq] at this
    · have hseq : leafSeq key v₂ = leafSeq key v₁ := by
        rw [leafSeq, leafSeq, bytesToGoldilocks_eq_iff.mpr hv]
      refine (h (hashLeaf σ key v₁) (leafProof key v₁) (leafProof key v₂)
        (goodSeqs_leafProofs hseq hσ)).2 (inclusion_leafProof _ _) ?_
      have := inclusion_leafProof (σ := σ) key v₂
      rwa [hashLeaf, hseq] at this
  · rintro ⟨hkey, hval⟩ root p q hg
    refine ⟨?_, fun hp hq => ?_⟩
    · rintro ⟨hp, hq⟩
      obtain ⟨htp, hcp⟩ := inclusion_iff.mp hp
      obtain ⟨hcq, htq⟩ := exclusion_cases hq
      have heq := terminal_eq hg hcp hcq (fun x hx => .inl hx) (fun x hx => .inr hx)
      have hin : leafSeq key v₁ ∈ hashedBy σ key p := by simp [hashedBy, htp, seqs]
      rw [htp] at heq
      rcases htq with htq | ⟨k, v, htq, hne⟩
      · rw [htq] at heq
        exact hg.ne_zero _ (.inl hin) (goldilocksToBytes_eq_empty.mp heq)
      · have hin' : leafSeq k v ∈ hashedBy σ key q := by simp [hashedBy, htq, seqs]
        rw [htq] at heq
        have hs := hg.inj (.inl hin) (.inr hin') (goldilocksToBytes_inj heq)
        exact hne (hkey.eq (seq_inj hs).1.symm)
    · obtain ⟨htp, hcp⟩ := inclusion_iff.mp hp
      obtain ⟨htq, hcq⟩ := inclusion_iff.mp hq
      have heq := terminal_eq hg hcp hcq (fun x hx => .inl hx) (fun x hx => .inr hx)
      have hin : leafSeq key v₁ ∈ hashedBy σ key p := by simp [hashedBy, htp, seqs]
      have hin' : leafSeq key v₂ ∈ hashedBy σ key q := by simp [hashedBy, htq, seqs]
      rw [htp, htq] at heq
      have hs := hg.inj (.inl hin) (.inr hin') (goldilocksToBytes_inj heq)
      exact hval (bytesToGoldilocks_eq_iff.mp (seq_inj hs).2)

/-- The zero key and the key whose first limb is the prime: one leaf proves the zero key present
    and absent. -/
theorem contradictory_proofs_zero_key :
    GoodSeqs polySponge {x | x ∈ hashedBy polySponge (.ofNat 0) (leafProof (.ofNat 0) (.ofNat 5)) ∨
        x ∈ hashedBy polySponge (.ofNat 0) (leafProof (.ofNat goldilocksPrime) (.ofNat 5))} ∧
      verifyInclusion polySponge (hashLeaf polySponge (.ofNat 0) (.ofNat 5)) (.ofNat 0) (.ofNat 5)
        (leafProof (.ofNat 0) (.ofNat 5)) = .ok true ∧
      verifyExclusion polySponge (hashLeaf polySponge (.ofNat 0) (.ofNat 5)) (.ofNat 0)
        (leafProof (.ofNat goldilocksPrime) (.ofNat 5)) = .ok true :=
  ⟨goodSeqs_leafProofs (by decide) (by decide), by decide, by decide⟩

/-- A key of 32 bytes `0x01` is unaliased: its inclusion proof is no exclusion proof. -/
theorem proofs_consistent_ones :
    verifyInclusion polySponge (hashLeaf polySponge ⟨List.replicate 32 1, by decide⟩ (.ofNat 5))
        ⟨List.replicate 32 1, by decide⟩ (.ofNat 5)
          (leafProof ⟨List.replicate 32 1, by decide⟩ (.ofNat 5)) = .ok true ∧
      verifyExclusion polySponge (hashLeaf polySponge ⟨List.replicate 32 1, by decide⟩ (.ofNat 5))
        ⟨List.replicate 32 1, by decide⟩ (leafProof ⟨List.replicate 32 1, by decide⟩ (.ofNat 5)) ≠
          .ok true := by
  have hp := inclusion_leafProof (σ := polySponge) ⟨replicate 32 1, by decide⟩ (.ofNat 5)
  refine ⟨hp, fun hq => ?_⟩
  exact ((proofs_consistent_iff polySponge _ (.ofNat 5) (.ofNat 6) (by decide)).mpr
    ⟨by decide, fun h => absurd h (by decide)⟩ _ _ _
    (goodSeqs_leafProofs rfl (by decide))).1 ⟨hp, hq⟩

end Consistent

end Sahyadri.Smt
