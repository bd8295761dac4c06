import Sahyadri.Core.Tx
import Mathlib.Data.Set.Function

/-!
# The tree slots of accounts and DIDs

Accounts and DIDs share one tree. A slot is the hash of a key string: the version and the script of
an account, `"DID1"` and the DID string of a DID. `hash_key` pads the string with zeros to a
multiple of 32 bytes and reads every 8 bytes as a field element.

* `slots_apart_iff`: for a sponge without collisions on the four strings, the slots of two accounts
  and two DIDs are apart exactly when the strings do not alias.
-/

namespace Sahyadri.Core

open Lib Smt List Goldilocks

/-! ## 1. Key strings -/

def accountKeyBytes (spk : ScriptPublicKey) : Bytes := u16Le spk.version ++ spk.script

def accountKeyHash (c : Crypto) (spk : ScriptPublicKey) : H256 :=
  hashKey c.sponge (accountKeyBytes spk)

def strBytes (s : String) : Bytes := s.toUTF8.data.toList

def didKeyBytes (did : String) : Bytes := ascii "DID1" ++ strBytes did

def didKeyHash (c : Crypto) (did : String) : H256 := hashKey c.sponge (didKeyBytes did)

/-! ## 2. The elements of a key string -/

theorem length_padKey_mod (data : Bytes) : (padKey data).length % 32 = 0 := by
  unfold padKey
  dsimp only
  split
  · simp
  · rw [length_append, length_replicate]
    omega

theorem limb_chunk (bytes : Bytes) (i : Nat) {j : Nat} (hj : j < 4) :
    limb ((bytes.drop (32 * i)).take 32) j = limb bytes (4 * i + j) := by
  rw [limb, limb, drop_take, take_take, drop_drop]
  congr 2
  · omega
  · congr 1
    omega

theorem flatMap_range_four {α : Type} (f : Nat → α) (n : Nat) : ((List.range n).flatMap fun i =>
      (List.range 4).map fun j => f (4 * i + j)) = (List.range (4 * n)).map f := by
  induction n with
  | zero => rfl
  | succ n ih =>
    rw [range_succ (n := n), flatMap_append, ih, show 4 * (n + 1) = 4 * n + 4 by omega,
      range_add, map_append, flatMap_singleton]
    rfl

theorem keySeq_eq (data : Bytes) :
    keySeq data = keyDomain ++ (List.range ((padKey data).length / 8)).map fun j =>
      fromU64 (limb (padKey data) j) := by
  have hlen := length_padKey_mod data
  have hchunk : ∀ i, bytesToGoldilocks (((padKey data).drop (32 * i)).take 32) =
      (range 4).map fun j => fromU64 (limb (padKey data) (4 * i + j)) := by
    intro i
    refine map_congr_left fun j hj => ?_
    rw [limb_chunk _ _ (mem_range.mp hj)]
  unfold keySeq
  simp only [hchunk]
  rw [flatMap_range_four fun j => fromU64 (limb (padKey data) j)]
  congr 3
  omega

/-- Two strings that are padded to one length, with congruent limbs. -/
def KeyAlias (x y : Bytes) : Prop :=
  (padKey x).length = (padKey y).length ∧ ∀ i < (padKey x).length / 8,
      limb (padKey x) i % goldilocksPrime = limb (padKey y) i % goldilocksPrime

instance (x y : Bytes) : Decidable (KeyAlias x y) := by unfold KeyAlias; infer_instance

/-- **The same elements are hashed exactly for aliases.** -/
theorem keySeq_eq_iff {x y : Bytes} : keySeq x = keySeq y ↔ KeyAlias x y := by
  have hx := length_padKey_mod x
  have hy := length_padKey_mod y
  rw [keySeq_eq, keySeq_eq, append_cancel_left_eq]
  constructor
  · intro h
    have hlen : (padKey x).length = (padKey y).length := by
      have := congrArg length h
      simp only [length_map, length_range] at this
      omega
    refine ⟨hlen, fun i hi => ?_⟩
    rw [hlen] at h hi
    exact congrArg Fin.val (map_inj_left.mp h i (mem_range.mpr hi))
  · rintro ⟨hlen, h⟩
    rw [hlen] at h ⊢
    exact map_inj_left.mpr fun i hi => Fin.ext (h i (mem_range.mp hi))

/-! ## 3. Slots -/

/-- Without a collision on the two sequences, slots are equal exactly for aliases. -/
theorem hashKey_eq_iff {σ : Sponge} {x y : Bytes} (hσ : Set.InjOn σ {keySeq x, keySeq y}) :
    hashKey σ x = hashKey σ y ↔ KeyAlias x y := by
  rw [← keySeq_eq_iff]
  constructor
  · intro h
    exact hσ (.inl rfl) (.inr rfl) (goldilocksToBytes_inj h)
  · intro h
    rw [hashKey, hashKey, h]

/-- **Slots are apart exactly when the key strings do not alias.** -/
theorem slots_apart_iff (c : Crypto) (a b : ScriptPublicKey) (d e : String)
    (hσ : Set.InjOn c.sponge {keySeq (accountKeyBytes a), keySeq (accountKeyBytes b),
      keySeq (didKeyBytes d), keySeq (didKeyBytes e)}) : (accountKeyHash c a ≠ accountKeyHash c b ∧
      didKeyHash c d ≠ didKeyHash c e ∧ accountKeyHash c a ≠ didKeyHash c d) ↔
      ¬ KeyAlias (accountKeyBytes a) (accountKeyBytes b) ∧
      ¬ KeyAlias (didKeyBytes d) (didKeyBytes e) ∧
        ¬ KeyAlias (accountKeyBytes a) (didKeyBytes d) := by
  have hab : accountKeyHash c a = accountKeyHash c b ↔ _ := hashKey_eq_iff (hσ.mono fun x hx => by
    rcases hx with rfl | rfl <;> simp)
  have hde : didKeyHash c d = didKeyHash c e ↔ _ := hashKey_eq_iff (hσ.mono fun x hx => by
    rcases hx with rfl | rfl <;> simp)
  have had : accountKeyHash c a = didKeyHash c d ↔ _ := hashKey_eq_iff (hσ.mono fun x hx => by
    rcases hx with rfl | rfl <;> simp)
  exact and_congr (not_congr hab) (and_congr (not_congr hde) (not_congr had))

/-- A script and the same with a zero byte share a slot, so do two DIDs, and a script and a DID. -/
theorem slots_shared : Set.InjOn toyCrypto.sponge {keySeq (accountKeyBytes ⟨0x4944, ascii "D1x"⟩),
      keySeq (accountKeyBytes ⟨0x4944, ascii "D1x\x00"⟩),
          keySeq (didKeyBytes "x"), keySeq (didKeyBytes "x\x00")} ∧
            accountKeyHash toyCrypto ⟨0x4944, ascii "D1x"⟩ =
        accountKeyHash toyCrypto ⟨0x4944, ascii "D1x\x00"⟩ ∧
        didKeyHash toyCrypto "x" = didKeyHash toyCrypto "x\x00" ∧
      accountKeyHash toyCrypto ⟨0x4944, ascii "D1x"⟩ = didKeyHash toyCrypto "x" := by
  have h1 : keySeq (accountKeyBytes ⟨0x4944, ascii "D1x\x00"⟩) =
      keySeq (accountKeyBytes ⟨0x4944, ascii "D1x"⟩) := by decide
  have h2 : keySeq (didKeyBytes "x") = keySeq (accountKeyBytes ⟨0x4944, ascii "D1x"⟩) := by
    decide
  have h3 : keySeq (didKeyBytes "x\x00") = keySeq (accountKeyBytes ⟨0x4944, ascii "D1x"⟩) := by
    decide
  refine ⟨?_, by decide, by decide, by decide⟩
  rw [h1, h2, h3]
  simp

theorem injOn_of_list {α β : Type} {f : α → β}
    {l : List α} (h : ∀ x ∈ l, ∀ y ∈ l, f x = f y → x = y) {S : Set α}
    (hS : ∀ x ∈ S, x ∈ l) : Set.InjOn f S := fun x hx y hy => h x (hS x hx) y (hS y hy)

theorem slots_apart_small :
    accountKeyHash toyCrypto ⟨0, [1]⟩ ≠ accountKeyHash toyCrypto ⟨0, [2]⟩ ∧
      didKeyHash toyCrypto "a" ≠ didKeyHash toyCrypto "b" ∧
      accountKeyHash toyCrypto ⟨0, [1]⟩ ≠ didKeyHash toyCrypto "a" :=
  (slots_apart_iff toyCrypto
    ⟨0, [1]⟩ ⟨0, [2]⟩ "a" "b" (injOn_of_list (l := [keySeq (accountKeyBytes ⟨0, [1]⟩),
    keySeq (accountKeyBytes ⟨0, [2]⟩), keySeq (didKeyBytes "a"), keySeq (didKeyBytes "b")])
    (by decide) fun x hx => by simpa using hx)).mpr (by decide)

end Sahyadri.Core
