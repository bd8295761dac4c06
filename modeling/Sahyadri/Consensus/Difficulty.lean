import Sahyadri.Consensus.Protocol
import Mathlib.Data.Prod.Lex
import Mathlib.Data.List.Perm.Basic
import Mathlib.Algebra.Group.Action.Defs
import Mathlib.Algebra.Order.BigOperators.Group.List

/-!
# `calculate_difficulty_bits`: the target of a block from a window of headers

The average target of the window is scaled by the time that the window took. It is never harder than
the target of the genesis block and never easier than the maximal one, and it is rounded down to a
compact target.

* `compact_truncates`: what the compact form of a target keeps, and the work of a target.
* `difficulty_reacts`: what happens to the average when the blocks are twice as fast or slow as they
  should be. `genesis_cap`: at the target of the genesis block faster blocks change nothing.
-/

namespace Sahyadri.Consensus

open Lib Smt Core List

/-! ## 1. Compact targets -/

/-- `Uint256::bits`. -/
def bitLength (x : BitVec 256) : Nat := if x = 0 then 0 else Nat.log2 x.toNat + 1

def compactTargetBits (x : BitVec 256) : UInt32 :=
  let size := (bitLength x + 7) / 8
  let compact :=
    if size ≤ 3 then x.toNat % 2 ^ 64 * 2 ^ (8 * (3 - size)) % 2 ^ 64 % 2 ^ 32
    else x.toNat / 2 ^ (8 * (size - 3)) % 2 ^ 64 % 2 ^ 32
  let (compact, size) :=
    if compact / 2 ^ 23 % 2 = 1 then (compact / 2 ^ 8, size + 1) else (compact, size)
  UInt32.ofNat (size <<< 24 ||| compact)

variable (bits : UInt32)

/-- A target as it is decoded from its compact form. -/
def decodedTarget : Nat := (fromCompactTargetBits bits).toNat

/-- A target after the rounding to the compact form. -/
def roundTarget (x : BitVec 256) : Nat := decodedTarget (compactTargetBits x)

theorem decodedTarget_pack {mant size : Nat} (hm : mant < 2 ^ 23) (hs : size ≤ 33)
    (hfit : mant * 2 ^ (8 * (size - 3)) < 2 ^ 256) :
    decodedTarget (UInt32.ofNat (size <<< 24 ||| mant)) =
      if size ≤ 3 then mant / 2 ^ (8 * (3 - size)) else mant * 2 ^ (8 * (size - 3)) := by
  have hpack : (UInt32.ofNat (size <<< 24 ||| mant)).toNat = size * 2 ^ 24 + mant := by
    rw [← Nat.shiftLeft_add_eq_or_of_lt (lt_of_lt_of_le hm (by decide)), Nat.shiftLeft_eq]
    exact UInt32.toNat_ofNat_of_lt' (by
      rw [show UInt32.size = 2 ^ 32 from rfl]
      omega)
  rw [decodedTarget, fromCompactTargetBits, hpack, show (size * 2 ^ 24 + mant) / 2 ^ 24 = size by
    omega, show (size * 2 ^ 24 + mant) % 2 ^ 24 = mant by omega]
  by_cases h3 : size ≤ 3
  · rw [if_pos h3, if_pos h3]
    dsimp only
    have hle := Nat.div_le_self mant (2 ^ (8 * (3 - size)))
    rw [if_neg (by omega), Nat.zero_mod, BitVec.shiftLeft_zero, BitVec.toNat_ofNat,
      Nat.mod_eq_of_lt (by omega)]
  · rw [if_neg h3, if_neg h3]
    dsimp only
    rw [if_neg (by omega), Nat.mod_eq_of_lt (by omega), BitVec.toNat_shiftLeft, BitVec.toNat_ofNat,
      Nat.mod_eq_of_lt (show mant < 2 ^ 256 by omega), Nat.shiftLeft_eq, Nat.mod_eq_of_lt hfit]

theorem decodedTarget_signed {compact size : Nat} (hc : compact < 2 ^ 24) (hs : size ≤ 32)
    (hfit : compact * 2 ^ (8 * (size - 3)) < 2 ^ 256) :
    decodedTarget (UInt32.ofNat ((if compact / 2 ^ 23 % 2 = 1 then (compact / 2 ^ 8, size + 1)
      else (compact, size)).2 <<< 24 |||
        (if compact / 2 ^ 23 % 2 = 1 then (compact / 2 ^ 8, size + 1) else (compact, size)).1)) =
      if compact < 2 ^ 23 then
        if size ≤ 3 then compact / 2 ^ (8 * (3 - size)) else compact * 2 ^ (8 * (size - 3))
      else if size + 1 ≤ 3 then compact / 2 ^ 8 / 2 ^ (8 * (3 - (size + 1)))
      else compact / 2 ^ 8 * 2 ^ (8 * (size + 1 - 3)) := by
  by_cases h : compact < 2 ^ 23
  · rw [if_neg (show ¬ compact / 2 ^ 23 % 2 = 1 by omega), if_pos h]
    exact decodedTarget_pack h (by omega) hfit
  · rw [if_pos (show compact / 2 ^ 23 % 2 = 1 by omega), if_neg h]
    refine decodedTarget_pack (by omega) (by omega) (lt_of_le_of_lt ?_ hfit)
    by_cases h3 : size ≤ 2
    · rw [show size + 1 - 3 = 0 by omega, show size - 3 = 0 by omega]
      exact Nat.mul_le_mul_right _ (Nat.div_le_self _ _)
    · calc compact / 2 ^ 8 * 2 ^ (8 * (size + 1 - 3)) =
        compact / 2 ^ 8 * 2 ^ 8 * 2 ^ (8 * (size - 3)) := by
            rw [mul_assoc, ← Nat.pow_add, show 8 + 8 * (size - 3) = 8 * (size + 1 - 3) by omega]
        _ ≤ compact * 2 ^ (8 * (size - 3)) := Nat.mul_le_mul_right _ (Nat.div_mul_le_self _ _)

variable {x : BitVec 256}

theorem bitLength_le_iff {n : Nat} : bitLength x ≤ n ↔ x.toNat < 2 ^ n := by
  unfold bitLength
  split
  · rename_i h
    rw [h]
    exact iff_of_true (Nat.zero_le n) (Nat.two_pow_pos n)
  · rename_i h
    exact Nat.log2_lt fun h0 => h (BitVec.eq_of_toNat_eq h0)

/-- The number of lower bits that are cut off: three bytes stay, with one bit for the sign. -/
def cutBits (x : BitVec 256) : Nat := 8 * (bitLength x / 8 - 2)

/-- **The rounding cuts off lower bits.** -/
theorem roundTarget_eq (x : BitVec 256) :
    roundTarget x = x.toNat / 2 ^ cutBits x * 2 ^ cutBits x := by
  by_cases hx : bitLength x = 0
  · rw [BitVec.eq_of_toNat_eq (y := 0) (Nat.lt_one_iff.mp (bitLength_le_iff.mp hx.le))]
    decide
  obtain ⟨l, hl⟩ := Nat.exists_eq_succ_of_ne_zero hx
  have hhi : x.toNat < 2 ^ (l + 1) := bitLength_le_iff.mp hl.le
  have hlo : 2 ^ l ≤ x.toNat := not_lt.mp (mt bitLength_le_iff.mpr (by omega))
  have hl256 : bitLength x ≤ 256 := bitLength_le_iff.mpr x.isLt
  obtain ⟨s, r, hr, rfl⟩ : ∃ s r, r < 8 ∧ l = 8 * s + r := ⟨l / 8, l % 8, by omega, by omega⟩
  have hcut : (8 * s + r + 1) / 8 - 2 = if r < 7 then s - 2 else s - 1 := by
    split <;> omega
  -- the sign bit of the mantissa is the highest bit of the first byte
  have hsign : ∀ {c : Nat}, 2 ^ (16 + r) ≤ c → c < 2 ^ (16 + r + 1) →
      c < 2 ^ 24 ∧ (c < 2 ^ 23 ↔ r < 7) := by
    intro c hge hlt
    refine ⟨hlt.trans_le (Nat.pow_le_pow_right Nat.two_pos (by omega)), fun h => ?_, fun h => ?_⟩
    · have := (Nat.pow_lt_pow_iff_right Nat.one_lt_two).mp (hge.trans_lt h)
      omega
    · exact hlt.trans_le (Nat.pow_le_pow_right Nat.two_pos (by omega))
  unfold roundTarget compactTargetBits cutBits
  rw [hl, hcut, show (8 * s + r + 1 + 7) / 8 = s + 1 by omega]
  dsimp only
  by_cases h3 : s + 1 ≤ 3
  · have hpow : ∀ i, 2 ^ (8 * s + i) * 2 ^ (8 * (2 - s)) = 2 ^ (16 + i) := fun i => by
      rw [← Nat.pow_add]
      congr 1
      omega
    obtain ⟨hc, h23⟩ := hsign (hpow r ▸ Nat.mul_le_mul_right _ hlo)
      (hpow (r + 1) ▸ Nat.mul_lt_mul_of_pos_right hhi (Nat.two_pow_pos _))
    have hle : x.toNat ≤ x.toNat * 2 ^ (8 * (2 - s)) :=
      Nat.le_mul_of_pos_right _ (Nat.two_pow_pos _)
    rw [if_pos h3, show 3 - (s + 1) = 2 - s by omega,
      Nat.mod_eq_of_lt (show x.toNat < 2 ^ 64 by omega),
      Nat.mod_eq_of_lt (show x.toNat * 2 ^ (8 * (2 - s)) < 2 ^ 64 by omega),
      Nat.mod_eq_of_lt (show x.toNat * 2 ^ (8 * (2 - s)) < 2 ^ 32 by omega),
      decodedTarget_signed hc (by omega) (by
        rw [show s + 1 - 3 = 0 by omega]
        omega)]
    simp only [h23]
    have hs2 : s = 0 ∨ s = 1 ∨ s = 2 := by omega
    rcases hs2 with rfl | rfl | rfl <;> split <;> simp
    -- only a set sign bit cuts off the last of three bytes
    omega
  · have hpow : ∀ i, 2 ^ (16 + i) * 2 ^ (8 * (s - 2)) = 2 ^ (8 * s + i) := fun i => by
      rw [← Nat.pow_add]
      congr 1
      omega
    obtain ⟨hc, h23⟩ := hsign ((Nat.le_div_iff_mul_le (Nat.two_pow_pos _)).mpr (hpow r ▸ hlo))
      ((Nat.div_lt_iff_lt_mul (Nat.two_pow_pos _)).mpr (hpow (r + 1) ▸ hhi))
    have hfit := Nat.div_mul_le_self x.toNat (2 ^ (8 * (s - 2)))
    rw [if_neg h3, show s + 1 - 3 = s - 2 by omega,
      Nat.mod_eq_of_lt (show x.toNat / 2 ^ (8 * (s - 2)) < 2 ^ 64 by omega),
      Nat.mod_eq_of_lt (show x.toNat / 2 ^ (8 * (s - 2)) < 2 ^ 32 by omega),
      decodedTarget_signed hc (by omega) (by
        rw [show s + 1 - 3 = s - 2 by omega]
        omega), if_neg h3, if_neg (show ¬ s + 1 + 1 ≤ 3 by omega)]
    simp only [h23]
    split
    · rfl
    · rw [Nat.div_div_eq_div_mul, ← Nat.pow_add, show 8 * (s - 2) + 8 = 8 * (s - 1) by omega,
        show s + 1 + 1 - 3 = s - 1 by omega]

theorem roundTarget_le (x : BitVec 256) : roundTarget x ≤ x.toNat :=
  roundTarget_eq x ▸ Nat.div_mul_le_self _ _

theorem sub_roundTarget_le (x : BitVec 256) : x.toNat - roundTarget x ≤ x.toNat / 2 ^ 15 := by
  have hmod := Nat.div_add_mod' x.toNat (2 ^ cutBits x)
  rw [roundTarget_eq]
  by_cases h : cutBits x = 0
  · rw [h, pow_zero, Nat.div_one, Nat.mul_one, Nat.sub_self]
    exact Nat.zero_le _
  · -- if anything is cut off, then 16 bits are left
    have hge : 2 ^ (15 + cutBits x) ≤ x.toNat := not_lt.mp (mt bitLength_le_iff.mpr (by
      unfold cutBits at h ⊢
      omega))
    rw [Nat.pow_add] at hge
    omega

theorem lt_two_mul_roundTarget (hx : x.toNat ≠ 0) : x.toNat < 2 * roundTarget x := by
  have := sub_roundTarget_le x
  omega

theorem le_roundTarget {n : Nat} (hdvd : 2 ^ cutBits x ∣ n) (hn : n ≤ x.toNat) :
    n ≤ roundTarget x := by
  rw [roundTarget_eq, ← Nat.div_mul_cancel hdvd]
  exact Nat.mul_le_mul_right _ (Nat.div_le_div_right hn)

theorem roundTarget_mono {x y : BitVec 256} (h : x.toNat ≤ y.toNat) :
    roundTarget x ≤ roundTarget y := by
  have hlen : bitLength x ≤ bitLength y :=
    bitLength_le_iff.mpr (h.trans_lt (bitLength_le_iff.mp le_rfl))
  rcases hlen.lt_or_eq with hlt | heq
  · -- the highest bit of `y` stays, and `x` is below it
    have hx : x.toNat < 2 ^ (bitLength y - 1) := bitLength_le_iff.mp (by omega)
    refine (roundTarget_le x).trans (hx.le.trans (le_roundTarget (Nat.pow_dvd_pow 2 ?_) ?_))
    · unfold cutBits
      omega
    · exact not_lt.mp (mt bitLength_le_iff.mpr (by omega))
  · rw [roundTarget_eq, roundTarget_eq, cutBits, cutBits, heq]
    exact Nat.mul_le_mul_right _ (Nat.div_le_div_right h)

theorem compact_roundtrip {k : Nat} (hdvd : 2 ^ (8 * k) ∣ x.toNat)
    (hlt : x.toNat < 2 ^ (23 + 8 * k)) : fromCompactTargetBits (compactTargetBits x) = x := by
  have hlen : bitLength x ≤ 23 + 8 * k := bitLength_le_iff.mpr hlt
  refine BitVec.eq_of_toNat_eq
    (le_antisymm (roundTarget_le x) (le_roundTarget ((Nat.pow_dvd_pow 2 ?_).trans hdvd) le_rfl))
  unfold cutBits
  omega

theorem fromCompactTargetBits_eq : ∃ m k : Nat, fromCompactTargetBits bits =
    (if m > 0x7FFFFF then 0 else BitVec.ofNat 256 m <<< (8 * k % 256) : BitVec 256) := by
  unfold fromCompactTargetBits
  dsimp only
  split
  · exact ⟨_, 0, rfl⟩
  · exact ⟨_, _, rfl⟩

theorem compact_decoded : fromCompactTargetBits (compactTargetBits (fromCompactTargetBits bits)) =
      fromCompactTargetBits bits := by
  obtain ⟨m, k, hbits⟩ := fromCompactTargetBits_eq bits
  rw [hbits]
  split
  · decide
  · have hvalue : (BitVec.ofNat 256 m <<< (8 * k % 256)).toNat =
        m * 2 ^ (8 * (k % 32)) % 2 ^ 256 := by
      rw [BitVec.toNat_shiftLeft, BitVec.toNat_ofNat, Nat.mod_eq_of_lt (show m < 2 ^ 256 by omega),
        Nat.shiftLeft_eq, show 8 * k % 256 = 8 * (k % 32) by omega]
    refine compact_roundtrip (k := k % 32) ?_ ?_
    · rw [hvalue, Nat.dvd_mod_iff (Nat.pow_dvd_pow 2 (by omega))]
      exact Nat.dvd_mul_left _ _
    · rw [hvalue, Nat.pow_add]
      exact (Nat.mod_le _ _).trans_lt (Nat.mul_lt_mul_of_pos_right (by omega) (Nat.two_pow_pos _))

/-- The work is the number of values up to `2 ^ 256` for one that is not above the target. -/
theorem calcWork_eq {ε : Type} {bits : UInt32} (h : 2 ^ 256 / (decodedTarget bits + 1) < 2 ^ 192) :
    ∃ w : BlueWorkType, (calcWork bits : Run ε BlueWorkType) = .ok w ∧
    w.toNat = 2 ^ 256 / (decodedTarget bits + 1) := by
  have hlt : decodedTarget bits + 1 < 2 ^ 256 := by
    have hle := (fromCompactTargetBits bits).isLt
    refine lt_of_le_of_ne hle fun h => ?_
    have hall : fromCompactTargetBits bits = BitVec.allOnes 256 := BitVec.eq_of_toNat_eq (by
      exact Nat.eq_sub_of_add_eq h)
    have hcompact := compact_decoded bits
    rw [hall] at hcompact
    revert hcompact
    decide
  have hres : (~~~fromCompactTargetBits bits / (fromCompactTargetBits bits + 1) + 1).toNat =
      2 ^ 256 / (decodedTarget bits + 1) := by
    have hpos : 2 ^ 256 / (decodedTarget bits + 1) =
        (2 ^ 256 - 1 - decodedTarget bits) / (decodedTarget bits + 1) + 1 := by
      rw [← Nat.add_div_right _ (Nat.succ_pos _)]
      congr 1
      omega
    rw [BitVec.toNat_add, BitVec.toNat_udiv, BitVec.toNat_not, BitVec.toNat_add]
    show ((2 ^ 256 - 1 - decodedTarget bits) / ((decodedTarget bits + 1) % 2 ^ 256) + 1) %
      2 ^ 256 = _
    rw [Nat.mod_eq_of_lt hlt, ← hpos]
    exact Nat.mod_eq_of_lt (h.trans (by decide))
  refine ⟨_, if_pos (hres ▸ h), ?_⟩
  rw [BitVec.toNat_setWidth, hres]
  exact Nat.mod_eq_of_lt h

/-- **Compact targets are a monotone truncation.** What is cut off is at most one part in `2 ^ 15`,
    a decoded target is coded exactly, and its work is `2 ^ 256 / (target + 1)`. -/
theorem compact_truncates :
    (∀ x : BitVec 256, roundTarget x ≤ x.toNat ∧ x.toNat - roundTarget x ≤ x.toNat / 2 ^ 15 ∧
      roundTarget (fromCompactTargetBits (compactTargetBits x)) = roundTarget x) ∧
    (∀ x y : BitVec 256, x ≤ y → roundTarget x ≤ roundTarget y) ∧ ∀ bits, fromCompactTargetBits
      (compactTargetBits (fromCompactTargetBits bits)) = fromCompactTargetBits bits ∧
      (2 ^ 256 / (decodedTarget bits + 1) < 2 ^ 192 →
        ∃ w, (calcWork bits : Run Empty BlueWorkType) = .ok w ∧
        w.toNat = 2 ^ 256 / (decodedTarget bits + 1)) := by
  refine ⟨fun x => ⟨roundTarget_le x, sub_roundTarget_le x, ?_⟩, fun x y h => roundTarget_mono h,
    fun bits => ⟨compact_decoded bits, calcWork_eq⟩⟩
  exact congrArg BitVec.toNat (compact_decoded (compactTargetBits x))

/-! ## 2. The function -/

structure DifficultyBlock where
  timestamp : UInt64
  bits : UInt32
  sortableBlock : SortableBlock

variable (b : DifficultyBlock)

def DifficultyBlock.key : ℕ ×ₗ SortKey := toLex (b.timestamp.toNat, b.sortableBlock.key)

structure SampledDifficultyManager where
  genesisHash : Hash
  genesisBits : UInt32
  maxDifficultyTarget : BitVec 256
  minDifficultyWindowSize : Nat
  difficultySampleRate : UInt64
  targetTimePerBlock : UInt64

/-- One end of `position_minmax`: the index and the element that no other one is better than. -/
def positionBest {α : Type} (better : α → α → Bool) (i : Nat) (best : Nat × α) : List α → Nat × α
  | [] => best
  | b :: l => positionBest better (i + 1) (if better b best.2 then (i, b) else best) l

def positionMin (rest : List DifficultyBlock) : Nat × DifficultyBlock :=
  positionBest (fun x y => decide (x.key < y.key)) 1 (0, b) rest

def positionMax (rest : List DifficultyBlock) : Nat × DifficultyBlock :=
  positionBest (fun x y => decide (y.key ≤ x.key)) 1 (0, b) rest

def swapRemove {α : Type} (l : List α) (i : Nat) : List α :=
  match l.getLast? with
  | none => []
  | some last => (l.set i last).dropLast

/-- `Iterator::sum`. -/
def sumWords {w : Nat} : List (BitVec w) → BitVec w
  | [] => 0
  | t :: ts => ts.foldl (· + ·) t

namespace SampledDifficultyManager

variable {ε : Type} (m : SampledDifficultyManager) (headers : Hash → Option CompactHeaderData)

def getDifficultyBlocks : List SortableBlock → Run ε (List DifficultyBlock)
  | [] => .ok []
  | b :: window =>
    match headers b.hash with
    | none => .panicked
    | some data => do
      let rest ← getDifficultyBlocks window
      return ⟨data.timestamp, data.bits, b⟩ :: rest

/-- `average_target * measured_duration / expected_duration`, from the blocks without the minimal
    one. -/
def newTarget (minTs maxTs : UInt64) (difficultyBlocks : List DifficultyBlock) : BitVec 320 :=
  let difficultyBlocksLen := UInt64.ofNat difficultyBlocks.length
  let targetsSum :=
    sumWords (difficultyBlocks.map fun b => (fromCompactTargetBits b.bits).setWidth 320)
  let averageTarget := targetsSum / BitVec.ofNat 320 difficultyBlocksLen.toNat
  let measuredDuration := max (maxTs - minTs) 1
  let expectedDuration := m.targetTimePerBlock * m.difficultySampleRate * difficultyBlocksLen
  averageTarget * BitVec.ofNat 320 measuredDuration.toNat / BitVec.ofNat 320 expectedDuration.toNat

/-- The end of `calculate_difficulty_bits`; a division by zero panics. -/
def adjustedBits (minTs maxTs : UInt64) (difficultyBlocks : List DifficultyBlock) : Run ε UInt32 :=
  let difficultyBlocksLen := UInt64.ofNat difficultyBlocks.length
  if difficultyBlocksLen = 0 ∨
    m.targetTimePerBlock * m.difficultySampleRate * difficultyBlocksLen = 0 then .panicked
  else
    let newTarget := m.newTarget minTs maxTs difficultyBlocks
    let genesisTarget := (fromCompactTargetBits m.genesisBits).setWidth 320
    let cappedTarget := if newTarget < genesisTarget then genesisTarget else newTarget
    let maxTarget := m.maxDifficultyTarget.setWidth 320
    let target := if maxTarget < cappedTarget then maxTarget else cappedTarget
    if target.toNat < 2 ^ 256 then .ok (compactTargetBits (target.setWidth 256)) else .panicked

def calculateDifficultyBits (window : List SortableBlock) (selectedParent : Hash) :
    Run ε UInt32 := do
  let difficultyBlocks ← getDifficultyBlocks headers window
  if difficultyBlocks.length < m.minDifficultyWindowSize then
    if selectedParent = m.genesisHash then return m.genesisBits
    else
      match headers selectedParent with
      | none => .panicked
      | some data => return data.bits
  else
    match difficultyBlocks with
    | [] => .panicked
    | b :: rest =>
      m.adjustedBits (positionMin b rest).2.timestamp (positionMax b rest).2.timestamp
        (swapRemove difficultyBlocks (positionMin b rest).1)

end SampledDifficultyManager

/-! ## 3. The window -/

open SampledDifficultyManager

section Window

variable {α : Type} {l : List α}

theorem positionBest_spec (better : α → α → Bool)
    (r : α → α → Prop) (hr : ∀ a, r a a) (htrans : ∀ {a b c}, r a b → r b c → r a c)
    (hbetter : ∀ {a b}, better a b = true → r a b) (hworse : ∀ {a b}, better a b = false → r b a) :
    ∀ (before : List α) (best : Nat × α), (before ++ l)[best.1]? = some best.2 →
    (∀ x ∈ before, r best.2 x) → (before ++ l)[(positionBest better before.length best l).1]? =
      some (positionBest better before.length best l).2 ∧
        ∀ x ∈ before ++ l, r (positionBest better before.length best l).2 x := by
  induction l with
  | nil =>
    intro before best hat hall
    rw [append_nil] at hat ⊢
    exact ⟨hat, hall⟩
  | cons b l ih =>
    intro before best hat hall
    rw [append_cons] at hat ⊢
    have hnext : (before ++ [b] ++ l)[before.length]? = some b := by
      rw [append_assoc, getElem?_append_right (Nat.le_refl _), Nat.sub_self]
      rfl
    have hlen : before.length + 1 = (before ++ [b]).length := by
      rw [length_append, length_singleton]
    rw [positionBest, hlen]
    cases hb : better b best.2 with
    | true =>
      refine ih _ (_, _) hnext fun x hx => ?_
      rcases mem_append.mp hx with hx | hx
      · exact htrans (hbetter hb) (hall x hx)
      · cases mem_singleton.mp hx
        exact hr _
    | false =>
      refine ih _ _ hat fun x hx => ?_
      rcases mem_append.mp hx with hx | hx
      · exact hall x hx
      · cases mem_singleton.mp hx
        exact hworse hb

theorem positionMin_spec (b : DifficultyBlock) (rest : List DifficultyBlock) :
    (b :: rest)[(positionMin b rest).1]? = some (positionMin b rest).2 ∧
      ∀ x ∈ b :: rest, (positionMin b rest).2.key ≤ x.key :=
  positionBest_spec _ (fun x y : DifficultyBlock => x.key ≤ y.key) (fun _ => le_refl _)
    (fun h h' => le_trans h h') (fun h => le_of_lt (of_decide_eq_true h))
    (fun h => le_of_not_gt (of_decide_eq_false h)) [b] (0, b) rfl
    (forall_mem_singleton.mpr (le_refl _))

theorem positionMax_spec (b : DifficultyBlock) (rest : List DifficultyBlock) :
    (b :: rest)[(positionMax b rest).1]? = some (positionMax b rest).2 ∧
      ∀ x ∈ b :: rest, x.key ≤ (positionMax b rest).2.key :=
  positionBest_spec _ (fun x y : DifficultyBlock => y.key ≤ x.key)
    (fun _ => le_refl _) (fun h h' => le_trans h' h) (fun h => of_decide_eq_true h)
    (fun h => le_of_lt (lt_of_not_ge (of_decide_eq_false h))) [b] (0, b) rfl
    (forall_mem_singleton.mpr (le_refl _))

theorem swapRemove_perm {i : Nat} {a : α} (h : l[i]? = some a) : l.Perm (a :: swapRemove l i) := by
  obtain ⟨hi, rfl⟩ := List.getElem?_eq_some_iff.mp h
  rcases eq_nil_or_concat' l with rfl | ⟨init, last, rfl⟩
  · exact absurd hi (Nat.not_lt_zero i)
  rw [length_append, length_singleton] at hi
  rw [swapRemove, getLast?_concat]
  dsimp only
  by_cases hlast : i < init.length
  · rw [set_append_left _ _ hlast, dropLast_concat, getElem_append_left hlast]
    refine (perm_append_singleton last init).trans ?_
    refine ((getElem_cons_eraseIdx_perm hlast).symm.cons last).trans ?_
    exact (List.Perm.swap _ _ _).trans ((set_perm_cons_eraseIdx hlast last).symm.cons _)
  · have hi : i = init.length := by omega
    subst hi
    rw [set_append_right _ _ (Nat.le_refl _), Nat.sub_self, set_cons_zero, dropLast_concat,
      getElem_append_right (Nat.le_refl _)]
    simp

theorem toNat_sumWords {w : Nat} {l : List (BitVec w)} (h : (l.map BitVec.toNat).sum < 2 ^ w) :
    (sumWords l).toNat = (l.map BitVec.toNat).sum := by
  have hfold : ∀ {l : List (BitVec w)} {t : BitVec w}, t.toNat + (l.map BitVec.toNat).sum < 2 ^ w →
      (l.foldl (· + ·) t).toNat = t.toNat + (l.map BitVec.toNat).sum := by
    intro l
    induction l with
    | nil =>
      intro t _
      rw [map_nil, sum_nil, add_zero, foldl_nil]
    | cons x l ih =>
      intro t ht
      rw [map_cons, sum_cons] at ht ⊢
      have hx : (t + x).toNat = t.toNat + x.toNat := by
        have hle := Nat.add_le_add_left (Nat.le_add_right x.toNat (l.map BitVec.toNat).sum) t.toNat
        rw [BitVec.toNat_add, Nat.mod_eq_of_lt (Nat.lt_of_le_of_lt hle ht)]
      rw [← Nat.add_assoc, ← hx] at ht
      rw [foldl_cons, ih ht, hx, Nat.add_assoc]
  cases l with
  | nil => rfl
  | cons t ts => exact hfold h

end Window

/-! ## 4. The reaction -/

section Reaction

variable {ε : Type}

/-- The integer average of the decoded targets. -/
def averageTarget (blocks : List DifficultyBlock) : Nat :=
  (blocks.map fun b => decodedTarget b.bits).sum / blocks.length

def measuredDuration (first last : DifficultyBlock) : Nat :=
  max (last.timestamp.toNat - first.timestamp.toNat) 1

def SampledDifficultyManager.expectedDuration (m : SampledDifficultyManager) (n : Nat) : Nat :=
  m.targetTimePerBlock.toNat * m.difficultySampleRate.toNat * n

variable {w a n bound : Nat}

theorem toNat_ofNat_of_le (h : n < 2 ^ a) (hle : a ≤ w) : (BitVec.ofNat w n).toNat = n := by
  rw [BitVec.toNat_ofNat,
    Nat.mod_eq_of_lt (lt_of_lt_of_le h (Nat.pow_le_pow_right Nat.two_pos hle))]

theorem toNat_mul_of_lt {x y : BitVec w} (h : x.toNat * y.toNat < 2 ^ w) :
    (x * y).toNat = x.toNat * y.toNat := by
  rw [BitVec.toNat_mul, Nat.mod_eq_of_lt h]

theorem toNat_clamp (x low high : BitVec w) :
    (if high < (if x < low then low else x) then high else if x < low then low else x).toNat =
      min (max x.toNat low.toNat) high.toNat := by
  have hmax : (if x < low then low else x).toNat = max x.toNat low.toNat := by
    split
    · rename_i h
      exact (max_eq_right (le_of_lt (BitVec.lt_def.mp h))).symm
    · rename_i h
      exact (Nat.max_eq_left (Nat.le_of_not_lt fun h' => h (BitVec.lt_def.mpr h'))).symm
  rw [← hmax]
  generalize (if x < low then low else x) = y
  split
  · rename_i h
    exact (min_eq_right (le_of_lt (BitVec.lt_def.mp h))).symm
  · rename_i h
    exact (Nat.min_eq_left (Nat.le_of_not_lt fun h' => h (BitVec.lt_def.mpr h'))).symm

theorem two_pow_mul {b : Nat} (h : a + b = w) : 2 ^ a * 2 ^ b = 2 ^ w := by rw [← h, Nat.pow_add]

variable {rest blocks : List DifficultyBlock}

theorem averageTarget_bounds (hne : 0 < blocks.length)
    (h : ∀ b ∈ blocks, 0 < decodedTarget b.bits ∧ decodedTarget b.bits ≤ bound) :
    (blocks.map fun b => decodedTarget b.bits).sum ≤ blocks.length * bound ∧
    0 < averageTarget blocks ∧ averageTarget blocks ≤ bound := by
  have hle : (blocks.map fun b => decodedTarget b.bits).sum ≤ blocks.length * bound := by
    have := sum_le_card_nsmul (blocks.map fun b => decodedTarget b.bits) bound fun x hx => by
      obtain ⟨b, hb, rfl⟩ := mem_map.mp hx
      exact (h b hb).2
    rwa [length_map, smul_eq_mul] at this
  have hge : blocks.length ≤ (blocks.map fun b => decodedTarget b.bits).sum := by
    have := card_nsmul_le_sum (blocks.map fun b => decodedTarget b.bits) 1 fun x hx => by
      obtain ⟨b, hb, rfl⟩ := mem_map.mp hx
      exact (h b hb).1
    rwa [length_map, smul_eq_mul, mul_one] at this
  exact ⟨hle, Nat.div_pos hge hne, Nat.div_le_of_le_mul hle⟩

/-- The number that is rounded to the new target. -/
def SampledDifficultyManager.unrounded (m : SampledDifficultyManager)
    (average measured expected : Nat) : Nat :=
  min
    (max (average * measured / expected) (decodedTarget m.genesisBits)) m.maxDifficultyTarget.toNat

variable {first last b c : DifficultyBlock} {m : SampledDifficultyManager}

/-- **The arithmetic is exact.** -/
theorem adjustedBits_ok (hne : 0 < rest.length) (hcount : rest.length < 2 ^ 32)
    (hts : first.timestamp ≤ last.timestamp) (htargets : ∀ b ∈ rest, 0 < decodedTarget b.bits ∧
      decodedTarget b.bits ≤ m.maxDifficultyTarget.toNat)
    (hpos : 0 < m.expectedDuration rest.length) (hfit : m.expectedDuration rest.length < 2 ^ 64) :
    (rest.map fun b => decodedTarget b.bits).sum < 2 ^ 320 ∧
      averageTarget rest * measuredDuration first last < 2 ^ 320 ∧
      ∃ x : BitVec 256, x.toNat = m.unrounded (averageTarget rest) (measuredDuration first last)
          (m.expectedDuration rest.length) ∧
        (m.adjustedBits first.timestamp last.timestamp rest : Run ε UInt32) =
          .ok (compactTargetBits x) := by
  obtain ⟨hsum, _, havg⟩ := averageTarget_bounds hne htargets
  have hmaxT := m.maxDifficultyTarget.isLt
  have hpow : 2 ^ 64 * 2 ^ 256 = 2 ^ 320 := two_pow_mul rfl
  have hsum' : (rest.map fun b => decodedTarget b.bits).sum < 2 ^ 320 := by
    rw [← hpow]
    exact lt_of_le_of_lt hsum (Nat.mul_lt_mul'' (lt_trans hcount (by decide)) hmaxT)
  have hdur : measuredDuration first last < 2 ^ 64 := by
    have := UInt64.toNat_lt last.timestamp
    unfold measuredDuration
    omega
  have hprod : averageTarget rest * measuredDuration first last < 2 ^ 320 := by
    rw [← hpow, mul_comm]
    exact Nat.mul_lt_mul'' hdur (lt_of_le_of_lt havg hmaxT)
  refine ⟨hsum', hprod, ?_⟩
  have hlen : (UInt64.ofNat rest.length).toNat = rest.length :=
    UInt64.toNat_ofNat_of_lt' (lt_trans hcount (by decide))
  have hexp : (m.targetTimePerBlock * m.difficultySampleRate * UInt64.ofNat rest.length).toNat =
      m.expectedDuration rest.length := by
    rw [UInt64.toNat_mul, UInt64.toNat_mul, hlen, Nat.mod_mul_mod]
    exact Nat.mod_eq_of_lt hfit
  have hmeas : (max (last.timestamp - first.timestamp) 1).toNat = measuredDuration first last := by
    rw [measuredDuration, ← UInt64.toNat_sub_of_le _ _ hts]
    show (if last.timestamp - first.timestamp ≤ 1 then 1
      else last.timestamp - first.timestamp).toNat = _
    split
    · rename_i h
      have := UInt64.le_iff_toNat_le.mp h
      exact (max_eq_right this).symm
    · rename_i h
      have := UInt64.lt_iff_toNat_lt.mp (UInt64.not_le.mp h)
      exact (max_eq_left (le_of_lt this)).symm
  have hsumw : (sumWords (rest.map fun b => (fromCompactTargetBits b.bits).setWidth 320)).toNat =
      (rest.map fun b => decodedTarget b.bits).sum := by
    have hmap : (rest.map fun b => (fromCompactTargetBits b.bits).setWidth 320).map BitVec.toNat =
        rest.map fun b => decodedTarget b.bits := by
      rw [map_map]
      refine map_congr_left fun b _ => ?_
      exact BitVec.toNat_setWidth_of_le (by decide)
    rw [toNat_sumWords (hmap ▸ hsum'), hmap]
  have havg320 : (sumWords (rest.map fun b => (fromCompactTargetBits b.bits).setWidth 320) /
      BitVec.ofNat 320 (UInt64.ofNat rest.length).toNat).toNat = averageTarget rest := by
    rw [BitVec.toNat_udiv, hsumw, hlen, toNat_ofNat_of_le hcount (by decide), averageTarget]
  have hm : (BitVec.ofNat 320 (max (last.timestamp - first.timestamp) 1).toNat).toNat =
      measuredDuration first last := by
      rw [toNat_ofNat_of_le (UInt64.toNat_lt _) (by decide), hmeas]
  have hnew : (m.newTarget first.timestamp last.timestamp rest).toNat =
      averageTarget rest * measuredDuration first last / m.expectedDuration rest.length := by
    rw [newTarget, BitVec.toNat_udiv, toNat_ofNat_of_le (UInt64.toNat_lt _) (by decide),
      hexp, toNat_mul_of_lt (by rw [havg320, hm]; exact hprod), havg320, hm]
  unfold adjustedBits
  dsimp only
  rw [if_neg (by
    rintro (h0 | h0)
    · rw [h0] at hlen
      exact absurd hlen.symm (ne_of_gt hne)
    · rw [h0] at hexp
      exact absurd hexp.symm (ne_of_gt hpos))]
  have hclamp := toNat_clamp (m.newTarget first.timestamp last.timestamp rest)
    ((fromCompactTargetBits m.genesisBits).setWidth 320) (m.maxDifficultyTarget.setWidth 320)
  rw [hnew, BitVec.toNat_setWidth_of_le (by decide),
    BitVec.toNat_setWidth_of_le (by decide)] at hclamp
  generalize htarget : (if m.maxDifficultyTarget.setWidth 320 < _ then _ else _ : BitVec 320) =
    target at hclamp ⊢
  have hlt : target.toNat < 2 ^ 256 := by
    rw [hclamp]
    exact lt_of_le_of_lt (min_le_right _ _) hmaxT
  rw [if_pos hlt]
  refine ⟨target.setWidth 256, ?_, rfl⟩
  rw [BitVec.toNat_setWidth, Nat.mod_eq_of_lt hlt, hclamp]
  rfl

/-- The target that `bits` stand for, against the average of `rest`. -/
structure Reacts (m : SampledDifficultyManager) (first last : DifficultyBlock)
    (rest : List DifficultyBlock) (bits : UInt32) : Prop where
  sum_fits : (rest.map fun b => decodedTarget b.bits).sum < 2 ^ 320
  product_fits : averageTarget rest * measuredDuration first last < 2 ^ 320
  fast : 2 * measuredDuration first last ≤ m.expectedDuration rest.length →
    decodedTarget m.genesisBits < averageTarget rest → decodedTarget bits < averageTarget rest
  /-- The cap: never harder than the genesis block. -/
  capped : 2 * measuredDuration first last ≤ m.expectedDuration rest.length →
    averageTarget rest ≤ decodedTarget m.genesisBits →
      ∃ x : BitVec 256, x.toNat = min (decodedTarget m.genesisBits) m.maxDifficultyTarget.toNat ∧
        decodedTarget bits = roundTarget x
  slow : 2 * m.expectedDuration rest.length ≤ measuredDuration first last →
    averageTarget rest < decodedTarget bits ∨ decodedTarget bits = roundTarget m.maxDifficultyTarget

theorem reacts_of_unrounded {x : BitVec 256}
    (hsum : (rest.map fun b => decodedTarget b.bits).sum < 2 ^ 320)
    (hprod : averageTarget rest * measuredDuration first last < 2 ^ 320)
    (havg : 0 < averageTarget rest) (hpos : 0 < m.expectedDuration rest.length)
    (hx : x.toNat = m.unrounded (averageTarget rest) (measuredDuration first last)
      (m.expectedDuration rest.length)) : Reacts m first last rest (compactTargetBits x) := by
  have hround := roundTarget_le x
  unfold unrounded at hx
  have hfast : 2 * measuredDuration first last ≤ m.expectedDuration rest.length → averageTarget
      rest * measuredDuration first last / m.expectedDuration rest.length < averageTarget rest := by
    intro h
    rw [Nat.div_lt_iff_lt_mul hpos]
    exact Nat.mul_lt_mul_of_pos_left (by omega) havg
  refine ⟨hsum, hprod, fun h hg => ?_, fun h hg => ⟨x, ?_, rfl⟩, fun h => ?_⟩
  · have hdecoded : decodedTarget (compactTargetBits x) ≤ x.toNat := hround
    omega
  · rw [hx, max_eq_right (by omega)]
  · have hslow : 2 * averageTarget rest ≤
        averageTarget rest * measuredDuration first last / m.expectedDuration rest.length := by
      rw [Nat.le_div_iff_mul_le hpos]
      calc 2 * averageTarget rest * m.expectedDuration rest.length
          = averageTarget rest * (2 * m.expectedDuration rest.length) := by
            rw [mul_comm 2, mul_assoc]
        _ ≤ averageTarget rest * measuredDuration first last := Nat.mul_le_mul_left _ h
    by_cases hmax : x.toNat = m.maxDifficultyTarget.toNat
    · exact .inr (by rw [BitVec.eq_of_toNat_eq hmax]; rfl)
    · have hhalf : x.toNat < 2 * decodedTarget (compactTargetBits x) :=
        lt_two_mul_roundTarget (by omega)
      exact .inl (by omega)

theorem timestamp_le_of_key (h : b.key ≤ c.key) : b.timestamp ≤ c.timestamp := by
  rcases Prod.Lex.le_iff.mp h with hlt | ⟨heq, -⟩
  · exact le_of_lt hlt
  · exact le_of_eq heq

/-- **The difficulty reacts to the block rate**, up to the cap at the target of the genesis
    block. -/
theorem difficulty_reacts (m : SampledDifficultyManager) (headers : Hash → Option CompactHeaderData)
    {window : List SortableBlock} {blocks : List DifficultyBlock} (selectedParent : Hash)
    (hblocks : getDifficultyBlocks headers window = (.ok blocks : Run ε _))
    (htime : 0 < m.targetTimePerBlock)
    (hrate : 0 < m.difficultySampleRate) (hmin : 2 ≤ m.minDifficultyWindowSize)
    (hlen : m.minDifficultyWindowSize ≤ blocks.length) (hcount : blocks.length < 2 ^ 32)
    (hfit : m.expectedDuration (blocks.length - 1) < 2 ^ 64)
    (htargets : ∀ b ∈ blocks, 0 < decodedTarget b.bits ∧
      decodedTarget b.bits ≤ m.maxDifficultyTarget.toNat) :
    ∃ first rest last bits, blocks.Perm (first :: rest) ∧ last ∈ blocks ∧
      (∀ b ∈ blocks, first.key ≤ b.key ∧ b.timestamp ≤ last.timestamp) ∧
      (m.calculateDifficultyBits headers window selectedParent : Run ε UInt32) = .ok bits ∧
      Reacts m first last rest bits := by
  cases blocks with
  | nil => exact absurd (le_trans hmin hlen) (by decide)
  | cons b tail =>
    obtain ⟨hmin_at, hleast⟩ := positionMin_spec b tail
    obtain ⟨hmax_at, hmost⟩ := positionMax_spec b tail
    have hperm := swapRemove_perm hmin_at
    have hrest : (swapRemove (b :: tail) (positionMin b tail).1).length = tail.length :=
      (Nat.succ.inj hperm.length_eq).symm
    have htail : 0 < tail.length := by
      rw [length_cons] at hlen
      omega
    have hmem : ∀ c ∈ swapRemove (b :: tail) (positionMin b tail).1, c ∈ b :: tail := fun c hc =>
      hperm.mem_iff.mpr (mem_cons_of_mem _ hc)
    have hmax_mem := mem_of_getElem? hmax_at
    have hpos : 0 < m.expectedDuration tail.length := Nat.mul_pos
      (Nat.mul_pos (UInt64.lt_iff_toNat_lt.mp htime) (UInt64.lt_iff_toNat_lt.mp hrate)) htail
    obtain ⟨_, havg, _⟩ := averageTarget_bounds (hrest ▸ htail) fun c hc => htargets c (hmem c hc)
    obtain ⟨hsum, hprod, x, hx, hbits⟩ := adjustedBits_ok (hrest ▸ htail)
      (by rw [hrest]; exact Nat.lt_of_succ_lt hcount) (timestamp_le_of_key (hleast _ hmax_mem))
      (fun c hc => htargets c (hmem c hc)) (by rw [hrest]; exact hpos) (by rw [hrest]; exact hfit)
    refine ⟨_, _, (positionMax b tail).2, compactTargetBits x, hperm, hmax_mem,
      fun c hc => ⟨hleast c hc, timestamp_le_of_key (hmost c hc)⟩, ?_,
      reacts_of_unrounded hsum hprod havg (by rw [hrest]; exact hpos) hx⟩
    rw [calculateDifficultyBits, hblocks, Run.ok_bind, if_neg (not_lt.mpr hlen)]
    exact hbits

end Reaction

/-! ## 5. Two blocks -/

def secondManager (genesisBits : UInt32) : SampledDifficultyManager :=
  ⟨.ofNat 0, genesisBits, fromCompactTargetBits 0x207fffff, 2, 1, 1000⟩

def quickHeaders (h : Hash) : Option CompactHeaderData :=
  some ⟨0, if h = .ofNat 1 then 5 else 6, 0x1d00ffff, 0⟩

def quickWindow : List SortableBlock := [⟨.ofNat 1, 1⟩, ⟨.ofNat 2, 2⟩]

def quickBlocks : List DifficultyBlock :=
  [⟨5, 0x1d00ffff, ⟨.ofNat 1, 1⟩⟩, ⟨6, 0x1d00ffff, ⟨.ofNat 2, 2⟩⟩]

theorem difficulty_quick :
    ∃ first rest last bits, quickBlocks.Perm (first :: rest) ∧ last ∈ quickBlocks ∧
    (∀ b ∈ quickBlocks, first.key ≤ b.key ∧ b.timestamp ≤ last.timestamp) ∧
    ((secondManager 0x1c00ffff).calculateDifficultyBits quickHeaders quickWindow (.ofNat 1) :
      Run Empty UInt32) = .ok bits ∧ Reacts (secondManager 0x1c00ffff) first last rest bits :=
  difficulty_reacts (secondManager 0x1c00ffff) quickHeaders (.ofNat 1) rfl (by decide) (by decide)
    (by decide) (by decide) (by decide) (by decide) (by decide)

/-- **At the target of the genesis block** blocks that come a thousand times too fast change
    nothing. -/
theorem genesis_cap : ((secondManager 0x1d00ffff).calculateDifficultyBits quickHeaders quickWindow
      (.ofNat 1) : Run Empty UInt32) = .ok 0x1d00ffff ∧
    (∀ b ∈ quickBlocks, 0 < decodedTarget b.bits ∧
      decodedTarget b.bits ≤ (secondManager 0x1d00ffff).maxDifficultyTarget.toNat) ∧
    ∃ first last, quickBlocks = [first, last] ∧
      2 * measuredDuration first last ≤ (secondManager 0x1d00ffff).expectedDuration 1 ∧
      ¬ decodedTarget 0x1d00ffff < averageTarget [last] := by
  refine ⟨by decide +kernel, by decide, _, _, rfl, by decide, by decide⟩

end Sahyadri.Consensus
