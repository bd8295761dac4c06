import Sahyadri.Core.Tx
import Mathlib.Algebra.BigOperators.Intervals
import Mathlib.Algebra.Order.BigOperators.Group.Finset

/-!
# `processes/coinbase`: the coinbase payload and the subsidy schedule

* `deserializeCoinbasePayload`: blue score, subsidy and miner script as the miner wrote them.
-/

namespace Sahyadri.Core

open Lib Smt Finset

/-! ## 1. The payload -/

/-- `MIN_PAYLOAD_LENGTH`: two `u64`, a `u16` and a `u8`. -/
def minPayloadLength : Nat := 8 + 8 + 2 + 1

/-- `CoinbaseManager`: its limits, and the block rate `_bps_history.after()`. -/
structure CoinbaseManager where
  coinbasePayloadScriptPublicKeyMaxLen : UInt8
  maxCoinbasePayloadLen : Nat
  bps : UInt64
  bps_pos : 0 < bps.toNat
  bps_fits : 126230400 * bps.toNat < 2 ^ 64

structure MinerData where
  scriptPublicKey : ScriptPublicKey
  extraData : Bytes
  deriving DecidableEq, Repr

structure CoinbaseData where
  blueScore : UInt64
  subsidy : UInt64
  minerData : MinerData
  deriving DecidableEq, Repr

inductive CoinbaseError where
  | payloadLenBelowMin (len min : Nat)
  | payloadLenAboveMax (len max : Nat)
  | payloadScriptPublicKeyLenAboveMax (len : Nat) (max : UInt8)
  | payloadCantContainScriptPublicKey (len needed : Nat)
  deriving DecidableEq, Repr

/-- `deserialize_coinbase_payload`. The first check makes the four fixed fields readable. -/
def CoinbaseManager.deserializeCoinbasePayload (m : CoinbaseManager) (payload : Bytes) :
    Except CoinbaseError CoinbaseData :=
  if payload.length < minPayloadLength then
    .error (.payloadLenBelowMin payload.length minPayloadLength)
  else if payload.length > m.maxCoinbasePayloadLen then
    .error (.payloadLenAboveMax payload.length m.maxCoinbasePayloadLen)
  else
    let blueScore := ofU64Le (payload.take 8)
    let subsidy := ofU64Le ((payload.drop 8).take 8)
    let version := ofU16Le ((payload.drop 16).take 2)
    let scriptLen := (payload.drop 18).headD 0
    let remaining := payload.drop 19
    if scriptLen > m.coinbasePayloadScriptPublicKeyMaxLen then
      .error (.payloadScriptPublicKeyLenAboveMax scriptLen.toNat
        m.coinbasePayloadScriptPublicKeyMaxLen)
    else if remaining.length < scriptLen.toNat then
      .error (.payloadCantContainScriptPublicKey payload.length
        (minPayloadLength + scriptLen.toNat))
    else
      .ok ⟨blueScore, subsidy, ⟨version, remaining.take scriptLen.toNat⟩,
        remaining.drop scriptLen.toNat⟩

/-- The subsidy that the first transaction of a block declares. -/
def CoinbaseManager.declaredSubsidy (m : CoinbaseManager) : List Transaction → UInt64
  | [] => 0
  | coinbase :: _ =>
    match m.deserializeCoinbasePayload coinbase.payload with
    | .ok data => data.subsidy
    | .error _ => 0

/-! ## 2. The subsidy -/

def baseReward : UInt64 := 8318123

variable (m : CoinbaseManager)

def CoinbaseManager.halvingInterval : UInt64 := 126230400 * m.bps

def CoinbaseManager.calcBlockSubsidy (blueScore : UInt64) : UInt64 :=
  let halvings := blueScore / m.halvingInterval
  if halvings ≥ 64 then 0 else baseReward >>> halvings

/-- The subsidy as a number: the base reward halved once per interval, and nothing after 64. -/
def subsidyNat (interval score : Nat) : Nat :=
  if score / interval ≥ 64 then 0 else 8318123 / 2 ^ (score / interval)

theorem toNat_calcBlockSubsidy (score : UInt64) :
    (m.calcBlockSubsidy score).toNat = subsidyNat (126230400 * m.bps.toNat) score.toNat := by
  have hdiv : (score / m.halvingInterval).toNat = score.toNat / (126230400 * m.bps.toNat) := by
    exact congrArg _ (Nat.mod_eq_of_lt m.bps_fits)
  unfold CoinbaseManager.calcBlockSubsidy subsidyNat
  have hcond : score / m.halvingInterval ≥ 64 ↔ score.toNat / (126230400 * m.bps.toNat) ≥ 64 := by
    rw [ge_iff_le, UInt64.le_iff_toNat_le, hdiv]
    rfl
  by_cases h : score.toNat / (126230400 * m.bps.toNat) ≥ 64
  · rw [if_pos (hcond.mpr h), if_pos h]
    rfl
  · rw [if_neg (fun h' => h (hcond.mp h')), if_neg h, UInt64.toNat_shiftRight, hdiv,
      Nat.mod_eq_of_lt (by omega), Nat.shiftRight_eq_div_pow]
    rfl

theorem sum_range_subsidyNat {interval : Nat} (hpos : 0 < interval) (n : Nat) (hn : n ≤ 64) :
    ∑ s ∈ range (interval * n), subsidyNat interval s = interval * ∑ h ∈ range n,
    8318123 / 2 ^ h := by
  induction n with
  | zero => simp
  | succ n ih =>
    rw [Nat.mul_succ, sum_range_add, ih (by omega), sum_range_succ, mul_add]
    congr 1
    rw [sum_const_nat, card_range]
    intro x hx
    have hlt := mem_range.mp hx
    have hq : (interval * n + x) / interval = n := by
      rw [Nat.mul_add_div hpos, Nat.div_eq_of_lt hlt, add_zero]
    rw [subsidyNat, hq, if_neg (by omega)]

/-- **Distinct blue scores**: the subsidies add up to at most the 64 intervals. -/
theorem subsidy_sum_le {interval : Nat} (hpos : 0 < interval) (scores : Finset Nat) :
    ∑ s ∈ scores, subsidyNat interval s ≤ interval * ∑ h ∈ range 64, 8318123 / 2 ^ h := by
  rw [← sum_range_subsidyNat hpos 64 le_rfl]
  rw [← sum_filter_add_sum_filter_not scores (fun s => s < interval * 64)]
  have hzero : ∑ s ∈ scores.filter (fun s => ¬ s < interval * 64), subsidyNat interval s = 0 := by
    refine sum_eq_zero fun s hs => ?_
    have hge := Nat.le_of_not_lt (mem_filter.mp hs).2
    rw [subsidyNat, if_pos ((Nat.le_div_iff_mul_le hpos).mpr (by rw [Nat.mul_comm]; exact hge))]
  rw [hzero]
  refine sum_le_sum_of_subset fun s hs => ?_
  exact mem_range.mpr (mem_filter.mp hs).2

/-- `MAX_KANA`: 21 million coins of `10^8` kana. -/
def maxKana : Nat := 21000000 * 100000000

end Sahyadri.Core
