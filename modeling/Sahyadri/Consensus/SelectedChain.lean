import Sahyadri.Consensus.Chain

/-!
# The selected chain by index, and the search in it for a DAA score

* `daa_score_found`: the search ends, with the chain block of the score if there is one, as long as
  the index of the tip is below 2^63 - 1. `search_loops`: beyond it, it may run for ever.
-/

namespace Sahyadri.Consensus

open Lib Smt Core

/-! ## 1. The search -/

/-- `SelectedChainStoreReader`. Whatever the error of the store is, the search maps it to its
    own. -/
structure SelectedChainStoreReader where
  getByHash : Hash → Option UInt64
  getByIndex : UInt64 → Option Hash
  getTip : Option (UInt64 × Hash)

inductive ConsensusError where
  | missingData (h : Hash)
  | headerNotFound (h : Hash)
  deriving DecidableEq, Repr

namespace SelectedChainStoreReader

variable (r : SelectedChainStoreReader) (getDaaScore : Hash → Option UInt64) (target : UInt64)

/-- The loop, with `low_index` and `high_index`. -/
def daaLoop (root tip : Hash) : Nat → UInt64 → UInt64 → Run Diverged (Except ConsensusError Hash)
  | 0, _, _ => .fail .outOfSteps
  | fuel + 1, low, high =>
    let mid := low + (high - low) / 2
    match r.getByIndex mid with
    | none => .ok (.error (.missingData root))
    | some hash =>
      match getDaaScore hash with
      | none => .ok (.error (.headerNotFound hash))
      | some daaScore =>
        if daaScore = target then .ok (.ok hash)
        else
          let high := if target < daaScore then mid - 1 else high
          let low := if target < daaScore then low else mid + 1
          if high < low then .ok (.error (.missingData tip)) else daaLoop root tip fuel low high

def findAcceptingChainBlockHashAtDaaScore (fuel : Nat) (root : Hash) :
    Run Diverged (Except ConsensusError Hash) :=
  match r.getByHash root with
  | none => .ok (.error (.missingData root))
  | some rootIndex =>
    match r.getTip with
    | none => .ok (.error (.missingData root))
    | some (tipIndex, tip) =>
      match getDaaScore tip with
      | none => .ok (.error (.headerNotFound tip))
      | some tipDaaScore =>
        r.daaLoop getDaaScore target root tip fuel
          (max (satSub tipIndex (satSub tipDaaScore target)) rootIndex) tipIndex

end SelectedChainStoreReader

/-! ## 2. What it finds -/

open SelectedChainStoreReader

/-- The chain is stored from the retention root, index `lo`, to the tip, index `hi`, and the scores
    grow. -/
structure StoredChain (r : SelectedChainStoreReader) (getDaaScore : Hash → Option UInt64)
    (lo hi : UInt64) (block : UInt64 → Hash) (daa : UInt64 → UInt64) : Prop where
  bounds : lo ≤ hi
  root : r.getByHash (block lo) = some lo
  tip : r.getTip = some (hi, block hi)
  stored : ∀ {i}, lo ≤ i → i ≤ hi → r.getByIndex i = some (block i) ∧
    getDaaScore (block i) = some (daa i)
  above : ∀ {i}, hi < i → r.getByIndex i = none
  rising : ∀ {i j}, lo ≤ i → i < j → j ≤ hi → daa i < daa j

/-- The chain block of this score, or an error if there is none. -/
def Finds (lo hi : UInt64) (block : UInt64 → Hash) (daa : UInt64 → UInt64) (target : UInt64)
    (result : Except ConsensusError Hash) : Prop :=
  (∀ i, lo ≤ i → i ≤ hi → daa i = target → result = .ok (block i)) ∧
    ((∀ i, lo ≤ i → i ≤ hi → daa i ≠ target) → ∃ e, result = .error e)

section Search

variable {r : SelectedChainStoreReader} {getDaaScore : Hash → Option UInt64} {lo hi : UInt64}
  {block : UInt64 → Hash} {daa : UInt64 → UInt64} {target : UInt64}

theorem finds_error (e : ConsensusError) (h : ∀ i, lo ≤ i → i ≤ hi → daa i ≠ target) :
    Finds lo hi block daa target (.error e) :=
  ⟨fun i hlo hhi heq => absurd heq (h i hlo hhi), fun _ => ⟨e, rfl⟩⟩

variable (h : StoredChain r getDaaScore lo hi block daa)

include h

theorem StoredChain.lt_of_daa_lt {i j : UInt64} (hi' : i ≤ hi) (hj : lo ≤ j) (hlt : daa i < daa j) :
    i < j := by
  by_contra hge
  rcases UInt64.lt_or_eq_of_le (UInt64.not_lt.mp hge) with hlt' | rfl
  · exact UInt64.lt_asymm hlt (h.rising hj hlt' hi')
  · exact UInt64.lt_irrefl _ hlt

theorem StoredChain.daa_add_le {n : Nat} : ∀ {i : UInt64}, lo ≤ i → i.toNat + n = hi.toNat →
    (daa i).toNat + n ≤ (daa hi).toNat := by
  induction n with
  | zero =>
    intro i _ hn
    rw [UInt64.toNat_inj.mp hn]
    exact Nat.le_refl _
  | succ n ih =>
    intro i hlo hn
    have hlt : i < hi := UInt64.lt_iff_toNat_lt.mpr (by omega)
    have hnext : (i + 1).toNat = i.toNat + 1 := by
      exact Nat.mod_eq_of_lt (by have := hi.toNat_lt; simp; omega)
    have hrise := UInt64.lt_iff_toNat_lt.mp (h.rising (j := i + 1) hlo (by grind) (by grind))
    have := ih (i := i + 1) (by grind) (by omega)
    omega

/-- **The loop ends**, with the block that is between its bounds. -/
theorem StoredChain.daaLoop_ok (hmany : hi < 9223372036854775807) (root tip : Hash) {fuel : Nat} :
    ∀ {low high : UInt64}, lo ≤ low → low ≤ high → high ≤ hi → (high - low).toNat + 1 < fuel →
      (∀ i, lo ≤ i → i ≤ hi → daa i = target → low ≤ i ∧ i ≤ high) →
        ∃ result, r.daaLoop getDaaScore target root tip fuel low high = .ok result ∧
          Finds lo hi block daa target result := by
  induction fuel with
  | zero => exact fun _ _ _ hf => absurd hf (Nat.not_lt_zero _)
  | succ fuel ih =>
    intro low high hlow hle hhigh hf hin
    obtain ⟨mid, hmid⟩ : ∃ mid, mid = low + (high - low) / 2 := ⟨_, rfl⟩
    have hmlo : lo ≤ mid ∧ mid ≤ hi := by grind
    have hfuel : ∀ {low' high' : UInt64}, high' - low' < high - low →
        (high' - low').toNat + 1 < fuel := by
      intro low' high' hlt
      have := UInt64.lt_iff_toNat_lt.mp hlt
      omega
    obtain ⟨hget, hscore⟩ := h.stored hmlo.1 hmlo.2
    rw [daaLoop, ← hmid]
    rw [hget]
    dsimp only
    rw [hscore]
    dsimp only
    by_cases heq : daa mid = target
    · refine ⟨_, if_pos heq, fun i hilo hihi hi' => ?_,
        fun hnone => absurd heq (hnone mid hmlo.1 hmlo.2)⟩
      have hle₁ : ¬ i < mid := fun hlt => by have := h.rising hilo hlt hmlo.2; grind
      have hle₂ : ¬ mid < i := fun hlt => by have := h.rising hmlo.1 hlt hihi; grind
      rw [show i = mid by grind]
    rw [if_neg heq]
    by_cases hgt : target < daa mid
    · rw [if_pos hgt, if_pos hgt]
      have hbelow : ∀ i, lo ≤ i → i ≤ hi → daa i = target → low ≤ i ∧ i < mid :=
        fun i hilo hihi hi' =>
        ⟨(hin i hilo hihi hi').1, h.lt_of_daa_lt hihi hmlo.1 (hi' ▸ hgt)⟩
      by_cases hzero : mid = 0
      · -- the upper bound wraps: the next index is the middle of all, where nothing is stored
        obtain rfl : low = 0 := by grind
        obtain ⟨fuel, rfl⟩ : ∃ n, fuel = n + 1 := ⟨fuel - 1, by omega⟩
        refine ⟨_, ?_, finds_error (.missingData root) fun i hilo hihi hi' => ?_⟩
        · rw [hzero, if_neg (by decide), daaLoop]
          rw [h.above (show hi < 0 + (0 - 1 - 0) / 2 by grind)]
        · grind
      · by_cases hout : mid - 1 < low
        · refine ⟨_, if_pos hout, finds_error _ fun i hilo hihi hi' => ?_⟩
          grind
        · rw [if_neg hout]
          refine ih hlow (UInt64.not_lt.mp hout) (by grind) (hfuel (by grind))
            fun i hilo hihi hi' => ?_
          grind
    · rw [if_neg hgt, if_neg hgt]
      have habove : ∀ i, lo ≤ i → i ≤ hi → daa i = target → mid + 1 ≤ i ∧ i ≤ high := by
        intro i hilo hihi hi'
        have := h.lt_of_daa_lt hmlo.2 hilo (by grind)
        exact ⟨by grind, (hin i hilo hihi hi').2⟩
      by_cases hout : high < mid + 1
      · refine ⟨_, if_pos hout, finds_error _ fun i hilo hihi hi' => ?_⟩
        grind
      · rw [if_neg hout]
        exact ih (by grind) (UInt64.not_lt.mp hout) hhigh (hfuel (by grind)) habove

end Search

/-- **The search for a DAA score** ends with the chain block of this score, if there is one at the
    retention root or above it, and with an error otherwise. -/
theorem daa_score_found {r : SelectedChainStoreReader}
    {getDaaScore : Hash → Option UInt64} {lo hi : UInt64}
    {block : UInt64 → Hash} {daa : UInt64 → UInt64} (h : StoredChain r getDaaScore lo hi block daa)
    (hmany : hi < 9223372036854775807) (target : UInt64) {fuel : Nat}
    (hfuel : hi.toNat + 1 < fuel) : ∃ result,
      r.findAcceptingChainBlockHashAtDaaScore getDaaScore target fuel (block lo) = .ok result ∧
      Finds lo hi block daa target result := by
  have hbounds := UInt64.le_iff_toNat_le.mp h.bounds
  unfold findAcceptingChainBlockHashAtDaaScore
  rw [h.root]
  rw [h.tip]
  dsimp only
  rw [(h.stored h.bounds (UInt64.le_refl hi)).2]
  have hlow : (max (satSub hi (satSub (daa hi) target)) lo).toNat =
      max (hi.toNat - ((daa hi).toNat - target.toNat)) lo.toNat := by
    rw [UInt64.toNat_max, toNat_satSub, toNat_satSub]
  have hle : max (satSub hi (satSub (daa hi) target)) lo ≤ hi :=
    UInt64.le_iff_toNat_le.mpr (by omega)
  refine h.daaLoop_ok hmany _ _ (UInt64.le_iff_toNat_le.mpr (by omega)) hle (UInt64.le_refl hi) ?_
    fun i hilo hihi hi' => ⟨UInt64.le_iff_toNat_le.mpr ?_, hihi⟩
  · rw [UInt64.toNat_sub_of_le _ _ hle]
    omega
  · -- as many blocks are above the block as the score of the tip is greater, or fewer
    have hi₁ := UInt64.le_iff_toNat_le.mp hilo
    have hi₂ := UInt64.le_iff_toNat_le.mp hihi
    have := h.daa_add_le hilo (n := hi.toNat - i.toNat) (by omega)
    rw [hi'] at this
    omega

/-! ## 3. A chain with a block for every index -/

def indexHash (i : UInt64) : Hash := ⟨u64Le i ++ List.replicate 24 0, by simp⟩

def indexScore (h : Hash) : Option UInt64 := some (ofU64Le (h.bytes.take 8) + 1)

def indexReader (hi : UInt64) : SelectedChainStoreReader where
  getByHash h := some (ofU64Le (h.bytes.take 8))
  getByIndex i := if i ≤ hi then some (indexHash i) else none
  getTip := some (hi, indexHash hi)

theorem ofU64Le_indexHash (i : UInt64) : ofU64Le ((indexHash i).bytes.take 8) = i := by
  rw [indexHash, List.take_left' (length_u64Le i), ofU64Le_u64Le]

theorem indexScore_indexHash (i : UInt64) : indexScore (indexHash i) = some (i + 1) := by
  rw [indexScore, ofU64Le_indexHash]

theorem indexReader_stored {n : UInt64} (hlt : n < n + 1) :
    StoredChain (indexReader n) indexScore 0 n indexHash (· + 1) where
  bounds := UInt64.zero_le
  root := congrArg some (ofU64Le_indexHash 0)
  tip := rfl
  stored {i} _ hle := ⟨if_pos hle, indexScore_indexHash i⟩
  above hlt := if_neg (UInt64.not_le.mpr hlt)
  rising {i j} _ hij hj := by grind

theorem daa_score_found_six :
    (indexReader 5).findAcceptingChainBlockHashAtDaaScore indexScore 4 7 (indexHash 0) =
    .ok (.ok (indexHash 3)) := by
  obtain ⟨result, hrun, hfound, -⟩ :=
    daa_score_found (indexReader_stored (n := 5) (by decide)) (by decide) 4
    (show 5 + 1 < 7 by decide)
  rw [hrun, hfound 3 (by decide) (by decide) (by decide)]

/-- **A search that never ends.** With all indices up to 2^63 stored and every score above the one
    searched for, the upper bound wraps at index 0. -/
theorem search_loops : StoredChain
      (indexReader 9223372036854775808) indexScore 0 9223372036854775808 indexHash (· + 1) ∧ ∀ fuel,
      (indexReader 9223372036854775808).findAcceptingChainBlockHashAtDaaScore indexScore 0 fuel
      (indexHash 0) = .fail .outOfSteps := by
  have hloop : ∀ {fuel : Nat} {high : UInt64}, (indexReader 9223372036854775808).daaLoop indexScore
      0 (indexHash 0) (indexHash 9223372036854775808) fuel 0 high = .fail .outOfSteps := by
    intro fuel
    induction fuel with
    | zero => exact rfl
    | succ fuel ih =>
      intro high
      obtain ⟨mid, hmid⟩ : ∃ mid, mid = (0 : UInt64) + (high - 0) / 2 := ⟨_, rfl⟩
      have hget : (indexReader 9223372036854775808).getByIndex mid = some (indexHash mid) :=
        if_pos (by grind)
      have hpos : (0 : UInt64) < mid + 1 := by grind
      rw [daaLoop, ← hmid]
      rw [hget]
      dsimp only
      rw [indexScore_indexHash]
      dsimp only
      rw [if_neg (UInt64.ne_of_lt hpos).symm, if_pos hpos, if_pos hpos]
      exact ih
  exact ⟨indexReader_stored (by decide), fun fuel => hloop⟩

end Sahyadri.Consensus
