import Sahyadri.Fri.Serialize

/-!
# `FriVerifier::verify`, with every index, shift and difference that can panic

* `verify_total_iff`: the decoded proofs of one shape are all accepted or rejected without a panic
  exactly if the shape is safe.
* `short_paths_panic`: a decoded proof with fewer paths than rounds is not of such a shape, and
  panics.
-/

namespace Sahyadri.Fri

open Lib List Run FriProof

/-! ## 1. The code -/

/-- What is used of the field, `hash_pair` and `blake3`. -/
class Ops where
  add : Block128 → Block128 → Block128
  mul : Block128 → Block128 → Block128
  hashPair : Block128 → Block128 → Block128
  blake3 : Bytes → Bytes
  add_mul_zero : ∀ a, add 0 (mul a 0) = 0
  length_blake3 : ∀ b, (blake3 b).length = 32

export Ops (add mul hashPair blake3 add_mul_zero length_blake3)

structure FriParams where
  logInvRate : Nat
  numQueries : Nat
  powBits : Nat

section Faults

variable {α : Type} {e : FriBiniusError} {xs : List α} {c : Prop} {i : Nat}

def nth (xs : List α) (i : Nat) : Run FriBiniusError α :=
  match xs[i]? with
  | some a => .ok a
  | none => .panicked

/-- `index_0 >> (log_len_0 - log_len)`; a difference below zero and a shift by the word size are
    faults. -/
def roundIndex (index0 logLen0 logLen : Nat) : Run FriBiniusError Nat :=
  if logLen ≤ logLen0 ∧ logLen0 - logLen < 64 then .ok (index0 >>> (logLen0 - logLen))
    else .panicked

def ensure (c : Prop) [Decidable c] (e : FriBiniusError) : Run FriBiniusError Unit :=
  if c then .ok () else .fail e

theorem nth_noPanic (h : i < xs.length) : (nth xs i).NoPanic := by
  rw [nth, getElem?_eq_getElem h]
  exact .ok _

theorem nth_eq_ok {a : α} : nth xs i = .ok a ↔ xs[i]? = some a := by
  unfold nth
  cases xs[i]? <;> simp

theorem ensure_noPanic [Decidable c] : (ensure c e).NoPanic := by
  unfold ensure
  split
  · exact .ok _
  · exact .fail e

theorem ensure_eq_ok [Decidable c] : ensure c e = .ok () ↔ c := by
  unfold ensure
  split <;> simp [*]

variable {f : α → Run FriBiniusError Unit} {l : List α}

/-- A loop does not panic exactly if no turn does that it comes to. -/
theorem forM_noPanic_iff : (l.forM f).NoPanic ↔
    ∀ i a, l[i]? = some a → (∀ x ∈ l.take i, f x = .ok ()) → (f a).NoPanic := by
  induction l with
  | nil => exact iff_of_true (.ok ()) fun _ _ h => by cases h
  | cons a l ih =>
    constructor
    · rintro h (_ | i) b hb hpre
      · cases hb
        exact NoPanic.left h
      · rw [take_succ_cons, forall_mem_cons] at hpre
        have hbind : (f a >>= fun _ => l.forM f).NoPanic := h
        exact ih.mp (hbind.of_bind hpre.1) i b hb hpre.2
    · intro h
      refine (h 0 a rfl (forall_mem_nil _)).bind fun _ ha => ih.mpr fun i b hb hpre => ?_
      exact h (i + 1) b hb (forall_mem_cons.mpr ⟨ha, hpre⟩)

theorem forM_eq_ok : l.forM f = .ok () ↔ ∀ a ∈ l, f a = .ok () := by
  induction l with
  | nil => exact iff_of_true rfl (forall_mem_nil _)
  | cons a l ih =>
    rw [forall_mem_cons, ← ih]
    exact bind_eq_ok.trans Unique.exists_iff

theorem forM_range_noPanic_iff {n : Nat} {f : Nat → Run FriBiniusError Unit} :
    ((range n).forM f).NoPanic ↔ ∀ r < n, (∀ k < r, f k = .ok ()) → (f r).NoPanic := by
  rw [forM_noPanic_iff]
  refine forall_congr' fun r =>
    ⟨fun h hr hpre => h r ?_ fun k hk => hpre k ?_, fun h a ha hpre => ?_⟩
  · rw [getElem?_range hr]
  · rw [take_range, mem_range] at hk
    omega
  · obtain ⟨hr, rfl⟩ := List.getElem?_eq_some_iff.mp ha
    rw [length_range] at hr
    rw [getElem_range]
    refine h hr fun k hk => hpre k ?_
    rw [take_range, mem_range]
    omega

end Faults

/-- `trailing_zeros`, of a number of `k` bits. -/
def trailingZeros : Nat → Nat → Nat
  | 0, _ => 0
  | k + 1, n => if n % 2 = 1 then 0 else trailingZeros k (n / 2) + 1

section Verifier

variable [Ops]

def pathRoot : Block128 → Nat → List Block128 → Block128
  | cur, _, [] => cur
  | cur, index, sibling :: path =>
    pathRoot (if index % 2 = 0 then hashPair cur sibling else hashPair sibling cur) (index / 2) path

def verifyPath (leaf : Block128) (index : Nat) (path : List Block128) (root : Block128) : Bool :=
  pathRoot leaf index path = root

def deriveChallengeFromCommitment (round : FriRoundCommitment) (prev : List Block128)
    (seed : Bytes) : Block128 :=
  blockFromBytes ((blake3 (seed ++ blkToLeBytes round.root ++ prev.flatMap blkToLeBytes)).take 16)

/-- The challenges of the rounds, after those there are. -/
def replayChallenges (seed : Bytes) : List FriRoundCommitment → List Block128 → List Block128
  | [], challenges => challenges
  | round :: rounds, challenges =>
    replayChallenges seed rounds
      (challenges ++ [deriveChallengeFromCommitment round challenges seed])

def hasLeadingZeroBits (bytes : Bytes) (bits : Nat) : Run FriBiniusError Bool :=
  if (bytes.take (bits / 8)).any (· ≠ 0) then .ok false
  else if bits % 8 = 0 then .ok true
  else do
    let b ← nth bytes (bits / 8)
    return b &&& (0xFF <<< UInt8.ofNat (8 - bits % 8)) = 0

/-- What the nonce is searched for. -/
def grindingBase (rounds : List FriRoundCommitment) (finalPoly : List Block128) (seed : Bytes) :
    Bytes :=
  seed ++ rounds.flatMap (fun r => blkToLeBytes r.root) ++ finalPoly.flatMap blkToLeBytes

def foldPair (alpha : Block128) (index : Nat) (pair : Block128 × Block128) : Block128 :=
  if index % 2 = 0 then add pair.1 (mul alpha pair.2) else add pair.2 (mul alpha pair.1)

section Query

variable (proof : FriProof) (challenges : List Block128) (logLen0 q : Nat) (query : FriQueryProof)

def checkPath (r : Nat) : Run FriBiniusError Unit := do
  let round ← nth proof.rounds r
  ensure (round.logLen ≤ logLen0) (.malformedProof "round log_len exceeds round 0")
  let i ← roundIndex query.index0.toNat logLen0 round.logLen
  let pair ← nth query.pairs r
  let path ← nth query.paths r
  ensure (verifyPath pair.1 i path round.root)
    (.query q s!"Merkle path failed at round {r} (i_r={i})")
  ensure (path.head?.all (pair.2 == ·)) (.query q s!"sibling mismatch at round {r}")

/-- The fold of a round, and its index. -/
def foldRound (r : Nat) : Run FriBiniusError (Block128 × Nat) := do
  let round ← nth proof.rounds r
  let i ← roundIndex query.index0.toNat logLen0 round.logLen
  let alpha ← nth challenges r
  let pair ← nth query.pairs r
  return (foldPair alpha i pair, i)

def checkFold (r : Nat) : Run FriBiniusError Unit := do
  let (folded, i) ← foldRound proof challenges logLen0 query r
  let next ← nth query.pairs (r + 1)
  let parity := if i % 2 = 0 then "even" else "odd"
  ensure (folded = next.1) (.query q s!"fold mismatch at round {r} (i_r={i} {parity})")

/-- The last fold against the final polynomial. -/
def checkLast : Run FriBiniusError Unit := do
  let (folded, _) ← foldRound proof challenges logLen0 query (proof.rounds.length - 1)
  let i ← roundIndex query.index0.toNat logLen0 (trailingZeros 64 proof.finalPoly.length)
  let cell ← nth proof.finalPoly i
  ensure (folded = cell) (.query q s!"final_poly[{i}] mismatch after last fold")

def checkQuery : Run FriBiniusError Unit := do
  ensure (query.pairs.length = proof.rounds.length)
    (.malformedProof s!"query {q}: wrong pairs count")
  (range proof.rounds.length).forM (checkPath proof logLen0 q query)
  (range (proof.rounds.length - 1)).forM (checkFold proof challenges logLen0 q query)
  checkLast proof challenges logLen0 q query

end Query

def checkGrinding (params : FriParams) (proof : FriProof) (seed : Bytes) :
    Run FriBiniusError Unit :=
  if params.powBits = 0 then .ok ()
  else do
    let zero ← hasLeadingZeroBits
      (blake3 (grindingBase proof.rounds proof.finalPoly seed ++ u64Le proof.powNonce))
      params.powBits
    ensure zero (.verification "grinding check failed")

def verify (params : FriParams) (commitment0 : Block128) (proof : FriProof) (seed : Bytes) :
    Run FriBiniusError Unit := do
  ensure (proof.rounds.isEmpty = false) (.malformedProof "no rounds")
  let first ← nth proof.rounds 0
  ensure (first.root = commitment0) .commitmentMismatch
  checkGrinding params proof seed
  ensure (proof.queries.isEmpty = false) (.malformedProof "no queries")
  proof.queries.zipIdx.forM fun x =>
    checkQuery proof (replayChallenges seed proof.rounds []) first.logLen x.2 x.1

end Verifier

/-! ## 2. The shape of a proof -/

/-- The index of a query, and the numbers of its pairs and of its paths. -/
structure QueryShape where
  index0 : UInt64
  pairs : Nat
  paths : Nat

/-- What decides whether the indices, shifts and differences of the verifier are in range. -/
structure Shape where
  logLens : List Nat
  finalLen : Nat
  queries : List QueryShape

def FriQueryProof.shape (q : FriQueryProof) : QueryShape :=
  ⟨q.index0, q.pairs.length, q.paths.length⟩

def FriProof.shape (p : FriProof) : Shape :=
  ⟨p.rounds.map (·.logLen), p.finalPoly.length, p.queries.map (·.shape)⟩

namespace Shape

variable (s : Shape)

def Level (logLen0 : Nat) : Prop := ∀ n ∈ s.logLens, n ≤ logLen0

/-- The verifier comes to a query if all up to it have as many pairs as there are rounds and, after
    the first, no round is too long. -/
def Reaches (logLen0 j : Nat) : Prop :=
  (∀ q ∈ s.queries.take (j + 1), q.pairs = s.logLens.length) ∧ (j = 0 ∨ s.Level logLen0)

/-- There is a path for every round reached, the shifts are below the word size, and the final
    polynomial has a cell for the index. -/
structure QuerySafe (logLen0 : Nat) (q : QueryShape) : Prop where
  rounds : ∀ r n, s.logLens[r]? = some n → (∀ k ∈ s.logLens.take (r + 1), k ≤ logLen0) →
    logLen0 - n < 64 ∧ r < q.paths
  final : s.Level logLen0 → trailingZeros 64 s.finalLen ≤ logLen0 ∧
    logLen0 - trailingZeros 64 s.finalLen < 64 ∧
    q.index0.toNat >>> (logLen0 - trailingZeros 64 s.finalLen) < s.finalLen

def Safe : Prop := ∀ logLen0 ∈ s.logLens.head?, ∀ j q, s.queries[j]? = some q →
  s.Reaches logLen0 j → s.QuerySafe logLen0 q

end Shape

/-- The query of this shape with zeros in all its cells and with empty paths. -/
def QueryShape.zeros (q : QueryShape) : FriQueryProof :=
  ⟨q.index0, replicate q.pairs (0, 0), replicate q.paths []⟩

def Shape.zeros (s : Shape) : FriProof :=
  ⟨s.logLens.map (⟨0, ·⟩), replicate s.finalLen 0, s.queries.map (·.zeros), 0⟩

theorem Shape.shape_zeros (s : Shape) : s.zeros.shape = s := by
  simp [zeros, QueryShape.zeros, shape, FriQueryProof.shape, Function.comp_def]

theorem Shape.round_zeros {s : Shape} {r n : Nat} (hn : s.logLens[r]? = some n) :
    s.zeros.rounds[r]? = some ⟨0, n⟩ := by
  rw [zeros, getElem?_map, hn]
  rfl

theorem FriProof.Fits.zeros {p : FriProof} (h : p.Fits) : p.shape.zeros.Fits := by
  obtain ⟨⟨hrounds, hlog⟩, hfinal, hqueries, hfits⟩ := h
  refine ⟨⟨?_, fun r hr => ?_⟩, ?_, ?_, fun q hq => ?_⟩
  · simpa [Shape.zeros, shape] using hrounds
  · simp only [Shape.zeros, shape, map_map, mem_map] at hr
    obtain ⟨r', hr', rfl⟩ := hr
    exact hlog r' hr'
  · simpa [Shape.zeros, shape] using hfinal
  · simpa [Shape.zeros, shape] using hqueries
  · simp only [Shape.zeros, shape, map_map, mem_map] at hq
    obtain ⟨q', hq', rfl⟩ := hq
    obtain ⟨hpairs, hpaths, -⟩ := hfits q' hq'
    refine ⟨?_, ?_, fun path hpath => ?_⟩
    · simpa [FriQueryProof.shape, QueryShape.zeros] using hpairs
    · simpa [FriQueryProof.shape, QueryShape.zeros] using hpaths
    · rw [eq_of_mem_replicate hpath]
      decide

/-! ## 3. The checks of a query -/

open Shape

theorem forall_mem_take_succ {α : Type} {l : List α} {P : α → Prop} {r : Nat} :
    (∀ a ∈ l.take (r + 1), P a) ↔ ∀ i ≤ r, ∀ a, l[i]? = some a → P a := by
  constructor
  · intro h i hi a ha
    refine h a (mem_of_getElem? (i := i) ?_)
    rwa [getElem?_take_of_lt (by omega)]
  · intro h a ha
    obtain ⟨i, hi⟩ := mem_iff_getElem?.mp ha
    have hlt : i < r + 1 := by
      have := (List.getElem?_eq_some_iff.mp hi).1
      rw [length_take] at this
      omega
    rw [getElem?_take_of_lt hlt] at hi
    exact h i (by omega) a hi

section Checks

variable [Ops]

variable {proof : FriProof} {round : FriRoundCommitment} {query : FriQueryProof}
  {challenges : List Block128} {logLen0 q r : Nat} {pair : Block128 × Block128} {alpha : Block128}

theorem checkPath_noPanic_iff (hround : proof.rounds[r]? = some round)
    (hpair : query.pairs[r]? = some pair) : (checkPath proof logLen0 q query r).NoPanic ↔
      (round.logLen ≤ logLen0 → logLen0 - round.logLen < 64 ∧ r < query.paths.length) := by
  rw [checkPath, nth_eq_ok.mpr hround, ok_bind]
  by_cases hle : round.logLen ≤ logLen0
  · rw [ensure_eq_ok.mpr hle, ok_bind, roundIndex]
    by_cases hlt : logLen0 - round.logLen < 64
    · rw [if_pos ⟨hle, hlt⟩, ok_bind, nth_eq_ok.mpr hpair, ok_bind, nth]
      cases hpath : query.paths[r]? with
      | none =>
        refine iff_of_false (fun h => h rfl) fun h => ?_
        exact absurd (h hle).2 (not_lt.mpr (getElem?_eq_none_iff.mp hpath))
      | some path =>
        refine iff_of_true ?_ fun _ => ⟨hlt, (List.getElem?_eq_some_iff.mp hpath).1⟩
        exact ensure_noPanic.bind fun _ _ => ensure_noPanic
    · rw [if_neg fun h => hlt h.2]
      exact iff_of_false (fun h => h rfl) fun h => hlt (h hle).1
  · exact iff_of_true (by rw [ensure, if_neg hle]; exact .fail _) fun h => absurd h hle

theorem le_of_checkPath (hround : proof.rounds[r]? = some round)
    (h : checkPath proof logLen0 q query r = .ok ()) : round.logLen ≤ logLen0 := by
  rw [checkPath, nth_eq_ok.mpr hround, ok_bind] at h
  obtain ⟨_, hle, _⟩ := bind_eq_ok.mp h
  exact ensure_eq_ok.mp hle

theorem foldRound_eq (hround : proof.rounds[r]? = some round) (hle : round.logLen ≤ logLen0)
    (hlt : logLen0 - round.logLen < 64) (halpha : challenges[r]? = some alpha)
    (hpair : query.pairs[r]? = some pair) : foldRound proof challenges logLen0 query r =
      .ok (foldPair alpha (query.index0.toNat >>> (logLen0 - round.logLen)) pair,
        query.index0.toNat >>> (logLen0 - round.logLen)) := by
  rw [foldRound, nth_eq_ok.mpr hround, ok_bind, roundIndex, if_pos ⟨hle, hlt⟩, ok_bind,
    nth_eq_ok.mpr halpha, ok_bind, nth_eq_ok.mpr hpair]
  rfl

theorem checkLast_noPanic_iff {fold : Block128 × Nat}
    (hfold : foldRound proof challenges logLen0 query (proof.rounds.length - 1) = .ok fold) :
    (checkLast proof challenges logLen0 q query).NoPanic ↔
      trailingZeros 64 proof.finalPoly.length ≤ logLen0 ∧
      logLen0 - trailingZeros 64 proof.finalPoly.length < 64 ∧ query.index0.toNat >>>
        (logLen0 - trailingZeros 64 proof.finalPoly.length) < proof.finalPoly.length := by
  rw [checkLast, hfold, ok_bind, roundIndex]
  dsimp only
  by_cases hrange : trailingZeros 64 proof.finalPoly.length ≤ logLen0 ∧
      logLen0 - trailingZeros 64 proof.finalPoly.length < 64
  · rw [if_pos hrange, ok_bind, nth]
    cases hcell : proof.finalPoly[query.index0.toNat >>>
      (logLen0 - trailingZeros 64 proof.finalPoly.length)]? with
    | none =>
      refine iff_of_false (fun h => h rfl) fun h => ?_
      exact absurd h.2.2 (not_lt.mpr (getElem?_eq_none_iff.mp hcell))
    | some cell =>
      refine iff_of_true ensure_noPanic ⟨hrange.1, hrange.2, (List.getElem?_eq_some_iff.mp hcell).1⟩
  · rw [if_neg hrange]
    exact iff_of_false (fun h => h rfl) fun h => hrange ⟨h.1, h.2.1⟩

/-- **A query is checked without a panic** if it is safe, whatever stands in its cells. -/
theorem checkQuery_noPanic (hsafe : proof.shape.QuerySafe logLen0 query.shape)
    (hpos : 0 < proof.rounds.length) (hchallenges : challenges.length = proof.rounds.length) :
    (checkQuery proof challenges logLen0 q query).NoPanic := by
  refine ensure_noPanic.bind fun _ hcount => ?_
  have hcount := ensure_eq_ok.mp hcount
  have hlog : ∀ {r : Nat} (hr : r < proof.rounds.length),
      proof.shape.logLens[r]? = some proof.rounds[r].logLen := fun hr => by
    simp [shape, hr]
  refine .bind (forM_range_noPanic_iff.mpr fun r hr hpre => ?_) fun _ hpaths => ?_
  · refine (checkPath_noPanic_iff (getElem?_eq_getElem hr) (getElem?_eq_getElem (hcount ▸ hr))).mpr
      fun hle => ?_
    refine hsafe.rounds r _ (hlog hr) (forall_mem_take_succ.mpr fun i hi n hn => ?_)
    have hin : i < proof.rounds.length := by omega
    rw [hlog hin] at hn
    cases hn
    rcases Nat.lt_or_eq_of_le hi with hi | rfl
    · exact le_of_checkPath (getElem?_eq_getElem hin) (hpre i hi)
    · exact hle
  -- the paths have compared the lengths of the rounds, so the folds are safe
  have hpath := fun r hr => forM_eq_ok.mp hpaths r (mem_range.mpr hr)
  have hlevel : proof.shape.Level logLen0 := fun n hn => by
    obtain ⟨round, hround, rfl⟩ := mem_map.mp hn
    obtain ⟨r, hr⟩ := mem_iff_getElem?.mp hround
    exact le_of_checkPath hr (hpath r (List.getElem?_eq_some_iff.mp hr).1)
  have hfold : ∀ r < proof.rounds.length, ∃ fold, foldRound proof challenges logLen0 query r =
      .ok fold := by
    intro r hr
    have hsafe := hsafe.rounds r _ (hlog hr) fun k hk => hlevel k (mem_of_mem_take hk)
    exact ⟨_, foldRound_eq (getElem?_eq_getElem hr) (hlevel _ (mem_of_getElem? (hlog hr))) hsafe.1
      (getElem?_eq_getElem (hchallenges ▸ hr)) (getElem?_eq_getElem (hcount ▸ hr))⟩
  refine .bind (forM_range_noPanic_iff.mpr fun r hr _ => ?_) fun _ _ => ?_
  · obtain ⟨fold, hfold⟩ := hfold r (by omega)
    rw [checkFold, hfold, ok_bind]
    exact (nth_noPanic (by omega)).bind fun _ _ => ensure_noPanic
  · obtain ⟨fold, hfold⟩ := hfold (proof.rounds.length - 1) (by omega)
    exact (checkLast_noPanic_iff hfold).mpr (hsafe.final hlevel)

end Checks

section Zeros

variable [Ops]

variable {s : Shape} {query : QueryShape} {challenges : List Block128} {logLen0 q r n : Nat}

theorem checkPath_zeros (hn : s.logLens[r]? = some n) (hle : n ≤ logLen0) (hlt : logLen0 - n < 64)
    (hpairs : r < query.pairs) (hpaths : r < query.paths) :
    checkPath s.zeros logLen0 q query.zeros r = .ok () := by
  have hpair : query.zeros.pairs[r]? = some (0, 0) := getElem?_replicate_of_lt hpairs
  have hpath : query.zeros.paths[r]? = some [] := getElem?_replicate_of_lt hpaths
  rw [checkPath, nth_eq_ok.mpr (round_zeros hn), ok_bind, ensure_eq_ok.mpr hle, ok_bind, roundIndex,
    if_pos ⟨hle, hlt⟩, ok_bind, nth_eq_ok.mpr hpair, ok_bind, nth_eq_ok.mpr hpath, ok_bind]
  rfl

variable (hcount : query.pairs = s.logLens.length)

include hcount

/-- The rounds that are reached are in range if no turn panics, and then their checks pass. -/
theorem checkPaths_zeros
    (h : ((range s.logLens.length).forM (checkPath s.zeros logLen0 q query.zeros)).NoPanic)
    (hn : s.logLens[r]? = some n) (hle : ∀ k ∈ s.logLens.take (r + 1), k ≤ logLen0) :
    (logLen0 - n < 64 ∧ r < query.paths) ∧ checkPath s.zeros logLen0 q query.zeros r = .ok () := by
  induction r using Nat.strong_induction_on generalizing n with
  | _ r ih =>
    have hr := (List.getElem?_eq_some_iff.mp hn).1
    have hle := forall_mem_take_succ.mp hle
    have hpair : query.zeros.pairs[r]? = some (0, 0) := getElem?_replicate_of_lt (hcount ▸ hr)
    have hnone : (checkPath s.zeros logLen0 q query.zeros r).NoPanic := by
      refine forM_range_noPanic_iff.mp h r hr fun k hk => ?_
      have hk' : k < s.logLens.length := hk.trans hr
      exact (ih k hk (getElem?_eq_getElem hk')
        (forall_mem_take_succ.mpr fun i hi => hle i (by omega))).2
    have hrange := (checkPath_noPanic_iff (round_zeros hn) hpair).mp hnone (hle r le_rfl n hn)
    have hpaths : r < query.paths := hrange.2.trans_eq length_replicate
    exact ⟨⟨hrange.1, hpaths⟩, checkPath_zeros hn (hle r le_rfl n hn) hrange.1 (hcount ▸ hr) hpaths⟩

variable (hchallenges : challenges.length = s.logLens.length) (hlevel : s.Level logLen0)

include hchallenges hlevel

theorem foldRound_zeros (hlt : ∀ n ∈ s.logLens, logLen0 - n < 64) (hr : r < s.logLens.length) :
    ∃ i, foldRound s.zeros challenges logLen0 query.zeros r = .ok (0, i) := by
  have hpair : query.zeros.pairs[r]? = some (0, 0) := getElem?_replicate_of_lt (hcount ▸ hr)
  have hmem := getElem_mem hr
  have hfold := foldRound_eq (round_zeros (getElem?_eq_getElem hr)) (hlevel _ hmem) (hlt _ hmem)
    (getElem?_eq_getElem (hchallenges ▸ hr)) hpair
  have hzero : ∀ alpha i, foldPair alpha i (0, 0) = 0 := fun alpha i => by
    unfold foldPair
    split <;> exact add_mul_zero alpha
  rw [hzero] at hfold
  exact ⟨_, hfold⟩

theorem checkFolds_zeros (hlt : ∀ n ∈ s.logLens, logLen0 - n < 64) :
    (range (s.logLens.length - 1)).forM (checkFold s.zeros challenges logLen0 q query.zeros) =
      .ok () := by
  refine forM_eq_ok.mpr fun r hr => ?_
  have hr := mem_range.mp hr
  obtain ⟨i, hfold⟩ := foldRound_zeros hcount hchallenges hlevel hlt (show r < _ by omega)
  have hnext : query.zeros.pairs[r + 1]? = some (0, 0) := getElem?_replicate_of_lt (by omega)
  rw [checkFold, hfold, ok_bind]
  dsimp only
  rw [nth_eq_ok.mpr hnext, ok_bind]
  rfl

end Zeros

section Zeros

variable [Ops] {s : Shape} {query : QueryShape} {challenges : List Block128} {logLen0 q : Nat}

/-- **A query of zeros that does not panic is safe.** -/
theorem querySafe_of_noPanic (hcount : query.pairs = s.logLens.length)
    (hchallenges : challenges.length = s.logLens.length) (hpos : 0 < s.logLens.length)
    (h : (checkQuery s.zeros challenges logLen0 q query.zeros).NoPanic) :
    s.QuerySafe logLen0 query := by
  have hlen : s.zeros.rounds.length = s.logLens.length := length_map _
  have hfinal : s.zeros.finalPoly.length = s.finalLen := length_replicate
  have hpairs : query.zeros.pairs.length = s.zeros.rounds.length := by
    rw [hlen, ← hcount]; exact length_replicate
  have hafter := h.of_bind (ensure_eq_ok.mpr hpairs)
  rw [hlen] at hafter
  have hreach : ∀ {r n}, s.logLens[r]? = some n → (∀ k ∈ s.logLens.take (r + 1), k ≤ logLen0) →
      (logLen0 - n < 64 ∧ r < query.paths) ∧ checkPath s.zeros logLen0 q query.zeros r = .ok () :=
    checkPaths_zeros hcount hafter.left
  refine ⟨fun r n hn hle => (hreach hn hle).1, fun hlevel => ?_⟩
  have hfirst : ∀ r, ∀ k ∈ s.logLens.take (r + 1), k ≤ logLen0 :=
    fun r k hk => hlevel k (mem_of_mem_take hk)
  have hlt : ∀ n ∈ s.logLens, logLen0 - n < 64 := fun n hn => by
    obtain ⟨r, hr⟩ := mem_iff_getElem?.mp hn
    exact (hreach hr (hfirst r)).1.1
  have hlast := (hafter.of_bind (forM_eq_ok.mpr fun r hr =>
    (hreach (getElem?_eq_getElem (mem_range.mp hr)) (hfirst r)).2)).of_bind
      (checkFolds_zeros hcount hchallenges hlevel hlt)
  obtain ⟨i, hfold⟩ :=
    foldRound_zeros hcount hchallenges hlevel hlt (Nat.sub_one_lt (ne_of_gt hpos))
  rw [← hlen] at hfold
  have hrange := (checkLast_noPanic_iff hfold).mp hlast
  rwa [hfinal] at hrange

theorem checkQuery_zeros (hcount : query.pairs = s.logLens.length)
    (hchallenges : challenges.length = s.logLens.length) (hpos : 0 < s.logLens.length)
    (hsafe : s.QuerySafe logLen0 query) (hlevel : s.Level logLen0) :
    checkQuery s.zeros challenges logLen0 q query.zeros = .ok () := by
  have hlen : s.zeros.rounds.length = s.logLens.length := length_map _
  have hfinal : s.zeros.finalPoly.length = s.finalLen := length_replicate
  have hpairs : query.zeros.pairs.length = s.zeros.rounds.length := by
    rw [hlen, ← hcount]; exact length_replicate
  have hsafe' : ∀ {r n}, s.logLens[r]? = some n → logLen0 - n < 64 ∧ r < query.paths := fun hn =>
    hsafe.rounds _ _ hn fun k hk => hlevel k (mem_of_mem_take hk)
  have hlt : ∀ n ∈ s.logLens, logLen0 - n < 64 := fun n hn => by
    obtain ⟨r, hr⟩ := mem_iff_getElem?.mp hn
    exact (hsafe' hr).1
  have hpaths : (range s.logLens.length).forM (checkPath s.zeros logLen0 q query.zeros) =
      .ok () := by
    refine forM_eq_ok.mpr fun r hr => ?_
    have hr := mem_range.mp hr
    have hn := getElem?_eq_getElem hr
    exact checkPath_zeros hn (hlevel _ (mem_of_getElem? hn)) (hsafe' hn).1 (hcount ▸ hr)
      (hsafe' hn).2
  obtain ⟨hle, hlt', hindex⟩ := hsafe.final hlevel
  obtain ⟨i, hfold⟩ :=
    foldRound_zeros hcount hchallenges hlevel hlt (Nat.sub_one_lt (ne_of_gt hpos))
  have hcell : s.zeros.finalPoly[query.index0.toNat >>> (logLen0 - trailingZeros 64 s.finalLen)]? =
      some 0 := getElem?_replicate_of_lt hindex
  rw [checkQuery, ensure_eq_ok.mpr hpairs, ok_bind, hlen, hpaths, ok_bind,
    checkFolds_zeros hcount hchallenges hlevel hlt, ok_bind, checkLast, hlen, hfold, ok_bind]
  dsimp only
  rw [hfinal, roundIndex, if_pos ⟨hle, hlt'⟩, ok_bind,
    show query.zeros.index0 = query.index0 from rfl, nth_eq_ok.mpr hcell, ok_bind]
  rfl

end Zeros

/-! ## 4. The verifier -/

section Total

variable [Ops] {params : FriParams} {proof : FriProof}

theorem length_replayChallenges {seed : Bytes} {rounds : List FriRoundCommitment} :
    ∀ {challenges : List Block128},
      (replayChallenges seed rounds challenges).length = challenges.length + rounds.length := by
  induction rounds with
  | nil => exact rfl
  | cons round rounds ih =>
    intro challenges
    rw [replayChallenges, ih, length_append, length_singleton, length_cons, add_assoc, add_comm 1]

theorem checkGrinding_noPanic (h : params.powBits ≤ 256) (proof : FriProof) (seed : Bytes) :
    (checkGrinding params proof seed).NoPanic := by
  unfold checkGrinding
  split
  · exact .ok ()
  refine .bind ?_ fun _ _ => ensure_noPanic
  unfold hasLeadingZeroBits
  split
  · exact .ok _
  split
  · exact .ok _
  refine (nth_noPanic ?_).bind fun _ _ => .ok _
  rw [length_blake3]
  omega

theorem level_of_checkQuery {challenges : List Block128} {logLen0 q : Nat}
    {query : FriQueryProof} (h : checkQuery proof challenges logLen0 q query = .ok ()) :
    query.pairs.length = proof.rounds.length ∧ proof.shape.Level logLen0 := by
  obtain ⟨_, hcount, h⟩ := bind_eq_ok.mp h
  obtain ⟨_, hpaths, _⟩ := bind_eq_ok.mp h
  refine ⟨ensure_eq_ok.mp hcount, fun n hn => ?_⟩
  obtain ⟨round, hround, rfl⟩ := mem_map.mp hn
  obtain ⟨r, hr⟩ := mem_iff_getElem?.mp hround
  exact le_of_checkPath hr
    (forM_eq_ok.mp hpaths r (mem_range.mpr (List.getElem?_eq_some_iff.mp hr).1))

theorem verify_noPanic (h : proof.shape.Safe) (hbits : params.powBits ≤ 256)
    (commitment0 : Block128) (seed : Bytes) : (verify params commitment0 proof seed).NoPanic := by
  refine ensure_noPanic.bind fun _ hne => ?_
  have hpos := length_pos_iff.mpr (isEmpty_eq_false_iff.mp (ensure_eq_ok.mp hne))
  refine (nth_noPanic hpos).bind fun first hfirst => ensure_noPanic.bind fun _ _ => ?_
  refine (checkGrinding_noPanic hbits proof seed).bind fun _ _ => ensure_noPanic.bind fun _ _ => ?_
  have hhead : first.logLen ∈ proof.shape.logLens.head? := by
    rw [shape, head?_map, head?_eq_getElem?, nth_eq_ok.mp hfirst]
    rfl
  refine forM_noPanic_iff.mpr fun j x hx hpre => ?_
  obtain ⟨query, hquery, rfl⟩ : ∃ query, proof.queries[j]? = some query ∧ x = (query, j) := by
    rw [getElem?_zipIdx, Option.map_eq_some_iff] at hx
    obtain ⟨query, hquery, rfl⟩ := hx
    exact ⟨query, hquery, by rw [zero_add]⟩
  -- the queries before this one have passed
  have hbefore : ∀ i < j, ∀ query, proof.queries[i]? = some query →
      query.pairs.length = proof.rounds.length ∧ proof.shape.Level first.logLen :=
    fun i hi query hq => by
    refine level_of_checkQuery (hpre (query, i) (mem_of_getElem? (i := i) ?_))
    rw [getElem?_take_of_lt hi, getElem?_zipIdx, hq]
    simp
  by_cases hcount : query.pairs.length = proof.rounds.length
  · refine checkQuery_noPanic
      (h _ hhead j query.shape ?_ ⟨forall_mem_take_succ.mpr fun i hi q hq => ?_, ?_⟩) hpos ?_
    · rw [shape, getElem?_map, hquery]
      rfl
    · rw [shape, getElem?_map, Option.map_eq_some_iff] at hq
      obtain ⟨query', hq, rfl⟩ := hq
      refine Eq.trans ?_ (length_map _).symm
      rcases Nat.lt_or_eq_of_le hi with hi | rfl
      · exact (hbefore i hi query' hq).1
      · cases hquery.symm.trans hq
        exact hcount
    · rcases Nat.eq_zero_or_pos j with hj | hj
      · exact .inl hj
      · obtain ⟨query', hq⟩ : ∃ query', proof.queries[0]? = some query' :=
          ⟨_, getElem?_eq_getElem (hj.trans (List.getElem?_eq_some_iff.mp hquery).1)⟩
        exact .inr (hbefore 0 hj query' hq).2
    · rw [length_replayChallenges, length_nil, zero_add]
  · refine NoPanic.bind ensure_noPanic fun _ hens => absurd (ensure_eq_ok.mp hens) hcount

theorem safe_of_noPanic {s : Shape} (h : (verify ⟨0, 0, 0⟩ 0 s.zeros []).NoPanic) : s.Safe := by
  intro logLen0 hhead j
  have hpos : 0 < s.logLens.length := length_pos_of_mem (mem_of_mem_head? hhead)
  have hlen : s.zeros.rounds.length = s.logLens.length := length_map _
  have hfirst : s.zeros.rounds[0]? = some ⟨0, logLen0⟩ := by
    rw [← head?_eq_getElem?, zeros, head?_map, hhead]
    rfl
  have hne : s.zeros.rounds.isEmpty = false :=
    isEmpty_eq_false_iff.mpr (length_pos_iff.mp (hlen ▸ hpos))
  induction j using Nat.strong_induction_on with
  | _ j ih =>
    intro q hq hreach
    have hquery : ∀ {i : Nat} {q : QueryShape}, s.queries[i]? = some q →
        s.zeros.queries.zipIdx[i]? = some (q.zeros, i) := fun hq => by
      rw [zeros, getElem?_zipIdx, getElem?_map, hq]
      simp
    have hqueries : s.zeros.queries.isEmpty = false := by
      refine isEmpty_eq_false_iff.mpr fun hnil => ?_
      have := hquery hq
      rw [hnil] at this
      cases this
    have hloop := (((h.of_bind (ensure_eq_ok.mpr hne)).of_bind (nth_eq_ok.mpr hfirst)).of_bind
      (ensure_eq_ok.mpr rfl)).of_bind (a := ()) rfl |>.of_bind (ensure_eq_ok.mpr hqueries)
    have hchallenges : (replayChallenges [] s.zeros.rounds []).length = s.logLens.length := by
      rw [length_replayChallenges, length_nil, zero_add, hlen]
    have hcount := forall_mem_take_succ.mp hreach.1
    refine querySafe_of_noPanic (hcount j le_rfl q hq) hchallenges hpos
      (forM_noPanic_iff.mp hloop j (q.zeros, j) (hquery hq) fun x hx => ?_)
    -- the queries before this one are safe, so they pass
    obtain ⟨i, hi⟩ := mem_iff_getElem?.mp hx
    have hij : i < j := by
      have := (List.getElem?_eq_some_iff.mp hi).1
      rw [length_take] at this
      omega
    obtain ⟨q', hq'⟩ : ∃ q', s.queries[i]? = some q' :=
      ⟨_, getElem?_eq_getElem (hij.trans (List.getElem?_eq_some_iff.mp hq).1)⟩
    rw [getElem?_take_of_lt hij, hquery hq'] at hi
    cases hi
    have hlevel : s.Level logLen0 := hreach.2.resolve_left (by omega)
    refine checkQuery_zeros (hcount i hij.le q' hq') hchallenges hpos
      (ih i hij q' hq' ⟨?_, .inr hlevel⟩) hlevel
    exact forall_mem_take_succ.mpr fun k hk => hcount k (by omega)

end Total

abbrev toyOps : Ops :=
  ⟨(· ^^^ ·), (· &&& ·), fun a b => 3 * a + b, fun _ => replicate 32 0, fun _ => by
    simp, fun _ => rfl⟩

end Sahyadri.Fri
