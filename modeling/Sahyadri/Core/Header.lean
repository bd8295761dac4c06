import Sahyadri.Lib.Runs
import Sahyadri.Lib.Search
import Sahyadri.Core.Tx

/-!
# `consensus/core`: block headers and their parents, level by level

* `CompressedParents`: the parents of a header as runs `(cumulative level, parents)`, with the two
  ways to make one: from the levels (`tryFromLevels`) and from runs that came over the wire
  (`tryFromRuns`), which are compared with their neighbours only.
-/

namespace Sahyadri.Core

open Lib Smt List Function

/-! ## 1. Parents by level -/

inductive CompressedParentsError where
  | levelsExceeded
  | levelsNotStrictlyIncreasing
  | notFullyCompressed
  deriving DecidableEq, Repr

/-- `CompressedParents`: a run has the parents of the levels from the run before up to `cum`. -/
structure CompressedParents where
  runs : List (UInt8 × List Hash)
  deriving DecidableEq, Repr

namespace CompressedParents

def counted (runs : List (UInt8 × List Hash)) : List (Nat × List Hash) :=
  runs.map fun r => (r.1.toNat, r.2)

variable (p : CompressedParents)

def expandedLen : Nat := (p.runs.getLast?.map fun r => r.1.toNat).getD 0

/-- `expanded_iter`, run to its end. -/
def expandedIter {ε : Type} : Run ε (List (List Hash)) := expandRle 0 (counted p.runs)

/-- The predicate of `partition_point`: `(*cum as usize) - 1 < index`, which wraps at 0. -/
def before (index : Nat) (r : UInt8 × List Hash) : Bool :=
  decide ((r.1.toNat + (2 ^ 64 - 1)) % 2 ^ 64 < index)

/-- `get`; indexing outside of the runs panics. -/
def get {ε : Type} (index : Nat) : Run ε (Option (List Hash)) :=
  if p.expandedLen ≤ index then .ok none
  else
    let i := if index = 0 then 0 else partitionPoint (before index) p.runs
    match p.runs[i]? with
    | none => .panicked
    | some r => .ok (some r.2)

/-- `TryFrom<Vec<Vec<Hash>>>`. -/
def tryFromLevels (parents : List (List Hash)) : Except CompressedParentsError CompressedParents :=
  if 255 < parents.length then .error .levelsExceeded
  else .ok ⟨(rleCumulative parents).map fun r => (UInt8.ofNat r.1, r.2)⟩

/-- The loop over `tuple_windows`: each run is compared with the next. -/
def checkWindows : List (UInt8 × List Hash) → Except CompressedParentsError Unit
  | last :: run :: runs =>
    if run.1 ≤ last.1 then .error .levelsNotStrictlyIncreasing
    else if last.2 = run.2 then .error .notFullyCompressed
    else checkWindows (run :: runs)
  | _ => .ok ()

/-- `TryFrom<Vec<(u8, Vec<Hash>)>>`. -/
def tryFromRuns (parents : List (UInt8 × List Hash)) :
    Except CompressedParentsError CompressedParents := do
  checkWindows parents
  .ok ⟨parents⟩

end CompressedParents

/-! ## 2. Headers -/

/-- `BlueWorkType`, `Uint192`. -/
abbrev BlueWorkType := BitVec 192

def BlueWorkType.toBeBytes (work : BlueWorkType) : Bytes := (leBytes 24 work.toNat).reverse

/-- A block header with its cached hash. -/
structure Header where
  hash : Hash
  version : UInt16
  parentsByLevel : CompressedParents
  hashMerkleRoot : Hash
  acceptedIdMerkleRoot : Hash
  accountCommitment : Hash
  timestamp : UInt64
  bits : UInt32
  nonce : UInt64
  daaScore : UInt64
  blueWork : BlueWorkType
  blueScore : UInt64
  pruningPoint : Hash
  deriving DecidableEq, Repr

structure CompactHeaderData where
  daaScore : UInt64
  timestamp : UInt64
  bits : UInt32
  blueScore : UInt64
  deriving DecidableEq, Repr

/-- `CompactHeaderData::from`. -/
def CompactHeaderData.ofHeader (h : Header) : CompactHeaderData :=
  ⟨h.daaScore, h.timestamp, h.bits, h.blueScore⟩

/-- `direct_parents`: the parents at level 0. -/
def Header.directParents {ε : Type} (h : Header) : Run ε (List Hash) := do
  match ← h.parentsByLevel.get 0 with
  | some parents => .ok parents
  | none => .ok []

/-- The parents at level 0, read from the first run. -/
def Header.parents (h : Header) : List Hash :=
  if h.parentsByLevel.expandedLen = 0 then []
    else (h.parentsByLevel.runs.head?.map Prod.snd).getD []

theorem Header.directParents_eq {ε : Type} (h : Header) :
    (h.directParents : Run ε (List Hash)) = .ok h.parents := by
  unfold directParents parents CompressedParents.get
  by_cases h0 : h.parentsByLevel.expandedLen = 0
  · simp [h0]
  · cases hr : h.parentsByLevel.runs with
    | nil => simp [CompressedParents.expandedLen, hr] at h0
    | cons r runs => simp [h0]

section Hashing

variable {ε : Type} (blockHash : Bytes → Hash)

def writeVarArray (level : List Hash) : Bytes := leBytes 8 level.length ++ level.flatMap H256.bytes

/-- `write_var_bytes` on the bytes of the work, leading zeros dropped. -/
def writeBlueWork (work : BlueWorkType) : Bytes :=
  let bytes := work.toBeBytes.dropWhile (· = 0)
  leBytes 8 bytes.length ++ bytes

/-- `hash_override_nonce_time`: the parents are expanded while they are hashed. -/
def Header.hashOverrideNonceTime (h : Header) (nonce timestamp : UInt64) : Run ε Hash := do
  let levels ← h.parentsByLevel.expandedIter
  .ok (blockHash (u16Le h.version ++ leBytes 8 h.parentsByLevel.expandedLen ++
    levels.flatMap writeVarArray ++ h.hashMerkleRoot.bytes ++ h.acceptedIdMerkleRoot.bytes ++
    h.accountCommitment.bytes ++ u64Le timestamp ++ u32Le h.bits.toNat ++ u64Le nonce ++
    u64Le h.daaScore ++ u64Le h.blueScore ++ writeBlueWork h.blueWork ++ h.pruningPoint.bytes))

def Header.newFinalized (version : UInt16) (parentsByLevel : CompressedParents)
    (hashMerkleRoot acceptedIdMerkleRoot accountCommitment : Hash) (timestamp : UInt64)
    (bits : UInt32) (nonce daaScore : UInt64) (blueWork : BlueWorkType) (blueScore : UInt64)
    (pruningPoint : Hash) : Run ε Header := do
  let header : Header :=
    { hash := Hash.default, version, parentsByLevel, hashMerkleRoot, acceptedIdMerkleRoot,
      accountCommitment, timestamp, bits, nonce, daaScore, blueWork, blueScore, pruningPoint }
  let hash ← header.hashOverrideNonceTime blockHash nonce timestamp
  .ok { header with hash }

theorem Header.newFinalized_panics {version : UInt16} {parents : CompressedParents}
    {r₁ r₂ r₃ r₄ : Hash} {t n d s : UInt64} {bits : UInt32} {work : BlueWorkType} :
    (newFinalized blockHash version parents r₁ r₂ r₃ t bits n d work s r₄ : Run ε Header) =
      .panicked ↔ ¬ Grows 0 (CompressedParents.counted parents.runs) := by
  unfold newFinalized hashOverrideNonceTime CompressedParents.expandedIter
  by_cases h : Grows 0 (CompressedParents.counted parents.runs)
  · simp [expandRle_of_grows h, h]
  · simp [expandRle_of_not_grows h, h]

end Hashing

/-! ## 3. Accepted runs -/

namespace CompressedParents

/-- What `check_windows` compares: the levels grow and the parents differ, from each run to the
    next. -/
def Windows (runs : List (UInt8 × List Hash)) : Prop :=
  runs.IsChain fun last run => last.1 < run.1 ∧ last.2 ≠ run.2

variable {runs : List (UInt8 × List Hash)}

theorem checkWindows_eq_ok : checkWindows runs = .ok () ↔ Windows runs := by
  induction runs with
  | nil => simp [checkWindows, Windows]
  | cons last runs ih =>
    cases runs with
    | nil => simp [checkWindows, Windows]
    | cons run runs =>
      rw [checkWindows]
      split
      · rename_i hle
        simp [Windows, UInt8.not_lt.mpr hle]
      · split
        · rename_i heq
          simp [Windows, heq]
        · rename_i hle hne
          rw [ih]
          simp [Windows, UInt8.not_le.mp hle, hne]

variable {p : CompressedParents}

theorem tryFromRuns_eq_ok : tryFromRuns runs = .ok p ↔ Windows runs ∧ p = ⟨runs⟩ := by
  unfold tryFromRuns
  rw [← checkWindows_eq_ok]
  cases checkWindows runs with
  | error e => simp [bind, Except.bind]
  | ok u => simp [bind, Except.bind, eq_comm]

/-- The first run ends at level 0: it stands for no level. -/
def StartsAtZero (runs : List (UInt8 × List Hash)) : Prop := ∃ r ∈ runs.head?, r.1 = 0

instance (runs : List (UInt8 × List Hash)) : Decidable (StartsAtZero runs) :=
  inferInstanceAs (Decidable (∃ r ∈ runs.head?, r.1 = 0))

/-- Between neighbours the counts grow; what is left to ask is that the first is not 0. -/
theorem Windows.grows_iff (h : Windows runs) : Grows 0 (counted runs) ↔ ¬ StartsAtZero runs := by
  cases runs with
  | nil => simp [counted, StartsAtZero]
  | cons r runs =>
    have htail : Grows r.1.toNat (counted runs) := by
      have hmap : ((r :: runs).map fun r => r.1.toNat).IsChain (· < ·) :=
        isChain_map_of_isChain _ (fun _ _ hw => UInt8.lt_iff_toNat_lt.mp hw.1) h
      simpa [Grows, counted, comp_def] using hmap
    have h0 : r.1 = 0 ↔ r.1.toNat = 0 := by rw [← UInt8.toNat_inj]; rfl
    simp only [counted, map_cons, grows_cons, StartsAtZero, head?_cons,
      Option.mem_def, Option.some.injEq, exists_eq_left', h0]
    exact ⟨fun hg => by omega, fun hne => ⟨by omega, htail⟩⟩

theorem expandedLen_eq (p : CompressedParents) : p.expandedLen = lastCount 0 (counted p.runs) := by
  simp [expandedLen, lastCount, counted, getLast?_map, comp_def]

/-- The runs stand for a list of levels that `get` reads and that compresses to them. -/
structure Exact (p : CompressedParents) (levels : List (List Hash)) : Prop where
  expanded : (p.expandedIter : Run Empty _) = .ok levels
  length : levels.length = p.expandedLen
  get : ∀ i < p.expandedLen, (p.get i : Run Empty _) = .ok levels[i]?
  beyond : ∀ i ≥ p.expandedLen, (p.get i : Run Empty _) = .ok none
  recompressed : tryFromLevels levels = .ok p

theorem beyond_expandedLen {i : Nat} (hi : i ≥ p.expandedLen) :
    (p.get i : Run Empty _) = .ok none := by
  rw [CompressedParents.get, if_pos hi]

theorem before_iff {index : Nat} {r : UInt8 × List Hash} (hr : 0 < r.1.toNat) :
    before index r = true ↔ r.1.toNat ≤ index := by
  have := r.1.toNat_lt
  rw [before, decide_eq_true_iff]
  omega

theorem Grows.pos (h : Grows 0 (counted runs)) : ∀ r ∈ runs, 0 < r.1.toNat := by
  intro r hr
  have hpw := isChain_iff_pairwise.mp h
  exact (pairwise_cons.mp hpw).1 _ (mem_map.mpr ⟨(r.1.toNat, r.2), mem_map.mpr ⟨r, hr, rfl⟩, rfl⟩)

theorem Grows.pairwise (h : Grows 0 (counted runs)) :
    runs.Pairwise fun r s => r.1.toNat < s.1.toNat := by
  have hpw := (pairwise_cons.mp (isChain_iff_pairwise.mp h)).2
  rw [counted, map_map, pairwise_map] at hpw
  exact hpw

section

variable (h : Grows 0 (counted p.runs))

include h

/-- The binary search of `get` ends at the first run that goes beyond the index. -/
theorem get_eq {i : Nat} (hi : i < p.expandedLen) :
    (p.get i : Run Empty _) = .ok (expand 0 (counted p.runs))[i]? := by
  have hpos := Grows.pos h
  have hpw := Grows.pairwise h
  -- the search is over a partitioned list, and the last run goes beyond `i`
  have hpart : p.runs.Pairwise fun r s => before i s = true → before i r = true := by
    refine List.Pairwise.imp_of_mem ?_ hpw
    intro r s hr hs hlt hbs
    rw [before_iff (hpos s hs)] at hbs
    rw [before_iff (hpos r hr)]
    omega
  obtain ⟨hle, hspec⟩ := partitionPoint_spec hpart
  have hne : p.runs ≠ [] := by
    rintro hnil
    simp [expandedLen, hnil] at hi
  have hlen := length_pos_iff.mpr hne
  have hlast : i < (p.runs[p.runs.length - 1]).1.toNat := by
    rw [expandedLen, getLast?_eq_some_getLast hne, getLast_eq_getElem] at hi
    exact hi
  have hin : partitionPoint (before i) p.runs < p.runs.length := by
    by_contra hn
    have := (hspec (p.runs.length - 1) (by omega)).mpr (by omega)
    rw [before_iff (hpos _ (getElem_mem _))] at this
    omega
  -- the fast path looks at the same run
  have hfast : (if i = 0 then 0 else partitionPoint (before i) p.runs) =
      partitionPoint (before i) p.runs := by
    split
    · rename_i h0
      by_contra hn
      have := (hspec 0 hlen).mpr (by omega)
      rw [before_iff (hpos _ (getElem_mem _))] at this
      have := hpos _ (getElem_mem hlen)
      omega
    · rfl
  rw [CompressedParents.get, if_neg (by omega), hfast]
  simp only [getElem?_eq_getElem hin]
  have hout := getElem?_expand h (i := i) (by simpa [counted] using hin) ?_ ?_
  · simpa [counted] using hout.symm
  · have := mt (hspec _ hin).mp (by omega)
    rw [before_iff (hpos _ (getElem_mem _))] at this
    simp only [counted, getElem_map]
    omega
  · intro k hk
    have := (hspec k (by omega)).mpr hk
    rw [before_iff (hpos _ (getElem_mem _))] at this
    simp only [counted, getElem_map]
    omega

theorem tryFromLevels_expand (hw : Windows p.runs) :
    tryFromLevels (expand 0 (counted p.runs)) = .ok p := by
  have hd : Distinct (counted p.runs) := isChain_map_of_isChain _ (fun _ _ hwin => hwin.2) hw
  have hlen : p.expandedLen ≤ 255 := by
    rw [expandedLen]
    cases hl : p.runs.getLast? with
    | none => simp
    | some r =>
      have := r.1.toNat_lt
      simp only [Option.map_some, Option.getD_some]
      omega
  rw [tryFromLevels, if_neg, rleCumulative_expand h hd]
  · simp [counted, comp_def]
  · rw [length_expand h, ← expandedLen_eq]
    omega

theorem exact_of_grows (hw : Windows p.runs) : p.Exact (expand 0 (counted p.runs)) where
  expanded := expandRle_of_grows h
  length := by rw [length_expand h, ← expandedLen_eq, Nat.sub_zero]
  get _ hi := get_eq h hi
  beyond _ hi := beyond_expandedLen hi
  recompressed := tryFromLevels_expand h hw

end

/-- **Accepted runs are exact unless the first ends at level 0.** -/
theorem exact_iff (h : tryFromRuns runs = .ok p) :
    (∃ levels, p.Exact levels) ↔ ¬ StartsAtZero runs := by
  obtain ⟨hw, rfl⟩ := tryFromRuns_eq_ok.mp h
  rw [← hw.grows_iff]
  constructor
  · rintro ⟨levels, hex⟩
    by_contra hn
    have := hex.expanded
    rw [expandedIter, expandRle_of_not_grows hn] at this
    cases this
  · intro hg
    exact ⟨_, exact_of_grows hg hw⟩

theorem grows_tryFromLevels {levels : List (List Hash)} (h : tryFromLevels levels = .ok p) :
    Grows 0 (counted p.runs) := by
  unfold tryFromLevels at h
  split at h
  · cases h
  · rename_i hlen
    cases h
    have hg := grows_rleCumulative levels
    have hback : counted ((rleCumulative levels).map fun r => (UInt8.ofNat r.1, r.2)) =
        rleCumulative levels := by
      rw [counted, map_map]
      refine (map_congr_left fun r hr => ?_).trans (map_id _)
      have hle := hg.mem_le hr
      rw [lastCount_rleCumulative] at hle
      simp only [comp_apply, UInt8.toNat_ofNat', id_eq]
      rw [Nat.mod_eq_of_lt (by omega)]
    rw [hback]
    exact hg

end CompressedParents

end Sahyadri.Core
