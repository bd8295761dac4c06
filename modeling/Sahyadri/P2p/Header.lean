import Sahyadri.Core.Header

/-!
# `protocol/p2p`: block headers as they come over the wire

* `WireHeader`: the message `BlockHeader`; every number may be anything its wire type holds.
-/

namespace Sahyadri.P2p

open Lib Core Smt CompressedParents Option Header H256

/-! ## 1. Messages -/

/-- The cases of `ConversionError` that the conversion of a header can return. -/
inductive ConversionError where
  | noneValue
  | arrayBytesSizeError
  | uintBytesSizeError
  | intCastingError
  | compressedParentsError (e : CompressedParentsError)
  deriving DecidableEq, Repr

/-- `BlockLevelParents`: the bytes of the hashes, and the cumulative level (0 in the legacy
    format). -/
structure BlockLevelParents where
  parentHashes : List Bytes
  cumulativeLevel : UInt32
  deriving DecidableEq, Repr

/-- The message `BlockHeader`. -/
structure WireHeader where
  version : UInt32
  parents : List BlockLevelParents
  hashMerkleRoot : Option Bytes
  acceptedIdMerkleRoot : Option Bytes
  accountCommitment : Option Bytes
  timestamp : Int64
  bits : UInt32
  nonce : UInt64
  daaScore : UInt64
  blueWork : Bytes
  pruningPoint : Option Bytes
  blueScore : UInt64
  deriving DecidableEq, Repr

inductive HeaderFormat where
  | legacy
  | compressed
  deriving DecidableEq, Repr

/-! ## 2. Conversion -/

def hashFromWire (bytes : Bytes) : Except ConversionError Hash :=
  if h : bytes.length = 32 then .ok ⟨bytes, h⟩ else .error .arrayBytesSizeError

/-- `try_into_ex` on an optional hash. -/
def optionalHash : Option Bytes → Except ConversionError Hash
  | some bytes => hashFromWire bytes
  | none => .error .noneValue

def levelFromWire (level : UInt32) : Except ConversionError UInt8 :=
  if level.toNat < 256 then .ok (UInt8.ofNat level.toNat) else .error .intCastingError

def versionFromWire (version : UInt32) : Except ConversionError UInt16 :=
  if version.toNat < 65536 then .ok (UInt16.ofNat version.toNat) else .error .intCastingError

def timestampFromWire (timestamp : Int64) : Except ConversionError UInt64 :=
  if 0 ≤ timestamp then .ok timestamp.toUInt64 else .error .intCastingError

def blueWorkFromWire (bytes : Bytes) : Except ConversionError BlueWorkType :=
  if bytes.length ≤ 24 then .ok (BitVec.ofNat 192 (ofLe bytes.reverse))
  else .error .uintBytesSizeError

def runFromWire (p : BlockLevelParents) : Except ConversionError (UInt8 × List Hash) := do
  let cum ← levelFromWire p.cumulativeLevel
  let parents ← p.parentHashes.mapM hashFromWire
  .ok (cum, parents)

/-- The parents by level, with the error as a `ConversionError`. -/
def parentsFromWire :
    HeaderFormat → List BlockLevelParents → Except ConversionError CompressedParents
  | .compressed, parents => do
      let runs ← parents.mapM runFromWire
      (tryFromRuns runs).mapError .compressedParentsError
  | .legacy, parents => do
      let levels ← parents.mapM fun p => p.parentHashes.mapM hashFromWire
      (tryFromLevels levels).mapError .compressedParentsError

/-- An error returned by a step that cannot panic. -/
def returned {α : Type} : Except ConversionError α → Run ConversionError α
  | .ok a => .ok a
  | .error e => .fail e

/-- `TryFrom<Versioned<protowire::BlockHeader>> for Header`. -/
def headerFromWire (blockHash : Bytes → Hash) (format : HeaderFormat) (item : WireHeader) :
    Run ConversionError Header := do
  let parentsByLevel ← returned (parentsFromWire format item.parents)
  let version ← returned (versionFromWire item.version)
  let hashMerkleRoot ← returned (optionalHash item.hashMerkleRoot)
  let acceptedIdMerkleRoot ← returned (optionalHash item.acceptedIdMerkleRoot)
  let accountCommitment ← returned (optionalHash item.accountCommitment)
  let timestamp ← returned (timestampFromWire item.timestamp)
  let blueWork ← returned (blueWorkFromWire item.blueWork)
  let pruningPoint ← returned (optionalHash item.pruningPoint)
  newFinalized blockHash version parentsByLevel hashMerkleRoot acceptedIdMerkleRoot
    accountCommitment timestamp item.bits item.nonce item.daaScore blueWork item.blueScore
    pruningPoint

/-! ## 3. What converts -/

theorem returned_bind_panics {α β : Type} {x : Except ConversionError α}
    {f : α → Run ConversionError β} :
    (returned x >>= f) = .panicked ↔ ∃ a, x = .ok a ∧ f a = .panicked := by
  cases x with
  | error e => simp [returned]
  | ok a => simp [returned]

theorem mapM_eq_ok {α β ε : Type} {f : α → Except ε β} {g : β → α}
    (hf : ∀ {a b}, f a = .ok b ↔ a = g b) {l : List α}
    {r : List β} : l.mapM f = .ok r ↔ l = r.map g := by
  induction l generalizing r with
  | nil => cases r <;> simp [pure, Except.pure]
  | cons a l ih =>
    rw [List.mapM_cons]
    cases r with
    | nil => cases f a <;> cases l.mapM f <;> simp [bind, Except.bind, pure, Except.pure]
    | cons b r =>
      rw [List.map_cons, List.cons.injEq, ← hf, ← ih]
      cases f a <;> cases l.mapM f <;> simp [bind, Except.bind, pure, Except.pure]

def HashGiven (h : Option Bytes) : Prop := ∃ bytes ∈ h, bytes.length = 32

/-- Every part of a compressed message converts, and each run has a higher level and other hashes
    than the one before. -/
structure Convertible (item : WireHeader) : Prop where
  levels : ∀ p ∈ item.parents, p.cumulativeLevel.toNat < 256
  hashes : ∀ p ∈ item.parents, ∀ h ∈ p.parentHashes, h.length = 32
  windows : item.parents.IsChain fun last run =>
    last.cumulativeLevel < run.cumulativeLevel ∧ last.parentHashes ≠ run.parentHashes
  version : item.version.toNat < 65536
  hashMerkleRoot : HashGiven item.hashMerkleRoot
  acceptedIdMerkleRoot : HashGiven item.acceptedIdMerkleRoot
  accountCommitment : HashGiven item.accountCommitment
  timestamp : 0 ≤ item.timestamp
  blueWork : item.blueWork.length ≤ 24
  pruningPoint : HashGiven item.pruningPoint

/-- The first run of the message ends at level 0. -/
def OpensAtZero (item : WireHeader) : Prop := ∃ p ∈ item.parents.head?, p.cumulativeLevel = 0

theorem hashFromWire_eq_ok {bytes : Bytes} {h : Hash} :
    hashFromWire bytes = .ok h ↔ bytes = h.bytes := by
  unfold hashFromWire
  split
  · rename_i hl
    rw [Except.ok.injEq]
    exact ⟨fun he => by rw [← he], fun he => ext he⟩
  · rename_i hl
    simp only [reduceCtorEq, false_iff]
    rintro rfl
    exact hl h.length_eq

theorem exists_optionalHash {h : Option Bytes} : (∃ a, optionalHash h = .ok a) ↔ HashGiven h := by
  cases h with
  | none => simp [optionalHash, HashGiven]
  | some bytes =>
    simp only [optionalHash, hashFromWire_eq_ok, HashGiven, mem_def, some.injEq, exists_eq_left']
    exact ⟨fun ⟨a, ha⟩ => ha.symm ▸ a.length_eq, fun hl => ⟨⟨bytes, hl⟩, rfl⟩⟩

def wireRun (r : UInt8 × List Hash) : BlockLevelParents := ⟨r.2.map bytes, r.1.toUInt32⟩

theorem levelFromWire_eq_ok {level : UInt32} {cum : UInt8} :
    levelFromWire level = .ok cum ↔ level = cum.toUInt32 := by
  have hc := cum.toNat_lt
  unfold levelFromWire
  split
  · rename_i hl
    rw [Except.ok.injEq, ← UInt8.toNat_inj, ← UInt32.toNat_inj, UInt8.toNat_ofNat',
      UInt8.toNat_toUInt32]
    omega
  · rename_i hl
    simp only [reduceCtorEq, false_iff]
    rintro rfl
    rw [UInt8.toNat_toUInt32] at hl
    omega

variable {r s : UInt8 × List Hash}

theorem runFromWire_eq_ok {p : BlockLevelParents} : runFromWire p = .ok r ↔ p = wireRun r := by
  obtain ⟨hashes, level⟩ := p
  obtain ⟨cum, parents⟩ := r
  simp only [runFromWire, wireRun, BlockLevelParents.mk.injEq, ← levelFromWire_eq_ok,
    ← mapM_eq_ok hashFromWire_eq_ok]
  cases levelFromWire level with
  | error e => simp [bind, Except.bind]
  | ok c =>
    cases hashes.mapM hashFromWire with
    | error e => simp [bind, Except.bind]
    | ok hs => simp [bind, Except.bind, and_comm]

variable {ps : List BlockLevelParents} {p : CompressedParents}

theorem exists_wireRun : (∃ runs : List (UInt8 × List Hash), ps = runs.map wireRun) ↔
      (∀ p ∈ ps, p.cumulativeLevel.toNat < 256) ∧
      ∀ p ∈ ps, ∀ h ∈ p.parentHashes, h.length = 32 := by
  constructor
  · rintro ⟨runs, rfl⟩
    simp only [List.mem_map]
    constructor
    · rintro p ⟨r, -, rfl⟩
      have := r.1.toNat_lt
      rw [wireRun, UInt8.toNat_toUInt32]
      omega
    · rintro p ⟨r, -, rfl⟩ h hh
      obtain ⟨a, -, rfl⟩ := List.mem_map.mp hh
      exact a.length_eq
  · rintro ⟨hlevels, hhashes⟩
    induction ps with
    | nil => exact ⟨[], rfl⟩
    | cons p ps ih =>
      obtain ⟨runs, rfl⟩ := ih (fun q hq => hlevels q (List.mem_cons_of_mem _ hq))
        fun q hq => hhashes q (List.mem_cons_of_mem _ hq)
      have hlevel := hlevels p List.mem_cons_self
      refine ⟨(UInt8.ofNat p.cumulativeLevel.toNat,
        p.parentHashes.attach.map fun h => ⟨h.1, hhashes p List.mem_cons_self h.1 h.2⟩) :: runs, ?_⟩
      obtain ⟨hashes, level⟩ := p
      congr 2
      · simp only [List.map_map, Function.comp_def, List.attach_map_subtype_val]
      · apply UInt32.toNat_inj.mp
        rw [UInt8.toNat_toUInt32, UInt8.toNat_ofNat', Nat.mod_eq_of_lt hlevel]

theorem wireRun_follows : (wireRun r).cumulativeLevel < (wireRun s).cumulativeLevel ∧
      (wireRun r).parentHashes ≠ (wireRun s).parentHashes ↔ r.1 < s.1 ∧ r.2 ≠ s.2 := by
  have hinj : Function.Injective (List.map bytes) := List.map_injective_iff.mpr fun _ _ h => ext h
  simp only [wireRun, UInt32.lt_iff_toNat_lt, UInt8.lt_iff_toNat_lt, UInt8.toNat_toUInt32, ne_eq,
    hinj.eq_iff]

/-- The parents of a compressed message that convert but cannot be expanded. -/
theorem parentsFromWire_compressed {item : WireHeader} :
    (∃ p, parentsFromWire .compressed item.parents = .ok p ∧ ¬ Grows 0 (counted p.runs)) ↔
    (∀ p ∈ item.parents, p.cumulativeLevel.toNat < 256) ∧
    (∀ p ∈ item.parents, ∀ h ∈ p.parentHashes, h.length = 32) ∧
      item.parents.IsChain (fun last run =>
        last.cumulativeLevel < run.cumulativeLevel ∧ last.parentHashes ≠ run.parentHashes) ∧
          OpensAtZero item := by
  have hopens : ∀ runs, item.parents = runs.map wireRun →
      (OpensAtZero item ↔ StartsAtZero runs) := by
    intro runs hr
    rw [OpensAtZero, StartsAtZero, hr, List.head?_map]
    cases runs.head? with
    | none => simp
    | some r =>
      simp only [map_some, mem_def, some.injEq, exists_eq_left', wireRun,
        ← UInt32.toNat_inj, ← UInt8.toNat_inj, UInt8.toNat_toUInt32]
      rfl
  rw [← and_assoc, ← exists_wireRun]
  constructor
  · rintro ⟨p, hp, hg⟩
    rw [parentsFromWire] at hp
    cases hm : item.parents.mapM runFromWire with
    | error e => rw [hm] at hp; cases hp
    | ok runs =>
      rw [hm] at hp
      cases ht : tryFromRuns runs with
      | error e => simp [bind, Except.bind, ht, Except.mapError] at hp
      | ok q =>
        simp only [bind, Except.bind, ht, Except.mapError, Except.ok.injEq] at hp
        subst hp
        obtain ⟨hw, rfl⟩ := tryFromRuns_eq_ok.mp ht
        have hr := (mapM_eq_ok runFromWire_eq_ok).mp hm
        refine ⟨⟨runs, hr⟩, ?_, ?_⟩
        · rw [hr, List.isChain_map]
          exact hw.imp fun _ _ => wireRun_follows.mpr
        · rw [hw.grows_iff, not_not] at hg
          exact (hopens runs hr).mpr hg
  · rintro ⟨⟨runs, hr⟩, hchain, hzero⟩
    rw [hr, List.isChain_map] at hchain
    have hw : Windows runs := hchain.imp fun _ _ => wireRun_follows.mp
    refine ⟨⟨runs⟩, ?_, ?_⟩
    · rw [parentsFromWire, (mapM_eq_ok runFromWire_eq_ok).mpr hr]
      simp only [bind, Except.bind, tryFromRuns_eq_ok.mpr ⟨hw, rfl⟩, Except.mapError]
    · rw [hw.grows_iff, not_not]
      exact (hopens runs hr).mp hzero

theorem parentsFromWire_legacy (h : parentsFromWire .legacy ps = .ok p) :
    Grows 0 (counted p.runs) := by
  rw [parentsFromWire] at h
  cases hm : ps.mapM fun p => p.parentHashes.mapM hashFromWire with
  | error e => rw [hm] at h; cases h
  | ok levels =>
    rw [hm] at h
    cases ht : tryFromLevels levels with
    | error e => simp [bind, Except.bind, ht, Except.mapError] at h
    | ok q =>
      simp only [bind, Except.bind, ht, Except.mapError, Except.ok.injEq] at h
      subst h
      exact grows_tryFromLevels ht

/-! ## 4. Panics -/

section

variable (blockHash : Bytes → Hash) {item : WireHeader}

/-- The conversion panics when every field converts and the parents cannot be expanded. -/
theorem headerFromWire_panics {format : HeaderFormat} :
    headerFromWire blockHash format item = .panicked ↔
    (∃ p, parentsFromWire format item.parents = .ok p ∧
        ¬ Grows 0 (counted p.runs)) ∧ item.version.toNat < 65536 ∧ HashGiven item.hashMerkleRoot ∧
      HashGiven item.acceptedIdMerkleRoot ∧ HashGiven item.accountCommitment ∧
      0 ≤ item.timestamp ∧ item.blueWork.length ≤ 24 ∧ HashGiven item.pruningPoint := by
  have hversion : (∃ v, versionFromWire item.version = .ok v) ↔ item.version.toNat < 65536 := by
    unfold versionFromWire
    split <;> simp [*]
  have htimestamp : (∃ t, timestampFromWire item.timestamp = .ok t) ↔ 0 ≤ item.timestamp := by
    unfold timestampFromWire
    split <;> simp [*]
  have hwork : (∃ w, blueWorkFromWire item.blueWork = .ok w) ↔ item.blueWork.length ≤ 24 := by
    unfold blueWorkFromWire
    split <;> simp [*]
  simp only [headerFromWire, returned_bind_panics, newFinalized_panics,
    ← exists_optionalHash, ← hversion, ← htimestamp, ← hwork]
  constructor
  · rintro ⟨p, hp, v, hv, r₁, h₁, r₂, h₂, r₃, h₃, t, ht, w, hw, r₄, h₄, hg⟩
    exact ⟨⟨p, hp, hg⟩, ⟨v, hv⟩, ⟨r₁, h₁⟩, ⟨r₂, h₂⟩, ⟨r₃, h₃⟩, ⟨t, ht⟩, ⟨w, hw⟩, ⟨r₄, h₄⟩⟩
  · rintro ⟨⟨p, hp, hg⟩, ⟨v, hv⟩, ⟨r₁, h₁⟩, ⟨r₂, h₂⟩, ⟨r₃, h₃⟩, ⟨t, ht⟩, ⟨w, hw⟩, ⟨r₄, h₄⟩⟩
    exact ⟨p, hp, v, hv, r₁, h₁, r₂, h₂, r₃, h₃, t, ht, w, hw, r₄, h₄, hg⟩

theorem headerFromWire_legacy (item : WireHeader) :
    headerFromWire blockHash .legacy item ≠ .panicked := by
  rw [ne_eq, headerFromWire_panics]
  rintro ⟨⟨p, hp, hg⟩, -⟩
  exact hg (parentsFromWire_legacy hp)

theorem headerFromWire_compressed : headerFromWire blockHash .compressed item = .panicked ↔
      OpensAtZero item ∧ Convertible item := by
  rw [headerFromWire_panics, parentsFromWire_compressed]
  constructor
  · rintro ⟨⟨hl, hh, hw, hz⟩, hv, h₁, h₂, h₃, ht, hb, h₄⟩
    exact ⟨hz, hl, hh, hw, hv, h₁, h₂, h₃, ht, hb, h₄⟩
  · rintro ⟨hz, hl, hh, hw, hv, h₁, h₂, h₃, ht, hb, h₄⟩
    exact ⟨⟨hl, hh, hw, hz⟩, hv, h₁, h₂, h₃, ht, hb, h₄⟩

/-- **When a header message is harmless.** Converting it does not panic exactly when the format is
    the legacy one, its first run does not end at level 0, or some part does not convert; accepted
    runs are exact in the second case only. -/
theorem header_messages_harmless_iff :
    (∀ format item, headerFromWire blockHash format item ≠ .panicked ↔
      (format = .compressed → OpensAtZero item → ¬ Convertible item)) ∧
        (∀ runs p, tryFromRuns runs = .ok p →
      ((∃ levels, p.Exact levels) ↔ ¬ StartsAtZero runs)) := by
  refine ⟨fun format item => ?_, fun runs p h => exact_iff h⟩
  cases format with
  | legacy => simp [headerFromWire_legacy]
  | compressed => simp [headerFromWire_compressed]

end

def emptyRunMessage : WireHeader :=
  { version := 1, parents := [⟨[], 0⟩], hashMerkleRoot := some (List.replicate 32 0),
    acceptedIdMerkleRoot := some (List.replicate 32 0),
    accountCommitment := some (List.replicate 32 0), timestamp := 0, bits := 0, nonce := 0,
    daaScore := 0, blueWork := [], pruningPoint := some (List.replicate 32 0), blueScore := 0 }

def twoRuns : List (UInt8 × List Hash) := [(1, [Hash.default]), (3, [])]

theorem header_messages_harmless_at :
    (headerFromWire polyHash .legacy emptyRunMessage ≠ .panicked) ∧
    ∃ levels, Exact ⟨twoRuns⟩ levels :=
  ⟨((header_messages_harmless_iff polyHash).1 .legacy emptyRunMessage).mpr nofun,
    ((header_messages_harmless_iff polyHash).2 twoRuns ⟨twoRuns⟩ rfl).mpr (by decide)⟩

/-- One run that ends at level 0: the conversion panics, and the accepted runs cannot be
    expanded. -/
theorem empty_run_panics : headerFromWire polyHash .compressed emptyRunMessage = .panicked ∧
      tryFromRuns [(0, [])] = .ok ⟨[(0, [])]⟩ ∧
      ((⟨[(0, [])]⟩ : CompressedParents).expandedIter : Run Empty _) = .panicked := ⟨rfl, rfl, rfl⟩

/-! ## 5. The way out and back -/

/-- The parents as they are sent; a level of the legacy format has no count. -/
def parentsToWire : HeaderFormat → CompressedParents → Run Empty (List BlockLevelParents)
  | .compressed, parents => .ok (parents.runs.map wireRun)
  | .legacy, parents => do
      let levels ← parents.expandedIter
      .ok (levels.map fun level => ⟨level.map bytes, 0⟩)

/-- `From<(HeaderFormat, &Header)> for protowire::BlockHeader`. -/
def headerToWire (format : HeaderFormat) (item : Header) : Run Empty WireHeader := do
  let parents ← parentsToWire format item.parentsByLevel
  -- `expect`: the timestamp has to fit an `i64`
  if 2 ^ 63 ≤ item.timestamp.toNat then .panicked
  else return {
      version := item.version.toUInt32, parents, hashMerkleRoot := some item.hashMerkleRoot.bytes,
      acceptedIdMerkleRoot := some item.acceptedIdMerkleRoot.bytes,
      accountCommitment := some item.accountCommitment.bytes, timestamp := item.timestamp.toInt64,
      bits := item.bits, nonce := item.nonce, daaScore := item.daaScore,
      blueWork := item.blueWork.toBeBytes.dropWhile (· = 0), blueScore := item.blueScore,
      pruningPoint := some item.pruningPoint.bytes }

theorem ofLe_dropWhile (l : Bytes) : ofLe (l.dropWhile (· = 0)).reverse = ofLe l.reverse := by
  have happend : ∀ l : Bytes, ofLe (l ++ [0]) = ofLe l := fun l => by
    induction l with
    | nil => rfl
    | cons a l ih => simp only [List.cons_append, ofLe, ih]
  induction l with
  | nil => rfl
  | cons a l ih =>
    by_cases ha : a = 0
    · subst ha
      rw [List.dropWhile_cons_of_pos (by decide), ih, List.reverse_cons, happend]
    · rw [List.dropWhile_cons_of_neg (by simpa using ha)]

theorem blueWorkFromWire_toBeBytes (work : BlueWorkType) :
    blueWorkFromWire (work.toBeBytes.dropWhile (· = 0)) = .ok work := by
  have hlen : (work.toBeBytes.dropWhile (· = 0)).length ≤ 24 :=
    (List.dropWhile_sublist _).length_le.trans (by simp [BlueWorkType.toBeBytes])
  rw [blueWorkFromWire, if_pos hlen, ofLe_dropWhile, BlueWorkType.toBeBytes, List.reverse_reverse,
    ofLe_leBytes_of_lt (by have := work.isLt; omega), BitVec.ofNat_toNat, BitVec.setWidth_eq]

theorem versionFromWire_toUInt32 (version : UInt16) :
    versionFromWire version.toUInt32 = .ok version := by
  rw [versionFromWire, UInt16.toNat_toUInt32, if_pos version.toNat_lt, UInt16.ofNat_toNat]

theorem timestampFromWire_toInt64 {t : UInt64} (ht : t.toNat < 2 ^ 63) :
    timestampFromWire t.toInt64 = .ok t := by
  refine if_pos (Int64.le_iff_toInt_le.mpr ?_)
  change 0 ≤ t.toBitVec.toInt
  rw [BitVec.toInt_eq_toNat_cond, UInt64.toNat_toBitVec]
  split <;> omega

theorem parentsFromWire_parentsToWire (hw : Windows p.runs) (hg : Grows 0 (counted p.runs))
    (format : HeaderFormat) :
    ∃ ps, parentsToWire format p = .ok ps ∧ parentsFromWire format ps = .ok p := by
  cases format with
  | legacy =>
    refine ⟨_, by rw [parentsToWire, expandedIter, expandRle_of_grows hg]; rfl, ?_⟩
    refine except_bind_eq_ok.mpr ⟨_, ?_, by rw [tryFromLevels_expand hg hw]; rfl⟩
    simp only [List.mapM_map, Function.comp_def, (mapM_eq_ok hashFromWire_eq_ok).mpr rfl]
    exact List.mapM_pure.trans (congrArg _ (List.map_id _))
  | compressed =>
    refine ⟨_, rfl, except_bind_eq_ok.mpr ⟨_, (mapM_eq_ok runFromWire_eq_ok).mpr rfl, ?_⟩⟩
    rw [tryFromRuns_eq_ok.mpr ⟨hw, rfl⟩]
    rfl

/-- **Headers come back.** A header with checked runs and its own hash can be sent exactly if its
    time is less than `2 ^ 63`, and is read back unchanged. -/
theorem header_wire_round_trip {blockHash : Bytes → Hash} {h : Header}
    (hw : Windows h.parentsByLevel.runs) (hhash : h.hashOverrideNonceTime
      blockHash h.nonce h.timestamp = (.ok h.hash : Run ConversionError Hash))
    (format : HeaderFormat) : (headerToWire format h = .panicked ↔ 2 ^ 63 ≤ h.timestamp.toNat) ∧
      ∀ sent, headerToWire format h = .ok sent → headerFromWire blockHash format sent = .ok h := by
  have hg : Grows 0 (counted h.parentsByLevel.runs) := by
    by_contra hn
    rw [hashOverrideNonceTime, expandedIter, expandRle_of_not_grows hn] at hhash
    cases hhash
  obtain ⟨ps, hto, hfrom⟩ := parentsFromWire_parentsToWire hw hg format
  rw [headerToWire, hto, Run.ok_bind]
  split
  · rename_i ht
    exact ⟨iff_of_true rfl ht, by rintro _ ⟨⟩⟩
  · rename_i ht
    refine ⟨iff_of_false (by rintro ⟨⟩) ht, ?_⟩
    rintro _ ⟨⟩
    have hbytes : ∀ r : Hash, hashFromWire r.bytes = .ok r := fun _ => hashFromWire_eq_ok.mpr rfl
    simp only [headerFromWire, hfrom, versionFromWire_toUInt32, optionalHash, hbytes, returned,
      Run.ok_bind, timestampFromWire_toInt64 (Nat.not_le.mp ht), blueWorkFromWire_toBeBytes]
    exact Run.bind_eq_ok.mpr ⟨_, hhash, rfl⟩

theorem two_run_header_returns : ∃ h : Header, h.parentsByLevel = ⟨twoRuns⟩ ∧ ∀ format sent,
    headerToWire format h = .ok sent → headerFromWire polyHash format sent = .ok h := by
  obtain ⟨hash, hhash⟩ :
      ∃ hash, hashOverrideNonceTime polyHash ⟨.default, 1, ⟨twoRuns⟩, .default, .default,
    .default, 5, 0, 0, 0, 256, 7, .default⟩ 0 5 = (.ok hash : Run ConversionError Hash) := ⟨_, rfl⟩
  exact ⟨⟨hash, 1, ⟨twoRuns⟩, .default, .default, .default, 5, 0, 0, 0, 256, 7, .default⟩, rfl,
    fun format => (header_wire_round_trip (checkWindows_eq_ok.mp rfl) hhash format).2⟩

end Sahyadri.P2p
