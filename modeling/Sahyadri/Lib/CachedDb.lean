import Sahyadri.Lib.Table
import Mathlib.Data.Finset.Card

/-!
# A database behind a bounded cache, with writes collected in a batch

A read asks the cache and then the database, and fills the cache. A write goes to the cache and to
the batch, and reaches the database when the batch is written. A full cache evicts an entry at
random before it takes another one. Reads do not look into the batch, so an entry that is evicted
before its batch is written is read as it was before.

* `latest`: what the database will hold for a key once the batch is written.
-/

namespace Sahyadri.Lib

open List AList Function

/-! ## 1. The calls -/

/-- A database with its cache. `batch` are the writes not yet in it, newest first; `drawn` of the
    random numbers `draw` have been used. -/
structure CachedDb (κ ν : Type) where
  maxSize : Nat
  draw : Nat → Nat
  drawn : Nat
  cache : Table κ ν
  batch : List (κ × ν)
  db : Table κ ν

namespace CachedDb

variable {κ ν : Type}

def new (maxSize : Nat) (draw : Nat → Nat) : CachedDb κ ν := ⟨maxSize, draw, 0, ∅, [], ∅⟩

variable [DecidableEq κ] (s : CachedDb κ ν)

/-- Drop the entry that the next random number points to. -/
def evict : CachedDb κ ν :=
  let cache := match s.cache.entries[s.draw s.drawn % s.maxSize]? with
    | some e => s.cache.erase e.1
    | none => s.cache
  { s with cache := cache, drawn := s.drawn + 1 }

variable (k : κ)

/-- Put an entry into the cache. A full cache evicts, also when it has the key already. -/
def cacheInsert (v : ν) : CachedDb κ ν :=
  if s.maxSize = 0 then s
  else
    let s := if s.cache.entries.length = s.maxSize then s.evict else s
    { s with cache := s.cache.insert k v }

/-- The value for a key, and the state with the cache filled. -/
def read : Option ν × CachedDb κ ν :=
  match s.cache.lookup k with
  | some v => (some v, s)
  | none =>
    match s.db.lookup k with
    | some v => (some v, s.cacheInsert k v)
    | none => (none, s)

def write (v : ν) : CachedDb κ ν :=
  let s := s.cacheInsert k v
  { s with batch := (k, v) :: s.batch }

def flush : CachedDb κ ν :=
  { s with batch := [], db := s.batch.foldr (fun e t => t.insert e.1 e.2) s.db }

/-- What the database will hold for a key. -/
def latest : Option ν := (s.batch.lookup k).or (s.db.lookup k)

theorem latest_flush : s.flush.latest k = s.latest k := by
  unfold flush latest
  induction s.batch with
  | nil => rfl
  | cons e es ih =>
    rw [foldr_cons, lookup_cons]
    by_cases h : k = e.1
    · subst h
      rw [lookup_insert, beq_self_eq_true]
      rfl
    · rw [lookup_insert_ne h, ih, beq_eq_false_iff_ne.mpr h]

/-! ## 2. Nothing stale -/

/-- What the cache holds is the latest, and every pending write is among it. -/
structure Current (s : CachedDb κ ν) : Prop where
  cached : ∀ {k v}, s.cache.lookup k = some v → s.latest k = some v
  pending : ∀ e ∈ s.batch, e.1 ∈ s.cache

section Current

variable {s : CachedDb κ ν}

theorem Current.latest_eq (h : Current s) {k : κ} (hc : s.cache.lookup k = none) :
    s.latest k = s.db.lookup k := by
  have hbatch : s.batch.lookup k = none := by
    rw [lookup_eq_none_iff]
    intro e he
    rw [bne_iff_ne]
    rintro rfl
    exact lookup_eq_none.mp hc (h.pending e he)
  rw [latest, hbatch, Option.none_or]

theorem Current.read_eq (h : Current s) (k : κ) : (s.read k).1 = s.latest k := by
  unfold CachedDb.read
  cases hc : s.cache.lookup k with
  | some v => exact (h.cached hc).symm
  | none =>
    rw [h.latest_eq hc]
    cases hd : s.db.lookup k with
    | none => rfl
    | some v => rfl

end Current

variable {s : CachedDb κ ν} {k : κ}

theorem read_of_cached {v : ν} (h : s.cache.lookup k = some v) : s.read k = (some v, s) := by
  rw [read, h]

theorem read_of_missing (hc : s.cache.lookup k = none) (hd : s.db.lookup k = none) :
    s.read k = (none, s) := by
  rw [read, hc, hd]

theorem cacheInsert_of_lt (h : s.cache.entries.length < s.maxSize) (k : κ) (v : ν) :
    s.cacheInsert k v = { s with cache := s.cache.insert k v } := by
  rw [cacheInsert, if_neg (by omega), if_neg (by omega)]

section

variable (s : CachedDb κ ν) (k : κ)

theorem cacheInsert_frame (v : ν) : (s.cacheInsert k v).maxSize = s.maxSize ∧
      (s.cacheInsert k v).batch = s.batch ∧ (s.cacheInsert k v).db = s.db := by
  unfold cacheInsert
  split
  · exact ⟨rfl, rfl, rfl⟩
  · split <;> exact ⟨rfl, rfl, rfl⟩

theorem latest_cacheInsert (v : ν) : (s.cacheInsert k v).latest = s.latest := by
  obtain ⟨-, hbatch, hdb⟩ := s.cacheInsert_frame k v
  funext q
  rw [latest, latest, hbatch, hdb]

theorem latest_read : (s.read k).2.latest = s.latest := by
  unfold CachedDb.read
  cases s.cache.lookup k with
  | some v => rfl
  | none =>
    cases s.db.lookup k with
    | none => rfl
    | some v => exact s.latest_cacheInsert k v

theorem latest_write (v : ν) :
    (s.write k v).latest = update s.latest k (some v) := by
  have hbatch : (s.write k v).latest = fun q =>
      (((k, v) :: (s.cacheInsert k v).batch).lookup q).or ((s.cacheInsert k v).db.lookup q) := rfl
  rw [hbatch]
  funext q
  rw [lookup_cons]
  by_cases hq : q = k
  · subst hq
    rw [beq_self_eq_true, update_self]
    rfl
  · rw [beq_eq_false_iff_ne.mpr hq, update_of_ne hq]
    exact congrFun (s.latest_cacheInsert k v) q

end

/-! ## 3. While the keys fit -/

/-- The cache has room for the keys `K` and no others; it holds the latest values, and every pending
    write. -/
structure Fits (K : Finset κ) (s : CachedDb κ ν) : Prop where
  room : K.card < s.maxSize
  keys : ∀ k ∈ s.cache, k ∈ K
  cached : ∀ {k v}, s.cache.lookup k = some v → s.latest k = some v
  pending : ∀ e ∈ s.batch, e.1 ∈ s.cache

section Fits

variable {K : Finset κ} {s : CachedDb κ ν}

theorem fits_new {maxSize : Nat} (h : K.card < maxSize) (draw : Nat → Nat) :
    Fits K (new maxSize draw : CachedDb κ ν) where
  room := h
  keys k hk := absurd hk (notMem_empty k)
  cached {k v} hv := by cases hv
  pending _ he := absurd he not_mem_nil

section

variable (h : Fits K s) {k : κ}

include h

theorem Fits.size_lt : s.cache.entries.length < s.maxSize := by
  have hsub : s.cache.keys.toFinset ⊆ K := fun k hk => h.keys k (mem_toFinset.mp hk)
  have hcard : s.cache.keys.toFinset.card = s.cache.entries.length := by
    rw [toFinset_card_of_nodup s.cache.keys_nodup, AList.keys, List.keys, length_map]
  have := Finset.card_le_card hsub
  have := h.room
  omega

theorem Fits.cacheInsert_eq (k : κ) (v : ν) :
    s.cacheInsert k v = { s with cache := s.cache.insert k v } := cacheInsert_of_lt h.size_lt k v

theorem Fits.insert (hk : k ∈ K) {v : ν} {t : CachedDb κ ν} (hsize : t.maxSize = s.maxSize)
    (hcache : t.cache = s.cache.insert k v) (hlatest : t.latest = update s.latest k (some v))
    (hbatch : ∀ e ∈ t.batch, e.1 = k ∨ e ∈ s.batch) : Fits K t where
  room := hsize ▸ h.room
  keys q hq := by
    rw [hcache] at hq
    rcases (mem_insert _).mp hq with rfl | hq
    · exact hk
    · exact h.keys q hq
  cached {q w} hw := by
    rw [hcache] at hw
    rw [hlatest]
    by_cases hq : q = k
    · subst hq
      rw [lookup_insert] at hw
      rw [update_self, hw]
    · rw [lookup_insert_ne hq] at hw
      rw [update_of_ne hq]
      exact h.cached hw
  pending e he := by
    rw [hcache]
    exact (mem_insert _).mpr ((hbatch e he).imp_right (h.pending e))

theorem Fits.current : Current s := ⟨h.cached, h.pending⟩

/-- **A read answers with the latest value**, also for a key outside `K`. -/
theorem Fits.read_eq (k : κ) : (s.read k).1 = s.latest k := h.current.read_eq k

/-- A read of a key of `K` leaves every value where it was. -/
theorem Fits.read (hk : k ∈ K) : Fits K (s.read k).2 ∧ (s.read k).2.latest = s.latest := by
  unfold CachedDb.read
  cases hc : s.cache.lookup k with
  | some v => exact ⟨h, rfl⟩
  | none =>
    cases hd : s.db.lookup k with
    | none => exact ⟨h, rfl⟩
    | some v =>
      dsimp only
      rw [h.cacheInsert_eq]
      have hself : s.latest = update s.latest k (some v) :=
        (update_eq_self_iff.mpr ((h.current.latest_eq hc).trans hd).symm).symm
      exact ⟨h.insert hk rfl rfl hself fun e he => .inr he, rfl⟩

/-- **A write is the latest value from then on.** -/
theorem Fits.write (hk : k ∈ K) (v : ν) :
    Fits K (s.write k v) ∧ (s.write k v).latest = update s.latest k (some v) := by
  have hwrite : s.write k v =
      { s with cache := s.cache.insert k v, batch := (k, v) :: s.batch } := by
    rw [CachedDb.write, h.cacheInsert_eq]
  have hlatest := s.latest_write k v
  refine ⟨h.insert hk (by rw [hwrite]) (by rw [hwrite]) hlatest fun e he => ?_, hlatest⟩
  rw [hwrite] at he
  exact (mem_cons.mp he).imp_left fun he => congrArg Prod.fst he

theorem Fits.flush : Fits K s.flush where
  room := h.room
  keys := h.keys
  cached hv := (latest_flush s _).trans (h.cached hv)
  pending _ he := absurd he not_mem_nil

end

end Fits

/-! ## 4. One key in a cache of one entry -/

/-- The cache has one place, and only the key `k` is used: what it evicts, it holds again at
    once. -/
structure Alone (k : κ) (s : CachedDb κ ν) : Prop where
  size : s.maxSize = 1
  keys : ∀ q ∈ s.cache, q = k
  current : Current s

section Alone

variable {k : κ} {s : CachedDb κ ν}

variable (h : Alone k s)

include h

theorem Alone.cache_cacheInsert (v : ν) :
    (∀ q ∈ (s.cacheInsert k v).cache, q = k) ∧ (s.cacheInsert k v).cache.lookup k = some v := by
  rw [cacheInsert, if_neg (by rw [h.size]; decide)]
  refine ⟨fun q hq => ?_, lookup_insert _⟩
  rcases (mem_insert _).mp hq with hq | hq
  · exact hq
  · split at hq
    · rw [evict] at hq
      split at hq
      · exact h.keys q (mem_erase.mp hq).2
      · exact h.keys q hq
    · exact h.keys q hq

theorem Alone.insert {v : ν} {t : CachedDb κ ν} (hsize : t.maxSize = (s.cacheInsert k v).maxSize)
    (hcache : t.cache = (s.cacheInsert k v).cache) (hlatest : t.latest k = some v)
    (hbatch : ∀ e ∈ t.batch, e.1 = k) : Alone k t := by
  obtain ⟨hkeys, hlookup⟩ := h.cache_cacheInsert v
  rw [← hcache] at hkeys hlookup
  refine ⟨hsize.trans ((s.cacheInsert_frame k v).1.trans h.size), hkeys, fun {q w} hw => ?_,
    fun e he => ?_⟩
  · have hq : q = k := hkeys q (lookup_isSome.mp (by rw [hw]; rfl))
    subst hq
    rw [hlatest, ← hlookup, hw]
  · rw [hbatch e he, ← lookup_isSome, hlookup]
    rfl

theorem Alone.pending (e : κ × ν) (he : e ∈ s.batch) : e.1 = k := h.keys _ (h.current.pending e he)

theorem Alone.read : Alone k (s.read k).2 := by
  unfold CachedDb.read
  cases hc : s.cache.lookup k with
  | some v => exact h
  | none =>
    cases hd : s.db.lookup k with
    | none => exact h
    | some v =>
      refine h.insert rfl rfl ?_ fun e he => h.pending e ?_
      · rw [latest_cacheInsert, h.current.latest_eq hc, hd]
      · rwa [(s.cacheInsert_frame k v).2.1] at he

theorem Alone.write (v : ν) : Alone k (s.write k v) := by
  refine h.insert rfl rfl ?_ fun e he => ?_
  · rw [latest_write, update_self]
  · rcases mem_cons.mp he with rfl | he
    · rfl
    · rw [(s.cacheInsert_frame k v).2.1] at he
      exact h.pending e he

end Alone

/-! ## 5. A full cache -/

section Full

variable {s : CachedDb κ ν}

/-- A full cache that draws its first entry gives that entry up for the new one. -/
theorem cache_cacheInsert_of_full {a : κ} {w : ν} {es : List (Sigma fun _ : κ => ν)}
    (hentries : s.cache.entries = ⟨a, w⟩ :: es) (hsize : s.maxSize = es.length + 1)
    (hdraw : s.draw s.drawn % s.maxSize = 0) (k : κ) (v : ν) :
    (s.cacheInsert k v).cache = (s.cache.erase a).insert k v := by
  have hfull : s.cache.entries.length = s.maxSize := by rw [hentries, hsize, length_cons]
  rw [cacheInsert, if_neg (by omega), if_pos hfull]
  simp only [evict, hdraw, hentries, getElem?_cons_zero]

/-- **The last place of the cache**: its key is given up for the next one, and is read as the
    database has it. -/
theorem read_of_last_place {a b : κ} (hab : a ≠ b) (hroom : s.maxSize = s.cache.entries.length + 1)
    (ha : a ∉ s.cache) (hdraw : s.draw s.drawn % s.maxSize = 0) (v w : ν) :
    (((s.write a v).write b w).read a).1 = s.db.lookup a := by
  have hwrite : s.write a v =
      { s with cache := s.cache.insert a v, batch := (a, v) :: s.batch } := by
    rw [write, cacheInsert_of_lt (by omega)]
  have hcache : ((s.write a v).write b w).cache = ((s.write a v).cache.erase a).insert b w := by
    have hentries : (s.write a v).cache.entries = ⟨a, v⟩ :: s.cache.entries := by
      rw [hwrite, entries_insert_of_notMem ha]
    refine cache_cacheInsert_of_full hentries ?_ ?_ b w
    · rw [hwrite, hroom]
    · rw [hwrite]
      exact hdraw
  have hnone : ((s.write a v).write b w).cache.lookup a = none := by
    rw [hcache, lookup_insert_ne hab, lookup_erase]
  have hdb : ((s.write a v).write b w).db = s.db :=
    ((s.write a v).cacheInsert_frame b w).2.2.trans (s.cacheInsert_frame a v).2.2
  rw [read, hnone, hdb]
  cases s.db.lookup a <;> rfl

end Full

end CachedDb

end Sahyadri.Lib
