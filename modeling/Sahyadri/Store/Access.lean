import Sahyadri.Did.Changes
import Sahyadri.Core.Header

/-!
# The database stores of the account layer, as the code reads and writes them

* `CachedDbAccess`: one column of the database behind its cache. An entry on disk is what reading it
  gives: a value, or the error of the database or of the decoder.
-/

namespace Sahyadri.Store

open Lib Smt Core Account Did List AList

/-! ## 1. A column behind its cache -/

/-- `CachedDbAccess`. Eviction and refilling do not change what is read; they are left out. -/
structure CachedDbAccess (κ ν : Type) where
  cache : Table κ ν
  disk : Table κ (Except StoreError ν)

namespace CachedDbAccess

variable {κ ν : Type}

def new : CachedDbAccess κ ν := ⟨∅, ∅⟩

/-- The keys of `iterator`, without the entries that cannot be read. -/
def iterKeys (a : CachedDbAccess κ ν) : List κ :=
  a.disk.pairs.filterMap fun e => e.2.toOption.map fun _ => e.1

variable [DecidableEq κ]

/-- The keys that can be read, from the cache or from the disk. -/
def entries (a : CachedDbAccess κ ν) : List κ := (a.cache.keys ++ a.iterKeys).dedup

/-- `read_with_fallback`: the cache, the column, and then the column of an older format. -/
def readWithFallback (a : CachedDbAccess κ ν) (fallback : Table κ (Except StoreError ν)) (k : κ) :
    Except StoreError ν :=
  match a.cache.lookup k with
  | some v => .ok v
  | none =>
    match a.disk.lookup k with
    | some r => r
    | none =>
      match fallback.lookup k with
      | some r => r
      | none => .error .keyNotFound

def read (a : CachedDbAccess κ ν) (k : κ) : Except StoreError ν := a.readWithFallback ∅ k

/-- `write`: the cache takes the value also when the database refuses it. -/
def write (put : Except StoreError Unit) (a : CachedDbAccess κ ν) (k : κ) (v : ν) :
    CachedDbAccess κ ν where
  cache := a.cache.insert k v
  disk := match put with
    | .ok _ => a.disk.insert k (.ok v)
    | .error _ => a.disk

/-- `delete` of several keys in one batch. -/
def deleteMany (put : Except StoreError Unit) (a : CachedDbAccess κ ν) (ks : List κ) :
    CachedDbAccess κ ν where
  cache := ks.foldl (fun t k => t.erase k) a.cache
  disk := match put with
    | .ok _ => ks.foldl (fun t k => t.erase k) a.disk
    | .error _ => a.disk

variable {a : CachedDbAccess κ ν} {k : κ}

theorem mem_iterKeys : k ∈ a.iterKeys ↔ ∃ v, a.disk.lookup k = some (.ok v) := by
  unfold iterKeys
  rw [mem_filterMap]
  constructor
  · rintro ⟨⟨k', r⟩, hm, he⟩
    cases r with
    | error e => cases he
    | ok v =>
      cases he
      exact ⟨v, Table.mem_pairs.mp hm⟩
  · rintro ⟨v, hv⟩
    exact ⟨(k, .ok v), Table.mem_pairs.mpr hv, rfl⟩

theorem mem_entries : k ∈ a.entries ↔ k ∈ a.cache ∨ k ∈ a.iterKeys := by
  rw [entries, mem_dedup, mem_append]
  rfl

variable {ks : List κ}

theorem lookup_foldl_erase {μ : Type} (hk : k ∉ ks) (t : Table κ μ) :
    (ks.foldl (fun t k => t.erase k) t).lookup k = t.lookup k := by
  have h := Table.lookup_foldl_erase (k := k) id ks t
  rwa [map_id, if_neg hk] at h

variable {put : Except StoreError Unit} {v : ν}

/-- A key that is not deleted is read as before. -/
theorem readWithFallback_deleteMany (hk : k ∉ ks) (fallback : Table κ (Except StoreError ν)) :
    (a.deleteMany put ks).readWithFallback fallback k = a.readWithFallback fallback k := by
  have hcache : (a.deleteMany put ks).cache.lookup k = a.cache.lookup k := lookup_foldl_erase hk _
  have hdisk : (a.deleteMany put ks).disk.lookup k = a.disk.lookup k := by
    cases put with
    | ok _ => exact lookup_foldl_erase hk _
    | error _ => rfl
  unfold readWithFallback
  rw [hcache, hdisk]

theorem read_deleteMany (hk : k ∉ ks) : (a.deleteMany put ks).read k = a.read k :=
  readWithFallback_deleteMany hk ∅

theorem readWithFallback_write (fallback : Table κ (Except StoreError ν)) (q : κ) :
    (a.write put k v).readWithFallback fallback q = if q = k then .ok v
      else a.readWithFallback fallback q := by
  unfold readWithFallback
  by_cases hq : q = k
  · subst hq
    rw [if_pos rfl]
    show (match (a.cache.insert q v).lookup q with | some v => _ | none => _) = _
    rw [lookup_insert]
  · rw [if_neg hq]
    have hcache : (a.write put k v).cache.lookup q = a.cache.lookup q := lookup_insert_ne hq
    have hdisk : (a.write put k v).disk.lookup q = a.disk.lookup q := by
      cases put with
      | ok _ => exact lookup_insert_ne hq
      | error _ => rfl
    rw [hcache, hdisk]

theorem read_write (q : κ) : (a.write put k v).read q = if q = k then .ok v else a.read q :=
  readWithFallback_write ∅ q

end CachedDbAccess

/-! ## 2. Tree nodes -/

/-- `Node::encode`: a tag byte and the two hashes. -/
def encode : Node → Bytes
  | .leaf key value => 0 :: (key.bytes ++ value.bytes)
  | .branch left right => 1 :: (left.bytes ++ right.bytes)

def decode (bytes : Bytes) : Option Node :=
  if h : bytes.length = 65 then
    let a : H256 := ⟨(bytes.drop 1).take 32, by
      rw [length_take, length_drop, h]; decide⟩
    let b : H256 := ⟨bytes.drop 33, by rw [length_drop, h]⟩
    match bytes.head? with
    | some 0 => some (.leaf a b)
    | some 1 => some (.branch a b)
    | _ => none
  else none

structure DbSmtNodeStore where
  access : CachedDbAccess Hash Bytes
  memPool : Table H256 Node

namespace DbSmtNodeStore

def new : DbSmtNodeStore := ⟨.new, ∅⟩

/-- `get`: the pool, then the database. Bytes that are no node are read as none. -/
def get (s : DbSmtNodeStore) (h : H256) : Except StoreError (Option Node) :=
  match s.memPool.lookup h with
  | some n => .ok (some n)
  | none =>
    match s.access.read h with
    | .ok bytes => .ok (decode bytes)
    | .error .keyNotFound => .ok none
    | .error e => .error e

/-- `DbSmtNodeStoreBase`: an error reads as none. Its `put` is `unreachable!`, and no reader calls
    it. -/
def base : NodeStore DbSmtNodeStore where
  get s h :=
    match s.memPool.lookup h with
    | some n => some n
    | none => (s.get h).toOption.join
  put s _ := (.empty, s)

theorem base_get (s : DbSmtNodeStore) (h : H256) : base.get s h = (s.get h).toOption.join := by
  simp only [base]
  split
  · rename_i n hn
    rw [DbSmtNodeStore.get, hn]
    rfl
  · rfl

/-- `insert_sync`: into the pool, then into the database. -/
def insertSync (put : Except StoreError Unit) (s : DbSmtNodeStore) (h : H256) (n : Node) :
    DbSmtNodeStore where
  access := s.access.write put h (encode n)
  memPool := s.memPool.insert h n

theorem get_insertSync {put : Except StoreError Unit} (s : DbSmtNodeStore) (h : H256) (n : Node)
    (q : H256) : (s.insertSync put h n).get q = if q = h then .ok (some n) else s.get q := by
  unfold DbSmtNodeStore.get
  by_cases hq : q = h
  · subst hq
    rw [if_pos rfl]
    show (match (s.memPool.insert q n).lookup q with | some n => _ | none => _) = _
    rw [lookup_insert]
  · rw [if_neg hq]
    have hpool : (s.insertSync put h n).memPool.lookup q = s.memPool.lookup q := lookup_insert_ne hq
    have hread : (s.insertSync put h n).access.read q = s.access.read q := by
      rw [insertSync, CachedDbAccess.read_write, if_neg hq]
    rw [hpool, hread]

def entries (s : DbSmtNodeStore) : List H256 := (s.memPool.keys ++ s.access.entries).dedup

def names (s : DbSmtNodeStore) : List H256 :=
  s.memPool.keys ++ (s.access.cache.keys ++ s.access.disk.keys)

theorem mem_names {s : DbSmtNodeStore} {h : H256} {n : Node} (hn : base.get s h = some n) :
    h ∈ s.names := by
  unfold names
  rw [mem_append, mem_append]
  by_contra hno
  obtain ⟨h₁, hno⟩ := not_or.mp hno
  obtain ⟨h₂, h₃⟩ := not_or.mp hno
  have hpool : s.memPool.lookup h = none := lookup_eq_none.mpr h₁
  have hcache : s.access.cache.lookup h = none := lookup_eq_none.mpr h₂
  have hdisk : s.access.disk.lookup h = none := lookup_eq_none.mpr h₃
  have hget : s.get h = .ok none := by
    simp only [DbSmtNodeStore.get, CachedDbAccess.read, CachedDbAccess.readWithFallback, hpool,
      hcache, hdisk, lookup_empty]
  rw [base_get, hget] at hn
  cases hn

end DbSmtNodeStore

/-! ## 3. States and roots -/

structure DbAccountStatesStore where
  access : CachedDbAccess Hash AccountState

def DbAccountStatesStore.get (s : DbAccountStatesStore) (h : Hash) :
    Except StoreError AccountState := s.access.read h

structure DbDidStatesStore where
  access : CachedDbAccess Hash DidDocument

def DbDidStatesStore.get (s : DbDidStatesStore) (h : Hash) : Except StoreError DidDocument :=
  s.access.read h

/-- `DbAccountRootsStore`. The bytes stored are those of a root. -/
structure DbAccountRootsStore where
  access : CachedDbAccess Hash H256

def DbAccountRootsStore.get (s : DbAccountRootsStore) (h : Hash) : Except StoreError H256 :=
  s.access.read h

/-! ## 4. Headers -/

/-- `DbHeadersStore`. `fallback` is the column of the older header format; nothing writes to it. -/
structure DbHeadersStore where
  compact : CachedDbAccess Hash CompactHeaderData
  headers : CachedDbAccess Hash Header
  fallback : Table Hash (Except StoreError Header)

namespace DbHeadersStore

def new : DbHeadersStore := ⟨.new, .new, ∅⟩

variable (s : DbHeadersStore)

def getHeader (h : Hash) : Except StoreError Header := s.headers.readWithFallback s.fallback h

/-- `iter_block_hashes`: the compact column. -/
def iterBlockHashes : List Hash := s.compact.iterKeys

/-- The store holds the header: it is read, and its compact part is listed. -/
def Holds (h : Hash) (header : Header) : Prop := h ∈ s.iterBlockHashes ∧ s.getHeader h = .ok header

end DbHeadersStore

/-- The stores that the garbage collector and the snapshot exporter are given. -/
structure AccountStores where
  smt : DbSmtNodeStore
  states : DbAccountStatesStore
  didStates : DbDidStatesStore
  roots : DbAccountRootsStore
  headers : DbHeadersStore

/-- Nothing stored but headers. -/
def AccountStores.fresh (headers : DbHeadersStore) : AccountStores :=
  ⟨.new, ⟨.new⟩, ⟨.new⟩, ⟨.new⟩, headers⟩

end Sahyadri.Store
