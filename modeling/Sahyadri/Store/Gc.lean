import Sahyadri.Lib.Links
import Sahyadri.Store.Access

/-!
# `mark_and_sweep`: the garbage collector of the account layer

* `gc_keeps_live`: what a lookup from the root of a header held finds is found afterwards. A header
  is held if it is read and listed; one that is read only may lose its state (`gc_unlisted_lost`).
* `gc_complete_iff`: the collector leaves no garbage exactly when no stored node is garbage, as
  nodes are counted and not deleted (`gc_leaves_node`), and nothing else of it is in a cache only.
-/

namespace Sahyadri.Store

open Lib Smt Core Account Did List DbSmtNodeStore CachedDbAccess Links

/-! ## 1. The collector -/

/-- What the database answers to the three deletes. -/
structure GcWrites where
  roots : Except StoreError Unit
  states : Except StoreError Unit
  didStates : Except StoreError Unit

structure GcStats where
  liveRoots : Nat
  scannedNodes : Nat
  scannedStates : Nat
  scannedDidStates : Nat
  markedNodes : Nat
  markedStates : Nat
  markedDidStates : Nat
  deletedNodes : Nat
  deletedStates : Nat
  deletedDidStates : Nat
  deletedRoots : Nat
  deriving DecidableEq, Repr

/-- The loop over the headers: the blocks retained and their roots. -/
def liveRoots (s : DbHeadersStore) : List Hash → List Hash × List H256 → List Hash × List H256
  | [], acc => acc
  | h :: hs, (retained, live) =>
    match s.getHeader h with
    | .ok header =>
      let root := header.accountCommitment
      liveRoots s hs (retained ++ [h], if root ≠ .empty then live ++ [root] else live)
    | .error _ => liveRoots s hs (retained, live)

/-- The marking loop. The head of `stack` is its top. -/
def markLoop (s : DbSmtNodeStore) :
    Nat → List H256 → List H256 → List Hash → Option (List H256 × List Hash)
  | 0, _, _, _ => none
  | _ + 1, [], nodes, states => some (nodes, states)
  | fuel + 1, h :: stack, nodes, states =>
    if h = .empty then markLoop s fuel stack nodes states
    else if h ∈ nodes then markLoop s fuel stack nodes states
    else
      match s.get h with
      | .ok (some (.leaf _ value)) => markLoop s fuel stack (nodes ++ [h]) (states ++ [value])
      | .ok (some (.branch left right)) =>
        markLoop s fuel (right :: left :: stack) (nodes ++ [h]) states
      | .ok none => markLoop s fuel stack (nodes ++ [h]) states
      | .error _ => markLoop s fuel stack (nodes ++ [h]) states

/-- Steps that are enough for the marking loop. -/
def markFuel (s : DbSmtNodeStore) (roots : List H256) : Nat := 2 * s.names.length + roots.length + 1

/-- What is in a column and not marked. -/
def stale {ν : Type} (a : CachedDbAccess Hash ν) (marked : List Hash) : List Hash :=
  a.iterKeys.filter fun h => decide (h ∉ marked)

/-- `delete_many_sync`, which is not called for nothing. -/
def sweep {ν : Type} (put : Except StoreError Unit) (a : CachedDbAccess Hash ν) (ks : List Hash) :
    CachedDbAccess Hash ν :=
  if ks.isEmpty then a else a.deleteMany put ks

/-- `mark_and_sweep` after the marking: what is not marked goes. Unmarked nodes are only counted. -/
def sweepStores (put : GcWrites) (s : AccountStores) (retained : List Hash)
    (live markedNodes : List H256) (markedStates : List Hash) : GcStats × AccountStores :=
  let rootsToDelete := stale s.roots.access retained
  let nodesToDelete := stale s.smt.access markedNodes
  let statesToDelete := stale s.states.access markedStates
  let didToDelete := stale s.didStates.access markedStates
  ({ liveRoots := live.length
     scannedNodes := s.smt.access.iterKeys.length
     scannedStates := s.states.access.iterKeys.length
     scannedDidStates := s.didStates.access.iterKeys.length
     markedNodes := markedNodes.length
     markedStates := markedStates.dedup.length
     markedDidStates := markedStates.dedup.length
     deletedNodes := nodesToDelete.length
     deletedStates := statesToDelete.length
     deletedDidStates := didToDelete.length
     deletedRoots := rootsToDelete.length },
   { s with
     roots := ⟨sweep put.roots s.roots.access rootsToDelete⟩
     states := ⟨sweep put.states s.states.access statesToDelete⟩
     didStates := ⟨sweep put.didStates s.didStates.access didToDelete⟩ })

def markAndSweep (put : GcWrites) (s : AccountStores) : Option (GcStats × AccountStores) :=
  let (retained, live) := liveRoots s.headers s.headers.iterBlockHashes ([], [])
  (markLoop s.smt (markFuel s.smt live) live.reverse [] []).map fun marked =>
    sweepStores put s retained live marked.1 marked.2

/-! ## 2. The headers -/

theorem liveRoots_eq (s : DbHeadersStore) (hs : List Hash) (acc : List Hash × List H256) :
    liveRoots s hs acc = (acc.1 ++ hs.filter fun h => (s.getHeader h).toOption.isSome,
      acc.2 ++ ((hs.filterMap fun h => (s.getHeader h).toOption).map (·.accountCommitment)).filter
        (· ≠ .empty)) := by
  induction hs generalizing acc with
  | nil => simp [liveRoots]
  | cons h hs ih =>
    unfold liveRoots
    cases hh : s.getHeader h with
    | error e => simp [ih, hh, Except.toOption]
    | ok header => by_cases he : header.accountCommitment = .empty <;>
        simp [ih, hh, he, Except.toOption]

theorem toOption_eq_some {ε α : Type} {x : Except ε α} {a : α} :
    x.toOption = some a ↔ x = .ok a := by
  cases x <;> simp [Except.toOption]

variable {s : DbHeadersStore}

theorem mem_retained {h : Hash} :
    h ∈ (liveRoots s s.iterBlockHashes ([], [])).1 ↔ ∃ header, s.Holds h header := by
  rw [liveRoots_eq, nil_append, mem_filter, Option.isSome_iff_exists]
  simp only [toOption_eq_some, DbHeadersStore.Holds, exists_and_left]

theorem mem_live {r : H256} :
    r ∈ (liveRoots s s.iterBlockHashes ([], [])).2 ↔
      r ≠ .empty ∧ ∃ h header, s.Holds h header ∧ header.accountCommitment = r := by
  rw [liveRoots_eq]
  simp only [nil_append, mem_filter, decide_eq_true_eq, mem_map, mem_filterMap, toOption_eq_some]
  constructor
  · intro ⟨⟨header, ⟨h, hh⟩, hr⟩, hne⟩
    exact ⟨hne, h, header, hh, hr⟩
  · intro ⟨hne, h, header, hh, hr⟩
    exact ⟨⟨header, ⟨h, hh⟩, hr⟩, hne⟩

/-! ## 3. Marking -/

def kids : Node → List H256
  | .leaf _ _ => []
  | .branch left right => [left, right]

def leafValue : Node → Option Hash
  | .leaf _ value => some value
  | .branch _ _ => none

/-- The nodes of a tree as `get` finds them; `EMPTY` stands for no node. -/
def treeLinks (get : H256 → Option Node) : Links H256 Node where
  skip h := decide (h = .empty)
  look := get
  kids := kids

theorem skip_treeLinks {get : H256 → Option Node} {h : H256} :
    (treeLinks get).skip h = true ↔ h = .empty :=
  decide_eq_true_iff

/-- The leaf with this key and value is reached from the root. -/
def LeafAt (get : H256 → Option Node) (root key value : H256) : Prop :=
  ∃ h, (treeLinks get).Reach root h ∧ get h = some (.leaf key value)

theorem markLoop_eq (s : DbSmtNodeStore) :
    ∀ (fuel : Nat) (stack nodes : List H256) (states : List Hash),
    markLoop s fuel stack nodes states =
      (treeLinks (base.get s)).mark leafValue fuel stack nodes states
  | 0, _, _, _ => rfl
  | _ + 1, [], _, _ => rfl
  | fuel + 1, h :: stack, nodes, states => by
    have hlook : (treeLinks (base.get s)).look h = (s.get h).toOption.join := base_get s h
    unfold markLoop mark
    rw [hlook]
    by_cases he : h = .empty
    · rw [if_pos he, if_pos (skip_treeLinks.mpr he)]
      exact markLoop_eq s fuel _ _ _
    rw [if_neg he, if_neg (mt skip_treeLinks.mp he)]
    by_cases hin : h ∈ nodes
    · rw [if_pos hin, if_pos hin]
      exact markLoop_eq s fuel _ _ _
    rw [if_neg hin, if_neg hin]
    cases hg : s.get h with
    | error e => exact markLoop_eq s fuel _ _ _
    | ok r =>
      cases r with
      | none => exact markLoop_eq s fuel _ _ _
      | some n =>
        cases n with
        | leaf key value => exact markLoop_eq s fuel _ _ _
        | branch left right =>
          show markLoop s fuel (right :: left :: stack) (nodes ++ [h]) states =
            mark _ _ fuel (right :: left :: stack) (nodes ++ [h]) (states ++ [])
          rw [append_nil]
          exact markLoop_eq s fuel _ _ _

theorem markLoop_some (s : DbSmtNodeStore) (roots : List H256) :
    ∃ r, markLoop s (markFuel s roots) roots.reverse [] [] = some r := by
  rw [markLoop_eq]
  refine mark_some (U := s.names.toFinset) (d := 2) (fun {x n} hx => ⟨?_, ?_⟩) ?_
  · exact mem_toFinset.mpr (mem_names hx)
  · cases n with
    | leaf key value => exact Nat.zero_le _
    | branch left right => exact Nat.le_refl 2
  · have hcard : (s.names.toFinset.filter (· ∉ ([] : List H256))).card ≤ s.names.length :=
      (Finset.card_filter_le _ _).trans (toFinset_card_le _)
    rw [markFuel, length_reverse]
    omega

/-! ## 4. The sweep -/

section Sweep

variable {put : GcWrites} {s : AccountStores}
variable {ν : Type} {a : CachedDbAccess Hash ν} {marked : List Hash} {ks : List Hash}

theorem read_sweep {w : Except StoreError Unit} {h : Hash} (hm : h ∈ marked) :
    (sweep w a (stale a marked)).read h = a.read h := by
  unfold sweep
  split
  · rfl
  · refine read_deleteMany fun hin => ?_
    exact of_decide_eq_true (mem_filter.mp hin).2 hm

/-- The node is reached from the root of a header held. -/
def Used (s : AccountStores) (x : H256) : Prop :=
  ∃ h header, s.headers.Holds h header ∧
    (treeLinks (base.get s.smt)).Reach header.accountCommitment x

/-- The value of a leaf reached from the root of a header held. -/
def UsedValue (s : AccountStores) (value : Hash) : Prop :=
  ∃ h header, s.headers.Holds h header ∧
    ∃ key, LeafAt (base.get s.smt) header.accountCommitment key value

/-- **The collector ends**, and what it sweeps is what the marking did not reach. -/
theorem markAndSweep_some (put : GcWrites) (s : AccountStores) : ∃ retained live nodes states,
    markAndSweep put s = some (sweepStores put s retained live nodes states) ∧
      (∀ h, h ∈ retained ↔ ∃ header, s.headers.Holds h header) ∧ (∀ x, x ∈ nodes ↔ Used s x) ∧
      ∀ value, value ∈ states ↔ UsedValue s value := by
  obtain ⟨⟨nodes, states⟩, hr⟩ :=
    markLoop_some s.smt (liveRoots s.headers s.headers.iterBlockHashes ([], [])).2
  refine ⟨_, (liveRoots s.headers s.headers.iterBlockHashes ([], [])).2, nodes, states, ?_,
    fun h => mem_retained, fun x => ?_, fun value => ?_⟩
  · exact congrArg (Option.map fun marked => sweepStores put s _ _ marked.1 marked.2) hr
  all_goals rw [markLoop_eq] at hr
  · rw [(mark_iff hr).1 x]
    constructor
    · rintro ⟨root, hroot, hreach⟩
      obtain ⟨_, h, header, hh, rfl⟩ := mem_live.mp (mem_reverse.mp hroot)
      exact ⟨h, header, hh, hreach⟩
    · rintro ⟨h, header, hh, hreach⟩
      exact ⟨_,
        mem_reverse.mpr (mem_live.mpr ⟨of_decide_eq_false hreach.1, h, header, hh, rfl⟩), hreach⟩
  rw [(mark_iff hr).2 value]
  constructor
  · rintro ⟨root, hroot, x, hreach, n, hn, hv⟩
    obtain ⟨_, h, header, hh, rfl⟩ := mem_live.mp (mem_reverse.mp hroot)
    cases n with
    | leaf key v =>
      cases hv
      exact ⟨h, header, hh, key, x, hreach, hn⟩
    | branch left right => cases hv
  · rintro ⟨h, header, hh, key, x, hreach, hx⟩
    have hne : header.accountCommitment ≠ .empty := of_decide_eq_false hreach.1
    exact ⟨_, mem_reverse.mpr (mem_live.mpr ⟨hne, h, header, hh, rfl⟩), x, hreach, _, hx, rfl⟩

/-- **No live state is lost**, whichever deletes fail: from the root of a header held, everything is
    read as before. -/
theorem gc_keeps_live (put : GcWrites) (s : AccountStores) {h : Hash} {header : Header}
    (hh : s.headers.Holds h header) : ∃ stats after,
    markAndSweep put s = some (stats, after) ∧ after.headers.Holds h header ∧
      (∀ key, Smt.get base after.smt header.accountCommitment key =
        Smt.get base s.smt header.accountCommitment key) ∧
      (∀ key, prove base after.smt header.accountCommitment key =
        prove base s.smt header.accountCommitment key) ∧
      (∀ start limit, leavesAfter base after.smt header.accountCommitment start limit =
        leavesAfter base s.smt header.accountCommitment start limit) ∧
      (∀ key value, LeafAt (base.get s.smt) header.accountCommitment key value →
        after.states.get value = s.states.get value ∧
          after.didStates.get value = s.didStates.get value) ∧
      after.roots.get h = s.roots.get h := by
  obtain ⟨retained, live, nodes, states, hrun, hretained, -, hstates⟩ := markAndSweep_some put s
  refine ⟨_, _, hrun, hh, fun _ => rfl, fun _ => rfl, fun _ _ => rfl, fun key value hleaf => ?_, ?_⟩
  · have hmarked := (hstates value).mpr ⟨h, header, hh, key, hleaf⟩
    exact ⟨read_sweep hmarked, read_sweep hmarked⟩
  · exact read_sweep ((hretained h).mpr ⟨header, hh⟩)

def rootHeader (root : H256) : Header :=
  { hash := root, version := 1, parentsByLevel := ⟨[]⟩, hashMerkleRoot := .empty,
    acceptedIdMerkleRoot := .empty, accountCommitment := root, timestamp := 0, bits := 0, nonce :=
    0, daaScore := 0, blueWork := 0, blueScore := 0, pruningPoint := .empty }

/-- Roots 1 and 2. Node 1 refers to node 2, a leaf with the value 9, and to node 3, which is
    missing. The states 8 and 9 are stored, and a root of block 5, which has no header. -/
def sharedStores : AccountStores where
  smt := ⟨.new, (∅ : Table H256 Node).insert (.ofNat 1) (.branch (.ofNat 2) (.ofNat 3)) |>.insert
    (.ofNat 2) (.leaf (.ofNat 7) (.ofNat 9))⟩
  states := ⟨new.write (.ok ()) (.ofNat 8) ⟨5, []⟩ |>.write (.ok ()) (.ofNat 9) ⟨6, []⟩⟩
  didStates := ⟨.new⟩
  roots := ⟨new.write (.ok ()) (.ofNat 1) (.ofNat 1) |>.write (.ok ()) (.ofNat 5) (.ofNat 1)⟩
  headers := ⟨new.write (.ok ()) (.ofNat 1) (.ofHeader (rootHeader (.ofNat 1))) |>.write
    (.ok ()) (.ofNat 2) (.ofHeader (rootHeader (.ofNat 2))), new.write (.ok ()) (.ofNat 1)
    (rootHeader (.ofNat 1)) |>.write (.ok ()) (.ofNat 2) (rootHeader (.ofNat 2)), ∅⟩

theorem sharedStores_holds : sharedStores.headers.Holds (.ofNat 1) (rootHeader (.ofNat 1)) :=
  ⟨by decide, rfl⟩

theorem sharedStores_leaf :
    LeafAt (base.get sharedStores.smt) (.ofNat 1) (.ofNat 7) (.ofNat 9) := by
  refine ⟨.ofNat 2, ⟨by decide, .single ⟨.branch (.ofNat 2) (.ofNat 3), ?_, ?_, ?_⟩⟩, ?_⟩
  · decide
  · exact mem_cons_self
  · decide
  · decide

theorem gc_keeps_shared : sharedStores.headers.Holds (.ofNat 1) (rootHeader (.ofNat 1)) ∧
    ∃ stats after, markAndSweep ⟨.ok (), .ok (), .ok ()⟩ sharedStores = some (stats, after) ∧
      after.states.get (.ofNat 9) = .ok ⟨6, []⟩ ∧ after.roots.get (.ofNat 1) = .ok (.ofNat 1) := by
  refine ⟨sharedStores_holds, ?_⟩
  obtain ⟨stats, after, hrun, _, _, _, _, hstates, hroot⟩ :=
    gc_keeps_live ⟨.ok (), .ok (), .ok ()⟩ sharedStores sharedStores_holds
  exact ⟨stats, after, hrun, (hstates _ _ sharedStores_leaf).1.trans rfl, hroot.trans rfl⟩

/-- **A header that is not listed** is left in the column of the older format. The state of its leaf
    and the root of its block are deleted. -/
theorem gc_unlisted_lost :
    ∃ s : AccountStores, s.headers.getHeader (.ofNat 1) = .ok (rootHeader (.ofNat 1)) ∧
    LeafAt (base.get s.smt) (.ofNat 1) (.ofNat 7) (.ofNat 9) ∧
    s.states.get (.ofNat 9) = .ok ⟨6, []⟩ ∧ s.roots.get (.ofNat 1) = .ok (.ofNat 1) ∧
    ∃ stats after, markAndSweep ⟨.ok (), .ok (), .ok ()⟩ s = some (stats, after) ∧
      after.headers.getHeader (.ofNat 1) = .ok (rootHeader (.ofNat 1)) ∧
      after.states.get (.ofNat 9) = .error .keyNotFound ∧
      after.roots.get (.ofNat 1) = .error .keyNotFound :=
  ⟨{ sharedStores with headers :=
    ⟨.new, .new, (∅ : Table _ _).insert (.ofNat 1) (.ok (rootHeader (.ofNat 1)))⟩ },
    rfl, sharedStores_leaf, rfl, rfl, _, _, rfl, rfl, by decide, by decide⟩

-- the state that no leaf has and the root without a header are deleted
example : (markAndSweep ⟨.ok (), .ok (), .ok ()⟩ sharedStores).map (fun r => (r.1.markedNodes,
    r.1.deletedStates, r.1.deletedRoots, r.2.states.access.iterKeys)) =
      some (3, 1, 1, [.ofNat 9]) := by
  decide

/-! ## 5. What is left -/

theorem iterKeys_nodup (a : CachedDbAccess Hash ν) : a.iterKeys.Nodup := by
  have hkeys : (a.disk.pairs.map Prod.fst).Nodup := by
    rw [Table.map_fst_pairs]
    exact a.disk.keys_nodup
  refine pairwise_filterMap.mpr ((pairwise_map.mp hkeys).imp fun {e e'} hne k hk k' hk' => ?_)
  obtain ⟨-, -, rfl⟩ := Option.map_eq_some_iff.mp hk
  obtain ⟨-, -, rfl⟩ := Option.map_eq_some_iff.mp hk'
  exact hne

theorem mem_stale {h : Hash} : h ∈ stale a marked ↔ h ∈ a.iterKeys ∧ h ∉ marked := by
  simp [stale]

theorem lookup_erased {μ : Type} (t : Table Hash μ) (h : Hash) :
    (ks.foldl (fun t k => t.erase k) t).lookup h = if h ∈ ks then none else t.lookup h := by
  have herase := Table.lookup_foldl_erase (k := h) id ks t
  rwa [map_id] at herase

theorem sweep_eq (ks : List Hash) : sweep (.ok ()) a ks = a.deleteMany (.ok ()) ks := by
  unfold sweep
  split
  · rename_i he
    rw [isEmpty_iff.mp he]
    rfl
  · rfl

theorem mem_iterKeys_deleteMany {h : Hash} :
    h ∈ (a.deleteMany (.ok ()) ks).iterKeys ↔ h ∈ a.iterKeys ∧ h ∉ ks := by
  have hdisk : (a.deleteMany (.ok ()) ks).disk.lookup h = if h ∈ ks then none
      else a.disk.lookup h := lookup_erased _ h
  rw [mem_iterKeys, mem_iterKeys, hdisk]
  by_cases hin : h ∈ ks <;> simp [hin]

theorem mem_iterKeys_sweep {h : Hash} :
    h ∈ (sweep (.ok ()) a (stale a marked)).iterKeys ↔ h ∈ a.iterKeys ∧ h ∈ marked := by
  rw [sweep_eq, mem_iterKeys_deleteMany, mem_stale, not_and, not_not]
  exact ⟨fun hin => ⟨hin.1, hin.2 hin.1⟩, fun hin => ⟨hin.1, fun _ => hin.2⟩⟩

theorem mem_entries_sweep {h : Hash} :
    h ∈ (sweep (.ok ()) a (stale a marked)).entries ↔ h ∈ a.entries ∧ h ∉ stale a marked := by
  have hcache : h ∈ (a.deleteMany (.ok ()) (stale a marked)).cache ↔ h ∈ a.cache ∧
      h ∉ stale a marked := by
    have hlook : (a.deleteMany (.ok ()) (stale a marked)).cache.lookup h = _ :=
      lookup_erased a.cache h
    rw [← AList.lookup_isSome, ← AList.lookup_isSome, hlook]
    by_cases hin : h ∈ stale a marked <;> simp [hin]
  rw [sweep_eq, mem_entries, mem_entries, hcache, mem_iterKeys_deleteMany, ← or_and_right]

theorem length_sweep (a : CachedDbAccess Hash ν) (marked : List Hash) : a.entries.length =
      (sweep (.ok ()) a (stale a marked)).entries.length + (stale a marked).length := by
  have hnodup : ∀ b : CachedDbAccess Hash ν, b.entries.Nodup := fun b => nodup_dedup _
  have hstale : (stale a marked).Nodup := (iterKeys_nodup a).filter _
  have hleft :
      (sweep (.ok ()) a (stale a marked)).entries.Perm (a.entries.filter (· ∉ stale a marked)) :=
    (perm_ext_iff_of_nodup (hnodup _) ((hnodup a).filter _)).mpr fun h => by
      rw [mem_entries_sweep, mem_filter, decide_eq_true_eq]
  have hgone : (stale a marked).Perm (a.entries.filter (· ∈ stale a marked)) :=
    (perm_ext_iff_of_nodup hstale ((hnodup a).filter _)).mpr fun h => by
      rw [mem_filter, decide_eq_true_eq, mem_entries]
      exact ⟨fun hin => ⟨.inr (mem_stale.mp hin).1, hin⟩, And.right⟩
  have hsplit := length_eq_length_filter_add (l := a.entries) (· ∈ stale a marked)
  rw [hleft.length_eq, hgone.length_eq, hsplit, Nat.add_comm]
  simp

/-- What is in a column is in use (`P`), unless it is listed on the disk. -/
def CachedInUse (a : CachedDbAccess Hash ν) (P : Hash → Prop) : Prop :=
  ∀ h ∈ a.entries, h ∉ a.iterKeys → P h

/-- **A swept column** has only what is in use exactly if what was in its cache alone was in use. -/
theorem swept_iff {P : Hash → Prop} (hm : ∀ h, h ∈ marked ↔ P h) :
    (∀ h ∈ (sweep (.ok ()) a (stale a marked)).entries, P h) ↔ CachedInUse a P := by
  constructor
  · intro hall h hin hnot
    exact hall h (mem_entries_sweep.mpr ⟨hin, fun hs => hnot (mem_stale.mp hs).1⟩)
  · intro hcached h hin
    obtain ⟨hin, hkeep⟩ := mem_entries_sweep.mp hin
    by_cases hlisted : h ∈ a.iterKeys
    · exact (hm h).mp (by_contra fun hno => hkeep (mem_stale.mpr ⟨hlisted, hno⟩))
    · exact hcached h hin hlisted

/-- What the collector leaves is in use, and it has deleted as much as it reports. -/
structure Collected (s : AccountStores) (stats : GcStats) (after : AccountStores) : Prop where
  nodes : ∀ x ∈ after.smt.entries, Used s x
  states : ∀ value ∈ after.states.access.entries, UsedValue s value
  didStates : ∀ value ∈ after.didStates.access.entries, UsedValue s value
  roots : ∀ h ∈ after.roots.access.entries, ∃ header, s.headers.Holds h header
  deletedNodes : s.smt.entries.length = after.smt.entries.length + stats.deletedNodes
  deletedStates : s.states.access.entries.length =
    after.states.access.entries.length + stats.deletedStates
  deletedDidStates : s.didStates.access.entries.length =
    after.didStates.access.entries.length + stats.deletedDidStates
  deletedRoots : s.roots.access.entries.length =
    after.roots.access.entries.length + stats.deletedRoots

/-- **The collector is complete** and reports the truth exactly when every stored node is in use,
    and so is what is in a cache and not listed on the disk. -/
theorem gc_complete_iff (s : AccountStores) : ∃ stats after,
    markAndSweep ⟨.ok (), .ok (), .ok ()⟩ s = some (stats, after) ∧
      (Collected s stats after ↔ (∀ x ∈ s.smt.entries, Used s x) ∧
        CachedInUse s.states.access (UsedValue s) ∧ CachedInUse s.didStates.access (UsedValue s) ∧
        CachedInUse s.roots.access fun h => ∃ header, s.headers.Holds h header) := by
  obtain ⟨retained, live, nodes, states, hrun, hretained, hnodes, hstates⟩ :=
    markAndSweep_some ⟨.ok (), .ok (), .ok ()⟩ s
  refine ⟨_, _, hrun, fun h => ⟨h.nodes, (swept_iff hstates).mp h.states,
    (swept_iff hstates).mp h.didStates, (swept_iff hretained).mp h.roots⟩, ?_⟩
  rintro ⟨hused, hs, hd, hr⟩
  refine ⟨hused, (swept_iff hstates).mpr hs, (swept_iff hstates).mpr hd,
    (swept_iff hretained).mpr hr, ?_, length_sweep _ _, length_sweep _ _, length_sweep _ _⟩
  have hnone : stale s.smt.access nodes = [] := filter_eq_nil_iff.mpr fun x hx => by
    have hentry : x ∈ s.smt.entries :=
      mem_dedup.mpr (mem_append_right _ (mem_entries.mpr (.inr hx)))
    simpa using (hnodes x).mpr (hused x hentry)
  exact (congrArg (s.smt.entries.length + ·) (congrArg length hnone)).symm

def strayStores : AccountStores where
  smt := ⟨new.write (.ok ()) (.ofNat 4) (encode (.leaf (.ofNat 7) (.ofNat 9))), ∅⟩
  states := ⟨.new⟩
  didStates := ⟨.new⟩
  roots := ⟨.new⟩
  headers := .new

/-- **A node that stays.** It is counted as deleted, and it is still there. -/
theorem gc_leaves_node : (∀ h header, ¬ strayStores.headers.Holds h header) ∧
    ∃ stats after, markAndSweep ⟨.ok (), .ok (), .ok ()⟩ strayStores = some (stats, after) ∧
      stats.deletedNodes = 1 ∧ after.smt.entries = [.ofNat 4] ∧
      after.smt.entries = strayStores.smt.entries :=
  ⟨fun _ _ hh => not_mem_nil hh.1, _, _, rfl, by decide, by decide, rfl⟩

theorem stale_sweep (marked : List Hash) : stale (sweep (.ok ()) a (stale a marked)) marked = [] :=
  filter_eq_nil_iff.mpr fun _ hx => by simpa using (mem_iterKeys_sweep.mp hx).2

/-- **A second run finds nothing to do**: it deletes no state, document or root, and changes
    nothing. -/
theorem gc_idempotent (s : AccountStores) : ∃ stats stats' after,
    markAndSweep ⟨.ok (), .ok (), .ok ()⟩ s = some (stats, after) ∧
      markAndSweep ⟨.ok (), .ok (), .ok ()⟩ after = some (stats', after) ∧
      stats'.deletedStates = 0 ∧ stats'.deletedDidStates = 0 ∧ stats'.deletedRoots = 0 := by
  obtain ⟨marked, hr⟩ :=
    markLoop_some s.smt (liveRoots s.headers s.headers.iterBlockHashes ([], [])).2
  -- the marking reads the headers and the nodes, which the sweep leaves alone
  refine ⟨_, _, _, congrArg (Option.map _) hr,
    (congrArg (Option.map _) hr).trans (congrArg some (Prod.ext rfl ?_)), ?_⟩
  · simp only [sweepStores, stale_sweep]
    rfl
  · simp only [sweepStores, stale_sweep, length_nil, and_self]

end Sweep

end Sahyadri.Store
