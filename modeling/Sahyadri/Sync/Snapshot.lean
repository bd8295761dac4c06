import Sahyadri.Sync.Wave
import Sahyadri.Smt.Refine
import Mathlib.Data.Nat.Bits

/-!
# What a snapshot that `verify` accepts is good for once it is loaded

* `usable_iff`: a verified snapshot loaded into empty stores is usable exactly if the state of every
  leaf met is listed (`Complete`) and no path from the root has more than 256 branches (`Shallow`).
  `verify` checks neither: `bare_unusable`.
-/

namespace Sahyadri.Sync

open Lib Smt Core Account Did Store List Table DbSmtNodeStore Option SyncWaveNode Run

/-! ## 1. How deep a key is read -/

/-- Every sequence of 256 bits is that of a key. -/
theorem exists_key (f : Nat → Bool) : ∃ key : H256, ∀ i < treeDepth, keyBit key i = f i := by
  let byte : Nat → UInt8 := fun j => .ofNat (Nat.ofBits fun m : Fin 8 => f (8 * j + (7 - m)))
  refine ⟨⟨(range 32).map byte, by rw [length_map, length_range]⟩, fun i hi => ?_⟩
  have hj : i / 8 < 32 := by
    have : i < 256 := hi
    omega
  have hbyte : (byte (i / 8)).toNat = Nat.ofBits fun m : Fin 8 => f (8 * (i / 8) + (7 - m)) := by
    rw [UInt8.toNat_ofNat', Nat.mod_eq_of_lt]
    exact Nat.ofBits_lt_two_pow _
  have hm : 7 - i % 8 < 8 := by omega
  rw [keyBit, getElem?_map, getElem?_range hj, map_some, getD_some, hbyte,
    Nat.testBit_ofBits_lt _ _ hm]
  congr 1
  show 8 * (i / 8) + (7 - (7 - i % 8)) = i
  omega

/-- The node that the bits lead to, `false` to the left. -/
def descend (get : H256 → Option Node) : H256 → List Bool → Option Node
  | h, [] => if h = .empty then none else get h
  | h, b :: bits =>
    if h = .empty then none
    else
      match get h with
      | some (.branch left right) => descend get (if b then right else left) bits
      | _ => none

/-- No path from the root has a branch below 256 others. -/
def Shallow (get : H256 → Option Node) (root : H256) : Prop :=
  ∀ bits : List Bool, bits.length = treeDepth →
    ∀ left right, descend get root bits ≠ some (.branch left right)

def keyBits (key : H256) (depth : Nat) : List Bool :=
  (List.range' depth (treeDepth - depth)).map (keyBit key)

theorem keyBits_succ {key : H256} {depth : Nat} (h : depth < treeDepth) :
    keyBits key depth = keyBit key depth :: keyBits key (depth + 1) := by
  have hn : treeDepth - depth = (treeDepth - (depth + 1)) + 1 := by omega
  rw [keyBits, hn, List.range'_succ]
  rfl

theorem exists_keyBits {bits : List Bool} (h : bits.length = treeDepth) :
    ∃ key, keyBits key 0 = bits := by
  obtain ⟨key, hkey⟩ := exists_key fun i => bits[i]?.getD false
  refine ⟨key, ext_getElem? fun i => ?_⟩
  by_cases hi : i < treeDepth
  · rw [keyBits, getElem?_map, getElem?_range' (by omega), map_some, one_mul,
      zero_add, hkey i hi, getElem?_eq_getElem (h ▸ hi), getD_some]
  · rw [getElem?_eq_none (by rw [keyBits, length_map, length_range']; omega),
      getElem?_eq_none (by omega)]

/-- Reading a key fails only at a branch below 256 others, when no node is missing. -/
theorem getLoop_ok_iff {S : Type} {N : NodeStore S} {s : S} {key : H256} :
    ∀ {n depth : Nat} {cur : H256}, depth + n = treeDepth →
      (∀ h, (treeLinks (N.get s)).Reach cur h → (N.get s h).isSome) →
      ((∃ v, getLoop N s key cur depth = .ok v) ↔
        ∀ left right, descend (N.get s) cur (keyBits key depth) ≠ some (.branch left right)) := by
  intro n
  induction n with
  | zero =>
    intro depth cur hd hall
    have hbits : keyBits key depth = [] := by
      rw [keyBits, show treeDepth - depth = 0 by omega]
      rfl
    rw [hbits, getLoop.eq_def, descend]
    by_cases he : cur = .empty
    · rw [if_pos he, if_pos he]
      exact ⟨fun _ _ _ h => (by cases h), fun _ => ⟨none, rfl⟩⟩
    rw [if_neg he, if_neg he]
    obtain ⟨node, hn⟩ :=
      isSome_iff_exists.mp (hall cur (.refl (Bool.eq_false_iff.mpr (mt skip_treeLinks.mp he))))
    rw [NodeStore.fetch, hn]
    cases node with
    | leaf k v =>
      exact ⟨fun _ _ _ h => (by cases h), fun _ => ⟨_, rfl⟩⟩
    | branch left right =>
      refine ⟨fun h => ?_, fun h => absurd rfl (h left right)⟩
      obtain ⟨v, hv⟩ := h
      have hge : depth ≥ treeDepth := by omega
      change (if depth ≥ treeDepth then _ else _) = _ at hv
      rw [if_pos hge] at hv
      cases hv
  | succ n ih =>
    intro depth cur hd hall
    have hlt : depth < treeDepth := by omega
    rw [keyBits_succ hlt, getLoop.eq_def, descend]
    by_cases he : cur = .empty
    · rw [if_pos he, if_pos he]
      exact ⟨fun _ _ _ h => (by cases h), fun _ => ⟨none, rfl⟩⟩
    rw [if_neg he, if_neg he]
    have hskip : (treeLinks (N.get s)).skip cur = false :=
      Bool.eq_false_iff.mpr (mt skip_treeLinks.mp he)
    obtain ⟨node, hn⟩ := isSome_iff_exists.mp (hall cur (.refl hskip))
    rw [NodeStore.fetch, hn]
    cases node with
    | leaf k v => exact ⟨fun _ _ _ h => (by cases h), fun _ => ⟨_, rfl⟩⟩
    | branch left right =>
      have hkid : ∀ y, y ∈ [left, right] → ∀ h, (treeLinks (N.get s)).Reach y h →
          (N.get s h).isSome := fun y hy h hr => hall h (.head hskip hn hy hr)
      change (∃ v, (if depth ≥ treeDepth then _ else _) = _) ↔ _
      rw [if_neg (by omega), bit_eq key hlt]
      cases keyBit key depth with
      | true => exact ih (by omega) (hkid right (by simp))
      | false => exact ih (by omega) (hkid left (by simp))

/-- **Every key can be read** exactly if the tree is shallow, when no node is missing. -/
theorem get_ok_iff {S : Type} {N : NodeStore S} {s : S} {root : H256}
    (hall : ∀ h, (treeLinks (N.get s)).Reach root h → (N.get s h).isSome) :
    (∀ key, ∃ v, Smt.get N s root key = .ok v) ↔ Shallow (N.get s) root := by
  constructor
  · intro h bits hlen
    obtain ⟨key, rfl⟩ := exists_keyBits hlen
    exact (getLoop_ok_iff (zero_add _) hall).mp (h key)
  · intro h key
    refine (getLoop_ok_iff (zero_add _) hall).mpr (h _ ?_)
    rw [keyBits, length_map, length_range']
    rfl

/-! ## 2. What is loaded -/

section Loaded

variable {c : Crypto} {put : Nat → Except StoreError Unit} {snapshot : SyncWaveSnapshot}
  {headers : DbHeadersStore} {s : AccountStores} {root : H256}

theorem filterMap_entries {κ ν : Type} (pick : Entry → Option (κ × ν))
    (snapshot : SyncWaveSnapshot) : snapshot.entries.filterMap pick = snapshot.smtNodes.filterMap
      (fun e => pick (.node e.1 e.2.toSmt)) ++
        (snapshot.accountStates.filterMap (fun e => pick (.state e.1 (fromSyncState e.2))) ++
          (snapshot.didStates.filterMap (fun e => pick (.document e.1 (fromSyncDidState e.2))) ++
            (pick (.root snapshot.metadata.blockHash snapshot.metadata.accountRoot)).toList)) := by
  simp only [SyncWaveSnapshot.entries, filterMap_append, filterMap_map]
  congr 3

section

variable (h : load put snapshot (.fresh headers) = (.ok (), s))

include h

theorem look_loaded (q : H256) : base.get s.smt q = snapshot.look q := by
  rw [base_get, loadEntries_ok h]
  have hread := nodeColumn.read_foldl (.ok ()) snapshot.entries (.fresh headers) q
  have hpick : snapshot.entries.filterMap nodeColumn.pick = snapshot.smtNodes.map fun e =>
      (e.1, e.2.toSmt) := by
    simp [filterMap_entries, nodeColumn]
  rw [hpick, lookup_ofList_map] at hread
  change (nodeColumn.read _ q).toOption.join = _
  rw [hread, SyncWaveSnapshot.look]
  cases (ofList snapshot.smtNodes).lookup q <;> rfl

theorem states_loaded (q : Hash) :
    s.states.get q = match (ofList snapshot.accountStates).lookup q with
      | some st => .ok (fromSyncState st)
      | none => .error .keyNotFound := by
  rw [loadEntries_ok h]
  have hread := stateColumn.read_foldl (.ok ()) snapshot.entries (.fresh headers) q
  have hpick : snapshot.entries.filterMap stateColumn.pick =
      snapshot.accountStates.map fun e => (e.1, fromSyncState e.2) := by
    simp [filterMap_entries, stateColumn]
  rw [hpick, lookup_ofList_map] at hread
  refine hread.trans ?_
  cases (ofList snapshot.accountStates).lookup q <;> rfl

theorem documents_loaded (q : Hash) :
    s.didStates.get q = match (ofList snapshot.didStates).lookup q with
      | some d => .ok (fromSyncDidState d)
      | none => .error .keyNotFound := by
  rw [loadEntries_ok h]
  have hread := documentColumn.read_foldl (.ok ()) snapshot.entries (.fresh headers) q
  have hpick : snapshot.entries.filterMap documentColumn.pick =
      snapshot.didStates.map fun e => (e.1, fromSyncDidState e.2) := by
    simp [filterMap_entries, documentColumn]
  rw [hpick, lookup_ofList_map] at hread
  refine hread.trans ?_
  cases (ofList snapshot.didStates).lookup q <;> rfl

end

/-! ## 3. Usable snapshots -/

/-- What is found under a value has this hash. -/
def StateOf (c : Crypto) (s : AccountStores) (value : H256) : Prop :=
  (∃ st, s.states.get value = .ok st ∧ st.contentHash c = value) ∨
    ∃ d, s.didStates.get value = .ok d ∧ didContentHash c d = value

/-- The leaves have their states, the keys and the accounts can be read, and an export at a header
    with this root is accepted. -/
structure Usable (c : Crypto) (s : AccountStores) (root : H256) : Prop where
  leaves : ∀ key value, LeafAt (base.get s.smt) root key value → StateOf c s value
  keys : ∀ key, ∃ v, Smt.get base s.smt root key = .ok v
  accounts : ∀ spk, ∃ st, readAccountState c base s.states.get s.smt root spk = .ok st
  exports : ∀ order order' block header, s.headers.getHeader block = .ok header →
    header.accountCommitment = root →
    ∃ snapshot, exportAt order order' s block = .ok snapshot ∧ verify c snapshot = .ok ()

/-- The state of every leaf met is listed. -/
def Complete (snapshot : SyncWaveSnapshot) : Prop :=
  ∀ key value, LeafAt snapshot.look snapshot.metadata.accountRoot key value →
    value ∈ snapshot.accountStates.map Prod.fst ∨ value ∈ snapshot.didStates.map Prod.fst

theorem stateOf_iff (hv : Verified c snapshot)
    (h : load put snapshot (.fresh headers) = (.ok (), s)) (value : H256) : StateOf c s value ↔
      value ∈ snapshot.accountStates.map Prod.fst ∨ value ∈ snapshot.didStates.map Prod.fst := by
  unfold StateOf
  rw [states_loaded h, documents_loaded h]
  refine or_congr ⟨?_, fun hm => ?_⟩ ⟨?_, fun hm => ?_⟩
  · rintro ⟨st, hst, _⟩
    cases hl : (ofList snapshot.accountStates).lookup value with
    | none => rw [hl] at hst; cases hst
    | some w => exact mem_map.mpr ⟨(value, w), mem_of_lookup_ofList hl, rfl⟩
  · obtain ⟨w, hw⟩ := exists_lookup_ofList hm
    rw [hw]
    exact ⟨_, rfl, hv.states (value, w) (mem_of_lookup_ofList hw)⟩
  · rintro ⟨d, hd, _⟩
    cases hl : (ofList snapshot.didStates).lookup value with
    | none => rw [hl] at hd; cases hd
    | some w => exact mem_map.mpr ⟨(value, w), mem_of_lookup_ofList hl, rfl⟩
  · obtain ⟨w, hw⟩ := exists_lookup_ofList hm
    rw [hw]
    exact ⟨_, rfl, hv.documents (value, w) (mem_of_lookup_ofList hw)⟩

/-- The account store errors with nothing but a missing key. -/
theorem accounts_of_keys (h : load put snapshot (.fresh headers) = (.ok (), s))
    (hkeys : ∀ key, ∃ v, Smt.get base s.smt root key = .ok v) (spk : ScriptPublicKey) :
    ∃ st, readAccountState c base s.states.get s.smt root spk = .ok st := by
  obtain ⟨v, hv⟩ := hkeys (accountKeyHash c spk)
  unfold readAccountState
  rw [hv]
  cases v with
  | none => exact ⟨.default, rfl⟩
  | some value =>
    have hst := states_loaded h value
    cases hl : (ofList snapshot.accountStates).lookup value with
    | none =>
      rw [hl] at hst
      simp only [mapErr, ok_bind, hst]
      exact ⟨_, rfl⟩
    | some st =>
      rw [hl] at hst
      simp only [mapErr, ok_bind, hst]
      exact ⟨_, rfl⟩

/-- An export of states in which every node has its hash and every leaf its state. -/
theorem exportAt_verified (hall : ∀ h, (treeLinks (base.get s.smt)).Reach root h →
      ∃ n, base.get s.smt h = some n ∧ n.hash c.sponge = h)
    (hst : ∀ value st, s.states.get value = .ok st → st.contentHash c = value)
    (hdoc : ∀ value d, s.didStates.get value = .ok d → didContentHash c d = value)
    (hleaf : ∀ key value, LeafAt (base.get s.smt) root key value → StateOf c s value)
    (order order' : IterOrder H256 SyncWaveNode) {block : Hash} {header : Header}
    (hh : s.headers.getHeader block = .ok header) (hroot : header.accountCommitment = root) :
    ∃ snapshot, exportAt order order' s block = .ok snapshot ∧ verify c snapshot = .ok () := by
  -- the walk from the root collects what can be reached
  obtain ⟨nodes, hnodes⟩ :
      ∃ nodes, collectSmtNodes (base.get s.smt) (s.smt.names.length + 1) root ∅ = .ok nodes := by
    rw [collectSmtNodes_eq]
    refine Links.walk_ok (U := s.smt.names.toFinset) (fun k hk => ?_) ?_
    · obtain ⟨n, hn, _⟩ := hall k hk
      exact ⟨mem_toFinset.mpr (mem_names hn), isSome_iff_exists.mpr ⟨n, hn⟩⟩
    · exact Nat.lt_succ_of_le (le_trans (Finset.card_filter_le _ _) (toFinset_card_le _))
  have hwalk := hnodes
  rw [collectSmtNodes_eq] at hwalk
  obtain ⟨hmem, hnote⟩ := Links.walk_seen hwalk
  -- and the loop over it finds the states
  obtain ⟨states, docs, hstates, hs₁, hs₂⟩ :=
    exportStates_ok (order.order nodes.pairs) [] [] fun h key value hm => by
      have hl := mem_pairs.mp ((order.perm _).mem_iff.mp hm)
      obtain ⟨n, hn, he⟩ := hnote hl
      have hleafn : n = .leaf key value := by
        rw [← toSmt_ofSmt n, ← he]
        rfl
      have hr := (hmem h).mp (AList.lookup_isSome.mp (isSome_iff_exists.mpr ⟨_, hl⟩))
      rcases hleaf key value ⟨h, hr, hleafn ▸ hn⟩ with ⟨st, h₁, _⟩ | ⟨d, h₁, _⟩
      · exact .inl ⟨st, h₁⟩
      · exact .inr ⟨d, h₁⟩
  have hfound : ∀ {h w}, nodes.lookup h = some w → ∃ n, base.get s.smt h = some n ∧
      w = .ofSmt n ∧ n.hash c.sponge = h := by
    intro h w hw
    obtain ⟨n, hn, he⟩ := hnote hw
    obtain ⟨m, hm, hhash⟩ :=
      hall h ((hmem h).mp (AList.lookup_isSome.mp (isSome_iff_exists.mpr ⟨_, hw⟩)))
    obtain rfl := some.inj (hm.symm.trans hn)
    exact ⟨m, hm, he, hhash⟩
  refine ⟨assemble block header nodes.entries.length (order'.order nodes.pairs) states docs, ?_,
    verify_iff.mpr ?_⟩
  · unfold exportAt
    rw [hh]
    dsimp only
    rw [hroot]
    exact bind_eq_ok.mpr ⟨nodes, hnodes, bind_eq_ok.mpr ⟨_, hstates, rfl⟩⟩
  -- the nodes listed are those of the store, as far as the root leads
  have hlook : ∀ h, (assemble block header nodes.entries.length (order'.order nodes.pairs) states
      docs).look h = (nodes.lookup h).map toSmt := fun h =>
    congrArg (Option.map toSmt) (lookup_ofList_perm (order'.perm _) h)
  have hagree : ∀ h, (treeLinks (base.get s.smt)).Reach root h →
      (assemble block header nodes.entries.length (order'.order nodes.pairs) states docs).look h =
        base.get s.smt h := by
    intro h hr
    obtain ⟨w, hw⟩ := isSome_iff_exists.mp (AList.lookup_isSome.mpr ((hmem h).mpr hr))
    obtain ⟨n, hn, rfl, _⟩ := hfound hw
    rw [hlook, hw, hn, map_some, toSmt_ofSmt]
  have hmet : ∀ h, (assemble block header nodes.entries.length (order'.order nodes.pairs) states
      docs).Met h ↔ (treeLinks (base.get s.smt)).Reach root h := fun h => by
    show (treeLinks _).Reach header.accountCommitment h ↔ _
    rw [hroot]
    refine Links.reach_iff ?_ ?_ hagree h
    · rfl
    · rfl
  refine ⟨fun e he => ?_, fun h hh => ?_, fun l hl hiff => ?_, fun e he => ?_, fun e he => ?_⟩
  · obtain ⟨n, _, he', hhash⟩ := hfound (mem_pairs.mp ((order'.perm _).mem_iff.mp he))
    rw [he', hash_ofSmt, hhash]
  · obtain ⟨n, hn, _⟩ := hall h ((hmet h).mp hh)
    rw [hagree h ((hmet h).mp hh), hn]
    rfl
  · rw [length_entries]
    congr 1
    exact length_eq_of_mem_iff hl nodes.keys_nodup fun h =>
      (hiff h).trans ((hmet h).trans (hmem h).symm)
  · obtain ⟨st, hget, he'⟩ := (hs₁ e he).resolve_left not_mem_nil
    rw [he', contentHash_roundTrip, hst _ _ hget]
  · obtain ⟨d, hget, he'⟩ := (hs₂ e he).resolve_left not_mem_nil
    rw [he']
    exact hdoc _ _ hget

/-- **A verified snapshot is usable** exactly if the state of every leaf met is listed and no path
    from the root has more than 256 branches. -/
theorem usable_iff (hv : verify c snapshot = .ok ())
    (hl : load put snapshot (.fresh headers) = (.ok (), s)) :
    Usable c s snapshot.metadata.accountRoot ↔
      Complete snapshot ∧ Shallow snapshot.look snapshot.metadata.accountRoot := by
  have hv := verify_iff.mp hv
  have hlook : base.get s.smt = snapshot.look := funext (look_loaded hl)
  have hall : ∀ h, (treeLinks (base.get s.smt)).Reach snapshot.metadata.accountRoot h →
      (base.get s.smt h).isSome := by
    rw [hlook]
    exact hv.listed
  constructor
  · intro h
    refine ⟨fun key value hleaf => ?_, ?_⟩
    · rw [← hlook] at hleaf
      exact (stateOf_iff hv hl value).mp (h.leaves key value hleaf)
    · rw [← hlook]
      exact (get_ok_iff hall).mp h.keys
  · rintro ⟨hcomplete, hshallow⟩
    have hleaves : ∀ key value, LeafAt (base.get s.smt) snapshot.metadata.accountRoot
        key value → StateOf c s value := by
      intro key value hleaf
      rw [hlook] at hleaf
      exact (stateOf_iff hv hl value).mpr (hcomplete key value hleaf)
    have hkeys := (get_ok_iff hall).mpr (hlook ▸ hshallow)
    refine ⟨hleaves, hkeys, accounts_of_keys hl hkeys, fun order order' block header hh hroot => ?_⟩
    refine exportAt_verified (fun h hr => ?_) (fun value st hst => ?_)
      (fun value d hd => ?_) hleaves order order' hh hroot
    · obtain ⟨n, hn⟩ := isSome_iff_exists.mp (hall h hr)
      refine ⟨n, hn, ?_⟩
      rw [hlook, SyncWaveSnapshot.look, map_eq_some_iff] at hn
      obtain ⟨w, hw, rfl⟩ := hn
      rw [hash_toSmt]
      exact hv.hashes (h, w) (mem_of_lookup_ofList hw)
    · rw [states_loaded hl] at hst
      cases hw : (ofList snapshot.accountStates).lookup value with
      | none => rw [hw] at hst; cases hst
      | some w =>
        rw [hw] at hst
        cases hst
        exact hv.states (value, w) (mem_of_lookup_ofList hw)
    · rw [documents_loaded hl] at hd
      cases hw : (ofList snapshot.didStates).lookup value with
      | none => rw [hw] at hd; cases hd
      | some w =>
        rw [hw] at hd
        cases hd
        exact hv.documents (value, w) (mem_of_lookup_ofList hw)

end Loaded

/-! ## 4. Two leaves -/

/-- The states of the two accounts, and the nodes of their tree. -/
def leftState : AccountState := ⟨7, []⟩

def rightState : AccountState := ⟨8, []⟩

def leftLeaf : SyncWaveNode := .leaf (.ofNat 3) (leftState.contentHash toyCrypto)

def rightLeaf : SyncWaveNode := .leaf (.ofNat 128) (rightState.contentHash toyCrypto)

def bothLeaves : SyncWaveNode :=
  .branch (leftLeaf.hash toyCrypto.sponge) (rightLeaf.hash toyCrypto.sponge)

def pairNodes : List (H256 × SyncWaveNode) :=
  [bothLeaves, leftLeaf, rightLeaf].map fun n => (n.hash toyCrypto.sponge, n)

def pairRoot : H256 := bothLeaves.hash toyCrypto.sponge

variable (states : List AccountState)

def listStates : List (Hash × SyncWaveState) :=
  states.map fun st => (st.contentHash toyCrypto, toSyncState st)

/-- A snapshot of this tree with some account states listed. -/
def pairSnapshot : SyncWaveSnapshot where
  metadata := ⟨.ofNat 1, 0, pairRoot, 3, UInt64.ofNat states.length, 0, 2048, 1⟩
  smtNodes := pairNodes
  accountStates := listStates states
  didStates := []

def pairHeaders : DbHeadersStore where
  compact := CachedDbAccess.new.write (.ok ()) (.ofNat 1) (.ofHeader (rootHeader pairRoot))
  headers := CachedDbAccess.new.write (.ok ()) (.ofNat 1) (rootHeader pairRoot)
  fallback := ∅

def pairLoaded : AccountStores :=
  (pairSnapshot states).entries.foldl (insertSync (.ok ())) (.fresh pairHeaders)

theorem pairSnapshot_complete : Complete (pairSnapshot [leftState, rightState]) := by
  rintro key value ⟨h, _, hleaf⟩
  obtain ⟨w, hw, hsmt⟩ := map_eq_some_iff.mp hleaf
  obtain ⟨n, hn, he⟩ := mem_map.mp (mem_of_lookup_ofList hw)
  cases he
  refine .inl ?_
  rcases mem_cons.mp hn with rfl | hn
  · cases hsmt
  · rcases mem_cons.mp hn with rfl | hn
    · cases hsmt
      exact mem_cons_self
    · obtain rfl := mem_singleton.mp hn
      cases hsmt
      exact mem_cons_of_mem _ mem_cons_self

theorem pairSnapshot_shallow : Shallow (pairSnapshot [leftState, rightState]).look pairRoot := by
  have hroot : (pairSnapshot [leftState, rightState]).look pairRoot = some bothLeaves.toSmt := by
    decide +kernel
  have hleft : (pairSnapshot [leftState, rightState]).look (leftLeaf.hash toyCrypto.sponge) =
      some leftLeaf.toSmt := by decide +kernel
  have hright : (pairSnapshot [leftState, rightState]).look (rightLeaf.hash toyCrypto.sponge) =
      some rightLeaf.toSmt := by decide +kernel
  intro bits hlen left right hd
  rcases bits with _ | ⟨b, _ | ⟨b', bits⟩⟩
  · simp [treeDepth] at hlen
  · simp [treeDepth] at hlen
  rw [descend, if_neg (by decide +kernel), hroot] at hd
  cases b with
  | false =>
    change descend _ (leftLeaf.hash toyCrypto.sponge) (b' :: bits) = _ at hd
    rw [descend, if_neg (by decide +kernel), hleft] at hd
    cases hd
  | true =>
    change descend _ (rightLeaf.hash toyCrypto.sponge) (b' :: bits) = _ at hd
    rw [descend, if_neg (by decide +kernel), hright] at hd
    cases hd

/-- **`verify` does not ask for the states.** The snapshot of two leaves that lists one state is
    accepted and loaded, and an export fails. -/
theorem bare_unusable : verify toyCrypto (pairSnapshot [leftState]) = .ok () ∧
    load (fun _ => .ok ()) (pairSnapshot [leftState]) (.fresh pairHeaders) =
      (.ok (), pairLoaded [leftState]) ∧ ¬ Usable toyCrypto (pairLoaded [leftState]) pairRoot ∧
    exportAt (.asListed _ _) (.asListed _ _) (pairLoaded [leftState]) (.ofNat 1) =
      .fail (.missingNode (rightState.contentHash toyCrypto)) := by
  have hfail : exportAt (.asListed _ _) (.asListed _ _) (pairLoaded [leftState]) (.ofNat 1) =
      .fail (.missingNode (rightState.contentHash toyCrypto)) := by decide +kernel
  refine ⟨by decide +kernel, rfl, fun h => ?_, hfail⟩
  obtain ⟨_, hok, _⟩ := h.exports _ _ (.ofNat 1) (rootHeader pairRoot) rfl rfl
  cases hfail.symm.trans hok

theorem listed_usable : verify toyCrypto (pairSnapshot [leftState, rightState]) = .ok () ∧
    Usable toyCrypto (pairLoaded [leftState, rightState]) pairRoot := by
  have hv : verify toyCrypto (pairSnapshot [leftState, rightState]) = .ok () := by decide +kernel
  have hl : load (fun _ => .ok ()) (pairSnapshot [leftState, rightState]) (.fresh pairHeaders) =
      (.ok (), pairLoaded [leftState, rightState]) := rfl
  exact ⟨hv, (usable_iff hv hl).mpr ⟨pairSnapshot_complete, pairSnapshot_shallow⟩⟩

end Sahyadri.Sync
