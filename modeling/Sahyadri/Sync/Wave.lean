import Sahyadri.Store.Gc

/-!
# `sync_wave`: exporting, verifying and loading a snapshot of the account state

* `SyncWaveSnapshot`: tree nodes, account states and DID documents, each under the hash it is listed
  with, and metadata.
-/

namespace Sahyadri.Sync

open Lib Smt Core Account Did Store List AccountState Table CachedDbAccess Run

/-! ## 1. Snapshots -/

/-- `SyncWaveError`. The last one is not of the source: a walk was not given steps enough. -/
inductive SyncWaveError where
  | store (e : StoreError)
  | headerNotFound (block : Hash)
  | missingNode (h : H256)
  | rootMismatch (expected computed : Hash)
  | nodeCountMismatch (declared actual : UInt64)
  | nodeHashMismatch (h : H256)
  | stateHashMismatch (h : Hash)
  | danglingReference (h : H256)
  | outOfSteps
  deriving DecidableEq, Repr

inductive SyncWaveNode where
  | leaf (key value : H256)
  | branch (left right : H256)
  deriving DecidableEq, Repr

namespace SyncWaveNode

def hash (σ : Sponge) : SyncWaveNode → H256
  | .leaf key value => hashLeaf σ key value
  | .branch left right => hashBranch σ left right

def toSmt : SyncWaveNode → Node
  | .leaf key value => .leaf key value
  | .branch left right => .branch left right

def ofSmt : Node → SyncWaveNode
  | .leaf key value => .leaf key value
  | .branch left right => .branch left right

@[simp] theorem toSmt_ofSmt (n : Node) : (ofSmt n).toSmt = n := by cases n <;> rfl

theorem hash_toSmt (σ : Sponge) (n : SyncWaveNode) : n.toSmt.hash σ = n.hash σ := by cases n <;> rfl

theorem hash_ofSmt (σ : Sponge) (n : Node) : (ofSmt n).hash σ = n.hash σ := by cases n <;> rfl

end SyncWaveNode

structure SyncWaveFlashEntry where
  flashId : Hash
  expiryDaaScore : UInt64
  deriving DecidableEq, Repr

structure SyncWaveState where
  balance : UInt64
  recentFlashes : List SyncWaveFlashEntry
  deriving DecidableEq, Repr

structure SyncWaveDidState where
  did : String
  csmAddress : String
  publicKey : String
  document : String
  purposes : List String
  services : List String
  active : Bool
  createdAt : UInt64
  updatedAt : UInt64
  version : UInt64
  deriving DecidableEq, Repr

structure SyncWaveMetadata where
  blockHash : Hash
  blockHeight : UInt64
  accountRoot : Hash
  totalSmtNodes : UInt64
  totalAccounts : UInt64
  totalDidStates : UInt64
  chunkSize : UInt32
  totalChunks : UInt32
  deriving DecidableEq, Repr

structure SyncWaveSnapshot where
  metadata : SyncWaveMetadata
  smtNodes : List (H256 × SyncWaveNode)
  accountStates : List (Hash × SyncWaveState)
  didStates : List (Hash × SyncWaveDidState)
  deriving DecidableEq, Repr

def toSyncState (s : AccountState) : SyncWaveState :=
  ⟨s.balance, s.recentFlashes.map fun f => ⟨f.flashId, f.expiryDaaScore⟩⟩

def fromSyncState (s : SyncWaveState) : AccountState :=
  ⟨s.balance, s.recentFlashes.map fun f => ⟨f.flashId, f.expiryDaaScore, Hash.default⟩⟩

def toSyncDidState (d : DidDocument) : SyncWaveDidState where
  did := d.did
  csmAddress := d.csmAddress
  publicKey := d.publicKey
  document := d.document
  purposes := d.purposes
  services := d.services
  active := d.active
  createdAt := d.createdAt
  updatedAt := d.updatedAt
  version := d.version

def fromSyncDidState (s : SyncWaveDidState) : DidDocument where
  did := s.did
  csmAddress := s.csmAddress
  publicKey := s.publicKey
  document := s.document
  purposes := s.purposes
  services := s.services
  active := s.active
  createdAt := s.createdAt
  updatedAt := s.updatedAt
  version := s.version

/-- A state keeps its hash on the way: the block hashes it loses are not hashed. -/
theorem contentHash_roundTrip (c : Crypto) (s : AccountState) :
    (fromSyncState (toSyncState s)).contentHash c = s.contentHash c := by
  let f : FlashEntry → FlashEntry := fun e => ⟨e.flashId, e.expiryDaaScore, Hash.default⟩
  have hlist : (fromSyncState (toSyncState s)).recentFlashes = s.recentFlashes.map f := by
    simp only [fromSyncState, toSyncState, map_map]
    rfl
  have hsort :
      (s.recentFlashes.map f).insertionSort idLe = (s.recentFlashes.insertionSort idLe).map f :=
    (map_insertionSort idLe idLe f _ fun _ _ _ _ => Iff.rfl).symm
  have hbytes : (fromSyncState (toSyncState s)).toCanonicalBytes = s.toCanonicalBytes := by
    simp only [toCanonicalBytes, hlist, hsort, length_map, flatMap_map]
    rfl
  simp only [contentHash, preimage, hbytes]

/-! ## 2. Verifying -/

section Verify

variable (c : Crypto)

/-- The first loop of `verify`: the hash of every node is checked and the node is indexed. -/
def indexNodes : List (H256 × SyncWaveNode) → Table H256 SyncWaveNode →
      Run SyncWaveError (Table H256 SyncWaveNode)
  | [], index => .ok index
  | (h, node) :: rest, index =>
    if node.hash c.sponge ≠ h then .fail (.nodeHashMismatch h)
    else indexNodes rest (index.insert h node)

def walkAndCheck (index : Table H256 SyncWaveNode) :
    Nat → H256 → Table H256 Unit → Run SyncWaveError (Table H256 Unit)
  | 0, _, _ => .fail .outOfSteps
  | fuel + 1, h, visited =>
    if h = .empty then .ok visited
    else if h ∈ visited then .ok visited
    else
      match index.lookup h with
      | none => .fail (.danglingReference h)
      | some (.leaf _ _) => .ok (visited.insert h ())
      | some (.branch left right) => do
        let visited ← walkAndCheck index fuel left (visited.insert h ())
        walkAndCheck index fuel right visited

/-- A loop that checks the hashes of the states listed. -/
def checkHashes {α : Type} (hash : α → Hash) : List (Hash × α) → Run SyncWaveError Unit
  | [] => .ok ()
  | (h, a) :: rest => if hash a ≠ h then .fail (.stateHashMismatch h) else checkHashes hash rest

variable (snapshot : SyncWaveSnapshot)

def verify : Run SyncWaveError Unit := do
  let root := snapshot.metadata.accountRoot
  let index ← indexNodes c snapshot.smtNodes ∅
  let visited ← walkAndCheck index (index.entries.length + 1) root ∅
  let actual := UInt64.ofNat visited.entries.length
  if actual ≠ snapshot.metadata.totalSmtNodes then
    .fail (.nodeCountMismatch snapshot.metadata.totalSmtNodes actual)
  else
    -- the root that was walked from is compared with itself
    let computed := root
    if computed ≠ snapshot.metadata.accountRoot then
      .fail (.rootMismatch snapshot.metadata.accountRoot computed)
    else do
      checkHashes (fun s => (fromSyncState s).contentHash c) snapshot.accountStates
      checkHashes (fun s => didContentHash c (fromSyncDidState s)) snapshot.didStates

def SyncWaveSnapshot.look (h : H256) : Option Node :=
  ((ofList snapshot.smtNodes).lookup h).map SyncWaveNode.toSmt

/-- The hashes met from the root along the nodes listed. -/
def SyncWaveSnapshot.Met (h : H256) : Prop :=
  (treeLinks snapshot.look).Reach snapshot.metadata.accountRoot h

/-- What `verify` accepts. -/
structure Verified : Prop where
  hashes : ∀ e ∈ snapshot.smtNodes, e.2.hash c.sponge = e.1
  listed : ∀ h, snapshot.Met h → (snapshot.look h).isSome
  counted : ∀ l : List H256, l.Nodup → (∀ h, h ∈ l ↔ snapshot.Met h) →
    UInt64.ofNat l.length = snapshot.metadata.totalSmtNodes
  states : ∀ e ∈ snapshot.accountStates, (fromSyncState e.2).contentHash c = e.1
  documents : ∀ e ∈ snapshot.didStates, didContentHash c (fromSyncDidState e.2) = e.1

theorem indexNodes_ok {c : Crypto} : ∀ {l : List (H256 × SyncWaveNode)}
    {t index : Table H256 SyncWaveNode}, indexNodes c l t = .ok index ↔
      (∀ e ∈ l, e.2.hash c.sponge = e.1) ∧ index = l.foldl (fun t e => t.insert e.1 e.2) t
  | [], t, index => by
    simp only [indexNodes, Except.ok.injEq, not_mem_nil, false_implies, implies_true, true_and,
      foldl_nil]
    exact eq_comm
  | (h, node) :: rest, t, index => by
    unfold indexNodes
    by_cases hh : node.hash c.sponge = h
    · rw [if_neg (not_not.mpr hh), indexNodes_ok, forall_mem_cons]
      exact ⟨fun ⟨h₁, h₂⟩ => ⟨⟨hh, h₁⟩, h₂⟩, fun ⟨⟨_, h₁⟩, h₂⟩ => ⟨h₁, h₂⟩⟩
    · rw [if_pos hh]
      refine ⟨fun he => (by cases he), fun ⟨hall, _⟩ => ?_⟩
      exact absurd (hall (h, node) mem_cons_self) hh

theorem checkHashes_ok {α : Type} {hash : α → Hash} : ∀ {l : List (Hash × α)},
    checkHashes hash l = .ok () ↔ ∀ e ∈ l, hash e.2 = e.1
  | [] => by simp [checkHashes]
  | (h, a) :: rest => by
    unfold checkHashes
    by_cases hh : hash a = h
    · rw [if_neg (not_not.mpr hh), checkHashes_ok, forall_mem_cons]
      exact ⟨fun h₁ => ⟨hh, h₁⟩, fun h₁ => h₁.2⟩
    · rw [if_pos hh]
      refine ⟨fun he => (by cases he), fun hall => ?_⟩
      exact absurd (hall (h, a) mem_cons_self) hh

/-- The walk of `verify` is the walk of the library on the nodes indexed. -/
theorem walkAndCheck_eq (index : Table H256 SyncWaveNode) : ∀ (fuel : Nat) (h : H256)
    (visited : Table H256 Unit), walkAndCheck index fuel h visited =
      (treeLinks fun h => (index.lookup h).map SyncWaveNode.toSmt).walk (fun _ => ())
        SyncWaveError.danglingReference .outOfSteps fuel h visited
  | 0, _, _ => rfl
  | fuel + 1, h, visited => by
    unfold walkAndCheck Links.walk
    by_cases he : h = .empty
    · rw [if_pos he, if_pos (skip_treeLinks.mpr he)]
    rw [if_neg he, if_neg (mt skip_treeLinks.mp he)]
    by_cases hv : h ∈ visited
    · rw [if_pos hv, if_pos hv]
    rw [if_neg hv, if_neg hv]
    have hlook : (treeLinks fun h => (index.lookup h).map SyncWaveNode.toSmt).look h =
        (index.lookup h).map SyncWaveNode.toSmt := rfl
    rw [hlook]
    cases index.lookup h with
    | none => rfl
    | some n =>
      cases n with
      | leaf key value => rfl
      | branch left right =>
        show (do
          let visited ← walkAndCheck index fuel left (visited.insert h ())
          walkAndCheck index fuel right visited) = _
        rw [walkAndCheck_eq index fuel left]
        simp only [walkAndCheck_eq index fuel right]
        simp only [SyncWaveNode.toSmt, treeLinks, kids, Option.map_some, foldlM_cons, foldlM_nil,
          bind_pure]

theorem length_eq_of_mem_iff {l l' : List H256} (h : l.Nodup) (h' : l'.Nodup)
    (hiff : ∀ x, x ∈ l ↔ x ∈ l') : l.length = l'.length :=
  ((perm_ext_iff_of_nodup h h').mpr hiff).length_eq

theorem length_entries {ν : Type} (t : Table H256 ν) : t.entries.length = t.keys.length :=
  (length_map _).symm

/-- **What `verify` accepts.** -/
theorem verify_iff {c : Crypto} {snapshot : SyncWaveSnapshot} :
    verify c snapshot = .ok () ↔ Verified c snapshot := by
  constructor
  · intro h
    obtain ⟨index, hindex, h₁⟩ := bind_eq_ok.mp h
    obtain ⟨hhash, rfl⟩ := indexNodes_ok.mp hindex
    obtain ⟨visited, hwalk, h₂⟩ := bind_eq_ok.mp h₁
    dsimp only at h₂
    rw [if_neg (not_not.mpr rfl)] at h₂
    split at h₂
    · cases h₂
    rename_i hcount
    obtain ⟨u, hstates, hdocs⟩ := bind_eq_ok.mp h₂
    rw [walkAndCheck_eq] at hwalk
    obtain ⟨hmem, hlook⟩ := Links.walk_seen hwalk
    have hmet : ∀ h, h ∈ visited.keys ↔ snapshot.Met h := hmem
    refine ⟨hhash, fun h hh => ?_, fun l hl hiff => ?_, checkHashes_ok.mp hstates,
      checkHashes_ok.mp hdocs⟩
    · obtain ⟨w, hw⟩ := Option.isSome_iff_exists.mp (AList.lookup_isSome.mpr ((hmem h).mpr hh))
      obtain ⟨n, hn, _⟩ := hlook hw
      exact Option.isSome_iff_exists.mpr ⟨n, hn⟩
    · rw [← not_not.mp hcount, length_entries]
      congr 1
      exact length_eq_of_mem_iff hl visited.keys_nodup fun h => (hiff h).trans (hmet h).symm
  · intro h
    have hindex := indexNodes_ok.mpr ⟨h.hashes, (rfl : ofList snapshot.smtNodes = _)⟩
    obtain ⟨visited, hwalk⟩ : ∃ visited, walkAndCheck (ofList snapshot.smtNodes)
        ((ofList snapshot.smtNodes).entries.length + 1) snapshot.metadata.accountRoot ∅ =
        .ok visited := by
      simp only [walkAndCheck_eq]
      refine Links.walk_ok (U := (ofList snapshot.smtNodes).keys.toFinset) (fun k hk => ?_) ?_
      · have hk' := h.listed k hk
        refine ⟨mem_toFinset.mpr ?_, hk'⟩
        rw [SyncWaveSnapshot.look, Option.isSome_map] at hk'
        exact AList.lookup_isSome.mp hk'
      · refine Nat.lt_succ_of_le (Nat.le_trans (Finset.card_filter_le _ _) ?_)
        rw [length_entries]
        exact toFinset_card_le _
    have hcount : UInt64.ofNat visited.entries.length = snapshot.metadata.totalSmtNodes := by
      have hwalk' := hwalk
      rw [walkAndCheck_eq] at hwalk'
      rw [length_entries]
      exact h.counted visited.keys visited.keys_nodup (Links.walk_seen hwalk').1
    refine bind_eq_ok.mpr ⟨_, hindex, bind_eq_ok.mpr ⟨visited, hwalk, ?_⟩⟩
    rw [if_neg (not_not.mpr hcount), if_neg (not_not.mpr rfl)]
    exact bind_eq_ok.mpr ⟨(), checkHashes_ok.mpr h.states, checkHashes_ok.mpr h.documents⟩

end Verify

/-! ## 3. Loading -/

/-- What one insert of `load` writes. -/
inductive Entry where
  | node (h : H256) (n : Node)
  | state (h : Hash) (s : AccountState)
  | document (h : Hash) (d : DidDocument)
  | root (block : Hash) (r : H256)
  deriving DecidableEq, Repr

/-- `insert_sync` of the store that the entry is for. -/
def insertSync (put : Except StoreError Unit) (s : AccountStores) : Entry → AccountStores
  | .node h n => { s with smt := s.smt.insertSync put h n }
  | .state h st => { s with states := ⟨s.states.access.write put h st⟩ }
  | .document h d => { s with didStates := ⟨s.didStates.access.write put h d⟩ }
  | .root block r => { s with roots := ⟨s.roots.access.write put block r⟩ }

/-- The inserts of `load` in their order: nodes, account states, documents, and the root. -/
def SyncWaveSnapshot.entries (snapshot : SyncWaveSnapshot) : List Entry :=
  snapshot.smtNodes.map (fun e => .node e.1 e.2.toSmt) ++
    (snapshot.accountStates.map (fun e => .state e.1 (fromSyncState e.2)) ++
      (snapshot.didStates.map (fun e => .document e.1 (fromSyncDidState e.2)) ++
        [.root snapshot.metadata.blockHash snapshot.metadata.accountRoot]))

/-- The inserts one after the other; `put i` is the answer of the database to the `i`-th. -/
def loadEntries (put : Nat → Except StoreError Unit) :
    Nat → List Entry → AccountStores → Except SyncWaveError Unit × AccountStores
  | _, [], s => (.ok (), s)
  | i, e :: rest, s =>
    match put i with
    | .ok _ => loadEntries put (i + 1) rest (insertSync (.ok ()) s e)
    | .error err => (.error (.store err), insertSync (.error err) s e)

def load (put : Nat → Except StoreError Unit) (snapshot : SyncWaveSnapshot) (s : AccountStores) :
    Except SyncWaveError Unit × AccountStores := loadEntries put 0 snapshot.entries s

theorem loadEntries_ok {put : Nat → Except StoreError Unit} : ∀ {es : List Entry} {i : Nat}
    {s s' : AccountStores}, loadEntries put i es s = (.ok (), s') →
    s' = es.foldl (insertSync (.ok ())) s
  | [], _, _, _, h => (Prod.mk.inj h).2.symm
  | e :: es, i, s, s', h => by
    unfold loadEntries at h
    split at h
    · rw [foldl_cons]
      exact loadEntries_ok h
    · cases (Prod.mk.inj h).1

/-- One of the stores: how it is read, and which entries are for it. -/
structure Column (κ ν ρ : Type) [DecidableEq κ] where
  read : AccountStores → κ → ρ
  pick : Entry → Option (κ × ν)
  val : ν → ρ
  step : ∀ put s e q, read (insertSync put s e) q =
    match pick e with
    | some (k, v) => if q = k then val v else read s q
    | none => read s q

/-- After inserts into any of the stores, a store is read as its last entry of the key. -/
theorem Column.read_foldl {κ ν ρ : Type} [DecidableEq κ] (C : Column κ ν ρ)
    (put : Except StoreError Unit) (es : List Entry) (s : AccountStores) (q : κ) :
    C.read (es.foldl (insertSync put) s) q =
      match (ofList (es.filterMap C.pick)).lookup q with
      | some v => C.val v
      | none => C.read s q := by
  induction es using reverseRecOn with
  | nil => rfl
  | append_singleton es e ih =>
    rw [foldl_append, foldl_cons, foldl_nil, C.step, filterMap_append]
    cases hp : C.pick e with
    | none =>
      rw [filterMap_cons_none hp, filterMap_nil, append_nil]
      exact ih
    | some kv =>
      obtain ⟨k, v⟩ := kv
      rw [filterMap_cons_some hp, filterMap_nil, lookup_ofList_concat]
      dsimp only
      by_cases hq : q = k
      · rw [if_pos hq, if_pos hq]
      · rw [if_neg hq, if_neg hq]
        exact ih

def nodeColumn : Column H256 Node (Except StoreError (Option Node)) where
  read s := s.smt.get
  pick
    | .node h n => some (h, n)
    | _ => none
  val n := .ok (some n)
  step put s e q := by
    cases e with
    | node h n => exact s.smt.get_insertSync h n q
    | _ => rfl

def stateColumn : Column Hash AccountState (Except StoreError AccountState) where
  read s := s.states.get
  pick
    | .state h st => some (h, st)
    | _ => none
  val := .ok
  step put s e q := by
    cases e with
    | state h st => exact read_write q
    | _ => rfl

def documentColumn : Column Hash DidDocument (Except StoreError DidDocument) where
  read s := s.didStates.get
  pick
    | .document h d => some (h, d)
    | _ => none
  val := .ok
  step put s e q := by
    cases e with
    | document h d => exact read_write q
    | _ => rfl

def rootColumn : Column Hash H256 (Except StoreError H256) where
  read s := s.roots.get
  pick
    | .root block r => some (block, r)
    | _ => none
  val := .ok
  step put s e q := by
    cases e with
    | root block r => exact read_write q
    | _ => rfl

theorem headers_insertSync (put : Except StoreError Unit) (es : List Entry) (s : AccountStores) :
    (es.foldl (insertSync put) s).headers = s.headers := by
  induction es generalizing s with
  | nil => rfl
  | cons e es ih =>
    rw [foldl_cons, ih]
    cases e <;> rfl

/-! ## 4. Exporting -/

def collectSmtNodes (get : H256 → Option Node) :
    Nat → H256 → Table H256 SyncWaveNode → Run SyncWaveError (Table H256 SyncWaveNode)
  | 0, _, _ => .fail .outOfSteps
  | fuel + 1, h, out =>
    if h = .empty then .ok out
    else if h ∈ out then .ok out
    else
      match get h with
      | none => .fail (.missingNode h)
      | some (.leaf key value) => .ok (out.insert h (.leaf key value))
      | some (.branch left right) => do
        let out ← collectSmtNodes get fuel left (out.insert h (.branch left right))
        collectSmtNodes get fuel right out

theorem collectSmtNodes_eq (get : H256 → Option Node) : ∀ (fuel : Nat) (h : H256)
    (out : Table H256 SyncWaveNode), collectSmtNodes get fuel h out =
      (treeLinks get).walk SyncWaveNode.ofSmt SyncWaveError.missingNode .outOfSteps fuel h out
  | 0, _, _ => rfl
  | fuel + 1, h, out => by
    unfold collectSmtNodes Links.walk
    by_cases he : h = .empty
    · rw [if_pos he, if_pos (skip_treeLinks.mpr he)]
    rw [if_neg he, if_neg (mt skip_treeLinks.mp he)]
    by_cases ho : h ∈ out
    · rw [if_pos ho, if_pos ho]
    rw [if_neg ho, if_neg ho]
    have hlook : (treeLinks get).look h = get h := rfl
    rw [hlook]
    cases get h with
    | none => rfl
    | some n =>
      cases n with
      | leaf key value => rfl
      | branch left right =>
        show (do
          let out ← collectSmtNodes get fuel left (out.insert h (.branch left right))
          collectSmtNodes get fuel right out) = _
        rw [collectSmtNodes_eq get fuel left]
        simp only [collectSmtNodes_eq get fuel right]
        simp only [SyncWaveNode.ofSmt, treeLinks, kids, foldlM_cons, foldlM_nil, bind_pure]

def exportStates (s : AccountStores) : List (H256 × SyncWaveNode) → List (Hash × SyncWaveState) →
    List (Hash × SyncWaveDidState) →
    Run SyncWaveError (List (Hash × SyncWaveState) × List (Hash × SyncWaveDidState))
  | [], states, docs => .ok (states, docs)
  | (_, .branch _ _) :: rest, states, docs => exportStates s rest states docs
  | (_, .leaf _ value) :: rest, states, docs =>
    match s.states.get value with
    | .ok state => exportStates s rest (states ++ [(value, toSyncState state)]) docs
    | .error _ =>
      match s.didStates.get value with
      | .ok doc => exportStates s rest states (docs ++ [(value, toSyncDidState doc)])
      | .error _ => .fail (.missingNode value)

def defaultChunkSize : UInt32 := 2048

def divCeil (a b : UInt32) : UInt32 := if a % b > 0 then a / b + 1 else a / b

/-- The last part of `export`: the counts and the snapshot. -/
def assemble (block : Hash) (header : Header) (count : Nat) (nodes : List (H256 × SyncWaveNode))
    (states : List (Hash × SyncWaveState)) (docs : List (Hash × SyncWaveDidState)) :
    SyncWaveSnapshot :=
  let totalSmtNodes := UInt64.ofNat count
  let totalAccounts := UInt64.ofNat states.length
  let totalDidStates := UInt64.ofNat docs.length
  let chunkSize := defaultChunkSize
  let totalChunks := divCeil (totalSmtNodes + totalAccounts + totalDidStates).toUInt32 chunkSize
  { metadata :=
      { blockHash := block
        blockHeight := header.blueScore
        accountRoot := header.accountCommitment
        totalSmtNodes := totalSmtNodes
        totalAccounts := totalAccounts
        totalDidStates := totalDidStates
        chunkSize := chunkSize
        totalChunks := totalChunks }
    smtNodes := nodes
    accountStates := states
    didStates := docs }

/-- `export`. The map of nodes is iterated twice. -/
def exportAt (order order' : IterOrder H256 SyncWaveNode) (s : AccountStores) (block : Hash) :
    Run SyncWaveError SyncWaveSnapshot :=
  match s.headers.getHeader block with
  | .error _ => .fail (.headerNotFound block)
  | .ok header => do
    let root := header.accountCommitment
    let nodes ← collectSmtNodes (DbSmtNodeStore.base.get s.smt) (s.smt.names.length + 1) root ∅
    let (states, docs) ← exportStates s (order.order nodes.pairs) [] []
    return assemble block header nodes.entries.length (order'.order nodes.pairs) states docs

/-- What the loop over the nodes collects, when every leaf has a state. -/
theorem exportStates_ok {s : AccountStores} : ∀ (l : List (H256 × SyncWaveNode))
    (states : List (Hash × SyncWaveState)) (docs : List (Hash × SyncWaveDidState)),
    (∀ h key value, (h, SyncWaveNode.leaf key value) ∈ l →
      (∃ st, s.states.get value = .ok st) ∨ ∃ d, s.didStates.get value = .ok d) →
    ∃ states' docs', exportStates s l states docs = .ok (states', docs') ∧
      (∀ e ∈ states', e ∈ states ∨ ∃ st, s.states.get e.1 = .ok st ∧ e.2 = toSyncState st) ∧
      ∀ e ∈ docs', e ∈ docs ∨ ∃ d, s.didStates.get e.1 = .ok d ∧ e.2 = toSyncDidState d
  | [], states, docs, _ => ⟨states, docs, rfl, fun _ he => .inl he, fun _ he => .inl he⟩
  | (h, .branch left right) :: rest, states, docs, hall => by
    exact exportStates_ok rest states docs fun h' key value hm =>
      hall h' key value (mem_cons_of_mem _ hm)
  | (h, .leaf key value) :: rest, states, docs, hall => by
    have hrest : ∀ h' key' value', (h', SyncWaveNode.leaf key' value') ∈ rest →
        (∃ st, s.states.get value' = .ok st) ∨ ∃ d, s.didStates.get value' = .ok d :=
      fun h' key' value' hm => hall h' key' value' (mem_cons_of_mem _ hm)
    unfold exportStates
    cases hst : s.states.get value with
    | ok st =>
      obtain ⟨states', docs', hrun, h₁, h₂⟩ :=
        exportStates_ok rest (states ++ [(value, toSyncState st)]) docs hrest
      refine ⟨states', docs', hrun, fun e he => ?_, h₂⟩
      rcases h₁ e he with hm | hm
      · rcases mem_append.mp hm with hm | hm
        · exact .inl hm
        · rw [mem_singleton.mp hm]
          exact .inr ⟨st, hst, rfl⟩
      · exact .inr hm
    | error e =>
      obtain ⟨d, hd⟩ := (hall h key value mem_cons_self).resolve_left fun ⟨st, hst'⟩ => by
        cases hst.symm.trans hst'
      simp only [hd]
      obtain ⟨states', docs', hrun, h₁, h₂⟩ :=
        exportStates_ok rest states (docs ++ [(value, toSyncDidState d)]) hrest
      refine ⟨states', docs', hrun, h₁, fun e he => ?_⟩
      rcases h₂ e he with hm | hm
      · rcases mem_append.mp hm with hm | hm
        · exact .inl hm
        · rw [mem_singleton.mp hm]
          exact .inr ⟨d, hd, rfl⟩
      · exact .inr hm

end Sahyadri.Sync
