import Sahyadri.Sync.Snapshot

/-!
# `bootstrap_from_peer`: a snapshot is fetched from a peer, verified and loaded

* `trusts_iff`: the root stored is that of a known header and a failed run changes nothing exactly
  if the peer happens to serve such a snapshot, and the database refuses no insert that comes after
  something new (`Trustworthy`). `forged_checkpoint`: it need not be so.
-/

namespace Sahyadri.Sync

open Lib Smt Core Account Did Store Run

/-! ## 1. The function -/

structure SyncWaveBootstrapConfig where
  peerUrl : String
  checkpointHash : Option Hash
  timeoutSecs : UInt64
  deriving DecidableEq, Repr

/-- `SyncWaveBootstrapError`; the errors of `verify` and `load` are kept instead of their texts. -/
inductive SyncWaveBootstrapError where
  | connect (text : String)
  | rpc (text : String)
  | timeout
  | verify (e : SyncWaveError)
  | load (e : SyncWaveError)
  deriving DecidableEq, Repr

structure SyncWaveChunkWire where
  chunkIndex : UInt32
  totalChunks : UInt32
  smtNodes : List (H256 × SyncWaveNode)
  accountStates : List (Hash × SyncWaveState)
  didStates : List (Hash × SyncWaveDidState)
  deriving DecidableEq, Repr

/-- What the peer answers. `decode` is `bincode::deserialize` for a chunk. -/
structure Peer where
  connect : String → Except String Unit
  getSyncWaveMetadata : Option Hash → Except String SyncWaveMetadata
  downloadSyncWaveChunk : Hash → UInt32 → Except String Bytes
  decode : Bytes → Except String SyncWaveChunkWire

/-- `Vec::with_capacity` of entries of this many bytes. -/
def withCapacity {ε : Type} (size : Nat) (n : UInt64) : Run ε Unit :=
  if size * n.toNat < 2 ^ 63 then .ok () else .panicked

def nodeSize : Nat := 97
def stateSize : Nat := 64
def documentSize : Nat := 208

/-- One round of the download loop. -/
def downloadChunk (peer : Peer) (block : Hash) (i : UInt32) :
    Run SyncWaveBootstrapError SyncWaveChunkWire :=
  match peer.downloadSyncWaveChunk block i with
  | .error e => .fail (.rpc ("chunk " ++ toString i ++ ": " ++ e))
  | .ok data =>
    match peer.decode data with
    | .error e => .fail (.rpc ("chunk " ++ toString i ++ " deser: " ++ e))
    | .ok chunk => .ok chunk

def chunkIndices (total : UInt32) : List UInt32 := (List.range total.toNat).map UInt32.ofNat

/-- The snapshot of the metadata and the chunks. The declared number of documents is dropped. -/
def reassemble (metadata : SyncWaveMetadata) (chunks : List SyncWaveChunkWire) :
    SyncWaveSnapshot where
  metadata := { metadata with totalDidStates := 0 }
  smtNodes := chunks.flatMap (·.smtNodes)
  accountStates := chunks.flatMap (·.accountStates)
  didStates := chunks.flatMap (·.didStates)

/-- `bootstrap_from_peer` up to the load. -/
def fetchVerified (c : Crypto) (peer : Peer) (config : SyncWaveBootstrapConfig) :
    Run SyncWaveBootstrapError SyncWaveSnapshot := do
  match peer.connect config.peerUrl with
  | .error e => .fail (.connect e)
  | .ok _ =>
    match peer.getSyncWaveMetadata config.checkpointHash with
    | .error e => .fail (.rpc ("metadata: " ++ e))
    | .ok metadata =>
      withCapacity nodeSize metadata.totalSmtNodes
      withCapacity stateSize metadata.totalAccounts
      withCapacity documentSize metadata.totalDidStates
      let chunks ← (chunkIndices metadata.totalChunks).mapM (downloadChunk peer metadata.blockHash)
      let snapshot := reassemble metadata chunks
      (verify c snapshot).mapErr SyncWaveBootstrapError.verify
      return snapshot

/-- `bootstrap_from_peer`. `put i` is the answer of the database to the `i`-th insert. -/
def bootstrapFromPeer (c : Crypto) (peer : Peer) (put : Nat → Except StoreError Unit)
    (config : SyncWaveBootstrapConfig) (s : AccountStores) :
    Run SyncWaveBootstrapError SyncWaveSnapshot × AccountStores :=
  match fetchVerified c peer config with
  | .error e => (.error e, s)
  | .ok snapshot =>
    match load put snapshot s with
    | (.ok _, s') => (.ok snapshot, s')
    | (.error e, s') => (.fail (.load e), s')

/-! ## 2. What the peer serves -/

/-- The answers of the peer make this snapshot. -/
structure Serves (peer : Peer) (config : SyncWaveBootstrapConfig) (snapshot : SyncWaveSnapshot) :
    Prop where
  connected : peer.connect config.peerUrl = .ok ()
  served : ∃ metadata chunks, peer.getSyncWaveMetadata config.checkpointHash = .ok metadata ∧
    (nodeSize * metadata.totalSmtNodes.toNat < 2 ^ 63 ∧ stateSize * metadata.totalAccounts.toNat <
      2 ^ 63 ∧ documentSize * metadata.totalDidStates.toNat < 2 ^ 63) ∧ List.Forall₂
      (fun i chunk => ∃ data, peer.downloadSyncWaveChunk metadata.blockHash i = .ok data ∧
      peer.decode data = .ok chunk) (chunkIndices metadata.totalChunks) chunks ∧
      snapshot = reassemble metadata chunks

theorem withCapacity_ok {ε : Type} {size : Nat} {n : UInt64} :
    (withCapacity size n : Run ε Unit) = .ok () ↔ size * n.toNat < 2 ^ 63 := by
  unfold withCapacity
  split
  · rename_i h
    exact ⟨fun _ => h, fun _ => rfl⟩
  · rename_i h
    exact ⟨fun he => (by cases he), fun he => absurd he h⟩

theorem downloadChunk_ok {peer : Peer} {block : Hash} {i : UInt32} {chunk : SyncWaveChunkWire} :
    downloadChunk peer block i = .ok chunk ↔
      ∃ data, peer.downloadSyncWaveChunk block i = .ok data ∧ peer.decode data = .ok chunk := by
  unfold downloadChunk
  cases peer.downloadSyncWaveChunk block i with
  | error e => exact ⟨fun h => (by cases h), fun ⟨_, h, _⟩ => (by cases h)⟩
  | ok data =>
    dsimp only
    cases hd : peer.decode data with
    | error e =>
      refine ⟨fun h => (by cases h), fun ⟨d, h, hc⟩ => ?_⟩
      cases h
      cases hd.symm.trans hc
    | ok chunk' =>
      refine ⟨fun h => ?_, fun ⟨d, h, hc⟩ => ?_⟩
      · cases h
        exact ⟨data, rfl, hd⟩
      · cases h
        cases hd.symm.trans hc
        rfl

/-- **A snapshot is fetched when the peer serves it and `verify` accepts it.** -/
theorem fetchVerified_ok {c : Crypto} {peer : Peer} {config : SyncWaveBootstrapConfig}
    {snapshot : SyncWaveSnapshot} : fetchVerified c peer config = .ok snapshot ↔
      Serves peer config snapshot ∧ Verified c snapshot := by
  constructor
  · intro h
    unfold fetchVerified at h
    cases hc : peer.connect config.peerUrl with
    | error e => rw [hc] at h; cases h
    | ok u =>
      rw [hc] at h
      cases hm : peer.getSyncWaveMetadata config.checkpointHash with
      | error e => rw [hm] at h; cases h
      | ok metadata =>
        rw [hm] at h
        obtain ⟨_, h₁, h⟩ := bind_eq_ok.mp h
        obtain ⟨_, h₂, h⟩ := bind_eq_ok.mp h
        obtain ⟨_, h₃, h⟩ := bind_eq_ok.mp h
        obtain ⟨chunks, hchunks, h⟩ := bind_eq_ok.mp h
        obtain ⟨_, hv, h⟩ := bind_eq_ok.mp h
        cases h
        refine ⟨⟨hc, metadata, chunks, hm, ⟨withCapacity_ok.mp h₁, withCapacity_ok.mp h₂,
          withCapacity_ok.mp h₃⟩, ?_, rfl⟩, verify_iff.mp (mapErr_eq_ok.mp hv)⟩
        exact (mapM_eq_ok.mp hchunks).imp fun _ _ h => downloadChunk_ok.mp h
  · rintro ⟨⟨hc, metadata, chunks, hm, ⟨h₁, h₂, h₃⟩, hchunks, rfl⟩, hv⟩
    unfold fetchVerified
    rw [hc, hm]
    refine bind_eq_ok.mpr ⟨_, withCapacity_ok.mpr h₁, bind_eq_ok.mpr ⟨_, withCapacity_ok.mpr h₂,
      bind_eq_ok.mpr ⟨_, withCapacity_ok.mpr h₃, bind_eq_ok.mpr ⟨chunks, ?_,
        bind_eq_ok.mpr ⟨_, mapErr_eq_ok.mpr (verify_iff.mpr hv), rfl⟩⟩⟩⟩⟩
    exact mapM_eq_ok.mpr (hchunks.imp fun _ _ h => downloadChunk_ok.mpr h)

/-! ## 3. What a load leaves -/

/-- The stores are read alike. -/
structure SameReads (s s' : AccountStores) : Prop where
  nodes : ∀ h, s'.smt.get h = s.smt.get h
  states : ∀ h, s'.states.get h = s.states.get h
  documents : ∀ h, s'.didStates.get h = s.didStates.get h
  roots : ∀ h, s'.roots.get h = s.roots.get h
  headers : s'.headers = s.headers

variable (s : AccountStores)

theorem SameReads.refl : SameReads s s :=
  ⟨fun _ => rfl, fun _ => rfl, fun _ => rfl, fun _ => rfl, rfl⟩

/-- What the entries say of a column is what it holds already. -/
def Column.Stored {κ ν ρ : Type} [DecidableEq κ] (C : Column κ ν ρ) (s : AccountStores)
    (es : List Entry) : Prop :=
  ∀ k v, (Table.ofList (es.filterMap C.pick)).lookup k = some v → C.read s k = C.val v

theorem Column.stored_iff {κ ν ρ : Type} [DecidableEq κ] (C : Column κ ν ρ) (s : AccountStores)
    (put : Except StoreError Unit) (es : List Entry) :
    C.Stored s es ↔ ∀ k, C.read (es.foldl (insertSync put) s) k = C.read s k := by
  constructor
  · intro h k
    rw [C.read_foldl]
    cases hl : (Table.ofList (es.filterMap C.pick)).lookup k with
    | none => rfl
    | some v => exact (h k v hl).symm
  · intro h k v hl
    have hk := h k
    rw [C.read_foldl, hl] at hk
    exact hk.symm

/-- The entries are stored already. -/
structure Stored (es : List Entry) : Prop where
  nodes : nodeColumn.Stored s es
  states : stateColumn.Stored s es
  documents : documentColumn.Stored s es
  roots : rootColumn.Stored s es

theorem stored_iff (put : Except StoreError Unit) (es : List Entry) :
    Stored s es ↔ SameReads s (es.foldl (insertSync put) s) :=
  ⟨fun h =>
    ⟨(nodeColumn.stored_iff s put es).mp h.nodes, (stateColumn.stored_iff s put es).mp h.states,
      (documentColumn.stored_iff s put es).mp h.documents,
      (rootColumn.stored_iff s put es).mp h.roots, headers_insertSync put es s⟩, fun h =>
      ⟨(nodeColumn.stored_iff s put es).mpr h.nodes, (stateColumn.stored_iff s put es).mpr h.states,
      (documentColumn.stored_iff s put es).mpr h.documents,
      (rootColumn.stored_iff s put es).mpr h.roots⟩⟩

theorem sameReads_insertSync (put put' : Except StoreError Unit) (s : AccountStores) (e : Entry) :
    SameReads (insertSync put s e) (insertSync put' s e) where
  nodes h := (nodeColumn.step put' s e h).trans (nodeColumn.step put s e h).symm
  states h := (stateColumn.step put' s e h).trans (stateColumn.step put s e h).symm
  documents h := (documentColumn.step put' s e h).trans (documentColumn.step put s e h).symm
  roots h := (rootColumn.step put' s e h).trans (rootColumn.step put s e h).symm
  headers := by cases e <;> rfl

theorem SameReads.trans {s s' s'' : AccountStores} (h : SameReads s s') (h' : SameReads s' s'') :
    SameReads s s'' :=
  ⟨fun k => (h'.nodes k).trans (h.nodes k), fun k => (h'.states k).trans (h.states k),
    fun k => (h'.documents k).trans (h.documents k), fun k => (h'.roots k).trans (h.roots k),
    h'.headers.trans h.headers⟩

theorem SameReads.symm {s s' : AccountStores} (h : SameReads s s') : SameReads s' s :=
  ⟨fun k => (h.nodes k).symm, fun k => (h.states k).symm, fun k => (h.documents k).symm,
    fun k => (h.roots k).symm, h.headers.symm⟩

/-- The database refuses the insert number `k`, and none before it. -/
def RefusedAt (put : Nat → Except StoreError Unit) (k : Nat) (e : StoreError) : Prop :=
  put k = .error e ∧ ∀ i < k, put i = .ok ()

/-- What a load does: every insert, or those up to and with the first that is refused. -/
theorem loadEntries_cases (put : Nat → Except StoreError Unit)
    (es : List Entry) (i : Nat) (s : AccountStores) : ((∀ j < es.length, put (i + j) = .ok ()) ∧
      loadEntries put i es s = (.ok (), es.foldl (insertSync (.ok ())) s)) ∨
      ∃ k < es.length, ∃ e, RefusedAt (fun j => put (i + j)) k e ∧
      (loadEntries put i es s).1 = .error (.store e) ∧
        SameReads ((es.take (k + 1)).foldl (insertSync (.ok ())) s) (loadEntries put i es s).2 := by
  induction es generalizing i s with
  | nil => exact .inl ⟨fun j hj => absurd hj (Nat.not_lt_zero j), rfl⟩
  | cons a es ih =>
    unfold loadEntries
    cases hp : put i with
    | error e =>
      refine .inr ⟨0, Nat.zero_lt_succ _, e, ⟨hp, fun j hj => absurd hj (Nat.not_lt_zero j)⟩,
        rfl, ?_⟩
      exact sameReads_insertSync _ _ s a
    | ok u =>
      have hshift : ∀ j, i + 1 + j = i + (j + 1) := fun j => by omega
      rcases ih (i + 1) (insertSync (.ok ()) s a) with ⟨hall, hrun⟩ | ⟨k, hk, e, ⟨hke, hpre⟩,
        hrun, hsame⟩
      · refine .inl ⟨fun j hj => ?_, hrun⟩
        cases j with
        | zero => exact hp
        | succ j => exact hshift j ▸ hall j (Nat.lt_of_succ_lt_succ hj)
      · refine .inr ⟨k + 1, Nat.succ_lt_succ hk, e, ⟨?_, fun j hj => ?_⟩, hrun, hsame⟩
        · exact (congrArg put (hshift k)).symm.trans hke
        · cases j with
          | zero => exact hp
          | succ j =>
            exact (congrArg put (hshift j)).symm.trans (hpre j (Nat.lt_of_succ_lt_succ hj))

theorem roots_foldl (snapshot : SyncWaveSnapshot) (s : AccountStores) :
    (snapshot.entries.foldl (insertSync (.ok ())) s).roots.get snapshot.metadata.blockHash =
      .ok snapshot.metadata.accountRoot := by
  have hread := rootColumn.read_foldl (.ok ()) snapshot.entries s snapshot.metadata.blockHash
  have hpick : snapshot.entries.filterMap rootColumn.pick =
      [] ++ [(snapshot.metadata.blockHash, snapshot.metadata.accountRoot)] := by
    simp [filterMap_entries, rootColumn]
  rw [hpick, Table.lookup_ofList_concat, if_pos rfl] at hread
  exact hread

/-! ## 4. Trust -/

section Trust

variable {c : Crypto} {peer : Peer} {put : Nat → Except StoreError Unit}
  {config : SyncWaveBootstrapConfig} {s : AccountStores}

/-- A header known here has this block hash and this root. -/
def KnownRoot (s : AccountStores) (block : Hash) (root : H256) : Prop :=
  ∃ header, s.headers.getHeader block = .ok header ∧ header.accountCommitment = root

/-- Only the checkpoint header is trusted, and an error leaves no trace. -/
structure TrustsCheckpoint (config : SyncWaveBootstrapConfig) (s : AccountStores)
    (result : Run SyncWaveBootstrapError SyncWaveSnapshot × AccountStores) : Prop where
  known : ∀ snapshot, result.1 = .ok snapshot →
    ∃ root, result.2.roots.get snapshot.metadata.blockHash = .ok root ∧
      KnownRoot s snapshot.metadata.blockHash root
  checkpoint : ∀ snapshot, result.1 = .ok snapshot → ∀ h, config.checkpointHash = some h →
    snapshot.metadata.blockHash = h
  untouched : ∀ e, result.1 = .fail e → SameReads s result.2

/-- The peer serves the root of a header known here, at the checkpoint; and the database refuses no
    insert after something new. -/
structure Trustworthy (peer : Peer) (put : Nat → Except StoreError Unit)
    (config : SyncWaveBootstrapConfig) (s : AccountStores) (snapshot : SyncWaveSnapshot) :
    Prop where
  honest : (∀ i < snapshot.entries.length, put i = .ok ()) →
    KnownRoot s snapshot.metadata.blockHash snapshot.metadata.accountRoot ∧
      ∀ h, config.checkpointHash = some h → snapshot.metadata.blockHash = h
  nothingNew : ∀ k < snapshot.entries.length, ∀ e, RefusedAt put k e →
    Stored s (snapshot.entries.take (k + 1))

/-- **When only the checkpoint is trusted**: exactly if what the peer serves, if `verify` accepts
    it, is trustworthy. -/
theorem trusts_iff (c : Crypto) (peer : Peer) (put : Nat → Except StoreError Unit)
    (config : SyncWaveBootstrapConfig) (s : AccountStores) :
    TrustsCheckpoint config s (bootstrapFromPeer c peer put config s) ↔
      ∀ snapshot, Serves peer config snapshot → Verified c snapshot →
      Trustworthy peer put config s snapshot := by
  unfold bootstrapFromPeer
  cases hf : fetchVerified c peer config with
  | error f =>
    refine ⟨fun _ snapshot hs hv => ?_, fun _ => ⟨fun _ h => ?_, fun _ h => ?_, fun _ _ => .refl s⟩⟩
    · cases hf.symm.trans (fetchVerified_ok.mpr ⟨hs, hv⟩)
    · cases h
    · cases h
  | ok snapshot =>
    have honly : ∀ t, Serves peer config t → Verified c t → t = snapshot := fun t hs hv =>
      (Except.ok.inj (hf.symm.trans (fetchVerified_ok.mpr ⟨hs, hv⟩))).symm
    obtain ⟨hs, hv⟩ := fetchVerified_ok.mp hf
    have hload := loadEntries_cases put snapshot.entries 0 s
    simp only [Nat.zero_add] at hload
    dsimp only
    rcases hload with ⟨hall, hrun⟩ | ⟨k, hk, e, href, hrun, hsame⟩
    · -- every insert was made
      rw [load, hrun]
      constructor
      · intro h t hst hvt
        obtain rfl := honly t hst hvt
        refine ⟨fun _ => ⟨?_, h.checkpoint t rfl⟩, fun j hj e he => ?_⟩
        · obtain ⟨root, hroot, hknown⟩ := h.known t rfl
          obtain rfl := Except.ok.inj ((roots_foldl t s).symm.trans hroot)
          exact hknown
        · cases (hall j hj).symm.trans he.1
      · intro h
        obtain ⟨hknown, hcp⟩ := (h snapshot hs hv).honest hall
        refine ⟨fun t ht => ?_, fun t ht => ?_, fun e he => ?_⟩
        · cases ht
          exact ⟨_, roots_foldl snapshot s, hknown⟩
        · cases ht
          exact hcp
        · cases he
    · -- the insert number `k` was refused
      have hresult : ∃ s', load put snapshot s = (.error (.store e), s') ∧
          SameReads ((snapshot.entries.take (k + 1)).foldl (insertSync (.ok ())) s) s' :=
        ⟨_, Prod.ext hrun rfl, hsame⟩
      obtain ⟨s', hload, hsame⟩ := hresult
      rw [hload]
      constructor
      · intro h t hst hvt
        obtain rfl := honly t hst hvt
        refine ⟨fun hok => ?_, fun j hj e' he' => ?_⟩
        · cases (hok k hk).symm.trans href.1
        · have hjk : j = k := by
            rcases Nat.lt_trichotomy j k with hlt | heq | hgt
            · cases (href.2 j hlt).symm.trans he'.1
            · exact heq
            · cases (he'.2 k hgt).symm.trans href.1
          subst hjk
          exact (stored_iff s _ _).mpr ((h.untouched _ rfl).trans hsame.symm)
      · intro h
        refine ⟨fun t ht => ?_, fun t ht => ?_, fun e' _ => ?_⟩
        · cases ht
        · cases ht
        · exact ((stored_iff s _ _).mp ((h snapshot hs hv).nothingNew k hk e href)).trans hsame

end Trust

/-! ## 5. One peer -/

/-- The snapshot of the two leaves with both states. -/
def bothListed : SyncWaveSnapshot := pairSnapshot [leftState, rightState]

/-- A peer that serves this snapshot in one chunk, whatever it is asked for. -/
def pairPeer : Peer where
  connect _ := .ok ()
  getSyncWaveMetadata _ := .ok bothListed.metadata
  downloadSyncWaveChunk _ _ := .ok []
  decode _ := .ok ⟨0, 1, pairNodes, listStates [leftState, rightState], []⟩

def nineConfig : SyncWaveBootstrapConfig := ⟨"grpc://127.0.0.1:16110", some (.ofNat 9), 60⟩

def oneConfig : SyncWaveBootstrapConfig := ⟨"grpc://127.0.0.1:16110", some (.ofNat 1), 60⟩

theorem fetchVerified_pairPeer (config : SyncWaveBootstrapConfig) :
    fetchVerified toyCrypto pairPeer config = .ok bothListed := by
  have hv : verify toyCrypto bothListed = .ok () := by decide +kernel
  refine fetchVerified_ok.mpr ⟨⟨rfl, _, [⟨0, 1, pairNodes, listStates [leftState, rightState], []⟩],
    rfl, by decide, ?_, rfl⟩, verify_iff.mp hv⟩
  exact .cons ⟨[], rfl, rfl⟩ .nil

/-- **A peer can have any root stored.** With block 9 configured, the snapshot of block 1 is
    loaded. -/
theorem forged_checkpoint :
    (bootstrapFromPeer toyCrypto pairPeer (fun _ => .ok ()) nineConfig (.fresh .new)).1 =
      .ok bothListed ∧
      (bootstrapFromPeer toyCrypto pairPeer (fun _ => .ok ()) nineConfig (.fresh .new)).2.roots.get
        (.ofNat 1) = .ok pairRoot ∧ (∀ root, ¬ KnownRoot (.fresh .new) (.ofNat 1) root) ∧
        (.ofNat 1 : Hash) ≠ .ofNat 9 ∧ ¬ TrustsCheckpoint nineConfig (.fresh .new)
        (bootstrapFromPeer toyCrypto pairPeer (fun _ => .ok ()) nineConfig (.fresh .new)) := by
  have hrun : bootstrapFromPeer toyCrypto pairPeer (fun _ => .ok ()) nineConfig (.fresh .new) =
      (.ok bothListed, bothListed.entries.foldl (insertSync (.ok ())) (.fresh .new)) := by
    rw [bootstrapFromPeer, fetchVerified_pairPeer]
    rfl
  have hne : (.ofNat 1 : Hash) ≠ .ofNat 9 := by decide
  rw [hrun]
  refine ⟨rfl, roots_foldl _ _, fun root ⟨header, hh, _⟩ => (by cases hh), hne, fun h => ?_⟩
  exact hne (h.checkpoint _ rfl _ rfl)

/-- With the header of block 1 known and block 1 configured, the same peer is trusted rightly. -/
theorem trusted_checkpoint :
    (bootstrapFromPeer toyCrypto pairPeer (fun _ => .ok ()) oneConfig (.fresh pairHeaders)).1 =
      .ok bothListed ∧ TrustsCheckpoint oneConfig (.fresh pairHeaders)
      (bootstrapFromPeer toyCrypto pairPeer (fun _ => .ok ()) oneConfig (.fresh pairHeaders)) := by
  refine ⟨?_,
    (trusts_iff toyCrypto pairPeer (fun _ => .ok ()) oneConfig (.fresh pairHeaders)).mpr ?_⟩
  · rw [bootstrapFromPeer, fetchVerified_pairPeer]
    rfl
  · intro snapshot hs hv
    obtain rfl :=
      Except.ok.inj ((fetchVerified_pairPeer oneConfig).symm.trans (fetchVerified_ok.mpr ⟨hs, hv⟩))
    refine ⟨fun _ => ⟨⟨rootHeader pairRoot, rfl, rfl⟩, fun h hh => ?_⟩, fun k _ e he => ?_⟩
    · cases hh
      rfl
    · cases he.1

end Sahyadri.Sync
