import Sahyadri.Live.Store

/-!
# Balance changes and reads between two writes of the batch

`update_balance_batch` reads the account through the cache and writes it to the cache and the batch.
The database is read when the cache has lost the account, and it does not know the batch.

* `composes_iff`: for accounts `K` and a cache of `m` entries, every sequence composes exactly when
  the cache never fills, or one account has the cache's only place.
-/

namespace Sahyadri.Live

open Lib Smt Core Account List Function CachedDb Action AList AccountState

/-! ## 1. Sequences of accesses -/

/-- A call between two writes of the batch. -/
inductive Access
  | update (spk : ScriptPublicKey) (change : Int64)
  | balance (spk : ScriptPublicKey)
  deriving DecidableEq

def Access.account : Access → ScriptPublicKey
  | .update spk _ => spk
  | .balance spk => spk

/-- The calls one after the other, with the balances that the reads return. -/
def AccountStore.runAccesses {S ε : Type} (A : AccountStore S) :
    List Access → Action S ε (List UInt64)
  | [] => pure []
  | .update spk change :: ops => do
      A.updateBalanceBatch spk change
      A.runAccesses ops
  | .balance spk :: ops => do
      let balance ← A.getBalance spk
      let balances ← A.runAccesses ops
      return balance :: balances

/-- What each read should see, and the balances in the end. -/
def outcome (b : ScriptPublicKey → UInt64) : List Access → List UInt64 × (ScriptPublicKey → UInt64)
  | [] => ([], b)
  | .update spk change :: ops => outcome (update b spk (applyChange change (b spk))) ops
  | .balance spk :: ops => (b spk :: (outcome b ops).1, (outcome b ops).2)

def storedBalance (s : DbAccounts) (spk : ScriptPublicKey) : UInt64 :=
  ((s.db.lookup spk).getD .default).balance

/-- **Balance updates compose**: the reads see the calls made so far, and when the batch is written
    the database holds all changes. -/
def Composes (s : DbAccounts) (ops : List Access) : Prop :=
  let r := (dbAccountStore.runAccesses ops : Action DbAccounts Empty (List UInt64)) s
  r.1 = .ok (outcome (storedBalance s) ops).1 ∧
    storedBalance r.2.flush = (outcome (storedBalance s) ops).2

/-- A store with nothing pending, whose cache holds accounts of `K` as the database has them. -/
structure Quiet (K : Finset ScriptPublicKey) (s : DbAccounts) : Prop where
  batch : s.batch = []
  keys : ∀ k ∈ s.cache, k ∈ K
  cached : ∀ {k v}, s.cache.lookup k = some v → s.db.lookup k = some v

/-! ## 2. Caches that do not lose an update -/

section Sim

variable {S T : Type} {A : AccountStore S} {B : AccountStore T} {K : Finset ScriptPublicKey}
  {R : S → T → Prop}

theorem runAccesses_sim {ε : Type} (H : AccountStoreSim A B K R) {ops : List Access}
    (hops : ∀ op ∈ ops, op.account ∈ K) :
    Rel R (A.runAccesses ops : Action S ε (List UInt64)) (B.runAccesses ops) := by
  induction ops with
  | nil => exact rel_pure _
  | cons op ops ih =>
    obtain ⟨hop, hrest⟩ := forall_mem_cons.mp hops
    cases op with
    | update spk change =>
      exact rel_bind (updateBalanceBatch_sim H hop change) fun _ => ih hrest
    | balance spk =>
      refine rel_bind ?_ fun _ => rel_bind (ih hrest) fun _ => rel_pure _
      exact rel_bind (getAccount_sim H hop) fun _ => rel_pure _

end Sim

def balances (L : Ledger) (spk : ScriptPublicKey) : UInt64 := (L spk).balance

theorem balances_update (L : Ledger) (spk : ScriptPublicKey) (st : AccountState) :
    balances (update L spk st) = update (balances L) spk st.balance :=
  comp_update balance L spk st

theorem runAccesses_ledger {ε : Type} (ops : List Access) : ∀ L : Ledger, ∃ L' : Ledger,
    (ledgerStore.runAccesses ops : Action Ledger ε (List UInt64)) L =
      (.ok (outcome (balances L) ops).1, L') ∧ balances L' = (outcome (balances L) ops).2 := by
  induction ops with
  | nil => exact fun L => ⟨L, rfl, rfl⟩
  | cons op ops ih =>
    intro L
    cases op with
    | update spk change =>
      obtain ⟨L', hrun, hL'⟩ :=
        ih (update L spk { L spk with balance := applyChange change (L spk).balance })
      rw [balances_update] at hrun hL'
      exact ⟨L', hrun, hL'⟩
    | balance spk =>
      obtain ⟨L', hrun, hL'⟩ := ih L
      refine ⟨L', ?_, hL'⟩
      have hget : (ledgerStore.getBalance spk : Action Ledger ε UInt64) L =
          (.ok (balances L spk), L) := rfl
      rw [AccountStore.runAccesses, bind_ok hget, bind_ok hrun]
      rfl

variable {K : Finset ScriptPublicKey} {s : DbAccounts}

/-- A store that answers as its latest ledger composes. -/
theorem composes_of_sim {R : DbAccounts → Ledger → Prop}
    (H : AccountStoreSim dbAccountStore ledgerStore K R)
    (hR : ∀ {s L}, R s L → liveLedger s = L) (hs : R s (liveLedger s)) (hbatch : s.batch = [])
    {ops : List Access} (hops : ∀ op ∈ ops, op.account ∈ K) : Composes s ops := by
  have hinit : balances (liveLedger s) = storedBalance s := by
    funext q
    rw [balances, liveLedger, latest, hbatch]
    rfl
  obtain ⟨L', hrun, hL'⟩ := runAccesses_ledger ops (liveLedger s)
  obtain ⟨h1, h2⟩ := runAccesses_sim H hops s (liveLedger s) hs
  rw [hrun, hinit] at h1
  rw [hrun] at h2
  rw [hinit] at hL'
  refine ⟨h1, ?_⟩
  rw [← hL', ← show liveLedger _ = L' from hR h2]
  funext q
  exact congrArg (fun o => (o.getD default).balance) (latest_flush _ q)

theorem alone_sim (spk : ScriptPublicKey) : AccountStoreSim dbAccountStore ledgerStore {spk}
    fun s L => s.Alone spk ∧ liveLedger s = L where
  get {s L q} h hq := by
    obtain ⟨ha, rfl⟩ := h
    cases Finset.mem_singleton.mp hq
    refine ⟨congrArg (·.getD .default) (ha.current.read_eq spk), ha.read, ?_⟩
    funext q
    exact congrArg (·.getD .default) (congrFun (s.latest_read spk) q)
  set {s L q} h hq st := by
    obtain ⟨ha, rfl⟩ := h
    cases Finset.mem_singleton.mp hq
    refine ⟨ha.write st, ?_⟩
    funext q
    show ((s.write spk st).latest q).getD .default = update (liveLedger s) spk st q
    rw [s.latest_write spk st]
    by_cases hq : q = spk
    · subst hq
      rw [update_self, update_self, Option.getD_some]
    · rw [update_of_ne hq, update_of_ne hq, liveLedger]

theorem Quiet.current (h : Quiet K s) : s.Current where
  cached {k v} hv := by
    rw [latest, h.batch]
    exact h.cached hv
  pending e he := by
    rw [h.batch] at he
    cases he

/-! ## 3. Caches that lose one -/

/-- With no cache, a read after an update sees the database. -/
theorem not_composes_of_no_cache (a : ScriptPublicKey) :
    ¬ Composes (new 0 fun _ => 0) [.update a 1, .balance a] := by
  intro h
  have h1 : (.ok [0] : Run Empty (List UInt64)) =
      .ok (outcome (fun _ => 0) [.update a 1, .balance a]).1 := h.1
  rw [outcome, outcome, outcome, update_self] at h1
  cases h1

def nearlyFull (t : Table ScriptPublicKey AccountState) : DbAccounts :=
  ⟨t.entries.length + 1, fun _ => 0, 0, t, [], t⟩

variable {t : Table ScriptPublicKey AccountState}

theorem quiet_nearlyFull (hK : ∀ spk ∈ t, spk ∈ K) : Quiet K (nearlyFull t) :=
  ⟨rfl, hK, fun hv => hv⟩

/-- **A full cache may lose an update**: the account just changed is evicted for the next one, and
    read from the database. -/
theorem not_composes_of_full {a b : ScriptPublicKey} (ha : a ∉ t) (hab : a ≠ b) :
    ¬ Composes (nearlyFull t) [.update a 1, .update b 1, .balance a] := by
  have hnone : t.lookup a = none := lookup_eq_none.mpr ha
  let st : AccountState := { default with balance := applyChange 1 0 }
  let s₁ := (nearlyFull t).write a st
  have hs₁ : s₁ = { nearlyFull t with cache := t.insert a st, batch := [(a, st)] } := by
    show write _ _ _ = _
    rw [write, cacheInsert_of_lt (Nat.lt_succ_self _)]
    rfl
  -- the second update reads an account that the cache and the database both have or both lack
  have hb : (s₁.read b).2 = s₁ := by
    have hcache : s₁.cache.lookup b = t.lookup b := by
      rw [hs₁]
      exact lookup_insert_ne hab.symm
    cases hlookup : t.lookup b with
    | some v => rw [read_of_cached (hcache.trans hlookup)]
    | none => rw [read_of_missing (hcache.trans hlookup) (by rw [hs₁]; exact hlookup)]
  have hlost (w : AccountState) : ((s₁.write b w).read a).1 = none :=
    (read_of_last_place hab rfl ha (Nat.zero_mod _) st w).trans hnone
  intro h
  have hrun := h.1
  have hupdate (s : DbAccounts) (spk : ScriptPublicKey) (ops : List Access) :
      (dbAccountStore.runAccesses (.update spk 1 :: ops) :
        Action DbAccounts Empty (List UInt64)) s =
        dbAccountStore.runAccesses ops ((s.read spk).2.write spk { (s.read spk).1.getD .default with
          balance := applyChange 1 ((s.read spk).1.getD .default).balance }) := rfl
  have hbalance (s : DbAccounts) (spk : ScriptPublicKey) :
      ((dbAccountStore.runAccesses [.balance spk] : Action DbAccounts Empty (List UInt64)) s).1 =
        .ok [((s.read spk).1.getD .default).balance] := rfl
  rw [hupdate, read_of_missing (k := a) hnone hnone, hupdate] at hrun
  change ((dbAccountStore.runAccesses [.balance a] : Action DbAccounts Empty (List UInt64))
    ((s₁.read b).2.write b _)).1 = _ at hrun
  rw [hb, hbalance, hlost, outcome, outcome, outcome, outcome, update_of_ne hab, update_self,
    storedBalance] at hrun
  change Except.ok [0] = Except.ok [applyChange 1 (((t.lookup a).getD .default).balance)] at hrun
  rw [hnone] at hrun
  cases hrun

/-! ## 4. When balance updates compose -/

def emptyAccounts (spks : List ScriptPublicKey) (h : spks.Nodup) :
    Table ScriptPublicKey AccountState where
  entries := spks.map fun spk => ⟨spk, .default⟩
  nodupKeys := by
    rw [List.NodupKeys, List.keys, map_map]
    exact (map_id _).symm ▸ h

theorem mem_emptyAccounts {spks : List ScriptPublicKey} {h : spks.Nodup} {spk : ScriptPublicKey} :
    spk ∈ emptyAccounts spks h ↔ spk ∈ spks := by
  rw [AList.mem_keys, AList.keys, emptyAccounts, List.keys, map_map]
  exact (map_id spks).symm ▸ Iff.rfl

/-- Two accounts, and a cache that is not larger than the accounts: some updates are lost. -/
theorem exists_not_composes {m : Nat} (hm : 0 < m) (hmK : m ≤ K.card) (hK : 1 < K.card) :
    ∃ s : DbAccounts, s.maxSize = m ∧ Quiet K s ∧ ∃ ops, (∀ op ∈ ops, op.account ∈ K) ∧
    ¬ Composes s ops := by
  obtain ⟨a, ha, b, hb, hab⟩ := Finset.one_lt_card.mp hK
  have hcard : m - 1 ≤ (K.erase a).card := by
    rw [Finset.card_erase_of_mem ha]
    omega
  obtain ⟨T, hT, hTcard⟩ := Finset.exists_subset_card_eq hcard
  let t := emptyAccounts T.toList T.nodup_toList
  have hmem {spk : ScriptPublicKey} : spk ∈ t ↔ spk ∈ T := mem_emptyAccounts.trans Finset.mem_toList
  refine ⟨nearlyFull t, ?_, quiet_nearlyFull fun spk h => Finset.mem_of_mem_erase (hT (hmem.mp h)),
    [.update a 1, .update b 1, .balance a], ?_,
    not_composes_of_full (fun h => Finset.notMem_erase a K (hT (hmem.mp h))) hab⟩
  · show (T.toList.map _).length + 1 = m
    rw [length_map, Finset.length_toList, hTcard]
    omega
  · simp [Access.account, ha, hb]

/-- **Balance updates compose exactly when no pending update can be evicted**: the cache has more
    places than there are accounts in `K`, or there is at most one account and a cache for it. -/
theorem composes_iff (K : Finset ScriptPublicKey) (m : Nat) : (∀ s : DbAccounts, s.maxSize = m →
      Quiet K s → ∀ ops, (∀ op ∈ ops, op.account ∈ K) → Composes s ops) ↔
      K.card < m ∨ K.card = 0 ∨ (K.card = 1 ∧ m = 1) := by
  constructor
  · intro h
    by_contra hcon
    obtain ⟨hle, hne, hone⟩ : m ≤ K.card ∧ K.card ≠ 0 ∧ ¬ (K.card = 1 ∧ m = 1) := by
      refine ⟨?_, ?_, ?_⟩ <;> omega
    rcases Nat.eq_zero_or_pos m with rfl | hm
    · obtain ⟨a, ha⟩ := Finset.card_ne_zero.mp hne
      refine not_composes_of_no_cache a (h _ rfl ⟨rfl, fun k hk => absurd hk (notMem_empty k),
        fun hv => by cases hv⟩ _ ?_)
      simp [Access.account, ha]
    · obtain ⟨s, hs, hquiet, ops, hops, hnot⟩ := exists_not_composes hm hle (by omega)
      exact hnot (h s hs hquiet ops hops)
  · intro h s hs hquiet ops hops
    rcases h with h | h | ⟨h, rfl⟩
    · refine composes_of_sim (dbAccountStore_sim K) (fun hR => hR.2)
        ⟨⟨hs ▸ h, hquiet.keys, hquiet.current.cached, hquiet.current.pending⟩, rfl⟩
        hquiet.batch hops
    · cases ops with
      | nil =>
        refine ⟨rfl, ?_⟩
        show storedBalance s.flush = storedBalance s
        rw [flush, hquiet.batch]
        rfl
      | cons op ops =>
        rw [Finset.card_eq_zero.mp h] at hops
        exact absurd (hops op mem_cons_self) (Finset.notMem_empty _)
    · obtain ⟨a, rfl⟩ := Finset.card_eq_one.mp h
      refine composes_of_sim (alone_sim a) (fun hR => hR.2)
        ⟨⟨hs, fun q hq => Finset.mem_singleton.mp (hquiet.keys q hq), hquiet.current⟩, rfl⟩
        hquiet.batch hops

/-- Two accounts are credited 1, and the cache has one place: the first is read with its old balance
    0. -/
theorem evicted_update_lost : ¬ Composes (new 1 fun _ => 0)
    [.update ⟨0, [1]⟩ 1, .update ⟨0, [2]⟩ 1, .balance ⟨0, [1]⟩] :=
  not_composes_of_full (t := ∅) (notMem_empty _) (by decide)

end Sahyadri.Live
