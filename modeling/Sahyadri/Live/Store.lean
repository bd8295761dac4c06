import Sahyadri.Lib.CachedDb
import Sahyadri.Account.Ledger

/-!
# `account_store`: the live accounts, and balance changes in a write batch

* `AccountStore`: what the code calls, `get` and `set_batch`. `dbAccountStore` is `DbAccountStore`,
  a database behind a cache; `ledgerStore` is a ledger that answers at once.
-/

namespace Sahyadri.Live

open Lib Smt Core Account Function

/-! ## 1. The store -/

/-- The account store as the code uses it. -/
structure AccountStore (S : Type) where
  get : S → ScriptPublicKey → AccountState × S
  set : S → ScriptPublicKey → AccountState → S

/-- The accounts on disk with their cache. The key `version_le ++ script` of an account determines
    the script, so the script stands for it. -/
abbrev DbAccounts := CachedDb ScriptPublicKey AccountState

/-- `DbAccountStore`; a key that is not found is an empty account. -/
def dbAccountStore : AccountStore DbAccounts where
  get s spk := ((s.read spk).1.getD .default, (s.read spk).2)
  set s spk st := s.write spk st

/-- A ledger as a store. -/
def ledgerStore : AccountStore Ledger where
  get L spk := (L spk, L)
  set L spk st := update L spk st

section Calls

variable {S ε : Type} (A : AccountStore S) (spk : ScriptPublicKey)

/-- `get`. -/
def AccountStore.getAccount : Action S ε AccountState := fun s =>
  (.ok (A.get s spk).1, (A.get s spk).2)

def AccountStore.getBalance : Action S ε UInt64 := do
  let state ← A.getAccount spk
  return state.balance

def AccountStore.setBatch (state : AccountState) : Action S ε Unit := fun s =>
  (.ok (), A.set s spk state)

/-- `i64::unsigned_abs` of a negative number. -/
def unsignedAbs (x : Int64) : UInt64 := (-x).toUInt64

/-- The balance after a signed change. -/
def applyChange (change : Int64) (balance : UInt64) : UInt64 :=
  if change ≥ 0 then satAdd balance change.toUInt64 else satSub balance (unsignedAbs change)

def AccountStore.updateBalanceBatch (change : Int64) : Action S ε Unit := do
  let state ← A.getAccount spk
  A.setBatch spk { state with balance := applyChange change state.balance }

end Calls

/-! ## 2. Signed changes -/

theorem toInt_toInt64 {n : UInt64} (h : n.toNat < 2 ^ 63) : n.toInt64.toInt = n.toNat := by
  have hb : n.toInt64.toInt = n.toBitVec.toInt := rfl
  rw [hb, BitVec.toInt_eq_toNat_cond, UInt64.toNat_toBitVec, if_pos (by omega)]

theorem applyChange_credit {n : UInt64} (h : n.toNat < 2 ^ 63) (b : UInt64) :
    applyChange n.toInt64 b = satAdd b n := by
  have hge : n.toInt64 ≥ 0 := by
    rw [ge_iff_le, Int64.le_iff_toInt_le, toInt_toInt64 h]
    exact Int.natCast_nonneg _
  rw [applyChange, if_pos hge, UInt64.toUInt64_toInt64]

/-! ## 3. Stores that answer alike -/

/-- On the accounts `K`, stores related by `R` answer alike and stay related. -/
structure AccountStoreSim {S T : Type} (A : AccountStore S) (B : AccountStore T)
    (K : Finset ScriptPublicKey) (R : S → T → Prop) : Prop where
  get : ∀ {s t spk}, R s t → spk ∈ K → (A.get s spk).1 = (B.get t spk).1 ∧
    R (A.get s spk).2 (B.get t spk).2
  set : ∀ {s t spk}, R s t → spk ∈ K → ∀ st, R (A.set s spk st) (B.set t spk st)

section Sim

variable {S T ε : Type} {A : AccountStore S} {B : AccountStore T} {K : Finset ScriptPublicKey}
  {R : S → T → Prop} (H : AccountStoreSim A B K R)

include H

variable {spk : ScriptPublicKey}

theorem getAccount_sim (hk : spk ∈ K) :
    Action.Rel R (A.getAccount spk : Action S ε AccountState) (B.getAccount spk) := fun _ _ hR =>
  ⟨congrArg Except.ok (H.get hR hk).1, (H.get hR hk).2⟩

theorem setBatch_sim (hk : spk ∈ K) (st : AccountState) :
    Action.Rel R (A.setBatch spk st : Action S ε Unit) (B.setBatch spk st) :=
  fun _ _ hR => ⟨rfl, H.set hR hk st⟩

theorem updateBalanceBatch_sim (hk : spk ∈ K) (change : Int64) : Action.Rel R
      (A.updateBalanceBatch spk change : Action S ε Unit) (B.updateBalanceBatch spk change) :=
  Action.rel_bind (getAccount_sim H hk) fun _ => setBatch_sim H hk _

end Sim

/-! ## 4. The live accounts as a ledger -/

def liveLedger (s : DbAccounts) : Ledger := fun spk => (s.latest spk).getD .default

/-- The accounts `K` fit into the cache, and the ledger is `L`. -/
def Mirrors (K : Finset ScriptPublicKey) (s : DbAccounts) (L : Ledger) : Prop :=
  s.Fits K ∧ liveLedger s = L

/-- **The cached database runs as a ledger** while the accounts in use fit into the cache. -/
theorem dbAccountStore_sim (K : Finset ScriptPublicKey) :
    AccountStoreSim dbAccountStore ledgerStore K (Mirrors K) where
  get {s L spk} h hk := by
    obtain ⟨hf, rfl⟩ := h
    obtain ⟨h1, h2⟩ := hf.read hk
    refine ⟨congrArg (·.getD .default) (hf.read_eq spk), h1, ?_⟩
    funext q
    exact congrArg (·.getD .default) (congrFun h2 q)
  set {s L spk} h hk st := by
    obtain ⟨hf, rfl⟩ := h
    obtain ⟨h1, h2⟩ := hf.write hk st
    refine ⟨h1, ?_⟩
    funext q
    show ((s.write spk st).latest q).getD .default = update (liveLedger s) spk st q
    rw [h2]
    by_cases hq : q = spk
    · subst hq
      rw [update_self, update_self, Option.getD_some]
    · rw [update_of_ne hq, update_of_ne hq, liveLedger]

variable {K : Finset ScriptPublicKey} {s : DbAccounts}

theorem Mirrors.flush {L : Ledger} (h : Mirrors K s L) : Mirrors K s.flush L := by
  refine ⟨h.1.flush, ?_⟩
  rw [← h.2]
  funext q
  exact congrArg (·.getD .default) (CachedDb.latest_flush s q)

theorem dbAccountStore_get (h : s.Fits K) (spk : ScriptPublicKey) :
    (dbAccountStore.get s spk).1 = liveLedger s spk := congrArg (·.getD .default) (h.read_eq spk)

theorem ledgerStore_get_then {ε β : Type}
    (spk : ScriptPublicKey) (f : AccountState → Action Ledger ε β)
    (L : Ledger) : (ledgerStore.getAccount spk >>= f) L = f (L spk) L := rfl

theorem ledgerStore_updateBalanceBatch {ε : Type} (L : Ledger) (spk : ScriptPublicKey)
    (change : Int64) : (ledgerStore.updateBalanceBatch spk change : Action Ledger ε Unit) L =
      (.ok (), update L spk { L spk with balance := applyChange change (L spk).balance }) := rfl

end Sahyadri.Live
