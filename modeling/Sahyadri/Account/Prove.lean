import Sahyadri.Account.Changes
import Sahyadri.Smt.Honest

/-!
# `prove_account`: the account proofs served to light clients

* `proveAccount`: the proof of the tree, and the state of the account if the walk ends at the
  account's own leaf and the state store answers for its value.
-/

namespace Sahyadri.Account

open Lib Smt Core Option AccountState

/-! ## 1. `prove_account` -/

structure AccountProofFlashEntry where
  flashId : Hash
  expiryDaaScore : UInt64
  deriving DecidableEq, Repr

structure AccountProofState where
  balance : UInt64
  recentFlashes : List AccountProofFlashEntry
  deriving DecidableEq, Repr

/-- `AccountProof`. The payload has the shape of the tree's proof. -/
structure AccountProof where
  blockHash : Hash
  accountRoot : Hash
  key : H256
  proof : Proof
  state : Option AccountProofState
  stateHash : H256
  deriving DecidableEq, Repr

def AccountProofState.of (st : AccountState) : AccountProofState :=
  ⟨st.balance, st.recentFlashes.map fun f => ⟨f.flashId, f.expiryDaaScore⟩⟩

/-- The account state a served state stands for. The block of an entry is not served. -/
def AccountProofState.toState (ps : AccountProofState) : AccountState :=
  ⟨ps.balance, ps.recentFlashes.map fun f => ⟨f.flashId, f.expiryDaaScore, .default⟩⟩

section Prove

variable {S : Type} (c : Crypto) (N : NodeStore S) (states : StatesReader)

/-- The state served with a proof and its hash: none for an empty terminal or the leaf of another
    account. -/
def resolveState (key : H256) : Terminal → Option AccountProofState × H256
  | .empty => (none, .empty)
  | .leaf leafKey value =>
    if leafKey ≠ key then (none, .empty)
    else
      match states value with
      | .ok s => (some (.of s), value)
      | .error _ => (none, value)

/-- `prove_account`. The caller sets the block hash. -/
def proveAccount (s : S) (root : H256) (spk : ScriptPublicKey) : Run AccountError AccountProof := do
  let key := accountKeyHash c spk
  let smtProof ← (prove N s root key).mapErr AccountError.smt
  let (state, stateHash) := resolveState states key smtProof.terminal
  return ⟨.default, root, key, smtProof, state, stateHash⟩

end Prove

/-! ## 2. The served state -/

open AccountProofState

theorem contentHash_of (c : Crypto) (st : AccountState) :
    (of st).toState.contentHash c = st.contentHash c := by
  have hmap : (of st).toState.recentFlashes =
      st.recentFlashes.map fun f => { f with blockHash := .default } := by
    simp [of, toState]
  have hsort := List.map_insertionSort (r := idLe) (s := idLe)
    (fun f : FlashEntry => { f with blockHash := Hash.default }) st.recentFlashes
    fun _ _ _ _ => Iff.rfl
  unfold contentHash preimage toCanonicalBytes
  dsimp only
  rw [hmap, ← hsort, List.length_map, List.flatMap_map]
  rfl

/-- The store holds under a hash a state with that content hash. -/
def ContentAddressed (c : Crypto) (states : StatesReader) : Prop :=
  ∀ h st, states h = .ok st → st.contentHash c = h

/-- What is served for an account, by the value of its leaf. -/
def served (states : StatesReader) : Option H256 → Option AccountProofState × H256
  | none => (none, .empty)
  | some v =>
    match states v with
    | .ok st => (some (.of st), v)
    | .error _ => (none, v)

theorem served_eq_some {states : StatesReader} {value : Option H256} {ps : AccountProofState}
    {v : H256} : served states value = (some ps, v) ↔ value = some v ∧ ∃ st, states v = .ok st ∧
      ps = .of st := by
  cases value with
  | none => simp [served]
  | some w =>
    cases hw : states w with
    | error e =>
      simp only [served, hw, Prod.mk.injEq, reduceCtorEq, false_and, some.injEq, false_iff]
      intro h
      obtain ⟨rfl, st, hst, _⟩ := h
      rw [hw] at hst
      cases hst
    | ok st =>
      simp only [served, hw, Prod.mk.injEq, some.injEq]
      constructor
      · intro h
        obtain ⟨rfl, rfl⟩ := h
        exact ⟨rfl, st, hw, rfl⟩
      · intro h
        obtain ⟨rfl, st', hst, rfl⟩ := h
        rw [hw] at hst
        cases hst
        exact ⟨rfl, rfl⟩

section Held

variable {S : Type} {c : Crypto} {N : NodeStore S} {states : StatesReader} {𝒩 : Set Node}

theorem resolveState_terminalOf (key : H256) (e : Option (H256 × H256)) : resolveState states key
      (terminalOf e) = served states (e.bind fun x => if x.1 = key then some x.2 else none) := by
  rcases e with _ | ⟨k, v⟩
  · rfl
  · by_cases hk : k = key
    · subst hk
      simp only [terminalOf, resolveState, served, bind_some, ne_eq, not_true, if_false, if_true]
    · simp only [terminalOf, resolveState, served, bind_some, ne_eq, hk, not_false_eq_true, if_true,
        if_false]

/-- **`prove_account` on a held tree**: the tree's proof, and what is served for the account. -/
theorem proveAccount_eq (hg : GoodNodes (Node.hash c.sponge) 𝒩) {s : S} {root : H256} {t : Tree}
    (h : Rooted N (Node.hash c.sponge) 𝒩 s root t) (states : StatesReader) (spk : ScriptPublicKey) :
    ∃ ap, proveAccount c N states s root spk = .ok ap ∧
    prove N s root (accountKeyHash c spk) = .ok ap.proof ∧
      (ap.state, ap.stateHash) = served states (t.lookup (accountKeyHash c spk)) ∧
      ∀ v, t.lookup (accountKeyHash c spk) = some v →
      ap.proof.terminal = .leaf (accountKeyHash c spk) v := by
  obtain ⟨p, hp, hterm, _⟩ := prove_answers hg h (accountKeyHash c spk)
  refine ⟨_, by simp only [proveAccount, hp, Run.mapErr_ok, Run.ok_bind]; rfl, hp, ?_,
    fun v hv => ?_⟩
  · rw [hterm, resolveState_terminalOf, Tree.lookup, Trie.lookup_eq_endOf]
  · rw [Tree.lookup, Trie.lookup_eq_endOf] at hv
    obtain ⟨⟨k, w⟩, he, hv⟩ := bind_eq_some_iff.mp hv
    obtain ⟨hk, hw⟩ := ite_none_right_eq_some.mp hv
    cases hw
    rw [hterm, he, ← hk]
    rfl

end Held

/-! ## 3. Honest proofs -/

section Honest

variable {S : Type} {c : Crypto} {N : NodeStore S}

/-- **Honest proofs verify and say the truth.** On every root built by updates from `EMPTY`, `prove`
    and `get` return, and the verifiers answer the proof by what `get` returned. `prove_account`
    returns as well; it serves a state exactly for the accounts that are present, with the proved
    leaf value as its hash, exactly when the state store answers for the account's leaf. -/
theorem honest_proofs_iff (hN : N.Lawful (Node.hash c.sponge)) (s : S) (cs : Changes)
    (hg : GoodNodes (Node.hash c.sponge) {n | n ∈ putsOf N s .empty cs}) :
    ∃ root s', updateMany N .empty cs s = (.ok root, s') ∧
      (∀ key, ∃ p value, prove N s' root key = .ok p ∧ Smt.get N s' root key = .ok value ∧
        Answers c.sponge root key value p) ∧ ∀ (states : StatesReader) (spk : ScriptPublicKey),
        (∃ ap, proveAccount c N states s' root spk = .ok ap ∧
          prove N s' root (accountKeyHash c spk) = .ok ap.proof ∧
          (ap.state.isSome = true ↔ ∃ v, Smt.get N s' root (accountKeyHash c spk) = .ok (some v)) ∧
          (ContentAddressed c states → ∀ ps, ap.state = some ps →
            ap.proof.terminal = .leaf (accountKeyHash c spk) (ps.toState.contentHash c) ∧
              ap.stateHash = ps.toState.contentHash c)) ↔
        ∀ v, Smt.get N s' root (accountKeyHash c spk) = .ok (some v) → ∃ st, states v = .ok st := by
  obtain ⟨root, s', hrun, hr⟩ := rooted_fromEmpty hN hg s cs fun n hn => hn
  refine ⟨root, s', hrun, fun key => ?_, fun states spk => ?_⟩
  · obtain ⟨p, hp, _, hans⟩ := prove_answers hg hr key
    exact ⟨p, _, hp, hr.get_eq hg key, hans⟩
  obtain ⟨ap, hap, hproof, hserved, hterm⟩ := proveAccount_eq hg hr states spk
  simp only [hr.get_eq hg, Except.ok.injEq]
  -- a state is served under the value of the account's leaf
  have hps : ∀ ps, ap.state = some ps → ∃ v st, (treeOf cs).lookup (accountKeyHash c spk) = some v ∧
      states v = .ok st ∧ ps = .of st ∧ ap.stateHash = v := fun ps h => by
    rw [h] at hserved
    obtain ⟨hv, st, hst, he⟩ := served_eq_some.mp hserved.symm
    exact ⟨_, st, hv, hst, he, rfl⟩
  constructor
  · intro h v hv
    obtain ⟨ap', hap', _, hsome, _⟩ := h
    obtain rfl : ap = ap' := Except.ok.inj (hap.symm.trans hap')
    obtain ⟨ps, hstate⟩ := isSome_iff_exists.mp (hsome.mpr ⟨v, hv⟩)
    obtain ⟨w, st, hw, hst, _⟩ := hps ps hstate
    rw [hv] at hw
    cases hw
    exact ⟨st, hst⟩
  · intro h
    refine ⟨ap, hap, hproof, ⟨fun hsome => ?_, fun hv => ?_⟩, fun hca ps hstate => ?_⟩
    · obtain ⟨ps, hstate⟩ := isSome_iff_exists.mp hsome
      obtain ⟨v, _, hv, _⟩ := hps ps hstate
      exact ⟨v, hv⟩
    · obtain ⟨v, hv⟩ := hv
      obtain ⟨st, hst⟩ := h v hv
      rw [served_eq_some.mpr ⟨hv, st, hst, rfl⟩] at hserved
      rw [(Prod.mk.inj hserved).1]
      rfl
    · obtain ⟨v, st, hv, hst, rfl, hhash⟩ := hps ps hstate
      rw [contentHash_of, hca v st hst]
      exact ⟨hterm v hv, hhash⟩

def soleAccount : ScriptPublicKey := p2pkhSpk (List.replicate 20 7)

def soleState : AccountState := ⟨5, []⟩

def soleLeaf : Node :=
  .leaf (accountKeyHash toyCrypto soleAccount) (soleState.contentHash toyCrypto)

def soleStates : StatesReader := fun h =>
  if h = soleState.contentHash toyCrypto then .ok soleState else .error .keyNotFound

theorem sole_run : updateMany polyStore .empty
      [(accountKeyHash toyCrypto soleAccount, soleState.leaf toyCrypto)] ⟨[]⟩ =
      (.ok (soleLeaf.hash polySponge), ⟨[(soleLeaf.hash polySponge, soleLeaf)]⟩) := by
  rw [updateMany, Smt.update, updateAt.eq_def]
  rfl

/-- The account is present, and a state store without its state serves none. -/
theorem missing_state_unserved :
    updateMany polyStore .empty [(accountKeyHash toyCrypto soleAccount, soleState.leaf toyCrypto)]
      ⟨[]⟩ = (.ok (soleLeaf.hash polySponge), ⟨[(soleLeaf.hash polySponge, soleLeaf)]⟩) ∧
    Smt.get polyStore ⟨[(soleLeaf.hash polySponge, soleLeaf)]⟩ (soleLeaf.hash polySponge)
      (accountKeyHash toyCrypto soleAccount) = .ok (some (soleState.contentHash toyCrypto)) ∧
    (proveAccount toyCrypto polyStore (fun _ => .error .keyNotFound)
      ⟨[(soleLeaf.hash polySponge, soleLeaf)]⟩ (soleLeaf.hash polySponge) soleAccount).map
        (fun ap => (ap.state, ap.stateHash)) = .ok (none, soleState.contentHash toyCrypto) :=
  ⟨sole_run, by decide +kernel, by decide +kernel⟩

theorem held_state_served :
    ∃ ap, proveAccount toyCrypto polyStore soleStates
        ⟨[(soleLeaf.hash polySponge, soleLeaf)]⟩ (soleLeaf.hash polySponge) soleAccount = .ok ap ∧
      ap.state.isSome = true := by
  obtain ⟨root, s', hrun, _, hacc⟩ := honest_proofs_iff (c := toyCrypto)
    (memStore_lawful polySponge)
    ⟨[]⟩ [(accountKeyHash toyCrypto soleAccount, soleState.leaf toyCrypto)]
    (goodNodes_of_list (by decide +kernel) fun n hn => hn)
  obtain ⟨hok, rfl⟩ := Prod.mk.inj (sole_run.symm.trans hrun)
  obtain rfl := Except.ok.inj hok
  have hget : Smt.get polyStore ⟨[(soleLeaf.hash polySponge, soleLeaf)]⟩
      (soleLeaf.hash polySponge) (accountKeyHash toyCrypto soleAccount) =
        .ok (some (soleState.contentHash toyCrypto)) := by decide +kernel
  obtain ⟨ap, hap, _, hsome, _⟩ := (hacc soleStates soleAccount).mpr fun v hv => by
    rw [hget] at hv
    cases hv
    exact ⟨soleState, if_pos rfl⟩
  exact ⟨ap, hap, hsome.mpr ⟨_, hget⟩⟩

end Honest

end Sahyadri.Account
