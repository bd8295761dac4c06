import Sahyadri.Account.Total
import Sahyadri.Account.Tree

/-!
# `compute_block_account_changes` as a step of the ledger that the tree stands for

The states under a root are found through their leaves: the tree gives a hash for a key, the state
store a state for the hash. The code reads them one by one into a map, changes the map, and writes
its entries back as leaves in the order in which the map is iterated.

* `LedgerStep`, `ledger_step_iff`: with hashes that do not collide and covered debits the code makes
  the step exactly if no recipient is shorter than 20 bytes.
-/

namespace Sahyadri.Account

open Lib Smt Core List Node Finset AccountState Smt

/-! ## 1. The states under a root -/

section Slots

variable {S : Type} (c : Crypto) (N : NodeStore S) (states : StatesReader) (s : S) (root : H256)

/-- The state in the slot of a key; an empty one where there is no leaf. -/
def slotState (key : H256) : AccountState :=
  match get N s root key with
  | .ok (some h) =>
    match states h with
    | .ok st => st
    | .error _ => .default
  | _ => .default

/-- The states of all scripts under a root. -/
def parentLedger : Ledger := fun spk => slotState N states s root (accountKeyHash c spk)

def slotTotal (keys : Finset H256) : Nat := ∑ k ∈ keys, (slotState N states s root k).balance.toNat

/-- Every leaf under the root has its state in the state store. -/
def Backed : Prop := ∀ key h, get N s root key = .ok (some h) → ∃ st, states h = .ok st

end Slots

/-- The state store after the changes: it has their states, and for every older state one of the
    same balance. -/
structure Persisted (c : Crypto) (states states' : StatesReader)
    (changes : List (ScriptPublicKey × AccountState)) : Prop where
  written : ∀ x ∈ changes, x.2.isEmpty = false → states' (x.2.contentHash c) = .ok x.2
  kept : ∀ h st, states h = .ok st → ∃ st', states' h = .ok st' ∧ st'.balance = st.balance

section Step

variable {S : Type} {c : Crypto} {N : NodeStore S} {states states' : StatesReader} {s s' : S}
  {root newRoot : H256} {flashTxs : List FlashTransaction} {rewards : Rewards}
  {daaScore : UInt64} {changes : List (ScriptPublicKey × AccountState)}

/-- The states after a block: the flash transactions in order, the rewards, and the accounts of the
    block pruned. -/
def stepLedger (c : Crypto) (N : NodeStore S) (states : StatesReader) (s : S) (root : H256)
    (flashTxs : List FlashTransaction) (rewards : Rewards) (daaScore : UInt64) : Ledger :=
  blockState c (parentLedger c N states s root) flashTxs rewards daaScore

/-- The accounts `touched` have the states of `L'`, every other key has the leaf that it had. -/
structure Written (c : Crypto) (N : NodeStore S) (s : S) (root : H256)
    (touched : List ScriptPublicKey) (L' : Ledger) (newRoot : H256)
    (changes : List (ScriptPublicKey × AccountState)) (s' : S) : Prop where
  listed : ∀ x, x ∈ changes ↔ x.1 ∈ touched ∧ x.2 = L' x.1
  leaf : ∀ a ∈ touched, get N s' newRoot (accountKeyHash c a) = .ok ((L' a).leaf c)
  untouched : ∀ key, (∀ a ∈ touched, accountKeyHash c a ≠ key) →
    get N s' newRoot key = get N s root key

/-- **The ledger step**: the states are written, a state is absent from the tree exactly if it has
    no balance and no entries, it is read again once the changes are in the state store, and the
    balances in all slots together change by rewards and fees. -/
structure LedgerStep (c : Crypto) (N : NodeStore S) (states : StatesReader) (s : S) (root : H256)
    (flashTxs : List FlashTransaction) (rewards : Rewards) (daaScore : UInt64)
    (newRoot : H256) (changes : List (ScriptPublicKey × AccountState)) (s' : S) : Prop
    extends Written c N s root (touchedScripts c flashTxs rewards)
      (stepLedger c N states s root flashTxs rewards daaScore) newRoot changes s' where
  absent : ∀ a ∈ touchedScripts c flashTxs rewards, get N s' newRoot (accountKeyHash c a) =
    .ok none ↔ stepLedger c N states s root flashTxs rewards daaScore a = ⟨0, []⟩
  reads : ∀ states', Persisted c states states' changes → ∀ a ∈ touchedScripts c flashTxs rewards,
    readAccountState c N states' s' newRoot a =
    .ok (stepLedger c N states s root flashTxs rewards daaScore a)
  total : ∀ states', Persisted c states states' changes → ∀ keys : Finset H256,
    (∀ a ∈ touchedScripts c flashTxs rewards, accountKeyHash c a ∈ keys) →
      slotTotal N states' s' newRoot keys + totalFees flashTxs =
        slotTotal N states s root keys + (rewards.map fun r => r.2.toNat).sum

/-! ## 2. Reading -/

variable {key h : H256}

theorem slotState_none (h : get N s root key = .ok none) :
    slotState N states s root key = .default := by
  rw [slotState, h]

variable {st : AccountState}

theorem slotState_some (hget : get N s root key = .ok (some h)) (hst : states h = .ok st) :
    slotState N states s root key = st := by
  rw [slotState, hget]
  dsimp only
  rw [hst]

theorem leaf_eq_none : st.leaf c = none ↔ st = ⟨0, []⟩ := by
  unfold AccountState.leaf
  split
  · rename_i h
    exact iff_of_true rfl (isEmpty_iff.mp h)
  · rename_i h
    exact iff_of_false (fun he => by cases he) fun he => h (isEmpty_iff.mpr he)

theorem readAccountState_eq {𝒩 : Set Node} {t : Tree} (hg : GoodNodes (hash c.sponge) 𝒩)
    (hroot : Rooted N (hash c.sponge) 𝒩 s root t)
    (hb : Backed N states s root) (spk : ScriptPublicKey) :
    readAccountState c N states s root spk = .ok (parentLedger c N states s root spk) := by
  have hget := hroot.get_eq hg (accountKeyHash c spk)
  unfold readAccountState parentLedger
  cases hl : t.lookup (accountKeyHash c spk) with
  | none =>
    rw [hl] at hget
    rw [slotState_none hget, hget]
    rfl
  | some h =>
    rw [hl] at hget
    obtain ⟨st, hst⟩ := hb _ _ hget
    rw [slotState_some hget hst, hget, Run.mapErr_ok, Run.ok_bind]
    dsimp only
    rw [hst]
    rfl

theorem readAccountState_leaf {spk : ScriptPublicKey}
    (hget : get N s' newRoot (accountKeyHash c spk) = .ok (st.leaf c))
    (hwritten : st.isEmpty = false → states' (st.contentHash c) = .ok st) :
    readAccountState c N states' s' newRoot spk = .ok st := by
  unfold readAccountState
  rw [hget, Run.mapErr_ok, Run.ok_bind, AccountState.leaf]
  cases he : st.isEmpty with
  | true =>
    rw [isEmpty_iff.mp he]
    rfl
  | false =>
    rw [if_neg Bool.false_ne_true]
    dsimp only
    rw [hwritten he]
    rfl

theorem slotState_leaf (hget : get N s' newRoot key = .ok (st.leaf c))
    (hwritten : st.isEmpty = false → states' (st.contentHash c) = .ok st) :
    slotState N states' s' newRoot key = st := by
  cases he : st.isEmpty with
  | true =>
    have hnone : st.leaf c = none := leaf_eq_none.mpr (isEmpty_iff.mp he)
    rw [hnone] at hget
    rw [slotState_none hget, isEmpty_iff.mp he]
  | false =>
    have hsome : st.leaf c = some (st.contentHash c) := by
      rw [AccountState.leaf, he, if_neg Bool.false_ne_true]
    rw [hsome] at hget
    exact slotState_some hget (hwritten he)

theorem balance_of_same_leaf (hb : Backed N states s root)
    (hkept : ∀ h st, states h = .ok st → ∃ st', states' h = .ok st' ∧ st'.balance = st.balance)
    (hget : get N s' newRoot key = get N s root key) :
    (slotState N states' s' newRoot key).balance = (slotState N states s root key).balance := by
  cases hl : get N s root key with
  | error e => rw [slotState, slotState, hget, hl]
  | ok leaf =>
    rw [hl] at hget
    cases leaf with
    | none => rw [slotState_none hget, slotState_none hl]
    | some h =>
      obtain ⟨st, hst⟩ := hb key h hl
      obtain ⟨st', hst', hbal⟩ := hkept h st hst
      rw [slotState_some hget hst', slotState_some hl hst, hbal]

/-! ## 3. What is written -/

section Written

variable {touched : List ScriptPublicKey} {L' : Ledger}

theorem Written.state (h : Written c N s root touched L' newRoot changes s')
    (hp : Persisted c states states' changes) {a : ScriptPublicKey} (ha : a ∈ touched)
    (hne : (L' a).isEmpty = false) : states' ((L' a).contentHash c) = .ok (L' a) :=
  hp.written (a, L' a) ((h.listed _).mpr ⟨ha, rfl⟩) hne

/-- **The sum over all slots** changes as the ledger does on the touched accounts. -/
theorem Written.slotTotal (h : Written c N s root touched L' newRoot changes s')
    (hp : Persisted c states states' changes) (hb : Backed N states s root)
    (hkeys : ∀ a ∈ touched, ∀ b ∈ touched, accountKeyHash c a = accountKeyHash c b → a = b)
    {keys : Finset H256} (hall : ∀ a ∈ touched, accountKeyHash c a ∈ keys) :
    slotTotal N states' s' newRoot keys + (parentLedger c N states s root).total touched.toFinset =
      slotTotal N states s root keys + L'.total touched.toFinset := by
  let K := touched.toFinset.image (accountKeyHash c)
  have hinj : Set.InjOn (accountKeyHash c) touched.toFinset := fun a ha b hb he =>
    hkeys a (mem_toFinset.mp ha) b (mem_toFinset.mp hb) he
  have hsub : K ⊆ keys := image_subset_iff.mpr fun a ha => hall a (mem_toFinset.mp ha)
  have hnew : ∑ k ∈ K,
      (slotState N states' s' newRoot k).balance.toNat = L'.total touched.toFinset := by
    rw [sum_image hinj]
    refine sum_congr rfl fun a ha => ?_
    have ha' := mem_toFinset.mp ha
    rw [slotState_leaf (h.leaf a ha') (h.state hp ha'), Ledger.bal]
  have hold : ∑ k ∈ K, (slotState N states s root k).balance.toNat =
      (parentLedger c N states s root).total touched.toFinset := by
    rw [sum_image hinj]
    rfl
  have hrest : ∑ k ∈ keys \ K, (slotState N states' s' newRoot k).balance.toNat =
      ∑ k ∈ keys \ K, (slotState N states s root k).balance.toNat := by
    refine sum_congr rfl fun k hk => ?_
    have hno : ∀ a ∈ touched, accountKeyHash c a ≠ k := fun a ha he =>
      (mem_sdiff.mp hk).2 (mem_image.mpr ⟨a, mem_toFinset.mpr ha, he⟩)
    rw [balance_of_same_leaf hb hp.kept (h.untouched k hno)]
  unfold Account.slotTotal
  rw [← sum_sdiff hsub, ← sum_sdiff hsub, hnew, hold, hrest]
  omega

end Written

/-! ## 4. The step -/

variable {𝒩 : Set Node} {t : Tree}

/-- **The states are written** if every recipient has 20 bytes. -/
theorem written_of_recipients (hN : N.Lawful (hash c.sponge))
    (hg : GoodNodes (hash c.sponge) 𝒩) (hroot : Rooted N (hash c.sponge) 𝒩 s root t)
    (ord : IterOrder ScriptPublicKey AccountState)
    (hlog : ∀ n ∈ accountPuts c N states ord s root flashTxs rewards daaScore, n ∈ 𝒩)
    (hkeys : ∀ a ∈ touchedScripts c flashTxs rewards, ∀ b ∈ touchedScripts c flashTxs rewards,
      accountKeyHash c a = accountKeyHash c b → a = b)
    (hb : Backed N states s root) (hlen : ∀ tx ∈ flashTxs, 20 ≤ tx.recipient.length) :
    ∃ newRoot changes s', computeBlockAccountChanges c N states ord root flashTxs rewards daaScore
      s = (.ok (newRoot, changes), s') ∧ Written c N s root (touchedScripts c flashTxs rewards)
        (stepLedger c N states s root flashTxs rewards daaScore) newRoot changes s' := by
  have hread := readAccountState_eq hg hroot hb
  have hbase : baseLedger (readAccountState c N states s root) = parentLedger c N states s root :=
    funext fun spk => by rw [baseLedger, hread]
  obtain ⟨touched, ht⟩ : ∃ touched, touchedAccounts c (readAccountState c N states s root) flashTxs
      rewards daaScore = .ok touched :=
    touchedAccounts_kept Run.kept_ok daaScore hlen fun spk _ => ⟨_, hread spk⟩
  have hlisted : ∀ x, x ∈ ord.order touched.pairs ↔ x.1 ∈ touchedScripts c flashTxs rewards ∧
      x.2 = stepLedger c N states s root flashTxs rewards daaScore x.1 := fun x => by
    rw [(ord.perm touched.pairs).mem_iff, mem_touched_pairs ht, hbase, stepLedger]
  obtain ⟨newRoot, s', hrun, hnew, _⟩ := hroot.updateMany hN hg (accountPuts_eq ht ▸ hlog)
  have hget : ∀ key, get N s' newRoot key = .ok (KeyMap.apply t.lookup
      ((ord.order touched.pairs).map (leafChange c)) key) := fun key => by
    rw [hnew.get_eq hg, lookup_updates hroot.canon]
  -- no two changes are for one key, so that the order in which they are made does not matter
  have hcons : Consistent ((ord.order touched.pairs).map (leafChange c)) := by
    intro x hx y hy hxy
    obtain ⟨a, ha, rfl⟩ := mem_map.mp hx
    obtain ⟨b, hb', rfl⟩ := mem_map.mp hy
    obtain ⟨ha1, ha2⟩ := (hlisted a).mp ha
    obtain ⟨hb1, hb2⟩ := (hlisted b).mp hb'
    show a.2.leaf c = b.2.leaf c
    rw [ha2, hb2, hkeys a.1 ha1 b.1 hb1 hxy]
  refine ⟨newRoot, ord.order touched.pairs, s', ?_, hlisted, fun a ha => ?_, fun key hkey => ?_⟩
  · rw [computeBlockAccountChanges_batch, writeBatch_eq ord ht, hrun]
    rfl
  · have hx : leafChange c (a, stepLedger c N states s root flashTxs rewards daaScore a) ∈
        (ord.order touched.pairs).map (leafChange c) := mem_map_of_mem ((hlisted _).mpr ⟨ha, rfl⟩)
    rw [hget]
    exact congrArg Except.ok (KeyMap.apply_of_mem hcons hx)
  · rw [hget, hroot.get_eq hg, KeyMap.apply_of_notMem fun hm => ?_]
    obtain ⟨x, hx, hxk⟩ := mem_map.mp hm
    obtain ⟨y, hy, rfl⟩ := mem_map.mp hx
    exact hkey y.1 ((hlisted y).mp hy).1 hxk

/-- The balances after the block, if every debit is there and no credit is cut off. -/
theorem total_stepLedger (daaScore : UInt64)
    (hpaid : Paid c (parentLedger c N states s root) flashTxs) (hfit : ∀ a, excess maxBalance
      ((parentLedger c N states s root).bal a) (effectChanges c flashTxs rewards a) = 0) :
    (stepLedger c N states s root flashTxs rewards daaScore).total
        (touchedScripts c flashTxs rewards).toFinset + totalFees flashTxs =
      (parentLedger c N states s root).total (touchedScripts c flashTxs rewards).toFinset +
        (rewards.map fun r => r.2.toNat).sum := by
  let T := (touchedScripts c flashTxs rewards).toFinset
  have hsame : (stepLedger c N states s root flashTxs rewards daaScore).total T =
      ((parentLedger c N states s root).effects c flashTxs rewards).total T :=
    sum_congr rfl fun a ha => bal_blockState c _ (mem_toFinset.mp ha)
  have hrewards : ∀ r ∈ rewards, r.1 ∈ T :=
    fun r hr => mem_toFinset.mpr (mem_append_right _ (mem_map_of_mem hr))
  have hsum := Ledger.total_effects_add hpaid (fun tx htx => mem_toFinset.mpr (mem_append_left _
      (mem_flatMap.mpr ⟨tx, htx, mem_cons_self⟩))) (fun tx htx => mem_toFinset.mpr
      (mem_append_left _ (mem_flatMap.mpr ⟨tx, htx, mem_cons_of_mem _ mem_cons_self⟩))) hrewards
  rw [sum_eq_zero fun a _ => hfit a, Nat.add_zero] at hsum
  rw [hsame]
  exact hsum

/-- **The code makes the ledger step exactly if no recipient has less than 20 bytes**, given that
    the hashes do not collide, every leaf has its state, and debits and credits fit. -/
theorem ledger_step_iff (hN : N.Lawful (hash c.sponge))
    (hg : GoodNodes (hash c.sponge) 𝒩) (hroot : Rooted N (hash c.sponge) 𝒩 s root t)
    (ord : IterOrder ScriptPublicKey AccountState)
    (hlog : ∀ n ∈ accountPuts c N states ord s root flashTxs rewards daaScore, n ∈ 𝒩)
    (hkeys : ∀ a ∈ touchedScripts c flashTxs rewards, ∀ b ∈ touchedScripts c flashTxs rewards,
      accountKeyHash c a = accountKeyHash c b → a = b)
    (hb : Backed N states s root) (hpaid : Paid c (parentLedger c N states s root) flashTxs)
    (hfit : ∀ a, excess maxBalance ((parentLedger c N states s root).bal a)
      (effectChanges c flashTxs rewards a) = 0) : (∃ newRoot changes s', computeBlockAccountChanges
      c N states ord root flashTxs rewards daaScore s = (.ok (newRoot, changes), s') ∧
      LedgerStep c N states s root flashTxs rewards daaScore newRoot changes s') ↔
      ∀ tx ∈ flashTxs, 20 ≤ tx.recipient.length := by
  constructor
  · intro h
    obtain ⟨newRoot, changes, s', hrun, _⟩ := h
    rw [computeBlockAccountChanges_batch] at hrun
    obtain ⟨touched, ht, _⟩ := writeBatch_ok hrun
    exact (touchedAccounts_spec ht).1
  · intro hlen
    obtain ⟨newRoot, changes, s', hrun, hw⟩ :=
      written_of_recipients hN hg hroot ord hlog hkeys hb hlen
    refine ⟨newRoot, changes, s', hrun, hw, fun a ha => ?_, fun states' hp a ha => ?_,
      fun states' hp keys hall => ?_⟩
    · rw [hw.leaf a ha, Except.ok.injEq, leaf_eq_none]
    · exact readAccountState_leaf (hw.leaf a ha) (hw.state hp ha)
    · have hslots := hw.slotTotal hp hb hkeys hall
      have htotal := total_stepLedger daaScore hpaid hfit
      omega

end Step

/-! ## 5. A payment and a reward -/

variable (recipient : Bytes)

/-- A payment of 5 with a fee of 1, from the account of the key `05`. -/
def draft : FlashTransaction :=
  ⟨0, [5], recipient, 5, 1, 100, List.replicate 16 4, [], by decide⟩

def payer : ScriptPublicKey := flashPubkeyToSpk toyCrypto [5]

def payerState : AccountState := ⟨10, []⟩

def payerLeaf : Node := .leaf (accountKeyHash toyCrypto payer) (payerState.contentHash toyCrypto)

def payerRoot : H256 := payerLeaf.hash polySponge

def payerNodes : MemStore := ⟨[(payerRoot, payerLeaf)]⟩

def payerStates : StatesReader := fun h =>
  if h = payerState.contentHash toyCrypto then .ok payerState else .error .keyNotFound

abbrev payerLedger : Ledger := parentLedger toyCrypto polyStore payerStates payerNodes payerRoot

def minerReward : Rewards := [(⟨0, [1]⟩, 3)]

def draftNodes : List Node :=
  payerLeaf :: accountPuts toyCrypto polyStore payerStates (.asListed _ _) payerNodes
    payerRoot [draft recipient] minerReward 1

theorem payer_rooted :
    Rooted polyStore (hash polySponge) {n | n ∈ draftNodes recipient} payerNodes payerRoot
      (.leaf (accountKeyHash toyCrypto payer) (payerState.contentHash toyCrypto)) :=
  rooted_leaf polySponge mem_cons_self

section Payer

variable {recipient : Bytes} (hg : GoodNodes (hash polySponge) {n | n ∈ draftNodes recipient})

include hg

theorem payer_get (key : H256) :
    get polyStore payerNodes payerRoot key =
      .ok (if accountKeyHash toyCrypto payer = key then some (payerState.contentHash toyCrypto)
        else none) :=
  (payer_rooted recipient).get_eq hg key

theorem payer_backed : Backed polyStore payerStates payerNodes payerRoot := by
  intro key h hget
  rw [payer_get hg] at hget
  obtain ⟨_, hh⟩ := Option.ite_none_right_eq_some.mp (Except.ok.inj hget)
  cases hh
  exact ⟨payerState, if_pos rfl⟩

theorem payer_fits (a : ScriptPublicKey) : excess maxBalance (payerLedger.bal a)
      (effectChanges toyCrypto [draft recipient] minerReward a) = 0 := by
  have hbal : payerLedger.bal a ≤ 10 := by
    unfold Ledger.bal payerLedger parentLedger
    by_cases h : accountKeyHash toyCrypto payer = accountKeyHash toyCrypto a
    · rw [slotState_some ((payer_get hg _).trans (by rw [if_pos h])) (if_pos rfl)]
      decide
    · rw [slotState_none ((payer_get hg _).trans (by rw [if_neg h]))]
      decide
  have hgiven : credits (effectChanges toyCrypto [draft recipient] minerReward a) ≤ 8 := by
    unfold effectChanges minerReward
    rw [flatMap_singleton, flatMap_singleton, credits_append, flashChanges, credits_append,
      rewardChanges]
    split <;> split <;> split <;> simp [credits, Change.given, draft]
  refine excess_eq_zero ?_
  unfold maxBalance
  omega

end Payer

theorem step_of_draft :
    ∃ newRoot changes s', computeBlockAccountChanges toyCrypto polyStore payerStates
        (.asListed _ _) payerRoot [draft (List.replicate 20 2)] minerReward 1
        payerNodes = (.ok (newRoot, changes), s') ∧
      LedgerStep toyCrypto polyStore payerStates payerNodes payerRoot
        [draft (List.replicate 20 2)] minerReward 1 newRoot changes s' := by
  have hg : GoodNodes (hash polySponge) {n | n ∈ draftNodes (replicate 20 2)} :=
    goodNodes_of_list (by decide +kernel) fun n hn => hn
  exact (ledger_step_iff (memStore_lawful polySponge) hg (payer_rooted _)
    (.asListed _ _) (fun n hn => mem_cons_of_mem _ hn) (by decide) (payer_backed hg)
    (by decide +kernel) (payer_fits hg)).mpr (by decide)

/-- **A recipient without bytes**: every assumption holds, and the code panics. -/
theorem no_step_of_bare_draft : GoodNodes (hash polySponge) {n | n ∈ draftNodes []} ∧
      Rooted polyStore (hash polySponge) {n | n ∈ draftNodes []} payerNodes payerRoot
        (.leaf (accountKeyHash toyCrypto payer) (payerState.contentHash toyCrypto)) ∧
      (∀ a ∈ touchedScripts toyCrypto [draft []] minerReward,
        ∀ b ∈ touchedScripts toyCrypto [draft []] minerReward,
          accountKeyHash toyCrypto a = accountKeyHash toyCrypto b → a = b) ∧
      Backed polyStore payerStates payerNodes payerRoot ∧
      Paid toyCrypto payerLedger [draft []] ∧ (∀ a, excess maxBalance
        (payerLedger.bal a) (effectChanges toyCrypto [draft []] minerReward a) = 0) ∧
      (computeBlockAccountChanges toyCrypto polyStore payerStates (.asListed _ _)
        payerRoot [draft []] minerReward 1 payerNodes).1 = .panicked := by
  have hg : GoodNodes (hash polySponge) {n | n ∈ draftNodes []} :=
    goodNodes_of_list (by decide +kernel) fun n hn => hn
  exact ⟨hg, payer_rooted _, by decide +kernel, payer_backed hg, by
    decide +kernel, payer_fits hg, by decide +kernel⟩

end Sahyadri.Account
