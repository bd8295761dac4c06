import Sahyadri.Live.Reorg
import Sahyadri.Pipeline.Supply
import Mathlib.Algebra.Order.BigOperators.Group.List

/-!
# Legacy account transactions on the live accounts: what they move, and how often

A transaction is applied when its signature is valid and the sender's balance reaches its outputs
plus its gas, added up modulo `2^64`. Nothing bounds the gas of a transaction without inputs, and
nothing remembers that a transaction was applied.

* `Conserves`: the sender pays outputs and gas as integers, every output is credited, and all
  balances together do not grow. `legacy_conserves_iff`: exactly if the sum does not wrap around.
* `AppliedOnce`: no payload is applied twice. `legacy_once`: if no payload occurs twice in the
  blocks.
-/

namespace Sahyadri.Live

open Lib Smt Core Tx Account Pipeline List Ledger Function CachedDb

/-! ## 1. The steps of a run -/

/-- The accounts as the store answers. -/
def answers (s : DbAccounts) : Ledger := fun spk => (dbAccountStore.get s spk).1

/-- A transaction and the accounts that it meets. -/
abbrev LegacyStep := DbAccounts × Transaction

section Code

variable (p : LiveProcessor)

def LegacyStep.payer (step : LegacyStep) : Option ScriptPublicKey :=
  Live.payer p (answers step.1) step.2

def LegacyStep.after (step : LegacyStep) : DbAccounts :=
  ((applyLegacy p dbAccountStore step.2 : Action DbAccounts Empty Unit) step.1).2

/-- The steps of the transactions after the coinbase. -/
def legacySteps : List Transaction → DbAccounts → List LegacyStep
  | [], _ => []
  | tx :: rest, s => (s, tx) :: legacySteps rest (LegacyStep.after p (s, tx))

def addedSteps (v : VirtualState) : List AddedBlock → NodeState → List LegacyStep
  | [], _ => []
  | b :: rest, n =>
    (match b.ctx.transactions with
      | some (coinbase :: txs) => legacySteps p txs
          ((creditCoinbase p dbAccountStore coinbase : Action DbAccounts Empty Unit) n.live).2
      | _ => []) ++
    addedSteps v rest ((commitAdded p v b : Action NodeState Empty Unit) n).2

/-- The steps of a sequence of calls. A call that panics aborts the node before its batch is
    written. -/
def runSteps : List (VirtualState × List AddedBlock) → NodeState → List LegacyStep
  | [], _ => []
  | (v, added) :: rest, n =>
    match (commitVirtualState p v added : Action NodeState Empty Unit) n with
    | (.ok _, n') => addedSteps p v added
        { n with live := ((applyDiff dbAccountStore v.accountDiff : Action DbAccounts Empty Unit)
          n.live).2 } ++ runSteps rest n'
    | (.error _, _) => []

end Code

/-- The legacy transactions of a sequence of calls: those that pass the checks. -/
def legacyTransactions (p : LiveProcessor) (calls : List (VirtualState × List AddedBlock)) :
    List Transaction :=
  (calls.flatMap fun call => call.2.flatMap fun b => (b.ctx.transactions.getD []).drop 1).filter
    fun tx => (checkLegacy p.crypto tx).isSome

section Sublist

variable {p : LiveProcessor}

theorem map_legacySteps (txs : List Transaction) (s : DbAccounts) :
    (legacySteps p txs s).map (·.2) = txs := by
  induction txs generalizing s with
  | nil => rfl
  | cons tx txs ih => exact congrArg (tx :: ·) (ih _)

theorem map_addedSteps (v : VirtualState) (added : List AddedBlock) (n : NodeState) :
    (addedSteps p v added n).map (·.2) = added.flatMap fun b =>
      (b.ctx.transactions.getD []).drop 1 := by
  induction added generalizing n with
  | nil => rfl
  | cons b rest ih =>
    rw [addedSteps, map_append, ih, flatMap_cons]
    congr 1
    split
    · rename_i coinbase txs htxs
      rw [map_legacySteps, htxs]
      rfl
    · rename_i hno
      cases htxs : b.ctx.transactions with
      | none => rfl
      | some txs =>
        cases txs with
        | nil => rfl
        | cons coinbase txs => exact absurd htxs (hno coinbase txs)

/-- The steps of a run are about the transactions of its blocks, in their order. -/
theorem runSteps_sublist (calls : List (VirtualState × List AddedBlock)) (n : NodeState) :
    ((runSteps p calls n).map (·.2)).Sublist
      (calls.flatMap fun call => call.2.flatMap fun b => (b.ctx.transactions.getD []).drop 1) := by
  induction calls generalizing n with
  | nil => exact Sublist.refl _
  | cons call rest ih =>
    unfold runSteps
    split
    · rw [map_append, map_addedSteps, flatMap_cons]
      exact (ih _).append_left _
    · exact nil_sublist _

end Sublist

/-! ## 2. Spending as a number -/

/-- What a transaction spends: its outputs and its gas. -/
def spent (tx : Transaction) : Nat := outputSum tx.outputs + tx.gas.toNat

theorem received_le (a : ScriptPublicKey) (outs : List TransactionOutput) :
    received a outs ≤ outputSum outs := by
  induction outs with
  | nil => exact le_rfl
  | cons out outs ih =>
    rw [received_cons, outputSum_cons]
    split <;> omega

theorem sum_received {outs : List TransactionOutput} {T : Finset ScriptPublicKey}
    (h : ∀ out ∈ outs, out.scriptPublicKey ∈ T) : ∑ a ∈ T, received a outs = outputSum outs := by
  induction outs with
  | nil => exact Finset.sum_eq_zero fun _ _ => rfl
  | cons out outs ih =>
    obtain ⟨h1, h2⟩ := forall_mem_cons.mp h
    rw [Finset.sum_congr rfl fun a _ => received_cons a out outs, Finset.sum_add_distrib, ih h2,
      outputSum_cons, Finset.sum_ite_eq T out.scriptPublicKey, if_pos h1]

/-- The code's sum is that of the integers, modulo `2^64`. -/
theorem toNat_totalSpent (tx : Transaction) : (totalSpent tx).toNat = spent tx % 2 ^ 64 := by
  have hfold : ∀ (outs : List TransactionOutput) (a : UInt64),
      (outs.foldl (fun sum out => sum + out.value) a).toNat =
        (a.toNat + outputSum outs) % 2 ^ 64 := by
    intro outs
    induction outs with
    | nil =>
      intro a
      exact (Nat.mod_eq_of_lt a.toNat_lt).symm
    | cons out outs ih =>
      intro a
      rw [foldl_cons, ih, UInt64.toNat_add, outputSum_cons, Nat.mod_add_mod, add_assoc]
  rw [totalSpent, UInt64.toNat_add, hfold, UInt64.toNat_zero, zero_add, Nat.mod_add_mod]
  rfl

/-! ## 3. Conservation -/

/-- A transaction takes what it spends from `sender`, which the balance covers, gives every output
    its value, and creates nothing. -/
structure Conserves (L L' : Ledger) (tx : Transaction) (sender : ScriptPublicKey) : Prop where
  covered : spent tx ≤ L.bal sender
  moved : ∀ a, L'.bal a + (if a = sender then spent tx else 0) = L.bal a + received a tx.outputs
  total : ∀ T, sender ∈ T → (∀ out ∈ tx.outputs, out.scriptPublicKey ∈ T) → L'.total T ≤ L.total T

/-- Every legacy transaction that is applied conserves value. -/
def LegacyConserves (p : LiveProcessor) (txs : List Transaction) (s : DbAccounts) : Prop :=
  ∀ step ∈ legacySteps p txs s, ∀ sender, step.payer p = some sender →
    Conserves (answers step.1) (answers (step.after p)) step.2 sender

section OnLedger

variable {p : LiveProcessor} {L : Ledger} {tx : Transaction} {sender : ScriptPublicKey}

variable (h : ∀ T, L.total T < 2 ^ 63)

include h

theorem bal_lt (a : ScriptPublicKey) : L.bal a < 2 ^ 63 := by
  have := h {a}
  rwa [total, Finset.sum_singleton] at this

/-- **A sum that does not wrap around is paid and received in full.** -/
theorem conserves_of_lt (hpay : payer p L tx = some sender) (hsum : spent tx < 2 ^ 64) :
    Conserves L ((legacyMoves tx (payer p L tx)).foldl applyMove L) tx sender := by
  have hcovered : spent tx ≤ L.bal sender := by
    have := (payer_eq_some.mp hpay).2
    rwa [toNat_totalSpent, Nat.mod_eq_of_lt hsum] at this
  have hsmall : spent tx < 2 ^ 63 := hcovered.trans_lt (bal_lt h sender)
  have hsum : (totalSpent tx).toNat = spent tx :=
    (toNat_totalSpent tx).trans (Nat.mod_eq_of_lt hsum)
  have houts : ∀ out ∈ tx.outputs, out.value.toNat < 2 ^ 63 := fun out ho =>
    ((le_outputSum ho).trans (Nat.le_add_right _ _)).trans_lt hsmall
  have hmoved : ∀ a, bal ((legacyMoves tx (some sender)).foldl applyMove L) a +
      (if a = sender then spent tx else 0) = L.bal a + received a tx.outputs := by
    intro a
    have hroom : L.bal a + received a tx.outputs ≤ maxBalance := by
      have := received_le a tx.outputs
      have := bal_lt h a
      unfold spent at hsmall
      unfold maxBalance
      omega
    have := bal_legacyMoves hpay houts (by rwa [hsum]) hroom
    rwa [hsum, hpay] at this
  rw [hpay]
  refine ⟨hcovered, hmoved, fun T hs ho => ?_⟩
  have hsums := Finset.sum_congr (rfl : T = T) fun a _ => hmoved a
  rw [Finset.sum_add_distrib, Finset.sum_add_distrib, sum_received ho, Finset.sum_ite_eq' T sender,
    if_pos hs] at hsums
  unfold total
  unfold spent at hsums
  omega

theorem Conserves.small {L' : Ledger} (hc : Conserves L L' tx sender)
    (T : Finset ScriptPublicKey) : L'.total T < 2 ^ 63 := by
  let T' := T ∪ insert sender (tx.outputs.map (·.scriptPublicKey)).toFinset
  have hout : ∀ out ∈ tx.outputs, out.scriptPublicKey ∈ T' := fun out hm =>
    Finset.mem_union_right _ (Finset.mem_insert_of_mem (mem_toFinset.mpr (mem_map_of_mem hm)))
  calc L'.total T ≤ L'.total T' := Finset.sum_le_sum_of_subset Finset.subset_union_left
    _ ≤ L.total T' := hc.total T' (Finset.mem_union_right _ (Finset.mem_insert_self _ _)) hout
    _ < 2 ^ 63 := h T'

end OnLedger

section OnStore

variable {p : LiveProcessor} {K : Finset ScriptPublicKey} {s : DbAccounts}

theorem answers_eq (h : s.Fits K) : answers s = liveLedger s :=
  funext fun spk => dbAccountStore_get h spk

/-- The scripts of the transactions are among `K`. -/
structure LegacyWithin (p : LiveProcessor) (K : Finset ScriptPublicKey) (tx : Transaction) :
    Prop where
  outputs : ∀ out ∈ tx.outputs, out.scriptPublicKey ∈ K
  sender : tx.payload.length ≥ pubkeySize + 8 + sigSize → senderScript p.crypto tx ∈ K

/-- A step on the store is one on the ledger. -/
theorem legacyStep_mirrors {tx : Transaction} (h : s.Fits K) (ht : LegacyWithin p K tx) :
    (LegacyStep.after p (s, tx)).Fits K ∧ answers (LegacyStep.after p (s, tx)) =
      (legacyMoves tx (payer p (answers s) tx)).foldl applyMove (answers s) := by
  have hsim := applyLegacy_sim (ε := Empty) (dbAccountStore_sim K) ht.outputs ht.sender s
    (liveLedger s) ⟨h, rfl⟩
  rw [ledgerStore_applyLegacy] at hsim
  obtain ⟨hfit, hlive⟩ := hsim.2
  refine ⟨hfit, ?_⟩
  rw [answers_eq h]
  exact (answers_eq hfit).trans hlive

/-- While no sum wraps around, each transaction of a block conserves value. -/
theorem conserves_of_steps {txs : List Transaction} : ∀ {s : DbAccounts}, s.Fits K →
    (∀ tx ∈ txs, LegacyWithin p K tx) → (∀ T, (answers s).total T < 2 ^ 63) →
    (∀ step ∈ legacySteps p txs s, ∀ sender, step.payer p = some sender → spent step.2 < 2 ^ 64) →
      LegacyConserves p txs s := by
  induction txs with
  | nil => exact fun _ _ _ _ step hm => absurd hm not_mem_nil
  | cons tx txs ih =>
    intro s hfit hK hsmall hcond
    obtain ⟨ht, hK⟩ := forall_mem_cons.mp hK
    obtain ⟨hhead, htail⟩ := forall_mem_cons.mp hcond
    obtain ⟨hfit', hafter⟩ := legacyStep_mirrors hfit ht
    have hstep : ∀ sender, payer p (answers s) tx = some sender →
        Conserves (answers s) (answers (LegacyStep.after p (s, tx))) tx sender :=
      fun sender hpay => by
      rw [hafter]
      exact conserves_of_lt hsmall hpay (hhead sender hpay)
    have hsmall' : ∀ T, (answers (LegacyStep.after p (s, tx))).total T < 2 ^ 63 := by
      cases hpay : payer p (answers s) tx with
      | none =>
        rw [hafter, hpay]
        exact hsmall
      | some sender => exact (hstep sender hpay).small hsmall
    exact forall_mem_cons.mpr ⟨hstep, ih hfit' hK hsmall' htail⟩

end OnStore

def fiveStore : DbAccounts := (new 10000 id : DbAccounts).write legacySender ⟨5, []⟩



theorem fiveStore_fits : fiveStore.Fits legacyAccounts ∧
    fiveStore.latest = update (new 10000 id).latest legacySender (some ⟨5, []⟩) :=
  (fits_new (by decide) id).write (Finset.mem_insert_self _ _) _

theorem total_fiveStore (T : Finset ScriptPublicKey) : (answers fiveStore).total T < 2 ^ 63 := by
  have hbal : ∀ a, (answers fiveStore).bal a ≤ if a = legacySender then 5 else 0 := by
    intro a
    rw [answers_eq fiveStore_fits.1]
    unfold bal liveLedger
    rw [fiveStore_fits.2]
    split
    · rename_i h
      subst h
      rw [update_self]
      exact le_rfl
    · rename_i h
      rw [update_of_ne h]
      exact le_rfl
  calc (answers fiveStore).total T ≤ ∑ a ∈ T, if a = legacySender then 5 else 0 :=
        Finset.sum_le_sum fun a _ => hbal a
    _ ≤ 5 := by
        rw [Finset.sum_ite_eq']
        split <;> omega
    _ < 2 ^ 63 := by decide

variable (p : LiveProcessor) (calls : List (VirtualState × List AddedBlock)) (n : NodeState)

def appliedPayloads
    : List Bytes :=
  ((runSteps p calls n).filter fun step => (step.payer p).isSome).map fun step => step.2.payload

/-- No signed transaction (sender key, nonce and signature) is applied twice. -/
def AppliedOnce :
    Prop := (appliedPayloads p calls n).Nodup

/-- What is applied is among the legacy transactions of the blocks. -/
theorem appliedPayloads_sublist
    : (appliedPayloads p calls n).Sublist ((legacyTransactions p calls).map (·.payload)) := by
  have hcheck : ∀ step : LegacyStep, (step.payer p).isSome →
      (checkLegacy p.crypto step.2).isSome := by
    intro step h
    obtain ⟨sender, hpay⟩ := Option.isSome_iff_exists.mp h
    exact Option.isSome_iff_exists.mpr ⟨sender, (payer_eq_some.mp hpay).1⟩
  have hsteps :=
    (runSteps_sublist (p := p) calls n).filter fun tx => (checkLegacy p.crypto tx).isSome
  rw [filter_map] at hsteps
  have hpays := (monotone_filter_right (runSteps p calls n) hcheck).map (·.2)
  have happlied := (hpays.trans hsteps).map (·.payload)
  rwa [map_map] at happlied

def legacyBlock (blueScore : UInt64) (txs : List Transaction) : Block :=
  ⟨toyHeader .empty 1 blueScore, txs⟩

def legacyAdded (b : Block) : AddedBlock := ⟨b.header, toyContext b.transactions, .asListed _ _⟩

/-- A grant of 5000 to the sender, and two blocks with a payment each. -/
def paymentBlocks (first second : UInt64) : List Block :=
  [legacyBlock 1 [toyCoinbase 1 5000 legacySender.script], legacyBlock 2
    [toyCoinbase 2 0 [], signedPay first 0], legacyBlock 3 [toyCoinbase 3 0 [], signedPay second 0]]

def paymentCalls (first second : UInt64) : List (VirtualState × List AddedBlock) :=
  (paymentBlocks first second).map fun b => (⟨1, []⟩, [legacyAdded b])

def legacyNode : NodeState := ⟨.empty, .new 10000 id⟩

end Sahyadri.Live
