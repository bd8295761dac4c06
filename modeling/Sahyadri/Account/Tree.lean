import Sahyadri.Account.Ledger
import Sahyadri.Smt.Map

/-!
# The account root after a block

* `writeLeaves_eq`: step 4 of `compute_block_account_changes` is one `update_many`.
-/

namespace Sahyadri.Account

open Lib Smt Core Action List

/-! ## 1. One batch of changes -/

def leafChange (c : Crypto) (x : ScriptPublicKey × AccountState) : H256 × Option H256 :=
  (accountKeyHash c x.1, x.2.leaf c)

section Tree

variable {S : Type} {c : Crypto} {N : NodeStore S} {states : StatesReader}
  {ord : IterOrder ScriptPublicKey AccountState} {s : S} {root : H256}
  {flashTxs : List FlashTransaction} {rewards : Rewards} {daaScore : UInt64}

theorem writeLeaves_eq (root : H256) (l : List (ScriptPublicKey × AccountState)) :
    writeLeaves c N root l =
      (updateMany N root (l.map (leafChange c))).mapErr AccountError.smt := by
  induction l generalizing root with
  | nil => rfl
  | cons x l ih =>
    rw [writeLeaves, map_cons, updateMany, mapErr_bind]
    exact congrArg (_ >>= ·) (funext fun r => ih r)

theorem computeBlockAccountChanges_batch :
    computeBlockAccountChanges c N states ord root flashTxs rewards daaScore s =
    writeBatch N .smt (leafChange c) id ord root
      (touchedAccounts c (readAccountState c N states s root) flashTxs rewards daaScore) s := by
  rw [computeBlockAccountChanges]
  simp only [writeLeaves_eq]
  rfl

theorem readAccountState_noPanic (s : S) (root : H256) (spk : ScriptPublicKey) :
    (readAccountState c N states s root spk).NoPanic := by
  refine ((get_noPanic N s root _).mapErr _).bind fun leaf _ => ?_
  cases leaf with
  | none => exact .ok _
  | some stateHash =>
    dsimp only
    split
    · exact .ok _
    · exact .ok _
    · exact .fail _

/-- **No panic**, whatever the root and the stores, if every recipient has 20 bytes. -/
theorem computeBlockAccountChanges_noPanic (hlen : ∀ tx ∈ flashTxs, 20 ≤ tx.recipient.length) :
    (computeBlockAccountChanges c N states ord root flashTxs rewards daaScore).NoPanic := by
  refine .bind (.lift fun s => touchedAccounts_kept Run.kept_noPanic daaScore hlen fun spk _ =>
    readAccountState_noPanic s root spk) fun touched => .bind ?_ fun r => .pure _
  rw [writeLeaves_eq]
  exact (updateMany_noPanic N _ _).mapErr _

/-- Node stores that answer alike give the same result. -/
theorem computeBlockAccountChanges_sim {T : Type}
    {M : NodeStore T} {R : S → T → Prop} (H : StoreSim N M R) :
    Rel R (computeBlockAccountChanges c N states ord root flashTxs rewards daaScore)
      (computeBlockAccountChanges c M states ord root flashTxs rewards daaScore) := by
  intro s t hR
  have hread : readAccountState c N states s root = readAccountState c M states t root :=
    funext fun spk => by
    rw [readAccountState, readAccountState, get_sim H hR]
  rw [computeBlockAccountChanges_batch, computeBlockAccountChanges_batch, hread]
  exact writeBatch_sim ord H _ s t hR

/-! ## 2. The nodes a block puts -/

theorem readAccountState_recorded (r : Recorded S) :
    readAccountState c (recorded N) states r root = readAccountState c N states r.inner root := by
  funext spk
  rw [readAccountState, readAccountState, get_sim (recorded_sim N) rfl]

def accountPuts (c : Crypto) (N : NodeStore S) (states : StatesReader)
    (ord : IterOrder ScriptPublicKey AccountState) (s : S) (root : H256)
    (flashTxs : List FlashTransaction) (rewards : Rewards) (daaScore : UInt64) : List Node :=
  (computeBlockAccountChanges c (recorded N) states ord root flashTxs rewards daaScore
    ⟨s, []⟩).2.log

variable {touched : Touched}

theorem accountPuts_eq (h : touchedAccounts c (readAccountState c N states s root) flashTxs rewards
      daaScore = .ok touched) : accountPuts c N states ord s root flashTxs rewards daaScore =
      putsOf N s root ((ord.order touched.pairs).map (leafChange c)) := by
  have h' : touchedAccounts c (readAccountState c (recorded N) states ⟨s, []⟩ root) flashTxs rewards
      daaScore = .ok touched := by
    rw [readAccountState_recorded]
    exact h
  rw [accountPuts, computeBlockAccountChanges_batch, writeBatch_eq ord h', putsOf]

/-! ## 3. The iteration order -/

/-- Scripts of the block that share a tree key end up with the same leaf. -/
def AliasesAgree (c : Crypto) (read : AccountReader)
    (flashTxs : List FlashTransaction) (rewards : Rewards) (daaScore : UInt64) : Prop :=
  ∀ a ∈ touchedScripts c flashTxs rewards, ∀ b ∈ touchedScripts c flashTxs rewards,
    accountKeyHash c a = accountKeyHash c b →
    (blockState c (baseLedger read) flashTxs rewards daaScore a).leaf c =
        (blockState c (baseLedger read) flashTxs rewards daaScore b).leaf c

/-- The block can be applied: recipients are long enough and its accounts can be read. -/
def Applicable (c : Crypto) (read : AccountReader)
    (flashTxs : List FlashTransaction) (rewards : Rewards) : Prop :=
  (∀ tx ∈ flashTxs, 20 ≤ tx.recipient.length) ∧
    ∀ spk ∈ touchedScripts c flashTxs rewards, ∃ st, read spk = .ok st

variable {read : AccountReader}

section

variable (h : touchedAccounts c read flashTxs rewards daaScore = .ok touched)

include h

theorem mem_touched_pairs {x : ScriptPublicKey × AccountState} :
    x ∈ touched.pairs ↔ x.1 ∈ touchedScripts c flashTxs rewards ∧
      x.2 = blockState c (baseLedger read) flashTxs rewards daaScore x.1 := by
  obtain ⟨spk, st⟩ := x
  rw [Table.mem_pairs, (touchedAccounts_spec h).2.2 spk]
  by_cases hm : spk ∈ touchedScripts c flashTxs rewards
  · simp [hm, eq_comm]
  · simp [hm]

theorem mem_touched_of_script {spk : ScriptPublicKey}
    (hspk : spk ∈ touchedScripts c flashTxs rewards) :
    (spk, blockState c (baseLedger read) flashTxs rewards daaScore spk) ∈ touched.pairs :=
  (mem_touched_pairs h).mpr ⟨hspk, rfl⟩

theorem consistent_touched_iff : Consistent (touched.pairs.map (leafChange c)) ↔
      AliasesAgree c read flashTxs rewards daaScore := by
  constructor
  · intro hcons a ha b hb hab
    exact hcons _ (mem_map_of_mem (mem_touched_of_script h ha)) _
      (mem_map_of_mem (mem_touched_of_script h hb)) hab
  · intro hag x hx y hy hxy
    obtain ⟨p, hp, rfl⟩ := mem_map.mp hx
    obtain ⟨q, hq, rfl⟩ := mem_map.mp hy
    obtain ⟨hp1, hp2⟩ := (mem_touched_pairs h).mp hp
    obtain ⟨hq1, hq2⟩ := (mem_touched_pairs h).mp hq
    show p.2.leaf c = q.2.leaf c
    rw [hp2, hq2]
    exact hag p.1 hp1 q.1 hq1 hxy

end

variable {𝒩 : Set Node}

/-- **The iteration order is irrelevant exactly when aliases agree**, if the block can be
    applied at all. -/
theorem accounts_order_iff (hN : N.Lawful (Node.hash c.sponge))
    (hg : GoodNodes (Node.hash c.sponge) 𝒩)
    {t : Tree} (hroot : Rooted N (Node.hash c.sponge) 𝒩 s root t)
    (hlog : ∀ ord, ∀ n ∈ accountPuts c N states ord s root flashTxs rewards daaScore, n ∈ 𝒩) :
    (∀ ord₁ ord₂,
      (computeBlockAccountChanges c N states ord₁ root flashTxs rewards daaScore s).1.map Prod.fst =
        (computeBlockAccountChanges c N states ord₂ root flashTxs rewards daaScore s).1.map
          Prod.fst) ↔ (Applicable c (readAccountState c N states s root) flashTxs rewards →
        AliasesAgree c (readAccountState c N states s root) flashTxs rewards daaScore) := by
  simp only [computeBlockAccountChanges_batch]
  rw [writeBatch_order_iff hN hg hroot fun touched ht ord => accountPuts_eq ht ▸ hlog ord]
  constructor
  · intro h ha
    obtain ⟨touched, ht⟩ := touchedAccounts_kept Run.kept_ok daaScore ha.1 ha.2
    exact (consistent_touched_iff ht).mp (h touched ht)
  · intro h touched ht
    have hspec := touchedAccounts_spec ht
    exact (consistent_touched_iff ht).mpr (h ⟨hspec.1, fun spk hspk => ⟨_, hspec.2.1 spk hspk⟩⟩)

end Tree

end Sahyadri.Account
