import Sahyadri.Mining.Reach

/-!
# Which submissions abort the node

* **`submission_survives_iff`**: on a reachable mempool a submission does not panic exactly if a
  check holds it up or it is `Insertable`: its inputs are not looked at, the pool has room and the
  payload is of the account model, or the pool is full and no fee rate is missing where one is
  unwrapped.
-/

namespace Sahyadri.Mining

open Lib Smt Core Tx

/-! ## 1. When a submission panics -/

namespace Mempool

/-- **A submission does not panic exactly if it is held up by a check or can be inserted.** -/
theorem submission_survives_iff {n : Node} {m : Mempool} (h : Reachable n m) (v : Virtual)
    (tx : Transaction) (priority : Priority) (orphan : Orphan) (policy : RbfPolicy) :
    (validateAndInsertTransaction n v tx priority orphan policy m).1 ≠ .panicked ↔
      (Screened n v m tx policy → Insertable n m (prepared n tx) policy) := by
  rcases validateAndInsert_spec h.settled v tx priority orphan policy with
    ⟨hp, hnot⟩ | ⟨hi, r, m', hrun, hr, _⟩
  · exact iff_of_false (fun hne => hne hp) hnot
  · rw [hrun]
    exact iff_of_true hr hi

end Mempool

/-! ## 2. A node that can be run -/

/-- The default configuration, with a small pool. -/
def toyConfig : Config where
  maximumTransactionCount := 2
  mempoolSizeLimit := 1000000
  transactionExpireIntervalDaaScore := 86400
  transactionExpireScanIntervalDaaScore := 60
  transactionExpireScanIntervalMilliseconds := 60000
  acceptedTransactionExpireIntervalDaaScore := 120
  acceptedTransactionExpireScanIntervalDaaScore := 10
  acceptedTransactionExpireScanIntervalMilliseconds := 10000
  orphanExpireIntervalDaaScore := 60
  orphanExpireScanIntervalDaaScore := 10
  maximumOrphanTransactionMass := 100000
  maximumOrphanTransactionCount := 500
  acceptNonStandard := false
  minimumRelayTransactionFee := 1000
  minimumStandardTransactionVersion := 0
  maximumStandardTransactionVersion := 0

/-- Fee rates compare as the fractions do. -/
def toyNode : Node where
  crypto := toyCrypto
  config := toyConfig
  validator := ⟨10, 10, 100, 100, 150⟩
  masses _ := ⟨500, 500⟩
  scripts := ⟨fun _ => .pubKey, fun _ => false, fun _ _ => 0⟩
  floats := ⟨fun a b => a.fee.toNat * b.mass.toNat > b.fee.toNat * a.mass.toNat,
    fun fee mass => Int.ofNat (fee.toNat * 1000000 / mass.toNat)⟩
  sizes := ⟨100, 50, 100, 50, 50, 35⟩
  iter l := l
  iter_perm _ := .refl _
  poolOrder := .asListed _ _

def toyVirtual : Virtual := ⟨0, 0⟩

def toyFlash (amount fee : UInt64) (salt : UInt8) : Transaction :=
  ((⟨1, [5], [6], amount, fee, 100, List.replicate 16 salt, [], rfl⟩ :
    FlashTransaction)).toTransaction toyCrypto

/-- A transaction that spends an output, in the format from before the account model. -/
def spending : Transaction :=
  .new toyCrypto 0 [⟨⟨.ofNat 7, 0⟩, [], 0, 0⟩] [] 0 subnetworkIdNative 0 []

def didOperation (b : UInt8) : Transaction :=
  .new toyCrypto 0 [] [] 0 subnetworkIdNative 0 (ascii "DCRT" ++ [b])

namespace Mempool

/-- **A transaction that spends an output passes the checks and panics**: its entry is unwrapped,
    and nothing has looked for it. -/
theorem spending_panics : Reachable toyNode (.new 0) ∧
    (validateAndInsertTransaction toyNode toyVirtual spending .low .allowed .allowed (.new 0)).1 =
      .panicked := ⟨.new 0, by decide⟩

-- Two DID operations fill the pool; to make room, one of them is asked for its fee rate.
example :
    let submit tx := validateAndInsertTransaction toyNode toyVirtual tx .low .allowed .allowed
    (submit (toyFlash 5 1 0) (submit (didOperation 1) (submit (didOperation 0) (.new 0)).2).2).1 =
      .panicked := by decide +kernel

def onePool : Mempool :=
  (validateAndInsertTransaction toyNode toyVirtual (toyFlash 5 1 0) .low .allowed .allowed
    (.new 0)).2

theorem reachable_onePool : Reachable toyNode onePool :=
  .step (.new 0) (.submit (Prod.eta _).symm (by decide +kernel)) fun _ _ => trivial

theorem toyFlash_survives : (toyFlash 5 1 0).id ∈ onePool.transactionPool.allTransactions ∧
    Screened toyNode toyVirtual onePool (toyFlash 7 1 1) .allowed ∧
    (validateAndInsertTransaction toyNode toyVirtual
      (toyFlash 7 1 1) .low .allowed .allowed onePool).1 ≠ .panicked := by
  have hscreen : Screened toyNode toyVirtual onePool (toyFlash 7 1 1) .allowed :=
    ⟨by decide +kernel, by decide +kernel, .inr (by decide +kernel), ⟨none, by decide +kernel⟩, by
    decide +kernel⟩
  refine ⟨by decide +kernel, hscreen,
    (submission_survives_iff reachable_onePool _ _ _ _ _).mpr fun _ =>
    ⟨.inr (.inr rfl), ?_⟩⟩
  intro _ gone hgone
  cases hgone with
  | nothing =>
    unfold TransactionsPool.Fits
    rw [if_pos (by decide +kernel)]
    decide
  | owner _ hd =>
    have hnil : onePool.transactionPool.accountSet.getDoubleSpendTransactionIds toyNode.crypto
        (prepared toyNode (toyFlash 7 1 1)) = [] := by decide +kernel
    cases hnil.symm.trans hd

end Mempool

end Sahyadri.Mining
