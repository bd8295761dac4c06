import Sahyadri.Account.Changes

/-!
# Root proofs from peers, and the entries they are stored as

* `attributed_iff`: a call attributes its proof rightly exactly if it rejects it. Nothing of what is
  accepted is compared with the block.
-/

namespace Sahyadri.Sync

open Lib Smt Core Account Function

structure ProofRootEntry where
  proof : Bytes
  blueScore : UInt64
  aggregatedCount : UInt32
  chainCommitment : H256
  chainDepth : UInt32
  chainProof : Bytes
  nearestCheckpoint : Option Hash
  proofPending : Bool
  deriving DecidableEq

/-- `bincode::deserialize` and `verify_batch_stark_proof`. -/
structure BatchStark where
  BatchStarkProof : Type
  deserialize : Bytes → Option BatchStarkProof
  verifyBatchStarkProof : BatchStarkProof → Bool

/-- `DbProofRootsStore`. -/
abbrev ProofRoots := Hash → Option ProofRootEntry

section

variable (B : BatchStark) (put : Except StoreError Unit) (blockHash : Hash) (blueScore : UInt64)
  (aggregatedCount : UInt32) (proofBytes : Bytes) (roots : ProofRoots)

def peerEntry : ProofRootEntry :=
  { proof := proofBytes, blueScore, aggregatedCount, chainCommitment := .empty, chainDepth :=
    0, chainProof := [], nearestCheckpoint := none, proofPending := false }

/-- `verify_and_insert_block_proof`, with the answer of the database. The cache has the entry also
    if it is refused. -/
def verifyAndInsertBlockProof : Except String Unit × ProofRoots :=
  match B.deserialize proofBytes with
  | none => (.error "block_root_proof: deserialize failed", roots)
  | some proof =>
    if ¬ B.verifyBatchStarkProof proof then (.error "block_root_proof: verify failed", roots)
    else
      let roots := update roots blockHash (some (peerEntry blueScore aggregatedCount proofBytes))
      match put with
      | .error _ => (.error "proof_roots insert failed", roots)
      | .ok _ => (.ok (), roots)

/-- The proof verifies. -/
def Accepts : Prop :=
  ∃ proof, B.deserialize proofBytes = some proof ∧ B.verifyBatchStarkProof proof = true

/-- The entry has the blue score of the block's header. -/
def ScoreRight (headers : Hash → Option UInt64) (roots' : ProofRoots) : Prop :=
  ∀ e, roots' blockHash = some e → headers blockHash = some e.blueScore

/-- The proof is rejected for all other blocks. -/
def Bound : Prop := ∀ h ≠ blockHash, ∀ put score count roots,
  (verifyAndInsertBlockProof B put h score count proofBytes roots).1 ≠ .ok ()

/-- An entry that continues the chain of proofs keeps its part of it. -/
def KeepsChain (roots' : ProofRoots) : Prop :=
  ∀ e, roots blockHash = some e →
    0 < e.chainDepth → ∃ e', roots' blockHash = some e' ∧ e'.chainDepth = e.chainDepth ∧
    e'.chainCommitment = e.chainCommitment ∧ e'.chainProof = e.chainProof

variable {B put blockHash blueScore aggregatedCount proofBytes roots}

theorem verifyAndInsertBlockProof_eq_ok {roots' : ProofRoots} : verifyAndInsertBlockProof
      B put blockHash blueScore aggregatedCount proofBytes roots = (.ok (), roots') ↔
      Accepts B proofBytes ∧ put = .ok () ∧ update roots blockHash
        (some (peerEntry blueScore aggregatedCount proofBytes)) = roots' := by
  rw [verifyAndInsertBlockProof, Accepts]
  cases B.deserialize proofBytes with
  | none => simp
  | some proof => cases hverify : B.verifyBatchStarkProof proof <;> cases put <;> simp [hverify]

/-- **A call attributes its proof rightly exactly if it rejects it.** What it accepts it accepts for
    every other block, with the blue score of the message. -/
theorem attributed_iff (headers : Hash → Option UInt64) :
    ((∀ roots', verifyAndInsertBlockProof B put blockHash blueScore aggregatedCount proofBytes
        roots = (.ok (), roots') →
      ScoreRight blockHash headers roots' ∧ Bound B blockHash proofBytes ∧
      KeepsChain blockHash roots roots') ↔ ¬ (Accepts B proofBytes ∧ put = .ok ())) ∧
    ∀ roots', verifyAndInsertBlockProof B put blockHash blueScore aggregatedCount proofBytes
        roots = (.ok (), roots') →
      (ScoreRight blockHash headers roots' ↔ headers blockHash = some blueScore) ∧
      (KeepsChain blockHash roots roots' ↔ ∀ e, roots blockHash = some e → e.chainDepth = 0) := by
  refine ⟨⟨fun h ⟨haccepts, hput⟩ => ?_, fun hrejects roots' h => ?_⟩, fun roots' h => ?_⟩
  · obtain ⟨other, hother⟩ : ∃ other, other ≠ blockHash := by
      by_cases h0 : H256.ofNat 0 = blockHash
      · exact ⟨H256.ofNat 1, h0 ▸ by decide⟩
      · exact ⟨_, h0⟩
    have hbound := (h _ (verifyAndInsertBlockProof_eq_ok.mpr ⟨haccepts, hput, rfl⟩)).2.1
    exact hbound other hother put blueScore aggregatedCount roots
      (congrArg Prod.fst (verifyAndInsertBlockProof_eq_ok.mpr ⟨haccepts, hput, rfl⟩))
  · obtain ⟨haccepts, hput, -⟩ := verifyAndInsertBlockProof_eq_ok.mp h
    exact absurd ⟨haccepts, hput⟩ hrejects
  · obtain ⟨-, -, rfl⟩ := verifyAndInsertBlockProof_eq_ok.mp h
    simp only [ScoreRight, KeepsChain, update_self]
    grind [peerEntry]

/-- **A proof for any block.** One proof is stored for two blocks with a blue score of its sender,
    and the chain of depth 3 is gone. -/
theorem root_proof_misattributed :
    let a := H256.ofNat 1
    let b := H256.ofNat 2
    let B : BatchStark := ⟨Unit, fun _ => some (), fun _ => true⟩
    let old : ProofRootEntry := { peerEntry 5 1 [1] with chainDepth := 3, chainProof := [7] }
    ∃ roots' roots'',
      verifyAndInsertBlockProof B (.ok ()) a 9 1 [2] (update (fun _ => none) a (some old)) =
        (.ok (), roots') ∧
      verifyAndInsertBlockProof B (.ok ()) b 9 1 [2] roots' = (.ok (), roots'') ∧
      roots'' b = some (peerEntry 9 1 [2]) ∧
      ∃ e, roots' a = some e ∧ e.blueScore = 9 ∧ e.chainDepth = 0 ∧ e.chainProof = [] :=
  ⟨_, _, rfl, rfl, update_self .., _, update_self .., rfl, rfl, rfl⟩

end

end Sahyadri.Sync
