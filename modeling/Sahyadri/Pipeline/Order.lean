import Sahyadri.Account.Tree
import Sahyadri.Did.Tree

/-!
# The committed root and the iteration order of the hash maps

`compute_block_account_changes` and `compute_block_did_changes` walk over a hash map, whose order
differs from node to node. The map is keyed by scripts or DID strings, the tree by their hashed and
padded bytes.

* `block_roots_order_iff`: no order matters exactly when scripts (and DIDs) whose key strings alias
  are brought to the same leaf by the block.
-/

namespace Sahyadri.Pipeline

open Lib Smt Core Account Did List Node

/-! ## 1. Orders and aliases -/

section Order

variable {S : Type} {N : NodeStore S} {c : Crypto} {𝒩 : Set Node}

/-- The sequences hashed for the keys of a block. -/
def keySeqs (scripts : List ScriptPublicKey) (dids : List String) : Set (List Goldilocks) :=
  {q | (∃ spk ∈ scripts, q = keySeq (accountKeyBytes spk)) ∨
    ∃ did ∈ dids, q = keySeq (didKeyBytes did)}

/-- **The iteration orders are irrelevant exactly when aliases agree**, if the node hash has no
    collision on the nodes of the two trees and those put in any order. -/
theorem block_roots_order_iff (hN : N.Lawful (hash c.sponge))
    (hg : GoodNodes (hash c.sponge) 𝒩) (flashTxs : List FlashTransaction)
    (rewards : Rewards) (ops : List DidOp)
    (hσ : Set.InjOn c.sponge (keySeqs (touchedScripts c flashTxs rewards) (ops.map DidOp.did)))
    (states : StatesReader) (daaScore : UInt64) {s : S} {parentRoot : H256} {t : Tree}
    (hroot : Rooted N (hash c.sponge) 𝒩 s parentRoot t)
    (hputs : ∀ ord, ∀ n ∈ accountPuts c N states ord s parentRoot flashTxs rewards daaScore, n ∈ 𝒩)
    (didStates : DidStatesReader) (didDaaScore : UInt64) (network : Prefix)
    (verify : Verifier) {z : S} {didRoot : H256} {u : Tree}
    (hdidRoot : Rooted N (hash c.sponge) 𝒩 z didRoot u)
    (hdidPuts : ∀ ord,
      ∀ n ∈ didPuts c N didStates didDaaScore network verify ord z didRoot ops, n ∈ 𝒩) :
    ((∀ ord₁ ord₂,
        (computeBlockAccountChanges c N states ord₁ parentRoot flashTxs rewards daaScore s).1.map
          Prod.fst =
        (computeBlockAccountChanges c N states ord₂ parentRoot flashTxs rewards daaScore s).1.map
          Prod.fst) ∧
      ∀ ord₁ ord₂,
        (computeBlockDidChanges c N didStates didDaaScore network verify ord₁ didRoot ops z).1.map
          Prod.fst =
        (computeBlockDidChanges c N didStates didDaaScore network verify ord₂ didRoot ops z).1.map
          Prod.fst) ↔
      (Applicable c (readAccountState c N states s parentRoot) flashTxs rewards →
        ∀ a ∈ touchedScripts c flashTxs rewards, ∀ b ∈ touchedScripts c flashTxs rewards,
          KeyAlias (accountKeyBytes a) (accountKeyBytes b) →
            let after := blockState c (baseLedger (readAccountState c N states s parentRoot))
              flashTxs rewards daaScore
            (after a).leaf c = (after b).leaf c) ∧
      (DidsApplicable c network (readDid c N didStates z didRoot) ops →
        let after := DidView.run c didDaaScore network verify
          (baseDocs (readDid c N didStates z didRoot)) ops
        ∀ a ∈ after.changed, ∀ b ∈ after.changed, KeyAlias (didKeyBytes a) (didKeyBytes b) →
          (after.docs a).map (didContentHash c) = (after.docs b).map (didContentHash c)) := by
  refine and_congr ((accounts_order_iff hN hg hroot hputs).trans (imp_congr_right fun _ => ?_))
    ((dids_order_iff hN hg hdidRoot hdidPuts).trans (imp_congr_right fun _ => ?_))
  · refine forall₂_congr fun a ha => forall₂_congr fun b hb =>
      imp_congr_left (hashKey_eq_iff (hσ.mono ?_))
    exact Set.pair_subset (.inl ⟨a, ha, rfl⟩) (.inl ⟨b, hb, rfl⟩)
  · refine forall₂_congr fun a ha => forall₂_congr fun b hb =>
      imp_congr_left (hashKey_eq_iff (hσ.mono ?_))
    exact Set.pair_subset (.inr ⟨a, DidView.mem_of_changed ha, rfl⟩)
      (.inr ⟨b, DidView.mem_of_changed hb, rfl⟩)

end Order

/-! ## 2. Two blocks -/

def noStates : StatesReader := fun _ => .error .keyNotFound

def payment : FlashTransaction :=
  ⟨0, [1], List.replicate 20 2, 3, 0, 100, List.replicate 16 0, [], by decide⟩

/-- A coinbase payload with subsidy 5, whose miner script is the recipient's with a zero byte. -/
def aliasPayload : Bytes :=
  u64Le 1 ++ u64Le 5 ++ u16Le 0 ++ [23] ++ (recipientOf payment).script ++ [0]

/-- **The order matters**: the recipient's and the miner's script share a leaf, which ends up with
    the balance written last. -/
theorem reward_order_matters :
    coinbaseRewards ⟨150, 204, 1, by decide, by decide⟩ "" aliasPayload =
        [(⟨0, (recipientOf payment).script ++ [0]⟩, 5)] ∧
      (computeBlockAccountChanges toyCrypto polyStore noStates (.asListed _ _) .empty
          [payment] [(⟨0, (recipientOf payment).script ++ [0]⟩, 5)] 1 ⟨[]⟩).1.map Prod.fst ≠
        (computeBlockAccountChanges toyCrypto polyStore noStates (.reversed _ _) .empty
          [payment] [(⟨0, (recipientOf payment).script ++ [0]⟩, 5)] 1 ⟨[]⟩).1.map Prod.fst := by
  decide +kernel

def twoRewards : Rewards := [(⟨0, [1]⟩, 5), (⟨0, [2]⟩, 7)]

theorem order_pair {κ ν : Type} (ord : IterOrder κ ν) (x y : κ × ν) :
    ord.order [x, y] = [x, y] ∨ ord.order [x, y] = [y, x] := by
  have h := ord.perm [x, y]
  obtain ⟨a, b, hl⟩ := length_eq_two.mp h.length_eq
  rw [hl] at h ⊢
  rcases mem_pair.mp (h.mem_iff.mp mem_cons_self) with rfl | rfl
  · rw [perm_singleton.mp ((perm_cons a).mp h)]
    exact .inl rfl
  · rw [perm_singleton.mp ((perm_cons a).mp (h.trans (.swap a x [])))]
    exact .inr rfl

/-- The nodes put for the two rewards, in either order. -/
def twoRewardNodes : List Node :=
  accountPuts toyCrypto polyStore noStates (.asListed _ _) ⟨[]⟩ .empty [] twoRewards 1 ++
    accountPuts toyCrypto polyStore noStates (.reversed _ _) ⟨[]⟩ .empty [] twoRewards 1

theorem twoRewards_puts (ord : IterOrder ScriptPublicKey AccountState) :
    accountPuts toyCrypto polyStore noStates ord ⟨[]⟩ .empty [] twoRewards 1 ⊆ twoRewardNodes := by
  have hpairs : (touchedAccounts toyCrypto (readAccountState toyCrypto polyStore
      noStates ⟨[]⟩ .empty) [] twoRewards 1).map Table.pairs =
        .ok [(⟨0, [2]⟩, ⟨7, []⟩), (⟨0, [1]⟩, ⟨5, []⟩)] := by decide +kernel
  cases ht : touchedAccounts toyCrypto (readAccountState toyCrypto polyStore noStates
      ⟨[]⟩ .empty) [] twoRewards 1 with
  | error e =>
    rw [ht] at hpairs
    cases hpairs
  | ok touched =>
    rw [ht] at hpairs
    have hp : touched.pairs = _ := Except.ok.inj hpairs
    rw [twoRewardNodes, accountPuts_eq ht, accountPuts_eq ht, accountPuts_eq ht, hp]
    rcases order_pair ord (⟨0, [2]⟩, ⟨7, []⟩) (⟨0, [1]⟩, ⟨5, []⟩) with h | h <;> rw [h]
    · exact subset_append_left _ _
    · exact subset_append_right _ _

theorem didPuts_nil (ord : IterOrder String DidDocument) :
    didPuts toyCrypto polyStore (fun _ => .ok none) 1 .mainnet (fun _ _ _ => false) ord
      ⟨[]⟩ .empty [] = [] := by
  rw [didPuts_eq (touchedDids.eq_def ..), show Table.pairs ∅ = [] from rfl, (ord.perm []).eq_nil]
  rfl

theorem two_rewards_one_root :
    (computeBlockAccountChanges toyCrypto polyStore noStates (.asListed _ _) .empty []
        twoRewards 1 ⟨[]⟩).1.map Prod.fst =
      (computeBlockAccountChanges toyCrypto polyStore noStates (.reversed _ _) .empty []
        twoRewards 1 ⟨[]⟩).1.map Prod.fst := by
  have hg : GoodNodes (hash toyCrypto.sponge) {n | n ∈ twoRewardNodes} :=
    goodNodes_of_list (by decide +kernel) fun n hn => hn
  have halias : ∀ a ∈ touchedScripts toyCrypto [] twoRewards,
      ∀ b ∈ touchedScripts toyCrypto [] twoRewards,
        KeyAlias (accountKeyBytes a) (accountKeyBytes b) → a = b := by decide
  have hσ : Set.InjOn toyCrypto.sponge
      (keySeqs (touchedScripts toyCrypto [] twoRewards) (([] : List DidOp).map DidOp.did)) :=
    injOn_of_list
      (l := [keySeq (accountKeyBytes ⟨0, [1]⟩), keySeq (accountKeyBytes ⟨0, [2]⟩)]) (by decide)
      fun q hq => by simpa [keySeqs, touchedScripts, twoRewards, or_and_right, exists_or] using hq
  have hiff := block_roots_order_iff (memStore_lawful polySponge) hg [] twoRewards [] hσ noStates 1
    (rooted_empty _) (fun ord _ hn => twoRewards_puts ord hn) (fun _ => .ok none) 1 .mainnet
    (fun _ _ _ => false) (rooted_empty _)
    (fun ord _ hn => absurd (didPuts_nil ord ▸ hn) not_mem_nil)
  have hacc := (hiff.mpr ⟨fun _ a ha b hb hab => by rw [halias a ha b hb hab],
    fun _ a ha => by cases ha⟩).1
  exact hacc _ _

end Sahyadri.Pipeline
