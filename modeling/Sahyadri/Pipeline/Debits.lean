import Sahyadri.Pipeline.Chain

/-!
# Who can lose balance in an accepted block

* `debits_authorised_iff`: neither body validation nor `verify_block_state` checks any of this, so
  it holds exactly for blocks whose losing senders' transactions happen to be so.
-/

namespace Sahyadri.Pipeline

open Lib Smt Core Account Did Ledger

/-! ## 1. Authorised debits -/

/-- A flash transaction that its sender has signed, in time, and can pay. `L` are the accounts when
    its turn comes. -/
structure Authorised (c : Crypto) (daaScore : UInt64) (L : Ledger) (f : FlashTransaction) :
    Prop where
  signed : c.verify f.pubkey f.signature (f.sighash c).bytes = true
  unexpired : daaScore ≤ f.expiryDaaScore
  covered : f.amount.toNat + f.fee.toNat ≤ L.bal (senderOf c f)

/-- Every account whose committed balance falls was debited by its own authorised transactions. -/
def DebitsAuthorised (p : VirtualProcessor) (st st' : Stores) (root root' : H256)
    (txs : List Transaction) (daaScore : UInt64) : Prop :=
  ∀ key, (committed p.crypto st' root' key).balance < (committed p.crypto st root key).balance →
    (∃ f ∈ (p.effects txs).1, accountKeyHash p.crypto (senderOf p.crypto f) = key) ∧ ∀ pre f post,
    (p.effects txs).1 = pre ++ f :: post → accountKeyHash p.crypto (senderOf p.crypto f) = key →
          Authorised p.crypto daaScore (pre.foldl (flash p.crypto) (ledger p.crypto st root)) f

/-- The scripts and DIDs of a block have slots of their own, and those of the DIDs hold no
    balance. -/
structure SlotsApart (p : VirtualProcessor) (st : Stores) (root : H256) (txs : List Transaction) :
    Prop where
  scripts : ∀ a ∈ p.scripts txs, ∀ b ∈ p.scripts txs, accountKeyHash p.crypto a =
    accountKeyHash p.crypto b → a = b
  dids : ∀ d ∈ (didOpsOf txs).map DidOp.did, ∀ a ∈ p.scripts txs,
    didKeyHash p.crypto d ≠ accountKeyHash p.crypto a
  unfunded : ∀ d ∈ (didOpsOf txs).map DidOp.did,
    (committed p.crypto st root (didKeyHash p.crypto d)).balance = 0

/-! ## 2. The committed balances -/

section Balances

variable {p : VirtualProcessor} {st st' : Stores} {root root' : H256} {txs : List Transaction}
  {daaScore : UInt64} {dids : List String}

section

variable (h : Commits p st st' root root' txs daaScore dids)

include h

variable (ha : SlotsApart p st root txs)

include ha

theorem Commits.balance_touched {a : ScriptPublicKey} (hm : a ∈ p.scripts txs) :
    (committed p.crypto st' root' (accountKeyHash p.crypto a)).balance.toNat =
      ((ledger p.crypto st root).effects p.crypto (p.effects txs).1 (p.effects txs).2).bal a := by
  obtain ⟨b, hb, hkey, hs⟩ := h.touched a hm fun d hd => ha.dids d (h.named d hd) a hm
  obtain rfl := ha.scripts b hb a hm hkey
  rw [hs.balance]
  exact bal_blockState p.crypto _ hm

theorem Commits.touched_of_lt {key : H256}
    (hlt : (committed p.crypto st' root' key).balance < (committed p.crypto st root key).balance) :
    ∃ a ∈ p.scripts txs, accountKeyHash p.crypto a = key := by
  by_contra hno
  push Not at hno
  by_cases hd : ∃ d ∈ dids, didKeyHash p.crypto d = key
  · obtain ⟨d, hd, rfl⟩ := hd
    rw [ha.unfunded d (h.named d hd)] at hlt
    exact Nat.not_lt_zero _ hlt
  · push Not at hd
    rw [(h.untouched key hd hno).balance, UInt64.lt_iff_toNat_lt] at hlt
    exact lt_irrefl _ hlt

/-- **Debits are authorised exactly when those of losing senders are.** -/
theorem Commits.debits_iff : DebitsAuthorised p st st' root root' txs daaScore ↔
      ∀ pre f post, (p.effects txs).1 = pre ++ f :: post →
        ((ledger p.crypto st root).effects p.crypto (p.effects txs).1 (p.effects txs).2).bal
            (senderOf p.crypto f) < (ledger p.crypto st root).bal (senderOf p.crypto f) →
            Authorised p.crypto daaScore
            (pre.foldl (flash p.crypto) (ledger p.crypto st root)) f := by
  constructor
  · intro hauth pre f post hsplit hlt
    have hf : f ∈ (p.effects txs).1 := hsplit ▸ List.mem_append_right _ List.mem_cons_self
    refine (hauth _ ?_).2 pre f post hsplit rfl
    rw [UInt64.lt_iff_toNat_lt, h.balance_touched ha (sender_mem_scripts hf)]
    exact hlt
  · intro hcond key hlt
    obtain ⟨a, hm, rfl⟩ := h.touched_of_lt ha hlt
    have hlt' := hlt
    rw [UInt64.lt_iff_toNat_lt, h.balance_touched ha hm] at hlt'
    refine ⟨?_, fun pre f post hsplit hkey => hcond pre f post hsplit ?_⟩
    · -- an account that no transaction debits keeps its balance
      by_contra hno
      push Not at hno
      have hne : ∀ f ∈ (p.effects txs).1, senderOf p.crypto f ≠ a :=
        fun f hf he => hno f hf (by rw [he])
      exact absurd hlt' (Nat.not_lt.mpr (bal_effects_le p.crypto (ledger p.crypto st root) _ hne))
    · have hf : f ∈ (p.effects txs).1 := hsplit ▸ List.mem_append_right _ List.mem_cons_self
      rw [ha.scripts _ (sender_mem_scripts hf) a hm hkey]
      exact hlt'

end

end Balances

section Verified

variable {p : VirtualProcessor} {ctx : VerifyContext} {header parentHeader : Header}
  {st st' : Stores} {txs : List Transaction} {t : Tree}

/-- **No unauthorised debit in an accepted block**, exactly when every flash transaction whose
    sender loses balance is signed, not expired and covered when its turn comes. -/
theorem debits_authorised_iff (hok : p.verifyBlockState ctx header st = (.ok (), st'))
    (hparent : ctx.parentHeader = some parentHeader) (htxs : ctx.transactions = some txs)
    (hroot : Holds p.crypto st (p.parentAccountRoot ctx.selectedParent parentHeader) t)
    (hk : st.WellKeyed p.crypto) (hcf : st'.CollisionFree p.crypto)
    (ha : SlotsApart p st (p.parentAccountRoot ctx.selectedParent parentHeader) txs) :
    let before := ledger p.crypto st (p.parentAccountRoot ctx.selectedParent parentHeader)
    DebitsAuthorised p st st' (p.parentAccountRoot ctx.selectedParent parentHeader)
        header.accountCommitment txs header.daaScore ↔
        ∀ pre f post, (p.effects txs).1 = pre ++ f :: post →
        (before.effects p.crypto (p.effects txs).1 (p.effects txs).2).bal (senderOf p.crypto f) <
            before.bal (senderOf p.crypto f) →
          Authorised p.crypto header.daaScore (pre.foldl (flash p.crypto) before) f := by
  obtain ⟨_, t', dids, _, hc⟩ := accepted_commits hok hparent htxs hroot hk hcf
  exact hc.debits_iff ha

end Verified

/-! ## 3. Two blocks -/

/-- **A debit that nobody signed**: the two blocks are accepted, and the account of the key `05`
    falls from 10 to 5. -/
theorem unsigned_debit :
    (toyProcessor.verifyBlockState (toyContext fundingBlock) fundingHeader .empty).1 = .ok () ∧
      checkTransactionsInIsolation toyCrypto toyValidator (transferBlock []) = .ok () ∧
      (toyProcessor.verifyBlockState (secondContext (transferBlock []))
        (secondHeader (transferBlock [])) fundedStores).1 = .ok () ∧ ¬ DebitsAuthorised
          toyProcessor fundedStores (transferStores []) fundingHeader.accountCommitment
        (secondHeader (transferBlock [])).accountCommitment (transferBlock []) 2 := by
  refine ⟨by decide +kernel, by decide +kernel, by decide +kernel, fun h => ?_⟩
  have hauth := (h (accountKeyHash toyCrypto toySender) (by decide +kernel)).2 [] (transfer []) []
    (by decide +kernel) rfl
  have hsigned := hauth.signed
  revert hsigned
  decide

theorem signed_debit_authorised :
    DebitsAuthorised toyProcessor fundedStores (transferStores toySignature)
      fundingHeader.accountCommitment (secondHeader (transferBlock toySignature)).accountCommitment
      (transferBlock toySignature) 2 := by
  have hroot₁ : toyProcessor.parentAccountRoot (.ofNat 2) fundingHeader =
      fundingHeader.accountCommitment := if_neg (by decide)
  obtain ⟨hk, t, hroot⟩ := holds_funded
  have hflash : (toyProcessor.effects (transferBlock toySignature)).1 =
      [transfer toySignature] := by
    decide +kernel
  refine (debits_authorised_iff transfer_accepted rfl rfl hroot hk (by decide +kernel)
    ⟨by decide, by decide, by decide⟩).mpr fun pre f post hsplit _ => ?_
  rw [hflash] at hsplit
  obtain ⟨rfl, hcons⟩ : pre = [] ∧ f :: post = [transfer toySignature] := by
    cases pre with
    | nil => exact ⟨rfl, hsplit.symm⟩
    | cons a pre => simp at hsplit
  cases hcons
  exact ⟨by decide +kernel, by decide +kernel, by decide +kernel⟩

end Sahyadri.Pipeline
