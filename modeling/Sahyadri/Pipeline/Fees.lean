import Sahyadri.Did.Encode
import Sahyadri.Pipeline.Debits
import Sahyadri.Pipeline.Supply

/-!
# Where the fees of an accepted block go

The documentation gives the fees to the miner and the treasury, nine to one, on top of the 95/5
split of the subsidy. `expected_coinbase_transaction` computes such a split, but what is committed
comes from `compute_block_account_changes`, which debits a sender by amount and fee, credits the
recipient with the amount, and pays the two shares of the subsidy.

* `redistributes_iff`: so they are redistributed exactly when there are none.
-/

namespace Sahyadri.Pipeline

open Lib Smt Core Account Did List Ledger

/-! ## 1. The documented split -/

variable (p : VirtualProcessor)

/-- The miner's script in the payload of the coinbase. -/
def VirtualProcessor.minerScript : List Transaction → Option ScriptPublicKey
  | [] => none
  | coinbase :: _ =>
    match p.coinbaseManager.deserializeCoinbasePayload coinbase.payload with
    | .ok data => some data.minerData.scriptPublicKey
    | .error _ => none

/-- What the documentation gives to the script `a`: 95% of the subsidy and 90% of the fees to the
    miner, the rest to the treasury. -/
def documentedShare (miner : Option ScriptPublicKey) (treasury : ScriptPublicKey)
    (subsidy fees : Nat) (a : ScriptPublicKey) : Nat :=
  match miner with
  | none => 0
  | some m =>
    (if m = a then subsidy - subsidy / 20 + (fees - fees / 10) else 0) +
      if treasury = a then subsidy / 20 + fees / 10 else 0

variable (treasury : ScriptPublicKey)

/-- The scripts with a part in the block: those it touches, its miner and the treasury. -/
def VirtualProcessor.payees (txs : List Transaction) : List ScriptPublicKey :=
  p.scripts txs ++ ((p.minerScript txs).toList ++ [treasury])

/-- The balances after a block as documented: together they grow by the subsidy, each payee has what
    it had, less what it sent, with what it received and its shares, and nothing else changes. -/
structure Redistributes (st st' : Stores)
    (root root' : H256) (txs : List Transaction) : Prop where
  grows : ∀ keys : Finset H256, (∀ a ∈ p.payees treasury txs, accountKeyHash p.crypto a ∈ keys) →
    supply (committed p.crypto st' root') keys =
      supply (committed p.crypto st root) keys + (p.coinbaseManager.declaredSubsidy txs).toNat
  paid : ∀ a ∈ p.payees treasury txs,
    (committed p.crypto st' root' (accountKeyHash p.crypto a)).balance.toNat +
        debits ((p.effects txs).1.flatMap (flashChanges p.crypto a)) =
      (committed p.crypto st root (accountKeyHash p.crypto a)).balance.toNat +
        credits ((p.effects txs).1.flatMap (flashChanges p.crypto a)) +
        documentedShare (p.minerScript txs) treasury (p.coinbaseManager.declaredSubsidy txs).toNat
          (totalFees (p.effects txs).1) a
  others : ∀ key, (∀ a ∈ p.payees treasury txs, accountKeyHash p.crypto a ≠ key) →
    (committed p.crypto st' root' key).balance = (committed p.crypto st root key).balance

/-- The payees and DIDs of a block have slots of their own, and those of the DIDs hold no
    balance. -/
structure PayeesApart (st : Stores) (root : H256)
    (txs : List Transaction) : Prop where
  payees : ∀ a ∈ p.payees treasury txs, ∀ b ∈ p.payees treasury txs,
    accountKeyHash p.crypto a = accountKeyHash p.crypto b → a = b
  dids : ∀ d ∈ (didOpsOf txs).map DidOp.did, ∀ a ∈ p.payees treasury txs,
    didKeyHash p.crypto d ≠ accountKeyHash p.crypto a
  unfunded : ∀ d ∈ (didOpsOf txs).map DidOp.did,
    (committed p.crypto st root (didKeyHash p.crypto d)).balance = 0

/-! ## 2. The shares of the subsidy -/

section Rewards

variable {p : VirtualProcessor} {treasury : ScriptPublicKey} {txs : List Transaction}
variable {hex : String}

theorem isEmpty_of_treasury (h : treasurySpkFromHex hex = some treasury) : hex.isEmpty = false := by
  unfold treasurySpkFromHex at h
  cases he : hex.isEmpty with
  | false => rfl
  | true =>
    rw [he] at h
    cases h

variable {payload : Bytes} {m : CoinbaseManager} {data : CoinbaseData}

theorem coinbaseRewards_eq (ht : treasurySpkFromHex hex = some treasury)
    (hd : m.deserializeCoinbasePayload payload = .ok data) : coinbaseRewards m hex payload =
      if data.subsidy > 0 then
        (data.minerData.scriptPublicKey, data.subsidy - data.subsidy / 20) ::
          if data.subsidy / 20 > 0 then [(treasury, data.subsidy / 20)] else []
      else [] := by
  unfold coinbaseRewards
  rw [hd]
  dsimp only
  rw [isEmpty_of_treasury ht, ht, if_neg Bool.false_ne_true]

/-- A sum over the rewards of a coinbase: one term for the miner and one for the treasury. -/
theorem sum_coinbaseRewards (ht : treasurySpkFromHex hex = some treasury)
    (hd : m.deserializeCoinbasePayload payload = .ok data) {w : ScriptPublicKey → Nat → Nat}
    (hw : ∀ a, w a 0 = 0) : ((coinbaseRewards m hex payload).map fun r => w r.1 r.2.toNat).sum =
      w data.minerData.scriptPublicKey (data.subsidy.toNat - data.subsidy.toNat / 20) +
        w treasury (data.subsidy.toNat / 20) := by
  have hdiv : (data.subsidy / 20).toNat = data.subsidy.toNat / 20 := UInt64.toNat_div _ _
  have hle : (data.subsidy / 20).toNat ≤ data.subsidy.toNat := hdiv ▸ Nat.div_le_self _ _
  have hminer : (data.subsidy - data.subsidy / 20).toNat =
      data.subsidy.toNat - data.subsidy.toNat / 20 := by
    have := toNat_minerShare hle
    omega
  rw [coinbaseRewards_eq ht hd]
  by_cases hpos : data.subsidy > 0
  · rw [if_pos hpos, map_cons, sum_cons, hminer]
    by_cases hfee : data.subsidy / 20 > 0
    · rw [if_pos hfee, map_singleton, sum_singleton, hdiv]
    · have hzero : data.subsidy.toNat / 20 = 0 :=
        hdiv ▸ Nat.le_zero.mp (UInt64.le_iff_toNat_le.mp (UInt64.not_lt.mp hfee))
      rw [if_neg hfee, hzero, hw]
      rfl
  · have hzero : data.subsidy.toNat = 0 :=
      Nat.le_zero.mp (UInt64.le_iff_toNat_le.mp (UInt64.not_lt.mp hpos))
    rw [if_neg hpos, hzero, hw, hw]
    rfl

theorem rewards_cases (ht : treasurySpkFromHex p.treasuryHex = some treasury)
    (txs : List Transaction) : (p.minerScript txs = none ∧
      (p.effects txs).2 = [] ∧ p.coinbaseManager.declaredSubsidy txs = 0) ∨
      ∃ m, p.minerScript txs = some m ∧ ∀ w : ScriptPublicKey → Nat → Nat, (∀ a, w a 0 = 0) →
        ((p.effects txs).2.map fun r => w r.1 r.2.toNat).sum = w m
          ((p.coinbaseManager.declaredSubsidy txs).toNat -
            (p.coinbaseManager.declaredSubsidy txs).toNat / 20) +
          w treasury ((p.coinbaseManager.declaredSubsidy txs).toNat / 20) := by
  cases txs with
  | nil => exact .inl ⟨rfl, rfl, rfl⟩
  | cons coinbase rest =>
    have hrewards : (p.effects (coinbase :: rest)).2 =
      coinbaseRewards p.coinbaseManager p.treasuryHex coinbase.payload := rfl
    rw [VirtualProcessor.minerScript, CoinbaseManager.declaredSubsidy, hrewards]
    cases hd : p.coinbaseManager.deserializeCoinbasePayload coinbase.payload with
    | error e =>
      refine .inl ⟨rfl, ?_, rfl⟩
      rw [coinbaseRewards, hd]
    | ok data => exact .inr ⟨_, rfl, fun w hw => sum_coinbaseRewards ht hd hw⟩

theorem credits_rewardChanges (a : ScriptPublicKey) (rewards : Rewards) :
    credits (rewards.flatMap (rewardChanges a)) =
      (rewards.map fun r => if r.1 = a then r.2.toNat else 0).sum := by
  induction rewards with
  | nil => rfl
  | cons r rs ih =>
    rw [flatMap_cons, credits_append, ih, map_cons, sum_cons, rewardChanges]
    split <;> rfl

/-- **The rewards of a block are its documented shares without the fees.** -/
theorem credits_rewards (ht : treasurySpkFromHex p.treasuryHex = some treasury)
    (a : ScriptPublicKey) : credits ((p.effects txs).2.flatMap (rewardChanges a)) = documentedShare
      (p.minerScript txs) treasury (p.coinbaseManager.declaredSubsidy txs).toNat 0 a := by
  rw [credits_rewardChanges]
  rcases rewards_cases ht txs with ⟨hm, hr, _⟩ | ⟨m, hm, hsum⟩
  · rw [hm, hr]
    rfl
  · rw [hm]
    exact hsum (fun b n => if b = a then n else 0) fun b => by split <;> rfl

theorem sum_rewards_eq (ht : treasurySpkFromHex p.treasuryHex = some treasury) :
    ((p.effects txs).2.map fun r => r.2.toNat).sum =
      (p.coinbaseManager.declaredSubsidy txs).toNat := by
  rcases rewards_cases ht txs with ⟨_, hr, hS⟩ | ⟨m, _, hsum⟩
  · rw [hr, hS]
    rfl
  · have h := hsum (fun _ n => n) fun _ => rfl
    omega

end Rewards

/-! ## 3. The balances after a block -/

section Balances

variable {p : VirtualProcessor} {treasury : ScriptPublicKey} {st st' : Stores} {root root' : H256}
  {txs : List Transaction} {daaScore : UInt64} {dids : List String}
variable {a : ScriptPublicKey}

theorem mem_payees_of_scripts (h : a ∈ p.scripts txs) : a ∈ p.payees treasury txs :=
  mem_append_left _ h

theorem PayeesApart.slotsApart (h : PayeesApart p treasury st root txs) :
    SlotsApart p st root txs :=
  ⟨fun a ha b hb => h.payees a (mem_payees_of_scripts ha) b (mem_payees_of_scripts hb),
    fun d hd a ha => h.dids d hd a (mem_payees_of_scripts ha), h.unfunded⟩

theorem effectChanges_untouched {c : Crypto} {flashTxs : List FlashTransaction}
    {rewards : Rewards} (h : a ∉ touchedScripts c flashTxs rewards) :
    effectChanges c flashTxs rewards a = [] := by
  obtain ⟨hflash, hreward⟩ := not_or.mp (mt mem_append.mpr h)
  refine append_eq_nil_iff.mpr
    ⟨flatMap_eq_nil_iff.mpr fun tx htx => ?_, flatMap_eq_nil_iff.mpr fun r hr => ?_⟩
  · have hs : senderOf c tx ≠ a := fun he => hflash (mem_flatMap.mpr ⟨tx, htx, he ▸ mem_cons_self⟩)
    have hr : recipientOf tx ≠ a :=
      fun he => hflash (mem_flatMap.mpr ⟨tx, htx, he ▸ mem_cons_of_mem _ mem_cons_self⟩)
    rw [flashChanges, if_neg hs, if_neg hr]
    rfl
  · have hne : r.1 ≠ a := fun he => hreward (mem_map.mpr ⟨r, hr, he⟩)
    rw [rewardChanges, if_neg hne]

section

variable (h : Commits p st st' root root' txs daaScore dids)

include h

/-- **A payee's committed balance is that of the ledger**, touched or not. -/
theorem Commits.balance_payee (ha : PayeesApart p treasury st root txs)
    (hm : a ∈ p.payees treasury txs) :
    (committed p.crypto st' root' (accountKeyHash p.crypto a)).balance.toNat =
      ((ledger p.crypto st root).effects p.crypto (p.effects txs).1 (p.effects txs).2).bal a := by
  by_cases ht : a ∈ p.scripts txs
  · exact h.balance_touched ha.slotsApart ht
  · have hsame :=
      h.untouched (accountKeyHash p.crypto a) (fun d hd => ha.dids d (h.named d hd) a hm)
      fun b hb he => ht (ha.payees b (mem_payees_of_scripts hb) a hm he ▸ hb)
    have hnone := effectChanges_untouched ht
    unfold effectChanges at hnone
    rw [hsame.balance, bal_effects_settle, hnone]
    rfl

theorem Commits.balance_other (ha : PayeesApart p treasury st root txs) {key : H256}
    (hkey : ∀ a ∈ p.payees treasury txs, accountKeyHash p.crypto a ≠ key) :
    (committed p.crypto st' root' key).balance = (committed p.crypto st root key).balance := by
  by_cases hd : ∃ d ∈ dids, didKeyHash p.crypto d = key
  · obtain ⟨d, hd, rfl⟩ := hd
    rw [h.did d hd, ha.unfunded d (h.named d hd)]
    rfl
  · push Not at hd
    exact (h.untouched key hd fun a hm => hkey a (mem_payees_of_scripts hm)).balance

/-- What the credits of a block lose because a balance cannot grow beyond 64 bits. -/
def VirtualProcessor.lost (p : VirtualProcessor) (L : Ledger) (txs : List Transaction)
    (a : ScriptPublicKey) : Nat :=
  excess maxBalance (L.bal a) (effectChanges p.crypto (p.effects txs).1 (p.effects txs).2 a)

/-- **The sum after a block whose debits are covered**: it grows by the subsidy, less the fees and
    what credits lose. -/
theorem Commits.supply_add (ht : treasurySpkFromHex p.treasuryHex = some treasury)
    (ha : PayeesApart p treasury st root txs)
    (hpaid : Paid p.crypto (ledger p.crypto st root) (p.effects txs).1)
    {keys : Finset H256} (hkeys : ∀ a ∈ p.payees treasury txs, accountKeyHash p.crypto a ∈ keys) :
    supply (committed p.crypto st' root') keys + totalFees (p.effects txs).1 +
        ∑ a ∈ (p.payees treasury txs).toFinset, p.lost (ledger p.crypto st root) txs a =
      supply (committed p.crypto st root) keys + (p.coinbaseManager.declaredSubsidy txs).toNat := by
  let T := (p.payees treasury txs).toFinset
  let K := T.image (accountKeyHash p.crypto)
  have hmem : ∀ {a}, a ∈ p.scripts txs → a ∈ T :=
    fun hm => mem_toFinset.mpr (mem_payees_of_scripts hm)
  have hinj : Set.InjOn (accountKeyHash p.crypto) T := fun a hm b hb he =>
    ha.payees a (mem_toFinset.mp hm) b (mem_toFinset.mp hb) he
  have hK : K ⊆ keys := Finset.image_subset_iff.mpr fun a hm => hkeys a (mem_toFinset.mp hm)
  have htotal : total (effects p.crypto (ledger p.crypto st root) (p.effects txs).1
        (p.effects txs).2) T + totalFees (p.effects txs).1 + ∑ a ∈ T,
        p.lost (ledger p.crypto st root) txs a =
        (ledger p.crypto st root).total T + (p.coinbaseManager.declaredSubsidy txs).toNat := by
    rw [← sum_rewards_eq ht]
    exact total_effects_add hpaid (fun tx htx => hmem (sender_mem_scripts htx)) (fun tx htx =>
      hmem (mem_append_left _ (mem_flatMap.mpr ⟨tx, htx, mem_cons_of_mem _ mem_cons_self⟩)))
      (fun r hr => hmem (mem_append_right _ (mem_map.mpr ⟨r, hr, rfl⟩)))
  -- the slots of payees follow the ledger, the others stay
  have hafter : supply (committed p.crypto st' root') K =
      ((ledger p.crypto st root).effects p.crypto (p.effects txs).1 (p.effects txs).2).total T := by
    rw [supply, Finset.sum_image hinj]
    exact Finset.sum_congr rfl fun a hm => h.balance_payee ha (mem_toFinset.mp hm)
  have hbefore : supply (committed p.crypto st root) K = (ledger p.crypto st root).total T := by
    rw [supply, Finset.sum_image hinj]
    rfl
  have hrest : supply (committed p.crypto st' root') (keys \ K) =
      supply (committed p.crypto st root) (keys \ K) :=
    Finset.sum_congr rfl fun k hk => by
      rw [h.balance_other ha fun a hm he => (Finset.mem_sdiff.mp hk).2
        (Finset.mem_image.mpr ⟨a, mem_toFinset.mpr hm, he⟩)]
  have hsplit : ∀ A : H256 → AccountState, supply A (keys \ K) + supply A K = supply A keys :=
    fun A => Finset.sum_sdiff hK
  rw [← hsplit, ← hsplit, hafter, hbefore, hrest]
  show _ + ∑ a ∈ T, p.lost (ledger p.crypto st root) txs a = _
  omega

/-- **The fees are redistributed exactly when there are none** and no credit is cut off. -/
theorem Commits.redistributes (ht : treasurySpkFromHex p.treasuryHex = some treasury)
    (ha : PayeesApart p treasury st root txs)
    (hpaid : Paid p.crypto (ledger p.crypto st root) (p.effects txs).1) :
    Redistributes p treasury st st' root root' txs ↔ (∀ f ∈ (p.effects txs).1, f.fee = 0) ∧
        ∀ a ∈ p.payees treasury txs, p.lost (ledger p.crypto st root) txs a = 0 := by
  constructor
  · intro hr
    have hkeys : ∀ a ∈ p.payees treasury txs, accountKeyHash p.crypto a ∈
        ((p.payees treasury txs).map (accountKeyHash p.crypto)).toFinset := fun a hm =>
      mem_toFinset.mpr (mem_map_of_mem hm)
    have hgrows := hr.grows _ hkeys
    have hsum := h.supply_add ht ha hpaid hkeys
    have hfees : totalFees (p.effects txs).1 = 0 := by omega
    have hlost : ∑ a ∈ (p.payees treasury txs).toFinset,
        p.lost (ledger p.crypto st root) txs a = 0 := by
      omega
    refine ⟨fun f hf => UInt64.toNat_inj.mp ?_, fun a hm => ?_⟩
    · exact sum_eq_zero_iff.mp hfees _ (mem_map_of_mem hf)
    · exact Finset.sum_eq_zero_iff.mp hlost a (mem_toFinset.mpr hm)
  · intro ⟨hfees, hlost⟩
    have hzero : totalFees (p.effects txs).1 = 0 := by
      refine sum_eq_zero fun n hn => ?_
      obtain ⟨f, hf, rfl⟩ := mem_map.mp hn
      rw [hfees f hf]
      rfl
    refine ⟨fun keys hkeys => ?_, fun a hm => ?_, fun key hkey => h.balance_other ha hkey⟩
    · have hsum := h.supply_add ht ha hpaid hkeys
      rw [Finset.sum_eq_zero fun a hm => hlost a (mem_toFinset.mp hm)] at hsum
      omega
    · have hbal := hpaid.bal_effects (p.effects txs).2 a
      have hnone := hlost a hm
      unfold VirtualProcessor.lost at hnone
      rw [hnone, effectChanges, debits_append, credits_append, debits_rewardChanges,
        credits_rewards ht] at hbal
      rw [h.balance_payee ha hm, hzero]
      exact hbal.trans (Nat.add_assoc _ _ _).symm

end

end Balances

section Verified

variable {p : VirtualProcessor} {treasury : ScriptPublicKey} {ctx : VerifyContext}
  {header parentHeader : Header} {st st' : Stores} {txs : List Transaction} {t : Tree}

/-- **Where the fees of an accepted block go**: nowhere. The balances are the documented ones
    exactly when no fee is paid and no credit is cut off. -/
theorem redistributes_iff (hok : p.verifyBlockState ctx header st = (.ok (), st'))
    (hparent : ctx.parentHeader = some parentHeader) (htxs : ctx.transactions = some txs)
    (hroot : Holds p.crypto st (p.parentAccountRoot ctx.selectedParent parentHeader) t)
    (hk : st.WellKeyed p.crypto) (hcf : st'.CollisionFree p.crypto)
    (ht : treasurySpkFromHex p.treasuryHex = some treasury)
    (ha : PayeesApart p treasury st (p.parentAccountRoot ctx.selectedParent parentHeader) txs)
    (hpaid : Paid p.crypto
      (ledger p.crypto st (p.parentAccountRoot ctx.selectedParent parentHeader))
      (p.effects txs).1) : Redistributes p treasury st st'
      (p.parentAccountRoot ctx.selectedParent parentHeader) header.accountCommitment txs ↔
      (∀ f ∈ (p.effects txs).1, f.fee = 0) ∧ ∀ a ∈ p.payees treasury txs, p.lost
        (ledger p.crypto st (p.parentAccountRoot ctx.selectedParent parentHeader)) txs a = 0 := by
  obtain ⟨_, t', dids, _, hc⟩ := accepted_commits hok hparent htxs hroot hk hcf
  exact hc.redistributes ht ha hpaid

end Verified

/-! ## 4. Two blocks -/

def treasuryProcessor : VirtualProcessor :=
  { toyProcessor with treasuryHex := String.ofList (List.replicate 3904 '0') }

def toyTreasury : ScriptPublicKey := ⟨0, List.replicate 1952 0⟩

theorem treasury_toyTreasury :
    treasurySpkFromHex treasuryProcessor.treasuryHex = some toyTreasury := by
  have hbytes : strBytes treasuryProcessor.treasuryHex = replicate (2 * 1952) 48 :=
    strBytes_zeros 3904
  have hne : treasuryProcessor.treasuryHex.isEmpty = false := by
    rw [Bool.eq_false_iff]
    intro he
    rw [String.isEmpty_iff.mp he] at hbytes
    have hlen := congrArg length hbytes
    rw [length_replicate] at hlen
    cases hlen
  rw [treasurySpkFromHex, hne, if_neg Bool.false_ne_true, hexDecodeInto, hbytes, hexDecode_zeros,
    length_replicate, if_neg (by decide), Option.map_some, Option.map_some, take_replicate,
    Nat.min_self]
  rfl

/-- The transfer with a fee of 3, in a block mined by the script `01`. -/
def payingTransfer : FlashTransaction := { transfer [] with fee := 3 }

def payingBlock : List Transaction := [toyCoinbase 2 0 [1], payingTransfer.toTransaction toyCrypto]

def treasuryStores (txs : List Transaction) : Stores :=
  (treasuryProcessor.verifyBlockState (secondContext txs) (secondHeader txs) fundedStores).2

/-- **A fee that nobody gets**: the block is accepted and its sender pays 5 and the fee of 3, but
    the miner's account stays at 0. -/
theorem burned_fee :
    (treasuryProcessor.verifyBlockState (secondContext payingBlock) (secondHeader payingBlock)
        fundedStores).1 = .ok () ∧
          Paid toyCrypto (ledger toyCrypto fundedStores fundingHeader.accountCommitment)
        (treasuryProcessor.effects payingBlock).1 ∧
      ¬ Redistributes treasuryProcessor toyTreasury fundedStores (treasuryStores payingBlock)
        fundingHeader.accountCommitment
          (secondHeader payingBlock).accountCommitment payingBlock := by
  refine ⟨by decide +kernel, by decide +kernel, fun h => ?_⟩
  have hminer : treasuryProcessor.minerScript payingBlock = some ⟨0, [1]⟩ := by decide
  have hpaid := h.paid ⟨0, [1]⟩ (mem_append_right _ (by rw [hminer]; exact mem_cons_self))
  revert hpaid
  decide +kernel

theorem free_transfer_redistributes :
    Redistributes treasuryProcessor toyTreasury fundedStores (treasuryStores (transferBlock []))
      fundingHeader.accountCommitment (secondHeader (transferBlock [])).accountCommitment
        (transferBlock []) := by
  have hok : treasuryProcessor.verifyBlockState (secondContext (transferBlock []))
      (secondHeader (transferBlock [])) fundedStores =
        (.ok (), treasuryStores (transferBlock [])) :=
    Prod.ext (by decide +kernel) (by rw [treasuryStores])
  have hroot₁ : treasuryProcessor.parentAccountRoot (.ofNat 2) fundingHeader =
      fundingHeader.accountCommitment := if_neg (by decide)
  obtain ⟨hk, t, hroot⟩ := holds_funded
  have hfree : (∀ f ∈ (treasuryProcessor.effects (transferBlock [])).1, f.fee = 0) ∧
      ∀ a ∈ treasuryProcessor.payees toyTreasury (transferBlock []), treasuryProcessor.lost
        (ledger toyCrypto fundedStores fundingHeader.accountCommitment)
          (transferBlock []) a = 0 := by
    decide +kernel
  exact (redistributes_iff hok rfl rfl hroot hk (by decide +kernel) treasury_toyTreasury
    ⟨by decide +kernel, by decide +kernel, by decide +kernel⟩ (by decide +kernel)).mpr hfree

end Sahyadri.Pipeline
