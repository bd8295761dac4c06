import Sahyadri.Lib.Settle
import Sahyadri.Account.Ledger

/-!
# How the effects of a block move the sum of the balances

* `Ledger.total`: the balances of a set of scripts, added up.
-/

namespace Sahyadri.Account

open Lib Smt Core List Ledger Function

/-! ## 1. Sums of balances -/

def Ledger.total (L : Ledger) (T : Finset ScriptPublicKey) : Nat := ∑ a ∈ T, L.bal a

variable {T T' : Finset ScriptPublicKey}

variable {a : ScriptPublicKey} (c : Crypto) (L : Ledger)

theorem Ledger.total_update (ha : a ∈ T) (s : AccountState) :
    total (update L a s) T + L.bal a = L.total T + s.balance.toNat := by
  have hbal : ∀ x, bal (update L a s) x = update L.bal a s.balance.toNat x := fun x => by
    by_cases hx : x = a
    · subst hx
      rw [bal, update_self, update_self]
    · rw [bal, update_of_ne hx, update_of_ne hx]
  unfold total
  rw [Finset.sum_congr rfl fun x _ => hbal x, Finset.sum_update_of_mem ha,
    Finset.sdiff_singleton_eq_erase, ← Finset.add_sum_erase T L.bal ha]
  omega

theorem Ledger.total_update_of_notMem (ha : a ∉ T) (s : AccountState) :
    total (update L a s) T = L.total T := by
  refine Finset.sum_congr rfl fun x hx => ?_
  have hne : x ≠ a := fun h => ha (h ▸ hx)
  rw [bal, update_of_ne hne]

theorem Ledger.total_reward_le (r : ScriptPublicKey × UInt64) (T : Finset ScriptPublicKey) :
    (L.reward r).total T ≤ L.total T + r.2.toNat := by
  unfold reward
  by_cases h : r.1 ∈ T
  · have hu := L.total_update h (credit r.2 (L r.1))
    rw [toNat_credit, bal] at hu
    omega
  · rw [L.total_update_of_notMem h]
    exact Nat.le_add_right _ _

theorem toNat_debit (tx : FlashTransaction) (st : AccountState) :
    (debit c tx st).balance.toNat = st.balance.toNat - (tx.amount.toNat + tx.fee.toNat) := by
  have := st.balance.toNat_lt
  rw [debit, toNat_satSub, toNat_satAdd]
  omega

theorem Ledger.total_flash_le (L : Ledger) {tx : FlashTransaction} (hs : senderOf c tx ∈ T)
    (h : tx.amount.toNat ≤ L.bal (senderOf c tx)) : (L.flash c tx).total T ≤ L.total T := by
  rw [L.flash_eq_reward]
  refine (total_reward_le _ _ T).trans ?_
  have hu := L.total_update hs (debit c tx (L (senderOf c tx)))
  rw [toNat_debit] at hu
  unfold bal at hu h
  dsimp only
  omega

/-! ## 2. The effects of a block -/

/-- Every flash transaction finds its amount in its sender's account when its turn comes. -/
def Funded (c : Crypto) : Ledger → List FlashTransaction → Prop
  | _, [] => True
  | L, tx :: txs => tx.amount.toNat ≤ L.bal (senderOf c tx) ∧ Funded c (L.flash c tx) txs

instance (c : Crypto) : ∀ L txs, Decidable (Funded c L txs)
  | _, [] => inferInstanceAs (Decidable True)
  | L, tx :: txs =>
    have : Decidable (Funded c (L.flash c tx) txs) := instDecidableFunded c _ txs
    inferInstanceAs (Decidable (_ ∧ _))

variable {flashTxs : List FlashTransaction} {L : Ledger}

theorem Ledger.total_flashes_le : ∀ {L : Ledger}, Funded c L flashTxs →
      (∀ tx ∈ flashTxs, senderOf c tx ∈ T) → total (flashTxs.foldl (flash c) L) T ≤ L.total T := by
  induction flashTxs with
  | nil => exact fun _ _ => le_rfl
  | cons tx txs ih =>
    intro L hf hT
    obtain ⟨hs, hT⟩ := forall_mem_cons.mp hT
    exact (ih hf.2 hT).trans (L.total_flash_le c hs hf.1)

theorem Ledger.total_rewards_le {rewards : Rewards} : ∀ {L : Ledger},
      total (rewards.foldl reward L) T ≤ L.total T + (rewards.map fun r => r.2.toNat).sum := by
  induction rewards with
  | nil => exact le_rfl
  | cons r rs ih =>
    intro L
    rw [map_cons, sum_cons, ← add_assoc]
    exact ih.trans (Nat.add_le_add_right (L.total_reward_le r T) _)

/-- **What a block creates** is at most its rewards. -/
theorem Ledger.total_effects_le (rewards : Rewards)
    (hf : Funded c L flashTxs) (hT : ∀ tx ∈ flashTxs, senderOf c tx ∈ T) :
    (L.effects c flashTxs rewards).total T ≤ L.total T + (rewards.map fun r => r.2.toNat).sum :=
  total_rewards_le.trans (Nat.add_le_add_right (total_flashes_le c hf hT) _)

theorem treasuryShare_le (treasuryHex : String) (subsidy : UInt64) :
    (if treasuryHex.isEmpty then (0 : UInt64) else subsidy / 20).toNat ≤ subsidy.toNat := by
  split
  · exact Nat.zero_le _
  · exact Nat.div_le_self _ _

theorem toNat_minerShare {subsidy fee : UInt64} (h : fee.toNat ≤ subsidy.toNat) :
    (subsidy - fee).toNat + fee.toNat = subsidy.toNat := by
  rw [UInt64.toNat_sub_of_le _ _ (UInt64.le_iff_toNat_le.mpr h)]
  omega

variable {payload : Bytes} {m : CoinbaseManager}

/-- **The two shares** add up to at most the subsidy that the payload declares. -/
theorem sum_coinbaseRewards_le {data : CoinbaseData}
    (h : m.deserializeCoinbasePayload payload = .ok data) (treasuryHex : String) :
    ((coinbaseRewards m treasuryHex payload).map fun r => r.2.toNat).sum ≤ data.subsidy.toNat := by
  have hsum := toNat_minerShare (treasuryShare_le treasuryHex data.subsidy)
  unfold coinbaseRewards
  rw [h]
  dsimp only
  generalize (if treasuryHex.isEmpty then (0 : UInt64) else data.subsidy / 20) = fee at hsum ⊢
  split
  · split
    · split
      · simp only [map_cons, map_nil, sum_cons, sum_nil]
        omega
      · simp only [map_cons, map_nil, sum_cons, sum_nil]
        omega
    · simp only [map_cons, map_nil, sum_cons, sum_nil]
      omega
  · exact Nat.zero_le _

theorem receiver_of_coinbaseRewards {treasuryHex : String} {r : ScriptPublicKey × UInt64}
    (hr : r ∈ coinbaseRewards m treasuryHex payload) :
    (∃ data, m.deserializeCoinbasePayload payload = .ok data ∧ data.subsidy > 0 ∧
      r.1 = data.minerData.scriptPublicKey) ∨ treasurySpkFromHex treasuryHex = some r.1 := by
  unfold coinbaseRewards at hr
  cases hd : m.deserializeCoinbasePayload payload with
  | error e =>
    rw [hd] at hr
    exact absurd hr not_mem_nil
  | ok data =>
    rw [hd] at hr
    dsimp only at hr
    generalize (if treasuryHex.isEmpty then (0 : UInt64) else data.subsidy / 20) = fee at hr
    by_cases hpos : data.subsidy > 0
    · rw [if_pos hpos] at hr
      rcases mem_cons.mp hr with rfl | hr
      · exact .inl ⟨data, rfl, hpos, rfl⟩
      · cases ht : treasurySpkFromHex treasuryHex with
        | none => simp [ht] at hr
        | some spk =>
          rw [ht] at hr
          split at hr
          · rw [mem_singleton.mp hr]
            exact .inr rfl
          · exact absurd hr not_mem_nil
    · rw [if_neg hpos] at hr
      exact absurd hr not_mem_nil

/-! ## 3. One account -/

def maxBalance : Nat := 2 ^ 64 - 1

/-- What a flash transaction does to the account `a`. -/
def flashChanges (c : Crypto) (a : ScriptPublicKey) (tx : FlashTransaction) : List Change :=
  (if senderOf c tx = a then [.debit (tx.amount.toNat + tx.fee.toNat)] else []) ++
    if recipientOf tx = a then [.credit tx.amount.toNat] else []

def rewardChanges (a : ScriptPublicKey) (r : ScriptPublicKey × UInt64) : List Change :=
  if r.1 = a then [.credit r.2.toNat] else []

theorem Ledger.bal_reward_settle (r : ScriptPublicKey × UInt64) (a : ScriptPublicKey) :
    (L.reward r).bal a = settle maxBalance (L.bal a) (rewardChanges a r) := by
  unfold reward rewardChanges
  split
  · rename_i h
    subst h
    rw [bal, update_self, toNat_credit]
    rfl
  · rename_i h
    rw [bal, update_of_ne (Ne.symm h)]
    rfl

/-- A transfer that leaves its sender the balance after the debit. -/
theorem Ledger.bal_transfer_settle (L : Ledger) (tx : FlashTransaction) {st : AccountState}
    (hst : st.balance = (debit c tx (L (senderOf c tx))).balance) (a : ScriptPublicKey) :
    (reward (update L (senderOf c tx) st) (recipientOf tx, tx.amount)).bal a =
      settle maxBalance (L.bal a) (flashChanges c a tx) := by
  rw [bal_reward_settle, flashChanges, settle_append]
  congr 1
  split
  · rename_i h
    subst h
    rw [bal, update_self, hst, toNat_debit]
    rfl
  · rename_i h
    rw [bal, update_of_ne (Ne.symm h)]
    rfl

theorem Ledger.bal_flash_settle (L : Ledger) (tx : FlashTransaction) (a : ScriptPublicKey) :
    (L.flash c tx).bal a = settle maxBalance (L.bal a) (flashChanges c a tx) :=
  L.bal_transfer_settle c tx rfl a

theorem Ledger.bal_flashes_settle (c : Crypto) (a : ScriptPublicKey) :
    ∀ (flashTxs : List FlashTransaction) (L : Ledger), bal (flashTxs.foldl (flash c) L) a =
        settle maxBalance (L.bal a) (flashTxs.flatMap (flashChanges c a))
  | [], _ => rfl
  | tx :: txs, L => by
    rw [foldl_cons, bal_flashes_settle c a txs, L.bal_flash_settle, flatMap_cons, settle_append]

theorem Ledger.bal_rewards_settle (a : ScriptPublicKey) :
    ∀ (rewards : Rewards) (L : Ledger), bal (rewards.foldl reward L) a =
        settle maxBalance (L.bal a) (rewards.flatMap (rewardChanges a))
  | [], _ => rfl
  | r :: rs, L => by
    rw [foldl_cons, bal_rewards_settle a rs, L.bal_reward_settle, flatMap_cons, settle_append]

/-- **The balance of an account after a block.** -/
theorem Ledger.bal_effects_settle (L : Ledger) (flashTxs : List FlashTransaction)
    (rewards : Rewards) (a : ScriptPublicKey) :
    (L.effects c flashTxs rewards).bal a = settle maxBalance (L.bal a)
      (flashTxs.flatMap (flashChanges c a) ++ rewards.flatMap (rewardChanges a)) := by
  rw [effects, bal_rewards_settle, bal_flashes_settle, settle_append]

/-! ## 4. The exact sum -/

/-- All that the effects of a block do to the account `a`. -/
def effectChanges (c : Crypto) (flashTxs : List FlashTransaction)
    (rewards : Rewards) (a : ScriptPublicKey) : List Change :=
  flashTxs.flatMap (flashChanges c a) ++ rewards.flatMap (rewardChanges a)

/-- Every flash transaction finds its amount and its fee in its sender's account when its turn
    comes. -/
def Paid (c : Crypto) : Ledger → List FlashTransaction → Prop
  | _, [] => True
  | L, tx :: txs =>
    tx.amount.toNat + tx.fee.toNat ≤ L.bal (senderOf c tx) ∧ Paid c (L.flash c tx) txs

instance (c : Crypto) : ∀ L txs, Decidable (Paid c L txs)
  | _, [] => inferInstanceAs (Decidable True)
  | L, tx :: txs =>
    have : Decidable (Paid c (L.flash c tx) txs) := instDecidablePaid c _ txs
    inferInstanceAs (Decidable (_ ∧ _))

def totalFees (flashTxs : List FlashTransaction) : Nat := (flashTxs.map fun tx => tx.fee.toNat).sum

theorem debits_rewardChanges (a : ScriptPublicKey) (rewards : Rewards) :
    debits (rewards.flatMap (rewardChanges a)) = 0 := by
  induction rewards with
  | nil => rfl
  | cons r rs ih =>
    rw [flatMap_cons, debits_append, ih, rewardChanges]
    split <;> rfl

theorem Paid.affordable {c : Crypto} (a : ScriptPublicKey) : ∀ {flashTxs : List FlashTransaction}
    {L : Ledger}, Paid c L flashTxs →
    Affordable maxBalance (L.bal a) (flashTxs.flatMap (flashChanges c a))
  | [], _, _ => trivial
  | tx :: txs, L, h => by
    rw [flatMap_cons, affordable_append, ← L.bal_flash_settle]
    refine ⟨affordable_append.mpr ⟨?_, ?_⟩, Paid.affordable a h.2⟩
    · split
      · rename_i hs
        exact ⟨hs ▸ h.1, trivial⟩
      · trivial
    · by_cases hr : recipientOf tx = a
      · rw [if_pos hr]
        trivial
      · rw [if_neg hr]
        trivial

theorem Paid.bal_effects {c : Crypto} (h : Paid c L flashTxs)
    (rewards : Rewards) (a : ScriptPublicKey) :
    (L.effects c flashTxs rewards).bal a + debits (effectChanges c flashTxs rewards a) +
        excess maxBalance (L.bal a) (effectChanges c flashTxs rewards a) =
      L.bal a + credits (effectChanges c flashTxs rewards a) := by
  rw [bal_effects_settle]
  exact settle_add_excess (affordable_append.mpr
    ⟨h.affordable a, affordable_of_debits_eq_zero (debits_rewardChanges a rewards)⟩)

section Sums

variable {c : Crypto} {T : Finset ScriptPublicKey}

theorem sum_flatMap {α : Type*} {f : List Change → Nat} (hnil : f [] = 0)
    (happend : ∀ cs ds, f (cs ++ ds) = f cs + f ds) {g : ScriptPublicKey → α → List Change}
    {n : α → Nat} : ∀ {xs : List α}, (∀ x ∈ xs, ∑ a ∈ T, f (g a x) = n x) →
      ∑ a ∈ T, f (xs.flatMap (g a)) = (xs.map n).sum
  | [], _ => Finset.sum_eq_zero fun _ _ => hnil
  | x :: xs, h => by
    obtain ⟨hx, hxs⟩ := forall_mem_cons.mp h
    rw [map_cons, sum_cons, ← hx, ← sum_flatMap hnil happend hxs, ← Finset.sum_add_distrib]
    exact Finset.sum_congr rfl fun a _ => by rw [flatMap_cons, happend]

variable {flashTxs : List FlashTransaction}

theorem sum_debits_effects (rewards : Rewards) (hT : ∀ tx ∈ flashTxs, senderOf c tx ∈ T) :
    ∑ a ∈ T, debits (effectChanges c flashTxs rewards a) =
      (flashTxs.map fun tx => tx.amount.toNat).sum + totalFees flashTxs := by
  have hflash : ∑ a ∈ T, debits (flashTxs.flatMap (flashChanges c a)) =
      (flashTxs.map fun tx => tx.amount.toNat + tx.fee.toNat).sum := by
    refine sum_flatMap rfl debits_append fun tx htx => ?_
    have hone : ∀ a, debits (flashChanges c a tx) =
        if senderOf c tx = a then tx.amount.toNat + tx.fee.toNat else 0 := fun a => by
      rw [flashChanges, debits_append]
      split <;> split <;> rfl
    rw [Finset.sum_congr rfl fun a _ => hone a, Finset.sum_ite_eq, if_pos (hT tx htx)]
  rw [totalFees, ← sum_map_add, ← hflash]
  exact Finset.sum_congr rfl fun a _ => by
    rw [effectChanges, debits_append, debits_rewardChanges, add_zero]

variable {rewards : Rewards}

theorem sum_credits_effects (hT : ∀ tx ∈ flashTxs, recipientOf tx ∈ T)
    (hR : ∀ r ∈ rewards, r.1 ∈ T) : ∑ a ∈ T, credits (effectChanges c flashTxs rewards a) =
      (flashTxs.map fun tx => tx.amount.toNat).sum + (rewards.map fun r => r.2.toNat).sum := by
  have hflash : ∑ a ∈ T, credits (flashTxs.flatMap (flashChanges c a)) =
      (flashTxs.map fun tx => tx.amount.toNat).sum := by
    refine sum_flatMap rfl credits_append fun tx htx => ?_
    have hone : ∀ a, credits (flashChanges c a tx) = if recipientOf tx = a then tx.amount.toNat
        else 0 := fun a => by
      rw [flashChanges, credits_append]
      split <;> split <;> exact zero_add _
    rw [Finset.sum_congr rfl fun a _ => hone a, Finset.sum_ite_eq, if_pos (hT tx htx)]
  have hreward : ∑ a ∈ T,
      credits (rewards.flatMap (rewardChanges a)) = (rewards.map fun r => r.2.toNat).sum := by
    refine sum_flatMap rfl credits_append fun r hr => ?_
    have hone : ∀ a, credits (rewardChanges a r) = if r.1 = a then r.2.toNat else 0 := fun a => by
      rw [rewardChanges]
      split <;> rfl
    rw [Finset.sum_congr rfl fun a _ => hone a, Finset.sum_ite_eq, if_pos (hR r hr)]
  rw [← hflash, ← hreward, ← Finset.sum_add_distrib]
  exact Finset.sum_congr rfl fun a _ => by rw [effectChanges, credits_append]

/-- **The sum of the balances after paid effects**: the rewards come in, and the fees and what
    saturated credits lose go. -/
theorem Ledger.total_effects_add {L : Ledger}
    (h : Paid c L flashTxs) (hS : ∀ tx ∈ flashTxs, senderOf c tx ∈ T)
    (hT : ∀ tx ∈ flashTxs, recipientOf tx ∈ T) (hR : ∀ r ∈ rewards, r.1 ∈ T) :
    (L.effects c flashTxs rewards).total T + totalFees flashTxs +
        ∑ a ∈ T, excess maxBalance (L.bal a) (effectChanges c flashTxs rewards a) =
      L.total T + (rewards.map fun r => r.2.toNat).sum := by
  have hsum := Finset.sum_congr (rfl : T = T) fun a _ => h.bal_effects rewards a
  rw [Finset.sum_add_distrib, Finset.sum_add_distrib, Finset.sum_add_distrib,
    sum_debits_effects rewards hS, sum_credits_effects hT hR] at hsum
  unfold total
  omega

end Sums

end Sahyadri.Account
