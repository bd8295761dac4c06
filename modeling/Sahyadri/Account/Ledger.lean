import Sahyadri.Account.Changes

/-!
# What a block does to the accounts, as a step on a ledger

A ledger gives every script a state. A flash transaction debits its sender and then credits its
recipient (`Ledger.flash`), a reward is a credit (`Ledger.reward`), and the accounts a block touches
are pruned at its end (`blockState`).

* `touchedAccounts_spec`: if the code's `touched` map comes out at all, every read it needed
  succeeded, its keys are the scripts of the block, and seen over the accounts read it is the ledger
  after the block.
-/

namespace Sahyadri.Account

open Lib Smt Core List Function Run Table AList

/-! ## 1. The ledger step -/

/-- Every script's account. -/
abbrev Ledger := ScriptPublicKey → AccountState

variable (c : Crypto)

/-- The account a flash transaction debits. -/
def senderOf (tx : FlashTransaction) : ScriptPublicKey := flashPubkeyToSpk c tx.pubkey

def recipientOf (tx : FlashTransaction) : ScriptPublicKey := p2pkhSpk (tx.recipient.take 20)

section Recipient

variable {ε : Type} {tx : FlashTransaction}

theorem hash20ToP2pkhSpk_of_le (h : 20 ≤ tx.recipient.length) :
    (hash20ToP2pkhSpk tx.recipient : Run ε ScriptPublicKey) = .ok (recipientOf tx) := if_pos h

theorem hash20ToP2pkhSpk_of_lt (h : ¬ 20 ≤ tx.recipient.length) :
    (hash20ToP2pkhSpk tx.recipient : Run ε ScriptPublicKey) = .panicked := if_neg h

theorem hash20ToP2pkhSpk_eq_ok {spk : ScriptPublicKey}
    (h : (hash20ToP2pkhSpk tx.recipient : Run ε ScriptPublicKey) = .ok spk) :
    20 ≤ tx.recipient.length ∧ spk = recipientOf tx := by
  by_cases hlen : 20 ≤ tx.recipient.length
  · rw [hash20ToP2pkhSpk_of_le hlen] at h
    exact ⟨hlen, (Except.ok.inj h).symm⟩
  · rw [hash20ToP2pkhSpk_of_lt hlen] at h
    cases h

end Recipient

variable (L : Ledger)

def Ledger.flash (tx : FlashTransaction) : Ledger :=
  let L₁ : Ledger := update L (senderOf c tx) (debit c tx (L (senderOf c tx)))
  update L₁ (recipientOf tx) (credit tx.amount (L₁ (recipientOf tx)))

def Ledger.reward (r : ScriptPublicKey × UInt64) : Ledger := update L r.1 (credit r.2 (L r.1))

variable (c : Crypto) (L : Ledger)

theorem Ledger.flash_eq_reward (tx : FlashTransaction) :
    L.flash c tx = Ledger.reward
      (update L (senderOf c tx) (debit c tx (L (senderOf c tx)))) (recipientOf tx, tx.amount) := rfl

variable (flashTxs : List FlashTransaction)

def Ledger.effects
    (rewards : Rewards) : Ledger :=
  rewards.foldl Ledger.reward (flashTxs.foldl (Ledger.flash c) L)

/-- The scripts a block touches, in the order of first use. -/
def touchedScripts
    (rewards : Rewards) : List ScriptPublicKey :=
  flashTxs.flatMap (fun tx => [senderOf c tx, recipientOf tx]) ++ rewards.map Prod.fst

/-- The state of an account after a block: pruned if the block touches it. -/
def blockState
    (rewards : Rewards) (daaScore : UInt64) : Ledger := fun spk =>
  if spk ∈ touchedScripts c flashTxs rewards then
    (L.effects c flashTxs rewards spk).pruneRecentFlashes daaScore
  else L spk

/-! ## 2. Balances -/

open Ledger

variable (L : Ledger)

abbrev Ledger.bal (spk : ScriptPublicKey) : Nat := (L spk).balance.toNat

theorem toNat_credit (amount : UInt64) (st : AccountState) :
    (credit amount st).balance.toNat = min (st.balance.toNat + amount.toNat) (2 ^ 64 - 1) :=
  toNat_satAdd _ _

theorem le_credit (amount : UInt64) (st : AccountState) :
    st.balance.toNat ≤ (credit amount st).balance.toNat := by
  have := st.balance.toNat_lt
  rw [toNat_credit]
  omega

theorem Ledger.bal_reward_le (r : ScriptPublicKey × UInt64) (spk : ScriptPublicKey) :
    L.bal spk ≤ (L.reward r).bal spk := by
  unfold reward
  by_cases h : spk = r.1
  · subst h
    rw [bal, bal, update_self]
    exact le_credit _ _
  · rw [bal, bal, update_of_ne h]

variable {spk : ScriptPublicKey}

theorem Ledger.bal_flash_le {tx : FlashTransaction} (h : senderOf c tx ≠ spk) :
    L.bal spk ≤ (L.flash c tx).bal spk := by
  unfold flash
  by_cases hr : spk = recipientOf tx
  · subst hr
    rw [bal, bal, update_self, update_of_ne h.symm]
    exact le_credit _ _
  · rw [bal, bal, update_of_ne hr, update_of_ne h.symm]

variable {flashTxs : List FlashTransaction} {x : Hash × UInt64} {daaScore : UInt64}

/-- **Only senders lose**: an account that no flash transaction of the block debits keeps its
    balance. -/
theorem Ledger.bal_effects_le (rewards : Rewards) (h : ∀ tx ∈ flashTxs, senderOf c tx ≠ spk) :
    L.bal spk ≤ (L.effects c flashTxs rewards).bal spk := by
  have hrew : ∀ M : Ledger, M.bal spk ≤ bal (rewards.foldl reward M) spk := by
    induction rewards with
    | nil => exact fun M => le_rfl
    | cons r rs ih => exact fun M => (M.bal_reward_le r spk).trans (ih _)
  refine le_trans ?_ (hrew _)
  induction flashTxs generalizing L with
  | nil => exact le_rfl
  | cons tx txs ih =>
    obtain ⟨h1, h2⟩ := forall_mem_cons.mp h
    exact (L.bal_flash_le c h1).trans (ih _ h2)

theorem bal_blockState {rewards : Rewards} (h : spk ∈ touchedScripts c flashTxs rewards) :
    bal (blockState c L flashTxs rewards daaScore) spk =
      (L.effects c flashTxs rewards).bal spk := by
  rw [bal, blockState, if_pos h, AccountState.balance_prune]

/-! ## 3. Flash records -/

/-- What is committed of an account's flash record. -/
def Ledger.record (L : Ledger) (spk : ScriptPublicKey) : List (Hash × UInt64) :=
  (L spk).recentFlashes.map FlashEntry.core

theorem Ledger.recentFlashes_reward (r : ScriptPublicKey × UInt64)
    (spk : ScriptPublicKey) : (L.reward r spk).recentFlashes = (L spk).recentFlashes := by
  unfold reward
  by_cases h : spk = r.1
  · subst h
    rw [update_self]
    rfl
  · rw [update_of_ne h]

theorem Ledger.record_reward (r : ScriptPublicKey × UInt64) (spk : ScriptPublicKey) :
    (L.reward r).record spk = L.record spk :=
  congrArg (List.map FlashEntry.core) (L.recentFlashes_reward r spk)

theorem Ledger.record_rewards {rewards : Rewards} (spk : ScriptPublicKey) :
    ∀ L : Ledger, record (rewards.foldl reward L) spk = L.record spk := by
  induction rewards with
  | nil => exact fun _ => rfl
  | cons r rs ih => exact fun L => (ih _).trans (L.record_reward r spk)

theorem Ledger.record_flash (L : Ledger) (tx : FlashTransaction) (spk : ScriptPublicKey) :
    (L.flash c tx).record spk = if spk = senderOf c tx then
      L.record spk ++ [(tx.flashId c, tx.expiryDaaScore)] else L.record spk := by
  rw [L.flash_eq_reward, record_reward]
  unfold record
  split
  · rename_i h
    subst h
    rw [update_self, debit, map_append]
    rfl
  · rename_i h
    rw [update_of_ne h]

/-- **The flashes of a block are recorded on top of what was there.** -/
theorem Ledger.mem_record_flashes : ∀ {L : Ledger},
      x ∈ record (flashTxs.foldl (flash c) L) spk ↔ x ∈ L.record spk ∨
          ∃ tx ∈ flashTxs, senderOf c tx = spk ∧ x = (tx.flashId c, tx.expiryDaaScore) := by
  induction flashTxs with
  | nil => simp
  | cons tx txs ih =>
    intro L
    rw [foldl_cons, ih, L.record_flash]
    by_cases h : spk = senderOf c tx
    · subst h
      simp [or_assoc]
    · simp [h, Ne.symm h]

theorem mem_record_blockState (L : Ledger) {rewards : Rewards}
    (h : spk ∈ touchedScripts c flashTxs rewards) :
    x ∈ record (blockState c L flashTxs rewards daaScore) spk ↔ (x ∈ L.record spk ∨
        ∃ tx ∈ flashTxs, senderOf c tx = spk ∧ x = (tx.flashId c, tx.expiryDaaScore)) ∧
      daaScore.toNat - 50 < x.2.toNat := by
  rw [record, blockState, if_pos h, AccountState.mem_prune]
  refine and_congr_left fun _ => ?_
  show x ∈ record (rewards.foldl reward (flashTxs.foldl (flash c) L)) spk ↔ _
  rw [record_rewards, mem_record_flashes]

/-! ## 4. The code's map follows the ledger -/

section Follows

variable {c : Crypto} {read : AccountReader}

/-- The ledger that reads give, with an empty account where the read fails. -/
def baseLedger (read : AccountReader) : Ledger := fun spk =>
  match read spk with
  | .ok st => st
  | .error _ => .default

variable {spk : ScriptPublicKey} {st st' : AccountState}

/-- The map has read the scripts `done`, and is seen as the ledger `L`. -/
structure Tracks (read : AccountReader) (t : Touched)
    (done : List ScriptPublicKey) (L : Ledger) : Prop where
  mem : ∀ spk, spk ∈ t ↔ spk ∈ done
  reads : ∀ spk ∈ done, read spk = .ok (baseLedger read spk)
  view : t.view (baseLedger read) = L

theorem tracks_empty : Tracks read ∅ [] (baseLedger read) where
  mem spk := by simp
  reads spk h := absurd h not_mem_nil
  view := rfl

variable {t t' : Touched} {done : List ScriptPublicKey} {L : Ledger}

/-- Touching an account changes nothing that is seen. -/
theorem Tracks.touch (h : Tracks read t done L) (ht : touch read t spk = .ok t') :
    Tracks read t' (done ++ [spk]) L := by
  unfold Account.touch at ht
  split at ht
  · rename_i hm
    cases ht
    have hd := (h.mem spk).mp hm
    refine ⟨fun q => ?_, fun q hq => ?_, h.view⟩
    · rw [h.mem q, mem_append, mem_singleton]
      exact ⟨.inl, fun hq => hq.elim id fun e => e ▸ hd⟩
    · rcases mem_append.mp hq with hq | hq
      · exact h.reads q hq
      · rw [mem_singleton.mp hq]
        exact h.reads spk hd
  · rename_i hm
    obtain ⟨st, hr, hins⟩ := bind_eq_ok.mp ht
    cases hins
    obtain rfl : st = baseLedger read spk := by rw [baseLedger, hr]
    refine ⟨fun q => ?_, fun q hq => ?_, (view_fill hm).trans h.view⟩
    · rw [mem_insert, h.mem q, mem_append, mem_singleton, or_comm]
    · rcases mem_append.mp hq with hq | hq
      · exact h.reads q hq
      · rw [mem_singleton.mp hq]
        exact hr

theorem Tracks.getMut (h : Tracks read t done L) (hd : spk ∈ done) {f : AccountState → AccountState}
    (ht : (t.getMut spk f : Run AccountError Touched) = .ok t') :
    Tracks read t' done (update L spk (f (L spk))) := by
  have hm := (h.mem spk).mpr hd
  rw [getMut_of_mem hm (baseLedger read), h.view] at ht
  cases ht
  refine ⟨fun q => ?_, h.reads, ?_⟩
  · rw [mem_insert, h.mem q]
    exact ⟨fun hq => hq.elim (fun e => e ▸ hd) id, .inr⟩
  · rw [view_insert, h.view]

theorem getMut_total (h : spk ∈ t) (f : AccountState → AccountState) :
    ∃ t', (t.getMut spk f : Run AccountError Touched) = .ok t' :=
  ⟨_, getMut_of_mem h (fun _ => .default) f⟩

variable {tx : FlashTransaction}

/-- **One flash transaction**: the recipient is long enough, and the map follows the ledger. -/
theorem Tracks.applyFlash (h : Tracks read t done L) (ht : applyFlash c read t tx = .ok t') :
    20 ≤ tx.recipient.length ∧
    Tracks read t' (done ++ [senderOf c tx, recipientOf tx]) (L.flash c tx) := by
  obtain ⟨r, hr, ht⟩ := bind_eq_ok.mp ht
  obtain ⟨hlen, rfl⟩ := hash20ToP2pkhSpk_eq_ok hr
  obtain ⟨t₁, h1, ht⟩ := bind_eq_ok.mp ht
  obtain ⟨t₂, h2, ht⟩ := bind_eq_ok.mp ht
  obtain ⟨t₃, h3, h4⟩ := bind_eq_ok.mp ht
  have k2 := (h.touch h1).touch h2
  rw [append_assoc] at k2
  have k3 := k2.getMut (mem_append_right _ (by simp)) h3
  exact ⟨hlen, k3.getMut (mem_append_right _ (by simp)) h4⟩

theorem Tracks.applyReward (h : Tracks read t done L) {r : ScriptPublicKey × UInt64}
    (ht : applyReward read t r = .ok t') : Tracks read t' (done ++ [r.1]) (L.reward r) := by
  obtain ⟨t₁, h1, h2⟩ := bind_eq_ok.mp ht
  exact (h.touch h1).getMut (mem_append_right _ (by simp)) h2

theorem Tracks.flashes {flashTxs : List FlashTransaction} : ∀ {t t' : Touched}
    {done : List ScriptPublicKey} {L : Ledger}, Tracks read t done L →
      flashTxs.foldlM (Account.applyFlash c read) t = .ok t' →
      (∀ tx ∈ flashTxs, 20 ≤ tx.recipient.length) ∧
        Tracks read t' (done ++ flashTxs.flatMap fun tx => [senderOf c tx, recipientOf tx])
          (flashTxs.foldl (flash c) L) := by
  induction flashTxs with
  | nil =>
    intro t t' done L h ht
    cases ht
    refine ⟨forall_mem_nil _, ?_⟩
    rw [flatMap_nil, append_nil]
    exact h
  | cons tx txs ih =>
    intro t t' done L h ht
    obtain ⟨t₁, h1, h2⟩ := bind_eq_ok.mp ht
    obtain ⟨hlen, k1⟩ := h.applyFlash h1
    obtain ⟨hlens, k2⟩ := ih k1 h2
    rw [append_assoc] at k2
    exact ⟨forall_mem_cons.mpr ⟨hlen, hlens⟩, k2⟩

theorem Tracks.rewards {rewards : Rewards} : ∀ {t t' : Touched}
    {done : List ScriptPublicKey} {L : Ledger}, Tracks read t done L →
      rewards.foldlM (Account.applyReward read) t = .ok t' →
        Tracks read t' (done ++ rewards.map Prod.fst) (rewards.foldl reward L) := by
  induction rewards with
  | nil =>
    intro t t' done L h ht
    cases ht
    rw [map_nil, append_nil]
    exact h
  | cons r rs ih =>
    intro t t' done L h ht
    obtain ⟨t₁, h1, h2⟩ := bind_eq_ok.mp ht
    have k := ih (h.applyReward h1) h2
    rw [append_assoc] at k
    exact k

variable {flashTxs : List FlashTransaction} {rewards : Rewards} {daaScore : UInt64}

/-- **The map after steps 1 to 3 is the ledger after the block**, on the scripts of the block. -/
theorem touchedAccounts_spec (h : touchedAccounts c read flashTxs rewards daaScore = .ok t) :
    (∀ tx ∈ flashTxs, 20 ≤ tx.recipient.length) ∧
      (∀ spk ∈ touchedScripts c flashTxs rewards, read spk = .ok (baseLedger read spk)) ∧
      ∀ spk, t.lookup spk = if spk ∈ touchedScripts c flashTxs rewards then
        some (blockState c (baseLedger read) flashTxs rewards daaScore spk) else none := by
  obtain ⟨t₁, h1, h⟩ := bind_eq_ok.mp h
  obtain ⟨t₂, h2, h3⟩ := bind_eq_ok.mp h
  obtain ⟨hlen, k1⟩ := tracks_empty.flashes h1
  have k2 := k1.rewards h2
  cases h3
  refine ⟨hlen, k2.reads, fun spk => ?_⟩
  rw [lookup_mapValues]
  by_cases hm : spk ∈ touchedScripts c flashTxs rewards
  · obtain ⟨st, hst⟩ := Option.isSome_iff_exists.mp (lookup_isSome.mpr ((k2.mem spk).mpr hm))
    have hview := congrFun k2.view spk
    rw [view_of_lookup hst] at hview
    rw [hst, if_pos hm, blockState, if_pos hm, hview]
    rfl
  · rw [if_neg hm, lookup_eq_none.mpr fun hmem => hm ((k2.mem spk).mp hmem)]
    rfl

section Kept

variable {P : ∀ ⦃α : Type⦄, Run AccountError α → Prop} (hP : Kept P)

include hP

theorem touch_kept (hread : P (read spk)) (t : Touched) : P (Account.touch read t spk) := by
  unfold Account.touch
  split
  · exact hP.ok _
  · exact hP.bind hread fun st _ => hP.ok _

theorem Tracks.applyFlash_kept (h : Tracks read t done L) (hlen : 20 ≤ tx.recipient.length)
    (hs : P (read (senderOf c tx))) (hr : P (read (recipientOf tx))) :
    P (Account.applyFlash c read t tx) := by
  unfold Account.applyFlash
  rw [hash20ToP2pkhSpk_of_le hlen, ok_bind]
  refine hP.bind (touch_kept hP hs t) fun t₁ h1 => hP.bind (touch_kept hP hr t₁) fun t₂ h2 => ?_
  -- both accounts are in the map now, so that neither `unwrap` fails
  have k2 := (h.touch h1).touch h2
  obtain ⟨t₃, h3⟩ :=
    getMut_total ((k2.mem (flashPubkeyToSpk c tx.pubkey)).mpr (by simp)) (debit c tx)
  have k3 := k2.getMut (by simp) h3
  obtain ⟨t₄, h4⟩ := getMut_total ((k3.mem (recipientOf tx)).mpr (by simp)) (credit tx.amount)
  rw [h3, ok_bind, h4]
  exact hP.ok _

theorem Tracks.applyReward_kept (h : Tracks read t done L) {r : ScriptPublicKey × UInt64}
    (hr : P (read r.1)) : P (Account.applyReward read t r) := by
  refine hP.bind (touch_kept hP hr t) fun t₁ h1 => ?_
  obtain ⟨t₂, h2⟩ := getMut_total (((h.touch h1).mem r.1).mpr (by simp)) (credit r.2)
  rw [h2]
  exact hP.ok _

/-- **How the map comes out is how the reads come out**, if every recipient has 20 bytes. -/
theorem touchedAccounts_kept (daaScore : UInt64) (hlen : ∀ tx ∈ flashTxs, 20 ≤ tx.recipient.length)
    (hread : ∀ spk ∈ touchedScripts c flashTxs rewards, P (read spk)) :
    P (touchedAccounts c read flashTxs rewards daaScore) := by
  have hmem : ∀ tx ∈ flashTxs, senderOf c tx ∈ touchedScripts c flashTxs rewards ∧
      recipientOf tx ∈ touchedScripts c flashTxs rewards := fun tx htx =>
    ⟨mem_append_left _ (mem_flatMap.mpr ⟨tx, htx, by simp⟩),
      mem_append_left _ (mem_flatMap.mpr ⟨tx, htx, by simp⟩)⟩
  refine hP.bind
    (hP.foldlM (I := fun l t => (∀ tx ∈ l, tx ∈ flashTxs) ∧ ∃ done L, Tracks read t done L) ?_
    ⟨fun _ h => h, [], _, tracks_empty⟩) fun t₁ h1 => hP.bind (hP.foldlM
      (I := fun l t => (∀ r ∈ l, r ∈ rewards) ∧ ∃ done L, Tracks read t done L) ?_
    ⟨fun _ h => h, _, _, (tracks_empty.flashes h1).2⟩) fun t₂ _ => hP.ok _
  · intro tx l t hI
    obtain ⟨hl, done, L, h⟩ := hI
    obtain ⟨htx, hl⟩ := forall_mem_cons.mp hl
    exact ⟨h.applyFlash_kept hP (hlen tx htx) (hread _ (hmem tx htx).1) (hread _ (hmem tx htx).2),
      fun t' ht => ⟨hl, _, _, (h.applyFlash ht).2⟩⟩
  · intro r l t hI
    obtain ⟨hl, done, L, h⟩ := hI
    obtain ⟨hr, hl⟩ := forall_mem_cons.mp hl
    exact ⟨h.applyReward_kept hP (hread _ (mem_append_right _ (mem_map_of_mem hr))),
      fun t' ht => ⟨hl, _, _, h.applyReward ht⟩⟩

end Kept

end Follows

/-! ## 5. Panics -/

section Panics

variable {c : Crypto} {read : AccountReader}
  {flashTxs : List FlashTransaction} {rewards : Rewards} {daaScore : UInt64}
  {tx : FlashTransaction}

/-- **A recipient of fewer than 20 bytes is a panic**, if every read succeeds. -/
theorem touchedAccounts_panics (hread : ∀ spk, ∃ st, read spk = .ok st) (htx : tx ∈ flashTxs)
    (hshort : tx.recipient.length < 20) :
    touchedAccounts c read flashTxs rewards daaScore = .panicked := by
  have hflash : ∀ {txs : List FlashTransaction} {t : Touched} {done : List ScriptPublicKey}
      {L : Ledger}, Tracks read t done L → tx ∈ txs →
      txs.foldlM (Account.applyFlash c read) t = .panicked := by
    intro txs
    induction txs with
    | nil => exact fun _ hm => absurd hm not_mem_nil
    | cons x txs ih =>
      intro t done L h hm
      rw [foldlM_cons]
      by_cases hlen : 20 ≤ x.recipient.length
      · obtain ⟨t₁, h1⟩ :=
          h.applyFlash_kept kept_ok hlen (hread (senderOf c x)) (hread (recipientOf x))
        rcases mem_cons.mp hm with rfl | hm
        · omega
        · rw [h1, ok_bind]
          exact ih (h.applyFlash h1).2 hm
      · unfold Account.applyFlash
        rw [hash20ToP2pkhSpk_of_lt hlen]
        rfl
  unfold touchedAccounts
  rw [hflash tracks_empty htx]
  rfl

end Panics

end Sahyadri.Account
