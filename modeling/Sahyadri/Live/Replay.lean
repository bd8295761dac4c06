import Sahyadri.Live.Agree
import Sahyadri.Pipeline.Replay

/-!
# Whether the flash hook can debit a sender twice for one flash id

A batch has no id twice, none that has expired at the block's score, and none that its sender's
account has recorded. An entry is pruned only if it expired 50 or more below the score, so a
transaction whose entry is gone has expired for every block that is not that far behind.

* `Remembered`: every transaction taken up so far is recorded with its sender, or expired 50 or more
  below the highest score. `Remembered.step` is the step, `debited_once` the whole run on a ledger.
* `live_no_replay`: the same on the store, if the accounts in use fit into its cache. If they do
  not, an account can be validated as it was before its batch (`stale_debited_twice`).
-/

namespace Sahyadri.Live

open Lib Smt Core Tx Account Pipeline List Action FlashTransaction CachedDb List.Perm

/-! ## 1. Sequences of blocks -/

/-- What the flash hook is called with. `written`: the batch is written after this block. -/
structure HookBlock where
  daaScore : UInt64
  hash : Hash
  transactions : List Transaction
  debitOrder : DebitOrder
  written : Bool

def HookBlock.flashes (b : HookBlock) : List FlashTransaction :=
  b.transactions.filterMap fromTransaction

section Code

variable {S : Type} (p : LiveProcessor) (A : AccountStore S)

/-- The transactions that the hook applies, one after the other. -/
def validBatch (b : HookBlock) (s : S) : List FlashTransaction :=
  if p.enableFlashTx ∧ ¬ b.flashes.isEmpty then
    match (validateFlashBatch p.crypto A b.debitOrder b.flashes b.daaScore s).1 with
    | .ok valid => valid
    | .error _ => []
  else []

variable (write : S → S)

def afterBlock (b : HookBlock) (s : S) : S :=
  let s' :=
    ((flashHook p A b.debitOrder b.daaScore b.hash b.transactions : Action S Empty Unit) s).2
  if b.written then write s' else s'

/-- What the hook applies over a sequence of blocks. A panic ends the run; its whole batch is
    counted. -/
def debited : List HookBlock → S → List FlashTransaction
  | [], _ => []
  | b :: rest, s => validBatch p A b s ++
    match ((flashHook p A b.debitOrder b.daaScore b.hash b.transactions : Action S Empty Unit)
      s).1 with
    | .ok _ => debited rest (afterBlock p A write b s)
    | .error _ => []

end Code

/-- No account is debited twice for one flash id. -/
def DebitedOnce (c : Crypto) (txs : List FlashTransaction) : Prop := (txs.map (debitOf c)).Nodup

/-! ## 2. A batch that is returned -/

open HookBlock

section Batches

variable {c : Crypto} {L : Ledger} {daaScore : UInt64}

/-- What a batch returned for the accounts `L` has gone through. -/
structure Batch (c : Crypto) (L : Ledger) (daaScore : UInt64) (txs : List FlashTransaction) :
    Prop where
  ids : (txs.map (flashId c)).Nodup
  unexpired : ∀ tx ∈ txs, daaScore ≤ tx.expiryDaaScore
  unrecorded : ∀ tx ∈ txs, (L (senderOf c tx)).isFlashReplay (tx.flashId c) = false

theorem Batch.nil : Batch c L daaScore [] := ⟨nodup_nil, forall_mem_nil _, forall_mem_nil _⟩

variable {txs valid : List FlashTransaction}

theorem filterEligible_batch :
    ∀ {seen : List Hash} {eligible : List FlashTransaction} {L' : Ledger},
      filterEligible c ledgerStore daaScore seen txs L = (.ok eligible, L') →
        Batch c L daaScore eligible ∧ ∀ tx ∈ eligible, tx.flashId c ∉ seen := by
  induction txs with
  | nil =>
    intro seen eligible L' h
    cases h
    exact ⟨.nil, forall_mem_nil _⟩
  | cons tx txs ih =>
    intro seen eligible L' h
    unfold filterEligible at h
    dsimp only at h
    split at h
    · exact ih h
    rename_i hseen
    split at h
    · obtain ⟨hb, hnew⟩ := ih h
      exact ⟨hb, fun tx' hm => (not_or.mp (mt mem_cons.mpr (hnew tx' hm))).2⟩
    rename_i hlive
    rw [pubkeyToP2pkhSpk_eq, ledgerStore_get_then] at h
    obtain ⟨rest, L₁, h1, h2⟩ := bind_eq_ok.mp h
    obtain ⟨hb, hnew⟩ := ih h1
    have hold : ∀ tx' ∈ rest, tx'.flashId c ≠ tx.flashId c ∧ tx'.flashId c ∉ seen := fun tx' hm =>
      not_or.mp (mt mem_cons.mpr (hnew tx' hm))
    cases h2
    split
    · exact ⟨hb, fun tx' hm => (hold tx' hm).2⟩
    rename_i hrec
    refine ⟨⟨?_, ?_, ?_⟩, ?_⟩
    · refine nodup_cons.mpr ⟨fun hm => ?_, hb.ids⟩
      obtain ⟨tx', hm', he⟩ := mem_map.mp hm
      exact (hold tx' hm').1 he
    · exact forall_mem_cons.mpr ⟨UInt64.not_lt.mp hlive, hb.unexpired⟩
    · exact forall_mem_cons.mpr ⟨Bool.eq_false_iff.mpr hrec, hb.unrecorded⟩
    · exact forall_mem_cons.mpr ⟨hseen, fun tx' hm => (hold tx' hm).2⟩

theorem validateFlashBatch_batch {ord : DebitOrder} {L' : Ledger}
    (h : validateFlashBatch c ledgerStore ord txs daaScore L = (.ok valid, L')) :
    Batch c L daaScore valid := by
  rcases validateFlashBatch_cases h with rfl | ⟨_, _, _, _, h1, _⟩
  · exact .nil
  · exact (filterEligible_batch h1).1

end Batches

/-! ## 3. Validation only reads -/

section Reads

variable {c : Crypto} {daaScore : UInt64}

theorem getAccount_rel {ε : Type} (L : Ledger)
    (K : Finset ScriptPublicKey) {spk : ScriptPublicKey} (_ : spk ∈ K) :
    Rel (fun s t => s = L ∧ t = L) (ledgerStore.getAccount spk : Action Ledger ε AccountState)
      (ledgerStore.getAccount spk) := fun s t h => by
  obtain ⟨rfl, rfl⟩ := h
  exact ⟨rfl, rfl, rfl⟩

theorem filterEligible_reads (txs : List FlashTransaction) (seen : List Hash) :
    (filterEligible c ledgerStore daaScore seen txs).Reads := .of_rel fun L =>
  filterEligible_sim (getAccount_rel L (txs.map (senderOf c)).toFinset) daaScore
    (fun _ h => mem_toFinset.mpr (mem_map_of_mem h)) seen

theorem validateFlashTransaction_reads (tx : FlashTransaction) :
    (validateFlashTransaction c ledgerStore tx daaScore).Reads := .of_rel fun L =>
  validateFlashTransaction_sim (getAccount_rel L {senderOf c tx})
    (Finset.mem_singleton_self _) daaScore

theorem validateFlashBatch_reads (ord : DebitOrder) (txs : List FlashTransaction) :
    (validateFlashBatch c ledgerStore ord txs daaScore).Reads := .of_rel fun L =>
  validateFlashBatch_sim (getAccount_rel L (txs.map (senderOf c)).toFinset) ord daaScore
    fun _ h => mem_toFinset.mpr (mem_map_of_mem h)

end Reads

/-! ## 4. The records after the hook -/

section Records

variable {ε : Type} {c : Crypto} {L L' : Ledger} {daaScore : UInt64} {x : Hash × UInt64}
  {a : ScriptPublicKey}

/-- Applying a batch records it on top of what was there. -/
theorem applyAll_record {hash : Hash}
    {txs : List FlashTransaction} {affected : List ScriptPublicKey}
    (h : (applyAll c ledgerStore hash txs : Action Ledger ε _) L = (.ok affected, L'))
    (hx : x ∈ L.record a ∨ ∃ tx ∈ txs, senderOf c tx = a ∧ x = (tx.flashId c, tx.expiryDaaScore)) :
    x ∈ L'.record a := by
  rw [foldl_of_applyAll h, Ledger.record, recentFlashes_foldl_liveFlash, map_append, mem_append]
  refine hx.imp_right fun hx => ?_
  obtain ⟨tx, hm, hs, rfl⟩ := hx
  exact mem_map_of_mem (mem_map_of_mem (mem_filter.mpr ⟨hm, decide_eq_true hs⟩))

theorem prune_record {spks : List ScriptPublicKey} : ∀ {L : Ledger},
    (pruneFlashesForAccounts ledgerStore daaScore spks : Action Ledger ε Unit) L = (.ok (), L') →
      ∀ {a}, x ∈ L.record a → daaScore.toNat - 50 < x.2.toNat → x ∈ L'.record a := by
  induction spks with
  | nil =>
    intro L h a hx _
    cases h
    exact hx
  | cons spk spks ih =>
    intro L h a hx hlive
    unfold pruneFlashesForAccounts at h
    rw [ledgerStore_get_then] at h
    split at h
    · exact ih h hx hlive
    obtain ⟨_, L₁, hs, h⟩ := bind_eq_ok.mp h
    cases hs
    refine ih h ?_ hlive
    unfold Ledger.record ledgerStore
    dsimp only
    by_cases ha : a = spk
    · subst ha
      rw [Function.update_self]
      exact AccountState.mem_prune.mpr ⟨hx, hlive⟩
    · rw [Function.update_of_ne ha]
      exact hx

/-- **The records after the hook**: what was there and what was applied, unless it expired 50 or
    more below the score. -/
theorem flashHook_record {p : LiveProcessor} {b : HookBlock}
    (h : (flashHook p ledgerStore b.debitOrder b.daaScore b.hash b.transactions :
      Action Ledger ε Unit) L = (.ok (), L'))
    (hx : x ∈ L.record a ∨ ∃ tx ∈ validBatch p ledgerStore b L,
      senderOf p.crypto tx = a ∧ x = (tx.flashId p.crypto, tx.expiryDaaScore))
    (hlive : b.daaScore.toNat - 50 < x.2.toNat) : x ∈ L'.record a := by
  unfold flashHook at h
  unfold validBatch at hx
  rw [flashes] at hx
  split at h
  · rename_i hon
    rw [if_pos hon] at hx
    obtain ⟨result, L₁, hv, h⟩ := bind_eq_ok.mp h
    have hsame : L₁ = L := by
      have hreads :
          (validateFlashBatch p.crypto ledgerStore b.debitOrder b.flashes b.daaScore).Reads :=
        validateFlashBatch_reads b.debitOrder b.flashes
      have hkept := hreads.attempt (δ := ε) L
      rw [flashes, hv] at hkept
      exact hkept
    subst hsame
    cases result with
    | error e =>
      cases h
      have herr := attempt_eq_error.mp hv
      rw [herr] at hx
      rcases hx with hx | ⟨_, hm, _⟩
      · exact hx
      · exact absurd hm not_mem_nil
    | ok valid =>
      have hok := attempt_eq_ok.mp hv
      rw [hok] at hx
      obtain ⟨affected, L₂, ha, h⟩ := bind_eq_ok.mp h
      exact prune_record h (applyAll_record ha hx) hlive
  · rename_i hoff
    rw [if_neg hoff] at hx
    cases h
    rcases hx with hx | ⟨_, hm, _⟩
    · exact hx
    · exact absurd hm not_mem_nil

end Records

/-! ## 5. Whole runs -/

section Runs

variable {p : LiveProcessor} {L L' : Ledger} {b : HookBlock} {done : List FlashTransaction}
  {top : Nat}

theorem validBatch_batch (p : LiveProcessor) (b : HookBlock) (L : Ledger) :
    Batch p.crypto L b.daaScore (validBatch p ledgerStore b L) := by
  unfold validBatch
  split
  · split
    · rename_i valid hv
      exact validateFlashBatch_batch (Prod.ext hv rfl)
    · exact .nil
  · exact .nil

theorem validBatch_subset {S : Type} (p : LiveProcessor) (A : AccountStore S) (b : HookBlock)
    (s : S) : validBatch p A b s ⊆ b.flashes := by
  unfold validBatch
  split
  · split
    · rename_i valid hv
      exact (validateFlashBatch_sublist (Prod.ext hv rfl)).subset
    · exact nil_subset _
  · exact nil_subset _

/-- The invariant of a run: `done` has been applied, `top` is the highest score so far. -/
structure Remembered (c : Crypto) (L : Ledger) (top : Nat) (done : List FlashTransaction) :
    Prop where
  once : DebitedOnce c done
  expiry : ∀ f ∈ done, 0 < f.expiryDaaScore.toNat
  record : ∀ f ∈ done, (f.flashId c, f.expiryDaaScore) ∈ L.record (senderOf c f) ∨
    f.expiryDaaScore.toNat + 50 ≤ top

/-- A batch has nothing that was applied before: what is recorded is dropped, and what is no longer
    recorded has expired. -/
theorem Remembered.once_append (h : Remembered p.crypto L top done)
    (hlow : top < b.daaScore.toNat + 50)
    (hids : IdsApart p.crypto (validBatch p ledgerStore b L ++ done)) :
    DebitedOnce p.crypto (validBatch p ledgerStore b L ++ done) := by
  have hb := validBatch_batch p b L
  unfold DebitedOnce
  rw [map_append]
  refine nodup_append.mpr ⟨?_, h.once, ?_⟩
  · exact List.Nodup.of_map Prod.snd (by rw [map_map]; exact hb.ids)
  · intro d hd d' hd' he
    subst he
    obtain ⟨f, hf, rfl⟩ := mem_map.mp hd
    obtain ⟨g, hg, hfg⟩ := mem_map.mp hd'
    obtain ⟨hsender, hid⟩ := Prod.mk.inj hfg
    have hsigned := hids g (mem_append_right _ hg) f (mem_append_left _ hf) hid
    have hexpiry := expiry_of_signedBytes hsigned
    rcases h.record g hg with hrec | hgone
    · have hreplay : (L (senderOf p.crypto f)).isFlashReplay (f.flashId p.crypto) = true := by
        rw [← hsender, ← hid]
        exact AccountState.isFlashReplay_iff.mpr ⟨_, hrec, rfl⟩
      rw [hb.unrecorded f hf] at hreplay
      cases hreplay
    · have hlive := UInt64.le_iff_toNat_le.mp (hb.unexpired f hf)
      rw [hexpiry] at hgone
      omega

/-- **One block** whose score is positive and less than 50 below the highest. -/
theorem Remembered.step (h : Remembered p.crypto L top done) (hpos : 0 < b.daaScore.toNat)
    (hlow : top < b.daaScore.toNat + 50)
    (hids : IdsApart p.crypto (validBatch p ledgerStore b L ++ done))
    (hrun : (flashHook p ledgerStore b.debitOrder b.daaScore b.hash b.transactions :
      Action Ledger Empty Unit) L = (.ok (), L')) :
    Remembered p.crypto L' (max top b.daaScore.toNat) (validBatch p ledgerStore b L ++ done) := by
  have hb := validBatch_batch p b L
  have hnew : ∀ f ∈ validBatch p ledgerStore b L, b.daaScore.toNat ≤ f.expiryDaaScore.toNat :=
    fun f hf => UInt64.le_iff_toNat_le.mp (hb.unexpired f hf)
  refine ⟨h.once_append hlow hids, fun f hf => ?_, fun f hf => ?_⟩
  · rcases mem_append.mp hf with hf | hf
    · exact hpos.trans_le (hnew f hf)
    · exact h.expiry f hf
  · -- an entry that is pruned expired 50 or more below this score
    by_cases hlive : b.daaScore.toNat - 50 < f.expiryDaaScore.toNat
    · rcases mem_append.mp hf with hf | hf
      · exact .inl (flashHook_record hrun (.inr ⟨f, hf, rfl, rfl⟩) hlive)
      · rcases h.record f hf with hrec | hgone
        · exact .inl (flashHook_record hrun (.inl hrec) hlive)
        · exact .inr (hgone.trans (le_max_left _ _))
    · rcases mem_append.mp hf with hf | hf
      · have := hnew f hf
        omega
      · have := h.expiry f hf
        right
        omega

variable {blocks : List HookBlock}

/-- The blocks of a run do not fall 50 or more below `top`, nor below a score before them. -/
theorem Remembered.run :
    ∀ {L : Ledger} {top : Nat} {done : List FlashTransaction}, Remembered p.crypto L top done →
      (∀ b ∈ blocks, 0 < b.daaScore.toNat) → (∀ b ∈ blocks, top < b.daaScore.toNat + 50) →
      blocks.Pairwise (fun b b' => b.daaScore.toNat < b'.daaScore.toNat + 50) →
      IdsApart p.crypto (blocks.flatMap flashes ++ done) →
        DebitedOnce p.crypto (debited p ledgerStore id blocks L ++ done) := by
  induction blocks with
  | nil => exact fun h _ _ _ _ => h.once
  | cons b rest ih =>
    intro L top done h hpos hlow hpair hids
    obtain ⟨hp, hpos⟩ := forall_mem_cons.mp hpos
    obtain ⟨hl, hlow⟩ := forall_mem_cons.mp hlow
    obtain ⟨hfirst, hpair⟩ := pairwise_cons.mp hpair
    have hsub := validBatch_subset p ledgerStore b L
    have hids₁ : IdsApart p.crypto (validBatch p ledgerStore b L ++ done) := by
      refine hids.mono fun f hf => ?_
      rw [flatMap_cons, append_assoc]
      rcases mem_append.mp hf with hf | hf
      · exact mem_append_left _ (hsub hf)
      · exact mem_append_right _ (mem_append_right _ hf)
    unfold debited
    split
    · rename_i u hok
      have hafter : afterBlock p ledgerStore id b L =
          ((flashHook p ledgerStore b.debitOrder b.daaScore b.hash b.transactions :
            Action Ledger Empty Unit) L).2 := ite_self _
      have hstep := h.step hp hl hids₁ (Prod.ext hok hafter.symm)
      have hlow' : ∀ b' ∈ rest, max top b.daaScore.toNat < b'.daaScore.toNat + 50 := fun b' hm =>
        max_lt (hlow b' hm) (hfirst b' hm)
      have hids₂ :
          IdsApart p.crypto (rest.flatMap flashes ++ (validBatch p ledgerStore b L ++ done)) := by
        refine hids.mono fun f hf => ?_
        rw [flatMap_cons, append_assoc]
        rcases mem_append.mp hf with hf | hf
        · exact mem_append_right _ (mem_append_left _ hf)
        rcases mem_append.mp hf with hf | hf
        · exact mem_append_left _ (hsub hf)
        · exact mem_append_right _ (mem_append_right _ hf)
      have hrest := ih hstep hpos hlow' hpair hids₂
      refine (nodup_iff (map _ ?_)).mp hrest
      rw [← append_assoc]
      exact append_right _ perm_append_comm
    · rw [append_nil]
      exact h.once_append hl hids₁

/-- **Replay protection on a ledger**: if the scores are positive and never fall 50 or more below
    the highest so far, no sender is debited twice for one id. -/
theorem debited_once (p : LiveProcessor) (L : Ledger) (hpos : ∀ b ∈ blocks, 0 < b.daaScore.toNat)
    (hwindow : blocks.Pairwise fun b b' => b.daaScore.toNat < b'.daaScore.toNat + 50)
    (hids : IdsApart p.crypto (blocks.flatMap flashes)) :
    DebitedOnce p.crypto (debited p ledgerStore id blocks L) := by
  have hstart : Remembered p.crypto L 0 [] := ⟨nodup_nil, forall_mem_nil _, forall_mem_nil _⟩
  have hrun := hstart.run hpos (fun b _ => by omega) hwindow (by rwa [append_nil])
  rwa [append_nil] at hrun

end Runs

/-! ## 6. On the store -/

def FlashWithin (c : Crypto) (K : Finset ScriptPublicKey) (b : HookBlock) : Prop :=
  ∀ f ∈ b.flashes, senderOf c f ∈ K ∧ recipientOf f ∈ K

section OnStore

variable {p : LiveProcessor} {K : Finset ScriptPublicKey} {s : DbAccounts} {L : Ledger}
  {b : HookBlock}

theorem validBatch_mirrors (hm : Mirrors K s L) (hb : FlashWithin p.crypto K b) :
    validBatch p dbAccountStore b s = validBatch p ledgerStore b L := by
  have hsim :=
    validateFlashBatch_sim (c := p.crypto) (getAccount_sim (dbAccountStore_sim K)) b.debitOrder
    b.daaScore (fun f hf => (hb f hf).1) s L hm
  unfold validBatch
  rw [hsim.1]

/-- A block on the store is one on the ledger, whether or not its batch is written. -/
theorem afterBlock_mirrors (hm : Mirrors K s L) (hb : FlashWithin p.crypto K b) :
    ((flashHook p dbAccountStore b.debitOrder b.daaScore b.hash b.transactions :
        Action DbAccounts Empty Unit) s).1 =
      ((flashHook p ledgerStore b.debitOrder b.daaScore b.hash b.transactions :
        Action Ledger Empty Unit) L).1 ∧
    Mirrors K (afterBlock p dbAccountStore flush b s) (afterBlock p ledgerStore id b L) := by
  obtain ⟨hres, hafter⟩ :=
    flashHook_sim (ε := Empty) (p := p) (dbAccountStore_sim K) b.debitOrder b.daaScore
    b.hash (fun f hf => (hb f hf).1) (fun f hf => (hb f hf).2) s L hm
  refine ⟨hres, ?_⟩
  unfold afterBlock
  split
  · exact hafter.flush
  · exact hafter

theorem debited_mirrors {blocks : List HookBlock} (hK : ∀ b ∈ blocks, FlashWithin p.crypto K b)
    (hm : Mirrors K s L) :
    debited p dbAccountStore flush blocks s = debited p ledgerStore id blocks L := by
  induction blocks generalizing s L with
  | nil => rfl
  | cons b rest ih =>
    obtain ⟨hb, hK⟩ := forall_mem_cons.mp hK
    obtain ⟨hres, hafter⟩ := afterBlock_mirrors hm hb
    unfold debited
    rw [validBatch_mirrors hm hb, hres, ih hK hafter]

/-- **Live replay protection**, if the accounts in use fit into the cache. -/
theorem live_no_replay {blocks : List HookBlock} (hfit : s.Fits K)
    (hK : ∀ b ∈ blocks, FlashWithin p.crypto K b) (hpos : ∀ b ∈ blocks, 1 ≤ b.daaScore)
    (hwindow : blocks.Pairwise fun b b' => b.daaScore.toNat < b'.daaScore.toNat + 50)
    (hids : IdsApart p.crypto (blocks.flatMap flashes)) :
    DebitedOnce p.crypto (debited p dbAccountStore flush blocks s) := by
  rw [debited_mirrors hK ⟨hfit, rfl⟩]
  exact debited_once p _ (fun b hb => UInt64.le_iff_toNat_le.mp (hpos b hb)) hwindow hids

end OnStore

def paid : FlashTransaction := paidTransfer paidSignature

def otherPaid (signature : Bytes) : FlashTransaction :=
  { paidTransfer signature with pubkey := [6] }

def paidByOther : FlashTransaction := otherPaid ((otherPaid []).sighash toyCrypto).bytes

def hookBlock (daaScore : UInt64) (txs : List FlashTransaction) : HookBlock :=
  ⟨daaScore, .ofNat 3, toyCoinbase 2 0 [] :: txs.map (·.toTransaction toyCrypto),
    .asListed _ _, true⟩

/-- A database in which both senders have 5000 and the recipient 1, behind a cache of `maxSize`
    entries. -/
def fundedStore (maxSize : Nat) : DbAccounts :=
  flush { new maxSize (fun _ => 1) with batch := [(toySender, ⟨5000, []⟩),
    (senderOf toyCrypto paidByOther, ⟨5000, []⟩), (recipientOf paid, ⟨1, []⟩)] }

theorem live_no_replay_paid :
    debited liveToy dbAccountStore flush [hookBlock 100 [paid], hookBlock 60 [paidByOther, paid]]
        (fundedStore 10) = [paid, paidByOther] ∧
      DebitedOnce toyCrypto (debited liveToy dbAccountStore flush
        [hookBlock 100 [paid], hookBlock 60 [paidByOther, paid]] (fundedStore 10)) := by
  let K : Finset ScriptPublicKey := {toySender, senderOf toyCrypto paidByOther, recipientOf paid}
  have hfit : (fundedStore 10).Fits K :=
    ⟨by decide, fun k hk => absurd hk (AList.notMem_empty k), by rintro _ _ ⟨⟩, forall_mem_nil _⟩
  refine ⟨by decide +kernel,
    live_no_replay (p := liveToy) hfit ?_ (by decide +kernel) (by decide +kernel) ?_⟩
  · unfold FlashWithin
    decide
  · unfold IdsApart
    decide +kernel

/-- **A sender is debited twice for one transfer.** The second block is validated on the account
    that the cache has from before the first. -/
theorem stale_debited_twice :
    debited liveToy dbAccountStore flush [hookBlock 10 [paid], hookBlock 11 [paidByOther, paid]]
        (fundedStore 2) = [paid, paidByOther, paid] ∧
      (liveLedger (fundedStore 2) toySender).balance = 5000 ∧
      (liveLedger (afterBlock liveToy dbAccountStore flush (hookBlock 11 [paidByOther, paid])
        (afterBlock liveToy dbAccountStore flush (hookBlock 10 [paid]) (fundedStore 2)))
          toySender).balance = 2990 ∧
      IdsApart toyCrypto ([hookBlock 10 [paid], hookBlock 11 [paidByOther, paid]].flatMap flashes) ∧
      ¬ DebitedOnce toyCrypto (debited liveToy dbAccountStore flush
        [hookBlock 10 [paid], hookBlock 11 [paidByOther, paid]] (fundedStore 2)) := by
  have hdebited : debited liveToy dbAccountStore flush
      [hookBlock 10 [paid], hookBlock 11 [paidByOther, paid]] (fundedStore 2) =
        [paid, paidByOther, paid] := by
    decide +kernel
  refine ⟨hdebited, by decide +kernel, by decide +kernel, ?_, ?_⟩
  · unfold IdsApart
    decide +kernel
  · rw [hdebited]
    unfold DebitedOnce
    decide +kernel

end Sahyadri.Live
