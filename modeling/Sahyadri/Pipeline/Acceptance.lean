import Sahyadri.Account.Total
import Sahyadri.Pipeline.Debits
import Sahyadri.Pipeline.Replay

/-!
# `calculate_block_state`: what a chain block accepts, against what its chain applies

A chain block accepts the transactions of its selected parent and of the other blocks of its
mergeset. `accepted_tx_ids` takes every id once; the acceptance data list every transaction of every
merged block. The committed accounts are those of the chain blocks' own transactions.

* `acceptance_exact_iff`: the acceptance data list the flash transactions that took effect on the
  committed accounts and no id twice, exactly when every flash transaction of the chain and of
  merged blocks is payable in a block of the chain, and no id occurs in two places.
-/

namespace Sahyadri.Pipeline

open Lib Smt Core Tx Account Did List FlashTransaction List.Perm

/-! ## 1. The code -/

structure AcceptedTxEntry where
  transactionId : Hash
  indexWithinBlock : UInt32
  deriving DecidableEq, Repr

/-- A merged block with its accepted transactions. -/
structure MergesetBlockAcceptanceData where
  blockHash : Hash
  acceptedTransactions : List AcceptedTxEntry
  deriving DecidableEq, Repr

abbrev AcceptanceData := List MergesetBlockAcceptanceData

structure BlockRewardData where
  subsidy : UInt64
  totalFees : UInt64
  scriptPublicKey : ScriptPublicKey
  deriving DecidableEq, Repr

/-- `ValidatedTransaction`, without the entries: there are none. -/
structure ValidatedTransaction where
  tx : Transaction
  calculatedFee : UInt64

/-- The transactions of a block, and `consensus_ordered_mergeset_without_selected_parent`. -/
structure MergeStores where
  transactions : Hash → Option (List Transaction)
  mergeset : Hash → List Hash

/-- The fields of `BlockProcessingContext` that the function fills, and the ids seen so far. -/
structure Acceptance where
  acceptedTxIds : List Hash
  acceptanceData : AcceptanceData
  rewards : Table Hash BlockRewardData
  seenTxids : List Hash

/-- `validate_transactions_with_muhash_in_parallel`: every transaction after the coinbase, with no
    fee. -/
def validateTransactionsWithMuhashInParallel (txs : List Transaction) :
    List (ValidatedTransaction × UInt32) :=
  (txs.zipIdx.drop 1).map fun e => (⟨e.1, 0⟩, UInt32.ofNat e.2)

/-- The loop over the validated transactions: an id that was seen before is passed over. -/
def acceptIds (acc : Acceptance) (blockFee : UInt64) :
    List (ValidatedTransaction × UInt32) → Acceptance × UInt64
  | [] => (acc, blockFee)
  | (validated, _) :: rest =>
    if validated.tx.id ∈ acc.seenTxids then acceptIds acc blockFee rest
    else
      acceptIds
        { acc with
          acceptedTxIds := acc.acceptedTxIds ++ [validated.tx.id]
          seenTxids := validated.tx.id :: acc.seenTxids }
        (blockFee + validated.calculatedFee) rest

/-- What the acceptance data say about a merged block; for the selected parent the coinbase comes
    first. -/
def acceptedEntries (selectedParentCoinbase : Option Hash) (txs : List Transaction) :
    List AcceptedTxEntry :=
  (selectedParentCoinbase.map fun id => ⟨id, 0⟩).toList ++
    (validateTransactionsWithMuhashInParallel txs).map fun e => ⟨e.1.tx.id, e.2⟩

def acceptBlock (m : CoinbaseManager) (selectedParentCoinbase : Option Hash) (mergedBlock : Hash)
    (txs : List Transaction) (acc : Acceptance) : Run Empty Acceptance :=
  let (acc, blockFee) := acceptIds acc 0 (validateTransactionsWithMuhashInParallel txs)
  match txs with
  | [] => .panicked
  | coinbase :: _ =>
    match m.deserializeCoinbasePayload coinbase.payload with
    | .error _ => .panicked
    | .ok coinbaseData =>
      .ok { acc with
        acceptanceData :=
          acc.acceptanceData ++ [⟨mergedBlock, acceptedEntries selectedParentCoinbase txs⟩]
        rewards := acc.rewards.insert mergedBlock
          ⟨coinbaseData.subsidy, blockFee, coinbaseData.minerData.scriptPublicKey⟩ }

def acceptMergeset (m : CoinbaseManager) (src : MergeStores) :
    List Hash → Acceptance → Run Empty Acceptance
  | [], acc => .ok acc
  | b :: rest, acc =>
    match src.transactions b with
    | none => .panicked
    | some txs => do
      let acc ← acceptBlock m none b txs acc
      acceptMergeset m src rest acc

/-- `calculate_block_state` of a block with this selected parent and mergeset. -/
def calculateBlockState (m : CoinbaseManager) (src : MergeStores) (selectedParent : Hash)
    (mergeset : List Hash) : Run Empty Acceptance :=
  match src.transactions selectedParent with
  | none => .panicked
  | some [] => .panicked
  | some (coinbase :: rest) =>
    if ¬ coinbase.isCoinbase then .panicked
    else do
      let acc ← acceptBlock m (some coinbase.id) selectedParent (coinbase :: rest)
        ⟨[coinbase.id], [], ∅, [coinbase.id]⟩
      acceptMergeset m src mergeset acc

/-- The acceptance data of a chain, newest first, without its first block, whose parent is the
    genesis block. -/
def acceptances (m : CoinbaseManager) (src : MergeStores) : Chain → Run Empty (List AcceptanceData)
  | [] => .ok []
  | [_] => .ok []
  | b :: parent :: chain => do
    let acc ← calculateBlockState m src parent.header.hash (src.mergeset b.header.hash)
    let earlier ← acceptances m src (parent :: chain)
    return acc.acceptanceData :: earlier

/-! ## 2. What the properties say -/

/-- The ids in acceptance data. -/
def listedIds (data : AcceptanceData) : List Hash :=
  data.flatMap fun e => e.acceptedTransactions.map (·.transactionId)

/-- A flash transaction is listed: some transaction of a merged block carries it and is listed
    there. -/
def Listed (src : MergeStores) (data : AcceptanceData) (f : FlashTransaction) : Prop :=
  ∃ e ∈ data, ∃ txs, src.transactions e.blockHash = some txs ∧ ∃ tx ∈ txs.drop 1,
    (∃ a ∈ e.acceptedTransactions, a.transactionId = tx.id) ∧ fromTransaction tx = some f

/-- On the accounts `M` a transaction debits and credits its amounts, with nothing cut off. -/
def TakesEffect (c : Crypto) (M : Ledger) (f : FlashTransaction) : Prop :=
  ∀ a, (M.flash c f).bal a + debits (flashChanges c a f) = M.bal a + credits (flashChanges c a f)

variable (p : VirtualProcessor) (st : Stores)

/-- The accounts committed by the block `b` are those committed at the end of `past` after all
    effects of `b`. -/
def CommitsEffects (b : Block) (past : Chain) : Prop :=
  ∀ a ∈ p.scripts b.transactions, (ledger p.crypto st b.header.accountCommitment).bal a =
    ((ledger p.crypto st past.root).effects p.crypto (p.effects b.transactions).1
      (p.effects b.transactions).2).bal a

/-- The debit and the credit of `f` are part of the accounts at the end of `chain`: in a block of it
    `f` takes effect when its turn comes, and the block has committed what that led to. -/
def Chain.Applied (chain : Chain) (f : FlashTransaction) : Prop :=
  ∃ (b : Block) (past : Chain), (b :: past) <:+ chain ∧ CommitsEffects p st b past ∧
    ∃ pre post, (p.effects b.transactions).1 = pre ++ f :: post ∧
      TakesEffect p.crypto (pre.foldl (Ledger.flash p.crypto) (ledger p.crypto st past.root)) f

/-- The acceptance data list a flash transaction exactly when it is part of the accounts committed
    at the end of `chain`, and no id twice. -/
structure ExactAcceptance (src : MergeStores) (chain : Chain)
    (data : List AcceptanceData) : Prop where
  applied : ∀ f, (∃ d ∈ data, Listed src d f) ↔ chain.Applied p st f
  once : (data.flatMap listedIds).Nodup

def MergeStores.body (src : MergeStores) (h : Hash) : List Transaction :=
  (src.transactions h).getD []

/-- What the mergesets of a chain bring: the transactions after the coinbase, of the merged blocks
    besides the selected parents. -/
def mergedTxs (src : MergeStores) : Chain → List Transaction
  | [] => []
  | [_] => []
  | b :: parent :: chain =>
    (src.mergeset b.header.hash).flatMap (fun h => (src.body h).drop 1) ++ mergedTxs src
      (parent :: chain)

/-- The sender holds amount and fee, and the recipient has room for the amount. -/
def Payable (c : Crypto) (M : Ledger) (f : FlashTransaction) : Prop :=
  f.amount.toNat + f.fee.toNat ≤ M.bal (senderOf c f) ∧
    (recipientOf f ≠ senderOf c f → M.bal (recipientOf f) + f.amount.toNat ≤ maxBalance)

/-- A block of `chain` has `f`, and it is payable there when its turn comes. -/
def Chain.Pays (chain : Chain) (f : FlashTransaction) : Prop :=
  ∃ (b : Block) (past : Chain), (b :: past) <:+ chain ∧
    ∃ pre post, (p.effects b.transactions).1 = pre ++ f :: post ∧
    Payable p.crypto (pre.foldl (Ledger.flash p.crypto) (ledger p.crypto st past.root)) f

/-- Every flash transaction of the chain and of what is merged is payable in the chain, and no id
    occurs twice in either. -/
structure OwnTransactions (src : MergeStores) (tip : Block) (chain : Chain) :
    Prop where
  own : ∀ f ∈ chain.flashes p, chain.Pays p st f
  merged : ∀ tx ∈ mergedTxs src (tip :: chain), ∀ f, fromTransaction tx = some f → chain.Pays p st f
  ids : ((chain.flatMap Block.transactions ++ mergedTxs src (tip :: chain)).map (·.id)).Nodup

/-! ## 3. One block -/

section OneBlock

variable {m : CoinbaseManager} {src : MergeStores}

theorem validated_txs (txs : List Transaction) :
    (validateTransactionsWithMuhashInParallel txs).map (·.1.tx) = txs.drop 1 := by
  have hfst : (txs.zipIdx.drop 1).map Prod.fst = txs.drop 1 := by
    rw [map_drop, zipIdx_map_fst]
  rw [← hfst, validateTransactionsWithMuhashInParallel, map_map]
  rfl

theorem ids_acceptedEntries (coinbase : Option Hash) (txs : List Transaction) :
    (acceptedEntries coinbase txs).map (·.transactionId) =
      coinbase.toList ++ (txs.drop 1).map (·.id) := by
  have hrest : ((validateTransactionsWithMuhashInParallel txs).map fun e =>
      (⟨e.1.tx.id, e.2⟩ : AcceptedTxEntry)).map (·.transactionId) = (txs.drop 1).map (·.id) := by
    rw [← validated_txs, map_map, map_map]
    rfl
  rw [acceptedEntries, map_append, hrest]
  cases coinbase <;> rfl

theorem acceptIds_data (acc : Acceptance)
    (fee : UInt64) (vs : List (ValidatedTransaction × UInt32)) :
    (acceptIds acc fee vs).1.acceptanceData = acc.acceptanceData := by
  induction vs generalizing acc fee with
  | nil => rfl
  | cons v vs ih =>
    unfold acceptIds
    split
    · exact ih acc fee
    · exact ih _ _

theorem acceptBlock_ok {coinbase : Option Hash} {b : Hash} {txs : List Transaction}
    {acc acc' : Acceptance} (h : acceptBlock m coinbase b txs acc = .ok acc') :
    acc'.acceptanceData = acc.acceptanceData ++ [⟨b, acceptedEntries coinbase txs⟩] := by
  unfold acceptBlock at h
  have hdata := acceptIds_data acc 0 (validateTransactionsWithMuhashInParallel txs)
  cases txs with
  | nil => cases h
  | cons first rest =>
    dsimp only at h
    cases hd : m.deserializeCoinbasePayload first.payload with
    | error e =>
      rw [hd] at h
      cases h
    | ok data =>
      rw [hd] at h
      cases h
      rw [hdata]

variable {mergeset : List Hash}

theorem acceptMergeset_ok :
    ∀ {acc acc' : Acceptance}, acceptMergeset m src mergeset acc = .ok acc' →
      (∀ b ∈ mergeset, src.transactions b = some (src.body b)) ∧
      acc'.acceptanceData = acc.acceptanceData ++
          mergeset.map fun b => ⟨b, acceptedEntries none (src.body b)⟩ := by
  induction mergeset with
  | nil =>
    intro acc acc' h
    cases h
    exact ⟨forall_mem_nil _, (append_nil _).symm⟩
  | cons b rest ih =>
    intro acc acc' h
    unfold acceptMergeset at h
    cases ht : src.transactions b with
    | none =>
      rw [ht] at h
      cases h
    | some txs =>
      rw [ht] at h
      obtain ⟨acc₁, h1, h2⟩ := Run.bind_eq_ok.mp h
      obtain ⟨hstored, hdata⟩ := ih h2
      have hbody : src.body b = txs := by rw [MergeStores.body, ht, Option.getD_some]
      refine ⟨forall_mem_cons.mpr ⟨hbody ▸ ht, hstored⟩, ?_⟩
      rw [hdata, acceptBlock_ok h1, map_cons, hbody, append_assoc, singleton_append]

/-- **The acceptance data**: the selected parent with its coinbase, and the other merged blocks. -/
theorem calculateBlockState_ok {selectedParent : Hash} {acc : Acceptance}
    (h : calculateBlockState m src selectedParent mergeset = .ok acc) :
    ∃ coinbase rest, src.transactions selectedParent = some (coinbase :: rest) ∧
      (∀ b ∈ mergeset, src.transactions b = some (src.body b)) ∧ acc.acceptanceData =
        ⟨selectedParent, acceptedEntries (some coinbase.id) (coinbase :: rest)⟩ ::
        mergeset.map fun b => ⟨b, acceptedEntries none (src.body b)⟩ := by
  unfold calculateBlockState at h
  cases ht : src.transactions selectedParent with
  | none =>
    rw [ht] at h
    cases h
  | some txs =>
    rw [ht] at h
    cases txs with
    | nil => cases h
    | cons coinbase rest =>
      dsimp only at h
      split at h
      · cases h
      · obtain ⟨acc₁, h1, h2⟩ := Run.bind_eq_ok.mp h
        obtain ⟨hstored, hdata⟩ := acceptMergeset_ok h2
        refine ⟨coinbase, rest, rfl, hstored, ?_⟩
        rw [hdata, acceptBlock_ok h1]
        rfl

end OneBlock

/-! ## 4. Along a chain -/

section Chains

variable {p : VirtualProcessor} {m : CoinbaseManager} {src : MergeStores}

theorem effects_fst (p : VirtualProcessor) (txs : List Transaction) :
    (p.effects txs).1 = (txs.drop 1).filterMap fromTransaction := by
  cases txs <;> rfl

variable {parent b : Block} {chain : Chain}

theorem acceptances_cons {data : List AcceptanceData}
    (h : acceptances m src (b :: parent :: chain) = .ok data) : ∃ acc earlier,
      calculateBlockState m src parent.header.hash (src.mergeset b.header.hash) = .ok acc ∧
      acceptances m src (parent :: chain) = .ok earlier ∧ data = acc.acceptanceData :: earlier := by
  obtain ⟨acc, h1, h⟩ := Run.bind_eq_ok.mp h
  obtain ⟨earlier, h2, h⟩ := Run.bind_eq_ok.mp h
  cases h
  exact ⟨acc, earlier, h1, h2, rfl⟩

variable {mergeset : List Hash} {acc : Acceptance}

/-- The ids listed for one block: those of the selected parent, and those merged. -/
theorem listedIds_of_ok (hstore : src.transactions parent.header.hash = some parent.transactions)
    (h : calculateBlockState m src parent.header.hash mergeset = .ok acc) :
    listedIds acc.acceptanceData = (parent.transactions ++
      mergeset.flatMap fun b => (src.body b).drop 1).map (·.id) := by
  obtain ⟨coinbase, rest, hsp, _, hdata⟩ := calculateBlockState_ok h
  have hbody : parent.transactions = coinbase :: rest := Option.some.inj (hstore.symm.trans hsp)
  rw [hdata, listedIds, flatMap_cons, ids_acceptedEntries, flatMap_map, hbody, map_append,
    map_flatMap]
  simp only [ids_acceptedEntries]
  rfl

/-- **The listed ids** are those of the chain's own transactions and of the merged ones. -/
theorem listedIds_perm : ∀ {tip : Block} {data : List AcceptanceData},
    (∀ b ∈ chain, src.transactions b.header.hash = some b.transactions) →
    acceptances m src (tip :: chain) = .ok data → (data.flatMap listedIds).Perm
        ((chain.flatMap Block.transactions ++ mergedTxs src (tip :: chain)).map (·.id)) := by
  induction chain with
  | nil =>
    intro tip data _ h
    cases h
    exact .refl _
  | cons parent chain ih =>
    intro tip data hstore h
    obtain ⟨hp, hrest⟩ := forall_mem_cons.mp hstore
    obtain ⟨acc, earlier, h1, h2, rfl⟩ := acceptances_cons h
    rw [flatMap_cons, listedIds_of_ok hp h1, flatMap_cons, mergedTxs]
    refine ((ih hrest h2).append_left _).trans ?_
    rw [← map_append]
    refine map _ ?_
    rw [append_assoc, append_assoc]
    refine append_left _ ?_
    rw [← append_assoc, ← append_assoc]
    exact append_right _ perm_append_comm

/-- A flash transaction listed for one block. -/
theorem listed_of_ok (hstore : src.transactions parent.header.hash = some parent.transactions)
    (h : calculateBlockState m src parent.header.hash mergeset = .ok acc) (f : FlashTransaction) :
    Listed src acc.acceptanceData f ↔ f ∈ (p.effects parent.transactions).1 ∨
      ∃ tx ∈ mergeset.flatMap fun b => (src.body b).drop 1, fromTransaction tx = some f := by
  obtain ⟨coinbase, rest, hsp, hmerged, hdata⟩ := calculateBlockState_ok h
  have hbody : parent.transactions = coinbase :: rest := Option.some.inj (hstore.symm.trans hsp)
  have hentry : ∀ (cb : Option Hash) {txs : List Transaction} {tx : Transaction}, tx ∈ txs.drop 1 →
      ∃ a ∈ acceptedEntries cb txs, a.transactionId = tx.id := fun cb txs tx htx => by
    refine mem_map.mp ?_
    rw [ids_acceptedEntries]
    exact mem_append_right _ (mem_map_of_mem htx)
  rw [effects_fst, mem_filterMap, hdata]
  constructor
  · rintro ⟨e, he, txs, htxs, tx, htx, _, hf⟩
    rcases mem_cons.mp he with rfl | he
    · obtain rfl : parent.transactions = txs := Option.some.inj (hstore.symm.trans htxs)
      exact .inl ⟨tx, htx, hf⟩
    · obtain ⟨b, hb, rfl⟩ := mem_map.mp he
      obtain rfl : src.body b = txs := Option.some.inj ((hmerged b hb).symm.trans htxs)
      exact .inr ⟨tx, mem_flatMap.mpr ⟨b, hb, htx⟩, hf⟩
  · rintro (⟨tx, htx, hf⟩ | ⟨tx, htx, hf⟩)
    · rw [hbody] at htx
      exact ⟨_, mem_cons_self, _, hsp, tx, htx, hentry _ htx, hf⟩
    · obtain ⟨b, hb, htx⟩ := mem_flatMap.mp htx
      exact ⟨_, mem_cons_of_mem _ (mem_map_of_mem hb), _, hmerged b hb, tx, htx, hentry _ htx, hf⟩

/-- **The listed flash transactions** are those of the chain and those merged. -/
theorem listed_iff (f : FlashTransaction) : ∀ {tip : Block} {data : List AcceptanceData},
      (∀ b ∈ chain, src.transactions b.header.hash = some b.transactions) →
      acceptances m src (tip :: chain) = .ok data →
      ((∃ d ∈ data, Listed src d f) ↔ f ∈ chain.flashes p ∨
          ∃ tx ∈ mergedTxs src (tip :: chain), fromTransaction tx = some f) := by
  induction chain with
  | nil =>
    intro tip data _ h
    cases h
    refine iff_of_false (fun ⟨_, h, _⟩ => absurd h not_mem_nil) ?_
    rintro (h | ⟨_, h, _⟩)
    · exact absurd h not_mem_nil
    · exact absurd h not_mem_nil
  | cons parent chain ih =>
    intro tip data hstore h
    obtain ⟨hp, hrest⟩ := forall_mem_cons.mp hstore
    obtain ⟨acc, earlier, h1, h2, rfl⟩ := acceptances_cons h
    have hone := listed_of_ok (p := p) hp h1 f
    have hearlier := ih hrest h2
    rw [exists_mem_cons_iff, hone, hearlier, Chain.flashes_cons, mem_append, mergedTxs]
    simp only [mem_append, or_and_right, exists_or]
    exact or_or_or_comm

end Chains

/-! ## 5. What the chain has committed -/

section Committed

variable {p : VirtualProcessor} {allow : Ledger → Chain → Block → Prop} {w : World} {chain : Chain}
  {f : FlashTransaction}

/-- **When a transaction takes effect**: if its amounts are there and fit. -/
theorem takesEffect_iff {c : Crypto} {M : Ledger} : TakesEffect c M f ↔ Payable c M f := by
  have hsettle : ∀ a, (M.flash c f).bal a = settle maxBalance (M.bal a) (flashChanges c a f) :=
    M.bal_flash_settle c f
  have hlt : ∀ a, M.bal a < 2 ^ 64 := fun a => (M a).balance.toNat_lt
  have hamount := f.amount.toNat_lt
  constructor
  · intro h
    have hs := h (senderOf c f)
    have hr := h (recipientOf f)
    rw [hsettle, flashChanges, if_pos rfl] at hs
    rw [hsettle, flashChanges] at hr
    by_cases hself : recipientOf f = senderOf c f
    · rw [if_pos hself] at hs
      have hsum :
          min (M.bal (senderOf c f) - (f.amount.toNat + f.fee.toNat) + f.amount.toNat) maxBalance +
          (f.amount.toNat + f.fee.toNat + 0) = M.bal (senderOf c f) + (0 + f.amount.toNat) := hs
      rw [maxBalance] at hsum
      exact ⟨by omega, fun hne => absurd hself hne⟩
    · rw [if_neg hself] at hs
      rw [if_neg (Ne.symm hself), if_pos rfl] at hr
      have hpay : M.bal (senderOf c f) - (f.amount.toNat + f.fee.toNat) +
          (f.amount.toNat + f.fee.toNat) = M.bal (senderOf c f) + 0 := hs
      have hfit : min (M.bal (recipientOf f) + f.amount.toNat) maxBalance + 0 =
          M.bal (recipientOf f) + f.amount.toNat := hr
      exact ⟨by omega, fun _ => by omega⟩
  · rintro ⟨hpay, hfit⟩ a
    have ha := hlt a
    rw [hsettle, flashChanges]
    by_cases hs : senderOf c f = a
    · subst hs
      rw [if_pos rfl]
      by_cases hr : recipientOf f = senderOf c f
      · rw [if_pos hr]
        show min
          (M.bal (senderOf c f) - (f.amount.toNat + f.fee.toNat) + f.amount.toNat) maxBalance +
          (f.amount.toNat + f.fee.toNat + 0) = M.bal (senderOf c f) + (0 + f.amount.toNat)
        rw [maxBalance]
        omega
      · rw [if_neg hr]
        show M.bal (senderOf c f) - (f.amount.toNat + f.fee.toNat) +
          (f.amount.toNat + f.fee.toNat) = M.bal (senderOf c f) + 0
        omega
    · rw [if_neg hs]
      by_cases hr : recipientOf f = a
      · subst hr
        have hroom := hfit (Ne.symm hs)
        rw [if_pos rfl]
        show min (M.bal (recipientOf f) + f.amount.toNat) maxBalance + 0 =
          M.bal (recipientOf f) + f.amount.toNat
        omega
      · rw [if_neg hr]
        rfl

section Extend

variable {st st' : Stores} {b : Block} {past : Chain}

/-- Growing stores keep the balances of a chain that they hold. -/
theorem bal_extend (he : st.Extends st') (hk : st'.WellKeyed p.crypto)
    (hcf : st'.CollisionFree p.crypto)
    {root : H256} {t : Tree} (h : Holds p.crypto st root t) (a : ScriptPublicKey) :
    (ledger p.crypto st' root).bal a = (ledger p.crypto st root).bal a :=
  congrArg UInt64.toNat (h.committed_same he hk hcf _).balance

theorem bal_effects_congr {c : Crypto} {L L' : Ledger} {a : ScriptPublicKey}
    (h : L.bal a = L'.bal a) (flashTxs : List FlashTransaction) (rewards : Rewards) :
    (L.effects c flashTxs rewards).bal a = (L'.effects c flashTxs rewards).bal a := by
  rw [L.bal_effects_settle, L'.bal_effects_settle, h]

end Extend

/-- **Every block of a chain has committed its effects**, if its scripts and DIDs have slots of
    their own. -/
theorem Reach.commitsEffects (h : Reach p allow w)
    (hcf : w.stores.CollisionFree p.crypto) {b : Block} {past : Chain} (hc : (b :: past) ∈ w.chains)
    (hs : SlotsApart p w.stores past.root b.transactions) : CommitsEffects p w.stores b past := by
  -- along the run, with the stores that were there; later ones hold the same balances
  have hheld : ∀ {w : World}, Reach p allow w →
      w.stores.CollisionFree p.crypto → w.stores.WellKeyed p.crypto ∧
      ∀ chain ∈ w.chains, ∃ t, Holds p.crypto w.stores chain.root t := fun hw hcf => by
    obtain ⟨hk, hkeeps⟩ :=
      hw.invariant (fun _ _ => True) trivial (fun _ _ => trivial) (fun _ _ _ => trivial) hcf
    exact ⟨hk, fun chain hc => (hkeeps chain hc).held⟩
  have hold : ∀ {w : World} {st' : Stores}, Reach p allow w → w.stores.CollisionFree p.crypto →
      w.stores.Extends st' →
      st'.WellKeyed p.crypto → st'.CollisionFree p.crypto → (b :: past) ∈ w.chains →
      (SlotsApart p w.stores past.root b.transactions → CommitsEffects p w.stores b past) →
      SlotsApart p st' past.root b.transactions → CommitsEffects p st' b past := by
    intro w st' hw hcf he hk' hcf' hc ih hs a ha
    obtain ⟨_, hall⟩ := hheld hw hcf
    obtain ⟨t, ht⟩ := hall _ hc
    obtain ⟨t₀, ht₀⟩ := hall _ (hw.past_mem hc (suffix_cons b past))
    have hs' : SlotsApart p w.stores past.root b.transactions := ⟨hs.scripts, hs.dids,
      fun d hd => (ht₀.committed_same he hk' hcf' _).balance.symm.trans (hs.unfunded d hd)⟩
    refine (bal_extend he hk' hcf' ht a).trans ((ih hs' a ha).trans ?_)
    exact bal_effects_congr (bal_extend he hk' hcf' ht₀ a).symm _ _
  induction h with
  | start => cases mem_singleton.mp hc
  | @visit w hw ctx header ih =>
    have hext := verifyBlockState_extends (p := p) ctx header w.stores
    have hcf₀ := hcf.of_extends hext
    exact hold hw hcf₀ hext (verifyBlockState_wellKeyed ctx header (hheld hw hcf₀).1) hcf hc
      (ih hcf₀ hc) hs
  | @extend w chain b' ctx st' hw hchain hallow hon hstate ih =>
    have hext := verifyBlockState_extends (p := p) ctx b'.header w.stores
    rw [hstate] at hext
    have hcf₀ := hcf.of_extends hext
    obtain ⟨hk, hall⟩ := hheld hw hcf₀
    have hk' := verifyBlockState_wellKeyed ctx b'.header hk
    rw [hstate] at hk'
    rcases mem_cons.mp hc with heq | hc
    · cases heq
      obtain ⟨t, ht⟩ := hall _ hchain
      obtain ⟨t', dids, ht', hcommits⟩ := hon.commits hstate ht hk hcf
      have hs' : SlotsApart p w.stores past.root b.transactions := ⟨hs.scripts, hs.dids,
        fun d hd => (ht.committed_same hext hk' hcf _).balance.symm.trans (hs.unfunded d hd)⟩
      intro a ha
      refine (hcommits.balance_touched hs' ha).trans ?_
      exact bal_effects_congr (bal_extend hext hk' hcf ht a).symm _ _
    · exact hold hw hcf₀ hext hk' hcf hc (ih hcf₀ hc) hs

theorem mem_flashes (h : chain.Applied p w.stores f) : f ∈ chain.flashes p := by
  obtain ⟨b, past, hsuffix, -, pre, post, hsplit, -⟩ := h
  refine mem_flatMap.mpr ⟨b, hsuffix.subset mem_cons_self, ?_⟩
  rw [hsplit]
  exact mem_append_right _ mem_cons_self

/-- **Acceptance against effect**: what is listed is what is part of the committed accounts, and
    once, exactly when all of it is payable in the chain and no id occurs in two places. -/
theorem acceptance_exact_iff {src : MergeStores} {tip : Block} {data : List AcceptanceData}
    (h : Reach p allow w) (hcf : w.stores.CollisionFree p.crypto) (hc : chain ∈ w.chains)
    (hslots : ∀ (b : Block) (past : Chain), (b :: past) <:+ chain →
      SlotsApart p w.stores past.root b.transactions)
    (hstore : ∀ b ∈ chain, src.transactions b.header.hash = some b.transactions)
    (hdata : acceptances p.coinbaseManager src (tip :: chain) = .ok data) :
    ExactAcceptance p w.stores src chain data ↔ OwnTransactions p w.stores src tip chain := by
  have hlisted : ∀ f, (∃ d ∈ data, Listed src d f) ↔ f ∈ chain.flashes p ∨
      ∃ tx ∈ mergedTxs src (tip :: chain), fromTransaction tx = some f :=
    fun f => listed_iff f hstore hdata
  have hids := (listedIds_perm hstore hdata).nodup_iff
  have hpays : ∀ f, chain.Applied p w.stores f ↔ chain.Pays p w.stores f := fun f => by
    constructor
    · rintro ⟨b, past, hsuffix, -, pre, post, hsplit, heffect⟩
      exact ⟨b, past, hsuffix, pre, post, hsplit, takesEffect_iff.mp heffect⟩
    · rintro ⟨b, past, hsuffix, pre, post, hsplit, hpay⟩
      exact ⟨b, past, hsuffix, h.commitsEffects hcf (h.past_mem hc hsuffix) (hslots b past hsuffix),
        pre, post, hsplit, takesEffect_iff.mpr hpay⟩
  constructor
  · rintro ⟨happlied, honce⟩
    refine ⟨fun f hf => ?_, fun tx htx f hf => ?_, hids.mp honce⟩
    · exact (hpays f).mp ((happlied f).mp ((hlisted f).mpr (.inl hf)))
    · exact (hpays f).mp ((happlied f).mp ((hlisted f).mpr (.inr ⟨tx, htx, hf⟩)))
  · rintro ⟨hown, hmerged, hnodup⟩
    refine ⟨fun f => ⟨fun hf => ?_, fun hf => (hlisted f).mpr (.inl (mem_flashes hf))⟩,
      hids.mpr hnodup⟩
    rcases (hlisted f).mp hf with hf | ⟨tx, htx, hf⟩
    · exact (hpays f).mpr (hown f hf)
    · exact (hpays f).mpr (hmerged tx htx f hf)

end Committed

/-! ## 6. A merged block

The funding block and the transfer on it; the transfer's block also merges `merged`, and one more
block follows. -/

def forkStores (merged : List Hash) : MergeStores where
  transactions h :=
    if h = fundingHeader.hash then some fundingBlock
    else if h = (transferTip toySignature).header.hash ∨
      h = .ofNat 9 then some (transferBlock toySignature)
    else none
  mergeset h := if h = (transferTip toySignature).header.hash then merged else []

def nextTip : Block := ⟨{ secondHeader [] with hash := .ofNat 4, directParents := [.ofNat 3] }, []⟩

/-- If nothing is merged, what is listed is what took effect: the transfer. -/
theorem acceptance_exact_unmerged :
    Reach toyProcessor (fun _ _ _ => True) transferWorld ∧ transferChain ∈ transferWorld.chains ∧
      ∃ data, acceptances toyProcessor.coinbaseManager (forkStores []) (nextTip :: transferChain) =
        .ok data ∧ (∃ d ∈ data, Listed (forkStores []) d (transfer toySignature)) ∧
        ExactAcceptance toyProcessor transferWorld.stores (forkStores []) transferChain data := by
  have hreach : Reach toyProcessor (fun _ _ _ => True) transferWorld :=
    reach_transfer trivial trivial
  obtain ⟨data, hdata⟩ : ∃ data, acceptances toyProcessor.coinbaseManager (forkStores [])
      (nextTip :: transferChain) = .ok data := exists_ok_of_isOk (by decide +kernel)
  have hstore : ∀ b ∈ transferChain, (forkStores []).transactions b.header.hash =
      some b.transactions := by
    decide +kernel
  have hflashes : Chain.flashes toyProcessor transferChain = [transfer toySignature] := by
    decide +kernel
  have hmerged : mergedTxs (forkStores []) (nextTip :: transferChain) = [] := by decide
  have hpays : Chain.Pays toyProcessor transferWorld.stores transferChain
      (transfer toySignature) := by
    refine ⟨_, _, suffix_refl _, [], [], by decide +kernel, ?_⟩
    unfold Payable
    decide +kernel
  have hslots : ∀ (b : Block) (past : Chain), (b :: past) <:+ transferChain →
      SlotsApart toyProcessor transferWorld.stores past.root b.transactions := by
    intro b past hsuffix
    rcases suffix_cons_iff.mp hsuffix with heq | hsuffix
    · cases heq
      exact ⟨by decide +kernel, by decide +kernel, by decide +kernel⟩
    rcases suffix_cons_iff.mp hsuffix with heq | hsuffix
    · cases heq
      exact ⟨by decide, by decide, by decide⟩
    · cases suffix_nil.mp hsuffix
  refine ⟨hreach, mem_cons_self, data, hdata, ?_, ?_⟩
  · exact (listed_iff (p := toyProcessor) _ hstore hdata).mpr
      (.inl (by rw [hflashes]; exact mem_cons_self))
  · refine (acceptance_exact_iff hreach (by decide +kernel) mem_cons_self hslots hstore hdata).mpr
      ⟨fun f hf => ?_, fun tx htx => ?_, by decide +kernel⟩
    · rw [hflashes] at hf
      rw [mem_singleton.mp hf]
      exact hpays
    · rw [hmerged] at htx
      exact absurd htx not_mem_nil

/-- **A flash transaction of a merged block** is listed as accepted; its sender still has the 10 of
    the funding block. -/
theorem merged_flash_listed :
    Reach toyProcessor (fun _ _ _ => True) transferWorld ∧ transferChain ∈ transferWorld.chains ∧
      ∃ data,
      acceptances toyProcessor.coinbaseManager (forkStores [.ofNat 9]) transferChain = .ok data ∧
        (∃ d ∈ data, Listed (forkStores [.ofNat 9]) d (transfer toySignature)) ∧
        (ledger toyCrypto transferWorld.stores fundingHeader.accountCommitment toySender).balance =
          10 ∧
        ¬ Chain.Applied toyProcessor transferWorld.stores [fundingTip] (transfer toySignature) ∧
        ¬ ExactAcceptance toyProcessor transferWorld.stores (forkStores [.ofNat 9])
          [fundingTip] data := by
  have hnot : ¬ Chain.Applied toyProcessor transferWorld.stores [fundingTip]
      (transfer toySignature) := by
    intro h
    have hm := mem_flashes h
    exact absurd hm not_mem_nil
  obtain ⟨data, hdata⟩ : ∃ data, acceptances toyProcessor.coinbaseManager (forkStores [.ofNat 9])
      transferChain = .ok data := exists_ok_of_isOk (by decide +kernel)
  have hlisted : ∃ d ∈ data, Listed (forkStores [.ofNat 9]) d (transfer toySignature) :=
    (listed_iff (p := toyProcessor) (transfer toySignature) (by decide +kernel) hdata).mpr
      (.inr ⟨(transfer toySignature).toTransaction toyCrypto, by decide +kernel, by decide +kernel⟩)
  exact ⟨reach_transfer trivial trivial, mem_cons_self, data, hdata, hlisted,
    by decide +kernel, hnot, fun h => hnot ((h.applied _).mp hlisted)⟩

end Sahyadri.Pipeline
