import Sahyadri.Mining.Panics
import Sahyadri.Mining.Select

/-!
# `SequenceSelector`: rounds of selections and rejections

What a round has selected is removed from the input at the start of the next round, and the map by
which masses are given back on a rejection is made at the first rejection of a round.

* `sequence_selected`: nothing is selected twice, the mass is that of what was not rejected, and
  what is left does not fit, if the mass limit is below 2^64 - 1. `sequence_wraps`: with this limit
  the saturated sum passes the check, and the mass wraps.
-/

namespace Sahyadri.Mining

open Lib Smt Core Tx List Table

/-! ## 1. The selector -/

abbrev Indexed := UInt32 × SequenceSelectorTransaction

variable (l : List SequenceSelectorTransaction)

/-- The transactions with the indices of `from_iter`. -/
def indexed : List Indexed := l.zipIdx.map fun e => (UInt32.ofNat e.2, e.1)

def SequenceSelectorInput.fromIter : SequenceSelectorInput := .ofList (indexed l)

def SequenceSelectorInput.iter (input : SequenceSelectorInput) : List Indexed :=
  input.pairs.insertionSort fun a b => a.1 ≤ b.1

/-- `SequenceSelectorSelection` of a transaction. -/
def selectionOf (e : Indexed) : SequenceSelectorSelection := ⟨e.2.tx.id, e.2.mass, e.1⟩

namespace SequenceSelector

/-- One transaction in the loop of `select_transactions`. -/
def visit (acc : SequenceSelector × List Transaction) (e : Indexed) :
    SequenceSelector × List Transaction :=
  if satAdd acc.1.totalSelectedMass e.2.mass > acc.1.policy.maxBlockMass then acc
  else
    ({ acc.1 with
        totalSelectedMass := acc.1.totalSelectedMass + e.2.mass
        selectedVec := acc.1.selectedVec ++ [selectionOf e] }, acc.2 ++ [e.2.tx])

variable (s : SequenceSelector)

/-- The input without what was selected in the last round. -/
def remaining : SequenceSelectorInput :=
  s.selectedVec.foldl (fun input selection => input.erase selection.priorityIndex) s.inputSequence

def selectTransactions : SequenceSelector × List Transaction :=
  s.remaining.iter.foldl visit
    ({ s with inputSequence := s.remaining, selectedVec := [], selectedMap := none }, [])

/-- The map of masses; it is made when there is none. -/
def masses : Table TransactionId UInt64 :=
  s.selectedMap.getD (.ofList (s.selectedVec.map fun x => (x.txId, x.mass)))

def rejectSelection (txId : TransactionId) : Run Empty SequenceSelector :=
  match s.masses.lookup txId with
  | none => .panicked
  | some mass => .ok { s with
      selectedMap := some (s.masses.erase txId)
      totalSelectedMass := s.totalSelectedMass - mass
      overallRejections := s.overallRejections + 1 }

end SequenceSelector

/-- The states that rounds lead to, with what was returned and rejected. Only what the last round
    has returned is rejected, and only once. -/
inductive SequenceRounds (start : SequenceSelector) :
    List (List Transaction) → List TransactionId → SequenceSelector → Prop
  | start : SequenceRounds start [] [] start
  | select {rounds : List (List Transaction)} {rejected : List TransactionId}
      {s : SequenceSelector} : SequenceRounds start rounds rejected s →
        SequenceRounds start (rounds ++ [s.selectTransactions.2]) rejected s.selectTransactions.1
  | reject {rounds : List (List Transaction)} {txs : List Transaction}
      {rejected : List TransactionId} {s s' : SequenceSelector} {tx : Transaction} :
      SequenceRounds start (rounds ++ [txs]) rejected s → tx ∈ txs → tx.id ∉ rejected →
        s.rejectSelection tx.id = .ok s' →
      SequenceRounds start (rounds ++ [txs]) (tx.id :: rejected) s'

/-- The mass of what was returned and not rejected. -/
def keptMass (returned : List Transaction)
    (rejected : List TransactionId) : Nat :=
  ((l.filter fun t => t.tx.id ∈ returned.map (·.id) ∧ t.tx.id ∉ rejected).map (·.mass.toNat)).sum

/-! ## 2. The input -/

section Input

variable {l : List SequenceSelectorTransaction} {p : List Indexed}

theorem map_snd_indexed : (indexed l).map Prod.snd = l := by
  rw [indexed, map_map]
  exact zipIdx_map_fst 0 l

theorem indexed_sorted (hlen : l.length < 2 ^ 32) : (indexed l).Pairwise fun a b => a.1 < b.1 := by
  refine pairwise_map.mpr ?_
  have hidx : l.zipIdx.Pairwise fun a b => a.2 < b.2 := by
    refine pairwise_map.mp ?_
    rw [zipIdx_map_snd]
    exact pairwise_lt_range'
  refine hidx.imp_of_mem fun {a b} ha hb hab => UInt32.lt_iff_toNat_lt.mpr ?_
  have hlt : ∀ e ∈ l.zipIdx, e.2 < UInt32.size := fun e he =>
    (List.getElem?_eq_some_iff.mp (mem_zipIdx_iff_getElem?.mp he)).1.trans hlen
  rw [UInt32.toNat_ofNat_of_lt' (hlt a ha), UInt32.toNat_ofNat_of_lt' (hlt b hb)]
  exact hab

theorem keys_nodup_of_sorted (h : p.Pairwise fun a b => a.1 < b.1) : (p.map Prod.fst).Nodup :=
  pairwise_map.mpr (h.imp UInt32.ne_of_lt)

/-- The iteration of a map is the sorted list of what is in it. -/
theorem iter_eq (hp : p.Pairwise fun a b => a.1 < b.1) {input : SequenceSelectorInput}
    (h : ∀ e : Indexed, input.lookup e.1 = some e.2 ↔ e ∈ p) : input.iter = p := by
  have hperm : input.pairs.Perm p := by
    refine (perm_ext_iff_of_nodup ?_ (keys_nodup_of_sorted hp).of_map).mpr fun e =>
      mem_pairs.trans (h e)
    exact .of_map Prod.fst (by rw [map_fst_pairs]; exact input.keys_nodup)
  have hiter := (perm_insertionSort (fun a b : Indexed => a.1 ≤ b.1) input.pairs).trans hperm
  refine hiter.eq_of_pairwise (fun a b ha hb hab hba => ?_) (pairwise_insertionSort _ _)
    (hp.imp UInt32.le_of_lt)
  exact inj_on_of_nodup_map (keys_nodup_of_sorted hp) (hiter.mem_iff.mp ha) hb
    (UInt32.le_antisymm hab hba)

end Input

/-! ## 3. A round -/

/-- **The loop of a round** selects what fits when its turn comes, and what it leaves does not fit
    at the end. -/
theorem visits_spec : ∀ (p : List Indexed) (s : SequenceSelector) (txs : List Transaction),
    s.totalSelectedMass ≤ s.policy.maxBlockMass → s.policy.maxBlockMass.toNat + 1 < 2 ^ 64 →
      ∃ (sel : List Indexed) (s' : SequenceSelector),
        p.foldl SequenceSelector.visit (s, txs) = (s', txs ++ sel.map (·.2.tx)) ∧ sel.Sublist p ∧
        s' = { s with selectedVec :=
          s.selectedVec ++ sel.map selectionOf, totalSelectedMass := s'.totalSelectedMass } ∧
        s'.totalSelectedMass.toNat = s.totalSelectedMass.toNat + (sel.map (·.2.mass.toNat)).sum ∧
        s'.totalSelectedMass ≤ s.policy.maxBlockMass ∧
        ∀ e ∈ p, e ∉ sel → s.policy.maxBlockMass.toNat < s'.totalSelectedMass.toNat + e.2.mass.toNat
  | [], s, txs, hle, _ => ⟨[], s, by simp, .slnil, by simp, by simp, hle, by simp⟩
  | e :: p, s, txs, hle, hexact => by
    rw [foldl_cons]
    by_cases hfit : satAdd s.totalSelectedMass e.2.mass > s.policy.maxBlockMass
    · obtain ⟨sel, s', hrun, hsub, hs', htotal, hlimit, hmax⟩ := visits_spec p s txs hle hexact
      refine ⟨sel, s', ?_, hsub.cons _, hs', htotal, hlimit, fun x hx hnot => ?_⟩
      · rw [SequenceSelector.visit, if_pos hfit, hrun]
      · rcases mem_cons.mp hx with rfl | hx
        · have := UInt64.lt_iff_toNat_lt.mp hfit
          rw [toNat_satAdd] at this
          omega
        · exact hmax x hx hnot
    · have hsum :
          (s.totalSelectedMass + e.2.mass).toNat = s.totalSelectedMass.toNat + e.2.mass.toNat ∧
          s.totalSelectedMass.toNat + e.2.mass.toNat ≤ s.policy.maxBlockMass.toNat := by
        have h := UInt64.le_iff_toNat_le.mp (UInt64.not_lt.mp hfit)
        rw [toNat_satAdd] at h
        rw [UInt64.toNat_add, Nat.mod_eq_of_lt (by omega)]
        omega
      obtain ⟨sel, s', hrun, hsub, hs', htotal, hlimit, hmax⟩ := visits_spec p
        { s with
          totalSelectedMass := s.totalSelectedMass + e.2.mass
          selectedVec := s.selectedVec ++ [selectionOf e] } (txs ++ [e.2.tx])
        (UInt64.le_iff_toNat_le.mpr (hsum.1 ▸ hsum.2)) hexact
      refine ⟨e :: sel, s', ?_, hsub.cons_cons e, ?_, ?_, hlimit, fun x hx hnot => ?_⟩
      · rw [SequenceSelector.visit, if_neg hfit]
        rw [append_assoc] at hrun
        exact hrun
      · rw [hs']
        simp only [append_assoc]
        rfl
      · rw [htotal, hsum.1, map_cons, sum_cons]
        omega
      · rcases mem_cons.mp hx with rfl | hx
        · exact absurd mem_cons_self hnot
        · exact hmax x hx fun hin => hnot (mem_cons_of_mem _ hin)

/-! ## 4. Rounds -/

/-- The mass of the entries that are not rejected. -/
def massOf (p : List Indexed) (rejected : List TransactionId) : Nat :=
  ((p.filter (·.2.tx.id ∉ rejected)).map (·.2.mass.toNat)).sum

/-- Between two calls: `cur` are the entries that the last round has selected, `before` those of the
    rounds before it. -/
structure Between (l : List SequenceSelectorTransaction)
    (policy : Policy) (rounds : List (List Transaction))
    (rejected : List TransactionId) (before cur : List Indexed) (s : SequenceSelector) : Prop where
  same : s.policy = policy
  input : ∀ e : Indexed, s.inputSequence.lookup e.1 = some e.2 ↔ e ∈ indexed l ∧ e ∉ before
  vec : s.selectedVec = cur.map selectionOf
  returned : rounds.flatten = (before ++ cur).map (·.2.tx)
  last : rounds.getLastD [] = cur.map (·.2.tx)
  once : (before ++ cur).Nodup
  listed : ∀ e ∈ before ++ cur, e ∈ indexed l
  ordered : ∀ txs ∈ rounds, txs.Sublist (l.map (·.tx))
  rejections : ∀ id ∈ rejected, ∃ e ∈ before ++ cur, e.2.tx.id = id
  masses : ∀ id mass, s.masses.lookup id = some mass ↔
    (∃ e ∈ cur, e.2.tx.id = id ∧ e.2.mass = mass) ∧ id ∉ rejected
  total : s.totalSelectedMass.toNat = massOf (before ++ cur) rejected
  bounded : s.totalSelectedMass ≤ policy.maxBlockMass

section Rounds

variable {l : List SequenceSelectorTransaction} {policy : Policy} {rounds : List (List Transaction)}
  {rejected : List TransactionId} {before cur p : List Indexed} {s : SequenceSelector}

theorem between_new (hlen : l.length < 2 ^ 32) :
    Between l policy [] [] [] [] (.new (.fromIter l) policy) where
  same := rfl
  input e := by
    rw [and_iff_left not_mem_nil]
    exact lookup_ofList_iff (keys_nodup_of_sorted (indexed_sorted hlen))
  vec := rfl
  returned := rfl
  last := rfl
  once := nodup_nil
  listed := by simp
  ordered := by simp
  rejections := by simp
  masses := by simp [SequenceSelector.masses, SequenceSelector.new, ofList]
  total := rfl
  bounded := UInt64.zero_le

theorem eq_of_id_eq (hids : (l.map (·.tx.id)).Nodup) {a b : Indexed} (ha : a ∈ indexed l)
    (hb : b ∈ indexed l) (h : a.2.tx.id = b.2.tx.id) : a = b := by
  have hnodup : ((indexed l).map (·.2.tx.id)).Nodup := by
    have := map_snd_indexed (l := l) ▸ hids
    rwa [map_map] at this
  exact inj_on_of_nodup_map hnodup ha hb h

/-- A rejection takes one entry out of what is kept. -/
theorem massOf_reject (hids : (l.map (·.tx.id)).Nodup) (hp : p.Nodup)
    (hl : ∀ e ∈ p, e ∈ indexed l) {e : Indexed} (he : e ∈ p) (hnew : e.2.tx.id ∉ rejected) :
    massOf p rejected = massOf p (e.2.tx.id :: rejected) + e.2.mass.toNat := by
  have hperm : (p.filter (·.2.tx.id ∉ rejected)).Perm
      (e :: p.filter (·.2.tx.id ∉ e.2.tx.id :: rejected)) := by
    refine (perm_ext_iff_of_nodup (hp.filter _) (nodup_cons.mpr ⟨by simp, hp.filter _⟩)).mpr
      fun x => ?_
    have hx : x ∈ p → x.2.tx.id = e.2.tx.id → x = e :=
      fun hx => eq_of_id_eq hids (hl x hx) (hl e he)
    grind
  rw [massOf, (hperm.map _).sum_eq, map_cons, sum_cons, Nat.add_comm, massOf]

section

variable (h : Between l policy rounds rejected before cur s)

include h

/-- What is kept is the same for the input and for what was returned. -/
theorem Between.keptMass_eq (hids : (l.map (·.tx.id)).Nodup) :
    keptMass l rounds.flatten rejected = massOf (before ++ cur) rejected := by
  obtain ⟨q, hq⟩ : ∃ q : SequenceSelectorTransaction → Bool,
    q = fun t : SequenceSelectorTransaction =>
      decide (t.tx.id ∈ rounds.flatten.map (·.id) ∧ t.tx.id ∉ rejected) :=
    ⟨_, rfl⟩
  have hkept : l.filter q = ((indexed l).filter fun e => q e.2).map Prod.snd := by
    conv_lhs => rw [← map_snd_indexed (l := l), filter_map]
    rfl
  have hperm :
      ((indexed l).filter fun e => q e.2).Perm ((before ++ cur).filter (·.2.tx.id ∉ rejected)) := by
    have hnodup : (indexed l).Nodup := .of_map Prod.snd (by rw [map_snd_indexed]; exact hids.of_map)
    refine (perm_ext_iff_of_nodup (hnodup.filter _) (h.once.filter _)).mpr fun e => ?_
    simp only [mem_filter, hq, h.returned, map_map, decide_eq_true_eq, ← and_assoc]
    refine and_congr_left fun _ => ⟨fun he => ?_, fun he => ⟨h.listed e he, mem_map_of_mem he⟩⟩
    obtain ⟨x, hx, hid⟩ := mem_map.mp he.2
    exact eq_of_id_eq hids (h.listed x hx) he.1 hid ▸ hx
  rw [keptMass, ← hq, hkept, map_map]
  exact (hperm.map _).sum_eq

/-- At the start of a round the input is what was not returned. -/
theorem Between.iter_remaining (hlen : l.length < 2 ^ 32) :
    s.remaining.iter = (indexed l).filter (· ∉ before ++ cur) := by
  refine iter_eq ((indexed_sorted hlen).filter _) fun e => ?_
  rw [SequenceSelector.remaining, lookup_foldl_erase, Option.ite_none_left_eq_some, and_comm,
    h.input, h.vec, map_map, mem_filter, and_assoc]
  refine and_congr_right fun he => ?_
  rw [decide_eq_true_eq, mem_append, not_or]
  refine and_congr_right fun _ => not_congr ⟨fun hin => ?_, fun hin => mem_map_of_mem hin⟩
  obtain ⟨x, hx, hkey⟩ := mem_map.mp hin
  exact inj_on_of_nodup_map (keys_nodup_of_sorted (indexed_sorted hlen))
    (h.listed x (mem_append_right _ hx)) he hkey ▸ hx

/-- **A selection.** What is not returned by then does not fit. -/
theorem Between.select (hids : (l.map (·.tx.id)).Nodup) (hlen : l.length < 2 ^ 32)
    (hmax : policy.maxBlockMass.toNat + 1 < 2 ^ 64) : ∃ sel, Between l policy
      (rounds ++ [s.selectTransactions.2]) rejected (before ++ cur) sel s.selectTransactions.1 ∧
      ∀ e ∈ indexed l, e ∉ before ++ cur ++ sel → policy.maxBlockMass.toNat <
        s.selectTransactions.1.totalSelectedMass.toNat + e.2.mass.toNat := by
  obtain ⟨sel, s', hrun, hsub, hs', htotal, hlimit, hleft⟩ :=
    visits_spec ((indexed l).filter (· ∉ before ++ cur))
    { s with inputSequence := s.remaining, selectedVec := [], selectedMap := none } []
    (h.same ▸ h.bounded) (h.same ▸ hmax)
  have hselect : s.selectTransactions = (s', sel.map (·.2.tx)) := by
    rw [SequenceSelector.selectTransactions, h.iter_remaining hlen, hrun, nil_append]
  have hsel : ∀ e ∈ sel, e ∈ indexed l ∧ e ∉ before ++ cur :=
    fun e he => by simpa using hsub.subset he
  have hordered : (sel.map (·.2)).Sublist l := by
    have := (hsub.trans filter_sublist).map Prod.snd
    rwa [map_snd_indexed] at this
  have hselids : (sel.map (·.2.tx.id)).Nodup := by
    have := hids.sublist (hordered.map (·.tx.id))
    rwa [map_map] at this
  have hnew : ∀ e ∈ sel, e.2.tx.id ∉ rejected := by
    intro e he hrej
    obtain ⟨x, hx, hid⟩ := h.rejections _ hrej
    exact (hsel e he).2 (eq_of_id_eq hids (h.listed x hx) (hsel e he).1 hid ▸ hx)
  have hmasses : s'.masses = .ofList (sel.map fun e => (e.2.tx.id, e.2.mass)) := by
    rw [hs', SequenceSelector.masses]
    simp [selectionOf, Function.comp_def]
  rw [hselect]
  refine ⟨sel, ⟨?_, fun e => ?_, ?_, ?_, ?_, ?_, fun e he => ?_, fun txs htxs => ?_,
    fun id hid => ?_, fun id mass => ?_, ?_, h.same ▸ hlimit⟩, fun e he hnot => ?_⟩
  · rw [hs']
    exact h.same
  · rw [hs']
    have hmem : e ∈ s.remaining.pairs ↔ e ∈ s.remaining.iter :=
      (perm_insertionSort _ _).mem_iff.symm
    refine mem_pairs.symm.trans (hmem.trans ?_)
    rw [h.iter_remaining hlen, mem_filter, decide_eq_true_eq]
  · rw [hs']
    exact nil_append _
  · rw [flatten_append, h.returned, flatten_singleton, ← map_append]
  · simp
  · exact nodup_append'.mpr ⟨h.once, hselids.of_map, fun e he hin => (hsel e hin).2 he⟩
  · exact (mem_append.mp he).elim (h.listed e) fun he => (hsel e he).1
  · rcases mem_append.mp htxs with htxs | htxs
    · exact h.ordered txs htxs
    · rw [mem_singleton.mp htxs]
      have := hordered.map (·.tx)
      rwa [map_map] at this
  · obtain ⟨e, he, hid⟩ := h.rejections id hid
    exact ⟨e, mem_append_left _ he, hid⟩
  · rw [hmasses, lookup_ofList_iff (by rwa [map_map]), mem_map]
    constructor
    · intro ⟨e, he, hpair⟩
      cases hpair
      exact ⟨⟨e, he, rfl, rfl⟩, hnew e he⟩
    · intro ⟨⟨e, he, hid, hm⟩, _⟩
      exact ⟨e, he, Prod.ext hid hm⟩
  · have hkept : sel.filter (·.2.tx.id ∉ rejected) = sel := filter_eq_self.mpr (by simpa using hnew)
    rw [htotal, massOf, filter_append, map_append, sum_append, hkept]
    exact congrArg (· + _) h.total
  · rw [mem_append, not_or] at hnot
    rw [← h.same]
    exact hleft e (mem_filter.mpr ⟨he, by simpa using hnot.1⟩) hnot.2

/-- **A rejection** is possible for what the last round has returned, and gives its mass back. -/
theorem Between.reject (hids : (l.map (·.tx.id)).Nodup) {e : Indexed}
    (he : e ∈ cur) (hnew : e.2.tx.id ∉ rejected) : ∃ s', s.rejectSelection e.2.tx.id = .ok s' ∧
      s'.totalSelectedMass.toNat + e.2.mass.toNat = s.totalSelectedMass.toNat ∧
      Between l policy rounds (e.2.tx.id :: rejected) before cur s' := by
  have hin := mem_append_right before he
  have hkept := h.total.trans (massOf_reject hids h.once h.listed hin hnew)
  have hsub : (s.totalSelectedMass - e.2.mass).toNat =
      massOf (before ++ cur) (e.2.tx.id :: rejected) := by
    rw [UInt64.toNat_sub_of_le _ _ (UInt64.le_iff_toNat_le.mpr (by omega)), hkept,
      Nat.add_sub_cancel]
  refine ⟨_, by
    rw [SequenceSelector.rejectSelection, (h.masses _ _).mpr ⟨⟨e, he, rfl, rfl⟩, hnew⟩], ?_, ?_⟩
  · exact (congrArg (· + _) hsub).trans hkept.symm
  refine { h with rejections := ?_, masses := fun id mass => ?_, total := hsub, bounded := ?_ }
  · exact forall_mem_cons.mpr ⟨⟨e, hin, rfl⟩, h.rejections⟩
  · show (s.masses.erase e.2.tx.id).lookup id = some mass ↔ _
    rw [lookup_erase_eq_some, h.masses, mem_cons, not_or]
    exact ⟨fun hm => ⟨hm.2.1, hm.1, hm.2.2⟩, fun hm => ⟨hm.2.1, hm.1, hm.2.2⟩⟩
  · have hb := UInt64.le_iff_toNat_le.mp h.bounded
    exact UInt64.le_iff_toNat_le.mpr (hsub ▸ by omega)

end

/-- **Rounds of a `SequenceSelector`**, with any rejections. -/
theorem sequence_selected (hids : (l.map (·.tx.id)).Nodup) (hlen : l.length < 2 ^ 32)
    (hmax : policy.maxBlockMass.toNat + 1 < 2 ^ 64)
    (h : SequenceRounds (.new (.fromIter l) policy) rounds rejected s) :
    (rounds.flatten.map (·.id)).Nodup ∧ (∀ txs ∈ rounds, txs.Sublist (l.map (·.tx))) ∧
      s.totalSelectedMass.toNat = keptMass l rounds.flatten rejected ∧
      s.totalSelectedMass ≤ policy.maxBlockMass ∧
      (∀ t ∈ l, t.tx.id ∉ (rounds ++ [s.selectTransactions.2]).flatten.map (·.id) →
        policy.maxBlockMass.toNat < s.selectTransactions.1.totalSelectedMass.toNat + t.mass.toNat) ∧
      ∀ tx ∈ rounds.getLastD [], tx.id ∉ rejected → ∃ t ∈ l, t.tx = tx ∧
      ∃ s', s.rejectSelection tx.id = .ok s' ∧
        s'.totalSelectedMass.toNat + t.mass.toNat = s.totalSelectedMass.toNat := by
  have hsnd : ∀ e ∈ indexed l, e.2 ∈ l := fun e he => map_snd_indexed (l := l) ▸ mem_map_of_mem he
  obtain ⟨before, cur, hb⟩ : ∃ before cur, Between l policy rounds rejected before cur s := by
    induction h with
    | start => exact ⟨[], [], between_new hlen⟩
    | select _ ih =>
      obtain ⟨before, cur, hb⟩ := ih
      obtain ⟨sel, hb', -⟩ := hb.select hids hlen hmax
      exact ⟨_, sel, hb'⟩
    | reject _ htx hnew hrun ih =>
      obtain ⟨before, cur, hb⟩ := ih
      have hlast := hb.last
      rw [getLastD_concat] at hlast
      rw [hlast] at htx
      obtain ⟨e, he, rfl⟩ := mem_map.mp htx
      obtain ⟨s', hs', -, hb'⟩ := hb.reject hids he hnew
      cases hs'.symm.trans hrun
      exact ⟨before, cur, hb'⟩
  refine ⟨?_, hb.ordered, hb.total.trans (hb.keptMass_eq hids).symm, hb.bounded,
    fun t ht hnot => ?_, fun tx htx hnew => ?_⟩
  · rw [hb.returned, map_map]
    exact hb.once.map_on fun a ha b hb' => eq_of_id_eq hids (hb.listed a ha) (hb.listed b hb')
  · obtain ⟨sel, hb', hleft⟩ := hb.select hids hlen hmax
    obtain ⟨e, he, rfl⟩ := mem_map.mp ((map_snd_indexed (l := l)).symm ▸ ht)
    refine hleft e he fun hin => hnot ?_
    rw [hb'.returned, map_map]
    exact mem_map_of_mem hin
  · rw [hb.last] at htx
    obtain ⟨e, he, rfl⟩ := mem_map.mp htx
    obtain ⟨s', hs', hmass, -⟩ := hb.reject hids he hnew
    exact ⟨e.2, hsnd e (hb.listed e (mem_append_right _ he)), rfl, s', hs', hmass⟩

end Rounds

def twoInputs (a b : UInt64) : List SequenceSelectorTransaction :=
  [⟨didOperation 0, a⟩, ⟨didOperation 1, b⟩]

theorem rounds_one (a b limit : UInt64) (txs : List Transaction)
    (h : (SequenceSelector.new (.fromIter (twoInputs a b)) ⟨limit⟩).selectTransactions.2 = txs) :
    SequenceRounds (.new (.fromIter (twoInputs a b)) ⟨limit⟩) [txs] []
      (SequenceSelector.new (.fromIter (twoInputs a b)) ⟨limit⟩).selectTransactions.1 :=
  h ▸ .select .start

/-- Only the first of two fits; when it is rejected, the second one does. -/
theorem sequence_selected_second : ∃ s, SequenceRounds (.new (.fromIter (twoInputs 600 500)) ⟨1000⟩)
    [[didOperation 0], [didOperation 1]] [(didOperation 0).id] s ∧
    s.totalSelectedMass.toNat = 500 := by
  have h₁ := rounds_one 600 500 1000 [didOperation 0] (by decide)
  obtain ⟨-, -, -, -, -, hreject⟩ := sequence_selected (by decide) (by decide) (by decide) h₁
  obtain ⟨_, -, -, s₁, hs₁, -⟩ := hreject (didOperation 0) mem_cons_self not_mem_nil
  have hnext : (·.selectTransactions.2) <$> (SequenceSelector.new (.fromIter (twoInputs 600 500))
      ⟨1000⟩).selectTransactions.1.rejectSelection (didOperation 0).id = .ok [didOperation 1] := by
    decide
  rw [hs₁] at hnext
  have h₂ := (@SequenceRounds.reject _ [] _ _ _ _ _ h₁ mem_cons_self not_mem_nil hs₁).select
  rw [show s₁.selectTransactions.2 = [didOperation 1] from Except.ok.inj hnext] at h₂
  obtain ⟨-, -, htotal, -⟩ := sequence_selected (by decide) (by decide) (by decide) h₂
  exact ⟨_, h₂, htotal.trans (by decide)⟩

/-- **A mass that wraps.** The limit is the greatest number of 64 bits, and two transactions of mass
    2^63 are both selected. -/
theorem sequence_wraps : ∃ s, SequenceRounds
    (.new (.fromIter (twoInputs 9223372036854775808 9223372036854775808)) ⟨18446744073709551615⟩)
    [[didOperation 0, didOperation 1]] [] s ∧ s.totalSelectedMass = 0 :=
  ⟨_, rounds_one _ _ _ _ (by decide), by decide⟩

end Sahyadri.Mining
