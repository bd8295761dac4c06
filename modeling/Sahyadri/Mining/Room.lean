import Sahyadri.Mining.Sound

/-!
# `limit_transaction_count`: which transactions make room for a new one

* `candidates`: the ready transactions of low priority that are not among the ancestors of the new
  one, from the lowest weight up.
-/

namespace Sahyadri.Mining

open Lib Smt Core Tx List Table

namespace TransactionsPool

/-! ## 1. What the loop looks at -/

variable (n : Node) (s : TransactionsPool) (t : MutableTransaction)

/-- A pooled transaction that may be evicted for `t`. -/
def Evictable (x : MempoolTransaction) : Prop :=
  x.priority = .low ∧ t.hasParentInSet (s.redeemerIds n x.id ++ [x.id]) = false

instance (s : TransactionsPool) (t : MutableTransaction) (x : MempoolTransaction) :
    Decidable (Evictable n s t x) := inferInstanceAs (Decidable (_ ∧ _))

def candidatesAmong (keys : List FeerateTransactionKey) :
    List MempoolTransaction :=
  (keys.filterMap fun key => s.allTransactions.lookup key.tx.id).filter fun x => Evictable n s t x

/-- The transactions that may be evicted, from the lowest weight up. -/
def candidates : List MempoolTransaction :=
  candidatesAmong n s t s.readyTransactions.searchTree

/-- Without the transactions `out` there is room. -/
def MakesRoom (size : Nat) (out : List MempoolTransaction) : Prop :=
  s.len + 1 - out.length ≤ n.config.maximumTransactionCount ∧
    s.estimatedSize + size - (out.map (bytes n)).sum ≤ n.config.mempoolSizeLimit

instance (s : TransactionsPool) (size : Nat) (out : List MempoolTransaction) :
    Decidable (MakesRoom n s size out) := inferInstanceAs (Decidable (_ ∧ _))

/-- A transaction with a fee rate that does not exceed the threshold. -/
def Cheap (threshold : Feerate) (x : MempoolTransaction) : Prop :=
  ∃ feerate, x.mtx.calculatedFeerate = some feerate ∧ n.floats.gt feerate threshold = false

/-- The pool can take `t` in. -/
def Fits : Prop :=
  if s.hasRoom n (n.mempoolEstimatedBytes t) then isAccountModel t.tx = true
  else ∃ threshold, t.calculatedFeerate = some threshold ∧
    ∀ pre x post, candidates n s t = pre ++ x :: post → (∀ y ∈ pre, Cheap n threshold y) →
      ¬ MakesRoom n s (n.mempoolEstimatedBytes t) pre → x.mtx.calculatedFeerate ≠ none

def choose (s : TransactionsPool) (size : Nat) (threshold : Feerate) :
    List MempoolTransaction → List MempoolTransaction → Run RuleError (List MempoolTransaction)
  | [], _ => .fail .rejectMempoolIsFull
  | x :: rest, out =>
    match x.mtx.calculatedFeerate with
    | none => .panicked
    | some feerate =>
      if n.floats.gt feerate threshold then .fail .rejectMempoolIsFull
      else if MakesRoom n s size (out ++ [x]) then .ok (out ++ [x])
      else choose s size threshold rest (out ++ [x])

variable {n} {s s' : TransactionsPool} {t : MutableTransaction} {size : Nat} {threshold : Feerate}

theorem hasRoom_iff : s.hasRoom n size ↔ MakesRoom n s size [] := by
  unfold hasRoom MakesRoom
  rw [length_nil, map_nil, sum_nil, Nat.sub_zero, Nat.sub_zero, Nat.succ_le_iff]

theorem MakesRoom.append {out : List MempoolTransaction} (h : MakesRoom n s size out)
    (more : List MempoolTransaction) : MakesRoom n s size (out ++ more) := by
  obtain ⟨hlen, hsize⟩ := h
  unfold MakesRoom
  rw [length_append, map_append, sum_append]
  constructor <;> omega

/-! ## 2. The loop -/

theorem candidatesAmong_cons {key : FeerateTransactionKey} {keys : List FeerateTransactionKey}
    {x : MempoolTransaction} (hx : s.allTransactions.lookup key.tx.id = some x) :
    candidatesAmong n s t (key :: keys) = if Evictable n s t x then x :: candidatesAmong n s t keys
      else candidatesAmong n s t keys := by
  have hcons : (key :: keys).filterMap (fun key => s.allTransactions.lookup key.tx.id) =
      x :: keys.filterMap fun key => s.allTransactions.lookup key.tx.id := filterMap_cons_some hx
  unfold candidatesAmong
  rw [hcons, filter_cons]
  simp only [decide_eq_true_eq]

/-- The keys of the frontier lead to pooled transactions, and the loop goes over the candidates. -/
theorem selectEvictions_eq : ∀ {keys : List FeerateTransactionKey} {out : List MempoolTransaction},
    (∀ key ∈ keys, ∃ x, s.allTransactions.lookup key.tx.id = some x) →
      selectEvictions n s t size threshold keys (out.map MempoolTransaction.id)
        (out.map (bytes n)).sum = (choose n s size threshold (candidatesAmong n s t keys) out).map
          (List.map MempoolTransaction.id)
  | [], _, _ => rfl
  | key :: keys, out, h => by
    obtain ⟨x, hx⟩ := h key mem_cons_self
    have hrest := fun out => @selectEvictions_eq keys out fun k hk => h k (mem_cons_of_mem _ hk)
    unfold selectEvictions
    rw [hx, candidatesAmong_cons hx]
    by_cases hev : Evictable n s t x
    · have hgo :
          ¬ (x.priority ≠ .low ∨ t.hasParentInSet (s.redeemerIds n x.id ++ [x.id]) = true) := by
        rintro (hp | hp)
        · exact hp hev.1
        · rw [hev.2] at hp
          cases hp
      have hids : out.map MempoolTransaction.id ++ [x.id] =
          (out ++ [x]).map MempoolTransaction.id := by
        rw [map_append, map_singleton]
      have hsum : (out.map (bytes n)).sum + n.mempoolEstimatedBytes x.mtx =
          ((out ++ [x]).map (bytes n)).sum := by
        rw [map_append, sum_append]
        rfl
      rw [if_pos hev]
      dsimp only
      rw [if_neg hgo, choose]
      cases x.mtx.calculatedFeerate with
      | none => rfl
      | some feerate =>
        dsimp only
        split
        · rfl
        · rw [hids, hsum, length_map]
          by_cases hroom : MakesRoom n s size (out ++ [x])
          · rw [if_pos hroom]
            exact if_pos hroom
          · rw [if_neg hroom]
            exact (if_neg hroom).trans (hrest (out ++ [x]))
    · have hskip : x.priority ≠ .low ∨
          t.hasParentInSet (s.redeemerIds n x.id ++ [x.id]) = true := by
        by_contra hn
        obtain ⟨hp, hpar⟩ := not_or.mp hn
        exact hev ⟨not_not.mp hp, Bool.eq_false_iff.mpr hpar⟩
      rw [if_neg hev]
      dsimp only
      rw [if_pos hskip]
      exact hrest out

/-- **The loop panics exactly at a transaction without a fee rate**: those before it are cheap and
    do not make room. -/
theorem choose_panics_iff : ∀ {cs out : List MempoolTransaction}, ¬ MakesRoom n s size out →
    (choose n s size threshold cs out = .panicked ↔
      ∃ pre x post, cs = pre ++ x :: post ∧ (∀ y ∈ pre, Cheap n threshold y) ∧
        ¬ MakesRoom n s size (out ++ pre) ∧ x.mtx.calculatedFeerate = none)
  | [], _, _ => by
    refine iff_of_false (by simp [choose]) ?_
    rintro ⟨pre, x, post, he, _⟩
    exact absurd he.symm (by simp)
  | c :: cs, out, hout => by
    unfold choose
    cases hc : c.mtx.calculatedFeerate with
    | none =>
      refine iff_of_true rfl ⟨[], c, cs, rfl, forall_mem_nil _, ?_, hc⟩
      rwa [append_nil]
    | some feerate =>
      -- a panic lies behind this transaction, which is then cheap
      have hsplit : (∃ pre x post, c :: cs = pre ++ x :: post ∧ (∀ y ∈ pre, Cheap n threshold y) ∧
          ¬ MakesRoom n s size (out ++ pre) ∧ x.mtx.calculatedFeerate = none) ↔
          n.floats.gt feerate threshold = false ∧ ∃ pre x post, cs = pre ++ x :: post ∧
            (∀ y ∈ pre, Cheap n threshold y) ∧ ¬ MakesRoom n s size (out ++ [c] ++ pre) ∧
            x.mtx.calculatedFeerate = none := by
        constructor
        · rintro ⟨pre, x, post, he, hcheap, hroom, hx⟩
          cases pre with
          | nil =>
            cases he
            cases hc.symm.trans hx
          | cons y pre =>
            cases he
            obtain ⟨r, hr, hgt⟩ := hcheap c mem_cons_self
            cases hc.symm.trans hr
            refine ⟨hgt, pre, x, post, rfl, fun y hy => hcheap y (mem_cons_of_mem _ hy), ?_, hx⟩
            rwa [append_assoc, singleton_append]
        · rintro ⟨hgt, pre, x, post, rfl, hcheap, hroom, hx⟩
          refine ⟨c :: pre, x, post, rfl, fun y hy => ?_, ?_, hx⟩
          · rcases mem_cons.mp hy with rfl | hy
            · exact ⟨feerate, hc, hgt⟩
            · exact hcheap y hy
          · rwa [append_assoc, singleton_append] at hroom
      dsimp only
      rw [hsplit]
      by_cases hgt : n.floats.gt feerate threshold = true
      · rw [if_pos hgt]
        refine iff_of_false (by simp) fun hn => ?_
        rw [hgt] at hn
        exact absurd hn.1 (by simp)
      · rw [if_neg hgt]
        by_cases hroom : MakesRoom n s size (out ++ [c])
        · rw [if_pos hroom]
          refine iff_of_false (by simp) ?_
          rintro ⟨_, pre, _, _, _, _, hno, _⟩
          exact hno (hroom.append pre)
        · rw [if_neg hroom, choose_panics_iff hroom]
          exact ⟨fun h => ⟨Bool.eq_false_iff.mpr hgt, h⟩, fun h => h.2⟩

theorem choose_ok :
    ∀ {cs out r : List MempoolTransaction}, choose n s size threshold cs out = .ok r →
    MakesRoom n s size r ∧ ∃ pre, r = out ++ pre ∧ pre.Sublist cs
  | [], _, _, h => by cases h
  | c :: cs, out, r, h => by
    unfold choose at h
    cases hc : c.mtx.calculatedFeerate with
    | none =>
      rw [hc] at h
      cases h
    | some feerate =>
      rw [hc] at h
      dsimp only at h
      split at h
      · cases h
      · split at h
        · rename_i hroom
          cases h
          exact ⟨hroom, [c], rfl, (nil_sublist cs).cons_cons c⟩
        · obtain ⟨hroom, pre, rfl, hsub⟩ := choose_ok h
          exact ⟨hroom, c :: pre, by rw [append_assoc, singleton_append], hsub.cons_cons c⟩

/-! ## 3. `limit_transaction_count` -/

section

variable (h : Sound n s)

include h

theorem Sound.limitTransactionCount_eq (hroom : ¬ s.hasRoom n size)
    (ht : t.calculatedFeerate = some threshold) : s.limitTransactionCount n t size =
      (choose n s size threshold (candidates n s t) []).map (List.map MempoolTransaction.id) := by
  unfold limitTransactionCount
  rw [if_neg hroom, ht]
  refine @selectEvictions_eq n s t size threshold _ [] fun key hkey => ?_
  obtain ⟨x, hx, _⟩ := h.ready hkey
  exact ⟨x, hx⟩

/-- **The search for room panics exactly where the pool is full and a fee rate is missing.** -/
theorem Sound.limitTransactionCount_panics_iff :
    s.limitTransactionCount n t (n.mempoolEstimatedBytes t) = .panicked ↔
      ¬ s.hasRoom n (n.mempoolEstimatedBytes t) ∧ ¬ Fits n s t := by
  unfold Fits
  by_cases hroom : s.hasRoom n (n.mempoolEstimatedBytes t)
  · refine iff_of_false ?_ fun hn => hn.1 hroom
    unfold limitTransactionCount
    rw [if_pos hroom]
    simp
  · rw [if_neg hroom]
    cases ht : t.calculatedFeerate with
    | none =>
      refine iff_of_true ?_ ⟨hroom, ?_⟩
      · unfold limitTransactionCount
        rw [if_neg hroom, ht]
      · rintro ⟨threshold, he, _⟩
        cases he
    | some threshold =>
      have hpanics :=
        @choose_panics_iff n s (n.mempoolEstimatedBytes t) threshold (candidates n s t) []
        (hasRoom_iff.not.mp hroom)
      rw [h.limitTransactionCount_eq hroom ht]
      have hmap : ∀ r : Run RuleError (List MempoolTransaction),
          r.map (map MempoolTransaction.id) = Run.panicked ↔ r = Run.panicked := by
        rintro (e | l)
        · exact ⟨fun he => by cases he; rfl, fun he => by cases he; rfl⟩
        · exact iff_of_false (by simp [Except.map]) (by simp)
      rw [hmap, hpanics]
      constructor
      · rintro ⟨pre, x, post, hc, hcheap, hno, hx⟩
        refine ⟨hroom, ?_⟩
        rintro ⟨threshold', he, hall⟩
        cases he
        exact hall pre x post hc hcheap hno hx
      · rintro ⟨_, hnot⟩
        by_contra hn
        refine hnot ⟨threshold, rfl, fun pre x post hc hcheap hno hx => hn ?_⟩
        exact ⟨pre, x, post, hc, hcheap, hno, hx⟩

theorem Sound.ready_ids_nodup : (s.readyTransactions.searchTree.map fun k => k.tx.id).Nodup := by
  refine List.Nodup.map_on (fun k hk k' hk' he => ?_) h.ready_nodup
  obtain ⟨x, hx, hkx⟩ := h.ready hk
  obtain ⟨x', hx', hkx'⟩ := h.ready hk'
  rw [← he, hx] at hx'
  rw [hkx, hkx', Option.some.inj hx']

theorem Sound.candidates_pooled :
    ((candidates n s t).map MempoolTransaction.id).Nodup ∧
      ∀ x ∈ candidates n s t, s.allTransactions.lookup x.id = some x := by
  have hmem : ∀ x ∈ candidates n s t, s.allTransactions.lookup x.id = some x := by
    intro x hx
    obtain ⟨key, _, hkey⟩ := mem_filterMap.mp (mem_filter.mp hx).1
    rw [h.keyed hkey]
    exact hkey
  refine ⟨List.Nodup.sublist ?_ h.ready_ids_nodup, hmem⟩
  have hids : ∀ {keys : List FeerateTransactionKey},
      ((keys.filterMap fun key => s.allTransactions.lookup key.tx.id).map
        MempoolTransaction.id).Sublist (keys.map fun k => k.tx.id) := by
    intro keys
    induction keys with
    | nil => exact nil_sublist _
    | cons key keys ih =>
      cases hl : s.allTransactions.lookup key.tx.id with
      | none =>
        have hcons : (key :: keys).filterMap (fun key => s.allTransactions.lookup key.tx.id) =
            keys.filterMap fun key => s.allTransactions.lookup key.tx.id := filterMap_cons_none hl
        rw [hcons]
        exact ih.cons _
      | some x =>
        have hcons : (key :: keys).filterMap (fun key => s.allTransactions.lookup key.tx.id) =
            x :: keys.filterMap fun key => s.allTransactions.lookup key.tx.id :=
          filterMap_cons_some hl
        rw [hcons, map_cons, map_cons, h.keyed hl]
        exact ih.cons_cons _
  exact ((filter_sublist).map _).trans hids

/-- **Where the search for room succeeds, removing what it has found makes room.** -/
theorem Sound.limitTransactionCount_ok {ids : List TransactionId}
    (hl : s.limitTransactionCount n t size = .ok ids) :
    (s.hasRoom n size ∧ ids = []) ∨ t.calculatedFeerate.isSome ∧ ¬ s.hasRoom n size ∧
      ∀ s', (∀ x y, s'.allTransactions.lookup x = some y → s.allTransactions.lookup x = some y) →
        Sound n s' → (∀ x ∈ ids, x ∉ s'.allTransactions) → s'.hasRoom n size := by
  by_cases hroom : s.hasRoom n size
  · left
    unfold limitTransactionCount at hl
    rw [if_pos hroom] at hl
    cases hl
    exact ⟨hroom, rfl⟩
  · right
    cases ht : t.calculatedFeerate with
    | none =>
      unfold limitTransactionCount at hl
      rw [if_neg hroom, ht] at hl
      cases hl
    | some threshold =>
      refine ⟨rfl, hroom, fun s' hsub hs' hgone => ?_⟩
      rw [h.limitTransactionCount_eq hroom ht] at hl
      cases hc : choose n s size threshold (candidates n s t) [] with
      | error e =>
        rw [hc] at hl
        cases hl
      | ok r =>
        rw [hc] at hl
        cases hl
        obtain ⟨⟨hlen, hsize⟩, pre, hr, hpre⟩ := choose_ok hc
        subst hr
        obtain ⟨hnd, hmem⟩ := @Sound.candidates_pooled n s t h
        have hout : ∀ f : MempoolTransaction → Nat,
            s'.allTransactions.total f + (r.map f).sum ≤ s.allTransactions.total f := fun f => by
          have hadd := @total_add_le _ _ _ s'.allTransactions f
            (r.map fun x => (x.id, x)) s.allTransactions ?_ ?_ hsub
          · rwa [map_map] at hadd
          · rw [map_map]
            exact hnd.sublist (hpre.map _)
          · intro e he
            obtain ⟨x, hx, rfl⟩ := mem_map.mp he
            exact ⟨hmem x (hpre.subset hx), hgone x.id (mem_map_of_mem hx)⟩
        have hone := hout fun _ => 1
        have hbytes := hout (bytes n)
        rw [← length_eq_total, ← length_eq_total, map_const', sum_replicate_nat, mul_one] at hone
        rw [← h.size, ← hs'.size] at hbytes
        unfold len at hlen
        exact ⟨by unfold len; omega, by omega⟩

end

/-! ## 4. A pool from which transactions were removed -/

/-- The pool without the transactions `gone`, as far as `Fits` looks at it. -/
def without (n : Node) (gone : List TransactionId) (s : TransactionsPool) : TransactionsPool :=
  let all := gone.foldl (fun all id => all.erase id) s.allTransactions
  { s with
    allTransactions := all
    readyTransactions := { s.readyTransactions with
      searchTree := s.readyTransactions.searchTree.filter fun k => k.tx.id ∉ gone }
    estimatedSize := all.total (bytes n) }

theorem lookup_without : ∀ {gone : List TransactionId} {all : MempoolTransactionCollection}
    {x : TransactionId}, (gone.foldl (fun all id => all.erase id) all).lookup x =
      if x ∈ gone then none else all.lookup x
  | [], _, _ => rfl
  | id :: gone, all, x => by
    rw [foldl_cons, lookup_without]
    by_cases hx : x = id
    · subst hx
      rw [AList.lookup_erase, if_pos mem_cons_self, ite_self]
    · simp [hx]

section Drop

variable {gone : List TransactionId} (h : Drop gone s s') (hs : Sound n s) (hs' : Sound n s')
  (hclosed : ∀ x ∈ gone, ∀ y ∈ s.chainedTo x, y ∈ gone)

include h

theorem Drop.lookup_eq (x : TransactionId) :
    s'.allTransactions.lookup x = (s.without n gone).allTransactions.lookup x :=
  (h.lookup x).trans lookup_without.symm

theorem Drop.len_eq : s'.len = (s.without n gone).len := by
  unfold len
  rw [length_eq_total, length_eq_total]
  exact total_congr h.lookup_eq

include hs'

theorem Drop.size_eq : s'.estimatedSize = (s.without n gone).estimatedSize := by
  rw [hs'.size]
  exact total_congr fun x => h.lookup_eq (n := n) x

theorem Drop.hasRoom_iff : s'.hasRoom n size ↔ (s.without n gone).hasRoom n size := by
  unfold hasRoom
  rw [h.len_eq, h.size_eq hs']

theorem Drop.makesRoom_iff {out : List MempoolTransaction} :
    MakesRoom n s' size out ↔ MakesRoom n (s.without n gone) size out := by
  unfold MakesRoom
  rw [h.len_eq, h.size_eq hs']

include hclosed in
theorem Drop.ready_eq :
    s'.readyTransactions.searchTree = (s.without n gone).readyTransactions.searchTree := by
  have hkept :=
    @Drop.kept _ _ _ h (fun x => decide (x ∉ gone)) (fun x hx => decide_eq_false (not_not.mpr hx))
    fun x hx y hy _ => decide_eq_false (not_not.mpr (hclosed x hx y hy))
  refine Eq.trans ?_ hkept
  refine (filter_eq_self.mpr fun k hk => ?_).symm
  obtain ⟨t, ht, _⟩ := hs'.ready hk
  exact decide_eq_true (h.lookup_some.mp ht).1

include hs

theorem Drop.mem_redeemerIds {x y : TransactionId} (hx : x ∈ s'.allTransactions) :
    y ∈ s'.redeemerIds n x ↔ y ∈ (s.without n gone).redeemerIds n x := by
  have hx' : x ∈ (s.without n gone).allTransactions := by
    rw [← AList.lookup_isSome, ← h.lookup_eq]
    exact AList.lookup_isSome.mpr hx
  have hout : x ∉ gone := (h.mem_iff.mp hx).2
  have hstep : ∀ {u v}, u ∉ gone → (Chained n.iter s'.allTransactions s'.chainedTransactions u v ↔
        Chained n.iter (s.without n gone).allTransactions s.chainedTransactions u v) := by
    intro u v hu
    rw [hs'.chained_iff, h.chained]
    refine ⟨fun hv => ⟨mem_redeemersOf.mpr hv.1, decide_eq_false (not_not.mpr ?_)⟩, fun hv => ?_⟩
    · rw [← AList.lookup_isSome, ← h.lookup_eq, AList.lookup_isSome]
      exact h.mem_iff.mpr ⟨hs.child_of_mem (hs.linked hv.1).2, hv.2.2⟩
    · have hm := not_not.mp (of_decide_eq_false hv.2)
      rw [← AList.lookup_isSome, ← h.lookup_eq, AList.lookup_isSome] at hm
      exact ⟨mem_redeemersOf.mp hv.1, hu, (h.mem_iff.mp hm).2⟩
  refine ((getRedeemerIdsInPool_spec hx).2.2 y).trans
    (Iff.trans ?_ ((getRedeemerIdsInPool_spec hx').2.2 y).symm)
  -- a path leaves what is left on no step, so that it is a path of both pools
  have hboth : ∀ {y}, Relation.TransGen
      (Chained n.iter s'.allTransactions s'.chainedTransactions) x y → y ∉ gone ∧ Relation.TransGen
        (Chained n.iter (s.without n gone).allTransactions s.chainedTransactions) x y := by
    intro y hy
    induction hy with
    | single hc => exact ⟨(h.chained.mp (hs'.chained_iff.mp hc)).2.2, .single ((hstep hout).mp hc)⟩
    | tail _ hc ih =>
      exact ⟨(h.chained.mp (hs'.chained_iff.mp hc)).2.2, ih.2.tail ((hstep ih.1).mp hc)⟩
  have hback : ∀ {y}, Relation.TransGen
      (Chained n.iter (s.without n gone).allTransactions s.chainedTransactions) x y → y ∉ gone ∧
      Relation.TransGen (Chained n.iter s'.allTransactions s'.chainedTransactions) x y := by
    intro y hy
    induction hy with
    | single hc =>
      have hc' := (hstep hout).mpr hc
      exact ⟨(h.chained.mp (hs'.chained_iff.mp hc')).2.2, .single hc'⟩
    | tail _ hc ih =>
      have hc' := (hstep ih.1).mpr hc
      exact ⟨(h.chained.mp (hs'.chained_iff.mp hc')).2.2, ih.2.tail hc'⟩
  exact ⟨fun hy => (hboth hy).2, fun hy => (hback hy).2⟩

theorem Drop.evictable_iff {x : MempoolTransaction} (hx : x.id ∈ s'.allTransactions) :
    Evictable n s' t x ↔ Evictable n (s.without n gone) t x := by
  have hpar : t.hasParentInSet (s'.redeemerIds n x.id ++ [x.id]) =
      t.hasParentInSet ((s.without n gone).redeemerIds n x.id ++ [x.id]) := by
    unfold MutableTransaction.hasParentInSet
    refine congrArg _ (funext fun input => decide_eq_decide.mpr ?_)
    rw [mem_append, mem_append]
    exact or_congr_left (h.mem_redeemerIds hs hs' hx)
  unfold Evictable
  rw [hpar]

include hclosed in
theorem Drop.candidates_eq : candidates n s' t = candidates n (s.without n gone) t := by
  have hlookup : (fun key : FeerateTransactionKey => s'.allTransactions.lookup key.tx.id) =
      fun key => (s.without n gone).allTransactions.lookup key.tx.id :=
    funext fun key => h.lookup_eq _
  unfold candidates candidatesAmong
  rw [← h.ready_eq hs' hclosed, ← hlookup]
  refine filter_congr fun x hx => decide_eq_decide.mpr (h.evictable_iff hs hs' ?_)
  obtain ⟨key, _, hkey⟩ := mem_filterMap.mp hx
  rw [hs'.keyed hkey]
  exact mem_of_lookup hkey

include hclosed in
/-- **What fits a pool is known before the removal.** -/
theorem Drop.fits_iff : Fits n s' t ↔ Fits n (s.without n gone) t := by
  unfold Fits
  simp only [h.candidates_eq hs hs' hclosed, h.hasRoom_iff hs', h.makesRoom_iff hs']

end Drop

end TransactionsPool

end Sahyadri.Mining
