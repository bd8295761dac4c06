import Sahyadri.Mining.Pool
import Sahyadri.Mining.Standard

/-!
# What holds of every transactions pool that its operations build

* `Sound`: the frontier has keys of pooled transactions only, the links between transactions go from
  older to younger ones and are known on both sides, the size is the sum of the sizes, and the
  account set has the flash ids of the pool.
-/

namespace Sahyadri.Mining

open Lib Smt Core Tx List AList Option Table FeerateTransactionKey MutableTransaction

namespace TransactionsPool

/-! ## 1. The invariant -/

def chainedTo (s : TransactionsPool) (id : TransactionId) : List TransactionId :=
  (s.chainedTransactions.lookup id).getD []

def parentsOf (s : TransactionsPool) (id : TransactionId) : List TransactionId :=
  (s.parentTransactions.lookup id).getD []

def bytes (n : Node) (t : MempoolTransaction) : Nat := n.mempoolEstimatedBytes t.mtx

/-- A pool that the operations have built. -/
structure Sound (n : Node) (s : TransactionsPool) : Prop where
  keyed : ∀ {id t}, s.allTransactions.lookup id = some t → t.id = id
  bare : ∀ {id t}, s.allTransactions.lookup id = some t → Bare t.mtx
  size : s.estimatedSize = s.allTransactions.total (bytes n)
  ready : ∀ {k}, k ∈ s.readyTransactions.searchTree →
    ∃ t, s.allTransactions.lookup k.tx.id = some t ∧ k = .ofTransaction t
  ready_nodup : s.readyTransactions.searchTree.Nodup
  child : ∀ {id}, id ∈ s.parentTransactions → id ∈ s.allTransactions
  linked : ∀ {x y}, y ∈ s.chainedTo x → x ∈ s.allTransactions ∧ x ∈ s.parentsOf y
  older : ∃ age : TransactionId → Nat, ∀ {x y}, y ∈ s.chainedTo x → age x < age y
  tracks : Tracks n.crypto s.allTransactions s.accountSet

variable {n : Node} {s s' : TransactionsPool} {id : TransactionId} {t : MempoolTransaction}

theorem sound_new (now : UInt64) : Sound n (.new now) where
  keyed h := by cases h
  bare h := by cases h
  size := rfl
  ready h := absurd h not_mem_nil
  ready_nodup := nodup_nil
  child h := absurd h (notMem_empty _)
  linked h := absurd h not_mem_nil
  older := ⟨fun _ => 0, fun h => absurd h not_mem_nil⟩
  tracks := tracks_new

variable {all : MempoolTransactionCollection}

theorem mem_of_lookup (h : all.lookup id = some t) : id ∈ all := lookup_isSome.mp (h ▸ rfl)

variable {x y : TransactionId}

theorem mem_redeemersOf : y ∈ redeemersOf n.iter s.chainedTransactions x ↔ y ∈ s.chainedTo x :=
  (n.iter_perm _).mem_iff

theorem Sound.child_of_mem (h : Sound n s) (hx : x ∈ s.parentsOf y) : y ∈ s.allTransactions := by
  refine h.child (lookup_isSome.mp ?_)
  unfold parentsOf at hx
  cases hl : s.parentTransactions.lookup y with
  | none =>
    rw [hl] at hx
    exact absurd hx not_mem_nil
  | some _ => rfl

/-- The step of the search for redeemers is a link of the pool. -/
theorem Sound.chained_iff (h : Sound n s) :
    Chained n.iter s.allTransactions s.chainedTransactions x y ↔ y ∈ s.chainedTo x := by
  refine ⟨fun hc => mem_redeemersOf.mp hc.1, fun hy => ⟨mem_redeemersOf.mpr hy, ?_⟩⟩
  exact decide_eq_false (not_not.mpr (h.child_of_mem (h.linked hy).2))

theorem Sound.age_lt (h : Sound n s)
    {age : TransactionId → Nat} (hage : ∀ {x y}, y ∈ s.chainedTo x → age x < age y)
    (hxy : Relation.TransGen (Chained n.iter s.allTransactions s.chainedTransactions) x y) :
    age x < age y := by
  induction hxy with
  | single hc => exact hage (h.chained_iff.mp hc)
  | tail _ hc ih => exact ih.trans (hage (h.chained_iff.mp hc))

/-- **No transaction is a redeemer of its own**; the redeemers are in the pool, each once. -/
theorem Sound.redeemerIds (h : Sound n s) (hid : id ∈ s.allTransactions) :
    (id :: s.redeemerIds n id).Nodup ∧ (∀ x ∈ s.redeemerIds n id, x ∈ s.allTransactions) ∧
      ∀ x ∈ id :: s.redeemerIds n id, ∀ y ∈ s.chainedTo x, y ∈ s.redeemerIds n id := by
  obtain ⟨_, hnd, hmem⟩ :=
    @getRedeemerIdsInPool_spec n.iter s.allTransactions s.chainedTransactions id hid
  obtain ⟨age, hage⟩ := h.older
  refine ⟨nodup_cons.mpr ⟨fun hself => ?_, hnd⟩, fun x hx => ?_, fun x hx y hy => ?_⟩
  · exact absurd (h.age_lt hage ((hmem id).mp hself)) (lt_irrefl _)
  · obtain ⟨z, _, hz⟩ := Relation.TransGen.tail'_iff.mp ((hmem x).mp hx)
    exact h.child_of_mem (h.linked (h.chained_iff.mp hz)).2
  · refine (hmem y).mpr ?_
    have hstep := h.chained_iff.mpr hy
    rcases mem_cons.mp hx with rfl | hx
    · exact .single hstep
    · exact ((hmem x).mp hx).tail hstep

/-! ## 2. Removal -/

variable {l gone l₁ l₂ g₁ g₂ : List TransactionId}

theorem mem_unlink : ∀ {c : TransactionsEdges} {x y : TransactionId},
    y ∈ ((l.foldl (fun c parent => c.modify parent (setRemove · id)) c).lookup x).getD [] ↔
      y ∈ (c.lookup x).getD [] ∧ (x ∈ l → y ≠ id) := by
  induction l with
  | nil => exact fun {c x y} => ⟨fun h => ⟨h, fun hx => absurd hx not_mem_nil⟩, fun h => h.1⟩
  | cons parent l ih =>
    intro c x y
    rw [foldl_cons, ih, lookup_modify]
    by_cases hx : x = parent
    · subst hx
      rw [if_pos rfl]
      cases c.lookup x with
      | none => simp
      | some chains =>
        simp only [map_some, getD_some, setRemove, mem_filter, decide_eq_true_eq, mem_cons, true_or,
          forall_true_left]
        exact ⟨fun h => h.1, fun h => ⟨h, fun _ => h.2⟩⟩
    · simp [hx]

/-- What the second loop of a removal does: transactions among `l` lose a parent, and may be
    ready. -/
structure Loosens (n : Node) (id : TransactionId) (l : List TransactionId)
    (s s' : TransactionsPool) : Prop where
  rest : s' = { s with
    parentTransactions := s'.parentTransactions, readyTransactions := s'.readyTransactions }
  children : ∀ y, y ∈ s'.parentTransactions ↔ y ∈ s.parentTransactions
  parents : ∀ {y z}, z ≠ id → z ∈ s.parentsOf y → z ∈ s'.parentsOf y
  ready : ∀ {k}, k ∈ s'.readyTransactions.searchTree → k ∈ s.readyTransactions.searchTree ∨
    ∃ x ∈ l, ∃ t, s.allTransactions.lookup x = some t ∧ k = .ofTransaction t
  nodup : s.readyTransactions.searchTree.Nodup → s'.readyTransactions.searchTree.Nodup
  kept : ∀ {p : TransactionId → Bool}, (∀ x ∈ l, x ∈ s.allTransactions → p x = false) →
    s'.readyTransactions.searchTree.filter (fun k => p k.tx.id) =
      s.readyTransactions.searchTree.filter (fun k => p k.tx.id)

theorem Loosens.refl (s : TransactionsPool) : Loosens n id [] s s :=
  ⟨rfl, fun _ => Iff.rfl, fun _ h => h, fun h => .inl h, fun h => h, fun _ => rfl⟩

variable {s₁ s₂ s₃ : TransactionsPool}

theorem Loosens.trans (h₁ : Loosens n id l₁ s₁ s₂) (h₂ : Loosens n id l₂ s₂ s₃) :
    Loosens n id (l₁ ++ l₂) s₁ s₃ := by
  have hall : s₂.allTransactions = s₁.allTransactions := by rw [h₁.rest]
  refine ⟨?_, fun y => (h₂.children y).trans (h₁.children y), fun hz h => h₂.parents hz
    (h₁.parents hz h), fun {k} hk => ?_, fun h => h₂.nodup (h₁.nodup h), fun {p} hp => ?_⟩
  · rw [h₂.rest, h₁.rest]
  · rcases h₂.ready hk with hk | ⟨x, hx, t, ht, rfl⟩
    · rcases h₁.ready hk with hk | ⟨x, hx, t, ht, rfl⟩
      · exact .inl hk
      · exact .inr ⟨x, mem_append_left _ hx, t, ht, rfl⟩
    · exact .inr ⟨x, mem_append_right _ hx, t, hall ▸ ht, rfl⟩
  · refine (h₂.kept fun x hx hm => ?_).trans (h₁.kept fun x hx hm => ?_)
    · exact hp x (mem_append_right _ hx) (hall ▸ hm)
    · exact hp x (mem_append_left _ hx) hm

/-- One round. A transaction that has parents is in the pool, so that the round cannot panic. -/
theorem releaseChain_ok (hkeyed : ∀ {id t}, s.allTransactions.lookup id = some t → t.id = id)
    (hchild : ∀ {id}, id ∈ s.parentTransactions → id ∈ s.allTransactions) :
    ∃ s', releaseChain n id s x = .ok s' ∧ Loosens n id [x] s s' := by
  unfold releaseChain
  cases hp : s.parentTransactions.lookup x with
  | none =>
    refine ⟨s, rfl, rfl, fun _ => Iff.rfl, fun _ h => h, fun h => .inl h, fun h => h, fun _ => rfl⟩
  | some parents =>
    have hmem : x ∈ s.parentTransactions := lookup_isSome.mp (hp ▸ rfl)
    obtain ⟨t, ht⟩ := isSome_iff_exists.mp (lookup_isSome.mpr (hchild hmem))
    have hchildren : ∀ y, y ∈ s.parentTransactions.insert x (setRemove parents id) ↔
        y ∈ s.parentTransactions := fun y => by
      rw [mem_insert]
      exact ⟨fun h => h.elim (fun h => h ▸ hmem) fun h => h, .inr⟩
    have hparents : ∀ {y z}, z ≠ id → z ∈ s.parentsOf y →
        z ∈ ((s.parentTransactions.insert x (setRemove parents id)).lookup y).getD [] := by
      intro y z hz hzy
      unfold parentsOf at hzy
      by_cases hy : y = x
      · subst hy
        rw [hp] at hzy
        rw [lookup_insert]
        exact mem_filter.mpr ⟨hzy, decide_eq_true hz⟩
      · rwa [lookup_insert_ne hy]
    dsimp only
    split
    · rw [ht]
      refine ⟨_, rfl, rfl, hchildren, hparents, fun hk => ?_, fun h => Frontier.nodup_insert _ h _,
        fun {p} hpx => Frontier.filter_insert _ ?_⟩
      · rcases Frontier.mem_insert _ hk with rfl | hk
        · exact .inr ⟨x, mem_singleton_self x, t, ht, rfl⟩
        · exact .inl hk
      · have hid : (ofTransaction t).tx.id = x := hkeyed ht
        rw [hid]
        exact hpx x (mem_singleton_self x) (hchild hmem)
    · exact ⟨_, rfl, rfl, hchildren, hparents, fun h => .inl h, fun h => h, fun _ => rfl⟩

theorem releaseChains_ok : ∀ {l : List TransactionId} {s : TransactionsPool},
    (∀ {id t}, s.allTransactions.lookup id = some t → t.id = id) →
      (∀ {id}, id ∈ s.parentTransactions → id ∈ s.allTransactions) →
        ∃ s', l.foldlM (releaseChain n id) s = .ok s' ∧ Loosens n id l s s'
  | [], s, _, _ => ⟨s, rfl, .refl s⟩
  | x :: l, s, hkeyed, hchild => by
    obtain ⟨s₁, h₁, hl₁⟩ := @releaseChain_ok n s id x hkeyed hchild
    have hall : s₁.allTransactions = s.allTransactions := by rw [hl₁.rest]
    obtain ⟨s₂, h₂, hl₂⟩ := @releaseChains_ok l s₁ (fun h => hkeyed (hall ▸ h))
      fun h => hall ▸ hchild ((hl₁.children _).mp h)
    refine ⟨s₂, ?_, hl₁.trans hl₂⟩
    rw [foldlM_cons, h₁, Run.ok_bind, h₂]

/-- What is left of a pool when transactions are taken out. -/
structure Drop (gone : List TransactionId) (s s' : TransactionsPool) : Prop where
  lookup : ∀ x, s'.allTransactions.lookup x = if x ∈ gone then none else s.allTransactions.lookup x
  chained : ∀ {x y}, y ∈ s'.chainedTo x ↔ y ∈ s.chainedTo x ∧ x ∉ gone ∧ y ∉ gone
  kept : ∀ {p : TransactionId → Bool}, (∀ x ∈ gone, p x = false) →
    (∀ x ∈ gone, ∀ y ∈ s.chainedTo x, y ∈ s.allTransactions → p y = false) →
      s'.readyTransactions.searchTree.filter (fun k => p k.tx.id) =
        s.readyTransactions.searchTree.filter (fun k => p k.tx.id)

theorem Drop.refl (s : TransactionsPool) : Drop [] s s :=
  ⟨fun _ => rfl, fun {_ _} => ⟨fun h => ⟨h, not_mem_nil, not_mem_nil⟩, fun h => h.1⟩,
    fun _ _ => rfl⟩

theorem Drop.lookup_some (h : Drop gone s s') :
    s'.allTransactions.lookup x = some t ↔ x ∉ gone ∧ s.allTransactions.lookup x = some t := by
  rw [h.lookup]
  by_cases hx : x ∈ gone
  · rw [if_pos hx]
    exact iff_of_false (by simp) fun hn => hn.1 hx
  · rw [if_neg hx]
    exact ⟨fun ht => ⟨hx, ht⟩, fun ht => ht.2⟩

theorem Drop.mem_iff (h : Drop gone s s') :
    x ∈ s'.allTransactions ↔ x ∈ s.allTransactions ∧ x ∉ gone := by
  rw [← lookup_isSome, ← lookup_isSome, h.lookup]
  by_cases hx : x ∈ gone
  · rw [if_pos hx]
    exact iff_of_false (by simp) fun hn => hn.2 hx
  · rw [if_neg hx]
    exact ⟨fun ht => ⟨ht, hx⟩, fun ht => ht.1⟩

theorem Drop.trans (h₁ : Drop g₁ s₁ s₂) (h₂ : Drop g₂ s₂ s₃) : Drop (g₁ ++ g₂) s₁ s₃ := by
  refine ⟨fun x => ?_, fun {x y} => ?_, fun {p} hp hchain => ?_⟩
  · rw [h₂.lookup, h₁.lookup]
    by_cases hx₁ : x ∈ g₁ <;> by_cases hx₂ : x ∈ g₂ <;> simp [hx₁, hx₂]
  · rw [h₂.chained, h₁.chained]
    simp only [mem_append, not_or]
    exact ⟨fun h => ⟨h.1.1, ⟨h.1.2.1, h.2.1⟩, h.1.2.2, h.2.2⟩,
      fun h => ⟨⟨h.1, h.2.1.1, h.2.2.1⟩, h.2.1.2, h.2.2.2⟩⟩
  · refine (h₂.kept (fun x hx => hp x (mem_append_right _ hx)) fun x hx y hy hm => ?_).trans
      (h₁.kept (fun x hx => hp x (mem_append_left _ hx)) fun x hx y hy hm => ?_)
    · exact hchain x (mem_append_right _ hx) y (h₁.chained.mp hy).1 (h₁.mem_iff.mp hm).1
    · exact hchain x (mem_append_left _ hx) y hy hm

/-- After the first loop of a removal, the transaction is chained to nothing. -/
theorem Sound.mem_unlinkParents (h : Sound n s) :
    y ∈ (unlinkParents n id s).chainedTo x ↔ y ∈ s.chainedTo x ∧ y ≠ id := by
  refine mem_unlink.trans (and_congr_right fun hy => ⟨fun hne he => ?_, fun hne _ => hne⟩)
  exact hne ((n.iter_perm _).mem_iff.mpr (he ▸ (h.linked hy).2)) he

variable {mtx : MutableTransaction}

/-- **A pooled transaction can always be removed.** -/
theorem removeTransaction_ok (h : Sound n s) (ht : s.allTransactions.lookup id = some t) :
    ∃ s', removeTransaction n id s = (.ok t, s') ∧ Sound n s' ∧ Drop [id] s s' := by
  obtain ⟨s₁, hs₁, hl⟩ := @releaseChains_ok n id
    (redeemersOf n.iter (unlinkParents n id s).chainedTransactions id)
    (unlinkParents n id s) h.keyed h.child
  have hall : s₁.allTransactions = s.allTransactions := by
    rw [hl.rest]
    rfl
  have hsize : s₁.estimatedSize = s.estimatedSize := by
    rw [hl.rest]
    rfl
  have hset : s₁.accountSet = s.accountSet := by
    rw [hl.rest]
    rfl
  have hchain : s₁.chainedTransactions = (unlinkParents n id s).chainedTransactions := by
    rw [hl.rest]
  have hid : t.id = id := h.keyed ht
  let s' : TransactionsPool := { s₁ with
    parentTransactions := s₁.parentTransactions.erase id
    chainedTransactions := s₁.chainedTransactions.erase id
    allTransactions := s₁.allTransactions.erase id
    readyTransactions := s₁.readyTransactions.remove n.floats (.ofTransaction t)
    accountSet := s₁.accountSet.removeTransaction t.mtx
    estimatedSize := s₁.estimatedSize - n.mempoolEstimatedBytes t.mtx }
  have hother : ∀ {x}, x ≠ id → s'.allTransactions.lookup x = s.allTransactions.lookup x :=
    fun hx => by
    rw [lookup_erase_ne hx, hall]
  have hgone : s'.allTransactions.lookup id = none := lookup_erase _ _
  have hne : ∀ {x t'}, s'.allTransactions.lookup x = some t' → x ≠ id := fun hl' he => by
    rw [he, hgone] at hl'
    cases hl'
  have htotal : s'.estimatedSize = s'.allTransactions.total (bytes n) := by
    show s₁.estimatedSize - bytes n t = total (bytes n) (s₁.allTransactions.erase id)
    rw [hsize, hall, h.size, total_eq_add_erase ht, Nat.add_sub_cancel_left]
  have hchained : ∀ {x y}, y ∈ s'.chainedTo x ↔ y ∈ s.chainedTo x ∧ x ≠ id ∧ y ≠ id := by
    intro x y
    show y ∈ ((s₁.chainedTransactions.erase id).lookup x).getD [] ↔ _
    by_cases hx : x = id
    · subst hx
      rw [lookup_erase]
      exact iff_of_false not_mem_nil fun hn => hn.2.1 rfl
    · rw [lookup_erase_ne hx, hchain]
      exact h.mem_unlinkParents.trans ⟨fun hy => ⟨hy.1, hx, hy.2⟩, fun hy => ⟨hy.1, hy.2.2⟩⟩
  -- a key of the second loop is that of a pooled transaction, as the keys from before are
  have hready : ∀ {k}, k ∈ s₁.readyTransactions.searchTree →
      ∃ t', s.allTransactions.lookup k.tx.id = some t' ∧ k = .ofTransaction t' := by
    intro k hk
    rcases hl.ready hk with hk | ⟨x, _, t', ht', rfl⟩
    · exact h.ready hk
    · have hx : t'.id = x := h.keyed ht'
      exact ⟨t', (congrArg s.allTransactions.lookup hx).trans ht', rfl⟩
  have hnodup := hl.nodup h.ready_nodup
  refine ⟨s', ?_, ⟨?_, ?_, htotal, ?_, Frontier.nodup_remove _ hnodup _, ?_, ?_, ?_, ?_⟩,
    ?_, ?_, ?_⟩
  · unfold removeTransaction
    dsimp only
    rw [hs₁]
    dsimp only
    rw [hall, ht]
    dsimp only
    rw [if_neg]
    · rw [← hall]
    · rintro ⟨hempty, hnz⟩
      refine hnz ?_
      have : s'.estimatedSize = 0 := by
        rw [htotal]
        show ((s₁.allTransactions.erase id).entries.map _).sum = 0
        rw [hall, isEmpty_iff.mp hempty]
        rfl
      exact this
  · intro x t' ht'
    exact h.keyed ((hother (hne ht')).symm.trans ht')
  · intro x t' ht'
    exact h.bare ((hother (hne ht')).symm.trans ht')
  · intro k hk
    obtain ⟨t', ht', rfl⟩ := hready (Frontier.mem_of_mem_remove _ hk)
    refine ⟨t', ?_, rfl⟩
    rw [hother ?_]
    · exact ht'
    · intro he
      have huniq : ∀ k ∈ s₁.readyTransactions.searchTree, k.tx.id = (ofTransaction t).tx.id →
          k = .ofTransaction t := by
        intro k hk hkt
        obtain ⟨t'', ht'', rfl⟩ := hready hk
        rw [hkt, show (ofTransaction t).tx.id = id from hid, ht] at ht''
        rw [some.inj ht'']
      refine Frontier.ne_of_mem_remove _ hnodup huniq hk ?_
      rw [he, ht] at ht'
      rw [some.inj ht']
  · intro x hx
    obtain ⟨hx, hm⟩ := mem_erase.mp (show x ∈ s₁.parentTransactions.erase id from hx)
    refine mem_erase.mpr ⟨hx, ?_⟩
    rw [hall]
    exact h.child ((hl.children x).mp hm)
  · intro x y hy
    obtain ⟨hy, hx, hyid⟩ := hchained.mp hy
    obtain ⟨hm, hp⟩ := h.linked hy
    refine ⟨mem_erase.mpr ⟨hx, hall ▸ hm⟩, ?_⟩
    show x ∈ ((s₁.parentTransactions.erase id).lookup y).getD []
    rw [lookup_erase_ne hyid]
    exact hl.parents hx hp
  · obtain ⟨age, hage⟩ := h.older
    exact ⟨age, fun hy => hage (hchained.mp hy).1⟩
  · show Tracks n.crypto (s₁.allTransactions.erase id) (s₁.accountSet.removeTransaction t.mtx)
    rw [hall, hset, ← hid]
    exact h.tracks.remove
  · intro x
    by_cases hx : x = id
    · rw [if_pos (mem_singleton.mpr hx), hx, hgone]
    · rw [if_neg fun hm => hx (mem_singleton.mp hm), hother hx]
  · intro x y
    rw [hchained, mem_singleton, mem_singleton]
  · intro p hp hch
    have hpid : p (ofTransaction t).tx.id = false :=
      (congrArg p hid).trans (hp id (mem_singleton_self id))
    refine (Frontier.filter_remove _ hpid).trans (hl.kept fun x hx hm => ?_)
    exact hch id (mem_singleton_self id) x (h.mem_unlinkParents.mp (mem_redeemersOf.mp hx)).1 hm

/-! ## 3. Addition -/

theorem mem_getParentTransactionIdsInPool (h : x ∈ getParentTransactionIdsInPool all mtx) :
    x ∈ all := by
  refine foldlRecOn (motive := fun l => ∀ x ∈ l, x ∈ all) _ _ ?_ ?_ x h
  · exact forall_mem_nil _
  · intro l hl y _ x hx
    split at hx
    · rename_i hy
      unfold setInsert at hx
      split at hx
      · exact hl x hx
      · rcases mem_append.mp hx with hx | hx
        · exact hl x hx
        · exact mem_singleton.mp hx ▸ hy
    · exact hl x hx

theorem mem_setInsert : y ∈ setInsert l x ↔ y ∈ l ∨ y = x := by
  unfold setInsert
  split
  · rename_i hx
    exact ⟨.inl, fun h => h.elim (fun h => h) fun h => h ▸ hx⟩
  · rw [mem_append, mem_singleton]

theorem mem_link : ∀ {c : TransactionsEdges} {x y : TransactionId},
    y ∈ ((l.foldl (fun c parent => c.insert parent (setInsert ((c.lookup parent).getD []) id))
      c).lookup x).getD [] ↔ y ∈ (c.lookup x).getD [] ∨ (x ∈ l ∧ y = id) := by
  induction l with
  | nil => exact fun {c x y} => ⟨.inl, fun h => h.elim (fun h => h) fun h => absurd h.1 not_mem_nil⟩
  | cons parent l ih =>
    intro c x y
    rw [foldl_cons, ih]
    by_cases hx : x = parent
    · subst hx
      rw [lookup_insert, getD_some, mem_setInsert]
      simp only [mem_cons, true_or, true_and]
      exact ⟨fun h => h.elim (fun h => h) fun h => .inr h.2, .inl⟩
    · simp [hx]

/-- **A transaction of the account model with a free flash id can be added.** -/
theorem addMempoolTransaction_ok (h : Sound n s)
    (hid : t.id ∉ s.allTransactions) (hbare : Bare t.mtx)
    (hmodel : isAccountModel t.mtx.tx = true) (hfree : s.accountSet.Free n.crypto t.mtx) :
    ∃ s', addMempoolTransaction n t (bytes n t) s = (.ok (), s') ∧ Sound n s' ∧
      s'.allTransactions = s.allTransactions.insert t.id t := by
  obtain ⟨set', hset, htracks⟩ := h.tracks.add hid hfree
  let parents := getParentTransactionIdsInPool s.allTransactions t.mtx
  have hparents : ∀ x ∈ parents, x ∈ s.allTransactions := fun x => mem_getParentTransactionIdsInPool
  let s' : TransactionsPool := { s with
    parentTransactions := s.parentTransactions.insert t.id parents
    readyTransactions :=
      if parents.isEmpty then s.readyTransactions.insert n.floats (.ofTransaction t)
      else s.readyTransactions
    chainedTransactions := (n.iter parents).foldl
      (fun c parent => c.insert parent (setInsert ((c.lookup parent).getD []) t.id))
      s.chainedTransactions
    accountSet := set'
    estimatedSize := s.estimatedSize + bytes n t
    allTransactions := s.allTransactions.insert t.id t }
  have hchained : ∀ {x y}, y ∈ s'.chainedTo x ↔ y ∈ s.chainedTo x ∨ (x ∈ parents ∧ y = t.id) :=
    mem_link.trans (or_congr_right (and_congr_left fun _ => (n.iter_perm _).mem_iff))
  have hne : ∀ {x}, x ∈ s.allTransactions → x ≠ t.id := fun hx he => hid (he ▸ hx)
  have hlookup : ∀ {x t'}, s'.allTransactions.lookup x = some t' →
      (x = t.id ∧ t' = t) ∨ s.allTransactions.lookup x = some t' := by
    intro x t' ht'
    exact (lookup_insert_eq_some.mp ht').imp (And.imp_right Eq.symm) And.right
  refine ⟨s', ?_, ⟨?_, ?_, ?_, ?_, ?_, ?_, ?_, ?_, htracks⟩, rfl⟩
  · unfold addMempoolTransaction
    rw [if_neg hid, if_pos hmodel]
    dsimp only
    rw [hset]
  · intro x t' ht'
    rcases hlookup ht' with ⟨rfl, rfl⟩ | ht'
    · rfl
    · exact h.keyed ht'
  · intro x t' ht'
    rcases hlookup ht' with ⟨_, rfl⟩ | ht'
    · exact hbare
    · exact h.bare ht'
  · show s.estimatedSize + bytes n t = total (bytes n) (s.allTransactions.insert t.id t)
    rw [total_insert_new hid, h.size, add_comm]
  · intro k hk
    have hk' : k = .ofTransaction t ∨ k ∈ s.readyTransactions.searchTree := by
      change k ∈ (if parents.isEmpty then _ else _ : Frontier).searchTree at hk
      split at hk
      · exact Frontier.mem_insert _ hk
      · exact .inr hk
    rcases hk' with rfl | hk
    · exact ⟨t, lookup_insert _, rfl⟩
    · obtain ⟨t', ht', rfl⟩ := h.ready hk
      exact ⟨t', (lookup_insert_ne (hne (mem_of_lookup ht'))).trans ht', rfl⟩
  · show (if parents.isEmpty then _ else _ : Frontier).searchTree.Nodup
    split
    · exact Frontier.nodup_insert _ h.ready_nodup _
    · exact h.ready_nodup
  · intro x hx
    rcases (mem_insert _).mp
      (show x ∈ s.parentTransactions.insert t.id parents from hx) with hx | hx
    · exact (mem_insert _).mpr (.inl hx)
    · exact (mem_insert _).mpr (.inr (h.child hx))
  · intro x y hy
    rcases hchained.mp hy with hy | ⟨hx, rfl⟩
    · obtain ⟨hx, hp⟩ := h.linked hy
      refine ⟨(mem_insert _).mpr (.inr hx), ?_⟩
      show x ∈ ((s.parentTransactions.insert t.id parents).lookup y).getD []
      rw [lookup_insert_ne (hne (h.child_of_mem hp))]
      exact hp
    · refine ⟨(mem_insert _).mpr (.inr (hparents x hx)), ?_⟩
      show x ∈ ((s.parentTransactions.insert t.id parents).lookup t.id).getD []
      rw [lookup_insert]
      exact hx
  · -- the new transaction is younger than all of its parents
    obtain ⟨age, hage⟩ := h.older
    refine ⟨fun x => if x = t.id then (parents.map age).sum + 1 else age x, fun {x y} hy => ?_⟩
    dsimp only
    rcases hchained.mp hy with hy | ⟨hx, rfl⟩
    · obtain ⟨hx, hp⟩ := h.linked hy
      rw [if_neg (hne hx), if_neg (hne (h.child_of_mem hp))]
      exact hage hy
    · rw [if_neg (hne (hparents x hx)), if_pos rfl]
      exact Nat.lt_succ_of_le (single_le_sum (fun _ _ => Nat.zero_le _) _ (mem_map_of_mem hx))

/-- A transaction that is not of the account model and has no fee fails the assertion. -/
theorem addMempoolTransaction_panics (hid : t.id ∉ s.allTransactions) (hbare : Bare t.mtx)
    (hmodel : isAccountModel t.mtx.tx = false) (hfee : t.mtx.calculatedFee = none) (size : Nat) :
    addMempoolTransaction n t size s = (.panicked, s) := by
  have hlen : t.mtx.entries.length = t.mtx.tx.inputs.length := by
    rw [hbare, length_replicate]
  have hpop : (t.mtx.isFullyPopulated : Run RuleError Bool) = .ok false := by
    unfold isFullyPopulated isVerifiable
    rw [if_neg (not_not.mpr hlen), Run.ok_bind, hfee, isSome_none, Bool.and_false]
    rfl
  unfold addMempoolTransaction
  rw [if_neg hid, hmodel, if_neg Bool.false_ne_true, hpop]

theorem new_of_bare (hbare : Bare mtx) (priority : Priority) (daaScore : UInt64) :
    (MempoolTransaction.new mtx priority daaScore : Run RuleError MempoolTransaction) =
      .ok ⟨mtx, priority, daaScore⟩ := by
  rw [MempoolTransaction.new, if_neg]
  rw [hbare, length_replicate]
  exact not_not.mpr rfl

/-- **`add_transaction`** adds a transaction of the account model. -/
theorem addTransaction_ok (h : Sound n s) (hid : mtx.id ∉ s.allTransactions) (hbare : Bare mtx)
    (hmodel : isAccountModel mtx.tx = true)
    (hfree : s.accountSet.Free n.crypto mtx) (daaScore : UInt64) (priority : Priority) :
    ∃ s', addTransaction n mtx daaScore priority (n.mempoolEstimatedBytes mtx) s =
        (.ok ⟨mtx, priority, daaScore⟩, s') ∧ Sound n s' ∧
      s'.allTransactions = s.allTransactions.insert mtx.id ⟨mtx, priority, daaScore⟩ := by
  obtain ⟨s', hadd, hs', hall⟩ :=
    @addMempoolTransaction_ok n s ⟨mtx, priority, daaScore⟩ h hid hbare hmodel hfree
  refine ⟨s', ?_, hs', hall⟩
  have hget : s'.allTransactions.lookup mtx.id = some ⟨mtx, priority, daaScore⟩ := by
    rw [hall]
    exact lookup_insert _
  unfold addTransaction
  rw [Action.bind_apply, Action.lift_apply, new_of_bare hbare]
  dsimp only
  rw [Action.bind_apply, show addMempoolTransaction n ⟨mtx, priority, daaScore⟩
    (n.mempoolEstimatedBytes mtx) s = (.ok (), s') from hadd]
  dsimp only
  rw [Action.lift_apply, show s'.allTransactions.lookup
    (MempoolTransaction.id ⟨mtx, priority, daaScore⟩) = some ⟨mtx, priority, daaScore⟩ from hget]

/-- **`add_transaction`** panics for any other transaction that has no fee. -/
theorem addTransaction_panics (hid : mtx.id ∉ s.allTransactions) (hbare : Bare mtx)
    (hmodel : isAccountModel mtx.tx = false) (hfee : mtx.calculatedFee = none) (daaScore : UInt64)
    (priority : Priority) (size : Nat) :
    addTransaction n mtx daaScore priority size s = (.panicked, s) := by
  have hadd : addMempoolTransaction n ⟨mtx, priority, daaScore⟩ size s = (.panicked, s) :=
    addMempoolTransaction_panics hid hbare hmodel hfee size
  unfold addTransaction
  rw [Action.bind_apply, Action.lift_apply, new_of_bare hbare]
  dsimp only
  rw [Action.bind_apply, hadd]

end TransactionsPool

end Sahyadri.Mining
