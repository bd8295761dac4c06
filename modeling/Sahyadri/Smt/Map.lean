import Sahyadri.Smt.Refine
import Mathlib.Data.List.Induction

/-!
# The sparse Merkle tree as a map from keys to values

`KeyMap` says what the tree is for: a map from keys to optional values, changed one key at a time
(`KeyMap.apply`). A run of the code's `update_many` that puts nodes on which the node hash behaves
follows it (`run_updateMany`).

* `root_canonical`: equal maps have equal roots, different maps different ones, whatever the order
  of the changes and whatever the stores.
-/

namespace Sahyadri.Smt

open Lib List Node Trie Function IterOrder Action

/-! ## 1. The map -/

/-- What a tree holds for each key. -/
abbrev KeyMap := H256 → Option H256

/-- The map after a list of changes, `none` meaning that the key is removed. -/
def KeyMap.apply (m : KeyMap) (changes : Changes) : KeyMap :=
  changes.foldl (fun m c => Function.update m c.1 c.2) m

variable (changes : Changes)

def mapOf : KeyMap := KeyMap.apply (fun _ => none) changes

/-- The last change listed for a key. -/
def lastChange (key : H256) : Option (Option H256) := changes.reverse.lookup key

variable (m : KeyMap)

theorem KeyMap.apply_append (cs ds : Changes) :
    m.apply (cs ++ ds) = KeyMap.apply (m.apply cs) ds := foldl_append

/-- The last change counts, and a key that is not listed keeps its value. -/
theorem KeyMap.apply_eq (key : H256) :
    m.apply changes key = (lastChange changes key).getD (m key) := by
  induction changes using reverseRecOn with
  | nil => rfl
  | append_singleton cs c ih =>
    rw [KeyMap.apply_append]
    show Function.update (m.apply cs) c.1 c.2 key = _
    rw [lastChange, reverse_append, reverse_singleton, singleton_append, lookup_cons, update_apply]
    by_cases hk : key = c.1
    · simp [hk]
    · have : (key == c.1) = false := by simpa using hk
      simp only [if_neg hk, this, ih, lastChange]

variable {t : Tree}

section

variable (hc : Canon h256Keying 0 t) (changes : Changes)

include hc

theorem updates_lookup : Canon h256Keying 0 (t.updates changes) ∧
      (t.updates changes).lookup = KeyMap.apply t.lookup changes := by
  induction changes generalizing t with
  | nil => exact ⟨hc, rfl⟩
  | cons c changes ih =>
    have hu : Under h256Keying 0 c.1 t := under_zero _ _
    have hcan : Canon h256Keying 0 (t.update c.1 c.2) := canon_update (Nat.zero_le _) hc hu
    obtain ⟨h1, h2⟩ := ih hcan
    refine ⟨h1, h2.trans (congrArg (KeyMap.apply · changes) ?_)⟩
    funext q
    show _ = Function.update t.lookup c.1 c.2 q
    rw [update_apply]
    exact lookup_update q (Nat.zero_le _) hc hu

theorem canon_updates :
    Canon h256Keying 0 (t.updates changes) := (updates_lookup hc changes).1

theorem lookup_updates (key : H256) :
    (t.updates changes).lookup key = KeyMap.apply t.lookup changes key :=
  congrFun (updates_lookup hc changes).2 key

end

def treeOf : Tree := Tree.updates .empty changes

theorem canon_treeOf :
    Canon h256Keying 0 (treeOf changes) := canon_updates (t := .empty) trivial changes

theorem lookup_treeOf :
    (treeOf changes).lookup = mapOf changes := (updates_lookup (t := .empty) trivial changes).2

/-! ## 2. Runs of `update_many` -/

open KeyMap

section Runs

variable {S : Type} {N : NodeStore S} {hash : Node → H256} {𝒩 : Set Node}

theorem updateMany_append (root : H256) (cs ds : Changes) :
    updateMany N root (cs ++ ds) = updateMany N root cs >>= fun r => updateMany N r ds := by
  induction cs generalizing root with
  | nil => rfl
  | cons c cs ih =>
    simp only [cons_append, updateMany, ih, bind_then]

/-- A run from a held trie: what it returns and what the store holds after it. -/
structure RunsTo (N : NodeStore S) (hash : Node → H256) (𝒩 : Set Node) (s : S)
    (out : Run SmtError H256 × S) (t : Tree) : Prop where
  root : out.1 = .ok (rootOf hash t)
  within : Within hash 𝒩 t
  held : Held hash N out.2 t
  keeps : ∀ u, Within hash 𝒩 u → Held hash N s u → Held hash N out.2 u

variable {changes cs ds : Changes} {s s' : S} {t : Tree}

/-- **`update_many` from a held trie**, when the nodes it puts are among the good ones. -/
theorem run_updateMany (hN : N.Lawful hash) (hg : GoodNodes hash 𝒩) (hc : Canon h256Keying 0 t)
    (hw : Within hash 𝒩 t) (hh : Held hash N s t)
    (hlog : ∀ n ∈ putsOf N s (rootOf hash t) changes, n ∈ 𝒩) :
    RunsTo N hash 𝒩 s (updateMany N (rootOf hash t) changes s) (t.updates changes) := by
  have hrel := updateMany_sim (recorded_sim N) (rootOf hash t) changes ⟨s, []⟩ s rfl
  obtain ⟨h1, h2, h3, h4⟩ := updateMany_ends hN hg changes ⟨s, []⟩ hc hw hh hlog
  rw [hrel.2] at h3 h4
  exact ⟨hrel.1 ▸ h1, h2, h3, h4⟩

/-- `root` stands for the trie `t`, and the store holds it. -/
structure Rooted (N : NodeStore S) (hash : Node → H256) (𝒩 : Set Node) (s : S) (root : H256)
    (t : Tree) : Prop where
  canon : Canon h256Keying 0 t
  within : Within hash 𝒩 t
  held : Held hash N s t
  root_eq : root = rootOf hash t

theorem rooted_empty (s : S) : Rooted N hash 𝒩 s .empty .empty :=
  ⟨trivial, within_empty, held_empty, rfl⟩

variable {root key value r : H256}

theorem rooted_leaf (σ : Sponge) (h : Node.leaf key value ∈ 𝒩) : Rooted (memStore σ) (Node.hash σ) 𝒩
      ⟨[(Node.hash σ (.leaf key value), .leaf key value)]⟩ (Node.hash σ (.leaf key value))
        (.leaf key value) := by
  refine ⟨trivial, fun n hn => ?_, fun n hn => ?_, rfl⟩
  · rw [mem_singleton.mp hn]
    exact h
  · rw [mem_singleton.mp hn]
    exact (lookup_cons_node [] _ _ _).trans (if_pos rfl)

/-- `get` on a root is the lookup of its trie. -/
theorem Rooted.get_eq (hg : GoodNodes hash 𝒩) (h : Rooted N hash 𝒩 s root t) (key : H256) :
    get N s root key = .ok (t.lookup key) := by
  rw [h.root_eq]
  exact getLoop_eq hg h.canon (under_zero _ _) h.within h.held

/-- Changing a tree leads to the changed tree, and the trees held before stay held. -/
theorem Rooted.updateMany (hN : N.Lawful hash) (hg : GoodNodes hash 𝒩)
    (h : Rooted N hash 𝒩 s root t) (hlog : ∀ n ∈ putsOf N s root changes, n ∈ 𝒩) :
    ∃ r s', updateMany N root changes s = (.ok r, s') ∧ Rooted N hash 𝒩 s' r (t.updates changes) ∧
      ∀ q u, Rooted N hash 𝒩 s q u → Rooted N hash 𝒩 s' q u := by
  obtain ⟨hc, hw, hh, rfl⟩ := h
  have hrun := run_updateMany hN hg hc hw hh hlog
  rcases hout : Smt.updateMany N (rootOf hash t) changes s with ⟨r, s'⟩
  rw [hout] at hrun
  obtain ⟨rfl, hw', hh', hkeep⟩ := hrun
  exact ⟨_, s', rfl, ⟨canon_updates hc changes, hw', hh', rfl⟩, fun q u hu =>
    ⟨hu.canon, hu.within, hkeep u hu.within hu.held, hu.root_eq⟩⟩

theorem run_fromEmpty (hN : N.Lawful hash) (hg : GoodNodes hash 𝒩) (s : S)
    (changes : Changes) (hlog : ∀ n ∈ putsOf N s .empty changes, n ∈ 𝒩) :
    RunsTo N hash 𝒩 s (updateMany N .empty changes s) (treeOf changes) :=
  run_updateMany (t := .empty) hN hg trivial within_empty held_empty hlog

theorem rooted_fromEmpty (hN : N.Lawful hash) (hg : GoodNodes hash 𝒩) (s : S)
    (changes : Changes) (hlog : ∀ n ∈ putsOf N s .empty changes, n ∈ 𝒩) :
    ∃ root s', updateMany N .empty changes s = (.ok root, s') ∧
    Rooted N hash 𝒩 s' root (treeOf changes) := by
  obtain ⟨root, s', hrun, hr, _⟩ := (rooted_empty s).updateMany hN hg hlog
  exact ⟨root, s', hrun, hr⟩

theorem putsOf_append (h : updateMany N root cs s = (.ok r, s')) :
    putsOf N s root (cs ++ ds) = putsOf N s' r ds ++ putsOf N s root cs := by
  have hrel := updateMany_sim (recorded_sim N) root cs ⟨s, []⟩ s rfl
  rw [h] at hrel
  rcases hr : updateMany (recorded N) root cs ⟨s, []⟩ with ⟨x, q⟩
  rw [hr] at hrel
  obtain ⟨rfl, rfl⟩ : x = .ok r ∧ q.inner = s' := hrel
  have hlog := updateMany_sim (recorded_log_sim N q.log) r ds q ⟨q.inner, []⟩ ⟨rfl, rfl⟩
  rw [putsOf, updateMany_append, bind_ok hr, hlog.2.2, putsOf, putsOf, hr]

theorem putsOf_subset_append (s : S) (root : H256) (cs ds : Changes) :
    putsOf N s root cs ⊆ putsOf N s root (cs ++ ds) := by
  unfold putsOf
  rw [updateMany_append]
  rcases h : updateMany (recorded N) root cs ⟨s, []⟩ with ⟨e | r, q⟩
  · rw [bind_error h]
    exact fun _ hn => hn
  · rw [bind_ok h]
    exact updateMany_grow r ds q

end Runs

/-! ## 3. Canonical roots -/

section Canonical

variable {S T : Type} {N : NodeStore S} {M : NodeStore T} {σ : Sponge}

theorem lookup_eq_iff {t u : Tree} (ht : Canon h256Keying 0 t)
    (hu : Canon h256Keying 0 u) : t.lookup = u.lookup ↔ t = u :=
  ⟨fun h => canon_ext ht hu (congrFun h), fun h => by rw [h]⟩

/-- Inserting a fresh key and deleting it again leads to the same map. -/
theorem mapOf_insert_delete {cs : Changes} {key v : H256}
    (h : mapOf cs key = none) : mapOf (cs ++ [(key, some v), (key, none)]) = mapOf cs := by
  funext q
  rw [mapOf, apply_append]
  show Function.update (Function.update (mapOf cs) key (some v)) key none q = _
  rw [update_idem]
  by_cases hq : q = key
  · rw [hq, update_self, h]
  · rw [update_of_ne hq]

/-- **The sparse Merkle tree is canonical.** Two runs from `EMPTY`, on any two stores, return equal
    roots exactly when the maps are equal; only the empty map has the root `EMPTY`. -/
theorem root_canonical (hN : N.Lawful (hash σ)) (hM : M.Lawful (hash σ)) (s : S) (t : T)
    (cs ds : Changes)
    (hg : GoodNodes (hash σ) {n | n ∈ putsOf N s .empty cs ∨ n ∈ putsOf M t .empty ds}) :
    ∃ r q, (updateMany N .empty cs s).1 = .ok r ∧ (updateMany M .empty ds t).1 = .ok q ∧
      (r = q ↔ mapOf cs = mapOf ds) ∧ (r = .empty ↔ ∀ key, mapOf cs key = none) ∧
      ∀ key v, mapOf cs key = none → ds = cs ++ [(key, some v), (key, none)] → q = r := by
  have hr := run_fromEmpty hN hg s cs fun n hn => .inl hn
  have hq := run_fromEmpty hM hg t ds fun n hn => .inr hn
  have heq : rootOf (hash σ) (treeOf cs) = rootOf (hash σ) (treeOf ds) ↔ mapOf cs = mapOf ds := by
    rw [← lookup_treeOf, ← lookup_treeOf, lookup_eq_iff (canon_treeOf cs) (canon_treeOf ds)]
    exact ⟨rootOf_inj hg hr.within hq.within, fun h => by rw [h]⟩
  refine ⟨_, _, hr.root, hq.root, heq, ?_, ?_⟩
  · rw [rootOf_eq_empty hg hr.within, ← lookup_eq_iff (u := .empty) (canon_treeOf cs) trivial,
      lookup_treeOf]
    exact funext_iff
  · rintro key v hnone rfl
    exact (heq.mpr (mapOf_insert_delete hnone).symm).symm

theorem root_canonical_two_orders :
    ∃ r, (updateMany polyStore .empty
        [(.ofNat 1, some (.ofNat 7)), (.ofNat 2, some (.ofNat 8))] ⟨[]⟩).1 = .ok r ∧
      (updateMany polyStore .empty
        [(.ofNat 2, some (.ofNat 8)), (.ofNat 1, some (.ofNat 7))] ⟨[]⟩).1 = .ok r := by
  obtain ⟨r, q, hr, hq, heq, _⟩ :=
    root_canonical (memStore_lawful polySponge) (memStore_lawful polySponge) ⟨[]⟩ ⟨[]⟩
    [(.ofNat 1, some (.ofNat 7)), (.ofNat 2, some (.ofNat 8))]
    [(.ofNat 2, some (.ofNat 8)), (.ofNat 1, some (.ofNat 7))]
    (goodNodes_of_list (l := putsOf polyStore ⟨[]⟩ .empty
          [(.ofNat 1, some (.ofNat 7)), (.ofNat 2, some (.ofNat 8))] ++ putsOf polyStore ⟨[]⟩ .empty
          [(.ofNat 2, some (.ofNat 8)), (.ofNat 1, some (.ofNat 7))]) (by decide +kernel)
          fun n hn => mem_append.mpr hn)
  have hmap : r = q := heq.mpr (update_comm (by decide) _ _ _)
  exact ⟨r, hr, hmap ▸ hq⟩

end Canonical

/-! ## 4. Changes in any order -/

/-- Changes of one key agree. -/
def Consistent (changes : Changes) : Prop := ∀ x ∈ changes, ∀ y ∈ changes, x.1 = y.1 → x.2 = y.2

theorem KeyMap.apply_append_singleton (cs : Changes)
    (x : H256 × Option H256) : m.apply (cs ++ [x]) x.1 = x.2 := by
  rw [apply_append]
  exact update_self x.1 x.2 (m.apply cs)

variable {cs ds : Changes}

theorem KeyMap.apply_of_notMem {m : KeyMap} {key : H256} (h : key ∉ cs.map Prod.fst) :
    m.apply cs key = m key := by
  induction cs generalizing m with
  | nil => rfl
  | cons x cs ih =>
    simp only [map_cons, mem_cons, not_or] at h
    show apply (Function.update m x.1 x.2) cs key = m key
    rw [ih h.2, update_of_ne h.1]

/-- A key keeps its value, or it has the value of one of its changes. -/
theorem KeyMap.apply_cases (cs : Changes) (key : H256) :
    ((∀ x ∈ cs, x.1 ≠ key) ∧ m.apply cs key = m key) ∨ ∃ x ∈ cs, x.1 = key ∧
    m.apply cs key = x.2 := by
  by_cases h : ∃ x ∈ cs, x.1 = key
  · obtain ⟨x, hx, rfl⟩ := h
    right
    rw [apply_eq, lastChange]
    cases hl : cs.reverse.lookup x.1 with
    | none => simpa using lookup_eq_none_iff.mp hl x (mem_reverse.mpr hx)
    | some v =>
      obtain ⟨l₁, l₂, heq, _⟩ := lookup_eq_some_iff.mp hl
      have hmem : (x.1, v) ∈ cs := by
        rw [← mem_reverse, heq]
        simp
      exact ⟨(x.1, v), hmem, rfl, rfl⟩
  · push Not at h
    refine .inl ⟨h, apply_of_notMem fun hm => ?_⟩
    obtain ⟨x, hx, rfl⟩ := mem_map.mp hm
    exact h x hx rfl

/-- A consistent list sets each of its keys to its value. -/
theorem KeyMap.apply_of_mem {m : KeyMap} (hcons : Consistent cs) {x : H256 × Option H256}
    (hx : x ∈ cs) : m.apply cs x.1 = x.2 := by
  rcases apply_cases m cs x.1 with ⟨hno, _⟩ | ⟨y, hy, hxy, he⟩
  · exact absurd rfl (hno x hx)
  · rw [he]
    exact hcons y hy x hx hxy

/-- A consistent list may be applied in any order. -/
theorem KeyMap.apply_perm (hcons : Consistent cs) (hp : cs.Perm ds) : m.apply cs = m.apply ds := by
  have hcons' : Consistent ds := fun x hx y hy => hcons x (hp.mem_iff.mpr hx) y (hp.mem_iff.mpr hy)
  funext key
  by_cases hk : key ∈ cs.map Prod.fst
  · obtain ⟨x, hx, rfl⟩ := mem_map.mp hk
    rw [apply_of_mem hcons hx, apply_of_mem hcons' (hp.mem_iff.mp hx)]
  · rw [apply_of_notMem hk, apply_of_notMem fun h => hk ((hp.map _).mem_iff.mpr h)]

section Orders

variable {S α : Type} [DecidableEq α] {N : NodeStore S} {hash : Node → H256} {𝒩 : Set Node}
  {root : H256} {t : Tree}

/-- **The order of the changes is irrelevant exactly when changes of one key agree.** -/
theorem order_irrelevant_iff (hN : N.Lawful hash) (hg : GoodNodes hash 𝒩) {s : S}
    (hroot : Rooted N hash 𝒩 s root t) (entries : List α) (f : α → H256 × Option H256)
    (hlog : ∀ l : List α, l.Perm entries → ∀ n ∈ putsOf N s root (l.map f), n ∈ 𝒩) :
    (∀ l₁ l₂ : List α, l₁.Perm entries → l₂.Perm entries →
      (updateMany N root (l₁.map f) s).1 = (updateMany N root (l₂.map f) s).1) ↔
        Consistent (entries.map f) := by
  obtain ⟨hc, hw, hh, rfl⟩ := hroot
  have hrun : ∀ l : List α, l.Perm entries →
      RunsTo N hash 𝒩 s (updateMany N (rootOf hash t) (l.map f) s) (t.updates (l.map f)) :=
    fun l hl => run_updateMany hN hg hc hw hh (hlog l hl)
  constructor
  · intro h x hx y hy hxy
    obtain ⟨a, ha, rfl⟩ := mem_map.mp hx
    obtain ⟨b, hb, rfl⟩ := mem_map.mp hy
    -- put `a` last, and then `b` last
    have hlast : ∀ e ∈ entries, (entries.erase e ++ [e]).Perm entries := fun e he =>
      perm_append_comm.trans (perm_cons_erase he).symm
    have hra := hrun _ (hlast a ha)
    have hrb := hrun _ (hlast b hb)
    have heq := h _ _ (hlast a ha) (hlast b hb)
    rw [hra.root, hrb.root] at heq
    have htree := rootOf_inj hg hra.within hrb.within (Except.ok.inj heq)
    have hlook := lookup_updates hc ((entries.erase a ++ [a]).map f) (f a).1
    rw [htree, lookup_updates hc, map_append, map_append] at hlook
    exact (apply_append_singleton _ _ (f a)).symm.trans
      (hlook.symm.trans (hxy ▸ apply_append_singleton _ _ (f b)))
  · intro hcons l₁ l₂ h₁ h₂
    rw [(hrun l₁ h₁).root, (hrun l₂ h₂).root]
    have hperm : (l₁.map f).Perm (l₂.map f) := (h₁.trans h₂.symm).map f
    have hcons₁ : Consistent (l₁.map f) := fun x hx y hy =>
      hcons x ((h₁.map f).mem_iff.mp hx) y ((h₁.map f).mem_iff.mp hy)
    refine congrArg (fun u => Except.ok (rootOf hash u)) ?_
    refine canon_ext (canon_updates hc _) (canon_updates hc _) fun key => ?_
    show (t.updates (l₁.map f)).lookup key = (t.updates (l₂.map f)).lookup key
    rw [lookup_updates hc, lookup_updates hc, apply_perm _ hcons₁ hperm]

end Orders

/-! ## 5. The entries of a hash map in one batch -/

section Batch

variable {S κ ν ε β : Type} (N : NodeStore S) (e : SmtError → ε) (f : κ × ν → H256 × Option H256)
  (out : List (κ × ν) → β) (ord : IterOrder κ ν) (root : H256) (x : Run ε (Table κ ν))

/-- The entries `x` of the map are written in the order of the iteration. -/
def writeBatch : Action S ε (H256 × β) := do
  let touched ← Action.lift fun _ => x
  let newRoot ← (updateMany N root ((ord.order touched.pairs).map f)).mapErr e
  return (newRoot, out (ord.order touched.pairs))

variable {N e f out root x} {s s' : S} {touched : Table κ ν}

theorem writeBatch_error {y : Fault ε} (h : x = .error y) :
    writeBatch N e f out ord root x s = (.error y, s) := by
  rw [writeBatch, bind_apply, lift_apply, h]

theorem writeBatch_eq (h : x = .ok touched) : writeBatch N e f out ord root x s =
    let w := updateMany N root ((ord.order touched.pairs).map f) s
    ((w.1.mapErr e).map (·, out (ord.order touched.pairs)), w.2) := by
  rw [writeBatch, bind_lift h]
  rcases hu : updateMany N root ((ord.order touched.pairs).map f) s with ⟨(_ | _) | r, s'⟩
  all_goals
    rw [bind_apply, mapErr, hu]
    rfl

theorem writeBatch_ok {ord : IterOrder κ ν} {r : H256} {b : β}
    (h : writeBatch N e f out ord root x s = (.ok (r, b), s')) :
    ∃ touched, x = .ok touched ∧ b = out (ord.order touched.pairs) ∧
      updateMany N root ((ord.order touched.pairs).map f) s = (.ok r, s') := by
  cases ht : x with
  | error y =>
    rw [writeBatch_error ord ht] at h
    cases h
  | ok touched =>
    rw [writeBatch_eq ord ht] at h
    rcases hu : updateMany N root ((ord.order touched.pairs).map f) s with ⟨(_ | _) | r', t⟩
    all_goals rw [hu] at h; cases h
    exact ⟨touched, rfl, rfl, hu⟩

/-- Node stores that answer alike give the same result. -/
theorem writeBatch_sim {T : Type} {M : NodeStore T} {R : S → T → Prop} (H : StoreSim N M R)
    (x : Run ε (Table κ ν)) :
    Rel R (writeBatch N e f out ord root x) (writeBatch M e f out ord root x) :=
  rel_bind (rel_lift fun _ _ _ => rfl) fun _ =>
    rel_bind (rel_mapErr (updateMany_sim H _ _) _) fun _ => rel_pure _

/-- **The order of the iteration is irrelevant exactly when entries of one key agree.** -/
theorem writeBatch_order_iff {hash : Node → H256} {𝒩 : Set Node} {t : Tree} (hN : N.Lawful hash)
    (hg : GoodNodes hash 𝒩) (hroot : Rooted N hash 𝒩 s root t)
    (hlog : ∀ touched, x = .ok touched →
      ∀ ord : IterOrder κ ν, ∀ n ∈ putsOf N s root ((ord.order touched.pairs).map f), n ∈ 𝒩) :
    (∀ ord₁ ord₂, (writeBatch N e f out ord₁ root x s).1.map Prod.fst =
        (writeBatch N e f out ord₂ root x s).1.map Prod.fst) ↔
      ∀ touched, x = .ok touched → Consistent (touched.pairs.map f) := by
  classical
  cases x with
  | error y => exact iff_of_true (fun _ _ => rfl) fun touched h => by cases h
  | ok touched =>
    have hrun : ∀ ord : IterOrder κ ν,
        ∃ r, (updateMany N root ((ord.order touched.pairs).map f) s).1 = .ok r ∧
          (writeBatch N e f out ord root (.ok touched) s).1.map Prod.fst = .ok r := fun ord => by
      obtain ⟨r, s', hr, _⟩ := hroot.updateMany hN hg (hlog touched rfl ord)
      refine ⟨r, by rw [hr], ?_⟩
      rw [writeBatch_eq ord rfl, hr]
      rfl
    have hperm : ∀ l : List (κ × ν), l.Perm touched.pairs → ∀ n ∈ putsOf N s root (l.map f),
        n ∈ 𝒩 := fun l hl => by
      obtain ⟨ord, rfl⟩ := exists_of_perm hl
      exact hlog touched rfl ord
    simp only [Except.ok.injEq, forall_eq']
    rw [← order_irrelevant_iff hN hg hroot touched.pairs f hperm]
    constructor
    · intro h l₁ l₂ h₁ h₂
      obtain ⟨ord₁, rfl⟩ := exists_of_perm h₁
      obtain ⟨ord₂, rfl⟩ := exists_of_perm h₂
      obtain ⟨r₁, hu₁, ho₁⟩ := hrun ord₁
      obtain ⟨r₂, hu₂, ho₂⟩ := hrun ord₂
      have h12 := h ord₁ ord₂
      rw [ho₁, ho₂] at h12
      rw [hu₁, hu₂, Except.ok.inj h12]
    · intro h ord₁ ord₂
      obtain ⟨r₁, hu₁, ho₁⟩ := hrun ord₁
      obtain ⟨r₂, hu₂, ho₂⟩ := hrun ord₂
      have h12 := h _ _ (ord₁.perm _) (ord₂.perm _)
      rw [hu₁, hu₂] at h12
      rw [ho₁, ho₂, Except.ok.inj h12]

end Batch

end Sahyadri.Smt
