import Sahyadri.Smt.Honest
import Mathlib.Data.Nat.Bitwise

/-!
# `crypto/smt`: `leaves_after` lists the tree page by page

* `Pages`: calls of `leaves_after`, each with the last key of the page before, until a page is
  empty. `pages_complete`: they list every entry once, and inserting the listed entries into an
  empty tree gives the root again.
* `tree_persistent`: the new root answers with the changes, the old root answers as before, and an
  overlay over a base store gives the same as the base store itself.
-/

namespace Sahyadri.Smt

open Lib List Trie

/-! ## 1. The order of the keys -/

variable {d i j depth : Nat} {a b k path : H256}

/-- **Keys are ordered by their first differing bit.** -/
theorem bytes_lt_of_bit (hd : d < treeDepth) (hag : ∀ i < d, keyBit a i = keyBit b i)
    (ha : keyBit a d = false) (hb : keyBit b d = true) : a.bytes < b.bytes := by
  have hlen : d / 8 < 32 := by unfold treeDepth at hd; omega
  -- the bytes before the differing one have all their bits among the first `d`
  refine List.lt_iff_exists.mpr (.inr ⟨d / 8, by rw [a.length_eq]; exact hlen, by
    rw [b.length_eq]; exact hlen, fun j hj => byte_eq_of_bits _ _ fun m _ => hag _ (by omega), ?_⟩)
  have e : 8 * (d / 8) + (7 - (7 - d % 8)) = d := by omega
  refine UInt8.lt_iff_toNat_lt.mpr (Nat.lt_of_testBit (7 - d % 8) ?_ ?_ fun m hm => ?_)
  · rw [testBit_byte a _ (by omega), e, ha]
  · rw [testBit_byte b _ (by omega), e, hb]
  · by_cases hm8 : m < 8
    · rw [testBit_byte a _ hm8, testBit_byte b _ hm8]
      exact hag _ (by omega)
    · rw [testBit_byte_high _ (not_lt.mp hm8), testBit_byte_high _ (not_lt.mp hm8)]

theorem keyBit_setBit (k : H256) (hi : i < treeDepth) (j : Nat) :
    keyBit (setBit k i) j = (decide (i = j) || keyBit k j) := by
  have hlt : i / 8 < k.bytes.length := by rw [k.length_eq]; unfold treeDepth at hi; omega
  have hone : ∀ m, m < 8 → ((1 : UInt8) <<< UInt8.ofNat m).toNat = 2 ^ m := by decide
  unfold keyBit setBit
  rw [getElem?_modify]
  by_cases hbyte : i / 8 = j / 8
  · have hj : j / 8 < k.bytes.length := hbyte ▸ hlt
    simp only [getElem?_eq_getElem hj, if_pos hbyte, Option.map_eq_map, Option.map_some,
      Option.getD_some, UInt8.toNat_or, Nat.testBit_or, hone (7 - i % 8) (by omega),
      Nat.testBit_two_pow]
    rw [Bool.or_comm]
    congr 1
    exact decide_eq_decide.mpr (by omega)
  · have hne : i ≠ j := fun h => hbyte (by rw [h])
    simp [if_neg hbyte, hne]

theorem keyBit_subtreeMax (path : H256) (depth : Nat) (hj : j < treeDepth) :
    keyBit (subtreeMax path depth) j = (decide (depth ≤ j) || keyBit path j) := by
  have hfold : ∀ (l : List Nat) (k : H256), (∀ i ∈ l, i < treeDepth) →
      keyBit (l.foldl setBit k) j = (decide (j ∈ l) || keyBit k j) := by
    intro l
    induction l with
    | nil => intro k _; simp
    | cons i l ih =>
      intro k hl
      rw [foldl_cons, ih _ fun x hx => hl x (mem_cons_of_mem _ hx),
        keyBit_setBit k (hl i mem_cons_self)]
      by_cases hij : i = j
      · simp [hij]
      · simp [hij, Ne.symm hij]
  rw [subtreeMax, hfold _ _ fun i hi => by rw [mem_range'_1] at hi; omega]
  congr 1
  refine decide_eq_decide.mpr ?_
  rw [mem_range'_1]
  omega

theorem exists_first_diff (hne : a ≠ b) :
    ∃ d < treeDepth, (∀ i < d, keyBit a i = keyBit b i) ∧ keyBit a d ≠ keyBit b d := by
  have hex : ∃ d, d < treeDepth ∧ keyBit a d ≠ keyBit b d := by
    by_contra hno
    push Not at hno
    exact hne (keyBit_separates a b hno)
  refine ⟨Nat.find hex, (Nat.find_spec hex).1, fun i hi => ?_, (Nat.find_spec hex).2⟩
  by_contra hdiff
  exact Nat.find_min hex hi ⟨lt_trans hi (Nat.find_spec hex).1, hdiff⟩

/-- **No key under a path lies above its `subtree_max`.** -/
theorem le_subtreeMax (hag : ∀ i < depth, keyBit k i = keyBit path i) :
    k.bytes ≤ (subtreeMax path depth).bytes := by
  by_cases heq : k = subtreeMax path depth
  · rw [← heq]
    exact List.le_refl _
  obtain ⟨d, hd, hbefore, hdiff⟩ := exists_first_diff heq
  rw [keyBit_subtreeMax path depth hd] at hdiff
  have hdepth : depth ≤ d := Nat.le_of_not_lt fun hlt => hdiff (by simp [hag d hlt, hlt])
  simp only [hdepth, decide_true, Bool.true_or, ne_eq, Bool.not_eq_true] at hdiff
  refine List.le_of_lt (bytes_lt_of_bit hd hbefore hdiff ?_)
  simp [keyBit_subtreeMax path depth hd, hdepth]

theorem keyBit_empty (i : Nat) : keyBit .empty i = false := by
  have hbyte : (H256.empty.bytes[i / 8]?).getD 0 = 0 := by
    show ((replicate 32 (0 : UInt8))[i / 8]?).getD 0 = 0
    rw [getElem?_replicate]
    split <;> rfl
  rw [keyBit, hbyte]
  exact Nat.zero_testBit _

/-- **The entries of a trie ascend from left to right.** -/
theorem ascending_toList {t : Tree} (hc : Canon h256Keying 0 t) :
    t.toList.Pairwise fun x y => x.1.bytes < y.1.bytes :=
  pairwise_toList (fun _ _ _ hd hag ha hb => bytes_lt_of_bit hd hag ha hb) hc
    fun _ _ _ _ _ hi => absurd hi (Nat.not_lt_zero _)

/-! ## 2. The traversal -/

/-- The key lies above the cursor. -/
def above (after : Option H256) (key : H256) : Bool :=
  after.all fun a => decide (a.bytes < key.bytes)

section Traversal

variable {S : Type} {N : NodeStore S} {hash : Node → H256} {𝒩 : Set Node}

/-- A stack entry: a held subtrie, and its place as a path followed by zero bits. -/
structure Placed (N : NodeStore S) (hash : Node → H256) (𝒩 : Set Node) (s : S)
    (t : Tree) (depth : Nat) (path : H256) : Prop where
  canon : Canon h256Keying depth t
  under : Under h256Keying depth path t
  zeros : ∀ i, depth ≤ i → i < treeDepth → keyBit path i = false
  within : Within hash 𝒩 t
  held : Held hash N s t

/-- The entries that a stack stands for. -/
def pending (ts : List (Tree × Nat × H256)) : List (H256 × H256) := ts.flatMap fun e => e.1.toList

variable {depth limit : Nat} {path root : H256} {l r t : Tree} {s : S}

section

variable (h : Placed N hash 𝒩 s (.branch l r) depth path)

include h

theorem Placed.depth_lt : depth < treeDepth := Canon.depth_lt h.canon h.under

theorem Placed.left : Placed N hash 𝒩 s l (depth + 1) path where
  canon := h.canon.1
  under := h.under.left h.canon (by simp [h256Keying, h.zeros depth (le_refl _) h.depth_lt])
  zeros i hi hlt := h.zeros i (Nat.le_of_succ_le hi) hlt
  within := (within_branch.mp h.within).2.1
  held := (held_branch.mp h.held).2.1

theorem Placed.right : Placed N hash 𝒩 s r (depth + 1) (setBit path depth) where
  canon := h.canon.2.1
  under := by
    intro p hp i hi
    show keyBit p.1 i = keyBit (setBit path depth) i
    rw [keyBit_setBit path h.depth_lt]
    rcases Nat.lt_succ_iff_lt_or_eq.mp hi with hlt | rfl
    · have hp' : keyBit p.1 i = keyBit path i := h.under p (mem_append_right _ hp) i hlt
      simp [hp', ne_of_gt hlt]
    · have hp' : keyBit p.1 i = true := h.canon.2.2.2.1 p hp
      simp [hp']
  zeros i hi hlt := by
    rw [keyBit_setBit path h.depth_lt, h.zeros i (Nat.le_of_succ_le hi) hlt]
    simp only [Bool.or_false, decide_eq_false_iff_not]
    omega
  within := (within_branch.mp h.within).2.2
  held := (held_branch.mp h.held).2.2

end

variable {after : Option H256}

/-- **A skipped subtrie holds nothing above the cursor.** -/
theorem Placed.skipped (h : Placed N hash 𝒩 s t depth path)
    (hskip : (after.any fun a => decide ((subtreeMax path depth).bytes ≤ a.bytes)) = true) :
    t.toList.filter (fun e => above after e.1) = [] := by
  obtain ⟨a, rfl, ha⟩ : ∃ a, after = some a ∧ (subtreeMax path depth).bytes ≤ a.bytes := by
    simpa [Option.any_eq_true] using hskip
  refine filter_eq_nil_iff.mpr fun e he => ?_
  have hle : e.1.bytes ≤ a.bytes := List.le_trans (le_subtreeMax (h.under e he)) ha
  simpa [above] using hle

/-- **The loop returns the first entries of its stack above the cursor.** -/
theorem leavesLoop_eq (hg : GoodNodes hash 𝒩)
    (ts : List (Tree × Nat × H256)) (out : List (H256 × H256))
    (h : ∀ e ∈ ts, Placed N hash 𝒩 s e.1 e.2.1 e.2.2) (hout : out.length < limit) :
    leavesLoop N s after limit (stackOf hash ts) out =
      .ok (out ++ ((pending ts).filter fun e => above after e.1).take (limit - out.length)) := by
  induction hw :
    stackWeight (stackOf hash ts) using Nat.strong_induction_on generalizing ts out with
  | _ w ih =>
    cases ts with
    | nil => simp [stackOf, leavesLoop, pending, pure, Except.pure]
    | cons e ts =>
      obtain ⟨t, depth, path⟩ := e
      obtain ⟨ht, hts⟩ := forall_mem_cons.mp h
      have hpos : 0 < 3 ^ (treeDepth + 1 - depth) := Nat.pow_pos (by decide)
      rw [stackWeight_cons] at hw
      have hrest : ∀ out : List (H256 × H256), out.length < limit →
          leavesLoop N s after limit (stackOf hash ts) out = .ok (out ++
            ((pending ts).filter fun e => above after e.1).take (limit - out.length)) :=
        fun out ho => ih _ (by omega) ts out hts ho rfl
      have hpend : pending ((t, depth, path) :: ts) = t.toList ++ pending ts := by
        simp [pending]
      rw [hpend, filter_append]
      show leavesLoop N s after limit ((rootOf hash t, depth, path) :: stackOf hash ts) out = _
      rw [leavesLoop.eq_def]
      simp only
      split
      · rename_i hempty
        obtain rfl : t = .empty := (rootOf_eq_empty hg ht.within).mp hempty
        rw [hrest out hout]
        rfl
      rename_i hne
      split
      · rename_i hskip
        rw [ht.skipped hskip, hrest out hout]
        rfl
      cases t with
      | empty => exact absurd rfl hne
      | leaf k v =>
        simp only [fetch_leaf ht.held, Run.ok_bind, toList]
        by_cases hk : above after k = true
        · have hk' : (after.all fun a => decide (a.bytes < k.bytes)) = true := hk
          rw [if_pos hk', filter_cons_of_pos (by exact hk), filter_nil, singleton_append]
          split
          · rename_i hfull
            have hone : limit - out.length = 1 := by
              rw [length_append, length_singleton] at hfull
              omega
            rw [hone]
            rfl
          · rename_i hroom
            have hlen : (out ++ [(k, v)]).length = out.length + 1 := by simp
            rw [hrest _ (by omega), hlen, show limit - out.length = (limit - (out.length + 1)) +
              1 by omega, take_succ_cons, append_assoc, singleton_append]
        · have hk' : ¬ (after.all fun a => decide (a.bytes < k.bytes)) = true := hk
          rw [if_neg hk', filter_cons_of_neg (by exact hk), filter_nil, nil_append, hrest out hout]
      | branch l r =>
        have hd : depth < treeDepth := ht.depth_lt
        rw [fetch_branch ht.held]
        simp only [Run.ok_bind, if_neg (not_le.mpr hd)]
        have hlt := hw ▸ stackWeight_children hash l r hd path (setBit path depth) ts
        have hstep := ih _ hlt ((l, depth + 1, path) :: (r, depth + 1, setBit path depth) :: ts)
          out (forall_mem_cons.mpr ⟨ht.left, forall_mem_cons.mpr ⟨ht.right, hts⟩⟩) hout rfl
        refine hstep.trans ?_
        simp [pending, toList]

/-- **`leaves_after` on a held tree**: the first entries above the cursor. -/
theorem leavesAfter_eq (hg : GoodNodes hash 𝒩) (h : Rooted N hash 𝒩 s root t)
    (after : Option H256) (limit : Nat) : leavesAfter N s root after limit =
      .ok ((t.toList.filter fun e => above after e.1).take limit) := by
  obtain ⟨hc, hw, hh, rfl⟩ := h
  have hplaced : Placed N hash 𝒩 s t 0 .empty :=
    ⟨hc, under_zero _ _, fun i _ _ => keyBit_empty i, hw, hh⟩
  unfold leavesAfter
  split
  · rename_i hstop
    rcases hstop with hstop | rfl
    · rw [(rootOf_eq_empty hg hw).mp hstop]
      simp [toList, pure, Except.pure]
    · rfl
  · rename_i hstop
    have hloop : leavesLoop N s after limit (stackOf hash [(t, 0, .empty)]) [] = _ :=
      leavesLoop_eq hg _ _ (by simpa using hplaced) (Nat.pos_of_ne_zero fun h => hstop (.inr h))
    simpa [stackOf, pending] using hloop

end Traversal

/-! ## 3. Pages -/

section Pages

variable {S : Type} {N : NodeStore S}

/-- `Pages after listed`: calls of `leaves_after`, each with the last key of the page before as its
    cursor, list `listed` and end with an empty page. -/
inductive Pages (N : NodeStore S) (s : S) (root : H256) (limit : Nat) :
    Option H256 → List (H256 × H256) → Prop
  | done {after : Option H256} : leavesAfter N s root after limit = .ok [] →
      Pages N s root limit after []
  | more {after : Option H256} {page : List (H256 × H256)} {last : H256 × H256}
      {rest : List (H256 × H256)} : leavesAfter N s root after limit = .ok (page ++ [last]) →
      Pages N s root limit (some last.1) rest → Pages N s root limit after (page ++ last :: rest)

variable {page l rest listed : List (H256 × H256)} {last : H256 × H256}

/-- A page that ends with `last`, and what follows it. -/
theorem eq_page_append {n : Nat} (h : l.take n = page ++ [last]) :
    l = page ++ last :: l.drop n := by
  conv_lhs => rw [← take_append_drop n l, h]
  rw [append_assoc, singleton_append]

variable {after : Option H256}

/-- Above the last key of a page lies exactly what follows the page. -/
theorem filter_above_last {entries : List (H256 × H256)}
    (hasc : entries.Pairwise fun x y => x.1.bytes < y.1.bytes)
    (h : (entries.filter fun e => above after e.1) = page ++ last :: rest) :
    (entries.filter fun e => above (some last.1) e.1) = rest := by
  have hmem : last ∈ entries.filter fun e => above after e.1 := by
    rw [h]
    exact mem_append_right page mem_cons_self
  have hlast : above after last.1 = true := (mem_filter.mp hmem).2
  -- what lies above the last key lies above the cursor
  have hsub : (entries.filter fun e => above (some last.1) e.1) =
      (entries.filter fun e => above after e.1).filter fun e => above (some last.1) e.1 := by
    rw [filter_filter]
    refine filter_congr fun e _ => ?_
    cases after with
    | none => simp [above]
    | some a =>
      have ha : a.bytes < last.1.bytes := by simpa [above] using hlast
      have htrans : last.1.bytes < e.1.bytes → a.bytes < e.1.bytes := List.lt_trans ha
      by_cases he : last.1.bytes < e.1.bytes
      · simp [above, he, htrans he]
      · simp [above, he]
  have hpw := hasc.filter fun e => above after e.1
  rw [h, pairwise_append, pairwise_cons] at hpw
  obtain ⟨_, ⟨hrest, _⟩, hpage⟩ := hpw
  rw [hsub, h, filter_append, filter_cons]
  have hnil : (page.filter fun e => above (some last.1) e.1) = [] :=
    filter_eq_nil_iff.mpr fun e he => by
      have hlt := hpage e he last mem_cons_self
      simpa [above] using List.le_of_lt hlt
  have hself : above (some last.1) last.1 = false := by
    simp [above]
  have hall : (rest.filter fun e => above (some last.1) e.1) = rest :=
    filter_eq_self.mpr fun e he => by simpa [above] using hrest e he
  rw [hnil, hself, hall]
  rfl

variable {s : S} {root : H256} {limit : Nat} {entries : List (H256 × H256)}

/-- **Paging lists what lies above the cursor**, once, and comes to an end. -/
theorem pages_iff (hasc : entries.Pairwise fun x y => x.1.bytes < y.1.bytes) (hlimit : 1 ≤ limit)
    (hcall : ∀ after, leavesAfter N
      s root after limit = .ok ((entries.filter fun e => above after e.1).take limit)) :
    Pages N s root limit after listed ↔ listed = entries.filter fun e => above after e.1 := by
  constructor
  · intro h
    induction h with
    | @done after hpage =>
      rw [hcall] at hpage
      rcases take_eq_nil_iff.mp (Except.ok.inj hpage) with h0 | hnil
      · omega
      · exact hnil.symm
    | @more after page last rest hpage _ ih =>
      rw [hcall] at hpage
      have hsplit := eq_page_append (Except.ok.inj hpage)
      rw [filter_above_last hasc hsplit] at ih
      rw [ih, ← hsplit]
  · intro h
    induction hn : listed.length using Nat.strong_induction_on generalizing after listed with
    | _ n ih =>
      rcases eq_nil_or_concat ((entries.filter fun e => above after e.1).take limit) with
        hnil | ⟨page, last, hpage⟩
      · have hlisted : listed = [] := by
          rw [h]
          exact (take_eq_nil_iff.mp hnil).resolve_left (by omega)
        rw [hlisted]
        exact .done (by rw [hcall, hnil])
      · rw [concat_eq_append] at hpage
        have hsplit := eq_page_append hpage
        have hlisted := h.trans hsplit
        rw [hlisted]
        refine .more (by rw [hcall, hpage]) (ih _ ?_ (filter_above_last hasc hsplit).symm rfl)
        rw [← hn, hlisted, length_append, length_cons]
        omega

end Pages

/-! ## 4. The whole tree -/

section Whole

variable {S : Type} {N : NodeStore S} {σ : Sponge}

def insertions (entries : List (H256 × H256)) : Changes := entries.map fun e => (e.1, some e.2)

theorem mapOf_insertions {entries : List (H256 × H256)} {m : KeyMap}
    (hmem : ∀ k v, (k, v) ∈ entries ↔ m k = some v) : mapOf (insertions entries) = m := by
  funext key
  rcases KeyMap.apply_cases (fun _ => none)
    (insertions entries) key with ⟨hno, he⟩ | ⟨x, hx, hk, he⟩
  · rw [mapOf, he]
    cases hm : m key with
    | none => rfl
    | some v =>
      have hin := mem_map_of_mem (f := fun e => (e.1, some e.2)) ((hmem key v).mpr hm)
      exact absurd rfl (hno _ hin)
  · obtain ⟨e, hin, rfl⟩ := mem_map.mp hx
    rw [mapOf, he, ← hk, (hmem e.1 e.2).mp hin]

/-- **`leaves_after` pages through the whole tree exactly once.** It returns the first entries above
    the cursor in ascending order, the pages list every entry once, and inserting what they list
    gives the root again. -/
theorem pages_complete (hN : N.Lawful (Node.hash σ)) (s : S) (cs : Changes)
    (hg : GoodNodes (Node.hash σ) {n | n ∈ putsOf N s .empty cs}) :
    ∃ root s' entries, updateMany N .empty cs s = (.ok root, s') ∧
    entries.Pairwise (fun x y => x.1.bytes < y.1.bytes) ∧
      (∀ k v, (k, v) ∈ entries ↔ mapOf cs k = some v) ∧
      (∀ after limit, 1 ≤ limit → leavesAfter N s' root after limit =
        .ok ((entries.filter fun e => above after e.1).take limit)) ∧
      (∀ limit, 1 ≤ limit → ∀ listed, Pages N s' root limit none listed ↔ listed = entries) ∧
      ∀ (T : Type) (M : NodeStore T) (t : T), M.Lawful (Node.hash σ) →
        GoodNodes (Node.hash σ) {n | n ∈ putsOf M t .empty (insertions entries)} →
        (updateMany M .empty (insertions entries) t).1 = .ok root := by
  obtain ⟨root, s', hrun, hr⟩ := rooted_fromEmpty hN hg s cs fun n hn => hn
  have hasc := ascending_toList hr.canon
  have hmem : ∀ k v, (k, v) ∈ (treeOf cs).toList ↔ mapOf cs k = some v := fun k v => by
    rw [← lookup_eq_some_iff hr.canon, ← lookup_treeOf]
  have hcall := leavesAfter_eq hg hr
  refine ⟨root, s', (treeOf cs).toList, hrun, hasc, hmem, fun after limit _ => hcall after limit,
    fun limit hlimit listed => ?_, fun T M t hM hgM => ?_⟩
  · rw [pages_iff hasc hlimit fun after => hcall after limit]
    simp [above]
  · have hrun' := run_fromEmpty hM hgM t (insertions (treeOf cs).toList) fun n hn => hn
    have htree : treeOf (insertions (treeOf cs).toList) = treeOf cs := by
      refine (lookup_eq_iff (canon_treeOf _) (canon_treeOf _)).mp ?_
      rw [lookup_treeOf, lookup_treeOf, mapOf_insertions hmem]
    rw [hrun'.root, htree, ← hr.root_eq]

theorem pages_of_two :
    ∃ root s' listed, updateMany polyStore .empty
        [(.ofNat 1, some (.ofNat 7)), (.ofNat 2, some (.ofNat 8))] ⟨[]⟩ = (.ok root, s') ∧
      Pages polyStore s' root 1 none listed ∧
      (.ofNat 1, .ofNat 7) ∈ listed ∧ (.ofNat 2, .ofNat 8) ∈ listed := by
  obtain ⟨root, s', entries, hrun, _, hmem, _, hpages, _⟩ := pages_complete
    (memStore_lawful polySponge) ⟨[]⟩ [(.ofNat 1, some (.ofNat 7)), (.ofNat 2, some (.ofNat 8))]
      (goodNodes_of_list (l := putsOf polyStore ⟨[]⟩ .empty
        [(.ofNat 1, some (.ofNat 7)), (.ofNat 2, some (.ofNat 8))]) (by decide +kernel)
        fun n hn => hn)
  exact ⟨root, s', entries, hrun, (hpages 1 (by decide) entries).mpr rfl, (hmem _ _).mpr rfl,
    (hmem _ _).mpr rfl⟩

end Whole

/-! ## 5. Persistence -/

section Persistent

variable {S T : Type} {N : NodeStore S} {M : NodeStore T} {σ : Sponge}

open Node

/-- The overlay over `s` runs as the store itself does. -/
theorem overlay_sim (hN : N.Lawful (hash σ)) (s : S) : StoreSim (overlayStore σ N.get) N fun o t =>
      o.base = s ∧ ∀ h, (overlayStore σ N.get).get o h = N.get t h where
  get h k := h.2 k
  put_fst _ n := (hN.put_fst _ n).symm
  put_snd h n := by
    refine ⟨h.1, fun k => ?_⟩
    rw [(overlayStore_lawful σ N.get).get_put, hN.get_put, h.2]

/-- **The sparse Merkle tree is a persistent map.** -/
theorem tree_persistent (hN : N.Lawful (hash σ)) (s : S) (cs₀ cs : Changes)
    (hg : GoodNodes (hash σ) {n | n ∈ putsOf N s .empty (cs₀ ++ cs)}) :
    ∃ r s₁ r' s₂, updateMany N .empty cs₀ s = (.ok r, s₁) ∧ updateMany N r cs s₁ = (.ok r', s₂) ∧
      -- the new root answers with the last change of a key, or as the old root did
      (∀ key, get N s₂ r' key =
        match lastChange cs key with
        | some value => .ok value
        | none => get N s₁ r key) ∧
      -- the old root answers as before
      (∀ key, get N s₂ r key = get N s₁ r key ∧ prove N s₂ r key = prove N s₁ r key) ∧
      (∀ after limit, leavesAfter N s₂ r after limit = leavesAfter N s₁ r after limit) ∧
      -- an overlay over the base store
      ∃ o, updateMany (overlayStore σ N.get) r cs (.new s₁) = (.ok r', o) ∧ o.base = s₁ ∧
        (∀ root key, get (overlayStore σ N.get) o root key = get N s₂ root key) ∧
        ∀ (T : Type) (M : NodeStore T) (t : T), M.Lawful (hash σ) →
        (∀ h, M.get t h = (overlayStore σ N.get).get o h) →
          GoodNodes (hash σ) {n | n ∈ putsOf N s .empty (cs₀ ++ cs) ∨ n ∈ putsOf M t r cs} →
          ∃ t', updateMany M r cs t = (.ok r', t') ∧
          ∀ key, get M t' r' key = get (overlayStore σ N.get) o r' key := by
  obtain ⟨r, s₁, hrun₀, hr, _⟩ :=
    (rooted_empty s).updateMany hN hg fun n hn => putsOf_subset_append s .empty cs₀ cs hn
  have hlog : ∀ n ∈ putsOf N s₁ r cs, n ∈ putsOf N s .empty (cs₀ ++ cs) := fun n hn => by
    rw [putsOf_append hrun₀]
    exact mem_append_left _ hn
  obtain ⟨r', s₂, hrun₁, hr', hkeep⟩ := hr.updateMany hN hg hlog
  have hold := hkeep r _ hr
  -- the overlay starts with the answers of the base, so it runs as the base does
  have hov := updateMany_sim (overlay_sim hN s₁) r cs (.new s₁) s₁ ⟨rfl, fun _ => rfl⟩
  rcases hrunₒ : updateMany (overlayStore σ N.get) r cs (.new s₁) with ⟨z, o⟩
  rw [hrun₁, hrunₒ] at hov
  obtain ⟨rfl, hov⟩ := hov
  refine ⟨r, s₁, r', s₂, hrun₀, hrun₁, fun key => ?_, fun key => ⟨?_, ?_⟩, fun after limit => ?_,
    o, hrunₒ, hov.1, fun root key => get_sim (overlay_sim hN s₁) hov root key, ?_⟩
  · rw [hr'.get_eq hg, hr.get_eq hg, lookup_updates hr.canon, KeyMap.apply_eq]
    cases lastChange cs key <;> rfl
  · rw [hold.get_eq hg, hr.get_eq hg]
  · rw [hold.prove_eq hg, hr.prove_eq hg]
  · rw [leavesAfter_eq hg hold, leavesAfter_eq hg hr]
  · intro T M t hM hget hg'
    have hgets : ∀ h, M.get t h = N.get s₂ h := fun h => (hget h).trans (hov.2 h)
    have ht :
        Rooted M (hash σ) {n | n ∈ putsOf N s .empty (cs₀ ++ cs) ∨ n ∈ putsOf M t r cs} t r _ :=
      ⟨hold.canon, fun n hn => .inl (hold.within n hn),
      fun n hn => (hgets _).trans (hold.held n hn), hold.root_eq⟩
    obtain ⟨q, t', hrun₂, hq, _⟩ := ht.updateMany hM hg' fun n hn => .inr hn
    cases hq.root_eq.trans hr'.root_eq.symm
    refine ⟨t', hrun₂, fun key => ?_⟩
    rw [hq.get_eq hg', get_sim (overlay_sim hN s₁) hov, hr'.get_eq hg]

/-- A key added and one removed: the old root still gives both its entries. -/
theorem tree_persistent_example :
    ∃ r s₁ r' s₂, updateMany polyStore .empty
        [(.ofNat 1, some (.ofNat 7)), (.ofNat 2, some (.ofNat 8))] ⟨[]⟩ = (.ok r, s₁) ∧
      updateMany polyStore r [(.ofNat 3, some (.ofNat 9)), (.ofNat 1, none)] s₁ = (.ok r', s₂) ∧
      get polyStore s₂ r' (.ofNat 3) = .ok (some (.ofNat 9)) ∧
      get polyStore s₂ r' (.ofNat 1) = .ok none ∧
      get polyStore s₂ r (.ofNat 1) = get polyStore s₁ r (.ofNat 1) := by
  obtain ⟨r, s₁, r', s₂, h1, h2, h3, h4, _⟩ := tree_persistent (memStore_lawful polySponge) ⟨[]⟩
    [(.ofNat 1, some (.ofNat 7)), (.ofNat 2, some (.ofNat 8))]
    [(.ofNat 3, some (.ofNat 9)), (.ofNat 1, none)]
    (goodNodes_of_list (l := putsOf polyStore ⟨[]⟩ .empty
      [(.ofNat 1, some (.ofNat 7)), (.ofNat 2, some (.ofNat 8)), (.ofNat 3, some (.ofNat 9)),
        (.ofNat 1, none)]) (by decide +kernel) fun n hn => hn)
  exact ⟨r, s₁, r', s₂, h1, h2, h3 (.ofNat 3), h3 (.ofNat 1), (h4 (.ofNat 1)).1⟩

end Persistent

end Sahyadri.Smt
