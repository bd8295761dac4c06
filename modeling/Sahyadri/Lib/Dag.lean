import Mathlib.Data.List.Nodup
import Mathlib.Data.List.Pairwise
import Mathlib.Logic.Relation

/-!
# A DAG that grows block by block from a first block

* `Dag β`: the parents of every block, and the first block, which has none.
-/

namespace Sahyadri.Lib

open List Relation

/-- The parents of every block. Those listed for the first block are not looked at. -/
structure Dag (β : Type) where
  genesis : β
  parents : β → List β

namespace Dag

variable {β : Type} (D : Dag β)

/-- `x` is a parent of `y`. -/
def Edge (x y : β) : Prop := y ≠ D.genesis ∧ x ∈ D.parents y

/-- `x` is a proper ancestor of `y`. -/
def Past : β → β → Prop := TransGen D.Edge

/-- `x` is `y` or an ancestor of it. -/
def Below (x y : β) : Prop := x = y ∨ D.Past x y

/-- Distinct, and neither is an ancestor of the other. -/
def Anticone (x y : β) : Prop := x ≠ y ∧ ¬ D.Past x y ∧ ¬ D.Past y x

/-- The blocks `bs`, newest first, added one at a time. -/
inductive Grown : List β → Prop where
  | start : Grown [D.genesis]
  | add {bs : List β} {b : β} (h : Grown bs) (hnew : b ∉ bs) (hne : D.parents b ≠ [])
      (hold : ∀ p ∈ D.parents b, p ∈ bs) (hanti : (D.parents b).Pairwise D.Anticone) :
      Grown (b :: bs)

/-! ## 1. Ancestors -/

section Ancestors

variable {D}
variable {x y z : β}

theorem Past.trans (h : D.Past x y) (h' : D.Past y z) : D.Past x z := TransGen.trans h h'

theorem Edge.past (h : D.Edge x y) : D.Past x y := .single h

theorem Below.refl (x : β) : D.Below x x := .inl rfl

theorem Below.past (h : D.Below x y) (h' : D.Past y z) : D.Past x z := by
  rcases h with rfl | h
  · exact h'
  · exact h.trans h'

theorem Past.below (h : D.Past x y) (h' : D.Below y z) : D.Past x z := by
  rcases h' with rfl | h'
  · exact h
  · exact h.trans h'

theorem Below.trans (h : D.Below x y) (h' : D.Below y z) : D.Below x z := by
  rcases h' with rfl | h'
  · exact h
  · exact .inr (h.past h')

theorem past_iff : D.Past x y ↔ y ≠ D.genesis ∧ ∃ p ∈ D.parents y, D.Below x p := by
  constructor
  · intro h
    obtain ⟨z, hz, hp⟩ := TransGen.tail'_iff.mp h
    exact ⟨hp.1, z, hp.2, (reflTransGen_iff_eq_or_transGen.mp hz).imp_left Eq.symm⟩
  · rintro ⟨hy, p, hp, rfl | h⟩
    · exact .single ⟨hy, hp⟩
    · exact .tail h ⟨hy, hp⟩

theorem past_of_parent (hy : y ≠ D.genesis) (hx : x ∈ D.parents y) : D.Past x y :=
  Edge.past ⟨hy, hx⟩

theorem not_past_genesis : ¬ D.Past x D.genesis := fun h => (past_iff.mp h).1 rfl

theorem Anticone.symm (h : D.Anticone x y) : D.Anticone y x := ⟨Ne.symm h.1, h.2.2, h.2.1⟩

instance : Std.Symm D.Anticone := ⟨fun _ _ => Anticone.symm⟩

end Ancestors

/-! ## 2. Growth -/

section Growth

variable {D} {bs : List β}

theorem Grown.genesis_mem (h : D.Grown bs) : D.genesis ∈ bs := by
  induction h with
  | start => exact mem_singleton_self _
  | add _ _ _ _ _ ih => exact mem_cons_of_mem _ ih

variable {x y b : β}

variable (h : D.Grown bs)

include h

theorem Grown.of_mem (hb : b ∈ bs) (hg : b ≠ D.genesis) :
    D.parents b ≠ [] ∧ (∀ p ∈ D.parents b, p ∈ bs) ∧ (D.parents b).Pairwise D.Anticone := by
  induction h with
  | start => exact absurd (mem_singleton.mp hb) hg
  | add h hnew hne hold hanti ih =>
    rcases mem_cons.mp hb with rfl | hb
    · exact ⟨hne, fun p hp => mem_cons_of_mem _ (hold p hp), hanti⟩
    · obtain ⟨h1, h2, h3⟩ := ih hb
      exact ⟨h1, fun p hp => mem_cons_of_mem _ (h2 p hp), h3⟩

theorem Grown.mem_of_past (hy : y ∈ bs) (hx : D.Past x y) : x ∈ bs := by
  induction h generalizing x y with
  | start =>
    rw [mem_singleton.mp hy] at hx
    exact absurd hx not_past_genesis
  | add h hnew hne hold hanti ih =>
    rcases mem_cons.mp hy with rfl | hy
    · obtain ⟨_, p, hp, hxp⟩ := past_iff.mp hx
      refine mem_cons_of_mem _ ?_
      rcases hxp with rfl | hxp
      · exact hold _ hp
      · exact ih (hold _ hp) hxp
    · exact mem_cons_of_mem _ (ih hy hx)

theorem Grown.mem_of_below (hy : y ∈ bs) (hx : D.Below x y) : x ∈ bs := by
  rcases hx with rfl | hx
  · exact hy
  · exact h.mem_of_past hy hx

/-- **No block is its own ancestor.** -/
theorem Grown.past_irrefl (hx : x ∈ bs) : ¬ D.Past x x := by
  induction h with
  | start =>
    rw [mem_singleton.mp hx]
    exact not_past_genesis
  | add h hnew hne hold hanti ih =>
    rcases mem_cons.mp hx with rfl | hx
    · intro hp
      obtain ⟨_, p, hpm, hxp⟩ := past_iff.mp hp
      exact hnew (h.mem_of_below (hold p hpm) hxp)
    · exact ih hx

/-- **Every block descends from the first.** -/
theorem Grown.genesis_below (hx : x ∈ bs) : D.Below D.genesis x := by
  induction h generalizing x with
  | start => exact .inl (mem_singleton.mp hx).symm
  | @add bs b h hnew hne hold hanti ih =>
    rcases mem_cons.mp hx with rfl | hx
    · obtain ⟨p, hp⟩ := exists_mem_of_ne_nil _ hne
      have hxg : x ≠ D.genesis := fun he => hnew (he ▸ h.genesis_mem)
      exact .inr ((ih (hold p hp)).past (past_of_parent hxg hp))
    · exact ih hx

end Growth

/-! ## 3. Agreement -/

section Agreement

variable {D} {D' : Dag β} {bs : List β}

/-- The two DAGs list the same parents for the blocks `bs`. -/
structure Agrees (D D' : Dag β) (bs : List β) : Prop where
  genesis : D'.genesis = D.genesis
  parents : ∀ b ∈ bs, D'.parents b = D.parents b

variable {x y : β}

variable (ha : D.Agrees D' bs)

include ha

theorem Agrees.edge_iff (hy : y ∈ bs) : D'.Edge x y ↔ D.Edge x y := by
  unfold Edge
  rw [ha.genesis, ha.parents y hy]

theorem Agrees.past_iff (h : D.Grown bs) (hy : y ∈ bs) : D'.Past x y ↔ D.Past x y := by
  constructor
  · intro hx
    induction hx with
    | single he => exact .single ((ha.edge_iff hy).mp he)
    | tail _ he ih =>
      have he := (ha.edge_iff hy).mp he
      exact .tail (ih (h.mem_of_past hy (.single he))) he
  · intro hx
    induction hx with
    | single he => exact .single ((ha.edge_iff hy).mpr he)
    | tail _ he ih => exact .tail (ih (h.mem_of_past hy (.single he))) ((ha.edge_iff hy).mpr he)

theorem Agrees.below_iff (h : D.Grown bs) (hy : y ∈ bs) :
    D'.Below x y ↔ D.Below x y := or_congr_right (ha.past_iff h hy)

theorem Agrees.anticone (h : D.Grown bs) (hx : x ∈ bs) (hy : y ∈ bs) (hxy : D.Anticone x y) :
    D'.Anticone x y := ⟨hxy.1, mt (ha.past_iff h hy).mp hxy.2.1, mt (ha.past_iff h hx).mp hxy.2.2⟩

end Agreement

/-! ## 4. Maximal blocks -/

section Maximal

/-- `R` is an antichain of blocks of `T`, and every block of `T` is below one of them. -/
structure Covers (D : Dag β) (T : β → Prop) (R : List β) : Prop where
  sub : ∀ r ∈ R, T r
  antichain : R.Pairwise D.Anticone
  cover : ∀ t, T t → ∃ r ∈ R, D.Below t r

/-- `l` lists the maximal blocks of `S`, each once. -/
structure MaximalOf (D : Dag β) (S : β → Prop) (l : List β) : Prop where
  nodup : l.Nodup
  mem_iff : ∀ x, x ∈ l ↔ S x ∧ ∀ y, S y → ¬ D.Past x y

variable {D} {S T : β → Prop} {R R' : List β}

theorem nodup_of_antichain (h : R.Pairwise D.Anticone) : R.Nodup := h.imp And.left

theorem Covers.of_antichain (h : R.Pairwise D.Anticone) : D.Covers (· ∈ R) R :=
  ⟨fun _ hr => hr, h, fun t ht => ⟨t, ht, .refl t⟩⟩

section

variable (h : D.Covers T R)

include h

theorem Covers.perm (hp : R.Perm R') : D.Covers T R' := by
  refine ⟨fun r hr => h.sub r (hp.mem_iff.mpr hr), hp.pairwise h.antichain .symm, fun t ht => ?_⟩
  obtain ⟨r, hr, hb⟩ := h.cover t ht
  exact ⟨r, hp.mem_iff.mp hr, hb⟩

theorem Covers.mono (hsub : ∀ t, T t → S t) (hcover : ∀ s, S s → ∃ t, T t ∧ D.Below s t) :
    D.Covers S R := by
  refine ⟨fun r hr => hsub r (h.sub r hr), h.antichain, fun s hs => ?_⟩
  obtain ⟨t, ht, hst⟩ := hcover s hs
  obtain ⟨r, hr, htr⟩ := h.cover t ht
  exact ⟨r, hr, hst.trans htr⟩

theorem Covers.congr (he : ∀ x, T x ↔ S x) : D.Covers S R :=
  h.mono (fun t => (he t).mp) fun s hs => ⟨s, (he s).mpr hs, .refl s⟩

/-- **An antichain that covers a set lists its maximal blocks.** -/
theorem Covers.maximal (hirr : ∀ x, T x → ¬ D.Past x x) : D.MaximalOf T R := by
  refine ⟨nodup_of_antichain h.antichain, fun x => ⟨fun hx => ⟨h.sub x hx, fun y hy hxy => ?_⟩, ?_⟩⟩
  · obtain ⟨r, hr, hyr⟩ := h.cover y hy
    have hxr := hxy.below hyr
    by_cases he : x = r
    · exact hirr x (h.sub x hx) (he ▸ hxr)
    · exact (h.antichain.forall hx hr he).2.1 hxr
  · rintro ⟨hx, hmax⟩
    obtain ⟨r, hr, rfl | hxr⟩ := h.cover x hx
    · exact hr
    · exact absurd hxr (hmax r (h.sub r hr))

/-- A new block replaces the blocks below it; it is added if there are such blocks or it is below
    none. -/
theorem Covers.add {x : β} {kept : β → Bool} (hkept : ∀ r ∈ R, kept r = true ↔ ¬ D.Below r x)
    (hx : (∃ r ∈ R, ¬ kept r = true) ∨ ∀ r ∈ R.filter kept, ¬ D.Below x r) :
    D.Covers (fun t => t = x ∨ T t) (R.filter kept ++ [x]) := by
  have hapart : ∀ r ∈ R.filter kept, D.Anticone r x := by
    intro r hr
    obtain ⟨hrR, hrk⟩ := mem_filter.mp hr
    have hnot := (hkept r hrR).mp hrk
    refine ⟨fun he => hnot (.inl he), fun hp => hnot (.inr hp), fun hp => ?_⟩
    rcases hx with ⟨r', hr', hgone⟩ | hx
    · have hr'x : D.Below r' x := not_not.mp (mt (hkept r' hr').mpr hgone)
      have hne : r' ≠ r := fun he => hgone (he ▸ hrk)
      exact (h.antichain.forall hr' hrR hne).2.1 (hr'x.past hp)
    · exact hx r hr (.inr hp)
  refine ⟨fun r hr => ?_, ?_, fun t ht => ?_⟩
  · rcases mem_append.mp hr with hr | hr
    · exact .inr (h.sub r (mem_of_mem_filter hr))
    · exact .inl (mem_singleton.mp hr)
  · refine pairwise_append.mpr ⟨h.antichain.filter _, pairwise_singleton _ _, fun r hr y hy => ?_⟩
    rw [mem_singleton.mp hy]
    exact hapart r hr
  · have hlast : x ∈ R.filter kept ++ [x] := mem_append_right _ (mem_singleton_self x)
    rcases ht with rfl | ht
    · exact ⟨t, hlast, .refl t⟩
    · obtain ⟨r, hr, htr⟩ := h.cover t ht
      by_cases hrk : kept r = true
      · exact ⟨r, mem_append_left _ (mem_filter.mpr ⟨hr, hrk⟩), htr⟩
      · exact ⟨x, hlast, htr.trans (not_not.mp (mt (hkept r hr).mpr hrk))⟩

theorem Covers.add_below {x r : β} (hr : r ∈ R) (hx : D.Below x r) :
    D.Covers (fun t => t = x ∨ T t) R := by
  refine h.mono (fun t ht => .inr ht) fun s hs => ?_
  rcases hs with rfl | hs
  · exact ⟨r, h.sub r hr, hx⟩
  · exact ⟨s, hs, .refl s⟩

end

end Maximal

/-! ## 5. Computing ancestors -/

section Compute

variable [DecidableEq β]

/-- The ancestors of a block, by at most `n` edges; some are listed more than once. -/
def ancestors : Nat → β → List β
  | 0, _ => []
  | n + 1, y =>
    if y = D.genesis then [] else (D.parents y).flatMap fun p => p :: ancestors n p

variable {D} {bs : List β} {n : Nat} {x y : β}

theorem past_of_mem_ancestors : ∀ {x y : β}, x ∈ D.ancestors n y → D.Past x y := by
  induction n with
  | zero => exact fun h => absurd h not_mem_nil
  | succ n ih =>
    intro x y h
    unfold ancestors at h
    split at h
    · exact absurd h not_mem_nil
    · rename_i hy
      obtain ⟨p, hp, hx⟩ := mem_flatMap.mp h
      refine past_iff.mpr ⟨hy, p, hp, ?_⟩
      exact (mem_cons.mp hx).imp_right ih

/-- **In a grown DAG the ancestors are found.** -/
theorem Grown.past_iff_mem (h : D.Grown bs) : ∀ {n : Nat} {x y : β}, bs.length ≤ n → y ∈ bs →
    (D.Past x y ↔ x ∈ D.ancestors n y) := by
  intro n x y hn hy
  refine ⟨fun hx => ?_, past_of_mem_ancestors⟩
  induction h generalizing n x y with
  | start =>
    rw [mem_singleton.mp hy] at hx
    exact absurd hx not_past_genesis
  | @add bs b h hnew hne hold hanti ih =>
    rcases mem_cons.mp hy with rfl | hy
    · obtain ⟨hyg, p, hp, hxp⟩ := past_iff.mp hx
      obtain ⟨n, rfl⟩ := Nat.exists_eq_add_of_lt hn
      unfold ancestors
      rw [if_neg hyg]
      exact mem_flatMap.mpr
        ⟨p, hp, mem_cons.mpr (hxp.imp_right fun hx => ih (Nat.le_add_right _ _) (hold p hp) hx)⟩
    · exact ih (Nat.le_of_succ_le hn) hy hx

/-- Whether two blocks are in the anticone of each other. -/
def apart (D : Dag β) (n : Nat) (x y : β) : Bool :=
  decide (x ≠ y) && !(D.ancestors n y).contains x && !(D.ancestors n x).contains y

theorem Grown.anticone_iff (h : D.Grown bs) (hn : bs.length ≤ n) (hx : x ∈ bs)
    (hy : y ∈ bs) : D.Anticone x y ↔ D.apart n x y = true := by
  unfold Anticone apart
  rw [h.past_iff_mem hn hy, h.past_iff_mem hn hx]
  simp [and_assoc]

/-- Whether a block is another one or an ancestor of it. -/
def reaches (D : Dag β) (n : Nat) (x y : β) : Bool := decide (x = y) || (D.ancestors n y).contains x

theorem Grown.below_iff (h : D.Grown bs) (hn : bs.length ≤ n) (hy : y ∈ bs) :
    D.Below x y ↔ D.reaches n x y = true := by
  unfold Below reaches
  rw [h.past_iff_mem hn hy]
  simp

end Compute

end Dag

end Sahyadri.Lib
