import Sahyadri.Lib.Dag
import Mathlib.Data.List.Nodup

/-!
# Trees given by the parent of every node; the path of one node as a chain with growing ranks

* `Rising par rank b`: the rank grows along the path of `b`; then it decides who is above whom.
* `LastStart`: the last node strictly below another that starts an epoch. The ranks are cut into
  epochs of `F`, and a node starts one if its parent is in an earlier one.
-/

namespace Sahyadri.Lib

open List

/-! ## 1. Paths to the root -/

section Tree

open Option

variable {β : Type} (par : β → Option β)

/-- The node `n` steps towards the root. -/
def ancestorAt : Nat → β → Option β
  | 0, b => some b
  | n + 1, b => (par b).bind (ancestorAt n)

/-- `a` is on the path from `b` to the root. -/
def OnPath (a b : β) : Prop := ∃ n, ancestorAt par n b = some a

variable {par} {a b c p : β} {n : Nat}

theorem ancestorAt_succ (h : par b = some p) : ancestorAt par (n + 1) b = ancestorAt par n p := by
  show (par b).bind (ancestorAt par n) = _
  rw [h, bind_some]

theorem ancestorAt_add (m n : Nat) (b : β) :
    ancestorAt par (n + m) b = (ancestorAt par n b).bind (ancestorAt par m) := by
  induction n generalizing b with
  | zero => rw [Nat.zero_add, ancestorAt, bind_some]
  | succ n ih =>
    rw [Nat.succ_add]
    cases h : par b with
    | none => simp only [ancestorAt, h, bind_none]
    | some p => rw [ancestorAt_succ h, ancestorAt_succ h, ih]

/-- The last step, instead of the first. -/
theorem ancestorAt_succ_iff :
    ancestorAt par (n + 1) b = some a ↔ ∃ c, ancestorAt par n b = some c ∧ par c = some a := by
  have hone : ∀ c : β, ancestorAt par 1 c = par c := fun c => by
    show (par c).bind some = par c
    cases par c <;> rfl
  rw [ancestorAt_add, bind_eq_some_iff]
  simp only [hone]

theorem OnPath.refl (b : β) : OnPath par b b := ⟨0, rfl⟩

theorem OnPath.of_parent (hp : par b = some p) (h : OnPath par a p) : OnPath par a b := by
  obtain ⟨n, hn⟩ := h
  exact ⟨n + 1, (ancestorAt_succ hp).trans hn⟩

theorem onPath_parent (hp : par b = some p) : OnPath par p b := .of_parent hp (.refl p)

theorem onPath_iff : OnPath par a b ↔ a = b ∨ ∃ p, par b = some p ∧ OnPath par a p := by
  constructor
  · rintro ⟨n, hn⟩
    cases n with
    | zero => exact .inl (some.inj hn).symm
    | succ n =>
      obtain ⟨p, hp, hn⟩ := bind_eq_some_iff.mp hn
      exact .inr ⟨p, hp, n, hn⟩
  · rintro (rfl | ⟨p, hp, h⟩)
    · exact .refl a
    · exact .of_parent hp h

theorem OnPath.trans (h : OnPath par a b) (h' : OnPath par b c) : OnPath par a c := by
  obtain ⟨m, hm⟩ := h
  obtain ⟨n, hn⟩ := h'
  exact ⟨n + m, by rw [ancestorAt_add, hn, bind_some, hm]⟩

/-- **A path is a line.** -/
theorem OnPath.total (ha : OnPath par a c) (hb : OnPath par b c) :
    OnPath par a b ∨ OnPath par b a := by
  obtain ⟨m, hm⟩ := ha
  obtain ⟨n, hn⟩ := hb
  rcases Nat.le_total m n with h | h
  · obtain ⟨k, rfl⟩ := Nat.exists_eq_add_of_le h
    rw [ancestorAt_add, hm] at hn
    exact .inr ⟨k, hn⟩
  · obtain ⟨k, rfl⟩ := Nat.exists_eq_add_of_le h
    rw [ancestorAt_add, hn] at hm
    exact .inl ⟨k, hm⟩

end Tree

variable {β : Type} {par : β → Option β} {rank : β → Nat} {a b c x y p : β} {P : β → Prop}

/-! ## 2. Ranks -/

/-- The rank grows along the path of `b`. -/
def Rising (par : β → Option β) (rank : β → Nat) (b : β) : Prop :=
  ∀ x p, OnPath par x b → par x = some p → rank p < rank x

/-- The child of an ancestor on the way to a descendant. -/
theorem OnPath.child (h : OnPath par a b) (hne : a ≠ b) : ∃ c, par c = some a ∧ OnPath par c b := by
  obtain ⟨n, hn⟩ := h
  cases n with
  | zero => exact absurd (Option.some.inj hn).symm hne
  | succ n =>
    obtain ⟨c, hc, hp⟩ := ancestorAt_succ_iff.mp hn
    exact ⟨c, hp, n, hc⟩

theorem OnPath.parent_of_ne (h : OnPath par a b) (hne : a ≠ b) (hp : par b = some p) :
    OnPath par a p := by
  rcases onPath_iff.mp h with rfl | ⟨q, hq, h⟩
  · exact absurd rfl hne
  · cases hp.symm.trans hq
    exact h

section

variable (h : Rising par rank b)

include h

theorem Rising.of_onPath (hx : OnPath par x b) : Rising par rank x :=
  fun y p hy hp => h y p (hy.trans hx) hp

theorem Rising.le (ha : OnPath par a b) : rank a ≤ rank b := by
  obtain ⟨n, hn⟩ := ha
  induction n generalizing b with
  | zero => exact Nat.le_of_eq (congrArg rank (Option.some.inj hn)).symm
  | succ n ih =>
    obtain ⟨p, hp, hn⟩ := Option.bind_eq_some_iff.mp hn
    exact Nat.le_trans (ih (h.of_onPath (onPath_parent hp)) hn) (Nat.le_of_lt (h b p (.refl b) hp))

theorem Rising.lt (ha : OnPath par a b) (hne : a ≠ b) : rank a < rank b := by
  rcases onPath_iff.mp ha with rfl | ⟨p, hp, ha⟩
  · exact absurd rfl hne
  · exact Nat.lt_of_le_of_lt ((h.of_onPath (onPath_parent hp)).le ha) (h b p (.refl b) hp)

/-- What is on the path of the parent is strictly below the node. -/
theorem Rising.ne_of_parent (hp : par b = some p) (hx : OnPath par x p) : x ≠ b := by
  rintro rfl
  have := h x p (.refl x) hp
  have := (h.of_onPath (onPath_parent hp)).le hx
  omega

/-- **On one path the rank decides who is above whom.** -/
theorem Rising.onPath_iff (hx : OnPath par x b) (hy : OnPath par y b) :
    OnPath par x y ↔ rank x ≤ rank y := by
  refine ⟨(h.of_onPath hy).le, fun hle => ?_⟩
  rcases hx.total hy with hxy | hyx
  · exact hxy
  · by_cases hne : y = x
    · rw [hne]
      exact .refl x
    · have := (h.of_onPath hx).lt hyx hne
      omega

theorem Rising.eq_of_rank (hx : OnPath par x b) (hy : OnPath par y b) (heq : rank x = rank y) :
    x = y := by
  by_contra hne
  have := (h.of_onPath hy).lt ((h.onPath_iff hx hy).mpr (Nat.le_of_eq heq)) hne
  omega

/-- A node has one child on a path. -/
theorem Rising.child_unique (hx : OnPath par x b) (hy : OnPath par y b) (hpx : par x = some a)
    (hpy : par y = some a) : x = y := by
  by_contra hne
  rcases hx.total hy with hxy | hyx
  · have hle := (h.of_onPath ((onPath_parent hpy).trans hy)).le (hxy.parent_of_ne hne hpy)
    have := h x a hx hpx
    omega
  · have hle := (h.of_onPath ((onPath_parent hpx).trans hx)).le (hyx.parent_of_ne (Ne.symm hne) hpx)
    have := h y a hy hpy
    omega

end

/-! ## 3. The highest node -/

/-- `r` is the highest node with the property on the path of `b`. -/
structure Highest (par : β → Option β) (P : β → Prop) (b r : β) : Prop where
  onPath : OnPath par r b
  holds : P r
  above : ∀ x, OnPath par x b → P x → OnPath par x r

theorem Highest.unique (hb : Rising par rank b) (hx : Highest par P b x)
    (hy : Highest par P b y) : x = y :=
  hb.eq_of_rank hx.onPath hy.onPath
    (Nat.le_antisymm ((hb.of_onPath hy.onPath).le (hy.above x hx.onPath hx.holds))
    ((hb.of_onPath hx.onPath).le (hx.above y hy.onPath hy.holds)))

/-- The highest node with the property on the path of `b`, or else the root. -/
def HighestOr (par : β → Option β) (P : β → Prop) (root b r : β) : Prop :=
  Highest par P b r ∨ (r = root ∧ ∀ x, OnPath par x b → ¬ P x)

/-! ## 4. Paths as lists -/

/-- The path from `a` up to `b`, both included. -/
inductive Climb (par : β → Option β) (b : β) : β → List β → Prop where
  | here : Climb par b b [b]
  | up {a c : β} {l : List β} (hp : par c = some a) (h : Climb par b c l) : Climb par b a (a :: l)

variable {l : List β}

theorem Climb.onPath (h : Climb par b a l) : OnPath par a b := by
  induction h with
  | here => exact .refl b
  | up hp h ih => exact (onPath_parent hp).trans ih

theorem Climb.mem_onPath (h : Climb par b a l) (hx : x ∈ l) : OnPath par x b := by
  induction h with
  | here =>
    cases mem_singleton.mp hx
    exact .refl _
  | up hp h ih =>
    rcases mem_cons.mp hx with rfl | hx
    · exact (onPath_parent hp).trans h.onPath
    · exact ih hx

theorem OnPath.climb (h : OnPath par a b) : ∃ l, Climb par b a l := by
  obtain ⟨n, hn⟩ := h
  induction n generalizing a with
  | zero =>
    cases hn
    exact ⟨[b], .here⟩
  | succ n ih =>
    obtain ⟨c, hc, hp⟩ := ancestorAt_succ_iff.mp hn
    obtain ⟨l, hl⟩ := ih hc
    exact ⟨a :: l, .up hp hl⟩

theorem Climb.length_le (h : Climb par b a l) (hb : Rising par rank b) :
    l.length + rank a ≤ rank b + 1 := by
  induction h with
  | here => exact Nat.le_of_eq (Nat.add_comm _ _)
  | up hp h ih =>
    have := hb _ _ h.onPath hp
    rw [length_cons]
    omega

theorem Climb.cons_cons (h : Climb par b a (a :: c :: l)) :
    par c = some a ∧ Climb par b c (c :: l) := by
  cases h with
  | up hp h =>
    cases h with
    | here => exact ⟨hp, .here⟩
    | up hp' h => exact ⟨hp, .up hp' h⟩

theorem Climb.eq_of_singleton (h : Climb par b a [a]) : a = b := by
  cases h with
  | here => rfl
  | up _ h => cases h

theorem Climb.exists_cons (h : Climb par b a l) : ∃ l', l = a :: l' := by
  cases h with
  | here => exact ⟨[], rfl⟩
  | up _ _ => exact ⟨_, rfl⟩

theorem Climb.nodup (h : Climb par b a l) (hb : Rising par rank b) : l.Nodup := by
  have hlow : ∀ {a l}, Climb par b a l → ∀ x ∈ l, rank a ≤ rank x := fun {a l} hl x hx => by
    induction hl with
    | here => exact Nat.le_of_eq (congrArg rank (mem_singleton.mp hx)).symm
    | up hp hc ih =>
      rcases mem_cons.mp hx with rfl | hx
      · exact Nat.le_refl _
      · exact Nat.le_trans (Nat.le_of_lt (hb _ _ hc.onPath hp)) (ih hx)
  induction h with
  | here => exact nodup_singleton b
  | up hp hc ih =>
    refine nodup_cons.mpr ⟨fun hmem => ?_, ih⟩
    have := hlow hc _ hmem
    have := hb _ _ hc.onPath hp
    omega

/-- The rest of a path from a node strictly above its start. -/
theorem Climb.above (h : Climb par b a l) (hb : Rising par rank b) (ha : OnPath par a c)
    (hc : OnPath par c b) (hne : a ≠ c) : ∃ l', Climb par b c l' ∧ l'.length < l.length := by
  induction h with
  | here =>
    have hrank := Nat.le_antisymm ((hb.of_onPath hc).le ha) (hb.le hc)
    exact absurd (hb.eq_of_rank (.refl b) hc hrank) hne
  | @up a x l hp h ih =>
    obtain ⟨y, hpy, hy⟩ := ha.child hne
    cases hb.child_unique (hy.trans hc) h.onPath hpy hp
    by_cases hxc : x = c
    · exact ⟨l, hxc ▸ h, Nat.lt_succ_self _⟩
    · obtain ⟨l', hl', hlt⟩ := ih hy hxc
      exact ⟨l', hl', Nat.lt_succ_of_lt hlt⟩

/-- The path of the last node of a sequence. -/
theorem onPath_seq {c : Nat → β} {n : Nat} (hroot : par (c 0) = none)
    (hstep : ∀ i < n, par (c (i + 1)) = some (c i)) : OnPath par x (c n) ↔ ∃ i ≤ n, x = c i := by
  induction n with
  | zero =>
    rw [onPath_iff, hroot]
    simp
  | succ n ih =>
    rw [onPath_iff, hstep n (Nat.lt_succ_self n)]
    have ih := ih fun i hi => hstep i (Nat.lt_succ_of_lt hi)
    constructor
    · rintro (rfl | ⟨q, hq, h⟩)
      · exact ⟨n + 1, Nat.le_refl _, rfl⟩
      · cases hq
        obtain ⟨i, hi, rfl⟩ := ih.mp h
        exact ⟨i, Nat.le_succ_of_le hi, rfl⟩
    · rintro ⟨i, hi, rfl⟩
      rcases Nat.le_or_eq_of_le_succ hi with hi | rfl
      · exact .inr ⟨c n, rfl, ih.mpr ⟨i, hi, rfl⟩⟩
      · exact .inl rfl

/-- The last node of a list before the first one without the property. -/
def lastWhile (P : β → Prop) [DecidablePred P] (current : β) : List β → β
  | [] => current
  | x :: l => if P x then lastWhile P x l else current

/-- **Climbing while the property holds** ends at the highest node with it, if what is below a node
    with the property has it too. -/
theorem Climb.lastWhile_spec [DecidablePred P] (hb : Rising par rank b)
    (hdown : ∀ x y, OnPath par y b → OnPath par x y → P y → P x)
    (h : Climb par b a l) (current : β) : (¬ P a → lastWhile P current l = current) ∧
      (P a → Highest par P b (lastWhile P current l)) := by
  induction h generalizing current with
  | here =>
    refine ⟨fun ha => if_neg ha, fun ha => ?_⟩
    rw [lastWhile, if_pos ha]
    exact ⟨.refl b, ha, fun x hx _ => hx⟩
  | @up a c l hp h ih =>
    refine ⟨fun ha => if_neg ha, fun ha => ?_⟩
    rw [lastWhile, if_pos ha]
    by_cases hc : P c
    · exact (ih a).2 hc
    · rw [(ih a).1 hc]
      have hab := (onPath_parent hp).trans h.onPath
      refine ⟨hab, ha, fun x hx hPx => ?_⟩
      -- a node above `a` is above its child on the path
      rcases hx.total hab with hxa | hax
      · exact hxa
      · by_cases hne : a = x
        · rw [hne]
          exact .refl x
        · obtain ⟨c', hp', hc'⟩ := hax.child hne
          rw [hb.child_unique (hc'.trans hx) h.onPath hp' hp] at hc'
          exact absurd (hdown c x hx hc' hPx) hc

/-! ## 5. Trees in a DAG -/

/-- The parent of a block of `bs` is an ancestor of it. -/
def InDag (D : Dag β) (par : β → Option β) (bs : List β) : Prop :=
  ∀ b ∈ bs, ∀ p, par b = some p → D.Past p b

section InDag

variable {D : Dag β} {bs : List β}

theorem InDag.below (h : InDag D par bs) (hgrown : D.Grown bs) (hb : b ∈ bs) (ha : OnPath par a b) :
    D.Below a b := by
  obtain ⟨n, hn⟩ := ha
  induction n generalizing b with
  | zero => exact .inl (Option.some.inj hn).symm
  | succ n ih =>
    obtain ⟨p, hp, hn⟩ := Option.bind_eq_some_iff.mp hn
    have hpast := h b hb p hp
    exact .inr ((ih (hgrown.mem_of_past hb hpast) hn).past hpast)

theorem InDag.mem (h : InDag D par bs) (hgrown : D.Grown bs) (hb : b ∈ bs) (ha : OnPath par a b) :
    a ∈ bs :=
  hgrown.mem_of_below hb (h.below hgrown hb ha)

theorem InDag.steps_lt (h : InDag D par bs) (hgrown : D.Grown bs) {n : Nat} (hb : b ∈ bs)
    (hn : ancestorAt par n b = some a) : n < bs.length := by
  induction hgrown generalizing n b with
  | start =>
    cases n with
    | zero => exact Nat.zero_lt_one
    | succ n =>
      obtain ⟨p, hp, _⟩ := Option.bind_eq_some_iff.mp hn
      exact absurd (mem_singleton.mp hb ▸ h b hb p hp) Dag.not_past_genesis
  | @add bs c hbs hnew hne hold hanti ih =>
    have h' : InDag D par bs := fun b hb => h b (mem_cons_of_mem _ hb)
    rcases mem_cons.mp hb with rfl | hb
    · cases n with
      | zero => exact Nat.succ_pos _
      | succ n =>
        obtain ⟨p, hp, hn⟩ := Option.bind_eq_some_iff.mp hn
        obtain ⟨_, q, hq, hpq⟩ := Dag.past_iff.mp (h b hb p hp)
        exact Nat.succ_lt_succ (ih h' (hbs.mem_of_below (hold q hq) hpq) hn)
    · exact Nat.lt_succ_of_lt (ih h' hb hn)

theorem InDag.any_iff [DecidableEq β] (h : InDag D par bs) (hgrown : D.Grown bs) (hb : b ∈ bs) :
    (List.range bs.length).any (fun n => decide (ancestorAt par n b = some a)) = true ↔
    OnPath par a b := by
  rw [any_eq_true]
  constructor
  · rintro ⟨n, _, hn⟩
    exact ⟨n, of_decide_eq_true hn⟩
  · rintro ⟨n, hn⟩
    exact ⟨n, mem_range.mpr (h.steps_lt hgrown hb hn), decide_eq_true hn⟩

end InDag

/-! ## 6. Epochs -/

section Epochs

variable {F : Nat} {root q v : β} {k : Nat}

/-- The parent is in an earlier epoch. -/
def Starts (par : β → Option β) (rank : β → Nat) (F : Nat) (x : β) : Prop :=
  ∃ p, par x = some p ∧ rank p / F < rank x / F

/-- The last node strictly below `x` that starts an epoch, or the root. -/
def LastStart (par : β → Option β) (rank : β → Nat) (F : Nat) (root x v : β) : Prop :=
  HighestOr par (fun y => y ≠ x ∧ Starts par rank F y) root x v

theorem starts_iff (hp : par x = some p) : Starts par rank F x ↔ rank p / F < rank x / F := by
  constructor
  · rintro ⟨q, hq, h⟩
    cases hp.symm.trans hq
    exact h
  · exact fun h => ⟨p, hp, h⟩

theorem not_starts_root (hroot : par root = none) : ¬ Starts par rank F root := by
  rintro ⟨p, hp, _⟩
  rw [hroot] at hp
  cases hp

/-! ## 7. The last start -/

theorem lastStart_of_root (hroot : par root = none) (hx : par x = some root) :
    LastStart par rank F root x root := by
  refine .inr ⟨rfl, fun y hy h => ?_⟩
  rcases onPath_iff.mp (hy.parent_of_ne h.1 hx) with rfl | ⟨q, hq, _⟩
  · exact not_starts_root hroot h.2
  · rw [hroot] at hq
    cases hq

/-- A parent that starts an epoch is the last start below its child. -/
theorem lastStart_parent (hrise : Rising par rank x) (hx : par x = some p)
    (hp : Starts par rank F p) : LastStart par rank F root x p :=
  .inl ⟨onPath_parent hx, ⟨hrise.ne_of_parent hx (.refl p), hp⟩,
    fun _ hy h => hy.parent_of_ne h.1 hx⟩

theorem LastStart.child (hrise : Rising par rank x)
    (hx : par x = some p) (hp : ¬ Starts par rank F p)
    (hv : LastStart par rank F root p v) : LastStart par rank F root x v := by
  have hne : ∀ y, Starts par rank F y → y ≠ p := fun y hy he => hp (he ▸ hy)
  rcases hv with hv | ⟨rfl, hnone⟩
  · exact .inl ⟨hv.onPath.trans (onPath_parent hx), ⟨hrise.ne_of_parent hx hv.onPath, hv.holds.2⟩,
      fun y hy h => hv.above y (hy.parent_of_ne h.1 hx) ⟨hne y h.2, h.2⟩⟩
  · exact .inr ⟨rfl, fun y hy h => hnone y (hy.parent_of_ne h.1 hx) ⟨hne y h.2, h.2⟩⟩

/-- Without a start between them two nodes are in one epoch. -/
theorem epoch_eq_of_not_starts (hrise : Rising par rank q) (hv : OnPath par v q)
    (h : ∀ x, OnPath par x q → OnPath par v x → x ≠ v → ¬ Starts par rank F x) :
    rank q / F = rank v / F := by
  obtain ⟨n, hn⟩ := hv
  induction n generalizing q with
  | zero =>
    cases hn
    rfl
  | succ n ih =>
    obtain ⟨p, hp, hn⟩ := Option.bind_eq_some_iff.mp hn
    have hpq := onPath_parent hp
    have hv : OnPath par v q := .of_parent hp ⟨n, hn⟩
    have hne : v ≠ q := hrise.ne_of_parent hp ⟨n, hn⟩
    rw [← ih (hrise.of_onPath hpq) (fun x hx hvx => h x (hx.trans hpq) hvx) hn]
    have hle := Nat.div_le_div_right (c := F) (Nat.le_of_lt (hrise q p (.refl q) hp))
    have hnot := (starts_iff hp).not.mp (h q (.refl q) hv (Ne.symm hne))
    omega

/-- **All nodes from the last start up to the parent are in one epoch.** -/
theorem LastStart.epoch_eq (hrise : Rising par rank x) (hroot : OnPath par root x)
    (hx : par x = some p) (hne : x ≠ root) (h : LastStart par rank F root x v) :
    rank p / F = rank v / F := by
  have hpx := onPath_parent hx
  rcases h with h | ⟨rfl, hnone⟩
  · refine epoch_eq_of_not_starts (hrise.of_onPath hpx) (h.onPath.parent_of_ne h.holds.1 hx)
      fun y hy hvy hyv hs => ?_
    have hle :=
      (hrise.of_onPath h.onPath).le (h.above y (hy.trans hpx) ⟨hrise.ne_of_parent hx hy, hs⟩)
    have hlt := (hrise.of_onPath (hy.trans hpx)).lt hvy (Ne.symm hyv)
    omega
  · exact epoch_eq_of_not_starts (hrise.of_onPath hpx) (hroot.parent_of_ne (Ne.symm hne) hx)
      fun y hy _ _ hs => hnone y (hy.trans hpx) ⟨hrise.ne_of_parent hx hy, hs⟩

/-! ## 8. Bounded increments -/

def Bounded (par : β → Option β) (rank : β → Nat) (k : Nat) (b : β) : Prop :=
  ∀ x p, OnPath par x b → par x = some p → rank x ≤ rank p + (k + 1)

theorem Bounded.of_onPath (h : Bounded par rank k b) (hx : OnPath par x b) : Bounded par rank k x :=
  fun y p hy => h y p (hy.trans hx)

theorem Starts.rank_le (hF : 0 < F) (hb : Bounded par rank k x) (h : Starts par rank F x) :
    rank x ≤ rank x / F * F + k := by
  obtain ⟨p, hp, hlt⟩ := h
  have hinc := hb x p (.refl x) hp
  have := (Nat.div_lt_iff_lt_mul hF).mp hlt
  omega

/-- **No epoch is skipped.** -/
theorem Starts.epoch_succ (hk : k + 1 ≤ F) (hb : Bounded par rank k x)
    (h : Starts par rank F x) (hp : par x = some p) : rank x / F = rank p / F + 1 := by
  have hlt := (starts_iff hp).mp h
  have hinc := hb x p (.refl x) hp
  have hle : rank x / F ≤ (rank p + F) / F := Nat.div_le_div_right (by omega)
  rw [Nat.add_div_right _ (by omega)] at hle
  omega

end Epochs

end Sahyadri.Lib
