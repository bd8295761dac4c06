import Sahyadri.Lib.Table
import Mathlib.Data.Finset.Card
import Mathlib.Logic.Relation

/-!
# Nodes that refer to each other by name, and two ways to visit them

* `Links β ν`: how a node is found under its name, which names it refers to, and which names stand
  for no node. `Reach x y`: the name `y` comes up when the links from `x` are followed; `reach_iff`:
  it depends only on the nodes met.
-/

namespace Sahyadri.Lib

open List AList Option

/-- Nodes found by name. -/
structure Links (β ν : Type) where
  skip : β → Bool
  look : β → Option ν
  kids : ν → List β

namespace Links

variable {β ν : Type} (G : Links β ν)

/-- The node named `x` refers to `y`. -/
def Leads (x y : β) : Prop := ∃ n, G.look x = some n ∧ y ∈ G.kids n ∧ G.skip y = false

/-- The name `y` comes up on the way from `x`. -/
def Reach (x y : β) : Prop := G.skip x = false ∧ Relation.ReflTransGen G.Leads x y

variable {G}
variable {x y z : β}

theorem Reach.refl (h : G.skip x = false) : G.Reach x x := ⟨h, .refl⟩

theorem Reach.tail (h : G.Reach x y) (hz : G.Leads y z) : G.Reach x z := ⟨h.1, h.2.tail hz⟩

theorem Reach.head (hx : G.skip x = false) {n : ν} (hn : G.look x = some n) (hy : y ∈ G.kids n)
    (h : G.Reach y z) : G.Reach x z := ⟨hx, .head ⟨n, hn, hy, h.1⟩ h.2⟩

/-- What starts a way and whatever it leads to is in a set, so is what can be reached. -/
theorem Reach.mem (h : G.Reach x y) {p : β → Prop} (hx : p x)
    (hstep : ∀ a b, p a → G.Leads a b → p b) : p y := by
  obtain ⟨-, h⟩ := h
  induction h with
  | refl => exact hx
  | tail _ hlink ih => exact hstep _ _ ih hlink

/-- Nodes that agree on what can be reached lead to the same. -/
theorem reach_iff {G' : Links β ν} (hskip : G'.skip = G.skip) (hkids : G'.kids = G.kids)
    (h : ∀ y, G.Reach x y → G'.look y = G.look y) (y : β) : G'.Reach x y ↔ G.Reach x y := by
  have hleads : ∀ a b, G.Reach x a → (G'.Leads a b ↔ G.Leads a b) := by
    intro a b ha
    unfold Leads
    rw [h a ha, hskip, hkids]
  constructor
  · intro hr
    have hx : G.skip x = false := hskip ▸ hr.1
    exact hr.mem (.refl hx) fun a b ha hab => ha.tail ((hleads a b ha).mp hab)
  · intro hr
    have hx : G'.skip x = false := hskip ▸ hr.1
    refine (hr.mem (p := fun z => G.Reach x z ∧ G'.Reach x z) ⟨.refl hr.1, .refl hx⟩ ?_).2
    rintro a b ⟨ha, ha'⟩ hab
    exact ⟨ha.tail hab, ha'.tail ((hleads a b ha).mpr hab)⟩

/-! ## 1. By recursion -/

section Walk

variable [DecidableEq β] {ω ε : Type} (G) (note : ν → ω) (missing : β → ε) (stuck : ε)

/-- The walk from one name. `seen` has, for every name visited, what is noted of its node. -/
def walk : Nat → β → Table β ω → Run ε (Table β ω)
  | 0, _, _ => .fail stuck
  | fuel + 1, x, seen =>
    if G.skip x then .ok seen
    else if x ∈ seen then .ok seen
    else
      match G.look x with
      | none => .fail (missing x)
      | some n => (G.kids n).foldlM (fun seen y => walk fuel y seen) (seen.insert x (note n))

/-- What the walks from the names `xs` do to what was seen. -/
structure Walked (xs : List β) (seen seen' : Table β ω) : Prop where
  kept : ∀ {k w}, seen.lookup k = some w → seen'.lookup k = some w
  new : ∀ {k w}, seen'.lookup k = some w → seen.lookup k = some w ∨
    (∃ x ∈ xs, G.Reach x k) ∧ ∃ n, G.look k = some n ∧ w = note n
  start : ∀ x ∈ xs, G.skip x = false → x ∈ seen'
  closed : ∀ k ∈ seen', k ∉ seen → ∀ y, G.Leads k y → y ∈ seen'

variable {G note missing stuck}

theorem Walked.nil (seen : Table β ω) : G.Walked note [] seen seen where
  kept h := h
  new h := .inl h
  start _ hx := absurd hx not_mem_nil
  closed _ hk hn := absurd hk hn

variable {seen seen' seen₁ seen₂ : Table β ω} {xs : List β} {x k : β}

theorem Walked.mem (h : G.Walked note xs seen seen') (hk : k ∈ seen) : k ∈ seen' := by
  obtain ⟨w, hw⟩ := isSome_iff_exists.mp (lookup_isSome.mpr hk)
  exact lookup_isSome.mp (isSome_iff_exists.mpr ⟨w, h.kept hw⟩)

theorem Walked.cons (h₁ : G.Walked note [x] seen seen₁) (h₂ : G.Walked note xs seen₁ seen₂) :
    G.Walked note (x :: xs) seen seen₂ where
  kept h := h₂.kept (h₁.kept h)
  new h := by
    rcases h₂.new h with h | ⟨⟨y, hy, hr⟩, hn⟩
    · rcases h₁.new h with h | ⟨⟨y, hy, hr⟩, hn⟩
      · exact .inl h
      · exact .inr ⟨⟨y, mem_singleton.mp hy ▸ mem_cons_self, hr⟩, hn⟩
    · exact .inr ⟨⟨y, mem_cons_of_mem _ hy, hr⟩, hn⟩
  start y hy hs := by
    rcases mem_cons.mp hy with rfl | hy
    · exact h₂.mem (h₁.start y mem_cons_self hs)
    · exact h₂.start y hy hs
  closed k hk hn y hy := by
    by_cases hk₁ : k ∈ seen₁
    · exact h₂.mem (h₁.closed k hk₁ hn y hy)
    · exact h₂.closed k hk hk₁ y hy

theorem Walked.node {n : ν} (hs : G.skip x = false) (hx : x ∉ seen) (hn : G.look x = some n)
    (h : G.Walked note (G.kids n) (seen.insert x (note n)) seen') :
    G.Walked note [x] seen seen' where
  kept {k w} hk := by
    have hne : k ≠ x := by
      rintro rfl
      exact hx (lookup_isSome.mp (isSome_iff_exists.mpr ⟨w, hk⟩))
    exact h.kept ((lookup_insert_ne hne).trans hk)
  new {k w} hk := by
    rcases h.new hk with hk | ⟨⟨y, hy, hr⟩, hk⟩
    · by_cases he : k = x
      · subst he
        rw [lookup_insert] at hk
        exact .inr ⟨⟨k, mem_cons_self, .refl hs⟩, n, hn, (some.inj hk).symm⟩
      · exact .inl ((lookup_insert_ne he).symm.trans hk)
    · exact .inr ⟨⟨x, mem_cons_self, .head hs hn hy hr⟩, hk⟩
  start y hy _ := by
    rw [mem_singleton.mp hy]
    exact h.mem ((mem_insert _).mpr (.inl rfl))
  closed k hk hnew y hy := by
    by_cases he : k = x
    · subst he
      obtain ⟨m, hm, hmem, hskip⟩ := hy
      obtain rfl := some.inj (hm.symm.trans hn)
      exact h.start y hmem hskip
    · exact h.closed k hk (fun hin => ((mem_insert _).mp hin).elim he hnew) y hy

variable {step : β → Table β ω → Run ε (Table β ω)}

theorem walked_foldlM (hstep : ∀ {x seen seen'}, step x seen = .ok seen' →
      G.Walked note [x] seen seen') : ∀ {xs : List β} {seen seen' : Table β ω},
      xs.foldlM (fun seen y => step y seen) seen = .ok seen' → G.Walked note xs seen seen'
  | [], seen, seen', h => by
    cases h
    exact .nil seen
  | x :: xs, seen, seen', h => by
    obtain ⟨seen₁, h₁, h₂⟩ := Run.bind_eq_ok.mp h
    exact (hstep h₁).cons (walked_foldlM hstep h₂)

theorem walk_walked : ∀ {fuel : Nat} {x : β} {seen seen' : Table β ω},
    G.walk note missing stuck fuel x seen = .ok seen' → G.Walked note [x] seen seen'
  | 0, _, _, _, h => by cases h
  | fuel + 1, x, seen, seen', h => by
    unfold walk at h
    split at h
    · rename_i hskip
      cases h
      refine ⟨fun h => h, .inl, fun y hy hs => ?_, fun k hk hn => absurd hk hn⟩
      rw [mem_singleton.mp hy, hskip] at hs
      cases hs
    split at h
    · rename_i hseen
      cases h
      refine ⟨fun h => h, .inl, fun y hy _ => ?_, fun k hk hn => absurd hk hn⟩
      rwa [mem_singleton.mp hy]
    · rename_i hskip hnew
      cases hl : G.look x with
      | none =>
        rw [hl] at h
        cases h
      | some n =>
        rw [hl] at h
        exact .node (Bool.eq_false_iff.mpr hskip) hnew hl (walked_foldlM walk_walked h)

/-- **A walk from nothing seen has seen what can be reached**, and noted the nodes. -/
theorem walk_seen {fuel : Nat} (h : G.walk note missing stuck fuel x ∅ = .ok seen) :
    (∀ k, k ∈ seen ↔ G.Reach x k) ∧
      ∀ {k w}, seen.lookup k = some w → ∃ n, G.look k = some n ∧ w = note n := by
  have hw := walk_walked h
  have hnew : ∀ {k w}, seen.lookup k = some w → G.Reach x k ∧ ∃ n, G.look k = some n ∧
      w = note n := by
    intro k w hk
    rcases hw.new hk with hk | ⟨⟨y, hy, hr⟩, hn⟩
    · cases hk
    · exact ⟨mem_singleton.mp hy ▸ hr, hn⟩
  refine ⟨fun k => ⟨fun hk => ?_, fun hr => ?_⟩, fun hk => (hnew hk).2⟩
  · obtain ⟨w, hk⟩ := isSome_iff_exists.mp (lookup_isSome.mpr hk)
    exact (hnew hk).1
  · exact hr.mem (hw.start x mem_cons_self hr.1) fun a b ha hb =>
      hw.closed a ha (notMem_empty a) b hb

/-- The names of `U` that were not seen. -/
def unseen (U : Finset β) (seen : Table β ω) : Finset β := U.filter (· ∉ seen)

variable {U : Finset β}

theorem Walked.unseen_le (h : G.Walked note xs seen seen') :
    (unseen U seen').card ≤ (unseen U seen).card :=
  Finset.card_le_card (Finset.monotone_filter_right U fun _ _ hn hk => hn (h.mem hk))

theorem unseen_insert_lt (hU : x ∈ U) (hx : x ∉ seen) (w : ω) :
    (unseen U (seen.insert x w)).card < (unseen U seen).card := by
  refine Finset.card_lt_card (Finset.ssubset_iff_of_subset ?_ |>.mpr ⟨x, ?_, ?_⟩)
  · exact Finset.monotone_filter_right U fun _ _ hn hk => hn ((mem_insert _).mpr (.inr hk))
  · exact Finset.mem_filter.mpr ⟨hU, hx⟩
  · exact fun h => (Finset.mem_filter.mp h).2 ((mem_insert _).mpr (.inl rfl))

theorem walked_foldlM_ok {m : Nat}
    (hwalk : ∀ {x seen seen'}, step x seen = .ok seen' → G.Walked note [x] seen seen')
    (hstep : ∀ x ∈ xs, ∀ seen, (unseen U seen).card < m → ∃ seen', step x seen = .ok seen') :
    ∀ {seen : Table β ω}, (unseen U seen).card < m →
      ∃ seen', xs.foldlM (fun seen y => step y seen) seen = .ok seen' := by
  induction xs with
  | nil => exact fun {seen} _ => ⟨seen, rfl⟩
  | cons x xs ih =>
    intro seen hm
    obtain ⟨seen₁, h₁⟩ := hstep x mem_cons_self seen hm
    obtain ⟨seen₂, h₂⟩ :=
      ih (fun y hy => hstep y (mem_cons_of_mem _ hy)) (Nat.lt_of_le_of_lt (hwalk h₁).unseen_le hm)
    refine ⟨seen₂, ?_⟩
    rw [foldlM_cons, h₁]
    exact h₂

/-- **The walk does not end early** when every name that can be reached has a node and is in `U`. -/
theorem walk_ok : ∀ {fuel : Nat} {x : β} {seen : Table β ω},
    (∀ k, G.Reach x k → k ∈ U ∧ (G.look k).isSome) → (unseen U seen).card < fuel →
    ∃ seen', G.walk note missing stuck fuel x seen = .ok seen'
  | 0, _, _, _, h => absurd h (Nat.not_lt_zero _)
  | fuel + 1, x, seen, hU, h => by
    unfold walk
    by_cases hskip : G.skip x = true
    · exact ⟨seen, if_pos hskip⟩
    rw [if_neg hskip]
    by_cases hseen : x ∈ seen
    · exact ⟨seen, if_pos hseen⟩
    rw [if_neg hseen]
    have hs := Bool.eq_false_iff.mpr hskip
    obtain ⟨hx, hl⟩ := hU x (.refl hs)
    obtain ⟨n, hn⟩ := isSome_iff_exists.mp hl
    rw [hn]
    have hlt := unseen_insert_lt hx hseen (note n)
    refine walked_foldlM_ok (U := U) (m := fuel) walk_walked (fun y hy seen' hm => ?_) (by omega)
    exact walk_ok (fun k hk => hU k (.head hs hn hy hk)) hm

end Walk

/-! ## 2. With a stack -/

section Mark

variable [DecidableEq β] {ω : Type} (G) (note : ν → Option ω)

/-- The marking loop. The head of `stack` is its top; what a node refers to is pushed in order. -/
def mark : Nat → List β → List β → List ω → Option (List β × List ω)
  | 0, _, _, _ => none
  | _ + 1, [], marked, noted => some (marked, noted)
  | fuel + 1, x :: stack, marked, noted =>
    if G.skip x then mark fuel stack marked noted
    else if x ∈ marked then mark fuel stack marked noted
    else
      match G.look x with
      | none => mark fuel stack (marked ++ [x]) noted
      | some n =>
        mark fuel ((G.kids n).reverse ++ stack) (marked ++ [x]) (noted ++ (note n).toList)

/-- The loop so far: what is marked or on the stack can be reached, and what a marked node refers to
    is marked or on the stack. -/
structure Marking (roots stack marked : List β) (noted : List ω) : Prop where
  reached : ∀ x, x ∈ marked ∨ x ∈ stack ∧ G.skip x = false → ∃ r ∈ roots, G.Reach r x
  roots_kept : ∀ r ∈ roots, G.skip r = false → r ∈ marked ∨ r ∈ stack
  closed : ∀ x ∈ marked, ∀ y, G.Leads x y → y ∈ marked ∨ y ∈ stack
  noted_iff : ∀ w, w ∈ noted ↔ ∃ x ∈ marked, ∃ n, G.look x = some n ∧ note n = some w

variable {G note}

omit [DecidableEq β] in
theorem marking_start (roots : List β) : G.Marking note roots roots [] [] where
  reached x h := by
    rcases h with h | ⟨h, hs⟩
    · exact absurd h not_mem_nil
    · exact ⟨x, h, .refl hs⟩
  roots_kept _ h _ := .inr h
  closed _ h := absurd h not_mem_nil
  noted_iff w := ⟨fun h => absurd h not_mem_nil, fun ⟨_, h, _⟩ => absurd h not_mem_nil⟩

variable {roots stack marked : List β} {noted : List ω} {x y : β}

omit [DecidableEq β] in
/-- What was marked or on the stack is so when the top of the stack is marked. -/
theorem drop_top (hx : y = x → x ∈ marked) (h : y ∈ marked ∨ y ∈ x :: stack) :
    y ∈ marked ∨ y ∈ stack := by
  rcases h with h | h
  · exact .inl h
  rcases mem_cons.mp h with he | h
  · exact .inl (he ▸ hx he)
  · exact .inr h

omit [DecidableEq β] in
theorem Marking.drop (h : G.Marking note roots (x :: stack) marked noted)
    (hx : G.skip x = false → x ∈ marked) : G.Marking note roots stack marked noted where
  reached y hy := h.reached y (hy.imp_right fun hy => ⟨mem_cons_of_mem _ hy.1, hy.2⟩)
  roots_kept r hr hs := drop_top (fun he => hx (he ▸ hs)) (h.roots_kept r hr hs)
  closed y hy z hz := by
    obtain ⟨_, _, _, hs⟩ := id hz
    exact drop_top (fun he => hx (he ▸ hs)) (h.closed y hy z hz)
  noted_iff := h.noted_iff

omit [DecidableEq β] in
theorem take_top (h : y ∈ marked ∨ y ∈ x :: stack) : y ∈ marked ++ [x] ∨ y ∈ stack :=
  drop_top (fun _ => mem_append_right _ mem_cons_self) (h.imp_left (mem_append_left _))

omit [DecidableEq β] in
theorem Marking.take (h : G.Marking note roots (x :: stack) marked noted)
    (hs : G.skip x = false) (pushed : List β) (new : List ω)
    (hpush : ∀ y, G.skip y = false → (y ∈ pushed ↔ G.Leads x y))
    (hnew : ∀ w, w ∈ new ↔ ∃ n, G.look x = some n ∧ note n = some w) :
    G.Marking note roots (pushed ++ stack) (marked ++ [x]) (noted ++ new) where
  reached y hy := by
    have hx : ∃ r ∈ roots, G.Reach r x := h.reached x (.inr ⟨mem_cons_self, hs⟩)
    rcases hy with hy | ⟨hy, hskip⟩
    · rcases mem_append.mp hy with hy | hy
      · exact h.reached y (.inl hy)
      · rwa [mem_singleton.mp hy]
    · rcases mem_append.mp hy with hy | hy
      · obtain ⟨r, hr, hrx⟩ := hx
        exact ⟨r, hr, hrx.tail ((hpush y hskip).mp hy)⟩
      · exact h.reached y (.inr ⟨mem_cons_of_mem _ hy, hskip⟩)
  roots_kept r hr hskip := (take_top (h.roots_kept r hr hskip)).imp_right (mem_append_right _)
  closed y hy z hz := by
    rcases mem_append.mp hy with hy | hy
    · exact (take_top (h.closed y hy z hz)).imp_right (mem_append_right _)
    · rw [mem_singleton.mp hy] at hz
      obtain ⟨_, _, _, hskip⟩ := id hz
      exact .inr (mem_append_left _ ((hpush z hskip).mpr hz))
  noted_iff w := by
    rw [mem_append, h.noted_iff, hnew]
    constructor
    · rintro (⟨y, hy, hn⟩ | hn)
      · exact ⟨y, mem_append_left _ hy, hn⟩
      · exact ⟨x, mem_append_right _ mem_cons_self, hn⟩
    · rintro ⟨y, hy, hn⟩
      rcases mem_append.mp hy with hy | hy
      · exact .inl ⟨y, hy, hn⟩
      · exact .inr (mem_singleton.mp hy ▸ hn)

theorem mark_marking : ∀ {fuel : Nat} {stack marked : List β} {noted : List ω}
    {r : List β × List ω}, G.Marking note roots stack marked noted →
    G.mark note fuel stack marked noted = some r → G.Marking note roots [] r.1 r.2
  | 0, _, _, _, _, _, h => by cases h
  | fuel + 1, [], _, _, _, hm, h => by
    cases h
    exact hm
  | fuel + 1, x :: stack, marked, noted, r, hm, h => by
    unfold mark at h
    split at h
    · rename_i hskip
      exact mark_marking (hm.drop fun hs => by rw [hskip] at hs; cases hs) h
    split at h
    · rename_i hin
      exact mark_marking (hm.drop fun _ => hin) h
    · rename_i hskip _
      have hs := Bool.eq_false_iff.mpr hskip
      cases hl : G.look x with
      | none =>
        rw [hl] at h
        refine mark_marking ?_ h
        have := hm.take hs [] [] (fun y _ => ?_) fun w => ?_
        · rwa [append_nil, nil_append] at this
        · exact ⟨fun hy => absurd hy not_mem_nil, fun ⟨n, hn, _⟩ => by rw [hl] at hn; cases hn⟩
        · exact ⟨fun hw => absurd hw not_mem_nil, fun ⟨n, hn, _⟩ => by rw [hl] at hn; cases hn⟩
      | some n =>
        rw [hl] at h
        refine mark_marking (hm.take hs _ _ (fun y hy => ?_) fun w => ?_) h
        · rw [mem_reverse]
          exact ⟨fun hk => ⟨n, hl, hk, hy⟩, fun ⟨m, hm, hk, _⟩ => some.inj (hm.symm.trans hl) ▸ hk⟩
        · rw [mem_toList]
          exact ⟨fun hw => ⟨n, hl, hw⟩, fun ⟨m, hm, hw⟩ => some.inj (hm.symm.trans hl) ▸ hw⟩

/-- **What is marked is what can be reached from the roots**, and what is noted is noted of it. -/
theorem mark_iff {fuel : Nat} {r : List β × List ω} (h : G.mark note fuel roots [] [] = some r) :
    (∀ x, x ∈ r.1 ↔ ∃ s ∈ roots, G.Reach s x) ∧
      ∀ w, w ∈ r.2 ↔ ∃ s ∈ roots, ∃ x, G.Reach s x ∧ ∃ n, G.look x = some n ∧ note n = some w := by
  have hm := mark_marking (marking_start roots) h
  have hiff : ∀ x, x ∈ r.1 ↔ ∃ s ∈ roots, G.Reach s x := by
    refine fun x => ⟨fun hx => hm.reached x (.inl hx), fun ⟨s, hs, hr⟩ => ?_⟩
    have hstay : ∀ {y}, y ∈ r.1 ∨ y ∈ [] → y ∈ r.1 := fun h => h.resolve_right not_mem_nil
    exact hr.mem (hstay (hm.roots_kept s hs hr.1)) fun a b ha hb => hstay (hm.closed a ha b hb)
  refine ⟨hiff, fun w => (hm.noted_iff w).trans ⟨?_, ?_⟩⟩
  · rintro ⟨x, hx, hn⟩
    obtain ⟨s, hs, hr⟩ := (hiff x).mp hx
    exact ⟨s, hs, x, hr, hn⟩
  · rintro ⟨s, hs, x, hr, hn⟩
    exact ⟨x, (hiff x).mpr ⟨s, hs, hr⟩, hn⟩

/-- **The loop ends** within a number of steps that is bounded by the nodes there are, when every
    node refers to at most `d` names. -/
theorem mark_some {U : Finset β}
    {d : Nat} (hU : ∀ {x n}, G.look x = some n → x ∈ U ∧ (G.kids n).length ≤ d) :
    ∀ {fuel : Nat} {stack marked : List β} {noted : List ω},
    d * (U.filter (· ∉ marked)).card + stack.length < fuel →
      ∃ r, G.mark note fuel stack marked noted = some r
  | 0, _, _, _, h => absurd h (Nat.not_lt_zero _)
  | fuel + 1, [], marked, noted, _ => ⟨(marked, noted), rfl⟩
  | fuel + 1, x :: stack, marked, noted, h => by
    rw [length_cons] at h
    unfold mark
    by_cases hskip : G.skip x = true
    · rw [if_pos hskip]
      exact mark_some hU (by omega)
    rw [if_neg hskip]
    by_cases hin : x ∈ marked
    · rw [if_pos hin]
      exact mark_some hU (by omega)
    rw [if_neg hin]
    have hsub : (U.filter (· ∉ marked ++ [x])) ⊆ U.filter (· ∉ marked) :=
      Finset.monotone_filter_right U fun _ _ hn hk => hn (mem_append_left _ hk)
    cases hl : G.look x with
    | none =>
      have := Nat.mul_le_mul_left d (Finset.card_le_card hsub)
      exact mark_some hU (by omega)
    | some n =>
      obtain ⟨hx, hlen⟩ := hU hl
      have hlt : (U.filter (· ∉ marked ++ [x])).card < (U.filter (· ∉ marked)).card := by
        refine Finset.card_lt_card (Finset.ssubset_iff_of_subset hsub |>.mpr ⟨x, ?_, ?_⟩)
        · exact Finset.mem_filter.mpr ⟨hx, hin⟩
        · exact fun h => (Finset.mem_filter.mp h).2 (mem_append_right _ mem_cons_self)
      have := Nat.mul_le_mul_left d hlt
      rw [Nat.mul_succ] at this
      refine mark_some hU ?_
      rw [length_append, length_reverse]
      omega

end Mark

end Links

end Sahyadri.Lib
