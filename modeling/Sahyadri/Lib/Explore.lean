import Sahyadri.Lib.Outcome
import Mathlib.Data.List.Nodup
import Mathlib.Data.List.Perm.Subperm
import Mathlib.Logic.Relation

/-!
# A search with a queue and a set of what was seen

* `explore next stop fuel queue seen`: takes blocks from the front of the queue and appends their
  successors that were neither seen before nor are to be skipped.
-/

namespace Sahyadri.Lib

open List Relation

/-- A loop was not finished within the steps given. -/
inductive Diverged where
  | outOfSteps
  deriving DecidableEq, Repr

section Explore

variable {β : Type} [DecidableEq β]

/-- The successors of one block: those that are new and not skipped go to the queue and to what was
    seen. -/
def scan (stop : β → Bool) : List β → List β → List β → List β × List β
  | [], queue, seen => (queue, seen)
  | y :: ys, queue, seen =>
    if y ∈ seen ∨ stop y then scan stop ys queue seen
    else scan stop ys (queue ++ [y]) (seen ++ [y])

def explore (next : β → Option (List β)) (stop : β → Bool) :
    Nat → List β → List β → Run Diverged (List β)
  | 0, _, _ => .fail .outOfSteps
  | _ + 1, [], seen => .ok seen
  | fuel + 1, x :: queue, seen =>
    match next x with
    | none => .panicked
    | some ys => explore next stop fuel (scan stop ys queue seen).1 (scan stop ys queue seen).2

theorem scan_spec (stop : β → Bool) : ∀ (ys queue seen : List β), seen.Nodup →
    ∃ new : List β, scan stop ys queue seen = (queue ++ new, seen ++ new) ∧ (seen ++ new).Nodup ∧
      (∀ z ∈ new, z ∈ ys ∧ stop z = false) ∧ ∀ z ∈ ys, stop z = false → z ∈ seen ++ new
  | [], queue, seen, h => by
    refine ⟨[], by rw [append_nil, append_nil, scan], ?_, ?_, ?_⟩
    · rwa [append_nil]
    · exact forall_mem_nil _
    · exact forall_mem_nil _
  | y :: ys, queue, seen, h => by
    unfold scan
    split
    · rename_i hskip
      obtain ⟨new, he, hn, hm, hall⟩ := scan_spec stop ys queue seen h
      refine ⟨new, he, hn, fun z hz => ⟨mem_cons_of_mem _ (hm z hz).1, (hm z hz).2⟩, ?_⟩
      intro z hz hstop
      rcases mem_cons.mp hz with rfl | hz
      · rcases hskip with hskip | hskip
        · exact mem_append_left _ hskip
        · rw [hstop] at hskip
          cases hskip
      · exact hall z hz hstop
    · rename_i hkeep
      obtain ⟨hnew, hgo⟩ := not_or.mp hkeep
      have hnd : (seen ++ [y]).Nodup := by
        refine nodup_append.mpr ⟨h, nodup_singleton _, ?_⟩
        rintro a ha b hb rfl
        exact hnew (mem_singleton.mp hb ▸ ha)
      obtain ⟨new, he, hn, hm, hall⟩ := scan_spec stop ys (queue ++ [y]) (seen ++ [y]) hnd
      refine ⟨y :: new, ?_, ?_, ?_, ?_⟩
      · rw [he, append_assoc, append_assoc, singleton_append]
      · rwa [append_assoc, singleton_append] at hn
      · intro z hz
        rcases mem_cons.mp hz with rfl | hz
        · exact ⟨mem_cons_self, Bool.eq_false_iff.mpr hgo⟩
        · exact ⟨mem_cons_of_mem _ (hm z hz).1, (hm z hz).2⟩
      · intro z hz hstop
        rcases mem_cons.mp hz with rfl | hz
        · exact mem_append_right _ mem_cons_self
        · have := hall z hz hstop
          rwa [append_assoc, singleton_append] at this

/-- One step of a path that the search may take. -/
def Leads (next : β → List β) (stop : β → Bool) (x y : β) : Prop := y ∈ next x ∧ stop y = false

/-- The search so far: `seen` is what was taken from the queue and what is in it, and the successors
    of what was taken were looked at. -/
structure Searching (next : β → List β) (stop : β → Bool) (start done queue seen : List β) :
    Prop where
  split : seen.Perm (done ++ queue)
  nodup : seen.Nodup
  start_seen : ∀ s ∈ start, s ∈ seen
  reached : ∀ x ∈ seen, ∃ s ∈ start, ReflTransGen (Leads next stop) s x
  looked : ∀ x ∈ done, ∀ y, Leads next stop x y → y ∈ seen

variable {next : β → List β} {stop : β → Bool} {start : List β}
variable {done seen U queue : List β}

theorem Searching.step {x : β} (h : Searching next stop start done (x :: queue) seen) :
    Searching next stop start (x :: done) (scan stop (next x) queue seen).1
      (scan stop (next x) queue seen).2 := by
  obtain ⟨new, he, hnd, hm, hall⟩ := scan_spec stop (next x) queue seen h.nodup
  rw [he]
  have hx : x ∈ seen := h.split.mem_iff.mpr (mem_append_right _ mem_cons_self)
  refine ⟨?_, hnd, fun s hs => mem_append_left _ (h.start_seen s hs), ?_, ?_⟩
  · have hperm := (h.split.trans perm_middle).append_right new
    rwa [cons_append, append_assoc] at hperm
  · intro y hy
    rcases mem_append.mp hy with hy | hy
    · exact h.reached y hy
    · obtain ⟨s, hs, hpath⟩ := h.reached x hx
      exact ⟨s, hs, hpath.tail (hm y hy)⟩
  · intro y hy z hz
    rcases mem_cons.mp hy with rfl | hy
    · exact hall z hz.1 hz.2
    · exact mem_append_left _ (h.looked y hy z hz)

omit [DecidableEq β] in
theorem Searching.complete (h : Searching next stop start done [] seen) (x : β) :
    x ∈ seen ↔ ∃ s ∈ start, ReflTransGen (Leads next stop) s x := by
  refine ⟨h.reached x, ?_⟩
  rintro ⟨s, hs, hpath⟩
  induction hpath with
  | refl => exact h.start_seen s hs
  | tail _ hstep ih =>
    have hdone := h.split.mem_iff.mp ih
    rw [append_nil] at hdone
    exact h.looked _ hdone _ hstep

/-- **The search ends and has seen what can be reached.** -/
theorem explore_ok {succ : β → Option (List β)} (hsucc : ∀ x ∈ U, succ x = some (next x))
    (hU : ∀ x ∈ U, ∀ y, Leads next stop x y → y ∈ U) (hstart : ∀ s ∈ start, s ∈ U) {fuel : Nat} :
    ∀ {done queue seen : List β}, Searching next stop start done queue seen →
    U.length < done.length + fuel → ∃ l, explore succ stop fuel queue seen = .ok l ∧ l.Nodup ∧
        ∀ x, x ∈ l ↔ ∃ s ∈ start, ReflTransGen (Leads next stop) s x := by
  -- whatever was seen is in `U`, so the queue is empty when the steps are used up
  have hin : ∀ {x}, (∃ s ∈ start, ReflTransGen (Leads next stop) s x) → x ∈ U := by
    rintro x ⟨s, hs, hpath⟩
    induction hpath with
    | refl => exact hstart s hs
    | tail _ hstep ih => exact hU _ ih _ hstep
  induction fuel with
  | zero =>
    intro done queue seen h hlen
    have hsub : seen.length ≤ U.length :=
      (h.nodup.subperm fun x hx => hin (h.reached x hx)).length_le
    have hsplit := h.split.length_eq
    rw [length_append] at hsplit
    omega
  | succ fuel ih =>
    intro done queue seen h hlen
    cases queue with
    | nil => exact ⟨seen, rfl, h.nodup, h.complete⟩
    | cons x queue =>
      have hx : x ∈ seen := h.split.mem_iff.mpr (mem_append_right _ mem_cons_self)
      unfold explore
      rw [hsucc x (hin (h.reached x hx))]
      refine ih h.step ?_
      rw [length_cons]
      omega

omit [DecidableEq β] in
theorem searching_start (hnd : start.Nodup) : Searching next stop start [] start start :=
  ⟨.refl _, hnd, fun _ hs => hs, fun x hx => ⟨x, hx, .refl⟩, forall_mem_nil _⟩

/-- A search from one place that does not count as seen: what is found lies one step away or
    more. -/
theorem explore_from (hU : ∀ x y, Leads next stop x y → y ∈ U) (x : β) :
    ∃ l, explore (fun x => some (next x)) stop (U.length + 2) [x] [] = .ok l ∧ l.Nodup ∧
      ∀ y, y ∈ l ↔ TransGen (Leads next stop) x y := by
  obtain ⟨new, hscan, hnd, hnew, hall⟩ := scan_spec stop (next x) [] [] nodup_nil
  have hmem : ∀ y, Leads next stop x y ↔ y ∈ new := fun y =>
    ⟨fun h => nil_append new ▸ hall y h.1 h.2, fun h => hnew y h⟩
  have hlen : U.length < ([] : List β).length + (U.length + 1) := by
    omega
  obtain ⟨l, hl, hlnd, hlmem⟩ := explore_ok (fun x _ => (rfl : some (next x) = some (next x)))
    (fun x _ y h => hU x y h) (fun s hs => hU x s ((hmem s).mpr hs)) (searching_start hnd) hlen
  refine ⟨l, ?_, hlnd, fun y => (hlmem y).trans ?_⟩
  · show explore _ stop (U.length + 1) (scan stop (next x) [] []).1 (scan stop (next x) [] []).2 = _
    rw [hscan]
    exact hl
  · rw [TransGen.head'_iff]
    exact exists_congr fun s => and_congr_left fun _ => (hmem s).symm

end Explore

end Sahyadri.Lib
