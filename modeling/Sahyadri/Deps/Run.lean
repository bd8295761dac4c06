import Sahyadri.Deps.Manager
import Mathlib.Order.WellFounded
import Mathlib.Data.Fintype.Card
import Mathlib.Data.Fintype.Sets
import Mathlib.Data.Fintype.EquivFin
import Mathlib.Data.List.Perm.Basic
import Mathlib.Data.Prod.Lex
import Mathlib.Order.OrderIsoNat

/-!
# The receiver and the workers on one dependency manager, in any interleaving

* `Orderly`: parents first, one task of a hash at a time and in order, every pending group in one
  place, no panic, and no group left behind. `orderly_of_reachable`: every state reached is orderly.
-/

namespace Sahyadri.Deps

open Lib Core Smt List Table AList Relation Option

variable {Sender : Type}

/-! ## 1. The system -/

abbrev Entry (Sender : Type) := BlockTask × Sender × Sender

structure Sys (Sender : Type) where
  pending : Pending Sender
  queued : List Hash
  running : List BlockTask
  registered : List (Entry Sender)
  begun : List BlockTask
  completed : List (Entry Sender)

def Sys.init : Sys Sender := ⟨∅, [], [], [], [], []⟩

/-- One call. `parent p h`: `p` may be a direct parent of `h`. A queued id goes to one worker, which
    ends the task it got. -/
inductive Step (parent : Hash → Hash → Prop) : Sys Sender → Sys Sender → Prop
  | register {s : Sys Sender} {task : BlockTask} {a b : Sender}
      (hparents : ∀ p ∈ task.parents, parent p task.hash) : Step parent s { s with
          pending := (register s.pending task a b).2
          queued := s.queued ++ (register s.pending task a b).1.toList
          registered := s.registered ++ [(task, a, b)] }
  | wait {s : Sys Sender} {q₁ q₂ : List Hash} {id : Hash} {pending : Pending Sender}
      (hid : s.queued = q₁ ++ id :: q₂) (hcall : tryBegin s.pending id = .ok (none, pending)) :
      Step parent s { s with pending, queued := q₁ ++ q₂ }
  | start {s : Sys Sender} {q₁ q₂ : List Hash} {id : Hash} {task : BlockTask}
      {pending : Pending Sender} (hid : s.queued = q₁ ++ id :: q₂)
      (hcall : tryBegin s.pending id = .ok (some task, pending)) :
      Step parent s
        { s with
          pending
          queued := q₁ ++ q₂
          running := task :: s.running
          begun := s.begun ++ [task] }
  | finish {s : Sys Sender} {r₁ r₂ : List BlockTask} {task : BlockTask} {e : Ended Sender}
      (htask : s.running = r₁ ++ task :: r₂) (hcall : endTask s.pending task = .ok e) :
      Step parent s
        { s with
          pending := e.pending
          queued := s.queued ++ e.nextTasks
          running := r₁ ++ r₂
          completed := s.completed ++ [e.callback] }

/-- The states of a run. -/
def Reachable (parent : Hash → Hash → Prop) (s : Sys Sender) : Prop :=
  ReflTransGen (Step parent) Sys.init s

/-! ## 2. What belongs to one hash -/

variable (id : Hash)

def entriesOf (entries : List (Entry Sender)) : List (Entry Sender) :=
  entries.filter fun e => e.1.hash = id

def tasksOf (tasks : List BlockTask) : List BlockTask := tasks.filter fun t => t.hash = id

@[simp] theorem entriesOf_append (l m : List (Entry Sender)) :
    entriesOf id (l ++ m) = entriesOf id l ++ entriesOf id m := filter_append ..

@[simp] theorem tasksOf_append (l m : List BlockTask) :
    tasksOf id (l ++ m) = tasksOf id l ++ tasksOf id m := filter_append ..

theorem entriesOf_own (task : BlockTask) (a b : Sender) :
    entriesOf task.hash [(task, a, b)] = [(task, a, b)] := by
  simp [entriesOf]

variable {task t : BlockTask} {id p k : Hash}

theorem entriesOf_other (h : task.hash ≠ id) (a b : Sender) : entriesOf id [(task, a, b)] = [] := by
  simp [entriesOf, h]

theorem tasksOf_cons (h : t.hash = id) (l : List BlockTask) :
    tasksOf id (t :: l) = t :: tasksOf id l := by
  simp [tasksOf, h]

theorem tasksOf_cons_ne (h : t.hash ≠ id) (l : List BlockTask) :
    tasksOf id (t :: l) = tasksOf id l := by
  simp [tasksOf, h]

variable {l registered completed rest m : List (Entry Sender)} {e : Entry Sender}

theorem hash_of_mem_entriesOf (h : e ∈ entriesOf id l) : e.1.hash = id := by
  simpa using (mem_filter.mp h).2

/-- In how many dependent lists an id stands, counted over the pending groups. -/
def waitingFor (pending : Pending Sender) (id : Hash) : Nat :=
  total (fun g : BlockTaskGroup Sender => g.dependentTasks.count id) pending

/-- In how many places an id stands. -/
def Sys.places (s : Sys Sender) (id : Hash) : Nat :=
  s.queued.count id + (tasksOf id s.running).length + waitingFor s.pending id

def fresh (e : Entry Sender) : BlockTaskInternal Sender := ⟨some e.1, e.2.1, e.2.2⟩

/-- What a group holds: the entries of its hash not completed, in order, the first one taken if it
    is running. -/
def Holds (registered completed : List (Entry Sender)) (running : List BlockTask)
    (tasks : List (BlockTaskInternal Sender)) : Prop :=
  (∃ e rest, registered = completed ++ e :: rest ∧ running = [] ∧
    tasks = fresh e :: rest.map fresh) ∨
  (∃ e rest, registered = completed ++ e :: rest ∧ running = [e.1] ∧
    tasks = ⟨none, e.2.1, e.2.2⟩ :: rest.map fresh)

/-! ## 3. The invariant -/

structure Inv (parent : Hash → Hash → Prop) (s : Sys Sender) : Prop where
  parents : ∀ e ∈ s.registered, ∀ p ∈ e.1.parents, parent p e.1.hash
  places : ∀ id, s.places id = if id ∈ s.pending then 1 else 0
  absent : ∀ id, id ∉ s.pending → entriesOf id s.registered = entriesOf id s.completed
  group : ∀ id g, s.pending.lookup id = some g → Holds (entriesOf id s.registered)
    (entriesOf id s.completed) (tasksOf id s.running) g.tasks.toList
  begun : ∀ id, tasksOf id s.begun = (entriesOf id s.completed).map Prod.fst ++ tasksOf id s.running
  dependents : ∀ p g, s.pending.lookup p = some g → ∀ id ∈ g.dependentTasks, ∃ gi e,
    s.pending.lookup id = some gi ∧ gi.tasks.toList.head? = some (fresh e) ∧ p ∈ e.1.parents

section Lookups

variable {pending : Pending Sender}
variable {g gp : BlockTaskGroup Sender} {id k p : Hash}

theorem mem_of_lookup (h : pending.lookup id = some g) : id ∈ pending :=
  lookup_isSome.mp (by rw [h]; rfl)

theorem exists_lookup (h : id ∈ pending) : ∃ g, pending.lookup id = some g :=
  isSome_iff_exists.mp (lookup_isSome.mpr h)

theorem mem_insert_known (h : k ∈ pending) (g : BlockTaskGroup Sender) :
    id ∈ pending.insert k g ↔ id ∈ pending := by
  rw [mem_insert]
  exact ⟨fun hor => hor.elim (fun he => he ▸ h) fun hm => hm, .inr⟩

theorem waitingFor_setTasks (h : pending.lookup k = some g) (q : TaskQueue Sender) (id : Hash) :
    waitingFor (pending.insert k ⟨q, g.dependentTasks⟩) id = waitingFor pending id :=
  add_right_cancel (total_replace h ⟨q, g.dependentTasks⟩)

theorem dependents_setTasks {q : TaskQueue Sender} (h : pending.lookup k = some g)
    (hp : (pending.insert k ⟨q, g.dependentTasks⟩).lookup p = some gp) :
    ∃ gp', pending.lookup p = some gp' ∧ gp'.dependentTasks = gp.dependentTasks := by
  rcases lookup_insert_eq_some.mp hp with ⟨rfl, rfl⟩ | ⟨_, hp⟩
  · exact ⟨g, h, rfl⟩
  · exact ⟨gp, hp, rfl⟩

theorem waitingFor_pos (h : pending.lookup p = some g) (hid : id ∈ g.dependentTasks) :
    0 < waitingFor pending id := by
  have hle : g.dependentTasks.count id ≤ waitingFor pending id :=
    le_total (f := fun g : BlockTaskGroup Sender => g.dependentTasks.count id) h
  have hpos : 0 < g.dependentTasks.count id := count_pos_iff.mpr hid
  omega

end Lookups

variable {parent : Hash → Hash → Prop} {s : Sys Sender}

theorem inv_init : Inv parent (Sys.init : Sys Sender) where
  parents := by simp [Sys.init]
  places id := by simp [Sys.init, Sys.places, tasksOf, waitingFor, total]
  absent := by simp [Sys.init]
  group := by simp [Sys.init]
  begun := by simp [Sys.init, tasksOf, entriesOf]
  dependents := by simp [Sys.init]

/-- A queued id has a group, its first task is there, and nobody else has the id. -/
theorem Inv.of_queued (hI : Inv parent s) (h : id ∈ s.queued) :
    ∃ g e rest, s.pending.lookup id = some g ∧
      entriesOf id s.registered = entriesOf id s.completed ++ e :: rest ∧
      tasksOf id s.running = [] ∧ g.tasks.toList = fresh e :: rest.map fresh ∧
      waitingFor s.pending id = 0 ∧ s.queued.count id = 1 := by
  have hplaces := hI.places id
  have hpos : 0 < s.queued.count id := count_pos_iff.mpr h
  unfold Sys.places at hplaces
  split at hplaces
  · rename_i hmem
    obtain ⟨g, hg⟩ := exists_lookup hmem
    have hrun : tasksOf id s.running = [] := length_eq_zero_iff.mp (by omega)
    rcases hI.group id g hg with ⟨e, rest, hreg, -, htasks⟩ | ⟨e, rest, -, hr, -⟩
    · exact ⟨g, e, rest, hg, hreg, hrun, htasks, by omega, by omega⟩
    · rw [hrun] at hr
      cases hr
  · omega

/-- A running task is the taken front of its group, and nobody else has the id. -/
theorem Inv.of_running (hI : Inv parent s) (h : task ∈ s.running) :
    ∃ g a b rest, s.pending.lookup task.hash = some g ∧
      entriesOf task.hash s.registered = entriesOf task.hash s.completed ++ (task, a, b) :: rest ∧
      tasksOf task.hash s.running = [task] ∧ g.tasks.toList = ⟨none, a, b⟩ :: rest.map fresh ∧
      waitingFor s.pending task.hash = 0 ∧ s.queued.count task.hash = 0 := by
  have hplaces := hI.places task.hash
  have hin : task ∈ tasksOf task.hash s.running := mem_filter.mpr ⟨h, by simp⟩
  have hpos := length_pos_of_mem hin
  unfold Sys.places at hplaces
  split at hplaces
  · rename_i hmem
    obtain ⟨g, hg⟩ := exists_lookup hmem
    rcases hI.group task.hash g hg with ⟨e, rest, -, hr, -⟩ | ⟨⟨t, a, b⟩, rest, hreg, hr, htasks⟩
    · rw [hr] at hin
      cases hin
    · have heq : task = t := by
        rw [hr] at hin
        exact mem_singleton.mp hin
      subst heq
      exact ⟨g, a, b, rest, hg, hreg, hr, htasks, by omega, by omega⟩
  · omega

variable {g gp : BlockTaskGroup Sender} {q : TaskQueue Sender}

theorem Inv.dependents_replaced (hI : Inv parent s) (hg : s.pending.lookup k = some g)
    (hw : waitingFor s.pending k = 0)
    (hp : (s.pending.insert k ⟨q, g.dependentTasks⟩).lookup p = some gp) : ∀ id ∈ gp.dependentTasks,
      ∃ gi e, (s.pending.insert k ⟨q, g.dependentTasks⟩).lookup id = some gi ∧
      gi.tasks.toList.head? = some (fresh e) ∧ p ∈ e.1.parents := by
  intro id hid
  obtain ⟨gp', hgp', hd⟩ := dependents_setTasks hg hp
  rw [← hd] at hid
  obtain ⟨gi, e, hgi, hrest⟩ := hI.dependents p gp' hgp' id hid
  have hne : id ≠ k := by
    rintro rfl
    exact (waitingFor_pos hgp' hid).ne' hw
  exact ⟨gi, e, by rw [lookup_insert_ne hne]; exact hgi, hrest⟩

theorem Inv.not_running (hI : Inv parent s) (h : id ∉ s.pending) : tasksOf id s.running = [] := by
  have hplaces := hI.places id
  unfold Sys.places at hplaces
  rw [if_neg h] at hplaces
  exact length_eq_zero_iff.mp (by omega)

theorem Holds.push {running : List BlockTask} {tasks : List (BlockTaskInternal Sender)}
    (h : Holds registered completed running tasks) (e : Entry Sender) :
    Holds (registered ++ [e]) completed running (tasks ++ [fresh e]) := by
  rcases h with ⟨e', rest, rfl, hr, rfl⟩ | ⟨e', rest, rfl, hr, rfl⟩
  · exact .inl ⟨e', rest ++ [e], by simp, hr, by simp⟩
  · exact .inr ⟨e', rest ++ [e], by simp, hr, by simp⟩

/-! ## 4. Each call keeps it -/

variable {a b : Sender}

section Register

variable (hI : Inv parent s) (hparents : ∀ p ∈ task.parents, parent p task.hash)

include hI hparents

theorem Inv.parents_registered :
    ∀ e ∈ s.registered ++ [(task, a, b)], ∀ p ∈ e.1.parents, parent p e.1.hash := by
  intro e he
  rcases mem_append.mp he with h | h
  · exact hI.parents e h
  · rw [mem_singleton.mp h]
    exact hparents

theorem Inv.register_new_step (hnew : task.hash ∉ s.pending) : Inv parent
      { s with
        pending := s.pending.insert task.hash ⟨.single ⟨some task, a, b⟩, []⟩
        queued := s.queued ++ [task.hash]
        registered := s.registered ++ [(task, a, b)] } where
  parents := hI.parents_registered hparents
  places id := by
    have hplaces := hI.places id
    unfold Sys.places waitingFor at hplaces ⊢
    simp only [total_insert_new hnew, count_nil, zero_add, count_append, mem_insert]
    by_cases hid : id = task.hash
    · subst hid
      simp only [hnew, if_false, true_or, if_true, count_singleton_self] at hplaces ⊢
      omega
    · simp only [hid, false_or, count_singleton, beq_iff_eq, Ne.symm hid, if_false]
      omega
  absent id hid := by
    rw [mem_insert, not_or] at hid
    obtain ⟨hne, hid⟩ := hid
    simp only [entriesOf_append, entriesOf_other (Ne.symm hne), append_nil]
    exact hI.absent id hid
  group id g hg := by
    rcases lookup_insert_eq_some.mp hg with ⟨rfl, rfl⟩ | ⟨hid, hg⟩
    · refine .inl ⟨(task, a, b), [], ?_, hI.not_running hnew, rfl⟩
      rw [entriesOf_append, entriesOf_own, hI.absent _ hnew]
    · simp only [entriesOf_append, entriesOf_other (Ne.symm hid), append_nil]
      exact hI.group id g hg
  begun := hI.begun
  dependents p g hg id hid := by
    rcases lookup_insert_eq_some.mp hg with ⟨rfl, rfl⟩ | ⟨_, hg⟩
    · cases hid
    · obtain ⟨gi, e, hgi, hrest⟩ := hI.dependents p g hg id hid
      have hne : id ≠ task.hash := fun he => hnew (he ▸ mem_of_lookup hgi)
      exact ⟨gi, e, by rw [lookup_insert_ne hne]; exact hgi, hrest⟩

theorem Inv.register_known_step (hg : s.pending.lookup task.hash = some g) : Inv parent
      { s with
        pending := s.pending.insert task.hash { g with tasks := g.tasks.pushBack ⟨some task, a, b⟩ }
        registered := s.registered ++ [(task, a, b)] } where
  parents := hI.parents_registered hparents
  places id := by
    have hplaces := hI.places id
    unfold Sys.places at hplaces ⊢
    simp only [waitingFor_setTasks hg, mem_insert_known (mem_of_lookup hg)]
    exact hplaces
  absent id hid := by
    rw [mem_insert_known (mem_of_lookup hg)] at hid
    have hne : task.hash ≠ id := fun he => hid (he ▸ mem_of_lookup hg)
    simp only [entriesOf_append, entriesOf_other hne, append_nil]
    exact hI.absent id hid
  group id g' hg' := by
    rcases lookup_insert_eq_some.mp hg' with ⟨rfl, rfl⟩ | ⟨hid, hg'⟩
    · simp only [entriesOf_append, entriesOf_own, TaskQueue.toList_pushBack]
      exact (hI.group _ g hg).push (task, a, b)
    · simp only [entriesOf_append, entriesOf_other (Ne.symm hid), append_nil]
      exact hI.group id g' hg'
  begun := hI.begun
  dependents p g' hg' id hid := by
    obtain ⟨gp, hgp, hd⟩ := dependents_setTasks hg hg'
    rw [← hd] at hid
    obtain ⟨gi, e, hgi, hhead, hpe⟩ := hI.dependents p gp hgp id hid
    by_cases hne : id = task.hash
    · subst hne
      rw [hg, some.injEq] at hgi
      subst hgi
      refine ⟨_, e, lookup_insert _, ?_, hpe⟩
      rw [TaskQueue.toList_pushBack, head?_append, hhead]
      rfl
    · exact ⟨gi, e, by rw [lookup_insert_ne hne]; exact hgi, hhead, hpe⟩

theorem Inv.register_step : Inv parent
      { s with
        pending := (register s.pending task a b).2
        queued := s.queued ++ (register s.pending task a b).1.toList
        registered := s.registered ++ [(task, a, b)] } := by
  by_cases hmem : task.hash ∈ s.pending
  · obtain ⟨g, hg⟩ := exists_lookup hmem
    simp only [register, hg, toList_none, append_nil]
    exact hI.register_known_step hparents hg
  · simp only [register, lookup_eq_none.mpr hmem, toList_some]
    exact hI.register_new_step hparents hmem

end Register

section Begin

variable {q₁ q₂ : List Hash} (hI : Inv parent s) (hq : s.queued = q₁ ++ id :: q₂)
  (hg : s.pending.lookup id = some g)

include hI hq hg

/-- The id goes from the queue to the dependents of a pending parent. -/
theorem Inv.wait_step (hhead : g.tasks.toList.head? = some (fresh e)) (hp : p ∈ e.1.parents)
    (hgp : s.pending.lookup p = some gp) : Inv parent { s with
        pending := s.pending.insert p { gp with dependentTasks := gp.dependentTasks ++ [id] }
        queued := q₁ ++ q₂ } := by
  -- a lookup afterwards is a lookup before, up to the dependents
  have hback : ∀ x gx, (s.pending.insert p
      { gp with dependentTasks := gp.dependentTasks ++ [id] }).lookup x = some gx →
      ∃ gx', s.pending.lookup x = some gx' ∧ gx'.tasks = gx.tasks ∧
        ∀ y ∈ gx.dependentTasks, y ∈ gx'.dependentTasks ∨ x = p ∧ y = id := by
    intro x gx hx
    rcases lookup_insert_eq_some.mp hx with ⟨rfl, rfl⟩ | ⟨_, hx⟩
    · refine ⟨gp, hgp, rfl, fun y hy => ?_⟩
      rcases mem_append.mp hy with h | h
      · exact .inl h
      · exact .inr ⟨rfl, mem_singleton.mp h⟩
    · exact ⟨gx, hx, rfl, fun y hy => .inl hy⟩
  have hforth : ∀ x gx, s.pending.lookup x = some gx → ∃ gx', (s.pending.insert p
      { gp with dependentTasks := gp.dependentTasks ++ [id] }).lookup x = some gx' ∧
      gx'.tasks = gx.tasks := by
    intro x gx hx
    by_cases hxp : x = p
    · subst hxp
      rw [hgp, some.injEq] at hx
      subst hx
      exact ⟨_, lookup_insert _, rfl⟩
    · exact ⟨gx, by rw [lookup_insert_ne hxp]; exact hx, rfl⟩
  refine ⟨hI.parents, fun x => ?_, fun x hx => ?_, fun x gx hx => ?_, hI.begun, ?_⟩
  · have hplaces := hI.places x
    unfold Sys.places at hplaces ⊢
    have htotal :=
      total_replace (f := fun g : BlockTaskGroup Sender => g.dependentTasks.count x) hgp
      { gp with dependentTasks := gp.dependentTasks ++ [id] }
    simp only [count_append] at htotal
    simp only [hq, count_append, count_cons] at hplaces
    simp only [count_append, mem_insert_known (mem_of_lookup hgp), waitingFor]
    simp only [waitingFor] at hplaces
    rw [count_singleton] at htotal
    omega
  · rw [mem_insert_known (mem_of_lookup hgp)] at hx
    exact hI.absent x hx
  · obtain ⟨gx', hx', htasks, -⟩ := hback x gx hx
    have := hI.group x gx' hx'
    rw [htasks] at this
    exact this
  · intro x gx hx y hy
    obtain ⟨gx', hx', -, hdep⟩ := hback x gx hx
    rcases hdep y hy with hold | ⟨rfl, rfl⟩
    · obtain ⟨gi, e', hgi, hhead', hpe⟩ := hI.dependents x gx' hx' y hold
      obtain ⟨gi', hgi', htasks⟩ := hforth y gi hgi
      exact ⟨gi', e', hgi', by rw [htasks]; exact hhead', hpe⟩
    · obtain ⟨gi', hgi', htasks⟩ := hforth y g hg
      exact ⟨gi', e, hgi', by rw [htasks]; exact hhead, hp⟩

/-- The id goes from the queue to a worker. -/
theorem Inv.start_step (hreg : entriesOf id s.registered = entriesOf id s.completed ++ e :: rest)
    (hrun : tasksOf id s.running = []) (hw : waitingFor s.pending id = 0)
    (htasks : q.toList = ⟨none, e.2.1, e.2.2⟩ :: rest.map fresh) : Inv parent { s with
        pending := s.pending.insert id { g with tasks := q }
        queued := q₁ ++ q₂
        running := e.1 :: s.running
        begun := s.begun ++ [e.1] } := by
  have hhash : e.1.hash = id := hash_of_mem_entriesOf (by rw [hreg]; simp)
  refine ⟨hI.parents, fun x => ?_, fun x hx => ?_, fun x gx hx => ?_, fun x => ?_, ?_⟩
  · have hplaces := hI.places x
    unfold Sys.places at hplaces ⊢
    simp only [waitingFor_setTasks hg, mem_insert_known (mem_of_lookup hg)]
    rw [← hplaces]
    simp only [hq, count_append, count_cons, beq_iff_eq]
    by_cases hx : id = x
    · subst hx
      rw [tasksOf_cons hhash, if_pos rfl, length_cons]
      omega
    · rw [tasksOf_cons_ne (by rw [hhash]; exact hx), if_neg hx]
      omega
  · rw [mem_insert_known (mem_of_lookup hg)] at hx
    exact hI.absent x hx
  · rcases lookup_insert_eq_some.mp hx with ⟨rfl, rfl⟩ | ⟨hxid, hx⟩
    · refine .inr ⟨e, rest, hreg, ?_, htasks⟩
      rw [tasksOf_cons hhash, hrun]
    · have := hI.group x gx hx
      rwa [tasksOf_cons_ne (by rw [hhash]; exact Ne.symm hxid)]
  · simp only [tasksOf_append, hI.begun x]
    by_cases hx : id = x
    · subst hx
      rw [tasksOf_cons hhash, tasksOf_cons hhash, hrun, append_nil]
      rfl
    · have hne : e.1.hash ≠ x := by rw [hhash]; exact hx
      rw [tasksOf_cons_ne hne, tasksOf_cons_ne hne]
      simp [tasksOf]
  · exact fun p gp => hI.dependents_replaced hg hw

end Begin

section Finish

variable {r₁ r₂ : List BlockTask} (hr : s.running = r₁ ++ task :: r₂)

include hr

theorem tasksOf_remove (hne : task.hash ≠ id) :
    tasksOf id (r₁ ++ r₂) = tasksOf id s.running := by
  rw [hr, tasksOf_append, tasksOf_append, tasksOf_cons_ne hne]

variable (hrun : tasksOf task.hash s.running = [task])

include hrun

theorem tasksOf_remove_self : tasksOf task.hash (r₁ ++ r₂) = [] := by
  have hlen := congrArg length hrun
  rw [hr, tasksOf_append, tasksOf_cons rfl] at hlen
  simp only [length_append, length_cons, length_nil] at hlen
  rw [tasksOf_append]
  exact length_eq_zero_iff.mp (by rw [length_append]; omega)

variable (hI : Inv parent s)

include hI

theorem Inv.begun_finish (id : Hash) : tasksOf id s.begun =
      (entriesOf id (s.completed ++ [(task, a, b)])).map Prod.fst ++ tasksOf id (r₁ ++ r₂) := by
  rw [hI.begun id]
  by_cases hid : task.hash = id
  · subst hid
    rw [hrun, tasksOf_remove_self hr hrun, entriesOf_append, entriesOf_own]
    simp
  · rw [tasksOf_remove hr hid, entriesOf_append, entriesOf_other hid, append_nil]

variable (hg : s.pending.lookup task.hash = some g) (hw : waitingFor s.pending task.hash = 0)

include hg hw

/-- The last task of a group ends: its dependents go to the queue. -/
theorem Inv.finish_last_step
    (hreg : entriesOf task.hash s.registered = entriesOf task.hash s.completed ++ [(task, a, b)])
    (hq : s.queued.count task.hash = 0) : Inv parent
      { s with
        pending := s.pending.erase task.hash
        queued := s.queued ++ g.dependentTasks
        running := r₁ ++ r₂
        completed := s.completed ++ [(task, a, b)] } := by
  refine ⟨hI.parents, fun x => ?_, fun x hx => ?_, fun x gx hx => ?_,
    fun x => hI.begun_finish hr hrun x, ?_⟩
  · have hplaces := hI.places x
    have htotal : waitingFor s.pending x =
        g.dependentTasks.count x + waitingFor (s.pending.erase task.hash) x := total_eq_add_erase hg
    unfold Sys.places at hplaces ⊢
    simp only [count_append, mem_erase]
    by_cases hx : task.hash = x
    · subst hx
      simp only [tasksOf_remove_self hr hrun, ne_eq, not_true_eq_false, false_and, if_false,
        length_nil]
      omega
    · simp only [tasksOf_remove hr hx, ne_eq, Ne.symm hx, not_false_eq_true, true_and]
      omega
  · rw [entriesOf_append]
    by_cases hxt : task.hash = x
    · subst hxt
      rw [hreg, entriesOf_own]
    · rw [entriesOf_other hxt, append_nil]
      exact hI.absent x fun hmem => hx (mem_erase.mpr ⟨Ne.symm hxt, hmem⟩)
  · obtain ⟨hxt, hx⟩ := lookup_erase_eq_some.mp hx
    simp only [entriesOf_append, entriesOf_other (Ne.symm hxt), append_nil,
      tasksOf_remove hr (Ne.symm hxt)]
    exact hI.group x gx hx
  · intro p gp hp y hy
    obtain ⟨_, hp⟩ := lookup_erase_eq_some.mp hp
    obtain ⟨gi, e', hgi, hhead, hpe⟩ := hI.dependents p gp hp y hy
    have hne : y ≠ task.hash := by
      rintro rfl
      have := waitingFor_pos hp hy
      omega
    exact ⟨gi, e', by rw [lookup_erase_ne hne]; exact hgi, hhead, hpe⟩

/-- A task ends and its group goes on: the id goes back to the queue. -/
theorem Inv.finish_next_step (hreg : entriesOf task.hash s.registered =
      entriesOf task.hash s.completed ++ (task, a, b) :: e :: rest)
    (htasks : q.toList = fresh e :: rest.map fresh) : Inv parent { s with
        pending := s.pending.insert task.hash { g with tasks := q }
        queued := s.queued ++ [task.hash]
        running := r₁ ++ r₂
        completed := s.completed ++ [(task, a, b)] } := by
  refine ⟨hI.parents, fun x => ?_, fun x hx => ?_, fun x gx hx => ?_,
    fun x => hI.begun_finish hr hrun x, ?_⟩
  · have hplaces := hI.places x
    unfold Sys.places at hplaces ⊢
    simp only [waitingFor_setTasks hg, mem_insert_known (mem_of_lookup hg), count_append,
      count_singleton, beq_iff_eq]
    rw [← hplaces]
    by_cases hx : task.hash = x
    · subst hx
      simp only [tasksOf_remove_self hr hrun, hrun, if_true, length_nil, length_cons]
    · simp only [tasksOf_remove hr hx, hx, if_false]
      omega
  · rw [mem_insert_known (mem_of_lookup hg)] at hx
    have hxt : task.hash ≠ x := fun he => hx (he ▸ mem_of_lookup hg)
    rw [entriesOf_append, entriesOf_other hxt, append_nil]
    exact hI.absent x hx
  · rcases lookup_insert_eq_some.mp hx with ⟨rfl, rfl⟩ | ⟨hxt, hx⟩
    · refine .inl ⟨e, rest, ?_, tasksOf_remove_self hr hrun, htasks⟩
      rw [hreg, entriesOf_append, entriesOf_own, append_assoc, singleton_append]
    · simp only [entriesOf_append, entriesOf_other (Ne.symm hxt), append_nil,
        tasksOf_remove hr (Ne.symm hxt)]
      exact hI.group x gx hx
  · exact fun p gp => hI.dependents_replaced hg hw

end Finish

variable {s' : Sys Sender}

/-- **Every call keeps the invariant.** -/
theorem Inv.step (hI : Inv parent s) (h : Step parent s s') : Inv parent s' := by
  cases h with
  | register hparents => exact hI.register_step hparents
  | @wait q₁ q₂ id pending hid hcall =>
    obtain ⟨g, e, rest, hg, -, -, htasks, -, -⟩ :=
      hI.of_queued (show id ∈ s.queued by rw [hid]; simp)
    rcases tryBegin_cases hg htasks with ⟨p, gp, hp, hgp, hok⟩ | ⟨-, q, -, hok⟩
    · rw [hok] at hcall
      cases hcall
      exact hI.wait_step hid hg (by rw [htasks]; rfl) hp hgp
    · rw [hok] at hcall
      cases hcall
  | @start q₁ q₂ id task pending hid hcall =>
    obtain ⟨g, e, rest, hg, hreg, hrun, htasks, hw, -⟩ :=
      hI.of_queued (show id ∈ s.queued by rw [hid]; simp)
    rcases tryBegin_cases hg htasks with ⟨p, gp, hp, hgp, hok⟩ | ⟨-, q, hq, hok⟩
    · rw [hok] at hcall
      cases hcall
    · rw [hok] at hcall
      cases hcall
      exact hI.start_step hid hg hreg hrun hw hq
  | @finish r₁ r₂ task e htask hcall =>
    obtain ⟨g, a, b, rest, hg, hreg, hrun, htasks, hw, hq⟩ :=
      hI.of_running (show task ∈ s.running by rw [htask]; simp)
    obtain ⟨e', hok, hcb, hcases⟩ := endTask_cases hg htasks
    rw [hok] at hcall
    cases hcall
    rw [hcb]
    rcases hcases with ⟨hrest, hnext, hpend⟩ | ⟨hrest, hnext, q, hq', hpend⟩
    · rw [hnext, hpend]
      rw [map_eq_nil_iff] at hrest
      subst hrest
      exact hI.finish_last_step htask hrun hg hw hreg hq
    · rw [hnext, hpend]
      cases rest with
      | nil => exact absurd rfl hrest
      | cons e rest => exact hI.finish_next_step htask hrun hg hw hreg hq'

theorem inv_of_reachable (h : Reachable parent s) : Inv parent s := by
  induction h with
  | refl => exact inv_init
  | tail _ hstep ih => exact ih.step hstep

/-! ## 5. Orderly runs -/

/-- A set in which everything has a parent in the set is empty, if no block is its own ancestor. -/
theorem eq_nil_of_all_have_parent (hacyclic : ∀ h, ¬ TransGen parent h h) {l : List Hash}
    (h : ∀ x ∈ l, ∃ p ∈ l, parent p x) : l = [] := by
  by_contra hne
  -- ancestry is a strict order, and on the members of a finite list it has a minimal element
  let r : {x // x ∈ l} → {x // x ∈ l} → Prop := fun x y => TransGen parent x y
  have : Std.Irrefl r := ⟨fun x => hacyclic x⟩
  have hwf : WellFounded r := Finite.wellFounded_of_trans_of_irrefl r
  obtain ⟨x, hx⟩ := exists_mem_of_ne_nil l hne
  obtain ⟨⟨m, hm⟩, -, hmin⟩ := hwf.has_min Set.univ ⟨⟨x, hx⟩, trivial⟩
  obtain ⟨p, hp, hpm⟩ := h m hm
  exact hmin ⟨p, hp⟩ trivial (.single hpm)

theorem perm_of_entriesOf_eq (h : ∀ id, entriesOf id l = entriesOf id m) : l.Perm m := by
  classical
  refine perm_iff_count.mpr fun e => ?_
  have hcount : ∀ k : List (Entry Sender), k.count e = (entriesOf e.1.hash k).count e := by
    intro k
    exact (count_filter (by simp)).symm
  rw [hcount l, hcount m, h]

structure Orderly (s : Sys Sender) : Prop where
  /-- `try_begin` does not panic, and a task is handed out only if no parent is pending. -/
  begins : ∀ id ∈ s.queued, ∃ task pending, tryBegin s.pending id = .ok (task, pending) ∧
    ∀ t ∈ task, t.hash = id ∧ ∀ p ∈ t.parents, p ∉ s.pending
  ends : ∀ task ∈ s.running, ∃ e, endTask s.pending task = .ok e
  /-- Tasks of a hash run one at a time: a task begins when the ones begun before it are
      completed. -/
  one_at_a_time : ∀ id, (tasksOf id s.running).length ≤ 1 ∧
    tasksOf id s.begun = (entriesOf id s.completed).map Prod.fst ++ tasksOf id s.running
  /-- Tasks of a hash begin and are completed in the order in which they were registered. -/
  in_order : ∀ id, tasksOf id s.begun <+: (entriesOf id s.registered).map Prod.fst ∧
    entriesOf id s.completed <+: entriesOf id s.registered
  /-- A pending group is queued, running, or in one dependent list of a pending group; no other
      id is anywhere. -/
  one_place : ∀ id, s.places id = if id ∈ s.pending then 1 else 0
  /-- Nothing is left behind. -/
  quiet : s.queued = [] → s.running = [] → s.pending = ∅ ∧ s.completed.Perm s.registered

theorem Inv.begins (hI : Inv parent s) (hid : id ∈ s.queued) :
    ∃ task pending, tryBegin s.pending id = .ok (task, pending) ∧
      ∀ t ∈ task, t.hash = id ∧ ∀ p ∈ t.parents, p ∉ s.pending := by
  obtain ⟨g, e, rest, hg, hreg, -, htasks, -, -⟩ := hI.of_queued hid
  rcases tryBegin_cases hg htasks with ⟨p, gp, -, -, hok⟩ | ⟨hparents, q, -, hok⟩
  · exact ⟨none, _, hok, nofun⟩
  · refine ⟨some e.1, _, hok, fun t ht => ?_⟩
    cases ht
    exact ⟨hash_of_mem_entriesOf (by rw [hreg]; simp), hparents⟩

theorem Inv.in_order (hI : Inv parent s) (id : Hash) :
    tasksOf id s.begun <+: (entriesOf id s.registered).map Prod.fst ∧
      entriesOf id s.completed <+: entriesOf id s.registered := by
  rw [hI.begun id]
  by_cases hmem : id ∈ s.pending
  · obtain ⟨g, hg⟩ := exists_lookup hmem
    rcases hI.group id g hg with ⟨e, rest, hreg, hr, -⟩ | ⟨e, rest, hreg, hr, -⟩
    · rw [hr, hreg]
      exact ⟨by simp, prefix_append _ _⟩
    · rw [hr, hreg]
      exact ⟨by simp, prefix_append _ _⟩
  · rw [hI.not_running hmem, hI.absent id hmem, append_nil]
    exact ⟨prefix_rfl, prefix_rfl⟩

/-- With nothing queued and nothing running, every pending id waits for a pending parent. -/
theorem Inv.pending_empty (hI : Inv parent s) (hacyclic : ∀ h, ¬ TransGen parent h h)
    (hq : s.queued = []) (hr : s.running = []) : s.pending = ∅ := by
  have hkeys : s.pending.keys = [] := by
    refine eq_nil_of_all_have_parent hacyclic fun id hid => ?_
    have hplaces := hI.places id
    have hmem : id ∈ s.pending := hid
    unfold Sys.places at hplaces
    rw [hq, hr, if_pos hmem] at hplaces
    simp only [count_nil, tasksOf, filter_nil, length_nil, zero_add] at hplaces
    obtain ⟨p, gp, hgp, hcount⟩ :=
      exists_pos_of_total_pos (show 0 < waitingFor s.pending id by omega)
    obtain ⟨gi, e, hgi, hhead, hp⟩ := hI.dependents p gp hgp id (count_pos_iff.mp hcount)
    refine ⟨p, mem_of_lookup hgp, ?_⟩
    have he : e ∈ entriesOf id s.registered := by
      rcases hI.group id gi hgi with ⟨e', rest, hreg, -, htasks⟩ | ⟨e', rest, hreg, -, htasks⟩
      · rw [htasks, head?_cons, some.injEq] at hhead
        have : e' = e := by
          simp only [fresh, BlockTaskInternal.mk.injEq, some.injEq] at hhead
          exact Prod.ext hhead.1 (Prod.ext hhead.2.1 hhead.2.2)
        rw [hreg, this]
        simp
      · rw [htasks, List.head?_cons] at hhead
        cases hhead
    have hparent := hI.parents e (mem_filter.mp he).1 p hp
    rwa [hash_of_mem_entriesOf he] at hparent
  exact ext (map_eq_nil_iff.mp hkeys)

/-- **Block tasks respect the DAG**: every state reached is orderly, however the calls are
    interleaved, if no block is its own ancestor. -/
theorem orderly_of_reachable (hacyclic : ∀ h, ¬ TransGen parent h h) (hs : Reachable parent s) :
    Orderly s := by
  have hI := inv_of_reachable hs
  refine ⟨fun id hid => hI.begins hid, fun task ht => ?_, fun id => ⟨?_, hI.begun id⟩, hI.in_order,
    hI.places, fun hq hr => ?_⟩
  · obtain ⟨g, a, b, rest, hg, -, -, htasks, -, -⟩ := hI.of_running ht
    obtain ⟨e, hok, -⟩ := endTask_cases hg htasks
    exact ⟨e, hok⟩
  · have hplaces := hI.places id
    unfold Sys.places at hplaces
    split at hplaces <;> omega
  · have hempty := hI.pending_empty hacyclic hq hr
    refine ⟨hempty, perm_of_entriesOf_eq fun id => (hI.absent id ?_).symm⟩
    rw [hempty]
    exact notMem_empty id

/-! ## 6. The workers finish -/

def WorkerStep (parent : Hash → Hash → Prop) (s s' : Sys Sender) : Prop :=
  Step parent s s' ∧ s'.registered = s.registered

theorem Inv.begun_le (hI : Inv parent s) : s.begun.length ≤ s.registered.length := by
  have hsub : s.begun.Subperm (s.registered.map Prod.fst) := by
    refine subperm_ext_iff.mpr fun t _ => ?_
    have hle := (hI.in_order t.hash).1.sublist.count_le t
    rw [tasksOf, count_filter (by simp)] at hle
    exact hle.trans ((filter_sublist.map _).count_le t)
  rw [← length_map Prod.fst]
  exact hsub.length_le

/-- What is left to do: tasks to begin, tasks to end, ids to try. -/
def Sys.work (s : Sys Sender) : ℕ ×ₗ ℕ ×ₗ ℕ :=
  toLex (s.registered.length - s.begun.length, toLex (s.running.length, s.queued.length))

/-- **A worker's call leaves less to do.** -/
theorem Inv.work_lt (hI : Inv parent s) (h : WorkerStep parent s s') : s'.work < s.work := by
  have hle := (hI.step h.1).begun_le
  obtain ⟨h, hreg⟩ := h
  simp only [Sys.work, Prod.Lex.toLex_lt_toLex]
  cases h with
  | register => simp at hreg
  | wait hid => simp [hid]
  | start hid =>
    left
    simp only [length_append, length_singleton] at hle ⊢
    omega
  | finish htask => simp [htask]

/-- As long as something is queued or running, a worker has a call to make. -/
theorem Inv.worker_step (hI : Inv parent s) (h : s.queued ≠ [] ∨ s.running ≠ []) :
    ∃ s', WorkerStep parent s s' := by
  rcases h with h | h
  · obtain ⟨id, hid⟩ := exists_mem_of_ne_nil _ h
    obtain ⟨q₁, q₂, hq⟩ := append_of_mem hid
    obtain ⟨task, pending, hok, -⟩ := hI.begins hid
    cases task with
    | none => exact ⟨_, .wait hq hok, rfl⟩
    | some task => exact ⟨_, .start hq hok, rfl⟩
  · obtain ⟨task, htask⟩ := exists_mem_of_ne_nil _ h
    obtain ⟨r₁, r₂, hr⟩ := append_of_mem htask
    obtain ⟨g, a, b, rest, hg, -, -, htasks, -, -⟩ := hI.of_running htask
    obtain ⟨e, hok, -⟩ := endTask_cases hg htasks
    exact ⟨_, .finish hr hok, rfl⟩

theorem WorkerStep.steps {t : Sys Sender} (h : ReflTransGen (WorkerStep parent) s t) :
    ReflTransGen (Step parent) s t ∧ t.registered = s.registered := by
  induction h with
  | refl => exact ⟨.refl, rfl⟩
  | tail _ hstep ih => exact ⟨ih.1.tail hstep.1, hstep.2.trans ih.2⟩

/-- **The workers finish**: they cannot make calls for ever, and where no call is left, every
    registered task was completed once. -/
theorem workers_finish (hacyclic : ∀ h, ¬ TransGen parent h h) (hs : Reachable parent s) :
    (¬ ∃ run : Nat → Sys Sender, run 0 = s ∧ ∀ n, WorkerStep parent (run n) (run (n + 1))) ∧
    ∀ t, ReflTransGen (WorkerStep parent) s t → (∀ u, ¬ WorkerStep parent t u) →
      t.pending = ∅ ∧ t.completed.Perm s.registered := by
  constructor
  · rintro ⟨run, rfl, hrun⟩
    have hI : ∀ n, Inv parent (run n) := fun n => by
      induction n with
      | zero => exact inv_of_reachable hs
      | succ n ih => exact ih.step (hrun n).1
    exact not_strictAnti_of_wellFoundedLT (fun n => (run n).work)
      (strictAnti_nat_of_succ_lt fun n => (hI n).work_lt (hrun n))
  · intro t ht hstuck
    obtain ⟨hsteps, hreg⟩ := WorkerStep.steps ht
    have hI := inv_of_reachable (hs.trans hsteps)
    have hidle : t.queued = [] ∧ t.running = [] := by
      by_contra hne
      obtain ⟨u, hu⟩ := hI.worker_step (not_and_or.mp hne)
      exact hstuck u hu
    have hempty := hI.pending_empty hacyclic hidle.1 hidle.2
    refine ⟨hempty, hreg ▸ perm_of_entriesOf_eq fun id => (hI.absent id ?_).symm⟩
    rw [hempty]
    exact notMem_empty id

/-! ## 7. Three calls: a block and its child are registered, and the child is tried first -/

def plainTask (hash : Hash) (parents : List Hash) : BlockTask :=
  .ordinary
    { header :=
        { hash, version := 0, parentsByLevel := ⟨[(1, parents)]⟩, hashMerkleRoot := Hash.default,
          acceptedIdMerkleRoot := Hash.default, accountCommitment := Hash.default, timestamp := 0,
          bits := 0, nonce := 0, daaScore := 0, blueWork := 0, blueScore := 0, pruningPoint :=
          Hash.default }
      transactions := [] }

def rootTask : BlockTask := plainTask (.ofNat 1) []

def childTask : BlockTask := plainTask (.ofNat 2) [.ofNat 1]

def oneLink (p h : Hash) : Prop := p = .ofNat 1 ∧ h = .ofNat 2

theorem oneLink_acyclic (h : Hash) : ¬ TransGen oneLink h h := by
  intro hcycle
  obtain ⟨x, -, hlast⟩ := TransGen.tail'_iff.mp hcycle
  obtain ⟨y, hfirst, -⟩ := TransGen.head'_iff.mp hcycle
  exact absurd (hfirst.1.symm.trans hlast.2) (by decide)

def oneRegistered : Sys Nat :=
  { Sys.init with
    pending := (register ∅ rootTask 0 0).2
    queued := [.ofNat 1]
    registered := [(rootTask, 0, 0)] }

def bothRegistered : Sys Nat :=
  { oneRegistered with
    pending := (register oneRegistered.pending childTask 1 1).2
    queued := [.ofNat 1, .ofNat 2]
    registered := [(rootTask, 0, 0), (childTask, 1, 1)] }

def childWaits : Sys Nat :=
  { bothRegistered with
    pending := ((tryBegin bothRegistered.pending (.ofNat 2)).toOption.map Prod.snd).getD ∅
    queued := [.ofNat 1] }

theorem reachable_childWaits : Reachable oneLink childWaits := by
  have h1 : Step oneLink Sys.init oneRegistered :=
    @Step.register _ _ _ rootTask 0 0 fun p hp => absurd (show p ∈ [] from hp) not_mem_nil
  have h2 : Step oneLink oneRegistered bothRegistered :=
    @Step.register _ _ _ childTask 1 1 fun p hp => ⟨mem_singleton.mp hp, rfl⟩
  have h3 : Step oneLink bothRegistered childWaits :=
    @Step.wait _ _ bothRegistered [.ofNat 1] [] _ _ rfl rfl
  exact ((ReflTransGen.single h1).tail h2).tail h3

theorem orderly_childWaits : Orderly childWaits :=
  orderly_of_reachable oneLink_acyclic reachable_childWaits

theorem workers_finish_childWaits :
    Reachable oneLink childWaits ∧ ∀ t, ReflTransGen (WorkerStep oneLink) childWaits t →
    (∀ u, ¬ WorkerStep oneLink t u) → t.pending = ∅ ∧ t.completed.Perm childWaits.registered :=
  ⟨reachable_childWaits, (workers_finish oneLink_acyclic reachable_childWaits).2⟩

end Sahyadri.Deps
