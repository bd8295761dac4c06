import Sahyadri.Lib.Table
import Sahyadri.Core.Header

/-!
# `consensus/src/pipeline/deps_manager.rs`: pending block tasks and their dependencies

* `TaskQueue`: the tasks of one hash, in the three forms of the source; `toList` is what they all
  stand for.
-/

namespace Sahyadri.Deps

open Lib Core Smt

/-! ## 1. Tasks -/

structure Block where
  header : Header
  transactions : List Transaction
  deriving DecidableEq

inductive BlockTask where
  | ordinary (block : Block)
  | trusted (block : Block)
  deriving DecidableEq

def BlockTask.block : BlockTask → Block
  | .ordinary block => block
  | .trusted block => block

/-- `task.block().hash()`: the cached hash of the header. -/
def BlockTask.hash (task : BlockTask) : Hash := task.block.header.hash

def BlockTask.parents (task : BlockTask) : List Hash := task.block.header.parents

variable {Sender : Type}

/-- `BlockTaskInternal`: the task is gone while a worker has it. -/
structure BlockTaskInternal (Sender : Type) where
  task : Option BlockTask
  blockResultTransmitter : Sender
  virtualStateResultTransmitter : Sender

inductive TaskQueue (Sender : Type) where
  | empty
  | single (task : BlockTaskInternal Sender)
  | many (tasks : List (BlockTaskInternal Sender))

namespace TaskQueue

def pushBack (task : BlockTaskInternal Sender) : TaskQueue Sender → TaskQueue Sender
  | .empty => .single task
  | .single t => .many [t, task]
  | .many q => .many (q ++ [task])

def front : TaskQueue Sender → Option (BlockTaskInternal Sender)
  | .empty => none
  | .single t => some t
  | .many q => q.head?

/-- `front_mut().unwrap().task.take().unwrap()`. -/
def takeFront : TaskQueue Sender → Option (BlockTask × TaskQueue Sender)
  | .empty => none
  | .single t => t.task.map fun task => (task, .single { t with task := none })
  | .many [] => none
  | .many (t :: q) => t.task.map fun task => (task, .many ({ t with task := none } :: q))

def popFront : TaskQueue Sender → Option (BlockTaskInternal Sender × TaskQueue Sender)
  | .empty => none
  | .single t => some (t, .empty)
  | .many [] => none
  | .many (t :: q) => some (t, .many q)

def isEmpty : TaskQueue Sender → Bool
  | .empty => true
  | .single _ => false
  | .many q => q.isEmpty

def toList : TaskQueue Sender → List (BlockTaskInternal Sender)
  | .empty => []
  | .single t => [t]
  | .many q => q

variable (q : TaskQueue Sender)

theorem toList_pushBack (t : BlockTaskInternal Sender) :
    (q.pushBack t).toList = q.toList ++ [t] := by
  cases q <;> rfl

theorem front_eq : q.front = q.toList.head? := by
  cases q <;> rfl

theorem isEmpty_eq : q.isEmpty = q.toList.isEmpty := by
  cases q <;> rfl

variable {rest : List (BlockTaskInternal Sender)} {q : TaskQueue Sender}

theorem takeFront_eq {task : BlockTask} {a b : Sender} (h : q.toList = ⟨some task, a, b⟩ :: rest) :
    ∃ q' : TaskQueue Sender, q'.toList = ⟨none, a, b⟩ :: rest ∧ q.takeFront = some (task, q') := by
  cases q with
  | empty => cases h
  | single t =>
    cases h
    exact ⟨.single ⟨none, a, b⟩, rfl, rfl⟩
  | many l =>
    subst h
    exact ⟨.many (⟨none, a, b⟩ :: rest), rfl, rfl⟩

theorem popFront_eq {t : BlockTaskInternal Sender} (h : q.toList = t :: rest) :
    ∃ q' : TaskQueue Sender, q'.toList = rest ∧ q.popFront = some (t, q') := by
  cases q with
  | empty => cases h
  | single t' =>
    cases h
    exact ⟨.empty, rfl, rfl⟩
  | many l =>
    subst h
    exact ⟨.many rest, rfl, rfl⟩

end TaskQueue

/-- `BlockTaskGroup`: the tasks of one hash, and the ids that wait for it. -/
structure BlockTaskGroup (Sender : Type) where
  tasks : TaskQueue Sender
  dependentTasks : List Hash

abbrev Pending (Sender : Type) := Table Hash (BlockTaskGroup Sender)

/-! ## 2. The calls -/

open TaskQueue

/-- `register`: the id is returned if it has to be queued. -/
def register (pending : Pending Sender) (task : BlockTask)
    (blockResultTransmitter virtualStateResultTransmitter : Sender) :
    Option Hash × Pending Sender :=
  let internal := ⟨some task, blockResultTransmitter, virtualStateResultTransmitter⟩
  match pending.lookup task.hash with
  | none => (some task.hash, pending.insert task.hash ⟨.single internal, []⟩)
  | some g => (none, pending.insert task.hash { g with tasks := g.tasks.pushBack internal })

/-- `try_begin`: the first parent that is pending gets the id as a dependent. -/
def tryBegin (pending : Pending Sender) (taskId : Hash) :
    Run Empty (Option BlockTask × Pending Sender) :=
  match pending.lookup taskId with
  | none => .panicked
  | some group =>
    match group.tasks.front with
    | none => .panicked
    | some internalTask =>
      match internalTask.task with
      | none => .panicked
      | some task => do
        let directParents ← task.block.header.directParents
        match directParents.findSome? fun p => (pending.lookup p).map (p, ·) with
        | some (parent, parentTask) =>
          .ok (none, pending.insert parent
            { parentTask with dependentTasks := parentTask.dependentTasks ++ [taskId] })
        | none =>
          match group.tasks.takeFront with
          | none => .panicked
          | some (task, tasks) => .ok (some task, pending.insert taskId { group with tasks })

/-- What `end` leaves: the ids to be queued, what the callback got, whether idleness was signalled,
    and the map. -/
structure Ended (Sender : Type) where
  nextTasks : List Hash
  callback : BlockTask × Sender × Sender
  idle : Bool
  pending : Pending Sender

variable {pending : Pending Sender} {task : BlockTask}

def endTask (pending : Pending Sender) (task : BlockTask) : Run Empty (Ended Sender) :=
  match pending.lookup task.hash with
  | none => .panicked
  | some group =>
    match group.tasks.popFront with
    | none => .panicked
    | some (internalTask, tasks) =>
      let (nextTasks, pending') :=
        if tasks.isEmpty then (group.dependentTasks, pending.erase task.hash)
        else ([task.hash], pending.insert task.hash { group with tasks })
      if internalTask.task.isSome then .panicked
      else .ok
        { nextTasks
          callback := (task, internalTask.blockResultTransmitter,
            internalTask.virtualStateResultTransmitter)
          idle := pending'.keys.isEmpty
          pending := pending' }

/-! ## 3. What the calls do -/

variable {g : BlockTaskGroup Sender} {rest : List (BlockTaskInternal Sender)} {a b : Sender}

/-- A task at the front of its group is put behind a pending parent, or handed out because there
    is none. -/
theorem tryBegin_cases {id : Hash} (hg : pending.lookup id = some g)
    (hf : g.tasks.toList = ⟨some task, a, b⟩ :: rest) :
    (∃ p gp, p ∈ task.parents ∧ pending.lookup p = some gp ∧ tryBegin pending id =
      .ok (none, pending.insert p { gp with dependentTasks := gp.dependentTasks ++ [id] })) ∨
    ((∀ p ∈ task.parents, p ∉ pending) ∧ ∃ q : TaskQueue Sender, q.toList = ⟨none, a, b⟩ :: rest ∧
      tryBegin pending id = .ok (some task, pending.insert id { g with tasks := q })) := by
  have hfront : g.tasks.front = some ⟨some task, a, b⟩ := by rw [front_eq, hf]; rfl
  simp only [tryBegin, hg, hfront, Header.directParents_eq, Run.ok_bind]
  cases hfind : task.block.header.parents.findSome? fun p => (pending.lookup p).map (p, ·) with
  | some pg =>
    obtain ⟨p, gp⟩ := pg
    obtain ⟨p', hp', hl⟩ := List.exists_of_findSome?_eq_some hfind
    obtain ⟨gp', hgp', he⟩ := Option.map_eq_some_iff.mp hl
    cases he
    exact .inl ⟨p, gp, hp', hgp', rfl⟩
  | none =>
    obtain ⟨q, hq, htake⟩ := takeFront_eq hf
    refine .inr ⟨fun p hp => ?_, q, hq, by rw [htake]⟩
    have := List.findSome?_eq_none_iff.mp hfind p hp
    exact AList.lookup_eq_none.mp (Option.map_eq_none_iff.mp this)

/-- The task that was handed out is taken off its group; the group goes when it was the last. -/
theorem endTask_cases (hg : pending.lookup task.hash = some g)
    (hf : g.tasks.toList = ⟨none, a, b⟩ :: rest) :
    ∃ e, endTask pending task = .ok e ∧ e.callback = (task, a, b) ∧
      ((rest = [] ∧ e.nextTasks = g.dependentTasks ∧ e.pending = pending.erase task.hash) ∨
       (rest ≠ [] ∧ e.nextTasks = [task.hash] ∧ ∃ q : TaskQueue Sender, q.toList = rest ∧
         e.pending = pending.insert task.hash { g with tasks := q })) := by
  obtain ⟨q, hq, hpop⟩ := popFront_eq hf
  simp only [endTask, hg, hpop, isEmpty_eq, hq, Option.isSome_none, Bool.false_eq_true,
    if_false, Except.ok.injEq, exists_eq_left']
  cases rest with
  | nil => simp
  | cons t rest =>
    refine ⟨trivial, .inr ⟨by simp, by simp, q, hq, by simp⟩⟩

end Sahyadri.Deps
