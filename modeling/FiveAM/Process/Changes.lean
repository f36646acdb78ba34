/- GID: FiveAM/Process/Changes
   source: kernel/src/task.rs, kernel/src/syscall.rs
   digest: All that one event can do to the tasks of the table: who begins, ends or becomes another. -/

import FiveAM.Process.Completion
import FiveAM.Process.FrameMemory

set_option autoImplicit false
set_option relaxedAutoImplicit false

namespace FiveAM.Process.Changes

open FiveAM.Process.TaskTable FiveAM.Process.Machine FiveAM.Process.Pipes FiveAM.Process.Signals
open FiveAM.Process.Lifecycle FiveAM.Process.Syscalls FiveAM.Process.Schedule
open FiveAM.Process.System FiveAM.Process.Effects FiveAM.Process.TableShape
open FiveAM.Process.FrameMemory
open FiveAM.Process.Completion (numberAt inCall)
open FiveAM.Lib.ByteMemory FiveAM.Lib.Runs

/-- What a task is to the others: whose child, in which space, with which code and
stack. -/
structure Self (task task' : Task) : Prop where
  parent : task'.parent = task.parent
  space : task'.addressSpace = task.addressSpace
  code : task'.exitCode = task.exitCode
  top : task'.stackTop = task.stackTop
  limit : task'.stackLimit = task.stackLimit

/-- What happens to a task that goes on: it wakes, or it is running and goes to
sleep. -/
inductive Drift (running : Prop) : State → State → Prop
  | stays {s : State} : Drift running s s
  | wakes {r : Reason} : Drift running (.blocked r) .ready
  | sleeps {s : State} {r : Reason} (here : running) (live : s.Live) : Drift running s (.blocked r)

namespace Drift

variable {running : Prop} {a b c : State}

theorem trans (first : Drift running a b) (second : Drift running b c) : Drift running a c := by
  cases first with
  | stays => exact second
  | wakes =>
      cases second with
      | stays => exact .wakes
      | sleeps here live => exact .sleeps here (by simp [State.Live])
  | sleeps here live =>
      cases second with
      | stays => exact .sleeps here live
      | wakes =>
          cases a with
          | free => exact absurd rfl live.1
          | ready => exact .stays
          | blocked r => exact .wakes
          | finished => exact absurd rfl live.2
      | sleeps => exact .sleeps here live

theorem free_iff (drift : Drift running a b) : b = .free ↔ a = .free := by
  cases drift with
  | stays => exact Iff.rfl
  | wakes => simp
  | sleeps here live => exact ⟨fun none => by simp at none, fun none => absurd none live.1⟩

theorem finished_iff (drift : Drift running a b) : b = .finished ↔ a = .finished := by
  cases drift with
  | stays => exact Iff.rfl
  | wakes => simp
  | sleeps here live => exact ⟨fun none => by simp at none, fun none => absurd none live.2⟩

theorem live_iff (drift : Drift running a b) : b.Live ↔ a.Live :=
  and_congr (not_congr drift.free_iff) (not_congr drift.finished_iff)

theorem asleep (drift : Drift running a b) {r : Reason} (sleeps : b = .blocked r)
    (other : ¬running) : a = .blocked r := by
  cases drift with
  | stays => exact sleeps
  | wakes => simp at sleeps
  | sleeps here => exact absurd here other

end Drift

/-- The task in a slot goes on, while `runs` has the processor. -/
structure Goes (runs : TaskId) (k k' : Kernel) (id : TaskId) : Prop where
  self : Self (k.tasks id) (k'.tasks id)
  state : Drift (id = runs) (k.tasks id).state (k'.tasks id).state

/-- Every task goes on, and no address space is left over. -/
structure Continues (runs : TaskId) (k k' : Kernel) : Prop where
  goes : ∀ id, Goes runs k k' id
  orphans : k'.orphans = k.orphans

namespace Continues

variable {runs : TaskId} {k k' k'' : Kernel}

theorem of_tasks (tasks : k'.tasks = k.tasks) (orphans : k'.orphans = k.orphans) :
    Continues runs k k' := by
  refine ⟨fun id => ?_, orphans⟩
  refine ⟨?_, ?_⟩ <;> rw [tasks]
  · exact ⟨rfl, rfl, rfl, rfl, rfl⟩
  · exact .stays

theorem refl (runs : TaskId) (k : Kernel) : Continues runs k k := of_tasks rfl rfl

theorem trans (first : Continues runs k k') (second : Continues runs k' k'') :
    Continues runs k k'' where
  goes id := by
    obtain ⟨⟨parent, space, code, top, limit⟩, state⟩ := first.goes id
    obtain ⟨⟨parent', space', code', top', limit'⟩, state'⟩ := second.goes id
    exact ⟨⟨parent'.trans parent, space'.trans space, code'.trans code, top'.trans top,
      limit'.trans limit⟩, state.trans state'⟩
  orphans := second.orphans.trans first.orphans

theorem setTask (id : TaskId) (task : Task) (self : Self (k.tasks id) task)
    (state : Drift (id = runs) (k.tasks id).state task.state) :
    Continues runs k (k.setTask id task) := by
  refine ⟨fun j => ?_, rfl⟩
  by_cases same : j = id
  · subst same
    constructor <;> simp only [Kernel.setTask, Function.update_self]
    · exact self
    · exact state
  · constructor <;> simp only [Kernel.setTask, Function.update_of_ne same]
    · exact ⟨rfl, rfl, rfl, rfl, rfl⟩
    · exact .stays

theorem touch (id : TaskId) (task : Task) (self : Self (k.tasks id) task)
    (state : task.state = (k.tasks id).state) : Continues runs k (k.setTask id task) :=
  setTask id task self (state ▸ .stays)

theorem wakeAll (k : Kernel) (channel : Word) : Continues runs k (k.wakeAll channel) := by
  refine ⟨fun id => ?_, rfl⟩
  constructor <;> simp only [Kernel.wakeAll] <;> split_ifs with waits
  · exact ⟨rfl, rfl, rfl, rfl, rfl⟩
  · exact ⟨rfl, rfl, rfl, rfl, rfl⟩
  · rw [waits]
    exact .wakes
  · exact .stays

theorem setFile (k : Kernel) (id : TaskId) (fd : Fin maxFiles) (d : Descriptor) :
    Continues runs k (Pipes.setFile k id fd d) := touch id _ ⟨rfl, rfl, rfl, rfl, rfl⟩ rfl

theorem setPipe (k : Kernel) (p : PipeId) (pipe : Pipe) :
    Continues runs k (Pipes.setPipe k p pipe) := of_tasks rfl rfl

theorem storeView (k : Kernel) (m : Bytes) : Continues runs k (k.storeView m) := of_tasks rfl rfl

theorem closeReader (k : Kernel) (p : PipeId) : Continues runs k (Pipes.closeReader k p) :=
  (setPipe k p _).trans (wakeAll _ _)

theorem closeWriter (k : Kernel) (p : PipeId) : Continues runs k (Pipes.closeWriter k p) :=
  (setPipe k p _).trans (wakeAll _ _)

theorem dropDescriptor (k : Kernel) (d : Descriptor) :
    Continues runs k (Pipes.dropDescriptor k d).2 := by
  cases d with
  | free => exact refl runs k
  | console => exact refl runs k
  | pipeRead p => exact closeReader k p
  | pipeWrite p => exact closeWriter k p

theorem closeDescriptor (k : Kernel) (id : TaskId) (fd : Nat) :
    Continues runs k (Pipes.closeDescriptor k id fd).2 := by
  unfold Pipes.closeDescriptor
  split_ifs with bound
  · exact (setFile k id ⟨fd, bound⟩ .free).trans (dropDescriptor _ _)
  · exact refl runs k

theorem closeAllDescriptors (k : Kernel) (id : TaskId) :
    Continues runs k (Pipes.closeAllDescriptors k id) := by
  unfold Pipes.closeAllDescriptors
  exact List.foldlRecOn (motive := fun k' => Continues runs k k') _ _ (refl runs k)
    fun _ here fd _ => here.trans (closeDescriptor _ id fd)

theorem duplicateDescriptor (k : Kernel) (id : TaskId) (old new : Nat) :
    Continues runs k (Pipes.duplicateDescriptor k id old new).2 := by
  have shared : ∀ (k : Kernel) (d : Descriptor), Continues runs k (shareDescriptor k d) := by
    intro k d
    cases d <;> exact of_tasks rfl rfl
  simp only [Pipes.duplicateDescriptor]
  split_ifs
  · exact refl runs k
  · exact refl runs k
  · exact (closeDescriptor k id new).trans ((shared _ _).trans (setFile _ id _ _))
  · exact refl runs k

private theorem added {k k₁ : Kernel} {id : TaskId} {d : Descriptor} {fd : Fin maxFiles}
    (added : addDescriptor k id d = (some fd, k₁)) : Continues runs k k₁ := by
  obtain ⟨-, rfl⟩ := addDescriptor_some added
  exact setFile k id fd d

private theorem made {k k₁ : Kernel} {p : PipeId} (made : create k = (some p, k₁)) :
    Continues runs k k₁ := by
  unfold Pipes.create at made
  split at made
  · simp at made
  · exact (Prod.mk.inj made).2 ▸ setPipe k _ _

theorem makePipe {answer : Word} (run : MakePipe k answer k') : Continues runs k k' := by
  cases run with
  | refused => exact refl runs k
  | noReadSlot create => exact (made create).trans ((closeReader _ _).trans (closeWriter _ _))
  | noWriteSlot create readEnd =>
      exact (made create).trans ((added readEnd).trans
        ((closeDescriptor _ _ _).trans (closeWriter _ _)))
  | stored create readEnd writeEnd low =>
      exact (made create).trans ((added readEnd).trans ((added writeEnd).trans (storeView _ _)))

theorem deliver (k : Kernel) (id : TaskId) (frame : Word) :
    Continues runs k (Signals.deliver k id frame).2 := by
  obtain ⟨pending, memory, eq⟩ := deliver_changes k id frame
  rw [eq]
  exact (touch id { k.tasks id with pending := pending } ⟨rfl, rfl, rfl, rfl, rfl⟩ rfl).trans
    (of_tasks rfl rfl)

theorem delivered (k : Kernel) (context : Word) :
    Continues runs k (TableShape.delivered k context).2 := by
  unfold TableShape.delivered
  split_ifs
  · exact deliver k _ context
  · exact refl runs k

theorem signal (k : Kernel) (id number : Nat) : Continues runs k (Signals.signal k id number).2 := by
  simp only [Signals.signal]
  split_ifs with bound ceased
  · exact refl runs k
  · refine setTask _ _ ⟨rfl, rfl, rfl, rfl, rfl⟩ ?_
    cases state : (k.tasks ⟨id, bound.1⟩).state with
    | blocked reason => exact .wakes
    | free => exact .stays
    | ready => exact .stays
    | finished => exact .stays
  · exact refl runs k

theorem setSignalHandler (k : Kernel) (id : TaskId) (number : Nat) (handler restorer : Word) :
    Continues runs k (Signals.setSignalHandler k id number handler restorer).2 := by
  unfold Signals.setSignalHandler
  split_ifs
  · exact touch _ _ ⟨rfl, rfl, rfl, rfl, rfl⟩ rfl
  · exact refl runs k
  · exact refl runs k

section Sleeping

variable (live : (k.tasks k.current).state.Live)

include live

private theorem blocked (reason : Reason) : Continues k.current k
    (k.setTask k.current { k.tasks k.current with state := .blocked reason }) :=
  setTask _ _ ⟨rfl, rfl, rfl, rfl, rfl⟩ (.sleeps rfl live)

theorem park (channel : Word) : Continues k.current k (Lifecycle.park k channel) := blocked live _

theorem sleep (ticks : Nat) : Continues k.current k (Lifecycle.sleep k ticks) := blocked live _

theorem io (io : Io k k') : Continues k.current k k' := by
  induction io with
  | none => exact refl _ k
  | pipe _ same ih => exact ih.trans (setPipe _ _ _)
  | store _ _ _ low ih => exact ih.trans (storeView _ _)
  | wake _ channel ih => exact ih.trans (wakeAll _ channel)
  | @park k₁ prior channel ih =>
      have same : k₁.current = k.current := (tame_io live prior).current
      refine ih.trans (setTask _ _ ⟨rfl, rfl, rfl, rfl, rfl⟩ (.sleeps same ?_))
      rw [same, (ih.goes k.current).state.live_iff]
      exact live

end Sleeping

end Continues

/-- How a free slot is filled: by a kernel task, by a program for the shell, or by a child
of the running task. -/
inductive Born (k : Kernel) (old : Task) : Task → Prop
  | kernel (stack : Word) (priority : Fin 256) : Born k old (kernelTask old stack priority)
  | program (stack : Word) (root : Root) : Born k old (programTask old stack root (some 0))
  | child (stack : Word) (root : Root) :
      Born k old (childTask old (k.tasks k.current) k.current root stack)

/-- What an event can do beyond the everyday: fill a slot, load a program into a space,
empty the finished slots, hand out the left-over spaces. -/
structure Scope where
  fills : TaskId → Prop
  loads : Root → Prop
  reaps : Prop
  reclaims : Prop

def Scope.everyday : Scope := ⟨fun _ => False, fun _ => False, False, False⟩

/-- What one event does to the table: everybody goes on; a slot is filled; a task ends,
and nobody sleeps for its end any more; the running task becomes another program; it collects a
child; finished slots are emptied; or left-over spaces are handed out. -/
inductive Change (scope : Scope) (k k' : Kernel) : Prop
  | continues (goesOn : Continues k.current k k')
  | born {id : TaskId} {task : Task} (filled : scope.fills id)
      (vacant : (k.tasks id).state = .free)
      (birth : Born k (k.tasks id) task) (tasks : k'.tasks = Function.update k.tasks id task)
      (orphans : k'.orphans = k.orphans)
  | ended {id : TaskId} (live : (k.tasks id).state.Live)
      (others : ∀ j, j ≠ id → Goes k.current k k' j)
      (finished : (k'.tasks id).state = .finished) (parent : (k'.tasks id).parent = (k.tasks id).parent)
      (space : (k'.tasks id).addressSpace = (k.tasks id).addressSpace)
      (top : (k'.tasks id).stackTop = (k.tasks id).stackTop)
      (limit : (k'.tasks id).stackLimit = (k.tasks id).stackLimit)
      (woken : ∀ j, (k'.tasks j).state ≠ .blocked (.channel (Kernel.completion id)))
      (orphans : k'.orphans = k.orphans)
  | replaced {task : Task} {root : Root} (loaded : scope.loads root)
      (live : (k.tasks k.current).state.Live)
      (tasks : k'.tasks = Function.update k.tasks k.current task)
      (state : task.state = (k.tasks k.current).state)
      (parent : task.parent = (k.tasks k.current).parent)
      (space : task.addressSpace = some root) (code : task.exitCode = (k.tasks k.current).exitCode)
      (top : task.stackTop = userStackTop) (limit : task.stackLimit = userStackLimit)
      (orphans : k'.orphans = k.orphans)
  | collected {id : TaskId} (child : (k.tasks id).parent = some k.current)
      (ceased : (k.tasks id).state = .finished)
      (tasks : k'.tasks = Function.update k.tasks id empty)
      (orphans : k'.orphans = k.orphans ++ (k.tasks id).addressSpace.toList)
  | reaped (reaps : scope.reaps) (tasks : ∀ id, k'.tasks id =
        if (k.tasks id).state = .finished ∧ id ≠ 0 then empty else k.tasks id)
      (orphans : k'.orphans = k.orphans)
  | reclaimed (reclaims : scope.reclaims) (tasks : ∀ id, k'.tasks id =
        if (k.tasks id).state.Live then k.tasks id else { k.tasks id with addressSpace := none })
      (orphans : k'.orphans = [])

section Same

variable {scope : Scope}

theorem Change.of_same {k k₁ k₂ : Kernel} (change : Change scope k k₁)
    (tasks : k₂.tasks = k₁.tasks) (orphans : k₂.orphans = k₁.orphans) : Change scope k k₂ := by
  have goes : ∀ {j}, Goes k.current k k₁ j → Goes k.current k k₂ j := by
    rintro j ⟨self, state⟩
    rw [← tasks] at self state
    exact ⟨self, state⟩
  cases change with
  | continues goesOn => exact .continues ⟨fun j => goes (goesOn.goes j), orphans.trans goesOn.orphans⟩
  | born filled vacant birth tasks₁ orphans₁ =>
      exact .born filled vacant birth (tasks.trans tasks₁) (orphans.trans orphans₁)
  | ended live others finished parent space top limit woken orphans₁ =>
      rw [← tasks] at finished parent space top limit woken
      exact .ended live (fun j other => goes (others j other)) finished parent space top limit woken
        (orphans.trans orphans₁)
  | replaced loaded live tasks₁ state parent space code top limit orphans₁ =>
      exact .replaced loaded live (tasks.trans tasks₁) state parent space code top limit
        (orphans.trans orphans₁)
  | collected child ceased tasks₁ orphans₁ =>
      exact .collected child ceased (tasks.trans tasks₁) (orphans.trans orphans₁)
  | reaped reaps tasks₁ orphans₁ =>
      exact .reaped reaps (fun id => (congrFun tasks id).trans (tasks₁ id)) (orphans.trans orphans₁)
  | reclaimed reclaims tasks₁ orphans₁ =>
      exact .reclaimed reclaims (fun id => (congrFun tasks id).trans (tasks₁ id)) (orphans.trans orphans₁)

theorem Change.from_same {k₀ k k' : Kernel} (change : Change scope k k')
    (tasks : k.tasks = k₀.tasks) (current : k.current = k₀.current)
    (orphans : k.orphans = k₀.orphans) : Change scope k₀ k' := by
  obtain ⟨_, _, _, _, _, _, _, _, _, _, _⟩ := k
  obtain ⟨_, _, _, _, _, _, _, _, _, _, _⟩ := k₀
  simp only at tasks current orphans
  subst tasks current orphans
  cases change with
  | continues goesOn => exact .continues ⟨fun j => ⟨(goesOn.goes j).self, (goesOn.goes j).state⟩, goesOn.orphans⟩
  | born filled vacant birth tasks orphans =>
      refine .born filled vacant ?_ tasks orphans
      cases birth with
      | kernel stack priority => exact .kernel stack priority
      | program stack root => exact .program stack root
      | child stack root => exact .child stack root
  | ended live others finished parent space top limit woken orphans =>
      exact .ended live (fun j other => ⟨(others j other).self, (others j other).state⟩) finished parent
        space top limit woken orphans
  | replaced loaded live tasks state parent space code top limit orphans =>
      exact .replaced loaded live tasks state parent space code top limit orphans
  | collected child ceased tasks orphans => exact .collected child ceased tasks orphans
  | reaped reaps tasks orphans => exact .reaped reaps tasks orphans
  | reclaimed reclaims tasks orphans => exact .reclaimed reclaims tasks orphans

end Same

section Ends

variable {k k₁ : Kernel} {scope : Scope}

private theorem marked (goesOn : Continues k.current k k₁) {id : TaskId}
    (live : (k.tasks id).state.Live) (code : Word) :
    Change scope k ((k₁.setTask id { k₁.tasks id with exitCode := code, state := .finished }).wakeAll
      (Kernel.completion id)) := by
  have own : ((k₁.setTask id { k₁.tasks id with exitCode := code, state := .finished }).wakeAll
      (Kernel.completion id)).tasks id =
        { k₁.tasks id with exitCode := code, state := .finished } := by
    simp [Kernel.wakeAll, Kernel.setTask]
  have self := (goesOn.goes id).self
  refine @Change.ended scope k _ id live (fun j other => ?_) (by rw [own]) (by rw [own]; exact self.parent)
    (by rw [own]; exact self.space) (by rw [own]; exact self.top) (by rw [own]; exact self.limit)
    (fun j asleep => ?_) goesOn.orphans
  · have set : Goes k.current k₁ (k₁.setTask id
        { k₁.tasks id with exitCode := code, state := .finished }) j := by
      constructor <;> simp only [Kernel.setTask, Function.update_of_ne other]
      · exact ⟨rfl, rfl, rfl, rfl, rfl⟩
      · exact .stays
    have woken := (@Continues.wakeAll k.current (k₁.setTask id
      { k₁.tasks id with exitCode := code, state := .finished }) (Kernel.completion id)).goes j
    obtain ⟨⟨parent, space, code', top, limit⟩, state⟩ := goesOn.goes j
    obtain ⟨⟨parent', space', code'', top', limit'⟩, state'⟩ := set
    obtain ⟨⟨parent₂, space₂, code₂, top₂, limit₂⟩, state₂⟩ := woken
    exact ⟨⟨parent₂.trans (parent'.trans parent), space₂.trans (space'.trans space),
      code₂.trans (code''.trans code'), top₂.trans (top'.trans top),
      limit₂.trans (limit'.trans limit)⟩, (state.trans state').trans state₂⟩
  · simp only [Kernel.wakeAll] at asleep
    split_ifs at asleep with waits
    exact waits asleep

theorem finish_change (goesOn : Continues k.current k k₁) (same : k₁.current = k.current)
    (live : (k.tasks k.current).state.Live) (code : Word) :
    Change scope k (finish k₁ k₁.current code) := by
  rw [same]
  exact marked (goesOn.trans (.closeAllDescriptors k₁ k.current)) live code

end Ends

section Tables

variable {k : Kernel} {scope : Scope}

theorem collect_cases (k : Kernel) (parent : TaskId) :
    collect k parent = (none, k) ∧
        (∀ id, (k.tasks id).parent = some parent → (k.tasks id).state ≠ .finished) ∨
      ∃ id, (k.tasks id).parent = some parent ∧ (k.tasks id).state = .finished ∧
        collect k parent = (some (k.tasks id).exitCode, emptySlot
          { k with orphans := k.orphans ++ (k.tasks id).addressSpace.toList } id) := by
  unfold collect
  split
  · rename_i none'
    refine Or.inl ⟨rfl, fun id child ceased => ?_⟩
    have all := List.find?_eq_none.mp none' id (List.mem_finRange id)
    simp only [decide_eq_true_eq, not_and] at all
    exact all child ceased
  · rename_i id found
    have ceased := List.find?_some found
    simp only [decide_eq_true_eq] at ceased
    refine Or.inr ⟨id, ceased.1, ceased.2, ?_⟩
    cases held : (k.tasks id).addressSpace with
    | none => simp only [Option.toList_none, List.append_nil]
    | some root => rfl

theorem collect_change (k : Kernel) : Change scope k (collect k k.current).2 := by
  rcases collect_cases k k.current with ⟨nobody, -⟩ | ⟨id, child, ceased, found⟩
  · rw [nobody]
    exact .continues (.refl _ k)
  · rw [found]
    exact .collected child ceased rfl rfl

theorem wait_change (live : (k.tasks k.current).state.Live) :
    Change scope k (waitAnyChild k k.current).2 := by
  have collects : Change scope k (collect k k.current).2 := collect_change k
  unfold waitAnyChild
  split_ifs
  · exact .continues (.refl _ k)
  · rcases collect_cases k k.current with ⟨nobody, -⟩ | ⟨id, -, -, found⟩
    · rw [nobody]
      simp only
      split
      · exact .continues (.refl _ k)
      · exact .continues (.park live _)
    · rw [found] at collects ⊢
      exact collects

private theorem emptied_fold (ids : List TaskId) (k : Kernel) :
    let k' := ids.foldl (fun k id => if (k.tasks id).state = .finished then emptySlot k id else k) k
    k'.orphans = k.orphans ∧ ∀ id, k'.tasks id =
      if (k.tasks id).state = .finished ∧ id ∈ ids then empty else k.tasks id := by
  induction ids generalizing k with
  | nil => simp
  | cons first rest ih =>
      simp only [List.foldl_cons]
      obtain ⟨orphans, tasks⟩ := ih (if (k.tasks first).state = .finished then emptySlot k first else k)
      have kept : (if (k.tasks first).state = .finished then emptySlot k first else k).orphans =
          k.orphans := by split_ifs <;> rfl
      refine ⟨orphans.trans kept, fun id => (tasks id).trans ?_⟩
      by_cases same : id = first
      · subst same
        by_cases ceased : (k.tasks id).state = .finished
        · rw [if_pos ceased, emptySlot_self, ite_self, if_pos ⟨ceased, List.mem_cons_self⟩]
        · rw [if_neg ceased, if_neg fun both => ceased both.1, if_neg fun both => ceased both.1]
      · have other : (if (k.tasks first).state = .finished then emptySlot k first else k).tasks id =
            k.tasks id := by
          split_ifs
          · exact emptySlot_other same
          · rfl
        rw [other]
        simp only [List.mem_cons, same, false_or]

theorem reapFinished_tasks (k : Kernel) : (reapFinished k).orphans = k.orphans ∧
    ∀ id, (reapFinished k).tasks id =
      if (k.tasks id).state = .finished ∧ id ≠ 0 then empty else k.tasks id := by
  obtain ⟨orphans, tasks⟩ := emptied_fold ((List.finRange maxTasks).drop 1) k
  have all : ∀ id : TaskId, id ∈ (List.finRange maxTasks).drop 1 ↔ id ≠ 0 := by decide
  refine ⟨orphans, fun id => (tasks id).trans ?_⟩
  simp only [all]

theorem reap_change (k : Kernel) (reaps : scope.reaps) : Change scope k (reapFinished k) :=
  .reaped reaps (reapFinished_tasks k).2 (reapFinished_tasks k).1

private theorem taken_fold {ids : List TaskId} (apart : ids.Nodup) (k : Kernel) (id : TaskId) :
    (ids.foldl takeSpace k).tasks id =
      if (k.tasks id).state.Live ∨ id ∉ ids then k.tasks id
      else { k.tasks id with addressSpace := none } := by
  induction ids generalizing k with
  | nil => simp
  | cons first rest ih =>
      obtain ⟨fresh, apart⟩ := List.nodup_cons.mp apart
      rw [List.foldl_cons, ih apart]
      by_cases same : id = first
      · subst same
        rw [if_pos (Or.inr fresh)]
        by_cases live : (k.tasks id).state.Live
        · rw [if_pos (Or.inl live)]
          unfold takeSpace
          rw [if_neg fun dead => dead.elim live.2 live.1]
        · rw [if_neg fun kept => kept.elim live fun out => out List.mem_cons_self]
          have dead : (k.tasks id).state = .finished ∨ (k.tasks id).state = .free := by
            by_contra both
            exact live ⟨fun free => both (Or.inr free), fun ceased => both (Or.inl ceased)⟩
          unfold takeSpace
          rw [if_pos dead]
          split
          · exact Function.update_self ..
          · rename_i none'
            rw [← none']
      · have other : (takeSpace k first).tasks id = k.tasks id := by
          unfold takeSpace
          split_ifs
          · split
            · exact Function.update_of_ne same ..
            · rfl
          · rfl
        rw [other]
        simp only [List.mem_cons, same, false_or]

theorem reclaim_change (k : Kernel) (reclaims : scope.reclaims) :
    Change scope k (orphanAddressSpaces k).2 := by
  refine .reclaimed reclaims (fun id => ?_) rfl
  refine (taken_fold (List.nodup_finRange maxTasks) k id).trans ?_
  simp only [List.mem_finRange, not_true_eq_false, or_false]

/-- `exec` turns its arguments down. -/
def Refuses (env : Surroundings) (blob length count : Word) : Prop :=
  env.access.allows blob length = false ∨ 1024 < length ∨ count = 0 ∨ 16 < count

instance (env : Surroundings) (blob length count : Word) : Decidable (Refuses env blob length count) :=
  inferInstanceAs (Decidable (_ ∨ _))

theorem exec_change (live : (k.tasks k.current).state.Live) (env : Surroundings)
    (blob length count context : Word) (loaded : ¬Refuses env blob length count →
      ∀ image, env.image = some image → scope.loads image.root) :
    Change scope k (exec k env blob length count context).2 := by
  unfold exec
  split_ifs with refuses
  · exact .continues (.refl _ k)
  · split
    · exact .continues (.refl _ k)
    · rename_i image here
      refine @Change.replaced scope k _ { k.tasks k.current with
        stackTop := userStackTop, stackLimit := userStackLimit, stackFaults := 0
        handlers := fun _ => 0, restorer := 0, addressSpace := some image.root } image.root
        (loaded refuses image here) live ?_ rfl rfl rfl rfl rfl rfl rfl
      simp only [setStackRegion, clearSignalHandlers, setAddressSpace, withUserMemory,
        Kernel.storeView, Kernel.setTask, Function.update_self, Function.update_idem]

private theorem forkFrom_orphans (k : Kernel) (parent : TaskId) (root : Root) (stack frame : Word) :
    (forkFrom k parent root stack frame).2.orphans = k.orphans := by
  unfold forkFrom
  split
  · rfl
  · simp only [created]
    rw [shareFold_eq]
    rfl

private theorem fork_orphans (k : Kernel) (env : Surroundings) (context : Word) :
    (fork k env context).2.orphans = k.orphans := by
  unfold fork
  split
  · rfl
  · rename_i root _
    have kept := forkFrom_orphans (withUserMemory k root (k.memory.user k.activeRoot)) k.current
      root env.stack context
    simp only
    split
    · rename_i child k' made
      rw [made] at kept
      exact kept
    · rfl

theorem fork_change (k : Kernel) (env : Surroundings) (context : Word)
    (filled : env.space.isSome → ∀ id, freeSlot k.tasks = some id → scope.fills id) :
    Change scope k (fork k env context).2 := by
  have orphans := fork_orphans k env context
  rcases fork_cases k env context with failed | ⟨root, id, k', space, made, joins, -⟩
  · rw [failed]
    exact .continues (.refl _ k)
  · rw [made] at orphans ⊢
    have lowest := filled (by rw [space]; rfl) id joins.lowest
    exact .born lowest joins.vacant (.child env.stack root) joins.tasks orphans

theorem spawn_change (k : Kernel) (stack entry : Word) (priority : Fin 256)
    (filled : ∀ id, freeSlot k.tasks = some id → scope.fills id) :
    Change scope k (spawnWithPriority k stack entry priority).2 := by
  have orphans : (spawnWithPriority k stack entry priority).2.orphans = k.orphans := by
    unfold spawnWithPriority
    split <;> rfl
  rcases spawnWithPriority_cases k stack entry priority with same | ⟨id, joins, -⟩
  · rw [same]
    exact .continues (.refl _ k)
  · exact .born (filled id joins.lowest) joins.vacant (.kernel stack priority) joins.tasks orphans

theorem run_change (k : Kernel) (stack entry userStack : Word) (root : Root) (argc argv : Word)
    (filled : ∀ id, freeSlot k.tasks = some id → scope.fills id) :
    Change scope k (spawnUser k stack entry userStack root (some 0) argc argv).2 := by
  have orphans : (spawnUser k stack entry userStack root (some 0) argc argv).2.orphans =
      k.orphans := by
    unfold spawnUser
    split <;> rfl
  rcases spawnUser_cases k stack entry userStack root (some 0) argc argv with same | ⟨id, joins, -⟩
  · rw [same]
    exact .continues (.refl _ k)
  · exact .born (filled id joins.lowest) joins.vacant (.program stack root) joins.tasks orphans

end Tables

section Calls

variable {k : Kernel} {scope : Scope} (live : (k.tasks k.current).state.Live)

include live

theorem handle_change (env : Surroundings) (written : Nat) (number arg0 arg1 arg2 context : Word)
    (filled : number = sysFork → env.space.isSome → ∀ id, freeSlot k.tasks = some id →
      scope.fills id)
    (loaded : number = sysExec → ¬Refuses env arg0 arg1 arg2 → ∀ image, env.image = some image →
      scope.loads image.root) :
    Change scope k (handle k env written number arg0 arg1 arg2 context).2 := by
  have waited : ∀ r : Waiting (Option Word) × Kernel, (waitAnswer r).2 = r.2 := by
    rintro ⟨_ | _, _⟩ <;> rfl
  refine handle_rule (P := fun r => Change scope k r.2)
    (fun _ => finish_change (.refl _ k) rfl live arg0) (fun forks => fork_change k env context (filled forks))
    (fun execs => exec_change live env arg0 arg1 arg2 context (loaded execs)) (fun _ => ?_)
    (fun _ _ io => .continues (.io live io)) (.continues (.makePipe (makePipe_cases k env.access arg0)))
    (.continues (.duplicateDescriptor k _ _ _)) (.continues (.signal k _ _))
    (.continues (.setSignalHandler k _ _ _ _)) (fun _ => .continues (.storeView k _))
    (.continues (.closeDescriptor k _ _))
  rw [waited]
  exact wait_change live

end Calls

section Ticks

variable {k : Kernel} {scope : Scope} (sp : Word)

private theorem goes_asked (id : TaskId) : Goes k.current k (asked k sp) id := by
  obtain ⟨state, eq⟩ := saveCurrent_task k sp id
  have same : (asked k sp).tasks id = (saveCurrent k sp).tasks id := rfl
  refine ⟨?_, ?_⟩
  · rw [same, eq]
    exact ⟨rfl, rfl, rfl, rfl, rfl⟩
  · rcases asked_state k sp id with stays | ⟨live, ready⟩
    · rw [stays]
      exact .stays
    · rw [ready]
      cases before : (k.tasks id).state with
      | free => exact absurd before live.1
      | ready => exact .stays
      | blocked r => exact .wakes
      | finished => exact absurd before live.2

private theorem follows_continues {k' : Kernel} {next : TaskId}
    (follows : Follows (asked k sp) k' next) : Continues k.current k k' := by
  refine ⟨fun id => ?_, follows.rest.2.2.2.2.2⟩
  obtain ⟨switches, pending, eq⟩ := follows.tasks id
  obtain ⟨self, state⟩ := goes_asked sp id (k := k)
  constructor
  · rw [eq]
    exact ⟨self.parent, self.space, self.code, self.top, self.limit⟩
  · rw [eq]
    exact state

theorem schedule_change (on : k.enabled = true)
    (lives : Dies k sp → (k.tasks (chosen k sp)).state.Live) : Change scope k (schedule k sp).2 := by
  by_cases dies : Dies k sp
  · obtain ⟨k', follows, eq⟩ := schedule_kills on dies
    rw [eq]
    refine (marked (follows_continues sp follows) (lives dies) 128).of_same ?_ ?_
    · simp only [killed, handOver_eq]
      rfl
    · simp only [killed, handOver_eq]
      rfl
  · obtain ⟨follows, -⟩ := schedule_survives on dies
    exact .continues (follows_continues sp follows)

end Ticks

private theorem interrupts_fits {k : Kernel} {a : Word} (inside : OnOwnStack k a) : Fits a := by
  unfold OnOwnStack at inside
  unfold Fits frameBytes
  split at inside
  · exact inside.2.1
  · rename_i base _
    have top := (k.tasks k.current).kernelStackTop.isLt
    omega

private theorem dying_live {s : Machine} (regular : Regular s.kernel s.stage) {a : Word} {f : Frame}
    (interrupts : Interrupts s a f) (dies : Dies (trapped s a f) a) :
    ((trapped s a f).tasks (chosen (trapped s a f) a)).state.Live := by
  rcases chosen_live (trapped s a f) a with live | same
  · exact live
  · rw [same]
    change (s.kernel.tasks s.kernel.current).state.Live
    rcases interrupts with ⟨⟨program, -⟩, -, -⟩ | ⟨-, kernelMode, inside⟩
    · have stage : s.stage s.kernel.current = .program := program
      exact regular.running (by simp [stage]) (by simp [stage])
    · obtain ⟨-, -, ring, -⟩ := dies
      obtain ⟨state, eq⟩ := saveCurrent_task (trapped s a f) a (chosen (trapped s a f) a)
      rw [eq] at ring
      simp only [same, if_true] at ring
      have pushed : (trapped s a f).memory.view (rootFor (trapped s a f) (trapped s a f).current) =
          writeFrame s.kernel.view a f := by
        rw [rootFor, if_pos rfl]
        exact Memory.view_store ..
      rw [pushed, readFrame_writeFrame (interrupts_fits inside), kernelMode] at ring
      exact absurd ring (by decide)

/-- The slot an event fills, if it fills one: a kernel task, a program or the child of
a `fork` takes the lowest free one. -/
def fills (s : Machine) : Event → Option TaskId
  | .spawn _ _ _ => freeSlot s.kernel.tasks
  | .run _ _ => freeSlot s.kernel.tasks
  | .serve env =>
      if inCall s sysFork ∧ env.space.isSome then freeSlot s.kernel.tasks else none
  | _ => none

/-- The space an event loads a program into, if it does. -/
def loads (s : Machine) : Event → Option Root
  | .serve env =>
      match s.stage s.current with
      | .calling context _ =>
          let frame := readFrame s.kernel.view context
          if frame frameRax = sysExec ∧
              ¬Refuses env (frame frameRdi) (frame frameRsi) (frame frameRdx) then
            env.image.map Image.root
          else none
      | _ => none
  | _ => none

def scopeOf (s : Machine) (e : Event) : Scope where
  fills id := fills s e = some id
  loads root := loads s e = some root
  reaps := e = .reap
  reclaims := e = .reclaim

theorem change_step {s s' : Machine} {e : Event} (regular : Regular s.kernel s.stage)
    (taken : System.step s e = some s') :
    Change (scopeOf s e) s.kernel s'.kernel := by
  have alive : InKernelTask s → (s.kernel.tasks s.kernel.current).state.Live :=
    fun inside => ⟨regular.here, inside.2⟩
  have same : ∀ {k' : Kernel}, k'.tasks = s.kernel.tasks → k'.orphans = s.kernel.orphans →
      Change (scopeOf s e) s.kernel k' := fun tasks orphans => .continues (.of_tasks tasks orphans)
  refine step_rule (P := fun s' => Change (scopeOf s e) s.kernel s'.kernel) taken (fun _ _ _ _ => same rfl rfl)
    (fun _ => same rfl rfl) ?onServe ?onLeave ?onTimer (fun id number => .continues (.signal _ _ _))
    (fun channel => .continues (.wakeAll _ _)) (.continues (.touch _ _ ⟨rfl, rfl, rfl, rfl, rfl⟩ rfl))
    (fun channel _ inside => .continues (.park (alive inside) channel))
    (fun ticks inside => .continues (.sleep (alive inside) ticks))
    (fun _ inside _ => marked (.refl _ _) (alive inside) 0) (fun _ => same rfl rfl) ?onSpawn ?onRun
    ?onWait (fun reaps _ => reap_change _ reaps) (fun reclaims _ => reclaim_change _ reclaims)
  case onServe =>
    rintro env context written rfl inside -
    obtain ⟨-, live⟩ := regular.inside (by simp [inside]) (by simp [inside])
    refine handle_change live env written _ _ _ _ context (fun forks space id lowest => ?_)
      fun execs accepts image here => ?_
    · have calling : inCall s sysFork = true := by
        simp only [inCall, inside, decide_eq_true_eq]
        exact forks
      exact (if_pos ⟨calling, space⟩).trans lowest
    · change loads s (.serve env) = some image.root
      simp only [loads, inside]
      rw [if_pos ⟨execs, accepts⟩, here]
      rfl
  case onLeave =>
    intro context result _ inside
    obtain ⟨-, live⟩ := regular.inside (by simp [inside]) (by simp [inside])
    rw [leave_eq]
    have goesOn : Continues s.kernel.current s.kernel (delivered s.kernel context).2 :=
      .delivered s.kernel context
    split_ifs
    · change Change _ s.kernel
        (finish (delivered s.kernel context).2 (delivered s.kernel context).2.current 128)
      exact finish_change goesOn (tame_delivered s.kernel context).current live 128
    · exact .continues (goesOn.trans (.of_tasks rfl rfl))
  case onTimer =>
    intro a f _ interrupts
    have on : (trapped s a f).enabled = true := regular.on
    have kernel : (timer s a f).kernel = (schedule (trapped s a f) a).2 := rfl
    rw [kernel]
    have change : Change (scopeOf s e) (trapped s a f) (schedule (trapped s a f) a).2 :=
      schedule_change a on (dying_live regular interrupts)
    exact change.from_same rfl rfl rfl
  case onSpawn =>
    rintro stack entry priority rfl _ _
    exact spawn_change _ stack entry priority fun id lowest => lowest
  case onRun =>
    rintro stack image rfl _ _
    have change : Change (scopeOf s (.run stack image))
        (withUserMemory s.kernel image.root image.memory)
        (spawnUser (withUserMemory s.kernel image.root image.memory) stack image.entry image.stack
          image.root (some 0) image.argc image.argv).2 :=
      run_change _ stack image.entry image.stack image.root image.argc image.argv
        fun id lowest => lowest
    exact change.from_same rfl rfl rfl
  case onWait =>
    intro shell inside
    have zero : s.kernel.current = 0 := by
      subst shell
      simp only [System.step, Option.ite_none_right_eq_some] at taken
      exact taken.1.2
    have waits : Change (scopeOf s e) s.kernel (waitAnyChild s.kernel s.kernel.current).2 :=
      wait_change (alive inside)
    rw [zero] at waits
    exact waits

section Consequences

variable {k k' : Kernel} {scope : Scope}

theorem Change.ceased (change : Change scope k k') {d : TaskId} (finished : (k'.tasks d).state = .finished) :
    (k'.tasks d).parent = (k.tasks d).parent ∧ ((k.tasks d).state = .finished ∨
      ∀ j, (k'.tasks j).state ≠ .blocked (.channel (Kernel.completion d))) := by
  cases change with
  | continues goesOn =>
      exact ⟨(goesOn.goes d).self.parent, Or.inl ((goesOn.goes d).state.finished_iff.mp finished)⟩
  | @born id task filled vacant birth tasks orphans =>
      have other : d ≠ id := by
        rintro rfl
        rw [tasks, Function.update_self] at finished
        cases birth <;> exact absurd finished (by simp [kernelTask, programTask, childTask])
      rw [tasks, Function.update_of_ne other] at finished ⊢
      exact ⟨rfl, Or.inl finished⟩
  | @ended id live others finished' parent space top limit woken orphans =>
      by_cases same : d = id
      · subst same
        exact ⟨parent, Or.inr woken⟩
      · exact ⟨(others d same).self.parent, Or.inl ((others d same).state.finished_iff.mp finished)⟩
  | @replaced task root loaded live tasks state parent space code top limit orphans =>
      have state' : (k'.tasks d).state = (k.tasks d).state := by
        by_cases same : d = k.current
        · rw [tasks, same, Function.update_self, state]
        · rw [tasks, Function.update_of_ne same]
      refine ⟨?_, Or.inl (state' ▸ finished)⟩
      by_cases same : d = k.current
      · rw [tasks, same, Function.update_self, parent]
      · rw [tasks, Function.update_of_ne same]
  | @collected id child ceased tasks orphans =>
      have other : d ≠ id := by
        rintro rfl
        rw [tasks, Function.update_self] at finished
        exact absurd finished (by simp [empty])
      rw [tasks, Function.update_of_ne other] at finished ⊢
      exact ⟨rfl, Or.inl finished⟩
  | reaped reaps tasks orphans =>
      rw [tasks] at finished ⊢
      split_ifs at finished ⊢ with empties
      · exact absurd finished (by simp [empty])
      · exact ⟨rfl, Or.inl finished⟩
  | reclaimed reclaims tasks orphans =>
      rw [tasks] at finished ⊢
      split_ifs at finished ⊢ with live
      · exact ⟨rfl, Or.inl finished⟩
      · exact ⟨rfl, Or.inl finished⟩

theorem Change.asleep (change : Change scope k k') {p : TaskId} {r : Reason}
    (sleeps : (k'.tasks p).state = .blocked r) (other : p ≠ k.current) :
    (k.tasks p).state = .blocked r := by
  cases change with
  | continues goesOn => exact (goesOn.goes p).state.asleep sleeps other
  | @born id task filled vacant birth tasks orphans =>
      have apart : p ≠ id := by
        rintro rfl
        rw [tasks, Function.update_self] at sleeps
        cases birth <;> exact absurd sleeps (by simp [kernelTask, programTask, childTask])
      rwa [tasks, Function.update_of_ne apart] at sleeps
  | @ended id live others finished parent space top limit woken orphans =>
      have apart : p ≠ id := by
        rintro rfl
        rw [finished] at sleeps
        exact absurd sleeps (by simp)
      exact (others p apart).state.asleep sleeps other
  | replaced loaded live tasks => rwa [tasks, Function.update_of_ne other] at sleeps
  | @collected id child ceased tasks orphans =>
      have apart : p ≠ id := by
        rintro rfl
        rw [tasks, Function.update_self] at sleeps
        exact absurd sleeps (by simp [empty])
      rwa [tasks, Function.update_of_ne apart] at sleeps
  | reaped reaps tasks orphans =>
      rw [tasks] at sleeps
      split_ifs at sleeps with empties
      · exact absurd sleeps (by simp [empty])
      · exact sleeps
  | reclaimed reclaims tasks orphans =>
      rw [tasks] at sleeps
      split_ifs at sleeps with live
      · exact sleeps
      · exact sleeps

theorem Change.parent (change : Change scope k k') (id : TaskId) :
    (k'.tasks id).parent = (k.tasks id).parent ∨ (k'.tasks id).parent = none ∨
      (k.tasks id).state = .free ∧
        ((k'.tasks id).parent = some 0 ∨ (k'.tasks id).parent = some k.current) := by
  cases change with
  | continues goesOn => exact Or.inl (goesOn.goes id).self.parent
  | @born new task filled vacant birth tasks orphans =>
      by_cases same : id = new
      · subst same
        rw [tasks, Function.update_self]
        cases birth with
        | kernel => exact Or.inr (Or.inl rfl)
        | program => exact Or.inr (Or.inr ⟨vacant, Or.inl rfl⟩)
        | child => exact Or.inr (Or.inr ⟨vacant, Or.inr rfl⟩)
      · exact Or.inl (by rw [tasks, Function.update_of_ne same])
  | @ended leaver live others finished parent space top limit woken orphans =>
      by_cases same : id = leaver
      · exact Or.inl (same ▸ parent)
      · exact Or.inl (others id same).self.parent
  | replaced loaded live tasks state parent =>
      refine Or.inl ?_
      by_cases same : id = k.current
      · rw [tasks, same, Function.update_self, parent]
      · rw [tasks, Function.update_of_ne same]
  | @collected leaver child ceased tasks orphans =>
      by_cases same : id = leaver
      · exact Or.inr (Or.inl (by rw [tasks, same, Function.update_self]; rfl))
      · exact Or.inl (by rw [tasks, Function.update_of_ne same])
  | reaped reaps tasks orphans =>
      rw [tasks]
      split_ifs with empties
      · exact Or.inr (Or.inl rfl)
      · exact Or.inl rfl
  | reclaimed reclaims tasks orphans =>
      rw [tasks]
      split_ifs with live
      · exact Or.inl rfl
      · exact Or.inl rfl

theorem Change.occupied (change : Change scope k k') {id : TaskId}
    (taken : (k'.tasks id).state ≠ .free) : (k.tasks id).state ≠ .free ∨ scope.fills id := by
  cases change with
  | continues goesOn => exact Or.inl fun free => taken ((goesOn.goes id).state.free_iff.mpr free)
  | @born new task filled vacant birth tasks orphans =>
      by_cases same : id = new
      · exact Or.inr (same ▸ filled)
      · rw [tasks, Function.update_of_ne same] at taken
        exact Or.inl taken
  | @ended leaver live others finished parent space top limit woken orphans =>
      by_cases same : id = leaver
      · exact Or.inl (same ▸ live.1)
      · exact Or.inl fun free => taken ((others id same).state.free_iff.mpr free)
  | @replaced task root loaded live tasks state parent space code top limit orphans =>
      by_cases same : id = k.current
      · exact Or.inl (same ▸ live.1)
      · rw [tasks, Function.update_of_ne same] at taken
        exact Or.inl taken
  | @collected leaver child ceased tasks orphans =>
      by_cases same : id = leaver
      · refine Or.inl ?_
        rw [same, ceased]
        simp
      · rw [tasks, Function.update_of_ne same] at taken
        exact Or.inl taken
  | reaped reaps tasks orphans =>
      rw [tasks] at taken
      split_ifs at taken with empties
      · exact absurd rfl taken
      · exact Or.inl taken
  | reclaimed reclaims tasks orphans =>
      rw [tasks] at taken
      split_ifs at taken with live
      · exact Or.inl taken
      · exact Or.inl taken

theorem Change.persists (change : Change scope k k') {id : TaskId}
    (held : (k.tasks id).state ≠ .free) (holds : (k'.tasks id).state ≠ .free) :
    (k'.tasks id).parent = (k.tasks id).parent ∧
      ((k.tasks id).state = .finished → (k'.tasks id).exitCode = (k.tasks id).exitCode) := by
  cases change with
  | continues goesOn => exact ⟨(goesOn.goes id).self.parent, fun _ => (goesOn.goes id).self.code⟩
  | @born new task filled vacant birth tasks orphans =>
      have other : id ≠ new := by
        rintro rfl
        exact held vacant
      rw [tasks, Function.update_of_ne other]
      exact ⟨rfl, fun _ => rfl⟩
  | @ended leaver live others finished parent space top limit woken orphans =>
      by_cases same : id = leaver
      · exact ⟨same ▸ parent, fun ceased => absurd (same ▸ ceased) live.2⟩
      · exact ⟨(others id same).self.parent, fun _ => (others id same).self.code⟩
  | @replaced task root loaded live tasks state parent space code top limit orphans =>
      by_cases same : id = k.current
      · rw [tasks, same, Function.update_self]
        exact ⟨parent, fun _ => code⟩
      · rw [tasks, Function.update_of_ne same]
        exact ⟨rfl, fun _ => rfl⟩
  | @collected leaver child ceased tasks orphans =>
      have other : id ≠ leaver := by
        rintro rfl
        rw [tasks, Function.update_self] at holds
        exact holds rfl
      rw [tasks, Function.update_of_ne other]
      exact ⟨rfl, fun _ => rfl⟩
  | reaped reaps tasks orphans =>
      rw [tasks] at holds ⊢
      split_ifs at holds ⊢ with empties
      · exact absurd rfl holds
      · exact ⟨rfl, fun _ => rfl⟩
  | reclaimed reclaims tasks orphans =>
      rw [tasks]
      split_ifs with live
      · exact ⟨rfl, fun _ => rfl⟩
      · exact ⟨rfl, fun _ => rfl⟩

end Consequences

section Filling

variable {m m' : Machine} {e : Event}

def parentOf (m : Machine) : Event → Option TaskId
  | .spawn _ _ _ => none
  | .run _ _ => some 0
  | _ => some m.current

def spaceFor : Event → Option Root
  | .run _ image => some image.root
  | .serve env => env.space
  | _ => none

private theorem fork_filled {k : Kernel} {env : Surroundings} {context : Word} {root : Root}
    {id : TaskId} (space : env.space = some root) (lowest : freeSlot k.tasks = some id) :
    (fork k env context).2.tasks = Function.update k.tasks id
      (childTask (k.tasks id) (k.tasks k.current) k.current root env.stack) := by
  rcases forkFrom_cases (withUserMemory k root (k.memory.user k.activeRoot)) k.current root env.stack
    context with full | ⟨id', k', made, joins, -⟩
  · have lowest' : freeSlot (withUserMemory k root (k.memory.user k.activeRoot)).tasks = some id :=
      lowest
    simp [forkFrom, lowest'] at full
  · have same : id' = id := Option.some.inj (joins.lowest.symm.trans lowest)
    subst same
    have forked : (fork k env context).2 = k' := by
      unfold fork
      rw [space]
      simp only [made]
    rw [forked, joins.tasks]
    rfl

theorem filled (taken : System.step m e = some m') {id : TaskId} (fills : fills m e = some id) :
    ∃ task : Task, m'.kernel.tasks = Function.update m.kernel.tasks id task ∧ task.state = .ready ∧
      task.parent = parentOf m e ∧ task.addressSpace = spaceFor e ∧
      m'.kernel.orphans = m.kernel.orphans := by
  cases e with
  | spawn stack entry priority =>
      have lowest : freeSlot m.kernel.tasks = some id := fills
      simp only [System.step, Option.ite_none_right_eq_some, Option.some.injEq] at taken
      obtain ⟨-, rfl⟩ := taken
      simp only [enroll, spawnWithPriority, lowest]
      exact ⟨_, rfl, rfl, rfl, rfl, rfl⟩
  | run stack image =>
      have lowest : freeSlot (withUserMemory m.kernel image.root image.memory).tasks = some id := fills
      simp only [System.step, Option.ite_none_right_eq_some, Option.some.injEq] at taken
      obtain ⟨-, rfl⟩ := taken
      simp only [enroll, spawnUser, lowest]
      exact ⟨_, rfl, rfl, rfl, rfl, rfl⟩
  | serve env =>
      simp only [Changes.fills, Option.ite_none_right_eq_some] at fills
      obtain ⟨⟨calls, space⟩, lowest⟩ := fills
      obtain ⟨root, space⟩ := Option.isSome_iff_exists.mp space
      cases inside : m.stage m.current with
      | calling context written =>
          simp only [inCall, inside, decide_eq_true_eq] at calls
          simp only [System.step, inside, Option.ite_none_right_eq_some, Option.some.injEq] at taken
          obtain ⟨-, rfl⟩ := taken
          have forks : (handleAt m.kernel env context written).2 = (fork m.kernel env context).2 := by
            have differs : numberAt m context ≠ sysExit := by
              rw [calls]
              decide
            unfold handleAt handle
            exact congrArg Prod.snd ((if_neg differs).trans (if_pos calls))
          rw [serve_eq]
          simp only [forks, fork_filled space lowest]
          exact ⟨_, rfl, rfl, rfl, space.symm, fork_orphans ..⟩
      | kernel => simp [inCall, inside] at calls
      | program => simp [inCall, inside] at calls
      | returning context result => simp [inCall, inside] at calls
      | gone => simp [inCall, inside] at calls
  | _ => simp [Changes.fills] at fills

private theorem exec_loaded {k : Kernel} {env : Surroundings} {blob length count context : Word}
    {image : Image} (accepts : ¬Refuses env blob length count) (here : env.image = some image) :
    (exec k env blob length count context).2.current = k.current ∧
      (exec k env blob length count context).2.activeRoot = image.root ∧
      (exec k env blob length count context).2.orphans = k.orphans ∧
      ∃ task : Task, (exec k env blob length count context).2.tasks =
        Function.update k.tasks k.current task ∧ task.addressSpace = some image.root := by
  unfold Refuses at accepts
  unfold exec
  rw [if_neg accepts, here]
  refine ⟨rfl, rfl, rfl, { k.tasks k.current with
    stackTop := userStackTop, stackLimit := userStackLimit, stackFaults := 0
    handlers := fun _ => 0, restorer := 0, addressSpace := some image.root }, ?_, rfl⟩
  simp only [setStackRegion, clearSignalHandlers, setAddressSpace, withUserMemory,
    Kernel.storeView, Kernel.setTask, Function.update_self, Function.update_idem]

theorem exec_refused {k : Kernel} {env : Surroundings} {blob length count context : Word}
    (refused : ¬Refuses env blob length count → env.image = none) :
    exec k env blob length count context = (failure, k) := by
  unfold Refuses at refused
  unfold exec
  split_ifs with refuses
  · rfl
  · rw [refused refuses]

theorem loaded (taken : System.step m e = some m') {root : Root} (loads : loads m e = some root) :
    m'.kernel.current = m.kernel.current ∧ m'.kernel.activeRoot = root ∧
      m'.kernel.orphans = m.kernel.orphans ∧ ∃ task : Task,
        m'.kernel.tasks = Function.update m.kernel.tasks m.kernel.current task ∧
        task.addressSpace = some root := by
  cases e with
  | serve env =>
      cases inside : m.stage m.current with
      | calling context written =>
          simp only [Changes.loads, inside, Option.ite_none_right_eq_some, Option.map_eq_some_iff]
            at loads
          obtain ⟨⟨execs, accepts⟩, image, here, rfl⟩ := loads
          simp only [System.step, inside, Option.ite_none_right_eq_some, Option.some.injEq] at taken
          obtain ⟨-, rfl⟩ := taken
          have calls : numberAt m context = sysExec := execs
          have differs : numberAt m context ≠ sysExit ∧ numberAt m context ≠ sysFork := by
            rw [calls]
            decide
          have runs : (handleAt m.kernel env context written).2 = (exec m.kernel env
              (readFrame m.kernel.view context frameRdi) (readFrame m.kernel.view context frameRsi)
              (readFrame m.kernel.view context frameRdx) context).2 := by
            unfold handleAt handle
            exact congrArg Prod.snd ((if_neg differs.1).trans ((if_neg differs.2).trans (if_pos calls)))
          rw [serve_eq]
          simp only [runs]
          exact exec_loaded accepts here
      | kernel => simp [Changes.loads, inside] at loads
      | program => simp [Changes.loads, inside] at loads
      | returning context result => simp [Changes.loads, inside] at loads
      | gone => simp [Changes.loads, inside] at loads
  | _ => simp [Changes.loads] at loads

end Filling

end FiveAM.Process.Changes
