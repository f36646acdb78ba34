/- GID: FiveAM/Process/Completion
   source: kernel/src/task.rs, kernel/src/syscall.rs
   digest: A task's end as its waiters learn of it, with ticks between marking and waking. -/

import FiveAM.Process.TableShape
import FiveAM.Process.SmallSteps

set_option autoImplicit false
set_option relaxedAutoImplicit false

namespace FiveAM.Process.Completion

open FiveAM.Process.TaskTable FiveAM.Process.Machine FiveAM.Process.Pipes FiveAM.Process.Signals
open FiveAM.Process.Lifecycle FiveAM.Process.Syscalls FiveAM.Process.Schedule
open FiveAM.Process.System FiveAM.Process.Effects FiveAM.Process.TableShape
open FiveAM.Process.SmallSteps
open FiveAM.Lib.ByteMemory FiveAM.Lib.Runs FiveAM.Sched.Mechanism

/-- Where a task stands in the code that announces or awaits the end of a task. -/
inductive Phase where
  | elsewhere
  /-- Marked `Finished`; its `wake_all` has looked at the slots below `next`. -/
  | waking (next : Nat)
  /-- In `block_until`, before it tests whether `child` has ended. -/
  | awaiting (child : TaskId)
  deriving DecidableEq

/-- The machine with the exit and waiting paths taken apart, so that a tick can
fall between their steps. -/
structure Fine where
  machine : Machine
  phase : TaskId → Phase

namespace Fine

def kernel (s : Fine) : Kernel := s.machine.kernel

def current (s : Fine) : TaskId := s.machine.kernel.current

def setPhase (s : Fine) (id : TaskId) (phase : Phase) : Fine :=
  { s with phase := Function.update s.phase id phase }

end Fine

/-- Events that interrupt whatever the current task is doing. -/
def interrupts : Event → Bool
  | .tick => true
  | .tickInside _ _ => true
  | .interrupt => true
  | .wake _ => true
  | _ => false

/-- The number of the call whose registers were saved at `context`. -/
def numberAt (s : Machine) (context : Word) : Word := readFrame s.kernel.view context frameRax

/-- The current task is inside call `number`. -/
def inCall (s : Machine) (number : Word) : Bool :=
  match s.stage s.current with
  | .calling context _ => decide (numberAt s context = number)
  | _ => false

/-- Events that do not run through an exit or waiting path, which have steps of
their own. Channels other than completions are addresses and constants above the
task numbers. -/
def unsplit (s : Machine) : Event → Bool
  | .serve _ => !inCall s sysExit && !inCall s sysWait
  | .leave =>
      match s.stage s.current with
      | .returning context _ => !(delivered s.kernel context).1
      | _ => true
  | .block channel => decide (maxTasks ≤ channel.toNat)
  | .endTask => false
  | .wait => false
  | _ => true

/-- A task that takes a free slot starts outside these paths. -/
def refreshed (s : Fine) (m : Machine) : TaskId → Phase := fun id =>
  if (s.kernel.tasks id).state = .free ∧ (m.kernel.tasks id).state ≠ .free then .elsewhere
  else s.phase id

/-- The first half of `finish` and of the end of `task_entry`: the task is
`Finished`, and its waiters still sleep. -/
def mark (s : Fine) (k : Kernel) (code : Word) : Fine :=
  { machine := withKernel s.machine (k.setTask k.current
      { k.tasks k.current with exitCode := code, state := .finished })
    phase := Function.update s.phase s.current (.waking 0) }

/-- One turn of the loop in `wake_all(id)`. -/
def wakeSlot (k : Kernel) (id : TaskId) (slot : TaskId) : Kernel :=
  if (k.tasks slot).state = .blocked (.channel (Kernel.completion id)) then
    k.setTask slot { k.tasks slot with state := .ready }
  else k

inductive Action where
  /-- Anything else the machine does. -/
  | plain (e : Event)
  /-- `SYS_EXIT` closes its descriptors and marks the task `Finished`. -/
  | exit
  /-- So does a fatal signal on the way out of a call. -/
  | die
  /-- `task_entry` marks its task `Finished`. -/
  | endEntry
  /-- `wake_all` looks at one more slot, or returns. -/
  | wakeNext
  /-- `wait_for(child)` is called, or `wait_any_child` has picked `child`. -/
  | await (child : TaskId)
  /-- The section of `block_until` with interrupts disabled. -/
  | test
  /-- `wait_any_child` looks for a finished child. -/
  | collect

/-- The current task is in `wait_any_child`, or can call it. -/
def Collects (s : Machine) : Prop :=
  InKernelTask s ∧ s.current = 0 ∨ inCall s sysWait = true

instance (s : Machine) : Decidable (Collects s) := inferInstanceAs (Decidable (_ ∨ _))

/-- The current task can come to wait for the end of `child`: `wait_for` is the
kernel tasks' call, `wait_any_child` waits for children only. -/
def Awaits (s : Machine) (child : TaskId) : Prop :=
  InKernelTask s ∧ child ≠ 0 ∨ Collects s ∧ (s.kernel.tasks child).parent = some s.current

instance (s : Machine) (child : TaskId) : Decidable (Awaits s child) :=
  inferInstanceAs (Decidable (_ ∨ _))

/-- Where the code of a caller of `wait_any_child` goes on with an answer. -/
def answered (s : Machine) (k : Kernel) (code : Option Word) : Machine :=
  match s.stage s.current with
  | .calling context _ => moveTo s k (.returning context (code.getD failure))
  | _ => withKernel s k

/-- One action; `none` where it cannot happen. -/
def step (s : Fine) : Action → Option Fine
  | .plain e =>
      if (interrupts e = true ∨ s.phase s.current = .elsewhere) ∧ unsplit s.machine e = true then
        (System.step s.machine e).map fun m => ⟨m, refreshed s m⟩
      else none
  | .exit =>
      match s.machine.stage s.current with
      | .calling context _ =>
          if s.phase s.current = .elsewhere ∧ numberAt s.machine context = sysExit then
            some (mark s (closeAllDescriptors s.kernel s.current)
              (readFrame s.kernel.view context frameRdi))
          else none
      | _ => none
  | .die =>
      match s.machine.stage s.current with
      | .returning context _ =>
          if s.phase s.current = .elsewhere ∧ (delivered s.kernel context).1 = true then
            some (mark s (closeAllDescriptors (delivered s.kernel context).2 s.current) 128)
          else none
      | _ => none
  | .endEntry =>
      if s.phase s.current = .elsewhere ∧ InKernelTask s.machine ∧ s.current ≠ 0 then
        some (mark s s.kernel 0)
      else none
  | .wakeNext =>
      match s.phase s.current with
      | .waking next =>
          if bound : next < maxTasks then
            some { machine := withKernel s.machine (wakeSlot s.kernel s.current ⟨next, bound⟩)
                   phase := Function.update s.phase s.current (.waking (next + 1)) }
          else
            some { machine := if s.machine.stage s.current = .kernel then s.machine
                     else moveTo s.machine s.kernel .gone
                   phase := Function.update s.phase s.current .elsewhere }
      | _ => none
  | .await child =>
      if s.phase s.current = .elsewhere ∧ Awaits s.machine child then
        some (s.setPhase s.current (.awaiting child))
      else none
  | .test =>
      match s.phase s.current with
      | .awaiting child =>
          if (s.kernel.tasks child).state = .finished ∨ (s.kernel.tasks child).state = .free then
            some (s.setPhase s.current .elsewhere)
          else some { s with
            machine := withKernel s.machine (park s.kernel (Kernel.completion child)) }
      | _ => none
  | .collect =>
      if s.phase s.current = .elsewhere ∧ Collects s.machine then
        if hasChild s.kernel.tasks s.current = false then
          some { s with machine := answered s.machine s.kernel none }
        else
          match collect s.kernel s.current with
          | (some code, k) => some { s with machine := answered s.machine k (some code) }
          | (none, _) => some s
      else none

/-- `waiter` sleeps until task `id` ends. -/
def WaitsFor (k : Kernel) (waiter id : TaskId) : Prop :=
  (k.tasks waiter).state = .blocked (.channel (Kernel.completion id))

instance (k : Kernel) (waiter id : TaskId) : Decidable (WaitsFor k waiter id) :=
  inferInstanceAs (Decidable (_ = _))

/-- Task `id` can still be scheduled. -/
def CanRun (s : Fine) (id : TaskId) : Prop :=
  id = s.current ∨ (s.kernel.tasks id).state = .ready

/-- Task `id` is in `finish`, and its `wake_all(id)` has `waiter` still before
it. -/
def AboutToWake (s : Fine) (id waiter : TaskId) : Prop :=
  ∃ next, s.phase id = .waking next ∧ next ≤ waiter.val

/-- Nobody sleeps for the end of a task that has ended, unless that task can
still run and is about to wake the sleeper. -/
def NeverMissed (s : Fine) : Prop :=
  ∀ waiter id, WaitsFor s.kernel waiter id → (s.kernel.tasks id).state = .finished →
    CanRun s id ∧ AboutToWake s id waiter

/-- The exit window in which a tick loses a wakeup: the current task is
`Finished` and has a sleeper still to wake, and the tick finds a task to run:
one that is ready, or whose sleep ends with it. -/
def Window (s : Fine) : Prop :=
  ∃ waiter, AboutToWake s s.current waiter ∧ WaitsFor s.kernel waiter s.current ∧
    ∃ id, (s.kernel.tasks id).state = .ready ∨
      ∃ deadline, (s.kernel.tasks id).state = .blocked (.untilTick deadline) ∧
        deadline ≤ s.kernel.ticks + 1

def Spared (s : Fine) (a : Action) : Prop :=
  ∀ e, a = .plain e → timerFrame s.machine e ≠ none → ¬Window s

def Started (s : Fine) : Prop := Booted s.machine ∧ ∀ id, s.phase id = .elsewhere

/-- Nothing ends, and nobody new waits for a task to end. -/
structure Settled (k k' : Kernel) : Prop where
  current : k'.current = k.current
  finished : ∀ id, (k'.tasks id).state = .finished → (k.tasks id).state = .finished
  waits : ∀ waiter id, WaitsFor k' waiter id → WaitsFor k waiter id

namespace Settled

variable {k k' k'' : Kernel}

theorem trans (first : Settled k k') (second : Settled k' k'') : Settled k k'' where
  current := second.current.trans first.current
  finished id ended := first.finished id (second.finished id ended)
  waits waiter id asleep := first.waits waiter id (second.waits waiter id asleep)

theorem of_states (current : k'.current = k.current)
    (same : ∀ id, (k'.tasks id).state = (k.tasks id).state) : Settled k k' := by
  refine ⟨current, fun id ended => ?_, fun waiter id asleep => ?_⟩
  · rwa [same] at ended
  · unfold WaitsFor at asleep ⊢
    rwa [same] at asleep

theorem refl (k : Kernel) : Settled k k := of_states rfl fun _ => rfl

theorem setTask (id : TaskId) (task : Task)
    (ended : task.state = .finished → (k.tasks id).state = .finished)
    (asleep : ∀ other, task.state = .blocked (.channel (Kernel.completion other)) →
      (k.tasks id).state = task.state) : Settled k (k.setTask id task) := by
  refine ⟨rfl, fun j ceased => ?_, fun waiter other waits => ?_⟩
  · by_cases same : j = id
    · subst same
      simp only [Kernel.setTask, Function.update_self] at ceased
      exact ended ceased
    · simpa only [Kernel.setTask, Function.update_of_ne same] using ceased
  · unfold WaitsFor at waits ⊢
    by_cases same : waiter = id
    · subst same
      simp only [Kernel.setTask, Function.update_self] at waits
      rw [asleep other waits, waits]
    · simpa only [Kernel.setTask, Function.update_of_ne same] using waits

theorem sameState (id : TaskId) (task : Task) (state : task.state = (k.tasks id).state) :
    Settled k (k.setTask id task) :=
  setTask id task (fun ended => state ▸ ended) fun _ _ => state.symm

theorem wakeAll (k : Kernel) (channel : Word) : Settled k (k.wakeAll channel) := by
  refine ⟨rfl, fun id ended => ?_, fun waiter id asleep => ?_⟩
  · simp only [Kernel.wakeAll] at ended
    split_ifs at ended with waits
    exact ended
  · simp only [WaitsFor, Kernel.wakeAll] at asleep ⊢
    split_ifs at asleep with waits
    exact asleep

theorem of_moves (moves : Moves k k') : Settled k k' := by
  induction moves with
  | refl => exact refl k
  | rest _ tasks current _ _ ih => exact ih.trans (of_states current fun id => by rw [tasks])
  | entry _ id task state _ ih => exact ih.trans (sameState id task state)
  | rouse _ id pending asleep ih =>
      exact ih.trans (setTask id _ (by simp) fun other same => by simp at same)
  | wake _ channel ih => exact ih.trans (wakeAll _ channel)
  | sleep _ quiet ih =>
      refine ih.trans (setTask _ _ (by simp) fun other same => absurd ?_ (quiet other))
      exact State.blocked.inj same

theorem delivered (k : Kernel) (context : Word) : Settled k (TableShape.delivered k context).2 := by
  unfold TableShape.delivered
  split_ifs
  · exact of_moves (.deliver k _ context)
  · exact refl k

theorem exec (k : Kernel) (env : Surroundings) (blob length count context : Word) :
    Settled k (Syscalls.exec k env blob length count context).2 := by
  unfold Syscalls.exec
  split_ifs
  · exact refl k
  · split
    · exact refl k
    · rename_i image loaded
      have region : Settled k (setStackRegion k k.current userStackTop userStackLimit) :=
        sameState _ _ rfl
      have cleared : Settled _ (clearSignalHandlers (setStackRegion k k.current userStackTop
        userStackLimit) k.current) := sameState _ _ rfl
      have spaced : Settled _ (setAddressSpace (clearSignalHandlers (setStackRegion k k.current
        userStackTop userStackLimit) k.current) k.current image.root) := sameState _ _ rfl
      exact ((region.trans cleared).trans spaced).trans (of_states rfl fun _ => rfl)

theorem joins {id : TaskId} {task : Task} {m : Bytes} (joins : Joins k k' id task m)
    (ready : task.state = .ready) : Settled k k' := by
  refine ⟨joins.current, fun j ended => ?_, fun waiter other asleep => ?_⟩
  · by_cases same : j = id
    · rw [same, joins.self, ready] at ended
      exact absurd ended (by simp)
    · rwa [joins.other same] at ended
  · unfold WaitsFor at asleep ⊢
    by_cases same : waiter = id
    · rw [same, joins.self, ready] at asleep
      exact absurd asleep (by simp)
    · rwa [joins.other same] at asleep

theorem fork (k : Kernel) (env : Surroundings) (context : Word) :
    Settled k (Syscalls.fork k env context).2 := by
  rcases fork_cases k env context with failed | ⟨root, id, k', _, made, joined, _⟩
  · rw [failed]
    exact refl k
  · rw [made]
    exact (of_states rfl fun _ => rfl : Settled k (withUserMemory k root _)).trans
      (joins joined rfl)

theorem emptySlot (k : Kernel) (id : TaskId) : Settled k (Lifecycle.emptySlot k id) :=
  (setTask id empty (by simp [empty]) fun _ same => by simp [empty] at same).trans
    (of_states rfl fun _ => rfl)

theorem reapFinished (k : Kernel) : Settled k (Lifecycle.reapFinished k) := by
  unfold Lifecycle.reapFinished
  refine List.foldlRecOn (motive := fun k' => Settled k k') _ _ (refl k) fun k' here id _ => ?_
  split_ifs
  · exact here.trans (emptySlot k' id)
  · exact here

theorem takeSpace (k : Kernel) (id : TaskId) : Settled k (Lifecycle.takeSpace k id) := by
  unfold Lifecycle.takeSpace
  split_ifs
  · split
    · have emptied : Settled k (k.setTask id { k.tasks id with addressSpace := none }) :=
        sameState id _ rfl
      exact emptied.trans (of_states rfl fun _ => rfl)
    · exact refl k
  · exact refl k

theorem orphanAddressSpaces (k : Kernel) : Settled k (Lifecycle.orphanAddressSpaces k).2 := by
  have taken : Settled k ((List.finRange maxTasks).foldl Lifecycle.takeSpace k) :=
    List.foldlRecOn (motive := fun k' => Settled k k') _ _ (refl k)
      fun k' here id _ => here.trans (takeSpace k' id)
  exact taken.trans (of_states rfl fun _ => rfl)

theorem collect (k : Kernel) (parent : TaskId) : Settled k (Lifecycle.collect k parent).2 := by
  unfold Lifecycle.collect
  split
  · exact refl k
  · rename_i id found
    have emptied : ∀ orphans, Settled k (Lifecycle.emptySlot { k with orphans := orphans } id) := by
      intro orphans
      have moved : Settled k { k with orphans := orphans } := of_states rfl fun _ => rfl
      exact moved.trans (emptySlot _ id)
    exact emptied _

theorem handle {env : Surroundings} {written : Nat} {number arg0 arg1 arg2 context : Word}
    (goesOn : number ≠ sysExit) (busy : number ≠ sysWait) :
    Settled k (Syscalls.handle k env written number arg0 arg1 arg2 context).2 := by
  by_cases forks : number = sysFork
  · subst forks
    exact fork k env context
  · by_cases execs : number = sysExec
    · subst execs
      exact exec k env arg0 arg1 arg2 context
    · exact of_moves (.handle goesOn busy forks execs)

end Settled

theorem settled_step {m m' : Machine} {e : Event} (taken : System.step m e = some m')
    (plain : unsplit m e = true) (still : timerFrame m e = none) : Settled m.kernel m'.kernel := by
  refine step_rule (P := fun m' => Settled m.kernel m'.kernel) taken
    (fun _ _ _ _ => .of_states rfl fun _ => rfl) (fun _ => .of_moves (.storeView _ _)) ?onServe ?onLeave
    (fun a f here => absurd (still.symm.trans here) (by simp)) (fun id number => .of_moves (.signal _ _ _))
    (fun channel => .wakeAll _ _) (.sameState _ _ rfl) ?onBlock
    (fun ticks _ => .of_moves (.sleepFor _ _)) ?onEnd
    (fun sched => .of_states rfl fun _ => rfl) ?onSpawn ?onRun ?onWait (fun _ _ => .reapFinished _)
    (fun _ _ => .orphanAddressSpaces _)
  case onServe =>
    rintro env context written rfl inside -
    simp only [unsplit, inCall, inside, Bool.and_eq_true, Bool.not_eq_true', decide_eq_false_iff_not]
      at plain
    exact .handle plain.1 plain.2
  case onLeave =>
    rintro context result rfl inside
    simp only [unsplit, inside, Bool.not_eq_true'] at plain
    rw [leave_eq, plain]
    exact (Settled.delivered _ _).trans (.of_moves (.storeView _ _))
  case onBlock =>
    rintro channel rfl -
    exact .of_moves (.park (of_decide_eq_true plain))
  case onEnd =>
    rintro rfl
    exact absurd plain (by simp [unsplit])
  case onSpawn =>
    intro stack entry priority _ _ _
    rcases spawnWithPriority_cases m.kernel stack entry priority with same | ⟨id, joined, -⟩
    · simp only [enroll, same]
      exact .refl _
    · exact .joins joined rfl
  case onRun =>
    intro stack image _ _ _
    have loaded : Settled m.kernel (withUserMemory m.kernel image.root image.memory) :=
      .of_states rfl fun _ => rfl
    rcases spawnUser_cases (withUserMemory m.kernel image.root image.memory) stack image.entry
      image.stack image.root (some 0) image.argc image.argv with same | ⟨id, joined, -⟩
    · simp only [enroll, same]
      exact loaded
    · exact loaded.trans (.joins joined rfl)
  case onWait =>
    rintro rfl
    exact absurd plain (by simp [unsplit])

section Ticks

variable {k : Kernel} (sp : Word)

private theorem saveCurrent_waits {waiter id : TaskId}
    (waits : WaitsFor (saveCurrent k sp) waiter id) : WaitsFor k waiter id := by
  rcases asked_state k sp waiter with kept | ⟨-, ready⟩
  · exact Eq.trans kept.symm waits
  · exact absurd (Eq.trans ready.symm waits) (by simp)

theorem saveCurrent_ready {id : TaskId}
    (ready : ((saveCurrent k sp).tasks id).state = .ready) :
    (k.tasks id).state = .ready ∨
      ∃ deadline, (k.tasks id).state = .blocked (.untilTick deadline) ∧ deadline ≤ k.ticks := by
  have saved : ((k.setTask k.current { k.tasks k.current with stackPointer := sp }).tasks id).state =
      (k.tasks id).state := by
    by_cases same : id = k.current
    · subst same
      simp only [Kernel.setTask, Function.update_self]
    · simp only [Kernel.setTask, Function.update_of_ne same]
  simp only [saveCurrent, wakeSleepers] at ready
  split at ready
  · rename_i deadline asleep
    rw [saved] at asleep
    split_ifs at ready with due
    · exact Or.inr ⟨deadline, asleep, due⟩
    · rw [saved] at ready
      exact Or.inl ready
  · rw [saved] at ready
    exact Or.inl ready

private theorem killed_waits {next waiter id : TaskId} (waits : WaitsFor (killed k next).2 waiter id)
    (ended : ((killed k next).2.tasks id).state = .finished) :
    id ≠ next ∧ WaitsFor k waiter id ∧ (k.tasks id).state = .finished := by
  have tasks : (killed k next).2.tasks = (markKilled k next).tasks := by
    simp only [killed, handOver_eq]
  rw [WaitsFor, tasks] at waits
  rw [tasks] at ended
  simp only [markKilled, Kernel.wakeAll] at waits ended
  split_ifs at waits with woken
  split_ifs at ended with other
  have awake : waiter ≠ next := by
    rintro rfl
    simp [Kernel.setTask] at waits
  simp only [Kernel.setTask, Function.update_of_ne awake] at waits woken
  have apart : id ≠ next := by
    rintro rfl
    exact woken waits
  refine ⟨apart, waits, ?_⟩
  simpa only [Kernel.setTask, Function.update_of_ne apart] using ended

/-- A tick puts nobody to sleep and leaves nobody asleep for a task that it ends;
where it finds nobody to run it comes back to the task it interrupted. -/
theorem schedule_waits {waiter id : TaskId} (waits : WaitsFor (schedule k sp).2 waiter id)
    (ended : ((schedule k sp).2.tasks id).state = .finished) :
    WaitsFor k waiter id ∧ (k.tasks id).state = .finished ∧
      ((∀ j, ((saveCurrent k sp).tasks j).state ≠ .ready) → id = k.current →
        (schedule k sp).2.current = k.current) := by
  have unchanged : ∀ k', Follows (asked k sp) k' (chosen k sp) → WaitsFor k' waiter id →
      (k'.tasks id).state = .finished →
      WaitsFor k waiter id ∧ (k.tasks id).state = .finished := by
    intro k' follows waits' ended'
    rw [WaitsFor, follows.state] at waits'
    rw [follows.state] at ended'
    refine ⟨saveCurrent_waits sp waits', ?_⟩
    rcases asked_state k sp id with kept | ⟨-, ready⟩
    · rwa [kept] at ended'
    · rw [ready] at ended'
      exact absurd ended' (by simp)
  have stays : (∀ j, ((saveCurrent k sp).tasks j).state ≠ .ready) → chosen k sp = k.current :=
    choose_idle k.sched _ k.current k.ticks
  cases on : k.enabled with
  | false =>
      have same : schedule k sp = (sp, k) := if_pos on
      rw [same] at waits ended ⊢
      exact ⟨waits, ended, fun _ _ => rfl⟩
  | true =>
      by_cases dies : Dies k sp
      · obtain ⟨k', follows, eq⟩ := schedule_kills on dies
        rw [eq] at waits ended
        obtain ⟨apart, waits', ended'⟩ := killed_waits waits ended
        obtain ⟨waits'', ended''⟩ := unchanged k' follows waits' ended'
        refine ⟨waits'', ended'', fun idle here => absurd ?_ apart⟩
        rw [here, stays idle]
      · obtain ⟨follows, -⟩ := schedule_survives on dies
        obtain ⟨waits', ended'⟩ := unchanged _ follows waits ended
        refine ⟨waits', ended', fun idle _ => ?_⟩
        rw [follows.current, stays idle]

end Ticks

/-- The invariant behind `NeverMissed`: whoever sleeps for a task that has ended
sleeps for the running one, which has yet to wake it. -/
def Announced (s : Fine) : Prop :=
  ∀ waiter id, WaitsFor s.kernel waiter id → (s.kernel.tasks id).state = .finished →
    id = s.current ∧ AboutToWake s id waiter

theorem Announced.neverMissed {s : Fine} (announced : Announced s) : NeverMissed s := by
  intro waiter id waits ended
  obtain ⟨running, about⟩ := announced waiter id waits ended
  exact ⟨Or.inl running, about⟩

section Steps

variable {s : Fine}

theorem Announced.settled {s' : Fine} (announced : Announced s) (settled : Settled s.kernel s'.kernel)
    (phase : ∀ id, (s.kernel.tasks id).state = .finished → AboutToWake s id = AboutToWake s' id) :
    Announced s' := by
  intro waiter id waits ended
  have ended' := settled.finished id ended
  obtain ⟨running, about⟩ := announced waiter id (settled.waits waiter id waits) ended'
  refine ⟨?_, phase id ended' ▸ about⟩
  rw [running]
  exact settled.current.symm

theorem Announced.marked (announced : Announced s) {k : Kernel} (settled : Settled s.kernel k)
    (code : Word) : Announced (mark s k code) := by
  have current : k.current = s.current := settled.current
  have tasks : (mark s k code).kernel.tasks = Function.update k.tasks k.current
      { k.tasks k.current with exitCode := code, state := .finished } := rfl
  intro waiter id waits ended
  have here : (mark s k code).current = s.current := settled.current
  by_cases same : id = s.current
  · refine ⟨same.trans here.symm, 0, ?_, Nat.zero_le _⟩
    rw [same]
    exact Function.update_self ..
  · have other : id ≠ k.current := fun eq => same (eq.trans current)
    rw [tasks, Function.update_of_ne other] at ended
    have asleep : waiter ≠ k.current := by
      rintro rfl
      rw [WaitsFor, tasks, Function.update_self] at waits
      exact absurd waits (by simp)
    rw [WaitsFor, tasks, Function.update_of_ne asleep] at waits
    have before := announced waiter id (settled.waits waiter id waits) (settled.finished id ended)
    exact absurd before.1 same

/-- While the running task is not waking anybody, nobody sleeps for a task that
has ended, and a step that settles keeps it so whatever it does to the phases. -/
theorem Announced.vacant {s' : Fine} (announced : Announced s)
    (idle : ∀ next, s.phase s.current ≠ .waking next) (settled : Settled s.kernel s'.kernel) :
    Announced s' := by
  intro waiter id waits ended
  obtain ⟨rfl, next, about, -⟩ :=
    announced waiter id (settled.waits waiter id waits) (settled.finished id ended)
  exact absurd about (idle next)

theorem completion_inj {id other : TaskId} (same : Kernel.completion id = Kernel.completion other) :
    id = other := by
  have toNat : ∀ id : TaskId, (Kernel.completion id).toNat = id.val := fun id => by
    rw [Kernel.completion, BitVec.toNat_ofNat, Nat.mod_eq_of_lt]
    exact lt_trans id.isLt (by decide)
  have numbers := congrArg BitVec.toNat same
  rw [toNat, toNat] at numbers
  exact Fin.ext numbers

private theorem Announced.parked (announced : Announced s)
    (idle : ∀ next, s.phase s.current ≠ .waking next) {child : TaskId}
    (lives : (s.kernel.tasks child).state ≠ .finished) :
    Announced { s with
      machine := withKernel s.machine (park s.kernel (Kernel.completion child)) } := by
  intro waiter id waits ended
  change (((park s.kernel (Kernel.completion child)).tasks waiter).state = _) at waits
  change (((park s.kernel (Kernel.completion child)).tasks id).state = _) at ended
  simp only [park, Kernel.setTask] at waits ended
  have other : id ≠ s.kernel.current := by
    rintro rfl
    simp at ended
  rw [Function.update_of_ne other] at ended
  by_cases self : waiter = s.kernel.current
  · rw [self, Function.update_self] at waits
    have same : child = id := completion_inj (by simpa using waits)
    exact absurd (same ▸ ended) lives
  · rw [Function.update_of_ne self] at waits
    obtain ⟨rfl, next, about, -⟩ := announced waiter id waits ended
    exact absurd about (idle next)

private theorem Announced.woke (announced : Announced s) {next : Nat}
    (waking : s.phase s.current = .waking next) (bound : next < maxTasks) :
    Announced { machine := withKernel s.machine (wakeSlot s.kernel s.current ⟨next, bound⟩)
                phase := Function.update s.phase s.current (.waking (next + 1)) } := by
  have settled : Settled s.kernel (wakeSlot s.kernel s.current ⟨next, bound⟩) := by
    unfold wakeSlot
    split_ifs
    · exact .setTask _ _ (by simp) fun _ same => by simp at same
    · exact .refl _
  intro waiter id waits ended
  obtain ⟨rfl, next', about, reached⟩ :=
    announced waiter id (settled.waits waiter id waits) (settled.finished id ended)
  rw [waking] at about
  obtain rfl := Phase.waking.inj about
  refine ⟨settled.current.symm, next + 1, Function.update_self .., ?_⟩
  have passed : waiter.val ≠ next := by
    rintro rfl
    change (((wakeSlot s.kernel s.current ⟨waiter.val, bound⟩).tasks waiter).state = _) at waits
    unfold wakeSlot at waits
    split_ifs at waits with asleep
    · simp [Kernel.setTask] at waits
    · exact asleep waits
  omega

private theorem timer_kernel {m m' : Machine} {e : Event} (taken : System.step m e = some m')
    (framed : timerFrame m e ≠ none) : ∃ a f, m'.kernel = (schedule (trapped m a f) a).2 := by
  cases e with
  | tick =>
      simp only [System.step, Option.ite_none_right_eq_some, Option.some.injEq] at taken
      obtain ⟨-, rfl⟩ := taken
      exact ⟨_, _, rfl⟩
  | tickInside nested saved =>
      simp only [System.step, Option.ite_none_right_eq_some, Option.some.injEq] at taken
      obtain ⟨-, rfl⟩ := taken
      exact ⟨_, _, rfl⟩
  | _ => exact absurd rfl framed

private theorem Announced.ticked {m' : Machine} {e : Event} (announced : Announced s)
    (spared : ¬Window s) (taken : System.step s.machine e = some m')
    (framed : timerFrame s.machine e ≠ none) : Announced ⟨m', refreshed s m'⟩ := by
  obtain ⟨a, f, kernel⟩ := timer_kernel taken framed
  intro waiter id waits ended
  change WaitsFor m'.kernel waiter id at waits
  change (m'.kernel.tasks id).state = .finished at ended
  rw [kernel] at waits ended
  obtain ⟨waits', ended', stays⟩ := schedule_waits a waits ended
  obtain ⟨rfl, about⟩ := announced waiter id waits' ended'
  have idle : ∀ j, ((saveCurrent (trapped s.machine a f) a).tasks j).state ≠ .ready := by
    intro j ready
    exact spared ⟨waiter, about, waits', j, saveCurrent_ready a ready⟩
  refine ⟨?_, ?_⟩
  · change s.current = m'.kernel.current
    rw [kernel]
    exact (stays idle rfl).symm
  · obtain ⟨next, phase, reached⟩ := about
    refine ⟨next, ?_, reached⟩
    change refreshed s m' s.current = _
    rw [refreshed, if_neg fun fresh => ?_, phase]
    have ended'' : (s.kernel.tasks s.current).state = .finished := ended'
    rw [ended''] at fresh
    exact absurd fresh.1 (by simp)

theorem announced_step {s' : Fine} {a : Action} (announced : Announced s) (spared : Spared s a)
    (taken : step s a = some s') : Announced s' := by
  have outside : s.phase s.current = .elsewhere → ∀ next, s.phase s.current ≠ .waking next := by
    intro idle next
    rw [idle]
    simp
  cases a with
  | plain e =>
      simp only [step, Option.ite_none_right_eq_some, Option.map_eq_some_iff] at taken
      obtain ⟨⟨-, plain⟩, m', taken, rfl⟩ := taken
      by_cases framed : timerFrame s.machine e = none
      · refine announced.settled (settled_step taken plain framed) fun id ended => ?_
        have kept : refreshed s m' id = s.phase id := by
          rw [refreshed, if_neg fun fresh => ?_]
          rw [ended] at fresh
          exact absurd fresh.1 (by simp)
        funext waiter
        simp only [AboutToWake, kept]
      · exact announced.ticked (spared e rfl framed) taken framed
  | exit =>
      simp only [step] at taken
      split at taken
      · simp only [Option.ite_none_right_eq_some, Option.some.injEq] at taken
        obtain ⟨-, rfl⟩ := taken
        exact announced.marked (.of_moves (.closeAllDescriptors _ _)) _
      · simp at taken
  | die =>
      simp only [step] at taken
      split at taken
      · simp only [Option.ite_none_right_eq_some, Option.some.injEq] at taken
        obtain ⟨-, rfl⟩ := taken
        exact announced.marked ((Settled.delivered _ _).trans (.of_moves (.closeAllDescriptors _ _))) _
      · simp at taken
  | endEntry =>
      simp only [step, Option.ite_none_right_eq_some, Option.some.injEq] at taken
      obtain ⟨-, rfl⟩ := taken
      exact announced.marked (.refl _) 0
  | wakeNext =>
      simp only [step] at taken
      split at taken
      · rename_i next waking
        split_ifs at taken with bound kernel
        · obtain rfl := Option.some.inj taken
          exact announced.woke waking bound
        all_goals
          obtain rfl := Option.some.inj taken
          intro waiter id waits ended
          obtain ⟨rfl, next', about, reached⟩ := announced waiter id waits ended
          rw [waking] at about
          obtain rfl := Phase.waking.inj about
          exact absurd waiter.isLt (by omega)
      · simp at taken
  | await child =>
      simp only [step, Option.ite_none_right_eq_some, Option.some.injEq] at taken
      obtain ⟨⟨idle, -⟩, rfl⟩ := taken
      exact announced.vacant (outside idle) (.refl _)
  | test =>
      simp only [step] at taken
      split at taken
      · rename_i child awaiting
        have idle : ∀ next, s.phase s.current ≠ .waking next := by
          intro next
          rw [awaiting]
          simp
        split_ifs at taken with done
        · obtain rfl := Option.some.inj taken
          exact announced.vacant idle (.refl _)
        · obtain rfl := Option.some.inj taken
          exact announced.parked idle fun ended => done (Or.inl ended)
      · simp at taken
  | collect =>
      simp only [step, Option.ite_none_right_eq_some] at taken
      obtain ⟨⟨idle, -⟩, taken⟩ := taken
      have answeredKernel : ∀ k code, (answered s.machine k code).kernel = k := by
        intro k code
        unfold answered
        split <;> rfl
      split_ifs at taken with childless
      · obtain rfl := Option.some.inj taken
        refine announced.vacant (outside idle) ?_
        change Settled s.kernel (answered s.machine s.kernel none).kernel
        rw [answeredKernel]
        exact .refl _
      · have settled := Settled.collect s.kernel s.current
        split at taken
        · rename_i code k found
          obtain rfl := Option.some.inj taken
          refine announced.vacant (outside idle) ?_
          change Settled s.kernel (answered s.machine k (some code)).kernel
          rw [answeredKernel]
          rwa [found] at settled
        · obtain rfl := Option.some.inj taken
          exact announced

end Steps

/-- In every run in which no tick falls into an exit window, nobody sleeps for a
task that has ended unless that task is about to wake it. -/
theorem completion_never_missed {s : Fine} (run : Reached step Started Spared s) :
    NeverMissed s := by
  have announced : Announced s := by
    refine run.invariant (P := Announced) ?_ fun s a s' => announced_step
    rintro s ⟨⟨memory, root, rsp0, ticks, machine⟩, -⟩ waiter id waits
    have kernel : s.kernel = (boot memory root rsp0 ticks).kernel := by rw [Fine.kernel, machine]
    rw [WaitsFor, kernel] at waits
    by_cases shell : waiter = 0
    · subst shell
      simp [boot] at waits
    · simp [boot, Function.update_of_ne shell, empty] at waits
  exact announced.neverMissed

section Scenario

private def waited : List Action :=
  [.plain (.run 0x444444441000 program), .collect, .await 1, .test]

private def exiting : List Action :=
  ((callWith sysExit 0 0x10ff00 fun _ => 0).take 2).map .plain ++ [.exit]

private def first : Fine := ⟨started, fun _ => .elsewhere⟩

/-- A second task is ready when the program exits, and a tick comes between its
mark and its `wake_all`. -/
private def interrupted : List Action :=
  waited.take 1 ++ .plain (.spawn 0x444444461000 0x400000000000 8) :: waited.drop 1 ++
    .plain firstTick :: (exiting ++ [.plain (.tickInside 0x444444450000
      fun i => if i = frameCs then kernelCode else 0)])

/-- The shell sleeps for the end of a program that has ended, and the program
will not run again to wake it. -/
theorem completion_missed :
    ∃ s, Reached step Started (fun _ _ => True) s ∧ ¬NeverMissed s := by
  obtain ⟨s, reached, facts⟩ := Reached.freely Started ⟨⟨_, _, _, _, rfl⟩, fun _ => rfl⟩
    (show ((runAll step first interrupted).any fun s => decide (WaitsFor s.kernel 0 1 ∧
      (s.kernel.tasks 1).state = .finished ∧ s.current = 2)) = true by decide +kernel)
  obtain ⟨waits, ended, current⟩ := of_decide_eq_true facts
  refine ⟨s, reached, fun never => ?_⟩
  rcases (never 0 1 waits ended).1 with running | ready
  · rw [current] at running
    exact absurd running (by decide)
  · rw [ended] at ready
    exact absurd ready (by simp)

private theorem spared_of_still {s : Fine} {a : Action}
    (still : ∀ e, a = .plain e → timerFrame s.machine e = none) : Spared s a :=
  fun e here framed => absurd (still e here) framed

private theorem waited_some : (runAll step first waited).isSome = true := by decide +kernel

/-- With no tick in the window, the exiting program wakes the shell. -/
theorem completion_never_missed_exit :
    ∃ s, Reached step Started Spared s ∧ (s.kernel.tasks 1).state = .finished ∧
      (s.kernel.tasks 0).state = .ready ∧ NeverMissed s := by
  have asleep : Reached step Started Spared ((runAll step first waited).get waited_some) := by
    refine Reached.runAll (.start ⟨⟨_, _, _, _, rfl⟩, fun _ => rfl⟩)
      (allAllowed_of_forall (fun a member s => ?_) _) (Option.some_get waited_some).symm
    simp only [waited, List.mem_cons, List.not_mem_nil, or_false] at member
    refine spared_of_still fun e here => ?_
    rcases member with rfl | rfl | rfl | rfl <;> cases here
    rfl
  have fair : allAllowed step Spared ((runAll step first waited).get waited_some)
      (.plain firstTick :: (exiting ++ [.wakeNext])) := by
    refine ⟨fun _ _ _ window => ?_, fun s' _ => allAllowed_of_forall (fun a member s => ?_) _⟩
    · obtain ⟨waiter, ⟨next, waking, -⟩, -⟩ := window
      have phase : ((runAll step first waited).get waited_some).phase
          ((runAll step first waited).get waited_some).current = .awaiting 1 := by decide +kernel
      rw [phase] at waking
      exact absurd waking (by simp)
    · simp only [exiting, callWith, List.take_succ_cons, List.take_zero, List.map_cons,
        List.map_nil, List.cons_append, List.nil_append, List.mem_cons, List.not_mem_nil,
        or_false] at member
      refine spared_of_still fun e here => ?_
      rcases member with rfl | rfl | rfl | rfl <;> cases here <;> rfl
  obtain ⟨s, taken, facts⟩ := (Option.any_eq_true ..).mp
    (show ((runAll step ((runAll step first waited).get waited_some)
      (.plain firstTick :: (exiting ++ [.wakeNext]))).any fun s =>
        decide ((s.kernel.tasks 1).state = .finished ∧ (s.kernel.tasks 0).state = .ready)) = true by
      decide +kernel)
  obtain ⟨ended, ready⟩ := of_decide_eq_true facts
  have woken := asleep.runAll fair taken
  exact ⟨s, woken, ended, ready, completion_never_missed woken⟩

end Scenario

end FiveAM.Process.Completion
