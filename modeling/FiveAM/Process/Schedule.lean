/- GID: FiveAM/Process/Schedule
   source: kernel/src/task.rs
   digest: The timer's scheduling step, and when the machine state follows the task. -/

import FiveAM.Process.Signals
import Mathlib.Tactic.FinCases

set_option autoImplicit false
set_option relaxedAutoImplicit false

namespace FiveAM.Process.Schedule

open FiveAM.Process.TaskTable FiveAM.Process.Machine FiveAM.Process.Signals
open FiveAM.Lib.ByteMemory FiveAM.Sched.Mechanism

def wakeSleepers (tasks : Tasks) (now : Nat) : Tasks := fun id =>
  match (tasks id).state with
  | .blocked (.untilTick deadline) =>
      if deadline ≤ now then { tasks id with state := .ready } else tasks id
  | _ => tasks id

/-- The first half of `schedule`: record where the current task stopped. -/
def saveCurrent (k : Kernel) (stackPointer : Word) : Kernel :=
  let k := k.setTask k.current { k.tasks k.current with stackPointer := stackPointer }
  { k with tasks := wakeSleepers k.tasks k.ticks }

def activateRoot (k : Kernel) (root : Root) : Kernel := { k with activeRoot := root }

def setKernelStack (k : Kernel) (top : Word) : Kernel := { k with rsp0 := top }

/-- Make `next` current: its page tables, and the kernel stack it enters ring 0
on. A `Root` is never zero, which is the other half of the test on `want`. -/
def switchTo (k : Kernel) (next : TaskId) : Kernel :=
  if next = k.current then k
  else
    let k := { k with current := next }
    let k := k.setTask next { k.tasks next with switches := (k.tasks next).switches + 1 }
    let want := k.spaceOf next
    let k := if want ≠ k.activeRoot then activateRoot k want else k
    if (k.tasks next).kernelStackTop ≠ 0 then setKernelStack k (k.tasks next).kernelStackTop
    else k

/-- The first runnable task after `next`, or the shell. -/
def fallback (tasks : Tasks) (next : TaskId) : TaskId :=
  ((rotation next).find? fun id => decide ((tasks id).state = .ready)).getD 0

/-- Finish a task that a signal ended inside `schedule`. -/
def markKilled (k : Kernel) (next : TaskId) : Kernel :=
  (k.setTask next { k.tasks next with exitCode := 128, state := .finished }).wakeAll
    (Kernel.completion next)

/-- Resume `other` in place of a killed task. -/
def handOver (k : Kernel) (other : TaskId) : Word × Kernel :=
  let k := { k with current := other }
  let k := match (k.tasks other).addressSpace with
    | some root => activateRoot k root
    | none => k
  let k := if (k.tasks other).kernelStackTop ≠ 0 then
    setKernelStack k (k.tasks other).kernelStackTop else k
  ((k.tasks other).stackPointer, k)

/-- What `schedule` does with a task that a signal ended. -/
def killed (k : Kernel) (next : TaskId) : Word × Kernel :=
  let k := markKilled k next
  handOver k (fallback k.tasks next)

/-- Deliver to the task about to resume, if it is a program's. -/
def deliverTo (k : Kernel) (next : TaskId) : Bool × Kernel :=
  if (k.tasks next).addressSpace.isSome ∧ (k.tasks next).pending ≠ 0 then
    deliver k next (k.tasks next).stackPointer
  else (false, k)

/-- The second half: follow the chosen task, and deliver to it. -/
def resume (k : Kernel) (next : TaskId) : Word × Kernel :=
  match deliverTo (switchTo k next) next with
  | (true, k) => killed k next
  | (false, k) => ((k.tasks next).stackPointer, k)

def chosen (k : Kernel) (stackPointer : Word) : TaskId :=
  (choose k.sched (saveCurrent k stackPointer).tasks k.current k.ticks).1

def asked (k : Kernel) (stackPointer : Word) : Kernel :=
  { saveCurrent k stackPointer with
    sched := (choose k.sched (saveCurrent k stackPointer).tasks k.current k.ticks).2 }

/-- Pick the next runnable task and hand back its stack pointer. -/
def schedule (k : Kernel) (stackPointer : Word) : Word × Kernel :=
  if k.enabled = false then (stackPointer, k)
  else resume (asked k stackPointer) (chosen k stackPointer)

/-- What must follow the running task: its stack pointer, its page tables, its
kernel stack; and it is runnable if anything is. -/
structure Coherent (stackPointer : Word) (k : Kernel) : Prop where
  pointer : stackPointer = (k.tasks k.current).stackPointer
  space : k.activeRoot = k.spaceOf k.current
  kernelStack : (k.tasks k.current).kernelStackTop ≠ 0 →
    k.rsp0 = (k.tasks k.current).kernelStackTop
  ready : (∃ id, (k.tasks id).state = .ready) → (k.tasks k.current).state = .ready

/-- The page tables a task resumes in: the ones already active when it is not
switched to. -/
def rootFor (k : Kernel) (next : TaskId) : Root :=
  if next = k.current then k.activeRoot else k.spaceOf next

/-- The chosen task stopped in ring 3, and the signal it would take is fatal. -/
def Dies (k : Kernel) (stackPointer : Word) : Prop :=
  let next := chosen k stackPointer
  let task := (saveCurrent k stackPointer).tasks next
  task.addressSpace.isSome ∧ task.pending ≠ 0 ∧
    readFrame (k.memory.view (rootFor k next)) task.stackPointer frameCs &&& 3 = 3 ∧ Fatal task

instance (k : Kernel) (stackPointer : Word) : Decidable (Dies k stackPointer) :=
  inferInstanceAs (Decidable (_ ∧ _ ∧ _ ∧ _))

theorem rootFor_eq {k : Kernel} (entry : k.activeRoot = k.spaceOf k.current) (next : TaskId) :
    rootFor k next = k.spaceOf next := by
  unfold rootFor
  split_ifs with same
  · rw [same, entry]
  · rfl

/-- The first task after `next` that is runnable or waits for `next` to end, or
the shell. -/
def successor (tasks : Tasks) (next : TaskId) : TaskId :=
  ((rotation next).find? fun id => decide (id ≠ next ∧ ((tasks id).state = .ready ∨
    (tasks id).state = .blocked (.channel (Kernel.completion next))))).getD 0

@[simp] theorem saveCurrent_current (k : Kernel) (sp : Word) :
    (saveCurrent k sp).current = k.current := rfl

@[simp] theorem saveCurrent_kernelRoot (k : Kernel) (sp : Word) :
    (saveCurrent k sp).kernelRoot = k.kernelRoot := rfl

theorem wakeSleepers_eq (tasks : Tasks) (now : Nat) (id : TaskId) :
    wakeSleepers tasks now id = { tasks id with state := (wakeSleepers tasks now id).state } := by
  unfold wakeSleepers
  split
  · split_ifs <;> rfl
  · rfl

theorem saveCurrent_task (k : Kernel) (sp : Word) (id : TaskId) :
    ∃ state, (saveCurrent k sp).tasks id = { k.tasks id with
      state := state
      stackPointer := if id = k.current then sp else (k.tasks id).stackPointer } := by
  refine ⟨((saveCurrent k sp).tasks id).state, ?_⟩
  simp only [saveCurrent, Kernel.setTask]
  rw [wakeSleepers_eq]
  by_cases same : id = k.current
  · subst same
    simp only [Function.update_self, if_true]
  · simp only [Function.update_of_ne same, if_neg same]

theorem saveCurrent_spaceOf (k : Kernel) (sp : Word) (id : TaskId) :
    (saveCurrent k sp).spaceOf id = k.spaceOf id := by
  obtain ⟨state, eq⟩ := saveCurrent_task k sp id
  simp only [Kernel.spaceOf, eq, saveCurrent_kernelRoot]

/-- Switching makes `next` current in its own page tables, and moves `RSP0` when
the task changes and has a kernel stack. -/
theorem switchTo_eq (k : Kernel) (next : TaskId) : ∃ switches, switchTo k next =
    { k.setTask next { k.tasks next with switches := switches } with
      current := next
      activeRoot := rootFor k next
      rsp0 := if next = k.current ∨ (k.tasks next).kernelStackTop = 0 then k.rsp0
        else (k.tasks next).kernelStackTop } := by
  by_cases same : next = k.current
  · refine ⟨(k.tasks next).switches, ?_⟩
    simp only [switchTo, rootFor, same, true_or, if_true, Kernel.setTask,
      Function.update_eq_self]
  · refine ⟨(k.tasks next).switches + 1, ?_⟩
    have moved : ∀ task : Task, task.addressSpace = (k.tasks next).addressSpace →
        Kernel.spaceOf ({ k with current := next }.setTask next task) next = k.spaceOf next := by
      intro task kept
      simp only [Kernel.spaceOf, Kernel.setTask, Function.update_self, kept]
    simp only [switchTo, rootFor, same, false_or, if_false, moved]
    by_cases stay : k.spaceOf next = k.activeRoot
    · by_cases bare : (k.tasks next).kernelStackTop = 0 <;>
        simp only [Kernel.setTask, setKernelStack, stay, bare, Function.update_self, ne_eq,
          not_true_eq_false, not_false_eq_true, if_true, if_false]
    · by_cases bare : (k.tasks next).kernelStackTop = 0 <;>
        simp only [Kernel.setTask, activateRoot, setKernelStack, stay, bare, Function.update_self,
          ne_eq, not_true_eq_false, not_false_eq_true, if_true, if_false]

private theorem fallback_ready (tasks : Tasks) (next : TaskId)
    (any : ∃ id, (tasks id).state = .ready) : (tasks (fallback tasks next)).state = .ready := by
  obtain ⟨id, ready⟩ := any
  have found : ((rotation next).find? fun id => decide ((tasks id).state = .ready)).isSome :=
    List.find?_isSome.mpr ⟨id, mem_rotation next id, decide_eq_true ready⟩
  obtain ⟨other, here⟩ := Option.isSome_iff_exists.mp found
  have holds := List.find?_some here
  unfold fallback
  rw [here]
  simpa using holds

theorem markKilled_task (k : Kernel) (next id : TaskId) :
    ∃ state, (markKilled k next).tasks id = { k.tasks id with
        state := state
        exitCode := if id = next then 128 else (k.tasks id).exitCode } ∧
      (state = .ready ↔ id ≠ next ∧ ((k.tasks id).state = .ready ∨
        (k.tasks id).state = .blocked (.channel (Kernel.completion next)))) := by
  by_cases same : id = next
  · subst same
    refine ⟨.finished, ?_, by simp⟩
    simp [markKilled, Kernel.wakeAll, Kernel.setTask]
  · simp only [markKilled, Kernel.wakeAll, Kernel.setTask, Function.update_of_ne same, same,
      if_false, ne_eq, not_false_eq_true, true_and]
    split_ifs with waits
    · exact ⟨.ready, rfl, by simp [waits]⟩
    · exact ⟨(k.tasks id).state, rfl, by simp [waits]⟩

theorem fallback_markKilled (k : Kernel) (next : TaskId) :
    fallback (markKilled k next).tasks next = successor k.tasks next := by
  unfold fallback successor
  congr 2
  funext id
  obtain ⟨state, eq, runnable⟩ := markKilled_task k next id
  rw [eq]
  exact decide_eq_decide.mpr runnable

theorem handOver_eq (k : Kernel) (other : TaskId) :
    handOver k other = ((k.tasks other).stackPointer, { k with
      current := other
      activeRoot := (k.tasks other).addressSpace.getD k.activeRoot
      rsp0 := if (k.tasks other).kernelStackTop = 0 then k.rsp0
        else (k.tasks other).kernelStackTop }) := by
  by_cases bare : (k.tasks other).kernelStackTop = 0 <;>
    cases held : (k.tasks other).addressSpace <;>
      simp only [handOver, activateRoot, setKernelStack, held, bare, ne_eq, not_true_eq_false,
        not_false_eq_true, if_true, if_false, Option.getD_none, Option.getD_some]

private theorem killed_coherent_iff (k : Kernel) (next : TaskId) :
    Coherent (killed k next).1 (killed k next).2 ↔
      (k.tasks (successor k.tasks next)).addressSpace.isSome ∨ k.activeRoot = k.kernelRoot := by
  have runs := fallback_ready (markKilled k next).tasks next
  rw [fallback_markKilled] at runs
  obtain ⟨state, eq, -⟩ := markKilled_task k next (successor k.tasks next)
  have space : ((markKilled k next).tasks (successor k.tasks next)).addressSpace =
      (k.tasks (successor k.tasks next)).addressSpace := by rw [eq]
  simp only [killed, fallback_markKilled, handOver_eq]
  have follows : (k.tasks (successor k.tasks next)).addressSpace.getD k.activeRoot =
      (k.tasks (successor k.tasks next)).addressSpace.getD k.kernelRoot ↔
        (k.tasks (successor k.tasks next)).addressSpace.isSome ∨ k.activeRoot = k.kernelRoot := by
    cases (k.tasks (successor k.tasks next)).addressSpace <;> simp
  rw [← follows]
  constructor
  · intro coherent
    have here := coherent.space
    simp only [Kernel.spaceOf, space] at here
    exact here
  · intro same
    refine ⟨rfl, ?_, fun stacked => if_neg stacked, runs⟩
    simp only [Kernel.spaceOf, space]
    exact same

theorem successor_congr {tasks tasks' : Tasks} (next : TaskId)
    (same : ∀ id, (tasks' id).state = (tasks id).state) :
    successor tasks' next = successor tasks next := by
  unfold successor
  simp only [same]

/-- A kernel that differs from `k` only where `switchTo` and `deliver` write. -/
structure Follows (k k' : Kernel) (next : TaskId) : Prop where
  current : k'.current = next
  active : k'.activeRoot = rootFor k next
  rsp0 : k'.rsp0 = if next = k.current ∨ (k.tasks next).kernelStackTop = 0 then k.rsp0
    else (k.tasks next).kernelStackTop
  tasks : ∀ id, ∃ switches pending,
    k'.tasks id = { k.tasks id with switches := switches, pending := pending }
  rest : k'.enabled = k.enabled ∧ k'.ticks = k.ticks ∧ k'.kernelRoot = k.kernelRoot ∧
    k'.sched = k.sched ∧ k'.pipes = k.pipes ∧ k'.orphans = k.orphans

private theorem follows_switchTo (k : Kernel) (next : TaskId) :
    Follows k (switchTo k next) next := by
  obtain ⟨switches, eq⟩ := switchTo_eq k next
  rw [eq]
  refine ⟨rfl, rfl, rfl, fun id => ?_, rfl, rfl, rfl, rfl, rfl, rfl⟩
  by_cases same : id = next
  · subst same
    exact ⟨switches, _, by simp only [Kernel.setTask, Function.update_self]; rfl⟩
  · exact ⟨_, _, by simp only [Kernel.setTask, Function.update_of_ne same]; rfl⟩

theorem follows_deliverTo (k : Kernel) (next : TaskId) :
    Follows k (deliverTo (switchTo k next) next).2 next := by
  have switched := follows_switchTo k next
  unfold deliverTo
  split_ifs
  · obtain ⟨pending, memory, eq⟩ :=
      deliver_changes (switchTo k next) next ((switchTo k next).tasks next).stackPointer
    rw [eq]
    refine ⟨switched.current, switched.active, switched.rsp0, fun id => ?_, switched.rest⟩
    obtain ⟨switches, old, here⟩ := switched.tasks id
    by_cases same : id = next
    · subst same
      exact ⟨switches, pending, by simp only [Kernel.setTask, Function.update_self, here]⟩
    · exact ⟨switches, old, by simp only [Kernel.setTask, Function.update_of_ne same, here]⟩
  · exact switched

theorem deliverTo_kills_iff (k : Kernel) (next : TaskId) :
    (deliverTo (switchTo k next) next).1 = true ↔
      (k.tasks next).addressSpace.isSome ∧ (k.tasks next).pending ≠ 0 ∧
        readFrame (k.memory.view (rootFor k next)) (k.tasks next).stackPointer frameCs &&& 3 = 3 ∧
          Fatal (k.tasks next) := by
  obtain ⟨switches, eq⟩ := switchTo_eq k next
  have task : (switchTo k next).tasks next = { k.tasks next with switches := switches } := by
    rw [eq]
    simp only [Kernel.setTask, Function.update_self]
  have view : (switchTo k next).view = k.memory.view (rootFor k next) := by rw [eq]; rfl
  simp only [deliverTo, task]
  split_ifs with signalled
  · rw [deliver_kills_iff, view, task]
    simp only [Fatal, signalled.1, true_and]
  · simp only [false_iff]
    exact fun dies => signalled ⟨dies.1, dies.2.1⟩

theorem asked_spaceOf (k : Kernel) (sp : Word) (id : TaskId) :
    (asked k sp).spaceOf id = k.spaceOf id := saveCurrent_spaceOf k sp id

theorem deliverTo_asked_iff (k : Kernel) (sp : Word) :
    (deliverTo (switchTo (asked k sp) (chosen k sp)) (chosen k sp)).1 = true ↔ Dies k sp := by
  rw [deliverTo_kills_iff]
  have root : rootFor (asked k sp) (chosen k sp) = rootFor k (chosen k sp) := by
    unfold rootFor
    rw [asked_spaceOf]
    rfl
  rw [root]
  exact Iff.rfl

theorem schedule_survives {k : Kernel} {sp : Word} (on : k.enabled = true) (lives : ¬Dies k sp) :
    Follows (asked k sp) (schedule k sp).2 (chosen k sp) ∧
      (schedule k sp).1 = ((schedule k sp).2.tasks (chosen k sp)).stackPointer := by
  have follows := follows_deliverTo (asked k sp) (chosen k sp)
  have spared := mt (deliverTo_asked_iff k sp).mp lives
  unfold schedule resume
  rw [if_neg (by simp [on])]
  cases outcome : deliverTo (switchTo (asked k sp) (chosen k sp)) (chosen k sp) with
  | mk dead k' =>
      simp only [outcome, Bool.not_eq_true] at follows spared
      subst spared
      exact ⟨follows, rfl⟩

/-- The task resumed instead of the one a signal ended. -/
theorem schedule_kills {k : Kernel} {sp : Word} (on : k.enabled = true) (dies : Dies k sp) :
    ∃ k', Follows (asked k sp) k' (chosen k sp) ∧ schedule k sp = killed k' (chosen k sp) := by
  have follows := follows_deliverTo (asked k sp) (chosen k sp)
  have ended := (deliverTo_asked_iff k sp).mpr dies
  unfold schedule resume
  rw [if_neg (by simp [on])]
  cases outcome : deliverTo (switchTo (asked k sp) (chosen k sp)) (chosen k sp) with
  | mk dead k' =>
      simp only [outcome] at follows ended
      subst ended
      exact ⟨k', follows, rfl⟩

theorem Follows.state {k k' : Kernel} {next : TaskId} (follows : Follows k k' next) (id : TaskId) :
    (k'.tasks id).state = (k.tasks id).state := by
  obtain ⟨_, _, eq⟩ := follows.tasks id
  rw [eq]

theorem Follows.space {k k' : Kernel} {next : TaskId} (follows : Follows k k' next) (id : TaskId) :
    (k'.tasks id).addressSpace = (k.tasks id).addressSpace := by
  obtain ⟨_, _, eq⟩ := follows.tasks id
  rw [eq]

theorem Follows.top {k k' : Kernel} {next : TaskId} (follows : Follows k k' next) (id : TaskId) :
    (k'.tasks id).kernelStackTop = (k.tasks id).kernelStackTop := by
  obtain ⟨_, _, eq⟩ := follows.tasks id
  rw [eq]

private theorem follows_coherent_iff {k k' : Kernel} {next : TaskId} (follows : Follows k k' next)
    (entry : k.activeRoot = k.spaceOf k.current)
    (runs : (∃ id, (k.tasks id).state = .ready) → (k.tasks next).state = .ready) :
    Coherent (k'.tasks next).stackPointer k' ↔
      (next = k.current → (k.tasks next).kernelStackTop ≠ 0 →
        k.rsp0 = (k.tasks next).kernelStackTop) := by
  constructor
  · intro coherent same stacked
    have here := coherent.kernelStack
    rw [follows.current, follows.top, follows.rsp0, if_pos (Or.inl same)] at here
    exact here stacked
  · intro kept
    refine ⟨by rw [follows.current], ?_, ?_, ?_⟩
    · rw [follows.active, follows.current, Kernel.spaceOf, follows.space, follows.rest.2.2.1]
      exact rootFor_eq entry next
    · rw [follows.current, follows.top, follows.rsp0]
      intro stacked
      by_cases same : next = k.current
      · rw [if_pos (Or.inl same), kept same stacked]
      · rw [if_neg (by tauto)]
    · simp only [follows.current, follows.state]
      exact runs

/-- Whoever the policy picks, the machine state follows the task resumed exactly
when `RSP0` was already right for a task that simply continues, and a killed task
is replaced by one with its own address space. -/
theorem schedule_coherent_iff {k : Kernel} (stackPointer : Word) (on : k.enabled = true)
    (entry : k.activeRoot = k.spaceOf k.current) :
    Coherent (schedule k stackPointer).1 (schedule k stackPointer).2 ↔
      (¬Dies k stackPointer → chosen k stackPointer = k.current →
        (k.tasks k.current).kernelStackTop ≠ 0 → k.rsp0 = (k.tasks k.current).kernelStackTop) ∧
      (Dies k stackPointer →
        (k.tasks (successor (saveCurrent k stackPointer).tasks
          (chosen k stackPointer))).addressSpace.isSome ∨
        k.spaceOf (chosen k stackPointer) = k.kernelRoot) := by
  have runs := choose_ready k.sched (saveCurrent k stackPointer).tasks k.current k.ticks
  have entry' : (asked k stackPointer).activeRoot =
      (asked k stackPointer).spaceOf (asked k stackPointer).current :=
    entry.trans (asked_spaceOf k stackPointer _).symm
  by_cases dies : Dies k stackPointer
  · obtain ⟨k', follows, eq⟩ := schedule_kills on dies
    rw [eq, killed_coherent_iff, successor_congr _ follows.state, follows.space, follows.active,
      follows.rest.2.2.1, rootFor_eq entry', asked_spaceOf]
    simp only [dies, not_true_eq_false, false_imp_iff, true_and, true_imp_iff]
    obtain ⟨state, kept⟩ := saveCurrent_task k stackPointer
      (successor (saveCurrent k stackPointer).tasks (chosen k stackPointer))
    simp only [asked, kept]
    rfl
  · obtain ⟨follows, pointer⟩ := schedule_survives on dies
    rw [pointer, follows_coherent_iff follows entry' runs]
    simp only [dies, not_false_eq_true, true_imp_iff, false_imp_iff, and_true]
    refine forall_congr' fun (same : chosen k stackPointer = k.current) => ?_
    obtain ⟨state, kept⟩ := saveCurrent_task k stackPointer k.current
    simp only [asked, same, kept]
    rfl

/-- The fields of a task that scheduling leaves alone. -/
structure Kept (task task' : Task) : Prop where
  stack : task'.stack = task.stack
  space : task'.addressSpace = task.addressSpace
  parent : task'.parent = task.parent
  top : task'.kernelStackTop = task.kernelStackTop
  files : task'.files = task.files
  handlers : task'.handlers = task.handlers
  restorer : task'.restorer = task.restorer

private theorem wakeSleepers_state (tasks : Tasks) (now : Nat) (id : TaskId) :
    (wakeSleepers tasks now id).state = (tasks id).state ∨
      ((tasks id).state.Live ∧ (wakeSleepers tasks now id).state = .ready) := by
  unfold wakeSleepers
  split
  · rename_i deadline blocked
    split_ifs
    · exact Or.inr ⟨by simp [State.Live, blocked], rfl⟩
    · exact Or.inl rfl
  · exact Or.inl rfl

theorem asked_state (k : Kernel) (sp : Word) (id : TaskId) :
    ((asked k sp).tasks id).state = (k.tasks id).state ∨
      ((k.tasks id).state.Live ∧ ((asked k sp).tasks id).state = .ready) := by
  have saved : ((k.setTask k.current { k.tasks k.current with stackPointer := sp }).tasks id).state =
      (k.tasks id).state := by
    by_cases same : id = k.current
    · subst same
      simp only [Kernel.setTask, Function.update_self]
    · simp only [Kernel.setTask, Function.update_of_ne same]
  have woken := wakeSleepers_state (k.setTask k.current
    { k.tasks k.current with stackPointer := sp }).tasks k.ticks id
  rw [saved] at woken
  exact woken

theorem kept_asked (k : Kernel) (sp : Word) (id : TaskId) :
    Kept (k.tasks id) ((asked k sp).tasks id) := by
  obtain ⟨state, eq⟩ := saveCurrent_task k sp id
  have same : (asked k sp).tasks id = (saveCurrent k sp).tasks id := rfl
  rw [same, eq]
  exact ⟨rfl, rfl, rfl, rfl, rfl, rfl, rfl⟩

private theorem Kept.follows {k k' : Kernel} {next id : TaskId} {task : Task}
    (kept : Kept task (k.tasks id)) (follows : Follows k k' next) : Kept task (k'.tasks id) := by
  obtain ⟨_, _, eq⟩ := follows.tasks id
  rw [eq]
  exact ⟨kept.stack, kept.space, kept.parent, kept.top, kept.files, kept.handlers, kept.restorer⟩

private theorem killed_task (k : Kernel) (next id : TaskId) :
    ∃ state, (killed k next).2.tasks id = { k.tasks id with
        state := state
        exitCode := if id = next then 128 else (k.tasks id).exitCode } ∧
      (state.Live ↔ id ≠ next ∧ (k.tasks id).state.Live) ∧
      (state = .free → (k.tasks id).state = .free) := by
  have same : (killed k next).2.tasks = (markKilled k next).tasks := by
    simp only [killed, handOver_eq]
  rw [same]
  by_cases self : id = next
  · subst self
    exact ⟨.finished, by simp [markKilled, Kernel.wakeAll, Kernel.setTask], by simp [State.Live],
      by simp⟩
  · simp only [markKilled, Kernel.wakeAll, Kernel.setTask, Function.update_of_ne self, self,
      if_false, ne_eq, not_false_eq_true, true_and]
    split_ifs with waits
    · exact ⟨.ready, rfl, by simp [waits, State.Live], by simp⟩
    · exact ⟨(k.tasks id).state, rfl, Iff.rfl, fun free => free⟩

theorem schedule_task {k : Kernel} (sp : Word) (on : k.enabled = true) (id : TaskId) :
    Kept (k.tasks id) ((schedule k sp).2.tasks id) ∧
      (((schedule k sp).2.tasks id).state.Live ↔
        (k.tasks id).state.Live ∧ ¬(Dies k sp ∧ id = chosen k sp)) ∧
      (((schedule k sp).2.tasks id).state = .free → (k.tasks id).state = .free) := by
  have kept := kept_asked k sp id
  have free : ((asked k sp).tasks id).state = .free → (k.tasks id).state = .free := by
    rcases asked_state k sp id with same | ⟨alive, ready⟩
    · rw [same]
      exact fun here => here
    · rw [ready]
      exact fun here => absurd here (by simp)
  have live : ((asked k sp).tasks id).state.Live ↔ (k.tasks id).state.Live := by
    rcases asked_state k sp id with same | ⟨alive, ready⟩
    · rw [same]
    · rw [ready]
      exact ⟨fun _ => alive, fun _ => by simp [State.Live]⟩
  by_cases dies : Dies k sp
  · obtain ⟨k', follows, eq⟩ := schedule_kills on dies
    obtain ⟨state, task, alive, vacant⟩ := killed_task k' (chosen k sp) id
    have before := kept.follows follows
    rw [follows.state] at vacant
    rw [eq, task, alive, follows.state, live]
    refine ⟨⟨before.stack, before.space, before.parent, before.top, before.files, before.handlers,
      before.restorer⟩, ?_, fun here => free (vacant here)⟩
    simp only [dies, true_and]
    exact and_comm
  · obtain ⟨follows, -⟩ := schedule_survives on dies
    rw [follows.state, live]
    refine ⟨kept.follows follows, ?_, free⟩
    simp only [dies, false_and, not_false_eq_true, and_true]

theorem schedule_rest {k : Kernel} (sp : Word) (on : k.enabled = true) :
    (schedule k sp).2.enabled = true ∧ (schedule k sp).2.pipes = k.pipes ∧
      (schedule k sp).2.orphans = k.orphans := by
  by_cases dies : Dies k sp
  · obtain ⟨k', follows, eq⟩ := schedule_kills on dies
    rw [eq]
    simp only [killed, handOver_eq]
    exact ⟨follows.rest.1.trans on, follows.rest.2.2.2.2.1, follows.rest.2.2.2.2.2⟩
  · obtain ⟨follows, -⟩ := schedule_survives on dies
    exact ⟨follows.rest.1.trans on, follows.rest.2.2.2.2.1, follows.rest.2.2.2.2.2⟩

theorem schedule_current {k : Kernel} (sp : Word) (on : k.enabled = true) :
    ((schedule k sp).2.tasks (schedule k sp).2.current).state = .ready ∨
      (schedule k sp).2.current = 0 ∨
      (¬Dies k sp ∧ (schedule k sp).2.current = k.current ∧ chosen k sp = k.current) := by
  by_cases dies : Dies k sp
  · obtain ⟨k', follows, eq⟩ := schedule_kills on dies
    rw [eq]
    simp only [killed, handOver_eq]
    by_cases any : ∃ id, ((markKilled k' (chosen k sp)).tasks id).state = .ready
    · exact Or.inl (fallback_ready _ _ any)
    · refine Or.inr (Or.inl ?_)
      unfold fallback
      rw [List.find?_eq_none.mpr fun id _ => by
        simpa using fun ready => any ⟨id, ready⟩]
      rfl
  · obtain ⟨follows, -⟩ := schedule_survives on dies
    rw [follows.current, follows.state]
    by_cases any : ∃ id, ((asked k sp).tasks id).state = .ready
    · exact Or.inl (choose_ready _ _ _ _ any)
    · have stays := choose_idle k.sched (asked k sp).tasks k.current k.ticks
        fun id ready => any ⟨id, ready⟩
      exact Or.inr (Or.inr ⟨dies, stays, stays⟩)

theorem schedule_pointer {k : Kernel} (sp : Word) (on : k.enabled = true) (id : TaskId) :
    ((schedule k sp).2.tasks id).stackPointer =
      if id = k.current then sp else (k.tasks id).stackPointer := by
  have saved : ((asked k sp).tasks id).stackPointer =
      if id = k.current then sp else (k.tasks id).stackPointer := by
    obtain ⟨state, eq⟩ := saveCurrent_task k sp id
    rw [show (asked k sp).tasks id = (saveCurrent k sp).tasks id from rfl, eq]
  by_cases dies : Dies k sp
  · obtain ⟨k', follows, eq⟩ := schedule_kills on dies
    obtain ⟨state, task, -⟩ := killed_task k' (chosen k sp) id
    obtain ⟨_, _, here⟩ := follows.tasks id
    rw [eq, task, here]
    exact saved
  · obtain ⟨follows, -⟩ := schedule_survives on dies
    obtain ⟨_, _, here⟩ := follows.tasks id
    rw [here]
    exact saved

theorem schedule_resumes {k : Kernel} (sp : Word) (on : k.enabled = true) :
    (schedule k sp).1 = ((schedule k sp).2.tasks (schedule k sp).2.current).stackPointer := by
  by_cases dies : Dies k sp
  · obtain ⟨k', follows, eq⟩ := schedule_kills on dies
    rw [eq]
    simp only [killed, handOver_eq]
  · obtain ⟨follows, pointer⟩ := schedule_survives on dies
    rw [pointer, follows.current]

theorem schedule_rsp0 {k : Kernel} (sp : Word) (on : k.enabled = true)
    (before : (k.tasks k.current).kernelStackTop ≠ 0 → k.rsp0 = (k.tasks k.current).kernelStackTop)
    (stacked : ((schedule k sp).2.tasks (schedule k sp).2.current).kernelStackTop ≠ 0) :
    (schedule k sp).2.rsp0 =
      ((schedule k sp).2.tasks (schedule k sp).2.current).kernelStackTop := by
  by_cases dies : Dies k sp
  · obtain ⟨k', follows, eq⟩ := schedule_kills on dies
    rw [eq] at stacked ⊢
    simp only [killed, handOver_eq] at stacked ⊢
    exact if_neg stacked
  · obtain ⟨follows, -⟩ := schedule_survives on dies
    have top := (kept_asked k sp (chosen k sp)).top
    rw [follows.current, follows.top] at stacked ⊢
    rw [follows.rsp0, show (asked k sp).current = k.current from rfl,
      show (asked k sp).rsp0 = k.rsp0 from rfl]
    by_cases same : chosen k sp = k.current
    · rw [if_pos (Or.inl same), top, same]
      rw [top, same] at stacked
      exact before stacked
    · rw [if_neg]
      rintro (here | bare)
      · exact same here
      · exact stacked bare

theorem chosen_live (k : Kernel) (sp : Word) :
    (k.tasks (chosen k sp)).state.Live ∨ chosen k sp = k.current := by
  by_cases any : ∃ id, ((asked k sp).tasks id).state = .ready
  · left
    have ready : ((asked k sp).tasks (chosen k sp)).state = .ready := choose_ready _ _ _ _ any
    rcases asked_state k sp (chosen k sp) with same | ⟨live, -⟩
    · rw [← same, ready]
      simp [State.Live]
    · exact live
  · exact Or.inr (choose_idle k.sched (asked k sp).tasks k.current k.ticks
      fun id ready => any ⟨id, ready⟩)

theorem schedule_memory {k : Kernel} (sp : Word) (on : k.enabled = true) :
    (schedule k sp).2.memory = k.memory ∨
      (k.tasks (chosen k sp)).addressSpace.isSome ∧ (k.tasks (chosen k sp)).pending ≠ 0 ∧
        ¬Fatal (k.tasks (chosen k sp)) ∧ ∃ frame, frame =
          (if chosen k sp = k.current then sp else (k.tasks (chosen k sp)).stackPointer) ∧
        readFrame (k.memory.view (rootFor k (chosen k sp))) frame frameCs &&& 3 = 3 ∧
        ∃ signal handler restorer, (schedule k sp).2.memory =
          k.memory.store (rootFor k (chosen k sp))
            (enterHandler (k.memory.view (rootFor k (chosen k sp))) frame signal handler
              restorer) := by
  obtain ⟨switches, switched⟩ := switchTo_eq (asked k sp) (chosen k sp)
  obtain ⟨state, saved⟩ := saveCurrent_task k sp (chosen k sp)
  have root : rootFor (asked k sp) (chosen k sp) = rootFor k (chosen k sp) := by
    unfold rootFor
    rw [asked_spaceOf]
    rfl
  have memory : (switchTo (asked k sp) (chosen k sp)).memory = k.memory := by rw [switched]; rfl
  have active : (switchTo (asked k sp) (chosen k sp)).activeRoot = rootFor k (chosen k sp) := by
    rw [switched, ← root]
  have task : (switchTo (asked k sp) (chosen k sp)).tasks (chosen k sp) =
      { k.tasks (chosen k sp) with
        state := state
        switches := switches
        stackPointer := if chosen k sp = k.current then sp
          else (k.tasks (chosen k sp)).stackPointer } := by
    rw [switched]
    simp only [Kernel.setTask, Function.update_self]
    rw [show (asked k sp).tasks (chosen k sp) = (saveCurrent k sp).tasks (chosen k sp) from rfl, saved]
  have result : (schedule k sp).2.memory =
      (deliverTo (switchTo (asked k sp) (chosen k sp)) (chosen k sp)).2.memory := by
    unfold schedule resume
    rw [if_neg (by simp [on])]
    cases outcome : deliverTo (switchTo (asked k sp) (chosen k sp)) (chosen k sp) with
    | mk dead k' =>
        cases dead with
        | true => simp only [killed, handOver_eq]; rfl
        | false => rfl
  rw [result]
  unfold deliverTo
  by_cases signalled : ((switchTo (asked k sp) (chosen k sp)).tasks (chosen k sp)).addressSpace.isSome ∧
      ((switchTo (asked k sp) (chosen k sp)).tasks (chosen k sp)).pending ≠ 0
  · rw [if_pos signalled]
    rcases deliver_memory (switchTo (asked k sp) (chosen k sp)) (chosen k sp)
      ((switchTo (asked k sp) (chosen k sp)).tasks (chosen k sp)).stackPointer with
      same | ⟨pending, ring, spared, signal, handler, restorer, eq⟩
    · exact Or.inl (same.trans memory)
    · have view : (switchTo (asked k sp) (chosen k sp)).view =
          k.memory.view (rootFor k (chosen k sp)) := by simp only [Kernel.view, memory, active]
      rw [task] at signalled pending spared
      rw [task, view] at ring
      have spared' : ¬Fatal (k.tasks (chosen k sp)) := by simpa only [Fatal] using spared
      refine Or.inr ⟨signalled.1, pending, spared', _, rfl, ring, signal, handler, restorer, ?_⟩
      rw [eq, view, memory, active, task]
  · rw [if_neg signalled]
    exact Or.inl memory

/-- The shell waits for task 1, which runs in its own space at `0x2000` and has
an interrupt pending that it does not handle. -/
def interruptedKernel : Kernel where
  tasks id :=
    if id = 0 then
      { empty with state := .blocked (.channel 1), stackPointer := 0x444444448000 }
    else if id = 1 then
      { empty with
        state := .ready
        stackPointer := 0x44444445ff60
        addressSpace := some (rootAt 0x2000)
        parent := some 0
        kernelStackTop := 0x444444460000
        pending := 4 }
    else empty
  current := 1
  enabled := true
  ticks := 7
  activeRoot := rootAt 0x2000
  kernelRoot := rootAt 0x1000
  rsp0 := 0x444444460000
  sched := FiveAM.Sched.Mechanism.new
  pipes _ := Pipe.empty
  orphans := []
  memory := ⟨fun a => if a = 0x44444445ffe0 then 0x33 else 0, fun _ _ => 0⟩

/-- A signal death inside `schedule` leaves the shell in the dead task's tables. -/
theorem schedule_incoherent_after_kill :
    interruptedKernel.enabled = true ∧
      interruptedKernel.activeRoot = interruptedKernel.spaceOf interruptedKernel.current ∧
      ¬Coherent (schedule interruptedKernel 0x44444445ff60).1
        (schedule interruptedKernel 0x44444445ff60).2 := by
  refine ⟨rfl, by decide, fun coherent => ?_⟩
  have astray : (schedule interruptedKernel 0x44444445ff60).2.activeRoot ≠
      (schedule interruptedKernel 0x44444445ff60).2.spaceOf
        (schedule interruptedKernel 0x44444445ff60).2.current := by decide +kernel
  exact astray coherent.space

/-- The same kernel with the interrupt taken back. -/
def quietKernel : Kernel :=
  interruptedKernel.setTask 1 { interruptedKernel.tasks 1 with pending := 0 }

theorem schedule_coherent_quiet :
    quietKernel.enabled = true ∧ Coherent (schedule quietKernel 0x44444445ff60).1
      (schedule quietKernel 0x44444445ff60).2 := by
  refine ⟨rfl, (schedule_coherent_iff 0x44444445ff60 rfl (by decide)).mpr ⟨?_, ?_⟩⟩
  · exact fun _ _ _ => by decide
  · exact fun dies => absurd dies.2.1 (by decide +kernel)

end FiveAM.Process.Schedule
