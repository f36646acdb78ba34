/- GID: FiveAM/Process/Lifecycle
   source: kernel/src/task.rs
   digest: How tasks come to be, wait, and leave the table. -/

import FiveAM.Process.Pipes
import FiveAM.Process.Signals

set_option autoImplicit false
set_option relaxedAutoImplicit false

namespace FiveAM.Process.Lifecycle

open FiveAM.Process.TaskTable FiveAM.Process.Machine FiveAM.Process.Pipes FiveAM.Process.Signals
open FiveAM.Lib.ByteMemory FiveAM.Sched.Mechanism

/-- The top of a kernel stack allocated at `stack`, sixteen-byte aligned. -/
def topOf (stack : Word) : Word := (stack + BitVec.ofNat 64 stackSize) &&& ~~~(0xF : Word)

/-- Where a frame that fills the top of a kernel stack begins. -/
def frameAt (top : Word) : Word := top - BitVec.ofNat 64 (frameWords * 8)

/-- A fresh heap allocation of `size` zero bytes. -/
def zeroFill (m : Bytes) (start size : Nat) : Bytes := fun x =>
  if start ≤ x ∧ x < start + size then 0 else m x

/-- What `build_frame` lays out for a task that starts at `entry` in ring 0. -/
def kernelFrame (top entry : Word) : Frame := fun i =>
  if i = frameRip then entry
  else if i = frameCs then kernelCode
  else if i = frameFlags then 0x202
  else if i = frameRsp then top - 8
  else 0

/-- What `build_user_frame` and `exec` lay out for a program that starts at
`entry` in ring 3. -/
def userFrame (entry userStack argc argv : Word) : Frame := fun i =>
  if i = frameRdi then argc
  else if i = frameRsi then argv
  else if i = frameRip then entry
  else if i = frameCs then userCode
  else if i = frameFlags then 0x202
  else if i = frameRsp then userStack
  else if i = frameSs then userData
  else 0

def freeSlot (tasks : Tasks) : Option TaskId :=
  ((List.finRange maxTasks).drop 1).find? fun id => decide ((tasks id).state = .free)

def created (k : Kernel) (id : TaskId) : Kernel := { k with sched := taskCreated k.sched id }

def exited (k : Kernel) (id : TaskId) : Kernel := { k with sched := taskExited k.sched id }

/-- The entry `spawn_with_priority` fills for a kernel task. -/
def kernelTask (task : Task) (stack : Word) (priority : Fin 256) : Task :=
  { task with
    state := .ready
    stackPointer := frameAt (topOf stack)
    kernelStackTop := topOf stack
    addressSpace := none
    parent := none
    stack := some stack
    switches := 0
    priority := min priority maxPriority }

/-- Create a kernel task that runs `entry` on the stack allocated at `stack`. -/
def spawnWithPriority (k : Kernel) (stack entry : Word) (priority : Fin 256) :
    Option TaskId × Kernel :=
  match freeSlot k.tasks with
  | none => (none, k)
  | some id =>
      let m := zeroFill k.view stack.toNat stackSize
      let k := k.storeView
        (writeFrame m (frameAt (topOf stack)) (kernelFrame (topOf stack) entry))
      let k := k.setTask id (kernelTask (k.tasks id) stack priority)
      (some id, created k id)

/-- The three descriptors a program starts with. -/
def consoleFiles : Fin maxFiles → Descriptor := fun fd => if fd.val < 3 then .console else .free

/-- The entry `spawn_user` fills for a program. -/
def programTask (task : Task) (stack : Word) (root : Root) (parent : Option TaskId) : Task :=
  { task with
    state := .ready
    stackPointer := frameAt (topOf stack)
    kernelStackTop := topOf stack
    addressSpace := some root
    parent := parent
    switches := 0
    priority := defaultPriority
    exitCode := 0
    stack := some stack
    files := consoleFiles }

/-- Create a task that runs a program in ring 3. -/
def spawnUser (k : Kernel) (stack entry userStack : Word) (root : Root) (parent : Option TaskId)
    (argc argv : Word) : Option TaskId × Kernel :=
  match freeSlot k.tasks with
  | none => (none, k)
  | some id =>
      let m := zeroFill k.view stack.toNat stackSize
      let k := k.storeView
        (writeFrame m (frameAt (topOf stack)) (userFrame entry userStack argc argv))
      let k := k.setTask id (programTask (k.tasks id) stack root parent)
      (some id, created k id)

/-- The child's frame: the parent's, with zero in RAX. -/
def childFrame (m : Bytes) (sp frame : Word) : Bytes :=
  writeWord (copyFrame m sp frame) (slot sp frameRax) 0

/-- The entry `fork_from` fills for a child of `of`. -/
def childTask (task of : Task) (parent : TaskId) (root : Root) (stack : Word) : Task :=
  { task with
    state := .ready
    stackPointer := frameAt (topOf stack)
    kernelStackTop := topOf stack
    addressSpace := some root
    parent := some parent
    switches := 0
    priority := of.priority
    exitCode := 0
    files := of.files
    handlers := of.handlers
    restorer := of.restorer
    pending := 0
    stackTop := of.stackTop
    stackLimit := of.stackLimit
    stackFaults := 0
    stack := some stack }

/-- Copy a running task's trap frame onto a new task's stack. -/
def forkFrom (k : Kernel) (parent : TaskId) (root : Root) (stack frame : Word) :
    Option TaskId × Kernel :=
  match freeSlot k.tasks with
  | none => (none, k)
  | some id =>
      let m := zeroFill k.view stack.toNat stackSize
      let k := k.storeView (childFrame m (frameAt (topOf stack)) frame)
      let k := k.setTask id (childTask (k.tasks id) (k.tasks parent) parent root stack)
      let k := (List.ofFn (k.tasks id).files).foldl shareDescriptor k
      (some id, created k id)

theorem freeSlot_some {tasks : Tasks} {id : TaskId} (found : freeSlot tasks = some id) :
    (tasks id).state = .free := by
  simpa using List.find?_some found

def emptySlot (k : Kernel) (id : TaskId) : Kernel := exited (k.setTask id empty) id

/-- `wait_any_child` has something to wait for. -/
def hasChild (tasks : Tasks) (parent : TaskId) : Bool :=
  (List.finRange maxTasks).any fun id =>
    decide ((tasks id).parent = some parent ∧ (tasks id).state ≠ .free ∧ id ≠ parent)

/-- Collect a finished child if there is one: its code, and its slot emptied. -/
def collect (k : Kernel) (parent : TaskId) : Option Word × Kernel :=
  match (List.finRange maxTasks).find? fun id =>
    decide ((k.tasks id).parent = some parent ∧ (k.tasks id).state = .finished) with
  | none => (none, k)
  | some id =>
      let orphans := match (k.tasks id).addressSpace with
        | some root => k.orphans ++ [root]
        | none => k.orphans
      (some (k.tasks id).exitCode, emptySlot { k with orphans := orphans } id)

/-- The child `wait_any_child` sleeps for. -/
def firstChild (tasks : Tasks) (parent : TaskId) : Option TaskId :=
  (List.finRange maxTasks).find? fun id =>
    decide ((tasks id).parent = some parent ∧ (tasks id).state ≠ .free)

def park (k : Kernel) (channel : Word) : Kernel :=
  k.setTask k.current { k.tasks k.current with state := .blocked (.channel channel) }

inductive Waiting (α : Type) where
  | done (value : α)
  | parked

/-- `wait_any_child`, up to its answer or to where it blocks. -/
def waitAnyChild (k : Kernel) (parent : TaskId) : Waiting (Option Word) × Kernel :=
  if hasChild k.tasks parent = false then (.done none, k)
  else
    match collect k parent with
    | (some code, k) => (.done (some code), k)
    | (none, k) =>
        match firstChild k.tasks parent with
        | none => (.done none, k)
        | some child => (.parked, park k (Kernel.completion child))

/-- How `wait_any_child` can go: nothing to wait for, a finished child collected,
or asleep until one finishes. -/
inductive WaitAny (k : Kernel) (parent : TaskId) : Waiting (Option Word) × Kernel → Prop
  | nothing : WaitAny k parent (.done none, k)
  | collected {id : TaskId} (child : (k.tasks id).parent = some parent)
      (ceased : (k.tasks id).state = .finished) (orphans : List Root) :
      WaitAny k parent (.done (some (k.tasks id).exitCode),
        emptySlot { k with orphans := orphans } id)
  | asleep {child : TaskId} (parent' : (k.tasks child).parent = some parent) :
      WaitAny k parent (.parked, park k (Kernel.completion child))

theorem waitAnyChild_cases (k : Kernel) (parent : TaskId) :
    WaitAny k parent (waitAnyChild k parent) := by
  unfold waitAnyChild
  split_ifs
  · exact .nothing
  · cases found : (List.finRange maxTasks).find? fun id =>
      decide ((k.tasks id).parent = some parent ∧ (k.tasks id).state = .finished) with
    | some id =>
        have ceased := List.find?_some found
        simp only [decide_eq_true_eq] at ceased
        simp only [collect, found]
        exact .collected ceased.1 ceased.2 _
    | none =>
        simp only [collect, found]
        cases first : firstChild k.tasks parent with
        | none => exact .nothing
        | some child =>
            have waits := List.find?_some first
            simp only [decide_eq_true_eq] at waits
            exact .asleep waits.1

def reapFinished (k : Kernel) : Kernel :=
  ((List.finRange maxTasks).drop 1).foldl
    (fun k id => if (k.tasks id).state = .finished then emptySlot k id else k) k

/-- Take an address space out of a slot that no longer runs. -/
def takeSpace (k : Kernel) (id : TaskId) : Kernel :=
  if (k.tasks id).state = .finished ∨ (k.tasks id).state = .free then
    match (k.tasks id).addressSpace with
    | some root =>
        { k.setTask id { k.tasks id with addressSpace := none } with
          orphans := k.orphans ++ [root] }
    | none => k
  else k

/-- Every address space left over by a finished task, taken out of the table. -/
def orphanAddressSpaces (k : Kernel) : List Root × Kernel :=
  let k := (List.finRange maxTasks).foldl takeSpace k
  (k.orphans, { k with orphans := [] })

/-- The end of `task_entry`. -/
def endTask (k : Kernel) (id : TaskId) : Kernel :=
  (k.setTask id { k.tasks id with exitCode := 0, state := .finished }).wakeAll
    (Kernel.completion id)

/-- Block the current task for a number of ticks. -/
def sleep (k : Kernel) (ticks : Nat) : Kernel :=
  k.setTask k.current { k.tasks k.current with
    state := .blocked (.untilTick (k.ticks + ticks)) }

/-- The youngest live user task, the one a Ctrl-C goes to. -/
def foregroundUserTask (tasks : Tasks) : Option TaskId :=
  ((List.finRange maxTasks).drop 1).reverse.find? fun id =>
    decide ((tasks id).addressSpace.isSome ∧ (tasks id).state.Live)

def setAddressSpace (k : Kernel) (id : TaskId) (root : Root) : Kernel :=
  k.setTask id { k.tasks id with addressSpace := some root }

def setStackRegion (k : Kernel) (id : TaskId) (top limit : Word) : Kernel :=
  k.setTask id { k.tasks id with stackTop := top, stackLimit := limit, stackFaults := 0 }

def noteStackFault (k : Kernel) (id : TaskId) : Kernel :=
  k.setTask id { k.tasks id with stackFaults := (k.tasks id).stackFaults + 1 }

end FiveAM.Process.Lifecycle
