/- GID: FiveAM/Process/TaskTable
   source: kernel/src/task.rs, kernel/src/signal.rs, kernel/src/gdt.rs
   digest: The task table entry: states, descriptors, signals and saved context. -/

import Mathlib.Data.Fintype.Basic
import Mathlib.Data.BitVec

set_option autoImplicit false
set_option relaxedAutoImplicit false

namespace FiveAM.Process.TaskTable

abbrev Word := BitVec 64

abbrev maxTasks : Nat := 8
abbrev maxFiles : Nat := 8
abbrev maxPipes : Nat := 8
abbrev maxSignals : Nat := 16
def maxPriority : Fin 256 := 15
def defaultPriority : Fin 256 := 8
def shellPriority : Fin 256 := 0

/-- `STACK_SIZE`, the bytes of a task's kernel stack. -/
def stackSize : Nat := 64 * 1024

abbrev TaskId := Fin maxTasks
abbrev PipeId := Fin maxPipes

/-- The physical address of a level-4 table. Frame zero is what the frame
allocator calls "exhausted", so no table is there. -/
abbrev Root := {w : Word // w ≠ 0}

/-- A root by its number; zero is none, and read as the first page. -/
def rootAt (page : Word) : Root := if some' : page ≠ 0 then ⟨page, some'⟩ else ⟨0x1000, by decide⟩

/-- What the literals and the searches below rest on, by name. -/
instance neZeroMaxTasks : NeZero maxTasks := ⟨by decide⟩
instance neZero2 : NeZero (2 : Nat) := ⟨by decide⟩
instance neZero256 : NeZero (256 : Nat) := ⟨by decide⟩
instance neZero512 : NeZero (512 : Nat) := ⟨by decide⟩
instance lawfulBEqWord : LawfulBEq Word := inferInstance

/-- Why a task is not runnable, and therefore what will make it runnable again. -/
inductive Reason where
  | untilTick (deadline : Nat)
  | channel (number : Word)
  deriving DecidableEq

inductive State where
  | free
  | ready
  | blocked (reason : Reason)
  | finished
  deriving DecidableEq

/-- Neither `Free` nor `Finished`. -/
def State.Live (s : State) : Prop := s ≠ .free ∧ s ≠ .finished

instance (s : State) : Decidable s.Live :=
  inferInstanceAs (Decidable (s ≠ .free ∧ s ≠ .finished))

inductive Descriptor where
  | free
  | console
  | pipeRead (pipe : PipeId)
  | pipeWrite (pipe : PipeId)
  deriving DecidableEq

structure Task where
  state : State
  stackPointer : Word
  /-- `_stack`: the address of the allocation the task stands on. -/
  stack : Option Word
  switches : Nat
  priority : Fin 256
  exitCode : Word
  addressSpace : Option Root
  parent : Option TaskId
  kernelStackTop : Word
  files : Fin maxFiles → Descriptor
  pending : BitVec 32
  handlers : Fin maxSignals → Word
  restorer : Word
  stackTop : Word
  stackLimit : Word
  stackFaults : Nat

def empty : Task where
  state := .free
  stackPointer := 0
  stack := none
  switches := 0
  priority := defaultPriority
  exitCode := 0
  addressSpace := none
  parent := none
  kernelStackTop := 0
  files _ := .free
  pending := 0
  handlers _ := 0
  restorer := 0
  stackTop := 0
  stackLimit := 0
  stackFaults := 0

abbrev Tasks := TaskId → Task

/-- `(start + offset) % MAX_TASKS` for `offset` from one up: every slot, `start`
last. -/
def rotation (start : TaskId) : List TaskId :=
  (List.range maxTasks).map fun offset =>
    ⟨(start.val + (offset + 1)) % maxTasks, Nat.mod_lt _ (by decide)⟩

theorem mem_rotation (start id : TaskId) : id ∈ rotation start := by
  refine List.mem_map.mpr ⟨(id.val + maxTasks - start.val + maxTasks - 1) % maxTasks,
    List.mem_range.mpr (Nat.mod_lt _ (by decide)), Fin.ext ?_⟩
  have low := id.isLt
  have high := start.isLt
  simp only [maxTasks] at low high ⊢
  omega

end FiveAM.Process.TaskTable
