/- GID: FiveAM/Process/Machine
   source: kernel/src/task.rs, kernel/src/pipe.rs, kernel/src/memory.rs, kernel/src/gdt.rs
   digest: Kernel statics and the processor state that follows the running task. -/

import FiveAM.Process.TaskTable
import FiveAM.Lib.ByteMemory
import FiveAM.Sched.Mechanism

set_option autoImplicit false
set_option relaxedAutoImplicit false

namespace FiveAM.Process.Machine

open FiveAM.Process.TaskTable FiveAM.Lib.ByteMemory
open FiveAM.Sched.Mechanism (Scheduler)

/-- `USER_SPACE_END`: below it every address space has its own memory, above it
they all share the kernel's. -/
def userSpaceEnd : Nat := 2 ^ 39

def Canonical (address : Word) : Prop :=
  address.toNat < 2 ^ 47 ∨ 2 ^ 64 - 2 ^ 47 ≤ address.toNat

instance (address : Word) : Decidable (Canonical address) := inferInstanceAs (Decidable (_ ∨ _))

def kernelCode : Word := 0x08
def userData : Word := 0x2b
def userCode : Word := 0x33

/-- `CAPACITY`, the bytes a pipe holds. -/
abbrev capacity : Nat := 512

structure Pipe where
  buffer : Fin capacity → BitVec 8
  head : Fin capacity
  tail : Fin capacity
  len : Nat
  readers : Nat
  writers : Nat
  used : Bool

def Pipe.empty : Pipe := ⟨fun _ => 0, 0, 0, 0, 0, 0, false⟩

/-- Memory as virtual addresses see it: one kernel half, and a user half for
each address space. -/
structure Memory where
  kernel : Bytes
  user : Root → Bytes

namespace Memory

/-- What the processor reads with `root` in CR3. -/
def view (mem : Memory) (root : Root) : Bytes := fun a =>
  if a < userSpaceEnd then mem.user root a else mem.kernel a

/-- Memory after the bytes seen through `root` have become `m`. -/
def store (mem : Memory) (root : Root) (m : Bytes) : Memory where
  kernel a := if a < userSpaceEnd then mem.kernel a else m a
  user := Function.update mem.user root fun a =>
    if a < userSpaceEnd then m a else mem.user root a

@[simp] theorem view_store (mem : Memory) (root : Root) (m : Bytes) :
    (mem.store root m).view root = m := by
  funext a
  simp only [view, store, Function.update_self]
  split_ifs <;> rfl

@[simp] theorem store_view (mem : Memory) (root : Root) :
    mem.store root (mem.view root) = mem := by
  cases mem with
  | mk kernel user =>
      simp only [store, view, mk.injEq]
      constructor
      · funext a
        split_ifs <;> rfl
      · refine Function.update_eq_self_iff.mpr (funext fun a => ?_)
        split_ifs <;> rfl

theorem view_kernel {mem : Memory} {root : Root} {a : Nat} (high : userSpaceEnd ≤ a) :
    mem.view root a = mem.kernel a := by
  unfold view
  rw [if_neg (Nat.not_lt.mpr high)]

theorem store_kernel {mem : Memory} {root : Root} {m : Bytes} {a : Nat}
    (high : userSpaceEnd ≤ a) : (mem.store root m).kernel a = m a := by
  unfold store
  simp only
  rw [if_neg (Nat.not_lt.mpr high)]

end Memory

/-- The kernel's statics together with CR3, `TSS.RSP0` and the memory. -/
structure Kernel where
  tasks : Tasks
  current : TaskId
  enabled : Bool
  ticks : Nat
  activeRoot : Root
  kernelRoot : Root
  rsp0 : Word
  sched : Scheduler
  pipes : PipeId → Pipe
  orphans : List Root
  memory : Memory

namespace Kernel

def setTask (k : Kernel) (id : TaskId) (task : Task) : Kernel :=
  { k with tasks := Function.update k.tasks id task }

def view (k : Kernel) : Bytes := k.memory.view k.activeRoot

def storeView (k : Kernel) (m : Bytes) : Kernel :=
  { k with memory := k.memory.store k.activeRoot m }

@[simp] theorem storeView_view (k : Kernel) : k.storeView k.view = k := by
  unfold storeView view
  rw [Memory.store_view]

/-- The root a task runs in: its own, or the kernel's. -/
def spaceOf (k : Kernel) (id : TaskId) : Root := (k.tasks id).addressSpace.getD k.kernelRoot

/-- Make every task waiting on `channel` runnable again. -/
def wakeAll (k : Kernel) (channel : Word) : Kernel :=
  { k with tasks := fun id =>
      if (k.tasks id).state = .blocked (.channel channel) then
        { k.tasks id with state := .ready }
      else k.tasks id }

def completion (id : TaskId) : Word := BitVec.ofNat 64 id.val

end Kernel

/-- The twenty words both entry paths save: fifteen registers from r15 to rax,
then RIP, CS, RFLAGS, RSP and SS. -/
abbrev frameWords : Nat := 20
abbrev Frame := Fin frameWords → Word

def frameRdi : Fin frameWords := 8
def frameRsi : Fin frameWords := 9
def frameRdx : Fin frameWords := 12
def frameRax : Fin frameWords := 14
def frameRip : Fin frameWords := 15
def frameCs : Fin frameWords := 16
def frameFlags : Fin frameWords := 17
def frameRsp : Fin frameWords := 18
def frameSs : Fin frameWords := 19

/-- The address of the `i`-th word above `a`. -/
def slot (a : Word) (i : Nat) : Nat := (a + BitVec.ofNat 64 (8 * i)).toNat

theorem slot_eq {a : Word} {i : Nat} (room : a.toNat + 8 * i < 2 ^ 64) :
    slot a i = a.toNat + 8 * i := by
  unfold slot
  rw [BitVec.toNat_add, BitVec.toNat_ofNat, Nat.mod_eq_of_lt (a := 8 * i) (by omega),
    Nat.mod_eq_of_lt room]

def readFrame (m : Bytes) (a : Word) : Frame := fun i => readWord m (slot a i)

/-- Store the twenty words of `f` from `a` up, one after the other. -/
def writeFrame (m : Bytes) (a : Word) (f : Frame) : Bytes :=
  (List.finRange frameWords).foldl (fun m (i : Fin frameWords) => writeWord m (slot a i) (f i)) m

end FiveAM.Process.Machine
