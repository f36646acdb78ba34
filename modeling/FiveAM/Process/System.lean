/- GID: FiveAM/Process/System
   source: kernel/src/task.rs, kernel/src/syscall.rs, kernel/src/interrupts.rs, kernel/src/user.rs
   digest: The kernel as a transition system: programs, system calls, ticks and kernel tasks. -/

import FiveAM.Process.Syscalls
import FiveAM.Process.Schedule
import FiveAM.Heap.HoleList
import FiveAM.Lib.Runs

set_option autoImplicit false
set_option relaxedAutoImplicit false

namespace FiveAM.Process.System

open FiveAM.Process.TaskTable FiveAM.Process.Machine FiveAM.Process.Pipes FiveAM.Process.Signals
open FiveAM.Process.Lifecycle FiveAM.Process.Syscalls FiveAM.Process.Schedule
open FiveAM.Lib.ByteMemory FiveAM.Lib.Runs FiveAM.Sched.Mechanism

inductive Stage where
  /-- A kernel task, or an empty slot. -/
  | kernel
  /-- Ring 3, running or interrupted there. -/
  | program
  /-- Inside `dispatch`, with the trap frame at `context`. -/
  | calling (context : Word) (written : Nat)
  /-- `handle` has answered; `dispatch` has yet to deliver signals and return. -/
  | returning (context : Word) (result : Word)
  /-- Finished inside a system call: it yields for ever. -/
  | gone
  deriving DecidableEq

/-- The kernel, where every task's code stands, and the registers of the program
that is running, if one is. -/
structure Machine where
  kernel : Kernel
  stage : TaskId → Stage
  registers : Frame

def Machine.current (s : Machine) : TaskId := s.kernel.current

/-- Ring 3 cannot change these: CS, SS, IF and IOPL. -/
def SamePrivilege (f g : Frame) : Prop :=
  f frameCs = g frameCs ∧ f frameSs = g frameSs ∧ f frameFlags &&& 0x3200 = g frameFlags &&& 0x3200

instance (f g : Frame) : Decidable (SamePrivilege f g) :=
  inferInstanceAs (Decidable (_ ∧ _ ∧ _))

/-- The bytes from `a` to `a + n` are not on the kernel stack of `task`. -/
def OffStack (task : Task) (a n : Nat) : Prop :=
  match task.stack with
  | none => True
  | some base => a + n ≤ base.toNat ∨ base.toNat + stackSize ≤ a

instance (task : Task) (a n : Nat) : Decidable (OffStack task a n) := by
  unfold OffStack
  split <;> infer_instance

/-- The bytes from `a` to `a + n` belong to no kernel stack. -/
def OffStacks (k : Kernel) (a n : Nat) : Prop := ∀ id, OffStack (k.tasks id) a n

instance (k : Kernel) (a n : Nat) : Decidable (OffStacks k a n) :=
  inferInstanceAs (Decidable (∀ id, OffStack (k.tasks id) a n))

/-- What the heap can answer when asked for a kernel stack: a block of its own,
apart from every stack still held. -/
def FreshStack (k : Kernel) (stack : Word) : Prop :=
  Heap.HoleList.heapStart ≤ stack.toNat ∧
    stack.toNat + stackSize ≤ Heap.HoleList.heapStart + Heap.HoleList.heapSize ∧
    OffStacks k stack.toNat stackSize

instance (k : Kernel) (stack : Word) : Decidable (FreshStack k stack) :=
  inferInstanceAs (Decidable (_ ∧ _ ∧ _))

/-- Where an interrupt taken in ring 0 can push its frame: on the stack the
current task is standing on, below the trap frame a program came in with. The
shell stands on the boot stack. -/
def OnOwnStack (k : Kernel) (a : Word) : Prop :=
  match (k.tasks k.current).stack with
  | none => userSpaceEnd ≤ a.toNat ∧ a.toNat + frameWords * 8 ≤ 2 ^ 64 ∧
      OffStacks k a.toNat (frameWords * 8)
  | some base => base.toNat ≤ a.toNat ∧
      a.toNat + frameWords * 8 + (if (k.tasks k.current).addressSpace.isSome then frameWords * 8
        else 0) ≤ (k.tasks k.current).kernelStackTop.toNat

instance (k : Kernel) (a : Word) : Decidable (OnOwnStack k a) := by
  unfold OnOwnStack
  split <;> infer_instance

inductive Event where
  /-- The program computes: any registers and any memory of its own. -/
  | compute (registers : Frame) (memory : Bytes)
  /-- `int 0x80`. -/
  | call
  /-- `handle` runs, to its answer or to where it blocks. -/
  | serve (env : Surroundings)
  /-- The rest of `dispatch`, and the return to ring 3. -/
  | leave
  /-- The timer interrupts a program. -/
  | tick
  /-- The timer interrupts ring 0 with its registers `saved`, pushed at `nested`. -/
  | tickInside (nested : Word) (saved : Frame)
  /-- Ctrl-C on the serial line. -/
  | interrupt
  /-- `wake_all`, by a device or a kernel task. -/
  | wake (channel : Word)
  /-- A stack page was faulted in. -/
  | grow
  /-- What kernel tasks do: block, sleep, end, and install a policy. -/
  | block (channel : Word)
  | sleep (ticks : Nat)
  | endTask
  | install (index : Nat)
  | spawn (stack entry : Word) (priority : Fin 256)
  /-- The shell starts a program, waits for it and cleans up. -/
  | run (stack : Word) (image : Image)
  | wait
  | reap
  | reclaim

def pushFrame (k : Kernel) (a : Word) (f : Frame) : Kernel :=
  k.storeView (writeFrame k.view a f)

/-- The kernel when the timer's entry has saved `f` at `a` and counted the tick. -/
def trapped (s : Machine) (a : Word) (f : Frame) : Kernel :=
  pushFrame { s.kernel with ticks := s.kernel.ticks + 1 } a f

/-- The timer's path from the pushed frame at `a` to the return. -/
def timer (s : Machine) (a : Word) (f : Frame) : Machine :=
  let (sp, k) := schedule (trapped s a f) a
  { s with
    kernel := k
    registers := if s.stage k.current = .program then readFrame k.view sp else s.registers }

def after (context : Word) : Outcome → Stage
  | .answers result => .returning context result
  | .blocks written => .calling context written
  | .ends => .gone

/-- Change where the current task's code stands. -/
def moveTo (s : Machine) (k : Kernel) (stage : Stage) : Machine :=
  { s with kernel := k, stage := Function.update s.stage s.current stage }

/-- A slot that was free and no longer is holds a task whose code stands at
`stage`. -/
def enroll (s : Machine) (k : Kernel) (stage : Stage) : Machine :=
  { s with
    kernel := k
    stage := fun id =>
      if (s.kernel.tasks id).state = .free ∧ (k.tasks id).state ≠ .free then stage
      else s.stage id }

/-- The call whose registers were saved at `context`. -/
def handleAt (k : Kernel) (env : Surroundings) (context : Word) (written : Nat) :
    Outcome × Kernel :=
  let frame := readFrame k.view context
  handle k env written (frame frameRax) (frame frameRdi) (frame frameRsi) (frame frameRdx) context

/-- A call is served; the child of a `fork` starts in ring 3. -/
def serve (s : Machine) (env : Surroundings) (context : Word) (written : Nat) : Machine :=
  let result := handleAt s.kernel env context written
  { s with
    kernel := result.2
    stage := Function.update (enroll s result.2 .program).stage s.current
      (after context result.1) }

/-- Deliver on the way back to ring 3, store the result and return. -/
def leave (s : Machine) (context result : Word) : Machine :=
  let k := s.kernel
  let (dead, k) :=
    if (k.tasks k.current).pending ≠ 0 then deliver k k.current context else (false, k)
  if dead then moveTo s (finish k k.current 128) .gone
  else
    let k := k.storeView (writeWord k.view (slot context frameRax) result)
    { moveTo s k .program with registers := readFrame k.view context }

/-- The current task is a kernel task that has not ended. -/
def InKernelTask (s : Machine) : Prop :=
  s.stage s.current = .kernel ∧ (s.kernel.tasks s.current).state ≠ .finished

instance (s : Machine) : Decidable (InKernelTask s) := inferInstanceAs (Decidable (_ ∧ _))

def InProgram (s : Machine) : Prop :=
  s.stage s.current = .program ∧ s.registers frameCs &&& 3 = 3

instance (s : Machine) : Decidable (InProgram s) := inferInstanceAs (Decidable (_ ∧ _))

def withKernel (s : Machine) (k : Kernel) : Machine := { s with kernel := k }

/-- One event; `none` where it cannot happen. -/
def step (s : Machine) : Event → Option Machine
  | .compute registers memory =>
      if InProgram s ∧ SamePrivilege registers s.registers then
        some { s with
          kernel := withUserMemory s.kernel s.kernel.activeRoot memory
          registers := registers }
      else none
  | .call =>
      if InProgram s then
        let context := frameAt s.kernel.rsp0
        some (moveTo s (pushFrame s.kernel context s.registers) (.calling context 0))
      else none
  | .serve env =>
      match s.stage s.current with
      | .calling context written =>
          if env.space.isSome → FreshStack s.kernel env.stack then
            some (serve s env context written)
          else none
      | _ => none
  | .leave =>
      match s.stage s.current with
      | .returning context result => some (leave s context result)
      | _ => none
  | .tick =>
      if InProgram s then some (timer s (frameAt s.kernel.rsp0) s.registers) else none
  | .tickInside nested saved =>
      if s.stage s.current ≠ .program ∧ saved frameCs = kernelCode ∧ OnOwnStack s.kernel nested then
        some (timer s nested saved)
      else none
  | .interrupt =>
      match foregroundUserTask s.kernel.tasks with
      | some id => some (withKernel s (signal s.kernel id sigint).2)
      | none => none
  | .wake channel => some (withKernel s (s.kernel.wakeAll channel))
  | .grow => some (withKernel s (noteStackFault s.kernel s.current))
  | .block channel =>
      if InKernelTask s then some (withKernel s (park s.kernel channel)) else none
  | .sleep ticks =>
      if InKernelTask s then some (withKernel s (sleep s.kernel ticks)) else none
  | .endTask =>
      if InKernelTask s ∧ s.current ≠ 0 then
        some (withKernel s (endTask s.kernel s.current))
      else none
  | .install index =>
      if InKernelTask s then
        some (withKernel s { s.kernel with sched := (install s.kernel.sched index
          ⟨s.kernel.tasks, s.current, s.kernel.ticks⟩).2 })
      else none
  | .spawn stack entry priority =>
      if InKernelTask s ∧ FreshStack s.kernel stack then
        some (enroll s (spawnWithPriority s.kernel stack entry priority).2 .kernel)
      else none
  | .run stack image =>
      if InKernelTask s ∧ FreshStack s.kernel stack then
        let k := withUserMemory s.kernel image.root image.memory
        some (enroll s (spawnUser k stack image.entry image.stack image.root (some 0) image.argc
          image.argv).2 .program)
      else none
  | .wait =>
      if InKernelTask s ∧ s.current = 0 then
        some (withKernel s (waitAnyChild s.kernel 0).2)
      else none
  | .reap =>
      if InKernelTask s ∧ s.current = 0 then some (withKernel s (reapFinished s.kernel)) else none
  | .reclaim =>
      if InKernelTask s ∧ s.current = 0 then
        some (withKernel s (orphanAddressSpaces s.kernel).2)
      else none

/-- Where a timer interrupt pushes its frame, and the words it pushes. -/
def timerFrame (s : Machine) : Event → Option (Word × Frame)
  | .tick => some (frameAt s.kernel.rsp0, s.registers)
  | .tickInside nested saved => some (nested, saved)
  | _ => none

/-- The processor can take a timer interrupt with its frame `f` at `a`: from ring
3 on the stack `RSP0` names, from ring 0 on the current task's own. -/
def Interrupts (s : Machine) (a : Word) (f : Frame) : Prop :=
  InProgram s ∧ a = frameAt s.kernel.rsp0 ∧ f = s.registers ∨
    s.stage s.current ≠ .program ∧ f frameCs = kernelCode ∧ OnOwnStack s.kernel a

theorem step_rule {P : Machine → Prop} {s s' : Machine} {e : Event} (taken : step s e = some s')
    (onCompute : ∀ registers memory, InProgram s → SamePrivilege registers s.registers →
      P { s with
        kernel := withUserMemory s.kernel s.kernel.activeRoot memory, registers := registers })
    (onCall : InProgram s → P (moveTo s (pushFrame s.kernel (frameAt s.kernel.rsp0) s.registers)
      (.calling (frameAt s.kernel.rsp0) 0)))
    (onServe : ∀ (env : Surroundings) context written, e = .serve env →
      s.stage s.current = .calling context written →
      (env.space.isSome → FreshStack s.kernel env.stack) → P (serve s env context written))
    (onLeave : ∀ context result, e = .leave → s.stage s.current = .returning context result →
      P (leave s context result))
    (onTimer : ∀ a f, timerFrame s e = some (a, f) → Interrupts s a f → P (timer s a f))
    (onInterrupt : ∀ id number, P (withKernel s (signal s.kernel id number).2))
    (onWake : ∀ channel, P (withKernel s (s.kernel.wakeAll channel)))
    (onGrow : P (withKernel s (noteStackFault s.kernel s.current)))
    (onBlock : ∀ channel, e = .block channel → InKernelTask s →
      P (withKernel s (park s.kernel channel)))
    (onSleep : ∀ ticks, InKernelTask s → P (withKernel s (sleep s.kernel ticks)))
    (onEnd : e = .endTask → InKernelTask s → s.current ≠ 0 →
      P (withKernel s (endTask s.kernel s.current)))
    (onInstall : ∀ sched, P (withKernel s { s.kernel with sched := sched }))
    (onSpawn : ∀ stack entry priority, e = .spawn stack entry priority → InKernelTask s →
      FreshStack s.kernel stack → P (enroll s (spawnWithPriority s.kernel stack entry priority).2 .kernel))
    (onRun : ∀ stack (image : Image), e = .run stack image → InKernelTask s →
      FreshStack s.kernel stack →
        P (enroll s (spawnUser (withUserMemory s.kernel image.root image.memory) stack image.entry
          image.stack image.root (some 0) image.argc image.argv).2 .program))
    (onWait : e = .wait → InKernelTask s → P (withKernel s (waitAnyChild s.kernel 0).2))
    (onReap : e = .reap → InKernelTask s → P (withKernel s (reapFinished s.kernel)))
    (onReclaim : e = .reclaim → InKernelTask s →
      P (withKernel s (orphanAddressSpaces s.kernel).2)) : P s' := by
  cases e with
  | serve env =>
      cases inside : s.stage s.current with
      | calling context written =>
          simp only [step, inside, Option.ite_none_right_eq_some, Option.some.injEq] at taken
          obtain ⟨fresh, rfl⟩ := taken
          exact onServe env context written rfl inside fresh
      | kernel => simp [step, inside] at taken
      | program => simp [step, inside] at taken
      | returning context result => simp [step, inside] at taken
      | gone => simp [step, inside] at taken
  | leave =>
      cases inside : s.stage s.current with
      | returning context result =>
          simp only [step, inside, Option.some.injEq] at taken
          exact taken ▸ onLeave context result rfl inside
      | kernel => simp [step, inside] at taken
      | program => simp [step, inside] at taken
      | calling context written => simp [step, inside] at taken
      | gone => simp [step, inside] at taken
  | interrupt =>
      simp only [step] at taken
      split at taken
      · exact Option.some.inj taken ▸ onInterrupt _ _
      · simp at taken
  | wake channel => exact Option.some.inj taken ▸ onWake channel
  | grow => exact Option.some.inj taken ▸ onGrow
  | compute registers memory =>
      simp only [step, Option.ite_none_right_eq_some, Option.some.injEq] at taken
      obtain ⟨⟨program, same⟩, rfl⟩ := taken
      exact onCompute registers memory program same
  | call =>
      simp only [step, Option.ite_none_right_eq_some, Option.some.injEq] at taken
      obtain ⟨program, rfl⟩ := taken
      exact onCall program
  | tick =>
      simp only [step, Option.ite_none_right_eq_some, Option.some.injEq] at taken
      obtain ⟨program, rfl⟩ := taken
      exact onTimer _ _ rfl (Or.inl ⟨program, rfl, rfl⟩)
  | tickInside nested saved =>
      simp only [step, Option.ite_none_right_eq_some, Option.some.injEq] at taken
      obtain ⟨inside, rfl⟩ := taken
      exact onTimer _ _ rfl (Or.inr inside)
  | block channel =>
      simp only [step, Option.ite_none_right_eq_some, Option.some.injEq] at taken
      obtain ⟨inside, rfl⟩ := taken
      exact onBlock channel rfl inside
  | sleep ticks =>
      simp only [step, Option.ite_none_right_eq_some, Option.some.injEq] at taken
      obtain ⟨inside, rfl⟩ := taken
      exact onSleep ticks inside
  | endTask =>
      simp only [step, Option.ite_none_right_eq_some, Option.some.injEq] at taken
      obtain ⟨⟨inside, other⟩, rfl⟩ := taken
      exact onEnd rfl inside other
  | install index =>
      simp only [step, Option.ite_none_right_eq_some, Option.some.injEq] at taken
      obtain ⟨-, rfl⟩ := taken
      exact onInstall _
  | spawn stack entry priority =>
      simp only [step, Option.ite_none_right_eq_some, Option.some.injEq] at taken
      obtain ⟨⟨inside, fresh⟩, rfl⟩ := taken
      exact onSpawn stack entry priority rfl inside fresh
  | run stack image =>
      simp only [step, Option.ite_none_right_eq_some, Option.some.injEq] at taken
      obtain ⟨⟨inside, fresh⟩, rfl⟩ := taken
      exact onRun stack image rfl inside fresh
  | wait =>
      simp only [step, Option.ite_none_right_eq_some, Option.some.injEq] at taken
      obtain ⟨⟨inside, -⟩, rfl⟩ := taken
      exact onWait rfl inside
  | reap =>
      simp only [step, Option.ite_none_right_eq_some, Option.some.injEq] at taken
      obtain ⟨⟨inside, -⟩, rfl⟩ := taken
      exact onReap rfl inside
  | reclaim =>
      simp only [step, Option.ite_none_right_eq_some, Option.some.injEq] at taken
      obtain ⟨⟨inside, -⟩, rfl⟩ := taken
      exact onReclaim rfl inside

/-- The machine when `task::init` has registered the shell. -/
def boot (memory : Memory) (root : Root) (rsp0 : Word) (ticks : Nat) : Machine where
  kernel :=
    { tasks := Function.update (fun _ => empty) 0
        { empty with state := .ready, priority := shellPriority }
      current := 0
      enabled := true
      ticks := ticks
      activeRoot := root
      kernelRoot := root
      rsp0 := rsp0
      sched := FiveAM.Sched.Mechanism.new
      pipes := fun _ => Pipe.empty
      orphans := []
      memory := memory }
  stage _ := .kernel
  registers _ := 0

def Booted (s : Machine) : Prop := ∃ memory root rsp0 ticks, s = boot memory root rsp0 ticks

section Scenario

def started : Machine :=
  boot ⟨fun _ => 0, fun _ _ => 0⟩ (rootAt 0x1000) 0x444444400000 0

/-- A program at `0x400000`, its stack below `0x110000`. -/
def program : Image :=
  ⟨rootAt 0x2000, fun _ => 0, 0x400000, 0x10ff00, 1, 0x10ff40⟩

/-- The shell starts the program and waits for it. -/
def launch : List Event := [.run 0x444444441000 program, .wait]

/-- The tick that hands the processor to the program. -/
def firstTick : Event :=
  .tickInside 0x500000000000 fun i => if i = frameCs then kernelCode else 0

/-- The program makes call `number` with `argument`, standing at `stack`, its
memory holding `memory`. -/
def callWith (number argument stack : Word) (memory : Bytes) : List Event :=
  [.compute (fun i => if i = frameRax then number else if i = frameRdi then argument
      else if i = frameRsp then stack else userFrame 0x400000 0x10ff00 1 0x10ff40 i) memory,
    .call, .serve ⟨lowHalf, none, 0, none, []⟩, .leave]

theorem launched_some : (runAll step started launch).isSome = true := by decide +kernel

end Scenario

end FiveAM.Process.System
