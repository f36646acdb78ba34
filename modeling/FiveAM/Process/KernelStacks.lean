/- GID: FiveAM/Process/KernelStacks
   source: kernel/src/task.rs, kernel/src/gdt.rs
   digest: The kernel stacks, and the frames on them that tasks are resumed through. -/

import FiveAM.Process.FrameMemory
import FiveAM.Process.TableShape

set_option autoImplicit false
set_option relaxedAutoImplicit false

namespace FiveAM.Process.KernelStacks

open FiveAM.Process.TaskTable FiveAM.Process.Machine FiveAM.Process.Pipes FiveAM.Process.Signals
open FiveAM.Process.Lifecycle FiveAM.Process.Syscalls FiveAM.Process.Schedule
open FiveAM.Process.System FiveAM.Process.Effects FiveAM.Process.TableShape
open FiveAM.Process.FrameMemory FiveAM.Lib.ByteMemory FiveAM.Heap.HoleList

/-- A frame that returns to ring 3 with the user's segments, interrupts on and
IOPL 0. -/
def UserReturn (f : Frame) : Prop :=
  f frameCs = userCode ∧ f frameSs = userData ∧ f frameFlags &&& 0x3200 = 0x200

instance (f : Frame) : Decidable (UserReturn f) := inferInstanceAs (Decidable (_ ∧ _ ∧ _))

theorem userReturn_userFrame (entry userStack argc argv : Word) :
    UserReturn (userFrame entry userStack argc argv) := by
  refine ⟨?_, ?_, ?_⟩
  · simp [userFrame, frameCs, frameRdi, frameRsi, frameRip]
  · simp [userFrame, frameSs, frameCs, frameRdi, frameRsi, frameRip, frameFlags, frameRsp]
  · have flags : userFrame entry userStack argc argv frameFlags = 0x202 := by
      simp [userFrame, frameCs, frameRdi, frameRsi, frameRip, frameFlags]
    rw [flags]
    rfl

namespace UserReturn

theorem update {f : Frame} (user : UserReturn f) {i : Fin frameWords} (v : Word)
    (cs : frameCs ≠ i) (flags : frameFlags ≠ i) (ss : frameSs ≠ i) :
    UserReturn (Function.update f i v) := by
  unfold UserReturn
  rw [Function.update_of_ne cs, Function.update_of_ne flags, Function.update_of_ne ss]
  exact user

theorem handler {f : Frame} (user : UserReturn f) (signal : Nat) (handler : Word) :
    UserReturn (handlerFrame f signal handler) :=
  ((user.update handler (by decide) (by decide) (by decide)).update _ (by decide) (by decide)
    (by decide)).update _ (by decide) (by decide) (by decide)

theorem ring {f : Frame} (user : UserReturn f) : f frameCs &&& 3 = 3 := by
  rw [user.1]
  rfl

theorem samePrivilege {f g : Frame} (user : UserReturn g) (same : SamePrivilege f g) :
    UserReturn f :=
  ⟨same.1.trans user.1, same.2.1.trans user.2.1, same.2.2.trans user.2.2⟩

end UserReturn

theorem kernelCode_ring : (kernelCode : Word) &&& 3 ≠ 3 := by decide

/-- A kernel stack the heap gave out, and its top. -/
structure Placed (task : Task) (base : Word) : Prop where
  stack : task.stack = some base
  top : task.kernelStackTop = topOf base
  low : heapStart ≤ base.toNat
  high : base.toNat + stackSize ≤ heapStart + heapSize

/-- A frame at `a` lies on the stack at `base`. -/
def OnStack (a base : Word) : Prop :=
  base.toNat ≤ a.toNat ∧ a.toNat + frameBytes ≤ base.toNat + stackSize

/-- Two memories hold the same stack at `base`. -/
def Agree (m m' : Bytes) (base : Word) : Prop :=
  ∀ x, base.toNat ≤ x → x < base.toNat + stackSize → m' x = m x

section Stacks

variable {task : Task} {base a : Word} (placed : Placed task base)

include placed

theorem Placed.bounds : userSpaceEnd ≤ base.toNat ∧ base.toNat + stackSize < 2 ^ 64 := by
  have low := placed.low
  have high := placed.high
  unfold heapStart heapSize at *
  unfold userSpaceEnd
  omega

theorem Placed.top_bounds : base.toNat + stackSize - 15 ≤ task.kernelStackTop.toNat ∧
    task.kernelStackTop.toNat ≤ base.toNat + stackSize := by
  rw [placed.top]
  exact topOf_bounds placed.bounds.2

theorem Placed.frame : (frameAt task.kernelStackTop).toNat + frameBytes = task.kernelStackTop.toNat := by
  have bounds := placed.top_bounds
  have bytes : frameBytes = 160 := rfl
  have room : frameBytes ≤ task.kernelStackTop.toNat := by
    unfold stackSize at bounds
    omega
  rw [frameAt_toNat room]
  omega

theorem Placed.onStack : OnStack (frameAt task.kernelStackTop) base := by
  have bounds := placed.top_bounds
  have frame := placed.frame
  have bytes : frameBytes = 160 := rfl
  unfold OnStack
  unfold stackSize at *
  omega

theorem Placed.top_ne_zero : task.kernelStackTop ≠ 0 := by
  intro zero
  have bounds := placed.top_bounds
  rw [zero] at bounds
  have none : (0 : Word).toNat = 0 := rfl
  unfold stackSize at bounds
  omega

theorem Placed.fits (on : OnStack a base) : Fits a ∧ userSpaceEnd ≤ a.toNat := by
  obtain ⟨low, high⟩ := placed.bounds
  unfold OnStack at on
  unfold Fits
  omega

theorem Placed.readFrame_agree {m m' : Bytes} (on : OnStack a base) (agree : Agree m m' base) :
    readFrame m' a = readFrame m a :=
  readFrame_congr (placed.fits on).1 fun x low high => agree x (by unfold OnStack at on; omega)
    (by unfold OnStack at on; omega)

end Stacks

/-- Every held stack is where the heap put it, no two overlap, programs have one,
and `RSP0` is the running task's. -/
structure Stacked (k : Kernel) : Prop where
  placed : ∀ id base, (k.tasks id).stack = some base → Placed (k.tasks id) base
  apart : ∀ id j base base', id ≠ j → (k.tasks id).stack = some base →
    (k.tasks j).stack = some base' →
      base.toNat + stackSize ≤ base'.toNat ∨ base'.toNat + stackSize ≤ base.toNat
  user : ∀ id, (k.tasks id).addressSpace.isSome = true → ∃ base, (k.tasks id).stack = some base
  rsp0 : (k.tasks k.current).kernelStackTop ≠ 0 → k.rsp0 = (k.tasks k.current).kernelStackTop

/-- The trap frame of a call in progress is at the top of its stack, and returns
to ring 3. -/
def TrapKept (m : Bytes) (st : Stage) (task : Task) : Prop :=
  match st with
  | .calling context _ => context = frameAt task.kernelStackTop ∧ UserReturn (readFrame m context)
  | .returning context _ => context = frameAt task.kernelStackTop ∧ UserReturn (readFrame m context)
  | .kernel => True
  | .program => True
  | .gone => True

def Nested (m : Bytes) (task : Task) : Prop :=
  (∃ base, task.stack = some base ∧ OnStack task.stackPointer base) ∧
    readFrame m task.stackPointer frameCs = kernelCode

/-- What the scheduler will resume a task through. -/
def Resumable (m : Bytes) (st : Stage) (task : Task) : Prop :=
  match st with
  | .kernel => True
  | .program => task.stackPointer = frameAt task.kernelStackTop ∧
      UserReturn (readFrame m task.stackPointer)
  | .calling _ _ => Nested m task
  | .returning _ _ => Nested m task
  | .gone => Nested m task

/-- The frames of one task; `parked` when it is not the one running. -/
structure Good (m : Bytes) (st : Stage) (task : Task) (parked : Prop) : Prop where
  kept : TrapKept m st task
  saved : parked → Resumable m st task

def Frames (k : Kernel) (stage : TaskId → Stage) : Prop :=
  ∀ id, (k.tasks id).state.Live →
    Good k.memory.kernel (stage id) (k.tasks id) (id ≠ k.current)

/-- The invariant: the stacks, the frames on them, and the registers of the
program that runs. -/
structure Guarded (s : Machine) : Prop where
  stacked : Stacked s.kernel
  frames : Frames s.kernel s.stage
  now : s.stage s.kernel.current = .program → UserReturn s.registers

theorem Good.kernel {m : Bytes} {task : Task} {parked : Prop} : Good m .kernel task parked :=
  ⟨trivial, fun _ => trivial⟩

section Carry

variable {m m' : Bytes} {st : Stage} {task task' : Task} {base : Word}

theorem TrapKept.carry (placed : Placed task base) (layout : SameLayout task task')
    (agree : Agree m m' base) (kept : TrapKept m st task) : TrapKept m' st task' := by
  have same : ∀ context, context = frameAt task.kernelStackTop ∧ UserReturn (readFrame m context) →
      context = frameAt task'.kernelStackTop ∧ UserReturn (readFrame m' context) := by
    rintro context ⟨rfl, user⟩
    rw [layout.top, placed.readFrame_agree placed.onStack agree]
    exact ⟨rfl, user⟩
  cases st with
  | calling context written => exact same context kept
  | returning context result => exact same context kept
  | kernel => trivial
  | program => trivial
  | gone => trivial

theorem Resumable.carry (placed : Placed task base) (layout : SameLayout task task')
    (agree : Agree m m' base) (saved : Resumable m st task) : Resumable m' st task' := by
  have nested : Nested m task → Nested m' task' := by
    rintro ⟨⟨base', held, on⟩, ring⟩
    obtain rfl := Option.some.inj (held.symm.trans placed.stack)
    unfold Nested
    rw [layout.stack, layout.pointer, placed.readFrame_agree on agree]
    exact ⟨⟨base', held, on⟩, ring⟩
  cases st with
  | kernel => trivial
  | program =>
      obtain ⟨pointer, user⟩ := saved
      simp only [Resumable, layout.top, layout.pointer]
      refine ⟨pointer, ?_⟩
      rw [pointer] at user ⊢
      rw [placed.readFrame_agree placed.onStack agree]
      exact user
  | calling context written => exact nested saved
  | returning context result => exact nested saved
  | gone => exact nested saved

theorem Good.carryOn {parked : Prop} (good : Good m st task parked) (placed : Placed task base)
    (layout : SameLayout task task') (agree : Agree m m' base) : Good m' st task' parked :=
  ⟨good.kept.carry placed layout agree, fun here => (good.saved here).carry placed layout agree⟩

end Carry

theorem Good.carry {k : Kernel} {stage : TaskId → Stage} {id : TaskId} {m' : Bytes} {task' : Task}
    {parked : Prop} (regular : Regular k stage) (stacked : Stacked k)
    (live : (k.tasks id).state.Live) (layout : SameLayout (k.tasks id) task')
    (agree : ∀ base, (k.tasks id).stack = some base → Agree k.memory.kernel m' base)
    (good : Good k.memory.kernel (stage id) (k.tasks id) parked) :
    Good m' (stage id) task' parked := by
  by_cases kernel : stage id = .kernel
  · rw [kernel]
    exact .kernel
  · obtain ⟨base, held⟩ := stacked.user id ((regular.user id live).mp kernel)
    exact good.carryOn (stacked.placed id base held) layout (agree base held)

section Operations

variable {k k' : Kernel} {stage : TaskId → Stage}

def SameHalf (k k' : Kernel) : Prop :=
  ∀ x, userSpaceEnd ≤ x → k'.memory.kernel x = k.memory.kernel x

theorem SameHalf.of_memory (same : k'.memory = k.memory) : SameHalf k k' := fun x _ => by rw [same]

theorem Stacked.agree (stacked : Stacked k) {id : TaskId} (same : SameHalf k k') {base : Word}
    (held : (k.tasks id).stack = some base) : Agree k.memory.kernel k'.memory.kernel base := by
  have low := (stacked.placed id base held).bounds.1
  exact fun x above _ => same x (by omega)

theorem Placed.layout {task task' : Task} {base : Word} (placed : Placed task base)
    (layout : SameLayout task task') : Placed task' base :=
  ⟨layout.stack.trans placed.stack, layout.top.trans placed.top, placed.low, placed.high⟩

theorem Stacked.tame {changed : Set TaskId} (stacked : Stacked k) (tame : Tame k k' changed) :
    Stacked k' where
  placed id base held := by
    rw [(tame.layout id).stack] at held
    exact (stacked.placed id base held).layout (tame.layout id)
  apart id j base base' other held held' := by
    rw [(tame.layout id).stack] at held
    rw [(tame.layout j).stack] at held'
    exact stacked.apart id j base base' other held held'
  user id space := by
    rw [(tame.layout id).stack]
    exact stacked.user id ((tame.space id).symm.trans space)
  rsp0 := by
    rw [tame.rsp0, tame.current, (tame.layout _).top]
    exact stacked.rsp0

theorem Frames.tame {changed : Set TaskId} (frames : Frames k stage) (regular : Regular k stage)
    (stacked : Stacked k) (tame : Tame k k' changed) (half : SameHalf k k') : Frames k' stage := by
  intro id live
  have before := (tame.live id).mp live
  rw [tame.current]
  exact (frames id before).carry regular stacked before (tame.layout id)
    fun base held => stacked.agree half held

theorem Frames.moved (frames : Frames k stage) (st : Stage)
    (kept : (k.tasks k.current).state.Live →
      TrapKept k.memory.kernel st (k.tasks k.current)) :
    Frames k (Function.update stage k.current st) := by
  intro id live
  by_cases same : id = k.current
  · subst same
    rw [Function.update_self]
    exact ⟨kept live, fun parked => absurd rfl parked⟩
  · rw [Function.update_of_ne same]
    exact frames id live

theorem Stacked.ended (stacked : Stacked k) (id : TaskId) (task : Task)
    (stack : task.stack = (k.tasks id).stack ∨ task.stack = none)
    (top : task.stack.isSome ∨ id = k.current → task.kernelStackTop = (k.tasks id).kernelStackTop)
    (space : task.addressSpace.isSome = true →
      (k.tasks id).addressSpace.isSome = true ∧ task.stack = (k.tasks id).stack) :
    Stacked (k.setTask id task) := by
  have at' : ∀ j, j ≠ id → (k.setTask id task).tasks j = k.tasks j := fun j apart => by
    simp only [Kernel.setTask, Function.update_of_ne apart]
  have self : (k.setTask id task).tasks id = task := by
    simp only [Kernel.setTask, Function.update_self]
  have old : ∀ j base, ((k.setTask id task).tasks j).stack = some base →
      (k.tasks j).stack = some base := by
    intro j base held
    by_cases same : j = id
    · subst same
      rw [self] at held
      rcases stack with kept | gone
      · exact kept.symm.trans held
      · simp [gone] at held
    · rwa [at' j same] at held
  refine ⟨fun j base held => ?_, fun j j' base base' other held held' => ?_, fun j user => ?_, ?_⟩
  · have placed := stacked.placed j base (old j base held)
    by_cases same : j = id
    · subst same
      rw [self] at held ⊢
      exact ⟨held, (top (Or.inl (by simp [held]))).trans placed.top, placed.low, placed.high⟩
    · rwa [at' j same]
  · exact stacked.apart j j' base base' other (old j base held) (old j' base' held')
  · by_cases same : j = id
    · subst same
      rw [self] at user ⊢
      rw [(space user).2]
      exact stacked.user j (space user).1
    · rw [at' j same] at user ⊢
      exact stacked.user j user
  · rw [show (k.setTask id task).current = k.current from rfl,
      show (k.setTask id task).rsp0 = k.rsp0 from rfl]
    by_cases same : k.current = id
    · rw [same, self, top (Or.inr same.symm), ← same]
      exact stacked.rsp0
    · rw [at' _ same]
      exact stacked.rsp0

theorem Frames.ended (frames : Frames k stage) (id : TaskId) (task : Task)
    (dead : ¬task.state.Live) : Frames (k.setTask id task) stage := by
  intro j live
  by_cases same : j = id
  · subst same
    simp only [Kernel.setTask, Function.update_self] at live
    exact absurd live dead
  · simp only [Kernel.setTask, Function.update_of_ne same] at live ⊢
    exact frames j live

theorem Stacked.emptied (stacked : Stacked k) {id : TaskId} (other : id ≠ k.current) :
    Stacked (emptySlot k id) :=
  (stacked.ended id empty (Or.inr rfl) (fun here => by simp [empty, other] at here)
    (by simp [empty])).tame (.of_tasks ∅ rfl rfl rfl rfl)

theorem Frames.emptied (frames : Frames k stage) (id : TaskId) : Frames (emptySlot k id) stage :=
  frames.ended id empty (by simp [empty, State.Live])

theorem agree_of_offStacks {a : Word} {n : Nat} {id : TaskId} {base : Word} {m m' : Bytes}
    (off : OffStacks k a.toNat n) (held : (k.tasks id).stack = some base)
    (outside : ∀ x, userSpaceEnd ≤ x → Clear a.toNat n x → m' x = m x)
    (low : userSpaceEnd ≤ base.toNat) : Agree m m' base := by
  have here := off id
  unfold OffStack at here
  rw [held] at here
  simp only at here
  intro x above below
  refine outside x (by omega) ?_
  unfold Clear
  omega

variable {id : TaskId} {task : Task} {m : Bytes} {base : Word}

theorem Stacked.joined (stacked : Stacked k) (regular : Regular k stage)
    (joins : Joins k k' id task m) (fresh : FreshStack k base) (stack : task.stack = some base)
    (top : task.kernelStackTop = topOf base) : Stacked k' := by
  have current : k.current ≠ id := fun same => regular.here (same ▸ joins.vacant)
  have off : ∀ j base', (k.tasks j).stack = some base' →
      base.toNat + stackSize ≤ base'.toNat ∨ base'.toNat + stackSize ≤ base.toNat := by
    intro j base' held
    have here := fresh.2.2 j
    unfold OffStack at here
    rw [held] at here
    simpa using here
  refine ⟨fun j b held => ?_, fun j j' b b' other held held' => ?_, fun j user => ?_, ?_⟩
  · by_cases same : j = id
    · rw [same, joins.self] at held ⊢
      obtain rfl := Option.some.inj (held.symm.trans stack)
      exact ⟨held, top, fresh.1, fresh.2.1⟩
    · rw [joins.other same] at held ⊢
      exact stacked.placed j b held
  · by_cases same : j = id
    · have apart : j' ≠ id := fun both => other (same.trans both.symm)
      rw [same, joins.self] at held
      rw [joins.other apart] at held'
      obtain rfl := Option.some.inj (held.symm.trans stack)
      exact off j' b' held'
    · rw [joins.other same] at held
      by_cases same' : j' = id
      · rw [same', joins.self] at held'
        obtain rfl := Option.some.inj (held'.symm.trans stack)
        exact (off j b held).symm
      · rw [joins.other same'] at held'
        exact stacked.apart j j' b b' other held held'
  · by_cases same : j = id
    · rw [same, joins.self]
      exact ⟨base, stack⟩
    · rw [joins.other same] at user ⊢
      exact stacked.user j user
  · rw [joins.current, joins.rsp0, joins.other current]
    exact stacked.rsp0

theorem Frames.joined (frames : Frames k stage) (regular : Regular k stage) (stacked : Stacked k)
    (joins : Joins k k' id task m) (fresh : FreshStack k base) (st : Stage)
    (outside : ∀ x, userSpaceEnd ≤ x → Clear base.toNat stackSize x → m x = k.memory.kernel x)
    (good : Good k'.memory.kernel st task True) :
    Frames k' (fun j => if (k.tasks j).state = .free ∧ (k'.tasks j).state ≠ .free then st
      else stage j) := by
  intro j live
  beta_reduce
  by_cases same : j = id
  · subst same
    rw [if_pos ⟨joins.vacant, live.1⟩, joins.self]
    exact ⟨good.kept, fun _ => good.saved trivial⟩
  · rw [joins.other same] at live ⊢
    rw [if_neg fun both => both.2 both.1, joins.current]
    refine (frames j live).carry regular stacked live (SameLayout.refl _) fun base' held => ?_
    refine agree_of_offStacks fresh.2.2 held (fun x high clear => ?_)
      (stacked.placed j base' held).bounds.1
    rw [joins.memory, Memory.store_kernel high]
    exact outside x high clear

end Operations

section Views

variable {k : Kernel} {task : Task} {base a : Word}

theorem Placed.view_eq (placed : Placed task base) (on : OnStack a base) (mem : Memory) (root : Root) :
    readFrame (mem.view root) a = readFrame mem.kernel a :=
  readFrame_congr (placed.fits on).1 fun x low _ => by
    have high := (placed.fits on).2
    exact Memory.view_kernel (by omega)

theorem Placed.store_eq (placed : Placed task base) (on : OnStack a base) (mem : Memory) (root : Root)
    (m : Bytes) : readFrame (mem.store root m).kernel a = readFrame m a :=
  readFrame_congr (placed.fits on).1 fun x low _ => by
    have high := (placed.fits on).2
    exact Memory.store_kernel (by omega)

theorem pushFrame_kernel (placed : Placed task base) (on : OnStack a base) (f : Frame) :
    readFrame (pushFrame k a f).memory.kernel a = f ∧
      ∀ x, userSpaceEnd ≤ x → Clear a.toNat frameBytes x →
        (pushFrame k a f).memory.kernel x = k.memory.kernel x := by
  have fits := (placed.fits on).1
  constructor
  · rw [pushFrame, Kernel.storeView, placed.store_eq on]
    exact readFrame_writeFrame fits
  · intro x high clear
    rw [pushFrame, Kernel.storeView, Memory.store_kernel high, writeFrame_outside fits clear]
    exact Memory.view_kernel high

end Views

theorem Stacked.agree_apart {k : Kernel} (stacked : Stacked k) {id j : TaskId} {base base' a : Word}
    {m m' : Bytes} (other : j ≠ id) (held : (k.tasks id).stack = some base)
    (held' : (k.tasks j).stack = some base') (on : OnStack a base)
    (outside : ∀ x, userSpaceEnd ≤ x → Clear a.toNat frameBytes x → m' x = m x) :
    Agree m m' base' := by
  have apart := stacked.apart id j base base' other.symm held held'
  have low := (stacked.placed j base' held').bounds.1
  obtain ⟨above, below⟩ := on
  intro x inside end'
  refine outside x (by omega) ?_
  unfold Clear
  omega

theorem Stacked.current {k : Kernel} {stage : TaskId → Stage} (stacked : Stacked k)
    (regular : Regular k stage) (user : stage k.current ≠ .kernel)
    (live : (k.tasks k.current).state.Live) :
    ∃ base, Placed (k.tasks k.current) base ∧ k.rsp0 = (k.tasks k.current).kernelStackTop := by
  obtain ⟨base, held⟩ := stacked.user _ ((regular.user _ live).mp user)
  have placed := stacked.placed _ base held
  exact ⟨base, placed, stacked.rsp0 placed.top_ne_zero⟩

theorem Good.layout {m : Bytes} {st : Stage} {task task' : Task} {parked parked' : Prop}
    (good : Good m st task parked) (layout : SameLayout task task') (weaker : parked' → parked) :
    Good m st task' parked' := by
  obtain ⟨kept, saved⟩ := good
  refine ⟨?_, fun here => ?_⟩
  · unfold TrapKept at kept ⊢
    rw [layout.top]
    exact kept
  · have before := saved (weaker here)
    unfold Resumable Nested at before ⊢
    rw [layout.top, layout.pointer, layout.stack]
    exact before

theorem Stacked.scheduled {k : Kernel} (stacked : Stacked k) (on : k.enabled = true) (sp : Word) :
    Stacked (schedule k sp).2 := by
  have kept := fun id => (schedule_task sp on id).1
  refine ⟨fun id base held => ?_, fun id j base base' other held held' => ?_, fun id user => ?_,
    schedule_rsp0 sp on stacked.rsp0⟩
  · rw [(kept id).stack] at held
    have placed := stacked.placed id base held
    exact ⟨(kept id).stack.trans held, (kept id).top.trans placed.top, placed.low, placed.high⟩
  · rw [(kept id).stack] at held
    rw [(kept j).stack] at held'
    exact stacked.apart id j base base' other held held'
  · rw [(kept id).space] at user
    rw [(kept id).stack]
    exact stacked.user id user

theorem Frames.wakeAll {k : Kernel} {stage : TaskId → Stage} (frames : Frames k stage)
    (channel : Word) : Frames (k.wakeAll channel) stage := by
  have woken := tame_wakeAll k channel ∅
  exact fun id alive => (frames id ((woken.live id).mp alive)).layout (woken.layout id)
    fun parked => parked

end FiveAM.Process.KernelStacks
