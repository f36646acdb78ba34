/- GID: FiveAM/Process/Resuming
   source: kernel/src/task.rs, kernel/src/signal.rs
   digest: A timer interrupt leaves every live task a frame it can be resumed through. -/

import FiveAM.Process.KernelStacks

set_option autoImplicit false
set_option relaxedAutoImplicit false

namespace FiveAM.Process.Resuming

open FiveAM.Process.TaskTable FiveAM.Process.Machine FiveAM.Process.Pipes FiveAM.Process.Signals
open FiveAM.Process.Lifecycle FiveAM.Process.Syscalls FiveAM.Process.Schedule
open FiveAM.Process.System FiveAM.Process.Effects FiveAM.Process.TableShape
open FiveAM.Process.FrameMemory FiveAM.Process.KernelStacks FiveAM.Lib.ByteMemory

/-- What a handler needs: if the signal pending enters one, the user stack has
room for its frame in the user half. -/
def Lands (task : Task) (f : Frame) : Prop :=
  task.pending ≠ 0 → ¬Fatal task → f frameCs &&& 3 = 3 → Roomy (f frameRsp)

theorem enterHandler_kernel {task : Task} {base frame : Word} (mem : Memory) (root : Root)
    (placed : Placed task base) (on : OnStack frame base)
    (roomy : Roomy (readFrame (mem.view root) frame frameRsp))
    (signal : Nat) (handler restorer : Word) :
    let after := (mem.store root
      (enterHandler (mem.view root) frame signal handler restorer)).kernel
    (UserReturn (readFrame mem.kernel frame) → UserReturn (readFrame after frame)) ∧
      ∀ x, userSpaceEnd ≤ x → Clear frame.toNat frameBytes x → after x = mem.kernel x := by
  obtain ⟨fits, high⟩ := placed.fits on
  obtain ⟨entered, outside⟩ := enterHandler_spec fits high roomy.1 roomy.user signal handler restorer
  refine ⟨fun user => ?_, fun x above clear => ?_⟩
  · rw [placed.store_eq on, entered, placed.view_eq on]
    exact user.handler signal handler
  · rw [Memory.store_kernel above, outside x above clear]
    exact Memory.view_kernel above

section Scheduling

variable {s : Machine} {a : Word} {f : Frame}

/-- With the frame `f` pushed, task `id` can be resumed, the interrupted one from
`a`. -/
private def Ready (s : Machine) (a : Word) (f : Frame) (id : TaskId) : Prop :=
  Good (trapped s a f).memory.kernel (s.stage id)
    { s.kernel.tasks id with
      stackPointer := if id = s.kernel.current then a else (s.kernel.tasks id).stackPointer } True

/-- After the push every live task can be resumed, and a task that is over was
interrupted in ring 0. -/
private structure Pushed (s : Machine) (a : Word) (f : Frame) : Prop where
  ready : ∀ id, (s.kernel.tasks id).state.Live → Ready s a f id
  inside : ¬(s.kernel.tasks s.kernel.current).state.Live →
    readFrame ((trapped s a f).memory.view (trapped s a f).activeRoot) a frameCs = kernelCode

private theorem guarded_ready_other (guarded : Guarded s) (regular : Regular s.kernel s.stage)
    {id : TaskId} (other : id ≠ s.kernel.current) (live : (s.kernel.tasks id).state.Live)
    (agree : ∀ base', (s.kernel.tasks id).stack = some base' →
      Agree s.kernel.memory.kernel (trapped s a f).memory.kernel base') : Ready s a f id := by
  have good : Good (trapped s a f).memory.kernel (s.stage id) (s.kernel.tasks id)
      (id ≠ s.kernel.current) :=
    (guarded.frames id live).carry regular guarded.stacked live (SameLayout.refl _) agree
  unfold Ready
  rw [if_neg other]
  exact ⟨good.kept, fun _ => good.saved other⟩

private theorem guarded_pushed_program (guarded : Guarded s) (regular : Regular s.kernel s.stage)
    (program : s.stage s.kernel.current = .program) :
    Pushed s (frameAt s.kernel.rsp0) s.registers := by
  obtain ⟨user, live⟩ := regular.inside (by simp [Machine.current, program])
    (by simp [Machine.current, program])
  obtain ⟨base, placed, rsp0⟩ := guarded.stacked.current regular user live
  have on := placed.onStack
  rw [← rsp0] at on
  obtain ⟨written, outside⟩ := pushFrame_kernel
    (k := { s.kernel with ticks := s.kernel.ticks + 1 }) placed on s.registers
  refine ⟨fun id alive => ?_, fun dead => absurd live dead⟩
  by_cases same : id = s.kernel.current
  · subst same
    unfold Ready
    rw [if_pos rfl, program]
    refine ⟨trivial, fun _ => ⟨by rw [rsp0], ?_⟩⟩
    simp only [trapped]
    rw [written]
    exact guarded.now program
  · exact guarded_ready_other guarded regular same alive fun base' held =>
      guarded.stacked.agree_apart same placed.stack held on outside

private theorem guarded_pushed_boot (guarded : Guarded s) (regular : Regular s.kernel s.stage)
    (ring : f frameCs = kernelCode) (bare : (s.kernel.tasks s.kernel.current).stack = none)
    (own : OnOwnStack s.kernel a) : Pushed s a f := by
  simp only [OnOwnStack, bare] at own
  obtain ⟨high, (fits : Fits a), off⟩ := own
  have outside : ∀ x, userSpaceEnd ≤ x → Clear a.toNat (frameWords * 8) x →
      (trapped s a f).memory.kernel x = s.kernel.memory.kernel x := by
    intro x above clear
    rw [trapped, pushFrame, Kernel.storeView, Memory.store_kernel above,
      writeFrame_outside fits clear]
    exact Memory.view_kernel above
  refine ⟨fun id alive => ?_, fun _ => ?_⟩
  · by_cases same : id = s.kernel.current
    · subst same
      have kernel : s.stage s.kernel.current = .kernel := by
        by_contra user
        obtain ⟨base, here⟩ := guarded.stacked.user _ ((regular.user _ alive).mp user)
        simp [bare] at here
      unfold Ready
      rw [kernel]
      exact .kernel
    · exact guarded_ready_other guarded regular same alive fun base' held =>
        agree_of_offStacks off held outside (guarded.stacked.placed id base' held).bounds.1
  · have view : (trapped s a f).memory.view (trapped s a f).activeRoot =
        writeFrame ({ s.kernel with ticks := s.kernel.ticks + 1 } : Kernel).view a f :=
      Memory.view_store _ _ _
    rw [view, readFrame_writeFrame fits]
    exact ring

private theorem guarded_pushed_nested {base : Word} (guarded : Guarded s)
    (regular : Regular s.kernel s.stage) (inside : s.stage s.kernel.current ≠ .program)
    (ring : f frameCs = kernelCode) (held : (s.kernel.tasks s.kernel.current).stack = some base)
    (own : OnOwnStack s.kernel a) : Pushed s a f := by
  have placed := guarded.stacked.placed _ base held
  simp only [OnOwnStack, held] at own
  obtain ⟨low, high⟩ := own
  have bounds := placed.top_bounds
  have on : OnStack a base := ⟨low, by unfold frameBytes; omega⟩
  obtain ⟨written, outside⟩ := pushFrame_kernel
    (k := { s.kernel with ticks := s.kernel.ticks + 1 }) placed on f
  refine ⟨fun id alive => ?_, fun _ => ?_⟩
  · by_cases same : id = s.kernel.current
    · subst same
      unfold Ready
      by_cases kernel : s.stage s.kernel.current = .kernel
      · rw [kernel]
        exact .kernel
      · rw [if_pos ((regular.user _ alive).mp kernel)] at high
        have frame := placed.frame
        have trap : readFrame (trapped s a f).memory.kernel
            (frameAt (s.kernel.tasks s.kernel.current).kernelStackTop) =
            readFrame s.kernel.memory.kernel
              (frameAt (s.kernel.tasks s.kernel.current).kernelStackTop) := by
          refine readFrame_congr (placed.fits placed.onStack).1 fun x above _ => ?_
          have half := (placed.fits placed.onStack).2
          refine outside x (by omega) (Or.inr ?_)
          unfold frameBytes at frame ⊢
          omega
        have kept := (guarded.frames _ alive).kept
        have nested : Nested (trapped s a f).memory.kernel
            { s.kernel.tasks s.kernel.current with stackPointer := a } := by
          refine ⟨⟨base, held, on⟩, ?_⟩
          simp only [trapped]
          rw [written]
          exact ring
        rw [if_pos rfl]
        cases st : s.stage s.kernel.current with
        | kernel => exact absurd st kernel
        | program => exact absurd st inside
        | calling context count =>
            rw [st] at kept
            obtain ⟨rfl, user⟩ := kept
            exact ⟨⟨rfl, by rw [trap]; exact user⟩, fun _ => nested⟩
        | returning context result =>
            rw [st] at kept
            obtain ⟨rfl, user⟩ := kept
            exact ⟨⟨rfl, by rw [trap]; exact user⟩, fun _ => nested⟩
        | gone => exact ⟨trivial, fun _ => nested⟩
    · exact guarded_ready_other guarded regular same alive fun base' held' =>
        guarded.stacked.agree_apart same held held' on outside
  · rw [placed.view_eq on]
    simp only [trapped]
    rw [written]
    exact ring

private theorem guarded_pushed (guarded : Guarded s) (regular : Regular s.kernel s.stage)
    (interrupts : Interrupts s a f) : Pushed s a f := by
  rcases interrupts with ⟨⟨program, -⟩, rfl, rfl⟩ | ⟨inside, ring, own⟩
  · exact guarded_pushed_program guarded regular program
  · cases held : (s.kernel.tasks s.kernel.current).stack with
    | none => exact guarded_pushed_boot guarded regular ring held own
    | some base => exact guarded_pushed_nested guarded regular inside ring held own

private theorem Pushed.program {k : Kernel} (pushed : Pushed s a f)
    (regular : Regular s.kernel s.stage) (stacked : Stacked s.kernel) (hk : k = trapped s a f)
    (user : (k.tasks (chosen k a)).addressSpace.isSome)
    (ring : readFrame (k.memory.view (rootFor k (chosen k a)))
      (if chosen k a = k.current then a else (k.tasks (chosen k a)).stackPointer) frameCs &&& 3 = 3) :
    (s.kernel.tasks (chosen k a)).state.Live ∧ s.stage (chosen k a) = .program := by
  subst hk
  have live : (s.kernel.tasks (chosen (trapped s a f) a)).state.Live := by
    by_contra dead
    rcases chosen_live (trapped s a f) a with live | same
    · exact dead live
    · rw [if_pos same, same] at ring
      rw [show rootFor (trapped s a f) (trapped s a f).current = (trapped s a f).activeRoot from
        if_pos rfl] at ring
      rw [same] at dead
      rw [pushed.inside dead] at ring
      exact kernelCode_ring ring
  refine ⟨live, ?_⟩
  have saved := (pushed.ready _ live).saved trivial
  have inside : s.stage (chosen (trapped s a f) a) ≠ .kernel := (regular.user _ live).mpr user
  have nested : ¬Nested (trapped s a f).memory.kernel { s.kernel.tasks (chosen (trapped s a f) a) with
      stackPointer := if chosen (trapped s a f) a = s.kernel.current then a
        else (s.kernel.tasks (chosen (trapped s a f) a)).stackPointer } := by
    rintro ⟨⟨base, held, on⟩, low⟩
    rw [← (stacked.placed _ base held).view_eq on (trapped s a f).memory
      (rootFor (trapped s a f) (chosen (trapped s a f) a))] at low
    rw [show (trapped s a f).current = s.kernel.current from rfl,
      show (trapped s a f).tasks = s.kernel.tasks from rfl] at ring
    rw [low] at ring
    exact kernelCode_ring ring
  cases st : s.stage (chosen (trapped s a f) a) with
  | program => rfl
  | kernel => exact absurd st inside
  | calling context count =>
      rw [st] at saved
      exact absurd saved nested
  | returning context result =>
      rw [st] at saved
      exact absurd saved nested
  | gone =>
      rw [st] at saved
      exact absurd saved nested

end Scheduling

/-- The frame the scheduler would resume next, as the processor sees it there. -/
def nextFrame (k : Kernel) (a : Word) : Frame :=
  readFrame (k.memory.view (rootFor k (chosen k a)))
    (if chosen k a = k.current then a else (k.tasks (chosen k a)).stackPointer)

/-- A program the timer is about to send into a handler has room for it. -/
def TimerLands (k : Kernel) (a : Word) : Prop :=
  (k.tasks (chosen k a)).addressSpace.isSome → Lands (k.tasks (chosen k a)) (nextFrame k a)

section Timer

variable {s : Machine} {a : Word} {f : Frame}

private theorem Pushed.scheduled (pushed : Pushed s a f) (regular : Regular s.kernel s.stage)
    (stacked : Stacked s.kernel) (lands : TimerLands (trapped s a f) a) {id : TaskId}
    (live : (s.kernel.tasks id).state.Live) :
    Good (schedule (trapped s a f) a).2.memory.kernel (s.stage id)
      ((schedule (trapped s a f) a).2.tasks id) True := by
  have on : (trapped s a f).enabled = true := regular.on
  have kept := (schedule_task a on id).1
  have layout : SameLayout { s.kernel.tasks id with
      stackPointer := if id = s.kernel.current then a else (s.kernel.tasks id).stackPointer }
      ((schedule (trapped s a f) a).2.tasks id) :=
    ⟨kept.stack, kept.top, schedule_pointer a on id⟩
  have ready := pushed.ready id live
  rcases schedule_memory a on with same | ⟨user, pending, spared, frame, here, ring, signal, handler,
    restorer, after⟩
  · rw [same]
    exact ready.layout layout fun always => always
  · subst here
    obtain ⟨alive, program⟩ := pushed.program regular stacked rfl user ring
    obtain ⟨base, held⟩ := stacked.user _ user
    have placed := stacked.placed _ base held
    have saved := (pushed.ready _ alive).saved trivial
    rw [program] at saved
    obtain ⟨pointer, returns⟩ := saved
    simp only at pointer returns
    have roomy := lands user pending spared ring
    unfold nextFrame at roomy
    rw [show (trapped s a f).current = s.kernel.current from rfl,
      show (trapped s a f).tasks = s.kernel.tasks from rfl] at roomy after
    have on' : OnStack (if chosen (trapped s a f) a = s.kernel.current then a
        else (s.kernel.tasks (chosen (trapped s a f) a)).stackPointer) base := by
      rw [pointer]
      exact placed.onStack
    obtain ⟨entered, outside⟩ := enterHandler_kernel _ _ placed on' roomy signal handler restorer
    rw [after]
    by_cases same : id = chosen (trapped s a f) a
    · subst same
      rw [program]
      refine Good.layout ⟨trivial, fun (_ : True) => ⟨pointer, ?_⟩⟩ layout fun always => always
      exact entered returns
    · refine Good.layout ?_ layout fun always => always
      by_cases kernel : s.stage id = .kernel
      · rw [kernel]
        exact .kernel
      · obtain ⟨base', held'⟩ := stacked.user id ((regular.user id live).mp kernel)
        have agree := stacked.agree_apart same held held' on' outside
        have placed' := stacked.placed id base' held'
        have moved : Placed { s.kernel.tasks id with stackPointer := if id = s.kernel.current then a
            else (s.kernel.tasks id).stackPointer } base' :=
          ⟨placed'.stack, placed'.top, placed'.low, placed'.high⟩
        exact ready.carryOn moved (SameLayout.refl _) agree

theorem guarded_timer (guarded : Guarded s) (regular : Regular s.kernel s.stage)
    (interrupts : Interrupts s a f) (lands : TimerLands (trapped s a f) a) :
    Guarded (timer s a f) := by
  have on : (trapped s a f).enabled = true := regular.on
  have pushed := guarded_pushed guarded regular interrupts
  have stacked' : Stacked (trapped s a f) :=
    guarded.stacked.tame (Tame.of_tasks ∅ rfl rfl rfl rfl)
  have regular' : Regular (trapped s a f) s.stage := regular.tame (.of_tasks ∅ rfl rfl rfl rfl)
  have good : ∀ id, ((schedule (trapped s a f) a).2.tasks id).state.Live →
      Good (schedule (trapped s a f) a).2.memory.kernel (s.stage id)
        ((schedule (trapped s a f) a).2.tasks id) True := fun id live =>
    pushed.scheduled regular guarded.stacked lands ((schedule_task a on id).2.1.mp live).1
  have stacked := stacked'.scheduled on a
  refine ⟨stacked, fun id live => (good id live).layout (SameLayout.refl _) fun _ => trivial, ?_⟩
  intro program
  have scheduled := regular'.scheduled a
  have program : s.stage (schedule (trapped s a f) a).2.current = .program := program
  have live := scheduled.running (by simp [program]) (by simp [program])
  have saved := (good _ live).saved trivial
  rw [program] at saved
  obtain ⟨pointer, user⟩ := saved
  obtain ⟨base, held⟩ := stacked.user _ ((scheduled.user _ live).mp (by simp [program]))
  have placed := stacked.placed _ base held
  simp only [System.timer]
  rw [if_pos program, schedule_resumes a on]
  rw [pointer] at user ⊢
  rw [Kernel.view, placed.view_eq placed.onStack]
  exact user

end Timer

end FiveAM.Process.Resuming
