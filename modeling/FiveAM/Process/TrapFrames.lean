/- GID: FiveAM/Process/TrapFrames
   source: kernel/src/task.rs, kernel/src/syscall.rs, kernel/src/signal.rs, kernel/src/gdt.rs
   digest: The privilege every program returns to ring 3 with, over whole runs. -/

import FiveAM.Process.CallFrames

set_option autoImplicit false
set_option relaxedAutoImplicit false

namespace FiveAM.Process.TrapFrames

open FiveAM.Process.TaskTable FiveAM.Process.Machine FiveAM.Process.Pipes FiveAM.Process.Signals
open FiveAM.Process.Lifecycle FiveAM.Process.Syscalls FiveAM.Process.Schedule
open FiveAM.Process.System FiveAM.Process.Effects FiveAM.Process.TableShape
open FiveAM.Process.FrameMemory FiveAM.Process.KernelStacks FiveAM.Process.Resuming
open FiveAM.Process.CallFrames FiveAM.Lib.Runs FiveAM.Lib.ByteMemory

/-- The frame a program's task goes back to ring 3 through: its registers while
it runs there, the frame it was interrupted or called in with otherwise. -/
def returnFrame (s : Machine) (id : TaskId) : Option Frame :=
  match s.stage id with
  | .program => some (if id = s.current then s.registers
      else readFrame s.kernel.memory.kernel (s.kernel.tasks id).stackPointer)
  | .calling context _ => some (readFrame s.kernel.memory.kernel context)
  | .returning context _ => some (readFrame s.kernel.memory.kernel context)
  | .kernel => none
  | .gone => none

/-- No live task has a way back to ring 3 that keeps it privileged. -/
def Unprivileged (s : Machine) : Prop :=
  ∀ id f, (s.kernel.tasks id).state.Live → returnFrame s id = some f → UserReturn f

section Runs

variable {s s' : Machine} {e : Event}

private theorem guarded_still {k : Kernel} (guarded : Guarded s) (regular : Regular s.kernel s.stage)
    (tame : Tame s.kernel k ∅) (half : SameHalf s.kernel k) : Guarded (withKernel s k) := by
  refine ⟨guarded.stacked.tame tame, guarded.frames.tame regular guarded.stacked tame half, ?_⟩
  intro program
  refine guarded.now ?_
  rwa [show (withKernel s k).kernel.current = s.kernel.current from tame.current] at program

private theorem guarded_endTask (guarded : Guarded s) (inside : InKernelTask s) :
    Guarded (withKernel s (endTask s.kernel s.current)) := by
  have stacked : Stacked (s.kernel.setTask s.kernel.current
      { s.kernel.tasks s.kernel.current with exitCode := 0, state := .finished }) :=
    guarded.stacked.ended s.kernel.current _ (Or.inl rfl) (fun _ => rfl) fun space => ⟨space, rfl⟩
  have frames := guarded.frames.ended s.kernel.current
    { s.kernel.tasks s.kernel.current with exitCode := 0, state := .finished }
    (by simp [State.Live])
  exact ⟨stacked.tame (tame_wakeAll _ _ ∅), frames.wakeAll _,
    fun program => absurd (inside.1.symm.trans program) (by simp)⟩

private theorem guarded_waited (guarded : Guarded s) (regular : Regular s.kernel s.stage)
    (inside : InKernelTask s) {parent : TaskId} {r : Waiting (Option Word) × Kernel}
    (run : WaitAny s.kernel parent r) : Guarded (withKernel s r.2) := by
  have live : (s.kernel.tasks s.kernel.current).state.Live := ⟨regular.here, inside.2⟩
  cases run with
  | nothing => exact guarded
  | @collected id child ceased orphans =>
      have tame : Tame s.kernel { s.kernel with orphans := orphans } ∅ :=
        .of_tasks ∅ rfl rfl rfl rfl
      have other : id ≠ s.kernel.current := fun same => live.2 (same ▸ ceased)
      exact ⟨(guarded.stacked.tame tame).emptied other,
        (guarded.frames.tame regular guarded.stacked tame (.of_memory rfl)).emptied id,
        guarded.now⟩
  | asleep child => exact guarded_still guarded regular (tame_park live _) (.of_memory rfl)

private theorem guarded_reaped (guarded : Guarded s) (inside : InKernelTask s) :
    Guarded (withKernel s (reapFinished s.kernel)) := by
  have swept : Stacked (reapFinished s.kernel) ∧ Frames (reapFinished s.kernel) s.stage ∧
      (reapFinished s.kernel).current = s.kernel.current ∧
      ((reapFinished s.kernel).tasks s.kernel.current).state ≠ .finished := by
    unfold reapFinished
    refine List.foldlRecOn (motive := fun k' : Kernel => Stacked k' ∧ Frames k' s.stage ∧
      k'.current = s.kernel.current ∧ (k'.tasks s.kernel.current).state ≠ .finished) _ _
      ⟨guarded.stacked, guarded.frames, rfl, inside.2⟩ ?_
    rintro k' ⟨stacked, frames, current, running⟩ id -
    split_ifs with ceased
    · have other : id ≠ s.kernel.current := fun same => running (same ▸ ceased)
      refine ⟨stacked.emptied (by rwa [current]), frames.emptied id, current, ?_⟩
      rw [emptySlot_other other.symm]
      exact running
    · exact ⟨stacked, frames, current, running⟩
  obtain ⟨stacked, frames, current, -⟩ := swept
  refine ⟨stacked, frames, fun program => guarded.now ?_⟩
  rwa [show (withKernel s (reapFinished s.kernel)).kernel.current = s.kernel.current from current]
    at program

private theorem guarded_reclaimed (guarded : Guarded s) :
    Guarded (withKernel s (orphanAddressSpaces s.kernel).2) := by
  have taken : ∀ ids : List TaskId, Stacked (ids.foldl takeSpace s.kernel) ∧
      Frames (ids.foldl takeSpace s.kernel) s.stage ∧
      (ids.foldl takeSpace s.kernel).current = s.kernel.current := by
    intro ids
    refine List.foldlRecOn (motive := fun k' : Kernel => Stacked k' ∧ Frames k' s.stage ∧
      k'.current = s.kernel.current) ids _ ⟨guarded.stacked, guarded.frames, rfl⟩ ?_
    rintro k' ⟨stacked, frames, current⟩ id -
    rcases takeSpace_cases k' id with same | ⟨dead, orphans, eq⟩
    · rw [same]
      exact ⟨stacked, frames, current⟩
    · rw [eq]
      have ended : Stacked (k'.setTask id { k'.tasks id with addressSpace := none }) :=
        stacked.ended id _ (Or.inl rfl) (fun _ => rfl) (by simp)
      exact ⟨ended.tame (Tame.of_tasks ∅ rfl rfl rfl rfl),
        frames.ended id { k'.tasks id with addressSpace := none } dead, current⟩
  obtain ⟨stacked, frames, current⟩ := taken (List.finRange maxTasks)
  refine ⟨stacked.tame (Tame.of_tasks ∅ rfl rfl rfl rfl), frames, fun program =>
    guarded.now ?_⟩
  rwa [show (withKernel s (orphanAddressSpaces s.kernel).2).kernel.current = s.kernel.current from
    current] at program

private theorem guarded_enrolled {k k' : Kernel} {id : TaskId} {task : Task} {m : Bytes}
    (inside : InKernelTask s) {st : Stage} (vacant : (k.tasks s.kernel.current).state ≠ .free)
    (tasks : k.tasks = s.kernel.tasks) (joins : Joins k k' id task m)
    (same : k.current = s.kernel.current)
    (joined : Stacked k' ∧ Frames k' (fun j => if (k.tasks j).state = .free ∧
      (k'.tasks j).state ≠ .free then st else s.stage j)) : Guarded (enroll s k' st) := by
  obtain ⟨stacked, frames⟩ := joined
  rw [tasks] at frames vacant
  refine ⟨stacked, frames, fun program => ?_⟩
  have current : (enroll s k' st).kernel.current = s.kernel.current := joins.current.trans same
  rw [current] at program
  simp only [enroll] at program
  rw [if_neg fun both => vacant both.1] at program
  exact absurd (inside.1.symm.trans program) (by simp)

private theorem guarded_step (regular : Regular s.kernel s.stage) (guarded : Guarded s)
    (confined : Confined s e) (taken : step s e = some s') : Guarded s' := by
  have alive : InKernelTask s → (s.kernel.tasks s.kernel.current).state.Live :=
    fun inside => ⟨regular.here, inside.2⟩
  refine step_rule (P := Guarded) taken ?onCompute (guarded_call guarded regular) ?onServe ?onLeave
    (fun a f here interrupts => guarded_timer guarded regular interrupts (confined.timer a f here))
    (fun _ _ => guarded_still guarded regular (tame_signal ..) (.of_memory (signal_memory ..)))
    (fun _ => guarded_still guarded regular (tame_wakeAll _ _ ∅) (.of_memory rfl))
    (guarded_still guarded regular (tame_noteStackFault ..) (.of_memory rfl))
    (fun _ _ inside => guarded_still guarded regular (tame_park (alive inside) _) (.of_memory rfl))
    (fun _ inside => guarded_still guarded regular (tame_sleep (alive inside) _) (.of_memory rfl))
    (fun _ inside _ => guarded_endTask guarded inside)
    (fun _ => guarded_still guarded regular (.of_tasks ∅ rfl rfl rfl rfl) (.of_memory rfl)) ?onSpawn ?onRun
    (fun _ inside => guarded_waited guarded regular inside (waitAnyChild_cases s.kernel 0))
    (fun _ inside => guarded_reaped guarded inside) (fun _ _ => guarded_reclaimed guarded)
  case onCompute =>
    intro registers memory program same
    have moved := guarded_still guarded regular (tame_withUserMemory s.kernel s.kernel.activeRoot memory)
      (sameHalf_withUserMemory _ _ _)
    exact ⟨moved.stacked, moved.frames, fun _ => (guarded.now program.1).samePrivilege same⟩
  case onServe =>
    intro env context written here inside fresh
    subst here
    exact guarded_serve guarded regular confined inside fresh
  case onLeave =>
    intro context result here inside
    exact guarded_leave guarded regular inside (confined.leave context result here inside)
  case onSpawn =>
    intro stack entry priority _ inside fresh
    rcases spawnWithPriority_cases s.kernel stack entry priority with same | ⟨id, joins, -⟩
    · rw [same]
      refine ⟨guarded.stacked, ?_, ?_⟩
      · rw [enroll_none rfl]
        exact guarded.frames
      · rw [enroll_none rfl]
        exact guarded.now
    · obtain ⟨frame, outside⟩ := freshFrame (kernelTask (s.kernel.tasks id) stack priority)
        fresh rfl rfl (kernelFrame (topOf stack) entry)
      exact guarded_enrolled inside regular.here rfl joins rfl (joined_guarded regular guarded.stacked
        guarded.frames joins fresh rfl rfl rfl outside frame .kernel (Or.inl rfl))
  case onRun =>
    intro stack image _ inside fresh
    have tame := tame_withUserMemory s.kernel image.root image.memory
    have loaded := guarded_still guarded regular tame (sameHalf_withUserMemory _ _ _)
    have shaped := regular.tame tame
    rcases spawnUser_cases (withUserMemory s.kernel image.root image.memory) stack image.entry
      image.stack image.root (some 0) image.argc image.argv with same | ⟨id, joins, -⟩
    · rw [same]
      refine ⟨loaded.stacked, ?_, ?_⟩
      · rw [enroll_none (k := withUserMemory s.kernel image.root image.memory) rfl]
        exact loaded.frames
      · rw [enroll_none (k := withUserMemory s.kernel image.root image.memory) rfl]
        exact loaded.now
    · obtain ⟨frame, outside⟩ := freshFrame
        (k := withUserMemory s.kernel image.root image.memory)
        (programTask (s.kernel.tasks id) stack image.root (some 0)) fresh rfl rfl
        (userFrame image.entry image.stack image.argc image.argv)
      exact guarded_enrolled (k := withUserMemory s.kernel image.root image.memory) inside
        regular.here rfl joins rfl (joined_guarded shaped loaded.stacked
        loaded.frames joins fresh rfl rfl rfl outside frame .program
        (Or.inr ⟨rfl, userReturn_userFrame ..⟩))

private theorem guarded_boot (memory : Memory) (root : Root) (rsp0 : Word) (ticks : Nat) :
    Guarded (boot memory root rsp0 ticks) := by
  have bare : ∀ id, ((boot memory root rsp0 ticks).kernel.tasks id).stack = none ∧
      ((boot memory root rsp0 ticks).kernel.tasks id).addressSpace = none ∧
      ((boot memory root rsp0 ticks).kernel.tasks id).kernelStackTop = 0 := by
    intro id
    by_cases same : id = 0
    · subst same
      exact ⟨rfl, rfl, rfl⟩
    · simp [boot, Function.update_of_ne same, empty]
  refine ⟨⟨fun id base held => ?_, fun id j base base' _ held => ?_, fun id user => ?_, fun top => ?_⟩,
    fun id _ => .kernel, fun program => ?_⟩
  · simp [(bare id).1] at held
  · simp [(bare id).1] at held
  · simp [(bare id).2.1] at user
  · exact absurd (bare _).2.2 top
  · simp [boot] at program

private theorem guarded_unprivileged (guarded : Guarded s) : Unprivileged s := by
  intro id f live here
  have good := guarded.frames id live
  unfold returnFrame at here
  cases st : s.stage id with
  | kernel => simp [st] at here
  | gone => simp [st] at here
  | calling context written =>
      have kept := good.kept
      rw [st] at here kept
      exact Option.some.inj here ▸ kept.2
  | returning context result =>
      have kept := good.kept
      rw [st] at here kept
      exact Option.some.inj here ▸ kept.2
  | program =>
      rw [st] at here
      obtain rfl := Option.some.inj here
      by_cases same : id = s.current
      · rw [if_pos same]
        subst same
        exact guarded.now st
      · have saved := good.saved same
        rw [st] at saved
        rw [if_neg same]
        exact saved.2

/-- In every run in which handlers find room on the user's stack and `sigreturn`
is given a frame that returns to ring 3, every program's way back to ring 3 is
unprivileged: user segments, interrupts on, IOPL 0. -/
theorem frames_unprivileged (run : Reached step Booted Confined s) : Unprivileged s := by
  have both : Regular s.kernel s.stage ∧ Guarded s := by
    refine run.invariant (P := fun s => Regular s.kernel s.stage ∧ Guarded s) ?_ ?_
    · rintro _ ⟨memory, root, rsp0, ticks, rfl⟩
      exact ⟨regular_boot memory root rsp0 ticks, guarded_boot memory root rsp0 ticks⟩
    · rintro s e s' ⟨regular, guarded⟩ confined taken
      exact ⟨regular_step regular taken, guarded_step regular guarded confined taken⟩
  exact guarded_unprivileged both.2

end Runs

theorem serve_sigreturn {s : Machine} {context : Word} (env : Surroundings) (written : Nat)
    (number : readFrame s.kernel.view context frameRax = sysSigreturn) :
    (serve s env context written).kernel = restore s.kernel context ∧
      (serve s env context written).stage s.current =
        .returning context (readFrame (restore s.kernel context).view context frameRax) := by
  have call : handleAt s.kernel env context written =
      (.answers (readFrame (restore s.kernel context).view context frameRax),
        restore s.kernel context) := by
    simp only [handleAt, number]
    rfl
  constructor
  · simp only [serve, call]
  · simp only [serve, call, after, Function.update_self]

/-- `sigreturn` resumes its caller with exactly the words its stack pointer names,
RAX included, and writes nothing outside the trap frame. -/
theorem sigreturn_registers {s : Machine} (env : Surroundings) {context : Word} {written : Nat}
    (inside : s.stage s.current = .calling context written)
    (fresh : env.space.isSome → FreshStack s.kernel env.stack)
    (number : readFrame s.kernel.view context frameRax = sysSigreturn)
    (quiet : (s.kernel.tasks s.kernel.current).pending = 0) (fits : Fits context)
    (fits' : Fits (readFrame s.kernel.view context frameRsp))
    (apart : context.toNat + frameBytes ≤ (readFrame s.kernel.view context frameRsp).toNat ∨
      (readFrame s.kernel.view context frameRsp).toNat + frameBytes ≤ context.toNat) :
    ∃ s', runAll step s [.serve env, .leave] = some s' ∧ s'.current = s.current ∧
      s'.stage s'.current = .program ∧ s'.kernel.tasks = s.kernel.tasks ∧
      s'.registers = readFrame s.kernel.view (readFrame s.kernel.view context frameRsp) ∧
      ∀ a, Clear context.toNat frameBytes a → s'.kernel.view a = s.kernel.view a := by
  have loaded : readFrame (restore s.kernel context).view context =
      readFrame s.kernel.view (readFrame s.kernel.view context frameRsp) := by
    rw [restore, Kernel.storeView, Kernel.view, Memory.view_store, copyFrame_eq fits fits' apart,
      readFrame_writeFrame fits]
  obtain ⟨kernel, stage⟩ := serve_sigreturn env written number
  have served : step s (.serve env) = some (serve s env context written) := by
    simp only [step, inside]
    exact if_pos fresh
  have same : (serve s env context written).current = s.current := by
    rw [Machine.current, kernel]
    rfl
  have left : step (serve s env context written) .leave = some (leave (serve s env context written)
      context (readFrame (restore s.kernel context).view context frameRax)) := by
    simp only [step, same, stage]
  refine ⟨_, by rw [runAll, served, Option.bind_some, runAll, left]; rfl, ?_⟩
  have silent : delivered (serve s env context written).kernel context =
      (false, restore s.kernel context) := by
    rw [kernel, delivered]
    exact if_neg (not_not.mpr quiet)
  rw [leave_eq, silent]
  have view : (restore s.kernel context).memory.view (restore s.kernel context).activeRoot =
      (restore s.kernel context).view := rfl
  refine ⟨rfl, ?_, rfl, ?_, ?_⟩
  · simp only [moveTo, Machine.current, kernel]
    exact Function.update_self ..
  · simp only [Bool.false_eq_true, if_false, Kernel.view, Kernel.storeView, Memory.view_store]
    rw [readFrame_writeWord fits, view, loaded, Function.update_eq_self]
    rfl
  · intro a clear
    simp only [Bool.false_eq_true, if_false, moveTo, Kernel.view, Kernel.storeView,
      Memory.view_store]
    rw [writeWord_slot_outside fits _ _ clear, view, restore, Kernel.storeView, Kernel.view,
      Memory.view_store, copyFrame_outside fits clear]
    rfl

section Forgery

/-- User memory with a frame at `0x10f000` that is zero but for CS, RFLAGS and SS. -/
private def frameWith (cs ss : BitVec 8) : Bytes := fun x =>
  if x = 0x10f080 then cs else if x = 0x10f088 ∨ x = 0x10f089 then 2
  else if x = 0x10f098 then ss else 0

private def asking (cs ss : BitVec 8) : List Event :=
  (callWith sysSigreturn 0 0x10f000 (frameWith cs ss)).take 2

/-- A program hands `sigreturn` a kernel code segment and is given ring 0. -/
theorem sigreturn_grants_ring0 :
    ∃ s, Reached step Booted (fun _ _ => True) s ∧ ¬Unprivileged s := by
  obtain ⟨s, reached, facts⟩ := Reached.freely Booted ⟨_, _, _, _, rfl⟩
    (show ((runAll step started (launch ++ firstTick :: asking 0x08 0)).any fun s =>
      decide (s.stage s.current = .calling 0x444444450f60 0 ∧
        (s.kernel.tasks s.kernel.current).pending = 0 ∧
        readFrame s.kernel.view 0x444444450f60 frameRax = sysSigreturn ∧
        readFrame s.kernel.view 0x444444450f60 frameRsp = 0x10f000 ∧
        readFrame s.kernel.view 0x10f000 frameCs = 0x08 ∧
        (s.kernel.tasks s.current).state.Live)) = true by decide +kernel)
  obtain ⟨inside, quiet, number, stack, ring, live⟩ := of_decide_eq_true facts
  obtain ⟨s', taken, current, program, tasks, registers, -⟩ :=
    sigreturn_registers ⟨lowHalf, none, 0, none, []⟩ inside (by simp) number quiet (by decide)
      (by rw [stack]; decide) (by rw [stack]; decide)
  refine ⟨s', reached.runAll (allAllowed_of_forall (fun _ _ _ => trivial) _) taken,
    fun unprivileged => ?_⟩
  have user := unprivileged s'.current s'.registers (by rw [tasks, current]; exact live) (by
    unfold returnFrame
    rw [program]
    simp)
  have cs := user.1
  rw [registers, stack, ring] at cs
  exact absurd cs (by decide)

private theorem confined_quiet {s : Machine} {e : Event} (timer : timerFrame s e = none)
    (leave : e ≠ .leave) (serve : ∀ env, e ≠ .serve env) : Confined s e where
  timer a f here := by simp [timer] at here
  leave _ _ here := absurd here leave
  sigreturn env _ _ here := absurd here (serve env)

/-- A program returns through a frame like the one it was given, and stays in
ring 3. -/
theorem frames_unprivileged_sigreturn :
    ∃ s, Reached step Booted Confined s ∧ s.stage s.current = .program ∧ Unprivileged s := by
  have launched : Reached step Booted Confined ((runAll step started launch).get launched_some) := by
    refine Reached.runAll (.start ⟨_, _, _, _, rfl⟩) (allAllowed_of_forall (fun e member s => ?_) _)
      (Option.some_get launched_some).symm
    simp only [launch, List.mem_cons, List.not_mem_nil, or_false] at member
    rcases member with rfl | rfl <;> exact confined_quiet rfl (by simp) (by simp)
  have fair : allAllowed step Confined ((runAll step started launch).get launched_some)
      (firstTick :: asking 0x33 0x2b) := by
    refine ⟨⟨fun a f here => ?_, fun _ _ here => absurd here (by simp [firstTick]),
      fun _ _ _ here => absurd here (by simp [firstTick])⟩, fun s' _ => allAllowed_of_forall
        (fun e member s => ?_) _⟩
    · obtain ⟨rfl, rfl⟩ := Prod.mk.inj (Option.some.inj here)
      exact fun _ pending => absurd pending (by decide +kernel)
    · simp only [asking, callWith, List.take_succ_cons, List.take_zero, List.mem_cons,
        List.not_mem_nil, or_false] at member
      rcases member with rfl | rfl <;> exact confined_quiet rfl (by simp) (by simp)
  obtain ⟨s, taken, facts⟩ := (Option.any_eq_true ..).mp
    (show ((runAll step ((runAll step started launch).get launched_some)
      (firstTick :: asking 0x33 0x2b)).any fun s =>
        decide (s.stage s.current = .calling 0x444444450f60 0 ∧
          (s.kernel.tasks s.kernel.current).pending = 0 ∧
          readFrame s.kernel.view 0x444444450f60 frameRax = sysSigreturn ∧
          readFrame s.kernel.view 0x444444450f60 frameRsp = 0x10f000 ∧
          UserReturn (readFrame s.kernel.view 0x10f000))) = true by decide +kernel)
  have asked := launched.runAll fair taken
  obtain ⟨inside, quiet, number, stack, user⟩ := of_decide_eq_true facts
  obtain ⟨s', taken, current, program, tasks, -⟩ :=
    sigreturn_registers ⟨lowHalf, none, 0, none, []⟩ inside (by simp) number quiet (by decide)
      (by rw [stack]; decide) (by rw [stack]; decide)
  have confined : allAllowed step Confined s [.serve ⟨lowHalf, none, 0, none, []⟩, .leave] := by
    refine ⟨⟨by simp [timerFrame], by simp, ?_⟩, fun s₁ served => ⟨⟨by simp [timerFrame], ?_, by simp⟩,
      fun _ _ => trivial⟩⟩
    · intro env context written _ here _
      obtain ⟨rfl, -⟩ := Stage.calling.inj (inside.symm.trans here)
      rw [stack]
      exact ⟨by decide, user⟩
    · intro context result _ _ pending
      simp only [step, inside, Option.ite_none_right_eq_some, Option.some.injEq] at served
      obtain ⟨-, rfl⟩ := served
      rw [Machine.current, (serve_sigreturn _ 0 number).1] at pending
      exact absurd quiet pending
  have done := asked.runAll confined taken
  exact ⟨s', done, program, frames_unprivileged done⟩

end Forgery

end FiveAM.Process.TrapFrames
