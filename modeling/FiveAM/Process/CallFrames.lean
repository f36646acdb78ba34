/- GID: FiveAM/Process/CallFrames
   source: kernel/src/syscall.rs, kernel/src/signal.rs, kernel/src/task.rs
   digest: What each system call does to the trap frame it was made through. -/

import FiveAM.Process.Resuming

set_option autoImplicit false
set_option relaxedAutoImplicit false

namespace FiveAM.Process.CallFrames

open FiveAM.Process.TaskTable FiveAM.Process.Machine FiveAM.Process.Pipes FiveAM.Process.Signals
open FiveAM.Process.Lifecycle FiveAM.Process.Syscalls FiveAM.Process.Schedule
open FiveAM.Process.System FiveAM.Process.Effects FiveAM.Process.TableShape
open FiveAM.Process.FrameMemory FiveAM.Process.KernelStacks FiveAM.Process.Resuming
open FiveAM.Lib.ByteMemory

private theorem finished_frames {k : Kernel} {stage : TaskId → Stage} (regular : Regular k stage)
    (stacked : Stacked k) (frames : Frames k stage) (code : Word) :
    Stacked (finish k k.current code) ∧
      Frames (finish k k.current code) (Function.update stage k.current .gone) ∧
      (finish k k.current code).current = k.current := by
  have closed := tame_closeAllDescriptors k k.current
  have still := frames.tame regular stacked closed (.of_memory (closeAllDescriptors_memory ..))
  have ended : Stacked ((closeAllDescriptors k k.current).setTask k.current
      { (closeAllDescriptors k k.current).tasks k.current with
        exitCode := code, state := .finished }) :=
    (stacked.tame closed).ended k.current _ (Or.inl rfl) (fun _ => rfl) fun space => ⟨space, rfl⟩
  have ceased := still.ended k.current { (closeAllDescriptors k k.current).tasks k.current with
    exitCode := code, state := .finished } (by simp [State.Live])
  have gone := ceased.moved .gone fun _ => trivial
  rw [show ((closeAllDescriptors k k.current).setTask k.current
    { (closeAllDescriptors k k.current).tasks k.current with
      exitCode := code, state := .finished }).current = k.current from closed.current] at gone
  exact ⟨ended.tame (tame_wakeAll _ _ ∅), gone.wakeAll _, closed.current⟩

section Calls

variable {k k' : Kernel} {stage : TaskId → Stage} {context base : Word} {written : Nat}

theorem trapKept_after {m : Bytes} {task : Task}
    (kept : context = frameAt task.kernelStackTop ∧ UserReturn (readFrame m context))
    (outcome : Outcome) : TrapKept m (after context outcome) task := by
  cases outcome with
  | answers result => exact kept
  | blocks count => exact kept
  | ends => trivial

private structure Served (k : Kernel) (stage : TaskId → Stage) (context : Word)
    (r : Outcome × Kernel) : Prop where
  stacked : Stacked r.2
  frames : Frames r.2 (stagesAfter k r.2 stage context r.1)
  current : r.2.current = k.current

variable (regular : Regular k stage) (stacked : Stacked k) (frames : Frames k stage)
  (inside : stage k.current = .calling context written)
  (live : (k.tasks k.current).state.Live) (placed : Placed (k.tasks k.current) base)

include regular stacked frames inside live placed

omit regular stacked placed in
private theorem calling_context : context = frameAt (k.tasks k.current).kernelStackTop ∧
    UserReturn (readFrame k.memory.kernel context) := by
  have kept := (frames _ live).kept
  rw [inside] at kept
  exact kept

private theorem served_tame {changed : Set TaskId} {outcome : Outcome} (tame : Tame k k' changed)
    (outside : ∀ x, userSpaceEnd ≤ x → Clear context.toNat frameBytes x →
      k'.memory.kernel x = k.memory.kernel x)
    (user : UserReturn (readFrame k'.memory.kernel context)) :
    Served k stage context (outcome, k') := by
  obtain ⟨here, -⟩ := calling_context frames inside live
  have on : OnStack context base := here ▸ placed.onStack
  refine ⟨stacked.tame tame, ?_, tame.current⟩
  rw [stagesAfter_eq fun id => (tame.free id).mpr]
  intro id alive
  have before := (tame.live id).mp alive
  by_cases same : id = k.current
  · subst same
    rw [Function.update_self, tame.current]
    refine ⟨trapKept_after ⟨?_, user⟩ outcome, fun parked => absurd rfl parked⟩
    rw [(tame.layout _).top]
    exact here
  · rw [Function.update_of_ne same, tame.current]
    refine (frames id before).carry regular stacked before (tame.layout id) fun base' held => ?_
    exact stacked.agree_apart same placed.stack held on outside

private theorem served_still {changed : Set TaskId} {outcome : Outcome} (tame : Tame k k' changed)
    (half : SameHalf k k') : Served k stage context (outcome, k') := by
  obtain ⟨here, user⟩ := calling_context frames inside live
  have on : OnStack context base := here ▸ placed.onStack
  refine served_tame regular stacked frames inside live placed tame (fun x high _ => half x high) ?_
  rw [placed.readFrame_agree on (stacked.agree half placed.stack)]
  exact user

omit inside placed in
private theorem served_exit (code : Word) :
    Served k stage context (.ends, finish k k.current code) := by
  obtain ⟨stacked', frames', current⟩ := finished_frames regular stacked frames code
  refine ⟨stacked', ?_, current⟩
  rw [stagesAfter_eq fun id vacant => finish_vacant live code id vacant]
  exact frames'

private theorem served_wait {r : Waiting (Option Word) × Kernel} (run : WaitAny k k.current r)
    (outcome : Outcome) : Served k stage context (outcome, r.2) := by
  obtain ⟨current, alive, vacant⟩ := waited_tasks live run
  cases run with
  | nothing =>
      exact served_still regular stacked frames inside live placed (Tame.refl k ∅) (.of_memory rfl)
  | @collected id child ceased orphans =>
      have tame : Tame k { k with orphans := orphans } ∅ := .of_tasks ∅ rfl rfl rfl rfl
      have other : id ≠ k.current := fun same => live.2 (same ▸ ceased)
      refine ⟨(stacked.tame tame).emptied other, ?_, rfl⟩
      rw [stagesAfter_eq vacant]
      have emptied := (frames.tame regular stacked tame (.of_memory rfl)).emptied id
      refine emptied.moved _ fun _ => ?_
      obtain ⟨here, user⟩ := calling_context frames inside live
      rw [show (emptySlot { k with orphans := orphans } id).current = k.current from rfl,
        emptySlot_other other.symm]
      exact trapKept_after ⟨here, user⟩ outcome
  | asleep waits =>
      exact served_still regular stacked frames inside live placed (tame_park live _) (.of_memory rfl)

private theorem served_sigreturn {outcome : Outcome}
    (low : (readFrame k.view context frameRsp).toNat + frameBytes ≤ userSpaceEnd)
    (user : UserReturn (readFrame k.view (readFrame k.view context frameRsp))) :
    Served k stage context (outcome, restore k context) := by
  obtain ⟨here, -⟩ := calling_context frames inside live
  have on : OnStack context base := here ▸ placed.onStack
  obtain ⟨fits, high⟩ := placed.fits on
  have source : Fits (readFrame k.view context frameRsp) := by
    unfold Fits
    unfold userSpaceEnd at low
    omega
  have copied := copyFrame_eq (m := k.view) fits source (Or.inr (by omega))
  refine served_tame regular stacked frames inside live placed (tame_storeView k _ ∅)
    (fun x above clear => ?_) ?_
  · rw [restore, Kernel.storeView, Memory.store_kernel above, copied, writeFrame_outside fits clear]
    exact Memory.view_kernel above
  · rw [restore, Kernel.storeView, placed.store_eq on, copied, readFrame_writeFrame fits]
    exact user

private theorem served_exec (env : Surroundings) (blob length count : Word) {outcome : Outcome} :
    Served k stage context (outcome, (exec k env blob length count context).2) := by
  have user : stage k.current ≠ .kernel := by simp [inside]
  have tame := tame_exec ((regular.user _ live).mp user) env blob length count context
  obtain ⟨here, returns⟩ := calling_context frames inside live
  have on : OnStack context base := here ▸ placed.onStack
  obtain ⟨fits, high⟩ := placed.fits on
  have unchanged : Served k stage context (outcome, k) :=
    served_still regular stacked frames inside live placed (Tame.refl k ∅) (.of_memory rfl)
  revert tame
  unfold exec
  split_ifs
  · exact fun _ => unchanged
  · split
    · exact fun _ => unchanged
    · rename_i image loaded
      intro tame
      refine served_tame regular stacked frames inside live placed tame (fun x above clear => ?_) ?_
      · simp only [Kernel.storeView]
        rw [Memory.store_kernel above, writeFrame_outside fits clear]
        exact Memory.view_kernel above
      · simp only [Kernel.storeView]
        rw [placed.store_eq on, readFrame_writeFrame fits]
        exact userReturn_userFrame ..

end Calls

theorem sameHalf_withUserMemory (k : Kernel) (root : Root) (m : Bytes) :
    SameHalf k (withUserMemory k root m) := fun _ _ => rfl

theorem tame_withUserMemory (k : Kernel) (root : Root) (m : Bytes) :
    Tame k (withUserMemory k root m) ∅ := .of_tasks ∅ rfl rfl rfl rfl

theorem zeroFill_outside {m : Bytes} {start size x : Nat} (clear : Clear start size x) :
    zeroFill m start size x = m x := by
  unfold Clear at clear
  unfold zeroFill
  rw [if_neg (by omega)]

section Joining

variable {k k' : Kernel} {stage : TaskId → Stage} {id : TaskId} {task : Task} {base : Word}

theorem freshFrame (task : Task) (fresh : FreshStack k base) (stack : task.stack = some base)
    (top : task.kernelStackTop = topOf base) (f : Frame) :
    let m := writeFrame (zeroFill k.view base.toNat stackSize) (frameAt (topOf base)) f
    readFrame m (frameAt (topOf base)) = f ∧
      ∀ x, userSpaceEnd ≤ x → Clear base.toNat stackSize x → m x = k.memory.kernel x := by
  have placed : Placed task base := ⟨stack, top, fresh.1, fresh.2.1⟩
  have on := placed.onStack
  rw [top] at on
  have fits := (placed.fits on).1
  refine ⟨readFrame_writeFrame fits, fun x high clear => ?_⟩
  have off : Clear (frameAt (topOf base)).toNat frameBytes x := by
    unfold OnStack at on
    unfold Clear at clear ⊢
    omega
  rw [writeFrame_outside fits off, zeroFill_outside clear]
  exact Memory.view_kernel high

theorem joined_guarded {m : Bytes} {f : Frame} (regular : Regular k stage) (stacked : Stacked k)
    (frames : Frames k stage) (joins : Joins k k' id task m) (fresh : FreshStack k base)
    (stack : task.stack = some base) (top : task.kernelStackTop = topOf base)
    (pointer : task.stackPointer = frameAt (topOf base))
    (outside : ∀ x, userSpaceEnd ≤ x → Clear base.toNat stackSize x → m x = k.memory.kernel x)
    (frame : readFrame m (frameAt (topOf base)) = f) (st : Stage)
    (start : st = .kernel ∨ st = .program ∧ UserReturn f) :
    Stacked k' ∧ Frames k' (fun j => if (k.tasks j).state = .free ∧ (k'.tasks j).state ≠ .free
      then st else stage j) := by
  refine ⟨stacked.joined regular joins fresh stack top,
    frames.joined regular stacked joins fresh st outside ?_⟩
  rcases start with rfl | ⟨rfl, user⟩
  · exact .kernel
  · have placed : Placed task base := ⟨stack, top, fresh.1, fresh.2.1⟩
    have on := placed.onStack
    rw [top] at on
    refine ⟨trivial, fun _ => ⟨by rw [pointer, top], ?_⟩⟩
    rw [pointer, joins.memory, placed.store_eq on, frame]
    exact user

theorem childFrame_spec (task : Task) {parent : Task} {base' context : Word} (fresh : FreshStack k base)
    (stack : task.stack = some base) (top : task.kernelStackTop = topOf base)
    (placed' : Placed parent base') (on' : OnStack context base')
    (apart : base.toNat + stackSize ≤ base'.toNat ∨ base'.toNat + stackSize ≤ base.toNat) :
    let m := childFrame (zeroFill k.view base.toNat stackSize) (frameAt (topOf base)) context
    readFrame m (frameAt (topOf base)) = Function.update (readFrame k.memory.kernel context) frameRax 0 ∧
      ∀ x, userSpaceEnd ≤ x → Clear base.toNat stackSize x → m x = k.memory.kernel x := by
  have placed : Placed task base := ⟨stack, top, fresh.1, fresh.2.1⟩
  have on := placed.onStack
  rw [top] at on
  obtain ⟨fits, -⟩ := placed.fits on
  obtain ⟨fits', -⟩ := placed'.fits on'
  have copied : copyFrame (zeroFill k.view base.toNat stackSize) (frameAt (topOf base)) context =
      writeFrame (zeroFill k.view base.toNat stackSize) (frameAt (topOf base))
        (readFrame (zeroFill k.view base.toNat stackSize) context) := by
    refine copyFrame_eq fits fits' ?_
    unfold OnStack at on on'
    omega
  have source : readFrame (zeroFill k.view base.toNat stackSize) context =
      readFrame k.memory.kernel context := by
    rw [← placed'.view_eq on' k.memory k.activeRoot]
    refine readFrame_congr fits' fun x low high => zeroFill_outside ?_
    unfold OnStack at on'
    unfold Clear
    omega
  obtain ⟨frame, outside⟩ := freshFrame task fresh stack top (readFrame k.memory.kernel context)
  simp only [childFrame, copied, source]
  refine ⟨?_, fun x high clear => ?_⟩
  · rw [readFrame_writeWord fits, frame]
  · have off : Clear (frameAt (topOf base)).toNat frameBytes x := by
      unfold OnStack at on
      unfold Clear at clear ⊢
      omega
    rw [writeWord_slot_outside fits _ _ off]
    exact outside x high clear

end Joining

private theorem served_fork {k : Kernel} {stage : TaskId → Stage} {context base : Word}
    {written : Nat} (regular : Regular k stage) (stacked : Stacked k) (frames : Frames k stage)
    (inside : stage k.current = .calling context written)
    (live : (k.tasks k.current).state.Live) (placed : Placed (k.tasks k.current) base)
    (env : Surroundings) (fresh : env.space.isSome → FreshStack k env.stack) (outcome : Outcome) :
    Served k stage context (outcome, (fork k env context).2) := by
  rcases fork_cases k env context with same | ⟨root, id, k', space, made, joins, -⟩
  · rw [same]
    exact served_still regular stacked frames inside live placed (Tame.refl k ∅) (.of_memory rfl)
  · rw [made]
    obtain ⟨here, user⟩ := calling_context frames inside live
    have on : OnStack context base := here ▸ placed.onStack
    have fresh := fresh (by rw [space]; rfl)
    have tame := tame_withUserMemory k root (k.memory.user k.activeRoot)
    have half := sameHalf_withUserMemory k root (k.memory.user k.activeRoot)
    have apart : env.stack.toNat + stackSize ≤ base.toNat ∨
        base.toNat + stackSize ≤ env.stack.toNat := by
      have off := fresh.2.2 k.current
      unfold OffStack at off
      rw [placed.stack] at off
      simpa using off
    obtain ⟨frame, outside⟩ := childFrame_spec
      (k := withUserMemory k root (k.memory.user k.activeRoot))
      (childTask (k.tasks id) (k.tasks k.current) k.current root env.stack) fresh rfl rfl
      placed on apart
    obtain ⟨stacked', frames'⟩ := joined_guarded (regular.tame tame) (stacked.tame tame)
      (frames.tame regular stacked tame half) joins fresh rfl rfl rfl outside frame .program
      (Or.inr ⟨rfl, user.update 0 (by decide) (by decide) (by decide)⟩)
    refine ⟨stacked', ?_, joins.current⟩
    have moved := frames'.moved (after context outcome) fun alive => ?_
    · rw [joins.current] at moved
      exact moved
    · have good := (frames' _ alive).kept
      beta_reduce at good
      rw [joins.current, if_neg fun both => live.1 both.1] at good
      rw [joins.current]
      have good : TrapKept k'.memory.kernel (stage k.current)
        (k'.tasks (withUserMemory k root (k.memory.user k.activeRoot)).current) := good
      rw [inside] at good
      exact trapKept_after good outcome

/-- Every handler that is entered finds room on the user stack, and every
`sigreturn` finds, in the user half, a frame that returns to ring 3 unprivileged. -/
structure Confined (s : Machine) (e : Event) : Prop where
  timer : ∀ a f, timerFrame s e = some (a, f) → TimerLands (trapped s a f) a
  leave : ∀ context result, e = .leave → s.stage s.current = .returning context result →
    Lands (s.kernel.tasks s.current) (readFrame s.kernel.view context)
  sigreturn : ∀ env context written, e = .serve env →
    s.stage s.current = .calling context written →
    readFrame s.kernel.view context frameRax = sysSigreturn →
    (readFrame s.kernel.view context frameRsp).toNat + frameBytes ≤ userSpaceEnd ∧
      UserReturn (readFrame s.kernel.view (readFrame s.kernel.view context frameRsp))

section Steps

variable {s : Machine}

private theorem served {k : Kernel} {stage : TaskId → Stage} {context base : Word} {written : Nat}
    (regular : Regular k stage) (stacked : Stacked k) (frames : Frames k stage)
    (inside : stage k.current = .calling context written)
    (live : (k.tasks k.current).state.Live) (placed : Placed (k.tasks k.current) base)
    (env : Surroundings) (fresh : env.space.isSome → FreshStack k env.stack)
    (number arg0 arg1 arg2 : Word)
    (confined : number = sysSigreturn →
      (readFrame k.view context frameRsp).toNat + frameBytes ≤ userSpaceEnd ∧
        UserReturn (readFrame k.view (readFrame k.view context frameRsp))) :
    Served k stage context (handle k env written number arg0 arg1 arg2 context) := by
  have still : ∀ {changed : Set TaskId} {outcome : Outcome} {k' : Kernel}, Tame k k' changed →
      SameHalf k k' → Served k stage context (outcome, k') := fun tame half =>
    served_still regular stacked frames inside live placed tame half
  refine handle_rule (P := Served k stage context)
    (fun _ => served_exit regular stacked frames live arg0)
    (fun _ => served_fork regular stacked frames inside live placed env fresh _)
    (fun _ => served_exec regular stacked frames inside live placed env arg0 arg1 arg2) ?onWait
    (fun _ _ io => still (tame_io live io) fun _ high => io_half io high) ?onPipe
    (still (tame_duplicateDescriptor ..) (.of_memory (duplicateDescriptor_memory ..)))
    (still (tame_signal ..) (.of_memory (signal_memory ..)))
    (still (tame_setSignalHandler ..) (.of_memory (setSignalHandler_memory ..))) ?onSigreturn
    (still (tame_closeDescriptor ..) (.of_memory (closeDescriptor_memory ..)))
  case onWait =>
    intro _
    have waited := served_wait regular stacked frames inside live placed
      (waitAnyChild_cases k k.current)
    cases outcome : waitAnyChild k k.current with
    | mk waiting k' =>
        rw [outcome] at waited
        cases waiting with
        | done code => exact waited _
        | parked => exact waited _
  case onPipe =>
    have run := makePipe_cases k env.access arg0
    exact still run.tame fun _ high => run.half high
  case onSigreturn =>
    intro called
    obtain ⟨low, user⟩ := confined called
    exact served_sigreturn regular stacked frames inside live placed low user

theorem guarded_serve (guarded : Guarded s) (regular : Regular s.kernel s.stage)
    {env : Surroundings} {context : Word} {written : Nat} (confined : Confined s (.serve env))
    (inside : s.stage s.current = .calling context written)
    (fresh : env.space.isSome → FreshStack s.kernel env.stack) :
    Guarded (serve s env context written) := by
  obtain ⟨user, live⟩ := regular.inside (by simp [inside]) (by simp [inside])
  obtain ⟨base, placed, -⟩ := guarded.stacked.current regular user live
  have results : Served s.kernel s.stage context (handleAt s.kernel env context written) :=
    served regular guarded.stacked guarded.frames inside live placed env fresh _ _ _ _
      (confined.sigreturn env context written rfl inside)
  rw [serve_eq]
  generalize handleAt s.kernel env context written = r at results
  refine ⟨results.stacked, results.frames, fun program => ?_⟩
  rw [results.current] at program
  unfold stagesAfter at program
  simp only [Function.update_self] at program
  cases outcome : r.1 <;> simp [after, outcome] at program

theorem guarded_call (guarded : Guarded s) (regular : Regular s.kernel s.stage)
    (program : InProgram s) :
    Guarded (moveTo s (pushFrame s.kernel (frameAt s.kernel.rsp0) s.registers)
      (.calling (frameAt s.kernel.rsp0) 0)) := by
  obtain ⟨user, live⟩ := regular.inside (by simp [program.1]) (by simp [program.1])
  obtain ⟨base, placed, rsp0⟩ := guarded.stacked.current regular user live
  have on := placed.onStack
  obtain ⟨written, outside⟩ := pushFrame_kernel (k := s.kernel) placed on s.registers
  rw [rsp0]
  have tame := tame_storeView s.kernel (writeFrame s.kernel.view
    (frameAt (s.kernel.tasks s.kernel.current).kernelStackTop) s.registers) ∅
  refine ⟨guarded.stacked.tame tame, fun id alive => ?_, fun here => ?_⟩
  · by_cases same : id = s.kernel.current
    · subst same
      simp only [moveTo, Machine.current, Function.update_self]
      refine ⟨⟨rfl, ?_⟩, fun parked => absurd rfl parked⟩
      rw [written]
      exact guarded.now program.1
    · simp only [moveTo, Machine.current, Function.update_of_ne same]
      exact (guarded.frames id alive).carry regular guarded.stacked alive (SameLayout.refl _)
        fun base' held => guarded.stacked.agree_apart same placed.stack held on outside
  · have moved : (moveTo s (pushFrame s.kernel
        (frameAt (s.kernel.tasks s.kernel.current).kernelStackTop) s.registers)
        (.calling (frameAt (s.kernel.tasks s.kernel.current).kernelStackTop) 0)).stage
          s.kernel.current = .calling (frameAt (s.kernel.tasks s.kernel.current).kernelStackTop) 0 :=
      Function.update_self ..
    exact absurd (moved.symm.trans here) (by simp)

private theorem delivered_kernel {k : Kernel} {task : Task} {base context : Word}
    (placed : Placed task base) (on : OnStack context base)
    (user : UserReturn (readFrame k.memory.kernel context))
    (lands : Lands (k.tasks k.current) (readFrame k.view context)) :
    UserReturn (readFrame (delivered k context).2.memory.kernel context) ∧
      ∀ x, userSpaceEnd ≤ x → Clear context.toNat frameBytes x →
        (delivered k context).2.memory.kernel x = k.memory.kernel x := by
  have unchanged : (delivered k context).2.memory = k.memory →
      UserReturn (readFrame (delivered k context).2.memory.kernel context) ∧
        ∀ x, userSpaceEnd ≤ x → Clear context.toNat frameBytes x →
          (delivered k context).2.memory.kernel x = k.memory.kernel x := by
    intro same
    rw [same]
    exact ⟨user, fun _ _ _ => rfl⟩
  by_cases quiet : (k.tasks k.current).pending ≠ 0
  · rcases deliver_memory k k.current context with same | ⟨pending, ring, spared, signal, handler,
      restorer, after⟩
    · refine unchanged ?_
      rw [delivered, if_pos quiet]
      exact same
    · obtain ⟨entered, outside⟩ := enterHandler_kernel k.memory k.activeRoot placed on
        (lands pending spared ring) signal handler restorer
      rw [delivered, if_pos quiet, after]
      exact ⟨entered user, outside⟩
  · refine unchanged ?_
    rw [delivered, if_neg quiet]

private theorem frames_delivered (guarded : Guarded s) (regular : Regular s.kernel s.stage)
    {context result base : Word} (inside : s.stage s.kernel.current = .returning context result)
    (live : (s.kernel.tasks s.kernel.current).state.Live)
    (placed : Placed (s.kernel.tasks s.kernel.current) base)
    (lands : Lands (s.kernel.tasks s.current) (readFrame s.kernel.view context)) :
    Frames (delivered s.kernel context).2 s.stage := by
  have kept := (guarded.frames _ live).kept
  rw [inside] at kept
  obtain ⟨here, returns⟩ := kept
  have on : OnStack context base := here ▸ placed.onStack
  obtain ⟨returns', outside⟩ := delivered_kernel placed on returns lands
  have tame := tame_delivered s.kernel context
  intro id alive
  have before := (tame.live id).mp alive
  rw [tame.current]
  by_cases same : id = s.kernel.current
  · subst same
    rw [inside]
    refine ⟨⟨?_, returns'⟩, fun parked => absurd rfl parked⟩
    rw [(tame.layout _).top]
    exact here
  · exact (guarded.frames id before).carry regular guarded.stacked before (tame.layout id)
      fun base' held => guarded.stacked.agree_apart same placed.stack held on outside

theorem guarded_leave (guarded : Guarded s) (regular : Regular s.kernel s.stage)
    {context result : Word} (inside : s.stage s.current = .returning context result)
    (lands : Lands (s.kernel.tasks s.current) (readFrame s.kernel.view context)) :
    Guarded (leave s context result) := by
  obtain ⟨user, live⟩ := regular.inside (by simp [inside]) (by simp [inside])
  obtain ⟨base, placed, -⟩ := guarded.stacked.current regular user live
  have frames := frames_delivered guarded regular inside live placed lands
  have tame := tame_delivered s.kernel context
  have stacked := guarded.stacked.tame tame
  have current : s.current = (delivered s.kernel context).2.current := tame.current.symm
  rw [leave_eq]
  split_ifs
  · obtain ⟨stacked', frames', same⟩ := finished_frames (regular.tame tame) stacked frames 128
    simp only [moveTo, current]
    refine ⟨stacked', frames', fun program => ?_⟩
    have gone : Function.update s.stage (delivered s.kernel context).2.current .gone
        (delivered s.kernel context).2.current = .gone := Function.update_self ..
    rw [same] at program
    exact absurd (gone.symm.trans program) (by simp)
  · have alive : ((delivered s.kernel context).2.tasks
        (delivered s.kernel context).2.current).state.Live := by
      rw [tame.live, tame.current]
      exact live
    have kept := (frames _ alive).kept
    rw [← current, inside] at kept
    obtain ⟨here, returns⟩ := kept
    have placed' := placed.layout (tame.layout s.kernel.current)
    have on : OnStack context base := here ▸ placed'.onStack
    obtain ⟨fits, -⟩ := placed'.fits on
    have stored : ∀ x, userSpaceEnd ≤ x → Clear context.toNat frameBytes x →
        ((delivered s.kernel context).2.storeView (writeWord (delivered s.kernel context).2.view
          (slot context frameRax) result)).memory.kernel x =
            (delivered s.kernel context).2.memory.kernel x := by
      intro x above clear
      rw [Kernel.storeView, Memory.store_kernel above, writeWord_slot_outside fits _ _ clear]
      exact Memory.view_kernel above
    refine ⟨stacked.tame (tame_storeView _ _ ∅), fun id lives => ?_, fun _ => ?_⟩
    · simp only [moveTo, current]
      by_cases same : id = (delivered s.kernel context).2.current
      · rw [same, Function.update_self]
        exact ⟨trivial, fun parked => absurd rfl parked⟩
      · rw [Function.update_of_ne same]
        have placed'' : Placed ((delivered s.kernel context).2.tasks
            (delivered s.kernel context).2.current) base := current ▸ placed'
        exact (frames id lives).carry (regular.tame tame) stacked lives (SameLayout.refl _)
          fun base' held => stacked.agree_apart same placed''.stack held on stored
    · simp only [Kernel.view, Kernel.storeView, Memory.view_store]
      rw [readFrame_writeWord fits, placed'.view_eq on]
      exact returns.update result (by decide) (by decide) (by decide)

end Steps

end FiveAM.Process.CallFrames
