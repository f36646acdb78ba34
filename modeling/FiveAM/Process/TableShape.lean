/- GID: FiveAM/Process/TableShape
   source: kernel/src/task.rs, kernel/src/syscall.rs
   digest: The shape the task table keeps in every run. -/

import FiveAM.Process.System
import FiveAM.Process.Effects

set_option autoImplicit false
set_option relaxedAutoImplicit false

namespace FiveAM.Process.TableShape

open FiveAM.Process.TaskTable FiveAM.Process.Machine FiveAM.Process.Pipes FiveAM.Process.Signals
open FiveAM.Process.Lifecycle FiveAM.Process.Syscalls FiveAM.Process.Schedule
open FiveAM.Process.System FiveAM.Process.Effects FiveAM.Lib.ByteMemory FiveAM.Lib.Runs

/-- The shape of the table in every reachable state: only programs' tasks have an
address space, a task inside its program or a call is live, and slot 0 is the
shell. -/
structure Regular (k : Kernel) (stage : TaskId → Stage) : Prop where
  on : k.enabled = true
  user : ∀ id, (k.tasks id).state.Live →
    (stage id ≠ .kernel ↔ (k.tasks id).addressSpace.isSome = true)
  running : stage k.current ≠ .kernel → stage k.current ≠ .gone → (k.tasks k.current).state.Live
  here : (k.tasks k.current).state ≠ .free
  shell : stage 0 = .kernel ∧ (k.tasks 0).state.Live

/-- Where the tasks' code stands when a call has left the table as `k'` and gone
on as `outcome` says. -/
def stagesAfter (k k' : Kernel) (stage : TaskId → Stage) (context : Word) (outcome : Outcome) :
    TaskId → Stage :=
  Function.update (fun id => if (k.tasks id).state = .free ∧ (k'.tasks id).state ≠ .free then
    .program else stage id) k.current (after context outcome)

theorem serve_eq (s : Machine) (env : Surroundings) (context : Word) (written : Nat) :
    serve s env context written =
      { s with
        kernel := (handleAt s.kernel env context written).2
        stage := stagesAfter s.kernel (handleAt s.kernel env context written).2 s.stage context
          (handleAt s.kernel env context written).1 } := rfl

section Operations

variable {k k' : Kernel} {stage : TaskId → Stage}

theorem stagesAfter_eq {context : Word} {outcome : Outcome}
    (vacant : ∀ id, (k.tasks id).state = .free → (k'.tasks id).state = .free) :
    stagesAfter k k' stage context outcome =
      Function.update stage k.current (after context outcome) := by
  unfold stagesAfter
  congr 1
  funext id
  exact if_neg fun both => both.2 (vacant id both.1)

theorem after_ne_kernel (context : Word) (outcome : Outcome) : after context outcome ≠ .kernel := by
  cases outcome <;> simp [after]

theorem Regular.tame {changed : Set TaskId} (regular : Regular k stage) (tame : Tame k k' changed) :
    Regular k' stage where
  on := tame.enabled.trans regular.on
  user id live := by
    rw [tame.space]
    exact regular.user id ((tame.live id).mp live)
  running := by
    rw [tame.current, tame.live]
    exact regular.running
  here := by
    rw [tame.current, ne_eq, tame.free]
    exact regular.here
  shell := ⟨regular.shell.1, (tame.live 0).mpr regular.shell.2⟩

theorem Regular.moved (regular : Regular k stage) (st : Stage) (user : stage k.current ≠ .kernel)
    (inside : st ≠ .kernel) (live : st ≠ .gone → (k.tasks k.current).state.Live) :
    Regular k (Function.update stage k.current st) where
  on := regular.on
  user id alive := by
    rw [← regular.user id alive]
    by_cases same : id = k.current
    · subst same
      simp only [Function.update_self, ne_eq, inside, user]
    · rw [Function.update_of_ne same]
  running := by
    simp only [Function.update_self]
    exact fun _ => live
  here := regular.here
  shell := by
    have other : (0 : TaskId) ≠ k.current := fun same => user (same ▸ regular.shell.1)
    rw [Function.update_of_ne other]
    exact regular.shell

private theorem Regular.ended (regular : Regular k stage) (id : TaskId) (task : Task)
    (dead : ¬task.state.Live) (other : id ≠ 0)
    (here : id = k.current → task.state ≠ .free ∧ (stage id = .kernel ∨ stage id = .gone)) :
    Regular (k.setTask id task) stage := by
  have at' : ∀ j, j ≠ id → (k.setTask id task).tasks j = k.tasks j := fun j apart => by
    simp only [Kernel.setTask, Function.update_of_ne apart]
  have self : (k.setTask id task).tasks id = task := by
    simp only [Kernel.setTask, Function.update_self]
  have current : (k.setTask id task).current = k.current := rfl
  refine ⟨regular.on, fun j live => ?_, fun user unfinished => ?_, ?_, regular.shell.1, ?_⟩
  · by_cases same : j = id
    · rw [same, self] at live
      exact absurd live dead
    · rw [at' j same] at live ⊢
      exact regular.user j live
  · rw [current] at user unfinished ⊢
    by_cases same : k.current = id
    · rcases (here same.symm).2 with kernel | gone
      · exact absurd (same ▸ kernel) user
      · exact absurd (same ▸ gone) unfinished
    · rw [at' _ same]
      exact regular.running user unfinished
  · rw [current]
    by_cases same : k.current = id
    · rw [same, self]
      exact (here same.symm).1
    · rw [at' _ same]
      exact regular.here
  · rw [at' 0 other.symm]
    exact regular.shell.2

theorem Regular.retire (regular : Regular k stage) (id : TaskId) (task : Task) (other : id ≠ 0)
    (ended : task.state = .finished) (idle : id = k.current → stage id = .kernel ∨ stage id = .gone) :
    Regular (k.setTask id task) stage :=
  regular.ended id task (by simp [ended, State.Live]) other
    fun same => ⟨by simp [ended], idle same⟩

theorem Regular.not_shell {id : TaskId} (regular : Regular k stage)
    (dead : ¬(k.tasks id).state.Live) : id ≠ 0 := fun zero => dead (zero ▸ regular.shell.2)

theorem Regular.emptied {id : TaskId} (regular : Regular k stage)
    (ceased : (k.tasks id).state = .finished) (other : id ≠ k.current) :
    Regular (emptySlot k id) stage := by
  have dead : ¬(k.tasks id).state.Live := by simp [ceased, State.Live]
  have zero := regular.not_shell dead
  exact (regular.ended id empty (by simp [empty, State.Live]) zero
    fun same => absurd same other).tame (.of_tasks ∅ rfl rfl rfl rfl)

theorem Regular.finished (regular : Regular k stage) (user : stage k.current ≠ .kernel) (code : Word) :
    Regular (finish k k.current code) (Function.update stage k.current .gone) := by
  have tame := tame_closeAllDescriptors k k.current
  have gone := (regular.tame tame).moved .gone (by rw [tame.current]; exact user) (by simp) (by simp)
  rw [tame.current] at gone
  have ended := gone.retire k.current
    { (closeAllDescriptors k k.current).tasks k.current with exitCode := code, state := .finished }
    (fun same => user (same ▸ regular.shell.1)) rfl (fun _ => Or.inr (Function.update_self ..))
  exact ended.tame (tame_wakeAll _ _ ∅)

theorem Regular.enrolled {id : TaskId} {task : Task} {m : Bytes} (regular : Regular k stage)
    (joins : Joins k k' id task m) (st : Stage) (ready : task.state = .ready)
    (kind : st ≠ .kernel ↔ task.addressSpace.isSome = true) :
    Regular k' (fun j => if (k.tasks j).state = .free ∧ (k'.tasks j).state ≠ .free then st
      else stage j) := by
  have other : k.current ≠ id := fun same => regular.here (same ▸ joins.vacant)
  have shell : (0 : TaskId) ≠ id := fun zero => regular.shell.2.1 (zero ▸ joins.vacant)
  have stages : ∀ j, j ≠ id → (if (k.tasks j).state = .free ∧ (k'.tasks j).state ≠ .free then st
      else stage j) = stage j := fun j apart => by
    rw [joins.other apart, if_neg fun both => both.2 both.1]
  refine ⟨joins.enabled.trans regular.on, fun j live => ?_, ?_, ?_, ?_, ?_⟩
  · by_cases same : j = id
    · rw [same, joins.self, if_pos ⟨joins.vacant, by simp [ready]⟩]
      exact kind
    · rw [stages j same, joins.other same] at *
      exact regular.user j live
  · rw [joins.current, stages _ other, joins.other other]
    exact regular.running
  · rw [joins.current, joins.other other]
    exact regular.here
  · rw [stages 0 shell]
    exact regular.shell.1
  · rw [joins.other shell]
    exact regular.shell.2

theorem Regular.shell_spared (regular : Regular k stage) (sp : Word) :
    ¬(Dies k sp ∧ (0 : TaskId) = chosen k sp) := by
  rintro ⟨dies, zero⟩
  obtain ⟨state, eq⟩ := saveCurrent_task k sp (chosen k sp)
  have user := dies.1
  rw [eq] at user
  exact (regular.user 0 regular.shell.2).mpr (zero ▸ user) regular.shell.1

theorem Regular.scheduled (regular : Regular k stage) (sp : Word) :
    Regular (schedule k sp).2 stage := by
  have task := schedule_task sp regular.on
  have shell : ((schedule k sp).2.tasks 0).state.Live :=
    (task 0).2.1.mpr ⟨regular.shell.2, regular.shell_spared sp⟩
  refine ⟨(schedule_rest sp regular.on).1, fun id live => ?_, ?_, ?_, regular.shell.1, shell⟩
  · rw [(task id).1.space]
    exact regular.user id ((task id).2.1.mp live).1
  · intro user unfinished
    rcases schedule_current sp regular.on with ready | zero | ⟨lives, same, -⟩
    · simp [ready, State.Live]
    · rw [zero]
      exact shell
    · rw [same] at user unfinished ⊢
      exact (task _).2.1.mpr ⟨regular.running user unfinished, fun both => lives both.1⟩
  · rcases schedule_current sp regular.on with ready | zero | ⟨lives, same, -⟩
    · simp [ready]
    · rw [zero]
      exact shell.1
    · rw [same]
      exact fun vacant => regular.here ((task _).2.2 vacant)

theorem finish_vacant (live : (k.tasks k.current).state.Live) (code : Word) (id : TaskId)
    (vacant : (k.tasks id).state = .free) :
    ((finish k k.current code).tasks id).state = .free := by
  have closed := tame_closeAllDescriptors k k.current
  have other : id ≠ k.current := fun same => live.1 (same ▸ vacant)
  unfold Pipes.finish
  rw [(tame_wakeAll _ _ ∅).free]
  simp only [Kernel.setTask, Function.update_of_ne other]
  exact (closed.free id).mpr vacant

theorem emptySlot_other {id j : TaskId} (apart : j ≠ id) : (emptySlot k id).tasks j = k.tasks j := by
  simp only [emptySlot, exited, Kernel.setTask, Function.update_of_ne apart]

theorem emptySlot_self (k : Kernel) (id : TaskId) : (emptySlot k id).tasks id = empty := by
  simp only [emptySlot, exited, Kernel.setTask, Function.update_self]

theorem emptySlot_vacant {id j : TaskId} (vacant : (k.tasks j).state = .free) :
    ((emptySlot k id).tasks j).state = .free := by
  by_cases same : j = id
  · rw [same, emptySlot_self]
    rfl
  · rw [emptySlot_other same]
    exact vacant

theorem Regular.waited {parent : TaskId} {r : Waiting (Option Word) × Kernel}
    (regular : Regular k stage) (live : (k.tasks k.current).state.Live) (run : WaitAny k parent r) :
    Regular r.2 stage := by
  cases run with
  | nothing => exact regular
  | @collected id child ceased orphans =>
      have plain : Regular { k with orphans := orphans } stage :=
        regular.tame (.of_tasks ∅ rfl rfl rfl rfl)
      exact plain.emptied ceased fun same => live.2 (same ▸ ceased)
  | asleep child => exact regular.tame (tame_park live _)

theorem waited_tasks {parent : TaskId} {r : Waiting (Option Word) × Kernel}
    (live : (k.tasks k.current).state.Live) (run : WaitAny k parent r) :
    r.2.current = k.current ∧ (r.2.tasks k.current).state.Live ∧
      ∀ id, (k.tasks id).state = .free → (r.2.tasks id).state = .free := by
  cases run with
  | nothing => exact ⟨rfl, live, fun _ vacant => vacant⟩
  | @collected id child ceased orphans =>
      have other : k.current ≠ id := fun same => live.2 (same ▸ ceased)
      refine ⟨rfl, ?_, fun j vacant => emptySlot_vacant vacant⟩
      rw [emptySlot_other (k := { k with orphans := orphans }) other]
      exact live
  | @asleep child waits =>
      have tame := tame_park live (Kernel.completion child)
      exact ⟨rfl, (tame.live _).mpr live, fun id => (tame.free id).mpr⟩

theorem takeSpace_cases (k : Kernel) (id : TaskId) :
    takeSpace k id = k ∨ ¬(k.tasks id).state.Live ∧ ∃ orphans, takeSpace k id =
      { k.setTask id { k.tasks id with addressSpace := none } with orphans := orphans } := by
  unfold takeSpace
  split_ifs with ceased
  · have dead : ¬(k.tasks id).state.Live := by
      rcases ceased with done | vacant
      · simp [done, State.Live]
      · simp [vacant, State.Live]
    split
    · exact Or.inr ⟨dead, _, rfl⟩
    · exact Or.inl rfl
  · exact Or.inl rfl

end Operations

section Calls

variable {k k' : Kernel} {stage : TaskId → Stage} (regular : Regular k stage)
  (user : stage k.current ≠ .kernel) (live : (k.tasks k.current).state.Live)

include regular user live

private theorem Regular.called {changed : Set TaskId} {context : Word} {outcome : Outcome}
    (tame : Tame k k' changed) : Regular k' (stagesAfter k k' stage context outcome) := by
  rw [stagesAfter_eq fun id => (tame.free id).mpr, ← tame.current]
  refine (regular.tame tame).moved _ (by rwa [tame.current]) (after_ne_kernel context outcome)
    fun _ => ?_
  rw [tame.current, tame.live]
  exact live

private theorem Regular.forked (env : Surroundings) (context : Word) (outcome : Outcome) :
    Regular (fork k env context).2 (stagesAfter k (fork k env context).2 stage context outcome) := by
  rcases fork_cases k env context with same | ⟨root, id, k', space, made, joins, pipes⟩
  · rw [same]
    exact Regular.called regular user live (Tame.refl k ∅)
  · rw [made]
    have copied : Regular (withUserMemory k root (k.memory.user k.activeRoot)) stage :=
      regular.tame (.of_tasks ∅ rfl rfl rfl rfl)
    have enrolled := copied.enrolled joins .program rfl (by simp [childTask])
    have other : k.current ≠ id := fun same => live.1 (same ▸ joins.vacant)
    have moved := enrolled.moved (after context outcome) ?_ (after_ne_kernel context outcome) ?_
    · rw [joins.current] at moved
      exact moved
    · rw [joins.current, if_neg fun both => live.1 both.1]
      exact user
    · rw [joins.current]
      intro _
      rw [show (withUserMemory k root (k.memory.user k.activeRoot)).current = k.current from rfl,
        joins.other other]
      exact live

private theorem Regular.handled (env : Surroundings) (written : Nat)
    (number arg0 arg1 arg2 context : Word) :
    Regular (handle k env written number arg0 arg1 arg2 context).2
      (stagesAfter k (handle k env written number arg0 arg1 arg2 context).2 stage context
        (handle k env written number arg0 arg1 arg2 context).1) := by
  refine handle_rule (P := fun r => Regular r.2 (stagesAfter k r.2 stage context r.1)) ?onExit
    ?onFork ?onExec ?onWait (fun _ _ io => Regular.called regular user live (tame_io live io))
    ?onPipe ?onDup2 ?onKill ?onSignal
    (fun _ => Regular.called regular user live (tame_storeView k _ ∅)) ?onClose
  case onExit =>
    intro _
    rw [stagesAfter_eq fun id vacant => finish_vacant live arg0 id vacant]
    exact regular.finished user arg0
  case onFork => exact fun _ => Regular.forked regular user live env context _
  case onExec =>
    intro _
    exact Regular.called regular user live
      (tame_exec ((regular.user _ live).mp user) env arg0 arg1 arg2 context)
  case onWait =>
    intro _
    have run := waitAnyChild_cases k k.current
    have waited : ∀ outcome, Regular (waitAnyChild k k.current).2
        (stagesAfter k (waitAnyChild k k.current).2 stage context outcome) := by
      intro outcome
      obtain ⟨current, alive, vacant⟩ := waited_tasks live run
      have moved := (regular.waited live run).moved (after context outcome) (by rwa [current])
        (after_ne_kernel _ _) fun _ => by rwa [current]
      rw [stagesAfter_eq vacant]
      rwa [current] at moved
    cases outcome : waitAnyChild k k.current with
    | mk waiting k' =>
        rw [outcome] at waited
        cases waiting with
        | done code => exact waited _
        | parked => exact waited _
  case onPipe => exact Regular.called regular user live (makePipe_cases k env.access arg0).tame
  case onDup2 => exact Regular.called regular user live (tame_duplicateDescriptor ..)
  case onKill => exact Regular.called regular user live (tame_signal ..)
  case onSignal => exact Regular.called regular user live (tame_setSignalHandler ..)
  case onClose => exact Regular.called regular user live (tame_closeDescriptor ..)

end Calls

/-- What `leave` has before it looks at the signal's verdict. -/
def delivered (k : Kernel) (context : Word) : Bool × Kernel :=
  if (k.tasks k.current).pending ≠ 0 then deliver k k.current context else (false, k)

theorem leave_eq (s : Machine) (context result : Word) :
    leave s context result =
      if (delivered s.kernel context).1 then
        moveTo s (finish (delivered s.kernel context).2 (delivered s.kernel context).2.current 128) .gone
      else
        let k := (delivered s.kernel context).2.storeView
          (writeWord (delivered s.kernel context).2.view (slot context frameRax) result)
        { moveTo s k .program with registers := readFrame k.view context } := rfl

theorem tame_delivered (k : Kernel) (context : Word) : Tame k (delivered k context).2 ∅ := by
  unfold delivered
  split_ifs
  · exact tame_deliver ..
  · exact Tame.refl _ ∅

theorem Regular.inside {s : Machine} (regular : Regular s.kernel s.stage)
    (user : s.stage s.current ≠ .kernel) (unfinished : s.stage s.current ≠ .gone) :
    s.stage s.kernel.current ≠ .kernel ∧ (s.kernel.tasks s.kernel.current).state.Live :=
  ⟨user, regular.running user unfinished⟩

private theorem Regular.left {s : Machine} {context result : Word}
    (regular : Regular s.kernel s.stage) (inside : s.stage s.current = .returning context result) :
    Regular (leave s context result).kernel (leave s context result).stage := by
  obtain ⟨user, live⟩ := regular.inside (by simp [inside]) (by simp [inside])
  have tame := tame_delivered s.kernel context
  have after := regular.tame tame
  have user' : s.stage (delivered s.kernel context).2.current ≠ .kernel := by
    rw [tame.current]
    exact user
  have live' : ((delivered s.kernel context).2.tasks (delivered s.kernel context).2.current).state.Live := by
    rw [tame.live, tame.current]
    exact live
  rw [leave_eq]
  split_ifs
  · have gone := after.finished user' 128
    simp only [moveTo, Machine.current, tame.current] at gone ⊢
    exact gone
  · have back := (after.tame (tame_storeView (delivered s.kernel context).2
      (writeWord (delivered s.kernel context).2.view (slot context frameRax) result) ∅)).moved
        .program user' (by simp) fun _ => live'
    simp only [moveTo, Machine.current]
    rw [← tame.current]
    exact back

theorem enroll_none {s : Machine} {k : Kernel} {st : Stage} (tasks : k.tasks = s.kernel.tasks) :
    (enroll s k st).stage = s.stage := by
  funext id
  simp only [enroll, tasks]
  exact if_neg fun both => both.2 both.1

private theorem Regular.reaped {k : Kernel} {stage : TaskId → Stage} (regular : Regular k stage)
    (running : (k.tasks k.current).state ≠ .finished) : Regular (reapFinished k) stage := by
  unfold reapFinished
  refine (List.foldlRecOn (motive := fun k' => Regular k' stage ∧
    (k'.tasks k'.current).state ≠ .finished) _ _ ⟨regular, running⟩ ?_).1
  rintro k' ⟨regular', running'⟩ id -
  split_ifs with ceased
  · have other : id ≠ k'.current := fun same => running' (same ▸ ceased)
    refine ⟨regular'.emptied ceased other, ?_⟩
    rw [show (emptySlot k' id).current = k'.current from rfl, emptySlot_other other.symm]
    exact running'
  · exact ⟨regular', running'⟩

private theorem Regular.spaceTaken {k : Kernel} {stage : TaskId → Stage} (regular : Regular k stage)
    (id : TaskId) : Regular (takeSpace k id) stage := by
  rcases takeSpace_cases k id with same | ⟨dead, orphans, eq⟩
  · rw [same]
    exact regular
  · rw [eq]
    have other : id ≠ 0 := regular.not_shell dead
    have idle : id = k.current → stage id = .kernel ∨ stage id = .gone := by
      intro same
      by_contra inside
      rw [same, not_or] at inside
      exact dead (same ▸ regular.running inside.1 inside.2)
    have ended := regular.ended id { k.tasks id with addressSpace := none } dead other
      fun same => ⟨same ▸ regular.here, idle same⟩
    exact ended.tame (.of_tasks ∅ rfl rfl rfl rfl)

theorem regular_boot (memory : Memory) (root : Root) (rsp0 : Word) (ticks : Nat) :
    Regular (boot memory root rsp0 ticks).kernel (boot memory root rsp0 ticks).stage := by
  refine ⟨rfl, fun id live => ?_, fun user => absurd rfl user, ?_, rfl, ?_⟩
  · by_cases same : id = 0
    · subst same
      simp [boot, empty]
    · simp [boot, Function.update_of_ne same, empty, State.Live] at live
  · simp [boot]
  · simp [boot, State.Live]

theorem regular_step {s s' : Machine} {e : Event} (regular : Regular s.kernel s.stage)
    (taken : step s e = some s') : Regular s'.kernel s'.stage := by
  have alive : InKernelTask s → (s.kernel.tasks s.kernel.current).state.Live :=
    fun inside => ⟨regular.here, inside.2⟩
  refine step_rule (P := fun s => Regular s.kernel s.stage) taken ?onCompute ?onCall ?onServe ?onLeave
    ?onTimer (fun _ _ => regular.tame (tame_signal ..)) (fun _ => regular.tame (tame_wakeAll _ _ ∅))
    (regular.tame (tame_noteStackFault ..)) (fun _ _ inside => regular.tame (tame_park (alive inside) _))
    (fun _ inside => regular.tame (tame_sleep (alive inside) _)) ?onEnd
    (fun _ => regular.tame (.of_tasks ∅ rfl rfl rfl rfl)) ?onSpawn ?onRun
    (fun _ inside => regular.waited (alive inside) (waitAnyChild_cases s.kernel 0))
    (fun _ inside => regular.reaped inside.2) ?onReclaim
  case onCompute => exact fun _ _ _ _ => regular.tame (.of_tasks ∅ rfl rfl rfl rfl)
  case onCall =>
    rintro ⟨program, -⟩
    obtain ⟨user, live⟩ := regular.inside (by simp [program]) (by simp [program])
    have pushed : Regular (pushFrame s.kernel (frameAt s.kernel.rsp0) s.registers) s.stage :=
      regular.tame (tame_storeView _ _ ∅)
    exact pushed.moved _ user (by simp) fun _ => live
  case onServe =>
    intro env context written _ inside _
    obtain ⟨user, live⟩ := regular.inside (by simp [inside]) (by simp [inside])
    have served : Regular (handleAt s.kernel env context written).2
        (stagesAfter s.kernel (handleAt s.kernel env context written).2 s.stage context
          (handleAt s.kernel env context written).1) :=
      Regular.handled regular user live env written _ _ _ _ context
    rw [serve_eq]
    exact served
  case onLeave => exact fun context result _ inside => regular.left inside
  case onTimer =>
    intro a f _ _
    have pushed : Regular (trapped s a f) s.stage := regular.tame (.of_tasks ∅ rfl rfl rfl rfl)
    exact pushed.scheduled a
  case onEnd =>
    intro _ inside other
    exact (regular.retire s.kernel.current { s.kernel.tasks s.kernel.current with
      exitCode := 0, state := .finished } other rfl fun _ => Or.inl inside.1).tame (tame_wakeAll _ _ ∅)
  case onSpawn =>
    intro stack entry priority _ _ _
    rcases spawnWithPriority_cases s.kernel stack entry priority with same | ⟨id, joins, -⟩
    · rw [same, enroll_none rfl]
      exact regular
    · exact regular.enrolled joins .kernel rfl (by simp [kernelTask])
  case onRun =>
    intro stack image _ _ _
    have loaded : Regular (withUserMemory s.kernel image.root image.memory) s.stage :=
      regular.tame (.of_tasks ∅ rfl rfl rfl rfl)
    rcases spawnUser_cases (withUserMemory s.kernel image.root image.memory) stack image.entry
      image.stack image.root (some 0) image.argc image.argv with same | ⟨id, joins, -⟩
    · rw [same, enroll_none (k := withUserMemory s.kernel image.root image.memory) rfl]
      exact loaded
    · exact loaded.enrolled joins .program rfl (by simp [programTask])
  case onReclaim =>
    intro _ _
    exact (List.foldlRecOn (motive := fun k => Regular k s.stage) (List.finRange maxTasks)
      takeSpace regular fun _ here id _ => here.spaceTaken id).tame (.of_tasks ∅ rfl rfl rfl rfl)

theorem regular_of_reached {s : Machine} {allowed : Machine → Event → Prop}
    (run : Reached step Booted allowed s) : Regular s.kernel s.stage := by
  refine run.invariant (P := fun s => Regular s.kernel s.stage) ?_ fun _ _ _ regular _ taken =>
    regular_step regular taken
  rintro _ ⟨memory, root, rsp0, ticks, rfl⟩
  exact regular_boot memory root rsp0 ticks

end FiveAM.Process.TableShape
