/- GID: FiveAM/Process/PipeCounts
   source: kernel/src/pipe.rs, kernel/src/task.rs, kernel/src/syscall.rs
   digest: A pipe's end counts against the descriptors of live tasks, over whole runs. -/

import FiveAM.Process.PipeEnds
import FiveAM.Process.TableShape

set_option autoImplicit false
set_option relaxedAutoImplicit false

namespace FiveAM.Process.PipeCounts

open FiveAM.Process.TaskTable FiveAM.Process.Machine FiveAM.Process.Pipes FiveAM.Process.Signals
open FiveAM.Process.Lifecycle FiveAM.Process.Syscalls FiveAM.Process.Schedule
open FiveAM.Process.System FiveAM.Process.Effects FiveAM.Process.TableShape
open FiveAM.Process.PipeEnds FiveAM.Lib.Runs FiveAM.Lib.ByteMemory

/-- The descriptor slots of live tasks that hold `d`. -/
def holders (tasks : Tasks) (d : Descriptor) : Nat :=
  (Finset.univ.filter fun x : TaskId × Fin maxFiles =>
    (tasks x.1).state.Live ∧ (tasks x.1).files x.2 = d).card

/-- Every pipe's counts are the descriptors that hold its ends, and it is in use
exactly while there are any. -/
def Exact (k : Kernel) : Prop :=
  ∀ p, (k.pipes p).readers = holders k.tasks (.pipeRead p) ∧
    (k.pipes p).writers = holders k.tasks (.pipeWrite p) ∧
    ((k.pipes p).used = true ↔ (k.pipes p).readers ≠ 0 ∨ (k.pipes p).writers ≠ 0)

/-- The invariant behind exact counts: they balance, and tasks that are over and
kernel tasks hold no pipe end. -/
private structure Ledger (k : Kernel) : Prop where
  balanced : Balanced k []
  clean : ∀ id, ¬(k.tasks id).state.Live ∨ (k.tasks id).addressSpace.isSome = false →
    NoEnds (k.tasks id).files

section Operations

variable {k k' : Kernel} {stage : TaskId → Stage}

private theorem Ledger.vacant (ledger : Ledger k) (id : TaskId)
    (dead : ¬(k.tasks id).state.Live) : NoEnds (k.tasks id).files := ledger.clean id (Or.inl dead)

private theorem Ledger.tame {changed : Set TaskId} (ledger : Ledger k) (tame : Tame k k' changed)
    (balanced : Balanced k' [])
    (alive : ∀ id ∈ changed, (k.tasks id).state.Live ∧ (k.tasks id).addressSpace.isSome = true) :
    Ledger k' where
  balanced := balanced
  clean id ceased := by
    rw [tame.live, tame.space] at ceased
    rw [tame.files id fun member => ?_]
    · exact ledger.clean id ceased
    · obtain ⟨live, user⟩ := alive id member
      rcases ceased with dead | kernel
      · exact dead live
      · simp [user] at kernel

private theorem Ledger.quiet (ledger : Ledger k) (tame : Tame k k' ∅) (pipes : k'.pipes = k.pipes) :
    Ledger k' :=
  ledger.tame tame (ledger.balanced.of_same (fun id => tame.files id (Set.notMem_empty id)) pipes)
    fun _ member => absurd member (Set.notMem_empty _)

private theorem Ledger.replaced (ledger : Ledger k) (id : TaskId) (task : Task)
    (vacant : NoEnds (k.tasks id).files) (none : NoEnds task.files) : Ledger (k.setTask id task) := by
  refine ⟨ledger.balanced.replace id task vacant none, fun j ceased => ?_⟩
  by_cases same : j = id
  · subst same
    simpa only [Kernel.setTask, Function.update_self] using none
  · simp only [Kernel.setTask, Function.update_of_ne same] at ceased ⊢
    exact ledger.clean j ceased

private theorem Ledger.wakeAll (ledger : Ledger k) (channel : Word) : Ledger (k.wakeAll channel) :=
  ledger.quiet (tame_wakeAll k channel ∅) rfl

private theorem Ledger.finished (ledger : Ledger k) (live : (k.tasks k.current).state.Live)
    (space : (k.tasks k.current).addressSpace.isSome = true) (code : Word) :
    Ledger (finish k k.current code) := by
  have closed := ledger.tame (tame_closeAllDescriptors k k.current)
    (ledger.balanced.closeAllDescriptors k.current)
    fun id member => by rw [Set.mem_singleton_iff.mp member]; exact ⟨live, space⟩
  have none := closeAllDescriptors_noEnds k k.current
  exact (closed.replaced k.current { (closeAllDescriptors k k.current).tasks k.current with
    exitCode := code, state := .finished } none none).wakeAll _

private theorem noEnds_empty : NoEnds empty.files := fun fd p => ⟨by simp [empty], by simp [empty]⟩

private theorem Ledger.emptied {id : TaskId} (ledger : Ledger k)
    (ceased : (k.tasks id).state = .finished) : Ledger (emptySlot k id) := by
  have vacant := ledger.vacant id (by simp [ceased, State.Live])
  exact (ledger.replaced id empty vacant noEnds_empty).quiet (.of_tasks ∅ rfl rfl rfl rfl) rfl

private theorem Ledger.enrolled {id : TaskId} {task : Task} {m : Bytes} (ledger : Ledger k)
    (joins : Joins k k' id task m) (ready : task.state = .ready)
    (empty : task.addressSpace.isSome = false → NoEnds task.files) (balanced : Balanced k' []) :
    Ledger k' := by
  refine ⟨balanced, fun j ceased => ?_⟩
  by_cases same : j = id
  · rw [same, joins.self] at ceased ⊢
    rcases ceased with dead | kernel
    · exact absurd (by simp [ready, State.Live]) dead
    · exact empty kernel
  · rw [joins.other same] at ceased ⊢
    exact ledger.clean j ceased

private theorem Ledger.scheduled (ledger : Ledger k) (on : k.enabled = true) (sp : Word)
    (spared : Dies k sp → NoEnds (k.tasks (chosen k sp)).files) : Ledger (schedule k sp).2 := by
  have task := schedule_task sp on
  have files : ∀ id, ((schedule k sp).2.tasks id).files = (k.tasks id).files :=
    fun id => (task id).1.files
  refine ⟨ledger.balanced.of_same files (schedule_rest sp on).2.1, fun id ceased => ?_⟩
  rw [files]
  rw [(task id).2.1, (task id).1.space] at ceased
  by_cases killed : Dies k sp ∧ id = chosen k sp
  · rw [killed.2]
    exact spared killed.1
  · exact ledger.clean id (ceased.imp (fun dead live => dead ⟨live, killed⟩) fun kernel => kernel)

private theorem Ledger.waited {parent : TaskId} {r : Waiting (Option Word) × Kernel}
    (ledger : Ledger k) (live : (k.tasks k.current).state.Live) (run : WaitAny k parent r) :
    Ledger r.2 := by
  cases run with
  | nothing => exact ledger
  | @collected id child ceased orphans =>
      have plain : Ledger { k with orphans := orphans } :=
        ledger.quiet (.of_tasks ∅ rfl rfl rfl rfl) rfl
      exact plain.emptied ceased
  | asleep child => exact ledger.quiet (tame_park live _) rfl

private theorem Ledger.io (ledger : Ledger k) (live : (k.tasks k.current).state.Live)
    (io : Io k k') : Ledger k' := by
  induction io with
  | none => exact ledger
  | @pipe k₁ _ p pipe same ih =>
      refine ih.tame (tame_setPipe _ p pipe ∅) (ih.balanced.setPipe ?_ ?_ ?_ fun _ _ => ⟨rfl, rfl⟩)
        fun _ member => absurd member (Set.notMem_empty _)
      · rw [same.readers]
      · rw [same.writers]
      · rw [same.used, same.readers, same.writers]
        exact ih.balanced.used p
  | store _ _ _ low ih => exact ih.quiet (tame_storeView _ _ ∅) rfl
  | wake _ channel ih => exact ih.wakeAll channel
  | @park k₁ prior channel ih =>
      have tame := tame_io live prior
      refine ih.quiet (tame_park ?_ channel) rfl
      rw [tame.live, tame.current]
      exact live

private theorem exec_pipes (k : Kernel) (env : Surroundings) (blob length count context : Word) :
    (exec k env blob length count context).2.pipes = k.pipes := by
  unfold exec
  split_ifs
  · rfl
  · split <;> rfl

private theorem Ledger.forked (ledger : Ledger k) (env : Surroundings) (context : Word) :
    Ledger (fork k env context).2 := by
  rcases fork_cases k env context with same | ⟨root, id, k', space, made, joins, pipes⟩
  · rw [same]
    exact ledger
  · rw [made]
    have copied : Ledger (withUserMemory k root (k.memory.user k.activeRoot)) :=
      ledger.quiet (.of_tasks ∅ rfl rfl rfl rfl) rfl
    refine copied.enrolled joins rfl (by simp [childTask]) ?_
    have vacant : (k.tasks id).state = .free := joins.vacant
    have empty := ledger.vacant id (by simp [vacant, State.Live])
    have shared := ledger.balanced.shareFold (List.ofFn (k.tasks k.current).files) fun d member => by
      obtain ⟨fd, held⟩ := (List.mem_ofFn ..).mp member
      exact descriptor_listed held
    have tasks : ((List.ofFn (k.tasks k.current).files).foldl shareDescriptor k).tasks = k.tasks := by
      rw [shareFold_eq]
    have joined := Balanced.adopt id
      (childTask (k.tasks id) (k.tasks k.current) k.current root env.stack) shared
      (by rw [tasks]; exact empty)
    refine joined.of_same (fun j => ?_) pipes
    rw [joins.tasks]
    simp only [Kernel.setTask, tasks]
    rfl

end Operations

section Calls

variable {k k' : Kernel} {stage : TaskId → Stage} (ledger : Ledger k)
  (live : (k.tasks k.current).state.Live)
  (space : (k.tasks k.current).addressSpace.isSome = true)

include ledger live space

private theorem Ledger.called (tame : Tame k k' {k.current}) (balanced : Balanced k' []) :
    Ledger k' :=
  ledger.tame tame balanced fun id member => by
    rw [Set.mem_singleton_iff.mp member]
    exact ⟨live, space⟩

private theorem Ledger.handled (env : Surroundings) (written : Nat)
    (number arg0 arg1 arg2 context : Word) :
    Ledger (handle k env written number arg0 arg1 arg2 context).2 := by
  refine handle_rule (P := fun r => Ledger r.2) (fun _ => ledger.finished live space arg0)
    (fun _ => ledger.forked env context) ?onExec ?onWait (fun _ _ io => ledger.io live io) ?onPipe ?onDup2
    ?onKill ?onSignal (fun _ => ledger.quiet (tame_storeView ..) rfl) ?onClose
  case onExec =>
    intro _
    exact ledger.quiet (tame_exec space env arg0 arg1 arg2 context) (exec_pipes ..)
  case onWait =>
    intro _
    have waited := ledger.waited live (waitAnyChild_cases k k.current)
    cases outcome : waitAnyChild k k.current with
    | mk waiting k' =>
        rw [outcome] at waited
        cases waiting with
        | done code => exact waited
        | parked => exact waited
  case onPipe =>
    have run := makePipe_cases k env.access arg0
    exact Ledger.called ledger live space run.tame (ledger.balanced.makePipe run)
  case onDup2 =>
    exact Ledger.called ledger live space (tame_duplicateDescriptor ..)
      (ledger.balanced.duplicateDescriptor ..)
  case onKill =>
    refine ledger.quiet (tame_signal ..) ?_
    simp only [answerIf, signal]
    split_ifs <;> rfl
  case onSignal =>
    refine ledger.quiet (tame_setSignalHandler ..) ?_
    simp only [answerIf, setSignalHandler]
    split_ifs <;> rfl
  case onClose =>
    exact Ledger.called ledger live space (tame_closeDescriptor ..)
      (ledger.balanced.closeDescriptor ..)

end Calls

/-- If the timer kills a task on the spot, that task holds no pipe end. -/
def Spares (s : Machine) (e : Event) : Prop :=
  ∀ a f, timerFrame s e = some (a, f) → Dies (trapped s a f) a →
    NoEnds (s.kernel.tasks (chosen (trapped s a f) a)).files

private theorem Ledger.left {s : Machine} {context result : Word} (ledger : Ledger s.kernel)
    (live : (s.kernel.tasks s.kernel.current).state.Live)
    (space : (s.kernel.tasks s.kernel.current).addressSpace.isSome = true) :
    Ledger (leave s context result).kernel := by
  have tame := tame_delivered s.kernel context
  have pipes : (delivered s.kernel context).2.pipes = s.kernel.pipes := by
    unfold delivered
    split_ifs
    · obtain ⟨pending, memory, eq⟩ := deliver_changes s.kernel s.kernel.current context
      rw [eq]
      rfl
    · rfl
  have after := ledger.quiet tame pipes
  rw [leave_eq]
  split_ifs
  · rw [← tame.current] at live space
    exact after.finished ((tame.live _).mpr live) ((tame.space _).trans space) 128
  · exact after.quiet (tame_storeView _ _ ∅) rfl

private theorem Ledger.reaped {k : Kernel} (ledger : Ledger k) : Ledger (reapFinished k) := by
  unfold reapFinished
  refine List.foldlRecOn (motive := Ledger) _ _ ledger fun k' ledger' id _ => ?_
  split_ifs with ceased
  · exact ledger'.emptied ceased
  · exact ledger'

private theorem Ledger.spaceTaken {k : Kernel} (ledger : Ledger k) (id : TaskId) :
    Ledger (takeSpace k id) := by
  rcases takeSpace_cases k id with same | ⟨dead, orphans, eq⟩
  · rw [same]
    exact ledger
  · rw [eq]
    have held := ledger.vacant id dead
    exact (ledger.replaced id { k.tasks id with addressSpace := none } held held).quiet
      (.of_tasks ∅ rfl rfl rfl rfl) rfl

private theorem Ledger.spawned {k : Kernel} (ledger : Ledger k) (stack entry : Word)
    (priority : Fin 256) : Ledger (spawnWithPriority k stack entry priority).2 := by
  rcases spawnWithPriority_cases k stack entry priority with same | ⟨id, joins, pipes⟩
  · rw [same]
    exact ledger
  · have empty := ledger.vacant id (by simp [joins.vacant, State.Live])
    refine ledger.enrolled joins rfl (fun _ => empty) ((ledger.balanced.replace id
      (kernelTask (k.tasks id) stack priority) empty empty).of_same (fun j => ?_) pipes)
    rw [joins.tasks]
    rfl

private theorem Ledger.launched {k : Kernel} (ledger : Ledger k) (stack : Word) (image : Image) :
    Ledger (spawnUser k stack image.entry image.stack image.root (some 0) image.argc image.argv).2 := by
  rcases spawnUser_cases k stack image.entry image.stack image.root (some 0) image.argc image.argv
    with same | ⟨id, joins, pipes⟩
  · rw [same]
    exact ledger
  · have empty := ledger.vacant id (by simp [joins.vacant, State.Live])
    have console : NoEnds consoleFiles := fun fd p => by
      unfold consoleFiles
      split_ifs <;> simp
    refine ledger.enrolled joins rfl (by simp [programTask]) ((ledger.balanced.replace id
      (programTask (k.tasks id) stack image.root (some 0)) empty console).of_same (fun j => ?_) pipes)
    rw [joins.tasks]
    rfl

private theorem ledger_step {s s' : Machine} {e : Event} (regular : Regular s.kernel s.stage)
    (ledger : Ledger s.kernel) (spared : Spares s e) (taken : step s e = some s') :
    Ledger s'.kernel := by
  have alive : InKernelTask s → (s.kernel.tasks s.kernel.current).state.Live :=
    fun inside => ⟨regular.here, inside.2⟩
  have plain : ∀ {k : Kernel}, Tame s.kernel k ∅ → k.pipes = s.kernel.pipes → Ledger k :=
    fun tame pipes => ledger.quiet tame pipes
  refine step_rule (P := fun s => Ledger s.kernel) taken
    (fun _ _ _ _ => plain (.of_tasks ∅ rfl rfl rfl rfl) rfl)
    (fun _ => plain (.of_tasks ∅ rfl rfl rfl rfl) rfl) ?onServe ?onLeave ?onTimer ?onInterrupt
    (fun channel => ledger.wakeAll channel) (plain (tame_noteStackFault ..) rfl)
    (fun _ _ inside => plain (tame_park (alive inside) _) rfl)
    (fun _ inside => plain (tame_sleep (alive inside) _) rfl) ?onEnd
    (fun _ => plain (.of_tasks ∅ rfl rfl rfl rfl) rfl)
    (fun stack entry priority _ _ _ => ledger.spawned stack entry priority) ?onRun
    (fun _ inside => ledger.waited (alive inside) (waitAnyChild_cases s.kernel 0))
    (fun _ _ => ledger.reaped) ?onReclaim
  case onServe =>
    intro env context written _ inside _
    obtain ⟨user, live⟩ := regular.inside (by simp [inside]) (by simp [inside])
    exact Ledger.handled ledger live ((regular.user _ live).mp user) env written _ _ _ _ context
  case onLeave =>
    intro context result _ inside
    obtain ⟨user, live⟩ := regular.inside (by simp [inside]) (by simp [inside])
    exact ledger.left live ((regular.user _ live).mp user)
  case onTimer =>
    intro a f here _
    have pushed : Ledger (trapped s a f) := plain (.of_tasks ∅ rfl rfl rfl rfl) rfl
    exact pushed.scheduled regular.on a (spared a f here)
  case onInterrupt =>
    intro id number
    refine plain (tame_signal ..) ?_
    simp only [signal]
    split_ifs <;> rfl
  case onEnd =>
    intro _ inside other
    have kernel : (s.kernel.tasks s.kernel.current).addressSpace.isSome = false := by
      rw [Bool.eq_false_iff]
      exact fun held => (regular.user _ (alive inside)).mpr held inside.1
    have none := ledger.clean _ (Or.inr kernel)
    exact (ledger.replaced s.kernel.current { s.kernel.tasks s.kernel.current with
      exitCode := 0, state := .finished } none none).wakeAll _
  case onRun =>
    intro stack image _ _ _
    have loaded : Ledger (withUserMemory s.kernel image.root image.memory) :=
      plain (.of_tasks ∅ rfl rfl rfl rfl) rfl
    exact loaded.launched stack image
  case onReclaim =>
    intro _ _
    exact (List.foldlRecOn (motive := Ledger) (List.finRange maxTasks) takeSpace ledger
      fun _ here id _ => here.spaceTaken id).quiet (.of_tasks ∅ rfl rfl rfl rfl) rfl

private theorem ledger_boot (memory : Memory) (root : Root) (rsp0 : Word) (ticks : Nat) :
    Ledger (boot memory root rsp0 ticks).kernel := by
  have plain : ∀ id, NoEnds ((boot memory root rsp0 ticks).kernel.tasks id).files := by
    intro id fd p
    by_cases same : id = 0
    · subst same
      exact ⟨by simp [boot, empty], by simp [boot, empty]⟩
    · simp [boot, Function.update_of_ne same, empty]
  have none : ∀ d, IsEnd d → listed (boot memory root rsp0 ticks).kernel.tasks d = 0 :=
    fun d pipeEnd => Finset.sum_eq_zero fun id _ => entries_of_noEnds (plain id) pipeEnd
  refine ⟨⟨fun p => ?_, fun p => ?_, fun p => by simp [boot, Pipe.empty]⟩, fun id _ => plain id⟩
  · rw [none _ ⟨p, Or.inl rfl⟩]
    rfl
  · rw [none _ ⟨p, Or.inr rfl⟩]
    rfl

private theorem Ledger.exact {k : Kernel} (ledger : Ledger k) : Exact k := by
  have same : ∀ d, IsEnd d → holders k.tasks d = listed k.tasks d := by
    intro d pipeEnd
    have inside : ∀ x : TaskId × Fin maxFiles,
        (k.tasks x.1).state.Live ∧ (k.tasks x.1).files x.2 = d ↔ (k.tasks x.1).files x.2 = d := by
      intro x
      refine and_iff_right_of_imp fun held => ?_
      by_contra dead
      obtain ⟨p, rfl | rfl⟩ := pipeEnd
      · exact (ledger.clean x.1 (Or.inl dead) x.2 p).1 held
      · exact (ledger.clean x.1 (Or.inl dead) x.2 p).2 held
    simp only [holders, inside, Finset.card_filter, Fintype.sum_prod_type, listed, entries]
  intro p
  refine ⟨?_, ?_, ledger.balanced.used p⟩
  · rw [same _ ⟨p, Or.inl rfl⟩]
    simpa using ledger.balanced.readers p
  · rw [same _ ⟨p, Or.inr rfl⟩]
    simpa using ledger.balanced.writers p

private theorem ledger_of_reached {s : Machine} (run : Reached step Booted Spares s) :
    Ledger s.kernel := by
  refine (run.invariant (P := fun s => Regular s.kernel s.stage ∧ Ledger s.kernel) ?_ ?_).2
  · rintro _ ⟨memory, root, rsp0, ticks, rfl⟩
    exact ⟨regular_boot memory root rsp0 ticks, ledger_boot memory root rsp0 ticks⟩
  · rintro s e s' ⟨regular, ledger⟩ spared taken
    exact ⟨regular_step regular taken, ledger_step regular ledger spared taken⟩

def SameEnds (k k' : Kernel) : Prop := ∀ p, SameCounts (k.pipes p) (k'.pipes p)

private theorem sameEnds_of_files {k k' : Kernel} (balanced : Balanced k [])
    (balanced' : Balanced k' []) (files : ∀ id, (k'.tasks id).files = (k.tasks id).files) :
    SameEnds k k' := by
  have listing : ∀ d, listed k'.tasks d = listed k.tasks d := fun d => by simp only [listed, files]
  intro p
  have readers : (k'.pipes p).readers = (k.pipes p).readers := by
    rw [balanced.readers p, balanced'.readers p, listing]
  have writers : (k'.pipes p).writers = (k.pipes p).writers := by
    rw [balanced.writers p, balanced'.writers p, listing]
  refine ⟨readers, writers, Bool.eq_iff_iff.mpr ?_⟩
  rw [balanced.used p, balanced'.used p, readers, writers]

private theorem fork_failed {k : Kernel} {env : Surroundings} {context : Word}
    (failed : (fork k env context).1 = failure) : (fork k env context).2 = k := by
  have answers : ∀ child : TaskId, BitVec.ofNat 64 child.val ≠ failure := by decide
  unfold fork at failed ⊢
  split at failed
  · rfl
  · simp only at failed ⊢
    split at failed
    · exact absurd failed (answers _)
    · rfl

/-- In every run in which no task dies inside the scheduler while it holds a pipe
end, the counts are exact in every state, and a `pipe` or `fork` that fails leaves
them alone. -/
theorem pipe_counts_exact {s : Machine} (run : Reached step Booted Spares s) :
    Exact s.kernel ∧
      (∀ access pointer, (makePipe s.kernel access pointer).1 = failure →
        SameEnds s.kernel (makePipe s.kernel access pointer).2) ∧
      (∀ env context, (fork s.kernel env context).1 = failure →
        SameEnds s.kernel (fork s.kernel env context).2) := by
  have ledger := ledger_of_reached run
  refine ⟨ledger.exact, fun access pointer failed => ?_, fun env context failed => ?_⟩
  · have cases := makePipe_cases s.kernel access pointer
    exact sameEnds_of_files ledger.balanced (ledger.balanced.makePipe cases) (makePipe_files cases failed)
  · rw [fork_failed failed]
    exact fun p => ⟨rfl, rfl, rfl⟩

section Runs

private def callPipe : List Event := callWith sysPipe 0x10f000 0x10ff00 fun _ => 0

/-- A program killed by the scheduler leaves its pipe ends counted for ever. -/
theorem pipe_counts_leak : ∃ s, Reached step Booted (fun _ _ => True) s ∧ ¬Exact s.kernel := by
  obtain ⟨s, reached, wrong⟩ := Reached.freely Booted ⟨_, _, _, _, rfl⟩
    (show ((runAll step started (launch ++ firstTick :: callPipe ++ [.interrupt, .tick])).any fun s =>
      decide ((s.kernel.pipes 0).readers ≠ holders s.kernel.tasks (.pipeRead 0))) = true by
        decide +kernel)
  exact ⟨s, reached, fun exact => of_decide_eq_true wrong (exact 0).1⟩

private theorem spares_unless_timer {events : List Event}
    (quiet : ∀ e ∈ events, ∀ s, timerFrame s e = none) (e : Event) (member : e ∈ events)
    (s : Machine) : Spares s e := fun a f here => by
  rw [quiet e member s] at here
  simp at here

/-- With its pipe open the program holds the two ends that are counted. -/
theorem pipe_counts_exact_open :
    ∃ s, Reached step Booted Spares s ∧ (s.kernel.pipes 0).readers = 1 ∧ Exact s.kernel := by
  have launched : Reached step Booted Spares ((runAll step started launch).get launched_some) := by
    refine Reached.runAll (.start ⟨_, _, _, _, rfl⟩) (allAllowed_of_forall
      (spares_unless_timer fun e member s => ?_) _) (Option.some_get launched_some).symm
    simp only [launch, List.mem_cons, List.not_mem_nil, or_false] at member
    rcases member with rfl | rfl <;> rfl
  have fair : allAllowed step Spares ((runAll step started launch).get launched_some)
      (firstTick :: callPipe) := by
    refine ⟨fun a f here dies => ?_, fun s' _ => allAllowed_of_forall
      (spares_unless_timer fun e member s => ?_) _⟩
    · obtain ⟨rfl, rfl⟩ := Prod.mk.inj (Option.some.inj here)
      exact absurd dies.2.1 (by decide +kernel)
    · simp only [callPipe, callWith, List.mem_cons, List.not_mem_nil, or_false] at member
      rcases member with rfl | rfl | rfl | rfl <;> rfl
  obtain ⟨s, taken, one⟩ := (Option.any_eq_true ..).mp
    (show ((runAll step ((runAll step started launch).get launched_some) (firstTick :: callPipe)).any
      fun s => decide ((s.kernel.pipes 0).readers = 1)) = true by decide +kernel)
  have opened := launched.runAll fair taken
  exact ⟨s, opened, of_decide_eq_true one, (pipe_counts_exact opened).1⟩

end Runs

end FiveAM.Process.PipeCounts
