/- GID: FiveAM/Process/Activation
   source: kernel/src/syscall.rs, kernel/src/user.rs, kernel/src/task.rs, kernel/src/elf.rs
   digest: A new image is loaded in a space the task table does not name yet. -/

import FiveAM.Process.Completion

set_option autoImplicit false
set_option relaxedAutoImplicit false

namespace FiveAM.Process.Activation

open FiveAM.Process.TaskTable FiveAM.Process.Machine FiveAM.Process.Pipes FiveAM.Process.Signals
open FiveAM.Process.Lifecycle FiveAM.Process.Syscalls FiveAM.Process.Schedule
open FiveAM.Process.System FiveAM.Process.Effects FiveAM.Process.TableShape
open FiveAM.Process.SmallSteps FiveAM.Lib.ByteMemory FiveAM.Lib.Runs FiveAM.Sched.Mechanism
open FiveAM.Process.Completion (interrupts numberAt inCall)

/-- How far a task has come with the image it is loading. -/
inductive Phase where
  | idle
  /-- `fresh` is active, the table still says `old`, and `elf::load` and
  `map_stack` are at work. -/
  | loading (fresh old : Root)
  /-- `exec` has recorded the new space; the arguments and the trap frame are
  still to be written. -/
  | placing
  /-- `run_bytes_named` has started the program and stands in its space yet. -/
  | started (old : Root)
  deriving DecidableEq

/-- The active space is not the one the table gives the task. -/
def Phase.exposed : Phase → Bool
  | .loading _ _ => true
  | .started _ => true
  | _ => false

def Phase.left : Phase → Option Root
  | .loading _ old => some old
  | .started old => some old
  | _ => none

/-- The machine with `exec` and `run_bytes_named` taken apart, so that a tick can
fall between their steps. `own` is the space each task's own code has made active
last; no step of the kernel reads it. -/
structure Loader where
  machine : Machine
  phase : TaskId → Phase
  own : TaskId → Root

namespace Loader

def kernel (s : Loader) : Kernel := s.machine.kernel

def current (s : Loader) : TaskId := s.machine.kernel.current

end Loader

/-- The allocator hands out a frame that is no space in use. -/
def Unused (k : Kernel) (fresh : Root) : Prop :=
  fresh ≠ k.activeRoot ∧ fresh ≠ k.kernelRoot ∧ ∀ id, (k.tasks id).addressSpace ≠ some fresh

instance (k : Kernel) (fresh : Root) : Decidable (Unused k fresh) :=
  inferInstanceAs (Decidable (_ ∧ _ ∧ _))

/-- Events other than the two that load an image, which have steps of their
own. -/
def unsplit (s : Machine) : Event → Bool
  | .serve _ => !inCall s sysExec
  | .run _ _ => false
  | _ => true

/-- A task that takes a free slot of `k`. -/
def Enters (k k' : Kernel) (id : TaskId) : Prop :=
  (k.tasks id).state = .free ∧ (k'.tasks id).state ≠ .free

instance (k k' : Kernel) (id : TaskId) : Decidable (Enters k k' id) :=
  inferInstanceAs (Decidable (_ ∧ _))

/-- The machine goes on; a task that takes a free slot starts in the space the
table gives it. -/
def goesOn (s : Loader) (m : Machine) : Loader where
  machine := m
  phase id := if Enters s.kernel m.kernel id then .idle else s.phase id
  own id := if Enters s.kernel m.kernel id then m.kernel.spaceOf id else s.own id

/-- The current task's own code makes `root` active. -/
def activate (s : Loader) (root : Root) (phase : Phase) : Loader where
  machine := withKernel s.machine (activateRoot s.kernel root)
  phase := Function.update s.phase s.current phase
  own := Function.update s.own s.current root

/-- The current task writes to the table or to memory. -/
def write (s : Loader) (k : Kernel) : Loader := { s with machine := withKernel s.machine k }

inductive Action where
  /-- Anything else the machine does. -/
  | plain (e : Event)
  /-- `exec` or `run_bytes_named` has a fresh space and activates it. -/
  | begin (fresh : Root)
  /-- `elf::load` or `map_stack` maps a page or writes bytes: into the user half
  of whatever space is active. -/
  | map (memory : Bytes)
  /-- The end of `map_stack`: the rest of the stack is promised. -/
  | promise
  /-- The image is refused: back to the old space. -/
  | giveUp
  /-- `exec` clears the handlers, then records the new space. -/
  | clear
  | adopt
  /-- `exec` places the arguments, then rewrites the trap frame. -/
  | place (memory : Bytes)
  | rewrite (entry stack argc argv : Word)
  /-- `run_bytes_named` places the arguments and starts the program. -/
  | spawn (stack entry userStack argc argv : Word)
  /-- Back to the shell's own space. -/
  | back

/-- The current task is where an image can be loaded. -/
def Loads (s : Machine) : Prop := InKernelTask s ∨ inCall s sysExec = true

instance (s : Machine) : Decidable (Loads s) := inferInstanceAs (Decidable (_ ∨ _))

/-- Where a task goes on when its image was refused: `exec` answers `u64::MAX`. -/
def refused (s : Machine) : TaskId → Stage :=
  match s.stage s.current with
  | .calling context _ => Function.update s.stage s.current (.returning context failure)
  | _ => s.stage

/-- One action; `none` where it cannot happen. -/
def step (s : Loader) : Action → Option Loader
  | .plain e =>
      if (interrupts e = true ∨ s.phase s.current = .idle) ∧ unsplit s.machine e = true then
        (System.step s.machine e).map (goesOn s)
      else none
  | .begin fresh =>
      if s.phase s.current = .idle ∧ Loads s.machine ∧ Unused s.kernel fresh then
        some (activate s fresh (.loading fresh s.kernel.activeRoot))
      else none
  | .map memory =>
      match s.phase s.current with
      | .loading _ _ => some (write s (withUserMemory s.kernel s.kernel.activeRoot memory))
      | _ => none
  | .promise =>
      match s.phase s.current with
      | .loading _ _ => some (write s (setStackRegion s.kernel s.current userStackTop userStackLimit))
      | _ => none
  | .giveUp =>
      match s.phase s.current with
      | .loading _ old =>
          let s := activate s old .idle
          some { s with machine := { s.machine with stage := refused s.machine } }
      | _ => none
  | .clear =>
      match s.phase s.current with
      | .loading _ _ =>
          if inCall s.machine sysExec = true then
            some (write s (clearSignalHandlers s.kernel s.current))
          else none
      | _ => none
  | .adopt =>
      match s.phase s.current with
      | .loading fresh _ =>
          if inCall s.machine sysExec = true then
            some { write s (setAddressSpace s.kernel s.current fresh) with
              phase := Function.update s.phase s.current .placing }
          else none
      | _ => none
  | .place memory =>
      match s.phase s.current with
      | .placing => some (write s (withUserMemory s.kernel s.kernel.activeRoot memory))
      | _ => none
  | .rewrite entry stack argc argv =>
      match s.phase s.current, s.machine.stage s.current with
      | .placing, .calling context _ =>
          let k := s.kernel.storeView
            (writeFrame s.kernel.view context (userFrame entry stack argc argv))
          some { s with
            machine := moveTo s.machine k (.returning context 0)
            phase := Function.update s.phase s.current .idle }
      | _, _ => none
  | .spawn stack entry userStack argc argv =>
      match s.phase s.current with
      | .loading fresh old =>
          if InKernelTask s.machine ∧ FreshStack s.kernel stack then
            let s' := goesOn s (enroll s.machine
              (spawnUser s.kernel stack entry userStack fresh (some 0) argc argv).2 .program)
            some { s' with phase := Function.update s'.phase s.current (.started old) }
          else none
      | _ => none
  | .back =>
      match s.phase s.current with
      | .started old => some (activate s old .idle)
      | _ => none

/-- What preemption must leave alone: the running task goes on in the space its
own code made active last, and what it maps and writes for a new image goes into
the fresh space and into no other. -/
structure Kept (s : Loader) : Prop where
  active : s.kernel.activeRoot = s.own s.current
  image : ∀ fresh old, s.phase s.current = .loading fresh old →
    fresh ≠ old ∧ fresh ≠ s.kernel.kernelRoot ∧ ∀ memory s', step s (.map memory) = some s' →
      ∀ root, s'.kernel.memory.user root =
        if root = fresh then memory else s.kernel.memory.user root

/-- Where a tick is harmless: while the fresh space is active and not recorded
the policy asks for the same task again, and a task that a signal ends is
followed by one with a space of its own, or was in the kernel's. -/
def Harmless (s : Loader) (k : Kernel) (stackPointer : Word) : Prop :=
  ((s.phase s.current).exposed = true → chosen k stackPointer = k.current) ∧
    (Dies k stackPointer →
      (k.tasks (successor (saveCurrent k stackPointer).tasks
        (chosen k stackPointer))).addressSpace.isSome ∨
      rootFor k (chosen k stackPointer) = k.kernelRoot)

instance (s : Loader) (k : Kernel) (stackPointer : Word) :
    Decidable (Harmless s k stackPointer) := inferInstanceAs (Decidable (_ ∧ _))

def Calm (s : Loader) (a : Action) : Prop :=
  ∀ e context frame, a = .plain e → timerFrame s.machine e = some (context, frame) →
    Harmless s (trapped s.machine context frame) context

theorem calm_plain {s : Loader} {e : Event} : Calm s (.plain e) ↔
    ∀ taken ∈ timerFrame s.machine e, Harmless s (trapped s.machine taken.1 taken.2) taken.1 := by
  constructor
  · intro calm taken member
    exact calm e taken.1 taken.2 rfl member
  · intro harmless e' context frame same framed
    obtain rfl := Action.plain.inj same
    exact harmless (context, frame) framed

instance (s : Loader) (a : Action) : Decidable (Calm s a) :=
  match a with
  | .plain _ => @decidable_of_iff _ _ calm_plain.symm (Option.decidableForallMem _)
  | .begin _ | .map _ | .promise | .giveUp | .clear | .adopt | .place _ | .rewrite .. | .spawn .. |
      .back =>
      isTrue fun _ _ _ same => nomatch same

def Started (s : Loader) : Prop :=
  Booted s.machine ∧ (∀ id, s.phase id = .idle) ∧ ∀ id, s.own id = s.kernel.kernelRoot

/-- The same task runs in the same space, and every task that lives, or runs, did
so before and has the space it had. -/
structure Stays (k k' : Kernel) : Prop where
  current : k'.current = k.current
  active : k'.activeRoot = k.activeRoot
  root : k'.kernelRoot = k.kernelRoot
  space : ∀ id, (k'.tasks id).state.Live ∨ id = k.current →
    ((k.tasks id).state.Live ∨ id = k.current) ∧
      (k'.tasks id).addressSpace = (k.tasks id).addressSpace

namespace Stays

variable {k k' k'' : Kernel}

theorem trans (first : Stays k k') (second : Stays k' k'') : Stays k k'' where
  current := second.current.trans first.current
  active := second.active.trans first.active
  root := second.root.trans first.root
  space id alive := by
    rw [← first.current] at alive
    obtain ⟨before, same⟩ := second.space id alive
    rw [first.current] at before
    obtain ⟨first', same'⟩ := first.space id before
    exact ⟨first', same.trans same'⟩

theorem of_tasks (tasks : k'.tasks = k.tasks) (current : k'.current = k.current)
    (active : k'.activeRoot = k.activeRoot) (root : k'.kernelRoot = k.kernelRoot) : Stays k k' := by
  refine ⟨current, active, root, fun id alive => ?_⟩
  rw [tasks] at alive ⊢
  exact ⟨alive, rfl⟩

theorem refl (k : Kernel) : Stays k k := of_tasks rfl rfl rfl rfl

theorem setTask (id : TaskId) (task : Task)
    (live : task.state.Live → (k.tasks id).state.Live ∨ id = k.current)
    (space : task.state.Live ∨ id = k.current → task.addressSpace = (k.tasks id).addressSpace) :
    Stays k (k.setTask id task) := by
  refine ⟨rfl, rfl, rfl, fun j alive => ?_⟩
  by_cases same : j = id
  · subst same
    simp only [Kernel.setTask, Function.update_self] at alive ⊢
    exact ⟨alive.elim live Or.inr, space alive⟩
  · simp only [Kernel.setTask, Function.update_of_ne same] at alive ⊢
    exact ⟨alive, trivial⟩

theorem wakeAll (k : Kernel) (channel : Word) : Stays k (k.wakeAll channel) := by
  refine ⟨rfl, rfl, rfl, fun id alive => ?_⟩
  simp only [Kernel.wakeAll] at alive ⊢
  split_ifs at alive ⊢ with waits
  · exact ⟨Or.inl (by simp [waits, State.Live]), rfl⟩
  · exact ⟨alive, rfl⟩

theorem of_moves (moves : Moves k k') : Stays k k' := by
  induction moves with
  | refl => exact refl k
  | rest _ tasks current active root ih => exact ih.trans (of_tasks tasks current active root)
  | entry _ id task state space ih =>
      exact ih.trans (setTask id task (fun live => Or.inl (state ▸ live)) fun _ => space)
  | rouse _ id pending asleep ih =>
      exact ih.trans (setTask id _ (fun _ => Or.inl (by simp [asleep, State.Live])) fun _ => rfl)
  | wake _ channel ih => exact ih.trans (wakeAll _ channel)
  | sleep _ quiet ih => exact ih.trans (setTask _ _ (fun _ => Or.inr rfl) fun _ => rfl)

theorem atCurrent (task : Task) (space : task.addressSpace = (k.tasks k.current).addressSpace) :
    Stays k (k.setTask k.current task) := setTask _ _ (fun _ => Or.inr rfl) fun _ => space

theorem finish (k : Kernel) (code : Word) : Stays k (Pipes.finish k k.current code) := by
  have closed := of_moves (Moves.closeAllDescriptors k k.current)
  have ended := atCurrent (k := closeAllDescriptors k k.current)
    { (closeAllDescriptors k k.current).tasks k.current with exitCode := code, state := .finished }
    (by rw [closed.current])
  rw [closed.current] at ended
  exact closed.trans (ended.trans (wakeAll _ _))

theorem park (k : Kernel) (channel : Word) : Stays k (Lifecycle.park k channel) :=
  atCurrent _ rfl

theorem endTask (k : Kernel) : Stays k (Lifecycle.endTask k k.current) := by
  have ended := atCurrent (k := k) { k.tasks k.current with exitCode := 0, state := .finished } rfl
  exact ended.trans (wakeAll _ _)

theorem emptySlot {id : TaskId} (other : id ≠ k.current) : Stays k (Lifecycle.emptySlot k id) := by
  have emptied : Stays k (k.setTask id empty) :=
    setTask id empty (fun live => absurd live (by simp [empty, State.Live]))
      fun alive => absurd alive (by simp [empty, State.Live, other])
  exact emptied.trans (of_tasks rfl rfl rfl rfl)

theorem waited {parent : TaskId} {r : Waiting (Option Word) × Kernel}
    (live : (k.tasks k.current).state.Live) (run : WaitAny k parent r) : Stays k r.2 := by
  cases run with
  | nothing => exact refl k
  | @collected id child ceased orphans =>
      have moved : Stays k { k with orphans := orphans } := of_tasks rfl rfl rfl rfl
      exact moved.trans (emptySlot fun same => live.2 (same ▸ ceased))
  | asleep child => exact atCurrent _ rfl

theorem reapFinished (live : (k.tasks k.current).state.Live) :
    Stays k (Lifecycle.reapFinished k) := by
  unfold Lifecycle.reapFinished
  refine (List.foldlRecOn (motive := fun k' : Kernel => Stays k k' ∧
    (k'.tasks k'.current).state.Live) _ _ ⟨refl k, live⟩ ?_).1
  rintro k' ⟨here, live'⟩ id -
  split_ifs with ceased
  · have other : id ≠ k'.current := fun same => live'.2 (same ▸ ceased)
    refine ⟨here.trans (emptySlot other), ?_⟩
    rw [show (Lifecycle.emptySlot k' id).current = k'.current from rfl,
      emptySlot_other other.symm]
    exact live'
  · exact ⟨here, live'⟩

theorem orphanAddressSpaces (live : (k.tasks k.current).state.Live) :
    Stays k (Lifecycle.orphanAddressSpaces k).2 := by
  have taken : Stays k ((List.finRange maxTasks).foldl takeSpace k) := by
    refine (List.foldlRecOn (motive := fun k' : Kernel => Stays k k' ∧
      (k'.tasks k'.current).state.Live) _ _ ⟨refl k, live⟩ ?_).1
    rintro k' ⟨here, live'⟩ id -
    rcases takeSpace_cases k' id with same | ⟨dead, orphans, eq⟩
    · rw [same]
      exact ⟨here, live'⟩
    · have other : id ≠ k'.current := fun same => dead (same ▸ live')
      have stripped : Stays k' (k'.setTask id { k'.tasks id with addressSpace := none }) :=
        setTask id _ (fun alive => absurd alive dead) fun alive =>
          absurd alive (by rintro (alive | same); exacts [dead alive, other same])
      rw [eq]
      refine ⟨(here.trans stripped).trans (of_tasks rfl rfl rfl rfl), ?_⟩
      simpa only [Kernel.setTask, Function.update_of_ne other.symm] using live'
  exact taken.trans (of_tasks rfl rfl rfl rfl)

end Stays

/-- As `Stays`, except that a task may take a free slot. -/
structure Arrives (k k' : Kernel) : Prop where
  current : k'.current = k.current
  active : k'.activeRoot = k.activeRoot
  root : k'.kernelRoot = k.kernelRoot
  space : ∀ id, (k'.tasks id).state.Live ∨ id = k.current → ¬Enters k k' id →
    ((k.tasks id).state.Live ∨ id = k.current) ∧
      (k'.tasks id).addressSpace = (k.tasks id).addressSpace

theorem Stays.arrives {k k' : Kernel} (stays : Stays k k') : Arrives k k' :=
  ⟨stays.current, stays.active, stays.root, fun id alive _ => stays.space id alive⟩

theorem Arrives.joins {k k₁ k' : Kernel} {id : TaskId} {task : Task} {m : Bytes}
    (joins : Joins k₁ k' id task m) (ready : task.state = .ready) (tasks : k₁.tasks = k.tasks)
    (current : k₁.current = k.current) (active : k₁.activeRoot = k.activeRoot)
    (root : k₁.kernelRoot = k.kernelRoot) : Arrives k k' := by
  refine ⟨joins.current.trans current, joins.active.trans active, joins.root.trans root,
    fun j alive stays => ?_⟩
  have other : j ≠ id := by
    rintro rfl
    have vacant := joins.vacant
    rw [tasks] at vacant
    exact stays ⟨vacant, by simp [joins.self, ready]⟩
  rw [joins.other other, tasks] at alive ⊢
  exact ⟨alive, rfl⟩

private theorem arrives_handle {k : Kernel} {env : Surroundings} {written : Nat}
    {number arg0 arg1 arg2 context : Word} (live : (k.tasks k.current).state.Live)
    (stays : number ≠ sysExec) :
    Arrives k (handle k env written number arg0 arg1 arg2 context).2 := by
  by_cases exits : number = sysExit
  · subst exits
    exact (Stays.finish k arg0).arrives
  by_cases forks : number = sysFork
  · subst forks
    change Arrives k (fork k env context).2
    rcases fork_cases k env context with failed | ⟨root, id, k', _, made, joined, _⟩
    · rw [failed]
      exact (Stays.refl k).arrives
    · rw [made]
      exact .joins joined rfl rfl rfl rfl rfl
  by_cases waits : number = sysWait
  · subst waits
    have waited := (Stays.waited live (waitAnyChild_cases k k.current)).arrives
    change Arrives k (waitAnswer (waitAnyChild k k.current)).2
    cases outcome : waitAnyChild k k.current with
    | mk waiting k' =>
        rw [outcome] at waited
        cases waiting <;> exact waited
  exact (Stays.of_moves (.handle exits waits forks stays)).arrives

theorem arrives_step {m m' : Machine} {e : Event} (regular : Regular m.kernel m.stage)
    (taken : System.step m e = some m') (plain : unsplit m e = true)
    (still : timerFrame m e = none) : Arrives m.kernel m'.kernel := by
  have alive : InKernelTask m → (m.kernel.tasks m.kernel.current).state.Live :=
    fun inside => ⟨regular.here, inside.2⟩
  have moves : ∀ {k : Kernel}, Moves m.kernel k → Arrives m.kernel k :=
    fun moves => (Stays.of_moves moves).arrives
  refine step_rule (P := fun m' => Arrives m.kernel m'.kernel) taken
    (fun _ _ _ _ => moves (Moves.refl.rest rfl rfl rfl rfl)) (fun _ => moves (.storeView _ _))
    ?onServe ?onLeave (fun a f here => absurd (still.symm.trans here) (by simp))
    (fun id number => moves (.signal _ _ _)) (fun channel => moves (Moves.refl.wake _))
    (moves (Moves.refl.entry _ _ rfl rfl)) (fun channel _ _ => (Stays.park _ channel).arrives)
    (fun ticks _ => moves (.sleepFor _ _)) (fun _ _ _ => (Stays.endTask _).arrives)
    (fun sched => moves (Moves.refl.rest rfl rfl rfl rfl)) ?onSpawn ?onRun
    (fun _ inside => (Stays.waited (alive inside) (waitAnyChild_cases m.kernel 0)).arrives)
    (fun _ inside => (Stays.reapFinished (alive inside)).arrives) ?onReclaim
  case onServe =>
    rintro env context written rfl inside -
    simp only [unsplit, inCall, inside, Bool.not_eq_true', decide_eq_false_iff_not] at plain
    exact arrives_handle (regular.inside (by simp [inside]) (by simp [inside])).2 plain
  case onLeave =>
    rintro context result rfl inside
    have signalled : Stays m.kernel (delivered m.kernel context).2 := by
      unfold delivered
      split_ifs
      · exact .of_moves (.deliver _ _ _)
      · exact .refl _
    rw [leave_eq]
    split_ifs
    · exact (signalled.trans (.finish _ _)).arrives
    · exact (signalled.trans (.of_moves (.storeView _ _))).arrives
  case onSpawn =>
    intro stack entry priority _ _ _
    rcases spawnWithPriority_cases m.kernel stack entry priority with same | ⟨id, joined, -⟩
    · simp only [enroll, same]
      exact moves .refl
    · exact .joins joined rfl rfl rfl rfl rfl
  case onRun =>
    intro stack image _ _ _
    rcases spawnUser_cases (withUserMemory m.kernel image.root image.memory) stack image.entry
      image.stack image.root (some 0) image.argc image.argv with same | ⟨id, joined, -⟩
    · simp only [enroll, same]
      exact moves (Moves.refl.rest rfl rfl rfl rfl)
    · exact .joins joined rfl rfl rfl rfl rfl
  case onReclaim => exact fun _ inside => (Stays.orphanAddressSpaces (alive inside)).arrives

/-- The invariant behind `Kept`: only the running task can be in a space the
table does not give it. -/
structure Held (s : Loader) : Prop where
  regular : Regular s.kernel s.machine.stage
  active : s.kernel.activeRoot = s.own s.current
  space : ∀ id, (s.kernel.tasks id).state.Live ∨ id = s.current → (s.phase id).exposed = false →
    s.own id = s.kernel.spaceOf id
  hidden : ∀ id, id ≠ s.current → (s.kernel.tasks id).state.Live → (s.phase id).exposed = false
  image : ∀ id fresh old, s.phase id = .loading fresh old →
    s.own id = fresh ∧ fresh ≠ old ∧ fresh ≠ s.kernel.kernelRoot
  left : ∀ id root, (s.kernel.tasks id).state.Live ∨ id = s.current →
    (s.phase id).left = some root → root = s.kernel.spaceOf id

theorem Held.kept {s : Loader} (held : Held s) : Kept s := by
  refine ⟨held.active, fun fresh old loading => ?_⟩
  obtain ⟨own, apart, other⟩ := held.image _ fresh old loading
  refine ⟨apart, other, fun memory s' taken root => ?_⟩
  simp only [step, loading, Option.some.injEq] at taken
  subst taken
  change Function.update s.kernel.memory.user s.kernel.activeRoot memory root = _
  rw [held.active, own]
  by_cases same : root = fresh
  · rw [if_pos same, same, Function.update_self]
  · rw [if_neg same, Function.update_of_ne same]

section Steps

variable {s : Loader} {m : Machine}

theorem Held.moved (held : Held s) (regular : Regular m.kernel m.stage)
    (root : m.kernel.kernelRoot = s.kernel.kernelRoot)
    (kept : ∀ id, (m.kernel.tasks id).state.Live ∨ id = m.kernel.current →
      ¬Enters s.kernel m.kernel id → ((s.kernel.tasks id).state.Live ∨ id = s.current) ∧
        (m.kernel.tasks id).addressSpace = (s.kernel.tasks id).addressSpace)
    (stays : (s.kernel.tasks m.kernel.current).state ≠ .free)
    (active : m.kernel.activeRoot = s.own m.kernel.current)
    (hidden : ∀ id, id ≠ m.kernel.current → (m.kernel.tasks id).state.Live →
      ¬Enters s.kernel m.kernel id → (s.phase id).exposed = false) :
    Held (goesOn s m) := by
  refine ⟨regular, ?_, fun id alive unexposed => ?_, fun id other live => ?_,
    fun id fresh old loading => ?_, fun id old alive left => ?_⟩
  · change m.kernel.activeRoot = if Enters s.kernel m.kernel m.kernel.current then
      m.kernel.spaceOf m.kernel.current else s.own m.kernel.current
    rw [if_neg fun enters => stays enters.1, active]
  · change (if Enters s.kernel m.kernel id then _ else _) = _
    by_cases enters : Enters s.kernel m.kernel id
    · rw [if_pos enters]
      rfl
    · change (if Enters s.kernel m.kernel id then Phase.idle else _).exposed = false at unexposed
      rw [if_neg enters] at unexposed ⊢
      obtain ⟨before, same⟩ := kept id alive enters
      rw [held.space id before unexposed]
      change (s.kernel.tasks id).addressSpace.getD s.kernel.kernelRoot =
        (m.kernel.tasks id).addressSpace.getD m.kernel.kernelRoot
      rw [same, root]
  · change (if Enters s.kernel m.kernel id then Phase.idle else _).exposed = false
    by_cases enters : Enters s.kernel m.kernel id
    · rw [if_pos enters]
      rfl
    · rw [if_neg enters]
      exact hidden id other live enters
  · change (if Enters s.kernel m.kernel id then Phase.idle else _) = _ at loading
    by_cases enters : Enters s.kernel m.kernel id
    · rw [if_pos enters] at loading
      exact absurd loading (by simp)
    · rw [if_neg enters] at loading
      change (if Enters s.kernel m.kernel id then _ else _) = _ ∧ _ ∧ fresh ≠ m.kernel.kernelRoot
      rw [if_neg enters, root]
      exact held.image id fresh old loading
  · change (if Enters s.kernel m.kernel id then Phase.idle else _).left = some old at left
    by_cases enters : Enters s.kernel m.kernel id
    · rw [if_pos enters] at left
      exact absurd left (by simp [Phase.left])
    · rw [if_neg enters] at left
      obtain ⟨before, same⟩ := kept id alive enters
      rw [held.left id old before left]
      change (s.kernel.tasks id).addressSpace.getD s.kernel.kernelRoot =
        (m.kernel.tasks id).addressSpace.getD m.kernel.kernelRoot
      rw [same, root]

theorem Held.arrives (held : Held s) (regular : Regular m.kernel m.stage)
    (arrives : Arrives s.kernel m.kernel) : Held (goesOn s m) := by
  have current : m.kernel.current = s.current := arrives.current
  refine held.moved regular arrives.root (fun id alive stays => ?_) ?_ ?_
    fun id other live stays => ?_
  · rw [current] at alive
    exact arrives.space id alive stays
  · rw [current]
    exact held.regular.here
  · rw [current, arrives.active]
    exact held.active
  · rw [current] at other
    rcases (arrives.space id (Or.inl live) stays).1 with before | same
    · exact held.hidden id other before
    · exact absurd same other

end Steps

section Ticks

variable {k : Kernel} (sp : Word) (on : k.enabled = true)

include on

theorem schedule_root : (schedule k sp).2.kernelRoot = k.kernelRoot := by
  by_cases dies : Dies k sp
  · obtain ⟨k', follows, eq⟩ := schedule_kills on dies
    rw [eq]
    simp only [killed, handOver_eq]
    exact follows.rest.2.2.1
  · obtain ⟨follows, -⟩ := schedule_survives on dies
    exact follows.rest.2.2.1

/-- The space a tick leaves active: the one that was, when the same task goes on,
else the one the table gives the task resumed. -/
theorem schedule_active
    (followed : Dies k sp →
      (k.tasks (successor (saveCurrent k sp).tasks (chosen k sp))).addressSpace.isSome ∨
        rootFor k (chosen k sp) = k.kernelRoot) :
    (¬Dies k sp ∧ chosen k sp = k.current ∧ (schedule k sp).2.current = k.current ∧
        (schedule k sp).2.activeRoot = k.activeRoot) ∨
      ((Dies k sp ∨ chosen k sp ≠ k.current) ∧
        (schedule k sp).2.activeRoot = k.spaceOf (schedule k sp).2.current) := by
  have root : rootFor (asked k sp) (chosen k sp) = rootFor k (chosen k sp) := by
    unfold rootFor
    rw [asked_spaceOf]
    rfl
  by_cases dies : Dies k sp
  · right
    refine ⟨Or.inl dies, ?_⟩
    obtain ⟨k', follows, eq⟩ := schedule_kills on dies
    have next : fallback (markKilled k' (chosen k sp)).tasks (chosen k sp) =
        successor (saveCurrent k sp).tasks (chosen k sp) := by
      rw [fallback_markKilled, successor_congr _ follows.state]
      rfl
    generalize successor (saveCurrent k sp).tasks (chosen k sp) = next' at next followed
    obtain ⟨state, marked, -⟩ := markKilled_task k' (chosen k sp) next'
    have space : ((markKilled k' (chosen k sp)).tasks next').addressSpace =
        (k.tasks next').addressSpace := by
      rw [marked, ← (kept_asked k sp next').space]
      exact follows.space next'
    have active : (markKilled k' (chosen k sp)).activeRoot = rootFor k (chosen k sp) := by
      rw [← root]
      exact follows.active
    rw [eq]
    simp only [killed, handOver_eq, next, space, active]
    unfold Kernel.spaceOf
    rcases followed dies with own | kernel
    · obtain ⟨r, held⟩ := Option.isSome_iff_exists.mp own
      rw [held]
      rfl
    · rw [kernel]
  · obtain ⟨follows, -⟩ := schedule_survives on dies
    have active := follows.active
    rw [root] at active
    unfold rootFor at active
    by_cases same : chosen k sp = k.current
    · rw [if_pos same] at active
      exact Or.inl ⟨dies, same, follows.current.trans same, active⟩
    · rw [if_neg same] at active
      refine Or.inr ⟨Or.inr same, ?_⟩
      rw [active, follows.current]

end Ticks

section Actions

variable {s : Loader}

theorem Held.ticked (held : Held s) {a : Word} {f : Frame}
    (harmless : Harmless s (trapped s.machine a f) a)
    (regular : Regular (timer s.machine a f).kernel (timer s.machine a f).stage) :
    Held (goesOn s (timer s.machine a f)) := by
  have on : (trapped s.machine a f).enabled = true := held.regular.on
  have pushed : Regular (trapped s.machine a f) s.machine.stage :=
    held.regular.tame (.of_tasks ∅ rfl rfl rfl rfl)
  have task := schedule_task a on
  have root : (schedule (trapped s.machine a f) a).2.kernelRoot = s.kernel.kernelRoot :=
    schedule_root a on
  have active := schedule_active a on harmless.2
  have was := schedule_current a on
  generalize hk : (schedule (trapped s.machine a f) a).2 = k at task root active was
  have kernel : (timer s.machine a f).kernel = k := hk
  have lived : (s.kernel.tasks k.current).state.Live ∨ k.current = s.current := by
    rcases was with ready | zero | ⟨-, same, -⟩
    · exact Or.inl ((task k.current).2.1.mp (by simp [ready, State.Live])).1
    · rw [zero]
      exact Or.inl held.regular.shell.2
    · exact Or.inr same
  have dead : Dies (trapped s.machine a f) a → s.current = chosen (trapped s.machine a f) a →
      ¬(k.tasks s.current).state.Live := fun dies same live =>
    ((task s.current).2.1.mp live).2 ⟨dies, same⟩
  refine held.moved regular (by rw [kernel, root]) (fun id alive _ => ?_) ?_ ?_
    fun id other live _ => ?_
  · rw [kernel] at alive ⊢
    refine ⟨?_, (task id).1.space⟩
    rcases alive with live | same
    · exact Or.inl ((task id).2.1.mp live).1
    · rwa [same]
  · rw [kernel]
    rcases lived with live | same
    · exact live.1
    · rw [same]
      exact held.regular.here
  · rw [kernel]
    rcases active with ⟨-, -, same, here⟩ | ⟨moved, here⟩
    · rw [here, same]
      exact held.active
    · rw [here]
      refine (held.space _ lived ?_).symm
      by_cases same : k.current = s.current
      · rw [same]
        by_contra exposed
        have stays := harmless.1 (by simpa using exposed)
        rcases moved with dies | other
        · have ended := dead dies stays.symm
          rcases was with ready | zero | ⟨lives, -⟩
          · exact ended (by rw [← same]; simp [ready, State.Live])
          · have shell := (task 0).2.1.mpr ⟨held.regular.shell.2, ?_⟩
            · exact ended (by rw [← same, zero]; exact shell)
            · exact pushed.shell_spared a
          · exact lives dies
        · exact other stays
      · rcases lived with live | here
        · exact held.hidden _ same live
        · exact absurd here same
  · rw [kernel] at other live
    by_cases same : id = s.current
    · subst same
      by_contra exposed
      have stays := harmless.1 (by simpa using exposed)
      rcases active with ⟨-, -, here, -⟩ | ⟨dies | moved, -⟩
      · exact other here.symm
      · exact dead dies stays.symm live
      · exact moved stays
    · exact held.hidden id same ((task id).2.1.mp live).1

theorem Held.activated (held : Held s) (root : Root) (phase : Phase)
    (space : phase.exposed = false → root = s.kernel.spaceOf s.current)
    (image : ∀ fresh old, phase = .loading fresh old →
      root = fresh ∧ fresh ≠ old ∧ fresh ≠ s.kernel.kernelRoot)
    (left : ∀ old, phase.left = some old → old = s.kernel.spaceOf s.current) :
    Held (activate s root phase) := by
  have current : (activate s root phase).current = s.current := rfl
  have own : (activate s root phase).own = Function.update s.own s.current root := rfl
  have phases : (activate s root phase).phase = Function.update s.phase s.current phase := rfl
  refine ⟨held.regular.tame (.of_tasks ∅ rfl rfl rfl rfl), ?_, fun id alive unexposed => ?_,
    fun id other live => ?_, fun id fresh old loading => ?_, fun id old alive goes => ?_⟩
  · rw [own, current, Function.update_self]
    rfl
  · rw [own]
    rw [phases] at unexposed
    by_cases same : id = s.current
    · rw [same, Function.update_self] at unexposed ⊢
      exact space unexposed
    · rw [Function.update_of_ne same] at unexposed ⊢
      exact held.space id alive unexposed
  · rw [current] at other
    rw [phases, Function.update_of_ne other]
    exact held.hidden id other live
  · rw [own]
    rw [phases] at loading
    by_cases same : id = s.current
    · rw [same, Function.update_self] at loading ⊢
      exact image fresh old loading
    · rw [Function.update_of_ne same] at loading ⊢
      exact held.image id fresh old loading
  · rw [phases] at goes
    by_cases same : id = s.current
    · rw [same, Function.update_self] at goes
      rw [same]
      exact left old goes
    · rw [Function.update_of_ne same] at goes
      exact held.left id old alive goes

theorem Held.written (held : Held s) {k : Kernel} (moves : Moves s.kernel k)
    (regular : Regular k s.machine.stage) : Held (write s k) := by
  have stays := Stays.of_moves moves
  have current : (write s k).current = s.current := stays.current
  have kept : ∀ id, (k.tasks id).state.Live ∨ id = s.current →
      ((s.kernel.tasks id).state.Live ∨ id = s.current) ∧
        (write s k).kernel.spaceOf id = s.kernel.spaceOf id := by
    intro id alive
    obtain ⟨before, same⟩ := stays.space id alive
    refine ⟨before, ?_⟩
    change (k.tasks id).addressSpace.getD k.kernelRoot = _
    rw [same, stays.root]
    rfl
  refine ⟨regular, ?_, fun id alive unexposed => ?_, fun id other live => ?_,
    fun id fresh old loading => ?_, fun id old alive left => ?_⟩
  · rw [current]
    exact stays.active.trans held.active
  · rw [current] at alive
    obtain ⟨before, same⟩ := kept id alive
    rw [same]
    exact held.space id before unexposed
  · rw [current] at other
    rcases (kept id (Or.inl live)).1 with before | same
    · exact held.hidden id other before
    · exact absurd same other
  · change s.own id = fresh ∧ fresh ≠ old ∧ fresh ≠ k.kernelRoot
    rw [stays.root]
    exact held.image id fresh old loading
  · rw [current] at alive
    obtain ⟨before, same⟩ := kept id alive
    rw [same]
    exact held.left id old before left

theorem Held.rephased (held : Held s) (phase : Phase)
    (exposed : phase.exposed = (s.phase s.current).exposed)
    (image : ∀ fresh old, phase ≠ .loading fresh old)
    (left : ∀ old, phase.left = some old → (s.phase s.current).left = some old) :
    Held { s with phase := Function.update s.phase s.current phase } := by
  have shown : ∀ id, (Function.update s.phase s.current phase id).exposed = (s.phase id).exposed := by
    intro id
    by_cases same : id = s.current
    · rw [same, Function.update_self, exposed]
    · rw [Function.update_of_ne same]
  refine ⟨held.regular, held.active, fun id alive unexposed => ?_, fun id other live => ?_,
    fun id fresh old loading => ?_, fun id old alive goes => ?_⟩
  · exact held.space id alive ((shown id).symm.trans unexposed)
  · exact (shown id).trans (held.hidden id other live)
  · change Function.update s.phase s.current phase id = _ at loading
    by_cases same : id = s.current
    · rw [same, Function.update_self] at loading
      exact absurd loading (image fresh old)
    · rw [Function.update_of_ne same] at loading
      exact held.image id fresh old loading
  · change (Function.update s.phase s.current phase id).left = some old at goes
    refine held.left id old alive ?_
    by_cases same : id = s.current
    · rw [same, Function.update_self] at goes
      rw [same]
      exact left old goes
    · rwa [Function.update_of_ne same] at goes

theorem Held.calling (held : Held s) {number : Word} (inside : inCall s.machine number = true) :
    s.machine.stage s.current ≠ .kernel ∧ (s.kernel.tasks s.current).state.Live := by
  have stage : ∃ context written, s.machine.stage s.current = .calling context written := by
    unfold inCall at inside
    split at inside
    · rename_i context written here
      exact ⟨context, written, here⟩
    · exact absurd inside (by simp)
  obtain ⟨context, written, here⟩ := stage
  refine ⟨by simp [here], held.regular.running ?_ ?_⟩ <;>
  · change s.machine.stage s.current ≠ _
    simp [here]

theorem Held.adopted (held : Held s) {fresh old : Root}
    (loading : s.phase s.current = .loading fresh old) (inside : inCall s.machine sysExec = true) :
    Held { write s (setAddressSpace s.kernel s.current fresh) with
      phase := Function.update s.phase s.current .placing } := by
  obtain ⟨user, live⟩ := held.calling inside
  obtain ⟨own, -, -⟩ := held.image _ fresh old loading
  have space := (held.regular.user s.current live).mp user
  have tasks : ∀ id, id ≠ s.current →
      (setAddressSpace s.kernel s.current fresh).tasks id = s.kernel.tasks id := by
    intro id other
    simp only [setAddressSpace, Kernel.setTask, Function.update_of_ne other]
  refine ⟨held.regular.tame (tame_sameState _ _ rfl (by simp [space]) rfl ⟨rfl, rfl, rfl⟩),
    held.active, fun id alive unexposed => ?_, fun id other alive => ?_,
    fun id fresh' old' loads => ?_, fun id old' alive goes => ?_⟩
  · change s.own id =
      ((setAddressSpace s.kernel s.current fresh).tasks id).addressSpace.getD s.kernel.kernelRoot
    by_cases same : id = s.current
    · rw [same, own]
      simp only [setAddressSpace, Kernel.setTask, Function.update_self, Option.getD_some]
    · rw [tasks id same]
      change ((setAddressSpace s.kernel s.current fresh).tasks id).state.Live ∨ _ at alive
      rw [tasks id same] at alive
      refine held.space id alive ?_
      change (Function.update s.phase s.current .placing id).exposed = false at unexposed
      rwa [Function.update_of_ne same] at unexposed
  · change id ≠ s.current at other
    change ((setAddressSpace s.kernel s.current fresh).tasks id).state.Live at alive
    change (Function.update s.phase s.current .placing id).exposed = false
    rw [tasks id other] at alive
    rw [Function.update_of_ne other]
    exact held.hidden id other alive
  · change Function.update s.phase s.current .placing id = _ at loads
    by_cases same : id = s.current
    · rw [same, Function.update_self] at loads
      exact absurd loads (by simp)
    · rw [Function.update_of_ne same] at loads
      exact held.image id fresh' old' loads
  · change (Function.update s.phase s.current .placing id).left = some old' at goes
    change ((setAddressSpace s.kernel s.current fresh).tasks id).state.Live ∨ _ at alive
    change old' = ((setAddressSpace s.kernel s.current fresh).tasks id).addressSpace.getD
      s.kernel.kernelRoot
    by_cases same : id = s.current
    · rw [same, Function.update_self] at goes
      exact absurd goes (by simp [Phase.left])
    · rw [Function.update_of_ne same] at goes
      rw [tasks id same] at alive ⊢
      exact held.left id old' alive goes

theorem Held.restaged (held : Held s) {stage : TaskId → Stage}
    (regular : Regular s.kernel stage) :
    Held { s with machine := { s.machine with stage := stage } } :=
  ⟨regular, held.active, held.space, held.hidden, held.image, held.left⟩

private theorem held_plain {s' : Loader} {e : Event} (held : Held s) (calm : Calm s (.plain e))
    (taken : step s (.plain e) = some s') : Held s' := by
  simp only [step, Option.ite_none_right_eq_some, Option.map_eq_some_iff] at taken
  obtain ⟨⟨-, plain⟩, m, taken, rfl⟩ := taken
  have regular := regular_step held.regular taken
  cases framed : timerFrame s.machine e with
  | none => exact held.arrives regular (arrives_step held.regular taken plain framed)
  | some pushed =>
      obtain ⟨a, f⟩ := pushed
      have ticked : m = timer s.machine a f := by
        cases e with
        | tick =>
            simp only [System.step, Option.ite_none_right_eq_some, Option.some.injEq] at taken
            obtain ⟨rfl, rfl⟩ := Prod.mk.inj (Option.some.inj framed)
            exact taken.2.symm
        | tickInside nested saved =>
            simp only [System.step, Option.ite_none_right_eq_some, Option.some.injEq] at taken
            obtain ⟨rfl, rfl⟩ := Prod.mk.inj (Option.some.inj framed)
            exact taken.2.symm
        | _ => exact absurd framed (by simp [timerFrame])
      subst ticked
      exact held.ticked (calm e a f rfl framed) regular

private theorem held_begin {s' : Loader} {fresh : Root} (held : Held s)
    (taken : step s (.begin fresh) = some s') : Held s' := by
  simp only [step, Option.ite_none_right_eq_some, Option.some.injEq] at taken
  obtain ⟨⟨idle, -, unused⟩, rfl⟩ := taken
  have here : s.kernel.activeRoot = s.kernel.spaceOf s.current :=
    held.active.trans (held.space _ (Or.inr rfl) (by rw [idle]; rfl))
  refine held.activated fresh _ (by simp [Phase.exposed]) (fun fresh' old loading => ?_)
    fun old left => ?_
  · obtain ⟨rfl, rfl⟩ := Phase.loading.inj loading
    exact ⟨rfl, unused.1, unused.2.1⟩
  · exact (Option.some.inj left).symm.trans here

private theorem held_giveUp {s' : Loader} (held : Held s) (taken : step s .giveUp = some s') :
    Held s' := by
  simp only [step] at taken
  split at taken
  · rename_i fresh old loading
    obtain rfl := Option.some.inj taken
    have back := held.activated old .idle
      (fun _ => held.left _ old (Or.inr rfl) (by rw [loading]; rfl)) (by simp) (by simp [Phase.left])
    refine back.restaged ?_
    unfold refused
    split
    · rename_i context written here
      have inside := back.regular.inside (by simp [here]) (by simp [here])
      exact back.regular.moved _ inside.1 (by simp) fun _ => inside.2
    · exact back.regular
  · simp at taken

private theorem held_rewrite {s' : Loader} {entry stack argc argv : Word} (held : Held s)
    (taken : step s (.rewrite entry stack argc argv) = some s') : Held s' := by
  simp only [step] at taken
  split at taken
  · rename_i context written placing here
    obtain rfl := Option.some.inj taken
    have calling : s.machine.stage s.machine.current = .calling context written := here
    have inside := held.regular.inside (by simp [calling]) (by simp [calling])
    have stored : Moves s.kernel (s.kernel.storeView
      (writeFrame s.kernel.view context (userFrame entry stack argc argv))) := .storeView _ _
    have pushed := held.written stored (held.regular.tame (tame_storeView _ _ ∅))
    have moved := pushed.restaged (pushed.regular.moved (.returning context 0) inside.1 (by simp)
      fun _ => inside.2)
    exact moved.rephased .idle (congrArg Phase.exposed placing).symm (by simp)
      (by simp [Phase.left])
  · simp at taken

private theorem held_spawn {s' : Loader} {stack entry userStack argc argv : Word} (held : Held s)
    (taken : step s (.spawn stack entry userStack argc argv) = some s') : Held s' := by
  simp only [step] at taken
  split at taken
  · rename_i fresh old loading
    simp only [Option.ite_none_right_eq_some, Option.some.injEq] at taken
    obtain ⟨-, rfl⟩ := taken
    have spawned : Regular (spawnUser s.kernel stack entry userStack fresh (some 0) argc argv).2
          (enroll s.machine (spawnUser s.kernel stack entry userStack fresh (some 0) argc argv).2
            .program).stage ∧
        Arrives s.kernel (spawnUser s.kernel stack entry userStack fresh (some 0) argc argv).2 := by
      rcases spawnUser_cases s.kernel stack entry userStack fresh (some 0) argc argv with
        same | ⟨id, joined, -⟩
      · have unmoved : (enroll s.machine s.kernel .program).stage = s.machine.stage :=
          enroll_none rfl
        rw [same, unmoved]
        exact ⟨held.regular, (Stays.refl _).arrives⟩
      · exact ⟨held.regular.enrolled joined .program rfl (by simp [programTask]),
          .joins joined rfl rfl rfl rfl rfl⟩
    obtain ⟨regular, arrives⟩ := spawned
    have entered := held.arrives (m := enroll s.machine
      (spawnUser s.kernel stack entry userStack fresh (some 0) argc argv).2 .program) regular arrives
    generalize spawnUser s.kernel stack entry userStack fresh (some 0) argc argv = made at *
    have current : (goesOn s (enroll s.machine made.2 .program)).current = s.current :=
      arrives.current
    have phase : (goesOn s (enroll s.machine made.2 .program)).phase s.current =
        .loading fresh old := by
      refine Eq.trans (if_neg fun enters => ?_) loading
      exact held.regular.here enters.1
    have started := entered.rephased (.started old) (by rw [current, phase]; rfl) (by simp)
      (fun _ left => by rw [current, phase]; exact left)
    rwa [current] at started
  · simp at taken

theorem held_step {s' : Loader} {a : Action} (held : Held s) (calm : Calm s a)
    (taken : step s a = some s') : Held s' := by
  have memory : ∀ m : Bytes, Held (write s (withUserMemory s.kernel s.kernel.activeRoot m)) :=
    fun m => held.written (Moves.refl.rest rfl rfl rfl rfl)
      (held.regular.tame (.of_tasks ∅ rfl rfl rfl rfl))
  cases a with
  | plain e => exact held_plain held calm taken
  | begin fresh => exact held_begin held taken
  | map m =>
      simp only [step] at taken
      split at taken
      · exact Option.some.inj taken ▸ memory m
      · simp at taken
  | promise =>
      simp only [step] at taken
      split at taken
      · exact Option.some.inj taken ▸ held.written (Moves.refl.entry _ _ rfl rfl)
          (held.regular.tame (tame_sameState _ _ rfl rfl rfl ⟨rfl, rfl, rfl⟩))
      · simp at taken
  | giveUp => exact held_giveUp held taken
  | clear =>
      simp only [step] at taken
      split at taken
      · simp only [Option.ite_none_right_eq_some, Option.some.injEq] at taken
        exact taken.2 ▸ held.written (Moves.refl.entry _ _ rfl rfl)
          (held.regular.tame (tame_sameState _ _ rfl rfl rfl ⟨rfl, rfl, rfl⟩))
      · simp at taken
  | adopt =>
      simp only [step] at taken
      split at taken
      · rename_i fresh old loading
        simp only [Option.ite_none_right_eq_some, Option.some.injEq] at taken
        exact taken.2 ▸ held.adopted loading taken.1
      · simp at taken
  | place m =>
      simp only [step] at taken
      split at taken
      · exact Option.some.inj taken ▸ memory m
      · simp at taken
  | rewrite entry stack argc argv => exact held_rewrite held taken
  | spawn stack entry userStack argc argv => exact held_spawn held taken
  | back =>
      simp only [step] at taken
      split at taken
      · rename_i old started
        exact Option.some.inj taken ▸ held.activated old _
          (fun _ => held.left _ old (Or.inr rfl) (by rw [started]; rfl)) (by simp)
          (by simp [Phase.left])
      · simp at taken

end Actions

/-- In every run in which every tick is harmless, the running task is in the
space its own code made active, and what it loads goes into the fresh space. -/
theorem activation_kept {s : Loader} (run : Reached step Started Calm s) : Kept s := by
  have held : Held s := by
    refine run.invariant (P := Held) ?_ fun s a s' => held_step
    rintro s ⟨⟨memory, root, rsp0, ticks, machine⟩, idle, own⟩
    have kernel : s.kernel = (boot memory root rsp0 ticks).kernel := by rw [Loader.kernel, machine]
    have bare : ∀ id, s.kernel.spaceOf id = s.kernel.kernelRoot := by
      intro id
      rw [kernel]
      unfold Kernel.spaceOf
      by_cases shell : id = 0
      · subst shell
        simp [boot, empty]
      · simp [boot, Function.update_of_ne shell, empty]
    refine ⟨?_, ?_, fun id _ _ => ?_, fun id _ _ => ?_, fun id fresh old loading => ?_,
      fun id old _ left => ?_⟩
    · rw [kernel, machine]
      exact regular_boot memory root rsp0 ticks
    · rw [own, kernel]
      rfl
    · rw [own, bare]
    · rw [idle]
      rfl
    · rw [idle] at loading
      exact absurd loading (by simp)
    · rw [idle] at left
      exact absurd left (by simp [Phase.left])
  exact held.kept

section Scenario

private def first : Loader := ⟨started, fun _ => .idle, fun _ => started.kernel.kernelRoot⟩

private theorem first_started : Started first := ⟨⟨_, _, _, _, rfl⟩, fun _ => rfl, fun _ => rfl⟩

private def loadingRun : List Action := [.begin (rootAt 0x2000), .map fun _ => 7]

/-- A second task is ready; a tick hands it the processor, the next one gives it
back to the shell. -/
private def switchedRun : List Action :=
  .plain (.spawn 0x444444461000 0x400000000000 0) :: (loadingRun ++ [.plain firstTick,
    .plain (.tickInside 0x444444470000 fun i => if i = frameCs then kernelCode else 0)])

/-- The shell comes back to the kernel's space in the middle of loading, and maps
the rest of the image there. -/
theorem activation_lost :
    ∃ s, Reached step Started (fun _ _ => True) s ∧
      (∃ fresh old, s.phase s.current = .loading fresh old ∧ s.kernel.activeRoot ≠ fresh) ∧
      ¬Kept s := by
  have run : ((runAll step first switchedRun).any fun s =>
      decide (s.phase s.current = .loading ⟨0x2000, by decide⟩ ⟨0x1000, by decide⟩ ∧
        s.kernel.activeRoot = ⟨0x1000, by decide⟩ ∧
        s.own s.current = ⟨0x2000, by decide⟩)) = true := by
    decide +kernel
  obtain ⟨s, reached, facts⟩ := Reached.freely Started first_started run
  obtain ⟨loading, active, own⟩ := of_decide_eq_true facts
  refine ⟨s, reached, ⟨_, _, loading, by rw [active]; decide⟩, fun kept => ?_⟩
  have same := kept.active
  rw [active, own] at same
  exact absurd same (by decide)

/-- A second task gets the processor and goes to sleep, and a tick gives it back to the
shell; the next tick comes while the shell loads a program. -/
private def calmRun : List Action :=
  [.plain (.spawn 0x444444461000 0x400000000000 0), .plain firstTick, .plain (.block 1),
    .plain (.tickInside 0x444444470000 fun i => if i = frameCs then kernelCode else 0)] ++
    loadingRun ++ [.plain firstTick]

/-- The shell and another task take turns, and a tick in the middle of loading does no harm
while the other one sleeps. -/
theorem activation_kept_turns :
    ∃ s, Reached step Started Calm s ∧ (s.kernel.tasks 1).state = .blocked (.channel 1) ∧
      s.phase s.current = .loading ⟨0x2000, by decide⟩ ⟨0x1000, by decide⟩ ∧ Kept s := by
  have run : (runAll (fun s a => if Calm s a then step s a else none) first calmRun).any
      (fun s => (s.kernel.tasks 1).state = .blocked (.channel 1) ∧
        s.phase s.current = .loading ⟨0x2000, by decide⟩ ⟨0x1000, by decide⟩) = true := by
    decide +kernel
  obtain ⟨s, taken, facts⟩ := (Option.any_eq_true ..).mp run
  obtain ⟨asleep, loading⟩ := of_decide_eq_true facts
  have reached := Reached.runGuarded (.start first_started) taken
  exact ⟨s, reached, asleep, loading, activation_kept reached⟩

end Scenario

end FiveAM.Process.Activation
