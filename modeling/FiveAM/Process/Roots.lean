/- GID: FiveAM/Process/Roots
   source: kernel/src/task.rs, kernel/src/user.rs, kernel/src/syscall.rs
   digest: Who holds each address space from its creation to its end. -/

import FiveAM.Process.Waiting
import FiveAM.Process.Activation
import Mathlib.Algebra.BigOperators.Group.Finset.Piecewise
import Mathlib.Algebra.Order.BigOperators.Group.Finset
import Mathlib.Data.Finset.Option

set_option autoImplicit false
set_option relaxedAutoImplicit false

namespace FiveAM.Process.Roots

open FiveAM.Process.TaskTable FiveAM.Process.Machine FiveAM.Process.Pipes FiveAM.Process.Signals
open FiveAM.Process.Lifecycle FiveAM.Process.Syscalls FiveAM.Process.Schedule
open FiveAM.Process.System FiveAM.Process.Effects FiveAM.Process.TableShape
open FiveAM.Process.Changes
open FiveAM.Process.Completion (interrupts numberAt inCall)
open FiveAM.Lib.ByteMemory FiveAM.Lib.Runs FiveAM.Sched.Mechanism

/-- What `run_bytes_named` has in its local variables. -/
inductive Errand where
  /-- The space it has created and loads a program into. -/
  | loading (fresh : Root)
  /-- The spaces it has yet to destroy; none while the shell is elsewhere. -/
  | freeing (roots : List Root)
  deriving DecidableEq

def Errand.roots : Errand → List Root
  | .loading fresh => [fresh]
  | .freeing roots => roots

/-- The machine with the books of its address spaces. -/
structure Holdings where
  machine : Machine
  /-- Created by `AddressSpace::new` and not yet destroyed. -/
  allocated : Finset Root
  errand : Errand

namespace Holdings

def kernel (s : Holdings) : Kernel := s.machine.kernel

def current (s : Holdings) : TaskId := s.machine.kernel.current

end Holdings

/-- The allocator hands out a frame that is no space in use. -/
def Fresh (s : Holdings) (root : Root) : Prop := root ∉ s.allocated ∧ root ≠ s.kernel.kernelRoot

instance (s : Holdings) (root : Root) : Decidable (Fresh s root) :=
  inferInstanceAs (Decidable (_ ∧ _))

/-- The space that a call creates and leaves behind: a child's, or the one `exec` moves
to. -/
def created (m : Machine) (e : Event) : Option Root :=
  match fills m e with
  | some _ => spaceFor e
  | none => loads m e

/-- The space that `exec` leaves and destroys. -/
def abandoned (m : Machine) (e : Event) : Option Root :=
  (loads m e).map fun _ => m.kernel.activeRoot

/-- A space that a call creates is one that the allocator hands out. -/
def CreatesFresh (s : Holdings) (e : Event) : Prop := ∀ root ∈ created s.machine e, Fresh s root

instance (s : Holdings) (e : Event) : Decidable (CreatesFresh s e) :=
  Option.decidableForallMem (created s.machine e)

inductive Action where
  /-- Anything else the machine does; `fork` and `exec` are one step each. -/
  | plain (e : Event)
  /-- `fork` runs out of frames for the tables of the space it has created. -/
  | forkStops (env : Surroundings) (fresh : Root)
  /-- `run_bytes_named` creates a space. -/
  | create (fresh : Root)
  /-- It starts the program. -/
  | start (stack : Word) (image : Image)
  /-- It takes the spaces that are left over. -/
  | reclaim
  /-- It destroys a space: one of these, or that of a program that would not load or
  start. -/
  | destroy

/-- Events that run through `run_bytes_named` have steps of their own. -/
def unsplit : Event → Bool
  | .run _ _ => false
  | .reclaim => false
  | _ => true

/-- The shell's own code runs, and `errand` is where it stands. -/
def AtErrand (s : Holdings) (errand : Errand) : Prop :=
  InKernelTask s.machine ∧ s.current = 0 ∧ s.errand = errand

instance (s : Holdings) (errand : Errand) : Decidable (AtErrand s errand) :=
  inferInstanceAs (Decidable (_ ∧ _))

/-- One action; `none` where it cannot happen. -/
def step (s : Holdings) : Action → Option Holdings
  | .plain e =>
      if unsplit e = true ∧ (interrupts e = true ∨ s.current ≠ 0 ∨ s.errand = .freeing []) ∧
          CreatesFresh s e then
        (System.step s.machine e).map fun m => { s with
          machine := m
          allocated := ((created s.machine e).toFinset ∪ s.allocated) \
            (abandoned s.machine e).toFinset }
      else none
  | .forkStops env fresh =>
      if inCall s.machine sysFork = true ∧ env.space = none ∧ Fresh s fresh then
        (System.step s.machine (.serve env)).map fun m => { s with
          machine := m, allocated := insert fresh s.allocated }
      else none
  | .create fresh =>
      if AtErrand s (.freeing []) ∧ Fresh s fresh then
        some { s with allocated := insert fresh s.allocated, errand := .loading fresh }
      else none
  | .start stack image =>
      if AtErrand s (.loading image.root) then
        (System.step s.machine (.run stack image)).map fun m => { s with
          machine := m
          errand := .freeing (if (freeSlot s.kernel.tasks).isSome then [] else [image.root]) }
      else none
  | .reclaim =>
      if AtErrand s (.freeing []) then
        (System.step s.machine .reclaim).map fun m => { s with
          machine := m, errand := .freeing (orphanAddressSpaces s.kernel).1 }
      else none
  | .destroy =>
      match s.errand.roots with
      | [] => none
      | root :: rest =>
          if AtErrand s s.errand then
            some { s with allocated := s.allocated.erase root, errand := .freeing rest }
          else none

/-- The space an action destroys, if it destroys one that was there before. -/
def released (s : Holdings) : Action → Option Root
  | .plain e => abandoned s.machine e
  | .destroy => s.errand.roots.head?
  | _ => none

def holding (space : Option Root) (root : Root) : Nat := if space = some root then 1 else 0

/-- How many task slots hold `root`. -/
def slots (tasks : Tasks) (root : Root) : Nat := ∑ id, holding (tasks id).addressSpace root

/-- How often `root` is held: by the task slots, the orphan list, and the shell while it
loads or frees. -/
def holders (s : Holdings) (root : Root) : Nat :=
  slots s.kernel.tasks root + s.kernel.orphans.count root + s.errand.roots.count root

/-- Every space that is allocated is held once, and no other is held. -/
def Conserved (s : Holdings) : Prop :=
  ∀ root, holders s root = if root ∈ s.allocated then 1 else 0

/-- No `fork` stops halfway, and `reap_finished` finds no task that holds a space. -/
def Fair (s : Holdings) : Action → Prop
  | .plain .reap => ∀ id, id ≠ 0 → (s.kernel.tasks id).state = .finished →
      (s.kernel.tasks id).addressSpace = none
  | .forkStops _ _ => False
  | _ => True

instance (s : Holdings) (a : Action) : Decidable (Fair s a) := by
  unfold Fair
  split <;> infer_instance

def Started (s : Holdings) : Prop :=
  Booted s.machine ∧ s.allocated = ∅ ∧ s.errand = .freeing []

section Counting

variable {tasks : Tasks}

@[simp] theorem holding_none (root : Root) : holding none root = 0 := rfl

@[simp] theorem holding_self (root : Root) : holding (some root) root = 1 := if_pos rfl

theorem slots_update (tasks : Tasks) (id : TaskId) (task : Task) (root : Root) :
    slots (Function.update tasks id task) root + holding (tasks id).addressSpace root =
      slots tasks root + holding task.addressSpace root := by
  have moved : (fun j => holding (Function.update tasks id task j).addressSpace root) =
      Function.update (fun j => holding (tasks j).addressSpace root) id
        (holding task.addressSpace root) := by
    funext j
    by_cases same : j = id
    · rw [same, Function.update_self, Function.update_self]
    · rw [Function.update_of_ne same, Function.update_of_ne same]
  have after := Finset.sum_update_of_mem (Finset.mem_univ id)
    (fun j => holding (tasks j).addressSpace root) (holding task.addressSpace root)
  have before := Finset.sum_eq_add_sum_sdiff_singleton_of_mem (Finset.mem_univ id)
    fun j => holding (tasks j).addressSpace root
  unfold slots
  rw [moved, after, before]
  omega

theorem slots_congr {tasks tasks' : Tasks} (same : ∀ id, (tasks' id).addressSpace =
    (tasks id).addressSpace) (root : Root) : slots tasks' root = slots tasks root := by
  simp only [slots, same]

theorem slots_pos {id : TaskId} {root : Root} (holds : (tasks id).addressSpace = some root) :
    0 < slots tasks root := by
  have released := slots_update tasks id empty root
  have bare : holding empty.addressSpace root = 0 := rfl
  rw [holds, holding_self] at released
  omega

theorem slots_eq_zero {root : Root} (unheld : slots tasks root = 0) (id : TaskId) :
    (tasks id).addressSpace ≠ some root :=
  fun holds => (slots_pos holds).ne' unheld

private theorem count_toList (held : Option Root) (root : Root) :
    held.toList.count root = holding held root := by
  cases held with
  | none => rfl
  | some r => simp only [holding, Option.toList_some, List.count_singleton, beq_iff_eq, Option.some.injEq]

end Counting

section Kernels

variable {k k' : Kernel}

def load (k : Kernel) (root : Root) : Nat := slots k.tasks root + k.orphans.count root

theorem load_of_same (same : ∀ id, (k'.tasks id).addressSpace = (k.tasks id).addressSpace)
    (orphans : k'.orphans = k.orphans) (root : Root) : load k' root = load k root := by
  unfold load
  rw [slots_congr same, orphans]

/-- Nothing is gained or lost by a change that fills no slot, loads no program, and
empties no slot of a task that holds a space. -/
theorem load_kept {scope : Scope} (change : Change scope k k') (unfilled : ∀ id, ¬scope.fills id)
    (unloaded : ∀ root, ¬scope.loads root) (kept : ¬scope.reclaims)
    (fair : scope.reaps → ∀ id, id ≠ 0 → (k.tasks id).state = .finished →
      (k.tasks id).addressSpace = none) (root : Root) : load k' root = load k root := by
  cases change with
  | continues goesOn => exact load_of_same (fun id => (goesOn.goes id).self.space) goesOn.orphans root
  | born filled => exact absurd filled (unfilled _)
  | @ended leaver live others finished parent space top limit woken orphans =>
      refine load_of_same (fun id => ?_) orphans root
      by_cases same : id = leaver
      · rw [same, space]
      · exact (others id same).self.space
  | replaced loaded => exact absurd loaded (unloaded _)
  | @collected leaver child ceased tasks orphans =>
      have released := slots_update k.tasks leaver empty root
      have bare : holding empty.addressSpace root = 0 := rfl
      unfold load
      rw [tasks, orphans, List.count_append, count_toList]
      omega
  | reaped reaps tasks orphans =>
      refine load_of_same (fun id => ?_) orphans root
      rw [tasks]
      split_ifs with empties
      · rw [fair reaps id empties.2 empties.1]
        rfl
      · rfl
  | reclaimed reclaims => exact absurd reclaims kept

theorem load_reclaimed (k : Kernel) (root : Root) :
    load (orphanAddressSpaces k).2 root + (orphanAddressSpaces k).1.count root = load k root := by
  have taken : ∀ k id, load (takeSpace k id) root = load k root := by
    intro k id
    unfold takeSpace
    split_ifs
    · split
      · rename_i held holds
        have released := slots_update k.tasks id { k.tasks id with addressSpace := none } root
        have listed := count_toList (some held) root
        rw [holds] at released
        simp only [holding_none, Option.toList_some] at released listed
        simp only [load, Kernel.setTask, List.count_append]
        omega
      · rfl
    · rfl
  have all : load ((List.finRange maxTasks).foldl takeSpace k) root = load k root :=
    List.foldlRecOn (motive := fun k' => load k' root = load k root) _ _ rfl
      fun k' here id _ => (taken k' id).trans here
  rw [← all]
  simp [orphanAddressSpaces, load]

def Bare (k : Kernel) : Prop := ∀ id, (k.tasks id).state = .free → (k.tasks id).addressSpace = none

theorem bare_change {scope : Scope} (bare : Bare k) (change : Change scope k k') : Bare k' := by
  intro id free
  cases change with
  | continues goesOn =>
      exact (goesOn.goes id).self.space.trans (bare id ((goesOn.goes id).state.free_iff.mp free))
  | @born new task filled vacant birth tasks orphans =>
      have other : id ≠ new := by
        rintro rfl
        rw [tasks, Function.update_self] at free
        cases birth <;> exact absurd free (by simp [kernelTask, programTask, childTask])
      rw [tasks, Function.update_of_ne other] at free ⊢
      exact bare id free
  | @ended leaver live others finished parent space top limit woken orphans =>
      have other : id ≠ leaver := by
        rintro rfl
        rw [finished] at free
        exact absurd free (by simp)
      exact (others id other).self.space.trans (bare id ((others id other).state.free_iff.mp free))
  | @replaced task root loaded live tasks state parent space code top limit orphans =>
      have other : id ≠ k.current := by
        rintro rfl
        rw [tasks, Function.update_self, state] at free
        exact live.1 free
      rw [tasks, Function.update_of_ne other] at free ⊢
      exact bare id free
  | @collected leaver child ceased tasks orphans =>
      rw [tasks] at free ⊢
      by_cases same : id = leaver
      · rw [same, Function.update_self]
        rfl
      · rw [Function.update_of_ne same] at free ⊢
        exact bare id free
  | reaped reaps tasks orphans =>
      rw [tasks] at free ⊢
      split_ifs at free ⊢ with empties
      · rfl
      · exact bare id free
  | reclaimed reclaims tasks orphans =>
      rw [tasks] at free ⊢
      split_ifs at free ⊢ with live
      · exact bare id free
      · rfl

/-- The running task, if it has a space, runs in it. -/
def AtHome (k : Kernel) : Prop :=
  ∀ root, (k.tasks k.current).addressSpace = some root → k.activeRoot = root

theorem atHome_schedule (on : k.enabled = true) (sp : Word) (home : AtHome k) :
    AtHome (schedule k sp).2 := by
  have spaces : ∀ k', Follows (asked k sp) k' (chosen k sp) → ∀ id,
      (k'.tasks id).addressSpace = (k.tasks id).addressSpace := by
    intro k' follows id
    obtain ⟨switches, pending, eq⟩ := follows.tasks id
    obtain ⟨state, asked'⟩ := saveCurrent_task k sp id
    rw [eq]
    exact (congrArg Task.addressSpace asked' : _)
  intro root holds
  by_cases dies : Dies k sp
  · obtain ⟨k', follows, eq⟩ := schedule_kills on dies
    rw [eq] at holds ⊢
    simp only [killed, handOver_eq] at holds ⊢
    rw [holds]
    rfl
  · obtain ⟨follows, -⟩ := schedule_survives on dies
    rw [spaces _ follows, follows.current] at holds
    rw [follows.active]
    unfold rootFor
    split_ifs with same
    · refine home root ?_
      rw [← holds, same]
      rfl
    · rw [asked_spaceOf, Kernel.spaceOf, holds]
      rfl

variable {m m' : Machine} {e : Event}

private theorem atHome_still (regular : Regular m.kernel m.stage) (home : AtHome m.kernel)
    (taken : System.step m e = some m') (unloaded : loads m e = none) : AtHome m'.kernel := by
  have timed : ∀ a f, AtHome (timer m a f).kernel := fun a f =>
    atHome_schedule (k := trapped m a f) regular.on a home
  have arrived : Activation.Arrives m.kernel m'.kernel → AtHome m'.kernel := by
    rintro ⟨current, active, -, space⟩ root holds
    have same := (space m.kernel.current (Or.inr rfl) fun enters => regular.here enters.1).2
    rw [current, same] at holds
    exact active.trans (home root holds)
  by_cases framed : timerFrame m e = none
  · by_cases plain : Activation.unsplit m e = true
    · exact arrived (Activation.arrives_step regular taken plain framed)
    · cases e with
      | serve env =>
          cases inside : m.stage m.current with
          | calling context written =>
              simp only [Activation.unsplit, inCall, inside, Bool.not_eq_true', Bool.not_eq_false,
                decide_eq_true_eq] at plain
              simp only [System.step, inside, Option.ite_none_right_eq_some, Option.some.injEq] at taken
              obtain ⟨-, rfl⟩ := taken
              have execs : readFrame m.kernel.view context frameRax = sysExec := plain
              have refused : ¬Refuses env (readFrame m.kernel.view context frameRdi)
                  (readFrame m.kernel.view context frameRsi)
                  (readFrame m.kernel.view context frameRdx) → env.image = none := by
                intro accepts
                simpa only [loads, inside, if_pos (And.intro execs accepts),
                  Option.map_eq_none_iff] using unloaded
              have differs : readFrame m.kernel.view context frameRax ≠ sysExit ∧
                  readFrame m.kernel.view context frameRax ≠ sysFork := by
                rw [execs]
                decide
              have same : (handleAt m.kernel env context written).2 = m.kernel := by
                unfold handleAt handle
                simp only [if_neg differs.1, if_neg differs.2, if_pos execs, exec_refused refused]
                rfl
              rw [serve_eq, same]
              exact home
          | kernel => simp [System.step, inside] at taken
          | program => simp [System.step, inside] at taken
          | returning context result => simp [System.step, inside] at taken
          | gone => simp [System.step, inside] at taken
      | run stack image =>
          simp only [System.step, Option.ite_none_right_eq_some, Option.some.injEq] at taken
          obtain ⟨-, rfl⟩ := taken
          refine arrived ?_
          change Activation.Arrives m.kernel (spawnUser (withUserMemory m.kernel image.root
            image.memory) stack image.entry image.stack image.root (some 0) image.argc image.argv).2
          rcases spawnUser_cases (withUserMemory m.kernel image.root image.memory) stack image.entry
            image.stack image.root (some 0) image.argc image.argv with same | ⟨id, joins, -⟩
          · rw [same]
            have loaded : Activation.Stays m.kernel
                (withUserMemory m.kernel image.root image.memory) := .of_tasks rfl rfl rfl rfl
            exact loaded.arrives
          · exact .joins joins rfl rfl rfl rfl rfl
      | _ => simp [Activation.unsplit] at plain
  · cases e with
    | tick =>
        simp only [System.step, Option.ite_none_right_eq_some, Option.some.injEq] at taken
        obtain ⟨-, rfl⟩ := taken
        exact timed _ _
    | tickInside nested saved =>
        simp only [System.step, Option.ite_none_right_eq_some, Option.some.injEq] at taken
        obtain ⟨-, rfl⟩ := taken
        exact timed _ _
    | _ => exact absurd rfl framed

private theorem fork_loads {env : Surroundings} (forks : inCall m sysFork = true) :
    loads m (.serve env) = none := by
  cases inside : m.stage m.current with
  | calling context written =>
      simp only [inCall, inside, decide_eq_true_eq] at forks
      simp only [loads, inside]
      refine if_neg fun execs => ?_
      have calls : readFrame m.kernel.view context frameRax = sysFork := forks
      rw [calls] at execs
      exact absurd execs.1 (by decide)
  | kernel => simp [inCall, inside] at forks
  | program => simp [inCall, inside] at forks
  | returning context result => simp [inCall, inside] at forks
  | gone => simp [inCall, inside] at forks

private theorem loads_of_fills {id : TaskId} (fill : fills m e = some id) : loads m e = none := by
  cases e with
  | serve env =>
      simp only [fills, Option.ite_none_right_eq_some] at fill
      exact fork_loads fill.1.1
  | _ => rfl

private theorem abandons_own (regular : Regular m.kernel m.stage) (home : AtHome m.kernel)
    {root : Root} (load : loads m e = some root) :
    (m.kernel.tasks m.kernel.current).addressSpace = some m.kernel.activeRoot := by
  cases e with
  | serve env =>
      have calling : m.stage m.kernel.current ≠ .kernel ∧ m.stage m.kernel.current ≠ .gone := by
        refine ⟨fun kernel => ?_, fun gone => ?_⟩
        · have here : m.stage m.current = .kernel := kernel
          simp [loads, here] at load
        · have here : m.stage m.current = .gone := gone
          simp [loads, here] at load
      have live := regular.running calling.1 calling.2
      obtain ⟨own, holds⟩ := Option.isSome_iff_exists.mp ((regular.user _ live).mp calling.1)
      rw [holds, home own holds]
  | _ => simp [loads] at load

theorem atHome_step (regular : Regular m.kernel m.stage) (home : AtHome m.kernel)
    (taken : System.step m e = some m') : AtHome m'.kernel := by
  cases program : loads m e with
  | none => exact atHome_still regular home taken program
  | some fresh =>
      obtain ⟨current, active, -, task, tasks, space⟩ := loaded taken program
      intro root holds
      rw [current, tasks, Function.update_self, space] at holds
      exact active.trans (Option.some.inj holds)

theorem load_balance (regular : Regular m.kernel m.stage) (bare : Bare m.kernel)
    (home : AtHome m.kernel) (taken : System.step m e = some m') (plain : e ≠ .reclaim)
    (fair : e = .reap → ∀ id, id ≠ 0 → (m.kernel.tasks id).state = .finished →
      (m.kernel.tasks id).addressSpace = none) (root : Root) :
    load m'.kernel root + holding (abandoned m e) root =
      load m.kernel root + holding (created m e) root := by
  cases fill : fills m e with
  | some id =>
      obtain ⟨task, tasks, ready, -, space, orphans⟩ := filled taken fill
      have vacant : (m.kernel.tasks id).state = .free := by
        by_contra held
        have change := change_step regular taken
        cases e with
        | spawn => exact held (freeSlot_some fill)
        | run => exact held (freeSlot_some fill)
        | serve env =>
            simp only [fills, Option.ite_none_right_eq_some] at fill
            exact held (freeSlot_some fill.2)
        | _ => simp [fills] at fill
      have moved := slots_update m.kernel.tasks id task root
      rw [bare id vacant, holding_none, space] at moved
      have none' : abandoned m e = none := by simp only [abandoned, loads_of_fills fill, Option.map_none]
      have brought : created m e = spaceFor e := by simp only [created, fill]
      unfold load
      rw [tasks, orphans, none', brought, holding_none]
      omega
  | none =>
      have brought : created m e = loads m e := by simp only [created, fill]
      cases program : loads m e with
      | some fresh =>
          obtain ⟨-, -, orphans, task, tasks, space⟩ := loaded taken program
          have own := abandons_own regular home program
          have moved := slots_update m.kernel.tasks m.kernel.current task root
          have left : abandoned m e = some m.kernel.activeRoot := by
            simp only [abandoned, program, Option.map_some]
          rw [own, space] at moved
          unfold load
          rw [tasks, orphans, left, brought, program]
          omega
      | none =>
          have left : abandoned m e = none := by simp only [abandoned, program, Option.map_none]
          rw [left, brought, program]
          refine congrArg (· + 0) (load_kept (change_step regular taken) (fun id same => ?_)
            (fun root same => ?_) (fun reclaims => ?_) fair root)
          · exact absurd (fill.symm.trans same) (by simp)
          · exact absurd (program.symm.trans same) (by simp)
          · exact plain reclaims

end Kernels

/-- The invariant behind `Conserved`. -/
structure Kept (s : Holdings) : Prop where
  regular : Regular s.kernel s.machine.stage
  bare : Bare s.kernel
  home : AtHome s.kernel
  conserved : Conserved s

section Steps

variable {s s' : Holdings} {a : Action}

theorem holders_eq (s : Holdings) (root : Root) :
    holders s root = load s.kernel root + s.errand.roots.count root := rfl

theorem Conserved.held (conserved : Conserved s) {root : Root} (held : 0 < holders s root) :
    root ∈ s.allocated := by
  by_contra gone
  have none' := conserved root
  rw [if_neg gone] at none'
  omega

private theorem Conserved.balanced (conserved : Conserved s) {new old : Option Root}
    (fresh : ∀ root ∈ new, root ∉ s.allocated) (held : ∀ root ∈ old, root ∈ s.allocated)
    (allocated : s'.allocated = (new.toFinset ∪ s.allocated) \ old.toFinset)
    (balance : ∀ root, holders s' root + holding old root = holders s root + holding new root) :
    Conserved s' := by
  intro root
  have before := conserved root
  have moved := balance root
  have member : root ∈ s'.allocated ↔ (root ∈ new ∨ root ∈ s.allocated) ∧ root ∉ old := by
    rw [allocated]
    simp only [Finset.mem_sdiff, Finset.mem_union, Option.mem_toFinset]
  by_cases leaves : root ∈ old
  · have here := held root leaves
    have stays : root ∉ new := fun comes => fresh root comes here
    have newer : holding new root = 0 := if_neg stays
    have older : holding old root = 1 := if_pos leaves
    rw [if_pos here] at before
    rw [if_neg fun both => (member.mp both).2 leaves]
    omega
  · have older : holding old root = 0 := if_neg leaves
    by_cases comes : root ∈ new
    · have newer : holding new root = 1 := if_pos comes
      rw [if_neg (fresh root comes)] at before
      rw [if_pos (member.mpr ⟨Or.inl comes, leaves⟩)]
      omega
    · have newer : holding new root = 0 := if_neg comes
      have same : root ∈ s'.allocated ↔ root ∈ s.allocated := by
        rw [member]
        exact ⟨fun both => both.1.resolve_left comes, fun here => ⟨Or.inr here, leaves⟩⟩
      rw [if_congr same rfl rfl]
      omega

theorem Conserved.unheld (conserved : Conserved s) {root : Root} (gone : root ∉ s.allocated)
    (id : TaskId) : (s.kernel.tasks id).addressSpace ≠ some root := by
  have none' := conserved root
  rw [if_neg gone, holders_eq, load] at none'
  exact slots_eq_zero (by omega) id

theorem Conserved.slot (conserved : Conserved s) {id : TaskId} {root : Root}
    (holds : (s.kernel.tasks id).addressSpace = some root) : root ∈ s.allocated := by
  by_contra gone
  exact conserved.unheld gone id holds

section Machines

variable {m : Machine} {e : Event}

private theorem Kept.machine (kept : Kept s) (taken : System.step s.machine e = some m) :
    Regular m.kernel m.stage ∧ Bare m.kernel ∧ AtHome m.kernel :=
  ⟨regular_step kept.regular taken, bare_change kept.bare (change_step kept.regular taken),
    atHome_step kept.regular kept.home taken⟩

private theorem Kept.balance (kept : Kept s) (taken : System.step s.machine e = some m)
    (plain : e ≠ .reclaim) (fair : e = .reap → Fair s (.plain .reap)) (root : Root) :
    load m.kernel root + holding (abandoned s.machine e) root =
      load s.kernel root + holding (created s.machine e) root :=
  load_balance kept.regular kept.bare kept.home taken plain fair root

private theorem Kept.abandons (kept : Kept s) {root : Root} (left : root ∈ abandoned s.machine e) :
    root ∈ s.allocated := by
  simp only [abandoned, Option.mem_def, Option.map_eq_some_iff] at left
  obtain ⟨fresh, program, rfl⟩ := left
  exact kept.conserved.slot (abandons_own kept.regular kept.home program)

private theorem forgets {id : TaskId} {root : Root} (other : id ≠ 0)
    (ceased : (s.kernel.tasks id).state = .finished)
    (holds : (s.kernel.tasks id).addressSpace = some root) :
    load (reapFinished s.kernel) root < load s.kernel root := by
  obtain ⟨orphans, tasks⟩ := reapFinished_tasks s.kernel
  have fewer : slots (reapFinished s.kernel).tasks root < slots s.kernel.tasks root := by
    refine Finset.sum_lt_sum (fun j _ => ?_) ⟨id, Finset.mem_univ id, ?_⟩
    · rw [tasks]
      split_ifs
      · exact Nat.zero_le _
      · exact Nat.le_refl _
    · rw [tasks, if_pos ⟨ceased, other⟩, holds, holding_self]
      exact Nat.zero_lt_one
  unfold load
  rw [orphans]
  omega

end Machines

private theorem plain_taken {e : Event} (taken : step s (.plain e) = some s') :
    unsplit e = true ∧ (∀ root ∈ created s.machine e, Fresh s root) ∧
      System.step s.machine e = some s'.machine ∧ s'.errand = s.errand ∧
      s'.allocated = ((created s.machine e).toFinset ∪ s.allocated) \
        (abandoned s.machine e).toFinset := by
  simp only [step, Option.ite_none_right_eq_some, Option.map_eq_some_iff] at taken
  obtain ⟨⟨whole, -, fresh⟩, m, moved, rfl⟩ := taken
  exact ⟨whole, fresh, moved, rfl, rfl⟩

private theorem plain_conserved {e : Event} (kept : Kept s) (fair : Fair s (.plain e))
    (taken : step s (.plain e) = some s') : Conserved s' := by
  obtain ⟨whole, fresh, moved, errand, allocated⟩ := plain_taken taken
  have plain : e ≠ .reclaim := by
    rintro rfl
    simp [unsplit] at whole
  refine kept.conserved.balanced (fun root new => (fresh root new).1) (fun root => kept.abandons)
    allocated fun root => ?_
  have balance := kept.balance moved plain (fun reap => reap ▸ fair) root
  have here : load s'.kernel root = load s'.machine.kernel root := rfl
  simp only [holders_eq, errand]
  omega

private theorem reap_loses (kept : Kept s) (unfair : ¬Fair s (.plain .reap))
    (taken : step s (.plain .reap) = some s') : ¬Conserved s' := by
  obtain ⟨-, -, moved, errand, allocated⟩ := plain_taken taken
  simp only [Fair, not_forall] at unfair
  obtain ⟨id, other, ceased, holds⟩ := unfair
  obtain ⟨root, holds⟩ := Option.ne_none_iff_exists'.mp holds
  simp only [System.step, Option.ite_none_right_eq_some, Option.some.injEq] at moved
  have fewer := forgets other ceased holds
  have here := kept.conserved.slot holds
  have same : s'.allocated = s.allocated := by
    rw [allocated]
    simp [created, abandoned, fills, loads]
  have kernel : s'.kernel = reapFinished s.kernel := congrArg Machine.kernel moved.2.symm
  have before := kept.conserved root
  intro conserved
  have after := conserved root
  rw [if_pos (same ▸ here), holders_eq, kernel, errand] at after
  rw [if_pos here, holders_eq] at before
  omega

private theorem forkStops_loses {env : Surroundings} {fresh : Root} (kept : Kept s)
    (taken : step s (.forkStops env fresh) = some s') : ¬Conserved s' := by
  simp only [step, Option.ite_none_right_eq_some, Option.map_eq_some_iff] at taken
  obtain ⟨⟨forks, spaceless, new⟩, m, moved, rfl⟩ := taken
  have unfilled : fills s.machine (.serve env) = none := by simp [fills, spaceless]
  have unloaded : loads s.machine (.serve env) = none := fork_loads forks
  have balance := kept.balance moved (by simp) (by simp) fresh
  have before := kept.conserved fresh
  simp only [abandoned, created, unfilled, unloaded, Option.map_none, holding_none] at balance
  rw [if_neg new.1, holders_eq] at before
  intro conserved
  have after := conserved fresh
  rw [if_pos (Finset.mem_insert_self _ _), holders_eq] at after
  have same : load m.kernel fresh = 0 := by omega
  simp only [Holdings.kernel, same] at after
  omega

private theorem create_conserved {fresh : Root} (conserved : Conserved s)
    (taken : step s (.create fresh) = some s') : Conserved s' := by
  simp only [step, Option.ite_none_right_eq_some, Option.some.injEq] at taken
  obtain ⟨⟨⟨-, -, idle⟩, new⟩, rfl⟩ := taken
  intro root
  have before := conserved root
  simp only [holders_eq, idle, Errand.roots, List.count_nil] at before
  simp only [holders_eq, Errand.roots, Finset.mem_insert, List.count_singleton]
  by_cases same : fresh = root
  · subst same
    rw [if_neg new.1] at before
    simp only [beq_self_eq_true, true_or, if_true]
    change load s.kernel fresh + 1 = 1
    omega
  · simp only [beq_iff_eq, Ne.symm same, false_or, if_neg same]
    exact before

private theorem start_conserved {stack : Word} {image : Image} (kept : Kept s)
    (taken : step s (.start stack image) = some s') : Conserved s' := by
  simp only [step, Option.ite_none_right_eq_some, Option.map_eq_some_iff] at taken
  obtain ⟨⟨-, -, loading⟩, m, moved, rfl⟩ := taken
  intro root
  have balance := kept.balance moved (by simp) (by simp) root
  have before := kept.conserved root
  have left : abandoned s.machine (.run stack image) = none := rfl
  simp only [holders_eq, loading, Errand.roots] at before
  rw [left, holding_none] at balance
  rw [← before]
  simp only [holders_eq, Holdings.kernel]
  rcases Option.eq_none_or_eq_some (freeSlot s.machine.kernel.tasks) with full | ⟨id, free⟩
  · have brought : created s.machine (.run stack image) = none := by
      simp [created, fills, full, loads]
    rw [brought, holding_none] at balance
    simp only [full, Option.isSome_none, Bool.false_eq_true, if_false, Errand.roots]
    exact congrArg (· + [image.root].count root) balance
  · have brought : created s.machine (.run stack image) = some image.root := by
      simp [created, fills, free, spaceFor]
    have counted := count_toList (some image.root) root
    simp only [Option.toList_some] at counted
    rw [brought] at balance
    simp only [free, Option.isSome_some, if_true, Errand.roots, List.count_nil]
    exact balance.trans (by rw [counted]; rfl)

private theorem reclaim_conserved (conserved : Conserved s)
    (taken : step s .reclaim = some s') : Conserved s' := by
  simp only [step, Option.ite_none_right_eq_some, Option.map_eq_some_iff] at taken
  obtain ⟨⟨-, -, idle⟩, m, moved, rfl⟩ := taken
  simp only [System.step, Option.ite_none_right_eq_some, Option.some.injEq] at moved
  obtain ⟨-, rfl⟩ := moved
  intro root
  have before := conserved root
  simp only [holders_eq, idle, Errand.roots, List.count_nil] at before
  exact (load_reclaimed s.kernel root).trans before

private theorem destroy_taken (taken : step s .destroy = some s') :
    ∃ root rest, s.errand.roots = root :: rest ∧
      s' = { s with allocated := s.allocated.erase root, errand := .freeing rest } := by
  cases queue : s.errand.roots with
  | nil => simp [step, queue] at taken
  | cons root rest =>
      simp only [step, queue, Option.ite_none_right_eq_some, Option.some.injEq] at taken
      exact ⟨root, rest, rfl, taken.2.symm⟩

private theorem destroy_conserved (conserved : Conserved s) (taken : step s .destroy = some s') :
    Conserved s' := by
  obtain ⟨root, rest, queue, rfl⟩ := destroy_taken taken
  intro other
  have before := conserved other
  simp only [holders_eq, queue, List.count_cons] at before
  simp only [holders_eq, Errand.roots, Finset.mem_erase]
  change load s.kernel other + rest.count other = _
  by_cases same : other = root
  · subst same
    rw [beq_self_eq_true, if_pos rfl] at before
    rw [if_neg fun both => both.1 rfl]
    have once : (if other ∈ s.allocated then 1 else 0) ≤ 1 := by
      split_ifs
      · exact Nat.le_refl 1
      · exact Nat.zero_le 1
    omega
  · have apart : (root == other) = false := beq_false_of_ne (Ne.symm same)
    simp only [apart, Bool.false_eq_true, if_false] at before
    simp only [ne_eq, same, not_false_eq_true, true_and]
    exact before

private theorem machine_taken (taken : step s a = some s') :
    s'.machine = s.machine ∨ ∃ e, System.step s.machine e = some s'.machine := by
  cases a with
  | plain e => exact Or.inr ⟨e, (plain_taken taken).2.2.1⟩
  | forkStops env fresh =>
      simp only [step, Option.ite_none_right_eq_some, Option.map_eq_some_iff] at taken
      obtain ⟨-, m, moved, rfl⟩ := taken
      exact Or.inr ⟨_, moved⟩
  | create fresh =>
      simp only [step, Option.ite_none_right_eq_some, Option.some.injEq] at taken
      obtain ⟨-, rfl⟩ := taken
      exact Or.inl rfl
  | start stack image =>
      simp only [step, Option.ite_none_right_eq_some, Option.map_eq_some_iff] at taken
      obtain ⟨-, m, moved, rfl⟩ := taken
      exact Or.inr ⟨_, moved⟩
  | reclaim =>
      simp only [step, Option.ite_none_right_eq_some, Option.map_eq_some_iff] at taken
      obtain ⟨-, m, moved, rfl⟩ := taken
      exact Or.inr ⟨_, moved⟩
  | destroy =>
      obtain ⟨root, rest, -, rfl⟩ := destroy_taken taken
      exact Or.inl rfl

theorem conserved_step (kept : Kept s) (taken : step s a = some s') : Conserved s' ↔ Fair s a := by
  refine ⟨fun conserved => ?_, fun fair => ?_⟩
  · by_contra unfair
    cases a with
    | plain e =>
        cases e with
        | reap => exact reap_loses kept unfair taken conserved
        | _ => exact unfair trivial
    | forkStops env fresh => exact forkStops_loses kept taken conserved
    | _ => exact unfair trivial
  · cases a with
    | plain e => exact plain_conserved kept fair taken
    | forkStops env fresh => exact fair.elim
    | create fresh => exact create_conserved kept.conserved taken
    | start stack image => exact start_conserved kept taken
    | reclaim => exact reclaim_conserved kept.conserved taken
    | destroy => exact destroy_conserved kept.conserved taken

theorem kept_step (kept : Kept s) (fair : Fair s a) (taken : step s a = some s') : Kept s' := by
  have conserved := (conserved_step kept taken).mpr fair
  rcases machine_taken taken with same | ⟨e, moved⟩
  · have kernel : s'.kernel = s.kernel := congrArg Machine.kernel same
    refine ⟨?_, ?_, ?_, conserved⟩
    · rw [kernel, same]
      exact kept.regular
    · rw [kernel]
      exact kept.bare
    · rw [kernel]
      exact kept.home
  · obtain ⟨regular, bare, home⟩ := kept.machine moved
    exact ⟨regular, bare, home, conserved⟩

theorem released_gone (kept : Kept s) (taken : step s a = some s') {root : Root}
    (released : root ∈ released s a) : root ∈ s.allocated ∧ root ∉ s'.allocated ∧
      ∀ id, (s'.kernel.tasks id).addressSpace ≠ some root := by
  have gone : root ∈ s.allocated ∧ root ∉ s'.allocated ∧ Fair s a := by
    cases a with
    | plain e =>
        obtain ⟨-, -, -, -, allocated⟩ := plain_taken taken
        refine ⟨kept.abandons released, fun stays => ?_, ?_⟩
        · rw [allocated, Finset.mem_sdiff, Option.mem_toFinset] at stays
          exact stays.2 released
        · cases e with
          | reap => simp [Roots.released, abandoned, loads] at released
          | _ => trivial
    | destroy =>
        obtain ⟨first, rest, queue, rfl⟩ := destroy_taken taken
        simp only [Roots.released, queue, List.head?_cons, Option.mem_def, Option.some.injEq]
          at released
        subst released
        refine ⟨kept.conserved.held ?_, Finset.notMem_erase _ _, trivial⟩
        rw [holders_eq, queue, List.count_cons_self]
        omega
    | forkStops env fresh => simp [Roots.released] at released
    | create fresh => simp [Roots.released] at released
    | start stack image => simp [Roots.released] at released
    | reclaim => simp [Roots.released] at released
  obtain ⟨here, left, fair⟩ := gone
  exact ⟨here, left, ((conserved_step kept taken).mpr fair).unheld left⟩

end Steps

theorem kept_started {s : Holdings} (started : Started s) : Kept s := by
  obtain ⟨booted, allocated, errand⟩ := started
  have run : Reached System.step Booted (fun _ _ => True) s.machine := .start booted
  have regular := regular_of_reached run
  obtain ⟨memory, root, rsp0, ticks, eq⟩ := booted
  have bare : ∀ id, (s.kernel.tasks id).addressSpace = none := by
    intro id
    unfold Holdings.kernel
    rw [eq]
    by_cases shell : id = 0
    · simp [boot, shell, empty]
    · simp [boot, shell, empty]
  refine ⟨regular, fun id _ => bare id, fun own holds => ?_, fun own => ?_⟩
  · rw [bare] at holds
    exact absurd holds (by simp)
  · have slotless : slots s.kernel.tasks own = 0 := by
      simp only [slots, bare, holding_none, Finset.sum_const_zero]
    have orphans : s.kernel.orphans = [] := by
      unfold Holdings.kernel
      rw [eq]
      rfl
    rw [allocated, if_neg (Finset.notMem_empty own), holders_eq, load, slotless, orphans, errand]
    rfl

/-- In a run in which no `fork` stops halfway and `reap_finished` never meets a task that
holds a space, every space is held once from its creation to its end; what is destroyed is
allocated and in no slot; and the next action keeps it so if and only if it is such an action. -/
theorem roots_conserved_iff {s : Holdings} (run : Reached step Started Fair s) :
    Conserved s ∧ ∀ a s', step s a = some s' → (Conserved s' ↔ Fair s a) ∧
      ∀ root ∈ released s a, root ∈ s.allocated ∧ root ∉ s'.allocated ∧
        ∀ id, (s'.kernel.tasks id).addressSpace ≠ some root := by
  have kept : Kept s := by
    exact run.invariant (P := Kept) (fun _ => kept_started) fun s a s' kept fair taken =>
      kept_step kept fair taken
  exact ⟨kept.conserved, fun a s' taken => ⟨conserved_step kept taken, fun root =>
    released_gone kept taken⟩⟩

section Scenario

private def idle : Holdings := ⟨System.started, ∅, .freeing []⟩

private theorem idle_started : Started idle := ⟨⟨_, _, _, _, rfl⟩, rfl, rfl⟩

/-- The running program makes call `number`, and this is what becomes of it. -/
private def asks (number : Word) (env : Surroundings) : List Action :=
  [.plain (.compute (fun i => if i = frameRax then number
    else userFrame 0x400000 0x10ff00 1 0x10ff40 i) fun _ => 0), .plain .call, .plain (.serve env)]

private def shellAgain : Action :=
  .plain (.tickInside 0x444444450000 fun i => if i = frameCs then kernelCode else 0)

private def launches : List Action :=
  [.create (rootAt 0x2000), .start 0x444444441000 program, .plain .wait, .plain firstTick]

/-- The program forks and exits, and the shell has taken what it left; Ctrl-C ends the
child, and the shell empties the finished slots. -/
private def orphaned : List Action :=
  launches ++ asks sysFork ⟨lowHalf, some (rootAt 0x3000), 0x444444461000, none, []⟩ ++
    [.plain .leave] ++ asks sysExit ⟨lowHalf, none, 0, none, []⟩ ++
    [shellAgain, .plain .wait, .reclaim, .destroy, .plain (.block 0x5000), .plain .interrupt,
      .plain firstTick, .plain (.wake 0x5000), .plain .reap]

private theorem orphaned_facts : ((runAll step idle orphaned).any fun s =>
    decide (⟨0x3000, by decide⟩ ∈ s.allocated ∧ s.kernel.orphans = [] ∧
      s.errand.roots = [] ∧ ∀ id, (s.kernel.tasks id).addressSpace = none)) = true := by
  decide +kernel

/-- The space of a child that outlived its parent is lost. -/
theorem root_lost : ∃ s, Reached step Started (fun _ _ => True) s ∧ ¬Conserved s := by
  obtain ⟨s, reached, facts⟩ := Reached.freely Started idle_started orphaned_facts
  obtain ⟨here, orphans, errand, bare⟩ := of_decide_eq_true facts
  refine ⟨s, reached, fun conserved => ?_⟩
  have once := conserved ⟨0x3000, by decide⟩
  rw [if_pos here, holders_eq, load, orphans, errand] at once
  simp [slots, bare] at once

private def settled : Option Holdings :=
  runAll (fun s a => if Fair s a then step s a else none) idle
    (launches ++ asks sysExit ⟨lowHalf, none, 0, none, []⟩ ++
      [shellAgain, .plain .wait, .reclaim, .destroy, .plain .reap])

private theorem settled_facts : (settled.any fun s =>
    decide (s.allocated = ∅ ∧ s.kernel.orphans = [])) = true := by
  decide +kernel

/-- The space of a program that exits comes back. -/
theorem roots_conserved_iff_one : ∃ s, s.allocated = ∅ ∧ s.kernel.orphans = [] ∧ Conserved s ∧
    ∀ a s', step s a = some s' → (Conserved s' ↔ Fair s a) ∧
      ∀ root ∈ released s a, root ∈ s.allocated ∧ root ∉ s'.allocated ∧
        ∀ id, (s'.kernel.tasks id).addressSpace ≠ some root := by
  obtain ⟨s, taken, facts⟩ := Option.any_eq_true _ _ |>.mp settled_facts
  simp only [decide_eq_true_eq] at facts
  have run : Reached step Started Fair s := (Reached.start idle_started).runGuarded taken
  exact ⟨s, facts.1, facts.2, roots_conserved_iff run⟩

end Scenario

end FiveAM.Process.Roots
