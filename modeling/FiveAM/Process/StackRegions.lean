/- GID: FiveAM/Process/StackRegions
   source: kernel/src/user.rs, kernel/src/task.rs, kernel/src/memory.rs
   digest: Which tasks have a stack that grows, and which one map_stack promised it to. -/

import FiveAM.Process.Activation
import FiveAM.Process.Changes
import FiveAM.Memory.StackGrowth

set_option autoImplicit false
set_option relaxedAutoImplicit false

namespace FiveAM.Process.StackRegions

open FiveAM.Process.TaskTable FiveAM.Process.Machine FiveAM.Process.Pipes FiveAM.Process.Signals
open FiveAM.Process.Lifecycle FiveAM.Process.Syscalls FiveAM.Process.Schedule
open FiveAM.Process.System FiveAM.Process.Effects FiveAM.Process.TableShape
open FiveAM.Process.Changes FiveAM.Process.Activation
open FiveAM.Process.Completion (inCall)
open FiveAM.Lib.ByteMemory FiveAM.Lib.Runs FiveAM.Sched.Mechanism
open FiveAM.Memory.Frames (Paging)
open FiveAM.Memory.Entries (has present indexes pageOf)
open FiveAM.Memory.Swap (demandFault)
open FiveAM.Memory.Ownership (Books leafAt)
open FiveAM.Memory.Spaces (missing)
open FiveAM.Memory.StackGrowth (Backs)

/-- The loader with two histories of `map_stack`. -/
structure Stacks where
  loader : Loader
  /-- It is done with, in the image the task is loading. -/
  mapped : TaskId → Bool
  /-- The task has been through it, or was forked by a task that had. -/
  promised : TaskId → Bool

namespace Stacks

def kernel (s : Stacks) : Kernel := s.loader.machine.kernel

def current (s : Stacks) : TaskId := s.loader.machine.kernel.current

end Stacks

/-- `exec` is at work, or `run_bytes_named`, which only the shell calls. -/
def Loading (s : Stacks) : Prop := s.current = 0 ∨ inCall s.loader.machine sysExec = true

instance (s : Stacks) : Decidable (Loading s) := inferInstanceAs (Decidable (_ ∨ _))

/-- `map_stack` is called once for an image, after `elf::load`; nothing is refused once
it has succeeded, and no program is recorded or started before. -/
def InOrder (s : Stacks) : Action → Prop
  | .begin _ => Loading s
  | .promise => Loading s ∧ s.mapped s.current = false
  | .giveUp => s.mapped s.current = false
  | .clear => s.mapped s.current = true
  | .adopt => s.mapped s.current = true
  | .spawn _ _ _ _ _ => s.current = 0 ∧ s.mapped s.current = true
  | _ => True

instance (s : Stacks) (a : Action) : Decidable (InOrder s a) := by
  unfold InOrder
  split <;> infer_instance

/-- What a task that takes a free slot inherits: the child of a `fork` is promised what
its parent was. -/
def inherits (s : Stacks) : Action → Bool
  | .plain (.serve _) => s.promised s.current
  | _ => false

def noteMapped (s : Stacks) : Action → TaskId → Bool
  | .begin _ => Function.update s.mapped s.current false
  | .promise => Function.update s.mapped s.current true
  | _ => s.mapped

def notePromised (s : Stacks) : Action → TaskId → Bool
  | .promise => Function.update s.promised s.current true
  | _ => s.promised

def record (s : Stacks) (a : Action) (l : Loader) : Stacks where
  loader := l
  mapped id := if Enters s.kernel l.machine.kernel id then false else noteMapped s a id
  promised id := if Enters s.kernel l.machine.kernel id then inherits s a else notePromised s a id

/-- One action; `none` where it cannot happen. -/
def step (s : Stacks) (a : Action) : Option Stacks :=
  if InOrder s a then (Activation.step s.loader a).map (record s a) else none

def Started (s : Stacks) : Prop :=
  Activation.Started s.loader ∧ (∀ id, s.mapped id = false) ∧ ∀ id, s.promised id = false

def stackRegion (k : Kernel) (id : TaskId) : Word × Word :=
  ((k.tasks id).stackTop, (k.tasks id).stackLimit)

def wholeStack : Word × Word := (userStackTop, userStackLimit)

/-- Every live user task has the whole stack, and no live kernel task has any. -/
def Regions (k : Kernel) : Prop :=
  ∀ id, (k.tasks id).state.Live →
    stackRegion k id = if (k.tasks id).addressSpace.isSome then wholeStack else (0, 0)

/-- `demand_fault` for the running task. -/
def stackFault (k : Kernel) (p : Paging) (address : Word) : Option Word × Paging :=
  demandFault p (stackRegion k k.current).1 (stackRegion k k.current).2 address

def InStack (address : Word) : Prop := userStackLimit ≤ address ∧ address < userStackTop

/-- Nothing is mapped at the address, and nothing is swapped out there. -/
def Unbacked (p : Paging) (address : Word) : Prop :=
  leafAt p.words p.cr3 (indexes address) = 0

def Absent (p : Paging) (address : Word) : Prop :=
  has (leafAt p.words p.cr3 (indexes address))
    present = false

/-- A frame is free for the page, and one for each table it lacks. -/
def Room (p : Paging) (address : Word) : Prop :=
  missing p.words p.cr3 address < p.free

/-- Whatever the memory is like, the stack of a running user task grows where nothing
was backed yet, and `demand_fault` maps nothing else. -/
def Served (k : Kernel) : Prop :=
  ∀ (p : Paging) (managed live : Finset Word) (hand chain : List Word),
    Books p managed live hand chain → p.cr3 ∈ live → ∀ address,
      ((k.tasks k.current).addressSpace.isSome ∧ InStack address ∧ Unbacked p address →
        Room p address → Backs p live address (stackFault k p address)) ∧
      (¬((k.tasks k.current).addressSpace.isSome ∧ InStack address ∧ Unbacked p address) →
        stackFault k p address = (none, p))

/-- Every user task has the stack it was promised. -/
def AsPromised (k : Kernel) : Prop := Regions k ∧ Served k

section Faults

variable {k : Kernel} {p : Paging} {managed live : Finset Word} {hand chain : List Word}
  {address : Word}

private theorem below_end (inside : InStack address) : address < Memory.PageTables.userSpaceEnd := by
  have top : userStackTop < Memory.PageTables.userSpaceEnd := by decide
  have below := inside.2
  rw [BitVec.lt_def] at below top ⊢
  omega

private theorem page_above : pageOf address < userStackLimit ↔ address < userStackLimit :=
  Memory.StackGrowth.pageOf_lt (by decide)

theorem stackFault_none (bare : stackRegion k k.current = (0, 0)) :
    stackFault k p address = (none, p) := by
  unfold stackFault
  rw [bare]
  exact Memory.StackGrowth.demandFault_declines (Or.inl rfl)

theorem stackFault_backs (whole : stackRegion k k.current = wholeStack)
    (books : Books p managed live hand chain) (member : p.cr3 ∈ live) (inside : InStack address)
    (absent : Absent p address) (room : Room p address) :
    Backs p live address (stackFault k p address) := by
  unfold stackFault
  rw [whole]
  refine Memory.StackGrowth.demandFault_backs books member (below_end inside) (by decide) inside.2
    (fun below => ?_) absent room
  exact BitVec.not_le.mpr (page_above.mp below) inside.1

theorem stackFault_declines (whole : stackRegion k k.current = wholeStack)
    (books : Books p managed live hand chain) (member : p.cr3 ∈ live)
    (outside : ¬(InStack address ∧ Absent p address)) : stackFault k p address = (none, p) := by
  unfold stackFault
  rw [whole]
  refine Memory.StackGrowth.demandFault_declines (Or.inr ?_)
  by_cases above : userStackTop ≤ address
  · exact Or.inl above
  by_cases below : address < userStackLimit
  · exact Or.inr (Or.inl (page_above.mpr below))
  have inside : InStack address := ⟨BitVec.not_lt.mp below, BitVec.not_le.mp above⟩
  refine Or.inr (Or.inr ?_)
  rw [Memory.StackGrowth.translate_isSome (books.sound p.cr3 member)
    (Memory.CopyOnWrite.low_of_user (below_end inside))]
  exact Bool.eq_true_of_not_eq_false fun absent => outside ⟨inside, absent⟩

end Faults

section Tables

variable {k k' : Kernel}

/-- What an event that loads no program does to one slot of the table. -/
inductive Slot (k k' : Kernel) (id : TaskId) : Prop
  | held (before : (k.tasks id).state ≠ .free) (after : (k'.tasks id).state ≠ .free)
      (region : stackRegion k' id = stackRegion k id)
      (space : (k'.tasks id).addressSpace.isSome → (k.tasks id).addressSpace.isSome)
  | vacant (after : (k'.tasks id).state = .free)
      (region : stackRegion k' id = (0, 0) ∨
        (k.tasks id).state = .free ∧ stackRegion k' id = stackRegion k id)
      (space : (k'.tasks id).addressSpace.isSome → (k.tasks id).addressSpace.isSome)
  | entered (enters : Enters k k' id)

private theorem Slot.of_same {id : TaskId} (region : stackRegion k' id = stackRegion k id)
    (space : (k'.tasks id).addressSpace = (k.tasks id).addressSpace)
    (free : (k'.tasks id).state = .free ↔ (k.tasks id).state = .free) : Slot k k' id := by
  have kept : (k'.tasks id).addressSpace.isSome → (k.tasks id).addressSpace.isSome := by
    rw [space]
    exact fun there => there
  by_cases here : (k.tasks id).state = .free
  · exact .vacant (free.mpr here) (Or.inr ⟨here, region⟩) kept
  · exact .held here (fun gone => here (free.mp gone)) region kept

private theorem Slot.of_goes {runs id : TaskId} (goes : Goes runs k k' id) : Slot k k' id :=
  .of_same (Prod.ext goes.self.top goes.self.limit) goes.self.space goes.state.free_iff

theorem Slot.of_eq {id : TaskId} (kept : k'.tasks id = k.tasks id) : Slot k k' id := by
  refine .of_same ?_ ?_ ?_
  · unfold stackRegion
    rw [kept]
  · rw [kept]
  · rw [kept]

private theorem Slot.of_empty {id : TaskId} (emptied : k'.tasks id = empty) : Slot k k' id := by
  refine .vacant ?_ (Or.inl ?_) ?_
  · rw [emptied]
    rfl
  · unfold stackRegion
    rw [emptied]
    rfl
  · rw [emptied]
    exact fun there => absurd there (by simp [empty])

theorem slot_of_change {scope : Scope} (change : Change scope k k')
    (unloaded : ∀ root, ¬scope.loads root) (id : TaskId) : Slot k k' id := by
  cases change with
  | continues goesOn => exact .of_goes (goesOn.goes id)
  | @born new task filled vacant birth tasks orphans =>
      by_cases same : id = new
      · refine .entered ⟨same ▸ vacant, ?_⟩
        rw [tasks, same, Function.update_self]
        cases birth <;> simp [kernelTask, programTask, childTask]
      · exact .of_eq (by rw [tasks, Function.update_of_ne same])
  | @ended gone live others finished parent space top limit woken orphans =>
      by_cases same : id = gone
      · subst same
        refine .held live.1 (by simp [finished]) (Prod.ext top limit) ?_
        rw [space]
        exact fun there => there
      · exact .of_goes (others id same)
  | replaced loaded => exact absurd loaded (unloaded _)
  | @collected gone child ceased tasks orphans =>
      by_cases same : id = gone
      · exact .of_empty (by rw [tasks, same, Function.update_self])
      · exact .of_eq (by rw [tasks, Function.update_of_ne same])
  | reaped reaps tasks orphans =>
      by_cases ceased : (k.tasks id).state = .finished ∧ id ≠ 0
      · exact .of_empty (by rw [tasks, if_pos ceased])
      · exact .of_eq (by rw [tasks, if_neg ceased])
  | reclaimed reclaims tasks orphans =>
      by_cases live : (k.tasks id).state.Live
      · exact .of_eq (by rw [tasks, if_pos live])
      · have taken : k'.tasks id = { k.tasks id with addressSpace := none } := by
          rw [tasks, if_neg live]
        have region : stackRegion k' id = stackRegion k id := by
          unfold stackRegion
          rw [taken]
        have bare : (k'.tasks id).addressSpace.isSome → (k.tasks id).addressSpace.isSome := by
          rw [taken]
          exact fun there => absurd there (by simp)
        by_cases free : (k.tasks id).state = .free
        · exact .vacant (by rw [taken]; exact free) (Or.inr ⟨free, region⟩) bare
        · exact .held free (by rw [taken]; exact free) region bare

variable {m m' : Machine} {e : Event}

private theorem loads_none (plain : Activation.unsplit m e = true) : loads m e = none := by
  cases e with
  | serve env =>
      cases inside : m.stage m.current with
      | calling context written =>
          simp only [Activation.unsplit, inCall, inside, Bool.not_eq_true', decide_eq_false_iff_not]
            at plain
          simp only [loads, inside]
          exact if_neg fun execs => plain execs.1
      | kernel => simp [loads, inside]
      | program => simp [loads, inside]
      | returning context result => simp [loads, inside]
      | gone => simp [loads, inside]
  | _ => rfl

private theorem born_of_enters {scope : Scope} (change : Change scope k k') {id : TaskId}
    (enters : Enters k k' id) : Born k (k.tasks id) (k'.tasks id) := by
  obtain ⟨free, taken⟩ := enters
  cases change with
  | continues goesOn => exact absurd ((goesOn.goes id).state.free_iff.mpr free) taken
  | @born new task filled vacant birth tasks orphans =>
      by_cases same : id = new
      · subst same
        rw [tasks, Function.update_self]
        exact birth
      · rw [tasks, Function.update_of_ne same] at taken
        exact absurd free taken
  | @ended gone live others finished parent space top limit woken orphans =>
      by_cases same : id = gone
      · exact absurd (same ▸ free) live.1
      · exact absurd ((others id same).state.free_iff.mpr free) taken
  | @replaced task root loaded live tasks state parent space code top limit orphans =>
      by_cases same : id = k.current
      · exact absurd (same ▸ free) live.1
      · rw [tasks, Function.update_of_ne same] at taken
        exact absurd free taken
  | @collected gone child ceased tasks orphans =>
      by_cases same : id = gone
      · rw [tasks, same, Function.update_self] at taken
        exact absurd rfl taken
      · rw [tasks, Function.update_of_ne same] at taken
        exact absurd free taken
  | reaped reaps tasks orphans =>
      rw [tasks] at taken
      split_ifs at taken with ceased
      · exact absurd rfl taken
      · exact absurd free taken
  | reclaimed reclaims tasks orphans =>
      rw [tasks] at taken
      split_ifs at taken with live
      · exact absurd free taken
      · exact absurd free taken

theorem user_in_call (regular : Regular m.kernel m.stage) {number : Word}
    (calls : inCall m number = true) :
    m.kernel.current ≠ 0 ∧ (m.kernel.tasks m.kernel.current).addressSpace.isSome = true := by
  have user : m.stage m.kernel.current ≠ .kernel ∧ m.stage m.kernel.current ≠ .gone := by
    refine ⟨fun kernel => ?_, fun gone => ?_⟩
    · have here : m.stage m.current = .kernel := kernel
      simp [inCall, here] at calls
    · have here : m.stage m.current = .gone := gone
      simp [inCall, here] at calls
  refine ⟨fun shell => ?_, ?_⟩
  · rw [shell] at user
    exact user.1 regular.shell.1
  · exact (regular.user _ (regular.running user.1 user.2)).mp user.1

private theorem newcomer (regular : Regular m.kernel m.stage) (taken : System.step m e = some m')
    (plain : Activation.unsplit m e = true) {id : TaskId} (enters : Enters m.kernel m'.kernel id) :
    ((∃ env, e = .serve env) ∧ (m.kernel.tasks m.kernel.current).addressSpace.isSome = true ∧
        stackRegion m'.kernel id = stackRegion m.kernel m.kernel.current) ∨
      ((¬∃ env, e = .serve env) ∧ stackRegion m'.kernel id = stackRegion m.kernel id ∧
        (m'.kernel.tasks id).addressSpace = none) := by
  have fill : fills m e = some id :=
    ((change_step regular taken).occupied enters.2).resolve_left fun held => held enters.1
  obtain ⟨task, entry, -, parent, space, -⟩ := filled taken fill
  have birth := born_of_enters (change_step regular taken) enters
  have at' : m'.kernel.tasks id = task := by rw [entry, Function.update_self]
  rw [at'] at birth
  unfold stackRegion
  rw [at']
  have serves : ∀ env, e = .serve env → task.addressSpace.isSome = true ∧ m.kernel.current ≠ 0 ∧
      (m.kernel.tasks m.kernel.current).addressSpace.isSome = true := by
    rintro env rfl
    simp only [fills, Option.ite_none_right_eq_some] at fill
    exact ⟨by rw [space]; exact fill.1.2, user_in_call regular fill.1.1⟩
  cases birth with
  | kernel stack priority =>
      refine Or.inr ⟨?_, rfl, rfl⟩
      rintro ⟨env, rfl⟩
      exact absurd (serves env rfl).1 (by simp [kernelTask])
  | program stack root =>
      cases e with
      | serve env => exact absurd (Option.some.inj parent).symm (serves env rfl).2.1
      | run => simp [Activation.unsplit] at plain
      | spawn => simp [parentOf, programTask] at parent
      | _ => simp [fills] at fill
  | child stack root =>
      cases e with
      | serve env => exact Or.inl ⟨⟨env, rfl⟩, (serves env rfl).2.2, rfl⟩
      | run => simp [Activation.unsplit] at plain
      | spawn => simp [parentOf, childTask] at parent
      | _ => simp [fills] at fill

end Tables

/-- The invariant: a task has the stack it was promised. -/
structure Kept (s : Stacks) : Prop where
  regular : Regular s.kernel s.loader.machine.stage
  region : ∀ id, stackRegion s.kernel id =
    if (s.kernel.tasks id).state ≠ .free ∧ s.promised id = true then wholeStack else (0, 0)
  first : ∀ id, s.promised id = true → s.promised 0 = true
  begun : ∀ id, (s.kernel.tasks id).addressSpace.isSome = true → s.promised 0 = true
  mapped : s.mapped 0 = true → s.promised 0 = true

section Steps

variable {s s' : Stacks} {a : Action} {l : Loader}

private theorem Kept.shell_stays (kept : Kept s) : ¬Enters s.kernel l.machine.kernel 0 :=
  fun enters => kept.regular.shell.2.1 enters.1

private theorem Kept.running (kept : Kept s) : stackRegion s.kernel s.current =
    if s.promised s.current = true then wholeStack else (0, 0) := by
  rw [kept.region]
  exact if_congr (and_iff_right kept.regular.here) rfl rfl

private theorem Kept.free_slot (kept : Kept s) {id : TaskId}
    (free : (s.kernel.tasks id).state = .free) : stackRegion s.kernel id = (0, 0) := by
  rw [kept.region, if_neg fun both => both.1 free]

private theorem promised_of_inherits (heir : inherits s a = true) : s.promised s.current = true := by
  cases a with
  | plain e =>
      cases e with
      | serve env => exact heir
      | _ => exact absurd heir (by simp [inherits])
  | _ => exact absurd heir (by simp [inherits])

private theorem Kept.moves (kept : Kept s) (regular : Regular l.machine.kernel l.machine.stage)
    (slots : ∀ id, Slot s.kernel l.machine.kernel id)
    (mapped : noteMapped s a 0 = true → s.mapped 0 = true) (promised : notePromised s a = s.promised)
    (enters : ∀ id, Enters s.kernel l.machine.kernel id →
      stackRegion l.machine.kernel id = (if inherits s a = true then wholeStack else (0, 0)) ∧
      ((l.machine.kernel.tasks id).addressSpace.isSome = true → s.promised 0 = true)) :
    Kept (record s a l) := by
  have still : ∀ id, ¬Enters s.kernel l.machine.kernel id →
      (record s a l).promised id = s.promised id := fun id stays =>
    (if_neg stays).trans (congrFun promised id)
  have shell := still 0 kept.shell_stays
  have kernel : (record s a l).kernel = l.machine.kernel := rfl
  refine ⟨regular, fun id => ?_, fun id begun => ?_, fun id there => ?_, fun done => ?_⟩
  · rw [kernel]
    cases slots id with
    | held before after region =>
        rw [region, kept.region, still id fun enters => before enters.1]
        exact if_congr (and_congr_left fun _ => iff_of_true before after) rfl rfl
    | vacant after region =>
        rw [if_neg fun both => both.1 after]
        rcases region with bare | ⟨free, same⟩
        · exact bare
        · exact same.trans (kept.free_slot free)
    | entered entered =>
        rw [(enters id entered).1]
        have heir : (record s a l).promised id = inherits s a := if_pos entered
        rw [heir]
        exact (if_congr (and_iff_right entered.2) rfl rfl).symm
  · rw [shell]
    by_cases entered : Enters s.kernel l.machine.kernel id
    · have heir : inherits s a = true := (if_pos entered).symm.trans begun
      exact kept.first _ (promised_of_inherits heir)
    · exact kept.first id ((still id entered).symm.trans begun)
  · rw [shell]
    cases slots id with
    | held before after region space => exact kept.begun id (space there)
    | vacant after region space => exact kept.begun id (space there)
    | entered entered => exact (enters id entered).2 there
  · rw [shell]
    have done' : noteMapped s a 0 = true := (if_neg kept.shell_stays).symm.trans done
    exact kept.mapped (mapped done')

private theorem Kept.still (kept : Kept s) (regular : Regular l.machine.kernel l.machine.stage)
    (tasks : ∀ id, (l.machine.kernel.tasks id).state = (s.kernel.tasks id).state ∧
      stackRegion l.machine.kernel id = stackRegion s.kernel id ∧
      (l.machine.kernel.tasks id).addressSpace = (s.kernel.tasks id).addressSpace)
    (mapped : noteMapped s a 0 = true → s.mapped 0 = true) (promised : notePromised s a = s.promised) :
    Kept (record s a l) := by
  refine kept.moves regular (fun id => ?_) mapped promised fun id enters => ?_
  · obtain ⟨state, region, space⟩ := tasks id
    exact .of_same region space (by rw [state])
  · exact absurd ((tasks id).1.trans enters.1) enters.2

private theorem kept_plain {e : Event} (kept : Kept s)
    (taken : Activation.step s.loader (.plain e) = some l) : Kept (record s (.plain e) l) := by
  simp only [Activation.step, Option.ite_none_right_eq_some, Option.map_eq_some_iff] at taken
  obtain ⟨⟨-, plain⟩, m, moved, rfl⟩ := taken
  have unloaded : ∀ root, ¬(scopeOf s.loader.machine e).loads root := by
    intro root loaded
    have none' := loads_none plain
    rw [loaded] at none'
    exact absurd none' (by simp)
  refine kept.moves (regular_step kept.regular moved)
    (slot_of_change (change_step kept.regular moved) unloaded) (fun done => done) rfl
    fun id enters => ?_
  rcases newcomer kept.regular moved plain enters with
    ⟨⟨env, rfl⟩, user, region⟩ | ⟨other, region, space⟩
  · exact ⟨region.trans kept.running, fun _ => kept.begun _ user⟩
  · have heir : inherits s (.plain e) = false := by
      cases e with
      | serve env => exact absurd ⟨env, rfl⟩ other
      | _ => rfl
    refine ⟨?_, fun there => ?_⟩
    · rw [heir]
      exact region.trans (kept.free_slot enters.1)
    · have some' : (m.kernel.tasks id).addressSpace.isSome = true := there
      rw [space] at some'
      exact absurd some' (by simp)

private theorem Kept.noted (regular : Regular l.machine.kernel l.machine.stage)
    (state : ∀ id, (l.machine.kernel.tasks id).state = (s.kernel.tasks id).state)
    (region : ∀ id, stackRegion l.machine.kernel id =
      if (s.kernel.tasks id).state ≠ .free ∧ notePromised s a id = true then wholeStack else (0, 0))
    (first : ∀ id, notePromised s a id = true → notePromised s a 0 = true)
    (begun : ∀ id, (l.machine.kernel.tasks id).addressSpace.isSome = true →
      notePromised s a 0 = true)
    (mapped : noteMapped s a 0 = true → notePromised s a 0 = true) : Kept (record s a l) := by
  have stays : ∀ id, ¬Enters s.kernel l.machine.kernel id := fun id enters =>
    enters.2 ((state id).trans enters.1)
  have promised : ∀ id, (record s a l).promised id = notePromised s a id := fun id =>
    if_neg (stays id)
  have kernel : (record s a l).kernel = l.machine.kernel := rfl
  refine ⟨regular, fun id => ?_, fun id begun' => ?_, fun id there => ?_, fun done => ?_⟩
  · rw [promised, kernel, state]
    exact region id
  · rw [promised] at begun' ⊢
    exact first id begun'
  · rw [promised]
    exact begun id there
  · rw [promised]
    exact mapped ((if_neg (stays 0)).symm.trans done)

private theorem promise_taken (taken : Activation.step s.loader .promise = some l) :
    l.machine.kernel = setStackRegion s.kernel s.current userStackTop userStackLimit ∧
      l.machine.stage = s.loader.machine.stage := by
  simp only [Activation.step] at taken
  split at taken
  · obtain rfl := Option.some.inj taken
    exact ⟨rfl, rfl⟩
  · simp at taken

private theorem adopt_taken (taken : Activation.step s.loader .adopt = some l) :
    inCall s.loader.machine sysExec = true ∧ l.machine.stage = s.loader.machine.stage ∧
      ∃ fresh, l.machine.kernel = setAddressSpace s.kernel s.current fresh := by
  simp only [Activation.step] at taken
  split at taken
  · rename_i fresh old phase
    simp only [Option.ite_none_right_eq_some, Option.some.injEq] at taken
    obtain ⟨calls, rfl⟩ := taken
    exact ⟨calls, rfl, fresh, rfl⟩
  · simp at taken

private theorem spawn_taken {stack entry userStack argc argv : Word}
    (taken : Activation.step s.loader (.spawn stack entry userStack argc argv) = some l) :
    ∃ fresh, l.machine = enroll s.loader.machine
      (spawnUser s.kernel stack entry userStack fresh (some 0) argc argv).2 .program := by
  simp only [Activation.step] at taken
  split at taken
  · rename_i fresh old phase
    simp only [Option.ite_none_right_eq_some, Option.some.injEq] at taken
    obtain ⟨-, rfl⟩ := taken
    exact ⟨fresh, rfl⟩
  · simp at taken

private theorem kept_promise (kept : Kept s) (loading : Loading s)
    (taken : Activation.step s.loader .promise = some l) : Kept (record s .promise l) := by
  obtain ⟨kernel, stage⟩ := promise_taken taken
  have tasks : ∀ id, l.machine.kernel.tasks id =
      if id = s.current then { s.kernel.tasks s.current with
        stackTop := userStackTop, stackLimit := userStackLimit, stackFaults := 0 }
      else s.kernel.tasks id := by
    intro id
    rw [kernel]
    simp only [setStackRegion, Kernel.setTask, Function.update_apply]
  have same : ∀ id, (l.machine.kernel.tasks id).state = (s.kernel.tasks id).state ∧
      (l.machine.kernel.tasks id).addressSpace = (s.kernel.tasks id).addressSpace := by
    intro id
    rw [tasks]
    split_ifs with here
    · rw [here]
      exact ⟨rfl, rfl⟩
    · exact ⟨rfl, rfl⟩
  have promised : ∀ id, notePromised s .promise id =
      if id = s.current then true else s.promised id := fun id => Function.update_apply ..
  have first : (if (0 : TaskId) = s.current then true else s.promised 0) = true := by
    split_ifs with shell
    · rfl
    · rcases loading with here | calls
      · exact absurd here.symm shell
      · exact kept.begun _ (user_in_call kept.regular calls).2
  refine .noted ?_ (fun id => (same id).1) (fun id => ?_) (fun id _ => (promised 0).trans first)
    (fun id _ => (promised 0).trans first) fun _ => (promised 0).trans first
  · rw [kernel, stage]
    exact kept.regular.tame (tame_sameState _ _ rfl rfl rfl ⟨rfl, rfl, rfl⟩)
  · unfold stackRegion
    rw [tasks, promised]
    by_cases here : id = s.current
    · have held : (s.kernel.tasks id).state ≠ .free := here ▸ kept.regular.here
      rw [if_pos here, if_pos here, if_pos ⟨held, rfl⟩]
      rfl
    · rw [if_neg here, if_neg here]
      exact kept.region id
private theorem kept_adopt (kept : Kept s) (taken : Activation.step s.loader .adopt = some l) :
    Kept (record s .adopt l) := by
  obtain ⟨calls, stage, fresh, kernel⟩ := adopt_taken taken
  have user : (s.kernel.tasks s.current).addressSpace.isSome = true :=
    (user_in_call kept.regular calls).2
  have tasks : ∀ id, l.machine.kernel.tasks id =
      if id = s.current then { s.kernel.tasks s.current with addressSpace := some fresh }
      else s.kernel.tasks id := by
    intro id
    rw [kernel]
    simp only [setAddressSpace, Kernel.setTask, Function.update_apply]
  refine .noted ?_ (fun id => ?_) (fun id => ?_) kept.first (fun id there => ?_) kept.mapped
  · rw [kernel, stage]
    exact kept.regular.tame (tame_sameState _ _ rfl (by rw [user]; rfl) rfl ⟨rfl, rfl, rfl⟩)
  · rw [tasks]
    split_ifs with here
    · rw [here]
    · rfl
  · refine Eq.trans ?_ (kept.region id)
    unfold stackRegion
    rw [tasks]
    split_ifs with here
    · rw [here]
    · rfl
  · rw [tasks] at there
    split_ifs at there
    · exact kept.begun _ user
    · exact kept.begun id there

private theorem kept_spawn {stack entry userStack argc argv : Word} (kept : Kept s)
    (shell : s.current = 0) (mapped : s.mapped s.current = true)
    (taken : Activation.step s.loader (.spawn stack entry userStack argc argv) = some l) :
    Kept (record s (.spawn stack entry userStack argc argv) l) := by
  have promised : s.promised 0 = true := kept.mapped (shell ▸ mapped)
  obtain ⟨fresh, machine⟩ := spawn_taken taken
  rcases spawnUser_cases s.kernel stack entry userStack fresh (some 0) argc argv with
    full | ⟨new, joins, -⟩
  · have kernel : l.machine.kernel = s.kernel := by rw [machine, full]; rfl
    have stage : l.machine.stage = s.loader.machine.stage := by
      rw [machine, full]
      exact enroll_none rfl
    refine kept.still ?_ (fun id => ?_) (fun done => done) rfl
    · rw [kernel, stage]
      exact kept.regular
    · rw [kernel]
      exact ⟨rfl, rfl, rfl⟩
  · have kernel : l.machine.kernel =
        (spawnUser s.kernel stack entry userStack fresh (some 0) argc argv).2 := by
      rw [machine]
      rfl
    have other : ∀ id, id ≠ new → l.machine.kernel.tasks id = s.kernel.tasks id := fun id apart => by
      rw [kernel, joins.other apart]
    have self : l.machine.kernel.tasks new =
        programTask (s.kernel.tasks new) stack fresh (some 0) := by
      rw [kernel, joins.self]
    have enters : Enters s.kernel l.machine.kernel new :=
      ⟨joins.vacant, by rw [self]; simp [programTask]⟩
    refine kept.moves ?_ (fun id => ?_) (fun done => done) rfl fun id entered => ?_
    · rw [machine]
      exact kept.regular.enrolled joins .program rfl (by simp [programTask])
    · by_cases same : id = new
      · exact .entered (same ▸ enters)
      · exact .of_eq (other id same)
    · have same : id = new := by
        by_contra apart
        exact entered.2 (by rw [other id apart]; exact entered.1)
      subst same
      refine ⟨Eq.trans ?_ (kept.free_slot joins.vacant), fun _ => promised⟩
      unfold stackRegion
      rw [self]
      rfl

private theorem Kept.activated (kept : Kept s) {root : Root} {phase : Phase}
    {stage : TaskId → Stage} (regular : Regular s.kernel stage)
    (mapped : noteMapped s a 0 = true → s.mapped 0 = true) (promised : notePromised s a = s.promised) :
    Kept (record s a { activate s.loader root phase with
      machine := { (activate s.loader root phase).machine with stage := stage } }) :=
  kept.still (regular.tame (.of_tasks ∅ rfl rfl rfl rfl)) (fun _ => ⟨rfl, rfl, rfl⟩) mapped promised

private theorem Kept.wrote (kept : Kept s) (memory : Bytes)
    (mapped : noteMapped s a 0 = true → s.mapped 0 = true) (promised : notePromised s a = s.promised) :
    Kept (record s a (write s.loader (withUserMemory s.kernel s.kernel.activeRoot memory))) :=
  kept.still (kept.regular.tame (.of_tasks ∅ rfl rfl rfl rfl)) (fun _ => ⟨rfl, rfl, rfl⟩) mapped
    promised

private theorem kept_begin {fresh : Root} (kept : Kept s)
    (taken : Activation.step s.loader (.begin fresh) = some l) : Kept (record s (.begin fresh) l) := by
  simp only [Activation.step, Option.ite_none_right_eq_some, Option.some.injEq] at taken
  obtain ⟨-, rfl⟩ := taken
  refine kept.activated kept.regular (fun done => ?_) rfl
  simp only [noteMapped, Function.update_apply] at done
  split_ifs at done
  exact done

private theorem kept_giveUp (kept : Kept s) (taken : Activation.step s.loader .giveUp = some l) :
    Kept (record s .giveUp l) := by
  simp only [Activation.step] at taken
  split at taken
  · rename_i fresh old loading
    obtain rfl := Option.some.inj taken
    refine kept.activated ?_ (fun done => done) rfl
    unfold refused
    split
    · rename_i context written here
      have calling : s.loader.machine.stage s.loader.machine.current = .calling context written := here
      have inside := kept.regular.inside (by simp [calling]) (by simp [calling])
      exact kept.regular.moved _ inside.1 (by simp) fun _ => inside.2
    · exact kept.regular
  · simp at taken

private theorem kept_clear (kept : Kept s) (taken : Activation.step s.loader .clear = some l) :
    Kept (record s .clear l) := by
  simp only [Activation.step] at taken
  split at taken
  · simp only [Option.ite_none_right_eq_some, Option.some.injEq] at taken
    obtain ⟨-, rfl⟩ := taken
    refine kept.still (kept.regular.tame (tame_sameState _ _ rfl rfl rfl ⟨rfl, rfl, rfl⟩))
      (fun id => ?_) (fun done => done) rfl
    have cleared : (clearSignalHandlers s.kernel s.current).tasks id =
        if id = s.current then { s.kernel.tasks s.current with handlers := fun _ => 0, restorer := 0 }
        else s.kernel.tasks id := by
      simp only [clearSignalHandlers, Kernel.setTask, Function.update_apply]
    change ((clearSignalHandlers s.kernel s.current).tasks id).state = _ ∧
      stackRegion (clearSignalHandlers s.kernel s.current) id = _ ∧
      ((clearSignalHandlers s.kernel s.current).tasks id).addressSpace = _
    unfold stackRegion
    rw [cleared]
    split_ifs with here
    · rw [here]
      exact ⟨rfl, rfl, rfl⟩
    · exact ⟨rfl, rfl, rfl⟩
  · simp at taken

private theorem kept_rewrite {entry stack argc argv : Word} (kept : Kept s)
    (taken : Activation.step s.loader (.rewrite entry stack argc argv) = some l) :
    Kept (record s (.rewrite entry stack argc argv) l) := by
  simp only [Activation.step] at taken
  split at taken
  · rename_i context written placing here
    obtain rfl := Option.some.inj taken
    have calling : s.loader.machine.stage s.loader.machine.current = .calling context written := here
    have inside := kept.regular.inside (by simp [calling]) (by simp [calling])
    refine kept.still ?_ (fun _ => ⟨rfl, rfl, rfl⟩) (fun done => done) rfl
    exact (kept.regular.tame (tame_storeView _ _ ∅)).moved (.returning context 0) inside.1 (by simp)
      fun _ => inside.2
  · simp at taken

theorem kept_step (kept : Kept s) (taken : step s a = some s') : Kept s' := by
  simp only [step, Option.ite_none_right_eq_some, Option.map_eq_some_iff] at taken
  obtain ⟨ordered, l, taken, rfl⟩ := taken
  cases a with
  | plain e => exact kept_plain kept taken
  | begin fresh => exact kept_begin kept taken
  | map memory =>
      simp only [Activation.step] at taken
      split at taken
      · exact Option.some.inj taken ▸ kept.wrote memory (fun done => done) rfl
      · simp at taken
  | promise => exact kept_promise kept ordered.1 taken
  | giveUp => exact kept_giveUp kept taken
  | clear => exact kept_clear kept taken
  | adopt => exact kept_adopt kept taken
  | place memory =>
      simp only [Activation.step] at taken
      split at taken
      · exact Option.some.inj taken ▸ kept.wrote memory (fun done => done) rfl
      · simp at taken
  | rewrite entry stack argc argv => exact kept_rewrite kept taken
  | spawn stack entry userStack argc argv => exact kept_spawn kept ordered.1 ordered.2 taken
  | back =>
      simp only [Activation.step] at taken
      split at taken
      · exact Option.some.inj taken ▸ kept.activated kept.regular (fun done => done) rfl
      · simp at taken

theorem kept_started (started : Started s) : Kept s := by
  obtain ⟨⟨booted, -, -⟩, mapped, promised⟩ := started
  have run : Reached System.step Booted (fun _ _ => True) s.loader.machine := .start booted
  have regular := regular_of_reached run
  obtain ⟨memory, root, rsp0, ticks, eq⟩ := booted
  have bare : ∀ id, stackRegion s.kernel id = (0, 0) ∧ (s.kernel.tasks id).addressSpace = none := by
    intro id
    unfold Stacks.kernel stackRegion
    rw [eq]
    by_cases shell : id = 0
    · simp [boot, shell, empty]
    · simp [boot, shell, empty]
  refine ⟨regular, fun id => ?_, fun id begun => ?_, fun id there => ?_, fun done => ?_⟩
  · rw [(bare id).1, if_neg fun both => ?_]
    have none' := both.2
    rw [promised] at none'
    exact absurd none' (by simp)
  · rw [promised] at begun
    exact absurd begun (by simp)
  · rw [(bare id).2] at there
    exact absurd there (by simp)
  · rw [mapped] at done
    exact absurd done (by simp)

end Steps

section Results

variable {s : Stacks}

private theorem Kept.before (kept : Kept s) (idle : s.promised 0 = false) (id : TaskId) :
    (s.kernel.tasks id).addressSpace = none ∧ stackRegion s.kernel id = (0, 0) := by
  have never : ∀ {p : Prop}, s.promised 0 = true → p := fun begun => by
    rw [idle] at begun
    exact absurd begun (by simp)
  constructor
  · by_contra there
    exact never (kept.begun id (Option.isSome_iff_ne_none.mpr there))
  · rw [kept.region, if_neg fun both => never (kept.first id both.2)]

private theorem Kept.asPromised_iff (kept : Kept s) :
    AsPromised s.kernel ↔ s.promised 0 = false := by
  refine ⟨fun good => ?_, fun idle => ⟨fun id _ => ?_, fun p managed live hand chain books
    member address => ⟨fun user => ?_, fun _ => ?_⟩⟩⟩
  · by_contra begun
    have live : (s.kernel.tasks 0).state.Live := kept.regular.shell.2
    have kernel : (s.kernel.tasks 0).addressSpace.isSome = false := by
      by_contra user
      exact (kept.regular.user 0 live).mpr (Bool.eq_true_of_not_eq_false user) kept.regular.shell.1
    have bare := good.1 0 live
    rw [kept.region, if_pos ⟨live.1, Bool.eq_true_of_not_eq_false begun⟩, kernel] at bare
    exact absurd bare (by decide)
  · obtain ⟨spaceless, bare⟩ := kept.before idle id
    rw [bare, spaceless]
    rfl
  · obtain ⟨spaceless, -⟩ := kept.before idle s.kernel.current
    rw [spaceless] at user
    exact absurd user.1 (by simp)
  · exact stackFault_none (kept.before idle s.kernel.current).2

private theorem Kept.faults (kept : Kept s) {p : Paging} {managed live : Finset Word}
    {hand chain : List Word} (books : Books p managed live hand chain) (member : p.cr3 ∈ live)
    (address : Word) :
    (s.promised s.current = true ∧ InStack address ∧ Absent p address → Room p address →
        Backs p live address (stackFault s.kernel p address)) ∧
      (¬(s.promised s.current = true ∧ InStack address ∧ Absent p address) →
        stackFault s.kernel p address = (none, p)) := by
  have region := kept.running
  by_cases begun : s.promised s.current = true
  · rw [if_pos begun] at region
    refine ⟨fun all room => stackFault_backs region books member all.2.1 all.2.2 room, fun outside => ?_⟩
    exact stackFault_declines region books member fun both => outside ⟨begun, both⟩
  · rw [if_neg begun] at region
    exact ⟨fun all => absurd all.1 begun, fun _ => stackFault_none region⟩

/-- In every run the user tasks have the whole stack, and they alone, exactly until the
first `map_stack` of `run_bytes_named` is done. At any time a task has the whole stack if it has
been through `map_stack`, or was forked by a task that had, and else none, and its stack grows
accordingly. -/
theorem stacks_as_promised_iff (run : Reached step Started (fun _ _ => True) s) :
    (AsPromised s.kernel ↔ s.promised 0 = false) ∧
      (∀ id, (s.kernel.tasks id).state ≠ .free →
        stackRegion s.kernel id = if s.promised id = true then wholeStack else (0, 0)) ∧
      ∀ (p : Paging) (managed live : Finset Word) (hand chain : List Word),
        Books p managed live hand chain → p.cr3 ∈ live → ∀ address,
          (s.promised s.current = true ∧ InStack address ∧ Absent p address → Room p address →
            Backs p live address (stackFault s.kernel p address)) ∧
          (¬(s.promised s.current = true ∧ InStack address ∧ Absent p address) →
            stackFault s.kernel p address = (none, p)) := by
  have kept : Kept s := by
    exact run.invariant (P := Kept) (fun _ => kept_started) fun s a s' kept _ taken =>
      kept_step kept taken
  refine ⟨kept.asPromised_iff, fun id held => ?_, fun p managed live hand chain books member =>
    kept.faults books member⟩
  rw [kept.region]
  exact if_congr (and_iff_right held) rfl rfl

end Results

section Scenario

private def first : Stacks :=
  ⟨⟨System.started, fun _ => .idle, fun _ => System.started.kernel.kernelRoot⟩, fun _ => false,
    fun _ => false⟩

private theorem first_started : Started first :=
  ⟨⟨⟨_, _, _, _, rfl⟩, fun _ => rfl, fun _ => rfl⟩, fun _ => rfl, fun _ => rfl⟩

/-- The shell starts a program and waits, and the program has the processor. -/
private def launches : List Action :=
  [.begin (rootAt 0x2000), .promise, .spawn 0x444444441000 0x400000 0x10ff00 1 0x10ff40, .back,
    .plain .wait, .plain firstTick]

private def replaced : List Action :=
  launches ++ [.plain (.compute (fun i => if i = frameRax then sysExec
    else userFrame 0x400000 0x10ff00 1 0x10ff40 i) fun _ => 0), .plain .call,
    .begin (rootAt 0x3000), .promise, .clear, .adopt]

private theorem launches_facts : ((runAll step first launches).any fun s =>
    decide (s.current = 1 ∧ (s.kernel.tasks 1).addressSpace.isSome = true ∧
      (s.kernel.tasks 1).state = .ready ∧ stackRegion s.kernel 1 = (0, 0) ∧
      stackRegion s.kernel 0 = wholeStack)) = true := by
  decide +kernel

/-- A program runs, and its stack does not grow: the shell was promised it. -/
theorem stack_promised_to_shell : ∃ s, Reached step Started (fun _ _ => True) s ∧
    (s.kernel.tasks s.kernel.current).addressSpace.isSome = true ∧
    (∀ p address, stackFault s.kernel p address = (none, p)) ∧ ¬AsPromised s.kernel := by
  obtain ⟨s, reached, facts⟩ := Reached.freely Started first_started launches_facts
  obtain ⟨current, user, ready, bare, -⟩ := of_decide_eq_true facts
  have current' : s.kernel.current = 1 := current
  refine ⟨s, reached, ?_, fun p address => stackFault_none ?_, fun good => ?_⟩
  · rw [current']
    exact user
  · rw [current']
    exact bare
  · have whole := good.1 1 (by rw [ready]; simp [State.Live])
    rw [bare, user] at whole
    exact absurd whole (by decide)

private theorem replaced_facts : ((runAll step first replaced).any fun s =>
    decide (s.current = 1 ∧ s.promised 1 = true)) = true := by
  decide +kernel

/-- Once the program has been through `exec` its stack grows. -/
theorem stacks_as_promised_iff_one : ∃ s : Stacks, s.current = 1 ∧ s.promised 1 = true ∧
    (AsPromised s.kernel ↔ s.promised 0 = false) ∧
      (∀ id, (s.kernel.tasks id).state ≠ .free →
        stackRegion s.kernel id = if s.promised id = true then wholeStack else (0, 0)) ∧
      ∀ (p : Paging) (managed live : Finset Word) (hand chain : List Word),
        Books p managed live hand chain → p.cr3 ∈ live → ∀ address,
          (s.promised s.current = true ∧ InStack address ∧ Absent p address → Room p address →
            Backs p live address (stackFault s.kernel p address)) ∧
          (¬(s.promised s.current = true ∧ InStack address ∧ Absent p address) →
            stackFault s.kernel p address = (none, p)) := by
  obtain ⟨s, run, facts⟩ := Reached.freely Started first_started replaced_facts
  obtain ⟨current, promised⟩ := of_decide_eq_true facts
  exact ⟨s, current, promised, stacks_as_promised_iff run⟩

end Scenario

end FiveAM.Process.StackRegions
