/- GID: FiveAM/Process/Waiting
   source: kernel/src/task.rs, kernel/src/syscall.rs
   digest: A parent asleep in wait_any_child, and the children that finish behind its back. -/

import FiveAM.Process.Changes
import FiveAM.Process.Completion

set_option autoImplicit false
set_option relaxedAutoImplicit false

namespace FiveAM.Process.Waiting

open FiveAM.Process.TaskTable FiveAM.Process.Machine FiveAM.Process.Pipes FiveAM.Process.Signals
open FiveAM.Process.Lifecycle FiveAM.Process.Syscalls FiveAM.Process.Schedule
open FiveAM.Process.System FiveAM.Process.Effects FiveAM.Process.TableShape
open FiveAM.Process.Changes
open FiveAM.Process.Completion (interrupts numberAt inCall Collects answered WaitsFor completion_inj
  Settled settled_step unsplit)
open FiveAM.Lib.ByteMemory FiveAM.Lib.Runs FiveAM.Sched.Mechanism

/-- Where a task stands in `wait_any_child`. -/
inductive Place where
  | elsewhere
  /-- At the top of the loop, before it looks for a finished child. -/
  | scanning
  /-- It found none, and has yet to pick the child to sleep for. -/
  | choosing
  /-- In `block_until` for `child`, before the first test. -/
  | picked (child : TaskId)
  /-- Parked there, or awake again and before the next test. -/
  | parked (child : TaskId)
  deriving DecidableEq

/-- The machine with `wait_any_child` taken apart, so that ticks and signals can
fall between its steps. -/
structure Waiters where
  machine : Machine
  place : TaskId → Place

namespace Waiters

def kernel (s : Waiters) : Kernel := s.machine.kernel

def current (s : Waiters) : TaskId := s.machine.kernel.current

/-- The current task goes on at `place`, the machine being `m`. -/
def goTo (s : Waiters) (m : Machine) (place : Place) : Waiters :=
  ⟨m, Function.update s.place s.current place⟩

end Waiters

/-- Events that do not run through `wait_any_child`. -/
def offWait (s : Machine) : Event → Bool
  | .serve _ => !inCall s sysWait
  | .wait => false
  | _ => true

/-- A task that takes a free slot starts outside `wait_any_child`. -/
def refreshed (s : Waiters) (m : Machine) : TaskId → Place := fun id =>
  if (s.kernel.tasks id).state = .free ∧ (m.kernel.tasks id).state ≠ .free then .elsewhere
  else s.place id

inductive Action where
  /-- Anything else the machine does; a task's end is one step. -/
  | plain (e : Event)
  /-- `wait_any_child` is called, and asks whether there is a child. -/
  | enter
  /-- It looks for a finished child, with interrupts disabled. -/
  | collect
  /-- It picks the child to sleep for. -/
  | choose
  /-- The section of `block_until` with interrupts disabled. -/
  | test

/-- One action; `none` where it cannot happen. -/
def step (s : Waiters) : Action → Option Waiters
  | .plain e =>
      if (interrupts e = true ∨ s.place s.current = .elsewhere) ∧ offWait s.machine e = true then
        (System.step s.machine e).map fun m => ⟨m, refreshed s m⟩
      else none
  | .enter =>
      if s.place s.current = .elsewhere ∧ Collects s.machine then
        if hasChild s.kernel.tasks s.current = false then
          some (s.goTo (answered s.machine s.kernel none) .elsewhere)
        else some (s.goTo s.machine .scanning)
      else none
  | .collect =>
      if s.place s.current = .scanning then
        match Lifecycle.collect s.kernel s.current with
        | (some code, k) => some (s.goTo (answered s.machine k (some code)) .elsewhere)
        | (none, _) => some (s.goTo s.machine .choosing)
      else none
  | .choose =>
      if s.place s.current = .choosing then
        match firstChild s.kernel.tasks s.current with
        | none => some (s.goTo (answered s.machine s.kernel none) .elsewhere)
        | some child => some (s.goTo s.machine (.picked child))
      else none
  | .test =>
      match s.place s.current with
      | .picked child | .parked child =>
          if (s.kernel.tasks child).state = .finished ∨ (s.kernel.tasks child).state = .free then
            some (s.goTo s.machine .scanning)
          else some (s.goTo (withKernel s.machine (park s.kernel (Kernel.completion child)))
            (.parked child))
      | _ => none

/-- `parent` is blocked inside `wait_any_child`, for the end of `child`. -/
def Asleep (s : Waiters) (parent child : TaskId) : Prop :=
  s.place parent = .parked child ∧ WaitsFor s.kernel parent child

instance (s : Waiters) (parent child : TaskId) : Decidable (Asleep s parent child) :=
  inferInstanceAs (Decidable (_ ∧ _))

/-- No parent is blocked inside `wait_any_child` while a child of its has
finished. -/
def Prompt (s : Waiters) : Prop :=
  ∀ parent child, Asleep s parent child → ∀ id, (s.kernel.tasks id).parent = some parent →
    (s.kernel.tasks id).state ≠ .finished

/-- The task that an event ends, if it ends one: the running task by `exit`, by a
fatal signal on its way out of a call or by returning from its entry, the task about to
resume by a fatal signal. -/
def ends (s : Machine) : Event → Option TaskId
  | .serve _ => if inCall s sysExit then some s.current else none
  | .leave =>
      match s.stage s.current with
      | .returning context _ => if (delivered s.kernel context).1 then some s.current else none
      | _ => none
  | .endTask => some s.current
  | e => (timerFrame s e).bind fun frame =>
      if Dies (trapped s frame.1 frame.2) frame.1 then some (chosen (trapped s frame.1 frame.2) frame.1)
      else none

/-- The task that an action ends has no parent asleep for another child, and
nobody parks for one child while another of its children has finished. -/
def Fair (s : Waiters) : Action → Prop
  | .plain e => ∀ id, ends s.machine e = some id → ∀ parent child,
      (s.kernel.tasks id).parent = some parent → Asleep s parent child → child = id
  | .test => ∀ child,
      s.place s.current = .picked child ∨ s.place s.current = .parked child →
      (s.kernel.tasks child).state.Live → ∀ id, (s.kernel.tasks id).parent = some s.current →
        (s.kernel.tasks id).state ≠ .finished
  | _ => True

instance (s : Waiters) (a : Action) : Decidable (Fair s a) := by
  cases a <;> unfold Fair <;> infer_instance

def Started (s : Waiters) : Prop := Booted s.machine ∧ ∀ id, s.place id = .elsewhere

section Ticks

variable {k : Kernel} (sp : Word)

theorem schedule_asleep {p : TaskId} {r : Reason}
    (sleeps : ((schedule k sp).2.tasks p).state = .blocked r) : (k.tasks p).state = .blocked r := by
  have unasked : ((asked k sp).tasks p).state = .blocked r → (k.tasks p).state = .blocked r := by
    intro asleep
    rcases asked_state k sp p with same | ⟨-, ready⟩
    · rwa [same] at asleep
    · rw [ready] at asleep
      exact absurd asleep (by simp)
  cases on : k.enabled with
  | false =>
      have same : schedule k sp = (sp, k) := if_pos on
      rwa [same] at sleeps
  | true =>
      by_cases dies : Dies k sp
      · obtain ⟨k', follows, eq⟩ := schedule_kills on dies
        have tasks : (killed k' (chosen k sp)).2.tasks = (markKilled k' (chosen k sp)).tasks := by
          simp only [killed, handOver_eq]
        rw [eq, tasks] at sleeps
        simp only [markKilled, Kernel.wakeAll] at sleeps
        split_ifs at sleeps
        have awake : p ≠ chosen k sp := by
          rintro rfl
          simp [Kernel.setTask] at sleeps
        simp only [Kernel.setTask, Function.update_of_ne awake, follows.state] at sleeps
        exact unasked sleeps
      · obtain ⟨follows, -⟩ := schedule_survives on dies
        rw [follows.state] at sleeps
        exact unasked sleeps

theorem schedule_ends {id : TaskId} (lives : (k.tasks id).state ≠ .finished)
    (finished : ((schedule k sp).2.tasks id).state = .finished) : Dies k sp ∧ chosen k sp = id := by
  have unasked : ((asked k sp).tasks id).state ≠ .finished := by
    rcases asked_state k sp id with same | ⟨-, ready⟩
    · rwa [same]
    · simp [ready]
  cases on : k.enabled with
  | false =>
      have same : schedule k sp = (sp, k) := if_pos on
      rw [same] at finished
      exact absurd finished lives
  | true =>
      by_cases dies : Dies k sp
      · refine ⟨dies, ?_⟩
        obtain ⟨k', follows, eq⟩ := schedule_kills on dies
        have tasks : (killed k' (chosen k sp)).2.tasks = (markKilled k' (chosen k sp)).tasks := by
          simp only [killed, handOver_eq]
        rw [eq, tasks] at finished
        simp only [markKilled, Kernel.wakeAll] at finished
        split_ifs at finished
        by_contra other
        simp only [Kernel.setTask, Function.update_of_ne (Ne.symm other), follows.state] at finished
        exact unasked finished
      · obtain ⟨follows, -⟩ := schedule_survives on dies
        rw [follows.state] at finished
        exact absurd finished unasked

end Ticks

section Events

variable {m m' : Machine} {e : Event}

private theorem moveTo_kernel (m : Machine) (k : Kernel) (stage : Stage) :
    (moveTo m k stage).kernel = k := rfl

private theorem serve_kernel (m : Machine) (env : Surroundings) (context : Word) (written : Nat) :
    (serve m env context written).kernel = (handleAt m.kernel env context written).2 := by
  rw [serve_eq]

private theorem awake {k k' : Kernel} (goesOn : ∀ runs, Continues runs k k') {p : TaskId} {r : Reason}
    (sleeps : (k'.tasks p).state = .blocked r) : (k.tasks p).state = .blocked r := by
  have apart : ∀ p : TaskId, p ≠ p + 1 := by decide
  exact ((goesOn (p + 1)).goes p).state.asleep sleeps (apart p)

theorem interrupted (taken : System.step m e = some m') (interrupt : interrupts e = true) :
    m'.stage = m.stage ∧ ∀ p r, (m'.kernel.tasks p).state = .blocked r →
      (m.kernel.tasks p).state = .blocked r := by
  have timed : ∀ a f, (timer m a f).stage = m.stage ∧ ∀ p r,
      ((timer m a f).kernel.tasks p).state = .blocked r → (m.kernel.tasks p).state = .blocked r :=
    fun a f => ⟨rfl, fun p r sleeps => schedule_asleep (k := trapped m a f) a sleeps⟩
  cases e with
  | tick =>
      simp only [System.step, Option.ite_none_right_eq_some, Option.some.injEq] at taken
      obtain ⟨-, rfl⟩ := taken
      exact timed _ _
  | tickInside nested saved =>
      simp only [System.step, Option.ite_none_right_eq_some, Option.some.injEq] at taken
      obtain ⟨-, rfl⟩ := taken
      exact timed _ _
  | interrupt =>
      simp only [System.step] at taken
      split at taken
      · rename_i id _
        obtain rfl := Option.some.inj taken
        exact ⟨rfl, fun p r sleeps => awake (fun runs => .signal m.kernel id sigint) sleeps⟩
      · simp at taken
  | wake channel =>
      obtain rfl := Option.some.inj taken
      exact ⟨rfl, fun p r sleeps => awake (fun runs => .wakeAll m.kernel channel) sleeps⟩
  | _ => exact absurd interrupt (by simp [interrupts])

/-- Only the task itself moves its code, unless it takes a free slot. -/
theorem stage_stays (taken : System.step m e = some m') {p : TaskId} (other : p ≠ m.current) :
    (m.kernel.tasks p).state = .free ∧ (m'.kernel.tasks p).state ≠ .free ∨
      m'.stage p = m.stage p := by
  have enrolled : ∀ k stage, (m.kernel.tasks p).state = .free ∧ (k.tasks p).state ≠ .free ∨
      (enroll m k stage).stage p = m.stage p := by
    intro k stage
    by_cases filled : (m.kernel.tasks p).state = .free ∧ (k.tasks p).state ≠ .free
    · exact Or.inl filled
    · exact Or.inr (if_neg filled)
  have moved : ∀ k stage, (moveTo m k stage).stage p = m.stage p :=
    fun k stage => Function.update_of_ne other ..
  refine step_rule (P := fun m' => (m.kernel.tasks p).state = .free ∧
      (m'.kernel.tasks p).state ≠ .free ∨ m'.stage p = m.stage p) taken
    (fun _ _ _ _ => Or.inr rfl) (fun _ => Or.inr (moved _ _)) ?onServe ?onLeave
    (fun _ _ _ _ => Or.inr rfl) (fun _ _ => Or.inr rfl) (fun _ => Or.inr rfl) (Or.inr rfl)
    (fun _ _ _ => Or.inr rfl) (fun _ _ => Or.inr rfl) (fun _ _ _ => Or.inr rfl) (fun _ => Or.inr rfl)
    (fun _ _ _ _ _ _ => enrolled _ _) (fun _ _ _ _ _ => enrolled _ _) (fun _ _ => Or.inr rfl)
    (fun _ _ => Or.inr rfl) (fun _ _ => Or.inr rfl)
  case onServe =>
    intro env context written _ _ _
    have same : (serve m env context written).stage p =
        (enroll m (handleAt m.kernel env context written).2 .program).stage p :=
      Function.update_of_ne other ..
    rw [same, serve_kernel]
    exact enrolled _ _
  case onLeave =>
    intro context result _ _
    rw [leave_eq]
    split_ifs
    · exact Or.inr (Function.update_of_ne other ..)
    · exact Or.inr (Function.update_of_ne other ..)

end Events

def SleepOn (k k' : Kernel) : Prop := ∀ p c, WaitsFor k p c → WaitsFor k' p c

namespace SleepOn

variable {k k' k'' : Kernel}

theorem trans (first : SleepOn k k') (second : SleepOn k' k'') : SleepOn k k'' :=
  fun p c waits => second p c (first p c waits)

theorem of_states (same : ∀ id, (k'.tasks id).state = (k.tasks id).state) : SleepOn k k' := by
  intro p c waits
  unfold WaitsFor at waits ⊢
  rwa [same]

theorem setTask (id : TaskId) (task : Task) (same : task.state = (k.tasks id).state) :
    SleepOn k (k.setTask id task) := by
  refine of_states fun j => ?_
  by_cases self : j = id
  · simp only [self, Kernel.setTask, Function.update_self, same]
  · simp only [Kernel.setTask, Function.update_of_ne self]

theorem wakeAll (k : Kernel) {channel : Word} (high : maxTasks ≤ channel.toNat) :
    SleepOn k (k.wakeAll channel) := by
  intro p c waits
  unfold WaitsFor at waits ⊢
  simp only [Kernel.wakeAll]
  rw [if_neg, waits]
  rw [waits]
  exact fun same => SmallSteps.quiet_of_high high c (State.blocked.inj same).symm

theorem closeAllDescriptors (k : Kernel) (id : TaskId) :
    SleepOn k (Pipes.closeAllDescriptors k id) := by
  have readable : ∀ p : PipeId, maxTasks ≤ (readableChannel p).toNat := by decide
  have writable : ∀ p : PipeId, maxTasks ≤ (writableChannel p).toNat := by decide
  have dropped : ∀ (k : Kernel) (d : Descriptor), SleepOn k (dropDescriptor k d).2 := by
    intro k d
    cases d with
    | free => exact of_states fun _ => rfl
    | console => exact of_states fun _ => rfl
    | pipeRead p => exact (of_states fun _ => rfl : SleepOn k _).trans (wakeAll _ (writable p))
    | pipeWrite p => exact (of_states fun _ => rfl : SleepOn k _).trans (wakeAll _ (readable p))
  unfold Pipes.closeAllDescriptors
  refine List.foldlRecOn (motive := fun k' => SleepOn k k') _ _ (of_states fun _ => rfl)
    fun k' here fd _ => here.trans ?_
  unfold closeDescriptor
  split_ifs with bound
  · have filed : SleepOn k' (setFile k' id ⟨fd, bound⟩ .free) := setTask id _ rfl
    exact filed.trans (dropped _ _)
  · exact dropped _ _

theorem delivered (k : Kernel) (context : Word) : SleepOn k (TableShape.delivered k context).2 := by
  unfold TableShape.delivered
  split_ifs
  · obtain ⟨pending, memory, eq⟩ := deliver_changes k k.current context
    rw [eq]
    exact (setTask k.current { k.tasks k.current with pending := pending } rfl).trans
      (of_states fun _ => rfl)
  · exact of_states fun _ => rfl

end SleepOn

/-- Task `id` has ended, and nobody but its own waiters has woken. -/
structure Ended (k k' : Kernel) (id : TaskId) : Prop where
  finished : (k'.tasks id).state = .finished
  others : ∀ p c, p ≠ id → c ≠ id → WaitsFor k p c → WaitsFor k' p c

theorem ended_of_marked {k k₁ : Kernel} (sleepOn : SleepOn k k₁) (id : TaskId) (code : Word) :
    Ended k ((k₁.setTask id { k₁.tasks id with exitCode := code, state := .finished }).wakeAll
      (Kernel.completion id)) id := by
  refine ⟨by simp [Kernel.wakeAll, Kernel.setTask], fun p c apart other waits => ?_⟩
  have asleep : (k₁.tasks p).state = _ := sleepOn p c waits
  have elsewhere : (k₁.tasks p).state ≠ .blocked (.channel (Kernel.completion id)) := by
    rw [asleep]
    exact fun same => other (completion_inj (by simpa using same))
  simp only [WaitsFor, Kernel.wakeAll, Kernel.setTask, Function.update_of_ne apart]
  rw [if_neg elsewhere, asleep]

section Ends

variable {k : Kernel} (sp : Word)

theorem sleepOn_asked : SleepOn k (asked k sp) := by
  intro p c waits
  rcases asked_state k sp p with same | ⟨-, ready⟩
  · exact same.trans waits
  · rcases Completion.saveCurrent_ready sp ready with before | ⟨deadline, before, -⟩
    · exact absurd (before.symm.trans waits) (by simp)
    · exact absurd (before.symm.trans waits) (by simp)

theorem schedule_ended (on : k.enabled = true) (dies : Dies k sp) :
    Ended k (schedule k sp).2 (chosen k sp) := by
  obtain ⟨k', follows, eq⟩ := schedule_kills on dies
  have sleepOn : SleepOn k k' := (sleepOn_asked sp).trans (.of_states follows.state)
  obtain ⟨finished, others⟩ := ended_of_marked sleepOn (chosen k sp) 128
  have tasks : (killed k' (chosen k sp)).2.tasks = (markKilled k' (chosen k sp)).tasks := by
    simp only [killed, handOver_eq]
  rw [eq]
  refine ⟨?_, fun p c apart other waits => ?_⟩
  · rw [tasks]
    exact finished
  · rw [WaitsFor, tasks]
    exact others p c apart other waits

variable {m m' : Machine} {e : Event}

private theorem handleAt_exit {context : Word} {env : Surroundings} {written : Nat}
    (exits : numberAt m context = sysExit) :
    ∃ code, (handleAt m.kernel env context written).2 = finish m.kernel m.kernel.current code := by
  unfold handleAt handle
  exact ⟨_, congrArg Prod.snd (if_pos exits)⟩

theorem ended_of_ends (regular : Regular m.kernel m.stage) (taken : System.step m e = some m')
    {id : TaskId} (ends : ends m e = some id) : Ended m.kernel m'.kernel id := by
  have timed : ∀ a f, ((timerFrame m e).bind fun frame =>
      if Dies (trapped m frame.1 frame.2) frame.1 then
        some (chosen (trapped m frame.1 frame.2) frame.1) else none) = some id →
      timerFrame m e = some (a, f) → Ended m.kernel (timer m a f).kernel id := by
    intro a f chosen framed
    rw [framed] at chosen
    simp only [Option.bind_some, Option.ite_none_right_eq_some, Option.some.injEq] at chosen
    obtain ⟨dies, rfl⟩ := chosen
    obtain ⟨finished, others⟩ := schedule_ended (k := trapped m a f) a regular.on dies
    exact ⟨finished, others⟩
  cases e with
  | serve env =>
      simp only [Waiting.ends, Option.ite_none_right_eq_some, Option.some.injEq] at ends
      obtain ⟨exits, rfl⟩ := ends
      cases inside : m.stage m.current with
      | calling context written =>
          simp only [inCall, inside, decide_eq_true_eq] at exits
          simp only [System.step, inside, Option.ite_none_right_eq_some, Option.some.injEq] at taken
          obtain ⟨-, rfl⟩ := taken
          obtain ⟨code, finishes⟩ := @handleAt_exit m context env written exits
          rw [serve_kernel, finishes]
          exact ended_of_marked (.closeAllDescriptors _ _) _ _
      | kernel => simp [inCall, inside] at exits
      | program => simp [inCall, inside] at exits
      | returning context result => simp [inCall, inside] at exits
      | gone => simp [inCall, inside] at exits
  | leave =>
      simp only [Waiting.ends] at ends
      split at ends
      · rename_i context result inside
        simp only [Option.ite_none_right_eq_some, Option.some.injEq] at ends
        obtain ⟨dead, rfl⟩ := ends
        simp only [System.step, inside, Option.some.injEq] at taken
        subst taken
        rw [leave_eq, if_pos dead, moveTo_kernel, (tame_delivered m.kernel context).current]
        exact ended_of_marked ((SleepOn.delivered _ _).trans (.closeAllDescriptors _ _)) _ _
      · simp at ends
  | endTask =>
      obtain rfl := Option.some.inj ends
      simp only [System.step, Option.ite_none_right_eq_some, Option.some.injEq] at taken
      obtain ⟨-, rfl⟩ := taken
      exact ended_of_marked (.of_states fun _ => rfl) _ _
  | tick =>
      simp only [System.step, Option.ite_none_right_eq_some, Option.some.injEq] at taken
      obtain ⟨-, rfl⟩ := taken
      exact timed _ _ ends rfl
  | tickInside nested saved =>
      simp only [System.step, Option.ite_none_right_eq_some, Option.some.injEq] at taken
      obtain ⟨-, rfl⟩ := taken
      exact timed _ _ ends rfl
  | _ => exact absurd ends (by simp [Waiting.ends, timerFrame])

private theorem finish_finished {k k₁ : Kernel} {id d : TaskId} {code : Word}
    (settled : Settled k k₁) (ceased : ((finish k₁ id code).tasks d).state = .finished)
    (lives : (k.tasks d).state ≠ .finished) : d = id := by
  by_contra other
  have woken := (Settled.wakeAll ((closeAllDescriptors k₁ id).setTask id
    { (closeAllDescriptors k₁ id).tasks id with exitCode := code, state := .finished })
      (Kernel.completion id)).finished d ceased
  simp only [Kernel.setTask, Function.update_of_ne other] at woken
  have closed : Settled k (closeAllDescriptors k₁ id) :=
    settled.trans (.of_moves (.closeAllDescriptors k₁ id))
  exact lives (closed.finished d woken)

theorem ends_of_ended (taken : System.step m e = some m') (off : offWait m e = true) {id : TaskId}
    (lives : (m.kernel.tasks id).state ≠ .finished)
    (finished : (m'.kernel.tasks id).state = .finished) : ends m e = some id := by
  have timed : ∀ a f, timerFrame m e = some (a, f) →
      ((timer m a f).kernel.tasks id).state = .finished →
      ((timerFrame m e).bind fun frame =>
        if Dies (trapped m frame.1 frame.2) frame.1 then
          some (chosen (trapped m frame.1 frame.2) frame.1) else none) = some id := by
    intro a f framed ceased
    obtain ⟨dies, same⟩ := schedule_ends (k := trapped m a f) a lives ceased
    rw [framed, Option.bind_some, if_pos dies, same]
  have settled : unsplit m e = true → timerFrame m e = none → ends m e = some id :=
    fun plain still => absurd ((settled_step taken plain still).finished id finished) lives
  cases e with
  | serve env =>
      by_cases exits : inCall m sysExit = true
      · cases inside : m.stage m.current with
        | calling context written =>
            have exits' := exits
            simp only [inCall, inside, decide_eq_true_eq] at exits'
            simp only [System.step, inside, Option.ite_none_right_eq_some, Option.some.injEq] at taken
            obtain ⟨-, rfl⟩ := taken
            obtain ⟨code, finishes⟩ := @handleAt_exit m context env written exits'
            rw [serve_kernel, finishes] at finished
            rw [finish_finished (.refl _) finished lives]
            exact if_pos exits
        | kernel => simp [inCall, inside] at exits
        | program => simp [inCall, inside] at exits
        | returning context result => simp [inCall, inside] at exits
        | gone => simp [inCall, inside] at exits
      · refine settled ?_ rfl
        simp only [unsplit, Bool.and_eq_true, Bool.not_eq_true']
        exact ⟨Bool.eq_false_iff.mpr exits, by simpa [offWait] using off⟩
  | leave =>
      cases inside : m.stage m.current with
      | returning context result =>
          cases dead : (delivered m.kernel context).1 with
          | true =>
              simp only [System.step, inside, Option.some.injEq] at taken
              subst taken
              rw [leave_eq, if_pos dead, moveTo_kernel, (tame_delivered m.kernel context).current]
                at finished
              have same := finish_finished (Settled.delivered _ _) finished lives
              simp only [Waiting.ends, inside, dead, if_true, same]
              rfl
          | false => exact settled (by simp [unsplit, inside, dead]) rfl
      | kernel => simp [System.step, inside] at taken
      | program => simp [System.step, inside] at taken
      | calling context written => simp [System.step, inside] at taken
      | gone => simp [System.step, inside] at taken
  | endTask =>
      simp only [System.step, Option.ite_none_right_eq_some, Option.some.injEq] at taken
      obtain ⟨-, rfl⟩ := taken
      have woken := (Settled.wakeAll _ _).finished id finished
      by_contra other
      have apart : id ≠ m.current := fun same => other (congrArg some same.symm)
      simp only [Kernel.setTask, Function.update_of_ne apart] at woken
      exact lives woken
  | block channel =>
      simp only [System.step, Option.ite_none_right_eq_some, Option.some.injEq] at taken
      obtain ⟨-, rfl⟩ := taken
      change ((park m.kernel channel).tasks id).state = _ at finished
      by_cases same : id = m.kernel.current
      · subst same
        simp [park, Kernel.setTask] at finished
      · simp only [park, Kernel.setTask, Function.update_of_ne same] at finished
        exact absurd finished lives
  | tick =>
      simp only [System.step, Option.ite_none_right_eq_some, Option.some.injEq] at taken
      obtain ⟨-, rfl⟩ := taken
      exact timed _ _ rfl finished
  | tickInside nested saved =>
      simp only [System.step, Option.ite_none_right_eq_some, Option.some.injEq] at taken
      obtain ⟨-, rfl⟩ := taken
      exact timed _ _ rfl finished
  | wait => simp [offWait] at off
  | _ => exact settled rfl rfl

end Ends

/-- What holds in every run: the table has its shape, nobody is its own parent,
and whoever is in `wait_any_child` came there from the shell or from a call. -/
structure Orderly (s : Waiters) : Prop where
  regular : Regular s.kernel s.machine.stage
  apart : ∀ id, (s.kernel.tasks id).parent ≠ some id
  inside : ∀ p, s.place p ≠ .elsewhere → p = 0 ∨
    ∃ context written, s.machine.stage p = .calling context written

section Steps

variable {s s' : Waiters} {a : Action}

theorem answered_kernel (m : Machine) (k : Kernel) (code : Option Word) :
    (answered m k code).kernel = k := by
  unfold answered
  split <;> rfl

theorem Orderly.live (orderly : Orderly s) (within : s.place s.current ≠ .elsewhere) :
    (s.kernel.tasks s.kernel.current).state.Live := by
  rcases orderly.inside s.current within with shell | ⟨context, written, calling⟩
  · have zero : s.kernel.current = 0 := shell
    rw [zero]
    exact orderly.regular.shell.2
  · have stage : s.machine.stage s.kernel.current = .calling context written := calling
    exact orderly.regular.running (by simp [stage]) (by simp [stage])

private theorem regular_answered {m : Machine} {k : Kernel} (regular : Regular k m.stage)
    (same : k.current = m.current) (code : Option Word) :
    Regular k (answered m k code).stage := by
  unfold answered
  split
  · rename_i context written inside
    have calling : m.stage k.current = .calling context written := same ▸ inside
    change Regular k (Function.update m.stage m.current _)
    rw [← same]
    exact regular.moved _ (by simp [calling]) (by simp)
      fun _ => regular.running (by simp [calling]) (by simp [calling])
  · exact regular

private theorem answered_stage (m : Machine) (k : Kernel) (code : Option Word) {p : TaskId}
    (other : p ≠ m.current) : (answered m k code).stage p = m.stage p := by
  unfold answered
  split
  · exact Function.update_of_ne other ..
  · rfl

private theorem Orderly.answer (orderly : Orderly s) {k : Kernel} (same : k.current = s.current)
    (regular : Regular k s.machine.stage)
    (kin : ∀ id, (k.tasks id).parent = (s.kernel.tasks id).parent ∨ (k.tasks id).parent = none)
    (code : Option Word) : Orderly (s.goTo (answered s.machine k code) .elsewhere) := by
  have kernel : (s.goTo (answered s.machine k code) .elsewhere).kernel = k := answered_kernel ..
  refine ⟨?_, fun id => ?_, fun p within => ?_⟩
  · rw [kernel]
    exact regular_answered regular same code
  · rw [kernel]
    rcases kin id with kept | none'
    · rw [kept]
      exact orderly.apart id
    · rw [none']
      exact nofun
  · have other : p ≠ s.current := by
      rintro rfl
      exact within (Function.update_self ..)
    have place : (s.goTo (answered s.machine k code) .elsewhere).place p = s.place p :=
      Function.update_of_ne other ..
    rw [place] at within
    have stage : (s.goTo (answered s.machine k code) .elsewhere).machine.stage p = s.machine.stage p :=
      answered_stage _ _ _ other
    rw [stage]
    exact orderly.inside p within

private theorem Orderly.goesOn (orderly : Orderly s) (place : Place)
    (inside : s.current = 0 ∨ ∃ context written, s.machine.stage s.current = .calling context written) :
    Orderly (s.goTo s.machine place) := by
  refine ⟨orderly.regular, orderly.apart, fun p within => ?_⟩
  by_cases same : p = s.current
  · rw [same]
    exact inside
  · have place' : (s.goTo s.machine place).place p = s.place p := Function.update_of_ne same ..
    rw [place'] at within
    exact orderly.inside p within

private theorem inside_of_collects {m : Machine} (collects : Collects m) :
    m.current = 0 ∨ ∃ context written, m.stage m.current = .calling context written := by
  rcases collects with ⟨-, shell⟩ | calling
  · exact Or.inl shell
  · refine Or.inr ?_
    unfold inCall at calling
    split at calling
    · rename_i context written inside
      exact ⟨context, written, inside⟩
    · simp at calling

theorem orderly_step (orderly : Orderly s) (taken : step s a = some s') : Orderly s' := by
  have current : ∀ {place}, s.place s.current = place → place ≠ .elsewhere →
      s.current = 0 ∨ ∃ context written, s.machine.stage s.current = .calling context written := by
    rintro _ rfl within
    exact orderly.inside s.current within
  cases a with
  | plain e =>
      simp only [step, Option.ite_none_right_eq_some, Option.map_eq_some_iff] at taken
      obtain ⟨⟨goes, -⟩, m', taken, rfl⟩ := taken
      have change := change_step orderly.regular taken
      refine ⟨regular_step orderly.regular taken, fun id => ?_, fun p within => ?_⟩
      · rcases change.parent id with kept | none' | ⟨vacant, shell | child⟩
        · exact fun own => orderly.apart id (kept.symm.trans own)
        · exact fun own => absurd (none'.symm.trans own) (by simp)
        · rintro own
          obtain rfl := Option.some.inj (shell.symm.trans own)
          exact orderly.regular.shell.2.1 vacant
        · rintro own
          obtain rfl := Option.some.inj (child.symm.trans own)
          exact orderly.regular.here vacant
      · change refreshed s m' p ≠ .elsewhere at within
        unfold refreshed at within
        split_ifs at within with filled
        · exact absurd rfl within
        · have stage : m'.stage p = s.machine.stage p := by
            by_cases same : p = s.current
            · rw [same] at within
              exact congrFun (interrupted taken (goes.resolve_right within)).1 p
            · exact (stage_stays taken same).resolve_left filled
          change p = 0 ∨ ∃ context written, m'.stage p = .calling context written
          rw [stage]
          exact orderly.inside p within
  | enter =>
      simp only [step, Option.ite_none_right_eq_some] at taken
      obtain ⟨⟨-, collects⟩, taken⟩ := taken
      split_ifs at taken
      · obtain rfl := Option.some.inj taken
        exact orderly.answer rfl orderly.regular (fun _ => Or.inl rfl) none
      · obtain rfl := Option.some.inj taken
        exact orderly.goesOn .scanning (inside_of_collects collects)
  | collect =>
      simp only [step, Option.ite_none_right_eq_some] at taken
      obtain ⟨scanning, taken⟩ := taken
      rcases collect_cases s.kernel s.current with ⟨nobody, -⟩ | ⟨id, child, ceased, found⟩
      · rw [nobody] at taken
        obtain rfl := Option.some.inj taken
        exact orderly.goesOn .choosing (current scanning (by simp))
      · rw [found] at taken
        obtain rfl := Option.some.inj taken
        have live := orderly.live (by simp [scanning])
        have plain : Regular { s.kernel with
            orphans := s.kernel.orphans ++ (s.kernel.tasks id).addressSpace.toList }
            s.machine.stage := orderly.regular.tame (.of_tasks ∅ rfl rfl rfl rfl)
        have emptied := plain.emptied ceased fun same => live.2 (same ▸ ceased)
        refine orderly.answer ?_ emptied (fun j => ?_) _
        · rfl
        · by_cases same : j = id
          · rw [same, emptySlot_self]
            exact Or.inr rfl
          · rw [emptySlot_other same]
            exact Or.inl rfl
  | choose =>
      simp only [step, Option.ite_none_right_eq_some] at taken
      obtain ⟨choosing, taken⟩ := taken
      split at taken
      · obtain rfl := Option.some.inj taken
        exact orderly.answer rfl orderly.regular (fun _ => Or.inl rfl) none
      · rename_i child _
        obtain rfl := Option.some.inj taken
        exact orderly.goesOn (.picked child) (current choosing (by simp))
  | test =>
      have tested : ∀ child place, s.place s.current = place → place ≠ .elsewhere →
          (if (s.kernel.tasks child).state = .finished ∨ (s.kernel.tasks child).state = .free then
            some (s.goTo s.machine .scanning)
          else some (s.goTo (withKernel s.machine (park s.kernel (Kernel.completion child)))
            (.parked child))) = some s' → Orderly s' := by
        intro child place here within taken
        split_ifs at taken
        · obtain rfl := Option.some.inj taken
          exact orderly.goesOn .scanning (current here within)
        · obtain rfl := Option.some.inj taken
          have live := orderly.live (here ▸ within)
          have tame := tame_park live (Kernel.completion child)
          have moved := orderly.goesOn (.parked child) (current here within)
          refine ⟨orderly.regular.tame tame, fun id => ?_, moved.inside⟩
          have kept := (Continues.park live (Kernel.completion child)).goes id
          exact fun own => orderly.apart id (kept.self.parent.symm.trans own)
      simp only [step] at taken
      split at taken
      · rename_i child here
        exact tested child _ here (by simp) taken
      · rename_i child here
        exact tested child _ here (by simp) taken
      · simp at taken

private theorem Prompt.goTo (prompt : Prompt s) {m : Machine} {place : Place}
    (idle : ∀ child, place ≠ .parked child)
    (tasks : ∀ id, m.kernel.tasks id = s.kernel.tasks id ∨ (m.kernel.tasks id).state = .free) :
    Prompt (s.goTo m place) := by
  rintro parent child ⟨parked, waits⟩ id born finished
  change (m.kernel.tasks parent).state = _ at waits
  change (m.kernel.tasks id).parent = _ at born
  change (m.kernel.tasks id).state = _ at finished
  have other : parent ≠ s.current := by
    rintro rfl
    exact idle child (parked.symm.trans (Function.update_self ..)).symm
  have parked' : s.place parent = .parked child := by
    rw [← parked]
    exact (Function.update_of_ne other ..).symm
  have kept : m.kernel.tasks parent = s.kernel.tasks parent :=
    (tasks parent).resolve_right fun free => by simp [free] at waits
  have same : m.kernel.tasks id = s.kernel.tasks id :=
    (tasks id).resolve_right fun free => by simp [free] at finished
  rw [kept] at waits
  rw [same] at born finished
  exact prompt parent child ⟨parked', waits⟩ id born finished

private theorem prompt_plain (orderly : Orderly s) (prompt : Prompt s) {e : Event} {m' : Machine}
    (goes : interrupts e = true ∨ s.place s.current = .elsewhere) (off : offWait s.machine e = true)
    (taken : System.step s.machine e = some m') :
    Prompt ⟨m', refreshed s m'⟩ ↔ Fair s (.plain e) := by
  have change := change_step orderly.regular taken
  constructor
  · intro prompt' id ending parent child born asleep
    by_contra other
    obtain ⟨finished, others⟩ := ended_of_ends orderly.regular taken ending
    have apart : parent ≠ id := by
      rintro rfl
      exact orderly.apart parent born
    have sleeps := others parent child apart other asleep.2
    have place : refreshed s m' parent = .parked child := by
      unfold refreshed
      rw [if_neg, asleep.1]
      rintro ⟨vacant, -⟩
      have waits : (s.kernel.tasks parent).state = _ := asleep.2
      rw [vacant] at waits
      exact absurd waits (by simp)
    have born' : (m'.kernel.tasks id).parent = some parent := (change.ceased finished).1.trans born
    exact prompt' parent child ⟨place, sleeps⟩ id born' finished
  · rintro fair parent child ⟨place, waits⟩ id born finished
    change refreshed s m' parent = _ at place
    unfold refreshed at place
    split_ifs at place with filled
    have before : WaitsFor s.kernel parent child := by
      by_cases same : parent = s.current
      · have within : s.place s.current ≠ .elsewhere := by
          rw [← same, place]
          simp
        exact (interrupted taken (goes.resolve_right within)).2 parent _ waits
      · exact change.asleep waits same
    obtain ⟨kin, was | unheard⟩ := change.ceased finished
    · exact prompt parent child ⟨place, before⟩ id (kin.symm.trans born) was
    · by_cases was : (s.kernel.tasks id).state = .finished
      · exact prompt parent child ⟨place, before⟩ id (kin.symm.trans born) was
      · have ending := ends_of_ended taken off was finished
        have same := fair id ending parent child (kin.symm.trans born) ⟨place, before⟩
        exact unheard parent (same ▸ waits)

private theorem prompt_test (orderly : Orderly s) (prompt : Prompt s)
    (taken : step s .test = some s') : Prompt s' ↔ Fair s .test := by
  have tested : ∀ child,
      (∀ other, s.place s.current = .picked other ∨ s.place s.current = .parked other →
        other = child) →
      (if (s.kernel.tasks child).state = .finished ∨ (s.kernel.tasks child).state = .free then
        some (s.goTo s.machine .scanning)
      else some (s.goTo (withKernel s.machine (park s.kernel (Kernel.completion child)))
        (.parked child))) = some s' →
      (s.place s.current = .picked child ∨ s.place s.current = .parked child) →
      (Prompt s' ↔ Fair s .test) := by
    intro child only taken here
    split_ifs at taken with done
    · obtain rfl := Option.some.inj taken
      refine iff_of_true (prompt.goTo (by simp) fun _ => Or.inl rfl) ?_
      intro other at' live
      rw [only other at'] at live
      exact absurd done (by simp [live.1, live.2])
    · obtain rfl := Option.some.inj taken
      have live : (s.kernel.tasks child).state.Live :=
        ⟨fun free => done (Or.inr free), fun finished => done (Or.inl finished)⟩
      have others : ∀ id, id ≠ s.current →
          (park s.kernel (Kernel.completion child)).tasks id = s.kernel.tasks id :=
        fun id other => Function.update_of_ne other ..
      have own : ((park s.kernel (Kernel.completion child)).tasks s.current).state =
          .blocked (.channel (Kernel.completion child)) := by
        change (Function.update s.kernel.tasks s.current _ s.current).state = _
        rw [Function.update_self]
      constructor
      · intro prompt' other at' live' id born finished
        have apart : id ≠ s.current := by
          rintro rfl
          exact orderly.apart _ born
        refine prompt' s.current child ⟨Function.update_self .., own⟩ id ?_ ?_
        · change ((park s.kernel (Kernel.completion child)).tasks id).parent = _
          rw [others id apart]
          exact born
        · change ((park s.kernel (Kernel.completion child)).tasks id).state = _
          rw [others id apart]
          exact finished
      · rintro fair parent c ⟨parked, waits⟩ id born finished
        change ((park s.kernel (Kernel.completion child)).tasks parent).state = _ at waits
        change ((park s.kernel (Kernel.completion child)).tasks id).parent = _ at born
        change ((park s.kernel (Kernel.completion child)).tasks id).state = _ at finished
        have apart : id ≠ s.current := by
          rintro rfl
          rw [own] at finished
          exact absurd finished (by simp)
        rw [others id apart] at born finished
        by_cases same : parent = s.current
        · exact fair child here live id (same ▸ born) finished
        · have parked' : s.place parent = .parked c := by
            rw [← parked]
            exact (Function.update_of_ne same ..).symm
          rw [others parent same] at waits
          exact prompt parent c ⟨parked', waits⟩ id born finished
  simp only [step] at taken
  split at taken
  · rename_i child here
    exact tested child (by simp [here, eq_comm]) taken (Or.inl here)
  · rename_i child here
    exact tested child (by simp [here, eq_comm]) taken (Or.inr here)
  · simp at taken

theorem prompt_step (orderly : Orderly s) (prompt : Prompt s) (taken : step s a = some s') :
    Prompt s' ↔ Fair s a := by
  have unchanged : ∀ code,
      ∀ id, (answered s.machine s.kernel code).kernel.tasks id = s.kernel.tasks id ∨
        ((answered s.machine s.kernel code).kernel.tasks id).state = .free := by
    intro code id
    rw [answered_kernel]
    exact Or.inl rfl
  cases a with
  | plain e =>
      simp only [step, Option.ite_none_right_eq_some, Option.map_eq_some_iff] at taken
      obtain ⟨⟨goes, off⟩, m', taken, rfl⟩ := taken
      exact prompt_plain orderly prompt goes off taken
  | enter =>
      simp only [step, Option.ite_none_right_eq_some] at taken
      obtain ⟨-, taken⟩ := taken
      refine iff_of_true ?_ trivial
      split_ifs at taken
      · obtain rfl := Option.some.inj taken
        exact prompt.goTo (by simp) (unchanged none)
      · obtain rfl := Option.some.inj taken
        exact prompt.goTo (by simp) fun _ => Or.inl rfl
  | collect =>
      simp only [step, Option.ite_none_right_eq_some] at taken
      obtain ⟨-, taken⟩ := taken
      refine iff_of_true ?_ trivial
      rcases collect_cases s.kernel s.current with ⟨nobody, -⟩ | ⟨id, child, ceased, found⟩
      · rw [nobody] at taken
        obtain rfl := Option.some.inj taken
        exact prompt.goTo (by simp) fun _ => Or.inl rfl
      · rw [found] at taken
        obtain rfl := Option.some.inj taken
        refine prompt.goTo (by simp) fun j => ?_
        rw [answered_kernel]
        by_cases same : j = id
        · rw [same, emptySlot_self]
          exact Or.inr rfl
        · rw [emptySlot_other same]
          exact Or.inl rfl
  | choose =>
      simp only [step, Option.ite_none_right_eq_some] at taken
      obtain ⟨-, taken⟩ := taken
      refine iff_of_true ?_ trivial
      split at taken
      · obtain rfl := Option.some.inj taken
        exact prompt.goTo (by simp) (unchanged none)
      · obtain rfl := Option.some.inj taken
        exact prompt.goTo (by simp) fun _ => Or.inl rfl
  | test => exact prompt_test orderly prompt taken

end Steps

theorem orderly_started {s : Waiters} (first : Started s) : Orderly s := by
  obtain ⟨m, place⟩ := s
  obtain ⟨⟨memory, root, rsp0, ticks, rfl⟩, out⟩ := first
  refine ⟨regular_boot memory root rsp0 ticks, fun id => ?_, fun p within => ?_⟩
  · by_cases shell : id = 0
    · subst shell
      exact nofun
    · change ((Function.update (fun _ => empty) 0 _ : Tasks) id).parent ≠ _
      rw [Function.update_of_ne shell]
      exact nofun
  · exact absurd (out p) within

/-- In a run without an unfair step no parent is blocked inside `wait_any_child`
while a child of its has finished, and the next step keeps it so if and only if it
is fair. -/
theorem wait_prompt_iff {s : Waiters} (run : Reached step Started Fair s) :
    Prompt s ∧ ∀ a s', step s a = some s' → (Prompt s' ↔ Fair s a) := by
  have both : Orderly s ∧ Prompt s := by
    refine run.invariant (P := fun s => Orderly s ∧ Prompt s) ?_ ?_
    · rintro s first
      refine ⟨orderly_started first, ?_⟩
      rintro parent child ⟨parked, -⟩
      exact absurd ((first.2 parent).symm.trans parked) (by simp)
    · rintro s a s' ⟨orderly, prompt⟩ fair taken
      exact ⟨orderly_step orderly taken, (prompt_step orderly prompt taken).mpr fair⟩
  exact ⟨both.2, fun a s' taken => prompt_step both.1 both.2 taken⟩

section Scenario

/-- The running program makes call `number`. -/
def calls (number : Word) : List Action :=
  [.plain (.compute (fun i => if i = frameRax then number
    else userFrame 0x400000 0x10ff00 1 0x10ff40 i) fun _ => 0), .plain .call]

def forks (root : Root) (stack : Word) : List Action :=
  calls sysFork ++ [.plain (.serve ⟨lowHalf, some root, stack, none, []⟩), .plain .leave]

def exits : List Action :=
  calls sysExit ++ [.plain (.serve ⟨lowHalf, none, 0, none, []⟩)]

def waits : List Action := [.enter, .collect, .choose, .test]

/-- The shell starts a program and waits, and the program has the processor. -/
def launched : List Action :=
  .plain (.run 0x444444441000 program) :: waits ++ [.plain firstTick]

def begun : Waiters := ⟨started, fun _ => .elsewhere⟩

theorem begun_started : Started begun := ⟨⟨_, _, _, _, rfl⟩, fun _ => rfl⟩

/-- The program forks twice and waits, and the first child has the processor. -/
private def waited : List Action :=
  launched ++ forks (rootAt 0x3000) 0x444444461000 ++ forks (rootAt 0x4000) 0x444444481000 ++
    calls sysWait ++ waits ++
    [.plain (.tickInside 0x444444450000 fun i => if i = frameCs then kernelCode else 0)]

private theorem firstExits_facts :
    ((runAll (fun s a => if Fair s a then step s a else none) begun (waited ++ exits)).any fun s =>
      decide ((s.kernel.tasks 2).state = .finished ∧ (s.kernel.tasks 2).parent = some 1 ∧
        (s.kernel.tasks 3).state = .ready ∧ (s.kernel.tasks 3).parent = some 1 ∧
        (s.kernel.tasks 1).state = .ready ∧ s.place 1 = .parked 2)) = true := by
  decide +kernel

/-- Of two children the one that is waited for exits, and the parent is awake. -/
theorem wait_prompt_iff_two :
    ∃ s, (s.kernel.tasks 2).state = .finished ∧ (s.kernel.tasks 2).parent = some 1 ∧
      (s.kernel.tasks 3).state = .ready ∧ (s.kernel.tasks 3).parent = some 1 ∧
      (s.kernel.tasks 1).state = .ready ∧ s.place 1 = .parked 2 ∧ Prompt s ∧
      ∀ a s', step s a = some s' → (Prompt s' ↔ Fair s a) := by
  obtain ⟨s, taken, facts⟩ := Option.any_eq_true _ _ |>.mp firstExits_facts
  simp only [decide_eq_true_eq] at facts
  obtain ⟨ended, child, lives, child', awake, parked⟩ := facts
  have run : Reached step Started Fair s := (Reached.start begun_started).runGuarded taken
  exact ⟨s, ended, child, lives, child', awake, parked, wait_prompt_iff run⟩

private def overtaken : List Action := waited ++ [.plain .interrupt, .plain .tick]

private theorem overtaken_facts : ((runAll step begun overtaken).any fun s =>
    decide (Asleep s 1 2 ∧ (s.kernel.tasks 3).parent = some 1 ∧
      (s.kernel.tasks 3).state = .finished)) = true := by
  decide +kernel

/-- A parent sleeps for its first child while its second has finished. -/
theorem wait_overslept : ∃ s, Reached step Started (fun _ _ => True) s ∧ ¬Prompt s := by
  obtain ⟨s, reached, facts⟩ := Reached.freely Started begun_started overtaken_facts
  obtain ⟨asleep, child, ended⟩ := of_decide_eq_true facts
  exact ⟨s, reached, fun prompt => prompt 1 2 asleep 3 child ended⟩

end Scenario

end FiveAM.Process.Waiting
