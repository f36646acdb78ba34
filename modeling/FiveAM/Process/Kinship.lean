/- GID: FiveAM/Process/Kinship
   source: kernel/src/task.rs, kernel/src/user.rs
   digest: Whose exit code wait_any_child returns, over slots that change hands. -/

import FiveAM.Process.Waiting

set_option autoImplicit false
set_option relaxedAutoImplicit false

namespace FiveAM.Process.Kinship

open FiveAM.Process.TaskTable FiveAM.Process.Machine FiveAM.Process.Pipes FiveAM.Process.Signals
open FiveAM.Process.Lifecycle FiveAM.Process.Syscalls FiveAM.Process.Schedule
open FiveAM.Process.System FiveAM.Process.Effects FiveAM.Process.TableShape
open FiveAM.Process.Changes
open FiveAM.Process.Completion (interrupts inCall answered)
open FiveAM.Process.Waiting (Waiters Action Place Orderly ends offWait orderly_step answered_kernel
  ended_of_ends ends_of_ended)
open FiveAM.Lib.ByteMemory FiveAM.Lib.Runs FiveAM.Sched.Mechanism

/-- A code that `wait_any_child` returned: who asked, and whose code it was. -/
structure Answer where
  asker : Nat
  child : Nat
  code : Word

/-- The machine with its history. Every task that there ever was has a number of its
own, whatever slot it sits in. -/
structure Annals where
  waiters : Waiters
  /-- The number of the task in each slot. -/
  holder : TaskId → Nat
  /-- How many tasks there have been. -/
  born : Nat
  /-- Who created a task as a child of its own. -/
  creator : Nat → Option Nat
  /-- What a task ended with. -/
  status : Nat → Option Word
  answers : List Answer

namespace Annals

def kernel (s : Annals) : Kernel := s.waiters.kernel

def current (s : Annals) : TaskId := s.waiters.current

end Annals

/-- Who creates the task that an event brings: nobody waits for a kernel task. -/
def creatorOf (s : Annals) : Event → Option Nat
  | .spawn _ _ _ => none
  | _ => some (s.holder s.current)

def departed (k k' : Kernel) : Option TaskId :=
  (List.finRange maxTasks).find? fun id =>
    decide ((k.tasks id).state ≠ .free ∧ (k'.tasks id).state = .free)

/-- What an action that leaves the machine as `w` adds to the history. -/
def record (s : Annals) (a : Action) (w : Waiters) : Annals :=
  match a with
  | .plain e =>
      match fills s.waiters.machine e, ends s.waiters.machine e with
      | some id, _ => { s with
          waiters := w
          holder := Function.update s.holder id s.born
          born := s.born + 1
          creator := Function.update s.creator s.born (creatorOf s e) }
      | none, some id => { s with
          waiters := w
          status := Function.update s.status (s.holder id) (some (w.kernel.tasks id).exitCode) }
      | none, none => { s with waiters := w }
  | .collect =>
      match (Lifecycle.collect s.kernel s.current).1, departed s.kernel w.kernel with
      | some code, some id => { s with
          waiters := w
          answers := ⟨s.holder s.current, s.holder id, code⟩ :: s.answers }
      | _, _ => { s with waiters := w }
  | _ => { s with waiters := w }

/-- `run_bytes_named` is the shell's. -/
def ByShell (s : Annals) : Action → Prop
  | .plain (.run _ _) => s.current = 0
  | _ => True

instance (s : Annals) (a : Action) : Decidable (ByShell s a) := by
  unfold ByShell
  split <;> infer_instance

def step (s : Annals) (a : Action) : Option Annals :=
  if ByShell s a then (Waiting.step s.waiters a).map (record s a) else none

/-- Every code returned is the exit status of a task that its very asker created, no
task's status is returned twice, and `wait_any_child` answers at once to a task that has no
child of its own in the table. -/
def Rightful (s : Annals) : Prop :=
  (∀ a ∈ s.answers, s.creator a.child = some a.asker ∧ s.status a.child = some a.code) ∧
    (s.answers.map Answer.child).Nodup ∧
    ∀ p, (s.kernel.tasks p).state.Live →
      (∀ id, (s.kernel.tasks id).state ≠ .free → s.creator (s.holder id) ≠ some (s.holder p)) →
      hasChild s.kernel.tasks p = false

/-- A slot is filled only when no task in the table names it as its parent's. -/
def Fair (s : Annals) : Action → Prop
  | .plain e => ∀ id, fills s.waiters.machine e = some id → ∀ child,
      (s.kernel.tasks child).state ≠ .free → (s.kernel.tasks child).parent ≠ some id
  | _ => True

instance (s : Annals) : (a : Action) → Decidable (Fair s a)
  | .plain e => inferInstanceAs (Decidable (∀ id, fills s.waiters.machine e = some id → ∀ child,
      (s.kernel.tasks child).state ≠ .free → (s.kernel.tasks child).parent ≠ some id))
  | .enter => .isTrue trivial
  | .collect => .isTrue trivial
  | .choose => .isTrue trivial
  | .test => .isTrue trivial

/-- The machine as it comes up: the shell is the first task. -/
def Started (s : Annals) : Prop :=
  Waiting.Started s.waiters ∧ (∀ id, s.holder id = 0) ∧ s.born = 1 ∧ (∀ n, s.creator n = none) ∧
    s.answers = []

/-- The invariant behind `Rightful`. -/
structure Recorded (s : Annals) : Prop where
  orderly : Orderly s.waiters
  known : ∀ id, s.holder id < s.born
  apart : ∀ i j, (s.kernel.tasks i).state ≠ .free → (s.kernel.tasks j).state ≠ .free →
    s.holder i = s.holder j → i = j
  heirs : ∀ n m, s.creator n = some m → n < s.born ∧ m < s.born
  kin : ∀ id p, (s.kernel.tasks id).state ≠ .free → (s.kernel.tasks id).parent = some p →
    (s.kernel.tasks p).state ≠ .free → s.creator (s.holder id) = some (s.holder p)
  ceased : ∀ id, (s.kernel.tasks id).state = .finished →
    s.status (s.holder id) = some (s.kernel.tasks id).exitCode
  answered : ∀ a ∈ s.answers, s.creator a.child = some a.asker ∧ s.status a.child = some a.code ∧
    ∀ id, (s.kernel.tasks id).state ≠ .free → s.holder id ≠ a.child
  once : (s.answers.map Answer.child).Nodup

theorem hasChild_iff {tasks : Tasks} {p : TaskId} :
    hasChild tasks p = true ↔
      ∃ id, (tasks id).parent = some p ∧ (tasks id).state ≠ .free ∧ id ≠ p := by
  simp [hasChild, List.any_eq_true]

theorem Recorded.rightful {s : Annals} (recorded : Recorded s) : Rightful s := by
  refine ⟨fun a member => ?_, recorded.once, fun p live none' => ?_⟩
  · obtain ⟨own, code, -⟩ := recorded.answered a member
    exact ⟨own, code⟩
  · rw [← Bool.not_eq_true, hasChild_iff]
    rintro ⟨id, child, held, -⟩
    exact none' id held (recorded.kin id p held child live.1)

section Steps

variable {s : Annals} {w : Waiters}

private theorem Recorded.kept (recorded : Recorded s) (orderly : Orderly w) {scope : Scope}
    (change : Change scope s.kernel w.kernel) (none' : ∀ id, ¬scope.fills id)
    {status : Nat → Option Word}
    (ceased : ∀ id, (w.kernel.tasks id).state = .finished →
      status (s.holder id) = some (w.kernel.tasks id).exitCode)
    (gone : ∀ n, (∀ id, (s.kernel.tasks id).state ≠ .free → s.holder id ≠ n) →
      status n = s.status n) : Recorded { s with waiters := w, status := status } := by
  have held : ∀ id, (w.kernel.tasks id).state ≠ .free → (s.kernel.tasks id).state ≠ .free :=
    fun id taken => (change.occupied taken).resolve_right (none' id)
  refine ⟨orderly, recorded.known, fun i j taken taken' => ?_, recorded.heirs,
    fun id p taken child parent => ?_, ceased, fun a member => ?_, recorded.once⟩
  · exact recorded.apart i j (held i taken) (held j taken')
  · have same := (change.persists (held id taken) taken).1
    exact recorded.kin id p (held id taken) (same.symm.trans child) (held p parent)
  · obtain ⟨own, code, absent⟩ := recorded.answered a member
    refine ⟨own, (gone a.child absent).trans code, fun id taken => absent id (held id taken)⟩

private theorem Recorded.quiet (recorded : Recorded s) (orderly : Orderly w) {scope : Scope}
    (change : Change scope s.kernel w.kernel) (none' : ∀ id, ¬scope.fills id)
    (unended : ∀ id, (w.kernel.tasks id).state = .finished → (s.kernel.tasks id).state = .finished) :
    Recorded { s with waiters := w } := by
  refine recorded.kept orderly change none' (fun id finished => ?_) fun _ _ => rfl
  have before := unended id finished
  have code := (change.persists (by simp [before]) (by simp [finished])).2 before
  rw [code]
  exact recorded.ceased id before

private theorem Recorded.joined (recorded : Recorded s) (orderly : Orderly w) {e : Event} {id : TaskId}
    {task : Task} (vacant : (s.kernel.tasks id).state = .free)
    (tasks : w.kernel.tasks = Function.update s.kernel.tasks id task) (ready : task.state = .ready)
    (child : task.parent = parentOf s.waiters.machine e) (shell : ByShell s (.plain e))
    (fair : ∀ c, (s.kernel.tasks c).state ≠ .free → (s.kernel.tasks c).parent ≠ some id) :
    Recorded { s with
      waiters := w
      holder := Function.update s.holder id s.born
      born := s.born + 1
      creator := Function.update s.creator s.born (creatorOf s e) } := by
  have own : w.kernel.tasks id = task := by rw [tasks, Function.update_self]
  have others : ∀ i, i ≠ id → w.kernel.tasks i = s.kernel.tasks i := fun i other => by
    rw [tasks, Function.update_of_ne other]
  have aside : ∀ i, (w.kernel.tasks i).state ≠ .free → i ≠ id → (s.kernel.tasks i).state ≠ .free :=
    fun i taken other => others i other ▸ taken
  have older : ∀ i, s.holder i ≠ s.born := fun i => (recorded.known i).ne
  have creator : ∀ i, Function.update s.creator s.born (creatorOf s e) (s.holder i) =
      s.creator (s.holder i) := fun i => Function.update_of_ne (older i) ..
  refine ⟨orderly, fun i => ?_, fun i j taken taken' same => ?_, fun n m created => ?_,
    fun i p taken born held => ?_, fun i finished => ?_, fun a member => ?_, recorded.once⟩
  · change Function.update s.holder id s.born i < s.born + 1
    by_cases newcomer : i = id
    · rw [newcomer, Function.update_self]
      exact Nat.lt_succ_self _
    · rw [Function.update_of_ne newcomer]
      exact Nat.lt_succ_of_lt (recorded.known i)
  · change Function.update s.holder id s.born i = Function.update s.holder id s.born j at same
    by_cases first : i = id
    · by_cases second : j = id
      · rw [first, second]
      · rw [first, Function.update_self, Function.update_of_ne second] at same
        exact absurd same.symm (older j)
    · by_cases second : j = id
      · rw [second, Function.update_self, Function.update_of_ne first] at same
        exact absurd same (older i)
      · rw [Function.update_of_ne first, Function.update_of_ne second] at same
        exact recorded.apart i j (aside i taken first) (aside j taken' second) same
  · change Function.update s.creator s.born (creatorOf s e) n = some m at created
    change n < s.born + 1 ∧ m < s.born + 1
    by_cases newcomer : n = s.born
    · rw [newcomer, Function.update_self] at created
      unfold creatorOf at created
      split at created
      · simp at created
      · have known := recorded.known s.current
        obtain rfl := Option.some.inj created
        omega
    · rw [Function.update_of_ne newcomer] at created
      have bounds := recorded.heirs n m created
      omega
  · change Function.update s.creator s.born (creatorOf s e) (Function.update s.holder id s.born i) =
      some (Function.update s.holder id s.born p)
    change (w.kernel.tasks i).parent = _ at born
    by_cases newcomer : i = id
    · subst newcomer
      rw [Function.update_self, Function.update_self]
      rw [own, child] at born
      have lives : ∀ q, (s.kernel.tasks q).state ≠ .free →
          Function.update s.holder i s.born q = s.holder q := by
        intro q occupied
        refine Function.update_of_ne ?_ ..
        rintro rfl
        exact occupied vacant
      cases e with
      | spawn => simp [parentOf] at born
      | run stack image =>
          obtain rfl := Option.some.inj born
          have zero : s.current = 0 := shell
          rw [lives 0 recorded.orderly.regular.shell.2.1]
          exact congrArg (fun q => some (s.holder q)) zero
      | _ =>
          obtain rfl := Option.some.inj born
          exact congrArg some (lives _ recorded.orderly.regular.here).symm
    · rw [Function.update_of_ne newcomer, creator]
      rw [others i newcomer] at born
      have occupied := aside i taken newcomer
      have elder : p ≠ id := by
        rintro rfl
        exact fair i occupied born
      rw [Function.update_of_ne elder]
      exact recorded.kin i p occupied born (aside p held elder)
  · change s.status (Function.update s.holder id s.born i) = some (w.kernel.tasks i).exitCode
    change (w.kernel.tasks i).state = _ at finished
    have other : i ≠ id := by
      rintro rfl
      rw [own, ready] at finished
      exact absurd finished (by simp)
    rw [Function.update_of_ne other]
    rw [others i other] at finished ⊢
    exact recorded.ceased i finished
  · obtain ⟨created, code, absent⟩ := recorded.answered a member
    have young := (recorded.heirs _ _ created).1
    refine ⟨?_, code, fun i taken => ?_⟩
    · change Function.update s.creator s.born (creatorOf s e) a.child = _
      rw [Function.update_of_ne young.ne]
      exact created
    · change Function.update s.holder id s.born i ≠ a.child
      by_cases newcomer : i = id
      · rw [newcomer, Function.update_self]
        exact young.ne'
      · rw [Function.update_of_ne newcomer]
        exact absent i (aside i taken newcomer)

private theorem stranger (recorded : Recorded s) {e : Event} {id : TaskId} {task : Task}
    (vacant : (s.kernel.tasks id).state = .free)
    (tasks : w.kernel.tasks = Function.update s.kernel.tasks id task) (ready : task.state = .ready)
    {c : TaskId} (held : (s.kernel.tasks c).state ≠ .free)
    (child : (s.kernel.tasks c).parent = some id) :
    ¬Rightful { s with
      waiters := w
      holder := Function.update s.holder id s.born
      born := s.born + 1
      creator := Function.update s.creator s.born (creatorOf s e) } := by
  rintro ⟨-, -, immediate⟩
  have other : c ≠ id := by
    rintro rfl
    exact held vacant
  have kept : w.kernel.tasks c = s.kernel.tasks c := by rw [tasks, Function.update_of_ne other]
  have live : (w.kernel.tasks id).state.Live := by
    rw [tasks, Function.update_self, ready]
    exact ⟨nofun, nofun⟩
  have childless := immediate id live fun i _ => ?_
  · change hasChild w.kernel.tasks id = false at childless
    rw [← Bool.not_eq_true, hasChild_iff] at childless
    exact childless ⟨c, by rw [kept]; exact child, by rw [kept]; exact held, other⟩
  · change Function.update s.creator s.born (creatorOf s e) (Function.update s.holder id s.born i) ≠
      some (Function.update s.holder id s.born id)
    rw [Function.update_self]
    intro created
    by_cases newcomer : Function.update s.holder id s.born i = s.born
    · rw [newcomer, Function.update_self] at created
      unfold creatorOf at created
      split at created
      · simp at created
      · exact (recorded.known s.current).ne (Option.some.inj created)
    · rw [Function.update_of_ne newcomer] at created
      exact absurd (recorded.heirs _ _ created).2 (lt_irrefl _)

private theorem Recorded.returned (recorded : Recorded s) (orderly : Orderly w) {id : TaskId}
    (child : (s.kernel.tasks id).parent = some s.current)
    (ceased : (s.kernel.tasks id).state = .finished)
    (tasks : w.kernel.tasks = Function.update s.kernel.tasks id empty)
    (orphans : w.kernel.orphans = s.kernel.orphans ++ (s.kernel.tasks id).addressSpace.toList) :
    Recorded { s with
      waiters := w
      answers := ⟨s.holder s.current, s.holder id, (s.kernel.tasks id).exitCode⟩ :: s.answers } := by
  have change : Change .everyday s.kernel w.kernel := .collected child ceased tasks orphans
  have held : (s.kernel.tasks id).state ≠ .free := by simp [ceased]
  have quiet : Recorded { s with waiters := w } := by
    refine recorded.quiet orderly change (fun _ => not_false) fun i finished => ?_
    by_cases same : i = id
    · rw [same]
      exact ceased
    · rwa [tasks, Function.update_of_ne same] at finished
  refine ⟨quiet.orderly, quiet.known, quiet.apart, quiet.heirs, quiet.kin, quiet.ceased,
    fun a member => ?_, ?_⟩
  · rcases List.mem_cons.mp member with rfl | earlier
    · refine ⟨recorded.kin id s.current held child recorded.orderly.regular.here,
        recorded.ceased id ceased, fun i taken same => ?_⟩
      have other : i ≠ id := by
        rintro rfl
        refine taken ?_
        change (w.kernel.tasks i).state = _
        rw [tasks, Function.update_self]
        rfl
      have taken' : (s.kernel.tasks i).state ≠ .free :=
        (change.occupied taken).resolve_right not_false
      exact other (recorded.apart i id taken' held same)
    · exact quiet.answered a earlier
  · refine List.nodup_cons.mpr ⟨fun member => ?_, recorded.once⟩
    obtain ⟨a, earlier, same⟩ := List.mem_map.mp member
    exact (recorded.answered a earlier).2.2 id held same.symm

private theorem departed_emptied {k k' : Kernel} {id : TaskId} (held : (k.tasks id).state ≠ .free)
    (tasks : k'.tasks = Function.update k.tasks id empty) : departed k k' = some id := by
  have only : ∀ i, (k.tasks i).state ≠ .free ∧ (k'.tasks i).state = .free ↔ i = id := by
    intro i
    constructor
    · rintro ⟨taken, free⟩
      by_contra other
      rw [tasks, Function.update_of_ne other] at free
      exact taken free
    · rintro rfl
      refine ⟨held, ?_⟩
      rw [tasks, Function.update_self]
      rfl
  unfold departed
  cases found : (List.finRange maxTasks).find? fun i =>
      decide ((k.tasks i).state ≠ .free ∧ (k'.tasks i).state = .free) with
  | none =>
      have nobody := List.find?_eq_none.mp found id (List.mem_finRange id)
      exact absurd ((only id).mpr rfl) (by simpa using nobody)
  | some i =>
      have here := List.find?_some found
      exact congrArg some ((only i).mp (by simpa using here))

private theorem recorded_plain (recorded : Recorded s) {e : Event} (shell : ByShell s (.plain e))
    (taken : Waiting.step s.waiters (.plain e) = some w) :
    (Fair s (.plain e) → Recorded (record s (.plain e) w)) ∧
      (Rightful (record s (.plain e) w) → Fair s (.plain e)) := by
  have orderly := orderly_step recorded.orderly taken
  simp only [Waiting.step, Option.ite_none_right_eq_some, Option.map_eq_some_iff] at taken
  obtain ⟨⟨-, off⟩, m', taken, rfl⟩ := taken
  have change := change_step recorded.orderly.regular taken
  cases fill : fills s.waiters.machine e with
  | some id =>
      have recordeds : record s (.plain e) ⟨m', Waiting.refreshed s.waiters m'⟩ = { s with
          waiters := ⟨m', Waiting.refreshed s.waiters m'⟩
          holder := Function.update s.holder id s.born
          born := s.born + 1
          creator := Function.update s.creator s.born (creatorOf s e) } := by
        simp only [record, fill]
      obtain ⟨task, tasks, ready, child, -⟩ := filled taken fill
      have vacant : (s.kernel.tasks id).state = .free := by
        cases e with
        | spawn => exact freeSlot_some fill
        | run => exact freeSlot_some fill
        | serve env =>
            simp only [fills, Option.ite_none_right_eq_some] at fill
            exact freeSlot_some fill.2
        | _ => simp [fills] at fill
      rw [recordeds]
      constructor
      · intro fair
        exact recorded.joined orderly vacant tasks ready child shell (fair id fill)
      · intro rightful id' fill' c held born
        obtain rfl := Option.some.inj (fill.symm.trans fill')
        exact stranger (w := ⟨m', Waiting.refreshed s.waiters m'⟩) recorded vacant tasks ready held born
          rightful
  | none =>
      have unfilled : ∀ id, ¬fills s.waiters.machine e = some id := fun id same => by
        rw [fill] at same
        exact absurd same (by simp)
      have fair : Fair s (.plain e) := fun id same => absurd same (unfilled id)
      refine ⟨fun _ => ?_, fun _ => fair⟩
      cases ending : ends s.waiters.machine e with
      | none =>
          have recordeds : record s (.plain e) ⟨m', Waiting.refreshed s.waiters m'⟩ = { s with
              waiters := ⟨m', Waiting.refreshed s.waiters m'⟩ } := by
            simp only [record, fill, ending]
          rw [recordeds]
          refine recorded.quiet orderly change unfilled fun id finished => ?_
          by_contra lives
          have ended := ends_of_ended taken off lives finished
          rw [ending] at ended
          exact absurd ended (by simp)
      | some id =>
          have recordeds : record s (.plain e) ⟨m', Waiting.refreshed s.waiters m'⟩ = { s with
              waiters := ⟨m', Waiting.refreshed s.waiters m'⟩
              status := Function.update s.status (s.holder id)
                (some (m'.kernel.tasks id).exitCode) } := by
            simp only [record, fill, ending]
            rfl
          rw [recordeds]
          have finished := (ended_of_ends recorded.orderly.regular taken ending).finished
          have was : ∀ i, (m'.kernel.tasks i).state ≠ .free → (s.kernel.tasks i).state ≠ .free :=
            fun i held => (change.occupied held).resolve_right (unfilled i)
          have held := was id (by simp [finished])
          refine recorded.kept orderly change unfilled (fun i stopped => ?_) fun n absent => ?_
          · by_cases same : i = id
            · rw [same, Function.update_self]
              rfl
            · have stopped' : (m'.kernel.tasks i).state = .finished := stopped
              have held' := was i (by simp [stopped'])
              have other : s.holder i ≠ s.holder id :=
                fun numbers => same (recorded.apart i id held' held numbers)
              rw [Function.update_of_ne other]
              have before : (s.kernel.tasks i).state = .finished := by
                by_contra lives
                have ended := ends_of_ended taken off lives stopped'
                rw [ending] at ended
                exact same (Option.some.inj ended).symm
              have code := (change.persists held' (by simp [stopped'])).2 before
              rw [recorded.ceased i before]
              exact congrArg some code.symm
          · exact Function.update_of_ne (absent id held).symm ..

private theorem recorded_waiting (recorded : Recorded s) {a : Action} (own : ∀ e, a ≠ .plain e)
    (taken : Waiting.step s.waiters a = some w) : Recorded (record s a w) := by
  have orderly := orderly_step recorded.orderly taken
  have still : w.kernel = s.kernel → Recorded { s with waiters := w } := by
    intro same
    have change : Change .everyday s.kernel w.kernel := by
      rw [same]
      exact .continues (.refl _ _)
    exact recorded.quiet orderly change (fun _ => not_false) fun id finished => same ▸ finished
  cases a with
  | plain e => exact absurd rfl (own e)
  | enter =>
      refine still ?_
      simp only [Waiting.step, Option.ite_none_right_eq_some] at taken
      obtain ⟨-, taken⟩ := taken
      split_ifs at taken
      · obtain rfl := Option.some.inj taken
        exact answered_kernel ..
      · obtain rfl := Option.some.inj taken
        rfl
  | choose =>
      refine still ?_
      simp only [Waiting.step, Option.ite_none_right_eq_some] at taken
      obtain ⟨-, taken⟩ := taken
      split at taken
      · obtain rfl := Option.some.inj taken
        exact answered_kernel ..
      · obtain rfl := Option.some.inj taken
        rfl
  | collect =>
      simp only [Waiting.step, Option.ite_none_right_eq_some] at taken
      obtain ⟨-, taken⟩ := taken
      rcases collect_cases s.kernel s.current with ⟨nobody, -⟩ | ⟨id, child, ceased, found⟩
      · have nobody' : Lifecycle.collect s.waiters.kernel s.waiters.current = (none, s.kernel) := nobody
        rw [nobody'] at taken
        obtain rfl := Option.some.inj taken
        have recordeds : record s .collect (s.waiters.goTo s.waiters.machine .choosing) =
            { s with waiters := s.waiters.goTo s.waiters.machine .choosing } := by
          simp only [record, nobody]
        rw [recordeds]
        exact still rfl
      · have found' : Lifecycle.collect s.waiters.kernel s.waiters.current = _ := found
        rw [found'] at taken
        have tasks : w.kernel.tasks = Function.update s.kernel.tasks id empty := by
          rw [← Option.some.inj taken]
          exact congrArg Kernel.tasks (answered_kernel ..)
        have orphans : w.kernel.orphans =
            s.kernel.orphans ++ (s.kernel.tasks id).addressSpace.toList := by
          rw [← Option.some.inj taken]
          exact congrArg Kernel.orphans (answered_kernel ..)
        have left : departed s.kernel w.kernel = some id :=
          departed_emptied (by simp [ceased]) tasks
        have recordeds : record s .collect w = { s with
            waiters := w
            answers := ⟨s.holder s.current, s.holder id, (s.kernel.tasks id).exitCode⟩ ::
              s.answers } := by
          simp only [record, found, left]
        rw [recordeds]
        exact recorded.returned orderly child ceased tasks orphans
  | test =>
      have parked : ∀ child place, s.waiters.place s.current = place → place ≠ .elsewhere →
          (if (s.kernel.tasks child).state = .finished ∨ (s.kernel.tasks child).state = .free then
            some (s.waiters.goTo s.waiters.machine .scanning)
          else some (s.waiters.goTo (withKernel s.waiters.machine
            (park s.kernel (Kernel.completion child))) (.parked child))) = some w →
          Recorded { s with waiters := w } := by
        intro child place here within taken
        split_ifs at taken
        · obtain rfl := Option.some.inj taken
          exact still rfl
        · obtain rfl := Option.some.inj taken
          have live : (s.kernel.tasks s.kernel.current).state.Live :=
            recorded.orderly.live (here ▸ within)
          have goesOn := Continues.park live (Kernel.completion child)
          have change : Change .everyday s.kernel (park s.kernel (Kernel.completion child)) :=
            .continues goesOn
          exact recorded.quiet orderly change (fun _ => not_false) fun id finished =>
            (goesOn.goes id).state.finished_iff.mp finished
      simp only [Waiting.step] at taken
      split at taken
      · rename_i child here
        exact parked child _ here (by simp) taken
      · rename_i child here
        exact parked child _ here (by simp) taken
      · simp at taken

theorem recorded_step (recorded : Recorded s) {a : Action} {s' : Annals} (taken : step s a = some s') :
    (Fair s a → Recorded s') ∧ (Rightful s' → Fair s a) := by
  simp only [step, Option.ite_none_right_eq_some, Option.map_eq_some_iff] at taken
  obtain ⟨shell, w, taken, rfl⟩ := taken
  cases a with
  | plain e => exact recorded_plain recorded shell taken
  | enter => exact ⟨fun _ => recorded_waiting recorded (by simp) taken, fun _ => trivial⟩
  | collect => exact ⟨fun _ => recorded_waiting recorded (by simp) taken, fun _ => trivial⟩
  | choose => exact ⟨fun _ => recorded_waiting recorded (by simp) taken, fun _ => trivial⟩
  | test => exact ⟨fun _ => recorded_waiting recorded (by simp) taken, fun _ => trivial⟩

end Steps

private theorem recorded_started {s : Annals} (first : Started s) : Recorded s := by
  obtain ⟨first, holder, born, creator, answers⟩ := first
  have orderly := Waiting.orderly_started first
  have shell : ∀ id, (s.kernel.tasks id).state ≠ .free →
      id = 0 ∧ (s.kernel.tasks id).parent = none ∧ (s.kernel.tasks id).state ≠ .finished := by
    obtain ⟨⟨memory, root, rsp0, ticks, machine⟩, -⟩ := first
    have kernel : s.kernel = (boot memory root rsp0 ticks).kernel := congrArg Machine.kernel machine
    intro id held
    rw [kernel] at held ⊢
    by_cases zero : id = 0
    · subst zero
      exact ⟨rfl, rfl, nofun⟩
    · refine absurd ?_ held
      change ((Function.update (fun _ => empty) 0 _ : Tasks) id).state = _
      rw [Function.update_of_ne zero]
      rfl
  refine ⟨orderly, fun id => ?_, fun i j held held' _ => ?_, fun n m created => ?_,
    fun id p held child _ => ?_, fun id finished => ?_, fun a member => ?_, ?_⟩
  · rw [holder, born]
    exact Nat.zero_lt_one
  · rw [(shell i held).1, (shell j held').1]
  · rw [creator] at created
    exact absurd created (by simp)
  · rw [(shell id held).2.1] at child
    exact absurd child (by simp)
  · exact absurd finished (shell id (by simp [finished])).2.2
  · rw [answers] at member
    exact absurd member (by simp)
  · rw [answers]
    exact List.nodup_nil

/-- In a run in which no slot is filled while a task names it as its parent's, every
exit code reaches the task that created the one who ended, once, and the next step keeps it so if
and only if it fills no such slot. -/
theorem exit_codes_rightful_iff {s : Annals} (run : Reached step Started Fair s) :
    Rightful s ∧ ∀ a s', step s a = some s' → (Rightful s' ↔ Fair s a) := by
  have recorded : Recorded s := by
    exact run.invariant (P := Recorded) (fun _ => recorded_started) fun s a s' recorded fair taken =>
      (recorded_step recorded taken).1 fair
  exact ⟨recorded.rightful, fun a s' taken => ⟨(recorded_step recorded taken).2,
    fun fair => ((recorded_step recorded taken).1 fair).rightful⟩⟩

section Scenario

open FiveAM.Process.Waiting (calls forks exits waits launched begun begun_started)

private def early : Annals := ⟨begun, fun _ => 0, 1, fun _ => none, fun _ => none, []⟩

private theorem early_started : Started early :=
  ⟨begun_started, fun _ => rfl, rfl, fun _ => rfl, rfl⟩

private def survived : List Action :=
  launched ++ forks (rootAt 0x3000) 0x444444461000 ++ exits ++
    [.plain (.tickInside 0x444444450000 fun i => if i = frameCs then kernelCode else 0),
      .test, .collect]

/-- Another program starts in the slot, Ctrl-C ends the orphan, and the program waits. -/
private def adopted : List Action :=
  survived ++ .plain (.run 0x444444481000 { program with root := rootAt 0x5000 }) :: waits ++
    [.plain .interrupt, .plain firstTick] ++ calls sysWait ++ [.enter, .collect]

private theorem adopted_facts : ((runAll step early adopted).any fun s =>
    decide (s.answers.map (fun a => (a.asker, a.child)) = [(3, 2), (0, 1)] ∧
      s.creator 2 = some 1)) = true := by
  decide +kernel

/-- A program collects the exit code of a task that the last holder of its slot forked. -/
theorem exit_code_misdelivered : ∃ s, Reached step Started (fun _ _ => True) s ∧ ¬Rightful s := by
  obtain ⟨s, reached, facts⟩ := Reached.freely Started early_started adopted_facts
  obtain ⟨answers, creator⟩ := of_decide_eq_true facts
  refine ⟨s, reached, fun rightful => ?_⟩
  obtain ⟨a, rest, split, asked⟩ := List.map_eq_cons_iff.mp answers
  have own := (rightful.1 a (by rw [split]; exact List.mem_cons_self)).1
  obtain ⟨asker, child⟩ := Prod.mk.inj asked.1
  rw [child, creator, asker] at own
  exact absurd own (by simp)

private def alone : Option Annals :=
  runAll (fun s a => if Fair s a then step s a else none) early (launched ++ exits ++
    [.plain (.tickInside 0x444444450000 fun i => if i = frameCs then kernelCode else 0),
      .test, .collect])

private theorem alone_facts : (alone.any fun s =>
    decide (s.answers.map (fun a => (a.asker, a.child, a.code)) = [(0, 1, 1)])) = true := by
  decide +kernel

/-- The shell collects the exit code of the program it started. -/
theorem exit_codes_rightful_iff_one :
    ∃ s, s.answers.map (fun a => (a.asker, a.child, a.code)) = [(0, 1, 1)] ∧ Rightful s ∧
      ∀ a s', step s a = some s' → (Rightful s' ↔ Fair s a) := by
  obtain ⟨s, taken, facts⟩ := Option.any_eq_true _ _ |>.mp alone_facts
  simp only [decide_eq_true_eq] at facts
  have run : Reached step Started Fair s := (Reached.start early_started).runGuarded taken
  exact ⟨s, facts, exit_codes_rightful_iff run⟩

end Scenario

end FiveAM.Process.Kinship
