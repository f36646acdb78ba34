/- GID: FiveAM/Sched/Feedback
   source: kernel/src/sched.rs
   digest: Which tasks `mlfq` demotes, over any run of consecutive ticks. -/

import FiveAM.Sched.Measurements

set_option autoImplicit false
set_option relaxedAutoImplicit false

namespace FiveAM.Sched.Feedback

open FiveAM.Process.TaskTable FiveAM.Sched.Policy FiveAM.Sched.Mechanism
open FiveAM.Sched.Conformance (asks choose_unasked watchdog_remaining)
open FiveAM.Sched.Measurements (Event answered decided counted choose_decides ready_of_unasked)

/-- `mlfq` in the registry. -/
def mlfq : Nat := 4

/-- What a decision gave to a task: so many ticks, until the next one, how many of them have passed, and
whether the task was ready on every one. -/
structure Turn where
  id : TaskId
  quantum : Nat
  used : Nat
  ready : Bool
  deriving DecidableEq

/-- One tick of a turn is over, and this is what the table says then. -/
def Turn.served (t : Turn) (tasks : Tasks) : Turn :=
  { t with used := t.used + 1, ready := t.ready && decide ((tasks t.id).state = .ready) }

/-- The task was ready on every tick of its quantum and has used all of it. -/
def Turn.Full (t : Turn) : Prop := t.ready = true ∧ t.used = t.quantum

/-- The scheduler, the task that is running and the last tick, with the turn that task
is having. -/
structure Turned where
  scheduler : Scheduler
  current : TaskId
  now : Nat
  turn : Option Turn

def booted (now : Nat) : Turned := ⟨new, 0, now, none⟩

/-- What the scheduler is shown on the next tick. -/
def queue (m : Turned) (tasks : Tasks) : RunQueue := ⟨tasks, m.current, m.now + 1⟩

/-- A turn ends when its slot is freed or filled. -/
def ended (turn : Option Turn) (id : TaskId) : Option Turn := turn.filter fun t => t.id ≠ id

def step (m : Turned) : Event → Turned
  | .tick tasks =>
      let chosen := choose m.scheduler tasks m.current (m.now + 1)
      ⟨chosen.2, chosen.1, m.now + 1,
        if asks m.scheduler (queue m tasks) = false then m.turn.map fun t => t.served tasks
        else if chosen.2.remaining = 0 then none
        else some ⟨chosen.1, chosen.2.remaining, 0, decide ((tasks chosen.1).state = .ready)⟩⟩
  | .install index tasks =>
      let installed := install m.scheduler index ⟨tasks, m.current, m.now⟩
      { m with scheduler := installed.2, turn := if installed.1 then none else m.turn }
  | .taskCreated id =>
      { m with scheduler := taskCreated m.scheduler id, turn := ended m.turn id }
  | .taskExited id => { m with scheduler := taskExited m.scheduler id, turn := ended m.turn id }
  | .setWatchdog enabled =>
      { m with scheduler := Measurements.setWatchdog m.scheduler enabled }
  | .takeReport => { m with scheduler := Measurements.takeReport m.scheduler }

def level (m : Turned) (id : TaskId) : Nat := (m.scheduler.policies.mlfq.level id).val

def Boosts (m : Turned) : Prop := m.scheduler.policies.mlfq.boostAt ≤ m.now + 1

instance (m : Turned) : Decidable (Boosts m) := inferInstanceAs (Decidable (_ ≤ _))

/-- The levels after an event: on a tick everybody keeps theirs but for a boost, and for
a task that has had a full turn; otherwise levels are only set back. -/
def Judged (m : Turned) : Event → Prop
  | .tick tasks => ∀ id,
      level (step m (.tick tasks)) id = level m id ∨
      Boosts m ∧ level (step m (.tick tasks)) id = 0 ∨
      level (step m (.tick tasks)) id = level m id + 1 ∧
        ∃ t, m.turn.map (fun t => t.served tasks) = some t ∧ t.id = id ∧ t.Full
  | .install index tasks => ∀ id,
      level (step m (.install index tasks)) id = level m id ∨
      index = mlfq ∧ level (step m (.install index tasks)) id = 0
  | .taskCreated other => ∀ id,
      level (step m (.taskCreated other)) id = level m id ∨
      other = id ∧ level (step m (.taskCreated other)) id = 0
  | .taskExited other => ∀ id,
      level (step m (.taskExited other)) id = level m id ∨
      other = id ∧ level (step m (.taskExited other)) id = 0
  | .setWatchdog enabled => ∀ id, level (step m (.setWatchdog enabled)) id = level m id
  | .takeReport => ∀ id, level (step m .takeReport) id = level m id

/-- The countdown is at its end, so that `mlfq` is told of a full quantum and demotes the
current task, but that task is not ready, or the countdown was at zero before because
nobody was, or the slot has been filled anew. -/
def Misjudged (m : Turned) : Event → Prop
  | .tick tasks =>
      m.scheduler.active = mlfq ∧ m.scheduler.remaining ≤ 1 ∧ ¬Boosts m ∧
        level m m.current + 1 < levels ∧
        ¬(m.scheduler.remaining = 1 ∧ (tasks m.current).state = .ready ∧ m.turn.isSome = true)
  | _ => False

def AllJudged (m : Turned) : List Event → Prop
  | [] => True
  | e :: rest => Judged m e ∧ AllJudged (step m e) rest

def NoneMisjudged (m : Turned) : List Event → Prop
  | [] => True
  | e :: rest => ¬Misjudged m e ∧ NoneMisjudged (step m e) rest

/-- The turn is the current task's, and the countdown holds the rest of it. -/
def Counting (m : Turned) : Prop :=
  ∀ t, m.turn = some t → t.id = m.current ∧ t.ready = true ∧
    t.used + m.scheduler.remaining = t.quantum ∧ 0 < m.scheduler.remaining

section Levels

variable {s : Scheduler} {q : RunQueue}

/-- What `mlfq` hears at a decision. -/
def told (s : Scheduler) (q : RunQueue) : Mlfq :=
  s.policies.mlfq.onYield q.current (decide (s.remaining - 1 = 0))

theorem answered_mlfq (active : s.active = mlfq) :
    answered s q = (((told s q).pick q).1,
      { s.policies with mlfq := ((told s q).pick q).2 }) := by
  unfold answered
  rw [active]
  rfl

theorem answered_other (other : s.active ≠ mlfq) : (answered s q).2.mlfq = s.policies.mlfq := by
  unfold answered mlfq at *
  generalize s.active = index at *
  unfold Policies.onYield Policies.pick
  split <;> simp_all

private theorem replay_mlfq (index : Nat) (ids : List TaskId) (p : Policies) :
    (ids.foldl (fun p id => p.onReady index id) p).mlfq = p.mlfq ∨
      index = mlfq ∧ (p.mlfq = .new → (ids.foldl (fun p id => p.onReady index id) p).mlfq = .new) := by
  induction ids generalizing p with
  | nil => exact Or.inl rfl
  | cons id rest ih =>
      by_cases here : index = mlfq
      · refine Or.inr ⟨here, fun fresh => ?_⟩
        have cleared : (p.onReady index id).mlfq = .new := by
          rw [here]
          change p.mlfq.clear id = .new
          rw [fresh]
          simp only [Mlfq.clear, Mlfq.new, Mlfq.mk.injEq, and_true]
          exact Function.update_eq_self id fun _ => 0
        rcases ih (p.onReady index id) with same | ⟨-, kept⟩
        · exact same.trans cleared
        · exact kept cleared
      · have same : (p.onReady index id).mlfq = p.mlfq := by
          unfold mlfq at here
          unfold Policies.onReady
          split <;> first | rfl | exact absurd rfl here
        exact Or.inl (((ih _).resolve_right fun other => here other.1).trans same)

theorem install_mlfq (s : Scheduler) (index : Nat) (q : RunQueue) :
    (install s index q).2.policies.mlfq = s.policies.mlfq ∨
      index = mlfq ∧ (install s index q).2.policies.mlfq = .new := by
  unfold install
  split_ifs
  · exact Or.inl rfl
  · simp only
    by_cases here : index = mlfq
    · refine Or.inr ⟨here, ?_⟩
      have reset : (s.policies.reset index).mlfq = .new := by
        rw [here]
        rfl
      rcases replay_mlfq index q.ready (s.policies.reset index) with same | ⟨-, kept⟩
      · exact same.trans reset
      · exact kept reset
    · have reset : (s.policies.reset index).mlfq = s.policies.mlfq := by
        unfold mlfq at here
        unfold Policies.reset
        split <;> first | rfl | exact absurd rfl here
      exact Or.inl (((replay_mlfq index q.ready _).resolve_right fun other => here other.1).trans reset)

theorem created_mlfq (s : Scheduler) (id : TaskId) :
    (taskCreated s id).policies.mlfq = s.policies.mlfq ∨
      (taskCreated s id).policies.mlfq = s.policies.mlfq.clear id := by
  simp only [taskCreated, Policies.onReady]
  split
  · exact Or.inl rfl
  · exact Or.inl rfl
  · exact Or.inl rfl
  · exact Or.inr rfl
  · exact Or.inl rfl

theorem exited_mlfq (s : Scheduler) (id : TaskId) :
    (taskExited s id).policies.mlfq = s.policies.mlfq ∨
      (taskExited s id).policies.mlfq = s.policies.mlfq.clear id := by
  simp only [taskExited, Policies.onExit]
  split
  · exact Or.inl rfl
  · exact Or.inl rfl
  · exact Or.inl rfl
  · exact Or.inr rfl
  · exact Or.inl rfl

theorem watchdog_mlfq (s : Scheduler) (active : Nat) (q : RunQueue) :
    (watchdog s active q).policies.mlfq = s.policies.mlfq := by
  unfold watchdog
  simp only
  split_ifs
  · rfl
  · rfl
  · rfl
  · exact (install_mlfq _ safe q).resolve_right fun other => absurd other.1 (by decide)
  · rfl

end Levels

variable {m : Turned}

theorem level_decided {tasks : Tasks} (asked : asks m.scheduler (queue m tasks) = true) (id : TaskId) :
    level (step m (.tick tasks)) id =
      ((answered m.scheduler (queue m tasks)).2.mlfq.level id).val := by
  have chosen := choose_decides asked
  simp only [level, step]
  change ((choose m.scheduler tasks m.current (m.now + 1)).2.policies.mlfq.level id).val = _
  rw [chosen, watchdog_mlfq]
  rfl

theorem level_inside {tasks : Tasks} (inside : asks m.scheduler (queue m tasks) = false)
    (id : TaskId) : level (step m (.tick tasks)) id = level m id := by
  obtain ⟨stays, -⟩ := choose_unasked inside
  simp only [level, step]
  rw [stays]

theorem level_mlfq {tasks : Tasks} (active : m.scheduler.active = mlfq)
    (asked : asks m.scheduler (queue m tasks) = true) (id : TaskId) :
    level (step m (.tick tasks)) id =
      if m.scheduler.policies.mlfq.boostAt ≤ m.now + 1 then 0
      else if m.scheduler.remaining ≤ 1 ∧ level m m.current + 1 < levels ∧ id = m.current then
        level m id + 1
      else level m id := by
  rw [level_decided asked, answered_mlfq active]
  have kept : (told m.scheduler (queue m tasks)).boostAt = m.scheduler.policies.mlfq.boostAt := by
    unfold told Mlfq.onYield
    split_ifs <;> rfl
  simp only [Mlfq.pick, Mlfq.boosted, kept]
  by_cases boosts : m.scheduler.policies.mlfq.boostAt ≤ m.now + 1
  · rw [if_pos boosts, if_pos (c := _ ≤ (queue m tasks).now) boosts]
    rfl
  · rw [if_neg boosts, if_neg (c := _ ≤ (queue m tasks).now) boosts]
    unfold told Mlfq.onYield
    have spent : decide (m.scheduler.remaining - 1 = 0) = true ↔ m.scheduler.remaining ≤ 1 := by
      simp only [decide_eq_true_eq]
      omega
    by_cases room : m.scheduler.remaining ≤ 1 ∧ level m m.current + 1 < levels
    · rw [dif_pos ⟨spent.mpr room.1, room.2⟩]
      by_cases here : id = m.current
      · subst here
        rw [if_pos ⟨room.1, room.2, rfl⟩]
        simp only [queue, Function.update_self, level]
      · rw [if_neg fun all => here all.2.2]
        exact congrArg Fin.val (Function.update_of_ne here ..)
    · rw [dif_neg fun full => room ⟨spent.mp full.1, full.2⟩, if_neg fun all => room ⟨all.1, all.2.1⟩]
      rfl

theorem counting_step (counting : Counting m) (e : Event) : Counting (step m e) := by
  intro t having
  cases e with
  | tick tasks =>
      cases asked : asks m.scheduler (queue m tasks) with
      | false =>
          obtain ⟨stays, -⟩ := choose_unasked asked
          obtain ⟨ready, left⟩ := ready_of_unasked asked
          simp only [step, asked, if_true, Option.map_eq_some_iff] at having
          obtain ⟨old, before, rfl⟩ := having
          obtain ⟨same, awake, sum, -⟩ := counting old before
          have stays' : choose m.scheduler tasks m.current (m.now + 1) = _ := stays
          simp only [step, stays', Turn.served]
          refine ⟨same, ?_, by omega, left⟩
          rw [awake, same, Bool.true_and]
          exact ready
      | true =>
          have chosen : choose m.scheduler tasks m.current (m.now + 1) = _ := choose_decides asked
          simp only [step, asked, Bool.true_eq_false, if_false] at having
          split_ifs at having with none
          obtain rfl := Option.some.inj having
          simp only [step]
          refine ⟨trivial, ?_, Nat.zero_add _, Nat.pos_of_ne_zero none⟩
          rw [chosen] at none ⊢
          have kept : (counted m.scheduler (queue m tasks)).remaining ≠ 0 := fun zero =>
            none (Nat.eq_zero_of_le_zero ((watchdog_remaining _ _ _).trans (Nat.le_of_eq zero)))
          cases picked : (answered m.scheduler (queue m tasks)).1 with
          | none => exact absurd (by simp [counted, account, tracePush, picked]) kept
          | some id =>
              have ready := (pick_ready _ _ _).1 id picked
              have here : decided m.scheduler (queue m tasks) = id := by
                rw [decided, picked, Option.getD_some]
              change decide ((tasks (decided m.scheduler (queue m tasks))).state = .ready) = true
              rw [here]
              exact ready
  | install index tasks =>
      by_cases refused : count ≤ index
      · simp only [step, install, if_pos refused, Bool.false_eq_true, if_false] at having ⊢
        exact counting t having
      · simp only [step, install, if_neg refused, if_true, reduceCtorEq] at having
  | taskCreated id => exact counting t (Option.mem_filter_iff.mp having).1
  | taskExited id => exact counting t (Option.mem_filter_iff.mp having).1
  | setWatchdog enabled => exact counting t having
  | takeReport => exact counting t having

theorem full_iff (counting : Counting m) {tasks : Tasks} (spent : m.scheduler.remaining ≤ 1) :
    (∃ t, m.turn.map (fun t => t.served tasks) = some t ∧ t.id = m.current ∧ t.Full) ↔
      m.scheduler.remaining = 1 ∧ (tasks m.current).state = .ready ∧ m.turn.isSome = true := by
  cases turn : m.turn with
  | none => simp
  | some t =>
      obtain ⟨same, awake, sum, left⟩ := counting t turn
      have last : m.scheduler.remaining = 1 := by omega
      simp only [Option.map_some, Option.some.injEq, exists_eq_left', last, Option.isSome_some,
        and_true, true_and]
      simp only [Turn.served, Turn.Full, awake, same, Bool.true_and, decide_eq_true_eq, true_and]
      exact ⟨fun full => full.1, fun ready => ⟨ready, by omega⟩⟩

private theorem judged_tick (counting : Counting m) (tasks : Tasks) :
    Judged m (.tick tasks) ↔ ¬Misjudged m (.tick tasks) := by
  cases asked : asks m.scheduler (queue m tasks) with
  | false =>
      obtain ⟨-, left⟩ := ready_of_unasked asked
      exact ⟨fun _ wrong => absurd wrong.2.1 (by omega),
        fun _ id => Or.inl (level_inside asked id)⟩
  | true =>
      by_cases active : m.scheduler.active = mlfq
      swap
      · refine ⟨fun _ wrong => active wrong.1, fun _ id => Or.inl ?_⟩
        rw [level_decided asked, answered_other active]
        rfl
      have levels' := level_mlfq active asked
      by_cases boosts : Boosts m
      · refine ⟨fun _ wrong => wrong.2.2.1 boosts, fun _ id => Or.inr (Or.inl ⟨boosts, ?_⟩)⟩
        rw [levels' id]
        exact if_pos boosts
      by_cases demoted : m.scheduler.remaining ≤ 1 ∧ level m m.current + 1 < levels
      · have fullness := @full_iff m counting tasks demoted.1
        constructor
        · rintro judged ⟨-, -, -, -, wrong⟩
          rcases judged m.current with same | ⟨boost, -⟩ | ⟨-, full⟩
          · rw [levels' m.current, if_neg (c := _ ≤ _) boosts, if_pos ⟨demoted.1, demoted.2, rfl⟩] at same
            omega
          · exact boosts boost
          · exact wrong (fullness.mp full)
        · intro right id
          have full := not_not.mp fun wrong => right ⟨active, demoted.1, boosts, demoted.2, wrong⟩
          rw [levels' id, if_neg (c := _ ≤ _) boosts]
          by_cases here : id = m.current
          · subst here
            rw [if_pos ⟨demoted.1, demoted.2, rfl⟩]
            exact Or.inr (Or.inr ⟨rfl, fullness.mpr full⟩)
          · exact Or.inl (if_neg fun all => here all.2.2)
      · refine ⟨fun _ wrong => demoted ⟨wrong.2.1, wrong.2.2.2.1⟩, fun _ id => Or.inl ?_⟩
        rw [levels' id, if_neg (c := _ ≤ _) boosts, if_neg fun all => demoted ⟨all.1, all.2.1⟩]

theorem level_cleared {p p' : Policies} {other : TaskId}
    (shape : p'.mlfq = p.mlfq ∨ p'.mlfq = p.mlfq.clear other) (id : TaskId) :
    (p'.mlfq.level id).val = (p.mlfq.level id).val ∨ other = id ∧ (p'.mlfq.level id).val = 0 := by
  rcases shape with same | cleared
  · exact Or.inl (by rw [same])
  · by_cases here : other = id
    · subst here
      rw [cleared]
      refine Or.inr ⟨rfl, ?_⟩
      simp only [Mlfq.clear, Function.update_self]
      rfl
    · refine Or.inl ?_
      rw [cleared]
      simp only [Mlfq.clear, Function.update_of_ne (Ne.symm here)]

theorem step_judged (counting : Counting m) (e : Event) : Judged m e ↔ ¬Misjudged m e := by
  cases e with
  | tick tasks => exact judged_tick counting tasks
  | install index tasks =>
      refine ⟨fun _ wrong => wrong, fun _ id => ?_⟩
      rcases install_mlfq m.scheduler index ⟨tasks, m.current, m.now⟩ with same | ⟨here, fresh⟩
      · exact Or.inl (by simp only [level, step, same])
      · exact Or.inr ⟨here, by simp only [level, step, fresh]; rfl⟩
  | taskCreated other =>
      exact ⟨fun _ wrong => wrong, fun _ => level_cleared (created_mlfq m.scheduler other)⟩
  | taskExited other =>
      exact ⟨fun _ wrong => wrong, fun _ => level_cleared (exited_mlfq m.scheduler other)⟩
  | setWatchdog enabled => exact ⟨fun _ wrong => wrong, fun _ _ => rfl⟩
  | takeReport => exact ⟨fun _ wrong => wrong, fun _ _ => rfl⟩

theorem run_judged (events : List Event) (counting : Counting m) :
    AllJudged m events ↔ NoneMisjudged m events := by
  induction events generalizing m with
  | nil => exact Iff.rfl
  | cons e rest ih => exact and_congr (step_judged counting e) (ih (counting_step counting e))

/-- In every run from boot, only full-quantum runners are demoted if and only if the
countdown never ends on a task that is not ready, on an idle machine or on a slot that
has been filled anew. -/
theorem demotions_iff (now : Nat) (events : List Event) :
    AllJudged (booted now) events ↔ NoneMisjudged (booted now) events :=
  run_judged events fun _ none => by cases none

section Scenario

private def alone (awake : Bool) : Tasks := fun id =>
  if id = 1 ∧ awake = true then { empty with state := .ready } else empty

/-- `mlfq` has given task 1 two ticks, and it has slept through the second. -/
private def slept : List Event := [.install mlfq (alone true), .tick (alone true), .tick (alone false)]

/-- On the next tick of the idle machine task 1 is demoted. -/
theorem idle_demoted : ¬∀ (now : Nat) (events : List Event), AllJudged (booted now) events := by
  intro all
  obtain ⟨-, -, -, judged, -⟩ := all 100 (slept ++ [.tick (alone false)])
  change Judged (slept.foldl step (booted 100)) (.tick (alone false)) at judged
  have idle : (slept.foldl step (booted 100)).turn = none := by decide +kernel
  rcases judged 1 with same | ⟨boosts, -⟩ | ⟨-, t, having, -⟩
  · exact absurd same (by decide +kernel)
  · exact absurd boosts (by decide +kernel)
  · rw [idle] at having
    cases having

end Scenario

end FiveAM.Sched.Feedback
