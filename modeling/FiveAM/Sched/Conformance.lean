/- GID: FiveAM/Sched/Conformance
   source: kernel/src/sched.rs
   digest: The contract the five policies share, and how long an answer stands. -/

import FiveAM.Sched.Mechanism

set_option autoImplicit false
set_option relaxedAutoImplicit false

namespace FiveAM.Sched.Conformance

open FiveAM.Process.TaskTable FiveAM.Sched.Policy FiveAM.Sched.Mechanism

/-- A call of one of the `Policy` trait's methods. -/
inductive Call where
  | reset
  | onReady (id : TaskId)
  | onExit (id : TaskId)
  | onYield (id : TaskId) (usedFullQuantum : Bool)
  | pick (queue : RunQueue)
  | quantum (id : TaskId)

/-- What one call leaves in the policy at `index`. -/
def after (index : Nat) (p : Policies) : Call → Policies
  | .reset => p.reset index
  | .onReady id => p.onReady index id
  | .onExit id => p.onExit index id
  | .onYield id full => p.onYield index id full
  | .pick queue => (p.pick index queue).2
  | .quantum _ => p

/-- The answer to a queue: a ready task while there is one, nobody otherwise. -/
def Conforms (answer : Option TaskId) (q : RunQueue) : Prop :=
  ((∃ id, q.isReady id = true) → ∃ id, answer = some id ∧ q.isReady id = true) ∧
    ((∀ id, q.isReady id = false) → answer = none)

inductive Event where
  | choose (tasks : Tasks) (current : TaskId) (now : Nat)
  | install (index : Nat) (tasks : Tasks) (current : TaskId) (now : Nat)
  | taskCreated (id : TaskId)
  | taskExited (id : TaskId)

/-- `choose` goes past the quantum and asks the policy. -/
def asks (s : Scheduler) (q : RunQueue) : Bool :=
  !decide (0 < s.remaining - 1 ∧ q.isReady q.current = true)

/-- The scheduler beside the number of `choose` calls since the policy last answered. -/
structure Watched where
  scheduler : Scheduler
  since : Nat

def booted : Watched := ⟨Mechanism.new, 0⟩

def step (m : Watched) : Event → Watched
  | .choose tasks current now =>
      ⟨(Mechanism.choose m.scheduler tasks current now).2,
        if asks m.scheduler ⟨tasks, current, now⟩ then 0 else m.since + 1⟩
  | .install index tasks current now =>
      ⟨(Mechanism.install m.scheduler index ⟨tasks, current, now⟩).2, m.since⟩
  | .taskCreated id => ⟨Mechanism.taskCreated m.scheduler id, m.since⟩
  | .taskExited id => ⟨Mechanism.taskExited m.scheduler id, m.since⟩

theorem pick_conforms (p : Policies) (index : Nat) (q : RunQueue) :
    Conforms (p.pick index q).1 q := by
  obtain ⟨ready, answers⟩ := pick_ready p index q
  refine ⟨fun any => ?_, fun idle => ?_⟩
  · obtain ⟨id, picked⟩ := Option.isSome_iff_exists.mp (answers any)
    exact ⟨id, picked, ready id picked⟩
  · cases picked : (p.pick index q).1 with
    | none => rfl
    | some id => exact absurd (ready id picked) (by simp [idle id])

theorem quantum_bounds (p : Policies) (index : Nat) (id : TaskId) :
    1 ≤ p.quantum index id ∧ p.quantum index id ≤ 16 := by
  unfold Policies.quantum
  split
  · have feedback : ∀ level : Fin levels, 1 ≤ 2 <<< level.val ∧ 2 <<< level.val ≤ 16 := by decide
    exact feedback (p.mlfq.level id)
  · exact ⟨le_rfl, by decide⟩

@[simp] theorem account_remaining (s : Scheduler) (q : RunQueue) (next : TaskId) :
    (account s q next).remaining = s.remaining := rfl

theorem install_remaining (s : Scheduler) (index : Nat) (q : RunQueue) :
    (install s index q).2.remaining ≤ s.remaining := by
  unfold install
  split_ifs <;> simp

theorem watchdog_remaining (s : Scheduler) (active : Nat) (q : RunQueue) :
    (watchdog s active q).remaining ≤ s.remaining := by
  unfold watchdog
  simp only
  split_ifs
  · exact le_rfl
  · exact le_rfl
  · exact le_rfl
  · exact install_remaining _ _ _
  · exact le_rfl

theorem choose_unasked {s : Scheduler} {tasks : Tasks} {current : TaskId} {now : Nat}
    (inside : asks s ⟨tasks, current, now⟩ = false) :
    choose s tasks current now = (current, { s with remaining := s.remaining - 1 }) ∧
      0 < s.remaining - 1 := by
  simp only [asks, Bool.not_eq_false', decide_eq_true_eq] at inside
  exact ⟨if_pos inside, inside.1⟩

theorem choose_asked {s : Scheduler} {tasks : Tasks} {current : TaskId} {now : Nat}
    (asked : asks s ⟨tasks, current, now⟩ = true) :
    (choose s tasks current now).2.remaining ≤ 16 := by
  simp only [asks, Bool.not_eq_true', decide_eq_false_iff_not] at asked
  unfold choose
  simp only
  rw [if_neg asked]
  split
  · refine (watchdog_remaining _ _ _).trans ?_
    obtain ⟨low, high⟩ := quantum_bounds (Policies.pick
      (s.policies.onYield s.active current (decide (s.remaining - 1 = 0))) s.active
      ⟨tasks, current, now⟩).2 s.active ‹TaskId›
    simp only [account_remaining]
    exact max_le high (low.trans high)
  · refine (watchdog_remaining _ _ _).trans ?_
    simp

/-- What is left of an answer and what has passed since it make at most sixteen. -/
def Paced (m : Watched) : Prop := m.scheduler.remaining + m.since ≤ 16 ∧ m.since ≤ 15

theorem step_paced (m : Watched) (e : Event) (paced : Paced m) : Paced (step m e) := by
  obtain ⟨sum, short⟩ := paced
  cases e with
  | choose tasks current now =>
      cases asked : asks m.scheduler ⟨tasks, current, now⟩ with
      | true =>
          have fresh := choose_asked asked
          refine ⟨?_, ?_⟩ <;> simp [step, asked]
          exact fresh
      | false =>
          obtain ⟨kept, room⟩ := choose_unasked asked
          refine ⟨?_, ?_⟩ <;> simp only [step, asked, kept] <;> simp <;> omega
  | install index tasks current now =>
      have fewer := install_remaining m.scheduler index ⟨tasks, current, now⟩
      exact ⟨le_trans (Nat.add_le_add_right fewer _) sum, short⟩
  | taskCreated id => exact ⟨sum, short⟩
  | taskExited id => exact ⟨sum, short⟩

theorem run_paced (events : List Event) (m : Watched) (paced : Paced m) :
    Paced (events.foldl step m) := by
  induction events generalizing m with
  | nil => exact paced
  | cons e rest ih => exact ih _ (step_paced m e paced)

/-- Every policy answers a queue with a ready task or, if there is none, with nobody;
the scheduler chooses a ready task or stays, asks for one to sixteen ticks, and comes
back to the policy within sixteen. -/
theorem policies_conform :
    (∀ (index : Nat) (calls : List Call) (q : RunQueue),
      Conforms ((calls.foldl (after index) .new).pick index q).1 q) ∧
    ∀ (events : List Event), let m := events.foldl step booted
      (∀ tasks current now,
        let chosen := (choose m.scheduler tasks current now).1
        ((∃ id, (tasks id).state = .ready) → (tasks chosen).state = .ready) ∧
          ((∀ id, (tasks id).state ≠ .ready) → chosen = current)) ∧
      (∀ index id, 1 ≤ m.scheduler.policies.quantum index id ∧
        m.scheduler.policies.quantum index id ≤ 16) ∧
      (∀ id, (m.scheduler.policies.mlfq.level id).val < levels) ∧
      m.since < 16 := by
  refine ⟨fun index calls q => pick_conforms _ index q, fun events => ?_⟩
  refine ⟨fun tasks current now => ?_, fun index id => quantum_bounds _ index id,
    fun id => (Mlfq.level _ id).isLt, ?_⟩
  · exact ⟨choose_ready _ tasks current now, choose_idle _ tasks current now⟩
  · have paced : Paced booted := ⟨by decide, by decide⟩
    exact Nat.lt_succ_of_le (run_paced events booted paced).2

end FiveAM.Sched.Conformance
