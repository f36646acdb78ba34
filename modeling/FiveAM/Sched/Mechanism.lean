/- GID: FiveAM/Sched/Mechanism
   source: kernel/src/sched.rs
   digest: Choosing under a quantum, with the accounting, the trace and the watchdog. -/

import FiveAM.Sched.Policy

set_option autoImplicit false
set_option relaxedAutoImplicit false

namespace FiveAM.Sched.Mechanism

open FiveAM.Process.TaskTable FiveAM.Sched.Policy

def traceLength : Nat := 1024
def starvationTicks : Nat := 100
def u32Max : Nat := 2 ^ 32 - 1
def u64Max : Nat := 2 ^ 64 - 1

/-- What the watchdog saw, kept until somebody in a safe context reads it. -/
structure Starvation where
  task : TaskId
  ticks : Nat
  policy : Nat
  reverted : Bool
  deriving DecidableEq

/-- One entry of the trace: the task that ran, none when idle, and who was ready. -/
structure Traced where
  ran : Option TaskId
  ready : TaskId → Bool

structure Scheduler where
  policies : Policies
  active : Nat
  remaining : Nat
  slices : TaskId → Nat
  /-- `u64::MAX` is the source's "never ran". -/
  firstRun : TaskId → Option Nat
  worst : TaskId → Nat
  switches : Nat
  startTick : Nat
  trace : Fin traceLength → Traced
  traceLast : Nat
  traceCount : Nat
  unpicked : TaskId → Nat
  watchdog : Bool
  report : Option Starvation

def new : Scheduler where
  policies := .new
  active := safe
  remaining := 0
  slices _ := 0
  firstRun _ := none
  worst _ := 0
  switches := 0
  startTick := 0
  trace _ := ⟨none, fun _ => false⟩
  traceLast := 0
  traceCount := 0
  unpicked _ := 0
  watchdog := true
  report := none

def tracePush (s : Scheduler) (tick : Nat) (entry : Traced) : Scheduler :=
  { s with
    trace := Function.update s.trace ⟨s.traceCount % traceLength, Nat.mod_lt _ (by decide)⟩ entry
    traceCount := s.traceCount + 1
    traceLast := tick }

/-- Count the tick for whoever got it, and the wait of everybody who did not. -/
def account (s : Scheduler) (q : RunQueue) (next : TaskId) : Scheduler :=
  let idle := !q.isReady next
  let unpicked : TaskId → Nat := fun id =>
    if id = next ∨ q.isReady id = false then 0 else min (s.unpicked id + 1) u32Max
  tracePush
    { s with
      slices := if idle then s.slices
        else Function.update s.slices next (min (s.slices next + 1) u64Max)
      firstRun := if idle ∨ (s.firstRun next).isSome then s.firstRun
        else Function.update s.firstRun next (some (q.now - s.startTick))
      switches := if !idle ∧ next ≠ q.current then min (s.switches + 1) u64Max else s.switches
      unpicked := unpicked
      worst := fun id => max (s.worst id) (unpicked id) }
    q.now ⟨if idle then none else some next, q.isReady⟩

/-- The longest any runnable task has currently gone unpicked, and who. -/
def worstWait (s : Scheduler) : TaskId × Nat :=
  (List.finRange maxTasks).foldl
    (fun acc id => if acc.2 < s.unpicked id then (id, s.unpicked id) else acc) (0, 0)

/-- Install a different policy, replaying the runnable set into it. -/
def install (s : Scheduler) (index : Nat) (q : RunQueue) : Bool × Scheduler :=
  if count ≤ index then (false, s)
  else (true, { s with
    policies := q.ready.foldl (fun p id => p.onReady index id) (s.policies.reset index)
    active := index
    remaining := 0
    unpicked := fun _ => 0 })

/-- Put `Aging` back when a ready task has starved, once per report. -/
def watchdog (s : Scheduler) (active : Nat) (q : RunQueue) : Scheduler :=
  if s.watchdog = false then s
  else
    let (worst, longest) := worstWait s
    if longest < starvationTicks then s
    else if s.report.isSome then s
    else
      let reverted := decide (active ≠ safe)
      let s := { s with report := some ⟨worst, longest, active, reverted⟩ }
      if reverted then (install s safe q).2 else s

def choose (s : Scheduler) (tasks : Tasks) (current : TaskId) (now : Nat) : TaskId × Scheduler :=
  let q : RunQueue := ⟨tasks, current, now⟩
  let remaining := s.remaining - 1
  let s := { s with remaining := remaining }
  if 0 < remaining ∧ q.isReady current then (current, s)
  else
    let active := s.active
    let policies := s.policies.onYield active current (decide (remaining = 0))
    let (picked, policies) := policies.pick active q
    match picked with
    | some id =>
        let s := { s with policies := policies, remaining := max (policies.quantum active id) 1 }
        (id, watchdog (account s q id) active q)
    | none =>
        let s := { s with policies := policies, remaining := 0 }
        (current, watchdog (account s q current) active q)

def taskCreated (s : Scheduler) (id : TaskId) : Scheduler :=
  { s with policies := s.policies.onReady s.active id }

def taskExited (s : Scheduler) (id : TaskId) : Scheduler :=
  { s with policies := s.policies.onExit s.active id }

theorem choose_ready (s : Scheduler) (tasks : Tasks) (current : TaskId) (now : Nat)
    (any : ∃ id, (tasks id).state = .ready) :
    (tasks (choose s tasks current now).1).state = .ready := by
  have decoded : ∀ id, (⟨tasks, current, now⟩ : RunQueue).isReady id = true ↔
      (tasks id).state = .ready := fun id => by simp [RunQueue.isReady]
  unfold choose
  simp only
  split_ifs with keeps
  · exact (decoded current).mp keeps.2
  · obtain ⟨ready, answers⟩ := pick_ready
      (s.policies.onYield s.active current (decide (s.remaining - 1 = 0))) s.active
      ⟨tasks, current, now⟩
    have answered := answers (any.imp fun id h => (decoded id).mpr h)
    split
    · rename_i id picked
      exact (decoded id).mp (ready id picked)
    · rename_i picked
      rw [picked] at answered
      exact absurd answered (by simp)

theorem choose_idle (s : Scheduler) (tasks : Tasks) (current : TaskId) (now : Nat)
    (idle : ∀ id, (tasks id).state ≠ .ready) : (choose s tasks current now).1 = current := by
  unfold choose
  simp only
  split_ifs with keeps
  · rfl
  · split
    · rename_i id picked
      have ready := (pick_ready _ _ _).1 id picked
      exact absurd (by simpa [RunQueue.isReady] using ready) (idle id)
    · rfl

end FiveAM.Sched.Mechanism
