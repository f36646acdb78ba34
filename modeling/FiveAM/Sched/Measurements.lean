/- GID: FiveAM/Sched/Measurements
   source: kernel/src/sched.rs
   digest: What the counters and the trace say about a run of ticks, and when it is true. -/

import FiveAM.Sched.Conformance

set_option autoImplicit false
set_option relaxedAutoImplicit false

namespace FiveAM.Sched.Measurements

open FiveAM.Process.TaskTable FiveAM.Sched.Policy FiveAM.Sched.Mechanism
open FiveAM.Sched.Conformance (asks choose_unasked)

/-- Start a fresh measurement window. The trace goes on. -/
def resetStats (s : Scheduler) (now : Nat) : Scheduler :=
  { s with
    slices := fun _ => 0
    firstRun := fun _ => none
    worst := fun _ => 0
    unpicked := fun _ => 0
    switches := 0
    startTick := now }

/-- What happened on one tick, if the ring buffer still holds it. -/
def traceAt (s : Scheduler) (tick : Nat) : Option Traced :=
  if s.traceCount = 0 ∨ s.traceLast < tick then none
  else
    let back := s.traceLast - tick
    if traceLength ≤ back ∨ s.traceCount ≤ back then none
    else some (s.trace ⟨(s.traceCount - 1 - back) % traceLength, Nat.mod_lt _ (by decide)⟩)

def setWatchdog (s : Scheduler) (enabled : Bool) : Scheduler := { s with watchdog := enabled }

/-- `report_starvation`: the report is taken to be printed. -/
def takeReport (s : Scheduler) : Scheduler := { s with report := none }

section Choosing

variable {s : Scheduler} {tasks : Tasks} {current : TaskId} {now : Nat}

/-- What the policy answers once the running task has been asked to yield. -/
def answered (s : Scheduler) (q : RunQueue) : Option TaskId × Policies :=
  (s.policies.onYield s.active q.current (decide (s.remaining - 1 = 0))).pick s.active q

/-- The task a decision gives the processor to. -/
def decided (s : Scheduler) (q : RunQueue) : TaskId := (answered s q).1.getD q.current

/-- The scheduler when a decision has been counted. -/
def counted (s : Scheduler) (q : RunQueue) : Scheduler :=
  account { s with
    policies := (answered s q).2
    remaining := (answered s q).1.elim 0 fun id => max ((answered s q).2.quantum s.active id) 1 }
    q (decided s q)

theorem choose_decides (asked : asks s ⟨tasks, current, now⟩ = true) :
    choose s tasks current now = (decided s ⟨tasks, current, now⟩,
      watchdog (counted s ⟨tasks, current, now⟩) s.active ⟨tasks, current, now⟩) := by
  simp only [asks, Bool.not_eq_true', decide_eq_false_iff_not] at asked
  unfold choose
  simp only
  rw [if_neg asked]
  unfold counted decided answered
  generalize Policies.pick _ s.active ⟨tasks, current, now⟩ = answer
  obtain ⟨picked, policies⟩ := answer
  cases picked <;> rfl

theorem ready_of_unasked {q : RunQueue} (inside : asks s q = false) :
    q.isReady q.current = true ∧ 0 < s.remaining - 1 := by
  simp only [asks, Bool.not_eq_false', decide_eq_true_eq] at inside
  exact ⟨inside.2, inside.1⟩

end Choosing

section Watching

variable (s : Scheduler) (active : Nat) (q : RunQueue)

/-- The numbers of a measurement window and the trace. -/
structure SameCounts (s s' : Scheduler) : Prop where
  slices : s'.slices = s.slices
  switches : s'.switches = s.switches
  trace : s'.trace = s.trace
  traceLast : s'.traceLast = s.traceLast
  traceCount : s'.traceCount = s.traceCount

theorem install_counts (index : Nat) : SameCounts s (install s index q).2 := by
  unfold install
  split_ifs
  · exact ⟨rfl, rfl, rfl, rfl, rfl⟩
  · exact ⟨rfl, rfl, rfl, rfl, rfl⟩

theorem watchdog_counts : SameCounts s (watchdog s active q) := by
  unfold watchdog
  simp only
  split_ifs
  · exact ⟨rfl, rfl, rfl, rfl, rfl⟩
  · exact ⟨rfl, rfl, rfl, rfl, rfl⟩
  · exact ⟨rfl, rfl, rfl, rfl, rfl⟩
  · obtain ⟨slices, switches, trace, last, count⟩ := install_counts
      { s with report := some ⟨(worstWait s).1, (worstWait s).2, active, decide (active ≠ safe)⟩ }
      q safe
    exact ⟨slices, switches, trace, last, count⟩
  · exact ⟨rfl, rfl, rfl, rfl, rfl⟩

end Watching

/-- One tick: the table `choose` saw, who ran before it and who from it on, and
whether the policy was asked. -/
structure Happened where
  now : Nat
  tasks : Tasks
  before : TaskId
  next : TaskId
  asked : Bool

def Happened.traced (h : Happened) : Traced where
  ran := if (h.tasks h.next).state = .ready then some h.next else none
  ready id := decide ((h.tasks id).state = .ready)

/-- The ticks given to a task while it was ready. -/
def given (log : List Happened) (id : TaskId) : Nat :=
  log.countP fun h => decide (h.next = id ∧ (h.tasks id).state = .ready)

/-- The ticks on which another ready task was chosen than before. -/
def switched (log : List Happened) : Nat :=
  log.countP fun h => decide (h.next ≠ h.before ∧ (h.tasks h.next).state = .ready)

/-- The scheduler, the task that is running and the last tick, with the ticks since the
statistics were reset, the latest first. -/
structure Measured where
  scheduler : Scheduler
  current : TaskId
  now : Nat
  log : List Happened

/-- What reaches the scheduler: ticks, and between them calls from tasks. -/
inductive Event where
  | tick (tasks : Tasks)
  | install (index : Nat) (tasks : Tasks)
  | taskCreated (id : TaskId)
  | taskExited (id : TaskId)
  | setWatchdog (enabled : Bool)
  | takeReport

def reset (s : Scheduler) (current : TaskId) (now : Nat) : Measured :=
  ⟨resetStats s now, current, now, []⟩

def step (m : Measured) : Event → Measured
  | .tick tasks =>
      let chosen := choose m.scheduler tasks m.current (m.now + 1)
      ⟨chosen.2, chosen.1, m.now + 1,
        ⟨m.now + 1, tasks, m.current, chosen.1, asks m.scheduler ⟨tasks, m.current, m.now + 1⟩⟩
          :: m.log⟩
  | .install index tasks =>
      { m with scheduler := (install m.scheduler index ⟨tasks, m.current, m.now⟩).2 }
  | .taskCreated id => { m with scheduler := taskCreated m.scheduler id }
  | .taskExited id => { m with scheduler := taskExited m.scheduler id }
  | .setWatchdog enabled => { m with scheduler := setWatchdog m.scheduler enabled }
  | .takeReport => { m with scheduler := takeReport m.scheduler }

/-- The counters and the trace say what happened since the reset. -/
structure Exact (m : Measured) : Prop where
  slices : ∀ id, m.scheduler.slices id = given m.log id
  switches : m.scheduler.switches = switched m.log
  trace : ∀ k h, k < traceLength → m.log[k]? = some h → traceAt m.scheduler h.now = some h.traced

def decisions (log : List Happened) : List Happened := log.filter fun h => h.asked

/-- What the numbers are, true or not: slices and trace count decisions. -/
structure Counts (before : Nat) (m : Measured) : Prop where
  short : m.scheduler.traceCount = before + (decisions m.log).length
  slices : ∀ id, m.scheduler.slices id = given (decisions m.log) id
  switches : m.scheduler.switches = switched (decisions m.log)
  last : ∀ h, m.log.head? = some h → h.asked = true → m.scheduler.traceLast = h.now
  trace : ∀ k h, k < traceLength → (decisions m.log)[k]? = some h →
    m.scheduler.trace ⟨(m.scheduler.traceCount - 1 - k) % traceLength, Nat.mod_lt _ (by decide)⟩ =
      h.traced
  consecutive : ∀ k h, m.log[k]? = some h → h.now + k = m.now
  inside : ∀ h ∈ m.log, h.asked = false → h.next = h.before ∧ (h.tasks h.next).state = .ready

variable {before : Nat} {m : Measured}

theorem given_le (log : List Happened) (id : TaskId) : given log id ≤ log.length :=
  List.countP_le_length

theorem counts_reset (s : Scheduler) (current : TaskId) (now : Nat) :
    Counts s.traceCount (reset s current now) where
  short := rfl
  slices _ := rfl
  switches := rfl
  last _ none := by cases none
  trace _ _ _ none := by cases none
  consecutive _ _ none := by cases none
  inside _ none := absurd none List.not_mem_nil

theorem Counts.congr {s : Scheduler} (counts : Counts before m) (same : SameCounts m.scheduler s) :
    Counts before { m with scheduler := s } where
  short := same.traceCount.trans counts.short
  slices id := by
    rw [← counts.slices id]
    exact congrFun same.slices id
  switches := same.switches.trans counts.switches
  last h first asked := same.traceLast.trans (counts.last h first asked)
  trace k h low there := by
    simp only [same.trace, same.traceCount]
    exact counts.trace k h low there
  consecutive := counts.consecutive
  inside := counts.inside

theorem counts_unasked {tasks : Tasks} (counts : Counts before m)
    (inside : asks m.scheduler ⟨tasks, m.current, m.now + 1⟩ = false) :
    Counts before (step m (.tick tasks)) := by
  obtain ⟨stays, -⟩ := choose_unasked inside
  have ready : (tasks m.current).state = .ready := by
    simpa [RunQueue.isReady] using (ready_of_unasked inside).1
  have shape : step m (.tick tasks) = ⟨{ m.scheduler with remaining := m.scheduler.remaining - 1 },
      m.current, m.now + 1, ⟨m.now + 1, tasks, m.current, m.current, false⟩ :: m.log⟩ := by
    simp only [step, inside, stays]
  rw [shape]
  refine ⟨counts.short, counts.slices, counts.switches, fun h first asked => ?_,
    counts.trace, fun k h there => ?_, fun h member => ?_⟩
  · obtain rfl := Option.some.inj first
    cases asked
  · cases k with
    | zero =>
        obtain rfl := Option.some.inj there
        rfl
    | succ k =>
        have later := counts.consecutive k h there
        simp only
        omega
  · rcases List.mem_cons.mp member with rfl | old
    · exact fun _ => ⟨rfl, ready⟩
    · exact counts.inside h old

private theorem trace_pushed {s : Scheduler} (tick : Nat) {entry : Traced} {log : List Happened}
    {h : Happened} (new : h.traced = entry) (room : log.length ≤ s.traceCount)
    (old : ∀ k h, k < traceLength → log[k]? = some h →
      s.trace ⟨(s.traceCount - 1 - k) % traceLength, Nat.mod_lt _ (by decide)⟩ = h.traced)
    {k : Nat} {found : Happened} (low : k < traceLength) (there : (h :: log)[k]? = some found) :
    (tracePush s tick entry).trace
      ⟨((tracePush s tick entry).traceCount - 1 - k) % traceLength, Nat.mod_lt _ (by decide)⟩ =
        found.traced := by
  simp only [tracePush]
  cases k with
  | zero =>
      obtain rfl := Option.some.inj there
      rw [new]
      exact Function.update_self ..
  | succ k =>
      have bound : k < log.length := by simpa using (List.getElem?_eq_some_iff.mp there).1
      have apart : (s.traceCount + 1 - 1 - (k + 1)) % traceLength ≠ s.traceCount % traceLength := by
        simp only [traceLength] at low ⊢
        omega
      rw [Function.update_of_ne fun same => apart (congrArg Fin.val same)]
      have shift : s.traceCount + 1 - 1 - (k + 1) = s.traceCount - 1 - k := by omega
      simp only [shift]
      exact old k found (Nat.lt_of_succ_lt low) there

theorem counts_asked {tasks : Tasks} (counts : Counts before m)
    (small : m.scheduler.traceCount < 2 ^ 64 - 1)
    (asked : asks m.scheduler ⟨tasks, m.current, m.now + 1⟩ = true) :
    Counts before (step m (.tick tasks)) := by
  generalize queue : (⟨tasks, m.current, m.now + 1⟩ : RunQueue) = q at asked
  have chosen := choose_decides (queue ▸ asked)
  rw [queue] at chosen
  have shape : step m (.tick tasks) =
      ⟨watchdog (counted m.scheduler q) m.scheduler.active q, decided m.scheduler q, m.now + 1,
        ⟨m.now + 1, tasks, m.current, decided m.scheduler q, true⟩ :: m.log⟩ := by
    simp only [step, queue, asked, chosen]
  rw [shape]
  generalize entry : (⟨m.now + 1, tasks, m.current, decided m.scheduler q, true⟩ : Happened) = h
  have ready : ∀ id, q.isReady id = decide ((tasks id).state = .ready) := fun id => by
    rw [← queue]
    rfl
  have idle : (!q.isReady (decided m.scheduler q)) =
      !decide ((tasks (decided m.scheduler q)).state = .ready) := by rw [ready]
  have log : decisions (h :: m.log) = h :: decisions m.log := by
    rw [← entry]
    rfl
  have plain : Counts before ⟨counted m.scheduler q, decided m.scheduler q, m.now + 1, h :: m.log⟩ := by
    refine ⟨?_, fun id => ?_, ?_, fun found first _ => ?_, fun k found low there => ?_,
      fun k found there => ?_, fun found member => ?_⟩
    · simp only [log, List.length_cons, counted, account, tracePush, counts.short]
      omega
    · have old := counts.slices id
      have bound := given_le (decisions m.log) id
      have short := counts.short
      have total : given (h :: decisions m.log) id = given (decisions m.log) id +
          if h.next = id ∧ (h.tasks id).state = .ready then 1 else 0 := by
        simp only [given, List.countP_cons, decide_eq_true_eq]
      simp only [log, total, counted, account, tracePush, idle]
      rw [← entry]
      simp only
      by_cases here : decided m.scheduler q = id
      · subst here
        by_cases awake : (tasks (decided m.scheduler q)).state = .ready
        · simp only [awake, decide_true, Bool.not_true, Bool.false_eq_true, if_false,
            Function.update_self, and_self, if_true, u64Max]
          omega
        · simp only [awake, decide_false, Bool.not_false, if_true, and_false, if_false]
          omega
      · simp only [here, false_and, if_false]
        split_ifs
        · exact old
        · rw [Function.update_of_ne (Ne.symm here)]
          exact old
    · have old := counts.switches
      have bound : switched (decisions m.log) ≤ (decisions m.log).length := List.countP_le_length
      have short := counts.short
      have total : switched (h :: decisions m.log) = switched (decisions m.log) +
          if h.next ≠ h.before ∧ (h.tasks h.next).state = .ready then 1 else 0 := by
        simp only [switched, List.countP_cons, decide_eq_true_eq]
      have before' : q.current = m.current := by rw [← queue]
      simp only [log, total, counted, account, tracePush, idle, before']
      rw [← entry]
      simp only
      by_cases other : decided m.scheduler q ≠ m.current ∧
          (tasks (decided m.scheduler q)).state = .ready
      · rw [if_pos other, if_pos ⟨by simp [other.2], other.1⟩]
        simp only [u64Max]
        omega
      · rw [if_neg other, if_neg fun both => other ⟨both.2, by simpa using both.1⟩]
        exact old
    · obtain rfl := Option.some.inj first
      rw [← entry, ← queue]
      rfl
    · rw [log] at there
      have room : (decisions m.log).length ≤ m.scheduler.traceCount := by
        have short := counts.short
        omega
      refine trace_pushed q.now ?_ room counts.trace low there
      rw [idle, ← entry]
      simp only [Happened.traced, Bool.not_eq_true', decide_eq_false_iff_not, ite_not]
      rw [funext ready]
    · cases k with
      | zero =>
          obtain rfl := Option.some.inj there
          exact (congrArg Happened.now entry).symm
      | succ k =>
          have later := counts.consecutive k found there
          simp only
          omega
    · rcases List.mem_cons.mp member with rfl | old
      · rw [← entry]
        exact fun none => by cases none
      · exact counts.inside found old
  exact plain.congr (watchdog_counts _ _ _)

private theorem decisions_le (log : List Happened) : (decisions log).length ≤ log.length :=
  List.length_filter_le _ _

theorem counts_step (counts : Counts before m) {e : Event}
    (small : before + (step m e).log.length < 2 ^ 64) : Counts before (step m e) := by
  cases e with
  | tick tasks =>
      cases asked : asks m.scheduler ⟨tasks, m.current, m.now + 1⟩ with
      | false => exact counts_unasked counts asked
      | true =>
          refine counts_asked counts ?_ asked
          have fewer := decisions_le m.log
          rw [counts.short]
          simp only [step, List.length_cons] at small
          omega
  | install index tasks => exact counts.congr (install_counts _ _ _)
  | taskCreated id => exact counts.congr ⟨rfl, rfl, rfl, rfl, rfl⟩
  | taskExited id => exact counts.congr ⟨rfl, rfl, rfl, rfl, rfl⟩
  | setWatchdog enabled => exact counts.congr ⟨rfl, rfl, rfl, rfl, rfl⟩
  | takeReport => exact counts.congr ⟨rfl, rfl, rfl, rfl, rfl⟩

private theorem log_step (m : Measured) (e : Event) : m.log.length ≤ (step m e).log.length := by
  cases e with
  | tick tasks => exact Nat.le_succ _
  | install index tasks => exact le_rfl
  | taskCreated id => exact le_rfl
  | taskExited id => exact le_rfl
  | setWatchdog enabled => exact le_rfl
  | takeReport => exact le_rfl

private theorem log_run (events : List Event) (m : Measured) :
    m.log.length ≤ (events.foldl step m).log.length := by
  induction events generalizing m with
  | nil => exact le_rfl
  | cons e rest ih => exact (log_step m e).trans (ih (step m e))

theorem counts_run (events : List Event) (counts : Counts before m)
    (small : before + (events.foldl step m).log.length < 2 ^ 64) :
    Counts before (events.foldl step m) := by
  induction events generalizing m with
  | nil => exact counts
  | cons e rest ih =>
      have grows := log_run rest (step m e)
      have room : before + (step m e).log.length < 2 ^ 64 :=
        lt_of_le_of_lt (Nat.add_le_add_left grows before) small
      exact ih (counts_step counts room) small

theorem Counts.exact_iff (counts : Counts before m) :
    Exact m ↔ ∀ h ∈ m.log, h.asked = true := by
  constructor
  · intro exact' h member
    by_contra unasked
    obtain ⟨-, ready⟩ := counts.inside h member (Bool.eq_false_of_not_eq_true unasked)
    have same := (exact'.slices h.next).symm.trans (counts.slices h.next)
    have split := List.countP_eq_countP_filter_add m.log
      (fun g => decide (g.next = h.next ∧ (g.tasks h.next).state = .ready)) fun g => g.asked
    have missed : 0 < (m.log.filter fun g => !g.asked).countP
        fun g => decide (g.next = h.next ∧ (g.tasks h.next).state = .ready) := by
      refine List.countP_pos_iff.mpr ⟨h, List.mem_filter.mpr ⟨member, ?_⟩, ?_⟩
      · simpa using unasked
      · simpa using ready
    unfold given decisions at same
    omega
  · intro all
    have whole : decisions m.log = m.log := List.filter_eq_self.mpr all
    refine ⟨fun id => ?_, ?_, fun k h low there => ?_⟩
    · rw [counts.slices, whole]
    · rw [counts.switches, whole]
    · have bound := (List.getElem?_eq_some_iff.mp there).1
      have short := counts.short
      rw [whole] at short
      have now := counts.consecutive k h there
      have last : m.scheduler.traceLast = m.now := by
        cases first : m.log.head? with
        | none => simp [List.head?_eq_none_iff.mp first] at bound
        | some latest =>
            have newest := counts.consecutive 0 latest (by rwa [← List.head?_eq_getElem?])
            rw [counts.last latest first (all latest (List.mem_of_mem_head? first)), ← newest]
            rfl
      have back : m.scheduler.traceLast - h.now = k := by omega
      unfold traceAt
      rw [if_neg (by omega)]
      simp only [back]
      rw [if_neg (by omega), counts.trace k h low (by rwa [whole])]

/-- Since the last reset, slices, switches and trace are what happened if and only if no
tick fell inside a quantum of several ticks. -/
theorem measurements_exact_iff (s : Scheduler) (current : TaskId) (now : Nat) (events : List Event)
    (small : s.traceCount + (events.foldl step (reset s current now)).log.length < 2 ^ 64) :
    let m := events.foldl step (reset s current now)
    Exact m ↔ ∀ h ∈ m.log, h.asked = true :=
  (counts_run events (counts_reset s current now) small).exact_iff

section Scenario

private def onlyOne : Tasks := fun id => if id = 1 then { empty with state := .ready } else empty

/-- Three ticks under the policy installed at boot. -/
theorem measurements_exact_iff_aging :
    Exact ([.tick onlyOne, .tick onlyOne, .tick onlyOne].foldl step (reset new 0 100)) :=
  (measurements_exact_iff new 0 100 _ (by decide +kernel)).mpr (by decide +kernel)

/-- Two ticks under `mlfq`, which gives the task a quantum of two: the second is in no
number. -/
theorem quantum_uncounted :
    ¬∀ (s : Scheduler) (current : TaskId) (now : Nat) (events : List Event),
      Exact (events.foldl step (reset s current now)) := by
  intro all
  have exact' := all (install new 4 ⟨onlyOne, 0, 100⟩).2 0 100 [.tick onlyOne, .tick onlyOne]
  exact absurd (exact'.slices 1) (by decide +kernel)

end Scenario

end FiveAM.Sched.Measurements
