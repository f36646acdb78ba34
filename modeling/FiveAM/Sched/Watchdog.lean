/- GID: FiveAM/Sched/Watchdog
   source: kernel/src/sched.rs
   digest: Which starving tasks the watchdog rescues, over any run of decisions and installs. -/

import FiveAM.Sched.Measurements

set_option autoImplicit false
set_option relaxedAutoImplicit false

namespace FiveAM.Sched.Watchdog

open FiveAM.Process.TaskTable FiveAM.Sched.Policy FiveAM.Sched.Mechanism
open FiveAM.Sched.Conformance (asks choose_unasked)
open FiveAM.Sched.Measurements (decided counted choose_decides takeReport)

/-- The scheduler, and how many decisions in a row have found each task ready and given the
processor to another: all decisions, and those since the policy in use was installed. -/
structure Waited where
  scheduler : Scheduler
  waits : TaskId → Nat
  owed : TaskId → Nat

inductive Event where
  | choose (tasks : Tasks) (current : TaskId) (now : Nat)
  | install (index : Nat) (tasks : Tasks) (current : TaskId) (now : Nat)
  | taskCreated (id : TaskId)
  | taskExited (id : TaskId)
  /-- The shell reads the report of an earlier starvation. -/
  | takeReport

def booted : Waited := ⟨new, fun _ => 0, fun _ => 0⟩

def passedOver (s : Scheduler) (q : RunQueue) (count : TaskId → Nat) : TaskId → Nat := fun id =>
  if id = decided s q ∨ q.isReady id = false then 0 else count id + 1

def step (m : Waited) : Event → Waited
  | .choose tasks current now =>
      let q : RunQueue := ⟨tasks, current, now⟩
      { scheduler := (Mechanism.choose m.scheduler tasks current now).2
        waits := if asks m.scheduler q then passedOver m.scheduler q m.waits else m.waits
        owed := if asks m.scheduler q then passedOver m.scheduler q m.owed else m.owed }
  | .install index tasks current now =>
      let installed := Mechanism.install m.scheduler index ⟨tasks, current, now⟩
      { m with scheduler := installed.2, owed := if installed.1 then fun _ => 0 else m.owed }
  | .taskCreated id => { m with scheduler := taskCreated m.scheduler id }
  | .taskExited id => { m with scheduler := taskExited m.scheduler id }
  | .takeReport => { m with scheduler := Measurements.takeReport m.scheduler }

/-- Nobody has waited for `STARVATION_TICKS` decisions, unless `Aging` is installed. -/
def Rescued (m : Waited) : Prop :=
  m.scheduler.active = safe ∨ ∀ id, m.waits id < starvationTicks

instance decidableRescued (m : Waited) : Decidable (Rescued m) := inferInstanceAs (Decidable (_ ∨ _))

/-- The policy in use owes nobody so many decisions, unless it is `Aging`. -/
def Paid (m : Waited) : Prop :=
  m.scheduler.active = safe ∨ ∀ id, m.owed id < starvationTicks

/-- The watchdog finds a starving task under another policy than `Aging`, and goes back
because an earlier report has not been read. -/
def Hindered (m : Waited) : Event → Prop
  | .choose tasks current now =>
      asks m.scheduler ⟨tasks, current, now⟩ = true ∧ m.scheduler.active ≠ safe ∧
        m.scheduler.report.isSome = true ∧
        starvationTicks ≤ (worstWait (counted m.scheduler ⟨tasks, current, now⟩)).2
  | _ => False

instance decidableHindered (m : Waited) (e : Event) : Decidable (Hindered m e) :=
  match e with
  | .choose .. => inferInstanceAs (Decidable (_ ∧ _))
  | .install .. => inferInstanceAs (Decidable False)
  | .taskCreated _ => inferInstanceAs (Decidable False)
  | .taskExited _ => inferInstanceAs (Decidable False)
  | .takeReport => inferInstanceAs (Decidable False)

def Throughout (P : Waited → Prop) (m : Waited) : List Event → Prop
  | [] => True
  | e :: rest => P (step m e) ∧ Throughout P (step m e) rest

def NoneHindered (m : Waited) : List Event → Prop
  | [] => True
  | e :: rest => ¬Hindered m e ∧ NoneHindered (step m e) rest

instance decidableNoneHindered :
    (m : Waited) → (events : List Event) → Decidable (NoneHindered m events)
  | _, [] => inferInstanceAs (Decidable True)
  | m, e :: rest => @instDecidableAnd _ _ _ (decidableNoneHindered (step m e) rest)

section Verdict

private theorem worst_fold (waits : TaskId → Nat) (ids : List TaskId) (acc : TaskId × Nat) (n : Nat) :
    (ids.foldl (fun acc id => if acc.2 < waits id then (id, waits id) else acc) acc).2 < n ↔
      acc.2 < n ∧ ∀ id ∈ ids, waits id < n := by
  induction ids generalizing acc with
  | nil => simp
  | cons id rest ih =>
      rw [List.foldl_cons, ih, List.forall_mem_cons]
      split_ifs with more
      · exact ⟨fun ⟨here, later⟩ => ⟨more.trans here, here, later⟩,
          fun ⟨_, here, later⟩ => ⟨here, later⟩⟩
      · exact ⟨fun ⟨old, later⟩ => ⟨old, lt_of_le_of_lt (Nat.le_of_not_lt more) old, later⟩,
          fun ⟨old, _, later⟩ => ⟨old, later⟩⟩

theorem worstWait_lt {s : Scheduler} {n : Nat} (positive : 0 < n) :
    (worstWait s).2 < n ↔ ∀ id, s.unpicked id < n := by
  unfold worstWait
  rw [worst_fold]
  exact ⟨fun ⟨_, all⟩ id => all id (List.mem_finRange id),
    fun all => ⟨positive, fun id _ => all id⟩⟩

end Verdict

/-- The counters of the mechanism are what is owed while another policy than `Aging` is
installed. -/
structure Tracks (m : Waited) : Prop where
  enabled : m.scheduler.watchdog = true
  counters : m.scheduler.active ≠ safe → ∀ id, m.scheduler.unpicked id = m.owed id

theorem tracks_booted : Tracks booted := ⟨rfl, fun other => absurd rfl other⟩

theorem paid_booted : Paid booted := Or.inl rfl

variable {m : Waited}

private theorem counted_owed (tracks : Tracks m) (paid : Paid m)
    (other : m.scheduler.active ≠ safe) (q : RunQueue) (id : TaskId) :
    (counted m.scheduler q).unpicked id = passedOver m.scheduler q m.owed id := by
  have short := paid.resolve_left other id
  have same := tracks.counters other id
  simp only [counted, account, tracePush, passedOver]
  rw [same]
  split_ifs
  · rfl
  · simp only [starvationTicks, u32Max] at short ⊢
    omega

private theorem step_decides (tracks : Tracks m) (paid : Paid m)
    (other : m.scheduler.active ≠ safe) {tasks : Tasks} {current : TaskId} {now : Nat}
    (asked : asks m.scheduler ⟨tasks, current, now⟩ = true) :
    Tracks (step m (.choose tasks current now)) ∧
      (Paid (step m (.choose tasks current now)) ↔ ¬Hindered m (.choose tasks current now)) := by
  generalize queue : (⟨tasks, current, now⟩ : RunQueue) = q at asked
  have chosen := choose_decides (queue ▸ asked)
  have waits := counted_owed tracks paid other q
  have verdict := worstWait_lt (s := counted m.scheduler q) (n := starvationTicks) (by decide)
  have shape : step m (.choose tasks current now) =
      ⟨watchdog (counted m.scheduler q) m.scheduler.active q,
        passedOver m.scheduler q m.waits, passedOver m.scheduler q m.owed⟩ := by
    simp only [step, queue, asked, chosen, if_true]
  have enabled : (counted m.scheduler q).watchdog = true := tracks.enabled
  have active : (counted m.scheduler q).active = m.scheduler.active := rfl
  have report : (counted m.scheduler q).report = m.scheduler.report := rfl
  have hindered : Hindered m (.choose tasks current now) ↔ m.scheduler.report.isSome = true ∧
      starvationTicks ≤ (worstWait (counted m.scheduler q)).2 := by
    simp only [Hindered, queue, asked, true_and]
    exact ⟨fun all => all.2, fun all => ⟨other, all⟩⟩
  rw [shape, hindered]
  unfold watchdog
  rw [if_neg (by simp [enabled])]
  by_cases calm : (worstWait (counted m.scheduler q)).2 < starvationTicks
  · simp only [if_pos calm]
    refine ⟨⟨enabled, fun _ => waits⟩, fun _ held => absurd calm (Nat.not_lt.mpr held.2), fun _ => ?_⟩
    exact Or.inr fun id => lt_of_eq_of_lt (waits id).symm (verdict.mp calm id)
  · simp only [if_neg calm, report]
    by_cases unread : m.scheduler.report.isSome = true
    · simp only [if_pos unread]
      refine ⟨⟨enabled, fun _ => waits⟩, fun fine => ?_, fun free => ?_⟩
      · have all := fine.resolve_left (by rw [active]; exact other)
        exact absurd (verdict.mpr fun id => (waits id).symm ▸ all id) calm
      · exact absurd ⟨unread, Nat.not_lt.mp calm⟩ free
    · simp only [if_neg unread, decide_eq_true_eq, if_pos other]
      have put : (install { counted m.scheduler q with
          report := some ⟨(worstWait (counted m.scheduler q)).1, (worstWait (counted m.scheduler q)).2,
            m.scheduler.active, decide (m.scheduler.active ≠ safe)⟩ } safe q).2.active = safe := rfl
      refine ⟨⟨enabled, fun away => absurd put away⟩, fun _ held => unread held.1, fun _ => Or.inl put⟩

private theorem watchdog_safe (s : Scheduler) (q : RunQueue) :
    (watchdog s safe q).active = s.active ∧ (watchdog s safe q).watchdog = s.watchdog := by
  unfold watchdog
  simp only [ne_eq, not_true_eq_false, decide_false, Bool.false_eq_true, if_false]
  split_ifs <;> simp

private theorem step_safe (tracks : Tracks m) (here : m.scheduler.active = safe) {tasks : Tasks}
    {current : TaskId} {now : Nat} (asked : asks m.scheduler ⟨tasks, current, now⟩ = true) :
    Tracks (step m (.choose tasks current now)) ∧
      Paid (step m (.choose tasks current now)) := by
  have chosen := choose_decides asked
  rw [here] at chosen
  obtain ⟨active, enabled⟩ := watchdog_safe (counted m.scheduler ⟨tasks, current, now⟩)
    ⟨tasks, current, now⟩
  have stays : (step m (.choose tasks current now)).scheduler.active = safe := by
    simp only [step, chosen]
    exact active.trans here
  refine ⟨⟨?_, fun other => absurd stays other⟩, Or.inl stays⟩
  simp only [step, chosen]
  exact enabled.trans tracks.enabled

theorem step_paid (tracks : Tracks m) (paid : Paid m) (e : Event) :
    Tracks (step m e) ∧ (Paid (step m e) ↔ ¬Hindered m e) := by
  cases e with
  | choose tasks current now =>
      cases asked : asks m.scheduler ⟨tasks, current, now⟩ with
      | true =>
          by_cases here : m.scheduler.active = safe
          · obtain ⟨tracks', paid'⟩ := step_safe tracks here asked
            exact ⟨tracks', fun _ held => held.2.1 here, fun _ => paid'⟩
          · exact step_decides tracks paid here asked
      | false =>
          obtain ⟨stays, -⟩ := choose_unasked asked
          have shape : step m (.choose tasks current now) =
              { m with scheduler := { m.scheduler with remaining := m.scheduler.remaining - 1 } } := by
            simp only [step, asked, stays, Bool.false_eq_true, if_false]
          rw [shape]
          refine ⟨⟨tracks.enabled, tracks.counters⟩, fun _ held => ?_, fun _ => paid⟩
          rw [held.1] at asked
          cases asked
  | install index tasks current now =>
      by_cases refused : count ≤ index
      · have shape : step m (.install index tasks current now) = m := by
          simp only [step, Mechanism.install, if_pos refused, Bool.false_eq_true, if_false]
        rw [shape]
        exact ⟨tracks, fun _ held => held, fun _ => paid⟩
      · have shape : step m (.install index tasks current now) =
            ⟨(Mechanism.install m.scheduler index ⟨tasks, current, now⟩).2, m.waits, fun _ => 0⟩ := by
          simp only [step, Mechanism.install, if_neg refused, if_true]
        have fresh : (Mechanism.install m.scheduler index ⟨tasks, current, now⟩).2.unpicked =
              (fun _ => 0) ∧
            (Mechanism.install m.scheduler index ⟨tasks, current, now⟩).2.watchdog =
              m.scheduler.watchdog := by
          unfold Mechanism.install
          rw [if_neg refused]
          exact ⟨rfl, rfl⟩
        rw [shape]
        refine ⟨⟨fresh.2.trans tracks.enabled, fun _ id => congrFun fresh.1 id⟩, fun _ held => held,
          fun _ => Or.inr fun _ => ?_⟩
        exact Nat.zero_lt_succ 99
  | taskCreated id => exact ⟨⟨tracks.enabled, tracks.counters⟩, fun _ held => held, fun _ => paid⟩
  | taskExited id => exact ⟨⟨tracks.enabled, tracks.counters⟩, fun _ held => held, fun _ => paid⟩
  | takeReport => exact ⟨⟨tracks.enabled, tracks.counters⟩, fun _ held => held, fun _ => paid⟩

theorem Throughout.last {P : Waited → Prop} {events : List Event} (all : Throughout P m events)
    (first : P m) : P (events.foldl step m) := by
  induction events generalizing m with
  | nil => exact first
  | cons e rest ih => exact ih all.2 all.1

theorem run_paid {events : List Event} (tracks : Tracks m) (paid : Paid m) :
    Throughout Paid m events ↔ NoneHindered m events := by
  induction events generalizing m with
  | nil => exact Iff.rfl
  | cons e rest ih =>
      obtain ⟨tracks', verdict⟩ := step_paid tracks paid e
      constructor
      · rintro ⟨here, later⟩
        exact ⟨verdict.mp here, (ih tracks' here).mp later⟩
      · rintro ⟨free, later⟩
        exact ⟨verdict.mpr free, (ih tracks' (verdict.mpr free)).mpr later⟩

/-- In every run from boot in which every report is read in time, no policy but `Aging` comes to
owe a task a hundred decisions. -/
theorem watchdog_rescues {events : List Event} (free : NoneHindered booted events) :
    Throughout Paid booted events := (run_paid tracks_booted paid_booted).mpr free

section Scenario

private def crowded : Tasks := fun id =>
  if id = 0 then { empty with state := .ready, priority := shellPriority }
  else if id = 1 then { empty with state := .ready }
  else empty

private def starving (decisions : Nat) : List Event :=
  .install 2 crowded 0 0 :: List.replicate decisions (.choose crowded 0 1)

/-- Twice `prio` is replaced after a hundred decisions, the report of the first time having been
read. -/
theorem watchdog_rescues_twice :
    Throughout Paid booted (starving 100 ++ .takeReport :: starving 100) ∧
      ((starving 100).foldl step booted).scheduler.active = safe ∧
      ((starving 100 ++ .takeReport :: starving 100).foldl step booted).scheduler.active = safe :=
  ⟨watchdog_rescues (by decide +kernel), by decide +kernel, by decide +kernel⟩

/-- `prio` installed again after sixty decisions owes nothing then: a task is passed over a
hundred and twenty times, and no report is ever written. -/
theorem reinstalled_starves :
    NoneHindered booted (starving 60 ++ starving 60) ∧
      ((starving 60 ++ starving 60).foldl step booted).scheduler.report.isNone = true ∧
      ¬Throughout Rescued booted (starving 60 ++ starving 60) := by
  refine ⟨by decide +kernel, by decide +kernel, fun all => ?_⟩
  exact absurd (all.last (Or.inl rfl)) (by decide +kernel)

end Scenario

end FiveAM.Sched.Watchdog
