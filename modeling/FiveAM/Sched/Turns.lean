/- GID: FiveAM/Sched/Turns
   source: kernel/src/sched.rs
   digest: How `rr` and `prio` share the ticks between tasks that nobody outranks. -/

import FiveAM.Sched.Boosting
import Mathlib.Algebra.Order.BigOperators.Group.Finset
import Mathlib.Algebra.Group.Action.Defs

set_option autoImplicit false
set_option relaxedAutoImplicit false

namespace FiveAM.Sched.Turns

open FiveAM.Process.TaskTable FiveAM.Sched.Policy FiveAM.Sched.Mechanism
open FiveAM.Sched.Conformance (asks choose_unasked)
open FiveAM.Sched.Measurements (Event answered decided counted choose_decides)
open FiveAM.Sched.Feedback (Turned booted queue step mlfq)
open FiveAM.Sched.Boosting (ahead ahead_lt winner_nearer returned ticks)
open FiveAM.Sched.Starvation (scanBest_le)

/-- `rr` in the registry. -/
def rr : Nat := 0

/-- `prio` in the registry. -/
def prio : Nat := 2

/-- Before every event of a run the policy at `index` is in use. -/
def Under (index : Nat) (m : Turned) : List Event → Prop
  | [] => True
  | e :: rest => m.scheduler.active = index ∧ Under index (step m e) rest

instance decidableUnder (index : Nat) :
    (m : Turned) → (events : List Event) → Decidable (Under index m events)
  | _, [] => isTrue trivial
  | m, e :: rest =>
      have := decidableUnder index (step m e) rest
      inferInstanceAs (Decidable (_ ∧ _))

/-- The task is ready, and under `prio` no ready task is more important. -/
structure Foremost (index : Nat) (target : TaskId) (tasks : Tasks) : Prop where
  ready : (tasks target).state = .ready
  first : index = prio → ∀ id, (tasks id).state = .ready →
    (tasks target).priority ≤ (tasks id).priority

section Quanta

variable {m : Turned}

/-- Only `mlfq` asks for more than one tick. -/
def Brisk (s : Scheduler) : Prop := s.active ≠ mlfq → s.remaining ≤ 1

private theorem install_brisk {s : Scheduler} (brisk : Brisk s) (index : Nat) (q : RunQueue) :
    Brisk (install s index q).2 := by
  unfold install
  split_ifs
  · exact brisk
  · intro _
    exact Nat.zero_le 1

private theorem watchdog_brisk {s : Scheduler} (brisk : Brisk s) (active : Nat) (q : RunQueue) :
    Brisk (watchdog s active q) := by
  unfold watchdog
  simp only
  split_ifs
  · exact brisk
  · exact brisk
  · exact brisk
  · exact install_brisk (s := { s with report := _ }) brisk safe q
  · exact brisk

private theorem quantum_one {p : Policies} {index : Nat} (other : index ≠ mlfq) (id : TaskId) :
    p.quantum index id = 1 := by
  unfold Policies.quantum
  split
  · exact absurd rfl other
  · rfl

private theorem counted_brisk (s : Scheduler) (q : RunQueue) : Brisk (counted s q) := by
  intro other
  have other' : s.active ≠ mlfq := other
  change (answered s q).1.elim 0 (fun id => max ((answered s q).2.quantum s.active id) 1) ≤ 1
  cases (answered s q).1 with
  | none => exact Nat.zero_le 1
  | some id =>
      rw [Option.elim_some, quantum_one other']
      exact le_rfl

theorem brisk_step (brisk : Brisk m.scheduler) (e : Event) : Brisk (step m e).scheduler := by
  cases e with
  | tick tasks =>
      cases asked : asks m.scheduler (queue m tasks) with
      | false =>
          have stays : choose m.scheduler tasks m.current (m.now + 1) = _ :=
            (choose_unasked asked).1
          simp only [step, stays]
          intro other
          exact (Nat.sub_le _ 1).trans (brisk other)
      | true =>
          have chosen : choose m.scheduler tasks m.current (m.now + 1) = _ := choose_decides asked
          simp only [step, chosen]
          exact watchdog_brisk (counted_brisk _ _) _ _
  | install index tasks => exact install_brisk brisk index _
  | taskCreated id => exact brisk
  | taskExited id => exact brisk
  | setWatchdog enabled => exact brisk
  | takeReport => exact brisk

theorem brisk_run (events : List Event) (brisk : Brisk m.scheduler) :
    Brisk (events.foldl step m).scheduler := by
  induction events generalizing m with
  | nil => exact brisk
  | cons e rest ih => exact ih (brisk_step brisk e)

end Quanta

section Picking

private theorem scanBest_const (candidates : List TaskId) :
    scanBest (fun _ => 0) 1 candidates = candidates.head? := by
  have keeps : ∀ (rest : List TaskId) (acc : Int × Option TaskId), acc.1 = 0 →
      rest.foldl (fun acc id => if (0 : Int) < acc.1 then (0, some id) else acc) acc = acc := by
    intro rest acc zero
    induction rest with
    | nil => rfl
    | cons c rest ih =>
        rw [List.foldl_cons, if_neg (by omega)]
        exact ih
  cases candidates with
  | nil => rfl
  | cons c rest =>
      unfold scanBest
      rw [List.foldl_cons, if_pos zero_lt_one, keeps rest (0, some c) rfl]
      rfl

theorem rrPick_scan (q : RunQueue) :
    rrPick q = scanBest (fun _ => 0) 1 (q.rotation.filter q.isReady) := by
  rw [scanBest_const, rrPick, List.head?_filter]

variable {m : Turned} {index : Nat} {target : TaskId} {tasks : Tasks}

private theorem answered_scan (active : m.scheduler.active = index)
    (policy : index = rr ∨ index = prio) (foremost : Foremost index target tasks) :
    ∃ (key : TaskId → Int) (limit : Int),
      (answered m.scheduler (queue m tasks)).1 =
        scanBest key limit ((queue m tasks).rotation.filter (queue m tasks).isReady) ∧
      ∀ id, (tasks id).state = .ready → key target ≤ key id := by
  unfold answered
  rw [active]
  rcases policy with rfl | rfl
  · exact ⟨fun _ => 0, 1, rrPick_scan _, fun _ _ => le_rfl⟩
  · refine ⟨fun id => ((queue m tasks).priority id : Int), 65535, rfl, fun id ready => ?_⟩
    exact Int.ofNat_le.mpr (foremost.first rfl id ready)

private theorem turn_answered (brisk : Brisk m.scheduler) (active : m.scheduler.active = index)
    (policy : index = rr ∨ index = prio) (ready : (tasks target).state = .ready) :
    (answered m.scheduler (queue m tasks)).1 = some (step m (.tick tasks)).current ∧
      (tasks (step m (.tick tasks)).current).state = .ready := by
  have single : m.scheduler.remaining ≤ 1 := by
    apply brisk
    rw [active]
    rcases policy with rfl | rfl <;> decide
  have asked : asks m.scheduler (queue m tasks) = true := by
    unfold asks
    rw [decide_eq_false fun all => absurd all.1 (by omega)]
    rfl
  have chosen : choose m.scheduler tasks m.current (m.now + 1) = _ := choose_decides asked
  have awake : (queue m tasks).isReady target = true := decide_eq_true ready
  obtain ⟨up, some⟩ := pick_ready (m.scheduler.policies.onYield m.scheduler.active m.current
    (decide (m.scheduler.remaining - 1 = 0))) m.scheduler.active (queue m tasks)
  obtain ⟨winner, won⟩ := Option.isSome_iff_exists.mp (some ⟨target, awake⟩)
  have here : (step m (.tick tasks)).current = winner := by
    simp only [step, chosen]
    exact congrArg (Option.getD · m.current) won
  rw [here]
  exact ⟨won, of_decide_eq_true (up winner won)⟩

theorem turn_nearer (brisk : Brisk m.scheduler) (active : m.scheduler.active = index)
    (policy : index = rr ∨ index = prio) (foremost : Foremost index target tasks)
    (lost : (step m (.tick tasks)).current ≠ target) :
    ahead (step m (.tick tasks)).current target < ahead m.current target := by
  obtain ⟨won, up⟩ := turn_answered brisk active policy foremost.ready
  obtain ⟨key, limit, scan, least⟩ := answered_scan active policy foremost
  have awake : (queue m tasks).isReady target = true := decide_eq_true foremost.ready
  exact winner_nearer (scan.symm.trans won) awake (least _ up) lost

end Picking

section Sharing

variable {m : Turned} {index : Nat} {target : TaskId}

private theorem between_current (e : Event) (between : ∀ tasks, e ≠ .tick tasks) :
    (step m e).current = m.current := by
  cases e with
  | tick tasks => exact absurd rfl (between tasks)
  | _ => rfl

private theorem returned_between (e : Event) (between : ∀ tasks, e ≠ .tick tasks)
    (rest : List Event) : returned m (e :: rest) = returned (step m e) rest := by
  cases e with
  | tick tasks => exact absurd rfl (between tasks)
  | _ => rfl

/-- Of the turns that another task gets before the next one of the task, there is at most
one, and none once the rotation is past it. -/
theorem turns_counted {window : List Event} (brisk : Brisk m.scheduler)
    (under : Under index m window) (policy : index = rr ∨ index = prio)
    (foremost : ∀ tasks, .tick tasks ∈ window → Foremost index target tasks) {id : TaskId}
    (other : id ≠ target) :
    (returned m window).count id ≤ (returned m window).count target +
      if ahead id target < ahead m.current target then 1 else 0 := by
  induction window generalizing m with
  | nil => exact Nat.zero_le _
  | cons e rest ih =>
      obtain ⟨active, under⟩ := under
      have later := ih (brisk_step brisk e) under
        fun tasks member => foremost tasks (List.mem_cons_of_mem e member)
      by_cases between : ∀ tasks, e ≠ .tick tasks
      · rw [returned_between e between, ← between_current (m := m) e between]
        exact later
      · push Not at between
        obtain ⟨tasks, rfl⟩ := between
        have turn := turn_nearer brisk active policy (foremost tasks List.mem_cons_self)
        simp only [returned, List.count_cons, beq_iff_eq]
        by_cases won : (step m (.tick tasks)).current = target
        · rw [if_pos won, if_neg fun same => other (same.symm.trans won)]
          split_ifs at later <;> omega
        · have nearer := turn won
          rw [if_neg won]
          by_cases same : (step m (.tick tasks)).current = id
          · rw [same] at nearer later ⊢
            rw [if_neg (lt_irrefl _)] at later
            rw [if_pos rfl, if_pos nearer]
            omega
          · rw [if_neg same]
            split_ifs at later ⊢ <;> omega

theorem length_returned (m : Turned) (window : List Event) :
    (returned m window).length = ticks window := by
  induction window generalizing m with
  | nil => rfl
  | cons e rest ih =>
      by_cases between : ∀ tasks, e ≠ .tick tasks
      · rw [returned_between e between, ih]
        cases e with
        | tick tasks => exact absurd rfl (between tasks)
        | _ => rfl
      · push Not at between
        obtain ⟨tasks, rfl⟩ := between
        rw [returned, List.length_cons, ih]
        exact (List.countP_cons_of_pos rfl).symm

private theorem share_of_most {turns : List TaskId}
    (most : ∀ id, turns.count id ≤ turns.count target + 1) :
    turns.length / maxTasks ≤ turns.count target := by
  have whole : ∑ id, turns.count id = turns.length := by
    have all := Multiset.sum_count_eq_card (s := Finset.univ) (m := (turns : Multiset TaskId))
      fun id _ => Finset.mem_univ id
    simpa only [Multiset.coe_count, Multiset.coe_card] using all
  have others : ∑ id ∈ Finset.univ.erase target, turns.count id ≤
      (Finset.univ.erase target).card • (turns.count target + 1) :=
    Finset.sum_le_card_nsmul _ _ _ fun id _ => most id
  rw [Finset.card_erase_of_mem (Finset.mem_univ target), Finset.card_univ, Fintype.card_fin,
    smul_eq_mul] at others
  have split := Finset.add_sum_erase Finset.univ turns.count (Finset.mem_univ target)
  simp only [maxTasks] at *
  omega

/-- A task that nobody outranks on any tick of `rr` or `prio` has its share of the ticks: no other
task gets more than one turn more, and of `MAX_TASKS` ticks it gets one. -/
theorem turns_shared (now : Nat) (prior window : List Event) (target : TaskId)
    (policy : index = rr ∨ index = prio)
    (under : Under index (prior.foldl step (booted now)) window)
    (foremost : ∀ tasks, .tick tasks ∈ window → Foremost index target tasks) :
    let turns := returned (prior.foldl step (booted now)) window
    (∀ id, turns.count id ≤ turns.count target + 1) ∧
      ticks window / maxTasks ≤ turns.count target := by
  intro turns
  have brisk : Brisk (prior.foldl step (booted now)).scheduler :=
    brisk_run prior fun _ => Nat.zero_le 1
  have most : ∀ id, turns.count id ≤ turns.count target + 1 := by
    intro id
    by_cases same : id = target
    · rw [same]
      exact Nat.le_succ _
    · refine (turns_counted brisk under policy foremost same).trans ?_
      split_ifs
      · exact le_rfl
      · exact Nat.le_succ _
  refine ⟨most, ?_⟩
  rw [← length_returned (prior.foldl step (booted now))]
  exact share_of_most most

theorem outranked_starves {window : List Event} (brisk : Brisk m.scheduler)
    (under : Under prio m window)
    (outranked : ∀ tasks, .tick tasks ∈ window →
      ∃ id, (tasks id).state = .ready ∧ (tasks id).priority < (tasks target).priority) :
    target ∉ returned m window := by
  induction window generalizing m with
  | nil => exact List.not_mem_nil
  | cons e rest ih =>
      obtain ⟨active, under⟩ := under
      have later := ih (brisk_step brisk e) under
        fun tasks member => outranked tasks (List.mem_cons_of_mem e member)
      by_cases between : ∀ tasks, e ≠ .tick tasks
      · rw [returned_between e between]
        exact later
      · push Not at between
        obtain ⟨tasks, rfl⟩ := between
        obtain ⟨id, ready, above⟩ := outranked tasks List.mem_cons_self
        obtain ⟨won, -⟩ := turn_answered brisk active (Or.inr rfl) ready
        rw [returned, List.mem_cons, not_or]
        refine ⟨fun same => ?_, later⟩
        rw [← same] at won
        have scan : (answered m.scheduler (queue m tasks)).1 = prioPick (queue m tasks) := by
          unfold answered
          rw [active]
          rfl
        have contends : id ∈ (queue m tasks).rotation.filter (queue m tasks).isReady :=
          List.mem_filter.mpr ⟨mem_rotation _ id, decide_eq_true ready⟩
        have best := scanBest_le (scan.symm.trans won) contends
        exact absurd (Int.ofNat_le.mp best) (Nat.not_le.mpr above)

end Sharing

private def pair : Tasks := fun id =>
  if id = 1 ∨ id = 5 then { empty with state := .ready }
  else if id = 3 then { empty with state := .ready, priority := maxPriority }
  else empty

/-- `prio` is installed over two equals and a less important task, and ten ticks follow. -/
theorem turns_shared_pair :
    let turns := returned ([.install prio pair].foldl step (booted 0))
      (List.replicate 10 (.tick pair))
    (∀ id, turns.count id ≤ turns.count 5 + 1) ∧
      ticks (List.replicate 10 (.tick pair)) / maxTasks ≤ turns.count 5 :=
  turns_shared 0 [.install prio pair] (List.replicate 10 (.tick pair)) 5 (Or.inr rfl)
    (by decide +kernel)
    (fun tasks member => by
      obtain rfl := Event.tick.inj (List.eq_of_mem_replicate member)
      exact ⟨rfl, fun _ => by decide⟩)

end FiveAM.Sched.Turns
