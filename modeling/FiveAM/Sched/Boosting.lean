/- GID: FiveAM/Sched/Boosting
   source: kernel/src/sched.rs
   digest: How long `mlfq` can pass a ready task over. -/

import FiveAM.Sched.Feedback
import FiveAM.Sched.Starvation

set_option autoImplicit false
set_option relaxedAutoImplicit false

namespace FiveAM.Sched.Boosting

open FiveAM.Process.TaskTable FiveAM.Sched.Policy FiveAM.Sched.Mechanism
open FiveAM.Sched.Conformance (asks choose_unasked choose_asked install_remaining watchdog_remaining)
open FiveAM.Sched.Measurements (Event answered decided counted choose_decides ready_of_unasked)
open FiveAM.Sched.Feedback
open FiveAM.Sched.Starvation (scanBest_le)

section Rotation

/-- How many steps a scan that starts behind `current` takes to reach a slot. -/
def ahead (current id : TaskId) : Nat := (id.val + maxTasks - current.val - 1) % maxTasks + 1

theorem ahead_le (current id : TaskId) : ahead current id ≤ maxTasks := Nat.mod_lt _ (by decide)

theorem ahead_lt {current id : TaskId} (other : id ≠ current) : ahead current id < maxTasks := by
  have apart : id.val ≠ current.val := fun same => other (Fin.ext same)
  have low := id.isLt
  have high := current.isLt
  simp only [ahead, maxTasks] at *
  omega

private theorem rotation_ordered : ∀ current : TaskId,
    (rotation current).Pairwise fun a b => ahead current a < ahead current b := by
  decide

private theorem ahead_shorter : ∀ current id goal : TaskId, ahead current id < ahead current goal →
    ahead id goal < ahead current goal := by
  decide

private theorem scan_keeps (key : TaskId → Int) (candidates : List TaskId)
    (acc : Int × Option TaskId) :
    let found := candidates.foldl
      (fun acc id => if key id < acc.1 then (key id, some id) else acc) acc
    found = acc ∨ found.1 < acc.1 ∧ ∃ id, found.2 = some id ∧ key id = found.1 := by
  induction candidates generalizing acc with
  | nil => exact Or.inl rfl
  | cons c rest ih =>
      simp only [List.foldl_cons]
      split_ifs with better
      · refine Or.inr ?_
        rcases ih (key c, some c) with same | ⟨less, mark⟩
        · rw [same]
          exact ⟨better, c, rfl, rfl⟩
        · exact ⟨less.trans better, mark⟩
      · exact ih acc

theorem scanBest_first {key : TaskId → Int} {limit : Int} {before after : List TaskId}
    {best id : TaskId} (won : scanBest key limit (before ++ id :: after) = some best)
    (tied : key id ≤ key best) : best ∈ before ∨ best = id := by
  unfold scanBest at won
  rw [List.foldl_append, List.foldl_cons] at won
  generalize early : before.foldl (fun acc id => if key id < acc.1 then (key id, some id) else acc)
    (limit, (none : Option TaskId)) = acc at won
  have reached : (if key id < acc.1 then (key id, some id) else acc).1 ≤ key id := by
    split_ifs with better
    · exact le_rfl
    · exact not_lt.mp better
  rcases scan_keeps key after (if key id < acc.1 then (key id, some id) else acc) with
    same | ⟨less, other, mark, scored⟩
  · rw [same] at won
    split_ifs at won with better
    · exact Or.inr (Option.some.inj won).symm
    · have among : scanBest key limit before = some best := by
        rw [scanBest, early, won]
      exact Or.inl (scanBest_mem among)
  · rw [mark] at won
    obtain rfl := Option.some.inj won
    omega

theorem winner_nearer {q : RunQueue} {key : TaskId → Int} {limit : Int} {best goal : TaskId}
    (won : scanBest key limit (q.rotation.filter q.isReady) = some best)
    (ready : q.isReady goal = true) (tied : key goal ≤ key best) (other : best ≠ goal) :
    ahead best goal < ahead q.current goal := by
  obtain ⟨before, after, split⟩ := List.append_of_mem (mem_rotation q.current goal)
  have ordered := rotation_ordered q.current
  rw [split] at ordered
  unfold RunQueue.rotation at won
  rw [split, List.filter_append, List.filter_cons_of_pos ready] at won
  have early := (scanBest_first won tied).resolve_right other
  have nearer := (List.pairwise_append.mp ordered).2.2 best (List.mem_of_mem_filter early) goal
    List.mem_cons_self
  exact ahead_shorter _ _ _ nearer

end Rotation

/-- No quantum is longer than sixteen ticks, and a boost is never further off than
`BOOST`. -/
structure Paced (m : Turned) : Prop where
  quantum : m.scheduler.remaining ≤ 16
  boosts : m.scheduler.policies.mlfq.boostAt ≤ m.now + boost

variable {m : Turned} {target : TaskId}

theorem decides_mlfq {tasks : Tasks} (active : m.scheduler.active = mlfq)
    (asked : asks m.scheduler (queue m tasks) = true) (ready : (tasks target).state = .ready) :
    ∃ winner, (step m (.tick tasks)).current = winner ∧
      scanBest (fun id => ((level (step m (.tick tasks)) id : Nat) : Int)) 255
        ((queue m tasks).rotation.filter (queue m tasks).isReady) = some winner ∧
      (step m (.tick tasks)).scheduler.remaining ≤ 2 <<< level (step m (.tick tasks)) winner := by
  have chosen : choose m.scheduler tasks m.current (m.now + 1) = _ := choose_decides asked
  have answer := answered_mlfq (q := queue m tasks) active
  have awake : (queue m tasks).isReady target = true := decide_eq_true ready
  obtain ⟨-, some⟩ := pick_ready (m.scheduler.policies.onYield m.scheduler.active m.current
    (decide (m.scheduler.remaining - 1 = 0))) m.scheduler.active (queue m tasks)
  obtain ⟨winner, won⟩ := Option.isSome_iff_exists.mp (some ⟨target, awake⟩)
  change (answered m.scheduler (queue m tasks)).1 = _ at won
  have levels' := @level_decided m tasks asked
  have here : (step m (.tick tasks)).current = winner := by
    simp only [step, chosen]
    change (answered m.scheduler (queue m tasks)).1.getD m.current = winner
    rw [won, Option.getD_some]
  refine ⟨winner, here, ?_, ?_⟩
  · simp only [levels']
    rw [answer] at won ⊢
    exact won
  · rw [levels']
    simp only [step, chosen]
    refine (watchdog_remaining _ _ _).trans ?_
    change (answered m.scheduler (queue m tasks)).1.elim 0 _ ≤ _
    rw [won, active]
    refine max_le le_rfl ?_
    have positive : ∀ l : Fin FiveAM.Sched.Policy.levels, 1 ≤ 2 <<< l.val := by decide
    exact positive _

theorem boostAt_mlfq {tasks : Tasks} (active : m.scheduler.active = mlfq)
    (asked : asks m.scheduler (queue m tasks) = true) :
    (step m (.tick tasks)).scheduler.policies.mlfq.boostAt =
      if m.scheduler.policies.mlfq.boostAt ≤ m.now + 1 then m.now + 1 + boost
      else m.scheduler.policies.mlfq.boostAt := by
  have chosen : choose m.scheduler tasks m.current (m.now + 1) = _ := choose_decides asked
  simp only [step, chosen]
  rw [watchdog_mlfq]
  change (answered m.scheduler (queue m tasks)).2.mlfq.boostAt = _
  rw [answered_mlfq active]
  have kept : (told m.scheduler (queue m tasks)).boostAt = m.scheduler.policies.mlfq.boostAt := by
    unfold told Mlfq.onYield
    split_ifs <;> rfl
  simp only [Mlfq.pick, Mlfq.boosted, kept]
  change (if _ ≤ m.now + 1 then _ else _ : Mlfq).boostAt = _
  split_ifs
  · rfl
  · exact kept

theorem paced_booted (now : Nat) : Paced (booted now) := ⟨Nat.zero_le _, Nat.zero_le _⟩

private theorem paced_tick (paced : Paced m) (tasks : Tasks) : Paced (step m (.tick tasks)) := by
  obtain ⟨quantum, boosts⟩ := paced
  cases asked : asks m.scheduler (queue m tasks) with
  | false =>
      obtain ⟨stays, -⟩ := choose_unasked asked
      have stays' : choose m.scheduler tasks m.current (m.now + 1) = _ := stays
      refine ⟨?_, ?_⟩
      · simp only [step, stays']
        omega
      · simp only [step, stays']
        omega
  | true =>
      have short : (step m (.tick tasks)).scheduler.remaining ≤ 16 := choose_asked asked
      refine ⟨short, ?_⟩
      have later : (step m (.tick tasks)).now = m.now + 1 := rfl
      by_cases active : m.scheduler.active = mlfq
      · rw [boostAt_mlfq active asked, later]
        split_ifs <;> omega
      · have chosen : choose m.scheduler tasks m.current (m.now + 1) = _ := choose_decides asked
        have kept : (step m (.tick tasks)).scheduler.policies.mlfq = m.scheduler.policies.mlfq := by
          simp only [step, chosen]
          rw [watchdog_mlfq]
          exact answered_other active
        rw [kept, later]
        omega

private theorem cleared_boosts {p p' : Mlfq} {id : TaskId} {n : Nat}
    (shape : p' = p ∨ p' = p.clear id) (boosts : p.boostAt ≤ n) : p'.boostAt ≤ n := by
  rcases shape with rfl | rfl
  · exact boosts
  · exact boosts

theorem paced_step (paced : Paced m) (e : Event) : Paced (step m e) := by
  obtain ⟨quantum, boosts⟩ := paced
  cases e with
  | tick tasks => exact paced_tick ⟨quantum, boosts⟩ tasks
  | install index tasks =>
      refine ⟨(install_remaining _ _ _).trans quantum, ?_⟩
      simp only [step]
      rcases install_mlfq m.scheduler index ⟨tasks, m.current, m.now⟩ with same | ⟨-, fresh⟩
      · rw [same]
        exact boosts
      · rw [fresh]
        exact Nat.zero_le _
  | taskCreated id => exact ⟨quantum, cleared_boosts (created_mlfq m.scheduler id) boosts⟩
  | taskExited id => exact ⟨quantum, cleared_boosts (exited_mlfq m.scheduler id) boosts⟩
  | setWatchdog enabled => exact ⟨quantum, boosts⟩
  | takeReport => exact ⟨quantum, boosts⟩

theorem paced_run (events : List Event) (paced : Paced m) : Paced (events.foldl step m) := by
  induction events generalizing m with
  | nil => exact paced
  | cons e rest ih => exact ih (paced_step paced e)

section Waiting

def untilDecision (m : Turned) : Nat := max m.scheduler.remaining 1

def untilBoost (m : Turned) : Nat :=
  if Boosts m then untilDecision m else m.scheduler.policies.mlfq.boostAt - (m.now + 1) + 16

/-- The task stands on the top level, and others run. -/
def OnTop (m : Turned) (target : TaskId) : Prop := target ≠ m.current ∧ level m target = 0

instance (m : Turned) (target : TaskId) : Decidable (OnTop m target) :=
  inferInstanceAs (Decidable (_ ∧ _))

/-- A bound on the ticks until the task is chosen: two for each slot between the current
task and it once it stands on the top level, and a boost before that where it does not. -/
def patience (m : Turned) (target : TaskId) : Nat :=
  if OnTop m target then untilDecision m + 2 * (ahead m.current target - 1)
  else untilBoost m + 2 * (maxTasks - 1)

theorem patience_pos (m : Turned) (target : TaskId) : 1 ≤ patience m target := by
  unfold patience untilDecision
  split_ifs
  · omega
  · simp only [maxTasks]
    omega

theorem patience_le (paced : Paced m) (target : TaskId) :
    patience m target ≤ boost + 16 + 2 * maxTasks - 3 := by
  obtain ⟨quantum, boosts⟩ := paced
  have near := ahead_le m.current target
  unfold patience untilBoost untilDecision
  simp only [boost, maxTasks] at *
  split_ifs <;> omega

private theorem stays_on_top {tasks : Tasks} (active : m.scheduler.active = mlfq)
    (asked : asks m.scheduler (queue m tasks) = true) (top : Boosts m ∨ OnTop m target) :
    level (step m (.tick tasks)) target = 0 := by
  rw [level_mlfq active asked]
  by_cases boosts : Boosts m
  · exact if_pos boosts
  · obtain ⟨other, zero⟩ := top.resolve_left boosts
    rw [if_neg (c := _ ≤ _) boosts, if_neg fun all => other all.2.2]
    exact zero

private theorem decision_nearer {tasks : Tasks} (active : m.scheduler.active = mlfq)
    (asked : asks m.scheduler (queue m tasks) = true) (ready : (tasks target).state = .ready)
    (top : level (step m (.tick tasks)) target = 0)
    (lost : (step m (.tick tasks)).current ≠ target) :
    ahead (step m (.tick tasks)).current target < ahead m.current target ∧
      (step m (.tick tasks)).scheduler.remaining ≤ 2 := by
  obtain ⟨winner, rfl, won, short⟩ := decides_mlfq active asked ready
  have awake : (queue m tasks).isReady target = true := decide_eq_true ready
  have contends : target ∈ (queue m tasks).rotation.filter (queue m tasks).isReady :=
    List.mem_filter.mpr ⟨mem_rotation _ target, awake⟩
  have best := scanBest_le won contends
  have low : level (step m (.tick tasks)) (step m (.tick tasks)).current = 0 := by omega
  refine ⟨winner_nearer won awake (by omega) lost, ?_⟩
  rw [low] at short
  exact short

theorem patience_tick {tasks : Tasks} (paced : Paced m) (active : m.scheduler.active = mlfq)
    (ready : (tasks target).state = .ready) (lost : (step m (.tick tasks)).current ≠ target) :
    patience (step m (.tick tasks)) target + 1 ≤ patience m target := by
  have later : (step m (.tick tasks)).now = m.now + 1 := rfl
  have quantum := paced.quantum
  cases asked : asks m.scheduler (queue m tasks) with
  | false =>
      obtain ⟨stays, left⟩ := choose_unasked asked
      have stays' : choose m.scheduler tasks m.current (m.now + 1) = _ := stays
      have same : (step m (.tick tasks)).current = m.current := by simp only [step, stays']
      have fewer : (step m (.tick tasks)).scheduler.remaining = m.scheduler.remaining - 1 := by
        simp only [step, stays']
      have kept : (step m (.tick tasks)).scheduler.policies.mlfq.boostAt =
          m.scheduler.policies.mlfq.boostAt := by simp only [step, stays']
      have top : OnTop (step m (.tick tasks)) target ↔ OnTop m target := by
        unfold OnTop
        rw [same, level_inside asked]
      have sooner : untilBoost (step m (.tick tasks)) + 1 ≤ untilBoost m := by
        unfold untilBoost untilDecision
        split_ifs with after before before
        · omega
        · simp only [Boosts, kept, later] at after before
          omega
        · simp only [Boosts, kept, later] at after before
          omega
        · simp only [Boosts, kept, later] at after before
          omega
      unfold patience untilDecision
      simp only [top, same, fewer]
      split_ifs <;> omega
  | true =>
      have near := ahead_le m.current target
      have nearest := ahead_lt (Ne.symm lost)
      have positive : 1 ≤ ahead (step m (.tick tasks)).current target := Nat.succ_pos _
      by_cases sooner : Boosts m ∨ OnTop m target
      · have zero := stays_on_top active asked sooner
        obtain ⟨nearer, short⟩ := decision_nearer active asked ready zero lost
        have top : OnTop (step m (.tick tasks)) target := ⟨Ne.symm lost, zero⟩
        unfold patience untilDecision
        rw [if_pos top]
        split_ifs with before
        · omega
        · unfold untilBoost untilDecision
          rw [if_pos (sooner.resolve_right before)]
          simp only [maxTasks] at *
          omega
      · rw [not_or] at sooner
        have still := boostAt_mlfq active asked
        rw [if_neg (c := _ ≤ _) sooner.1] at still
        have gap : m.now + 1 < m.scheduler.policies.mlfq.boostAt := Nat.lt_of_not_le sooner.1
        have short := (paced_tick paced tasks).quantum
        have whole : patience m target =
            m.scheduler.policies.mlfq.boostAt - (m.now + 1) + 16 + 2 * (maxTasks - 1) := by
          unfold patience untilBoost
          rw [if_neg sooner.2, if_neg sooner.1]
        rw [whole]
        unfold patience untilBoost untilDecision
        split_ifs with top after
        · simp only [maxTasks] at *
          omega
        · simp only [Boosts, still, later] at after
          omega
        · simp only [Boosts, still, later] at after ⊢
          omega

private theorem boost_later (paced : Paced m) : untilDecision m ≤ untilBoost m := by
  have quantum := paced.quantum
  unfold untilBoost untilDecision
  split_ifs <;> omega

/-- What calls between ticks can do: shorten the quantum, bring the boost nearer and set
levels back. -/
structure Between (m m' : Turned) : Prop where
  current : m'.current = m.current
  now : m'.now = m.now
  remaining : m'.scheduler.remaining ≤ m.scheduler.remaining
  boostAt : m'.scheduler.policies.mlfq.boostAt ≤ m.scheduler.policies.mlfq.boostAt
  level : ∀ id, level m' id ≤ level m id

private theorem clear_between {p : Mlfq} (id other : TaskId) :
    ((p.clear id).level other).val ≤ (p.level other).val := by
  by_cases here : other = id
  · subst here
    exact (congrArg Fin.val (Function.update_self other 0 p.level)).le.trans (Nat.zero_le _)
  · exact (congrArg Fin.val (Function.update_of_ne here ..)).le

theorem between_step (e : Event) (between : ∀ tasks, e ≠ .tick tasks) : Between m (step m e) := by
  cases e with
  | tick tasks => exact absurd rfl (between tasks)
  | install index tasks =>
      have remaining := install_remaining m.scheduler index ⟨tasks, m.current, m.now⟩
      rcases install_mlfq m.scheduler index ⟨tasks, m.current, m.now⟩ with same | ⟨-, fresh⟩
      · refine ⟨rfl, rfl, remaining, ?_, fun id => ?_⟩
        · simp only [step, same, le_refl]
        · simp only [level, step, same, le_refl]
      · refine ⟨rfl, rfl, remaining, ?_, fun id => ?_⟩
        · simp only [step, fresh]
          exact Nat.zero_le _
        · simp only [level, step, fresh]
          exact Nat.zero_le _
  | taskCreated id =>
      rcases created_mlfq m.scheduler id with same | cleared
      · refine ⟨rfl, rfl, le_rfl, ?_, fun other => ?_⟩
        · simp only [step, same, le_refl]
        · simp only [level, step, same, le_refl]
      · refine ⟨rfl, rfl, le_rfl, ?_, fun other => ?_⟩
        · simp only [step, cleared]
          exact le_rfl
        · simp only [level, step, cleared]
          exact clear_between id other
  | taskExited id =>
      rcases exited_mlfq m.scheduler id with same | cleared
      · refine ⟨rfl, rfl, le_rfl, ?_, fun other => ?_⟩
        · simp only [step, same, le_refl]
        · simp only [level, step, same, le_refl]
      · refine ⟨rfl, rfl, le_rfl, ?_, fun other => ?_⟩
        · simp only [step, cleared]
          exact le_rfl
        · simp only [level, step, cleared]
          exact clear_between id other
  | setWatchdog enabled => exact ⟨rfl, rfl, le_rfl, le_rfl, fun _ => le_rfl⟩
  | takeReport => exact ⟨rfl, rfl, le_rfl, le_rfl, fun _ => le_rfl⟩

theorem patience_between {m' : Turned} (paced : Paced m) (between : Between m m') :
    patience m' target ≤ patience m target := by
  have quantum := paced.quantum
  have later := boost_later paced
  have near := ahead_le m'.current target
  have shorter : untilDecision m' ≤ untilDecision m := max_le_max between.remaining le_rfl
  have sooner : untilBoost m' ≤ untilBoost m := by
    have gap := between.boostAt
    have remaining := between.remaining
    unfold untilBoost untilDecision
    split_ifs with after before before
    · omega
    · omega
    · simp only [Boosts, between.now] at after before
      omega
    · rw [between.now]
      omega
  have top : OnTop m target → OnTop m' target := fun ⟨other, zero⟩ =>
    ⟨fun same => other (same.trans between.current),
      Nat.eq_zero_of_le_zero ((between.level target).trans zero.le)⟩
  unfold patience
  split_ifs with after before before
  · rw [between.current]
    omega
  · simp only [maxTasks] at *
    omega
  · exact absurd (top before) after
  · omega

end Waiting

/-- Before every event of a run `mlfq` is the policy in use. -/
def Installed (m : Turned) : List Event → Prop
  | [] => True
  | e :: rest => m.scheduler.active = mlfq ∧ Installed (step m e) rest

instance decidableInstalled : (m : Turned) → (events : List Event) → Decidable (Installed m events)
  | _, [] => isTrue trivial
  | m, e :: rest =>
      have := decidableInstalled (step m e) rest
      inferInstanceAs (Decidable (_ ∧ _))

/-- The tasks `choose` returns over a run, in order. -/
def returned (m : Turned) : List Event → List TaskId
  | [] => []
  | .tick tasks :: rest => (step m (.tick tasks)).current :: returned (step m (.tick tasks)) rest
  | e :: rest => returned (step m e) rest

def ticks (events : List Event) : Nat :=
  events.countP fun
    | .tick _ => true
    | _ => false

theorem passed_over {window : List Event} (paced : Paced m) (installed : Installed m window)
    (stays : ∀ tasks, .tick tasks ∈ window → (tasks target).state = .ready)
    (absent : target ∉ returned m window) : ticks window < patience m target := by
  induction window generalizing m with
  | nil => exact patience_pos m target
  | cons e rest ih =>
      obtain ⟨active, installed⟩ := installed
      have stays' := fun tasks member => stays tasks (List.mem_cons_of_mem e member)
      by_cases between : ∀ tasks, e ≠ .tick tasks
      · have same : returned m (e :: rest) = returned (step m e) rest := by
          cases e with
          | tick tasks => exact absurd rfl (between tasks)
          | _ => rfl
        have none : ticks (e :: rest) = ticks rest := by
          cases e with
          | tick tasks => exact absurd rfl (between tasks)
          | _ => rfl
        rw [same] at absent
        rw [none]
        exact (ih (paced_step paced e) installed stays' absent).trans_le
          (patience_between paced (between_step e between))
      · push Not at between
        obtain ⟨tasks, rfl⟩ := between
        simp only [returned, List.mem_cons, not_or] at absent
        have one : ticks (.tick tasks :: rest) = ticks rest + 1 :=
          List.countP_cons_of_pos rfl
        have rest' := ih (paced_step paced _) installed stays' absent.2
        have used := patience_tick paced active (stays tasks List.mem_cons_self) (Ne.symm absent.1)
        omega

/-- From any state that calls of the scheduler lead to, a task that stays ready for `BOOST + 16 +
2 * MAX_TASKS` ticks of `mlfq` is chosen on one of them. -/
theorem mlfq_bounds_wait (now : Nat) (prior window : List Event) (target : TaskId)
    (installed : Installed (prior.foldl step (booted now)) window)
    (stays : ∀ tasks, .tick tasks ∈ window → (tasks target).state = .ready)
    (long : ticks window = boost + 16 + 2 * maxTasks) :
    target ∈ returned (prior.foldl step (booted now)) window := by
  by_contra absent
  have paced := paced_run prior (paced_booted now)
  have short := passed_over paced installed stays absent
  have bound := patience_le paced target
  omega

private def crowd : Tasks := fun _ => { empty with state := .ready }

/-- `mlfq` is installed over a full table, and the last task of the table waits. -/
theorem mlfq_bounds_wait_crowd :
    7 ∈ returned ([.install mlfq crowd].foldl step (booted 0)) (List.replicate 57 (.tick crowd)) :=
  mlfq_bounds_wait 0 [.install mlfq crowd] (List.replicate 57 (.tick crowd)) 7
    (by decide +kernel)
    (fun tasks member => by
      obtain rfl := Event.tick.inj (List.eq_of_mem_replicate member)
      rfl)
    (by decide +kernel)

end FiveAM.Sched.Boosting
