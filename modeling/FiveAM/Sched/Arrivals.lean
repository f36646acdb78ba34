/- GID: FiveAM/Sched/Arrivals
   source: kernel/src/sched.rs
   digest: The stamps of `fifo` keep a queue of the tasks in order of arrival. -/

import FiveAM.Sched.Turns

set_option autoImplicit false
set_option relaxedAutoImplicit false

namespace FiveAM.Sched.Arrivals

open FiveAM.Process.TaskTable FiveAM.Sched.Policy FiveAM.Sched.Mechanism
open FiveAM.Sched.Conformance (asks)
open FiveAM.Sched.Measurements (Event answered decided counted choose_decides)
open FiveAM.Sched.Feedback (Turned booted queue mlfq)
open FiveAM.Sched.Boosting (returned)
open FiveAM.Sched.Turns (Under Brisk brisk_step brisk_run)

/-- `fifo` in the registry. -/
def fifo : Nat := 1

section Queue

/-- Who is running, and the tasks known to have arrived, first come first. -/
structure Line where
  waiting : List TaskId
  current : TaskId

/-- Somebody whose arrival is not known comes before the whole line. -/
def Line.next (l : Line) (ready : TaskId → Bool) : Option TaskId :=
  ((List.finRange maxTasks).find? fun id => ready id && decide (id ∉ l.waiting)).or
    (l.waiting.find? ready)

def Line.arrive (l : Line) (id : TaskId) : Line := { l with waiting := l.waiting.erase id ++ [id] }

def Line.leave (l : Line) (id : TaskId) : Line := { l with waiting := l.waiting.erase id }

/-- Who is running stays while ready; then it is the turn of the next. -/
def Line.step (l : Line) : Event → Line
  | .tick tasks =>
      let ready id := decide ((tasks id).state = .ready)
      if ready l.current then l else { l with current := (l.next ready).getD l.current }
  | .install index tasks =>
      if index = fifo then
        { l with waiting := (List.finRange maxTasks).filter fun id => (tasks id).state = .ready }
      else l
  | .taskCreated id => l.arrive id
  | .taskExited id => l.leave id
  | .setWatchdog _ => l
  | .takeReport => l

def Line.served (l : Line) : List Event → List TaskId
  | [] => []
  | .tick tasks :: rest => (l.step (.tick tasks)).current :: (l.step (.tick tasks)).served rest
  | e :: rest => (l.step e).served rest

end Queue

section Stamps

variable {p : Fifo} {line : List TaskId}

/-- The line holds whoever has a stamp, in the order of the stamps. -/
structure Lined (p : Fifo) (line : List TaskId) : Prop where
  ordered : line.Pairwise fun a b => p.arrived a < p.arrived b
  stamped : ∀ id, id ∈ line ↔ p.arrived id ≠ 0
  given : ∀ id, p.arrived id ≤ p.stamp

theorem lined_new : Lined .new [] :=
  ⟨List.Pairwise.nil, fun _ => by simp [Fifo.new], fun _ => Nat.zero_le _⟩

theorem Lined.nodup (lined : Lined p line) : line.Nodup :=
  lined.ordered.imp fun less same => absurd (same ▸ less) (lt_irrefl _)

theorem Lined.onReady (lined : Lined p line) (id : TaskId) :
    Lined (p.onReady id) (line.erase id ++ [id]) := by
  have others : ∀ a ∈ line.erase id, a ≠ id := fun a member same =>
    lined.nodup.not_mem_erase (same ▸ member)
  have kept : ∀ a, a ≠ id → (p.onReady id).arrived a = p.arrived a := fun a other =>
    Function.update_of_ne other _ _
  have last : (p.onReady id).arrived id = p.stamp + 1 := Function.update_self ..
  refine ⟨?_, fun a => ?_, fun a => ?_⟩
  · rw [List.pairwise_append]
    refine ⟨?_, List.pairwise_singleton _ _, fun a member b here => ?_⟩
    · refine (lined.ordered.sublist List.erase_sublist).imp_of_mem ?_
      intro a b first second less
      rw [kept a (others a first), kept b (others b second)]
      exact less
    · rw [List.mem_singleton.mp here, last, kept a (others a member)]
      exact Nat.lt_succ_of_le (lined.given a)
  · by_cases same : a = id
    · rw [same, last]
      simp
    · rw [kept a same, ← lined.stamped a, List.mem_append, List.mem_erase_of_ne same,
        List.mem_singleton]
      simp [same]
  · by_cases same : a = id
    · rw [same, last]
      exact le_rfl
    · rw [kept a same]
      exact (lined.given a).trans (Nat.le_succ _)

theorem Lined.onExit (lined : Lined p line) (id : TaskId) :
    Lined (p.onExit id) (line.erase id) := by
  have others : ∀ a ∈ line.erase id, a ≠ id := fun a member same =>
    lined.nodup.not_mem_erase (same ▸ member)
  have kept : ∀ a, a ≠ id → (p.onExit id).arrived a = p.arrived a := fun a other =>
    Function.update_of_ne other _ _
  have gone : (p.onExit id).arrived id = 0 := Function.update_self ..
  refine ⟨?_, fun a => ?_, fun a => ?_⟩
  · refine (lined.ordered.sublist List.erase_sublist).imp_of_mem ?_
    intro a b first second less
    rw [kept a (others a first), kept b (others b second)]
    exact less
  · by_cases same : a = id
    · rw [same, gone]
      simpa using lined.nodup.not_mem_erase
    · rw [kept a same, ← lined.stamped a]
      exact List.mem_erase_of_ne same
  · by_cases same : a = id
    · rw [same, gone]
      exact Nat.zero_le _
    · rw [kept a same]
      exact lined.given a

theorem Lined.replay (lined : Lined p line) (ids : List TaskId) (fresh : (line ++ ids).Nodup) :
    Lined (ids.foldl Fifo.onReady p) (line ++ ids) := by
  induction ids generalizing p line with
  | nil =>
      rw [List.append_nil]
      exact lined
  | cons id rest ih =>
      have absent : id ∉ line := fun member =>
        List.disjoint_of_nodup_append fresh member List.mem_cons_self
      have arrives := lined.onReady id
      rw [List.erase_of_not_mem absent] at arrives
      have more := ih arrives (by rwa [List.append_assoc, List.singleton_append])
      rwa [List.append_assoc, List.singleton_append] at more

private theorem minByKey_none {key : TaskId → Nat} {l : List TaskId}
    (none : Fifo.minByKey key l = none) : l = [] := by
  cases l with
  | nil => rfl
  | cons c rest =>
      simp only [Fifo.minByKey] at none
      split at none
      · simp at none
      · split_ifs at none

private theorem minByKey_split {key : TaskId → Nat} {l : List TaskId} {best : TaskId}
    (found : Fifo.minByKey key l = some best) :
    ∃ before after, l = before ++ best :: after ∧
      (∀ b ∈ before, key best < key b) ∧ ∀ b ∈ after, key best ≤ key b := by
  induction l generalizing best with
  | nil => simp [Fifo.minByKey] at found
  | cons c rest ih =>
      cases later : Fifo.minByKey key rest with
      | none =>
          simp only [Fifo.minByKey, later, Option.some.injEq] at found
          exact ⟨[], [], by rw [← found, minByKey_none later, List.nil_append], by simp, by simp⟩
      | some other =>
          obtain ⟨before, after, split, less, least⟩ := ih later
          simp only [Fifo.minByKey, later] at found
          split_ifs at found with smaller
          · obtain rfl := Option.some.inj found
            refine ⟨c :: before, after, by rw [split, List.cons_append], ?_, least⟩
            intro b member
            rcases List.mem_cons.mp member with rfl | inside
            · exact smaller
            · exact less b inside
          · obtain rfl := Option.some.inj found
            have all : ∀ b ∈ rest, key c ≤ key b := by
              intro b member
              have bound := not_lt.mp smaller
              rw [split, List.mem_append, List.mem_cons] at member
              rcases member with early | rfl | late
              · exact bound.trans (less b early).le
              · exact bound
              · exact bound.trans (least b late)
            exact ⟨[], rest, rfl, by simp, all⟩

theorem Lined.pick (lined : Lined p line) (q : RunQueue) :
    p.pick q = if q.isReady q.current then some q.current
      else (Line.mk line q.current).next q.isReady := by
  unfold Fifo.pick
  refine if_congr Iff.rfl rfl ?_
  unfold Line.next
  cases found : Fifo.minByKey p.arrived q.ready with
  | none =>
      have idle : ∀ id, q.isReady id = false := by
        intro id
        have empty := minByKey_none found
        have nowhere : id ∉ q.ready := by rw [empty]; exact List.not_mem_nil
        by_contra awake
        exact nowhere (List.mem_filter.mpr ⟨List.mem_finRange id, by simpa using awake⟩)
      have first : (List.finRange maxTasks).find? (fun id => q.isReady id && decide (id ∉ line)) =
          none := List.find?_eq_none.mpr fun id _ => by simp [idle id]
      rw [first, Option.none_or, eq_comm]
      exact List.find?_eq_none.mpr fun id _ => by simp [idle id]
  | some best =>
      obtain ⟨before, after, split, less, least⟩ := minByKey_split found
      have awake : q.isReady best = true := by
        have member : best ∈ q.ready := by rw [split]; simp
        exact (List.mem_filter.mp member).2
      have lowest : ∀ id, q.isReady id = true → p.arrived best ≤ p.arrived id := by
        intro id ready
        have member : id ∈ q.ready := List.mem_filter.mpr ⟨List.mem_finRange id, ready⟩
        rw [split, List.mem_append, List.mem_cons] at member
        rcases member with early | rfl | late
        · exact (less id early).le
        · exact le_rfl
        · exact least id late
      by_cases unknown : p.arrived best = 0
      · have outside : best ∉ line := fun member => (lined.stamped best).mp member unknown
        have first : (List.finRange maxTasks).find?
            (fun id => q.isReady id && decide (id ∉ line)) = some best := by
          obtain ⟨front, back, whole, fronts, backs⟩ := List.filter_eq_append_iff.mp split
          obtain ⟨middle, rest, shape, skipped, -, -⟩ := List.filter_eq_cons_iff.mp backs
          refine List.find?_eq_some_iff_append.mpr ⟨by simp [awake, outside], front ++ middle, rest,
            by rw [whole, shape, List.append_assoc], fun id member => ?_⟩
          rcases List.mem_append.mp member with early | between
          · by_cases ready : q.isReady id = true
            · have here : id ∈ before := by
                rw [← fronts]
                exact List.mem_filter.mpr ⟨early, ready⟩
              have stamp := (Nat.zero_le _).trans_lt (less id here)
              have known := (lined.stamped id).mpr (Nat.ne_of_gt stamp)
              simp [known]
            · simp [ready]
          · simp [skipped id between]
        rw [first, Option.some_or]
      · have known : ∀ id, q.isReady id = true → id ∈ line := by
          intro id ready
          refine (lined.stamped id).mpr fun zero => unknown ?_
          exact Nat.eq_zero_of_le_zero (zero ▸ lowest id ready)
        have first : (List.finRange maxTasks).find?
            (fun id => q.isReady id && decide (id ∉ line)) = none := by
          refine List.find?_eq_none.mpr fun id _ => ?_
          by_cases ready : q.isReady id = true
          · simp [known id ready]
          · simp [ready]
        rw [first, Option.none_or, eq_comm]
        obtain ⟨front, back, whole⟩ := List.append_of_mem (known best awake)
        refine List.find?_eq_some_iff_append.mpr ⟨awake, front, back, whole, fun id member => ?_⟩
        have ordered := lined.ordered
        rw [whole] at ordered
        have sooner := (List.pairwise_append.mp ordered).2.2 id member best List.mem_cons_self
        by_contra ready
        exact absurd (lowest id (by simpa using ready)) (Nat.not_le.mpr sooner)

end Stamps

section Serving

variable {m : Turned} {l : Line}

theorem install_lined {s : Scheduler} {tasks : Tasks} {current : TaskId} {now : Nat} :
    Lined (install s fifo ⟨tasks, current, now⟩).2.policies.fifo
      ((List.finRange maxTasks).filter fun id => (tasks id).state = .ready) := by
  have replayed : ∀ (ids : List TaskId) (p : Policies),
      (ids.foldl (fun p id => p.onReady fifo id) p).fifo = ids.foldl Fifo.onReady p.fifo := by
    intro ids
    induction ids with
    | nil => exact fun _ => rfl
    | cons id rest ih => exact fun p => ih (p.onReady fifo id)
  have whole : (install s fifo ⟨tasks, current, now⟩).2.policies.fifo =
      (RunQueue.ready ⟨tasks, current, now⟩).foldl Fifo.onReady .new := replayed _ _
  rw [whole]
  exact lined_new.replay _ ((List.nodup_finRange maxTasks).filter _)

theorem install_other {s : Scheduler} {index : Nat} {q : RunQueue} (other : index ≠ fifo) :
    (install s index q).2.policies.fifo = s.policies.fifo := by
  have kept : ∀ (ids : List TaskId) (p : Policies),
      (ids.foldl (fun p id => p.onReady index id) p).fifo = p.fifo := by
    intro ids
    induction ids with
    | nil => exact fun _ => rfl
    | cons id rest ih =>
        intro p
        refine (ih _).trans ?_
        unfold Policies.onReady
        split
        · rfl
        · exact absurd rfl other
        · rfl
        · rfl
        · rfl
  unfold install
  split_ifs
  · rfl
  · refine (kept _ _).trans ?_
    unfold Policies.reset
    split
    · rfl
    · exact absurd rfl other
    · rfl
    · rfl
    · rfl

theorem watchdog_fifo (s : Scheduler) (active : Nat) (q : RunQueue) :
    (watchdog s active q).policies.fifo = s.policies.fifo := by
  unfold watchdog
  simp only
  split_ifs
  · rfl
  · rfl
  · rfl
  · exact install_other (s := { s with report := _ }) (by decide)
  · rfl

/-- The stamps tell the line, and both know who is running. -/
structure Keeps (m : Turned) (l : Line) : Prop where
  lined : Lined m.scheduler.policies.fifo l.waiting
  current : m.current = l.current

private theorem tick_keeps (keeps : Keeps m l) (brisk : Brisk m.scheduler)
    (active : m.scheduler.active = fifo) (tasks : Tasks) :
    Keeps (Feedback.step m (.tick tasks)) (l.step (.tick tasks)) := by
  have single : m.scheduler.remaining ≤ 1 := by
    apply brisk
    rw [active]
    decide
  have asked : asks m.scheduler (queue m tasks) = true := by
    unfold asks
    rw [decide_eq_false fun all => absurd all.1 (by omega)]
    rfl
  have chosen : choose m.scheduler tasks m.current (m.now + 1) = _ := choose_decides asked
  have answer : answered m.scheduler (queue m tasks) =
      (m.scheduler.policies.fifo.pick (queue m tasks), m.scheduler.policies) := by
    unfold answered
    rw [active]
    rfl
  have picked := keeps.lined.pick (queue m tasks)
  refine ⟨?_, ?_⟩
  · simp only [Feedback.step, chosen]
    rw [watchdog_fifo]
    change Lined (answered m.scheduler (queue m tasks)).2.fifo _
    rw [answer, Line.step]
    split_ifs <;> exact keeps.lined
  · simp only [Feedback.step, chosen]
    change (answered m.scheduler (queue m tasks)).1.getD m.current = _
    rw [answer, picked, Line.step]
    change (if decide ((tasks m.current).state = .ready) = true then _ else
      (Line.mk l.waiting m.current).next fun id => decide ((tasks id).state = .ready)).getD _ = _
    rw [keeps.current]
    split_ifs
    · exact keeps.current
    · rfl

theorem keeps_step (keeps : Keeps m l) (brisk : Brisk m.scheduler)
    (active : m.scheduler.active = fifo) (e : Event) :
    Keeps (Feedback.step m e) (l.step e) := by
  cases e with
  | tick tasks => exact tick_keeps keeps brisk active tasks
  | install index tasks =>
      rw [Line.step]
      split_ifs with same
      · subst same
        exact ⟨install_lined, keeps.current⟩
      · refine ⟨?_, keeps.current⟩
        change Lined (install m.scheduler index _).2.policies.fifo _
        rw [install_other same]
        exact keeps.lined
  | taskCreated id =>
      refine ⟨?_, keeps.current⟩
      change Lined (m.scheduler.policies.onReady m.scheduler.active id).fifo _
      rw [active]
      exact keeps.lined.onReady id
  | taskExited id =>
      refine ⟨?_, keeps.current⟩
      change Lined (m.scheduler.policies.onExit m.scheduler.active id).fifo _
      rw [active]
      exact keeps.lined.onExit id
  | setWatchdog enabled => exact ⟨keeps.lined, keeps.current⟩
  | takeReport => exact ⟨keeps.lined, keeps.current⟩

theorem keeps_run {window : List Event} (keeps : Keeps m l) (brisk : Brisk m.scheduler)
    (under : Under fifo m window) : returned m window = l.served window := by
  induction window generalizing m l with
  | nil => rfl
  | cons e rest ih =>
      obtain ⟨active, under⟩ := under
      have after := keeps_step keeps brisk active e
      have later := ih after (brisk_step brisk e) under
      cases e with
      | tick tasks => exact congrArg₂ List.cons after.current later
      | _ => exact later

/-- From its installation on, `fifo` serves the tasks as a queue does: first the running
one, then those whose arrival it has not seen, then the others in order of arrival. -/
theorem fifo_is_queue (now : Nat) (prior window : List Event) (tasks : Tasks)
    (under : Under fifo
      (Feedback.step (prior.foldl Feedback.step (booted now)) (.install fifo tasks)) window) :
    let m := Feedback.step (prior.foldl Feedback.step (booted now)) (.install fifo tasks)
    returned m window =
      (Line.mk ((List.finRange maxTasks).filter fun id => (tasks id).state = .ready)
        m.current).served window := by
  intro m
  have brisk : Brisk (prior.foldl Feedback.step (booted now)).scheduler :=
    brisk_run prior fun _ => Nat.zero_le 1
  exact keeps_run ⟨install_lined, rfl⟩ (brisk_step brisk _) under

end Serving

private def awake (ids : List TaskId) : Tasks := fun id =>
  if id ∈ ids then { empty with state := .ready } else empty

/-- Task 3 is ready when `fifo` is installed, task 1 arrives later, and task 6 was asleep. -/
private def arrivals : List Event :=
  [.tick (awake [3]), .taskCreated 1, .tick (awake [1, 3, 6]), .tick (awake [1, 6]),
    .tick (awake [1]), .taskExited 3, .taskCreated 3, .tick (awake [1, 3]), .tick (awake [3])]

theorem fifo_is_queue_arrivals :
    returned (Feedback.step (booted 0) (.install fifo (awake [3]))) arrivals =
      (Line.mk [3] 0).served arrivals :=
  fifo_is_queue 0 [] arrivals (awake [3]) (by decide +kernel)

end FiveAM.Sched.Arrivals
