/- GID: FiveAM/Sched/Starvation
   source: kernel/src/sched.rs
   digest: How long `Aging` can pass a ready task over. -/

import FiveAM.Sched.Policy
import Mathlib.Data.Fintype.Card
import Mathlib.Data.Finset.Card

set_option autoImplicit false
set_option relaxedAutoImplicit false

namespace FiveAM.Sched.Starvation

open FiveAM.Process.TaskTable FiveAM.Sched.Policy

/-- A notification the policy gets between two picks. -/
inductive Hook where
  | onReady (id : TaskId)
  | onExit (id : TaskId)

def Hook.id : Hook → TaskId
  | .onReady id => id
  | .onExit id => id

/-- Both notifications forget the age of the slot they are about. -/
def notify (p : Aging) (h : Hook) : Aging := p.clear h.id

/-- One pick, with what the policy heard since the last one and the table it is shown. -/
structure Round where
  hooks : List Hook
  queue : RunQueue

def play (p : Aging) (r : Round) : Option TaskId × Aging :=
  (r.hooks.foldl notify p).pick r.queue

def winners (p : Aging) : List Round → List (Option TaskId)
  | [] => []
  | r :: rest => (play p r).1 :: winners (play p r).2 rest

/-- The task is ready at the pick, no less important than `MAX_PRIORITY`, and its slot
was neither filled nor freed since the last one. -/
structure Waits (target : TaskId) (r : Round) : Prop where
  ready : r.queue.isReady target = true
  important : r.queue.priority target ≤ maxPriority.val
  stays : ∀ h ∈ r.hooks, h.id ≠ target

/-- The tasks that cannot win against one that has been passed over `rounds` times. -/
def beaten (p : Aging) (rounds : Nat) : Finset TaskId :=
  Finset.univ.filter fun id => p.waited id + maxPriority.val < rounds

theorem mem_beaten {p : Aging} {rounds : Nat} {id : TaskId} :
    id ∈ beaten p rounds ↔ p.waited id + maxPriority.val < rounds := by
  simp [beaten]

theorem notify_waited (hooks : List Hook) (p : Aging) (id : TaskId) :
    (hooks.foldl notify p).waited id ≤ p.waited id ∧
      ((∀ h ∈ hooks, h.id ≠ id) → (hooks.foldl notify p).waited id = p.waited id) := by
  induction hooks generalizing p with
  | nil => exact ⟨le_rfl, fun _ => rfl⟩
  | cons h rest ih =>
      obtain ⟨fewer, same⟩ := ih (notify p h)
      have cleared : (notify p h).waited id ≤ p.waited id := by
        simp only [notify, Aging.clear, Function.update_apply]
        split_ifs <;> simp
      refine ⟨fewer.trans cleared, fun others => ?_⟩
      have apart : id ≠ h.id := fun eq => others h List.mem_cons_self eq.symm
      rw [List.foldl_cons, same fun h' member => others h' (List.mem_cons_of_mem h member)]
      exact Function.update_of_ne apart _ _

private theorem scan_best (key : TaskId → Int) (candidates : List TaskId)
    (acc : Int × Option TaskId) (consistent : ∀ id, acc.2 = some id → key id = acc.1) :
    let found := candidates.foldl
      (fun acc id => if key id < acc.1 then (key id, some id) else acc) acc
    (∀ id, found.2 = some id → key id = found.1) ∧ found.1 ≤ acc.1 ∧
      ∀ id ∈ candidates, found.1 ≤ key id := by
  induction candidates generalizing acc with
  | nil => exact ⟨consistent, le_rfl, fun _ member => absurd member List.not_mem_nil⟩
  | cons c rest ih =>
      simp only [List.foldl_cons]
      split_ifs with better
      · obtain ⟨agrees, below, all⟩ := ih (key c, some c) (by rintro id ⟨rfl⟩; rfl)
        refine ⟨agrees, below.trans better.le, fun id member => ?_⟩
        rcases List.mem_cons.mp member with rfl | later
        · exact below
        · exact all id later
      · obtain ⟨agrees, below, all⟩ := ih acc consistent
        refine ⟨agrees, below, fun id member => ?_⟩
        rcases List.mem_cons.mp member with rfl | later
        · exact below.trans (not_lt.mp better)
        · exact all id later

theorem scanBest_le {key : TaskId → Int} {limit : Int} {candidates : List TaskId} {best id : TaskId}
    (won : scanBest key limit candidates = some best) (member : id ∈ candidates) :
    key best ≤ key id := by
  obtain ⟨agrees, -, all⟩ := scan_best key candidates (limit, none) (by simp)
  rw [agrees best won]
  exact all id member

theorem pick_spec (p : Aging) (q : RunQueue) {target : TaskId} (ready : q.isReady target = true) :
    ∃ winner, (p.pick q).1 = some winner ∧
      p.effective q winner ≤ p.effective q target ∧
      (p.pick q).2.waited = fun id =>
        if id = winner then 0
        else if q.isReady id then min (p.waited id + 1) 65535 else p.waited id := by
  have contenders : target ∈ q.rotation.filter q.isReady :=
    List.mem_filter.mpr ⟨mem_rotation _ target, ready⟩
  have bounded : ∀ id ∈ q.rotation.filter q.isReady, p.effective q id < 2147483647 := by
    intro id _
    have small := (q.tasks id).priority.isLt
    simp only [Aging.effective, RunQueue.priority]
    omega
  obtain ⟨winner, won⟩ := Option.isSome_iff_exists.mp
    (scanBest_isSome bounded (List.ne_nil_of_mem contenders))
  have chosen : p.chosen q = some winner := won
  refine ⟨winner, chosen, scanBest_le won contenders, ?_⟩
  simp only [Aging.pick, chosen, Option.getD_some]

/-- A task passed over this often: it has aged that much, and each round past
`MAX_PRIORITY` has beaten one more of the others for good. -/
structure Passed (target : TaskId) (p : Aging) (rounds : Nat) : Prop where
  aged : rounds ≤ p.waited target
  others : rounds ≤ maxPriority.val + (beaten p rounds).card
  apart : target ∉ beaten p rounds

theorem notify_passed {target : TaskId} {p : Aging} {rounds : Nat} {r : Round}
    (waits : Waits target r) (passed : Passed target p rounds) :
    Passed target (r.hooks.foldl notify p) rounds := by
  have same := (notify_waited r.hooks p target).2 waits.stays
  have more : beaten p rounds ⊆ beaten (r.hooks.foldl notify p) rounds := by
    intro id lost
    have fewer := (notify_waited r.hooks p id).1
    have behind := mem_beaten.mp lost
    exact mem_beaten.mpr (by omega)
  refine ⟨by rw [same]; exact passed.aged, passed.others.trans ?_, ?_⟩
  · exact Nat.add_le_add_left (Finset.card_le_card more) _
  · rw [mem_beaten, same]
    exact fun lost => passed.apart (mem_beaten.mpr lost)

theorem pick_passed {target : TaskId} {p : Aging} {rounds : Nat} {q : RunQueue}
    (ready : q.isReady target = true) (important : q.priority target ≤ maxPriority.val)
    (short : rounds < 65535) (passed : Passed target p rounds)
    (lost : (p.pick q).1 ≠ some target) : Passed target (p.pick q).2 (rounds + 1) := by
  obtain ⟨winner, won, better, ages⟩ := pick_spec p q ready
  have other : winner ≠ target := fun same => lost (same ▸ won)
  have aged := passed.aged
  have strong : rounds ≤ p.waited winner + maxPriority.val := by
    simp only [Aging.effective] at better
    omega
  have grown : rounds + 1 ≤ (p.pick q).2.waited target := by
    rw [ages]
    simp only [if_neg other.symm, ready, if_true]
    exact le_min (Nat.add_le_add_right aged 1) short
  have reset : (p.pick q).2.waited winner = 0 := by rw [ages]; exact if_pos rfl
  have slow : ∀ id, (p.pick q).2.waited id ≤ p.waited id + 1 := by
    intro id
    rw [ages]
    simp only
    split_ifs
    · exact Nat.zero_le _
    · exact min_le_left _ _
    · exact Nat.le_succ _
  have kept : beaten p rounds ⊆ (beaten (p.pick q).2 (rounds + 1)).erase winner := by
    intro id behind
    have low := mem_beaten.mp behind
    refine Finset.mem_erase.mpr ⟨?_, mem_beaten.mpr ?_⟩
    · rintro rfl
      omega
    · have step := slow id
      omega
  refine ⟨grown, ?_, ?_⟩
  · rcases Nat.lt_or_ge rounds maxPriority.val with early | late
    · omega
    · have fresh : winner ∈ beaten (p.pick q).2 (rounds + 1) :=
        mem_beaten.mpr (by rw [reset]; omega)
      have count := Finset.card_le_card kept
      rw [Finset.card_erase_of_mem fresh] at count
      have some := Finset.card_pos.mpr ⟨winner, fresh⟩
      have others := passed.others
      omega
  · rw [mem_beaten]
    omega

theorem passed_bound {target : TaskId} {p : Aging} {rounds : Nat}
    (passed : Passed target p rounds) : rounds < maxPriority.val + maxTasks := by
  have proper : beaten p rounds ⊂ Finset.univ :=
    Finset.ssubset_univ_iff.mpr fun all => passed.apart (all ▸ Finset.mem_univ target)
  have count := Finset.card_lt_card proper
  rw [Finset.card_univ, Fintype.card_fin] at count
  have others := passed.others
  omega

theorem winners_passed {target : TaskId} (rounds : List Round) (p : Aging) (before : Nat)
    (passed : Passed target p before) (waits : ∀ r ∈ rounds, Waits target r)
    (lost : some target ∉ winners p rounds) :
    before + rounds.length < maxPriority.val + maxTasks := by
  induction rounds generalizing p before with
  | nil => exact passed_bound passed
  | cons r rest ih =>
      obtain ⟨missed, later⟩ := not_or.mp (mt List.mem_cons.mpr lost)
      have here := waits r List.mem_cons_self
      have short := passed_bound passed
      have next : Passed target (play p r).2 (before + 1) :=
        pick_passed here.ready here.important (short.trans (by decide))
          (notify_passed here passed) (Ne.symm missed)
      have rested := ih (play p r).2 (before + 1) next
        (fun r' member => waits r' (List.mem_cons_of_mem r member)) later
      rw [List.length_cons]
      omega

/-- A task that stays ready with a priority in range is picked within
`MAX_PRIORITY + MAX_TASKS` picks, whatever the others do. -/
theorem aging_bounds_starvation (target : TaskId) (p : Aging) (rounds : List Round)
    (waits : ∀ r ∈ rounds, Waits target r)
    (long : rounds.length = maxPriority.val + maxTasks) :
    some target ∈ winners p rounds := by
  by_contra lost
  have start : Passed target p 0 := ⟨Nat.zero_le _, Nat.zero_le _, by simp [mem_beaten]⟩
  have bound := winners_passed rounds p 0 start waits lost
  omega

/-- Two ready tasks, of which the least important one has never run. -/
def lowAndHigh : RunQueue where
  tasks id :=
    if id = 0 then { empty with state := .ready, priority := maxPriority }
    else if id = 1 then { empty with state := .ready, priority := shellPriority }
    else empty
  current := 1
  now := 0

theorem aging_bounds_starvation_low :
    some 0 ∈ winners .new (List.replicate (maxPriority.val + maxTasks) ⟨[], lowAndHigh⟩) := by
  refine aging_bounds_starvation 0 .new _ (fun r member => ?_) List.length_replicate
  obtain rfl := List.eq_of_mem_replicate member
  exact ⟨by decide, by decide, by simp⟩

end FiveAM.Sched.Starvation
