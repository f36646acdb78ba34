/- GID: FiveAM/Sched/Policy
   source: kernel/src/sched.rs
   digest: The five scheduling policies, and that each answers with a ready task. -/

import FiveAM.Process.TaskTable
import Mathlib.Data.List.FinRange
import Mathlib.Tactic.SplitIfs

set_option autoImplicit false
set_option relaxedAutoImplicit false

namespace FiveAM.Sched.Policy

open FiveAM.Process.TaskTable

structure RunQueue where
  tasks : Tasks
  current : TaskId
  now : Nat

namespace RunQueue

def isReady (q : RunQueue) (id : TaskId) : Bool := decide ((q.tasks id).state = .ready)

def priority (q : RunQueue) (id : TaskId) : Nat := (q.tasks id).priority.val

def ready (q : RunQueue) : List TaskId := (List.finRange maxTasks).filter q.isReady

/-- The candidates from just after the current task, which comes last. -/
def rotation (q : RunQueue) : List TaskId := Process.TaskTable.rotation q.current

end RunQueue

/-- Keep the first candidate with a strictly smaller key, starting from `limit`. -/
def scanBest (key : TaskId → Int) (limit : Int) (candidates : List TaskId) : Option TaskId :=
  (candidates.foldl
    (fun acc id => if key id < acc.1 then (key id, some id) else acc)
    (limit, (none : Option TaskId))).2

/-- `Rr`: everybody in turn. -/
def rrPick (q : RunQueue) : Option TaskId := q.rotation.find? q.isReady

structure Fifo where
  arrived : TaskId → Nat
  stamp : Nat

namespace Fifo

def new : Fifo := ⟨fun _ => 0, 0⟩

/-- `Iterator::min_by_key` keeps the first of several minima. -/
def minByKey (key : TaskId → Nat) : List TaskId → Option TaskId
  | [] => none
  | id :: rest =>
      match minByKey key rest with
      | none => some id
      | some other => if key other < key id then some other else some id

def pick (p : Fifo) (q : RunQueue) : Option TaskId :=
  if q.isReady q.current then some q.current else minByKey p.arrived q.ready

def onReady (p : Fifo) (id : TaskId) : Fifo :=
  ⟨Function.update p.arrived id (p.stamp + 1), p.stamp + 1⟩

def onExit (p : Fifo) (id : TaskId) : Fifo := ⟨Function.update p.arrived id 0, p.stamp⟩

end Fifo

/-- `Prio`: always the most important runnable task. -/
def prioPick (q : RunQueue) : Option TaskId :=
  scanBest (fun id => (q.priority id : Int)) 65535 (q.rotation.filter q.isReady)

structure Aging where
  /-- Scheduling rounds each task has been passed over, a saturating `u16`. -/
  waited : TaskId → Nat

namespace Aging

def new : Aging := ⟨fun _ => 0⟩

def effective (p : Aging) (q : RunQueue) (id : TaskId) : Int :=
  (q.priority id : Int) - (p.waited id : Int)

def chosen (p : Aging) (q : RunQueue) : Option TaskId :=
  scanBest (p.effective q) 2147483647 (q.rotation.filter q.isReady)

/-- Age everyone who was runnable and did not get it. -/
def pick (p : Aging) (q : RunQueue) : Option TaskId × Aging :=
  let chosen := p.chosen q
  let winner := chosen.getD q.current
  (chosen, ⟨fun id =>
    if id = winner then 0
    else if q.isReady id then min (p.waited id + 1) 65535
    else p.waited id⟩)

def clear (p : Aging) (id : TaskId) : Aging := ⟨Function.update p.waited id 0⟩

end Aging

/-- `LEVELS`, the number of feedback queues. -/
abbrev levels : Nat := 4

/-- `BOOST`, the ticks between boosts. -/
def boost : Nat := 25

structure Mlfq where
  level : TaskId → Fin levels
  boostAt : Nat

namespace Mlfq

def new : Mlfq := ⟨fun _ => 0, 0⟩

def boosted (p : Mlfq) (now : Nat) : Mlfq :=
  if p.boostAt ≤ now then ⟨fun _ => 0, now + boost⟩ else p

def pick (p : Mlfq) (q : RunQueue) : Option TaskId × Mlfq :=
  let p := p.boosted q.now
  (scanBest (fun id => ((p.level id).val : Int)) 255 (q.rotation.filter q.isReady), p)

def quantum (p : Mlfq) (id : TaskId) : Nat := 2 <<< (p.level id).val

def onYield (p : Mlfq) (id : TaskId) (usedFullQuantum : Bool) : Mlfq :=
  if room : usedFullQuantum = true ∧ (p.level id).val + 1 < levels then
    ⟨Function.update p.level id ⟨(p.level id).val + 1, room.2⟩, p.boostAt⟩
  else p

def clear (p : Mlfq) (id : TaskId) : Mlfq := ⟨Function.update p.level id 0, p.boostAt⟩

end Mlfq

/-- `COUNT`, how many policies are registered. -/
def count : Nat := 5

/-- `SAFE`, the index of `Aging`. -/
def safe : Nat := 3

/-- The registry's state. `Rr` and `Prio` keep none. -/
structure Policies where
  fifo : Fifo
  aging : Aging
  mlfq : Mlfq

namespace Policies

def new : Policies := ⟨.new, .new, .new⟩

/-- `policy_at(index).pick(queue)`. -/
def pick (p : Policies) (index : Nat) (q : RunQueue) : Option TaskId × Policies :=
  match index with
  | 0 => (rrPick q, p)
  | 1 => (p.fifo.pick q, p)
  | 2 => (prioPick q, p)
  | 4 => ((p.mlfq.pick q).1, { p with mlfq := (p.mlfq.pick q).2 })
  | _ => ((p.aging.pick q).1, { p with aging := (p.aging.pick q).2 })

def quantum (p : Policies) (index : Nat) (id : TaskId) : Nat :=
  match index with
  | 4 => p.mlfq.quantum id
  | _ => 1

def onYield (p : Policies) (index : Nat) (id : TaskId) (usedFullQuantum : Bool) : Policies :=
  match index with
  | 4 => { p with mlfq := p.mlfq.onYield id usedFullQuantum }
  | _ => p

def onReady (p : Policies) (index : Nat) (id : TaskId) : Policies :=
  match index with
  | 0 => p
  | 1 => { p with fifo := p.fifo.onReady id }
  | 2 => p
  | 4 => { p with mlfq := p.mlfq.clear id }
  | _ => { p with aging := p.aging.clear id }

def onExit (p : Policies) (index : Nat) (id : TaskId) : Policies :=
  match index with
  | 0 => p
  | 1 => { p with fifo := p.fifo.onExit id }
  | 2 => p
  | 4 => { p with mlfq := p.mlfq.clear id }
  | _ => { p with aging := p.aging.clear id }

def reset (p : Policies) (index : Nat) : Policies :=
  match index with
  | 0 => p
  | 1 => { p with fifo := .new }
  | 2 => p
  | 4 => { p with mlfq := .new }
  | _ => { p with aging := .new }

end Policies

private theorem scanBest_fold_mem (key : TaskId → Int) (candidates : List TaskId)
    (acc : Int × Option TaskId) (id : TaskId)
    (result : (candidates.foldl
      (fun acc id => if key id < acc.1 then (key id, some id) else acc) acc).2 = some id) :
    acc.2 = some id ∨ id ∈ candidates := by
  induction candidates generalizing acc with
  | nil => exact Or.inl result
  | cons c rest ih =>
      simp only [List.foldl_cons] at result
      rcases ih _ result with old | inRest
      · split_ifs at old with better
        · exact Or.inr (List.mem_cons.mpr (Or.inl (Option.some.inj old).symm))
        · exact Or.inl old
      · exact Or.inr (List.mem_cons_of_mem _ inRest)

private theorem scanBest_fold_some (key : TaskId → Int) (candidates : List TaskId)
    (acc : Int × Option TaskId) (held : acc.2.isSome) :
    (candidates.foldl
      (fun acc id => if key id < acc.1 then (key id, some id) else acc) acc).2.isSome := by
  induction candidates generalizing acc with
  | nil => exact held
  | cons c rest ih =>
      simp only [List.foldl_cons]
      apply ih
      split_ifs
      · rfl
      · exact held

theorem scanBest_mem {key : TaskId → Int} {limit : Int} {candidates : List TaskId} {id : TaskId}
    (result : scanBest key limit candidates = some id) : id ∈ candidates := by
  rcases scanBest_fold_mem key candidates _ id result with impossible | member
  · simp at impossible
  · exact member

theorem scanBest_isSome {key : TaskId → Int} {limit : Int} {candidates : List TaskId}
    (below : ∀ id ∈ candidates, key id < limit) (any : candidates ≠ []) :
    (scanBest key limit candidates).isSome := by
  cases candidates with
  | nil => exact absurd rfl any
  | cons c rest =>
      unfold scanBest
      rw [List.foldl_cons, if_pos (below c List.mem_cons_self)]
      exact scanBest_fold_some key rest _ rfl

private theorem minByKey_mem {key : TaskId → Nat} {l : List TaskId} {id : TaskId}
    (result : Fifo.minByKey key l = some id) : id ∈ l := by
  induction l generalizing id with
  | nil => simp [Fifo.minByKey] at result
  | cons c rest ih =>
      cases best : Fifo.minByKey key rest with
      | none =>
          simp only [Fifo.minByKey, best, Option.some.injEq] at result
          simp [result]
      | some other =>
          simp only [Fifo.minByKey, best] at result
          split_ifs at result with smaller
          · obtain rfl := Option.some.inj result
            exact List.mem_cons_of_mem _ (ih best)
          · obtain rfl := Option.some.inj result
            exact List.mem_cons_self

private theorem minByKey_isSome {key : TaskId → Nat} {l : List TaskId} (any : l ≠ []) :
    (Fifo.minByKey key l).isSome := by
  cases l with
  | nil => exact absurd rfl any
  | cons c rest =>
      simp only [Fifo.minByKey]
      split
      · rfl
      · split_ifs <;> rfl

private theorem mem_candidates {q : RunQueue} {id : TaskId} :
    id ∈ q.rotation.filter q.isReady ↔ q.isReady id = true := by
  simp [List.mem_filter, RunQueue.rotation, mem_rotation]

private theorem scan_ready {q : RunQueue} {key : TaskId → Int} {limit : Int}
    (below : ∀ id, q.isReady id = true → key id < limit) :
    (∀ id, scanBest key limit (q.rotation.filter q.isReady) = some id → q.isReady id = true) ∧
      ((∃ id, q.isReady id = true) →
        (scanBest key limit (q.rotation.filter q.isReady)).isSome) := by
  refine ⟨fun id result => mem_candidates.mp (scanBest_mem result), ?_⟩
  rintro ⟨id, ready⟩
  refine scanBest_isSome (fun c member => below c (mem_candidates.mp member)) ?_
  exact List.ne_nil_of_mem (mem_candidates.mpr ready)

theorem pick_ready (p : Policies) (index : Nat) (q : RunQueue) :
    (∀ id, (p.pick index q).1 = some id → q.isReady id = true) ∧
      ((∃ id, q.isReady id = true) → ((p.pick index q).1).isSome) := by
  have prio : ∀ id, q.isReady id = true → ((q.priority id : Nat) : Int) < 65535 := by
    intro id _
    have bound := (q.tasks id).priority.isLt
    simp only [RunQueue.priority]
    omega
  have aging : ∀ id, q.isReady id = true → p.aging.effective q id < 2147483647 := by
    intro id _
    have bound := (q.tasks id).priority.isLt
    simp only [Aging.effective, RunQueue.priority]
    omega
  have mlfq : ∀ id, q.isReady id = true →
      ((((p.mlfq.boosted q.now).level id).val : Nat) : Int) < 255 := by
    intro id _
    have bound := ((p.mlfq.boosted q.now).level id).isLt
    simp only [levels] at bound
    omega
  have rr : (∀ id, rrPick q = some id → q.isReady id = true) ∧
      ((∃ id, q.isReady id = true) → (rrPick q).isSome) := by
    refine ⟨fun id found => by simpa using List.find?_some found, ?_⟩
    rintro ⟨id, ready⟩
    exact List.find?_isSome.mpr ⟨id, mem_rotation q.current id, ready⟩
  have fifo : (∀ id, p.fifo.pick q = some id → q.isReady id = true) ∧
      ((∃ id, q.isReady id = true) → (p.fifo.pick q).isSome) := by
    unfold Fifo.pick
    split_ifs with keeps
    · refine ⟨fun id same => ?_, fun _ => rfl⟩
      obtain rfl := Option.some.inj same
      exact keeps
    · refine ⟨fun id found => (List.mem_filter.mp (minByKey_mem found)).2, ?_⟩
      rintro ⟨id, ready⟩
      refine minByKey_isSome (List.ne_nil_of_mem (a := id) ?_)
      exact List.mem_filter.mpr ⟨List.mem_finRange id, ready⟩
  unfold Policies.pick
  split
  · exact rr
  · exact fifo
  · exact scan_ready prio
  · exact scan_ready mlfq
  · exact scan_ready aging

end FiveAM.Sched.Policy
