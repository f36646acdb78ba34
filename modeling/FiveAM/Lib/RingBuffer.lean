/- GID: FiveAM/Lib/RingBuffer
   layer: library
   digest: A ring buffer with two indices, and the bounded queue it is. -/

import Mathlib.Data.List.Range
import Mathlib.Logic.Function.Basic
import Mathlib.Tactic.SplitIfs

set_option autoImplicit false
set_option relaxedAutoImplicit false

namespace FiveAM.Lib.RingBuffer

/-- A ring of cells; what is queued stands from `read` up to `write`. -/
structure Ring (α : Type*) (capacity : Nat) where
  buffer : Fin capacity → α
  read : Fin capacity
  write : Fin capacity

namespace Ring

variable {α : Type*} {capacity : Nat}

/-- The cell `offset` places after another. -/
def after (start : Fin capacity) (offset : Nat) : Fin capacity :=
  ⟨(start.val + offset) % capacity, Nat.mod_lt _ (Nat.zero_lt_of_lt start.isLt)⟩

def push (q : Ring α capacity) (x : α) : Ring α capacity :=
  let next := after q.write 1
  if next = q.read then q
  else { q with buffer := Function.update q.buffer q.write x, write := next }

def pop (q : Ring α capacity) : Option (α × Ring α capacity) :=
  if q.read = q.write then none
  else some (q.buffer q.read, { q with read := after q.read 1 })

def size (q : Ring α capacity) : Nat := (q.write.val + capacity - q.read.val) % capacity

def contents (q : Ring α capacity) : List α :=
  (List.range q.size).map fun i => q.buffer (after q.read i)

@[simp] theorem length_contents (q : Ring α capacity) : q.contents.length = q.size := by
  simp [contents]

theorem size_lt (q : Ring α capacity) : q.size < capacity :=
  Nat.mod_lt _ (Nat.zero_lt_of_lt q.read.isLt)

theorem size_cases (q : Ring α capacity) :
    q.read.val + q.size = q.write.val ∨ q.read.val + q.size = q.write.val + capacity := by
  have low := q.read.isLt
  have high := q.write.isLt
  unfold size
  rcases Nat.lt_or_ge (q.write.val + capacity - q.read.val) capacity with small | large
  · rw [Nat.mod_eq_of_lt small]
    omega
  · rw [Nat.mod_eq_sub_mod large, Nat.mod_eq_of_lt (by omega)]
    omega

theorem after_one (start : Fin capacity) :
    start.val + 1 < capacity ∧ (after start 1).val = start.val + 1 ∨
      start.val + 1 = capacity ∧ (after start 1).val = 0 := by
  rcases Nat.lt_or_ge (start.val + 1) capacity with inside | wraps
  · exact .inl ⟨inside, Nat.mod_eq_of_lt inside⟩
  · have last : start.val + 1 = capacity := Nat.le_antisymm start.isLt wraps
    exact .inr ⟨last, by simp [after, last]⟩

theorem after_cases (start : Fin capacity) {offset : Nat} (short : offset < capacity) :
    (after start offset).val = start.val + offset ∨
      (after start offset).val + capacity = start.val + offset := by
  have low := start.isLt
  simp only [after]
  rcases Nat.lt_or_ge (start.val + offset) capacity with inside | wraps
  · exact .inl (Nat.mod_eq_of_lt inside)
  · rw [Nat.mod_eq_sub_mod wraps, Nat.mod_eq_of_lt (by omega)]
    omega

theorem after_ne_write (q : Ring α capacity) {i : Nat} (inside : i < q.size) :
    after q.read i ≠ q.write := by
  intro same
  have value := congrArg Fin.val same
  have bound := q.size_lt
  have low := q.write.isLt
  rcases q.size_cases with here | here <;>
    rcases after_cases q.read (Nat.lt_trans inside bound) with there | there <;> omega

theorem after_size (q : Ring α capacity) : after q.read q.size = q.write := by
  apply Fin.ext
  have low := q.write.isLt
  rcases q.size_cases with here | here <;>
    rcases after_cases q.read q.size_lt with there | there <;> omega

theorem full_iff (q : Ring α capacity) :
    after q.write 1 = q.read ↔ q.size + 1 = capacity := by
  have low := q.write.isLt
  have high := q.read.isLt
  have bound := q.size_lt
  constructor
  · intro same
    have value := congrArg Fin.val same
    rcases q.size_cases with here | here <;>
      rcases after_one q.write with ⟨_, there⟩ | ⟨_, there⟩ <;> omega
  · intro full
    apply Fin.ext
    rcases q.size_cases with here | here <;>
      rcases after_one q.write with ⟨_, there⟩ | ⟨_, there⟩ <;> omega

theorem empty_iff (q : Ring α capacity) : q.read = q.write ↔ q.size = 0 := by
  have low := q.write.isLt
  have high := q.read.isLt
  have bound := q.size_lt
  constructor
  · intro same
    have value := congrArg Fin.val same
    rcases q.size_cases with here | here <;> omega
  · intro none
    apply Fin.ext
    rcases q.size_cases with here | here <;> omega

theorem contents_push (q : Ring α capacity) (x : α) :
    (q.push x).contents = if q.size + 1 < capacity then q.contents ++ [x] else q.contents := by
  have bound := q.size_lt
  by_cases full : after q.write 1 = q.read
  · rw [push, if_pos full, if_neg (by have last := q.full_iff.mp full; omega)]
  · have room : q.size + 1 < capacity := by
      have other := mt q.full_iff.mpr full
      omega
    rw [if_pos room, push, if_neg full]
    have grown : (⟨Function.update q.buffer q.write x, q.read, after q.write 1⟩ :
        Ring α capacity).size = q.size + 1 := by
      have low := q.read.isLt
      have sized := size_cases ⟨Function.update q.buffer q.write x, q.read, after q.write 1⟩
      have small := size_lt ⟨Function.update q.buffer q.write x, q.read, after q.write 1⟩
      simp only at sized
      rcases sized with here | here <;> rcases q.size_cases with there | there <;>
        rcases after_one q.write with ⟨_, next⟩ | ⟨_, next⟩ <;> omega
    rw [contents, grown, List.range_succ, List.map_append, contents]
    refine congrArg₂ (· ++ ·) (List.map_congr_left fun i member => ?_) ?_
    · exact Function.update_of_ne (q.after_ne_write (List.mem_range.mp member)) _ _
    · simp [after_size]

theorem pop_none (q : Ring α capacity) : q.pop = none ↔ q.contents = [] := by
  rw [pop, ← List.length_eq_zero_iff, length_contents, ← empty_iff]
  split_ifs with same
  · exact iff_of_true rfl same
  · exact iff_of_false nofun same

theorem pop_some {q q' : Ring α capacity} {x : α} (popped : q.pop = some (x, q')) :
    q.contents = x :: q'.contents := by
  rw [pop] at popped
  split_ifs at popped with empty
  obtain ⟨rfl, rfl⟩ := Prod.mk.inj (Option.some.inj popped)
  have shrunk : size { q with read := after q.read 1 } + 1 = q.size := by
    have positive := mt q.empty_iff.mpr empty
    have low := q.write.isLt
    have bound := q.size_lt
    have sized := size_cases { q with read := after q.read 1 }
    have small := size_lt { q with read := after q.read 1 }
    simp only at sized
    rcases sized with here | here <;> rcases q.size_cases with there | there <;>
      rcases after_one q.read with ⟨_, next⟩ | ⟨_, next⟩ <;> omega
  rw [contents, ← shrunk, List.range_succ_eq_map, List.map_cons, List.map_map, contents]
  refine congrArg₂ List.cons (congrArg q.buffer (Fin.ext ?_)) (List.map_congr_left fun i _ => ?_)
  · exact Nat.mod_eq_of_lt q.read.isLt
  · refine congrArg q.buffer (Fin.ext ?_)
    simp only [after]
    rw [Nat.mod_add_mod, Nat.add_assoc, Nat.add_comm 1 i]

end Ring

end FiveAM.Lib.RingBuffer
