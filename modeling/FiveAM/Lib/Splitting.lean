/- GID: FiveAM/Lib/Splitting
   layer: library
   digest: What the pieces of a split list hold. -/

import Mathlib.Data.List.Basic
import Mathlib.Tactic.SplitIfs
import Mathlib.Algebra.Ring.Nat

set_option autoImplicit false
set_option relaxedAutoImplicit false

namespace FiveAM.Lib.Splitting

variable {α : Type}

theorem mem_intercalate {sep : List α} {pieces : List (List α)} {piece : List α} {c : α}
    (among : piece ∈ pieces) (inside : c ∈ piece) : c ∈ sep.intercalate pieces := by
  induction pieces with
  | nil => cases among
  | cons first rest ih =>
      cases rest with
      | nil =>
          rw [List.intercalate_singleton, ← List.mem_singleton.mp among]
          exact inside
      | cons second rest =>
          rw [List.intercalate_cons_cons, List.mem_append, List.mem_append]
          rcases List.mem_cons.mp among with rfl | later
          · exact Or.inl (Or.inl inside)
          · exact Or.inr (ih later)

variable [DecidableEq α]

theorem not_mem_splitOn (sep : α) (xs : List α) : ∀ piece ∈ xs.splitOn sep, sep ∉ piece := by
  induction xs with
  | nil => simp
  | cons x xs ih =>
      rw [List.splitOn_cons_eq_if_modifyHead]
      split_ifs with here
      · intro piece member
        rcases List.mem_cons.mp member with rfl | later
        · exact List.not_mem_nil
        · exact ih piece later
      · have other : x ≠ sep := fun same => here (beq_iff_eq.mpr same)
        cases pieces : xs.splitOn sep with
        | nil => exact absurd pieces (List.splitOn_ne_nil sep xs)
        | cons first rest =>
            rw [pieces] at ih
            intro piece member
            rcases List.mem_cons.mp member with rfl | later
            · intro inside
              rcases List.mem_cons.mp inside with same | deep
              · exact other same.symm
              · exact ih first List.mem_cons_self deep
            · exact ih piece (List.mem_cons_of_mem _ later)

theorem splitOn_length (sep : α) (xs : List α) :
    ((xs.splitOn sep).map fun piece => piece.length + 1).sum = xs.length + 1 := by
  induction xs with
  | nil => simp
  | cons x xs ih =>
      rw [List.splitOn_cons_eq_if_modifyHead]
      split_ifs
      · rw [List.map_cons, List.sum_cons, ih, List.length_nil, List.length_cons]
        omega
      · cases pieces : xs.splitOn sep with
        | nil => exact absurd pieces (List.splitOn_ne_nil sep xs)
        | cons first rest =>
            rw [pieces, List.map_cons, List.sum_cons] at ih
            rw [List.modifyHead_cons, List.map_cons, List.sum_cons, List.length_cons,
              List.length_cons]
            omega

end FiveAM.Lib.Splitting
