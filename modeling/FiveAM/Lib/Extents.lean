/- GID: FiveAM/Lib/Extents
   layer: library
   digest: Lists of half-open address ranges, counted pointwise and compared canonically. -/

import Mathlib.Data.List.Basic
import Mathlib.Tactic.SplitIfs

set_option autoImplicit false
set_option relaxedAutoImplicit false

namespace FiveAM.Lib.Extents

/-- The half-open range `[start, start + size)`. -/
structure Extent where
  start : Nat
  size : Nat
  deriving DecidableEq, Repr

namespace Extent

def stop (e : Extent) : Nat := e.start + e.size

def Holds (e : Extent) (x : Nat) : Prop := e.start ≤ x ∧ x < e.stop

instance (e : Extent) (x : Nat) : Decidable (e.Holds x) :=
  inferInstanceAs (Decidable (e.start ≤ x ∧ x < e.stop))

theorem holds_iff {a n x : Nat} : Holds ⟨a, n⟩ x ↔ a ≤ x ∧ x < a + n := Iff.rfl

def Apart (a b : Extent) : Prop := ∀ x, a.Holds x → ¬ b.Holds x

theorem Apart.symm {a b : Extent} (apart : a.Apart b) : b.Apart a :=
  fun x there here => apart x here there

theorem apart_of_le {a b : Extent} (below : a.stop ≤ b.start) : a.Apart b := by
  rintro x ⟨-, low⟩ ⟨high, -⟩
  omega

end Extent

open Extent

/-- How many ranges of the list contain `x`. -/
def hits (l : List Extent) (x : Nat) : Nat :=
  l.countP (fun e => decide (e.Holds x))

@[simp] theorem hits_nil (x : Nat) : hits [] x = 0 := rfl

@[simp] theorem hits_cons (e : Extent) (l : List Extent) (x : Nat) :
    hits (e :: l) x = hits l x + if e.Holds x then 1 else 0 := by
  simp [hits, List.countP_cons]

@[simp] theorem hits_append (l m : List Extent) (x : Nat) :
    hits (l ++ m) x = hits l x + hits m x := by
  simp [hits, List.countP_append]

theorem hits_eq_zero {l : List Extent} {x : Nat} :
    hits l x = 0 ↔ ∀ e ∈ l, ¬ e.Holds x := by
  simp [hits, List.countP_eq_zero]

theorem hits_pos {l : List Extent} {x : Nat} :
    0 < hits l x ↔ ∃ e ∈ l, e.Holds x := by
  simp [hits, List.countP_pos_iff]

theorem holds_join {a n m x : Nat} :
    (if Holds ⟨a, n + m⟩ x then 1 else 0) =
      (if Holds ⟨a, n⟩ x then 1 else 0) + (if Holds ⟨a + n, m⟩ x then 1 else 0) := by
  simp only [holds_iff]
  split_ifs <;> omega

/-- The list cuts `[lo, hi)` into disjoint pieces. -/
def Partitions (l : List Extent) (lo hi : Nat) : Prop :=
  l.Pairwise Apart ∧ ∀ x, (∃ e ∈ l, e.Holds x) ↔ lo ≤ x ∧ x < hi

private theorem pairwise_apart_of_hits {l : List Extent} (bound : ∀ x, hits l x ≤ 1) :
    l.Pairwise Apart := by
  induction l with
  | nil => exact .nil
  | cons e l ih =>
      refine List.pairwise_cons.mpr ⟨?_, ih fun x => ?_⟩
      · intro f member x inE inF
        have total := bound x
        have rest : 0 < hits l x := hits_pos.mpr ⟨f, member, inF⟩
        simp only [hits_cons, if_pos inE] at total
        omega
      · have total := bound x
        simp only [hits_cons] at total
        omega

theorem partitions_of_hits {l : List Extent} {lo hi : Nat}
    (count : ∀ x, hits l x = if lo ≤ x ∧ x < hi then 1 else 0) : Partitions l lo hi := by
  refine ⟨pairwise_apart_of_hits fun x => ?_, fun x => ?_⟩
  · rw [count x]
    split <;> omega
  · rw [← hits_pos, count x]
    split <;> simp_all

/-- Sorted, and with a gap between any two neighbours. -/
def Separated (l : List Extent) : Prop := l.Pairwise (fun a b => a.stop < b.start)

def Nonempty (l : List Extent) : Prop := ∀ e ∈ l, 0 < e.size

private theorem start_le_of_hits {a : Extent} {l : List Extent} (sep : Separated (a :: l))
    {x : Nat} (hit : 0 < hits (a :: l) x) : a.start ≤ x := by
  obtain ⟨e, member, inside⟩ := hits_pos.mp hit
  rcases List.mem_cons.mp member with rfl | member
  · exact inside.1
  · have gap := (List.pairwise_cons.mp sep).1 e member
    unfold Holds at inside
    unfold stop at gap
    omega

private theorem stop_uncovered {a : Extent} {l : List Extent} (sep : Separated (a :: l)) :
    hits (a :: l) a.stop = 0 := by
  refine hits_eq_zero.mpr fun e member inside => ?_
  rcases List.mem_cons.mp member with rfl | member
  · exact absurd inside.2 (Nat.lt_irrefl _)
  · have gap := (List.pairwise_cons.mp sep).1 e member
    exact absurd inside.1 (Nat.not_le.mpr gap)

private theorem start_covered {a : Extent} {l : List Extent} (pos : 0 < a.size) :
    0 < hits (a :: l) a.start :=
  hits_pos.mpr ⟨a, List.mem_cons_self, Nat.le_refl _, Nat.lt_add_of_pos_right pos⟩

private theorem head_stop_le {a b : Extent} {l m : List Extent} (sep : Separated (a :: l))
    (starts : a.start = b.start) (same : ∀ x, hits (a :: l) x = hits (b :: m) x) :
    b.stop ≤ a.stop := by
  by_contra longer
  have inside : b.Holds a.stop := by
    refine ⟨?_, Nat.not_le.mp longer⟩
    unfold stop
    omega
  have covered : 0 < hits (b :: m) a.stop := hits_pos.mpr ⟨b, List.mem_cons_self, inside⟩
  rw [← same, stop_uncovered sep] at covered
  exact absurd covered (Nat.lt_irrefl 0)

theorem separated_ext {l m : List Extent} (sepL : Separated l) (sepM : Separated m)
    (posL : Nonempty l) (posM : Nonempty m) (same : ∀ x, hits l x = hits m x) : l = m := by
  induction l generalizing m with
  | nil =>
      cases m with
      | nil => rfl
      | cons b m =>
          have covered := start_covered (l := m) (posM b List.mem_cons_self)
          rw [← same] at covered
          simp at covered
  | cons a l ih =>
      cases m with
      | nil =>
          have covered := start_covered (l := l) (posL a List.mem_cons_self)
          rw [same] at covered
          simp at covered
      | cons b m =>
          have coveredA := start_covered (l := l) (posL a List.mem_cons_self)
          have coveredB := start_covered (l := m) (posM b List.mem_cons_self)
          rw [same] at coveredA
          rw [← same] at coveredB
          have starts : a.start = b.start :=
            Nat.le_antisymm (start_le_of_hits sepL coveredB) (start_le_of_hits sepM coveredA)
          have stops : a.stop = b.stop :=
            Nat.le_antisymm (head_stop_le sepM starts.symm fun x => (same x).symm)
              (head_stop_le sepL starts same)
          have equal : a = b := by
            cases a
            cases b
            simp only [stop] at starts stops ⊢
            simp only [Extent.mk.injEq]
            omega
          subst equal
          have rest : ∀ x, hits l x = hits m x := by
            intro x
            have total := same x
            simp only [hits_cons] at total
            omega
          rw [ih (List.pairwise_cons.mp sepL).2 (List.pairwise_cons.mp sepM).2
            (fun e h => posL e (List.mem_cons_of_mem _ h))
            (fun e h => posM e (List.mem_cons_of_mem _ h)) rest]

end FiveAM.Lib.Extents
