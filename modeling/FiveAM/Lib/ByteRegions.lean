/- GID: FiveAM/Lib/ByteRegions
   layer: library
   digest: Runs of bytes in a byte-addressed store: reading, overwriting, and their frame rules. -/

import Mathlib.Data.List.GetD
import Mathlib.Tactic.SplitIfs

set_option autoImplicit false
set_option relaxedAutoImplicit false

namespace FiveAM.Lib.ByteRegions

abbrev Store := Nat → UInt8

/-- The `n` bytes from `a` up. -/
def slice (m : Store) (a n : Nat) : List UInt8 :=
  (List.range n).map fun i => m (a + i)

/-- The store with `bs` written from `a` up. -/
def poke (m : Store) (a : Nat) (bs : List UInt8) : Store := fun x =>
  if a ≤ x then bs.getD (x - a) (m x) else m x

/-- The buffer with `bs` in place of what it held from `i` up. -/
def splice (buffer : List UInt8) (i : Nat) (bs : List UInt8) : List UInt8 :=
  buffer.take i ++ bs ++ buffer.drop (i + bs.length)

@[simp] theorem slice_length (m : Store) (a n : Nat) : (slice m a n).length = n := by
  simp [slice]

@[simp] theorem slice_zero (m : Store) (a : Nat) : slice m a 0 = [] := rfl

theorem slice_getElem {m : Store} {a n i : Nat} (inside : i < (slice m a n).length) :
    (slice m a n)[i] = m (a + i) := by
  simp [slice]

theorem slice_getD {m : Store} {a n i : Nat} (inside : i < n) (other : UInt8) :
    (slice m a n).getD i other = m (a + i) := by
  have bound : i < (slice m a n).length := by simpa using inside
  rw [List.getD_eq_getElem _ _ bound, slice_getElem]

theorem slice_congr {m m' : Store} {a n : Nat}
    (same : ∀ x, a ≤ x → x < a + n → m x = m' x) : slice m a n = slice m' a n := by
  unfold slice
  apply List.map_congr_left
  intro i inside
  exact same (a + i) (by omega) (by have := List.mem_range.mp inside; omega)

theorem slice_shift {m m' : Store} {a b n : Nat} (same : ∀ i < n, m (a + i) = m' (b + i)) :
    slice m a n = slice m' b n :=
  List.map_congr_left fun i inside => same i (List.mem_range.mp inside)

theorem slice_append (m : Store) (a n k : Nat) :
    slice m a (n + k) = slice m a n ++ slice m (a + n) k := by
  unfold slice
  rw [List.range_add, List.map_append, List.map_map]
  congr 1
  apply List.map_congr_left
  intro i _
  simp [Nat.add_assoc]

theorem slice_part {m : Store} {a n i k : Nat} (inside : i + k ≤ n) :
    ((slice m a n).drop i).take k = slice m (a + i) k := by
  obtain ⟨rest, rfl⟩ : ∃ rest, n = i + (k + rest) := ⟨n - (i + k), by omega⟩
  rw [slice_append, List.drop_left' (slice_length _ _ _), slice_append,
    List.take_left' (slice_length _ _ _)]

theorem poke_outside {m : Store} {a x : Nat} {bs : List UInt8}
    (out : x < a ∨ a + bs.length ≤ x) : poke m a bs x = m x := by
  unfold poke
  split_ifs with low
  · exact List.getD_eq_default _ _ (by omega)
  · rfl

theorem poke_inside {m : Store} {a i : Nat} {bs : List UInt8} (inside : i < bs.length) :
    poke m a bs (a + i) = bs[i] := by
  unfold poke
  rw [if_pos (by omega), Nat.add_sub_cancel_left, List.getD_eq_getElem _ _ inside]

@[simp] theorem poke_nil (m : Store) (a : Nat) : poke m a [] = m := by
  funext x
  exact poke_outside (by simp; omega)

theorem poke_append (m : Store) (a : Nat) (xs ys : List UInt8) :
    poke m a (xs ++ ys) = poke (poke m a xs) (a + xs.length) ys := by
  funext x
  by_cases first : a ≤ x ∧ x < a + xs.length
  · obtain ⟨i, rfl⟩ : ∃ i, x = a + i := ⟨x - a, by omega⟩
    have inside : i < xs.length := by omega
    rw [poke_inside (by rw [List.length_append]; omega), poke_outside (by omega),
      poke_inside inside, List.getElem_append_left inside]
  · by_cases second : a + xs.length ≤ x ∧ x < a + xs.length + ys.length
    · obtain ⟨i, rfl⟩ : ∃ i, x = a + xs.length + i := ⟨x - (a + xs.length), by omega⟩
      have inside : i < ys.length := by omega
      rw [poke_inside inside, Nat.add_assoc, poke_inside (by rw [List.length_append]; omega),
        List.getElem_append_right (by omega)]
      simp
    · rw [poke_outside (by rw [List.length_append]; omega), poke_outside (by omega),
        poke_outside (by omega)]

theorem slice_poke_self (m : Store) (a : Nat) (bs : List UInt8) :
    slice (poke m a bs) a bs.length = bs := by
  apply List.ext_getElem (by simp)
  intro i _ inside
  rw [slice_getElem, poke_inside inside]

theorem slice_poke_apart {m : Store} {a n b : Nat} {bs : List UInt8}
    (apart : a + n ≤ b ∨ b + bs.length ≤ a) : slice (poke m b bs) a n = slice m a n :=
  slice_congr fun _ low high => poke_outside (by omega)

@[simp] theorem poke_slice_self (m : Store) (a n : Nat) : poke m a (slice m a n) = m := by
  funext x
  by_cases inside : a ≤ x ∧ x < a + n
  · obtain ⟨i, rfl⟩ : ∃ i, x = a + i := ⟨x - a, by omega⟩
    rw [poke_inside (by simp; omega), slice_getElem]
  · exact poke_outside (by simp; omega)

theorem splice_length {buffer bs : List UInt8} {i : Nat} (inside : i + bs.length ≤ buffer.length) :
    (splice buffer i bs).length = buffer.length := by
  simp [splice]
  omega

theorem splice_get {buffer bs : List UInt8} {i : Nat} (inside : i + bs.length ≤ buffer.length)
    (n : Nat) : (splice buffer i bs)[n]? =
      if i ≤ n ∧ n < i + bs.length then bs[n - i]? else buffer[n]? := by
  have front : (buffer.take i).length = i := by
    rw [List.length_take]
    omega
  rw [splice, List.append_assoc, List.getElem?_append, front]
  split_ifs with before inner inner
  · omega
  · exact List.getElem?_take_of_lt before
  · exact List.getElem?_append_left (by omega)
  · rw [List.getElem?_append_right (by omega), List.getElem?_drop]
    exact congrArg (buffer[·]?) (by omega)

theorem poke_splice {m : Store} {a n i : Nat} {bs : List UInt8} (inside : i + bs.length ≤ n) :
    poke m a (splice (slice m a n) i bs) = poke m (a + i) bs := by
  obtain ⟨rest, rfl⟩ : ∃ rest, n = i + (bs.length + rest) := ⟨n - (i + bs.length), by omega⟩
  have before : (slice m a (i + (bs.length + rest))).take i = slice m a i := by
    rw [slice_append, List.take_left' (slice_length _ _ _)]
  have after : (slice m a (i + (bs.length + rest))).drop (i + bs.length) =
      slice m (a + i + bs.length) rest := by
    rw [← Nat.add_assoc, slice_append, List.drop_left' (slice_length _ _ _), Nat.add_assoc]
  have kept : slice (poke m (a + i) bs) (a + i + bs.length) rest =
      slice m (a + i + bs.length) rest := slice_poke_apart (by omega)
  rw [splice, before, after, List.append_assoc, poke_append, poke_slice_self, slice_length,
    poke_append, ← kept, poke_slice_self]

end FiveAM.Lib.ByteRegions
