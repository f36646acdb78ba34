/- GID: FiveAM/Memory/UserBytes
   source: kernel/src/memory.rs
   digest: Bytes of frames, and which addresses share a page. -/

import FiveAM.Memory.KernelStores

set_option autoImplicit false
set_option relaxedAutoImplicit false

namespace FiveAM.Memory.UserBytes

open FiveAM.Process.TaskTable (Word)
open FiveAM.Memory.Entries FiveAM.Memory.Frames FiveAM.Memory.PageTables FiveAM.Memory.Ownership
open FiveAM.Memory.Residency FiveAM.Memory.UserAccess FiveAM.Memory.KernelStores

section Bytes

def byteOf (table : Table) (offset : Nat) : BitVec 8 :=
  (table ⟨offset / 8 % 512, Nat.mod_lt _ (by decide)⟩ >>> (8 * (offset % 8))).truncate 8

def byteAt (s : Paging) (a : Word) : Option (BitVec 8) :=
  (translate s a).map fun found => byteOf (s.words (frameOf found.1)) (a.toNat % pageSize)

theorem truncate_setByte (w : Word) (byte : BitVec 8) {i j : Nat} (inside : j < 8) :
    (setByte w i byte >>> (8 * j)).truncate 8 =
      if i = j then byte else (w >>> (8 * j)).truncate 8 := by
  apply BitVec.eq_of_getLsbD_eq
  intro k bound
  have low : 8 * j + k < 64 := by omega
  have ones : ∀ n, (0xff : Word).getLsbD n = decide (n < 8) := by
    intro n
    by_cases small : n < 64
    · have all : ∀ n : Fin 64, (0xff : Word).getLsbD n.val = decide (n.val < 8) := by decide
      exact all ⟨n, small⟩
    · rw [BitVec.getLsbD_of_ge _ _ (Nat.not_lt.mp small)]
      exact (decide_eq_false (by omega)).symm
  have read : ∀ x : Word, ((x >>> (8 * j)).truncate 8).getLsbD k = x.getLsbD (8 * j + k) := by
    intro x
    simp [bound]
  rw [read, setByte, BitVec.getLsbD_or, BitVec.getLsbD_and, BitVec.getLsbD_not,
    BitVec.getLsbD_shiftLeft, BitVec.getLsbD_shiftLeft, ones]
  split_ifs with same
  · subst same
    have here : 8 * i + k - 8 * i = k := by omega
    have wide : k < 64 := by omega
    simp [low, here, bound, wide]
  · rw [read]
    rcases Nat.lt_or_gt_of_ne same with below | above
    · have past : 8 ≤ 8 * j + k - 8 * i := by omega
      have out : byte.getLsbD (8 * j + k - 8 * i) = false := BitVec.getLsbD_of_ge _ _ past
      have mask : ¬8 * j + k - 8 * i < 8 := by omega
      simp [low, out, mask]
    · have before : 8 * j + k < 8 * i := by omega
      simp [low, before]

theorem byteOf_update (table : Table) (byte : BitVec 8) {index : Index} {offset n : Nat}
    (inside : n < pageSize) (here : index.val = offset / 8) :
    byteOf (Function.update table index (setByte (table index) (offset % 8) byte)) n =
      if n = offset then byte else byteOf table n := by
  unfold pageSize at inside
  unfold byteOf
  have place : n / 8 % 512 = n / 8 := Nat.mod_eq_of_lt (by omega)
  by_cases same : n / 8 = offset / 8
  · have index' : (⟨n / 8 % 512, Nat.mod_lt _ (by decide)⟩ : Index) = index := by
      apply Fin.ext
      rw [here, ← same]
      exact place
    rw [index', Function.update_self, truncate_setByte _ _ (by omega)]
    have agree : offset % 8 = n % 8 ↔ n = offset := by omega
    simp only [agree]
  · have other : (⟨n / 8 % 512, Nat.mod_lt _ (by decide)⟩ : Index) ≠ index := by
      intro equal
      have value := congrArg Fin.val equal
      simp only [place, here] at value
      exact same value
    rw [Function.update_of_ne other, if_neg (fun equal => same (by rw [equal]))]

end Bytes

section Addresses

variable {a b : Word}

theorem user_toNat : a < userSpaceEnd ↔ a.toNat < 2 ^ 39 := by
  have limit : userSpaceEnd.toNat = 2 ^ 39 := by decide
  rw [← limit]
  exact Iff.rfl

theorem samePage_iff (inside : a < userSpaceEnd) (inside' : b < userSpaceEnd) :
    SamePage (indexes a) (indexes b) ↔ a.toNat / pageSize = b.toNat / pageSize := by
  have low := user_toNat.mp inside
  have low' := user_toNat.mp inside'
  unfold pageSize
  constructor
  · intro same
    have level : ∀ j, j ≤ 3 → a.toNat / 2 ^ (12 + 9 * j) % 512 = b.toNat / 2 ^ (12 + 9 * j) % 512 := by
      intro j within
      have equal := congrArg Fin.val (same j within)
      rwa [indexes_toNat, indexes_toNat] at equal
    have zero := level 0 (by omega)
    have one := level 1 (by omega)
    have two := level 2 (by omega)
    norm_num at zero one two
    omega
  · intro same j within
    apply Fin.ext
    rw [indexes_toNat, indexes_toNat, pow_add, ← Nat.div_div_eq_div_mul, ← Nat.div_div_eq_div_mul]
    rw [show (2 : Nat) ^ 12 = 4096 from rfl, same]

theorem frameOf_offset (e : Word) : frameOf (frameOf e + (a &&& 0xfff)) = frameOf e ∧
    (wordOf (frameOf e + (a &&& 0xfff))).val = a.toNat % pageSize / 8 := by
  have offset : (a &&& 0xfff : Word).toNat = a.toNat % 4096 := by
    rw [BitVec.toNat_and]
    exact Nat.and_two_pow_sub_one_eq_mod a.toNat 12
  have apart : frameOf e &&& (a &&& 0xfff) = 0 := by
    unfold frameOf
    rw [BitVec.and_comm a, ← BitVec.and_assoc, BitVec.and_assoc e,
      show addressMask &&& (0xfff : Word) = 0#64 from by decide, BitVec.and_zero, BitVec.zero_and]
    rfl
  have joined : frameOf e + (a &&& 0xfff) = frameOf e ||| (a &&& 0xfff) :=
    BitVec.add_eq_or_of_and_eq_zero _ _ apart
  constructor
  · rw [joined, frameOf_or, frameOf_frameOf]
    unfold frameOf
    rw [BitVec.and_assoc, show (0xfff : Word) &&& addressMask = 0#64 from by decide, BitVec.and_zero,
      BitVec.or_zero]
  · have low : (frameOf e).toNat % 4096 = 0 := by
      rw [← Nat.and_two_pow_sub_one_eq_mod _ 12,
        show 2 ^ 12 - 1 = (0xfff : Word).toNat from rfl, ← BitVec.toNat_and]
      unfold frameOf
      rw [BitVec.and_assoc, show addressMask &&& (0xfff : Word) = 0#64 from by decide, BitVec.and_zero]
      rfl
    have total := BitVec.toNat_or (x := frameOf e) (y := a &&& 0xfff)
    have sum : (frameOf e + (a &&& 0xfff)).toNat = (frameOf e).toNat + a.toNat % 4096 := by
      rw [BitVec.toNat_add_of_and_eq_zero apart, offset]
    unfold wordOf
    simp only [BitVec.toNat_ushiftRight, Nat.shiftRight_eq_div_pow, sum]
    unfold pageSize
    omega

end Addresses

end FiveAM.Memory.UserBytes
