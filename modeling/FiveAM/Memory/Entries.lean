/- GID: FiveAM/Memory/Entries
   source: kernel/src/memory.rs
   digest: Page table entries as words: flags, addresses and the bits that carry them. -/

import FiveAM.Process.TaskTable

set_option autoImplicit false
set_option relaxedAutoImplicit false

namespace FiveAM.Memory.Entries

open FiveAM.Process.TaskTable (Word)

abbrev Index := Fin 512

/-- The contents of a frame, as the 512 words a table would be. -/
abbrev Table := Index → Word

def pageSize : Nat := 4096

def present : Word := 1 <<< 0
def writable : Word := 1 <<< 1
def user : Word := 1 <<< 2
def accessed : Word := 1 <<< 5
def dirty : Word := 1 <<< 6
/-- Bit 7: above the last level, an entry that names data directly. -/
def huge : Word := 1 <<< 7
def cow : Word := 1 <<< 9
def swapped : Word := 1 <<< 10
def noExecute : Word := 1 <<< 63

def addressMask : Word := 0x000ffffffffff000

/-- `entry & flag != 0`. -/
def has (entry flag : Word) : Bool := entry &&& flag != 0

def frameOf (entry : Word) : Word := entry &&& addressMask

def flagsOf (entry : Word) : Word := entry &&& ~~~addressMask

/-- The first address of the page an address is in. -/
def pageOf (address : Word) : Word := address &&& ~~~(0xfff : Word)

/-- The nine bits of an address that index the tables of a level, the page tables
being level 0 and the root level 3. -/
def indexes (address : Word) (level : Nat) : Index :=
  ⟨(address >>> (12 + 9 * level)).toNat % 512, Nat.mod_lt _ (by decide)⟩

/-- A frame the allocator can hand out: page aligned, nonzero, within the address
bits of an entry. -/
def Framed (frame : Word) : Prop := frame ≠ 0 ∧ frameOf frame = frame

instance (frame : Word) : Decidable (Framed frame) := inferInstanceAs (Decidable (_ ∧ _))

section Bits

variable {e f : Word}

theorem has_twoPow (e : Word) (k : Nat) (low : k < 64) :
    has e (BitVec.twoPow 64 k) = e.getLsbD k := by
  unfold has
  rw [BitVec.and_twoPow]
  cases e.getLsbD k with
  | false => simp
  | true =>
      have apart : BitVec.twoPow 64 k ≠ 0#64 := by
        intro zero
        have bit := congrArg (fun w => w.getLsbD k) zero
        simp [low] at bit
      simp [apart]

theorem has_present (e : Word) : has e present = e.getLsbD 0 := has_twoPow e 0 (by decide)

theorem has_writable (e : Word) : has e writable = e.getLsbD 1 := has_twoPow e 1 (by decide)

theorem has_user (e : Word) : has e user = e.getLsbD 2 := has_twoPow e 2 (by decide)

theorem has_accessed (e : Word) : has e accessed = e.getLsbD 5 := has_twoPow e 5 (by decide)

theorem has_huge (e : Word) : has e huge = e.getLsbD 7 := has_twoPow e 7 (by decide)

theorem has_cow (e : Word) : has e cow = e.getLsbD 9 := has_twoPow e 9 (by decide)

theorem has_swapped (e : Word) : has e swapped = e.getLsbD 10 := has_twoPow e 10 (by decide)

theorem has_noExecute (e : Word) : has e noExecute = e.getLsbD 63 := has_twoPow e 63 (by decide)

theorem frameOf_or (a b : Word) : frameOf (a ||| b) = frameOf a ||| frameOf b :=
  BitVec.and_or_distrib_right

theorem frameOf_and (a b : Word) : frameOf (a &&& b) = frameOf a &&& b := by
  unfold frameOf
  rw [BitVec.and_assoc, BitVec.and_comm b, ← BitVec.and_assoc]

theorem frameOf_frameOf (e : Word) : frameOf (frameOf e) = frameOf e := by
  unfold frameOf
  rw [BitVec.and_assoc, BitVec.and_self]

theorem frameOf_flagsOf (e : Word) : frameOf (flagsOf e) = 0 := by
  unfold frameOf flagsOf
  rw [BitVec.and_assoc, show ~~~addressMask &&& addressMask = 0#64 from by decide]
  exact BitVec.and_zero

theorem frameOf_and_flags {a b : Word} (flags : frameOf b = 0) : frameOf (a &&& b) = 0 := by
  unfold frameOf at flags ⊢
  rw [BitVec.and_assoc, flags]
  exact BitVec.and_zero

theorem frameOf_bit (e : Word) {k : Nat} (outside : addressMask.getLsbD k = false) :
    (frameOf e).getLsbD k = false := by
  unfold frameOf
  rw [BitVec.getLsbD_and, outside, Bool.and_false]

theorem flagsOf_bit (e : Word) {k : Nat} (low : k < 64) (outside : addressMask.getLsbD k = false) :
    (flagsOf e).getLsbD k = e.getLsbD k := by
  unfold flagsOf
  rw [BitVec.getLsbD_and, BitVec.getLsbD_not, outside]
  simp [low]

theorem framed_bit (framed : Framed f) {k : Nat} (outside : addressMask.getLsbD k = false) :
    f.getLsbD k = false := by
  rw [← framed.2]
  exact frameOf_bit f outside

theorem frameOf_or_flagsOf (e : Word) : frameOf e ||| flagsOf e = e := by
  unfold frameOf flagsOf
  rw [← BitVec.and_or_distrib_left, show addressMask ||| ~~~addressMask = BitVec.allOnes 64 from by
    decide, BitVec.and_allOnes]

private theorem mask_bit : ∀ k : Fin 64,
    addressMask.getLsbD k = decide (12 ≤ k.val ∧ k.val < 52) := by decide

theorem frameOf_aligned {frame : Word} (aligned : frame.toNat % 4096 = 0)
    (below : frame.toNat < 2 ^ 52) :
    frameOf frame = frame := by
  refine BitVec.eq_of_getLsbD_eq fun k low => ?_
  rw [frameOf, BitVec.getLsbD_and, mask_bit ⟨k, low⟩]
  by_cases inside : 12 ≤ k ∧ k < 52
  · simp [inside]
  · have off : frame.getLsbD k = false := by
      change frame.toNat.testBit k = false
      rcases Nat.lt_or_ge k 12 with small | large
      · have bit := Nat.testBit_mod_two_pow frame.toNat 12 k
        rw [show frame.toNat % 2 ^ 12 = 0 from aligned, Nat.zero_testBit] at bit
        simpa [small] using bit.symm
      · refine Nat.testBit_lt_two_pow (Nat.lt_of_lt_of_le below ?_)
        exact Nat.pow_le_pow_right (by decide) (by omega)
    rw [off, Bool.false_and]

/-- The entry `map_page_in` makes for a new table. -/
def tableEntry (new wide : Word) : Word := new ||| present ||| writable ||| wide

section TableEntry

variable {new flags : Word} (framed : Framed new)

include framed

theorem frameOf_tableEntry : frameOf (tableEntry new (flags &&& user)) = new := by
  have wide : frameOf (flags &&& user) = 0 := frameOf_and_flags (by decide)
  simp only [tableEntry, frameOf_or, framed.2, wide, show frameOf present = 0 from by decide,
    show frameOf writable = 0 from by decide, BitVec.ofNat_eq_ofNat, BitVec.or_zero]

theorem huge_tableEntry : has (tableEntry new (flags &&& user)) huge = false := by
  rw [has_huge, tableEntry]
  simp only [BitVec.getLsbD_or, BitVec.getLsbD_and, framed_bit framed (k := 7) (by decide),
    show present.getLsbD 7 = false from by decide, show writable.getLsbD 7 = false from by decide,
    show user.getLsbD 7 = false from by decide, Bool.and_false, Bool.or_false]

end TableEntry

theorem present_tableEntry (new wide : Word) : has (tableEntry new wide) present = true := by
  rw [has_present, tableEntry]
  simp only [BitVec.getLsbD_or, show present.getLsbD 0 = true from by decide, Bool.or_true,
    Bool.true_or]

theorem writable_tableEntry (new wide : Word) : has (tableEntry new wide) writable = true := by
  rw [has_writable, tableEntry]
  simp only [BitVec.getLsbD_or, show writable.getLsbD 1 = true from by decide, Bool.or_true,
    Bool.true_or]

section Widened

variable (e)

theorem frameOf_widened : frameOf (e ||| user) = frameOf e := by
  rw [frameOf_or, show frameOf user = 0 from by decide]
  exact BitVec.or_zero

theorem present_widened : has (e ||| user) present = has e present := by
  rw [has_present, has_present, BitVec.getLsbD_or, show user.getLsbD 0 = false from by decide,
    Bool.or_false]

theorem huge_widened : has (e ||| user) huge = has e huge := by
  rw [has_huge, has_huge, BitVec.getLsbD_or, show user.getLsbD 7 = false from by decide,
    Bool.or_false]

end Widened

/-- The entry `map_page_in` makes for a page. -/
def leafFor (frame flags : Word) : Word := frameOf frame ||| flags ||| present

theorem frameOf_leafFor {frame flags : Word} (clear : frameOf flags = 0) :
    frameOf (leafFor frame flags) = frameOf frame := by
  simp only [leafFor, frameOf_or, frameOf_frameOf, clear, show frameOf present = 0 from by decide,
    BitVec.ofNat_eq_ofNat, BitVec.or_zero]

theorem present_leafFor (frame flags : Word) : has (leafFor frame flags) present = true := by
  rw [has_present, leafFor]
  simp only [BitVec.getLsbD_or, show present.getLsbD 0 = true from by decide, Bool.or_true]

end Bits

end FiveAM.Memory.Entries
