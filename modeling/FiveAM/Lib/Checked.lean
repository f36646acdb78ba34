/- GID: FiveAM/Lib/Checked
   layer: library
   digest: Arithmetic and slices that panic instead of leaving their range. -/

import FiveAM.Lib.ByteRegions
import Mathlib.Algebra.Group.Nat.Defs

set_option autoImplicit false
set_option relaxedAutoImplicit false

namespace FiveAM.Lib.Checked

open FiveAM.Lib.ByteRegions

variable {α : Type*}

/-- A result that has to fit an unsigned integer of so many bits; `none` is the panic. -/
def fit (bits n : Nat) : Option Nat := if n < 2 ^ bits then some n else none

def minus (a b : Nat) : Option Nat := if b ≤ a then some (a - b) else none

/-- `bytes[start..stop]`. -/
def part (bytes : List α) (start stop : Nat) : Option (List α) :=
  if start ≤ stop ∧ stop ≤ bytes.length then some ((bytes.take stop).drop start) else none

/-- `buffer[start..start + bytes.len()].copy_from_slice(bytes)`. -/
def copyTo (buffer : List UInt8) (start : Nat) (bytes : List UInt8) : Option (List UInt8) :=
  if start + bytes.length ≤ buffer.length then some (splice buffer start bytes) else none

theorem fit_eq {bits n : Nat} (small : n < 2 ^ bits) : fit bits n = some n := if_pos small

theorem minus_eq {a b : Nat} (below : b ≤ a) : minus a b = some (a - b) := if_pos below

theorem part_eq {bytes : List α} {start stop : Nat} (order : start ≤ stop)
    (inside : stop ≤ bytes.length) :
    part bytes start stop = some ((bytes.take stop).drop start) := if_pos ⟨order, inside⟩

theorem copyTo_eq {buffer bytes : List UInt8} {start : Nat}
    (inside : start + bytes.length ≤ buffer.length) :
    copyTo buffer start bytes = some (splice buffer start bytes) := if_pos inside

theorem splice_take {buffer bytes : List UInt8} {start : Nat}
    (inside : start + bytes.length ≤ buffer.length) :
    (splice buffer start bytes).take (start + bytes.length) = buffer.take start ++ bytes := by
  have front : (buffer.take start ++ bytes).length = start + bytes.length := by
    rw [List.length_append, List.length_take]
    omega
  rw [splice, ← front, List.take_left]

end FiveAM.Lib.Checked
