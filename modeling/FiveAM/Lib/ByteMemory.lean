/- GID: FiveAM/Lib/ByteMemory
   layer: library
   digest: Little-endian words in a byte-addressed memory, with their frame rules. -/

import Mathlib.Data.BitVec
import Mathlib.Logic.Function.Basic

set_option autoImplicit false
set_option relaxedAutoImplicit false

namespace FiveAM.Lib.ByteMemory

abbrev Bytes := Nat → BitVec 8

/-- The 64-bit little-endian word at `a`. -/
def readWord (m : Bytes) (a : Nat) : BitVec 64 :=
  BitVec.ofNat 64 ((m a).toNat + 2 ^ 8 * (m (a + 1)).toNat + 2 ^ 16 * (m (a + 2)).toNat +
    2 ^ 24 * (m (a + 3)).toNat + 2 ^ 32 * (m (a + 4)).toNat + 2 ^ 40 * (m (a + 5)).toNat +
    2 ^ 48 * (m (a + 6)).toNat + 2 ^ 56 * (m (a + 7)).toNat)

/-- Store the word `v` at `a`. -/
def writeWord (m : Bytes) (a : Nat) (v : BitVec 64) : Bytes := fun x =>
  if a ≤ x ∧ x < a + 8 then BitVec.ofNat 8 (v.toNat >>> (8 * (x - a))) else m x

theorem writeWord_outside {m : Bytes} {a x : Nat} {v : BitVec 64} (out : x < a ∨ a + 8 ≤ x) :
    writeWord m a v x = m x := by
  unfold writeWord
  rw [if_neg (by omega)]

private theorem writeWord_byte (m : Bytes) (a i : Nat) (v : BitVec 64) (inside : i < 8) :
    writeWord m a v (a + i) = BitVec.ofNat 8 (v.toNat >>> (8 * i)) := by
  unfold writeWord
  rw [if_pos (by omega), Nat.add_sub_cancel_left]

theorem readWord_congr {m m' : Bytes} {a : Nat}
    (same : ∀ x, a ≤ x → x < a + 8 → m x = m' x) : readWord m a = readWord m' a := by
  unfold readWord
  rw [same a (by omega) (by omega), same (a + 1) (by omega) (by omega),
    same (a + 2) (by omega) (by omega), same (a + 3) (by omega) (by omega),
    same (a + 4) (by omega) (by omega), same (a + 5) (by omega) (by omega),
    same (a + 6) (by omega) (by omega), same (a + 7) (by omega) (by omega)]

@[simp] theorem readWord_writeWord_self (m : Bytes) (a : Nat) (v : BitVec 64) :
    readWord (writeWord m a v) a = v := by
  have bound := v.isLt
  have first := writeWord_byte m a 0 v (by omega)
  simp only [Nat.add_zero, Nat.mul_zero, Nat.shiftRight_zero] at first
  unfold readWord
  rw [first, writeWord_byte m a 1 v (by omega), writeWord_byte m a 2 v (by omega),
    writeWord_byte m a 3 v (by omega), writeWord_byte m a 4 v (by omega),
    writeWord_byte m a 5 v (by omega), writeWord_byte m a 6 v (by omega),
    writeWord_byte m a 7 v (by omega)]
  apply BitVec.eq_of_toNat_eq
  simp only [BitVec.toNat_ofNat, Nat.shiftRight_eq_div_pow]
  omega

theorem readWord_writeWord_of_apart {m : Bytes} {a b : Nat} {v : BitVec 64}
    (apart : a + 8 ≤ b ∨ b + 8 ≤ a) : readWord (writeWord m b v) a = readWord m a :=
  readWord_congr fun _ low high => writeWord_outside (by omega)

/-- Store consecutive words from `a` up. -/
def writeWords (m : Bytes) (a : Nat) : List (BitVec 64) → Bytes
  | [] => m
  | v :: rest => writeWords (writeWord m a v) (a + 8) rest

theorem writeWords_outside {m : Bytes} {a x : Nat} {vs : List (BitVec 64)}
    (out : x < a ∨ a + 8 * vs.length ≤ x) : writeWords m a vs x = m x := by
  induction vs generalizing m a with
  | nil => rfl
  | cons v rest ih =>
      simp only [List.length_cons] at out
      rw [writeWords, ih (by omega), writeWord_outside (by omega)]

theorem readWord_writeWords {m : Bytes} {a : Nat} {vs : List (BitVec 64)} {i : Nat}
    (inside : i < vs.length) : readWord (writeWords m a vs) (a + 8 * i) = vs[i] := by
  induction vs generalizing m a i with
  | nil => simp at inside
  | cons v rest ih =>
      cases i with
      | zero =>
          have kept : readWord (writeWords (writeWord m a v) (a + 8) rest) a =
              readWord (writeWord m a v) a :=
            readWord_congr fun x low high => writeWords_outside (by omega)
          simpa [writeWords] using kept
      | succ i =>
          have step := ih (m := writeWord m a v) (a := a + 8) (i := i) (by simpa using inside)
          rw [show a + 8 * (i + 1) = a + 8 + 8 * i by omega]
          simpa [writeWords] using step

theorem writeWords_append (m : Bytes) (a : Nat) (vs : List (BitVec 64)) (v : BitVec 64) :
    writeWords m a (vs ++ [v]) = writeWord (writeWords m a vs) (a + 8 * vs.length) v := by
  induction vs generalizing m a with
  | nil => rfl
  | cons w rest ih =>
      rw [List.cons_append, writeWords, ih, writeWords, List.length_cons, Nat.add_assoc,
        Nat.mul_add, Nat.add_comm 8]

end FiveAM.Lib.ByteMemory
