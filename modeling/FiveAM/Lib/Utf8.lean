/- GID: FiveAM/Lib/Utf8
   layer: library
   digest: Decoding UTF-8 with replacement, and that it takes back what encoding gave. -/

import Mathlib.Data.List.Basic
import Mathlib.Data.Fintype.Basic
import Mathlib.Tactic.SplitIfs

set_option autoImplicit false
set_option relaxedAutoImplicit false

namespace FiveAM.Lib.Utf8

abbrev CodePoint := Fin 0x110000

section Decoding

/-- What a lead byte announces: the bytes that follow, the range of the first of them, and
the bits it carries itself. -/
structure Lead where
  needed : Nat
  low : Nat
  high : Nat
  bits : Nat

def lead (a : Nat) : Option Lead :=
  if 0xc2 ≤ a ∧ a ≤ 0xdf then some ⟨1, 0x80, 0xbf, a - 0xc0⟩
  else if a = 0xe0 then some ⟨2, 0xa0, 0xbf, 0⟩
  else if a = 0xed then some ⟨2, 0x80, 0x9f, 0xd⟩
  else if 0xe1 ≤ a ∧ a ≤ 0xef then some ⟨2, 0x80, 0xbf, a - 0xe0⟩
  else if a = 0xf0 then some ⟨3, 0x90, 0xbf, 0⟩
  else if a = 0xf4 then some ⟨3, 0x80, 0x8f, 4⟩
  else if 0xf1 ≤ a ∧ a ≤ 0xf3 then some ⟨3, 0x80, 0xbf, a - 0xf0⟩
  else none

/-- As many of the following bytes as can belong to the lead byte. -/
def follow : Nat → Nat → Nat → List UInt8 → List UInt8
  | 0, _, _, _ => []
  | _ + 1, _, _, [] => []
  | needed + 1, low, high, b :: rest =>
      if low ≤ b.toNat ∧ b.toNat ≤ high then b :: follow needed 0x80 0xbf rest else []

theorem wrapped (n : Nat) : n % 0x110000 < 0x110000 := Nat.mod_lt n (by decide)

def ofNat (n : Nat) : CodePoint := ⟨n % 0x110000, wrapped n⟩

def replacement : CodePoint := ofNat 0xfffd

/-- The code point at the head, and how many bytes stand for it. -/
def first (a : UInt8) (rest : List UInt8) : CodePoint × Nat :=
  if a.toNat < 0x80 then (ofNat a.toNat, 1)
  else
    match lead a.toNat with
    | none => (replacement, 1)
    | some l =>
        let more := follow l.needed l.low l.high rest
        if more.length = l.needed then
          (ofNat (more.foldl (fun n b => n * 64 + b.toNat % 64) l.bits), more.length + 1)
        else (replacement, more.length + 1)

def decodeFrom : Nat → List UInt8 → List CodePoint
  | 0, _ => []
  | _ + 1, [] => []
  | fuel + 1, a :: rest =>
      (first a rest).1 :: decodeFrom fuel (rest.drop ((first a rest).2 - 1))

/-- Every sequence of bytes that is no beginning of a character is replaced as a whole. -/
def decode (bytes : List UInt8) : List CodePoint := decodeFrom bytes.length bytes

theorem decodeFrom_enough {fuel : Nat} {bytes : List UInt8} (enough : bytes.length ≤ fuel) :
    decodeFrom fuel bytes = decode bytes := by
  suffices any : ∀ (f g : Nat) (bytes : List UInt8), bytes.length ≤ f → bytes.length ≤ g →
      decodeFrom f bytes = decodeFrom g bytes from any _ _ bytes enough le_rfl
  intro f
  induction f with
  | zero =>
      intro g bytes none _
      rw [List.length_eq_zero_iff.mp (Nat.le_zero.mp none)]
      cases g <;> rfl
  | succ f ih =>
      intro g bytes short short'
      cases bytes with
      | nil => cases g <;> rfl
      | cons a rest =>
          cases g with
          | zero => simp at short'
          | succ g =>
              rw [List.length_cons] at short short'
              have shorter : (rest.drop ((first a rest).2 - 1)).length ≤ rest.length :=
                List.length_drop.trans_le (Nat.sub_le _ _)
              rw [decodeFrom, decodeFrom, ih g _ (by omega) (by omega)]

theorem decode_cons (a : UInt8) (rest : List UInt8) :
    decode (a :: rest) = (first a rest).1 :: decode (rest.drop ((first a rest).2 - 1)) := by
  rw [decode, List.length_cons, decodeFrom]
  exact congrArg _ (decodeFrom_enough (List.length_drop.trans_le (Nat.sub_le _ _)))

end Decoding

section Encoding

def ofChar (c : Char) : CodePoint :=
  ⟨c.val.toNat, by
    have valid := c.valid
    simp only [UInt32.isValidChar, Nat.isValidChar] at valid
    omega⟩

private theorem toNat_byte {b : Nat} (byte : b < 256) : (UInt8.ofNat b).toNat = b := by
  rw [UInt8.toNat_ofNat']
  omega

private theorem follow_in {needed low high b : Nat} {rest : List UInt8} (byte : b < 256)
    (above : low ≤ b) (below : b ≤ high) :
    follow (needed + 1) low high (UInt8.ofNat b :: rest) =
      UInt8.ofNat b :: follow needed 0x80 0xbf rest := by
  rw [follow, toNat_byte byte, if_pos ⟨above, below⟩]

private theorem follow_tail (needed n : Nat) (rest : List UInt8) :
    follow (needed + 1) 0x80 0xbf (UInt8.ofNat (n % 0x40 + 0x80) :: rest) =
      UInt8.ofNat (n % 0x40 + 0x80) :: follow needed 0x80 0xbf rest :=
  follow_in (by omega) (by omega) (by omega)

private theorem follow_done (low high : Nat) (rest : List UInt8) : follow 0 low high rest = [] := by
  cases rest <;> rfl

private theorem lead_two {a : Nat} (range : 0xc2 ≤ a ∧ a ≤ 0xdf) :
    lead a = some ⟨1, 0x80, 0xbf, a - 0xc0⟩ := if_pos range

private theorem lead_three {a : Nat} (range : 0xe0 ≤ a ∧ a ≤ 0xef) :
    ∃ low high, lead a = some ⟨2, low, high, a - 0xe0⟩ ∧
      low = (if a = 0xe0 then 0xa0 else 0x80) ∧ high = if a = 0xed then 0x9f else 0xbf := by
  unfold lead
  rw [if_neg (by omega)]
  by_cases start : a = 0xe0
  · subst start
    exact ⟨_, _, if_pos rfl, rfl, rfl⟩
  · rw [if_neg start]
    by_cases surrogate : a = 0xed
    · subst surrogate
      exact ⟨_, _, if_pos rfl, rfl, rfl⟩
    · rw [if_neg surrogate, if_pos (by omega)]
      exact ⟨_, _, rfl, by rw [if_neg start], by rw [if_neg surrogate]⟩

private theorem lead_four {a : Nat} (range : 0xf0 ≤ a ∧ a ≤ 0xf4) :
    ∃ low high, lead a = some ⟨3, low, high, a - 0xf0⟩ ∧
      low = (if a = 0xf0 then 0x90 else 0x80) ∧ high = if a = 0xf4 then 0x8f else 0xbf := by
  unfold lead
  rw [if_neg (by omega), if_neg (by omega), if_neg (by omega), if_neg (by omega)]
  by_cases start : a = 0xf0
  · subst start
    exact ⟨_, _, if_pos rfl, rfl, rfl⟩
  · rw [if_neg start]
    by_cases last : a = 0xf4
    · subst last
      exact ⟨_, _, if_pos rfl, rfl, rfl⟩
    · rw [if_neg last, if_pos (by omega)]
      exact ⟨_, _, rfl, by rw [if_neg start], by rw [if_neg last]⟩

theorem decode_char (c : Char) (rest : List UInt8) :
    decode (String.utf8EncodeChar c ++ rest) = ofChar c :: decode rest := by
  obtain ⟨v, number⟩ : ∃ v, c.val.toNat = v := ⟨_, rfl⟩
  have valid : v < 0xd800 ∨ 0xdfff < v ∧ v < 0x110000 := by
    have valid := c.valid
    simp only [UInt32.isValidChar, Nat.isValidChar, number] at valid
    exact valid
  have point : ∀ n, n = v → ofNat n = ofChar c := by
    rintro n rfl
    refine Fin.ext ((Nat.mod_eq_of_lt ?_).trans number.symm)
    omega
  unfold String.utf8EncodeChar
  simp only [number]
  split_ifs with one two three
  · have byte : (UInt8.ofNat v).toNat = v := toNat_byte (by omega)
    rw [List.singleton_append, decode_cons, first, byte, if_pos (by omega)]
    exact congrArg (· :: _) (point v rfl)
  · have byte : (UInt8.ofNat (v / 64 % 0x20 + 0xc0)).toNat = v / 64 % 0x20 + 0xc0 :=
      toNat_byte (by omega)
    have last : (UInt8.ofNat (v % 0x40 + 0x80)).toNat = v % 0x40 + 0x80 := toNat_byte (by omega)
    rw [List.cons_append, List.cons_append, List.nil_append, decode_cons, first, byte,
      if_neg (by omega), lead_two (by omega)]
    simp only [follow_tail, follow_done, List.length_cons, List.length_nil, Nat.zero_add, if_true,
      List.foldl_cons, List.foldl_nil, last]
    exact congrArg₂ List.cons (point _ (by omega)) rfl
  · have byte : (UInt8.ofNat (v / 4096 % 0x10 + 0xe0)).toNat = v / 4096 % 0x10 + 0xe0 :=
      toNat_byte (by omega)
    have middle : (UInt8.ofNat (v / 64 % 0x40 + 0x80)).toNat = v / 64 % 0x40 + 0x80 :=
      toNat_byte (by omega)
    have last : (UInt8.ofNat (v % 0x40 + 0x80)).toNat = v % 0x40 + 0x80 := toNat_byte (by omega)
    obtain ⟨low, high, shape, least, greatest⟩ :=
      lead_three (a := v / 4096 % 0x10 + 0xe0) (by omega)
    have above : low ≤ v / 64 % 0x40 + 0x80 := by
      rw [least]
      split_ifs <;> omega
    have below : v / 64 % 0x40 + 0x80 ≤ high := by
      rw [greatest]
      split_ifs <;> omega
    simp only [List.cons_append, List.nil_append]
    rw [decode_cons, first, byte, if_neg (by omega), shape]
    simp only [follow_in (show v / 64 % 0x40 + 0x80 < 256 by omega) above below, follow_tail,
      follow_done, List.length_cons, List.length_nil, Nat.zero_add, if_true, List.foldl_cons,
      List.foldl_nil, middle, last]
    exact congrArg₂ List.cons (point _ (by omega)) rfl
  · have byte : (UInt8.ofNat (v / 262144 % 0x08 + 0xf0)).toNat = v / 262144 % 0x08 + 0xf0 :=
      toNat_byte (by omega)
    have second : (UInt8.ofNat (v / 4096 % 0x40 + 0x80)).toNat = v / 4096 % 0x40 + 0x80 :=
      toNat_byte (by omega)
    have third : (UInt8.ofNat (v / 64 % 0x40 + 0x80)).toNat = v / 64 % 0x40 + 0x80 :=
      toNat_byte (by omega)
    have last : (UInt8.ofNat (v % 0x40 + 0x80)).toNat = v % 0x40 + 0x80 := toNat_byte (by omega)
    obtain ⟨low, high, shape, least, greatest⟩ :=
      lead_four (a := v / 262144 % 0x08 + 0xf0) (by omega)
    have above : low ≤ v / 4096 % 0x40 + 0x80 := by
      rw [least]
      split_ifs <;> omega
    have below : v / 4096 % 0x40 + 0x80 ≤ high := by
      rw [greatest]
      split_ifs <;> omega
    simp only [List.cons_append, List.nil_append]
    rw [decode_cons, first, byte, if_neg (by omega), shape]
    simp only [follow_in (show v / 4096 % 0x40 + 0x80 < 256 by omega) above below, follow_tail,
      follow_done, List.length_cons, List.length_nil, Nat.zero_add, if_true, List.foldl_cons,
      List.foldl_nil, second, third, last]
    exact congrArg₂ List.cons (point _ (by omega)) rfl

theorem decode_encode (text : List Char) :
    decode (text.flatMap String.utf8EncodeChar) = text.map ofChar := by
  induction text with
  | nil => rfl
  | cons c rest ih => rw [List.flatMap_cons, decode_char, ih, List.map_cons]

end Encoding

end FiveAM.Lib.Utf8
