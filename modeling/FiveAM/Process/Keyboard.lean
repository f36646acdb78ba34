/- GID: FiveAM/Process/Keyboard
   source: kernel/src/keyboard.rs, kernel/src/serial.rs
   digest: Typed keys out of the serial queue and the scancode queue. -/

import FiveAM.Lib.RingBuffer

set_option autoImplicit false
set_option relaxedAutoImplicit false

namespace FiveAM.Process.Keyboard

open FiveAM.Lib.RingBuffer FiveAM.Lib.RingBuffer.Ring

/-- `CAPACITY` of the scancode queue. -/
abbrev capacity : Nat := 128

abbrev inputCapacity : Nat := 256

/-- What a key event turned into; a character is its ASCII code. -/
inductive Key where
  | char (c : UInt8)
  | enter
  | backspace
  deriving DecidableEq, Repr

structure Input where
  serial : Ring UInt8 inputCapacity
  scancodes : Ring UInt8 capacity
  shift : Bool

theorem inputCapacity_pos : 0 < inputCapacity := by decide

theorem capacity_pos : 0 < capacity := by decide

def Input.fresh : Input where
  serial := ⟨fun _ => 0, ⟨0, inputCapacity_pos⟩, ⟨0, inputCapacity_pos⟩⟩
  scancodes := ⟨fun _ => 0, ⟨0, capacity_pos⟩, ⟨0, capacity_pos⟩⟩
  shift := false

section Decoding

def unshifted : List Nat :=
  "\x00\x1b1234567890-=\x08\tqwertyuiop[]\n\x00asdfghjkl;\x27\x60\x00\\zxcvbnm,./".toList.map
    Char.toNat

def shifted : List Nat :=
  "\x00\x1b!@#$%^&*()_+\x08\tQWERTYUIOP\x7b\x7d\n\x00ASDFGHJKL:\"~\x00|ZXCVBNM<>?".toList.map
    Char.toNat

def translate (code : UInt8) (shift : Bool) : Option UInt8 :=
  let table := if shift then shifted else unshifted
  if code = 0x39 then some 0x20
  else
    match table[code.toNat]? with
    | none => none
    | some 0 => none
    | some byte => some (UInt8.ofNat byte)

def serialKey (byte : UInt8) : Option Key :=
  if byte = 0x0d ∨ byte = 0x0a then some .enter
  else if byte = 0x08 ∨ byte = 0x7f then some .backspace
  else if 0x20 ≤ byte ∧ byte ≤ 0x7e then some (.char byte)
  else none

/-- One turn of the loop in `read_key`: the key the scancode is, if it is one, and the
shift state behind it. -/
def turn (shift : Bool) (scancode : UInt8) : Option Key × Bool :=
  let released := decide (scancode &&& 0x80 ≠ 0)
  let code := scancode &&& 0x7f
  if code = 0x2a ∨ code = 0x36 then (none, !released)
  else if released then (none, shift)
  else if code = 0x1c then (some .enter, shift)
  else if code = 0x0e then (some .backspace, shift)
  else ((translate code shift).map .char, shift)

/-- The keys a sequence of scancodes is, from a shift state on. -/
def keys (shift : Bool) : List UInt8 → List Key
  | [] => []
  | scancode :: rest =>
      match turn shift scancode with
      | (some key, shift) => key :: keys shift rest
      | (none, shift) => keys shift rest

end Decoding

section Reading

theorem pop_shrinks {q q' : Ring UInt8 capacity} {x : UInt8} (popped : q.pop = some (x, q')) :
    q'.size < q.size := by
  have taken := congrArg List.length (pop_some popped)
  rw [List.length_cons, length_contents, length_contents] at taken
  omega

/-- Pop scancodes up to the first that is a key. -/
def readKey (input : Input) : Option Key × Input :=
  match _popped : input.scancodes.pop with
  | none => (none, input)
  | some (scancode, scancodes) =>
      match turn input.shift scancode with
      | (some key, shift) => (some key, { input with scancodes := scancodes, shift := shift })
      | (none, shift) => readKey { input with scancodes := scancodes, shift := shift }
termination_by input.scancodes.size
decreasing_by exact pop_shrinks ‹_›

def nextKey (input : Input) : Option Key × Input :=
  match input.serial.pop with
  | some (byte, serial) => (serialKey byte, { input with serial := serial })
  | none => readKey input

def Key.byte : Key → UInt8
  | .char c => c
  | .enter => 0x0a
  | .backspace => 0x08

/-- One byte of typed input, from either console. -/
def nextByte (input : Input) : Option UInt8 × Input :=
  ((nextKey input).1.map Key.byte, (nextKey input).2)

end Reading

section Queued

def serialKeys (bytes : List UInt8) : List Key := bytes.filterMap serialKey

/-- The keys in both queues, each in the order they were typed. -/
def Input.typed (input : Input) : List Key :=
  serialKeys input.serial.contents ++ keys input.shift input.scancodes.contents

/-- The first byte of the serial queue decodes, or nothing behind it does. -/
def HeadDecodes (input : Input) : Prop :=
  ∀ byte rest, input.serial.contents = byte :: rest → serialKey byte = none →
    (∀ other ∈ rest, serialKey other = none) ∧ keys input.shift input.scancodes.contents = []

private theorem readKey_empty {input : Input} (empty : input.scancodes.pop = none) :
    readKey input = (none, input) := by
  rw [readKey]
  split
  · rfl
  · simp_all

private theorem readKey_turn {input : Input} {scancode : UInt8} {scancodes : Ring UInt8 capacity}
    (popped : input.scancodes.pop = some (scancode, scancodes)) :
    readKey input =
      match turn input.shift scancode with
      | (some key, shift) => (some key, { input with scancodes := scancodes, shift := shift })
      | (none, shift) => readKey { input with scancodes := scancodes, shift := shift } := by
  rw [readKey]
  split
  · simp_all
  · rename_i same
    obtain ⟨rfl, rfl⟩ := Prod.mk.inj (Option.some.inj (popped.symm.trans same))
    rfl

theorem readKey_spec (input : Input) :
    (readKey input).2.serial = input.serial ∧
      keys input.shift input.scancodes.contents = (readKey input).1.toList ++
        keys (readKey input).2.shift (readKey input).2.scancodes.contents ∧
      ((readKey input).1 = none → (readKey input).2.scancodes.contents = []) ∧
      (readKey input).2.scancodes.size ≤ input.scancodes.size - 1 := by
  induction input using readKey.induct with
  | case1 input popped =>
      have none := (pop_none _).mp popped
      rw [readKey_empty popped]
      exact ⟨rfl, by simp, fun _ => none, by simp [← length_contents, none]⟩
  | case2 input scancode scancodes popped key shift taken =>
      have shorter := pop_shrinks popped
      rw [readKey_turn popped, taken]
      exact ⟨rfl, by rw [pop_some popped, keys, taken]; rfl, nofun, by simp only; omega⟩
  | case3 input scancode scancodes popped shift taken ih =>
      have shorter := pop_shrinks popped
      rw [readKey_turn popped, taken]
      obtain ⟨serial, same, last, size⟩ := ih
      refine ⟨serial, ?_, last, by simp only at size ⊢; omega⟩
      rw [pop_some popped, keys, taken]
      exact same

/-- A call takes the first of the keys in both queues, unless an undecodable byte stands
before them. -/
theorem nextKey_spec (input : Input) :
    input.typed = (nextKey input).1.toList ++ (nextKey input).2.typed ∧
      (∀ byte rest, input.serial.contents = byte :: rest →
        (nextKey input).1 = serialKey byte) ∧
      ((nextKey input).1 = none → input.serial.contents = [] → input.typed = []) := by
  cases popped : input.serial.pop with
  | none =>
      have none := (pop_none _).mp popped
      obtain ⟨serial, same, last, _⟩ := readKey_spec input
      simp only [nextKey, popped]
      refine ⟨?_, fun byte rest here => absurd (here.symm.trans none) (List.cons_ne_nil _ _),
        fun missed _ => ?_⟩
      · simp only [Input.typed, serial, none, serialKeys, List.filterMap_nil, List.nil_append]
        exact same
      · simp [Input.typed, none, serialKeys, same, missed, last missed, keys]
  | some found =>
      obtain ⟨byte, serial⟩ := found
      have taken := pop_some popped
      simp only [nextKey, popped]
      refine ⟨?_, fun other rest here => ?_, fun _ empty => ?_⟩
      · simp only [Input.typed, taken, serialKeys, List.filterMap_cons]
        cases serialKey byte with
        | none => rfl
        | some key => rfl
      · obtain ⟨rfl, -⟩ := List.cons_eq_cons.mp (here.symm.trans taken)
        rfl
      · exact absurd (taken.symm.trans empty) (List.cons_ne_nil _ _)

theorem nextByte_none (input : Input) : (nextByte input).1 = none ↔ (nextKey input).1 = none := by
  simp [nextByte]

/-- A call that finds no key leaves none behind exactly when the first serial byte decodes
or nothing behind it does. -/
theorem nextKey_none_iff (input : Input) :
    ((nextKey input).1 = none → input.typed = []) ↔ HeadDecodes input := by
  obtain ⟨_, head, empty⟩ := nextKey_spec input
  have split : ∀ byte rest, input.serial.contents = byte :: rest → serialKey byte = none →
      (input.typed = [] ↔ (∀ other ∈ rest, serialKey other = none) ∧
        keys input.shift input.scancodes.contents = []) := by
    intro byte rest here undecoded
    rw [Input.typed, here, serialKeys, List.filterMap_cons, undecoded, List.append_eq_nil_iff,
      List.filterMap_eq_nil_iff]
  constructor
  · intro honest byte rest here undecoded
    exact (split byte rest here undecoded).mp (honest ((head byte rest here).trans undecoded))
  · intro decodes missed
    cases here : input.serial.contents with
    | nil => exact empty missed here
    | cons byte rest =>
        have undecoded := (head byte rest here).symm.trans missed
        exact (split byte rest here undecoded).mpr (decodes byte rest here undecoded)

def calls : Nat → Input → List Key
  | 0, _ => []
  | n + 1, input => (nextKey input).1.toList ++ calls n (nextKey input).2

def Input.waiting (input : Input) : Nat := input.serial.size + input.scancodes.size

theorem nextKey_waiting (input : Input) : (nextKey input).2.waiting ≤ input.waiting - 1 := by
  cases popped : input.serial.pop with
  | none =>
      have none : input.serial.size = 0 := by
        rw [← length_contents, (pop_none _).mp popped, List.length_nil]
      obtain ⟨serial, _, _, shorter⟩ := readKey_spec input
      simp only [nextKey, popped, Input.waiting, serial]
      omega
  | some found =>
      have taken := congrArg List.length (pop_some popped)
      rw [List.length_cons, length_contents, length_contents] at taken
      simp only [nextKey, popped, Input.waiting]
      omega

theorem calls_eq {n : Nat} {input : Input} (enough : input.waiting ≤ n) :
    calls n input = input.typed := by
  induction n generalizing input with
  | zero =>
      have serial : input.serial.contents = [] :=
        List.length_eq_zero_iff.mp (by rw [length_contents]; unfold Input.waiting at enough; omega)
      have scancodes : input.scancodes.contents = [] :=
        List.length_eq_zero_iff.mp (by rw [length_contents]; unfold Input.waiting at enough; omega)
      simp [calls, Input.typed, serial, scancodes, serialKeys, keys]
  | succ n ih =>
      have fewer := nextKey_waiting input
      rw [calls, ih (by omega)]
      exact (nextKey_spec input).1.symm

end Queued

end FiveAM.Process.Keyboard
