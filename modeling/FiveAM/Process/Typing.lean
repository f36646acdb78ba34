/- GID: FiveAM/Process/Typing
   source: kernel/src/keyboard.rs, kernel/src/interrupts.rs, kernel/src/syscall.rs, kernel/src/task.rs
   digest: Tasks that sleep for a key while the interrupt handlers queue input. -/

import FiveAM.Process.Keyboard
import FiveAM.Process.Schedule
import FiveAM.Process.Syscalls
import FiveAM.Lib.Runs

set_option autoImplicit false
set_option relaxedAutoImplicit false

namespace FiveAM.Process.Typing

open FiveAM.Process.TaskTable FiveAM.Process.Machine FiveAM.Process.Lifecycle
open FiveAM.Process.Signals FiveAM.Process.Syscalls FiveAM.Process.Schedule
open FiveAM.Process.Keyboard FiveAM.Lib.RingBuffer FiveAM.Lib.Runs

/-- The kernel's tasks and what has been typed. -/
structure Console where
  kernel : Kernel
  input : Input

def Asleep (k : Kernel) (id : TaskId) : Prop := (k.tasks id).state = .blocked (.channel inputChannel)

instance (k : Kernel) (id : TaskId) : Decidable (Asleep k id) := inferInstanceAs (Decidable (_ = _))

/-- One byte off the UART: Ctrl-C is a signal and never becomes data. -/
def receive (c : Console) (byte : UInt8) : Console :=
  if byte = 0x03 then
    match foregroundUserTask c.kernel.tasks with
    | some target => { c with kernel := (signal c.kernel target sigint).2 }
    | none => c
  else { c with input := { c.input with serial := c.input.serial.push byte } }

def serialIrq (c : Console) (burst : List UInt8) : Console :=
  let c := burst.foldl receive c
  { c with kernel := c.kernel.wakeAll inputChannel }

def keyboardIrq (c : Console) (scancode : UInt8) : Console where
  kernel := c.kernel.wakeAll inputChannel
  input := { c.input with scancodes := c.input.scancodes.push scancode }

/-- One pass through the loop of `block_until` on the input channel. -/
def blockUntil {α : Type} (ready : Input → Option α × Input) (c : Console) : Console :=
  match ready c.input with
  | (some _, input) => { c with input := input }
  | (none, input) => ⟨park c.kernel inputChannel, input⟩

inductive Event where
  | serialIrq (burst : List UInt8)
  | keyboardIrq (scancode : UInt8)
  /-- The current task is in `wait_key`. -/
  | waitKey
  /-- The current task reads the console: for the first byte, and after it. -/
  | readFirst
  | readMore
  /-- Anything else the kernel does; nothing else blocks on the input channel. -/
  | other (k : Kernel)

def step (c : Console) : Event → Option Console
  | .serialIrq burst => some (serialIrq c burst)
  | .keyboardIrq scancode => some (keyboardIrq c scancode)
  | .waitKey => some (blockUntil nextKey c)
  | .readFirst => some (blockUntil nextByte c)
  | .readMore => some { c with input := (nextByte c.input).2 }
  | .other k => if ∀ id, Asleep k id → Asleep c.kernel id then some { c with kernel := k } else none

def Started (c : Console) : Prop := ∀ id, ¬ Asleep c.kernel id

/-- Before a task may be put to sleep, the first serial byte decodes or nothing behind it
does. -/
def Clean (c : Console) : Event → Prop
  | .waitKey | .readFirst => HeadDecodes c.input
  | _ => True

def NoneHidden (c : Console) : Prop := ∀ id, Asleep c.kernel id → c.input.typed = []

theorem keyboardIrq_keeps (c : Console) (scancode : UInt8) :
    c.input.scancodes.contents <+: (keyboardIrq c scancode).input.scancodes.contents := by
  rw [keyboardIrq, Ring.contents_push]
  split_ifs
  · exact List.prefix_append _ _
  · exact List.prefix_rfl

theorem serialIrq_keeps (c : Console) (burst : List UInt8) :
    c.input.serial.contents <+: (serialIrq c burst).input.serial.contents := by
  unfold serialIrq
  dsimp only
  induction burst generalizing c with
  | nil => exact List.prefix_rfl
  | cons byte rest ih =>
      refine List.IsPrefix.trans ?_ (ih (receive c byte))
      unfold receive
      split_ifs
      · cases foregroundUserTask c.kernel.tasks <;> exact List.prefix_rfl
      · dsimp only
        rw [Ring.contents_push]
        split_ifs
        · exact List.prefix_append _ _
        · exact List.prefix_rfl

private theorem awake_after_wake (k : Kernel) (id : TaskId) :
    ¬ Asleep (k.wakeAll inputChannel) id := by
  intro asleep
  simp only [Asleep, Kernel.wakeAll] at asleep
  split_ifs at asleep with same
  exact same asleep

private theorem typed_after {input : Input} (none : input.typed = []) :
    (nextKey input).2.typed = [] :=
  (List.append_eq_nil_iff.mp ((nextKey_spec input).1.symm.trans none)).2

theorem blockUntil_hidden {α : Type} {ready : Input → Option α × Input} {c : Console}
    (input : (ready c.input).2 = (nextKey c.input).2)
    (answer : (ready c.input).1 = none ↔ (nextKey c.input).1 = none)
    (clean : HeadDecodes c.input) (held : NoneHidden c) : NoneHidden (blockUntil ready c) := by
  intro id asleep
  unfold blockUntil at asleep ⊢
  cases found : ready c.input with
  | mk first rest =>
      rw [found] at input answer asleep
      simp only at input answer
      subst input
      cases first with
      | none => exact typed_after ((nextKey_none_iff c.input).mpr clean (answer.mp rfl))
      | some _ => exact typed_after (held id asleep)

theorem step_hidden {c c' : Console} {e : Event} (held : NoneHidden c) (clean : Clean c e)
    (taken : step c e = some c') : NoneHidden c' := by
  cases e with
  | serialIrq burst =>
      obtain rfl := Option.some.inj taken
      exact fun id asleep => absurd asleep (awake_after_wake _ id)
  | keyboardIrq scancode =>
      obtain rfl := Option.some.inj taken
      exact fun id asleep => absurd asleep (awake_after_wake _ id)
  | waitKey =>
      obtain rfl := Option.some.inj taken
      exact blockUntil_hidden rfl Iff.rfl clean held
  | readFirst =>
      obtain rfl := Option.some.inj taken
      exact blockUntil_hidden rfl (nextByte_none c.input) clean held
  | readMore =>
      obtain rfl := Option.some.inj taken
      exact fun id asleep => typed_after (held id asleep)
  | other k =>
      simp only [step] at taken
      split_ifs at taken with quiet
      obtain rfl := Option.some.inj taken
      exact fun id asleep => held id (quiet id asleep)

/-- A call that finds no key, of `next_key` or `next_byte`, leaves none behind exactly when
the first serial byte decodes or nothing behind it does; in every run in which that is so
whenever a task may be put to sleep, nobody sleeps for a key while one is waiting; and
repeated calls return the decodable inputs of each queue in order. -/
theorem next_key_none_iff (input : Input) :
    (((nextKey input).1 = none → input.typed = []) ↔ HeadDecodes input) ∧
      (((nextByte input).1 = none → input.typed = []) ↔ HeadDecodes input) ∧
      (∀ n, input.waiting ≤ n → calls n input = input.typed) ∧
      ∀ c, Reached step Started Clean c → ∀ id, Asleep c.kernel id → c.input.typed = [] := by
  refine ⟨nextKey_none_iff input, ?_, fun n enough => calls_eq enough, fun c reached => ?_⟩
  · rw [nextByte_none]
    exact nextKey_none_iff input
  · exact reached.invariant (P := NoneHidden)
      (fun c started id asleep => absurd asleep (started id))
      fun c e c' held clean taken => step_hidden held clean taken

/-- The console before anything is typed, task 1 running. -/
def quiet : Console := ⟨quietKernel, Input.fresh⟩

/-- An escape and a letter in one burst: the waiting task drops the escape and goes to
sleep with the letter queued. -/
theorem next_key_hides_letter :
    ∃ c, Reached step Started (fun _ _ => True) c ∧ Asleep c.kernel 1 ∧
      c.input.typed = [.char 0x61] := by
  have run : (runAll step quiet [.serialIrq [0x1b, 0x61], .waitKey]).any (fun c =>
      decide (Asleep c.kernel 1 ∧ c.input.typed = [.char 0x61])) = true := by decide +kernel
  have started : Started quiet := by
    change ∀ id, ¬ Asleep quiet.kernel id
    decide
  obtain ⟨c, reached, hidden⟩ := Reached.freely Started started run
  exact ⟨c, reached, of_decide_eq_true hidden⟩

end FiveAM.Process.Typing
