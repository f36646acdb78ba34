/- GID: FiveAM/Process/SignalChoice
   source: kernel/src/signal.rs, kernel/src/task.rs
   digest: Which pending signal is delivered, and when SIGKILL is kept waiting. -/

import FiveAM.Process.System
import FiveAM.Lib.Runs

set_option autoImplicit false
set_option relaxedAutoImplicit false

namespace FiveAM.Process.SignalChoice

open FiveAM.Process.TaskTable FiveAM.Process.Machine FiveAM.Process.Signals
open FiveAM.Lib.ByteMemory FiveAM.Lib.Runs

section Lowest

theorem trailingZeros_spec {w : BitVec 32} (some' : w ≠ 0) :
    w.getLsbD (trailingZeros w) = true ∧ ∀ j, j < trailingZeros w → w.getLsbD j = false := by
  unfold trailingZeros
  cases found : (List.range 32).find? fun i => w.getLsbD i with
  | none =>
      exfalso
      apply some'
      apply BitVec.eq_of_getLsbD_eq
      intro i low
      have absent := List.find?_eq_none.mp found i (List.mem_range.mpr low)
      simpa using absent
  | some n =>
      obtain ⟨here, -, before⟩ := List.find?_range_eq_some.mp found
      refine ⟨here, fun j below => ?_⟩
      simpa using before j below

theorem trailingZeros_eq {w : BitVec 32} {i : Nat} (here : w.getLsbD i = true)
    (first : ∀ j, j < i → w.getLsbD j = false) : trailingZeros w = i := by
  have some' : w ≠ 0 := by
    rintro rfl
    simp at here
  obtain ⟨there, before⟩ := trailingZeros_spec some'
  rcases Nat.lt_trichotomy (trailingZeros w) i with below | same | above
  · rw [first _ below] at there
    cases there
  · exact same
  · rw [before i above] at here
    cases here

theorem bit_getLsbD {n i : Nat} (low : i < 32) : (1#32 <<< n).getLsbD i = decide (i = n) := by
  rw [BitVec.getLsbD_shiftLeft, BitVec.getLsbD_one, Bool.eq_iff_iff]
  simp only [Bool.and_eq_true, Bool.not_eq_true', decide_eq_true_eq, decide_eq_false_iff_not]
  omega

theorem put_back {w : BitVec 32} {n : Nat} (here : w.getLsbD n = true) :
    (w &&& ~~~(1#32 <<< n)) ||| 1#32 <<< n = w := by
  apply BitVec.eq_of_getLsbD_eq
  intro i low
  rw [BitVec.getLsbD_or, BitVec.getLsbD_and, BitVec.getLsbD_not, bit_getLsbD low]
  by_cases same : i = n
  · subst same
    simp [here]
  · simp [same, low]

end Lowest

section Deciding

/-- Returning through this frame runs the program's next instruction in ring 3. -/
def UserMode (k : Kernel) (frame : Word) : Prop := readFrame k.view frame frameCs &&& 3 = 3

instance decidableUserMode (k : Kernel) (frame : Word) : Decidable (UserMode k frame) :=
  inferInstanceAs (Decidable (_ = _))

def Pending (task : Task) (number : Nat) : Prop := task.pending.getLsbD number = true

instance decidablePending (task : Task) (number : Nat) : Decidable (Pending task number) :=
  inferInstanceAs (Decidable (_ = _))

/-- The program has no handler for the signal, or nothing to return from one through. -/
def Unhandled (k : Kernel) (id : TaskId) (number : Nat) : Prop :=
  signalHandler k id number = 0 ∨ signalRestorer k id = 0

/-- SIGKILL waits behind a signal of a lower number that the program handles. -/
def Shadowed (k : Kernel) (id : TaskId) : Prop :=
  Pending (k.tasks id) sigkill ∧ ∃ i, i < sigkill ∧ Pending (k.tasks id) i ∧
    (∀ j, j < i → ¬Pending (k.tasks id) j) ∧ ¬Unhandled k id i

/-- What a delivery should do: nothing in kernel mode; otherwise take one signal, and end
the task if SIGKILL is pending or if the signal it takes is not handled. -/
structure Decides (k : Kernel) (id : TaskId) (frame : Word) : Prop where
  kernel : ¬UserMode k frame → (deliver k id frame).1 = false ∧
    ((deliver k id frame).2.tasks id).pending = (k.tasks id).pending ∧
    (deliver k id frame).2.memory = k.memory
  user : UserMode k frame → (k.tasks id).pending ≠ 0 → ∃ n, Pending (k.tasks id) n ∧
    ((deliver k id frame).2.tasks id).pending = (k.tasks id).pending &&& ~~~(1#32 <<< n) ∧
    (Pending (k.tasks id) sigkill → (deliver k id frame).1 = true) ∧
    (¬Pending (k.tasks id) sigkill → ((deliver k id frame).1 = true ↔ Unhandled k id n))

variable {k : Kernel} {id : TaskId} {frame : Word}

theorem fatal_iff (k : Kernel) (id : TaskId) :
    Fatal (k.tasks id) ↔ trailingZeros (k.tasks id).pending = sigkill ∨
      Unhandled k id (trailingZeros (k.tasks id).pending) := by
  unfold Fatal Unhandled signalHandler signalRestorer
  dsimp only
  tauto

theorem deliver_kernel (mode : ¬UserMode k frame) :
    (deliver k id frame).1 = false ∧
      ((deliver k id frame).2.tasks id).pending = (k.tasks id).pending ∧
      (deliver k id frame).2.memory = k.memory := by
  unfold UserMode at mode
  by_cases quiet : (k.tasks id).pending = 0
  · simp only [deliver, takePendingSignal, if_pos quiet]
    trivial
  · have view : ∀ task, (k.setTask id task).view = k.view := fun _ => rfl
    simp only [deliver, takePendingSignal, if_neg quiet, view]
    rw [if_pos mode]
    refine ⟨rfl, ?_, rfl⟩
    simp only [setPendingSignal, Kernel.setTask, Function.update_self]
    obtain ⟨here, -⟩ := trailingZeros_spec quiet
    exact put_back here

theorem deliver_takes (mode : UserMode k frame) (pending : (k.tasks id).pending ≠ 0) :
    ((deliver k id frame).2.tasks id).pending =
      (k.tasks id).pending &&& ~~~(1#32 <<< trailingZeros (k.tasks id).pending) := by
  have view : ∀ task, (k.setTask id task).view = k.view := fun _ => rfl
  unfold UserMode at mode
  simp only [deliver, takePendingSignal, if_neg pending, view]
  rw [if_neg (not_not.mpr mode)]
  split_ifs <;> simp [Kernel.setTask, Kernel.storeView]

theorem Pending.some_pending {task : Task} {n : Nat} (pending : Pending task n) :
    task.pending ≠ 0 := by
  intro none
  rw [Pending, none] at pending
  simp at pending

theorem fatal_of_unshadowed (sigkilled : Pending (k.tasks id) sigkill) (open' : ¬Shadowed k id) :
    Fatal (k.tasks id) := by
  obtain ⟨here, before⟩ := trailingZeros_spec sigkilled.some_pending
  rw [fatal_iff]
  rcases Nat.lt_trichotomy (trailingZeros (k.tasks id).pending) sigkill with below | same | above
  · right
    by_contra handled
    refine open' ⟨sigkilled, _, below, here, fun j low => ?_, handled⟩
    unfold Pending
    rw [before j low]
    exact Bool.false_ne_true
  · exact Or.inl same
  · unfold Pending at sigkilled
    rw [before sigkill above] at sigkilled
    cases sigkilled

/-- `deliver` decides as it should exactly when SIGKILL is not kept waiting behind a lower
signal with a handler, or the frame is the kernel's. -/
theorem decides_iff (k : Kernel) (id : TaskId) (frame : Word) :
    Decides k id frame ↔ (UserMode k frame → ¬Shadowed k id) := by
  constructor
  · rintro decides mode ⟨sigkilled, i, below, here, first, handled⟩
    have lowest : trailingZeros (k.tasks id).pending = i :=
      trailingZeros_eq here fun j low => Bool.eq_false_iff.mpr (first j low)
    obtain ⟨n, -, -, dies, -⟩ := decides.user mode sigkilled.some_pending
    obtain ⟨-, -, fatal⟩ := (deliver_kills_iff k id frame).mp (dies sigkilled)
    rw [fatal_iff, lowest] at fatal
    rcases fatal with same | unhandled
    · exact absurd same (Nat.ne_of_lt below)
    · exact handled unhandled
  · intro open'
    refine ⟨deliver_kernel, fun mode some' => ?_⟩
    obtain ⟨here, -⟩ := trailingZeros_spec some'
    refine ⟨_, here, deliver_takes mode some', fun sigkilled => ?_, fun spared => ?_⟩
    · exact (deliver_kills_iff k id frame).mpr
        ⟨some', mode, fatal_of_unshadowed sigkilled (open' mode)⟩
    · rw [deliver_kills_iff, fatal_iff]
      constructor
      · rintro ⟨-, -, same | unhandled⟩
        · rw [same] at here
          exact absurd here spared
        · exact unhandled
      · intro unhandled
        exact ⟨some', mode, Or.inr unhandled⟩

end Deciding

section Escaping

/-- A program, and whether it has run an instruction after a delivery that came with
SIGKILL pending. -/
structure Ran where
  kernel : Kernel
  escaped : Bool

/-- What happens to a program: somebody signals it, it asks for a handler, or the kernel
is about to resume it through a frame. -/
inductive Attempt where
  | send (number : Nat)
  | handle (number : Nat) (handler restorer : Word)
  | resume (frame : Word)

/-- A resumed program runs on unless `deliver` has it terminated. -/
def attempt (id : TaskId) (s : Ran) : Attempt → Option Ran
  | .send number => some { s with kernel := (signal s.kernel id number).2 }
  | .handle number handler restorer =>
      some { s with kernel := (setSignalHandler s.kernel id number handler restorer).2 }
  | .resume frame =>
      if UserMode s.kernel frame ∧ (deliver s.kernel id frame).1 = false then
        some ⟨(deliver s.kernel id frame).2,
          s.escaped || decide (Pending (s.kernel.tasks id) sigkill)⟩
      else none

/-- SIGKILL waits behind nothing when the program is resumed. -/
def Unshadowed (id : TaskId) (s : Ran) : Attempt → Prop
  | .resume _ => ¬Shadowed s.kernel id
  | _ => True

/-- One delivery, and what follows from it for a whole run: where SIGKILL waits behind
nothing, no instruction is run while it is pending. -/
theorem deliver_decides_iff (id : TaskId) :
    (∀ k frame, Decides k id frame ↔ (UserMode k frame → ¬Shadowed k id)) ∧
      ∀ s, Reached (attempt id) (fun s => s.escaped = false) (Unshadowed id) s →
        s.escaped = false := by
  refine ⟨fun k frame => decides_iff k id frame, fun s reached => ?_⟩
  refine reached.invariant (fun s begun => begun) fun s e s' kept open' taken => ?_
  cases e with
  | send number =>
      obtain rfl := Option.some.inj taken
      exact kept
  | handle number handler restorer =>
      obtain rfl := Option.some.inj taken
      exact kept
  | resume frame =>
      obtain ⟨⟨mode, alive⟩, same⟩ := Option.ite_none_right_eq_some.mp taken
      obtain rfl := Option.some.inj same
      have spared : ¬Pending (s.kernel.tasks id) sigkill := by
        intro sigkilled
        have dies := (deliver_kills_iff s.kernel id frame).mpr
          ⟨sigkilled.some_pending, mode, fatal_of_unshadowed sigkilled open'⟩
        rw [alive] at dies
        cases dies
      simp only [kept, Bool.false_or, decide_eq_false_iff_not]
      exact spared

private def stopped : Kernel :=
  { (System.boot ⟨writeFrame (fun _ => 0) 0x444444450f60 (Function.update (Function.update
      (fun _ => 0) frameCs userCode) frameRsp 0x7ffff000), fun _ _ => 0⟩
      (rootAt 0x1000) 0x444444451000 0).kernel with
    current := 1
    tasks := fun _ => { empty with state := .ready, addressSpace := some (rootAt 0x1000) } }

/-- A program that handles SIGINT and has SIGINT and SIGKILL pending enters its handler. -/
theorem deliver_decides_not :
    (¬∀ k id frame, Decides k id frame) ∧
      ∃ s, Reached (attempt 1) (fun s => s.escaped = false) (fun _ _ => True) s ∧
        s.escaped = true := by
  have facts : ((runAll (attempt 1) ⟨stopped, false⟩
        [.handle sigint 0x400000 0x400100, .send sigint, .send sigkill]).any fun s =>
      decide (UserMode s.kernel 0x444444450f60 ∧ (deliver s.kernel 1 0x444444450f60).1 = false ∧
        Pending (s.kernel.tasks 1) sigkill)) = true := by
    decide +kernel
  obtain ⟨s, reached, facts⟩ := Reached.freely (fun s : Ran => s.escaped = false) rfl facts
  obtain ⟨mode, alive, sigkilled⟩ := of_decide_eq_true facts
  constructor
  · intro always
    obtain ⟨n, -, -, dies, -⟩ := (always s.kernel 1 0x444444450f60).user mode sigkilled.some_pending
    rw [dies sigkilled] at alive
    cases alive
  · refine ⟨_, .step (e := .resume 0x444444450f60) reached trivial (if_pos ⟨mode, alive⟩), ?_⟩
    simp only [decide_eq_true sigkilled, Bool.or_true]

end Escaping

end FiveAM.Process.SignalChoice
