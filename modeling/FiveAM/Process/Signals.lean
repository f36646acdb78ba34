/- GID: FiveAM/Process/Signals
   source: kernel/src/signal.rs, kernel/src/task.rs
   digest: Pending signals, and the trap frame rewritten to enter or leave a handler. -/

import FiveAM.Process.Machine

set_option autoImplicit false
set_option relaxedAutoImplicit false

namespace FiveAM.Process.Signals

open FiveAM.Process.TaskTable FiveAM.Process.Machine FiveAM.Lib.ByteMemory

def sigint : Nat := 2
def sigkill : Nat := 9
def sigterm : Nat := 15

def catchable (signal : Nat) : Bool := decide (signal ≠ sigkill)

def trailingZeros (w : BitVec 32) : Nat :=
  ((List.range 32).find? fun i => w.getLsbD i).getD 32

/-- Mark a signal pending, and wake the task if it is asleep. -/
def signal (k : Kernel) (id number : Nat) : Bool × Kernel :=
  if bound : id < maxTasks ∧ number < maxSignals then
    let id : TaskId := ⟨id, bound.1⟩
    let task := k.tasks id
    if task.state = .free ∨ task.state = .finished then (false, k)
    else
      let state := match task.state with
        | .blocked _ => .ready
        | other => other
      (true, k.setTask id { task with
        pending := task.pending ||| (1#32 <<< number), state := state })
  else (false, k)

def takePendingSignal (k : Kernel) (id : TaskId) : Option Nat × Kernel :=
  let task := k.tasks id
  if task.pending = 0 then (none, k)
  else
    let number := trailingZeros task.pending
    (some number, k.setTask id { task with pending := task.pending &&& ~~~(1#32 <<< number) })

def setPendingSignal (k : Kernel) (id : TaskId) (number : Nat) : Kernel :=
  k.setTask id { k.tasks id with pending := (k.tasks id).pending ||| (1#32 <<< number) }

def signalHandler (k : Kernel) (id : TaskId) (number : Nat) : Word :=
  if bound : number < maxSignals then (k.tasks id).handlers ⟨number, bound⟩ else 0

def signalRestorer (k : Kernel) (id : TaskId) : Word := (k.tasks id).restorer

def setSignalHandler (k : Kernel) (id : TaskId) (number : Nat) (handler restorer : Word) :
    Bool × Kernel :=
  if bound : number < maxSignals then
    if catchable number then
      (true, k.setTask id { k.tasks id with
        handlers := Function.update (k.tasks id).handlers ⟨number, bound⟩ handler
        restorer := restorer })
    else (false, k)
  else (false, k)

def clearSignalHandlers (k : Kernel) (id : TaskId) : Kernel :=
  k.setTask id { k.tasks id with handlers := fun _ => 0, restorer := 0 }

def copyFrame (m : Bytes) (target source : Word) : Bytes :=
  (List.finRange frameWords).foldl
    (fun m (i : Fin frameWords) => writeWord m (slot target i) (readWord m (slot source i))) m

/-- Where the interrupted frame goes on the user's own stack. -/
def savedAt (userStack : Word) : Word :=
  (userStack - BitVec.ofNat 64 (frameWords * 8)) &&& ~~~(0xF : Word)

/-- Push the interrupted frame and the restorer's address on the user's stack,
then make `frame` enter the handler. -/
def enterHandler (m : Bytes) (frame : Word) (signal : Nat) (handler restorer : Word) : Bytes :=
  let saved := savedAt (readFrame m frame frameRsp)
  let entryStack := saved - 8
  let m := copyFrame m saved frame
  let m := writeWord m entryStack.toNat restorer
  let m := writeWord m (slot frame frameRip) handler
  let m := writeWord m (slot frame frameRdi) (BitVec.ofNat 64 signal)
  writeWord m (slot frame frameRsp) entryStack

/-- Deliver at most one pending signal by rewriting `frame`; `true` means the
task should be terminated instead. -/
def deliver (k : Kernel) (id : TaskId) (frame : Word) : Bool × Kernel :=
  match takePendingSignal k id with
  | (none, k) => (false, k)
  | (some signal, k) =>
      if readFrame k.view frame frameCs &&& 3 ≠ 3 then (false, setPendingSignal k id signal)
      else
        let handler := signalHandler k id signal
        if handler = 0 ∨ catchable signal = false then (true, k)
        else
          let restorer := signalRestorer k id
          if restorer = 0 then (true, k)
          else (false, k.storeView (enterHandler k.view frame signal handler restorer))

/-- Undo a delivery: copy the frame the handler was standing on back. -/
def restore (k : Kernel) (frame : Word) : Kernel :=
  k.storeView (copyFrame k.view frame (readFrame k.view frame frameRsp))

/-- The signal taken next ends the task: it has no handler or no restorer, or it
cannot be caught. -/
def Fatal (task : Task) : Prop :=
  let number := trailingZeros task.pending
  (if bound : number < maxSignals then task.handlers ⟨number, bound⟩ else 0) = 0 ∨
    number = sigkill ∨ task.restorer = 0

instance (task : Task) : Decidable (Fatal task) := by
  unfold Fatal
  infer_instance

theorem deliver_kills_iff (k : Kernel) (id : TaskId) (frame : Word) :
    (deliver k id frame).1 = true ↔
      (k.tasks id).pending ≠ 0 ∧ readFrame k.view frame frameCs &&& 3 = 3 ∧
        Fatal (k.tasks id) := by
  by_cases quiet : (k.tasks id).pending = 0
  · simp [deliver, takePendingSignal, quiet]
  · have view : ∀ task, (k.setTask id task).view = k.view := fun _ => rfl
    simp only [deliver, takePendingSignal, if_neg quiet, view]
    by_cases ring : readFrame k.view frame frameCs &&& 3 = 3
    · rw [if_neg (not_not.mpr ring)]
      simp only [signalHandler, signalRestorer, Kernel.setTask, Function.update_self, Fatal,
        catchable, decide_eq_false_iff_not, ne_eq, not_not, quiet, not_false_eq_true, true_and,
        ring]
      split_ifs <;> tauto
    · rw [if_pos ring]
      simp only [Bool.false_eq_true, ring, false_and, and_false]

theorem deliver_changes (k : Kernel) (id : TaskId) (frame : Word) :
    ∃ pending memory, (deliver k id frame).2 =
      { k.setTask id { k.tasks id with pending := pending } with memory := memory } := by
  have same : k = { k.setTask id { k.tasks id with pending := (k.tasks id).pending } with
      memory := k.memory } := by
    simp only [Kernel.setTask, Function.update_eq_self]
  have again : ∀ task task', (k.setTask id task).setTask id task' = k.setTask id task' := by
    simp only [Kernel.setTask, Function.update_idem, implies_true]
  by_cases quiet : (k.tasks id).pending = 0
  · refine ⟨_, _, Eq.trans ?_ same⟩
    simp only [deliver, takePendingSignal, if_pos quiet]
  · simp only [deliver, takePendingSignal, if_neg quiet, setPendingSignal, again]
    split_ifs
    · refine ⟨((k.tasks id).pending &&& ~~~(1#32 <<< trailingZeros (k.tasks id).pending)) |||
        1#32 <<< trailingZeros (k.tasks id).pending, k.memory, ?_⟩
      simp only [Kernel.setTask, Function.update_self]
    · exact ⟨_, k.memory, rfl⟩
    · exact ⟨_, k.memory, rfl⟩
    · exact ⟨_, _, rfl⟩

theorem deliver_memory (k : Kernel) (id : TaskId) (frame : Word) :
    (deliver k id frame).2.memory = k.memory ∨
      (k.tasks id).pending ≠ 0 ∧ readFrame k.view frame frameCs &&& 3 = 3 ∧ ¬Fatal (k.tasks id) ∧
        ∃ signal handler restorer, (deliver k id frame).2.memory =
          k.memory.store k.activeRoot (enterHandler k.view frame signal handler restorer) := by
  have spared : (deliver k id frame).1 = true ∨ ¬((k.tasks id).pending ≠ 0 ∧
      readFrame k.view frame frameCs &&& 3 = 3 ∧ Fatal (k.tasks id)) := by
    rw [← deliver_kills_iff]
    exact em _
  by_cases quiet : (k.tasks id).pending = 0
  · left
    simp only [deliver, takePendingSignal, if_pos quiet]
  · have view : ∀ task, (k.setTask id task).view = k.view := fun _ => rfl
    simp only [deliver, takePendingSignal, if_neg quiet, view] at spared ⊢
    by_cases ring : readFrame k.view frame frameCs &&& 3 = 3
    · rw [if_neg (not_not.mpr ring)] at spared ⊢
      split_ifs with unhandled bare
      · exact Or.inl rfl
      · exact Or.inl rfl
      · rw [if_neg unhandled, if_neg bare] at spared
        refine Or.inr ⟨quiet, ring, fun fatal => ?_, _, _, _, rfl⟩
        rcases spared with dead | spared
        · exact Bool.noConfusion dead
        · exact spared ⟨quiet, ring, fatal⟩
    · rw [if_pos ring]
      exact Or.inl rfl

end FiveAM.Process.Signals
