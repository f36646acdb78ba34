/- GID: FiveAM/Process/SignalReturn
   source: kernel/src/signal.rs, kernel/src/syscall.rs, userland/src/catcher.rs
   digest: A signal taken on the way out of a call, its handler, and the program that goes on. -/

import FiveAM.Process.TrapFrames

set_option autoImplicit false
set_option relaxedAutoImplicit false

namespace FiveAM.Process.SignalReturn

open FiveAM.Process.TaskTable FiveAM.Process.Machine FiveAM.Process.Pipes
open FiveAM.Process.Signals FiveAM.Process.Lifecycle FiveAM.Process.Syscalls FiveAM.Process.System
open FiveAM.Process.TableShape FiveAM.Process.FrameMemory FiveAM.Process.TrapFrames
open FiveAM.Lib.ByteMemory FiveAM.Lib.Runs

/-- A trap frame on a kernel stack: the stacks come from the kernel's heap. -/
def OnHeap (context : Word) : Prop :=
  Heap.HoleList.heapStart ≤ context.toNat ∧ Fits context

instance (context : Word) : Decidable (OnHeap context) := inferInstanceAs (Decidable (_ ∧ _))

/-- A signal is pending for the running program, and the program has a handler
and a restorer for it. -/
def Handled (s : Machine) (context : Word) : Prop :=
  (s.kernel.tasks s.current).pending ≠ 0 ∧ readFrame s.kernel.view context frameCs &&& 3 = 3 ∧
    ¬Fatal (s.kernel.tasks s.current)

instance (s : Machine) (context : Word) : Decidable (Handled s context) :=
  inferInstanceAs (Decidable (_ ∧ _ ∧ _))

/-- The stack pointer the program made its call with. -/
def callersStack (s : Machine) (context : Word) : Word := readFrame s.kernel.view context frameRsp

/-- The same machine with no signal pending for the running task. -/
def undisturbed (s : Machine) : Machine :=
  withKernel s (s.kernel.setTask s.current { s.kernel.tasks s.current with pending := 0 })

/-- The handler entered when `s` left its call has come back through the
restorer: its `ret` has read the return address, a user address; its stack
pointer stands at the saved frame, which it has left as it was; and it asks for
`sigreturn` on the same kernel stack, with no other signal pending. -/
structure HandlerReturned (s : Machine) (context result : Word) (t : Machine) : Prop where
  running : InProgram t
  stack : frameAt t.kernel.rsp0 = context
  quiet : (t.kernel.tasks t.current).pending = 0
  number : t.registers frameRax = sysSigreturn
  pointer : t.registers frameRsp = savedAt (callersStack s context)
  readable : (savedAt (callersStack s context) - 8).toNat + 8 ≤ userSpaceEnd
  intact : ∀ x, (savedAt (callersStack s context)).toNat ≤ x →
    x < (savedAt (callersStack s context)).toNat + frameBytes →
    t.kernel.view x = (leave s context result).kernel.view x

/-- The program that goes on in `t'` after the handler came back in `t` cannot
tell: its registers are those of the run with no signal, and neither the delivery
nor the return wrote at or above its stack pointer. -/
structure Transparent (s : Machine) (context result : Word) (t t' : Machine) : Prop where
  registers : t'.registers = (leave (undisturbed s) context result).registers
  delivery : ∀ a, (callersStack s context).toNat ≤ a → a < userSpaceEnd →
    (leave s context result).kernel.view a = s.kernel.view a
  sigreturn : ∀ a, a < userSpaceEnd → t'.kernel.view a = t.kernel.view a

theorem savedAt_of_readable {stack : Word}
    (readable : (savedAt stack - 8).toNat + 8 ≤ userSpaceEnd) :
    16 ≤ (savedAt stack).toNat ∧ (savedAt stack - 8).toNat = (savedAt stack).toNat - 8 ∧
      (savedAt stack).toNat ≤ userSpaceEnd ∧
      (savedAt stack).toNat + frameBytes ≤ stack.toNat := by
  have sixteen : (savedAt stack).toNat = (stack - BitVec.ofNat 64 (frameWords * 8)).toNat / 16 * 16 :=
    toNat_and_not_fifteen _
  have bound := (savedAt stack).isLt
  have eight : (savedAt stack - 8).toNat = (2 ^ 64 - 8 + (savedAt stack).toNat) % 2 ^ 64 :=
    BitVec.toNat_sub ..
  have end_eq : userSpaceEnd = 2 ^ 39 := rfl
  have low : 16 ≤ (savedAt stack).toNat := by
    by_contra small
    have zero : (savedAt stack).toNat = 0 := by omega
    rw [zero] at eight
    omega
  have below : (savedAt stack - 8).toNat = (savedAt stack).toNat - 8 := by omega
  refine ⟨low, below, by omega, ?_⟩
  have wide := stack.isLt
  have minus : (stack - BitVec.ofNat 64 (frameWords * 8)).toNat =
      (2 ^ 64 - 160 + stack.toNat) % 2 ^ 64 := BitVec.toNat_sub ..
  unfold frameBytes frameWords at *
  omega

/-- Entering a handler leaves the interrupted frame on the user's stack and
nothing else outside the trap frame but the return address below it. -/
theorem enterHandler_saved {m : Bytes} {frame : Word} (fits : Fits frame) {saved : Word}
    (place : savedAt (readFrame m frame frameRsp) = saved) (low : 16 ≤ saved.toNat)
    (below : (saved - 8).toNat = saved.toNat - 8) (apart : saved.toNat + frameBytes ≤ frame.toNat)
    (signal : Nat) (handler restorer : Word) :
    readFrame (enterHandler m frame signal handler restorer) saved = readFrame m frame ∧
      ∀ x, Clear (saved.toNat - 8) (frameBytes + 8) x → Clear frame.toNat frameBytes x →
        enterHandler m frame signal handler restorer x = m x := by
  have savedFits : Fits saved := by
    unfold Fits at fits ⊢
    omega
  have outside : ∀ x, Clear frame.toNat frameBytes x →
      enterHandler m frame signal handler restorer x =
        writeWord (copyFrame m saved frame) (saved - 8).toNat restorer x := by
    intro x clear
    simp only [enterHandler, place]
    rw [writeWord_slot_outside fits _ _ clear, writeWord_slot_outside fits _ _ clear,
      writeWord_slot_outside fits _ _ clear]
  constructor
  · have copied : readFrame (enterHandler m frame signal handler restorer) saved =
        readFrame (copyFrame m saved frame) saved := by
      refine readFrame_congr savedFits fun x from_ upto => ?_
      rw [outside x (Or.inl (by omega)), below]
      exact writeWord_outside (Or.inr (by omega))
    rw [copied, copyFrame_eq savedFits fits (Or.inl apart), readFrame_writeFrame savedFits]
  · intro x clear clear'
    rw [outside x clear', below]
    unfold Clear at clear
    rw [writeWord_outside (by omega), copyFrame_outside savedFits]
    unfold Clear
    omega

private theorem delivered_spared {s : Machine} {context : Word} (handled : Handled s context) :
    (delivered s.kernel context).1 = false := by
  have pending : (s.kernel.tasks s.kernel.current).pending ≠ 0 := handled.1
  rw [delivered, if_pos pending, Bool.eq_false_iff]
  intro dead
  exact handled.2.2 ((deliver_kills_iff _ _ _).mp dead).2.2

theorem leave_handled {s : Machine} {context : Word} (result : Word) (handled : Handled s context) :
    ∃ signal handler restorer, ∀ x,
      (leave s context result).kernel.view x =
        writeWord (enterHandler s.kernel.view context signal handler restorer)
          (slot context frameRax) result x := by
  have spared := delivered_spared handled
  obtain ⟨pending, ring, -⟩ := handled
  have pending' : (s.kernel.tasks s.kernel.current).pending ≠ 0 := pending
  have entered : ∃ signal handler restorer, (delivered s.kernel context).2.view =
      enterHandler s.kernel.view context signal handler restorer := by
    rw [delivered, if_pos pending']
    have view : ∀ task, (s.kernel.setTask s.kernel.current task).view = s.kernel.view := fun _ => rfl
    have spared' := spared
    rw [delivered, if_pos pending'] at spared'
    simp only [deliver, takePendingSignal, if_neg pending', view,
      if_neg (not_not.mpr ring)] at spared' ⊢
    split_ifs at spared' ⊢ with unhandled bare
    exact ⟨trailingZeros (s.kernel.tasks s.kernel.current).pending, _, _, Memory.view_store ..⟩
  obtain ⟨signal, handler, restorer, view⟩ := entered
  refine ⟨signal, handler, restorer, fun x => ?_⟩
  rw [leave_eq, spared]
  simp only [Bool.false_eq_true, if_false, moveTo, Kernel.view, Kernel.storeView,
    Memory.view_store]
  change writeWord (delivered s.kernel context).2.view (slot context frameRax) result x = _
  rw [view]
  rfl

theorem leave_undisturbed (s : Machine) {context : Word} (fits : Fits context) (result : Word) :
    (leave (undisturbed s) context result).registers =
      Function.update (readFrame s.kernel.view context) frameRax result := by
  have none_pending : ((undisturbed s).kernel.tasks (undisturbed s).kernel.current).pending = 0 := by
    simp only [undisturbed, withKernel, Kernel.setTask, Machine.current, Function.update_self]
  have silent : delivered (undisturbed s).kernel context = (false, (undisturbed s).kernel) := by
    rw [delivered, if_neg (not_not.mpr none_pending)]
  rw [leave_eq, silent]
  simp only [Bool.false_eq_true, if_false, Kernel.view, Kernel.storeView, Memory.view_store]
  rw [readFrame_writeWord fits]
  rfl

section Return

variable {s t : Machine} {context result : Word}

private theorem saved_frame (result : Word) (onHeap : OnHeap context) (handled : Handled s context)
    (readable : (savedAt (callersStack s context) - 8).toNat + 8 ≤ userSpaceEnd) :
    readFrame (leave s context result).kernel.view (savedAt (callersStack s context)) =
        readFrame s.kernel.view context ∧
      ∀ a, (callersStack s context).toNat ≤ a → a < userSpaceEnd →
        (leave s context result).kernel.view a = s.kernel.view a := by
  obtain ⟨low, below, high, room⟩ := savedAt_of_readable readable
  obtain ⟨start, fits⟩ := onHeap
  have heap : userSpaceEnd + frameBytes ≤ Heap.HoleList.heapStart := by decide
  obtain ⟨signal, handler, restorer, view⟩ := leave_handled result handled
  have place : savedAt (readFrame s.kernel.view context frameRsp) =
      savedAt (callersStack s context) := rfl
  obtain ⟨saved, outside⟩ :=
    enterHandler_saved fits place low below (by omega) signal handler restorer
  have savedFits : Fits (savedAt (callersStack s context)) := by
    unfold Fits at fits ⊢
    omega
  constructor
  · rw [← saved]
    refine readFrame_congr savedFits fun x _ upto => ?_
    rw [view, writeWord_slot_outside fits _ _ (Or.inl (by omega))]
  · intro a above user
    have clear : Clear context.toNat frameBytes a := Or.inl (by omega)
    rw [view, writeWord_slot_outside fits _ _ clear]
    exact outside a (Or.inr (by omega)) clear

/-- `sigreturn` gives back exactly the frame that was saved when the handler was
entered, and writes nothing into the program's memory. -/
theorem handler_return {env : Surroundings}
    (fresh : env.space.isSome → FreshStack t.kernel env.stack) (onHeap : OnHeap context)
    (handled : Handled s context) (back : HandlerReturned s context result t) :
    ∃ t', runAll step t [.call, .serve env, .leave] = some t' ∧
      t'.registers = readFrame s.kernel.view context ∧
      ∀ a, a < userSpaceEnd → t'.kernel.view a = t.kernel.view a := by
  have frame := (saved_frame result onHeap handled back.readable).1
  obtain ⟨running, stack, quiet, number, pointer, readable, intact⟩ := back
  obtain ⟨low, below, high, room⟩ := savedAt_of_readable readable
  have heap : userSpaceEnd + frameBytes ≤ Heap.HoleList.heapStart := by decide
  obtain ⟨start, fits⟩ := onHeap
  generalize savedAt (callersStack s context) = saved at *
  have savedFits : Fits saved := by
    unfold Fits at fits ⊢
    omega
  let called := moveTo t (pushFrame t.kernel context t.registers) (.calling context 0)
  have calls : step t .call = some called := by
    simp only [step, if_pos running, stack, called]
  have view : called.kernel.view = writeFrame t.kernel.view context t.registers :=
    Memory.view_store ..
  have pushed : readFrame called.kernel.view context = t.registers := by
    rw [view, readFrame_writeFrame fits]
  have outside : ∀ x, x < context.toNat → called.kernel.view x = t.kernel.view x := by
    intro x low'
    rw [view, writeFrame_outside fits (Or.inl low')]
  have inside : called.stage called.current = .calling context 0 := Function.update_self ..
  obtain ⟨t', taken, -, -, -, registers, kept⟩ := sigreturn_registers (s := called) env inside fresh
    (by rw [pushed]; exact number) quiet fits (by rw [pushed, pointer]; exact savedFits)
    (by rw [pushed, pointer]; exact Or.inr (by omega))
  refine ⟨t', ?_, ?_, ?_⟩
  · rw [runAll, calls, Option.bind_some]
    exact taken
  · rw [registers, pushed, pointer, ← frame]
    refine readFrame_congr savedFits fun x bottom top => ?_
    rw [outside x (by omega), intact x bottom top]
  · intro a user
    rw [kept a (Or.inl (by omega)), outside a (by omega)]

/-- A signal handled on the way out of a call is transparent exactly when the
call's result is what RAX held when it was made: the frame that comes back was
saved before the result was stored. -/
theorem signal_transparent_iff {env : Surroundings}
    (fresh : env.space.isSome → FreshStack t.kernel env.stack) (onHeap : OnHeap context)
    (handled : Handled s context) (back : HandlerReturned s context result t) :
    ∃ t', runAll step t [.call, .serve env, .leave] = some t' ∧
      (Transparent s context result t t' ↔
        readFrame s.kernel.view context frameRax = result) := by
  obtain ⟨t', resumed, registers, memory⟩ := handler_return fresh onHeap handled back
  have delivery := (saved_frame result onHeap handled back.readable).2
  refine ⟨t', resumed, fun transparent => ?_, fun answer => ⟨?_, delivery, memory⟩⟩
  · have same := transparent.registers
    rw [registers, leave_undisturbed s onHeap.2] at same
    have rax := congrFun same frameRax
    rwa [Function.update_self] at rax
  · rw [registers, leave_undisturbed s onHeap.2, ← answer, Function.update_eq_self]

theorem leave_registers (result : Word) (onHeap : OnHeap context) (handled : Handled s context)
    (roomy : Roomy (callersStack s context)) :
    ∃ signal handler, (leave s context result).registers =
      Function.update (handlerFrame (readFrame s.kernel.view context) signal handler)
        frameRax result := by
  have fits := onHeap.2
  have kernel : userSpaceEnd ≤ context.toNat := le_trans (by decide) onHeap.1
  obtain ⟨signal, handler, restorer, view⟩ := leave_handled result handled
  refine ⟨signal, handler, ?_⟩
  have entered := (enterHandler_spec fits kernel roomy.1 roomy.user signal handler restorer).1
  have registers : (leave s context result).registers =
      readFrame (leave s context result).kernel.view context := by
    rw [leave_eq, delivered_spared handled]
    rfl
  rw [registers, funext view, readFrame_writeWord fits, entered]

end Return

section Interrupted

private def asks (number first second third : Word) : List Event :=
  [.compute (fun i => if i = frameRax then number else if i = frameRdi then first
      else if i = frameRsi then second else if i = frameRdx then third
      else userFrame 0x400000 0x10ff00 1 0x10ff40 i) (fun _ => 0),
    .call, .serve ⟨lowHalf, none, 0, none, []⟩]

/-- The program registers a handler for SIGINT, then asks which ring `selector`
belongs to; Ctrl-C comes while the answer is on its way. -/
private def interrupted (selector : Word) : List Event :=
  launch ++ firstTick :: (asks sysSignal 2 0x400100 0x400200 ++
    .leave :: (asks sysReportCs selector 0 0 ++ [.interrupt]))

private def comesBack (s : Machine) (context result : Word) : Machine :=
  { leave s context result with
    registers := Function.update (Function.update (leave s context result).registers frameRax
      sysSigreturn) frameRsp (savedAt (callersStack s context)) }

private theorem comesBack_returned {s : Machine} {context result : Word} (onHeap : OnHeap context)
    (handled : Handled s context) (roomy : Roomy (callersStack s context))
    (stage : (leave s context result).stage (leave s context result).current = .program)
    (stack : frameAt (leave s context result).kernel.rsp0 = context)
    (quiet : ((leave s context result).kernel.tasks (leave s context result).current).pending = 0) :
    step (leave s context result) (.compute (comesBack s context result).registers
        ((leave s context result).kernel.memory.user (leave s context result).kernel.activeRoot)) =
        some (comesBack s context result) ∧
      HandlerReturned s context result (comesBack s context result) := by
  obtain ⟨signal, handler, registers⟩ := leave_registers result onHeap handled roomy
  have cs : (leave s context result).registers frameCs = readFrame s.kernel.view context frameCs := by
    rw [registers]
    rfl
  have running : InProgram (leave s context result) := ⟨stage, by rw [cs]; exact handled.2.1⟩
  have bounds := savedAt_bounds roomy.1
  have below : (savedAt (callersStack s context) - 8).toNat =
      (savedAt (callersStack s context)).toNat - 8 := by
    have small : (8 : Word) ≤ savedAt (callersStack s context) := by
      simp only [BitVec.le_def]
      exact le_trans (by decide) bounds.1
    rw [BitVec.toNat_sub_of_le small]
    rfl
  constructor
  · have same : SamePrivilege (comesBack s context result).registers
        (leave s context result).registers := ⟨rfl, rfl, rfl⟩
    simp only [step, if_pos (And.intro running same), withUserMemory, Function.update_eq_self]
    rfl
  · refine ⟨⟨stage, running.2⟩, stack, quiet, rfl, rfl, ?_, fun _ _ _ => rfl⟩
    have top := roomy.2
    unfold frameBytes at bounds
    omega

/-- What the interrupted program's machine looks like, with `result` on its way
into RAX. -/
private def Caught (s : Machine) (result : Word) : Prop :=
  s.stage s.current = .returning 0x444444450f60 result ∧ Handled s 0x444444450f60 ∧
    Roomy (callersStack s 0x444444450f60) ∧
    readFrame s.kernel.view 0x444444450f60 frameRax = sysReportCs ∧
    (leave s 0x444444450f60 result).stage (leave s 0x444444450f60 result).current = .program ∧
    frameAt (leave s 0x444444450f60 result).kernel.rsp0 = 0x444444450f60 ∧
    ((leave s 0x444444450f60 result).kernel.tasks
      (leave s 0x444444450f60 result).current).pending = 0

private instance (s : Machine) (result : Word) : Decidable (Caught s result) :=
  inferInstanceAs (Decidable (_ ∧ _ ∧ _ ∧ _ ∧ _ ∧ _ ∧ _))

private theorem caught_three :
    ((runAll step started (interrupted 3)).any fun s => decide (Caught s 3)) = true := by
  decide +kernel

private theorem caught_two :
    ((runAll step started (interrupted 2)).any fun s => decide (Caught s 2)) = true := by
  decide +kernel

/-- A program asks which ring selector 3 belongs to and is interrupted on the way
out: when its handler has returned, RAX holds the number of the call, 2, and not
its result, 3. -/
theorem signal_loses_result :
    ∃ s t t' context result, Reached step Booted (fun _ _ => True) s ∧
      s.stage s.current = .returning context result ∧ OnHeap context ∧ Handled s context ∧
      Reached step Booted (fun _ _ => True) t ∧ HandlerReturned s context result t ∧
      runAll step t [.call, .serve ⟨lowHalf, none, 0, none, []⟩, .leave] = some t' ∧
      ¬Transparent s context result t t' := by
  obtain ⟨s, reached, caught⟩ := Reached.freely Booted ⟨_, _, _, _, rfl⟩ caught_three
  obtain ⟨returning, handled, roomy, number, stage, stack, quiet⟩ := of_decide_eq_true caught
  have onHeap : OnHeap 0x444444450f60 := by decide
  obtain ⟨computes, back⟩ := comesBack_returned onHeap handled roomy stage stack quiet
  have leaves : step s .leave = some (leave s 0x444444450f60 3) := by
    simp only [step, returning]
  have fresh : (⟨lowHalf, none, 0, none, []⟩ : Surroundings).space.isSome →
      FreshStack (comesBack s 0x444444450f60 3).kernel 0 := by simp
  obtain ⟨t', resumed, registers, -⟩ := handler_return fresh onHeap handled back
  refine ⟨s, _, t', _, _, reached, returning, onHeap, handled,
    (reached.step trivial leaves).step trivial computes, back, resumed, fun transparent => ?_⟩
  have same := congrFun transparent.registers frameRax
  rw [registers, number, leave_undisturbed s onHeap.2, Function.update_self] at same
  exact absurd same (by decide)

/-- Asked about selector 2, the call answers its own number, and the signal
leaves no trace. -/
theorem signal_transparent_two :
    ∃ s t t' context result, HandlerReturned s context result t ∧
      runAll step t [.call, .serve ⟨lowHalf, none, 0, none, []⟩, .leave] = some t' ∧
      Transparent s context result t t' := by
  obtain ⟨s, -, caught⟩ := (Option.any_eq_true ..).mp caught_two
  obtain ⟨-, handled, roomy, number, stage, stack, quiet⟩ := of_decide_eq_true caught
  have onHeap : OnHeap 0x444444450f60 := by decide
  obtain ⟨-, back⟩ := comesBack_returned onHeap handled roomy stage stack quiet
  have fresh : (⟨lowHalf, none, 0, none, []⟩ : Surroundings).space.isSome →
      FreshStack (comesBack s 0x444444450f60 2).kernel 0 := by simp
  obtain ⟨t', resumed, transparent⟩ := signal_transparent_iff fresh onHeap handled back
  exact ⟨s, _, t', _, _, back, resumed, transparent.mpr number⟩

end Interrupted

end FiveAM.Process.SignalReturn
