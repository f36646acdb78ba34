/- GID: FiveAM/Process/FrameMemory
   source: kernel/src/signal.rs, kernel/src/task.rs
   digest: What writing a trap frame, copying it and entering a handler do to memory. -/

import FiveAM.Process.Lifecycle

set_option autoImplicit false
set_option relaxedAutoImplicit false

namespace FiveAM.Process.FrameMemory

open FiveAM.Process.TaskTable FiveAM.Process.Machine FiveAM.Process.Signals
open FiveAM.Process.Lifecycle FiveAM.Lib.ByteMemory

def frameBytes : Nat := frameWords * 8

/-- A frame at `a` does not run past the end of the address space. -/
def Fits (a : Word) : Prop := a.toNat + frameBytes ≤ 2 ^ 64

instance (a : Word) : Decidable (Fits a) := inferInstanceAs (Decidable (_ ≤ _))

/-- `x` is not among the `n` bytes from `a` up. -/
def Clear (a n x : Nat) : Prop := x < a ∨ a + n ≤ x

theorem slot_of_fits {a : Word} (fits : Fits a) (i : Fin frameWords) :
    slot a i = a.toNat + 8 * i.val := by
  have bound := i.isLt
  unfold Fits frameBytes at fits
  exact slot_eq (by omega)

theorem readFrame_congr {m m' : Bytes} {a : Word} (fits : Fits a)
    (same : ∀ x, a.toNat ≤ x → x < a.toNat + frameBytes → m x = m' x) :
    readFrame m a = readFrame m' a := by
  funext i
  have bound := i.isLt
  unfold frameBytes at same
  simp only [readFrame, slot_of_fits fits]
  exact readWord_congr fun x low high => same x (by omega) (by omega)

section Folds

variable {a : Word}

private theorem fold_outside (fits : Fits a) (value : Bytes → Fin frameWords → Word) {x : Nat}
    (clear : Clear a.toNat frameBytes x) (is : List (Fin frameWords)) (m : Bytes) :
    is.foldl (fun m (i : Fin frameWords) => writeWord m (slot a i) (value m i)) m x = m x := by
  induction is generalizing m with
  | nil => rfl
  | cons i rest ih =>
      have bound := i.isLt
      unfold Clear frameBytes at clear
      rw [List.foldl_cons, ih, slot_of_fits fits, writeWord_outside (by omega)]

private theorem fold_read (fits : Fits a) (f : Frame) (i : Fin frameWords)
    (is : List (Fin frameWords)) (m : Bytes) (done : i ∈ is ∨ readWord m (slot a i) = f i) :
    readWord (is.foldl (fun m (i : Fin frameWords) => writeWord m (slot a i) (f i)) m) (slot a i) =
      f i := by
  induction is generalizing m with
  | nil => simpa using done
  | cons j rest ih =>
      refine ih _ ?_
      by_cases same : i = j
      · subst same
        exact Or.inr (readWord_writeWord_self _ _ _)
      · refine done.imp (fun member => (List.mem_cons.mp member).resolve_left same) fun before => ?_
        have apart : i.val ≠ j.val := fun equal => same (Fin.ext equal)
        simp only [slot_of_fits fits] at before ⊢
        rw [readWord_writeWord_of_apart (by omega)]
        exact before

end Folds

theorem writeFrame_outside {m : Bytes} {a : Word} {f : Frame} {x : Nat} (fits : Fits a)
    (clear : Clear a.toNat frameBytes x) : writeFrame m a f x = m x :=
  fold_outside fits (fun _ i => f i) clear _ m

theorem readFrame_writeFrame {m : Bytes} {a : Word} {f : Frame} (fits : Fits a) :
    readFrame (writeFrame m a f) a = f := by
  funext i
  exact fold_read fits f i _ m (Or.inl (List.mem_finRange i))

theorem copyFrame_outside {m : Bytes} {target source : Word} {x : Nat} (fits : Fits target)
    (clear : Clear target.toNat frameBytes x) : copyFrame m target source x = m x :=
  fold_outside fits (fun m i => readWord m (slot source i)) clear _ m

theorem copyFrame_eq {m : Bytes} {target source : Word} (fits : Fits target) (fits' : Fits source)
    (apart : target.toNat + frameBytes ≤ source.toNat ∨ source.toNat + frameBytes ≤ target.toNat) :
    copyFrame m target source = writeFrame m target (readFrame m source) := by
  have steps : ∀ (is : List (Fin frameWords)) (m' : Bytes), readFrame m' source = readFrame m source →
      is.foldl (fun m (i : Fin frameWords) =>
        writeWord m (slot target i) (readWord m (slot source i))) m' =
      is.foldl (fun m' (i : Fin frameWords) =>
        writeWord m' (slot target i) (readFrame m source i)) m' := by
    intro is
    induction is with
    | nil => exact fun _ _ => rfl
    | cons i rest ih =>
        intro m' same
        have here : readWord m' (slot source i) = readFrame m source i := congrFun same i
        have bound := i.isLt
        rw [List.foldl_cons, List.foldl_cons, here]
        refine ih _ (Eq.trans (readFrame_congr fits' fun x low high => ?_) same)
        rw [slot_of_fits fits]
        unfold frameBytes at apart high
        exact writeWord_outside (by omega)
  exact steps _ m rfl

theorem readFrame_writeWord {m : Bytes} {a : Word} (fits : Fits a) (i : Fin frameWords) (v : Word) :
    readFrame (writeWord m (slot a i) v) a = Function.update (readFrame m a) i v := by
  funext j
  by_cases same : j = i
  · subst same
    rw [Function.update_self]
    exact readWord_writeWord_self _ _ _
  · rw [Function.update_of_ne same]
    have apart : j.val ≠ i.val := fun equal => same (Fin.ext equal)
    simp only [readFrame, slot_of_fits fits]
    exact readWord_writeWord_of_apart (by omega)

theorem writeWord_slot_outside {m : Bytes} {a : Word} (fits : Fits a) (i : Fin frameWords) (v : Word)
    {x : Nat} (clear : Clear a.toNat frameBytes x) : writeWord m (slot a i) v x = m x := by
  have bound := i.isLt
  unfold Clear frameBytes at clear
  rw [slot_of_fits fits]
  exact writeWord_outside (by omega)

theorem toNat_and_not_low (w : Word) (n : Nat) :
    (w &&& ~~~(BitVec.ofNat 64 (2 ^ n - 1))).toNat = w.toNat / 2 ^ n * 2 ^ n := by
  have shifts : w &&& ~~~(BitVec.ofNat 64 (2 ^ n - 1)) = (w >>> n) <<< n := by
    apply BitVec.eq_of_getLsbD_eq
    intro i bound
    have low : (BitVec.ofNat 64 (2 ^ n - 1)).getLsbD i = decide (i < n) := by
      rw [BitVec.getLsbD_ofNat, Nat.testBit_two_pow_sub_one]
      simp [bound]
    simp only [BitVec.getLsbD_and, BitVec.getLsbD_not, low, BitVec.getLsbD_shiftLeft,
      BitVec.getLsbD_ushiftRight, bound, decide_true, Bool.true_and]
    by_cases small : i < n
    · simp [small]
    · simp [small, Nat.add_sub_cancel' (Nat.not_lt.mp small)]
  rw [shifts, BitVec.toNat_shiftLeft, BitVec.toNat_ushiftRight, Nat.shiftRight_eq_div_pow,
    Nat.shiftLeft_eq]
  exact Nat.mod_eq_of_lt (lt_of_le_of_lt (Nat.div_mul_le_self _ _) w.isLt)

theorem toNat_and_not_fifteen (w : Word) : (w &&& ~~~(0xF : Word)).toNat = w.toNat / 16 * 16 :=
  toNat_and_not_low w 4

/-- A user stack pointer below which a handler's frame stays in the user half. -/
def Roomy (userStack : Word) : Prop :=
  176 ≤ userStack.toNat ∧ userStack.toNat ≤ userSpaceEnd

instance (userStack : Word) : Decidable (Roomy userStack) := inferInstanceAs (Decidable (_ ∧ _))

theorem savedAt_bounds {userStack : Word} (low : 176 ≤ userStack.toNat) :
    16 ≤ (savedAt userStack).toNat ∧ (savedAt userStack).toNat + frameBytes ≤ userStack.toNat := by
  have bound := userStack.isLt
  have below : (userStack - BitVec.ofNat 64 160).toNat = userStack.toNat - 160 := by
    rw [BitVec.toNat_sub_of_le]
    · simp
    · simp only [BitVec.le_def, BitVec.toNat_ofNat]
      omega
  simp only [savedAt, frameBytes, frameWords] at below ⊢
  rw [toNat_and_not_fifteen, below]
  omega

theorem Roomy.user {userStack : Word} (roomy : Roomy userStack) :
    (savedAt userStack).toNat + frameBytes ≤ userSpaceEnd :=
  le_trans (savedAt_bounds roomy.1).2 roomy.2

def handlerFrame (f : Frame) (signal : Nat) (handler : Word) : Frame :=
  Function.update (Function.update (Function.update f frameRip handler) frameRdi
    (BitVec.ofNat 64 signal)) frameRsp (savedAt (f frameRsp) - 8)

theorem enterHandler_spec {m : Bytes} {frame : Word} (fits : Fits frame)
    (kernel : userSpaceEnd ≤ frame.toNat) (room : 176 ≤ (readFrame m frame frameRsp).toNat)
    (top : (savedAt (readFrame m frame frameRsp)).toNat + frameBytes ≤ userSpaceEnd)
    (signal : Nat) (handler restorer : Word) :
    readFrame (enterHandler m frame signal handler restorer) frame =
        handlerFrame (readFrame m frame) signal handler ∧
      ∀ x, userSpaceEnd ≤ x → Clear frame.toNat frameBytes x →
        enterHandler m frame signal handler restorer x = m x := by
  obtain ⟨low, -⟩ := savedAt_bounds room
  generalize hsaved : savedAt (readFrame m frame frameRsp) = saved at low top
  have savedFits : Fits saved := by
    unfold Fits
    unfold Fits at fits
    omega
  have entry : (saved - 8).toNat = saved.toNat - 8 := by
    have small : (8 : Word) ≤ saved := by
      simp only [BitVec.le_def]
      exact le_trans (by decide) low
    rw [BitVec.toNat_sub_of_le small]
    rfl
  have pushed : ∀ x, userSpaceEnd ≤ x → writeWord (copyFrame m saved frame) (saved - 8).toNat
      restorer x = m x := by
    intro x high'
    rw [entry, writeWord_outside (by unfold frameBytes at top; omega), copyFrame_outside savedFits]
    exact Or.inr (by omega)
  have kept : readFrame (writeWord (copyFrame m saved frame) (saved - 8).toNat restorer) frame =
      readFrame m frame := readFrame_congr fits fun x below _ => pushed x (by omega)
  constructor
  · simp only [enterHandler, handlerFrame, hsaved]
    rw [readFrame_writeWord fits, readFrame_writeWord fits, readFrame_writeWord fits, kept]
  · intro x half clear
    simp only [enterHandler, hsaved]
    rw [writeWord_slot_outside fits _ _ clear, writeWord_slot_outside fits _ _ clear,
      writeWord_slot_outside fits _ _ clear]
    exact pushed x half

theorem topOf_bounds {stack : Word} (room : stack.toNat + stackSize < 2 ^ 64) :
    stack.toNat + stackSize - 15 ≤ (topOf stack).toNat ∧
      (topOf stack).toNat ≤ stack.toNat + stackSize := by
  have sum : (stack + BitVec.ofNat 64 stackSize).toNat = stack.toNat + stackSize := by
    rw [BitVec.toNat_add, BitVec.toNat_ofNat, Nat.mod_eq_of_lt (a := stackSize) (by decide),
      Nat.mod_eq_of_lt room]
  unfold topOf
  rw [toNat_and_not_fifteen, sum]
  omega

theorem frameAt_toNat {top : Word} (room : frameBytes ≤ top.toNat) :
    (frameAt top).toNat = top.toNat - frameBytes := by
  have small : BitVec.ofNat 64 (frameWords * 8) ≤ top := by
    simp only [BitVec.le_def, BitVec.toNat_ofNat]
    exact room
  unfold frameAt
  rw [BitVec.toNat_sub_of_le small]
  rfl

end FiveAM.Process.FrameMemory
