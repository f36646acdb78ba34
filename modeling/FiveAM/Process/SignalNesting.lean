/- GID: FiveAM/Process/SignalNesting
   source: kernel/src/signal.rs, userland/src/catcher.rs
   digest: Handlers inside handlers: every return gives back the frame its delivery interrupted. -/

import FiveAM.Process.SignalChoice
import FiveAM.Process.SignalReturn

set_option autoImplicit false
set_option relaxedAutoImplicit false

namespace FiveAM.Process.SignalNesting

open FiveAM.Process.TaskTable FiveAM.Process.Machine FiveAM.Process.Signals
open FiveAM.Process.SignalChoice FiveAM.Process.SignalReturn FiveAM.Process.FrameMemory
open FiveAM.Lib.ByteMemory FiveAM.Lib.Runs

/-- A delivery that has not been returned from: the words it interrupted, and the stack
pointer its handler was entered with. -/
structure Outer where
  frame : Frame
  entry : Word

/-- Where the handler's `ret` leaves the stack pointer. -/
def Outer.saved (o : Outer) : Word := o.entry + 8

/-- A program in ring 3 with its twenty words, and the deliveries it is inside of, the
innermost first. -/
structure Nest where
  kernel : Kernel
  frame : Frame
  outer : List Outer

/-- What happens to it: it runs on, and everything else with it; it is stopped, its words are
saved at a place on its kernel stack, and a signal is delivered; or a `sigreturn` does the
same and asks for the interrupted words. -/
inductive Turn where
  | run (kernel : Kernel) (frame : Frame)
  | deliver (context : Word)
  | sigreturn (context : Word)

def trapped (s : Nest) (context : Word) : Kernel :=
  s.kernel.storeView (writeFrame s.kernel.view context s.frame)

/-- The program goes on with the words it finds there. -/
def resumed (k : Kernel) (context : Word) : Frame := readFrame k.view context

def turn (id : TaskId) (s : Nest) : Turn → Option Nest
  | .run kernel frame => some { s with kernel, frame }
  | .deliver context =>
      let answer := deliver (trapped s context) id context
      if (s.kernel.tasks id).pending = 0 ∨ answer.1 = true then none
      else
        let frame := resumed answer.2 context
        some ⟨answer.2, frame, ⟨s.frame, frame frameRsp⟩ :: s.outer⟩
  | .sigreturn context =>
      if s.outer = [] then none
      else
        let kernel := restore (trapped s context) context
        some ⟨kernel, resumed kernel context, s.outer.tail⟩

def OnKernelStack (context : Word) : Prop := Fits context ∧ userSpaceEnd ≤ context.toNat

instance decidableOnKernelStack (context : Word) : Decidable (OnKernelStack context) :=
  inferInstanceAs (Decidable (_ ∧ _))

/-- A stack pointer with room below it, in the user half, for a frame and a return address. -/
def Room (stack : Word) : Prop :=
  176 ≤ stack.toNat ∧ (savedAt stack).toNat + frameBytes ≤ userSpaceEnd

instance decidableRoom (stack : Word) : Decidable (Room stack) :=
  inferInstanceAs (Decidable (_ ∧ _))

/-- The program keeps to its own stack: a handler leaves what is at and above its saved frame
as it is, its stack pointer is not above that frame when it is interrupted in turn, and it
comes to `sigreturn` with the stack pointer where its `ret` leaves it. -/
def Keeps (s : Nest) : Turn → Prop
  | .run kernel _ => ∀ o ∈ s.outer.head?, ∀ x, o.saved.toNat ≤ x → x < userSpaceEnd →
      kernel.view x = s.kernel.view x
  | .deliver context => OnKernelStack context ∧ s.frame frameCs &&& 3 = 3 ∧
      Room (s.frame frameRsp) ∧ ∀ o ∈ s.outer.head?, (s.frame frameRsp).toNat ≤ o.saved.toNat
  | .sigreturn context => OnKernelStack context ∧ ∀ o ∈ s.outer.head?, s.frame frameRsp = o.saved

instance decidableKeeps (s : Nest) (context : Word) : Decidable (Keeps s (.deliver context)) :=
  inferInstanceAs (Decidable (_ ∧ _ ∧ _ ∧ ∀ o ∈ s.outer.head?, _))

/-- A delivery writes below the interrupted stack pointer only, and enters the handler as a
function the restorer has called with the signal's number. -/
structure Entered (id : TaskId) (s s' : Nest) : Prop where
  below : ∀ x, (s.frame frameRsp).toNat ≤ x → x < userSpaceEnd →
    s'.kernel.view x = s.kernel.view x
  handler : ∃ n, Pending (s.kernel.tasks id) n ∧ s'.frame frameRdi = BitVec.ofNat 64 n ∧
    s'.frame frameRip = signalHandler s.kernel id n
  restorer : readWord s'.kernel.view (s'.frame frameRsp).toNat = signalRestorer s.kernel id
  aligned : (s'.frame frameRsp).toNat % 16 = 8

def Works (id : TaskId) (s : Nest) : Turn → Nest → Prop
  | .run _ _, _ => True
  | .deliver _, s' => Entered id s s'
  | .sigreturn _, s' => ∃ o rest, s.outer = o :: rest ∧ s'.frame = o.frame ∧ s'.outer = rest

/-- A saved frame ends where the next one out begins, or before. -/
def Disjoint (outer : List Outer) : Prop :=
  outer.Pairwise fun o o' => o.saved.toNat + frameBytes ≤ o'.saved.toNat

section Delivering

variable {k : Kernel} {id : TaskId} {frame : Word}

theorem deliver_entered (mode : UserMode k frame) (pending : (k.tasks id).pending ≠ 0)
    (alive : (deliver k id frame).1 = false) :
    (deliver k id frame).2.view = enterHandler k.view frame (trailingZeros (k.tasks id).pending)
      (signalHandler k id (trailingZeros (k.tasks id).pending)) (signalRestorer k id) := by
  have view : ∀ task, (k.setTask id task).view = k.view := fun _ => rfl
  have handlers : ∀ pending n, signalHandler (k.setTask id { k.tasks id with pending := pending })
      id n = signalHandler k id n := by
    intro pending n
    simp only [signalHandler, Kernel.setTask, Function.update_self]
  have restorers : ∀ pending, signalRestorer (k.setTask id { k.tasks id with pending := pending })
      id = signalRestorer k id := by
    intro pending
    simp only [signalRestorer, Kernel.setTask, Function.update_self]
  unfold UserMode at mode
  simp only [deliver, takePendingSignal, if_neg pending, view, handlers, restorers] at alive ⊢
  rw [if_neg (not_not.mpr mode)] at alive ⊢
  split_ifs at alive ⊢
  exact Memory.view_store ..

end Delivering

section Nesting

variable {id : TaskId} {s s' : Nest} {context : Word}

theorem trapped_view (on : OnKernelStack context) :
    readFrame (trapped s context).view context = s.frame ∧
      ∀ x, x < userSpaceEnd → (trapped s context).view x = s.kernel.view x := by
  have view : (trapped s context).view = writeFrame s.kernel.view context s.frame :=
    Memory.view_store ..
  rw [view]
  refine ⟨readFrame_writeFrame on.1, fun x low => ?_⟩
  exact writeFrame_outside on.1 (Or.inl (lt_of_lt_of_le low on.2))

theorem enter_spec {m : Bytes} (on : OnKernelStack context) {f : Frame}
    (words : readFrame m context = f) (room : Room (f frameRsp)) (signal : Nat)
    (handler restorer : Word) :
    let m' := enterHandler m context signal handler restorer
    let saved := savedAt (f frameRsp)
    readFrame m' context = handlerFrame f signal handler ∧ readFrame m' saved = f ∧
      readWord m' (saved - 8).toNat = restorer ∧
      ∀ x, Clear (saved.toNat - 8) (frameBytes + 8) x → x < userSpaceEnd → m' x = m x := by
  intro m' saved
  have low : 16 ≤ saved.toNat := (savedAt_bounds room.1).1
  have top : saved.toNat + frameBytes ≤ userSpaceEnd := room.2
  have far := on.2
  have place : savedAt (readFrame m context frameRsp) = saved := by rw [words]
  have below : (saved - 8).toNat = saved.toNat - 8 := by
    rw [BitVec.toNat_sub_of_le]
    · rfl
    · simp only [BitVec.le_def]
      exact le_trans (by decide) low
  have apart : saved.toNat + frameBytes ≤ context.toNat := by omega
  have fits : Fits saved := by
    have fits := on.1
    unfold Fits at fits ⊢
    omega
  obtain ⟨kept, outside⟩ := enterHandler_saved on.1 place low below apart signal handler restorer
  refine ⟨?_, kept.trans words, ?_, fun x clear user => outside x clear (Or.inl (by omega))⟩
  · rw [← words]
    refine (enterHandler_spec on.1 on.2 ?_ ?_ signal handler restorer).1
    · rw [words]
      exact room.1
    · rw [place]
      exact top
  · have word : readWord m' (saved - 8).toNat =
        readWord (writeWord (copyFrame m saved context) (saved - 8).toNat restorer)
          (saved - 8).toNat := by
      apply readWord_congr
      intro x from_ upto
      have clear : Clear context.toNat frameBytes x := Or.inl (by omega)
      simp only [m', enterHandler, place]
      rw [writeWord_slot_outside on.1 _ _ clear, writeWord_slot_outside on.1 _ _ clear,
        writeWord_slot_outside on.1 _ _ clear]
    rw [word]
    exact readWord_writeWord_self _ _ _

/-- What holds between two turns: each frame that a handler has been entered over is where
its `ret` will lead, with the words that were interrupted, inside the user half and below
the next one out. -/
structure Standing (s : Nest) : Prop where
  words : ∀ o ∈ s.outer, readFrame s.kernel.view o.saved = o.frame
  user : ∀ o ∈ s.outer, o.saved.toNat + frameBytes ≤ userSpaceEnd
  apart : Disjoint s.outer

theorem Standing.fits (standing : Standing s) {o : Outer} (there : o ∈ s.outer) :
    Fits o.saved := by
  have low := standing.user o there
  unfold Fits userSpaceEnd at *
  omega

theorem Standing.lowest (standing : Standing s) {o o' : Outer} (first : o ∈ s.outer.head?)
    (there : o' ∈ s.outer) : o.saved.toNat ≤ o'.saved.toNat := by
  obtain ⟨rest, shape⟩ := List.head?_eq_some_iff.mp first
  have apart := standing.apart
  unfold Disjoint at apart
  rw [shape] at apart there
  rcases List.mem_cons.mp there with rfl | later
  · exact Nat.le_refl _
  · have above := (List.pairwise_cons.mp apart).1 o' later
    omega

theorem Standing.kept (standing : Standing s) {m : Bytes}
    (same : ∀ o ∈ s.outer.head?, ∀ x, o.saved.toNat ≤ x → x < userSpaceEnd →
      m x = s.kernel.view x) :
    ∀ o ∈ s.outer, readFrame m o.saved = o.frame := by
  intro o there
  obtain ⟨first, rest, shape⟩ : ∃ first rest, s.outer = first :: rest :=
    List.exists_cons_of_ne_nil (List.ne_nil_of_mem there)
  have head : first ∈ s.outer.head? := by
    rw [shape]
    rfl
  have low := standing.lowest head there
  have high := standing.user o there
  rw [← standing.words o there]
  apply readFrame_congr (standing.fits there)
  intro x from_ upto
  exact same first head x (by omega) (by omega)

theorem deliver_turn (standing : Standing s) (keeps : Keeps s (.deliver context))
    (taken : turn id s (.deliver context) = some s') : Entered id s s' ∧ Standing s' := by
  obtain ⟨on, ring, room, below⟩ := keeps
  obtain ⟨words, user⟩ := trapped_view (s := s) on
  unfold turn at taken
  dsimp only at taken
  split_ifs at taken with stopped
  rw [not_or] at stopped
  obtain ⟨pending, alive⟩ := stopped
  have mode : UserMode (trapped s context) context := by
    unfold UserMode
    rw [words]
    exact ring
  have entered := deliver_entered mode pending (Bool.eq_false_iff.mpr alive)
  obtain ⟨frame, saved, restorer, outside⟩ := enter_spec (m := (trapped s context).view) on words
    room (trailingZeros (s.kernel.tasks id).pending)
    (signalHandler s.kernel id (trailingZeros (s.kernel.tasks id).pending))
    (signalRestorer s.kernel id)
  generalize (deliver (trapped s context) id context).2 = k' at entered taken
  have view : k'.view = enterHandler (trapped s context).view context
      (trailingZeros (s.kernel.tasks id).pending)
      (signalHandler s.kernel id (trailingZeros (s.kernel.tasks id).pending))
      (signalRestorer s.kernel id) := entered
  rw [← view] at frame saved restorer outside
  obtain rfl := Option.some.inj taken
  have pointer : resumed k' context frameRsp = savedAt (s.frame frameRsp) - 8 := by
    unfold resumed
    rw [frame]
    exact Function.update_self ..
  have back : (⟨s.frame, resumed k' context frameRsp⟩ : Outer).saved = savedAt (s.frame frameRsp) := by
    unfold Outer.saved
    dsimp only
    rw [pointer]
    exact BitVec.sub_add_cancel ..
  obtain ⟨low, high⟩ := savedAt_bounds room.1
  have top := room.2
  have kept : ∀ x, (s.frame frameRsp).toNat ≤ x → x < userSpaceEnd → k'.view x = s.kernel.view x := by
    intro x from_ upto
    rw [outside x (Or.inr (by omega)) upto]
    exact user x upto
  constructor
  · refine ⟨kept, ⟨_, (trailingZeros_spec pending).1, ?_, ?_⟩, ?_, ?_⟩
    · change readFrame k'.view context frameRdi = _
      rw [frame]
      unfold handlerFrame
      rw [Function.update_of_ne (by decide), Function.update_self]
    · change readFrame k'.view context frameRip = _
      rw [frame]
      unfold handlerFrame
      rw [Function.update_of_ne (by decide), Function.update_of_ne (by decide), Function.update_self]
    · dsimp only
      rw [pointer]
      exact restorer
    · dsimp only
      rw [pointer, BitVec.toNat_sub_of_le]
      · have sixteen : (savedAt (s.frame frameRsp)).toNat =
            (s.frame frameRsp - BitVec.ofNat 64 (frameWords * 8)).toNat / 16 * 16 :=
          toNat_and_not_fifteen _
        change ((savedAt (s.frame frameRsp)).toNat - 8) % 16 = 8
        omega
      · simp only [BitVec.le_def]
        exact le_trans (by decide) low
  · have older : ∀ o ∈ s.outer, readFrame k'.view o.saved = o.frame := by
      apply standing.kept
      intro o first x from_ upto
      have under := below o first
      exact kept x (by omega) upto
    refine ⟨fun o there => ?_, fun o there => ?_, ?_⟩
    · rcases List.mem_cons.mp there with rfl | there
      · rw [back]
        exact saved
      · exact older o there
    · rcases List.mem_cons.mp there with rfl | there
      · rw [back]
        omega
      · exact standing.user o there
    · refine List.pairwise_cons.mpr ⟨fun o there => ?_, standing.apart⟩
      rw [back]
      obtain ⟨first, rest, shape⟩ : ∃ first rest, s.outer = first :: rest :=
        List.exists_cons_of_ne_nil (List.ne_nil_of_mem there)
      have head : first ∈ s.outer.head? := by
        rw [shape]
        rfl
      have under := below first head
      have lowest := standing.lowest head there
      omega

theorem sigreturn_turn (standing : Standing s) (keeps : Keeps s (.sigreturn context))
    (taken : turn id s (.sigreturn context) = some s') :
    (∃ o rest, s.outer = o :: rest ∧ s'.frame = o.frame ∧ s'.outer = rest) ∧ Standing s' := by
  obtain ⟨on, back⟩ := keeps
  obtain ⟨words, user⟩ := trapped_view (s := s) on
  unfold turn at taken
  dsimp only at taken
  split_ifs at taken with empty
  obtain ⟨o, rest, shape⟩ := List.exists_cons_of_ne_nil empty
  have there : o ∈ s.outer := by
    rw [shape]
    exact List.mem_cons_self
  have pointer : s.frame frameRsp = o.saved := back o (by rw [shape]; rfl)
  have high := standing.user o there
  have same : ∀ x, o.saved.toNat ≤ x → x < o.saved.toNat + frameBytes →
      (trapped s context).view x = s.kernel.view x := fun x _ upto => user x (by omega)
  have view : (restore (trapped s context) context).view =
      writeFrame (trapped s context).view context o.frame := by
    unfold restore
    rw [words, pointer, ← standing.words o there, ← readFrame_congr (standing.fits there) same]
    rw [copyFrame_eq on.1 (standing.fits there) (Or.inr (le_trans high on.2))]
    exact Memory.view_store ..
  obtain rfl := Option.some.inj taken
  have tail : s.outer.tail = rest := by
    rw [shape]
    rfl
  refine ⟨⟨o, rest, shape, ?_, tail⟩, ?_⟩
  · dsimp only
    unfold resumed
    rw [view]
    exact readFrame_writeFrame on.1
  · have kept : ∀ x, x < userSpaceEnd →
        (restore (trapped s context) context).view x = s.kernel.view x := by
      intro x low
      rw [view, writeFrame_outside on.1 (Or.inl (lt_of_lt_of_le low on.2))]
      exact user x low
    have inner : ∀ o' ∈ s.outer.tail, o' ∈ s.outer := fun o' => List.mem_of_mem_tail
    refine ⟨fun o' there' => ?_, fun o' there' => standing.user o' (inner o' there'), ?_⟩
    · exact standing.kept (fun _ _ x _ upto => kept x upto) o' (inner o' there')
    · exact standing.apart.tail

theorem standing_turn (standing : Standing s) {e : Turn} (keeps : Keeps s e)
    (taken : turn id s e = some s') : Works id s e s' ∧ Standing s' := by
  cases e with
  | run kernel frame =>
      obtain rfl := Option.some.inj taken
      exact ⟨trivial, standing.kept keeps, standing.user, standing.apart⟩
  | deliver context => exact deliver_turn standing keeps taken
  | sigreturn context => exact sigreturn_turn standing keeps taken

/-- In every run of nested deliveries each `sigreturn` gives back the words its delivery
interrupted, each delivery enters its handler properly and writes below the interrupted
stack pointer, and the saved frames never overlap. -/
theorem signals_nest (reached : Reached (turn id) (fun s => s.outer = []) Keeps s) :
    Disjoint s.outer ∧ ∀ e s', Keeps s e → turn id s e = some s' → Works id s e s' := by
  have standing : Standing s := by
    refine reached.invariant (fun s begun => ?_) fun s e s' standing keeps taken =>
      (standing_turn standing keeps taken).2
    refine ⟨?_, ?_, ?_⟩
    · rw [begun]
      exact fun o there => absurd there List.not_mem_nil
    · rw [begun]
      exact fun o there => absurd there List.not_mem_nil
    · unfold Disjoint
      rw [begun]
      exact List.Pairwise.nil
  exact ⟨standing.apart, fun e s' keeps taken => (standing_turn standing keeps taken).1⟩

/-- A program stopped in ring 3 with SIGINT and SIGTERM pending, both handled. -/
private def begun : Nest where
  kernel := { (System.boot ⟨fun _ => 0, fun _ _ => 0⟩ (rootAt 0x1000) 0x444444451000 0).kernel with
    current := 1
    tasks := fun _ => { empty with
      state := .ready
      addressSpace := some (rootAt 0x1000)
      pending := 0x8004
      handlers := fun _ => 0x400000
      restorer := 0x400100 } }
  frame := Function.update (Function.update (fun _ => 7) frameCs userCode) frameRsp 0x7ffff000
  outer := []

private def stoppedAt : Word := 0x444444450f60

private def returned (s : Nest) : Nest :=
  { s with frame := Function.update s.frame frameRsp (s.frame frameRsp + 8) }

/-- One handler is interrupted by another, which has just returned to the restorer. -/
theorem signals_nest_twice : ∃ s, s.outer.length = 2 ∧ Disjoint s.outer ∧
    ∀ e s', Keeps s e → turn 1 s e = some s' → Works 1 s e s' := by
  have facts : (Keeps begun (.deliver stoppedAt) ∧
      ((turn 1 begun (.deliver stoppedAt)).any fun s => decide (Keeps s (.deliver stoppedAt)) &&
        (turn 1 s (.deliver stoppedAt)).any fun s => decide (s.outer.length = 2)) = true) := by
    decide +kernel
  obtain ⟨allowed, facts⟩ := facts
  obtain ⟨s, first, facts⟩ := Option.any_eq_true _ _ |>.mp facts
  obtain ⟨allowed', facts⟩ := Bool.and_eq_true_iff.mp facts
  obtain ⟨s', second, facts⟩ := Option.any_eq_true _ _ |>.mp facts
  have reached : Reached (turn 1) (fun s => s.outer = []) Keeps (returned s') := by
    refine .step (e := .run s'.kernel (returned s').frame) ?_ (fun _ _ _ _ _ => rfl) rfl
    refine .step (e := .deliver stoppedAt) ?_ (of_decide_eq_true allowed') second
    exact .step (e := .deliver stoppedAt) (.start rfl) allowed first
  exact ⟨returned s', of_decide_eq_true facts, signals_nest reached⟩

end Nesting

end FiveAM.Process.SignalNesting
