/- GID: FiveAM/Process/SignalFrames
   source: kernel/src/signal.rs, kernel/src/memory.rs
   digest: Which user addresses a delivery writes and a return reads, and when ring 3 may. -/

import FiveAM.Process.FrameMemory
import FiveAM.Process.System
import FiveAM.Memory.PageTables

set_option autoImplicit false
set_option relaxedAutoImplicit false

namespace FiveAM.Process.SignalFrames

open FiveAM.Process.TaskTable FiveAM.Process.Machine FiveAM.Process.Signals
open FiveAM.Process.FrameMemory FiveAM.Lib.ByteMemory
open FiveAM.Memory.Entries FiveAM.Memory.Frames FiveAM.Memory.Replace FiveAM.Memory.PageTables

/-- A word at an address the program chose, as `deliver` and `restore` touch it. -/
structure Access where
  address : Word
  write : Bool

/-- The addresses of the eight bytes of an access. -/
def Access.bytes (access : Access) : List Word :=
  (List.range 8).map fun n => access.address + BitVec.ofNat 64 n

/-- The words of a frame on the user's stack, lowest first. -/
def frameAccesses (a : Word) (write : Bool) : List Access :=
  (List.finRange frameWords).map fun i => ⟨a + BitVec.ofNat 64 (8 * i.val), write⟩

/-- The words `deliver` touches on the user's stack, in its own branches. -/
def deliverAccesses (k : Kernel) (id : TaskId) (frame : Word) : List Access :=
  match takePendingSignal k id with
  | (none, _) => []
  | (some signal, k) =>
      if readFrame k.view frame frameCs &&& 3 ≠ 3 then []
      else
        let handler := signalHandler k id signal
        if handler = 0 ∨ catchable signal = false then []
        else
          let restorer := signalRestorer k id
          if restorer = 0 then []
          else
            let saved := savedAt (readFrame k.view frame frameRsp)
            frameAccesses saved true ++ [⟨saved - 8, true⟩]

/-- The words `restore` touches on the user's stack. -/
def restoreAccesses (k : Kernel) (frame : Word) : List Access :=
  frameAccesses (readFrame k.view frame frameRsp) false

/-- The processor's own check of an access by ring 3, from a table at a level on:
the user bit at every level, and for a store the writable bit too, where a
copy-on-write page counts as writable. -/
def ringThree (s : Paging) (write : Bool) (address : Word) : Nat → Word → Bool
  | 0, table =>
      let entry := s.words table (indexes address 0)
      has entry present && has entry user && (!write || has entry writable || has entry cow)
  | level + 1, table =>
      let entry := s.words table (indexes address (level + 1))
      has entry present && has entry user && (!write || has entry writable) &&
        (has entry huge || ringThree s write address level (frameOf entry))

def UserMay (s : Paging) (write : Bool) (address : Word) : Prop :=
  Canonical address ∧ ringThree s write address 3 s.cr3 = true

instance (s : Paging) (write : Bool) (address : Word) : Decidable (UserMay s write address) :=
  inferInstanceAs (Decidable (_ ∧ _))

structure Running where
  kernel : Kernel
  paging : Paging
  active : paging.cr3 = kernel.activeRoot.val

/-- Every byte of these accesses is one ring 3 may access the same way. -/
def Confined (s : Paging) (accesses : List Access) : Prop :=
  ∀ access ∈ accesses, ∀ x ∈ access.bytes, UserMay s access.write x

section Effects

private theorem fold_writes (a : Word) (value : Bytes → Fin frameWords → Word) {x : Nat}
    (clear : ∀ i : Fin frameWords, Clear (slot a i) 8 x) (is : List (Fin frameWords)) (m : Bytes) :
    is.foldl (fun m (i : Fin frameWords) => writeWord m (slot a i) (value m i)) m x = m x := by
  induction is generalizing m with
  | nil => rfl
  | cons i rest ih => rw [List.foldl_cons, ih, writeWord_outside (clear i)]

private theorem fold_reads {a b : Word} {S : Nat → Prop}
    (reads : ∀ i : Fin frameWords, ∀ x, slot b i ≤ x → x < slot b i + 8 → S x)
    (is : List (Fin frameWords)) {m m' : Bytes} (same : ∀ x, S x → m x = m' x) :
    ∀ x, S x →
      is.foldl (fun m (i : Fin frameWords) => writeWord m (slot a i) (readWord m (slot b i))) m x =
        is.foldl (fun m (i : Fin frameWords) => writeWord m (slot a i) (readWord m (slot b i))) m' x := by
  induction is generalizing m m' with
  | nil => exact same
  | cons i rest ih =>
      rw [List.foldl_cons, List.foldl_cons]
      refine ih fun x inside => ?_
      have word : readWord m (slot b i) = readWord m' (slot b i) :=
        readWord_congr fun y low high => same y (reads i y low high)
      unfold writeWord
      rw [word, same x inside]

theorem deliver_outside (k : Kernel) (id : TaskId) (frame : Word) {x : Nat}
    (away : ∀ access ∈ deliverAccesses k id frame, Clear access.address.toNat 8 x)
    (clear : ∀ i : Fin frameWords, Clear (slot frame i) 8 x) :
    (deliver k id frame).2.view x = k.view x := by
  by_cases quiet : (k.tasks id).pending = 0
  · simp only [deliver, takePendingSignal, if_pos quiet]
  · have view : ∀ task, (k.setTask id task).view = k.view := fun _ => rfl
    simp only [deliver, deliverAccesses, takePendingSignal, if_neg quiet, view] at away ⊢
    by_cases ring : readFrame k.view frame frameCs &&& 3 = 3
    · rw [if_neg (not_not.mpr ring)] at away ⊢
      split_ifs with unhandled bare
      · rfl
      · rfl
      · rw [if_neg unhandled, if_neg bare] at away
        have stored : ∀ m : Bytes, ((k.setTask id { k.tasks id with
            pending := (k.tasks id).pending &&& ~~~(1#32 <<< trailingZeros (k.tasks id).pending)
            }).storeView m).view = m := fun m => Memory.view_store _ _ m
        rw [stored]
        simp only [enterHandler]
        rw [writeWord_outside (clear frameRsp), writeWord_outside (clear frameRdi),
          writeWord_outside (clear frameRip),
          writeWord_outside (away ⟨_, true⟩ (List.mem_append_right _ List.mem_cons_self)),
          copyFrame]
        refine fold_writes _ (fun m i => readWord m (slot frame i)) (fun i => ?_) _ _
        exact away ⟨_, true⟩ (List.mem_append_left _
          (List.mem_map.mpr ⟨i, List.mem_finRange i, rfl⟩))
    · rw [if_pos ring]
      rfl

theorem restore_reads {k k' : Kernel} {frame : Word}
    (saved : readFrame k.view frame frameRsp = readFrame k'.view frame frameRsp) {S : Nat → Prop}
    (words : ∀ access ∈ restoreAccesses k frame, ∀ x, access.address.toNat ≤ x →
      x < access.address.toNat + 8 → S x)
    (same : ∀ x, S x → k.view x = k'.view x) {x : Nat} (inside : S x) :
    (restore k frame).view x = (restore k' frame).view x := by
  have stored : ∀ (k : Kernel) (m : Bytes), (k.storeView m).view = m :=
    fun k m => Memory.view_store _ _ m
  unfold restore
  rw [stored, stored, ← saved]
  unfold copyFrame
  refine fold_reads (fun i x low high => ?_) _ same x inside
  exact words ⟨_, false⟩ (List.mem_map.mpr ⟨i, List.mem_finRange i, rfl⟩) x low high

end Effects

section Pages

variable {s : Paging} {write : Bool} {a b : Word}

private theorem indexes_page (same : a.toNat / 4096 = b.toNat / 4096) (level : Nat) :
    indexes a level = indexes b level := by
  have shift : ∀ w : Word, (w >>> (12 + 9 * level)).toNat = w.toNat / 4096 / 2 ^ (9 * level) := by
    intro w
    rw [BitVec.toNat_ushiftRight, Nat.shiftRight_eq_div_pow, pow_add, Nat.div_div_eq_div_mul]
    rfl
  unfold indexes
  simp only [shift, same]

theorem ringThree_page (same : a.toNat / 4096 = b.toNat / 4096) (level : Nat)
    (table : Word) : ringThree s write a level table = ringThree s write b level table := by
  induction level generalizing table with
  | zero => simp only [ringThree, indexes_page same]
  | succ level ih => simp only [ringThree, indexes_page same, ih]

theorem userMay_page (same : a.toNat / 4096 = b.toNat / 4096) :
    UserMay s write a ↔ UserMay s write b := by
  unfold UserMay
  rw [ringThree_page same]
  refine and_congr_left fun _ => ?_
  unfold Canonical
  have bound := a.isLt
  have bound' := b.isLt
  omega

theorem two_pages (a : Word) {n d : Nat} (short : n < 4096) (inside : d ≤ n) :
    (a + BitVec.ofNat 64 d).toNat / 4096 = a.toNat / 4096 ∨
      (a + BitVec.ofNat 64 d).toNat / 4096 = (a + BitVec.ofNat 64 n).toNat / 4096 := by
  have bound := a.isLt
  simp only [BitVec.toNat_add, BitVec.toNat_ofNat, Nat.mod_eq_of_lt (show d < 2 ^ 64 by omega),
    Nat.mod_eq_of_lt (show n < 2 ^ 64 by omega)]
  omega

theorem range_iff (a : Word) {n : Nat} (short : n < 4096) :
    (∀ d, d ≤ n → UserMay s write (a + BitVec.ofNat 64 d)) ↔
      UserMay s write a ∧ UserMay s write (a + BitVec.ofNat 64 n) := by
  constructor
  · intro all
    have first := all 0 (Nat.zero_le n)
    rw [BitVec.add_zero] at first
    exact ⟨first, all n (Nat.le_refl n)⟩
  · rintro ⟨first, last⟩ d inside
    rcases two_pages a short inside with low | high
    · exact (userMay_page low).mpr first
    · exact (userMay_page high).mpr last

end Pages

section Delivery

variable {s : Paging} {write : Bool} {a : Word}

private theorem add_ofNat (a : Word) (m n : Nat) :
    a + BitVec.ofNat 64 m + BitVec.ofNat 64 n = a + BitVec.ofNat 64 (m + n) := by
  rw [BitVec.add_assoc, ← BitVec.ofNat_add]

theorem confined_frame : Confined s (frameAccesses a write) ↔
    ∀ d, d ≤ 159 → UserMay s write (a + BitVec.ofNat 64 d) := by
  constructor
  · intro confined d inside
    have word := confined ⟨a + BitVec.ofNat 64 (8 * (d / 8)), write⟩
      (List.mem_map.mpr ⟨⟨d / 8, by unfold frameWords; omega⟩, List.mem_finRange _, rfl⟩)
      (a + BitVec.ofNat 64 (8 * (d / 8)) + BitVec.ofNat 64 (d % 8))
      (List.mem_map.mpr ⟨d % 8, List.mem_range.mpr (Nat.mod_lt _ (by decide)), rfl⟩)
    rw [add_ofNat, Nat.div_add_mod] at word
    exact word
  · intro all access member x byte
    obtain ⟨i, -, rfl⟩ := List.mem_map.mp member
    obtain ⟨n, low, rfl⟩ := List.mem_map.mp byte
    have bound : i.val < 20 := i.isLt
    have small := List.mem_range.mp low
    simp only [add_ofNat]
    exact all _ (by omega)

theorem confined_pushed : Confined s (frameAccesses a write ++ [⟨a - 8, write⟩]) ↔
    ∀ d, d ≤ 167 → UserMay s write (a - 8 + BitVec.ofNat 64 d) := by
  have shift : ∀ d, a + BitVec.ofNat 64 d = a - 8 + BitVec.ofNat 64 (8 + d) := by
    intro d
    rw [← add_ofNat, show BitVec.ofNat 64 8 = (8 : Word) from rfl, BitVec.sub_add_cancel]
  constructor
  · intro confined d inside
    by_cases below : d < 8
    · exact confined ⟨a - 8, write⟩ (List.mem_append_right _ List.mem_cons_self) _
        (List.mem_map.mpr ⟨d, List.mem_range.mpr below, rfl⟩)
    · have upper := confined_frame.mp (fun access member => confined access
        (List.mem_append_left _ member)) (d - 8) (by omega)
      rw [shift, Nat.add_sub_cancel' (Nat.not_lt.mp below)] at upper
      exact upper
  · intro all access member
    rcases List.mem_append.mp member with upper | lower
    · refine confined_frame.mpr (fun d inside => ?_) access upper
      rw [shift]
      exact all _ (by omega)
    · rw [List.mem_singleton.mp lower]
      intro x byte
      obtain ⟨n, low, rfl⟩ := List.mem_map.mp byte
      have small := List.mem_range.mp low
      exact all n (by omega)

theorem deliverAccesses_eq (k : Kernel) (id : TaskId) (frame : Word) :
    deliverAccesses k id frame =
      if (k.tasks id).pending ≠ 0 ∧ readFrame k.view frame frameCs &&& 3 = 3 ∧
          ¬Fatal (k.tasks id) then
        frameAccesses (savedAt (readFrame k.view frame frameRsp)) true ++
          [⟨savedAt (readFrame k.view frame frameRsp) - 8, true⟩]
      else [] := by
  by_cases quiet : (k.tasks id).pending = 0
  · simp [deliverAccesses, takePendingSignal, quiet]
  · have view : ∀ task, (k.setTask id task).view = k.view := fun _ => rfl
    simp only [deliverAccesses, takePendingSignal, if_neg quiet, view]
    by_cases ring : readFrame k.view frame frameCs &&& 3 = 3
    · rw [if_neg (not_not.mpr ring)]
      simp only [signalHandler, signalRestorer, Kernel.setTask, Function.update_self, Fatal,
        catchable, decide_eq_false_iff_not, ne_eq, not_not, quiet, not_false_eq_true, true_and,
        ring, not_or]
      split_ifs <;> first | rfl | tauto
    · rw [if_pos ring, if_neg fun entered => ring entered.2.1]

/-- A delivery and a return stay within what ring 3 may touch exactly when no
handler is entered or the pages under the two ends of the pushed frame are ones
ring 3 may write, and the pages under the two ends of the restored frame ones it
may read. -/
theorem signal_frames_confined_iff (r : Running) (id : TaskId) (frame : Word) :
    (Confined r.paging (deliverAccesses r.kernel id frame) ↔
      ((r.kernel.tasks id).pending ≠ 0 → readFrame r.kernel.view frame frameCs &&& 3 = 3 →
        ¬Fatal (r.kernel.tasks id) →
        UserMay r.paging true (savedAt (readFrame r.kernel.view frame frameRsp) - 8) ∧
          UserMay r.paging true (savedAt (readFrame r.kernel.view frame frameRsp) + 159))) ∧
    (Confined r.paging (restoreAccesses r.kernel frame) ↔
      UserMay r.paging false (readFrame r.kernel.view frame frameRsp) ∧
        UserMay r.paging false (readFrame r.kernel.view frame frameRsp + 159)) := by
  constructor
  · rw [deliverAccesses_eq]
    split_ifs with entered
    · rw [confined_pushed, range_iff _ (by decide)]
      have top : savedAt (readFrame r.kernel.view frame frameRsp) - 8 + BitVec.ofNat 64 167 =
          savedAt (readFrame r.kernel.view frame frameRsp) + 159 := by
        rw [show BitVec.ofNat 64 167 = (8 : Word) + 159 from rfl, ← BitVec.add_assoc,
          BitVec.sub_add_cancel]
      rw [top]
      exact ⟨fun both _ _ _ => both, fun both => both entered.1 entered.2.1 entered.2.2⟩
    · exact ⟨fun _ pending ring alive => absurd ⟨pending, ring, alive⟩ entered,
        fun _ access member => absurd member (List.not_mem_nil)⟩
  · exact confined_frame.trans (range_iff _ (by decide))

end Delivery

section Hostile

/-- The trap frame of a program that put an address of the kernel's, in slot 3,
into RSP. -/
private def hostileFrame : Frame :=
  Function.update (Function.update (fun _ => 0) frameCs userCode) frameRsp 0x18000001000

private def hostileKernel : Kernel :=
  { (System.boot ⟨writeFrame (fun _ => 0) 0x444444450f60 hostileFrame, fun _ _ => 0⟩
      (rootAt 0x1000) 0x444444451000 0).kernel with
    current := 1
    tasks := fun _ => { empty with
      state := .ready
      addressSpace := some (rootAt 0x1000)
      pending := 1 <<< sigint
      handlers := fun _ => 0x400000
      restorer := 0x400100 } }

private def hostilePaging : Paging where
  words frame i := if frame = 0x1000 ∧ i = 3 then 0x2000 ||| present ||| writable else 0
  head := 0
  free := 0
  shared := []
  cr3 := 0x1000
  replacers := ⟨⟨0⟩, ⟨fun _ => 0, fun _ => 0, 1⟩, ⟨seed⟩, 0⟩
  used _ := false
  disk := ⟨fun _ _ => 0, fun _ => none, 0, []⟩

/-- With RSP in the kernel's half, both a delivery and a return leave what ring 3
may touch, and the delivery has overwritten the kernel's byte there. -/
theorem signal_frame_in_kernel :
    ∃ (r : Running) (id : TaskId) (frame : Word) (x : Nat),
      readFrame r.kernel.view frame frameCs &&& 3 = 3 ∧ Machine.userSpaceEnd ≤ x ∧
        (deliver r.kernel id frame).2.view x ≠ r.kernel.view x ∧
        ¬Confined r.paging (deliverAccesses r.kernel id frame) ∧
        ¬Confined r.paging (restoreAccesses r.kernel frame) := by
  have facts : readFrame hostileKernel.view 0x444444450f60 frameCs &&& 3 = 3 ∧
      (deliver hostileKernel 1 0x444444450f60).2.view 0x18000000fe0 ≠
        hostileKernel.view 0x18000000fe0 ∧
      (⟨0x18000000f60, true⟩ : Word × Bool) ∈
        (deliverAccesses hostileKernel 1 0x444444450f60).map (fun a => (a.address, a.write)) ∧
      (⟨0x18000001000, false⟩ : Word × Bool) ∈
        (restoreAccesses hostileKernel 0x444444450f60).map (fun a => (a.address, a.write)) ∧
      ¬UserMay hostilePaging true 0x18000000f60 ∧ ¬UserMay hostilePaging false 0x18000001000 := by
    decide +kernel
  obtain ⟨ring, changed, stored, loaded, unwritable, unreadable⟩ := facts
  refine ⟨⟨hostileKernel, hostilePaging, rfl⟩, 1, 0x444444450f60, 0x18000000fe0, ring,
    by decide, changed, fun confined => ?_, fun confined => ?_⟩
  · obtain ⟨access, member, same⟩ := List.mem_map.mp stored
    refine unwritable ?_
    have first := confined access member access.address
      (List.mem_map.mpr ⟨0, List.mem_range.mpr (by decide), by simp⟩)
    rwa [(Prod.mk.inj same).1, (Prod.mk.inj same).2] at first
  · obtain ⟨access, member, same⟩ := List.mem_map.mp loaded
    refine unreadable ?_
    have first := confined access member access.address
      (List.mem_map.mpr ⟨0, List.mem_range.mpr (by decide), by simp⟩)
    rwa [(Prod.mk.inj same).1, (Prod.mk.inj same).2] at first

end Hostile

end FiveAM.Process.SignalFrames
