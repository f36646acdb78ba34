/- GID: FiveAM/Process/PipeEnds
   source: kernel/src/pipe.rs, kernel/src/task.rs, kernel/src/syscall.rs
   digest: A pipe's end counts against the descriptor slots, one operation at a time. -/

import FiveAM.Process.Effects
import Mathlib.Algebra.BigOperators.Fin
import Mathlib.Algebra.Order.BigOperators.Group.Finset

set_option autoImplicit false
set_option relaxedAutoImplicit false

namespace FiveAM.Process.PipeEnds

open FiveAM.Process.TaskTable FiveAM.Process.Machine FiveAM.Process.Pipes
open FiveAM.Process.Effects FiveAM.Lib.ByteMemory

def NoEnds (files : Fin maxFiles → Descriptor) : Prop :=
  ∀ fd p, files fd ≠ .pipeRead p ∧ files fd ≠ .pipeWrite p

/-- `d` names an end of some pipe. -/
def IsEnd (d : Descriptor) : Prop := ∃ p, d = .pipeRead p ∨ d = .pipeWrite p

def entries (files : Fin maxFiles → Descriptor) (d : Descriptor) : Nat :=
  ∑ fd, if files fd = d then 1 else 0

/-- The slots that hold `d`, of any task. -/
def listed (tasks : Tasks) (d : Descriptor) : Nat := ∑ id, entries (tasks id).files d

private theorem sum_change {ι : Type} [Fintype ι] [DecidableEq ι] {f g : ι → Nat} (i : ι)
    (same : ∀ j, j ≠ i → g j = f j) : ∑ j, g j + f i = ∑ j, f j + g i := by
  have new := Finset.add_sum_erase Finset.univ g (Finset.mem_univ i)
  have old := Finset.add_sum_erase Finset.univ f (Finset.mem_univ i)
  have rest : ∑ j ∈ Finset.univ.erase i, g j = ∑ j ∈ Finset.univ.erase i, f j :=
    Finset.sum_congr rfl fun j member => same j (Finset.ne_of_mem_erase member)
  omega

private theorem entries_update (files : Fin maxFiles → Descriptor) (fd : Fin maxFiles)
    (new d : Descriptor) :
    entries (Function.update files fd new) d + (if files fd = d then 1 else 0) =
      entries files d + if new = d then 1 else 0 := by
  have change := sum_change (f := fun j => if files j = d then 1 else 0)
    (g := fun j => if Function.update files fd new j = d then 1 else 0) fd
    (fun j other => by rw [Function.update_of_ne other])
  simpa only [Function.update_self, entries] using change

private theorem listed_setTask (k : Kernel) (id : TaskId) (task : Task) (d : Descriptor) :
    listed (k.setTask id task).tasks d + entries (k.tasks id).files d =
      listed k.tasks d + entries task.files d := by
  have change := sum_change (f := fun j => entries (k.tasks j).files d)
    (g := fun j => entries ((k.setTask id task).tasks j).files d) id
    (fun j other => by simp only [Kernel.setTask, Function.update_of_ne other])
  simpa only [Kernel.setTask, Function.update_self, listed] using change

theorem entries_of_noEnds {files : Fin maxFiles → Descriptor} (none : NoEnds files)
    {d : Descriptor} (pipeEnd : IsEnd d) : entries files d = 0 := by
  refine Finset.sum_eq_zero fun fd _ => if_neg fun held => ?_
  obtain ⟨p, rfl | rfl⟩ := pipeEnd
  · exact (none fd p).1 held
  · exact (none fd p).2 held

private theorem entries_eq_count (files : Fin maxFiles → Descriptor) (d : Descriptor) :
    entries files d = (List.ofFn files).count d := by
  simp only [entries, List.ofFn_succ, List.ofFn_zero, List.count_cons, List.count_nil,
    Fin.sum_univ_succ, Fin.sum_univ_zero, beq_iff_eq]
  omega

/-- The counts are right when the ends in `hand`, which no slot holds, are
counted too. -/
structure Balanced (k : Kernel) (hand : List Descriptor) : Prop where
  readers : ∀ p, (k.pipes p).readers = listed k.tasks (.pipeRead p) + hand.count (.pipeRead p)
  writers : ∀ p, (k.pipes p).writers = listed k.tasks (.pipeWrite p) + hand.count (.pipeWrite p)
  used : ∀ p, (k.pipes p).used = true ↔ (k.pipes p).readers ≠ 0 ∨ (k.pipes p).writers ≠ 0

theorem Balanced.of_same {k k' : Kernel} {hand : List Descriptor}
    (balanced : Balanced k hand) (files : ∀ id, (k'.tasks id).files = (k.tasks id).files)
    (pipes : k'.pipes = k.pipes) : Balanced k' hand := by
  have same : ∀ d, listed k'.tasks d = listed k.tasks d := fun d => by
    simp only [listed, files]
  refine ⟨fun p => ?_, fun p => ?_, fun p => ?_⟩
  · rw [pipes, same]; exact balanced.readers p
  · rw [pipes, same]; exact balanced.writers p
  · rw [pipes]; exact balanced.used p

private theorem balanced_plain {k : Kernel} {d : Descriptor} {hand : List Descriptor}
    (plain : ¬IsEnd d) : Balanced k (d :: hand) ↔ Balanced k hand := by
  have skip : ∀ e, IsEnd e → (d :: hand).count e = hand.count e := fun e pipeEnd =>
    List.count_cons_of_ne fun same : d = e => plain (same ▸ pipeEnd)
  constructor
  · intro balanced
    refine ⟨fun p => ?_, fun p => ?_, balanced.used⟩
    · rw [balanced.readers p, skip _ ⟨p, Or.inl rfl⟩]
    · rw [balanced.writers p, skip _ ⟨p, Or.inr rfl⟩]
  · intro balanced
    refine ⟨fun p => ?_, fun p => ?_, balanced.used⟩
    · rw [balanced.readers p, skip _ ⟨p, Or.inl rfl⟩]
    · rw [balanced.writers p, skip _ ⟨p, Or.inr rfl⟩]

private theorem not_isEnd_free : ¬IsEnd .free := by
  rintro ⟨p, same | same⟩ <;> cases same

private theorem not_isEnd_console : ¬IsEnd .console := by
  rintro ⟨p, same | same⟩ <;> cases same

private theorem Balanced.setFile {k : Kernel} {new : Descriptor} {hand : List Descriptor}
    (balanced : Balanced k (new :: hand)) (id : TaskId) (fd : Fin maxFiles) :
    Balanced (setFile k id fd new) ((k.tasks id).files fd :: hand) := by
  have moved : ∀ d, listed (Pipes.setFile k id fd new).tasks d +
      (if (k.tasks id).files fd = d then 1 else 0) = listed k.tasks d + if new = d then 1 else 0 := by
    intro d
    have table := listed_setTask k id
      { k.tasks id with files := Function.update (k.tasks id).files fd new } d
    have slots := entries_update (k.tasks id).files fd new d
    simp only [Pipes.setFile] at table ⊢
    omega
  refine ⟨fun p => ?_, fun p => ?_, balanced.used⟩
  · have here := balanced.readers p
    have table := moved (.pipeRead p)
    simp only [List.count_cons, beq_iff_eq] at here ⊢
    simp only [Pipes.setFile, Kernel.setTask] at table ⊢
    omega
  · have here := balanced.writers p
    have table := moved (.pipeWrite p)
    simp only [List.count_cons, beq_iff_eq] at here ⊢
    simp only [Pipes.setFile, Kernel.setTask] at table ⊢
    omega

theorem Balanced.setPipe {k : Kernel} {hand hand' : List Descriptor}
    (balanced : Balanced k hand) {p : PipeId} {pipe : Pipe}
    (readers : pipe.readers + hand.count (.pipeRead p) =
      (k.pipes p).readers + hand'.count (.pipeRead p))
    (writers : pipe.writers + hand.count (.pipeWrite p) =
      (k.pipes p).writers + hand'.count (.pipeWrite p))
    (used : pipe.used = true ↔ pipe.readers ≠ 0 ∨ pipe.writers ≠ 0)
    (others : ∀ q, q ≠ p → hand'.count (.pipeRead q) = hand.count (.pipeRead q) ∧
      hand'.count (.pipeWrite q) = hand.count (.pipeWrite q)) :
    Balanced (setPipe k p pipe) hand' := by
  refine ⟨fun q => ?_, fun q => ?_, fun q => ?_⟩ <;> by_cases same : q = p
  · subst same
    have here := balanced.readers q
    simp only [Pipes.setPipe, Function.update_self]
    omega
  · simp only [Pipes.setPipe, Function.update_of_ne same, (others q same).1]
    exact balanced.readers q
  · subst same
    have here := balanced.writers q
    simp only [Pipes.setPipe, Function.update_self]
    omega
  · simp only [Pipes.setPipe, Function.update_of_ne same, (others q same).2]
    exact balanced.writers q
  · subst same
    simpa only [Pipes.setPipe, Function.update_self] using used
  · simp only [Pipes.setPipe, Function.update_of_ne same]
    exact balanced.used q

private theorem Balanced.wakeAll {k : Kernel} {hand : List Descriptor} (balanced : Balanced k hand)
    (channel : Word) : Balanced (k.wakeAll channel) hand := by
  refine balanced.of_same (fun id => ?_) rfl
  simp only [Kernel.wakeAll]
  split_ifs <;> rfl

private theorem Balanced.closeReader {k : Kernel} {p : PipeId} {hand : List Descriptor}
    (balanced : Balanced k (.pipeRead p :: hand)) : Balanced (closeReader k p) hand := by
  have here := balanced.readers p
  have inUse := balanced.used p
  rw [List.count_cons_self] at here
  refine Balanced.wakeAll (balanced.setPipe ?_ ?_ ?_ fun q other => ?_) _
  · simp only [List.count_cons_self]
    split_ifs <;> simp only <;> omega
  · simp only [List.count_cons_of_ne (a := Descriptor.pipeWrite p) (b := .pipeRead p) (by simp)]
    split_ifs <;> rfl
  · split_ifs with both
    · simpa using both
    · have live : (k.pipes p).used = true := inUse.mpr (Or.inl (by omega))
      simp only [live, true_iff]
      tauto
  · exact ⟨(List.count_cons_of_ne (by simpa using Ne.symm other)).symm,
      (List.count_cons_of_ne (by simp)).symm⟩

private theorem Balanced.closeWriter {k : Kernel} {p : PipeId} {hand : List Descriptor}
    (balanced : Balanced k (.pipeWrite p :: hand)) : Balanced (closeWriter k p) hand := by
  have here := balanced.writers p
  have inUse := balanced.used p
  rw [List.count_cons_self] at here
  refine Balanced.wakeAll (balanced.setPipe ?_ ?_ ?_ fun q other => ?_) _
  · simp only [List.count_cons_of_ne (a := Descriptor.pipeRead p) (b := .pipeWrite p) (by simp)]
    split_ifs <;> rfl
  · simp only [List.count_cons_self]
    split_ifs <;> simp only <;> omega
  · split_ifs with both
    · simpa using both
    · have live : (k.pipes p).used = true := inUse.mpr (Or.inr (by omega))
      simp only [live, true_iff]
      tauto
  · exact ⟨(List.count_cons_of_ne (by simp)).symm,
      (List.count_cons_of_ne (by simpa using Ne.symm other)).symm⟩

private theorem Balanced.dropDescriptor {k : Kernel} {d : Descriptor} {hand : List Descriptor}
    (balanced : Balanced k (d :: hand)) : Balanced (dropDescriptor k d).2 hand := by
  cases d with
  | free => exact (balanced_plain not_isEnd_free).mp balanced
  | console => exact (balanced_plain not_isEnd_console).mp balanced
  | pipeRead p => exact balanced.closeReader
  | pipeWrite p => exact balanced.closeWriter

theorem Balanced.closeDescriptor {k : Kernel} {hand : List Descriptor}
    (balanced : Balanced k hand) (id : TaskId) (fd : Nat) :
    Balanced (closeDescriptor k id fd).2 hand := by
  unfold Pipes.closeDescriptor
  split_ifs with bound
  · exact (((balanced_plain not_isEnd_free).mpr balanced).setFile id ⟨fd, bound⟩).dropDescriptor
  · exact ((balanced_plain not_isEnd_free).mpr balanced).dropDescriptor

theorem Balanced.closeAllDescriptors {k : Kernel} {hand : List Descriptor}
    (balanced : Balanced k hand) (id : TaskId) : Balanced (closeAllDescriptors k id) hand := by
  unfold Pipes.closeAllDescriptors
  exact List.foldlRecOn (motive := fun k => Balanced k hand) _ _ balanced
    fun _ here fd _ => here.closeDescriptor id fd

private theorem Balanced.shareDescriptor {k : Kernel} {d : Descriptor} {hand : List Descriptor}
    (balanced : Balanced k hand) (held : 0 < listed k.tasks d) :
    Balanced (shareDescriptor k d) (d :: hand) := by
  cases d with
  | free => exact (balanced_plain not_isEnd_free).mpr balanced
  | console => exact (balanced_plain not_isEnd_console).mpr balanced
  | pipeRead p =>
      have here := balanced.readers p
      have live : (k.pipes p).used = true := (balanced.used p).mpr (Or.inl (by omega))
      refine balanced.setPipe ?_ ?_ ?_ fun q other => ?_
      · simp only [List.count_cons_self]
        omega
      · simp only [List.count_cons_of_ne (a := Descriptor.pipeWrite p) (b := .pipeRead p) (by simp)]
      · simp [live]
      · exact ⟨List.count_cons_of_ne (by simpa using Ne.symm other), List.count_cons_of_ne (by simp)⟩
  | pipeWrite p =>
      have here := balanced.writers p
      have live : (k.pipes p).used = true := (balanced.used p).mpr (Or.inr (by omega))
      refine balanced.setPipe ?_ ?_ ?_ fun q other => ?_
      · simp only [List.count_cons_of_ne (a := Descriptor.pipeRead p) (b := .pipeWrite p) (by simp)]
      · simp only [List.count_cons_self]
        omega
      · simp [live]
      · exact ⟨List.count_cons_of_ne (by simp), List.count_cons_of_ne (by simpa using Ne.symm other)⟩

private theorem Balanced.create {k k' : Kernel} {p : PipeId} {hand : List Descriptor}
    (balanced : Balanced k hand) (made : create k = (some p, k')) :
    Balanced k' (.pipeRead p :: .pipeWrite p :: hand) := by
  unfold Pipes.create at made
  split at made
  · simp at made
  · rename_i id found
    simp only [Prod.mk.injEq, Option.some.injEq] at made
    obtain ⟨rfl, rfl⟩ := made
    have unused : (k.pipes id).used = false := by simpa using List.find?_some found
    have readers := balanced.readers id
    have writers := balanced.writers id
    have idle : ¬((k.pipes id).readers ≠ 0 ∨ (k.pipes id).writers ≠ 0) := by
      rw [← balanced.used id, unused]
      simp
    refine balanced.setPipe ?_ ?_ (by simp) fun q other => ?_
    · simp only [List.count_cons, beq_self_eq_true, if_true]
      simp
      omega
    · simp only [List.count_cons, beq_self_eq_true, if_true]
      simp
      omega
    · have apart : ¬id = q := fun same => other same.symm
      simp [apart]

private theorem Balanced.addDescriptor {k k' : Kernel} {id : TaskId} {d : Descriptor}
    {fd : Fin maxFiles} {hand : List Descriptor} (balanced : Balanced k (d :: hand))
    (added : addDescriptor k id d = (some fd, k')) : Balanced k' hand := by
  obtain ⟨free, rfl⟩ := addDescriptor_some added
  have stored := balanced.setFile id fd
  rw [free] at stored
  exact (balanced_plain not_isEnd_free).mp stored

private theorem Balanced.storeView {k : Kernel} {hand : List Descriptor} (balanced : Balanced k hand)
    (m : Bytes) : Balanced (k.storeView m) hand :=
  balanced.of_same (fun _ => rfl) rfl

theorem Balanced.makePipe {k k' : Kernel} {answer : Word} (balanced : Balanced k [])
    (run : MakePipe k answer k') : Balanced k' [] := by
  cases run with
  | refused => exact balanced
  | noReadSlot made => exact (balanced.create made).closeReader.closeWriter
  | noWriteSlot made readEnd =>
      exact (((balanced.create made).addDescriptor readEnd).closeDescriptor _ _).closeWriter
  | stored made readEnd writeEnd low =>
      exact (((balanced.create made).addDescriptor readEnd).addDescriptor writeEnd).storeView _

theorem closeDescriptor_files (k : Kernel) (id : TaskId) (fd : Fin maxFiles) :
    ((closeDescriptor k id fd).2.tasks id).files =
      Function.update (k.tasks id).files fd .free := by
  unfold Pipes.closeDescriptor
  rw [dif_pos fd.isLt, (tame_dropDescriptor _ _ ∅).files id (Set.notMem_empty id)]
  simp only [Pipes.setFile, Kernel.setTask, Function.update_self]

theorem makePipe_files {k k' : Kernel} {answer : Word} (run : MakePipe k answer k')
    (failed : answer = failure) (id : TaskId) : (k'.tasks id).files = (k.tasks id).files := by
  have out := Set.notMem_empty id
  cases run with
  | refused => rfl
  | noReadSlot made =>
      exact ((tame_made made ∅).trans
        ((tame_closeReader _ _ ∅).trans (tame_closeWriter _ _ ∅))).files id out
  | @noWriteSlot p k₁ k₂ fd made readEnd =>
      obtain ⟨free, rfl⟩ := addDescriptor_some readEnd
      rw [(tame_closeWriter _ p ∅).files id out]
      by_cases self : id = k₁.current
      · subst self
        rw [closeDescriptor_files]
        simp only [Pipes.setFile, Kernel.setTask, Function.update_self, Function.update_idem]
        rw [← free, Function.update_eq_self]
        exact (tame_made made ∅).files _ (Set.notMem_empty _)
      · rw [(tame_closeDescriptor _ k₁.current fd).files id self,
          (tame_setFile k₁ k₁.current fd _).files id self]
        exact (tame_made made ∅).files id out
  | stored made readEnd writeEnd low => exact absurd failed (by decide)

theorem descriptor_listed {k : Kernel} {id : TaskId} {fd : Fin maxFiles} {d : Descriptor}
    (held : (k.tasks id).files fd = d) : 0 < listed k.tasks d := by
  refine lt_of_lt_of_le ?_ (Finset.single_le_sum (f := fun id => entries (k.tasks id).files d)
    (fun _ _ => Nat.zero_le _) (Finset.mem_univ id))
  refine lt_of_lt_of_le ?_ (Finset.single_le_sum
    (f := fun fd => if (k.tasks id).files fd = d then 1 else 0) (fun _ _ => Nat.zero_le _)
    (Finset.mem_univ fd))
  rw [if_pos held]
  exact Nat.one_pos

theorem Balanced.duplicateDescriptor {k : Kernel} (balanced : Balanced k [])
    (id : TaskId) (old new : Nat) : Balanced (duplicateDescriptor k id old new).2 [] := by
  simp only [Pipes.duplicateDescriptor]
  split_ifs with bound empty same
  · exact balanced
  · exact balanced
  · have source : descriptor k id old = (k.tasks id).files ⟨old, bound.1⟩ := dif_pos bound.1
    have files := closeDescriptor_files k id ⟨new, bound.2⟩
    have kept : ((Pipes.closeDescriptor k id new).2.tasks id).files ⟨old, bound.1⟩ =
        descriptor k id old := by
      rw [files, Function.update_of_ne (by simpa using same), source]
    have shared := ((balanced.closeDescriptor id new).shareDescriptor
      (descriptor_listed kept)).setFile id ⟨new, bound.2⟩
    rw [(tame_shareDescriptor _ _ ∅).files id (Set.notMem_empty id), files,
      Function.update_self] at shared
    exact (balanced_plain not_isEnd_free).mp shared
  · exact balanced

private theorem closeFold_files (k : Kernel) (id : TaskId) (fds : List Nat) (fd : Fin maxFiles)
    (closed : fd.val ∈ fds ∨ (k.tasks id).files fd = .free) :
    ((fds.foldl (fun k fd => (closeDescriptor k id fd).2) k).tasks id).files fd = .free := by
  induction fds generalizing k with
  | nil => simpa using closed
  | cons first rest ih =>
      refine ih _ ?_
      by_cases here : fd.val = first
      · right
        subst here
        rw [closeDescriptor_files, Function.update_self]
      · refine closed.imp (fun member => ?_) fun free => ?_
        · exact (List.mem_cons.mp member).resolve_left here
        · by_cases bound : first < maxFiles
          · rw [closeDescriptor_files k id ⟨first, bound⟩,
              Function.update_of_ne fun same => here (congrArg Fin.val same), free]
          · simpa [Pipes.closeDescriptor, bound, Pipes.dropDescriptor] using free

theorem closeAllDescriptors_noEnds (k : Kernel) (id : TaskId) :
    NoEnds ((closeAllDescriptors k id).tasks id).files := by
  intro fd p
  have free := closeFold_files k id (List.range maxFiles) fd
    (Or.inl (List.mem_range.mpr fd.isLt))
  unfold Pipes.closeAllDescriptors
  rw [free]
  exact ⟨by simp, by simp⟩

theorem Balanced.adopt {k : Kernel} (id : TaskId) (task : Task) {hand : List Descriptor}
    (balanced : Balanced k ((List.ofFn task.files).reverse ++ hand))
    (vacant : NoEnds (k.tasks id).files) : Balanced (k.setTask id task) hand := by
  have moved : ∀ d, IsEnd d → listed (k.setTask id task).tasks d =
      listed k.tasks d + (List.ofFn task.files).count d := by
    intro d pipeEnd
    have table := listed_setTask k id task d
    rw [entries_of_noEnds vacant pipeEnd, entries_eq_count, Nat.add_zero] at table
    exact table
  refine ⟨fun p => ?_, fun p => ?_, balanced.used⟩
  · have here := balanced.readers p
    rw [List.count_append, List.count_reverse] at here
    rw [moved _ ⟨p, Or.inl rfl⟩]
    simp only [Kernel.setTask]
    omega
  · have here := balanced.writers p
    rw [List.count_append, List.count_reverse] at here
    rw [moved _ ⟨p, Or.inr rfl⟩]
    simp only [Kernel.setTask]
    omega

theorem Balanced.replace {k : Kernel} {hand : List Descriptor} (balanced : Balanced k hand)
    (id : TaskId) (task : Task) (vacant : NoEnds (k.tasks id).files) (empty : NoEnds task.files) :
    Balanced (k.setTask id task) hand := by
  refine Balanced.adopt id task ?_ vacant
  have none : ∀ d, IsEnd d → (List.ofFn task.files).reverse.count d = 0 := fun d pipeEnd => by
    rw [List.count_reverse, ← entries_eq_count, entries_of_noEnds empty pipeEnd]
  refine ⟨fun p => ?_, fun p => ?_, balanced.used⟩
  · rw [List.count_append, none _ ⟨p, Or.inl rfl⟩, Nat.zero_add]
    exact balanced.readers p
  · rw [List.count_append, none _ ⟨p, Or.inr rfl⟩, Nat.zero_add]
    exact balanced.writers p

theorem Balanced.shareFold {k : Kernel} {hand : List Descriptor} (balanced : Balanced k hand)
    (ds : List Descriptor) (held : ∀ d ∈ ds, 0 < listed k.tasks d) :
    Balanced (ds.foldl Pipes.shareDescriptor k) (ds.reverse ++ hand) := by
  induction ds generalizing k hand with
  | nil => exact balanced
  | cons d rest ih =>
      have first := balanced.shareDescriptor (held d List.mem_cons_self)
      have later := ih first fun e member => by
        rw [shareDescriptor_tasks]
        exact held e (List.mem_cons_of_mem d member)
      simpa only [List.foldl_cons, List.reverse_cons, List.append_assoc, List.singleton_append]
        using later

end FiveAM.Process.PipeEnds
