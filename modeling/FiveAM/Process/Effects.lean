/- GID: FiveAM/Process/Effects
   source: kernel/src/task.rs, kernel/src/pipe.rs, kernel/src/signal.rs, kernel/src/syscall.rs
   digest: What the kernel's operations leave alone, and how a task joins the table. -/

import FiveAM.Process.Syscalls
import Mathlib.Data.Set.Insert

set_option autoImplicit false
set_option relaxedAutoImplicit false

namespace FiveAM.Process.Effects

open FiveAM.Process.TaskTable FiveAM.Process.Machine FiveAM.Process.Pipes FiveAM.Process.Signals
open FiveAM.Process.Lifecycle FiveAM.Process.Syscalls FiveAM.Lib.ByteMemory

/-- A task stands on the same stack, saved at the same place. -/
structure SameLayout (task task' : Task) : Prop where
  stack : task'.stack = task.stack
  top : task'.kernelStackTop = task.kernelStackTop
  pointer : task'.stackPointer = task.stackPointer

theorem SameLayout.refl (task : Task) : SameLayout task task := ⟨rfl, rfl, rfl⟩

theorem SameLayout.trans {a b c : Task} (first : SameLayout a b) (second : SameLayout b c) :
    SameLayout a c :=
  ⟨second.stack.trans first.stack, second.top.trans first.top,
    second.pointer.trans first.pointer⟩

/-- No task comes, goes, moves or becomes a program's, and only the tasks in
`changed` may have other descriptors than before. -/
structure Tame (k k' : Kernel) (changed : Set TaskId) : Prop where
  current : k'.current = k.current
  enabled : k'.enabled = k.enabled
  rsp0 : k'.rsp0 = k.rsp0
  files : ∀ id, id ∉ changed → (k'.tasks id).files = (k.tasks id).files
  space : ∀ id, (k'.tasks id).addressSpace.isSome = (k.tasks id).addressSpace.isSome
  live : ∀ id, (k'.tasks id).state.Live ↔ (k.tasks id).state.Live
  free : ∀ id, (k'.tasks id).state = .free ↔ (k.tasks id).state = .free
  layout : ∀ id, SameLayout (k.tasks id) (k'.tasks id)

theorem Tame.of_tasks {k k' : Kernel} (changed : Set TaskId) (tasks : k'.tasks = k.tasks)
    (current : k'.current = k.current) (enabled : k'.enabled = k.enabled)
    (rsp0 : k'.rsp0 = k.rsp0) : Tame k k' changed := by
  refine ⟨current, enabled, rsp0, fun id _ => ?_, fun id => ?_, fun id => ?_, fun id => ?_,
    fun id => ?_⟩ <;> rw [tasks]
  exact SameLayout.refl _

theorem Tame.refl (k : Kernel) (changed : Set TaskId) : Tame k k changed :=
  .of_tasks changed rfl rfl rfl rfl

theorem Tame.trans {k k' k'' : Kernel} {changed : Set TaskId} (first : Tame k k' changed)
    (second : Tame k' k'' changed) : Tame k k'' changed where
  current := second.current.trans first.current
  enabled := second.enabled.trans first.enabled
  rsp0 := second.rsp0.trans first.rsp0
  files id kept := (second.files id kept).trans (first.files id kept)
  space id := (second.space id).trans (first.space id)
  live id := (second.live id).trans (first.live id)
  free id := (second.free id).trans (first.free id)
  layout id := (first.layout id).trans (second.layout id)

theorem tame_wakeAll (k : Kernel) (channel : Word) (changed : Set TaskId) :
    Tame k (k.wakeAll channel) changed := by
  refine ⟨rfl, rfl, rfl, fun id _ => ?_, fun id => ?_, fun id => ?_, fun id => ?_, fun id => ?_⟩ <;>
    simp only [Kernel.wakeAll] <;> split_ifs with waits
  · rfl
  · rfl
  · rfl
  · rfl
  · simp [waits, State.Live]
  · exact Iff.rfl
  · simp [waits]
  · exact Iff.rfl
  · exact ⟨rfl, rfl, rfl⟩
  · exact ⟨rfl, rfl, rfl⟩

theorem tame_setTask {k : Kernel} {changed : Set TaskId} (id : TaskId) (task : Task)
    (files : id ∉ changed → task.files = (k.tasks id).files)
    (space : task.addressSpace.isSome = (k.tasks id).addressSpace.isSome)
    (live : task.state.Live ↔ (k.tasks id).state.Live)
    (free : task.state = .free ↔ (k.tasks id).state = .free)
    (layout : SameLayout (k.tasks id) task) : Tame k (k.setTask id task) changed := by
  refine ⟨rfl, rfl, rfl, fun j kept => ?_, fun j => ?_, fun j => ?_, fun j => ?_, fun j => ?_⟩ <;>
    by_cases same : j = id <;>
    simp only [Kernel.setTask, same, Function.update_self, Function.update_of_ne, ne_eq,
      not_false_eq_true]
  · exact files (same ▸ kept)
  · exact space
  · exact live
  · exact free
  · exact layout
  · exact SameLayout.refl _

theorem tame_sameState {k : Kernel} (id : TaskId) (task : Task)
    (files : task.files = (k.tasks id).files)
    (space : task.addressSpace.isSome = (k.tasks id).addressSpace.isSome)
    (state : task.state = (k.tasks id).state) (layout : SameLayout (k.tasks id) task) :
    Tame k (k.setTask id task) ∅ :=
  tame_setTask id task (fun _ => files) space (by rw [state]) (by rw [state]) layout

theorem tame_setFile (k : Kernel) (id : TaskId) (fd : Fin maxFiles) (d : Descriptor) :
    Tame k (setFile k id fd d) {id} :=
  tame_setTask id _ (fun out => absurd (Set.mem_singleton id) out) rfl Iff.rfl Iff.rfl ⟨rfl, rfl, rfl⟩

theorem tame_setPipe (k : Kernel) (p : PipeId) (pipe : Pipe) (changed : Set TaskId) :
    Tame k (setPipe k p pipe) changed := .of_tasks changed rfl rfl rfl rfl

theorem tame_storeView (k : Kernel) (m : Bytes) (changed : Set TaskId) :
    Tame k (k.storeView m) changed := .of_tasks changed rfl rfl rfl rfl

theorem tame_closeReader (k : Kernel) (p : PipeId) (changed : Set TaskId) :
    Tame k (closeReader k p) changed :=
  (tame_setPipe k p _ changed).trans (tame_wakeAll _ _ changed)

theorem tame_closeWriter (k : Kernel) (p : PipeId) (changed : Set TaskId) :
    Tame k (closeWriter k p) changed :=
  (tame_setPipe k p _ changed).trans (tame_wakeAll _ _ changed)

theorem tame_dropDescriptor (k : Kernel) (d : Descriptor) (changed : Set TaskId) :
    Tame k (dropDescriptor k d).2 changed := by
  cases d with
  | free => exact Tame.refl k changed
  | console => exact Tame.refl k changed
  | pipeRead p => exact tame_closeReader k p changed
  | pipeWrite p => exact tame_closeWriter k p changed

theorem tame_shareDescriptor (k : Kernel) (d : Descriptor) (changed : Set TaskId) :
    Tame k (shareDescriptor k d) changed := by
  cases d with
  | free => exact Tame.refl k changed
  | console => exact Tame.refl k changed
  | pipeRead p => exact tame_setPipe k p _ changed
  | pipeWrite p => exact tame_setPipe k p _ changed

theorem tame_closeDescriptor (k : Kernel) (id : TaskId) (fd : Nat) :
    Tame k (closeDescriptor k id fd).2 {id} := by
  unfold Pipes.closeDescriptor
  split_ifs with bound
  · exact (tame_setFile k id ⟨fd, bound⟩ .free).trans (tame_dropDescriptor _ _ _)
  · exact tame_dropDescriptor k .free _

theorem tame_closeAllDescriptors (k : Kernel) (id : TaskId) :
    Tame k (closeAllDescriptors k id) {id} := by
  unfold Pipes.closeAllDescriptors
  exact List.foldlRecOn (motive := fun k' => Tame k k' {id}) _ _ (Tame.refl k _)
    fun _ here fd _ => here.trans (tame_closeDescriptor _ id fd)

private theorem tame_addDescriptor (k : Kernel) (id : TaskId) (d : Descriptor) :
    Tame k (addDescriptor k id d).2 {id} := by
  unfold Pipes.addDescriptor
  split
  · exact Tame.refl k _
  · exact tame_setFile k id _ d

private theorem tame_create (k : Kernel) (changed : Set TaskId) : Tame k (create k).2 changed := by
  unfold Pipes.create
  split
  · exact Tame.refl k changed
  · exact tame_setPipe k _ _ changed

theorem tame_made {k k₁ : Kernel} {p : PipeId} (made : create k = (some p, k₁))
    (changed : Set TaskId) : Tame k k₁ changed := by
  simpa only [made] using tame_create k changed

theorem tame_added {k k₁ : Kernel} {id : TaskId} {d : Descriptor} {fd : Fin maxFiles}
    (added : addDescriptor k id d = (some fd, k₁)) : Tame k k₁ {id} := by
  simpa only [added] using tame_addDescriptor k id d

theorem tame_duplicateDescriptor (k : Kernel) (id : TaskId) (old new : Nat) :
    Tame k (duplicateDescriptor k id old new).2 {id} := by
  simp only [Pipes.duplicateDescriptor]
  split_ifs
  · exact Tame.refl k _
  · exact Tame.refl k _
  · exact (tame_closeDescriptor k id new).trans ((tame_shareDescriptor _ _ _).trans
      (tame_setFile _ id _ _))
  · exact Tame.refl k _

theorem tame_deliver (k : Kernel) (id : TaskId) (frame : Word) :
    Tame k (deliver k id frame).2 ∅ := by
  obtain ⟨pending, memory, eq⟩ := deliver_changes k id frame
  rw [eq]
  exact (tame_sameState id { k.tasks id with pending := pending } rfl rfl rfl ⟨rfl, rfl, rfl⟩).trans
    (.of_tasks ∅ rfl rfl rfl rfl)

theorem tame_signal (k : Kernel) (id number : Nat) : Tame k (signal k id number).2 ∅ := by
  simp only [signal]
  split_ifs with bound ceased
  · exact Tame.refl k ∅
  · refine tame_setTask _ _ (fun _ => rfl) rfl ?_ ?_ ⟨rfl, rfl, rfl⟩ <;>
      cases state : (k.tasks ⟨id, bound.1⟩).state <;> simp [State.Live]
  · exact Tame.refl k ∅

theorem tame_setSignalHandler (k : Kernel) (id : TaskId) (number : Nat)
    (handler restorer : Word) : Tame k (setSignalHandler k id number handler restorer).2 ∅ := by
  unfold setSignalHandler
  split_ifs
  · exact tame_sameState _ _ rfl rfl rfl ⟨rfl, rfl, rfl⟩
  · exact Tame.refl k ∅
  · exact Tame.refl k ∅

theorem tame_noteStackFault (k : Kernel) (id : TaskId) : Tame k (noteStackFault k id) ∅ :=
  tame_sameState _ _ rfl rfl rfl ⟨rfl, rfl, rfl⟩

section Blocking

variable {k : Kernel} (live : (k.tasks k.current).state.Live)

include live

private theorem tame_blocked (reason : Reason) :
    Tame k (k.setTask k.current { k.tasks k.current with state := .blocked reason }) ∅ :=
  tame_setTask _ _ (fun _ => rfl) rfl ⟨fun _ => live, fun _ => by simp [State.Live]⟩
    ⟨fun here => by simp at here, fun here => absurd here live.1⟩ ⟨rfl, rfl, rfl⟩

theorem tame_park (channel : Word) : Tame k (park k channel) ∅ := tame_blocked live _

theorem tame_sleep (ticks : Nat) : Tame k (sleep k ticks) ∅ := tame_blocked live _

theorem tame_io {k' : Kernel} (io : Io k k') : Tame k k' ∅ := by
  induction io with
  | none => exact Tame.refl k ∅
  | pipe _ same ih => exact ih.trans (tame_setPipe _ _ _ ∅)
  | store _ _ _ low ih => exact ih.trans (tame_storeView _ _ ∅)
  | wake _ channel ih => exact ih.trans (tame_wakeAll _ channel ∅)
  | park _ channel ih =>
      refine ih.trans (tame_park ?_ channel)
      rw [ih.live, ih.current]
      exact live

end Blocking

theorem tame_exec {k : Kernel} (space : (k.tasks k.current).addressSpace.isSome = true)
    (env : Surroundings) (blob length count context : Word) :
    Tame k (exec k env blob length count context).2 ∅ := by
  unfold exec
  split_ifs
  · exact Tame.refl k ∅
  · split
    · exact Tame.refl k ∅
    · rename_i image loaded
      have region : Tame k (setStackRegion k k.current userStackTop userStackLimit) ∅ :=
        tame_sameState _ _ rfl rfl rfl ⟨rfl, rfl, rfl⟩
      have cleared := region.trans (tame_sameState k.current
        { (setStackRegion k k.current userStackTop userStackLimit).tasks k.current with
          handlers := fun _ => 0, restorer := 0 } rfl rfl rfl ⟨rfl, rfl, rfl⟩)
      refine cleared.trans (Tame.trans (tame_sameState k.current { (clearSignalHandlers
        (setStackRegion k k.current userStackTop userStackLimit) k.current).tasks k.current with
          addressSpace := some image.root } rfl ?_ rfl ⟨rfl, rfl, rfl⟩)
        (.of_tasks ∅ rfl rfl rfl rfl))
      exact (Eq.trans (cleared.space k.current) space).symm

theorem addDescriptor_some {k k' : Kernel} {id : TaskId} {d : Descriptor}
    {fd : Fin maxFiles} (added : addDescriptor k id d = (some fd, k')) :
    (k.tasks id).files fd = .free ∧ k' = setFile k id fd d := by
  unfold addDescriptor at added
  split at added
  · simp at added
  · rename_i slot found
    simp only [Prod.mk.injEq, Option.some.injEq] at added
    obtain ⟨rfl, rfl⟩ := added
    exact ⟨by simpa using List.find?_some found, rfl⟩

theorem addDescriptor_none {k k' : Kernel} {id : TaskId} {d : Descriptor}
    (full : addDescriptor k id d = (none, k')) : k' = k := by
  unfold addDescriptor at full
  split at full
  · exact (Prod.mk.inj full).2.symm
  · simp at full

/-- The ways `make_pipe` can go: nothing taken, everything given back, or two
descriptors stored and their numbers written for the program. -/
inductive MakePipe (k : Kernel) : Word → Kernel → Prop
  | refused : MakePipe k failure k
  | noReadSlot {p : PipeId} {k₁ : Kernel} (made : create k = (some p, k₁)) :
      MakePipe k failure (closeWriter (closeReader k₁ p) p)
  | noWriteSlot {p : PipeId} {k₁ k₂ : Kernel} {fd : Fin maxFiles}
      (made : create k = (some p, k₁))
      (readEnd : addDescriptor k₁ k₁.current (.pipeRead p) = (some fd, k₂)) :
      MakePipe k failure (closeWriter (closeDescriptor k₂ k₁.current fd).2 p)
  | stored {p : PipeId} {k₁ k₂ k₃ : Kernel} {fd fd' : Fin maxFiles} {m : Bytes}
      (made : create k = (some p, k₁))
      (readEnd : addDescriptor k₁ k₁.current (.pipeRead p) = (some fd, k₂))
      (writeEnd : addDescriptor k₂ k₁.current (.pipeWrite p) = (some fd', k₃))
      (low : ∀ x, userSpaceEnd ≤ x → m x = k₃.view x) : MakePipe k 0 (k₃.storeView m)

private theorem writePair_low {m : Bytes} {pointer : Word} {v w : Word} {x : Nat}
    (low : pointer.toNat + 16 ≤ userSpaceEnd) (high : userSpaceEnd ≤ x) :
    writeWord (writeWord m pointer.toNat v) (slot pointer 1) w x = m x := by
  have second : slot pointer 1 = pointer.toNat + 8 := slot_eq (by
    unfold userSpaceEnd at low
    omega)
  rw [second, writeWord_outside (by omega), writeWord_outside (by omega)]

theorem makePipe_cases (k : Kernel) (access : Access) (pointer : Word) :
    MakePipe k (makePipe k access pointer).1 (makePipe k access pointer).2 := by
  unfold Pipes.makePipe
  by_cases refused : access.allows pointer 16 = false
  · rw [if_pos refused]
    exact .refused
  · rw [if_neg refused]
    have low := access.inside (n := 16) (by decide) (by simpa using refused)
    cases made : Pipes.create k with
    | mk pipe k₁ =>
        cases pipe with
        | none =>
            have same : k₁ = k := by
              unfold Pipes.create at made
              split at made
              · exact (Prod.mk.inj made).2.symm
              · simp at made
            exact same ▸ .refused
        | some p =>
            simp only
            cases readEnd : Pipes.addDescriptor k₁ k₁.current (.pipeRead p) with
            | mk readFd k₂ =>
                cases readFd with
                | none =>
                    obtain rfl := addDescriptor_none readEnd
                    exact .noReadSlot made
                | some readFd =>
                    simp only
                    cases writeEnd : Pipes.addDescriptor k₂ k₁.current (.pipeWrite p) with
                    | mk writeFd k₃ =>
                        cases writeFd with
                        | none =>
                            obtain rfl := addDescriptor_none writeEnd
                            exact .noWriteSlot made readEnd
                        | some writeFd =>
                            exact .stored made readEnd writeEnd fun x high => writePair_low low high

theorem MakePipe.tame {k k' : Kernel} {answer : Word} (run : MakePipe k answer k') :
    Tame k k' {k.current} := by
  cases run with
  | refused => exact Tame.refl k _
  | noReadSlot made =>
      exact (tame_made made _).trans ((tame_closeReader _ _ _).trans (tame_closeWriter _ _ _))
  | noWriteSlot made readEnd =>
      have first := tame_made made {k.current}
      rw [first.current] at readEnd ⊢
      exact first.trans ((tame_added readEnd).trans
        ((tame_closeDescriptor _ _ _).trans (tame_closeWriter _ _ _)))
  | stored made readEnd writeEnd low =>
      have first := tame_made made {k.current}
      rw [first.current] at readEnd writeEnd
      exact first.trans ((tame_added readEnd).trans
        ((tame_added writeEnd).trans (tame_storeView _ _ _)))

section Memory

theorem closeDescriptor_memory (k : Kernel) (id : TaskId) (fd : Nat) :
    (closeDescriptor k id fd).2.memory = k.memory := by
  have dropped : ∀ (k : Kernel) (d : Descriptor), (dropDescriptor k d).2.memory = k.memory := by
    intro k d
    cases d <;> rfl
  unfold Pipes.closeDescriptor
  split_ifs
  · exact dropped _ _
  · exact dropped _ _

theorem closeAllDescriptors_memory (k : Kernel) (id : TaskId) :
    (closeAllDescriptors k id).memory = k.memory := by
  unfold Pipes.closeAllDescriptors
  exact List.foldlRecOn (motive := fun k' : Kernel => k'.memory = k.memory) _ _ rfl
    fun _ here fd _ => (closeDescriptor_memory _ id fd).trans here

theorem duplicateDescriptor_memory (k : Kernel) (id : TaskId) (old new : Nat) :
    (duplicateDescriptor k id old new).2.memory = k.memory := by
  simp only [Pipes.duplicateDescriptor]
  split_ifs
  · rfl
  · rfl
  · refine Eq.trans ?_ (closeDescriptor_memory k id new)
    cases descriptor k id old <;> rfl
  · rfl

theorem signal_memory (k : Kernel) (id number : Nat) : (signal k id number).2.memory = k.memory := by
  simp only [signal]
  split_ifs <;> rfl

theorem setSignalHandler_memory (k : Kernel) (id : TaskId) (number : Nat) (handler restorer : Word) :
    (setSignalHandler k id number handler restorer).2.memory = k.memory := by
  unfold setSignalHandler
  split_ifs <;> rfl

private theorem create_memory {k k₁ : Kernel} {p : PipeId} (made : create k = (some p, k₁)) :
    k₁.memory = k.memory := by
  unfold Pipes.create at made
  split at made
  · simp at made
  · exact (Prod.mk.inj made).2 ▸ rfl

private theorem added_memory {k k₁ : Kernel} {id : TaskId} {d : Descriptor} {fd : Fin maxFiles}
    (added : addDescriptor k id d = (some fd, k₁)) : k₁.memory = k.memory := by
  obtain ⟨-, rfl⟩ := addDescriptor_some added
  rfl

theorem MakePipe.half {k k' : Kernel} {answer : Word} (run : MakePipe k answer k') {x : Nat}
    (high : userSpaceEnd ≤ x) : k'.memory.kernel x = k.memory.kernel x := by
  cases run with
  | refused => rfl
  | @noReadSlot p k₁ made =>
      have same : (closeWriter (closeReader k₁ p) p).memory = k₁.memory := rfl
      rw [same, create_memory made]
  | @noWriteSlot p k₁ k₂ fd made readEnd =>
      have same : (closeWriter (closeDescriptor k₂ k₁.current fd).2 p).memory =
          (closeDescriptor k₂ k₁.current fd).2.memory := rfl
      rw [same, closeDescriptor_memory, added_memory readEnd, create_memory made]
  | @stored p k₁ k₂ k₃ fd fd' m made readEnd writeEnd low =>
      have written : (k₃.storeView m).memory.kernel x = m x := Memory.store_kernel high
      have seen : k₃.view x = k₃.memory.kernel x := Memory.view_kernel high
      rw [written, low x high, seen, added_memory writeEnd, added_memory readEnd, create_memory made]

theorem io_half {k k' : Kernel} (io : Io k k') {x : Nat} (high : userSpaceEnd ≤ x) :
    k'.memory.kernel x = k.memory.kernel x := by
  induction io with
  | none => rfl
  | pipe _ same ih => exact ih
  | @store k₁ _ pointer bytes low ih =>
      have written : (k₁.storeView (storeBytes k₁.view pointer bytes)).memory.kernel x =
          storeBytes k₁.view pointer bytes x := Memory.store_kernel high
      have seen : k₁.view x = k₁.memory.kernel x := Memory.view_kernel high
      rw [written, storeBytes, if_neg (by omega), seen, ih]
  | wake _ channel ih => exact ih
  | park _ channel ih => exact ih

end Memory

/-- `task` takes the free slot `id`, and the bytes the kernel sees become `m`. -/
structure Joins (k k' : Kernel) (id : TaskId) (task : Task) (m : Bytes) : Prop where
  lowest : freeSlot k.tasks = some id
  vacant : (k.tasks id).state = .free
  tasks : k'.tasks = Function.update k.tasks id task
  current : k'.current = k.current
  enabled : k'.enabled = k.enabled
  rsp0 : k'.rsp0 = k.rsp0
  active : k'.activeRoot = k.activeRoot
  root : k'.kernelRoot = k.kernelRoot
  memory : k'.memory = k.memory.store k.activeRoot m

theorem Joins.self {k k' : Kernel} {id : TaskId} {task : Task} {m : Bytes}
    (joins : Joins k k' id task m) : k'.tasks id = task := by
  rw [joins.tasks, Function.update_self]

theorem Joins.other {k k' : Kernel} {id : TaskId} {task : Task} {m : Bytes}
    (joins : Joins k k' id task m) {j : TaskId} (apart : j ≠ id) : k'.tasks j = k.tasks j := by
  rw [joins.tasks, Function.update_of_ne apart]

theorem spawnWithPriority_cases (k : Kernel) (stack entry : Word) (priority : Fin 256) :
    (spawnWithPriority k stack entry priority).2 = k ∨
      ∃ id, Joins k (spawnWithPriority k stack entry priority).2 id
          (kernelTask (k.tasks id) stack priority)
          (writeFrame (zeroFill k.view stack.toNat stackSize) (frameAt (topOf stack))
            (kernelFrame (topOf stack) entry)) ∧
        (spawnWithPriority k stack entry priority).2.pipes = k.pipes := by
  unfold spawnWithPriority
  split
  · exact Or.inl rfl
  · rename_i id found
    exact Or.inr ⟨id, ⟨found, freeSlot_some found, rfl, rfl, rfl, rfl, rfl, rfl, rfl⟩, rfl⟩

theorem spawnUser_cases (k : Kernel) (stack entry userStack : Word) (root : Root)
    (parent : Option TaskId) (argc argv : Word) :
    (spawnUser k stack entry userStack root parent argc argv).2 = k ∨
      ∃ id, Joins k (spawnUser k stack entry userStack root parent argc argv).2 id
          (programTask (k.tasks id) stack root parent)
          (writeFrame (zeroFill k.view stack.toNat stackSize) (frameAt (topOf stack))
            (userFrame entry userStack argc argv)) ∧
        (spawnUser k stack entry userStack root parent argc argv).2.pipes = k.pipes := by
  unfold spawnUser
  split
  · exact Or.inl rfl
  · rename_i id found
    exact Or.inr ⟨id, ⟨found, freeSlot_some found, rfl, rfl, rfl, rfl, rfl, rfl, rfl⟩, rfl⟩

theorem shareDescriptor_tasks (k : Kernel) (d : Descriptor) :
    (shareDescriptor k d).tasks = k.tasks := by
  cases d <;> rfl

private theorem shareFold_setTask (k : Kernel) (id : TaskId) (task : Task) (ds : List Descriptor) :
    ds.foldl shareDescriptor (k.setTask id task) = (ds.foldl shareDescriptor k).setTask id task := by
  induction ds generalizing k with
  | nil => rfl
  | cons d rest ih =>
      have here : shareDescriptor (k.setTask id task) d = (shareDescriptor k d).setTask id task := by
        cases d <;> rfl
      rw [List.foldl_cons, here, ih, List.foldl_cons]

theorem shareFold_eq (k : Kernel) (ds : List Descriptor) :
    ds.foldl shareDescriptor k = { k with pipes := (ds.foldl shareDescriptor k).pipes } := by
  induction ds generalizing k with
  | nil => rfl
  | cons d rest ih =>
      rw [List.foldl_cons, ih]
      cases d <;> rfl

private theorem shareFold_pipes (ds : List Descriptor) {k₁ k₂ : Kernel} (same : k₁.pipes = k₂.pipes) :
    (ds.foldl shareDescriptor k₁).pipes = (ds.foldl shareDescriptor k₂).pipes := by
  induction ds generalizing k₁ k₂ with
  | nil => exact same
  | cons d rest ih =>
      refine ih ?_
      cases d <;> simp only [shareDescriptor, addReader, addWriter, setPipe, same]

theorem forkFrom_cases (k : Kernel) (parent : TaskId) (root : Root) (stack frame : Word) :
    forkFrom k parent root stack frame = (none, k) ∨
      ∃ id k', forkFrom k parent root stack frame = (some id, k') ∧
        Joins k k' id (childTask (k.tasks id) (k.tasks parent) parent root stack)
          (childFrame (zeroFill k.view stack.toNat stackSize) (frameAt (topOf stack)) frame) ∧
        k'.pipes = ((List.ofFn (k.tasks parent).files).foldl shareDescriptor k).pipes := by
  unfold forkFrom
  split
  · exact Or.inl rfl
  · rename_i id found
    refine Or.inr ⟨id, _, rfl, ?_⟩
    generalize hm : childFrame (zeroFill k.view stack.toNat stackSize) (frameAt (topOf stack)) frame = m
    have tasks : (k.storeView m).tasks = k.tasks := rfl
    generalize htask : childTask (k.tasks id) (k.tasks parent) parent root stack = task
    have files : task.files = (k.tasks parent).files := by subst htask; rfl
    have own : ((k.storeView m).setTask id task).tasks id = task := by
      simp only [Kernel.setTask, Function.update_self]
    simp only [tasks, htask]
    rw [own, shareFold_setTask, shareFold_eq, files]
    exact ⟨⟨found, freeSlot_some found, rfl, rfl, rfl, rfl, rfl, rfl, rfl⟩, shareFold_pipes _ rfl⟩

theorem fork_cases (k : Kernel) (env : Surroundings) (context : Word) :
    fork k env context = (failure, k) ∨
      ∃ root id k', env.space = some root ∧
        fork k env context = (BitVec.ofNat 64 id.val, k') ∧
        Joins (withUserMemory k root (k.memory.user k.activeRoot)) k' id
          (childTask (k.tasks id) (k.tasks k.current) k.current root env.stack)
          (childFrame (zeroFill (withUserMemory k root (k.memory.user k.activeRoot)).view
            env.stack.toNat stackSize) (frameAt (topOf env.stack)) context) ∧
        k'.pipes = ((List.ofFn (k.tasks k.current).files).foldl shareDescriptor k).pipes := by
  unfold fork
  cases space : env.space with
  | none => exact Or.inl rfl
  | some root =>
      simp only
      rcases forkFrom_cases (withUserMemory k root (k.memory.user k.activeRoot)) k.current root
        env.stack context with full | ⟨id, k', made, joins, pipes⟩
      · rw [full]
        exact Or.inl rfl
      · rw [made]
        refine Or.inr ⟨root, id, k', rfl, rfl, joins, pipes.trans (shareFold_pipes _ rfl)⟩

end FiveAM.Process.Effects
