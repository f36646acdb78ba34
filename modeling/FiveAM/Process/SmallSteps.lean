/- GID: FiveAM/Process/SmallSteps
   source: kernel/src/task.rs, kernel/src/pipe.rs, kernel/src/signal.rs, kernel/src/syscall.rs
   digest: The small writes the calls are made of, and what no number of them can change. -/

import FiveAM.Process.Effects

set_option autoImplicit false
set_option relaxedAutoImplicit false

namespace FiveAM.Process.SmallSteps

open FiveAM.Process.TaskTable FiveAM.Process.Machine FiveAM.Process.Pipes FiveAM.Process.Signals
open FiveAM.Process.Lifecycle FiveAM.Process.Syscalls FiveAM.Process.Effects
open FiveAM.Lib.ByteMemory

/-- What the calls that create and end no task are made of: a task's entry is
written without its state or space, pipes and memory are written, tasks wake, and
the current task goes to sleep for anything but the end of a task. -/
inductive Moves (k : Kernel) : Kernel → Prop
  | refl : Moves k k
  | rest {k' k'' : Kernel} (prior : Moves k k') (tasks : k''.tasks = k'.tasks)
      (current : k''.current = k'.current) (active : k''.activeRoot = k'.activeRoot)
      (root : k''.kernelRoot = k'.kernelRoot) : Moves k k''
  | entry {k' : Kernel} (prior : Moves k k') (id : TaskId) (task : Task)
      (state : task.state = (k'.tasks id).state)
      (space : task.addressSpace = (k'.tasks id).addressSpace) : Moves k (k'.setTask id task)
  | rouse {k' : Kernel} (prior : Moves k k') (id : TaskId) (pending : BitVec 32) {reason : Reason}
      (asleep : (k'.tasks id).state = .blocked reason) :
      Moves k (k'.setTask id { k'.tasks id with pending := pending, state := .ready })
  | wake {k' : Kernel} (prior : Moves k k') (channel : Word) : Moves k (k'.wakeAll channel)
  | sleep {k' : Kernel} (prior : Moves k k') {reason : Reason}
      (quiet : ∀ id, reason ≠ .channel (Kernel.completion id)) :
      Moves k (k'.setTask k'.current { k'.tasks k'.current with state := .blocked reason })

theorem quiet_of_high {channel : Word} (high : maxTasks ≤ channel.toNat) (id : TaskId) :
    Reason.channel channel ≠ .channel (Kernel.completion id) := by
  intro same
  have number : channel = Kernel.completion id := Reason.channel.inj same
  have small : (Kernel.completion id).toNat < maxTasks := by
    rw [Kernel.completion, BitVec.toNat_ofNat, Nat.mod_eq_of_lt (by omega)]
    exact id.isLt
  rw [number] at high
  omega

namespace Moves

variable {k k' k'' : Kernel}

theorem trans (first : Moves k k') (second : Moves k' k'') : Moves k k'' := by
  induction second with
  | refl => exact first
  | rest _ tasks current active root ih => exact ih.rest tasks current active root
  | entry _ id task state space ih => exact ih.entry id task state space
  | rouse _ id pending asleep ih => exact ih.rouse id pending asleep
  | wake _ channel ih => exact ih.wake channel
  | sleep _ quiet ih => exact ih.sleep quiet

theorem setFile (k : Kernel) (id : TaskId) (fd : Fin maxFiles) (d : Descriptor) :
    Moves k (Pipes.setFile k id fd d) := refl.entry id _ rfl rfl

theorem setPipe (k : Kernel) (p : PipeId) (pipe : Pipe) : Moves k (Pipes.setPipe k p pipe) :=
  refl.rest rfl rfl rfl rfl

theorem storeView (k : Kernel) (m : Bytes) : Moves k (k.storeView m) := refl.rest rfl rfl rfl rfl

theorem park {channel : Word} (high : maxTasks ≤ channel.toNat) :
    Moves k (Lifecycle.park k channel) := refl.sleep (quiet_of_high high)

theorem closeReader (k : Kernel) (p : PipeId) : Moves k (Pipes.closeReader k p) :=
  (setPipe k p _).wake _

theorem closeWriter (k : Kernel) (p : PipeId) : Moves k (Pipes.closeWriter k p) :=
  (setPipe k p _).wake _

theorem dropDescriptor (k : Kernel) (d : Descriptor) : Moves k (Pipes.dropDescriptor k d).2 := by
  cases d with
  | free => exact refl
  | console => exact refl
  | pipeRead p => exact closeReader k p
  | pipeWrite p => exact closeWriter k p

theorem closeDescriptor (k : Kernel) (id : TaskId) (fd : Nat) :
    Moves k (Pipes.closeDescriptor k id fd).2 := by
  unfold Pipes.closeDescriptor
  split_ifs with bound
  · exact (setFile k id ⟨fd, bound⟩ .free).trans (dropDescriptor _ _)
  · exact refl

theorem closeAllDescriptors (k : Kernel) (id : TaskId) :
    Moves k (Pipes.closeAllDescriptors k id) := by
  unfold Pipes.closeAllDescriptors
  exact List.foldlRecOn (motive := fun k' => Moves k k') _ _ refl
    fun _ here fd _ => here.trans (closeDescriptor _ id fd)

theorem shareDescriptor (k : Kernel) (d : Descriptor) : Moves k (Pipes.shareDescriptor k d) :=
  refl.rest (shareDescriptor_tasks k d) (by cases d <;> rfl) (by cases d <;> rfl)
    (by cases d <;> rfl)

theorem duplicateDescriptor (k : Kernel) (id : TaskId) (old new : Nat) :
    Moves k (Pipes.duplicateDescriptor k id old new).2 := by
  simp only [Pipes.duplicateDescriptor]
  split_ifs
  · exact refl
  · exact refl
  · exact (closeDescriptor k id new).trans ((shareDescriptor _ _).trans (setFile _ id _ _))
  · exact refl

theorem create {k k₁ : Kernel} {p : PipeId} (made : Pipes.create k = (some p, k₁)) :
    Moves k k₁ := by
  unfold Pipes.create at made
  split at made
  · simp at made
  · exact (Prod.mk.inj made).2 ▸ setPipe k _ _

theorem added {k k₁ : Kernel} {id : TaskId} {d : Descriptor} {fd : Fin maxFiles}
    (added : addDescriptor k id d = (some fd, k₁)) : Moves k k₁ := by
  obtain ⟨-, rfl⟩ := addDescriptor_some added
  exact setFile k id fd d

theorem makePipe {answer : Word} (run : MakePipe k answer k') : Moves k k' := by
  cases run with
  | refused => exact refl
  | noReadSlot made => exact (create made).trans ((closeReader _ _).trans (closeWriter _ _))
  | noWriteSlot made readEnd =>
      exact (create made).trans ((added readEnd).trans
        ((closeDescriptor _ _ _).trans (closeWriter _ _)))
  | stored made readEnd writeEnd low =>
      exact (create made).trans ((added readEnd).trans ((added writeEnd).trans (storeView _ _)))

theorem deliver (k : Kernel) (id : TaskId) (frame : Word) :
    Moves k (Signals.deliver k id frame).2 := by
  obtain ⟨pending, memory, eq⟩ := deliver_changes k id frame
  rw [eq]
  exact (refl.entry id { k.tasks id with pending := pending } rfl rfl).rest rfl rfl rfl rfl

theorem signal (k : Kernel) (id number : Nat) : Moves k (Signals.signal k id number).2 := by
  simp only [Signals.signal]
  split_ifs with bound ceased
  · exact refl
  · cases state : (k.tasks ⟨id, bound.1⟩).state with
    | blocked reason => exact refl.rouse _ _ state
    | free => exact refl.entry _ _ state.symm rfl
    | ready => exact refl.entry _ _ state.symm rfl
    | finished => exact refl.entry _ _ state.symm rfl
  · exact refl

theorem setSignalHandler (k : Kernel) (id : TaskId) (number : Nat) (handler restorer : Word) :
    Moves k (Signals.setSignalHandler k id number handler restorer).2 := by
  unfold Signals.setSignalHandler
  split_ifs
  · exact refl.entry _ _ rfl rfl
  · exact refl
  · exact refl

theorem sleepFor (k : Kernel) (ticks : Nat) : Moves k (Lifecycle.sleep k ticks) :=
  refl.sleep fun _ same => by simp at same

theorem wakeIfMoved (k : Kernel) (channel : Word) (moved : Nat) :
    Moves k (Syscalls.wakeIfMoved k channel moved) := by
  unfold Syscalls.wakeIfMoved
  split_ifs
  · exact refl.wake channel
  · exact refl

private theorem readable_high (p : PipeId) : maxTasks ≤ (readableChannel p).toNat := by
  revert p
  decide

private theorem writable_high (p : PipeId) : maxTasks ≤ (writableChannel p).toNat := by
  revert p
  decide

theorem pipeWrite (k : Kernel) (id : PipeId) (data : List (BitVec 8)) (written : Nat) :
    Moves k (Syscalls.pipeWrite k id data written).2 := by
  simp only [Syscalls.pipeWrite]
  split_ifs
  · exact wakeIfMoved k _ _
  · cases outcome : writeOnce (k.pipes id) (data.drop written) with
    | mk count pipe =>
        cases count with
        | none => exact wakeIfMoved k _ _
        | some count =>
            simp only
            split_ifs
            · exact (setPipe k id pipe).trans (wakeIfMoved _ _ _)
            · exact ((setPipe k id pipe).wake _).trans (park (writable_high id))

theorem write (k : Kernel) (env : Surroundings) (written : Nat) (fd pointer length : Word) :
    Moves k (Syscalls.write k env written fd pointer length).2 := by
  unfold Syscalls.write
  split_ifs
  · exact refl
  · simp only
    split
    · exact refl
    · exact pipeWrite k _ _ written
    · exact refl
    · exact refl

theorem read (k : Kernel) (env : Surroundings) (fd pointer length : Word) :
    Moves k (Syscalls.read k env fd pointer length).2 := by
  unfold Syscalls.read
  by_cases refused : userSlice env.access pointer length = false
  · rw [if_pos refused]
    exact refl
  · rw [if_neg refused]
    split
    · rename_i pipe held
      cases outcome : readOnce (k.pipes pipe) length.toNat with
      | mk taken after =>
          cases taken with
          | none => exact park (readable_high pipe)
          | some bytes =>
              exact ((setPipe k pipe after).trans (storeView _ _)).trans (wakeIfMoved _ _ _)
    · split_ifs
      · exact refl
      · exact park (by decide)
      · exact storeView k _
    · exact refl
    · exact refl

theorem handle {env : Surroundings} {written : Nat} {number arg0 arg1 arg2 context : Word}
    (exit : number ≠ sysExit) (wait : number ≠ sysWait) (fork : number ≠ sysFork)
    (exec : number ≠ sysExec) :
    Moves k (Syscalls.handle k env written number arg0 arg1 arg2 context).2 := by
  have answers : ∀ {call : Bool × Kernel} {result : Word}, Moves k call.2 →
      Moves k (answerIf call result).2 := fun moves => moves
  unfold Syscalls.handle
  let P : Outcome × Kernel → Prop := fun r => Moves k r.2
  refine iteInduction (motive := P) (fun here => absurd here exit) fun _ => ?_
  refine iteInduction (motive := P) (fun here => absurd here fork) fun _ => ?_
  refine iteInduction (motive := P) (fun here => absurd here exec) fun _ => ?_
  refine iteInduction (motive := P) (fun here => absurd here wait) fun _ => ?_
  refine iteInduction (motive := P) (fun _ => write k env written arg0 arg1 arg2) fun _ => ?_
  refine iteInduction (motive := P) (fun _ => read k env arg0 arg1 arg2) fun _ => ?_
  refine iteInduction (motive := P) (fun _ => makePipe (makePipe_cases k env.access arg0)) fun _ => ?_
  refine iteInduction (motive := P) (fun _ => answers (duplicateDescriptor ..)) fun _ => ?_
  refine iteInduction (motive := P) (fun _ => answers (signal ..)) fun _ => ?_
  refine iteInduction (motive := P) (fun _ => answers (setSignalHandler ..)) fun _ => ?_
  refine iteInduction (motive := P) (fun _ => storeView k _) fun _ => ?_
  refine iteInduction (motive := P) (fun _ => answers (closeDescriptor ..)) fun _ => ?_
  exact iteInduction (motive := P) (fun _ => refl) fun _ => refl

end Moves

end FiveAM.Process.SmallSteps
