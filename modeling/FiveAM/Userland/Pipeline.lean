/- GID: FiveAM/Userland/Pipeline
   source: userland/src/sh.rs, userland/src/upper.rs, kernel/src/pipe.rs, kernel/src/task.rs
   digest: `left | upper.elf`: three processes, one pipe, and the descriptors of each. -/

import FiveAM.Process.PipeEnds
import FiveAM.Process.PipeRuns

set_option autoImplicit false
set_option relaxedAutoImplicit false

namespace FiveAM.Userland.Pipeline

open FiveAM.Process.TaskTable FiveAM.Process.Machine FiveAM.Process.Pipes
open FiveAM.Process.Lifecycle FiveAM.Process.Syscalls FiveAM.Process.Effects
open FiveAM.Process FiveAM.Process.PipeEnds FiveAM.Lib.ByteMemory
open FiveAM.Process.PipeRuns (Ring contents pushed popped push_contents pop_contents)

abbrev Byte := BitVec 8

section Source

/-- The calls that arrange a process's descriptors. -/
inductive Call where
  | dup2 (old new : Nat)
  | close (fd : Nat)
  deriving DecidableEq

def perform (k : Kernel) (id : TaskId) : Call → Kernel
  | .dup2 old new => (duplicateDescriptor k id old new).2
  | .close fd => (closeDescriptor k id fd).2

def stdin : Nat := 0
def stdout : Nat := 1

def leftCalls (readEnd writeEnd : Nat) : List Call :=
  [.dup2 writeEnd stdout, .close readEnd, .close writeEnd]

def rightCalls (readEnd writeEnd : Nat) : List Call :=
  [.dup2 readEnd stdin, .close readEnd, .close writeEnd]

def shellCalls (readEnd writeEnd : Nat) : List Call := [.close readEnd, .close writeEnd]

def toAsciiUppercase (b : Byte) : Byte := if 97 ≤ b ∧ b ≤ 122 then b - 32 else b

/-- `BUFFER`. -/
def bufferSize : Nat := 128

/-- Where `run_pipeline` is, after `pipe` and up to the first `wait`. -/
inductive Shell where
  | forkLeft
  | forkRight
  | closing (todo : List Call)

/-- A program that writes to its standard output as long as it likes and exits. `pending` is what
the kernel has still to take of a `write`. -/
inductive Writer where
  | setup (todo : List Call)
  | running (pending : List Byte)
  | gone

/-- `upper.elf`: between two reads it holds what the last one gave. -/
inductive Filter where
  | setup (todo : List Call)
  | reading
  | holding (bytes : List Byte)
  | ended
  | failed

structure World where
  kernel : Kernel
  shell : Shell
  left : Option (TaskId × Writer)
  right : Option (TaskId × Filter)
  /-- Everything the left program has asked to write. -/
  wrote : List Byte
  /-- Everything `upper.elf` has put on the console. -/
  shown : List Byte

/-- What the left program does next, once it runs. -/
inductive Choice where
  | write (data : List Byte)
  | exit (code : Word)

inductive Event where
  | shell (space : Option Root) (stack frame : Word)
  | left (choice : Choice)
  | right (found : Bool)

/-- `fork`, as far as its answer: it fails when no space or no slot is left. -/
def forkChild (k : Kernel) (parent : TaskId) (space : Option Root) (stack frame : Word) :
    Option TaskId × Kernel :=
  match space with
  | none => (none, k)
  | some root => forkFrom k parent root stack frame

variable (sh : TaskId) (readEnd writeEnd : Nat)

def shellStep (s : World) (space : Option Root) (stack frame : Word) : Option World :=
  match s.shell with
  | .forkLeft =>
      let (child, k) := forkChild s.kernel sh space stack frame
      some { s with kernel := k, shell := .forkRight,
                    left := child.map fun id => (id, .setup (leftCalls readEnd writeEnd)) }
  | .forkRight =>
      let (child, k) := forkChild s.kernel sh space stack frame
      some { s with kernel := k, shell := .closing (shellCalls readEnd writeEnd),
                    right := child.map fun id => (id, .setup (rightCalls readEnd writeEnd)) }
  | .closing (call :: todo) =>
      some { s with kernel := perform s.kernel sh call, shell := .closing todo }
  | .closing [] => none

/-- One pass of `pipe::write`, on whatever standard output is; none while the pipe is full. -/
def writePass (k : Kernel) (id : TaskId) (pending : List Byte) : Option (Kernel × List Byte) :=
  match descriptor k id stdout with
  | .pipeWrite p =>
      match writeOnce (k.pipes p) pending with
      | (none, _) => some (k, [])
      | (some count, pipe) =>
          if count = 0 then none
          else some (wakeIfMoved (setPipe k p pipe) (readableChannel p) count, pending.drop count)
  | _ => some (k, [])

def leftStep (s : World) (choice : Choice) : Option World :=
  match s.left with
  | none => none
  | some (id, .setup (call :: todo)) =>
      some { s with kernel := perform s.kernel id call, left := some (id, .setup todo) }
  | some (id, .setup []) => some { s with left := some (id, .running []) }
  | some (id, .running []) =>
      match choice with
      | .write data =>
          -- a longer buffer is refused whole
          if 4096 < data.length then some s
          else some { s with left := some (id, .running data), wrote := s.wrote ++ data }
      | .exit code => some { s with kernel := finish s.kernel id code, left := some (id, .gone) }
  | some (id, .running (byte :: rest)) =>
      (writePass s.kernel id (byte :: rest)).map fun (k, pending) =>
        { s with kernel := k, left := some (id, .running pending) }
  | some (_, .gone) => none

/-- `read` on whatever standard input is, up to its answer; none while it blocks. -/
def readPass (k : Kernel) (id : TaskId) : Option (Kernel × List Byte) :=
  match descriptor k id stdin with
  | .pipeRead p =>
      match readOnce (k.pipes p) bufferSize with
      | (none, _) => none
      | (some bytes, pipe) =>
          some (wakeIfMoved (setPipe k p pipe) (writableChannel p) bytes.length, bytes)
  | _ => none

/-- What a `write` of the filter puts on the console: text only. -/
def consoleShows (k : Kernel) (id : TaskId) (bytes : List Byte) : List Byte :=
  match descriptor k id stdout with
  | .console => if isUtf8 bytes then bytes else []
  | _ => []

def rightStep (s : World) (found : Bool) : Option World :=
  match s.right with
  | none => none
  | some (id, .setup (call :: todo)) =>
      some { s with kernel := perform s.kernel id call, right := some (id, .setup todo) }
  | some (id, .setup []) =>
      if found then some { s with right := some (id, .reading) }
      else some { s with kernel := finish s.kernel id 127, right := some (id, .failed) }
  | some (id, .reading) =>
      (readPass s.kernel id).map fun (k, bytes) =>
        if bytes = [] then { s with kernel := finish k id 0, right := some (id, .ended) }
        else { s with kernel := k, right := some (id, .holding bytes) }
  | some (id, .holding bytes) =>
      some { s with right := some (id, .reading)
                    shown := s.shown ++ consoleShows s.kernel id (bytes.map toAsciiUppercase) }
  | some (_, .ended) => none
  | some (_, .failed) => none

def step (s : World) : Event → Option World
  | .shell space stack frame => shellStep sh readEnd writeEnd s space stack frame
  | .left choice => leftStep s choice
  | .right found => rightStep s found

end Source

section Blocking

variable {k : Kernel} {id : TaskId} {p : PipeId} {n : Nat} {s : PipeRuns.Shared n}

/-- No pass of `read` is made exactly where its task sleeps, which `PipeRuns` shows is woken when
there is something to do. -/
theorem readPass_sleeps (held : descriptor k id stdin = .pipeRead p) (same : s.pipe = k.pipes p) :
    readPass k id = none ↔ PipeRuns.readTest bufferSize s = none := by
  unfold readPass PipeRuns.readTest readOnce
  rw [held, same]
  dsimp only
  by_cases empty : (k.pipes p).len = 0
  · rw [if_pos empty, empty]
    by_cases ended : (k.pipes p).writers = 0
    · rw [if_pos ended, if_pos (.inr ended)]
      exact iff_of_false nofun nofun
    · rw [if_neg ended, if_neg (not_or.mpr ⟨Nat.lt_irrefl 0, ended⟩)]
      exact iff_of_true rfl rfl
  · rw [if_neg empty, if_pos (.inl (Nat.pos_of_ne_zero empty))]
    exact iff_of_false nofun nofun

theorem writePass_sleeps {pending : List Byte} (held : descriptor k id stdout = .pipeWrite p)
    (same : s.pipe = k.pipes p) (some' : pending ≠ []) :
    writePass k id pending = none ↔ PipeRuns.writeTest pending 0 s = none := by
  unfold writePass PipeRuns.writeTest writeOnce
  rw [held, same]
  dsimp only
  by_cases ended : (k.pipes p).readers = 0
  · rw [if_pos ended, if_pos (.inr ended)]
    exact iff_of_false nofun nofun
  rw [if_neg ended]
  by_cases full : capacity - (k.pipes p).len = 0
  · rw [if_pos full, if_neg (by omega)]
    exact iff_of_true rfl rfl
  · have moved : ¬min (capacity - (k.pipes p).len) pending.length = 0 := by
      have positive := List.length_pos_iff.mpr some'
      omega
    rw [if_neg full, if_pos (.inl (by omega))]
    dsimp only
    rw [if_neg moved]
    exact iff_of_false nofun nofun

end Blocking

section Tables

abbrev Files := Fin maxFiles → Descriptor

/-- What a call does to the table of the process that makes it. -/
def callFiles (files : Files) : Call → Files
  | .dup2 old new =>
      if first : old < maxFiles then
        if second : new < maxFiles then
          if files ⟨old, first⟩ = .free then files
          else if old = new then files
          else Function.update files ⟨new, second⟩ (files ⟨old, first⟩)
        else files
      else files
  | .close fd => if bound : fd < maxFiles then Function.update files ⟨fd, bound⟩ .free else files

/-- The shell's table after `pipe`: one end in each of two slots, past its standard input and
output. -/
structure Opened where
  shell : TaskId
  pipe : PipeId
  readEnd : Fin maxFiles
  writeEnd : Fin maxFiles
  files : Files
  reads : ∀ fd, files fd = .pipeRead pipe ↔ fd = readEnd
  writes : ∀ fd, files fd = .pipeWrite pipe ↔ fd = writeEnd
  console : files 1 = .console
  readHigh : readEnd ≠ 0
  writeHigh : writeEnd ≠ 0

variable (c : Opened)

namespace Opened

theorem apart : c.readEnd ≠ c.writeEnd := by
  intro same
  have left := (c.reads c.readEnd).mpr rfl
  have right := (c.writes c.writeEnd).mpr rfl
  rw [same, right] at left
  cases left

theorem read_ne_one : c.readEnd ≠ 1 := by
  intro same
  have held := (c.reads c.readEnd).mpr rfl
  rw [same, c.console] at held
  cases held

theorem write_ne_one : c.writeEnd ≠ 1 := by
  intro same
  have held := (c.writes c.writeEnd).mpr rfl
  rw [same, c.console] at held
  cases held

/-- The tables of the three processes after so many of their calls. -/
def after (calls : List Call) : Files := calls.foldl callFiles c.files

def left : List Call := leftCalls c.readEnd c.writeEnd
def right : List Call := rightCalls c.readEnd c.writeEnd
def closes : List Call := shellCalls c.readEnd c.writeEnd

end Opened

private theorem dup2_some {files : Files} (old new : Fin maxFiles) (held : files old ≠ .free)
    (apart : old ≠ new) :
    callFiles files (.dup2 old new) = Function.update files new (files old) := by
  rw [callFiles, dif_pos old.isLt, dif_pos new.isLt, if_neg held,
    if_neg fun same => apart (Fin.ext same)]

private theorem close_some (files : Files) (fd : Fin maxFiles) :
    callFiles files (.close fd) = Function.update files fd .free := dif_pos fd.isLt

theorem after_closes : c.after c.closes =
    Function.update (Function.update c.files c.readEnd .free) c.writeEnd .free := by
  simp only [Opened.after, Opened.closes, shellCalls, List.foldl_cons, List.foldl_nil, close_some]

theorem after_left : c.after c.left =
    Function.update (Function.update (Function.update c.files 1 (.pipeWrite c.pipe))
      c.readEnd .free) c.writeEnd .free := by
  have held := (c.writes c.writeEnd).mpr rfl
  have first : callFiles c.files (.dup2 c.writeEnd stdout) =
      Function.update c.files 1 (.pipeWrite c.pipe) := by
    rw [← held]
    exact dup2_some c.writeEnd 1 (by rw [held]; exact fun none => by cases none) c.write_ne_one
  simp only [Opened.after, Opened.left, leftCalls, List.foldl_cons, List.foldl_nil, first,
    close_some]

theorem after_right : c.after c.right =
    Function.update (Function.update (Function.update c.files 0 (.pipeRead c.pipe))
      c.readEnd .free) c.writeEnd .free := by
  have held := (c.reads c.readEnd).mpr rfl
  have first : callFiles c.files (.dup2 c.readEnd stdin) =
      Function.update c.files 0 (.pipeRead c.pipe) := by
    rw [← held]
    exact dup2_some c.readEnd 0 (by rw [held]; exact fun none => by cases none) c.readHigh
  simp only [Opened.after, Opened.right, rightCalls, List.foldl_cons, List.foldl_nil, first,
    close_some]

variable {c}

private theorem end_kept {d : Descriptor} {slot new : Fin maxFiles} {first : Call}
    {a b : Fin maxFiles}
    (held : c.files slot = d) (start : callFiles c.files first = Function.update c.files new d)
    (first' : new ≠ a) (second : new ≠ b) {made todo : List Call}
    (calls : made ++ todo = [first, .close a, .close b]) : ∃ fd, c.after made fd = d := by
  have among : made = [] ∨ made = [first] ∨ made = [first, .close a] ∨
      made = [first, .close a, .close b] := by
    simpa [List.inits] using (List.mem_inits _ _).mpr ⟨todo, calls⟩
  unfold Opened.after
  rcases among with rfl | rfl | rfl | rfl
  · exact ⟨slot, held⟩
  · refine ⟨new, ?_⟩
    rw [List.foldl_cons, List.foldl_nil, start, Function.update_self]
  · refine ⟨new, ?_⟩
    rw [List.foldl_cons, List.foldl_cons, List.foldl_nil, start, close_some,
      Function.update_of_ne first', Function.update_self]
  · refine ⟨new, ?_⟩
    rw [List.foldl_cons, List.foldl_cons, List.foldl_cons, List.foldl_nil, start, close_some,
      close_some, Function.update_of_ne second, Function.update_of_ne first', Function.update_self]

theorem left_holds {made todo : List Call} (calls : made ++ todo = c.left) :
    ∃ fd, c.after made fd = .pipeWrite c.pipe := by
  have held := (c.writes c.writeEnd).mpr rfl
  refine end_kept held ?_ c.read_ne_one.symm c.write_ne_one.symm calls
  rw [← held]
  exact dup2_some c.writeEnd 1 (by rw [held]; exact fun none => by cases none) c.write_ne_one

theorem right_holds {made todo : List Call} (calls : made ++ todo = c.right) :
    ∃ fd, c.after made fd = .pipeRead c.pipe := by
  have held := (c.reads c.readEnd).mpr rfl
  refine end_kept held ?_ c.readHigh.symm c.writeHigh.symm calls
  rw [← held]
  exact dup2_some c.readEnd 0 (by rw [held]; exact fun none => by cases none) c.readHigh

theorem left_standard : c.after c.left 1 = .pipeWrite c.pipe := by
  rw [after_left, Function.update_of_ne c.write_ne_one.symm,
    Function.update_of_ne c.read_ne_one.symm, Function.update_self]

theorem right_standard : c.after c.right 0 = .pipeRead c.pipe ∧ c.after c.right 1 = .console := by
  rw [after_right, Function.update_of_ne c.writeHigh.symm, Function.update_of_ne c.readHigh.symm,
    Function.update_self, Function.update_of_ne c.write_ne_one.symm,
    Function.update_of_ne c.read_ne_one.symm, Function.update_of_ne (by decide), c.console]
  exact ⟨rfl, rfl⟩

private theorem end_closed {d e : Descriptor}
    (others : ∀ fd, c.files fd = d → fd = c.readEnd ∨ fd = c.writeEnd)
    (new : Fin maxFiles) (apart : e ≠ d) (full : d ≠ .free) (fd : Fin maxFiles) :
    Function.update (Function.update (Function.update c.files new e) c.readEnd .free)
      c.writeEnd .free fd ≠ d := by
  intro held
  by_cases last : fd = c.writeEnd
  · rw [last, Function.update_self] at held
    exact full held.symm
  · rw [Function.update_of_ne last] at held
    by_cases first : fd = c.readEnd
    · rw [first, Function.update_self] at held
      exact full held.symm
    · rw [Function.update_of_ne first] at held
      by_cases there : fd = new
      · rw [there, Function.update_self] at held
        exact apart held
      · rw [Function.update_of_ne there] at held
        exact (others fd held).elim first last

theorem left_reads_none (fd : Fin maxFiles) : c.after c.left fd ≠ .pipeRead c.pipe := by
  rw [after_left]
  exact end_closed (fun fd held => Or.inl ((c.reads fd).mp held)) 1 (fun same => by cases same)
    (fun same => by cases same) fd

theorem right_writes_none (fd : Fin maxFiles) : c.after c.right fd ≠ .pipeWrite c.pipe := by
  rw [after_right]
  exact end_closed (fun fd held => Or.inr ((c.writes fd).mp held)) 0 (fun same => by cases same)
    (fun same => by cases same) fd

theorem shell_none (fd : Fin maxFiles) : c.after c.closes fd ≠ .pipeRead c.pipe ∧
    c.after c.closes fd ≠ .pipeWrite c.pipe := by
  have same : c.files = Function.update c.files 1 .console := by
    rw [← c.console, Function.update_eq_self]
  rw [after_closes, same]
  exact ⟨end_closed (fun fd held => Or.inl ((c.reads fd).mp held)) 1 (fun same => by cases same)
      (fun same => by cases same) fd,
    end_closed (fun fd held => Or.inr ((c.writes fd).mp held)) 1 (fun same => by cases same)
      (fun same => by cases same) fd⟩

end Tables

section Kernels

/-- The bytes of a pipe, whoever holds its ends. -/
structure SameRing (pipe pipe' : Pipe) : Prop where
  buffer : pipe'.buffer = pipe.buffer
  head : pipe'.head = pipe.head
  tail : pipe'.tail = pipe.tail
  len : pipe'.len = pipe.len

theorem SameRing.refl (pipe : Pipe) : SameRing pipe pipe := ⟨rfl, rfl, rfl, rfl⟩

theorem SameRing.trans {a b d : Pipe} (first : SameRing a b) (second : SameRing b d) :
    SameRing a d :=
  ⟨second.buffer.trans first.buffer, second.head.trans first.head, second.tail.trans first.tail,
    second.len.trans first.len⟩

theorem SameRing.kept {pipe pipe' : Pipe} (same : SameRing pipe pipe') (ring : Ring pipe) :
    Ring pipe' ∧ contents pipe' = contents pipe := by
  refine ⟨⟨?_, by rw [same.len]; exact ring.fits⟩, ?_⟩
  · rw [same.head, same.tail, same.len]
    exact ring.head
  · unfold contents
    rw [same.len, same.buffer, same.tail]

/-- A call about the descriptors of `id`: nobody else's change, no byte moves in a pipe, and the
counts still balance. -/
structure Arranges (k k' : Kernel) (id : TaskId) : Prop where
  files : ∀ j, j ≠ id → (k'.tasks j).files = (k.tasks j).files
  free : ∀ j, j ≠ id → ((k'.tasks j).state = .free ↔ (k.tasks j).state = .free)
  own : (k.tasks id).state ≠ .free → (k'.tasks id).state ≠ .free
  rings : ∀ p, SameRing (k.pipes p) (k'.pipes p)
  balanced : Balanced k [] → Balanced k' []

variable {k k' : Kernel} {id : TaskId}

private theorem rings_setPipe (k : Kernel) (p : PipeId) (pipe : Pipe)
    (same : SameRing (k.pipes p) pipe) (q : PipeId) :
    SameRing (k.pipes q) ((setPipe k p pipe).pipes q) := by
  by_cases here : q = p
  · rw [here]
    simpa only [setPipe, Function.update_self] using same
  · simp only [setPipe, Function.update_of_ne here]
    exact SameRing.refl _

private theorem rings_dropDescriptor (k : Kernel) (d : Descriptor) (q : PipeId) :
    SameRing (k.pipes q) ((dropDescriptor k d).2.pipes q) := by
  cases d with
  | free => exact SameRing.refl _
  | console => exact SameRing.refl _
  | pipeRead p =>
      refine rings_setPipe k p _ ?_ q
      split_ifs <;> exact ⟨rfl, rfl, rfl, rfl⟩
  | pipeWrite p =>
      refine rings_setPipe k p _ ?_ q
      split_ifs <;> exact ⟨rfl, rfl, rfl, rfl⟩

private theorem rings_shareDescriptor (k : Kernel) (d : Descriptor) (q : PipeId) :
    SameRing (k.pipes q) ((shareDescriptor k d).pipes q) := by
  cases d with
  | free => exact SameRing.refl _
  | console => exact SameRing.refl _
  | pipeRead p =>
      refine rings_setPipe k p { k.pipes p with readers := _ } ?_ q
      exact ⟨rfl, rfl, rfl, rfl⟩
  | pipeWrite p =>
      refine rings_setPipe k p { k.pipes p with writers := _ } ?_ q
      exact ⟨rfl, rfl, rfl, rfl⟩

private theorem rings_closeDescriptor (k : Kernel) (id : TaskId) (fd : Nat) (q : PipeId) :
    SameRing (k.pipes q) ((closeDescriptor k id fd).2.pipes q) := by
  unfold closeDescriptor
  split_ifs with bound
  · exact rings_dropDescriptor (setFile k id ⟨fd, bound⟩ .free) _ q
  · exact rings_dropDescriptor k .free q

private theorem rings_closeAll (k : Kernel) (id : TaskId) (q : PipeId) :
    SameRing (k.pipes q) ((closeAllDescriptors k id).pipes q) := by
  unfold closeAllDescriptors
  exact List.foldlRecOn (motive := fun k' => SameRing (k.pipes q) (k'.pipes q)) _ _
    (SameRing.refl _) fun k' same fd _ => same.trans (rings_closeDescriptor k' id fd q)

private theorem rings_duplicate (k : Kernel) (id : TaskId) (old new : Nat) (q : PipeId) :
    SameRing (k.pipes q) ((duplicateDescriptor k id old new).2.pipes q) := by
  simp only [duplicateDescriptor]
  split_ifs
  · exact SameRing.refl _
  · exact SameRing.refl _
  · exact (rings_closeDescriptor k id new q).trans (rings_shareDescriptor _ _ q)
  · exact SameRing.refl _

theorem perform_arranges (k : Kernel) (id : TaskId) (call : Call) :
    Arranges k (perform k id call) id := by
  cases call with
  | dup2 old new =>
      have tame := tame_duplicateDescriptor k id old new
      exact ⟨fun j other => tame.files j other, fun j _ => tame.free j,
        fun held none => held ((tame.free id).mp none), rings_duplicate k id old new,
        fun balanced => balanced.duplicateDescriptor id old new⟩
  | close fd =>
      have tame := tame_closeDescriptor k id fd
      exact ⟨fun j other => tame.files j other, fun j _ => tame.free j,
        fun held none => held ((tame.free id).mp none), rings_closeDescriptor k id fd,
        fun balanced => balanced.closeDescriptor id fd⟩

theorem perform_files (k : Kernel) (id : TaskId) (call : Call) :
    ((perform k id call).tasks id).files = callFiles (k.tasks id).files call := by
  have closed : ∀ fd (bound : fd < maxFiles), ((closeDescriptor k id fd).2.tasks id).files =
      Function.update (k.tasks id).files ⟨fd, bound⟩ .free :=
    fun fd bound => closeDescriptor_files k id ⟨fd, bound⟩
  cases call with
  | close fd =>
      by_cases bound : fd < maxFiles
      · rw [callFiles, dif_pos bound]
        exact closed fd bound
      · rw [callFiles, dif_neg bound, perform, closeDescriptor, dif_neg bound]
        rfl
  | dup2 old new =>
      by_cases bound : old < maxFiles ∧ new < maxFiles
      · have source : descriptor k id old = (k.tasks id).files ⟨old, bound.1⟩ := dif_pos bound.1
        simp only [perform, duplicateDescriptor, callFiles, dif_pos bound, dif_pos bound.1,
          dif_pos bound.2, source]
        split_ifs
        · rfl
        · rfl
        · simp only [setFile, Kernel.setTask, Function.update_self, shareDescriptor_tasks,
            closed new bound.2, Function.update_idem]
      · simp only [perform, duplicateDescriptor, callFiles, dif_neg bound]
        split_ifs with first second
        · exact absurd ⟨first, second⟩ bound
        · exact absurd ⟨first, second⟩ bound
        · exact absurd ⟨first, second⟩ bound
        · rfl
        · rfl

theorem finish_arranges (k : Kernel) (id : TaskId) (code : Word) :
    Arranges k (finish k id code) id := by
  have tame := tame_closeAllDescriptors k id
  have woken := tame_wakeAll ((closeAllDescriptors k id).setTask id
    { (closeAllDescriptors k id).tasks id with exitCode := code, state := .finished })
    (Kernel.completion id) ∅
  have out : ∀ j : TaskId, j ∉ (∅ : Set TaskId) := Set.notMem_empty
  refine ⟨fun j other => ?_, fun j other => ?_, fun _ => ?_,
    rings_closeAll k id, fun balanced => ?_⟩
  · refine (woken.files j (out j)).trans ?_
    simp only [Kernel.setTask, Function.update_of_ne other]
    exact tame.files j other
  · refine (woken.free j).trans ?_
    simp only [Kernel.setTask, Function.update_of_ne other]
    exact tame.free j
  · refine fun none => absurd ((woken.free id).mp none) ?_
    simp only [Kernel.setTask, Function.update_self]
    exact fun none => by cases none
  · refine (balanced.closeAllDescriptors id).of_same (fun j => ?_) rfl
    refine (woken.files j (out j)).trans ?_
    by_cases same : j = id
    · simp only [same, Kernel.setTask, Function.update_self]
    · simp only [Kernel.setTask, Function.update_of_ne same]

theorem finish_files (k : Kernel) (id : TaskId) (code : Word) :
    NoEnds ((finish k id code).tasks id).files := by
  have woken := tame_wakeAll ((closeAllDescriptors k id).setTask id
    { (closeAllDescriptors k id).tasks id with exitCode := code, state := .finished })
    (Kernel.completion id) ∅
  have same : ((finish k id code).tasks id).files =
      ((closeAllDescriptors k id).tasks id).files := by
    refine (woken.files id (Set.notMem_empty id)).trans ?_
    simp only [Kernel.setTask, Function.update_self]
  rw [same]
  exact closeAllDescriptors_noEnds k id

/-- The counts balance, and no vacant slot holds an end. -/
structure Tidy (k : Kernel) : Prop where
  balanced : Balanced k []
  vacant : ∀ id, (k.tasks id).state = .free → NoEnds (k.tasks id).files

theorem Arranges.tidy (arranges : Arranges k k' id) (tidy : Tidy k)
    (held : (k.tasks id).state ≠ .free) : Tidy k' := by
  refine ⟨arranges.balanced tidy.balanced, fun j none => ?_⟩
  by_cases same : j = id
  · exact absurd (same ▸ none) (arranges.own held)
  · rw [arranges.files j same]
    exact tidy.vacant j ((arranges.free j same).mp none)

structure Owns (k : Kernel) (id : TaskId) (files : Files) : Prop where
  held : (k.tasks id).state ≠ .free
  files : (k.tasks id).files = files

/-- The slot `id` is as it was, as far as descriptors go. -/
def Apart (k k' : Kernel) (id : TaskId) : Prop :=
  (k'.tasks id).files = (k.tasks id).files ∧
    ((k'.tasks id).state = .free ↔ (k.tasks id).state = .free)

theorem Owns.apart {files : Files} (owns : Owns k id files) (apart : Apart k k' id) :
    Owns k' id files :=
  ⟨fun none => owns.held (apart.2.mp none), apart.1.trans owns.files⟩

theorem Owns.perform {files : Files} (owns : Owns k id files) (call : Call) :
    Owns (perform k id call) id (callFiles files call) :=
  ⟨(perform_arranges k id call).own owns.held, by rw [perform_files, owns.files]⟩

theorem Arranges.apart (arranges : Arranges k k' id) {j : TaskId} (other : j ≠ id) : Apart k k' j :=
  ⟨arranges.files j other, arranges.free j other⟩

theorem forkChild_cases (k : Kernel) (parent : TaskId) (space : Option Root) (stack frame : Word)
    (tidy : Tidy k) : forkChild k parent space stack frame = (none, k) ∨
      ∃ id k', forkChild k parent space stack frame = (some id, k') ∧ Tidy k' ∧
        (k.tasks id).state = .free ∧ Owns k' id (k.tasks parent).files ∧
        (∀ j, j ≠ id → k'.tasks j = k.tasks j) ∧ ∀ p, SameRing (k.pipes p) (k'.pipes p) := by
  cases space with
  | none => exact Or.inl rfl
  | some root =>
      rcases forkFrom_cases k parent root stack frame with full | ⟨id, k', made, joins, pipes⟩
      · exact Or.inl full
      · refine Or.inr ⟨id, k', made, ⟨?_, fun j none => ?_⟩, joins.vacant, ⟨?_, ?_⟩,
          fun j other => joins.other other, fun p => ?_⟩
        · have shared := tidy.balanced.shareFold (List.ofFn (k.tasks parent).files)
            fun d member => by
            obtain ⟨fd, held⟩ := (List.mem_ofFn ..).mp member
            exact descriptor_listed held
          have tasks : ((List.ofFn (k.tasks parent).files).foldl shareDescriptor k).tasks =
              k.tasks := by rw [shareFold_eq]
          have joined := Balanced.adopt id
            (childTask (k.tasks id) (k.tasks parent) parent root stack) shared
            (by rw [tasks]; exact tidy.vacant id joins.vacant)
          refine joined.of_same (fun j => ?_) pipes
          rw [joins.tasks]
          simp only [Kernel.setTask, tasks]
        · by_cases same : j = id
          · rw [same, joins.self] at none
            cases none
          · rw [joins.other same] at none ⊢
            exact tidy.vacant j none
        · rw [joins.self]
          exact fun none => by cases none
        · rw [joins.self]
          rfl
        · rw [pipes]
          exact List.foldlRecOn (motive := fun k' => SameRing (k.pipes p) (k'.pipes p)) _ _
            (SameRing.refl _) fun k' same d _ => same.trans (rings_shareDescriptor k' d p)

structure Transfers (k k' : Kernel) (p : PipeId) (pipe : Pipe) : Prop where
  apart : ∀ j, Apart k k' j
  tidy : Tidy k → Tidy k'
  moved : k'.pipes p = pipe

theorem transfers {p : PipeId} {pipe : Pipe} (same : SameCounts (k.pipes p) pipe) (channel : Word)
    (count : Nat) : Transfers k (wakeIfMoved (setPipe k p pipe) channel count) p pipe := by
  have apart : ∀ j, Apart k (wakeIfMoved (setPipe k p pipe) channel count) j := by
    intro j
    unfold wakeIfMoved
    split_ifs
    · have woken := tame_wakeAll (setPipe k p pipe) channel ∅
      exact ⟨woken.files j (Set.notMem_empty j), woken.free j⟩
    · exact ⟨rfl, Iff.rfl⟩
  have pipes : (wakeIfMoved (setPipe k p pipe) channel count).pipes = (setPipe k p pipe).pipes := by
    unfold wakeIfMoved
    split_ifs <;> rfl
  refine ⟨apart, fun tidy => ⟨?_, fun j none => ?_⟩, ?_⟩
  · have set : Balanced (setPipe k p pipe) [] := by
      refine tidy.balanced.setPipe ?_ ?_ ?_ fun q _ => ⟨rfl, rfl⟩
      · rw [same.readers]
      · rw [same.writers]
      · rw [same.used, same.readers, same.writers]
        exact tidy.balanced.used p
    exact set.of_same (fun j => (apart j).1) pipes
  · rw [(apart j).1]
    exact tidy.vacant j ((apart j).2.mp none)
  · rw [pipes]
    exact Function.update_self ..

end Kernels

end FiveAM.Userland.Pipeline
