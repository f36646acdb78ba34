/- GID: FiveAM/Process/Pipes
   source: kernel/src/pipe.rs, kernel/src/task.rs, kernel/src/syscall.rs
   digest: Pipe ends, the ring buffer, and the descriptor table that names them. -/

import FiveAM.Process.Machine

set_option autoImplicit false
set_option relaxedAutoImplicit false

namespace FiveAM.Process.Pipes

open FiveAM.Process.TaskTable FiveAM.Process.Machine FiveAM.Lib.ByteMemory

def readableChannel (id : PipeId) : Word := 0x90000000 + BitVec.ofNat 64 id.val
def writableChannel (id : PipeId) : Word := 0x91000000 + BitVec.ofNat 64 id.val

def setPipe (k : Kernel) (id : PipeId) (pipe : Pipe) : Kernel :=
  { k with pipes := Function.update k.pipes id pipe }

/-- Make a pipe. It starts with one reader and one writer. -/
def create (k : Kernel) : Option PipeId × Kernel :=
  match (List.finRange maxPipes).find? fun id => !(k.pipes id).used with
  | none => (none, k)
  | some id =>
      (some id, setPipe k id { Pipe.empty with used := true, readers := 1, writers := 1 })

def addReader (k : Kernel) (id : PipeId) : Kernel :=
  setPipe k id { k.pipes id with readers := (k.pipes id).readers + 1 }

def addWriter (k : Kernel) (id : PipeId) : Kernel :=
  setPipe k id { k.pipes id with writers := (k.pipes id).writers + 1 }

/-- Close one read end, and let the writers find out. -/
def closeReader (k : Kernel) (id : PipeId) : Kernel :=
  let pipe := { k.pipes id with readers := (k.pipes id).readers - 1 }
  let pipe := if pipe.readers = 0 ∧ pipe.writers = 0 then { pipe with used := false } else pipe
  (setPipe k id pipe).wakeAll (writableChannel id)

/-- Close one write end, and let the readers find out. -/
def closeWriter (k : Kernel) (id : PipeId) : Kernel :=
  let pipe := { k.pipes id with writers := (k.pipes id).writers - 1 }
  let pipe := if pipe.readers = 0 ∧ pipe.writers = 0 then { pipe with used := false } else pipe
  (setPipe k id pipe).wakeAll (readableChannel id)

def popBytes (pipe : Pipe) : Nat → List (BitVec 8) × Pipe
  | 0 => ([], pipe)
  | count + 1 =>
      let (rest, after) := popBytes { pipe with tail := pipe.tail + 1 } count
      (pipe.buffer pipe.tail :: rest, after)

def pushBytes (pipe : Pipe) : List (BitVec 8) → Pipe
  | [] => pipe
  | byte :: rest => pushBytes
      { pipe with buffer := Function.update pipe.buffer pipe.head byte, head := pipe.head + 1 } rest

/-- The critical section of `read`: `none` while the pipe is empty and a writer
exists. -/
def readOnce (pipe : Pipe) (room : Nat) : Option (List (BitVec 8)) × Pipe :=
  if pipe.len = 0 then (if pipe.writers = 0 then some [] else none, pipe)
  else
    let count := min pipe.len room
    let (bytes, after) := popBytes pipe count
    (some bytes, { after with len := after.len - count })

/-- The critical section of `write`: `none` when nobody is left to read. -/
def writeOnce (pipe : Pipe) (data : List (BitVec 8)) : Option Nat × Pipe :=
  if pipe.readers = 0 then (none, pipe)
  else
    let room := capacity - pipe.len
    if room = 0 then (some 0, pipe)
    else
      let count := min room data.length
      let after := pushBytes pipe (data.take count)
      (some count, { after with len := after.len + count })

def descriptor (k : Kernel) (id : TaskId) (fd : Nat) : Descriptor :=
  if bound : fd < maxFiles then (k.tasks id).files ⟨fd, bound⟩ else .free

def setFile (k : Kernel) (id : TaskId) (fd : Fin maxFiles) (d : Descriptor) : Kernel :=
  k.setTask id { k.tasks id with files := Function.update (k.tasks id).files fd d }

def addDescriptor (k : Kernel) (id : TaskId) (d : Descriptor) :
    Option (Fin maxFiles) × Kernel :=
  match (List.finRange maxFiles).find? fun fd => (k.tasks id).files fd = .free with
  | none => (none, k)
  | some slot => (some slot, setFile k id slot d)

/-- Tell a pipe that a descriptor for it is gone; `true` unless there was none. -/
def dropDescriptor (k : Kernel) : Descriptor → Bool × Kernel
  | .pipeRead pipe => (true, closeReader k pipe)
  | .pipeWrite pipe => (true, closeWriter k pipe)
  | .console => (true, k)
  | .free => (false, k)

/-- Drop a descriptor, telling the pipe it has one fewer end. -/
def closeDescriptor (k : Kernel) (id : TaskId) (fd : Nat) : Bool × Kernel :=
  if bound : fd < maxFiles then
    dropDescriptor (setFile k id ⟨fd, bound⟩ .free) ((k.tasks id).files ⟨fd, bound⟩)
  else dropDescriptor k .free

/-- Give a pipe one more owner of the end `d` names. -/
def shareDescriptor (k : Kernel) : Descriptor → Kernel
  | .pipeRead pipe => addReader k pipe
  | .pipeWrite pipe => addWriter k pipe
  | .console => k
  | .free => k

/-- Point `new` at whatever `old` refers to, closing whatever `new` was. -/
def duplicateDescriptor (k : Kernel) (id : TaskId) (old new : Nat) : Bool × Kernel :=
  if bound : old < maxFiles ∧ new < maxFiles then
    let source := descriptor k id old
    if source = .free then (false, k)
    else if old = new then (true, k)
    else
      let k := (closeDescriptor k id new).2
      let k := shareDescriptor k source
      (true, setFile k id ⟨new, bound.2⟩ source)
  else (false, k)

/-- Close everything a finished task still held open. -/
def closeAllDescriptors (k : Kernel) (id : TaskId) : Kernel :=
  (List.range maxFiles).foldl (fun k fd => (closeDescriptor k id fd).2) k

/-- Finish a task with a code, and wake whoever is waiting. -/
def finish (k : Kernel) (id : TaskId) (code : Word) : Kernel :=
  let k := closeAllDescriptors k id
  (k.setTask id { k.tasks id with exitCode := code, state := .finished }).wakeAll
    (Kernel.completion id)

/-- The range begins and goes on at canonical addresses. -/
def CanonicalRange (a n : Word) : Prop := ∀ d, d < n.toNat → Canonical (a + BitVec.ofNat 64 d)

instance (a n : Word) : Decidable (CanonicalRange a n) :=
  inferInstanceAs (Decidable (∀ d, d < n.toNat → _))

/-- `is_user_accessible`, as the page tables of the moment answer it. To touch a
byte that is not canonical stops the machine: the ranges that are allowed are those
where it goes on. -/
structure Access where
  allows : Word → Word → Bool
  touched : ∀ a n, allows a n = true → CanonicalRange a n
  low : ∀ a n, 0 < n.toNat → CanonicalRange a n → allows a n = true →
    a.toNat + n.toNat ≤ userSpaceEnd

theorem Access.inside (access : Access) {a n : Word} (some' : 0 < n.toNat)
    (allowed : access.allows a n = true) : a.toNat + n.toNat ≤ userSpaceEnd :=
  access.low a n some' (access.touched a n allowed) allowed

/-- Page tables that let a program at its whole half. -/
def lowHalf : Access where
  allows a n := decide (a.toNat + n.toNat ≤ userSpaceEnd)
  touched a n allowed d inside := by
    have end' := of_decide_eq_true allowed
    refine Or.inl ?_
    unfold userSpaceEnd at end'
    rw [BitVec.toNat_add, BitVec.toNat_ofNat]
    omega
  low _ _ _ _ allowed := of_decide_eq_true allowed

/-- `u64::MAX`, the answer of a system call that failed. -/
def failure : Word := BitVec.allOnes 64

/-- `pipe(&mut [read_fd, write_fd])` for the current task. -/
def makePipe (k : Kernel) (access : Access) (pointer : Word) : Word × Kernel :=
  if access.allows pointer 16 = false then (failure, k)
  else
    match create k with
    | (none, k) => (failure, k)
    | (some pipe, k) =>
        let id := k.current
        match addDescriptor k id (.pipeRead pipe) with
        | (none, k) => (failure, closeWriter (closeReader k pipe) pipe)
        | (some readFd, k) =>
            match addDescriptor k id (.pipeWrite pipe) with
            | (none, k) => (failure, closeWriter (closeDescriptor k id readFd).2 pipe)
            | (some writeFd, k) =>
                let m := writeWord k.view pointer.toNat (BitVec.ofNat 64 readFd.val)
                (0, k.storeView (writeWord m (slot pointer 1) (BitVec.ofNat 64 writeFd.val)))

end FiveAM.Process.Pipes
