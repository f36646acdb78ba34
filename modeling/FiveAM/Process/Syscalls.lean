/- GID: FiveAM/Process/Syscalls
   source: kernel/src/syscall.rs
   digest: The system calls a ring-3 program can make, up to where each answers or blocks. -/

import FiveAM.Process.Lifecycle

set_option autoImplicit false
set_option relaxedAutoImplicit false

namespace FiveAM.Process.Syscalls

open FiveAM.Process.TaskTable FiveAM.Process.Machine FiveAM.Process.Pipes FiveAM.Process.Signals
open FiveAM.Process.Lifecycle FiveAM.Lib.ByteMemory

def sysExit : Word := 0
def sysWrite : Word := 1
def sysReportCs : Word := 2
def sysFork : Word := 3
def sysExec : Word := 4
def sysWait : Word := 5
def sysPipe : Word := 6
def sysRead : Word := 7
def sysClose : Word := 8
def sysDup2 : Word := 9
def sysKill : Word := 10
def sysSignal : Word := 11
def sysSigreturn : Word := 12

/-- `INPUT_CHANNEL`, where readers of the console sleep. -/
def inputChannel : Word := 0x5a4d0001

def userStackTop : Word := 0x110000
def userStackLimit : Word := 0x0d0000

/-- A program loaded into a fresh address space, with its stack mapped and its
arguments placed. -/
structure Image where
  root : Root
  memory : Bytes
  entry : Word
  stack : Word
  argc : Word
  argv : Word

/-- What the rest of the kernel answers while a call is served: the page tables
about a user pointer, `AddressSpace::fork`, the heap asked for a kernel stack,
the loader, and the keyboard. -/
structure Surroundings where
  access : Access
  space : Option Root
  stack : Word
  image : Option Image
  input : List (BitVec 8)

/-- How a call goes on: it answers, it blocks with `written` bytes of a pipe
write behind it, or its task has ended. -/
inductive Outcome where
  | answers (result : Word)
  | blocks (written : Nat)
  | ends

def loadBytes (m : Bytes) (a : Word) (n : Nat) : List (BitVec 8) :=
  (List.range n).map fun i => m (a.toNat + i)

def storeBytes (m : Bytes) (a : Word) (bytes : List (BitVec 8)) : Bytes := fun x =>
  if a.toNat ≤ x ∧ x < a.toNat + bytes.length then bytes.getD (x - a.toNat) 0 else m x

@[simp] theorem storeBytes_nil (m : Bytes) (a : Word) : storeBytes m a [] = m := by
  funext x
  unfold storeBytes
  rw [if_neg (by simp)]

/-- `core::str::from_utf8` succeeds. -/
def isUtf8 (bytes : List (BitVec 8)) : Bool :=
  ByteArray.validateUTF8 ⟨(bytes.map fun b => UInt8.ofBitVec b).toArray⟩

def userSlice (access : Access) (pointer length : Word) : Bool :=
  !(decide (4096 < length)) && access.allows pointer length

/-- Wake the other end of a pipe if any byte moved. -/
def wakeIfMoved (k : Kernel) (channel : Word) (moved : Nat) : Kernel :=
  if 0 < moved then k.wakeAll channel else k

/-- `pipe::write` from `written` bytes on, until it is done or the pipe is full. -/
def pipeWrite (k : Kernel) (id : PipeId) (data : List (BitVec 8)) (written : Nat) :
    Outcome × Kernel :=
  let leave (written : Nat) (k : Kernel) : Outcome × Kernel :=
    (.answers (BitVec.ofNat 64 written), wakeIfMoved k (readableChannel id) written)
  if data.length ≤ written then leave written k
  else
    match writeOnce (k.pipes id) (data.drop written) with
    | (none, _) => leave written k
    | (some count, pipe) =>
        let k := setPipe k id pipe
        if data.length ≤ written + count then leave (written + count) k
        else (.blocks (written + count),
          park (k.wakeAll (readableChannel id)) (writableChannel id))

def write (k : Kernel) (env : Surroundings) (written : Nat) (fd pointer length : Word) :
    Outcome × Kernel :=
  if userSlice env.access pointer length = false then (.answers failure, k)
  else
    let bytes := loadBytes k.view pointer length.toNat
    match descriptor k k.current fd.toNat with
    | .console => (.answers (if isUtf8 bytes then length else failure), k)
    | .pipeWrite pipe => pipeWrite k pipe bytes written
    | .pipeRead _ => (.answers failure, k)
    | .free => (.answers failure, k)

def read (k : Kernel) (env : Surroundings) (fd pointer length : Word) : Outcome × Kernel :=
  if userSlice env.access pointer length = false then (.answers failure, k)
  else
    match descriptor k k.current fd.toNat with
    | .pipeRead pipe =>
        match readOnce (k.pipes pipe) length.toNat with
        | (none, _) => (.blocks 0, park k (readableChannel pipe))
        | (some bytes, after) =>
            let k := (setPipe k pipe after).storeView (storeBytes k.view pointer bytes)
            (.answers (BitVec.ofNat 64 bytes.length),
              wakeIfMoved k (writableChannel pipe) bytes.length)
    | .console =>
        if length = 0 then (.answers 0, k)
        else if env.input = [] then (.blocks 0, park k inputChannel)
        else
          let bytes := env.input.take length.toNat
          (.answers (BitVec.ofNat 64 bytes.length),
            k.storeView (storeBytes k.view pointer bytes))
    | .pipeWrite _ => (.answers failure, k)
    | .free => (.answers failure, k)

/-- The user half of a space becomes `m`. -/
def withUserMemory (k : Kernel) (root : Root) (m : Bytes) : Kernel :=
  { k with memory := { k.memory with user := Function.update k.memory.user root m } }

/-- One call, two returns. A space that finds no slot is destroyed again. -/
def fork (k : Kernel) (env : Surroundings) (context : Word) : Word × Kernel :=
  match env.space with
  | none => (failure, k)
  | some root =>
      let copied := withUserMemory k root (k.memory.user k.activeRoot)
      match forkFrom copied k.current root env.stack context with
      | (some child, k') => (BitVec.ofNat 64 child.val, k')
      | (none, _) => (failure, k)

/-- Replace this task's program with another one. -/
def exec (k : Kernel) (env : Surroundings) (blob length count context : Word) : Word × Kernel :=
  if env.access.allows blob length = false ∨ 1024 < length ∨ count = 0 ∨ 16 < count then
    (failure, k)
  else
    match env.image with
    | none => (failure, k)
    | some image =>
        let id := k.current
        let k := setStackRegion k id userStackTop userStackLimit
        let k := clearSignalHandlers k id
        let k := setAddressSpace k id image.root
        let k := { withUserMemory k image.root image.memory with activeRoot := image.root }
        let frame := userFrame image.entry image.stack image.argc image.argv
        (0, k.storeView (writeFrame k.view context frame))

def answerWith (call : Word × Kernel) : Outcome × Kernel := (.answers call.1, call.2)

/-- Answer `result` for a call that succeeded, `u64::MAX` for one that did not. -/
def answerIf (call : Bool × Kernel) (result : Word) : Outcome × Kernel :=
  (.answers (if call.1 then result else failure), call.2)

/-- The answer of `wait`. -/
def waitAnswer : Waiting (Option Word) × Kernel → Outcome × Kernel
  | (.done code, k) => (.answers (code.getD failure), k)
  | (.parked, k) => (.blocks 0, k)

/-- The kernel side of call `number`, for the current task. -/
def handle (k : Kernel) (env : Surroundings) (written : Nat)
    (number arg0 arg1 arg2 context : Word) : Outcome × Kernel :=
  let id := k.current
  if number = sysExit then (.ends, finish k id arg0)
  else if number = sysFork then answerWith (fork k env context)
  else if number = sysExec then answerWith (exec k env arg0 arg1 arg2 context)
  else if number = sysWait then waitAnswer (waitAnyChild k id)
  else if number = sysWrite then write k env written arg0 arg1 arg2
  else if number = sysRead then read k env arg0 arg1 arg2
  else if number = sysPipe then answerWith (makePipe k env.access arg0)
  else if number = sysDup2 then
    answerIf (duplicateDescriptor k id arg0.toNat arg1.toNat) arg1
  else if number = sysKill then answerIf (signal k arg0.toNat arg1.toNat) 0
  else if number = sysSignal then answerIf (setSignalHandler k id arg0.toNat arg1 arg2) 0
  else if number = sysSigreturn then
    (.answers (readFrame (restore k context).view context frameRax), restore k context)
  else if number = sysClose then answerIf (closeDescriptor k id arg0.toNat) 0
  else if number = sysReportCs then (.answers (arg0 &&& 3), k)
  else (.answers failure, k)

/-- Reading and writing change a pipe's buffer only. -/
structure SameCounts (pipe pipe' : Pipe) : Prop where
  readers : pipe'.readers = pipe.readers
  writers : pipe'.writers = pipe.writers
  used : pipe'.used = pipe.used

private theorem popBytes_counts (pipe : Pipe) (n : Nat) : SameCounts pipe (popBytes pipe n).2 := by
  induction n generalizing pipe with
  | zero => exact ⟨rfl, rfl, rfl⟩
  | succ n ih =>
      obtain ⟨readers, writers, used⟩ := ih { pipe with tail := pipe.tail + 1 }
      exact ⟨readers, writers, used⟩

private theorem pushBytes_counts (pipe : Pipe) (bytes : List (BitVec 8)) :
    SameCounts pipe (pushBytes pipe bytes) := by
  induction bytes generalizing pipe with
  | nil => exact ⟨rfl, rfl, rfl⟩
  | cons byte rest ih =>
      obtain ⟨readers, writers, used⟩ := ih { pipe with
        buffer := Function.update pipe.buffer pipe.head byte
        head := pipe.head + 1 }
      exact ⟨readers, writers, used⟩

theorem readOnce_counts (pipe : Pipe) (room : Nat) :
    SameCounts pipe (readOnce pipe room).2 := by
  unfold readOnce
  split_ifs
  · exact ⟨rfl, rfl, rfl⟩
  · exact ⟨rfl, rfl, rfl⟩
  · obtain ⟨readers, writers, used⟩ := popBytes_counts pipe (min pipe.len room)
    exact ⟨readers, writers, used⟩

theorem writeOnce_counts (pipe : Pipe) (data : List (BitVec 8)) :
    SameCounts pipe (writeOnce pipe data).2 := by
  simp only [writeOnce]
  split_ifs
  · exact ⟨rfl, rfl, rfl⟩
  · exact ⟨rfl, rfl, rfl⟩
  · obtain ⟨readers, writers, used⟩ :=
      pushBytes_counts pipe (data.take (min (capacity - pipe.len) data.length))
    exact ⟨readers, writers, used⟩

/-- What a transfer does to the kernel: bytes move in pipes and in the user half,
tasks wake, and the current task may block. -/
inductive Io (k : Kernel) : Kernel → Prop
  | none : Io k k
  | pipe {k' : Kernel} (prior : Io k k') {p : PipeId} {pipe : Pipe}
      (same : SameCounts (k'.pipes p) pipe) : Io k (setPipe k' p pipe)
  | store {k' : Kernel} (prior : Io k k') (pointer : Word) (bytes : List (BitVec 8))
      (low : pointer.toNat + bytes.length ≤ userSpaceEnd) :
      Io k (k'.storeView (storeBytes k'.view pointer bytes))
  | wake {k' : Kernel} (prior : Io k k') (channel : Word) : Io k (k'.wakeAll channel)
  | park {k' : Kernel} (prior : Io k k') (channel : Word) : Io k (park k' channel)

private theorem Io.wakeIfMoved {k k' : Kernel} (io : Io k k') (channel : Word) (moved : Nat) :
    Io k (wakeIfMoved k' channel moved) := by
  unfold Syscalls.wakeIfMoved
  split_ifs
  · exact .wake io channel
  · exact io

private theorem pipeWrite_io (k : Kernel) (id : PipeId) (data : List (BitVec 8)) (written : Nat) :
    Io k (pipeWrite k id data written).2 := by
  have same := writeOnce_counts (k.pipes id) (data.drop written)
  simp only [pipeWrite]
  split_ifs
  · exact Io.none.wakeIfMoved _ _
  · cases outcome : writeOnce (k.pipes id) (data.drop written) with
    | mk count pipe =>
        rw [outcome] at same
        cases count with
        | none => exact Io.none.wakeIfMoved _ _
        | some count =>
            simp only
            split_ifs
            · exact (Io.pipe .none same).wakeIfMoved _ _
            · exact .park (.wake (.pipe .none same) _) _

theorem write_io (k : Kernel) (env : Surroundings) (written : Nat) (fd pointer length : Word) :
    Io k (write k env written fd pointer length).2 := by
  unfold write
  split_ifs
  · exact .none
  · simp only
    split
    · exact .none
    · exact pipeWrite_io k _ _ written
    · exact .none
    · exact .none

theorem popBytes_length (pipe : Pipe) (n : Nat) : (popBytes pipe n).1.length = n := by
  induction n generalizing pipe with
  | zero => rfl
  | succ n ih => simp only [popBytes, List.length_cons, ih]

theorem readOnce_length {pipe : Pipe} {room : Nat} {bytes : List (BitVec 8)}
    (taken : (readOnce pipe room).1 = some bytes) : bytes.length ≤ room := by
  unfold readOnce at taken
  split_ifs at taken
  · obtain rfl := Option.some.inj taken
    exact Nat.zero_le room
  · simp only [Option.some.injEq] at taken
    rw [← taken, popBytes_length]
    exact Nat.min_le_right _ _

private theorem Io.deliver {k k' : Kernel} (io : Io k k') {access : Access}
    {pointer length : Word} (checked : userSlice access pointer length = true)
    {bytes : List (BitVec 8)} (short : bytes.length ≤ length.toNat) :
    Io k (k'.storeView (storeBytes k'.view pointer bytes)) := by
  simp only [userSlice, Bool.and_eq_true] at checked
  by_cases nothing : bytes = []
  · rw [nothing, storeBytes_nil, Kernel.storeView_view]
    exact io
  · have room := List.length_pos_iff.mpr nothing
    have low := access.inside (Nat.lt_of_lt_of_le room short) checked.2
    exact .store io pointer bytes (by omega)

theorem read_io (k : Kernel) (env : Surroundings) (fd pointer length : Word) :
    Io k (read k env fd pointer length).2 := by
  unfold read
  by_cases refused : userSlice env.access pointer length = false
  · rw [if_pos refused]
    exact .none
  · rw [if_neg refused]
    have checked : userSlice env.access pointer length = true := by simpa using refused
    split
    · rename_i pipe held
      have same := readOnce_counts (k.pipes pipe) length.toNat
      cases outcome : readOnce (k.pipes pipe) length.toNat with
      | mk taken after =>
          rw [outcome] at same
          cases taken with
          | none => exact .park .none _
          | some bytes =>
              have short := readOnce_length (by rw [outcome])
              exact ((Io.pipe .none same).deliver checked short).wakeIfMoved _ _
    · split_ifs
      · exact .none
      · exact .park .none _
      · exact Io.none.deliver checked (List.length_take_le length.toNat env.input)
    · exact .none
    · exact .none

theorem handle_rule {P : Outcome × Kernel → Prop} {k : Kernel} {env : Surroundings} {written : Nat}
    {number arg0 arg1 arg2 context : Word}
    (onExit : number = sysExit → P (.ends, finish k k.current arg0))
    (onFork : number = sysFork → P (answerWith (fork k env context)))
    (onExec : number = sysExec → P (answerWith (exec k env arg0 arg1 arg2 context)))
    (onWait : number = sysWait → P (waitAnswer (waitAnyChild k k.current)))
    (onTransfer : ∀ outcome k', Io k k' → P (outcome, k'))
    (onPipe : P (answerWith (makePipe k env.access arg0)))
    (onDup2 : P (answerIf (duplicateDescriptor k k.current arg0.toNat arg1.toNat) arg1))
    (onKill : P (answerIf (signal k arg0.toNat arg1.toNat) 0))
    (onSignal : P (answerIf (setSignalHandler k k.current arg0.toNat arg1 arg2) 0))
    (onSigreturn : number = sysSigreturn →
      P (.answers (readFrame (restore k context).view context frameRax), restore k context))
    (onClose : P (answerIf (closeDescriptor k k.current arg0.toNat) 0)) :
    P (handle k env written number arg0 arg1 arg2 context) := by
  unfold handle
  refine iteInduction (motive := P) onExit fun _ => ?_
  refine iteInduction (motive := P) onFork fun _ => ?_
  refine iteInduction (motive := P) onExec fun _ => ?_
  refine iteInduction (motive := P) onWait fun _ => ?_
  refine iteInduction (motive := P) (fun _ => onTransfer _ _ (write_io ..)) fun _ => ?_
  refine iteInduction (motive := P) (fun _ => onTransfer _ _ (read_io ..)) fun _ => ?_
  refine iteInduction (motive := P) (fun _ => onPipe) fun _ => ?_
  refine iteInduction (motive := P) (fun _ => onDup2) fun _ => ?_
  refine iteInduction (motive := P) (fun _ => onKill) fun _ => ?_
  refine iteInduction (motive := P) (fun _ => onSignal) fun _ => ?_
  refine iteInduction (motive := P) onSigreturn fun _ => ?_
  refine iteInduction (motive := P) (fun _ => onClose) fun _ => ?_
  exact iteInduction (motive := P) (fun _ => onTransfer _ _ .none) fun _ => onTransfer _ _ .none

end FiveAM.Process.Syscalls
