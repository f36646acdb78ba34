/- GID: FiveAM/Process/ExecFile
   source: kernel/src/syscall.rs, kernel/src/user.rs, kernel/src/elf.rs, kernel/src/fat.rs
   digest: `exec` of a program file, down to the page tables, the stores of the kernel and its heap. -/

import FiveAM.Fat.Allocating
import FiveAM.Process.Arguments
import FiveAM.Memory.UserBytes
import FiveAM.Process.Elf
import FiveAM.Process.StackRegions

set_option autoImplicit false
set_option relaxedAutoImplicit false

namespace FiveAM.Process.ExecFile

open FiveAM.Process.TaskTable FiveAM.Process.Machine FiveAM.Process.Syscalls
open FiveAM.Process.Lifecycle
open FiveAM.Process.StackRegions (stackRegion)
open FiveAM.Process.Arguments (Argument firstPage)
open FiveAM.Memory.Entries FiveAM.Memory.Frames FiveAM.Memory.PageTables
open FiveAM.Lib.ByteMemory FiveAM.Lib.Programs FiveAM.Lib.Programs.Program FiveAM.Lib.Splitting
open FiveAM.Lib.ByteRegions (Store)
open FiveAM.Lib.Requests FiveAM.Lib.Requests.Asking
open FiveAM.Process.Elf (Loading Setting allocate zeroPage store)

section Stack

/-- The page part of `map_stack`. -/
def mapStack (setting : Setting) : Program Loading Unit := do
  let m ← state
  if (translate m.paging firstPage).isNone then
    let found ← allocate
    let frame ← demand found "no stack"
    Elf.mapPage firstPage frame (user ||| writable)
    zeroPage setting firstPage
  else return ()

/-- Bytes stored one after the other from an address up. -/
def storeAll (setting : Setting) (address : Word) (bytes : List (BitVec 8)) : Program Loading Unit :=
  forEach (fun _ p => store setting (address + BitVec.ofNat 64 p.2) p.1) bytes.zipIdx ()

def wordBytes (w : Word) : List (BitVec 8) :=
  (List.range 8).map fun i => BitVec.ofNat 8 (w.toNat >>> (8 * i))

def placeString (setting : Setting) (s : Word × List Word) (argument : Argument) :
    Program Loading (Word × List Word) := do
  let cursor := (s.1 - (BitVec.ofNat 64 argument.length + 1)) &&& ~~~0x7
  storeAll setting cursor argument
  store setting (cursor + BitVec.ofNat 64 argument.length) 0
  return (cursor, s.2 ++ [cursor])

/-- `place_arguments`: the stack pointer, the count and the address of the array, where the heap has
room for the addresses. -/
def placeArguments (setting : Setting) (granted : Bool) (stackTop : Word)
    (arguments : List Argument) : Program Loading (Word × Word × Word) := do
  request granted
  let placed ← forEach (placeString setting) arguments (stackTop, [])
  let addresses := placed.2
  let count := BitVec.ofNat 64 addresses.length
  let argv := (placed.1 - (count + 1) * 8) &&& ~~~0xF
  forEach (fun _ p => storeAll setting (argv + BitVec.ofNat 64 (8 * p.2)) (wordBytes p.1))
    addresses.zipIdx ()
  storeAll setting (argv + BitVec.ofNat 64 (8 * addresses.length)) (wordBytes 0)
  let stack := (argv - 64) &&& ~~~0xF
  return (stack - 8, count, argv)

end Stack

section Gathering

inductive Request where
  /-- The `String` of an argument and its place in `arguments`. -/
  | argument (index : Nat)
  /-- `arguments[0].clone()`. -/
  | name
  | file (request : Fat.Allocating.Request)
  /-- `pages.push(page)`, when so many pages are in the vector. -/
  | page (count : Nat)
  /-- `Vec::with_capacity(arguments.len())`. -/
  | addresses
  deriving DecidableEq

/-- `return u64::MAX`, which says nothing. -/
def refused {α : Type} : Asking Request α := give (.error "")

/-- The loop that copies the arguments out of the caller's memory. -/
def copyOut (count : Nat) (arguments : List Argument) :
    List Argument → Asking Request (List Argument)
  | [] => return arguments
  | piece :: rest =>
      if count ≤ arguments.length then return arguments
      else if piece = [] then copyOut count arguments rest
      else if isUtf8 piece then do
        ask (.argument arguments.length)
        copyOut count (arguments ++ [piece]) rest
      else refused

/-- The arguments and the file of a call that gets that far; `present` and `disk` are the drive. -/
def named (k : Kernel) (env : Surroundings) (present : Bool) (disk : Store)
    (blob length count : Word) : Asking Request (List Argument × List UInt8) :=
  if env.access.allows blob length = false ∨ 1024 < length ∨ count = 0 ∨ 16 < count then refused
  else do
    let arguments ← copyOut count.toNat [] ((loadBytes k.view blob length.toNat).splitOn 0)
    match arguments with
    | [] => refused
    | name :: rest => do
        ask .name
        let volume ← give (Fat.Reading.mount present disk)
        let entry ← within .file (Fat.Allocating.find volume disk (name.map UInt8.ofBitVec))
        let data ← within .file (Fat.Allocating.readFile volume disk entry)
        return (name :: rest, data)

end Gathering

section Replacing

inductive Replaced where
  | failed (s : Paging)
  | entered (root entry stack argc argv : Word) (s : Paging)
  | stopped (why : Stop)

/-- `exec` from the contents of the file on: a new space is filled, the old one destroyed, and the
arguments written into the new one for the stack that is promised then. Placing them has no error
to return. -/
def replace (setting : Setting) (granted : Bool) (data : List UInt8) (arguments : List Argument) (s : Paging) :
    Replaced :=
  match newSpace s with
  | (none, s) => .failed s
  | (some fresh, s) =>
      let oldRoot := s.cr3
      match Elf.load setting data ⟨{ s with cr3 := fresh }, []⟩ with
      | .stopped why _ => .stopped why
      | .returned (.error _) t => .failed (destroy { t.paging with cr3 := oldRoot } fresh)
      | .returned (.ok loaded) t =>
          match mapStack setting t with
          | .stopped why _ => .stopped why
          | .returned (.error _) t => .failed (destroy { t.paging with cr3 := oldRoot } fresh)
          | .returned (.ok _) t =>
              match placeArguments { setting with top := userStackTop, limit := userStackLimit }
                  granted userStackTop arguments { t with paging := destroy t.paging oldRoot } with
              | .stopped why _ => .stopped why
              | .returned (.error _) t => .failed t.paging
              | .returned (.ok (stack, argc, argv)) t =>
                  .entered fresh (BitVec.ofNat 64 loaded.entry) stack argc argv t.paging

/-- The user half of the active space, byte by byte. -/
def userBytes (s : Paging) : Bytes := fun a => (FiveAM.Memory.UserBytes.byteAt s (BitVec.ofNat 64 a)).getD 0

/-- How the call goes on: an answer to the task, with the kernel and its memory, or no answer. -/
inductive Called where
  | answered (result : Word) (k : Kernel) (s : Paging)
  | stopped (why : Stop)

/-- `exec`; the faults of the kernel on the way are met with the stack of the caller, and `heap` is
what the kernel heap answers to each request of the call. -/
def execFile (k : Kernel) (env : Surroundings) (present : Bool) (disk : Store)
    (heap : Request → Bool) (setting : Setting) (blob length count context : Word) (s : Paging) :
    Called :=
  match (named k env present disk blob length count).run heap with
  | none => .stopped .exhausted
  | some (.error _) => .answered Pipes.failure k s
  | some (.ok (arguments, data)) =>
      let stack := stackRegion k k.current
      match replace { setting with top := stack.1, limit := stack.2, grants := fun count => heap (.page count) }
          (heap .addresses) data arguments s with
      | .stopped why => .stopped why
      | .failed s => .answered Pipes.failure k s
      | .entered root entry stack argc argv s =>
          let image : Image := ⟨rootAt root, userBytes s, entry, stack, argc, argv⟩
          let call := exec k { env with image := some image } blob length count context
          .answered call.1 call.2 s

end Replacing

end FiveAM.Process.ExecFile
