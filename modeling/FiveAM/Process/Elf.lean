/- GID: FiveAM/Process/Elf
   source: kernel/src/elf.rs, kernel/src/memory.rs
   digest: The loader of program files, with every check of an index, a sum and a slice. -/

import FiveAM.Lib.Checked
import FiveAM.Lib.Programs
import FiveAM.Memory.KernelStores

set_option autoImplicit false
set_option relaxedAutoImplicit false

namespace FiveAM.Process.Elf

open FiveAM.Process.TaskTable (Word)
open FiveAM.Memory.Entries FiveAM.Memory.Frames FiveAM.Memory.PageTables
open FiveAM.Memory.KernelStores (storeByte Stored)
open FiveAM.Lib.Checked FiveAM.Lib.Programs FiveAM.Lib.Programs.Program

section File

def magic : List UInt8 := [0x7F, 0x45, 0x4C, 0x46]

def class64 : UInt8 := 2

def littleEndian : UInt8 := 1

def typeExecutable : Nat := 2

/-- `MACHINE_X86_64`. -/
def machineX86 : Nat := 0x3E

def ptLoad : Nat := 1

def pfX : Nat := 1

def pfW : Nat := 2

/-- `size_of::<ProgramHeader>()`. -/
def programHeaderSize : Nat := 56

/-- Everything at or above this belongs to the kernel. -/
def userAddressLimit : Nat := 0x80000000

structure ProgramHeader where
  kind : Nat
  flags : Nat
  offset : Nat
  virtualAddress : Nat
  physicalAddress : Nat
  fileSize : Nat
  memorySize : Nat
  align : Nat
  deriving DecidableEq

def fromLeBytes (bytes : List UInt8) : Nat := bytes.foldr (fun b n => b.toNat + 2 ^ 8 * n) 0

/-- `data[i], data[i + 1]` and so on. -/
def bytesAt (data : List UInt8) (i count : Nat) : Option (List UInt8) :=
  (List.range count).mapM fun k => (fit 64 (i + k)).bind fun j => data[j]?

def readU16 (data : List UInt8) (i : Nat) : Option Nat := (bytesAt data i 2).map fromLeBytes

def readU32 (data : List UInt8) (i : Nat) : Option Nat := (bytesAt data i 4).map fromLeBytes

def readU64 (data : List UInt8) (i : Nat) : Option Nat :=
  (fit 64 (i + 8)).bind fun stop => (part data i stop).map fromLeBytes

/-- Where the `index`-th program header is. -/
def headerPlace (headerOffset headerSize index : Nat) : Option Nat :=
  (fit 64 (index * headerSize)).bind fun skipped => fit 64 (headerOffset + skipped)

/-- The field `n` bytes into the header at `place`. -/
def fieldU32 (data : List UInt8) (place n : Nat) : Option Nat :=
  (fit 64 (place + n)).bind (readU32 data)

def fieldU64 (data : List UInt8) (place n : Nat) : Option Nat :=
  (fit 64 (place + n)).bind (readU64 data)

def readHeader (data : List UInt8) (place : Nat) : Option ProgramHeader := do
  let kind ← readU32 data place
  let flags ← fieldU32 data place 4
  let offset ← fieldU64 data place 8
  let virtualAddress ← fieldU64 data place 16
  let physicalAddress ← fieldU64 data place 24
  let fileSize ← fieldU64 data place 32
  let memorySize ← fieldU64 data place 40
  let align ← fieldU64 data place 48
  return { kind, flags, offset, virtualAddress, physicalAddress, fileSize, memorySize, align }

end File

section Machine

inductive Effect where
  | mapped (page : Word)
  | stored (address : Word)
  | resealed (page : Word)

/-- The memory, and what the loader has done to it so far, the oldest first. -/
structure Loading where
  paging : Paging
  effects : List Effect

/-- Whether `EFER.NXE` is set, the stack promised to the running task, how often a faulting
store is tried and a `while` loop tested before the run is given up, and whether the kernel heap
has what `pages.push` may need when so many pages are in the vector. -/
structure Setting where
  noExecuteActive : Bool
  top : Word
  limit : Word
  attempts : Nat
  passes : Nat
  grants : Nat → Bool

def allocate : Program Loading (Option Word) := fun m =>
  .returned (.ok m.paging.allocate.1) { m with paging := m.paging.allocate.2 }

def mapPage (page frame flags : Word) : Program Loading Unit := act fun m =>
  let (result, paging) := FiveAM.Memory.PageTables.mapPage m.paging page frame flags
  (result, ⟨paging, m.effects ++ [.mapped page]⟩)

def setFlags (page flags : Word) : Program Loading Unit := act fun m =>
  let (result, paging) := FiveAM.Memory.PageTables.setFlags m.paging page flags
  (result, ⟨paging, m.effects ++ [.resealed page]⟩)

def store (setting : Setting) (address : Word) (byte : BitVec 8) : Program Loading Unit := fun m =>
  match storeByte setting.top setting.limit address byte setting.attempts m.paging with
  | .done paging => .returned (.ok ()) ⟨paging, m.effects ++ [.stored address]⟩
  | .halted => .stopped .halted ⟨m.paging, m.effects ++ [.stored address]⟩
  | .unfinished => .stopped .unfinished ⟨m.paging, m.effects ++ [.stored address]⟩

/-- `write_bytes(page, 0, PAGE_SIZE)`. -/
def zeroPage (setting : Setting) (page : Word) : Program Loading Unit :=
  forEach (fun _ i => store setting (page + BitVec.ofNat 64 i) 0) (List.range pageSize) ()

/-- `copy_nonoverlapping` of bytes of the file. -/
def copyIn (setting : Setting) (source : List UInt8) (target : Word) : Program Loading Unit :=
  forEach (fun _ p => store setting (target + BitVec.ofNat 64 p.2) p.1.toBitVec) source.zipIdx ()

/-- The loop over the pages from one address to another. -/
def eachPage {β : Type} (setting : Setting) (last : Word) (body : Word → β → Program Loading β)
    (first : Word) (b : β) : Program Loading β := do
  let reached ← loop (fun place : Word × β => decide (place.1 ≤ last))
    (fun place => do
      let b ← body place.1 place.2
      let next ← check (fit 64 (place.1.toNat + pageSize))
      return (BitVec.ofNat 64 next, b))
    setting.passes (first, b)
  return reached.2

end Machine

section Loader

structure Progress where
  segments : Nat
  bytesZeroed : Nat
  pages : List Word

/-- What a loaded program needs in order to be started. -/
structure Loaded where
  entry : Nat
  segments : Nat
  bytesZeroed : Nat
  pages : List Word

/-- A page of a segment that is not there yet is mapped writable and zeroed. -/
def backPage (setting : Setting) (page : Word) (progress : Progress) : Program Loading Progress := do
  let m ← state
  if (translate m.paging page).isNone then
    let found ← allocate
    let frame ← demand found "out of physical memory"
    mapPage page frame (user ||| writable)
    zeroPage setting page
    let bytesZeroed ← check (fit 64 (progress.bytesZeroed + pageSize))
    request (setting.grants progress.pages.length)
    return { progress with bytesZeroed, pages := progress.pages ++ [page] }
  else return progress

def copySegment (setting : Setting) (data : List UInt8) (header : ProgramHeader) (fileEnd : Nat) :
    Program Loading Unit :=
  if 0 < header.fileSize then do
    let source ← check (part data header.offset fileEnd)
    copyIn setting source (BitVec.ofNat 64 header.virtualAddress)
  else return ()

def loadSegment (setting : Setting) (data : List UInt8) (header : ProgramHeader)
    (progress : Progress) : Program Loading Progress :=
  if header.kind ≠ ptLoad ∨ header.memorySize = 0 then return progress
  else do
    refuseIf (header.memorySize < header.fileSize) "segment claims more file bytes than memory"
    let fileEnd ← demand (fit 64 (header.offset + header.fileSize)) "segment offset overflows"
    refuseIf (data.length < fileEnd) "segment runs past the end of the file"
    let memoryEnd ← demand (fit 64 (header.virtualAddress + header.memorySize))
      "segment address overflows"
    refuseIf (userAddressLimit < memoryEnd) "segment wants an address outside userspace"
    let lastByte ← check (minus memoryEnd 1)
    let progress ← eachPage setting (pageOf (BitVec.ofNat 64 lastByte)) (backPage setting)
      (pageOf (BitVec.ofNat 64 header.virtualAddress)) progress
    copySegment setting data header fileEnd
    let segments ← check (fit 64 (progress.segments + 1))
    return { progress with segments }

def firstPass (setting : Setting) (data : List UInt8) (headerOffset headerSize headerCount : Nat) :
    Program Loading Progress :=
  forEach (fun progress index => do
    let place ← check (headerPlace headerOffset headerSize index)
    let header ← check (readHeader data place)
    loadSegment setting data header progress) (List.range headerCount) ⟨0, 0, []⟩

def pageFlags (noExecuteActive : Bool) (flags : Nat) : Word :=
  let page := if flags &&& pfW ≠ 0 then user ||| writable else user
  if flags &&& pfX = 0 ∧ noExecuteActive then page ||| noExecute else page

def sealSegment (setting : Setting) (data : List UInt8) (place : Nat) : Program Loading Unit := do
  let kind ← check (readU32 data place)
  let flags ← check (fieldU32 data place 4)
  let virtualAddress ← check (fieldU64 data place 16)
  let memorySize ← check (fieldU64 data place 40)
  if kind ≠ ptLoad ∨ memorySize = 0 then return ()
  else do
    let memoryEnd ← check (fit 64 (virtualAddress + memorySize))
    let lastByte ← check (minus memoryEnd 1)
    eachPage setting (pageOf (BitVec.ofNat 64 lastByte))
      (fun page _ => setFlags page (pageFlags setting.noExecuteActive flags))
      (pageOf (BitVec.ofNat 64 virtualAddress)) ()

def secondPass (setting : Setting) (data : List UInt8) (headerOffset headerSize headerCount : Nat) :
    Program Loading Unit :=
  forEach (fun _ index => do
    let place ← check (headerPlace headerOffset headerSize index)
    sealSegment setting data place) (List.range headerCount) ()

/-- Load an ELF executable into user-accessible pages. -/
def load (setting : Setting) (data : List UInt8) : Program Loading Loaded := do
  refuseIf (data.length < 64) "too small to be an ELF header"
  let ident ← check (part data 0 4)
  refuseIf (ident ≠ magic) "not an ELF file (bad magic)"
  let class_ ← check data[4]?
  refuseIf (class_ ≠ class64) "not a 64-bit ELF"
  let order ← check data[5]?
  refuseIf (order ≠ littleEndian) "not little-endian"
  let kind ← check (readU16 data 16)
  refuseIf (kind ≠ typeExecutable) "not a fixed-address executable (ET_EXEC)"
  let machine ← check (readU16 data 18)
  refuseIf (machine ≠ machineX86) "not compiled for x86_64"
  let entry ← check (readU64 data 24)
  let headerOffset ← check (readU64 data 32)
  let headerSize ← check (readU16 data 54)
  let headerCount ← check (readU16 data 56)
  refuseIf (headerSize < programHeaderSize) "program headers are too small"
  let tableSize ← check (fit 64 (headerSize * headerCount))
  let tableEnd ← demand (fit 64 (headerOffset + tableSize)) "program header table overflows"
  refuseIf (data.length < tableEnd) "program header table runs past the end of the file"
  let progress ← firstPass setting data headerOffset headerSize headerCount
  refuseIf (progress.segments = 0) "nothing to load: no PT_LOAD segments"
  secondPass setting data headerOffset headerSize headerCount
  let m ← state
  refuseIf (userAddressLimit < entry ∨ (translate m.paging (BitVec.ofNat 64 entry)).isNone)
    "entry point is not inside anything we loaded"
  return ⟨entry, progress.segments, progress.bytesZeroed, progress.pages⟩

end Loader

end FiveAM.Process.Elf
