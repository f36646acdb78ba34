/- GID: FiveAM/Fat/Reading
   source: kernel/src/fat.rs, kernel/src/ata.rs
   digest: Mounting a FAT16 volume, listing its root directory, following a file's clusters. -/

import FiveAM.Lib.ByteRegions
import Mathlib.Algebra.Ring.Nat

set_option autoImplicit false
set_option relaxedAutoImplicit false

namespace FiveAM.Fat.Reading

open FiveAM.Lib.ByteRegions

def sectorSize : Nat := 512
def directoryEntrySize : Nat := 32
def attributeVolumeLabel : UInt8 := 0x08
def attributeDirectory : UInt8 := 0x10

/-- The first byte of an unused directory slot. -/
def entryFree : UInt8 := 0x00
def entryDeleted : UInt8 := 0xE5

def endOfChain : Nat := 0xFFF8

/-- `ata::read` into a buffer of `count` sectors, when the transfer succeeds. -/
def read (disk : Store) (lba count : Nat) : List UInt8 :=
  slice disk (sectorSize * lba) (sectorSize * count)

def readU16 (data : List UInt8) (i : Nat) : Nat :=
  (data.getD i 0).toNat + 2 ^ 8 * (data.getD (i + 1) 0).toNat

def readU32 (data : List UInt8) (i : Nat) : Nat :=
  (data.getD i 0).toNat + 2 ^ 8 * (data.getD (i + 1) 0).toNat +
    2 ^ 16 * (data.getD (i + 2) 0).toNat + 2 ^ 24 * (data.getD (i + 3) 0).toNat

/-- `div_ceil` of unsigned integers. -/
def divCeil (a b : Nat) : Nat := a / b + if a % b = 0 then 0 else 1

/-- `is_power_of_two` of an unsigned integer. -/
def isPowerOfTwo (n : Nat) : Bool := n ≠ 0 && n &&& (n - 1) = 0

/-- Everything needed to find anything, read once at mount time. -/
structure Volume where
  bytesPerSector : Nat
  fatCount : Nat
  sectorsPerCluster : Nat
  fatStart : Nat
  sectorsPerFat : Nat
  rootStart : Nat
  rootEntries : Nat
  dataStart : Nat
  clusters : Nat
  deriving DecidableEq

/-- A `str` is its characters here. -/
structure Entry where
  name : List Char
  size : Nat
  firstCluster : Nat
  deriving DecidableEq

/-- Read the boot sector and work out where everything lives; `present` is what
`ata::present` says. -/
def mount (present : Bool) (disk : Store) : Except String Volume :=
  if present = false then .error "no disk on the primary slave (did run.sh attach fs.img?)"
  else
    let sector := read disk 0 1
    if sector.getD 510 0 ≠ 0x55 ∨ sector.getD 511 0 ≠ 0xAA then
      .error "sector 0 is not a boot sector"
    else
      let bytesPerSector := readU16 sector 11
      if bytesPerSector ≠ sectorSize then .error "this reader only handles 512-byte sectors"
      else
        let sectorsPerCluster := (sector.getD 13 0).toNat
        if sectorsPerCluster = 0 ∨ isPowerOfTwo sectorsPerCluster = false then
          .error "sectors per cluster must be a power of two"
        else
          let reserved := readU16 sector 14
          let fatCount := (sector.getD 16 0).toNat
          let rootEntries := readU16 sector 17
          let sectorsPerFat := readU16 sector 22
          let totalSectors :=
            if readU16 sector 19 = 0 then readU32 sector 32 else readU16 sector 19
          if reserved = 0 ∨ fatCount = 0 ∨ sectorsPerFat = 0 ∨ totalSectors = 0 then
            .error "the BPB has a zero where it must not"
          else
            let fatStart := reserved
            let rootStart := fatStart + fatCount * sectorsPerFat
            let rootSectors := divCeil (rootEntries * directoryEntrySize) bytesPerSector
            let dataStart := rootStart + rootSectors
            if totalSectors ≤ dataStart then
              .error "the data region starts past the end of the volume"
            else
              let clusters := (totalSectors - dataStart) / sectorsPerCluster
              if 4085 ≤ clusters ∧ clusters < 65525 then
                .ok { bytesPerSector, fatCount, sectorsPerCluster, fatStart, sectorsPerFat,
                      rootStart, rootEntries, dataStart, clusters }
              else .error "cluster count is not in the FAT16 range"

def space : UInt8 := 0x20

/-- Turn `HELLO   ELF` back into `HELLO.ELF`. -/
def decodeName (slot : List UInt8) : List Char :=
  let name := ((slot.take 8).filter (· ≠ space)).map Char.ofUInt8
  let extension := (((slot.drop 8).take 3).filter (· ≠ space)).map Char.ofUInt8
  if extension.isEmpty then name else name ++ '.' :: extension

/-- The bytes of a `str`. -/
def bytes (name : List Char) : List UInt8 := name.flatMap String.utf8EncodeChar

def toAsciiLowercase (b : UInt8) : UInt8 := if 0x41 ≤ b ∧ b ≤ 0x5A then b + 0x20 else b

def eqIgnoreAsciiCase (a b : List Char) : Bool :=
  (bytes a).map toAsciiLowercase = (bytes b).map toAsciiLowercase

/-- A directory slot as a scan comes to it: its sector, where in it, and its bytes. -/
structure Slot where
  sector : Nat
  offset : Nat
  bytes : List UInt8

namespace Slot

def first (s : Slot) : UInt8 := s.bytes.getD 0 0

def attributes (s : Slot) : UInt8 := s.bytes.getD 11 0

def entry (s : Slot) : Entry where
  name := decodeName s.bytes
  firstCluster := readU16 s.bytes 26
  size := readU32 s.bytes 28

end Slot

/-- The loop of `list` over the slots that are left. -/
def listSlots : List Slot → List Entry
  | [] => []
  | slot :: rest =>
      if slot.first = entryFree then []
      else if slot.first = entryDeleted then listSlots rest
      else if slot.attributes &&& attributeVolumeLabel ≠ 0 then listSlots rest
      else if slot.attributes &&& attributeDirectory ≠ 0 then listSlots rest
      else slot.entry :: listSlots rest

namespace Volume

def clusterToSector (v : Volume) (cluster : Nat) : Nat :=
  v.dataStart + (cluster - 2) * v.sectorsPerCluster

def clusterBytes (v : Volume) : Nat := v.sectorsPerCluster * v.bytesPerSector

def nextCluster (v : Volume) (disk : Store) (cluster : Nat) : Nat :=
  let offset := cluster * 2
  readU16 (read disk (v.fatStart + offset / v.bytesPerSector) 1) (offset % v.bytesPerSector)

def rootSectors (v : Volume) : Nat :=
  divCeil (v.rootEntries * directoryEntrySize) v.bytesPerSector

/-- `buffer.chunks_exact(DIRECTORY_ENTRY_SIZE)` of each sector of the root directory. -/
def slots (v : Volume) (disk : Store) : List Slot :=
  (List.range v.rootSectors).flatMap fun index =>
    (List.range (sectorSize / directoryEntrySize)).map fun k =>
      { sector := v.rootStart + index
        offset := k * directoryEntrySize
        bytes := ((read disk (v.rootStart + index) 1).drop (k * directoryEntrySize)).take
          directoryEntrySize }

/-- Every usable entry in the root directory, in a kernel whose heap has room for them. -/
def list (v : Volume) (disk : Store) : List Entry := listSlots (v.slots disk)

def find (v : Volume) (disk : Store) (name : List Char) : Except String Entry :=
  match (v.list disk).find? fun entry => eqIgnoreAsciiCase entry.name name with
  | some entry => .ok entry
  | none => .error "no such file"

/-- The loop of `read_file`: the chain may go through `left` more clusters, and `data`
is what has been read. -/
def readFrom (v : Volume) (disk : Store) (size : Nat) :
    Nat → Nat → List UInt8 → Except String (List UInt8)
  | left, cluster, data =>
      if data.length < size then
        if cluster < 2 ∨ v.clusters + 2 ≤ cluster then .error "chain left the volume"
        else
          match left with
          | 0 => .error "cluster chain loops"
          | left + 1 =>
              let buffer := read disk (v.clusterToSector cluster) v.sectorsPerCluster
              let wanted := min (size - data.length) buffer.length
              let data := data ++ buffer.take wanted
              if size ≤ data.length then .ok data
              else
                let cluster := v.nextCluster disk cluster
                if endOfChain ≤ cluster then .error "chain ended before the file did"
                else readFrom v disk size left cluster data
      else .ok data

/-- Read a whole file by walking its chain, in a kernel whose heap has room for it. -/
def readFile (v : Volume) (disk : Store) (entry : Entry) : Except String (List UInt8) :=
  if entry.size = 0 then .ok [] else v.readFrom disk entry.size v.clusters entry.firstCluster []

end Volume

end FiveAM.Fat.Reading
