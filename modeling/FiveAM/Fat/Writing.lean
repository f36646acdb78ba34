/- GID: FiveAM/Fat/Writing
   source: kernel/src/fat.rs, kernel/src/ata.rs
   digest: Creating, replacing and removing files of a FAT16 volume, one disk write at a time. -/

import FiveAM.Fat.Reading

set_option autoImplicit false
set_option relaxedAutoImplicit false

namespace FiveAM.Fat.Writing

open FiveAM.Lib.ByteRegions FiveAM.Fat.Reading

/-- A call of `ata::write`. -/
structure Write where
  lba : Nat
  buffer : List UInt8

/-- What is on the disk, and the writes that have been made, the oldest first. -/
structure Drive where
  contents : Store
  writes : List Write

/-- `ata::write`, when the transfer succeeds. -/
def Drive.write (d : Drive) (lba : Nat) (buffer : List UInt8) : Drive where
  contents := poke d.contents (sectorSize * lba) buffer
  writes := d.writes ++ [⟨lba, buffer⟩]

/-- `to_le_bytes` of a `u16`. -/
def le16 (value : Nat) : List UInt8 := [UInt8.ofNat value, UInt8.ofNat (value / 2 ^ 8)]

/-- `to_le_bytes` of a `u32`. -/
def le32 (value : Nat) : List UInt8 :=
  [UInt8.ofNat value, UInt8.ofNat (value / 2 ^ 8), UInt8.ofNat (value / 2 ^ 16),
    UInt8.ofNat (value / 2 ^ 24)]

def toAsciiUppercase (b : UInt8) : UInt8 := if 0x61 ≤ b ∧ b ≤ 0x7A then b - 0x20 else b

/-- `rsplit_once` of a `str`: what is before and after the last `c`. -/
def rsplitOnce (c : Char) : List Char → Option (List Char × List Char)
  | [] => none
  | x :: rest =>
      match rsplitOnce c rest with
      | some (before, after) => some (x :: before, after)
      | none => if x = c then some ([], rest) else none

/-- The 32 bytes `create` leaves in a directory slot. -/
def directoryEntry (stem extension : List Char) (firstCluster size : Nat) : List UInt8 :=
  let slot := List.replicate directoryEntrySize 0
  let slot := splice slot 0 (List.replicate 11 space)
  let slot := splice slot 0 ((bytes stem).map toAsciiUppercase)
  let slot := splice slot 8 ((bytes extension).map toAsciiUppercase)
  let slot := splice slot 11 [0x20]
  let slot := splice slot 26 (le16 firstCluster)
  splice slot 28 (le32 size)

def split (name : List Char) : List Char × List Char :=
  match rsplitOnce '.' name with
  | some (stem, extension) => (stem, extension)
  | none => (name, [])

/-- The loop of `directory_slot` over the slots that are left, with the first unused one
so far. -/
def scanSlots (name : List Char) :
    List Slot → Option (Nat × Nat) → Except String (Nat × Nat × Option Entry)
  | [], some (sector, offset) => .ok (sector, offset, none)
  | [], none => .error "the root directory is full"
  | slot :: rest, firstEmpty =>
      if slot.first = entryFree ∨ slot.first = entryDeleted then
        let place := firstEmpty.getD (slot.sector, slot.offset)
        if slot.first = entryFree then .ok (place.1, place.2, none)
        else scanSlots name rest (some place)
      else if slot.attributes &&& (attributeVolumeLabel ||| attributeDirectory) ≠ 0 then
        scanSlots name rest firstEmpty
      else if eqIgnoreAsciiCase slot.entry.name name then
        .ok (slot.sector, slot.offset, some slot.entry)
      else scanSlots name rest firstEmpty

/-- What goes into the `index`-th cluster of a file: its part of `data`, then zeros. -/
def chunk (data : List UInt8) (clusterBytes index : Nat) : List UInt8 :=
  let part := (data.drop (index * clusterBytes)).take clusterBytes
  part ++ List.replicate (clusterBytes - part.length) 0

def fatEntryLocation (v : Volume) (cluster : Nat) : Nat × Nat :=
  let offset := cluster * 2
  (v.fatStart + offset / v.bytesPerSector, offset % v.bytesPerSector)

/-- Point `cluster` at `value` in every copy of the table. -/
def setFatEntry (v : Volume) (cluster value : Nat) (d : Drive) : Drive :=
  let (sector, within) := fatEntryLocation v cluster
  (List.range v.fatCount).foldl
    (fun d copy =>
      let target := sector + copy * v.sectorsPerFat
      let buffer := read d.contents target 1
      d.write target (splice buffer within (le16 value))) d

def findFreeCluster (v : Volume) (disk : Store) (after : Nat) : Except String Nat :=
  let start := max after 2
  match (List.range' start (v.clusters + 2 - start)).find?
      fun cluster => v.nextCluster disk cluster = 0 with
  | some cluster => .ok cluster
  | none => .error "the volume is full"

/-- Claim `needed` clusters, looking from `searchFrom` up. -/
def reserve (v : Volume) : Nat → Nat → Drive → Except String (List Nat) × Drive
  | 0, _, d => (.ok [], d)
  | needed + 1, searchFrom, d =>
      match findFreeCluster v d.contents searchFrom with
      | .error error => (.error error, d)
      | .ok cluster =>
          match reserve v needed (cluster + 1) (setFatEntry v cluster 0xFFFF d) with
          | (.error error, d) => (.error error, d)
          | (.ok chain, d) => (.ok (cluster :: chain), d)

/-- The contents go into the clusters of the chain, the first of which is the
`index`-th of the file. -/
def fill (v : Volume) (data : List UInt8) : List Nat → Nat → Drive → Drive
  | [], _, d => d
  | cluster :: rest, index, d =>
      fill v data rest (index + 1)
        (d.write (v.clusterToSector cluster) (chunk data v.clusterBytes index))

/-- Link the clusters of the chain, last to first. -/
def link (v : Volume) : List Nat → Drive → Drive
  | [], d => d
  | cluster :: rest, d => setFatEntry v cluster (rest.headD 0xFFFF) (link v rest d)

/-- Write `data` into a chain of clusters and return the first one. -/
def writeChain (v : Volume) (data : List UInt8) (d : Drive) : Except String Nat × Drive :=
  let needed := max (divCeil data.length v.clusterBytes) 1
  match reserve v needed 2 d with
  | (.error error, d) => (.error error, d)
  | (.ok chain, d) => (.ok (chain.headD 0), link v chain (fill v data chain 0 d))

def countFree (v : Volume) (disk : Store) : Nat :=
  ((List.range' 2 v.clusters).filter fun cluster => v.nextCluster disk cluster = 0).length

/-- The loop of `free_chain`, which goes on for `left` more clusters. -/
def freeFrom (v : Volume) : Nat → Nat → Drive → Except String Unit × Drive
  | left, cluster, d =>
      if 2 ≤ cluster ∧ cluster < endOfChain then
        match left with
        | 0 => (.error "cluster chain loops", d)
        | left + 1 =>
            freeFrom v left (v.nextCluster d.contents cluster) (setFatEntry v cluster 0 d)
      else (.ok (), d)

def freeChain (v : Volume) (first : Nat) (d : Drive) : Except String Unit × Drive :=
  freeFrom v (v.clusters + 1) first d

/-- Find a directory slot for `name`, reusing its own if it already exists. -/
def directorySlot (v : Volume) (disk : Store) (name : List Char) :
    Except String (Nat × Nat × Option Entry) :=
  scanSlots name (v.slots disk) none

/-- The old chain of a file that is replaced is released. -/
def releaseOld (v : Volume) (existing : Option Entry) (d : Drive) : Except String Unit × Drive :=
  match existing with
  | some old => if 2 ≤ old.firstCluster then freeChain v old.firstCluster d else (.ok (), d)
  | none => (.ok (), d)

def create (v : Volume) (name : List Char) (data : List UInt8) (d : Drive) :
    Except String Unit × Drive :=
  let (stem, extension) := split name
  if stem.isEmpty ∨ 8 < (bytes stem).length ∨ 3 < (bytes extension).length then
    (.error "name must fit 8.3", d)
  else
    match directorySlot v d.contents name with
    | .error error => (.error error, d)
    | .ok (sector, offset, existing) =>
        match (if data.isEmpty then (.ok 0, d) else writeChain v data d) with
        | (.error error, d) => (.error error, d)
        | (.ok firstCluster, d) =>
            match releaseOld v existing d with
            | (.error error, d) => (.error error, d)
            | (.ok (), d) =>
                let buffer := read d.contents sector 1
                let slot := directoryEntry stem extension firstCluster data.length
                (.ok (), d.write sector (splice buffer offset slot))

/-- Delete a file: mark the directory slot dead and release its clusters. -/
def remove (v : Volume) (name : List Char) (d : Drive) : Except String Unit × Drive :=
  match directorySlot v d.contents name with
  | .error error => (.error error, d)
  | .ok (_, _, none) => (.error "no such file", d)
  | .ok (sector, offset, some entry) =>
      let buffer := read d.contents sector 1
      let d := d.write sector (splice buffer offset [entryDeleted])
      if 2 ≤ entry.firstCluster then freeChain v entry.firstCluster d else (.ok (), d)

end FiveAM.Fat.Writing
