/- GID: FiveAM/Fat/Mkfs
   source: mkfs/src/main.rs
   digest: Building a FAT16 image out of a list of files. -/

import FiveAM.Fat.Writing
import Mathlib.Logic.Function.Basic

set_option autoImplicit false
set_option relaxedAutoImplicit false

namespace FiveAM.Fat.Mkfs

open FiveAM.Lib.ByteRegions
open FiveAM.Fat.Reading (bytes divCeil space)
open FiveAM.Fat.Writing (le16 le32 rsplitOnce toAsciiUppercase)

def sector : Nat := 512
def sectorsPerCluster : Nat := 4
def reservedSectors : Nat := 1
def fatCount : Nat := 2
def rootEntries : Nat := 512
def totalSectors : Nat := 32768
def sectorsPerFat : Nat := 32
def rootSectors : Nat := rootEntries * 32 / sector
def fatStart : Nat := reservedSectors
def rootStart : Nat := fatStart + fatCount * sectorsPerFat
def dataStart : Nat := rootStart + rootSectors

def clusters : Nat := (totalSectors - dataStart) / sectorsPerCluster

structure File where
  name : List Char
  data : List UInt8

def writeBootSector (image : Store) : Store :=
  let image := poke image 0 [0xEB, 0x3C, 0x90]
  let image := poke image 3 (bytes "5AMOS1.0".toList)
  let image := poke image 11 (le16 sector)
  let image := poke image 13 [UInt8.ofNat sectorsPerCluster]
  let image := poke image 14 (le16 reservedSectors)
  let image := poke image 16 [UInt8.ofNat fatCount]
  let image := poke image 17 (le16 rootEntries)
  let image := poke image 19 (le16 totalSectors)
  let image := poke image 21 [0xF8]
  let image := poke image 22 (le16 sectorsPerFat)
  let image := poke image 24 (le16 32)
  let image := poke image 26 (le16 8)
  let image := poke image 28 (le32 0)
  let image := poke image 32 (le32 0)
  let image := poke image 36 [0x80]
  let image := poke image 38 [0x29]
  let image := poke image 39 (le32 0x5A4D05A1)
  let image := poke image 43 (bytes "5AMOS      ".toList)
  let image := poke image 54 (bytes "FAT16   ".toList)
  let image := poke image 510 [0x55]
  poke image 511 [0xAA]

/-- Write one 32-byte directory entry in 8.3 form, if the name has that form. -/
def writeDirectoryEntry (slot : List UInt8) (name : List Char) (firstCluster size : Nat) :
    Option (List UInt8) :=
  let (stem, extension) := match rsplitOnce '.' name with
    | some (stem, extension) => (stem, extension)
    | none => (name, [])
  if (bytes stem).length ≤ 8 ∧ (bytes extension).length ≤ 3 then
    let slot := splice slot 0 (List.replicate 11 space)
    let slot := splice slot 0 ((bytes stem).map toAsciiUppercase)
    let slot := splice slot 8 ((bytes extension).map toAsciiUppercase)
    let slot := splice slot 11 [0x20]
    let slot := splice slot 26 (le16 firstCluster)
    some (splice slot 28 (le32 size))
  else none

/-- The image, the table, the directory, and the first cluster that is not taken. -/
structure Building where
  image : Store
  fat : Nat → Nat
  directory : Store
  nextCluster : Nat

/-- How many clusters a file takes: an empty one takes one. -/
def clustersFor (data : List UInt8) : Nat := max (divCeil data.length (sectorsPerCluster * sector)) 1

/-- Chain `needed` clusters from `first` together. -/
def chainTogether (fat : Nat → Nat) (first needed : Nat) : Nat → Nat :=
  (List.range needed).foldl (fun fat offset =>
    let cluster := first + offset
    Function.update fat cluster (if offset + 1 = needed then 0xFFFF else cluster + 1)) fat

/-- One pass of the loop over the files; nothing when an assertion fails. -/
def addFile (index : Nat) (file : File) (b : Building) : Option Building :=
  if index < rootEntries then
    let needed := clustersFor file.data
    let first := b.nextCluster
    if first + needed < clusters + 2 then
      let fat := chainTogether b.fat first needed
      let start := dataStart * sector + (first - 2) * sectorsPerCluster * sector
      let image := poke b.image start file.data
      match writeDirectoryEntry (slice b.directory (index * 32) 32) file.name first
          file.data.length with
      | some slot =>
          some { image, fat, directory := poke b.directory (index * 32) slot,
                 nextCluster := first + needed }
      | none => none
    else none
  else none

def addFiles : Nat → List File → Building → Option Building
  | _, [], b => some b
  | index, file :: rest, b =>
      match addFile index file b with
      | some b => addFiles (index + 1) rest b
      | none => none

/-- One copy of the table into the image, entry by entry. -/
def copyFat (fat : Nat → Nat) (image : Store) (copy : Nat) : Store :=
  let start := (fatStart + copy * sectorsPerFat) * sector
  (List.range (sectorsPerFat * sector / 2)).foldl
    (fun image index => poke image (start + index * 2) (le16 (fat index))) image

def blank : Building where
  image := writeBootSector fun _ => 0
  fat := Function.update (Function.update (fun _ => 0) 0 0xFFF8) 1 0xFFFF
  directory := fun _ => 0
  nextCluster := 2

def build (files : List File) : Option Store :=
  if 4085 ≤ clusters ∧ clusters < 65525 then
    match addFiles 0 files blank with
    | some b =>
        let image := (List.range fatCount).foldl (copyFat b.fat) b.image
        some (poke image (rootStart * sector) (slice b.directory 0 (rootEntries * 32)))
    | none => none
  else none

end FiveAM.Fat.Mkfs
