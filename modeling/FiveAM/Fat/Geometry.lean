/- GID: FiveAM/Fat/Geometry
   source: kernel/src/fat.rs
   digest: Where the regions of a mounted volume lie, and which boot sectors give a usable layout. -/

import FiveAM.Fat.Files
import FiveAM.Lib.Extents

set_option autoImplicit false
set_option relaxedAutoImplicit false

namespace FiveAM.Fat.Geometry

open FiveAM.Lib.ByteRegions FiveAM.Lib.Extents
open FiveAM.Fat.Reading FiveAM.Fat.Writing FiveAM.Fat.Layout
open FiveAM.Fat.Files (mount_sound)

section Fields

/-- The size of the volume, from the 16-bit field or the one for large volumes. -/
def totalSectors (sector : List UInt8) : Nat :=
  if readU16 sector 19 = 0 then readU32 sector 32 else readU16 sector 19

/-- The sectors before the data region, as the fields of the boot sector give them. -/
def sectorsBefore (sector : List UInt8) : Nat :=
  readU16 sector 14 + (sector.getD 16 0).toNat * readU16 sector 22 +
    divCeil (readU16 sector 17 * directoryEntrySize) sectorSize

/-- One copy of the table has an entry for every cluster of the volume, and for the two
numbers that name none. -/
def TableLong (sector : List UInt8) : Prop :=
  2 * ((totalSectors sector - sectorsBefore sector) / (sector.getD 13 0).toNat + 2) ≤
    sectorSize * readU16 sector 22

instance decidableTableLong (sector : List UInt8) : Decidable (TableLong sector) :=
  inferInstanceAs (Decidable (_ ≤ _))

variable {sector : List UInt8} {present : Bool} {disk : Store} {v : Volume}

theorem totalSectors_lt (sector : List UInt8) : totalSectors sector < 2 ^ 32 := by
  unfold totalSectors
  split_ifs
  · exact readU32_lt sector 32
  · exact lt_trans (readU16_lt sector 19) (by decide)

/-- What `mount` checks, and what it makes of the fields. -/
structure Mounted (sector : List UInt8) (v : Volume) : Prop where
  size : v.bytesPerSector = sectorSize
  cluster : v.sectorsPerCluster = (sector.getD 13 0).toNat
  positive : 0 < v.sectorsPerCluster
  reserved : v.fatStart = readU16 sector 14
  copies : v.fatCount = (sector.getD 16 0).toNat
  entries : v.rootEntries = readU16 sector 17
  table : v.sectorsPerFat = readU16 sector 22
  root : v.rootStart = v.fatStart + v.fatCount * v.sectorsPerFat
  data : v.dataStart = v.rootStart + v.rootSectors
  before : v.dataStart = sectorsBefore sector
  room : v.dataStart < totalSectors sector
  clusters : v.clusters = (totalSectors sector - v.dataStart) / v.sectorsPerCluster
  many : 4085 ≤ v.clusters
  few : v.clusters < 65525
  some_copy : 0 < v.fatCount

theorem mounted_of_mount (mounted : mount present disk = .ok v) :
    Mounted (Reading.read disk 0 1) v := by
  unfold mount at mounted
  simp only at mounted
  generalize Reading.read disk 0 1 = bytes at mounted ⊢
  rw [← show totalSectors bytes = if readU16 bytes 19 = 0 then readU32 bytes 32 else
    readU16 bytes 19 from rfl] at mounted
  split_ifs at mounted with absent mark sector cluster zero past count
  rw [not_or] at cluster
  rw [not_or, not_or, not_or] at zero
  have size := not_not.mp sector
  obtain rfl := Except.ok.inj mounted
  rw [size] at past count
  exact {
    size := size
    cluster := rfl
    positive := Nat.pos_of_ne_zero cluster.1
    reserved := rfl
    copies := rfl
    entries := rfl
    table := rfl
    root := rfl
    data := rfl
    before := by
      unfold sectorsBefore
      rw [← size]
    room := by
      rw [size]
      exact Nat.not_le.mp past
    clusters := rfl
    many := by
      rw [size]
      exact count.1
    few := by
      rw [size]
      exact count.2
    some_copy := Nat.pos_of_ne_zero zero.2.1 }

end Fields

section Layout

def tableCopy (v : Volume) (copy : Nat) : Extent :=
  ⟨v.fatStart + copy * v.sectorsPerFat, v.sectorsPerFat⟩

/-- What the sectors of a volume are for: the reserved ones, each copy of the table, the
root directory, and the data up to the end. -/
def regions (v : Volume) (total : Nat) : List Extent :=
  ⟨0, v.fatStart⟩ :: (List.range v.fatCount).map (tableCopy v) ++
    [⟨v.rootStart, v.rootSectors⟩, ⟨v.dataStart, total - v.dataStart⟩]

def sectorsOf (v : Volume) (cluster : Nat) : Extent :=
  ⟨v.clusterToSector cluster, v.sectorsPerCluster⟩

/-- The sector that holds the entry of a cluster in one copy of the table. -/
def entrySector (v : Volume) (cluster copy : Nat) : Nat :=
  (fatEntryLocation v cluster).1 + copy * v.sectorsPerFat

/-- A layout that can be used: nothing overflows a `u32`, every entry is in its copy of the
table, and neither regions nor clusters share a sector or leave the volume. -/
structure Usable (v : Volume) (total : Nat) : Prop where
  fields : v.fatCount * v.sectorsPerFat < 2 ^ 32 ∧ v.rootStart < 2 ^ 32 ∧
    v.rootEntries * directoryEntrySize < 2 ^ 32 ∧ v.dataStart < 2 ^ 32 ∧ v.dataStart ≤ total
  clusters : ∀ c, Inside v c → (c - 2) * v.sectorsPerCluster < 2 ^ 32 ∧
    v.clusterToSector c < 2 ^ 32 ∧ c * 2 < 2 ^ 32
  copies : ∀ c copy, Inside v c → copy < v.fatCount → copy * v.sectorsPerFat < 2 ^ 32 ∧
    entrySector v c copy < 2 ^ 32
  entries : ∀ c copy, Inside v c → copy < v.fatCount →
    (tableCopy v copy).Holds (entrySector v c copy) ∧ (fatEntryLocation v c).2 + 2 ≤ sectorSize
  apart : (regions v total).Pairwise Extent.Apart
  within : ∀ r ∈ regions v total, r.stop ≤ total
  own : ∀ c c', Inside v c → Inside v c' → c ≠ c' → (sectorsOf v c).Apart (sectorsOf v c')
  data : ∀ c, Inside v c → v.dataStart ≤ (sectorsOf v c).start ∧ (sectorsOf v c).stop ≤ total

variable {sector : List UInt8} {v : Volume} {c copy : Nat}

namespace Mounted

variable (mounted : Mounted sector v)

include mounted

theorem fields_lt : v.fatCount * v.sectorsPerFat < 2 ^ 24 ∧ v.rootStart < 2 ^ 25 ∧
    v.rootEntries * directoryEntrySize < 2 ^ 21 := by
  have copies : v.fatCount ≤ 255 := by
    rw [mounted.copies]
    exact Nat.le_of_lt_succ (UInt8.toNat_lt _)
  have table : v.sectorsPerFat ≤ 65535 := by
    rw [mounted.table]
    exact Nat.le_of_lt_succ (readU16_lt sector 22)
  have reserved : v.fatStart < 65536 := by
    rw [mounted.reserved]
    exact readU16_lt sector 14
  have entries : v.rootEntries < 65536 := by
    rw [mounted.entries]
    exact readU16_lt sector 17
  have product : v.fatCount * v.sectorsPerFat ≤ 255 * 65535 := Nat.mul_le_mul copies table
  refine ⟨by omega, ?_, ?_⟩
  · rw [mounted.root]
    omega
  · unfold directoryEntrySize
    omega

theorem total_lt : v.dataStart < totalSectors sector ∧ totalSectors sector < 2 ^ 32 :=
  ⟨mounted.room, totalSectors_lt sector⟩

theorem cluster_end (inside : Inside v c) :
    v.clusterToSector c + v.sectorsPerCluster ≤ totalSectors sector := by
  have count : (c - 2 + 1) * v.sectorsPerCluster ≤ v.clusters * v.sectorsPerCluster :=
    Nat.mul_le_mul_right _ (by have := inside.1; have := inside.2; omega)
  have room : v.clusters * v.sectorsPerCluster ≤ totalSectors sector - v.dataStart := by
    rw [mounted.clusters]
    exact Nat.div_mul_le_self _ _
  have := mounted.room
  rw [Nat.add_mul, Nat.one_mul] at count
  unfold Volume.clusterToSector
  omega

omit mounted in
theorem own_sectors {c' : Nat} (inside : Inside v c) (below : c < c') :
    (sectorsOf v c).Apart (sectorsOf v c') := by
  have most : (c - 2 + 1) * v.sectorsPerCluster ≤ (c' - 2) * v.sectorsPerCluster :=
    Nat.mul_le_mul_right _ (by have := inside.1; omega)
  rw [Nat.add_mul, Nat.one_mul] at most
  apply Extent.apart_of_le
  unfold sectorsOf Extent.stop Volume.clusterToSector
  dsimp only
  omega

omit mounted in
theorem copy_end (copies : copy < v.fatCount) :
    copy * v.sectorsPerFat + v.sectorsPerFat ≤ v.fatCount * v.sectorsPerFat :=
  table_apart (v := v) copies

theorem regions_within : ∀ r ∈ regions v (totalSectors sector),
    r.stop ≤ totalSectors sector := by
  have room := mounted.room
  have root := mounted.root
  have data := mounted.data
  intro r there
  unfold regions at there
  rw [List.cons_append, List.mem_cons, List.mem_append, List.mem_map] at there
  rcases there with rfl | ⟨copy, inside, rfl⟩ | there
  · unfold Extent.stop
    dsimp only
    omega
  · have most := copy_end (List.mem_range.mp inside)
    unfold tableCopy Extent.stop
    dsimp only
    omega
  · rcases List.mem_cons.mp there with rfl | there
    · unfold Extent.stop
      dsimp only
      omega
    · obtain rfl := List.mem_singleton.mp there
      unfold Extent.stop
      dsimp only
      omega

theorem regions_apart : (regions v (totalSectors sector)).Pairwise Extent.Apart := by
  have root := mounted.root
  have data := mounted.data
  unfold regions
  rw [List.cons_append, List.pairwise_cons, List.pairwise_append]
  refine ⟨fun r there => ?_, ?_, ?_, fun r there r' there' => ?_⟩
  · apply Extent.apart_of_le
    unfold Extent.stop
    dsimp only
    rcases List.mem_append.mp there with there | there
    · obtain ⟨copy, -, rfl⟩ := List.mem_map.mp there
      unfold tableCopy
      dsimp only
      omega
    · rcases List.mem_cons.mp there with rfl | there
      · dsimp only
        omega
      · obtain rfl := List.mem_singleton.mp there
        dsimp only
        omega
  · refine List.pairwise_map.mpr (List.pairwise_lt_range.imp fun {i j} below => ?_)
    have most := table_apart (v := v) below
    apply Extent.apart_of_le
    unfold tableCopy Extent.stop
    dsimp only
    omega
  · rw [List.pairwise_pair]
    apply Extent.apart_of_le
    unfold Extent.stop
    dsimp only
    omega
  · obtain ⟨copy, inside, rfl⟩ := List.mem_map.mp there
    have most := copy_end (List.mem_range.mp inside)
    apply Extent.apart_of_le
    unfold tableCopy Extent.stop
    dsimp only
    rcases List.mem_cons.mp there' with rfl | there'
    · dsimp only
      omega
    · obtain rfl := List.mem_singleton.mp there'
      dsimp only
      omega

omit mounted in
theorem sector_iff {copy : Nat} (size : v.bytesPerSector = sectorSize) :
    (tableCopy v copy).Holds (entrySector v c copy) ↔ 2 * c < sectorSize * v.sectorsPerFat := by
  unfold tableCopy entrySector fatEntryLocation Extent.Holds Extent.stop
  rw [size]
  unfold sectorSize
  dsimp only
  constructor
  · rintro ⟨-, low⟩
    omega
  · intro low
    omega

theorem tableLong_iff : TableLong sector ↔ 2 * (v.clusters + 2) ≤ sectorSize * v.sectorsPerFat := by
  unfold TableLong
  rw [← mounted.before, ← mounted.cluster, ← mounted.clusters, ← mounted.table]

theorem usable (long : TableLong sector) : Usable v (totalSectors sector) where
  fields := by
    obtain ⟨table, root, entries⟩ := mounted.fields_lt
    obtain ⟨room, total⟩ := mounted.total_lt
    refine ⟨?_, ?_, ?_, ?_, ?_⟩ <;> omega
  clusters c inside := by
    have stop := mounted.cluster_end inside
    obtain ⟨-, total⟩ := mounted.total_lt
    have few := mounted.few
    have high := inside.2
    unfold Volume.clusterToSector at stop ⊢
    refine ⟨?_, ?_, ?_⟩ <;> omega
  copies c copy inside copies := by
    obtain ⟨table, root, -⟩ := mounted.fields_lt
    have most := copy_end copies
    have long := mounted.tableLong_iff.mp long
    have high := inside.2
    have start := mounted.root
    have holds : (tableCopy v copy).Holds (entrySector v c copy) :=
      (sector_iff mounted.size).mpr (by omega)
    have below := holds.2
    unfold tableCopy Extent.stop at below
    dsimp only at below
    refine ⟨?_, ?_⟩ <;> omega
  entries c copy inside copies := by
    have long := mounted.tableLong_iff.mp long
    have high := inside.2
    refine ⟨(sector_iff mounted.size).mpr (by omega), ?_⟩
    unfold fatEntryLocation
    rw [mounted.size]
    unfold sectorSize
    dsimp only
    omega
  apart := mounted.regions_apart
  within := mounted.regions_within
  own c c' inside inside' other := by
    rcases Nat.lt_or_gt_of_ne other with below | above
    · exact own_sectors inside below
    · exact (own_sectors inside' above).symm
  data c inside := ⟨Nat.le_add_right _ _, mounted.cluster_end inside⟩

theorem usable_iff : Usable v (totalSectors sector) ↔ TableLong sector := by
  constructor
  · intro usable
    have many := mounted.many
    have last : Inside v (v.clusters + 1) := ⟨by omega, by omega⟩
    have listed := (usable.entries _ 0 last mounted.some_copy).1
    rw [sector_iff mounted.size] at listed
    rw [mounted.tableLong_iff]
    unfold sectorSize at listed ⊢
    omega
  · exact mounted.usable

end Mounted

theorem sound_of_usable {present : Bool} {disk : Store} (mounted : mount present disk = .ok v)
    (usable : Usable v (totalSectors (Reading.read disk 0 1))) : Sound v :=
  have fields := mounted_of_mount mounted
  mount_sound mounted (fields.tableLong_iff.mp (fields.usable_iff.mp usable))

/-- A boot sector that `mount` accepts gives a usable layout exactly when its tables are as
long as its clusters are many, which `mount` does not check. -/
theorem geometry_usable_iff {present : Bool} {disk : Store} (mounted : mount present disk = .ok v) :
    Usable v (totalSectors (Reading.read disk 0 1)) ↔ TableLong (Reading.read disk 0 1) :=
  (mounted_of_mount mounted).usable_iff

/-- One sector of table, 256 entries, for 4085 clusters of one sector. -/
def shortTable : Store := fun x =>
  [0xEB, 0x3C, 0x90, 0, 0, 0, 0, 0, 0, 0, 0, 0x00, 0x02, 0x01, 0x01, 0x00, 0x01, 0x10, 0x00,
    0xF8, 0x0F, 0xF8, 0x01, 0x00].getD x (if x = 510 then 0x55 else if x = 511 then 0xAA else 0)

def shortVolume : Volume where
  bytesPerSector := 512
  fatCount := 1
  sectorsPerCluster := 1
  fatStart := 1
  sectorsPerFat := 1
  rootStart := 2
  rootEntries := 16
  dataStart := 3
  clusters := 4085

theorem ok_of_toOption {α : Type} {result : Except String α} {value : α}
    (found : result.toOption = some value) : result = .ok value := by
  cases result with
  | error e => simp [Except.toOption] at found
  | ok v => exact congrArg Except.ok (Option.some.inj found)

theorem shortTable_mounted : mount true shortTable = .ok shortVolume :=
  ok_of_toOption (by decide +kernel)

/-- The entry of cluster 257 is in the root directory, and the volume is mounted. -/
theorem geometry_usable_not :
    ¬∀ present disk v, mount present disk = .ok v →
      Usable v (totalSectors (Reading.read disk 0 1)) := by
  intro always
  have usable := always true shortTable shortVolume shortTable_mounted
  have listed := (usable.entries 257 0 (by decide) (by decide)).1
  revert listed
  decide

/-- Sixteen sectors of table for 4085 clusters of one sector. -/
def longTable : Store := fun x =>
  [0xEB, 0x3C, 0x90, 0, 0, 0, 0, 0, 0, 0, 0, 0x00, 0x02, 0x01, 0x01, 0x00, 0x01, 0x10, 0x00,
    0x07, 0x10, 0xF8, 0x10, 0x00].getD x (if x = 510 then 0x55 else if x = 511 then 0xAA else 0)

def longVolume : Volume where
  bytesPerSector := 512
  fatCount := 1
  sectorsPerCluster := 1
  fatStart := 1
  sectorsPerFat := 16
  rootStart := 17
  rootEntries := 16
  dataStart := 18
  clusters := 4085

theorem longTable_mounted : mount true longTable = .ok longVolume :=
  ok_of_toOption (by decide +kernel)

theorem longTable_usable : Usable longVolume (totalSectors (Reading.read longTable 0 1)) :=
  (mounted_of_mount longTable_mounted).usable_iff.mpr (by decide +kernel)

theorem geometry_usable_iff_long :
    TableLong (Reading.read longTable 0 1) ∧
      (Usable longVolume (totalSectors (Reading.read longTable 0 1)) ↔
        TableLong (Reading.read longTable 0 1)) :=
  ⟨(geometry_usable_iff longTable_mounted).mp longTable_usable, geometry_usable_iff longTable_mounted⟩

end Layout

end FiveAM.Fat.Geometry
