/- GID: FiveAM/Fat/Layout
   source: kernel/src/fat.rs
   digest: Where tables, directory slots and clusters lie, and what a write to one leaves alone. -/

import FiveAM.Fat.Writing
import FiveAM.Lib.LinkedTable

set_option autoImplicit false
set_option relaxedAutoImplicit false

namespace FiveAM.Fat.Layout

open FiveAM.Lib.ByteRegions FiveAM.Fat.Reading FiveAM.Fat.Writing

/-- The numbers of a volume fit together, and its table has an entry for every cluster. -/
structure Sound (v : Volume) : Prop where
  sector : v.bytesPerSector = sectorSize
  cluster : 0 < v.sectorsPerCluster
  small : v.sectorsPerCluster ≤ 128
  fatStart : 0 < v.fatStart
  copies : 0 < v.fatCount
  root : v.rootStart = v.fatStart + v.fatCount * v.sectorsPerFat
  data : v.dataStart = v.rootStart + v.rootSectors
  few : v.clusters < 65525
  roomy : 2 * (v.clusters + 2) ≤ sectorSize * v.sectorsPerFat

def slotCount (v : Volume) : Nat := 16 * v.rootSectors

def tableAt (v : Volume) (copy cluster : Nat) : Nat :=
  sectorSize * (v.fatStart + copy * v.sectorsPerFat) + 2 * cluster

def slotAt (v : Volume) (i : Nat) : Nat := sectorSize * v.rootStart + directoryEntrySize * i

def clusterAt (v : Volume) (cluster : Nat) : Nat := sectorSize * v.clusterToSector cluster

/-- The entry of a cluster in one copy of the table. -/
def table (v : Volume) (disk : Store) (copy cluster : Nat) : Nat :=
  if copy < v.fatCount ∧ 2 * cluster < sectorSize * v.sectorsPerFat then
    readU16 (slice disk (tableAt v copy cluster) 2) 0
  else 0

def slotBytes (v : Volume) (disk : Store) (i : Nat) : List UInt8 :=
  if i < slotCount v then slice disk (slotAt v i) directoryEntrySize else []

def Inside (v : Volume) (cluster : Nat) : Prop := 2 ≤ cluster ∧ cluster < v.clusters + 2

instance (v : Volume) (cluster : Nat) : Decidable (Inside v cluster) :=
  inferInstanceAs (Decidable (_ ∧ _))

def clusterData (v : Volume) (disk : Store) (cluster : Nat) : List UInt8 :=
  if Inside v cluster then slice disk (clusterAt v cluster) v.clusterBytes else []

def boot (disk : Store) : List UInt8 := slice disk 0 sectorSize

theorem le16_value {value : Nat} (small : value < 2 ^ 16) (rest : List UInt8) :
    readU16 (le16 value ++ rest) 0 = value := by
  simp [readU16, le16]
  omega

theorem readU16_lt (data : List UInt8) (i : Nat) : readU16 data i < 2 ^ 16 := by
  have low := (data.getD i 0).toNat_lt
  have high := (data.getD (i + 1) 0).toNat_lt
  unfold readU16
  omega

theorem readU32_lt (data : List UInt8) (i : Nat) : readU32 data i < 2 ^ 32 := by
  have first := (data.getD i 0).toNat_lt
  have second := (data.getD (i + 1) 0).toNat_lt
  have third := (data.getD (i + 2) 0).toNat_lt
  have fourth := (data.getD (i + 3) 0).toNat_lt
  unfold readU32
  omega

section Regions

variable {v : Volume} (sound : Sound v)

theorem table_apart {copy copy' : Nat} (below : copy < copy') :
    copy * v.sectorsPerFat + v.sectorsPerFat ≤ copy' * v.sectorsPerFat := by
  have most : (copy + 1) * v.sectorsPerFat ≤ copy' * v.sectorsPerFat :=
    Nat.mul_le_mul_right _ below
  rwa [Nat.add_mul, Nat.one_mul] at most

include sound

theorem Sound.listed {cluster : Nat} (inside : Inside v cluster) :
    2 * cluster < sectorSize * v.sectorsPerFat := by
  have := sound.roomy
  have := inside.2
  omega

theorem Sound.clusterBytes_eq : v.clusterBytes = sectorSize * v.sectorsPerCluster := by
  rw [Volume.clusterBytes, sound.sector, Nat.mul_comm]

theorem Sound.clusterBytes_pos : 0 < v.clusterBytes := by
  rw [sound.clusterBytes_eq]
  exact Nat.mul_pos (by decide) sound.cluster

theorem Sound.tableAt_end {copy cluster : Nat} (copies : copy < v.fatCount)
    (inside : 2 * cluster < sectorSize * v.sectorsPerFat) :
    tableAt v copy cluster + 2 ≤ sectorSize * v.rootStart := by
  have most := table_apart (v := v) copies
  have := sound.root
  unfold tableAt sectorSize at *
  omega

theorem Sound.slotAt_end {i : Nat} (inside : i < slotCount v) :
    slotAt v i + directoryEntrySize ≤ sectorSize * v.dataStart := by
  have := sound.data
  unfold slotCount at inside
  unfold slotAt directoryEntrySize sectorSize
  omega

omit sound in
theorem clusterAt_start (cluster : Nat) : sectorSize * v.dataStart ≤ clusterAt v cluster :=
  Nat.mul_le_mul_left _ (Nat.le_add_right _ _)

theorem Sound.clusterAt_apart {cluster cluster' : Nat} (low : 2 ≤ cluster)
    (below : cluster < cluster') :
    clusterAt v cluster + v.clusterBytes ≤ clusterAt v cluster' := by
  have most : (cluster - 2 + 1) * v.sectorsPerCluster ≤ (cluster' - 2) * v.sectorsPerCluster :=
    Nat.mul_le_mul_right _ (by omega)
  rw [Nat.add_mul, Nat.one_mul] at most
  rw [sound.clusterBytes_eq]
  unfold clusterAt Volume.clusterToSector sectorSize
  omega

theorem Sound.rootStart_le : v.rootStart ≤ v.dataStart := by
  have := sound.data
  omega

theorem Sound.tables_after_boot (copy cluster : Nat) : sectorSize ≤ tableAt v copy cluster := by
  have := sound.fatStart
  unfold tableAt sectorSize
  omega

theorem Sound.root_after_boot : sectorSize ≤ sectorSize * v.rootStart := by
  have := sound.fatStart
  have := sound.root
  unfold sectorSize
  omega

theorem poke_table (disk : Store) {copy cluster : Nat} {word : List UInt8}
    (copies : copy < v.fatCount) (inside : 2 * cluster < sectorSize * v.sectorsPerFat)
    (two : word.length = 2) :
    slotBytes v (poke disk (tableAt v copy cluster) word) = slotBytes v disk ∧
      clusterData v (poke disk (tableAt v copy cluster) word) = clusterData v disk ∧
      boot (poke disk (tableAt v copy cluster) word) = boot disk := by
  have ends := sound.tableAt_end copies inside
  refine ⟨?_, ?_, ?_⟩
  · funext i
    unfold slotBytes
    rw [slice_poke_apart (.inr (by unfold slotAt; omega))]
  · funext c
    have start := clusterAt_start (v := v) c
    have order := Nat.mul_le_mul_left sectorSize sound.rootStart_le
    unfold clusterData
    rw [slice_poke_apart (.inr (by omega))]
  · have after := sound.tables_after_boot copy cluster
    exact slice_poke_apart (.inl (by omega))

omit sound in
theorem table_poke {disk : Store} {copy cluster value : Nat} (copies : copy < v.fatCount)
    (inside : 2 * cluster < sectorSize * v.sectorsPerFat) (small : value < 2 ^ 16)
    (copy' : Nat) :
    table v (poke disk (tableAt v copy cluster) (le16 value)) copy' =
      if copy' = copy then Function.update (table v disk copy) cluster value
      else table v disk copy' := by
  funext c
  unfold table
  by_cases good : copy' < v.fatCount ∧ 2 * c < sectorSize * v.sectorsPerFat
  · rw [if_pos good]
    by_cases here : copy' = copy
    · subst here
      rw [if_pos rfl]
      by_cases same : c = cluster
      · subst same
        have whole := slice_poke_self disk (tableAt v copy' c) (le16 value)
        rw [Function.update_self, show (2 : Nat) = (le16 value).length from rfl, whole]
        simpa using le16_value small []
      · rw [Function.update_of_ne same, if_pos good, slice_poke_apart]
        rw [show (le16 value).length = 2 from rfl]
        unfold tableAt
        omega
    · rw [if_neg here, if_pos good, slice_poke_apart]
      rw [show (le16 value).length = 2 from rfl]
      rcases Nat.lt_or_gt_of_ne here with below | below
      · have := table_apart (v := v) below
        unfold tableAt sectorSize at *
        omega
      · have := table_apart (v := v) below
        unfold tableAt sectorSize at *
        omega
  · rw [if_neg good]
    by_cases here : copy' = copy
    · subst here
      have other : c ≠ cluster := fun same => good ⟨copies, same ▸ inside⟩
      rw [if_pos rfl, Function.update_of_ne other, if_neg good]
    · rw [if_neg here, if_neg good]

theorem poke_slot (disk : Store) {i : Nat} {part : List UInt8} (inside : i < slotCount v)
    (short : part.length ≤ directoryEntrySize) :
    table v (poke disk (slotAt v i) part) = table v disk ∧
      clusterData v (poke disk (slotAt v i) part) = clusterData v disk ∧
      boot (poke disk (slotAt v i) part) = boot disk := by
  have ends := sound.slotAt_end inside
  have begins : sectorSize * v.rootStart ≤ slotAt v i := Nat.le_add_right _ _
  refine ⟨?_, ?_, ?_⟩
  · funext copy c
    unfold table
    by_cases good : copy < v.fatCount ∧ 2 * c < sectorSize * v.sectorsPerFat
    · have before := sound.tableAt_end good.1 good.2
      rw [if_pos good, if_pos good, slice_poke_apart (.inl (by omega))]
    · rw [if_neg good, if_neg good]
  · funext c
    have start := clusterAt_start (v := v) c
    unfold clusterData
    rw [slice_poke_apart (.inr (by omega))]
  · have after := sound.root_after_boot
    exact slice_poke_apart (.inl (by omega))

omit sound in
theorem slotBytes_poke (disk : Store) {i : Nat} {part : List UInt8} (inside : i < slotCount v)
    (short : part.length ≤ directoryEntrySize) :
    slotBytes v (poke disk (slotAt v i) part) =
      Function.update (slotBytes v disk) i (part ++ (slotBytes v disk i).drop part.length) := by
  funext j
  by_cases same : j = i
  · subst same
    obtain ⟨rest, whole⟩ : ∃ rest, directoryEntrySize = part.length + rest :=
      ⟨directoryEntrySize - part.length, by omega⟩
    rw [Function.update_self]
    unfold slotBytes
    rw [if_pos inside, if_pos inside, whole, slice_append, slice_append, slice_poke_self,
      List.drop_left' (slice_length _ _ _), slice_poke_apart (.inr (by omega))]
  · rw [Function.update_of_ne same]
    unfold slotBytes
    rw [slice_poke_apart]
    unfold slotAt directoryEntrySize at *
    omega

theorem poke_cluster (disk : Store) (cluster : Nat) (part : List UInt8) :
    table v (poke disk (clusterAt v cluster) part) = table v disk ∧
      slotBytes v (poke disk (clusterAt v cluster) part) = slotBytes v disk ∧
      boot (poke disk (clusterAt v cluster) part) = boot disk := by
  have start := clusterAt_start (v := v) cluster
  have order := Nat.mul_le_mul_left sectorSize sound.rootStart_le
  refine ⟨?_, ?_, ?_⟩
  · funext copy c
    unfold table
    by_cases good : copy < v.fatCount ∧ 2 * c < sectorSize * v.sectorsPerFat
    · have before := sound.tableAt_end good.1 good.2
      rw [if_pos good, if_pos good, slice_poke_apart (.inl (by omega))]
    · rw [if_neg good, if_neg good]
  · funext i
    unfold slotBytes
    by_cases inside : i < slotCount v
    · have ends := sound.slotAt_end inside
      rw [if_pos inside, if_pos inside, slice_poke_apart (.inl (by omega))]
    · rw [if_neg inside, if_neg inside]
  · have after := sound.root_after_boot
    exact slice_poke_apart (.inl (by omega))

theorem clusterData_poke (disk : Store) {cluster : Nat} {part : List UInt8}
    (inside : Inside v cluster) (whole : part.length = v.clusterBytes) :
    clusterData v (poke disk (clusterAt v cluster) part) =
      Function.update (clusterData v disk) cluster part := by
  funext c
  by_cases same : c = cluster
  · subst same
    rw [Function.update_self, clusterData, if_pos inside, ← whole, slice_poke_self]
  · rw [Function.update_of_ne same]
    unfold clusterData
    by_cases other : Inside v c
    · rw [if_pos other, if_pos other, slice_poke_apart]
      rw [whole]
      rcases Nat.lt_or_gt_of_ne same with below | below
      · exact .inl (sound.clusterAt_apart other.1 below)
      · exact .inr (sound.clusterAt_apart inside.1 below)
    · rw [if_neg other, if_neg other]

theorem nextCluster_eq {disk : Store} {cluster : Nat}
    (inside : 2 * cluster < sectorSize * v.sectorsPerFat) :
    v.nextCluster disk cluster = table v disk 0 cluster := by
  have split := Nat.div_add_mod (cluster * 2) sectorSize
  have within : cluster * 2 % sectorSize + 2 ≤ sectorSize := by
    unfold sectorSize
    omega
  have place : sectorSize * (v.fatStart + cluster * 2 / sectorSize) + cluster * 2 % sectorSize =
      tableAt v 0 cluster := by
    unfold tableAt
    rw [Nat.mul_add, Nat.mul_add, Nat.zero_mul]
    omega
  rw [table, if_pos ⟨sound.copies, inside⟩, Volume.nextCluster, sound.sector]
  unfold readU16 Reading.read
  rw [Nat.mul_one, slice_getD (by omega), slice_getD (by omega), slice_getD (by omega),
    slice_getD (by omega), ← place]
  rfl

end Regions

end FiveAM.Fat.Layout
