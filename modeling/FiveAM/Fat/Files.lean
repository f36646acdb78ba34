/- GID: FiveAM/Fat/Files
   source: kernel/src/fat.rs
   digest: Consistent volumes: whose clusters are whose, and what reading a file returns. -/

import FiveAM.Fat.Names
import FiveAM.Fat.Tables
import Mathlib.Data.List.Perm.Subperm

set_option autoImplicit false
set_option relaxedAutoImplicit false

namespace FiveAM.Fat.Files

open FiveAM.Lib.ByteRegions FiveAM.Lib.LinkedTable
open FiveAM.Fat.Reading FiveAM.Fat.Writing FiveAM.Fat.Layout FiveAM.Fat.Tables FiveAM.Fat.Directory

/-- The clusters of the file in each slot: every used cluster is one of theirs, and of
one file only. -/
structure Holds (v : Volume) (disk : Store) (cells : Nat → List Nat) : Prop where
  mounted : mount true disk = .ok v
  roomy : 2 * (v.clusters + 2) ≤ sectorSize * v.sectorsPerFat
  blank : ∀ i j, i < j → j < slotCount v → (slotOf v disk i).first = entryFree →
    slotBytes v disk j = List.replicate directoryEntrySize 0
  copies : ∀ copy < v.fatCount, table v disk copy = table v disk 0
  chains : ∀ i ∈ listed v disk,
    ((entryAt v disk i).firstCluster < 2 ∧ cells i = []) ∨
      FileChain v (table v disk 0) (entryAt v disk i).firstCluster (cells i)
  long : ∀ i ∈ listed v disk, (entryAt v disk i).size ≤ (cells i).length * v.clusterBytes
  apart : ∀ i ∈ listed v disk, ∀ j ∈ listed v disk, i ≠ j → ∀ c ∈ cells i, c ∉ cells j
  exact : ∀ c, Inside v c → (table v disk 0 c ≠ 0 ↔ ∃ i ∈ listed v disk, c ∈ cells i)

/-- A volume `mount` accepts, with a table long enough, equal copies of it, nothing
after the end of the directory, and the used clusters exactly those of the files. -/
def Consistent (v : Volume) (disk : Store) : Prop := ∃ cells, Holds v disk cells

private theorem powerOfTwo_le {n : Nat} (byte : n < 256) (power : isPowerOfTwo n = true) :
    n ≤ 128 := by
  have all : ∀ i : Fin 256, isPowerOfTwo i = true → i.val ≤ 128 := by decide +kernel
  exact all ⟨n, byte⟩ power

theorem mount_sound {present : Bool} {disk : Store} {v : Volume}
    (mounted : mount present disk = .ok v)
    (roomy : 2 * (v.clusters + 2) ≤ sectorSize * v.sectorsPerFat) : Sound v := by
  unfold mount at mounted
  simp only at mounted
  generalize Reading.read disk 0 1 = bytes at mounted
  generalize (if readU16 bytes 19 = 0 then readU32 bytes 32 else readU16 bytes 19) = total
    at mounted
  split_ifs at mounted with absent mark sector cluster zero past few
  rw [not_or] at cluster
  rw [not_or, not_or, not_or] at zero
  obtain ⟨reserved, copies, _, _⟩ := zero
  obtain rfl := Except.ok.inj mounted
  exact {
    sector := not_not.mp sector
    cluster := Nat.pos_of_ne_zero cluster.1
    small := powerOfTwo_le (UInt8.toNat_lt _) (Bool.of_not_eq_false cluster.2)
    fatStart := Nat.pos_of_ne_zero reserved
    copies := Nat.pos_of_ne_zero copies
    root := rfl
    data := rfl
    few := few.2
    roomy := roomy }

theorem mount_congr {disk disk' : Store} (same : boot disk' = boot disk) (present : Bool) :
    mount present disk' = mount present disk := by
  have sectors : Reading.read disk' 0 1 = Reading.read disk 0 1 := same
  unfold mount
  rw [sectors]

theorem Holds.sound {v : Volume} {disk : Store} {cells : Nat → List Nat}
    (holds : Holds v disk cells) : Sound v := mount_sound holds.mounted holds.roomy

/-- The first `size` bytes of the clusters, one after another. -/
def content (v : Volume) (disk : Store) (cells : List Nat) (size : Nat) : List UInt8 :=
  (cells.flatMap (clusterData v disk)).take size

theorem content_congr {v : Volume} {disk disk' : Store} {cells : List Nat} {size : Nat}
    (same : ∀ c ∈ cells, clusterData v disk' c = clusterData v disk c) :
    content v disk' cells size = content v disk cells size := by
  unfold content
  rw [List.flatMap_congr same]

section Walking

variable {v : Volume} (sound : Sound v)

theorem clusterData_length (disk : Store) {c : Nat} (inside : Inside v c) :
    (clusterData v disk c).length = v.clusterBytes := by
  rw [clusterData, if_pos inside, slice_length]

theorem cells_length {disk : Store} {cells : List Nat} (all : ∀ c ∈ cells, Inside v c) :
    (cells.flatMap (clusterData v disk)).length = cells.length * v.clusterBytes := by
  induction cells with
  | nil => simp
  | cons c rest ih =>
      rw [List.flatMap_cons, List.length_append, clusterData_length _ (all c (by simp)),
        ih fun x member => all x (List.mem_cons_of_mem _ member), List.length_cons, Nat.add_mul,
        Nat.one_mul, Nat.add_comm]

include sound

theorem chain_length {f : Nat → Nat} {first : Nat} {cells : List Nat}
    (chain : FileChain v f first cells) : cells.length ≤ v.clusters := by
  have distinct := chain.nodup (inside_not_end sound.few)
  have within : cells ⊆ List.range' 2 v.clusters := fun c member => by
    have inside := chain.live c member
    unfold Inside at inside
    exact List.mem_range'_1.mpr (by omega)
  simpa using (List.subperm_of_subset distinct within).length_le

theorem readFrom_content {disk : Store} (size : Nat) {left first : Nat} {cells : List Nat}
    (data : List UInt8) (chain : FileChain v (table v disk 0) first cells)
    (more : data.length < size) (long : size ≤ data.length + cells.length * v.clusterBytes)
    (enough : cells.length ≤ left) :
    v.readFrom disk size left first data =
      .ok ((data ++ cells.flatMap (clusterData v disk)).take size) := by
  induction cells generalizing left first data with
  | nil => simp at long; omega
  | cons c rest ih =>
      obtain ⟨rfl, inside, later⟩ := chain
      obtain ⟨left, rfl⟩ : ∃ n, left = n + 1 := ⟨left - 1, by simp at enough; omega⟩
      have whole : Reading.read disk (v.clusterToSector first) v.sectorsPerCluster =
          clusterData v disk first := by
        rw [clusterData, if_pos inside, Reading.read, ← sound.clusterBytes_eq]
        rfl
      have length : (clusterData v disk first).length = v.clusterBytes := clusterData_length disk inside
      have outside : ¬ (first < 2 ∨ v.clusters + 2 ≤ first) := by
        unfold Inside at inside
        omega
      rw [Volume.readFrom, if_pos more, if_neg outside]
      simp only [whole, length]
      rw [List.flatMap_cons, ← List.append_assoc]
      have grown : (data ++ (clusterData v disk first).take
          (min (size - data.length) v.clusterBytes)).length =
            data.length + min (size - data.length) v.clusterBytes := by
        rw [List.length_append, List.length_take, length]
        omega
      rw [grown]
      rcases Nat.lt_or_ge v.clusterBytes (size - data.length) with short | last
      · have all : (clusterData v disk first).take (min (size - data.length) v.clusterBytes) =
            clusterData v disk first := by
          rw [List.take_of_length_le (by omega)]
        have onward : FileChain v (table v disk 0) (v.nextCluster disk first) rest := by
          rw [nextCluster_eq sound (sound.listed inside)]
          exact later
        have going : rest ≠ [] := by
          rintro rfl
          simp at long
          omega
        obtain ⟨x, others, rfl⟩ := List.exists_cons_of_ne_nil going
        have unmarked := inside_not_end sound.few _ onward.2.1
        rw [if_neg (by omega), all, if_neg (by rw [onward.1]; exact unmarked)]
        refine ih _ onward ?_ ?_ (by simpa using enough)
        · rw [List.length_append, length]
          omega
        · rw [List.length_append, length]
          simp only [List.length_cons, Nat.add_mul, Nat.one_mul] at long ⊢
          omega
      · rw [if_pos (by omega), Nat.min_eq_left last]
        have front : data.take size = data := List.take_of_length_le (by omega)
        rw [List.take_append_of_le_length (by rw [List.length_append, length]; omega),
          List.take_append, front]

theorem readFile_content {disk : Store} {entry : Entry} {cells : List Nat}
    (chains : (entry.firstCluster < 2 ∧ cells = []) ∨
      FileChain v (table v disk 0) entry.firstCluster cells)
    (long : entry.size ≤ cells.length * v.clusterBytes) :
    v.readFile disk entry = .ok (content v disk cells entry.size) := by
  unfold Volume.readFile content
  by_cases empty : entry.size = 0
  · rw [if_pos empty, empty, List.take_zero]
  · rw [if_neg empty]
    rcases chains with ⟨_, none⟩ | chain
    · rw [none] at long
      simp at long
      omega
    · have read := readFrom_content sound entry.size [] chain
        (by simp; omega) (by simpa using long) (chain_length sound chain)
      simpa using read

end Walking

theorem Holds.cells_used {v : Volume} {disk : Store} {cells : Nat → List Nat}
    (holds : Holds v disk cells) {i : Nat} (member : i ∈ listed v disk) :
    ∀ c ∈ cells i, Inside v c ∧ table v disk 0 c ≠ 0 := by
  intro c used
  rcases holds.chains i member with ⟨_, none⟩ | chain
  · simp [none] at used
  · have inside := chain.live c used
    exact ⟨inside, (holds.exact c inside).mpr ⟨i, member, used⟩⟩

theorem Holds.readFile {v : Volume} {disk : Store} {cells : Nat → List Nat}
    (holds : Holds v disk cells) {i : Nat} (member : i ∈ listed v disk) :
    v.readFile disk (entryAt v disk i) =
      .ok (content v disk (cells i) (entryAt v disk i).size) :=
  readFile_content holds.sound (holds.chains i member) (holds.long i member)

theorem Holds.listed_other {v : Volume} {disk disk' : Store} {cells : Nat → List Nat}
    (holds : Holds v disk cells) {i : Nat}
    (before : ∀ k < i, (slotOf v disk k).first ≠ entryFree)
    (others : ∀ k, k ≠ i → slotOf v disk' k = slotOf v disk k)
    (going : (slotOf v disk' i).first ≠ entryFree) {j : Nat} (other : j ≠ i) :
    j ∈ listed v disk' ↔ j ∈ listed v disk := by
  rw [mem_listed, mem_listed, others j other]
  refine and_congr_right fun inside => and_congr_left fun _ => ?_
  constructor
  · intro all k low
    by_cases same : k = i
    · subst same
      intro free
      have zero := holds.blank k j (by omega) inside free
      refine all j (Nat.le_refl _) ?_
      rw [others j other, Slot.first, slotOf, zero]
      rfl
    · rw [← others k same]
      exact all k low
  · intro all k low
    by_cases same : k = i
    · rwa [same]
    · rw [others k same]
      exact all k low

end FiveAM.Fat.Files
