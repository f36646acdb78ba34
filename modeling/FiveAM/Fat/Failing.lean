/- GID: FiveAM/Fat/Failing
   source: kernel/src/fat.rs
   digest: When a create that fails leaves the volume as it was. -/

import FiveAM.Fat.Creating
import FiveAM.Fat.Image

set_option autoImplicit false
set_option relaxedAutoImplicit false

namespace FiveAM.Fat.Failing

open FiveAM.Lib.ByteRegions FiveAM.Lib.LinkedTable
open FiveAM.Fat.Reading FiveAM.Fat.Writing FiveAM.Fat.Layout FiveAM.Fat.Tables FiveAM.Fat.Directory
open FiveAM.Fat.Names FiveAM.Fat.Files FiveAM.Fat.Creating

/-- The same files with the same bytes, the same entries in every copy of the table, and
as many free clusters. -/
structure Unchanged (v : Volume) (disk disk' : Store) : Prop where
  list : v.list disk' = v.list disk
  files : ∀ e ∈ v.list disk, v.readFile disk' e = v.readFile disk e
  entries : ∀ copy < v.fatCount, ∀ c, table v disk' copy c = table v disk copy c
  free : countFree v disk' = countFree v disk

/-- A file that needs more clusters than are free, when some are. -/
def RunsShort (v : Volume) (name : List Char) (data : List UInt8) (disk : Store) : Prop :=
  Fits name ∧ (∃ place, directorySlot v disk name = .ok place) ∧ data.isEmpty = false ∧
    0 < countFree v disk ∧ countFree v disk < needed v data

theorem Unchanged.rfl {v : Volume} {disk : Store} : Unchanged v disk disk :=
  ⟨Eq.refl _, fun _ _ => Eq.refl _, fun _ _ _ => Eq.refl _, Eq.refl _⟩

theorem target_of_ok {v : Volume} {name : List Char} {disk : Store}
    {place : Nat × Nat × Option Entry} (found : directorySlot v disk name = .ok place) :
    ∃ i, Target v disk name i place.2.2 := by
  obtain ⟨sector, offset, existing⟩ := place
  obtain ⟨i, target, _, _⟩ := target_of_slot found
  exact ⟨i, target⟩

theorem short_leaves_none {v : Volume} (sound : Sound v) {name : List Char} {data : List UInt8}
    {d : Drive} (short : RunsShort v name data d.contents) :
    (create v name data d).1 = .error "the volume is full" ∧
      countFree v (create v name data d).2.contents = 0 := by
  obtain ⟨fits, ⟨place, found⟩, some, _, few⟩ := short
  obtain ⟨i, target⟩ := target_of_ok found
  obtain ⟨result, claimed⟩ := create_short sound fits target some few
  refine ⟨result, ?_⟩
  rw [countFree_eq sound, List.length_eq_zero_iff, List.eq_nil_iff_forall_not_mem]
  intro c member
  obtain ⟨inside, low, free⟩ := mem_freeCells.mp member
  rw [claimed.entries 0 sound.copies] at free
  by_cases before : table v d.contents 0 c = 0
  · rw [setAll_mem (mem_freeCells.mpr ⟨inside, low, before⟩)] at free
    exact absurd free (by decide)
  · rw [setAll_other fun member => before (mem_freeCells.mp member).2.2] at free
    exact before free

theorem create_full {v : Volume} (sound : Sound v) {name : List Char} {data : List UInt8}
    {d : Drive} (fits : Fits name) {place : Nat × Nat × Option Entry}
    (found : directorySlot v d.contents name = .ok place) (some : data.isEmpty = false)
    (none : countFree v d.contents = 0) :
    create v name data d = (.error "the volume is full", d) := by
  obtain ⟨n, more⟩ : ∃ n, max (divCeil data.length v.clusterBytes) 1 = n + 1 :=
    ⟨max (divCeil data.length v.clusterBytes) 1 - 1, by omega⟩
  rw [countFree_eq sound, List.length_eq_zero_iff] at none
  have stuck : writeChain v data d = (.error "the volume is full", d) := by
    rw [writeChain, more, reserve, findFreeCluster_eq sound, none]
  rw [create_fits fits, found, some]
  simp only [Bool.false_eq_true, if_false, stuck]

/-- A create that fails leaves the volume as it was, unless it runs short of clusters
after claiming some. -/
theorem failed_create_iff {v : Volume} {name : List Char} {data : List UInt8} {d : Drive}
    (consistent : Consistent v d.contents) :
    (∀ error d', create v name data d = (.error error, d') →
        Unchanged v d.contents d'.contents) ↔ ¬ RunsShort v name data d.contents := by
  obtain ⟨cells, holds⟩ := consistent
  have sound := holds.sound
  constructor
  · intro unchanged short
    obtain ⟨failed, empty⟩ := short_leaves_none sound short
    have same := (unchanged _ (create v name data d).2 (Prod.ext failed rfl)).free
    have some := short.2.2.2.1
    omega
  · intro enough error d' failed
    by_cases fits : Fits name
    · cases found : directorySlot v d.contents name with
      | error crowded =>
          rw [create_crowded fits found] at failed
          obtain ⟨_, rfl⟩ := Prod.mk.inj failed
          exact Unchanged.rfl
      | ok place =>
          obtain ⟨i, target⟩ := target_of_ok found
          by_cases room : data.isEmpty = false → needed v data ≤ countFree v d.contents
          · have done := (create_done holds fits target room).1
            rw [failed] at done
            simp at done
          · rw [Classical.not_imp] at room
            obtain ⟨some, short⟩ := room
            have none : countFree v d.contents = 0 := by
              by_contra free
              exact enough ⟨fits, ⟨place, found⟩, some, by omega, by omega⟩
            rw [create_full sound fits found some none] at failed
            obtain ⟨_, rfl⟩ := Prod.mk.inj failed
            exact Unchanged.rfl
    · rw [create_misfit fits] at failed
      obtain ⟨_, rfl⟩ := Prod.mk.inj failed
      exact Unchanged.rfl

private def nearlyFull : List UInt8 := List.replicate (8166 * 2048) 0

private theorem nearlyFull_takes : Mkfs.clustersFor nearlyFull = 8166 := by
  rw [Mkfs.clustersFor, nearlyFull, List.length_replicate]
  decide

private theorem nearlyFull_volume : ∃ disk, Consistent Image.volume disk ∧
    countFree Image.volume disk = 1 ∧
    ∃ place, directorySlot Image.volume disk "NEW".toList = .ok place := by
  obtain ⟨disk, consistent, free, _, slots⟩ := Image.volume_of_one nearlyFull
    (by rw [nearlyFull_takes]; decide)
  rw [nearlyFull_takes] at free
  exact ⟨disk, consistent, by omega, slots _⟩

private def twoClusters : List UInt8 := List.replicate 2049 0

private theorem twoClusters_short {disk : Store} (free : countFree Image.volume disk = 1)
    {place : Nat × Nat × Option Entry}
    (found : directorySlot Image.volume disk "NEW".toList = .ok place) :
    RunsShort Image.volume "NEW".toList twoClusters disk := by
  refine ⟨by decide, ⟨place, found⟩, rfl, by omega, ?_⟩
  rw [free, needed, twoClusters, List.length_replicate]
  decide

/-- A file of two clusters does not fit in one, and the one is gone. -/
theorem failed_create_loses_cluster : ∃ v d name data error d', Consistent v d.contents ∧
    create v name data d = (.error error, d') ∧ countFree v d.contents = 1 ∧
    countFree v d'.contents = 0 := by
  obtain ⟨disk, ⟨cells, holds⟩, free, place, found⟩ := nearlyFull_volume
  obtain ⟨failed, empty⟩ := short_leaves_none (d := ⟨disk, []⟩) holds.sound
    (twoClusters_short free found)
  rcases outcome : create Image.volume "NEW".toList twoClusters ⟨disk, []⟩ with ⟨r, d'⟩
  rw [outcome] at failed empty
  obtain rfl : r = _ := failed
  exact ⟨Image.volume, ⟨disk, []⟩, "NEW".toList, twoClusters, _, d', ⟨cells, holds⟩, outcome, free,
    empty⟩

theorem failed_create_iff_nearlyFull : ∃ v d name data, ¬ ∀ error d',
    create v name data d = (.error error, d') → Unchanged v d.contents d'.contents := by
  obtain ⟨disk, consistent, free, place, found⟩ := nearlyFull_volume
  have same := @failed_create_iff Image.volume "NEW".toList twoClusters ⟨disk, []⟩ consistent
  exact ⟨Image.volume, ⟨disk, []⟩, "NEW".toList, twoClusters,
    fun unchanged => same.mp unchanged (twoClusters_short free found)⟩

end FiveAM.Fat.Failing
