/- GID: FiveAM/Fat/Finding
   source: kernel/src/fat.rs
   digest: Which of the names a create accepts are found again. -/

import FiveAM.Fat.Keeping
import FiveAM.Fat.Image

set_option autoImplicit false
set_option relaxedAutoImplicit false

namespace FiveAM.Fat.Finding

open FiveAM.Lib.ByteRegions
open FiveAM.Fat.Reading FiveAM.Fat.Writing FiveAM.Fat.Layout FiveAM.Fat.Directory
open FiveAM.Fat.Names FiveAM.Fat.Files FiveAM.Fat.Creating FiveAM.Fat.Keeping

def matchCount (v : Volume) (disk : Store) (name : List Char) : Nat :=
  ((v.list disk).filter fun e => eqIgnoreAsciiCase e.name name).length

/-- After a create: the name is found and reads back as `data`, one entry matches it,
every other listed file is there with its bytes, and a second create or a remove of the
name acts on the entry in the slot that was written. -/
structure FoundAgain (v : Volume) (name : List Char) (data : List UInt8) (disk disk' : Store) :
    Prop where
  found : ∃ e, v.find disk' name = .ok e ∧ v.readFile disk' e = .ok data
  once : matchCount v disk' name = 1
  others : ∀ e ∈ v.list disk, eqIgnoreAsciiCase e.name name = false →
    e ∈ v.list disk' ∧ v.readFile disk' e = v.readFile disk e
  again : ∃ sector offset existing e, directorySlot v disk name = .ok (sector, offset, existing) ∧
    directorySlot v disk' name = .ok (sector, offset, some e) ∧ v.find disk' name = .ok e

private theorem matchCount_eq (v : Volume) (disk : Store) (name : List Char) :
    matchCount v disk name = ((listed v disk).filter fun i => Matching v disk name i).length := by
  rw [matchCount, list_eq, List.filter_map, List.length_map, Function.comp_def]
  apply congrArg List.length
  apply List.filter_congr
  intro i _
  rw [Bool.eq_iff_iff, decide_eq_true_iff]
  rfl

theorem create_ok {v : Volume} {name : List Char} {data : List UInt8} {d d' : Drive}
    {cells : Nat → List Nat} (holds : Holds v d.contents cells)
    (done : create v name data d = (.ok (), d')) :
    Fits name ∧ ∃ i existing, Target v d.contents name i existing ∧
      Created v name data i (fresh v d.contents data) (oldCells v d.contents cells i) d.contents
        d'.contents := by
  by_cases fits : Fits name
  · refine ⟨fits, ?_⟩
    cases found : directorySlot v d.contents name with
    | error crowded =>
        rw [create_crowded fits found] at done
        simp at done
    | ok place =>
        obtain ⟨sector, offset, existing⟩ := place
        obtain ⟨i, target, _, _⟩ := target_of_slot found
        by_cases room : data.isEmpty = false → needed v data ≤ countFree v d.contents
        · obtain ⟨_, created⟩ := create_done holds fits target room
          rw [done] at created
          exact ⟨i, existing, target, created⟩
        · rw [Classical.not_imp] at room
          have failed := (create_short holds.sound fits target room.1 (by omega)).1
          rw [done] at failed
          simp at failed
  · rw [create_misfit fits] at done
    simp at done

section Done

variable {v : Volume} {disk disk' : Store} {cells : Nat → List Nat} {name : List Char}
  {data : List UInt8} {i : Nat} {existing : Option Entry}
  (holds : Holds v disk cells) (fits : Fits name) (target : Target v disk name i existing)
  (created : Created v name data i (fresh v disk data) (oldCells v disk cells i) disk disk')

include holds fits created

theorem matching_new : Matching v disk' name i ↔ Survives name := by
  rw [Matching, (slot_new holds fits created).2.2, survives_iff]

omit holds fits in
theorem matching_other {j : Nat} (other : j ≠ i) :
    Matching v disk' name j ↔ Matching v disk name j := by
  rw [Matching, entryAt, slot_other created other, Matching, entryAt]

include target

omit holds fits created in
theorem listed_of_again {sector offset : Nat} {replaced : Option Entry} {e : Entry}
    (first : directorySlot v disk name = .ok (sector, offset, replaced))
    (second : directorySlot v disk' name = .ok (sector, offset, some e)) :
    i ∈ listed v disk' ∧ Matching v disk' name i := by
  obtain ⟨j, target', sectors, offsets⟩ := target_of_slot second
  rw [target.place] at first
  obtain ⟨rfl, rfl, _⟩ := by simpa using first
  obtain rfl := place_inj sectors offsets
  rcases target'.own with ⟨member, matching, _, _⟩ | ⟨_, none, _, _⟩
  · exact ⟨member, matching⟩
  · simp at none

omit holds fits created in
theorem only_target (few : matchCount v disk name ≤ 1) {j : Nat} (member : j ∈ listed v disk)
    (matching : Matching v disk name j) : j = i := by
  rcases target.own with ⟨own, same, _⟩ | ⟨_, _, _, absent⟩
  · by_contra other
    have both : List.Subperm [i, j] ((listed v disk).filter fun k => Matching v disk name k) := by
      refine List.subperm_of_subset (by simpa using Ne.symm other) fun k member' => ?_
      rcases List.mem_pair.mp member' with rfl | rfl
      · exact List.mem_filter.mpr ⟨own, decide_eq_true same⟩
      · exact List.mem_filter.mpr ⟨member, decide_eq_true matching⟩
    have two := both.length_le
    rw [matchCount_eq] at few
    simp only [List.length_cons, List.length_nil] at two
    omega
  · exact absurd matching (absent j member)

theorem found_of_survives (survives : Survives name) (going : firstByte name ≠ entryFree)
    (few : matchCount v disk name ≤ 1) : FoundAgain v name data disk disk' := by
  have kept := firstByte_of_survives fits.2 survives
  have members := fun j => created_listed (j := j) holds fits target created going kept
  have new : i ∈ listed v disk' := (members i).mpr (.inl rfl)
  have matching : Matching v disk' name i := (matching_new holds fits created).mpr survives
  have only : ∀ j ∈ listed v disk', Matching v disk' name j → j = i := by
    intro j member same
    by_contra other
    have old := ((members j).mp member).resolve_left other
    exact other (only_target target few old ((matching_other created other).mp same))
  have finds := find_unique new matching only
  refine ⟨⟨_, finds, created_reads holds fits target created going kept⟩, ?_, ?_, ?_⟩
  · rw [matchCount_eq]
    have single : (listed v disk').filter (fun j => Matching v disk' name j) = [i] := by
      refine List.perm_singleton.mp ((List.perm_ext_iff_of_nodup
        ((listed_nodup v disk').filter _) (List.nodup_singleton i)).mpr fun j => ?_)
      rw [List.mem_filter, decide_eq_true_iff, List.mem_singleton]
      exact ⟨fun both => only j both.1 both.2, fun same => same ▸ ⟨new, matching⟩⟩
    rw [single, List.length_singleton]
  · intro e member different
    rw [list_eq] at member
    obtain ⟨j, old, rfl⟩ := List.mem_map.mp member
    have other : j ≠ i := by
      rintro rfl
      rcases target.own with ⟨_, same, _⟩ | ⟨vacant, _⟩
      · rw [Matching, different] at same
        exact absurd same (by decide)
      · obtain ⟨_, used, usable⟩ := mem_listed.mp old
        exact vacant.elim (used j (Nat.le_refl _)) usable.1
    obtain ⟨still, same, bytes⟩ := created_others holds fits target created going kept old other
    rw [same] at bytes
    refine ⟨?_, bytes⟩
    rw [list_eq, ← same]
    exact List.mem_map_of_mem still
  · refine ⟨_, _, existing, _, target.place, ?_, finds⟩
    have chosen := directorySlot_chosen v disk' name
    cases outcome : directorySlot v disk' name with
    | error _ =>
        rw [outcome] at chosen
        cases chosen with
        | full _ absent => exact absurd matching (absent i new)
    | ok place =>
        obtain ⟨sector, offset, again⟩ := place
        obtain ⟨j, target', rfl, rfl⟩ := target_of_slot outcome
        rcases target'.own with ⟨member, same, rfl, _⟩ | ⟨_, _, _, absent⟩
        · obtain rfl := only j member same
          rfl
        · exact absurd matching (absent i new)

theorem survives_of_found (found : FoundAgain v name data disk disk') :
    Survives name ∧ firstByte name ≠ entryFree ∧ matchCount v disk name ≤ 1 := by
  obtain ⟨sector, offset, _, e, first, second, _⟩ := found.again
  obtain ⟨member, matching⟩ := listed_of_again target first second
  have survives := (matching_new holds fits created).mp matching
  have going : firstByte name ≠ entryFree := by
    rw [← (slot_new holds fits created).1]
    exact (mem_listed.mp member).2.1 i (Nat.le_refl _)
  refine ⟨survives, going, ?_⟩
  have kept := firstByte_of_survives fits.2 survives
  have more : ∀ j, j ∈ (listed v disk).filter (fun j => Matching v disk name j) →
      j ∈ (listed v disk').filter (fun j => Matching v disk' name j) := by
    intro j both
    obtain ⟨old, same⟩ := List.mem_filter.mp both
    have still := (created_listed holds fits target created going kept).mpr (.inr old)
    refine List.mem_filter.mpr ⟨still, decide_eq_true ?_⟩
    by_cases here : j = i
    · rw [here]
      exact matching
    · exact (matching_other created here).mpr (of_decide_eq_true same)
  have few := (List.subperm_of_subset ((listed_nodup v disk).filter _) more).length_le
  have once := found.once
  rw [matchCount_eq] at once ⊢
  omega

end Done

/-- A name is found again exactly when it does not begin with NUL, the slot written for
it decodes to it, and no second entry had the name already. -/
theorem found_again_iff {v : Volume} {name : List Char} {data : List UInt8} {d d' : Drive}
    (consistent : Consistent v d.contents) (done : create v name data d = (.ok (), d')) :
    FoundAgain v name data d.contents d'.contents ↔
      Survives name ∧ (bytes name).head? ≠ some 0 ∧ matchCount v d.contents name ≤ 1 := by
  obtain ⟨cells, holds⟩ := consistent
  obtain ⟨fits, i, existing, target, created⟩ := create_ok holds done
  rw [Ne, ← firstByte_free fits]
  exact ⟨survives_of_found holds fits target created,
    fun ⟨survives, going, few⟩ => found_of_survives holds fits target created survives going few⟩

theorem created_one (name : List Char) (fits : Fits name) :
    ∃ d d' : Drive, Consistent Image.volume d.contents ∧
      create Image.volume name [1, 2, 3] d = (.ok (), d') ∧
      (Image.volume.list d.contents).length = 1 := by
  obtain ⟨disk, ⟨cells, holds⟩, free, one, slots⟩ := Image.volume_of_one [] (by decide)
  obtain ⟨⟨sector, offset, existing⟩, found⟩ := slots name
  obtain ⟨i, target, _, _⟩ := target_of_slot found
  have few : Mkfs.clustersFor [] = 1 := by decide
  have enough : needed Image.volume [1, 2, 3] ≤ countFree Image.volume disk := by
    have single : needed Image.volume [1, 2, 3] = 1 := by decide
    omega
  have done := (create_done (d := ⟨disk, []⟩) holds fits target fun _ => enough).1
  rcases outcome : create Image.volume name [1, 2, 3] ⟨disk, []⟩ with ⟨r, d'⟩
  rw [outcome] at done
  obtain rfl : r = _ := done
  exact ⟨⟨disk, []⟩, d', ⟨cells, holds⟩, outcome, one⟩

theorem found_again_iff_notes : ∃ d d' : Drive,
    create Image.volume "NOTES.TXT".toList [1, 2, 3] d = (.ok (), d') ∧
      FoundAgain Image.volume "NOTES.TXT".toList [1, 2, 3] d.contents d'.contents := by
  obtain ⟨d, d', consistent, done, one⟩ := created_one "NOTES.TXT".toList (by decide)
  have few : matchCount Image.volume d.contents "NOTES.TXT".toList ≤ 1 := by
    rw [← one]
    exact List.length_filter_le _ _
  exact ⟨d, d', done, (found_again_iff consistent done).mpr ⟨by decide +kernel, by decide, few⟩⟩

/-- A name that ends in a dot is accepted, and written without it. -/
theorem trailing_dot_lost : ∃ v d d' name data, Consistent v d.contents ∧
    create v name data d = (.ok (), d') ∧ ¬ FoundAgain v name data d.contents d'.contents := by
  obtain ⟨d, d', ⟨cells, holds⟩, done, _⟩ := created_one "A.".toList (by decide)
  refine ⟨Image.volume, d, d', "A.".toList, [1, 2, 3], ⟨cells, holds⟩, done, fun found => ?_⟩
  obtain ⟨fits, i, existing, target, created⟩ := create_ok holds done
  have lost : ¬ Survives "A.".toList := by decide +kernel
  exact lost (survives_of_found holds fits target created found).1

end FiveAM.Fat.Finding
