/- GID: FiveAM/Fat/Removing
   source: kernel/src/fat.rs
   digest: A remove that succeeds keeps the volume consistent and the other files as they were. -/

import FiveAM.Fat.Creating

set_option autoImplicit false
set_option relaxedAutoImplicit false

namespace FiveAM.Fat.Removing

open FiveAM.Lib.ByteRegions FiveAM.Lib.LinkedTable
open FiveAM.Fat.Reading FiveAM.Fat.Writing FiveAM.Fat.Layout FiveAM.Fat.Tables FiveAM.Fat.Directory
open FiveAM.Fat.Files FiveAM.Fat.Creating

/-- What a remove that succeeds has done: slot `i` is marked dead and its clusters, the
`old` ones, are released. -/
structure Removed (v : Volume) (i : Nat) (old : List Nat) (disk disk' : Store) : Prop where
  entries : ∀ copy < v.fatCount, table v disk' copy = setAll (table v disk copy) old 0
  data : clusterData v disk' = clusterData v disk
  slots : slotBytes v disk' =
    Function.update (slotBytes v disk) i (entryDeleted :: (slotBytes v disk i).drop 1)
  boots : boot disk' = boot disk

theorem remove_absent {v : Volume} {name : List Char} {d : Drive} {i : Nat}
    (target : Target v d.contents name i none) :
    remove v name d = (.error "no such file", d) := by
  rw [remove, target.place]

/-- The slot with its first byte marked dead, the disk on which the chain is released. -/
def marked (v : Volume) (d : Drive) (i : Nat) : Drive :=
  d.write (slotOf v d.contents i).sector
    (splice (Reading.read d.contents (slotOf v d.contents i).sector 1)
      (slotOf v d.contents i).offset [entryDeleted])

theorem remove_found {v : Volume} {name : List Char} {d : Drive} {i : Nat} {entry : Entry}
    (target : Target v d.contents name i (some entry)) :
    remove v name d = releaseOld v (some entry) (marked v d i) := by
  rw [remove, target.place]
  rfl

theorem marked_tables {v : Volume} (sound : Sound v) {d : Drive} {i : Nat}
    (inside : i < slotCount v) :
    table v (marked v d i).contents = table v d.contents ∧
      clusterData v (marked v d i).contents = clusterData v d.contents ∧
      boot (marked v d i).contents = boot d.contents ∧
      slotBytes v (marked v d i).contents =
        Function.update (slotBytes v d.contents) i
          (entryDeleted :: (slotBytes v d.contents i).drop 1) := by
  have put : (marked v d i).contents = poke d.contents (slotAt v i) [entryDeleted] :=
    write_slot (by decide)
  have short : [entryDeleted].length ≤ directoryEntrySize := by decide
  obtain ⟨entries, data, boots⟩ := poke_slot sound d.contents inside short
  rw [put]
  exact ⟨entries, data, boots, slotBytes_poke d.contents inside (by decide)⟩

theorem remove_done {v : Volume} {name : List Char} {d : Drive} {cells : Nat → List Nat}
    (holds : Holds v d.contents cells) {i : Nat} {entry : Entry}
    (target : Target v d.contents name i (some entry)) :
    (remove v name d).1 = .ok () ∧
      Removed v i (cells i) d.contents (remove v name d).2.contents := by
  rcases target.own with ⟨member, _, same, _⟩ | ⟨_, none, _⟩
  · obtain rfl := Option.some.inj same
    obtain ⟨tables, data, boots, slots⟩ := marked_tables holds.sound target.inside
    obtain ⟨result, released⟩ := release_listed holds member (d := marked v d i) fun c _ => by
      rw [tables]
    rw [remove_found target]
    refine ⟨result, fun copy bound => ?_, ?_, ?_, ?_⟩
    · rw [released.entries copy bound, tables]
    · rw [released.data, data]
    · rw [released.slots, slots]
    · rw [released.boots, boots]
  · simp at none

theorem remove_ok {v : Volume} {name : List Char} {d d' : Drive} {cells : Nat → List Nat}
    (holds : Holds v d.contents cells) (done : remove v name d = (.ok (), d')) :
    ∃ i entry, Target v d.contents name i (some entry) ∧
      Removed v i (cells i) d.contents d'.contents := by
  cases found : directorySlot v d.contents name with
  | error crowded =>
      rw [remove, found] at done
      simp at done
  | ok place =>
      obtain ⟨sector, offset, existing⟩ := place
      obtain ⟨i, target, _, _⟩ := target_of_slot found
      cases existing with
      | none =>
          rw [remove_absent target] at done
          simp at done
      | some entry =>
          have removed := (remove_done holds target).2
          rw [done] at removed
          exact ⟨i, entry, target, removed⟩

section Done

variable {v : Volume} {disk disk' : Store} {cells : Nat → List Nat} {i : Nat}
  (holds : Holds v disk cells) (member : i ∈ listed v disk)
  (removed : Removed v i (cells i) disk disk')

include removed

theorem slot_other {j : Nat} (other : j ≠ i) : slotOf v disk' j = slotOf v disk j := by
  unfold slotOf
  rw [removed.slots, Function.update_of_ne other]

theorem slot_dead : (slotOf v disk' i).first = entryDeleted := by
  rw [Slot.first, slotOf, removed.slots, Function.update_self]
  rfl

include holds

theorem removed_table (c : Nat) :
    table v disk' 0 c = if c ∈ cells i then 0 else table v disk 0 c := by
  rw [removed.entries 0 holds.sound.copies, setAll]

include member

theorem removed_listed {j : Nat} : j ∈ listed v disk' ↔ j ∈ listed v disk ∧ j ≠ i := by
  have dead := slot_dead removed
  by_cases here : j = i
  · subst here
    exact ⟨fun again => absurd dead (mem_listed.mp again).2.2.1, fun both => absurd rfl both.2⟩
  · rw [and_iff_left here]
    refine holds.listed_other (fun k below => ?_) (fun k other => slot_other removed other) ?_ here
    · exact (mem_listed.mp member).2.1 k (Nat.le_of_lt below)
    · rw [dead]
      decide

theorem removed_holds : Holds v disk' cells where
  mounted := by rw [mount_congr removed.boots, holds.mounted]
  roomy := holds.roomy
  blank a j below inside free := by
    have used : a ≠ i := by
      rintro rfl
      rw [slot_dead removed] at free
      exact absurd free (by decide)
    have later : j ≠ i := by
      rintro rfl
      rw [slot_other removed used] at free
      exact (mem_listed.mp member).2.1 a (Nat.le_of_lt below) free
    rw [slot_other removed used] at free
    rw [removed.slots, Function.update_of_ne later]
    exact holds.blank a j below inside free
  copies copy bound := by
    rw [removed.entries copy bound, removed.entries 0 holds.sound.copies, holds.copies copy bound]
  chains j again := by
    obtain ⟨old, other⟩ := (removed_listed holds member removed).mp again
    rw [entryAt, slot_other removed other]
    rcases holds.chains j old with none | chain
    · exact .inl none
    · refine .inr (chain.congr fun c used => ?_)
      rw [removed_table holds removed, if_neg (holds.apart j old i member other c used)]
  long j again := by
    obtain ⟨old, other⟩ := (removed_listed holds member removed).mp again
    rw [entryAt, slot_other removed other]
    exact holds.long j old
  apart a first b second := holds.apart a ((removed_listed holds member removed).mp first).1 b
    ((removed_listed holds member removed).mp second).1
  exact c inside := by
    rw [removed_table holds removed]
    constructor
    · intro used
      by_cases old : c ∈ cells i
      · rw [if_pos old] at used
        exact absurd rfl used
      · rw [if_neg old] at used
        obtain ⟨j, file, held⟩ := (holds.exact c inside).mp used
        refine ⟨j, (removed_listed holds member removed).mpr ⟨file, ?_⟩, held⟩
        rintro rfl
        exact old held
    · rintro ⟨j, again, held⟩
      obtain ⟨file, other⟩ := (removed_listed holds member removed).mp again
      rw [if_neg (holds.apart j file i member other c held)]
      exact (holds.cells_used file c held).2

theorem removed_others {j : Nat} (file : j ∈ listed v disk) (other : j ≠ i) :
    j ∈ listed v disk' ∧ entryAt v disk' j = entryAt v disk j ∧
      v.readFile disk' (entryAt v disk' j) = v.readFile disk (entryAt v disk j) := by
  have still := (removed_listed holds member removed).mpr ⟨file, other⟩
  have same : entryAt v disk' j = entryAt v disk j := by
    rw [entryAt, slot_other removed other, entryAt]
  refine ⟨still, same, ?_⟩
  rw [(removed_holds holds member removed).readFile still, holds.readFile file, same,
    content_congr]
  exact fun c _ => by rw [removed.data]

end Done

end FiveAM.Fat.Removing
