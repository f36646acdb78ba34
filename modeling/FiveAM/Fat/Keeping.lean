/- GID: FiveAM/Fat/Keeping
   source: kernel/src/fat.rs
   digest: A create that succeeds keeps the volume consistent and the other files as they were. -/

import FiveAM.Fat.Creating

set_option autoImplicit false
set_option relaxedAutoImplicit false

namespace FiveAM.Fat.Keeping

open FiveAM.Lib.ByteRegions FiveAM.Lib.LinkedTable
open FiveAM.Fat.Reading FiveAM.Fat.Writing FiveAM.Fat.Layout FiveAM.Fat.Tables FiveAM.Fat.Directory
open FiveAM.Fat.Names FiveAM.Fat.Files FiveAM.Fat.Creating

theorem fresh_head {v : Volume} (sound : Sound v) (disk : Store) (data : List UInt8) :
    (fresh v disk data).headD 0 < 2 ^ 16 := by
  cases cells : fresh v disk data with
  | nil => decide
  | cons c rest => exact inside_small sound (mem_fresh (by rw [cells]; simp)).1

theorem fresh_length {v : Volume} (sound : Sound v) (disk : Store) (data : List UInt8) :
    (fresh v disk data).length ≤ v.clusters :=
  chain_length sound (claim_chain (f := fun _ => 0) (fresh_nodup v disk data) fun _ member =>
    (mem_fresh member).1)

section Done

variable {v : Volume} {disk disk' : Store} {cells : Nat → List Nat} {name : List Char}
  {data : List UInt8} {i : Nat} {existing : Option Entry}
  (holds : Holds v disk cells) (fits : Fits name) (target : Target v disk name i existing)
  (created : Created v name data i (fresh v disk data) (oldCells v disk cells i) disk disk')

include holds created

omit holds in
theorem data_length : data.length ≤ (fresh v disk data).length * v.clusterBytes := by
  have whole := congrArg List.length created.holds
  have all : ∀ c ∈ fresh v disk data, Inside v c := fun c member => (mem_fresh member).1
  rw [content, List.length_take, cells_length all] at whole
  omega

theorem data_small : data.length < 2 ^ 32 := by
  have sound := holds.sound
  have few := fresh_length sound disk data
  have bytes : v.clusterBytes ≤ 65536 := by
    rw [sound.clusterBytes_eq]
    exact Nat.mul_le_mul (Nat.le_refl 512) sound.small
  have most := Nat.mul_le_mul (Nat.le_trans few (Nat.le_of_lt_succ sound.few)) bytes
  have long := data_length created
  omega

omit holds in
theorem slot_other {j : Nat} (other : j ≠ i) : slotOf v disk' j = slotOf v disk j := by
  unfold slotOf
  rw [created.slots, Function.update_of_ne other]

include fits

theorem slot_new : (slotOf v disk' i).first = firstByte name ∧
    (slotOf v disk' i).attributes = 0x20 ∧
    entryAt v disk' i = ⟨stored name, data.length, (fresh v disk data).headD 0⟩ := by
  refine written_slot fits.2 (fresh_head holds.sound disk data) (data_small holds created) ?_
  unfold slotOf
  rw [created.slots, Function.update_self]

omit fits created holds in
theorem before_target (target : Target v disk name i existing) :
    ∀ j < i, (slotOf v disk j).first ≠ entryFree := by
  intro j below free
  rcases target.own with ⟨member, _⟩ | ⟨_, _, first, _⟩
  · exact (mem_listed.mp member).2.1 j (Nat.le_of_lt below) free
  · exact first j below (.inl free)

theorem created_cut (ends : firstByte name = entryFree) {j : Nat} :
    j ∈ listed v disk' ↔ j ∈ listed v disk ∧ j < i := by
  have first := (slot_new holds fits created).1
  rw [mem_listed, mem_listed]
  constructor
  · rintro ⟨inside, before, usable⟩
    have below : j < i := by
      by_contra past
      exact before i (by omega) (first.trans ends)
    rw [slot_other created (Nat.ne_of_lt below)] at usable
    refine ⟨⟨inside, fun k low => ?_, usable⟩, below⟩
    rw [← slot_other created (by omega : k ≠ i)]
    exact before k low
  · rintro ⟨⟨inside, before, usable⟩, below⟩
    refine ⟨inside, fun k low => ?_, ?_⟩
    · rw [slot_other created (by omega)]
      exact before k low
    · rwa [slot_other created (Nat.ne_of_lt below)]

variable (going : firstByte name ≠ entryFree) (kept : firstByte name ≠ entryDeleted)

include target going kept

theorem created_listed {j : Nat} : j ∈ listed v disk' ↔ j = i ∨ j ∈ listed v disk := by
  obtain ⟨first, attributes, _⟩ := slot_new holds fits created
  have usable : Usable (slotOf v disk' i) := by
    refine ⟨by rwa [first], ?_, ?_⟩
    · rw [attributes]
      decide
    · rw [attributes]
      decide
  have before := before_target target
  by_cases here : j = i
  · subst here
    refine ⟨fun _ => .inl rfl, fun _ => mem_listed.mpr ⟨target.inside, fun k low => ?_, usable⟩⟩
    by_cases same : k = j
    · rw [same, first]
      exact going
    · rw [slot_other created same]
      exact before k (by omega)
  · rw [or_iff_right here]
    exact holds.listed_other before (fun k other => slot_other created other)
      (by rwa [first]) here

omit fits going kept target created in
theorem other_cells {j : Nat} (member : j ∈ listed v disk) (other : j ≠ i) :
    ∀ c ∈ cells j, c ∉ fresh v disk data ∧ c ∉ oldCells v disk cells i := by
  intro c used
  refine ⟨fun new => (holds.cells_used member c used).2 (mem_fresh new).2, fun old => ?_⟩
  unfold oldCells at old
  split_ifs at old with own
  · exact holds.apart j member i own other c used old
  · simp at old

omit fits going kept target created in
theorem fresh_not_old : ∀ c ∈ fresh v disk data, c ∉ oldCells v disk cells i := by
  intro c new old
  unfold oldCells at old
  split_ifs at old with own
  · exact (holds.cells_used own c old).2 (mem_fresh new).2
  · simp at old

omit fits going kept target in
theorem created_table (c : Nat) : table v disk' 0 c =
    if c ∈ oldCells v disk cells i then 0 else claim (fresh v disk data) (table v disk 0) c := by
  rw [created.entries 0 holds.sound.copies, setAll]

theorem created_chains {j : Nat} (member : j ∈ listed v disk') :
    ((entryAt v disk' j).firstCluster < 2 ∧
        Function.update cells i (fresh v disk data) j = []) ∨
      FileChain v (table v disk' 0) (entryAt v disk' j).firstCluster
        (Function.update cells i (fresh v disk data) j) := by
  by_cases here : j = i
  · subst here
    rw [(slot_new holds fits created).2.2, Function.update_self]
    have all : ∀ c ∈ fresh v disk data, Inside v c := fun c new => (mem_fresh new).1
    cases list : fresh v disk data with
    | nil => exact .inl ⟨Nat.zero_lt_two, rfl⟩
    | cons x rest =>
        refine .inr ?_
        have chain := claim_chain (f := table v disk 0) (fresh_nodup v disk data) all
        rw [list] at chain
        refine chain.congr fun c member => ?_
        rw [← list] at member
        rw [created_table holds created, if_neg (fresh_not_old holds c member), list]
  · have old := ((created_listed holds fits target created going kept).mp member).resolve_left here
    rw [Function.update_of_ne here, entryAt, slot_other created here]
    rcases holds.chains j old with none | chain
    · exact .inl none
    · refine .inr (chain.congr fun c used => ?_)
      obtain ⟨unclaimed, unreleased⟩ := other_cells holds old here c used
      rw [created_table holds created, if_neg unreleased, claim_other unclaimed]

theorem created_exact {c : Nat} (inside : Inside v c) : table v disk' 0 c ≠ 0 ↔
    ∃ j ∈ listed v disk', c ∈ Function.update cells i (fresh v disk data) j := by
  have members := fun j => created_listed (j := j) holds fits target created going kept
  rw [created_table holds created]
  constructor
  · intro used
    by_cases old : c ∈ oldCells v disk cells i
    · rw [if_pos old] at used
      exact absurd rfl used
    · rw [if_neg old] at used
      by_cases new : c ∈ fresh v disk data
      · exact ⟨i, (members i).mpr (.inl rfl), by rwa [Function.update_self]⟩
      · rw [claim_other new] at used
        obtain ⟨j, member, held⟩ := (holds.exact c inside).mp used
        have other : j ≠ i := by
          rintro rfl
          rw [oldCells, if_pos member] at old
          exact old held
        exact ⟨j, (members j).mpr (.inr member), by rwa [Function.update_of_ne other]⟩
  · rintro ⟨j, member, held⟩
    by_cases here : j = i
    · subst here
      rw [Function.update_self] at held
      rw [if_neg (fresh_not_old holds c held)]
      exact claim_used (fun x new => (mem_fresh new).1) held
    · have old := ((members j).mp member).resolve_left here
      rw [Function.update_of_ne here] at held
      obtain ⟨unclaimed, unreleased⟩ := other_cells holds old here c held
      rw [if_neg unreleased, claim_other unclaimed]
      exact (holds.cells_used old c held).2

theorem created_holds : Holds v disk' (Function.update cells i (fresh v disk data)) where
  mounted := by rw [mount_congr created.boots, holds.mounted]
  roomy := holds.roomy
  blank a j below inside free := by
    have used : a ≠ i := by
      rintro rfl
      rw [(slot_new holds fits created).1] at free
      exact going free
    rw [slot_other created used] at free
    have other : j ≠ i := by
      rintro rfl
      exact before_target target a below free
    rw [created.slots, Function.update_of_ne other]
    exact holds.blank a j below inside free
  copies copy bound := by
    rw [created.entries copy bound, created.entries 0 holds.sound.copies, holds.copies copy bound]
  chains j member := created_chains holds fits target created going kept member
  long j member := by
    by_cases here : j = i
    · subst here
      rw [(slot_new holds fits created).2.2, Function.update_self]
      exact data_length created
    · have old := ((created_listed holds fits target created going kept).mp member).resolve_left here
      rw [Function.update_of_ne here, entryAt, slot_other created here]
      exact holds.long j old
  apart a first b second different c member other := by
    have members := fun j => created_listed (j := j) holds fits target created going kept
    by_cases here : a = i
    · subst here
      have old := ((members b).mp second).resolve_left (Ne.symm different)
      rw [Function.update_self] at member
      rw [Function.update_of_ne (Ne.symm different)] at other
      exact (other_cells holds old (Ne.symm different) c other).1 member
    · have old := ((members a).mp first).resolve_left here
      rw [Function.update_of_ne here] at member
      by_cases there : b = i
      · subst there
        rw [Function.update_self] at other
        exact (other_cells holds old here c member).1 other
      · have old' := ((members b).mp second).resolve_left there
        rw [Function.update_of_ne there] at other
        exact holds.apart a old b old' different c member other
  exact c inside := created_exact holds fits target created going kept inside

theorem created_reads : v.readFile disk' (entryAt v disk' i) = .ok data := by
  have member := (created_listed holds fits target created going kept).mpr (.inl rfl)
  rw [(created_holds holds fits target created going kept).readFile member, Function.update_self,
    (slot_new holds fits created).2.2, created.holds]

theorem created_others {j : Nat} (member : j ∈ listed v disk) (other : j ≠ i) :
    j ∈ listed v disk' ∧ entryAt v disk' j = entryAt v disk j ∧
      v.readFile disk' (entryAt v disk' j) = v.readFile disk (entryAt v disk j) := by
  have listed := (created_listed holds fits target created going kept).mpr (.inr member)
  have same : entryAt v disk' j = entryAt v disk j := by
    rw [entryAt, slot_other created other, entryAt]
  refine ⟨listed, same, ?_⟩
  rw [(created_holds holds fits target created going kept).readFile listed,
    Function.update_of_ne other, holds.readFile member, same, content_congr]
  exact fun c used => created.kept c (other_cells holds member other c used).1

end Done

end FiveAM.Fat.Keeping
