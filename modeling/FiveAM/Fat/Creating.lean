/- GID: FiveAM/Fat/Creating
   source: kernel/src/fat.rs
   digest: What a create that succeeds, and one that fails, leaves on a consistent volume. -/

import FiveAM.Fat.Files

set_option autoImplicit false
set_option relaxedAutoImplicit false

namespace FiveAM.Fat.Creating

open FiveAM.Lib.ByteRegions FiveAM.Lib.LinkedTable
open FiveAM.Fat.Reading FiveAM.Fat.Writing FiveAM.Fat.Layout FiveAM.Fat.Tables FiveAM.Fat.Directory
open FiveAM.Fat.Names FiveAM.Fat.Files

/-- How many clusters `write_chain` takes. -/
def needed (v : Volume) (data : List UInt8) : Nat := max (divCeil data.length v.clusterBytes) 1

theorem needed_enough {v : Volume} (sound : Sound v) (data : List UInt8) :
    data.length ≤ needed v data * v.clusterBytes := by
  have pos := sound.clusterBytes_pos
  have whole := Nat.div_add_mod data.length v.clusterBytes
  have small := Nat.mod_lt data.length pos
  have most : divCeil data.length v.clusterBytes * v.clusterBytes ≤
      needed v data * v.clusterBytes := Nat.mul_le_mul_right _ (Nat.le_max_left _ _)
  refine Nat.le_trans ?_ most
  unfold divCeil
  rw [Nat.add_mul, Nat.mul_comm (data.length / v.clusterBytes)]
  split_ifs with even
  · omega
  · omega

def fresh (v : Volume) (disk : Store) (data : List UInt8) : List Nat :=
  if data.isEmpty then [] else (freeCells v (table v disk 0) 2).take (needed v data)

theorem mem_fresh {v : Volume} {disk : Store} {data : List UInt8} {c : Nat}
    (member : c ∈ fresh v disk data) : Inside v c ∧ table v disk 0 c = 0 := by
  unfold fresh at member
  split_ifs at member with empty
  · simp at member
  · have free := mem_freeCells.mp (List.mem_of_mem_take member)
    exact ⟨free.1, free.2.2⟩

theorem fresh_nodup (v : Volume) (disk : Store) (data : List UInt8) :
    (fresh v disk data).Nodup := by
  unfold fresh
  split_ifs
  · exact List.nodup_nil
  · exact (List.take_sublist _ _).nodup (freeCells_nodup _ _ _)

/-- Every copy of the table after new clusters have been claimed and linked. -/
def claim (cells : List Nat) (f : Nat → Nat) : Nat → Nat :=
  linkAll (setAll f cells 0xFFFF) cells 0xFFFF

theorem claim_other {cells : List Nat} {f : Nat → Nat} {c : Nat} (out : c ∉ cells) :
    claim cells f c = f c := by
  rw [claim, linkAll_other out, setAll_other out]

theorem claim_chain {v : Volume} {cells : List Nat} {f : Nat → Nat} (distinct : cells.Nodup)
    (all : ∀ c ∈ cells, Inside v c) : FileChain v (claim cells f) (cells.headD 0xFFFF) cells :=
  chain_linkAll distinct all (by decide)

theorem claim_used {v : Volume} {cells : List Nat} {f : Nat → Nat} {c : Nat}
    (all : ∀ c ∈ cells, Inside v c) (member : c ∈ cells) : claim cells f c ≠ 0 := by
  have linked : claim cells f c = 0xFFFF ∨ claim cells f c ∈ cells := linkAll_mem member
  rcases linked with last | link
  · rw [last]
    decide
  · have inside := (all _ link).1
    omega

/-- The data is in the new clusters, which are linked; nothing else has changed. -/
structure Stored (v : Volume) (data : List UInt8) (cells : List Nat) (disk disk' : Store) :
    Prop where
  entries : ∀ copy < v.fatCount, table v disk' copy = claim cells (table v disk copy)
  holds : content v disk' cells data.length = data
  kept : ∀ c, c ∉ cells → clusterData v disk' c = clusterData v disk c
  slots : slotBytes v disk' = slotBytes v disk
  boots : boot disk' = boot disk

section Chains

variable {v : Volume} (sound : Sound v)

include sound

theorem writeChain_stored {data : List UInt8} {d : Drive} (some : data.isEmpty = false)
    (enough : needed v data ≤ countFree v d.contents) :
    (writeChain v data d).1 = .ok ((fresh v d.contents data).headD 0) ∧
      Stored v data (fresh v d.contents data) d.contents (writeChain v data d).2.contents := by
  rw [countFree_eq sound] at enough
  have taken : fresh v d.contents data =
      (freeCells v (table v d.contents 0) 2).take (needed v data) := by
    rw [fresh, some]
    rfl
  obtain ⟨result, claimed⟩ := reserve_tabled sound (needed v data) 2 d
  rw [if_pos enough, ← taken] at result
  rw [← taken] at claimed
  have length : (fresh v d.contents data).length = needed v data := by
    rw [taken, List.length_take]
    omega
  have all : ∀ c ∈ fresh v d.contents data, Inside v c := fun c member => (mem_fresh member).1
  rcases outcome : reserve v (needed v data) 2 d with ⟨r, d₁⟩
  rw [outcome] at result claimed
  obtain rfl : r = _ := result
  obtain ⟨chunks, kept, entries, slots, boots⟩ :=
    fill_data sound data _ (fresh_nodup v d.contents data) all 0 d₁
  have linked := link_tabled sound _ all (fill v data (fresh v d.contents data) 0 d₁)
  have outcome' : reserve v (max (divCeil data.length v.clusterBytes) 1) 2 d =
      (.ok (fresh v d.contents data), d₁) := outcome
  rw [writeChain]
  simp only [outcome']
  refine ⟨trivial, ?_, ?_, ?_, ?_, ?_⟩
  · intro copy bound
    rw [linked.entries copy bound, entries, claimed.entries copy bound, claim]
  · have whole := needed_enough sound data
    rw [content, linked.data, List.flatMap_def, chunks, chunks_whole (by rw [length]; exact whole)]
  · intro c out
    rw [linked.data, kept c out, claimed.data]
  · rw [linked.slots, slots, claimed.slots]
  · rw [linked.boots, boots, claimed.boots]

theorem writeChain_short {data : List UInt8} {d : Drive}
    (short : countFree v d.contents < needed v data) :
    (writeChain v data d).1 = .error "the volume is full" ∧
      Tabled v (fun f => setAll f (freeCells v (table v d.contents 0) 2) 0xFFFF) d.contents
        (writeChain v data d).2.contents := by
  rw [countFree_eq sound] at short
  obtain ⟨result, claimed⟩ := reserve_tabled sound (needed v data) 2 d
  rw [if_neg (by omega)] at result
  rw [List.take_of_length_le (by omega)] at claimed
  rcases outcome : reserve v (needed v data) 2 d with ⟨r, d₁⟩
  rw [outcome] at result claimed
  obtain rfl : r = _ := result
  have outcome' : reserve v (max (divCeil data.length v.clusterBytes) 1) 2 d =
      (.error "the volume is full", d₁) := outcome
  rw [writeChain]
  simp only [outcome']
  exact ⟨trivial, claimed⟩

end Chains

/-- The slot of `name`, or the first unused one, as `directory_slot` gives it. -/
structure Target (v : Volume) (disk : Store) (name : List Char) (i : Nat)
    (existing : Option Entry) : Prop where
  inside : i < slotCount v
  place : directorySlot v disk name =
    .ok ((slotOf v disk i).sector, (slotOf v disk i).offset, existing)
  own : (i ∈ listed v disk ∧ Matching v disk name i ∧ existing = some (entryAt v disk i) ∧
      ∀ j ∈ listed v disk, j < i → ¬ Matching v disk name j) ∨
    (Vacant (slotOf v disk i) ∧ existing = none ∧ (∀ j < i, ¬ Vacant (slotOf v disk j)) ∧
      ∀ j ∈ listed v disk, ¬ Matching v disk name j)

theorem target_of_slot {v : Volume} {disk : Store} {name : List Char} {sector offset : Nat}
    {existing : Option Entry} (found : directorySlot v disk name = .ok (sector, offset, existing)) :
    ∃ i, Target v disk name i existing ∧ sector = (slotOf v disk i).sector ∧
      offset = (slotOf v disk i).offset := by
  have chosen := directorySlot_chosen v disk name
  rw [found] at chosen
  generalize outcome : Except.ok (sector, offset, existing) = r at chosen
  cases chosen with
  | found i member matching first =>
      obtain ⟨rfl, rfl, rfl⟩ := by simpa using outcome
      exact ⟨i, ⟨(mem_listed.mp member).1, found, .inl ⟨member, matching, rfl, first⟩⟩, rfl, rfl⟩
  | unused i inside vacant first absent =>
      obtain ⟨rfl, rfl, rfl⟩ := by simpa using outcome
      exact ⟨i, ⟨inside, found, .inr ⟨vacant, rfl, first, absent⟩⟩, rfl, rfl⟩
  | full => simp at outcome

theorem Target.named {v : Volume} {disk : Store} {name : List Char} {i : Nat}
    {existing : Option Entry} (target : Target v disk name i existing)
    (member : i ∈ listed v disk) : Matching v disk name i := by
  rcases target.own with ⟨_, same, _⟩ | ⟨vacant, _⟩
  · exact same
  · obtain ⟨_, before, usable⟩ := mem_listed.mp member
    exact (vacant.elim (before i (Nat.le_refl _)) usable.1).elim

/-- What a create that succeeds has done: its data is in `fresh` clusters, the `old`
ones are released, and slot `i` is the new entry. -/
structure Created (v : Volume) (name : List Char) (data : List UInt8) (i : Nat)
    (cells old : List Nat) (disk disk' : Store) : Prop where
  entries : ∀ copy < v.fatCount,
    table v disk' copy = setAll (claim cells (table v disk copy)) old 0
  holds : content v disk' cells data.length = data
  kept : ∀ c, c ∉ cells → clusterData v disk' c = clusterData v disk c
  slots : slotBytes v disk' = Function.update (slotBytes v disk) i
    (directoryEntry (split name).1 (split name).2 (cells.headD 0) data.length)
  boots : boot disk' = boot disk

/-- The clusters of the file in slot `i`, if there is one. -/
def oldCells (v : Volume) (disk : Store) (cells : Nat → List Nat) (i : Nat) : List Nat :=
  if i ∈ listed v disk then cells i else []

theorem Stored.empty (v : Volume) (disk : Store) : Stored v [] [] disk disk where
  entries _ _ := by
    funext c
    rw [claim_other (by simp)]
  holds := rfl
  kept _ _ := rfl
  slots := rfl
  boots := rfl

theorem release_listed {v : Volume} {disk : Store} {cells : Nat → List Nat}
    (holds : Holds v disk cells) {i : Nat} (member : i ∈ listed v disk) {d : Drive}
    (same : ∀ c ∈ cells i, table v d.contents 0 c = table v disk 0 c) :
    (releaseOld v (some (entryAt v disk i)) d).1 = .ok () ∧
      Tabled v (fun f => setAll f (cells i) 0) d.contents
        (releaseOld v (some (entryAt v disk i)) d).2.contents := by
  have sound := holds.sound
  rw [releaseOld]
  rcases holds.chains i member with ⟨small, none⟩ | chain
  · rw [if_neg (by omega), none]
    exact ⟨rfl, Tabled.rfl.as fun f => by simp⟩
  · rw [if_pos chain.first_large, freeChain]
    exact freeFrom_tabled sound (chain.congr same) (Nat.le_succ_of_le (chain_length sound chain))

theorem releaseOld_tabled {v : Volume} {d₀ d : Drive} {cells : Nat → List Nat}
    (holds : Holds v d₀.contents cells) {name : List Char} {i : Nat} {existing : Option Entry}
    (target : Target v d₀.contents name i existing) {data : List UInt8} {new : List Nat}
    (stored : Stored v data new d₀.contents d.contents)
    (unused : ∀ c ∈ new, table v d₀.contents 0 c = 0) :
    (releaseOld v existing d).1 = .ok () ∧
      Tabled v (fun f => setAll f (oldCells v d₀.contents cells i) 0) d.contents
        (releaseOld v existing d).2.contents := by
  rcases target.own with ⟨member, _, rfl, _⟩ | ⟨vacant, rfl, _, _⟩
  · rw [oldCells, if_pos member]
    refine release_listed holds member fun c used => ?_
    rw [stored.entries 0 holds.sound.copies, claim_other]
    exact fun new => (holds.cells_used member c used).2 (unused c new)
  · have absent : i ∉ listed v d₀.contents := fun member => by
      obtain ⟨_, before, usable⟩ := mem_listed.mp member
      exact vacant.elim (before i (Nat.le_refl _)) usable.1
    rw [oldCells, if_neg absent]
    exact ⟨rfl, Tabled.rfl.as fun f => by simp⟩

theorem create_misfit {v : Volume} {name : List Char} {data : List UInt8} {d : Drive}
    (misfit : ¬ Fits name) : create v name data d = (.error "name must fit 8.3", d) := by
  have refused : (split name).1.isEmpty ∨ 8 < (bytes (split name).1).length ∨
      3 < (bytes (split name).2).length := by
    unfold Fits Short at misfit
    rw [List.isEmpty_iff]
    by_contra fits
    exact misfit (by simpa [not_or] using fits)
  exact if_pos refused

theorem create_fits {v : Volume} {name : List Char} {data : List UInt8} {d : Drive}
    (fits : Fits name) :
    create v name data d =
      match directorySlot v d.contents name with
      | .error error => (.error error, d)
      | .ok (sector, offset, existing) =>
          match (if data.isEmpty then (.ok 0, d) else writeChain v data d) with
          | (.error error, d) => (.error error, d)
          | (.ok firstCluster, d) =>
              match releaseOld v existing d with
              | (.error error, d) => (.error error, d)
              | (.ok (), d) =>
                  (.ok (), d.write sector (splice (Reading.read d.contents sector 1) offset
                    (directoryEntry (split name).1 (split name).2 firstCluster data.length))) := by
  have accepted : ¬ ((split name).1.isEmpty ∨ 8 < (bytes (split name).1).length ∨
      3 < (bytes (split name).2).length) := by
    obtain ⟨some, short, shorter⟩ := fits
    rw [List.isEmpty_iff, not_or, not_or]
    exact ⟨some, by omega, by omega⟩
  exact if_neg accepted

theorem create_crowded {v : Volume} {name : List Char} {data : List UInt8} {d : Drive}
    (fits : Fits name) {error : String} (crowded : directorySlot v d.contents name = .error error) :
    create v name data d = (.error error, d) := by
  rw [create_fits fits, crowded]

theorem create_short {v : Volume} (sound : Sound v) {name : List Char} {data : List UInt8}
    {d : Drive} (fits : Fits name) {i : Nat} {existing : Option Entry}
    (target : Target v d.contents name i existing) (some : data.isEmpty = false)
    (short : countFree v d.contents < needed v data) :
    (create v name data d).1 = .error "the volume is full" ∧
      Tabled v (fun f => setAll f (freeCells v (table v d.contents 0) 2) 0xFFFF) d.contents
        (create v name data d).2.contents := by
  obtain ⟨result, claimed⟩ := writeChain_short sound short
  rcases outcome : writeChain v data d with ⟨r, d₁⟩
  rw [outcome] at result claimed
  obtain rfl : r = _ := result
  rw [create_fits fits, target.place, some]
  simp only [Bool.false_eq_true, if_false, outcome]
  exact ⟨trivial, claimed⟩

theorem create_done {v : Volume} {name : List Char} {data : List UInt8} {d : Drive}
    {cells : Nat → List Nat} (holds : Holds v d.contents cells) (fits : Fits name) {i : Nat}
    {existing : Option Entry} (target : Target v d.contents name i existing)
    (enough : data.isEmpty = false → needed v data ≤ countFree v d.contents) :
    (create v name data d).1 = .ok () ∧
      Created v name data i (fresh v d.contents data) (oldCells v d.contents cells i) d.contents
        (create v name data d).2.contents := by
  have sound := holds.sound
  obtain ⟨d₁, written, stored⟩ : ∃ d₁,
      (if data.isEmpty then (.ok 0, d) else writeChain v data d) =
        (.ok ((fresh v d.contents data).headD 0), d₁) ∧
      Stored v data (fresh v d.contents data) d.contents d₁.contents := by
    cases empty : data.isEmpty with
    | true =>
        obtain rfl := List.isEmpty_iff.mp empty
        exact ⟨d, rfl, Stored.empty v d.contents⟩
    | false =>
        obtain ⟨result, stored⟩ := writeChain_stored sound empty (enough empty)
        exact ⟨_, Prod.ext result rfl, stored⟩
  obtain ⟨released, tabled⟩ := releaseOld_tabled holds target stored fun c member =>
    (mem_fresh member).2
  rcases outcome : releaseOld v existing d₁ with ⟨r, d₂⟩
  rw [outcome] at released tabled
  obtain rfl : r = _ := released
  have length := directoryEntry_length fits.2 ((fresh v d.contents data).headD 0) data.length
  have same : slotOf v d.contents i = slotOf v d₂.contents i := by
    unfold slotOf
    rw [tabled.slots, stored.slots]
  have put := write_slot (v := v) (d := d₂) (i := i) (Nat.le_of_eq length)
  obtain ⟨entries, kept, boots⟩ := poke_slot sound d₂.contents target.inside
    (Nat.le_of_eq length)
  have slots := slotBytes_poke d₂.contents target.inside (Nat.le_of_eq length)
  rw [create_fits fits, target.place]
  simp only [written, outcome, same, put]
  refine ⟨trivial, ?_, ?_, ?_, ?_, ?_⟩
  · intro copy bound
    rw [entries, tabled.entries copy bound, stored.entries copy bound]
  · have moved : content v (poke d₂.contents (slotAt v i) (directoryEntry (split name).1
        (split name).2 ((fresh v d.contents data).headD 0) data.length))
        (fresh v d.contents data) data.length =
          content v d₁.contents (fresh v d.contents data) data.length := by
      unfold content
      rw [kept, tabled.data]
    rw [moved, stored.holds]
  · intro c out
    rw [kept, tabled.data, stored.kept c out]
  · rw [slots, tabled.slots, stored.slots, length]
    have old : (slotBytes v d.contents i).length = directoryEntrySize := by
      rw [slotBytes, if_pos target.inside, slice_length]
    rw [List.drop_eq_nil_of_le (Nat.le_of_eq old), List.append_nil]
  · rw [boots, tabled.boots, stored.boots]

end FiveAM.Fat.Creating
