/- GID: FiveAM/Fat/Directory
   source: kernel/src/fat.rs
   digest: The slots of the root directory by number, and what the two scans of them find. -/

import FiveAM.Fat.Layout

set_option autoImplicit false
set_option relaxedAutoImplicit false

namespace FiveAM.Fat.Directory

open FiveAM.Lib.ByteRegions FiveAM.Fat.Reading FiveAM.Fat.Writing FiveAM.Fat.Layout

/-- The `i`-th slot of the root directory. -/
def slotOf (v : Volume) (disk : Store) (i : Nat) : Slot where
  sector := v.rootStart + i / 16
  offset := i % 16 * directoryEntrySize
  bytes := slotBytes v disk i

/-- Neither deleted nor a label nor a directory. -/
def Usable (slot : Slot) : Prop :=
  slot.first ≠ entryDeleted ∧ slot.attributes &&& attributeVolumeLabel = 0 ∧
    slot.attributes &&& attributeDirectory = 0

instance (slot : Slot) : Decidable (Usable slot) := inferInstanceAs (Decidable (_ ∧ _))

def Vacant (slot : Slot) : Prop := slot.first = entryFree ∨ slot.first = entryDeleted

instance (slot : Slot) : Decidable (Vacant slot) := inferInstanceAs (Decidable (_ ∨ _))

/-- The numbers of the slots `list` reports, in order. -/
def listed (v : Volume) (disk : Store) : List Nat :=
  ((List.range (slotCount v)).takeWhile fun i => (slotOf v disk i).first ≠ entryFree).filter
    fun i => Usable (slotOf v disk i)

def entryAt (v : Volume) (disk : Store) (i : Nat) : Entry := (slotOf v disk i).entry

def Matching (v : Volume) (disk : Store) (name : List Char) (i : Nat) : Prop :=
  eqIgnoreAsciiCase (entryAt v disk i).name name = true

instance (v : Volume) (disk : Store) (name : List Char) (i : Nat) :
    Decidable (Matching v disk name i) := inferInstanceAs (Decidable (_ = _))

private theorem flatMap_range {β : Type} (m n : Nat) (f : Nat → β) :
    ((List.range n).flatMap fun i => (List.range m).map fun k => f (m * i + k)) =
      (List.range (m * n)).map f := by
  induction n with
  | zero => simp
  | succ n ih =>
      rw [List.range_succ, List.flatMap_append, ih, Nat.mul_succ, List.range_add, List.map_append,
        List.map_map]
      simp

theorem slots_eq (v : Volume) (disk : Store) :
    v.slots disk = (List.range (slotCount v)).map (slotOf v disk) := by
  unfold slotCount
  rw [← flatMap_range, Volume.slots]
  apply List.flatMap_congr
  intro index member
  apply List.map_congr_left
  intro k small
  rw [List.mem_range] at member
  have small : k < 16 := List.mem_range.mp small
  have inside : 16 * index + k < slotCount v := by
    unfold slotCount
    omega
  have place : sectorSize * (v.rootStart + index) + k * directoryEntrySize =
      slotAt v (16 * index + k) := by
    unfold slotAt sectorSize directoryEntrySize
    omega
  have fits : k * directoryEntrySize + directoryEntrySize ≤ sectorSize * 1 := by
    unfold sectorSize directoryEntrySize
    omega
  unfold slotOf slotBytes
  rw [if_pos inside, Reading.read, slice_part fits, place,
    show (16 * index + k) / 16 = index by omega, show (16 * index + k) % 16 = k by omega]

private theorem listSlots_eq (slots : List Slot) :
    listSlots slots =
      ((slots.takeWhile fun s => s.first ≠ entryFree).filter fun s => Usable s).map Slot.entry := by
  induction slots with
  | nil => rfl
  | cons slot rest ih =>
      rw [listSlots]
      by_cases free : slot.first = entryFree
      · rw [if_pos free, List.takeWhile_cons_of_neg (by simpa using free)]
        rfl
      · rw [if_neg free, List.takeWhile_cons_of_pos (by simpa using free)]
        by_cases usable : Usable slot
        · obtain ⟨kept, label, plain⟩ := usable
          have usable : Usable slot := ⟨kept, label, plain⟩
          rw [if_neg kept, if_neg (by simpa using label), if_neg (by simpa using plain),
            List.filter_cons_of_pos (by simpa using usable), List.map_cons, ih]
        · rw [List.filter_cons_of_neg (by simpa using usable), ← ih]
          by_cases deleted : slot.first = entryDeleted
          · rw [if_pos deleted]
          · rw [if_neg deleted]
            by_cases label : slot.attributes &&& attributeVolumeLabel = 0
            · have directory : slot.attributes &&& attributeDirectory ≠ 0 :=
                fun plain => usable ⟨deleted, label, plain⟩
              rw [if_neg (by simpa using label), if_pos directory]
            · rw [if_pos label]

theorem list_eq (v : Volume) (disk : Store) :
    v.list disk = (listed v disk).map (entryAt v disk) := by
  rw [Volume.list, listSlots_eq, slots_eq, List.takeWhile_map, List.filter_map, List.map_map]
  rfl

private theorem mem_takeWhile_range' {p : Nat → Bool} {s n i : Nat} :
    i ∈ (List.range' s n).takeWhile p ↔ (s ≤ i ∧ i < s + n) ∧ ∀ j, s ≤ j → j ≤ i → p j = true := by
  induction n generalizing s with
  | zero =>
      simp only [List.range'_zero, List.takeWhile_nil, List.not_mem_nil, false_iff]
      rintro ⟨inside, _⟩
      omega
  | succ n ih =>
      rw [List.range'_succ]
      by_cases here : p s = true
      · rw [List.takeWhile_cons_of_pos here, List.mem_cons, ih]
        constructor
        · rintro (rfl | ⟨inside, all⟩)
          · refine ⟨by omega, fun j low high => ?_⟩
            rwa [show j = i by omega]
          · refine ⟨by omega, fun j low high => ?_⟩
            by_cases same : j = s
            · rwa [same]
            · exact all j (by omega) high
        · rintro ⟨inside, all⟩
          by_cases same : i = s
          · exact .inl same
          · exact .inr ⟨by omega, fun j low high => all j (by omega) high⟩
      · rw [List.takeWhile_cons_of_neg here]
        simp only [List.not_mem_nil, false_iff]
        rintro ⟨inside, all⟩
        exact here (all s (Nat.le_refl _) inside.1)

theorem mem_listed {v : Volume} {disk : Store} {i : Nat} :
    i ∈ listed v disk ↔ i < slotCount v ∧ (∀ j ≤ i, (slotOf v disk j).first ≠ entryFree) ∧
      Usable (slotOf v disk i) := by
  unfold listed
  rw [List.mem_filter, List.range_eq_range', mem_takeWhile_range']
  simp only [Nat.zero_le, Nat.zero_add, true_and, forall_const, decide_eq_true_iff, and_assoc]

theorem listed_nodup (v : Volume) (disk : Store) : (listed v disk).Nodup :=
  ((List.takeWhile_sublist _).nodup List.nodup_range).filter _

/-- What a search of the directory for a name comes back with. -/
inductive Chosen (v : Volume) (disk : Store) (name : List Char) :
    Except String (Nat × Nat × Option Entry) → Prop where
  | found (i : Nat) (member : i ∈ listed v disk) (matching : Matching v disk name i)
      (first : ∀ j ∈ listed v disk, j < i → ¬ Matching v disk name j) :
      Chosen v disk name (.ok ((slotOf v disk i).sector, (slotOf v disk i).offset,
        some (entryAt v disk i)))
  | unused (i : Nat) (inside : i < slotCount v) (vacant : Vacant (slotOf v disk i))
      (first : ∀ j < i, ¬ Vacant (slotOf v disk j))
      (absent : ∀ j ∈ listed v disk, ¬ Matching v disk name j) :
      Chosen v disk name (.ok ((slotOf v disk i).sector, (slotOf v disk i).offset, none))
  | full (used : ∀ j < slotCount v, ¬ Vacant (slotOf v disk j))
      (absent : ∀ j ∈ listed v disk, ¬ Matching v disk name j) :
      Chosen v disk name (.error "the root directory is full")

private theorem attributes_or (a : UInt8) :
    a &&& (attributeVolumeLabel ||| attributeDirectory) = 0 ↔
      a &&& attributeVolumeLabel = 0 ∧ a &&& attributeDirectory = 0 := by
  have all : ∀ b : BitVec 8, b &&& 24#8 = 0#8 ↔ b &&& 8#8 = 0#8 ∧ b &&& 16#8 = 0#8 := by
    decide +kernel
  simp only [← UInt8.toBitVec_inj]
  exact all a.toBitVec

/-- What the search remembers when the slots before `start` have been looked at. -/
def FirstEmpty (v : Volume) (disk : Store) (start : Nat) : Option (Nat × Nat) → Prop
  | none => ∀ j < start, ¬ Vacant (slotOf v disk j)
  | some place => ∃ i < start, Vacant (slotOf v disk i) ∧
      (∀ j < i, ¬ Vacant (slotOf v disk j)) ∧
      place = ((slotOf v disk i).sector, (slotOf v disk i).offset)

private theorem scanSlots_chosen {v : Volume} {disk : Store} {name : List Char} (n start : Nat)
    (whole : start + n = slotCount v) (firstEmpty : Option (Nat × Nat))
    (going : ∀ j < start, (slotOf v disk j).first ≠ entryFree)
    (other : ∀ j < start, Usable (slotOf v disk j) → ¬ Matching v disk name j)
    (empties : FirstEmpty v disk start firstEmpty) :
    Chosen v disk name
      (scanSlots name ((List.range' start n).map (slotOf v disk)) firstEmpty) := by
  induction n generalizing start firstEmpty with
  | zero =>
      have absent : ∀ j ∈ listed v disk, ¬ Matching v disk name j := fun j member =>
        other j (by have := (mem_listed.mp member).1; omega) (mem_listed.mp member).2.2
      cases firstEmpty with
      | none => exact .full (fun j below => empties j (by omega)) absent
      | some place =>
          obtain ⟨i, below, vacant, first, rfl⟩ := empties
          exact .unused i (by omega) vacant first absent
  | succ n ih =>
      rw [List.range'_succ, List.map_cons, scanSlots]
      by_cases vacant : Vacant (slotOf v disk start)
      · have vacant' : (slotOf v disk start).first = entryFree ∨
            (slotOf v disk start).first = entryDeleted := vacant
        rw [if_pos vacant']
        obtain ⟨i, low, empty, first, place⟩ : ∃ i ≤ start, Vacant (slotOf v disk i) ∧
            (∀ j < i, ¬ Vacant (slotOf v disk j)) ∧
            firstEmpty.getD ((slotOf v disk start).sector, (slotOf v disk start).offset) =
              ((slotOf v disk i).sector, (slotOf v disk i).offset) := by
          cases firstEmpty with
          | none => exact ⟨start, Nat.le_refl _, vacant, empties, rfl⟩
          | some place =>
              obtain ⟨i, below, empty, first, same⟩ := empties
              exact ⟨i, by omega, empty, first, same⟩
        by_cases free : (slotOf v disk start).first = entryFree
        · rw [if_pos free, place]
          refine .unused i (by omega) empty first fun j member => ?_
          obtain ⟨_, before, usable⟩ := mem_listed.mp member
          have below : j < start := by
            by_contra above
            exact before start (by omega) free
          exact other j below usable
        · rw [if_neg free]
          have deleted : (slotOf v disk start).first = entryDeleted := vacant.resolve_left free
          refine ih (start + 1) (by omega) _ (fun j below => ?_) (fun j below usable => ?_)
            ⟨i, by omega, empty, first, place⟩
          · by_cases here : j = start
            · rwa [here]
            · exact going j (by omega)
          · by_cases here : j = start
            · exact absurd (here ▸ deleted) usable.1
            · exact other j (by omega) usable
      · have vacant' : ¬ ((slotOf v disk start).first = entryFree ∨
            (slotOf v disk start).first = entryDeleted) := vacant
        rw [if_neg vacant']
        have used : (slotOf v disk start).first ≠ entryFree := fun free => vacant (.inl free)
        have kept : (slotOf v disk start).first ≠ entryDeleted := fun gone => vacant (.inr gone)
        have going' : ∀ j < start + 1, (slotOf v disk j).first ≠ entryFree := fun j below => by
          by_cases here : j = start
          · rwa [here]
          · exact going j (by omega)
        have empties' : FirstEmpty v disk (start + 1) firstEmpty := by
          cases firstEmpty with
          | none =>
              intro j below
              by_cases here : j = start
              · rwa [here]
              · exact empties j (by omega)
          | some place =>
              obtain ⟨i, below, empty, first, same⟩ := empties
              exact ⟨i, by omega, empty, first, same⟩
        by_cases special : (slotOf v disk start).attributes &&&
            (attributeVolumeLabel ||| attributeDirectory) ≠ 0
        · rw [if_pos special]
          refine ih (start + 1) (by omega) _ going' (fun j below usable => ?_) empties'
          by_cases here : j = start
          · rw [here] at usable
            exact absurd ((attributes_or _).mpr usable.2) special
          · exact other j (by omega) usable
        · rw [if_neg special]
          have usable : Usable (slotOf v disk start) :=
            ⟨kept, (attributes_or _).mp (not_not.mp special)⟩
          by_cases matching : Matching v disk name start
          · have same : eqIgnoreAsciiCase (slotOf v disk start).entry.name name = true := matching
            rw [if_pos same]
            refine .found start (mem_listed.mpr ⟨by omega, fun j low => going' j (by omega), usable⟩)
              matching fun j member below => other j below (mem_listed.mp member).2.2
          · have same : ¬ eqIgnoreAsciiCase (slotOf v disk start).entry.name name = true := matching
            rw [if_neg same]
            refine ih (start + 1) (by omega) _ going' (fun j below usable => ?_) empties'
            by_cases here : j = start
            · rwa [here]
            · exact other j (by omega) usable

theorem directorySlot_chosen (v : Volume) (disk : Store) (name : List Char) :
    Chosen v disk name (directorySlot v disk name) := by
  rw [directorySlot, slots_eq, List.range_eq_range']
  exact scanSlots_chosen (slotCount v) 0 (Nat.zero_add _) none (fun j below => absurd below (by omega))
    (fun j below => absurd below (by omega)) (fun j below => absurd below (by omega))

theorem eqIgnoreAsciiCase_iff {a b : List Char} : eqIgnoreAsciiCase a b = true ↔
    (bytes a).map toAsciiLowercase = (bytes b).map toAsciiLowercase := decide_eq_true_iff

theorem find_unique {v : Volume} {disk : Store} {name : List Char} {i : Nat}
    (member : i ∈ listed v disk) (matching : Matching v disk name i)
    (only : ∀ j ∈ listed v disk, Matching v disk name j → j = i) :
    v.find disk name = .ok (entryAt v disk i) := by
  have found : (v.list disk).find? (fun entry => eqIgnoreAsciiCase entry.name name) =
      some (entryAt v disk i) := by
    rw [list_eq, List.find?_map, Function.comp_def]
    cases search : (listed v disk).find? (fun j => eqIgnoreAsciiCase (entryAt v disk j).name name) with
    | none => exact absurd matching (List.find?_eq_none.mp search i member)
    | some j =>
        have holds : Matching v disk name j :=
          List.find?_some (p := fun j => eqIgnoreAsciiCase (entryAt v disk j).name name) search
        rw [only j (List.mem_of_find?_eq_some search) holds]
        rfl
  rw [Volume.find, found]

theorem write_slot {v : Volume} {d : Drive} {i : Nat} {part : List UInt8}
    (short : part.length ≤ directoryEntrySize) :
    (d.write (slotOf v d.contents i).sector
      (splice (Reading.read d.contents (slotOf v d.contents i).sector 1)
        (slotOf v d.contents i).offset part)).contents = poke d.contents (slotAt v i) part := by
  have fits : i % 16 * directoryEntrySize + part.length ≤ sectorSize * 1 := by
    unfold sectorSize directoryEntrySize at *
    omega
  have place : sectorSize * (v.rootStart + i / 16) + i % 16 * directoryEntrySize = slotAt v i := by
    unfold slotAt sectorSize directoryEntrySize
    omega
  simp only [slotOf, Drive.write, Reading.read]
  rw [poke_splice fits, place]

theorem place_inj {v : Volume} {disk disk' : Store} {i j : Nat}
    (sectors : (slotOf v disk i).sector = (slotOf v disk' j).sector)
    (offsets : (slotOf v disk i).offset = (slotOf v disk' j).offset) : i = j := by
  simp only [slotOf, directoryEntrySize] at sectors offsets
  omega

end FiveAM.Fat.Directory
