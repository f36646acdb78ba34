/- GID: FiveAM/Memory/Eviction
   source: kernel/src/memory.rs, kernel/src/swap.rs
   digest: What sending a page out and bringing one back do to the trees and the books. -/

import FiveAM.Memory.Choosing

set_option autoImplicit false
set_option relaxedAutoImplicit false

namespace FiveAM.Memory.Eviction

open FiveAM.Process.TaskTable (Word)
open FiveAM.Memory.Entries FiveAM.Memory.Frames FiveAM.Memory.Replace FiveAM.Memory.PageTables
open FiveAM.Memory.Swap FiveAM.Memory.Ownership FiveAM.Memory.Residency FiveAM.Memory.Choosing
open FiveAM.Lib.RadixTables

section Words

theorem flagsOf_address {e : Word} (address : frameOf e = e) : flagsOf e = 0 := by
  rw [← address]
  unfold flagsOf frameOf
  rw [BitVec.and_assoc, show addressMask &&& ~~~addressMask = 0#64 from by decide]
  exact BitVec.and_zero

theorem slot_toNat (slot : Fin slots) :
    (BitVec.ofNat 64 slot.val <<< 12).toNat = slot.val * 4096 := by
  have bound : slot.val < 2048 := slot.isLt
  rw [BitVec.toNat_shiftLeft, BitVec.toNat_ofNat, Nat.shiftLeft_eq]
  omega

theorem frameOf_slot (slot : Fin slots) :
    frameOf (BitVec.ofNat 64 slot.val <<< 12) = BitVec.ofNat 64 slot.val <<< 12 := by
  have all : ∀ slot : Fin 2048, frameOf (BitVec.ofNat 64 slot.val <<< 12) =
      BitVec.ofNat 64 slot.val <<< 12 := by decide +kernel
  exact all slot

theorem frameOf_outEntry (slot : Fin slots) (e : Word) :
    frameOf (outEntry slot.val e) = BitVec.ofNat 64 slot.val <<< 12 := by
  have flags : frameOf (e &&& ~~~addressMask &&& ~~~present) = 0 := by
    rw [frameOf_and, show e &&& ~~~addressMask = flagsOf e from rfl, frameOf_flagsOf]
    exact BitVec.zero_and
  simp only [outEntry, frameOf_or, frameOf_slot, flags, show frameOf swapped = 0 from by decide,
    BitVec.ofNat_eq_ofNat, BitVec.or_zero]

theorem slotOf_outEntry (slot : Fin slots) (e : Word) : slotOf (outEntry slot.val e) = slot.val := by
  rw [slotOf, frameOf_outEntry, BitVec.toNat_ushiftRight, slot_toNat, Nat.shiftRight_eq_div_pow]
  exact Nat.mul_div_cancel _ (by decide)

private theorem slot_bit (slot : Fin slots) {k : Nat} (outside : addressMask.getLsbD k = false) :
    (BitVec.ofNat 64 slot.val <<< 12 : Word).getLsbD k = false := by
  rw [← frameOf_slot]
  exact frameOf_bit _ outside

theorem present_outEntry (slot : Fin slots) (e : Word) :
    has (outEntry slot.val e) present = false := by
  rw [has_present, outEntry]
  simp only [BitVec.getLsbD_or, BitVec.getLsbD_and, BitVec.getLsbD_not,
    slot_bit slot (k := 0) (by decide), show present.getLsbD 0 = true from by decide,
    show swapped.getLsbD 0 = false from by decide]
  simp

theorem swapped_outEntry (slot : Nat) (e : Word) : has (outEntry slot e) swapped = true := by
  rw [has_swapped, outEntry]
  simp only [BitVec.getLsbD_or, show swapped.getLsbD 10 = true from by decide, Bool.or_true]

theorem isSwapped_outEntry (slot : Fin slots) (e : Word) :
    isSwappedEntry (outEntry slot.val e) = true := by
  unfold isSwappedEntry
  rw [present_outEntry, swapped_outEntry]
  rfl

theorem frameOf_inEntry {frame : Word} (framed : Framed frame) (e : Word) :
    frameOf (inEntry frame e) = frame := by
  have flags : frameOf (e &&& ~~~addressMask &&& ~~~swapped) = 0 := by
    rw [frameOf_and, show e &&& ~~~addressMask = flagsOf e from rfl, frameOf_flagsOf]
    exact BitVec.zero_and
  simp only [inEntry, frameOf_or, framed.2, flags, show frameOf present = 0 from by decide,
    BitVec.ofNat_eq_ofNat, BitVec.or_zero]

theorem present_inEntry (frame e : Word) : has (inEntry frame e) present = true := by
  rw [has_present, inEntry]
  simp only [BitVec.getLsbD_or, show present.getLsbD 0 = true from by decide, Bool.or_true]

theorem swapped_inEntry {frame : Word} (framed : Framed frame) (e : Word) :
    has (inEntry frame e) swapped = false := by
  rw [has_swapped, inEntry]
  simp only [BitVec.getLsbD_or, BitVec.getLsbD_and, BitVec.getLsbD_not,
    framed_bit framed (k := 10) (by decide), show swapped.getLsbD 10 = true from by decide,
    show present.getLsbD 10 = false from by decide]
  simp

/-- The flag bits that neither paging nor use of a page changes. -/
def steadyBits : Word := ~~~addressMask &&& ~~~(present ||| swapped ||| accessed ||| dirty)

def steady (e : Word) : Word := e &&& steadyBits

private theorem steady_moved {a e gone set : Word} (address : frameOf a = a)
    (cleared : ~~~addressMask &&& (~~~gone &&& steadyBits) = steadyBits)
    (added : set &&& steadyBits = 0) :
    steady (a ||| (e &&& ~~~addressMask &&& ~~~gone) ||| set) = steady e := by
  have none : a &&& steadyBits = 0 := by
    have flags : a &&& ~~~addressMask = 0#64 := flagsOf_address address
    unfold steadyBits
    rw [← BitVec.and_assoc, flags]
    exact BitVec.zero_and
  unfold steady
  rw [BitVec.and_or_distrib_right, BitVec.and_or_distrib_right, none, added, BitVec.and_assoc,
    BitVec.and_assoc, cleared]
  simp

theorem steady_outEntry (slot : Fin slots) (e : Word) : steady (outEntry slot.val e) = steady e :=
  steady_moved (frameOf_slot slot) (by decide) (by decide)

theorem steady_inEntry {frame : Word} (framed : Framed frame) (e : Word) :
    steady (inEntry frame e) = steady e :=
  steady_moved framed.2 (by decide) (by decide)

theorem steady_ageless {e e' : Word} (same : ageless e' = ageless e) : steady e' = steady e := by
  have through : ∀ e, steady e = steady (ageless e) := by
    intro e
    unfold steady ageless
    rw [BitVec.and_assoc, show ~~~ages &&& steadyBits = steadyBits from by decide]
  rw [through e', same, ← through e]

theorem slotOf_ageless {e e' : Word} (same : ageless e' = ageless e) : slotOf e' = slotOf e := by
  rw [slotOf, slotOf, frameOf_ageless same]

theorem isSwapped_ageless {e e' : Word} (same : ageless e' = ageless e) :
    isSwappedEntry e' = isSwappedEntry e := by
  rw [isSwappedEntry, isSwappedEntry, present_ageless same, swapped_ageless same]

end Words

section Slots

/-- The entry is a page that is out in this slot. -/
def outIn (slot : Nat) (e : Word) : Nat := if isSwappedEntry e = true ∧ slotOf e = slot then 1 else 0

/-- How many leaf entries of these spaces name a slot. -/
def slotCount (m : Words) (live : Finset Word) (slot : Nat) : Nat :=
  forest userTree (fun _ => 0) (outIn slot) m 3 live

/-- A slot that a page is out in is marked used, and no other page is out in it. -/
structure SlotsHeld (s : Paging) (live : Finset Word) : Prop where
  once : ∀ slot, slotCount s.words live slot ≤ 1
  used : ∀ r ∈ live, ∀ p, isSwappedEntry (leafAt s.words r p) = true →
    ∃ bound : slotOf (leafAt s.words r p) < slots, s.used ⟨_, bound⟩ = true

variable {s s' : Paging} {managed live : Finset Word} {hand chain : List Word} {root u : Word}
  {path : Nat → Index}

theorem outIn_blank (slot : Nat) : outIn slot userTree.blank = 0 := by
  simp [outIn, isSwappedEntry, userTree, has]

theorem outIn_self {slot : Nat} {e : Word} (out : isSwappedEntry e = true) (same : slotOf e = slot) :
    outIn slot e = 1 := if_pos ⟨out, same⟩

theorem outIn_resident {e : Word} (resident : isSwappedEntry e = false) (slot : Nat) :
    outIn slot e = 0 := if_neg fun both => absurd (resident.symm.trans both.1) (by decide)

theorem outIn_other {slot n : Nat} {e : Word} (same : slotOf e = slot) (other : n ≠ slot) :
    outIn n e = 0 := if_neg fun both => other (both.2.symm.trans same)

theorem slotCount_leaf (books : Books s managed live hand chain) (member : root ∈ live)
    (route : Route userTree s.words path 3 root 0 u) (e : Word) (slot : Nat) :
    slotCount (s.write u (path 0) e).words live slot + outIn slot (s.words u (path 0)) =
      slotCount s.words live slot + outIn slot e :=
  forest_put (fun _ => 0) (outIn slot) member route (books.table member route).1 e

theorem SlotsHeld.apart (slots : SlotsHeld s live) (books : Books s managed live hand chain)
    (member : root ∈ live) (out : isSwappedEntry (leafAt s.words root path) = true) {r : Word}
    (there : r ∈ live) {p : Nat → Index} (out' : isSwappedEntry (leafAt s.words r p) = true)
    (same : slotOf (leafAt s.words r p) = slotOf (leafAt s.words root path)) :
    r = root ∧ SamePage p path := by
  have here := outIn_self out rfl
  refine entry_unique member (outIn_blank (slotOf (leafAt s.words root path)))
    (fun v k route => (books.table member route).1) ?_ there ?_ ?_
  · refine le_trans (slots.once _) ?_
    change 1 ≤ outIn _ (leafAt s.words root path)
    rw [here]
  · change 0 < outIn _ (leafAt s.words r p)
    rw [outIn_self out' same]
    exact Nat.one_pos
  · change 0 < outIn _ (leafAt s.words root path)
    rw [here]
    exact Nat.one_pos

theorem SlotsHeld.aging (slots : SlotsHeld s live) (aging : Aging s s' live) : SlotsHeld s' live where
  once slot := by
    refine le_of_eq_of_le (forest_entries (outIn_blank slot) fun r member q => ?_) (slots.once slot)
    have same := aging.leaves r member q
    change outIn slot (leafAt s'.words r q) = outIn slot (leafAt s.words r q)
    simp only [outIn, isSwapped_ageless same, slotOf_ageless same]
  used r member p out := by
    have same := aging.leaves r member p
    rw [isSwapped_ageless same] at out
    obtain ⟨bound, marked⟩ := slots.used r member p out
    have slot := slotOf_ageless same
    refine ⟨slot ▸ bound, ?_⟩
    rw [aging.used]
    simp only [slot]
    exact marked

end Slots

section Leaving

variable {s s' : Paging} {managed live : Finset Word} {hand chain : List Word} {root : Word}

theorem allocateSlot_spec (s : Paging) :
    (∃ slot, s.used slot = false ∧
        s.allocateSlot = (some slot, { s with used := Function.update s.used slot true })) ∨
      (∀ slot, s.used slot = true) ∧ s.allocateSlot = (none, s) := by
  unfold Paging.allocateSlot
  cases found : (List.finRange slots).find? fun slot => !s.used slot with
  | none =>
      refine Or.inr ⟨fun slot => ?_, rfl⟩
      have used := List.find?_eq_none.mp found slot (List.mem_finRange slot)
      simpa using used
  | some slot =>
      refine Or.inl ⟨slot, ?_, rfl⟩
      have free := List.find?_some found
      simpa using free

/-- The state after a page has gone out to a slot. -/
def sentOut (s : Paging) (page : Page) (slot : Fin slots) : Paging :=
  let entry := s.words page.table page.index
  noteEvicted (({ s with
    used := Function.update s.used slot true
    disk := (s.writeOut slot.val (frameOf entry)).2.disk } : Paging).write page.table page.index
      (outEntry slot.val entry)) page.address

/-- A page the active policy can send out: resident, in a frame nobody shares, and
for `Fifo` arrived before its largest stamp. -/
def Leaves (s : Paging) (root : Word) (path : Nat → Index) : Prop :=
  has (leafAt s.words root path) present = true ∧ has (leafAt s.words root path) swapped = false ∧
    s.shareCount (frameOf (leafAt s.words root path)) ≤ 1 ∧
    (s.replacers.active = 1 → Fifo.age s.replacers.fifo (addressAt path) < 2 ^ 64 - 1)

/-- There is a page to send out, and a slot for it. -/
def Evictable (s : Paging) (root : Word) : Prop :=
  (∃ path, Leaves s root path) ∧ ∃ slot, s.used slot = false

theorem takeable_iff (sound : Sound s.words root) :
    (∃ i, i < (userPages s root).length ∧ Takeable s (userPages s root) i) ↔
      ∃ path, Leaves s root path := by
  have eligible : ∀ i, PageSet.eligible s (userPages s root) i = true ↔
      has (PageSet.entry s (userPages s root) i) present = true ∧
        has (PageSet.entry s (userPages s root) i) swapped = false ∧
        s.shareCount (frameOf (PageSet.entry s (userPages s root) i)) ≤ 1 := by
    intro i
    simp only [PageSet.eligible, Paging.isShared, Bool.and_eq_true, Bool.not_eq_true',
      decide_eq_false_iff_not, Nat.not_lt, and_assoc]
  constructor
  · rintro ⟨i, inside, able, young⟩
    have listed := pageAt_mem inside
    have leaf := (mem_userPages sound listed).1.leaf
    obtain ⟨there, resident, alone⟩ := (eligible i).mp able
    refine ⟨indexes (pageAt (userPages s root) i).address, ?_, ?_, ?_, ?_⟩
    · rw [leaf]
      exact there
    · rw [leaf]
      exact resident
    · rw [leaf]
      exact alone
    · rw [← address_userPages sound listed]
      exact young
  · rintro ⟨path, there, resident, alone, young⟩
    obtain ⟨page, listed, follows⟩ := listed_of_present there
    obtain ⟨i, inside, here⟩ := List.getElem_of_mem listed
    have at_ : pageAt (userPages s root) i = page := by
      rw [pageAt, List.getD_eq_getElem _ _ inside, here]
    have leaf : PageSet.entry s (userPages s root) i = leafAt s.words root path := by
      unfold PageSet.entry
      rw [at_, ← (mem_userPages sound listed).1.leaf]
      exact entryAt_indexes fun j low => follows j low
    have address : page.address = addressAt path := by
      rw [address_userPages sound listed]
      simp only [addressAt, follows 2 (by decide), follows 1 (by decide), follows 0 (by decide)]
    refine ⟨i, inside, (eligible i).mpr ?_, ?_⟩
    · rw [leaf]
      exact ⟨there, resident, alone⟩
    · rw [at_, address]
      exact young

theorem leaves_aging (aging : Aging s s' live) (member : root ∈ live) {path : Nat → Index} :
    Leaves s' root path ↔ Leaves s root path := by
  have same := aging.leaves root member path
  have owners : ∀ f, s'.shareCount f = s.shareCount f := fun f => by
    simp only [Paging.shareCount, aging.shared]
  unfold Leaves
  rw [present_ageless same, swapped_ageless same, frameOf_ageless same, owners, aging.active,
    aging.fifo]

theorem evictable_aging (aging : Aging s s' live) (member : root ∈ live) :
    Evictable s' root ↔ Evictable s root := by
  unfold Evictable
  rw [aging.used]
  exact and_congr_left fun _ => exists_congr fun _ => leaves_aging aging member

/-- How `evict_one` can end. -/
inductive Evicts (s : Paging) (live : Finset Word) (root : Word) : Option Word × Paging → Prop where
  | nothing {aged : Paging} (aging : Aging s aged live) (stuck : ¬Evictable s root) :
      Evicts s live root (none, aged)
  | failed {aged : Paging} (aging : Aging s aged live) (able : Evictable s root) (slot : Fin slots)
      (frame : Word) (unused : aged.used slot = false)
      (error : (aged.disk.answers aged.disk.transfers).isNone = false) :
      Evicts s live root (none, { aged with disk := (aged.writeOut slot.val frame).2.disk })
  | out {aged : Paging} (aging : Aging s aged live) (able : Evictable s root) (page : Page)
      (slot : Fin slots) (on : OnPage aged.words root page)
      (there : has (aged.words page.table page.index) present = true)
      (resident : has (aged.words page.table page.index) swapped = false)
      (alone : aged.shareCount (frameOf (aged.words page.table page.index)) ≤ 1)
      (unused : aged.used slot = false)
      (written : (aged.disk.answers aged.disk.transfers).isNone = true) :
      Evicts s live root (some (frameOf (aged.words page.table page.index)), sentOut aged page slot)

theorem evictPage_eq {page : Page} {slot : Fin slots} (unused : s.used slot = false)
    (found : s.allocateSlot = (some slot, { s with used := Function.update s.used slot true })) :
    evictPage s page =
      if (s.disk.answers s.disk.transfers).isNone then
        (some (frameOf (s.words page.table page.index)), sentOut s page slot)
      else (none, { s with
        disk := (s.writeOut slot.val (frameOf (s.words page.table page.index))).2.disk }) := by
  unfold evictPage
  simp only [found]
  cases answer : (s.disk.answers s.disk.transfers).isNone with
  | true =>
      simp only [Paging.writeOut, answer, if_true]
      rfl
  | false =>
      simp only [Paging.writeOut, answer, Bool.false_eq_true, if_false, Paging.freeSlot, slot.isLt,
        dif_pos, Function.update_idem]
      rw [show Function.update s.used slot false = s.used from by
        rw [← unused, Function.update_eq_self]]

theorem evictOne_evicts (table : List (Word × Nat))
    (books : Books { s with shared := table } managed live hand chain) (member : root ∈ live) :
    Evicts s live root (evictOne s root) := by
  have sound : Sound s.words root := books.sound root member
  have shown := shown_userPages sound
  have takeable := takeable_iff sound
  have aging := aging_choose table books member shown
  have named : ∀ i, (choose s (userPages s root)).1 = some i →
      i < (userPages s root).length ∧ Takeable s (userPages s root) i := fun i here =>
    Policies.choose_named here
  have some : (∃ i, i < (userPages s root).length ∧ Takeable s (userPages s root) i) →
      (choose s (userPages s root)).1 ≠ none := by
    rintro ⟨i, inside, able, dated⟩
    exact Policies.choose_some inside able dated
  unfold evictOne
  dsimp only
  split_ifs with empty
  · refine .nothing (Aging.refl s live) fun able => ?_
    obtain ⟨i, inside, -⟩ := takeable.mpr able.1
    rw [List.isEmpty_iff.mp empty] at inside
    exact absurd inside (Nat.not_lt_zero i)
  · rcases chosen : choose s (userPages s root) with ⟨_ | i, aged⟩
    · rw [chosen] at aging some
      refine .nothing aging fun able => ?_
      exact absurd rfl (some (takeable.mpr able.1))
    · rw [chosen] at aging named
      obtain ⟨inside, able⟩ := named i rfl
      have eligible := eligible_aging shown member aging inside
      rw [able.1] at eligible
      have taken : ¬((userPages s root).length ≤ i ∨
          PageSet.eligible aged (userPages s root) i = false) := by
        rw [eligible]
        simp [inside]
      dsimp only
      rw [if_neg taken]
      have on := shown.aging member aging i inside
      unfold PageSet.eligible PageSet.entry Paging.isShared at eligible
      simp only [Bool.and_eq_true, Bool.not_eq_true', decide_eq_false_iff_not] at eligible
      obtain ⟨⟨there, resident⟩, alone⟩ := eligible
      obtain ⟨slot, unused, found⟩ | ⟨used, full⟩ := allocateSlot_spec aged
      · have able : Evictable s root :=
          ⟨takeable.mp ⟨i, inside, able⟩, slot, by rw [← aging.used]; exact unused⟩
        rw [evictPage_eq unused found]
        split_ifs with answer
        · exact .out aging able _ slot on there resident (Nat.not_lt.mp alone) unused answer
        · exact .failed aging able slot _ unused (Bool.eq_false_of_not_eq_true answer)
      · unfold evictPage
        simp only [full]
        refine .nothing aging fun able => ?_
        obtain ⟨slot, unused⟩ := able.2
        rw [← aging.used, used slot] at unused
        cases unused

theorem evictOne_spec (books : Books s managed live hand chain) (member : root ∈ live) :
    Evicts s live root (evictOne s root) :=
  evictOne_evicts s.shared books member

end Leaving

section Notes

variable (s : Paging) (address : Word)

@[simp] theorem words_noteEvicted : (noteEvicted s address).words = s.words := by
  unfold noteEvicted
  split_ifs <;> rfl

@[simp] theorem words_noteResident : (noteResident s address).words = s.words := by
  unfold noteResident
  split_ifs <;> rfl

theorem noteEvicted_eq : noteEvicted s address =
    { s with replacers := (noteEvicted s address).replacers } := by
  unfold noteEvicted
  split_ifs <;> rfl

theorem noteResident_eq : noteResident s address =
    { s with replacers := (noteResident s address).replacers } := by
  unfold noteResident
  split_ifs <;> rfl

end Notes

section Sectors

theorem slotLba_eq (slot : Fin slots) : Paging.slotLba slot.val = swapStart + slot.val * 8 := by
  have bound : slot.val < 2048 := slot.isLt
  unfold Paging.slotLba swapStart sectorsPerPage
  omega

theorem pageAt_putSectors (sectors : Nat → Sector) (lba : Nat) (page : Table) :
    Paging.pageAt (Paging.putSectors sectors lba 8 page) lba = page := by
  funext i
  have bound := i.isLt
  have inside : lba ≤ lba + i.val / 64 ∧ lba + i.val / 64 < lba + min 8 8 := by omega
  unfold Paging.pageAt Paging.putSectors
  simp only [if_pos inside]
  congr 1
  apply Fin.ext
  simp only [sectorWords]
  omega

theorem pageAt_other {m n : Fin slots} (apart : m ≠ n) (sectors : Nat → Sector) (count : Nat)
    (page : Table) :
    Paging.pageAt (Paging.putSectors sectors (Paging.slotLba n.val) count page) (Paging.slotLba m.val) =
      Paging.pageAt sectors (Paging.slotLba m.val) := by
  funext i
  have bound := i.isLt
  have other : m.val ≠ n.val := fun same => apart (Fin.ext same)
  unfold Paging.pageAt Paging.putSectors
  rw [if_neg]
  rw [slotLba_eq, slotLba_eq]
  unfold sectorWords sectorsPerPage
  omega

end Sectors

end FiveAM.Memory.Eviction
