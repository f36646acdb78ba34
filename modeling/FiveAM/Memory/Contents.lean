/- GID: FiveAM/Memory/Contents
   source: kernel/src/memory.rs, kernel/src/swap.rs
   digest: What a user page holds, in a frame or in a slot, and the steps that leave it alone. -/

import FiveAM.Memory.Eviction

set_option autoImplicit false
set_option relaxedAutoImplicit false

namespace FiveAM.Memory.Contents

open FiveAM.Process.TaskTable (Word)
open FiveAM.Memory.Entries FiveAM.Memory.Frames FiveAM.Memory.Replace FiveAM.Memory.PageTables
open FiveAM.Memory.Swap FiveAM.Memory.Ownership FiveAM.Memory.Residency FiveAM.Memory.Choosing
open FiveAM.Memory.Eviction FiveAM.Lib.RadixTables

/-- What the entry of a page holds: the frame it names, or the slot it is out in. -/
def heldBy (s : Paging) (e : Word) : Option Table :=
  if has e present = true then some (s.words (frameOf e))
  else if has e swapped = true then some (Paging.pageAt s.disk.sectors (Paging.slotLba (slotOf e)))
  else none

def contents (s : Paging) (root : Word) (path : Nat → Index) : Option Table :=
  heldBy s (leafAt s.words root path)

/-- Two pages that are one, or that share a frame. -/
def Together (s : Paging) (r : Word) (p : Nat → Index) (r' : Word) (p' : Nat → Index) : Prop :=
  (r = r' ∧ SamePage p p') ∨
    has (leafAt s.words r p) present = true ∧ has (leafAt s.words r' p') present = true ∧
      frameOf (leafAt s.words r p) = frameOf (leafAt s.words r' p')

/-- Nothing a program can see of its pages has changed. -/
structure Unseen (s s' : Paging) (live : Finset Word) : Prop where
  contents : ∀ r ∈ live, ∀ p, contents s' r p = contents s r p
  flags : ∀ r ∈ live, ∀ p, steady (leafAt s'.words r p) = steady (leafAt s.words r p)
  together : ∀ r ∈ live, ∀ r' ∈ live, ∀ p p', Together s' r p r' p' ↔ Together s r p r' p'

variable {s s' s'' : Paging} {managed live : Finset Word} {hand chain : List Word} {root : Word}
  {path : Nat → Index}

theorem Unseen.refl (s : Paging) (live : Finset Word) : Unseen s s live :=
  ⟨fun _ _ _ => rfl, fun _ _ _ => rfl, fun _ _ _ _ _ _ => Iff.rfl⟩

theorem Unseen.trans (first : Unseen s s' live) (second : Unseen s' s'' live) : Unseen s s'' live where
  contents r member p := (second.contents r member p).trans (first.contents r member p)
  flags r member p := (second.flags r member p).trans (first.flags r member p)
  together r member r' member' p p' :=
    (second.together r member r' member' p p').trans (first.together r member r' member' p p')

theorem page_frame (books : Books s managed live hand chain) (member : root ∈ live)
    (there : has (leafAt s.words root path) present = true) :
    tableCount s.words live (frameOf (leafAt s.words root path)) = 0 ∧
      frameOf (leafAt s.words root path) ∉ chain ∧ frameOf (leafAt s.words root path) ∉ hand ∧
      frameOf (leafAt s.words root path) ∈ managed :=
  books.page (refCount_pos member there)

theorem Unseen.aging (books : Books s managed live hand chain) (aging : Aging s s' live) :
    Unseen s s' live where
  contents r member p := by
    have same := aging.leaves r member p
    unfold Contents.contents heldBy
    rw [present_ageless same, swapped_ageless same, frameOf_ageless same, slotOf_ageless same,
      aging.disk]
    split_ifs with there
    · rw [aging.data _ (page_frame books member there).1]
    · rfl
    · rfl
  flags r member p := steady_ageless (aging.leaves r member p)
  together r member r' member' p p' := by
    have same := aging.leaves r member p
    have same' := aging.leaves r' member' p'
    unfold Together
    rw [present_ageless same, present_ageless same', frameOf_ageless same, frameOf_ageless same']

theorem Unseen.elsewhere
    (tables : ∀ f, 0 < tableCount s.words live f → s'.words f = s.words f)
    (pages : ∀ f, 0 < refCount s.words live f → s'.words f = s.words f)
    (slots : ∀ r ∈ live, ∀ p, isSwappedEntry (leafAt s.words r p) = true →
      Paging.pageAt s'.disk.sectors (Paging.slotLba (slotOf (leafAt s.words r p))) =
        Paging.pageAt s.disk.sectors (Paging.slotLba (slotOf (leafAt s.words r p)))) :
    Unseen s s' live := by
  have leaves : ∀ r ∈ live, ∀ p, leafAt s'.words r p = leafAt s.words r p := fun r member p =>
    along_congr fun v there => tables v (lt_of_lt_of_le there (tables_le_occurs member v))
  refine ⟨fun r member p => ?_, fun r member p => by rw [leaves r member p],
    fun r member r' member' p p' => ?_⟩
  · unfold Contents.contents heldBy
    rw [leaves r member p]
    split_ifs with there out
    · rw [pages _ (refCount_pos member there)]
    · rw [slots r member p (by simp [isSwappedEntry, there, out])]
    · rfl
  · unfold Together
    rw [leaves r member p, leaves r' member' p']

theorem page_alone (books : Books s managed live hand chain) (member : root ∈ live)
    (there : has (leafAt s.words root path) present = true)
    (single : refCount s.words live (frameOf (leafAt s.words root path)) = 1) {r : Word}
    (member' : r ∈ live) {p : Nat → Index} (there' : has (leafAt s.words r p) present = true)
    (same : frameOf (leafAt s.words r p) = frameOf (leafAt s.words root path)) :
    r = root ∧ SamePage p path := by
  have here := names_self there rfl
  have blank : names (frameOf (leafAt s.words root path)) userTree.blank = 0 := by
    simp [names, has, userTree]
  refine entry_unique member blank
    (fun v k route => (books.table member route).1) ?_ member' ?_ ?_
  · refine le_of_eq_of_le single ?_
    change 1 ≤ names _ (leafAt s.words root path)
    rw [here]
  · change 0 < names _ (leafAt s.words r p)
    rw [names_self there' same]
    exact Nat.one_pos
  · change 0 < names _ (leafAt s.words root path)
    rw [here]
    exact Nat.one_pos

/-- Who shares a frame with whom is left alone by a change to the entry of a page
that shares none, neither before nor after. -/
theorem together_leaf {e : Word} (sets : LeafSet s s' live root path e)
    (before : ∀ r ∈ live, ∀ p, has (leafAt s.words root path) present = true →
      has (leafAt s.words r p) present = true →
      frameOf (leafAt s.words r p) = frameOf (leafAt s.words root path) →
      r = root ∧ SamePage p path)
    (after : ∀ r ∈ live, ∀ p, has e present = true → has (leafAt s.words r p) present = true →
      frameOf (leafAt s.words r p) ≠ frameOf e)
    {r r' : Word} (member : r ∈ live) (member' : r' ∈ live) (p p' : Nat → Index) :
    Together s' r p r' p' ↔ Together s r p r' p' := by
  classical
  have leaf : ∀ {r p}, r = root ∧ SamePage p path → leafAt s.words r p = leafAt s.words root path := by
    rintro r p ⟨rfl, same⟩
    exact entryAt_indexes fun j low => same j low
  unfold Together
  rw [sets.leaves r member p, sets.leaves r' member' p']
  by_cases here : r = root ∧ SamePage p path
  · by_cases here' : r' = root ∧ SamePage p' path
    · have one : r = r' ∧ SamePage p p' := ⟨here.1.trans here'.1.symm, fun j low =>
        (here.2 j low).trans (here'.2 j low).symm⟩
      exact ⟨fun _ => Or.inl one, fun _ => Or.inl one⟩
    · have other : ¬(r = r' ∧ SamePage p p') := fun one => here' ⟨one.1.symm.trans here.1,
        fun j low => (one.2 j low).symm.trans (here.2 j low)⟩
      rw [if_pos here, if_neg here', leaf here]
      constructor
      · rintro (one | ⟨present, present', same⟩)
        · exact absurd one other
        · exact absurd same.symm (after r' member' p' present present')
      · rintro (one | ⟨present, present', same⟩)
        · exact absurd one other
        · exact absurd (before r' member' p' present present' same.symm) here'
  · by_cases here' : r' = root ∧ SamePage p' path
    · have other : ¬(r = r' ∧ SamePage p p') := fun one => here ⟨one.1.trans here'.1,
        fun j low => (one.2 j low).trans (here'.2 j low)⟩
      rw [if_neg here, if_pos here', leaf here']
      constructor
      · rintro (one | ⟨present, present', same⟩)
        · exact absurd one other
        · exact absurd same (after r member p present' present)
      · rintro (one | ⟨present, present', same⟩)
        · exact absurd one other
        · exact absurd (before r member p present' present same) here
    · rw [if_neg here, if_neg here']

section Out

variable {page : Page} {slot : Fin slots}

theorem sentOut_books (books : Books s managed live hand chain) (member : root ∈ live)
    (on : OnPage s.words root page) (there : has (s.words page.table page.index) present = true)
    (alone : s.shareCount (frameOf (s.words page.table page.index)) ≤ 1) :
    Books (sentOut s page slot) managed live (frameOf (s.words page.table page.index) :: hand)
      chain := by
  rw [on.index] at there alone ⊢
  have moved := books.leafOut member on.route there alone (present_outEntry slot _)
    (e := outEntry slot.val (s.words page.table (indexes page.address 0)))
  unfold sentOut
  rw [noteEvicted_eq, on.index]
  exact moved.congr rfl rfl rfl rfl

theorem sentOut_leaf (slot : Fin slots) (books : Books s managed live hand chain) (member : root ∈ live)
    (on : OnPage s.words root page) :
    LeafSet s (sentOut s page slot) live root (indexes page.address)
      (outEntry slot.val (s.words page.table page.index)) := by
  refine (LeafSet.write books member on.route
    (outEntry slot.val (s.words page.table page.index))).congr ?_
  unfold sentOut
  rw [words_noteEvicted, on.index]
  rfl

theorem slotCount_unused (slots : SlotsHeld s live) (unused : s.used slot = false) :
    slotCount s.words live slot.val = 0 := by
  by_contra positive
  obtain ⟨r, member, q, heavy⟩ := exists_of_forest (Nat.pos_of_ne_zero positive)
  change 0 < outIn slot.val (leafAt s.words r q) at heavy
  unfold outIn at heavy
  split_ifs at heavy with out
  · obtain ⟨bound, marked⟩ := slots.used r member q out.1
    simp only [out.2] at marked
    exact absurd (unused.symm.trans marked) (by decide)
  · exact absurd heavy (Nat.lt_irrefl 0)

theorem sentOut_slots (books : Books s managed live hand chain) (held : SlotsHeld s live)
    (member : root ∈ live) (on : OnPage s.words root page)
    (there : has (s.words page.table page.index) present = true) (unused : s.used slot = false) :
    SlotsHeld (sentOut s page slot) live := by
  classical
  have sets := sentOut_leaf slot books member on
  have marks : (sentOut s page slot).used = Function.update s.used slot true := by
    unfold sentOut
    rw [noteEvicted_eq]
    rfl
  refine ⟨fun n => ?_, fun r live' p out => ?_⟩
  · have change := slotCount_leaf books member on.route
      (outEntry slot.val (s.words page.table page.index)) n
    have resident : isSwappedEntry (s.words page.table (indexes page.address 0)) = false := by
      rw [← on.index]
      simp [isSwappedEntry, there]
    rw [outIn_resident resident, Nat.add_zero] at change
    have words : (sentOut s page slot).words = (s.write page.table (indexes page.address 0)
        (outEntry slot.val (s.words page.table page.index))).words := by
      unfold sentOut
      rw [words_noteEvicted, on.index]
      rfl
    rw [words, change]
    by_cases same : n = slot.val
    · rw [same, slotCount_unused held unused, outIn_self (isSwapped_outEntry slot _)
        (slotOf_outEntry slot _)]
    · rw [outIn_other (slotOf_outEntry slot _) same, Nat.add_zero]
      exact held.once n
  · rw [sets.leaves r live' p] at out ⊢
    rw [marks]
    split_ifs at out ⊢ with here
    · refine ⟨by rw [slotOf_outEntry]; exact slot.isLt, ?_⟩
      simp only [slotOf_outEntry, Fin.eta, Function.update_self]
    · obtain ⟨bound, marked⟩ := held.used r live' p out
      refine ⟨bound, ?_⟩
      rw [Function.update_of_ne]
      · exact marked
      · intro same
        rw [same, unused] at marked
        cases marked

theorem sentOut_unseen (books : Books s managed live hand chain) (held : SlotsHeld s live)
    (member : root ∈ live) (on : OnPage s.words root page)
    (there : has (s.words page.table page.index) present = true)
    (alone : s.shareCount (frameOf (s.words page.table page.index)) ≤ 1)
    (unused : s.used slot = false)
    (written : (s.disk.answers s.disk.transfers).isNone = true) :
    Unseen s (sentOut s page slot) live := by
  classical
  have sets := sentOut_leaf slot books member on
  have leaf := on.leaf
  have whole : s.disk.answers s.disk.transfers = none := by simpa using written
  have sectors : (sentOut s page slot).disk.sectors = Paging.putSectors s.disk.sectors
      (Paging.slotLba slot.val) 8 (s.words (frameOf (s.words page.table page.index))) := by
    unfold sentOut
    rw [noteEvicted_eq]
    simp only [Paging.write, Paging.writeOut, whole]
    rfl
  have single : refCount s.words live (frameOf (leafAt s.words root (indexes page.address))) = 1 := by
    rw [leaf]
    have owners := books.account.owners (frameOf (s.words page.table page.index))
    have positive : 0 < refCount s.words live (frameOf (leafAt s.words root (indexes page.address))) :=
      refCount_pos member (by rwa [leaf])
    rw [leaf] at positive
    omega
  refine ⟨fun r live' p => ?_, fun r live' p => ?_, fun r live' r' live'' p p' => ?_⟩
  · unfold contents
    rw [sets.leaves r live' p]
    split_ifs with here
    · obtain ⟨rfl, follows⟩ := here
      have same : leafAt s.words r p = s.words page.table page.index :=
        (entryAt_indexes fun j low => follows j low).trans leaf
      rw [same]
      unfold heldBy
      rw [if_neg (by simp [present_outEntry]), if_pos (swapped_outEntry _ _), if_pos there, sectors,
        slotOf_outEntry, pageAt_putSectors]
    · unfold heldBy
      split_ifs with present' out
      · rw [sets.data member (page_frame books live' present').1]
      · obtain ⟨bound, marked⟩ := held.used r live' p (by simp [isSwappedEntry, present', out])
        have apart : (⟨slotOf (leafAt s.words r p), bound⟩ : Fin slots) ≠ slot := by
          intro same
          rw [same, unused] at marked
          cases marked
        have kept := pageAt_other apart s.disk.sectors 8
          (s.words (frameOf (s.words page.table page.index)))
        rw [sectors]
        exact congrArg some kept
      · rfl
  · rw [sets.leaves r live' p]
    split_ifs with here
    · obtain ⟨rfl, follows⟩ := here
      have same : leafAt s.words r p = s.words page.table page.index :=
        (entryAt_indexes fun j low => follows j low).trans leaf
      rw [same, steady_outEntry]
    · rfl
  · refine together_leaf sets (fun r live' p there' present' same => ?_)
      (fun r live' p there' => ?_) live' live'' p p'
    · exact page_alone books member there' single live' present' same
    · rw [present_outEntry] at there'
      cases there'

end Out

section Hands

variable {frame : Word}

theorem Unseen.fill (books : Books s managed live (frame :: hand) chain) (contents : Table)
    {disk : Disk} (same : disk.sectors = s.disk.sectors) :
    Unseen s { s.fill frame contents with disk := disk } live := by
  refine Unseen.elsewhere (fun f there => Function.update_of_ne (fun here => ?_) _ _)
    (fun f there => Function.update_of_ne (fun here => ?_) _ _) (fun r member p out => ?_)
  · rw [here, books.held.2.1] at there
    exact Nat.lt_irrefl 0 there
  · rw [here, books.held.1] at there
    exact Nat.lt_irrefl 0 there
  · change Paging.pageAt disk.sectors _ = _
    rw [same]

theorem Unseen.give (books : Books s managed live (frame :: hand) chain) :
    Unseen s (s.deallocate frame) live := by
  refine Unseen.elsewhere (fun f there => Function.update_of_ne (fun here => ?_) _ _)
    (fun f there => Function.update_of_ne (fun here => ?_) _ _) (fun r member p out => rfl)
  · rw [here, books.held.2.1] at there
    exact Nat.lt_irrefl 0 there
  · rw [here, books.held.1] at there
    exact Nat.lt_irrefl 0 there

theorem slotsHeld_kept (held : SlotsHeld s live) (trees : TreesKept s.words s'.words live)
    (used : s'.used = s.used) : SlotsHeld s' live where
  once slot := by
    refine le_of_eq_of_le (forest_entries (outIn_blank slot) fun r member q => ?_) (held.once slot)
    exact congrArg (outIn slot) (trees.leaves r member q)
  used r member p out := by
    rw [trees.leaves r member p] at out ⊢
    rw [used]
    exact held.used r member p out

end Hands

/-- What sending a page out for somebody else leaves: what programs see, the pages
that are out already, and the ways to all of them. -/
structure Quiet (s t : Paging) (live : Finset Word) : Prop where
  unseen : Unseen s t live
  absent : ∀ r ∈ live, ∀ p, has (leafAt s.words r p) present = false →
    ageless (leafAt t.words r p) = ageless (leafAt s.words r p)
  routes : ∀ r ∈ live, ∀ p k u, Route userTree s.words p 3 r k u → Route userTree t.words p 3 r k u
  cr3 : t.cr3 = s.cr3
  answers : t.disk.answers = s.disk.answers
  log : ∃ more, t.disk.written = s.disk.written ++ more ∧
    ∀ n ∈ more, swapStart ≤ n ∧ n < swapStart + slots * sectorsPerPage

theorem Quiet.refl (s : Paging) (live : Finset Word) : Quiet s s live :=
  ⟨Unseen.refl s live, fun _ _ _ _ => rfl, fun _ _ _ _ _ route => route, rfl, rfl,
    [], (List.append_nil _).symm, fun _ member => absurd member List.not_mem_nil⟩

theorem Quiet.trans (first : Quiet s s' live) (second : Quiet s' s'' live) : Quiet s s'' live where
  unseen := first.unseen.trans second.unseen
  absent r member p out := by
    have same := first.absent r member p out
    exact (second.absent r member p ((present_ageless same).trans out)).trans same
  routes r member p k u route := second.routes r member p k u (first.routes r member p k u route)
  cr3 := second.cr3.trans first.cr3
  answers := second.answers.trans first.answers
  log := by
    obtain ⟨more, grown, inside⟩ := first.log
    obtain ⟨more', grown', inside'⟩ := second.log
    refine ⟨more ++ more', by rw [grown', grown, List.append_assoc], fun n member => ?_⟩
    rcases List.mem_append.mp member with here | here
    · exact inside n here
    · exact inside' n here

theorem Quiet.aging (books : Books s managed live hand chain) (aging : Aging s s' live) :
    Quiet s s' live :=
  ⟨Unseen.aging books aging, fun r member p _ => aging.leaves r member p, aging.routes, aging.cr3,
    by rw [aging.disk], [], by rw [aging.disk, List.append_nil],
    fun _ member => absurd member List.not_mem_nil⟩

theorem written_inside (s : Paging) (slot : Fin slots) (frame : Word) :
    ∃ more, (s.writeOut slot.val frame).2.disk.written = s.disk.written ++ more ∧
      ∀ n ∈ more, swapStart ≤ n ∧ n < swapStart + slots * sectorsPerPage := by
  have bound : slot.val < 2048 := slot.isLt
  refine ⟨_, rfl, fun n member => ?_⟩
  obtain ⟨j, low, rfl⟩ := List.mem_map.mp member
  have small := List.mem_range.mp low
  rw [slotLba_eq]
  unfold sectorsPerPage at small
  unfold slots sectorsPerPage
  omega

theorem evicts_quiet {answer : Option Word × Paging} (evicts : Evicts s live root answer)
    (books : Books s managed live hand chain) (held : SlotsHeld s live) (member : root ∈ live) :
    Quiet s answer.2 live ∧ SlotsHeld answer.2 live ∧
      Books answer.2 managed live (answer.1.toList ++ hand) chain := by
  classical
  cases evicts with
  | nothing aging stuck =>
      exact ⟨Quiet.aging books aging, held.aging aging, aging.books books⟩
  | failed aging able slot frame unused error =>
      rename_i aged
      have books' := aging.books books
      have held' := held.aging aging
      refine ⟨(Quiet.aging books aging).trans ⟨Unseen.elsewhere (fun _ _ => rfl) (fun _ _ => rfl)
        fun r live' p out => ?_, fun _ _ _ _ => rfl, fun _ _ _ _ _ route => route, rfl, rfl,
        written_inside aged slot frame⟩, slotsHeld_kept held' (trees_kept fun _ _ => rfl) rfl,
        books'.congr rfl rfl rfl rfl⟩
      obtain ⟨bound, marked⟩ := held'.used r live' p out
      have apart : (⟨slotOf (leafAt aged.words r p), bound⟩ : Fin slots) ≠ slot := by
        intro same
        rw [same, unused] at marked
        cases marked
      exact pageAt_other apart aged.disk.sectors _ _
  | out aging able page slot on there resident alone unused written =>
      rename_i aged
      have books' := aging.books books
      have held' := held.aging aging
      have sets := sentOut_leaf slot books' member on
      refine ⟨(Quiet.aging books aging).trans ⟨sentOut_unseen books' held' member on there alone
        unused written, fun r live' p out => ?_, sets.routes, ?_, ?_, ?_⟩,
        sentOut_slots books' held' member on there unused, sentOut_books books' member on there alone⟩
      · rw [sets.leaves r live' p]
        split_ifs with here
        · obtain ⟨rfl, follows⟩ := here
          have same : leafAt aged.words r p = aged.words page.table page.index :=
            (entryAt_indexes fun j low => follows j low).trans on.leaf
          rw [same, there] at out
          cases out
        · rfl
      · unfold sentOut
        rw [noteEvicted_eq]
        rfl
      · unfold sentOut
        rw [noteEvicted_eq]
        rfl
      · unfold sentOut
        rw [noteEvicted_eq]
        exact written_inside aged slot _

theorem allocateOrEvict_quiet (books : Books s managed live hand chain) (held : SlotsHeld s live)
    (member : s.cr3 ∈ live) :
    Quiet s (allocateOrEvict s).2 live ∧ SlotsHeld (allocateOrEvict s).2 live ∧
      ∃ chain', Books (allocateOrEvict s).2 managed live ((allocateOrEvict s).1.toList ++ hand)
        chain' := by
  unfold allocateOrEvict
  cases chain with
  | nil =>
      rw [books.account.allocate_none]
      obtain ⟨quiet, held', books'⟩ :=
        evicts_quiet (evictOne_spec books member) books held member
      exact ⟨quiet, held', [], books'⟩
  | cons frame rest =>
      obtain ⟨taken, books'⟩ := books.take
      rw [taken]
      refine ⟨⟨⟨fun _ _ _ => rfl, fun _ _ _ => rfl, fun _ _ _ _ _ _ => Iff.rfl⟩, fun _ _ _ _ => rfl,
        fun _ _ _ _ _ route => route, rfl, rfl, [], (List.append_nil _).symm,
        fun _ member => absurd member List.not_mem_nil⟩, slotsHeld_kept held (trees_kept fun _ _ => rfl) rfl,
        rest, books'⟩

end FiveAM.Memory.Contents
