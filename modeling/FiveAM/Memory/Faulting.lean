/- GID: FiveAM/Memory/Faulting
   source: kernel/src/interrupts.rs, kernel/src/memory.rs
   digest: A page fault on a page that is out: when the page fault handler keeps it. -/

import FiveAM.Memory.Conservation

set_option autoImplicit false
set_option relaxedAutoImplicit false

namespace FiveAM.Memory.Faulting

open FiveAM.Process.TaskTable (Word)
open FiveAM.Memory.Entries FiveAM.Memory.Frames FiveAM.Memory.Replace FiveAM.Memory.PageTables
open FiveAM.Memory.Swap FiveAM.Memory.Ownership FiveAM.Memory.Residency FiveAM.Memory.Choosing
open FiveAM.Memory.Eviction FiveAM.Memory.Contents FiveAM.Memory.Return FiveAM.Memory.Spaces
open FiveAM.Memory.Conservation FiveAM.Lib.RadixTables FiveAM.Lib.Runs

/-- The transfer after the next `n` will fail. -/
def Fails (s : Paging) (n : Nat) : Prop := (s.disk.answers (s.disk.transfers + n)).isNone = false

section Frames

variable {s : Paging} {managed live : Finset Word} {hand chain : List Word}

/-- Where a frame comes from, or why there is none. -/
inductive Obtains (s : Paging) : Option Word × Paging → Prop where
  | free {frame : Word} {t : Paging} (there : s.head ≠ 0) (disk : t.disk = s.disk) :
      Obtains s (some frame, t)
  | stuck {t : Paging} (empty : s.head = 0) (unable : ¬Evictable s s.cr3) (disk : t.disk = s.disk)
      (head : t.head = 0) (still : ¬Evictable t t.cr3) : Obtains s (none, t)
  | failed {t : Paging} (empty : s.head = 0) (able : Evictable s s.cr3) (error : Fails s 0)
      (answers : t.disk.answers = s.disk.answers)
      (transfers : t.disk.transfers = s.disk.transfers + 1) (head : t.head = 0)
      (still : Evictable t t.cr3) : Obtains s (none, t)
  | out {frame : Word} {t : Paging} (empty : s.head = 0) (able : Evictable s s.cr3)
      (fine : ¬Fails s 0) (answers : t.disk.answers = s.disk.answers)
      (transfers : t.disk.transfers = s.disk.transfers + 1) : Obtains s (some frame, t)

theorem allocateOrEvict_obtains (books : Books s managed live hand chain) (member : s.cr3 ∈ live) :
    Obtains s (allocateOrEvict s) := by
  unfold allocateOrEvict
  cases chain with
  | nil =>
      have empty := books.account.empty_iff.mpr rfl
      rw [books.account.allocate_none]
      have evicts := evictOne_spec books member
      dsimp only
      generalize evictOne s s.cr3 = answer at evicts ⊢
      cases evicts with
      | nothing aging stuck =>
          refine .stuck empty stuck aging.disk (aging.head.trans empty) ?_
          rw [aging.cr3, evictable_aging aging member]
          exact stuck
      | @failed aged aging able slot frame unused error =>
          have same : Evictable aged s.cr3 ↔ Evictable s s.cr3 := evictable_aging aging member
          have failed : Fails s 0 := by
            unfold Fails
            rw [aging.disk] at error
            exact error
          refine .failed empty able failed ?_ ?_ (aging.head.trans empty) ?_
          · rw [← aging.disk]
            rfl
          · rw [← aging.disk]
            rfl
          · change Evictable aged aged.cr3
            rw [aging.cr3, same]
            exact able
      | @out aged aging able page slot on there resident alone unused written =>
          rw [aging.disk] at written
          refine .out empty able (fun failed => absurd (failed.symm.trans written) (by decide)) ?_ ?_
          · rw [← aging.disk]
            unfold sentOut
            rw [noteEvicted_eq]
            rfl
          · rw [← aging.disk]
            unfold sentOut
            rw [noteEvicted_eq]
            rfl
  | cons frame rest =>
      rw [books.take.1]
      refine .free (fun zero => ?_) rfl
      exact absurd (books.account.empty_iff.mp zero) (by simp)

end Frames

/-- The next call of `allocate_or_evict` finds a frame. -/
def Obtainable (s : Paging) : Prop := s.head ≠ 0 ∨ Evictable s s.cr3 ∧ ¬Fails s 0

theorem Obtains.iff {s : Paging} {answer : Option Word × Paging} (obtains : Obtains s answer) :
    answer.1.isSome = true ↔ Obtainable s := by
  unfold Obtainable
  cases obtains with
  | free there disk => exact iff_of_true rfl (Or.inl there)
  | stuck empty unable disk head still => simp [empty, unable]
  | failed empty able error answers transfers head still => simp [empty, error]
  | out empty able fine answers transfers => simp [able, fine]

section Pages

variable {s : Paging} {managed live : Finset Word} {hand chain : List Word} {address : Word}

theorem cowFault_absent (low : indexes address 3 = 0)
    (absent : has (leafAt s.words s.cr3 (indexes address)) present = false) :
    cowFault s address = (false, s) := by
  have page : indexes (pageOf address) 3 = 0 := by rw [indexes_pageOf]; exact low
  unfold cowFault
  dsimp only
  split_ifs
  · rfl
  cases found : plainTable s (pageOf address) 3 s.cr3 with
  | none => rfl
  | some u =>
      have route := ((plainTable_iff page).mp found).indexes (p := indexes address)
        fun j _ _ => (indexes_pageOf address j).symm
      rw [leafAt, entryAt_route route] at absent
      dsimp only
      rw [indexes_pageOf, if_pos (Or.inl absent)]

theorem translateFrom_absent {path : Nat → Index} {level : Nat} {table u : Word}
    (route : Route userTree s.words path level table 0 u)
    (same : ∀ j, j ≤ level → indexes address j = path j)
    (absent : has (s.words u (path 0)) present = false) :
    translateFrom s address level table = none := by
  generalize bottom : 0 = l at route
  induction route with
  | here n t =>
      subst bottom
      unfold translateFrom
      rw [same 0 (Nat.le_refl 0), if_pos absent]
  | @down n k t c u step rest ih =>
      obtain ⟨there, small, -, rfl⟩ := child_some step
      unfold translateFrom
      dsimp only
      rw [same (n + 1) (Nat.le_refl _), if_neg (by simp [there]), if_neg (by simp [small]),
        ih (fun j low => same j (Nat.le_succ_of_le low)) absent bottom]
      rfl

def Promised (top limit address : Word) : Prop :=
  top ≠ 0 ∧ ¬top ≤ address ∧ ¬pageOf address < limit

theorem demandFault_absent {u top limit : Word}
    (route : Route userTree s.words (indexes address) 3 s.cr3 0 u)
    (absent : has (s.words u (indexes address 0)) present = false)
    (promised : Promised top limit address) :
    demandFault s top limit address =
      match allocateOrEvict s with
      | (none, t) => (none, t)
      | (some frame, t) =>
          match mapPage t (pageOf address) frame (user ||| writable) with
          | (.error _, t) => (none, t)
          | (.ok _, t) => (some (pageOf address), t.fill frame fun _ => 0) := by
  have nowhere : translate s (pageOf address) = none :=
    translateFrom_absent route (fun j _ => indexes_pageOf address j) absent
  unfold demandFault
  rw [if_neg (by
    rw [not_or]
    exact ⟨promised.1, promised.2.1⟩)]
  dsimp only
  rw [if_neg promised.2.2, nowhere]
  exact if_neg (by decide)

/-- The transfers go so that the first handler fails and the second finds a frame. -/
def Slips (s : Paging) : Prop :=
  s.head ≠ 0 ∧ Fails s 0 ∨ s.head = 0 ∧ Evictable s s.cr3 ∧ (Fails s 0 ↔ ¬Fails s 1)

/-- How `swap_in` ends on a page that is out. -/
inductive Tries (s : Paging) (managed live : Finset Word) (hand : List Word) (address : Word) :
    Bool × Paging → Prop where
  | back {t : Paging} (fine : ¬Slips s)
      (there : has (leafAt t.words s.cr3 (indexes address)) present = true)
      (holds : t.words (frameOf (leafAt t.words s.cr3 (indexes address))) =
        Paging.pageAt s.disk.sectors
          (Paging.slotLba (slotOf (leafAt s.words s.cr3 (indexes address)))))
      (released : ∃ bound : slotOf (leafAt s.words s.cr3 (indexes address)) < slots,
        t.used ⟨_, bound⟩ = false) :
      Tries s managed live hand address (true, t)
  | out {t : Paging} {chain : List Word} (books : Books t managed live hand chain)
      (held : SlotsHeld t live) (active : t.cr3 = s.cr3)
      (same : ageless (leafAt t.words s.cr3 (indexes address)) =
        ageless (leafAt s.words s.cr3 (indexes address)))
      (next : Obtainable t ↔ Slips s) : Tries s managed live hand address (false, t)

private theorem obtainable_given {frame : Word} (books : Books s managed live (frame :: hand) chain) :
    Obtainable (s.deallocate frame) :=
  Or.inl (books.account.framed frame books.held.2.2.2.2).1

theorem swapIn_tries (books : Books s managed live hand chain) (held : SlotsHeld s live)
    (member : s.cr3 ∈ live) (low : indexes address 3 = 0)
    (out : isSwappedEntry (leafAt s.words s.cr3 (indexes address)) = true) :
    Tries s managed live hand address (swapIn s address) := by
  have absent : has (leafAt s.words s.cr3 (indexes address)) present = false := by
    unfold isSwappedEntry at out
    simp only [Bool.and_eq_true, Bool.not_eq_true'] at out
    exact out.1
  have mark : has (leafAt s.words s.cr3 (indexes address)) swapped = true := by
    unfold isSwappedEntry at out
    simp only [Bool.and_eq_true] at out
    exact out.2
  rcases route_of_entryAt (R := userTree) s.words 3 s.cr3 (indexes address) with
    ⟨u, route, reads⟩ | blank
  swap
  · rw [leafAt, blank] at out
    exact absurd out (by decide)
  obtain ⟨quiet, held1, chain1, books1⟩ := allocateOrEvict_quiet books held member
  have obtains := allocateOrEvict_obtains books member
  have word : s.words u (indexes address 0) = leafAt s.words s.cr3 (indexes address) := reads.symm
  rw [swapIn_out low route (by rw [word]; exact out), word]
  rcases got : allocateOrEvict s with ⟨_ | frame, t⟩
  · rw [got] at quiet held1 books1 obtains
    refine .out books1 held1 quiet.cr3 (quiet.absent s.cr3 member _ absent) ?_
    unfold Obtainable Slips
    cases obtains with
    | stuck empty unable disk head still => simp [empty, unable, head, still]
    | failed empty able error answers transfers head still =>
        have shift : Fails t 0 ↔ Fails s 1 := by
          unfold Fails
          rw [answers, transfers]
        simp [empty, able, error, head, still, shift]
  · rw [got] at quiet held1 books1 obtains
    have route1 := quiet.routes s.cr3 member _ 0 u route
    have same := quiet.absent s.cr3 member _ absent
    have word1 : t.words u (indexes address 0) = leafAt t.words s.cr3 (indexes address) := by
      rw [leafAt, entryAt_route route1]
    have slips : Slips s ↔ Fails t 0 := by
      unfold Slips
      cases obtains with
      | free there disk =>
          have shift : Fails t 0 ↔ Fails s 0 := by
            unfold Fails
            rw [disk]
          rw [shift]
          exact ⟨fun slip => slip.elim (fun both => both.2) fun both => absurd both.1 there,
            fun failed => Or.inl ⟨there, failed⟩⟩
      | out empty able fine answers transfers =>
          have shift : Fails t 0 ↔ Fails s 1 := by
            unfold Fails
            rw [answers, transfers]
          simp [empty, able, fine, shift]
    dsimp only
    by_cases read : (t.disk.answers t.disk.transfers).isNone = true
    · rw [if_pos read]
      obtain ⟨unseen, -, -, sets, ⟨bound, marks⟩, holds⟩ := broughtIn_spec (pageOf address)
        books1 held1 member route1 (by rw [word1]; exact same) out read
      have framed := books1.account.framed frame books1.held.2.2.2.2
      have leaf : leafAt (broughtIn t u (indexes address 0) frame
          (leafAt s.words s.cr3 (indexes address)) (pageOf address)).words s.cr3 (indexes address) =
          inEntry frame (leafAt s.words s.cr3 (indexes address)) := by
        classical
        rw [sets.leaves s.cr3 member, if_pos ⟨rfl, fun _ _ => rfl⟩]
      have slot : Paging.pageAt t.disk.sectors
            (Paging.slotLba (slotOf (leafAt s.words s.cr3 (indexes address)))) =
          Paging.pageAt s.disk.sectors
            (Paging.slotLba (slotOf (leafAt s.words s.cr3 (indexes address)))) := by
        have kept := quiet.unseen.contents s.cr3 member (indexes address)
        unfold contents heldBy at kept
        rw [present_ageless same, swapped_ageless same, slotOf_ageless same, if_neg (by simp [absent]),
          if_pos mark, if_neg (by simp [absent]), if_pos mark] at kept
        exact Option.some.inj kept
      refine .back (fun slip => ?_) ?_ ?_ ⟨bound, ?_⟩
      · have failed := slips.mp slip
        exact absurd (failed.symm.trans read) (by decide)
      · rw [leaf]
        exact present_inEntry _ _
      · rw [leaf, frameOf_inEntry framed, holds, slot]
      · rw [marks, Function.update_self]
    · rw [if_neg read]
      obtain ⟨quiet1, held2, books2, trees⟩ := readIn_quiet books1 held1
        (slotOf (leafAt s.words s.cr3 (indexes address)))
      obtain ⟨kept, books3⟩ := books2.give
      refine .out books3 (slotsHeld_kept held2 kept rfl) quiet.cr3 ?_ ?_
      · rw [kept.leaves s.cr3 member, trees.leaves s.cr3 member]
        exact same
      · exact iff_of_true (obtainable_given books2)
          (slips.mpr (Bool.eq_false_of_not_eq_true read))

/-- The page of a fault is back with what its slot held and the slot is free, or it
is still out in that slot. -/
def PageKept (s t : Paging) (address : Word) : Prop :=
  (has (leafAt t.words s.cr3 (indexes address)) present = true ∧
      t.words (frameOf (leafAt t.words s.cr3 (indexes address))) = Paging.pageAt s.disk.sectors
        (Paging.slotLba (slotOf (leafAt s.words s.cr3 (indexes address)))) ∧
      ∃ bound : slotOf (leafAt s.words s.cr3 (indexes address)) < slots,
        t.used ⟨_, bound⟩ = false) ∨
    isSwappedEntry (leafAt t.words s.cr3 (indexes address)) = true ∧
      slotOf (leafAt t.words s.cr3 (indexes address)) =
        slotOf (leafAt s.words s.cr3 (indexes address))

theorem pageKept_same {t : Paging} (out : isSwappedEntry (leafAt s.words s.cr3 (indexes address)) = true)
    (same : ageless (leafAt t.words s.cr3 (indexes address)) =
      ageless (leafAt s.words s.cr3 (indexes address))) : PageKept s t address :=
  Or.inr ⟨(isSwapped_ageless same).trans out, slotOf_ageless same⟩

theorem page_filled {frame : Word} (books : Books s managed live hand chain)
    (named : 0 < refCount s.words live frame) (contents : Table) :
    TreesKept s.words (s.fill frame contents).words live := by
  refine trees_kept fun f there => Function.update_of_ne (fun same => ?_) _ _
  rw [same, (books.page named).1] at there
  exact Nat.lt_irrefl 0 there

theorem demandFault_out {t : Paging} (books : Books t managed live hand chain)
    (held : SlotsHeld t live) (member : s.cr3 ∈ live) (active : t.cr3 = s.cr3)
    (low : indexes address 3 = 0)
    (out : isSwappedEntry (leafAt s.words s.cr3 (indexes address)) = true)
    (same : ageless (leafAt t.words s.cr3 (indexes address)) =
      ageless (leafAt s.words s.cr3 (indexes address))) (top limit : Word) :
    PageKept s (demandFault t top limit address).2 address ↔
      ¬(Promised top limit address ∧ Obtainable t) := by
  classical
  by_cases promised : Promised top limit address
  swap
  · have refused : (demandFault t top limit address).2 = t := by
      unfold demandFault
      by_cases outside : top = 0 ∨ top ≤ address
      · rw [if_pos outside]
      · rw [if_neg outside]
        rw [not_or] at outside
        dsimp only
        rw [if_pos]
        by_contra high
        exact promised ⟨outside.1, outside.2, high⟩
    rw [refused]
    exact iff_of_true (pageKept_same out same) fun both => promised both.1
  rw [← active] at member
  have out1 : isSwappedEntry (leafAt t.words t.cr3 (indexes address)) = true := by
    rw [active]
    exact (isSwapped_ageless same).trans out
  rcases route_of_entryAt (R := userTree) t.words 3 t.cr3 (indexes address) with
    ⟨u, route, reads⟩ | blank
  swap
  · rw [leafAt, blank] at out1
    exact absurd out1 (by decide)
  have absent : has (leafAt t.words t.cr3 (indexes address)) present = false := by
    unfold isSwappedEntry at out1
    simp only [Bool.and_eq_true, Bool.not_eq_true'] at out1
    exact out1.1
  obtain ⟨quiet, held1, chain1, books1⟩ := allocateOrEvict_quiet books held member
  have obtains := (allocateOrEvict_obtains books member).iff
  have same1 := quiet.absent t.cr3 member _ absent
  rw [demandFault_absent route (by rw [← reads]; exact absent) promised]
  rcases got : allocateOrEvict t with ⟨_ | frame, t1⟩
  · rw [got] at quiet same1 obtains
    refine iff_of_true (pageKept_same out ?_) fun both => ?_
    · rw [← active]
      rw [← active] at same
      exact same1.trans same
    · exact absurd (obtains.mpr both.2) (by simp)
  · rw [got] at quiet same1 obtains held1 books1
    refine iff_of_false ?_ fun neither => neither ⟨promised, obtains.mp rfl⟩
    have page : indexes (pageOf address) 3 = 0 := by rw [indexes_pageOf]; exact low
    have member1 : t1.cr3 ∈ live := by
      rw [quiet.cr3]
      exact member
    have leaf1 : leafAt t1.words t1.cr3 (indexes (pageOf address)) =
        leafAt t1.words t.cr3 (indexes address) := by
      rw [quiet.cr3]
      exact entryAt_indexes fun j _ => indexes_pageOf address j
    have route1 : Route userTree t1.words (indexes (pageOf address)) 3 t1.cr3 0 u := by
      rw [quiet.cr3]
      exact (quiet.routes t.cr3 member _ 0 u route).indexes fun j _ _ => indexes_pageOf address j
    have complete : missing t1.words t1.cr3 (pageOf address) = 0 := by
      unfold missing lacking
      rw [passed_route route1]
      omega
    have flags : frameOf (user ||| writable) = 0 := by decide
    have mapping := mapPageIn_spec frame (user ||| writable) books1 member1 page
    unfold mapPage
    dsimp only
    generalize mapPageIn t1 t1.cr3 (pageOf address) frame (user ||| writable) = answer at mapping ⊢
    cases mapping with
    | short few books2 builds =>
        rw [complete] at few
        exact absurd few (Nat.not_lt_zero _)
    | taken there books2 builds =>
        rw [leaf1, present_ageless same1, absent] at there
        cases there
    | @mapped s2 v room absent1 books2 builds route2 =>
        obtain ⟨books3, maps⟩ := mapped_fresh _ books2 builds member1 route2 absent1 flags
        have used3 := maps.used
        have leaf3 := maps.leaves t1.cr3 member1 (indexes (pageOf address))
        rw [if_pos ⟨rfl, fun _ _ => rfl⟩] at leaf3
        generalize arrived (s2.write v (indexes (pageOf address) 0)
            (leafFor frame (user ||| writable))) (pageOf address) (user ||| writable) = s3
          at books3 used3 leaf3 ⊢
        have framed := books1.account.framed frame books1.held.2.2.2.2
        have there3 : has (leafAt s3.words t1.cr3 (indexes (pageOf address))) present = true := by
          rw [leaf3]
          exact present_leafFor _ _
        have named := refCount_pos member1 there3
        rw [leaf3, frameOf_leafFor flags, framed.2] at named
        have trees := page_filled books3 named fun _ => 0
        have leaf4 : leafAt (s3.fill frame fun _ => 0).words s.cr3 (indexes address) =
            leafAt s3.words t1.cr3 (indexes (pageOf address)) := by
          rw [← active, ← quiet.cr3, trees.leaves t1.cr3 member1]
          exact entryAt_indexes fun j _ => (indexes_pageOf address j).symm
        rintro (⟨-, -, bound, released⟩ | ⟨still, -⟩)
        · obtain ⟨bound', marked⟩ := held1.used t.cr3 member _ ((isSwapped_ageless same1).trans out1)
          have slot : slotOf (leafAt t1.words t.cr3 (indexes address)) =
              slotOf (leafAt s.words s.cr3 (indexes address)) := by
            rw [slotOf_ageless same1, active]
            exact slotOf_ageless same
          simp only [slot] at marked
          change s3.used _ = false at released
          rw [used3, marked] at released
          cases released
        · rw [leaf4] at still
          simp [isSwappedEntry, there3] at still

/-- The fault is for a page that is not there, on the task's stack, and `demand_fault`
gets to it with a frame to map. -/
def Overwrites (s : Paging) (top limit address error : Word) : Prop :=
  has error present = false ∧ Promised top limit address ∧ Slips s

private theorem kept_or_overwritten (books : Books s managed live hand chain) (held : SlotsHeld s live)
    (member : s.cr3 ∈ live)
    (out : isSwappedEntry (leafAt s.words s.cr3 (indexes address)) = true)
    (top limit error : Word) :
    PageKept s (pageFault s top limit address error).2 address ↔
      ¬Overwrites s top limit address error := by
  have low : indexes address 3 = 0 := by
    by_contra high
    have none : userTree.child 3 (indexes address 3) (s.words s.cr3 (indexes address 3)) = none :=
      if_neg fun all => high (all.2.2 rfl)
    rw [leafAt, entryAt_stop none] at out
    exact absurd out (by decide)
  have absent : has (leafAt s.words s.cr3 (indexes address)) present = false := by
    unfold isSwappedEntry at out
    simp only [Bool.and_eq_true, Bool.not_eq_true'] at out
    exact out.1
  have copied : (if has error present ∧ has error writable then cowFault s address else (false, s)) =
      (false, s) := by
    split_ifs
    · exact cowFault_absent low absent
    · rfl
  unfold pageFault Overwrites
  rw [copied]
  dsimp only
  rw [if_neg (by decide)]
  cases protection : has error present with
  | true =>
      rw [if_pos rfl]
      exact iff_of_true (pageKept_same out rfl) fun all => absurd all.1 (by decide)
  | false =>
      rw [if_neg (by decide)]
      have tries := swapIn_tries books held member low out
      generalize swapIn s address = answer at tries ⊢
      cases tries with
      | back fine there holds released =>
          exact iff_of_true (Or.inl ⟨there, holds, released⟩) fun all => fine all.2.2
      | @out t chain1 books1 held1 active same next =>
          have kept := demandFault_out books1 held1 member active low out same top limit
          rw [next] at kept
          simp only [true_and]
          rw [← kept]
          rcases demandFault t top limit address with ⟨_ | found, t1⟩
          · rfl
          · rfl

/-- The page fault handler keeps a page that is out, unless bringing it back fails
where a new page of the stack can be made. -/
theorem pageFault_kept_iff (books : Books s managed live hand chain) (held : SlotsHeld s live)
    (member : s.cr3 ∈ live)
    (out : isSwappedEntry (leafAt s.words s.cr3 (indexes address)) = true)
    (top limit error : Word) :
    PageKept s (pageFault s top limit address error).2 address ↔
      ¬Overwrites s top limit address error :=
  kept_or_overwritten books held member out top limit error

end Pages

section Stack

private theorem stack_out (answers : Nat → Option Nat) : ∃ s managed chain,
    Books s managed {0x100000} [] chain ∧ SlotsHeld s {0x100000} ∧ s.cr3 = 0x100000 ∧
      isSwappedEntry (leafAt s.words s.cr3 (indexes 0x10f000)) = true ∧ s.head ≠ 0 ∧
      s.disk.transfers = 1 ∧ s.disk.answers = answers := by
  obtain ⟨k, run, reached, -⟩ := spaceWith_reached 0x10f000 (by decide +kernel) (by decide +kernel)
  have taken : ((runAll Conservation.step (booted sixFrames) (spaceWith 0x10f000)).bind fun k =>
      runAll Conservation.step k [.activate 0x100000, .evict 0x100000, .give 0x101000]).any (fun k =>
        decide (k.live = {0x100000} ∧ k.lost = ∅ ∧ k.hand = [] ∧ k.paging.cr3 = 0x100000 ∧
          isSwappedEntry (leafAt k.paging.words 0x100000 (indexes 0x10f000)) = true ∧
          k.paging.head ≠ 0 ∧ k.paging.disk.transfers = 1)) = true := by decide +kernel
  rw [run, Option.bind_some] at taken
  obtain ⟨k', out, shape⟩ := (Option.any_eq_true ..).mp taken
  obtain ⟨live', lost', hand', active, swapped, some, transfers⟩ := of_decide_eq_true shape
  have fair : allAllowed Conservation.step Spares k
      [.activate 0x100000, .evict 0x100000, .give 0x101000] :=
    ⟨trivial, fun _ _ => ⟨trivial, fun _ _ => ⟨trivial, fun _ _ => trivial⟩⟩⟩
  have later := reached.runAll fair out
  obtain ⟨managed, sane⟩ := reached_sane later
  obtain ⟨chain, books⟩ := sane.books
  have slots := sane.slots.held
  rw [Machine.all, live', lost', Finset.union_empty] at books slots
  rw [hand'] at books
  refine ⟨{ k'.paging with disk := { k'.paging.disk with answers := answers } }, managed, chain,
    books.congr rfl rfl rfl rfl, ⟨slots.once, slots.used⟩, active, ?_, some, transfers, rfl⟩
  rw [active]
  exact swapped

/-- With transfers that succeed the page comes back. -/
theorem pageFault_kept_fine : ∃ s, isSwappedEntry (leafAt s.words s.cr3 (indexes 0x10f000)) = true ∧
    PageKept s (pageFault s 0x110000 0xd0000 0x10f000 0).2 0x10f000 := by
  obtain ⟨s, managed, chain, books, held, active, out, there, transfers, answers⟩ :=
    stack_out fun _ => none
  have member : s.cr3 ∈ ({0x100000} : Finset Word) := by
    rw [active]
    exact Finset.mem_singleton_self _
  refine ⟨s, out, (pageFault_kept_iff books held member out 0x110000 0xd0000 0).mpr ?_⟩
  rintro ⟨-, -, ⟨-, failed⟩ | ⟨empty, -⟩⟩
  · unfold Fails at failed
    rw [answers] at failed
    cases failed
  · exact there empty

/-- The read of the page fails, and a zeroed page is mapped over it. -/
theorem stack_page_discarded : ¬∀ (s : Paging) (managed live : Finset Word) (hand chain : List Word)
    (top limit address error : Word), Books s managed live hand chain → SlotsHeld s live →
      s.cr3 ∈ live → isSwappedEntry (leafAt s.words s.cr3 (indexes address)) = true →
        PageKept s (pageFault s top limit address error).2 address := by
  intro always
  obtain ⟨s, managed, chain, books, held, active, out, there, transfers, answers⟩ :=
    stack_out fun n => if n = 1 then some 0 else none
  have member : s.cr3 ∈ ({0x100000} : Finset Word) := by
    rw [active]
    exact Finset.mem_singleton_self _
  refine (kept_or_overwritten books held member out 0x110000 0xd0000 0).mp
    (always s managed _ _ chain 0x110000 0xd0000 0x10f000 0 books held member out) ?_
  refine ⟨by decide, ⟨by decide, by decide, by decide⟩, Or.inl ⟨there, ?_⟩⟩
  unfold Fails
  rw [answers, transfers]
  rfl

end Stack

end FiveAM.Memory.Faulting
