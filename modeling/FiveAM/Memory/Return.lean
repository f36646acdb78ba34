/- GID: FiveAM/Memory/Return
   source: kernel/src/memory.rs, kernel/src/swap.rs
   digest: Bringing a page back from its slot, with every way the disk may answer. -/

import FiveAM.Memory.Contents

set_option autoImplicit false
set_option relaxedAutoImplicit false

namespace FiveAM.Memory.Return

open FiveAM.Process.TaskTable (Word)
open FiveAM.Memory.Entries FiveAM.Memory.Frames FiveAM.Memory.Replace FiveAM.Memory.PageTables
open FiveAM.Memory.Swap FiveAM.Memory.Ownership FiveAM.Memory.Residency FiveAM.Memory.Choosing
open FiveAM.Memory.Eviction FiveAM.Memory.Contents FiveAM.Lib.RadixTables

variable {s t : Paging} {managed live : Finset Word} {hand chain : List Word} {root : Word}
  {address : Word}

theorem plainTable_iff (low : indexes address 3 = 0) {n : Nat} {table u : Word} :
    plainTable s address n table = some u ↔ Route userTree s.words (indexes address) n table 0 u := by
  induction n generalizing table with
  | zero =>
      constructor
      · intro here
        cases here
        exact .here 0 _
      · intro route
        cases route
        rfl
  | succ n ih =>
      have child : userTree.child (n + 1) (indexes address (n + 1))
          (s.words table (indexes address (n + 1))) =
          if has (s.words table (indexes address (n + 1))) present = false ∨
            has (s.words table (indexes address (n + 1))) huge = true then none
          else some (frameOf (s.words table (indexes address (n + 1)))) := by
        have slot : n + 1 = 3 → indexes address (n + 1) = 0 := fun top => top ▸ low
        cases there : has (s.words table (indexes address (n + 1))) present with
        | false => simp [userTree, there]
        | true =>
            cases big : has (s.words table (indexes address (n + 1))) huge with
            | true => simp [userTree, big]
            | false =>
                rw [if_neg (by simp)]
                exact if_pos ⟨there, big, slot⟩
      unfold plainTable
      dsimp only
      split_ifs with stops
      · rw [if_pos stops] at child
        refine ⟨fun never => (by cases never), fun route => ?_⟩
        cases route with
        | down step _ =>
            rw [child] at step
            cases step
      · rw [if_neg stops] at child
        rw [ih]
        refine ⟨fun rest => .down child rest, fun route => ?_⟩
        cases route with
        | down step rest =>
            rw [child, Option.some.injEq] at step
            rw [step]
            exact rest

theorem page_toNat (address : Word) : (pageOf address).toNat / 2 ^ 12 = address.toNat / 2 ^ 12 := by
  rw [← Nat.shiftRight_eq_div_pow, ← Nat.shiftRight_eq_div_pow, ← BitVec.toNat_ushiftRight,
    ← BitVec.toNat_ushiftRight]
  congr 1
  unfold pageOf
  apply BitVec.eq_of_getLsbD_eq
  intro i bound
  rw [BitVec.getLsbD_ushiftRight, BitVec.getLsbD_ushiftRight, BitVec.getLsbD_and,
    BitVec.getLsbD_not]
  by_cases top : 12 + i < 64
  · have mask : ∀ j : Fin 64, 12 ≤ j.val → ((0xfff : Word)).getLsbD j.val = false := by decide
    rw [mask ⟨12 + i, top⟩ (Nat.le_add_right 12 i)]
    simp [top]
  · rw [BitVec.getLsbD_of_ge address _ (Nat.not_lt.mp top), Bool.false_and]

theorem indexes_pageOf (address : Word) (level : Nat) :
    indexes (pageOf address) level = indexes address level := by
  apply Fin.ext
  rw [indexes_toNat, indexes_toNat, pow_add, ← Nat.div_div_eq_div_mul, ← Nat.div_div_eq_div_mul,
    page_toNat]

/-- The state after a page has come back into a frame. -/
def broughtIn (s : Paging) (table : Word) (i : Index) (frame entry page : Word) : Paging :=
  noteResident ((((s.readIn (slotOf entry) frame).2.freeSlot (slotOf entry))).write table i
    (inEntry frame entry)) page

theorem swapIn_out (low : indexes address 3 = 0) {u : Word}
    (route : Route userTree s.words (indexes address) 3 s.cr3 0 u)
    (out : isSwappedEntry (s.words u (indexes address 0)) = true) :
    swapIn s address =
      match allocateOrEvict s with
      | (none, t) => (false, t)
      | (some frame, t) =>
          if (t.disk.answers t.disk.transfers).isNone then
            (true, broughtIn t u (indexes address 0) frame (s.words u (indexes address 0))
              (pageOf address))
          else (false, ((t.readIn (slotOf (s.words u (indexes address 0))) frame).2).deallocate
            frame) := by
  have found : plainTable s (pageOf address) 3 s.cr3 = some u := by
    refine (plainTable_iff (by rw [indexes_pageOf]; exact low)).mpr ?_
    exact route.indexes fun j _ _ => indexes_pageOf address j
  have entry : ¬(has (s.words u (indexes address 0)) present = true ∨
      has (s.words u (indexes address 0)) swapped = false) := by
    unfold isSwappedEntry at out
    simp only [Bool.and_eq_true, Bool.not_eq_true'] at out
    simp [out.1, out.2]
  unfold swapIn
  simp only [found, indexes_pageOf, if_neg entry]
  rcases allocateOrEvict s with ⟨_ | frame, t⟩
  · rfl
  · dsimp only
    cases answer : (t.disk.answers t.disk.transfers).isNone with
    | true =>
        simp only [Paging.readIn, answer, if_true]
        rfl
    | false =>
        simp only [Paging.readIn, answer, Bool.false_eq_true, if_false]

theorem swapIn_other (low : indexes address 3 = 0)
    (other : isSwappedEntry (leafAt s.words s.cr3 (indexes address)) = false) :
    swapIn s address = (false, s) := by
  have page : indexes (pageOf address) 3 = 0 := by rw [indexes_pageOf]; exact low
  unfold swapIn
  dsimp only
  cases found : plainTable s (pageOf address) 3 s.cr3 with
  | none => rfl
  | some u =>
      have route := ((plainTable_iff page).mp found).indexes (p := indexes address)
        fun j _ _ => (indexes_pageOf address j).symm
      rw [leafAt, entryAt_route route] at other
      dsimp only
      rw [indexes_pageOf, if_pos]
      unfold isSwappedEntry at other
      cases there : has (s.words u (indexes address 0)) present with
      | true => exact Or.inl rfl
      | false =>
          rw [there] at other
          exact Or.inr (by simpa using other)

section Back

variable {frame entry u page : Word} {path : Nat → Index}

theorem readIn_quiet (books : Books s managed live (frame :: hand) chain) (held : SlotsHeld s live)
    (slot : Nat) :
    Quiet s (s.readIn slot frame).2 live ∧ SlotsHeld (s.readIn slot frame).2 live ∧
      Books (s.readIn slot frame).2 managed live (frame :: hand) chain ∧
      TreesKept s.words (s.readIn slot frame).2.words live := by
  have trees := books.trees_fill (fun i =>
    if i.val < (s.disk.answers s.disk.transfers).getD sectorsPerPage * sectorWords then
      Paging.pageAt s.disk.sectors (Paging.slotLba slot) i else s.words frame i)
  exact ⟨⟨Unseen.fill books _ rfl, fun r member p _ => congrArg ageless (trees.leaves r member p),
    trees.routes, rfl, rfl, [], (List.append_nil _).symm,
    fun _ member => absurd member List.not_mem_nil⟩, slotsHeld_kept held trees rfl,
    (books.fill _).congr rfl rfl rfl rfl, trees⟩

/-- A page that comes back is in the frame that was in the hand, with what its slot
held, and the slot is free again. -/
theorem broughtIn_spec (page : Word) (books : Books s managed live (frame :: hand) chain)
    (held : SlotsHeld s live) (member : root ∈ live)
    (route : Route userTree s.words path 3 root 0 u)
    (same : ageless (s.words u (path 0)) = ageless entry) (out : isSwappedEntry entry = true)
    (read : (s.disk.answers s.disk.transfers).isNone = true) :
    Unseen s (broughtIn s u (path 0) frame entry page) live ∧
      SlotsHeld (broughtIn s u (path 0) frame entry page) live ∧
      Books (broughtIn s u (path 0) frame entry page) managed live hand chain ∧
      LeafSet (s.readIn (slotOf entry) frame).2 (broughtIn s u (path 0) frame entry page) live root
        path (inEntry frame entry) ∧
      (∃ bound : slotOf entry < slots, (broughtIn s u (path 0) frame entry page).used =
        Function.update s.used ⟨slotOf entry, bound⟩ false) ∧
      (broughtIn s u (path 0) frame entry page).words frame =
        Paging.pageAt s.disk.sectors (Paging.slotLba (slotOf entry)) := by
  classical
  obtain ⟨quiet, held1, books1, trees⟩ := readIn_quiet books held (slotOf entry)
  have filled : (s.readIn (slotOf entry) frame).2.words frame =
      Paging.pageAt s.disk.sectors (Paging.slotLba (slotOf entry)) := by
    have whole : s.disk.answers s.disk.transfers = none := by simpa using read
    funext i
    have bound := i.isLt
    simp only [Paging.readIn, Paging.fill, whole, Option.getD_none, Function.update_self]
    rw [if_pos (by unfold sectorsPerPage sectorWords; omega)]
  have sectors : (s.readIn (slotOf entry) frame).2.disk.sectors = s.disk.sectors := rfl
  have used1 : (s.readIn (slotOf entry) frame).2.used = s.used := rfl
  have route1 := trees.routes root member path 0 u route
  have leaf1 : leafAt (s.readIn (slotOf entry) frame).2.words root path = s.words u (path 0) := by
    rw [trees.leaves root member path, leafAt, entryAt_route route]
  have word1 : (s.readIn (slotOf entry) frame).2.words u (path 0) = s.words u (path 0) := by
    rw [← leaf1, leafAt, entryAt_route route1]
  have out1 : isSwappedEntry (s.words u (path 0)) = true := (isSwapped_ageless same).trans out
  have slot1 : slotOf (s.words u (path 0)) = slotOf entry := slotOf_ageless same
  obtain ⟨bound, -⟩ := held1.used root member path (by rw [leaf1]; exact out1)
  rw [leaf1, slot1] at bound
  have absent : has (s.words u (path 0)) present = false := by
    unfold isSwappedEntry at out1
    simp only [Bool.and_eq_true, Bool.not_eq_true'] at out1
    exact out1.1
  have framed := books.account.framed frame books.held.2.2.2.2
  generalize hs : (s.readIn (slotOf entry) frame).2 = s1 at *
  have shape : broughtIn s u (path 0) frame entry page =
      { s1.write u (path 0) (inEntry frame entry) with
        used := Function.update s1.used ⟨slotOf entry, bound⟩ false
        replacers := (broughtIn s u (path 0) frame entry page).replacers } := by
    unfold broughtIn
    rw [noteResident_eq, hs]
    simp only [Paging.freeSlot, bound, dif_pos]
    rfl
  generalize broughtIn s u (path 0) frame entry page = s' at shape ⊢
  have sets : LeafSet s1 s' live root path (inEntry frame entry) := by
    refine (LeafSet.write books1 member route1 (inEntry frame entry)).congr ?_
    rw [shape]
  have data : s'.words frame = s1.words frame := sets.data member books1.held.2.1
  refine ⟨quiet.unseen.trans ⟨fun r live' p => ?_, fun r live' p => ?_,
    fun r live' r' live'' p p' => ?_⟩, ⟨fun n => ?_, fun r live' p out' => ?_⟩, ?_, sets,
    ⟨bound, ?_⟩, data.trans filled⟩
  · unfold contents
    rw [sets.leaves r live' p]
    have disk : s'.disk = s1.disk := by rw [shape]; rfl
    split_ifs with here
    · obtain ⟨rfl, follows⟩ := here
      have leaf : leafAt s1.words r p = s.words u (path 0) :=
        (entryAt_indexes fun j low => follows j low).trans leaf1
      have mark : has (s.words u (path 0)) swapped = true := by
        unfold isSwappedEntry at out1
        simp only [Bool.and_eq_true] at out1
        exact out1.2
      unfold heldBy
      rw [leaf, if_pos (present_inEntry _ _), frameOf_inEntry framed, if_neg (by simp [absent]),
        if_pos mark, data, filled, slot1, sectors]
    · unfold heldBy
      rw [disk]
      split_ifs with there
      · rw [sets.data member (page_frame books1 live' there).1]
      · rfl
      · rfl
  · rw [sets.leaves r live' p]
    split_ifs with here
    · obtain ⟨rfl, follows⟩ := here
      have leaf : leafAt s1.words r p = s.words u (path 0) :=
        (entryAt_indexes fun j low => follows j low).trans leaf1
      rw [leaf, steady_inEntry framed, steady_ageless same]
    · rfl
  · refine together_leaf sets (fun r live' p there => ?_) (fun r live' p _ there => ?_)
      live' live'' p p'
    · rw [leaf1, absent] at there
      cases there
    · rw [frameOf_inEntry framed]
      intro here
      have positive := refCount_pos (s := s1) live' there
      rw [here, books1.held.1] at positive
      exact Nat.lt_irrefl 0 positive
  · have change := slotCount_leaf books1 member route1 (inEntry frame entry) n
    have resident : isSwappedEntry (inEntry frame entry) = false := by
      simp [isSwappedEntry, present_inEntry]
    rw [outIn_resident resident, Nat.add_zero] at change
    have count : slotCount s'.words live n =
        slotCount (s1.write u (path 0) (inEntry frame entry)).words live n := by rw [shape]
    have before := held1.once n
    omega
  · have marks : s'.used = Function.update s1.used ⟨slotOf entry, bound⟩ false := by rw [shape]
    rw [sets.leaves r live' p] at out' ⊢
    rw [marks]
    split_ifs at out' ⊢ with here
    · simp [isSwappedEntry, present_inEntry] at out'
    · obtain ⟨bound', marked⟩ := held1.used r live' p out'
      refine ⟨bound', ?_⟩
      rw [Function.update_of_ne]
      · exact marked
      · intro clash
        refine here (held1.apart books1 member (by rw [leaf1]; exact out1) live' out' ?_)
        rw [leaf1, slot1]
        simpa only [Fin.mk.injEq] using clash
  · have moved := books1.leafIn member route1 (e := inEntry frame entry)
      (by rw [word1]; exact absent) (present_inEntry _ _) (frameOf_inEntry framed _)
    rw [shape]
    exact moved.congr rfl rfl rfl rfl
  · rw [shape, ← used1]

end Back

theorem swapIn_kept (books : Books s managed live hand chain) (held : SlotsHeld s live)
    (member : s.cr3 ∈ live) (low : indexes address 3 = 0) :
    Unseen s (swapIn s address).2 live ∧ SlotsHeld (swapIn s address).2 live ∧
      (∃ chain', Books (swapIn s address).2 managed live hand chain') ∧
      (swapIn s address).2.cr3 = s.cr3 ∧
      ∃ more, (swapIn s address).2.disk.written = s.disk.written ++ more ∧
        ∀ n ∈ more, swapStart ≤ n ∧ n < swapStart + slots * sectorsPerPage := by
  rcases out : isSwappedEntry (leafAt s.words s.cr3 (indexes address)) with _ | _
  · rw [swapIn_other low out]
    exact ⟨Unseen.refl s live, held, ⟨chain, books⟩, rfl, [], (List.append_nil _).symm,
      fun _ member => absurd member List.not_mem_nil⟩
  · rcases route_of_entryAt (R := userTree) s.words 3 s.cr3 (indexes address) with
      ⟨u, route, reads⟩ | blank
    · rw [leafAt, reads] at out
      obtain ⟨quiet, held1, chain1, books1⟩ := allocateOrEvict_quiet books held member
      rw [swapIn_out low route out]
      rcases got : allocateOrEvict s with ⟨_ | frame, t⟩
      · rw [got] at quiet held1 books1
        exact ⟨quiet.unseen, held1, ⟨chain1, books1⟩, quiet.cr3, quiet.log⟩
      · rw [got] at quiet held1 books1
        have route1 := quiet.routes s.cr3 member _ 0 u route
        have absent : has (leafAt s.words s.cr3 (indexes address)) present = false := by
          rw [leafAt, reads]
          unfold isSwappedEntry at out
          simp only [Bool.and_eq_true, Bool.not_eq_true'] at out
          exact out.1
        have same : ageless (t.words u (indexes address 0)) =
            ageless (s.words u (indexes address 0)) := by
          have leaf := quiet.absent s.cr3 member _ absent
          rw [leafAt, leafAt, entryAt_route route1, reads] at leaf
          exact leaf
        dsimp only
        split_ifs with read
        · obtain ⟨unseen, held2, books2, -⟩ := broughtIn_spec (pageOf address) books1 held1
            member route1 same out read
          refine ⟨quiet.unseen.trans unseen, held2, ⟨chain1, books2⟩, ?_, ?_⟩
          · unfold broughtIn
            rw [noteResident_eq, ← quiet.cr3]
            simp only [Paging.freeSlot]
            split_ifs <;> rfl
          · unfold broughtIn
            rw [noteResident_eq]
            simp only [Paging.freeSlot]
            split_ifs <;> exact quiet.log
        · obtain ⟨quiet1, held2, books2, trees⟩ := readIn_quiet books1 held1
            (slotOf (s.words u (indexes address 0)))
          obtain ⟨kept, books3⟩ := books2.give
          exact ⟨(quiet.unseen.trans quiet1.unseen).trans (Unseen.give books2),
            slotsHeld_kept held2 kept rfl, ⟨_, books3⟩, quiet.cr3, quiet.log⟩
    · rw [leafAt, blank] at out
      exact absurd out (by decide)

end FiveAM.Memory.Return
