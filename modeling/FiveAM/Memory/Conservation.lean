/- GID: FiveAM/Memory/Conservation
   source: kernel/src/memory.rs, kernel/src/swap.rs, kernel/src/syscall.rs
   digest: Over whole runs, which swap slots are marked used and which pages are out in them. -/

import FiveAM.Memory.Boot
import FiveAM.Memory.Forking
import FiveAM.Memory.Return
import FiveAM.Lib.Runs

set_option autoImplicit false
set_option relaxedAutoImplicit false

namespace FiveAM.Memory.Conservation

open FiveAM.Process.TaskTable (Word)
open FiveAM.Memory.Entries FiveAM.Memory.Frames FiveAM.Memory.Replace FiveAM.Memory.PageTables
open FiveAM.Memory.Swap FiveAM.Memory.Ownership FiveAM.Memory.Residency FiveAM.Memory.Eviction
open FiveAM.Memory.Contents FiveAM.Memory.Return FiveAM.Memory.Spaces FiveAM.Memory.Teardown
open FiveAM.Memory.Forking FiveAM.Memory.Boot FiveAM.Lib.RadixTables FiveAM.Lib.Runs

/-- Memory with its address spaces: those somebody has, those a `fork` that failed
left behind, and the frames that kernel code has taken and not used or given back. -/
structure Machine where
  paging : Paging
  live : Finset Word
  lost : Finset Word
  hand : List Word

inductive Event where
  /-- `AddressSpace::new`. -/
  | create
  | take
  | give (frame : Word)
  /-- `AddressSpace::map` of a frame in the hand. -/
  | map (root address frame flags : Word)
  | activate (root : Word)
  /-- `evict_one`: the caller is left with the frame. -/
  | evict (root : Word)
  | swapIn (address : Word)
  | fork (root : Word)
  | destroy (root : Word)
  /-- The end of `exec`: the space made and filled for the new program becomes the
  active one, and the old one is destroyed. -/
  | exec (fresh : Word)

/-- One event. A page is mapped with flags that are no address; the faults are those
of the active space. -/
def step (k : Machine) : Event → Option Machine
  | .create =>
      match newSpace k.paging with
      | (none, s) => some { k with paging := s }
      | (some root, s) => some { k with paging := s, live := insert root k.live }
  | .take =>
      match k.paging.allocate with
      | (none, s) => some { k with paging := s }
      | (some frame, s) => some { k with paging := s, hand := frame :: k.hand }
  | .give frame =>
      if frame ∈ k.hand then
        some { k with paging := k.paging.deallocate frame, hand := k.hand.erase frame }
      else none
  | .map root address frame flags =>
      if root ∈ k.live ∧ frame ∈ k.hand ∧ frameOf flags = 0 then
        match mapIn k.paging root address frame flags with
        | (.error _, s) => some { k with paging := s }
        | (.ok _, s) => some { k with paging := s, hand := k.hand.erase frame }
      else none
  | .activate root => some { k with paging := { k.paging with cr3 := root } }
  | .evict root =>
      if root ∈ k.live then
        let (frame, s) := evictOne k.paging root
        some { k with paging := s, hand := frame.toList ++ k.hand }
      else none
  | .swapIn address =>
      if k.paging.cr3 ∈ k.live ∧ indexes address 3 = 0 then
        some { k with paging := (swapIn k.paging address).2 }
      else none
  | .fork root =>
      if root ∈ k.live then
        match fork k.paging root with
        | (none, s) => some { k with
            paging := s, lost := (newSpace k.paging).1.toFinset ∪ k.lost }
        | (some child, s) => some { k with paging := s, live := insert child k.live }
      else none
  | .destroy root =>
      if root ∈ k.live then
        some { k with paging := destroy k.paging root, live := k.live.erase root }
      else none
  | .exec fresh =>
      if fresh ∈ k.live ∧ k.paging.cr3 ∈ k.live ∧ fresh ≠ k.paging.cr3 then
        some { k with
          paging := destroy { k.paging with cr3 := fresh } k.paging.cr3
          live := k.live.erase k.paging.cr3 }
      else none

section Slots

variable {s s' : Paging} {managed live : Finset Word} {hand chain : List Word} {root : Word}

/-- A slot is marked used exactly when a page is out in it. -/
structure SlotsExact (s : Paging) (live : Finset Word) : Prop where
  held : SlotsHeld s live
  named : ∀ n : Fin slots, s.used n = true → 0 < slotCount s.words live n.val

theorem SlotsExact.iff (exact' : SlotsExact s live) (n : Fin slots) :
    s.used n = true ↔ slotCount s.words live n.val = 1 := by
  have once := exact'.held.once n.val
  constructor
  · intro used
    have positive := exact'.named n used
    omega
  · intro single
    have weighs : 0 < slotCount s.words live n.val := by omega
    obtain ⟨r, member, q, heavy⟩ := exists_of_forest weighs
    change 0 < outIn n.val (leafAt s.words r q) at heavy
    unfold outIn at heavy
    split_ifs at heavy with out
    · obtain ⟨bound, marked⟩ := exact'.held.used r member q out.1
      simp only [out.2] at marked
      exact marked
    · exact absurd heavy (Nat.lt_irrefl 0)

/-- The pages that are out stay where they are. -/
def SameOut (s s' : Paging) (live : Finset Word) : Prop :=
  ∀ r ∈ live, ∀ p n, outIn n (leafAt s'.words r p) = outIn n (leafAt s.words r p)

theorem slotCount_same (same : SameOut s s' live) (n : Nat) :
    slotCount s'.words live n = slotCount s.words live n :=
  forest_entries (outIn_blank n) fun r member q => same r member q n

theorem slotCount_empty (m : Words) (n : Nat) : slotCount m ∅ n = 0 := by
  unfold slotCount forest
  exact Finset.sum_empty

theorem out_iff (e : Word) : isSwappedEntry e = true ↔ outIn (slotOf e) e = 1 := by
  constructor
  · exact fun out => outIn_self out rfl
  · intro one
    unfold outIn at one
    split_ifs at one with both
    exact both.1

theorem slotsHeld_same (held : SlotsHeld s live) (same : SameOut s s' live)
    (used : s'.used = s.used) : SlotsHeld s' live where
  once n := by
    rw [slotCount_same same]
    exact held.once n
  used r member p out := by
    have one := (out_iff _).mp out
    rw [same r member p] at one
    have both : isSwappedEntry (leafAt s.words r p) = true ∧
        slotOf (leafAt s.words r p) = slotOf (leafAt s'.words r p) := by
      unfold outIn at one
      split_ifs at one with both
      exact both
    obtain ⟨bound, marked⟩ := held.used r member p both.1
    refine ⟨both.2 ▸ bound, ?_⟩
    rw [used]
    simp only [← both.2]
    exact marked

theorem SlotsExact.same (exact' : SlotsExact s live) (same : SameOut s s' live)
    (used : s'.used = s.used) : SlotsExact s' live where
  held := slotsHeld_same exact'.held same used
  named n marked := by
    rw [slotCount_same same]
    rw [used] at marked
    exact exact'.named n marked

theorem sameOut_leaves (same : ∀ r ∈ live, ∀ p, leafAt s'.words r p = leafAt s.words r p) :
    SameOut s s' live := fun r member p n => by rw [same r member p]

theorem sameOut_aging (aging : Aging s s' live) : SameOut s s' live := fun r member p n => by
  have same := aging.leaves r member p
  simp only [outIn, isSwapped_ageless same, slotOf_ageless same]

def Home (m : Words) (root : Word) : Prop := ∀ p, isSwappedEntry (leafAt m root p) = false

theorem slotCount_home (live : Finset Word) (home : Home s.words root) (outside : root ∉ live) (n : Nat) :
    slotCount s.words (insert root live) n = slotCount s.words live n := by
  unfold slotCount forest
  rw [Finset.sum_insert outside, tally_weightless, Nat.zero_add]
  exact fun q => outIn_resident (home q) n

theorem slotsHeld_insert (held : SlotsHeld s live) (home : Home s.words root)
    (outside : root ∉ live) : SlotsHeld s (insert root live) where
  once n := by
    rw [slotCount_home live home outside]
    exact held.once n
  used r member p out := by
    rcases Finset.mem_insert.mp member with rfl | inside
    · rw [home p] at out
      cases out
    · exact held.used r inside p out

theorem SlotsExact.insert (exact' : SlotsExact s live) (home : Home s.words root)
    (outside : root ∉ live) : SlotsExact s (insert root live) where
  held := slotsHeld_insert exact'.held home outside
  named n marked := by
    rw [slotCount_home live home outside]
    exact exact'.named n marked

theorem SlotsExact.erase (exact' : SlotsExact s live) (member : root ∈ live)
    (home : Home s.words root) : SlotsExact s (live.erase root) where
  held := by
    refine ⟨fun n => ?_, fun r inside p out => ?_⟩
    · have same := slotCount_home (live.erase root) home (Finset.notMem_erase root live) n
      rw [Finset.insert_erase member] at same
      rw [← same]
      exact exact'.held.once n
    · exact exact'.held.used r (Finset.mem_of_mem_erase inside) p out
  named n marked := by
    have same := slotCount_home (live.erase root) home (Finset.notMem_erase root live) n
    rw [Finset.insert_erase member] at same
    rw [← same]
    exact exact'.named n marked

/-- The spaces other than one have the pages out that they had. -/
def OthersOut (s s' : Paging) (live : Finset Word) (root : Word) : Prop :=
  ∀ r ∈ live, r ≠ root → ∀ p,
    isSwappedEntry (leafAt s'.words r p) = isSwappedEntry (leafAt s.words r p)

theorem OthersOut.trans {s'' : Paging} (first : OthersOut s s' live root)
    (second : OthersOut s' s'' live root) : OthersOut s s'' live root :=
  fun r member other p => (second r member other p).trans (first r member other p)

theorem othersOut_aging (aging : Aging s s' live) : OthersOut s s' live root :=
  fun r member _ p => isSwapped_ageless (aging.leaves r member p)

theorem othersOut_leaf {path : Nat → Index} {e : Word} (sets : LeafSet s s' live root path e) :
    OthersOut s s' live root := by
  classical
  intro r member other p
  rw [sets.leaves r member p, if_neg fun both => other both.1]

theorem evicts_exact {answer : Option Word × Paging} (evicts : Evicts s live root answer)
    (books : Books s managed live hand chain) (exact' : SlotsExact s live) (member : root ∈ live) :
    SlotsExact answer.2 live ∧ OthersOut s answer.2 live root := by
  cases evicts with
  | nothing aging stuck =>
      exact ⟨exact'.same (sameOut_aging aging) aging.used, othersOut_aging aging⟩
  | @failed aged aging able slot frame unused error =>
      have out : SameOut s aged live := sameOut_aging aging
      have others : OthersOut s aged live root := othersOut_aging aging
      exact ⟨exact'.same out aging.used, others⟩
  | @out aged aging able page slot on there resident alone unused written =>
      have aged' := exact'.same (sameOut_aging aging) aging.used
      have books' := aging.books books
      have sets := sentOut_leaf slot books' member on
      have words : (sentOut aged page slot).words = (aged.write page.table (indexes page.address 0)
          (outEntry slot.val (aged.words page.table page.index))).words := by
        unfold sentOut
        rw [words_noteEvicted, on.index]
        rfl
      have marks : (sentOut aged page slot).used = Function.update aged.used slot true := by
        unfold sentOut
        rw [noteEvicted_eq]
        rfl
      have home : isSwappedEntry (aged.words page.table (indexes page.address 0)) = false := by
        rw [← on.index]
        simp [isSwappedEntry, there]
      refine ⟨⟨sentOut_slots books' aged'.held member on there unused, fun n marked => ?_⟩,
        (othersOut_aging aging).trans (othersOut_leaf sets)⟩
      have change := slotCount_leaf books' member on.route
        (outEntry slot.val (aged.words page.table page.index)) n.val
      rw [outIn_resident home, Nat.add_zero] at change
      rw [words, change]
      by_cases same : n = slot
      · rw [same, outIn_self (isSwapped_outEntry slot _) (slotOf_outEntry slot _)]
        exact Nat.succ_pos _
      · rw [marks, Function.update_of_ne same] at marked
        exact Nat.add_pos_left (aged'.named n marked) _

theorem allocateOrEvict_exact (books : Books s managed live hand chain) (exact' : SlotsExact s live)
    (member : s.cr3 ∈ live) :
    SlotsExact (allocateOrEvict s).2 live ∧ OthersOut s (allocateOrEvict s).2 live s.cr3 := by
  unfold allocateOrEvict
  cases chain with
  | nil =>
      rw [books.account.allocate_none]
      exact evicts_exact (evictOne_spec books member) books exact' member
  | cons frame rest =>
      rw [books.take.1]
      exact ⟨exact'.same (sameOut_leaves fun _ _ _ => rfl) rfl, fun _ _ _ _ => rfl⟩

theorem broughtIn_exact (page : Word) {frame entry u : Word} {path : Nat → Index}
    (books : Books s managed live (frame :: hand) chain) (exact' : SlotsExact s live)
    (member : root ∈ live) (route : Route userTree s.words path 3 root 0 u)
    (same : ageless (s.words u (path 0)) = ageless entry) (out : isSwappedEntry entry = true)
    (read : (s.disk.answers s.disk.transfers).isNone = true) :
    SlotsExact (broughtIn s u (path 0) frame entry page) live ∧
      OthersOut s (broughtIn s u (path 0) frame entry page) live root := by
  obtain ⟨-, held, -, sets, ⟨bound, marks⟩, -⟩ :=
    broughtIn_spec page books exact'.held member route same out read
  obtain ⟨-, -, books1, trees⟩ := readIn_quiet books exact'.held (slotOf entry)
  have route1 := trees.routes root member path 0 u route
  have word1 : (s.readIn (slotOf entry) frame).2.words u (path 0) = s.words u (path 0) := by
    have leaf := trees.leaves root member path
    rw [leafAt, leafAt, entryAt_route route1, entryAt_route route] at leaf
    exact leaf
  have before := exact'.same (sameOut_leaves trees.leaves)
    (rfl : (s.readIn (slotOf entry) frame).2.used = s.used)
  refine ⟨⟨held, fun n marked => ?_⟩, fun r inside other p => ?_⟩
  · rw [marks] at marked
    have apart : n ≠ ⟨slotOf entry, bound⟩ := by
      intro here
      rw [here, Function.update_self] at marked
      cases marked
    rw [Function.update_of_ne apart] at marked
    have change := slotCount_leaf books1 member route1 (inEntry frame entry) n.val
    have elsewhere : outIn n.val ((s.readIn (slotOf entry) frame).2.words u (path 0)) = 0 := by
      rw [word1]
      exact outIn_other (slotOf_ageless same) fun here => apart (Fin.ext here)
    rw [elsewhere, outIn_resident (by simp [isSwappedEntry, present_inEntry]), Nat.add_zero,
      Nat.add_zero] at change
    have words : (broughtIn s u (path 0) frame entry page).words =
        ((s.readIn (slotOf entry) frame).2.write u (path 0) (inEntry frame entry)).words := by
      unfold broughtIn
      rw [words_noteResident]
      unfold Paging.freeSlot
      split_ifs
      rfl
    rw [words, change]
    exact before.named n marked
  · rw [othersOut_leaf sets r inside other p, trees.leaves r inside p]

theorem swapIn_exact {address : Word} (books : Books s managed live hand chain)
    (exact' : SlotsExact s live) (member : s.cr3 ∈ live) (low : indexes address 3 = 0) :
    SlotsExact (swapIn s address).2 live ∧ OthersOut s (swapIn s address).2 live s.cr3 := by
  rcases out : isSwappedEntry (leafAt s.words s.cr3 (indexes address)) with _ | _
  · rw [swapIn_other low out]
    exact ⟨exact', fun _ _ _ _ => rfl⟩
  · rcases route_of_entryAt (R := userTree) s.words 3 s.cr3 (indexes address) with
      ⟨u, route, reads⟩ | blank
    · have absent : has (leafAt s.words s.cr3 (indexes address)) present = false := by
        unfold isSwappedEntry at out
        simp only [Bool.and_eq_true, Bool.not_eq_true'] at out
        exact out.1
      rw [leafAt, reads] at out
      obtain ⟨quiet, held1, chain1, books1⟩ := allocateOrEvict_quiet books exact'.held member
      obtain ⟨exact1, others1⟩ := allocateOrEvict_exact books exact' member
      rw [swapIn_out low route out]
      rcases got : allocateOrEvict s with ⟨_ | frame, t⟩
      · rw [got] at exact1 others1
        exact ⟨exact1, others1⟩
      · rw [got] at quiet exact1 others1 books1
        have route1 := quiet.routes s.cr3 member _ 0 u route
        have same : ageless (t.words u (indexes address 0)) =
            ageless (s.words u (indexes address 0)) := by
          have leaf := quiet.absent s.cr3 member _ absent
          rw [leafAt, leafAt, entryAt_route route1, reads] at leaf
          exact leaf
        dsimp only
        split_ifs with read
        · obtain ⟨exact2, others2⟩ := broughtIn_exact (pageOf address) books1 exact1 member
            route1 same out read
          exact ⟨exact2, others1.trans others2⟩
        · obtain ⟨-, -, books2, trees⟩ := readIn_quiet books1 exact1.held
            (slotOf (s.words u (indexes address 0)))
          obtain ⟨kept, -⟩ := books2.give
          have leaves : ∀ r ∈ live, ∀ p, leafAt (((t.readIn (slotOf (s.words u (indexes address 0)))
              frame).2).deallocate frame).words r p = leafAt t.words r p := fun r inside p =>
            (kept.leaves r inside p).trans (trees.leaves r inside p)
          exact ⟨exact1.same (sameOut_leaves leaves) rfl, fun r inside other p => by
            rw [leaves r inside p]
            exact others1 r inside other p⟩
    · rw [leafAt, blank] at out
      exact absurd out (by decide)

end Slots

section Machines

variable {managed : Finset Word} {k k' : Machine}

/-- Every space there is, whether or not somebody has it. -/
def Machine.all (k : Machine) : Finset Word := k.live ∪ k.lost

/-- The books and the slots of a machine, and that nothing is out of the spaces
nobody has. -/
structure Sane (managed : Finset Word) (k : Machine) : Prop where
  books : ∃ chain, Books k.paging managed k.all k.hand chain
  slots : SlotsExact k.paging k.all
  home : ∀ r ∈ k.lost, Home k.paging.words r
  apart : Disjoint k.live k.lost

theorem Machine.mem_all {root : Word} (member : root ∈ k.live) : root ∈ k.all :=
  Finset.mem_union_left _ member

theorem Sane.conserved (sane : Sane managed k) (n : Fin Frames.slots) :
    k.paging.used n = true ↔ slotCount k.paging.words k.live n.val = 1 := by
  have rest : ∑ r ∈ k.lost, tally userTree (fun _ => 0) (outIn n.val) k.paging.words 3 r = 0 :=
    Finset.sum_eq_zero fun r inside => tally_weightless fun q =>
      outIn_resident (sane.home r inside q) n.val
  have same : slotCount k.paging.words k.all n.val = slotCount k.paging.words k.live n.val := by
    unfold slotCount forest Machine.all
    rw [Finset.sum_union sane.apart, rest, Nat.add_zero]
  rw [← same]
  exact sane.slots.iff n

theorem home_same {s s' : Paging} {live : Finset Word} {r : Word} (same : SameOut s s' live)
    (member : r ∈ live) (home : Home s.words r) : Home s'.words r := by
  intro p
  by_contra out
  have one := (out_iff _).mp (Bool.of_not_eq_false out)
  rw [same r member p, outIn_resident (home p)] at one
  exact absurd one (by decide)

theorem Sane.same (sane : Sane managed k) {s : Paging} {hand : List Word}
    (books : ∃ chain, Books s managed k.all hand chain) (out : SameOut k.paging s k.all)
    (used : s.used = k.paging.used) : Sane managed { k with paging := s, hand := hand } where
  books := books
  slots := sane.slots.same out used
  home r inside := home_same out (Finset.mem_union_right _ inside) (sane.home r inside)
  apart := sane.apart

theorem Sane.moves (sane : Sane managed k) {s : Paging} {hand : List Word} {root : Word}
    (books : ∃ chain, Books s managed k.all hand chain) (slots : SlotsExact s k.all)
    (others : OthersOut k.paging s k.all root) (member : root ∈ k.live) :
    Sane managed { k with paging := s, hand := hand } where
  books := books
  slots := slots
  home r inside p := by
    have other : r ≠ root := fun same =>
      Finset.disjoint_left.mp sane.apart member (same ▸ inside)
    rw [others r (Finset.mem_union_right _ inside) other p]
    exact sane.home r inside p
  apart := sane.apart

theorem Sane.create (sane : Sane managed k) (taken : step k .create = some k') :
    Sane managed k' := by
  obtain ⟨chain, books⟩ := sane.books
  simp only [step] at taken
  cases chain with
  | nil =>
      have failed : newSpace k.paging = (none, k.paging) := by
        unfold newSpace
        rw [books.account.allocate_none]
      rw [failed] at taken
      obtain rfl := Option.some.inj taken
      exact sane
  | cons root rest =>
      obtain ⟨s, new, books', made⟩ := newSpace_made books
      rw [new] at taken
      obtain rfl := Option.some.inj taken
      have trees := trees_kept made.trees
      have all : insert root k.all = insert root k.live ∪ k.lost := (Finset.insert_union ..).symm
      have home : Home s.words root := fun p => by
        rw [made.leaves]
        decide
      have slots := (sane.slots.same (sameOut_leaves trees.leaves) made.used).insert home made.outside
      rw [all] at books' slots
      refine ⟨⟨rest, books'⟩, slots, fun r inside => ?_, ?_⟩
      · exact home_same (sameOut_leaves trees.leaves) (Finset.mem_union_right _ inside)
          (sane.home r inside)
      · refine Finset.disjoint_insert_left.mpr ⟨fun inside => ?_, sane.apart⟩
        exact made.outside (Finset.mem_union_right _ inside)

theorem Sane.take (sane : Sane managed k) (taken : step k .take = some k') : Sane managed k' := by
  obtain ⟨chain, books⟩ := sane.books
  simp only [step] at taken
  cases chain with
  | nil =>
      rw [books.account.allocate_none] at taken
      obtain rfl := Option.some.inj taken
      exact sane
  | cons frame rest =>
      obtain ⟨got, books'⟩ := books.take
      rw [got] at taken
      obtain rfl := Option.some.inj taken
      exact sane.same ⟨rest, books'⟩ (sameOut_leaves fun _ _ _ => rfl) rfl

theorem Sane.give (sane : Sane managed k) {frame : Word}
    (taken : step k (.give frame) = some k') : Sane managed k' := by
  obtain ⟨chain, books⟩ := sane.books
  simp only [step, Option.ite_none_right_eq_some, Option.some.injEq] at taken
  obtain ⟨held, rfl⟩ := taken
  obtain ⟨kept, books'⟩ := (books.perm (List.perm_cons_erase held).symm).give
  exact sane.same ⟨_, books'⟩ (sameOut_leaves kept.leaves) rfl

theorem indexes_low {address : Word} (low : ¬userSpaceEnd ≤ address) : indexes address 3 = 0 := by
  apply Fin.ext
  rw [indexes_toNat]
  have bound : address.toNat < userSpaceEnd.toNat := BitVec.not_le.mp low
  have limit : userSpaceEnd.toNat = 2 ^ 39 := by decide
  rw [limit] at bound
  rw [Nat.div_eq_of_lt (by simpa using bound)]
  rfl

theorem Sane.map (sane : Sane managed k) {root address frame flags : Word}
    (resident : isSwappedEntry (leafAt k.paging.words root (indexes address)) = false)
    (taken : step k (.map root address frame flags) = some k') : Sane managed k' := by
  classical
  obtain ⟨chain, books⟩ := sane.books
  simp only [step, Option.ite_none_right_eq_some] at taken
  obtain ⟨⟨member, held, plain⟩, taken⟩ := taken
  have books := books.perm (List.perm_cons_erase held).symm
  have back : ∀ {s : Paging} {chain : List Word},
      Books s managed k.all (frame :: k.hand.erase frame) chain →
      Books s managed k.all k.hand chain := fun b => b.perm (List.perm_cons_erase held)
  unfold mapIn at taken
  split_ifs at taken with high
  · obtain rfl := Option.some.inj taken
    exact sane
  have mapping := mapPageIn_spec frame flags books (Machine.mem_all member) (indexes_low high)
  generalize mapPageIn k.paging root address frame flags = answer at mapping taken
  cases mapping with
  | short few books' builds =>
      obtain rfl := Option.some.inj taken
      exact sane.same ⟨_, back books'⟩ (sameOut_leaves builds.leaves) builds.used
  | taken there books' builds =>
      obtain rfl := Option.some.inj taken
      exact sane.same ⟨_, back books'⟩ (sameOut_leaves builds.leaves) builds.used
  | mapped room absent books' builds route =>
      obtain rfl := Option.some.inj taken
      obtain ⟨books'', maps⟩ := mapped_fresh _ books' builds (Machine.mem_all member) route absent plain
      refine sane.same ⟨_, books''⟩ (fun r inside p n => ?_) maps.used
      rw [maps.leaves r inside p]
      split_ifs with here
      · obtain ⟨rfl, follows⟩ := here
        have leaf : leafAt k.paging.words r p = leafAt k.paging.words r (indexes address) :=
          entryAt_indexes fun j low => follows j low
        rw [leaf, outIn_resident resident, outIn_resident]
        simp [isSwappedEntry, present_leafFor]
      · rfl

theorem Sane.evict (sane : Sane managed k) {root : Word}
    (taken : step k (.evict root) = some k') : Sane managed k' := by
  obtain ⟨chain, books⟩ := sane.books
  simp only [step, Option.ite_none_right_eq_some, Option.some.injEq] at taken
  obtain ⟨member, rfl⟩ := taken
  have evicts := evictOne_spec books (Machine.mem_all member)
  obtain ⟨slots, others⟩ := evicts_exact evicts books sane.slots (Machine.mem_all member)
  obtain ⟨-, -, books'⟩ := evicts_quiet evicts books sane.slots.held (Machine.mem_all member)
  exact sane.moves ⟨chain, books'⟩ slots others member

theorem Sane.swapIn (sane : Sane managed k) {address : Word}
    (taken : step k (.swapIn address) = some k') : Sane managed k' := by
  obtain ⟨chain, books⟩ := sane.books
  simp only [step, Option.ite_none_right_eq_some, Option.some.injEq] at taken
  obtain ⟨⟨member, low⟩, rfl⟩ := taken
  obtain ⟨slots, others⟩ := swapIn_exact books sane.slots (Machine.mem_all member) low
  obtain ⟨-, -, books', -⟩ := swapIn_kept books sane.slots.held (Machine.mem_all member) low
  exact sane.moves books' slots others member

theorem outIn_lowered (n : Nat) (e : Word) : outIn n (lowered e) = outIn n e := by
  unfold outIn isSwappedEntry slotOf
  rw [present_lowered, swapped_lowered, frameOf_lowered]

theorem sameOut_marks {s s' : Paging} {live : Finset Word} {root child : Word} {taken : List Word}
    (marks : Marks s s' live root child taken) (empty : ∀ p, leafAt s.words child p = 0) :
    SameOut s s' live := by
  intro r member p n
  by_cases new : r = child
  · subst new
    rcases marks.ofChild p with same | there
    · rw [same]
    · rw [empty p, outIn_resident (by simp [isSwappedEntry, there]), outIn_resident (by decide)]
  · by_cases old : r = root
    · subst old
      rcases marks.ofParent p with same | low
      · rw [same]
      · rw [low, outIn_lowered]
    · rw [marks.others r member old new p]

private theorem forked_slots (sane : Sane managed k) {s0 s : Paging} {root child : Word}
    {taken : List Word} (made : Made k.paging s0 k.all child)
    (marks : Marks s0 s (insert child k.all) root child taken) :
    SlotsExact s (insert child k.all) ∧ Home s.words child ∧ ∀ r ∈ k.lost, Home s.words r := by
  have trees := trees_kept made.trees
  have empty : Home s0.words child := fun p => by
    rw [made.leaves]
    decide
  have out := sameOut_marks marks made.leaves
  refine ⟨((sane.slots.same (sameOut_leaves trees.leaves) made.used).insert empty made.outside).same
    out marks.used, home_same out (Finset.mem_insert_self _ _) empty, fun r inside => ?_⟩
  have member : r ∈ k.all := Finset.mem_union_right _ inside
  exact home_same out (Finset.mem_insert_of_mem member)
    (home_same (sameOut_leaves trees.leaves) member (sane.home r inside))

theorem Sane.fork (sane : Sane managed k) {root : Word}
    (taken : step k (.fork root) = some k') : Sane managed k' := by
  obtain ⟨chain, books⟩ := sane.books
  simp only [step, Option.ite_none_right_eq_some] at taken
  obtain ⟨member, taken⟩ := taken
  have forked := fork_spec books (Machine.mem_all member)
  generalize PageTables.fork k.paging root = answer at forked taken
  cases forked with
  | none empty =>
      subst empty
      have failed : newSpace k.paging = (none, k.paging) := by
        unfold newSpace
        rw [books.account.allocate_none]
      simp only [failed, Option.toFinset_none, Finset.empty_union, Option.some.injEq] at taken
      subst taken
      exact sane
  | @short child rest s0 s first made books0 few books' marks =>
      subst first
      obtain ⟨s1, new, -, -⟩ := newSpace_made books
      simp only [new, Option.toFinset_some, Option.some.injEq] at taken
      subst taken
      obtain ⟨slots, home, homes⟩ := forked_slots sane made marks
      have all : insert child k.all = k.live ∪ ({child} ∪ k.lost) := by
        ext r
        simp only [Machine.all, Finset.mem_insert, Finset.mem_union, Finset.mem_singleton]
        tauto
      rw [all] at books' slots
      refine ⟨⟨[], books'⟩, slots, fun r inside => ?_, ?_⟩
      · rcases Finset.mem_union.mp inside with here | inside
        · rw [Finset.mem_singleton.mp here]
          exact home
        · exact homes r inside
      · refine Finset.disjoint_union_right.mpr ⟨Finset.disjoint_singleton_right.mpr fun inside => ?_,
          sane.apart⟩
        exact made.outside (Machine.mem_all inside)
  | @copied child rest s0 s first made books0 room books' copies =>
      obtain rfl := Option.some.inj taken
      obtain ⟨slots, home, homes⟩ := forked_slots sane made copies.toMarks
      have all : insert child k.all = insert child k.live ∪ k.lost := (Finset.insert_union ..).symm
      rw [all] at books' slots
      refine ⟨⟨_, books'⟩, slots, homes, ?_⟩
      refine Finset.disjoint_insert_left.mpr ⟨fun inside => ?_, sane.apart⟩
      exact made.outside (Finset.mem_union_right _ inside)

private theorem Sane.erase (sane : Sane managed k) {root : Word} (member : root ∈ k.live)
    (home : Home k.paging.words root) {s : Paging} (words : s.words = k.paging.words)
    (head : s.head = k.paging.head) (free : s.free = k.paging.free)
    (shared : s.shared = k.paging.shared) (used : s.used = k.paging.used) :
    Sane managed { k with paging := PageTables.destroy s root, live := k.live.erase root } := by
  obtain ⟨chain, books⟩ := sane.books
  have books := books.congr words head free shared
  have slots : SlotsExact s k.all := sane.slots.same (sameOut_leaves fun r _ p => by rw [words]) used
  obtain ⟨freed, books', frees, trees⟩ := destroy_spec books (Machine.mem_all member)
  have gone : root ∉ k.lost := Finset.disjoint_left.mp sane.apart member
  have all : k.all.erase root = k.live.erase root ∪ k.lost := by
    unfold Machine.all
    rw [Finset.erase_union_distrib, Finset.erase_eq_of_notMem gone]
  have home' : Home s.words root := by
    rw [words]
    exact home
  have slots' := (slots.erase (Machine.mem_all member) home').same (sameOut_leaves trees.leaves)
    frees.used
  rw [all] at books' slots' trees
  refine ⟨⟨_, books'⟩, slots', fun r inside p => ?_, Finset.disjoint_of_subset_left
    (Finset.erase_subset _ _) sane.apart⟩
  rw [trees.leaves r (Finset.mem_union_right _ inside), words]
  exact sane.home r inside p

/-- The steps that drop no entry of a page that is out: no page is mapped over one,
and no space is taken down that has one. -/
def Spares (k : Machine) : Event → Prop
  | .map root address _ _ => isSwappedEntry (leafAt k.paging.words root (indexes address)) = false
  | .destroy root => Home k.paging.words root
  | .exec _ => Home k.paging.words k.paging.cr3
  | _ => True

theorem Sane.step {e : Event} (sane : Sane managed k) (spares : Spares k e)
    (taken : step k e = some k') : Sane managed k' := by
  cases e with
  | create => exact sane.create taken
  | take => exact sane.take taken
  | give frame => exact sane.give taken
  | map root address frame flags => exact sane.map spares taken
  | activate root =>
      obtain ⟨chain, books⟩ := sane.books
      obtain rfl := Option.some.inj taken
      exact sane.same ⟨chain, books.congr rfl rfl rfl rfl⟩ (sameOut_leaves fun _ _ _ => rfl) rfl
  | evict root => exact sane.evict taken
  | swapIn address => exact sane.swapIn taken
  | fork root => exact sane.fork taken
  | destroy root =>
      simp only [Conservation.step, Option.ite_none_right_eq_some, Option.some.injEq] at taken
      obtain ⟨member, rfl⟩ := taken
      exact sane.erase member spares rfl rfl rfl rfl rfl
  | exec fresh =>
      simp only [Conservation.step, Option.ite_none_right_eq_some, Option.some.injEq] at taken
      obtain ⟨⟨-, member, -⟩, rfl⟩ := taken
      exact sane.erase member spares rfl rfl rfl rfl rfl

/-- A machine as `init` leaves it. -/
def booted (frames : List Word) : Machine := ⟨init statics frames, ∅, ∅, []⟩

theorem booted_sane {frames : List Word} (framed : ∀ f ∈ frames, Framed f) (once : frames.Nodup) :
    Sane frames.toFinset (booted frames) := by
  have unused : ∀ frames s, (init s frames).used = s.used := by
    intro frames
    induction frames with
    | nil => exact fun s => rfl
    | cons frame rest ih => exact fun s => ih (s.deallocate frame)
  refine ⟨⟨_, init_books framed once⟩, ⟨⟨fun n => ?_, fun r inside => ?_⟩, fun n marked => ?_⟩,
    fun r inside => absurd inside (Finset.notMem_empty r), Finset.disjoint_empty_left _⟩
  · exact le_of_eq_of_le (slotCount_empty _ n) (Nat.zero_le 1)
  · exact absurd inside (Finset.notMem_empty r)
  · have none : (booted frames).paging.used n = false := congrFun (unused frames statics) n
    rw [none] at marked
    cases marked

theorem reached_sane
    (reached : Reached Conservation.step (fun k => ∃ managed, Sane managed k) Spares k) :
    ∃ managed, Sane managed k := by
  refine Reached.invariant (P := fun k => ∃ managed, Sane managed k) (fun _ begun => begun) ?_ reached
  rintro s e s' ⟨managed, sane⟩ spares taken
  exact ⟨managed, sane.step spares taken⟩

/-- In every run that spares the entries of the pages that are out, a slot is marked
used exactly when one leaf entry of one live space names it; with no space left no
slot is used. -/
theorem slots_conserved
    (reached : Reached Conservation.step (fun k => ∃ managed, Sane managed k) Spares k) :
    (∀ n : Fin Frames.slots, k.paging.used n = true ↔ slotCount k.paging.words k.live n.val = 1) ∧
      (k.live = ∅ → ∀ n : Fin Frames.slots, k.paging.used n = false) := by
  obtain ⟨managed, sane⟩ := reached_sane reached
  refine ⟨sane.conserved, fun empty n => ?_⟩
  by_contra used
  have one := (sane.conserved n).mp (Bool.of_not_eq_false used)
  rw [empty] at one
  rw [slotCount_empty] at one
  cases one

def sixFrames : List Word := [0x105000, 0x104000, 0x103000, 0x102000, 0x101000, 0x100000]

def spaceWith (address : Word) : List Event :=
  [.create, .take, .map 0x100000 address 0x101000 (user ||| writable)]

theorem spaceWith_reached (address : Word)
    (taken : ((runAll Conservation.step (booted sixFrames) (spaceWith address)).map fun k =>
      (k.live, k.lost, k.hand)) = some ({0x100000}, ∅, []))
    (resident : ((runAll Conservation.step (booted sixFrames) [.create, .take]).map fun k =>
      isSwappedEntry (leafAt k.paging.words 0x100000 (indexes address))) = some false) :
    ∃ k, runAll Conservation.step (booted sixFrames) (spaceWith address) = some k ∧
      Reached Conservation.step (fun k => ∃ managed, Sane managed k) Spares k ∧
        k.live = {0x100000} ∧ k.lost = ∅ ∧ k.hand = [] := by
  obtain ⟨k, run, shape⟩ := Option.map_eq_some_iff.mp taken
  simp only [Prod.mk.injEq] at shape
  have all : (sixFrames.all fun f => decide (Framed f)) = true := by decide +kernel
  have framed : ∀ f ∈ sixFrames, Framed f := fun f inside =>
    of_decide_eq_true (List.all_eq_true.mp all f inside)
  have once : sixFrames.Nodup := by decide +kernel
  refine ⟨k, run, (Reached.start ⟨_, booted_sane framed once⟩).runAll ?_ run, shape⟩
  refine ⟨trivial, fun s1 first => ⟨trivial, fun s2 second => ⟨?_, fun _ _ => trivial⟩⟩⟩
  simp only [runAll, first, second, Option.bind_some, Option.map_some, Option.some.injEq] at resident
  exact resident

def onePage : List Event := spaceWith 0x400000

theorem onePage_reached : ∃ k, runAll Conservation.step (booted sixFrames) onePage = some k ∧
    Reached Conservation.step (fun k => ∃ managed, Sane managed k) Spares k ∧
      k.live = {0x100000} ∧ k.lost = ∅ ∧ k.hand = [] :=
  spaceWith_reached 0x400000 (by decide +kernel) (by decide +kernel)

private theorem pageOut_reached : ∃ k,
    Reached Conservation.step (fun k => ∃ managed, Sane managed k) Spares k ∧
      k.live = {0x100000} ∧ k.paging.used 0 = true := by
  have taken : (((runAll Conservation.step (booted sixFrames) onePage).bind fun k =>
      Conservation.step k (.evict 0x100000)).map fun k => (k.live, k.paging.used 0)) =
      some ({0x100000}, true) := by decide +kernel
  obtain ⟨k, run, reached, -⟩ := onePage_reached
  rw [run, Option.bind_some] at taken
  obtain ⟨k', evicted, shape⟩ := Option.map_eq_some_iff.mp taken
  have fair : Spares k (.evict 0x100000) := trivial
  exact ⟨k', .step reached fair evicted, Prod.mk.inj shape⟩

/-- The slot of the page is used, and the page is the one out in it. -/
theorem slots_conserved_pageOut : ∃ k : Machine, k.live = {0x100000} ∧
    slotCount k.paging.words k.live 0 = 1 := by
  obtain ⟨k, reached, live, used⟩ := pageOut_reached
  exact ⟨k, live, ((slots_conserved reached).1 0).mp used⟩

/-- Destroying the space keeps the slot: no space is left, and it is still used. -/
theorem slot_leaked : ¬∀ k, Reached Conservation.step (fun k => ∃ managed, Sane managed k)
    (fun _ _ => True) k → ∀ n : Fin Frames.slots,
      k.paging.used n = true ↔ slotCount k.paging.words k.live n.val = 1 := by
  intro always
  obtain ⟨k, reached, live, used⟩ := pageOut_reached
  obtain ⟨managed, sane⟩ := reached_sane reached
  obtain ⟨chain, books⟩ := sane.books
  have member : (0x100000 : Word) ∈ k.live := by
    rw [live]
    exact Finset.mem_singleton_self _
  obtain ⟨freed, -, frees, -⟩ := destroy_spec books (Machine.mem_all member)
  have taken : Conservation.step k (.destroy 0x100000) = some { k with
      paging := PageTables.destroy k.paging 0x100000, live := k.live.erase 0x100000 } := if_pos member
  have one := (always _ (.step (.start ⟨managed, sane⟩) trivial taken) 0).mp (by
    rw [frees.used]
    exact used)
  rw [live, Finset.erase_singleton, slotCount_empty] at one
  cases one

end Machines

end FiveAM.Memory.Conservation
