/- GID: FiveAM/Memory/Transparency
   source: kernel/src/memory.rs, kernel/src/swap.rs
   digest: Programs cannot tell which of their pages are out: swapping refines a memory
   that never swaps. -/

import FiveAM.Memory.UserAccess
import FiveAM.Memory.Conservation

set_option autoImplicit false
set_option relaxedAutoImplicit false

namespace FiveAM.Memory.Transparency

open FiveAM.Process.TaskTable (Word)
open FiveAM.Memory.Entries FiveAM.Memory.Frames FiveAM.Memory.Replace FiveAM.Memory.PageTables
open FiveAM.Memory.Swap FiveAM.Memory.Ownership FiveAM.Memory.Residency FiveAM.Memory.Choosing
open FiveAM.Memory.Eviction FiveAM.Memory.Contents FiveAM.Memory.Return
open FiveAM.Memory.UserAccess FiveAM.Lib.RadixTables FiveAM.Lib.Runs

/-- Memory, and the frames that kernel code has taken and not used or given back. -/
structure Pager where
  paging : Paging
  hand : List Word

inductive Event where
  /-- `evict_one(root)`: the caller is left with the frame. -/
  | evict (root : Word)
  /-- A caller gives back a frame it got. -/
  | release (frame : Word)
  /-- Another space becomes the active one. -/
  | activate (root : Word)
  | swapIn (address : Word)
  | load (address : Word)
  | store (address value : Word)

/-- One event on a machine whose address spaces are `live`. Programs, and the page
faults they take, are those of the active space; a load or store that faults is no
event. -/
def step (live : Finset Word) (k : Pager) : Event → Option Pager
  | .evict root =>
      if root ∈ live then
        let (frame, s) := evictOne k.paging root
        some ⟨s, frame.toList ++ k.hand⟩
      else none
  | .release frame =>
      if frame ∈ k.hand then some ⟨k.paging.deallocate frame, k.hand.erase frame⟩ else none
  | .activate root => some ⟨{ k.paging with cr3 := root }, k.hand⟩
  | .swapIn address =>
      if k.paging.cr3 ∈ live ∧ indexes address 3 = 0 then
        some ⟨(swapIn k.paging address).2, k.hand⟩
      else none
  | .load address =>
      if k.paging.cr3 ∈ live ∧ indexes address 3 = 0 then
        (load k.paging address).map fun found => ⟨found.2, k.hand⟩
      else none
  | .store address value =>
      if k.paging.cr3 ∈ live ∧ indexes address 3 = 0 then
        (store k.paging address value).map fun s => ⟨s, k.hand⟩
      else none

/-- A memory without a disk: the active space, and what each page holds. -/
structure Ideal where
  active : Word
  pages : Word → (Nat → Index) → Option Table

open Classical in
/-- The same event where no page ever leaves: only stores change pages, and a store
shows in the pages that share its frame. -/
noncomputable def Ideal.step (together : Word → (Nat → Index) → Word → (Nat → Index) → Prop)
    (i : Ideal) : Event → Ideal
  | .activate root => { i with active := root }
  | .store address value =>
      { i with pages := fun r p =>
          if together r p i.active (indexes address) then
            (i.pages r p).map fun page => Function.update page (wordOf address) value
          else i.pages r p }
  | _ => i

/-- What a machine that began at `start` has in common with the memory that does not
swap, and what its slots and its disk are like. -/
structure Follows (start : Paging) (managed live : Finset Word) (k : Pager) (i : Ideal) : Prop where
  books : ∃ chain, Books k.paging managed live k.hand chain
  slots : SlotsHeld k.paging live
  active : k.paging.cr3 = i.active
  contents : ∀ r ∈ live, ∀ p, contents k.paging r p = i.pages r p
  flags : ∀ r ∈ live, ∀ p, steady (leafAt k.paging.words r p) = steady (leafAt start.words r p)
  together : ∀ r ∈ live, ∀ r' ∈ live, ∀ p p',
    Together k.paging r p r' p' ↔ Together start r p r' p'
  log : ∃ more, k.paging.disk.written = start.disk.written ++ more ∧
    ∀ n ∈ more, swapStart ≤ n ∧ n < swapStart + Frames.slots * sectorsPerPage

variable {start : Paging} {managed live : Finset Word} {k k' : Pager} {i : Ideal}

theorem Follows.unseen (follows : Follows start managed live k i) {s : Paging} {hand : List Word}
    (unseen : Unseen k.paging s live) (books : ∃ chain, Books s managed live hand chain)
    (slots : SlotsHeld s live) (active : s.cr3 = k.paging.cr3)
    (log : ∃ more, s.disk.written = k.paging.disk.written ++ more ∧
      ∀ n ∈ more, swapStart ≤ n ∧ n < swapStart + Frames.slots * sectorsPerPage) :
    Follows start managed live ⟨s, hand⟩ i where
  books := books
  slots := slots
  active := active.trans follows.active
  contents r member p := (unseen.contents r member p).trans (follows.contents r member p)
  flags r member p := (unseen.flags r member p).trans (follows.flags r member p)
  together r member r' member' p p' :=
    (unseen.together r member r' member' p p').trans (follows.together r member r' member' p p')
  log := by
    obtain ⟨more, grown, inside⟩ := follows.log
    obtain ⟨more', grown', inside'⟩ := log
    refine ⟨more ++ more', by rw [grown', grown, List.append_assoc], fun n member => ?_⟩
    rcases List.mem_append.mp member with here | here
    · exact inside n here
    · exact inside' n here

private theorem same_log (s : Paging) : ∃ more, s.disk.written = s.disk.written ++ more ∧
    ∀ n ∈ more, swapStart ≤ n ∧ n < swapStart + Frames.slots * sectorsPerPage :=
  ⟨[], (List.append_nil _).symm, fun _ member => absurd member List.not_mem_nil⟩

theorem Follows.evict (follows : Follows start managed live k i) {root : Word}
    (member : root ∈ live) :
    Follows start managed live ⟨(evictOne k.paging root).2,
      (evictOne k.paging root).1.toList ++ k.hand⟩ i := by
  obtain ⟨chain, books⟩ := follows.books
  obtain ⟨quiet, slots, books'⟩ :=
    evicts_quiet (evictOne_spec books member) books follows.slots member
  exact follows.unseen quiet.unseen ⟨chain, books'⟩ slots quiet.cr3 quiet.log

theorem Follows.release (follows : Follows start managed live k i) {frame : Word}
    (held : frame ∈ k.hand) :
    Follows start managed live ⟨k.paging.deallocate frame, k.hand.erase frame⟩ i := by
  obtain ⟨chain, books⟩ := follows.books
  have books := books.perm (List.perm_cons_erase held).symm
  obtain ⟨kept, books'⟩ := books.give
  exact follows.unseen (Unseen.give books) ⟨_, books'⟩ (slotsHeld_kept follows.slots kept rfl) rfl
    (same_log k.paging)

theorem Follows.load (follows : Follows start managed live k i) {address value : Word} {s : Paging}
    (member : k.paging.cr3 ∈ live) (low : indexes address 3 = 0)
    (loaded : load k.paging address = some (value, s)) :
    Follows start managed live ⟨s, k.hand⟩ i := by
  obtain ⟨chain, books⟩ := follows.books
  obtain ⟨aging, -, -⟩ := load_spec books member low loaded
  refine follows.unseen (Unseen.aging books aging) ⟨chain, aging.books books⟩
    (follows.slots.aging aging) aging.cr3 ?_
  rw [aging.disk]
  exact same_log k.paging

theorem Follows.store (follows : Follows start managed live k i) {address value : Word} {s : Paging}
    (member : k.paging.cr3 ∈ live) (low : indexes address 3 = 0)
    (stored : store k.paging address value = some s) :
    Follows start managed live ⟨s, k.hand⟩
      (i.step (Together start) (.store address value)) := by
  classical
  obtain ⟨chain, books⟩ := follows.books
  obtain ⟨aged, aging, there, -, rfl⟩ := store_spec books member low stored
  have books1 := aging.books books
  have unseen := Unseen.aging books aging
  have leaf := aging.leaves k.paging.cr3 member (indexes address)
  have there1 : has (leafAt aged.words k.paging.cr3 (indexes address)) present = true :=
    (present_ageless leaf).trans there
  have frame := frameOf_ageless leaf
  rw [← frame]
  obtain ⟨trees, books2, changed⟩ := write_page books1 (refCount_pos member there1) (wordOf address)
    value
  refine ⟨⟨chain, books2⟩, slotsHeld_kept (follows.slots.aging aging) trees rfl,
    aging.cr3.trans follows.active, fun r live' p => ?_, fun r live' p => ?_,
    fun r live' r' live'' p p' => ?_, ?_⟩
  · rw [changed r live' p]
    have same : (has (leafAt aged.words r p) present = true ∧
        frameOf (leafAt aged.words r p) = frameOf (leafAt aged.words k.paging.cr3 (indexes address))) ↔
        Together start r p i.active (indexes address) := by
      rw [← follows.active, ← follows.together r live' k.paging.cr3 member,
        ← unseen.together r live' k.paging.cr3 member]
      constructor
      · rintro ⟨present', frames⟩
        exact Or.inr ⟨present', there1, frames⟩
      · rintro (⟨rfl, pages⟩ | ⟨present', -, frames⟩)
        · have entry : leafAt aged.words k.paging.cr3 p =
              leafAt aged.words k.paging.cr3 (indexes address) :=
            entryAt_indexes fun j low => pages j low
          rw [entry]
          exact ⟨there1, rfl⟩
        · exact ⟨present', frames⟩
    have before := (unseen.contents r live' p).trans (follows.contents r live' p)
    simp only [Ideal.step, before]
    by_cases shares : Together start r p i.active (indexes address)
    · rw [if_pos (same.mpr shares), if_pos shares]
    · rw [if_neg fun here => shares (same.mp here), if_neg shares]
  · rw [trees.leaves r live' p]
    exact (unseen.flags r live' p).trans (follows.flags r live' p)
  · have kept : Together (aged.write (frameOf (leafAt aged.words k.paging.cr3 (indexes address)))
        (wordOf address) value) r p r' p' ↔ Together aged r p r' p' := by
      unfold Together
      rw [trees.leaves r live' p, trees.leaves r' live'' p']
    rw [kept]
    exact (unseen.together r live' r' live'' p p').trans (follows.together r live' r' live'' p p')
  · change ∃ more, aged.disk.written = _ ∧ _
    rw [aging.disk]
    exact follows.log

theorem Follows.step (follows : Follows start managed live k i) {e : Event}
    (taken : step live k e = some k') :
    Follows start managed live k' (i.step (Together start) e) := by
  cases e with
  | evict root =>
      simp only [Transparency.step, Option.ite_none_right_eq_some, Option.some.injEq] at taken
      obtain ⟨member, rfl⟩ := taken
      exact follows.evict member
  | release frame =>
      simp only [Transparency.step, Option.ite_none_right_eq_some, Option.some.injEq] at taken
      obtain ⟨held, rfl⟩ := taken
      exact follows.release held
  | activate root =>
      simp only [Transparency.step, Option.some.injEq] at taken
      subst taken
      obtain ⟨chain, books⟩ := follows.books
      exact ⟨⟨chain, books.congr rfl rfl rfl rfl⟩, slotsHeld_kept follows.slots
        (trees_kept fun _ _ => rfl) rfl, rfl, follows.contents, follows.flags, follows.together,
        follows.log⟩
  | swapIn address =>
      simp only [Transparency.step, Option.ite_none_right_eq_some, Option.some.injEq] at taken
      obtain ⟨⟨member, low⟩, rfl⟩ := taken
      obtain ⟨chain, books⟩ := follows.books
      obtain ⟨unseen, slots, books', active, log⟩ := swapIn_kept books follows.slots member low
      exact follows.unseen unseen books' slots active log
  | load address =>
      simp only [Transparency.step, Option.ite_none_right_eq_some] at taken
      obtain ⟨⟨member, low⟩, mapped⟩ := taken
      obtain ⟨⟨value, s⟩, loaded, rfl⟩ := Option.map_eq_some_iff.mp mapped
      exact follows.load member low loaded
  | store address value =>
      simp only [Transparency.step, Option.ite_none_right_eq_some] at taken
      obtain ⟨⟨member, low⟩, mapped⟩ := taken
      obtain ⟨s, stored, rfl⟩ := Option.map_eq_some_iff.mp mapped
      exact follows.store member low stored

theorem Follows.run (follows : Follows start managed live k i) {events : List Event}
    (taken : runAll (Transparency.step live) k events = some k') :
    Follows start managed live k' (events.foldl (Ideal.step (Together start)) i) := by
  induction events generalizing k i with
  | nil =>
      obtain rfl := Option.some.inj taken
      exact follows
  | cons e rest ih =>
      obtain ⟨next, here, later⟩ := Option.bind_eq_some_iff.mp taken
      exact ih (follows.step here) later

/-- Whatever is sent out and brought back, under any policy and with any answers of
the disk: every page holds what it would hold in a memory that never swaps, every
load gives that, the flags that are not paging's own stay, and the slots and the
sectors written are as they must be. -/
theorem swapping_transparent {chain : List Word} {start : Pager}
    (books : Books start.paging managed live start.hand chain)
    (slots : SlotsHeld start.paging live) {events : List Event} {k : Pager}
    (run : runAll (Transparency.step live) start events = some k) :
    (∀ r ∈ live, ∀ p, contents k.paging r p =
      (events.foldl (Ideal.step (Together start.paging))
        ⟨start.paging.cr3, contents start.paging⟩).pages r p) ∧
    (∀ address value s, k.paging.cr3 ∈ live → indexes address 3 = 0 →
      load k.paging address = some (value, s) →
      ((events.foldl (Ideal.step (Together start.paging))
        ⟨start.paging.cr3, contents start.paging⟩).pages k.paging.cr3 (indexes address)).map
          (fun page => page (wordOf address)) = some value) ∧
    (∀ r ∈ live, ∀ p, steady (leafAt k.paging.words r p) =
      steady (leafAt start.paging.words r p)) ∧
    (∀ r ∈ live, ∀ r' ∈ live, ∀ p p', isSwappedEntry (leafAt k.paging.words r p) = true →
      isSwappedEntry (leafAt k.paging.words r' p') = true →
      slotOf (leafAt k.paging.words r p) = slotOf (leafAt k.paging.words r' p') →
      r = r' ∧ SamePage p p') ∧
    (∀ r ∈ live, ∀ p, isSwappedEntry (leafAt k.paging.words r p) = true →
      ∃ bound : slotOf (leafAt k.paging.words r p) < Frames.slots,
        k.paging.used ⟨_, bound⟩ = true) ∧
    (∀ m n : Fin Frames.slots, m ≠ n → ∀ i j, i < 8 → j < 8 →
      Paging.slotLba m.val + i ≠ Paging.slotLba n.val + j) ∧
    (∃ more, k.paging.disk.written = start.paging.disk.written ++ more ∧
      ∀ n ∈ more, 32768 ≤ n ∧ n < 49152) := by
  have begun : Follows start.paging managed live start ⟨start.paging.cr3, contents start.paging⟩ :=
    ⟨⟨chain, books⟩, slots, rfl, fun _ _ _ => rfl, fun _ _ _ => rfl, fun _ _ _ _ _ _ => Iff.rfl,
      same_log start.paging⟩
  have follows := begun.run run
  obtain ⟨chain', books'⟩ := follows.books
  refine ⟨follows.contents, fun address value s member low loaded => ?_, follows.flags,
    fun r member r' member' p p' out out' same => ?_, follows.slots.used,
    fun m n apart i j small small' => ?_, follows.log⟩
  · obtain ⟨-, resident, reads⟩ := load_spec books' member low loaded
    rw [← follows.contents k.paging.cr3 member, resident, reads]
    rfl
  · exact follows.slots.apart books' member' out' member out same
  · have other : m.val ≠ n.val := fun same => apart (Fin.ext same)
    rw [slotLba_eq, slotLba_eq]
    omega

private def roundTrip : List Event :=
  [.activate 0x100000, .store 0x400000 7, .evict 0x100000, .swapIn 0x400000]

/-- After the round trip the page holds the store. -/
theorem swapping_transparent_roundTrip : ∃ start k : Pager,
    runAll (Transparency.step {0x100000}) start roundTrip = some k ∧
      contents k.paging 0x100000 (indexes 0x400000) =
        (roundTrip.foldl (Ideal.step (Together start.paging))
          ⟨start.paging.cr3, contents start.paging⟩).pages 0x100000 (indexes 0x400000) := by
  have taken : ((runAll Conservation.step (Conservation.booted Conservation.sixFrames)
      Conservation.onePage).bind fun k => runAll (Transparency.step {0x100000}) ⟨k.paging, k.hand⟩
        roundTrip).isSome = true := by decide +kernel
  obtain ⟨m, run, reached, live, lost, hand⟩ := Conservation.onePage_reached
  obtain ⟨managed, sane⟩ := Conservation.reached_sane reached
  obtain ⟨chain, books⟩ := sane.books
  have slots := sane.slots.held
  rw [run, Option.bind_some] at taken
  obtain ⟨k, trip⟩ := Option.isSome_iff_exists.mp taken
  rw [Conservation.Machine.all, live, lost, Finset.union_empty] at books slots
  exact ⟨⟨m.paging, m.hand⟩, k, trip, (swapping_transparent books slots trip).1 0x100000
    (Finset.mem_singleton_self _) (indexes 0x400000)⟩

end FiveAM.Memory.Transparency
