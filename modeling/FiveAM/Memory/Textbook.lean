/- GID: FiveAM/Memory/Textbook
   source: kernel/src/bench.rs, kernel/src/replace.rs, kernel/src/memory.rs
   digest: The paging benchmark under `Fifo`, reference by reference against the textbook. -/

import FiveAM.Lib.FifoQueue
import FiveAM.Memory.FifoTable
import FiveAM.Memory.PagingBench
import Mathlib.Data.FinEnum

set_option autoImplicit false
set_option relaxedAutoImplicit false

namespace FiveAM.Memory.Textbook

open FiveAM.Process.TaskTable (Word)
open FiveAM.Memory.Entries FiveAM.Memory.Frames FiveAM.Memory.Replace FiveAM.Memory.PageTables
open FiveAM.Memory.Swap FiveAM.Memory.Ownership FiveAM.Memory.Residency FiveAM.Memory.Choosing
open FiveAM.Memory.Eviction FiveAM.Memory.Contents FiveAM.Memory.Return FiveAM.Memory.Spaces
open FiveAM.Memory.Conservation FiveAM.Memory.Forking FiveAM.Memory.CopyOnWrite FiveAM.Memory.StackGrowth
open FiveAM.Memory.UserAccess FiveAM.Memory.KernelStores FiveAM.Memory.ArrivalOrder
open FiveAM.Memory.FifoTable FiveAM.Memory.PagingBench FiveAM.Lib.RadixTables FiveAM.Lib.FifoQueue

variable {s t : Paging} {managed live : Finset Word} {hand chain chain' : List Word} {root : Word}
  {frames left : Nat} {queue : List Reference} {reference : Reference}

def entryOf (s : Paging) (root : Word) (reference : Reference) : Word :=
  leafAt s.words root (indexes (pageAddress reference))

def outs (s : Paging) (root : Word) : Finset Reference :=
  Finset.univ.filter fun reference => isSwappedEntry (entryOf s root reference) = true

def spareSlots (s : Paging) : Finset (Fin Frames.slots) :=
  Finset.univ.filter fun slot => s.used slot = false

/-- The pages of a space are those of a queue of references, and `Fifo` has recorded them in
this order; there are frames and slots for what is still to come, which is not more than
`left` references. -/
structure Tracks (s : Paging) (managed live : Finset Word) (hand chain : List Word) (root : Word)
    (frames left : Nat) (queue : List Reference) : Prop where
  books : Books s managed live hand chain
  held : SlotsHeld s live
  member : root ∈ live
  cr3 : s.cr3 = root
  active : s.replacers.active = 1
  table : Holds s.replacers.fifo (queue.map pageAddress)
  dated : s.replacers.fifo.next + left ≤ 2 ^ 63
  resident : ∀ p, has (leafAt s.words root p) present = true ↔
    ∃ reference ∈ queue, SamePage p (indexes (pageAddress reference))
  able : ∀ reference ∈ queue, has (entryOf s root reference) swapped = false ∧
    s.shareCount (frameOf (entryOf s root reference)) ≤ 1
  open' : ∀ reference, has (entryOf s root reference) present = true ∨
    isSwappedEntry (entryOf s root reference) = true →
      has (entryOf s root reference) writable = true
  room : frames + 3 ≤ chain.length + queue.length ∨
    (∃ u, Route userTree s.words (indexes (pageAddress 0)) 3 root 0 u) ∧
      frames ≤ chain.length + queue.length
  spare : 256 ≤ (spareSlots s).card + (outs s root).card
  answers : ∀ n, s.disk.answers n = none

section Pages

theorem writable_steady {e e' : Word} (same : steady e' = steady e) :
    has e' writable = has e writable := by
  have bit : ∀ e, (steady e).getLsbD 1 = e.getLsbD 1 := by
    intro e
    unfold steady
    rw [BitVec.getLsbD_and, show steadyBits.getLsbD 1 = true from by decide, Bool.and_true]
  rw [has_writable, has_writable, ← bit e', same, bit e]

theorem Tracks.queued (tracks : Tracks s managed live hand chain root frames left queue)
    (reference : Reference) :
    has (entryOf s root reference) present = true ↔ reference ∈ queue := by
  refine (tracks.resident _).trans ⟨?_, fun inside => ⟨reference, inside, fun _ _ => rfl⟩⟩
  rintro ⟨other, inside, same⟩
  rw [reference_eq same]
  exact inside

theorem Tracks.once (tracks : Tracks s managed live hand chain root frames left queue) :
    queue.Nodup := tracks.table.nodup.of_map

theorem Tracks.listed (tracks : Tracks s managed live hand chain root frames left queue)
    {page : Page} (listed : page ∈ userPages s root) :
    ∃ reference ∈ queue, page.address = pageAddress reference := by
  have sound := tracks.books.sound root tracks.member
  obtain ⟨on, entry, there⟩ := mem_userPages sound listed
  rw [entry, ← on.leaf] at there
  obtain ⟨reference, inside, same⟩ := (tracks.resident _).mp there
  refine ⟨reference, inside, ?_⟩
  rw [address_userPages sound listed, ← addressAt_pageAddress]
  simp only [addressAt, same 2 (by decide), same 1 (by decide), same 0 (by decide)]

theorem Tracks.few (tracks : Tracks s managed live hand chain root frames left queue) :
    (userPages s root).length ≤ queue.length := by
  have sound := tracks.books.sound root tracks.member
  have apart : ((userPages s root).map Page.address).Nodup := by
    refine List.pairwise_map.mpr ((userPages_apart s root).imp fun {a b} other same => other ?_)
    intro j _
    rw [same]
  have inside : (userPages s root).map Page.address ⊆ queue.map pageAddress := by
    intro address there
    obtain ⟨page, listed, rfl⟩ := List.mem_map.mp there
    obtain ⟨reference, inside, same⟩ := tracks.listed listed
    exact List.mem_map.mpr ⟨reference, inside, same.symm⟩
  have fewer := (apart.subperm inside).length_le
  rwa [List.length_map, List.length_map] at fewer

private theorem shareCount_shared (same : t.shared = s.shared) (frame : Word) :
    t.shareCount frame = s.shareCount frame := by
  simp only [Paging.shareCount, same]

theorem Tracks.kept (tracks : Tracks s managed live hand chain root frames left queue)
    (books : Books t managed live hand chain) (held : SlotsHeld t live)
    (leaves : ∀ p, ageless (leafAt t.words root p) = ageless (leafAt s.words root p))
    (routes : ∀ p u, Route userTree s.words p 3 root 0 u → Route userTree t.words p 3 root 0 u)
    (shared : t.shared = s.shared) (cr3 : t.cr3 = s.cr3) (used : t.used = s.used)
    (answers : t.disk.answers = s.disk.answers)
    (active : t.replacers.active = s.replacers.active)
    (fifo : t.replacers.fifo = s.replacers.fifo) :
    Tracks t managed live hand chain root frames left queue := by
  have entries : ∀ reference, ageless (entryOf t root reference) =
      ageless (entryOf s root reference) := fun reference => leaves _
  have same : outs t root = outs s root := by
    ext reference
    simp only [outs, Finset.mem_filter, isSwapped_ageless (entries reference)]
  refine ⟨books, held, tracks.member, cr3.trans tracks.cr3, active.trans tracks.active, ?_, ?_,
    fun p => ?_, fun reference inside => ?_, fun reference there => ?_, ?_, ?_, fun n => ?_⟩
  · rw [fifo]
    exact tracks.table
  · rw [fifo]
    exact tracks.dated
  · rw [present_ageless (leaves p)]
    exact tracks.resident p
  · rw [swapped_ageless (entries reference), frameOf_ageless (entries reference),
      shareCount_shared shared]
    exact tracks.able reference inside
  · rw [present_ageless (entries reference), isSwapped_ageless (entries reference)] at there
    rw [writable_steady (steady_ageless (entries reference))]
    exact tracks.open' reference there
  · refine tracks.room.imp_right fun both => ⟨?_, both.2⟩
    obtain ⟨u, route⟩ := both.1
    exact ⟨u, routes _ u route⟩
  · unfold spareSlots
    rw [same, used]
    exact tracks.spare
  · rw [answers]
    exact tracks.answers n

theorem Tracks.spend (tracks : Tracks s managed live hand chain root frames (left + 1) queue) :
    Tracks s managed live hand chain root frames left queue :=
  { tracks with dated := (Nat.le_succ _).trans tracks.dated }

theorem Tracks.aging (tracks : Tracks s managed live hand chain root frames left queue)
    (aging : Aging s t live) : Tracks t managed live hand chain root frames left queue :=
  tracks.kept (aging.books tracks.books) (tracks.held.aging aging)
    (aging.leaves root tracks.member)
    (fun p u route => aging.routes root tracks.member p 0 u route) aging.shared aging.cr3
    aging.used (by rw [aging.disk]) aging.active aging.fifo

theorem Tracks.store (tracks : Tracks s managed live hand chain root frames left queue)
    {frame : Word} (named : 0 < refCount s.words live frame) (i : Index) (value : Word) :
    Tracks (s.write frame i value) managed live hand chain root frames left queue := by
  obtain ⟨trees, books, -⟩ := write_page tracks.books named i value
  exact tracks.kept books (slotsHeld_kept tracks.held trees rfl)
    (fun p => congrArg ageless (trees.leaves root tracks.member p))
    (fun p u route => trees.routes root tracks.member p 0 u route) rfl rfl rfl rfl rfl rfl

end Pages

section Touching

theorem Tracks.putByte (tracks : Tracks s managed live hand chain root frames left queue)
    (inside : reference ∈ queue) (byte : BitVec 8) :
    Tracks (KernelStores.putByte s (pageAddress reference) byte) managed live hand chain root
      frames left queue := by
  have low := pageAddress_low reference
  have aged : ∀ bits, bits &&& ~~~ages = 0 → Tracks
      (((UserAccess.touch s (pageAddress reference) bits).map Prod.snd).getD s) managed live hand
        chain root frames left queue := by
    intro bits aging
    cases touched : UserAccess.touch s (pageAddress reference) bits with
    | none => exact tracks
    | some found =>
        obtain ⟨entry, t⟩ := found
        obtain ⟨-, -, aging⟩ := touch_spec tracks.books (tracks.cr3 ▸ tracks.member) low aging touched
        exact tracks.aging aging
  have marked := aged (accessed ||| dirty) (by decide)
  unfold KernelStores.putByte
  dsimp only
  generalize ((UserAccess.touch s (pageAddress reference) (accessed ||| dirty)).map Prod.snd).getD s
    = s1 at marked
  cases found : translate s1 (pageAddress reference) with
  | none => exact marked
  | some answer =>
      obtain ⟨physical, trail⟩ := answer
      have there := (marked.queued reference).mpr inside
      have sound := marked.books.sound root marked.member
      have here : physical = frameOf (entryOf s1 root reference) +
          (pageAddress reference &&& 0xfff) := by
        unfold PageTables.translate translateIn at found
        rw [marked.cr3] at found
        exact translateFrom_frame sound low (.here 3 root) found
      have frame : frameOf physical = frameOf (entryOf s1 root reference) := by
        rw [here, pageAddress_aligned]
        exact (congrArg frameOf (BitVec.add_zero _)).trans (frameOf_frameOf _)
      refine marked.store ?_ _ _
      rw [frame]
      exact refCount_pos marked.member there

theorem Tracks.touch (tracks : Tracks s managed live hand chain root frames left queue)
    (inside : reference ∈ queue) :
    ∃ t, PagingBench.touch s (pageAddress reference) reference = some t ∧
      Tracks t managed live hand chain root frames left queue := by
  have low := pageAddress_low reference
  have there := (tracks.queued reference).mpr inside
  obtain ⟨u, route⟩ : ∃ u, Route userTree s.words (indexes (pageAddress reference)) 3 root 0 u := by
    by_contra none
    unfold entryOf at there
    rw [leafAt_nowhere fun u route => none ⟨u, route⟩] at there
    exact absurd there (by decide)
  have table := (plainTable_iff low).mpr route
  have entry : s.words u (indexes (pageAddress reference) 0) = entryOf s root reference :=
    (entryAt_route route).symm
  obtain ⟨word, t, loaded⟩ : ∃ word t, load s (pageAddress reference) = some (word, t) := by
    unfold load UserAccess.touch
    rw [tracks.cr3, table]
    dsimp only
    rw [entry, if_neg (by rw [there]; decide)]
    exact ⟨_, _, rfl⟩
  obtain ⟨aging, -, -⟩ := load_spec tracks.books (tracks.cr3 ▸ tracks.member) low loaded
  have tracks' := tracks.aging aging
  unfold PagingBench.touch
  rw [loaded]
  dsimp only
  split_ifs with odd writes
  · exact ⟨_, rfl, tracks'.putByte inside _⟩
  · refine absurd ?_ writes
    have there' := (tracks'.queued reference).mpr inside
    have ready : Ready t root (pageAddress reference) :=
      ⟨tracks'.books.sound root tracks'.member, there', tracks'.open' reference (Or.inl there')⟩
    rw [← tracks'.cr3] at ready
    exact ready.ringZero (pageAddress_user reference)
  · exact ⟨_, rfl, tracks'⟩

end Touching

section Leaving

theorem references_card : Fintype.card Reference = 256 := by
  decide +kernel

theorem Tracks.eligible (tracks : Tracks s managed live hand chain root frames left queue) {i : Nat}
    (inside : i < (userPages s root).length) :
    PageSet.eligible s (userPages s root) i = true := by
  have sound := tracks.books.sound root tracks.member
  have listed := pageAt_mem inside
  obtain ⟨on, -, -⟩ := mem_userPages sound listed
  obtain ⟨reference, queued, address⟩ := tracks.listed listed
  have entry : PageSet.entry s (userPages s root) i = entryOf s root reference := by
    unfold PageSet.entry entryOf
    rw [← on.leaf, address]
  have there := (tracks.queued reference).mpr queued
  obtain ⟨resident, alone⟩ := tracks.able reference queued
  unfold PageSet.eligible Paging.isShared
  rw [entry, there, resident, decide_eq_false (Nat.not_lt.mpr alone)]
  rfl

theorem Tracks.chooses
    (tracks : Tracks s managed live hand chain root frames left (reference :: queue)) :
    ∃ i, i < (userPages s root).length ∧ (fifoChoose s (userPages s root)).1 = some i ∧
      (pageAt (userPages s root) i).address = pageAddress reference := by
  have sound := tracks.books.sound root tracks.member
  have dated := tracks.dated
  refine Holds.chooses tracks.table ?_ (fun i inside => ?_) (fun i inside => tracks.eligible inside)
    (by omega)
  · have there := (tracks.queued reference).mpr List.mem_cons_self
    obtain ⟨page, listed, same⟩ := listed_of_present there
    obtain ⟨i, inside, here⟩ := List.getElem_of_mem listed
    refine ⟨i, inside, ?_⟩
    have at' : pageAt (userPages s root) i = page := by
      rw [pageAt, List.getD_eq_getElem _ _ inside, here]
    rw [at', address_userPages sound listed, ← addressAt_pageAddress]
    simp only [addressAt, same 2 (by decide), same 1 (by decide), same 0 (by decide)]
  · obtain ⟨other, queued, same⟩ := tracks.listed (pageAt_mem inside)
    rw [same]
    exact List.mem_map_of_mem queued

/-- The entry of one page is now `e`, and every other page has the entry it had. -/
def Turns (s t : Paging) (root : Word) (reference : Reference) (e : Word) : Prop :=
  ∀ p, (SamePage p (indexes (pageAddress reference)) → leafAt t.words root p = e) ∧
    (¬SamePage p (indexes (pageAddress reference)) → leafAt t.words root p = leafAt s.words root p)

theorem Turns.here {e : Word} (turns : Turns s t root reference e) : entryOf t root reference = e :=
  (turns _).1 fun _ _ => rfl

theorem Turns.other {e : Word} (turns : Turns s t root reference e) {other : Reference}
    (apart : other ≠ reference) : entryOf t root other = entryOf s root other :=
  (turns _).2 fun same => apart (reference_eq same)

theorem turns_of_leaf {e : Word} (sets : LeafSet s t live root (indexes (pageAddress reference)) e)
    (member : root ∈ live) : Turns s t root reference e := by
  classical
  intro p
  rw [sets.leaves root member p]
  refine ⟨fun same => if_pos ⟨rfl, same⟩, fun other => if_neg fun both => other both.2⟩

theorem outs_turned {e : Word} (turns : Turns s t root reference e) (out : isSwappedEntry e = true) :
    outs t root = insert reference (outs s root) := by
  ext other
  unfold outs
  rw [Finset.mem_insert, Finset.mem_filter, Finset.mem_filter]
  by_cases same : other = reference
  · rw [same, turns.here]
    simp [out]
  · rw [turns.other same]
    simp [same]

theorem Tracks.home (tracks : Tracks s managed live hand chain root frames left queue)
    (inside : reference ∈ queue) : reference ∉ outs s root := by
  intro out
  have gone := (Finset.mem_filter.mp out).2
  unfold isSwappedEntry at gone
  rw [(tracks.queued reference).mpr inside] at gone
  cases gone

theorem Tracks.slot (tracks : Tracks s managed live hand chain root frames left queue)
    (inside : reference ∈ queue) : ∃ slot, s.used slot = false ∧
      s.allocateSlot = (some slot, { s with used := Function.update s.used slot true }) := by
  rcases allocateSlot_spec s with found | ⟨full, -⟩
  · exact found
  · have none : spareSlots s = ∅ := by
      refine Finset.filter_eq_empty_iff.mpr fun slot _ => ?_
      rw [full slot]
      decide
    have fewer : (outs s root).card < (Finset.univ : Finset Reference).card := by
      refine Finset.card_lt_card (Finset.ssubset_univ_iff.mpr fun all => tracks.home inside ?_)
      rw [all]
      exact Finset.mem_univ reference
    have spare := tracks.spare
    rw [none, Finset.card_empty, Nat.zero_add] at spare
    rw [Finset.card_univ, references_card] at fewer
    omega

private theorem onEvicted_next (p : Fifo) (address : Word) :
    (Fifo.onEvicted p address).next = p.next := by
  unfold Fifo.onEvicted
  split
  · rfl
  · rfl

private theorem noteEvicted_active (active : s.replacers.active = 1) (address : Word) :
    noteEvicted s address = { s with replacers := { s.replacers with
      fifo := Fifo.onEvicted s.replacers.fifo address } } := if_pos active

private theorem sentOut_rest (active : s.replacers.active = 1) (page : Page)
    (slot : Fin Frames.slots) :
    (sentOut s page slot).shared = s.shared ∧ (sentOut s page slot).cr3 = s.cr3 ∧
      (sentOut s page slot).used = Function.update s.used slot true ∧
      (sentOut s page slot).disk.answers = s.disk.answers ∧
      (sentOut s page slot).replacers.active = 1 ∧
      (sentOut s page slot).replacers.fifo = Fifo.onEvicted s.replacers.fifo page.address := by
  unfold sentOut
  dsimp only
  rw [noteEvicted_active]
  · exact ⟨rfl, rfl, rfl, rfl, active, rfl⟩
  · exact active

theorem Tracks.leave
    (tracks : Tracks s managed live hand chain root frames left (reference :: queue)) :
    ∃ frame t, evictOne s root = (some frame, t) ∧
      Tracks (t.deallocate frame) managed live hand (frame :: chain) root frames left queue := by
  have sound := tracks.books.sound root tracks.member
  obtain ⟨i, inside, named, address⟩ := tracks.chooses
  obtain ⟨slot, unused, found⟩ := tracks.slot List.mem_cons_self
  obtain ⟨on, -, -⟩ := mem_userPages sound (pageAt_mem inside)
  have evicts : evictOne s root = evictPage s (pageAt (userPages s root) i) := by
    rw [evictOne_fifo tracks.active, named]
  generalize pageAt (userPages s root) i = page at address on evicts
  have entry : s.words page.table page.index = entryOf s root reference := by
    rw [← on.leaf, address]
    rfl
  have there : has (s.words page.table page.index) present = true := by
    rw [entry]
    exact (tracks.queued reference).mpr List.mem_cons_self
  have alone : s.shareCount (frameOf (s.words page.table page.index)) ≤ 1 := by
    rw [entry]
    exact (tracks.able reference List.mem_cons_self).2
  have written : (s.disk.answers s.disk.transfers).isNone = true := by
    rw [tracks.answers]
    rfl
  have books : Books (sentOut s page slot) managed live
      (frameOf (s.words page.table page.index) :: hand) chain :=
    sentOut_books tracks.books tracks.member on there alone
  have held : SlotsHeld (sentOut s page slot) live :=
    sentOut_slots tracks.books tracks.held tracks.member on there unused
  have sets := sentOut_leaf slot tracks.books tracks.member on
  rw [evictPage_eq unused found, if_pos written] at evicts
  rw [address] at sets
  obtain ⟨shared, cr3, used, answers, active, fifo⟩ := sentOut_rest tracks.active page slot
  rw [address] at fifo
  generalize sentOut s page slot = t at books held sets shared cr3 used answers active fifo evicts
  have resident := present_outEntry slot (s.words page.table page.index)
  have out := isSwapped_outEntry slot (s.words page.table page.index)
  have steady' := steady_outEntry slot (s.words page.table page.index)
  generalize outEntry slot.val (s.words page.table page.index) = e at sets resident out steady'
  generalize frameOf (s.words page.table page.index) = frame at books evicts
  obtain ⟨trees, books'⟩ := books.give
  have first := List.nodup_cons.mp tracks.once
  have turns : Turns s (t.deallocate frame) root reference e := fun p => by
    rw [trees.leaves root tracks.member p]
    exact turns_of_leaf sets tracks.member p
  refine ⟨frame, t, evicts, books', slotsHeld_kept held trees rfl, tracks.member,
    cr3.trans tracks.cr3, active, ?_, ?_, fun p => ?_, fun other queued => ?_, fun other => ?_, ?_,
    ?_, fun n => ?_⟩
  · have gone := tracks.table.depart
    rw [← fifo] at gone
    exact gone
  · have dated := tracks.dated
    rw [← onEvicted_next s.replacers.fifo (pageAddress reference), ← fifo] at dated
    exact dated
  · by_cases here : SamePage p (indexes (pageAddress reference))
    · rw [(turns p).1 here, resident]
      refine iff_of_false Bool.false_ne_true ?_
      rintro ⟨other, queued, same⟩
      have known : reference = other :=
        reference_eq fun j low => (here j low).symm.trans (same j low)
      exact first.1 (known ▸ queued)
    · rw [(turns p).2 here, tracks.resident]
      refine ⟨?_, fun ⟨other, queued, same⟩ => ⟨other, List.mem_cons_of_mem _ queued, same⟩⟩
      rintro ⟨other, queued, same⟩
      rcases List.mem_cons.mp queued with rfl | queued
      · exact absurd same here
      · exact ⟨other, queued, same⟩
  · have apart : other ≠ reference := fun same => first.1 (same ▸ queued)
    rw [turns.other apart]
    obtain ⟨plain, alone⟩ := tracks.able other (List.mem_cons_of_mem _ queued)
    refine ⟨plain, ?_⟩
    exact (shareCount_shared (t := t.deallocate frame) shared _).le.trans alone
  · intro there
    by_cases same : other = reference
    · rw [same, turns.here, writable_steady steady', entry]
      exact tracks.open' reference (Or.inl ((tracks.queued reference).mpr List.mem_cons_self))
    · rw [turns.other same] at there ⊢
      exact tracks.open' other there
  · have room := tracks.room
    rw [List.length_cons] at room ⊢
    refine Or.imp (fun enough => by omega) (fun both => ⟨?_, by omega⟩) room
    obtain ⟨u, route⟩ := both.1
    exact ⟨u, trees.routes root tracks.member _ 0 u (sets.routes root tracks.member _ 0 u route)⟩
  · have spare := tracks.spare
    have fewer : spareSlots (t.deallocate frame) = (spareSlots s).erase slot := by
      ext n
      unfold spareSlots
      rw [Finset.mem_erase, Finset.mem_filter, Finset.mem_filter]
      change _ ∧ t.used n = false ↔ _
      rw [used, Function.update_apply]
      by_cases same : n = slot
      · simp [same]
      · simp [same]
    rw [fewer, outs_turned turns out, Finset.card_insert_of_notMem (tracks.home List.mem_cons_self),
      Finset.card_erase_of_mem]
    · omega
    · exact Finset.mem_filter.mpr ⟨Finset.mem_univ _, unused⟩
  · have kept := tracks.answers n
    rw [← answers] at kept
    exact kept

end Leaving

section Coming

private theorem onResident_next (p : Fifo) (address : Word) :
    (Fifo.onResident p address).next ≤ p.next + 1 := by
  unfold Fifo.onResident
  split_ifs
  · exact Nat.le_succ _
  · exact Nat.le_refl _

private theorem noteResident_active (active : s.replacers.active = 1) (address : Word) :
    noteResident s address = { s with replacers := { s.replacers with
      fifo := Fifo.onResident s.replacers.fifo address } } := if_pos active

theorem Tracks.come {e : Word}
    (tracks : Tracks s managed live hand chain root frames (left + 1) queue)
    (new : reference ∉ queue) (fits : queue.length < tracked)
    (books : Books t managed live hand chain') (held : SlotsHeld t live)
    (turns : Turns s t root reference e) (there : has e present = true)
    (plain : has e swapped = false) (open' : has e writable = true)
    (alone : s.shareCount (frameOf e) ≤ 1) (shared : t.shared = s.shared) (cr3 : t.cr3 = s.cr3)
    (answers : t.disk.answers = s.disk.answers) (active : t.replacers.active = s.replacers.active)
    (fifo : t.replacers.fifo = Fifo.onResident s.replacers.fifo (pageAddress reference))
    (way : ∃ u, Route userTree t.words (indexes (pageAddress 0)) 3 root 0 u)
    (room : frames ≤ chain'.length + queue.length + 1)
    (spare : 256 ≤ (spareSlots t).card + (outs t root).card) :
    Tracks t managed live hand chain' root frames left (queue ++ [reference]) := by
  refine ⟨books, held, tracks.member, cr3.trans tracks.cr3, active.trans tracks.active, ?_, ?_,
    fun p => ?_, fun other queued => ?_, fun other => ?_, Or.inr ⟨way, ?_⟩, spare, fun n => ?_⟩
  · rw [fifo, List.map_append, List.map_singleton]
    refine tracks.table.arrive (fun listed => ?_) (by rwa [List.length_map])
    obtain ⟨other, queued, same⟩ := List.mem_map.mp listed
    exact new (pageAddress_injective same ▸ queued)
  · have next := onResident_next s.replacers.fifo (pageAddress reference)
    have dated := tracks.dated
    rw [← fifo] at next
    omega
  · by_cases here : SamePage p (indexes (pageAddress reference))
    · rw [(turns p).1 here, there]
      exact iff_of_true rfl ⟨reference, List.mem_append_right _ List.mem_cons_self, here⟩
    · rw [(turns p).2 here, tracks.resident]
      constructor
      · rintro ⟨other, queued, same⟩
        exact ⟨other, List.mem_append_left _ queued, same⟩
      · rintro ⟨other, queued, same⟩
        rcases List.mem_append.mp queued with queued | last
        · exact ⟨other, queued, same⟩
        · rw [List.mem_singleton.mp last] at same
          exact absurd same here
  · rw [shareCount_shared shared]
    by_cases same : other = reference
    · rw [same, turns.here]
      exact ⟨plain, alone⟩
    · rw [turns.other same]
      exact tracks.able other ((List.mem_append.mp queued).resolve_right fun last =>
        same (List.mem_singleton.mp last))
  · intro stays
    by_cases same : other = reference
    · rw [same, turns.here]
      exact open'
    · rw [turns.other same] at stays ⊢
      exact tracks.open' other stays
  · rw [List.length_append, List.length_singleton]
    omega
  · rw [answers]
    exact tracks.answers n

private theorem route_any {m : Words} {a : Reference} {u : Word}
    (route : Route userTree m (indexes (pageAddress a)) 3 root 0 u) (b : Reference) :
    Route userTree m (indexes (pageAddress b)) 3 root 0 u :=
  route.indexes fun _ up low => indexes_upper b a up low

private theorem broughtIn_rest (active : s.replacers.active = 1) (table : Word) (i : Index)
    (frame entry page : Word) :
    (broughtIn s table i frame entry page).shared = s.shared ∧
      (broughtIn s table i frame entry page).cr3 = s.cr3 ∧
      (broughtIn s table i frame entry page).disk.answers = s.disk.answers ∧
      (broughtIn s table i frame entry page).replacers.active = s.replacers.active ∧
      (broughtIn s table i frame entry page).replacers.fifo =
        Fifo.onResident s.replacers.fifo page := by
  unfold broughtIn Paging.freeSlot
  split
  · rw [noteResident_active]
    · exact ⟨rfl, rfl, rfl, rfl, rfl⟩
    · exact active
  · rw [noteResident_active]
    · exact ⟨rfl, rfl, rfl, rfl, rfl⟩
    · exact active

private theorem Tracks.frame
    (tracks : Tracks s managed live hand chain root frames left queue)
    (fits : queue.length < frames) : ∃ frame rest head free, chain = frame :: rest ∧
      s.allocate = (some frame, { s with head := head, free := free }) ∧
      Books { s with head := head, free := free } managed live (frame :: hand) rest ∧
      SlotsHeld { s with head := head, free := free } live ∧ s.shareCount frame ≤ 1 := by
  cases chain with
  | nil =>
      rcases tracks.room with enough | ⟨-, enough⟩
      · exact absurd enough (by rw [List.length_nil]; omega)
      · exact absurd enough (by rw [List.length_nil]; omega)
  | cons frame rest =>
      obtain ⟨taken, books⟩ := tracks.books.take
      refine ⟨frame, rest, _, _, rfl, taken, books,
        slotsHeld_kept tracks.held (trees_kept fun _ _ => rfl) rfl, ?_⟩
      have owners := books.account.owners frame
      rw [books.held.1] at owners
      exact owners.le

private theorem outs_back {e : Word} (turns : Turns s t root reference e)
    (there : has e present = true) : outs t root = (outs s root).erase reference := by
  have home : isSwappedEntry e = false := by
    unfold isSwappedEntry
    rw [there]
    rfl
  ext other
  unfold outs
  rw [Finset.mem_erase, Finset.mem_filter, Finset.mem_filter]
  by_cases same : other = reference
  · rw [same, turns.here, home]
    simp
  · rw [turns.other same]
    simp [same]

theorem Tracks.back (tracks : Tracks s managed live hand chain root frames (left + 1) queue)
    (new : reference ∉ queue) (fits : queue.length < frames) (limit : frames ≤ tracked)
    (out : isSwappedEntry (entryOf s root reference) = true) :
    ∃ t chain', swapIn s (pageAddress reference) = (true, t) ∧
      Tracks t managed live hand chain' root frames left (queue ++ [reference]) := by
  have low := pageAddress_low reference
  obtain ⟨u, route⟩ : ∃ u, Route userTree s.words (indexes (pageAddress reference)) 3 root 0 u := by
    by_contra none
    unfold entryOf at out
    rw [leafAt_nowhere fun u route => none ⟨u, route⟩] at out
    exact absurd out (by decide)
  have word : s.words u (indexes (pageAddress reference) 0) = entryOf s root reference :=
    (entryAt_route route).symm
  obtain ⟨frame, rest, head, free, rfl, taken, books, held, alone⟩ := tracks.frame fits
  have answer := swapIn_out low (tracks.cr3 ▸ route) (by rw [word]; exact out)
  have took : allocateOrEvict s = (some frame, { s with head := head, free := free }) := by
    unfold allocateOrEvict
    rw [taken]
  have read : (s.disk.answers s.disk.transfers).isNone = true := by
    rw [tracks.answers]
    rfl
  rw [took, word, pageOf_pageAddress] at answer
  dsimp only at answer
  rw [if_pos read] at answer
  obtain ⟨-, held', books', sets, ⟨bound, used⟩, -⟩ := broughtIn_spec (pageAddress reference) books
    held tracks.member route (congrArg ageless word) out read
  obtain ⟨-, -, -, trees⟩ := readIn_quiet books held (slotOf (entryOf s root reference))
  obtain ⟨shared, cr3, answers, active, fifo⟩ := broughtIn_rest
    (s := { s with head := head, free := free }) tracks.active u
    (indexes (pageAddress reference) 0) frame (entryOf s root reference) (pageAddress reference)
  have framed := books.account.framed frame books.held.2.2.2.2
  have turns : Turns s (broughtIn { s with head := head, free := free } u
      (indexes (pageAddress reference) 0) frame (entryOf s root reference) (pageAddress reference))
      root reference (inEntry frame (entryOf s root reference)) := by
    intro p
    have leaf := turns_of_leaf sets tracks.member p
    rw [trees.leaves root tracks.member p] at leaf
    exact leaf
  have way := sets.routes root tracks.member _ 0 u (trees.routes root tracks.member _ 0 u route)
  generalize broughtIn { s with head := head, free := free } u (indexes (pageAddress reference) 0)
    frame (entryOf s root reference) (pageAddress reference) = t at *
  refine ⟨t, rest, answer, tracks.come new (Nat.lt_of_lt_of_le fits limit) books' held' turns
    (present_inEntry _ _) (swapped_inEntry framed _) ?_ ?_ shared cr3 answers active fifo
    ⟨u, route_any way 0⟩ ?_ ?_⟩
  · rw [writable_inEntry framed]
    exact tracks.open' reference (Or.inr out)
  · rw [frameOf_inEntry framed]
    exact alone
  · have room := tracks.room
    rw [List.length_cons] at room
    omega
  · have spare := tracks.spare
    obtain ⟨bound', marked⟩ := tracks.held.used root tracks.member _ out
    have more : spareSlots t = insert ⟨slotOf (entryOf s root reference), bound⟩ (spareSlots s) := by
      ext n
      unfold spareSlots
      rw [Finset.mem_insert, Finset.mem_filter, Finset.mem_filter, used, Function.update_apply]
      by_cases same : n = ⟨slotOf (entryOf s root reference), bound⟩
      · simp [same]
      · simp [same]
    have there : reference ∈ outs s root := Finset.mem_filter.mpr ⟨Finset.mem_univ _, out⟩
    rw [more, outs_back turns (present_inEntry _ _), Finset.card_insert_of_notMem,
      Finset.card_erase_of_mem there]
    · have positive := Finset.card_pos.mpr ⟨reference, there⟩
      omega
    · intro free'
      have unused := (Finset.mem_filter.mp free').2
      exact absurd (marked.symm.trans unused) (by decide)

private theorem Tracks.lacks (tracks : Tracks s managed live hand chain root frames left queue)
    (reference : Reference) :
    frames + missing s.words root (pageAddress reference) ≤ chain.length + queue.length := by
  have most : missing s.words root (pageAddress reference) ≤ 3 := Nat.sub_le _ _
  rcases tracks.room with enough | ⟨⟨u, route⟩, enough⟩
  · omega
  · have none : missing s.words root (pageAddress reference) = 0 := by
      unfold missing lacking
      rw [passed_route (route_any route reference)]
      omega
    omega

private theorem arrived_active (active : s.replacers.active = 1) (reference : Reference) :
    arrived s (pageAddress reference) (user ||| writable) =
      { s with replacers := { s.replacers with
        fifo := Fifo.onResident s.replacers.fifo (pageAddress reference) } } := by
  unfold arrived
  rw [if_pos ⟨by decide, pageAddress_user reference⟩, noteResident_active active,
    pageOf_pageAddress]

private theorem leafFor_open (frame : Word) :
    has (leafFor frame (user ||| writable)) swapped = false ∧
      has (leafFor frame (user ||| writable)) writable = true := by
  unfold leafFor
  rw [has_swapped, has_writable]
  simp only [BitVec.getLsbD_or]
  rw [frameOf_bit frame (show addressMask.getLsbD 10 = false from by decide)]
  refine ⟨by decide, ?_⟩
  rw [show writable.getLsbD 1 = true from by decide]
  simp

theorem Tracks.fresh (tracks : Tracks s managed live hand chain root frames (left + 1) queue)
    (new : reference ∉ queue) (fits : queue.length < frames) (limit : frames ≤ tracked)
    (home : isSwappedEntry (entryOf s root reference) = false) :
    ∃ frame s1 t chain', s.allocate = (some frame, s1) ∧
      mapPage s1 (pageAddress reference) frame (user ||| writable) = (.ok (), t) ∧
      Tracks t managed live hand chain' root frames left (queue ++ [reference]) := by
  classical
  have here := tracks.cr3
  subst here
  have low := pageAddress_low reference
  have lacks := tracks.lacks reference
  obtain ⟨frame, rest, head, free, rfl, taken, books, held, alone⟩ := tracks.frame fits
  have absent : has (entryOf s s.cr3 reference) present = false :=
    Bool.eq_false_of_not_eq_true fun there => new ((tracks.queued reference).mp there)
  have framed := books.account.framed frame books.held.2.2.2.2
  rw [List.length_cons] at lacks
  obtain ⟨t, chain', mapped, tracks'⟩ : ∃ t chain',
      mapPageIn { s with head := head, free := free } s.cr3 (pageAddress reference) frame
        (user ||| writable) = (.ok (), t) ∧
      Tracks t managed live hand chain' s.cr3 frames left (queue ++ [reference]) := by
    have mapping := mapPageIn_spec frame (user ||| writable) books tracks.member low
    generalize mapPageIn { s with head := head, free := free } s.cr3 (pageAddress reference) frame
      (user ||| writable) = answer at mapping
    cases mapping with
    | short few =>
        change rest.length < missing s.words s.cr3 (pageAddress reference) at few
        omega
    | taken there => exact absurd (absent.symm.trans there) (by decide)
    | @mapped s2 u room absent' books' builds route =>
        have plain : frameOf (user ||| writable) = 0 := by decide
        obtain ⟨books2, maps⟩ := mapped_fresh _ books' builds tracks.member route absent' plain
        have sets := LeafSet.write books' tracks.member route (leafFor frame (user ||| writable))
        have way := sets.routes s.cr3 tracks.member _ 0 u route
        have active : (s2.write u (indexes (pageAddress reference) 0)
            (leafFor frame (user ||| writable))).replacers.active = 1 :=
          (congrArg Replacers.active builds.replacers).trans tracks.active
        obtain ⟨shows, opens⟩ := leafFor_open frame
        have there := present_leafFor frame (user ||| writable)
        have names : frameOf (leafFor frame (user ||| writable)) = frame :=
          (frameOf_leafFor plain).trans framed.2
        rw [arrived_active active] at books2 maps ⊢
        generalize leafFor frame (user ||| writable) = e at *
        have turns : Turns s _ s.cr3 reference e := fun p => by
          rw [maps.leaves s.cr3 tracks.member p]
          exact ⟨fun same => if_pos ⟨rfl, same⟩, fun other => if_neg fun both => other both.2⟩
        refine ⟨_, _, rfl, tracks.come new (Nat.lt_of_lt_of_le fits limit) books2 ?_ turns there
          shows opens ?_ builds.shared builds.cr3 ?_ ?_ ?_ ⟨u, route_any way 0⟩ ?_ ?_⟩
        · refine slotsHeld_same held (fun r inside p n => ?_) maps.used
          rw [maps.leaves r inside p]
          split_ifs with both
          · obtain ⟨rfl, same⟩ := both
            have leaf : leafAt s.words s.cr3 p = entryOf s s.cr3 reference :=
              entryAt_indexes fun j low => same j low
            rw [outIn_resident (by simp [isSwappedEntry, there]), outIn_resident]
            rw [leaf]
            exact home
          · rfl
        · rw [names]
          exact alone
        · exact congrArg Disk.answers maps.disk
        · have same := congrArg Replacers.active builds.replacers
          exact same
        · exact congrArg (fun r : Replacers => Fifo.onResident r.fifo (pageAddress reference))
            builds.replacers
        · change frames ≤ (rest.drop (missing s.words s.cr3 (pageAddress reference))).length +
            queue.length + 1
          rw [List.length_drop]
          omega
        · rw [outs_back turns there, Finset.erase_eq_of_notMem]
          · unfold spareSlots
            rw [maps.used]
            exact tracks.spare
          · intro out
            exact absurd (home.symm.trans (Finset.mem_filter.mp out).2) (by decide)
  exact ⟨frame, _, t, chain', taken, mapped, tracks'⟩

theorem Tracks.arrive (tracks : Tracks s managed live hand chain root frames (left + 1) queue)
    (new : reference ∉ queue) (fits : queue.length < frames) (limit : frames ≤ tracked) :
    ∃ t chain', PagingBench.arrive root (pageAddress reference) s = (true, t) ∧
      Tracks t managed live hand chain' root frames left (queue ++ [reference]) := by
  have sound := tracks.books.sound root tracks.member
  have found : (leafEntry s root (pageAddress reference)).any isSwappedEntry =
      isSwappedEntry (entryOf s root reference) := leafEntry_swapped sound (pageAddress_low reference)
  unfold PagingBench.arrive
  rw [found]
  by_cases out : isSwappedEntry (entryOf s root reference) = true
  · obtain ⟨t, chain', back, tracks'⟩ := tracks.back new fits limit out
    rw [if_pos out, back]
    exact ⟨t, chain', rfl, tracks'⟩
  · obtain ⟨frame, s1, t, chain', taken, mapped, tracks'⟩ :=
      tracks.fresh new fits limit (Bool.eq_false_of_not_eq_true out)
    rw [if_neg out, taken]
    dsimp only
    rw [mapped]
    exact ⟨t, chain', rfl, tracks'⟩

end Coming

section Runs

variable {b : Bench}

structure Simulates (b : Bench) (managed live : Finset Word) (hand : List Word) (root : Word)
    (frames left : Nat) (queue : List Reference) : Prop where
  tracks : ∃ chain, Tracks b.paging managed live hand chain root frames left queue
  resident : b.resident = queue.length
  refused : b.refused = 0
  few : queue.length ≤ frames

theorem Simulates.makeRoom (simulates : Simulates b managed live hand root frames left queue)
    (positive : 0 < frames) :
    Simulates (PagingBench.makeRoom root frames b) managed live hand root frames left
        (shorten frames queue) ∧
      (PagingBench.makeRoom root frames b).faults = b.faults := by
  obtain ⟨⟨chain, tracks⟩, resident, refused, few⟩ := simulates
  unfold PagingBench.makeRoom
  rw [resident]
  by_cases full : frames ≤ queue.length
  · rw [if_pos full, shorten_full full]
    cases queue with
    | nil => exact absurd full (Nat.not_le.mpr positive)
    | cons first rest =>
        obtain ⟨frame, t, evicted, tracks'⟩ := tracks.leave
        rw [evicted]
        exact ⟨⟨⟨_, tracks'⟩, rfl, refused, Nat.le_of_succ_le few⟩, rfl⟩
  · rw [if_neg full, shorten_room (Nat.not_le.mp full)]
    exact ⟨⟨⟨chain, tracks⟩, resident, refused, few⟩, rfl⟩

theorem Simulates.refer
    (simulates : Simulates b managed live hand root frames (left + 1) queue)
    (positive : 0 < frames) (limit : frames ≤ tracked) (reference : Reference) :
    ∃ b' states, PagingBench.refer root frames b reference = some (b', states) ∧
      Simulates b' managed live hand root frames left (Lib.FifoQueue.refer frames queue reference) ∧
      b'.faults = b.faults + (if reference ∈ queue then 0 else 1) ∧
      ∀ t ∈ states, (userPages t root).length ≤ frames := by
  obtain ⟨chain, tracks⟩ := simulates.tracks
  have sound := tracks.books.sound root tracks.member
  have mapped : (translate b.paging (pageAddress reference)).isSome =
      has (entryOf b.paging root reference) present := by
    have there := translate_isSome (tracks.cr3 ▸ sound) (pageAddress_low reference)
    rw [pageOf_pageAddress, tracks.cr3] at there
    exact there
  unfold PagingBench.refer Lib.FifoQueue.refer
  dsimp only
  rw [mapped]
  by_cases here : reference ∈ queue
  · rw [if_pos ((tracks.queued reference).mpr here), if_pos here, if_pos here]
    obtain ⟨t, touched, tracks'⟩ := tracks.touch here
    rw [touched]
    refine ⟨_, _, rfl, ⟨⟨chain, tracks'.spend⟩, simulates.resident, simulates.refused,
      simulates.few⟩, rfl, fun t' listed => ?_⟩
    rw [List.mem_singleton.mp listed]
    exact tracks'.few.trans simulates.few
  · have absent : ¬has (entryOf b.paging root reference) present = true :=
      fun there => here ((tracks.queued reference).mp there)
    rw [if_neg absent, if_neg here, if_neg here]
    have counted : Simulates { b with faults := b.faults + 1 } managed live hand root frames
        (left + 1) queue := ⟨⟨chain, tracks⟩, simulates.resident, simulates.refused, simulates.few⟩
    obtain ⟨roomy, faults⟩ := counted.makeRoom positive
    generalize PagingBench.makeRoom root frames { b with faults := b.faults + 1 } = b1 at roomy faults
    have fits := shorten_length positive simulates.few
    have new : reference ∉ shorten frames queue := fun there => here (mem_of_shorten there)
    obtain ⟨chain1, tracks1⟩ := roomy.tracks
    obtain ⟨t, chain2, arrived, tracks2⟩ := tracks1.arrive new fits limit
    obtain ⟨t', touched, tracks3⟩ := tracks2.touch (List.mem_append_right _ List.mem_cons_self)
    have grown : (shorten frames queue ++ [reference]).length ≤ frames := by
      rw [List.length_append, List.length_singleton]
      exact fits
    rw [arrived]
    dsimp only
    rw [if_pos rfl, touched]
    refine ⟨_, _, rfl, ⟨⟨chain2, tracks3⟩, ?_, roomy.refused, grown⟩, faults, fun t'' listed => ?_⟩
    · rw [List.length_append, List.length_singleton, ← roomy.resident]
    · simp only [List.mem_cons, List.not_mem_nil, or_false] at listed
      rcases listed with rfl | rfl | rfl
      · exact tracks1.few.trans fits.le
      · exact tracks2.few.trans grown
      · exact tracks3.few.trans grown

theorem Simulates.run {string : List Reference}
    (simulates : Simulates b managed live hand root frames string.length queue)
    (positive : 0 < frames) (limit : frames ≤ tracked) :
    ∃ b' states, referAll root frames b string = some (b', states) ∧
      b'.faults = b.faults + faults frames queue string ∧ b'.refused = 0 ∧
      ∀ t ∈ states, (userPages t root).length ≤ frames := by
  induction string generalizing b queue with
  | nil => exact ⟨b, [], rfl, rfl, simulates.refused, fun t listed => absurd listed List.not_mem_nil⟩
  | cons reference rest ih =>
      obtain ⟨b1, now, one, simulates1, faults1, few1⟩ :=
        simulates.refer positive limit reference
      obtain ⟨b2, later, all, faults2, refused, few2⟩ := ih simulates1
      refine ⟨b2, now ++ later, ?_, ?_, refused, fun t listed => ?_⟩
      · unfold referAll
        rw [one]
        dsimp only
        rw [all]
        rfl
      · rw [faults2, faults1, faults, Nat.add_assoc]
      · rcases List.mem_append.mp listed with first | second
        · exact few1 t first
        · exact few2 t second

private theorem simulates_start (books : Books s managed live hand chain) (held : SlotsHeld s live)
    (room : frames + 4 ≤ chain.length) (spare : 256 ≤ (spareSlots s).card)
    (answers : ∀ n, s.disk.answers n = none) (short : left < 2 ^ 63) :
    ∃ root t, newSpace (install s 1).2 = (some root, t) ∧
      Simulates ⟨{ t with cr3 := root }, 0, 0, 0⟩ managed (insert root live) hand root frames left
        [] := by
  cases chain with
  | nil => exact absurd room (by rw [List.length_nil]; omega)
  | cons root rest =>
      have books0 : Books (install s 1).2 managed live hand (root :: rest) :=
        books.congr rfl rfl rfl rfl
      obtain ⟨t, new, books1, made⟩ := newSpace_made books0
      have empty : ∀ p, leafAt t.words root p = 0 := made.leaves
      have trees : TreesKept (install s 1).2.words t.words live := trees_kept made.trees
      have held1 : SlotsHeld t (insert root live) :=
        slotsHeld_insert (slotsHeld_kept held trees made.used)
          (fun p => by rw [empty]; decide) made.outside
      refine ⟨root, t, new, ⟨⟨rest, books1.congr rfl rfl rfl rfl, ?_, Finset.mem_insert_self _ _, rfl,
        ?_, ?_, ?_, fun p => ?_, fun reference queued => absurd queued List.not_mem_nil,
        fun reference there => ?_, Or.inl ?_, ?_, fun n => ?_⟩, rfl, rfl, Nat.zero_le _⟩⟩
      · exact slotsHeld_kept held1 (trees_kept fun _ _ => rfl) rfl
      · change t.replacers.active = 1
        rw [made.replacers]
        rfl
      · change Holds t.replacers.fifo []
        rw [made.replacers]
        exact holds_noArrivals
      · change t.replacers.fifo.next + left ≤ 2 ^ 63
        rw [made.replacers]
        change 1 + left ≤ 2 ^ 63
        omega
      · change has (leafAt t.words root p) present = true ↔ _
        rw [empty]
        refine iff_of_false (by decide) ?_
        rintro ⟨reference, queued, -⟩
        exact absurd queued List.not_mem_nil
      · change has (leafAt t.words root _) present = true ∨
          isSwappedEntry (leafAt t.words root _) = true at there
        rw [empty] at there
        exact absurd there (by decide)
      · rw [List.length_cons] at room
        rw [List.length_nil]
        omega
      · have same : spareSlots { t with cr3 := root } = spareSlots s := by
          unfold spareSlots
          change (Finset.univ.filter fun slot => t.used slot = false) = _
          rw [made.used]
          rfl
        rw [same]
        omega
      · change t.disk.answers n = none
        rw [made.disk]
        exact answers n

/-- The paging benchmark equals the textbook: with frames, slots and a drive that answers,
`run_string` under `Fifo` counts for every string the faults of first-in first-out replacement,
never finds a victim refused, and while the string is referenced no more pages are resident
than there are frames. -/
theorem run_string_textbook {string : List Reference} (books : Books s managed live hand chain)
    (held : SlotsHeld s live) (room : frames + 4 ≤ chain.length)
    (spare : 256 ≤ (spareSlots s).card) (answers : ∀ n, s.disk.answers n = none)
    (positive : 1 ≤ frames) (limit : frames ≤ 128) (short : string.length < 2 ^ 63) :
    ∃ outcome, runString s 1 string frames = some (.ok outcome) ∧
      outcome.counts = (faults frames [] string, 0) ∧
      ∀ t ∈ outcome.during, (userPages t outcome.root).length ≤ frames := by
  obtain ⟨root, t, new, simulates⟩ := simulates_start books held room spare answers short
  obtain ⟨b, during, all, counted, refused, few⟩ := simulates.run positive limit
  unfold runString runIn
  rw [new]
  dsimp only
  rw [all]
  refine ⟨_, rfl, ?_, few⟩
  rw [counted, refused, Nat.zero_add]

def belady : List Reference := [1, 2, 3, 4, 1, 2, 5, 1, 2, 3, 4, 5]

private def eightFrames : List Word :=
  [0x107000, 0x106000, 0x105000, 0x104000, 0x103000, 0x102000, 0x101000, 0x100000]

private theorem eightFrames_books :
    Books (Boot.init Boot.statics eightFrames) eightFrames.toFinset ∅ [] eightFrames.reverse := by
  have all : (eightFrames.all fun f => decide (Framed f)) = true := by decide +kernel
  exact Boot.init_books (fun f inside => of_decide_eq_true (List.all_eq_true.mp all f inside))
    (by decide +kernel)

private theorem eightFrames_held : SlotsHeld (Boot.init Boot.statics eightFrames) ∅ where
  once n := le_of_eq_of_le (slotCount_empty _ n) (Nat.zero_le 1)
  used r inside := absurd inside (Finset.notMem_empty r)

private theorem eightFrames_spare :
    256 ≤ (spareSlots (Boot.init Boot.statics eightFrames)).card := by
  have all : spareSlots (Boot.init Boot.statics eightFrames) = Finset.univ :=
    Finset.filter_true_of_mem fun _ _ => rfl
  rw [all, Finset.card_univ, Fintype.card_fin]
  exact Nat.le_of_ble_eq_true rfl

/-- Bélády's string takes nine faults with three frames and ten with four. -/
theorem run_string_textbook_belady : ∃ s three four,
    runString s 1 belady 3 = some (.ok three) ∧ three.counts = (9, 0) ∧
      runString s 1 belady 4 = some (.ok four) ∧ four.counts = (10, 0) := by
  obtain ⟨three, ran3, counts3, -⟩ : ∃ outcome,
      runString (Boot.init Boot.statics eightFrames) 1 belady 3 = some (.ok outcome) ∧
        outcome.counts = (faults 3 [] belady, 0) ∧
        ∀ t ∈ outcome.during, (userPages t outcome.root).length ≤ 3 := run_string_textbook
    eightFrames_books eightFrames_held (by decide) eightFrames_spare (fun _ => rfl) (by decide)
    (by decide) (by decide)
  obtain ⟨four, ran4, counts4, -⟩ : ∃ outcome,
      runString (Boot.init Boot.statics eightFrames) 1 belady 4 = some (.ok outcome) ∧
        outcome.counts = (faults 4 [] belady, 0) ∧
        ∀ t ∈ outcome.during, (userPages t outcome.root).length ≤ 4 := run_string_textbook
    eightFrames_books eightFrames_held (by decide) eightFrames_spare (fun _ => rfl) (by decide)
    (by decide) (by decide)
  rw [show faults 3 [] belady = 9 from by decide] at counts3
  rw [show faults 4 [] belady = 10 from by decide] at counts4
  exact ⟨_, three, four, ran3, counts3, ran4, counts4⟩

private def homeAbove (frames : Nat) : Option (Except Paging Outcome) → Bool
  | some (.ok outcome) => outcome.home.any fun t => decide (frames < (userPages t outcome.root).length)
  | _ => false

/-- While everything is brought home there are more pages resident than there are frames. -/
theorem run_string_textbook_not : ¬∀ (s : Paging) (managed live : Finset Word)
    (hand chain : List Word) (frames : Nat) (string : List Reference),
    Books s managed live hand chain → SlotsHeld s live → frames + 4 ≤ chain.length →
      256 ≤ (spareSlots s).card → (∀ n, s.disk.answers n = none) → 1 ≤ frames → frames ≤ 128 →
        ∃ outcome, runString s 1 string frames = some (.ok outcome) ∧
          outcome.counts = (faults frames [] string, 0) ∧
          ∀ t ∈ outcome.during ++ outcome.home, (userPages t outcome.root).length ≤ frames := by
  intro all
  obtain ⟨outcome, ran, -, few⟩ := all _ _ _ _ _ 1 [0, 1] eightFrames_books eightFrames_held
    (by decide) eightFrames_spare (fun _ => rfl) (by decide) (by decide)
  have above : homeAbove 1 (runString (Boot.init Boot.statics eightFrames) 1 [0, 1] 1) = true := by
    decide +kernel
  rw [ran] at above
  obtain ⟨t, home, more⟩ := List.any_eq_true.mp above
  exact absurd (few t (List.mem_append_right _ home)) (Nat.not_le.mpr (of_decide_eq_true more))

end Runs

end FiveAM.Memory.Textbook
