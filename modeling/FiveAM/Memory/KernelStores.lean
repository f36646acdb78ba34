/- GID: FiveAM/Memory/KernelStores
   source: kernel/src/interrupts.rs, kernel/src/memory.rs
   digest: A store of the kernel into user memory, with the page faults it takes on the way. -/

import FiveAM.Memory.FailedCopies
import FiveAM.Memory.Faulting
import FiveAM.Memory.StackGrowth
import FiveAM.Memory.UserAccess
import FiveAM.Memory.UserWays
import FiveAM.Process.SignalFrames

set_option autoImplicit false
set_option relaxedAutoImplicit false

namespace FiveAM.Memory.KernelStores

open FiveAM.Process.TaskTable (Word)
open FiveAM.Process.Machine (Canonical)
open FiveAM.Memory.Entries FiveAM.Memory.Frames FiveAM.Memory.Replace FiveAM.Memory.PageTables
open FiveAM.Memory.Swap FiveAM.Memory.Ownership FiveAM.Memory.Residency FiveAM.Memory.Choosing
open FiveAM.Memory.Eviction FiveAM.Memory.Contents FiveAM.Memory.Return FiveAM.Memory.Faulting
open FiveAM.Memory.Teardown FiveAM.Memory.CopyOnWrite FiveAM.Memory.StackGrowth
open FiveAM.Memory.UserAccess FiveAM.Memory.UserWays FiveAM.Memory.FailedCopies
open FiveAM.Lib.RadixTables

/-- The processor's check of a store by the kernel, from a table at a level on: with
`CR0.WP` set ring 0 obeys the read-only bits, and the user bits are not looked at. -/
def ringZero (s : Paging) (address : Word) : Nat → Word → Bool
  | 0, table =>
      let entry := s.words table (indexes address 0)
      has entry present && has entry writable
  | level + 1, table =>
      let entry := s.words table (indexes address (level + 1))
      has entry present && has entry writable &&
        (has entry huge || ringZero s address level (frameOf entry))

/-- The error code of a store of the kernel that faults. -/
def faultCode (s : Paging) (address : Word) : Word :=
  if (translate s address).isSome then present ||| writable else writable

def setByte (w : Word) (i : Nat) (byte : BitVec 8) : Word :=
  (w &&& ~~~((0xff : Word) <<< (8 * i))) ||| byte.zeroExtend 64 <<< (8 * i)

/-- The byte is stored where the address leads, and the page is marked. -/
def putByte (s : Paging) (address : Word) (byte : BitVec 8) : Paging :=
  let s := ((touch s address (accessed ||| dirty)).map Prod.snd).getD s
  match translate s address with
  | none => s
  | some (physical, _) =>
      s.write (frameOf physical) (wordOf physical)
        (setByte (s.words (frameOf physical) (wordOf physical)) (address.toNat % 8) byte)

inductive Stored where
  | done (s : Paging)
  | halted
  | unfinished

/-- One byte stored by the kernel for a task whose stack reaches from `limit` to `top`,
with so many attempts. A general protection fault stops the machine, and so does a page
fault that is not handled. -/
def storeByte (top limit address : Word) (byte : BitVec 8) : Nat → Paging → Stored
  | 0, _ => .unfinished
  | attempts + 1, s =>
      if ¬Canonical address then .halted
      else if ringZero s address 3 s.cr3 then .done (putByte s address byte)
      else
        match pageFault s top limit address (faultCode s address) with
        | (true, s) => storeByte top limit address byte attempts s
        | (false, _) => .halted

variable {s t : Paging} {managed live : Finset Word} {hand chain : List Word} {address : Word}

/-- The page of the address is there and may be written. -/
structure Ready (s : Paging) (root address : Word) : Prop where
  sound : Sound s.words root
  there : has (leafAt s.words root (indexes address)) present = true
  open' : has (leafAt s.words root (indexes address)) writable = true

section Attempts

theorem canonical_of_user (inside : address < userSpaceEnd) : Canonical address := by
  have bound : address.toNat < userSpaceEnd.toNat := inside
  have limit : userSpaceEnd.toNat = 2 ^ 39 := by decide
  exact Or.inl (by omega)

theorem ringZero_eq {root : Word} (sound : Sound s.words root) (low : indexes address 3 = 0)
    {level : Nat} {table : Word}
    (route : Route userTree s.words (indexes address) 3 root level table) :
    ringZero s address level table =
      (has (entryAt userTree s.words level table (indexes address)) present &&
        has (entryAt userTree s.words level table (indexes address)) writable) := by
  induction level generalizing table with
  | zero => rfl
  | succ level ih =>
      unfold ringZero
      dsimp only
      rcases sound.entry low route with ⟨absent, ends⟩ | ⟨there, open', down⟩
      · rw [entryAt_stop ends, absent]
        rfl
      · obtain ⟨-, small, -, -⟩ := child_some down
        rw [entryAt_child down, ← ih (route.next down), there, open', small]
        rfl

theorem Ready.ringZero (ready : Ready s s.cr3 address) (inside : address < userSpaceEnd) :
    ringZero s address 3 s.cr3 = true := by
  rw [ringZero_eq ready.sound (low_of_user inside) (.here 3 s.cr3)]
  exact Bool.and_eq_true_iff.mpr ⟨ready.there, ready.open'⟩

theorem storeByte_ready (ready : Ready s s.cr3 address) (inside : address < userSpaceEnd)
    (top limit : Word) (byte : BitVec 8) :
    storeByte top limit address byte 1 s = .done (putByte s address byte) := by
  unfold storeByte
  rw [if_neg (not_not.mpr (canonical_of_user inside)), if_pos (ready.ringZero inside)]

theorem storeByte_again (inside : address < userSpaceEnd)
    (shut : ringZero s address 3 s.cr3 ≠ true) {top limit : Word}
    (mended : pageFault s top limit address (faultCode s address) = (true, t)) (byte : BitVec 8)
    (attempts : Nat) :
    storeByte top limit address byte (attempts + 1) s =
      storeByte top limit address byte attempts t := by
  rw [storeByte, if_neg (not_not.mpr (canonical_of_user inside)), if_neg shut, mended]

theorem storeByte_more {top limit : Word} {byte : BitVec 8} {attempts attempts' : Nat}
    (ended : storeByte top limit address byte attempts s ≠ .unfinished)
    (more : attempts ≤ attempts') :
    storeByte top limit address byte attempts' s = storeByte top limit address byte attempts s := by
  induction attempts generalizing s attempts' with
  | zero => exact absurd rfl ended
  | succ attempts ih =>
      obtain ⟨later, rfl⟩ := Nat.exists_eq_add_of_lt more
      unfold storeByte at ended ⊢
      split_ifs at ended ⊢
      · rfl
      · generalize pageFault s top limit address (faultCode s address) = answer at ended ⊢
        obtain ⟨_ | _, t⟩ := answer
        · rfl
        · exact ih ended (Nat.le_add_right attempts later)
      · rfl

theorem storeByte_safe {top limit : Word} {byte : BitVec 8} {attempts : Nat}
    (done : storeByte top limit address byte attempts s = .done t) (attempts' : Nat) :
    storeByte top limit address byte attempts' s ≠ .halted := by
  intro halted
  rcases Nat.le_total attempts attempts' with more | less
  · have same := storeByte_more (by rw [done]; exact nofun) more
    rw [done, halted] at same
    cases same
  · have same := storeByte_more (by rw [halted]; exact nofun) less
    rw [done, halted] at same
    cases same

theorem faultCode_eq (sound : Sound s.words s.cr3) (inside : address < userSpaceEnd) :
    faultCode s address = if has (leafAt s.words s.cr3 (indexes address)) present = true then
      present ||| writable else writable := by
  unfold faultCode
  have mapped : (translate s address).isSome =
      has (leafAt s.words s.cr3 (indexes address)) present :=
    translateFrom_isSome sound (low_of_user inside) (.here 3 s.cr3)
  rw [mapped]

end Attempts

section Copying

/-- A frame can be had for the copy of a page in this frame. -/
def Copyable (s : Paging) (frame : Word) : Prop :=
  s.head ≠ 0 ∨ (∃ page ∈ userPages s s.cr3, Yields s frame page) ∧ Writable s

theorem ready_owned {frame e : Word} (sound : Sound t.words s.cr3) (framed : frameOf frame = frame)
    (guarded : Guarded e) (leaf : leafAt t.words s.cr3 (indexes address) = owned frame e) :
    Ready t s.cr3 address := by
  refine ⟨sound, ?_, ?_⟩
  · rw [leaf, present_owned framed]
    exact guarded.1
  · rw [leaf]
    exact writable_owned framed

private theorem cowFault_last (books : Books s managed live hand chain) (member : s.cr3 ∈ live)
    (inside : address < userSpaceEnd) (guarded : Guarded (leafAt s.words s.cr3 (indexes address)))
    (single : ¬1 < s.shareCount (frameOf (leafAt s.words s.cr3 (indexes address)))) :
    ∃ t, cowFault s address = (true, t) ∧ t.cr3 = s.cr3 ∧ Ready t s.cr3 address := by
  classical
  obtain ⟨u, route⟩ : ∃ u, Route userTree s.words (indexes address) 3 s.cr3 0 u := by
    by_contra none
    rw [leafAt_nowhere fun u route => none ⟨u, route⟩] at guarded
    exact absurd guarded (by decide)
  have word : s.words u (indexes address 0) = leafAt s.words s.cr3 (indexes address) := by
    rw [leafAt, entryAt_route route]
  rw [cowFault_route inside route, word, if_pos guarded, if_neg single]
  have sets := LeafSet.write books member route (owned
    (frameOf (leafAt s.words s.cr3 (indexes address))) (leafAt s.words s.cr3 (indexes address)))
  have leaf := sets.leaves s.cr3 member (indexes address)
  rw [if_pos ⟨rfl, fun _ _ => rfl⟩] at leaf
  refine ⟨_, rfl, rfl, ready_owned (fun p low => ?_) (frameOf_frameOf _) guarded leaf⟩
  rw [sets.uppers s.cr3 member p]
  exact books.sound s.cr3 member p low

private theorem cowFault_evicting (books : Books s managed live hand chain) (member : s.cr3 ∈ live)
    (inside : address < userSpaceEnd) (guarded : Guarded (leafAt s.words s.cr3 (indexes address)))
    (several : 1 < s.shareCount (frameOf (leafAt s.words s.cr3 (indexes address))))
    (empty : s.head = 0)
    (able : (∃ page ∈ userPages s s.cr3,
      Yields s (frameOf (leafAt s.words s.cr3 (indexes address))) page) ∧ Writable s) :
    ∃ t, cowFault s address = (true, t) ∧ t.cr3 = s.cr3 ∧ Ready t s.cr3 address := by
  classical
  obtain ⟨u, route⟩ : ∃ u, Route userTree s.words (indexes address) 3 s.cr3 0 u := by
    by_contra none
    rw [leafAt_nowhere fun u route => none ⟨u, route⟩] at guarded
    exact absurd guarded (by decide)
  have word : s.words u (indexes address 0) = leafAt s.words s.cr3 (indexes address) := by
    rw [leafAt, entryAt_route route]
  rw [cowFault_route inside route, word, if_pos guarded, if_pos several]
  generalize leafAt s.words s.cr3 (indexes address) = e at guarded several able ⊢
  have sends := evictOne_sends (s.unshare (frameOf e)).2 (s.unshare (frameOf e)).2.cr3
  have sendable := (sendable_unshared books.account.shared several).mpr able
  have took : allocateOrEvict (s.unshare (frameOf e)).2 =
      evictOne (s.unshare (frameOf e)).2 (s.unshare (frameOf e)).2.cr3 := by
    unfold allocateOrEvict Paging.allocate
    rw [unshare_eq]
    simp only [empty, if_true]
  rw [took]
  rw [unshare_eq] at sends sendable ⊢
  have evicts := evictOne_evicts s.shared (s := { s with shared := (s.unshare (frameOf e)).2.shared })
    books member
  dsimp only at sends sendable evicts ⊢
  generalize evictOne { s with shared := (s.unshare (frameOf e)).2.shared } s.cr3 = answer
    at sends evicts ⊢
  cases sends with
  | none stuck fades => exact absurd sendable stuck
  | sent => ?_
  cases evicts with
  | @out aged aging able page slot on there resident alone unused written =>
  have books' : Books { aged with shared := s.shared } managed live hand chain :=
    (aging.owners s.shared).books books
  have sets : LeafSet { aged with shared := s.shared } (sentOut aged page slot) live s.cr3
      (indexes page.address) (outEntry slot.val (aged.words page.table page.index)) := by
    refine (sentOut_leaf slot books' member on).congr ?_
    unfold sentOut
    rw [words_noteEvicted, words_noteEvicted]
    rfl
  have cr3 : (sentOut aged page slot).cr3 = s.cr3 := by
    unfold sentOut
    rw [noteEvicted_eq]
    exact aging.cr3
  generalize sentOut aged page slot = t2 at sets cr3 ⊢
  have data : tableCount t2.words live (frameOf (aged.words page.table page.index)) = 0 := by
    have leaf : leafAt aged.words s.cr3 (indexes page.address) = aged.words page.table page.index :=
      on.leaf
    rw [sets.tables, ← leaf]
    exact (page_frame books' member (by rw [leaf]; exact there)).1
  generalize fresh_ : frameOf (aged.words page.table page.index) = fresh at data ⊢
  have trees : TreesKept t2.words (t2.fill fresh (t2.words (frameOf e))).words live := by
    refine trees_kept fun f table => Function.update_of_ne (fun same => ?_) _ _
    rw [same, data] at table
    exact Nat.lt_irrefl 0 table
  have route' : Route userTree (t2.fill fresh (t2.words (frameOf e))).words (indexes address) 3
      s.cr3 0 u :=
    trees.routes s.cr3 member _ 0 u (sets.routes s.cr3 member _ 0 u
      (aging.routes s.cr3 member _ 0 u route))
  have once : tableCount (t2.fill fresh (t2.words (frameOf e))).words live u = 1 := by
    rw [trees.tables, sets.tables]
    exact (aging.tables u).trans (books.table member route).1
  have framed : frameOf fresh = fresh := by
    rw [← fresh_]
    exact frameOf_frameOf _
  refine ⟨_, rfl, cr3, ready_owned (fun p low => ?_) framed guarded ?_⟩
  · have same : above ((t2.fill fresh (t2.words (frameOf e))).write u (indexes address 0)
        (owned fresh e)).words s.cr3 p = above s.words s.cr3 p := by
      refine Eq.trans ?_ ((trees.uppers s.cr3 member p).trans
        ((sets.uppers s.cr3 member p).trans (aging.uppers s.cr3 member p)))
      unfold above uppers
      exact along_put_same (e := owned fresh e) member route' once (fun _ _ => rfl) member p
    rw [same]
    exact books.sound s.cr3 member p low
  · exact (entryAt_leaf_put member route' once _ member).trans (if_pos ⟨rfl, fun _ _ => rfl⟩)

theorem cowFault_ready (books : Books s managed live hand chain) (member : s.cr3 ∈ live)
    (inside : address < userSpaceEnd) (guarded : Guarded (leafAt s.words s.cr3 (indexes address)))
    (frame : s.shareCount (frameOf (leafAt s.words s.cr3 (indexes address))) ≤ 1 ∨
      Copyable s (frameOf (leafAt s.words s.cr3 (indexes address)))) :
    ∃ t, cowFault s address = (true, t) ∧ t.cr3 = s.cr3 ∧ Ready t s.cr3 address := by
  classical
  by_cases several : 1 < s.shareCount (frameOf (leafAt s.words s.cr3 (indexes address)))
  swap
  · exact cowFault_last books member inside guarded several
  have copyable := frame.resolve_left (Nat.not_le.mpr several)
  by_cases free : s.head = 0
  · exact cowFault_evicting books member inside guarded several free
      (copyable.resolve_left (not_not.mpr free))
  · have repairs := cowFault_spec books member inside free
    generalize cowFault s address = answer at repairs ⊢
    cases repairs with
    | refused plain => exact absurd guarded plain
    | kept guarded' single books' repaired => exact absurd several single
    | @copied fresh rest t guarded' first several' books' repaired holds =>
        have leaf := repaired.leaves s.cr3 member (indexes address)
        rw [if_pos ⟨rfl, fun _ _ => rfl⟩] at leaf
        have framed : frameOf fresh = fresh := by
          have once := books.account.managed_of (f := fresh)
          rw [first, List.count_cons_self] at once
          exact (books.account.framed fresh (once (by omega))).2
        exact ⟨t, rfl, repaired.cr3, ready_owned (books'.sound s.cr3 member) framed guarded leaf⟩

end Copying

section Returning

/-- A page that is out can be brought back: there is a frame for it, and the transfers this
takes will succeed. -/
def Returns (s : Paging) : Prop :=
  s.head ≠ 0 ∧ ¬Fails s 0 ∨ s.head = 0 ∧ Evictable s s.cr3 ∧ ¬Fails s 0 ∧ ¬Fails s 1

theorem Returns.obtainable (returns : Returns s) : Obtainable s :=
  returns.imp (fun free => free.1) fun evicting => ⟨evicting.2.1, evicting.2.2.1⟩

private theorem broughtIn_rest (s : Paging) (table : Word) (i : Index) (frame entry page : Word) :
    (broughtIn s table i frame entry page).cr3 = s.cr3 ∧
      (broughtIn s table i frame entry page).shared = s.shared := by
  unfold broughtIn
  rw [noteResident_eq]
  unfold Paging.freeSlot
  split
  · exact ⟨rfl, rfl⟩
  · exact ⟨rfl, rfl⟩

theorem swapIn_returns (books : Books s managed live hand chain) (held : SlotsHeld s live)
    (member : s.cr3 ∈ live) (inside : address < userSpaceEnd)
    (out : isSwappedEntry (leafAt s.words s.cr3 (indexes address)) = true) (returns : Returns s) :
    ∃ frame t chain', swapIn s address = (true, t) ∧ t.cr3 = s.cr3 ∧
      Books t managed live hand chain' ∧ t.shareCount frame ≤ 1 ∧ Framed frame ∧
      leafAt t.words s.cr3 (indexes address) =
        inEntry frame (leafAt s.words s.cr3 (indexes address)) := by
  classical
  have absent : has (leafAt s.words s.cr3 (indexes address)) present = false := by
    unfold isSwappedEntry at out
    simp only [Bool.and_eq_true, Bool.not_eq_true'] at out
    exact out.1
  obtain ⟨u, route⟩ : ∃ u, Route userTree s.words (indexes address) 3 s.cr3 0 u := by
    by_contra none
    rw [leafAt_nowhere fun u route => none ⟨u, route⟩] at out
    exact absurd out (by decide)
  have word : s.words u (indexes address 0) = leafAt s.words s.cr3 (indexes address) := by
    rw [leafAt, entryAt_route route]
  obtain ⟨quiet, held1, chain1, books1⟩ := allocateOrEvict_quiet books held member
  have obtains := allocateOrEvict_obtains books member
  have some' := obtains.iff.mpr returns.obtainable
  rw [swapIn_out (low_of_user inside) route (by rw [word]; exact out), word]
  rcases got : allocateOrEvict s with ⟨_ | frame, t⟩
  · rw [got] at some'
    cases some'
  rw [got] at quiet held1 books1 obtains
  have read : (t.disk.answers t.disk.transfers).isNone = true := by
    cases obtains with
    | free there disk =>
        have fine : ¬Fails s 0 := by
          rcases returns with both | evicting
          · exact both.2
          · exact absurd evicting.1 there
        rw [disk]
        exact Bool.of_not_eq_false fine
    | out empty able fine answers transfers =>
        have fine' : ¬Fails s 1 := by
          rcases returns with both | evicting
          · exact absurd empty both.1
          · exact evicting.2.2.2
        rw [answers, transfers]
        exact Bool.of_not_eq_false fine'
  have route1 := quiet.routes s.cr3 member _ 0 u route
  have same := quiet.absent s.cr3 member _ absent
  have word1 : t.words u (indexes address 0) = leafAt t.words s.cr3 (indexes address) := by
    rw [leafAt, entryAt_route route1]
  obtain ⟨-, -, books2, sets, -, -⟩ := broughtIn_spec (pageOf address) books1 held1 member route1
    (by rw [word1]; exact same) out read
  obtain ⟨cr3, shared⟩ := broughtIn_rest t u (indexes address 0) frame
    (leafAt s.words s.cr3 (indexes address)) (pageOf address)
  have leaf := sets.leaves s.cr3 member (indexes address)
  rw [if_pos ⟨rfl, fun _ _ => rfl⟩] at leaf
  dsimp only
  rw [if_pos read]
  refine ⟨frame, _, _, rfl, cr3.trans quiet.cr3, books2, ?_,
    books1.account.framed frame books1.held.2.2.2.2, leaf⟩
  have count := books1.account.owners frame
  rw [books1.held.1] at count
  simp only [Paging.shareCount, shared] at count ⊢
  omega

private theorem inEntry_bit {frame e : Word} (framed : Framed frame) {k : Nat} (low : k < 64)
    (outside : addressMask.getLsbD k = false) (other : swapped.getLsbD k = false)
    (other' : present.getLsbD k = false) : (inEntry frame e).getLsbD k = e.getLsbD k := by
  unfold inEntry
  simp only [BitVec.getLsbD_or, BitVec.getLsbD_and, BitVec.getLsbD_not, framed_bit framed outside,
    outside, other, other', low]
  simp

theorem writable_inEntry {frame : Word} (framed : Framed frame) (e : Word) :
    has (inEntry frame e) writable = has e writable := by
  rw [has_writable, has_writable]
  exact inEntry_bit framed (by decide) (by decide) (by decide) (by decide)

theorem cow_inEntry {frame : Word} (framed : Framed frame) (e : Word) :
    has (inEntry frame e) cow = has e cow := by
  rw [has_cow, has_cow]
  exact inEntry_bit framed (by decide) (by decide) (by decide) (by decide)

end Returning

section Storing

/-- The program may write this byte: its page is writable or copy-on-write, and ring 3 is let
through to it; it is there, with a frame to be had where it has to be copied, or it is out
and can be brought back. -/
structure Lawful (s : Paging) (address : Word) : Prop where
  inside : address < userSpaceEnd
  user : has (leafAt s.words s.cr3 (indexes address)) Entries.user = true ∧
    Lets (trail s.words 3 s.cr3 (indexes address))
  writes : has (leafAt s.words s.cr3 (indexes address)) writable = true ∨
    has (leafAt s.words s.cr3 (indexes address)) cow = true
  served : has (leafAt s.words s.cr3 (indexes address)) present = true ∧
      (has (leafAt s.words s.cr3 (indexes address)) writable = true ∨
        s.shareCount (frameOf (leafAt s.words s.cr3 (indexes address))) ≤ 1 ∨
        Copyable s (frameOf (leafAt s.words s.cr3 (indexes address)))) ∨
    isSwappedEntry (leafAt s.words s.cr3 (indexes address)) = true ∧ Returns s

private theorem storeByte_there (books : Books s managed live hand chain) (member : s.cr3 ∈ live)
    (inside : address < userSpaceEnd)
    (there : has (leafAt s.words s.cr3 (indexes address)) present = true)
    (served : has (leafAt s.words s.cr3 (indexes address)) writable = true ∨
      has (leafAt s.words s.cr3 (indexes address)) cow = true ∧
        (s.shareCount (frameOf (leafAt s.words s.cr3 (indexes address))) ≤ 1 ∨
          Copyable s (frameOf (leafAt s.words s.cr3 (indexes address)))))
    (top limit : Word) (byte : BitVec 8) :
    ∃ attempts t, storeByte top limit address byte attempts s = .done t := by
  have sound := books.sound s.cr3 member
  cases open' : has (leafAt s.words s.cr3 (indexes address)) writable with
  | true => exact ⟨1, _, storeByte_ready ⟨sound, there, open'⟩ inside top limit byte⟩
  | false =>
      rw [open'] at served
      obtain ⟨waits, frame⟩ := served.resolve_left (by decide)
      obtain ⟨t, copied, cr3, ready⟩ := cowFault_ready books member inside ⟨there, waits, open'⟩ frame
      have code : faultCode s address = present ||| writable := by
        rw [faultCode_eq sound inside, if_pos there]
      have mended : pageFault s top limit address (faultCode s address) = (true, t) := by
        have asks : has (present ||| writable) present = true ∧
            has (present ||| writable) writable = true := by decide
        unfold pageFault
        rw [code]
        simp only [asks, and_self, if_true, copied]
      have shut : ringZero s address 3 s.cr3 ≠ true := by
        rw [ringZero_eq sound (low_of_user inside) (.here 3 s.cr3)]
        change (_ && has (leafAt s.words s.cr3 (indexes address)) writable) ≠ true
        rw [open', Bool.and_false]
        decide
      rw [← cr3] at ready
      exact ⟨2, _, (storeByte_again inside shut mended byte 1).trans
        (storeByte_ready ready inside top limit byte)⟩

theorem lawful_stores (books : Books s managed live hand chain) (held : SlotsHeld s live)
    (member : s.cr3 ∈ live) (lawful : Lawful s address) (top limit : Word) (byte : BitVec 8) :
    ∃ attempts t, storeByte top limit address byte attempts s = .done t := by
  obtain ⟨inside, -, writes, served⟩ := lawful
  rcases served with ⟨there, frame⟩ | ⟨out, returns⟩
  · refine storeByte_there books member inside there ?_ top limit byte
    rcases frame with open' | frame
    · exact Or.inl open'
    · exact writes.imp_right fun waits => ⟨waits, frame⟩
  · have sound := books.sound s.cr3 member
    have absent : has (leafAt s.words s.cr3 (indexes address)) present = false := by
      unfold isSwappedEntry at out
      simp only [Bool.and_eq_true, Bool.not_eq_true'] at out
      exact out.1
    obtain ⟨frame, t, chain', back, cr3, books', single, framed, leaf⟩ :=
      swapIn_returns books held member inside out returns
    have code : faultCode s address = writable := by
      rw [faultCode_eq sound inside, if_neg (by rw [absent]; decide)]
    have mended : pageFault s top limit address (faultCode s address) = (true, t) := by
      have asks : has writable present = false := by decide
      unfold pageFault
      rw [code]
      simp only [asks, back, false_and, if_false, Bool.false_eq_true]
    have shut : ringZero s address 3 s.cr3 ≠ true := by
      rw [ringZero_eq sound (low_of_user inside) (.here 3 s.cr3)]
      change (has (leafAt s.words s.cr3 (indexes address)) present && _) ≠ true
      rw [absent, Bool.false_and]
      decide
    rw [← cr3] at leaf member
    have there : has (leafAt t.words t.cr3 (indexes address)) present = true := by
      rw [leaf]
      exact present_inEntry _ _
    obtain ⟨attempts, t', stored⟩ := storeByte_there books' member inside there (by
      rw [leaf, writable_inEntry framed, cow_inEntry framed, frameOf_inEntry framed]
      rw [cr3]
      exact writes.imp_right fun waits => ⟨waits, Or.inl single⟩) top limit byte
    exact ⟨attempts + 1, t', (storeByte_again inside shut mended byte attempts).trans stored⟩

end Storing

end FiveAM.Memory.KernelStores
