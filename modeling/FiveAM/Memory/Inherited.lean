/- GID: FiveAM/Memory/Inherited
   source: kernel/src/memory.rs
   digest: What a forked space finds at its pages, and which pages of its parent it is missing. -/

import FiveAM.Memory.FrameOwnership

set_option autoImplicit false
set_option relaxedAutoImplicit false

namespace FiveAM.Memory.Inherited

open FiveAM.Process.TaskTable (Word)
open FiveAM.Memory.Entries FiveAM.Memory.Frames FiveAM.Memory.PageTables FiveAM.Memory.Swap
open FiveAM.Memory.Ownership FiveAM.Memory.Residency FiveAM.Memory.Eviction FiveAM.Memory.Contents
open FiveAM.Memory.Return FiveAM.Memory.Spaces FiveAM.Memory.Teardown FiveAM.Memory.Forking
open FiveAM.Memory.CopyOnWrite FiveAM.Lib.RadixTables FiveAM.Lib.Runs

/-- What a program finds at a page, and whether it may read and write there. -/
@[ext] structure View where
  words : Table
  user : Bool
  writable : Bool

section Flags

/-- May a program write there: a page that waits for its first write counts. -/
def grants (e : Word) : Bool := has e writable || has e cow

theorem grants_lowered (e : Word) : grants (lowered e) = grants e := by
  unfold grants
  rw [writable_lowered, Bool.false_or]
  unfold lowered sharedFlags
  have bit : has (flagsOf e) writable = has e writable := by
    rw [has_writable, has_writable]
    exact flagsOf_bit e (by decide) (by decide)
  split_ifs with writes
  · rw [← bit, writes, Bool.true_or, has_cow, BitVec.getLsbD_or, BitVec.getLsbD_or]
    simp [show cow.getLsbD 9 = true from by decide]
  · rw [← bit, Bool.eq_false_of_not_eq_true writes, Bool.false_or]

private theorem steady_bit {e e' : Word} (same : steady e' = steady e) {k : Nat}
    (kept : steadyBits.getLsbD k = true) : e'.getLsbD k = e.getLsbD k := by
  have bit := congrArg (fun w => w.getLsbD k) same
  simp only [steady, BitVec.getLsbD_and, kept, Bool.and_true] at bit
  exact bit

theorem user_steady {e e' : Word} (same : steady e' = steady e) : has e' user = has e user := by
  rw [has_user, has_user]
  exact steady_bit same (by decide)

theorem grants_steady {e e' : Word} (same : steady e' = steady e) : grants e' = grants e := by
  unfold grants
  rw [has_writable, has_writable, has_cow, has_cow, steady_bit same (by decide),
    steady_bit same (by decide)]

end Flags

section Children

variable {s s' : Paging} {managed live : Finset Word} {hand chain : List Word} {root child : Word}

/-- What the trees and the pages are like once a space has been duplicated. -/
structure Inherits (s s' : Paging) (live : Finset Word) (root child : Word) : Prop where
  new : child ∉ live
  both : ∀ p, has (leafAt s.words root p) present = true →
    leafAt s'.words root p = lowered (leafAt s.words root p) ∧
      leafAt s'.words child p = lowered (leafAt s.words root p)
  neither : ∀ p, has (leafAt s.words root p) present = false →
    leafAt s'.words root p = leafAt s.words root p ∧ leafAt s'.words child p = 0
  others : ∀ r ∈ live, r ≠ root → ∀ p, leafAt s'.words r p = leafAt s.words r p
  words : ∀ r ∈ live, ∀ p, has (leafAt s.words r p) present = true →
    s'.words (frameOf (leafAt s.words r p)) = s.words (frameOf (leafAt s.words r p))
  disk : s'.disk = s.disk

theorem fork_inherits (books : Books s managed live hand chain) (member : root ∈ live)
    (forked : fork s root = (some child, s')) :
    (∃ chain', Books s' managed (insert child live) hand chain') ∧
      Inherits s s' live root child := by
  have spec := fork_spec books member
  rw [forked] at spec
  cases spec with
  | @copied _ rest s0 _ first facts books0 room books' copies =>
      have before : ∀ r ∈ live, ∀ p, leafAt s0.words r p = leafAt s.words r p :=
        fun r member p => along_congr fun v there =>
          facts.trees v (lt_of_lt_of_le there (tables_le_occurs member v))
      refine ⟨⟨_, books'⟩, facts.outside, fun p there => ?_, fun p absent => ?_,
        fun r live' other p => ?_, fun r live' p there => ?_, copies.disk.trans facts.disk⟩
      · obtain ⟨page, inside, path⟩ := listed_of_present there
        have copied := copies.both p ⟨page, inside, fun j low => (path j low).symm⟩
        rw [before root member p] at copied
        exact copied
      · have unlisted : ¬Listed (userPages s root) p := fun listed => by
          have there := copies.resident p listed
          rw [before root member p, absent] at there
          cases there
        obtain ⟨same, blank⟩ := copies.neither p unlisted
        exact ⟨same.trans (before root member p), blank.trans (facts.leaves p)⟩
      · have old : r ≠ child := fun same => facts.outside (same ▸ live')
        exact (copies.others r (Finset.mem_insert_of_mem live') other old p).trans
          (before r live' p)
      · obtain ⟨-, free, -, -⟩ := page_frame books live' there
        rw [first, List.mem_cons, not_or] at free
        refine (copies.kept _ ?_ fun inside => free.2 (List.mem_of_mem_take inside)).trans
          (facts.kept _ free.1)
        have same : leafAt s0.words r p = leafAt s.words r p := before r live' p
        rw [← same] at there ⊢
        exact (page_frame books0 (Finset.mem_insert_of_mem live') there).1

end Children

section Pages

variable {s s' : Paging} {managed live : Finset Word} {hand chain : List Word} {root child : Word}

/-- What a program finds at a page, in its frame or once it is brought back from its slot. -/
def found (s : Paging) (root : Word) (path : Nat → Index) : Option View :=
  (contents s root path).map fun words =>
    ⟨words, has (leafAt s.words root path) user, grants (leafAt s.words root path)⟩

theorem found_unseen (unseen : Unseen s s' live) {r : Word} (member : r ∈ live)
    (p : Nat → Index) : found s' r p = found s r p := by
  have same := unseen.flags r member p
  unfold found
  rw [unseen.contents r member p, user_steady same, grants_steady same]

theorem found_swapIn (books : Books s managed live hand chain) (held : SlotsHeld s live)
    (member : s.cr3 ∈ live) {address : Word} (low : indexes address 3 = 0) {r : Word}
    (member' : r ∈ live) (p : Nat → Index) :
    found (swapIn s address).2 r p = found s r p :=
  found_unseen (swapIn_kept books held member low).1 member' p

/-- Whatever a program could read in the parent it can read in the child, and write there
where it could. -/
def Keeps (s s' : Paging) (root child : Word) : Prop :=
  ∀ address, address < userSpaceEnd → ∀ v, found s root (indexes address) = some v →
    v.user = true → found s' child (indexes address) = some v

def AllResident (s : Paging) (root : Word) : Prop :=
  ∀ address, address < userSpaceEnd →
    has (leafAt s.words root (indexes address)) user = true →
    isSwappedEntry (leafAt s.words root (indexes address)) = false

theorem found_present {path : Nat → Index} (there : has (leafAt s.words root path) present = true) :
    found s root path = some ⟨s.words (frameOf (leafAt s.words root path)),
      has (leafAt s.words root path) user, grants (leafAt s.words root path)⟩ := by
  unfold found contents heldBy
  rw [if_pos there]
  rfl

theorem found_absent {path : Nat → Index} (there : has (leafAt s.words root path) present = false)
    (out : isSwappedEntry (leafAt s.words root path) = false) : found s root path = none := by
  simp only [isSwappedEntry, there, Bool.not_false, Bool.true_and] at out
  unfold found contents heldBy
  rw [if_neg (by simp [there]), if_neg (by simp [out])]
  rfl

theorem found_out {path : Nat → Index} (out : isSwappedEntry (leafAt s.words root path) = true) :
    ∃ words, found s root path =
      some ⟨words, has (leafAt s.words root path) user, grants (leafAt s.words root path)⟩ := by
  simp only [isSwappedEntry, Bool.and_eq_true, Bool.not_eq_true'] at out
  unfold found contents heldBy
  rw [if_neg (by simp [out.1]), if_pos out.2]
  exact ⟨_, rfl⟩

/-- A fork that succeeds keeps every page of the parent exactly where none of them is out. -/
theorem fork_keeps_iff (books : Books s managed live hand chain) (member : root ∈ live)
    (forked : fork s root = (some child, s')) : Keeps s s' root child ↔ AllResident s root := by
  obtain ⟨-, inherits⟩ := fork_inherits books member forked
  constructor
  · intro keeps address inside reads
    refine Bool.eq_false_of_not_eq_true fun out => ?_
    obtain ⟨words, here⟩ := found_out out
    have copy := keeps address inside _ here reads
    simp only [isSwappedEntry, Bool.and_eq_true, Bool.not_eq_true'] at out
    have blank := (inherits.neither _ out.1).2
    rw [found_absent (by rw [blank]; decide) (by rw [blank]; decide)] at copy
    cases copy
  · intro resident address inside v here reads
    by_cases there : has (leafAt s.words root (indexes address)) present = true
    · rw [found_present there] at here
      have leaf := (inherits.both _ there).2
      rw [found_present (by rw [leaf, present_lowered]; exact there), leaf, frameOf_lowered,
        user_lowered, grants_lowered, inherits.words root member _ there]
      exact here
    · have absent := Bool.eq_false_of_not_eq_true there
      by_cases out : isSwappedEntry (leafAt s.words root (indexes address)) = true
      · obtain ⟨words, here'⟩ := found_out out
        obtain rfl := Option.some.inj (here'.symm.trans here)
        exact absurd (out.symm.trans (resident address inside reads)) (by decide)
      · rw [found_absent absent (Bool.eq_false_of_not_eq_true out)] at here
        cases here

private def tenFrames : List Word :=
  (List.range 10).reverse.map fun n => BitVec.ofNat 64 (0x100000 + 0x1000 * n)

/-- A space with one page, which is resident. -/
theorem fork_keeps_iff_onePage : ∃ s s' : Paging,
    fork s 0x100000 = (some 0x105000, s') ∧
      (Keeps s s' 0x100000 0x105000 ↔ AllResident s 0x100000) := by
  have all : (tenFrames.all fun f => decide (Framed f)) = true := by decide +kernel
  have usable : FrameOwnership.Usable tenFrames :=
    ⟨fun f inside => of_decide_eq_true (List.all_eq_true.mp all f inside), by decide +kernel⟩
  have taken : ((runAll (fun k e => if FrameOwnership.Provided k e then FrameOwnership.step k e
      else none) (FrameOwnership.booted tenFrames)
      [.create, .map 0x100000 0x400000 (user ||| writable)]).map fun k =>
        (k.live, (fork k.paging 0x100000).1)) = some ({0x100000}, some 0x105000) := by
    decide +kernel
  obtain ⟨k, run, shape⟩ := Option.map_eq_some_iff.mp taken
  obtain ⟨live, forked⟩ := Prod.mk.inj shape
  obtain ⟨chain, books⟩ :=
    FrameOwnership.reached_kept usable (Reached.runGuarded (.start rfl) run)
  rw [live] at books
  have result : fork k.paging 0x100000 = (some 0x105000, (fork k.paging 0x100000).2) :=
    Prod.ext forked rfl
  exact ⟨_, _, result, fork_keeps_iff books (Finset.mem_singleton_self _) result⟩

private def pageOut : List Conservation.Event := [.evict 0x100000, .give 0x101000]

/-- The child of a space whose one page is out finds nothing there. -/
theorem page_lost : ¬∀ k : Conservation.Machine,
    Reached Conservation.step (fun k => ∃ managed, Conservation.Sane managed k)
      Conservation.Spares k →
    ∀ root ∈ k.live, ∀ child s', fork k.paging root = (some child, s') →
      Keeps k.paging s' root child := by
  intro always
  have taken : (((runAll Conservation.step (Conservation.booted Conservation.sixFrames)
      Conservation.onePage).bind fun k => runAll Conservation.step k pageOut).map fun k =>
        (k.live, (fork k.paging 0x100000).1,
          isSwappedEntry (leafAt k.paging.words 0x100000 (indexes 0x400000)),
          has (leafAt k.paging.words 0x100000 (indexes 0x400000)) user,
          leafAt (fork k.paging 0x100000).2.words 0x101000 (indexes 0x400000))) =
      some ({0x100000}, some 0x101000, true, true, 0) := by decide +kernel
  obtain ⟨k, run, reached, -⟩ := Conservation.onePage_reached
  rw [run, Option.bind_some] at taken
  obtain ⟨k', later, shape⟩ := Option.map_eq_some_iff.mp taken
  simp only [Prod.mk.injEq] at shape
  obtain ⟨live, forked, out, reads, blank⟩ := shape
  have fair : allAllowed Conservation.step Conservation.Spares k pageOut :=
    ⟨trivial, fun _ _ => ⟨trivial, fun _ _ => trivial⟩⟩
  have keeps := always k' (reached.runAll fair later) 0x100000
    (by rw [live]; exact Finset.mem_singleton_self _) _ _ (Prod.ext forked rfl)
  obtain ⟨words, here⟩ := found_out out
  have copy := keeps 0x400000 (by decide) _ here reads
  rw [found_absent (by rw [blank]; decide) (by rw [blank]; decide)] at copy
  cases copy

end Pages

end FiveAM.Memory.Inherited
