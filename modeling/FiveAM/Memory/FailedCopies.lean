/- GID: FiveAM/Memory/FailedCopies
   source: kernel/src/memory.rs
   digest: A copy-on-write fault that finds no frame: what it leaves, and what it has given up. -/

import FiveAM.Memory.FrameOwnership

set_option autoImplicit false
set_option relaxedAutoImplicit false

namespace FiveAM.Memory.FailedCopies

open FiveAM.Process.TaskTable (Word)
open FiveAM.Memory.Entries FiveAM.Memory.Frames FiveAM.Memory.Replace FiveAM.Memory.PageTables
open FiveAM.Memory.Policies FiveAM.Memory.Choosing FiveAM.Memory.Swap FiveAM.Memory.Ownership
open FiveAM.Memory.Teardown FiveAM.Memory.Eviction FiveAM.Memory.CopyOnWrite
open FiveAM.Memory.FrameOwnership FiveAM.Lib.RadixTables FiveAM.Lib.Runs

section Sending

variable {s : Paging} {root : Word}

/-- A slot is free and the next transfer will succeed. -/
def Writable (s : Paging) : Prop :=
  (∃ slot, s.used slot = false) ∧ (s.disk.answers s.disk.transfers).isNone = true

def Sendable (s : Paging) (root : Word) : Prop :=
  (∃ i, i < (userPages s root).length ∧ PageSet.eligible s (userPages s root) i = true ∧
    Dated s (pageAt (userPages s root) i)) ∧ Writable s

/-- How `evict_one` can end, in any state. -/
inductive Sends (s : Paging) (root : Word) : Option Word × Paging → Prop where
  | none {t : Paging} (stuck : ¬Sendable s root) (fades : Fades { s with disk := t.disk } t) :
      Sends s root (none, t)
  | sent {frame : Word} {t : Paging} (able : Sendable s root) : Sends s root (some frame, t)

theorem evictPage_sends {t : Paging} {page : Page} (fades : Fades s t)
    (able : Writable s → Sendable s root) : Sends s root (evictPage t page) := by
  have used : t.used = s.used := by rw [fades.rest]
  have disk : t.disk = s.disk := by rw [fades.rest]
  obtain ⟨slot, unused, found⟩ | ⟨full, found⟩ := allocateSlot_spec t
  · rw [evictPage_eq unused found]
    split_ifs with answer
    · rw [disk] at answer
      refine .sent (able ⟨⟨slot, ?_⟩, answer⟩)
      rw [← used]
      exact unused
    · refine .none (fun sendable => answer ?_) ⟨fades.words, ?_⟩
      · rw [disk]
        exact sendable.2.2
      · rw [fades.rest]
  · unfold evictPage
    rw [found]
    refine .none (fun sendable => ?_) fades.disk
    obtain ⟨slot, unused⟩ := sendable.2.1
    rw [← used, full slot] at unused
    cases unused

theorem evictOne_sends (s : Paging) (root : Word) : Sends s root (evictOne s root) := by
  unfold evictOne
  dsimp only
  split_ifs with empty
  · refine .none (fun sendable => ?_) (Fades.refl s)
    obtain ⟨⟨i, inside, -⟩, -⟩ := sendable
    rw [List.isEmpty_iff.mp empty] at inside
    exact absurd inside (Nat.not_lt_zero i)
  · have fades := fades_choose s (userPages s root)
    rcases chosen : choose s (userPages s root) with ⟨_ | i, t⟩
    · rw [chosen] at fades
      refine .none (fun sendable => ?_) fades.disk
      obtain ⟨⟨i, inside, able, dated⟩, -⟩ := sendable
      exact choose_some inside able dated (congrArg Prod.fst chosen)
    · rw [chosen] at fades
      obtain ⟨inside, able, dated⟩ := choose_named (congrArg Prod.fst chosen)
      have able' : PageSet.eligible t (userPages s root) i = true := (fades.eligible i).trans able
      dsimp only
      rw [if_neg]
      · exact evictPage_sends fades fun writable => ⟨⟨i, inside, able, dated⟩, writable⟩
      · rw [able']
        simp [inside]

end Sending

section Failing

variable {s : Paging} {address : Word}

/-- Leaf entries but for accessed bits, owners and the free list are what they were. -/
structure Untouched (s t : Paging) : Prop where
  leaves : ∀ root path, leafAt t.words root path = leafAt s.words root path ∨
    leafAt t.words root path = leafAt s.words root path &&& ~~~accessed
  owners : ∀ frame, t.shareCount frame = s.shareCount frame
  count : t.free = s.free
  list : ∀ chain, Chain t.words t.head chain ↔ Chain s.words s.head chain

theorem Untouched.refl (s : Paging) : Untouched s s :=
  ⟨fun _ _ => Or.inl rfl, fun _ => rfl, rfl, fun _ => Iff.rfl⟩

/-- A page the policy can send out once its space has given up its share of a frame. -/
def Yields (s : Paging) (frame : Word) (page : Page) : Prop :=
  let e := s.words page.table page.index
  has e present = true ∧ has e swapped = false ∧
    s.shareCount (frameOf e) ≤ (if frameOf e = frame then 2 else 1) ∧ Dated s page

/-- The fault is on a page that waits for its first write and whose frame has other owners;
no frame is free, and none can be had by sending a page out. -/
def Stranded (s : Paging) (address : Word) : Prop :=
  let e := leafAt s.words s.cr3 (indexes address)
  address < userSpaceEnd ∧ Guarded e ∧ 1 < s.shareCount (frameOf e) ∧ s.head = 0 ∧
    ¬((∃ page ∈ userPages s s.cr3, Yields s (frameOf e) page) ∧ Writable s)

theorem sendable_unshared (shared : Paging.SharedOk s.shared) {frame : Word}
    (several : 1 < s.shareCount frame) :
    Sendable (s.unshare frame).2 (s.unshare frame).2.cr3 ↔
      (∃ page ∈ userPages s s.cr3, Yields s frame page) ∧ Writable s := by
  have counts := (Paging.unshare_spec shared frame).2
  rw [unshare_eq] at counts ⊢
  have able : ∀ i, PageSet.eligible { s with shared := (s.unshare frame).2.shared }
        (userPages s s.cr3) i = true ∧ Dated s (pageAt (userPages s s.cr3) i) ↔
      Yields s frame (pageAt (userPages s s.cr3) i) := by
    intro i
    unfold PageSet.eligible Paging.isShared Yields
    simp only [PageSet.entry, Bool.and_eq_true, Bool.not_eq_true', decide_eq_false_iff_not,
      Nat.not_lt, and_assoc, counts]
    refine and_congr_right fun _ => and_congr_right fun _ => and_congr_left fun _ => ?_
    by_cases same : frameOf (s.words (pageAt (userPages s s.cr3) i).table
        (pageAt (userPages s s.cr3) i).index) = frame
    · rw [if_pos same, if_pos same, same]
      omega
    · rw [if_neg same, if_neg same]
  refine and_congr_left fun _ => ⟨?_, ?_⟩
  · rintro ⟨i, inside, yields⟩
    exact ⟨_, pageAt_mem inside, (able i).mp yields⟩
  · rintro ⟨page, listed, yields⟩
    obtain ⟨i, inside, here⟩ := List.getElem_of_mem listed
    refine ⟨i, inside, (able i).mpr ?_⟩
    rw [pageAt, List.getD_eq_getElem _ _ inside, here]
    exact yields

theorem unshared_touched (shared : Paging.SharedOk s.shared) {frame : Word}
    (several : 1 < s.shareCount frame) {t : Paging}
    (fades : Fades { (s.unshare frame).2 with disk := t.disk } t) : ¬Untouched s t := by
  intro untouched
  have count := (Paging.unshare_spec shared frame).2 frame
  have kept : t.shareCount frame = (s.unshare frame).2.shareCount frame := by
    rw [fades.rest]
    rfl
  rw [if_pos rfl, ← kept, untouched.owners] at count
  omega

/-- A copy-on-write fault that returns false leaves everything alone exactly where it is not
stranded. -/
theorem cowFault_untouched_iff (shared : Paging.SharedOk s.shared) (address : Word) :
    ((cowFault s address).1 = false → Untouched s (cowFault s address).2) ↔
      ¬Stranded s address := by
  by_cases inside : address < userSpaceEnd
  swap
  · rw [cowFault_kernel inside]
    exact iff_of_true (fun _ => Untouched.refl s) fun stranded => inside stranded.1
  by_cases nowhere : ∀ u, ¬Route userTree s.words (indexes address) 3 s.cr3 0 u
  · rw [cowFault_nowhere inside nowhere]
    refine iff_of_true (fun _ => Untouched.refl s) fun stranded => ?_
    have guarded := stranded.2.1
    rw [leafAt_nowhere nowhere] at guarded
    exact absurd guarded (by decide)
  obtain ⟨u, route⟩ : ∃ u, Route userTree s.words (indexes address) 3 s.cr3 0 u := by
    by_contra none
    exact nowhere fun u route => none ⟨u, route⟩
  have word : s.words u (indexes address 0) = leafAt s.words s.cr3 (indexes address) := by
    rw [leafAt, entryAt_route route]
  rw [cowFault_route inside route, word]
  unfold Stranded
  generalize leafAt s.words s.cr3 (indexes address) = e
  dsimp only
  by_cases guarded : Guarded e
  swap
  · rw [if_neg guarded]
    exact iff_of_true (fun _ => Untouched.refl s) fun stranded => guarded stranded.2.1
  by_cases several : 1 < s.shareCount (frameOf e)
  swap
  · rw [if_pos guarded, if_neg several]
    exact iff_of_true (fun served => Bool.noConfusion served) fun stranded =>
      several stranded.2.2.1
  rw [if_pos guarded, if_pos several]
  have victims := sendable_unshared shared several
  have head : (s.unshare (frameOf e)).2.head = s.head := by rw [unshare_eq]
  unfold allocateOrEvict Paging.allocate
  rw [head]
  by_cases empty : s.head = 0
  · rw [if_pos empty]
    dsimp only
    have sends := evictOne_sends (s.unshare (frameOf e)).2 (s.unshare (frameOf e)).2.cr3
    generalize evictOne (s.unshare (frameOf e)).2 (s.unshare (frameOf e)).2.cr3 = answer at sends ⊢
    cases sends with
    | none stuck fades =>
        refine iff_of_false (fun kept => unshared_touched shared several fades (kept rfl)) ?_
        exact fun open' => open' ⟨inside, guarded, several, empty, fun able => stuck (victims.mpr able)⟩
    | sent able =>
        refine iff_of_true (fun served => Bool.noConfusion served) fun stranded => ?_
        exact stranded.2.2.2.2 (victims.mp able)
  · rw [if_neg empty]
    exact iff_of_true (fun served => Bool.noConfusion served) fun stranded =>
      empty stranded.2.2.2.1

private def fourteenFrames : List Word :=
  [0x10d000, 0x10c000, 0x10b000, 0x10a000, 0x109000, 0x108000, 0x107000, 0x106000, 0x105000,
    0x104000, 0x103000, 0x102000, 0x101000, 0x100000]

private def threeOwners : List Event :=
  [.create, .map 0x100000 0x400000 (user ||| writable), .fork 0x100000, .fork 0x100000,
    .activate 0x105000]

private theorem usable_of_all {frames : List Word}
    (all : (frames.all fun f => decide (Framed f)) = true) (nodup : frames.Nodup) : Usable frames :=
  ⟨fun f inside => of_decide_eq_true (List.all_eq_true.mp all f inside), nodup⟩

private theorem run_threeOwners {frames : List Word} {k : Machine} (usable : Usable frames)
    (run : runAll (fun k e => if Provided k e then step k e else none) (booted frames)
      threeOwners = some k) :
    Reached step (fun k => k = booted frames) Provided k ∧ Paging.SharedOk k.paging.shared := by
  have reached : Reached step (fun k => k = booted frames) Provided k :=
    Reached.runGuarded (.start rfl) run
  obtain ⟨chain, books⟩ := reached_kept usable reached
  exact ⟨reached, books.account.shared⟩

/-- With one more frame the first child gets its copy. -/
theorem cowFault_untouched_served : ∃ k,
    Reached step (fun k => k = booted fourteenFrames) Provided k ∧
      Guarded (leafAt k.paging.words k.paging.cr3 (indexes 0x400000)) ∧
      ¬Stranded k.paging 0x400000 := by
  have usable : Usable fourteenFrames := usable_of_all (by decide +kernel) (by decide +kernel)
  have facts : ((runAll (fun k e => if Provided k e then step k e else none)
      (booted fourteenFrames) threeOwners).any fun k =>
        decide (Guarded (leafAt k.paging.words k.paging.cr3 (indexes 0x400000)) ∧
          (cowFault k.paging 0x400000).1 = true)) = true := by
    decide +kernel
  obtain ⟨k, run, facts⟩ := Option.any_eq_true _ _ |>.mp facts
  obtain ⟨guarded, served⟩ := of_decide_eq_true facts
  obtain ⟨reached, shared⟩ := run_threeOwners usable run
  refine ⟨k, reached, guarded, (cowFault_untouched_iff shared 0x400000).mp fun failed => ?_⟩
  rw [served] at failed
  cases failed

/-- The other child reads a page that counts two owners instead of three, once the first
has failed to write it. -/
theorem cowFault_untouched_not : ∃ k,
    Reached step (fun k => k = booted (fourteenFrames.drop 1)) Provided k ∧
      ¬((cowFault k.paging 0x400000).1 = false →
        Untouched k.paging (cowFault k.paging 0x400000).2) := by
  have usable : Usable (fourteenFrames.drop 1) := usable_of_all (by decide +kernel) (by decide +kernel)
  have facts : ((runAll (fun k e => if Provided k e then step k e else none)
      (booted (fourteenFrames.drop 1)) threeOwners).any fun k =>
        decide ((cowFault k.paging 0x400000).1 = false ∧ k.paging.shareCount 0x101000 = 3 ∧
          (cowFault k.paging 0x400000).2.shareCount 0x101000 = 2)) = true := by
    decide +kernel
  obtain ⟨k, run, facts⟩ := Option.any_eq_true _ _ |>.mp facts
  obtain ⟨failed, three, two⟩ := of_decide_eq_true facts
  refine ⟨k, (run_threeOwners usable run).1, fun always => ?_⟩
  have untouched := always failed
  rw [untouched.owners, three] at two
  cases two

end Failing

end FiveAM.Memory.FailedCopies
