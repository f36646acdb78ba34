/- GID: FiveAM/Memory/FrameOwnership
   source: kernel/src/memory.rs
   digest: Over whole runs, the one use that every managed frame has, and its owners. -/

import FiveAM.Memory.CopyOnWrite

set_option autoImplicit false
set_option relaxedAutoImplicit false

namespace FiveAM.Memory.FrameOwnership

open FiveAM.Process.TaskTable (Word)
open FiveAM.Memory.Entries FiveAM.Memory.Frames FiveAM.Memory.PageTables FiveAM.Memory.Swap
open FiveAM.Memory.Ownership FiveAM.Memory.Spaces FiveAM.Memory.Teardown FiveAM.Memory.Forking
open FiveAM.Memory.Boot FiveAM.Memory.CopyOnWrite FiveAM.Lib.RadixTables FiveAM.Lib.Runs
open FiveAM.Memory.Conservation (indexes_low)

structure Machine where
  paging : Paging
  live : Finset Word

inductive Event where
  /-- `AddressSpace::new`. -/
  | create
  /-- `AddressSpace::map` of a frame just taken from the allocator. -/
  | map (root address flags : Word)
  | activate (root : Word)
  | fork (root : Word)
  | cowFault (address : Word)
  /-- `demand_fault` of a task whose stack reaches from `limit` to `top`. -/
  | demandFault (top limit address : Word)
  | destroy (root : Word)

/-- One event that succeeds. A page is mapped with flags that are no address, a stack
lies in the user half, and the faults are those of the active space. -/
def step (k : Machine) : Event → Option Machine
  | .create =>
      match newSpace k.paging with
      | (none, _) => none
      | (some root, s) => some ⟨s, insert root k.live⟩
  | .map root address flags =>
      if root ∈ k.live ∧ frameOf flags = 0 then
        match k.paging.allocate with
        | (none, _) => none
        | (some frame, s) =>
            match mapIn s root address frame flags with
            | (.error _, _) => none
            | (.ok _, s) => some ⟨s, k.live⟩
      else none
  | .activate root => some ⟨{ k.paging with cr3 := root }, k.live⟩
  | .fork root =>
      if root ∈ k.live then
        match fork k.paging root with
        | (none, _) => none
        | (some child, s) => some ⟨s, insert child k.live⟩
      else none
  | .cowFault address =>
      if k.paging.cr3 ∈ k.live then
        match cowFault k.paging address with
        | (false, _) => none
        | (true, s) => some ⟨s, k.live⟩
      else none
  | .demandFault top limit address =>
      if k.paging.cr3 ∈ k.live ∧ top ≤ userSpaceEnd then
        match demandFault k.paging top limit address with
        | (none, _) => none
        | (some _, s) => some ⟨s, k.live⟩
      else none
  | .destroy root =>
      if root ∈ k.live then some ⟨destroy k.paging root, k.live.erase root⟩ else none

/-- The allocator is not empty when a fault needs a frame. -/
def Provided (k : Machine) : Event → Prop
  | .cowFault _ => k.paging.head ≠ 0
  | .demandFault _ _ _ => k.paging.head ≠ 0
  | _ => True

instance (k : Machine) : (e : Event) → Decidable (Provided k e)
  | .cowFault _ => inferInstanceAs (Decidable (_ ≠ _))
  | .demandFault _ _ _ => inferInstanceAs (Decidable (_ ≠ _))
  | .create => .isTrue trivial
  | .map _ _ _ => .isTrue trivial
  | .activate _ => .isTrue trivial
  | .fork _ => .isTrue trivial
  | .destroy _ => .isTrue trivial

/-- The one thing a managed frame is used for, the free list being `chain`. -/
inductive Use (k : Machine) (chain : List Word) (f : Word) : Prop where
  | free (once : chain.count f = 1) (table : tableCount k.paging.words k.live f = 0)
      (page : refCount k.paging.words k.live f = 0) : Use k chain f
  | table {root : Word} (member : root ∈ k.live) (once : treeCount k.paging.words root f = 1)
      (alone : ∀ r ∈ k.live, r ≠ root → treeCount k.paging.words r f = 0)
      (free : f ∉ chain) (page : refCount k.paging.words k.live f = 0) : Use k chain f
  | page (named : 1 ≤ refCount k.paging.words k.live f)
      (owners : k.paging.shareCount f = refCount k.paging.words k.live f)
      (free : f ∉ chain) (table : tableCount k.paging.words k.live f = 0) : Use k chain f

/-- The books of a machine with nothing in the hand. -/
def Kept (managed : Finset Word) (k : Machine) : Prop :=
  ∃ chain, Books k.paging managed k.live [] chain

variable {managed : Finset Word} {k k' : Machine}

private theorem kept_map (kept : Kept managed k) {root address flags : Word}
    (taken : step k (.map root address flags) = some k') : Kept managed k' := by
  obtain ⟨chain, books⟩ := kept
  simp only [step, Option.ite_none_right_eq_some] at taken
  obtain ⟨⟨member, plain⟩, taken⟩ := taken
  cases chain with
  | nil =>
      rw [books.account.allocate_none] at taken
      cases taken
  | cons frame rest =>
      obtain ⟨got, books1⟩ := books.take
      rw [got] at taken
      dsimp only at taken
      unfold mapIn at taken
      split_ifs at taken with high
      have mapping := mapPageIn_spec frame flags books1 member (indexes_low high)
      generalize mapPageIn _ root address frame flags = answer at mapping taken
      cases mapping with
      | short few books2 builds => cases taken
      | taken there books2 builds => cases taken
      | mapped room absent books2 builds route =>
          obtain rfl := Option.some.inj taken
          exact ⟨_, (mapped_fresh _ books2 builds member route absent plain).1⟩

private theorem kept_fork (kept : Kept managed k) {root : Word}
    (taken : step k (.fork root) = some k') : Kept managed k' := by
  obtain ⟨chain, books⟩ := kept
  simp only [step, Option.ite_none_right_eq_some] at taken
  obtain ⟨member, taken⟩ := taken
  have forked := fork_spec books member
  generalize PageTables.fork k.paging root = answer at forked taken
  cases forked with
  | none empty => cases taken
  | short first made books0 few books' marks => cases taken
  | copied first made books0 room books' copies =>
      obtain rfl := Option.some.inj taken
      exact ⟨_, books'⟩

private theorem kept_cowFault (kept : Kept managed k) {address : Word} (free : k.paging.head ≠ 0)
    (taken : step k (.cowFault address) = some k') : Kept managed k' := by
  obtain ⟨chain, books⟩ := kept
  simp only [step, Option.ite_none_right_eq_some] at taken
  obtain ⟨member, taken⟩ := taken
  by_cases inside : address < userSpaceEnd
  · have repairs := cowFault_spec books member inside free
    generalize Swap.cowFault k.paging address = answer at repairs taken
    cases repairs with
    | refused plain => cases taken
    | copied guarded first several books' repaired holds =>
        obtain rfl := Option.some.inj taken
        exact ⟨_, books'⟩
    | kept guarded single books' repaired =>
        obtain rfl := Option.some.inj taken
        exact ⟨_, books'⟩
  · rw [cowFault_kernel inside] at taken
    cases taken

private theorem kept_demandFault (kept : Kept managed k) {top limit address : Word}
    (free : k.paging.head ≠ 0) (taken : step k (.demandFault top limit address) = some k') :
    Kept managed k' := by
  obtain ⟨chain, books⟩ := kept
  simp only [step, Option.ite_none_right_eq_some] at taken
  obtain ⟨⟨member, low⟩, taken⟩ := taken
  by_cases inside : address < userSpaceEnd
  · have grows := demandFault_spec books member inside free top limit
    generalize Swap.demandFault k.paging top limit address = answer at grows taken
    cases grows with
    | declined => cases taken
    | short first few books' builds => cases taken
    | grown first room absent books' leaves zero =>
        obtain rfl := Option.some.inj taken
        exact ⟨_, books'⟩
  · have above : top ≤ address := BitVec.le_trans low (BitVec.not_lt.mp inside)
    have declined : Swap.demandFault k.paging top limit address = (none, k.paging) :=
      if_pos (Or.inr above)
    rw [declined] at taken
    cases taken

theorem kept_step {e : Event} (kept : Kept managed k) (provided : Provided k e)
    (taken : step k e = some k') : Kept managed k' := by
  cases e with
  | create =>
      obtain ⟨chain, books⟩ := kept
      simp only [step] at taken
      cases chain with
      | nil =>
          have failed : newSpace k.paging = (none, k.paging) := by
            unfold newSpace
            rw [books.account.allocate_none]
          rw [failed] at taken
          cases taken
      | cons root rest =>
          obtain ⟨s, new, books', made⟩ := newSpace_made books
          rw [new] at taken
          obtain rfl := Option.some.inj taken
          exact ⟨_, books'⟩
  | map root address flags => exact kept_map kept taken
  | activate root =>
      obtain ⟨chain, books⟩ := kept
      obtain rfl := Option.some.inj taken
      exact ⟨chain, books.congr rfl rfl rfl rfl⟩
  | fork root => exact kept_fork kept taken
  | cowFault address => exact kept_cowFault kept provided taken
  | demandFault top limit address => exact kept_demandFault kept provided taken
  | destroy root =>
      obtain ⟨chain, books⟩ := kept
      simp only [step, Option.ite_none_right_eq_some, Option.some.injEq] at taken
      obtain ⟨member, rfl⟩ := taken
      obtain ⟨freed, books', -, -⟩ := destroy_spec books member
      exact ⟨_, books'⟩

/-- A machine as `init` leaves it. -/
def booted (frames : List Word) : Machine := ⟨init statics frames, ∅⟩

/-- The usable frames the firmware reported, as `init` gives them to the allocator. -/
def Usable (frames : List Word) : Prop := (∀ f ∈ frames, Framed f) ∧ frames.Nodup

theorem reached_kept {frames : List Word} (usable : Usable frames)
    (reached : Reached step (fun k => k = booted frames) Provided k) : Kept frames.toFinset k := by
  refine Reached.invariant (fun k begun => ?_) (fun _ _ _ kept provided taken =>
    kept_step kept provided taken) reached
  subst begun
  exact ⟨_, init_books usable.1 usable.2⟩

theorem use_of_books {chain : List Word} (books : Books k.paging managed k.live [] chain) {f : Word}
    (inside : f ∈ managed) : Use k chain f := by
  have once := books.account.once f
  have owners := books.account.owners f
  rw [if_pos inside, List.count_nil, Nat.add_zero] at once
  rcases Nat.eq_zero_or_pos (refCount k.paging.words k.live f) with none | named
  · rw [none, if_neg (Nat.lt_irrefl 0), Nat.add_zero] at once
    rcases Nat.eq_zero_or_pos (tableCount k.paging.words k.live f) with plain | table
    · exact .free (by omega) plain none
    · have single : tableCount k.paging.words k.live f = 1 := by omega
      obtain ⟨root, member, there⟩ : ∃ root ∈ k.live, treeCount k.paging.words root f ≠ 0 := by
        by_contra nowhere
        push Not at nowhere
        exact absurd (Finset.sum_eq_zero nowhere) (Nat.ne_of_gt table)
      have all : treeCount k.paging.words root f +
          ∑ r ∈ k.live.erase root, treeCount k.paging.words r f = 1 :=
        (Finset.add_sum_erase _ _ member).trans single
      have others : ∑ r ∈ k.live.erase root, treeCount k.paging.words r f = 0 := by omega
      refine .table member (by omega) (fun r there' other => ?_) (fun free => ?_) none
      · exact (Finset.sum_eq_zero_iff.mp others) r (Finset.mem_erase.mpr ⟨other, there'⟩)
      · have counted := List.count_pos_iff.mpr free
        omega
  · rw [if_pos named] at once
    refine .page named (by omega) (fun free => ?_) (by omega)
    have counted := List.count_pos_iff.mpr free
    omega

theorem all_free {chain : List Word} (books : Books k.paging managed k.live [] chain)
    (empty : k.live = ∅) : k.paging.free = managed.card := by
  have nothing : ∀ own leaf (m : Words), forest userTree own leaf m 3 ∅ = 0 := fun _ _ _ =>
    Finset.sum_empty
  have counts : ∀ f, chain.count f = if f ∈ managed then 1 else 0 := by
    intro f
    have once := books.account.once f
    rw [empty, tableCount, occurs, refCount, nothing, nothing] at once
    simpa using once
  have nodup : chain.Nodup := List.nodup_iff_count_le_one.mpr fun f => by
    rw [counts f]
    split_ifs <;> omega
  have same : chain.toFinset = managed := by
    ext f
    rw [List.mem_toFinset, ← List.count_pos_iff, counts f]
    split_ifs with inside <;> simp [inside]
  rw [books.account.count, ← same, List.toFinset_card_of_nodup nodup]

/-- In every run of operations that succeed, none of which finds the allocator empty,
every frame is free once, a table of one space, or a page with as many owners as
entries name it; with no space left all of them are free again. -/
theorem frames_owned {frames : List Word} (usable : Usable frames)
    (reached : Reached step (fun k => k = booted frames) Provided k) :
    (∃ chain, Chain k.paging.words k.paging.head chain ∧ k.paging.free = chain.length ∧
      (∀ f ∈ chain, f ∈ frames) ∧ ∀ f ∈ frames, Use k chain f) ∧
    (k.live = ∅ → k.paging.free = (booted frames).paging.free) := by
  obtain ⟨chain, books⟩ := reached_kept usable reached
  refine ⟨⟨chain, books.account.linked, books.account.count, fun f free => ?_, fun f inside => ?_⟩,
    fun empty => ?_⟩
  · have counted := List.count_pos_iff.mpr free
    exact List.mem_toFinset.mp (books.account.managed_of (f := f) (by omega))
  · exact use_of_books books (List.mem_toFinset.mpr inside)
  · have first : Reached step (fun k => k = booted frames) Provided (booted frames) := .start rfl
    obtain ⟨chain', books'⟩ := reached_kept usable first
    rw [all_free books empty, all_free books' rfl]

private def twelveFrames : List Word :=
  [0x10b000, 0x10a000, 0x109000, 0x108000, 0x107000, 0x106000, 0x105000, 0x104000, 0x103000,
    0x102000, 0x101000, 0x100000]

private def twoWriters : List Event :=
  [.create, .map 0x100000 0x400000 (user ||| writable), .fork 0x100000, .activate 0x105000,
    .cowFault 0x400000, .activate 0x100000, .cowFault 0x400000,
    .demandFault 0x500000 0x4f0000 0x4ff008]

theorem frames_owned_twoWriters : ∃ k, k.live = {0x100000, 0x105000} ∧ k.paging.free = 1 ∧
    ∃ chain, Use k chain 0x101000 := by
  have all : (twelveFrames.all fun f => decide (Framed f)) = true := by decide +kernel
  have usable : Usable twelveFrames :=
    ⟨fun f inside => of_decide_eq_true (List.all_eq_true.mp all f inside), by decide +kernel⟩
  have taken : ((runAll (fun k e => if Provided k e then step k e else none) (booted twelveFrames)
      twoWriters).map fun k => (k.live, k.paging.free)) =
      some ({0x100000, 0x105000}, 1) := by decide +kernel
  obtain ⟨k, run, shape⟩ := Option.map_eq_some_iff.mp taken
  obtain ⟨live, free⟩ := Prod.mk.inj shape
  obtain ⟨⟨chain, -, -, -, uses⟩, -⟩ := frames_owned usable (Reached.runGuarded (.start rfl) run)
  exact ⟨k, live, free, chain, uses _ (by decide +kernel)⟩

end FiveAM.Memory.FrameOwnership
