/- GID: FiveAM/Memory/StolenCopies
   source: kernel/src/memory.rs, kernel/src/replace.rs
   digest: Where a handled copy-on-write fault ends with a page of its own, and where not. -/

import FiveAM.Memory.FailedCopies

set_option autoImplicit false
set_option relaxedAutoImplicit false

namespace FiveAM.Memory.StolenCopies

open FiveAM.Process.TaskTable (Word)
open FiveAM.Memory.Entries FiveAM.Memory.Frames FiveAM.Memory.Replace FiveAM.Memory.PageTables
open FiveAM.Memory.Policies FiveAM.Memory.Choosing FiveAM.Memory.Swap FiveAM.Memory.Ownership
open FiveAM.Memory.Residency FiveAM.Memory.Teardown FiveAM.Memory.Eviction FiveAM.Memory.Contents
open FiveAM.Memory.CopyOnWrite FiveAM.Memory.FailedCopies FiveAM.Memory.FrameOwnership
open FiveAM.Lib.RadixTables FiveAM.Lib.Runs

variable {s t aged : Paging} {managed live : Finset Word} {hand chain : List Word} {root : Word}
  {path : Nat → Index}

section Victims

def victim (s : Paging) (root : Word) : Option Page :=
  (choose s (userPages s root)).1.map (pageAt (userPages s root))

/-- How `evict_one` ends: with the page the policy named, where it can be written out. -/
inductive Named (s : Paging) (live : Finset Word) (root : Word) : Option Word × Paging → Prop where
  | stuck {t : Paging} (why : victim s root = none ∨ ¬Writable s) : Named s live root (none, t)
  | sent {aged : Paging} {page : Page} {slot : Fin slots} (named : victim s root = some page)
      (able : Writable s) (aging : Aging s aged live) (on : OnPage s.words root page)
      (entry : page.entry = s.words page.table page.index) (there : has page.entry present = true)
      (alone : s.shareCount (frameOf page.entry) ≤ 1) :
      Named s live root (some (frameOf page.entry), sentOut aged page slot)

theorem evictOne_named (table : List (Word × Nat))
    (books : Books { s with shared := table } managed live hand chain) (member : root ∈ live) :
    Named s live root (evictOne s root) := by
  have sound : Sound s.words root := books.sound root member
  have shown := shown_userPages sound
  have aging := aging_choose table books member shown
  have named := fun i (here : (choose s (userPages s root)).1 = some i) => choose_named here
  unfold evictOne
  dsimp only
  split_ifs with empty
  · refine .stuck (Or.inl ?_)
    unfold victim
    refine Option.map_eq_none_iff.mpr (Option.eq_none_iff_forall_ne_some.mpr fun i here => ?_)
    obtain ⟨inside, -⟩ := named i here
    rw [List.isEmpty_iff.mp empty] at inside
    exact absurd inside (Nat.not_lt_zero i)
  rcases chosen : choose s (userPages s root) with ⟨_ | i, aged⟩
  · refine .stuck (Or.inl ?_)
    unfold victim
    rw [chosen]
    rfl
  rw [chosen] at aging named
  obtain ⟨inside, able, -⟩ := named i rfl
  have victim' : victim s root = some (pageAt (userPages s root) i) := by
    unfold victim
    rw [chosen]
    rfl
  have eligible := eligible_aging shown member aging inside
  rw [able] at eligible
  dsimp only
  rw [if_neg (by rw [eligible]; simp [inside])]
  obtain ⟨on, entry, there⟩ := mem_userPages sound (pageAt_mem inside)
  have same := entry_ageless shown member aging inside
  unfold PageSet.entry at same
  rw [← entry] at same
  unfold PageSet.eligible PageSet.entry Paging.isShared at able
  rw [← entry] at able
  simp only [Bool.and_eq_true, Bool.not_eq_true', decide_eq_false_iff_not] at able
  obtain ⟨-, alone⟩ := able
  obtain ⟨slot, unused, found⟩ | ⟨used, full⟩ := allocateSlot_spec aged
  · rw [evictPage_eq unused found, frameOf_ageless same]
    split_ifs with answer
    · refine .sent victim' ⟨⟨slot, ?_⟩, ?_⟩ aging on entry there (Nat.not_lt.mp alone)
      · rw [← aging.used]
        exact unused
      · rw [← aging.disk]
        exact answer
    · refine .stuck (Or.inr fun writable => answer ?_)
      rw [aging.disk]
      exact writable.2
  · unfold evictPage
    simp only [full]
    refine .stuck (Or.inr fun writable => ?_)
    obtain ⟨slot, unused⟩ := writable.1
    rw [← aging.used, used slot] at unused
    cases unused

end Victims

section Private

/-- The page is present, writable and no copy-on-write page any more, its frame holds what the
page held, and no other space names that frame. -/
structure Private (s t : Paging) (live : Finset Word) (root : Word) (path : Nat → Index) : Prop where
  there : has (leafAt t.words root path) present = true
  writes : has (leafAt t.words root path) writable = true
  plain : has (leafAt t.words root path) cow = false
  bytes : t.words (frameOf (leafAt t.words root path)) = s.words (frameOf (leafAt s.words root path))
  alone : ∀ r ∈ live, r ≠ root → ∀ p, has (leafAt t.words r p) present = true →
    frameOf (leafAt t.words r p) ≠ frameOf (leafAt t.words root path)

def Elsewhere (s : Paging) (live : Finset Word) (root frame : Word) : Prop :=
  ∃ r ∈ live, r ≠ root ∧ ∃ p, has (leafAt s.words r p) present = true ∧
    frameOf (leafAt s.words r p) = frame

theorem private_iff {frame : Word} (address : frameOf frame = frame)
    (there : has (leafAt s.words root path) present = true)
    (here : leafAt t.words root path = owned frame (leafAt s.words root path))
    (bytes : t.words frame = s.words (frameOf (leafAt s.words root path)))
    (others : ∀ r ∈ live, r ≠ root → ∀ p, ageless (leafAt t.words r p) = ageless (leafAt s.words r p)) :
    Private s t live root path ↔ ¬Elsewhere s live root frame := by
  have same := frameOf_owned (e := leafAt s.words root path) address
  constructor
  · rintro alone ⟨r, live', other, p, there', names⟩
    refine alone.alone r live' other p ?_ ?_
    · rw [present_ageless (others r live' other p)]
      exact there'
    · rw [frameOf_ageless (others r live' other p), names, here, same]
  · intro nobody
    refine ⟨?_, ?_, ?_, ?_, fun r live' other p there' names => ?_⟩
    · rw [here, present_owned address]
      exact there
    · rw [here]
      exact writable_owned address
    · rw [here]
      exact cow_owned address
    · rw [here, same]
      exact bytes
    · rw [present_ageless (others r live' other p)] at there'
      rw [frameOf_ageless (others r live' other p), here, same] at names
      exact nobody ⟨r, live', other, p, there', names⟩

theorem nowhere_else (books : Books s managed live hand chain) (member : root ∈ live)
    (there : has (leafAt s.words root path) present = true)
    (single : s.shareCount (frameOf (leafAt s.words root path)) ≤ 1) :
    ¬Elsewhere s live root (frameOf (leafAt s.words root path)) := by
  rintro ⟨r, live', other, p, there', same⟩
  have owners := books.account.owners (frameOf (leafAt s.words root path))
  have named := refCount_pos member there
  exact other (page_alone books member there (by omega) live' there' same).1

theorem moved_in {page : Page} (slot : Fin slots) {u : Word}
    (books : Books s managed live hand chain) (member : root ∈ live) (aging : Aging s aged live)
    (route : Route userTree s.words path 3 root 0 u)
    (there : has (leafAt s.words root path) present = true) (on : OnPage s.words root page)
    (entry : page.entry = s.words page.table page.index) (there' : has page.entry present = true)
    (words : t.words = (sentOut aged page slot).words) (e : Word) :
    let s' := (t.fill (frameOf page.entry) (t.words (frameOf (leafAt s.words root path)))).write u
      (path 0) e
    leafAt s'.words root path = e ∧
      s'.words (frameOf page.entry) = s.words (frameOf (leafAt s.words root path)) ∧
      ∀ r ∈ live, r ≠ root → ∀ p, ageless (leafAt s'.words r p) = ageless (leafAt s.words r p) := by
  intro s'
  have books1 := aging.books books
  have sets := sentOut_leaf slot books1 member (aging.onPage member on)
  rw [← on.leaf] at entry
  have plain : tableCount s.words live (frameOf page.entry) = 0 := by
    rw [entry] at there' ⊢
    exact (page_frame books member there').1
  have tables : ∀ f, tableCount t.words live f = tableCount s.words live f := fun f => by
    rw [words, sets.tables, aging.tables]
  have filled : TreesKept t.words (t.fill (frameOf page.entry)
      (t.words (frameOf (leafAt s.words root path)))).words live := by
    refine trees_kept fun f inside => Function.update_of_ne (fun same => ?_) _ _
    rw [same, tables, plain] at inside
    exact Nat.lt_irrefl 0 inside
  have way : Route userTree t.words path 3 root 0 u := by
    rw [words]
    exact sets.routes root member _ _ _ (aging.routes root member _ _ _ route)
  have once : tableCount s.words live u = 1 := (books.table member route).1
  have once' : tableCount (t.fill (frameOf page.entry)
      (t.words (frameOf (leafAt s.words root path)))).words live u = 1 := by
    rw [filled.tables, tables, once]
  have leaves : ∀ r ∈ live, ∀ p [Decidable (r = root ∧ SamePage p path)], leafAt s'.words r p =
      if r = root ∧ SamePage p path then e else leafAt t.words r p := by
    intro r live' p decided
    let _ : Decidable (r = root ∧ ∀ j, j ≤ 3 → p j = path j) := decided
    rw [← filled.leaves r live' p]
    exact entryAt_leaf_put member (filled.routes root member _ _ _ way) once' e live'
  classical
  refine ⟨?_, ?_, fun r live' other p => ?_⟩
  · rw [leaves root member path, if_pos ⟨rfl, fun _ _ => rfl⟩]
  · have apart : u ≠ frameOf page.entry := fun same => by
      rw [← same, once] at plain
      cases plain
    have data : tableCount s.words live (frameOf (leafAt s.words root path)) = 0 :=
      (page_frame books member there).1
    have kept : t.words (frameOf (leafAt s.words root path)) =
        s.words (frameOf (leafAt s.words root path)) := by
      rw [words, sets.data member ((aging.tables _).trans data), aging.data _ data]
    calc s'.words (frameOf page.entry)
        = (t.fill (frameOf page.entry) (t.words (frameOf (leafAt s.words root path)))).words
            (frameOf page.entry) := put_table apart.symm
      _ = t.words (frameOf (leafAt s.words root path)) := Function.update_self ..
      _ = s.words (frameOf (leafAt s.words root path)) := kept
  · rw [leaves r live' p, if_neg fun both => other both.1, words, sets.leaves r live' p,
      if_neg fun both => other both.1]
    exact aging.leaves r live' p

end Private

section Faults

variable {address : Word}

/-- The page waits for its first write in a frame with other owners, no frame is free, and of the
pages that one could be had by sending out the policy names, with the share given up, one in that
very frame, in which another space has a page too. -/
def Stolen (s : Paging) (live : Finset Word) (address : Word) : Prop :=
  let e := leafAt s.words s.cr3 (indexes address)
  address < userSpaceEnd ∧ Guarded e ∧ 1 < s.shareCount (frameOf e) ∧ s.head = 0 ∧ Writable s ∧
    (∃ page, victim (s.unshare (frameOf e)).2 s.cr3 = some page ∧ frameOf page.entry = frameOf e) ∧
    Elsewhere s live s.cr3 (frameOf e)

private theorem private_single {u : Word} (books : Books s managed live hand chain)
    (member : root ∈ live) (route : Route userTree s.words path 3 root 0 u)
    (there : has (leafAt s.words root path) present = true)
    (single : ¬1 < s.shareCount (frameOf (leafAt s.words root path))) :
    Private s (s.write u (path 0) (owned (frameOf (leafAt s.words root path))
      (leafAt s.words root path))) live root path := by
  classical
  have sets := LeafSet.write books member route (owned (frameOf (leafAt s.words root path))
    (leafAt s.words root path))
  refine (private_iff (frameOf_frameOf _) there ?_ (sets.data member
    (page_frame books member there).1) fun r live' other p => ?_).mpr
    (nowhere_else books member there (Nat.not_lt.mp single))
  · rw [sets.leaves root member path, if_pos ⟨rfl, fun _ _ => rfl⟩]
  · rw [sets.leaves r live' p, if_neg fun both => other both.1]

private theorem private_copied {fresh : Word} (books : Books s managed live hand chain)
    (member : root ∈ live) (there : has (leafAt s.words root path) present = true)
    (free : fresh ∈ chain)
    (repaired : Repaired s t live root path (owned fresh (leafAt s.words root path)) [fresh])
    (holds : t.words fresh = s.words (frameOf (leafAt s.words root path))) :
    Private s t live root path := by
  classical
  have managed' : fresh ∈ managed := by
    have counted := List.count_pos_iff.mpr free
    exact books.account.managed_of (by omega)
  refine (private_iff (books.account.framed fresh managed').2 there ?_ holds
    fun r live' other p => ?_).mpr ?_
  · rw [repaired.leaves root member path, if_pos ⟨rfl, fun _ _ => rfl⟩]
  · rw [repaired.leaves r live' p, if_neg fun both => other both.1]
  · rintro ⟨r, live', -, p, there', same⟩
    exact (page_frame books live' there').2.1 (same ▸ free)

/-- A copy-on-write fault that is handled ends private exactly where the page was not stolen. -/
theorem cowFault_private_iff (books : Books s managed live hand chain) (member : s.cr3 ∈ live)
    (address : Word) :
    ((cowFault s address).1 = true →
      Private s (cowFault s address).2 live s.cr3 (indexes address)) ↔ ¬Stolen s live address := by
  by_cases inside : address < userSpaceEnd
  swap
  · rw [cowFault_kernel inside]
    exact iff_of_true (fun served => Bool.noConfusion served) fun stolen => inside stolen.1
  by_cases nowhere : ∀ u, ¬Route userTree s.words (indexes address) 3 s.cr3 0 u
  · rw [cowFault_nowhere inside nowhere]
    refine iff_of_true (fun served => Bool.noConfusion served) fun stolen => ?_
    have guarded := stolen.2.1
    rw [leafAt_nowhere nowhere] at guarded
    exact absurd guarded (by decide)
  obtain ⟨u, route⟩ : ∃ u, Route userTree s.words (indexes address) 3 s.cr3 0 u := by
    by_contra none
    exact nowhere fun u route => none ⟨u, route⟩
  have word : s.words u (indexes address 0) = leafAt s.words s.cr3 (indexes address) := by
    rw [leafAt, entryAt_route route]
  by_cases guarded : Guarded (leafAt s.words s.cr3 (indexes address))
  swap
  · rw [cowFault_route inside route, word, if_neg guarded]
    exact iff_of_true (fun served => Bool.noConfusion served) fun stolen => guarded stolen.2.1
  by_cases several : 1 < s.shareCount (frameOf (leafAt s.words s.cr3 (indexes address)))
  swap
  · rw [cowFault_route inside route, word, if_pos guarded, if_neg several]
    exact iff_of_true (fun _ => private_single books member route guarded.1 several)
      fun stolen => several stolen.2.2.1
  by_cases free : s.head = 0
  swap
  · refine iff_of_true (fun served => ?_) fun stolen => free stolen.2.2.2.1
    have repairs := cowFault_spec books member inside free
    generalize cowFault s address = answer at repairs served ⊢
    cases repairs with
    | refused plain => cases served
    | kept guarded single => exact absurd several single
    | copied guarded first several books' repaired holds =>
        exact private_copied books member guarded.1 (first ▸ List.mem_cons_self) repaired holds
  rw [cowFault_route inside route, word, if_pos guarded, if_pos several]
  have counts := (Paging.unshare_spec books.account.shared
    (frameOf (leafAt s.words s.cr3 (indexes address)))).2
  obtain ⟨fewer, unshared⟩ : ∃ table, (s.unshare (frameOf (leafAt s.words s.cr3
      (indexes address)))).2 = { s with shared := table } := ⟨_, unshare_eq ..⟩
  unfold Stolen allocateOrEvict Paging.allocate
  simp only [unshared] at counts ⊢
  rw [if_pos free]
  dsimp only
  have named := evictOne_named (s := { s with shared := fewer }) s.shared books member
  generalize evictOne { s with shared := fewer } s.cr3 = answer at named ⊢
  cases named with
  | stuck why =>
      refine iff_of_true (fun served => Bool.noConfusion served) fun stolen => ?_
      obtain ⟨-, -, -, -, able, ⟨page, named, -⟩, -⟩ := stolen
      rcases why with none | closed
      · rw [none] at named
        cases named
      · exact closed able
  | @sent aged page slot named able aging on entry there alone =>
      obtain ⟨here, bytes, others⟩ := moved_in (t := sentOut aged page slot) slot books member
        (aging.owners s.shared) route guarded.1 on entry there
        (by unfold sentOut; rw [words_noteEvicted, words_noteEvicted]; rfl)
        (owned (frameOf page.entry) (leafAt s.words s.cr3 (indexes address)))
      have own := private_iff (frameOf_frameOf _) guarded.1 here bytes others
      refine ⟨fun served stolen => own.mp (served rfl) ?_, fun safe _ => own.mpr fun elsewhere => ?_⟩
      · obtain ⟨-, -, -, -, -, ⟨other, chosen, same⟩, elsewhere⟩ := stolen
        obtain rfl := Option.some.inj (named.symm.trans chosen)
        rw [same]
        exact elsewhere
      · by_cases same : frameOf page.entry = frameOf (leafAt s.words s.cr3 (indexes address))
        · exact safe ⟨inside, guarded, several, free, able, ⟨page, named, same⟩, same ▸ elsewhere⟩
        · have count := counts (frameOf page.entry)
          rw [if_neg same] at count
          rw [← on.leaf] at entry
          rw [entry] at elsewhere there alone count
          exact nowhere_else books member there (count ▸ alone) elsewhere

private def frames (count : Nat) : List Word :=
  (List.range count).reverse.map fun n => BitVec.ofNat 64 (0x100000 + 0x1000 * n)

private def twoOwners : List Event :=
  [.create, .map 0x100000 0x401000 (user ||| writable), .fork 0x100000, .activate 0x100000]

private theorem run_books {count : Nat} {events : List Event} {k : Machine}
    (all : ((frames count).all fun f => decide (Framed f)) = true) (once : (frames count).Nodup)
    (run : runAll (fun k e => if Provided k e then step k e else none) (booted (frames count))
      events = some k) : Kept (frames count).toFinset k := by
  have usable : Usable (frames count) :=
    ⟨fun f inside => of_decide_eq_true (List.all_eq_true.mp all f inside), once⟩
  exact reached_kept usable (Reached.runGuarded (.start rfl) run)

/-- Another page of the space is sent out for the copy. -/
theorem cowFault_private_neighbour : ∃ s live managed chain,
    Books s managed live [] chain ∧ s.head = 0 ∧ (cowFault s 0x401000).1 = true ∧
      Private s (cowFault s 0x401000).2 live s.cr3 (indexes 0x401000) := by
  have taken : ((runAll (fun k e => if Provided k e then step k e else none) (booted (frames 10))
      (twoOwners ++ [.map 0x100000 0x400000 (user ||| writable)])).map fun k =>
        (k.live, k.paging.cr3, k.paging.head, (cowFault k.paging 0x401000).1,
          (victim (k.paging.unshare (frameOf (leafAt k.paging.words k.paging.cr3
            (indexes 0x401000)))).2 k.paging.cr3).all fun page => frameOf page.entry !=
              frameOf (leafAt k.paging.words k.paging.cr3 (indexes 0x401000)))) =
      some ({0x100000, 0x105000}, 0x100000, 0, true, true) := by decide +kernel
  obtain ⟨k, run, shape⟩ := Option.map_eq_some_iff.mp taken
  simp only [Prod.mk.injEq] at shape
  obtain ⟨live, active, empty, served, apart⟩ := shape
  obtain ⟨chain, books⟩ := run_books (by decide +kernel) (by decide +kernel) run
  have member : k.paging.cr3 ∈ k.live := by
    rw [live, active]
    exact Finset.mem_insert_self _ _
  refine ⟨k.paging, k.live, _, chain, books, empty, served,
    (cowFault_private_iff books member 0x401000).mpr (fun stolen => ?_) served⟩
  obtain ⟨-, -, -, -, -, ⟨page, named, same⟩, -⟩ := stolen
  rw [named, Option.all_some, same] at apart
  simp at apart

/-- The page itself is sent out, and its frame, which the child still reads, is its own copy. -/
theorem page_stolen : ¬∀ (s : Paging) (managed live : Finset Word) (chain : List Word),
    Books s managed live [] chain → s.cr3 ∈ live → ∀ address, (cowFault s address).1 = true →
      Private s (cowFault s address).2 live s.cr3 (indexes address) := by
  intro always
  have taken : ((runAll (fun k e => if Provided k e then step k e else none) (booted (frames 9))
      twoOwners).map fun k => (k.live, k.paging.cr3, (cowFault k.paging 0x401000).1,
        has (leafAt (cowFault k.paging 0x401000).2.words 0x105000 (indexes 0x401000)) present,
        frameOf (leafAt (cowFault k.paging 0x401000).2.words 0x105000 (indexes 0x401000)),
        frameOf (leafAt (cowFault k.paging 0x401000).2.words 0x100000 (indexes 0x401000)))) =
      some ({0x100000, 0x105000}, 0x100000, true, true, 0x101000, 0x101000) := by decide +kernel
  obtain ⟨k, run, shape⟩ := Option.map_eq_some_iff.mp taken
  simp only [Prod.mk.injEq] at shape
  obtain ⟨live, active, served, there, child, parent⟩ := shape
  obtain ⟨chain, books⟩ := run_books (by decide +kernel) (by decide +kernel) run
  have member : k.paging.cr3 ∈ k.live := by
    rw [live, active]
    exact Finset.mem_insert_self _ _
  have own := always k.paging _ k.live chain books member 0x401000 served
  refine own.alone 0x105000 ?_ ?_ (indexes 0x401000) there ?_
  · rw [live]
    exact Finset.mem_insert_of_mem (Finset.mem_singleton_self _)
  · rw [active]
    decide
  · rw [child, active, parent]

end Faults

end FiveAM.Memory.StolenCopies
