/- GID: FiveAM/Memory/Forking
   source: kernel/src/memory.rs
   digest: Duplicating an address space: page by page, each page gains an owner. -/

import FiveAM.Memory.Teardown

set_option autoImplicit false
set_option relaxedAutoImplicit false

namespace FiveAM.Memory.Forking

open FiveAM.Process.TaskTable (Word)
open FiveAM.Memory.Entries FiveAM.Memory.Frames FiveAM.Memory.Replace FiveAM.Memory.PageTables
open FiveAM.Memory.Ownership FiveAM.Memory.Residency FiveAM.Memory.Eviction FiveAM.Memory.Spaces
open FiveAM.Memory.Teardown
open FiveAM.Lib.RadixTables

section Words

/-- The flags of a writable page once it is shared. -/
def sharedFlags (e : Word) : Word := (flagsOf e &&& ~~~writable) ||| cow

/-- What `fork` leaves in the parent's entry. -/
def lowered (e : Word) : Word :=
  if has (flagsOf e) writable then frameOf e ||| sharedFlags e else e

/-- The flags `fork` maps the page with in the child. -/
def childFlags (e : Word) : Word :=
  (if has (flagsOf e) writable then sharedFlags e else flagsOf e) &&& ~~~present

private theorem bit_flags (e : Word) : has (flagsOf e) writable = has e writable := by
  rw [has_writable, has_writable]
  exact flagsOf_bit e (by decide) (by decide)

theorem frameOf_lowered (e : Word) : frameOf (lowered e) = frameOf e := by
  unfold lowered sharedFlags
  split_ifs
  · rw [frameOf_or, frameOf_or, frameOf_frameOf, frameOf_and, frameOf_flagsOf,
      show frameOf cow = 0 from by decide]
    simp
  · rfl

private theorem lowered_bit (e : Word) {k : Nat} (low : k < 64)
    (flag : addressMask.getLsbD k = false) (kept : writable.getLsbD k = false)
    (unset : cow.getLsbD k = false) : (lowered e).getLsbD k = e.getLsbD k := by
  unfold lowered sharedFlags
  split_ifs
  · rw [BitVec.getLsbD_or, BitVec.getLsbD_or, BitVec.getLsbD_and, BitVec.getLsbD_not,
      frameOf_bit e flag, flagsOf_bit e low flag, kept, unset]
    simp [low]
  · rfl

theorem present_lowered (e : Word) : has (lowered e) present = has e present := by
  rw [has_present, has_present, lowered_bit e (by decide) (by decide) (by decide) (by decide)]

theorem swapped_lowered (e : Word) : has (lowered e) swapped = has e swapped := by
  rw [has_swapped, has_swapped, lowered_bit e (by decide) (by decide) (by decide) (by decide)]

theorem user_lowered (e : Word) : has (lowered e) user = has e user := by
  rw [has_user, has_user, lowered_bit e (by decide) (by decide) (by decide) (by decide)]

theorem writable_lowered (e : Word) : has (lowered e) writable = false := by
  unfold lowered sharedFlags
  split_ifs with open'
  · rw [has_writable, BitVec.getLsbD_or, BitVec.getLsbD_or, BitVec.getLsbD_and, BitVec.getLsbD_not,
      frameOf_bit e (by decide), show writable.getLsbD 1 = true from by decide,
      show cow.getLsbD 1 = false from by decide]
    simp
  · rw [bit_flags] at open'
    exact Bool.eq_false_of_not_eq_true open'

theorem lowered_lowered (e : Word) : lowered (lowered e) = lowered e := by
  have none := writable_lowered e
  rw [lowered, bit_flags, none]
  simp

theorem names_lowered (f e : Word) : names f (lowered e) = names f e := by
  unfold names
  rw [present_lowered, frameOf_lowered]

theorem leafFor_childFlags {e : Word} (there : has e present = true) :
    leafFor (frameOf e) (childFlags e) = lowered e := by
  have whole : lowered e =
      frameOf e ||| if has (flagsOf e) writable then sharedFlags e else flagsOf e := by
    unfold lowered
    split_ifs
    · rfl
    · exact (frameOf_or_flagsOf e).symm
  have set : (if has (flagsOf e) writable then sharedFlags e else flagsOf e).getLsbD 0 = true := by
    have bit : (flagsOf e).getLsbD 0 = true := by
      rw [flagsOf_bit e (by decide) (by decide), ← has_present]
      exact there
    split_ifs
    · unfold sharedFlags
      rw [BitVec.getLsbD_or, BitVec.getLsbD_and, bit]
      decide
    · exact bit
  rw [whole]
  unfold leafFor childFlags
  generalize (if has (flagsOf e) writable then sharedFlags e else flagsOf e) = flags at set ⊢
  rw [frameOf_frameOf, BitVec.or_assoc]
  congr 1
  apply BitVec.eq_of_getLsbD_eq
  intro i bound
  rw [BitVec.getLsbD_or, BitVec.getLsbD_and, BitVec.getLsbD_not]
  have only : ∀ j : Fin 64, present.getLsbD j.val = decide (j.val = 0) := by decide
  rw [only ⟨i, bound⟩]
  by_cases first : i = 0
  · subst first
    simp [set]
  · simp [first, bound]

end Words

section Listing

private theorem mem_kept {c : Prop} [Decidable c] {page : Page} {pages : Pages}
    (listed : page ∈ if c then [] else pages) : page ∈ pages := by
  split_ifs at listed
  · exact absurd listed List.not_mem_nil
  · exact listed

private theorem table_address {s : Paging} {table : Word} {i3 i2 : Index} {page : Page}
    (listed : page ∈ pagesOfTable s table i3 i2) :
    ∃ i1, page.address = userAddress i3 i2 i1 := by
  obtain ⟨i1, -, found⟩ := List.mem_filterMap.mp listed
  simp only at found
  split_ifs at found
  exact ⟨i1, by rw [← Option.some.inj found]⟩

private theorem table_apart (s : Paging) (table : Word) (i3 i2 : Index) :
    (pagesOfTable s table i3 i2).Pairwise fun a b =>
      ¬SamePage (indexes a.address) (indexes b.address) := by
  unfold pagesOfTable
  refine List.pairwise_filterMap.mpr
    ((List.nodup_finRange 512).imp fun {i j} apart a found b found' => ?_)
  simp only at found found'
  split_ifs at found found'
  rw [← Option.some.inj found, ← Option.some.inj found']
  intro same
  have last := same 0 (by decide)
  rw [indexes_userAddress _ _ _ (by decide), indexes_userAddress _ _ _ (by decide)] at last
  exact apart last

theorem userPages_apart (s : Paging) (root : Word) :
    (userPages s root).Pairwise fun a b => ¬SamePage (indexes a.address) (indexes b.address) := by
  unfold userPages
  dsimp only
  split_ifs
  · exact List.Pairwise.nil
  refine List.pairwise_flatMap.mpr ⟨fun i3 _ => ?_,
    (List.nodup_finRange 512).imp fun {i j} apart a inside b inside' => ?_⟩
  · split_ifs
    · exact List.Pairwise.nil
    refine List.pairwise_flatMap.mpr ⟨fun i2 _ => ?_,
      (List.nodup_finRange 512).imp fun {i j} apart a inside b inside' => ?_⟩
    · split_ifs
      · exact List.Pairwise.nil
      · exact table_apart s _ i3 i2
    · obtain ⟨i1, address⟩ := table_address (mem_kept inside)
      obtain ⟨j1, address'⟩ := table_address (mem_kept inside')
      rw [address, address']
      intro same
      have turn := same 1 (by decide)
      rw [indexes_userAddress _ _ _ (by decide), indexes_userAddress _ _ _ (by decide)] at turn
      exact apart turn
  · obtain ⟨i2, -, inner⟩ := List.mem_flatMap.mp (mem_kept inside)
    obtain ⟨j2, -, inner'⟩ := List.mem_flatMap.mp (mem_kept inside')
    obtain ⟨i1, address⟩ := table_address (mem_kept inner)
    obtain ⟨j1, address'⟩ := table_address (mem_kept inner')
    rw [address, address']
    intro same
    have turn := same 2 (by decide)
    rw [indexes_userAddress _ _ _ (by decide), indexes_userAddress _ _ _ (by decide)] at turn
    exact apart turn

end Listing

section Sharing

variable {s s' : Paging} {managed live : Finset Word} {hand chain : List Word} {root child : Word}

theorem share_eq (s : Paging) (frame : Word) :
    s.share frame = { s with shared := (s.share frame).shared } := by
  unfold Paging.share
  split <;> rfl

theorem books_share {u e : Word} {path : Nat → Index} (books : Books s managed live hand chain)
    (member : root ∈ live) (route : Route userTree s.words path 3 root 0 u)
    (absent : has (s.words u (path 0)) present = false) (there : has e present = true)
    (named : 0 < refCount s.words live (frameOf e)) :
    Books ((s.write u (path 0) e).share (frameOf e)) managed live hand chain := by
  obtain ⟨ok, counts⟩ := Paging.share_spec (s := s.write u (path 0) e) books.account.shared (frameOf e)
  rw [share_eq]
  refine books.leaf member route ok fun f n change => ?_
  have count := counts f
  rw [Paging.shareCount_eq] at count
  rw [count]
  have owners : (s.write u (path 0) e).shareCount f = max 1 (refCount s.words live f) :=
    books.account.owners f
  rw [names_absent absent, Nat.add_zero] at change
  by_cases here : f = frameOf e
  · rw [here, names_self there rfl] at change
    rw [here] at owners ⊢
    rw [if_pos rfl, owners, change, if_pos (Nat.succ_pos _), if_pos named]
    exact ⟨rfl, by omega⟩
  · rw [names_other rfl here, Nat.add_zero] at change
    rw [if_neg here, owners, change]
    exact ⟨rfl, rfl⟩

end Sharing

section Copying

variable {s s' s'' : Paging} {managed live : Finset Word} {hand chain : List Word}
  {root child : Word}

def Listed (pages : Pages) (p : Nat → Index) : Prop :=
  ∃ page ∈ pages, SamePage p (indexes page.address)

/-- What copying pages of one space into another changes, whether or not all of
them made it. -/
structure Marks (s s' : Paging) (live : Finset Word) (root child : Word) (taken : List Word) :
    Prop where
  others : ∀ r ∈ live, r ≠ root → r ≠ child → ∀ p, leafAt s'.words r p = leafAt s.words r p
  ofParent : ∀ p, leafAt s'.words root p = leafAt s.words root p ∨
    leafAt s'.words root p = lowered (leafAt s.words root p)
  ofChild : ∀ p, leafAt s'.words child p = leafAt s.words child p ∨
    has (leafAt s'.words child p) present = true
  counts : ∀ f, tableCount s'.words live f = tableCount s.words live f + taken.count f
  kept : ∀ f, tableCount s.words live f = 0 → f ∉ taken → s'.words f = s.words f
  routes : ∀ p k u, Route userTree s.words p 3 root k u → Route userTree s'.words p 3 root k u
  cr3 : s'.cr3 = s.cr3
  used : s'.used = s.used
  disk : s'.disk = s.disk

/-- The pages are in both spaces now, with one and the same entry. -/
structure Copies (s s' : Paging) (live : Finset Word) (root child : Word) (pages : Pages)
    (taken : List Word) : Prop extends Marks s s' live root child taken where
  resident : ∀ p, Listed pages p → has (leafAt s.words root p) present = true
  both : ∀ p, Listed pages p → leafAt s'.words root p = lowered (leafAt s.words root p) ∧
    leafAt s'.words child p = lowered (leafAt s.words root p)
  neither : ∀ p, ¬Listed pages p → leafAt s'.words root p = leafAt s.words root p ∧
    leafAt s'.words child p = leafAt s.words child p

theorem Marks.refl (s : Paging) (live : Finset Word) (root child : Word) :
    Marks s s live root child [] :=
  ⟨fun _ _ _ _ _ => rfl, fun _ => Or.inl rfl, fun _ => Or.inl rfl, fun f => by
    rw [List.count_nil, Nat.add_zero], fun _ _ _ => rfl, fun _ _ _ route => route, rfl, rfl, rfl⟩

theorem Marks.trans {taken taken' : List Word} (first : Marks s s' live root child taken)
    (second : Marks s' s'' live root child taken') :
    Marks s s'' live root child (taken ++ taken') where
  others r member other other' p :=
    (second.others r member other other' p).trans (first.others r member other other' p)
  ofParent p := by
    rcases second.ofParent p with same | low
    · rw [same]
      exact first.ofParent p
    · rcases first.ofParent p with same' | low'
      · rw [low, same']
        exact Or.inr rfl
      · rw [low, low', lowered_lowered]
        exact Or.inr rfl
  ofChild p := by
    rcases second.ofChild p with same | there
    · rw [same]
      exact first.ofChild p
    · exact Or.inr there
  counts f := by
    rw [second.counts, first.counts, List.count_append]
    omega
  kept f absent outside := by
    rw [List.mem_append, not_or] at outside
    refine (second.kept f ?_ outside.2).trans (first.kept f absent outside.1)
    rw [first.counts, absent, List.count_eq_zero.mpr outside.1]
  routes p k u route := second.routes p k u (first.routes p k u route)
  cr3 := second.cr3.trans first.cr3
  used := second.used.trans first.used
  disk := second.disk.trans first.disk

theorem Copies.refl (s : Paging) (live : Finset Word) (root child : Word) :
    Copies s s live root child [] [] :=
  ⟨Marks.refl s live root child, fun _ ⟨_, inside, _⟩ => absurd inside List.not_mem_nil,
    fun _ ⟨_, inside, _⟩ => absurd inside List.not_mem_nil, fun _ _ => ⟨rfl, rfl⟩⟩

theorem Copies.cons {page : Page} {rest : Pages} {taken taken' : List Word}
    (apart : ∀ other ∈ rest, ¬SamePage (indexes page.address) (indexes other.address))
    (first : Copies s s' live root child [page] taken)
    (second : Copies s' s'' live root child rest taken') :
    Copies s s'' live root child (page :: rest) (taken ++ taken') := by
  have here : ∀ p, Listed [page] p ↔ SamePage p (indexes page.address) := fun p =>
    ⟨fun ⟨other, inside, same⟩ => List.mem_singleton.mp inside ▸ same,
      fun same => ⟨page, List.mem_singleton_self page, same⟩⟩
  have split : ∀ p, Listed (page :: rest) p ↔ SamePage p (indexes page.address) ∨ Listed rest p := by
    intro p
    constructor
    · rintro ⟨other, inside, same⟩
      rcases List.mem_cons.mp inside with rfl | inside
      · exact Or.inl same
      · exact Or.inr ⟨other, inside, same⟩
    · rintro (same | ⟨other, inside, same⟩)
      · exact ⟨page, List.mem_cons_self, same⟩
      · exact ⟨other, List.mem_cons_of_mem _ inside, same⟩
  have alone : ∀ p, SamePage p (indexes page.address) → ¬Listed rest p :=
    fun p same ⟨other, inside, same'⟩ =>
      apart other inside fun j low => (same j low).symm.trans (same' j low)
  have later : ∀ p, Listed rest p → ¬Listed [page] p := fun p inside first' =>
    alone p ((here p).mp first') inside
  refine ⟨first.toMarks.trans second.toMarks, fun p inside => ?_, fun p inside => ?_,
    fun p outside => ?_⟩
  · rcases (split p).mp inside with same | inside
    · exact first.resident p ((here p).mpr same)
    · have there := second.resident p inside
      rw [(first.neither p (later p inside)).1] at there
      exact there
  · rcases (split p).mp inside with same | inside
    · obtain ⟨parent, copy⟩ := first.both p ((here p).mpr same)
      obtain ⟨parent', copy'⟩ := second.neither p (alone p same)
      exact ⟨parent'.trans parent, copy'.trans copy⟩
    · obtain ⟨parent, -⟩ := first.neither p (later p inside)
      obtain ⟨parent', copy'⟩ := second.both p inside
      rw [parent', copy', parent]
      exact ⟨rfl, rfl⟩
  · rw [split, not_or] at outside
    obtain ⟨parent, copy⟩ := first.neither p fun inside => outside.1 ((here p).mp inside)
    obtain ⟨parent', copy'⟩ := second.neither p outside.2
    exact ⟨parent'.trans parent, copy'.trans copy⟩

/-- `fork` with one page of the parent. -/
def forkPage (child : Word) (page : Page) (s : Paging) : Except String Unit × Paging :=
  mapPageIn (s.write page.table page.index (lowered page.entry)) child page.address
    (frameOf page.entry) (childFlags page.entry)

theorem forkPages_cons {page : Page} {rest : Pages}
    (entry : page.entry = s.words page.table page.index) :
    forkPages child (page :: rest) s =
      match forkPage child page s with
      | (.error _, t) => (false, t)
      | (.ok _, t) => forkPages child rest (t.share (frameOf page.entry)) := by
  have low : (if has (flagsOf page.entry) writable then
        s.write page.table page.index (frameOf page.entry ||| sharedFlags page.entry) else s) =
      s.write page.table page.index (lowered page.entry) := by
    unfold lowered
    split_ifs
    · rfl
    · rw [entry]
      unfold Paging.write
      rw [Function.update_eq_self, Function.update_eq_self]
  rw [forkPages, forkPage, ← low]
  rfl

private theorem lowered_ways (books : Books s managed live hand chain) (member : root ∈ live)
    (fresh : child ∈ live) (apart : child ≠ root) {page : Page} (on : OnPage s.words root page)
    (e : Word) (p : Nat → Index) :
    passed (s.write page.table page.index e).words 3 child p = passed s.words 3 child p := by
  obtain ⟨once, -⟩ := books.table member on.route
  obtain ⟨-, others⟩ := absent_elsewhere member on.route.occurs once
  refine along_congr fun v inside => put_table fun same => ?_
  rw [same, others child fresh apart] at inside
  exact Nat.lt_irrefl 0 inside

theorem lowered_leaf (books : Books s managed live hand chain) (member : root ∈ live)
    {page : Page} (on : OnPage s.words root page)
    (entry : page.entry = s.words page.table page.index) :
    Books (s.write page.table page.index (lowered page.entry)) managed live hand chain ∧
      LeafSet s (s.write page.table page.index (lowered page.entry)) live root
        (indexes page.address) (lowered page.entry) ∧
      ∀ p, SamePage p (indexes page.address) → leafAt s.words root p = page.entry := by
  have leaf := on.leaf
  rw [entry, on.index]
  refine ⟨books.recolor member on.route fun f => names_lowered f _,
    LeafSet.write books member on.route _, fun p same => ?_⟩
  rw [← on.index, ← leaf]
  exact entryAt_indexes fun j low => same j low

theorem share_shared {frame : Word} (same : s'.shared = s.shared) :
    (s'.share frame).shared = (s.share frame).shared := by
  unfold Paging.share
  rw [same]
  split <;> rfl

private theorem shared_words (s : Paging) (u e address flags frame : Word) (i : Index) :
    ((arrived (s.write u i e) address flags).share frame) =
      { (s.write u i e).share frame with
        replacers := ((arrived (s.write u i e) address flags).share frame).replacers } := by
  have shared : ((arrived (s.write u i e) address flags).share frame).shared =
      ((s.write u i e).share frame).shared := share_shared (by rw [arrived_eq])
  rw [share_eq, shared, share_eq (s.write u i e), arrived_eq]

/-- `fork` with one page ends like this. -/
inductive Step (s : Paging) (managed live : Finset Word) (hand chain : List Word)
    (root child : Word) (page : Page) : Except String Unit × Paging → Prop where
  | short {s' : Paging} (text : String) (few : chain.length < missing s.words child page.address)
      (books : Books s' managed live hand []) (marks : Marks s s' live root child chain) :
      Step s managed live hand chain root child page (.error text, s')
  | copied {s' : Paging} (room : missing s.words child page.address ≤ chain.length)
      (books : Books (s'.share (frameOf page.entry)) managed live hand
        (chain.drop (missing s.words child page.address)))
      (copies : Copies s (s'.share (frameOf page.entry)) live root child [page]
        (chain.take (missing s.words child page.address)))
      (ways : ∀ p, passed (s'.share (frameOf page.entry)).words 3 child p =
        max (passed s.words 3 child p) (common p (indexes page.address) 3)) :
      Step s managed live hand chain root child page (.ok (), s')

private theorem built_marks {taken : List Word} {page : Page}
    (books : Books (s.write page.table page.index (lowered page.entry)) managed live hand chain)
    (listed : ∀ f ∈ taken, f ∈ chain) (member : root ∈ live) (fresh : child ∈ live)
    (apart : child ≠ root)
    (sets : LeafSet s (s.write page.table page.index (lowered page.entry)) live root
      (indexes page.address) (lowered page.entry))
    (here : ∀ p, SamePage p (indexes page.address) → leafAt s.words root p = page.entry)
    (builds : Builds (s.write page.table page.index (lowered page.entry)) s' live child
      (indexes page.address) taken) : Marks s s' live root child taken where
  others r there other _ p := by
    classical
    rw [builds.leaves r there, sets.leaves r there p, if_neg fun both => other both.1]
  ofParent p := by
    classical
    rw [builds.leaves root member, sets.leaves root member p]
    split_ifs with same
    · rw [here p same.2]
      exact Or.inr rfl
    · exact Or.inl rfl
  ofChild p := by
    classical
    rw [builds.leaves child fresh, sets.leaves child fresh p, if_neg fun both => apart both.1]
    exact Or.inl rfl
  counts f := (builds.counts f).trans (by rw [sets.tables])
  kept f absent outside := by
    refine (builds.kept f (Nat.eq_zero_of_le_zero ?_) outside).trans (sets.data member absent)
    rw [← absent, ← sets.tables]
    exact tables_le_occurs fresh f
  routes p k u route := by
    refine (sets.routes root member p k u route).congr fun v inside => ?_
    have positive := lt_of_lt_of_le inside (tables_le_occurs member v)
    have bound := books.account.le_one v
    change 0 < tableCount _ live v at positive
    have once : occurs userTree (s.write page.table page.index (lowered page.entry)).words 3 live v =
        1 := by
      change tableCount _ live v = 1
      omega
    refine builds.kept v ((absent_elsewhere member inside once).2 child fresh apart) fun here => ?_
    have counted := List.count_pos_iff.mpr (listed v here)
    omega
  cr3 := builds.cr3
  used := builds.used
  disk := builds.disk

private theorem common_le_passed {m : Words} {path : Nat → Index} {u : Word}
    (route : Route userTree m path 3 root 0 u) (p : Nat → Index) :
    common p path 3 ≤ passed m 3 root p := by
  obtain ⟨v, upper⟩ := route.upper (Nat.zero_le (3 - common p path 3)) (Nat.sub_le _ _)
  have along : Route userTree m p 3 root (3 - common p path 3) v :=
    upper.indexes fun j low high => common_same low high
  have reached := passed_route along
  have bound := common_le p path 3
  omega

theorem forkPage_spec (books : Books s managed live hand chain) (member : root ∈ live)
    (fresh : child ∈ live) (apart : child ≠ root) {page : Page} (on : OnPage s.words root page)
    (entry : page.entry = s.words page.table page.index) (there : has page.entry present = true)
    (absent : has (leafAt s.words child (indexes page.address)) present = false) :
    Step s managed live hand chain root child page (forkPage child page s) := by
  classical
  obtain ⟨books1, sets1, here⟩ := lowered_leaf books member on entry
  have ways1 := lowered_ways books member fresh apart on (lowered page.entry)
  have less : missing (s.write page.table page.index (lowered page.entry)).words child page.address =
      missing s.words child page.address := by
    unfold missing lacking
    rw [ways1]
  have parent : ∀ {s2 taken}, Builds (s.write page.table page.index (lowered page.entry)) s2 live
      child (indexes page.address) taken →
      leafAt s2.words root (indexes page.address) = lowered page.entry := by
    intro s2 taken builds
    rw [builds.leaves root member, sets1.leaves root member,
      if_pos ⟨rfl, fun _ _ => rfl⟩]
  have mapping := mapPageIn_spec (frameOf page.entry) (childFlags page.entry) books1 fresh on.low
  unfold forkPage
  generalize mapPageIn (s.write page.table page.index (lowered page.entry)) child page.address
    (frameOf page.entry) (childFlags page.entry) = answer at mapping ⊢
  cases mapping with
  | short few books2 builds =>
      exact .short _ (less ▸ few) books2 
        (built_marks books1 (fun _ inside => inside) member fresh apart sets1 here builds)
  | taken there2 books2 builds =>
      rw [sets1.leaves child fresh, if_neg fun both => apart both.1, absent] at there2
      cases there2
  | @mapped s2 u room absent2 books2 builds route =>
      have marks := built_marks books1 (fun _ inside => List.mem_of_mem_take inside) member fresh
        apart sets1 here builds
      have leaf := leafFor_childFlags there
      have there3 : has (lowered page.entry) present = true := (present_lowered _).trans there
      have frame := frameOf_lowered page.entry
      have named : 0 < refCount s2.words live (frameOf (lowered page.entry)) := by
        rw [← parent builds]
        refine refCount_pos member ?_
        rw [parent builds]
        exact there3
      have word : s2.words u (indexes page.address 0) =
          leafAt (s.write page.table page.index (lowered page.entry)).words child
            (indexes page.address) := by
        rw [← builds.leaves child fresh, leafAt, entryAt_route route]
      have owned := books_share books2 fresh route (e := lowered page.entry)
        (by rw [word]; exact absent2) there3 named
      rw [frame] at owned
      rw [less] at room books2 builds
      have shape := shared_words s2 u (lowered page.entry) page.address (childFlags page.entry)
        (frameOf page.entry) (indexes page.address 0)
      rw [leaf]
      generalize (arrived (s2.write u (indexes page.address 0) (lowered page.entry)) page.address
        (childFlags page.entry)) = s3 at shape
      have words : (s3.share (frameOf page.entry)).words =
          (s2.write u (indexes page.address 0) (lowered page.entry)).words := by
        rw [shape, share_eq]
      have sets3 : LeafSet s2 (s3.share (frameOf page.entry)) live child (indexes page.address)
          (lowered page.entry) := (LeafSet.write books2 fresh route _).congr words
      have only : ∀ p, Listed [page] p ↔ SamePage p (indexes page.address) := by
        intro p
        constructor
        · rintro ⟨other, inside, same⟩
          exact List.mem_singleton.mp inside ▸ same
        · intro same
          exact ⟨page, List.mem_singleton_self page, same⟩
      have parent3 : ∀ p, leafAt (s3.share (frameOf page.entry)).words root p =
          if SamePage p (indexes page.address) then lowered page.entry else
            leafAt s.words root p := by
        intro p
        rw [sets3.leaves root member, if_neg fun both => apart both.1.symm, builds.leaves root member,
          sets1.leaves root member]
        simp only [true_and]
      have child3 : ∀ p, leafAt (s3.share (frameOf page.entry)).words child p =
          if SamePage p (indexes page.address) then lowered page.entry else
            leafAt s.words child p := by
        intro p
        rw [sets3.leaves child fresh, builds.leaves child fresh, sets1.leaves child fresh,
          if_neg (c := child = root ∧ _) fun both => apart both.1]
        simp only [true_and]
      have room' : missing s.words child page.address ≤ chain.length := less ▸ room
      refine .copied room' ?_ ⟨⟨fun r live' other other' p => ?_, fun p => ?_, fun p => ?_, fun f => ?_,
        fun f absent outside => ?_, fun p k v other => ?_, ?_, ?_, ?_⟩, fun p inside => ?_,
        fun p inside => ?_, fun p outside => ?_⟩ fun p => ?_
      · rw [← less, shape]
        exact owned.congr rfl rfl rfl rfl
      · rw [sets3.leaves r live', if_neg fun both => other' both.1]
        exact marks.others r live' other other' p
      · rw [parent3]
        split_ifs with same
        · rw [here p same]
          exact Or.inr rfl
        · exact Or.inl rfl
      · rw [child3]
        split_ifs with same
        · exact Or.inr there3
        · exact Or.inl rfl
      · rw [sets3.tables, marks.counts, less]
      · rw [← less] at outside
        refine (sets3.data fresh ?_).trans (marks.kept f absent outside)
        rw [marks.counts, absent, List.count_eq_zero.mpr outside]
      · exact sets3.routes root member p k v (marks.routes p k v other)
      · rw [shape, share_eq]
        exact marks.cr3
      · rw [shape, share_eq]
        exact marks.used
      · rw [shape, share_eq]
        exact marks.disk
      · rw [here p ((only p).mp inside)]
        exact there
      · rw [parent3, child3, if_pos ((only p).mp inside), if_pos ((only p).mp inside),
          here p ((only p).mp inside)]
        exact ⟨rfl, rfl⟩
      · rw [only] at outside
        rw [parent3, child3, if_neg outside, if_neg outside]
        exact ⟨rfl, rfl⟩
      · have last : passed (s3.share (frameOf page.entry)).words 3 child p =
            passed s2.words 3 child p := by
          rw [words]
          unfold passed
          exact along_put_same (e := lowered page.entry) fresh route (books2.table fresh route).1
            (fun _ _ => rfl) fresh p
        obtain ⟨more, bound⟩ := builds.ways p
        have reached := common_le_passed route p
        rw [ways1] at more bound
        rw [last]
        omega

/-- The tables a space needs for these pages below what it has on the way to each:
for every page those it does not share with an earlier one. -/
def tablesFor (reach : (Nat → Index) → Nat) : Pages → Nat
  | [] => 0
  | page :: rest => (3 - reach (indexes page.address)) +
      tablesFor (fun p => max (reach p) (common p (indexes page.address) 3)) rest

/-- How the loop of `fork` can end. -/
inductive Forks (s : Paging) (managed live : Finset Word) (hand chain : List Word)
    (root child : Word) (pages : Pages) : Bool × Paging → Prop where
  | short {s' : Paging} (few : chain.length < tablesFor (passed s.words 3 child) pages)
      (books : Books s' managed live hand []) (marks : Marks s s' live root child chain) :
      Forks s managed live hand chain root child pages (false, s')
  | copied {s' : Paging} (room : tablesFor (passed s.words 3 child) pages ≤ chain.length)
      (books : Books s' managed live hand
        (chain.drop (tablesFor (passed s.words 3 child) pages)))
      (copies : Copies s s' live root child pages
        (chain.take (tablesFor (passed s.words 3 child) pages))) :
      Forks s managed live hand chain root child pages (true, s')

/-- The pages `fork` was given, as they still are when it comes to them. -/
structure Waiting (s : Paging) (root child : Word) (pages : Pages) : Prop where
  apart : pages.Pairwise fun a b => ¬SamePage (indexes a.address) (indexes b.address)
  on : ∀ page ∈ pages, OnPage s.words root page
  entry : ∀ page ∈ pages, page.entry = s.words page.table page.index
  there : ∀ page ∈ pages, has page.entry present = true
  absent : ∀ page ∈ pages, has (leafAt s.words child (indexes page.address)) present = false

theorem Waiting.next {page : Page} {rest : Pages} {taken : List Word}
    (waiting : Waiting s root child (page :: rest))
    (copies : Copies s s' live root child [page] taken) : Waiting s' root child rest := by
  have apart := List.pairwise_cons.mp waiting.apart
  have elsewhere : ∀ other ∈ rest, ¬Listed [page] (indexes other.address) := by
    rintro other inside ⟨here, first, same⟩
    rw [List.mem_singleton.mp first] at same
    exact apart.1 other inside fun j low => (same j low).symm
  have on : ∀ other ∈ rest, OnPage s'.words root other := fun other inside => by
    have before := waiting.on other (List.mem_cons_of_mem _ inside)
    exact ⟨before.low, before.index, copies.routes _ _ _ before.route⟩
  refine ⟨apart.2, on, fun other inside => ?_, fun other inside =>
    waiting.there other (List.mem_cons_of_mem _ inside), fun other inside => ?_⟩
  · have before := waiting.on other (List.mem_cons_of_mem _ inside)
    rw [waiting.entry other (List.mem_cons_of_mem _ inside), ← before.leaf, ← (on other inside).leaf,
      (copies.neither _ (elsewhere other inside)).1]
  · rw [(copies.neither _ (elsewhere other inside)).2]
    exact waiting.absent other (List.mem_cons_of_mem _ inside)

theorem forkPages_spec {pages : Pages} (books : Books s managed live hand chain)
    (member : root ∈ live) (fresh : child ∈ live) (apart : child ≠ root)
    (waiting : Waiting s root child pages) :
    Forks s managed live hand chain root child pages (forkPages child pages s) := by
  induction pages generalizing s chain with
  | nil => exact .copied (Nat.zero_le _) books (Copies.refl s live root child)
  | cons page rest ih =>
      have here := List.mem_cons_self (a := page) (l := rest)
      have step := forkPage_spec books member fresh apart (waiting.on page here)
        (waiting.entry page here) (waiting.there page here) (waiting.absent page here)
      have need : tablesFor (passed s.words 3 child) (page :: rest) =
          missing s.words child page.address + tablesFor (fun p =>
            max (passed s.words 3 child p) (common p (indexes page.address) 3)) rest := rfl
      rw [forkPages_cons (waiting.entry page here)]
      generalize forkPage child page s = answer at step ⊢
      cases step with
      | short text few books1 marks => exact .short (by omega) books1 marks
      | @copied s1 room books1 copies ways =>
          have later := ih books1 (waiting.next copies)
          rw [← funext ways] at need
          dsimp only
          generalize forkPages child rest (s1.share (frameOf page.entry)) = answer at later ⊢
          cases later with
          | short few books2 marks =>
              rw [List.length_drop] at few
              refine .short (by omega) books2 ?_
              have all := copies.toMarks.trans marks
              rw [List.take_append_drop] at all
              exact all
          | copied room' books2 copies' =>
              rw [List.length_drop] at room'
              have all := copies.cons (List.pairwise_cons.mp waiting.apart).1 copies'
              rw [List.drop_drop] at books2
              rw [← List.take_add] at all
              refine .copied (by omega) ?_ ?_
              · rw [need]
                exact books2
              · rw [need]
                exact all

end Copying

section Spaces

variable {s s' : Paging} {managed live : Finset Word} {hand chain : List Word} {root : Word}

theorem userPages_congr (sound : Sound s.words root)
    (kept : ∀ v, 0 < tables userTree s.words 3 root v → s'.words v = s.words v) :
    userPages s' root = userPages s root := by
  have top : ∀ i3 i2, Route userTree s.words (pagePath i3 i2 0) 3 root 3 root :=
    fun _ _ => .here 3 root
  have same : ∀ {path : Nat → Index} {k : Nat} {u : Word}, Route userTree s.words path 3 root k u →
      s'.words u = s.words u := fun route => kept _ route.occurs
  unfold userPages
  rw [same (top 0 0)]
  dsimp only
  split_ifs with absent
  · rfl
  refine List.flatMap_congr fun i3 _ => ?_
  have second : ∀ i2, Route userTree s.words (pagePath i3 i2 0) 3 root 2 (frameOf (s.words root 0)) :=
    fun i2 => (top i3 i2).next (slot_plain sound (Bool.of_not_eq_false absent)).1
  rw [same (second 0)]
  split_ifs with absent3
  · rfl
  refine List.flatMap_congr fun i2 _ => ?_
  rw [not_or] at absent3
  have third : Route userTree s.words (pagePath i3 i2 0) 3 root 1
      (frameOf (s.words (frameOf (s.words root 0)) i3)) :=
    (second i2).next (if_pos ⟨Bool.of_not_eq_false absent3.1,
      Bool.eq_false_of_not_eq_true absent3.2, fun top => by cases top⟩)
  rw [same third]
  split_ifs with absent2
  · rfl
  rw [not_or] at absent2
  have fourth : Route userTree s.words (pagePath i3 i2 0) 3 root 0
      (frameOf (s.words (frameOf (s.words (frameOf (s.words root 0)) i3)) i2)) :=
    third.next (if_pos ⟨Bool.of_not_eq_false absent2.1,
      Bool.eq_false_of_not_eq_true absent2.2, fun top => by cases top⟩)
  unfold pagesOfTable
  rw [same fourth]

/-- How `fork` can end: nothing free, not enough for the child's tables, or done. -/
inductive Forked (s : Paging) (managed live : Finset Word) (hand chain : List Word)
    (root : Word) : Option Word × Paging → Prop where
  | none (empty : chain = []) : Forked s managed live hand chain root (none, s)
  | short {child : Word} {rest : List Word} {s0 s' : Paging} (first : chain = child :: rest)
      (made : Made s s0 live child) (books0 : Books s0 managed (insert child live) hand rest)
      (few : rest.length < tablesFor (fun _ => 0) (userPages s root))
      (books : Books s' managed (insert child live) hand [])
      (marks : Marks s0 s' (insert child live) root child rest) :
      Forked s managed live hand chain root (none, s')
  | copied {child : Word} {rest : List Word} {s0 s' : Paging} (first : chain = child :: rest)
      (made : Made s s0 live child) (books0 : Books s0 managed (insert child live) hand rest)
      (room : tablesFor (fun _ => 0) (userPages s root) ≤ rest.length)
      (books : Books s' managed (insert child live) hand
        (rest.drop (tablesFor (fun _ => 0) (userPages s root))))
      (copies : Copies s0 s' (insert child live) root child (userPages s root)
        (rest.take (tablesFor (fun _ => 0) (userPages s root)))) :
      Forked s managed live hand chain root (some child, s')

theorem fork_spec (books : Books s managed live hand chain) (member : root ∈ live) :
    Forked s managed live hand chain root (fork s root) := by
  cases chain with
  | nil =>
      have failed : newSpace s = (none, s) := by
        unfold newSpace
        rw [books.account.allocate_none]
      unfold fork
      rw [failed]
      exact .none rfl
  | cons child rest =>
      obtain ⟨s0, new, books0, made⟩ := newSpace_made books
      have apart : child ≠ root := fun same => made.outside (same ▸ member)
      have kept : ∀ v, 0 < tables userTree s.words 3 root v → s0.words v = s.words v :=
        fun v inside => made.trees v (lt_of_lt_of_le inside (tables_le_occurs member v))
      have listing : userPages s0 root = userPages s root :=
        userPages_congr (books.sound root member) kept
      have member0 := Finset.mem_insert_of_mem (b := child) member
      have sound0 := books0.sound root member0
      have waiting : Waiting s0 root child (userPages s0 root) :=
        ⟨userPages_apart s0 root, fun page inside => (mem_userPages sound0 inside).1,
          fun page inside => (mem_userPages sound0 inside).2.1,
          fun page inside => (mem_userPages sound0 inside).2.2,
          fun page inside => by rw [made.leaves]; decide⟩
      have loop := forkPages_spec books0 member0 (Finset.mem_insert_self child live) apart waiting
      unfold fork
      rw [new]
      dsimp only
      generalize forkPages child (userPages s0 root) s0 = answer at loop ⊢
      rw [listing] at loop
      cases loop with
      | short few books1 marks =>
          rw [funext made.ways] at few
          exact .short rfl made books0 few books1 marks
      | copied room books1 copies =>
          rw [funext made.ways] at room books1 copies
          exact .copied rfl made books0 room books1 copies

end Spaces

end FiveAM.Memory.Forking
