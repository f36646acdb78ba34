/- GID: FiveAM/Memory/EagerCopies
   source: kernel/src/memory.rs
   digest: Programs cannot tell copy-on-write from copying every page at the fork. -/

import FiveAM.Memory.Inherited
import FiveAM.Memory.UserAccess
import FiveAM.Memory.UserWays

set_option autoImplicit false
set_option relaxedAutoImplicit false

namespace FiveAM.Memory.EagerCopies

open FiveAM.Process.TaskTable (Word)
open FiveAM.Memory.Entries FiveAM.Memory.Frames FiveAM.Memory.PageTables FiveAM.Memory.Swap
open FiveAM.Memory.Ownership FiveAM.Memory.Residency FiveAM.Memory.Contents FiveAM.Memory.Return
open FiveAM.Memory.UserAccess FiveAM.Memory.Spaces FiveAM.Memory.Teardown FiveAM.Memory.Forking
open FiveAM.Memory.Boot FiveAM.Memory.CopyOnWrite FiveAM.Memory.Inherited
open FiveAM.Lib.RadixTables FiveAM.Lib.Runs
open FiveAM.Memory.FrameOwnership (Machine booted Usable)
open FiveAM.Memory.Conservation (indexes_low)
open FiveAM.Memory.UserWays

section Views

def viewOf (m : Words) (e : Word) : Option View :=
  if has e present then some ⟨m (frameOf e), has e user, grants e⟩ else none

def view (s : Paging) (root : Word) (path : Nat → Index) : Option View :=
  viewOf s.words (leafAt s.words root path)

/-- A writable page is the only one in its frame. -/
def Alone (s : Paging) (live : Finset Word) : Prop :=
  ∀ r ∈ live, ∀ p, has (leafAt s.words r p) present = true →
    has (leafAt s.words r p) writable = true →
    ∀ r' ∈ live, ∀ p', has (leafAt s.words r' p') present = true →
      frameOf (leafAt s.words r' p') = frameOf (leafAt s.words r p) → r' = r ∧ SamePage p' p

theorem viewOf_absent {m : Words} {e : Word} (absent : has e present = false) :
    viewOf m e = none := by
  unfold viewOf
  rw [absent]
  rfl

theorem viewOf_congr {m m' : Words} {e e' : Word} (there : has e' present = has e present)
    (words : has e present = true → m' (frameOf e') = m (frameOf e))
    (reads : has e' user = has e user)
    (writes : grants e' = grants e) : viewOf m' e' = viewOf m e := by
  unfold viewOf
  rw [there, reads, writes]
  by_cases resident : has e present = true
  · rw [words resident]
  · rw [if_neg resident, if_neg resident]

private theorem flag_leafFor {frame flags : Word} {k : Nat}
    (outside : addressMask.getLsbD k = false) (other : present.getLsbD k = false) :
    (leafFor frame flags).getLsbD k = flags.getLsbD k := by
  unfold leafFor
  rw [BitVec.getLsbD_or, BitVec.getLsbD_or, frameOf_bit frame outside, other, Bool.false_or,
    Bool.or_false]

theorem viewOf_leafFor {m : Words} {frame flags : Word} (framed : frameOf frame = frame)
    (plain : frameOf flags = 0) (unshared : has flags cow = false) :
    viewOf m (leafFor frame flags) = some ⟨m frame, has flags user, has flags writable⟩ := by
  unfold viewOf grants
  rw [if_pos (present_leafFor frame flags), frameOf_leafFor plain, framed, has_user, has_user,
    has_writable, has_writable, has_cow, flag_leafFor (by decide) (by decide),
    flag_leafFor (by decide) (by decide), flag_leafFor (by decide) (by decide), ← has_cow, unshared,
    Bool.or_false]

theorem viewOf_lowered (m : Words) (e : Word) : viewOf m (lowered e) = viewOf m e :=
  viewOf_congr (present_lowered e) (fun _ => by rw [frameOf_lowered]) (user_lowered e)
    (grants_lowered e)

theorem viewOf_owned {m m' : Words} {frame e : Word} (address : frameOf frame = frame)
    (guarded : Guarded e) (words : m' frame = m (frameOf e)) :
    viewOf m' (owned frame e) = viewOf m e := by
  obtain ⟨there, waits, closed⟩ := guarded
  refine viewOf_congr (present_owned address) (fun _ => ?_) (user_owned address) ?_
  · rw [frameOf_owned address]
    exact words
  · unfold grants
    rw [writable_owned address, waits, Bool.true_or, Bool.or_true]

variable {s t : Paging} {managed live : Finset Word} {hand chain : List Word}

theorem view_aging (books : Books s managed live hand chain) (aging : Aging s t live) {r : Word}
    (member : r ∈ live) (p : Nat → Index) : view t r p = view s r p := by
  have same := aging.leaves r member p
  have flag : ∀ {k}, k < 64 → ages.getLsbD k = false →
      (leafAt t.words r p).getLsbD k = (leafAt s.words r p).getLsbD k :=
    fun low other => bit_of_ageless same low other
  refine viewOf_congr (present_ageless same) (fun there => ?_) ?_ ?_
  · rw [frameOf_ageless same]
    exact aging.data _ (page_frame books member there).1
  · rw [has_user, has_user, flag (by decide) (by decide)]
  · unfold grants
    rw [has_writable, has_writable, has_cow, has_cow, flag (by decide) (by decide),
      flag (by decide) (by decide)]

theorem Alone.aging (alone : Alone s live) (aging : Aging s t live) : Alone t live := by
  intro r member p there writes r' member' p' there' same
  have before := aging.leaves r member p
  have before' := aging.leaves r' member' p'
  rw [present_ageless before] at there
  rw [present_ageless before'] at there'
  rw [frameOf_ageless before, frameOf_ageless before'] at same
  rw [has_writable, bit_of_ageless before (by decide) (by decide), ← has_writable] at writes
  exact alone r member p there writes r' member' p' there' same

theorem Alone.congr (alone : Alone s live)
    (leaves : ∀ r ∈ live, ∀ p, leafAt t.words r p = leafAt s.words r p) : Alone t live := by
  intro r member p there writes r' member' p' there' same
  rw [leaves r member p] at there writes same
  rw [leaves r' member' p'] at there' same
  exact alone r member p there writes r' member' p' there' same

theorem Alone.set (alone : Alone s live) {root e : Word} {path : Nat → Index}
    (leaves : ∀ r ∈ live, ∀ p [Decidable (r = root ∧ SamePage p path)], leafAt t.words r p =
      if r = root ∧ SamePage p path then e else leafAt s.words r p)
    (apart : ∀ r ∈ live, ∀ p, ¬(r = root ∧ SamePage p path) →
      has (leafAt s.words r p) present = true → frameOf (leafAt s.words r p) ≠ frameOf e) :
    Alone t live := by
  classical
  intro r member p there writes r' member' p' there' same
  rw [leaves r member p] at there writes same
  rw [leaves r' member' p'] at there' same
  by_cases here : r = root ∧ SamePage p path
  · by_cases here' : r' = root ∧ SamePage p' path
    · exact ⟨here'.1.trans here.1.symm, fun j low => (here'.2 j low).trans (here.2 j low).symm⟩
    · rw [if_neg here'] at there' same
      rw [if_pos here] at same
      exact absurd same (apart r' member' p' here' there')
  · rw [if_neg here] at there writes same
    by_cases here' : r' = root ∧ SamePage p' path
    · rw [if_pos here'] at same
      exact absurd same.symm (apart r member p here there)
    · rw [if_neg here'] at there' same
      exact alone r member p there writes r' member' p' there' same

end Views

section Programs

def storeOnce (s : Paging) (address value : Word) : Option Paging :=
  if has (leafAt s.words s.cr3 (indexes address)) user then store s address value else none

/-- A load of a program in a space; `none` is a fault. USER is asked of the entry of the page:
the tables above it never refuse (`leaf_decides`). -/
def loadIn (s : Paging) (root address : Word) : Option (Word × Paging) :=
  if has (leafAt s.words root (indexes address)) user then load { s with cr3 := root } address
  else none

/-- A store of a program in a space: where it faults `cow_fault` comes first, and the store
is tried again if the fault was one of its own. -/
def storeIn (s : Paging) (root address value : Word) : Bool × Paging :=
  match storeOnce { s with cr3 := root } address value with
  | some t => (true, t)
  | none =>
      match cowFault { s with cr3 := root } address with
      | (false, t) => (false, t)
      | (true, t) =>
          match storeOnce t address value with
          | some t => (true, t)
          | none => (false, t)

inductive Event where
  /-- `AddressSpace::new`, which makes this one. -/
  | create (root : Word)
  /-- `AddressSpace::map` of a frame just taken from the allocator and filled. -/
  | map (root address flags : Word) (contents : Table)
  /-- `AddressSpace::fork`, which makes this child. -/
  | fork (root child : Word)
  | load (root address : Word)
  | store (root address value : Word)
  | destroy (root : Word)

/-- One event. Spaces are made and pages mapped where that succeeds; `COW` is not a flag
anybody else can name. -/
def step (k : Machine) : Event → Option Machine
  | .create root =>
      match newSpace k.paging with
      | (some made, s) => if made = root then some ⟨s, insert root k.live⟩ else none
      | (none, _) => none
  | .map root address flags contents =>
      if root ∈ k.live ∧ frameOf flags = 0 ∧ has flags cow = false then
        match k.paging.allocate with
        | (none, _) => none
        | (some frame, s) =>
            match mapIn (s.fill frame contents) root address frame flags with
            | (.error _, _) => none
            | (.ok _, s) => some ⟨s, k.live⟩
      else none
  | .fork root child =>
      if root ∈ k.live then
        match fork k.paging root with
        | (some made, s) => if made = child then some ⟨s, insert child k.live⟩ else none
        | (none, _) => none
      else none
  | .load root address =>
      if root ∈ k.live ∧ address < userSpaceEnd then
        match loadIn k.paging root address with
        | some (_, s) => some ⟨s, k.live⟩
        | none => some k
      else none
  | .store root address value =>
      if root ∈ k.live ∧ address < userSpaceEnd then
        some ⟨(storeIn k.paging root address value).2, k.live⟩
      else none
  | .destroy root =>
      if root ∈ k.live then some ⟨destroy k.paging root, k.live.erase root⟩ else none

def provided (k : Machine) : Prop := k.paging.head ≠ 0

instance (k : Machine) : Decidable (provided k) := inferInstanceAs (Decidable (_ ≠ _))

/-- A memory where every space has its pages to itself. -/
structure Eager where
  pages : Word → (Nat → Index) → Option View

namespace Eager

def load (i : Eager) (root address : Word) : Option Word :=
  (i.pages root (indexes address)).bind fun v =>
    if v.user then some (v.words (wordOf address)) else none

def accepts (i : Eager) (root address : Word) : Bool :=
  (i.pages root (indexes address)).any fun v => v.user && v.writable

open Classical in
/-- The same event where `fork` copies every page at once. -/
noncomputable def step (i : Eager) : Event → Eager
  | .create root => ⟨Function.update i.pages root fun _ => none⟩
  | .map root address flags contents =>
      ⟨Function.update i.pages root fun p =>
        if SamePage p (indexes address) then some ⟨contents, has flags user, has flags writable⟩
        else i.pages root p⟩
  | .fork root child => ⟨Function.update i.pages child (i.pages root)⟩
  | .load _ _ => i
  | .store root address value =>
      if i.accepts root address then
        ⟨Function.update i.pages root fun p =>
          if SamePage p (indexes address) then
            (i.pages root p).map fun v =>
              { v with words := Function.update v.words (wordOf address) value }
          else i.pages root p⟩
      else i
  | .destroy root => ⟨Function.update i.pages root fun _ => none⟩

end Eager

/-- The memory with shared frames has the pages of the one without. -/
structure Follows (managed : Finset Word) (k : Machine) (i : Eager) : Prop where
  books : ∃ chain, Books k.paging managed k.live [] chain
  alone : Alone k.paging k.live
  pages : ∀ r ∈ k.live, ∀ p, view k.paging r p = i.pages r p

variable {managed : Finset Word} {k k' : Machine} {i : Eager}

private theorem frame_apart {s : Paging} {live : Finset Word} {hand chain : List Word}
    (books : Books s managed live hand chain) {r : Word} (member : r ∈ live) {p : Nat → Index}
    (there : has (leafAt s.words r p) present = true) {f : Word} (free : f ∈ chain) :
    frameOf (leafAt s.words r p) ≠ f :=
  fun same => (page_frame books member there).2.1 (same ▸ free)

theorem Follows.create (follows : Follows managed k i) {root : Word}
    (taken : step k (.create root) = some k') :
    Follows managed k' (i.step (.create root)) := by
  obtain ⟨chain, books⟩ := follows.books
  cases chain with
  | nil =>
      have failed : newSpace k.paging = (none, k.paging) := by
        unfold newSpace
        rw [books.account.allocate_none]
      simp only [step, failed] at taken
      cases taken
  | cons made rest =>
      obtain ⟨s, new, books', facts⟩ := newSpace_made books
      simp only [step, new] at taken
      split_ifs at taken with same
      obtain rfl := same
      obtain rfl := Option.some.inj taken
      have leaves : ∀ r ∈ k.live, ∀ p, leafAt s.words r p = leafAt k.paging.words r p :=
        fun r member p => along_congr fun v there =>
          facts.trees v (lt_of_lt_of_le there (tables_le_occurs member v))
      have cases' : ∀ r ∈ insert made k.live, ∀ p, has (leafAt s.words r p) present = true →
          r ∈ k.live ∧ leafAt s.words r p = leafAt k.paging.words r p := by
        intro r member p there
        rcases Finset.mem_insert.mp member with rfl | member
        · rw [facts.leaves] at there
          exact absurd there (by decide)
        · exact ⟨member, leaves r member p⟩
      refine ⟨⟨rest, books'⟩, fun r member p there writes r' member' p' there' same => ?_,
        fun r member p => ?_⟩
      · obtain ⟨member, leaf⟩ := cases' r member p there
        obtain ⟨member', leaf'⟩ := cases' r' member' p' there'
        rw [leaf] at there writes same
        rw [leaf'] at there' same
        exact follows.alone r member p there writes r' member' p' there' same
      · rcases Finset.mem_insert.mp member with rfl | member
        · simp only [Eager.step, Function.update_self]
          exact viewOf_absent (by rw [facts.leaves]; decide)
        · have other : r ≠ made := fun same => facts.outside (same ▸ member)
          simp only [Eager.step, Function.update_of_ne other]
          rw [← follows.pages r member p]
          unfold view
          rw [leaves r member p]
          refine viewOf_congr rfl (fun there => ?_) rfl rfl
          exact facts.kept _ (frame_apart books member there List.mem_cons_self)

theorem Follows.map (follows : Follows managed k i) {root address flags : Word} {contents : Table}
    (taken : step k (.map root address flags contents) = some k') :
    Follows managed k' (i.step (.map root address flags contents)) := by
  classical
  obtain ⟨chain, books⟩ := follows.books
  simp only [step, Option.ite_none_right_eq_some] at taken
  obtain ⟨⟨member, plain, unshared⟩, taken⟩ := taken
  cases chain with
  | nil =>
      rw [books.account.allocate_none] at taken
      cases taken
  | cons frame rest =>
      obtain ⟨got, books0⟩ := books.take
      rw [got] at taken
      dsimp only at taken
      unfold mapIn at taken
      split_ifs at taken with high
      have books1 := books0.fill contents
      have trees := books0.trees_fill contents
      have framed := (books0.account.framed frame books0.held.2.2.2.2).2
      have mapping := mapPageIn_spec frame flags books1 member (indexes_low high)
      generalize mapPageIn _ root address frame flags = answer at mapping taken
      cases mapping with
      | short few books2 builds => cases taken
      | taken there books2 builds => cases taken
      | @mapped s2 u room absent books2 builds route =>
          obtain rfl := Option.some.inj taken
          obtain ⟨books3, maps⟩ := mapped_fresh _ books2 builds member route absent plain
          have leaves := maps.leaves
          have name : frameOf (leafFor frame flags) = frame :=
            (frameOf_leafFor plain).trans framed
          have untouched : ∀ f, tableCount k.paging.words k.live f = 0 → f ∉ frame :: rest →
              (arrived (s2.write u (indexes address 0) (leafFor frame flags)) address
                flags).words f = k.paging.words f := by
            intro f table free
            rw [List.mem_cons, not_or] at free
            refine (maps.kept f ?_ fun inside => free.2 (List.mem_of_mem_take inside)).trans
              (Function.update_of_ne free.1 _ _)
            exact Nat.eq_zero_of_le_zero (((trees.tables f).trans table) ▸
              tables_le_occurs member f)
          refine ⟨⟨_, books3⟩, ?_, fun r member' p => ?_⟩
          · have alone0 : Alone ({ k.paging with
                head := k.paging.words frame 0
                free := k.paging.free - 1 }.fill frame contents) k.live :=
              follows.alone.congr trees.leaves
            refine alone0.set leaves fun r member' p _ there same => ?_
            rw [trees.leaves r member' p] at there same
            exact frame_apart books member' there List.mem_cons_self (same.trans name)
          · unfold view
            rw [leaves r member' p, trees.leaves r member' p]
            by_cases here : r = root
            · subst here
              simp only [Eager.step, Function.update_self]
              by_cases same : SamePage p (indexes address)
              · rw [if_pos ⟨trivial, same⟩, if_pos same, viewOf_leafFor framed plain unshared]
                congr 2
                refine (maps.kept frame ?_ ?_).trans (Function.update_self _ _ _)
                · refine Nat.eq_zero_of_le_zero ?_
                  have none := (trees.tables frame).trans books0.held.2.1
                  exact none ▸ tables_le_occurs member frame
                · exact fun inside => books0.held.2.2.1 (List.mem_of_mem_take inside)
              · rw [if_neg fun both => same both.2, if_neg same, ← follows.pages r member p]
                refine viewOf_congr rfl (fun there => ?_) rfl rfl
                obtain ⟨table, free, -, -⟩ := page_frame books member there
                exact untouched _ table free
            · rw [if_neg fun both => here both.1]
              simp only [Eager.step, Function.update_of_ne here]
              rw [← follows.pages r member' p]
              refine viewOf_congr rfl (fun there => ?_) rfl rfl
              obtain ⟨table, free, -, -⟩ := page_frame books member' there
              exact untouched _ table free

theorem Follows.fork (follows : Follows managed k i) {root child : Word}
    (taken : step k (.fork root child) = some k') :
    Follows managed k' (i.step (.fork root child)) := by
  obtain ⟨chain, books⟩ := follows.books
  simp only [step, Option.ite_none_right_eq_some] at taken
  obtain ⟨member, taken⟩ := taken
  rcases forked : PageTables.fork k.paging root with ⟨_ | made, s⟩
  · rw [forked] at taken
    cases taken
  rw [forked] at taken
  dsimp only at taken
  split_ifs at taken with same
  obtain rfl := same
  obtain rfl := Option.some.inj taken
  obtain ⟨books', inherits⟩ := fork_inherits books member forked
  have old : ∀ r ∈ insert made k.live, r ≠ made → r ∈ k.live := fun r live other =>
    (Finset.mem_insert.mp live).resolve_left other
  -- neither the parent nor the child has a writable page left
  have closed : ∀ r ∈ insert made k.live, ∀ p, has (leafAt s.words r p) present = true →
      has (leafAt s.words r p) writable = true →
      r ∈ k.live ∧ leafAt s.words r p = leafAt k.paging.words r p := by
    intro r live p there writes
    by_cases resident : has (leafAt k.paging.words root p) present = true
    · obtain ⟨parent, copy⟩ := inherits.both p resident
      have other : r ≠ made := by
        rintro rfl
        rw [copy, writable_lowered] at writes
        cases writes
      have other' : r ≠ root := by
        rintro rfl
        rw [parent, writable_lowered] at writes
        cases writes
      exact ⟨old r live other, inherits.others r (old r live other) other' p⟩
    · obtain ⟨parent, blank⟩ := inherits.neither p (Bool.eq_false_of_not_eq_true resident)
      have other : r ≠ made := by
        rintro rfl
        rw [blank] at there
        exact absurd there (by decide)
      refine ⟨old r live other, ?_⟩
      by_cases own : r = root
      · rw [own]
        exact parent
      · exact inherits.others r (old r live other) own p
  -- a present page of the child is in the frame of its parent's
  have origin : ∀ r ∈ insert made k.live, ∀ p, has (leafAt s.words r p) present = true →
      ∃ r0 ∈ k.live, has (leafAt k.paging.words r0 p) present = true ∧
        frameOf (leafAt k.paging.words r0 p) = frameOf (leafAt s.words r p) ∧
        (r0 = root ∨ r0 = r) := by
    intro r live p there
    by_cases outside : r = root ∨ r = made
    · by_cases resident : has (leafAt k.paging.words root p) present = true
      · have leaf : leafAt s.words r p = lowered (leafAt k.paging.words root p) := by
          rcases outside with rfl | rfl
          · exact (inherits.both p resident).1
          · exact (inherits.both p resident).2
        exact ⟨root, member, resident, by rw [leaf, frameOf_lowered], Or.inl rfl⟩
      · obtain ⟨parent, blank⟩ := inherits.neither p (Bool.eq_false_of_not_eq_true resident)
        rcases outside with rfl | rfl
        · rw [parent] at there
          exact absurd there resident
        · rw [blank] at there
          exact absurd there (by decide)
    · rw [not_or] at outside
      have leaf := inherits.others r (old r live outside.2) outside.1 p
      rw [leaf] at there ⊢
      exact ⟨r, old r live outside.2, there, rfl, Or.inr rfl⟩
  have shared : ∀ p, has (leafAt k.paging.words root p) present = true →
      viewOf s.words (lowered (leafAt k.paging.words root p)) = view k.paging root p :=
    fun p there => (viewOf_lowered _ _).trans
      (viewOf_congr rfl (fun _ => inherits.words root member p there) rfl rfl)
  refine ⟨books', fun r live p there writes r' live' p' there' same => ?_, fun r live p => ?_⟩
  · obtain ⟨live0, leaf⟩ := closed r live p there writes
    obtain ⟨r0, live0', there0, frame, whose⟩ := origin r' live' p' there'
    rw [leaf] at there writes same
    obtain ⟨rfl, pages⟩ :=
      follows.alone r live0 p there writes r0 live0' p' there0 (frame.trans same)
    rcases whose with rfl | rfl
    · rw [← leaf, (inherits.both p there).1, writable_lowered] at writes
      cases writes
    · exact ⟨rfl, pages⟩
  · by_cases new : r = made
    · subst new
      simp only [Eager.step, Function.update_self]
      rw [← follows.pages root member p]
      by_cases resident : has (leafAt k.paging.words root p) present = true
      · unfold view
        rw [(inherits.both p resident).2]
        exact shared p resident
      · have absent := Bool.eq_false_of_not_eq_true resident
        unfold view
        rw [(inherits.neither p absent).2, viewOf_absent absent, viewOf_absent (by decide)]
    · simp only [Eager.step, Function.update_of_ne new]
      rw [← follows.pages r (old r live new) p]
      by_cases own : r = root
      · subst own
        by_cases resident : has (leafAt k.paging.words r p) present = true
        · unfold view
          rw [(inherits.both p resident).1]
          exact shared p resident
        · have absent := Bool.eq_false_of_not_eq_true resident
          unfold view
          rw [(inherits.neither p absent).1, viewOf_absent absent, viewOf_absent absent]
      · unfold view
        rw [inherits.others r (old r live new) own p]
        exact viewOf_congr rfl (inherits.words r (old r live new) p) rfl rfl

theorem Follows.destroy (follows : Follows managed k i) {root : Word}
    (taken : step k (.destroy root) = some k') :
    Follows managed k' (i.step (.destroy root)) := by
  obtain ⟨chain, books⟩ := follows.books
  simp only [step, Option.ite_none_right_eq_some, Option.some.injEq] at taken
  obtain ⟨member, rfl⟩ := taken
  obtain ⟨freed, books', frees, trees⟩ := destroy_spec books member
  refine ⟨⟨_, books'⟩, ?_, fun r live p => ?_⟩
  · intro r live p there writes r' live' p' there' same
    rw [trees.leaves r live p] at there writes same
    rw [trees.leaves r' live' p'] at there' same
    exact follows.alone r (Finset.mem_of_mem_erase live) p there writes r'
      (Finset.mem_of_mem_erase live') p' there' same
  · simp only [Eager.step, Function.update_of_ne (Finset.ne_of_mem_erase live)]
    rw [← follows.pages r (Finset.mem_of_mem_erase live) p]
    unfold view
    rw [← trees.leaves r live p]
    refine viewOf_congr rfl (fun there => frees.kept _ fun inside => ?_) rfl rfl
    exact (page_frame books' live there).2.1 (List.mem_append_left chain inside)

end Programs

section Accesses

variable {s t : Paging} {managed live : Finset Word} {hand chain : List Word} {address : Word}

theorem touch_present (low : indexes address 3 = 0)
    (there : has (leafAt s.words s.cr3 (indexes address)) present = true) (bits : Word) :
    ∃ t, touch s address bits = some (leafAt s.words s.cr3 (indexes address), t) := by
  obtain ⟨u, route⟩ : ∃ u, Route userTree s.words (indexes address) 3 s.cr3 0 u := by
    by_contra nowhere
    have blank : leafAt s.words s.cr3 (indexes address) = 0 :=
      leafAt_nowhere fun u route => nowhere ⟨u, route⟩
    rw [blank] at there
    exact absurd there (by decide)
  have leaf : leafAt s.words s.cr3 (indexes address) = s.words u (indexes address 0) :=
    entryAt_route route
  unfold touch
  rw [(plainTable_iff low).mpr route]
  dsimp only
  rw [← leaf, if_neg (by simp [there])]
  exact ⟨_, rfl⟩

theorem touch_absent (books : Books s managed live hand chain) (member : s.cr3 ∈ live)
    (low : indexes address 3 = 0) {bits : Word} (aging : bits &&& ~~~ages = 0)
    (absent : has (leafAt s.words s.cr3 (indexes address)) present = false) :
    touch s address bits = none := by
  refine Option.eq_none_iff_forall_ne_some.mpr fun ⟨entry, t⟩ touched => ?_
  obtain ⟨rfl, there, -⟩ := touch_spec books member low aging touched
  exact Bool.false_ne_true (absent.symm.trans there)

def accepts (v : Option View) : Bool := v.any fun v => v.user && v.writable

/-- A store that goes through changes one word of one page, and takes a frame at most. -/
structure Stored (s t : Paging) (managed live : Finset Word) (root address value : Word)
    (done : Bool) : Prop where
  books : ∃ chain, Books t managed live [] chain
  alone : Alone t live
  frames : s.free ≤ t.free + 1
  pages : ∀ r ∈ live, ∀ p [Decidable (done = true ∧ r = root ∧ SamePage p (indexes address))],
    view t r p = if done = true ∧ r = root ∧ SamePage p (indexes address) then
      (view s r p).map fun v => { v with words := Function.update v.words (wordOf address) value }
    else view s r p
  uppers : ∀ r ∈ live, ∀ p, above t.words r p = above s.words r p

theorem store_stored (books : Books s managed live [] chain) (alone : Alone s live)
    (member : s.cr3 ∈ live) (low : indexes address 3 = 0) {value : Word}
    (stored : store s address value = some t) :
    Stored s t managed live s.cr3 address value true ∧ t.free = s.free := by
  obtain ⟨aged, aging, there, writes, rfl⟩ := store_spec books member low stored
  have books1 := aging.books books
  have alone1 := alone.aging aging
  have same := aging.leaves s.cr3 member (indexes address)
  have there1 := (present_ageless same).trans there
  have writes1 : has (leafAt aged.words s.cr3 (indexes address)) writable = true := by
    rw [has_writable, bit_of_ageless same (by decide) (by decide), ← has_writable]
    exact writes
  rw [← frameOf_ageless same]
  obtain ⟨trees, books2, -⟩ :=
    write_page books1 (refCount_pos member there1) (wordOf address) value
  have same_free : aged.free = s.free := aging.free
  refine ⟨⟨⟨chain, books2⟩, alone1.congr trees.leaves, ?_, fun r live' p _ => ?_, fun r live' p =>
    (trees.uppers r live' p).trans (aging.uppers r live' p)⟩, same_free⟩
  · exact Nat.le_add_right_of_le (Nat.le_of_eq same_free.symm)
  rw [← view_aging books aging live' p]
  unfold view
  rw [trees.leaves r live' p]
  by_cases here : r = s.cr3 ∧ SamePage p (indexes address)
  · have leaf : leafAt aged.words r p = leafAt aged.words s.cr3 (indexes address) := by
      rw [here.1]
      exact entryAt_indexes fun j low => here.2 j low
    rw [if_pos ⟨rfl, here⟩, leaf]
    unfold viewOf
    rw [if_pos there1, if_pos there1, Option.map_some]
    simp only [Paging.write, Function.update_self]
  · rw [if_neg fun both => here both.2]
    refine viewOf_congr rfl (fun there' => Function.update_of_ne (fun frame => here ?_) _ _) rfl rfl
    exact alone1 s.cr3 member _ there1 writes1 r live' p there' frame

theorem storeOnce_open (low : indexes address 3 = 0) (value : Word)
    (reads : has (leafAt s.words s.cr3 (indexes address)) user = true)
    (there : has (leafAt s.words s.cr3 (indexes address)) present = true)
    (writes : has (leafAt s.words s.cr3 (indexes address)) writable = true) :
    storeOnce s address value ≠ none := by
  obtain ⟨t, touched⟩ := touch_present low there (accessed ||| dirty)
  unfold storeOnce store
  rw [if_pos reads, touched]
  dsimp only
  rw [if_neg (by simp [writes])]
  exact Option.some_ne_none _

theorem of_storeOnce (books : Books s managed live hand chain) (member : s.cr3 ∈ live)
    (low : indexes address 3 = 0) {value : Word} (stored : storeOnce s address value = some t) :
    has (leafAt s.words s.cr3 (indexes address)) user = true ∧
      store s address value = some t ∧ accepts (view s s.cr3 (indexes address)) = true := by
  unfold storeOnce at stored
  split_ifs at stored with reads
  obtain ⟨-, -, there, writes, -⟩ := store_spec books member low stored
  refine ⟨reads, stored, ?_⟩
  unfold view viewOf accepts grants
  rw [if_pos there, Option.any_some, reads, writes]
  rfl

theorem repaired_unseen (books : Books s managed live hand chain) (alone : Alone s live)
    {root frame : Word} {path : Nat → Index} {fresh : List Word}
    (address : frameOf frame = frame) (guarded : Guarded (leafAt s.words root path))
    (repaired : Repaired s t live root path (owned frame (leafAt s.words root path)) fresh)
    (holds : t.words frame = s.words (frameOf (leafAt s.words root path)))
    (free : ∀ f ∈ fresh, f ∈ chain)
    (apart : ∀ r ∈ live, ∀ p, ¬(r = root ∧ SamePage p path) →
      has (leafAt s.words r p) present = true → frameOf (leafAt s.words r p) ≠ frame) :
    Alone t live ∧ ∀ r ∈ live, ∀ p, view t r p = view s r p := by
  classical
  refine ⟨alone.set repaired.leaves fun r live' p other there => ?_, fun r live' p => ?_⟩
  · rw [frameOf_owned address]
    exact apart r live' p other there
  · unfold view
    rw [repaired.leaves r live' p]
    by_cases here : r = root ∧ SamePage p path
    · have leaf : leafAt s.words r p = leafAt s.words root path := by
        rw [here.1]
        exact entryAt_indexes fun j low => here.2 j low
      rw [if_pos here, leaf]
      exact viewOf_owned address guarded holds
    · rw [if_neg here]
      refine viewOf_congr rfl (fun there =>
        repaired.kept _ (page_frame books live' there).1 ?_) rfl rfl
      exact fun inside => (page_frame books live' there).2.1 (free _ inside)

/-- However `cow_fault` ends while a frame is free, programs see the same pages; where it
returns true the page may be stored to. -/
theorem cowFault_unseen (books : Books s managed live [] chain) (alone : Alone s live)
    (member : s.cr3 ∈ live) (inside : address < userSpaceEnd) (free : s.head ≠ 0) :
    (cowFault s address = (false, s) ∧ ¬Guarded (leafAt s.words s.cr3 (indexes address))) ∨
      ∃ t, cowFault s address = (true, t) ∧ (∃ chain, Books t managed live [] chain) ∧
        s.free ≤ t.free + 1 ∧ Alone t live ∧ (∀ r ∈ live, ∀ p, view t r p = view s r p) ∧
        t.cr3 = s.cr3 ∧ has (leafAt t.words s.cr3 (indexes address)) present = true ∧
        has (leafAt t.words s.cr3 (indexes address)) writable = true ∧
        has (leafAt t.words s.cr3 (indexes address)) user =
          has (leafAt s.words s.cr3 (indexes address)) user ∧
        ∀ r ∈ live, ∀ p, above t.words r p = above s.words r p := by
  classical
  have repairs := cowFault_spec books member inside free
  generalize cowFault s address = answer at repairs
  have entry : ∀ {t fresh frame}, frameOf frame = frame →
      Guarded (leafAt s.words s.cr3 (indexes address)) →
      Repaired s t live s.cr3 (indexes address)
        (owned frame (leafAt s.words s.cr3 (indexes address))) fresh →
      has (leafAt t.words s.cr3 (indexes address)) present = true ∧
        has (leafAt t.words s.cr3 (indexes address)) writable = true ∧
        has (leafAt t.words s.cr3 (indexes address)) user =
          has (leafAt s.words s.cr3 (indexes address)) user ∧
        ∀ r ∈ live, ∀ p, above t.words r p = above s.words r p := by
    intro t fresh frame address' guarded repaired
    rw [repaired.leaves s.cr3 member, if_pos ⟨rfl, fun _ _ => rfl⟩]
    exact ⟨(present_owned address').trans guarded.1, writable_owned address', user_owned address',
      repaired.uppers⟩
  cases repairs with
  | refused plain => exact Or.inl ⟨rfl, plain⟩
  | @copied fresh rest t guarded first several books' repaired holds =>
      have inside' : fresh ∈ chain := first ▸ List.mem_cons_self
      have framed : frameOf fresh = fresh := by
        refine (books.account.framed fresh (books.account.managed_of (f := fresh) ?_)).2
        have counted := List.count_pos_iff.mpr inside'
        omega
      obtain ⟨alone', unseen⟩ := repaired_unseen books alone framed guarded repaired holds
        (fun f only => List.mem_singleton.mp only ▸ inside')
        fun r live' p _ there => frame_apart books live' there inside'
      have frames : s.free ≤ t.free + 1 := by
        rw [books.account.count, books'.account.count, first, List.length_cons]
      exact Or.inr ⟨t, rfl, ⟨rest, books'⟩, frames, alone', unseen, repaired.cr3,
        entry framed guarded repaired⟩
  | @kept t guarded single books' repaired =>
      have positive := refCount_pos member guarded.1
      have owners := books.account.owners (frameOf (leafAt s.words s.cr3 (indexes address)))
      obtain ⟨table, -⟩ := page_frame books member guarded.1
      obtain ⟨alone', unseen⟩ := repaired_unseen books alone (frameOf_frameOf _) guarded
        repaired (repaired.kept _ table List.not_mem_nil)
        (fun f only => absurd only List.not_mem_nil) fun r live' p other there same =>
          other (page_alone books member guarded.1 (by omega) live' there same)
      have frames : s.free ≤ t.free + 1 := by
        rw [books.account.count, books'.account.count]
        exact Nat.le_succ _
      exact Or.inr ⟨t, rfl, ⟨chain, books'⟩, frames, alone', unseen, repaired.cr3,
        entry (frameOf_frameOf _) guarded repaired⟩

theorem storeIn_spec (books : Books s managed live [] chain) (alone : Alone s live) {root : Word}
    (member : root ∈ live) (inside : address < userSpaceEnd) (free : s.head ≠ 0) (value : Word) :
    (storeIn s root address value).1 = accepts (view s root (indexes address)) ∧
      Stored s (storeIn s root address value).2 managed live root address value
        (storeIn s root address value).1 := by
  have low := low_of_user inside
  have books0 : Books { s with cr3 := root } managed live [] chain := books.congr rfl rfl rfl rfl
  have alone0 : Alone { s with cr3 := root } live := alone
  have idle : ∀ {t : Paging}, (∃ chain, Books t managed live [] chain) → s.free ≤ t.free + 1 →
      Alone t live → (∀ r ∈ live, ∀ p, view t r p = view s r p) →
      (∀ r ∈ live, ∀ p, above t.words r p = above s.words r p) →
      Stored s t managed live root address value false :=
    fun books frames alone unseen uppers => ⟨books, alone, frames, fun r live' p _ => by
      rw [if_neg fun both => Bool.false_ne_true both.1]
      exact unseen r live' p, uppers⟩
  unfold storeIn
  cases once : storeOnce { s with cr3 := root } address value with
  | some t =>
      obtain ⟨-, stored, open'⟩ := of_storeOnce books0 member low once
      obtain ⟨change, -⟩ := store_stored books0 alone0 member low stored
      exact ⟨open'.symm, change.books, change.alone, change.frames, fun r live' p _ =>
        change.pages r live' p, change.uppers⟩
  | none =>
      dsimp only
      rcases cowFault_unseen books0 alone0 member inside free with
        ⟨refused, plain⟩ | ⟨t, served, books1, frames, alone1, unseen, active, there, writes, reads,
          ways⟩
      · rw [refused]
        refine ⟨?_, idle ⟨chain, books0⟩ (Nat.le_succ _) alone0 (fun _ _ _ => rfl)
          fun _ _ _ => rfl⟩
        by_contra open'
        have open' := (Bool.not_eq_false _).mp fun shut => open' shut.symm
        unfold accepts view viewOf grants at open'
        split_ifs at open' with there
        · rw [Option.any_some, Bool.and_eq_true, Bool.or_eq_true] at open'
          obtain ⟨reads, granted⟩ := open'
          by_cases writes : has (leafAt s.words root (indexes address)) writable = true
          · exact storeOnce_open (s := { s with cr3 := root }) low value reads there writes once
          · exact plain ⟨there, granted.resolve_left writes, Bool.eq_false_of_not_eq_true writes⟩
        · cases open'
      · rw [served]
        dsimp only
        obtain ⟨chain1, books1⟩ := books1
        have member1 : t.cr3 ∈ live := active ▸ member
        have active' : t.cr3 = root := active
        have before : view t root (indexes address) = view s root (indexes address) :=
          unseen root member _
        cases again : storeOnce t address value with
        | some t' =>
            obtain ⟨-, stored, open'⟩ := of_storeOnce books1 member1 low again
            rw [active', before] at open'
            obtain ⟨change, same⟩ := store_stored books1 alone1 member1 low stored
            rw [active'] at change
            refine ⟨open'.symm, change.books, change.alone, same ▸ frames, fun r live' p _ => ?_,
              fun r live' p => (change.uppers r live' p).trans (ways r live' p)⟩
            rw [change.pages r live' p, unseen r live' p]
            rfl
        | none =>
            refine ⟨?_, idle ⟨chain1, books1⟩ frames alone1 unseen ways⟩
            by_contra open'
            have open' := (Bool.not_eq_false _).mp fun shut => open' shut.symm
            unfold accepts view viewOf at open'
            split_ifs at open' with resident
            · rw [Option.any_some, Bool.and_eq_true] at open'
              exact storeOnce_open (s := t) low value
                (by rw [active']; exact reads.trans open'.1) (by rw [active']; exact there)
                (by rw [active']; exact writes) again
            · cases open'

theorem loadIn_spec (books : Books s managed live hand chain) (alone : Alone s live) {root : Word}
    (member : root ∈ live) (inside : address < userSpaceEnd) {value : Word}
    (loaded : loadIn s root address = some (value, t)) :
    Books t managed live hand chain ∧ Alone t live ∧
      (∀ r ∈ live, ∀ p, view t r p = view s r p) ∧ t.free = s.free := by
  unfold loadIn at loaded
  split_ifs at loaded with reads
  have books0 : Books { s with cr3 := root } managed live hand chain := books.congr rfl rfl rfl rfl
  have alone0 : Alone { s with cr3 := root } live := alone
  obtain ⟨aging, -, -⟩ := load_spec books0 member (low_of_user inside) loaded
  exact ⟨aging.books books0, alone0.aging aging, fun r live' p => view_aging books0 aging live' p,
    aging.free⟩

theorem loadIn_uppers (books : Books s managed live hand chain) {root : Word}
    (member : root ∈ live) (inside : address < userSpaceEnd) {value : Word}
    (loaded : loadIn s root address = some (value, t)) :
    ∀ r ∈ live, ∀ p, above t.words r p = above s.words r p := by
  unfold loadIn at loaded
  split_ifs at loaded
  have books0 : Books { s with cr3 := root } managed live hand chain := books.congr rfl rfl rfl rfl
  obtain ⟨aging, -, -⟩ := load_spec books0 member (low_of_user inside) loaded
  exact aging.uppers

theorem loadIn_view (books : Books s managed live hand chain) {root : Word} (member : root ∈ live)
    (inside : address < userSpaceEnd) :
    (loadIn s root address).map Prod.fst = (view s root (indexes address)).bind fun v =>
      if v.user then some (v.words (wordOf address)) else none := by
  have low := low_of_user inside
  have books0 : Books { s with cr3 := root } managed live hand chain := books.congr rfl rfl rfl rfl
  unfold loadIn view viewOf
  by_cases there : has (leafAt s.words root (indexes address)) present = true
  · rw [if_pos there, Option.bind_some]
    split_ifs with reads
    · obtain ⟨t, touched⟩ := touch_present (s := { s with cr3 := root }) low there accessed
      have loaded : load { s with cr3 := root } address = some
          (t.words (frameOf (leafAt s.words root (indexes address))) (wordOf address), t) := by
        unfold load
        rw [touched]
        rfl
      obtain ⟨-, -, value⟩ := load_spec books0 member low loaded
      rw [loaded, Option.map_some]
      exact congrArg some value
    · rfl
  · rw [if_neg there, Option.bind_none]
    split_ifs with reads
    · unfold load
      rw [touch_absent books0 member low (by decide) (Bool.eq_false_of_not_eq_true there)]
      rfl
    · rfl

end Accesses

section Runs

variable {managed : Finset Word} {k k' : Machine} {i : Eager}

theorem Follows.load (follows : Follows managed k i) {root address : Word}
    (taken : step k (.load root address) = some k') : Follows managed k' i := by
  obtain ⟨chain, books⟩ := follows.books
  simp only [step, Option.ite_none_right_eq_some] at taken
  obtain ⟨⟨member, inside⟩, taken⟩ := taken
  cases loaded : loadIn k.paging root address with
  | none =>
      rw [loaded] at taken
      obtain rfl := Option.some.inj taken
      exact follows
  | some found =>
      obtain ⟨value, t⟩ := found
      rw [loaded] at taken
      obtain rfl := Option.some.inj taken
      obtain ⟨books', alone, unseen, -⟩ := loadIn_spec books follows.alone member inside loaded
      exact ⟨⟨chain, books'⟩, alone, fun r live' p =>
        (unseen r live' p).trans (follows.pages r live' p)⟩

theorem Follows.store (follows : Follows managed k i) {root address value : Word}
    (free : k.paging.head ≠ 0) (taken : step k (.store root address value) = some k') :
    Follows managed k' (i.step (.store root address value)) := by
  classical
  obtain ⟨chain, books⟩ := follows.books
  simp only [step, Option.ite_none_right_eq_some, Option.some.injEq] at taken
  obtain ⟨⟨member, inside⟩, rfl⟩ := taken
  obtain ⟨done, stored⟩ := storeIn_spec books follows.alone member inside free value
  rw [follows.pages root member] at done
  refine ⟨stored.books, stored.alone, fun r live' p => ?_⟩
  rw [stored.pages r live' p, done, follows.pages r live' p]
  change _ = (if accepts (i.pages root (indexes address)) then _ else i : Eager).pages r p
  by_cases open' : accepts (i.pages root (indexes address)) = true
  · rw [if_pos open']
    by_cases here : r = root
    · subst here
      simp only [Function.update_self, open', true_and]
    · simp only [Function.update_of_ne here, here, false_and, and_false, if_false]
  · rw [if_neg open', if_neg fun both => open' both.1]

theorem Follows.step (follows : Follows managed k i) {e : Event} (free : provided k)
    (taken : step k e = some k') : Follows managed k' (i.step e) := by
  cases e with
  | create root => exact follows.create taken
  | map root address flags contents => exact follows.map taken
  | fork root child => exact follows.fork taken
  | load root address => exact follows.load taken
  | store root address value => exact follows.store free taken
  | destroy root => exact follows.destroy taken

/-- Events taken one after the other while a frame is free. -/
def runProvided : Machine → List Event → Option Machine :=
  runAll fun k e => if provided k then step k e else none

theorem Follows.run (follows : Follows managed k i) {events : List Event}
    (taken : runProvided k events = some k') : Follows managed k' (events.foldl Eager.step i) := by
  induction events generalizing k i with
  | nil =>
      obtain rfl := Option.some.inj taken
      exact follows
  | cons e rest ih =>
      obtain ⟨next, here, later⟩ := Option.bind_eq_some_iff.mp taken
      obtain ⟨free, here⟩ := Option.ite_none_right_eq_some.mp here
      exact ih (follows.step free here) later

def Eager.empty : Eager := ⟨fun _ _ => none⟩

theorem follows_booted {frames : List Word} (usable : Usable frames) :
    Follows frames.toFinset (booted frames) Eager.empty :=
  ⟨⟨_, init_books usable.1 usable.2⟩, fun _ member => absurd member (Finset.notMem_empty _),
    fun _ member => absurd member (Finset.notMem_empty _)⟩

private theorem reads_of_view {s t : Paging} {r : Word} {p : Nat → Index} {f : View → View}
    (same : view t r p = (view s r p).map f) (users : ∀ v, (f v).user = v.user)
    (there : has (leafAt t.words r p) present = true) (reads : has (leafAt t.words r p) user = true) :
    has (leafAt s.words r p) present = true ∧ has (leafAt s.words r p) user = true := by
  unfold view viewOf at same
  rw [if_pos there] at same
  obtain ⟨v, found, changed⟩ := Option.map_eq_some_iff.mp same.symm
  obtain ⟨there', found⟩ := Option.ite_none_right_eq_some.mp found
  obtain rfl := Option.some.inj found
  have kept := users ⟨s.words (frameOf (leafAt s.words r p)), has (leafAt s.words r p) user,
    grants (leafAt s.words r p)⟩
  rw [changed] at kept
  exact ⟨there', kept.symm.trans reads⟩

theorem admits_create (follows : Follows managed k i) (admits : Admits k.paging.words k.live)
    {root : Word} (free : provided k) (taken : step k (.create root) = some k') :
    Admits k'.paging.words k'.live := by
  obtain ⟨chain, books⟩ := follows.books
  cases chain with
  | nil => exact absurd (books.account.empty_iff.mpr rfl) free
  | cons made rest =>
      obtain ⟨s, new, -, facts⟩ := newSpace_made books
      simp only [step, new] at taken
      split_ifs at taken with same
      obtain rfl := same
      obtain rfl := Option.some.inj taken
      exact admits_made facts admits

theorem admits_map (follows : Follows managed k i) (admits : Admits k.paging.words k.live)
    {root address flags : Word} {contents : Table} (free : provided k)
    (taken : step k (.map root address flags contents) = some k') :
    Admits k'.paging.words k'.live := by
  classical
  obtain ⟨chain, books⟩ := follows.books
  simp only [step, Option.ite_none_right_eq_some] at taken
  obtain ⟨⟨member, -⟩, taken⟩ := taken
  cases chain with
  | nil => exact absurd (books.account.empty_iff.mpr rfl) free
  | cons frame rest =>
      obtain ⟨got, books0⟩ := books.take
      rw [got] at taken
      dsimp only at taken
      unfold mapIn at taken
      split_ifs at taken with high
      have trees := books0.trees_fill contents
      have before := admits.kept trees.uppers fun r member p there reads => by
        rw [trees.leaves r member p] at there reads
        exact ⟨there, reads⟩
      rcases run : mapPageIn _ root address frame flags with ⟨_ | _, s⟩
      · rw [run] at taken
        cases taken
      · rw [run] at taken
        obtain rfl := Option.some.inj taken
        exact mapPageIn_admits (books0.fill contents) member (indexes_low high) before run

theorem admits_fork (follows : Follows managed k i) (admits : Admits k.paging.words k.live)
    {root child : Word} (taken : step k (.fork root child) = some k') :
    Admits k'.paging.words k'.live := by
  obtain ⟨chain, books⟩ := follows.books
  simp only [step, Option.ite_none_right_eq_some] at taken
  obtain ⟨member, taken⟩ := taken
  rcases forked : PageTables.fork k.paging root with ⟨_ | made, s⟩
  · rw [forked] at taken
    cases taken
  · rw [forked] at taken
    dsimp only at taken
    split_ifs at taken with same
    obtain rfl := same
    obtain rfl := Option.some.inj taken
    exact fork_admits books member admits forked

theorem admits_load (follows : Follows managed k i) (admits : Admits k.paging.words k.live)
    {root address : Word} (taken : step k (.load root address) = some k') :
    Admits k'.paging.words k'.live := by
  obtain ⟨chain, books⟩ := follows.books
  simp only [step, Option.ite_none_right_eq_some] at taken
  obtain ⟨⟨member, inside⟩, taken⟩ := taken
  cases loaded : loadIn k.paging root address with
  | none =>
      rw [loaded] at taken
      obtain rfl := Option.some.inj taken
      exact admits
  | some found =>
      obtain ⟨value, t⟩ := found
      rw [loaded] at taken
      obtain rfl := Option.some.inj taken
      obtain ⟨-, -, unseen, -⟩ := loadIn_spec books follows.alone member inside loaded
      refine admits.kept (loadIn_uppers books member inside loaded) fun r live p =>
        reads_of_view (f := id) ?_ fun _ => rfl
      rw [unseen r live p, Option.map_id_apply]

theorem admits_store (follows : Follows managed k i) (admits : Admits k.paging.words k.live)
    {root address value : Word} (free : provided k)
    (taken : step k (.store root address value) = some k') :
    Admits k'.paging.words k'.live := by
  classical
  obtain ⟨chain, books⟩ := follows.books
  simp only [step, Option.ite_none_right_eq_some, Option.some.injEq] at taken
  obtain ⟨⟨member, inside⟩, rfl⟩ := taken
  obtain ⟨-, stored⟩ := storeIn_spec books follows.alone member inside free value
  refine admits.kept stored.uppers fun r live p => ?_
  have pages := stored.pages r live p
  split_ifs at pages
  · exact reads_of_view pages fun _ => rfl
  · exact reads_of_view (f := id) (by rw [pages, Option.map_id_apply]) fun _ => rfl

theorem admits_destroy (follows : Follows managed k i) (admits : Admits k.paging.words k.live)
    {root : Word} (taken : step k (.destroy root) = some k') :
    Admits k'.paging.words k'.live := by
  obtain ⟨chain, books⟩ := follows.books
  simp only [step, Option.ite_none_right_eq_some, Option.some.injEq] at taken
  obtain ⟨member, rfl⟩ := taken
  obtain ⟨freed, -, -, trees⟩ := destroy_spec books member
  have rest : Admits k.paging.words (k.live.erase root) := fun r live =>
    admits r (Finset.mem_of_mem_erase live)
  refine rest.kept trees.uppers fun r live p there reads => ?_
  rw [trees.leaves r live p] at there reads
  exact ⟨there, reads⟩

theorem admits_step (follows : Follows managed k i) (admits : Admits k.paging.words k.live)
    {e : Event} (free : provided k) (taken : step k e = some k') :
    Admits k'.paging.words k'.live := by
  cases e with
  | create root => exact admits_create follows admits free taken
  | map root address flags contents => exact admits_map follows admits free taken
  | fork root child => exact admits_fork follows admits taken
  | load root address => exact admits_load follows admits taken
  | store root address value => exact admits_store follows admits free taken
  | destroy root => exact admits_destroy follows admits taken

theorem admits_run (follows : Follows managed k i) (admits : Admits k.paging.words k.live)
    {events : List Event} (taken : runProvided k events = some k') :
    Admits k'.paging.words k'.live := by
  induction events generalizing k i with
  | nil =>
      obtain rfl := Option.some.inj taken
      exact admits
  | cons e rest ih =>
      obtain ⟨next, here, later⟩ := Option.bind_eq_some_iff.mp taken
      obtain ⟨free, here⟩ := Option.ite_none_right_eq_some.mp here
      exact ih (follows.step free here) (admits_step follows admits free here) later

/-- To test USER at the entry of a page is to test it at every level: no table on the way to a
user page refuses ring 3. -/
theorem leaf_decides {frames : List Word} (usable : Usable frames) {events : List Event}
    (run : runProvided (booted frames) events = some k) {root : Word} (member : root ∈ k.live)
    {address : Word} (inside : address < userSpaceEnd) :
    pageAccessible k.paging address 3 root =
      (has (leafAt k.paging.words root (indexes address)) present &&
        has (leafAt k.paging.words root (indexes address)) user) := by
  have follows := follows_booted usable
  obtain ⟨chain, books⟩ := (follows.run run).books
  exact pageAccessible_leaf books member (low_of_user inside)
    (admits_run follows (fun _ none => absurd none (Finset.notMem_empty _)) run)

theorem writable_mapped (events : List Event) {root : Word} {p : Nat → Index} {v : View}
    (there : (events.foldl Eager.step Eager.empty).pages root p = some v)
    (writes : v.writable = true) :
    ∃ r place flags contents, Event.map r place flags contents ∈ events ∧
      has flags writable = true ∧ SamePage p (indexes place) := by
  classical
  induction events using List.reverseRecOn generalizing root v with
  | nil => cases there
  | append_singleton before e ih =>
      have older : ∀ {root : Word} {v : View},
          (before.foldl Eager.step Eager.empty).pages root p = some v → v.writable = true →
          ∃ r place flags contents, Event.map r place flags contents ∈ before ++ [e] ∧
            has flags writable = true ∧ SamePage p (indexes place) := by
        intro root v there writes
        obtain ⟨r, place, flags, contents, inside, rest⟩ := ih there writes
        exact ⟨r, place, flags, contents, List.mem_append_left [e] inside, rest⟩
      rw [List.foldl_append, List.foldl_cons, List.foldl_nil] at there
      generalize before.foldl Eager.step Eager.empty = i at older there
      cases e with
      | create new =>
          simp only [Eager.step, Function.update_apply] at there
          split_ifs at there with same
          exact older there writes
      | map new place flags contents =>
          by_cases same : root = new
          · subst same
            simp only [Eager.step, Function.update_self] at there
            split_ifs at there with here
            · obtain rfl := Option.some.inj there
              exact ⟨root, place, flags, contents,
                List.mem_append_right before (List.mem_singleton_self _), writes, here⟩
            · exact older there writes
          · simp only [Eager.step, Function.update_of_ne same] at there
            exact older there writes
      | fork parent child =>
          simp only [Eager.step, Function.update_apply] at there
          split_ifs at there with same
          · exact older there writes
          · exact older there writes
      | load r place => exact older there writes
      | store r place value =>
          simp only [Eager.step] at there
          split_ifs at there with open'
          · by_cases same : root = r
            · subst same
              simp only [Function.update_self] at there
              split_ifs at there with here
              · obtain ⟨w, old, rfl⟩ := Option.map_eq_some_iff.mp there
                exact older old writes
              · exact older there writes
            · simp only [Function.update_of_ne same] at there
              exact older there writes
          · exact older there writes
      | destroy r =>
          simp only [Eager.step, Function.update_apply] at there
          split_ifs at there with same
          exact older there writes

/-- Whatever is forked, loaded, stored and destroyed while frames are free, every space
finds at every user address what it would find had every fork copied every page: a load
gives the same word or faults where that one would, a store is refused where that one would
be, as in every page that was never mapped writable, and no other space sees it. -/
theorem forks_as_copies {frames : List Word} (usable : Usable frames) {events : List Event}
    {k : Machine} (run : runProvided (booted frames) events = some k) (free : provided k) :
    ∀ root ∈ k.live, ∀ address, address < userSpaceEnd →
      (loadIn k.paging root address).map Prod.fst =
          (events.foldl Eager.step Eager.empty).load root address ∧
        ∀ value, (storeIn k.paging root address value).1 =
            (events.foldl Eager.step Eager.empty).accepts root address ∧
          ((storeIn k.paging root address value).1 = true → ∃ r place flags contents,
            Event.map r place flags contents ∈ events ∧ has flags writable = true ∧
              SamePage (indexes address) (indexes place)) ∧
          ∀ other ∈ k.live, other ≠ root → ∀ place, place < userSpaceEnd →
            (loadIn (storeIn k.paging root address value).2 other place).map Prod.fst =
              (loadIn k.paging other place).map Prod.fst := by
  classical
  intro root member address inside
  have follows := (follows_booted usable).run run
  obtain ⟨chain, books⟩ := follows.books
  refine ⟨?_, fun value => ?_⟩
  · rw [loadIn_view books member inside, follows.pages root member]
    rfl
  obtain ⟨done, stored⟩ := storeIn_spec books follows.alone member inside free value
  rw [follows.pages root member] at done
  refine ⟨done, fun accepted => ?_, fun other member' apart place inside' => ?_⟩
  · rw [done] at accepted
    obtain ⟨v, there, open'⟩ := (Option.any_eq_true _ _).mp accepted
    exact writable_mapped events there (Bool.and_eq_true _ _ ▸ open').2
  · obtain ⟨chain', books'⟩ := stored.books
    rw [loadIn_view books' member' inside', loadIn_view books member' inside', stored.pages other member',
      if_neg fun both => apart both.2.1]

private def fifteenFrames : List Word :=
  (List.range 15).reverse.map fun n => BitVec.ofNat 64 (0x100000 + 0x1000 * n)

/-- A space with one page, its child and its grandchild; the child stores. -/
private def threeGenerations : List Event :=
  [.create 0x100000, .map 0x100000 0x400000 (user ||| writable) fun _ => 7,
    .fork 0x100000 0x105000, .fork 0x105000 0x109000, .store 0x105000 0x400008 8]

theorem forks_as_copies_threeGenerations : ∃ k,
    runProvided (booted fifteenFrames) threeGenerations = some k ∧
      (loadIn k.paging 0x105000 0x400008).map Prod.fst =
        (threeGenerations.foldl Eager.step Eager.empty).load 0x105000 0x400008 := by
  have all : (fifteenFrames.all fun f => decide (Framed f)) = true := by decide +kernel
  have usable : Usable fifteenFrames :=
    ⟨fun f inside => of_decide_eq_true (List.all_eq_true.mp all f inside), by decide +kernel⟩
  have taken : ((runProvided (booted fifteenFrames) threeGenerations).map fun k =>
      (k.live, decide (provided k))) = some ({0x100000, 0x105000, 0x109000}, true) := by
    decide +kernel
  obtain ⟨k, run, shape⟩ := Option.map_eq_some_iff.mp taken
  obtain ⟨live, free⟩ := Prod.mk.inj shape
  refine ⟨k, run, (forks_as_copies usable run (of_decide_eq_true free) 0x105000 ?_ 0x400008
    (by decide)).1⟩
  rw [live]
  decide

end Runs

end FiveAM.Memory.EagerCopies
