/- GID: FiveAM/Memory/CopyOnWrite
   source: kernel/src/memory.rs
   digest: What a copy-on-write fault and the growth of a stack do while a frame is free. -/

import FiveAM.Memory.Conservation

set_option autoImplicit false
set_option relaxedAutoImplicit false

namespace FiveAM.Memory.CopyOnWrite

open FiveAM.Process.TaskTable (Word)
open FiveAM.Memory.Entries FiveAM.Memory.Frames FiveAM.Memory.Replace FiveAM.Memory.PageTables
open FiveAM.Memory.Swap FiveAM.Memory.Ownership FiveAM.Memory.Return FiveAM.Memory.Spaces
open FiveAM.Memory.Teardown FiveAM.Memory.Conservation FiveAM.Lib.RadixTables

section Words

/-- The entry of a page that its space has to itself, in this frame. -/
def owned (frame e : Word) : Word := frame ||| ((flagsOf e ||| writable) &&& ~~~cow)

def Guarded (e : Word) : Prop :=
  has e present = true ∧ has e cow = true ∧ has e writable = false

instance (e : Word) : Decidable (Guarded e) := inferInstanceAs (Decidable (_ ∧ _))

variable {frame e : Word}

theorem owned_self (e : Word) : (e ||| writable) &&& ~~~cow = owned (frameOf e) e := by
  have clear : frameOf e &&& ~~~cow = frameOf e := by
    unfold frameOf
    rw [BitVec.and_assoc, show addressMask &&& ~~~cow = addressMask from by decide]
  calc (e ||| writable) &&& ~~~cow
      = ((frameOf e ||| flagsOf e) ||| writable) &&& ~~~cow := by rw [frameOf_or_flagsOf]
    _ = (frameOf e &&& ~~~cow) ||| ((flagsOf e ||| writable) &&& ~~~cow) := by
        rw [BitVec.or_assoc, BitVec.and_or_distrib_right]
    _ = owned (frameOf e) e := by rw [clear, owned]

private theorem address_bit (address : frameOf frame = frame) {k : Nat}
    (outside : addressMask.getLsbD k = false) : frame.getLsbD k = false := by
  rw [← address]
  exact frameOf_bit frame outside

private theorem owned_bit (address : frameOf frame = frame) {k : Nat} (low : k < 64)
    (outside : addressMask.getLsbD k = false) :
    (owned frame e).getLsbD k = ((e.getLsbD k || writable.getLsbD k) && !cow.getLsbD k) := by
  unfold owned
  rw [BitVec.getLsbD_or, BitVec.getLsbD_and, BitVec.getLsbD_or, BitVec.getLsbD_not,
    address_bit address outside, flagsOf_bit e low outside]
  simp [low]

theorem frameOf_owned (address : frameOf frame = frame) : frameOf (owned frame e) = frame := by
  have flags : frameOf ((flagsOf e ||| writable) &&& ~~~cow) = 0 := by
    rw [frameOf_and, frameOf_or, frameOf_flagsOf, show frameOf writable = 0 from by decide]
    simp
  unfold owned
  rw [frameOf_or, address, flags]
  exact BitVec.or_zero

theorem writable_owned (address : frameOf frame = frame) : has (owned frame e) writable = true := by
  rw [has_writable, owned_bit address (by decide) (by decide)]
  simp only [show writable.getLsbD 1 = true from by decide, show cow.getLsbD 1 = false from by decide,
    Bool.or_true, Bool.not_false, Bool.and_true]

private theorem owned_same (address : frameOf frame = frame) {k : Nat} (low : k < 64)
    (outside : addressMask.getLsbD k = false) (unset : writable.getLsbD k = false)
    (other : cow.getLsbD k = false) : (owned frame e).getLsbD k = e.getLsbD k := by
  rw [owned_bit address low outside, unset, other]
  simp

theorem present_owned (address : frameOf frame = frame) :
    has (owned frame e) present = has e present := by
  rw [has_present, has_present]
  exact owned_same address (by decide) (by decide) (by decide) (by decide)

theorem user_owned (address : frameOf frame = frame) : has (owned frame e) user = has e user := by
  rw [has_user, has_user]
  exact owned_same address (by decide) (by decide) (by decide) (by decide)

theorem cow_owned (address : frameOf frame = frame) : has (owned frame e) cow = false := by
  rw [has_cow, owned_bit address (by decide) (by decide)]
  simp only [show cow.getLsbD 9 = true from by decide, Bool.not_true, Bool.and_false]

end Words

section Pages

variable {s : Paging} {managed live : Finset Word} {hand chain : List Word} {root u : Word}

theorem low_of_user {address : Word} (inside : address < userSpaceEnd) : indexes address 3 = 0 :=
  indexes_low (BitVec.not_le.mpr inside)

theorem page_of_user {address : Word} (inside : address < userSpaceEnd) :
    ¬userSpaceEnd ≤ pageOf address := by
  have below : (pageOf address).toNat ≤ address.toNat := by
    unfold pageOf
    rw [BitVec.toNat_and]
    exact Nat.and_le_left
  have bound : address.toNat < userSpaceEnd.toNat := inside
  rw [BitVec.le_def]
  omega

theorem page_of_kernel {address : Word} (outside : ¬address < userSpaceEnd) :
    userSpaceEnd ≤ pageOf address := by
  have bound : userSpaceEnd.toNat ≤ address.toNat := BitVec.not_lt.mp outside
  have limit : userSpaceEnd.toNat = 2 ^ 39 := by decide
  have page : (pageOf address).toNat / 2 ^ 12 = address.toNat / 2 ^ 12 := page_toNat address
  rw [BitVec.le_def]
  omega

theorem fill_page (books : Books s managed live hand chain) {frame : Word}
    (named : 0 < refCount s.words live frame) (contents : Table) :
    TreesKept s.words (s.fill frame contents).words live ∧
      Books (s.fill frame contents) managed live hand chain := by
  obtain ⟨table, free, -, -⟩ := books.page named
  have trees : TreesKept s.words (s.fill frame contents).words live := by
    refine trees_kept fun f there => Function.update_of_ne (fun same => ?_) _ _
    rw [same, table] at there
    exact Nat.lt_irrefl 0 there
  refine ⟨trees, ⟨?_, books.account.count, fun f => ?_, fun f => ?_, books.account.shared,
    books.account.framed⟩, trees.sound books.sound⟩
  · refine books.account.linked.congr fun f inside => Function.update_of_ne (fun same => ?_) _ _
    exact free (same ▸ inside)
  · rw [trees.tables, trees.refs]
    exact books.account.once f
  · rw [trees.refs]
    exact books.account.owners f

end Pages

section Faults

variable {s s' : Paging} {managed live : Finset Word} {hand chain : List Word} {root : Word}
  {path : Nat → Index} {address : Word}

/-- What repairing one page changes: its entry, and the contents of the frames
`fresh`, which were nobody's. -/
structure Repaired (s s' : Paging) (live : Finset Word) (root : Word) (path : Nat → Index)
    (e : Word) (fresh : List Word) : Prop where
  leaves : ∀ r ∈ live, ∀ p [Decidable (r = root ∧ SamePage p path)], leafAt s'.words r p =
    if r = root ∧ SamePage p path then e else leafAt s.words r p
  uppers : ∀ r ∈ live, ∀ p, above s'.words r p = above s.words r p
  kept : ∀ f, tableCount s.words live f = 0 → f ∉ fresh → s'.words f = s.words f
  cr3 : s'.cr3 = s.cr3
  used : s'.used = s.used
  disk : s'.disk = s.disk

/-- How `cow_fault` can end while a frame is free. -/
inductive Repairs (s : Paging) (managed live : Finset Word) (hand chain : List Word)
    (address : Word) : Bool × Paging → Prop where
  | refused (plain : ¬Guarded (leafAt s.words s.cr3 (indexes address))) :
      Repairs s managed live hand chain address (false, s)
  | copied {fresh : Word} {rest : List Word} {s' : Paging}
      (guarded : Guarded (leafAt s.words s.cr3 (indexes address))) (first : chain = fresh :: rest)
      (several : 1 < s.shareCount (frameOf (leafAt s.words s.cr3 (indexes address))))
      (books : Books s' managed live hand rest)
      (repaired : Repaired s s' live s.cr3 (indexes address)
        (owned fresh (leafAt s.words s.cr3 (indexes address))) [fresh])
      (holds : s'.words fresh = s.words (frameOf (leafAt s.words s.cr3 (indexes address)))) :
      Repairs s managed live hand chain address (true, s')
  | kept {s' : Paging} (guarded : Guarded (leafAt s.words s.cr3 (indexes address)))
      (single : ¬1 < s.shareCount (frameOf (leafAt s.words s.cr3 (indexes address))))
      (books : Books s' managed live hand chain)
      (repaired : Repaired s s' live s.cr3 (indexes address)
        (owned (frameOf (leafAt s.words s.cr3 (indexes address)))
          (leafAt s.words s.cr3 (indexes address))) []) :
      Repairs s managed live hand chain address (true, s')

theorem cowFault_route (inside : address < userSpaceEnd) {u : Word}
    (route : Route userTree s.words (indexes address) 3 s.cr3 0 u) :
    cowFault s address =
      if Guarded (s.words u (indexes address 0)) then
        if 1 < s.shareCount (frameOf (s.words u (indexes address 0))) then
          match allocateOrEvict (s.unshare (frameOf (s.words u (indexes address 0)))).2 with
          | (none, t) => (false, t)
          | (some fresh, t) =>
              (true, (t.fill fresh (t.words (frameOf (s.words u (indexes address 0))))).write u
                (indexes address 0) (owned fresh (s.words u (indexes address 0))))
        else (true, s.write u (indexes address 0)
          (owned (frameOf (s.words u (indexes address 0))) (s.words u (indexes address 0))))
      else (false, s) := by
  have found : plainTable s (pageOf address) 3 s.cr3 = some u := by
    refine (plainTable_iff (by rw [indexes_pageOf]; exact low_of_user inside)).mpr ?_
    exact route.indexes fun j _ _ => indexes_pageOf address j
  unfold cowFault
  simp only [found, if_neg (page_of_user inside), indexes_pageOf,
    owned_self (s.words u (indexes address 0))]
  by_cases guarded : Guarded (s.words u (indexes address 0))
  · obtain ⟨there, waits, closed⟩ := guarded
    rw [if_neg (by simp [there, waits, closed]), if_pos (c := Guarded _) ⟨there, waits, closed⟩]
    rfl
  · rw [if_neg guarded, if_pos]
    unfold Guarded at guarded
    by_contra other
    simp only [not_or, Bool.not_eq_false, Bool.not_eq_true] at other
    exact guarded other

theorem cowFault_nowhere (inside : address < userSpaceEnd)
    (nowhere : ∀ u, ¬Route userTree s.words (indexes address) 3 s.cr3 0 u) :
    cowFault s address = (false, s) := by
  have missing : plainTable s (pageOf address) 3 s.cr3 = none := by
    refine Option.eq_none_iff_forall_ne_some.mpr fun u found => nowhere u ?_
    have route := (plainTable_iff (by rw [indexes_pageOf]; exact low_of_user inside)).mp found
    exact route.indexes fun j _ _ => (indexes_pageOf address j).symm
  unfold cowFault
  simp only [missing, if_neg (page_of_user inside)]

theorem cowFault_kernel (outside : ¬address < userSpaceEnd) :
    cowFault s address = (false, s) := if_pos (page_of_kernel outside)

theorem leafAt_nowhere {m : Words} (nowhere : ∀ u, ¬Route userTree m path 3 root 0 u) :
    leafAt m root path = 0 := by
  rcases route_of_entryAt (R := userTree) m 3 root path with ⟨u, route, -⟩ | blank
  · exact absurd route (nowhere u)
  · exact blank

theorem moved_out {fresh u e : Word} (books : Books s managed live (fresh :: hand) chain)
    (member : root ∈ live) (route : Route userTree s.words path 3 root 0 u)
    (word : s.words u (path 0) = e) (there : has e present = true)
    (several : 1 < s.shareCount (frameOf e)) :
    Books { (s.fill fresh (s.words (frameOf e))).write u (path 0) (owned fresh e) with
        shared := (s.unshare (frameOf e)).2.shared } managed live hand chain ∧
      Repaired s { (s.fill fresh (s.words (frameOf e))).write u (path 0) (owned fresh e) with
        shared := (s.unshare (frameOf e)).2.shared } live root path (owned fresh e) [fresh] ∧
      ((s.fill fresh (s.words (frameOf e))).write u (path 0) (owned fresh e)).words fresh =
        s.words (frameOf e) := by
  obtain ⟨unnamed, untabled, -, -, inside⟩ := books.held
  have address := (books.account.framed fresh inside).2
  have apart : u ≠ fresh := fun same =>
    (books.table member route).2.2.1 (same ▸ List.mem_cons_self)
  have filled := books.fill (s.words (frameOf e))
  have trees := books.trees_fill (s.words (frameOf e))
  have route1 := trees.routes root member path 0 u route
  have word1 : (s.fill fresh (s.words (frameOf e))).words u (path 0) = e := by
    rw [← word]
    simp only [Paging.fill, Function.update_of_ne apart]
  have other : frameOf e ≠ fresh := by
    intro same
    have count := books.account.owners (frameOf e)
    rw [same, unnamed, ← same] at count
    omega
  obtain ⟨ok, counts⟩ := Paging.unshare_spec books.account.shared (frameOf e)
  have sets := LeafSet.write filled member route1 (owned fresh e)
  refine ⟨filled.leaf member route1 ok fun f n change => ?_, ⟨fun r live' p _ => ?_,
    fun r live' p => ?_, fun f absent outside => ?_, rfl, rfl, rfl⟩, ?_⟩
  · rw [word1, trees.refs] at change
    have count := counts f
    rw [Paging.shareCount_eq] at count
    rw [count, trees.refs, books.account.owners f, books.account.owners (frameOf e)]
    rw [books.account.owners (frameOf e)] at several
    have there' : has (owned fresh e) present = true := (present_owned address).trans there
    by_cases here : f = frameOf e
    · subst here
      rw [names_self there rfl, names_other (frameOf_owned address) other, Nat.add_zero] at change
      rw [if_pos rfl, List.count_cons_of_ne other.symm, if_pos (by omega), if_pos (by omega)]
      exact ⟨rfl, by omega⟩
    · rw [if_neg here]
      rw [names_other rfl here, Nat.add_zero] at change
      by_cases new : f = fresh
      · subst new
        rw [names_self there' (frameOf_owned address), unnamed] at change
        rw [unnamed, change, List.count_cons_self]
        exact ⟨rfl, rfl⟩
      · rw [names_other (frameOf_owned address) new, Nat.add_zero] at change
        rw [change, List.count_cons_of_ne (Ne.symm new)]
        exact ⟨rfl, rfl⟩
  · rw [← trees.leaves r live' p]
    exact sets.leaves r live' p
  · exact (sets.uppers r live' p).trans (trees.uppers r live' p)
  · refine (sets.data member ((trees.tables f).trans absent)).trans ?_
    exact Function.update_of_ne (fun same => outside (List.mem_singleton.mpr same)) _ _
  · simp only [Paging.write, Paging.fill, Function.update_of_ne apart.symm, Function.update_self]

private theorem unshared_first (s : Paging) (frame head fresh u : Word) (free : Nat) (i : Index)
    (w : Word) :
    ({ (s.unshare frame).2 with head := head, free := free }.fill fresh
        ((s.unshare frame).2.words frame)).write u i w =
      { (({ s with head := head, free := free } : Paging).fill fresh (s.words frame)).write u i w with
        shared := (({ s with head := head, free := free } : Paging).unshare frame).2.shared } := by
  cases found : s.shared.findIdx? fun owned => owned.1 == frame <;>
    simp only [Paging.unshare, found] <;> rfl

theorem cowFault_spec (books : Books s managed live hand chain) (member : s.cr3 ∈ live)
    (inside : address < userSpaceEnd) (free : s.head ≠ 0) :
    Repairs s managed live hand chain address (cowFault s address) := by
  by_cases nowhere : ∀ u, ¬Route userTree s.words (indexes address) 3 s.cr3 0 u
  · rw [cowFault_nowhere inside nowhere]
    refine .refused fun guarded => ?_
    rw [leafAt_nowhere nowhere] at guarded
    exact absurd guarded (by decide)
  obtain ⟨u, route⟩ : ∃ u, Route userTree s.words (indexes address) 3 s.cr3 0 u := by
    by_contra none
    exact nowhere fun u route => none ⟨u, route⟩
  have word : s.words u (indexes address 0) = leafAt s.words s.cr3 (indexes address) := by
    rw [leafAt, entryAt_route route]
  rw [cowFault_route inside route, word]
  generalize leaf : leafAt s.words s.cr3 (indexes address) = e at word ⊢
  by_cases guarded : Guarded e
  swap
  · rw [if_neg guarded]
    exact .refused (leaf ▸ guarded)
  rw [if_pos guarded]
  have there : 0 < refCount s.words live (frameOf e) := by
    rw [← leaf]
    exact refCount_pos member (leaf ▸ guarded.1)
  by_cases several : 1 < s.shareCount (frameOf e)
  · rw [if_pos several]
    cases chain with
    | nil => exact absurd (books.account.empty_iff.mpr rfl) free
    | cons fresh rest =>
        obtain ⟨taken, books1⟩ := books.take
        have handed : allocateOrEvict (s.unshare (frameOf e)).2 =
            (some fresh, { (s.unshare (frameOf e)).2 with
              head := s.words fresh 0, free := s.free - 1 }) := by
          unfold allocateOrEvict
          rw [unshare_eq]
          unfold Paging.allocate at taken ⊢
          rw [if_neg free] at taken ⊢
          simp only [Prod.mk.injEq, Option.some.injEq] at taken ⊢
          rw [taken.1]
          exact ⟨rfl, rfl⟩
        obtain ⟨books2, repaired, holds⟩ := moved_out books1 member route word guarded.1 several
        rw [handed]
        dsimp only
        rw [unshared_first]
        refine .copied (leaf ▸ guarded) rfl (leaf ▸ several) books2 ?_ (leaf ▸ holds)
        rw [leaf]
        exact ⟨repaired.leaves, repaired.uppers, repaired.kept, rfl, rfl, rfl⟩
  · rw [if_neg several]
    have address' := frameOf_frameOf e
    have sets := LeafSet.write books member route (owned (frameOf e) e)
    refine .kept (leaf ▸ guarded) (leaf ▸ several) (books.recolor member route fun f => ?_) ?_
    · unfold names
      rw [word, present_owned address', frameOf_owned address']
    · rw [leaf]
      exact ⟨sets.leaves, sets.uppers, fun f absent _ => sets.data member absent, rfl, rfl, rfl⟩

theorem translateFrom_present {level : Nat} {table u : Word}
    (route : Route userTree s.words path level table 0 u)
    (same : ∀ j, j ≤ level → indexes address j = path j)
    (there : has (s.words u (path 0)) present = true) :
    (translateFrom s address level table).isSome = true := by
  generalize bottom : 0 = l at route
  induction route with
  | here n t =>
      subst bottom
      unfold translateFrom
      rw [same 0 (Nat.le_refl 0), if_neg (by simp [there])]
      rfl
  | @down n k t c u step rest ih =>
      obtain ⟨leads, small, -, rfl⟩ := child_some step
      unfold translateFrom
      dsimp only
      rw [same (n + 1) (Nat.le_refl _), if_neg (by simp [leads]), if_neg (by simp [small]),
        Option.isSome_map]
      exact ih (fun j low => same j (Nat.le_succ_of_le low)) there bottom

/-- How `demand_fault` can end while a frame is free. -/
inductive Grows (s : Paging) (managed live : Finset Word) (hand chain : List Word)
    (address : Word) : Option Word × Paging → Prop where
  | declined : Grows s managed live hand chain address (none, s)
  | short {fresh : Word} {rest : List Word} {s' : Paging} (first : chain = fresh :: rest)
      (few : rest.length < missing s.words s.cr3 address)
      (books : Books s' managed live (fresh :: hand) [])
      (builds : Builds s s' live s.cr3 (indexes address) rest) :
      Grows s managed live hand chain address (none, s')
  | grown {fresh : Word} {rest : List Word} {s' : Paging} (first : chain = fresh :: rest)
      (room : missing s.words s.cr3 address ≤ rest.length)
      (absent : has (leafAt s.words s.cr3 (indexes address)) present = false)
      (books : Books s' managed live hand (rest.drop (missing s.words s.cr3 address)))
      (leaves : ∀ r ∈ live, ∀ p [Decidable (r = s.cr3 ∧ SamePage p (indexes address))],
        leafAt s'.words r p = if r = s.cr3 ∧ SamePage p (indexes address) then
          leafFor fresh (user ||| writable) else leafAt s.words r p)
      (zero : s'.words fresh = fun _ => 0) :
      Grows s managed live hand chain address (some (pageOf address), s')

theorem demandFault_open (books : Books s managed live hand chain) (member : s.cr3 ∈ live)
    (inside : address < userSpaceEnd) (free : s.head ≠ 0) {top limit : Word}
    (reached : ¬(top = 0 ∨ top ≤ address)) (guarded : ¬pageOf address < limit)
    (mapped : ¬(translate s (pageOf address)).isSome = true) :
    Grows s managed live hand chain address (demandFault s top limit address) ∧
      (missing s.words s.cr3 address < chain.length →
        (demandFault s top limit address).1 = some (pageOf address)) := by
  have turns : indexes (pageOf address) = indexes address := funext (indexes_pageOf address)
  have low : indexes (pageOf address) 3 = 0 := turns ▸ low_of_user inside
  unfold demandFault
  dsimp only
  rw [if_neg reached, if_neg guarded, if_neg mapped]
  cases chain with
  | nil => exact absurd (books.account.empty_iff.mpr rfl) free
  | cons fresh rest =>
      obtain ⟨taken, books1⟩ := books.take
      unfold allocateOrEvict
      rw [taken]
      dsimp only
      have mapping := mapPageIn_spec fresh (user ||| writable) books1 member low
      unfold mapPage
      generalize mapPageIn _ s.cr3 (pageOf address) fresh (user ||| writable) = answer at mapping ⊢
      cases mapping with
      | short few books2 builds =>
          rw [missing, turns] at few
          rw [turns] at builds
          refine ⟨.short rfl few books2 ⟨builds.counts, builds.tree, builds.leaves, builds.ways,
            builds.kept, builds.shared, builds.cr3, builds.replacers, builds.used, builds.disk⟩,
            fun room => ?_⟩
          have enough : rest.length < missing s.words s.cr3 address := few
          rw [List.length_cons] at room
          omega
      | taken there books2 builds =>
          rw [turns] at there
          rcases route_of_entryAt (R := userTree) s.words 3 s.cr3 (indexes address) with
            ⟨u, route, reads⟩ | blank
          · rw [leafAt, reads] at there
            exact absurd (translateFrom_present route (fun j _ => indexes_pageOf address j) there)
              mapped
          · rw [leafAt, blank] at there
            exact absurd there (by decide)
      | @mapped s2 u room absent books2 builds route =>
          have flags : frameOf (user ||| writable) = 0 := by decide
          obtain ⟨books3, maps⟩ := mapped_fresh _ books2 builds member route absent flags
          have framed := books1.account.framed fresh books1.held.2.2.2.2
          dsimp only
          generalize arrived _ (pageOf address) (user ||| writable) = s3 at books3 maps ⊢
          rw [missing, turns] at room books3
          rw [turns] at maps absent
          have leaf : leafAt s3.words s.cr3 (indexes address) = leafFor fresh (user ||| writable) := by
            classical
            rw [maps.leaves s.cr3 member, if_pos ⟨rfl, fun _ _ => rfl⟩]
          have frame : frameOf (leafFor fresh (user ||| writable)) = fresh :=
            (frameOf_leafFor flags).trans framed.2
          have named := refCount_pos member (by rw [leaf]; exact present_leafFor _ _)
          rw [leaf, frame] at named
          obtain ⟨trees, books4⟩ := fill_page books3 named fun _ => 0
          refine ⟨.grown rfl room absent books4 (fun r live' p _ => ?_) (Function.update_self ..),
            fun _ => rfl⟩
          rw [trees.leaves r live' p, maps.leaves r live' p]

/-- While a frame is free, a stack that grows keeps the books, but for the frame it
had taken where the tables for the page run out. -/
theorem demandFault_spec (books : Books s managed live hand chain) (member : s.cr3 ∈ live)
    (inside : address < userSpaceEnd) (free : s.head ≠ 0) (top limit : Word) :
    Grows s managed live hand chain address (demandFault s top limit address) := by
  by_cases reached : top = 0 ∨ top ≤ address
  · unfold demandFault
    rw [if_pos reached]
    exact .declined
  by_cases guarded : pageOf address < limit
  · unfold demandFault
    simp only [if_neg reached, if_pos guarded]
    exact .declined
  by_cases mapped : (translate s (pageOf address)).isSome = true
  · unfold demandFault
    simp only [if_neg reached, if_neg guarded, if_pos mapped]
    exact .declined
  exact (demandFault_open books member inside free reached guarded mapped).1

end Faults

end FiveAM.Memory.CopyOnWrite
