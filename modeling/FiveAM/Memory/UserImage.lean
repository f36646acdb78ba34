/- GID: FiveAM/Memory/UserImage
   source: kernel/src/memory.rs
   digest: A space made from nothing as an image: which pages it has, what is in them and what may be done there. -/

import FiveAM.Memory.UserBytes
import FiveAM.Memory.UserWays

set_option autoImplicit false
set_option relaxedAutoImplicit false

namespace FiveAM.Memory.UserImage

open FiveAM.Process.TaskTable (Word)
open FiveAM.Memory.Entries FiveAM.Memory.Frames FiveAM.Memory.Replace FiveAM.Memory.PageTables
open FiveAM.Memory.Ownership FiveAM.Memory.Residency FiveAM.Memory.Contents FiveAM.Memory.Spaces
open FiveAM.Memory.Swap FiveAM.Memory.CopyOnWrite FiveAM.Memory.StackGrowth FiveAM.Memory.UserAccess
open FiveAM.Memory.UserWays FiveAM.Memory.UserBytes FiveAM.Memory.KernelStores
open FiveAM.Lib.RadixTables FiveAM.Memory.Conservation
open FiveAM.Memory.Teardown
open FiveAM.Memory.Return (plainTable_iff)

variable {s s' before : Paging} {managed live : Finset Word} {hand chain : List Word} {root : Word}

section Ways

variable {P : Word → Prop} {path : Nat → Index} {k : Nat} {u c e : Word}

/-- Every entry above a page of a space has a property. -/
def AllWays (P : Word → Prop) (m : Words) (root : Word) : Prop :=
  ∀ p, ∀ e ∈ trail m 3 root p, P e

private theorem ways_widen (books : Books s managed live hand chain) (member : root ∈ live)
    (route : Route userTree s.words path 3 root (k + 1) u)
    (down : userTree.child (k + 1) (path (k + 1)) (s.words u (path (k + 1))) = some c)
    (same : userTree.child (k + 1) (path (k + 1)) e = some c) (good : P e)
    (ways : AllWays P s.words root) : AllWays P (s.write u (path (k + 1)) e).words root := by
  obtain ⟨once, -⟩ := books.table member route
  have absent : tables userTree s.words k c u = 0 := child_absent member route once down
  have below : ∀ p, trail (s.write u (path (k + 1)) e).words k c p = trail s.words k c p :=
    fun p => along_congr fun v there => put_table fun here => by
      rw [here, absent] at there
      exact Nat.lt_irrefl 0 there
  intro p x inside
  by_cases on : ∀ j, k + 1 ≤ j → j ≤ 3 → p j = path j
  · obtain ⟨upper, first, after⟩ := trail_on books member route e on
    have turn := on (k + 1) (Nat.le_refl _) route.le
    unfold trailFrom at first after
    rw [beyond_child (by rw [turn]; exact down)] at first
    rw [beyond_child (by rw [turn]; exact same)] at after
    have old := ways p
    rw [first] at old
    rw [after] at inside
    rcases List.mem_append.mp inside with high | low
    · exact old x (List.mem_append_left _ high)
    · rcases List.mem_cons.mp low with rfl | deep
      · exact good
      · have kept : x ∈ trail s.words k c p := by
          rw [← below p]
          exact deep
        exact old x (List.mem_append_right _ (List.mem_cons_of_mem _ kept))
  · rw [trail_off books member route e member fun both => on both.2] at inside
    exact ways p x inside

private theorem ways_attach (books : Books s managed live hand chain) (member : root ∈ live)
    (route : Route userTree s.words path 3 root (k + 1) u)
    (fresh : userTree.child (k + 1) (path (k + 1)) e = some c)
    (zero : ∀ i, (s.write u (path (k + 1)) e).words c i = 0) (good : P e)
    (ways : AllWays P s.words root) : AllWays P (s.write u (path (k + 1)) e).words root := by
  intro p x inside
  by_cases on : ∀ j, k + 1 ≤ j → j ≤ 3 → p j = path j
  · obtain ⟨upper, first, after⟩ := trail_on books member route e on
    have turn := on (k + 1) (Nat.le_refl _) route.le
    unfold trailFrom at after
    rw [beyond_child (by rw [turn]; exact fresh)] at after
    rw [after] at inside
    rcases List.mem_append.mp inside with high | low
    · refine ways p x ?_
      rw [first]
      exact List.mem_append_left _ high
    · rcases List.mem_cons.mp low with rfl | deep
      · exact good
      · have none : trail (s.write u (path (k + 1)) e).words k c p = [] := trail_empty zero k p
        change x ∈ trail (s.write u (path (k + 1)) e).words k c p at deep
        rw [none] at deep
        exact absurd deep List.not_mem_nil
  · rw [trail_off books member route e member fun both => on both.2] at inside
    exact ways p x inside

theorem descend_ways {address flags : Word} {level : Nat} {table : Word}
    (books : Books s managed live hand chain) (member : root ∈ live) (low : indexes address 3 = 0)
    (route : Route userTree s.words (indexes address) 3 root level table)
    (widened : ∀ e, P e → P (e ||| user))
    (attached : ∀ c, Framed c → P (tableEntry c (flags &&& user)))
    (ways : AllWays P s.words root) :
    AllWays P (descend address (flags &&& user) level table s).2.words root := by
  induction level generalizing s table chain with
  | zero => exact ways
  | succ level ih =>
      cases there : has (s.words table (indexes address (level + 1))) present with
      | true =>
          obtain ⟨s1, step, books1, builds, route1, -, shape⟩ := descend_there flags books
            member low route there
          rw [step]
          refine ih books1 route1 ?_
          rcases shape with ⟨rfl, -⟩ | rfl
          · exact ways
          · obtain ⟨absent, -⟩ | ⟨-, -, down⟩ := (books.sound root member).entry low route
            · rw [absent] at there
              cases there
            have old : P (s.words table (indexes address (level + 1))) := by
              obtain ⟨upper, reads⟩ := trail_route route
              refine ways (indexes address) _ ?_
              rw [reads, trail_down down]
              exact List.mem_append_right _ List.mem_cons_self
            exact ways_widen books member route down (child_widened down) (widened _ old) ways
      | false =>
          cases chain with
          | nil =>
              rw [descend]
              simp only [there, Bool.false_eq_true, if_false, books.account.allocate_none]
              exact ways
          | cons c rest =>
              obtain ⟨s1, books1, -, route1, zero, shape⟩ := books_grow books member route low
                there flags
              have step : descend address (flags &&& user) (level + 1) table s =
                  descend address (flags &&& user) level c s1 := by
                rw [descend]
                simp only [there, Bool.false_eq_true, if_false, books.take.1]
                rw [shape]
              rw [step]
              refine ih books1 route1 ?_
              obtain ⟨-, held⟩ := books.take
              have filled := held.fill fun _ => 0
              have trees := held.trees_fill fun _ => 0
              have framed := books.account.framed c held.held.2.2.2.2
              have leads : userTree.child (level + 1) (indexes address (level + 1))
                  (tableEntry c (flags &&& user)) = some c := by
                refine (if_pos ⟨present_tableEntry _ _, huge_tableEntry framed,
                  fun top => top ▸ low⟩).trans ?_
                rw [frameOf_tableEntry framed]
              have kept : ∀ p, trail (({ s with head := s.words c 0, free := s.free - 1 } :
                  Paging).fill c fun _ => 0).words 3 root p = trail s.words 3 root p :=
                trail_kept (fun f there => Function.update_of_ne (fun same => by
                  have none : tableCount s.words live c = 0 := held.held.2.1
                  rw [same, none] at there
                  exact Nat.lt_irrefl 0 there) _ _) member
              rw [shape]
              refine ways_attach filled member (trees.routes root member _ _ _ route) leads ?_
                (attached c framed) fun p x inside => ways p x (kept p ▸ inside)
              intro i
              rw [← shape]
              exact zero i

theorem mapPageIn_ways {address : Word} (frame flags : Word) (books : Books s managed live hand chain)
    (member : root ∈ live) (low : indexes address 3 = 0) (widened : ∀ e, P e → P (e ||| user))
    (attached : ∀ c, Framed c → P (tableEntry c (flags &&& user)))
    (ways : AllWays P s.words root) :
    AllWays P (mapPageIn s root address frame flags).2.words root := by
  have built := descend_ways books member low (.here 3 root) widened attached ways
  obtain ⟨enough, short⟩ := descend_spec flags books member low (.here 3 root)
  unfold mapPageIn
  rcases Nat.lt_or_ge chain.length (missing s.words root address) with few | room
  · obtain ⟨s1, down, -, -⟩ := short few
    rw [down] at built
    simp only [down]
    exact built
  · obtain ⟨u, s1, down, books1, -, route⟩ := enough room
    rw [down] at built
    simp only [down]
    have entered : AllWays P (s1.write u (indexes address 0) (leafFor frame flags)).words root := by
      intro p x inside
      rw [trail_leaf books1 member route _ member p] at inside
      exact built p x inside
    split_ifs
    · exact built
    · rw [Eviction.noteResident_eq]
      exact entered
    · exact entered

end Ways

section Images

/-- A page of an image: its bytes by their offset, and what ring 3 may do there. -/
structure PageImage where
  bytes : Nat → BitVec 8
  writable : Bool
  executable : Bool

def PageImage.put (page : PageImage) (offset : Nat) (byte : BitVec 8) : PageImage :=
  { page with bytes := Function.update page.bytes offset byte }

abbrev SpaceImage := Nat → Option PageImage

/-- An entry above a page bars ring 3 from nothing the page allows. -/
def Passable (e : Word) : Prop := has e user = true ∧ has e noExecute = false

structure Backed (m : Words) (e : Word) (page : PageImage) : Prop where
  present : has e present = true
  user : has e user = true
  cow : has e cow = false
  writable : has e writable = page.writable
  executable : has e noExecute = !page.executable
  bytes : ∀ n < pageSize, byteOf (m (frameOf e)) n = page.bytes n

/-- The leaf entry of a page that may be in an image or not. -/
def Reads (m : Words) (e : Word) : Option PageImage → Prop
  | none => has e present = false
  | some page => Backed m e page

/-- The active space is one that is being filled: its user half is an image, every page in a
frame of its own, and no other space has changed since `before`. -/
structure Shows (before s : Paging) (managed live : Finset Word) (hand chain : List Word)
    (root : Word) (image : SpaceImage) : Prop where
  books : Books s managed live hand chain
  member : root ∈ live
  active : s.cr3 = root
  ways : AllWays Passable s.words root
  pages : ∀ a, a < userSpaceEnd →
    Reads s.words (leafAt s.words root (indexes a)) (image (a.toNat / pageSize))
  alone : ∀ a, a < userSpaceEnd → has (leafAt s.words root (indexes a)) present = true →
    ∀ r ∈ live, ∀ p, has (leafAt s.words r p) present = true →
      frameOf (leafAt s.words r p) = frameOf (leafAt s.words root (indexes a)) →
        r = root ∧ SamePage p (indexes a)
  others : ∀ r ∈ live, r ≠ root → ∀ p, leafAt s.words r p = leafAt before.words r p ∧
    contents s r p = contents before r p

theorem passable_widened {e : Word} (fine : Passable e) : Passable (e ||| user) := by
  constructor
  · rw [has_user, BitVec.getLsbD_or, show user.getLsbD 2 = true from by decide, Bool.or_true]
  · rw [has_noExecute, BitVec.getLsbD_or, show user.getLsbD 63 = false from by decide,
      Bool.or_false, ← has_noExecute]
    exact fine.2

theorem passable_tableEntry {c flags : Word} (framed : Framed c) (wide : has flags user = true) :
    Passable (tableEntry c (flags &&& user)) := by
  constructor
  · rw [has_user] at wide ⊢
    rw [tableEntry, BitVec.getLsbD_or, BitVec.getLsbD_and, wide,
      show user.getLsbD 2 = true from by decide, Bool.and_true, Bool.or_true]
  · rw [has_noExecute, tableEntry, BitVec.getLsbD_or, BitVec.getLsbD_or, BitVec.getLsbD_or,
      BitVec.getLsbD_and, framed_bit framed (by decide), show present.getLsbD 63 = false from by decide,
      show writable.getLsbD 63 = false from by decide, show user.getLsbD 63 = false from by decide,
      Bool.and_false]
    rfl

private theorem leafFor_backed {m : Words} {frame : Word} (framed : Framed frame)
    (names : frameOf (leafFor frame (user ||| writable)) = frame) :
    Backed m (leafFor frame (user ||| writable)) ⟨byteOf (m frame), true, true⟩ := by
  have bit : ∀ k, addressMask.getLsbD k = false →
      (leafFor frame (user ||| writable)).getLsbD k = (user ||| writable ||| present).getLsbD k := by
    intro k outside
    rw [leafFor, framed.2, BitVec.or_assoc, BitVec.getLsbD_or, framed_bit framed outside,
      Bool.false_or]
  refine ⟨present_leafFor _ _, ?_, ?_, ?_, ?_, fun n _ => by rw [names]⟩
  · rw [has_user, bit 2 (by decide)]
    decide
  · rw [has_cow, bit 9 (by decide)]
    decide
  · rw [has_writable, bit 1 (by decide)]
    rfl
  · rw [has_noExecute, bit 63 (by decide)]
    rfl

variable {image : SpaceImage} {a : Word} {page : PageImage}

theorem Reads.congr {m m' : Words} {e : Word} {x : Option PageImage} (reads : Reads m e x)
    (same : has e present = true → m' (frameOf e) = m (frameOf e)) : Reads m' e x := by
  cases x with
  | none => exact reads
  | some page =>
      obtain ⟨there, user', cow', writable', executable', bytes⟩ := reads
      exact ⟨there, user', cow', writable', executable', fun n inside => by
        rw [same there]
        exact bytes n inside⟩

theorem Reads.present_iff {m : Words} {e : Word} {x : Option PageImage} (reads : Reads m e x) :
    has e present = x.isSome := by
  cases x with
  | none => exact reads
  | some page => exact reads.present

theorem leafAt_congr {m : Words} {root : Word} {p q : Nat → Index} (same : SamePage p q) :
    leafAt m root p = leafAt m root q := entryAt_indexes same

theorem lastTable_route {address table u : Word} {n : Nat}
    (route : Route userTree s.words (indexes address) n table 0 u) :
    lastTable s address n table = some u := by
  induction n generalizing table with
  | zero =>
      cases route
      rfl
  | succ n ih =>
      cases route with
      | down step rest =>
          obtain ⟨there, -, -, rfl⟩ := child_some step
          rw [lastTable, if_neg (by rw [there]; decide)]
          exact ih rest

namespace Shows

theorem reads (shows : Shows before s managed live hand chain root image) (inside : a < userSpaceEnd) :
    Reads s.words (leafAt s.words root (indexes a)) (image (a.toNat / pageSize)) :=
  shows.pages a inside

theorem sound (shows : Shows before s managed live hand chain root image) : Sound s.words root :=
  shows.books.sound root shows.member

theorem translate (shows : Shows before s managed live hand chain root image)
    (inside : a < userSpaceEnd) :
    (translate s a).isSome = (image (a.toNat / pageSize)).isSome := by
  rw [← (shows.reads inside).present_iff, PageTables.translate, translateIn, shows.active]
  exact translateFrom_isSome shows.sound (low_of_user inside) (.here 3 root)

theorem route (shows : Shows before s managed live hand chain root image) (inside : a < userSpaceEnd)
    (there : image (a.toNat / pageSize) = some page) :
    ∃ u, Route userTree s.words (indexes a) 3 root 0 u ∧
      s.words u (indexes a 0) = leafAt s.words root (indexes a) := by
  have backed := shows.reads inside
  rw [there] at backed
  rcases route_of_entryAt (R := userTree) s.words 3 root (indexes a) with ⟨u, route, leaf⟩ | blank
  · exact ⟨u, route, leaf.symm⟩
  · have here := backed.present
    rw [leafAt, blank] at here
    exact absurd here (by decide)

private theorem others_step {s' : Paging}
    (shows : Shows before s managed live hand chain root image)
    (leaves : ∀ r ∈ live, r ≠ root → ∀ p, leafAt s'.words r p = leafAt s.words r p)
    (data : ∀ r ∈ live, r ≠ root → ∀ p, has (leafAt s.words r p) present = true →
      s'.words (frameOf (leafAt s.words r p)) = s.words (frameOf (leafAt s.words r p)))
    (disk : s'.disk = s.disk) :
    ∀ r ∈ live, r ≠ root → ∀ p, leafAt s'.words r p = leafAt before.words r p ∧
      contents s' r p = contents before r p := by
  intro r member apart p
  obtain ⟨leaf, same⟩ := shows.others r member apart p
  refine ⟨(leaves r member apart p).trans leaf, Eq.trans ?_ same⟩
  unfold contents heldBy
  rw [leaves r member apart p, disk]
  split_ifs with there
  · rw [data r member apart p there]
  · rfl
  · rfl

theorem setLeaf (shows : Shows before s managed live hand chain root image)
    (inside : a < userSpaceEnd) (there : image (a.toNat / pageSize) = some page) {u e : Word}
    (route : Route userTree s.words (indexes a) 3 root 0 u)
    (same : frameOf e = frameOf (leafAt s.words root (indexes a))) {page' : PageImage}
    (backed : Backed s.words e page') :
    Shows before (s.write u (indexes a 0) e) managed live hand chain root
      (Function.update image (a.toNat / pageSize) (some page')) := by
  classical
  have old := shows.reads inside
  rw [there] at old
  have leaf : s.words u (indexes a 0) = leafAt s.words root (indexes a) :=
    (entryAt_route route).symm
  have sets := LeafSet.write shows.books shows.member route e
  have named : ∀ f, names f e = names f (s.words u (indexes a 0)) := by
    intro f
    unfold names
    rw [leaf, same, backed.present, old.present]
  have frames : ∀ r ∈ live, ∀ p,
      has (leafAt (s.write u (indexes a 0) e).words r p) present = has (leafAt s.words r p) present ∧
        frameOf (leafAt (s.write u (indexes a 0) e).words r p) = frameOf (leafAt s.words r p) := by
    intro r member p
    rw [sets.leaves r member p]
    split_ifs with here
    · obtain ⟨rfl, on⟩ := here
      rw [leafAt_congr on, backed.present, old.present, same]
      exact ⟨rfl, rfl⟩
    · exact ⟨rfl, rfl⟩
  have data : ∀ r ∈ live, ∀ p, has (leafAt s.words r p) present = true →
      (s.write u (indexes a 0) e).words (frameOf (leafAt s.words r p)) =
        s.words (frameOf (leafAt s.words r p)) := fun r member p here =>
    sets.data shows.member (page_frame shows.books member here).1
  refine ⟨shows.books.recolor shows.member route named, shows.member, shows.active,
    fun p => ?_, fun b within => ?_, fun b within here r member p there' equal => ?_,
    shows.others_step (fun r member apart p => ?_) (fun r member _ p here => data r member p here) rfl⟩
  · rw [trail_leaf shows.books shows.member route e shows.member p]
    exact shows.ways p
  · rw [sets.leaves root shows.member (indexes b)]
    by_cases on : SamePage (indexes b) (indexes a)
    · rw [if_pos ⟨rfl, on⟩, (samePage_iff within inside).mp on, Function.update_self]
      refine Reads.congr (x := some page') backed fun _ => ?_
      rw [same]
      exact data root shows.member (indexes a) old.present
    · rw [if_neg fun both => on both.2,
        Function.update_of_ne fun number => on ((samePage_iff within inside).mpr number)]
      exact (shows.pages b within).congr (data root shows.member (indexes b))
  · rw [(frames r member p).1] at there'
    rw [(frames root shows.member (indexes b)).1] at here
    rw [(frames r member p).2, (frames root shows.member (indexes b)).2] at equal
    exact shows.alone b within here r member p there' equal
  · rw [sets.leaves r member p, if_neg fun both => apart both.1]

private theorem aged (shows : Shows before s managed live hand chain root image)
    (inside : a < userSpaceEnd) (there : image (a.toNat / pageSize) = some page) :
    ∃ t, touch s a (accessed ||| dirty) = some (leafAt s.words root (indexes a), t) ∧
      Shows before t managed live hand chain root image := by
  obtain ⟨u, route, leaf⟩ := shows.route inside there
  have backed := shows.reads inside
  rw [there] at backed
  have marks : (accessed ||| dirty) &&& ~~~ages = 0 := by decide
  have frame : frameOf (leafAt s.words root (indexes a) ||| (accessed ||| dirty)) =
      frameOf (leafAt s.words root (indexes a)) := frameOf_ageless (ageless_or marks)
  have bit : ∀ k < 64, ages.getLsbD k = false →
      (leafAt s.words root (indexes a) ||| (accessed ||| dirty)).getLsbD k =
        (leafAt s.words root (indexes a)).getLsbD k := fun k low other =>
    bit_of_ageless (ageless_or marks) low other
  have shows' := shows.setLeaf inside there (e := leafAt s.words root (indexes a) ||| (accessed ||| dirty))
    route frame {
      present := by
        rw [has_present, bit 0 (by decide) (by decide), ← has_present]
        exact backed.present
      user := by
        rw [has_user, bit 2 (by decide) (by decide), ← has_user]
        exact backed.user
      cow := by
        rw [has_cow, bit 9 (by decide) (by decide), ← has_cow]
        exact backed.cow
      writable := by
        rw [has_writable, bit 1 (by decide) (by decide), ← has_writable]
        exact backed.writable
      executable := by
        rw [has_noExecute, bit 63 (by decide) (by decide), ← has_noExecute]
        exact backed.executable
      bytes := by
        rw [frame]
        exact backed.bytes }
  refine ⟨_, ?_, by rwa [← there, Function.update_eq_self] at shows'⟩
  rw [touch, shows.active, (plainTable_iff (low_of_user inside)).mpr route]
  dsimp only
  rw [leaf, if_neg (by rw [backed.present]; decide)]

private theorem setData (shows : Shows before s managed live hand chain root image)
    (inside : a < userSpaceEnd) (there : image (a.toNat / pageSize) = some page) (byte : BitVec 8)
    {i : Index} (here : i.val = a.toNat % pageSize / 8) {frame : Word}
    (named : frame = frameOf (leafAt s.words root (indexes a))) :
    Shows before (s.write frame i (setByte (s.words frame i) (a.toNat % 8) byte)) managed live hand
      chain root (Function.update image (a.toNat / pageSize)
        (some (page.put (a.toNat % pageSize) byte))) := by
  have backed := shows.reads inside
  rw [there] at backed
  have counted : 0 < refCount s.words live frame := by
    rw [named]
    exact refCount_pos shows.member backed.present
  obtain ⟨trees, books, -⟩ := write_page shows.books counted i
    (setByte (s.words frame i) (a.toNat % 8) byte)
  have table := (shows.books.page counted).1
  have leaves := trees.leaves
  have elsewhere : ∀ f, f ≠ frame →
      (s.write frame i (setByte (s.words frame i) (a.toNat % 8) byte)).words f = s.words f :=
    fun f other => Function.update_of_ne other _ _
  have apart : ∀ r ∈ live, ∀ p, has (leafAt s.words r p) present = true →
      ¬(r = root ∧ SamePage p (indexes a)) → frameOf (leafAt s.words r p) ≠ frame :=
    fun r member p here off equal =>
      off (shows.alone a inside backed.present r member p here (equal.trans named))
  refine ⟨books, shows.member, shows.active, fun p => ?_, fun b within => ?_,
    fun b within here r member p there' equal => ?_,
    shows.others_step (fun r member _ p => leaves r member p)
      (fun r member off p here => elsewhere _ (apart r member p here fun both => off both.1)) rfl⟩
  · rw [trail_kept (fun f counts => elsewhere f fun same => by
      rw [same, table] at counts
      exact Nat.lt_irrefl 0 counts) shows.member]
    exact shows.ways p
  · rw [leaves root shows.member]
    by_cases on : SamePage (indexes b) (indexes a)
    · rw [leafAt_congr on, (samePage_iff within inside).mp on, Function.update_self]
      obtain ⟨present', user', cow', writable', executable', bytes⟩ := backed
      refine ⟨present', user', cow', writable', executable', fun n bound => ?_⟩
      have offset : a.toNat % 8 = a.toNat % pageSize % 8 := by
        unfold pageSize
        omega
      have words : (s.write frame i (setByte (s.words frame i) (a.toNat % 8) byte)).words
          (frameOf (leafAt s.words root (indexes a))) =
            Function.update (s.words frame) i (setByte (s.words frame i) (a.toNat % 8) byte) := by
        rw [← named]
        exact Function.update_self _ _ _
      change _ = Function.update page.bytes (a.toNat % pageSize) byte n
      rw [words, offset, byteOf_update _ _ bound here, Function.update_apply, ← bytes n bound, named]
    · rw [Function.update_of_ne fun number => on ((samePage_iff within inside).mpr number)]
      exact (shows.pages b within).congr fun here =>
        elsewhere _ (apart root shows.member _ here fun both => on both.2)
  · rw [leaves r member] at there' equal
    rw [leaves root shows.member] at here equal
    exact shows.alone b within here r member p there' equal

theorem store (shows : Shows before s managed live hand chain root image)
    (inside : a < userSpaceEnd) (there : image (a.toNat / pageSize) = some page)
    (open' : page.writable = true) (top limit : Word) (byte : BitVec 8) :
    ∃ t, (∀ attempts, 0 < attempts → storeByte top limit a byte attempts s = .done t) ∧
      Shows before t managed live hand chain root (Function.update image (a.toNat / pageSize)
        (some (page.put (a.toNat % pageSize) byte))) := by
  have backed := shows.reads inside
  rw [there] at backed
  obtain ⟨t, touched, shows'⟩ := shows.aged inside there
  have ready : Ready s s.cr3 a := by
    rw [shows.active]
    exact ⟨shows.sound, backed.present, backed.writable.trans open'⟩
  have put : ∃ t', putByte s a byte = t' ∧ Shows before t' managed live hand chain root
      (Function.update image (a.toNat / pageSize)
        (some (page.put (a.toNat % pageSize) byte))) := by
    unfold putByte
    rw [touched]
    have found := shows'.translate inside
    rw [there, Option.isSome_some] at found
    obtain ⟨⟨physical, entries⟩, walked⟩ := Option.isSome_iff_exists.mp found
    simp only [Option.map_some, Option.getD_some, walked]
    have frame := walked
    rw [PageTables.translate, translateIn, shows'.active] at frame
    have place : physical = frameOf (leafAt t.words root (indexes a)) + (a &&& 0xfff) :=
      translateFrom_frame shows'.sound (low_of_user inside) (.here 3 root) frame
    obtain ⟨same, word⟩ := frameOf_offset (a := a) (leafAt t.words root (indexes a))
    refine ⟨_, rfl, shows'.setData inside there byte ?_ ?_⟩
    · rw [place]
      exact word
    · rw [place]
      exact same
  obtain ⟨t', stored, shows''⟩ := put
  refine ⟨t', fun attempts attempted => ?_, shows''⟩
  rw [← stored]
  have once := storeByte_ready ready inside top limit byte
  exact (storeByte_more (by rw [once]; simp) attempted).trans once

theorem store_halts (shows : Shows before s managed live hand chain root image)
    (inside : a < userSpaceEnd) (there : image (a.toNat / pageSize) = some page)
    (shut : page.writable = false) (top limit : Word) (byte : BitVec 8) {attempts : Nat}
    (attempted : 0 < attempts) : storeByte top limit a byte attempts s = .halted := by
  obtain ⟨u, route, leaf⟩ := shows.route inside there
  have backed := shows.reads inside
  rw [there] at backed
  have closed : ringZero s a 3 s.cr3 = false := by
    rw [shows.active, ringZero_eq shows.sound (low_of_user inside) (.here 3 root)]
    have readonly : has (leafAt s.words root (indexes a)) writable = false :=
      backed.writable.trans shut
    exact Bool.and_eq_false_iff.mpr (.inr readonly)
  have code : faultCode s a = present ||| writable := by
    have sound : Sound s.words s.cr3 := shows.active ▸ shows.sound
    rw [faultCode_eq sound inside, shows.active, if_pos backed.present]
  have copied : cowFault s a = (false, s) := by
    rw [cowFault_route inside (shows.active ▸ route), leaf, if_neg]
    intro guarded
    exact absurd (guarded.2.1.symm.trans backed.cow) (by decide)
  obtain ⟨later, rfl⟩ := Nat.exists_eq_add_of_lt attempted
  rw [Nat.zero_add, storeByte, if_neg (not_not.mpr (canonical_of_user inside)),
    if_neg (by rw [closed]; decide), code, pageFault]
  have there' : has (present ||| writable) present = true := by decide
  simp only [there', copied, if_true, ite_self, Bool.false_eq_true]

theorem setFlags (shows : Shows before s managed live hand chain root image)
    (inside : a < userSpaceEnd) (there : image (a.toNat / pageSize) = some page) {flags : Word}
    (plain : frameOf flags = 0) (open' : has flags user = true) (clear : has flags cow = false) :
    ∃ t, PageTables.setFlags s a flags = (.ok (), t) ∧
      Shows before t managed live hand chain root (Function.update image (a.toNat / pageSize)
        (some ⟨page.bytes, has flags writable, !has flags noExecute⟩)) := by
  obtain ⟨u, route, leaf⟩ := shows.route inside there
  have backed := shows.reads inside
  rw [there] at backed
  have frame : frameOf (leafFor (leafAt s.words root (indexes a)) flags) =
      frameOf (leafAt s.words root (indexes a)) := frameOf_leafFor plain
  have bit : ∀ k, k ≠ 0 → addressMask.getLsbD k = false →
      (leafFor (leafAt s.words root (indexes a)) flags).getLsbD k = flags.getLsbD k := by
    intro k other outside
    have zero : present.getLsbD k = false := by
      unfold present
      rw [show (1 <<< 0 : Word) = 1#64 from rfl, BitVec.getLsbD_one]
      simp [other]
    rw [leafFor, BitVec.getLsbD_or, BitVec.getLsbD_or, frameOf_bit _ outside, zero, Bool.false_or,
      Bool.or_false]
  refine ⟨_, ?_, shows.setLeaf inside there route (e := leafFor (leafAt s.words root (indexes a)) flags)
    frame {
      present := present_leafFor _ _
      user := by
        rw [has_user, bit 2 (by decide) (by decide), ← has_user]
        exact open'
      cow := by
        rw [has_cow, bit 9 (by decide) (by decide), ← has_cow]
        exact clear
      writable := by rw [has_writable, bit 1 (by decide) (by decide), ← has_writable]
      executable := by
        rw [has_noExecute, bit 63 (by decide) (by decide), ← has_noExecute, Bool.not_not]
      bytes := by
        rw [frame]
        exact backed.bytes }⟩
  rw [PageTables.setFlags, shows.active, lastTable_route route]
  dsimp only
  rw [leaf, if_neg (by rw [backed.present]; decide)]

private theorem grown {t : Paging} {hand' chain' : List Word}
    (shows : Shows before s managed live hand chain root image)
    (books : Books t managed live hand' chain') (ways : AllWays Passable t.words root)
    (leaves : ∀ r ∈ live, ∀ p, leafAt t.words r p = leafAt s.words r p)
    (data : ∀ r ∈ live, ∀ p, has (leafAt s.words r p) present = true →
      t.words (frameOf (leafAt s.words r p)) = s.words (frameOf (leafAt s.words r p)))
    (cr3 : t.cr3 = s.cr3) (disk : t.disk = s.disk) :
    Shows before t managed live hand' chain' root image := by
  refine ⟨books, shows.member, cr3.trans shows.active, ways, fun b within => ?_,
    fun b within here r member p there equal => ?_,
    shows.others_step (fun r member _ p => leaves r member p) (fun r member _ p => data r member p)
      disk⟩
  · rw [leaves root shows.member]
    exact (shows.pages b within).congr (data root shows.member _)
  · rw [leaves r member] at there equal
    rw [leaves root shows.member] at here equal
    exact shows.alone b within here r member p there equal

private theorem added {t : Paging} {hand' chain' : List Word} {e : Word}
    (shows : Shows before s managed live hand chain root image) (inside : a < userSpaceEnd)
    (books : Books t managed live hand' chain') (ways : AllWays Passable t.words root)
    (leaves : ∀ r ∈ live, ∀ p [Decidable (r = root ∧ SamePage p (indexes a))], leafAt t.words r p =
      if r = root ∧ SamePage p (indexes a) then e else leafAt s.words r p)
    (data : ∀ r ∈ live, ∀ p, has (leafAt s.words r p) present = true →
      t.words (frameOf (leafAt s.words r p)) = s.words (frameOf (leafAt s.words r p)))
    (cr3 : t.cr3 = s.cr3) (disk : t.disk = s.disk) (backed : Backed t.words e page)
    (fresh : ∀ r ∈ live, ∀ p, has (leafAt s.words r p) present = true →
      frameOf (leafAt s.words r p) ≠ frameOf e) :
    Shows before t managed live hand' chain' root
      (Function.update image (a.toNat / pageSize) (some page)) := by
  classical
  have off : ∀ r ∈ live, r ≠ root → ∀ p, leafAt t.words r p = leafAt s.words r p :=
    fun r member apart p => by rw [leaves r member p, if_neg fun both => apart both.1]
  refine ⟨books, shows.member, cr3.trans shows.active, ways, fun b within => ?_,
    fun b within here r member p there equal => ?_,
    shows.others_step off (fun r member _ p => data r member p) disk⟩
  · rw [leaves root shows.member]
    by_cases on : SamePage (indexes b) (indexes a)
    · rw [if_pos ⟨rfl, on⟩, (samePage_iff within inside).mp on, Function.update_self]
      exact backed
    · rw [if_neg fun both => on both.2,
        Function.update_of_ne fun number => on ((samePage_iff within inside).mpr number)]
      exact (shows.pages b within).congr (data root shows.member _)
  · have new : ∀ {r : Word} {p : Nat → Index}, r ∈ live → r = root ∧ SamePage p (indexes a) →
        leafAt t.words r p = e := fun member on => (leaves _ member _).trans (if_pos on)
    have old : ∀ {r : Word} {p : Nat → Index}, r ∈ live → ¬(r = root ∧ SamePage p (indexes a)) →
        leafAt t.words r p = leafAt s.words r p := fun member on => (leaves _ member _).trans (if_neg on)
    by_cases on : SamePage (indexes b) (indexes a)
    · rw [new shows.member ⟨rfl, on⟩] at equal
      by_cases on' : r = root ∧ SamePage p (indexes a)
      · exact ⟨on'.1, fun j low => (on'.2 j low).trans (on j low).symm⟩
      · rw [old member on'] at there equal
        exact absurd equal (fresh r member p there)
    · rw [old shows.member fun both => on both.2] at here equal
      by_cases on' : r = root ∧ SamePage p (indexes a)
      · rw [new member on'] at equal
        exact absurd equal.symm (fresh root shows.member _ here)
      · rw [old member on'] at there equal
        exact shows.alone b within here r member p there equal

/-- A page is mapped in the first free frame: the page is in the image, or the tables for it
took all frames that were left. -/
theorem map {frame : Word} {rest : List Word}
    (shows : Shows before s managed live hand (frame :: rest) root image)
    (inside : a < userSpaceEnd) (absent : image (a.toNat / pageSize) = none) :
    ∃ s1, s.allocate = (some frame, s1) ∧
      ((∃ text t, mapPage s1 a frame (user ||| writable) = (.error text, t) ∧ rest.length < 3 ∧
          Shows before t managed live (frame :: hand) [] root image) ∨
        ∃ t bytes, ∃ n ≤ 3, mapPage s1 a frame (user ||| writable) = (.ok (), t) ∧
          Shows before t managed live hand (rest.drop n) root
            (Function.update image (a.toNat / pageSize) (some ⟨bytes, true, true⟩))) := by
  obtain ⟨took, books⟩ := shows.books.take
  refine ⟨_, took, ?_⟩
  have old := shows.reads inside
  rw [absent] at old
  have low := low_of_user inside
  have spec := mapPageIn_spec frame (user ||| writable) books shows.member low
  have ways := mapPageIn_ways frame (user ||| writable) books shows.member low
    (fun e fine => passable_widened fine) (fun c framed => passable_tableEntry framed (by decide))
    (show AllWays Passable _ root from shows.ways)
  have most : missing s.words root a ≤ 3 := Nat.sub_le _ _
  have kept : ∀ {t : Paging} {taken : List Word}, taken ⊆ rest →
      (∀ f, treeCount s.words root f = 0 → f ∉ taken → t.words f = s.words f) →
      ∀ r ∈ live, ∀ p, has (leafAt s.words r p) present = true →
        t.words (frameOf (leafAt s.words r p)) = s.words (frameOf (leafAt s.words r p)) := by
    intro t taken among same r member p there
    obtain ⟨table, free, -⟩ := page_frame shows.books member there
    refine same _ (Nat.eq_zero_of_le_zero ?_) fun inside =>
      free (List.mem_cons_of_mem frame (among inside))
    exact le_of_le_of_eq (tables_le_occurs shows.member _) table
  have run : mapPage { s with head := s.words frame 0, free := s.free - 1 } a frame
      (user ||| writable) = mapPageIn { s with head := s.words frame 0, free := s.free - 1 } root a
        frame (user ||| writable) :=
    congrArg (fun r => mapPageIn { s with head := s.words frame 0, free := s.free - 1 } r a frame
      (user ||| writable)) shows.active
  rw [run]
  generalize mapPageIn { s with head := s.words frame 0, free := s.free - 1 } root a frame
    (user ||| writable) = answer at spec ways ⊢
  cases spec with
  | @short t few books' builds =>
      exact .inl ⟨_, t, rfl, lt_of_lt_of_le few most, shows.grown books' ways builds.leaves
        (kept (List.Subset.refl rest) builds.kept) builds.cr3 builds.disk⟩
  | taken there books' builds => exact absurd (old.symm.trans there) (by decide)
  | @mapped t u room there books' builds route =>
      obtain ⟨books'', maps⟩ := mapped_fresh (user ||| writable) books' builds shows.member
        route there (by decide)
      have framed := books.account.framed frame books.held.2.2.2.2
      have names : frameOf (leafFor frame (user ||| writable)) = frame :=
        (frameOf_leafFor (by decide)).trans framed.2
      refine .inr ⟨_, byteOf ((arrived (t.write u (indexes a 0) (leafFor frame (user ||| writable))) a
        (user ||| writable)).words frame), missing s.words root a, most, rfl,
        shows.added inside books'' ways maps.leaves (kept (List.take_subset _ _) maps.kept) maps.cr3
          maps.disk (leafFor_backed framed names) fun r member p here equal => ?_⟩
      have counted := refCount_pos member here
      rw [equal, names, show refCount s.words live frame = 0 from books.held.1] at counted
      exact Nat.lt_irrefl 0 counted

end Shows

theorem trail_none {m : Words} {n : Nat} {t : Word} {p : Nat → Index} (none : passed m n t p = 0) :
    trail m n t p = [] := by
  cases n with
  | zero => rfl
  | succ n =>
      rcases down : userTree.child (n + 1) (p (n + 1)) (m t (p (n + 1))) with _ | c
      · exact trail_stop down
      · have more : passed m (n + 1) t p = passed m n c p + 1 := by
          unfold passed
          rw [along_eq, beyond_child down]
        rw [more] at none
        exact absurd none (Nat.succ_ne_zero _)

theorem newSpace_shows (books : Books s managed live hand chain) (made : newSpace s = (some root, s')) :
    Shows s { s' with cr3 := root } managed (insert root live) hand chain.tail root fun _ => none := by
  cases chain with
  | nil =>
      have failed : newSpace s = (none, s) := by
        unfold newSpace
        rw [books.account.allocate_none]
      rw [failed] at made
      cases made
  | cons r rest =>
      obtain ⟨t, new, books', fresh⟩ := newSpace_made books
      rw [made] at new
      obtain ⟨same, rfl⟩ := Prod.mk.inj new
      obtain rfl := Option.some.inj same
      have trees := trees_kept fresh.trees
      have absent : ∀ p, has (leafAt s'.words root p) present = false := fun p => by
        rw [fresh.leaves]
        decide
      refine ⟨books'.congr rfl rfl rfl rfl, Finset.mem_insert_self _ _, rfl, fun p e inside => ?_,
        fun a _ => absent _, fun a _ here => ?_, fun r' member apart p => ?_⟩
      · rw [trail_none (fresh.ways p)] at inside
        exact absurd inside List.not_mem_nil
      · rw [absent] at here
        cases here
      · have old := Finset.mem_of_mem_insert_of_ne member apart
        have leaf := trees.leaves r' old p
        refine ⟨leaf, ?_⟩
        unfold contents heldBy
        rw [show leafAt ({ s' with cr3 := root } : Paging).words r' p = leafAt s.words r' p from leaf]
        split_ifs with there
        · have outside := (page_frame books old there).2.1
          exact congrArg some (fresh.kept _ fun same => outside (same ▸ List.mem_cons_self))
        · exact congrArg (fun d : Disk => some (Paging.pageAt d.sectors _)) fresh.disk
        · rfl

theorem destroy_others {old : Word} (books : Books s managed live hand chain) (member : old ∈ live) :
    ∀ r ∈ live.erase old, ∀ p, leafAt (destroy s old).words r p = leafAt s.words r p ∧
      contents (destroy s old) r p = contents s r p ∧
      (has (leafAt s.words r p) present = true → (destroy s old).words (frameOf (leafAt s.words r p)) =
        s.words (frameOf (leafAt s.words r p))) := by
  obtain ⟨freed, books', frees, trees⟩ := destroy_spec books member
  intro r inside p
  have leaf := trees.leaves r inside p
  have data : has (leafAt s.words r p) present = true →
      (destroy s old).words (frameOf (leafAt s.words r p)) = s.words (frameOf (leafAt s.words r p)) := by
    intro there
    rw [← leaf] at there
    have outside := (page_frame books' inside there).2.1
    rw [leaf] at outside
    exact frees.kept _ fun given => outside (List.mem_append_left _ given)
  refine ⟨leaf, ?_, data⟩
  unfold contents heldBy
  rw [leaf, frees.disk]
  split_ifs with there
  · rw [data there]
  · rfl
  · rfl

theorem Shows.destroy {image : SpaceImage} {old : Word}
    (shows : Shows before s managed live hand chain root image) (member : old ∈ live)
    (apart : old ≠ root) : ∃ freed,
      Shows before (destroy s old) managed (live.erase old) hand (freed ++ chain) root image := by
  obtain ⟨freed, books, frees, trees⟩ := destroy_spec shows.books member
  have kept := destroy_others shows.books member
  have member' : root ∈ live.erase old := Finset.mem_erase.mpr ⟨apart.symm, shows.member⟩
  refine ⟨freed, books, member', frees.cr3.trans shows.active, fun p => ?_, fun a inside => ?_,
    fun a inside here r other p there equal => ?_, fun r other off p => ?_⟩
  · have same : trail (PageTables.destroy s old).words 3 root p = trail s.words 3 root p :=
      trail_kept (fun f there => frees.kept f fun given => by
        have table := books.account.once f
        rw [trees.tables] at table
        have counted := List.count_pos_iff.mpr (List.mem_append_left chain given)
        split_ifs at table <;> omega) member' p
    rw [same]
    exact shows.ways p
  · obtain ⟨leaf, -, data⟩ := kept root member' (indexes a)
    rw [leaf]
    exact (shows.pages a inside).congr data
  · rw [(kept root member' _).1] at here equal
    rw [(kept r other p).1] at there equal
    exact shows.alone a inside here r (Finset.mem_of_mem_erase other) p there equal
  · obtain ⟨leaf, same, -⟩ := kept r other p
    obtain ⟨leaf', same'⟩ := shows.others r (Finset.mem_of_mem_erase other) off p
    exact ⟨leaf.trans leaf', same.trans same'⟩

end Images

end FiveAM.Memory.UserImage
