/- GID: FiveAM/Memory/Ownership
   source: kernel/src/memory.rs
   digest: Every frame has one use: the books that the operations on address spaces keep. -/

import FiveAM.Memory.Swap
import FiveAM.Lib.RadixTables

set_option autoImplicit false
set_option relaxedAutoImplicit false

namespace FiveAM.Memory.Ownership

open FiveAM.Process.TaskTable (Word)
open FiveAM.Memory.Entries FiveAM.Memory.Frames FiveAM.Memory.Replace FiveAM.Memory.PageTables
open FiveAM.Lib.RadixTables
open scoped BigOperators

/-- How the user half of an address space is read: through slot 0 of its root, and
from there through every entry that is present and not huge. -/
def userTree : Reading Word Index Word where
  child level i e :=
    if has e present = true ∧ has e huge = false ∧ (level = 3 → i = 0) then some (frameOf e) else none
  blank := 0
  child_blank level i := by simp [has]

abbrev Words := Word → Table

/-- The leaf entry of a page, zero where there is no page table for it. -/
def leafAt (m : Words) (root : Word) (path : Nat → Index) : Word := entryAt userTree m 3 root path

def names (frame e : Word) : Nat := if has e present = true ∧ frameOf e = frame then 1 else 0

def treeCount (m : Words) (root frame : Word) : Nat := tables userTree m 3 root frame

/-- How often a frame is a table of one of these spaces. -/
def tableCount (m : Words) (live : Finset Word) (frame : Word) : Nat :=
  occurs userTree m 3 live frame

/-- How many leaf entries of these spaces name a frame. -/
def refCount (m : Words) (live : Finset Word) (frame : Word) : Nat :=
  forest userTree (fun _ => 0) (names frame) m 3 live

/-- The free list starts at `head` and runs through the frames in order. -/
def Chain (m : Words) : Word → List Word → Prop
  | head, [] => head = 0
  | head, frame :: rest => head = frame ∧ frame ≠ 0 ∧ Chain m (m frame 0) rest

/-- What the way to a page is blocked by: a huge entry, not an absent one. -/
def blocked (e : Word) : Word := if has e present then 0 else BitVec.allOnes 64

/-- The upper entries on the way to a page from a table at a level, taken
together; zero where the way is blocked. -/
def uppers (m : Words) (level : Nat) (table : Word) (path : Nat → Index) : Word :=
  along userTree (fun e rest => e &&& rest) (fun _ => BitVec.allOnes 64) blocked m level table path

/-- The upper entries on the way to a page of a space. -/
def above (m : Words) (root : Word) (path : Nat → Index) : Word := uppers m 3 root path

def uppersFrom (m : Words) (path : Nat → Index) (level : Nat) (e : Word) : Word :=
  beyond userTree (fun e rest => e &&& rest) (fun _ => BitVec.allOnes 64) blocked m path level e

/-- No entry above the page tables is huge, and every one lets writes through. -/
def Sound (m : Words) (root : Word) : Prop :=
  ∀ path : Nat → Index, path 3 = 0 →
    has (above m root path) present = true ∧ has (above m root path) writable = true

/-- The accounts of the frames: each managed frame is on the free list, in
somebody's hand, a table or a page, and its owners are counted. -/
structure Account (s : Paging) (managed : Finset Word) (hand chain : List Word)
    (tables refs : Word → Nat) : Prop where
  linked : Chain s.words s.head chain
  count : s.free = chain.length
  once : ∀ f, chain.count f + hand.count f + tables f + (if 0 < refs f then 1 else 0) =
    if f ∈ managed then 1 else 0
  owners : ∀ f, s.shareCount f = max 1 (refs f)
  shared : Paging.SharedOk s.shared
  framed : ∀ f ∈ managed, Framed f

/-- The books of a machine with these address spaces. -/
structure Books (s : Paging) (managed live : Finset Word) (hand chain : List Word) : Prop where
  account : Account s managed hand chain (tableCount s.words live) (refCount s.words live)
  sound : ∀ root ∈ live, Sound s.words root

section Accounts

variable {s : Paging} {managed : Finset Word} {hand chain : List Word} {T R : Word → Nat}

theorem Chain.congr {m m' : Words} {head : Word} {chain : List Word} (linked : Chain m head chain)
    (kept : ∀ f ∈ chain, m' f = m f) : Chain m' head chain := by
  induction chain generalizing head with
  | nil => exact linked
  | cons frame rest ih =>
      obtain ⟨here, nonzero, later⟩ := linked
      refine ⟨here, nonzero, ?_⟩
      rw [kept frame List.mem_cons_self]
      exact ih later fun f member => kept f (List.mem_cons_of_mem _ member)

theorem Account.managed_of (account : Account s managed hand chain T R) {f : Word}
    (there : 0 < chain.count f + hand.count f + T f + (if 0 < R f then 1 else 0)) :
    f ∈ managed := by
  have once := account.once f
  by_contra outside
  rw [if_neg outside] at once
  omega

theorem Account.le_one (account : Account s managed hand chain T R) (f : Word) :
    chain.count f + hand.count f + T f + (if 0 < R f then 1 else 0) ≤ 1 := by
  rw [account.once f]
  split_ifs <;> omega

theorem Account.empty_iff (account : Account s managed hand chain T R) : s.head = 0 ↔ chain = [] := by
  cases chain with
  | nil => exact ⟨fun _ => rfl, fun _ => account.linked⟩
  | cons frame rest =>
      obtain ⟨here, nonzero, -⟩ := account.linked
      exact ⟨fun zero => absurd (here ▸ zero) nonzero, fun nil => absurd nil (by simp)⟩

theorem Account.allocate {frame : Word} {rest : List Word}
    (account : Account s managed hand (frame :: rest) T R) :
    s.allocate = (some frame, { s with head := s.words frame 0, free := s.free - 1 }) ∧
      Account { s with head := s.words frame 0, free := s.free - 1 } managed (frame :: hand) rest
        T R := by
  obtain ⟨here, nonzero, later⟩ := account.linked
  refine ⟨?_, later, ?_, fun f => ?_, account.owners, account.shared, account.framed⟩
  · unfold Paging.allocate
    rw [if_neg (by rw [here]; exact nonzero), here]
  · have count := account.count
    rw [List.length_cons] at count
    simp only
    omega
  · have once := account.once f
    rw [List.count_cons] at once ⊢
    omega

theorem Account.allocate_none (account : Account s managed hand [] T R) :
    s.allocate = (none, s) := by
  unfold Paging.allocate
  rw [if_pos (account.empty_iff.mpr rfl)]

theorem Account.fill (account : Account s managed hand chain T R) {frame : Word}
    (held : frame ∉ chain) (contents : Table) :
    Account (s.fill frame contents) managed hand chain T R where
  linked := account.linked.congr fun f member => by
    have apart : f ≠ frame := fun same => held (same ▸ member)
    simp only [Paging.fill, Function.update_of_ne apart]
  count := account.count
  once := account.once
  owners := account.owners
  shared := account.shared
  framed := account.framed

theorem Account.deallocate {frame : Word} {hand' : List Word} {T' R' : Word → Nat}
    (account : Account s managed hand chain T R) (member : frame ∈ managed)
    (moves : ∀ f, (if f = frame then 1 else 0) + hand'.count f + T' f + (if 0 < R' f then 1 else 0) =
      hand.count f + T f + (if 0 < R f then 1 else 0))
    (owners : ∀ f, max 1 (R' f) = max 1 (R f)) :
    Account (s.deallocate frame) managed hand' (frame :: chain) T' R' := by
  have outside : frame ∉ chain := by
    intro inside
    have bound := account.le_one frame
    have move := moves frame
    have counted := List.count_pos_iff.mpr inside
    rw [if_pos rfl] at move
    omega
  have framed := account.framed frame member
  refine ⟨⟨rfl, framed.1, ?_⟩, ?_, fun f => ?_, fun f => ?_, account.shared, account.framed⟩
  · have first : (s.deallocate frame).words frame 0 = s.head := by
      simp [Paging.deallocate, Paging.write]
    rw [first]
    refine account.linked.congr fun f inside => ?_
    have apart : f ≠ frame := fun same => outside (same ▸ inside)
    simp only [Paging.deallocate, Paging.write, Function.update_of_ne apart]
  · simp only [Paging.deallocate, List.length_cons, account.count]
  · have once := account.once f
    have move := moves f
    rw [List.count_cons]
    by_cases same : f = frame
    · subst same
      simp only [beq_self_eq_true, if_true] at move ⊢
      omega
    · have other : (frame == f) = false := by simpa using Ne.symm same
      rw [if_neg same] at move
      simp only [other, Bool.false_eq_true, if_false]
      omega
  · rw [owners]
    exact account.owners f

end Accounts

section Trees

variable {m : Words} {root u : Word} {path : Nat → Index} {k : Nat}

theorem child_some {level : Nat} {i : Index} {e c : Word}
    (down : userTree.child level i e = some c) :
    has e present = true ∧ has e huge = false ∧ (level = 3 → i = 0) ∧ c = frameOf e := by
  simp only [userTree, Option.ite_none_right_eq_some, Option.some.injEq] at down
  exact ⟨down.1.1, down.1.2.1, down.1.2.2, down.2.symm⟩

theorem foldr_and_bit (upper : List Word) (w : Word) (i : Nat)
    (set : (upper.foldr (fun e rest => e &&& rest) w).getLsbD i = true) : w.getLsbD i = true := by
  induction upper with
  | nil => exact set
  | cons e rest ih =>
      rw [List.foldr_cons, BitVec.getLsbD_and, Bool.and_eq_true] at set
      exact ih set.2

theorem Sound.entry (sound : Sound m root) (user : path 3 = 0)
    (route : Route userTree m path 3 root (k + 1) u) :
    (has (m u (path (k + 1))) present = false ∧
        userTree.child (k + 1) (path (k + 1)) (m u (path (k + 1))) = none) ∨
      (has (m u (path (k + 1))) present = true ∧ has (m u (path (k + 1))) writable = true ∧
        userTree.child (k + 1) (path (k + 1)) (m u (path (k + 1))) =
          some (frameOf (m u (path (k + 1))))) := by
  have reading : ∃ upper : List Word, above m root path =
      upper.foldr (fun e rest => e &&& rest) (uppers m (k + 1) u path) := along_route route
  obtain ⟨upper, reads⟩ := reading
  obtain ⟨bit0, bit1⟩ := sound path user
  rw [has_present, reads] at bit0
  rw [has_writable, reads] at bit1
  have here0 := foldr_and_bit upper _ 0 bit0
  have here1 := foldr_and_bit upper _ 1 bit1
  unfold uppers at here0 here1
  rw [along_eq] at here0 here1
  cases down : userTree.child (k + 1) (path (k + 1)) (m u (path (k + 1))) with
  | none =>
      rw [beyond_stop down] at here0
      left
      refine ⟨?_, rfl⟩
      by_contra there
      rw [blocked, if_pos (by simpa using there)] at here0
      exact absurd here0 (by decide)
  | some c =>
      rw [beyond_child down, BitVec.getLsbD_and, Bool.and_eq_true] at here1
      obtain ⟨there, -, -, rfl⟩ := child_some down
      exact Or.inr ⟨there, by rw [has_writable]; exact here1.1, rfl⟩

end Trees

section Leaves

variable {s : Paging} {managed live : Finset Word} {hand chain : List Word} {root u : Word}
  {path : Nat → Index} {k : Nat}

theorem Books.table (books : Books s managed live hand chain) (member : root ∈ live)
    (route : Route userTree s.words path 3 root k u) :
    tableCount s.words live u = 1 ∧ u ∉ chain ∧ u ∉ hand ∧ refCount s.words live u = 0 ∧
      u ∈ managed := by
  have there : 0 < tableCount s.words live u :=
    lt_of_lt_of_le route.occurs (tables_le_occurs member u)
  have once := books.account.once u
  have bound := books.account.le_one u
  have managed := books.account.managed_of (f := u) (by omega)
  rw [if_pos managed] at once
  refine ⟨by omega, fun inside => ?_, fun inside => ?_, ?_, managed⟩
  · have counted := List.count_pos_iff.mpr inside
    omega
  · have counted := List.count_pos_iff.mpr inside
    omega
  · by_contra positive
    rw [if_pos (Nat.pos_of_ne_zero positive)] at once
    omega

theorem write_words (s : Paging) (u : Word) (i : Index) (e : Word) :
    (s.write u i e).words = put s.words u i e := rfl

theorem refCount_leaf (books : Books s managed live hand chain) (member : root ∈ live)
    (route : Route userTree s.words path 3 root 0 u) (e : Word) (f : Word) :
    refCount (put s.words u (path 0) e) live f + names f (s.words u (path 0)) =
      refCount s.words live f + names f e := by
  obtain ⟨once, -⟩ := books.table member route
  exact forest_put (fun _ => 0) (names f) member route once e

theorem tableCount_leaf (books : Books s managed live hand chain) (member : root ∈ live)
    (route : Route userTree s.words path 3 root 0 u) (e : Word) (f : Word) :
    tableCount (put s.words u (path 0) e) live f = tableCount s.words live f := by
  obtain ⟨once, -⟩ := books.table member route
  have change := forest_put (fun v => if v = f then 1 else 0) (fun _ => 0) member
    route once e
  simp only [part, Nat.add_zero] at change
  exact change

theorem leafAt_write (books : Books s managed live hand chain) (member : root ∈ live)
    (route : Route userTree s.words path 3 root 0 u) (e : Word) {r : Word} (there : r ∈ live)
    (p : Nat → Index) [Decidable (r = root ∧ ∀ j, j ≤ 3 → p j = path j)] :
    leafAt (s.write u (path 0) e).words r p =
      if r = root ∧ ∀ j, j ≤ 3 → p j = path j then e else leafAt s.words r p := by
  obtain ⟨once, -⟩ := books.table member route
  exact entryAt_leaf_put member route once e there

theorem above_write (books : Books s managed live hand chain) (member : root ∈ live)
    (route : Route userTree s.words path 3 root 0 u) (e : Word) {r : Word} (there : r ∈ live)
    (p : Nat → Index) : above (s.write u (path 0) e).words r p = above s.words r p := by
  obtain ⟨once, -⟩ := books.table member route
  unfold above uppers
  exact along_put_same (e := e) member route once (fun _ _ => rfl) there p

theorem route_leaf (books : Books s managed live hand chain) (member : root ∈ live)
    (route : Route userTree s.words path 3 root 0 u) (e : Word)
    {r : Word} (there : r ∈ live) {p : Nat → Index} {k : Nat} {v : Word}
    (other : Route userTree s.words p 3 r k v) :
    Route userTree (s.write u (path 0) e).words p 3 r k v := by
  obtain ⟨once, -⟩ := books.table member route
  obtain ⟨alone, others⟩ := absent_elsewhere member route.occurs once
  by_cases same : r = root
  · subst same
    exact route.put_other alone (path 0) e other (Nat.zero_le k)
  · refine other.congr fun w inside => put_table fun here => ?_
    rw [here, others r there same] at inside
    exact Nat.lt_irrefl 0 inside

def SamePage (p path : Nat → Index) : Prop := ∀ j, j ≤ 3 → p j = path j

/-- What writing the leaf entry of one page changes in the trees. -/
structure LeafSet (s s' : Paging) (live : Finset Word) (root : Word) (path : Nat → Index) (e : Word) :
    Prop where
  leaves : ∀ r ∈ live, ∀ p [Decidable (r = root ∧ SamePage p path)], leafAt s'.words r p =
    if r = root ∧ SamePage p path then e else leafAt s.words r p
  tables : ∀ f, tableCount s'.words live f = tableCount s.words live f
  routes : ∀ r ∈ live, ∀ p k u, Route userTree s.words p 3 r k u →
    Route userTree s'.words p 3 r k u
  uppers : ∀ r ∈ live, ∀ p, above s'.words r p = above s.words r p
  tree : ∀ f, treeCount s'.words root f = treeCount s.words root f
  kept : ∀ f, treeCount s.words root f = 0 → s'.words f = s.words f

theorem LeafSet.data {s' : Paging} {e : Word} (sets : LeafSet s s' live root path e)
    (member : root ∈ live) {f : Word} (absent : tableCount s.words live f = 0) :
    s'.words f = s.words f := by
  refine sets.kept f (Nat.eq_zero_of_le_zero ?_)
  rw [← absent]
  exact tables_le_occurs member f

theorem LeafSet.congr {s' s'' : Paging} {e : Word} (sets : LeafSet s s' live root path e)
    (words : s''.words = s'.words) : LeafSet s s'' live root path e := by
  obtain ⟨leaves, tables, routes, uppers, tree, kept⟩ := sets
  rw [← words] at leaves tables routes uppers tree kept
  exact ⟨leaves, tables, routes, uppers, tree, kept⟩

theorem LeafSet.write (books : Books s managed live hand chain) (member : root ∈ live)
    (route : Route userTree s.words path 3 root 0 u) (e : Word) :
    LeafSet s (s.write u (path 0) e) live root path e where
  leaves r there p decided := by
    let _ : Decidable (r = root ∧ ∀ j, j ≤ 3 → p j = path j) := decided
    exact leafAt_write books member route e there p
  tables := tableCount_leaf books member route e
  routes r there p k v := route_leaf books member route e there
  uppers r there p := above_write books member route e there p
  tree f := by
    obtain ⟨once, -⟩ := books.table member route
    obtain ⟨alone, -⟩ := absent_elsewhere member route.occurs once
    have change := tally_put (fun v => if v = f then 1 else 0) (fun _ => 0) route alone e
    simp only [part, Nat.add_zero] at change
    exact change
  kept f absent := put_table fun here => by
    have there : 0 < treeCount s.words root u := route.occurs
    rw [← here, absent] at there
    exact Nat.lt_irrefl 0 there

theorem Books.leaf (books : Books s managed live hand chain) (member : root ∈ live)
    (route : Route userTree s.words path 3 root 0 u) {e : Word} {hand' : List Word}
    {table : List (Word × Nat)} (ok : Paging.SharedOk table)
    (moves : ∀ f n, n + names f (s.words u (path 0)) = refCount s.words live f + names f e →
      hand'.count f + (if 0 < n then 1 else 0) =
          hand.count f + (if 0 < refCount s.words live f then 1 else 0) ∧
        Paging.countIn table f = max 1 n) :
    Books { s.write u (path 0) e with shared := table } managed live hand' chain := by
  have outside := (books.table member route).2.1
  refine ⟨⟨?_, books.account.count, fun f => ?_, fun f => ?_, ok, books.account.framed⟩,
    fun r there p low => ?_⟩
  · refine books.account.linked.congr fun f inside => ?_
    have apart : f ≠ u := fun same => outside (same ▸ inside)
    exact put_table apart
  · have once := books.account.once f
    have move := (moves f _ (refCount_leaf books member route e f)).1
    change chain.count f + hand'.count f + tableCount (put s.words u (path 0) e) live f +
      (if 0 < refCount (put s.words u (path 0) e) live f then 1 else 0) = _
    rw [tableCount_leaf books member route e f]
    omega
  · exact (moves f _ (refCount_leaf books member route e f)).2
  · have same := above_write books member route e there p
    change has (above (s.write u (path 0) e).words r p) present = true ∧ _
    rw [same]
    exact books.sound r there p low

theorem Books.congr {s' : Paging} (books : Books s managed live hand chain)
    (words : s'.words = s.words) (head : s'.head = s.head) (free : s'.free = s.free)
    (shared : s'.shared = s.shared) : Books s' managed live hand chain := by
  obtain ⟨account, sound⟩ := books
  refine ⟨⟨?_, free.trans account.count, ?_, fun f => ?_, ?_, account.framed⟩, ?_⟩
  · rw [words, head]
    exact account.linked
  · rw [words]
    exact account.once
  · rw [words, ← account.owners f]
    simp only [Paging.shareCount, shared]
  · rw [shared]
    exact account.shared
  · rw [words]
    exact sound

theorem Books.held {frame : Word} (books : Books s managed live (frame :: hand) chain) :
    refCount s.words live frame = 0 ∧ tableCount s.words live frame = 0 ∧ frame ∉ chain ∧
      frame ∉ hand ∧ frame ∈ managed := by
  have bound := books.account.le_one frame
  rw [List.count_cons_self] at bound
  refine ⟨?_, by omega, fun inside => ?_, fun inside => ?_, books.account.managed_of (f := frame) ?_⟩
  · by_contra positive
    rw [if_pos (Nat.pos_of_ne_zero positive)] at bound
    omega
  · have counted := List.count_pos_iff.mpr inside
    omega
  · have counted := List.count_pos_iff.mpr inside
    omega
  · rw [List.count_cons_self]
    omega

theorem Books.page (books : Books s managed live hand chain) {frame : Word}
    (named : 0 < refCount s.words live frame) :
    tableCount s.words live frame = 0 ∧ frame ∉ chain ∧ frame ∉ hand ∧ frame ∈ managed := by
  have bound := books.account.le_one frame
  rw [if_pos named] at bound
  refine ⟨by omega, fun inside => ?_, fun inside => ?_, books.account.managed_of (f := frame) ?_⟩
  · have counted := List.count_pos_iff.mpr inside
    omega
  · have counted := List.count_pos_iff.mpr inside
    omega
  · rw [if_pos named]
    omega

theorem names_self {frame e : Word} (there : has e present = true) (same : frameOf e = frame) :
    names frame e = 1 := if_pos ⟨there, same⟩

theorem names_other {f frame e : Word} (same : frameOf e = frame) (other : f ≠ frame) :
    names f e = 0 := if_neg fun both => other (both.2.symm.trans same)

theorem names_absent {f e : Word} (absent : has e present = false) : names f e = 0 :=
  if_neg fun both => absurd (absent.symm.trans both.1) (by decide)

theorem refCount_pos (member : root ∈ live) (there : has (leafAt s.words root path) present = true) :
    0 < refCount s.words live (frameOf (leafAt s.words root path)) := by
  have blank : names (frameOf (leafAt s.words root path)) userTree.blank = 0 := by
    simp [names, has, userTree]
  have bound : names (frameOf (leafAt s.words root path)) (leafAt s.words root path) ≤
      refCount s.words live (frameOf (leafAt s.words root path)) :=
    le_forest member blank path
  rw [names_self there rfl] at bound
  exact bound

theorem Books.recolor (books : Books s managed live hand chain) (member : root ∈ live)
    (route : Route userTree s.words path 3 root 0 u) {e : Word}
    (same : ∀ f, names f e = names f (s.words u (path 0))) :
    Books (s.write u (path 0) e) managed live hand chain := by
  refine books.leaf member route books.account.shared fun f n counts => ?_
  rw [same f, Nat.add_right_cancel_iff] at counts
  rw [counts]
  exact ⟨rfl, books.account.owners f⟩

theorem Books.leafIn {frame : Word} (books : Books s managed live (frame :: hand) chain)
    (member : root ∈ live) (route : Route userTree s.words path 3 root 0 u) {e : Word}
    (absent : has (s.words u (path 0)) present = false) (there : has e present = true)
    (same : frameOf e = frame) : Books (s.write u (path 0) e) managed live hand chain := by
  refine books.leaf member route books.account.shared fun f n counts => ?_
  have owners := books.account.owners f
  rw [names_absent absent, Nat.add_zero] at counts
  by_cases here : f = frame
  · rw [here, names_self there same, books.held.1] at counts
    rw [here, books.held.1] at owners ⊢
    rw [counts, List.count_cons_self]
    exact ⟨rfl, owners⟩
  · rw [names_other same here, Nat.add_zero] at counts
    rw [counts, List.count_cons_of_ne (Ne.symm here)]
    exact ⟨rfl, owners⟩

theorem Books.leafOut (books : Books s managed live hand chain) (member : root ∈ live)
    (route : Route userTree s.words path 3 root 0 u) {e : Word}
    (there : has (s.words u (path 0)) present = true)
    (alone : s.shareCount (frameOf (s.words u (path 0))) ≤ 1) (absent : has e present = false) :
    Books (s.write u (path 0) e) managed live (frameOf (s.words u (path 0)) :: hand) chain := by
  have single : refCount s.words live (frameOf (s.words u (path 0))) = 1 := by
    have owners := books.account.owners (frameOf (s.words u (path 0)))
    have positive : 0 < refCount s.words live (frameOf (leafAt s.words root path)) :=
      refCount_pos member (by rwa [leafAt, entryAt_route route])
    rw [leafAt, entryAt_route route] at positive
    omega
  refine books.leaf member route books.account.shared fun f n counts => ?_
  have owners := books.account.owners f
  rw [names_absent absent, Nat.add_zero] at counts
  by_cases here : f = frameOf (s.words u (path 0))
  · rw [here, names_self there rfl, single] at counts
    rw [here, single] at owners ⊢
    have none : n = 0 := by omega
    rw [none, List.count_cons_self]
    exact ⟨rfl, owners⟩
  · rw [names_other rfl here, Nat.add_zero] at counts
    rw [counts, List.count_cons_of_ne (Ne.symm here)]
    exact ⟨rfl, owners⟩

end Leaves

section Hands

variable {s : Paging} {managed live : Finset Word} {hand chain : List Word} {frame : Word}

/-- What the trees of these spaces read from memory stays where their tables do. -/
structure TreesKept (m m' : Words) (live : Finset Word) : Prop where
  tables : ∀ f, tableCount m' live f = tableCount m live f
  refs : ∀ f, refCount m' live f = refCount m live f
  leaves : ∀ r ∈ live, ∀ p, leafAt m' r p = leafAt m r p
  uppers : ∀ r ∈ live, ∀ p, above m' r p = above m r p
  routes : ∀ r ∈ live, ∀ p k u, Route userTree m p 3 r k u → Route userTree m' p 3 r k u

theorem trees_kept {m m' : Words} (kept : ∀ f, 0 < tableCount m live f → m' f = m f) :
    TreesKept m m' live := by
  have own : ∀ r ∈ live, ∀ v, 0 < tables userTree m 3 r v → m' v = m v := fun r member v there =>
    kept v (lt_of_lt_of_le there (tables_le_occurs member v))
  exact ⟨fun f => forest_congr kept, fun f => forest_congr kept,
    fun r member p => along_congr (own r member), fun r member p => along_congr (own r member),
    fun r member p k u route => route.congr (own r member)⟩

theorem TreesKept.sound {m m' : Words} (trees : TreesKept m m' live)
    (sound : ∀ root ∈ live, Sound m root) : ∀ root ∈ live, Sound m' root := by
  intro r member p low
  rw [trees.uppers r member p]
  exact sound r member p low

theorem Books.trees_fill (books : Books s managed live (frame :: hand) chain) (contents : Table) :
    TreesKept s.words (s.fill frame contents).words live := by
  refine trees_kept fun f there => Function.update_of_ne (fun same => ?_) _ _
  rw [same, books.held.2.1] at there
  exact Nat.lt_irrefl 0 there

theorem Books.take {rest : List Word} (books : Books s managed live hand (frame :: rest)) :
    s.allocate = (some frame, { s with head := s.words frame 0, free := s.free - 1 }) ∧
      Books { s with head := s.words frame 0, free := s.free - 1 } managed live (frame :: hand)
        rest := by
  obtain ⟨taken, account⟩ := books.account.allocate
  exact ⟨taken, account, books.sound⟩

theorem Books.fill (books : Books s managed live (frame :: hand) chain) (contents : Table) :
    Books (s.fill frame contents) managed live (frame :: hand) chain := by
  have trees := books.trees_fill contents
  have account := books.account.fill books.held.2.2.1 contents
  refine ⟨⟨account.linked, account.count, fun f => ?_, fun f => ?_, account.shared, account.framed⟩,
    trees.sound books.sound⟩
  · rw [trees.tables, trees.refs]
    exact account.once f
  · rw [trees.refs]
    exact account.owners f

theorem Books.give (books : Books s managed live (frame :: hand) chain) :
    TreesKept s.words (s.deallocate frame).words live ∧
      Books (s.deallocate frame) managed live hand (frame :: chain) := by
  have trees : TreesKept s.words (s.deallocate frame).words live := by
    refine trees_kept fun f there => Function.update_of_ne (fun same => ?_) _ _
    rw [same, books.held.2.1] at there
    exact Nat.lt_irrefl 0 there
  have account : Account (s.deallocate frame) managed hand (frame :: chain)
      (tableCount s.words live) (refCount s.words live) :=
    books.account.deallocate books.held.2.2.2.2 (fun f => ?_) fun _ => rfl
  · refine ⟨trees, ⟨account.linked, account.count, fun f => ?_, fun f => ?_, account.shared,
      account.framed⟩, trees.sound books.sound⟩
    · rw [trees.tables, trees.refs]
      exact account.once f
    · rw [trees.refs]
      exact account.owners f
  · rw [List.count_cons]
    by_cases same : frame = f
    · simp only [same, if_true, beq_self_eq_true]
      omega
    · have other : (frame == f) = false := by simpa using same
      rw [if_neg (Ne.symm same), other]
      simp

theorem Books.perm {hand' : List Word} (books : Books s managed live hand chain)
    (same : hand'.Perm hand) : Books s managed live hand' chain := by
  refine ⟨⟨books.account.linked, books.account.count, fun f => ?_, books.account.owners,
    books.account.shared, books.account.framed⟩, books.sound⟩
  rw [same.count_eq f]
  exact books.account.once f

end Hands

end FiveAM.Memory.Ownership
