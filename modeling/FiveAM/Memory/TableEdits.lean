/- GID: FiveAM/Memory/TableEdits
   source: kernel/src/memory.rs
   digest: Trees of distinct page tables beside the free list, and edits that stay under one entry. -/

import FiveAM.Memory.Ownership

set_option autoImplicit false
set_option relaxedAutoImplicit false

namespace FiveAM.Memory.TableEdits

open FiveAM.Process.TaskTable (Word)
open FiveAM.Memory.Ownership (Words Chain)
open FiveAM.Memory.Entries FiveAM.Memory.Frames FiveAM.Memory.PageTables
open FiveAM.Lib.RadixTables

/-- The tree of tables as a walk sees it that looks at the present bit alone. -/
def pageTree : Reading Word Index Word where
  child _ _ e := if has e present then some (frameOf e) else none
  blank := 0
  child_blank _ _ := by simp [has]

/-- A tree of distinct tables, each a frame of its own and none of them free. -/
structure Grove (s : Paging) (level : Nat) (table : Word) (chain : List Word) : Prop where
  once : ∀ f, tables pageTree s.words level table f + chain.count f ≤ 1
  framed : ∀ f, 0 < tables pageTree s.words level table f + chain.count f → Framed f
  linked : Chain s.words s.head chain
  count : s.free = chain.length

/-- No entry above the last level names data directly. -/
def Plain (m : Words) : Nat → Word → Prop
  | 0, _ => True
  | level + 1, table => ∀ i, has (m table i) present = true →
      has (m table i) huge = false ∧ Plain m level (frameOf (m table i))

/-- Outside a tree and the free list everything stays. -/
def Keeps (s t : Paging) (level : Nat) (table : Word) (chain : List Word) : Prop :=
  ∀ f, tables pageTree s.words level table f + chain.count f = 0 → t.words f = s.words f

/-- An edit of a tree moves frames between it and the free list only, and leaves
every other frame as it is. -/
structure Edit (s t : Paging) (level : Nat) (table : Word) (chain chain' : List Word) : Prop where
  balance : ∀ f, tables pageTree t.words level table f + chain'.count f =
    tables pageTree s.words level table f + chain.count f
  kept : Keeps s t level table chain
  linked : Chain t.words t.head chain'
  count : t.free = chain'.length
  cr3 : t.cr3 = s.cr3

section Trees

variable {m m' : Words} {s t : Paging} {level : Nat} {table f : Word} {i j : Index}
  {path : Nat → Index} {chain chain' : List Word}

theorem child_present {level : Nat} {e : Word} (there : has e present = true) :
    pageTree.child level i e = some (frameOf e) := if_pos there

theorem child_absent {level : Nat} {e : Word} (absent : has e present = false) :
    pageTree.child level i e = none := by
  simp [pageTree, absent]

theorem absent_zero : has 0 present = false := by decide

theorem present_of_child {level : Nat} {e c : Word} (down : pageTree.child level i e = some c) :
    has e present = true ∧ frameOf e = c := by
  cases there : has e present with
  | false =>
      rw [child_absent there] at down
      cases down
  | true =>
      rw [child_present there] at down
      exact ⟨rfl, Option.some.inj down⟩

theorem Plain.congr (plain : Plain m level table)
    (kept : ∀ f, 0 < tables pageTree m level table f → m' f = m f) : Plain m' level table := by
  induction level generalizing table with
  | zero => trivial
  | succ level ih =>
      intro i there
      rw [kept table (tables_self _ _)] at there ⊢
      obtain ⟨fine, below⟩ := plain i there
      exact ⟨fine, ih below fun f inside => kept f (occurs_child (child_present there) inside)⟩

theorem Plain.empty (blank : ∀ i, m table i = 0) (level : Nat) : Plain m level table := by
  cases level with
  | zero => trivial
  | succ level =>
      intro i there
      rw [blank i, absent_zero] at there
      cases there

theorem Grove.apart (grove : Grove s level table chain) : f ∈ chain → f ≠ table := by
  rintro free rfl
  have once := grove.once f
  have self := tables_self (R := pageTree) (m := s.words) level f
  have free := List.count_pos_iff.mpr free
  omega

theorem Grove.free_absent (grove : Grove s level table chain) (free : f ∈ chain) :
    tables pageTree s.words level table f = 0 := by
  have once := grove.once f
  have free := List.count_pos_iff.mpr free
  omega

theorem Grove.single (grove : Grove s level table chain) : tables pageTree s.words level table f ≤ 1 :=
  le_trans (Nat.le_add_right _ _) (grove.once f)

theorem Grove.above (grove : Grove s level table chain) (i : Index) :
    under pageTree s.words level i (s.words table i) table = 0 := by
  have bound := under_le (R := pageTree) (m := s.words) (n := level) (t := table) (f := table) (i := i)
  have single := grove.single (f := table)
  simp only [if_true] at bound
  omega

theorem under_le_tables : under pageTree m level i (m table i) f ≤ tables pageTree m level table f :=
  le_trans (Nat.le_add_left _ _) under_le

theorem Edit.grove (edit : Edit s t level table chain chain') (grove : Grove s level table chain) :
    Grove t level table chain' where
  once f := edit.balance f ▸ grove.once f
  framed f there := grove.framed f (edit.balance f ▸ there)
  linked := edit.linked
  count := edit.count

theorem Edit.refl (grove : Grove s level table chain) : Edit s s level table chain chain :=
  ⟨fun _ => rfl, fun _ _ => rfl, grove.linked, grove.count, rfl⟩

end Trees

/-- The walk enters the table under one entry of its table: the entry child_present there,
and what else the step changed came from the free list. -/
structure Enters (s s1 : Paging) (level : Nat) (table c : Word) (i : Index)
    (chain chain1 : List Word) : Prop where
  others : ∀ j, j ≠ i → s1.words table j = s.words table j
  entry : pageTree.child (level + 1) i (s1.words table i) = some c
  kept : ∀ f, f ≠ table → f ∉ chain → s1.words f = s.words f
  grove : Grove s1 level c chain1
  balance : ∀ f, tables pageTree s1.words level c f + chain1.count f =
    under pageTree s.words (level + 1) i (s.words table i) f + chain.count f
  leaves : ∀ path, path (level + 1) = i →
    entryAt pageTree s1.words level c path = entryAt pageTree s.words (level + 1) table path
  plain : Plain s.words (level + 1) table →
    has (s1.words table i) huge = false ∧ Plain s1.words level c
  cr3 : s1.cr3 = s.cr3

/-- The entry that leads to a table is cleared and the table given back. -/
def detached (s : Paging) (table : Word) (i : Index) (c : Word) : Paging :=
  (s.write table i 0).deallocate c

/-- A frame taken from the free list, cleared and made the table one entry leads
to. -/
def grown (s : Paging) (c table : Word) (i : Index) (e : Word) : Paging :=
  (({ s with head := s.words c 0, free := s.free - 1 } : Paging).fill c fun _ => 0).write table i e

section Steps

variable {s s1 t : Paging} {level : Nat} {table c f : Word} {i : Index}
  {path : Nat → Index} {chain chain1 chain' rest : List Word}

theorem Enters.top (enters : Enters s s1 level table c i chain chain1)
    (grove : Grove s (level + 1) table chain) (kept : Keeps s1 t level c chain1) :
    t.words table = s1.words table := by
  refine kept table ?_
  rw [enters.balance, grove.above i, Nat.zero_add]
  exact List.count_eq_zero.mpr fun free => grove.apart free rfl

theorem Enters.elsewhere (enters : Enters s s1 level table c i chain chain1)
    (kept : Keeps s1 t level c chain1) (other : f ≠ table)
    (off : under pageTree s.words (level + 1) i (s.words table i) f + chain.count f = 0) :
    t.words f = s.words f := by
  have unlisted : f ∉ chain := List.count_eq_zero.mp (Nat.add_eq_zero_iff.mp off).2
  rw [kept f (by rw [enters.balance, off]), enters.kept f other unlisted]

theorem Enters.beside (enters : Enters s s1 level table c i chain chain1)
    (grove : Grove s (level + 1) table chain) (kept : Keeps s1 t level c chain1) :
    ∀ j d, j ≠ i → pageTree.child (level + 1) j (s.words table j) = some d →
      ∀ u, 0 < tables pageTree s.words level d u → t.words u = s.words u := by
  intro j d other down u there
  obtain ⟨apart, off⟩ := apart_beside grove.single other down there
  refine enters.elsewhere kept apart.symm ?_
  have once := grove.once u
  have inside := occurs_child down there
  omega

theorem Enters.keeps (enters : Enters s s1 level table c i chain chain1)
    (kept : Keeps s1 t level c chain1) : Keeps s t (level + 1) table chain := by
  intro f off
  have self := tables_self (R := pageTree) (m := s.words) (level + 1) table
  have other : f ≠ table := by
    rintro rfl
    omega
  have below : under pageTree s.words (level + 1) i (s.words table i) f ≤
      tables pageTree s.words (level + 1) table f := under_le_tables
  exact enters.elsewhere kept other (by omega)

theorem Enters.inner (enters : Enters s s1 level table c i chain chain)
    (grove : Grove s (level + 1) table chain) :
    ∀ u, 0 < tables pageTree s1.words level c u → s1.words u = s.words u := by
  intro u there
  have entered := enters.balance u
  have below : under pageTree s.words (level + 1) i (s.words table i) u ≤
      tables pageTree s.words (level + 1) table u := under_le_tables
  have once := grove.once u
  have unlisted : u ∉ chain := List.count_eq_zero.mp (by omega)
  refine enters.kept u ?_ unlisted
  rintro rfl
  have above := grove.above i
  omega

theorem Enters.edit (enters : Enters s s1 level table c i chain chain1)
    (grove : Grove s (level + 1) table chain) (edit : Edit s1 t level c chain1 chain') :
    Edit s t (level + 1) table chain chain' where
  balance f := by
    have top := enters.top grove edit.kept
    have moved := tables_beside (f := f) (i := i)
      (fun j other => (congrFun top j).trans (enters.others j other)) (enters.beside grove edit.kept)
    have entered := under_child (f := f) (m := t.words) enters.entry
    rw [← top] at entered
    have inner := edit.balance f
    have started := enters.balance f
    omega
  kept := enters.keeps edit.kept
  linked := edit.linked
  count := edit.count
  cr3 := edit.cr3.trans enters.cr3

theorem Enters.leaf_on (enters : Enters s s1 level table c i chain chain1)
    (grove : Grove s (level + 1) table chain) (kept : Keeps s1 t level c chain1)
    (turn : path (level + 1) = i) :
    entryAt pageTree t.words (level + 1) table path = entryAt pageTree t.words level c path := by
  refine entryAt_child ?_
  rw [enters.top grove kept, turn]
  exact enters.entry

theorem Enters.leaf_off (enters : Enters s s1 level table c i chain chain1)
    (grove : Grove s (level + 1) table chain) (kept : Keeps s1 t level c chain1)
    (turn : path (level + 1) ≠ i) :
    entryAt pageTree t.words (level + 1) table path =
      entryAt pageTree s.words (level + 1) table path :=
  entryAt_beside (fun j other => (congrFun (enters.top grove kept) j).trans (enters.others j other))
    (enters.beside grove kept) turn

theorem Enters.plain_after (enters : Enters s s1 level table c i chain chain1)
    (grove : Grove s (level + 1) table chain) (kept : Keeps s1 t level c chain1)
    (plain : Plain s.words (level + 1) table) (below : Plain s1.words level c → Plain t.words level c) :
    Plain t.words (level + 1) table := by
  intro j there
  rw [enters.top grove kept] at there ⊢
  by_cases turn : j = i
  · subst turn
    obtain ⟨fine, inner⟩ := enters.plain plain
    exact ⟨fine, (present_of_child enters.entry).2 ▸ below inner⟩
  · rw [enters.others j turn] at there ⊢
    obtain ⟨fine, inner⟩ := plain j there
    exact ⟨fine, inner.congr (enters.beside grove kept j _ turn (child_present there))⟩

theorem Enters.widen (grove : Grove s (level + 1) table chain) {e : Word}
    (there : has (s.words table i) present = true) (same : pageTree.child (level + 1) i e =
      some (frameOf (s.words table i))) (plain : has e huge = has (s.words table i) huge) :
    Enters s (s.write table i e) level table (frameOf (s.words table i)) i chain chain := by
  have down : pageTree.child (level + 1) i (s.words table i) = some (frameOf (s.words table i)) :=
    child_present there
  have absent : tables pageTree s.words level (frameOf (s.words table i)) table = 0 := by
    rw [← under_child down]
    exact grove.above i
  have below : ∀ u, 0 < tables pageTree s.words level (frameOf (s.words table i)) u →
      (s.write table i e).words u = s.words u := fun u there => put_table fun here => by
    rw [here, absent] at there
    exact Nat.lt_irrefl 0 there
  have counts : ∀ f, tables pageTree (s.write table i e).words level (frameOf (s.words table i)) f =
      tables pageTree s.words level (frameOf (s.words table i)) f := fun f => tally_congr below
  have lower : ∀ f, tables pageTree s.words level (frameOf (s.words table i)) f ≤
      tables pageTree s.words (level + 1) table f := fun f =>
    le_trans (Nat.le_add_left _ _) (tables_child down)
  refine ⟨fun j other => put_index other, ?_, fun f other _ => put_table other, ?_, fun f => ?_,
    fun path turn => ?_, fun fine => ?_, rfl⟩
  · rw [show (s.write table i e).words table i = e from put_self]
    exact same
  · refine ⟨fun f => ?_, fun f there => grove.framed f ?_, ?_, grove.count⟩
    · rw [counts]
      exact le_trans (Nat.add_le_add_right (lower f) _) (grove.once f)
    · rw [counts] at there
      have bound := lower f
      omega
    · exact grove.linked.congr fun f free => put_table (grove.apart free)
  · rw [counts, under_child down]
  · subst turn
    rw [entryAt_child down]
    exact along_congr below
  · obtain ⟨fine, inner⟩ := fine i there
    rw [show (s.write table i e).words table i = e from put_self, plain]
    exact ⟨fine, inner.congr below⟩

theorem Enters.stay (grove : Grove s (level + 1) table chain)
    (there : has (s.words table i) present = true) :
    Enters s s level table (frameOf (s.words table i)) i chain chain := by
  have same : s.write table i (s.words table i) = s := by
    simp [Paging.write]
  have enters := Enters.widen grove there (child_present there) rfl
  rwa [same] at enters

theorem Grove.allocate (grove : Grove s level table (c :: rest)) :
    s.allocate = (some c, { s with head := s.words c 0, free := s.free - 1 }) := by
  obtain ⟨head, nonzero, -⟩ := grove.linked
  rw [Paging.allocate, head, if_neg nonzero]

theorem Grove.allocate_none (grove : Grove s level table []) : s.allocate = (none, s) := by
  have head : s.head = 0 := grove.linked
  rw [Paging.allocate, if_pos head]

theorem count_given {free : List Word} (f : Word) :
    (c :: free).count f = (if c = f then 1 else 0) + free.count f := by
  rw [List.count_cons, Nat.add_comm]
  by_cases same : c = f <;> simp [same]

theorem grown_empty {e : Word} (apart : c ≠ table) (j : Index) :
    (grown s c table i e).words c j = 0 :=
  (congrFun (put_table apart) j).trans (by simp [Paging.fill])

theorem grown_other {e : Word} (other : f ≠ table) (off : f ≠ c) :
    (grown s c table i e).words f = s.words f :=
  (put_table other).trans (Function.update_of_ne off _ _)

theorem Enters.grow (grove : Grove s (level + 1) table (c :: rest)) {e : Word}
    (absent : has (s.words table i) present = false)
    (fresh : pageTree.child (level + 1) i e = some c) (plain : has e huge = false) :
    Enters s (grown s c table i e) level table c i (c :: rest) rest := by
  have apart : c ≠ table := grove.apart List.mem_cons_self
  have single : ∀ f, (if c = f then 1 else 0) + rest.count f ≤ 1 := fun f => by
    have once := grove.once f
    rw [count_given] at once
    omega
  have unlisted : c ∉ rest := fun inside => by
    have once := single c
    have listed := List.count_pos_iff.mpr inside
    simp only [if_true] at once
    omega
  obtain ⟨-, -, linked⟩ := grove.linked
  have count := grove.count
  rw [List.length_cons] at count
  have cleared : ∀ f, f ≠ table → f ≠ c → (grown s c table i e).words f = s.words f :=
    fun f => grown_other
  have empty : ∀ j, (grown s c table i e).words c j = 0 := grown_empty apart
  have others : ∀ j, j ≠ i → (grown s c table i e).words table j = s.words table j :=
    fun j other => (put_index other).trans (congrFun (Function.update_of_ne apart.symm _ _) j)
  have leads : (grown s c table i e).words table i = e := put_self
  have head : (grown s c table i e).head = s.words c 0 := rfl
  have free : (grown s c table i e).free = s.free - 1 := rfl
  have cr3 : (grown s c table i e).cr3 = s.cr3 := rfl
  generalize grown s c table i e = s1 at cleared empty others leads head free cr3 ⊢
  have counts : ∀ f, tables pageTree s1.words level c f = if c = f then 1 else 0 := fun f =>
    tables_childless fun j => by
      rw [empty j]
      exact child_absent absent_zero
  refine ⟨others, leads ▸ fresh, fun f other off => ?_, ⟨fun f => ?_, fun f there => ?_, ?_, ?_⟩,
    fun f => ?_, fun path turn => ?_, fun _ => ⟨leads ▸ plain, Plain.empty empty level⟩, cr3⟩
  · exact cleared f other fun same => off (same ▸ List.mem_cons_self)
  · rw [counts]
    exact single f
  · refine grove.framed f ?_
    rw [counts] at there
    rw [count_given]
    omega
  · rw [head]
    exact linked.congr fun f inside => cleared f (grove.apart (List.mem_cons_of_mem _ inside))
      fun same => unlisted (same ▸ inside)
  · rw [free, count]
    rfl
  · rw [counts, under_stop (child_absent absent), Nat.zero_add, count_given]
  · subst turn
    rw [entryAt_stop (child_absent absent)]
    have blank : ∀ j, s1.words c j = pageTree.blank := empty
    exact along_empty (by rfl) blank level path

theorem Edit.last (grove : Grove s 0 table chain) (i : Index) (e : Word) :
    Edit s (s.write table i e) 0 table chain chain where
  balance f := by rw [tables_last, tables_last]
  kept f off := put_table fun same => by
    rw [same, tables_last, if_pos rfl] at off
    omega
  linked := grove.linked.congr fun _ free => put_table (grove.apart free)
  count := grove.count
  cr3 := rfl

theorem Edit.trans {u : Paging} {chain'' : List Word} (first : Edit s t level table chain chain')
    (second : Edit t u level table chain' chain'') : Edit s u level table chain chain'' where
  balance f := (second.balance f).trans (first.balance f)
  kept f off := (second.kept f (by rw [first.balance, off])).trans (first.kept f off)
  linked := second.linked
  count := second.count
  cr3 := second.cr3.trans first.cr3

theorem detached_other (other : f ≠ table) (off : f ≠ c) :
    (detached s table i c).words f = s.words f :=
  (Function.update_of_ne off _ _).trans (put_table other)

theorem detached_entry {j : Index} (apart : table ≠ c) (other : j ≠ i) :
    (detached s table i c).words table j = s.words table j :=
  (congrFun (Function.update_of_ne apart _ _) j).trans (put_index other)

theorem detached_blank (apart : table ≠ c) : (detached s table i c).words table i = 0 :=
  (congrFun (Function.update_of_ne apart _ _) i).trans put_self

theorem bare_leaf (bare : ∀ j, has (s.words c j) present = false) :
    has (entryAt pageTree s.words level c path) present = false := by
  cases level with
  | zero => exact bare (path 0)
  | succ level =>
      rw [entryAt_stop (child_absent (bare _))]
      exact absent_zero

theorem Edit.detach (grove : Grove s (level + 1) table chain)
    (down : pageTree.child (level + 1) i (s.words table i) = some c)
    (bare : ∀ j, has (s.words c j) present = false) :
    Edit s (detached s table i c) (level + 1) table chain (c :: chain) ∧
      (∀ path, path (level + 1) ≠ i →
        entryAt pageTree (detached s table i c).words (level + 1) table path =
          entryAt pageTree s.words (level + 1) table path) ∧
      (Plain s.words (level + 1) table → Plain (detached s table i c).words (level + 1) table) ∧
      ∀ j, has ((detached s table i c).words c j) present = false := by
  have counts : ∀ f, under pageTree s.words (level + 1) i (s.words table i) f =
      if c = f then 1 else 0 := fun f =>
    (under_child down).trans (tables_childless fun j => child_absent (bare j))
  have apart : table ≠ c := by
    rintro rfl
    have none := grove.above i
    rw [counts, if_pos rfl] at none
    cases none
  have inside : 0 < tables pageTree s.words (level + 1) table c :=
    occurs_child down (tables_self _ _)
  have listed : ∀ f ∈ chain, f ≠ c := fun f free same => by
    have absent := grove.free_absent (same ▸ free)
    omega
  have others : ∀ j, j ≠ i → (detached s table i c).words table j = s.words table j :=
    fun j => detached_entry apart
  have below : ∀ j d, j ≠ i → pageTree.child (level + 1) j (s.words table j) = some d →
      ∀ u, 0 < tables pageTree s.words level d u → (detached s table i c).words u = s.words u := by
    intro j d other there u within
    obtain ⟨distinct, off⟩ := apart_beside grove.single other there within
    refine detached_other distinct.symm fun same => ?_
    rw [counts, if_pos same.symm] at off
    cases off
  have head : Framed s.head ∨ s.head = 0 := by
    cases chain with
    | nil => exact .inr grove.linked
    | cons first rest =>
        obtain ⟨same, -⟩ := grove.linked
        rw [same]
        exact .inl (grove.framed first (Nat.add_pos_right _ (by simp)))
  refine ⟨⟨fun f => ?_, fun f off => ?_, ?_, ?_, rfl⟩, fun path turn => entryAt_beside others below turn,
    fun plain j there => ?_, fun j => ?_⟩
  · have moved := tables_beside (f := f) others below
    rw [counts, detached_blank apart, under_stop (child_absent absent_zero)] at moved
    rw [count_given]
    omega
  · have self := tables_self (R := pageTree) (m := s.words) (level + 1) table
    refine detached_other ?_ ?_
    · rintro rfl
      omega
    · rintro rfl
      omega
  · refine ⟨rfl, (grove.framed c (Nat.add_pos_left inside _)).1, ?_⟩
    have next : (detached s table i c).words c 0 = s.head := put_self
    rw [next]
    exact grove.linked.congr fun f free => detached_other (grove.apart free) (listed f free)
  · have count := grove.count
    change s.free + 1 = _
    rw [count]
    rfl
  · by_cases turn : j = i
    · rw [turn, detached_blank apart, absent_zero] at there
      cases there
    · rw [others j turn] at there ⊢
      obtain ⟨fine, inner⟩ := plain j there
      exact ⟨fine, inner.congr (below j _ turn (child_present there))⟩
  · by_cases first : j = 0
    · rw [first, show (detached s table i c).words c 0 = s.head from put_self]
      rcases head with framed | zero
      · rw [has_present]
        exact framed_bit framed (by decide)
      · rw [zero]
        exact absent_zero
    · have same : (detached s table i c).words c j = s.words c j :=
        (put_index first).trans (congrFun (put_table apart.symm) j)
      rw [same]
      exact bare j

end Steps

end FiveAM.Memory.TableEdits
