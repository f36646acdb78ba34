/- GID: FiveAM/Memory/Unmapping
   source: kernel/src/memory.rs
   digest: Unmapping a page and pruning the tables it leaves empty, beside the walk that maps one. -/

import FiveAM.Memory.TableEdits
import FiveAM.Memory.Spaces

set_option autoImplicit false
set_option relaxedAutoImplicit false

namespace FiveAM.Memory.Unmapping

open FiveAM.Process.TaskTable (Word)
open FiveAM.Memory.Ownership (Words Chain)
open FiveAM.Memory.Spaces (arrived)
open FiveAM.Memory.Entries FiveAM.Memory.Frames FiveAM.Memory.PageTables FiveAM.Memory.TableEdits
open FiveAM.Lib.RadixTables

/-- Does this table have no present entries left? -/
def tableIsEmpty (s : Paging) (table : Word) : Bool :=
  (List.finRange 512).all fun i => !has (s.words table i) present

/-- The walk of `unmap_page` from a table at a level on, and the pruning on the way
back up: the entry that was cleared, and whether the loop goes on to the table
above. -/
def unmapFrom (address : Word) : Nat → Word → Paging → Option (Word × Bool × Paging)
  | 0, table, s =>
      let i := indexes address 0
      let entry := s.words table i
      if has entry present = false then none
      else
        let s := s.write table i 0
        some (entry, tableIsEmpty s table, s)
  | level + 1, table, s =>
      let i := indexes address (level + 1)
      let entry := s.words table i
      if has entry present = false then none
      else
        match unmapFrom address level (frameOf entry) s with
        | none => none
        | some (leaf, false, s) => some (leaf, false, s)
        | some (leaf, true, s) =>
            let s := (s.write table i 0).deallocate (frameOf entry)
            some (leaf, tableIsEmpty s table, s)

/-- Undo a mapping and hand back the frame it pointed at. -/
def unmapPage (s : Paging) (address : Word) : Option Word × Paging :=
  match unmapFrom address 3 s.cr3 s with
  | none => (none, s)
  | some (entry, _, s) => (some (frameOf entry), s)

/-- What `map_page_in` does from a table at a level on: the tables on the way, and
the entry the walk ends at. -/
def mapFrom (address frame flags : Word) : Nat → Word → Paging → Except String Unit × Paging
  | 0, table, s =>
      let i := indexes address 0
      if has (s.words table i) present then (.error "that address is already mapped", s)
      else (.ok (), s.write table i (leafFor frame flags))
  | level + 1, table, s =>
      let i := indexes address (level + 1)
      let entry := s.words table i
      if has entry present then
        let s := if flags &&& user ≠ 0 ∧ has entry user = false then s.write table i (entry ||| user)
          else s
        mapFrom address frame flags level (frameOf entry) s
      else
        match s.allocate with
        | (none, s) => (.error "out of physical memory", s)
        | (some new, s) =>
            let s := s.fill new fun _ => 0
            let s := s.write table i (tableEntry new (flags &&& user))
            mapFrom address frame flags level new s

section Walks

variable {s t : Paging} {address frame flags : Word} {level : Nat} {table : Word}

theorem tableIsEmpty_iff : tableIsEmpty s table = true ↔
    ∀ i, has (s.words table i) present = false := by
  simp [tableIsEmpty]

theorem tableIsEmpty_congr (same : t.words table = s.words table) :
    tableIsEmpty t table = tableIsEmpty s table := by
  rw [tableIsEmpty, tableIsEmpty, same]

theorem mapFrom_descend : mapFrom address frame flags level table s =
    match descend address (flags &&& user) level table s with
    | (.error text, t) => (.error text, t)
    | (.ok u, t) => mapFrom address frame flags 0 u t := by
  induction level generalizing table s with
  | zero => rfl
  | succ level ih =>
      rw [mapFrom, descend]
      dsimp only
      cases there : has (s.words table (indexes address (level + 1))) present with
      | true =>
          rw [if_pos rfl, if_pos rfl]
          exact ih
      | false =>
          rw [if_neg (by simp), if_neg (by simp)]
          obtain ⟨found, s1⟩ := s.allocate
          cases found with
          | none => rfl
          | some new => exact ih

theorem mapPageIn_eq (s : Paging) (root address frame flags : Word) :
    mapPageIn s root address frame flags =
      match mapFrom address frame flags 3 root s with
      | (.error text, t) => (.error text, t)
      | (.ok (), t) => (.ok (), arrived t address flags) := by
  rw [mapFrom_descend, mapPageIn]
  obtain ⟨answer, t⟩ := descend address (flags &&& user) 3 root s
  cases answer with
  | error text => rfl
  | ok u =>
      dsimp only [mapFrom]
      by_cases taken : has (t.words u (indexes address 0)) present = true
      · rw [if_pos taken, if_pos taken]
      · rw [if_neg taken, if_neg taken]
        rfl

theorem mapPageIn_ok {root : Word} (run : mapPageIn s root address frame flags = (.ok (), t)) :
    ∃ t0, mapFrom address frame flags 3 root s = (.ok (), t0) ∧ t = arrived t0 address flags := by
  rw [mapPageIn_eq] at run
  generalize mapFrom address frame flags 3 root s = found at run ⊢
  obtain ⟨answer, t0⟩ := found
  cases answer with
  | error text => cases run
  | ok u => exact ⟨t0, rfl, (Prod.mk.inj run).2.symm⟩

theorem mapPageIn_error {root : Word} {text : String}
    (run : mapPageIn s root address frame flags = (.error text, t)) :
    mapFrom address frame flags 3 root s = (.error text, t) := by
  rw [mapPageIn_eq] at run
  generalize mapFrom address frame flags 3 root s = found at run ⊢
  obtain ⟨answer, t0⟩ := found
  cases answer with
  | error text => exact run
  | ok u => cases run

theorem unmapFrom_replacers (r : Replacers) :
    unmapFrom address level table { s with replacers := r } =
      (unmapFrom address level table s).map fun found =>
        (found.1, found.2.1, { found.2.2 with replacers := r }) := by
  induction level generalizing table s with
  | zero =>
      rw [unmapFrom, unmapFrom]
      dsimp only
      split_ifs
      · rfl
      · rw [Option.map_some]
        dsimp only
        rw [tableIsEmpty_congr (s := s.write table (indexes address 0) 0)
          (t := ({ s with replacers := r } : Paging).write table (indexes address 0) 0) rfl]
        rfl
  | succ level ih =>
      rw [unmapFrom, unmapFrom, ih]
      dsimp only
      split_ifs
      · rfl
      · cases unmapFrom address level (frameOf (s.words table (indexes address (level + 1)))) s with
        | none => rfl
        | some found =>
            obtain ⟨leaf, full, t⟩ := found
            cases full with
            | false => rfl
            | true =>
                rw [Option.map_some]
                dsimp only
                rw [Option.map_some]
                dsimp only
                rw [tableIsEmpty_congr
                  (s := (t.write table (indexes address (level + 1)) 0).deallocate
                    (frameOf (s.words table (indexes address (level + 1)))))
                  (t := (({ t with replacers := r } : Paging).write table
                    (indexes address (level + 1)) 0).deallocate
                    (frameOf (s.words table (indexes address (level + 1))))) rfl]
                rfl

end Walks

section Mapping

variable {s t : Paging} {address frame flags : Word} {level : Nat} {table : Word}
  {chain : List Word}

/-- The next step of the walk: the entry is there and perhaps widened, or a fresh
table is hung in, or there is no frame for one. -/
inductive MapStep (address frame flags : Word) (level : Nat) (table : Word) (s : Paging) :
    List Word → Prop where
  | there {s1 : Paging} {chain : List Word}
      (present : has (s.words table (indexes address (level + 1))) present = true)
      (enters : Enters s s1 level table (frameOf (s.words table (indexes address (level + 1))))
        (indexes address (level + 1)) chain chain)
      (run : mapFrom address frame flags (level + 1) table s =
        mapFrom address frame flags level (frameOf (s.words table (indexes address (level + 1)))) s1) :
      MapStep address frame flags level table s chain
  | grown {s1 : Paging} {c : Word} {rest : List Word}
      (absent : has (s.words table (indexes address (level + 1))) present = false)
      (enters : Enters s s1 level table c (indexes address (level + 1)) (c :: rest) rest)
      (empty : ∀ j, s1.words c j = 0)
      (run : mapFrom address frame flags (level + 1) table s =
        mapFrom address frame flags level c s1) :
      MapStep address frame flags level table s (c :: rest)
  | short (absent : has (s.words table (indexes address (level + 1))) present = false)
      (run : mapFrom address frame flags (level + 1) table s =
        (.error "out of physical memory", s)) :
      MapStep address frame flags level table s []

theorem mapFrom_step (address frame flags : Word) (grove : Grove s (level + 1) table chain) :
    MapStep address frame flags level table s chain := by
  cases there : has (s.words table (indexes address (level + 1))) present with
  | true =>
      by_cases wide : flags &&& user ≠ 0 ∧
          has (s.words table (indexes address (level + 1))) user = false
      · refine .there there (Enters.widen grove there
          (e := s.words table (indexes address (level + 1)) ||| user) ?_ ?_) ?_
        · rw [child_present (by rw [present_widened, there]), frameOf_widened]
        · exact huge_widened _
        · rw [mapFrom]
          dsimp only
          rw [if_pos there, if_pos wide]
      · refine .there there (Enters.stay grove there) ?_
        rw [mapFrom]
        dsimp only
        rw [if_pos there, if_neg wide]
  | false =>
      cases chain with
      | nil =>
          refine .short there ?_
          rw [mapFrom]
          dsimp only
          rw [if_neg (by simp [there]), grove.allocate_none]
      | cons c rest =>
          have framed : Framed c := grove.framed c (Nat.add_pos_right _ (by simp))
          refine .grown there (Enters.grow grove (e := tableEntry c (flags &&& user)) there ?_
            (huge_tableEntry framed)) (grown_empty (grove.apart List.mem_cons_self)) ?_
          · rw [child_present (present_tableEntry _ _), frameOf_tableEntry framed]
          · rw [mapFrom]
            dsimp only
            rw [if_neg (by simp [there]), grove.allocate]
            rfl

/-- The indexes of a page, from a level on down. -/
def Follows (address : Word) (level : Nat) (path : Nat → Index) : Prop :=
  ∀ j, j ≤ level → path j = indexes address j

theorem follows_succ {path : Nat → Index} : Follows address (level + 1) path ↔
    path (level + 1) = indexes address (level + 1) ∧ Follows address level path :=
  ⟨fun all => ⟨all _ (Nat.le_refl _), fun j low => all j (Nat.le_succ_of_le low)⟩,
    fun both j low => (Nat.lt_or_eq_of_le low).elim (fun below => both.2 j (Nat.le_of_lt_succ below))
      fun top => top ▸ both.1⟩

/-- What mapping a page from a table on comes to. -/
structure Maps (s t : Paging) (address frame flags : Word) (level : Nat) (table : Word)
    (answer : Except String Unit) : Prop where
  others : ∀ path, ¬(answer = .ok () ∧ Follows address level path) →
    entryAt pageTree t.words level table path = entryAt pageTree s.words level table path
  leaf : answer = .ok () →
    has (entryAt pageTree s.words level table (indexes address)) present = false ∧
      entryAt pageTree t.words level table (indexes address) = leafFor frame flags
  plain : Plain s.words level table → Plain t.words level table

private theorem Maps.enter {s1 : Paging} {c : Word} {chain1 chain' : List Word}
    {answer : Except String Unit} (grove : Grove s (level + 1) table chain)
    (enters : Enters s s1 level table c (indexes address (level + 1)) chain chain1)
    (edit : Edit s1 t level c chain1 chain') (maps : Maps s1 t address frame flags level c answer) :
    Maps s t address frame flags (level + 1) table answer where
  others path off := by
    by_cases turn : path (level + 1) = indexes address (level + 1)
    · rw [enters.leaf_on grove edit.kept turn, ← enters.leaves path turn]
      exact maps.others path fun both => off ⟨both.1, follows_succ.mpr ⟨turn, both.2⟩⟩
    · exact enters.leaf_off grove edit.kept turn
  leaf fine := by
    rw [enters.leaf_on grove edit.kept rfl, ← enters.leaves _ rfl]
    exact maps.leaf fine
  plain before := enters.plain_after grove edit.kept before maps.plain

theorem mapFrom_spec {answer : Except String Unit} (grove : Grove s level table chain)
    (run : mapFrom address frame flags level table s = (answer, t)) :
    (∃ chain', Edit s t level table chain chain') ∧
      Maps s t address frame flags level table answer := by
  induction level generalizing s table chain with
  | zero =>
      rw [mapFrom] at run
      split_ifs at run with there
      · obtain ⟨rfl, rfl⟩ := Prod.mk.inj run
        exact ⟨⟨chain, Edit.refl grove⟩, fun _ _ => rfl, fun fine => (by cases fine), id⟩
      · obtain ⟨rfl, rfl⟩ := Prod.mk.inj run
        refine ⟨⟨chain, Edit.last grove _ _⟩, fun path off => ?_,
          fun _ => ⟨Bool.eq_false_of_not_eq_true there, put_self⟩, id⟩
        refine put_index fun same => off ⟨rfl, fun j low => ?_⟩
        rw [Nat.le_zero.mp low]
        exact same
  | succ level ih =>
      cases mapFrom_step address frame flags grove with
      | there _ enters onward =>
          obtain ⟨⟨chain', edit⟩, maps⟩ := ih enters.grove (onward.symm.trans run)
          exact ⟨⟨chain', enters.edit grove edit⟩, maps.enter grove enters edit⟩
      | grown _ enters _ onward =>
          obtain ⟨⟨chain', edit⟩, maps⟩ := ih enters.grove (onward.symm.trans run)
          exact ⟨⟨chain', enters.edit grove edit⟩, maps.enter grove enters edit⟩
      | short _ stops =>
          obtain ⟨rfl, rfl⟩ := Prod.mk.inj (stops.symm.trans run)
          exact ⟨⟨[], Edit.refl grove⟩, fun _ _ => rfl, fun fine => (by cases fine), id⟩

end Mapping

section Undoing

variable {s t : Paging} {address frame flags : Word} {level : Nat} {table c : Word}
  {chain rest : List Word}

theorem unmapFrom_last (there : has (s.words table (indexes address 0)) present = true) :
    unmapFrom address 0 table s = some (s.words table (indexes address 0),
      tableIsEmpty (s.write table (indexes address 0) 0) table, s.write table (indexes address 0) 0) := by
  rw [unmapFrom, there]
  rfl

theorem unmapFrom_stop {u : Paging} {leaf : Word}
    (there : has (s.words table (indexes address (level + 1))) present = true)
    (below : unmapFrom address level (frameOf (s.words table (indexes address (level + 1)))) s =
      some (leaf, false, u)) :
    unmapFrom address (level + 1) table s = some (leaf, false, u) := by
  rw [unmapFrom]
  dsimp only
  rw [if_neg (by simp [there]), below]

theorem unmapFrom_prune {u : Paging} {leaf : Word}
    (there : has (s.words table (indexes address (level + 1))) present = true)
    (below : unmapFrom address level (frameOf (s.words table (indexes address (level + 1)))) s =
      some (leaf, true, u)) :
    unmapFrom address (level + 1) table s = some (leaf,
      tableIsEmpty (detached u table (indexes address (level + 1))
        (frameOf (s.words table (indexes address (level + 1))))) table,
      detached u table (indexes address (level + 1))
        (frameOf (s.words table (indexes address (level + 1))))) := by
  rw [unmapFrom]
  dsimp only
  rw [if_neg (by simp [there]), below]
  rfl

private theorem undone {s1 u : Paging} {i : Index} (grove : Grove s (level + 1) table (c :: rest))
    (enters : Enters s s1 level table c i (c :: rest) rest) (kept : Keeps s1 u level c rest)
    (free : u.free = s1.free) :
    (∀ j, j ≠ i → (detached u table i c).words table j = s.words table j) ∧
      (detached u table i c).words table i = 0 ∧ (detached u table i c).free = s.free ∧
      Keeps s (detached u table i c) (level + 1) table (c :: rest) := by
  have apart : table ≠ c := (grove.apart List.mem_cons_self).symm
  refine ⟨fun j other => ?_, detached_blank apart, ?_, fun f off => ?_⟩
  · rw [detached_entry apart other, enters.top grove kept, enters.others j other]
  · change u.free + 1 = s.free
    rw [free, enters.grove.count, grove.count]
    rfl
  · have unlisted : f ∉ c :: rest := List.count_eq_zero.mp (Nat.add_eq_zero_iff.mp off).2
    have self := tables_self (R := pageTree) (m := s.words) (level + 1) table
    have other : f ≠ table := by
      rintro rfl
      omega
    rw [detached_other other fun same => unlisted (same ▸ List.mem_cons_self)]
    exact enters.keeps kept f off

private theorem entered {s1 : Paging} {i : Index} {chain1 chain' : List Word}
    (grove : Grove s (level + 1) table chain)
    (enters : Enters s s1 level table c i chain chain1)
    (edit : Edit s1 t level c chain1 chain') :
    has (t.words table i) present = true ∧ frameOf (t.words table i) = c := by
  rw [enters.top grove edit.kept]
  exact present_of_child enters.entry

private theorem write_twice (grove : Grove s 0 table chain) {i : Index} {e e' : Word} :
    Edit s ((s.write table i e).write table i e') 0 table chain chain :=
  (Edit.last grove i e).trans (Edit.last ((Edit.last grove i e).grove grove) i e')

private theorem unmap_fresh (grove : Grove s level table chain) (empty : ∀ j, s.words table j = 0)
    (run : mapFrom address frame flags level table s = (.ok (), t)) :
    ∃ u, unmapFrom address level table t = some (leafFor frame flags, true, u) ∧
      u.free = s.free ∧ Keeps s u level table chain := by
  induction level generalizing s table chain with
  | zero =>
      rw [mapFrom, if_neg (by rw [empty, absent_zero]; exact Bool.false_ne_true)] at run
      obtain ⟨-, rfl⟩ := Prod.mk.inj run
      have leaf : (s.write table (indexes address 0) (leafFor frame flags)).words table
          (indexes address 0) = leafFor frame flags := put_self
      have cleared : ∀ j, ((s.write table (indexes address 0) (leafFor frame flags)).write table
          (indexes address 0) 0).words table j = 0 := fun j => by
        by_cases here : j = indexes address 0
        · rw [here]
          exact put_self
        · exact (put_index here).trans ((put_index here).trans (empty j))
      refine ⟨(s.write table (indexes address 0) (leafFor frame flags)).write table
        (indexes address 0) 0, ?_, rfl, (write_twice grove).kept⟩
      rw [unmapFrom_last (by rw [leaf]; exact present_leafFor _ _), leaf,
        tableIsEmpty_iff.mpr fun j => by rw [cleared]; exact absent_zero]
  | succ level ih =>
      cases mapFrom_step address frame flags grove with
      | there present =>
          rw [empty, absent_zero] at present
          cases present
      | short _ stops =>
          rw [stops] at run
          cases run
      | @grown s1 c rest absent enters fresh onward =>
          rw [onward] at run
          obtain ⟨u, below, free, kept⟩ := ih enters.grove fresh run
          obtain ⟨⟨chain', edit⟩, -⟩ := mapFrom_spec enters.grove run
          obtain ⟨there, leads⟩ := entered grove enters edit
          obtain ⟨others, blank, count, kept'⟩ := undone grove enters kept free
          have cleared : ∀ j, (detached u table (indexes address (level + 1)) c).words table j = 0 :=
            fun j => by
              by_cases here : j = indexes address (level + 1)
              · rw [here]
                exact blank
              · rw [others j here]
                exact empty j
          have pruned := unmapFrom_prune there (leads.symm ▸ below)
          rw [leads, tableIsEmpty_iff.mpr fun j => by rw [cleared]; exact absent_zero] at pruned
          exact ⟨_, pruned, count, kept'⟩

theorem unmap_mapped (grove : Grove s level table chain)
    (alive : ∀ k f, k < level → Route pageTree s.words (indexes address) level table k f →
      ∃ j, has (s.words f j) present = true)
    (run : mapFrom address frame flags level table s = (.ok (), t)) :
    ∃ emptied u, unmapFrom address level table t = some (leafFor frame flags, emptied, u) ∧
      ((∃ j, has (s.words table j) present = true) → emptied = false) ∧
      (∀ path, ¬Follows address level path →
        entryAt pageTree u.words level table path = entryAt pageTree s.words level table path) ∧
      entryAt pageTree u.words level table (indexes address) = 0 ∧
      u.free = s.free ∧ Keeps s u level table chain := by
  induction level generalizing s table chain with
  | zero =>
      have there : has (s.words table (indexes address 0)) present ≠ true := by
        intro taken
        rw [mapFrom, if_pos taken] at run
        cases run
      rw [mapFrom, if_neg there] at run
      obtain ⟨-, rfl⟩ := Prod.mk.inj run
      have leaf : (s.write table (indexes address 0) (leafFor frame flags)).words table
          (indexes address 0) = leafFor frame flags := put_self
      have others : ∀ j, j ≠ indexes address 0 → ((s.write table (indexes address 0)
          (leafFor frame flags)).write table (indexes address 0) 0).words table j =
          s.words table j := fun j other => (put_index other).trans (put_index other)
      refine ⟨tableIsEmpty ((s.write table (indexes address 0) (leafFor frame flags)).write table
        (indexes address 0) 0) table, (s.write table (indexes address 0) (leafFor frame flags)).write
        table (indexes address 0) 0, ?_, fun full => ?_, fun path off => ?_, put_self, rfl,
        (write_twice grove).kept⟩
      · rw [unmapFrom_last (by rw [leaf]; exact present_leafFor _ _), leaf]
      · obtain ⟨j, full⟩ := full
        refine Bool.eq_false_iff.mpr fun empty => ?_
        have other : j ≠ indexes address 0 := fun same => there (same ▸ full)
        have absent := tableIsEmpty_iff.mp empty j
        rw [others j other, full] at absent
        cases absent
      · refine others _ fun same => off fun j low => ?_
        rw [Nat.le_zero.mp low]
        exact same
  | succ level ih =>
      cases mapFrom_step address frame flags grove with
      | short _ stops =>
          rw [stops] at run
          cases run
      | @there s1 _ present enters onward =>
          rw [onward] at run
          have inner := enters.inner grove
          have before : ∀ k f, Route pageTree s1.words (indexes address) level
              (frameOf (s.words table (indexes address (level + 1)))) k f →
              Route pageTree s.words (indexes address) (level + 1) table k f := fun k f route =>
            .down (child_present present) (route.congr fun v inside => (inner v inside).symm)
          have alive' : ∀ k f, k ≤ level → Route pageTree s1.words (indexes address) level
              (frameOf (s.words table (indexes address (level + 1)))) k f →
              ∃ j, has (s1.words f j) Entries.present = true := fun k f low route => by
            rw [inner f route.occurs]
            exact alive k f (Nat.lt_succ_of_le low) (before k f route)
          obtain ⟨emptied, u, below, full, others, own, free, kept⟩ :=
            ih enters.grove (fun k f low => alive' k f (Nat.le_of_lt low)) run
          obtain ⟨⟨chain', edit⟩, -⟩ := mapFrom_spec enters.grove run
          obtain ⟨there, leads⟩ := entered grove enters edit
          rw [full (alive' level _ (Nat.le_refl _) (.here _ _))] at below
          refine ⟨false, u, unmapFrom_stop there (leads.symm ▸ below), fun _ => rfl,
            fun path off => ?_, ?_, ?_, enters.keeps kept⟩
          · by_cases turn : path (level + 1) = indexes address (level + 1)
            · rw [enters.leaf_on grove kept turn, ← enters.leaves path turn]
              exact others path fun on => off (follows_succ.mpr ⟨turn, on⟩)
            · exact enters.leaf_off grove kept turn
          · rw [enters.leaf_on grove kept rfl]
            exact own
          · rw [free, enters.grove.count, grove.count]
      | @grown s1 c rest absent enters fresh onward =>
          rw [onward] at run
          obtain ⟨u, below, free, kept⟩ := unmap_fresh enters.grove fresh run
          obtain ⟨⟨chain', edit⟩, -⟩ := mapFrom_spec enters.grove run
          obtain ⟨there, leads⟩ := entered grove enters edit
          obtain ⟨others, blank, count, kept'⟩ := undone grove enters kept free
          have pruned := unmapFrom_prune there (leads.symm ▸ below)
          rw [leads] at pruned
          have stops : ∀ path : Nat → Index, path (level + 1) = indexes address (level + 1) →
              entryAt pageTree (detached u table (indexes address (level + 1)) c).words (level + 1)
                table path = 0 := fun path turn => entryAt_stop (by
            rw [turn, blank]
            exact child_absent absent_zero)
          refine ⟨_, _, pruned, fun full => ?_, fun path _ => ?_, stops _ rfl, count, kept'⟩
          · obtain ⟨j, full⟩ := full
            refine Bool.eq_false_iff.mpr fun empty => ?_
            have other : j ≠ indexes address (level + 1) := fun same => by
              rw [same, absent] at full
              cases full
            have gone := tableIsEmpty_iff.mp empty j
            rw [others j other, full] at gone
            cases gone
          · by_cases turn : path (level + 1) = indexes address (level + 1)
            · rw [stops path turn, entryAt_stop (by rw [turn]; exact child_absent absent)]
              rfl
            · refine entryAt_beside others (fun j d other down v inside => ?_) turn
              have within := occurs_child down inside
              have distinct : v ≠ c := by
                rintro rfl
                have free := grove.free_absent (f := v) List.mem_cons_self
                omega
              rw [detached_other (apart_beside grove.single other down inside).1.symm distinct]
              exact enters.beside grove kept j d other down v inside

end Undoing

section Pruning

variable {s t : Paging} {address e : Word} {level : Nat} {table : Word} {emptied : Bool}
  {chain : List Word}

/-- What unmapping a page from a table on comes to: the entry is cleared, and a table
is given back only when no other entry of it was present. -/
structure Prunes (s t : Paging) (address : Word) (level : Nat) (table e : Word) (emptied : Bool)
    (freed : List Word) : Prop where
  entry : e = entryAt pageTree s.words level table (indexes address)
  there : has e present = true
  own : has (entryAt pageTree t.words level table (indexes address)) present = false
  others : ∀ path, ¬Follows address level path →
    has (entryAt pageTree s.words level table path) present = true ∨
      has (entryAt pageTree t.words level table path) present = true →
    entryAt pageTree t.words level table path = entryAt pageTree s.words level table path
  around : ∀ j, j ≠ indexes address level → t.words table j = s.words table j
  empty : emptied = true → ∀ j, has (t.words table j) present = false
  only : ∀ f ∈ freed, ∃ k, k < level ∧ Route pageTree s.words (indexes address) level table k f ∧
    ∀ j, j ≠ indexes address k → has (s.words f j) present = false
  bare : ∀ f ∈ freed, ∀ j, has (t.words f j) present = false
  plain : Plain s.words level table → Plain t.words level table

section Up

variable {c : Word} {freed : List Word} {full : Bool} {t1 : Paging}
  (grove : Grove s (level + 1) table chain)
  (enters : Enters s s level table c (indexes address (level + 1)) chain chain)
  (edit : Edit s t1 level c chain (freed ++ chain))
  (prunes : Prunes s t1 address level c e full freed)

include grove enters edit prunes

private theorem Prunes.stop : Prunes s t1 address (level + 1) table e false freed := by
  have top := enters.top grove edit.kept
  refine ⟨?_, prunes.there, ?_, fun path off here => ?_, fun j _ => congrFun top j, (by simp),
    fun f member => ?_, prunes.bare, fun fine => enters.plain_after grove edit.kept fine prunes.plain⟩
  · rw [← enters.leaves _ rfl]
    exact prunes.entry
  · rw [enters.leaf_on grove edit.kept rfl]
    exact prunes.own
  · by_cases turn : path (level + 1) = indexes address (level + 1)
    · rw [enters.leaf_on grove edit.kept turn, ← enters.leaves path turn] at here ⊢
      exact prunes.others path (fun on => off (follows_succ.mpr ⟨turn, on⟩)) here
    · exact enters.leaf_off grove edit.kept turn
  · obtain ⟨k, low, route, rest⟩ := prunes.only f member
    exact ⟨k, Nat.lt_succ_of_lt low, .down enters.entry route, rest⟩

private theorem Prunes.prune (gone : full = true) :
    Edit s (detached t1 table (indexes address (level + 1)) c) (level + 1) table chain
        (c :: freed ++ chain) ∧
      Prunes s (detached t1 table (indexes address (level + 1)) c) address (level + 1) table e
        (tableIsEmpty (detached t1 table (indexes address (level + 1)) c) table) (c :: freed) := by
  have top := enters.top grove edit.kept
  have outer := enters.edit grove edit
  have grove1 := outer.grove grove
  have empty := prunes.empty gone
  have stopped := prunes.stop grove enters edit
  have down : pageTree.child (level + 1) (indexes address (level + 1))
      (t1.words table (indexes address (level + 1))) = some c := by
    rw [top]
    exact enters.entry
  have apart : table ≠ c := by
    rintro rfl
    have above := grove1.above (indexes address (level + 1))
    have self := tables_self (R := pageTree) (m := t1.words) level table
    rw [under_child down] at above
    omega
  obtain ⟨cut, off, plain, bare⟩ := Edit.detach grove1 down empty
  have blank : ∀ path : Nat → Index, path (level + 1) = indexes address (level + 1) →
      entryAt pageTree (detached t1 table (indexes address (level + 1)) c).words (level + 1) table
        path = 0 := fun path turn => entryAt_stop (by
    rw [turn, detached_blank apart]
    exact child_absent absent_zero)
  refine ⟨outer.trans cut, stopped.entry, stopped.there, ?_, fun path away here => ?_,
    fun j other => ?_, tableIsEmpty_iff.mp, fun f member => ?_, fun f member => ?_,
    fun fine => plain (stopped.plain fine)⟩
  · rw [blank _ rfl]
    exact absent_zero
  · by_cases turn : path (level + 1) = indexes address (level + 1)
    · have last : has (entryAt pageTree t1.words level c path) present = false := bare_leaf empty
      rw [← enters.leaf_on grove edit.kept turn] at last
      rw [blank path turn, absent_zero] at here
      rcases here with before | ⟨⟨⟩⟩
      rw [← stopped.others path away (.inl before), last] at before
      cases before
    · rw [off path turn] at here ⊢
      exact stopped.others path away here
  · rw [detached_entry apart other, top]
  · rcases List.mem_cons.mp member with rfl | inside
    · refine ⟨level, Nat.lt_succ_self _, .down enters.entry (.here _ _), fun j other => ?_⟩
      rw [← prunes.around j other]
      exact empty j
    · exact stopped.only f inside
  · rcases List.mem_cons.mp member with rfl | inside
    · exact bare
    · intro j
      have free : f ∈ freed ++ chain := List.mem_append_left _ inside
      have distinct : f ≠ c := by
        rintro rfl
        have absent := grove1.free_absent free
        have there := occurs_child down (tables_self (R := pageTree) (m := t1.words) level f)
        omega
      rw [detached_other (grove1.apart free) distinct]
      exact prunes.bare f inside j

end Up

theorem unmapFrom_spec (grove : Grove s level table chain)
    (run : unmapFrom address level table s = some (e, emptied, t)) :
    ∃ freed, Edit s t level table chain (freed ++ chain) ∧
      Prunes s t address level table e emptied freed := by
  induction level generalizing s table chain e emptied t with
  | zero =>
      cases there : has (s.words table (indexes address 0)) present with
      | false =>
          rw [unmapFrom, if_pos there] at run
          cases run
      | true =>
          rw [unmapFrom_last there] at run
          simp only [Option.some.injEq, Prod.mk.injEq] at run
          obtain ⟨rfl, rfl, rfl⟩ := run
          have own : (s.write table (indexes address 0) 0).words table (indexes address 0) = 0 :=
            put_self
          refine ⟨[], Edit.last grove _ _, rfl, there, ?_, fun path off _ => put_index fun same =>
            off fun j low => ?_, fun j => put_index, tableIsEmpty_iff.mp, fun f none => ?_,
            fun f none => ?_, id⟩
          · change has ((s.write table (indexes address 0) 0).words table (indexes address 0))
              present = false
            rw [own]
            exact absent_zero
          · rw [Nat.le_zero.mp low]
            exact same
          · cases none
          · cases none
  | succ level ih =>
      cases there : has (s.words table (indexes address (level + 1))) present with
      | false =>
          rw [unmapFrom] at run
          dsimp only at run
          rw [if_pos there] at run
          cases run
      | true =>
          cases below : unmapFrom address level
              (frameOf (s.words table (indexes address (level + 1)))) s with
          | none =>
              rw [unmapFrom] at run
              dsimp only at run
              rw [if_neg (by simp [there]), below] at run
              cases run
          | some found =>
              obtain ⟨leaf, full, t1⟩ := found
              have enters := Enters.stay grove there
              obtain ⟨freed, edit, prunes⟩ := ih enters.grove below
              cases full with
              | false =>
                  rw [unmapFrom_stop there below] at run
                  simp only [Option.some.injEq, Prod.mk.injEq] at run
                  obtain ⟨rfl, rfl, rfl⟩ := run
                  exact ⟨freed, enters.edit grove edit, prunes.stop grove enters edit⟩
              | true =>
                  rw [unmapFrom_prune there below] at run
                  simp only [Option.some.injEq, Prod.mk.injEq] at run
                  obtain ⟨rfl, rfl, rfl⟩ := run
                  exact ⟨_, prunes.prune grove enters edit rfl⟩

end Pruning

end FiveAM.Memory.Unmapping
