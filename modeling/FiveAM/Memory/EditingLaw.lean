/- GID: FiveAM/Memory/EditingLaw
   source: kernel/src/memory.rs
   digest: What mapping and unmapping one page change in a tree of page tables, and what they leave. -/

import FiveAM.Memory.Unmapping
import FiveAM.Memory.Boot

set_option autoImplicit false
set_option relaxedAutoImplicit false

namespace FiveAM.Memory.EditingLaw

open FiveAM.Process.TaskTable (Word)
open FiveAM.Memory.Ownership (Words Chain SamePage)
open FiveAM.Memory.Spaces (arrived arrived_eq)
open FiveAM.Memory.Entries FiveAM.Memory.Frames FiveAM.Memory.PageTables FiveAM.Memory.TableEdits
open FiveAM.Memory.Unmapping FiveAM.Lib.RadixTables

section Readings

variable {s t : Paging} {a : Word} {level : Nat} {table : Word}

/-- The physical address `translate_in` finds for an address. -/
def physical (s : Paging) (root a : Word) : Option Word := (translateIn s root a).map Prod.fst

/-- The last-level entry of an address, zero where a table is missing. -/
def leafOf (s : Paging) (root a : Word) : Word := entryAt pageTree s.words 3 root (indexes a)

/-- The frame an entry names, and a place in it. -/
def placed (e a : Word) : Option Word :=
  if has e present = false then none else some (frameOf e + (a &&& 0xfff))

theorem translateFrom_plain (plain : Plain s.words level table) :
    (translateFrom s a level table).map Prod.fst =
      placed (entryAt pageTree s.words level table (indexes a)) a := by
  induction level generalizing table with
  | zero =>
      rw [translateFrom, placed]
      change Option.map Prod.fst (if has (s.words table (indexes a 0)) present = false then none
        else _) = if has (s.words table (indexes a 0)) present = false then none else _
      split_ifs
      · rfl
      · rfl
  | succ level ih =>
      rw [translateFrom]
      cases there : has (s.words table (indexes a (level + 1))) present with
      | false =>
          rw [if_pos rfl, entryAt_stop (child_absent there)]
          rfl
      | true =>
          obtain ⟨fine, below⟩ := plain _ there
          rw [if_neg (by simp), if_neg (by simp [fine]), entryAt_child (child_present there),
            ← ih below, Option.map_map]
          rfl

theorem physical_plain {root : Word} (plain : Plain s.words 3 root) :
    physical s root a = placed (leafOf s root a) a := translateFrom_plain plain

theorem leaf_of_accessible (plain : Plain s.words level table)
    (reached : pageAccessible s a level table = true) :
    has (entryAt pageTree s.words level table (indexes a)) present = true ∧
      has (entryAt pageTree s.words level table (indexes a)) user = true := by
  induction level generalizing table with
  | zero =>
      rw [pageAccessible] at reached
      exact Bool.and_eq_true_iff.mp reached
  | succ level ih =>
      rw [pageAccessible] at reached
      cases there : has (s.words table (indexes a (level + 1))) present with
      | false =>
          rw [if_pos (.inl there)] at reached
          cases reached
      | true =>
          obtain ⟨fine, below⟩ := plain _ there
          rw [entryAt_child (child_present there)]
          split_ifs at reached with closed wide
          · rw [fine] at wide
            cases wide
          · exact ih below reached

end Readings

section Pages

variable {s t : Paging} {root v a frame flags : Word} {chain : List Word}

/-- Two addresses of one page: the low 48 bits agree above the offset. -/
def OnPage (a v : Word) : Prop := SamePage (indexes a) (indexes v)

/-- Entries with USER are only below tables with USER. -/
def Narrow (s : Paging) (root : Word) : Prop :=
  ∀ a, has (leafOf s root a) present = true → has (leafOf s root a) user = true →
    pageAccessible s a 3 root = true

/-- No page is out on the disk: a last-level entry that is not present is zero. -/
def Unswapped (s : Paging) (root : Word) : Prop :=
  ∀ a, has (leafOf s root a) present = false → leafOf s root a = 0

/-- Every table below the root on the way to an address has a present entry. -/
def Alive (s : Paging) (root v : Word) : Prop :=
  ∀ k f, k < 3 → Route pageTree s.words (indexes v) 3 root k f →
    ∃ j, has (s.words f j) present = true

/-- What mapping a page in a tree, and unmapping one, may change. -/
structure Law (s : Paging) (root : Word) (chain : List Word) (v frame flags : Word) :
    Prop where
  /-- The page leads to its frame. -/
  mapped : ∀ t, mapPageIn s root v frame flags = (.ok (), t) →
    ∀ a, OnPage a v → physical t root a = some (frame + (a &&& 0xfff))
  /-- The other pages lead where they led. -/
  others : ∀ t, mapPageIn s root v frame flags = (.ok (), t) →
    ∀ a, ¬OnPage a v → physical t root a = physical s root a
  /-- Ring 3 reaches no other page that it did not reach. -/
  narrow : Narrow s root → ∀ t, mapPageIn s root v frame flags = (.ok (), t) →
    ∀ a, pageAccessible t a 3 root = true → pageAccessible s a 3 root = true ∨ OnPage a v
  /-- Where mapping fails, every address leads where it led. -/
  failed : ∀ text t, mapPageIn s root v frame flags = (.error text, t) →
    ∀ a, physical t root a = physical s root a
  /-- What was mapped is unmapped again. -/
  undone : s.cr3 = root → Alive s root v → ∀ t, mapPage s v frame flags = (.ok (), t) →
    ∃ u, unmapPage t v = (some frame, u) ∧ u.free = s.free ∧
      (∀ a, leafOf u root a = leafOf s root a ∨ OnPage a v ∧ leafOf u root a = 0 ∧
        has (leafOf s root a) present = false) ∧
      (Unswapped s root → ∀ a, leafOf u root a = leafOf s root a)
  /-- A table is given back only without a present entry, and what is left is still a
  tree of distinct tables that maps the other pages. -/
  pruned : s.cr3 = root → ∀ e t, unmapPage s v = (some e, t) →
    ∃ freed, Grove t 3 root (freed ++ chain) ∧
      (∀ f ∈ freed, (∃ k, k < 3 ∧ Route pageTree s.words (indexes v) 3 root k f ∧
        ∀ j, j ≠ indexes v k → has (s.words f j) present = false) ∧
        ∀ j, has (t.words f j) present = false) ∧
      physical t root v = none ∧ ∀ a, ¬OnPage a v → physical t root a = physical s root a

private theorem entry_of_page (m : Words) (on : OnPage a v) :
    entryAt pageTree m 3 root (indexes a) = entryAt pageTree m 3 root (indexes v) :=
  entryAt_indexes on

section Mapping

variable {answer : Except String Unit} (grove : Grove s 3 root chain)
  (run : mapFrom v frame flags 3 root s = (answer, t))

include grove run

private theorem leaves_kept (off : ¬(answer = .ok () ∧ OnPage a v)) :
    leafOf t root a = leafOf s root a :=
  (mapFrom_spec grove run).2.others (indexes a) off

private theorem physical_kept (plain : Plain s.words 3 root) (off : ¬(answer = .ok () ∧ OnPage a v)) :
    physical t root a = physical s root a := by
  obtain ⟨-, maps⟩ := mapFrom_spec grove run
  rw [physical_plain plain, physical_plain (maps.plain plain), leaves_kept grove run off]

end Mapping

section Fields

variable (grove : Grove s 3 root chain) (plain : Plain s.words 3 root)

include grove plain

private theorem mapped_page (named : frameOf frame = frame) (clear : frameOf flags = 0)
    (run : mapPageIn s root v frame flags = (.ok (), t)) (on : OnPage a v) :
    physical t root a = some (frame + (a &&& 0xfff)) := by
  obtain ⟨t0, walked, rfl⟩ := mapPageIn_ok run
  obtain ⟨-, maps⟩ := mapFrom_spec grove walked
  have leaf : leafOf (arrived t0 v flags) root a = leafFor frame flags := by
    rw [arrived_eq]
    exact (entry_of_page t0.words on).trans (maps.leaf rfl).2
  have plain' : Plain (arrived t0 v flags).words 3 root := by
    rw [arrived_eq]
    exact maps.plain plain
  rw [physical_plain plain', leaf, placed, present_leafFor, frameOf_leafFor clear, named]
  rfl

private theorem mapped_others (run : mapPageIn s root v frame flags = (.ok (), t))
    (off : ¬OnPage a v) : physical t root a = physical s root a := by
  obtain ⟨t0, walked, rfl⟩ := mapPageIn_ok run
  rw [← physical_kept grove walked plain fun both => off both.2, arrived_eq]
  rfl

private theorem mapped_narrow (narrow : Narrow s root)
    (run : mapPageIn s root v frame flags = (.ok (), t))
    (reached : pageAccessible t a 3 root = true) :
    pageAccessible s a 3 root = true ∨ OnPage a v := by
  obtain ⟨t0, walked, rfl⟩ := mapPageIn_ok run
  obtain ⟨-, maps⟩ := mapFrom_spec grove walked
  by_cases on : OnPage a v
  · exact .inr on
  · have words : (arrived t0 v flags).words = t0.words := by rw [arrived_eq]
    obtain ⟨there, wide⟩ := leaf_of_accessible (words ▸ maps.plain plain) reached
    rw [words] at there wide
    have kept : leafOf t0 root a = leafOf s root a := leaves_kept grove walked fun both => on both.2
    exact .inl (narrow a (kept ▸ there) (kept ▸ wide))

omit plain in
private theorem mapped_undone (named : frameOf frame = frame) (clear : frameOf flags = 0)
    (active : s.cr3 = root) (alive : Alive s root v)
    (run : mapPage s v frame flags = (.ok (), t)) :
    ∃ u, unmapPage t v = (some frame, u) ∧ u.free = s.free ∧
      (∀ a, leafOf u root a = leafOf s root a ∨ OnPage a v ∧ leafOf u root a = 0 ∧
        has (leafOf s root a) present = false) ∧
      (Unswapped s root → ∀ a, leafOf u root a = leafOf s root a) := by
  rw [mapPage, active] at run
  obtain ⟨t0, walked, rfl⟩ := mapPageIn_ok run
  obtain ⟨⟨chain', edit⟩, maps⟩ := mapFrom_spec grove walked
  obtain ⟨emptied, u, undone, -, others, own, free, -⟩ := unmap_mapped grove alive walked
  have unmapped : unmapPage (arrived t0 v flags) v =
      (some frame, { u with replacers := (arrived t0 v flags).replacers }) := by
    rw [arrived_eq, unmapPage, unmapFrom_replacers]
    dsimp only
    rw [edit.cr3, active, undone]
    dsimp only [Option.map_some]
    rw [frameOf_leafFor clear, named]
  have leaves : ∀ a, leafOf u root a = leafOf s root a ∨ OnPage a v ∧ leafOf u root a = 0 ∧
      has (leafOf s root a) present = false := by
    intro a
    by_cases on : OnPage a v
    · refine .inr ⟨on, (entry_of_page u.words on).trans own, ?_⟩
      rw [leafOf, entry_of_page s.words on]
      exact (maps.leaf rfl).1
    · exact .inl (others (indexes a) on)
  refine ⟨_, unmapped, free, leaves, fun vacant a => ?_⟩
  rcases leaves a with same | ⟨-, zero, absent⟩
  · exact same
  · exact zero.trans (vacant a absent).symm

private theorem unmapped_pruned (active : s.cr3 = root) {e : Word}
    (run : unmapPage s v = (some e, t)) :
    ∃ freed, Grove t 3 root (freed ++ chain) ∧
      (∀ f ∈ freed, (∃ k, k < 3 ∧ Route pageTree s.words (indexes v) 3 root k f ∧
        ∀ j, j ≠ indexes v k → has (s.words f j) present = false) ∧
        ∀ j, has (t.words f j) present = false) ∧
      physical t root v = none ∧ ∀ a, ¬OnPage a v → physical t root a = physical s root a := by
  rw [unmapPage, active] at run
  cases walked : unmapFrom v 3 root s with
  | none =>
      rw [walked] at run
      cases run
  | some found =>
      obtain ⟨leaf, emptied, t0⟩ := found
      rw [walked] at run
      obtain ⟨-, rfl⟩ := Prod.mk.inj run
      obtain ⟨freed, edit, prunes⟩ := unmapFrom_spec grove walked
      have plain' := prunes.plain plain
      refine ⟨freed, edit.grove grove, fun f member => ⟨prunes.only f member, prunes.bare f member⟩,
        ?_, fun a off => ?_⟩
      · have own : has (leafOf t0 root v) present = false := prunes.own
        rw [physical_plain plain', placed, if_pos own]
      · rw [physical_plain plain, physical_plain plain', placed, placed]
        cases before : has (leafOf s root a) present with
        | true => rw [show leafOf t0 root a = leafOf s root a from
            prunes.others (indexes a) off (.inl before), before]
        | false =>
            cases after : has (leafOf t0 root a) present with
            | true =>
                have same : leafOf t0 root a = leafOf s root a :=
                  prunes.others (indexes a) off (.inr after)
                rw [same, before] at after
                cases after
            | false => rfl

end Fields

/-- Mapping and unmapping one page change that page alone, in every tree of distinct
tables apart from the free list. -/
theorem editing_law (grove : Grove s 3 root chain) (plain : Plain s.words 3 root)
    (aligned : frame.toNat % 4096 = 0) (below : frame.toNat < 2 ^ 52) (clear : frameOf flags = 0) :
    Law s root chain v frame flags where
  mapped _ run _ := mapped_page grove plain (frameOf_aligned aligned below) clear run
  others _ run _ := mapped_others grove plain run
  narrow narrow _ run _ := mapped_narrow grove plain narrow run
  failed _ _ run _ := physical_kept grove (mapPageIn_error run) plain fun both => by cases both.1
  undone active alive _ run :=
    mapped_undone grove (frameOf_aligned aligned below) clear active alive run
  pruned active _ _ run := unmapped_pruned grove plain active run

end Pages

/-- A machine with an empty root and three free frames. -/
def emptyRoot : Paging := { Boot.init Boot.statics [0x4000, 0x3000, 0x2000] with cr3 := 0x1000 }

private theorem emptyRoot_blank : ∀ i, emptyRoot.words 0x1000 i = 0 := fun _ => rfl

private theorem emptyRoot_grove : Grove emptyRoot 3 0x1000 [0x2000, 0x3000, 0x4000] := by
  have counts : ∀ f, tables pageTree emptyRoot.words 3 0x1000 f = if 0x1000 = f then 1 else 0 :=
    fun f => tables_childless fun i => by
      rw [emptyRoot_blank]
      exact child_absent absent_zero
  have frames : ∀ f, (if (0x1000 : Word) = f then 1 else 0) +
      [(0x2000 : Word), 0x3000, 0x4000].count f = [(0x1000 : Word), 0x2000, 0x3000, 0x4000].count f :=
    fun f => (count_given f).symm
  have nodup : [(0x1000 : Word), 0x2000, 0x3000, 0x4000].Nodup := by decide
  have framed : [(0x1000 : Word), 0x2000, 0x3000, 0x4000].all (fun f => decide (Framed f)) = true := by
    decide +kernel
  refine ⟨fun f => ?_, fun f there => ?_, ?_, rfl⟩
  · rw [counts, frames]
    exact List.nodup_iff_count_le_one.mp nodup f
  · rw [counts, frames] at there
    exact of_decide_eq_true (List.all_eq_true.mp framed f (List.count_pos_iff.mp there))
  · exact ⟨rfl, by decide, rfl, by decide, rfl, by decide, rfl⟩

def onePage : Paging := (mapPageIn emptyRoot 0x1000 0x401000 0x7000 (user ||| writable)).2

private theorem onePage_grove : ∃ chain,
    Grove onePage 3 0x1000 chain ∧ Plain onePage.words 3 0x1000 := by
  have fine : (mapPageIn emptyRoot 0x1000 0x401000 0x7000 (user ||| writable)).1 = .ok () := by
    decide +kernel
  have run : mapPageIn emptyRoot 0x1000 0x401000 0x7000 (user ||| writable) = (.ok (), onePage) :=
    Prod.ext fine rfl
  obtain ⟨t, walk, shape⟩ := mapPageIn_ok run
  obtain ⟨⟨chain, edit⟩, maps⟩ := mapFrom_spec emptyRoot_grove walk
  have grove := edit.grove emptyRoot_grove
  rw [shape, arrived_eq]
  exact ⟨chain, ⟨grove.once, grove.framed, grove.linked, grove.count⟩,
    maps.plain (Plain.empty emptyRoot_blank 3)⟩

/-- The page before it shares its tables, and goes another way. -/
theorem editing_law_onePage :
    physical onePage 0x1000 0x401008 = some 0x7008 ∧
      (mapPageIn onePage 0x1000 0x400000 0x5000 (user ||| writable)).1 = .ok () ∧
      ∃ chain, Law onePage 0x1000 chain 0x400000 0x5000 (user ||| writable) := by
  obtain ⟨chain, grove, plain⟩ := onePage_grove
  exact ⟨by decide +kernel, by decide +kernel, chain,
    editing_law grove plain (by decide) (by decide) (by decide)⟩

end FiveAM.Memory.EditingLaw
