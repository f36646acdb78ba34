/- GID: FiveAM/Memory/UserAccess
   source: kernel/src/memory.rs
   digest: Loads and stores of a program to its resident pages, and what they leave behind. -/

import FiveAM.Memory.Return

set_option autoImplicit false
set_option relaxedAutoImplicit false

namespace FiveAM.Memory.UserAccess

open FiveAM.Process.TaskTable (Word)
open FiveAM.Memory.Entries FiveAM.Memory.Frames FiveAM.Memory.Replace FiveAM.Memory.PageTables
open FiveAM.Memory.Swap FiveAM.Memory.Ownership FiveAM.Memory.Residency FiveAM.Memory.Choosing
open FiveAM.Memory.Eviction FiveAM.Memory.Contents FiveAM.Memory.Return FiveAM.Lib.RadixTables

/-- The place of an address in its page, in words. -/
def wordOf (address : Word) : Index :=
  ⟨(address >>> 3).toNat % 512, Nat.mod_lt _ (by decide)⟩

/-- The entry the processor ends at, and the state once it has set its bits there.
The user bits, which nothing here changes, are not looked at. -/
def touch (s : Paging) (address bits : Word) : Option (Word × Paging) :=
  match plainTable s address 3 s.cr3 with
  | none => none
  | some table =>
      let entry := s.words table (indexes address 0)
      if has entry present = false then none
      else some (entry, s.write table (indexes address 0) (entry ||| bits))

/-- A load of the running program; `none` is a page fault. -/
def load (s : Paging) (address : Word) : Option (Word × Paging) :=
  (touch s address accessed).map fun found =>
    (found.2.words (frameOf found.1) (wordOf address), found.2)

/-- A store of the running program; `none` is a page fault. -/
def store (s : Paging) (address value : Word) : Option Paging :=
  match touch s address (accessed ||| dirty) with
  | none => none
  | some (entry, t) =>
      if has entry writable = false then none
      else some (t.write (frameOf entry) (wordOf address) value)

variable {s t : Paging} {managed live : Finset Word} {hand chain : List Word} {address : Word}

theorem touch_spec (books : Books s managed live hand chain) (member : s.cr3 ∈ live)
    (low : indexes address 3 = 0) {bits entry : Word} (aging : bits &&& ~~~ages = 0)
    (touched : touch s address bits = some (entry, t)) :
    entry = leafAt s.words s.cr3 (indexes address) ∧ has entry present = true ∧ Aging s t live := by
  unfold touch at touched
  cases found : plainTable s address 3 s.cr3 with
  | none => simp [found] at touched
  | some table =>
      rw [found] at touched
      dsimp only at touched
      split_ifs at touched with absent
      obtain ⟨rfl, rfl⟩ := Prod.mk.inj (Option.some.inj touched)
      have route := (plainTable_iff low).mp found
      refine ⟨(entryAt_route route).symm, Bool.of_not_eq_false absent, ?_⟩
      have on : OnPage s.words s.cr3 ⟨address, s.words table (indexes address 0), table,
          indexes address 0⟩ :=
        ⟨low, rfl, route⟩
      exact Aging.write books member on (ageless_or aging)

theorem load_spec (books : Books s managed live hand chain) (member : s.cr3 ∈ live)
    (low : indexes address 3 = 0) {value : Word} (loaded : load s address = some (value, t)) :
    Aging s t live ∧
      contents s s.cr3 (indexes address) = some (s.words (frameOf (leafAt s.words s.cr3
        (indexes address)))) ∧
      value = s.words (frameOf (leafAt s.words s.cr3 (indexes address))) (wordOf address) := by
  unfold load at loaded
  obtain ⟨⟨entry, t'⟩, touched, here⟩ := Option.map_eq_some_iff.mp loaded
  obtain ⟨rfl, rfl⟩ := Prod.mk.inj here
  obtain ⟨rfl, there, aging⟩ := touch_spec books member low (by decide) touched
  refine ⟨aging, if_pos there, ?_⟩
  rw [aging.data _ (page_frame books member there).1]

theorem store_spec (books : Books s managed live hand chain) (member : s.cr3 ∈ live)
    (low : indexes address 3 = 0) {value : Word} (stored : store s address value = some t) :
    ∃ aged, Aging s aged live ∧
      has (leafAt s.words s.cr3 (indexes address)) present = true ∧
      has (leafAt s.words s.cr3 (indexes address)) writable = true ∧
      t = aged.write (frameOf (leafAt s.words s.cr3 (indexes address))) (wordOf address) value := by
  unfold store at stored
  cases touched : touch s address (accessed ||| dirty) with
  | none => simp [touched] at stored
  | some found =>
      obtain ⟨entry, aged⟩ := found
      rw [touched] at stored
      dsimp only at stored
      split_ifs at stored with readonly
      obtain ⟨rfl, there, aging⟩ := touch_spec books member low (by decide) touched
      exact ⟨aged, aging, there, Bool.of_not_eq_false readonly, (Option.some.inj stored).symm⟩

theorem write_page (books : Books s managed live hand chain) {frame : Word}
    (named : 0 < refCount s.words live frame) (i : Index) (value : Word) :
    TreesKept s.words (s.write frame i value).words live ∧
      Books (s.write frame i value) managed live hand chain ∧
      ∀ r ∈ live, ∀ p [Decidable (has (leafAt s.words r p) present = true ∧
          frameOf (leafAt s.words r p) = frame)],
        contents (s.write frame i value) r p =
          if has (leafAt s.words r p) present = true ∧ frameOf (leafAt s.words r p) = frame then
            (contents s r p).map fun page => Function.update page i value
          else contents s r p := by
  obtain ⟨table, free, -, -⟩ := books.page named
  have trees : TreesKept s.words (s.write frame i value).words live := by
    refine trees_kept fun f there => Function.update_of_ne (fun same => ?_) _ _
    rw [same, table] at there
    exact Nat.lt_irrefl 0 there
  refine ⟨trees, ⟨⟨?_, books.account.count, fun f => ?_, fun f => ?_, books.account.shared,
    books.account.framed⟩, trees.sound books.sound⟩, fun r member p _ => ?_⟩
  · refine books.account.linked.congr fun f inside => Function.update_of_ne (fun same => ?_) _ _
    exact free (same ▸ inside)
  · rw [trees.tables, trees.refs]
    exact books.account.once f
  · rw [trees.refs]
    exact books.account.owners f
  · unfold contents heldBy
    rw [trees.leaves r member p]
    by_cases there : has (leafAt s.words r p) present = true
    · rw [if_pos there, if_pos there]
      by_cases same : frameOf (leafAt s.words r p) = frame
      · rw [if_pos ⟨there, same⟩, same]
        simp only [Paging.write, Function.update_self, Option.map_some]
      · rw [if_neg fun both => same both.2]
        simp only [Paging.write, Function.update_of_ne same]
    · have other : ¬(has (leafAt s.words r p) present = true ∧
          frameOf (leafAt s.words r p) = frame) := fun both => there both.1
      rw [if_neg other, if_neg there, if_neg there]
      rfl

end FiveAM.Memory.UserAccess
