/- GID: FiveAM/Memory/PageTables
   source: kernel/src/memory.rs
   digest: Walking and editing trees of page tables, and the address spaces they make. -/

import FiveAM.Memory.Replace

set_option autoImplicit false
set_option relaxedAutoImplicit false

namespace FiveAM.Memory.PageTables

open FiveAM.Process.TaskTable (Word)
open FiveAM.Memory.Entries FiveAM.Memory.Frames FiveAM.Memory.Replace

def userSpaceEnd : Word := 1 <<< 39

/-- The loop of `map_page_in` from the table at a level down to its page table,
creating any missing tables on the way. -/
def descend (address wide : Word) : Nat → Word → Paging → Except String Word × Paging
  | 0, table, s => (.ok table, s)
  | level + 1, table, s =>
      let i := indexes address (level + 1)
      let entry := s.words table i
      if has entry present then
        let s := if wide ≠ 0 ∧ has entry user = false then s.write table i (entry ||| user) else s
        descend address wide level (frameOf entry) s
      else
        match s.allocate with
        | (none, s) => (.error "out of physical memory", s)
        | (some new, s) =>
            let s := s.fill new fun _ => 0
            let s := s.write table i (tableEntry new wide)
            descend address wide level new s

/-- Map `address` to `frame` in the tree at `root`. -/
def mapPageIn (s : Paging) (root address frame flags : Word) : Except String Unit × Paging :=
  let wide := flags &&& user
  match descend address wide 3 root s with
  | (.error text, s) => (.error text, s)
  | (.ok table, s) =>
      let i := indexes address 0
      if has (s.words table i) present then (.error "that address is already mapped", s)
      else
        let s := s.write table i (leafFor frame flags)
        (.ok (), if wide ≠ 0 ∧ address < userSpaceEnd then noteResident s (pageOf address) else s)

def mapPage (s : Paging) (address frame flags : Word) : Except String Unit × Paging :=
  mapPageIn s s.cr3 address frame flags

/-- The bytes below an entry of a level that names data directly. -/
def hugeSize (level : Nat) : Word := if level = 2 then 1 <<< 30 else 1 <<< 21

/-- The walk of `translate_in` from a table at a level on: the physical address
and the entries seen, with zeros where the walk stopped early. -/
def translateFrom (s : Paging) (address : Word) : Nat → Word → Option (Word × List Word)
  | 0, table =>
      let entry := s.words table (indexes address 0)
      if has entry present = false then none
      else some (frameOf entry + (address &&& 0xfff), [entry])
  | level + 1, table =>
      let entry := s.words table (indexes address (level + 1))
      if has entry present = false then none
      else if has entry huge then
        some (frameOf entry + (address &&& (hugeSize (level + 1) - 1)),
          entry :: List.replicate (level + 1) 0)
      else
        (translateFrom s address level (frameOf entry)).map fun found => (found.1, entry :: found.2)

def translateIn (s : Paging) (root address : Word) : Option (Word × List Word) :=
  translateFrom s address 3 root

def translate (s : Paging) (address : Word) : Option (Word × List Word) :=
  translateIn s s.cr3 address

/-- The page table an address ends at, without looking at huge entries. -/
def lastTable (s : Paging) (address : Word) : Nat → Word → Option Word
  | 0, table => some table
  | level + 1, table =>
      let entry := s.words table (indexes address (level + 1))
      if has entry present = false then none else lastTable s address level (frameOf entry)

/-- Change the permissions on a page that is already mapped. -/
def setFlags (s : Paging) (address flags : Word) : Except String Unit × Paging :=
  match lastTable s address 3 s.cr3 with
  | none => (.error "not mapped", s)
  | some table =>
      let entry := s.words table (indexes address 0)
      if has entry present = false then (.error "not mapped", s)
      else (.ok (), s.write table (indexes address 0) (leafFor entry flags))

def leafEntry (s : Paging) (root address : Word) : Option Word :=
  (lastTable s address 3 root).map fun table => s.words table (indexes address 0)

def isSwappedEntry (entry : Word) : Bool := !has entry present && has entry swapped

/-- The walk of `is_user_accessible` for one page, from a table at a level on. -/
def pageAccessible (s : Paging) (page : Word) : Nat → Word → Bool
  | 0, table =>
      let entry := s.words table (indexes page 0)
      has entry present && has entry user
  | level + 1, table =>
      let entry := s.words table (indexes page (level + 1))
      if has entry present = false ∨ has entry user = false then false
      else if has entry huge then true
      else pageAccessible s page level (frameOf entry)

/-- How many pages the loop of `is_user_accessible` visits before it reaches
`end`, or the last page of the address space. -/
def pageCount (address len : Word) : Nat :=
  (address.toNat % pageSize + len.toNat + (pageSize - 1)) / pageSize

/-- Is this a range ring 3 is allowed to touch? `none` where the loop never ends:
past the last page of the address space the counter wraps to page 0 and every
page below `end` is visited again. -/
def isUserAccessible (s : Paging) (address len : Word) : Option Bool :=
  if 2 ^ 64 ≤ address.toNat + len.toNat then some false
  else if ((List.range (pageCount address len)).all fun n =>
      pageAccessible s (pageOf address + BitVec.ofNat 64 (n * pageSize)) 3 s.cr3) = false then
    some false
  else if (pageOf address).toNat + pageCount address len * pageSize < 2 ^ 64 then some true
  else if (List.range (pageCount 0 (address + len))).all fun n =>
      pageAccessible s (BitVec.ofNat 64 (n * pageSize)) 3 s.cr3 then none
  else some false

section AddressSpaces

/-- The root of a new address space: an empty user half, and the kernel's slots
of the active one. -/
def newSpace (s : Paging) : Option Word × Paging :=
  match s.allocate with
  | (none, s) => (none, s)
  | (some root, s) =>
      let s := s.fill root fun _ => 0
      let kernel := s.words s.cr3
      let contents : Table := fun i => if i = 0 then s.words root 0 else kernel i
      (some root, s.fill root contents)

/-- Map a page into a space rather than the live one. -/
def mapIn (s : Paging) (root address frame flags : Word) : Except String Unit × Paging :=
  if userSpaceEnd ≤ address then (.error "that address belongs to the kernel", s)
  else mapPageIn s root address frame flags

/-- What `free_subtree` does with one entry of a page table: the frame is given
back, or one owner dropped. -/
def freeLeaf (s : Paging) (entry : Word) : Paging :=
  if has entry present = false then s
  else
    let frame := frameOf entry
    if 1 < s.shareCount frame then (s.unshare frame).2 else s.deallocate frame

/-- Free a table and everything under it. The level is counted from the page
tables, which are level 0 here and 1 in the source. -/
def freeSubtree : Nat → Word → Paging → Paging
  | 0, table, s =>
      ((List.finRange 512).foldl (fun s' i => freeLeaf s' (s'.words table i)) s).deallocate table
  | level + 1, table, s =>
      ((List.finRange 512).foldl (fun s' i =>
        let entry := s'.words table i
        if has entry present = false then s'
        else if has entry huge then freeLeaf s' entry
        else freeSubtree level (frameOf entry) s') s).deallocate table

/-- Tear the user half down and return every frame, including the tables. -/
def destroy (s : Paging) (root : Word) : Paging :=
  let slot0 := s.words root 0
  let s := if has slot0 present then (freeSubtree 2 (frameOf slot0) s).write root 0 0 else s
  s.deallocate root

/-- The address of the page at three indexes of the user half. -/
def userAddress (i3 i2 i1 : Index) : Word :=
  (BitVec.ofNat 64 i3.val <<< 30) ||| (BitVec.ofNat 64 i2.val <<< 21) |||
    (BitVec.ofNat 64 i1.val <<< 12)

def pagesOfTable (s : Paging) (table : Word) (i3 i2 : Index) : Pages :=
  (List.finRange 512).filterMap fun i1 =>
    let entry := s.words table i1
    if has entry present = false then none else some ⟨userAddress i3 i2 i1, entry, table, i1⟩

/-- Every present page in the user half of `root`. -/
def userPages (s : Paging) (root : Word) : Pages :=
  let slot0 := s.words root 0
  if has slot0 present = false then []
  else
    (List.finRange 512).flatMap fun i3 =>
      let e3 := s.words (frameOf slot0) i3
      if has e3 present = false ∨ has e3 huge = true then []
      else
        (List.finRange 512).flatMap fun i2 =>
          let e2 := s.words (frameOf e3) i2
          if has e2 present = false ∨ has e2 huge = true then []
          else pagesOfTable s (frameOf e2) i3 i2

/-- The loop of `fork`: one page of the parent after the other, until the child
has no table for one. -/
def forkPages (child : Word) : Pages → Paging → Bool × Paging
  | [], s => (true, s)
  | page :: rest, s =>
      let frame := frameOf page.entry
      let flags := flagsOf page.entry
      let sharedFlags := (flags &&& ~~~writable) ||| cow
      let s := if has flags writable then s.write page.table page.index (frame ||| sharedFlags)
        else s
      let childFlags := if has flags writable then sharedFlags else flags
      match mapPageIn s child page.address frame (childFlags &&& ~~~present) with
      | (.error _, s) => (false, s)
      | (.ok _, s) => forkPages child rest (s.share frame)

/-- Duplicate an address space without duplicating its memory. -/
def fork (s : Paging) (root : Word) : Option Word × Paging :=
  match newSpace s with
  | (none, s) => (none, s)
  | (some child, s) =>
      match forkPages child (userPages s root) s with
      | (true, s) => (some child, s)
      | (false, s) => (none, s)

end AddressSpaces

end FiveAM.Memory.PageTables
