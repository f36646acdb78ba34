/- GID: FiveAM/Memory/Swap
   source: kernel/src/memory.rs, kernel/src/swap.rs, kernel/src/interrupts.rs
   digest: Pages that leave for the disk and come back, and the faults that bring them. -/

import FiveAM.Memory.PageTables

set_option autoImplicit false
set_option relaxedAutoImplicit false

namespace FiveAM.Memory.Swap

open FiveAM.Process.TaskTable (Word)
open FiveAM.Memory.Entries FiveAM.Memory.Frames FiveAM.Memory.Replace FiveAM.Memory.PageTables

/-- The entry of a page that is out: the slot where the frame was, every other
flag kept. -/
def outEntry (slot : Nat) (entry : Word) : Word :=
  (BitVec.ofNat 64 slot <<< 12) ||| (entry &&& ~~~addressMask &&& ~~~present) ||| swapped

/-- The entry of a page that is back in `frame`. -/
def inEntry (frame entry : Word) : Word :=
  frame ||| (entry &&& ~~~addressMask &&& ~~~swapped) ||| present

def slotOf (entry : Word) : Nat := (frameOf entry >>> 12).toNat

/-- `evict_one` once the policy has named a page that may be taken. -/
def evictPage (s : Paging) (page : Page) : Option Word × Paging :=
  let entry := s.words page.table page.index
  let frame := frameOf entry
  match s.allocateSlot with
  | (none, s) => (none, s)
  | (some slot, s) =>
      match s.writeOut slot.val frame with
      | (false, s) => (none, s.freeSlot slot.val)
      | (true, s) =>
          let s := s.write page.table page.index (outEntry slot.val entry)
          (some frame, noteEvicted s page.address)

/-- Evict one page from `root` and return the frame it was using. -/
def evictOne (s : Paging) (root : Word) : Option Word × Paging :=
  let pages := userPages s root
  if pages.isEmpty then (none, s)
  else
    match choose s pages with
    | (none, s) => (none, s)
    | (some index, s) =>
        if pages.length ≤ index ∨ PageSet.eligible s pages index = false then (none, s)
        else evictPage s (pageAt pages index)

/-- Allocate a frame, evicting something if there is nothing free. -/
def allocateOrEvict (s : Paging) : Option Word × Paging :=
  match s.allocate with
  | (some frame, s) => (some frame, s)
  | (none, s) => evictOne s s.cr3

/-- The page table an address ends at, if no entry on the way is missing or
huge. -/
def plainTable (s : Paging) (address : Word) : Nat → Word → Option Word
  | 0, table => some table
  | level + 1, table =>
      let entry := s.words table (indexes address (level + 1))
      if has entry present = false ∨ has entry huge = true then none
      else plainTable s address level (frameOf entry)

/-- Bring a page back from disk, if that is what this fault is. -/
def swapIn (s : Paging) (address : Word) : Bool × Paging :=
  let page := pageOf address
  match plainTable s page 3 s.cr3 with
  | none => (false, s)
  | some table =>
      let i := indexes page 0
      let entry := s.words table i
      if has entry present = true ∨ has entry swapped = false then (false, s)
      else
        match allocateOrEvict s with
        | (none, s) => (false, s)
        | (some frame, s) =>
            match s.readIn (slotOf entry) frame with
            | (false, s) => (false, s.deallocate frame)
            | (true, s) =>
                let s := s.freeSlot (slotOf entry)
                let s := s.write table i (inEntry frame entry)
                (true, noteResident s page)

def cowFault (s : Paging) (address : Word) : Bool × Paging :=
  let page := pageOf address
  if userSpaceEnd ≤ page then (false, s)
  else
    match plainTable s page 3 s.cr3 with
    | none => (false, s)
    | some table =>
        let i := indexes page 0
        let entry := s.words table i
        if has entry present = false ∨ has entry cow = false ∨ has entry writable = true then
          (false, s)
        else
          let frame := frameOf entry
          if 1 < s.shareCount frame then
            match allocateOrEvict (s.unshare frame).2 with
            | (none, s) => (false, s)
            | (some fresh, s) =>
                let s := s.fill fresh (s.words frame)
                (true, s.write table i (fresh ||| ((flagsOf entry ||| writable) &&& ~~~cow)))
          else (true, s.write table i ((entry ||| writable) &&& ~~~cow))

/-- Make good on an address the kernel promised but never mapped: the current
task's stack reaches from `limit` to `top`. The page is cleared through its
address, which is the frame just mapped there. -/
def demandFault (s : Paging) (top limit address : Word) : Option Word × Paging :=
  if top = 0 ∨ top ≤ address then (none, s)
  else
    let page := pageOf address
    if page < limit then (none, s)
    else if (translate s page).isSome then (none, s)
    else
      match allocateOrEvict s with
      | (none, s) => (none, s)
      | (some frame, s) =>
          match mapPage s page frame (user ||| writable) with
          | (.error _, s) => (none, s)
          | (.ok _, s) => (some page, s.fill frame fun _ => 0)

/-- What the page fault handler does with a fault: handled, so that the
instruction runs again, or fatal. -/
def pageFault (s : Paging) (top limit address error : Word) : Bool × Paging :=
  let copied := if has error present ∧ has error writable then cowFault s address else (false, s)
  if copied.1 then copied
  else if has error present then (false, copied.2)
  else
    match swapIn copied.2 address with
    | (true, s) => (true, s)
    | (false, s) =>
        match demandFault s top limit address with
        | (some _, s) => (true, s)
        | (none, s) => (false, s)

end FiveAM.Memory.Swap
