/- GID: FiveAM/Memory/PagingBench
   source: kernel/src/bench.rs
   digest: One reference string under one policy, with real pages and a number of frames. -/

import FiveAM.Memory.ArrivalOrder
import FiveAM.Memory.KernelStores

set_option autoImplicit false
set_option relaxedAutoImplicit false

namespace FiveAM.Memory.PagingBench

open FiveAM.Process.TaskTable (Word)
open FiveAM.Memory.Entries FiveAM.Memory.Frames FiveAM.Memory.Replace FiveAM.Memory.PageTables
open FiveAM.Memory.Swap FiveAM.Memory.Ownership FiveAM.Memory.Residency FiveAM.Memory.StackGrowth
open FiveAM.Memory.UserAccess FiveAM.Memory.KernelStores FiveAM.Memory.ArrivalOrder
open FiveAM.Lib.RadixTables

abbrev Reference := BitVec 8

def pageBase : Word := 0x20000000

def pageAddress (reference : Reference) : Word :=
  pageBase + reference.zeroExtend 64 * BitVec.ofNat 64 pageSize

/-- Reference a page: its first byte is read, and on odd-numbered pages written. `none` is
a page fault. -/
def touch (s : Paging) (page : Word) (reference : Reference) : Option Paging :=
  match load s page with
  | none => none
  | some (word, s) =>
      if reference.toNat % 2 = 1 then
        if ringZero s page 3 s.cr3 then some (putByte s page (word.truncate 8 + 1)) else none
      else some s

/-- What `run_string` keeps while it goes through the string. -/
structure Bench where
  paging : Paging
  faults : Nat
  resident : Nat
  refused : Nat

def makeRoom (root : Word) (frames : Nat) (b : Bench) : Bench :=
  if frames ≤ b.resident then
    match evictOne b.paging root with
    | (some frame, s) => { b with paging := s.deallocate frame, resident := b.resident - 1 }
    | (none, s) => { b with paging := s, refused := b.refused + 1 }
  else b

/-- The missing page comes back from the disk, or gets a frame. -/
def arrive (root page : Word) (s : Paging) : Bool × Paging :=
  if (leafEntry s root page).any isSwappedEntry then swapIn s page
  else
    match s.allocate with
    | (none, s) => (false, s)
    | (some frame, s) =>
        match mapPage s page frame (user ||| writable) with
        | (.error _, s) => (false, s)
        | (.ok _, s) => (true, s)

/-- One turn of the loop, with the states it goes through. -/
def refer (root : Word) (frames : Nat) (b : Bench) (reference : Reference) :
    Option (Bench × List Paging) :=
  let page := pageAddress reference
  if (translate b.paging page).isSome then
    (touch b.paging page reference).map fun s => ({ b with paging := s }, [s])
  else
    let b := makeRoom root frames { b with faults := b.faults + 1 }
    let came := arrive root page b.paging
    if came.1 then
      (touch came.2 page reference).map fun s =>
        ({ b with paging := s, resident := b.resident + 1 }, [b.paging, came.2, s])
    else some ({ b with paging := came.2 }, [b.paging, came.2])

def referAll (root : Word) (frames : Nat) : Bench → List Reference → Option (Bench × List Paging)
  | b, [] => some (b, [])
  | b, reference :: rest =>
      match refer root frames b reference with
      | none => none
      | some (b, now) =>
          (referAll root frames b rest).map fun found => (found.1, now ++ found.2)

/-- Everything is brought home before the space is torn down: the state at the end, and
those on the way. -/
def bringHome (root : Word) (s : Paging) : List Reference → Paging × List Paging
  | [] => (s, [])
  | reference :: rest =>
      let page := pageAddress reference
      let s := if (leafEntry s root page).any isSwappedEntry then (swapIn s page).2 else s
      let found := bringHome root s rest
      (found.1, s :: found.2)

/-- What a run comes to: the root of its space, what it returns, the states while the
string is referenced, the states while everything is brought home, and the state that is
left. -/
structure Outcome where
  root : Word
  counts : Nat × Nat
  during : List Paging
  home : List Paging
  last : Paging

/-- The part of `run_string` after the space has been made. -/
def runIn (root : Word) (s : Paging) (string : List Reference) (frames : Nat) : Option Outcome :=
  match referAll root frames ⟨{ s with cr3 := root }, 0, 0, 0⟩ string with
  | none => none
  | some (b, during) =>
      let found := bringHome root b.paging string
      some ⟨root, (b.faults, b.refused), during, found.2,
        destroy { found.1 with cr3 := s.cr3 } root⟩

/-- `run_string`: an error where there is no space, and `none` where a reference faults. -/
def runString (s : Paging) (policy : Nat) (string : List Reference) (frames : Nat) :
    Option (Except Paging Outcome) :=
  match newSpace (install s policy).2 with
  | (none, s) => some (.error s)
  | (some root, s) => (runIn root s string frames).map .ok

section Addresses

variable {a b reference : Reference}

theorem pageOf_pageAddress (reference : Reference) :
    pageOf (pageAddress reference) = pageAddress reference := by
  revert reference
  decide +kernel

theorem pageAddress_aligned (reference : Reference) : pageAddress reference &&& 0xfff = 0 := by
  revert reference
  decide +kernel

theorem pageAddress_user (reference : Reference) : pageAddress reference < userSpaceEnd := by
  revert reference
  decide +kernel

theorem indexes_pageAddress (reference : Reference) {level : Nat} (low : level ≤ 3) :
    indexes (pageAddress reference) level =
      pagePath 0 256 ⟨reference.toNat, by have := reference.isLt; omega⟩ level := by
  have all : ∀ level : Fin 4, ∀ reference : Reference,
      (indexes (pageAddress reference) level).val =
        if level.val = 0 then reference.toNat else if level.val = 1 then 256 else 0 := by
    decide +kernel
  have here := all ⟨level, Nat.lt_succ_of_le low⟩ reference
  apply Fin.ext
  rw [here]
  interval_cases level
  · rfl
  · rfl
  · rfl
  · rfl

theorem pageAddress_low (reference : Reference) : indexes (pageAddress reference) 3 = 0 :=
  indexes_pageAddress reference (Nat.le_refl 3)

theorem indexes_upper (a b : Reference) {level : Nat} (up : 0 < level) (low : level ≤ 3) :
    indexes (pageAddress a) level = indexes (pageAddress b) level := by
  rw [indexes_pageAddress a low, indexes_pageAddress b low]
  interval_cases level
  · rfl
  · rfl
  · rfl

theorem reference_eq (same : SamePage (indexes (pageAddress a)) (indexes (pageAddress b))) :
    a = b := by
  have last := same 0 (Nat.zero_le 3)
  rw [indexes_pageAddress a (Nat.zero_le 3), indexes_pageAddress b (Nat.zero_le 3)] at last
  exact BitVec.eq_of_toNat_eq (Fin.mk.inj last)

theorem addressAt_pageAddress (reference : Reference) :
    addressAt (indexes (pageAddress reference)) = pageAddress reference := by
  revert reference
  decide +kernel

theorem pageAddress_injective : Function.Injective pageAddress := by
  intro a b same
  exact reference_eq fun j _ => congrArg (fun address => indexes address j) same

end Addresses

section Walks

variable {s : Paging} {root address : Word}

private theorem lastTable_swapped (sound : Sound s.words root) (low : indexes address 3 = 0)
    {level : Nat} {table : Word}
    (route : Route userTree s.words (indexes address) 3 root level table) :
    ((lastTable s address level table).map fun table => s.words table (indexes address 0)).any
        isSwappedEntry =
      isSwappedEntry (entryAt userTree s.words level table (indexes address)) := by
  induction level generalizing table with
  | zero => rfl
  | succ level ih =>
      unfold lastTable
      dsimp only
      rcases sound.entry low route with ⟨absent, ends⟩ | ⟨there, -, down⟩
      · rw [entryAt_stop ends, if_pos absent]
        rfl
      · rw [entryAt_child down, ← ih (route.next down), if_neg]
        rw [there]
        exact Bool.false_ne_true.symm

theorem leafEntry_swapped (sound : Sound s.words root) (low : indexes address 3 = 0) :
    (leafEntry s root address).any isSwappedEntry =
      isSwappedEntry (leafAt s.words root (indexes address)) :=
  lastTable_swapped sound low (.here 3 root)

end Walks

end FiveAM.Memory.PagingBench
