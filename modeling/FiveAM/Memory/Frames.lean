/- GID: FiveAM/Memory/Frames
   source: kernel/src/memory.rs, kernel/src/swap.rs, kernel/src/replace.rs, kernel/src/ata.rs
   digest: Physical memory and the statics that manage it: free frames, owners, slots, disk. -/

import FiveAM.Memory.Entries
import Mathlib.Data.List.GetD
import Mathlib.Data.List.Perm.Basic

set_option autoImplicit false
set_option relaxedAutoImplicit false

namespace FiveAM.Memory.Frames

open FiveAM.Process.TaskTable (Word)
open FiveAM.Memory.Entries

abbrev slots : Nat := 2048

/-- `TRACKED`, the arrivals `Fifo` remembers. -/
abbrev tracked : Nat := 128

abbrev sectorsPerPage : Nat := 8
abbrev sectorWords : Nat := 64
abbrev Sector := Fin sectorWords → Word

/-- `SWAP_START`, the first sector past the filesystem. -/
def swapStart : Nat := 32768

structure Clock where
  hand : Nat

structure Fifo where
  address : Fin tracked → Word
  /-- Zero is an empty place. -/
  stamp : Fin tracked → Nat
  next : Nat

structure Random where
  state : Word

/-- The registered replacers that have a state, and the index of the active
one. -/
structure Replacers where
  clock : Clock
  fifo : Fifo
  random : Random
  active : Nat

/-- The drive: its sectors, how its transfers will go, and what was written. The
`n`-th transfer succeeds, or fails after a number of sectors. -/
structure Disk where
  sectors : Nat → Sector
  answers : Nat → Option Nat
  transfers : Nat
  written : List Nat

/-- Physical memory, frame by frame, with CR3 and the statics of `memory.rs`,
`replace.rs` and `swap.rs`. -/
structure Paging where
  words : Word → Table
  head : Word
  free : Nat
  shared : List (Word × Nat)
  cr3 : Word
  replacers : Replacers
  used : Fin slots → Bool
  disk : Disk

namespace Paging

def write (s : Paging) (frame : Word) (i : Index) (w : Word) : Paging :=
  { s with words := Function.update s.words frame (Function.update (s.words frame) i w) }

def fill (s : Paging) (frame : Word) (contents : Table) : Paging :=
  { s with words := Function.update s.words frame contents }

def allocate (s : Paging) : Option Word × Paging :=
  if s.head = 0 then (none, s)
  else (some s.head, { s with head := s.words s.head 0, free := s.free - 1 })

def deallocate (s : Paging) (frame : Word) : Paging :=
  { s.write frame 0 s.head with head := frame, free := s.free + 1 }

/-- Record one more owner of `frame`. -/
def share (s : Paging) (frame : Word) : Paging :=
  match s.shared.findIdx? fun owned => owned.1 == frame with
  | some i => { s with shared := s.shared.modify i fun owned => (owned.1, owned.2 + 1) }
  | none => { s with shared := s.shared ++ [(frame, 2)] }

def swapRemove (table : List (Word × Nat)) (i : Nat) : List (Word × Nat) :=
  (table.set i (table.getLastD (0, 0))).dropLast

def unshare (s : Paging) (frame : Word) : Nat × Paging :=
  match s.shared.findIdx? fun owned => owned.1 == frame with
  | some i =>
      let table := s.shared.modify i fun owned => (owned.1, owned.2 - 1)
      let left := (table.getD i (0, 0)).2
      (left, { s with shared := if left ≤ 1 then swapRemove table i else table })
  | none => (1, s)

def shareCount (s : Paging) (frame : Word) : Nat :=
  ((s.shared.find? fun owned => owned.1 == frame).map fun owned => owned.2).getD 1

/-- Is this frame shared with another address space? -/
def isShared (s : Paging) (frame : Word) : Bool := decide (1 < s.shareCount frame)

def allocateSlot (s : Paging) : Option (Fin slots) × Paging :=
  match (List.finRange slots).find? fun slot => !s.used slot with
  | some slot => (some slot, { s with used := Function.update s.used slot true })
  | none => (none, s)

def freeSlot (s : Paging) (slot : Nat) : Paging :=
  if bound : slot < slots then { s with used := Function.update s.used ⟨slot, bound⟩ false } else s

/-- The first sector of a slot, computed in `u32`. -/
def slotLba (slot : Nat) : Nat := (swapStart + slot % 2 ^ 32 * sectorsPerPage) % 2 ^ 32

def pageAt (sectors : Nat → Sector) (lba : Nat) : Table := fun i =>
  sectors (lba + i.val / sectorWords) ⟨i.val % sectorWords, Nat.mod_lt _ (by decide)⟩

/-- The sectors after the first `count` sectors of a page have been written. -/
def putSectors (sectors : Nat → Sector) (lba count : Nat) (page : Table) : Nat → Sector := fun n =>
  if lba ≤ n ∧ n < lba + min count sectorsPerPage then
    fun j => page ⟨((n - lba) * sectorWords + j.val) % 512, Nat.mod_lt _ (by decide)⟩
  else sectors n

/-- Write a frame's contents to a slot; `false` means the drive reported an
error. -/
def writeOut (s : Paging) (slot : Nat) (frame : Word) : Bool × Paging :=
  let answer := s.disk.answers s.disk.transfers
  let count := min (answer.getD sectorsPerPage) sectorsPerPage
  (answer.isNone, { s with disk := { s.disk with
    sectors := putSectors s.disk.sectors (slotLba slot) count (s.words frame)
    transfers := s.disk.transfers + 1
    written := s.disk.written ++ (List.range count).map fun n => slotLba slot + n } })

/-- Read a slot back into a frame; a failed transfer has filled only its first
sectors. -/
def readIn (s : Paging) (slot : Nat) (frame : Word) : Bool × Paging :=
  let answer := s.disk.answers s.disk.transfers
  let count := answer.getD sectorsPerPage
  let page := pageAt s.disk.sectors (slotLba slot)
  (answer.isNone, { s.fill frame fun i =>
      if i.val < count * sectorWords then page i else s.words frame i with
    disk := { s.disk with transfers := s.disk.transfers + 1 } })

/-- What the table of shared frames always is: no frame twice, and none with
fewer than two owners. -/
structure SharedOk (table : List (Word × Nat)) : Prop where
  nodup : (table.map fun owned => owned.1).Nodup
  several : ∀ owned ∈ table, 2 ≤ owned.2

def countIn (table : List (Word × Nat)) (frame : Word) : Nat :=
  ((table.find? fun owned => owned.1 == frame).map fun owned => owned.2).getD 1

theorem shareCount_eq (s : Paging) (frame : Word) : s.shareCount frame = countIn s.shared frame := rfl

theorem countIn_mem {table : List (Word × Nat)} (ok : SharedOk table) {frame : Word} {n : Nat}
    (member : (frame, n) ∈ table) : countIn table frame = n := by
  have found : (table.find? fun owned => owned.1 == frame).isSome :=
    List.find?_isSome.mpr ⟨_, member, by simp⟩
  obtain ⟨owned, here⟩ := Option.isSome_iff_exists.mp found
  have key : owned.1 = frame := by simpa using List.find?_some here
  have same : owned = (frame, n) :=
    List.inj_on_of_nodup_map ok.nodup (List.mem_of_find?_eq_some here) member key
  rw [countIn, here, same]
  rfl

theorem countIn_absent {table : List (Word × Nat)} {frame : Word}
    (absent : frame ∉ table.map fun owned => owned.1) : countIn table frame = 1 := by
  have none : (table.find? fun owned => owned.1 == frame) = none := by
    refine List.find?_eq_none.mpr fun owned member => ?_
    have other : owned.1 ≠ frame := fun same => absent (List.mem_map.mpr ⟨owned, member, same⟩)
    simpa using other
  rw [countIn, none]
  rfl

theorem SharedOk.perm {table table' : List (Word × Nat)} (ok : SharedOk table)
    (perm : table'.Perm table) : SharedOk table' where
  nodup := ((perm.map _).nodup_iff).mpr ok.nodup
  several owned member := ok.several owned (perm.mem_iff.mp member)

theorem countIn_perm {table table' : List (Word × Nat)} (ok : SharedOk table)
    (perm : table'.Perm table) (frame : Word) : countIn table' frame = countIn table frame := by
  by_cases member : frame ∈ table.map fun owned => owned.1
  · obtain ⟨⟨f, n⟩, inside, rfl⟩ := List.mem_map.mp member
    rw [countIn_mem ok inside, countIn_mem (ok.perm perm) (perm.mem_iff.mpr inside)]
  · rw [countIn_absent member, countIn_absent fun inside => member ((perm.map _).mem_iff.mp inside)]

theorem split_at {table : List (Word × Nat)} {frame : Word} {i : Nat}
    (found : table.findIdx? (fun owned => owned.1 == frame) = some i) :
    ∃ n, table.getD i (0, 0) = (frame, n) ∧ i < table.length ∧
      ((frame, n) :: table.eraseIdx i).Perm table := by
  obtain ⟨bound, here, -⟩ := List.findIdx?_eq_some_iff_getElem.mp found
  have key : table[i].1 = frame := by simpa using here
  refine ⟨table[i].2, ?_, bound, ?_⟩
  · rw [List.getD_eq_getElem table (0, 0) bound, ← key]
  · rw [← key]
    exact List.getElem_cons_eraseIdx_perm bound

theorem modify_perm {table : List (Word × Nat)} {i : Nat} (bound : i < table.length)
    (change : Word × Nat → Word × Nat) :
    (table.modify i change).Perm (change (table.getD i (0, 0)) :: table.eraseIdx i) := by
  have set : table.modify i change = table.set i (change (table.getD i (0, 0))) := by
    rw [List.modify_eq_set_getElem?, List.getElem?_eq_getElem bound,
      List.getD_eq_getElem table (0, 0) bound]
    rfl
  have long : i < (table.set i (change (table.getD i (0, 0)))).length := by
    rw [List.length_set]
    exact bound
  have split := (List.getElem_cons_eraseIdx_perm long).symm
  rw [List.eraseIdx_set_eq, List.getElem_set_self] at split
  rw [set]
  exact split

theorem swapRemove_perm {table : List (Word × Nat)} {i : Nat} (bound : i < table.length) :
    (swapRemove table i).Perm (table.eraseIdx i) := by
  obtain rfl | ⟨init, last, rfl⟩ := List.eq_nil_or_concat table
  · simp at bound
  · rw [List.concat_eq_append] at bound ⊢
    unfold swapRemove
    rw [List.getLastD_concat, List.set_append]
    split_ifs with low
    · rw [List.dropLast_concat, List.eraseIdx_append_of_lt_length low]
      have long : i < (init.set i last).length := by rwa [List.length_set]
      have split := (List.getElem_cons_eraseIdx_perm long).symm
      rw [List.eraseIdx_set_eq, List.getElem_set_self] at split
      exact split.trans (List.perm_append_singleton last _).symm
    · have top : i = init.length := by
        rw [List.length_append, List.length_singleton] at bound
        omega
      subst top
      rw [List.eraseIdx_append_of_length_le (Nat.le_refl _)]
      simp

private theorem SharedOk.tail {frame : Word} {n : Nat} {rest : List (Word × Nat)}
    (ok : SharedOk ((frame, n) :: rest)) :
    SharedOk rest ∧ frame ∉ rest.map fun owned => owned.1 := by
  have split := List.nodup_cons.mp ok.nodup
  exact ⟨⟨split.2, fun owned member => ok.several owned (List.mem_cons_of_mem _ member)⟩, split.1⟩

private theorem countIn_cons {frame other : Word} {n : Nat} {rest : List (Word × Nat)}
    (apart : other ≠ frame) : countIn ((frame, n) :: rest) other = countIn rest other := by
  unfold countIn
  rw [List.find?_cons_of_neg (by simpa using apart.symm)]

private theorem countIn_here {frame : Word} {n : Nat} {rest : List (Word × Nat)} :
    countIn ((frame, n) :: rest) frame = n := by
  unfold countIn
  rw [List.find?_cons_of_pos (by simp)]
  rfl

theorem share_spec {s : Paging} (ok : SharedOk s.shared) (frame : Word) :
    SharedOk (s.share frame).shared ∧ ∀ f, (s.share frame).shareCount f =
      if f = frame then s.shareCount frame + 1 else s.shareCount f := by
  simp only [share, shareCount_eq]
  cases found : s.shared.findIdx? fun owned => owned.1 == frame with
  | none =>
      have absent : frame ∉ s.shared.map fun owned => owned.1 := by
        rintro member
        obtain ⟨owned, inside, same⟩ := List.mem_map.mp member
        exact absurd (List.findIdx?_eq_none_iff.mp found owned inside) (by simpa using same)
      have perm := List.perm_append_singleton (frame, 2) s.shared
      have grown : SharedOk ((frame, 2) :: s.shared) :=
        ⟨List.nodup_cons.mpr ⟨absent, ok.nodup⟩, fun owned member => by
          rcases List.mem_cons.mp member with rfl | inside
          · exact Nat.le_refl 2
          · exact ok.several owned inside⟩
      refine ⟨grown.perm perm, fun f => ?_⟩
      rw [countIn_perm grown perm]
      split_ifs with same
      · rw [same, countIn_here, countIn_absent absent]
      · exact countIn_cons same
  | some i =>
      obtain ⟨n, here, bound, perm⟩ := split_at found
      have split := ok.perm perm
      have moved := modify_perm bound fun owned : Word × Nat => (owned.1, owned.2 + 1)
      rw [here] at moved
      have several : 2 ≤ n := split.several (frame, n) List.mem_cons_self
      have grown : SharedOk ((frame, n + 1) :: s.shared.eraseIdx i) :=
        ⟨split.nodup, fun owned member => by
          rcases List.mem_cons.mp member with rfl | inside
          · exact Nat.le_succ_of_le several
          · exact split.several owned (List.mem_cons_of_mem _ inside)⟩
      refine ⟨grown.perm moved, fun f => ?_⟩
      rw [countIn_perm grown moved, ← countIn_perm ok perm frame, ← countIn_perm ok perm f]
      split_ifs with same
      · rw [same, countIn_here, countIn_here]
      · rw [countIn_cons same, countIn_cons same]

theorem unshare_spec {s : Paging} (ok : SharedOk s.shared) (frame : Word) :
    SharedOk (s.unshare frame).2.shared ∧ ∀ f, (s.unshare frame).2.shareCount f =
      if f = frame then max 1 (s.shareCount frame - 1) else s.shareCount f := by
  simp only [unshare, shareCount_eq]
  cases found : s.shared.findIdx? fun owned => owned.1 == frame with
  | none =>
      have absent : frame ∉ s.shared.map fun owned => owned.1 := by
        rintro member
        obtain ⟨owned, inside, same⟩ := List.mem_map.mp member
        exact absurd (List.findIdx?_eq_none_iff.mp found owned inside) (by simpa using same)
      refine ⟨ok, fun f => ?_⟩
      split_ifs with same
      · rw [same, countIn_absent absent]
        rfl
      · rfl
  | some i =>
      obtain ⟨n, here, bound, perm⟩ := split_at found
      have split := ok.perm perm
      obtain ⟨rest, absent⟩ := split.tail
      have moved := modify_perm bound fun owned : Word × Nat => (owned.1, owned.2 - 1)
      rw [here] at moved
      have several : 2 ≤ n := split.several (frame, n) List.mem_cons_self
      have long : i < (s.shared.modify i fun owned => (owned.1, owned.2 - 1)).length := by
        rw [List.length_modify]
        exact bound
      have left : ((s.shared.modify i fun owned => (owned.1, owned.2 - 1)).getD i (0, 0)).2 =
          n - 1 := by
        rw [List.getD_eq_getElem _ _ long, List.getElem_modify_eq,
          ← List.getD_eq_getElem s.shared (0, 0) bound, here]
      simp only [left]
      by_cases last : n - 1 ≤ 1
      · simp only [if_pos last]
        have removed := swapRemove_perm long
        rw [List.eraseIdx_modify_of_eq] at removed
        refine ⟨rest.perm removed, fun f => ?_⟩
        rw [countIn_perm rest removed, ← countIn_perm ok perm frame, ← countIn_perm ok perm f]
        split_ifs with same
        · rw [same, countIn_here, countIn_absent absent]
          omega
        · rw [countIn_cons same]
      · simp only [if_neg last]
        have shrunk : SharedOk ((frame, n - 1) :: s.shared.eraseIdx i) :=
          ⟨split.nodup, fun owned member => by
            rcases List.mem_cons.mp member with rfl | inside
            · simp only
              omega
            · exact split.several owned (List.mem_cons_of_mem _ inside)⟩
        refine ⟨shrunk.perm moved, fun f => ?_⟩
        rw [countIn_perm shrunk moved, ← countIn_perm ok perm frame, ← countIn_perm ok perm f]
        split_ifs with same
        · rw [same, countIn_here, countIn_here]
          omega
        · rw [countIn_cons same, countIn_cons same]

end Paging

end FiveAM.Memory.Frames
