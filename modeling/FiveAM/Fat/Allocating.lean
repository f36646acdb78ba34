/- GID: FiveAM/Fat/Allocating
   source: kernel/src/fat.rs
   digest: Listing and reading on the kernel heap, which stops the kernel where it has no room. -/

import FiveAM.Fat.Reading
import FiveAM.Lib.Requests

set_option autoImplicit false
set_option relaxedAutoImplicit false

namespace FiveAM.Fat.Allocating

open FiveAM.Lib.ByteRegions FiveAM.Lib.Requests FiveAM.Lib.Requests.Asking
open FiveAM.Fat.Reading

inductive Request where
  /-- The name of a file that is listed, and its place in `entries`. -/
  | entry (index : Nat)
  /-- `vec![0u8; entry.size as usize]`. -/
  | contents (size : Nat)
  /-- `vec![0u8; self.cluster_bytes()]`, after so many bytes of the file. -/
  | cluster (written : Nat)
  deriving DecidableEq

section Model

/-- The loop of `list`. -/
def listSlots (entries : List Entry) : List Slot → Asking Request (List Entry)
  | [] => return entries
  | slot :: rest =>
      if slot.first = entryFree then return entries
      else if slot.first = entryDeleted then listSlots entries rest
      else if slot.attributes &&& attributeVolumeLabel ≠ 0 then listSlots entries rest
      else if slot.attributes &&& attributeDirectory ≠ 0 then listSlots entries rest
      else do
        ask (.entry entries.length)
        listSlots (entries ++ [slot.entry]) rest

def list (v : Volume) (disk : Store) : Asking Request (List Entry) := listSlots [] (v.slots disk)

/-- The name is the bytes of a `str` here. -/
def find (v : Volume) (disk : Store) (name : List UInt8) : Asking Request Entry := do
  let entries ← list v disk
  match entries.find? fun entry =>
      (bytes entry.name).map toAsciiLowercase = name.map toAsciiLowercase with
  | some entry => return entry
  | none => give (.error "no such file")

/-- The loop of `read_file`. -/
def readFrom (v : Volume) (disk : Store) (size : Nat) :
    Nat → Nat → List UInt8 → Asking Request (List UInt8)
  | left, cluster, data =>
      if data.length < size then
        if cluster < 2 ∨ v.clusters + 2 ≤ cluster then give (.error "chain left the volume")
        else
          match left with
          | 0 => give (.error "cluster chain loops")
          | left + 1 => do
              ask (.cluster data.length)
              let buffer := read disk (v.clusterToSector cluster) v.sectorsPerCluster
              let wanted := min (size - data.length) buffer.length
              let data := data ++ buffer.take wanted
              if size ≤ data.length then return data
              else
                let cluster := v.nextCluster disk cluster
                if endOfChain ≤ cluster then give (.error "chain ended before the file did")
                else readFrom v disk size left cluster data
      else return data

/-- A vector without elements asks for nothing. -/
def readFile (v : Volume) (disk : Store) (entry : Entry) : Asking Request (List UInt8) :=
  if entry.size = 0 then return []
  else do
    ask (.contents entry.size)
    readFrom v disk entry.size v.clusters entry.firstCluster []

end Model

variable {v : Volume} {disk : Store}

section Results

theorem listSlots_ends (entries : List Entry) (slots : List Slot) :
    (listSlots entries slots).result = .ok (entries ++ Reading.listSlots slots) ∧
      (listSlots entries slots).asks =
        (List.range' entries.length (Reading.listSlots slots).length).map .entry := by
  induction slots generalizing entries with
  | nil => exact ⟨by rw [Reading.listSlots, List.append_nil]; rfl, rfl⟩
  | cons slot rest ih =>
      unfold listSlots Reading.listSlots
      split_ifs with free deleted label directory
      · exact ⟨by rw [List.append_nil]; rfl, rfl⟩
      · exact ih entries
      · exact ih entries
      · exact ih entries
      · obtain ⟨result, asks⟩ := ih (entries ++ [slot.entry])
        obtain ⟨asked, ended⟩ := ask_bind (Request.entry entries.length) fun _ =>
          listSlots (entries ++ [slot.entry]) rest
        refine ⟨ended.trans ?_, asked.trans ?_⟩
        · rw [result, List.append_assoc, List.singleton_append]
        · rw [asks, List.length_append, List.length_singleton, List.length_cons, List.range'_succ,
            List.map_cons]

theorem list_ends : (list v disk).result = .ok (v.list disk) ∧
    (list v disk).asks = (List.range (v.list disk).length).map .entry := by
  have ends := listSlots_ends [] (v.slots disk)
  rwa [List.nil_append, List.length_nil, ← List.range_eq_range'] at ends

theorem find_ends (name : List Char) : (find v disk (bytes name)).result = v.find disk name ∧
    (find v disk (bytes name)).asks = (List.range (v.list disk).length).map .entry := by
  obtain ⟨result, asks⟩ := @list_ends v disk
  unfold find
  obtain ⟨asked, ended⟩ := bind_ok result
  rw [asked, ended, asks]
  unfold Volume.find eqIgnoreAsciiCase
  cases (v.list disk).find? fun entry =>
      decide ((bytes entry.name).map toAsciiLowercase = (bytes name).map toAsciiLowercase) with
  | none => exact ⟨rfl, List.append_nil _⟩
  | some entry => exact ⟨rfl, List.append_nil _⟩

theorem readFrom_ends (size left cluster : Nat) (data : List UInt8) :
    (readFrom v disk size left cluster data).result = v.readFrom disk size left cluster data ∧
      ∀ r ∈ (readFrom v disk size left cluster data).asks, ∃ written < size, r = .cluster written := by
  induction left generalizing cluster data with
  | zero =>
      unfold readFrom Volume.readFrom
      split_ifs
      all_goals exact ⟨rfl, fun r none => absurd none List.not_mem_nil⟩
  | succ left ih =>
      unfold readFrom Volume.readFrom
      by_cases more : data.length < size
      swap
      · rw [if_neg more, if_neg more]
        exact ⟨rfl, fun r none => absurd none List.not_mem_nil⟩
      rw [if_pos more, if_pos more]
      by_cases outside : cluster < 2 ∨ v.clusters + 2 ≤ cluster
      · rw [if_pos outside, if_pos outside]
        exact ⟨rfl, fun r none => absurd none List.not_mem_nil⟩
      rw [if_neg outside, if_neg outside]
      dsimp only
      generalize data ++ (read disk (v.clusterToSector cluster) v.sectorsPerCluster).take _ = data'
      obtain ⟨asked, ended⟩ := ask_bind (Request.cluster data.length) fun _ =>
        if size ≤ data'.length then (pure data' : Asking Request (List UInt8))
        else if endOfChain ≤ v.nextCluster disk cluster then
          give (.error "chain ended before the file did")
        else readFrom v disk size left (v.nextCluster disk cluster) data'
      rw [asked, ended]
      have here : ∃ written < size, Request.cluster data.length = .cluster written := ⟨_, more, rfl⟩
      split_ifs
      · exact ⟨rfl, fun r member => by rwa [List.mem_singleton.mp member]⟩
      · exact ⟨rfl, fun r member => by rwa [List.mem_singleton.mp member]⟩
      · obtain ⟨result, asks⟩ := ih (v.nextCluster disk cluster) data'
        refine ⟨result, fun r member => ?_⟩
        rcases List.mem_cons.mp member with rfl | later
        · exact here
        · exact asks r later

theorem readFile_ends (entry : Entry) :
    (readFile v disk entry).result = v.readFile disk entry ∧
      ((readFile v disk entry).asks = [] ∨ entry.size ≠ 0 ∧ ∃ rest,
        (readFile v disk entry).asks = .contents entry.size :: rest ∧
          ∀ r ∈ rest, ∃ written < entry.size, r = .cluster written) := by
  unfold readFile Volume.readFile
  by_cases empty : entry.size = 0
  · rw [if_pos empty, if_pos empty]
    exact ⟨rfl, .inl rfl⟩
  · rw [if_neg empty, if_neg empty]
    obtain ⟨result, asks⟩ := @readFrom_ends v disk entry.size v.clusters entry.firstCluster []
    obtain ⟨asked, ended⟩ := ask_bind (Request.contents entry.size) fun _ =>
      readFrom v disk entry.size v.clusters entry.firstCluster []
    exact ⟨ended.trans result, .inr ⟨empty, _, asked, asks⟩⟩

end Results

section Heaps

/-- The heap has room for so many directory entries. -/
def Lists (heap : Request → Bool) (count : Nat) : Prop := ∀ index < count, heap (.entry index) = true

/-- The heap has room for a file of this size, and for a cluster beside it. -/
def Takes (heap : Request → Bool) (size : Nat) : Prop :=
  size ≠ 0 → heap (.contents size) = true ∧ ∀ written < size, heap (.cluster written) = true

variable {heap : Request → Bool}

theorem list_run (lists : Lists heap (v.list disk).length) :
    (list v disk).run heap = some (.ok (v.list disk)) := by
  obtain ⟨result, asks⟩ := @list_ends v disk
  refine run_some.mpr ⟨fun r member => ?_, result⟩
  rw [asks] at member
  obtain ⟨index, inside, rfl⟩ := List.mem_map.mp member
  exact lists index (List.mem_range.mp inside)

theorem find_run (lists : Lists heap (v.list disk).length) (name : List Char) :
    (find v disk (bytes name)).run heap = some (v.find disk name) := by
  obtain ⟨result, asks⟩ := @find_ends v disk name
  refine run_some.mpr ⟨fun r member => ?_, result⟩
  rw [asks] at member
  obtain ⟨index, inside, rfl⟩ := List.mem_map.mp member
  exact lists index (List.mem_range.mp inside)

theorem readFile_run {entry : Entry} (takes : Takes heap entry.size) :
    (readFile v disk entry).run heap = some (v.readFile disk entry) := by
  obtain ⟨result, none | ⟨some', rest, asks, clusters⟩⟩ := @readFile_ends v disk entry
  · exact run_some.mpr ⟨by simp [none], result⟩
  · obtain ⟨whole, each⟩ := takes some'
    refine run_some.mpr ⟨fun r member => ?_, result⟩
    rw [asks] at member
    rcases List.mem_cons.mp member with rfl | later
    · exact whole
    · obtain ⟨written, inside, rfl⟩ := clusters r later
      exact each written inside

theorem readFile_stops {entry : Entry} (some' : entry.size ≠ 0)
    (refused : heap (.contents entry.size) = false) : (readFile v disk entry).run heap = none := by
  refine run_none.mpr ⟨_, ?_, refused⟩
  rw [readFile, if_neg some', (ask_bind _ _).1]
  exact List.mem_cons_self

end Heaps

end FiveAM.Fat.Allocating
