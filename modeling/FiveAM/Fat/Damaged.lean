/- GID: FiveAM/Fat/Damaged
   source: kernel/src/fat.rs, kernel/src/ata.rs
   digest: Reading a file whatever the table says: every panic and every transfer in view. -/

import FiveAM.Lib.Checked
import FiveAM.Fat.Files
import FiveAM.Fat.Geometry

set_option autoImplicit false
set_option relaxedAutoImplicit false

namespace FiveAM.Fat.Damaged

open FiveAM.Lib.ByteRegions FiveAM.Lib.Checked FiveAM.Lib.LinkedTable
open FiveAM.Fat.Reading FiveAM.Fat.Layout FiveAM.Fat.Geometry
open FiveAM.Fat.Files (clusterData_length)

structure Transfer where
  lba : Nat
  count : Nat
  deriving DecidableEq

section Model

/-- `ata::read` into a buffer of `length` bytes, when every transfer succeeds. -/
def ataRead (disk : Store) (lba length : Nat) : Except String (List UInt8 × List Transfer) :=
  if length % sectorSize ≠ 0 then .error "buffer is not a whole number of sectors"
  else if length / sectorSize = 0 then .ok ([], [])
  else if 256 < length / sectorSize then .error "too many sectors for one request"
  else .ok (read disk lba (length / sectorSize), [⟨lba, length / sectorSize⟩])

def readU16 (buffer : List UInt8) (i : Nat) : Option Nat := do
  let low ← buffer[i]?
  let high ← buffer[i + 1]?
  return low.toNat + 2 ^ 8 * high.toNat

def clusterToSector (v : Volume) (cluster : Nat) : Option Nat := do
  let index ← minus cluster 2
  let offset ← fit 32 (index * v.sectorsPerCluster)
  fit 32 (v.dataStart + offset)

/-- What comes after this cluster, and what was transferred to find out. -/
def nextCluster (v : Volume) (disk : Store) (cluster : Nat) :
    Option (Except String (Nat × List Transfer)) := do
  let offset ← fit 32 (cluster * 2)
  let row ← if v.bytesPerSector = 0 then none else some (offset / v.bytesPerSector)
  let sector ← fit 32 (v.fatStart + row)
  match ataRead disk sector sectorSize with
  | .error error => return .error error
  | .ok (buffer, moved) =>
      let next ← readU16 buffer (offset % v.bytesPerSector)
      return .ok (next, moved)

/-- The variables of the loop in `read_file`, and the transfers so far. -/
structure Reader where
  data : List UInt8
  cluster : Nat
  written : Nat
  visited : Nat
  moved : List Transfer

/-- One pass of the loop: the result when the function returns in it. -/
def pass (v : Volume) (disk : Store) (r : Reader) :
    Option (Option (Except String (List UInt8)) × Reader) := do
  if r.data.length ≤ r.written then return (some (.ok r.data), r)
  else
    let limit ← fit 32 (v.clusters + 2)
    if r.cluster < 2 ∨ limit ≤ r.cluster then
      return (some (.error "chain left the volume"), r)
    else
      let visited ← fit 32 (r.visited + 1)
      let r := { r with visited := visited }
      if v.clusters < visited then return (some (.error "cluster chain loops"), r)
      else
        let length ← fit 32 v.clusterBytes
        let sector ← clusterToSector v r.cluster
        match ataRead disk sector length with
        | .error error => return (some (.error error), r)
        | .ok (buffer, moved) =>
            let missing ← minus r.data.length r.written
            let wanted := min missing buffer.length
            let bytes ← part buffer 0 wanted
            let data ← copyTo r.data r.written bytes
            let r := { r with
              data := data, written := r.written + wanted, moved := r.moved ++ moved }
            if data.length ≤ r.written then return (some (.ok data), r)
            else
              match ← nextCluster v disk r.cluster with
              | .error error => return (some (.error error), r)
              | .ok (next, moved) =>
                  let r := { r with cluster := next, moved := r.moved ++ moved }
                  if endOfChain ≤ next then
                    return (some (.error "chain ended before the file did"), r)
                  else return (none, r)

/-- How a function ends within a number of passes. -/
inductive Ending where
  | returns (result : Except String (List UInt8)) (moved : List Transfer)
  | panics
  | goesOn

def loop (v : Volume) (disk : Store) : Nat → Reader → Ending
  | 0, _ => .goesOn
  | passes + 1, r =>
      match pass v disk r with
      | none => .panics
      | some (some result, r) => .returns result r.moved
      | some (none, r) => loop v disk passes r

/-- `read_file` with so many passes of its loop. -/
def readFile (v : Volume) (disk : Store) (entry : Entry) (passes : Nat) : Ending :=
  let data := List.replicate entry.size 0
  if entry.size = 0 then .returns (.ok data) []
  else loop v disk passes ⟨data, entry.firstCluster, 0, 0, []⟩

end Model

section Contents

variable {v : Volume} {disk : Store} {size : Nat}

theorem read_cluster (sound : Sound v) {cluster : Nat} (inside : Inside v cluster) :
    Reading.read disk (v.clusterToSector cluster) v.sectorsPerCluster =
      clusterData v disk cluster := by
  rw [clusterData, if_pos inside, sound.clusterBytes_eq]
  rfl

theorem flatMap_length {cells : List Nat} (inside : ∀ c ∈ cells, Inside v c) :
    (cells.flatMap (clusterData v disk)).length = cells.length * v.clusterBytes := by
  induction cells with
  | nil => simp
  | cons c rest ih =>
      rw [List.flatMap_cons, List.length_append, ih fun x member =>
        inside x (List.mem_cons_of_mem c member), clusterData_length _ (inside c List.mem_cons_self),
        List.length_cons, Nat.add_mul, Nat.one_mul, Nat.add_comm]

/-- Where the loop of `read_file` succeeds it has read clusters of the chain, no more than it
may, and taken their bytes in order. -/
theorem readFrom_ok (sound : Sound v) {left cluster : Nat} {taken data : List UInt8}
    (short : taken.length < size) (read : v.readFrom disk size left cluster taken = .ok data) :
    ∃ cells, Chain (v.nextCluster disk) (Inside v) (fun _ => True) cluster cells ∧
      cells.length ≤ left ∧ size ≤ taken.length + cells.length * v.clusterBytes ∧
      data = taken ++ (cells.flatMap (clusterData v disk)).take (size - taken.length) := by
  induction left generalizing cluster taken with
  | zero =>
      rw [Volume.readFrom, if_pos short] at read
      split_ifs at read
  | succ left ih =>
      rw [Volume.readFrom, if_pos short] at read
      split_ifs at read with outside
      have inside : Inside v cluster := by
        unfold Inside
        omega
      simp only [read_cluster sound inside, clusterData_length disk inside] at read
      have full := clusterData_length disk inside
      split_ifs at read with done ends
      · obtain rfl := Except.ok.inj read
        refine ⟨[cluster], ⟨rfl, inside, trivial⟩, by simp, ?_, ?_⟩
        · rw [List.length_append, List.length_take, full] at done
          simp only [List.length_singleton]
          omega
        · rw [List.length_append, List.length_take, full] at done
          simp only [List.flatMap_cons, List.flatMap_nil, List.append_nil]
          rw [Nat.min_eq_left (by omega)]
      · rw [List.length_append, List.length_take, full] at done
        have longer : v.clusterBytes < size - taken.length := by omega
        have whole : (clusterData v disk cluster).take (min (size - taken.length) v.clusterBytes) =
            clusterData v disk cluster := List.take_of_length_le (by omega)
        rw [whole] at read
        have grown : (taken ++ clusterData v disk cluster).length =
            taken.length + v.clusterBytes := by rw [List.length_append, full]
        obtain ⟨cells, chain, few, enough, same⟩ := ih (by rw [grown]; omega) read
        rw [grown] at enough same
        refine ⟨cluster :: cells, ⟨rfl, inside, chain⟩, by simpa using few, ?_, ?_⟩
        · simp only [List.length_cons, Nat.add_mul, Nat.one_mul]
          omega
        · have first : (clusterData v disk cluster).take (size - taken.length) =
              clusterData v disk cluster := List.take_of_length_le (by omega)
          rw [same, List.flatMap_cons, List.append_assoc, List.take_append, full, first,
            show size - taken.length - v.clusterBytes = size - (taken.length + v.clusterBytes) by
              omega]

end Contents

section Calls

variable {v : Volume} {disk : Store} {total cluster : Nat}

variable (disk) in
theorem ataRead_eq (lba count : Nat) (some : 0 < count) (few : count ≤ 256) :
    ataRead disk lba (sectorSize * count) =
      .ok (Reading.read disk lba count, [⟨lba, count⟩]) := by
  have whole : sectorSize * count / sectorSize = count :=
    Nat.mul_div_cancel_left _ (by decide)
  rw [ataRead, Nat.mul_mod_right, whole, if_neg (by simp), if_neg (by omega), if_neg (by omega)]

theorem clusterToSector_eq (usable : Usable v total) (inside : Inside v cluster) :
    clusterToSector v cluster = some (v.clusterToSector cluster) := by
  obtain ⟨offset, sector, _⟩ := usable.clusters cluster inside
  rw [clusterToSector, minus_eq inside.1, Option.bind_eq_bind, Option.bind_some, fit_eq offset,
    Option.bind_some]
  exact fit_eq sector

theorem readU16_eq {buffer : List UInt8} {i : Nat} (inside : i + 1 < buffer.length) :
    readU16 buffer i = some (Reading.readU16 buffer i) := by
  rw [readU16, List.getElem?_eq_getElem (by omega), List.getElem?_eq_getElem inside,
    Reading.readU16, List.getD_eq_getElem _ _ (by omega), List.getD_eq_getElem _ _ inside]
  rfl

theorem nextCluster_eq (sound : Sound v) (usable : Usable v total) (inside : Inside v cluster) :
    nextCluster v disk cluster =
      some (.ok (v.nextCluster disk cluster, [⟨entrySector v cluster 0, 1⟩])) := by
  obtain ⟨_, _, double⟩ := usable.clusters cluster inside
  obtain ⟨_, sector⟩ := usable.copies cluster 0 inside sound.copies
  have row : entrySector v cluster 0 = v.fatStart + cluster * 2 / v.bytesPerSector := by
    simp [entrySector, Writing.fatEntryLocation]
  have within : cluster * 2 % v.bytesPerSector + 1 < (Reading.read disk
      (entrySector v cluster 0) 1).length := by
    obtain ⟨_, fits⟩ := usable.entries cluster 0 inside sound.copies
    simp only [Reading.read, slice_length, Writing.fatEntryLocation] at fits ⊢
    omega
  have positive : v.bytesPerSector ≠ 0 := by rw [sound.sector]; decide
  rw [row] at sector within
  have transfer := ataRead_eq disk
    (v.fatStart + cluster * 2 / v.bytesPerSector) 1 (by decide) (by decide)
  rw [Nat.mul_one] at transfer
  simp only [nextCluster, fit_eq double, Option.bind_eq_bind, Option.bind_some, if_neg positive,
    fit_eq sector, transfer, readU16_eq within, row]
  rfl

end Calls

section Passes

variable {v : Volume} {disk : Store} {total size : Nat}

/-- A transfer of a sector of the first table, or of a cluster's sectors. -/
def Allowed (v : Volume) (total : Nat) (t : Transfer) : Prop :=
  (t.count = 1 ∧ (tableCopy v 0).Holds t.lba ∨
    ∃ c, Inside v c ∧ t = ⟨v.clusterToSector c, v.sectorsPerCluster⟩) ∧
  t.lba + t.count ≤ total

def clusterReads (v : Volume) (moved : List Transfer) : Nat :=
  moved.countP fun t => decide (v.dataStart ≤ t.lba)

/-- The loop is at its top with something left to read. -/
structure Going (v : Volume) (total size : Nat) (r : Reader) : Prop where
  length : r.data.length = size
  short : r.written < size
  visited : r.visited ≤ v.clusters
  moved : ∀ t ∈ r.moved, Allowed v total t
  reads : clusterReads v r.moved = r.visited

/-- What is left of the file to read, as `read_file` without its checks says. -/
def remaining (v : Volume) (disk : Store) (size : Nat) (r : Reader) :
    Except String (List UInt8) :=
  v.readFrom disk size (v.clusters - r.visited) r.cluster (r.data.take r.written)

theorem allowed_cluster (usable : Usable v total) {c : Nat} (inside : Inside v c) :
    Allowed v total ⟨v.clusterToSector c, v.sectorsPerCluster⟩ :=
  ⟨.inr ⟨c, inside, rfl⟩, (usable.data c inside).2⟩

theorem allowed_entry (sound : Sound v) (usable : Usable v total) {c : Nat} (inside : Inside v c) :
    Allowed v total ⟨entrySector v c 0, 1⟩ ∧ entrySector v c 0 < v.dataStart := by
  obtain ⟨holds, _⟩ := usable.entries c 0 inside sound.copies
  have copies := sound.copies
  have root := sound.root
  have data := sound.rootStart_le
  have bound := usable.fields.2.2.2.2
  have one : v.sectorsPerFat ≤ v.fatCount * v.sectorsPerFat := Nat.le_mul_of_pos_left _ copies
  have stop := holds.2
  simp only [tableCopy, FiveAM.Lib.Extents.Extent.stop, Nat.zero_mul, Nat.add_zero] at stop
  exact ⟨⟨.inl ⟨rfl, holds⟩, by simp only; omega⟩, by omega⟩

/-- What a pass leaves: the transfers so far are allowed, and either the function returns what
is left to read, or one more cluster is behind it. -/
structure Passed (v : Volume) (disk : Store) (total size : Nat) (r : Reader)
    (answer : Option (Except String (List UInt8))) (r' : Reader) : Prop where
  moved : ∀ t ∈ r'.moved, Allowed v total t
  reads : clusterReads v r'.moved ≤ v.clusters
  returns : ∀ result, answer = some result → result = remaining v disk size r
  goesOn : answer = none → Going v total size r' ∧ r'.visited = r.visited + 1 ∧
    remaining v disk size r' = remaining v disk size r

private theorem remaining_outside {r : Reader} (going : Going v total size r)
    (outside : r.cluster < 2 ∨ v.clusters + 2 ≤ r.cluster) :
    remaining v disk size r = .error "chain left the volume" := by
  have short := going.short
  have taken : (r.data.take r.written).length < size := by
    rw [List.length_take]
    omega
  unfold remaining Volume.readFrom
  rw [if_pos taken, if_pos outside]

private theorem remaining_loops {r : Reader} (going : Going v total size r)
    (inside : ¬ (r.cluster < 2 ∨ v.clusters + 2 ≤ r.cluster)) (last : v.clusters = r.visited) :
    remaining v disk size r = .error "cluster chain loops" := by
  have short := going.short
  have taken : (r.data.take r.written).length < size := by
    rw [List.length_take]
    omega
  rw [remaining, last, Nat.sub_self, Volume.readFrom, if_pos taken, if_neg (last ▸ inside)]

private def bytesTaken (v : Volume) (disk : Store) (size : Nat) (r : Reader) : List UInt8 :=
  (clusterData v disk r.cluster).take (min (size - r.written) v.clusterBytes)

variable (disk) in
private theorem remaining_next (sound : Sound v) {r : Reader} (going : Going v total size r)
    (inside : Inside v r.cluster) (more : r.visited < v.clusters) :
    remaining v disk size r =
      if size ≤ r.written + min (size - r.written) v.clusterBytes then
        .ok (r.data.take r.written ++ bytesTaken v disk size r)
      else if endOfChain ≤ v.nextCluster disk r.cluster then
        .error "chain ended before the file did"
      else v.readFrom disk size (v.clusters - (r.visited + 1)) (v.nextCluster disk r.cluster)
        (r.data.take r.written ++ bytesTaken v disk size r) := by
  have short := going.short
  have taken : (r.data.take r.written).length = r.written := by
    rw [List.length_take, going.length]
    omega
  have full := clusterData_length disk inside
  have outside : ¬ (r.cluster < 2 ∨ v.clusters + 2 ≤ r.cluster) := by
    unfold Inside at inside
    omega
  obtain ⟨left, count⟩ := Nat.exists_eq_add_of_lt more
  rw [remaining, show v.clusters - r.visited = left + 1 by omega, Volume.readFrom,
    if_pos (by rw [taken]; exact short), if_neg outside, show v.clusters - (r.visited + 1) = left by omega]
  simp only [read_cluster sound inside, full, taken, List.length_append, List.length_take]
  rw [Nat.min_eq_left (Nat.min_le_right _ _)]
  rfl

private theorem moved_cluster (usable : Usable v total) {r : Reader}
    (inside : Inside v r.cluster) (going : Going v total size r) :
    (∀ t ∈ r.moved ++ [⟨v.clusterToSector r.cluster, v.sectorsPerCluster⟩], Allowed v total t) ∧
      clusterReads v (r.moved ++ [⟨v.clusterToSector r.cluster, v.sectorsPerCluster⟩]) =
        r.visited + 1 := by
  constructor
  · intro t member
    rcases List.mem_append.mp member with before | last
    · exact going.moved t before
    · obtain rfl := List.mem_singleton.mp last
      exact allowed_cluster usable inside
  · have data : v.dataStart ≤ v.clusterToSector r.cluster := Nat.le_add_right _ _
    rw [clusterReads, List.countP_append, ← going.reads, clusterReads,
      List.countP_singleton, if_pos (decide_eq_true data)]

private theorem moved_entry (sound : Sound v) (usable : Usable v total) {moved : List Transfer}
    {cluster count : Nat} (inside : Inside v cluster)
    (before : (∀ t ∈ moved, Allowed v total t) ∧ clusterReads v moved = count) :
    (∀ t ∈ moved ++ [⟨entrySector v cluster 0, 1⟩], Allowed v total t) ∧
      clusterReads v (moved ++ [⟨entrySector v cluster 0, 1⟩]) = count := by
  obtain ⟨allowed, low⟩ := allowed_entry sound usable inside
  constructor
  · intro t member
    rcases List.mem_append.mp member with earlier | last
    · exact before.1 t earlier
    · obtain rfl := List.mem_singleton.mp last
      exact allowed
  · rw [clusterReads, List.countP_append, ← before.2, clusterReads, List.countP_singleton,
      if_neg (by simpa using low), Nat.add_zero]

variable (disk) in
theorem pass_spec (sound : Sound v) (usable : Usable v total) {r : Reader}
    (going : Going v total size r) :
    ∃ answer r', pass v disk r = some (answer, r') ∧ Passed v disk total size r answer r' := by
  have few := sound.few
  have small := sound.small
  have short := going.short
  have limit : fit 32 (v.clusters + 2) = some (v.clusters + 2) := fit_eq (by omega)
  have visited : fit 32 (r.visited + 1) = some (r.visited + 1) :=
    fit_eq (by have more := going.visited; omega)
  rw [pass, going.length, if_neg (by omega), limit, visited]
  simp only [Option.bind_eq_bind, Option.bind_some]
  by_cases outside : r.cluster < 2 ∨ v.clusters + 2 ≤ r.cluster
  · rw [if_pos outside]
    refine ⟨_, _, rfl, going.moved, going.reads ▸ going.visited, ?_, nofun⟩
    rintro result ⟨⟩
    exact (remaining_outside going outside).symm
  · rw [if_neg outside]
    by_cases loops : v.clusters < r.visited + 1
    · rw [if_pos loops]
      refine ⟨_, _, rfl, going.moved, going.reads ▸ going.visited, ?_, nofun⟩
      rintro result ⟨⟩
      have all := going.visited
      exact (remaining_loops going outside (by omega)).symm
    · have inside : Inside v r.cluster := by
        unfold Inside
        omega
      have rest := remaining_next disk sound going inside (by omega)
      have bytes : fit 32 v.clusterBytes = some v.clusterBytes :=
        fit_eq (by rw [sound.clusterBytes_eq, sectorSize]; omega)
      have full := clusterData_length disk inside
      have transfer := ataRead_eq disk (v.clusterToSector r.cluster) _
        sound.cluster (by omega)
      rw [← sound.clusterBytes_eq, read_cluster sound inside] at transfer
      have wanted : min (size - r.written) v.clusterBytes ≤ v.clusterBytes := Nat.min_le_right _ _
      have slice : part (clusterData v disk r.cluster) 0 (min (size - r.written) v.clusterBytes) =
          some (bytesTaken v disk size r) := part_eq (Nat.zero_le _) (by omega)
      have length : (bytesTaken v disk size r).length = min (size - r.written) v.clusterBytes := by
        rw [bytesTaken, List.length_take, full, Nat.min_eq_left wanted]
      have copied : copyTo r.data r.written (bytesTaken v disk size r) =
          some (splice r.data r.written (bytesTaken v disk size r)) :=
        copyTo_eq (by rw [length, going.length]; omega)
      rw [if_neg loops, bytes, clusterToSector_eq usable inside]
      simp only [Option.bind_some, transfer, going.length, full,
        minus_eq (Nat.le_of_lt short), slice, copied]
      have grown : (splice r.data r.written (bytesTaken v disk size r)).length = size := by
        rw [splice_length (by rw [length, going.length]; omega), going.length]
      have front : (splice r.data r.written (bytesTaken v disk size r)).take
          (r.written + min (size - r.written) v.clusterBytes) =
            r.data.take r.written ++ bytesTaken v disk size r := by
        rw [← length]
        exact splice_take (by rw [length, going.length]; omega)
      have once := moved_cluster usable inside going
      have twice := moved_entry sound usable inside once
      rw [grown]
      by_cases last : size ≤ r.written + min (size - r.written) v.clusterBytes
      · rw [if_pos last] at rest ⊢
        refine ⟨_, _, rfl, once.1, by simp only [once.2]; omega, ?_, nofun⟩
        rintro result ⟨⟩
        rw [rest, ← front, List.take_of_length_le (by omega)]
      · rw [if_neg last] at rest ⊢
        rw [nextCluster_eq sound usable inside, Option.bind_some]
        by_cases ends : endOfChain ≤ v.nextCluster disk r.cluster
        · rw [if_pos ends] at rest
          simp only [if_pos ends]
          refine ⟨_, _, rfl, twice.1, by simp only [twice.2]; omega, ?_, nofun⟩
          rintro result ⟨⟩
          exact rest.symm
        · rw [if_neg ends] at rest
          simp only [if_neg ends]
          refine ⟨_, _, rfl, twice.1, by simp only [twice.2]; omega, nofun, fun _ =>
            ⟨⟨grown, by simp only; omega, by simp only; omega, twice.1, twice.2⟩, rfl, ?_⟩⟩
          rw [rest, remaining]
          simp only [front]

private theorem loop_longer {passes : Nat} {r : Reader} {result : Except String (List UInt8)}
    {moved : List Transfer} (run : loop v disk passes r = .returns result moved) (more : Nat) :
    loop v disk (passes + more) r = .returns result moved := by
  induction passes generalizing r with
  | zero => exact absurd run Ending.noConfusion
  | succ passes ih =>
      rw [Nat.add_right_comm]
      cases taken : pass v disk r with
      | none => simp [loop, taken] at run
      | some step =>
          obtain ⟨answer, r'⟩ := step
          cases answer with
          | some answer => simpa [loop, taken] using run
          | none =>
              simp only [loop, taken] at run ⊢
              exact ih run

theorem loop_spec (sound : Sound v) (usable : Usable v total) {passes : Nat} {r : Reader}
    (going : Going v total size r) (enough : v.clusters + 1 ≤ r.visited + passes) :
    ∃ moved, loop v disk passes r = .returns (remaining v disk size r) moved ∧
      (∀ t ∈ moved, Allowed v total t) ∧ clusterReads v moved ≤ v.clusters := by
  induction passes generalizing r with
  | zero =>
      have bound := going.visited
      omega
  | succ passes ih =>
      obtain ⟨answer, r', taken, passed⟩ := pass_spec disk sound usable going
      cases answer with
      | some result =>
          refine ⟨r'.moved, ?_, passed.moved, passed.reads⟩
          simp only [loop, taken]
          rw [passed.returns result rfl]
      | none =>
          obtain ⟨onward, visited, same⟩ := passed.goesOn rfl
          obtain ⟨moved, run, allowed⟩ := ih onward (by omega)
          refine ⟨moved, ?_, allowed⟩
          simp only [loop, taken]
          rw [run, same]

end Passes

section Totality

variable {v : Volume}

theorem lba_bits {sector : List UInt8} (mounted : Mounted sector v) (sound : Sound v) {total : Nat}
    {t : Transfer} (allowed : Allowed v total t) : t.lba + t.count ≤ 2 ^ 28 := by
  obtain ⟨_, root, entries⟩ := mounted.fields_lt
  have few := mounted.few
  have small := sound.small
  have start : v.dataStart < 2 ^ 26 := by
    rw [mounted.data, Volume.rootSectors, divCeil, sound.sector, sectorSize]
    split_ifs <;> omega
  rcases allowed.1 with ⟨one, holds⟩ | ⟨c, inside, rfl⟩
  · have stop := holds.2
    simp only [tableCopy, FiveAM.Lib.Extents.Extent.stop, Nat.zero_mul, Nat.add_zero] at stop
    have first : v.sectorsPerFat ≤ v.fatCount * v.sectorsPerFat :=
      Nat.le_mul_of_pos_left _ sound.copies
    have before := sound.root
    omega
  · have count : (c - 2) * v.sectorsPerCluster ≤ 65525 * 128 :=
      Nat.mul_le_mul (by have high := inside.2; omega) small
    simp only [Volume.clusterToSector]
    omega

/-- Whatever the table and the directory entry say, on a mounted volume that can be used:
`read_file` returns, after a pass for each of at most `clusters` clusters; it transfers
sectors of the first table and of clusters, all inside the volume, and panics nowhere;
and what it returns is an error or the first `size` bytes of the chain's clusters. -/
theorem read_file_total {present : Bool} {boot : Store} (mounted : mount present boot = .ok v)
    (usable : Usable v (totalSectors (Reading.read boot 0 1))) (disk : Store) (entry : Entry) :
    ∃ result moved,
      (∀ passes, v.clusters + 1 ≤ passes → readFile v disk entry passes = .returns result moved) ∧
      result = v.readFile disk entry ∧
      clusterReads v moved ≤ v.clusters ∧
      (∀ t ∈ moved, Allowed v (totalSectors (Reading.read boot 0 1)) t ∧
        t.lba + t.count ≤ 2 ^ 28) ∧
      ∀ data, result = .ok data → data.length = entry.size ∧
        ∃ cells, Chain (table v disk 0) (Inside v) (fun _ => True) entry.firstCluster cells ∧
          cells.length ≤ v.clusters ∧
          data = (cells.flatMap (clusterData v disk)).take entry.size := by
  have geometry := mounted_of_mount mounted
  have sound := sound_of_usable mounted usable
  by_cases empty : entry.size = 0
  · refine ⟨.ok [], [], fun passes _ => ?_, ?_, Nat.zero_le _, by simp, ?_⟩
    · simp [readFile, empty]
    · rw [Volume.readFile, if_pos empty]
    · rintro data ⟨⟩
      exact ⟨empty.symm, [], trivial, Nat.zero_le _, by simp⟩
  · have going : Going v (totalSectors (Reading.read boot 0 1)) entry.size
        ⟨List.replicate entry.size 0, entry.firstCluster, 0, 0, []⟩ :=
      ⟨List.length_replicate, Nat.pos_of_ne_zero empty, Nat.zero_le _, by simp, rfl⟩
    have same : remaining v disk entry.size
        ⟨List.replicate entry.size 0, entry.firstCluster, 0, 0, []⟩ = v.readFile disk entry := by
      rw [Volume.readFile, if_neg empty]
      rfl
    obtain ⟨moved, run, allowed, reads⟩ :=
      loop_spec sound usable going (Nat.le_add_left _ _)
    rw [same] at run
    refine ⟨v.readFile disk entry, moved, fun passes enough => ?_, rfl, reads,
      fun t member => ⟨allowed t member, lba_bits geometry sound (allowed t member)⟩, ?_⟩
    · obtain ⟨more, rfl⟩ := Nat.exists_eq_add_of_le enough
      rw [readFile, if_neg empty]
      exact loop_longer run more
    · intro data read
      rw [Volume.readFile, if_neg empty] at read
      obtain ⟨cells, chain, few, long, bytes⟩ :=
        readFrom_ok sound (Nat.pos_of_ne_zero empty) read
      refine ⟨?_, cells, ?_, few, by simpa using bytes⟩
      · have all : (cells.flatMap (clusterData v disk)).length = cells.length * v.clusterBytes :=
          flatMap_length chain.live
        simp only [List.length_nil] at bytes long
        rw [bytes, List.nil_append, List.length_take, all]
        omega
      · refine chain.congr fun c member => ?_
        exact (Layout.nextCluster_eq sound (sound.listed (chain.live c member))).symm

/-- A file of 600 bytes that starts at cluster 2, whose table entry is zero. -/
theorem read_file_total_free :
    ∃ result moved, (∀ passes, 4086 ≤ passes →
        readFile longVolume longTable ⟨['A'], 600, 2⟩ passes = .returns result moved) ∧
      result = longVolume.readFile longTable ⟨['A'], 600, 2⟩ ∧
      clusterReads longVolume moved ≤ 4085 := by
  obtain ⟨result, moved, run, same, few, _⟩ :=
    read_file_total longTable_mounted longTable_usable longTable ⟨['A'], 600, 2⟩
  exact ⟨result, moved, run, same, few⟩

end Totality

end FiveAM.Fat.Damaged
