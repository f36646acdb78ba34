/- GID: FiveAM/Process/ElfFiles
   source: kernel/src/elf.rs
   digest: What a program file says: its headers, the pages and the bytes they ask for, and which files can be loaded. -/

import FiveAM.Process.Elf
import Mathlib.Order.Interval.Finset.Nat

set_option autoImplicit false
set_option relaxedAutoImplicit false

namespace FiveAM.Process.ElfFiles

open FiveAM.Memory.Entries (pageSize)
open FiveAM.Lib.Checked FiveAM.Process.Elf

section Fields

/-- The field of `count` bytes at `i`. -/
def field (data : List UInt8) (i count : Nat) : Nat := fromLeBytes ((data.drop i).take count)

def entryPoint (data : List UInt8) : Nat := field data 24 8

def headerOffset (data : List UInt8) : Nat := field data 32 8

def headerSize (data : List UInt8) : Nat := field data 54 2

def headerCount (data : List UInt8) : Nat := field data 56 2

/-- The program header at `place`. -/
def headerAt (data : List UInt8) (place : Nat) : ProgramHeader where
  kind := field data place 4
  flags := field data (place + 4) 4
  offset := field data (place + 8) 8
  virtualAddress := field data (place + 16) 8
  physicalAddress := field data (place + 24) 8
  fileSize := field data (place + 32) 8
  memorySize := field data (place + 40) 8
  align := field data (place + 48) 8

def headers (data : List UInt8) : List ProgramHeader :=
  (List.range (headerCount data)).map fun index =>
    headerAt data (headerOffset data + index * headerSize data)

def Loads (h : ProgramHeader) : Prop := h.kind = ptLoad ∧ h.memorySize ≠ 0

instance decidableLoads (h : ProgramHeader) : Decidable (Loads h) := inferInstanceAs (Decidable (_ ∧ _))

def segments (data : List UInt8) : List ProgramHeader := (headers data).filter fun h => Loads h

end Fields

section Requests

/-- The page with this number meets the memory of a segment. -/
def Meets (h : ProgramHeader) (n : Nat) : Prop :=
  h.virtualAddress / pageSize ≤ n ∧ n ≤ (h.virtualAddress + h.memorySize - 1) / pageSize

instance decidableMeets (h : ProgramHeader) (n : Nat) : Decidable (Meets h n) :=
  inferInstanceAs (Decidable (_ ∧ _))

theorem meets_iff {h : ProgramHeader} (loads : Loads h) (n : Nat) :
    Meets h n ↔ ∃ a, h.virtualAddress ≤ a ∧ a < h.virtualAddress + h.memorySize ∧ a / pageSize = n := by
  have some := loads.2
  unfold Meets pageSize
  constructor
  · rintro ⟨low, high⟩
    refine ⟨max h.virtualAddress (4096 * n), Nat.le_max_left _ _, ?_, ?_⟩
    · omega
    · omega
  · rintro ⟨a, low, high, rfl⟩
    omega

/-- The file has bytes of the segment for this address. -/
def Gives (h : ProgramHeader) (a : Nat) : Prop :=
  h.virtualAddress ≤ a ∧ a < h.virtualAddress + h.fileSize

instance decidableGives (h : ProgramHeader) (a : Nat) : Decidable (Gives h a) :=
  inferInstanceAs (Decidable (_ ∧ _))

/-- The byte that some segments put at an address: the last one that has any counts. -/
def byteFrom (data : List UInt8) (hs : List ProgramHeader) (a : Nat) : BitVec 8 :=
  match (hs.filter fun h => Gives h a).getLast? with
  | some h => (data.getD (h.offset + (a - h.virtualAddress)) 0).toBitVec
  | none => 0

/-- The byte a program file asks for at an address. -/
def fileByte (data : List UInt8) (a : Nat) : BitVec 8 := byteFrom data (segments data) a

/-- The segment whose flags a page ends up with. -/
def lastMeeting (hs : List ProgramHeader) (n : Nat) : Option ProgramHeader :=
  (hs.filter fun h => Meets h n).getLast?

def Writes (h : ProgramHeader) : Prop := h.flags &&& pfW ≠ 0

def Runs (h : ProgramHeader) : Prop := h.flags &&& pfX ≠ 0

instance decidableWrites (h : ProgramHeader) : Decidable (Writes h) := inferInstanceAs (Decidable (_ ≠ _))

instance decidableRuns (h : ProgramHeader) : Decidable (Runs h) := inferInstanceAs (Decidable (_ ≠ _))

structure Valid (data : List UInt8) (h : ProgramHeader) : Prop where
  larger : h.fileSize ≤ h.memorySize
  small : h.offset + h.fileSize < 2 ^ 64
  inside : h.offset + h.fileSize ≤ data.length
  below : h.virtualAddress + h.memorySize ≤ userAddressLimit

def pageCount (h : ProgramHeader) : Nat :=
  (h.virtualAddress + h.memorySize - 1) / pageSize + 1 - h.virtualAddress / pageSize

/-- The frames a file needs at most: every page one, and as many tables again for each level. -/
def framesNeeded (data : List UInt8) : Nat := 4 * ((segments data).map pageCount).sum

/-- The table of program headers is where it can be. -/
structure Tabled (data : List UInt8) : Prop where
  long : 64 ≤ data.length
  ident : data.take 4 = magic
  wide : data[4]? = some class64
  order : data[5]? = some littleEndian
  kind : field data 16 2 = typeExecutable
  machine : field data 18 2 = machineX86
  size : programHeaderSize ≤ headerSize data
  small : headerOffset data + headerSize data * headerCount data < 2 ^ 64
  inside : headerOffset data + headerSize data * headerCount data ≤ data.length

/-- The files the loader takes when there is memory. -/
structure Accepted (data : List UInt8) : Prop where
  tabled : Tabled data
  valid : ∀ h ∈ segments data, Valid data h
  some : segments data ≠ []
  entry : ∃ h ∈ segments data, Meets h (entryPoint data / pageSize)

theorem Valid.pages_below {data : List UInt8} {h : ProgramHeader} (valid : Valid data h)
    (loads : Loads h) {n : Nat} (meets : Meets h n) : n < 2 ^ 19 := by
  have some := loads.2
  have below := valid.below
  unfold Meets pageSize at meets
  unfold userAddressLimit at below
  omega

theorem mem_segments {data : List UInt8} {h : ProgramHeader} :
    h ∈ segments data ↔ h ∈ headers data ∧ Loads h := by
  unfold segments
  rw [List.mem_filter, decide_eq_true_iff]

theorem valid_iff {data : List UInt8} {h : ProgramHeader} : Valid data h ↔
    h.fileSize ≤ h.memorySize ∧ h.offset + h.fileSize < 2 ^ 64 ∧
      h.offset + h.fileSize ≤ data.length ∧ h.virtualAddress + h.memorySize ≤ userAddressLimit := by
  constructor
  · intro valid
    exact ⟨valid.larger, valid.small, valid.inside, valid.below⟩
  · rintro ⟨larger, small, inside, below⟩
    exact ⟨larger, small, inside, below⟩

theorem tabled_iff {data : List UInt8} : Tabled data ↔
    64 ≤ data.length ∧ data.take 4 = magic ∧ data[4]? = some class64 ∧ data[5]? = some littleEndian ∧
      field data 16 2 = typeExecutable ∧ field data 18 2 = machineX86 ∧
      programHeaderSize ≤ headerSize data ∧
      headerOffset data + headerSize data * headerCount data < 2 ^ 64 ∧
      headerOffset data + headerSize data * headerCount data ≤ data.length := by
  constructor
  · intro tabled
    exact ⟨tabled.long, tabled.ident, tabled.wide, tabled.order, tabled.kind, tabled.machine,
      tabled.size, tabled.small, tabled.inside⟩
  · rintro ⟨long, ident, wide, order, kind, machine, size, small, inside⟩
    exact ⟨long, ident, wide, order, kind, machine, size, small, inside⟩

instance decidableValid (data : List UInt8) (h : ProgramHeader) : Decidable (Valid data h) :=
  decidable_of_iff _ valid_iff.symm

instance decidableTabled (data : List UInt8) : Decidable (Tabled data) :=
  decidable_of_iff _ tabled_iff.symm

theorem accepted_iff {data : List UInt8} : Accepted data ↔
    Tabled data ∧ (∀ h ∈ segments data, Valid data h) ∧
      ∃ h ∈ segments data, Meets h (entryPoint data / pageSize) := by
  constructor
  · intro accepted
    exact ⟨accepted.tabled, accepted.valid, accepted.entry⟩
  · rintro ⟨tabled, valid, h, member, meets⟩
    exact ⟨tabled, valid, List.ne_nil_of_mem member, h, member, meets⟩

instance decidableAccepted (data : List UInt8) : Decidable (Accepted data) :=
  decidable_of_iff _ accepted_iff.symm

/-- The segments the first pass gets to the pages of: those before the first that is not valid. -/
def tried (data : List UInt8) : List ProgramHeader :=
  (segments data).takeWhile fun h => Valid data h

def framesTried (data : List UInt8) : Nat := 4 * ((tried data).map pageCount).sum

def pagesOf (hs : List ProgramHeader) : Finset Nat :=
  hs.toFinset.biUnion fun h =>
    Finset.Icc (h.virtualAddress / pageSize) ((h.virtualAddress + h.memorySize - 1) / pageSize)

theorem mem_pagesOf {hs : List ProgramHeader} {n : Nat} :
    n ∈ pagesOf hs ↔ ∃ h ∈ hs, Meets h n := by
  simp only [pagesOf, Finset.mem_biUnion, List.mem_toFinset, Finset.mem_Icc, Meets]

/-- How many pages the loader puts on its list when nothing is refused. -/
def pagesTried (data : List UInt8) : Nat := if Tabled data then (pagesOf (tried data)).card else 0

/-- The kernel heap grants all that the list of pages needs. -/
def Roomy (grants : Nat → Bool) (data : List UInt8) : Prop :=
  ∀ count < pagesTried data, grants count = true

instance decidableRoomy (grants : Nat → Bool) (data : List UInt8) : Decidable (Roomy grants data) :=
  inferInstanceAs (Decidable (∀ count < pagesTried data, _))

end Requests

section Reading

variable {data : List UInt8} {i place : Nat}

private theorem mapM_some {α β : Type} {f : α → Option β} {g : α → β} {xs : List α}
    (found : ∀ x ∈ xs, f x = some (g x)) : xs.mapM f = some (xs.map g) := by
  induction xs with
  | nil => rfl
  | cons x xs ih =>
      have rest := ih fun y member => found y (List.mem_cons_of_mem x member)
      simp [List.mapM_cons, found x List.mem_cons_self, rest]

theorem bytesAt_eq {count : Nat} (inside : i + count ≤ data.length) (small : i + count < 2 ^ 64) :
    bytesAt data i count = some ((data.drop i).take count) := by
  have each : ∀ k ∈ List.range count,
      ((fit 64 (i + k)).bind fun j => data[j]?) = some (data.getD (i + k) 0) := by
    intro k member
    have bound := List.mem_range.mp member
    rw [fit_eq (by omega), Option.bind_some, List.getElem?_eq_getElem (by omega),
      List.getD_eq_getElem?_getD, List.getElem?_eq_getElem (by omega), Option.getD_some]
  rw [bytesAt, mapM_some each]
  congr 1
  refine List.ext_getElem ?_ fun k left right => ?_
  · rw [List.length_map, List.length_range, List.length_take, List.length_drop]
    omega
  · rw [List.length_map, List.length_range] at left
    rw [List.getElem_map, List.getElem_range, List.getElem_take, List.getElem_drop,
      List.getD_eq_getElem?_getD, List.getElem?_eq_getElem (by omega), Option.getD_some]

theorem readU16_eq (inside : i + 2 ≤ data.length) (small : i + 2 < 2 ^ 64) :
    readU16 data i = some (field data i 2) := by
  rw [readU16, bytesAt_eq inside small]
  rfl

theorem readU32_eq (inside : i + 4 ≤ data.length) (small : i + 4 < 2 ^ 64) :
    readU32 data i = some (field data i 4) := by
  rw [readU32, bytesAt_eq inside small]
  rfl

theorem readU64_eq (inside : i + 8 ≤ data.length) (small : i + 8 < 2 ^ 64) :
    readU64 data i = some (field data i 8) := by
  have length : ((data.drop i).take 8) = (data.take (i + 8)).drop i := by
    rw [List.take_drop]
  rw [readU64, fit_eq small, Option.bind_some, part_eq (by omega) inside, Option.map_some, field,
    length]

theorem fieldU32_eq {n : Nat} (inside : place + n + 4 ≤ data.length)
    (small : place + n + 4 < 2 ^ 64) : fieldU32 data place n = some (field data (place + n) 4) := by
  rw [fieldU32, fit_eq (by omega), Option.bind_some, readU32_eq inside small]

theorem fieldU64_eq {n : Nat} (inside : place + n + 8 ≤ data.length)
    (small : place + n + 8 < 2 ^ 64) : fieldU64 data place n = some (field data (place + n) 8) := by
  rw [fieldU64, fit_eq (by omega), Option.bind_some, readU64_eq inside small]

theorem readHeader_eq (inside : place + 56 ≤ data.length) (small : place + 56 < 2 ^ 64) :
    readHeader data place = some (headerAt data place) := by
  unfold readHeader
  rw [readU32_eq (by omega) (by omega), fieldU32_eq (by omega) (by omega),
    fieldU64_eq (by omega) (by omega), fieldU64_eq (by omega) (by omega),
    fieldU64_eq (by omega) (by omega), fieldU64_eq (by omega) (by omega),
    fieldU64_eq (by omega) (by omega), fieldU64_eq (by omega) (by omega)]
  rfl

theorem field_lt (data : List UInt8) (i count : Nat) : field data i count < 2 ^ (8 * count) := by
  unfold field
  generalize taken : (data.drop i).take count = bytes
  have short : bytes.length ≤ count := by
    rw [← taken]
    exact List.length_take_le _ _
  refine lt_of_lt_of_le (?_ : fromLeBytes bytes < 2 ^ (8 * bytes.length))
    (Nat.pow_le_pow_right (by decide) (by omega))
  clear taken short
  induction bytes with
  | nil => exact Nat.one_pos
  | cons b rest ih =>
      have byte := b.toNat_lt
      unfold fromLeBytes at ih ⊢
      rw [List.foldr_cons, List.length_cons, Nat.mul_add, pow_add]
      omega

theorem Tabled.header (tabled : Tabled data) {index : Nat} (inside : index < headerCount data) :
    headerPlace (headerOffset data) (headerSize data) index =
        some (headerOffset data + index * headerSize data) ∧
      headerOffset data + index * headerSize data + 56 ≤ data.length ∧
      headerOffset data + index * headerSize data + 56 < 2 ^ 64 := by
  have size := tabled.size
  have small := tabled.small
  have whole := tabled.inside
  unfold programHeaderSize at size
  have product : (index + 1) * headerSize data ≤ headerSize data * headerCount data := by
    rw [Nat.mul_comm (headerSize data)]
    exact Nat.mul_le_mul_right _ inside
  rw [Nat.add_mul, Nat.one_mul] at product
  refine ⟨?_, by omega, by omega⟩
  rw [headerPlace, fit_eq (by omega), Option.bind_some, fit_eq (by omega)]

end Reading

section Writing

/-- The `count` bytes of a number, the lowest first. -/
def leBytes (count n : Nat) : List UInt8 :=
  (List.range count).map fun k => UInt8.ofNat (n / 2 ^ (8 * k))

def headerBytes (h : ProgramHeader) : List UInt8 :=
  leBytes 4 h.kind ++ leBytes 4 h.flags ++ leBytes 8 h.offset ++ leBytes 8 h.virtualAddress ++
    leBytes 8 h.physicalAddress ++ leBytes 8 h.fileSize ++ leBytes 8 h.memorySize ++ leBytes 8 h.align

/-- A program file with these headers right after the ELF header. -/
def fileOf (entry : Nat) (hs : List ProgramHeader) : List UInt8 :=
  magic ++ [class64, littleEndian] ++ List.replicate 10 0 ++ leBytes 2 typeExecutable ++
    leBytes 2 machineX86 ++ leBytes 4 1 ++ leBytes 8 entry ++ leBytes 8 64 ++ List.replicate 14 0 ++
    leBytes 2 programHeaderSize ++ leBytes 2 hs.length ++ List.replicate 6 0 ++
    hs.flatMap headerBytes

end Writing

end FiveAM.Process.ElfFiles
