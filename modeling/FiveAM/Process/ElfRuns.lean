/- GID: FiveAM/Process/ElfRuns
   source: kernel/src/elf.rs
   digest: How a run of the loader ends, from what one segment does in either pass. -/

import FiveAM.Process.ElfFiles
import FiveAM.Process.FrameMemory
import Mathlib.Algebra.Order.BigOperators.Group.List

set_option autoImplicit false
set_option relaxedAutoImplicit false

namespace FiveAM.Process.ElfRuns

open FiveAM.Process.TaskTable (Word)
open FiveAM.Memory.Entries (pageSize pageOf)
open FiveAM.Memory.PageTables (translate)
open FiveAM.Lib.Checked FiveAM.Lib.Programs FiveAM.Lib.Programs.Program
open FiveAM.Process.Elf FiveAM.Process.ElfFiles FiveAM.Process.FrameMemory

variable {setting : Setting} {data : List UInt8} {t : Loading}

private theorem isSome_of_not_isNone {α : Type} {o : Option α} (there : ¬o.isNone = true) :
    o.isSome = true := by
  cases o with
  | none => exact absurd rfl there
  | some _ => rfl

theorem pageOf_ofNat {a : Nat} (small : a < 2 ^ 64) :
    pageOf (BitVec.ofNat 64 a) = BitVec.ofNat 64 (a / pageSize * pageSize) := by
  apply BitVec.eq_of_toNat_eq
  have low := toNat_and_not_low (BitVec.ofNat 64 a) 12
  rw [BitVec.toNat_ofNat, Nat.mod_eq_of_lt small] at low
  rw [BitVec.toNat_ofNat, Nat.mod_eq_of_lt (lt_of_le_of_lt (Nat.div_mul_le_self a pageSize) small)]
  exact low

def pageWord (n : Nat) : Word := BitVec.ofNat 64 (n * pageSize)

theorem pageWord_toNat {n : Nat} (below : n < 2 ^ 19) : (pageWord n).toNat = n * pageSize := by
  unfold pageWord pageSize
  rw [BitVec.toNat_ofNat]
  omega

/-- Enough passes for every loop over user pages, and at least one attempt at a store. -/
structure Patient (setting : Setting) : Prop where
  passes : 2 ^ 19 < setting.passes
  attempts : 0 < setting.attempts

theorem eachPage_ends {β : Type} {body : Word → β → Program Loading β} {b : β} {first last : Nat}
    {post : Post Loading β} (patient : Patient setting) (order : first ≤ last)
    (below : last < userAddressLimit) (invariant : Nat → β → Loading → Prop)
    (start : invariant (first / pageSize) b t)
    (step : ∀ n b t, first / pageSize ≤ n → n ≤ last / pageSize → invariant n b t →
      Ends (body (pageWord n) b) t (post.onValue (invariant (n + 1))))
    (finish : ∀ b t, invariant (last / pageSize + 1) b t → post.ok b t) :
    Ends (eachPage setting (pageOf (BitVec.ofNat 64 last)) body (pageOf (BitVec.ofNat 64 first)) b) t
      post := by
  have passes := patient.passes
  unfold userAddressLimit at below
  rw [pageOf_ofNat (show last < 2 ^ 64 by omega), pageOf_ofNat (show first < 2 ^ 64 by omega)]
  have pages : last / pageSize < 2 ^ 19 := by
    unfold pageSize
    omega
  have pages' : first / pageSize ≤ last / pageSize := Nat.div_le_div_right order
  have last' : BitVec.ofNat 64 (last / pageSize * pageSize) = pageWord (last / pageSize) := rfl
  have first' : BitVec.ofNat 64 (first / pageSize * pageSize) = pageWord (first / pageSize) := rfl
  rw [last', first']
  generalize first / pageSize = low at *
  generalize last / pageSize = high at *
  unfold eachPage
  refine .bind (.loop (fun rounds reached t =>
    reached.1 = pageWord (low + rounds) ∧ invariant (low + rounds) reached.2 t)
    (high + 1 - low) (by omega) ⟨rfl, start⟩ ?_ ?_ ?_)
  · rintro rounds reached t within ⟨place, -⟩
    have number : (pageWord (low + rounds)).toNat = (low + rounds) * pageSize := by
      unfold pageWord pageSize
      rw [BitVec.toNat_ofNat]
      omega
    rw [decide_eq_true_iff, place, BitVec.le_def, pageWord_toNat pages, number]
    unfold pageSize
    omega
  · rintro rounds ⟨page, b⟩ t within ⟨place, holds⟩
    obtain rfl : page = pageWord (low + rounds) := place
    have number : low + rounds < 2 ^ 19 := by omega
    refine .bind ((step _ b t (Nat.le_add_right _ _) (by omega) holds).value fun b' t' holds' => ?_)
    have next : (pageWord (low + rounds)).toNat + pageSize = (low + (rounds + 1)) * pageSize := by
      rw [pageWord_toNat number, ← Nat.add_assoc, Nat.add_mul _ 1, Nat.one_mul]
    rw [next]
    refine .bind (.check (fit_eq ?_) (.pure ⟨rfl, holds'⟩))
    unfold pageSize
    omega
  · rintro ⟨page, b⟩ t ⟨-, holds⟩
    refine .pure (finish b t ?_)
    have total : low + (high + 1 - low) = high + 1 := by omega
    rwa [total] at holds

/-- What the second pass does with a header it has read. -/
def sealPages (setting : Setting) (h : ProgramHeader) : Program Loading Unit :=
  if h.kind ≠ ptLoad ∨ h.memorySize = 0 then return ()
  else do
    let memoryEnd ← check (fit 64 (h.virtualAddress + h.memorySize))
    let lastByte ← check (minus memoryEnd 1)
    eachPage setting (pageOf (BitVec.ofNat 64 lastByte))
      (fun page _ => setFlags page (pageFlags setting.noExecuteActive h.flags))
      (pageOf (BitVec.ofNat 64 h.virtualAddress)) ()

theorem sealSegment_ends {post : Post Loading Unit} {place : Nat} (inside : place + 56 ≤ data.length)
    (small : place + 56 < 2 ^ 64) (ends : Ends (sealPages setting (headerAt data place)) t post) :
    Ends (sealSegment setting data place) t post := by
  unfold sealSegment
  refine .bind (.check (readU32_eq (by omega) (by omega)) ?_)
  refine .bind (.check (fieldU32_eq (by omega) (by omega)) ?_)
  refine .bind (.check (fieldU64_eq (by omega) (by omega)) ?_)
  refine .bind (.check (fieldU64_eq (by omega) (by omega)) ?_)
  exact ends

def source (data : List UInt8) (h : ProgramHeader) : List UInt8 :=
  (data.take (h.offset + h.fileSize)).drop h.offset

theorem source_length {h : ProgramHeader} (valid : Valid data h) :
    (source data h).length = h.fileSize := by
  have inside := valid.inside
  rw [source, List.length_drop, List.length_take]
  omega

def pageAfter (h : ProgramHeader) : Nat := (h.virtualAddress + h.memorySize - 1) / pageSize + 1

theorem loadSegment_ends {h : ProgramHeader} {progress : Progress} {post : Post Loading Progress}
    (patient : Patient setting) (backed : Nat → Progress → Loading → Prop)
    (copied : Progress → Loading → Prop) (skip : ¬Loads h → post.ok progress t)
    (refused : Loads h → ¬Valid data h → ∀ text, post.error text t)
    (start : Loads h → Valid data h → backed (h.virtualAddress / pageSize) progress t)
    (page : Loads h → Valid data h → ∀ n progress t, Meets h n → backed n progress t →
      Ends (backPage setting (pageWord n) progress) t (post.onValue (backed (n + 1))))
    (copy : Loads h → Valid data h → ∀ progress t, backed (pageAfter h) progress t →
      Ends (copyIn setting (source data h) (BitVec.ofNat 64 h.virtualAddress)) t
        (post.onValue fun _ => copied progress))
    (finish : Loads h → ∀ progress t, copied progress t → progress.segments + 1 < 2 ^ 64 ∧
      post.ok { progress with segments := progress.segments + 1 } t) :
    Ends (loadSegment setting data h progress) t post := by
  unfold loadSegment
  by_cases loads : Loads h
  swap
  · rw [if_pos (by simpa only [Loads, not_and_or, not_not] using loads)]
    exact .pure (skip loads)
  rw [if_neg (not_or.mpr ⟨not_not.mpr loads.1, loads.2⟩)]
  have refused := refused loads
  refine .bind (.refuseIf (fun short => refused (fun valid => ?_) _) fun larger => ?_)
  · exact absurd valid.larger (Nat.not_le.mpr short)
  refine .bind (.demand (fun fileEnd found => ?_) fun overflow => refused (fun valid => ?_) _)
  swap
  · exact absurd (overflow.symm.trans (fit_eq valid.small)) (by simp)
  have small : h.offset + h.fileSize < 2 ^ 64 ∧ fileEnd = h.offset + h.fileSize := by
    unfold fit at found
    split_ifs at found with below
    exact ⟨below, (Option.some.inj found).symm⟩
  obtain ⟨small, rfl⟩ := small
  refine .bind (.refuseIf (fun past => refused (fun valid => ?_) _) fun inside => ?_)
  · exact absurd valid.inside (Nat.not_le.mpr past)
  refine .bind (.demand (fun memoryEnd found => ?_) fun overflow => refused (fun valid => ?_) _)
  swap
  · have below := valid.below
    unfold userAddressLimit at below
    exact absurd (overflow.symm.trans (fit_eq (show h.virtualAddress + h.memorySize < 2 ^ 64
      by omega))) (by simp)
  obtain rfl : memoryEnd = h.virtualAddress + h.memorySize := by
    unfold fit at found
    split_ifs at found
    exact (Option.some.inj found).symm
  refine .bind (.refuseIf (fun past => refused (fun valid => ?_) _) fun below => ?_)
  · exact absurd valid.below (Nat.not_le.mpr past)
  have valid : Valid data h :=
    ⟨Nat.not_lt.mp larger, small, Nat.not_lt.mp inside, Nat.not_lt.mp below⟩
  have some := loads.2
  have below := valid.below
  refine .bind (.check (minus_eq (show 1 ≤ h.virtualAddress + h.memorySize by omega)) ?_)
  refine .bind (eachPage_ends patient (by omega) (by omega) backed (start loads valid)
    (fun n progress t low high => page loads valid n progress t ⟨low, high⟩)
    fun progress t there => ?_)
  have whole : Ends (copySegment setting data h (h.offset + h.fileSize)) t
      (post.onValue fun _ => copied progress) := by
    have copy := copy loads valid progress t there
    unfold copySegment
    split_ifs with bytes
    · exact .bind (.check (part_eq (Nat.le_add_right _ _) valid.inside) copy)
    · have none : source data h = [] := by
        rw [← List.length_eq_zero_iff, source_length valid]
        omega
      rw [none] at copy
      exact copy
  refine .bind (whole.value fun _ t done => ?_)
  obtain ⟨room, ok⟩ := finish loads progress t done
  exact .bind (.check (fit_eq room) (.pure ok))

theorem sealPages_ends {h : ProgramHeader} {post : Post Loading Unit} (patient : Patient setting)
    (resealed : Nat → Loading → Prop) (skip : ¬Loads h → post.ok () t)
    (below : Loads h → h.virtualAddress + h.memorySize ≤ userAddressLimit)
    (start : Loads h → resealed (h.virtualAddress / pageSize) t)
    (page : Loads h → ∀ n t, Meets h n → resealed n t →
      Ends (setFlags (pageWord n) (pageFlags setting.noExecuteActive h.flags)) t
        (post.onValue fun _ => resealed (n + 1)))
    (finish : Loads h → ∀ t, resealed (pageAfter h) t → post.ok () t) :
    Ends (sealPages setting h) t post := by
  unfold sealPages
  by_cases loads : Loads h
  swap
  · rw [if_pos (by simpa only [Loads, not_and_or, not_not] using loads)]
    exact .pure (skip loads)
  rw [if_neg (not_or.mpr ⟨not_not.mpr loads.1, loads.2⟩)]
  have below := below loads
  have some := loads.2
  have limit : userAddressLimit < 2 ^ 64 := by decide
  refine .bind (.check (fit_eq (by omega)) ?_)
  refine .bind (.check (minus_eq (show 1 ≤ h.virtualAddress + h.memorySize by omega)) ?_)
  exact eachPage_ends patient (by omega) (by omega) (fun n _ => resealed n) (start loads)
    (fun n _ t low high => page loads n t ⟨low, high⟩) fun _ t => finish loads t

section Counting

/-- The headers among some that are not skipped. -/
def loaded (hs : List ProgramHeader) : List ProgramHeader := hs.filter fun h => Loads h

/-- How many pages they meet, each counted for itself. -/
def pages (hs : List ProgramHeader) : Nat := ((loaded hs).map pageCount).sum

/-- The counters of the first pass after some headers and `more` pages of the next. -/
structure Counts (data : List UInt8) (hs : List ProgramHeader) (more : Nat) (progress : Progress) :
    Prop where
  valid : ∀ h ∈ loaded hs, Valid data h
  segments : progress.segments = (loaded hs).length
  zeroed : progress.bytesZeroed ≤ pageSize * (pages hs + more)

theorem loaded_append (hs : List ProgramHeader) (h : ProgramHeader) :
    loaded (hs ++ [h]) = if Loads h then loaded hs ++ [h] else loaded hs := by
  unfold loaded
  rw [List.filter_append]
  split_ifs with loads
  · rw [List.filter_cons_of_pos (by simpa using loads)]
    rfl
  · rw [List.filter_cons_of_neg (by simpa using loads), List.filter_nil, List.append_nil]

theorem pages_append (hs : List ProgramHeader) (h : ProgramHeader) :
    pages (hs ++ [h]) = pages hs + if Loads h then pageCount h else 0 := by
  unfold pages
  rw [loaded_append]
  split_ifs
  · rw [List.map_append, List.sum_append, List.map_singleton, List.sum_singleton]
  · rfl

theorem mem_loaded {hs : List ProgramHeader} {h : ProgramHeader} :
    h ∈ loaded hs ↔ h ∈ hs ∧ Loads h := by
  unfold loaded
  rw [List.mem_filter, decide_eq_true_iff]

namespace Counts

variable {hs after : List ProgramHeader} {h : ProgramHeader} {more : Nat} {progress : Progress}

theorem start : Counts data [] 0 ⟨0, 0, []⟩ := ⟨by simp [loaded], rfl, Nat.zero_le _⟩

theorem skip (counts : Counts data hs 0 progress) (skipped : ¬Loads h) :
    Counts data (hs ++ [h]) 0 progress := by
  obtain ⟨valid, segments, zeroed⟩ := counts
  have same : loaded (hs ++ [h]) = loaded hs := (loaded_append hs h).trans (if_neg skipped)
  have total : pages (hs ++ [h]) = pages hs := by rw [pages_append, if_neg skipped, Nat.add_zero]
  exact ⟨by rwa [same], by rwa [same], by rwa [total]⟩

theorem pass (counts : Counts data hs more progress) : Counts data hs (more + 1) progress :=
  ⟨counts.valid, counts.segments, counts.zeroed.trans (Nat.mul_le_mul_left _ (by omega))⟩

theorem zero (counts : Counts data hs more progress) (pages : List Word) :
    Counts data hs (more + 1)
      { progress with bytesZeroed := progress.bytesZeroed + pageSize, pages := pages } := by
  refine ⟨counts.valid, counts.segments, ?_⟩
  have zeroed := counts.zeroed
  rw [← Nat.add_assoc, Nat.mul_add _ _ 1, Nat.mul_one]
  exact Nat.add_le_add_right zeroed _

theorem finish (counts : Counts data hs (pageCount h) progress) (loads : Loads h)
    (valid : Valid data h) :
    Counts data (hs ++ [h]) 0 { progress with segments := progress.segments + 1 } := by
  have same : loaded (hs ++ [h]) = loaded hs ++ [h] := (loaded_append hs h).trans (if_pos loads)
  refine ⟨fun h' member => ?_, ?_, ?_⟩
  · rw [same] at member
    rcases List.mem_append.mp member with old | new
    · exact counts.valid h' old
    · rw [List.mem_singleton.mp new]
      exact valid
  · rw [same, List.length_append, List.length_singleton, ← counts.segments]
  · rw [pages_append, if_pos loads, Nat.add_zero]
    exact counts.zeroed

theorem small (counts : Counts data hs more progress) (split : headers data = hs ++ h :: after)
    (few : more ≤ 2 ^ 19) :
    progress.bytesZeroed + pageSize < 2 ^ 64 ∧ progress.segments + 1 < 2 ^ 64 := by
  have count : headerCount data < 2 ^ 16 := field_lt data 56 2
  have length : (headers data).length = headerCount data := by
    rw [headers, List.length_map, List.length_range]
  rw [split, List.length_append] at length
  have fewer : (loaded hs).length ≤ hs.length := List.length_filter_le _ _
  have each : ∀ n ∈ (loaded hs).map pageCount, n ≤ 2 ^ 19 := by
    intro n member
    obtain ⟨h', inside, rfl⟩ := List.mem_map.mp member
    have below := (counts.valid h' inside).below
    unfold pageCount pageSize
    unfold userAddressLimit at below
    omega
  have total : pages hs ≤ (loaded hs).length * 2 ^ 19 := by
    have sum := List.sum_le_card_nsmul _ _ each
    rwa [List.length_map, smul_eq_mul] at sum
  have zeroed := counts.zeroed
  have segments := counts.segments
  unfold pageSize at *
  omega

end Counts

end Counting

private theorem headers_loop {β : Type} {body : β → Nat → Program Loading β} {b : β}
    {post : Post Loading β}
    (invariant : List ProgramHeader → β → Loading → Prop) (first : invariant [] b t)
    (step : ∀ before h after b t index, headers data = before ++ h :: after →
      index < headerCount data → h = headerAt data (headerOffset data + index * headerSize data) →
      invariant before b t → Ends (body b index) t (post.onValue (invariant (before ++ [h]))))
    (last : ∀ b t, invariant (headers data) b t → post.ok b t) :
    Ends (forEach body (List.range (headerCount data)) b) t post := by
  have read : headers data = (List.range (headerCount data)).map fun index =>
      headerAt data (headerOffset data + index * headerSize data) := rfl
  refine .forEach (fun done b t => invariant (done.map fun index =>
    headerAt data (headerOffset data + index * headerSize data)) b t) first ?_ last
  intro before index after b t split holds
  have inside : index < headerCount data := by
    rw [← List.mem_range, split]
    simp
  refine (step _ _ (after.map fun index =>
    headerAt data (headerOffset data + index * headerSize data)) b t index ?_ inside rfl
    holds).value fun b' t' holds' => ?_
  · rw [read, split, List.map_append, List.map_cons]
  · rw [List.map_append]
    exact holds'

theorem load_ends {post : Post Loading Loaded}
    (loading : List ProgramHeader → Progress → Loading → Prop)
    (sealing : List ProgramHeader → Progress → Loading → Prop)
    (refused : ¬Tabled data → ∀ text, post.error text t) (start : loading [] ⟨0, 0, []⟩ t)
    (load : Tabled data → ∀ before h after progress t, headers data = before ++ h :: after →
      loading before progress t →
        Ends (loadSegment setting data h progress) t (post.onValue (loading (before ++ [h]))))
    (empty : Tabled data → ∀ progress t, loading (headers data) progress t →
      progress.segments = 0 → ∀ text, post.error text t)
    (turn : Tabled data → ∀ progress t, loading (headers data) progress t →
      progress.segments ≠ 0 → sealing [] progress t)
    (reseal : Tabled data → ∀ before h after progress t, headers data = before ++ h :: after →
      sealing before progress t →
        Ends (sealPages setting h) t (post.onValue fun _ => sealing (before ++ [h]) progress))
    (lost : Tabled data → ∀ progress t, sealing (headers data) progress t →
      userAddressLimit < entryPoint data ∨
        (translate t.paging (BitVec.ofNat 64 (entryPoint data))).isNone = true →
      ∀ text, post.error text t)
    (done : Tabled data → ∀ progress t, sealing (headers data) progress t →
      entryPoint data ≤ userAddressLimit →
      (translate t.paging (BitVec.ofNat 64 (entryPoint data))).isSome = true →
      post.ok ⟨entryPoint data, progress.segments, progress.bytesZeroed, progress.pages⟩ t) :
    Ends (Elf.load setting data) t post := by
  unfold Elf.load
  refine .bind (.refuseIf (fun short => refused (fun tabled => ?_) _) fun long => ?_)
  · exact absurd tabled.long (Nat.not_le.mpr short)
  have long := Nat.not_lt.mp long
  refine .bind (.check (part_eq (Nat.zero_le 4) (by omega)) ?_)
  rw [List.drop_zero]
  refine .bind (.refuseIf (fun bad => refused (fun tabled => bad tabled.ident) _) fun ident => ?_)
  refine .bind (.check (List.getElem?_eq_getElem (show 4 < data.length by omega)) ?_)
  have byte : ∀ i (inside : i < data.length), data[i]? = some data[i] := fun i inside =>
    List.getElem?_eq_getElem inside
  refine .bind (.refuseIf (fun bad => refused (fun tabled => bad ?_) _) fun wide => ?_)
  · exact Option.some.inj ((byte 4 (by omega)).symm.trans tabled.wide)
  refine .bind (.check (List.getElem?_eq_getElem (show 5 < data.length by omega)) ?_)
  refine .bind (.refuseIf (fun bad => refused (fun tabled => bad ?_) _) fun order => ?_)
  · exact Option.some.inj ((byte 5 (by omega)).symm.trans tabled.order)
  refine .bind (.check (readU16_eq (by omega) (by decide)) ?_)
  refine .bind (.refuseIf (fun bad => refused (fun tabled => bad tabled.kind) _) fun kind => ?_)
  refine .bind (.check (readU16_eq (by omega) (by decide)) ?_)
  refine .bind (.refuseIf (fun bad => refused (fun tabled => bad tabled.machine) _) fun machine => ?_)
  refine .bind (.check (readU64_eq (by omega) (by decide)) ?_)
  refine .bind (.check (readU64_eq (by omega) (by decide)) ?_)
  refine .bind (.check (readU16_eq (by omega) (by decide)) ?_)
  refine .bind (.check (readU16_eq (by omega) (by decide)) ?_)
  refine .bind (.refuseIf (fun bad => refused (fun tabled => ?_) _) fun size => ?_)
  · exact absurd tabled.size (Nat.not_le.mpr bad)
  have product : headerSize data * headerCount data < 2 ^ 64 := by
    have size_lt := field_lt data 54 2
    have count_lt := field_lt data 56 2
    have most : headerSize data * headerCount data ≤ 2 ^ 16 * 2 ^ 16 :=
      Nat.mul_le_mul (Nat.le_of_lt size_lt) (Nat.le_of_lt count_lt)
    omega
  refine .bind (.check (fit_eq product) ?_)
  refine .bind (.demand (fun tableEnd found => ?_) fun overflow => refused (fun tabled => ?_) _)
  swap
  · have fits := fit_eq tabled.small
    exact absurd (overflow.symm.trans fits) (by simp)
  have small : headerOffset data + headerSize data * headerCount data < 2 ^ 64 ∧
      tableEnd = headerOffset data + headerSize data * headerCount data := by
    unfold fit at found
    split_ifs at found with below
    exact ⟨below, (Option.some.inj found).symm⟩
  obtain ⟨small, rfl⟩ := small
  refine .bind (.refuseIf (fun past => refused (fun tabled => ?_) _) fun inside => ?_)
  · exact absurd tabled.inside (Nat.not_le.mpr past)
  have tabled : Tabled data := ⟨long, not_not.mp ident,
    (byte 4 (by omega)).trans (congrArg some (not_not.mp wide)),
    (byte 5 (by omega)).trans (congrArg some (not_not.mp order)), not_not.mp kind, not_not.mp machine,
    Nat.not_lt.mp size, small, Nat.not_lt.mp inside⟩
  refine .bind (headers_loop loading start ?_ fun progress t loaded => ?_)
  · intro before h after progress t index split within same holds
    obtain ⟨place, inside, small⟩ := tabled.header within
    refine .bind (.check place ?_)
    refine .bind (.check (readHeader_eq inside small) ?_)
    rw [← same]
    exact load tabled before h after progress t split holds
  refine .bind (.refuseIf (fun zero => empty tabled progress t loaded zero _) fun some => ?_)
  refine .bind (headers_loop (fun before _ t => sealing before progress t)
    (turn tabled progress t loaded some) ?_ fun _ t sealed => ?_)
  · intro before h after _ t index split within same holds
    obtain ⟨place, inside, small⟩ := tabled.header within
    refine .bind (.check place ?_)
    refine sealSegment_ends inside small ?_
    rw [← same]
    exact reseal tabled before h after progress t split holds
  refine .bindState ?_
  refine .bind (.refuseIf (fun outside => lost tabled progress t sealed outside _) fun found => ?_)
  obtain ⟨low, there⟩ := not_or.mp found
  exact .pure (done tabled progress t sealed (Nat.not_lt.mp low) (isSome_of_not_isNone there))

end FiveAM.Process.ElfRuns
