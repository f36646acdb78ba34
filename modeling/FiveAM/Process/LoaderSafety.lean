/- GID: FiveAM/Process/LoaderSafety
   source: kernel/src/elf.rs
   digest: The loader touches no address outside userspace, and when it returns for every number of frames. -/

import FiveAM.Heap.HoleList
import FiveAM.Process.LoadedFile

set_option autoImplicit false
set_option relaxedAutoImplicit false

namespace FiveAM.Process.LoaderSafety

open FiveAM.Process.TaskTable (Word)
open FiveAM.Memory.Entries FiveAM.Memory.Frames FiveAM.Memory.PageTables FiveAM.Memory.Ownership
open FiveAM.Memory.KernelStores (storeByte Stored)
open FiveAM.Lib.Checked FiveAM.Lib.Programs FiveAM.Lib.Programs.Program
open FiveAM.Process.Elf FiveAM.Process.ElfFiles FiveAM.Process.ElfRuns FiveAM.Process.LoadedImage
open FiveAM.Process.LoadedFile FiveAM.Heap.HoleList

/-- What is done is done below the line a user program may not cross, to the last byte of a page. -/
def Below : Effect → Prop
  | .mapped page => page.toNat + pageSize ≤ userAddressLimit
  | .stored address => address.toNat < userAddressLimit
  | .resealed page => page.toNat + pageSize ≤ userAddressLimit

/-- All the loader has done so far is below the line. -/
def Low (t : Loading) : Prop := ∀ e ∈ t.effects, Below e

/-- A value with what holds then, or an error, or a store that does not end: but no panic, and
nothing beyond the line. -/
def lowPost {α : Type} (ok : α → Loading → Prop) : Post Loading α where
  ok := ok
  error _ t := Low t
  stopped why t := why ≠ .panicked ∧ Low t

variable {setting : Setting} {data : List UInt8} {t : Loading}

section Effects

theorem Low.append {paging : Paging} {e : Effect} (low : Low t) (below : Below e) :
    Low ⟨paging, t.effects ++ [e]⟩ := by
  intro e' member
  rcases List.mem_append.mp member with old | new
  · exact low e' old
  · rw [List.mem_singleton.mp new]
    exact below

theorem pageWord_below {n : Nat} (small : n < 2 ^ 19) :
    (pageWord n).toNat + pageSize ≤ userAddressLimit := by
  rw [pageWord_toNat small]
  unfold pageSize userAddressLimit
  omega

theorem store_low {ok : Unit → Loading → Prop} {address : Word} {byte : BitVec 8} (low : Low t)
    (below : address.toNat < userAddressLimit) (done : ∀ t, Low t → ok () t) :
    Ends (store setting address byte) t (lowPost ok) := by
  have after : ∀ paging, Low ⟨paging, t.effects ++ [.stored address]⟩ := fun _ =>
    low.append (show Below (.stored address) from below)
  unfold Ends store
  rcases storeByte setting.top setting.limit address byte setting.attempts t.paging with s | _ | _
  · exact done _ (after s)
  · exact ⟨by decide, after _⟩
  · exact ⟨by decide, after _⟩

theorem zeroPage_low {ok : Unit → Loading → Prop} {n : Nat} (small : n < 2 ^ 19) (low : Low t)
    (done : ∀ t, Low t → ok () t) : Ends (zeroPage setting (pageWord n)) t (lowPost ok) := by
  unfold zeroPage
  generalize ranged : List.range pageSize = items
  refine .forEach (fun _ _ => Low) low ?_ fun _ => done
  intro zeroed o rest _ t split low
  have inside : o < pageSize := by
    rw [← List.mem_range, ranged, split]
    simp
  refine store_low low ?_ fun _ low => low
  rw [(user_of_page small inside).2]
  unfold pageSize at inside
  unfold pageSize userAddressLimit
  omega

theorem copyIn_low {ok : Unit → Loading → Prop} {source : List UInt8} {start : Nat}
    (below : start + source.length ≤ userAddressLimit) (low : Low t) (done : ∀ t, Low t → ok () t) :
    Ends (copyIn setting source (BitVec.ofNat 64 start)) t (lowPost ok) := by
  unfold copyIn
  refine .forEach (fun _ _ => Low) low ?_ fun _ => done
  intro copied p rest _ t split low
  have inside : p.2 < source.length := by
    have member : p ∈ source.zipIdx := by
      rw [split]
      simp
    exact (List.mem_zipIdx' member).1
  refine store_low low ?_ fun _ low => low
  unfold userAddressLimit at below ⊢
  rw [BitVec.toNat_add, BitVec.toNat_ofNat, BitVec.toNat_ofNat]
  omega

theorem mapPage_low {ok : Unit → Loading → Prop} {page frame flags : Word} (low : Low t)
    (below : page.toNat + pageSize ≤ userAddressLimit) (done : ∀ t, Low t → ok () t) :
    Ends (Elf.mapPage page frame flags) t (lowPost ok) := by
  have after : ∀ paging, Low ⟨paging, t.effects ++ [.mapped page]⟩ := fun _ =>
    low.append (show Below (.mapped page) from below)
  unfold Ends Elf.mapPage act
  dsimp only
  rcases FiveAM.Memory.PageTables.mapPage t.paging page frame flags with ⟨text | _, s⟩
  · exact after s
  · exact done _ (after s)

theorem setFlags_low {ok : Unit → Loading → Prop} {page flags : Word} (low : Low t)
    (below : page.toNat + pageSize ≤ userAddressLimit) (done : ∀ t, Low t → ok () t) :
    Ends (Elf.setFlags page flags) t (lowPost ok) := by
  have after : ∀ paging, Low ⟨paging, t.effects ++ [.resealed page]⟩ := fun _ =>
    low.append (show Below (.resealed page) from below)
  unfold Ends Elf.setFlags act
  dsimp only
  rcases FiveAM.Memory.PageTables.setFlags t.paging page flags with ⟨text | _, s⟩
  · exact after s
  · exact done _ (after s)

theorem backPage_low {ok : Progress → Loading → Prop} {progress : Progress} {n : Nat}
    (small : n < 2 ^ 19) (room : progress.bytesZeroed + pageSize < 2 ^ 64) (low : Low t)
    (done : ∀ t progress', Low t → progress' = progress ∨ (∃ pages, progress' =
      { progress with bytesZeroed := progress.bytesZeroed + pageSize, pages := pages }) →
        ok progress' t) : Ends (backPage setting (pageWord n) progress) t (lowPost ok) := by
  unfold backPage
  refine .bindState ?_
  split_ifs
  · rcases taken : t.paging.allocate with ⟨found, s⟩
    refine allocate_bind taken ?_
    refine .bind (.demand (fun frame _ => ?_) fun _ => low)
    refine .bind (mapPage_low low (pageWord_below small) fun t low => ?_)
    refine .bind (zeroPage_low small low fun t low => ?_)
    refine .bind (.check (fit_eq room) (.bind (.request (fun _ => ?_) fun _ => ⟨by decide, low⟩)))
    exact .pure (done t _ low (.inr ⟨_, rfl⟩))
  · exact .pure (done t progress low (.inl rfl))

end Effects

section Passes

variable {hs after : List ProgramHeader} {h : ProgramHeader} {progress : Progress}

theorem loadSegment_low {ok : Progress → Loading → Prop} (patient : Patient setting)
    (split : headers data = hs ++ h :: after) (low : Low t) (counts : Counts data hs 0 progress)
    (done : ∀ progress t, Low t → Counts data (hs ++ [h]) 0 progress → ok progress t) :
    Ends (loadSegment setting data h progress) t (lowPost ok) := by
  refine loadSegment_ends patient
    (fun n progress t => Low t ∧ Counts data hs (n - h.virtualAddress / pageSize) progress)
    (fun progress t => Low t ∧ Counts data hs (ElfFiles.pageCount h) progress ∧ Valid data h)
    ?_ ?_ ?_ ?_ ?_ ?_
  · exact fun skipped => done progress t low (counts.skip skipped)
  · exact fun _ _ _ => low
  · exact fun _ _ => ⟨low, by rwa [Nat.sub_self]⟩
  · rintro loads valid n progress t meets ⟨low, counts⟩
    have small := valid.pages_below loads meets
    have room := (counts.small split (Nat.le_of_lt (lt_of_le_of_lt (Nat.sub_le _ _) small))).1
    refine backPage_low small room low fun t progress' low change => ⟨low, ?_⟩
    rw [Nat.succ_sub meets.1]
    rcases change with rfl | ⟨pages, rfl⟩
    · exact counts.pass
    · exact counts.zero pages
  · rintro loads valid progress t ⟨low, counts⟩
    have below := valid.below
    have larger := valid.larger
    exact copyIn_low (by rw [source_length valid]; omega) low fun t low => ⟨low, counts, valid⟩
  · rintro loads progress t ⟨low, counts, valid⟩
    have few : ElfFiles.pageCount h ≤ 2 ^ 19 := by
      have below := valid.below
      unfold ElfFiles.pageCount pageSize
      unfold userAddressLimit at below
      omega
    exact ⟨(counts.small split few).2, done _ t low (counts.finish loads valid)⟩

theorem sealPages_low {ok : Unit → Loading → Prop} (patient : Patient setting)
    (valid : Loads h → Valid data h) (low : Low t) (done : ∀ t, Low t → ok () t) :
    Ends (sealPages setting h) t (lowPost ok) := by
  refine sealPages_ends patient (fun _ => Low) (fun _ => done t low) (fun loads => (valid loads).below)
    (fun _ => low) (fun loads n t meets low => ?_) fun _ => done
  exact setFlags_low low (pageWord_below ((valid loads).pages_below loads meets)) fun _ low => low

variable (data) in
theorem load_low (patient : Patient setting) (low : Low t) :
    Ends (Elf.load setting data) t (lowPost fun _ => Low) := by
  refine load_ends (fun hs progress t => Low t ∧ Counts data hs 0 progress)
    (fun _ _ t => Low t ∧ ∀ h ∈ segments data, Valid data h) (fun _ _ => low) ⟨low, .start⟩ ?_ ?_ ?_
    ?_ ?_ ?_
  · rintro - hs h after progress t split ⟨low, counts⟩
    exact loadSegment_low patient split low counts fun _ _ low counts => ⟨low, counts⟩
  · rintro - progress t ⟨low, -⟩ - -
    exact low
  · rintro - progress t ⟨low, counts⟩ -
    exact ⟨low, counts.valid⟩
  · rintro - hs h after progress t split ⟨low, valid⟩
    refine sealPages_low patient (fun loads => valid h ?_) low fun _ low => ⟨low, valid⟩
    rw [mem_segments, split]
    exact ⟨List.mem_append_right _ List.mem_cons_self, loads⟩
  · rintro - progress t ⟨low, -⟩ - -
    exact low
  · rintro - progress t ⟨low, -⟩ - -
    exact low

end Passes

section Frames

def frameAt (i : Nat) : Word := BitVec.ofNat 64 ((i + 1) * pageSize)

theorem frameAt_toNat {i : Nat} (few : i ≤ 2 ^ 39) : (frameAt i).toNat = (i + 1) * pageSize := by
  unfold frameAt pageSize
  rw [BitVec.toNat_ofNat]
  omega

theorem frameAt_framed {i : Nat} (few : i ≤ 2 ^ 39) : Framed (frameAt i) := by
  have place := frameAt_toNat few
  refine ⟨fun zero => ?_, frameOf_aligned ?_ ?_⟩
  · rw [zero] at place
    exact absurd place.symm (Nat.mul_ne_zero (Nat.succ_ne_zero i) (by decide))
  · rw [place]
    exact Nat.mul_mod_left _ _
  · rw [place]
    unfold pageSize
    omega

theorem framesTried_le (data : List UInt8) : framesTried data ≤ 2 ^ 37 := by
  have inside : ∀ h ∈ tried data, h ∈ segments data ∧ Valid data h := fun h member =>
    ⟨List.takeWhile_subset _ member, by simpa using List.mem_takeWhile_imp member⟩
  have each : ∀ n ∈ (tried data).map ElfFiles.pageCount, n ≤ 2 ^ 19 := by
    intro n member
    obtain ⟨h, among, rfl⟩ := List.mem_map.mp member
    have below := (inside h among).2.below
    unfold ElfFiles.pageCount pageSize
    unfold userAddressLimit at below
    omega
  have sum := List.sum_le_card_nsmul _ _ each
  have count : headerCount data < 2 ^ 16 := field_lt data 56 2
  have fewer : (tried data).length ≤ headerCount data := by
    refine ((List.takeWhile_prefix _).length_le.trans (List.length_filter_le _ _)).trans ?_
    rw [headers, List.length_map, List.length_range]
  rw [List.length_map, smul_eq_mul] at sum
  unfold framesTried
  omega

theorem enough_frames (data : List UInt8) : ∃ s s' managed live hand chain root,
    Books s managed live hand chain ∧ newSpace s = (some root, s') ∧
      framesTried data ≤ chain.tail.length := by
  have most := framesTried_le data
  have framed : ∀ f ∈ (List.range' 0 (framesTried data + 1)).map frameAt, Framed f := by
    intro f member
    obtain ⟨i, inside, rfl⟩ := List.mem_map.mp member
    rw [List.mem_range'_1] at inside
    exact frameAt_framed (by omega)
  have once : ((List.range' 0 (framesTried data + 1)).map frameAt).Nodup := by
    refine List.Nodup.map_on (fun i first j second same => ?_) List.nodup_range'
    rw [List.mem_range'_1] at first second
    have places := congrArg BitVec.toNat same
    rw [frameAt_toNat (by omega), frameAt_toNat (by omega)] at places
    have equal := Nat.eq_of_mul_eq_mul_right (by decide) places
    omega
  rw [List.range'_succ, List.map_cons] at framed once
  obtain ⟨s', made, books⟩ := booted_fresh framed once
  refine ⟨_, s', _, _, _, _, _, books, made, ?_⟩
  rw [List.tail_cons, List.length_map, List.length_range']

end Frames

section Whole

structure Safe (setting : Setting) (data : List UInt8) : Prop where
  /-- In any memory: no panic, and nothing beyond the line. -/
  low : ∀ paging, match Elf.load setting data ⟨paging, []⟩ with
    | .returned _ t => ∀ e ∈ t.effects, Below e
    | .stopped why t => why ≠ .panicked ∧ ∀ e ∈ t.effects, Below e
  /-- In a new space, however many frames there are, it returns. -/
  returns : ∀ s managed live hand chain root s', Books s managed live hand chain →
    newSpace s = (some root, s') →
      ∃ result t, Elf.load setting data (fresh s' root) = .returned result t

/-- The loader is safe exactly for the files whose list of pages the kernel heap has room for. -/
theorem load_safe_iff (patient : Patient setting) (data : List UInt8) :
    Safe setting data ↔ Roomy setting.grants data := by
  constructor
  · intro safe
    obtain ⟨s, s', managed, live, hand, chain, root, books, made, enough⟩ := enough_frames data
    obtain ⟨result, t, run⟩ := safe.returns s managed live hand chain root s' books made
    have ends := load_fresh data patient books made
    unfold Ends at ends
    rw [run] at ends
    rcases result with text | counts
    · obtain ⟨-, short | roomy, -⟩ := ends
      · exact absurd enough (Nat.not_le.mpr short)
      · exact roomy
    · exact ends.2.1
  · intro roomy
    constructor
    · intro paging
      have ends := load_low data (t := ⟨paging, []⟩) patient fun _ none =>
        absurd none List.not_mem_nil
      unfold Ends at ends
      generalize Elf.load setting data ⟨paging, []⟩ = outcome at ends ⊢
      rcases outcome with ⟨text | counts, t⟩ | ⟨why, t⟩
      · exact ends
      · exact ends
      · exact ends
    · intro s managed live hand chain root s' books made
      have ends := load_fresh data patient books made
      unfold Ends at ends
      generalize Elf.load setting data (fresh s' root) = outcome at ends ⊢
      rcases outcome with ⟨result, t⟩ | ⟨why, t⟩
      · exact ⟨result, t, rfl⟩
      · exact absurd roomy ends.2

theorem load_safe_oneSegment : Safe eager oneSegment :=
  (load_safe_iff patient_eager oneSegment).mpr fun _ _ => rfl

section Scenario

private def contents : Layout := ⟨120, 1, ⟨0, by decide, rfl⟩, by decide⟩

private def roomFor (doubled : Fin 16) : Layout :=
  ⟨2 ^ (doubled.val + 5), 8, word_aligned, by revert doubled; decide⟩

private def placeOf (doubled : Fin 16) : Nat := heapStart + 88 + 2 ^ (doubled.val + 5)

/-- The kernel heap with these contents and a list of such a room, and the same before the list has
left its old place. -/
private def grown (doubled : Fin 16) : LinkedListAllocator where
  holes := if doubled = 0 then [⟨heapStart + 152, heapSize - 152⟩]
    else [⟨heapStart + 120, 2 ^ (doubled.val + 5) - 32⟩,
      ⟨heapStart + 88 + 2 ^ (doubled.val + 6), heapSize - (88 + 2 ^ (doubled.val + 6))⟩]
  allocated := 120 + 2 ^ (doubled.val + 5)
  liveAllocations := 2

private def moving (doubled : Fin 16) : LinkedListAllocator where
  holes := (grown doubled).holes.dropLast ++
    [⟨heapStart + 88 + 2 ^ (doubled.val + 7), heapSize - (88 + 2 ^ (doubled.val + 7))⟩]
  allocated := 120 + 2 ^ (doubled.val + 5) + 2 ^ (doubled.val + 6)
  liveAllocations := 3

private theorem grows : ∀ k : Fin 14,
    alloc (grown k.castSucc.castSucc) (roomFor k.succ.castSucc) =
        some (some (placeOf k.succ.castSucc), moving k.castSucc.castSucc) ∧
      dealloc (moving k.castSucc.castSucc) (placeOf k.castSucc.castSucc)
        (roomFor k.castSucc.castSucc) = some (grown k.succ.castSucc) := by
  decide +kernel

private theorem grown_reachable (k : Fin 15) : Reachable (grown k.castSucc)
    [(placeOf k.castSucc, roomFor k.castSucc), (heapStart, contents)] := by
  induction k using Fin.induction with
  | zero =>
      have first : alloc init contents =
          some (some heapStart, ⟨[⟨heapStart + 120, heapSize - 120⟩], 120, 1⟩) := by decide +kernel
      have list : alloc ⟨[⟨heapStart + 120, heapSize - 120⟩], 120, 1⟩ (roomFor 0) =
          some (some (placeOf 0), grown 0) := by decide +kernel
      exact .alloc (.alloc .init first) list
  | succ k ih =>
      obtain ⟨new, old⟩ := grows k
      have both : Reachable (moving k.castSucc.castSucc)
          ([(placeOf k.succ.castSucc, roomFor k.succ.castSucc)] ++
            (placeOf k.castSucc.castSucc, roomFor k.castSucc.castSucc) :: [(heapStart, contents)]) :=
        .alloc ih new
      exact .dealloc both old

/-- A heap in which the list has no room for more than 65536 words. -/
def cramped : Setting := { eager with grants := fun count => decide (count < 65536) }

/-- One segment of four bytes that asks for 65537 pages of memory. -/
def hugeSegment : List UInt8 := fileOf 0x400000 [⟨ptLoad, 6, 0, 0x400000, 0, 4, 0x10001000, 0⟩]

/-- The kernel heap with nothing in it but the file and the list of its first 65536 pages does not
let the list grow. -/
theorem hugeSegment_not_safe :
    (hugeSegment.length = 120 ∧ ∃ heap list file, Reachable heap [list, file] ∧
      list.2.size = 8 * 65536 ∧ file.2.size = 120 ∧
      alloc heap ⟨16 * 65536, 8, ⟨3, by decide, rfl⟩, by decide⟩ = some (none, heap)) ∧
    ¬Safe cramped hugeSegment := by
  refine ⟨⟨by decide, _, _, _, grown_reachable 14, by decide, rfl, by decide +kernel⟩,
    fun safe => ?_⟩
  have roomy := (load_safe_iff ⟨by decide, by decide⟩ hugeSegment).mp safe
  have one : tried hugeSegment = [⟨ptLoad, 6, 0, 0x400000, 0, 4, 0x10001000, 0⟩] := by decide +kernel
  have tabled : Tabled hugeSegment := by decide +kernel
  have pages : pagesTried hugeSegment = 65537 := by
    rw [pagesTried, if_pos tabled, one, pagesOf, List.toFinset_cons, List.toFinset_nil,
      insert_empty_eq, Finset.singleton_biUnion, Nat.card_Icc]
    rfl
  exact absurd (roomy 65536 (by rw [pages]; decide)) (by decide)

end Scenario

end Whole

end FiveAM.Process.LoaderSafety
