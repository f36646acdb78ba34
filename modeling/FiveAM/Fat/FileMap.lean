/- GID: FiveAM/Fat/FileMap
   source: kernel/src/fat.rs
   digest: Over whole runs, a volume is a map from names to bytes, and its clusters add up. -/

import FiveAM.Fat.Allocating
import FiveAM.Fat.Finding
import FiveAM.Fat.Removing
import FiveAM.Lib.Runs

set_option autoImplicit false
set_option relaxedAutoImplicit false

namespace FiveAM.Fat.FileMap

open FiveAM.Lib.ByteRegions FiveAM.Lib.LinkedTable FiveAM.Lib.Runs
open FiveAM.Fat.Reading FiveAM.Fat.Writing FiveAM.Fat.Layout FiveAM.Fat.Tables FiveAM.Fat.Directory
open FiveAM.Fat.Names FiveAM.Fat.Files FiveAM.Fat.Creating FiveAM.Fat.Removing
open FiveAM.Fat.Allocating (Request Lists Takes list_run find_run readFile_run)
open FiveAM.Lib.Requests

/-- A name as `eq_ignore_ascii_case` compares it. -/
def key (name : List Char) : List UInt8 := (bytes name).map toAsciiLowercase

/-- What a volume is for: the bytes of each file, by its name in either case. -/
abbrev Files := List UInt8 → Option (List UInt8)

inductive Operation
  | create (name : List Char) (data : List UInt8)
  | remove (name : List Char)

namespace Operation

def name : Operation → List Char
  | create name _ => name
  | remove name => name

def run (v : Volume) : Operation → Drive → Except String Unit × Drive
  | create name data, d => Writing.create v name data d
  | remove name, d => Writing.remove v name d

def update : Operation → Files → Files
  | create name data, files => Function.update files (key name) (some data)
  | remove name, files => Function.update files (key name) none

/-- The slot a create would write for its name begins like the end of the directory. -/
def EndsDirectory : Operation → Prop
  | create name _ => (bytes name).head? = some 0
  | remove _ => False

instance (op : Operation) : Decidable op.EndsDirectory :=
  match op with
  | create name _ => inferInstanceAs (Decidable ((bytes name).head? = some 0))
  | remove _ => inferInstanceAs (Decidable False)

end Operation

/-- One operation on the volume and on the map, when it succeeds. -/
def step (v : Volume) (s : Drive × Files) (op : Operation) : Option (Drive × Files) :=
  match op.run v s.1 with
  | (.ok (), d) => some (d, op.update s.2)
  | (.error _, _) => none

/-- The names in the root directory differ by more than case. -/
def Distinct (v : Volume) (disk : Store) : Prop := ((v.list disk).map fun e => key e.name).Nodup

/-- The listed files, with the bytes that reading them returns. -/
def filesOf (v : Volume) (disk : Store) : Files := fun k =>
  match (v.list disk).find? fun e => key e.name = k with
  | some e => (v.readFile disk e).toOption
  | none => none

/-- `list` gives exactly the files of the map, with their sizes, and they read back. -/
structure Shows (v : Volume) (disk : Store) (files : Files) : Prop where
  distinct : Distinct v disk
  reads : ∀ e ∈ v.list disk, ∃ data, files (key e.name) = some data ∧ e.size = data.length ∧
    v.readFile disk e = .ok data
  complete : ∀ k data, files k = some data → ∃ e ∈ v.list disk, key e.name = k

/-- The volume is consistent and is the map: what it lists, what is found by name, and
how many clusters are left. -/
structure Agrees (v : Volume) (disk : Store) (files : Files) : Prop where
  consistent : Consistent v disk
  shows : Shows v disk files
  found : ∀ name data, files (key name) = some data →
    ∃ e, v.find disk name = .ok e ∧ v.readFile disk e = .ok data
  missing : ∀ name, files (key name) = none → v.find disk name = .error "no such file"
  free : ∀ cells, Holds v disk cells →
    countFree v disk + ((listed v disk).map fun i => (cells i).length).sum = v.clusters

/-- `list`, `find` and `read_file` give the files of the map wherever the heap grants what they ask
for. -/
structure Serves (v : Volume) (disk : Store) (files : Files) (heap : Request → Bool) : Prop where
  listed : Lists heap (v.list disk).length →
    (Allocating.list v disk).run heap = some (.ok (v.list disk))
  found : ∀ name data, files (key name) = some data → Lists heap (v.list disk).length →
    Takes heap data.length → ∃ e, (Allocating.find v disk (bytes name)).run heap = some (.ok e) ∧
      (Allocating.readFile v disk e).run heap = some (.ok data)
  missing : ∀ name, files (key name) = none → Lists heap (v.list disk).length →
    (Allocating.find v disk (bytes name)).run heap = some (.error "no such file")

theorem key_iff {a b : List Char} : eqIgnoreAsciiCase a b = true ↔ key a = key b :=
  eqIgnoreAsciiCase_iff

theorem matching_iff {v : Volume} {disk : Store} {name : List Char} {i : Nat} :
    Matching v disk name i ↔ key (entryAt v disk i).name = key name := key_iff

theorem free_clusters {v : Volume} {disk : Store} {cells : Nat → List Nat}
    (holds : Holds v disk cells) :
    countFree v disk + ((listed v disk).map fun i => (cells i).length).sum = v.clusters := by
  have sound := holds.sound
  have each : ∀ i ∈ listed v disk, (cells i).Nodup := fun i member => by
    rcases holds.chains i member with ⟨_, none⟩ | chain
    · rw [none]
      exact List.nodup_nil
    · exact chain.nodup (inside_not_end sound.few)
  have disjoint : (listed v disk).Pairwise fun i j => (cells i).Disjoint (cells j) :=
    (listed_nodup v disk).pairwise_of_forall_ne fun i first j second other c =>
      holds.apart i first j second other c
  have distinct : ((listed v disk).flatMap cells).Nodup := List.nodup_flatMap.mpr ⟨each, disjoint⟩
  have used : ((List.range' 2 v.clusters).filter fun c => !decide (table v disk 0 c = 0)).Perm
      ((listed v disk).flatMap cells) := by
    refine (List.perm_ext_iff_of_nodup ((List.nodup_range' 1).filter _) distinct).mpr fun c => ?_
    rw [List.mem_filter, List.mem_range'_1, List.mem_flatMap, Bool.not_eq_true',
      decide_eq_false_iff_not]
    constructor
    · rintro ⟨⟨low, high⟩, used⟩
      exact (holds.exact c ⟨low, by omega⟩).mp used
    · rintro ⟨i, member, held⟩
      obtain ⟨⟨low, high⟩, used⟩ := holds.cells_used member c held
      exact ⟨⟨low, by omega⟩, used⟩
  have all := List.length_eq_length_filter_add (l := List.range' 2 v.clusters)
    fun c => decide (table v disk 0 c = 0)
  rw [List.length_range', used.length_eq, List.length_flatMap] at all
  rw [countFree_eq sound, freeCells, Nat.max_self, Nat.add_sub_cancel]
  exact all.symm

theorem content_length {v : Volume} {disk : Store} {cells : Nat → List Nat}
    (holds : Holds v disk cells) {i : Nat} (member : i ∈ listed v disk) :
    (content v disk (cells i) (entryAt v disk i).size).length = (entryAt v disk i).size := by
  rw [content, List.length_take,
    cells_length (fun c used => (holds.cells_used member c used).1),
    Nat.min_eq_left (holds.long i member)]

theorem distinct_iff {v : Volume} {disk : Store} : Distinct v disk ↔
    ∀ i ∈ listed v disk, ∀ j ∈ listed v disk,
      key (entryAt v disk i).name = key (entryAt v disk j).name → i = j := by
  rw [Distinct, list_eq, List.map_map, Function.comp_def]
  exact List.nodup_map_iff_inj_on (listed_nodup v disk)

theorem shows_iff {v : Volume} {disk : Store} {files : Files} : Shows v disk files ↔
    Distinct v disk ∧
    (∀ i ∈ listed v disk, ∃ data, files (key (entryAt v disk i).name) = some data ∧
      (entryAt v disk i).size = data.length ∧ v.readFile disk (entryAt v disk i) = .ok data) ∧
    ∀ k data, files k = some data → ∃ i ∈ listed v disk, key (entryAt v disk i).name = k := by
  constructor
  · intro shows
    refine ⟨shows.distinct, fun i member => shows.reads _ ?_, fun k data held => ?_⟩
    · rw [list_eq]
      exact List.mem_map_of_mem member
    · obtain ⟨e, member, same⟩ := shows.complete k data held
      rw [list_eq] at member
      obtain ⟨i, file, rfl⟩ := List.mem_map.mp member
      exact ⟨i, file, same⟩
  · rintro ⟨distinct, reads, complete⟩
    refine ⟨distinct, fun e member => ?_, fun k data held => ?_⟩
    · rw [list_eq] at member
      obtain ⟨i, file, rfl⟩ := List.mem_map.mp member
      exact reads i file
    · obtain ⟨i, file, same⟩ := complete k data held
      refine ⟨_, ?_, same⟩
      rw [list_eq]
      exact List.mem_map_of_mem file

theorem shows_filesOf {v : Volume} {disk : Store} (consistent : Consistent v disk)
    (distinct : Distinct v disk) : Shows v disk (filesOf v disk) := by
  obtain ⟨cells, holds⟩ := consistent
  refine ⟨distinct, fun e member => ?_, fun k data held => ?_⟩
  · have first : (v.list disk).find? (fun e' => key e'.name = key e.name) = some e := by
      cases search : (v.list disk).find? fun e' => key e'.name = key e.name with
      | none =>
          have other := List.find?_eq_none.mp search e member
          simp at other
      | some e' =>
          have same : key e'.name = key e.name := by
            simpa using List.find?_some search
          have equal := List.inj_on_of_nodup_map distinct (List.mem_of_find?_eq_some search) member
          rw [equal same]
    rw [list_eq] at member
    obtain ⟨i, file, rfl⟩ := List.mem_map.mp member
    refine ⟨_, ?_, (content_length holds file).symm, holds.readFile file⟩
    simp only [filesOf, first, holds.readFile file]
    rfl
  · unfold filesOf at held
    cases search : (v.list disk).find? fun e => key e.name = k with
    | none =>
        rw [search] at held
        simp at held
    | some e =>
        exact ⟨e, List.mem_of_find?_eq_some search, by simpa using List.find?_some search⟩

theorem agrees_of_shows {v : Volume} {disk : Store} {files : Files}
    (consistent : Consistent v disk) (shows : Shows v disk files) : Agrees v disk files where
  consistent := consistent
  shows := shows
  found name data held := by
    obtain ⟨distinct, reads, complete⟩ := shows_iff.mp shows
    obtain ⟨i, member, same⟩ := complete _ _ held
    obtain ⟨data', held', _, read⟩ := reads i member
    rw [same, held] at held'
    obtain rfl := Option.some.inj held'
    refine ⟨_, find_unique member (matching_iff.mpr same) fun j file matching => ?_, read⟩
    exact distinct_iff.mp distinct j file i member ((matching_iff.mp matching).trans same.symm)
  missing name none := by
    have absent : (v.list disk).find? (fun e => eqIgnoreAsciiCase e.name name) = Option.none := by
      refine List.find?_eq_none.mpr fun e member matching => ?_
      obtain ⟨data, held, _⟩ := shows.reads e member
      rw [key_iff.mp matching, none] at held
      simp at held
    rw [Volume.find, absent]
  free _ holds := free_clusters holds

theorem Agrees.serves {v : Volume} {disk : Store} {files : Files} (agrees : Agrees v disk files)
    (heap : Request → Bool) : Serves v disk files heap where
  listed lists := list_run lists
  found name data held lists takes := by
    obtain ⟨e, found, read⟩ := agrees.found name data held
    have member : e ∈ v.list disk := by
      unfold Volume.find at found
      cases search : (v.list disk).find? fun entry => eqIgnoreAsciiCase entry.name name with
      | none =>
          rw [search] at found
          cases found
      | some other =>
          rw [search] at found
          rw [← Except.ok.inj found]
          exact List.mem_of_find?_eq_some search
    have size : e.size = data.length := by
      obtain ⟨data', -, size, read'⟩ := agrees.shows.reads e member
      rw [size, Except.ok.inj (read'.symm.trans read)]
    refine ⟨e, (find_run lists name).trans (congrArg some found), ?_⟩
    exact (readFile_run (size ▸ takes)).trans (congrArg some read)
  missing name none lists := (find_run lists name).trans (congrArg some (agrees.missing name none))

section Steps

variable {v : Volume} {disk disk' : Store} {files : Files} {cells : Nat → List Nat}
  {name : List Char} {i : Nat}

theorem named_iff {existing : Option Entry} (distinct : Distinct v disk)
    (target : Target v disk name i existing) {j : Nat} (member : j ∈ listed v disk) :
    key (entryAt v disk j).name = key name ↔ j = i := by
  rw [← matching_iff]
  rcases target.own with ⟨own, same, _⟩ | ⟨vacant, _, _, absent⟩
  · refine ⟨fun matching => ?_, fun here => here ▸ same⟩
    exact distinct_iff.mp distinct j member i own
      ((matching_iff.mp matching).trans (matching_iff.mp same).symm)
  · refine iff_of_false (absent j member) ?_
    rintro rfl
    obtain ⟨_, before, usable⟩ := mem_listed.mp member
    exact vacant.elim (before j (Nat.le_refl _)) usable.1

theorem created_shows {data : List UInt8} {existing : Option Entry} (holds : Holds v disk cells)
    (shows : Shows v disk files) (fits : Fits name) (target : Target v disk name i existing)
    (created : Created v name data i (fresh v disk data) (oldCells v disk cells i) disk disk')
    (survives : Survives name) (going : firstByte name ≠ entryFree) :
    Shows v disk' (Function.update files (key name) (some data)) := by
  obtain ⟨distinct, reads, complete⟩ := shows_iff.mp shows
  have kept := firstByte_of_survives fits.2 survives
  have members := fun j => Keeping.created_listed (j := j) holds fits target created going kept
  have entry := (Keeping.slot_new holds fits created).2.2
  have named : (entryAt v disk' i).name = stored name := by rw [entry]
  have own : key (entryAt v disk' i).name = key name := by
    rw [named]
    exact key_iff.mp (survives_iff.mp survives)
  have others := fun j (member : j ∈ listed v disk) (other : j ≠ i) =>
    Keeping.created_others holds fits target created going kept member other
  refine shows_iff.mpr ⟨distinct_iff.mpr fun a first b second same => ?_, fun j member => ?_,
    fun k bytes held => ?_⟩
  · by_cases here : a = i
    · by_cases there : b = i
      · rw [here, there]
      · have old := ((members b).mp second).resolve_left there
        rw [here, own, (others b old there).2.1] at same
        exact absurd ((named_iff distinct target old).mp same.symm) there
    · have old := ((members a).mp first).resolve_left here
      rw [(others a old here).2.1] at same
      by_cases there : b = i
      · rw [there, own] at same
        exact absurd ((named_iff distinct target old).mp same) here
      · have old' := ((members b).mp second).resolve_left there
        rw [(others b old' there).2.1] at same
        exact distinct_iff.mp distinct a old b old' same
  · by_cases here : j = i
    · refine ⟨data, ?_, ?_, ?_⟩
      · rw [here, own, Function.update_self]
      · rw [here, entry]
      · rw [here]
        exact Keeping.created_reads holds fits target created going kept
    · have old := ((members j).mp member).resolve_left here
      obtain ⟨_, same, bytes⟩ := others j old here
      rw [bytes, same,
        Function.update_of_ne fun named => here ((named_iff distinct target old).mp named)]
      exact reads j old
  · by_cases named : k = key name
    · exact ⟨i, (members i).mpr (.inl rfl), named ▸ own⟩
    · rw [Function.update_of_ne named] at held
      obtain ⟨j, old, same⟩ := complete k bytes held
      have other : j ≠ i := fun here =>
        named (same ▸ (named_iff distinct target old).mpr here)
      exact ⟨j, (members j).mpr (.inr old), by rw [(others j old other).2.1, same]⟩

theorem removed_shows {entry : Entry} (holds : Holds v disk cells) (shows : Shows v disk files)
    (target : Target v disk name i (some entry)) (removed : Removed v i (cells i) disk disk') :
    Shows v disk' (Function.update files (key name) none) := by
  obtain ⟨distinct, reads, complete⟩ := shows_iff.mp shows
  rcases target.own with ⟨own, _⟩ | ⟨_, none, _⟩
  · have members := fun j => removed_listed (j := j) holds own removed
    have others := fun j (member : j ∈ listed v disk) (other : j ≠ i) =>
      removed_others holds own removed member other
    refine shows_iff.mpr ⟨distinct_iff.mpr fun a first b second same => ?_, fun j member => ?_,
      fun k bytes held => ?_⟩
    · obtain ⟨old, here⟩ := (members a).mp first
      obtain ⟨old', there⟩ := (members b).mp second
      rw [(others a old here).2.1, (others b old' there).2.1] at same
      exact distinct_iff.mp distinct a old b old' same
    · obtain ⟨old, here⟩ := (members j).mp member
      obtain ⟨_, same, bytes⟩ := others j old here
      rw [bytes, same,
        Function.update_of_ne fun named => here ((named_iff distinct target old).mp named)]
      exact reads j old
    · by_cases named : k = key name
      · rw [named, Function.update_self] at held
        simp at held
      · rw [Function.update_of_ne named] at held
        obtain ⟨j, old, same⟩ := complete k bytes held
        have other : j ≠ i := fun here =>
          named (same ▸ (named_iff distinct target old).mpr here)
        exact ⟨j, (members j).mpr ⟨old, other⟩, by rw [(others j old other).2.1, same]⟩
  · simp at none

end Steps

theorem step_shows {v : Volume} {s s' : Drive × Files} {op : Operation}
    (consistent : Consistent v s.1.contents) (shows : Shows v s.1.contents s.2)
    (survives : Survives op.name) (going : ¬ op.EndsDirectory) (taken : step v s op = some s') :
    Consistent v s'.1.contents ∧ Shows v s'.1.contents s'.2 := by
  obtain ⟨cells, holds⟩ := consistent
  rcases outcome : op.run v s.1 with ⟨_ | _, d⟩
  · rw [step, outcome] at taken
    simp at taken
  · rw [step, outcome] at taken
    obtain rfl := Option.some.inj taken
    cases op with
    | create name data =>
        obtain ⟨fits, i, existing, target, created⟩ := Finding.create_ok holds outcome
        have going : firstByte name ≠ entryFree := fun free => going ((firstByte_free fits).mp free)
        have kept := firstByte_of_survives fits.2 survives
        exact ⟨⟨_, Keeping.created_holds holds fits target created going kept⟩,
          created_shows holds shows fits target created survives going⟩
    | remove name =>
        obtain ⟨i, entry, target, removed⟩ := remove_ok holds outcome
        have own : i ∈ listed v s.1.contents := by
          rcases target.own with ⟨own, _⟩ | ⟨_, none, _⟩
          · exact own
          · simp at none
        exact ⟨⟨_, removed_holds holds own removed⟩, removed_shows holds shows target removed⟩

theorem run_shows {v : Volume} {s s' : Drive × Files} {ops : List Operation}
    (consistent : Consistent v s.1.contents) (shows : Shows v s.1.contents s.2)
    (survive : ∀ op ∈ ops, Survives op.name) (going : ∀ op ∈ ops, ¬ op.EndsDirectory)
    (done : runAll (step v) s ops = some s') :
    Consistent v s'.1.contents ∧ Shows v s'.1.contents s'.2 := by
  induction ops generalizing s with
  | nil =>
      obtain rfl := Option.some.inj done
      exact ⟨consistent, shows⟩
  | cons op rest ih =>
      obtain ⟨next, here, later⟩ := Option.bind_eq_some_iff.mp done
      obtain ⟨consistent', shows'⟩ := step_shows consistent shows (survive op (by simp))
        (going op (by simp)) here
      exact ih consistent' shows' (fun x member => survive x (List.mem_cons_of_mem _ member))
        (fun x member => going x (List.mem_cons_of_mem _ member)) later

theorem run_unnamed {v : Volume} {s s' : Drive × Files} {ops : List Operation} {k : List UInt8}
    (unnamed : ∀ op ∈ ops, key op.name ≠ k) (done : runAll (step v) s ops = some s') :
    s'.2 k = s.2 k := by
  induction ops generalizing s with
  | nil =>
      obtain rfl := Option.some.inj done
      rfl
  | cons op rest ih =>
      obtain ⟨next, here, later⟩ := Option.bind_eq_some_iff.mp done
      have other := unnamed op (by simp)
      have same : next.2 k = s.2 k := by
        rcases outcome : op.run v s.1 with ⟨_ | _, d⟩
        · rw [step, outcome] at here
          simp at here
        · rw [step, outcome] at here
          obtain rfl := Option.some.inj here
          cases op with
          | create name data => exact Function.update_of_ne (Ne.symm other) _ _
          | remove name => exact Function.update_of_ne (Ne.symm other) _ _
      rw [ih (fun x member => unnamed x (List.mem_cons_of_mem _ member)) later, same]

/-- After every run of creates and removes that succeed, of names that survive and do not
begin with NUL: the volume is consistent and is the map with the same updates made, its files
are given wherever the kernel heap has room for them, and the files no operation has named read as
they did. -/
theorem files_kept {v : Volume} {d d' : Drive} {files' : Files} {ops : List Operation}
    (consistent : Consistent v d.contents) (distinct : Distinct v d.contents)
    (survive : ∀ op ∈ ops, Survives op.name) (going : ∀ op ∈ ops, ¬ op.EndsDirectory)
    (done : runAll (step v) (d, filesOf v d.contents) ops = some (d', files')) :
    Agrees v d'.contents files' ∧ (∀ heap, Serves v d'.contents files' heap) ∧
      ∀ name, (∀ op ∈ ops, key op.name ≠ key name) → ∀ e, v.find d.contents name = .ok e →
        ∃ e', v.find d'.contents name = .ok e' ∧
          v.readFile d'.contents e' = v.readFile d.contents e := by
  have shows := shows_filesOf consistent distinct
  have before := agrees_of_shows consistent shows
  obtain ⟨consistent', shows'⟩ := run_shows consistent shows survive going done
  have after := agrees_of_shows consistent' shows'
  refine ⟨after, after.serves, fun name unnamed e found => ?_⟩
  have same : files' (key name) = filesOf v d.contents (key name) := run_unnamed unnamed done
  cases held : filesOf v d.contents (key name) with
  | none =>
      rw [before.missing name held] at found
      simp at found
  | some data =>
      obtain ⟨e₀, found₀, read₀⟩ := before.found name data held
      obtain ⟨e', found', read'⟩ := after.found name data (same.trans held)
      rw [found] at found₀
      obtain rfl := Except.ok.inj found₀
      exact ⟨e', found', read'.trans read₀.symm⟩

private theorem distinct_of_one {v : Volume} {disk : Store} (one : (v.list disk).length = 1) :
    Distinct v disk := by
  obtain ⟨e, single⟩ := List.length_eq_one_iff.mp one
  rw [Distinct, single]
  exact List.nodup_singleton _

private def notes : List Char := "notes.txt".toList

/-- A file is created and removed again, on a volume with another file. -/
theorem files_kept_notes : ∃ (d d' : Drive) (files' : Files),
    runAll (step Image.volume) (d, filesOf Image.volume d.contents)
      [.create notes [1, 2, 3], .remove notes] = some (d', files') ∧
    Agrees Image.volume d'.contents files' ∧
    ∀ heap, Serves Image.volume d'.contents files' heap := by
  obtain ⟨d, d₁, ⟨cells, holds⟩, created, one⟩ := Finding.created_one notes (by decide)
  have distinct := distinct_of_one one
  have survives : Survives notes := by decide +kernel
  obtain ⟨fits, i, existing, target, done⟩ := Finding.create_ok holds created
  have few : Finding.matchCount Image.volume d.contents notes ≤ 1 := by
    rw [← one]
    exact List.length_filter_le _ _
  have again := (Finding.found_of_survives holds fits target done survives (by decide) few).again
  obtain ⟨sector, offset, _, e, _, found, _⟩ := again
  obtain ⟨j, target', _, _⟩ := target_of_slot found
  have kept := firstByte_of_survives fits.2 survives
  have removed := (remove_done (Keeping.created_holds holds fits target done (by decide) kept)
    target').1
  rcases outcome : Writing.remove Image.volume notes d₁ with ⟨r, d'⟩
  rw [outcome] at removed
  obtain rfl : r = _ := removed
  have run : runAll (step Image.volume) (d, filesOf Image.volume d.contents)
      [.create notes [1, 2, 3], .remove notes] = some (d', Function.update (Function.update
        (filesOf Image.volume d.contents) (key notes) (some [1, 2, 3])) (key notes) none) := by
    simp only [runAll, step, Operation.run, created, outcome, Option.bind_some]
    rfl
  have kept := files_kept ⟨cells, holds⟩ distinct (by simpa [Operation.name] using survives)
    (by decide) run
  exact ⟨d, d', _, run, kept.1, kept.2.1⟩

private def nulName : List Char := [Char.ofNat 0, 'A']

theorem nul_name_lost : ∃ (v : Volume) (d d' : Drive) (files' : Files) (ops : List Operation),
    Consistent v d.contents ∧ Distinct v d.contents ∧ (∀ op ∈ ops, Survives op.name) ∧
      runAll (step v) (d, filesOf v d.contents) ops = some (d', files') ∧
      ¬ Agrees v d'.contents files' := by
  obtain ⟨d, d', ⟨cells, holds⟩, created, one⟩ := Finding.created_one nulName (by decide)
  have survives : Survives nulName := by decide +kernel
  have distinct := distinct_of_one one
  obtain ⟨fits, i, existing, target, done⟩ := Finding.create_ok holds created
  have run : runAll (step Image.volume) (d, filesOf Image.volume d.contents)
      [.create nulName [1, 2, 3]] = some (d', Function.update (filesOf Image.volume d.contents)
        (key nulName) (some [1, 2, 3])) := by
    simp only [runAll, step, Operation.run, created, Option.bind_some]
    rfl
  refine ⟨Image.volume, d, d', _, _, ⟨cells, holds⟩, distinct, ?_, run, fun agrees => ?_⟩
  · simpa [Operation.name] using survives
  · obtain ⟨j, member, same⟩ := (shows_iff.mp agrees.shows).2.2 (key nulName) [1, 2, 3]
      (Function.update_self _ _ _)
    have ends : firstByte nulName = entryFree := by decide
    obtain ⟨old, below⟩ := (Keeping.created_cut holds fits done ends).mp member
    rw [entryAt, Keeping.slot_other done (Nat.ne_of_lt below)] at same
    exact Nat.ne_of_lt below ((named_iff distinct target old).mp same)

end FiveAM.Fat.FileMap
