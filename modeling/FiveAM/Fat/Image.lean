/- GID: FiveAM/Fat/Image
   source: mkfs/src/main.rs, kernel/src/fat.rs
   digest: An image that is built is a consistent volume with the files it was built from. -/

import FiveAM.Fat.Allocating
import FiveAM.Fat.Files
import FiveAM.Fat.Mkfs
import FiveAM.Heap.HoleList
import Mathlib.Data.List.Sort

set_option autoImplicit false
set_option relaxedAutoImplicit false

namespace FiveAM.Fat.Image

open FiveAM.Lib.ByteRegions FiveAM.Lib.LinkedTable
open FiveAM.Fat.Reading FiveAM.Fat.Writing FiveAM.Fat.Layout FiveAM.Fat.Tables FiveAM.Fat.Directory
open FiveAM.Fat.Names FiveAM.Fat.Files FiveAM.Lib.Requests
open FiveAM.Fat.Allocating (Request Lists Takes list_run find_run readFile_run readFile_stops)
open FiveAM.Heap.HoleList (Reachable heapSize live_within)
open FiveAM.Fat.Mkfs (File Building clustersFor chainTogether addFile addFiles copyFat build
  writeBootSector writeDirectoryEntry)

/-- The volume `mount` makes of an image. -/
def volume : Volume where
  bytesPerSector := 512
  fatCount := 2
  sectorsPerCluster := 4
  fatStart := 1
  sectorsPerFat := 32
  rootStart := 65
  rootEntries := 512
  dataStart := 97
  clusters := 8167

def total (files : List File) : Nat := (files.map fun f => clustersFor f.data).sum

/-- Where the `j`-th file begins. -/
def firstOf (files : List File) (j : Nat) : Nat := 2 + total (files.take j)

theorem clustersFor_pos (data : List UInt8) : 0 < clustersFor data := by
  unfold clustersFor
  omega

theorem firstOf_append {files more : List File} {j : Nat} (inside : j ≤ files.length) :
    firstOf (files ++ more) j = firstOf files j := by
  rw [firstOf, List.take_append_of_le_length inside, firstOf]

theorem firstOf_length (files : List File) : firstOf files files.length = 2 + total files := by
  rw [firstOf, List.take_length]

theorem total_snoc (files : List File) (file : File) :
    total (files ++ [file]) = total files + clustersFor file.data := by
  simp [total]

theorem firstOf_succ {files : List File} {j : Nat} (inside : j < files.length) :
    firstOf files (j + 1) = firstOf files j + clustersFor files[j].data := by
  rw [firstOf, List.take_succ_eq_append_getElem inside, total_snoc, firstOf, Nat.add_assoc]

theorem firstOf_mono {files : List File} {i j : Nat} (below : i ≤ j) :
    firstOf files i ≤ firstOf files j := by
  obtain ⟨more, rfl⟩ : ∃ more, j = i + more := ⟨j - i, by omega⟩
  simp only [firstOf, List.take_add, total, List.map_append, List.sum_append]
  omega

theorem firstOf_covers {files : List File} {m c : Nat} (low : 2 ≤ c) (few : m ≤ files.length)
    (below : c < firstOf files m) : ∃ j, ∃ inside : j < files.length,
      firstOf files j ≤ c ∧ c < firstOf files j + clustersFor files[j].data := by
  induction m with
  | zero => exact absurd below (by simp [firstOf, total]; omega)
  | succ m ih =>
      rcases Nat.lt_or_ge c (firstOf files m) with before | after
      · exact ih (by omega) before
      · rw [firstOf_succ few] at below
        exact ⟨m, few, after, below⟩

/-- What a cluster of a chain that ends before `stop` holds. -/
def linkOf (stop c : Nat) : Nat := if c + 1 = stop then 0xFFFF else c + 1

theorem linkOf_ne_zero (stop c : Nat) : linkOf stop c ≠ 0 := by
  unfold linkOf
  split_ifs
  · decide
  · omega

theorem chainTogether_eq (fat : Nat → Nat) (first needed c : Nat) :
    chainTogether fat first needed c =
      if first ≤ c ∧ c < first + needed then linkOf (first + needed) c else fat c := by
  have link (offset : Nat) : (if offset + 1 = needed then 0xFFFF else first + offset + 1) =
      linkOf (first + needed) (first + offset) := by
    unfold linkOf
    by_cases last : offset + 1 = needed
    · rw [if_pos last, if_pos (by omega)]
    · rw [if_neg last, if_neg (by omega)]
  have rounds : ∀ n, (List.range n).foldl (fun fat offset =>
      Function.update fat (first + offset)
        (if offset + 1 = needed then 0xFFFF else first + offset + 1)) fat c =
      if first ≤ c ∧ c < first + n then linkOf (first + needed) c else fat c := by
    intro n
    induction n with
    | zero =>
        rw [if_neg (by omega)]
        rfl
    | succ n ih =>
        rw [List.range_succ, List.foldl_append, List.foldl_cons, List.foldl_nil, link]
        by_cases here : c = first + n
        · subst here
          rw [Function.update_self, if_pos (by omega)]
        · rw [Function.update_of_ne here, ih]
          by_cases inside : first ≤ c ∧ c < first + n
          · rw [if_pos inside, if_pos (by omega)]
          · rw [if_neg inside, if_neg (by omega)]
  exact rounds needed

theorem writeDirectoryEntry_eq {name : List Char} {firstCluster size : Nat} {slot : List UInt8}
    (written : writeDirectoryEntry (List.replicate directoryEntrySize 0) name firstCluster size =
      some slot) :
    Short name ∧ slot = directoryEntry (split name).1 (split name).2 firstCluster size := by
  have unfolded : writeDirectoryEntry (List.replicate directoryEntrySize 0) name firstCluster size =
      if (bytes (split name).1).length ≤ 8 ∧ (bytes (split name).2).length ≤ 3 then
        some (directoryEntry (split name).1 (split name).2 firstCluster size)
      else none := rfl
  rw [unfolded] at written
  split_ifs at written with short
  exact ⟨short, (Option.some.inj written).symm⟩

/-- The table has the chains of the files, and nothing from `next` on. -/
structure Linked (done : List File) (fat : Nat → Nat) (next : Nat) : Prop where
  words : ∀ c, fat c < 2 ^ 16
  links : ∀ j (inside : j < done.length) c, firstOf done j ≤ c →
    c < firstOf done j + clustersFor done[j].data →
    fat c = linkOf (firstOf done j + clustersFor done[j].data) c
  unused : ∀ c, next ≤ c → fat c = 0

/-- The data of the files is in their clusters. -/
def Filled (done : List File) (image : Store) : Prop :=
  ∀ j (inside : j < done.length),
    slice image (clusterAt volume (firstOf done j)) done[j].data.length = done[j].data

/-- The directory has the entries of the files, and zeros after them. -/
structure Entered (done : List File) (directory : Store) : Prop where
  slots : ∀ j (inside : j < done.length), slice directory (directoryEntrySize * j)
    directoryEntrySize = directoryEntry (split done[j].name).1 (split done[j].name).2
      (firstOf done j) done[j].data.length
  blank : ∀ x, directoryEntrySize * done.length ≤ x → directory x = 0

/-- What the loop over the files has done when `done` are behind it. -/
structure Progress (done : List File) (b : Building) : Prop where
  next : b.nextCluster = 2 + total done
  bound : b.nextCluster < 8169
  few : done.length ≤ 512
  short : ∀ f ∈ done, Short f.name
  linked : Linked done b.fat b.nextCluster
  filled : Filled done b.image
  entered : Entered done b.directory
  boots : ∀ x < sectorSize * 97, b.image x = writeBootSector (fun _ => 0) x

private theorem linked_blank : Linked [] Mkfs.blank.fat 2 where
  words c := by
    show Function.update (Function.update (fun _ => 0) 0 0xFFF8) 1 0xFFFF c < 2 ^ 16
    by_cases second : c = 1
    · rw [second, Function.update_self]
      decide
    · rw [Function.update_of_ne second]
      by_cases first : c = 0
      · rw [first, Function.update_self]
        decide
      · rw [Function.update_of_ne first]
        decide
  links j inside := absurd inside (by simp)
  unused c low := by
    show Function.update (Function.update (fun _ => 0) 0 0xFFF8) 1 0xFFFF c = 0
    rw [Function.update_of_ne (by omega), Function.update_of_ne (by omega)]

theorem progress_blank : Progress [] Mkfs.blank where
  next := rfl
  bound := by decide
  few := by decide
  short := by simp
  linked := linked_blank
  filled j inside := absurd inside (by simp)
  entered := ⟨fun j inside => absurd inside (by simp), fun _ _ => rfl⟩
  boots _ _ := rfl

private theorem start_eq (c : Nat) :
    Mkfs.dataStart * Mkfs.sector + (c - 2) * Mkfs.sectorsPerCluster * Mkfs.sector =
      clusterAt volume c := by
  unfold clusterAt Volume.clusterToSector volume sectorSize
  simp only [show Mkfs.dataStart = 97 from rfl, show Mkfs.sector = 512 from rfl,
    show Mkfs.sectorsPerCluster = 4 from rfl]
  omega

private theorem clusterAt_add {c n : Nat} (low : 2 ≤ c) :
    clusterAt volume (c + n) = clusterAt volume c + 2048 * n := by
  rw [← start_eq, ← start_eq]
  simp only [show Mkfs.dataStart = 97 from rfl, show Mkfs.sector = 512 from rfl,
    show Mkfs.sectorsPerCluster = 4 from rfl]
  omega

private theorem data_fits (data : List UInt8) : data.length ≤ 2048 * clustersFor data := by
  unfold clustersFor divCeil
  simp only [show Mkfs.sectorsPerCluster * Mkfs.sector = 2048 from rfl]
  split_ifs
  · omega
  · omega

private theorem snoc_cases {done : List File} {file : File} {motive : Nat → File → Prop}
    (old : ∀ j (inside : j < done.length), motive j done[j]) (new : motive done.length file) :
    ∀ j (inside : j < (done ++ [file]).length), motive j (done ++ [file])[j] := by
  intro j inside
  rcases Nat.lt_or_ge j done.length with low | high
  · rw [List.getElem_append_left low]
    exact old j low
  · obtain rfl : j = done.length := by
      rw [List.length_append, List.length_singleton] at inside
      omega
    rw [List.getElem_concat_length rfl]
    exact new

section OneMore

variable {done : List File} {file : File} {next : Nat}

private theorem firstOf_snoc (file : File) (following : next = 2 + total done) :
    firstOf (done ++ [file]) done.length = next ∧ ∀ j (inside : j < done.length),
      firstOf (done ++ [file]) j = firstOf done j ∧
        firstOf done j + clustersFor done[j].data ≤ next := by
  refine ⟨?_, fun j inside => ⟨firstOf_append (Nat.le_of_lt inside), ?_⟩⟩
  · rw [firstOf_append (Nat.le_refl _), firstOf_length, following]
  · rw [← firstOf_succ inside, following, ← firstOf_length]
    exact firstOf_mono inside

private theorem linked_snoc {fat : Nat → Nat} (following : next = 2 + total done)
    (fits : next + clustersFor file.data < 8169) (linked : Linked done fat next) :
    Linked (done ++ [file]) (chainTogether fat next (clustersFor file.data))
      (next + clustersFor file.data) := by
  obtain ⟨here, before⟩ := firstOf_snoc file following
  refine ⟨fun c => ?_, ?_, fun c above => ?_⟩
  · rw [chainTogether_eq]
    split_ifs with inside
    · unfold linkOf
      split_ifs <;> omega
    · exact linked.words c
  · refine snoc_cases (motive := fun j f => ∀ c, firstOf (done ++ [file]) j ≤ c →
      c < firstOf (done ++ [file]) j + clustersFor f.data →
        chainTogether fat next (clustersFor file.data) c =
          linkOf (firstOf (done ++ [file]) j + clustersFor f.data) c) ?_ ?_
    · intro j inside c from_ below
      obtain ⟨same, ends⟩ := before j inside
      rw [same] at from_ below ⊢
      rw [chainTogether_eq, if_neg (by omega), linked.links j inside c from_ below]
    · intro c from_ below
      rw [here] at from_ below ⊢
      rw [chainTogether_eq, if_pos ⟨from_, below⟩]
  · rw [chainTogether_eq, if_neg (by omega), linked.unused c (by omega)]

private theorem filled_snoc {image : Store} (following : next = 2 + total done)
    (filled : Filled done image) :
    Filled (done ++ [file]) (poke image (clusterAt volume next) file.data) := by
  obtain ⟨here, before⟩ := firstOf_snoc file following
  refine snoc_cases (motive := fun j f =>
    slice (poke image (clusterAt volume next) file.data)
      (clusterAt volume (firstOf (done ++ [file]) j)) f.data.length = f.data) ?_ ?_
  · intro j inside
    obtain ⟨same, ends⟩ := before j inside
    have size := data_fits done[j].data
    have start : 2 ≤ firstOf done j := Nat.le_add_right _ _
    obtain ⟨gap, rfl⟩ : ∃ gap, next = firstOf done j + (clustersFor done[j].data + gap) :=
      ⟨next - (firstOf done j + clustersFor done[j].data), by omega⟩
    have later := clusterAt_add (n := clustersFor done[j].data + gap) start
    rw [same, slice_poke_apart (.inl (by omega)), filled j inside]
  · rw [here, slice_poke_self]

private theorem entered_snoc {directory : Store} (following : next = 2 + total done)
    (short : Short file.name) (entered : Entered done directory) :
    Entered (done ++ [file]) (poke directory (directoryEntrySize * done.length)
      (directoryEntry (split file.name).1 (split file.name).2 next file.data.length)) := by
  obtain ⟨here, before⟩ := firstOf_snoc file following
  have whole := directoryEntry_length short next file.data.length
  refine ⟨?_, fun x above => ?_⟩
  · refine snoc_cases (motive := fun j f => slice (poke directory
      (directoryEntrySize * done.length) (directoryEntry (split file.name).1 (split file.name).2
        next file.data.length)) (directoryEntrySize * j) directoryEntrySize =
          directoryEntry (split f.name).1 (split f.name).2 (firstOf (done ++ [file]) j)
            f.data.length) ?_ ?_
    · intro j inside
      obtain ⟨same, ends⟩ := before j inside
      rw [same, slice_poke_apart (.inl (by unfold directoryEntrySize; omega)),
        entered.slots j inside]
    · have self := slice_poke_self directory (directoryEntrySize * done.length)
        (directoryEntry (split file.name).1 (split file.name).2 next file.data.length)
      rw [whole] at self
      rw [here, self]
  · rw [List.length_append, List.length_singleton] at above
    rw [poke_outside (.inr (by rw [whole]; unfold directoryEntrySize at *; omega)),
      entered.blank x (by unfold directoryEntrySize at *; omega)]

private theorem blank_slot {directory : Store} (entered : Entered done directory) :
    slice directory (directoryEntrySize * done.length) directoryEntrySize =
      List.replicate directoryEntrySize 0 := by
  rw [List.eq_replicate_iff, slice_length]
  refine ⟨rfl, fun x member => ?_⟩
  obtain ⟨i, _, rfl⟩ := List.mem_map.mp member
  exact entered.blank _ (Nat.le_add_right _ _)

end OneMore

theorem addFile_progress {done : List File} {file : File} {b b' : Building}
    (progress : Progress done b) (added : addFile done.length file b = some b') :
    Progress (done ++ [file]) b' := by
  unfold addFile at added
  simp only [start_eq] at added
  split_ifs at added with few fits
  have place : done.length * 32 = directoryEntrySize * done.length := Nat.mul_comm _ _
  have zero : slice b.directory (done.length * 32) 32 = List.replicate directoryEntrySize 0 := by
    rw [place]
    exact blank_slot progress.entered
  rw [zero, place] at added
  cases written : writeDirectoryEntry (List.replicate directoryEntrySize 0) file.name b.nextCluster
      file.data.length with
  | none => simp [written] at added
  | some slot =>
      rw [written] at added
      obtain ⟨short, filled⟩ := writeDirectoryEntry_eq written
      rw [filled] at added
      obtain rfl := Option.some.inj added
      have few : done.length < 512 := few
      have fits : b.nextCluster + clustersFor file.data < 8169 := fits
      exact {
        next := by rw [total_snoc, ← Nat.add_assoc, ← progress.next]
        bound := fits
        few := by rw [List.length_append, List.length_singleton]; exact few
        short := fun f member => by
          rcases List.mem_append.mp member with old | new
          · exact progress.short f old
          · rw [List.mem_singleton.mp new]
            exact short
        linked := linked_snoc progress.next fits progress.linked
        filled := filled_snoc progress.next progress.filled
        entered := entered_snoc progress.next short progress.entered
        boots := fun x below => by
          have start : sectorSize * 97 ≤ clusterAt volume b.nextCluster :=
            clusterAt_start (v := volume) _
          rw [← progress.boots x below]
          exact poke_outside (.inl (by omega)) }

theorem addFiles_progress {done rest : List File} {b b' : Building} (progress : Progress done b)
    (added : addFiles done.length rest b = some b') : Progress (done ++ rest) b' := by
  induction rest generalizing done b with
  | nil =>
      obtain rfl := Option.some.inj added
      rwa [List.append_nil]
  | cons file rest ih =>
      rw [addFiles] at added
      cases one : addFile done.length file b with
      | none => simp [one] at added
      | some b₁ =>
          rw [one] at added
          have step := addFile_progress progress one
          rw [← List.singleton_append, ← List.append_assoc]
          exact ih step (by rw [List.length_append]; exact added)

theorem copyFat_eq (fat : Nat → Nat) (image : Store) (copy : Nat) :
    (∀ c < 8192, slice (copyFat fat image copy) (tableAt volume copy c) 2 = le16 (fat c)) ∧
      ∀ x, x < tableAt volume copy 0 ∨ tableAt volume copy 8192 ≤ x →
        copyFat fat image copy x = image x := by
  have place (c : Nat) : (Mkfs.fatStart + copy * Mkfs.sectorsPerFat) * Mkfs.sector + c * 2 =
      tableAt volume copy c := by
    unfold tableAt volume sectorSize
    simp only [show Mkfs.fatStart = 1 from rfl, show Mkfs.sectorsPerFat = 32 from rfl,
      show Mkfs.sector = 512 from rfl]
    omega
  have apart (c c' : Nat) : tableAt volume copy c' = tableAt volume copy 0 + 2 * c' := rfl
  have rounds : ∀ n, (∀ c < n, slice ((List.range n).foldl (fun image index =>
      poke image (tableAt volume copy index) (le16 (fat index))) image)
        (tableAt volume copy c) 2 = le16 (fat c)) ∧
      ∀ x, x < tableAt volume copy 0 ∨ tableAt volume copy n ≤ x →
        (List.range n).foldl (fun image index =>
          poke image (tableAt volume copy index) (le16 (fat index))) image x = image x := by
    intro n
    induction n with
    | zero => exact ⟨fun c below => absurd below (by omega), fun _ _ => rfl⟩
    | succ n ih =>
        obtain ⟨written, kept⟩ := ih
        rw [List.range_succ, List.foldl_append, List.foldl_cons, List.foldl_nil]
        refine ⟨fun c below => ?_, fun x out => ?_⟩
        · by_cases here : c = n
          · subst here
            exact slice_poke_self _ _ (le16 (fat c))
          · rw [slice_poke_apart, written c (by omega)]
            rw [show (le16 (fat n)).length = 2 from rfl, apart 0 c, apart 0 n]
            omega
        · rw [apart 0 (n + 1)] at out
          rw [poke_outside, kept x]
          · rw [apart 0 n]
            omega
          · rw [show (le16 (fat n)).length = 2 from rfl, apart 0 n]
            omega
  have whole := rounds 8192
  unfold copyFat
  simp only [place]
  exact whole

theorem build_eq {files : List File} {image : Store} (built : build files = some image) :
    ∃ b, Progress files b ∧
      image = poke (copyFat b.fat (copyFat b.fat b.image 0) 1) (slotAt volume 0)
        (slice b.directory 0 16384) := by
  unfold build at built
  split_ifs at built with range
  cases loop : addFiles 0 files Mkfs.blank with
  | none => simp [loop] at built
  | some b =>
      have twice (f : Store → Nat → Store) (start : Store) :
          (List.range Mkfs.fatCount).foldl f start = f (f start 0) 1 := rfl
      simp only [loop, twice, show Mkfs.rootStart * Mkfs.sector = slotAt volume 0 from rfl,
        show Mkfs.rootEntries * 32 = 16384 from rfl, Option.some.injEq] at built
      exact ⟨b, addFiles_progress progress_blank loop, built.symm⟩

theorem volume_sound : Sound volume where
  sector := rfl
  cluster := by decide
  small := by decide
  fatStart := by decide
  copies := by decide
  root := rfl
  data := rfl
  few := by decide
  roomy := by decide

theorem boot_mounted : mount true (writeBootSector fun _ => 0) = .ok volume := by
  have value : (mount true (writeBootSector fun _ => 0)).toOption = some volume := by
    decide +kernel
  cases result : mount true (writeBootSector fun _ => 0) with
  | error e => rw [result] at value; simp [Except.toOption] at value
  | ok v =>
      rw [result] at value
      exact congrArg Except.ok (Option.some.inj value)

theorem build_one {name : List Char} {data : List UInt8} (short : Short name)
    (fits : clustersFor data < 8167) : ∃ image, build [⟨name, data⟩] = some image := by
  have entered : ∃ slot, writeDirectoryEntry (slice Mkfs.blank.directory (0 * 32) 32) name 2
      data.length = some slot := by
    unfold writeDirectoryEntry
    exact ⟨_, if_pos short⟩
  obtain ⟨slot, written⟩ := entered
  have room : 2 + clustersFor data < Mkfs.clusters + 2 := by
    have few : Mkfs.clusters = 8167 := by decide
    omega
  have added : ∃ b, addFile 0 ⟨name, data⟩ Mkfs.blank = some b := by
    unfold addFile
    rw [if_pos (by decide)]
    simp only [show Mkfs.blank.nextCluster = 2 from rfl, if_pos room, written]
    exact ⟨_, rfl⟩
  obtain ⟨b, one⟩ := added
  have loop : addFiles 0 [⟨name, data⟩] Mkfs.blank = some b := by
    rw [addFiles, one]
    rfl
  unfold build
  rw [if_pos (by decide), loop]
  exact ⟨_, rfl⟩

section Built

variable {files : List File} {b : Building} (progress : Progress files b) {image : Store}
  (whole : image = poke (copyFat b.fat (copyFat b.fat b.image 0) 1) (slotAt volume 0)
    (slice b.directory 0 16384))

omit progress in
include whole in
theorem built_outside {x : Nat} (out : x < sectorSize ∨ sectorSize * 97 ≤ x) :
    image x = b.image x := by
  have first := (copyFat_eq b.fat b.image 0).2 x
  have second := (copyFat_eq b.fat (copyFat b.fat b.image 0) 1).2 x
  simp only [tableAt, show volume.fatStart = 1 from rfl, show volume.sectorsPerFat = 32 from rfl,
    sectorSize] at first second out
  rw [whole, poke_outside, second (by omega), first (by omega)]
  rw [slice_length]
  simp only [slotAt, show volume.rootStart = 65 from rfl, sectorSize, directoryEntrySize]
  omega

omit progress in
include whole in
theorem built_slots {i : Nat} (inside : i < 512) :
    slotBytes volume image i = slice b.directory (directoryEntrySize * i) directoryEntrySize := by
  have count : slotCount volume = 512 := by decide
  unfold slotBytes
  rw [if_pos (by omega), whole]
  apply List.ext_getElem (by simp)
  intro k _ bound
  rw [slice_length] at bound
  have place : slotAt volume i + k = slotAt volume 0 + (directoryEntrySize * i + k) := by
    unfold slotAt
    omega
  rw [slice_getElem, slice_getElem, place, poke_inside, slice_getElem, Nat.zero_add]
  rw [slice_length]
  unfold directoryEntrySize at *
  omega

include progress whole

omit progress in
theorem built_words {copy : Nat} (copies : copy < 2) {c : Nat} (inside : c < 8192) :
    slice image (tableAt volume copy c) 2 = le16 (b.fat c) := by
  have below : tableAt volume copy c + 2 ≤ slotAt volume 0 := by
    simp only [tableAt, slotAt, show volume.fatStart = 1 from rfl,
      show volume.sectorsPerFat = 32 from rfl, show volume.rootStart = 65 from rfl, sectorSize]
    omega
  rw [whole, slice_poke_apart (.inl below)]
  obtain ⟨here, kept⟩ := copyFat_eq b.fat (copyFat b.fat b.image 0) 1
  rcases Nat.lt_or_ge copy 1 with first | second
  · obtain rfl : copy = 0 := by omega
    rw [← (copyFat_eq b.fat b.image 0).1 c inside]
    refine slice_congr fun x low high => kept x (.inl ?_)
    simp only [tableAt, show volume.fatStart = 1 from rfl,
      show volume.sectorsPerFat = 32 from rfl, sectorSize] at high ⊢
    omega
  · obtain rfl : copy = 1 := by omega
    exact here c inside

theorem built_mounted : mount true image = .ok volume := by
  have same : boot image = boot (writeBootSector fun _ => 0) := by
    refine slice_congr fun x _ high => ?_
    rw [Nat.zero_add] at high
    rw [built_outside whole (.inl high), progress.boots x (by unfold sectorSize at *; omega)]
  rw [mount_congr same, boot_mounted]

end Built

def cellsOf (files : List File) (j : Nat) : List Nat :=
  if inside : j < files.length then List.range' (firstOf files j) (clustersFor files[j].data)
  else []

private theorem chain_range' {f : Nat → Nat} {first n : Nat} (low : 2 ≤ first)
    (high : first + (n + 1) ≤ 8169)
    (links : ∀ c, first ≤ c → c < first + (n + 1) → f c = linkOf (first + (n + 1)) c) :
    FileChain volume f first (List.range' first (n + 1)) := by
  have inside : Inside volume first := ⟨low, by
    show first < 8167 + 2
    omega⟩
  induction n generalizing first with
  | zero =>
      refine ⟨rfl, inside, ?_⟩
      rw [links first (Nat.le_refl _) (by omega), linkOf, if_pos (by omega)]
      exact show endOfChain ≤ 0xFFFF by decide
  | succ n ih =>
      refine ⟨rfl, inside, ?_⟩
      rw [links first (Nat.le_refl _) (by omega), linkOf, if_neg (by omega)]
      refine ih (by omega) (by omega) (fun c from_ below => ?_) ⟨by omega, ?_⟩
      · rw [links c (by omega) (by omega)]
        congr 1
        omega
      · show first + 1 < 8167 + 2
        omega

/-- What is written for a name is a slot in use that gives the name back. -/
def ReadsBack (name : List Char) : Prop := firstByte name ≠ entryFree ∧ Survives name

instance (name : List Char) : Decidable (ReadsBack name) := inferInstanceAs (Decidable (_ ∧ _))

structure Laid (files : List File) (fat : Nat → Nat) (image : Store) : Prop where
  mounted : mount true image = .ok volume
  room : 2 + total files < 8169
  few : files.length ≤ 512
  short : ∀ f ∈ files, Short f.name
  words : ∀ copy < 2, ∀ c < 8192, slice image (tableAt volume copy c) 2 = le16 (fat c)
  linked : Linked files fat (2 + total files)
  filled : Filled files image
  slots : ∀ j (inside : j < files.length), slotBytes volume image j =
    directoryEntry (split files[j].name).1 (split files[j].name).2 (firstOf files j)
      files[j].data.length
  blank : ∀ j, files.length ≤ j → j < 512 →
    slotBytes volume image j = List.replicate directoryEntrySize 0

theorem Laid.table {files : List File} {fat : Nat → Nat} {image : Store}
    (laid : Laid files fat image) {copy c : Nat} (copies : copy < 2) (inside : c < 8192) :
    table volume image copy c = fat c := by
  have fits : copy < volume.fatCount ∧ 2 * c < sectorSize * volume.sectorsPerFat := by
    simp only [show volume.fatCount = 2 from rfl, show volume.sectorsPerFat = 32 from rfl, sectorSize]
    omega
  have value := le16_value (laid.linked.words c) []
  rw [List.append_nil] at value
  rw [Layout.table, if_pos fits, laid.words copy copies c inside, value]

theorem Laid.copies {files : List File} {fat : Nat → Nat} {image : Store}
    (laid : Laid files fat image) : Reading.read image volume.fatStart volume.sectorsPerFat =
      Reading.read image (volume.fatStart + volume.sectorsPerFat) volume.sectorsPerFat := by
  have pair (m : Store) (a : Nat) : slice m a 2 = [m a, m (a + 1)] := rfl
  refine slice_shift fun i inside => ?_
  have inside : i < 16384 := inside
  have first := laid.words 0 (by decide) (i / 2) (by omega)
  have second := laid.words 1 (by decide) (i / 2) (by omega)
  rw [← second, pair, pair] at first
  obtain ⟨even, odd⟩ := List.cons.inj first
  have odd := (List.cons.inj odd).1
  have start : sectorSize * volume.fatStart = tableAt volume 0 0 := rfl
  have start' : sectorSize * (volume.fatStart + volume.sectorsPerFat) = tableAt volume 1 0 := rfl
  have place (copy c : Nat) : tableAt volume copy c = tableAt volume copy 0 + 2 * c := rfl
  rw [place] at even odd
  rw [place 1] at even odd
  rw [start, start']
  rcases Nat.mod_two_eq_zero_or_one i with low | high
  · rwa [show i = 2 * (i / 2) by omega]
  · rw [Nat.add_assoc, Nat.add_assoc] at odd
    rwa [show i = 2 * (i / 2) + 1 by omega]

section Volume

variable {files : List File} {image : Store} (built : build files = some image)

include built

theorem build_laid : ∃ fat, Laid files fat image := by
  obtain ⟨b, progress, whole⟩ := build_eq built
  have few := progress.few
  have next := progress.next
  refine ⟨b.fat, built_mounted progress whole, by have := progress.bound; omega, few,
    progress.short, fun copy copies c inside => built_words whole copies inside,
    next ▸ progress.linked, ?_, ?_, ?_⟩
  · intro j inside
    have start : sectorSize * 97 ≤ clusterAt volume (firstOf files j) :=
      clusterAt_start (v := volume) _
    rw [← progress.filled j inside, slice_length]
    exact slice_congr fun x low _ => built_outside whole (.inr (by omega))
  · intro j inside
    rw [built_slots whole (by omega), progress.entered.slots j inside]
  · intro j above below
    rw [built_slots whole below, List.eq_replicate_iff, slice_length]
    refine ⟨rfl, fun x member => ?_⟩
    obtain ⟨i, _, rfl⟩ := List.mem_map.mp member
    refine progress.entered.blank _ ?_
    have := Nat.mul_le_mul_left directoryEntrySize above
    omega

omit built in
private theorem firstOf_end {j : Nat} (inside : j < files.length) :
    firstOf files j + clustersFor files[j].data ≤ 2 + total files := by
  rw [← firstOf_succ inside, ← firstOf_length]
  exact firstOf_mono inside

theorem build_entry {j : Nat} (inside : j < files.length) :
    (slotOf volume image j).first = firstByte files[j].name ∧
      (slotOf volume image j).attributes = 0x20 ∧
      entryAt volume image j =
        ⟨stored files[j].name, files[j].data.length, firstOf files j⟩ := by
  obtain ⟨fat, laid⟩ := build_laid built
  have room := laid.room
  have ends := firstOf_end inside
  have size := data_fits files[j].data
  exact written_slot (laid.short _ (List.getElem_mem inside)) (by omega) (by omega)
    (laid.slots j inside)

theorem build_listed (kept : ∀ f ∈ files, ReadsBack f.name) :
    listed volume image = List.range files.length := by
  obtain ⟨fat, laid⟩ := build_laid built
  have few := laid.few
  have member (j : Nat) : j ∈ listed volume image ↔ j < files.length := by
    rw [mem_listed]
    constructor
    · rintro ⟨inside, going, _⟩
      by_contra above
      have zero := laid.blank j (by omega) inside
      refine going j (Nat.le_refl _) ?_
      rw [Slot.first, slotOf, zero]
      rfl
    · intro inside
      have count : slotCount volume = 512 := by decide
      have used (k : Nat) (below : k ≤ j) : (slotOf volume image k).first ≠ entryFree := by
        rw [(build_entry built (show k < files.length by omega)).1]
        exact (kept _ (List.getElem_mem _)).1
      obtain ⟨first, attributes, _⟩ := build_entry built inside
      refine ⟨by omega, used, ?_, ?_, ?_⟩
      · rw [first]
        exact firstByte_of_survives (laid.short _ (List.getElem_mem inside))
          (kept _ (List.getElem_mem inside)).2
      · rw [attributes]
        decide
      · rw [attributes]
        decide
  have sorted : (listed volume image).Pairwise (· < ·) :=
    List.Pairwise.filter _ (List.Pairwise.sublist (List.takeWhile_sublist _) List.pairwise_lt_range)
  exact sorted.eq_of_mem_iff List.pairwise_lt_range fun j => by rw [member, List.mem_range]

theorem build_holds (kept : ∀ f ∈ files, ReadsBack f.name) :
    Holds volume image (cellsOf files) := by
  obtain ⟨fat, laid⟩ := build_laid built
  have room := laid.room
  have members (j : Nat) : j ∈ listed volume image ↔ j < files.length := by
    rw [build_listed built kept, List.mem_range]
  have cells {j : Nat} (inside : j < files.length) : cellsOf files j =
      List.range' (firstOf files j) (clustersFor files[j].data) := dif_pos inside
  have copied {c : Nat} (below : c < 8169) : table volume image 0 c = fat c :=
    laid.table (by decide) (by omega)
  refine ⟨laid.mounted, by decide, ?_, ?_, ?_, ?_, ?_, ?_⟩
  · intro i j below inside free
    have above : files.length ≤ i := by
      by_contra used
      have entry := (build_entry built (Nat.lt_of_not_le used)).1
      exact (kept _ (List.getElem_mem _)).1 (entry.symm.trans free)
    exact laid.blank j (by omega) inside
  · intro copy copies
    funext c
    by_cases inside : 2 * c < sectorSize * volume.sectorsPerFat
    · have inside : c < 8192 := by
        simp only [sectorSize, show volume.sectorsPerFat = 32 from rfl] at inside
        omega
      rw [laid.table copies inside, laid.table (by decide) inside]
    · rw [table, if_neg (fun both => inside both.2), table, if_neg (fun both => inside both.2)]
  · intro j member
    have inside := (members j).mp member
    have ends := firstOf_end inside
    have start : 2 ≤ firstOf files j := Nat.le_add_right _ _
    rw [(build_entry built inside).2.2, cells inside]
    obtain ⟨n, some⟩ : ∃ n, clustersFor files[j].data = n + 1 :=
      ⟨clustersFor files[j].data - 1, by have := clustersFor_pos files[j].data; omega⟩
    rw [some] at ends ⊢
    have chain := chain_range' start (by omega) (some ▸ laid.linked.links j inside)
    refine .inr (chain.congr fun c member => ?_)
    rw [List.mem_range'_1] at member
    exact copied (by omega)
  · intro j member
    have inside := (members j).mp member
    rw [(build_entry built inside).2.2, cells inside, List.length_range', Nat.mul_comm]
    exact data_fits files[j].data
  · intro i first j second different c member other
    have inside := (members i).mp first
    have inside' := (members j).mp second
    rw [cells inside, List.mem_range'_1, ← firstOf_succ inside] at member
    rw [cells inside', List.mem_range'_1, ← firstOf_succ inside'] at other
    rcases Nat.lt_or_gt_of_ne different with below | below
    · have order : firstOf files (i + 1) ≤ firstOf files j := firstOf_mono below
      omega
    · have order : firstOf files (j + 1) ≤ firstOf files i := firstOf_mono below
      omega
  · intro c inside
    have inside : 2 ≤ c ∧ c < 8169 := inside
    rw [copied inside.2]
    constructor
    · intro used
      have below : c < firstOf files files.length := by
        rw [firstOf_length]
        by_contra above
        exact used (laid.linked.unused c (by omega))
      obtain ⟨j, within, low, high⟩ := firstOf_covers inside.1 (Nat.le_refl _) below
      refine ⟨j, (members j).mpr within, ?_⟩
      rw [cells within, List.mem_range'_1]
      exact ⟨low, high⟩
    · rintro ⟨j, member, held⟩
      have within := (members j).mp member
      rw [cells within, List.mem_range'_1] at held
      rw [laid.linked.links j within c held.1 held.2]
      exact linkOf_ne_zero _ _

omit built in
private theorem clusters_slice (image : Store) {first n : Nat} (low : 2 ≤ first)
    (high : first + n ≤ 8169) : (List.range' first n).flatMap (clusterData volume image) =
      slice image (clusterAt volume first) (2048 * n) := by
  induction n generalizing first with
  | zero => rfl
  | succ n ih =>
      have inside : Inside volume first := ⟨low, by
        show first < 8167 + 2
        omega⟩
      have next := clusterAt_add (n := 1) low
      rw [List.range'_succ, List.flatMap_cons, ih (by omega) (by omega), clusterData,
        if_pos inside, next, show volume.clusterBytes = 2048 from rfl, ← slice_append]
      congr 1
      omega

theorem build_content (kept : ∀ f ∈ files, ReadsBack f.name) {j : Nat} (inside : j < files.length) :
    volume.readFile image (entryAt volume image j) = .ok files[j].data := by
  obtain ⟨fat, laid⟩ := build_laid built
  have room := laid.room
  have member : j ∈ listed volume image := by
    rw [build_listed built kept]
    exact List.mem_range.mpr inside
  have ends := firstOf_end inside
  have size := data_fits files[j].data
  rw [(build_holds built kept).readFile member, content, cellsOf, dif_pos inside,
    clusters_slice image (show 2 ≤ firstOf files j from Nat.le_add_right _ _) (by omega),
    (build_entry built inside).2.2]
  have part := slice_part (m := image) (a := clusterAt volume (firstOf files j)) (i := 0)
    (k := files[j].data.length) (n := 2048 * clustersFor files[j].data) (by omega)
  rw [List.drop_zero, Nat.add_zero] at part
  rw [part, laid.filled j inside]

theorem build_free : countFree volume image + total files = 8167 := by
  obtain ⟨fat, laid⟩ := build_laid built
  have room := laid.room
  have split : List.range' 2 8167 =
      List.range' 2 (total files) ++ List.range' (2 + total files) (8167 - total files) := by
    have whole : List.range' 2 (total files) ++
        List.range' (2 + 1 * total files) (8167 - total files) =
          List.range' 2 (total files + (8167 - total files)) :=
      List.range'_append
    rw [Nat.one_mul, show total files + (8167 - total files) = 8167 by omega] at whole
    exact whole.symm
  have taken : (List.range' 2 (total files)).filter (fun c => table volume image 0 c = 0) = [] := by
    rw [List.filter_eq_nil_iff]
    intro c member
    rw [List.mem_range'_1] at member
    have below : c < firstOf files files.length := by
      rw [firstOf_length]
      exact member.2
    obtain ⟨j, inside, low, high⟩ := firstOf_covers member.1 (Nat.le_refl _) below
    rw [decide_eq_true_iff, laid.table (by decide) (by omega), laid.linked.links j inside c low high]
    exact linkOf_ne_zero _ _
  have free : (List.range' (2 + total files) (8167 - total files)).filter
      (fun c => table volume image 0 c = 0) =
        List.range' (2 + total files) (8167 - total files) := by
    rw [List.filter_eq_self]
    intro c member
    rw [List.mem_range'_1] at member
    rw [decide_eq_true_iff, laid.table (by decide) (by omega), laid.linked.unused c member.1]
  have cells : freeCells volume (table volume image 0) 2 =
      (List.range' 2 8167).filter fun c => table volume image 0 c = 0 := rfl
  rw [countFree_eq volume_sound, cells, split, List.filter_append, taken, free, List.nil_append,
    List.length_range']
  omega

theorem build_list (kept : ∀ f ∈ files, ReadsBack f.name) :
    List.Forall₂ (fun (e : Entry) (f : File) =>
      eqIgnoreAsciiCase e.name f.name = true ∧ e.size = f.data.length)
        (volume.list image) files := by
  have listing : volume.list image = (List.range files.length).map (entryAt volume image) := by
    rw [list_eq, build_listed built kept]
  rw [listing]
  refine List.forall₂_iff_get.mpr ⟨by rw [List.length_map, List.length_range],
    fun i first inside => ?_⟩
  have entry := (build_entry built inside).2.2
  have survives := eqIgnoreAsciiCase_iff.mp (kept _ (List.getElem_mem inside)).2
  simp only [List.get_eq_getElem, List.getElem_map, List.getElem_range, entry,
    eqIgnoreAsciiCase_iff, survives, and_self]

theorem build_found (kept : ∀ f ∈ files, ReadsBack f.name)
    (distinct : files.Pairwise fun f g => eqIgnoreAsciiCase f.name g.name = false) {i : Nat}
    (inside : i < files.length) :
    volume.find image files[i].name = .ok (entryAt volume image i) := by
  have listing := build_listed built kept
  have survives (j : Nat) (within : j < files.length) :
      Matching volume image files[i].name j ↔
        eqIgnoreAsciiCase files[j].name files[i].name = true := by
    have same := eqIgnoreAsciiCase_iff.mp (kept _ (List.getElem_mem within)).2
    rw [Matching, (build_entry built within).2.2, eqIgnoreAsciiCase_iff, eqIgnoreAsciiCase_iff,
      same]
  refine find_unique ?_ ((survives i inside).mpr (eqIgnoreAsciiCase_iff.mpr rfl)) ?_
  · rw [listing]
    exact List.mem_range.mpr inside
  · intro j listed matching
    rw [listing] at listed
    have within := List.mem_range.mp listed
    have same := (survives j within).mp matching
    rw [List.pairwise_iff_getElem] at distinct
    rcases Nat.lt_trichotomy j i with below | equal | above
    · rw [distinct j i within inside below] at same
      exact absurd same (by decide)
    · exact equal
    · have back : eqIgnoreAsciiCase files[i].name files[j].name = true :=
        eqIgnoreAsciiCase_iff.mpr (eqIgnoreAsciiCase_iff.mp same).symm
      rw [distinct i j inside within above] at back
      exact absurd back (by decide)

omit built in
private theorem total_eq (files : List File) :
    total files = (files.map fun f => max 1 (divCeil f.data.length 2048)).sum := by
  unfold total
  congr 1
  apply List.map_congr_left
  intro f _
  exact Nat.max_comm _ _

/-- What is built reads back: the files are listed in order with their sizes, each is found under
its name with its data wherever the kernel heap has room for it, the copies of the table are equal,
and every other cluster is free. -/
theorem image_reads_back (kept : ∀ f ∈ files, ReadsBack f.name)
    (distinct : files.Pairwise fun f g => eqIgnoreAsciiCase f.name g.name = false) :
    ∃ v, mount true image = .ok v ∧
      (∃ entries, (∀ heap, Lists heap files.length →
          (Allocating.list v image).run heap = some (.ok entries)) ∧
        List.Forall₂ (fun (e : Entry) (f : File) =>
          eqIgnoreAsciiCase e.name f.name = true ∧ e.size = f.data.length) entries files) ∧
      (∀ f ∈ files, ∀ heap, Lists heap files.length → Takes heap f.data.length →
        ∃ e, (Allocating.find v image (bytes f.name)).run heap = some (.ok e) ∧
          (Allocating.readFile v image e).run heap = some (.ok f.data)) ∧
      Reading.read image v.fatStart v.sectorsPerFat =
        Reading.read image (v.fatStart + v.sectorsPerFat) v.sectorsPerFat ∧
      countFree v image + (files.map fun f => max 1 (divCeil f.data.length 2048)).sum = 8167 := by
  obtain ⟨fat, laid⟩ := build_laid built
  have listed := build_list built kept
  have length : (volume.list image).length = files.length := listed.length_eq
  refine ⟨volume, laid.mounted, ⟨_, fun heap lists => list_run (by rwa [length]), listed⟩, ?_,
    laid.copies, ?_⟩
  · intro f member heap lists takes
    obtain ⟨i, inside, rfl⟩ := List.getElem_of_mem member
    refine ⟨entryAt volume image i, ?_, ?_⟩
    · rw [find_run (by rwa [length]), build_found built kept distinct inside]
    · have size : (entryAt volume image i).size = files[i].data.length := by
        rw [(build_entry built inside).2.2]
      rw [readFile_run (by rwa [size]), build_content built kept inside]
  · rw [← total_eq]
    exact build_free built

end Volume

theorem volume_of_one (data : List UInt8) (fits : clustersFor data < 8167) :
    ∃ disk, Consistent volume disk ∧ countFree volume disk + clustersFor data = 8167 ∧
      (volume.list disk).length = 1 ∧ ∀ name, ∃ place, directorySlot volume disk name = .ok place := by
  have possible : ∃ disk, build [⟨"BIG".toList, data⟩] = some disk := build_one (by decide) fits
  obtain ⟨disk, built⟩ := possible
  have kept : ∀ f ∈ [(⟨"BIG".toList, data⟩ : File)], ReadsBack f.name := by
    intro f member
    have back : ReadsBack "BIG".toList := by decide +kernel
    rw [List.mem_singleton.mp member]
    exact back
  have free := build_free built
  have all : total [⟨"BIG".toList, data⟩] = clustersFor data := by
    rw [total, List.map_singleton, List.sum_singleton]
  obtain ⟨_, laid⟩ := build_laid built
  refine ⟨disk, ⟨_, build_holds built kept⟩, by omega, (build_list built kept).length_eq,
    fun name => ?_⟩
  have chosen := directorySlot_chosen volume disk name
  cases outcome : directorySlot volume disk name with
  | ok place => exact ⟨place, rfl⟩
  | error _ =>
      rw [outcome] at chosen
      cases chosen with
      | full used _ =>
          refine absurd (.inl ?_) (used 1 (by decide))
          rw [Slot.first, slotOf, laid.blank 1 (Nat.le_refl _) (by decide)]
          rfl

private def twoFiles : List File :=
  [⟨"hello.txt".toList, List.replicate 3000 7⟩, ⟨"EMPTY".toList, []⟩]

private def roomy : Request → Bool
  | .contents size => decide (size ≤ heapSize)
  | _ => true

theorem image_reads_back_two : ∃ image v, build twoFiles = some image ∧
    mount true image = .ok v ∧
    (∀ f ∈ twoFiles, ∃ e, (Allocating.find v image (bytes f.name)).run roomy = some (.ok e) ∧
      (Allocating.readFile v image e).run roomy = some (.ok f.data)) ∧
    countFree v image = 8164 := by
  have accepted : (build twoFiles).isSome = true := by decide +kernel
  obtain ⟨image, built⟩ := Option.isSome_iff_exists.mp accepted
  obtain ⟨v, mounted, _, found, _, free⟩ := image_reads_back built (by decide +kernel)
    (by decide +kernel)
  have taken : (twoFiles.map fun f => max 1 (divCeil f.data.length 2048)).sum = 3 := by
    decide +kernel
  have small : ∀ f ∈ twoFiles, f.data.length ≤ heapSize := by decide +kernel
  exact ⟨image, v, built, mounted, fun f member => found f member roomy (fun _ _ => rfl)
    fun _ => ⟨decide_eq_true (small f member), fun _ _ => rfl⟩, by omega⟩

theorem stored_alone {name : List Char} {data : List UInt8} (short : Short name)
    (back : ReadsBack name) (fits : clustersFor data < 8167) :
    ∃ image v e, build [⟨name, data⟩] = some image ∧ mount true image = .ok v ∧
      v.find image name = .ok e ∧ e.size = data.length ∧ v.readFile image e = .ok data := by
  obtain ⟨image, built⟩ := build_one short fits
  have kept : ∀ f ∈ [(⟨name, data⟩ : File)], ReadsBack f.name := fun f member => by
    rwa [List.mem_singleton.mp member]
  obtain ⟨fat, laid⟩ := build_laid built
  refine ⟨image, volume, entryAt volume image 0, built, laid.mounted,
    build_found built kept (List.pairwise_singleton _ _) Nat.one_pos, ?_,
    build_content built kept Nat.one_pos⟩
  rw [(build_entry built Nat.one_pos).2.2]
  rfl

private theorem long_not_read {data : List UInt8} (fits : clustersFor data < 8167)
    (long : heapSize < data.length) :
    ∃ image v e, build [⟨"BIG".toList, data⟩] = some image ∧ mount true image = .ok v ∧
      v.find image "BIG".toList = .ok e ∧
      ∀ heap : Request → Bool, (∀ size, heap (.contents size) = true → size ≤ heapSize) →
        (Allocating.readFile v image e).run heap = none := by
  have short : Short "BIG".toList := by decide
  have back : ReadsBack "BIG".toList := by decide +kernel
  obtain ⟨image, v, e, built, mounted, found, size, -⟩ := stored_alone short back fits
  refine ⟨image, v, e, built, mounted, found, fun heap limit => ?_⟩
  refine readFile_stops (by omega) ?_
  rw [size, ← Bool.not_eq_true]
  exact fun granted => absurd (limit _ granted) (Nat.not_le.mpr long)

/-- `mkfs` takes a file of three megabytes; no heap of two has room for its contents. -/
theorem large_not_read :
    (∀ heap live, Reachable heap live → ∀ block ∈ live, block.2.size ≤ heapSize) ∧
    ReadsBack "BIG".toList ∧ ∃ image v e,
      build [⟨"BIG".toList, List.replicate 3145728 0⟩] = some image ∧ mount true image = .ok v ∧
      v.find image "BIG".toList = .ok e ∧
      ∀ heap : Request → Bool, (∀ size, heap (.contents size) = true → size ≤ heapSize) →
        (Allocating.readFile v image e).run heap = none := by
  have length : (List.replicate 3145728 (0 : UInt8)).length = 3145728 := List.length_replicate
  refine ⟨fun heap live run block member => live_within run member, by decide +kernel,
    long_not_read ?_ ?_⟩
  · rw [clustersFor, length]
    decide
  · rw [length]
    decide

end FiveAM.Fat.Image
