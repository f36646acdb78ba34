/- GID: FiveAM/Fat/Confinement
   source: kernel/src/fat.rs
   digest: Where create and remove write, whatever the table and the directory say. -/

import FiveAM.Fat.Creating
import FiveAM.Fat.Damaged

set_option autoImplicit false
set_option relaxedAutoImplicit false

namespace FiveAM.Fat.Confinement

open FiveAM.Lib.ByteRegions FiveAM.Fat.Reading FiveAM.Fat.Writing FiveAM.Fat.Layout
open FiveAM.Fat.Geometry FiveAM.Fat.Tables FiveAM.Fat.Creating
open FiveAM.Fat.Directory (slotOf)

section Writes

def replay (disk : Store) (writes : List Write) : Store :=
  writes.foldl (fun m w => poke m (sectorSize * w.lba) w.buffer) disk

def InDirectory (v : Volume) (w : Write) : Prop :=
  w.buffer.length = sectorSize ∧ v.rootStart ≤ w.lba ∧ w.lba < v.dataStart

def InFree (v : Volume) (start : Store) (w : Write) : Prop :=
  ∃ c, Inside v c ∧ table v start 0 c = 0 ∧ v.clusterToSector c ≤ w.lba ∧
    sectorSize * w.lba + w.buffer.length ≤
      sectorSize * (v.clusterToSector c + v.sectorsPerCluster)

/-- A sector of the table in which only entries of clusters on the volume change. -/
def InTable (v : Volume) (disk : Store) (w : Write) : Prop :=
  w.buffer.length = sectorSize ∧ ∃ copy < v.fatCount, (tableCopy v copy).Holds w.lba ∧
    ∀ x, poke disk (sectorSize * w.lba) w.buffer x ≠ disk x →
      ∃ c, Inside v c ∧ (x = tableAt v copy c ∨ x = tableAt v copy c + 1)

/-- A write to a disk that was `start` when the operation began. -/
def Proper (v : Volume) (start disk : Store) (w : Write) : Prop :=
  InDirectory v w ∨ InFree v start w ∨ InTable v disk w

/-- Every write of a sequence is proper where it is made. -/
def Confined (v : Volume) (start : Store) : Store → List Write → Prop
  | _, [] => True
  | disk, w :: rest =>
      Proper v start disk w ∧ Confined v start (poke disk (sectorSize * w.lba) w.buffer) rest

theorem confined_append {v : Volume} {start disk : Store} {first rest : List Write} :
    Confined v start disk (first ++ rest) ↔
      Confined v start disk first ∧ Confined v start (replay disk first) rest := by
  induction first generalizing disk with
  | nil => simp [Confined, replay]
  | cons w first ih => simp only [List.cons_append, Confined, ih, replay, List.foldl_cons, and_assoc]

/-- A step from one state of the drive to another makes writes that are proper exactly under a
condition. -/
def Adds (v : Volume) (start : Store) (d d' : Drive) (condition : Prop) : Prop :=
  ∃ new, d'.writes = d.writes ++ new ∧ d'.contents = replay d.contents new ∧
    (Confined v start d.contents new ↔ condition)

namespace Adds

variable {v : Volume} {start : Store} {d d' d'' : Drive} {P Q : Prop}

theorem refl : Adds v start d d True := ⟨[], by simp, rfl, Iff.rfl⟩

theorem trans (first : Adds v start d d' P) (second : Adds v start d' d'' Q) :
    Adds v start d d'' (P ∧ Q) := by
  obtain ⟨new, writes, contents, confined⟩ := first
  obtain ⟨new', writes', contents', confined'⟩ := second
  refine ⟨new ++ new', by rw [writes', writes, List.append_assoc], ?_, ?_⟩
  · rw [contents', contents, replay, replay, replay, List.foldl_append]
  · rw [confined_append, confined, ← contents, confined']

theorem congr (adds : Adds v start d d' P) (same : P ↔ Q) : Adds v start d d' Q := by
  obtain ⟨new, writes, contents, confined⟩ := adds
  exact ⟨new, writes, contents, confined.trans same⟩

theorem confined_iff {disk : Store} (adds : Adds v start ⟨disk, []⟩ d' P) :
    Confined v start disk d'.writes ↔ P := by
  obtain ⟨new, writes, -, confined⟩ := adds
  rw [writes, List.nil_append]
  exact confined

theorem write (lba : Nat) (buffer : List UInt8) :
    Adds v start d (d.write lba buffer) (Proper v start d.contents ⟨lba, buffer⟩) :=
  ⟨[⟨lba, buffer⟩], rfl, rfl, by simp [Confined]⟩

end Adds

end Writes

section Entries

/-- Setting the entry a number has in a copy of the table does no harm: its place is in the
directory, in a cluster that was free, the entry of a cluster on the volume, or holds the
value already. -/
def Harmless (v : Volume) (start disk : Store) (cluster copy value : Nat) : Prop :=
  let place := tableAt v copy cluster
  (v.rootStart ≤ place / sectorSize ∧ place / sectorSize < v.dataStart) ∨
  (∃ c, Inside v c ∧ table v start 0 c = 0 ∧ (sectorsOf v c).Holds (place / sectorSize)) ∨
  ∃ copy' < v.fatCount, (tableCopy v copy').Holds (place / sectorSize) ∧
    ((∃ c, Inside v c ∧ tableAt v copy' c = place) ∨ slice disk place 2 = le16 value)

variable {v : Volume} {start disk : Store}

private theorem unchanged_iff {disk : Store} {place : Nat} {word : List UInt8}
    (two : word.length = 2) : slice disk place 2 = word ↔ poke disk place word = disk := by
  constructor
  · rintro rfl
    exact poke_slice_self disk place 2
  · intro same
    have word_slice := slice_poke_self disk place word
    rwa [same, two] at word_slice

private theorem place_sector (sound : Sound v) (cluster copy : Nat) :
    (fatEntryLocation v cluster).1 + copy * v.sectorsPerFat = tableAt v copy cluster / sectorSize ∧
      tableAt v copy cluster % sectorSize + 2 ≤ sectorSize ∧
      (fatEntryLocation v cluster).2 = tableAt v copy cluster % sectorSize := by
  have split := Nat.div_add_mod (cluster * 2) sectorSize
  unfold fatEntryLocation tableAt
  rw [sound.sector]
  unfold sectorSize at *
  dsimp only
  refine ⟨?_, ?_, ?_⟩ <;> omega

private theorem changes_iff {disk : Store} {place : Nat} {word : List UInt8}
    (two : word.length = 2) (even : place % 2 = 0) (copy : Nat) :
    (∀ x, poke disk place word x ≠ disk x →
        ∃ c, Inside v c ∧ (x = tableAt v copy c ∨ x = tableAt v copy c + 1)) ↔
      (∃ c, Inside v c ∧ tableAt v copy c = place) ∨ slice disk place 2 = word := by
  have parity : ∀ c, tableAt v copy c % 2 = 0 := fun c => by
    unfold tableAt sectorSize
    omega
  have within : ∀ x, poke disk place word x ≠ disk x → x = place ∨ x = place + 1 := by
    intro x changed
    by_contra apart
    exact changed (poke_outside (by omega))
  rw [unchanged_iff two]
  constructor
  · intro explained
    by_cases same : poke disk place word = disk
    · exact .inr same
    · obtain ⟨x, changed⟩ := Function.ne_iff.mp same
      obtain ⟨c, inside, here⟩ := explained x changed
      have there := within x changed
      have parity := parity c
      exact .inl ⟨c, inside, by omega⟩
  · rintro (⟨c, inside, rfl⟩ | same) x changed
    · exact ⟨c, inside, within x changed⟩
    · exact absurd (congrFun same x) changed

theorem entry_proper_iff (sound : Sound v) (d : Drive) (cluster copy value : Nat) :
    Proper v start d.contents ⟨(fatEntryLocation v cluster).1 + copy * v.sectorsPerFat,
        splice (Reading.read d.contents
          ((fatEntryLocation v cluster).1 + copy * v.sectorsPerFat) 1)
          (fatEntryLocation v cluster).2 (le16 value)⟩ ↔
      Harmless v start d.contents cluster copy value := by
  set target := (fatEntryLocation v cluster).1 + copy * v.sectorsPerFat
  obtain ⟨sector, within, offset⟩ := place_sector sound cluster copy
  have length : (splice (Reading.read d.contents target 1) (fatEntryLocation v cluster).2
      (le16 value)).length = sectorSize := by
    have whole : (Reading.read d.contents target 1).length = sectorSize := by
      simp [Reading.read]
    rw [splice_length (by rw [whole, offset]; exact within), whole]
  have poked : poke d.contents (sectorSize * target) (splice (Reading.read d.contents target 1)
      (fatEntryLocation v cluster).2 (le16 value)) =
        poke d.contents (tableAt v copy cluster) (le16 value) :=
    write_entry sound d cluster copy (le16 value) rfl
  have even : tableAt v copy cluster % 2 = 0 := by
    unfold tableAt sectorSize
    omega
  refine or_congr ?_ (or_congr ?_ ?_)
  · simp only [InDirectory, length, true_and]
    rw [show target = tableAt v copy cluster / sectorSize from sector]
  · refine exists_congr fun c => and_congr_right fun _ => and_congr_right fun _ => ?_
    simp only [length, sectorsOf, FiveAM.Lib.Extents.Extent.Holds,
      FiveAM.Lib.Extents.Extent.stop]
    rw [show target = tableAt v copy cluster / sectorSize from sector]
    unfold sectorSize
    omega
  · simp only [InTable, length, true_and, poked, changes_iff (show (le16 value).length = 2 from rfl) even]
    rw [show target = tableAt v copy cluster / sectorSize from sector]

variable (start) in
theorem setFatEntry_adds (sound : Sound v) (d : Drive) (cluster value : Nat) :
    Adds v start d (setFatEntry v cluster value d)
      (∀ copy < v.fatCount, Harmless v start d.contents cluster copy value) := by
  have long : 0 < v.sectorsPerFat := by
    have roomy := sound.roomy
    unfold sectorSize at roomy
    omega
  have rounds : ∀ n d', d' = (List.range n).foldl (fun d copy =>
      d.write ((fatEntryLocation v cluster).1 + copy * v.sectorsPerFat)
        (splice (Reading.read d.contents
          ((fatEntryLocation v cluster).1 + copy * v.sectorsPerFat) 1)
          (fatEntryLocation v cluster).2 (le16 value))) d →
      Adds v start d d' (∀ copy < n, Harmless v start d.contents cluster copy value) ∧
        ∀ copy, n ≤ copy → slice d'.contents (tableAt v copy cluster) 2 =
          slice d.contents (tableAt v copy cluster) 2 := by
    intro n
    induction n with
    | zero =>
        rintro d' rfl
        exact ⟨Adds.refl.congr (by simp), fun _ _ => rfl⟩
    | succ n ih =>
        rintro d' rfl
        obtain ⟨adds, same⟩ := ih _ rfl
        rw [List.range_succ, List.foldl_append, List.foldl_cons, List.foldl_nil]
        constructor
        · refine (adds.trans (Adds.write _ _)).congr ?_
          rw [entry_proper_iff sound]
          simp only [Harmless, same n (Nat.le_refl n)]
          exact Nat.forall_lt_succ_right.symm
        · intro copy later
          rw [write_entry sound _ _ _ _ rfl, slice_poke_apart, same copy (by omega)]
          have apart := table_apart (v := v) (show n < copy by omega)
          right
          unfold tableAt sectorSize
          simp only [show (le16 value).length = 2 from rfl]
          omega
  exact (rounds v.fatCount _ rfl).1

theorem harmless_inside (sound : Sound v) {cluster copy value : Nat} (inside : Inside v cluster)
    (copies : copy < v.fatCount) : Harmless v start disk cluster copy value := by
  refine .inr (.inr ⟨copy, copies, ?_, .inl ⟨cluster, inside, rfl⟩⟩)
  have listed := sound.listed inside
  simp only [tableCopy, FiveAM.Lib.Extents.Extent.Holds, FiveAM.Lib.Extents.Extent.stop, tableAt]
  unfold sectorSize at *
  omega

end Entries

section Storing

variable {v : Volume} {start : Store}

/-- The disk with the entry of a number set in every copy of the table. -/
def entered (v : Volume) (value : Nat) (disk : Store) (cluster : Nat) : Store :=
  (List.range v.fatCount).foldl (fun m copy => poke m (tableAt v copy cluster) (le16 value)) disk

/-- The disk with data in some clusters, from the `index`-th part on. -/
def filled (v : Volume) (data : List UInt8) (cells : List Nat) (index : Nat) (disk : Store) :
    Store :=
  (cells.zipIdx index).foldl
    (fun m p => poke m (sectorSize * v.clusterToSector p.1) (chunk data v.clusterBytes p.2)) disk

/-- The disk with some clusters linked in every copy of the table. -/
def linked (v : Volume) : List Nat → Store → Store
  | [], disk => disk
  | c :: rest, disk => entered v (rest.headD 0xFFFF) (linked v rest disk) c

/-- The disk with data in a chain of the first clusters that are free. -/
def stored (v : Volume) (data : List UInt8) (disk : Store) : Store :=
  let cells := fresh v disk data
  linked v cells (filled v data cells 0 (cells.foldl (entered v 0xFFFF) disk))

theorem setFatEntry_contents (sound : Sound v) (d : Drive) (cluster value : Nat) :
    (setFatEntry v cluster value d).contents = entered v value d.contents cluster := by
  unfold setFatEntry entered
  simp only
  induction List.range v.fatCount generalizing d with
  | nil => rfl
  | cons copy rest ih =>
      rw [List.foldl_cons, List.foldl_cons, ih, write_entry sound _ _ _ _ rfl]

private theorem reserve_contents (sound : Sound v) {needed after : Nat} {d d' : Drive}
    {chain : List Nat} (claimed : reserve v needed after d = (.ok chain, d')) :
    d'.contents = chain.foldl (entered v 0xFFFF) d.contents := by
  induction needed generalizing after d chain with
  | zero =>
      obtain ⟨first, rfl⟩ := Prod.mk.inj claimed
      obtain rfl := Except.ok.inj first
      rfl
  | succ needed ih =>
      rw [reserve] at claimed
      cases found : findFreeCluster v d.contents after with
      | error e => simp [found] at claimed
      | ok c =>
          simp only [found] at claimed
          rcases later : reserve v needed (c + 1) (setFatEntry v c 0xFFFF d) with ⟨r, d₁⟩
          rw [later] at claimed
          cases r with
          | error e => simp at claimed
          | ok rest =>
              obtain ⟨first, rfl⟩ := Prod.mk.inj claimed
              obtain rfl := Except.ok.inj first
              rw [ih later, setFatEntry_contents sound, List.foldl_cons]

private theorem fill_contents (data : List UInt8) (cells : List Nat) (index : Nat) (d : Drive) :
    (fill v data cells index d).contents = filled v data cells index d.contents := by
  induction cells generalizing index d with
  | nil => rfl
  | cons c rest ih => exact ih (index + 1) _

private theorem link_contents (sound : Sound v) (cells : List Nat) (d : Drive) :
    (link v cells d).contents = linked v cells d.contents := by
  induction cells with
  | nil => rfl
  | cons c rest ih => rw [link, linked, setFatEntry_contents sound, ih]

variable (start) in
private theorem setInside_adds (sound : Sound v) (d : Drive) {cluster : Nat} (value : Nat)
    (inside : Inside v cluster) : Adds v start d (setFatEntry v cluster value d) True :=
  (setFatEntry_adds start sound d cluster value).congr
    (iff_true_intro fun _ copies => harmless_inside sound inside copies)

variable (start) in
theorem reserve_adds (sound : Sound v) (needed from_ : Nat) (d : Drive) :
    Adds v start d (reserve v needed from_ d).2 True := by
  induction needed generalizing from_ d with
  | zero => exact Adds.refl
  | succ needed ih =>
      rw [reserve, findFreeCluster_eq sound]
      cases cells : freeCells v (table v d.contents 0) from_ with
      | nil => exact Adds.refl
      | cons c rest =>
          have member : c ∈ freeCells v (table v d.contents 0) from_ := by simp [cells]
          have claimed := setInside_adds start sound d 0xFFFF
            (mem_freeCells.mp member).1
          have whole := (claimed.trans (ih (c + 1) (setFatEntry v c 0xFFFF d))).congr (and_self_iff)
          rcases outcome : reserve v needed (c + 1) (setFatEntry v c 0xFFFF d) with ⟨r, d'⟩
          rw [outcome] at whole
          simp only [outcome]
          cases r with
          | error e => exact whole
          | ok chain => exact whole

private theorem chunk_length (data : List UInt8) (size index : Nat) :
    (chunk data size index).length = size := by
  unfold chunk
  rw [List.length_append, List.length_replicate, List.length_take]
  omega

theorem fill_adds (sound : Sound v) (data : List UInt8) {cells : List Nat}
    (free : ∀ c ∈ cells, Inside v c ∧ table v start 0 c = 0) (index : Nat) (d : Drive) :
    Adds v start d (fill v data cells index d) True := by
  induction cells generalizing index d with
  | nil => exact Adds.refl
  | cons c rest ih =>
      obtain ⟨inside, unused⟩ := free c List.mem_cons_self
      have proper : Proper v start d.contents
          ⟨v.clusterToSector c, chunk data v.clusterBytes index⟩ := by
        refine .inr (.inl ⟨c, inside, unused, Nat.le_refl _, ?_⟩)
        simp only [chunk_length, sound.clusterBytes_eq, Nat.mul_add]
        exact Nat.le_refl _
      have first := (Adds.write (v := v) (d := d) (v.clusterToSector c)
        (chunk data v.clusterBytes index)).congr (iff_true_intro proper)
      exact (first.trans (ih (fun x member => free x (List.mem_cons_of_mem c member))
        (index + 1) _)).congr (and_self_iff)

theorem link_adds (sound : Sound v) {cells : List Nat} (inside : ∀ c ∈ cells, Inside v c)
    (d : Drive) : Adds v start d (link v cells d) True := by
  induction cells with
  | nil => exact Adds.refl
  | cons c rest ih =>
      have later := ih fun x member => inside x (List.mem_cons_of_mem c member)
      exact (later.trans (setInside_adds _ sound _ _ (inside c List.mem_cons_self))).congr
        (and_self_iff)

theorem writeChain_adds (sound : Sound v) (data : List UInt8) (d : Drive) :
    Adds v d.contents d (writeChain v data d).2 True := by
  have claimed := reserve_adds d.contents sound
    (max (divCeil data.length v.clusterBytes) 1) 2 d
  have result := (reserve_tabled sound (max (divCeil data.length v.clusterBytes) 1) 2 d).1
  unfold writeChain
  rcases outcome : reserve v (max (divCeil data.length v.clusterBytes) 1) 2 d with ⟨r, d'⟩
  rw [outcome] at claimed result
  simp only [outcome]
  cases r with
  | error e => exact claimed
  | ok chain =>
      simp only at result
      split_ifs at result
      obtain rfl := Except.ok.inj result
      have free : ∀ c ∈ (freeCells v (table v d.contents 0) 2).take
          (max (divCeil data.length v.clusterBytes) 1),
          Inside v c ∧ table v d.contents 0 c = 0 := by
        intro c member
        obtain ⟨inside, _, unused⟩ := mem_freeCells.mp (List.mem_of_mem_take member)
        exact ⟨inside, unused⟩
      have filled := fill_adds sound data free 0 d'
      exact (claimed.trans (filled.trans (link_adds sound (fun c member => (free c member).1)
        _))).congr (by simp)

end Storing

section Releasing

variable {v : Volume} {start : Store}

/-- The numbers that following the first table from a number meets, each with the disk as it is
then: the entry of every number is cleared once it is passed. -/
def walk (v : Volume) : Nat → Nat → Store → List (Nat × Store)
  | left, cluster, disk =>
      if 2 ≤ cluster ∧ cluster < endOfChain then
        match left with
        | 0 => []
        | left + 1 =>
            (cluster, disk) :: walk v left (v.nextCluster disk cluster) (entered v 0 disk cluster)
      else []

/-- Whatever number off the volume a chain meets, clearing its entry does no harm. -/
def Releasable (v : Volume) (start disk : Store) (first : Nat) : Prop :=
  ∀ p ∈ walk v (v.clusters + 1) first disk, ¬ Inside v p.1 →
    ∀ copy < v.fatCount, Harmless v start p.2 p.1 copy 0

theorem Releasable.first {disk : Store} {first : Nat} (releasable : Releasable v start disk first)
    (goes : 2 ≤ first ∧ first < endOfChain) (outside : ¬ Inside v first) :
    ∀ copy < v.fatCount, Harmless v start disk first copy 0 := by
  refine releasable (first, disk) ?_ outside
  rw [walk, if_pos goes]
  exact List.mem_cons_self

theorem freeFrom_adds (sound : Sound v) (left cluster : Nat) (d : Drive) :
    Adds v start d (freeFrom v left cluster d).2
      (∀ p ∈ walk v left cluster d.contents, ∀ copy < v.fatCount,
        Harmless v start p.2 p.1 copy 0) := by
  induction left generalizing cluster d with
  | zero =>
      unfold freeFrom walk
      split_ifs <;> exact Adds.refl.congr (by simp)
  | succ left ih =>
      unfold freeFrom walk
      split_ifs with goes
      · have first := setFatEntry_adds start sound d cluster 0
        have rest := ih (v.nextCluster d.contents cluster) (setFatEntry v cluster 0 d)
        rw [setFatEntry_contents sound] at rest
        exact (first.trans rest).congr (by simp)
      · exact Adds.refl.congr (by simp)

theorem freeChain_adds (sound : Sound v) (first : Nat) (d : Drive) :
    Adds v start d (freeChain v first d).2 (Releasable v start d.contents first) := by
  refine (freeFrom_adds sound (v.clusters + 1) first d).congr (forall₂_congr fun p _ => ?_)
  constructor
  · exact fun harmless _ => harmless
  · intro outside copy copies
    by_cases inside : Inside v p.1
    · exact harmless_inside sound inside copies
    · exact outside inside copy copies

end Releasing

section Operations

variable {v : Volume}

/-- Where a new file's contents go: nowhere when there are none. -/
def written (v : Volume) (data : List UInt8) (d : Drive) : Except String Nat × Drive :=
  if data.isEmpty then (.ok 0, d) else writeChain v data d

/-- The first cluster of the chain that `create` sets out to release, and the disk then: the
name fits, a file has it already, and the new contents fit beside the old ones. -/
def createReleases (v : Volume) (name : List Char) (data : List UInt8) (disk : Store) :
    Option (Nat × Store) :=
  if Names.Fits name ∧ (data.isEmpty ∨ needed v data ≤ countFree v disk) then
    match directorySlot v disk name with
    | .ok (_, _, some old) => some (old.firstCluster, stored v data disk)
    | _ => none
  else none

/-- The same of `remove`, which has marked the slot by then. -/
def removeReleases (v : Volume) (name : List Char) (disk : Store) : Option (Nat × Store) :=
  match directorySlot v disk name with
  | .ok (sector, offset, some entry) =>
      some (entry.firstCluster, poke disk (sectorSize * sector)
        (splice (Reading.read disk sector 1) offset [entryDeleted]))
  | _ => none

private theorem slot_adds (sound : Sound v) {disk : Store} {name : List Char} {sector offset : Nat}
    {existing : Option Entry} (found : directorySlot v disk name = .ok (sector, offset, existing))
    (start : Store) (d : Drive) (bytes : List UInt8) (short : bytes.length ≤ directoryEntrySize) :
    Adds v start d (d.write sector (splice (Reading.read d.contents sector 1) offset bytes))
      True := by
  obtain ⟨i, target, rfl, rfl⟩ := target_of_slot found
  have inside := target.inside
  refine (Adds.write _ _).congr (iff_true_intro (.inl ⟨?_, ?_, ?_⟩))
  · have whole : (Reading.read d.contents (slotOf v disk i).sector 1).length = sectorSize := by
      simp [Reading.read]
    rw [splice_length, whole]
    rw [whole]
    simp only [slotOf]
    unfold directoryEntrySize sectorSize at *
    omega
  · exact Nat.le_add_right _ _
  · have data := sound.data
    simp only [slotOf]
    unfold slotCount at inside
    omega

private theorem written_adds (sound : Sound v) (data : List UInt8) (disk : Store) :
    Adds v disk ⟨disk, []⟩ (written v data ⟨disk, []⟩).2 True := by
  unfold written
  split_ifs
  · exact Adds.refl
  · exact writeChain_adds sound data ⟨disk, []⟩

private theorem releaseOld_adds (sound : Sound v) (start : Store) (existing : Option Entry)
    (d : Drive) : Adds v start d (releaseOld v existing d).2
      (∀ old ∈ existing, Releasable v start d.contents old.firstCluster) := by
  cases existing with
  | none => exact Adds.refl.congr (by simp)
  | some old =>
      simp only [releaseOld, Option.mem_some_iff, forall_eq']
      split_ifs with chained
      · exact freeChain_adds sound old.firstCluster d
      · refine Adds.refl.congr (iff_of_true trivial ?_)
        intro p member
        rw [walk, if_neg (fun range => chained range.1)] at member
        simp at member

private theorem written_stored (sound : Sound v) (data : List UInt8) (disk : Store)
    (room : data.isEmpty ∨ needed v data ≤ countFree v disk) :
    ∃ first d, written v data ⟨disk, []⟩ = (.ok first, d) ∧ d.contents = stored v data disk := by
  unfold written
  by_cases empty : data.isEmpty
  · refine ⟨0, ⟨disk, []⟩, if_pos empty, ?_⟩
    simp only [stored, fresh, if_pos empty]
    rfl
  · have some : data.isEmpty = false := by simpa using empty
    obtain ⟨result, -⟩ := writeChain_stored sound (d := ⟨disk, []⟩) some
      (room.resolve_left empty)
    rw [if_neg empty]
    refine ⟨_, (writeChain v data ⟨disk, []⟩).2, Prod.ext result rfl, ?_⟩
    have claimed := (reserve_tabled sound (needed v data) 2 ⟨disk, []⟩).1
    rw [← countFree_eq sound, if_pos (room.resolve_left empty)] at claimed
    have taken : fresh v disk data =
        (freeCells v (table v disk 0) 2).take (needed v data) := by
      rw [fresh, if_neg empty]
    rcases outcome : reserve v (needed v data) 2 ⟨disk, []⟩ with ⟨r, d⟩
    rw [outcome, ← taken] at claimed
    obtain rfl : r = .ok (fresh v disk data) := claimed
    have outcome' : reserve v (max (divCeil data.length v.clusterBytes) 1) 2 ⟨disk, []⟩ =
        (.ok (fresh v disk data), d) := outcome
    simp only [writeChain, outcome', stored]
    rw [link_contents sound, fill_contents, reserve_contents sound outcome]

private theorem written_short (sound : Sound v) (data : List UInt8) (disk : Store)
    (short : ¬ (data.isEmpty ∨ needed v data ≤ countFree v disk)) :
    ∃ e d, written v data ⟨disk, []⟩ = (.error e, d) := by
  obtain ⟨some, few⟩ := not_or.mp short
  obtain ⟨result, -⟩ := writeChain_short sound (d := ⟨disk, []⟩) (Nat.not_le.mp few)
  unfold written
  rw [if_neg some]
  exact ⟨_, _, Prod.ext result rfl⟩

theorem create_adds (sound : Sound v) (name : List Char) (data : List UInt8) (disk : Store) :
    Adds v disk ⟨disk, []⟩ (create v name data ⟨disk, []⟩).2
      (∀ p ∈ createReleases v name data disk, Releasable v disk p.2 p.1) := by
  by_cases fits : Names.Fits name
  · rw [create_fits fits, createReleases]
    cases found : directorySlot v disk name with
    | error e => exact Adds.refl.congr (by simp)
    | ok place =>
        obtain ⟨sector, offset, existing⟩ := place
        have kept := written_adds sound data disk
        by_cases room : data.isEmpty ∨ needed v data ≤ countFree v disk
        · obtain ⟨first, d, outcome, contents⟩ := written_stored sound data disk room
          have chained : (if data.isEmpty then (.ok 0, ⟨disk, []⟩) else
              writeChain v data ⟨disk, []⟩) = (.ok first, d) := outcome
          rw [outcome] at kept
          have released := kept.trans (releaseOld_adds sound disk existing d)
          rw [contents] at released
          have meets : Names.Fits name ∧ (data.isEmpty ∨ needed v data ≤ countFree v disk) :=
            ⟨fits, room⟩
          rw [if_pos meets]
          rcases freed : releaseOld v existing d with ⟨r, d'⟩
          rw [freed] at released
          simp only [chained, freed]
          cases r with
          | error e =>
              refine released.congr ?_
              cases existing <;> simp
          | ok _ =>
              have length := Names.directoryEntry_length fits.2 first data.length
              have slot := slot_adds sound found disk d' _ (Nat.le_of_eq length)
              refine (released.trans slot).congr ?_
              cases existing <;> simp
        · obtain ⟨e, d, outcome⟩ := written_short sound data disk room
          have chained : (if data.isEmpty then (.ok 0, ⟨disk, []⟩) else
              writeChain v data ⟨disk, []⟩) = (.error e, d) := outcome
          rw [outcome] at kept
          have misses : ¬ (Names.Fits name ∧ (data.isEmpty ∨ needed v data ≤ countFree v disk)) :=
            fun both => room both.2
          rw [if_neg misses]
          simp only [chained]
          exact kept.congr (by simp)
  · rw [create_misfit fits, createReleases, if_neg fun both => fits both.1]
    exact Adds.refl.congr (by simp)

theorem remove_adds (sound : Sound v) (name : List Char) (disk : Store) :
    Adds v disk ⟨disk, []⟩ (remove v name ⟨disk, []⟩).2
      (∀ p ∈ removeReleases v name disk, Releasable v disk p.2 p.1) := by
  unfold remove removeReleases
  cases found : directorySlot v disk name with
  | error e => exact Adds.refl.congr (by simp)
  | ok place =>
      obtain ⟨sector, offset, existing⟩ := place
      cases existing with
      | none => exact Adds.refl.congr (by simp)
      | some entry =>
          have marked := slot_adds sound found disk ⟨disk, []⟩ [entryDeleted] (by decide)
          simp only [Option.mem_some_iff, forall_eq']
          split_ifs with chained
          · exact (marked.trans (freeChain_adds sound entry.firstCluster _)).congr (by
              rw [true_and]
              rfl)
          · refine marked.congr (iff_of_true trivial ?_)
            intro p member
            rw [walk, if_neg (fun range => chained range.1)] at member
            simp at member

/-- On a mounted volume that can be used, whatever the table and the directory say: `create` and
`remove` write to the directory, to clusters that were free and to entries of clusters on the
volume exactly when the chain they release, followed in the first table, meets no other number
whose entry, wherever its place is, that would do harm to clear. -/
theorem create_remove_confined_iff {present : Bool} {boot : Store}
    (mounted : mount present boot = .ok v)
    (usable : Usable v (totalSectors (Reading.read boot 0 1))) (disk : Store) (name : List Char)
    (data : List UInt8) :
    (Confined v disk disk (create v name data ⟨disk, []⟩).2.writes ↔
        ∀ p ∈ createReleases v name data disk, Releasable v disk p.2 p.1) ∧
      (Confined v disk disk (remove v name ⟨disk, []⟩).2.writes ↔
        ∀ p ∈ removeReleases v name disk, Releasable v disk p.2 p.1) := by
  have sound := sound_of_usable mounted usable
  exact ⟨(create_adds sound name data disk).confined_iff,
    (remove_adds sound name disk).confined_iff⟩

private theorem releasable_of_walk {released : Option (Nat × Store)} {start : Store}
    {numbers : List Nat}
    (walked : (released.map fun p => (walk v (v.clusters + 1) p.1 p.2).map Prod.fst) = some numbers)
    (inside : ∀ c ∈ numbers, Inside v c) : ∀ p ∈ released, Releasable v start p.2 p.1 := by
  rintro p member q met outside
  rw [Option.mem_def.mp member] at walked
  have listed := Option.some.inj walked
  exact absurd (inside q.1 (listed ▸ List.mem_map_of_mem met)) outside

def oneFile : Store := fun x =>
  if x = 8704 then 0x41 else if 8705 ≤ x ∧ x < 8715 then space else
  if x = 8730 then 2 else if x = 8732 then 88 else if x = 8733 then 2 else
  if x = 516 then 3 else if x = 518 ∨ x = 519 then 0xFF else longTable x

private theorem oneFile_mounted : mount true oneFile = .ok longVolume :=
  ok_of_toOption (by decide +kernel)

private theorem oneFile_usable : Usable longVolume (totalSectors (Reading.read oneFile 0 1)) :=
  (mounted_of_mount oneFile_mounted).usable_iff.mpr (by decide +kernel)

/-- Emptying the file and removing it release its two clusters. -/
theorem create_remove_confined_oneFile :
    ((createReleases longVolume ['A'] [] oneFile).map fun p =>
        (walk longVolume (longVolume.clusters + 1) p.1 p.2).map Prod.fst) = some [2, 3] ∧
      Confined longVolume oneFile oneFile
        (create longVolume ['A'] [] ⟨oneFile, []⟩).2.writes ∧
      Confined longVolume oneFile oneFile
        (remove longVolume ['A'] ⟨oneFile, []⟩).2.writes := by
  obtain ⟨creates, removes⟩ :=
    create_remove_confined_iff oneFile_mounted oneFile_usable oneFile ['A'] []
  have emptied : ((createReleases longVolume ['A'] [] oneFile).map fun p =>
      (walk longVolume (longVolume.clusters + 1) p.1 p.2).map Prod.fst) = some [2, 3] := by
    decide +kernel
  have removed : ((removeReleases longVolume ['A'] oneFile).map fun p =>
      (walk longVolume (longVolume.clusters + 1) p.1 p.2).map Prod.fst) = some [2, 3] := by
    decide +kernel
  have inside : ∀ c ∈ [2, 3], Inside longVolume c := by decide
  have first : ∀ p ∈ createReleases longVolume ['A'] [] oneFile,
      Releasable longVolume oneFile p.2 p.1 := releasable_of_walk emptied inside
  have second : ∀ p ∈ removeReleases longVolume ['A'] oneFile,
      Releasable longVolume oneFile p.2 p.1 := releasable_of_walk removed inside
  refine ⟨emptied, ?_, ?_⟩
  · rw [creates]
    exact first
  · rw [removes]
    exact second

/-- A file whose directory entry starts it at 0xFFF0, which is no cluster; the table would have
that number's entry in cluster 240, where another file is. -/
def strayDisk : Store := fun x =>
  if x = 8704 then 0x41 else if 8705 ≤ x ∧ x < 8715 then space else
  if x = 8730 then 0xF0 else if x = 8731 then 0xFF else if x = 8732 then 1 else
  if x = 992 ∨ x = 993 then 0xFF else longTable x

theorem remove_writes_used_cluster : mount true strayDisk = .ok longVolume ∧
    Usable longVolume (totalSectors (Reading.read strayDisk 0 1)) ∧
    table longVolume strayDisk 0 240 = 0xFFFF ∧
    ¬ Confined longVolume strayDisk strayDisk
      (remove longVolume ['A'] ⟨strayDisk, []⟩).2.writes := by
  have mounted : mount true strayDisk = .ok longVolume := ok_of_toOption (by decide +kernel)
  have usable : Usable longVolume (totalSectors (Reading.read strayDisk 0 1)) :=
    (mounted_of_mount mounted).usable_iff.mpr (by decide +kernel)
  have sound := sound_of_usable mounted usable
  have used : table longVolume strayDisk 0 240 = 0xFFFF := by decide +kernel
  refine ⟨mounted, usable, used, ?_⟩
  have found : directorySlot longVolume strayDisk ['A'] =
      .ok (17, 0, some ⟨['A'], 1, 0xFFF0⟩) := ok_of_toOption (by decide +kernel)
  rw [(remove_adds sound ['A'] strayDisk).confined_iff]
  simp only [removeReleases, found, Option.mem_some_iff, forall_eq']
  intro releasable
  have outside : ¬ Inside longVolume 0xFFF0 := by
    simp [Inside, longVolume]
  have harmless := releasable.first (by decide) outside 0 (by decide)
  have place : tableAt longVolume 0 0xFFF0 / sectorSize = 256 := by decide
  simp only [Harmless, place] at harmless
  rcases harmless with directory | ⟨c, inside, free, holds⟩ | ⟨copy, copies, holds, _⟩
  · exact absurd directory.2 (by decide)
  · have two := inside.1
    have here : c = 240 := by
      simp only [sectorsOf, FiveAM.Lib.Extents.Extent.Holds, FiveAM.Lib.Extents.Extent.stop,
        Volume.clusterToSector, longVolume] at holds
      omega
    rw [here, used] at free
    exact absurd free (by decide)
  · have only : copy = 0 := Nat.lt_one_iff.mp copies
    rw [only] at holds
    exact absurd holds.2 (by decide)

end Operations

end FiveAM.Fat.Confinement
