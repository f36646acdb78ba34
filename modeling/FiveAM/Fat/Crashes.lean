/- GID: FiveAM/Fat/Crashes
   source: kernel/src/fat.rs
   digest: The files on the disk after every prefix of the writes of a create or a remove. -/

import FiveAM.Fat.Confinement
import FiveAM.Fat.FileMap
import FiveAM.Lib.Prefixes

set_option autoImplicit false
set_option relaxedAutoImplicit false

namespace FiveAM.Fat.Crashes

open FiveAM.Lib.ByteRegions FiveAM.Lib.LinkedTable FiveAM.Lib.Prefixes
open FiveAM.Fat.Reading FiveAM.Fat.Writing FiveAM.Fat.Layout FiveAM.Fat.Tables FiveAM.Fat.Directory
open FiveAM.Fat.Names FiveAM.Fat.Files FiveAM.Fat.Creating FiveAM.Fat.Removing
open FiveAM.Fat.FileMap
open FiveAM.Fat.Confinement (replay)

/-- The clusters met in following a table, for as long as they are on the volume. -/
inductive OnChain (v : Volume) (f : Nat → Nat) : Nat → Nat → Prop
  | here {c : Nat} (inside : Inside v c) : OnChain v f c c
  | next {c x : Nat} (inside : Inside v c) (later : OnChain v f (f c) x) : OnChain v f c x

/-- Slot `i` is where the search for a name ends. -/
def Place (v : Volume) (disk : Store) (name : List Char) (i : Nat) : Prop :=
  ∃ existing, directorySlot v disk name =
    .ok ((slotOf v disk i).sector, (slotOf v disk i).offset, existing)

/-- Every listed file has all of its old contents or all of its new ones, the files that are
not named are as they were, and no cluster is on the chains of two. -/
structure Intact (v : Volume) (op : Operation) (disk disk' : Store) : Prop where
  readable : ∀ j ∈ listed v disk',
    (j ∈ listed v disk ∧
      v.readFile disk' (entryAt v disk' j) = v.readFile disk (entryAt v disk j)) ∨
    ∃ name data, op = .create name data ∧ Place v disk name j ∧
      v.readFile disk' (entryAt v disk' j) = .ok data
  others : ∀ j ∈ listed v disk, ¬ Matching v disk op.name j →
    j ∈ listed v disk' ∧ entryAt v disk' j = entryAt v disk j ∧
      v.readFile disk' (entryAt v disk' j) = v.readFile disk (entryAt v disk j)
  apart : ∀ a ∈ listed v disk', ∀ b ∈ listed v disk', a ≠ b → ∀ c,
    OnChain v (table v disk' 0) (entryAt v disk' a).firstCluster c →
      ¬ OnChain v (table v disk' 0) (entryAt v disk' b).firstCluster c

/-- The files survive a crash after any number of the writes an operation makes. -/
def CrashSafe (v : Volume) (op : Operation) (d : Drive) : Prop :=
  ∀ new, (op.run v d).2.writes = d.writes ++ new →
    ∀ n, Intact v op d.contents (replay d.contents (new.take n))

/-- A create that comes to release the clusters of a file longer than one of them, or to
cut the listing off before a file it does not name. -/
def Endangers (v : Volume) (disk : Store) : Operation → Prop
  | .create name data =>
      Fits name ∧ (data.isEmpty = false → needed v data ≤ countFree v disk) ∧
      ∃ i existing, directorySlot v disk name =
          .ok ((slotOf v disk i).sector, (slotOf v disk i).offset, existing) ∧
        ((∃ old, existing = some old ∧ v.clusterBytes < old.size) ∨
          ((bytes name).head? = some 0 ∧
            ∃ j ∈ listed v disk, i < j ∧ ¬ Matching v disk name j))
  | .remove _ => False

section Passing

variable {P Q : Store → Prop} {d d' d'' : Drive}

/-- A step of the drive makes writes, and `P` holds of the disk before and after each. -/
def Passes (P : Store → Prop) (d d' : Drive) : Prop :=
  ∃ new, d'.writes = d.writes ++ new ∧ d'.contents = replay d.contents new ∧
    ∀ n, P (replay d.contents (new.take n))

namespace Passes

theorem refl (start : P d.contents) : Passes P d d := ⟨[], by simp, rfl, by simpa [replay] using start⟩

theorem trans (first : Passes P d d') (second : Passes P d' d'') : Passes P d d'' := by
  obtain ⟨new, writes, contents, all⟩ := first
  obtain ⟨new', writes', contents', all'⟩ := second
  refine ⟨new ++ new', by rw [writes', writes, List.append_assoc], ?_, ?_⟩
  · rw [contents', contents, replay, replay, replay, List.foldl_append]
  · rw [contents] at all'
    exact throughout_append.mpr ⟨all, all'⟩

theorem write {lba : Nat} {buffer : List UInt8} (start : P d.contents)
    (done : P (d.write lba buffer).contents) : Passes P d (d.write lba buffer) :=
  ⟨[⟨lba, buffer⟩], rfl, rfl, throughout_cons.mpr ⟨start, throughout_nil.mpr done⟩⟩

theorem mono (passes : Passes P d d') (weaker : ∀ disk, P disk → Q disk) : Passes Q d d' := by
  obtain ⟨new, writes, contents, all⟩ := passes
  exact ⟨new, writes, contents, Throughout.mono all weaker⟩

theorem last (passes : Passes P d d') : P d'.contents := by
  obtain ⟨new, _, contents, all⟩ := passes
  rw [contents]
  exact Throughout.last all

theorem all (passes : Passes P d d') {new : List Write} (writes : d'.writes = d.writes ++ new)
    (n : Nat) : P (replay d.contents (new.take n)) := by
  obtain ⟨new', writes', _, all⟩ := passes
  obtain rfl := List.append_cancel_left (writes.symm.trans writes')
  exact all n

theorem between {middle : Drive} (first : Passes Q d middle) (later : Passes Q middle d')
    (all : ∀ new, d'.writes = d.writes ++ new → ∀ n, P (replay d.contents (new.take n))) :
    P middle.contents := by
  obtain ⟨new, writes, contents, _⟩ := first
  obtain ⟨new', writes', _, _⟩ := later
  have whole := all (new ++ new') (by rw [writes', writes, List.append_assoc])
  rw [contents]
  exact Throughout.between whole

end Passes

abbrev Follows (d d' : Drive) : Prop := Passes (fun _ => True) d d'

theorem follows_foldl {α : Type} {f : Drive → α → Drive} (each : ∀ d x, Follows d (f d x))
    (xs : List α) (d : Drive) : Follows d (xs.foldl f d) := by
  induction xs generalizing d with
  | nil => exact .refl trivial
  | cons x xs ih => exact (each d x).trans (ih (f d x))

end Passing

section Following

variable {v : Volume} {f f' : Nat → Nat}

theorem OnChain.start {c x : Nat} (on : OnChain v f c x) : Inside v c := by
  cases on with
  | here inside => exact inside
  | next inside _ => exact inside

theorem onChain_mem (few : v.clusters < 65525) {first c : Nat} {cells : List Nat}
    (chains : (first < 2 ∧ cells = []) ∨ FileChain v f first cells)
    (same : ∀ x ∈ cells, f' x = f x ∨ ¬ Inside v (f' x)) (on : OnChain v f' first c) :
    c ∈ cells := by
  rcases chains with ⟨small, _⟩ | chain
  · have inside := on.start
    unfold Inside at inside
    omega
  · induction on generalizing cells with
    | here inside =>
        cases cells with
        | nil => exact absurd chain (inside_not_end few _ inside)
        | cons x rest =>
            obtain ⟨rfl, _⟩ := chain
            exact List.mem_cons_self
    | next inside later ih =>
        cases cells with
        | nil => exact absurd chain (inside_not_end few _ inside)
        | cons x rest =>
            obtain ⟨rfl, _, onward⟩ := chain
            rcases same _ List.mem_cons_self with kept | off
            · rw [kept] at ih
              exact List.mem_cons_of_mem _
                (ih (fun y member => same y (List.mem_cons_of_mem _ member)) onward)
            · exact absurd later.start off

private theorem readFile_first (sound : Sound v) {disk : Store} {entry : Entry}
    (some : entry.size ≠ 0) (inside : Inside v entry.firstCluster) :
    v.readFile disk entry =
      if entry.size ≤ v.clusterBytes then
        .ok ((clusterData v disk entry.firstCluster).take entry.size)
      else if endOfChain ≤ table v disk 0 entry.firstCluster then
        .error "chain ended before the file did"
      else v.readFrom disk entry.size (v.clusters - 1) (table v disk 0 entry.firstCluster)
        (clusterData v disk entry.firstCluster) := by
  have whole : Reading.read disk (v.clusterToSector entry.firstCluster) v.sectorsPerCluster =
      clusterData v disk entry.firstCluster := by
    rw [clusterData, if_pos inside, Reading.read, ← sound.clusterBytes_eq]
    rfl
  have length := clusterData_length disk inside
  obtain ⟨left, count⟩ : ∃ left, v.clusters = left + 1 :=
    ⟨v.clusters - 1, by unfold Inside at inside; omega⟩
  have outside : ¬ (entry.firstCluster < 2 ∨ v.clusters + 2 ≤ entry.firstCluster) := by
    unfold Inside at inside
    omega
  rw [Volume.readFile, if_neg some, count, Volume.readFrom,
    if_pos (show ([] : List UInt8).length < entry.size by simp; omega), ← count, if_neg outside]
  simp only [whole, length, List.length_nil, Nat.sub_zero, List.nil_append, List.length_take]
  rw [nextCluster_eq sound (sound.listed inside), count, Nat.add_sub_cancel]
  by_cases short : entry.size ≤ v.clusterBytes
  · have bound : min entry.size v.clusterBytes = entry.size := Nat.min_eq_left short
    rw [bound, if_pos (by omega), if_pos short]
  · have bound : min entry.size v.clusterBytes = v.clusterBytes := Nat.min_eq_right (by omega)
    rw [bound, if_neg (by omega), if_neg short, List.take_of_length_le (Nat.le_of_eq length)]

theorem readFile_cut (sound : Sound v) {disk : Store} {entry : Entry}
    (inside : Inside v entry.firstCluster) (long : v.clusterBytes < entry.size)
    (cleared : table v disk 0 entry.firstCluster = 0) :
    v.readFile disk entry = .error "chain left the volume" := by
  rw [readFile_first sound (by omega) inside, if_neg (by omega), cleared, if_neg (by decide)]
  unfold Volume.readFrom
  rw [if_pos (by rw [clusterData_length disk inside]; exact long), if_pos (.inl (by decide))]

end Following

section Writing

variable {v : Volume} (sound : Sound v) {P : Store → Prop}

/-- The first copy of the table has a new entry; nothing else that is read has changed. -/
structure Entered (v : Volume) (cluster value : Nat) (disk disk' : Store) : Prop where
  entry : table v disk' 0 = Function.update (table v disk 0) cluster value
  slots : slotBytes v disk' = slotBytes v disk
  data : clusterData v disk' = clusterData v disk

/-- A free cluster has new contents; nothing else that is read has changed. -/
structure Filled (v : Volume) (cluster : Nat) (disk disk' : Store) : Prop where
  entries : table v disk' 0 = table v disk 0
  slots : slotBytes v disk' = slotBytes v disk
  data : ∀ c, c ≠ cluster → clusterData v disk' c = clusterData v disk c

/-- One round of `set_fat_entry`, for one copy of the table. -/
def entryRound (v : Volume) (cluster value : Nat) (d : Drive) (copy : Nat) : Drive :=
  let target := (fatEntryLocation v cluster).1 + copy * v.sectorsPerFat
  d.write target
    (splice (Reading.read d.contents target 1) (fatEntryLocation v cluster).2 (le16 value))

theorem setFatEntry_rounds (cluster value : Nat) (d : Drive) :
    setFatEntry v cluster value d =
      (List.range v.fatCount).foldl (entryRound v cluster value) d := rfl

/-- What goes on holding when clusters that were free are claimed, linked or filled. -/
structure Indifferent (v : Volume) (disk : Store) (P : Store → Prop) : Prop where
  entered : ∀ disk₁ disk₂ c value, Inside v c → table v disk 0 c = 0 → P disk₁ →
    Entered v c value disk₁ disk₂ → P disk₂
  filled : ∀ disk₁ disk₂ c, Inside v c → table v disk 0 c = 0 → P disk₁ →
    Filled v c disk₁ disk₂ → P disk₂

include sound

theorem setFatEntry_entered (d : Drive) (value : Nat) {cluster : Nat}
    (inside : 2 * cluster < sectorSize * v.sectorsPerFat) (small : value < 2 ^ 16) :
    Entered v cluster value d.contents (setFatEntry v cluster value d).contents := by
  have tabled := setFatEntry_tabled sound d value inside small
  exact ⟨tabled.entries 0 sound.copies, tabled.slots, tabled.data⟩

theorem entryRound_entries (d : Drive) {cluster : Nat} (value copy : Nat)
    (inside : 2 * cluster < sectorSize * v.sectorsPerFat) (small : value < 2 ^ 16)
    (copies : copy < v.fatCount) :
    table v (entryRound v cluster value d copy).contents 0 =
        (if 0 = copy then Function.update (table v d.contents 0) cluster value
        else table v d.contents 0) ∧
      slotBytes v (entryRound v cluster value d copy).contents = slotBytes v d.contents ∧
      clusterData v (entryRound v cluster value d copy).contents = clusterData v d.contents := by
  have put : (entryRound v cluster value d copy).contents =
      poke d.contents (tableAt v copy cluster) (le16 value) := write_entry sound d cluster copy _ rfl
  obtain ⟨slots, data, _⟩ := poke_table sound d.contents copies inside
    (show (le16 value).length = 2 from rfl)
  rw [put]
  refine ⟨?_, slots, data⟩
  rw [table_poke copies inside small]
  by_cases first : 0 = copy
  · rw [if_pos first, if_pos first, first]
  · rw [if_neg first, if_neg first]

theorem setFatEntry_passes {d : Drive} {value cluster : Nat}
    (inside : 2 * cluster < sectorSize * v.sectorsPerFat) (small : value < 2 ^ 16)
    (start : P d.contents) (after : ∀ disk', Entered v cluster value d.contents disk' → P disk') :
    Passes P d (setFatEntry v cluster value d) := by
  have rounds : ∀ n, n ≤ v.fatCount →
      Passes P d ((List.range n).foldl (entryRound v cluster value) d) ∧
        (0 < n → Entered v cluster value d.contents
          ((List.range n).foldl (entryRound v cluster value) d).contents) := by
    intro n
    induction n with
    | zero => exact fun _ => ⟨.refl start, fun absurd => by omega⟩
    | succ n ih =>
        intro bound
        obtain ⟨passes, entered⟩ := ih (by omega)
        rw [List.range_succ, List.foldl_append, List.foldl_cons, List.foldl_nil]
        obtain ⟨entries, slots, data⟩ := entryRound_entries sound
          ((List.range n).foldl (entryRound v cluster value) d) value n inside small bound
        have done : Entered v cluster value d.contents
            (entryRound v cluster value ((List.range n).foldl (entryRound v cluster value) d)
              n).contents := by
          rcases Nat.eq_zero_or_pos n with rfl | some
          · exact ⟨entries, slots, data⟩
          · have before := entered some
            rw [if_neg (by omega)] at entries
            exact ⟨entries.trans before.entry, slots.trans before.slots, data.trans before.data⟩
        exact ⟨passes.trans (.write passes.last (after _ done)), fun _ => done⟩
  rw [setFatEntry_rounds]
  exact (rounds v.fatCount (Nat.le_refl _)).1

theorem reserve_passes {disk : Store} (indifferent : Indifferent v disk P) (needed start : Nat)
    {d : Drive} (holds : P d.contents)
    (unused : ∀ c, Inside v c → table v d.contents 0 c = 0 → table v disk 0 c = 0) :
    Passes P d (reserve v needed start d).2 := by
  induction needed generalizing start d with
  | zero => exact .refl holds
  | succ needed ih =>
      rw [reserve, findFreeCluster_eq sound]
      cases cells : freeCells v (table v d.contents 0) start with
      | nil => exact .refl holds
      | cons c rest =>
          have member : c ∈ freeCells v (table v d.contents 0) start := by simp [cells]
          obtain ⟨inside, _, free⟩ := mem_freeCells.mp member
          have claimed := setFatEntry_entered sound d 0xFFFF (sound.listed inside) (by decide)
          have first : Passes P d (setFatEntry v c 0xFFFF d) :=
            setFatEntry_passes sound (sound.listed inside) (by decide) holds fun disk' entered =>
              indifferent.entered _ _ _ _ inside (unused c inside free) holds entered
          have later := ih (c + 1) first.last fun x within zero => by
            rw [claimed.entry] at zero
            by_cases here : x = c
            · subst here
              rw [Function.update_self] at zero
              exact absurd zero (by decide)
            · rw [Function.update_of_ne here] at zero
              exact unused x within zero
          have whole := first.trans later
          rcases outcome : reserve v needed (c + 1) (setFatEntry v c 0xFFFF d) with ⟨r, d'⟩
          rw [outcome] at whole
          simp only [outcome]
          cases r with
          | error _ => exact whole
          | ok _ => exact whole

theorem fill_passes {disk : Store} (indifferent : Indifferent v disk P) (data : List UInt8)
    {cells : List Nat} (free : ∀ c ∈ cells, Inside v c ∧ table v disk 0 c = 0) (index : Nat)
    {d : Drive} (holds : P d.contents) : Passes P d (fill v data cells index d) := by
  induction cells generalizing index d with
  | nil => exact .refl holds
  | cons c rest ih =>
      obtain ⟨inside, unused⟩ := free c List.mem_cons_self
      have whole : (chunk data v.clusterBytes index).length = v.clusterBytes := by
        simp only [chunk, List.length_append, List.length_replicate, List.length_take]
        omega
      obtain ⟨entries, slots, _⟩ := poke_cluster sound d.contents c
        (chunk data v.clusterBytes index)
      have written := clusterData_poke sound d.contents inside whole
      have filled : Filled v c d.contents
          (d.write (v.clusterToSector c) (chunk data v.clusterBytes index)).contents := by
        refine ⟨congrFun entries 0, slots, fun x other => ?_⟩
        have here := congrFun written x
        rw [Function.update_of_ne other] at here
        exact here
      have first : Passes P d (d.write (v.clusterToSector c) (chunk data v.clusterBytes index)) :=
        .write holds (indifferent.filled _ _ c inside unused holds filled)
      exact first.trans (ih (fun x member => free x (List.mem_cons_of_mem _ member)) (index + 1)
        first.last)

theorem link_passes {disk : Store} (indifferent : Indifferent v disk P) {cells : List Nat}
    (free : ∀ c ∈ cells, Inside v c ∧ table v disk 0 c = 0) {d : Drive} (holds : P d.contents) :
    Passes P d (link v cells d) := by
  induction cells with
  | nil => exact .refl holds
  | cons c rest ih =>
      obtain ⟨inside, unused⟩ := free c List.mem_cons_self
      have later := ih fun x member => free x (List.mem_cons_of_mem _ member)
      have small : rest.headD 0xFFFF < 2 ^ 16 := by
        cases rest with
        | nil => decide
        | cons x others => exact inside_small sound (free x (by simp)).1
      refine later.trans (setFatEntry_passes sound (sound.listed inside) small later.last ?_)
      exact fun disk' entered => indifferent.entered _ _ _ _ inside unused later.last entered

theorem writeChain_passes {d : Drive} (indifferent : Indifferent v d.contents P)
    (holds : P d.contents) (data : List UInt8) : Passes P d (writeChain v data d).2 := by
  have claimed := reserve_passes sound indifferent
    (max (divCeil data.length v.clusterBytes) 1) 2 holds fun _ _ zero => zero
  have result := (reserve_tabled sound (max (divCeil data.length v.clusterBytes) 1) 2 d).1
  unfold writeChain
  rcases outcome : reserve v (max (divCeil data.length v.clusterBytes) 1) 2 d with ⟨r, d'⟩
  rw [outcome] at claimed result
  simp only [outcome]
  cases r with
  | error _ => exact claimed
  | ok chain =>
      simp only at result
      split_ifs at result
      obtain rfl := Except.ok.inj result
      have free : ∀ c ∈ (freeCells v (table v d.contents 0) 2).take
          (max (divCeil data.length v.clusterBytes) 1),
          Inside v c ∧ table v d.contents 0 c = 0 := by
        intro c member
        obtain ⟨inside, _, unused⟩ := mem_freeCells.mp (List.mem_of_mem_take member)
        exact ⟨inside, unused⟩
      have filled := fill_passes sound indifferent data free 0 claimed.last
      exact claimed.trans (filled.trans (link_passes sound indifferent free filled.last))

theorem freeFrom_passes {all : List Nat}
    (indifferent : ∀ disk₁ disk₂, ∀ c ∈ all, P disk₁ → Entered v c 0 disk₁ disk₂ → P disk₂)
    {left first : Nat} {cells : List Nat} {d : Drive}
    (chain : FileChain v (table v d.contents 0) first cells) (enough : cells.length ≤ left)
    (within : cells ⊆ all) (holds : P d.contents) : Passes P d (freeFrom v left first d).2 := by
  induction cells generalizing left first d with
  | nil =>
      have ends : endOfChain ≤ first := chain
      unfold freeFrom
      rw [if_neg (by omega)]
      exact .refl holds
  | cons c rest ih =>
      have distinct := chain.nodup (inside_not_end sound.few)
      obtain ⟨rfl, inside, later⟩ := chain
      obtain ⟨left, rfl⟩ : ∃ n, left = n + 1 := ⟨left - 1, by simp at enough; omega⟩
      have unmarked := inside_not_end sound.few first inside
      have released := setFatEntry_entered sound d 0 (sound.listed inside) (by decide)
      have cleared : Passes P d (setFatEntry v first 0 d) :=
        setFatEntry_passes sound (sound.listed inside) (by decide) holds fun disk' entered =>
          indifferent _ _ first (within List.mem_cons_self) holds entered
      have onward : FileChain v (table v (setFatEntry v first 0 d).contents 0)
          (table v d.contents 0 first) rest := by
        rw [released.entry]
        exact later.congr fun x member => Function.update_of_ne
          (fun equal : x = first => (List.nodup_cons.mp distinct).1 (equal ▸ member)) _ _
      unfold freeFrom
      rw [if_pos ⟨inside.1, by omega⟩, nextCluster_eq sound (sound.listed inside)]
      exact cleared.trans (ih onward (by simpa using enough)
        (fun x member => within (List.mem_cons_of_mem _ member)) cleared.last)

end Writing

section Sparing

variable {v : Volume} {op : Operation} {disk disk₁ disk₂ : Store} {cells : Nat → List Nat} {i : Nat}

/-- The files in the slots other than `i` have been left alone. -/
structure Spares (v : Volume) (cells : Nat → List Nat) (i : Nat) (disk disk' : Store) : Prop where
  slots : ∀ j, j ≠ i → slotBytes v disk' j = slotBytes v disk j
  entries : ∀ j ∈ listed v disk, j ≠ i → ∀ c ∈ cells j, table v disk' 0 c = table v disk 0 c
  data : ∀ j ∈ listed v disk, j ≠ i → ∀ c ∈ cells j, clusterData v disk' c = clusterData v disk c

namespace Spares

theorem refl : Spares v cells i disk disk := ⟨fun _ _ => rfl, fun _ _ _ _ _ => rfl, fun _ _ _ _ _ => rfl⟩

theorem slot (spares : Spares v cells i disk disk₁) {j : Nat} (other : j ≠ i) :
    slotOf v disk₁ j = slotOf v disk j := by
  unfold slotOf
  rw [spares.slots j other]

theorem entryAt (spares : Spares v cells i disk disk₁) {j : Nat} (other : j ≠ i) :
    entryAt v disk₁ j = entryAt v disk j := by
  rw [Directory.entryAt, spares.slot other, Directory.entryAt]

theorem read (spares : Spares v cells i disk disk₁) (holds : Holds v disk cells) {j : Nat}
    (member : j ∈ listed v disk) (other : j ≠ i) :
    v.readFile disk₁ (Directory.entryAt v disk₁ j) =
      v.readFile disk (Directory.entryAt v disk j) := by
  have chains : ((Directory.entryAt v disk j).firstCluster < 2 ∧ cells j = []) ∨
      FileChain v (table v disk₁ 0) (Directory.entryAt v disk j).firstCluster (cells j) :=
    (holds.chains j member).imp id fun chain => chain.congr (spares.entries j member other)
  rw [spares.entryAt other, holds.readFile member,
    readFile_content holds.sound chains (holds.long j member),
    content_congr (spares.data j member other)]

theorem onChain (spares : Spares v cells i disk disk₁) (holds : Holds v disk cells) {j : Nat}
    (member : j ∈ listed v disk) (other : j ≠ i) {c : Nat}
    (on : OnChain v (table v disk₁ 0) (Directory.entryAt v disk₁ j).firstCluster c) :
    c ∈ cells j := by
  rw [spares.entryAt other] at on
  exact onChain_mem holds.sound.few (holds.chains j member)
    (fun x used => .inl (spares.entries j member other x used)) on

theorem entered (spares : Spares v cells i disk disk₁) {c value : Nat}
    (apart : ∀ j ∈ listed v disk, j ≠ i → c ∉ cells j) (step : Entered v c value disk₁ disk₂) :
    Spares v cells i disk disk₂ where
  slots j other := by rw [step.slots, spares.slots j other]
  entries j member other x used := by
    have different : x ≠ c := fun same => apart j member other (same ▸ used)
    rw [step.entry, Function.update_of_ne different, spares.entries j member other x used]
  data j member other x used := by rw [step.data, spares.data j member other x used]

theorem filled (spares : Spares v cells i disk disk₁) {c : Nat}
    (apart : ∀ j ∈ listed v disk, j ≠ i → c ∉ cells j) (step : Filled v c disk₁ disk₂) :
    Spares v cells i disk disk₂ where
  slots j other := by rw [step.slots, spares.slots j other]
  entries j member other x used := by rw [step.entries, spares.entries j member other x used]
  data j member other x used := by
    have different : x ≠ c := fun same => apart j member other (same ▸ used)
    rw [step.data x different, spares.data j member other x used]

end Spares

/-- A disk on which every file but the one in slot `i` is spared is intact when that slot
holds nothing, the old file or the new one, on clusters of its own. -/
theorem intact_of (holds : Holds v disk cells) (spares : Spares v cells i disk disk₁)
    (before : ∀ j ∈ listed v disk₁, j ≠ i → j ∈ listed v disk)
    (after : ∀ j ∈ listed v disk, ¬ Matching v disk op.name j → j ∈ listed v disk₁ ∧ j ≠ i)
    (own : i ∈ listed v disk₁ →
      ((i ∈ listed v disk ∧
          v.readFile disk₁ (entryAt v disk₁ i) = v.readFile disk (entryAt v disk i)) ∨
        ∃ name data, op = .create name data ∧ Place v disk name i ∧
          v.readFile disk₁ (entryAt v disk₁ i) = .ok data) ∧
      ∀ c, OnChain v (table v disk₁ 0) (entryAt v disk₁ i).firstCluster c →
        ∀ j ∈ listed v disk, j ≠ i → c ∉ cells j) :
    Intact v op disk disk₁ where
  readable j member := by
    by_cases here : j = i
    · subst here
      exact (own member).1
    · have old := before j member here
      exact .inl ⟨old, spares.read holds old here⟩
  others j member unnamed := by
    obtain ⟨still, other⟩ := after j member unnamed
    exact ⟨still, spares.entryAt other, spares.read holds member other⟩
  apart a first b second different c onA onB := by
    by_cases here : a = i
    · subst here
      have old := before b second (Ne.symm different)
      exact (own first).2 c onA b old (Ne.symm different)
        (spares.onChain holds old (Ne.symm different) onB)
    · have old := before a first here
      have used := spares.onChain holds old here onA
      by_cases there : b = i
      · subst there
        exact (own second).2 c onB a old here used
      · have old' := before b second there
        exact holds.apart a old b old' different c used (spares.onChain holds old' there onB)

theorem intact_dead (holds : Holds v disk cells) (spares : Spares v cells i disk disk₁)
    (start : ∀ k < i, (slotOf v disk k).first ≠ entryFree)
    (dead : (slotOf v disk₁ i).first = entryDeleted)
    (named : i ∈ listed v disk → Matching v disk op.name i) : Intact v op disk disk₁ := by
  have gone : i ∉ listed v disk₁ := fun member => (mem_listed.mp member).2.2.1 dead
  have members : ∀ j, j ≠ i → (j ∈ listed v disk₁ ↔ j ∈ listed v disk) := fun j other =>
    holds.listed_other start (fun k apart => spares.slot apart) (by rw [dead]; decide) other
  refine intact_of holds spares (fun j member other => (members j other).mp member)
    (fun j member unnamed => ?_) fun member => absurd member gone
  have other : j ≠ i := by
    rintro rfl
    exact unnamed (named member)
  exact ⟨(members j other).mpr member, other⟩

/-- The directory is as it was; the file in slot `i` has its data, and its entries too
unless it is no longer than one cluster. -/
structure Pending (v : Volume) (cells : Nat → List Nat) (i : Nat) (disk disk' : Store) : Prop
    extends Spares v cells i disk disk' where
  slot : slotBytes v disk' i = slotBytes v disk i
  ownData : i ∈ listed v disk → ∀ c ∈ cells i, clusterData v disk' c = clusterData v disk c
  ownEntries : i ∈ listed v disk → ∀ c ∈ cells i, table v disk' 0 c = table v disk 0 c ∨
    (table v disk' 0 c = 0 ∧ (entryAt v disk i).size ≤ v.clusterBytes)

namespace Pending

theorem refl : Pending v cells i disk disk :=
  ⟨Spares.refl, rfl, fun _ _ _ => rfl, fun _ _ _ => .inl rfl⟩

theorem slotBytes_eq (pending : Pending v cells i disk disk₁) :
    slotBytes v disk₁ = slotBytes v disk := by
  funext j
  by_cases here : j = i
  · rw [here, pending.slot]
  · exact pending.slots j here

theorem directory (pending : Pending v cells i disk disk₁) :
    listed v disk₁ = listed v disk ∧ ∀ j, entryAt v disk₁ j = entryAt v disk j := by
  have slots : slotOf v disk₁ = slotOf v disk := by
    funext j
    unfold slotOf
    rw [pending.slotBytes_eq]
  refine ⟨?_, fun j => ?_⟩
  · unfold listed
    rw [slots]
  · rw [entryAt, slots, entryAt]

theorem ownRead (pending : Pending v cells i disk disk₁) (holds : Holds v disk cells)
    (member : i ∈ listed v disk) :
    v.readFile disk₁ (entryAt v disk i) = v.readFile disk (entryAt v disk i) := by
  have sound := holds.sound
  have long := holds.long i member
  by_cases empty : (entryAt v disk i).size = 0
  · rw [Volume.readFile, if_pos empty, Volume.readFile, if_pos empty]
  by_cases short : (entryAt v disk i).size ≤ v.clusterBytes
  · cases list : cells i with
    | nil =>
        rw [list] at long
        simp at long
        omega
    | cons c rest =>
        have chains := holds.chains i member
        rw [list] at chains
        obtain ⟨first, inside, _⟩ := chains.resolve_left fun none => by simp at none
        have same := pending.ownData member c (by rw [list]; exact List.mem_cons_self)
        rw [readFile_first sound empty (by rwa [first]), if_pos short, first, same,
          readFile_first sound empty (by rwa [first]), if_pos short, first]
  · have chains : ((entryAt v disk i).firstCluster < 2 ∧ cells i = []) ∨
        FileChain v (table v disk₁ 0) (entryAt v disk i).firstCluster (cells i) :=
      (holds.chains i member).imp id fun chain => chain.congr fun c used =>
        (pending.ownEntries member c used).resolve_right fun both => short both.2
    rw [holds.readFile member, readFile_content sound chains long,
      content_congr (pending.ownData member)]

theorem intact (pending : Pending v cells i disk disk₁) (holds : Holds v disk cells)
    (named : i ∈ listed v disk → Matching v disk op.name i) : Intact v op disk disk₁ := by
  obtain ⟨same, entries⟩ := pending.directory
  refine intact_of holds pending.toSpares (fun j member _ => same ▸ member)
    (fun j member unnamed => ⟨same ▸ member, ?_⟩) fun member => ?_
  · rintro rfl
    exact unnamed (named member)
  · rw [same] at member
    refine ⟨.inl ⟨member, by rw [entries, pending.ownRead holds member]⟩, fun c on j file other => ?_⟩
    rw [entries] at on
    have used : c ∈ cells i := by
      refine onChain_mem holds.sound.few (holds.chains i member) (fun x held => ?_) on
      refine (pending.ownEntries member x held).imp id fun cleared => ?_
      rw [cleared.1]
      unfold Inside
      omega
    exact holds.apart i member j file (Ne.symm other) c used

theorem indifferent (holds : Holds v disk cells) :
    Indifferent v disk (Pending v cells i disk) where
  entered disk₁ disk₂ c value _ free pending step := by
    have apart := fun j (member : j ∈ listed v disk) (used : c ∈ cells j) =>
      (holds.cells_used member c used).2 free
    refine ⟨pending.toSpares.entered (fun j member _ => apart j member) step, ?_,
      fun member x used => ?_, fun member x used => ?_⟩
    · rw [step.slots, pending.slot]
    · rw [step.data, pending.ownData member x used]
    · have different : x ≠ c := fun same => apart i member (same ▸ used)
      rw [step.entry, Function.update_of_ne different]
      exact pending.ownEntries member x used
  filled disk₁ disk₂ c _ free pending step := by
    have apart := fun j (member : j ∈ listed v disk) (used : c ∈ cells j) =>
      (holds.cells_used member c used).2 free
    refine ⟨pending.toSpares.filled (fun j member _ => apart j member) step, ?_,
      fun member x used => ?_, fun member x used => ?_⟩
    · rw [step.slots, pending.slot]
    · have different : x ≠ c := fun same => apart i member (same ▸ used)
      rw [step.data x different, pending.ownData member x used]
    · rw [step.entries]
      exact pending.ownEntries member x used

theorem released (pending : Pending v cells i disk disk₁) (holds : Holds v disk cells)
    (member : i ∈ listed v disk) (short : (entryAt v disk i).size ≤ v.clusterBytes) {c : Nat}
    (own : c ∈ cells i) (step : Entered v c 0 disk₁ disk₂) : Pending v cells i disk disk₂ where
  toSpares := pending.toSpares.entered
    (fun j file other => holds.apart i member j file (Ne.symm other) c own) step
  slot := by rw [step.slots, pending.slot]
  ownData _ x used := by rw [step.data, pending.ownData member x used]
  ownEntries _ x used := by
    rw [step.entry]
    by_cases here : x = c
    · subst here
      rw [Function.update_self]
      exact .inr ⟨rfl, short⟩
    · rw [Function.update_of_ne here]
      exact pending.ownEntries member x used

end Pending

end Sparing

section Operating

variable {v : Volume} {d : Drive} {cells : Nat → List Nat} {name : List Char} {data : List UInt8}
  {i : Nat} {existing : Option Entry}

theorem intact_start {op : Operation} {disk : Store} (holds : Holds v disk cells) :
    Intact v op disk disk :=
  Pending.refl.intact (i := slotCount v) holds fun member =>
    absurd (mem_listed.mp member).1 (Nat.lt_irrefl _)

theorem releaseOld_passes {P : Store → Prop} {disk : Store} (holds : Holds v disk cells)
    (member : i ∈ listed v disk) (same : ∀ c ∈ cells i, table v d.contents 0 c = table v disk 0 c)
    (clearing : ∀ disk₁ disk₂, ∀ c ∈ cells i, P disk₁ → Entered v c 0 disk₁ disk₂ → P disk₂)
    (start : P d.contents) : Passes P d (releaseOld v (some (entryAt v disk i)) d).2 := by
  have sound := holds.sound
  rw [releaseOld]
  rcases holds.chains i member with ⟨small, _⟩ | chain
  · rw [if_neg (by omega)]
    exact .refl start
  · rw [if_pos chain.first_large, freeChain]
    exact freeFrom_passes sound clearing (chain.congr same)
      (Nat.le_succ_of_le (chain_length sound chain)) (fun _ used => used) start

theorem remove_passes (holds : Holds v d.contents cells) :
    Passes (Intact v (.remove name) d.contents) d (Writing.remove v name d).2 := by
  have start : Intact v (.remove name) d.contents d.contents := intact_start holds
  cases found : directorySlot v d.contents name with
  | error crowded =>
      rw [Writing.remove, found]
      exact .refl start
  | ok place =>
      obtain ⟨sector, offset, existing⟩ := place
      obtain ⟨i, target, rfl, rfl⟩ := target_of_slot found
      cases existing with
      | none =>
          rw [remove_absent target]
          exact .refl start
      | some entry =>
          rcases target.own with ⟨member, _, same, _⟩ | ⟨_, none, _⟩
          · obtain rfl := Option.some.inj same
            obtain ⟨tables, contents, _, slots⟩ := marked_tables holds.sound target.inside
            have marking : Spares v cells i d.contents (marked v d i).contents := by
              refine ⟨fun j other => ?_, fun j _ _ c _ => ?_, fun j _ _ c _ => ?_⟩
              · rw [slots, Function.update_of_ne other]
              · rw [tables]
              · rw [contents]
            have dead : (slotOf v (marked v d i).contents i).first = entryDeleted := by
              rw [Slot.first, slotOf, slots, Function.update_self]
              rfl
            have intact : ∀ disk', Spares v cells i d.contents disk' ∧
                (slotOf v disk' i).first = entryDeleted →
                Intact v (.remove name) d.contents disk' := fun disk' both =>
              intact_dead holds both.1 (fun k below => (mem_listed.mp member).2.1 k
                (Nat.le_of_lt below)) both.2 fun _ => target.named member
            have released := releaseOld_passes (d := marked v d i) holds member
              (P := fun disk' => Spares v cells i d.contents disk' ∧
                (slotOf v disk' i).first = entryDeleted)
              (fun c _ => by rw [tables])
              (fun disk₁ disk₂ c own both step => by
                refine ⟨both.1.entered (fun j file other =>
                  holds.apart i member j file (Ne.symm other) c own) step, ?_⟩
                rw [slotOf, step.slots]
                exact both.2) ⟨marking, dead⟩
            rw [remove_found target]
            exact (Passes.write start (intact _ ⟨marking, dead⟩)).trans (released.mono intact)
          · simp at none

/-- The disk on which a create has finished is intact, unless its slot cuts the listing off
before a file that it does not name. -/
theorem created_intact {disk disk' : Store} (holds : Holds v disk cells) (fits : Fits name)
    (target : Target v disk name i existing)
    (created : Created v name data i (fresh v disk data) (oldCells v disk cells i) disk disk')
    (uncut : (bytes name).head? = some 0 → ∀ j ∈ listed v disk, i < j → Matching v disk name j) :
    Intact v (.create name data) disk disk' := by
  have sound := holds.sound
  have spares : Spares v cells i disk disk' := by
    refine ⟨fun j other => ?_, fun j member other c used => ?_, fun j member other c used => ?_⟩
    · rw [created.slots, Function.update_of_ne other]
    · obtain ⟨unclaimed, unreleased⟩ :
          c ∉ fresh v disk data ∧ c ∉ oldCells v disk cells i :=
        Keeping.other_cells holds member other c used
      rw [Keeping.created_table holds created, if_neg unreleased, claim_other unclaimed]
    · exact created.kept c (Keeping.other_cells holds member other c used).1
  obtain ⟨first, _, _⟩ := Keeping.slot_new holds fits created
  by_cases ends : firstByte name = entryFree
  · have members := fun j => Keeping.created_cut (j := j) holds fits created ends
    refine intact_of holds spares (fun j member _ => ((members j).mp member).1)
      (fun j member unnamed => ?_) fun member => absurd ((members i).mp member).2 (Nat.lt_irrefl _)
    have here : j ≠ i := by
      rintro rfl
      exact unnamed (target.named member)
    have below : ¬ i < j := fun later =>
      unnamed (uncut ((firstByte_free fits).mp ends) j member later)
    exact ⟨(members j).mpr ⟨member, by omega⟩, here⟩
  by_cases dead : firstByte name = entryDeleted
  · exact intact_dead holds spares (Keeping.before_target target) (first.trans dead) target.named
  · have members := fun j => Keeping.created_listed (j := j) holds fits target created ends dead
    have again := Keeping.created_holds holds fits target created ends dead
    refine ⟨fun j member => ?_, fun j member unnamed => ?_, fun a one b two different c onA onB => ?_⟩
    · by_cases here : j = i
      · subst here
        exact .inr ⟨name, data, rfl, ⟨existing, target.place⟩,
          Keeping.created_reads holds fits target created ends dead⟩
      · have old := ((members j).mp member).resolve_left here
        exact .inl ⟨old, (Keeping.created_others holds fits target created ends dead old here).2.2⟩
    · have here : j ≠ i := by
        rintro rfl
        exact unnamed (target.named member)
      exact Keeping.created_others holds fits target created ends dead member here
    · exact again.apart a one b two different c
        (onChain_mem sound.few (again.chains a one) (fun _ _ => .inl rfl) onA)
        (onChain_mem sound.few (again.chains b two) (fun _ _ => .inl rfl) onB)

/-- What `create` does with the data, before the old chain is released. -/
def written (v : Volume) (data : List UInt8) (d : Drive) : Drive :=
  if data.isEmpty then d else (writeChain v data d).2

theorem written_stored (sound : Sound v)
    (room : data.isEmpty = false → needed v data ≤ countFree v d.contents) :
    (if data.isEmpty then (.ok 0, d) else writeChain v data d) =
        (.ok ((fresh v d.contents data).headD 0), written v data d) ∧
      Stored v data (fresh v d.contents data) d.contents (written v data d).contents := by
  unfold written
  cases empty : data.isEmpty with
  | true =>
      obtain rfl := List.isEmpty_iff.mp empty
      exact ⟨rfl, Stored.empty v d.contents⟩
  | false =>
      obtain ⟨result, stored⟩ := writeChain_stored sound empty (room empty)
      exact ⟨Prod.ext result rfl, stored⟩

theorem written_passes {P : Store → Prop} (sound : Sound v)
    (indifferent : Indifferent v d.contents P) (start : P d.contents) :
    Passes P d (written v data d) := by
  unfold written
  split_ifs
  · exact .refl start
  · exact writeChain_passes sound indifferent start data

theorem create_parts (holds : Holds v d.contents cells) (fits : Fits name)
    (target : Target v d.contents name i existing)
    (room : data.isEmpty = false → needed v data ≤ countFree v d.contents) :
    ∃ slot, (Writing.create v name data d).2 =
      (releaseOld v existing (written v data d)).2.write (slotOf v d.contents i).sector slot := by
  obtain ⟨stored, contents⟩ := written_stored holds.sound room
  obtain ⟨released, _⟩ := releaseOld_tabled holds target contents fun c member =>
    (mem_fresh member).2
  rcases outcome : releaseOld v existing (written v data d) with ⟨r, d₂⟩
  rw [outcome] at released
  obtain rfl : r = _ := released
  rw [create_fits fits, target.place]
  simp only [stored, outcome]
  exact ⟨_, rfl⟩

theorem create_passes (holds : Holds v d.contents cells)
    (safe : ¬ Endangers v d.contents (.create name data)) :
    Passes (Intact v (.create name data) d.contents) d (Writing.create v name data d).2 := by
  have sound := holds.sound
  have start : Intact v (.create name data) d.contents d.contents := intact_start holds
  by_cases fits : Fits name
  · cases found : directorySlot v d.contents name with
    | error crowded =>
        rw [create_crowded fits found]
        exact .refl start
    | ok place =>
        obtain ⟨sector, offset, existing⟩ := place
        obtain ⟨i, target, rfl, rfl⟩ := target_of_slot found
        have intact : ∀ disk', Pending v cells i d.contents disk' →
            Intact v (.create name data) d.contents disk' := fun disk' pending =>
          pending.intact holds target.named
        by_cases room : data.isEmpty = false → needed v data ≤ countFree v d.contents
        · have harmless := fun danger => safe ⟨fits, room, i, existing, target.place, danger⟩
          obtain ⟨short, uncut⟩ := not_or.mp harmless
          have storing : Passes (Pending v cells i d.contents) d (written v data d) :=
            written_passes sound (Pending.indifferent holds) Pending.refl
          have releasing : Passes (Pending v cells i d.contents) (written v data d)
              (releaseOld v existing (written v data d)).2 := by
            rcases target.own with ⟨member, _, rfl, _⟩ | ⟨_, rfl, _, _⟩
            · have few : (entryAt v d.contents i).size ≤ v.clusterBytes := by
                by_contra long
                exact short ⟨_, rfl, by omega⟩
              refine releaseOld_passes holds member (fun c used => ?_)
                (fun disk₁ disk₂ c own pending step =>
                  pending.released holds member few own step) storing.last
              rw [(written_stored sound room).2.entries 0 sound.copies, claim_other]
              exact fun new => (holds.cells_used member c used).2 (mem_fresh new).2
            · exact .refl storing.last
          have created := (create_done holds fits target room).2
          have done := created_intact holds fits target created fun nul j member later => by
            by_contra unnamed
            exact uncut ⟨nul, j, member, later, unnamed⟩
          obtain ⟨slot, parts⟩ := create_parts holds fits target room
          rw [parts] at done ⊢
          exact ((storing.trans releasing).mono intact).trans
            (.write (intact _ releasing.last) done)
        · rw [Classical.not_imp] at room
          obtain ⟨some, few⟩ := room
          obtain ⟨result, _⟩ := writeChain_short sound (Nat.lt_of_not_le few)
          have storing := writeChain_passes sound (Pending.indifferent (i := i) holds)
            Pending.refl data
          rcases outcome : writeChain v data d with ⟨r, d₁⟩
          rw [outcome] at result storing
          obtain rfl : r = _ := result
          rw [create_fits fits, target.place, some]
          simp only [Bool.false_eq_true, if_false, outcome]
          exact storing.mono intact
  · rw [create_misfit fits]
    exact .refl start

end Operating

section Endangered

variable {v : Volume} {d : Drive} {cells : Nat → List Nat} {name : List Char} {data : List UInt8}
  {i : Nat} {existing : Option Entry}

theorem follows_setFatEntry (cluster value : Nat) (d : Drive) :
    Follows d (setFatEntry v cluster value d) := by
  rw [setFatEntry_rounds]
  exact follows_foldl (fun _ _ => .write trivial trivial) _ d

theorem follows_freeFrom (left cluster : Nat) (d : Drive) :
    Follows d (freeFrom v left cluster d).2 := by
  induction left generalizing cluster d with
  | zero =>
      unfold freeFrom
      split_ifs
      · exact .refl trivial
      · exact .refl trivial
  | succ left ih =>
      unfold freeFrom
      split_ifs
      · exact (follows_setFatEntry _ _ d).trans (ih _ _)
      · exact .refl trivial

theorem follows_written (sound : Sound v) : Follows d (written v data d) :=
  written_passes sound ⟨fun _ _ _ _ _ _ _ _ => trivial, fun _ _ _ _ _ _ _ => trivial⟩ trivial

/-- With the entry of its first cluster cleared in the first copy of the table, a file
longer than a cluster is listed and cannot be read. -/
theorem long_unsafe (holds : Holds v d.contents cells) (fits : Fits name)
    (room : data.isEmpty = false → needed v data ≤ countFree v d.contents)
    (target : Target v d.contents name i existing) {old : Entry} (own : existing = some old)
    (long : v.clusterBytes < old.size) : ¬ CrashSafe v (.create name data) d := by
  intro crash
  have sound := holds.sound
  rcases target.own with ⟨member, _, same, _⟩ | ⟨_, none, _, _⟩
  · obtain rfl : old = entryAt v d.contents i := Option.some.inj (own.symm.trans same)
    subst own
    obtain ⟨first, head, inside⟩ : ∃ first, (entryAt v d.contents i).firstCluster = first ∧
        Inside v first := by
      have enough := holds.long i member
      cases list : cells i with
      | nil =>
          rw [list] at enough
          simp at enough
          omega
      | cons c rest =>
          have chains := holds.chains i member
          rw [list] at chains
          obtain ⟨head, inside, _⟩ := chains.resolve_left fun none => by simp at none
          exact ⟨c, head, inside⟩
    have stored := (written_stored sound room).2
    obtain ⟨k, copies⟩ : ∃ k, v.fatCount = k + 1 := ⟨v.fatCount - 1, by have := sound.copies; omega⟩
    obtain ⟨entries, slots, _⟩ := entryRound_entries sound (written v data d) 0 0
      (sound.listed inside) (by decide) sound.copies
    rw [if_pos rfl] at entries
    have early : Follows d (entryRound v first 0 (written v data d) 0) :=
      (follows_written sound).trans (.write trivial trivial)
    have rest : Follows (entryRound v first 0 (written v data d) 0)
        (Writing.create v name data d).2 := by
      obtain ⟨slot, parts⟩ := create_parts holds fits target room
      have unmarked := inside_not_end sound.few _ inside
      have turn : (releaseOld v (some (entryAt v d.contents i)) (written v data d)).2 =
          (freeFrom v v.clusters (v.nextCluster (written v data d).contents first)
            ((List.range k).foldl (fun d' copy => entryRound v first 0 d' (copy + 1))
              (entryRound v first 0 (written v data d) 0))).2 := by
        rw [releaseOld, head, if_pos inside.1, freeChain,
          freeFrom, if_pos ⟨inside.1, by omega⟩, setFatEntry_rounds, copies, List.range_succ_eq_map,
          List.foldl_cons, List.foldl_map]
      rw [parts, turn]
      exact ((follows_foldl (fun _ _ => .write trivial trivial) _ _).trans
        (follows_freeFrom _ _ _)).trans (.write trivial trivial)
    have intact := Passes.between early rest crash
    have same : slotOf v (entryRound v first 0 (written v data d) 0).contents =
        slotOf v d.contents := by
      funext j
      unfold slotOf
      rw [slots, stored.slots]
    have still : i ∈ listed v (entryRound v first 0 (written v data d) 0).contents := by
      unfold listed
      rw [same]
      exact member
    have entry : entryAt v (entryRound v first 0 (written v data d) 0).contents i =
        entryAt v d.contents i := by
      rw [entryAt, same, entryAt]
    have lost : v.readFile (entryRound v first 0 (written v data d) 0).contents
        (entryAt v d.contents i) =
          .error "chain left the volume" :=
      readFile_cut sound (by rw [head]; exact inside) long
        (by rw [head, entries, Function.update_self])
    rw [← entry] at lost
    rcases intact.readable i still with ⟨_, read⟩ | ⟨_, _, _, _, read⟩
    · rw [lost, holds.readFile member] at read
      simp at read
    · rw [lost] at read
      simp at read
  · rw [own] at none
    simp at none

theorem cut_unsafe (holds : Holds v d.contents cells) (fits : Fits name)
    (room : data.isEmpty = false → needed v data ≤ countFree v d.contents)
    (target : Target v d.contents name i existing) (nul : (bytes name).head? = some 0) {j : Nat}
    (member : j ∈ listed v d.contents) (later : i < j)
    (unnamed : ¬ Matching v d.contents name j) : ¬ CrashSafe v (.create name data) d := by
  intro crash
  obtain ⟨slot, parts⟩ := create_parts holds fits target room
  have whole : Follows d (Writing.create v name data d).2 := by
    have releasing : Follows (written v data d) (releaseOld v existing (written v data d)).2 := by
      cases existing with
      | none => exact .refl trivial
      | some old =>
          rw [releaseOld]
          split_ifs
          · exact follows_freeFrom _ _ _
          · exact .refl trivial
    rw [parts]
    exact ((follows_written holds.sound).trans releasing).trans (.write trivial trivial)
  have intact := Passes.between whole (.refl trivial) crash
  have created := (create_done holds fits target room).2
  obtain ⟨still, _⟩ := intact.others j member unnamed
  have before := (Keeping.created_cut holds fits created ((firstByte_free fits).mpr nul)).mp still
  omega

end Endangered

/-- A create or a remove can be cut short after any of its writes without harm to a file,
unless it replaces a file longer than one cluster, or its name begins with NUL and its slot
is before that of a file with another name. -/
theorem crash_safe_iff {v : Volume} {op : Operation} {d : Drive}
    (consistent : Consistent v d.contents) :
    CrashSafe v op d ↔ ¬ Endangers v d.contents op := by
  obtain ⟨cells, holds⟩ := consistent
  constructor
  · intro crash danger
    cases op with
    | create name data =>
        obtain ⟨fits, room, i, existing, found, danger⟩ := danger
        obtain ⟨i', target, sectors, offsets⟩ := target_of_slot found
        obtain rfl := place_inj sectors offsets
        rcases danger with ⟨old, own, long⟩ | ⟨nul, j, member, later, unnamed⟩
        · exact long_unsafe holds fits room target own long crash
        · exact cut_unsafe holds fits room target nul member later unnamed crash
    | remove name => exact danger
  · intro safe new writes
    cases op with
    | create name data => exact (create_passes holds safe).all writes
    | remove name => exact (remove_passes holds).all writes

theorem crash_safe_iff_notes : ∃ d : Drive, Consistent Image.volume d.contents ∧
    CrashSafe Image.volume (.remove "BIG".toList) d := by
  obtain ⟨disk, consistent, _⟩ := Image.volume_of_one [1, 2, 3] (by decide)
  exact ⟨⟨disk, []⟩, consistent, (crash_safe_iff (d := ⟨disk, []⟩) consistent).mpr id⟩

end FiveAM.Fat.Crashes
