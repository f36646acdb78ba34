/- GID: FiveAM/Fat/Tables
   source: kernel/src/fat.rs
   digest: What claiming, linking and releasing clusters does to every copy of the table. -/

import FiveAM.Fat.Layout

set_option autoImplicit false
set_option relaxedAutoImplicit false

namespace FiveAM.Fat.Tables

open FiveAM.Lib.ByteRegions FiveAM.Lib.LinkedTable
open FiveAM.Fat.Reading FiveAM.Fat.Writing FiveAM.Fat.Layout

/-- Only the table is different afterwards, every copy of it by `change`. -/
structure Tabled (v : Volume) (change : (Nat → Nat) → Nat → Nat) (disk disk' : Store) : Prop where
  entries : ∀ copy < v.fatCount, table v disk' copy = change (table v disk copy)
  slots : slotBytes v disk' = slotBytes v disk
  data : clusterData v disk' = clusterData v disk
  boots : boot disk' = boot disk

theorem Tabled.rfl {v : Volume} {disk : Store} : Tabled v id disk disk :=
  ⟨fun _ _ => Eq.refl _, Eq.refl _, Eq.refl _, Eq.refl _⟩

theorem Tabled.trans {v : Volume} {change change' : (Nat → Nat) → Nat → Nat}
    {disk disk' disk'' : Store} (first : Tabled v change disk disk')
    (second : Tabled v change' disk' disk'') :
    Tabled v (fun f => change' (change f)) disk disk'' where
  entries copy bound := by rw [second.entries copy bound, first.entries copy bound]
  slots := second.slots.trans first.slots
  data := second.data.trans first.data
  boots := second.boots.trans first.boots

theorem Tabled.as {v : Volume} {change change' : (Nat → Nat) → Nat → Nat} {disk disk' : Store}
    (tabled : Tabled v change disk disk') (same : ∀ f, change f = change' f) :
    Tabled v change' disk disk' where
  entries copy bound := by rw [tabled.entries copy bound, same]
  slots := tabled.slots
  data := tabled.data
  boots := tabled.boots

section Entries

variable {v : Volume} (sound : Sound v)

include sound

theorem write_entry (d : Drive) (cluster copy : Nat) (word : List UInt8)
    (two : word.length = 2) :
    let target := (fatEntryLocation v cluster).1 + copy * v.sectorsPerFat
    (d.write target (splice (Reading.read d.contents target 1) (fatEntryLocation v cluster).2
      word)).contents = poke d.contents (tableAt v copy cluster) word := by
  have split := Nat.div_add_mod (cluster * 2) sectorSize
  have within : cluster * 2 % sectorSize + 2 ≤ sectorSize := by
    unfold sectorSize
    omega
  have place : sectorSize * (v.fatStart + cluster * 2 / sectorSize + copy * v.sectorsPerFat) +
      cluster * 2 % sectorSize = tableAt v copy cluster := by
    unfold tableAt sectorSize at *
    omega
  simp only [fatEntryLocation, sound.sector, Drive.write, Reading.read, Nat.mul_one]
  rw [poke_splice (by omega), place]

theorem setFatEntry_tabled (d : Drive) (value : Nat) {cluster : Nat}
    (inside : 2 * cluster < sectorSize * v.sectorsPerFat) (small : value < 2 ^ 16) :
    Tabled v (fun f => Function.update f cluster value) d.contents
      (setFatEntry v cluster value d).contents := by
  have rounds : ∀ n, n ≤ v.fatCount → ∀ d' : Drive,
      d' = (List.range n).foldl (fun d copy =>
        d.write ((fatEntryLocation v cluster).1 + copy * v.sectorsPerFat)
          (splice (Reading.read d.contents
            ((fatEntryLocation v cluster).1 + copy * v.sectorsPerFat) 1)
            (fatEntryLocation v cluster).2 (le16 value))) d →
      (∀ copy, table v d'.contents copy =
        if copy < n then Function.update (table v d.contents copy) cluster value
        else table v d.contents copy) ∧
      slotBytes v d'.contents = slotBytes v d.contents ∧
      clusterData v d'.contents = clusterData v d.contents ∧
      boot d'.contents = boot d.contents := by
    intro n
    induction n with
    | zero =>
        rintro _ d' rfl
        exact ⟨fun _ => rfl, rfl, rfl, rfl⟩
    | succ n ih =>
        rintro bound d' rfl
        obtain ⟨entries, slots, data, boots⟩ := ih (by omega) _ rfl
        rw [List.range_succ, List.foldl_append, List.foldl_cons, List.foldl_nil,
          write_entry sound _ _ _ _ rfl]
        obtain ⟨slots', data', boots'⟩ := poke_table sound (List.foldl _ d (List.range n)).contents
          bound inside (show (le16 value).length = 2 from rfl)
        refine ⟨fun copy => ?_, slots'.trans slots, data'.trans data, boots'.trans boots⟩
        rw [table_poke bound inside small]
        by_cases here : copy = n
        · subst here
          rw [if_pos rfl, if_pos (by omega), entries, if_neg (by omega)]
        · rw [if_neg here, entries]
          by_cases before : copy < n
          · rw [if_pos before, if_pos (by omega)]
          · rw [if_neg before, if_neg (by omega)]
  obtain ⟨entries, slots, data, boots⟩ := rounds v.fatCount (Nat.le_refl _) _ rfl
  refine ⟨fun copy bound => ?_, slots, data, boots⟩
  rw [setFatEntry, entries, if_pos bound]

omit sound in
theorem filter_range'_cons {p : Nat → Bool} {s n c : Nat} {rest : List Nat}
    (found : (List.range' s n).filter p = c :: rest) :
    s ≤ c ∧ c < s + n ∧ p c = true ∧
      rest = (List.range' (c + 1) (s + n - (c + 1))).filter p := by
  induction n generalizing s with
  | zero => simp at found
  | succ n ih =>
      rw [List.range'_succ] at found
      by_cases here : p s = true
      · rw [List.filter_cons_of_pos here] at found
        obtain ⟨rfl, rfl⟩ := List.cons.inj found
        rw [show s + (n + 1) - (s + 1) = n by omega]
        exact ⟨Nat.le_refl _, by omega, here, rfl⟩
      · rw [List.filter_cons_of_neg here] at found
        obtain ⟨low, high, holds, later⟩ := ih found
        rw [show s + 1 + n - (c + 1) = s + (n + 1) - (c + 1) by omega] at later
        exact ⟨by omega, by omega, holds, later⟩

end Entries

/-- The clusters that table `f` shows unused, from `start` up. -/
def freeCells (v : Volume) (f : Nat → Nat) (start : Nat) : List Nat :=
  (List.range' (max start 2) (v.clusters + 2 - max start 2)).filter fun c => f c = 0

theorem mem_freeCells {v : Volume} {f : Nat → Nat} {start c : Nat} :
    c ∈ freeCells v f start ↔ Inside v c ∧ start ≤ c ∧ f c = 0 := by
  unfold freeCells Inside
  rw [List.mem_filter, List.mem_range'_1, decide_eq_true_iff]
  omega

theorem freeCells_nodup (v : Volume) (f : Nat → Nat) (start : Nat) :
    (freeCells v f start).Nodup :=
  (List.nodup_range' 1).filter _

theorem freeCells_cons {v : Volume} {f : Nat → Nat} {start c value : Nat} {rest : List Nat}
    (found : freeCells v f start = c :: rest) :
    freeCells v (Function.update f c value) (c + 1) = rest := by
  obtain ⟨low, high, _, later⟩ := filter_range'_cons found
  rw [freeCells, Nat.max_eq_left (by omega), later,
    show max start 2 + (v.clusters + 2 - max start 2) - (c + 1) = v.clusters + 2 - (c + 1) by omega]
  apply List.filter_congr
  intro x member
  rw [List.mem_range'_1] at member
  rw [Function.update_of_ne (by omega)]

section Chains

variable {v : Volume} (sound : Sound v)

include sound

theorem findFreeCluster_eq (disk : Store) (start : Nat) :
    findFreeCluster v disk start =
      match freeCells v (table v disk 0) start with
      | [] => .error "the volume is full"
      | c :: _ => .ok c := by
  have same : freeCells v (table v disk 0) start =
      (List.range' (max start 2) (v.clusters + 2 - max start 2)).filter
        fun c => v.nextCluster disk c = 0 := by
    apply List.filter_congr
    intro c member
    rw [List.mem_range'_1] at member
    rw [nextCluster_eq sound (sound.listed ⟨by omega, by omega⟩)]
  have first : (List.range' (max start 2) (v.clusters + 2 - max start 2)).find?
      (fun c => v.nextCluster disk c = 0) = (freeCells v (table v disk 0) start).head? := by
    rw [same, List.head?_filter]
  rw [findFreeCluster, first]
  cases freeCells v (table v disk 0) start with
  | nil => rfl
  | cons c rest => rfl

theorem countFree_eq (disk : Store) :
    countFree v disk = (freeCells v (table v disk 0) 2).length := by
  unfold countFree freeCells
  rw [Nat.max_self, Nat.add_sub_cancel]
  apply congrArg List.length
  apply List.filter_congr
  intro c member
  rw [List.mem_range'_1] at member
  rw [nextCluster_eq sound (sound.listed ⟨by omega, by omega⟩)]

theorem reserve_tabled (needed start : Nat) (d : Drive) :
    (reserve v needed start d).1 =
        (if needed ≤ (freeCells v (table v d.contents 0) start).length then
          .ok ((freeCells v (table v d.contents 0) start).take needed)
        else .error "the volume is full") ∧
      Tabled v (fun f => setAll f ((freeCells v (table v d.contents 0) start).take needed) 0xFFFF)
        d.contents (reserve v needed start d).2.contents := by
  induction needed generalizing start d with
  | zero => exact ⟨by simp [reserve], Tabled.rfl.as fun f => by simp⟩
  | succ needed ih =>
      rw [reserve, findFreeCluster_eq sound]
      cases cells : freeCells v (table v d.contents 0) start with
      | nil => exact ⟨by simp, Tabled.rfl.as fun f => by simp⟩
      | cons c rest =>
          have member : c ∈ freeCells v (table v d.contents 0) start := by simp [cells]
          have inside := sound.listed (mem_freeCells.mp member).1
          have claimed := setFatEntry_tabled sound d 0xFFFF inside (by decide)
          obtain ⟨result, tabled⟩ := ih (c + 1) (setFatEntry v c 0xFFFF d)
          rw [claimed.entries 0 sound.copies, freeCells_cons cells] at result tabled
          have whole : Tabled v (fun f => setAll f ((c :: rest).take (needed + 1)) 0xFFFF) d.contents
              (reserve v needed (c + 1) (setFatEntry v c 0xFFFF d)).2.contents :=
            (claimed.trans tabled).as fun f => by rw [List.take_succ_cons, setAll_cons]
          rcases outcome : reserve v needed (c + 1) (setFatEntry v c 0xFFFF d) with ⟨r, d'⟩
          rw [outcome] at result whole
          have split : needed + 1 ≤ (c :: rest).length ↔ needed ≤ rest.length := by
            rw [List.length_cons, Nat.add_le_add_iff_right]
          by_cases enough : needed ≤ rest.length
          · rw [if_pos enough] at result
            rw [if_pos (split.mpr enough)]
            obtain rfl : r = _ := result
            simp only [outcome]
            exact ⟨rfl, whole⟩
          · rw [if_neg enough] at result
            rw [if_neg (mt split.mp enough)]
            obtain rfl : r = _ := result
            simp only [outcome]
            exact ⟨trivial, whole⟩

/-- A chain of clusters on the volume, closed by an end mark. -/
def FileChain (v : Volume) (f : Nat → Nat) (first : Nat) (cells : List Nat) : Prop :=
  Chain f (Inside v) (endOfChain ≤ ·) first cells

omit sound in
theorem inside_not_end (few : v.clusters < 65525) (c : Nat) (inside : Inside v c) :
    ¬ endOfChain ≤ c := by
  have := inside.2
  unfold endOfChain
  omega

theorem inside_small {c : Nat} (inside : Inside v c) : c < 2 ^ 16 := by
  have := inside.2
  have := sound.few
  omega

omit sound in
theorem FileChain.first_large {f : Nat → Nat} {first : Nat} {cells : List Nat}
    (chain : FileChain v f first cells) : 2 ≤ first := by
  cases cells with
  | nil => exact Nat.le_trans (by decide) (show endOfChain ≤ first from chain)
  | cons c rest =>
      obtain ⟨rfl, inside, _⟩ := chain
      exact inside.1

theorem link_tabled (cells : List Nat) (all : ∀ c ∈ cells, Inside v c) (d : Drive) :
    Tabled v (fun f => linkAll f cells 0xFFFF) d.contents (link v cells d).contents := by
  induction cells generalizing d with
  | nil => exact Tabled.rfl
  | cons c rest ih =>
      have later := ih (fun x member => all x (List.mem_cons_of_mem _ member)) d
      have small : rest.headD 0xFFFF < 2 ^ 16 := by
        cases rest with
        | nil => decide
        | cons x others => exact inside_small sound (all x (by simp))
      exact later.trans (setFatEntry_tabled sound _ _ (sound.listed (all c (by simp))) small)

theorem freeFrom_tabled {left first : Nat} {cells : List Nat} {d : Drive}
    (chain : FileChain v (table v d.contents 0) first cells) (enough : cells.length ≤ left) :
    (freeFrom v left first d).1 = .ok () ∧
      Tabled v (fun f => setAll f cells 0) d.contents (freeFrom v left first d).2.contents := by
  induction cells generalizing left first d with
  | nil =>
      have ends : endOfChain ≤ first := chain
      unfold freeFrom
      rw [if_neg (by omega)]
      exact ⟨rfl, Tabled.rfl.as fun f => by simp⟩
  | cons c rest ih =>
      have distinct := chain.nodup (inside_not_end sound.few)
      obtain ⟨rfl, inside, later⟩ := chain
      obtain ⟨left, rfl⟩ : ∃ n, left = n + 1 := ⟨left - 1, by simp at enough; omega⟩
      have unmarked := inside_not_end sound.few first inside
      have released := setFatEntry_tabled sound d 0 (sound.listed inside) (by decide)
      have onward : FileChain v (table v (setFatEntry v first 0 d).contents 0)
          (table v d.contents 0 first) rest := by
        rw [released.entries 0 sound.copies]
        exact later.congr fun x member => Function.update_of_ne
          (fun equal : x = first => (List.nodup_cons.mp distinct).1 (equal ▸ member)) _ _
      obtain ⟨result, tabled⟩ := ih onward (by simpa using enough)
      unfold freeFrom
      rw [if_pos ⟨inside.1, by omega⟩, nextCluster_eq sound (sound.listed inside)]
      exact ⟨result, (released.trans tabled).as fun f => by rw [setAll_cons]⟩

theorem fill_data (data : List UInt8) (cells : List Nat) (distinct : cells.Nodup)
    (all : ∀ c ∈ cells, Inside v c) (index : Nat) (d : Drive) :
    (cells.map (clusterData v (fill v data cells index d).contents) =
        (List.range' index cells.length).map (chunk data v.clusterBytes)) ∧
      (∀ c, c ∉ cells → clusterData v (fill v data cells index d).contents c =
        clusterData v d.contents c) ∧
      table v (fill v data cells index d).contents = table v d.contents ∧
      slotBytes v (fill v data cells index d).contents = slotBytes v d.contents ∧
      boot (fill v data cells index d).contents = boot d.contents := by
  induction cells generalizing index d with
  | nil => exact ⟨rfl, fun _ _ => rfl, rfl, rfl, rfl⟩
  | cons c rest ih =>
      obtain ⟨fresh, distinct⟩ := List.nodup_cons.mp distinct
      have inside := all c (by simp)
      have whole : (chunk data v.clusterBytes index).length = v.clusterBytes := by
        simp only [chunk, List.length_append, List.length_replicate, List.length_take]
        omega
      have written := clusterData_poke sound d.contents inside whole
      obtain ⟨entries', slots', boots'⟩ := poke_cluster sound d.contents c
        (chunk data v.clusterBytes index)
      obtain ⟨chunks, kept, entries, slots, boots⟩ := ih distinct
        (fun x member => all x (List.mem_cons_of_mem _ member)) (index + 1)
        (d.write (v.clusterToSector c) (chunk data v.clusterBytes index))
      refine ⟨?_, ?_, entries.trans entries', slots.trans slots', boots.trans boots'⟩
      · rw [List.map_cons, List.length_cons, List.range'_succ, List.map_cons, fill, kept c fresh]
        have here := congrFun written c
        rw [Function.update_self] at here
        exact congrArg₂ List.cons here chunks
      · intro x out
        rw [List.mem_cons, not_or] at out
        have here := congrFun written x
        rw [Function.update_of_ne out.1] at here
        rw [fill, kept x out.2]
        exact here

end Chains

theorem chunks_flatten (data : List UInt8) (size n : Nat) :
    ((List.range' 0 n).map (chunk data size)).flatten =
      data.take (n * size) ++ List.replicate (n * size - data.length) 0 := by
  induction n with
  | zero => simp
  | succ n ih =>
      rw [← List.range_eq_range'] at ih ⊢
      rw [List.range_succ, List.map_append, List.flatten_append, ih, List.map_singleton,
        List.flatten_singleton, chunk, Nat.add_mul, Nat.one_mul, List.take_add]
      rcases Nat.le_total data.length (n * size) with short | long
      · rw [List.drop_eq_nil_of_le short]
        simp only [List.take_nil, List.length_nil, Nat.sub_zero, List.nil_append, List.append_nil,
          List.append_assoc, List.replicate_append_replicate]
        rw [show n * size - data.length + size = n * size + size - data.length by omega]
      · rw [Nat.sub_eq_zero_of_le long, List.replicate_zero, List.append_nil, List.append_assoc]
        congr 3
        rw [List.length_take, List.length_drop]
        omega

theorem chunks_whole {data : List UInt8} {size n : Nat} (enough : data.length ≤ n * size) :
    (((List.range' 0 n).map (chunk data size)).flatten).take data.length = data := by
  rw [chunks_flatten, List.take_of_length_le enough, List.take_left' rfl]

end FiveAM.Fat.Tables
