/- GID: FiveAM/Memory/Teardown
   source: kernel/src/memory.rs
   digest: Taking an address space down returns its tables and every page nobody else has. -/

import FiveAM.Memory.Spaces
import Mathlib.Algebra.BigOperators.Fin

set_option autoImplicit false
set_option relaxedAutoImplicit false

namespace FiveAM.Memory.Teardown

open FiveAM.Process.TaskTable (Word)
open FiveAM.Memory.Entries FiveAM.Memory.Frames FiveAM.Memory.Replace FiveAM.Memory.PageTables
open FiveAM.Memory.Ownership FiveAM.Memory.Residency FiveAM.Memory.Spaces FiveAM.Lib.RadixTables

variable {s s' s'' : Paging} {managed live : Finset Word} {hand chain : List Word} {root : Word}

/-- What giving frames back changes: those frames, the free list and the owners. -/
structure Frees (s s' : Paging) (freed : List Word) : Prop where
  kept : ∀ f, f ∉ freed → s'.words f = s.words f
  cr3 : s'.cr3 = s.cr3
  used : s'.used = s.used
  disk : s'.disk = s.disk
  replacers : s'.replacers = s.replacers

theorem Frees.refl (s : Paging) : Frees s s [] := ⟨fun _ _ => rfl, rfl, rfl, rfl, rfl⟩

theorem Frees.trans {freed freed' : List Word} (first : Frees s s' freed)
    (second : Frees s' s'' freed') : Frees s s'' (freed' ++ freed) where
  kept f outside := by
    rw [List.mem_append, not_or] at outside
    exact (second.kept f outside.1).trans (first.kept f outside.2)
  cr3 := second.cr3.trans first.cr3
  used := second.used.trans first.used
  disk := second.disk.trans first.disk
  replacers := second.replacers.trans first.replacers

theorem Frees.give (s : Paging) (frame : Word) : Frees s (s.deallocate frame) [frame] :=
  ⟨fun _ outside => Function.update_of_ne (fun same => outside (List.mem_singleton.mpr same)) _ _,
    rfl, rfl, rfl, rfl⟩

theorem unshare_eq (s : Paging) (frame : Word) :
    (s.unshare frame).2 = { s with shared := (s.unshare frame).2.shared } := by
  unfold Paging.unshare
  split <;> rfl

section Entries

variable {T R : Word → Nat}

theorem account_unshare {frame : Word}
    (account : Account s managed hand chain T fun f => R f + if f = frame then 1 else 0)
    (several : 1 < s.shareCount frame) : Account (s.unshare frame).2 managed hand chain T R := by
  obtain ⟨ok, counts⟩ := Paging.unshare_spec account.shared frame
  have more := account.owners frame
  simp only [if_true] at more
  refine ⟨?_, ?_, fun f => ?_, fun f => ?_, ok, account.framed⟩
  · rw [unshare_eq]
    exact account.linked
  · rw [unshare_eq]
    exact account.count
  · have once := account.once f
    by_cases same : f = frame
    · subst same
      simp only [if_true] at once
      rw [if_pos (by omega)] at once ⊢
      exact once
    · simp only [if_neg same, Nat.add_zero] at once
      exact once
  · rw [counts f]
    have owners := account.owners f
    by_cases same : f = frame
    · subst same
      rw [if_pos rfl]
      simp only [if_true] at owners
      omega
    · rw [if_neg same]
      simp only [if_neg same, Nat.add_zero] at owners
      exact owners

theorem freeLeaf_spec {e : Word}
    (account : Account s managed hand chain T fun f => R f + names f e) :
    ∃ freed, Account (freeLeaf s e) managed hand (freed ++ chain) T R ∧
      Frees s (freeLeaf s e) freed := by
  unfold freeLeaf
  by_cases absent : has e present = false
  · rw [if_pos absent]
    refine ⟨[], ?_, Frees.refl s⟩
    simp only [names_absent absent, Nat.add_zero] at account
    exact account
  · rw [if_neg absent]
    have there := Bool.of_not_eq_false absent
    have weight : ∀ f, names f e = if f = frameOf e then 1 else 0 := by
      intro f
      by_cases same : f = frameOf e
      · rw [if_pos same, same, names_self there rfl]
      · rw [if_neg same, names_other rfl same]
    simp only [weight] at account
    dsimp only
    by_cases several : 1 < s.shareCount (frameOf e)
    · rw [if_pos several]
      refine ⟨[], account_unshare account several, ?_⟩
      rw [unshare_eq]
      exact ⟨fun _ _ => rfl, rfl, rfl, rfl, rfl⟩
    · rw [if_neg several]
      refine ⟨[frameOf e], ?_, Frees.give s _⟩
      have single := account.owners (frameOf e)
      simp only [if_true] at single
      refine account.deallocate (account.managed_of (f := frameOf e) ?_) (fun f => ?_) fun f => ?_
      · simp only [if_true]
        rw [if_pos (Nat.succ_pos _)]
        omega
      · by_cases same : f = frameOf e
        · subst same
          simp only [if_true]
          have none : R (frameOf e) = 0 := by omega
          rw [none]
          simp
          omega
        · simp only [if_neg same, Nat.add_zero, Nat.zero_add]
      · by_cases same : f = frameOf e
        · subst same
          simp only [if_true]
          omega
        · simp only [if_neg same, Nat.add_zero]

private theorem entries_spec {m : Words} (table : Word) {step : Paging → Index → Paging}
    {tablesOf refsOf : Index → Word → Nat} (counted : 0 < T table)
    (one : ∀ (s : Paging) (chain : List Word) (T R : Word → Nat) (i : Index),
      Account s managed hand chain (fun f => T f + tablesOf i f) (fun f => R f + refsOf i f) →
      s.words table = m table → (∀ f, 0 < tablesOf i f → s.words f = m f) →
      ∃ freed, Account (step s i) managed hand (freed ++ chain) T R ∧ Frees s (step s i) freed)
    (is : List Index) {s : Paging} {chain : List Word}
    (account : Account s managed hand chain (fun f => T f + (is.map fun i => tablesOf i f).sum)
      (fun f => R f + (is.map fun i => refsOf i f).sum))
    (agree : ∀ f, 0 < T f + (is.map fun i => tablesOf i f).sum → s.words f = m f) :
    ∃ freed, Account (is.foldl step s) managed hand (freed ++ chain) T R ∧
      Frees s (is.foldl step s) freed := by
  induction is generalizing s chain with
  | nil => exact ⟨[], account, Frees.refl s⟩
  | cons i rest ih =>
      have split : Account s managed hand chain
          (fun f => (T f + (rest.map fun i => tablesOf i f).sum) + tablesOf i f)
          (fun f => (R f + (rest.map fun i => refsOf i f).sum) + refsOf i f) := by
        have tables : (fun f => (T f + (rest.map fun i => tablesOf i f).sum) + tablesOf i f) =
            fun f => T f + ((i :: rest).map fun i => tablesOf i f).sum := by
          funext f
          rw [List.map_cons, List.sum_cons]
          omega
        have refs : (fun f => (R f + (rest.map fun i => refsOf i f).sum) + refsOf i f) =
            fun f => R f + ((i :: rest).map fun i => refsOf i f).sum := by
          funext f
          rw [List.map_cons, List.sum_cons]
          omega
        rw [tables, refs]
        exact account
      obtain ⟨freed, account1, frees1⟩ := one s chain _ _ i split (agree table (by omega))
        fun f there => agree f (by
          rw [List.map_cons, List.sum_cons]
          omega)
      obtain ⟨freed', account2, frees2⟩ := ih account1 fun f there => by
        rw [frees1.kept f fun inside => ?_]
        · exact agree f (by
            rw [List.map_cons, List.sum_cons]
            omega)
        · have bound := account1.le_one f
          have counted := List.count_pos_iff.mpr (List.mem_append_left chain inside)
          omega
      refine ⟨freed' ++ freed, ?_, frees1.trans frees2⟩
      rw [List.append_assoc]
      exact account2

end Entries

section Subtrees

variable {T R : Word → Nat}

/-- Every entry above the page tables of a tree that is present leads on. -/
def Plain (m : Words) : Nat → Word → Prop
  | 0, _ => True
  | level + 1, table => ∀ i, has (m table i) present = true →
      has (m table i) huge = false ∧ Plain m level (frameOf (m table i))

theorem plain_of_sound {m : Words} (sound : Sound m root) {path : Nat → Index} (user : path 3 = 0)
    {level : Nat} {table : Word} (route : Route userTree m path 3 root level table)
    (below : level < 3) : Plain m level table := by
  induction level generalizing path table with
  | zero => trivial
  | succ level ih =>
      intro i there
      have moved : Route userTree m (Function.update path (level + 1) i) 3 root (level + 1) table :=
        route.indexes fun j low _ => Function.update_of_ne (by omega) _ _
      have user' : Function.update path (level + 1) i 3 = 0 := by
        rw [Function.update_of_ne (by omega)]
        exact user
      have turn : Function.update path (level + 1) i (level + 1) = i := Function.update_self ..
      have entry := sound.entry user' moved
      rw [turn] at entry
      rcases entry with ⟨absent, -⟩ | ⟨-, -, down⟩
      · rw [absent] at there
        cases there
      · exact ⟨(child_some down).2.1, ih user' (moved.next (by rw [turn]; exact down)) (by omega)⟩

theorem slot_plain {m : Words} (sound : Sound m root) (there : has (m root 0) present = true) :
    userTree.child 3 0 (m root 0) = some (frameOf (m root 0)) ∧ Plain m 2 (frameOf (m root 0)) := by
  have route : Route userTree m (fun _ => 0) 3 root 3 root := .here 3 root
  rcases sound.entry rfl route with ⟨absent, -⟩ | ⟨-, -, down⟩
  · rw [absent] at there
    cases there
  · exact ⟨down, plain_of_sound sound rfl (route.next down) (Nat.lt_succ_self 2)⟩

theorem Plain.congr {m m' : Words} {level : Nat} {table : Word} (below : level < 3)
    (plain : Plain m level table)
    (kept : ∀ v, 0 < tables userTree m level table v → m' v = m v) : Plain m' level table := by
  induction level generalizing table with
  | zero => trivial
  | succ level ih =>
      intro i there
      rw [kept table (tables_self _ _)] at there ⊢
      obtain ⟨small, rest⟩ := plain i there
      have down : userTree.child (level + 1) i (m table i) = some (frameOf (m table i)) :=
        if_pos ⟨there, small, fun top => by omega⟩
      exact ⟨small, ih (by omega) rest fun v inside => kept v (occurs_child down inside)⟩

private theorem give_table {s1 : Paging} {freed : List Word} {table : Word}
    (account : Account s1 managed hand (freed ++ chain) (fun f => T f + if table = f then 1 else 0) R)
    (frees : Frees s s1 freed) :
    Account (s1.deallocate table) managed hand (table :: freed ++ chain) T R ∧
      Frees s (s1.deallocate table) (table :: freed) := by
  refine ⟨account.deallocate (account.managed_of (f := table) ?_) (fun f => ?_) fun _ => rfl,
    frees.trans (Frees.give s1 table)⟩
  · simp only [if_true]
    omega
  · by_cases same : f = table
    · rw [if_pos same, if_pos same.symm]
      omega
    · rw [if_neg same, if_neg (Ne.symm same)]
      omega

private theorem freeTable_spec {level : Nat} {table : Word} {step : Paging → Index → Paging}
    (account : Account s managed hand chain (fun f => T f + tables userTree s.words level table f)
      (fun f => R f + tally userTree (fun _ => 0) (names f) s.words level table))
    (one : ∀ (s' : Paging) (chain : List Word) (T R : Word → Nat) (i : Index),
      Account s' managed hand chain
        (fun f => T f + part userTree (fun v => if v = f then 1 else 0) (fun _ => 0) s.words level i
          (s.words table i))
        (fun f => R f + part userTree (fun _ => 0) (names f) s.words level i (s.words table i)) →
      s'.words table = s.words table →
      (∀ f, 0 < part userTree (fun v => if v = f then 1 else 0) (fun _ => 0) s.words level i
        (s.words table i) → s'.words f = s.words f) →
      ∃ freed, Account (step s' i) managed hand (freed ++ chain) T R ∧ Frees s' (step s' i) freed) :
    ∃ freed, Account (((List.finRange 512).foldl step s).deallocate table) managed hand
        (freed ++ chain) T R ∧
      Frees s (((List.finRange 512).foldl step s).deallocate table) freed := by
  have tables' : ∀ f, tables userTree s.words level table f = (if table = f then 1 else 0) +
      ((List.finRange 512).map fun i => part userTree (fun v => if v = f then 1 else 0) (fun _ => 0)
        s.words level i (s.words table i)).sum := by
    intro f
    unfold tables
    rw [tally_eq, Fin.sum_univ_def]
  have refs : ∀ f, tally userTree (fun _ => 0) (names f) s.words level table =
      ((List.finRange 512).map fun i => part userTree (fun _ => 0) (names f) s.words level i
        (s.words table i)).sum := by
    intro f
    rw [tally_eq, Fin.sum_univ_def, Nat.zero_add]
  have loop : Account s managed hand chain
      (fun f => (T f + if table = f then 1 else 0) + ((List.finRange 512).map fun i =>
        part userTree (fun v => if v = f then 1 else 0) (fun _ => 0) s.words level i
          (s.words table i)).sum)
      (fun f => R f + ((List.finRange 512).map fun i => part userTree (fun _ => 0) (names f) s.words
        level i (s.words table i)).sum) := by
    simp only [tables', refs, ← Nat.add_assoc] at account
    exact account
  obtain ⟨freed, account1, frees1⟩ := entries_spec table (by simp) one
    (List.finRange 512) loop fun _ _ => rfl
  exact ⟨table :: freed, give_table account1 frees1⟩

theorem freeSubtree_spec {level : Nat} (below : level < 3) {table : Word}
    (plain : Plain s.words level table)
    (account : Account s managed hand chain (fun f => T f + tables userTree s.words level table f)
      (fun f => R f + tally userTree (fun _ => 0) (names f) s.words level table)) :
    ∃ freed, Account (freeSubtree level table s) managed hand (freed ++ chain) T R ∧
      Frees s (freeSubtree level table s) freed := by
  induction level generalizing s chain T R table with
  | zero =>
      refine freeTable_spec account fun s' chain T R i account' same _ => ?_
      simp only [part, Nat.add_zero, ← same] at account'
      exact freeLeaf_spec account'
  | succ level ih =>
      refine freeTable_spec account fun s' chain T R i account' same agree => ?_
      rw [same]
      by_cases absent : has (s.words table i) present = false
      · rw [if_pos absent]
        have none : userTree.child (level + 1) i (s.words table i) = none :=
          if_neg fun all => absurd (absent.symm.trans all.1) (by decide)
        simp only [part, none, Option.elim_none, Nat.add_zero] at account'
        exact ⟨[], account', Frees.refl s'⟩
      · rw [if_neg absent]
        obtain ⟨small, rest⟩ := plain i (Bool.of_not_eq_false absent)
        have down : userTree.child (level + 1) i (s.words table i) =
            some (frameOf (s.words table i)) :=
          if_pos ⟨Bool.of_not_eq_false absent, small, fun top => by omega⟩
        have kept : ∀ v, 0 < tables userTree s.words level (frameOf (s.words table i)) v →
            s'.words v = s.words v := fun v inside => agree v (by rw [part_child down]; exact inside)
        rw [if_neg (by simp [small])]
        refine ih (by omega) (rest.congr (by omega) kept) ?_
        have tables' : ∀ f, tables userTree s'.words level (frameOf (s.words table i)) f =
            tables userTree s.words level (frameOf (s.words table i)) f := fun f => tally_congr kept
        have refs : ∀ f, tally userTree (fun _ => 0) (names f) s'.words level
            (frameOf (s.words table i)) = tally userTree (fun _ => 0) (names f) s.words level
            (frameOf (s.words table i)) := fun f => tally_congr kept
        simp only [part_child down] at account'
        simp only [tables', refs]
        exact account'

end Subtrees

section Spaces

theorem tally_root (own : Word → Nat) (leaf : Word → Nat) (m : Words) (root : Word) :
    tally userTree own leaf m 3 root = own root + part userTree own leaf m 3 0 (m root 0) := by
  rw [tally_eq, Finset.sum_eq_single 0]
  · intro i _ other
    have none : userTree.child 3 i (m root i) = none := if_neg fun all => other (all.2.2 rfl)
    simp [part, none]
  · exact fun outside => absurd (Finset.mem_univ _) outside

private theorem account_erase (books : Books s managed live hand chain) (member : root ∈ live) :
    Account s managed hand chain
      (fun f => (tableCount s.words (live.erase root) f + if root = f then 1 else 0) +
        part userTree (fun v => if v = f then 1 else 0) (fun _ => 0) s.words 3 0 (s.words root 0))
      (fun f => refCount s.words (live.erase root) f +
        part userTree (fun _ => 0) (names f) s.words 3 0 (s.words root 0)) := by
  have split : ∀ own leaf, forest userTree own leaf s.words 3 live =
      forest userTree own leaf s.words 3 (live.erase root) +
        (own root + part userTree own leaf s.words 3 0 (s.words root 0)) := by
    intro own leaf
    rw [← tally_root, forest, forest, ← Finset.add_sum_erase live _ member, Nat.add_comm]
  have tables' : ∀ f, tableCount s.words live f =
      (tableCount s.words (live.erase root) f + if root = f then 1 else 0) +
        part userTree (fun v => if v = f then 1 else 0) (fun _ => 0) s.words 3 0 (s.words root 0) :=
    fun f => (split (fun v => if v = f then 1 else 0) fun _ => 0).trans (Nat.add_assoc _ _ _).symm
  have refs : ∀ f, refCount s.words live f = refCount s.words (live.erase root) f +
      part userTree (fun _ => 0) (names f) s.words 3 0 (s.words root 0) := fun f => by
    have both := split (fun _ => 0) (names f)
    rw [Nat.zero_add] at both
    exact both
  rw [← funext tables', ← funext refs]
  exact books.account

private theorem destroy_there (there : has (s.words root 0) present = true) :
    destroy s root =
      ((freeSubtree 2 (frameOf (s.words root 0)) s).write root 0 0).deallocate root := by
  unfold destroy
  dsimp only
  rw [if_pos there]

private theorem destroy_empty (absent : ¬has (s.words root 0) present = true) :
    destroy s root = s.deallocate root := by
  unfold destroy
  dsimp only
  rw [if_neg absent]

private theorem freeSlot_spec (root : Word) {T R : Word → Nat} {level : Nat} {table : Word} (below : level < 3)
    (plain : Plain s.words level table) (counted : 0 < T root)
    (account : Account s managed hand chain (fun f => T f + tables userTree s.words level table f)
      (fun f => R f + tally userTree (fun _ => 0) (names f) s.words level table)) :
    ∃ freed, Account ((freeSubtree level table s).write root 0 0) managed hand (freed ++ chain) T R ∧
      Frees s ((freeSubtree level table s).write root 0 0) (root :: freed) := by
  obtain ⟨freed, account1, frees⟩ := freeSubtree_spec below plain account
  generalize freeSubtree level table s = s1 at account1 frees
  have outside : root ∉ freed ++ chain := fun inside => by
    have bound := account1.le_one root
    have listed := List.count_pos_iff.mpr inside
    omega
  refine ⟨freed, ?_, ?_⟩
  · refine ⟨account1.linked.congr fun f inside => Function.update_of_ne (fun same => ?_) _ _,
      account1.count, account1.once, account1.owners, account1.shared, account1.framed⟩
    exact outside (same ▸ inside)
  · refine ⟨fun f off => ?_, frees.cr3, frees.used, frees.disk, frees.replacers⟩
    rw [List.mem_cons, not_or] at off
    exact (Function.update_of_ne off.1 _ _).trans (frees.kept f off.2)

private theorem freeUser_spec (books : Books s managed live hand chain) (member : root ∈ live) :
    ∃ freed s1, Account s1 managed hand (freed ++ chain)
        (fun f => tableCount s.words (live.erase root) f + if root = f then 1 else 0)
        (refCount s.words (live.erase root)) ∧
      Frees s s1 (root :: freed) ∧ destroy s root = s1.deallocate root := by
  have account := account_erase books member
  have sound := books.sound root member
  by_cases there : has (s.words root 0) present = true
  · obtain ⟨down, plain⟩ := slot_plain sound there
    simp only [part_child down] at account
    obtain ⟨freed, account1, frees⟩ := freeSlot_spec root (Nat.lt_succ_self 2) plain
      (by simp) account
    exact ⟨freed, _, account1, frees, destroy_there there⟩
  · have none : userTree.child 3 0 (s.words root 0) = none := if_neg fun all => there all.1
    simp only [part_stop none, Nat.add_zero] at account
    exact ⟨[], s, account, ⟨fun _ _ => rfl, rfl, rfl, rfl, rfl⟩, destroy_empty there⟩

/-- Destroying a space gives back its tables and the pages nobody else has, and
leaves the other spaces as they are. -/
theorem destroy_spec (books : Books s managed live hand chain) (member : root ∈ live) :
    ∃ freed, Books (destroy s root) managed (live.erase root) hand (freed ++ chain) ∧
      Frees s (destroy s root) freed ∧ TreesKept s.words (destroy s root).words (live.erase root) := by
  obtain ⟨freed, s1, account, frees, taken⟩ := freeUser_spec books member
  have member' : root ∈ managed := (books.table member (.here (q := fun _ => 0) 3 root)).2.2.2.2
  have account' : Account (s1.deallocate root) managed hand (root :: (freed ++ chain))
      (tableCount s.words (live.erase root)) (refCount s.words (live.erase root)) :=
    account.deallocate member' (fun f => ?_) fun _ => rfl
  · have frees' : Frees s (s1.deallocate root) (root :: freed) := by
      refine ⟨fun f off => ?_, frees.cr3, frees.used, frees.disk, frees.replacers⟩
      have apart : f ≠ root := fun same => off (same ▸ List.mem_cons_self)
      exact (Function.update_of_ne apart _ _).trans (frees.kept f off)
    have trees : TreesKept s.words (s1.deallocate root).words (live.erase root) := by
      refine trees_kept fun f there => frees'.kept f fun inside => ?_
      have bound := account'.le_one f
      have counted := List.count_pos_iff.mpr (List.mem_append_left chain inside)
      rw [List.cons_append] at counted
      omega
    rw [taken]
    refine ⟨root :: freed, ⟨⟨account'.linked, account'.count, fun f => ?_, fun f => ?_,
      account'.shared, account'.framed⟩, trees.sound fun r inside =>
      books.sound r (Finset.mem_of_mem_erase inside)⟩, frees', trees⟩
    · rw [trees.tables, trees.refs]
      exact account'.once f
    · rw [trees.refs]
      exact account'.owners f
  · by_cases same : f = root
    · rw [if_pos same, if_pos same.symm]
      omega
    · rw [if_neg same, if_neg (Ne.symm same)]
      omega

end Spaces

end FiveAM.Memory.Teardown
