/- GID: FiveAM/Memory/SwappedTables
   source: kernel/src/memory.rs
   digest: Pruning looks at present entries alone: when the swapped entries beside a page are kept. -/

import FiveAM.Memory.EditingLaw
import FiveAM.Memory.FreeList
import FiveAM.Memory.Residency

set_option autoImplicit false
set_option relaxedAutoImplicit false

namespace FiveAM.Memory.SwappedTables

open FiveAM.Process.TaskTable (Word)
open FiveAM.Memory.Ownership (Words Chain SamePage)
open FiveAM.Memory.Residency (indexes_toNat)
open FiveAM.Memory.FreeList (OnFreeList chain_unique)
open FiveAM.Memory.Entries FiveAM.Memory.Frames FiveAM.Memory.PageTables FiveAM.Memory.TableEdits
open FiveAM.Memory.Unmapping FiveAM.Memory.EditingLaw FiveAM.Lib.RadixTables

section Walks

variable {s t : Paging} {a v e f : Word} {level : Nat} {table : Word} {emptied : Bool}
  {chain chain' : List Word}

/-- The page table an address ends at, and its entry there. -/
def lastEntry (s : Paging) (a : Word) (level : Nat) (table : Word) : Option (Word × Word) :=
  (lastTable s a level table).map fun u => (u, s.words u (indexes a 0))

theorem lastEntry_there (there : has (s.words table (indexes a (level + 1))) present = true) :
    lastEntry s a (level + 1) table =
      lastEntry s a level (frameOf (s.words table (indexes a (level + 1)))) := by
  rw [lastEntry, lastTable, if_neg (by simp [there]), lastEntry]

theorem lastEntry_absent (absent : has (s.words table (indexes a (level + 1))) present = false) :
    lastEntry s a (level + 1) table = none := by
  rw [lastEntry, lastTable, if_pos absent]
  rfl

theorem lastEntry_congr (kept : ∀ u, 0 < tables pageTree s.words level table u →
    t.words u = s.words u) : lastEntry t a level table = lastEntry s a level table := by
  induction level generalizing table with
  | zero =>
      change some (table, t.words table _) = some (table, s.words table _)
      rw [kept table (tables_self 0 table)]
  | succ level ih =>
      have top := kept table (tables_self _ _)
      cases there : has (s.words table (indexes a (level + 1))) present with
      | false => rw [lastEntry_absent there, lastEntry_absent (by rw [top]; exact there)]
      | true =>
          rw [lastEntry_there there, lastEntry_there (by rw [top]; exact there), top]
          exact ih fun u inside => kept u (occurs_child (child_present there) inside)

theorem lastEntry_below
    (top : t.words table (indexes a (level + 1)) = s.words table (indexes a (level + 1)))
    (below : ∀ d, pageTree.child (level + 1) (indexes a (level + 1))
      (s.words table (indexes a (level + 1))) = some d →
      ∀ u, 0 < tables pageTree s.words level d u → t.words u = s.words u) :
    lastEntry t a (level + 1) table = lastEntry s a (level + 1) table := by
  cases there : has (s.words table (indexes a (level + 1))) present with
  | false => rw [lastEntry_absent there, lastEntry_absent (by rw [top]; exact there)]
  | true =>
      rw [lastEntry_there there, lastEntry_there (by rw [top]; exact there), top]
      exact lastEntry_congr (below _ (child_present there))

theorem lastEntry_bare (bare : ∀ j, has (s.words table j) present = false) (long : 0 < level) :
    lastEntry s a level table = none := by
  cases level with
  | zero => cases long
  | succ level => exact lastEntry_absent (bare _)

theorem lastTable_occurs {u : Word} (found : lastTable s a level table = some u) :
    0 < tables pageTree s.words level table u := by
  induction level generalizing table with
  | zero =>
      rw [lastTable, Option.some.injEq] at found
      exact found ▸ tables_self 0 table
  | succ level ih =>
      rw [lastTable] at found
      split_ifs at found with absent
      exact occurs_child (child_present (Bool.not_eq_false _ ▸ absent)) (ih found)

/-- Two addresses share their page table: the indexes above it agree. -/
def SameTable (a v : Word) (level : Nat) : Prop := ∀ j, 0 < j → j ≤ level → indexes a j = indexes v j

/-- The page table of an address has no other present entry. -/
def Alone (s : Paging) (v : Word) (level : Nat) (table : Word) : Prop :=
  ∀ u, lastTable s v level table = some u →
    ∀ j, j ≠ indexes v 0 → has (s.words u j) present = false

/-- Pruning takes the entry of an address with the page table it shares. -/
def Lost (s : Paging) (a v : Word) (level : Nat) (table : Word) : Prop :=
  0 < level ∧ SameTable a v level ∧ Alone s v level table

theorem lastTable_there (there : has (s.words table (indexes v (level + 1))) present = true) :
    lastTable s v (level + 1) table =
      lastTable s v level (frameOf (s.words table (indexes v (level + 1)))) := by
  rw [lastTable, if_neg (by simp [there])]

theorem lost_succ (there : has (s.words table (indexes v (level + 1))) present = true)
    (turn : indexes a (level + 1) = indexes v (level + 1)) :
    Lost s a v (level + 1) table ↔ SameTable a v level ∧
      Alone s v level (frameOf (s.words table (indexes v (level + 1)))) := by
  have shared : SameTable a v (level + 1) ↔ SameTable a v level := by
    refine ⟨fun same j up low => same j up (Nat.le_succ_of_le low), fun same j up low => ?_⟩
    rcases Nat.lt_or_eq_of_le low with below | rfl
    · exact same j up (Nat.le_of_lt_succ below)
    · exact turn
  rw [Lost, shared, Alone, lastTable_there there]
  exact ⟨And.right, fun both => ⟨Nat.succ_pos level, both⟩⟩

private theorem alone_last (run : unmapFrom v 0 table s = some (e, emptied, t)) :
    emptied = true ↔ Alone s v 0 table := by
  cases there : has (s.words table (indexes v 0)) present with
  | false =>
      rw [unmapFrom, if_pos there] at run
      cases run
  | true =>
      rw [unmapFrom_last there] at run
      simp only [Option.some.injEq, Prod.mk.injEq] at run
      obtain ⟨-, rfl, -⟩ := run
      have cleared : (s.write table (indexes v 0) 0).words table (indexes v 0) = 0 := put_self
      have others : ∀ j, j ≠ indexes v 0 →
          (s.write table (indexes v 0) 0).words table j = s.words table j := fun j => put_index
      rw [tableIsEmpty_iff]
      refine ⟨fun bare u found j other => ?_, fun alone j => ?_⟩
      · rw [lastTable, Option.some.injEq] at found
        rw [← found, ← others j other]
        exact bare j
      · by_cases same : j = indexes v 0
        · rw [same, cleared]
          exact absent_zero
        · rw [others j same]
          exact alone table rfl j same

section Branch

variable {c : Word} {t1 : Paging} {freed : List Word} {full : Bool}
  (grove : Grove s (level + 1) table chain)
  (enters : Enters s s level table c (indexes v (level + 1)) chain chain)
  (edit : Edit s t1 level c chain (freed ++ chain))
  (prunes : Prunes s t1 v level c e full freed)

include grove enters edit

omit edit in
private theorem apart_entered : table ≠ c := by
  rintro rfl
  have above := grove.above (indexes v (level + 1))
  have self := tables_self (R := pageTree) (m := s.words) level table
  rw [under_child enters.entry] at above
  omega

private theorem lastEntry_beside (turn : indexes a (level + 1) ≠ indexes v (level + 1)) :
    lastEntry t1 a (level + 1) table = lastEntry s a (level + 1) table ∧
      lastEntry (detached t1 table (indexes v (level + 1)) c) a (level + 1) table =
        lastEntry s a (level + 1) table := by
  have top := enters.top grove edit.kept
  have beside := enters.beside grove edit.kept
  have lower : ∀ f, under pageTree s.words (level + 1) (indexes v (level + 1))
      (s.words table (indexes v (level + 1))) f = tables pageTree s.words level c f :=
    fun f => under_child enters.entry
  refine ⟨lastEntry_below (congrFun top _) fun d => beside _ d turn,
    lastEntry_below ?_ fun d down u inside => ?_⟩
  · rw [detached_entry (apart_entered grove enters) turn, top]
  · obtain ⟨distinct, off⟩ := apart_beside grove.single turn down inside
    rw [← beside _ d turn down u inside]
    refine detached_other distinct.symm fun same => ?_
    have self := tables_self (R := pageTree) (m := s.words) level c
    rw [lower, same] at off
    omega

private theorem lastEntry_stop (turn : indexes a (level + 1) = indexes v (level + 1)) :
    lastEntry s a (level + 1) table = lastEntry s a level c ∧
      lastEntry t1 a (level + 1) table = lastEntry t1 a level c := by
  obtain ⟨there, leads⟩ := present_of_child enters.entry
  have top := enters.top grove edit.kept
  refine ⟨?_, ?_⟩
  · rw [lastEntry_there (by rw [turn]; exact there), turn, leads]
  · rw [lastEntry_there (by rw [top, turn]; exact there), top, turn, leads]

omit edit in
private theorem lastEntry_prune (turn : indexes a (level + 1) = indexes v (level + 1)) :
    lastEntry (detached t1 table (indexes v (level + 1)) c) a (level + 1) table = none := by
  refine lastEntry_absent ?_
  rw [turn, detached_blank (apart_entered grove enters)]
  exact absent_zero

end Branch

/-- Unmapping a page leaves the way to the entries of the other pages, except into the
page table it was the last present entry of. -/
theorem unmapFrom_lastEntry (grove : Grove s level table chain)
    (run : unmapFrom v level table s = some (e, emptied, t))
    (off : ¬Follows v level (indexes a)) :
    (Lost s a v level table → lastEntry t a level table = none) ∧
      (¬Lost s a v level table → lastEntry t a level table = lastEntry s a level table) := by
  induction level generalizing s table chain e emptied t with
  | zero =>
      cases there : has (s.words table (indexes v 0)) present with
      | false =>
          rw [unmapFrom, if_pos there] at run
          cases run
      | true =>
          rw [unmapFrom_last there] at run
          simp only [Option.some.injEq, Prod.mk.injEq] at run
          obtain ⟨-, -, rfl⟩ := run
          have other : indexes a 0 ≠ indexes v 0 := fun same => off fun j low => by
            rw [Nat.le_zero.mp low]
            exact same
          refine ⟨fun lost => absurd lost.1 (Nat.lt_irrefl 0), fun _ => ?_⟩
          change some (table, (s.write table (indexes v 0) 0).words table (indexes a 0)) =
            some (table, s.words table (indexes a 0))
          rw [show (s.write table (indexes v 0) 0).words table (indexes a 0) =
            s.words table (indexes a 0) from put_index other]
  | succ level ih =>
      cases there : has (s.words table (indexes v (level + 1))) present with
      | false =>
          rw [unmapFrom] at run
          dsimp only at run
          rw [if_pos there] at run
          cases run
      | true =>
          cases below : unmapFrom v level (frameOf (s.words table (indexes v (level + 1)))) s with
          | none =>
              rw [unmapFrom] at run
              dsimp only at run
              rw [if_neg (by simp [there]), below] at run
              cases run
          | some found =>
              obtain ⟨leaf, full, t1⟩ := found
              have enters := Enters.stay grove there
              obtain ⟨freed, edit, prunes⟩ := unmapFrom_spec enters.grove below
              by_cases turn : indexes a (level + 1) = indexes v (level + 1)
              · have inner := ih enters.grove below fun on => off (follows_succ.mpr ⟨turn, on⟩)
                obtain ⟨before, after⟩ := lastEntry_stop grove enters edit turn
                rw [lost_succ there turn, before]
                cases full with
                | false =>
                    rw [unmapFrom_stop there below] at run
                    simp only [Option.some.injEq, Prod.mk.injEq] at run
                    obtain ⟨-, -, rfl⟩ := run
                    rw [after]
                    refine ⟨fun lost => ?_, fun safe => inner.2 fun lost => safe lost.2⟩
                    rcases Nat.eq_zero_or_pos level with rfl | up
                    · cases (alone_last below).mpr lost.2
                    · exact inner.1 ⟨up, lost⟩
                | true =>
                    rw [unmapFrom_prune there below] at run
                    simp only [Option.some.injEq, Prod.mk.injEq] at run
                    obtain ⟨-, -, rfl⟩ := run
                    have gone : lastEntry (detached t1 table (indexes v (level + 1))
                        (frameOf (s.words table (indexes v (level + 1))))) a (level + 1) table =
                        none := lastEntry_prune grove enters turn
                    refine ⟨fun _ => gone, fun safe => ?_⟩
                    rcases Nat.eq_zero_or_pos level with rfl | up
                    · refine absurd ⟨fun j above low => ?_, (alone_last below).mp rfl⟩ safe
                      omega
                    · rw [gone, ← inner.2 fun lost => safe lost.2]
                      exact (lastEntry_bare (prunes.empty rfl) up).symm
              · have beside := lastEntry_beside grove enters edit turn
                have safe : ¬Lost s a v (level + 1) table := fun lost =>
                  turn (lost.2.1 _ (Nat.succ_pos level) (Nat.le_refl _))
                refine ⟨fun lost => absurd lost safe, fun _ => ?_⟩
                cases full with
                | false =>
                    rw [unmapFrom_stop there below] at run
                    simp only [Option.some.injEq, Prod.mk.injEq] at run
                    obtain ⟨-, -, rfl⟩ := run
                    exact beside.1
                | true =>
                    rw [unmapFrom_prune there below] at run
                    simp only [Option.some.injEq, Prod.mk.injEq] at run
                    obtain ⟨-, -, rfl⟩ := run
                    exact beside.2

theorem lastTable_same (same : SameTable a v level) :
    lastTable s a level table = lastTable s v level table := by
  induction level generalizing table with
  | zero => rfl
  | succ level ih =>
      rw [lastTable, lastTable, same _ (Nat.succ_pos level) (Nat.le_refl _)]
      split_ifs
      · rfl
      · exact ih fun j up low => same j up (Nat.le_succ_of_le low)

/-- The address of another page in the page table of an address. -/
def sibling (v : Word) (j : Index) : Word :=
  BitVec.ofNat 64 (v.toNat / 2 ^ 21 * 2 ^ 21 + j.val * 4096)

theorem sibling_toNat (v : Word) (j : Index) :
    (sibling v j).toNat = v.toNat / 2 ^ 21 * 2 ^ 21 + j.val * 4096 := by
  have small := v.isLt
  have index := j.isLt
  rw [sibling, BitVec.toNat_ofNat, Nat.mod_eq_of_lt (by omega)]

theorem indexes_sibling (v : Word) (j : Index) : indexes (sibling v j) 0 = j := by
  have index := j.isLt
  refine Fin.ext ?_
  rw [indexes_toNat, sibling_toNat]
  omega

theorem sameTable_sibling (v : Word) (j : Index) : SameTable (sibling v j) v 3 := by
  have index := j.isLt
  intro k up low
  refine Fin.ext ?_
  rw [indexes_toNat, indexes_toNat, sibling_toNat]
  interval_cases k
  · omega
  · omega
  · omega

end Walks

section Keeping

variable {s t : Paging} {root v e a u : Word} {chain : List Word}

/-- An entry that stands for a page, in memory or out on the disk. -/
def Holds (e : Word) : Prop := has e present = true ∨ isSwappedEntry e = true

/-- Every other page has the entry it had, and the table of that entry is not free. -/
def OthersKept (s t : Paging) (root v : Word) : Prop :=
  ∀ a u, ¬OnPage a v → lastTable s a 3 root = some u → Holds (s.words u (indexes a 0)) →
    leafEntry t root a = leafEntry s root a ∧ ¬OnFreeList t u

/-- The page table of an address has another present entry, or no other swapped one. -/
def TableStays (s : Paging) (root v : Word) : Prop :=
  ∀ u, lastTable s v 3 root = some u →
    (∃ j, j ≠ indexes v 0 ∧ has (s.words u j) present = true) ∨
      ∀ j, j ≠ indexes v 0 → isSwappedEntry (s.words u j) = false

theorem leafEntry_eq : leafEntry s root a = (lastEntry s a 3 root).map Prod.snd := by
  rw [leafEntry, lastEntry, Option.map_map]
  rfl

private theorem unmapPage_walk (active : s.cr3 = root) (run : unmapPage s v = (some e, t)) :
    ∃ leaf emptied, unmapFrom v 3 root s = some (leaf, emptied, t) := by
  rw [unmapPage, active] at run
  cases walked : unmapFrom v 3 root s with
  | none =>
      rw [walked] at run
      cases run
  | some found =>
      rw [walked] at run
      exact ⟨found.1, found.2.1, by rw [← (Prod.mk.inj run).2]⟩

section Unmapped

variable (grove : Grove s 3 root chain) (active : s.cr3 = root)
  (run : unmapPage s v = (some e, t))

include grove active run

private theorem kept_of_stays (stays : TableStays s root v) : OthersKept s t root v := by
  obtain ⟨leaf, emptied, walked⟩ := unmapPage_walk active run
  intro a u off found holds
  have other : SameTable a v 3 → indexes a 0 ≠ indexes v 0 := fun same last =>
    off fun j low => (Nat.eq_zero_or_pos j).elim (fun zero => zero ▸ last) fun up => same j up low
  have safe : ¬Lost s a v 3 root := by
    rintro ⟨-, same, alone⟩
    have found' : lastTable s v 3 root = some u := (lastTable_same same).symm.trans found
    have absent := alone u found' (indexes a 0) (other same)
    rcases stays u found' with ⟨j, apart, there⟩ | none
    · rw [alone u found' j apart] at there
      cases there
    · rcases holds with there | out
      · rw [absent] at there
        cases there
      · rw [none _ (other same)] at out
        cases out
  have kept := (unmapFrom_lastEntry grove walked fun on => off on).2 safe
  refine ⟨by rw [leafEntry_eq, leafEntry_eq, kept], ?_⟩
  obtain ⟨freed, edit, -⟩ := unmapFrom_spec grove walked
  have grove' := edit.grove grove
  have found' : lastTable t a 3 root = some u := by
    rw [lastEntry, lastEntry, found] at kept
    obtain ⟨w, here, same⟩ := Option.map_eq_some_iff.mp kept
    rw [here, (Prod.mk.inj same).1]
  rintro ⟨free, linked, member⟩
  rw [chain_unique linked grove'.linked] at member
  have absent := grove'.free_absent member
  have there := lastTable_occurs found'
  omega

private theorem stays_of_kept (kept : OthersKept s t root v) : TableStays s root v := by
  obtain ⟨leaf, emptied, walked⟩ := unmapPage_walk active run
  intro u found
  by_cases other : ∃ j, j ≠ indexes v 0 ∧ has (s.words u j) present = true
  · exact .inl other
  refine .inr fun j apart => Bool.eq_false_iff.mpr fun out => ?_
  have same := sameTable_sibling v j
  have off : ¬OnPage (sibling v j) v := fun on =>
    apart ((indexes_sibling v j).symm.trans (on 0 (Nat.zero_le 3)))
  have found' : lastTable s (sibling v j) 3 root = some u := (lastTable_same same).trans found
  have alone : Alone s v 3 root := fun u' here k beside => by
    obtain rfl := Option.some.inj (here.symm.trans found)
    exact Bool.eq_false_iff.mpr fun there => other ⟨k, beside, there⟩
  have gone := (unmapFrom_lastEntry grove walked fun on => off on).1 ⟨by decide, same, alone⟩
  have reads := (kept _ u off found' (.inr (by rw [indexes_sibling]; exact out))).1
  rw [leafEntry_eq, gone, leafEntry, found'] at reads
  cases reads

end Unmapped

/-- Unmapping a page keeps the other pages just when its page table has another present
entry, or no other swapped one. -/
theorem others_kept_iff (grove : Grove s 3 root chain) (active : s.cr3 = root)
    (run : unmapPage s v = (some e, t)) : OthersKept s t root v ↔ TableStays s root v :=
  ⟨stays_of_kept grove active run, kept_of_stays grove active run⟩

/-- Two pages of one page table, the second of them out on the disk. -/
def halfOut : Paging :=
  ((((({ Boot.statics with cr3 := 0x1000 } : Paging).write 0x1000 0 0x2007).write 0x2000 0
    0x3007).write 0x3000 2 0x4007).write 0x4000 0 0x5007).write 0x4000 1 0x406

private theorem halfOut_word (f : Word) (j : Index) : halfOut.words f j =
    if f = 0x4000 ∧ j = 1 then 0x406 else if f = 0x4000 ∧ j = 0 then 0x5007
    else if f = 0x3000 ∧ j = 2 then 0x4007 else if f = 0x2000 ∧ j = 0 then 0x3007
    else if f = 0x1000 ∧ j = 0 then 0x2007 else 0 := by
  simp only [halfOut, Paging.write, Function.update_apply, Boot.statics]
  grind

private theorem halfOut_grove : Grove halfOut 3 0x1000 [] := by
  have down : ∀ f c : Word, ∀ i : Index, ∀ n, halfOut.words f i = c ||| 7 → frameOf (c ||| 7) = c →
      has (c ||| 7) present = true → pageTree.child n i (halfOut.words f i) = some c := by
    intro f c i n leads named there
    rw [leads, child_present there, named]
  have ends : ∀ f : Word, ∀ i j : Index, j ≠ i → f ≠ 0x4000 → (f = 0x3000 ↔ i = 2) →
      (i = 2 ∨ i = 0) → ∀ n, pageTree.child n j (halfOut.words f j) = none := by
    intro f i j other upper third place n
    refine child_absent ?_
    rw [halfOut_word]
    rcases place with rfl | rfl
    · rw [third.mpr rfl, if_neg (by simp), if_neg (by simp), if_neg (by simp [other]),
        if_neg (by simp), if_neg (by simp)]
      exact absent_zero
    · rw [if_neg fun both => upper both.1, if_neg fun both => upper both.1,
        if_neg fun both => absurd (third.mp both.1) (by decide), if_neg fun both => other both.2,
        if_neg fun both => other both.2]
      exact absent_zero
  have counts : ∀ f, tables pageTree halfOut.words 3 0x1000 f =
      [(0x1000 : Word), 0x2000, 0x3000, 0x4000].count f := by
    intro f
    rw [tables_single (down 0x1000 0x2000 0 3 rfl (by decide) (by decide))
        fun j other => ends 0x1000 0 j other (by decide) (by decide) (by decide) 3,
      tables_single (down 0x2000 0x3000 0 2 rfl (by decide) (by decide))
        fun j other => ends 0x2000 0 j other (by decide) (by decide) (by decide) 2,
      tables_single (down 0x3000 0x4000 2 1 rfl (by decide) (by decide))
        fun j other => ends 0x3000 2 j other (by decide) (by decide) (by decide) 1, tables_last,
      count_given, count_given, count_given, count_given]
    rfl
  have nodup : [(0x1000 : Word), 0x2000, 0x3000, 0x4000].Nodup := by decide
  have framed : [(0x1000 : Word), 0x2000, 0x3000, 0x4000].all (fun f => decide (Framed f)) = true := by
    decide +kernel
  refine ⟨fun f => ?_, fun f there => ?_, rfl, rfl⟩
  · rw [counts, List.count_nil, Nat.add_zero]
    exact List.nodup_iff_count_le_one.mp nodup f
  · rw [counts, List.count_nil, Nat.add_zero] at there
    exact of_decide_eq_true (List.all_eq_true.mp framed f (List.count_pos_iff.mp there))

private theorem run_of_answer (answer : (unmapPage s v).1 = some e) :
    unmapPage s v = (some e, (unmapPage s v).2) := by
  rw [← answer]

private theorem halfOut_run :
    unmapPage halfOut 0x400000 = (some 0x5000, (unmapPage halfOut 0x400000).2) :=
  run_of_answer (by decide +kernel)

/-- With one page unmapped, the entry of the page beside it is gone, and with it the only
word that says where on the disk the page is. -/
theorem others_lost_halfOut : ¬∀ (s t : Paging) (root v e : Word) (chain : List Word),
    Grove s 3 root chain → s.cr3 = root → unmapPage s v = (some e, t) → OthersKept s t root v := by
  intro all
  have kept := all halfOut _ 0x1000 0x400000 0x5000 [] halfOut_grove rfl halfOut_run
  have off : ¬OnPage 0x401000 0x400000 := fun on => absurd (on 0 (Nat.zero_le 3)) (by decide)
  have found : lastTable halfOut 0x401000 3 0x1000 = some 0x4000 := by decide +kernel
  have out : isSwappedEntry (halfOut.words 0x4000 (indexes 0x401000 0)) = true := by decide +kernel
  have same := (kept 0x401000 0x4000 off found (.inr out)).1
  have before : leafEntry halfOut 0x1000 0x401000 = some 0x406 := by decide +kernel
  have after : leafEntry (unmapPage halfOut 0x400000).2 0x1000 0x401000 = none := by decide +kernel
  rw [before, after] at same
  cases same

theorem others_kept_iff_halfOut :
    OthersKept halfOut (unmapPage halfOut 0x400000).2 0x1000 0x400000 ↔
      TableStays halfOut 0x1000 0x400000 :=
  others_kept_iff halfOut_grove rfl halfOut_run

end Keeping

end FiveAM.Memory.SwappedTables
