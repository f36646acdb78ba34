/- GID: FiveAM/Memory/Policies
   source: kernel/src/replace.rs, kernel/src/memory.rs
   digest: What each replacement policy names out of any set of pages, and what it may touch. -/

import FiveAM.Memory.Replace
import FiveAM.Lib.SecondChance

set_option autoImplicit false
set_option relaxedAutoImplicit false

namespace FiveAM.Memory.Policies

open FiveAM.Process.TaskTable (Word)
open FiveAM.Memory.Entries FiveAM.Memory.Frames FiveAM.Memory.Replace FiveAM.Lib.SecondChance

variable {s s' s'' : Paging} {pages : Pages} {i : Nat} {is : List Nat}

section Clearing

theorem forgotten_bit (e : Word) {k : Nat} (low : k < 64) (other : accessed.getLsbD k = false) :
    (e &&& ~~~accessed).getLsbD k = e.getLsbD k := by
  rw [BitVec.getLsbD_and, BitVec.getLsbD_not, other]
  simp [low]

theorem accessed_forgotten (e : Word) : has (e &&& ~~~accessed) accessed = false := by
  rw [has_accessed, BitVec.getLsbD_and, BitVec.getLsbD_not,
    show accessed.getLsbD 5 = true from by decide]
  simp

theorem frameOf_forgotten (e : Word) : frameOf (e &&& ~~~accessed) = frameOf e := by
  unfold frameOf
  rw [BitVec.and_assoc, show ~~~accessed &&& addressMask = addressMask from by decide]

theorem present_forgotten (e : Word) : has (e &&& ~~~accessed) present = has e present := by
  rw [has_present, has_present]
  exact forgotten_bit e (by decide) (by decide)

theorem swapped_forgotten (e : Word) : has (e &&& ~~~accessed) swapped = has e swapped := by
  rw [has_swapped, has_swapped]
  exact forgotten_bit e (by decide) (by decide)

theorem words_clear (s : Paging) (pages : Pages) (i : Nat) (frame : Word) (k : Index) :
    (PageSet.clearAccessed s pages i).words frame k =
      if frame = (pageAt pages i).table ∧ k = (pageAt pages i).index then
        s.words frame k &&& ~~~accessed
      else s.words frame k := by
  unfold PageSet.clearAccessed PageSet.entry Paging.write
  by_cases table : frame = (pageAt pages i).table
  · subst table
    by_cases index : k = (pageAt pages i).index
    · subst index
      simp
    · simp [index]
  · simp [table]

theorem entry_clear (s : Paging) (pages : Pages) (i j : Nat) :
    PageSet.entry (PageSet.clearAccessed s pages i) pages j = PageSet.entry s pages j ∨
      PageSet.entry (PageSet.clearAccessed s pages i) pages j =
        PageSet.entry s pages j &&& ~~~accessed := by
  unfold PageSet.entry
  rw [words_clear]
  split_ifs
  · exact Or.inr rfl
  · exact Or.inl rfl

theorem eligible_clear (s : Paging) (pages : Pages) (i j : Nat) :
    PageSet.eligible (PageSet.clearAccessed s pages i) pages j = PageSet.eligible s pages j := by
  have owners : ∀ f, (PageSet.clearAccessed s pages i).isShared f = s.isShared f := fun _ => rfl
  unfold PageSet.eligible
  rw [owners]
  rcases entry_clear s pages i j with same | same
  · rw [same]
  · rw [same, present_forgotten, swapped_forgotten, frameOf_forgotten]

theorem accessed_cleared (s : Paging) (pages : Pages) (i : Nat) :
    PageSet.accessed (PageSet.clearAccessed s pages i) pages i = false := by
  unfold PageSet.accessed PageSet.entry
  rw [words_clear, if_pos ⟨rfl, rfl⟩]
  exact accessed_forgotten _

theorem accessed_kept (s : Paging) (pages : Pages) (i j : Nat)
    (old : PageSet.accessed s pages j = false) :
    PageSet.accessed (PageSet.clearAccessed s pages i) pages j = false := by
  unfold PageSet.accessed at old ⊢
  rcases entry_clear s pages i j with same | same
  · rw [same]
    exact old
  · rw [same]
    exact accessed_forgotten _

theorem marks (pages : Pages) :
    Marks (fun s => PageSet.eligible s pages) (fun s => PageSet.accessed s pages)
      (fun s i => PageSet.clearAccessed s pages i) where
  able_clear s i j := eligible_clear s pages i j
  cleared s i := accessed_cleared s pages i
  kept s i j := accessed_kept s pages i j

end Clearing

section Touching

/-- What a policy may change: accessed bits, which it may clear, and what the policies
remember. -/
structure Fades (s s' : Paging) : Prop where
  words : ∀ frame k, s'.words frame k = s.words frame k ∨
    s'.words frame k = s.words frame k &&& ~~~accessed
  rest : s' = { s with words := s'.words, replacers := s'.replacers }

theorem Fades.refl (s : Paging) : Fades s s := ⟨fun _ _ => Or.inl rfl, rfl⟩

theorem Fades.trans (first : Fades s s') (second : Fades s' s'') : Fades s s'' where
  words frame k := by
    rcases second.words frame k with same | same
    · rw [same]
      exact first.words frame k
    · right
      rcases first.words frame k with before | before
      · rw [same, before]
      · rw [same, before, BitVec.and_assoc, BitVec.and_self]
  rest := by
    have one := first.rest
    have two := second.rest
    rw [one] at two
    exact two

theorem Fades.remember (replacers : Replacers) (fades : Fades s s') :
    Fades s { s' with replacers } where
  words := fades.words
  rest := by
    have rest := fades.rest
    rw [rest]

theorem Fades.disk (fades : Fades s s') : Fades { s with disk := s'.disk } s' := by
  refine ⟨fades.words, ?_⟩
  rw [fades.rest]

theorem Fades.eligible (fades : Fades s s') (i : Nat) :
    PageSet.eligible s' pages i = PageSet.eligible s pages i := by
  have owners : ∀ f, s'.isShared f = s.isShared f := by
    intro f
    rw [fades.rest]
    rfl
  unfold PageSet.eligible PageSet.entry
  rw [owners]
  rcases fades.words (pageAt pages i).table (pageAt pages i).index with same | same
  · rw [same]
  · rw [same, present_forgotten, swapped_forgotten, frameOf_forgotten]

theorem fades_clear (s : Paging) (pages : Pages) (i : Nat) :
    Fades s (PageSet.clearAccessed s pages i) where
  words frame k := by
    rw [words_clear]
    split_ifs
    · exact Or.inr rfl
    · exact Or.inl rfl
  rest := rfl

end Touching

section Clock

/-- The loop of `Clock::choose` without the hand. -/
def swept (pages : Pages) : List Nat → Paging → Option Nat × Paging :=
  sweep (fun s => PageSet.eligible s pages) (fun s => PageSet.accessed s pages)
    fun s i => PageSet.clearAccessed s pages i

theorem fades_swept (is : List Nat) (s : Paging) : Fades s (swept pages is s).2 :=
  sweep_invariant (P := Fades s) (Fades.refl s) fun s' i _ fades _ _ =>
    fades.trans (fades_clear s' pages i)

theorem replacers_swept (is : List Nat) (s : Paging) :
    (swept pages is s).2.replacers = s.replacers :=
  sweep_invariant (P := fun s' : Paging => s'.replacers = s.replacers) rfl fun _ _ _ kept _ _ => kept

theorem clockSweep_eq (is : List Nat) (s : Paging) :
    clockSweep s pages is =
      match swept pages is s with
      | (some i, s) => (some i, setClock s ((i + 1) % pages.length))
      | (none, s) => (none, s) := by
  induction is generalizing s with
  | nil => rfl
  | cons i rest ih =>
      rw [clockSweep, swept, sweep]
      split_ifs
      · exact ih s
      · exact ih (PageSet.clearAccessed s pages i)
      · rfl

/-- The indexes of a page set, going round once from a start. -/
def circle (start len : Nat) : List Nat := (List.range len).map fun step => (start + step) % len

theorem circle_lt {start len j : Nat} (there : j ∈ circle start len) : j < len := by
  obtain ⟨step, low, rfl⟩ := List.mem_map.mp there
  have below := List.mem_range.mp low
  exact Nat.mod_lt _ (by omega)

theorem mem_circle (start : Nat) {len j : Nat} (inside : j < len) : j ∈ circle start len := by
  have positive : 0 < len := by omega
  have low := Nat.mod_lt start positive
  refine List.mem_map.mpr ⟨(j + len - start % len) % len,
    List.mem_range.mpr (Nat.mod_lt _ positive), ?_⟩
  rw [Nat.add_mod, Nat.mod_mod, ← Nat.add_mod, ← Nat.mod_add_mod,
    Nat.add_sub_cancel' (by omega), Nat.add_mod_right, Nat.mod_eq_of_lt inside]

theorem circle_nodup (start len : Nat) : (circle start len).Nodup := by
  refine List.Nodup.map_on ?_ List.nodup_range
  intro a here b there same
  have low := List.mem_range.mp here
  have low' := List.mem_range.mp there
  have equal : a % len = b % len := Nat.ModEq.add_left_cancel' start same
  rwa [Nat.mod_eq_of_lt low, Nat.mod_eq_of_lt low'] at equal

theorem circle_mod (start len : Nat) : circle (start % len) len = circle start len := by
  unfold circle
  simp only [Nat.mod_add_mod]

theorem clockChoose_eq (s : Paging) (pages : Pages) :
    clockChoose s pages = clockSweep s pages
      (circle s.replacers.clock.hand pages.length ++ circle s.replacers.clock.hand pages.length) := by
  have again : ∀ start len, (List.range len).map (fun step => (start + (len + step)) % len) =
      circle start len := by
    intro start len
    refine List.map_congr_left fun step _ => ?_
    rw [Nat.add_left_comm, Nat.add_mod_left]
  unfold clockChoose
  rw [Nat.mul_two, List.range_add, List.map_append, List.map_map]
  congr 1
  exact congrArg₂ _ rfl (again _ _)

theorem clockChoose_named (named : (clockChoose s pages).1 = some i) :
    i < pages.length ∧ PageSet.eligible s pages i = true := by
  rw [clockChoose_eq, clockSweep_eq] at named
  split at named
  · rename_i v s' found
    obtain rfl := Option.some.inj named
    obtain ⟨there, able⟩ := sweep_named (marks pages) (congrArg Prod.fst found)
    exact ⟨(List.mem_append.mp there).elim circle_lt circle_lt, able⟩
  · cases named

/-- The clock names a page whenever one may be taken: the first round makes every such
page look unused, the second stops at one. -/
theorem clockChoose_some (inside : i < pages.length) (able : PageSet.eligible s pages i = true) :
    (clockChoose s pages).1 ≠ none := by
  have two := sweep_twice (marks pages) (mem_circle s.replacers.clock.hand inside)
    (mem_circle s.replacers.clock.hand inside) able
  rw [clockChoose_eq, clockSweep_eq]
  split
  · exact Option.some_ne_none _
  · rename_i s' found
    exact absurd (congrArg Prod.fst found) two

theorem fades_clockChoose (s : Paging) (pages : Pages) : Fades s (clockChoose s pages).2 := by
  have fades : Fades s (swept pages (circle s.replacers.clock.hand pages.length ++
      circle s.replacers.clock.hand pages.length) s).2 := fades_swept _ s
  rw [clockChoose_eq, clockSweep_eq]
  split
  · rename_i v s' found
    rw [found] at fades
    exact fades.remember _
  · rename_i s' found
    rw [found] at fades
    exact fades

/-- No two pages of the set are kept in the same place. -/
def Separate (pages : Pages) : Prop :=
  ∀ i j, i < pages.length → j < pages.length → (pageAt pages i).table = (pageAt pages j).table →
    (pageAt pages i).index = (pageAt pages j).index → i = j

theorem forgotten_unused {e : Word} (unused : has e accessed = false) : e &&& ~~~accessed = e := by
  rw [has_accessed] at unused
  apply BitVec.eq_of_getLsbD_eq
  intro k low
  by_cases here : k = 5
  · subst here
    rw [BitVec.getLsbD_and, unused, Bool.false_and]
  · apply forgotten_bit e low
    rw [show accessed = BitVec.twoPow 64 5 from by decide, BitVec.getLsbD_twoPow]
    simp only [Bool.and_eq_false_imp, decide_eq_false_iff_not]
    omega

theorem words_foldl (js : List Nat) (s : Paging) (frame : Word) (k : Index) :
    (js.foldl (fun s i => PageSet.clearAccessed s pages i) s).words frame k =
      if ∃ i ∈ js, frame = (pageAt pages i).table ∧ k = (pageAt pages i).index then
        s.words frame k &&& ~~~accessed
      else s.words frame k := by
  induction js generalizing s with
  | nil => simp
  | cons j rest ih =>
      rw [List.foldl_cons, ih, words_clear]
      simp only [List.exists_mem_cons_iff]
      by_cases here : frame = (pageAt pages j).table ∧ k = (pageAt pages j).index
      · rw [if_pos here, if_pos (Or.inl here), BitVec.and_assoc, BitVec.and_self, ite_self]
      · rw [if_neg here]
        simp only [here, false_or]

theorem replacers_foldl (pages : Pages) (js : List Nat) (s : Paging) :
    (js.foldl (fun s i => PageSet.clearAccessed s pages i) s).replacers = s.replacers := by
  induction js generalizing s with
  | nil => rfl
  | cons j rest ih =>
      rw [List.foldl_cons, ih]
      rfl

theorem entry_foldl {js : List Nat} (separate : Separate pages) (within : ∀ j ∈ js, j < pages.length)
    (s : Paging) (inside : i < pages.length) :
    PageSet.entry (js.foldl (fun s i => PageSet.clearAccessed s pages i) s) pages i =
      if i ∈ js then PageSet.entry s pages i &&& ~~~accessed else PageSet.entry s pages i := by
  have here : (∃ j ∈ js, (pageAt pages i).table = (pageAt pages j).table ∧
      (pageAt pages i).index = (pageAt pages j).index) ↔ i ∈ js := by
    constructor
    · rintro ⟨j, there, table, index⟩
      rwa [separate i j inside (within j there) table index]
    · intro there
      exact ⟨i, there, rfl, rfl⟩
  unfold PageSet.entry
  rw [words_foldl]
  simp only [here]

/-- `Clock::choose` is second chance. Going round from the hand it names the first page that
may be taken and is not accessed, and if there is none the first that may be taken; the
pages it passes on the way lose their accessed bit if they may be taken, and no other word
of memory changes. -/
theorem clock_second_chance (s : Paging) {pages : Pages} (separate : Separate pages) :
    let round := circle (s.replacers.clock.hand % pages.length) pages.length
    let unused := fun i => PageSet.eligible s pages i && !PageSet.accessed s pages i
    let victim := (round.find? unused).or (round.find? (PageSet.eligible s pages))
    let passed := if (round.find? unused).isSome then round.takeWhile fun i => !unused i else round
    let after := (clockChoose s pages).2
    (clockChoose s pages).1 = victim ∧
      (∀ i, i < pages.length → PageSet.entry after pages i =
        if i ∈ passed ∧ PageSet.eligible s pages i = true ∧ PageSet.accessed s pages i = true then
          PageSet.entry s pages i &&& ~~~accessed
        else PageSet.entry s pages i) ∧
      (∀ frame k, (∀ i, i < pages.length →
          ¬(frame = (pageAt pages i).table ∧ k = (pageAt pages i).index)) →
        after.words frame k = s.words frame k) ∧
      after.replacers = { s.replacers with
        clock := ⟨victim.elim s.replacers.clock.hand fun v => (v + 1) % pages.length⟩ } := by
  intro round unused victim passed after
  have same : circle s.replacers.clock.hand pages.length = round := (circle_mod _ _).symm
  have apart : ∀ s, ∀ i ∈ round, ∀ j ∈ round, j ≠ i →
      PageSet.accessed (PageSet.clearAccessed s pages i) pages j = PageSet.accessed s pages j := by
    intro s i here j there other
    unfold PageSet.accessed PageSet.entry
    rw [words_clear, if_neg]
    rintro ⟨table, index⟩
    exact other (separate j i (circle_lt there) (circle_lt here) table index)
  have law : swept pages (round ++ round) s = (victim, (spared _ _ round s).foldl _ s) :=
    sweep_rounds (marks pages) (circle_nodup _ _) apart s
  generalize listed : spared (fun s => PageSet.eligible s pages)
    (fun s => PageSet.accessed s pages) round s = gone at law
  have mem_gone : ∀ i, i ∈ gone ↔ i ∈ passed ∧ PageSet.eligible s pages i = true := by
    intro i
    rw [← listed]
    exact List.mem_filter
  have passed_sub : ∀ i ∈ passed, i ∈ round := by
    intro i there
    by_cases some' : (round.find? unused).isSome
    · exact List.takeWhile_subset _ (by simpa only [passed, if_pos some'] using there)
    · simpa only [passed, if_neg some'] using there
  have within : ∀ j ∈ gone, j < pages.length := fun j there =>
    circle_lt (passed_sub j ((mem_gone j).mp there).1)
  have outcome : (clockChoose s pages).1 = victim ∧ after.words =
      (gone.foldl (fun s i => PageSet.clearAccessed s pages i) s).words ∧
      after.replacers = { s.replacers with
        clock := ⟨victim.elim s.replacers.clock.hand fun v => (v + 1) % pages.length⟩ } := by
    have kept := replacers_foldl pages gone s
    simp only [after]
    rw [clockChoose_eq, clockSweep_eq, same, law]
    cases victim with
    | none => exact ⟨rfl, rfl, kept⟩
    | some v =>
        refine ⟨rfl, rfl, ?_⟩
        simp only [setClock, kept, Option.elim_some]
  obtain ⟨named, words, replacers⟩ := outcome
  have entries : ∀ i, PageSet.entry after pages i =
      PageSet.entry (gone.foldl (fun s i => PageSet.clearAccessed s pages i) s) pages i := by
    intro i
    unfold PageSet.entry
    rw [words]
  refine ⟨named, fun i inside => ?_, fun frame k outside => ?_, replacers⟩
  · rw [entries, entry_foldl separate within s inside]
    rcases used : PageSet.accessed s pages i with _ | _
    · rw [forgotten_unused used, ite_self, ite_self]
    · simp only [mem_gone, and_true]
  · rw [words, words_foldl, if_neg]
    rintro ⟨j, there, place⟩
    exact outside j (within j there) place

/-- `test_entry`: a page table entry that belongs to no page table. -/
def testEntry (there used written out : Bool) : Word :=
  0x7ff000 ||| user ||| writable ||| (if there then present else 0) |||
    (if used then accessed else 0) ||| (if written then dirty else 0) ||| if out then swapped else 0

/-- Four pages that may be taken and one that is out on disk. -/
def crowdEntries : List Word :=
  [testEntry true true false false, testEntry true false false false,
    testEntry false false false true, testEntry true true true false,
    testEntry true false true false]

/-- `fabricate`: pages around entries that are kept in a frame of their own. -/
def fabricate (entries : List Word) : Pages :=
  entries.mapIdx fun i e =>
    ⟨0x50000000 + BitVec.ofNat 64 (i * pageSize), e, 0x5000, Fin.ofNat 512 i⟩

/-- The crowd in memory, with policies that have forgotten everything but the hand. -/
def crowd (active hand : Nat) : Paging where
  words := fun frame k => if frame = 0x5000 then crowdEntries.getD k.val 0 else 0
  head := 0
  free := 0
  shared := []
  cr3 := 0
  replacers := ⟨⟨hand⟩, ⟨fun _ => 0, fun _ => 0, 1⟩, ⟨0⟩, active⟩
  used := fun _ => false
  disk := ⟨fun _ _ => 0, fun _ => none, 0, []⟩

theorem separate_crowd : Separate (fabricate crowdEntries) := by
  have few : ∀ i < 5, ∀ j < 5, (pageAt (fabricate crowdEntries) i).index =
      (pageAt (fabricate crowdEntries) j).index → i = j := by decide
  intro i j low high _ index
  exact few i low j high index

/-- The hand was left at 8 by a larger set. -/
theorem clock_second_chance_crowd :
    let pages := fabricate crowdEntries
    let after := (clockChoose (crowd 0 8) pages).2
    (clockChoose (crowd 0 8) pages).1 = some 4 ∧
      PageSet.entry after pages 3 = testEntry true false true false ∧
      PageSet.entry after pages 0 = testEntry true true false false ∧
      after.replacers.clock.hand = 0 := by
  intro pages after
  obtain ⟨named, entries, -, memory⟩ := clock_second_chance (crowd 0 8) separate_crowd
  refine ⟨named.trans (by decide), (entries 3 (by decide)).trans (by decide),
    (entries 0 (by decide)).trans (by decide), ?_⟩
  rw [memory]
  decide

end Clock

section Others

private def youngest (s : Paging) (pages : Pages) (best : Option Nat × Nat) (is : List Nat) :
    Option Nat × Nat :=
  is.foldl (fun (best : Option Nat × Nat) index =>
    if PageSet.eligible s pages index = false then best
    else
      let age := Fifo.age s.replacers.fifo (pageAt pages index).address
      if age < best.2 then (some index, age) else best) best

private theorem youngest_named (is : List Nat) {best : Option Nat × Nat}
    (named : (youngest s pages best is).1 = some i) :
    best.1 = some i ∨ i ∈ is ∧ PageSet.eligible s pages i = true ∧
      Fifo.age s.replacers.fifo (pageAt pages i).address < best.2 := by
  induction is generalizing best with
  | nil => exact Or.inl named
  | cons j rest ih =>
      rw [youngest, List.foldl_cons] at named
      by_cases spared : PageSet.eligible s pages j = false
      · rw [if_pos spared] at named
        exact (ih named).imp_right fun both => ⟨List.mem_cons_of_mem _ both.1, both.2⟩
      · rw [if_neg spared] at named
        by_cases younger : Fifo.age s.replacers.fifo (pageAt pages j).address < best.2
        · simp only [if_pos younger] at named
          rcases ih named with here | ⟨there, able, young⟩
          · cases here
            exact Or.inr ⟨List.mem_cons_self, Bool.of_not_eq_false spared, younger⟩
          · exact Or.inr ⟨List.mem_cons_of_mem _ there, able, lt_trans young younger⟩
        · simp only [if_neg younger] at named
          exact (ih named).imp_right fun both => ⟨List.mem_cons_of_mem _ both.1, both.2⟩

private theorem youngest_unnamed (is : List Nat) {best : Option Nat × Nat}
    (unnamed : (youngest s pages best is).1 = none) :
    best.1 = none ∧ ∀ i ∈ is, PageSet.eligible s pages i = true →
      best.2 ≤ Fifo.age s.replacers.fifo (pageAt pages i).address := by
  induction is generalizing best with
  | nil => exact ⟨unnamed, fun i there => absurd there List.not_mem_nil⟩
  | cons j rest ih =>
      rw [youngest, List.foldl_cons] at unnamed
      obtain ⟨here, later⟩ := ih unnamed
      have through : best.1 = none ∧ (∀ i ∈ rest, PageSet.eligible s pages i = true →
          best.2 ≤ Fifo.age s.replacers.fifo (pageAt pages i).address) ∧
          (PageSet.eligible s pages j = true →
            best.2 ≤ Fifo.age s.replacers.fifo (pageAt pages j).address) := by
        by_cases spared : PageSet.eligible s pages j = false
        · rw [if_pos spared] at here later
          exact ⟨here, later, fun able => absurd (spared.symm.trans able) (by decide)⟩
        · rw [if_neg spared] at here later
          by_cases younger : Fifo.age s.replacers.fifo (pageAt pages j).address < best.2
          · simp only [if_pos younger] at here
            cases here
          · simp only [if_neg younger] at here later
            exact ⟨here, later, fun _ => Nat.not_lt.mp younger⟩
      refine ⟨through.1, fun i there able => ?_⟩
      rcases List.mem_cons.mp there with rfl | there
      · exact through.2.2 able
      · exact through.2.1 i there able

private theorem youngest_least (is : List Nat) {best : Option Nat × Nat}
    (dated : ∀ i, best.1 = some i →
      best.2 = Fifo.age s.replacers.fifo (pageAt pages i).address) :
    (youngest s pages best is).2 ≤ best.2 ∧
      (∀ i, (youngest s pages best is).1 = some i →
        (youngest s pages best is).2 = Fifo.age s.replacers.fifo (pageAt pages i).address) ∧
      ∀ i ∈ is, PageSet.eligible s pages i = true →
        (youngest s pages best is).2 ≤ Fifo.age s.replacers.fifo (pageAt pages i).address := by
  induction is generalizing best with
  | nil => exact ⟨Nat.le_refl _, dated, fun i there => absurd there List.not_mem_nil⟩
  | cons j rest ih =>
      rw [youngest, List.foldl_cons]
      by_cases spared : PageSet.eligible s pages j = false
      · rw [if_pos spared]
        obtain ⟨less, named, least⟩ := ih dated
        refine ⟨less, named, fun i there able => ?_⟩
        rcases List.mem_cons.mp there with rfl | there
        · rw [spared] at able
          cases able
        · exact least i there able
      · rw [if_neg spared]
        by_cases younger : Fifo.age s.replacers.fifo (pageAt pages j).address < best.2
        · simp only [if_pos younger]
          have dated' : ∀ i, (some j, Fifo.age s.replacers.fifo (pageAt pages j).address).1 = some i →
              (some j, Fifo.age s.replacers.fifo (pageAt pages j).address).2 =
                Fifo.age s.replacers.fifo (pageAt pages i).address := by
            intro i here
            cases here
            rfl
          obtain ⟨less, named, least⟩ := ih dated'
          refine ⟨less.trans (Nat.le_of_lt younger), named, fun i there able => ?_⟩
          rcases List.mem_cons.mp there with rfl | there
          · exact less
          · exact least i there able
        · simp only [if_neg younger]
          obtain ⟨less, named, least⟩ := ih dated
          refine ⟨less, named, fun i there able => ?_⟩
          rcases List.mem_cons.mp there with rfl | there
          · exact less.trans (Nat.not_lt.mp younger)
          · exact least i there able

theorem fifoChoose_least (named : (fifoChoose s pages).1 = some i) {j : Nat}
    (inside : j < pages.length) (able : PageSet.eligible s pages j = true) :
    Fifo.age s.replacers.fifo (pageAt pages i).address ≤
      Fifo.age s.replacers.fifo (pageAt pages j).address := by
  have nothing : ∀ i, ((none, 2 ^ 64 - 1) : Option Nat × Nat).1 = some i →
      ((none, 2 ^ 64 - 1) : Option Nat × Nat).2 =
        Fifo.age s.replacers.fifo (pageAt pages i).address := fun i none' => nomatch none'
  obtain ⟨-, same, least⟩ := youngest_least (List.range pages.length) nothing
  rw [← same i named]
  exact least j (List.mem_range.mpr inside) able

theorem fifoChoose_named (named : (fifoChoose s pages).1 = some i) :
    i < pages.length ∧ PageSet.eligible s pages i = true ∧
      Fifo.age s.replacers.fifo (pageAt pages i).address < 2 ^ 64 - 1 := by
  obtain none | ⟨there, able, young⟩ := youngest_named (List.range pages.length) named
  · cases none
  · exact ⟨List.mem_range.mp there, able, young⟩

theorem fifoChoose_some (inside : i < pages.length) (able : PageSet.eligible s pages i = true)
    (young : Fifo.age s.replacers.fifo (pageAt pages i).address < 2 ^ 64 - 1) :
    (fifoChoose s pages).1 ≠ none := by
  intro unnamed
  have old := (youngest_unnamed (List.range pages.length) unnamed).2 i (List.mem_range.mpr inside)
    able
  exact absurd young (Nat.not_lt.mpr old)

private def nruBetter (s : Paging) (pages : Pages) (best : Option (Nat × Nat)) (i : Nat) :
    Option (Nat × Nat) :=
  if best.all fun b => decide (nruClass s pages i < b.1) then some (nruClass s pages i, i) else best

private theorem nruBest_cons (best : Option (Nat × Nat)) :
    nruBest s pages best (i :: is) =
      if PageSet.eligible s pages i = false then nruBest s pages best is
      else if nruClass s pages i = 0 then nruBetter s pages best i
      else nruBest s pages (nruBetter s pages best i) is := rfl

private theorem nruBetter_some (best : Option (Nat × Nat)) (j : Nat) :
    nruBetter s pages best j ≠ none := by
  unfold nruBetter
  cases best with
  | none => exact Option.some_ne_none _
  | some b =>
      split_ifs
      · exact Option.some_ne_none _
      · exact Option.some_ne_none _

private theorem nruBetter_named {best : Option (Nat × Nat)} {j kind : Nat}
    (named : nruBetter s pages best j = some (kind, i)) : best = some (kind, i) ∨ j = i := by
  unfold nruBetter at named
  split_ifs at named
  · exact Or.inr (Prod.mk.inj (Option.some.inj named)).2
  · exact Or.inl named

private theorem nruBest_named {best : Option (Nat × Nat)} {kind : Nat}
    (named : nruBest s pages best is = some (kind, i)) :
    (∃ kind, best = some (kind, i)) ∨ i ∈ is ∧ PageSet.eligible s pages i = true := by
  induction is generalizing best with
  | nil => exact Or.inl ⟨kind, named⟩
  | cons j rest ih =>
      rw [nruBest_cons] at named
      split_ifs at named with spared least
      · exact (ih named).imp_right fun both => ⟨List.mem_cons_of_mem _ both.1, both.2⟩
      · rcases nruBetter_named named with here | rfl
        · exact Or.inl ⟨kind, here⟩
        · exact Or.inr ⟨List.mem_cons_self, Bool.of_not_eq_false spared⟩
      · rcases ih named with ⟨kind', here⟩ | ⟨there, able⟩
        · rcases nruBetter_named here with here | rfl
          · exact Or.inl ⟨kind', here⟩
          · exact Or.inr ⟨List.mem_cons_self, Bool.of_not_eq_false spared⟩
        · exact Or.inr ⟨List.mem_cons_of_mem _ there, able⟩

private theorem nruBest_kept {best : Option (Nat × Nat)} (held : best ≠ none) :
    nruBest s pages best is ≠ none := by
  induction is generalizing best with
  | nil => exact held
  | cons j rest ih =>
      rw [nruBest_cons]
      split_ifs
      · exact ih held
      · exact nruBetter_some best j
      · exact ih (nruBetter_some best j)

private theorem nruBest_some {best : Option (Nat × Nat)} (there : i ∈ is)
    (able : PageSet.eligible s pages i = true) : nruBest s pages best is ≠ none := by
  induction is generalizing best with
  | nil => exact absurd there List.not_mem_nil
  | cons j rest ih =>
      rw [nruBest_cons]
      split_ifs with spared least
      · refine ih ((List.mem_cons.mp there).resolve_left fun same => ?_)
        rw [← same, able] at spared
        cases spared
      · exact nruBetter_some best j
      · exact nruBest_kept (nruBetter_some best j)

private theorem fades_sweep (is : List Nat) {s s' : Paging} (fades : Fades s s') :
    Fades s (is.foldl (fun s index => if PageSet.accessed s pages index then
      PageSet.clearAccessed s pages index else s) s') := by
  induction is generalizing s' with
  | nil => exact fades
  | cons j rest ih =>
      rw [List.foldl_cons]
      apply ih
      split_ifs
      · exact fades.trans (fades_clear s' pages j)
      · exact fades

private theorem replacers_sweep (is : List Nat) (s : Paging) :
    (is.foldl (fun s index => if PageSet.accessed s pages index then
      PageSet.clearAccessed s pages index else s) s).replacers = s.replacers := by
  induction is generalizing s with
  | nil => rfl
  | cons j rest ih =>
      rw [List.foldl_cons, ih]
      split_ifs
      · rfl
      · rfl

private theorem nthEligible_named {wanted : Nat} (named : nthEligible s pages wanted is = some i) :
    i ∈ is ∧ PageSet.eligible s pages i = true := by
  induction is generalizing wanted with
  | nil => cases named
  | cons j rest ih =>
      unfold nthEligible at named
      split_ifs at named with spared last
      · exact ⟨List.mem_cons_of_mem _ (ih named).1, (ih named).2⟩
      · cases named
        exact ⟨List.mem_cons_self, Bool.of_not_eq_false spared⟩
      · exact ⟨List.mem_cons_of_mem _ (ih named).1, (ih named).2⟩

private theorem nthEligible_some {wanted : Nat}
    (few : wanted < (is.filter (PageSet.eligible s pages)).length) :
    nthEligible s pages wanted is ≠ none := by
  induction is generalizing wanted with
  | nil => exact absurd few (Nat.not_lt_zero _)
  | cons j rest ih =>
      unfold nthEligible
      split_ifs with spared last
      · rw [List.filter_cons_of_neg (by simp [spared])] at few
        exact ih few
      · exact Option.some_ne_none j
      · rw [List.filter_cons_of_pos (Bool.of_not_eq_false spared), List.length_cons] at few
        exact ih (by omega)

private theorem nruChoose_spec (s : Paging) (pages : Pages) :
    Fades s (nruChoose s pages).2 ∧
      (∀ i, (nruChoose s pages).1 = some i →
        i < pages.length ∧ PageSet.eligible s pages i = true) ∧
      ((∃ i, i < pages.length ∧ PageSet.eligible s pages i = true) →
        (nruChoose s pages).1 ≠ none) := by
  unfold nruChoose
  cases best : nruBest s pages none (List.range pages.length) with
  | none =>
      refine ⟨Fades.refl s, fun i named => absurd named (by simp), ?_⟩
      rintro ⟨i, inside, able⟩
      exact absurd best (nruBest_some (List.mem_range.mpr inside) able)
  | some chosen =>
      refine ⟨fades_sweep _ (Fades.refl s), fun i named => ?_, fun _ => Option.some_ne_none _⟩
      cases named
      obtain ⟨kind, never⟩ | ⟨there, able⟩ := nruBest_named best
      · cases never
      · exact ⟨List.mem_range.mp there, able⟩

theorem randomChoose_spec (s : Paging) (pages : Pages) :
    (randomChoose s pages).2 = { s with replacers := (randomChoose s pages).2.replacers } ∧
      (randomChoose s pages).2.replacers.active = s.replacers.active ∧
      (randomChoose s pages).2.replacers.fifo = s.replacers.fifo ∧
      (∀ i, (randomChoose s pages).1 = some i →
        i < pages.length ∧ PageSet.eligible s pages i = true) ∧
      ((∃ i, i < pages.length ∧ PageSet.eligible s pages i = true) →
        (randomChoose s pages).1 ≠ none) := by
  unfold randomChoose
  dsimp only
  split_ifs with count
  · refine ⟨rfl, rfl, rfl, fun i named => absurd named (by simp), ?_⟩
    rintro ⟨i, inside, able⟩
    have there := List.mem_filter.mpr ⟨List.mem_range.mpr inside, able⟩
    rw [List.length_eq_zero_iff] at count
    rw [count] at there
    exact absurd there List.not_mem_nil
  · refine ⟨rfl, rfl, rfl, fun i named => ?_, fun _ => ?_⟩
    · obtain ⟨there, able⟩ := nthEligible_named named
      exact ⟨List.mem_range.mp there, able⟩
    · exact nthEligible_some (Nat.mod_lt _ (Nat.pos_of_ne_zero count))

end Others

section Choosing

/-- The largest stamp there is stands for no arrival at all. -/
def Dated (s : Paging) (page : Page) : Prop :=
  s.replacers.active = 1 → Fifo.age s.replacers.fifo page.address < 2 ^ 64 - 1

theorem choose_named (named : (choose s pages).1 = some i) :
    i < pages.length ∧ PageSet.eligible s pages i = true ∧ Dated s (pageAt pages i) := by
  have undated : s.replacers.active ≠ 1 → Dated s (pageAt pages i) := fun other same =>
    absurd same other
  unfold choose at named
  split at named
  · obtain ⟨inside, able, dated⟩ := fifoChoose_named named
    exact ⟨inside, able, fun _ => dated⟩
  · rename_i second
    obtain ⟨inside, able⟩ := (nruChoose_spec s pages).2.1 i named
    exact ⟨inside, able, undated (by rw [second]; decide)⟩
  · rename_i third
    obtain ⟨-, -, -, sound, -⟩ := randomChoose_spec s pages
    obtain ⟨inside, able⟩ := sound i named
    exact ⟨inside, able, undated (by rw [third]; decide)⟩
  · rename_i first second third
    obtain ⟨inside, able⟩ := clockChoose_named named
    exact ⟨inside, able, undated first⟩

theorem choose_some (inside : i < pages.length) (able : PageSet.eligible s pages i = true)
    (dated : Dated s (pageAt pages i)) : (choose s pages).1 ≠ none := by
  unfold choose
  split
  · rename_i first
    exact fifoChoose_some inside able (dated first)
  · exact (nruChoose_spec s pages).2.2 ⟨i, inside, able⟩
  · obtain ⟨-, -, -, -, some⟩ := randomChoose_spec s pages
    exact some ⟨i, inside, able⟩
  · exact clockChoose_some inside able

theorem fades_choose (s : Paging) (pages : Pages) : Fades s (choose s pages).2 := by
  unfold choose
  split
  · exact Fades.refl s
  · exact (nruChoose_spec s pages).1
  · obtain ⟨state, -⟩ := randomChoose_spec s pages
    rw [state]
    exact (Fades.refl s).remember _
  · exact fades_clockChoose s pages

theorem choose_keeps (s : Paging) (pages : Pages) :
    (choose s pages).2.replacers.active = s.replacers.active ∧
      (choose s pages).2.replacers.fifo = s.replacers.fifo := by
  unfold choose
  split
  · exact ⟨rfl, rfl⟩
  · unfold nruChoose
    split
    · exact ⟨rfl, rfl⟩
    · simp only [replacers_sweep, and_self]
  · obtain ⟨-, active, arrivals, -⟩ := randomChoose_spec s pages
    exact ⟨active, arrivals⟩
  · have kept : (swept pages (circle s.replacers.clock.hand pages.length ++
        circle s.replacers.clock.hand pages.length) s).2.replacers = s.replacers :=
      replacers_swept _ s
    rw [clockChoose_eq, clockSweep_eq]
    split
    · rename_i v s' found
      rw [found] at kept
      simp only [setClock]
      rw [kept]
      exact ⟨rfl, rfl⟩
    · rename_i s' found
      rw [found] at kept
      rw [kept]
      exact ⟨rfl, rfl⟩

end Choosing

end FiveAM.Memory.Policies
