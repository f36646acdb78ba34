/- GID: FiveAM/Memory/Spaces
   source: kernel/src/memory.rs
   digest: Making, filling and taking down address spaces, and what each does to the books. -/

import FiveAM.Memory.Eviction

set_option autoImplicit false
set_option relaxedAutoImplicit false

namespace FiveAM.Memory.Spaces

open FiveAM.Process.TaskTable (Word)
open FiveAM.Memory.Entries FiveAM.Memory.Frames FiveAM.Memory.Replace FiveAM.Memory.PageTables
open FiveAM.Memory.Ownership FiveAM.Memory.Residency FiveAM.Lib.RadixTables

section Ways

variable {m m' : Words} {root : Word}

/-- How many tables there are below a table on the way to a page. -/
def passed (m : Words) (level : Nat) (table : Word) (path : Nat → Index) : Nat :=
  along userTree (fun _ n => n + 1) (fun _ => 0) (fun _ => 0) m level table path

def lacking (m : Words) (level : Nat) (table : Word) (path : Nat → Index) : Nat :=
  level - passed m level table path

theorem passed_down {m : Words} {level : Nat} {table c : Word} {path : Nat → Index}
    (down : userTree.child (level + 1) (path (level + 1)) (m table (path (level + 1))) = some c) :
    passed m (level + 1) table path = passed m level c path + 1 := by
  unfold passed
  rw [along_eq, beyond_child down]

theorem passed_stop {m : Words} {level : Nat} {table : Word} {path : Nat → Index}
    (ends : userTree.child (level + 1) (path (level + 1)) (m table (path (level + 1))) = none) :
    passed m (level + 1) table path = 0 := by
  unfold passed
  rw [along_eq, beyond_stop ends]

theorem passed_empty {m : Words} {table : Word} (empty : ∀ i, m table i = 0) (level : Nat)
    (path : Nat → Index) : passed m level table path = 0 :=
  along_empty rfl empty level path

theorem passed_route {path : Nat → Index} {n k : Nat} {t u : Word}
    (route : Route userTree m path n t k u) :
    passed m n t path = (n - k) + passed m k u path := by
  induction route with
  | here n t => rw [Nat.sub_self, Nat.zero_add]
  | down step rest ih =>
      have low := rest.le
      rw [passed_down step, ih]
      omega

/-- How far two lists of indexes agree, from the top down to the last table. -/
def common (p q : Nat → Index) : Nat → Nat
  | 0 => 0
  | n + 1 => if p (n + 1) = q (n + 1) then common p q n + 1 else 0

theorem common_ge {p q : Nat → Index} {n k : Nat} (same : ∀ j, k < j → j ≤ n → p j = q j) :
    n - k ≤ common p q n := by
  induction n with
  | zero =>
      rw [Nat.zero_sub]
      exact Nat.zero_le _
  | succ n ih =>
      rcases Nat.lt_or_ge n k with below | above
      · rw [Nat.sub_eq_zero_of_le below]
        exact Nat.zero_le _
      · have rest := ih fun j low high => same j low (Nat.le_succ_of_le high)
        rw [common, if_pos (same (n + 1) (Nat.lt_succ_of_le above) (Nat.le_refl _))]
        omega

theorem common_le (p q : Nat → Index) (n : Nat) : common p q n ≤ n := by
  induction n with
  | zero => exact Nat.le_refl 0
  | succ n ih =>
      rw [common]
      split_ifs
      · exact Nat.succ_le_succ ih
      · exact Nat.zero_le _

theorem common_same {p q : Nat → Index} {n j : Nat} (low : n - common p q n < j) (high : j ≤ n) :
    p j = q j := by
  induction n with
  | zero => exact absurd (Nat.lt_of_lt_of_le low high) (Nat.not_lt_zero _)
  | succ n ih =>
      rw [common] at low
      split_ifs at low with turn
      · rcases Nat.lt_or_eq_of_le high with below | rfl
        · exact ih (by omega) (Nat.le_of_lt_succ below)
        · exact turn
      · omega

end Ways

section Uppers

variable {s : Paging} {managed live : Finset Word} {hand chain : List Word} {root u : Word}
  {path : Nat → Index} {k : Nat}

private theorem foldr_and_replace (upper : List Word) {w w' : Word} {i : Nat}
    (set : (upper.foldr (fun e rest => e &&& rest) w).getLsbD i = true)
    (here : w'.getLsbD i = true) :
    (upper.foldr (fun e rest => e &&& rest) w').getLsbD i = true := by
  induction upper with
  | nil => exact here
  | cons e rest ih =>
      rw [List.foldr_cons, BitVec.getLsbD_and, Bool.and_eq_true] at set ⊢
      exact ⟨set.1, ih set.2⟩

private theorem sound_upper (books : Books s managed live hand chain) (member : root ∈ live)
    (route : Route userTree s.words path 3 root (k + 1) u) {e : Word}
    (free : ∀ p i, (∀ j, k + 1 ≤ j → j ≤ 3 → p j = path j) → i < 2 →
      (uppersFrom s.words p (k + 1) (s.words u (path (k + 1)))).getLsbD i = true →
      (uppersFrom (put s.words u (path (k + 1)) e) p (k + 1) e).getLsbD i = true) :
    ∀ r ∈ live, Sound (put s.words u (path (k + 1)) e) r := by
  intro r there p low
  obtain ⟨once, -⟩ := books.table member route
  obtain ⟨alone, others⟩ := absent_elsewhere member route.occurs once
  obtain ⟨bit0, bit1⟩ := books.sound r there p low
  rw [has_present] at bit0 ⊢
  rw [has_writable] at bit1 ⊢
  unfold above at bit0 bit1 ⊢
  by_cases here : r = root
  · subst here
    by_cases follows : ∀ j, k + 1 ≤ j → j ≤ 3 → p j = path j
    · have reading : ∃ upper : List Word,
          uppers s.words 3 r p = upper.foldr (fun e rest => e &&& rest)
            (uppersFrom s.words p (k + 1) (s.words u (path (k + 1)))) ∧
          uppers (put s.words u (path (k + 1)) e) 3 r p = upper.foldr (fun e rest => e &&& rest)
            (uppersFrom (put s.words u (path (k + 1)) e) p (k + 1) e) :=
        along_put_on route alone e follows
      obtain ⟨upper, before, after⟩ := reading
      rw [before] at bit0 bit1
      rw [after]
      exact ⟨foldr_and_replace upper bit0 (free p 0 follows (by decide) (foldr_and_bit upper _ 0 bit0)),
        foldr_and_replace upper bit1 (free p 1 follows (by decide) (foldr_and_bit upper _ 1 bit1))⟩
    · have leaves : ∃ j, k + 1 ≤ j ∧ j ≤ 3 ∧ p j ≠ path j := by
        by_contra none
        refine follows fun j low high => ?_
        by_contra other
        exact none ⟨j, low, high, other⟩
      have kept : uppers (put s.words u (path (k + 1)) e) 3 r p = uppers s.words 3 r p :=
        along_put_off route alone e leaves
      rw [kept]
      exact ⟨bit0, bit1⟩
  · have kept : uppers (put s.words u (path (k + 1)) e) 3 r p = uppers s.words 3 r p := by
      refine along_congr fun v inside => put_table fun same => ?_
      rw [same, others r there here] at inside
      exact Nat.lt_irrefl 0 inside
    rw [kept]
    exact ⟨bit0, bit1⟩

/-- What building tables in one space changes: the frames `taken` off the free list
become tables of it, its other tables lead where they led, and no page, no other
frame and nothing else is touched. -/
structure Builds (s s' : Paging) (live : Finset Word) (root : Word) (path : Nat → Index)
    (taken : List Word) : Prop where
  counts : ∀ f, tableCount s'.words live f = tableCount s.words live f + taken.count f
  tree : ∀ f, treeCount s'.words root f = treeCount s.words root f + taken.count f
  leaves : ∀ r ∈ live, ∀ p, leafAt s'.words r p = leafAt s.words r p
  ways : ∀ p, passed s.words 3 root p ≤ passed s'.words 3 root p ∧
    passed s'.words 3 root p ≤ max (passed s.words 3 root p) (common p path 3)
  kept : ∀ f, treeCount s.words root f = 0 → f ∉ taken → s'.words f = s.words f
  shared : s'.shared = s.shared
  cr3 : s'.cr3 = s.cr3
  replacers : s'.replacers = s.replacers
  used : s'.used = s.used
  disk : s'.disk = s.disk

theorem Builds.refl (s : Paging) (live : Finset Word) (root : Word) (path : Nat → Index) :
    Builds s s live root path [] where
  counts f := by rw [List.count_nil, Nat.add_zero]
  tree f := by rw [List.count_nil, Nat.add_zero]
  leaves _ _ _ := rfl
  ways _ := ⟨Nat.le_refl _, Nat.le_max_left _ _⟩
  kept _ _ _ := rfl
  shared := rfl
  cr3 := rfl
  replacers := rfl
  used := rfl
  disk := rfl

theorem Builds.trans {s s' s'' : Paging} {taken taken' : List Word}
    (first : Builds s s' live root path taken) (second : Builds s' s'' live root path taken') :
    Builds s s'' live root path (taken ++ taken') where
  counts f := by
    rw [second.counts, first.counts, List.count_append]
    omega
  tree f := by
    rw [second.tree, first.tree, List.count_append]
    omega
  leaves r member p := (second.leaves r member p).trans (first.leaves r member p)
  ways p := by
    obtain ⟨more, bound⟩ := first.ways p
    obtain ⟨more', bound'⟩ := second.ways p
    omega
  kept f absent outside := by
    rw [List.mem_append, not_or] at outside
    refine (second.kept f ?_ outside.2).trans (first.kept f absent outside.1)
    rw [first.tree, absent, List.count_eq_zero.mpr outside.1]
  shared := second.shared.trans first.shared
  cr3 := second.cr3.trans first.cr3
  replacers := second.replacers.trans first.replacers
  used := second.used.trans first.used
  disk := second.disk.trans first.disk

theorem books_widen (books : Books s managed live hand chain) (member : root ∈ live)
    (route : Route userTree s.words path 3 root (k + 1) u) {e c : Word}
    (down : userTree.child (k + 1) (path (k + 1)) (s.words u (path (k + 1))) = some c)
    (same : userTree.child (k + 1) (path (k + 1)) e = some c)
    (more : ∀ i, i < 2 → (s.words u (path (k + 1))).getLsbD i = true → e.getLsbD i = true) :
    Books (s.write u (path (k + 1)) e) managed live hand chain ∧
      Builds s (s.write u (path (k + 1)) e) live root path [] := by
  obtain ⟨once, outside, -⟩ := books.table member route
  have absent : tables userTree s.words k c u = 0 := child_absent member route once down
  have below : ∀ v, 0 < tables userTree s.words k c v →
      put s.words u (path (k + 1)) e v = s.words v := fun v there => put_table fun here => by
    rw [here, absent] at there
    exact Nat.lt_irrefl 0 there
  have weights : ∀ own leaf, forest userTree own leaf (put s.words u (path (k + 1)) e) 3 live =
      forest userTree own leaf s.words 3 live := by
    intro own leaf
    have change := forest_put own leaf member route once e
    rw [part_child down, part_child same, tally_congr below] at change
    omega
  obtain ⟨alone, -⟩ := absent_elsewhere member route.occurs once
  have tree : ∀ f, treeCount (put s.words u (path (k + 1)) e) root f =
      treeCount s.words root f := by
    intro f
    have change := tally_put (fun v => if v = f then 1 else 0) (fun _ => 0) route alone e
    rw [part_child down, part_child same, tally_congr below] at change
    exact Nat.add_right_cancel change
  have turns : ∀ p : Nat → Index, (∀ j, k + 1 ≤ j → j ≤ 3 → p j = path j) →
      p (k + 1) = path (k + 1) := fun p follows => follows (k + 1) (Nat.le_refl _) route.le
  have reads : ∀ {β : Type} (more : β → β) (last stop : Word → β), ∀ r ∈ live, ∀ p,
      along userTree (fun _ rest => more rest) last stop (put s.words u (path (k + 1)) e) 3 r p =
        along userTree (fun _ rest => more rest) last stop s.words 3 r p := by
    intro β more last stop r there p
    refine along_put_same (e := e) member route once (fun p follows => ?_) there p
    have turn := turns p follows
    rw [← turn] at down same below ⊢
    rw [beyond_child down, beyond_child same, along_congr below]
  refine ⟨⟨⟨?_, books.account.count, fun f => ?_, fun f => ?_, books.account.shared,
    books.account.framed⟩, sound_upper books member route fun p i follows low before => ?_⟩,
    fun f => ?_, fun f => ?_, reads (fun e => e) id fun _ => userTree.blank, fun p => ?_,
    fun f absent _ => put_table fun same => ?_, rfl, rfl, rfl, rfl, rfl⟩
  · refine books.account.linked.congr fun f inside => ?_
    have apart : f ≠ u := fun same => outside (same ▸ inside)
    exact put_table apart
  · change chain.count f + hand.count f + forest userTree _ _ (put s.words u (path (k + 1)) e) 3 live +
      (if 0 < forest userTree _ _ (put s.words u (path (k + 1)) e) 3 live then 1 else 0) = _
    rw [weights, weights]
    exact books.account.once f
  · change s.shareCount f = max 1 (forest userTree _ _ (put s.words u (path (k + 1)) e) 3 live)
    rw [weights]
    exact books.account.owners f
  · have turn := turns p follows
    rw [← turn] at down same
    rw [← turn] at before
    unfold uppersFrom at before ⊢
    rw [beyond_child down, BitVec.getLsbD_and, Bool.and_eq_true] at before
    rw [← turn] at below
    rw [← turn, beyond_child same, along_congr below, BitVec.getLsbD_and, Bool.and_eq_true]
    refine ⟨more i low ?_, before.2⟩
    rw [← turn]
    exact before.1
  · rw [List.count_nil, Nat.add_zero]
    exact weights (fun v => if v = f then 1 else 0) (fun _ => 0)
  · simp only [List.count_nil, Nat.add_zero]
    exact tree f
  · have same' : passed (put s.words u (path (k + 1)) e) 3 root p = passed s.words 3 root p :=
      reads (fun n => n + 1) (fun _ => 0) (fun _ => 0) root member p
    rw [write_words, same']
    exact ⟨Nat.le_refl _, Nat.le_max_left _ _⟩
  · rw [same, treeCount, alone] at absent
    exact absurd absent (by simp)

private theorem attach_ways {m : Words} {c e : Word}
    (route : Route userTree m path 3 root (k + 1) u) (alone : tables userTree m 3 root u = 1)
    (none : userTree.child (k + 1) (path (k + 1)) (m u (path (k + 1))) = none)
    (fresh : userTree.child (k + 1) (path (k + 1)) e = some c)
    (empty : ∀ i, put m u (path (k + 1)) e c i = 0) (p : Nat → Index) :
    passed m 3 root p ≤ passed (put m u (path (k + 1)) e) 3 root p ∧
      passed (put m u (path (k + 1)) e) 3 root p ≤ max (passed m 3 root p) (common p path 3) := by
  by_cases follows : ∀ j, k + 1 ≤ j → j ≤ 3 → p j = path j
  · have turn : p (k + 1) = path (k + 1) := follows (k + 1) (Nat.le_refl _) route.le
    have route' : Route userTree m p 3 root (k + 1) u :=
      route.indexes fun j low high => follows j (Nat.le_of_lt low) high
    have kept := route.put_other alone (path (k + 1)) e route' (Nat.le_refl _)
    have before := passed_route route'
    have after := passed_route kept
    have here : passed m (k + 1) u p = 0 := passed_stop (by rw [turn]; exact none)
    have below : passed (put m u (path (k + 1)) e) (k + 1) u p = 0 + 1 := by
      rw [← passed_empty empty k p]
      exact passed_down (by rw [turn, put_self]; exact fresh)
    rw [here] at before
    rw [below] at after
    have far : 3 - k ≤ common p path 3 := common_ge fun j low high => follows j low high
    have low := route.le
    omega
  · have leaves : ∃ j, k + 1 ≤ j ∧ j ≤ 3 ∧ p j ≠ path j := by
      by_contra none
      refine follows fun j low high => ?_
      by_contra other
      exact none ⟨j, low, high, other⟩
    have kept : passed (put m u (path (k + 1)) e) 3 root p = passed m 3 root p :=
      along_put_off route alone e leaves
    rw [kept]
    exact ⟨Nat.le_refl _, Nat.le_max_left _ _⟩

theorem books_attach {c : Word} (books : Books s managed live (c :: hand) chain)
    (member : root ∈ live) (route : Route userTree s.words path 3 root (k + 1) u)
    {e : Word} (none : userTree.child (k + 1) (path (k + 1)) (s.words u (path (k + 1))) = none)
    (fresh : userTree.child (k + 1) (path (k + 1)) e = some c) (zero : ∀ i, s.words c i = 0)
    (open' : ∀ i, i < 2 → e.getLsbD i = true) :
    Books (s.write u (path (k + 1)) e) managed live hand chain ∧
      Builds s (s.write u (path (k + 1)) e) live root path [c] := by
  obtain ⟨once, outside, held, -⟩ := books.table member route
  have apart : c ≠ u := fun same => held (same ▸ List.mem_cons_self)
  have empty : ∀ i, put s.words u (path (k + 1)) e c i = userTree.blank := fun i => by
    rw [put_table apart]
    exact zero i
  have weights : ∀ own leaf, leaf 0 = 0 →
      forest userTree own leaf (put s.words u (path (k + 1)) e) 3 live =
        forest userTree own leaf s.words 3 live + own c := by
    intro own leaf light
    have change := forest_put own leaf member route once e
    have before : part userTree own leaf s.words (k + 1) (path (k + 1)) (s.words u (path (k + 1))) =
        0 := by simp [part, none]
    rw [before, part_child fresh, tally_empty light empty] at change
    omega
  obtain ⟨alone, -⟩ := absent_elsewhere member route.occurs once
  have counted : ∀ f, [c].count f = if c = f then 1 else 0 := fun f => by
    rw [List.count_singleton]
    by_cases same : c = f <;> simp [same]
  have tree : ∀ f, treeCount (put s.words u (path (k + 1)) e) root f =
      treeCount s.words root f + [c].count f := by
    intro f
    have change := tally_put (fun v => if v = f then 1 else 0) (fun _ => 0) route alone e
    have before : part userTree (fun v => if v = f then 1 else 0) (fun _ => 0) s.words (k + 1)
        (path (k + 1)) (s.words u (path (k + 1))) = 0 := by simp [part, none]
    rw [before, part_child fresh, tally_empty rfl empty, Nat.add_zero] at change
    rw [counted]
    exact change
  have named : ∀ f, names f 0 = 0 := fun f => by simp [names, has]
  have turns : ∀ p : Nat → Index, (∀ j, k + 1 ≤ j → j ≤ 3 → p j = path j) →
      p (k + 1) = path (k + 1) := fun p follows => follows (k + 1) (Nat.le_refl _) route.le
  refine ⟨⟨⟨?_, books.account.count, fun f => ?_, fun f => ?_, books.account.shared,
    books.account.framed⟩, sound_upper books member route fun p i follows low before => ?_⟩,
    fun f => ?_, tree, fun r there p => ?_, fun p => ?_,
    fun f absent _ => put_table fun same => ?_, rfl, rfl, rfl, rfl, rfl⟩
  · refine books.account.linked.congr fun f inside => ?_
    have other : f ≠ u := fun same => outside (same ▸ inside)
    exact put_table other
  · have before := books.account.once f
    change chain.count f + hand.count f + forest userTree _ _ (put s.words u (path (k + 1)) e) 3 live +
      (if 0 < forest userTree _ _ (put s.words u (path (k + 1)) e) 3 live then 1 else 0) = _
    rw [weights _ _ (named f), weights _ _ rfl, ← before, List.count_cons]
    by_cases same : c = f
    · simp only [same, beq_self_eq_true, if_true, Nat.add_zero]
      change _ + _ + (tableCount s.words live f + 1) + (if 0 < refCount s.words live f then 1 else 0) = _
      omega
    · have other : (c == f) = false := by simpa using same
      simp only [same, other, Bool.false_eq_true, if_false, Nat.add_zero]
      rfl
  · change s.shareCount f = max 1 (forest userTree _ _ (put s.words u (path (k + 1)) e) 3 live)
    rw [weights _ _ (named f)]
    exact books.account.owners f
  · have turn := turns p follows
    rw [← turn] at fresh empty
    have clear : uppers (put s.words u (p (k + 1)) e) k c p = BitVec.allOnes 64 :=
      along_empty (by simp [blocked, userTree, has]) empty k p
    unfold uppersFrom
    rw [← turn, beyond_child fresh, BitVec.getLsbD_and, Bool.and_eq_true]
    refine ⟨open' i low, ?_⟩
    change (uppers (put s.words u (p (k + 1)) e) k c p).getLsbD i = true
    rw [clear, BitVec.getLsbD_allOnes, decide_eq_true_eq]
    omega
  · rw [counted]
    exact weights (fun v => if v = f then 1 else 0) (fun _ => 0) rfl
  · unfold leafAt entryAt
    refine along_put_same (e := e) member route once (fun p follows => ?_) there p
    have turn := turns p follows
    rw [← turn] at fresh none empty ⊢
    rw [beyond_child fresh, beyond_stop none]
    have last : entryAt userTree (put s.words u (p (k + 1)) e) k c p = userTree.blank :=
      along_empty (by rfl) empty k p
    exact last
  · exact attach_ways route alone none fresh (fun i => empty i) p
  · rw [same, treeCount, alone] at absent
    exact absurd absent (by simp)

theorem books_grow {c : Word} {rest : List Word} (books : Books s managed live hand (c :: rest))
    (member : root ∈ live) (route : Route userTree s.words path 3 root (k + 1) u)
    (user : path 3 = 0) (absent : has (s.words u (path (k + 1))) present = false) (flags : Word) :
    ∃ s', Books s' managed live hand rest ∧ Builds s s' live root path [c] ∧
      Route userTree s'.words path 3 root k c ∧ (∀ i, s'.words c i = 0) ∧
      s' = ((({ s with head := s.words c 0, free := s.free - 1 } : Paging).fill c fun _ => 0).write u
        (path (k + 1)) (tableEntry c (flags &&& Entries.user))) := by
  obtain ⟨-, held⟩ := books.take
  have filled := held.fill fun _ => 0
  have trees := held.trees_fill fun _ => 0
  have framed := books.account.framed c held.held.2.2.2.2
  have route1 := trees.routes root member path (k + 1) u route
  have apart : u ≠ c := fun same => (filled.table member route1).2.2.1 (same ▸ List.mem_cons_self)
  have word : (({ s with head := s.words c 0, free := s.free - 1 } : Paging).fill c fun _ => 0).words u
      (path (k + 1)) = s.words u (path (k + 1)) := by
    simp only [Paging.fill, Function.update_of_ne apart]
  have leads : userTree.child (k + 1) (path (k + 1)) (tableEntry c (flags &&& Entries.user)) =
      some c := by
    refine (if_pos ⟨present_tableEntry _ _, huge_tableEntry framed, fun top => top ▸ user⟩).trans ?_
    rw [frameOf_tableEntry framed]
  have ends : userTree.child (k + 1) (path (k + 1)) (s.words u (path (k + 1))) = none :=
    if_neg fun all => absurd (absent.symm.trans all.1) (by decide)
  have zero : ∀ i, (({ s with head := s.words c 0, free := s.free - 1 } : Paging).fill c
      fun _ => 0).words c i = 0 := fun i => by simp only [Paging.fill, Function.update_self]
  obtain ⟨attached, builds⟩ := books_attach filled member route1 (by rw [word]; exact ends) leads
    zero fun i low => by
      rcases Nat.lt_succ_iff_lt_or_eq.mp low with first | rfl
      · rw [Nat.lt_one_iff.mp first, ← has_present]
        exact present_tableEntry _ _
      · rw [← has_writable]
        exact writable_tableEntry _ _
  refine ⟨_, attached, ?_, ?_, fun i => ?_, rfl⟩
  · have own : ∀ v, 0 < tables userTree s.words 3 root v →
        (({ s with head := s.words c 0, free := s.free - 1 } : Paging).fill c fun _ => 0).words v =
          s.words v := fun v there => Function.update_of_ne (fun same => by
        have bound := tables_le_occurs (R := userTree) (m := s.words) (n := 3) member c
        change tables userTree s.words 3 root c ≤ tableCount s.words live c at bound
        rw [same] at there
        have none : tableCount s.words live c = 0 := held.held.2.1
        omega) _ _
    have before : ∀ f, treeCount (({ s with head := s.words c 0, free := s.free - 1 } : Paging).fill c
        fun _ => 0).words root f = treeCount s.words root f := fun f => tally_congr own
    have ways : ∀ p, passed (({ s with head := s.words c 0, free := s.free - 1 } : Paging).fill c
        fun _ => 0).words 3 root p = passed s.words 3 root p := fun p => along_congr own
    refine ⟨fun f => (builds.counts f).trans (by rw [trees.tables]), fun f =>
      (builds.tree f).trans (by rw [before]), fun r there p =>
      (builds.leaves r there p).trans (trees.leaves r there p), fun p => ways p ▸ builds.ways p,
      fun f absent outside => ?_, builds.shared, builds.cr3, builds.replacers, builds.used,
      builds.disk⟩
    refine (builds.kept f ((before f).trans absent) outside).trans ?_
    have other : f ≠ c := fun same => outside (same ▸ List.mem_cons_self)
    simp only [Paging.fill, Function.update_of_ne other]
  · obtain ⟨once, -⟩ := filled.table member route1
    obtain ⟨alone, -⟩ := absent_elsewhere member route1.occurs once
    refine Route.next (route1.put_other alone (path (k + 1)) _ route1 (Nat.le_refl _)) ?_
    rw [write_words, put_self]
    exact leads
  · simp only [Paging.write, Function.update_of_ne (Ne.symm apart)]
    exact zero i

end Uppers

section Descent

variable {s : Paging} {managed live : Finset Word} {hand chain : List Word} {root : Word}

/-- What `descend` comes to: the page table, or the end of the free list. -/
structure Descends (s : Paging) (managed live : Finset Word) (hand chain : List Word)
    (root address flags : Word) (level : Nat) (table : Word) : Prop where
  enough : lacking s.words level table (indexes address) ≤ chain.length →
    ∃ u s', descend address (flags &&& user) level table s = (.ok u, s') ∧
      Books s' managed live hand (chain.drop (lacking s.words level table (indexes address))) ∧
      Builds s s' live root (indexes address) (chain.take (lacking s.words level table (indexes address))) ∧
      Route userTree s'.words (indexes address) 3 root 0 u
  short : chain.length < lacking s.words level table (indexes address) →
    ∃ s', descend address (flags &&& user) level table s = (.error "out of physical memory", s') ∧
      Books s' managed live hand [] ∧ Builds s s' live root (indexes address) chain

theorem child_widened {level : Nat} {i : Index} {e c : Word}
    (down : userTree.child level i e = some c) : userTree.child level i (e ||| user) = some c := by
  obtain ⟨there, plain, slot, rfl⟩ := child_some down
  refine (if_pos ⟨?_, ?_, slot⟩).trans (congrArg some (frameOf_widened e))
  · rw [present_widened, there]
  · rw [huge_widened, plain]

theorem descend_there {address : Word} (flags : Word) {level : Nat} {table : Word}
    (books : Books s managed live hand chain) (member : root ∈ live) (low : indexes address 3 = 0)
    (route : Route userTree s.words (indexes address) 3 root (level + 1) table)
    (there : has (s.words table (indexes address (level + 1))) present = true) :
    ∃ s1, descend address (flags &&& user) (level + 1) table s =
        descend address (flags &&& user) level
          (frameOf (s.words table (indexes address (level + 1)))) s1 ∧
      Books s1 managed live hand chain ∧ Builds s s1 live root (indexes address) [] ∧
      Route userTree s1.words (indexes address) 3 root level
        (frameOf (s.words table (indexes address (level + 1)))) ∧
      lacking s1.words level (frameOf (s.words table (indexes address (level + 1))))
        (indexes address) = lacking s.words (level + 1) table (indexes address) ∧
      (s1 = s ∧ (flags &&& user ≠ 0 →
          has (s.words table (indexes address (level + 1))) user = true) ∨
        s1 = s.write table (indexes address (level + 1))
          (s.words table (indexes address (level + 1)) ||| user)) := by
  obtain ⟨absent, -⟩ | ⟨-, -, down⟩ := (books.sound root member).entry low route
  · rw [absent] at there
    cases there
  have less : lacking s.words level (frameOf (s.words table (indexes address (level + 1))))
      (indexes address) = lacking s.words (level + 1) table (indexes address) := by
    unfold lacking
    rw [passed_down down]
    omega
  by_cases widen : flags &&& user ≠ 0 ∧
      has (s.words table (indexes address (level + 1))) user = false
  · have same := child_widened down
    obtain ⟨books1, builds⟩ := books_widen books member route down same fun i _ set => by
      rw [BitVec.getLsbD_or, set]
      rfl
    obtain ⟨once, -⟩ := books.table member route
    obtain ⟨alone, -⟩ := absent_elsewhere member route.occurs once
    refine ⟨_, ?_, books1, builds, ?_, ?_, Or.inr rfl⟩
    · rw [descend]
      simp only [there, if_true, if_pos widen]
    · refine Route.next (route.put_other alone _ _ route (Nat.le_refl _)) ?_
      rw [write_words, put_self]
      exact same
    · rw [← less]
      have none := child_absent member route once down
      have kept : passed (put s.words table (indexes address (level + 1))
            (s.words table (indexes address (level + 1)) ||| user)) level
          (frameOf (s.words table (indexes address (level + 1)))) (indexes address) =
          passed s.words level (frameOf (s.words table (indexes address (level + 1))))
            (indexes address) := along_congr fun v inside => put_table fun here => by
        rw [here, none] at inside
        exact Nat.lt_irrefl 0 inside
      unfold lacking
      rw [write_words, kept]
  · refine ⟨s, ?_, books, Builds.refl s live root _, route.next down, less, Or.inl ⟨rfl, fun wide => ?_⟩⟩
    swap
    · by_contra narrow
      exact widen ⟨wide, Bool.eq_false_of_not_eq_true narrow⟩
    rw [descend]
    simp only [there, if_true, if_neg widen]

theorem descend_spec {address : Word} (flags : Word) {level : Nat} {table : Word}
    (books : Books s managed live hand chain) (member : root ∈ live) (low : indexes address 3 = 0)
    (route : Route userTree s.words (indexes address) 3 root level table) :
    Descends s managed live hand chain root address flags level table := by
  induction level generalizing s table chain with
  | zero =>
      refine ⟨fun _ => ⟨table, s, rfl, ?_, ?_, route⟩, fun short => ?_⟩
      · simp only [lacking, Nat.zero_sub, List.drop_zero]
        exact books
      · simp only [lacking, Nat.zero_sub, List.take_zero]
        exact Builds.refl s live root _
      · simp only [lacking, Nat.zero_sub] at short
        exact absurd short (Nat.not_lt_zero _)
  | succ level ih =>
      cases there : has (s.words table (indexes address (level + 1))) present with
      | true =>
          obtain ⟨s1, step, books1, builds, route1, less, -⟩ := descend_there flags books
            member low route there
          obtain ⟨enough, short⟩ := ih books1 route1
          rw [less] at enough short
          constructor
          · intro room
            obtain ⟨u, s', down, books2, builds2, route2⟩ := enough room
            exact ⟨u, s', step.trans down, books2, builds.trans builds2, route2⟩
          · intro room
            obtain ⟨s', down, books2, builds2⟩ := short room
            exact ⟨s', step.trans down, books2, builds.trans builds2⟩
      | false =>
          have ends : userTree.child (level + 1) (indexes address (level + 1))
              (s.words table (indexes address (level + 1))) = none :=
            if_neg fun all => absurd (there.symm.trans all.1) (by decide)
          have need : lacking s.words (level + 1) table (indexes address) = level + 1 := by
            unfold lacking
            rw [passed_stop ends]
            rfl
          cases chain with
          | nil =>
              refine ⟨fun room => ?_, fun _ => ⟨s, ?_, books, Builds.refl s live root _⟩⟩
              · rw [need] at room
                exact absurd room (Nat.not_succ_le_zero level)
              rw [descend]
              simp only [there, Bool.false_eq_true, if_false, books.account.allocate_none]
          | cons c rest =>
              obtain ⟨s1, books1, builds, route1, zero, shape⟩ := books_grow books member route low
                there flags
              obtain ⟨enough, short⟩ := ih books1 route1
              have less : lacking s1.words level c (indexes address) = level := by
                unfold lacking
                rw [passed_empty zero]
                rfl
              rw [less] at enough short
              have step : descend address (flags &&& user) (level + 1) table s =
                  descend address (flags &&& user) level c s1 := by
                rw [descend]
                simp only [there, Bool.false_eq_true, if_false, books.take.1]
                rw [shape]
              constructor
              · rw [need]
                intro room
                obtain ⟨u, s', down, books2, builds2, route2⟩ := enough (Nat.le_of_succ_le_succ room)
                exact ⟨u, s', step.trans down, books2, builds.trans builds2, route2⟩
              · rw [need]
                intro room
                obtain ⟨s', down, books2, builds2⟩ := short (Nat.lt_of_succ_lt_succ room)
                exact ⟨s', step.trans down, books2, builds.trans builds2⟩

end Descent

section Mapping

variable {s s' : Paging} {managed live : Finset Word} {hand chain : List Word} {root : Word}

def missing (m : Words) (root address : Word) : Nat := lacking m 3 root (indexes address)

def arrived (s : Paging) (address flags : Word) : Paging :=
  if flags &&& user ≠ 0 ∧ address < userSpaceEnd then noteResident s (pageOf address) else s

theorem arrived_eq (s : Paging) (address flags : Word) :
    arrived s address flags = { s with replacers := (arrived s address flags).replacers } := by
  unfold arrived
  split_ifs
  · exact Eviction.noteResident_eq s (pageOf address)
  · rfl

/-- How `map_page_in` can end. -/
inductive Mapping (s : Paging) (managed live : Finset Word) (hand chain : List Word)
    (root address frame flags : Word) : Except String Unit × Paging → Prop where
  | short {s' : Paging} (few : chain.length < missing s.words root address)
      (books : Books s' managed live hand []) (builds : Builds s s' live root (indexes address) chain) :
      Mapping s managed live hand chain root address frame flags
        (.error "out of physical memory", s')
  | taken {s' : Paging}
      (there : has (leafAt s.words root (indexes address)) present = true)
      (books : Books s' managed live hand (chain.drop (missing s.words root address)))
      (builds : Builds s s' live root (indexes address) (chain.take (missing s.words root address))) :
      Mapping s managed live hand chain root address frame flags
        (.error "that address is already mapped", s')
  | mapped {s' : Paging} {u : Word} (room : missing s.words root address ≤ chain.length)
      (absent : has (leafAt s.words root (indexes address)) present = false)
      (books : Books s' managed live hand (chain.drop (missing s.words root address)))
      (builds : Builds s s' live root (indexes address) (chain.take (missing s.words root address)))
      (route : Route userTree s'.words (indexes address) 3 root 0 u) :
      Mapping s managed live hand chain root address frame flags
        (.ok (), arrived (s'.write u (indexes address 0) (leafFor frame flags)) address flags)

theorem mapPageIn_spec {address : Word} (frame flags : Word)
    (books : Books s managed live hand chain) (member : root ∈ live) (low : indexes address 3 = 0) :
    Mapping s managed live hand chain root address frame flags
      (mapPageIn s root address frame flags) := by
  obtain ⟨enough, short⟩ := descend_spec flags books member low (.here 3 root)
  unfold mapPageIn
  rcases Nat.lt_or_ge chain.length (missing s.words root address) with few | room
  · obtain ⟨s', down, books', builds⟩ := short few
    dsimp only
    rw [down]
    exact .short few books' builds
  · obtain ⟨u, s', down, books', builds, route⟩ := enough room
    have leaf : s'.words u (indexes address 0) = leafAt s.words root (indexes address) := by
      rw [← builds.leaves root member, leafAt, entryAt_route route]
    dsimp only
    rw [down]
    dsimp only
    rw [leaf]
    by_cases there : has (leafAt s.words root (indexes address)) present = true
    · rw [if_pos there]
      exact .taken there books' builds
    · rw [if_neg there]
      exact .mapped room (Bool.eq_false_of_not_eq_true there) books' builds route

/-- What mapping a page changes: the tables that were missing come from the free
list, and one leaf entry is set. -/
structure Maps (s s' : Paging) (live : Finset Word) (root : Word) (path : Nat → Index) (e : Word)
    (taken : List Word) : Prop where
  counts : ∀ f, tableCount s'.words live f = tableCount s.words live f + taken.count f
  tree : ∀ f, treeCount s'.words root f = treeCount s.words root f + taken.count f
  leaves : ∀ r ∈ live, ∀ p [Decidable (r = root ∧ SamePage p path)], leafAt s'.words r p =
    if r = root ∧ SamePage p path then e else leafAt s.words r p
  kept : ∀ f, treeCount s.words root f = 0 → f ∉ taken → s'.words f = s.words f
  cr3 : s'.cr3 = s.cr3
  used : s'.used = s.used
  disk : s'.disk = s.disk

theorem Maps.of {s1 : Paging} {path : Nat → Index} {e : Word} {taken : List Word}
    (builds : Builds s s1 live root path taken) (sets : LeafSet s1 s' live root path e)
    (cr3 : s'.cr3 = s1.cr3) (used : s'.used = s1.used) (disk : s'.disk = s1.disk) :
    Maps s s' live root path e taken where
  counts f := (sets.tables f).trans (builds.counts f)
  tree f := (sets.tree f).trans (builds.tree f)
  leaves r member p _ := by rw [sets.leaves r member p, builds.leaves r member p]
  kept f absent outside := by
    refine (sets.kept f ?_).trans (builds.kept f absent outside)
    rw [builds.tree f, absent, List.count_eq_zero.mpr outside]
  cr3 := cr3.trans builds.cr3
  used := used.trans builds.used
  disk := disk.trans builds.disk

theorem mapped_fresh {address frame : Word} (flags : Word) {u : Word} {taken : List Word}
    (books : Books s' managed live (frame :: hand) chain)
    (builds : Builds s s' live root (indexes address) taken) (member : root ∈ live)
    (route : Route userTree s'.words (indexes address) 3 root 0 u)
    (absent : has (leafAt s.words root (indexes address)) present = false)
    (plain : frameOf flags = 0) :
    Books (arrived (s'.write u (indexes address 0) (leafFor frame flags)) address flags) managed live
        hand chain ∧
      Maps s (arrived (s'.write u (indexes address 0) (leafFor frame flags)) address flags) live root
        (indexes address) (leafFor frame flags) taken := by
  have leaf : s'.words u (indexes address 0) = leafAt s.words root (indexes address) := by
    rw [← builds.leaves root member, leafAt, entryAt_route route]
  have framed := books.account.framed frame books.held.2.2.2.2
  have names : frameOf (leafFor frame flags) = frame :=
    (frameOf_leafFor plain).trans framed.2
  have moved := books.leafIn member route (by rw [leaf]; exact absent) (present_leafFor _ _) names
  rw [arrived_eq]
  refine ⟨moved.congr rfl rfl rfl rfl, Maps.of builds ?_ rfl rfl rfl⟩
  exact (LeafSet.write books member route _).congr rfl

end Mapping

section Making

variable {s : Paging} {managed live : Finset Word} {hand chain : List Word} {root : Word}

private theorem root_alone {m : Words} (empty : m root 0 = 0) :
    (∀ own leaf, leaf 0 = 0 → tally userTree own leaf m 3 root = own root) ∧
      (∀ p, leafAt m root p = 0) ∧ (∀ p, passed m 3 root p = 0) ∧ Sound m root := by
  have none : ∀ i, userTree.child 3 i (m root i) = none := by
    intro i
    refine if_neg fun all => ?_
    have here : i = 0 := all.2.2 rfl
    rw [here, empty] at all
    exact absurd all.1 (by decide)
  refine ⟨fun own leaf light => ?_, fun p => entryAt_stop (none _), fun p => passed_stop (none _),
    fun p low => ?_⟩
  · rw [tally_eq]
    have nothing : ∀ i, part userTree own leaf m 3 i (m root i) = 0 := fun i => by
      simp [part, none i]
    simp [nothing]
  · have free : above m root p = blocked (m root (p 3)) := by
      unfold above uppers
      rw [along_eq, beyond_stop (none _)]
    rw [free, low, empty]
    decide

private def madeRoot (s : Paging) (root : Word) : Paging :=
  let s := ({ s with head := s.words root 0, free := s.free - 1 } : Paging).fill root fun _ => 0
  s.fill root fun i => if i = 0 then s.words root 0 else s.words s.cr3 i

/-- What making the space of `root` changes: this frame, off the free list, is its
only table. -/
structure Made (s s' : Paging) (live : Finset Word) (root : Word) : Prop where
  outside : root ∉ live
  unused : tableCount s.words live root = 0
  leaves : ∀ p, leafAt s'.words root p = 0
  ways : ∀ p, passed s'.words 3 root p = 0
  kept : ∀ f, f ≠ root → s'.words f = s.words f
  tree : ∀ f, treeCount s'.words root f = if f = root then 1 else 0
  shared : s'.shared = s.shared
  cr3 : s'.cr3 = s.cr3
  used : s'.used = s.used
  disk : s'.disk = s.disk
  replacers : s'.replacers = s.replacers

theorem Made.trees {s' : Paging} (made : Made s s' live root) (f : Word)
    (there : 0 < tableCount s.words live f) : s'.words f = s.words f := by
  refine made.kept f fun same => ?_
  rw [same, made.unused] at there
  exact Nat.lt_irrefl 0 there

theorem newSpace_made {root : Word} {rest : List Word}
    (books : Books s managed live hand (root :: rest)) :
    ∃ s', newSpace s = (some root, s') ∧ Books s' managed (insert root live) hand rest ∧
      Made s s' live root := by
  obtain ⟨taken, held⟩ := books.take
  have outside : root ∉ live := by
    intro inside
    have there : 0 < tableCount s.words live root :=
      lt_of_lt_of_le (tables_self 3 root) (tables_le_occurs inside root)
    have none : tableCount s.words live root = 0 := held.held.2.1
    omega
  have made : newSpace s = (some root, madeRoot s root) := by
    unfold newSpace
    rw [taken]
    rfl
  have filled : Books (madeRoot s root) managed live (root :: hand) rest :=
    (held.fill fun _ => 0).fill _
  have others : ∀ f, f ≠ root → (madeRoot s root).words f = s.words f := by
    intro f other
    simp only [madeRoot, Paging.fill, Function.update_of_ne other]
  have empty : (madeRoot s root).words root 0 = 0 := by
    simp only [madeRoot, Paging.fill, Function.update_self, if_true]
  have rest' : (madeRoot s root).shared = s.shared ∧ (madeRoot s root).cr3 = s.cr3 ∧
      (madeRoot s root).used = s.used ∧ (madeRoot s root).disk = s.disk ∧
      (madeRoot s root).replacers = s.replacers := ⟨rfl, rfl, rfl, rfl, rfl⟩
  generalize madeRoot s root = s' at made filled others empty rest'
  obtain ⟨weight, leaves, ways, sound⟩ := root_alone empty
  have grown : ∀ own leaf, leaf 0 = 0 → forest userTree own leaf s'.words 3 (insert root live) =
      own root + forest userTree own leaf s'.words 3 live := by
    intro own leaf light
    unfold forest
    rw [Finset.sum_insert outside, weight own leaf light]
  refine ⟨s', made, ⟨⟨filled.account.linked, filled.account.count, fun f => ?_, fun f => ?_,
    filled.account.shared, filled.account.framed⟩, fun r inside => ?_⟩, outside, held.held.2.1, leaves,
    ways, others, fun f => ?_, rest'.1, rest'.2.1, rest'.2.2.1, rest'.2.2.2.1, rest'.2.2.2.2⟩
  · have once := filled.account.once f
    have tables := grown (fun v => if v = f then 1 else 0) (fun _ => 0) rfl
    have refs := grown (fun _ => 0) (names f) (by simp [names, has])
    change tableCount s'.words (insert root live) f = _ + tableCount s'.words live f at tables
    change refCount s'.words (insert root live) f = 0 + refCount s'.words live f at refs
    rw [refs, tables, Nat.zero_add, ← once, List.count_cons]
    by_cases same : root = f
    · simp only [same, if_true, beq_self_eq_true]
      omega
    · have other : (root == f) = false := by simpa using same
      simp only [same, other, Bool.false_eq_true, if_false]
      omega
  · have refs := grown (fun _ => 0) (names f) (by simp [names, has])
    change refCount s'.words (insert root live) f = 0 + refCount s'.words live f at refs
    rw [refs, Nat.zero_add]
    exact filled.account.owners f
  · rcases Finset.mem_insert.mp inside with rfl | inside
    · exact sound
    · exact filled.sound r inside
  · refine (weight (fun v => if v = f then 1 else 0) (fun _ => 0) rfl).trans ?_
    by_cases same : root = f
    · rw [if_pos same, if_pos same.symm]
    · rw [if_neg same, if_neg (Ne.symm same)]

end Making

end FiveAM.Memory.Spaces
