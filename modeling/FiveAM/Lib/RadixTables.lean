/- GID: FiveAM/Lib/RadixTables
   layer: library
   digest: Trees of tables kept in one memory: what occurs in them and what one write changes. -/

import Mathlib.Algebra.BigOperators.Group.Finset.Basic
import Mathlib.Algebra.Order.BigOperators.Group.Finset
import Mathlib.Data.Fintype.Basic

set_option autoImplicit false
set_option relaxedAutoImplicit false

namespace FiveAM.Lib.RadixTables

open scoped BigOperators

variable {α ι ω β : Type*}

/-- How a tree of tables is read out of memory.  An entry may lead to another
table, which depends on the level of the table it is kept in and on its place
there; a blank entry leads nowhere. -/
structure Reading (α ι ω : Type*) where
  child : Nat → ι → ω → Option α
  blank : ω
  child_blank : ∀ level i, child level i blank = none

def put [DecidableEq α] [DecidableEq ι] (m : α → ι → ω) (t : α) (i : ι) (e : ω) : α → ι → ω :=
  Function.update m t (Function.update (m t) i e)

section Writes

variable [DecidableEq α] [DecidableEq ι] {m : α → ι → ω} {t : α} {i : ι} {e : ω}

@[simp] theorem put_self : put m t i e t i = e := by
  simp [put]

theorem put_index {j : ι} (other : j ≠ i) : put m t i e t j = m t j := by
  simp [put, other]

theorem put_table {u : α} (other : u ≠ t) : put m t i e u = m u := by
  simp [put, other]

end Writes

section Counting

variable (R : Reading α ι ω) [Fintype ι] (own : α → Nat) (leaf : ω → Nat)

/-- What a tree weighs: each of its tables by `own`, each entry of its last
tables by `leaf`. -/
def tally (m : α → ι → ω) : Nat → α → Nat
  | 0, t => own t + ∑ i, leaf (m t i)
  | n + 1, t => own t + ∑ i, (R.child (n + 1) i (m t i)).elim 0 (tally m n)

/-- What one entry of a table at a level contributes to its tree. -/
def part (m : α → ι → ω) : Nat → ι → ω → Nat
  | 0, _, e => leaf e
  | n + 1, i, e => (R.child (n + 1) i e).elim 0 (tally R own leaf m n)

def tables [DecidableEq α] (m : α → ι → ω) (n : Nat) (t f : α) : Nat :=
  tally R (fun u => if u = f then 1 else 0) (fun _ => 0) m n t

variable {R own leaf}

theorem tally_eq (m : α → ι → ω) (n : Nat) (t : α) :
    tally R own leaf m n t = own t + ∑ i, part R own leaf m n i (m t i) := by
  cases n <;> rfl

theorem part_child {m : α → ι → ω} {n : Nat} {i : ι} {e : ω} {c : α}
    (down : R.child (n + 1) i e = some c) :
    part R own leaf m (n + 1) i e = tally R own leaf m n c := by
  simp [part, down]

theorem part_stop {m : α → ι → ω} {n : Nat} {i : ι} {e : ω} (ends : R.child (n + 1) i e = none) :
    part R own leaf m (n + 1) i e = 0 := by
  simp [part, ends]

theorem part_blank {m : α → ι → ω} (light : leaf R.blank = 0) (n : Nat) (i : ι) :
    part R own leaf m n i R.blank = 0 := by
  cases n with
  | zero => exact light
  | succ n => simp [part, R.child_blank]

theorem tally_empty {m : α → ι → ω} {t : α} (light : leaf R.blank = 0)
    (empty : ∀ i, m t i = R.blank) (n : Nat) : tally R own leaf m n t = own t := by
  rw [tally_eq]
  have none_there : ∀ i, part R own leaf m n i (m t i) = 0 := fun i => by
    rw [empty i, part_blank light]
  simp [none_there]

private theorem sum_differ {f g : ι → Nat} (j : ι) (same : ∀ i, i ≠ j → f i = g i) :
    ∑ i, f i + g j = ∑ i, g i + f j := by
  classical
  have left := Finset.add_sum_erase Finset.univ f (Finset.mem_univ j)
  have right := Finset.add_sum_erase Finset.univ g (Finset.mem_univ j)
  have rest : ∑ i ∈ Finset.univ.erase j, f i = ∑ i ∈ Finset.univ.erase j, g i :=
    Finset.sum_congr rfl fun i member => same i (Finset.ne_of_mem_erase member)
  omega

end Counting

section Occurrence

variable {R : Reading α ι ω} [Fintype ι] [DecidableEq α] {m m' : α → ι → ω}
  {own : α → Nat} {leaf : ω → Nat}

theorem tables_self (n : Nat) (t : α) : 0 < tables R m n t t := by
  rw [tables, tally_eq]
  simp

theorem tables_child {n : Nat} {t c f : α} {i : ι}
    (down : R.child (n + 1) i (m t i) = some c) :
    (if t = f then 1 else 0) + tables R m n c f ≤ tables R m (n + 1) t f := by
  rw [tables, tables, tally_eq (n := n + 1)]
  have one := Finset.single_le_sum
    (f := fun j => part R (fun u => if u = f then 1 else 0) (fun _ => 0) m (n + 1) j (m t j))
    (fun j _ => Nat.zero_le _) (Finset.mem_univ i)
  rw [part_child down] at one
  omega

theorem occurs_child {n : Nat} {t c f : α} {i : ι}
    (down : R.child (n + 1) i (m t i) = some c) (there : 0 < tables R m n c f) :
    0 < tables R m (n + 1) t f :=
  lt_of_lt_of_le there (le_trans (Nat.le_add_left _ _) (tables_child down))

theorem tally_congr {n : Nat} {t : α} (kept : ∀ u, 0 < tables R m n t u → m' u = m u) :
    tally R own leaf m' n t = tally R own leaf m n t := by
  induction n generalizing t with
  | zero => rw [tally_eq, tally_eq, kept t (tables_self 0 t)]; rfl
  | succ n ih =>
      rw [tally_eq, tally_eq, kept t (tables_self (n + 1) t)]
      congr 1
      refine Finset.sum_congr rfl fun i _ => ?_
      cases down : R.child (n + 1) i (m t i) with
      | none => simp [part, down]
      | some c =>
          rw [part_child down, part_child down]
          exact ih fun u there => kept u (occurs_child down there)

theorem part_congr {n : Nat} {i : ι} {e : ω}
    (kept : ∀ k c, n = k + 1 → R.child n i e = some c →
      ∀ u, 0 < tables R m k c u → m' u = m u) :
    part R own leaf m' n i e = part R own leaf m n i e := by
  cases n with
  | zero => rfl
  | succ n =>
      cases down : R.child (n + 1) i e with
      | none => simp [part, down]
      | some c =>
          rw [part_child down, part_child down]
          exact tally_congr (kept n c rfl down)

theorem tally_elsewhere [DecidableEq ι] {n : Nat} {t u : α} {i : ι} {e : ω}
    (absent : tables R m n t u = 0) :
    tally R own leaf (put m u i e) n t = tally R own leaf m n t := by
  refine tally_congr fun v there => put_table fun same => ?_
  rw [same, absent] at there
  exact Nat.lt_irrefl 0 there

theorem once_here {n : Nat} {t c : α} {i : ι} (once : tables R m (n + 1) t t = 1)
    (down : R.child (n + 1) i (m t i) = some c) : tables R m n c t = 0 := by
  have bound := tables_child (f := t) down
  simp only [if_true] at bound
  omega

/-- A table that a tree holds once and that lies under one entry of its top table
is not the top table and lies under no other entry. -/
theorem once_down {n : Nat} {t c u : α} {i : ι} (once : tables R m (n + 1) t u = 1)
    (down : R.child (n + 1) i (m t i) = some c) (there : 0 < tables R m n c u) :
    t ≠ u ∧ tables R m n c u = 1 ∧
      ∀ j d, j ≠ i → R.child (n + 1) j (m t j) = some d → tables R m n d u = 0 := by
  classical
  rw [tables, tally_eq] at once
  have at_index : part R (fun v => if v = u then 1 else 0) (fun _ => 0) m (n + 1) i (m t i) =
      tally R (fun v => if v = u then 1 else 0) (fun _ => 0) m n c := part_child down
  have split := Finset.add_sum_erase Finset.univ
    (fun j => part R (fun v => if v = u then 1 else 0) (fun _ => 0) m (n + 1) j (m t j))
    (Finset.mem_univ i)
  change 0 < tally R (fun v => if v = u then 1 else 0) (fun _ => 0) m n c at there
  simp only [at_index] at split
  have apart : t ≠ u := by
    intro same
    simp only [same, if_true] at once split
    omega
  simp only [apart, if_false] at once
  refine ⟨apart, ?_, fun j d other below => ?_⟩
  · change tally R (fun v => if v = u then 1 else 0) (fun _ => 0) m n c = 1
    omega
  · have one := Finset.single_le_sum
      (f := fun j => part R (fun v => if v = u then 1 else 0) (fun _ => 0) m (n + 1) j (m t j))
      (fun j _ => Nat.zero_le _) (Finset.mem_erase.mpr ⟨other, Finset.mem_univ j⟩)
    simp only [part_child below] at one
    change tally R (fun v => if v = u then 1 else 0) (fun _ => 0) m n d = 0
    omega

end Occurrence

/-- `Route R m q n t k u`: from table `t` at level `n`, the indexes `q` lead to
table `u` at level `k`. -/
inductive Route (R : Reading α ι ω) (m : α → ι → ω) (q : Nat → ι) :
    Nat → α → Nat → α → Prop where
  | here (n : Nat) (t : α) : Route R m q n t n t
  | down {n k : Nat} {t c u : α} (step : R.child (n + 1) (q (n + 1)) (m t (q (n + 1))) = some c)
      (rest : Route R m q n c k u) : Route R m q (n + 1) t k u

section Routes

variable {R : Reading α ι ω} {m m' : α → ι → ω} {q : Nat → ι} {n k : Nat} {t u : α}

theorem Route.le (route : Route R m q n t k u) : k ≤ n := by
  induction route with
  | here => exact Nat.le_refl _
  | down _ _ ih => exact Nat.le_succ_of_le ih

theorem Route.next {c : α} (route : Route R m q n t (k + 1) u)
    (step : R.child (k + 1) (q (k + 1)) (m u (q (k + 1))) = some c) : Route R m q n t k c := by
  generalize level : k + 1 = l at route step
  induction route with
  | here =>
      subst level
      exact .down step (.here _ _)
  | down first _ ih => exact .down first (ih level step)

theorem Route.indexes {p : Nat → ι} (route : Route R m q n t k u)
    (same : ∀ j, k < j → j ≤ n → p j = q j) : Route R m p n t k u := by
  induction route with
  | here => exact .here _ _
  | @down n k t c u first rest ih =>
      refine .down ?_ (ih fun j low high => same j low (Nat.le_succ_of_le high))
      rw [same (n + 1) (Nat.lt_succ_of_le rest.le) (Nat.le_refl _)]
      exact first

theorem Route.upper (route : Route R m q n t k u) {l : Nat} (low : k ≤ l) (high : l ≤ n) :
    ∃ v, Route R m q n t l v := by
  induction route with
  | here n t =>
      obtain rfl := Nat.le_antisymm high low
      exact ⟨t, .here _ t⟩
  | @down n k t c u step rest ih =>
      rcases Nat.lt_or_eq_of_le high with below | rfl
      · obtain ⟨v, inner⟩ := ih low (Nat.le_of_lt_succ below)
        exact ⟨v, .down step inner⟩
      · exact ⟨t, .here _ t⟩

theorem Route.unique {u' : α} (route : Route R m q n t k u) (route' : Route R m q n t k u') :
    u = u' := by
  induction route with
  | here n t =>
      cases route' with
      | here => rfl
      | down _ rest => exact absurd rest.le (Nat.not_succ_le_self _)
  | down first rest ih =>
      cases route' with
      | here => exact absurd rest.le (Nat.not_succ_le_self _)
      | down first' rest' =>
          rw [first, Option.some.injEq] at first'
          subst first'
          exact ih rest'

variable [Fintype ι] [DecidableEq α]

theorem Route.occurs (route : Route R m q n t k u) : 0 < tables R m n t u := by
  induction route with
  | here => exact tables_self _ _
  | down step _ ih => exact occurs_child step ih

theorem Route.congr (route : Route R m q n t k u)
    (kept : ∀ v, 0 < tables R m n t v → m' v = m v) : Route R m' q n t k u := by
  induction route with
  | here => exact .here _ _
  | @down n k t c u step rest ih =>
      refine .down ?_ (ih fun v there => kept v (occurs_child step there))
      rw [kept t (tables_self _ _)]
      exact step

omit [DecidableEq α] in
theorem Route.leaf_le {own : α → Nat} {leaf : ω → Nat} (route : Route R m q n t 0 u) :
    leaf (m u (q 0)) ≤ tally R own leaf m n t := by
  generalize level : 0 = l at route
  induction route with
  | here n t =>
      subst level
      rw [tally_eq]
      have one := Finset.single_le_sum (f := fun i => part R own leaf m 0 i (m t i))
        (fun i _ => Nat.zero_le _) (Finset.mem_univ (q 0))
      exact le_trans one (Nat.le_add_left _ _)
  | @down n k t c u step rest ih =>
      have one := Finset.single_le_sum (f := fun i => part R own leaf m (n + 1) i (m t i))
        (fun i _ => Nat.zero_le _) (Finset.mem_univ (q (n + 1)))
      rw [part_child step] at one
      rw [tally_eq (n := n + 1)]
      exact le_trans (ih level) (le_trans one (Nat.le_add_left _ _))

variable [DecidableEq ι]

/-- One write into a table that a tree holds once changes the tree's weight by
what the entry contributed before and contributes now. -/
theorem tally_put (own : α → Nat) (leaf : ω → Nat) (route : Route R m q n t k u)
    (once : tables R m n t u = 1) (e : ω) :
    tally R own leaf (put m u (q k) e) n t + part R own leaf m k (q k) (m u (q k)) =
      tally R own leaf m n t + part R own leaf (put m u (q k) e) k (q k) e := by
  induction route with
  | here n t =>
      rw [tally_eq, tally_eq]
      have differ := sum_differ
        (f := fun i => part R own leaf (put m t (q n) e) n i (put m t (q n) e t i))
        (g := fun i => part R own leaf m n i (m t i)) (q n) fun i other => by
          rw [put_index other]
          refine part_congr fun k c level down v there => put_table fun same => ?_
          subst level
          rw [same, once_here once down] at there
          exact Nat.lt_irrefl 0 there
      simp only [put_self] at differ
      omega
  | @down n k t c u step rest ih =>
      obtain ⟨apart, inside, others⟩ := once_down once step rest.occurs
      rw [tally_eq (n := n + 1), tally_eq (n := n + 1), put_table apart]
      have differ := sum_differ
        (f := fun i => part R own leaf (put m u (q k) e) (n + 1) i (m t i))
        (g := fun i => part R own leaf m (n + 1) i (m t i)) (q (n + 1)) fun i other => by
          refine part_congr fun k d level down v there => put_table fun same => ?_
          cases level
          rw [same, others i d other down] at there
          exact Nat.lt_irrefl 0 there
      simp only [part_child step] at differ
      have change := ih inside
      omega

theorem Route.put_other (route : Route R m q n t k u) (once : tables R m n t u = 1) (i : ι) (e : ω)
    {p : Nat → ι} {l : Nat} {v : α} (other : Route R m p n t l v) (high : k ≤ l) :
    Route R (RadixTables.put m u i e) p n t l v := by
  induction route with
  | here n t =>
      cases other with
      | here => exact .here _ _
      | down _ rest => exact absurd (Nat.le_trans high rest.le) (Nat.not_succ_le_self _)
  | @down n k t c u first rest ih =>
      obtain ⟨apart, inside, others⟩ := once_down once first rest.occurs
      cases other with
      | here => exact .here _ _
      | @down _ _ _ d _ first' rest' =>
          have step : R.child (n + 1) (p (n + 1)) (RadixTables.put m u i e t (p (n + 1))) = some d := by
            rw [put_table apart]
            exact first'
          refine .down step ?_
          by_cases turn : p (n + 1) = q (n + 1)
          · rw [turn, first, Option.some.injEq] at first'
            subst first'
            exact ih inside rest' high
          · refine rest'.congr fun w there => put_table fun same => ?_
            rw [same, others _ d turn first'] at there
            exact Nat.lt_irrefl 0 there

end Routes

section Paths

variable (R : Reading α ι ω) (step : ω → β → β) (last : ω → β) (stop : ω → β)

/-- What is read along the indexes `q`: `last` of the entry the walk ends at,
`stop` of one it cannot pass, and `step` for each entry passed on the way. -/
def along (m : α → ι → ω) : Nat → α → (Nat → ι) → β
  | 0, t, q => last (m t (q 0))
  | n + 1, t, q =>
      (R.child (n + 1) (q (n + 1)) (m t (q (n + 1)))).elim (stop (m t (q (n + 1)))) fun c =>
        step (m t (q (n + 1))) (along m n c q)

/-- What is read from one entry of a table at a level on. -/
def beyond (m : α → ι → ω) (q : Nat → ι) : Nat → ω → β
  | 0, e => last e
  | n + 1, e => (R.child (n + 1) (q (n + 1)) e).elim (stop e) fun c =>
      step e (along R step last stop m n c q)

variable {R step last stop} {m m' : α → ι → ω} {q p : Nat → ι} {n k : Nat} {t u : α}

theorem along_eq : along R step last stop m n t q =
    beyond R step last stop m q n (m t (q n)) := by
  cases n <;> rfl

theorem beyond_child {c : α} {e : ω} (down : R.child (n + 1) (q (n + 1)) e = some c) :
    beyond R step last stop m q (n + 1) e = step e (along R step last stop m n c q) := by
  simp [beyond, down]

theorem beyond_stop {e : ω} (ends : R.child (n + 1) (q (n + 1)) e = none) :
    beyond R step last stop m q (n + 1) e = stop e := by
  simp [beyond, ends]

theorem along_route (route : Route R m q n t k u) :
    ∃ upper : List ω, along R step last stop m n t q =
      upper.foldr step (along R step last stop m k u q) := by
  induction route with
  | here => exact ⟨[], rfl⟩
  | @down n k t c u first _ ih =>
      obtain ⟨upper, reads⟩ := ih
      refine ⟨m t (q (n + 1)) :: upper, ?_⟩
      rw [along_eq, beyond_child first, reads, List.foldr_cons]

variable [Fintype ι] [DecidableEq α]

theorem along_congr (kept : ∀ u, 0 < tables R m n t u → m' u = m u) :
    along R step last stop m' n t q = along R step last stop m n t q := by
  induction n generalizing t with
  | zero => rw [along_eq, along_eq, kept t (tables_self 0 t)]; rfl
  | succ n ih =>
      rw [along_eq, along_eq, kept t (tables_self (n + 1) t)]
      cases down : R.child (n + 1) (q (n + 1)) (m t (q (n + 1))) with
      | none => rw [beyond_stop down, beyond_stop down]
      | some c =>
          rw [beyond_child down, beyond_child down, ih fun u there => kept u (occurs_child down there)]

theorem beyond_congr {e : ω}
    (kept : ∀ k c, n = k + 1 → R.child n (q n) e = some c →
      ∀ u, 0 < tables R m k c u → m' u = m u) :
    beyond R step last stop m' q n e = beyond R step last stop m q n e := by
  cases n with
  | zero => rfl
  | succ n =>
      cases down : R.child (n + 1) (q (n + 1)) e with
      | none => rw [beyond_stop down, beyond_stop down]
      | some c => rw [beyond_child down, beyond_child down, along_congr (kept n c rfl down)]

variable [DecidableEq ι]

theorem along_put_off (route : Route R m q n t k u) (once : tables R m n t u = 1) (e : ω)
    (leaves : ∃ j, k ≤ j ∧ j ≤ n ∧ p j ≠ q j) :
    along R step last stop (put m u (q k) e) n t p = along R step last stop m n t p := by
  induction route with
  | here n t =>
      obtain ⟨j, low, high, other⟩ := leaves
      have level := Nat.le_antisymm high low
      subst level
      rw [along_eq, along_eq, put_index other]
      refine beyond_congr fun k c level down v there => put_table fun same => ?_
      subst level
      rw [same, once_here once down] at there
      exact Nat.lt_irrefl 0 there
  | @down n k t c u first rest ih =>
      obtain ⟨apart, inside, others⟩ := once_down once first rest.occurs
      rw [along_eq, along_eq, put_table apart]
      by_cases same : p (n + 1) = q (n + 1)
      · obtain ⟨j, low, high, other⟩ := leaves
        have below : j ≤ n := by
          rcases Nat.lt_or_ge n j with above | below
          · have level : j = n + 1 := Nat.le_antisymm high above
            exact absurd (level ▸ same) other
          · exact below
        have down : R.child (n + 1) (p (n + 1)) (m t (p (n + 1))) = some c := by
          rw [same]
          exact first
        rw [beyond_child down, beyond_child down, ih inside ⟨j, low, below, other⟩]
      · refine beyond_congr fun k d level down v there => put_table fun here => ?_
        cases level
        rw [here, others _ d same down] at there
        exact Nat.lt_irrefl 0 there

/-- Along indexes that follow a route to its end, a write there replaces what is
read from that entry on and leaves the entries above as they are. -/
theorem along_put_on (route : Route R m q n t k u) (once : tables R m n t u = 1) (e : ω)
    (follows : ∀ j, k ≤ j → j ≤ n → p j = q j) :
    ∃ upper : List ω,
      along R step last stop m n t p =
        upper.foldr step (beyond R step last stop m p k (m u (q k))) ∧
      along R step last stop (put m u (q k) e) n t p =
        upper.foldr step (beyond R step last stop (put m u (q k) e) p k e) := by
  induction route with
  | here n t =>
      refine ⟨[], ?_, ?_⟩ <;> rw [along_eq, follows n (Nat.le_refl n) (Nat.le_refl n)]
      · rfl
      · rw [put_self]
        rfl
  | @down n k t c u first rest ih =>
      obtain ⟨apart, inside, _⟩ := once_down once first rest.occurs
      obtain ⟨upper, before, after⟩ :=
        ih inside fun j low high => follows j low (Nat.le_succ_of_le high)
      have turn := follows (n + 1) (Nat.le_succ_of_le rest.le) (Nat.le_refl _)
      have down : R.child (n + 1) (p (n + 1)) (m t (p (n + 1))) = some c := by
        rw [turn]
        exact first
      refine ⟨m t (p (n + 1)) :: upper, ?_, ?_⟩
      · rw [along_eq, beyond_child down, before, List.foldr_cons]
      · rw [along_eq, put_table apart, beyond_child down, after, List.foldr_cons]

end Paths

section Entries

variable (R : Reading α ι ω)

/-- The entry the indexes `q` end at: blank where the tree has no table for it. -/
def entryAt (m : α → ι → ω) (n : Nat) (t : α) (q : Nat → ι) : ω :=
  along R (fun _ e => e) id (fun _ => R.blank) m n t q

variable {R} {m : α → ι → ω} {q p : Nat → ι} {n k : Nat} {t u : α}

private theorem foldr_pass (upper : List ω) (e : ω) : upper.foldr (fun _ e => e) e = e := by
  induction upper with
  | nil => rfl
  | cons _ _ ih => exact ih

theorem entryAt_route (route : Route R m q n t 0 u) : entryAt R m n t q = m u (q 0) := by
  have reading : ∃ upper : List ω, entryAt R m n t q =
      upper.foldr (fun _ e => e) (entryAt R m 0 u q) := along_route route
  obtain ⟨upper, reads⟩ := reading
  rw [reads, foldr_pass]
  rfl

theorem route_of_entryAt (m : α → ι → ω) (n : Nat) (t : α) (q : Nat → ι) :
    (∃ u, Route R m q n t 0 u ∧ entryAt R m n t q = m u (q 0)) ∨
      entryAt R m n t q = R.blank := by
  induction n generalizing t with
  | zero => exact .inl ⟨t, .here 0 t, rfl⟩
  | succ n ih =>
      cases down : R.child (n + 1) (q (n + 1)) (m t (q (n + 1))) with
      | none =>
          right
          rw [entryAt, along_eq, beyond_stop down]
      | some c =>
          have same : entryAt R m (n + 1) t q = entryAt R m n c q := by
            rw [entryAt, along_eq, beyond_child down]
            rfl
          rcases ih c with ⟨u, rest, reads⟩ | blank
          · exact .inl ⟨u, .down down rest, same.trans reads⟩
          · exact .inr (same.trans blank)

theorem entryAt_indexes (same : ∀ j, j ≤ n → p j = q j) :
    entryAt R m n t p = entryAt R m n t q := by
  induction n generalizing t with
  | zero =>
      have last : p 0 = q 0 := same 0 (Nat.le_refl 0)
      simp only [entryAt, along, last]
  | succ n ih =>
      have turn : p (n + 1) = q (n + 1) := same (n + 1) (Nat.le_refl _)
      cases down : R.child (n + 1) (q (n + 1)) (m t (q (n + 1))) with
      | none => simp only [entryAt, along, turn, down, Option.elim_none]
      | some c =>
          simp only [entryAt, along, turn, down, Option.elim_some]
          exact ih fun j low => same j (Nat.le_succ_of_le low)

theorem entryAt_child {c : α} (down : R.child (n + 1) (q (n + 1)) (m t (q (n + 1))) = some c) :
    entryAt R m (n + 1) t q = entryAt R m n c q := by
  simp only [entryAt, along, down, Option.elim_some]

theorem entryAt_stop (ends : R.child (n + 1) (q (n + 1)) (m t (q (n + 1))) = none) :
    entryAt R m (n + 1) t q = R.blank := by
  simp only [entryAt, along, ends, Option.elim_none]

section Weights

variable [Fintype ι] {leaf : ω → Nat} {m' : α → ι → ω}

theorem tally_weightless (light : ∀ q, leaf (entryAt R m n t q) = 0) :
    tally R (fun _ => 0) leaf m n t = 0 := by
  classical
  induction n generalizing t with
  | zero =>
      rw [tally_eq, Nat.zero_add]
      exact Finset.sum_eq_zero fun i _ => light fun _ => i
  | succ n ih =>
      rw [tally_eq, Nat.zero_add]
      refine Finset.sum_eq_zero fun i _ => ?_
      cases down : R.child (n + 1) i (m t i) with
      | none => simp [part, down]
      | some c =>
          rw [part_child down]
          refine ih fun q => ?_
          have turn : Function.update q (n + 1) i (n + 1) = i := Function.update_self ..
          have here := light (Function.update q (n + 1) i)
          rw [entryAt_child (turn.symm ▸ down), entryAt_indexes (q := q) fun j low =>
            Function.update_of_ne (by omega) ..] at here
          exact here

theorem tally_entries {t' : α} (light : leaf R.blank = 0)
    (same : ∀ q, leaf (entryAt R m' n t' q) = leaf (entryAt R m n t q)) :
    tally R (fun _ => 0) leaf m' n t' = tally R (fun _ => 0) leaf m n t := by
  classical
  induction n generalizing t t' with
  | zero =>
      rw [tally_eq, tally_eq]
      exact congrArg _ (Finset.sum_congr rfl fun i _ => same fun _ => i)
  | succ n ih =>
      rw [tally_eq, tally_eq]
      refine congrArg _ (Finset.sum_congr rfl fun i _ => ?_)
      have below : ∀ q, entryAt R m' (n + 1) t' (Function.update q (n + 1) i) =
            (R.child (n + 1) i (m' t' i)).elim R.blank (fun c => entryAt R m' n c q) ∧
          entryAt R m (n + 1) t (Function.update q (n + 1) i) =
            (R.child (n + 1) i (m t i)).elim R.blank (fun c => entryAt R m n c q) := by
        intro q
        have inner : ∀ (m : α → ι → ω) (c : α),
            along R (fun _ e => e) id (fun _ => R.blank) m n c (Function.update q (n + 1) i) =
              entryAt R m n c q := fun m c =>
          entryAt_indexes (m := m) (t := c) (q := q) fun j low =>
            Function.update_of_ne (by omega) ..
        simp only [entryAt, along, Function.update_self, inner]
        exact ⟨trivial, trivial⟩
      have here : ∀ q, leaf ((R.child (n + 1) i (m' t' i)).elim R.blank fun c => entryAt R m' n c q) =
          leaf ((R.child (n + 1) i (m t i)).elim R.blank fun c => entryAt R m n c q) := by
        intro q
        rw [← (below q).1, ← (below q).2]
        exact same _
      cases down : R.child (n + 1) i (m t i) with
      | none =>
          cases down' : R.child (n + 1) i (m' t' i) with
          | none => simp [part, down, down']
          | some c' =>
              rw [down, down'] at here
              rw [part_child down', tally_weightless fun q => (here q).trans light]
              simp [part, down]
      | some c =>
          cases down' : R.child (n + 1) i (m' t' i) with
          | none =>
              rw [down, down'] at here
              rw [part_child down, tally_weightless fun q => (here q).symm.trans light]
              simp [part, down']
          | some c' =>
              rw [down, down'] at here
              rw [part_child down, part_child down']
              exact ih here

end Weights

variable [Fintype ι] [DecidableEq α] [DecidableEq ι]

theorem entryAt_put (route : Route R m q n t k u) (once : tables R m n t u = 1) (e : ω)
    (follows : ∀ j, k ≤ j → j ≤ n → p j = q j) :
    entryAt R m n t p =
        beyond R (fun _ e => e) id (fun _ => R.blank) m p k (m u (q k)) ∧
      entryAt R (put m u (q k) e) n t p =
        beyond R (fun _ e => e) id (fun _ => R.blank) (put m u (q k) e) p k e := by
  have reading : ∃ upper : List ω,
      entryAt R m n t p = upper.foldr (fun _ e => e)
        (beyond R (fun _ e => e) id (fun _ => R.blank) m p k (m u (q k))) ∧
      entryAt R (put m u (q k) e) n t p = upper.foldr (fun _ e => e)
        (beyond R (fun _ e => e) id (fun _ => R.blank) (put m u (q k) e) p k e) :=
    along_put_on route once e follows
  obtain ⟨upper, before, after⟩ := reading
  rw [foldr_pass] at before after
  exact ⟨before, after⟩

end Entries

section Forests

variable (R : Reading α ι ω) [Fintype ι] (own : α → Nat) (leaf : ω → Nat)

/-- What the trees of a set of roots weigh together. -/
def forest (m : α → ι → ω) (n : Nat) (roots : Finset α) : Nat :=
  ∑ r ∈ roots, tally R own leaf m n r

variable {R own leaf} [DecidableEq α] {m m' : α → ι → ω} {roots : Finset α} {q p : Nat → ι}
  {n k : Nat} {t u : α}

/-- How often a table occurs in the trees of a set of roots. -/
def occurs (R : Reading α ι ω) (m : α → ι → ω) (n : Nat) (roots : Finset α) (f : α) : Nat :=
  forest R (fun v => if v = f then 1 else 0) (fun _ => 0) m n roots

theorem tables_le_occurs (root : t ∈ roots) (f : α) : tables R m n t f ≤ occurs R m n roots f :=
  Finset.single_le_sum (f := fun r => tables R m n r f) (fun _ _ => Nat.zero_le _) root

theorem absent_elsewhere (root : t ∈ roots) (there : 0 < tables R m n t u)
    (once : occurs R m n roots u = 1) :
    tables R m n t u = 1 ∧ ∀ r ∈ roots, r ≠ t → tables R m n r u = 0 := by
  have split := Finset.add_sum_erase roots (fun r => tables R m n r u) root
  have total : ∑ r ∈ roots, tables R m n r u = 1 := once
  refine ⟨by omega, fun r member other => ?_⟩
  have one := Finset.single_le_sum (f := fun r => tables R m n r u) (fun _ _ => Nat.zero_le _)
    (Finset.mem_erase.mpr ⟨other, member⟩)
  omega

theorem forest_congr (kept : ∀ v, 0 < occurs R m n roots v → m' v = m v) :
    forest R own leaf m' n roots = forest R own leaf m n roots := by
  refine Finset.sum_congr rfl fun r member => tally_congr fun v there => kept v ?_
  exact lt_of_lt_of_le there (tables_le_occurs member v)

variable [DecidableEq ι]

/-- One write into a table that occurs once changes the weight of all the trees by
what the entry contributed before and contributes now. -/
theorem forest_put (own : α → Nat) (leaf : ω → Nat) (root : t ∈ roots) (route : Route R m q n t k u)
    (once : occurs R m n roots u = 1) (e : ω) :
    forest R own leaf (put m u (q k) e) n roots + part R own leaf m k (q k) (m u (q k)) =
      forest R own leaf m n roots + part R own leaf (put m u (q k) e) k (q k) e := by
  obtain ⟨alone, others⟩ := absent_elsewhere root route.occurs once
  have change := tally_put own leaf route alone e
  have before := Finset.add_sum_erase roots (fun r => tally R own leaf m n r) root
  have after := Finset.add_sum_erase roots (fun r => tally R own leaf (put m u (q k) e) n r) root
  have rest : ∑ r ∈ roots.erase t, tally R own leaf (put m u (q k) e) n r =
      ∑ r ∈ roots.erase t, tally R own leaf m n r :=
    Finset.sum_congr rfl fun r member => tally_elsewhere
      (others r (Finset.mem_of_mem_erase member) (Finset.ne_of_mem_erase member))
  unfold forest
  omega

/-- The entry that `p` ends at in the tree of `r`, after the entry that `q` ends at
in the tree of `t` has been replaced. -/
theorem entryAt_leaf_put (root : t ∈ roots) (route : Route R m q n t 0 u)
    (once : occurs R m n roots u = 1) (e : ω) {r : α} (member : r ∈ roots)
    [Decidable (r = t ∧ ∀ j, j ≤ n → p j = q j)] :
    entryAt R (put m u (q 0) e) n r p =
      if r = t ∧ ∀ j, j ≤ n → p j = q j then e else entryAt R m n r p := by
  obtain ⟨alone, others⟩ := absent_elsewhere root route.occurs once
  by_cases same : r = t
  · subst same
    by_cases follows : ∀ j, j ≤ n → p j = q j
    · rw [if_pos ⟨rfl, follows⟩, (entryAt_put route alone e fun j _ => follows j).2]
      rfl
    · rw [if_neg fun both => follows both.2]
      have leaves : ∃ j, 0 ≤ j ∧ j ≤ n ∧ p j ≠ q j := by
        by_contra none
        refine follows fun j high => ?_
        by_contra other
        exact none ⟨j, Nat.zero_le j, high, other⟩
      exact along_put_off route alone e leaves
  · rw [if_neg fun both => same both.1]
    refine along_congr fun v there => put_table fun here => ?_
    rw [here, others r member same] at there
    exact Nat.lt_irrefl 0 there

omit [DecidableEq α] [DecidableEq ι] in
theorem forest_entries (light : leaf R.blank = 0)
    (same : ∀ r ∈ roots, ∀ q, leaf (entryAt R m' n r q) = leaf (entryAt R m n r q)) :
    forest R (fun _ => 0) leaf m' n roots = forest R (fun _ => 0) leaf m n roots :=
  Finset.sum_congr rfl fun r member => tally_entries light (same r member)

omit [DecidableEq α] [DecidableEq ι] in
theorem le_forest {r : α} (member : r ∈ roots) (light : leaf R.blank = 0) (q : Nat → ι) :
    leaf (entryAt R m n r q) ≤ forest R (fun _ => 0) leaf m n roots := by
  have one := Finset.single_le_sum (f := fun r => tally R (fun _ => 0) leaf m n r)
    (fun _ _ => Nat.zero_le _) member
  rcases route_of_entryAt (R := R) m n r q with ⟨u, route, reads⟩ | blank
  · rw [reads]
    exact le_trans route.leaf_le one
  · rw [blank, light]
    exact Nat.zero_le _

omit [DecidableEq α] [DecidableEq ι] in
theorem exists_of_forest (weighs : 0 < forest R (fun _ => 0) leaf m n roots) :
    ∃ r ∈ roots, ∃ q, 0 < leaf (entryAt R m n r q) := by
  by_contra none
  refine absurd weighs (Nat.not_lt.mpr (Nat.le_of_eq (Finset.sum_eq_zero fun r member => ?_)))
  refine tally_weightless fun q => ?_
  by_contra heavy
  exact none ⟨r, member, q, Nat.pos_of_ne_zero heavy⟩

theorem entry_unique (root : t ∈ roots) (light : leaf R.blank = 0)
    (once : ∀ u k, Route R m q n t k u → occurs R m n roots u = 1)
    (all : forest R (fun _ => 0) leaf m n roots ≤ leaf (entryAt R m n t q)) {r : α}
    (member : r ∈ roots) (there : 0 < leaf (entryAt R m n r p))
    (here : 0 < leaf (entryAt R m n t q)) : r = t ∧ ∀ j, j ≤ n → p j = q j := by
  classical
  by_contra other
  rcases route_of_entryAt (R := R) m n t q with ⟨u, route, reads⟩ | blank
  · have change := forest_put (fun _ => 0) leaf root route (once u 0 route) R.blank
    have kept := entryAt_leaf_put root route (once u 0 route) R.blank member (p := p)
    rw [if_neg other] at kept
    have bound := le_forest (m := put m u (q 0) R.blank) member light (n := n) p
    rw [kept] at bound
    rw [part_blank light] at change
    change _ + leaf (m u (q 0)) = _ at change
    rw [← reads] at change
    omega
  · rw [blank, light] at here
    exact Nat.lt_irrefl 0 here

variable {step : ω → β → β} {last : ω → β} {stop : ω → β}

theorem along_put_same (root : t ∈ roots) (route : Route R m q n t k u)
    (once : occurs R m n roots u = 1) {e : ω}
    (same : ∀ p, (∀ j, k ≤ j → j ≤ n → p j = q j) →
      beyond R step last stop (put m u (q k) e) p k e =
        beyond R step last stop m p k (m u (q k)))
    {r : α} (member : r ∈ roots) (p : Nat → ι) :
    along R step last stop (put m u (q k) e) n r p = along R step last stop m n r p := by
  obtain ⟨alone, others⟩ := absent_elsewhere root route.occurs once
  by_cases here : r = t
  · subst here
    by_cases follows : ∀ j, k ≤ j → j ≤ n → p j = q j
    · have reading : ∃ upper : List ω,
          along R step last stop m n r p =
            upper.foldr step (beyond R step last stop m p k (m u (q k))) ∧
          along R step last stop (put m u (q k) e) n r p =
            upper.foldr step (beyond R step last stop (put m u (q k) e) p k e) :=
        along_put_on route alone e follows
      obtain ⟨upper, before, after⟩ := reading
      rw [before, after, same p follows]
    · have leaves : ∃ j, k ≤ j ∧ j ≤ n ∧ p j ≠ q j := by
        by_contra none
        refine follows fun j low high => ?_
        by_contra other
        exact none ⟨j, low, high, other⟩
      exact along_put_off route alone e leaves
  · refine along_congr fun v there => put_table fun same => ?_
    rw [same, others r member here] at there
    exact Nat.lt_irrefl 0 there

omit [Fintype ι] [DecidableEq α] [DecidableEq ι] in
theorem along_empty (ends : last R.blank = stop R.blank) {c : α} (empty : ∀ i, m c i = R.blank)
    (n : Nat) (p : Nat → ι) : along R step last stop m n c p = stop R.blank := by
  rw [along_eq, empty]
  cases n with
  | zero => exact ends
  | succ n => exact beyond_stop (R.child_blank _ _)

omit [DecidableEq ι] in
theorem child_absent (root : t ∈ roots) (route : Route R m q n t (k + 1) u)
    (once : occurs R m n roots u = 1) {i : ι} {c : α} (down : R.child (k + 1) i (m u i) = some c) :
    tables R m k c u = 0 := by
  obtain ⟨alone, -⟩ := absent_elsewhere root route.occurs once
  generalize level : k + 1 = l at route
  clear once root
  induction route with
  | here n t =>
      subst level
      exact once_here alone down
  | down first rest ih =>
      obtain ⟨-, inside, -⟩ := once_down alone first rest.occurs
      exact ih down inside level

end Forests

section Beside

variable (R : Reading α ι ω) [Fintype ι] [DecidableEq α]

/-- How often a table occurs under one entry of a table of a level. -/
def under (m : α → ι → ω) (n : Nat) (i : ι) (e : ω) (f : α) : Nat :=
  part R (fun u => if u = f then 1 else 0) (fun _ => 0) m n i e

variable {R} {m m' : α → ι → ω} {n : Nat} {t f u : α} {i j : ι} {q : Nat → ι}

theorem tables_eq : tables R m n t f =
    (if t = f then 1 else 0) + ∑ i, under R m n i (m t i) f := tally_eq m n t

theorem under_child {c : α} {e : ω} (down : R.child (n + 1) i e = some c) :
    under R m (n + 1) i e f = tables R m n c f := part_child down

theorem under_stop {e : ω} (ends : R.child (n + 1) i e = none) :
    under R m (n + 1) i e f = 0 := part_stop ends

theorem under_le : (if t = f then 1 else 0) + under R m n i (m t i) f ≤ tables R m n t f := by
  rw [tables_eq]
  have one := Finset.single_le_sum (f := fun j => under R m n j (m t j) f)
    (fun j _ => Nat.zero_le _) (Finset.mem_univ i)
  exact Nat.add_le_add_left one _

theorem tables_last : tables R m 0 t f = if t = f then 1 else 0 := by
  have nothing : ∀ i, under R m 0 i (m t i) f = 0 := fun i => rfl
  simp [tables_eq, nothing]

theorem tables_childless (ends : ∀ i, R.child n i (m t i) = none) :
    tables R m n t f = if t = f then 1 else 0 := by
  cases n with
  | zero => exact tables_last
  | succ n =>
      have nothing : ∀ i, under R m (n + 1) i (m t i) f = 0 := fun i => under_stop (ends i)
      simp [tables_eq, nothing]

theorem tables_single {c : α} (down : R.child (n + 1) i (m t i) = some c)
    (ends : ∀ j, j ≠ i → R.child (n + 1) j (m t j) = none) :
    tables R m (n + 1) t f = (if t = f then 1 else 0) + tables R m n c f := by
  rw [tables_eq, Finset.sum_eq_single i (fun j _ other => under_stop (ends j other))
    (fun outside => absurd (Finset.mem_univ i) outside), under_child down]

theorem apart_beside {d : α} (once : tables R m (n + 1) t u ≤ 1) (other : j ≠ i)
    (down : R.child (n + 1) j (m t j) = some d) (there : 0 < tables R m n d u) :
    t ≠ u ∧ under R m (n + 1) i (m t i) u = 0 := by
  have alone := Nat.le_antisymm once (occurs_child down there)
  obtain ⟨apart, -, others⟩ := once_down alone down there
  refine ⟨apart, ?_⟩
  cases below : R.child (n + 1) i (m t i) with
  | none => exact under_stop below
  | some c => exact (under_child below).trans (others i c other.symm below)

section Changes

variable (entries : ∀ j, j ≠ i → m' t j = m t j)
  (below : ∀ j d, j ≠ i → R.child (n + 1) j (m t j) = some d →
    ∀ u, 0 < tables R m n d u → m' u = m u)

include entries below

theorem tables_beside : tables R m' (n + 1) t f + under R m (n + 1) i (m t i) f =
    tables R m (n + 1) t f + under R m' (n + 1) i (m' t i) f := by
  rw [tables_eq, tables_eq]
  have differ := sum_differ (f := fun j => under R m' (n + 1) j (m' t j) f)
    (g := fun j => under R m (n + 1) j (m t j) f) i fun j other => by
      rw [entries j other]
      refine part_congr fun k d level down => ?_
      cases level
      exact below j d other down
  omega

theorem entryAt_beside (turn : q (n + 1) ≠ i) :
    entryAt R m' (n + 1) t q = entryAt R m (n + 1) t q := by
  cases down : R.child (n + 1) (q (n + 1)) (m t (q (n + 1))) with
  | none =>
      rw [entryAt_stop down, entryAt_stop (by rw [entries _ turn]; exact down)]
  | some d =>
      rw [entryAt_child down, entryAt_child (by rw [entries _ turn]; exact down)]
      exact along_congr (below _ d turn down)

end Changes

end Beside

end FiveAM.Lib.RadixTables
