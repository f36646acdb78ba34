/- GID: FiveAM/Lib/SecondChance
   layer: library
   digest: Sweeping marked items in a circle: what a sweep names, and which marks it clears. -/

import Mathlib.Data.List.Find
import Mathlib.Data.List.Nodup
import Mathlib.Data.List.TakeWhile
import Mathlib.Tactic.SplitIfs

set_option autoImplicit false
set_option relaxedAutoImplicit false

namespace FiveAM.Lib.SecondChance

variable {σ ι : Type*}

/-- The first item that can be taken and is not marked as used. The mark of each used
item passed before it is cleared. -/
def sweep (able used : σ → ι → Bool) (clear : σ → ι → σ) : List ι → σ → Option ι × σ
  | [], s => (none, s)
  | i :: rest, s =>
      if able s i = false then sweep able used clear rest s
      else if used s i then sweep able used clear rest (clear s i)
      else (some i, s)

/-- Clearing a mark clears it, sets no other, and changes nothing about who can be
taken. -/
structure Marks (able used : σ → ι → Bool) (clear : σ → ι → σ) : Prop where
  able_clear : ∀ s i j, able (clear s i) j = able s j
  cleared : ∀ s i, used (clear s i) i = false
  kept : ∀ s i j, used s j = false → used (clear s i) j = false

def fresh (able used : σ → ι → Bool) (s : σ) (i : ι) : Bool := able s i && !used s i

variable {able used : σ → ι → Bool} {clear : σ → ι → σ} {is js : List ι} {s : σ} {i : ι}

theorem sweep_skip (spared : able s i = false) :
    sweep able used clear (i :: is) s = sweep able used clear is s := by
  rw [sweep, if_pos spared]

theorem sweep_clear (takes : able s i = true) (marked : used s i = true) :
    sweep able used clear (i :: is) s = sweep able used clear is (clear s i) := by
  rw [sweep, if_neg (by simp [takes]), if_pos marked]

theorem sweep_take (takes : able s i = true) (unmarked : used s i = false) :
    sweep able used clear (i :: is) s = (some i, s) := by
  rw [sweep, if_neg (by simp [takes]), if_neg (by simp [unmarked])]

theorem sweep_invariant {P : σ → Prop} (held : P s)
    (keeps : ∀ s, ∀ i ∈ is, P s → able s i = true → used s i = true → P (clear s i)) :
    P (sweep able used clear is s).2 := by
  induction is generalizing s with
  | nil => exact held
  | cons i rest ih =>
      have later : ∀ s, ∀ j ∈ rest, P s → able s j = true → used s j = true → P (clear s j) :=
        fun s j there => keeps s j (List.mem_cons_of_mem i there)
      rcases takes : able s i with _ | _
      · rw [sweep_skip takes]
        exact ih held later
      · rcases marked : used s i with _ | _
        · rw [sweep_take takes marked]
          exact held
        · rw [sweep_clear takes marked]
          exact ih (keeps s i List.mem_cons_self held takes marked) later

theorem sweep_append (is js : List ι) (s : σ) :
    sweep able used clear (is ++ js) s = match sweep able used clear is s with
      | (some i, s) => (some i, s)
      | (none, s) => sweep able used clear js s := by
  induction is generalizing s with
  | nil => rfl
  | cons i rest ih =>
      rw [List.cons_append]
      rcases takes : able s i with _ | _
      · rw [sweep_skip takes, sweep_skip takes]
        exact ih s
      · rcases marked : used s i with _ | _
        · rw [sweep_take takes marked, sweep_take takes marked]
        · rw [sweep_clear takes marked, sweep_clear takes marked]
          exact ih (clear s i)

section Naming

variable (marks : Marks able used clear)

include marks

theorem Marks.able_foldl (js : List ι) (s : σ) (i : ι) :
    able (js.foldl clear s) i = able s i := by
  induction js generalizing s with
  | nil => rfl
  | cons j rest ih =>
      rw [List.foldl_cons, ih, marks.able_clear]

theorem Marks.able_sweep (is : List ι) (s : σ) (j : ι) :
    able (sweep able used clear is s).2 j = able s j :=
  sweep_invariant (P := fun s' => able s' j = able s j) rfl fun s' i _ same _ _ =>
    (marks.able_clear s' i j).trans same

theorem sweep_named {v : ι} (named : (sweep able used clear is s).1 = some v) :
    v ∈ is ∧ able s v = true := by
  induction is generalizing s with
  | nil => cases named
  | cons i rest ih =>
      rcases takes : able s i with _ | _
      · rw [sweep_skip takes] at named
        obtain ⟨there, able'⟩ := ih named
        exact ⟨List.mem_cons_of_mem i there, able'⟩
      · rcases marked : used s i with _ | _
        · rw [sweep_take takes marked] at named
          obtain rfl := Option.some.inj named
          exact ⟨List.mem_cons_self, takes⟩
        · rw [sweep_clear takes marked] at named
          obtain ⟨there, able'⟩ := ih named
          exact ⟨List.mem_cons_of_mem i there, (marks.able_clear s i v).symm.trans able'⟩

theorem sweep_unmarked (unnamed : (sweep able used clear is s).1 = none)
    (before : used s i = false ∨ i ∈ is ∧ able s i = true) :
    used (sweep able used clear is s).2 i = false := by
  induction is generalizing s with
  | nil => exact before.resolve_right fun both => List.not_mem_nil both.1
  | cons j rest ih =>
      rcases takes : able s j with _ | _
      · rw [sweep_skip takes] at unnamed ⊢
        apply ih unnamed
        refine before.imp_right fun both => ⟨?_, both.2⟩
        refine (List.mem_cons.mp both.1).resolve_left fun same => ?_
        rw [same, takes] at both
        exact absurd both.2 (by simp)
      · rcases marked : used s j with _ | _
        · rw [sweep_take takes marked] at unnamed
          cases unnamed
        · rw [sweep_clear takes marked] at unnamed ⊢
          apply ih unnamed
          rcases before with old | ⟨there, able'⟩
          · exact Or.inl (marks.kept s j i old)
          · rcases List.mem_cons.mp there with rfl | there
            · exact Or.inl (marks.cleared s i)
            · exact Or.inr ⟨there, (marks.able_clear s j i).trans able'⟩

theorem sweep_fresh (there : i ∈ is) (takes : able s i = true) (unmarked : used s i = false) :
    (sweep able used clear is s).1 ≠ none := by
  induction is generalizing s with
  | nil => exact absurd there List.not_mem_nil
  | cons j rest ih =>
      rcases able' : able s j with _ | _
      · rw [sweep_skip able']
        refine ih ((List.mem_cons.mp there).resolve_left fun same => ?_) takes unmarked
        rw [same, able'] at takes
        cases takes
      · rcases marked : used s j with _ | _
        · rw [sweep_take able' marked]
          exact Option.some_ne_none j
        · rw [sweep_clear able' marked]
          refine ih ((List.mem_cons.mp there).resolve_left fun same => ?_)
            ((marks.able_clear s j i).trans takes) (marks.kept s j i unmarked)
          rw [same, marked] at unmarked
          cases unmarked

theorem sweep_twice (first : i ∈ is) (second : i ∈ js) (takes : able s i = true) :
    (sweep able used clear (is ++ js) s).1 ≠ none := by
  rw [sweep_append]
  rcases lap : sweep able used clear is s with ⟨_ | v, s'⟩
  · have state : (sweep able used clear is s).2 = s' := by rw [lap]
    apply sweep_fresh marks second
    · rw [← state, marks.able_sweep]
      exact takes
    · rw [← state]
      exact sweep_unmarked marks (by rw [lap]) (Or.inr ⟨first, takes⟩)
  · exact Option.some_ne_none v

end Naming

section Exactly

private theorem takeWhile_congr {p q : ι → Bool} (same : ∀ i ∈ is, p i = q i) :
    is.takeWhile p = is.takeWhile q := by
  induction is with
  | nil => rfl
  | cons i rest ih =>
      rw [List.takeWhile_cons, List.takeWhile_cons, same i List.mem_cons_self,
        ih fun j there => same j (List.mem_cons_of_mem i there)]


variable {round : List ι} (marks : Marks able used clear) (nodup : round.Nodup)
  (apart : ∀ s, ∀ i ∈ round, ∀ j ∈ round, j ≠ i → used (clear s i) j = used s j)

include marks nodup apart

theorem sweep_round (s : σ) :
    sweep able used clear round s = (round.find? (fresh able used s),
      ((round.takeWhile fun i => !fresh able used s i).filter (able s)).foldl clear s) := by
  induction round generalizing s with
  | nil => rfl
  | cons i rest ih =>
      obtain ⟨outside, nodup⟩ := List.nodup_cons.mp nodup
      have step := ih nodup fun s j here k there => apart s j (List.mem_cons_of_mem i here) k
        (List.mem_cons_of_mem i there)
      rcases takes : able s i with _ | _
      · have stale : fresh able used s i = false := by simp [fresh, takes]
        rw [sweep_skip takes, step, List.find?_cons_of_neg (by simp [stale]),
          List.takeWhile_cons_of_pos (by simp [stale]), List.filter_cons_of_neg (by simp [takes])]
      · rcases marked : used s i with _ | _
        · have stops : fresh able used s i = true := by simp [fresh, takes, marked]
          rw [sweep_take takes marked, List.find?_cons_of_pos stops,
            List.takeWhile_cons_of_neg (by simp [stops])]
          rfl
        · have stale : fresh able used s i = false := by simp [fresh, marked]
          have same : ∀ j ∈ rest, fresh able used (clear s i) j = fresh able used s j := by
            intro j there
            have other : j ≠ i := by
              rintro rfl
              exact outside there
            rw [fresh, fresh, marks.able_clear, apart s i List.mem_cons_self j
              (List.mem_cons_of_mem i there) other]
          have passed : (rest.takeWhile fun j => !fresh able used (clear s i) j) =
              rest.takeWhile fun j => !fresh able used s j :=
            takeWhile_congr fun j there => by rw [same j there]
          have able' : able (clear s i) = able s := funext (marks.able_clear s i)
          rw [sweep_clear takes marked, step, List.find?_congr same, passed, able',
            List.find?_cons_of_neg (by simp [stale]), List.takeWhile_cons_of_pos (by simp [stale]),
            List.filter_cons_of_pos takes, List.foldl_cons]

omit nodup apart in
theorem Marks.foldl_unmarked (js : List ι) (s : σ) (j : ι)
    (before : used s j = false ∨ j ∈ js) : used (js.foldl clear s) j = false := by
  induction js generalizing s with
  | nil => exact before.resolve_right List.not_mem_nil
  | cons i rest ih =>
      rw [List.foldl_cons]
      apply ih
      rcases before with old | there
      · exact Or.inl (marks.kept s i j old)
      · rcases List.mem_cons.mp there with rfl | there
        · exact Or.inl (marks.cleared s j)
        · exact Or.inr there

/-- The items a sweep of two rounds gives a second chance: those it can take before the
first it stops at, or all it can take if they are all marked. -/
def spared (able used : σ → ι → Bool) (round : List ι) (s : σ) : List ι :=
  (if (round.find? (fresh able used s)).isSome
    then round.takeWhile fun i => !fresh able used s i else round).filter (able s)

/-- Two rounds name the first item that can be taken and is not marked, and if there is
none the first that can be taken. -/
theorem sweep_rounds (s : σ) :
    sweep able used clear (round ++ round) s =
      ((round.find? (fresh able used s)).or (round.find? (able s)),
        (spared able used round s).foldl clear s) := by
  rw [sweep_append, sweep_round marks nodup apart]
  unfold spared
  rcases found : round.find? (fresh able used s) with _ | v
  · have stale : ∀ i ∈ round, fresh able used s i = false := by
      intro i there
      simpa using List.find?_eq_none.mp found i there
    have whole : (round.takeWhile fun i => !fresh able used s i) = round := by
      rw [List.takeWhile_eq_self_iff]
      intro i there
      simp [stale i there]
    simp only [whole, Option.none_or, Option.isSome_none, Bool.false_eq_true, if_false]
    generalize state : (round.filter (able s)).foldl clear s = s'
    have able' : able s' = able s := by
      rw [← state]
      exact funext (marks.able_foldl _ s)
    have stops : ∀ i ∈ round, fresh able used s' i = able s i := by
      intro i there
      rw [fresh, able']
      rcases takes : able s i with _ | _
      · rfl
      · rw [← state, marks.foldl_unmarked _ s i (Or.inr (List.mem_filter.mpr ⟨there, takes⟩))]
        rfl
    have none : (round.takeWhile fun i => !fresh able used s' i).filter (able s') = [] := by
      rw [List.filter_eq_nil_iff]
      intro i there takes
      have stale' := List.mem_takeWhile_imp there
      rw [stops i (List.takeWhile_subset _ there), ← able', takes] at stale'
      cases stale'
    rw [sweep_round marks nodup apart, List.find?_congr stops, none]
    rfl
  · rw [Option.isSome_some, if_pos rfl, Option.some_or]

end Exactly

end FiveAM.Lib.SecondChance
