/- GID: FiveAM/Lib/Agreement
   layer: library
   digest: Lists that agree at some places, and loops that keep two states related. -/

import FiveAM.Lib.Checked
import FiveAM.Lib.Loops

set_option autoImplicit false
set_option relaxedAutoImplicit false

namespace FiveAM.Lib.Agreement

open FiveAM.Lib.Checked

variable {α σ : Type*}

/-- Two lists of one length that agree at the places of a set. -/
structure SameOn (p : Nat → Prop) (xs ys : List α) : Prop where
  length : xs.length = ys.length
  same : ∀ i, p i → xs[i]? = ys[i]?

namespace SameOn

variable {p q : Nat → Prop} {xs ys : List α}

theorem refl (p : Nat → Prop) (xs : List α) : SameOn p xs xs := ⟨rfl, fun _ _ => rfl⟩

theorem mono (agree : SameOn p xs ys) (fewer : ∀ i, q i → p i) : SameOn q xs ys :=
  ⟨agree.length, fun i here => agree.same i (fewer i here)⟩

theorem of_length (length : xs.length = ys.length) : SameOn (fun _ => False) xs ys :=
  ⟨length, fun _ none => none.elim⟩

theorem eq (agree : SameOn p xs ys) (all : ∀ i < xs.length, p i) : xs = ys := by
  refine List.ext_getElem? fun i => ?_
  by_cases inside : i < xs.length
  · exact agree.same i (all i inside)
  · rw [List.getElem?_eq_none (Nat.le_of_not_lt inside),
      List.getElem?_eq_none (agree.length ▸ Nat.le_of_not_lt inside)]

theorem set (agree : SameOn p xs ys) (i : Nat) (v : α) :
    SameOn (fun j => p j ∨ j = i) (xs.set i v) (ys.set i v) := by
  refine ⟨by rw [List.length_set, List.length_set, agree.length], fun j here => ?_⟩
  by_cases same : i = j
  · subst same
    rw [List.getElem?_set, List.getElem?_set, if_pos rfl, if_pos rfl, agree.length]
  · rw [List.getElem?_set_ne same, List.getElem?_set_ne same]
    exact agree.same j (here.resolve_right (Ne.symm same))

theorem part (agree : SameOn p xs ys) {start stop : Nat}
    (inside : ∀ i, start ≤ i → i < stop → p i) : part xs start stop = part ys start stop := by
  unfold FiveAM.Lib.Checked.part
  rw [agree.length]
  refine if_congr Iff.rfl (congrArg some ?_) rfl
  refine List.ext_getElem? fun i => ?_
  rw [List.getElem?_drop, List.getElem?_drop, List.getElem?_take, List.getElem?_take]
  split_ifs with below
  · exact agree.same _ (inside _ (Nat.le_add_right _ _) below)
  · rfl

end SameOn

theorem range_related {f g : σ → Nat → Option σ} {R : Nat → σ → σ → Prop} {n : Nat}
    (turns : ∀ i < n, ∀ s t s' t', R i s t → f s i = some s' → g t i = some t' → R (i + 1) s' t')
    {s t s' t' : σ} (start : R 0 s t) (run : (List.range n).foldlM f s = some s')
    (run' : (List.range n).foldlM g t = some t') : R n s' t' := by
  induction n generalizing s' t' with
  | zero =>
      obtain rfl := Option.some.inj run
      obtain rfl := Option.some.inj run'
      exact start
  | succ n ih =>
      rw [List.range_succ, List.foldlM_append] at run run'
      obtain ⟨u, before, last⟩ := Option.bind_eq_some_iff.mp run
      obtain ⟨u', before', last'⟩ := Option.bind_eq_some_iff.mp run'
      rw [List.foldlM_cons] at last last'
      obtain ⟨v, turn, here⟩ := Option.bind_eq_some_iff.mp last
      obtain ⟨v', turn', here'⟩ := Option.bind_eq_some_iff.mp last'
      obtain rfl := Option.some.inj here
      obtain rfl := Option.some.inj here'
      exact turns n (Nat.lt_succ_self n) u u' v v'
        (ih (fun i below => turns i (Nat.lt_succ_of_lt below)) before before') turn turn'

theorem range_congr {f g : σ → Nat → Option σ} {n : Nat} (turns : ∀ i < n, ∀ s, f s i = g s i)
    (s : σ) : (List.range n).foldlM f s = (List.range n).foldlM g s := by
  induction n with
  | zero => rfl
  | succ n ih =>
      rw [List.range_succ, List.foldlM_append, List.foldlM_append,
        ih fun i below => turns i (Nat.lt_succ_of_lt below)]
      refine congrArg (Option.bind _) (funext fun u => ?_)
      rw [List.foldlM_cons, List.foldlM_cons, turns n (Nat.lt_succ_self n)]
      rfl

end FiveAM.Lib.Agreement
