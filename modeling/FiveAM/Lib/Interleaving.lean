/- GID: FiveAM/Lib/Interleaving
   layer: library
   digest: Interleaved threads, and runs in which nobody moves while another is inside. -/

import FiveAM.Lib.Runs
import Mathlib.Data.Fintype.Defs
import Mathlib.Logic.Function.Basic

set_option autoImplicit false
set_option relaxedAutoImplicit false

namespace FiveAM.Lib.Interleaving

open FiveAM.Lib.Runs

/-- Threads that share data, each at a place in the same code. -/
structure Machine (ι σ π : Type*) where
  shared : σ
  places : ι → π

variable {ι σ π α : Type*}

/-- One thread takes a step, which may depend on what it is given or asked to do. -/
def step [DecidableEq ι] (next : σ → π → α → Option (σ × π)) (m : Machine ι σ π) (e : ι × α) :
    Option (Machine ι σ π) :=
  (next m.shared (m.places e.1) e.2).map fun moved =>
    ⟨moved.1, Function.update m.places e.1 moved.2⟩

/-- One thread's steps with nobody else's between them. -/
def runOne (next : σ → π → α → Option (σ × π)) : σ × π → List α → Option (σ × π)
  | here, [] => some here
  | here, a :: rest => (next here.1 here.2 a).bind fun there => runOne next there rest

theorem runOne_append {next : σ → π → α → Option (σ × π)} {here : σ × π} {first more : List α} :
    runOne next here (first ++ more) =
      (runOne next here first).bind fun there => runOne next there more := by
  induction first generalizing here with
  | nil => rfl
  | cons a rest ih =>
      rw [List.cons_append, runOne, runOne, Option.bind_assoc]
      exact congrArg _ (funext fun _ => ih)

/-- Everybody but the thread that moves is outside. -/
def Alone (inside : π → Bool) (m : Machine ι σ π) (e : ι × α) : Prop :=
  ∀ u, u ≠ e.1 → inside (m.places u) = false

instance decidableAlone [Fintype ι] [DecidableEq ι] (inside : π → Bool) (m : Machine ι σ π)
    (e : ι × α) : Decidable (Alone inside m e) :=
  inferInstanceAs (Decidable (∀ u, u ≠ e.1 → inside (m.places u) = false))

/-- What holds of the data as seen by one thread that has them to itself: `rest` while
it is outside, `within` while it is inside. -/
def Held (inside : π → Bool) (rest : σ → Prop) (within : σ → π → Prop) (s : σ) (p : π) : Prop :=
  if inside p then within s p else rest s

/-- Somebody is inside and finds the data as it left them, or nobody is. -/
def Kept (inside : π → Bool) (rest : σ → Prop) (within : σ → π → Prop) (m : Machine ι σ π) :
    Prop :=
  (∃ t, inside (m.places t) = true ∧ within m.shared (m.places t) ∧
      ∀ u, u ≠ t → inside (m.places u) = false) ∨
    (∀ t, inside (m.places t) = false) ∧ rest m.shared

variable {next : σ → π → α → Option (σ × π)} {inside : π → Bool} {rest : σ → Prop}
  {within : σ → π → Prop}

theorem kept_of_held {m : Machine ι σ π} {t : ι}
    (held : Held inside rest within m.shared (m.places t))
    (others : ∀ u, u ≠ t → inside (m.places u) = false) : Kept inside rest within m := by
  unfold Held at held
  cases here : inside (m.places t) with
  | true =>
      rw [if_pos here] at held
      exact Or.inl ⟨t, here, held, others⟩
  | false =>
      rw [if_neg (by rw [here]; exact Bool.noConfusion)] at held
      refine Or.inr ⟨fun u => ?_, held⟩
      rcases eq_or_ne u t with rfl | apart
      · exact here
      · exact others u apart

theorem held_of_kept {m : Machine ι σ π} {t : ι} (kept : Kept inside rest within m)
    (others : ∀ u, u ≠ t → inside (m.places u) = false) :
    Held inside rest within m.shared (m.places t) := by
  unfold Held
  rcases kept with ⟨v, here, holds, -⟩ | ⟨nobody, holds⟩
  · have same : v = t := by
      by_contra apart
      exact Bool.noConfusion (here.symm.trans (others v apart))
    subst same
    rw [if_pos here]
    exact holds
  · rw [if_neg (by rw [nobody t]; exact Bool.noConfusion)]
    exact holds

/-- What each fair step of the code keeps for a thread that has the data to itself, every
run keeps in which nobody moves while another is inside. -/
theorem alone_kept [DecidableEq ι] {fair : α → Prop}
    (code : ∀ s p a s' p', Held inside rest within s p → fair a → next s p a = some (s', p') →
      Held inside rest within s' p')
    {start : Machine ι σ π → Prop} {allowed : Machine ι σ π → ι × α → Prop}
    (first : ∀ m, start m → (∀ t, inside (m.places t) = false) ∧ rest m.shared)
    (alone : ∀ m e, allowed m e → Alone inside m e ∧ fair e.2)
    {m : Machine ι σ π} (reached : Reached (step next) start allowed m) :
    Kept inside rest within m := by
  refine reached.invariant (P := Kept inside rest within)
    (fun m begun => Or.inr (first m begun)) ?_
  rintro m ⟨t, a⟩ m' kept fits taken
  obtain ⟨others, just⟩ := alone m (t, a) fits
  obtain ⟨⟨s', p'⟩, moved, rfl⟩ := Option.map_eq_some_iff.mp taken
  refine kept_of_held (t := t) ?_ fun u apart => ?_
  · simp only [Function.update_self]
    exact code _ _ _ _ _ (held_of_kept kept others) just moved
  · simp only [Function.update_of_ne apart]
    exact others u apart

theorem reached_alone [DecidableEq ι] (inside : π → Bool) {start : Machine ι σ π → Prop}
    {allowed : Machine ι σ π → ι × α → Prop} {m : Machine ι σ π} {t : ι} {asks : List α}
    {there : σ × π} (reached : Reached (step next) start allowed m)
    (others : ∀ u, u ≠ t → inside (m.places u) = false)
    (fair : ∀ a ∈ asks, ∀ m : Machine ι σ π, Alone inside m (t, a) → allowed m (t, a))
    (ran : runOne next (m.shared, m.places t) asks = some there) :
    Reached (step next) start allowed ⟨there.1, Function.update m.places t there.2⟩ := by
  induction asks generalizing m with
  | nil =>
      obtain rfl := Option.some.inj ran
      rwa [Function.update_eq_self]
  | cons a rest ih =>
      obtain ⟨moved, here, later⟩ := Option.bind_eq_some_iff.mp ran
      have taken : step next m (t, a) = some ⟨moved.1, Function.update m.places t moved.2⟩ := by
        rw [step, here]
        rfl
      have after := ih (.step reached (fair a List.mem_cons_self m others) taken)
        (fun u apart => by
          show inside (Function.update m.places t moved.2 u) = false
          rw [Function.update_of_ne apart]
          exact others u apart)
        (fun a' member => fair a' (List.mem_cons_of_mem a member))
        (by
          show runOne next (moved.1, Function.update m.places t moved.2 t) rest = some there
          rwa [Function.update_self])
      rwa [Function.update_idem] at after

end FiveAM.Lib.Interleaving
