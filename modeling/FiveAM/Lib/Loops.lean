/- GID: FiveAM/Lib/Loops
   layer: library
   digest: Loops of steps that may fail: when they run to their end, and what they come to. -/

import Mathlib.Data.List.Basic

set_option autoImplicit false
set_option relaxedAutoImplicit false

namespace FiveAM.Lib.Loops

universe u

variable {α σ τ : Type*}

theorem bind_of {α β : Type u} {x : Option α} {f : α → Option β} {a : α} {b : β} (here : x = some a)
    (next : f a = some b) : x >>= f = some b := by
  rw [here]
  exact next

theorem foldlM_invariant {f : σ → α → Option σ} {P : σ → Prop} {l : List α}
    (steps : ∀ a ∈ l, ∀ s, P s → ∃ s', f s a = some s' ∧ P s') {s : σ} (start : P s) :
    ∃ s', l.foldlM f s = some s' ∧ P s' := by
  induction l generalizing s with
  | nil => exact ⟨s, rfl, start⟩
  | cons a rest ih =>
      obtain ⟨next, taken, kept⟩ := steps a List.mem_cons_self s start
      obtain ⟨s', run, holds⟩ := ih (fun a inside => steps a (List.mem_cons_of_mem _ inside)) kept
      exact ⟨s', by rw [List.foldlM_cons, taken]; exact run, holds⟩

theorem foldlM_steps {f : σ → α → Option σ} {l : List α} {s s' : σ}
    (run : l.foldlM f s = some s') : ∀ a ∈ l, ∃ t t', f t a = some t' := by
  induction l generalizing s with
  | nil => exact fun a inside => absurd inside List.not_mem_nil
  | cons b rest ih =>
      rw [List.foldlM_cons] at run
      obtain ⟨next, taken, later⟩ := Option.bind_eq_some_iff.mp run
      intro a inside
      rcases List.mem_cons.mp inside with rfl | inside
      · exact ⟨s, next, taken⟩
      · exact ih later a inside

theorem foldlM_image {f : τ → α → Option τ} (shape : σ → τ) (g : σ → α → σ) {l : List α}
    (steps : ∀ a ∈ l, ∀ s, f (shape s) a = some (shape (g s a))) (s : σ) :
    l.foldlM f (shape s) = some (shape (l.foldl g s)) := by
  induction l generalizing s with
  | nil => rfl
  | cons a rest ih =>
      rw [List.foldlM_cons, steps a List.mem_cons_self s]
      exact ih (fun a inside => steps a (List.mem_cons_of_mem _ inside)) (g s a)

theorem foldl_or (l : List α) (marks : α → σ → Bool) (start : σ → Bool) :
    l.foldl (fun on a => fun p => on p || marks a p) start =
      fun p => start p || l.any fun a => marks a p := by
  induction l generalizing start with
  | nil =>
      funext p
      simp
  | cons a rest ih =>
      rw [List.foldl_cons, ih]
      funext p
      rw [List.any_cons, Bool.or_assoc]

end FiveAM.Lib.Loops
