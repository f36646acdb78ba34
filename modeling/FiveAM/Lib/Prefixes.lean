/- GID: FiveAM/Lib/Prefixes
   layer: library
   digest: What holds after every prefix of a sequence of writes. -/

import Mathlib.Data.List.Basic

set_option autoImplicit false
set_option relaxedAutoImplicit false

namespace FiveAM.Lib.Prefixes

variable {σ ω : Type*} {apply : σ → ω → σ} {P Q : σ → Prop} {s : σ} {w : ω} {ws vs : List ω}

/-- `P` holds before the first write, after the last, and after each between. -/
def Throughout (apply : σ → ω → σ) (P : σ → Prop) (s : σ) (ws : List ω) : Prop :=
  ∀ n, P ((ws.take n).foldl apply s)

theorem throughout_nil : Throughout apply P s [] ↔ P s := by
  simp [Throughout]

theorem throughout_cons :
    Throughout apply P s (w :: ws) ↔ P s ∧ Throughout apply P (apply s w) ws := by
  constructor
  · exact fun all => ⟨all 0, fun n => all (n + 1)⟩
  · rintro ⟨first, later⟩ (_ | n)
    · exact first
    · exact later n

theorem throughout_append : Throughout apply P s (ws ++ vs) ↔
    Throughout apply P s ws ∧ Throughout apply P (ws.foldl apply s) vs := by
  induction ws generalizing s with
  | nil =>
      rw [List.nil_append, List.foldl_nil, throughout_nil]
      exact ⟨fun all => ⟨all 0, all⟩, fun both => both.2⟩
  | cons w ws ih =>
      rw [List.cons_append, throughout_cons, throughout_cons, ih, List.foldl_cons, and_assoc]

theorem Throughout.mono (all : Throughout apply P s ws) (weaker : ∀ s, P s → Q s) :
    Throughout apply Q s ws := fun n => weaker _ (all n)

theorem Throughout.last (all : Throughout apply P s ws) : P (ws.foldl apply s) := by
  have whole := all ws.length
  rwa [List.take_length] at whole

theorem Throughout.between (all : Throughout apply P s (ws ++ vs)) : P (ws.foldl apply s) :=
  (throughout_append.mp all).1.last

end FiveAM.Lib.Prefixes
