/- GID: FiveAM/Lib/Requests
   layer: library
   digest: Computations that ask for things on their way and stop for good where one is refused. -/

import Mathlib.Data.List.Basic

set_option autoImplicit false
set_option relaxedAutoImplicit false

namespace FiveAM.Lib.Requests

/-- What a computation asks for, in order, and how it ends when nothing is refused. -/
structure Asking (ρ α : Type) where
  asks : List ρ
  result : Except String α

namespace Asking

variable {ρ ρ' α β : Type}

def andThen (x : Asking ρ α) (f : α → Asking ρ β) : Asking ρ β :=
  match x.result with
  | .ok a => ⟨x.asks ++ (f a).asks, (f a).result⟩
  | .error text => ⟨x.asks, .error text⟩

instance instMonad : Monad (Asking ρ) where
  pure a := ⟨[], .ok a⟩
  bind := andThen

def ask (r : ρ) : Asking ρ Unit := ⟨[r], .ok ()⟩

def give (result : Except String α) : Asking ρ α := ⟨[], result⟩

/-- The same computation as a part of another one, which has its own requests. -/
def within (f : ρ → ρ') (x : Asking ρ α) : Asking ρ' α := ⟨x.asks.map f, x.result⟩

def run (grants : ρ → Bool) (x : Asking ρ α) : Option (Except String α) :=
  if x.asks.all grants then some x.result else none

section Parts

variable {x : Asking ρ α} {f : α → Asking ρ β} {a : α}

theorem bind_ok (ok : x.result = .ok a) :
    (x >>= f).asks = x.asks ++ (f a).asks ∧ (x >>= f).result = (f a).result := by
  change (andThen x f).asks = _ ∧ (andThen x f).result = _
  rw [andThen, ok]
  exact ⟨rfl, rfl⟩

theorem bind_error {text : String} (error : x.result = .error text) :
    (x >>= f).asks = x.asks ∧ (x >>= f).result = .error text := by
  change (andThen x f).asks = _ ∧ (andThen x f).result = _
  rw [andThen, error]
  exact ⟨rfl, rfl⟩

theorem ok_of_bind {b : β} (ok : (x >>= f).result = .ok b) :
    ∃ a, x.result = .ok a ∧ (f a).result = .ok b := by
  cases first : x.result with
  | error text =>
      rw [(bind_error first).2] at ok
      cases ok
  | ok a => exact ⟨a, rfl, (bind_ok first).2.symm.trans ok⟩

theorem ask_bind (r : ρ) (f : Unit → Asking ρ β) :
    (ask r >>= f).asks = r :: (f ()).asks ∧ (ask r >>= f).result = (f ()).result := bind_ok rfl

end Parts

section Runs

variable {grants : ρ → Bool} {x : Asking ρ α}

theorem run_none : run grants x = none ↔ ∃ r ∈ x.asks, grants r = false := by
  unfold run
  rw [ite_eq_right_iff, ← not_iff_not]
  simp

theorem run_some {result : Except String α} :
    run grants x = some result ↔ (∀ r ∈ x.asks, grants r = true) ∧ x.result = result := by
  unfold run
  split_ifs with all
  · rw [List.all_eq_true] at all
    exact ⟨fun same => ⟨all, Option.some.inj same⟩, fun both => congrArg some both.2⟩
  · rw [List.all_eq_true] at all
    exact iff_of_false id fun both => all both.1

end Runs

end Asking

end FiveAM.Lib.Requests
