/- GID: FiveAM/Lib/Runs
   layer: library
   digest: Runs of a partial step function whose steps all meet a condition. -/

import Mathlib.Logic.Basic

set_option autoImplicit false
set_option relaxedAutoImplicit false

namespace FiveAM.Lib.Runs

variable {σ ε : Type*}

/-- The states reached from a start by steps that are all allowed where they are
taken. -/
inductive Reached (step : σ → ε → Option σ) (start : σ → Prop) (allowed : σ → ε → Prop) :
    σ → Prop
  | start {s : σ} (first : start s) : Reached step start allowed s
  | step {s s' : σ} {e : ε} (prior : Reached step start allowed s) (fair : allowed s e)
      (taken : step s e = some s') : Reached step start allowed s'

variable {step : σ → ε → Option σ} {start : σ → Prop} {allowed : σ → ε → Prop}

theorem Reached.invariant {P : σ → Prop} (first : ∀ s, start s → P s)
    (kept : ∀ s e s', P s → allowed s e → step s e = some s' → P s') {s : σ}
    (reached : Reached step start allowed s) : P s := by
  induction reached with
  | start begun => exact first _ begun
  | step prior fair taken ih => exact kept _ _ _ ih fair taken

/-- A list of events taken one after the other. -/
def runAll (step : σ → ε → Option σ) : σ → List ε → Option σ
  | s, [] => some s
  | s, e :: rest => (step s e).bind fun s' => runAll step s' rest

/-- A run whose every event is allowed where it is taken. -/
def allAllowed (step : σ → ε → Option σ) (allowed : σ → ε → Prop) : σ → List ε → Prop
  | _, [] => True
  | s, e :: rest => allowed s e ∧ ∀ s', step s e = some s' → allAllowed step allowed s' rest

theorem allAllowed_of_forall {events : List ε} (always : ∀ e ∈ events, ∀ s, allowed s e) (s : σ) :
    allAllowed step allowed s events := by
  induction events generalizing s with
  | nil => trivial
  | cons e rest ih =>
      exact ⟨always e List.mem_cons_self s, fun s' _ =>
        ih (fun e' member => always e' (List.mem_cons_of_mem e member)) s'⟩

theorem Reached.runAll {s s' : σ} {events : List ε} (reached : Reached step start allowed s)
    (fair : allAllowed step allowed s events) (taken : runAll step s events = some s') :
    Reached step start allowed s' := by
  induction events generalizing s with
  | nil =>
      obtain rfl := Option.some.inj taken
      exact reached
  | cons e rest ih =>
      obtain ⟨next, here, later⟩ := Option.bind_eq_some_iff.mp taken
      exact ih (.step reached fair.1 here) (fair.2 next here) later

theorem runAll_of_guarded [∀ s e, Decidable (allowed s e)] {s s' : σ} {events : List ε}
    (taken : runAll (fun s e => if allowed s e then step s e else none) s events = some s') :
    runAll step s events = some s' := by
  induction events generalizing s with
  | nil => exact taken
  | cons e rest ih =>
      obtain ⟨next, here, later⟩ := Option.bind_eq_some_iff.mp taken
      obtain ⟨-, here⟩ := Option.ite_none_right_eq_some.mp here
      exact Option.bind_eq_some_iff.mpr ⟨next, here, ih later⟩

theorem Reached.runGuarded [∀ s e, Decidable (allowed s e)] {s s' : σ} {events : List ε}
    (reached : Reached step start allowed s)
    (taken : Runs.runAll (fun s e => if allowed s e then step s e else none) s events = some s') :
    Reached step start allowed s' := by
  induction events generalizing s with
  | nil =>
      obtain rfl := Option.some.inj taken
      exact reached
  | cons e rest ih =>
      obtain ⟨next, here, later⟩ := Option.bind_eq_some_iff.mp taken
      obtain ⟨fair, here⟩ := Option.ite_none_right_eq_some.mp here
      exact ih (.step reached fair here) later

/-- A run that is found to end in such a state reaches one, when every step is allowed. -/
theorem Reached.freely (start : σ → Prop) {s : σ} {events : List ε} {found : σ → Bool} (begun : start s)
    (ends : (Runs.runAll step s events).any found = true) :
    ∃ s', Reached step start (fun _ _ => True) s' ∧ found s' = true := by
  obtain ⟨s', taken, there⟩ := (Option.any_eq_true ..).mp ends
  exact ⟨s', (Reached.start begun).runAll (allAllowed_of_forall (fun _ _ _ => trivial) s) taken, there⟩

end FiveAM.Lib.Runs
