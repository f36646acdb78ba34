/- GID: FiveAM/Lib/Programs
   layer: library
   digest: Programs with a state that return a result, panic, halt or run out of passes, and rules for how they end. -/

import Mathlib.Logic.Basic

set_option autoImplicit false
set_option relaxedAutoImplicit false

namespace FiveAM.Lib.Programs

inductive Stop where
  | panicked
  | halted
  | unfinished
  /-- Memory that was asked for was not granted. -/
  | exhausted
  deriving DecidableEq

inductive Outcome (σ α : Type) where
  | returned (result : Except String α) (s : σ)
  | stopped (why : Stop) (s : σ)

def Program (σ α : Type) : Type := σ → Outcome σ α

namespace Program

variable {σ α β : Type}

/-- The rest of a program runs where the first part returned a value. -/
def andThen (x : Program σ α) (f : α → Program σ β) : Program σ β := fun s =>
  match x s with
  | .returned (.ok a) t => f a t
  | .returned (.error text) t => .returned (.error text) t
  | .stopped why t => .stopped why t

instance instMonad : Monad (Program σ) where
  pure a s := .returned (.ok a) s
  bind := andThen

def state : Program σ σ := fun s => .returned (.ok s) s

/-- A function that may fail, with the state it leaves. -/
def act (f : σ → Except String α × σ) : Program σ α := fun s => .returned (f s).1 (f s).2

/-- A computation that panics where it has no result. -/
def check (result : Option α) : Program σ α := fun s =>
  match result with
  | some a => .returned (.ok a) s
  | none => .stopped .panicked s

/-- `ok_or(text)?`. -/
def demand (result : Option α) (text : String) : Program σ α := fun s =>
  match result with
  | some a => .returned (.ok a) s
  | none => .returned (.error text) s

/-- Memory is asked for, and the program goes on only where it is granted. -/
def request (granted : Bool) : Program σ Unit := fun s =>
  if granted then .returned (.ok ()) s else .stopped .exhausted s

/-- `if condition { return Err(text); }`. -/
def refuseIf (condition : Prop) [Decidable condition] (text : String) : Program σ Unit := fun s =>
  .returned (if condition then .error text else .ok ()) s

/-- A `for` loop with an accumulator. -/
def forEach (body : β → α → Program σ β) : List α → β → Program σ β
  | [], b => pure b
  | a :: rest, b => body b a >>= forEach body rest

/-- A `while` loop that may test its condition `passes` times. -/
def loop (goes : β → Bool) (body : β → Program σ β) : Nat → β → Program σ β
  | 0, _ => fun s => .stopped .unfinished s
  | passes + 1, b => if goes b then body b >>= loop goes body passes else pure b

end Program

open Program

/-- What holds where a program returns a value, where it returns an error and where it stops. -/
structure Post (σ α : Type) where
  ok : α → σ → Prop
  error : String → σ → Prop
  stopped : Stop → σ → Prop

variable {σ α β γ : Type}

def Post.onValue (post : Post σ α) (ok : β → σ → Prop) : Post σ β := ⟨ok, post.error, post.stopped⟩

def Post.Holds (post : Post σ α) : Outcome σ α → Prop
  | .returned (.ok a) t => post.ok a t
  | .returned (.error text) t => post.error text t
  | .stopped why t => post.stopped why t

/-- The program, run from a state, ends as the postcondition says. -/
def Ends (x : Program σ α) (s : σ) (post : Post σ α) : Prop := post.Holds (x s)

namespace Ends

variable {x : Program σ α} {f : α → Program σ β} {s : σ} {post : Post σ β} {post' : Post σ α}

theorem mono {weaker : Post σ α} (ends : Ends x s post') (ok : ∀ a t, post'.ok a t → weaker.ok a t)
    (error : ∀ text t, post'.error text t → weaker.error text t)
    (stopped : ∀ why t, post'.stopped why t → weaker.stopped why t) : Ends x s weaker := by
  unfold Ends at *
  generalize x s = outcome at ends ⊢
  rcases outcome with ⟨text | a, t⟩ | ⟨why, t⟩
  · exact error _ _ ends
  · exact ok _ _ ends
  · exact stopped _ _ ends

theorem value {ok ok' : α → σ → Prop} (ends : Ends x s (post.onValue ok))
    (more : ∀ a t, ok a t → ok' a t) : Ends x s (post.onValue ok') :=
  ends.mono more (fun _ _ here => here) fun _ _ here => here

theorem pure {a : β} (holds : post.ok a s) : Ends (Pure.pure a : Program σ β) s post := holds

theorem bind (ends : Ends x s (post.onValue fun a t => Ends (f a) t post)) :
    Ends (x >>= f) s post := by
  unfold Ends at ends
  change post.Holds (andThen x f s)
  unfold andThen
  generalize x s = outcome at ends ⊢
  rcases outcome with ⟨text | a, t⟩ | ⟨why, t⟩
  · exact ends
  · exact ends
  · exact ends

theorem bindState {f : σ → Program σ β} (ends : Ends (f s) s post) :
    Ends (Program.state >>= f) s post := @bind σ σ β Program.state f s post ends

theorem act {f : σ → Except String β × σ} (ok : ∀ a t, f s = (.ok a, t) → post.ok a t)
    (error : ∀ text t, f s = (.error text, t) → post.error text t) : Ends (act f) s post := by
  unfold Ends Program.act
  rcases outcome : f s with ⟨text | a, t⟩
  · exact error _ _ outcome
  · exact ok _ _ outcome

theorem check {result : Option β} {a : β} (found : result = some a) (holds : post.ok a s) :
    Ends (check result) s post := by
  subst found
  exact holds

theorem demand {result : Option β} {text : String} (ok : ∀ a, result = some a → post.ok a s)
    (error : result = none → post.error text s) : Ends (demand result text) s post := by
  cases result with
  | none => exact error rfl
  | some a => exact ok a rfl

theorem refuseIf {post : Post σ Unit} {condition : Prop} [Decidable condition] {text : String}
    (error : condition → post.error text s) (ok : ¬condition → post.ok () s) :
    Ends (refuseIf condition text) s post := by
  unfold Ends Program.refuseIf
  by_cases refused : condition
  · rw [if_pos refused]
    exact error refused
  · rw [if_neg refused]
    exact ok refused

theorem request {post : Post σ Unit} {granted : Bool} (ok : granted = true → post.ok () s)
    (refused : granted = false → post.stopped .exhausted s) : Ends (request granted) s post := by
  cases granted with
  | false => exact refused rfl
  | true => exact ok rfl

theorem forEach {body : β → α → Program σ β} {items : List α} {b : β}
    (invariant : List α → β → σ → Prop) (first : invariant [] b s)
    (step : ∀ before a after b s, items = before ++ a :: after → invariant before b s →
      Ends (body b a) s (post.onValue (invariant (before ++ [a]))))
    (last : ∀ b t, invariant items b t → post.ok b t) :
    Ends (forEach body items b) s post := by
  have from_ : ∀ rest before b s, items = before ++ rest → invariant before b s →
      Ends (Program.forEach body rest b) s post := by
    intro rest
    induction rest with
    | nil =>
        intro before b s split holds
        rw [List.append_nil] at split
        exact last b s (split ▸ holds)
    | cons a rest ih =>
        intro before b s split holds
        refine bind ((step before a rest b s split holds).value fun b' t holds' => ?_)
        exact ih (before ++ [a]) b' t (by rw [split, List.append_assoc, List.singleton_append]) holds'
  exact from_ items [] b s rfl first

theorem loop {goes : β → Bool} {body : β → Program σ β} {b : β} {passes : Nat}
    (invariant : Nat → β → σ → Prop) (total : Nat) (enough : total < passes) (first : invariant 0 b s)
    (test : ∀ rounds b s, rounds ≤ total → invariant rounds b s → (goes b = true ↔ rounds < total))
    (step : ∀ rounds b s, rounds < total → invariant rounds b s →
      Ends (body b) s (post.onValue (invariant (rounds + 1))))
    (last : ∀ b t, invariant total b t → post.ok b t) :
    Ends (loop goes body passes b) s post := by
  have from_ : ∀ passes rounds b s, rounds ≤ total → total - rounds < passes →
      invariant rounds b s → Ends (Program.loop goes body passes b) s post := by
    intro passes
    induction passes with
    | zero => exact fun rounds b s _ enough => absurd enough (Nat.not_lt_zero _)
    | succ passes ih =>
        intro rounds b s within enough holds
        have tested := test rounds b s within holds
        unfold Program.loop
        by_cases more : rounds < total
        · rw [if_pos (tested.mpr more)]
          refine bind ((step rounds b s more holds).value fun b' t holds' => ?_)
          exact ih (rounds + 1) b' t more (by omega) holds'
        · rw [if_neg fun goes => more (tested.mp goes)]
          have all : rounds = total := Nat.le_antisymm within (Nat.not_lt.mp more)
          exact last b s (all ▸ holds)
  exact from_ passes 0 b s (Nat.zero_le _) enough first

end Ends

attribute [irreducible] Ends

end FiveAM.Lib.Programs
