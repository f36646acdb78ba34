/- GID: FiveAM/Llm/Sharing
   source: kernel/src/llm.rs, kernel/src/sync.rs
   digest: Tasks that ask the one model at the same time: one is served, as if it were alone. -/

import FiveAM.Lib.Runs
import FiveAM.Llm.Generate
import FiveAM.Llm.Leftovers

set_option autoImplicit false
set_option relaxedAutoImplicit false

namespace FiveAM.Llm.Sharing

open FiveAM.Lib.Loops FiveAM.Lib.Runs FiveAM.Llm.ModelFile FiveAM.Llm.Forward
open FiveAM.Llm.ModelSafety FiveAM.Llm.Ramdisk FiveAM.Llm.Generate FiveAM.Llm.Leftovers

section Source

/-- Exclusive ownership, refused and never waited for. -/
structure Claim where
  taken : Bool

def Claim.tryTake (claim : Claim) : Option Claim := if claim.taken then none else some ⟨true⟩

def Claim.dropped : Claim := ⟨false⟩

/-- A call of `generate` that has been let in. -/
structure Session where
  prompt : String
  steps : Nat
  request : Request
  pos : Nat
  stopped : Bool
  progress : Progress

inductive Answer where
  | refused
  | printed (p : Progress)

structure Returned where
  task : Nat
  prompt : String
  steps : Nat
  answer : Answer

/-- The one set of activations, the claim on it, and where each task is. -/
structure System (F : Type) where
  state : RunState F
  generating : Claim
  sessions : Nat → Option Session
  returned : List Returned

/-- A task calls `generate`, goes once through its loop, or leaves it. -/
inductive Event where
  | call (task : Nat) (prompt : String) (steps : Nat)
  | pass (task : Nat)
  | leave (task : Nat)

variable {F : Type} (ops : Floats F) (m : Loaded F)

def boot : System F := ⟨freshState ops, ⟨false⟩, fun _ => none, []⟩

/-- The beginning of `generate`; `none` is a fault. -/
def call (sys : System F) (task : Nat) (prompt : String) (steps : Nat) : Option (System F) :=
  match sys.generating.tryTake with
  | none => some { sys with returned := ⟨task, prompt, steps, .refused⟩ :: sys.returned }
  | some claim => do
      let request ← prepare ops m prompt steps
      let session := ⟨prompt, steps, request, 0, false, Progress.start⟩
      some { sys with
        generating := claim
        sessions := Function.update sys.sessions task (some session) }

def Session.Goes (x : Session) : Prop := x.stopped = false ∧ x.pos < x.request.limit

instance (x : Session) : Decidable x.Goes := inferInstanceAs (Decidable (_ ∧ _))

/-- Once through the loop; `none` is a fault. -/
def pass (sys : System F) (task : Nat) (x : Session) : Option (System F) := do
  let (s, p) ← turn ops m x.request x.pos sys.state x.progress
  let session := { x with pos := x.pos + 1, stopped := decide (p.token = 2), progress := p }
  some { sys with state := s, sessions := Function.update sys.sessions task (some session) }

/-- What follows the loop, and the end of the claim. -/
def leave (sys : System F) (task : Nat) (x : Session) : System F :=
  { sys with
    generating := Claim.dropped
    sessions := Function.update sys.sessions task none
    returned := ⟨task, x.prompt, x.steps, .printed (x.progress.finish m.vocab)⟩ :: sys.returned }

/-- `none` where a task cannot do this now, and where it faults. -/
def step (sys : System F) : Event → Option (System F)
  | .call task prompt steps =>
      if (sys.sessions task).isSome then none else call ops m sys task prompt steps
  | .pass task => (sys.sessions task).bind fun x =>
      if x.Goes then pass ops m sys task x else none
  | .leave task => (sys.sessions task).bind fun x =>
      if x.Goes then none else some (leave m sys task x)

end Source

section Passes

variable {F : Type} {ops : Floats F} {m : Loaded F} {r : Request} {s t : RunState F}
  {p : Progress} {pos : Nat}

variable (ops) in
theorem turn_both (ready : Ready m) (groups : m.config.nKvHeads ∣ m.config.nHeads)
    (fair : Fair m r) (known : p.token < ModelFile.maxVocab) (inside : pos < m.config.seqLen)
    (alike : Alike m.config (shape m.config) pos 0 s t) :
    ∃ s' t' p', turn ops m r pos s p = some (s', p') ∧ turn ops m r pos t p = some (t', p') ∧
      p'.token < ModelFile.maxVocab ∧ Alike m.config (shape m.config) (pos + 1) 0 s' t' := by
  obtain ⟨floats, whole⟩ := ready.whole
  obtain ⟨s', p', run, -, known', -⟩ := turn_some ops ready fair known inside alike.sized
  obtain ⟨s1, t1, pass, pass', later, logits⟩ := forward_both ready.small whole ready.cut
    ready.runnable groups (ready.vocabulary ▸ known) inside alike
  obtain ⟨s2, pass2, rest⟩ := Option.bind_eq_some_iff.mp run
  obtain rfl := Option.some.inj (pass.symm.trans pass2)
  obtain ⟨next, picked, same⟩ := Option.bind_eq_some_iff.mp rest
  obtain ⟨rfl, rfl⟩ := Prod.mk.inj (Option.some.inj same)
  refine ⟨s1, t1, _, run, ?_, known', later⟩
  rw [logits] at picked
  exact bind_of pass' (bind_of picked rfl)

end Passes

section Runs

variable {F : Type} {ops : Floats F} {m : Loaded F} {sys sys' : System F}

/-- A session is where a generation from fresh activations comes by: what is left of the loop is
the same in both. -/
structure Going (ops : Floats F) (m : Loaded F) (state : RunState F) (x : Session) : Prop where
  prepared : prepare ops m x.prompt x.steps = some x.request
  inside : x.pos ≤ x.request.limit
  known : x.progress.token < ModelFile.maxVocab
  alone : ∃ s, Alike m.config (shape m.config) x.pos 0 s state ∧
    turns ops m x.request x.request.limit 0 (freshState ops) Progress.start =
      if x.stopped then some (s, x.progress)
      else turns ops m x.request (x.request.limit - x.pos) x.pos s x.progress

/-- What is printed in every answer is what the call prints when it is the first since boot. -/
def Answered (ops : Floats F) (m : Loaded F) (sys : System F) : Prop :=
  ∀ call ∈ sys.returned, ∀ p, call.answer = .printed p →
    ∃ s, generate ops m (freshState ops) call.prompt call.steps = some (s, p)

/-- The claim is free and nobody is inside, or one is and holds the claim. -/
inductive Phase (ops : Floats F) (m : Loaded F) (sys : System F) : Prop where
  | idle (free : sys.generating.taken = false) (nobody : ∀ task, sys.sessions task = none)
      (sized : Sized sys.state)
  | busy (task : Nat) (x : Session) (held : sys.generating.taken = true)
      (inside : sys.sessions task = some x)
      (others : ∀ other, other ≠ task → sys.sessions other = none)
      (going : Going ops m sys.state x)

structure Kept (ops : Floats F) (m : Loaded F) (sys : System F) : Prop where
  answered : Answered ops m sys
  phase : Phase ops m sys

theorem kept_boot (ops : Floats F) (m : Loaded F) : Kept ops m (boot ops) :=
  ⟨fun _ member => absurd member List.not_mem_nil,
    .idle rfl (fun _ => rfl) (freshState_sized ops)⟩

theorem going_start (ready : Ready m) {prompt : String} {steps : Nat} {r : Request}
    (prepared : prepare ops m prompt steps = some r) (sized : Sized sys.state) :
    Going ops m sys.state ⟨prompt, steps, r, 0, false, Progress.start⟩ := by
  have begun : Progress.start.token < ModelFile.maxVocab := by decide
  exact ⟨prepared, Nat.zero_le _, begun, freshState ops,
    alike_at_start _ (freshState_sized ops) sized ready.vocabulary, rfl⟩

theorem going_pass (ready : Ready m) (groups : m.config.nKvHeads ∣ m.config.nHeads) {x : Session}
    (going : Going ops m sys.state x) (goes : x.stopped = false)
    (inside : x.pos < x.request.limit) :
    ∃ s p, turn ops m x.request x.pos sys.state x.progress = some (s, p) ∧
      Going ops m s { x with
        pos := x.pos + 1, stopped := decide (p.token = 2), progress := p } := by
  obtain ⟨s, alike, alone⟩ := going.alone
  have fair : Fair m x.request := by
    obtain ⟨r, prepared, fair, -⟩ := prepare_some ops m x.prompt x.steps
    exact Option.some.inj (prepared.symm.trans going.prepared) ▸ fair
  obtain ⟨s', t', p, run, run', known, later⟩ := turn_both ops ready groups fair going.known
    (Nat.lt_of_lt_of_le inside fair.limit) alike
  refine ⟨t', p, run', going.prepared, inside, known, s', later, ?_⟩
  obtain ⟨left, more⟩ := Nat.exists_eq_add_of_le inside
  rw [alone, goes, if_neg Bool.false_ne_true, show x.request.limit - x.pos = left + 1 by omega,
    turns, run, Option.bind_eq_bind, Option.bind_some,
    show x.request.limit - (x.pos + 1) = left by omega]
  simp only [decide_eq_true_eq]

theorem going_leave {x : Session} (going : Going ops m sys.state x)
    (over' : ¬x.Goes) :
    ∃ s, generate ops m (freshState ops) x.prompt x.steps =
      some (s, x.progress.finish m.vocab) := by
  obtain ⟨s, -, alone⟩ := going.alone
  have ended : turns ops m x.request x.request.limit 0 (freshState ops) Progress.start =
      some (s, x.progress) := by
    rw [alone]
    split_ifs with stopped
    · rfl
    · have last : x.request.limit - x.pos = 0 := by
        by_contra more
        exact over' ⟨Bool.eq_false_iff.mpr stopped, by omega⟩
      rw [last]
      rfl
  exact ⟨s, bind_of going.prepared (bind_of ended rfl)⟩

theorem Phase.of_session (phase : Phase ops m sys) {task : Nat} {x : Session}
    (here : sys.sessions task = some x) : sys.generating.taken = true ∧
      (∀ other, other ≠ task → sys.sessions other = none) ∧ Going ops m sys.state x := by
  cases phase with
  | idle free nobody sized => exact absurd (here.symm.trans (nobody task)) (Option.some_ne_none _)
  | busy inside y held there others going =>
      have same : task = inside := by
        by_contra apart
        exact Option.some_ne_none _ (here.symm.trans (others task apart))
      subst same
      obtain rfl := Option.some.inj (there.symm.trans here)
      exact ⟨held, others, going⟩

theorem phase_update {state : RunState F} {claim : Claim} {sessions : Nat → Option Session}
    {returned : List Returned} {task : Nat} {x : Session} (held : claim.taken = true)
    (others : ∀ other, other ≠ task → sessions other = none) (going : Going ops m state x) :
    Phase ops m ⟨state, claim, Function.update sessions task (some x), returned⟩ := by
  refine .busy task x held (Function.update_self ..) (fun other apart => ?_) going
  exact (Function.update_of_ne apart ..).trans (others other apart)

theorem kept_call (ready : Ready m) (kept : Kept ops m sys) {task : Nat} {prompt : String}
    {steps : Nat} (taken : call ops m sys task prompt steps = some sys') : Kept ops m sys' := by
  unfold call Claim.tryTake at taken
  cases free : sys.generating.taken with
  | true =>
      rw [free, if_pos rfl] at taken
      obtain rfl := Option.some.inj taken
      refine ⟨fun call member p printed => ?_, ?_⟩
      · rcases List.mem_cons.mp member with rfl | before
        · cases printed
        · exact kept.answered call before p printed
      · cases kept.phase with
        | idle free' nobody sized => exact absurd (free.symm.trans free') Bool.noConfusion
        | busy inside x held here others going => exact .busy inside x held here others going
  | false =>
      rw [free, if_neg Bool.false_ne_true] at taken
      obtain ⟨r, prepared, same⟩ := Option.bind_eq_some_iff.mp taken
      obtain rfl := Option.some.inj same
      cases kept.phase with
      | idle free' nobody sized =>
          exact ⟨kept.answered, phase_update rfl (fun other _ => nobody other)
            (going_start ready prepared sized)⟩
      | busy inside x held here others going =>
          exact absurd (held.symm.trans free) Bool.noConfusion

theorem kept_step (ready : Ready m) (groups : m.config.nKvHeads ∣ m.config.nHeads)
    (kept : Kept ops m sys) {e : Event} (taken : step ops m sys e = some sys') :
    Kept ops m sys' := by
  cases e with
  | call task prompt steps =>
      obtain ⟨-, called⟩ := Option.ite_none_left_eq_some.mp taken
      exact kept_call ready kept called
  | pass task =>
      obtain ⟨x, here, rest⟩ := Option.bind_eq_some_iff.mp taken
      obtain ⟨held, others, going⟩ := kept.phase.of_session here
      split_ifs at rest with goes
      obtain ⟨s, p, run, later⟩ := going_pass ready groups going goes.1 goes.2
      rw [pass, run] at rest
      obtain rfl := Option.some.inj rest
      exact ⟨kept.answered, phase_update held others later⟩
  | leave task =>
      obtain ⟨x, here, rest⟩ := Option.bind_eq_some_iff.mp taken
      obtain ⟨held, others, going⟩ := kept.phase.of_session here
      split_ifs at rest with goes
      obtain rfl := Option.some.inj rest
      obtain ⟨s, alike, -⟩ := going.alone
      refine ⟨fun call member p printed => ?_, .idle rfl (fun other => ?_) alike.sized'⟩
      · rcases List.mem_cons.mp member with rfl | before
        · obtain rfl := Answer.printed.inj printed
          exact going_leave going goes
        · exact kept.answered call before p printed
      · rcases eq_or_ne other task with rfl | apart
        · exact Function.update_self ..
        · exact (Function.update_of_ne apart ..).trans (others other apart)

theorem moves (ready : Ready m) (groups : m.config.nKvHeads ∣ m.config.nHeads)
    (kept : Kept ops m sys) (task : Nat) :
    (sys.sessions task = none → ∀ prompt steps,
      ∃ next, step ops m sys (.call task prompt steps) = some next) ∧
    (sys.sessions task ≠ none →
      ∃ e, (e = .pass task ∨ e = .leave task) ∧ ∃ next, step ops m sys e = some next) := by
  refine ⟨fun outside prompt steps => ?_, fun inside => ?_⟩
  · have idle : ¬(sys.sessions task).isSome = true := by
      rw [outside]
      exact Bool.false_ne_true
    rw [step, if_neg idle, call, Claim.tryTake]
    cases sys.generating.taken with
    | true => exact ⟨_, rfl⟩
    | false =>
        obtain ⟨r, prepared, -⟩ := prepare_some ops m prompt steps
        exact ⟨_, bind_of prepared rfl⟩
  · obtain ⟨x, here⟩ := Option.ne_none_iff_exists'.mp inside
    obtain ⟨-, -, going⟩ := kept.phase.of_session here
    by_cases goes : x.Goes
    · obtain ⟨s, p, run, -⟩ := going_pass ready groups going goes.1 goes.2
      exact ⟨.pass task, Or.inl rfl, _, bind_of here ((if_pos goes).trans (bind_of run rfl))⟩
    · exact ⟨.leave task, Or.inr rfl, _, bind_of here (if_neg goes)⟩

end Runs

end FiveAM.Llm.Sharing
