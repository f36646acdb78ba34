/- GID: FiveAM/Process/Threads
   source: kernel/src/task.rs
   digest: Tasks that take steps, sleep on channels and wake each other on one processor. -/

import FiveAM.Process.TaskTable
import FiveAM.Lib.Runs
import Mathlib.Algebra.BigOperators.Fin
import Mathlib.Data.Fintype.Card
import Mathlib.Tactic.SplitIfs

set_option autoImplicit false
set_option relaxedAutoImplicit false

namespace FiveAM.Process.Threads

open FiveAM.Process.TaskTable FiveAM.Lib.Runs

/-- What a task's code does at a place in it: `σ` is the data the tasks share, `π` the
places. -/
inductive Action (σ π : Type) where
  /-- Something no tick can divide. -/
  | critical (body : σ → σ × π)
  /-- One pass through the loop of `block_until`. -/
  | blockUntil (channel : Word) (ready : σ → Option (σ × π))
  /-- `wake_all`, which a tick can divide unless it is `guarded`. -/
  | wakeAll (channel : Word) (guarded : Bool) (next : π)
  /-- The task is not in this code. -/
  | outside

/-- The code the tasks run: what each does at a place, from which places outside it they
come in where, and the channels nobody else sleeps on. -/
structure Program (n : Nat) (σ π : Type) where
  action : Fin n → π → Action σ π
  enters : π → π → Bool
  channels : List Word

/-- A task, with the loop variables of its `wake_all`: the slot it looks at, and that it
has found it asleep. -/
structure Thread (π : Type) where
  state : State
  place : π
  scan : Nat
  found : Bool

structure Machine (n : Nat) (σ π : Type) where
  shared : σ
  threads : Fin n → Thread π

def asleepOn (channel : Word) : State := .blocked (.channel channel)

/-- Any wake turns a blocked task into a ready one. -/
def roused : State → State
  | .blocked _ => .ready
  | other => other

variable {n : Nat} {σ π : Type}

namespace Machine

def setThread (m : Machine n σ π) (t : Fin n) (thread : Thread π) : Machine n σ π :=
  { m with threads := Function.update m.threads t thread }

def setState (m : Machine n σ π) (t : Fin n) (state : State) : Machine n σ π :=
  m.setThread t { m.threads t with state := state }

def advance (m : Machine n σ π) (t : Fin n) (shared : σ) (place : π) : Machine n σ π :=
  { m.setThread t { m.threads t with place := place, scan := 0, found := false } with
    shared := shared }

/-- `wake_all` with interrupts disabled. -/
def wakeEverybody (m : Machine n σ π) (channel : Word) : Machine n σ π :=
  { m with threads := fun u =>
      if (m.threads u).state = asleepOn channel then { m.threads u with state := .ready }
      else m.threads u }

/-- The next load or store of a `wake_all`. -/
def visit (m : Machine n σ π) (t : Fin n) (channel : Word) (next : π) : Machine n σ π :=
  let thread := m.threads t
  if bound : thread.scan < n then
    let id : Fin n := ⟨thread.scan, bound⟩
    if thread.found then
      let m := m.setState id .ready
      m.setThread t { m.threads t with scan := thread.scan + 1, found := false }
    else if (m.threads id).state = asleepOn channel then m.setThread t { thread with found := true }
    else m.setThread t { thread with scan := thread.scan + 1 }
  else m.advance t m.shared next

/-- The scheduler resumes ready tasks, and stays with a sleeping one only when there is
none. -/
def Runs (m : Machine n σ π) (t : Fin n) : Prop :=
  (m.threads t).state = .ready ∨ ∀ u, (m.threads u).state ≠ .ready

instance (m : Machine n σ π) (t : Fin n) : Decidable (m.Runs t) :=
  inferInstanceAs (Decidable ((m.threads t).state = .ready ∨
    ∀ u, (m.threads u).state ≠ .ready))

end Machine

inductive Event (n : Nat) (π : Type) where
  /-- The task takes its next step. -/
  | act (t : Fin n)
  /-- A task outside the code comes in. -/
  | enter (t : Fin n) (place : π)
  /-- A task outside the code is created, ends or sleeps for another reason. -/
  | drift (t : Fin n) (state : State)
  /-- A signal or a late store of another `wake_all` wakes the task. -/
  | rouse (t : Fin n)

/-- What a task at this place does to the machine. -/
def act (m : Machine n σ π) (t : Fin n) : Action σ π → Option (Machine n σ π)
  | .critical body => some (m.advance t (body m.shared).1 (body m.shared).2)
  | .blockUntil channel ready =>
      match ready m.shared with
      | some (shared, place) => some (m.advance t shared place)
      | none => some (m.setState t (asleepOn channel))
  | .wakeAll channel guarded next =>
      if guarded then some ((m.wakeEverybody channel).advance t m.shared next)
      else some (m.visit t channel next)
  | .outside => none

def Action.isOutside : Action σ π → Bool
  | .outside => true
  | _ => false

def step (P : Program n σ π) (m : Machine n σ π) : Event n π → Option (Machine n σ π)
  | .act t =>
      if m.Runs t then act m t (P.action t (m.threads t).place) else none
  | .enter t place =>
      if (m.threads t).state = .ready ∧ (P.action t (m.threads t).place).isOutside ∧
          P.enters (m.threads t).place place then
        some (m.advance t m.shared place)
      else none
  | .drift t state =>
      if (P.action t (m.threads t).place).isOutside ∧ ∀ c ∈ P.channels, state ≠ asleepOn c then
        some (m.setState t state)
      else none
  | .rouse t => some (m.setState t (roused (m.threads t).state))

namespace Machine

def places (m : Machine n σ π) : Fin n → π := fun u => (m.threads u).place

@[simp] theorem places_setState (m : Machine n σ π) (t : Fin n) (state : State) :
    (m.setState t state).places = m.places := by
  funext u
  simp only [places, setState, setThread, Function.update_apply]
  split_ifs with same
  · rw [same]
  · rfl

@[simp] theorem places_advance (m : Machine n σ π) (t : Fin n) (shared : σ) (place : π) :
    (m.advance t shared place).places = Function.update m.places t place := by
  funext u
  simp only [places, advance, setThread, Function.update_apply]
  split_ifs <;> rfl

@[simp] theorem places_wakeEverybody (m : Machine n σ π) (channel : Word) :
    (m.wakeEverybody channel).places = m.places := by
  funext u
  simp only [places, wakeEverybody]
  split_ifs <;> rfl

theorem places_setThread (m : Machine n σ π) (t : Fin n) (thread : Thread π)
    (same : thread.place = (m.threads t).place) : (m.setThread t thread).places = m.places := by
  funext u
  simp only [places, setThread, Function.update_apply]
  split_ifs with here
  · rw [same, here]
  · rfl

end Machine

/-- How a task gets from one place in the code to another, and what that does to the
shared data. -/
inductive Goes (P : Program n σ π) (t : Fin n) (s : σ) (p : π) : σ → π → Prop
  | critical (body : σ → σ × π) (here : P.action t p = .critical body) :
      Goes P t s p (body s).1 (body s).2
  | passed (channel : Word) (ready : σ → Option (σ × π)) (s' : σ) (p' : π)
      (here : P.action t p = .blockUntil channel ready) (test : ready s = some (s', p')) :
      Goes P t s p s' p'
  | woke (channel : Word) (guarded : Bool) (next : π)
      (here : P.action t p = .wakeAll channel guarded next) : Goes P t s p s next
  | entered (p' : π) (here : (P.action t p).isOutside = true) (way : P.enters p p' = true) :
      Goes P t s p s p'

theorem step_places {P : Program n σ π} {m m' : Machine n σ π} {e : Event n π}
    (taken : step P m e = some m') :
    (m'.shared = m.shared ∧ m'.places = m.places) ∨
      ∃ t p', Goes P t m.shared (m.places t) m'.shared p' ∧
        m'.places = Function.update m.places t p' := by
  cases e with
  | act t =>
      simp only [step] at taken
      split_ifs at taken with running
      cases here : P.action t (m.threads t).place with
      | critical body =>
          obtain rfl := Option.some.inj (by simpa [act, here] using taken)
          exact Or.inr ⟨t, _, .critical body here, by simp⟩
      | blockUntil channel ready =>
          simp only [here, act] at taken
          cases test : ready m.shared with
          | none =>
              obtain rfl := Option.some.inj (by simpa [test] using taken)
              exact Or.inl ⟨rfl, by simp⟩
          | some found =>
              obtain rfl := Option.some.inj (by simpa [test] using taken)
              exact Or.inr ⟨t, _, .passed channel ready _ _ here test, by simp⟩
      | wakeAll channel guarded next =>
          simp only [here, act] at taken
          split_ifs at taken with whole
          · obtain rfl := Option.some.inj taken
            exact Or.inr ⟨t, _, .woke channel guarded next here, by simp⟩
          · obtain rfl := Option.some.inj taken
            simp only [Machine.visit]
            split_ifs
            · refine Or.inl ⟨rfl, (Machine.places_setThread _ _ _ ?_).trans
                (Machine.places_setState _ _ _)⟩
              rfl
            · exact Or.inl ⟨rfl, Machine.places_setThread _ _ _ rfl⟩
            · exact Or.inl ⟨rfl, Machine.places_setThread _ _ _ rfl⟩
            · exact Or.inr ⟨t, _, .woke channel guarded next here, by simp⟩
      | outside => simp [here, act] at taken
  | enter t place =>
      simp only [step] at taken
      split_ifs at taken with allowed
      obtain rfl := Option.some.inj taken
      exact Or.inr ⟨t, _, .entered place allowed.2.1 allowed.2.2, by simp⟩
  | drift t state =>
      simp only [step] at taken
      split_ifs at taken
      obtain rfl := Option.some.inj taken
      exact Or.inl ⟨rfl, by simp⟩
  | rouse t =>
      obtain rfl := Option.some.inj taken
      exact Or.inl ⟨rfl, by simp⟩

theorem reached_places {P : Program n σ π} {start : Machine n σ π → Prop}
    {allowed : Machine n σ π → Event n π → Prop} {Inv : σ → (Fin n → π) → Prop}
    (first : ∀ m, start m → Inv m.shared m.places)
    (kept : ∀ s places t s' p', Inv s places → Goes P t s (places t) s' p' →
      Inv s' (Function.update places t p'))
    {m : Machine n σ π} (reached : Reached (step P) start allowed m) :
    Inv m.shared m.places := by
  refine reached.invariant (P := fun m => Inv m.shared m.places) first ?_
  intro m e m' held _ taken
  rcases step_places taken with ⟨shared, places⟩ | ⟨t, p', goes, places⟩
  · rw [shared, places]
    exact held
  · rw [places]
    exact kept _ _ _ _ _ held goes

def standing (kind : π → Bool) (places : Fin n → π) : Finset (Fin n) :=
  Finset.univ.filter fun t => kind (places t) = true

theorem mem_standing {kind : π → Bool} {places : Fin n → π} {t : Fin n} :
    t ∈ standing kind places ↔ kind (places t) = true := by
  simp [standing]

private theorem standing_update_erase (kind : π → Bool) (places : Fin n → π) (t : Fin n) (p : π) :
    (standing kind (Function.update places t p)).erase t = (standing kind places).erase t := by
  ext u
  simp only [Finset.mem_erase, mem_standing, and_congr_right_iff]
  intro apart
  rw [Function.update_of_ne apart]

theorem card_standing_same {kind : π → Bool} {places : Fin n → π} {t : Fin n} {p : π}
    (same : kind p = kind (places t)) :
    (standing kind (Function.update places t p)).card = (standing kind places).card := by
  congr 1
  ext u
  rw [mem_standing, mem_standing, Function.update_apply]
  split_ifs with here
  · rw [same, here]
  · rfl

theorem card_standing_enter (kind : π → Bool) (places : Fin n → π) (t : Fin n) {p : π}
    (before : kind (places t) = false) (after : kind p = true) :
    (standing kind (Function.update places t p)).card = (standing kind places).card + 1 := by
  have member : t ∈ standing kind (Function.update places t p) := by
    rw [mem_standing, Function.update_self, after]
  have apart : t ∉ standing kind places := by
    rw [mem_standing, before]
    exact Bool.noConfusion
  rw [← Finset.card_erase_add_one member, standing_update_erase,
    Finset.erase_eq_of_notMem apart]

theorem card_standing_leave (kind : π → Bool) (places : Fin n → π) (t : Fin n) {p : π}
    (before : kind (places t) = true) (after : kind p = false) :
    (standing kind (Function.update places t p)).card + 1 = (standing kind places).card := by
  have member : t ∈ standing kind places := mem_standing.mpr before
  have apart : t ∉ standing kind (Function.update places t p) := by
    rw [mem_standing, Function.update_self, after]
    exact Bool.noConfusion
  rw [← Finset.card_erase_add_one member, ← standing_update_erase kind places t p,
    Finset.erase_eq_of_notMem apart]

/-- The discipline that loses no wakeup: `sleepable` says when a task may sleep on a
channel, and `owes` that a task at a place still has a `wake_all` on it before it. -/
structure Disciplined (P : Program n σ π) (sleepable : σ → Word → Prop)
    (owes : π → Word → Prop) : Prop where
  critical : ∀ t p body s c, P.action t p = .critical body → c ∈ P.channels →
    (owes p c → owes (body s).2 c) ∧
      (sleepable s c → sleepable (body s).1 c ∨ owes (body s).2 c)
  blocks : ∀ t p channel ready, P.action t p = .blockUntil channel ready →
    channel ∈ P.channels ∧ ∀ c, ¬owes p c
  tested : ∀ t p channel ready s, P.action t p = .blockUntil channel ready →
    (ready s = none ↔ sleepable s channel)
  passed : ∀ t p channel ready s s' p' c, P.action t p = .blockUntil channel ready →
    ready s = some (s', p') → c ∈ P.channels → sleepable s c → sleepable s' c ∨ owes p' c
  woken : ∀ t p channel guarded next c, P.action t p = .wakeAll channel guarded next →
    (owes p c ↔ c = channel ∨ owes next c)
  outside : ∀ t p c, (P.action t p).isOutside = true → ¬owes p c

/-- The task still has to look at slot `u` in a `wake_all` on the channel. -/
def Pending (P : Program n σ π) (owes : π → Word → Prop) (w : Fin n) (thread : Thread π)
    (c : Word) (u : Fin n) : Prop :=
  match P.action w thread.place with
  | .wakeAll channel _ next => (c = channel ∧ thread.scan ≤ u.val) ∨ owes next c
  | _ => owes thread.place c

/-- In the middle of the code, and not at a place to sleep. -/
def Working (P : Program n σ π) (t : Fin n) (p : π) : Prop :=
  (P.action t p).isOutside = false ∧ ∀ c ready, P.action t p ≠ .blockUntil c ready

/-- A working task is ready, and a task sleeps only where the code lets it. -/
structure Fit (P : Program n σ π) (t : Fin n) (thread : Thread π) : Prop where
  awake : Working P t thread.place → thread.state = .ready
  parked : ∀ c ∈ P.channels, thread.state = asleepOn c →
    ∃ ready, P.action t thread.place = .blockUntil c ready
  waiting : ∀ c ready, P.action t thread.place = .blockUntil c ready →
    thread.state = .ready ∨ thread.state = asleepOn c

/-- Whoever sleeps does so for a reason that still holds, or is about to be woken. -/
def Covered (P : Program n σ π) (sleepable : σ → Word → Prop) (owes : π → Word → Prop)
    (m : Machine n σ π) : Prop :=
  ∀ u, ∀ c ∈ P.channels, (m.threads u).state = asleepOn c →
    sleepable m.shared c ∨ ∃ w, Pending P owes w (m.threads w) c u

structure Sound (P : Program n σ π) (sleepable : σ → Word → Prop) (owes : π → Word → Prop)
    (m : Machine n σ π) : Prop where
  fit : ∀ t, Fit P t (m.threads t)
  covered : Covered P sleepable owes m

variable {P : Program n σ π} {sleepable : σ → Word → Prop} {owes : π → Word → Prop}

theorem asleepOn_ne_ready (c : Word) : asleepOn c ≠ .ready := State.noConfusion

theorem asleepOn_inj {c d : Word} (same : asleepOn c = asleepOn d) : c = d := by
  injection same with reason
  injection reason

theorem fit_ready {t : Fin n} {thread : Thread π} (ready : thread.state = .ready) :
    Fit P t thread := by
  refine ⟨fun _ => ready, fun c _ asleep => ?_, fun _ _ _ => Or.inl ready⟩
  exact absurd (asleep.symm.trans ready) (asleepOn_ne_ready c)

theorem fit_congr {t : Fin n} {thread thread' : Thread π} (fit : Fit P t thread)
    (state : thread'.state = thread.state) (place : thread'.place = thread.place) :
    Fit P t thread' := by
  refine ⟨?_, ?_, ?_⟩ <;> rw [state, place]
  exacts [fit.awake, fit.parked, fit.waiting]

section Discipline

variable (D : Disciplined P sleepable owes)

include D

theorem pending_owes {w : Fin n} {thread : Thread π} {c : Word} {u : Fin n}
    (pending : Pending P owes w thread c u) : owes thread.place c := by
  unfold Pending at pending
  split at pending
  · rename_i channel guarded next here
    exact (D.woken _ _ _ _ _ c here).mpr (pending.imp_left And.left)
  · exact pending

theorem pending_fresh {w : Fin n} {thread : Thread π} {c : Word} (u : Fin n)
    (fresh : thread.scan = 0) (owed : owes thread.place c) : Pending P owes w thread c u := by
  unfold Pending
  split
  · rename_i channel guarded next here
    exact ((D.woken _ _ _ _ _ c here).mp owed).imp_left fun same =>
      ⟨same, fresh ▸ Nat.zero_le _⟩
  · exact owed

theorem owes_working {w : Fin n} {p : π} {c : Word} (owed : owes p c) : Working P w p := by
  refine ⟨?_, fun channel ready here => (D.blocks w p channel ready here).2 c owed⟩
  cases out : (P.action w p).isOutside with
  | true => exact absurd owed (D.outside w p c out)
  | false => rfl

theorem passes_ready {m : Machine n σ π} (sound : Sound P sleepable owes m) {t : Fin n}
    (running : m.Runs t) {channel : Word} {ready : σ → Option (σ × π)}
    (here : P.action t (m.threads t).place = .blockUntil channel ready)
    (test : ready m.shared ≠ none) : (m.threads t).state = .ready := by
  rcases running with awake | nobody
  · exact awake
  · rcases (sound.fit t).waiting channel ready here with awake | asleep
    · exact awake
    · have known := (D.blocks t _ channel ready here).1
      rcases sound.covered t channel known asleep with idle | ⟨w, pending⟩
      · exact absurd ((D.tested t _ channel ready m.shared here).mpr idle) test
      · exact absurd ((sound.fit w).awake (owes_working D (pending_owes D pending))) (nobody w)

theorem advance_sound {m : Machine n σ π} (sound : Sound P sleepable owes m) {t : Fin n}
    (ready : (m.threads t).state = .ready) {s' : σ} {p' : π}
    (debts : ∀ u, ∀ c ∈ P.channels, (m.threads u).state = asleepOn c →
      Pending P owes t (m.threads t) c u → owes p' c)
    (changes : ∀ c ∈ P.channels, sleepable m.shared c → sleepable s' c ∨ owes p' c) :
    Sound P sleepable owes (m.advance t s' p') := by
  have mine : (m.advance t s' p').threads t =
      { m.threads t with place := p', scan := 0, found := false } := Function.update_self ..
  have others : ∀ u, u ≠ t → (m.advance t s' p').threads u = m.threads u :=
    fun u apart => Function.update_of_ne apart _ _
  have states : ∀ u, ((m.advance t s' p').threads u).state = (m.threads u).state := by
    intro u
    rcases eq_or_ne u t with rfl | apart
    · rw [mine]
    · rw [others u apart]
  have fresh : ∀ c u, owes p' c →
      Pending P owes t ((m.advance t s' p').threads t) c u := by
    intro c u owed
    rw [mine]
    exact pending_fresh D u rfl owed
  refine ⟨fun u => ?_, fun u c known asleep => ?_⟩
  · rcases eq_or_ne u t with rfl | apart
    · exact fit_ready ((states u).trans ready)
    · rw [others u apart]
      exact sound.fit u
  · rw [states] at asleep
    rcases sound.covered u c known asleep with idle | ⟨w, pending⟩
    · exact (changes c known idle).imp_right fun owed => ⟨t, fresh c u owed⟩
    · right
      rcases eq_or_ne w t with rfl | apart
      · exact ⟨w, fresh c u (debts u c known asleep pending)⟩
      · exact ⟨w, by rwa [others w apart]⟩

end Discipline

theorem wakes_sound {m m' : Machine n σ π} (sound : Sound P sleepable owes m)
    (shared : m'.shared = m.shared) (places : m'.places = m.places)
    (states : ∀ u, (m'.threads u).state = (m.threads u).state ∨ (m'.threads u).state = .ready)
    (scans : ∀ w u c, (m'.threads u).state = asleepOn c →
      Pending P owes w (m.threads w) c u → Pending P owes w (m'.threads w) c u) :
    Sound P sleepable owes m' := by
  refine ⟨fun u => ?_, fun u c known asleep => ?_⟩
  · rcases states u with same | ready
    · exact fit_congr (sound.fit u) same (congrFun places u)
    · exact fit_ready ready
  · have before : (m.threads u).state = asleepOn c := by
      rcases states u with same | ready
      · exact same ▸ asleep
      · exact absurd (asleep.symm.trans ready) (asleepOn_ne_ready c)
    rw [shared]
    exact (sound.covered u c known before).imp_right fun ⟨w, pending⟩ =>
      ⟨w, scans w u c asleep pending⟩

theorem scan_sound {m : Machine n σ π} (sound : Sound P sleepable owes m) {t : Fin n}
    {thread : Thread π} (state : thread.state = (m.threads t).state)
    (place : thread.place = (m.threads t).place)
    (kept : ∀ u c, (m.threads u).state = asleepOn c →
      Pending P owes t (m.threads t) c u → Pending P owes t thread c u) :
    Sound P sleepable owes (m.setThread t thread) := by
  have states : ∀ u, ((m.setThread t thread).threads u).state = (m.threads u).state := by
    intro u
    simp only [Machine.setThread, Function.update_apply]
    split_ifs with here
    · rw [state, here]
    · rfl
  refine wakes_sound sound rfl (Machine.places_setThread m t thread place)
    (fun u => Or.inl (states u)) fun w u c asleep pending => ?_
  rcases eq_or_ne w t with rfl | apart
  · simp only [Machine.setThread, Function.update_self]
    exact kept u c ((states u).symm.trans asleep) pending
  · simpa only [Machine.setThread, Function.update_of_ne apart] using pending

theorem setState_states (m : Machine n σ π) (t : Fin n) (state : State) (u : Fin n) :
    ((m.setState t state).threads u).state = if u = t then state else (m.threads u).state := by
  simp only [Machine.setState, Machine.setThread, Function.update_apply]
  split_ifs <;> rfl

theorem setState_pending (m : Machine n σ π) (t : Fin n) (state : State) (w : Fin n) (c : Word)
    (u : Fin n) : Pending P owes w ((m.setState t state).threads w) c u ↔
      Pending P owes w (m.threads w) c u := by
  simp only [Machine.setState, Machine.setThread, Function.update_apply]
  split_ifs with here
  · subst here
    rfl
  · rfl

theorem wake_sound {m : Machine n σ π} (sound : Sound P sleepable owes m) (t : Fin n)
    {state : State} (woken : state = (m.threads t).state ∨ state = .ready) :
    Sound P sleepable owes (m.setState t state) := by
  refine wakes_sound sound rfl (Machine.places_setState m t state) (fun u => ?_)
    fun w u c _ pending => (setState_pending m t state w c u).mpr pending
  rw [setState_states]
  split_ifs with here
  · exact woken.imp_left fun same => here ▸ same
  · exact Or.inl rfl

def AllOutside (P : Program n σ π) (m : Machine n σ π) : Prop :=
  ∀ t, (P.action t (m.threads t).place).isOutside = true ∧
    ∀ c ∈ P.channels, (m.threads t).state ≠ asleepOn c

theorem outside_sound {m : Machine n σ π} (outside : AllOutside P m) :
    Sound P sleepable owes m := by
  refine ⟨fun t => ⟨fun working => ?_, fun c known same => ?_, fun c ready same => ?_⟩,
    fun u c known asleep => ?_⟩
  · exact absurd working.1 (by rw [(outside t).1]; simp)
  · exact absurd same ((outside t).2 c known)
  · exact absurd (outside t).1 (by rw [same]; simp [Action.isOutside])
  · exact absurd asleep ((outside u).2 c known)

section Discipline

variable (D : Disciplined P sleepable owes)

include D

theorem visit_sound {m : Machine n σ π} (sound : Sound P sleepable owes m) {t : Fin n}
    (ready : (m.threads t).state = .ready) {channel : Word} {next : π}
    (here : P.action t (m.threads t).place = .wakeAll channel false next) :
    Sound P sleepable owes (m.visit t channel next) := by
  have split : ∀ thread : Thread π, thread.place = (m.threads t).place → ∀ c (u : Fin n),
      (Pending P owes t thread c u ↔
        (c = channel ∧ thread.scan ≤ u.val) ∨ owes next c) := by
    intro thread place c u
    simp only [Pending, place, here]
  simp only [Machine.visit]
  split_ifs with bound found asleep
  · have woken := wake_sound sound ⟨_, bound⟩ (Or.inr rfl)
    refine scan_sound woken rfl rfl fun u c sleeps pending => ?_
    rw [setState_pending, split _ rfl] at pending
    rw [split _ (by exact congrFun (Machine.places_setState m _ _) t)]
    refine pending.imp_left fun ⟨same, later⟩ => ⟨same, ?_⟩
    rw [setState_states] at sleeps
    split_ifs at sleeps with slot
    · exact absurd sleeps.symm (asleepOn_ne_ready c)
    · have apart : u.val ≠ (m.threads t).scan := fun eq => slot (Fin.ext eq)
      exact Nat.lt_of_le_of_ne later (Ne.symm apart)
  · exact scan_sound sound rfl rfl fun u c _ pending =>
      (split _ rfl c u).mpr ((split _ rfl c u).mp pending)
  · refine scan_sound sound rfl rfl fun u c sleeps pending => ?_
    refine (split { m.threads t with scan := (m.threads t).scan + 1 } rfl c u).mpr
      (((split _ rfl c u).mp pending).imp_left fun ⟨same, later⟩ => ⟨same, ?_⟩)
    have apart : u.val ≠ (m.threads t).scan := by
      intro eq
      have slot : (⟨(m.threads t).scan, bound⟩ : Fin n) = u := Fin.ext eq.symm
      rw [slot] at asleep
      exact asleep (same ▸ sleeps)
    exact Nat.lt_of_le_of_ne later (Ne.symm apart)
  · refine advance_sound D sound ready (fun u c _ _ pending => ?_) fun c _ idle => Or.inl idle
    rcases (split _ rfl c u).mp pending with ⟨-, later⟩ | owed
    · exact absurd (Nat.lt_of_le_of_lt later u.isLt) bound
    · exact owed

theorem wakeEverybody_sound {m : Machine n σ π} (sound : Sound P sleepable owes m) {t : Fin n}
    (ready : (m.threads t).state = .ready) {channel : Word} {next : π}
    (here : P.action t (m.threads t).place = .wakeAll channel true next) :
    Sound P sleepable owes ((m.wakeEverybody channel).advance t m.shared next) := by
  have states : ∀ u, ((m.wakeEverybody channel).threads u).state =
      if (m.threads u).state = asleepOn channel then .ready else (m.threads u).state := by
    intro u
    simp only [Machine.wakeEverybody]
    split_ifs <;> rfl
  have same : ∀ w c u, Pending P owes w ((m.wakeEverybody channel).threads w) c u ↔
      Pending P owes w (m.threads w) c u := by
    intro w c u
    simp only [Machine.wakeEverybody]
    split_ifs <;> rfl
  have woken : Sound P sleepable owes (m.wakeEverybody channel) := by
    refine wakes_sound sound rfl (Machine.places_wakeEverybody m channel) (fun u => ?_)
      fun w u c _ pending => (same w c u).mpr pending
    rw [states]
    split_ifs
    · exact Or.inr rfl
    · exact Or.inl rfl
  refine advance_sound D woken ?_ (fun u c _ asleep pending => ?_) fun c _ idle => Or.inl idle
  · rw [states, if_neg]
    · exact ready
    · rw [ready]
      exact (asleepOn_ne_ready channel).symm
  · rw [same] at pending
    simp only [Pending, here] at pending
    rcases pending with ⟨rfl, -⟩ | owed
    · rw [states] at asleep
      split_ifs at asleep with before
      · exact absurd asleep.symm (asleepOn_ne_ready c)
      · exact absurd asleep before
    · exact owed

theorem act_sound {m m' : Machine n σ π} (sound : Sound P sleepable owes m) {t : Fin n}
    (running : m.Runs t) (taken : act m t (P.action t (m.threads t).place) = some m') :
    Sound P sleepable owes m' := by
  cases here : P.action t (m.threads t).place with
  | critical body =>
      obtain rfl := Option.some.inj (by simpa [act, here] using taken)
      have ready := (sound.fit t).awake
        ⟨by rw [here]; rfl, by simp [here]⟩
      refine advance_sound D sound ready (fun u c known _ pending => ?_) fun c known idle => ?_
      · exact (D.critical t _ body m.shared c here known).1 (pending_owes D pending)
      · exact (D.critical t _ body m.shared c here known).2 idle
  | blockUntil channel ready =>
      simp only [here, act] at taken
      obtain ⟨known, free⟩ := D.blocks t _ channel ready here
      cases test : ready m.shared with
      | none =>
          obtain rfl := Option.some.inj (by simpa [test] using taken)
          refine ⟨fun u => ?_, fun u c known' asleep => ?_⟩
          · rcases eq_or_ne u t with rfl | apart
            · simp only [Machine.setState, Machine.setThread, Function.update_self]
              refine ⟨fun working => absurd here (working.2 channel ready), fun c _ same => ?_,
                fun c other same => ?_⟩
              · exact ⟨ready, by rw [← asleepOn_inj same]; exact here⟩
              · have equal := here.symm.trans same
                injection equal with channels
                exact Or.inr (by rw [channels])
            · simp only [Machine.setState, Machine.setThread, Function.update_of_ne apart]
              exact sound.fit u
          · rw [setState_states] at asleep
            split_ifs at asleep with slot
            · rw [← asleepOn_inj asleep]
              exact Or.inl ((D.tested t _ channel ready m.shared here).mp test)
            · exact (sound.covered u c known' asleep).imp_right fun ⟨w, pending⟩ =>
                ⟨w, (setState_pending m t _ w c u).mpr pending⟩
      | some found =>
          obtain rfl := Option.some.inj (by simpa [test] using taken)
          have awake := passes_ready D sound running here (by rw [test]; simp)
          refine advance_sound D sound awake (fun u c _ _ pending => ?_) fun c known idle => ?_
          · exact absurd (pending_owes D pending) (free c)
          · exact D.passed t _ channel ready _ _ _ c here test known idle
  | wakeAll channel guarded next =>
      have ready := (sound.fit t).awake
        ⟨by rw [here]; rfl, by simp [here]⟩
      simp only [here, act] at taken
      cases guarded with
      | true =>
          obtain rfl := Option.some.inj (by simpa using taken)
          exact wakeEverybody_sound D sound ready here
      | false =>
          obtain rfl := Option.some.inj (by simpa using taken)
          exact visit_sound D sound ready here
  | outside => simp [act, here] at taken

theorem step_sound {m m' : Machine n σ π} {e : Event n π} (sound : Sound P sleepable owes m)
    (taken : step P m e = some m') : Sound P sleepable owes m' := by
  cases e with
  | act t =>
      simp only [step] at taken
      split_ifs at taken with running
      exact act_sound D sound running taken
  | enter t place =>
      simp only [step] at taken
      split_ifs at taken with allowed
      obtain rfl := Option.some.inj taken
      refine advance_sound D sound allowed.1 (fun u c _ _ pending => ?_) fun c _ idle => Or.inl idle
      exact absurd (pending_owes D pending) (D.outside t _ c allowed.2.1)
  | drift t state =>
      simp only [step] at taken
      split_ifs at taken with allowed
      obtain rfl := Option.some.inj taken
      refine ⟨fun u => ?_, fun u c known asleep => ?_⟩
      · rcases eq_or_ne u t with rfl | apart
        · simp only [Machine.setState, Machine.setThread, Function.update_self]
          refine ⟨fun working => ?_, fun c known same => absurd same (allowed.2 c known),
            fun c ready same => ?_⟩
          · exact absurd working.1 (by rw [allowed.1]; simp)
          · exact absurd allowed.1 (by rw [same]; simp [Action.isOutside])
        · simp only [Machine.setState, Machine.setThread, Function.update_of_ne apart]
          exact sound.fit u
      · rw [setState_states] at asleep
        split_ifs at asleep with slot
        · exact absurd asleep (allowed.2 c known)
        · exact (sound.covered u c known asleep).imp_right fun ⟨w, pending⟩ =>
            ⟨w, (setState_pending m t _ w c u).mpr pending⟩
  | rouse t =>
      obtain rfl := Option.some.inj taken
      refine wake_sound sound t ?_
      unfold roused
      split
      · exact Or.inr rfl
      · exact Or.inl rfl

/-- No wakeup is lost: whoever sleeps on one of the channels may do so, or a ready task
has a `wake_all` on it still before it. -/
theorem no_lost_wakeup {start : Machine n σ π → Prop}
    {allowed : Machine n σ π → Event n π → Prop} (first : ∀ m, start m → AllOutside P m)
    {m : Machine n σ π} (reached : Reached (step P) start allowed m) {u : Fin n} {c : Word}
    (known : c ∈ P.channels) (asleep : (m.threads u).state = asleepOn c) :
    sleepable m.shared c ∨
      ∃ w, (m.threads w).state = .ready ∧ owes (m.threads w).place c := by
  have sound : Sound P sleepable owes m :=
    reached.invariant (fun m begun => outside_sound (first m begun))
      fun m e m' held _ taken => step_sound D held taken
  refine (sound.covered u c known asleep).imp_right fun ⟨w, pending⟩ => ?_
  have owed := pending_owes D pending
  exact ⟨w, (sound.fit w).awake (owes_working D owed), owed⟩

end Discipline

end FiveAM.Process.Threads
