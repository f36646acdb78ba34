/- GID: FiveAM/Process/Semaphores
   source: kernel/src/sync.rs, kernel/src/task.rs
   digest: Permits that are counted exactly, and sleepers that are woken for them. -/

import FiveAM.Process.Threads

set_option autoImplicit false
set_option relaxedAutoImplicit false

namespace FiveAM.Process.Semaphores

open FiveAM.Process.TaskTable FiveAM.Process.Threads FiveAM.Lib.Runs

/-- The semaphore's count and the variable its holders change. -/
structure Shared where
  count : BitVec 32
  counter : Word
  /-- How many read-modify-writes have been finished. -/
  updates : Nat

/-- Where a task that repeats `wait` and `signal` is. -/
inductive Place where
  | idle
  | waiting
  | inside
  | loading
  | loaded (value : Word)
  | storing (value : Word)
  | signalling
  /-- Between the `fetch_add` of `signal` and its `wake_all`. -/
  | signalled
  deriving DecidableEq

/-- `try_take`: decrement if positive, in one step. -/
def tryTake (s : Shared) : Option (Shared × Place) :=
  if s.count = 0 then none else some ({ s with count := s.count - 1 }, .inside)

def fetchAdd (s : Shared) : Shared × Place := ({ s with count := s.count + 1 }, .signalled)

def load (s : Shared) : Shared × Place := (s, .loaded s.counter)

def store (value : Word) (s : Shared) : Shared × Place :=
  ({ s with counter := value + 1, updates := s.updates + 1 }, .inside)

def action (channel : Word) : Place → Action Shared Place
  | .idle | .inside | .loaded _ => .outside
  | .waiting => .blockUntil channel tryTake
  | .loading => .critical load
  | .storing value => .critical (store value)
  | .signalling => .critical fetchAdd
  | .signalled => .wakeAll channel true .idle

/-- A task comes to the semaphore to wait; inside, it reads and later writes the
variable as often as it likes, then signals. -/
def enters : Place → Place → Bool
  | .idle, .waiting => true
  | .inside, .loading => true
  | .loaded value, .storing value' => decide (value = value')
  | .inside, .signalling => true
  | _, _ => false

def semaphore (n : Nat) (channel : Word) : Program n Shared Place where
  action _ := action channel
  enters := enters
  channels := [channel]

/-- Between a completed `wait` and the `fetch_add` of the `signal`. -/
def holds : Place → Bool
  | .inside | .loading | .loaded _ | .storing _ | .signalling => true
  | _ => false

/-- A semaphore of `c` permits that nobody has used. -/
def Unused (channel : Word) (c : BitVec 32) {n : Nat} (m : Machine n Shared Place) : Prop :=
  m.shared = ⟨c, 0, 0⟩ ∧
    ∀ t, (m.threads t).place = .idle ∧ (m.threads t).state ≠ asleepOn channel

variable {n : Nat} {channel : Word} {c : BitVec 32}

/-- The permits there are and the permits that are taken. -/
def Counted (c : BitVec 32) (s : Shared) (places : Fin n → Place) : Prop :=
  s.count.toNat + (standing holds places).card = c.toNat

private theorem take_count {count : BitVec 32} (positive : count ≠ 0) :
    (count - 1).toNat + 1 = count.toNat := by
  have nonzero : 1 ≤ count.toNat :=
    Nat.one_le_iff_ne_zero.mpr fun eq => positive (BitVec.eq_of_toNat_eq eq)
  have small : (1 : BitVec 32) ≤ count := BitVec.le_def.mpr nonzero
  rw [BitVec.toNat_sub_of_le small]
  exact Nat.sub_add_cancel nonzero

private theorem give_count {count c : BitVec 32} {held : Nat}
    (counted : count.toNat + (held + 1) = c.toNat) : (count + 1).toNat = count.toNat + 1 := by
  have bound := c.isLt
  rw [BitVec.toNat_add]
  exact Nat.mod_eq_of_lt (by rw [show (1 : BitVec 32).toNat = 1 from rfl]; omega)

theorem goes_counted {s s' : Shared} {places : Fin n → Place} {t : Fin n} {p' : Place}
    (counted : Counted c s places)
    (goes : Goes (semaphore n channel) t s (places t) s' p') :
    Counted c s' (Function.update places t p') := by
  unfold Counted at counted ⊢
  have stays : holds p' = holds (places t) →
      (standing holds (Function.update places t p')).card = (standing holds places).card :=
    card_standing_same
  have enters := @card_standing_enter _ _ holds places t p'
  have leaves := @card_standing_leave _ _ holds places t p'
  generalize places t = p at goes stays enters leaves
  cases goes with
  | critical body code =>
      cases p <;> simp only [semaphore, action, reduceCtorEq, Action.critical.injEq] at code
      · subst code
        rw [stays rfl]
        exact counted
      · subst code
        rw [stays rfl]
        exact counted
      · subst code
        have left := leaves rfl rfl
        rw [← left] at counted
        rw [show (fetchAdd s).1.count = s.count + 1 from rfl, give_count counted]
        omega
  | passed channel' ready s' p' code test =>
      cases p <;> simp only [semaphore, action, reduceCtorEq, Action.blockUntil.injEq] at code
      obtain ⟨-, rfl⟩ := code
      unfold tryTake at test
      split_ifs at test with empty
      obtain ⟨rfl, rfl⟩ := Prod.mk.inj (Option.some.inj test)
      have taken := take_count empty
      rw [enters rfl rfl]
      simp only
      omega
  | woke channel' guarded next code =>
      cases p <;> simp only [semaphore, action, reduceCtorEq, Action.wakeAll.injEq] at code
      obtain ⟨-, -, rfl⟩ := code
      rw [stays rfl]
      exact counted
  | entered p' out way =>
      have same : holds p' = holds p := by
        cases p <;> cases p' <;> first | rfl | exact absurd way Bool.noConfusion
      rw [stays same]
      exact counted

/-- The variable holds the number of finished updates, and whoever has read it for the
next one alone holds the permit. -/
def Exact (s : Shared) (places : Fin n → Place) : Prop :=
  s.counter = BitVec.ofNat 64 s.updates ∧
    ∀ t value, places t = .loaded value ∨ places t = .storing value → value = s.counter

private theorem exact_place {s s' : Shared} {places : Fin n → Place} {t : Fin n} {p' : Place}
    (exact : Exact s places) (counter : s'.counter = s.counter) (updates : s'.updates = s.updates)
    (read : ∀ value, p' = .loaded value ∨ p' = .storing value → value = s.counter) :
    Exact s' (Function.update places t p') := by
  refine ⟨by rw [counter, updates]; exact exact.1, fun u value at_ => ?_⟩
  rw [counter]
  rw [Function.update_apply] at at_
  split_ifs at at_
  · exact read value at_
  · exact exact.2 u value at_

private theorem enters_read {p p' : Place} {value : Word} (way : enters p p' = true)
    (read : p' = .loaded value ∨ p' = .storing value) : p = .loaded value := by
  rcases read with rfl | rfl
  · cases p <;> exact absurd way Bool.noConfusion
  · cases p with
    | loaded old => rw [of_decide_eq_true way]
    | _ => exact absurd way Bool.noConfusion

theorem alone {s : Shared} {places : Fin n → Place} (counted : Counted 1 s places) {t u : Fin n}
    (here : holds (places t) = true) (there : holds (places u) = true) : u = t := by
  have most : (standing holds places).card ≤ 1 := by
    have one : (1 : BitVec 32).toNat = 1 := rfl
    unfold Counted at counted
    omega
  exact Finset.card_le_one.mp most u (mem_standing.mpr there) t (mem_standing.mpr here)

theorem goes_exact {s s' : Shared} {places : Fin n → Place} {t : Fin n} {p' : Place}
    (counted : Counted 1 s places) (exact : Exact s places)
    (goes : Goes (semaphore n channel) t s (places t) s' p') :
    Exact s' (Function.update places t p') := by
  have mine := exact.2 t
  have only : ∀ u, holds (places t) = true → holds (places u) = true → u = t :=
    fun u here there => alone counted here there
  generalize places t = p at goes mine only
  cases goes with
  | critical body code =>
      cases p <;> simp only [semaphore, action, reduceCtorEq, Action.critical.injEq] at code
      · subst code
        refine exact_place exact rfl rfl fun value read => ?_
        simpa [load, eq_comm] using read
      · subst code
        rename_i stored
        refine ⟨?_, fun u value at_ => ?_⟩
        · change stored + 1 = BitVec.ofNat 64 (s.updates + 1)
          rw [mine stored (Or.inr rfl), exact.1, BitVec.ofNat_add]
          rfl
        · rw [Function.update_apply] at at_
          split_ifs at at_ with here
          · simp [store] at at_
          · refine absurd (only u rfl ?_) here
            rcases at_ with loaded | storing
            · rw [loaded]
              rfl
            · rw [storing]
              rfl
      · subst code
        exact exact_place exact rfl rfl fun value read => by simp [fetchAdd] at read
  | passed channel' ready s' p' code test =>
      cases p <;> simp only [semaphore, action, reduceCtorEq, Action.blockUntil.injEq] at code
      obtain ⟨-, rfl⟩ := code
      unfold tryTake at test
      split_ifs at test with empty
      obtain ⟨rfl, rfl⟩ := Prod.mk.inj (Option.some.inj test)
      exact exact_place exact rfl rfl fun value read => by simp at read
  | woke channel' guarded next code =>
      cases p <;> simp only [semaphore, action, reduceCtorEq, Action.wakeAll.injEq] at code
      obtain ⟨-, -, rfl⟩ := code
      exact exact_place exact rfl rfl fun value read => by simp at read
  | entered p' out way =>
      refine exact_place exact rfl rfl fun value read => ?_
      exact mine value (Or.inl (enters_read way read))

theorem disciplined : Disciplined (semaphore n channel) (fun s _ => s.count = 0)
    (fun p c => p = .signalled ∧ c = channel) where
  critical t p body s c code known := by
    have same : c = channel := by simpa [semaphore] using known
    cases p <;> simp only [semaphore, action, reduceCtorEq, Action.critical.injEq] at code
    · subst code
      exact ⟨fun debt => absurd debt.1 (by simp), Or.inl⟩
    · subst code
      exact ⟨fun debt => absurd debt.1 (by simp), Or.inl⟩
    · subst code
      exact ⟨fun debt => absurd debt.1 (by simp), fun _ => Or.inr ⟨rfl, same⟩⟩
  blocks t p c ready code := by
    cases p <;> simp only [semaphore, action, reduceCtorEq, Action.blockUntil.injEq] at code
    exact ⟨by simp [semaphore, code.1], fun _ debt => absurd debt.1 (by simp)⟩
  tested t p c ready s code := by
    cases p <;> simp only [semaphore, action, reduceCtorEq, Action.blockUntil.injEq] at code
    obtain ⟨-, rfl⟩ := code
    simp [tryTake]
  passed t p c ready s s' p' c' code test known idle := by
    cases p <;> simp only [semaphore, action, reduceCtorEq, Action.blockUntil.injEq] at code
    obtain ⟨-, rfl⟩ := code
    simp [tryTake, idle] at test
  woken t p c guarded next c' code := by
    cases p <;> simp only [semaphore, action, reduceCtorEq, Action.wakeAll.injEq] at code
    obtain ⟨rfl, -, rfl⟩ := code
    simp
  outside t p c out := by
    rintro ⟨rfl, -⟩
    exact absurd out (by simp [semaphore, action, Action.isOutside])

/-- In every state of every run the permits add up, so no more than `c` tasks are inside;
whoever sleeps while there is a permit is about to be woken; and with one permit no
update of the variable is lost. -/
theorem semaphore_correct {m : Machine n Shared Place}
    (reached : Reached (step (semaphore n channel)) (Unused channel c) (fun _ _ => True) m) :
    m.shared.count.toNat + (standing holds m.places).card = c.toNat ∧
      (standing holds m.places).card ≤ c.toNat ∧
      (∀ u, (m.threads u).state = asleepOn channel → m.shared.count ≠ 0 →
        ∃ w, (m.threads w).state = .ready ∧ (m.threads w).place = .signalled) ∧
      (c = 1 → m.shared.counter = BitVec.ofNat 64 m.shared.updates) := by
  have fresh : ∀ m : Machine n Shared Place, Unused channel c m → Counted c m.shared m.places := by
    intro m unused
    have nobody : standing holds m.places = ∅ := by
      refine Finset.eq_empty_of_forall_notMem fun t member => ?_
      rw [mem_standing, Machine.places, (unused.2 t).1] at member
      exact absurd member Bool.noConfusion
    simp [Counted, nobody, unused.1]
  have counted := reached_places fresh
    (fun s places t s' p' held goes => goes_counted held goes) reached
  refine ⟨counted, counted ▸ Nat.le_add_left _ _, fun u asleep free => ?_, ?_⟩
  · have covered := no_lost_wakeup disciplined (fun m unused t => ?_) reached
      (List.mem_singleton_self channel) asleep
    · rcases covered with empty | ⟨w, ready, debt, -⟩
      · exact absurd empty free
      · exact ⟨w, ready, debt⟩
    · refine ⟨by rw [(unused.2 t).1]; rfl, fun c known => ?_⟩
      rw [List.mem_singleton.mp known]
      exact (unused.2 t).2
  · rintro rfl
    have both := @reached_places _ _ _ _ _ _ (fun s places => Counted 1 s places ∧ Exact s places)
      (fun m unused => ⟨fresh m unused, ?_⟩)
      (fun s places t s' p' held goes =>
        ⟨goes_counted held.1 goes, goes_exact held.1 held.2 goes⟩) _ reached
    · exact both.2.1
    · refine ⟨by rw [unused.1]; rfl, fun t value at_ => ?_⟩
      rw [Machine.places, (unused.2 t).1] at at_
      simp at at_

/-- Two tasks of which one is inside and the other asleep on the only permit. -/
def contended : Machine 2 Shared Place :=
  (runAll (step (semaphore 2 0x5000)) ⟨⟨1, 0, 0⟩, fun _ => ⟨.ready, .idle, 0, false⟩⟩
    [.enter 0 .waiting, .act 0, .enter 1 .waiting, .act 1]).get (by decide)

theorem semaphore_correct_contended :
    contended.shared.count.toNat + (standing holds contended.places).card = (1 : BitVec 32).toNat ∧
      (standing holds contended.places).card ≤ (1 : BitVec 32).toNat ∧
      (∀ u, (contended.threads u).state = asleepOn 0x5000 → contended.shared.count ≠ 0 →
        ∃ w, (contended.threads w).state = .ready ∧ (contended.threads w).place = .signalled) ∧
      ((1 : BitVec 32) = 1 → contended.shared.counter = BitVec.ofNat 64 contended.shared.updates) := by
  refine semaphore_correct (Reached.runAll (.start ⟨rfl, fun t => ⟨rfl, ?_⟩⟩)
    (allAllowed_of_forall (fun _ _ _ => trivial) _) (Option.some_get _).symm)
  exact (asleepOn_ne_ready _).symm

end FiveAM.Process.Semaphores
