/- GID: FiveAM/Userland/PipeOutput
   source: userland/src/sh.rs, userland/src/upper.rs, kernel/src/pipe.rs, kernel/src/task.rs
   digest: Everything the left program of a pipeline writes reaches the console in capitals. -/

import FiveAM.Userland.Pipeline

set_option autoImplicit false
set_option relaxedAutoImplicit false

namespace FiveAM.Userland.PipeOutput

open FiveAM.Process.TaskTable FiveAM.Process.Machine FiveAM.Process.Pipes
open FiveAM.Process.Lifecycle FiveAM.Process.Syscalls FiveAM.Process.Effects
open FiveAM.Process.PipeEnds FiveAM.Lib.ByteMemory
open FiveAM.Process.PipeRuns (Ring contents pushed popped push_contents pop_contents)
open FiveAM.Userland.Pipeline

section Invariant

variable (c : Opened)

/-- So many of its calls a process has made, and its table shows it. -/
def Made (k : Kernel) (id : TaskId) (calls todo : List Call) : Prop :=
  ∃ made, made ++ todo = calls ∧ Owns k id (c.after made)

def ShellAt (k : Kernel) : Shell → Prop
  | .forkLeft | .forkRight => Owns k c.shell c.files
  | .closing todo => Made c k c.shell c.closes todo

/-- A process that is over, still to be waited for. -/
def Over (k : Kernel) (id : TaskId) : Prop :=
  (k.tasks id).state ≠ .free ∧ NoEnds (k.tasks id).files

def WriterAt (k : Kernel) (id : TaskId) : Writer → Prop
  | .setup todo => Made c k id c.left todo
  | .running _ => Owns k id (c.after c.left)
  | .gone => Over k id

def FilterAt (k : Kernel) (id : TaskId) : Filter → Prop
  | .setup todo => Made c k id c.right todo
  | .reading | .holding _ => Owns k id (c.after c.right)
  | .ended | .failed => Over k id

def Free (files : Files) : Prop :=
  ∀ fd, files fd ≠ .pipeRead c.pipe ∧ files fd ≠ .pipeWrite c.pipe

/-- What the kernel has still to take of the left program's last write. -/
def pending (s : World) : List Byte :=
  match s.left with
  | some (_, .running bytes) => bytes
  | _ => []

/-- What `upper.elf` has read and not yet shown. -/
def held (s : World) : List Byte :=
  match s.right with
  | some (_, .holding bytes) => bytes
  | _ => []

def Flowing (s : World) : Prop :=
  (s.right = none → s.shell = .forkLeft ∨ s.shell = .forkRight) ∧ ∀ id, s.right ≠ some (id, .failed)

/-- One of the three is still at it, so the pipe is theirs. -/
def Active (s : World) : Prop :=
  s.shell ≠ .closing [] ∨ (∃ id w, s.left = some (id, w) ∧ w ≠ .gone) ∨
    ∃ id r, s.right = some (id, r) ∧ r ≠ .ended ∧ r ≠ .failed

/-- The pipe between the two programs, and where the bytes are. -/
structure Live (s : World) : Prop where
  others : ∀ id, id ≠ c.shell → (∀ w, s.left ≠ some (id, w)) → (∀ r, s.right ≠ some (id, r)) →
    Free c (s.kernel.tasks id).files
  ring : Ring (s.kernel.pipes c.pipe)
  flow : Flowing s → ∃ taken, s.wrote = taken ++ (contents (s.kernel.pipes c.pipe) ++ pending s) ∧
    ((∀ b ∈ taken, b.toNat < 128) → s.shown ++ (held s).map toAsciiUppercase =
      taken.map toAsciiUppercase)

/-- Everything the left program wrote has been shown in capitals, and it is over. -/
structure Complete (s : World) : Prop where
  gone : ∀ id w, s.left = some (id, w) → w = .gone
  shown : (∀ b ∈ s.wrote, b.toNat < 128) → s.shown = s.wrote.map toAsciiUppercase

structure Inv (s : World) : Prop where
  tidy : Tidy s.kernel
  shell : ShellAt c s.kernel s.shell
  left : ∀ id w, s.left = some (id, w) → id ≠ c.shell ∧ WriterAt c s.kernel id w
  right : ∀ id r, s.right = some (id, r) → id ≠ c.shell ∧ FilterAt c s.kernel id r
  apart : ∀ id w id' r, s.left = some (id, w) → s.right = some (id', r) → id ≠ id'
  first : s.shell = .forkLeft → s.left = none
  second : s.shell = .forkLeft ∨ s.shell = .forkRight → s.right = none
  live : Active s → Live c s
  ended : ∀ id, s.right = some (id, .ended) → Complete s

/-- What the rest of the machine does meanwhile: the pipe is not theirs until the three are over. -/
structure Aside (s : World) (k : Kernel) : Prop where
  tidy : Tidy s.kernel → Tidy k
  shell : Apart s.kernel k c.shell
  left : ∀ id w, s.left = some (id, w) → Apart s.kernel k id
  right : ∀ id r, s.right = some (id, r) → Apart s.kernel k id
  others : Active s → ∀ id, id ≠ c.shell → (∀ w, s.left ≠ some (id, w)) →
    (∀ r, s.right ≠ some (id, r)) → Free c (k.tasks id).files
  pipe : Active s → k.pipes c.pipe = s.kernel.pipes c.pipe

/-- The runs of the three processes, whatever other tasks do in between. -/
inductive Reached (start : World) : World → Prop where
  | start : Reached start start
  | step {s s' : World} {e : Event} : Reached start s →
      step c.shell c.readEnd c.writeEnd s e = some s' → Reached start s'
  | other {s : World} {k : Kernel} : Reached start s → Aside c s k →
      Reached start { s with kernel := k }

variable {c} {k k' : Kernel} {id : TaskId}

theorem Made.apart {calls todo : List Call} (made : Made c k id calls todo)
    (apart : Apart k k' id) :
    Made c k' id calls todo := by
  obtain ⟨before, whole, owns⟩ := made
  exact ⟨before, whole, owns.apart apart⟩

theorem Made.next {call : Call} {calls todo : List Call} (made : Made c k id calls (call :: todo)) :
    Made c (perform k id call) id calls todo := by
  obtain ⟨before, whole, owns⟩ := made
  refine ⟨before ++ [call], by rw [List.append_assoc]; exact whole, ?_⟩
  have next := owns.perform call
  rwa [Opened.after, List.foldl_append]

theorem Made.held {calls todo : List Call} (made : Made c k id calls todo) :
    (k.tasks id).state ≠ .free := by
  obtain ⟨before, -, owns⟩ := made
  exact owns.held

theorem ShellAt.apart {shell : Shell} (at' : ShellAt c k shell) (apart : Apart k k' c.shell) :
    ShellAt c k' shell := by
  cases shell with
  | forkLeft => exact Owns.apart at' apart
  | forkRight => exact Owns.apart at' apart
  | closing todo => exact Made.apart at' apart

theorem Over.apart (over' : Over k id) (apart : Apart k k' id) : Over k' id :=
  ⟨fun none => over'.1 (apart.2.mp none), by rw [apart.1]; exact over'.2⟩

theorem WriterAt.apart {w : Writer} (at' : WriterAt c k id w) (apart : Apart k k' id) :
    WriterAt c k' id w := by
  cases w with
  | setup todo => exact Made.apart at' apart
  | running bytes => exact Owns.apart at' apart
  | gone => exact Over.apart at' apart

theorem FilterAt.apart {r : Filter} (at' : FilterAt c k id r) (apart : Apart k k' id) :
    FilterAt c k' id r := by
  cases r with
  | setup todo => exact Made.apart at' apart
  | reading => exact Owns.apart at' apart
  | holding bytes => exact Owns.apart at' apart
  | ended => exact Over.apart at' apart
  | failed => exact Over.apart at' apart

theorem ShellAt.held {shell : Shell} (at' : ShellAt c k shell) :
    (k.tasks c.shell).state ≠ .free := by
  cases shell with
  | forkLeft => exact Owns.held at'
  | forkRight => exact Owns.held at'
  | closing todo => exact Made.held at'

theorem WriterAt.held {w : Writer} (at' : WriterAt c k id w) : (k.tasks id).state ≠ .free := by
  cases w with
  | setup todo => exact Made.held at'
  | running bytes => exact Owns.held at'
  | gone => exact at'.1

theorem FilterAt.held {r : Filter} (at' : FilterAt c k id r) : (k.tasks id).state ≠ .free := by
  cases r with
  | setup todo => exact Made.held at'
  | reading => exact Owns.held at'
  | holding bytes => exact Owns.held at'
  | ended => exact at'.1
  | failed => exact at'.1

end Invariant

section Ends

variable {c : Opened} {s : World} {k k' : Kernel} {id : TaskId}

/-- What is left of the invariant when one process has made a call. -/
structure Around (c : Opened) (s : World) (k : Kernel) (id : TaskId) : Prop where
  tidy : Tidy k
  ring : Ring (k.pipes c.pipe)
  shell : c.shell ≠ id → ShellAt c k s.shell
  left : ∀ j w, s.left = some (j, w) → j ≠ id → WriterAt c k j w
  right : ∀ j r, s.right = some (j, r) → j ≠ id → FilterAt c k j r
  others : ∀ j, j ≠ id → j ≠ c.shell → (∀ w, s.left ≠ some (j, w)) →
    (∀ r, s.right ≠ some (j, r)) → Free c (k.tasks j).files

theorem Inv.self (inv : Inv c s) (active : Active s) (id : TaskId) :
    Around c s s.kernel id where
  tidy := inv.tidy
  ring := (inv.live active).ring
  shell _ := inv.shell
  left j w here _ := (inv.left j w here).2
  right j r here _ := (inv.right j r here).2
  others j _ shell here right := (inv.live active).others j shell here right

theorem Around.next (around : Around c s k id) (arranges : Arranges k k' id)
    (held : (k.tasks id).state ≠ .free) : Around c s k' id where
  tidy := arranges.tidy around.tidy held
  ring := ((arranges.rings c.pipe).kept around.ring).1
  shell other := (around.shell other).apart (arranges.apart other)
  left j w here other := (around.left j w here other).apart (arranges.apart other)
  right j r here other := (around.right j r here other).apart (arranges.apart other)
  others j other shell left right := by
    rw [arranges.files j other]
    exact around.others j other shell left right

theorem Inv.around (inv : Inv c s) (active : Active s) (arranges : Arranges s.kernel k id)
    (held : (s.kernel.tasks id).state ≠ .free) : Around c s k id :=
  (inv.self active id).next arranges held

theorem after_all {calls : List Call} (made : Made c k id calls []) :
    Owns k id (c.after calls) := by
  obtain ⟨before, whole, owns⟩ := made
  rw [List.append_nil] at whole
  exact whole ▸ owns

private theorem readers_of_held {fd : Fin maxFiles} {p : PipeId} (tidy : Tidy k)
    (held : (k.tasks id).files fd = .pipeRead p) : (k.pipes p).readers ≠ 0 := by
  have listed := descriptor_listed held
  have counts := tidy.balanced.readers p
  omega

private theorem writers_of_held {fd : Fin maxFiles} {p : PipeId} (tidy : Tidy k)
    (held : (k.tasks id).files fd = .pipeWrite p) : (k.pipes p).writers ≠ 0 := by
  have listed := descriptor_listed held
  have counts := tidy.balanced.writers p
  omega

theorem WriterAt.writes {w : Writer} (at' : WriterAt c k id w) (alive : w ≠ .gone) :
    ∃ fd, (k.tasks id).files fd = .pipeWrite c.pipe := by
  cases w with
  | setup todo =>
      obtain ⟨made, calls, owns⟩ := at'
      rw [owns.files]
      exact left_holds calls
  | running bytes =>
      rw [Owns.files at']
      exact ⟨1, left_standard⟩
  | gone => exact absurd rfl alive

theorem FilterAt.reads {r : Filter} (at' : FilterAt c k id r) (alive : r ≠ .ended)
    (working : r ≠ .failed) : ∃ fd, (k.tasks id).files fd = .pipeRead c.pipe := by
  cases r with
  | setup todo =>
      obtain ⟨made, calls, owns⟩ := at'
      rw [owns.files]
      exact right_holds calls
  | reading =>
      rw [Owns.files at']
      exact ⟨0, right_standard.1⟩
  | holding bytes =>
      rw [Owns.files at']
      exact ⟨0, right_standard.1⟩
  | ended => exact absurd rfl alive
  | failed => exact absurd rfl working

theorem Inv.readers (inv : Inv c s) (flowing : Flowing s) {bytes : List Byte}
    (running : s.left = some (id, .running bytes)) : (s.kernel.pipes c.pipe).readers ≠ 0 := by
  cases right : s.right with
  | none =>
      rcases flowing.1 right with first | second
      · rw [inv.first first] at running
        cases running
      · have owns : Owns s.kernel c.shell c.files := by
          have at' := inv.shell
          rwa [second] at at'
        have held : (s.kernel.tasks c.shell).files c.readEnd = .pipeRead c.pipe := by
          rw [owns.files]
          exact (c.reads c.readEnd).mpr rfl
        exact readers_of_held inv.tidy held
  | some r =>
      obtain ⟨j, r⟩ := r
      have working : r ≠ .failed := fun failed => flowing.2 j (by rw [right, failed])
      have alive : r ≠ .ended := by
        rintro rfl
        cases (inv.ended j right).gone id _ running
      obtain ⟨fd, held⟩ := (inv.right j r right).2.reads alive working
      exact readers_of_held inv.tidy held

theorem stdout_left (owns : Owns k id (c.after c.left)) :
    descriptor k id stdout = .pipeWrite c.pipe := by
  refine (dif_pos (by decide)).trans ?_
  rw [owns.files]
  exact left_standard

theorem stdin_right (owns : Owns k id (c.after c.right)) :
    descriptor k id stdin = .pipeRead c.pipe := by
  refine (dif_pos (by decide)).trans ?_
  rw [owns.files]
  exact right_standard.1

theorem stdout_right (owns : Owns k id (c.after c.right)) : descriptor k id stdout = .console := by
  refine (dif_pos (by decide)).trans ?_
  rw [owns.files]
  exact right_standard.2

theorem Inv.writers (inv : Inv c s) {w : Writer} (left : s.left = some (id, w))
    (none : (s.kernel.pipes c.pipe).writers = 0) : w = .gone := by
  by_contra alive
  obtain ⟨fd, held⟩ := (inv.left id w left).2.writes alive
  exact writers_of_held inv.tidy held none

end Ends

section Shells

variable {c : Opened} {s s' : World}

private theorem not_ended {r : Option (TaskId × Filter)} (none : r = none) (id : TaskId) :
    r ≠ some (id, .ended) := by
  rw [none]
  exact fun same => by cases same

private theorem inv_shell {space : Option Root} {stack frame : Word} (inv : Inv c s)
    (moved : shellStep c.shell c.readEnd c.writeEnd s space stack frame = some s') : Inv c s' := by
  cases stage : s.shell with
  | forkLeft =>
      have owns : Owns s.kernel c.shell c.files := by
        have at' := inv.shell
        rwa [stage] at at'
      have alone := inv.first stage
      have idle := inv.second (Or.inl stage)
      have live := inv.live (Or.inl fun same => by rw [stage] at same; cases same)
      rcases forkChild_cases s.kernel c.shell space stack frame inv.tidy with
        full | ⟨id, k, made, tidy, vacant, child, others, rings⟩
      · simp only [shellStep, stage, full, Option.map_none, Option.some.injEq] at moved
        subst moved
        refine ⟨inv.tidy, owns, fun _ _ none => (by cases none), inv.right,
          fun _ _ _ _ none => (by cases none), fun _ => rfl, fun _ => idle,
          fun _ => ⟨fun id shell _ right => live.others id shell (fun w left => by
            simp [alone] at left) right, live.ring, fun _ => ?_⟩,
          fun id right => absurd right (not_ended idle id)⟩
        obtain ⟨taken, whole, shows⟩ := live.flow ⟨fun _ => Or.inl stage, fun id => by simp [idle]⟩
        rw [show pending s = [] by simp [pending, alone]] at whole
        exact ⟨taken, whole, shows⟩
      · simp only [shellStep, stage, made, Option.map_some, Option.some.injEq] at moved
        subst moved
        have other : c.shell ≠ id := by
          rintro rfl
          exact owns.held vacant
        have shell : Apart s.kernel k c.shell := by
          rw [Apart, others _ other]
          exact ⟨rfl, Iff.rfl⟩
        obtain ⟨ring, same⟩ := (rings c.pipe).kept live.ring
        refine ⟨tidy, owns.apart shell, fun j w left => ?_, fun j r right => ?_,
          fun _ _ _ _ _ right => ?_, fun none => (by cases none), fun _ => idle,
          fun _ => ⟨fun j notShell left right => ?_, ring, fun _ => ?_⟩,
          fun id right => absurd right (not_ended idle id)⟩
        · obtain ⟨rfl, rfl⟩ := Prod.mk.inj (Option.some.inj left)
          rw [owns.files] at child
          exact ⟨other.symm, [], rfl, child⟩
        · simp [idle] at right
        · simp [idle] at right
        · have apart : j ≠ id := by
            rintro rfl
            exact left _ rfl
          simp only [others j apart]
          exact live.others j notShell (fun w left => by simp [alone] at left) right
        · obtain ⟨taken, whole, shows⟩ := live.flow
            ⟨fun _ => Or.inl stage, fun id => by simp [idle]⟩
          rw [show pending s = [] by simp [pending, alone], ← same] at whole
          exact ⟨taken, whole, shows⟩
  | forkRight =>
      have owns : Owns s.kernel c.shell c.files := by
        have at' := inv.shell
        rwa [stage] at at'
      have idle := inv.second (Or.inr stage)
      have live := inv.live (Or.inl fun same => by rw [stage] at same; cases same)
      have nothing : held s = [] := by simp [held, idle]
      rcases forkChild_cases s.kernel c.shell space stack frame inv.tidy with
        full | ⟨id, k, made, tidy, vacant, child, others, rings⟩
      · simp only [shellStep, stage, full, Option.map_none, Option.some.injEq] at moved
        subst moved
        refine ⟨inv.tidy, ⟨[], rfl, owns⟩, inv.left, fun _ _ none => (by cases none),
          fun _ _ _ _ _ none => (by cases none), fun none => (by cases none), fun _ => rfl,
          fun _ => ⟨fun id shell left _ => live.others id shell left fun r right => by
            simp [idle] at right, live.ring, fun flowing => ?_⟩, fun _ none => (by cases none)⟩
        rcases flowing.1 rfl with none | none <;> cases none
      · simp only [shellStep, stage, made, Option.map_some, Option.some.injEq] at moved
        subst moved
        have occupied : ∀ j, (s.kernel.tasks j).state ≠ .free → j ≠ id := by
          rintro j held rfl
          exact held vacant
        have apart : ∀ j, j ≠ id → Apart s.kernel k j := by
          intro j other
          rw [Apart, others j other]
          exact ⟨rfl, Iff.rfl⟩
        have other := occupied c.shell owns.held
        obtain ⟨ring, same⟩ := (rings c.pipe).kept live.ring
        refine ⟨tidy, ⟨[], rfl, owns.apart (apart _ other)⟩, fun j w left => ?_,
          fun j r right => ?_,
          fun j w j' r left right => ?_, fun none => (by cases none),
          fun none => (by rcases none with none | none <;> cases none),
          fun _ => ⟨fun j notShell left right => ?_, ring, fun _ => ?_⟩, fun _ right => ?_⟩
        · obtain ⟨notShell, at'⟩ := inv.left j w left
          exact ⟨notShell, at'.apart (apart j (occupied j at'.held))⟩
        · obtain ⟨rfl, rfl⟩ := Prod.mk.inj (Option.some.inj right)
          rw [owns.files] at child
          exact ⟨other.symm, [], rfl, child⟩
        · obtain ⟨rfl, rfl⟩ := Prod.mk.inj (Option.some.inj right)
          exact occupied j (inv.left j w left).2.held
        · have distinct : j ≠ id := by
            rintro rfl
            exact right _ rfl
          simp only [others j distinct]
          exact live.others j notShell left fun r right => by simp [idle] at right
        · obtain ⟨taken, whole, shows⟩ := live.flow
            ⟨fun _ => Or.inr stage, fun id => by simp [idle]⟩
          rw [← same] at whole
          rw [nothing] at shows
          exact ⟨taken, whole, shows⟩
        · cases (Prod.mk.inj (Option.some.inj right)).2
  | closing todo =>
      cases todo with
      | nil => simp [shellStep, stage] at moved
      | cons call todo =>
          simp only [shellStep, stage, Option.some.injEq] at moved
          subst moved
          have at' := inv.shell
          rw [stage] at at'
          have active : Active s := Or.inl fun same => by rw [stage] at same; cases same
          have live := inv.live active
          have arranges := perform_arranges s.kernel c.shell call
          have around := inv.around active arranges (ShellAt.held at')
          have kept := ((arranges.rings c.pipe).kept live.ring).2
          refine ⟨around.tidy, Made.next at', fun id w left => ?_, fun id r right => ?_, inv.apart,
            fun same => (by cases same),
            fun same => (by rcases same with same | same <;> cases same),
            fun _ => ⟨fun id shell left right => around.others id shell shell left right,
              around.ring, ?_⟩,
            fun id right => ⟨(inv.ended id right).gone, (inv.ended id right).shown⟩⟩
          · have apart := (inv.left id w left).1
            exact ⟨apart, around.left id w left apart⟩
          · have apart := (inv.right id r right).1
            exact ⟨apart, around.right id r right apart⟩
          · intro flowing
            have before : Flowing s := ⟨fun none => (by simpa using flowing.1 none), flowing.2⟩
            obtain ⟨taken, whole, shows⟩ := live.flow before
            rw [← kept] at whole
            exact ⟨taken, whole, shows⟩

end Shells

section Writers

variable {c : Opened} {s s' : World} {id : TaskId}

private theorem inv_left {w : Writer} (w' : Writer) {k : Kernel} (inv : Inv c s)
    (active : Active s) (left : s.left = some (id, w)) (around : Around c s k id)
    (at' : WriterAt c k id w') (going : ∀ j, s.right ≠ some (j, .ended)) {wrote : List Byte}
    (flow : Flowing s → ∀ taken,
      s.wrote = taken ++ (contents (s.kernel.pipes c.pipe) ++ pending s) →
      wrote = taken ++ (contents (k.pipes c.pipe) ++ pending { s with left := some (id, w') })) :
    Inv c { s with kernel := k, left := some (id, w'), wrote := wrote } := by
  have notShell := (inv.left id w left).1
  refine ⟨around.tidy, around.shell notShell.symm, fun j v here => ?_, fun j r right => ?_,
    fun j v j' r here right => ?_, fun first => ?_, inv.second,
    fun _ => ⟨fun j shell other right => ?_, around.ring, fun flowing => ?_⟩,
    fun j right => absurd right (going j)⟩
  · obtain ⟨rfl, rfl⟩ := Prod.mk.inj (Option.some.inj here)
    exact ⟨notShell, at'⟩
  · have apart := inv.apart id w j r left right
    exact ⟨(inv.right j r right).1, around.right j r right apart.symm⟩
  · obtain ⟨rfl, rfl⟩ := Prod.mk.inj (Option.some.inj here)
    exact inv.apart id w j' r left right
  · have none := inv.first first
    rw [left] at none
    cases none
  · have apart : j ≠ id := by
      rintro rfl
      exact other w' rfl
    refine around.others j apart shell (fun v here => ?_) right
    rw [left] at here
    exact apart (Prod.mk.inj (Option.some.inj here)).1.symm
  · obtain ⟨taken, whole, shows⟩ := (inv.live active).flow flowing
    exact ⟨taken, flow flowing taken whole, shows⟩

private theorem around_transfer {k : Kernel} {pipe : Pipe} (inv : Inv c s) (active : Active s)
    (transfers : Transfers s.kernel k c.pipe pipe) (ring : Ring pipe) (id : TaskId) :
    Around c s k id where
  tidy := transfers.tidy inv.tidy
  ring := by rw [transfers.moved]; exact ring
  shell _ := inv.shell.apart (transfers.apart _)
  left j v here _ := (inv.left j v here).2.apart (transfers.apart _)
  right j r here _ := (inv.right j r here).2.apart (transfers.apart _)
  others j _ shell here right := by
    rw [(transfers.apart j).1]
    exact (inv.live active).others j shell here right

theorem writeOnce_cases (pipe : Pipe) (bytes : List Byte) :
    (pipe.readers = 0 ∧ writeOnce pipe bytes = (none, pipe)) ∨
    (pipe.readers ≠ 0 ∧ capacity ≤ pipe.len ∧ writeOnce pipe bytes = (some 0, pipe)) ∨
    (pipe.readers ≠ 0 ∧ pipe.len < capacity ∧ ∃ count,
      count = min (capacity - pipe.len) bytes.length ∧
        writeOnce pipe bytes = (some count, pushed pipe (bytes.take count))) := by
  unfold writeOnce
  by_cases nobody : pipe.readers = 0
  · exact Or.inl ⟨nobody, if_pos nobody⟩
  · by_cases full : capacity - pipe.len = 0
    · refine Or.inr (Or.inl ⟨nobody, by omega, ?_⟩)
      rw [if_neg nobody]
      exact if_pos full
    · refine Or.inr (Or.inr ⟨nobody, by omega, _, rfl, ?_⟩)
      have length : (bytes.take (min (capacity - pipe.len) bytes.length)).length =
          min (capacity - pipe.len) bytes.length := by
        rw [List.length_take]
        omega
      rw [if_neg nobody, pushed, length]
      exact if_neg full

/-- One pass of `pipe::write`: the front of what is pending goes into the pipe, unless nobody is
left to read. -/
theorem writePass_cases {k : Kernel} {bytes rest : List Byte} (live : Live c s)
    (owns : Owns s.kernel id (c.after c.left))
    (pass : writePass s.kernel id bytes = some (k, rest)) :
    (k = s.kernel ∧ rest = [] ∧ (s.kernel.pipes c.pipe).readers = 0) ∨
    ∃ pipe, Transfers s.kernel k c.pipe pipe ∧ Ring pipe ∧ rest.length < bytes.length ∧
      contents pipe ++ rest = contents (s.kernel.pipes c.pipe) ++ bytes := by
  have standard := stdout_left owns
  have counts := writeOnce_counts (s.kernel.pipes c.pipe) bytes
  simp only [writePass, standard] at pass
  rcases writeOnce_cases (s.kernel.pipes c.pipe) bytes with
    ⟨nobody, once⟩ | ⟨-, -, once⟩ | ⟨-, room, count, least, once⟩
  · simp only [once, Option.some.injEq, Prod.mk.injEq] at pass
    exact Or.inl ⟨pass.1.symm, pass.2.symm, nobody⟩
  · simp [once] at pass
  · rw [once] at counts
    simp only [once] at pass
    split_ifs at pass with none'
    obtain ⟨rfl, rfl⟩ := Prod.mk.inj (Option.some.inj pass)
    have length : (bytes.take count).length = count := by
      rw [List.length_take]
      omega
    have stored := push_contents live.ring (bytes.take count) (by rw [length]; omega)
    refine Or.inr ⟨_, transfers counts _ _, stored.1, ?_, ?_⟩
    · rw [List.length_drop]
      omega
    · rw [pushed, stored.2, List.append_assoc, List.take_append_drop]

private theorem inv_writer {choice : Choice} (inv : Inv c s) (moved : leftStep s choice = some s') :
    Inv c s' := by
  cases left : s.left with
  | none => simp [leftStep, left] at moved
  | some l =>
      obtain ⟨id, w⟩ := l
      obtain ⟨notShell, at'⟩ := inv.left id w left
      have unended : w ≠ .gone → ∀ j, s.right ≠ some (j, .ended) :=
        fun alive j right => alive ((inv.ended j right).gone id w left)
      cases w with
      | gone => simp [leftStep, left] at moved
      | setup todo =>
          have alive : Writer.setup todo ≠ .gone := fun same => by cases same
          have going := unended alive
          have active : Active s := Or.inr (Or.inl ⟨id, _, left, alive⟩)
          have live := inv.live active
          have self := inv.self active id
          have before : pending s = [] := by simp [pending, left]
          cases todo with
          | nil =>
              simp only [leftStep, left, Option.some.injEq] at moved
              subst moved
              refine inv_left (.running []) inv active left self (after_all at')
                going fun _ taken whole => ?_
              rwa [before] at whole
          | cons call todo =>
              simp only [leftStep, left, Option.some.injEq] at moved
              subst moved
              have arranges := perform_arranges s.kernel id call
              refine inv_left (.setup todo) inv active left
                (inv.around active arranges (Made.held at')) (Made.next at') going
                fun _ taken whole => ?_
              rwa [before, ← ((arranges.rings c.pipe).kept live.ring).2] at whole
      | running bytes =>
          have alive : Writer.running bytes ≠ .gone := fun same => by cases same
          have going := unended alive
          have active : Active s := Or.inr (Or.inl ⟨id, _, left, alive⟩)
          have live := inv.live active
          have self := inv.self active id
          cases bytes with
          | nil =>
              have before : pending s = [] := by simp [pending, left]
              cases choice with
              | write data =>
                  simp only [leftStep, left] at moved
                  split_ifs at moved
                  · exact Option.some.inj moved ▸ inv
                  · simp only [Option.some.injEq] at moved
                    subst moved
                    refine inv_left (.running data) inv active left self at'
                      going fun _ taken whole => ?_
                    rw [whole, before, List.append_nil, List.append_assoc]
                    rfl
              | exit code =>
                  simp only [leftStep, left, Option.some.injEq] at moved
                  subst moved
                  have arranges := finish_arranges s.kernel id code
                  refine inv_left .gone inv active left (inv.around active arranges (Owns.held at'))
                    ⟨arranges.own (Owns.held at'), finish_files s.kernel id code⟩ going
                    fun _ taken whole => ?_
                  rwa [before, ← ((arranges.rings c.pipe).kept live.ring).2] at whole
          | cons byte rest =>
              have before : pending s = byte :: rest := by simp [pending, left]
              simp only [leftStep, left, Option.map_eq_some_iff] at moved
              obtain ⟨⟨k, more⟩, pass, rfl⟩ := moved
              rcases writePass_cases live at' pass with
                ⟨rfl, rfl, nobody⟩ | ⟨pipe, moves, ring, -, same⟩
              · refine inv_left (.running []) inv active left self at'
                  going fun flowing => ?_
                exact absurd nobody (inv.readers flowing left)
              · refine inv_left (.running more) inv active left
                  (around_transfer inv active moves ring id) (Owns.apart at' (moves.apart id)) going
                  fun _ taken whole => ?_
                rw [whole, before, ← same, moves.moved]
                rfl

end Writers

section Filters

variable {c : Opened} {s s' : World} {id : TaskId}

private theorem upper_ascii {b : Byte} (ascii : b.toNat < 128) :
    (toAsciiUppercase b).toNat < 128 := by
  unfold toAsciiUppercase
  split_ifs with small
  · have low : 97 ≤ b.toNat := small.1
    have lowered : (b - 32).toNat = b.toNat - 32 := BitVec.toNat_sub_of_le (by
      rw [BitVec.le_def]
      exact le_trans (by decide) low)
    omega
  · exact ascii

theorem isUtf8_ascii {bytes : List Byte} (ascii : ∀ b ∈ bytes, b.toNat < 128) :
    isUtf8 bytes = true := by
  have single : ∀ b : Byte, b.toNat < 128 →
      String.utf8EncodeChar (Char.ofNat b.toNat) = [UInt8.ofBitVec b] := by
    intro b small
    have number : (Char.ofNat b.toNat).val.toNat = b.toNat := by
      have valid : b.toNat.isValidChar := Or.inl (by omega)
      rw [Char.ofNat, dif_pos valid]
      rfl
    unfold String.utf8EncodeChar
    simp only [number, show b.toNat ≤ 0x7f by omega, if_true]
    refine congrArg (fun x => [x]) (UInt8.toNat_inj.mp ?_)
    rw [UInt8.toNat_ofNat']
    change b.toNat % 2 ^ 8 = b.toNat
    omega
  have encoded : (bytes.map fun b => Char.ofNat b.toNat).flatMap String.utf8EncodeChar =
      bytes.map fun b => UInt8.ofBitVec b := by
    induction bytes with
    | nil => rfl
    | cons b rest ih =>
        rw [List.map_cons, List.flatMap_cons, single b (ascii b List.mem_cons_self),
          ih fun b member => ascii b (List.mem_cons_of_mem _ member)]
        rfl
  refine ByteArray.validateUTF8_eq_true_iff.mpr ⟨bytes.map fun b => Char.ofNat b.toNat, ?_⟩
  refine ByteArray.ext ?_
  rw [List.utf8Encode, List.data_toByteArray, encoded]

private theorem inv_right {r : Filter} (r' : Filter) {k : Kernel} {shown : List Byte}
    (inv : Inv c s) (active : Active s) (right : s.right = some (id, r)) (working : r ≠ .failed)
    (around : Around c s k id) (at' : FilterAt c k id r')
    (ended : r' = .ended → Complete { s with shown := shown })
    (flow : r' ≠ .failed → ∀ taken,
      ((∀ b ∈ taken, b.toNat < 128) →
        s.shown ++ (held s).map toAsciiUppercase = taken.map toAsciiUppercase) →
      ∃ more, contents (s.kernel.pipes c.pipe) = more ++ contents (k.pipes c.pipe) ∧
        ((∀ b ∈ taken ++ more, b.toNat < 128) →
          shown ++ (held { s with right := some (id, r') }).map toAsciiUppercase =
            (taken ++ more).map toAsciiUppercase)) :
    Inv c { s with kernel := k, right := some (id, r'), shown := shown } := by
  have notShell := (inv.right id r right).1
  have live := inv.live active
  refine ⟨around.tidy, around.shell notShell.symm, fun j w left => ?_, fun j q here => ?_,
    fun j w j' q left here => ?_, inv.first, fun early => ?_,
    fun _ => ⟨fun j shell left other => ?_, around.ring, fun flowing => ?_⟩, fun j here => ?_⟩
  · have apart := inv.apart j w id r left right
    exact ⟨(inv.left j w left).1, around.left j w left apart⟩
  · obtain ⟨rfl, rfl⟩ := Prod.mk.inj (Option.some.inj here)
    exact ⟨notShell, at'⟩
  · obtain ⟨rfl, rfl⟩ := Prod.mk.inj (Option.some.inj here)
    exact inv.apart j w _ r left right
  · have none := inv.second early
    rw [right] at none
    cases none
  · have apart : j ≠ id := by
      rintro rfl
      exact other r' rfl
    refine around.others j apart shell left fun q here => ?_
    rw [right] at here
    exact apart (Prod.mk.inj (Option.some.inj here)).1.symm
  · have before : Flowing s := by
      refine ⟨fun none => ?_, fun j failed => ?_⟩
      · rw [right] at none
        cases none
      · rw [right] at failed
        exact working (Prod.mk.inj (Option.some.inj failed)).2
    obtain ⟨taken, whole, shows⟩ := live.flow before
    obtain ⟨more, split, shows'⟩ := flow (fun failed => flowing.2 id (by rw [failed])) taken shows
    refine ⟨taken ++ more, ?_, shows'⟩
    rw [whole, split, List.append_assoc, List.append_assoc]
    rfl
  · obtain ⟨rfl, rfl⟩ := Prod.mk.inj (Option.some.inj here)
    exact ⟨(ended rfl).gone, (ended rfl).shown⟩

theorem readOnce_cases (pipe : Pipe) :
    (pipe.len = 0 ∧ pipe.writers ≠ 0 ∧ readOnce pipe bufferSize = (none, pipe)) ∨
    (pipe.len = 0 ∧ pipe.writers = 0 ∧ readOnce pipe bufferSize = (some [], pipe)) ∨
    (0 < pipe.len ∧ ∃ count, 0 < count ∧ count ≤ pipe.len ∧
      readOnce pipe bufferSize = (some (popBytes pipe count).1, popped pipe count)) := by
  unfold readOnce
  by_cases empty : pipe.len = 0
  · by_cases over' : pipe.writers = 0
    · exact Or.inr (Or.inl ⟨empty, over', by rw [if_pos empty, if_pos over']⟩)
    · exact Or.inl ⟨empty, over', by rw [if_pos empty, if_neg over']⟩
  · refine Or.inr (Or.inr ⟨Nat.pos_of_ne_zero empty, min pipe.len bufferSize, ?_,
      Nat.min_le_left _ _, ?_⟩)
    · have room : 0 < bufferSize := by decide
      omega
    · rw [if_neg empty]
      rfl

/-- What one `read` of the filter gives: the end of the file once nobody writes, or the front of
what is in the pipe. -/
theorem readPass_cases {k : Kernel} {bytes : List Byte} (live : Live c s)
    (owns : Owns s.kernel id (c.after c.right)) (pass : readPass s.kernel id = some (k, bytes)) :
    ∃ pipe, Transfers s.kernel k c.pipe pipe ∧ Ring pipe ∧
      contents (s.kernel.pipes c.pipe) = bytes ++ contents pipe ∧
      (bytes = [] → (s.kernel.pipes c.pipe).writers = 0 ∧
        contents (s.kernel.pipes c.pipe) = []) := by
  have standard := stdin_right owns
  have counts := readOnce_counts (s.kernel.pipes c.pipe) bufferSize
  simp only [readPass, standard] at pass
  rcases readOnce_cases (s.kernel.pipes c.pipe) with
    ⟨-, -, once⟩ | ⟨empty, nobody, once⟩ | ⟨-, count, some', most, once⟩
  · simp [once] at pass
  · rw [once] at counts
    simp only [once] at pass
    obtain ⟨rfl, rfl⟩ := Prod.mk.inj (Option.some.inj pass)
    refine ⟨_, transfers counts _ _, live.ring, rfl, fun _ => ⟨nobody, ?_⟩⟩
    rw [contents, empty]
    rfl
  · rw [once] at counts
    simp only [once] at pass
    obtain ⟨rfl, rfl⟩ := Prod.mk.inj (Option.some.inj pass)
    obtain ⟨ring, split⟩ := pop_contents live.ring most
    refine ⟨_, transfers counts _ _, ring, split.symm, fun none => ?_⟩
    have length := congrArg List.length none
    simp [FiveAM.Process.PipeRuns.popBytes_eq] at length
    omega

private theorem shows_upper {k : Kernel} {bytes taken shown : List Byte}
    (owns : Owns k id (c.after c.right)) (ascii : ∀ b ∈ taken, b.toNat < 128)
    (shows : shown ++ bytes.map toAsciiUppercase = taken.map toAsciiUppercase) :
    consoleShows k id (bytes.map toAsciiUppercase) = bytes.map toAsciiUppercase := by
  have standard := stdout_right owns
  have text : ∀ b ∈ bytes.map toAsciiUppercase, b.toNat < 128 := by
    intro b member
    have among : b ∈ taken.map toAsciiUppercase := shows ▸ List.mem_append_right _ member
    obtain ⟨a, inside, rfl⟩ := List.mem_map.mp among
    exact upper_ascii (ascii a inside)
  rw [consoleShows, standard]
  exact if_pos (isUtf8_ascii text)

private theorem inv_filter {found : Bool} (inv : Inv c s) (moved : rightStep s found = some s') :
    Inv c s' := by
  cases right : s.right with
  | none => simp [rightStep, right] at moved
  | some r =>
      obtain ⟨id, r⟩ := r
      have at' := (inv.right id r right).2
      cases r with
      | ended => simp [rightStep, right] at moved
      | failed => simp [rightStep, right] at moved
      | setup todo =>
          have working : Filter.setup todo ≠ .failed := fun same => by cases same
          have active : Active s :=
            Or.inr (Or.inr ⟨id, _, right, fun same => (by cases same), working⟩)
          have live := inv.live active
          have nothing : held s = [] := by simp [held, right]
          cases todo with
          | cons call todo =>
              simp only [rightStep, right, Option.some.injEq] at moved
              subst moved
              have arranges := perform_arranges s.kernel id call
              refine inv_right (.setup todo) inv active right working
                (inv.around active arranges (Made.held at')) (Made.next at')
                (fun same => by cases same) fun _ taken shows => ⟨[], ?_, ?_⟩
              · exact ((arranges.rings c.pipe).kept live.ring).2.symm
              · rw [nothing] at shows
                rwa [List.append_nil]
          | nil =>
              simp only [rightStep, right] at moved
              split_ifs at moved
              · obtain rfl := Option.some.inj moved
                refine inv_right .reading inv active right working (inv.self active id)
                  (after_all at') (fun same => by cases same) fun _ taken shows => ⟨[], rfl, ?_⟩
                rw [nothing] at shows
                rwa [List.append_nil]
              · obtain rfl := Option.some.inj moved
                have arranges := finish_arranges s.kernel id 127
                exact inv_right .failed inv active right working
                  (inv.around active arranges (Made.held at'))
                  ⟨arranges.own (Made.held at'), finish_files s.kernel id 127⟩
                  (fun same => by cases same) fun same => absurd rfl same
      | reading =>
          have working : Filter.reading ≠ .failed := fun same => by cases same
          have active : Active s :=
            Or.inr (Or.inr ⟨id, _, right, fun same => (by cases same), working⟩)
          have live := inv.live active
          have nothing : held s = [] := by simp [held, right]
          simp only [rightStep, right, Option.map_eq_some_iff] at moved
          obtain ⟨⟨k, bytes⟩, pass, rfl⟩ := moved
          obtain ⟨pipe, moves, ring, split, finished⟩ := readPass_cases live at' pass
          have owns : Owns k id (c.after c.right) := Owns.apart at' (moves.apart id)
          have around := around_transfer inv active moves ring id
          by_cases none : bytes = []
          · simp only [none, if_true]
            obtain ⟨nobody, drained⟩ := finished none
            have arranges := finish_arranges k id 0
            refine inv_right .ended inv active right working (around.next arranges owns.held)
              ⟨arranges.own owns.held, finish_files k id 0⟩
              (fun _ => ⟨fun j w left => inv.writers left nobody, fun ascii => ?_⟩)
              fun _ taken shows => ⟨[], ?_, ?_⟩
            · have flowing : Flowing s := by
                refine ⟨fun none => ?_, fun j failed => ?_⟩
                · rw [right] at none
                  cases none
                · rw [right] at failed
                  cases (Prod.mk.inj (Option.some.inj failed)).2
              obtain ⟨taken, whole, shows⟩ := live.flow flowing
              have idle : pending s = [] := by
                cases left : s.left with
                | none => simp [pending, left]
                | some l =>
                    obtain ⟨j, w⟩ := l
                    obtain rfl := inv.writers left nobody
                    simp [pending, left]
              rw [drained, idle, List.append_nil, List.append_nil] at whole
              rw [nothing, List.map_nil, List.append_nil, ← whole] at shows
              exact shows ascii
            · rw [((arranges.rings c.pipe).kept around.ring).2, moves.moved, split, none]
            · rw [nothing] at shows
              rwa [List.append_nil]
          · simp only [none, if_false]
            refine inv_right (.holding bytes) inv active right working around owns
              (fun same => by cases same) fun _ taken shows => ⟨bytes, ?_, fun ascii => ?_⟩
            · rw [split, moves.moved]
            · have before := shows fun b member => ascii b (List.mem_append_left _ member)
              rw [nothing, List.map_nil, List.append_nil] at before
              rw [before, List.map_append]
              rfl
      | holding bytes =>
          have working : Filter.holding bytes ≠ .failed := fun same => by cases same
          have active : Active s :=
            Or.inr (Or.inr ⟨id, _, right, fun same => (by cases same), working⟩)
          have live := inv.live active
          have holds : held s = bytes := by simp [held, right]
          simp only [rightStep, right, Option.some.injEq] at moved
          subst moved
          refine inv_right .reading inv active right working (inv.self active id) at'
            (fun same => by cases same) fun _ taken shows => ⟨[], rfl, fun ascii => ?_⟩
          rw [List.append_nil] at ascii ⊢
          have before := shows ascii
          rw [holds] at before
          rw [shows_upper at' ascii before, before]
          exact List.append_nil _

end Filters

section Opening

variable {k k₀ : Kernel} {access : Access} {pointer : Word}

/-- What a `pipe` that succeeds has done: two free slots of the caller hold the ends of an unused
pipe, and their numbers are stored. -/
private structure Pair (k₀ k : Kernel) (pointer : Word) (p : PipeId)
    (readEnd writeEnd : Fin maxFiles) : Prop where
  unused : (k₀.pipes p).used = false
  readFree : (k₀.tasks k₀.current).files readEnd = .free
  writeFree : Function.update (k₀.tasks k₀.current).files readEnd (.pipeRead p) writeEnd = .free
  table : (k.tasks k₀.current).files =
    Function.update (Function.update (k₀.tasks k₀.current).files readEnd (.pipeRead p)) writeEnd
      (.pipeWrite p)
  state : (k.tasks k₀.current).state = (k₀.tasks k₀.current).state
  others : ∀ id, id ≠ k₀.current → k.tasks id = k₀.tasks id
  pipe : k.pipes p = { Pipe.empty with used := true, readers := 1, writers := 1 }
  first : readWord k.view pointer.toNat = BitVec.ofNat 64 readEnd.val
  second : readWord k.view (pointer.toNat + 8) = BitVec.ofNat 64 writeEnd.val

private theorem create_some {k₁ : Kernel} {p : PipeId} (created : create k₀ = (some p, k₁)) :
    (k₀.pipes p).used = false ∧
      k₁ = setPipe k₀ p { Pipe.empty with used := true, readers := 1, writers := 1 } := by
  unfold create at created
  split at created
  · cases (Prod.mk.inj created).1
  · rename_i q found
    obtain ⟨same, shape⟩ := Prod.mk.inj created
    obtain rfl := Option.some.inj same
    exact ⟨by simpa using List.find?_some found, shape.symm⟩

private theorem makePipe_pair (made : makePipe k₀ access pointer = (0, k)) :
    ∃ p readEnd writeEnd, Pair k₀ k pointer p readEnd writeEnd := by
  have refused : Process.Pipes.failure ≠ 0 := by decide
  unfold makePipe at made
  split_ifs at made with denied
  · exact absurd (Prod.mk.inj made).1 refused
  · split at made
    · exact absurd (Prod.mk.inj made).1 refused
    · rename_i p k₁ created
      simp only at made
      split at made
      · exact absurd (Prod.mk.inj made).1 refused
      · rename_i readEnd k₂ first
        split at made
        · exact absurd (Prod.mk.inj made).1 refused
        · rename_i writeEnd k₃ second
          have low := access.inside (n := 16) (by decide) (by simpa using denied)
          have next : slot pointer 1 = pointer.toNat + 8 := slot_eq (by
            have end' : userSpaceEnd < 2 ^ 63 := by decide
            have size : (16 : Word).toNat = 16 := rfl
            omega)
          obtain ⟨unused, shape⟩ := create_some created
          have tasks : k₁.tasks = k₀.tasks := by rw [shape]; rfl
          have current : k₁.current = k₀.current := by rw [shape]; rfl
          obtain ⟨readFree, shape₂⟩ := addDescriptor_some first
          obtain ⟨writeFree, shape₃⟩ := addDescriptor_some second
          obtain rfl := (Prod.mk.inj made).2
          rw [current, tasks] at readFree
          have own : k₂.tasks k₀.current = { k₀.tasks k₀.current with
              files := Function.update (k₀.tasks k₀.current).files readEnd (.pipeRead p) } := by
            rw [shape₂, current]
            simp only [setFile, Kernel.setTask, Function.update_self, tasks]
          rw [current, own] at writeFree
          refine ⟨p, readEnd, writeEnd, unused, readFree, writeFree, ?_, ?_, fun id other => ?_, ?_,
            ?_, ?_⟩
          · rw [shape₃, current]
            simp only [Kernel.storeView, setFile, Kernel.setTask, Function.update_self, own]
          · rw [shape₃, current]
            simp only [Kernel.storeView, setFile, Kernel.setTask, Function.update_self, own]
          · rw [shape₃, shape₂, current]
            simp only [Kernel.storeView, setFile, Kernel.setTask, Function.update_of_ne other,
              tasks]
          · rw [shape₃, shape₂, shape]
            exact Function.update_self ..
          · rw [next]
            simp only [Kernel.view, Kernel.storeView, Memory.view_store]
            rw [readWord_writeWord_of_apart (Or.inl le_rfl), readWord_writeWord_self]
          · rw [next]
            simp only [Kernel.view, Kernel.storeView, Memory.view_store]
            rw [readWord_writeWord_self]

def begin (k : Kernel) : World := ⟨k, .forkLeft, none, none, [], []⟩

/-- After `pipe` the shell's table holds the ends under the numbers that were stored for it, and
nobody else holds one. -/
theorem opened_of_makePipe (tidy : Tidy k₀) (held : (k₀.tasks k₀.current).state ≠ .free)
    (input : (k₀.tasks k₀.current).files 0 ≠ .free)
    (output : (k₀.tasks k₀.current).files 1 = .console)
    (made : makePipe k₀ access pointer = (0, k)) : ∃ c : Opened, c.shell = k₀.current ∧
      readWord k.view pointer.toNat = BitVec.ofNat 64 c.readEnd.val ∧
      readWord k.view (pointer.toNat + 8) = BitVec.ofNat 64 c.writeEnd.val ∧ Inv c (begin k) := by
  have balanced : Balanced k [] := by
    have run := makePipe_cases k₀ access pointer
    rw [made] at run
    exact tidy.balanced.makePipe run
  obtain ⟨p, readEnd, writeEnd, pair⟩ := makePipe_pair made
  have nobody : ∀ id, ∀ fd, (k₀.tasks id).files fd ≠ .pipeRead p ∧
      (k₀.tasks id).files fd ≠ .pipeWrite p := by
    intro id fd
    have idle : ¬((k₀.pipes p).readers ≠ 0 ∨ (k₀.pipes p).writers ≠ 0) := by
      rw [← tidy.balanced.used p, pair.unused]
      exact Bool.false_ne_true
    exact ⟨fun holds => idle (Or.inl (readers_of_held tidy holds)),
      fun holds => idle (Or.inr (writers_of_held tidy holds))⟩
  have distinct : writeEnd ≠ readEnd := by
    rintro rfl
    have free := pair.writeFree
    rw [Function.update_self] at free
    cases free
  have writeFree := pair.writeFree
  rw [Function.update_of_ne distinct] at writeFree
  have readHigh : ∀ fd, (k₀.tasks k₀.current).files fd ≠ .free → fd ≠ readEnd ∧ fd ≠ writeEnd := by
    rintro fd full
    exact ⟨fun same => full (same ▸ pair.readFree), fun same => full (same ▸ writeFree)⟩
  have one := readHigh 1 (by rw [output]; exact fun same => by cases same)
  have zero := readHigh 0 input
  let c : Opened :=
    { shell := k₀.current, pipe := p, readEnd := readEnd, writeEnd := writeEnd
      files := (k.tasks k₀.current).files
      reads := fun fd => by
        rw [pair.table]
        by_cases last : fd = writeEnd
        · subst last
          rw [Function.update_self]
          exact iff_of_false (fun same => by cases same) distinct
        · rw [Function.update_of_ne last]
          by_cases first : fd = readEnd
          · subst first
            rw [Function.update_self]
            exact iff_of_true rfl rfl
          · rw [Function.update_of_ne first]
            exact iff_of_false (nobody _ fd).1 first
      writes := fun fd => by
        rw [pair.table]
        by_cases last : fd = writeEnd
        · subst last
          rw [Function.update_self]
          exact iff_of_true rfl rfl
        · rw [Function.update_of_ne last]
          refine iff_of_false ?_ last
          by_cases first : fd = readEnd
          · subst first
            rw [Function.update_self]
            exact fun same => by cases same
          · rw [Function.update_of_ne first]
            exact (nobody _ fd).2
      console := by
        rw [pair.table, Function.update_of_ne one.2, Function.update_of_ne one.1, output]
      readHigh := zero.1.symm
      writeHigh := zero.2.symm }
  refine ⟨c, rfl, pair.first, pair.second, ⟨balanced, fun id vacant => ?_⟩, ⟨?_, rfl⟩,
    fun _ _ none => (by cases none), fun _ _ none => (by cases none),
    fun _ _ _ _ none => (by cases none), fun _ => rfl, fun _ => rfl,
    fun _ => ⟨fun id other _ _ fd => ?_, ⟨?_, ?_⟩, fun _ => ⟨[], ?_, fun _ => rfl⟩⟩,
    fun _ none => (by cases none)⟩
  · by_cases same : id = k₀.current
    · subst same
      exact absurd (pair.state.symm.trans vacant) held
    · rw [begin, pair.others id same] at vacant ⊢
      exact tidy.vacant id vacant
  · rw [begin, pair.state]
    exact held
  · rw [begin, pair.others id other]
    exact nobody id fd
  · rw [begin, pair.pipe]
    rfl
  · rw [begin, pair.pipe]
    exact Nat.zero_le _
  · rw [begin, pair.pipe]
    rfl

end Opening

section Runs

variable {c : Opened} {start s : World}

theorem inv_step {s' : World} {e : Event} (inv : Inv c s)
    (moved : step c.shell c.readEnd c.writeEnd s e = some s') : Inv c s' := by
  cases e with
  | shell space stack frame => exact inv_shell inv moved
  | left choice => exact inv_writer inv moved
  | right found => exact inv_filter inv moved

private theorem inv_aside {k : Kernel} (inv : Inv c s) (aside : Aside c s k) :
    Inv c { s with kernel := k } := by
  refine ⟨aside.tidy inv.tidy, inv.shell.apart aside.shell, fun id w left => ?_,
    fun id r right => ?_, inv.apart, inv.first, inv.second,
    fun active => ⟨aside.others active, ?_, fun flowing => ?_⟩,
    fun id right => ⟨(inv.ended id right).gone, (inv.ended id right).shown⟩⟩
  · exact ⟨(inv.left id w left).1, (inv.left id w left).2.apart (aside.left id w left)⟩
  · exact ⟨(inv.right id r right).1, (inv.right id r right).2.apart (aside.right id r right)⟩
  · simp only [aside.pipe active]
    exact (inv.live active).ring
  · simp only [aside.pipe active]
    exact (inv.live active).flow flowing

theorem reached_inv (inv : Inv c start) (reached : Reached c start s) : Inv c s := by
  induction reached with
  | start => exact inv
  | step _ moved ih => exact inv_step ih moved
  | other _ aside ih => exact inv_aside ih aside

/-- Whatever the order of the three processes' steps, and whatever other tasks do meanwhile: when
`upper.elf` has read the end of the file the left program is over, and every byte it wrote is on the
console, in capitals, in order and once. -/
theorem pipeline_output {k k₀ : Kernel} {access : Access} {pointer : Word} (tidy : Tidy k₀)
    (held : (k₀.tasks k₀.current).state ≠ .free) (input : (k₀.tasks k₀.current).files 0 ≠ .free)
    (output : (k₀.tasks k₀.current).files 1 = .console)
    (made : makePipe k₀ access pointer = (0, k)) : ∃ c : Opened, c.shell = k₀.current ∧
      readWord k.view pointer.toNat = BitVec.ofNat 64 c.readEnd.val ∧
      readWord k.view (pointer.toNat + 8) = BitVec.ofNat 64 c.writeEnd.val ∧
      ∀ s, Reached c (begin k) s → ∀ id, s.right = some (id, .ended) →
        (∀ j w, s.left = some (j, w) → w = .gone) ∧
        ((∀ b ∈ s.wrote, b.toNat < 128) → s.shown = s.wrote.map toAsciiUppercase) := by
  obtain ⟨c, shell, first, second, inv⟩ := opened_of_makePipe tidy held input output made
  refine ⟨c, shell, first, second, fun s reached id right => ?_⟩
  have complete := (reached_inv inv reached).ended id right
  exact ⟨complete.gone, complete.shown⟩

end Runs

section Scenario

/-- A shell in slot 1 on the console, and nothing else. -/
def prompt : Kernel where
  tasks := Function.update (fun _ => empty) 1
    { empty with state := .ready, files := fun fd => if fd.val < 2 then .console else .free }
  current := 1
  enabled := true
  ticks := 0
  activeRoot := rootAt 0x5000
  kernelRoot := rootAt 0x1000
  rsp0 := 0
  sched := FiveAM.Sched.Mechanism.new
  pipes := fun _ => .empty
  orphans := []
  memory := ⟨fun _ => 0, fun _ _ => 0⟩

private theorem prompt_noEnds (id : TaskId) : NoEnds (prompt.tasks id).files := by
  intro fd p
  by_cases same : id = 1
  · subst same
    simp only [prompt, Function.update_self]
    split_ifs <;> exact ⟨fun held => (by cases held), fun held => (by cases held)⟩
  · simp only [prompt, Function.update_of_ne same, empty]
    exact ⟨fun held => (by cases held), fun held => (by cases held)⟩

theorem prompt_tidy : Tidy prompt := by
  have none : ∀ d, IsEnd d → listed prompt.tasks d = 0 := by
    intro d end'
    exact Finset.sum_eq_zero fun id _ => entries_of_noEnds (prompt_noEnds id) end'
  refine ⟨⟨fun p => ?_, fun p => ?_, fun p => ?_⟩, fun id _ => prompt_noEnds id⟩
  · rw [none _ ⟨p, Or.inl rfl⟩]
    rfl
  · rw [none _ ⟨p, Or.inr rfl⟩]
    rfl
  · exact iff_of_false Bool.false_ne_true fun some' => some'.elim (absurd rfl) (absurd rfl)

theorem prompt_opens : makePipe prompt lowHalf 0x400000 = (0, (makePipe prompt lowHalf 0x400000).2) :=
  Prod.ext (by decide +kernel) rfl

theorem pipeline_output_prompt :
    let k := (makePipe prompt lowHalf 0x400000).2
    ∃ c : Opened, c.shell = prompt.current ∧
      readWord k.view (0x400000 : Word).toNat = BitVec.ofNat 64 c.readEnd.val ∧
      readWord k.view ((0x400000 : Word).toNat + 8) = BitVec.ofNat 64 c.writeEnd.val ∧
      ∀ s, Reached c (begin k) s → ∀ id, s.right = some (id, .ended) →
        (∀ j w, s.left = some (j, w) → w = .gone) ∧
        ((∀ b ∈ s.wrote, b.toNat < 128) → s.shown = s.wrote.map toAsciiUppercase) :=
  pipeline_output prompt_tidy (by decide) (by decide) (by decide) prompt_opens

private def greeting : List Event :=
  [.shell (some (rootAt 0x6000)) 0 0, .shell (some (rootAt 0x7000)) 0 0,
    .right true, .right true, .right true, .right true,
    .left (.exit 0), .left (.exit 0), .left (.exit 0), .left (.exit 0), .left (.write [104, 105]),
    .left (.exit 0), .shell none 0 0, .right true, .right true, .left (.exit 0),
    .shell none 0 0, .right true]

/-- `upper.elf` reads the end of the file once the shell has closed its ends too. -/
example : (greeting.foldlM (step 1 2 3) (begin (makePipe prompt lowHalf 0x400000).2)).map
    (fun s => (s.shown, s.right matches some (_, .ended))) = some ([72, 73], true) := by
  decide +kernel

end Scenario

end FiveAM.Userland.PipeOutput
