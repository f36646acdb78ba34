/- GID: FiveAM/Userland/PipeProgress
   source: userland/src/sh.rs, userland/src/upper.rs, kernel/src/pipe.rs, kernel/src/task.rs
   digest: The three processes of a pipeline never wait for one another for ever. -/

import FiveAM.Userland.PipeOutput

set_option autoImplicit false
set_option relaxedAutoImplicit false

namespace FiveAM.Userland.PipeProgress

open FiveAM.Process.TaskTable FiveAM.Process.Machine FiveAM.Process.Pipes
open FiveAM.Process.Lifecycle FiveAM.Process.Syscalls FiveAM.Process.Effects
open FiveAM.Process.PipeEnds FiveAM.Lib.ByteMemory
open FiveAM.Process.PipeRuns (Ring contents pushed popped push_contents pop_contents)
open FiveAM.Userland.Pipeline FiveAM.Userland.PipeOutput

section Progress

variable {c : Opened} {s s' : World}

private theorem listed_none {k : Kernel} {d : Descriptor}
    (none : ∀ id fd, (k.tasks id).files fd ≠ d) : listed k.tasks d = 0 :=
  Finset.sum_eq_zero fun id _ => Finset.sum_eq_zero fun fd _ => if_neg (none id fd)

private theorem shell_over (inv : Inv c s) (over' : s.shell = .closing []) (fd : Fin maxFiles) :
    (s.kernel.tasks c.shell).files fd ≠ .pipeRead c.pipe ∧
      (s.kernel.tasks c.shell).files fd ≠ .pipeWrite c.pipe := by
  have at' := inv.shell
  rw [over'] at at'
  rw [(after_all at').files]
  exact shell_none fd

private theorem left_none {k : Kernel} {id : TaskId} {bytes : List Byte}
    (at' : WriterAt c k id (.running bytes)) (fd : Fin maxFiles) :
    (k.tasks id).files fd ≠ .pipeRead c.pipe := by
  rw [Owns.files at']
  exact left_reads_none fd

private theorem right_none {k : Kernel} {id : TaskId} (at' : FilterAt c k id .reading)
    (fd : Fin maxFiles) : (k.tasks id).files fd ≠ .pipeWrite c.pipe := by
  rw [Owns.files at']
  exact right_writes_none fd

private theorem over_none {k : Kernel} {id : TaskId} (over' : Over k id) (fd : Fin maxFiles) :
    (k.tasks id).files fd ≠ .pipeRead c.pipe ∧ (k.tasks id).files fd ≠ .pipeWrite c.pipe :=
  over'.2 fd c.pipe

private theorem holder (live : Live c s) {d : Descriptor}
    (end' : d = .pipeRead c.pipe ∨ d = .pipeWrite c.pipe) (some' : listed s.kernel.tasks d ≠ 0) :
    ∃ id fd, (s.kernel.tasks id).files fd = d ∧
      (id = c.shell ∨ (∃ w, s.left = some (id, w)) ∨ ∃ r, s.right = some (id, r)) := by
  by_contra nobody
  push Not at nobody
  refine some' (listed_none fun id fd holds => ?_)
  obtain ⟨shell, left, right⟩ := nobody id fd holds
  have free := live.others id shell left right fd
  rcases end' with rfl | rfl
  · exact free.1 holds
  · exact free.2 holds

private theorem right_goes {id : TaskId} {r : Filter} (inv : Inv c s)
    (right : s.right = some (id, r)) (alive : r ≠ .ended) (working : r ≠ .failed)
    (ready : (s.kernel.pipes c.pipe).len ≠ 0 ∨ (s.kernel.pipes c.pipe).writers = 0) :
    (rightStep s true).isSome := by
  cases r with
  | setup todo => cases todo <;> simp [rightStep, right]
  | holding bytes => simp [rightStep, right]
  | ended => exact absurd rfl alive
  | failed => exact absurd rfl working
  | reading =>
      have at' := (inv.right id _ right).2
      have standard := stdin_right at'
      rcases readOnce_cases (s.kernel.pipes c.pipe) with
        ⟨empty, writer, -⟩ | ⟨-, -, once⟩ | ⟨-, count, -, -, once⟩
      · rcases ready with full | nobody
        · exact absurd empty full
        · exact absurd nobody writer
      · simp [rightStep, right, readPass, standard, once]
      · simp [rightStep, right, readPass, standard, once]

private theorem full_goes (inv : Inv c s) (active : Active s) (closed : s.shell = .closing [])
    {id : TaskId} {bytes : List Byte} (left : s.left = some (id, .running bytes))
    (full : capacity ≤ (s.kernel.pipes c.pipe).len)
    (reader : (s.kernel.pipes c.pipe).readers ≠ 0) : (rightStep s true).isSome := by
  have listed' : listed s.kernel.tasks (.pipeRead c.pipe) ≠ 0 := by
    have counts := inv.tidy.balanced.readers c.pipe
    rw [List.count_nil, Nat.add_zero] at counts
    rwa [← counts]
  obtain ⟨j, fd, holds, rfl | ⟨w, here⟩ | ⟨r, right⟩⟩ :=
    holder (inv.live active) (Or.inl rfl) listed'
  · exact absurd holds (shell_over inv closed fd).1
  · rw [left] at here
    obtain ⟨rfl, rfl⟩ := Prod.mk.inj (Option.some.inj here)
    exact absurd holds (left_none (inv.left _ _ left).2 fd)
  · have at' := (inv.right j r right).2
    have some' : (s.kernel.pipes c.pipe).len ≠ 0 := by
      have size : 0 < capacity := by decide
      omega
    refine right_goes inv right ?_ ?_ (Or.inl some')
    · rintro rfl
      exact (over_none at' fd).1 holds
    · rintro rfl
      exact (over_none at' fd).1 holds

private theorem nobody_writes (inv : Inv c s) (active : Active s) (closed : s.shell = .closing [])
    (over' : ∀ id w, s.left = some (id, w) → w = .gone) {id : TaskId}
    (right : s.right = some (id, .reading)) : (s.kernel.pipes c.pipe).writers = 0 := by
  have counts := inv.tidy.balanced.writers c.pipe
  rw [List.count_nil, Nat.add_zero] at counts
  by_contra some'
  rw [counts] at some'
  obtain ⟨j, fd, holds, rfl | ⟨w, left⟩ | ⟨r, here⟩⟩ := holder (inv.live active) (Or.inr rfl) some'
  · exact (shell_over inv closed fd).2 holds
  · obtain rfl := over' j w left
    exact (over_none (inv.left j _ left).2 fd).2 holds
  · rw [right] at here
    obtain ⟨rfl, rfl⟩ := Prod.mk.inj (Option.some.inj here)
    exact right_none (inv.right _ _ right).2 fd holds

/-- What is not a `write` of the left program. -/
def Quiet : Event → Prop
  | .left (.write _) => False
  | _ => True

theorem active_moves (inv : Inv c s) (active : Active s) :
    ∃ e, Quiet e ∧ (step c.shell c.readEnd c.writeEnd s e).isSome := by
  by_cases closed : s.shell = .closing []
  · have right' : (∀ id w, s.left = some (id, w) → w = .gone) →
        ∃ e, Quiet e ∧ (step c.shell c.readEnd c.writeEnd s e).isSome := by
      intro over'
      obtain ⟨id, r, right, alive, working⟩ :
          ∃ id r, s.right = some (id, r) ∧ r ≠ .ended ∧ r ≠ .failed := by
        rcases active with shell | ⟨id, w, left, going⟩ | right
        · exact absurd closed shell
        · exact absurd (over' id w left) going
        · exact right
      refine ⟨.right true, trivial, ?_⟩
      by_cases reading : r = .reading
      · subst reading
        exact right_goes inv right alive working
          (Or.inr (nobody_writes inv active closed over' right))
      · cases r with
        | setup todo => cases todo <;> simp [step, rightStep, right]
        | reading => exact absurd rfl reading
        | holding bytes => simp [step, rightStep, right]
        | ended => exact absurd rfl alive
        | failed => exact absurd rfl working
    cases left : s.left with
    | none => exact right' fun id w here => by rw [left] at here; cases here
    | some l =>
        obtain ⟨id, w⟩ := l
        cases w with
        | gone =>
            refine right' fun j w here => ?_
            rw [left] at here
            exact (Prod.mk.inj (Option.some.inj here)).2.symm
        | setup todo =>
            exact ⟨.left (.exit 0), trivial, by cases todo <;> simp [step, leftStep, left]⟩
        | running bytes =>
            cases bytes with
            | nil => exact ⟨.left (.exit 0), trivial, by simp [step, leftStep, left]⟩
            | cons byte rest =>
                have at' := (inv.left id _ left).2
                have standard := stdout_left at'
                rcases writeOnce_cases (s.kernel.pipes c.pipe) (byte :: rest) with
                  ⟨-, once⟩ | ⟨reader, full, -⟩ | ⟨-, room, count, least, once⟩
                · exact ⟨.left (.exit 0), trivial, by
                    simp [step, leftStep, left, writePass, standard, once]⟩
                · exact ⟨.right true, trivial, full_goes inv active closed left full reader⟩
                · have some' : count ≠ 0 := by
                    rw [least, List.length_cons]
                    omega
                  exact ⟨.left (.exit 0), trivial, by
                    simp [step, leftStep, left, writePass, standard, once, some']⟩
  · refine ⟨.shell none 0 0, trivial, ?_⟩
    cases stage : s.shell with
    | forkLeft => simp [step, shellStep, stage]
    | forkRight => simp [step, shellStep, stage]
    | closing todo =>
        cases todo with
        | nil => exact absurd stage closed
        | cons call todo => simp [step, shellStep, stage]

/-- A bound on the steps that are left, if the left program writes nothing more. -/
def shellWork : Shell → Nat
  | .forkLeft => 15
  | .forkRight => 9
  | .closing todo => todo.length

def writerWork : Option (TaskId × Writer) → Nat
  | none => 0
  | some (_, .setup todo) => todo.length + 2
  | some (_, .running bytes) => 1 + 3 * bytes.length
  | some (_, .gone) => 0

def filterWork : Option (TaskId × Filter) → Nat
  | none => 0
  | some (_, .setup todo) => todo.length + 3
  | some (_, .reading) => 2
  | some (_, .holding _) => 3
  | some (_, .ended) => 0
  | some (_, .failed) => 0

def work (c : Opened) (s : World) : Nat :=
  shellWork s.shell + writerWork s.left + filterWork s.right + 2 * (s.kernel.pipes c.pipe).len

private theorem contents_length (pipe : Pipe) : (contents pipe).length = pipe.len := by
  rw [contents, List.length_map, List.length_range]

private theorem shell_work {space : Option Root} {stack frame : Word} (inv : Inv c s)
    (moved : shellStep c.shell c.readEnd c.writeEnd s space stack frame = some s') :
    work c s' < work c s := by
  cases stage : s.shell with
  | forkLeft =>
      have alone := inv.first stage
      rcases forkChild_cases s.kernel c.shell space stack frame inv.tidy with
        full | ⟨id, k, made, -, -, -, -, rings⟩
      · simp only [shellStep, stage, full, Option.map_none, Option.some.injEq] at moved
        subst moved
        simp only [work, shellWork, stage, alone, writerWork]
        omega
      · simp only [shellStep, stage, made, Option.map_some, Option.some.injEq] at moved
        subst moved
        have same := (rings c.pipe).len
        simp only [work, shellWork, stage, alone, writerWork, leftCalls, List.length_cons,
          List.length_nil]
        omega
  | forkRight =>
      have alone := inv.second (Or.inr stage)
      rcases forkChild_cases s.kernel c.shell space stack frame inv.tidy with
        full | ⟨id, k, made, -, -, -, -, rings⟩
      · simp only [shellStep, stage, full, Option.map_none, Option.some.injEq] at moved
        subst moved
        simp only [work, shellWork, stage, alone, filterWork, shellCalls, List.length_cons,
          List.length_nil]
        omega
      · simp only [shellStep, stage, made, Option.map_some, Option.some.injEq] at moved
        subst moved
        have same := (rings c.pipe).len
        simp only [work, shellWork, stage, alone, filterWork, shellCalls, rightCalls,
          List.length_cons, List.length_nil]
        omega
  | closing todo =>
      cases todo with
      | nil => simp [shellStep, stage] at moved
      | cons call todo =>
          simp only [shellStep, stage, Option.some.injEq] at moved
          subst moved
          have same := ((perform_arranges s.kernel c.shell call).rings c.pipe).len
          simp only [work, shellWork, stage, List.length_cons]
          omega

private theorem left_work {choice : Choice} (inv : Inv c s) (quiet : Quiet (.left choice))
    (moved : leftStep s choice = some s') : work c s' < work c s := by
  cases left : s.left with
  | none => simp [leftStep, left] at moved
  | some l =>
      obtain ⟨id, w⟩ := l
      have at' := (inv.left id w left).2
      cases w with
      | gone => simp [leftStep, left] at moved
      | setup todo =>
          cases todo with
          | nil =>
              simp only [leftStep, left, Option.some.injEq] at moved
              subst moved
              simp only [work, writerWork, left, List.length_nil]
              omega
          | cons call todo =>
              simp only [leftStep, left, Option.some.injEq] at moved
              subst moved
              have same := ((perform_arranges s.kernel id call).rings c.pipe).len
              simp only [work, writerWork, left, List.length_cons]
              omega
      | running bytes =>
          cases bytes with
          | nil =>
              cases choice with
              | write data => exact absurd quiet not_false
              | exit code =>
                  simp only [leftStep, left, Option.some.injEq] at moved
                  subst moved
                  have same := ((finish_arranges s.kernel id code).rings c.pipe).len
                  simp only [work, writerWork, left, List.length_nil]
                  omega
          | cons byte rest =>
              have live := inv.live (Or.inr (Or.inl ⟨id, _, left, fun same => by cases same⟩))
              simp only [leftStep, left, Option.map_eq_some_iff] at moved
              obtain ⟨⟨k, more⟩, pass, rfl⟩ := moved
              rcases writePass_cases live at' pass with
                ⟨rfl, rfl, -⟩ | ⟨pipe, moves, -, less, same⟩
              · simp only [work, writerWork, left, List.length_cons, List.length_nil]
                omega
              · have lengths := congrArg List.length same
                rw [List.length_append, List.length_append, contents_length,
                  contents_length] at lengths
                simp only [work, writerWork, left, moves.moved]
                omega

private theorem right_work {found : Bool} (inv : Inv c s) (moved : rightStep s found = some s') :
    work c s' < work c s := by
  cases right : s.right with
  | none => simp [rightStep, right] at moved
  | some r =>
      obtain ⟨id, r⟩ := r
      have at' := (inv.right id r right).2
      cases r with
      | ended => simp [rightStep, right] at moved
      | failed => simp [rightStep, right] at moved
      | setup todo =>
          cases todo with
          | cons call todo =>
              simp only [rightStep, right, Option.some.injEq] at moved
              subst moved
              have same := ((perform_arranges s.kernel id call).rings c.pipe).len
              simp only [work, filterWork, right, List.length_cons]
              omega
          | nil =>
              simp only [rightStep, right] at moved
              split_ifs at moved
              · obtain rfl := Option.some.inj moved
                simp only [work, filterWork, right, List.length_nil]
                omega
              · obtain rfl := Option.some.inj moved
                have same := ((finish_arranges s.kernel id 127).rings c.pipe).len
                simp only [work, filterWork, right, List.length_nil]
                omega
      | reading =>
          have live := inv.live (Or.inr (Or.inr ⟨id, _, right, fun same => (by cases same),
            fun same => (by cases same)⟩))
          simp only [rightStep, right, Option.map_eq_some_iff] at moved
          obtain ⟨⟨k, bytes⟩, pass, rfl⟩ := moved
          obtain ⟨pipe, moves, -, split, -⟩ := readPass_cases live at' pass
          have lengths := congrArg List.length split
          rw [List.length_append, contents_length, contents_length] at lengths
          by_cases none : bytes = []
          · have same := ((finish_arranges k id 0).rings c.pipe).len
            rw [moves.moved] at same
            simp only [none, if_true, work, filterWork, right]
            omega
          · have some' := List.length_pos_iff.mpr none
            simp only [none, if_false, work, filterWork, right, moves.moved]
            omega
      | holding bytes =>
          simp only [rightStep, right, Option.some.injEq] at moved
          subst moved
          simp only [work, filterWork, right]
          omega

theorem quiet_work {e : Event} (inv : Inv c s) (quiet : Quiet e)
    (moved : step c.shell c.readEnd c.writeEnd s e = some s') : work c s' < work c s := by
  cases e with
  | shell space stack frame => exact shell_work inv moved
  | left choice => exact left_work inv quiet moved
  | right found => exact right_work inv moved

def run (c : Opened) (s : World) (es : List Event) : Option World :=
  es.foldlM (step c.shell c.readEnd c.writeEnd) s

theorem quiet_run {es : List Event} (inv : Inv c s) (quiet : ∀ e ∈ es, Quiet e)
    (moved : run c s es = some s') : work c s' + es.length ≤ work c s := by
  induction es generalizing s with
  | nil =>
      obtain rfl := Option.some.inj moved
      exact Nat.le_refl _
  | cons e rest ih =>
      rw [run, List.foldlM_cons, Option.bind_eq_bind, Option.bind_eq_some_iff] at moved
      obtain ⟨next, first, moved⟩ := moved
      have less := quiet_work inv (quiet e List.mem_cons_self) first
      have later := ih (inv_step inv first)
        (fun e member => quiet e (List.mem_cons_of_mem _ member)) moved
      rw [List.length_cons]
      omega

/-- The three processes never wait for one another for ever: while one of them is not over some
step is possible, and from where the left program stops writing only so many are left. -/
theorem pipeline_finishes {k k₀ : Kernel} {access : Access} {pointer : Word} (tidy : Tidy k₀)
    (held : (k₀.tasks k₀.current).state ≠ .free) (input : (k₀.tasks k₀.current).files 0 ≠ .free)
    (output : (k₀.tasks k₀.current).files 1 = .console)
    (made : makePipe k₀ access pointer = (0, k)) : ∃ c : Opened, c.shell = k₀.current ∧
      readWord k.view pointer.toNat = BitVec.ofNat 64 c.readEnd.val ∧
      readWord k.view (pointer.toNat + 8) = BitVec.ofNat 64 c.writeEnd.val ∧
      ∀ s, Reached c (begin k) s →
        (Active s → ∃ e, Quiet e ∧ (step c.shell c.readEnd c.writeEnd s e).isSome) ∧
        ∀ es s', (∀ e ∈ es, Quiet e) → run c s es = some s' → es.length ≤ work c s := by
  obtain ⟨c, shell, first, second, inv⟩ := opened_of_makePipe tidy held input output made
  refine ⟨c, shell, first, second, fun s reached => ?_⟩
  have here := reached_inv inv reached
  refine ⟨active_moves here, fun es s' quiet moved => ?_⟩
  have spent := quiet_run here quiet moved
  omega

theorem pipeline_finishes_prompt :
    let k := (makePipe prompt lowHalf 0x400000).2
    ∃ c : Opened, c.shell = prompt.current ∧
      readWord k.view (0x400000 : Word).toNat = BitVec.ofNat 64 c.readEnd.val ∧
      readWord k.view ((0x400000 : Word).toNat + 8) = BitVec.ofNat 64 c.writeEnd.val ∧
      ∀ s, Reached c (begin k) s →
        (Active s → ∃ e, Quiet e ∧ (step c.shell c.readEnd c.writeEnd s e).isSome) ∧
        ∀ es s', (∀ e ∈ es, Quiet e) → run c s es = some s' → es.length ≤ work c s :=
  pipeline_finishes prompt_tidy (by decide) (by decide) (by decide) prompt_opens

end Progress

end FiveAM.Userland.PipeProgress
