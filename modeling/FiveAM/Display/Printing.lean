/- GID: FiveAM/Display/Printing
   source: kernel/src/sync.rs, kernel/src/serial.rs, kernel/src/interrupts.rs
   digest: Printing under a lock that turns interrupts off, by tasks and by interrupt handlers. -/

import FiveAM.Lib.Runs
import Mathlib.Data.List.Basic
import Mathlib.Logic.Function.Basic

set_option autoImplicit false
set_option relaxedAutoImplicit false

namespace FiveAM.Display.Printing

open FiveAM.Lib.Runs

section Source

/-- What code does with the console and the interrupt flag; the closure of `without_interrupts`
stands between `mask` and `unmask`. -/
inductive Act where
  | print (text : String)
  | mask
  | unmask

/-- How far the first act of some code has come. -/
inductive Stage where
  | ready
  | asked (wereEnabled : Bool)
  | disabled (wereEnabled : Bool)
  | sending (wereEnabled : Bool) (text : String) (left : List UInt8)
  | drawing (wereEnabled : Bool) (left : List Char)
  | unlocked (wereEnabled : Bool)

/-- The rest of some code, with the flags that its open `without_interrupts` have saved. -/
structure Thread where
  code : List Act
  saved : List Bool
  stage : Stage

def Thread.fresh (code : List Act) : Thread := ⟨code, [], .ready⟩

/-- The interrupt flag, the lock of the console, what went over the wire and to the screen, and
who has taken the lock to print what. -/
structure Console (ω : Type) where
  enabled : Bool
  locked : Bool
  serial : List UInt8
  screen : List Char
  taken : List (ω × String)

/-- What `send` makes of the bytes of a text: a terminal expects a carriage return. -/
def wire (text : String) : List UInt8 :=
  text.toByteArray.data.toList.flatMap fun byte => if byte = 10 then [13, 10] else [byte]

/-- What is replayed to the screen, when there is one. -/
def drawn (active : Bool) (text : String) : List Char := if active then text.toList else []

/-- One instruction's worth of code; `enable` is only called where the flag was set before. -/
def advance {ω : Type} (active : Bool) (who : ω) (c : Console ω) (t : Thread) :
    Option (Console ω × Thread) :=
  match t.stage with
  | .ready =>
      match t.code, t.saved with
      | .unmask :: rest, were :: saved =>
          some ({ c with enabled := c.enabled || were }, ⟨rest, saved, .ready⟩)
      | .mask :: _, _ => some (c, { t with stage := .asked c.enabled })
      | .print _ :: _, _ => some (c, { t with stage := .asked c.enabled })
      | _, _ => none
  | .asked were =>
      match t.code with
      | .mask :: rest => some ({ c with enabled := false }, ⟨rest, were :: t.saved, .ready⟩)
      | .print _ :: _ => some ({ c with enabled := false }, { t with stage := .disabled were })
      | _ => none
  | .disabled were =>
      match t.code with
      | .print text :: rest =>
          if c.locked then
            some ({ c with enabled := c.enabled || were }, { t with stage := .ready })
          else some ({ c with locked := true, taken := c.taken ++ [(who, text)] },
            ⟨rest, t.saved, .sending were text (wire text)⟩)
      | _ => none
  | .sending were text [] => some (c, { t with stage := .drawing were (drawn active text) })
  | .sending were text (byte :: left) =>
      some ({ c with serial := c.serial ++ [byte] }, { t with stage := .sending were text left })
  | .drawing were [] => some ({ c with locked := false }, { t with stage := .unlocked were })
  | .drawing were (ch :: left) =>
      some ({ c with screen := c.screen ++ [ch] }, { t with stage := .drawing were left })
  | .unlocked were => some ({ c with enabled := c.enabled || were }, { t with stage := .ready })

/-- The processor runs a task or, on top of it, an interrupt handler; every task that was
interrupted has its flag in the frame the processor pushed. -/
structure Machine (ι : Type) where
  console : Console (Option ι)
  current : ι
  tasks : ι → Thread
  flags : ι → Bool
  handler : Option Thread

/-- Some code goes on, an interrupt comes in, or a handler returns to a task. -/
inductive Event (ι : Type) where
  | turn
  | interrupt (code : List Act)
  | iret (next : ι)

variable {ι : Type} [DecidableEq ι]

def step (active : Bool) (m : Machine ι) : Event ι → Option (Machine ι)
  | .turn =>
      match m.handler with
      | some t => (advance active none m.console t).map fun moved =>
          { m with console := moved.1, handler := some moved.2 }
      | none => (advance active (some m.current) m.console (m.tasks m.current)).map fun moved =>
          { m with console := moved.1, tasks := Function.update m.tasks m.current moved.2 }
  | .interrupt code =>
      if m.handler.isNone ∧ m.console.enabled then
        some { m with
          console := { m.console with enabled := false }
          flags := Function.update m.flags m.current m.console.enabled
          handler := some (Thread.fresh code) }
      else none
  | .iret next =>
      match m.handler with
      | some ⟨[], [], .ready⟩ =>
          some { m with
            console := { m.console with enabled := m.flags next }
            current := next
            handler := none }
      | _ => none

/-- Nobody has printed, and every task starts with interrupts enabled. -/
def boot (first : ι) (code : ι → List Act) : Machine ι where
  console := ⟨true, false, [], [], []⟩
  current := first
  tasks i := Thread.fresh (code i)
  flags _ := true
  handler := none

end Source

section Threads

variable {ω : Type} {active : Bool} {who : ω} {c c' : Console ω} {t t' : Thread} {base : Bool}

/-- The interrupt flag within some open `without_interrupts`. -/
def ambient (base : Bool) : List Bool → Bool
  | [] => base
  | _ :: _ => false

def Nested (base : Bool) : List Bool → Prop
  | [] => True
  | were :: saved => were = ambient base saved ∧ Nested base saved

/-- What code that runs finds in the flag and the lock. -/
def Held (base : Bool) (c : Console ω) (t : Thread) : Prop :=
  match t.stage with
  | .ready => c.enabled = ambient base t.saved ∧ c.locked = false
  | .asked were => c.enabled = ambient base t.saved ∧ were = ambient base t.saved ∧ c.locked = false
  | .disabled were => c.enabled = false ∧ were = ambient base t.saved ∧ c.locked = false
  | .sending were _ _ => c.enabled = false ∧ were = ambient base t.saved ∧ c.locked = true
  | .drawing were _ => c.enabled = false ∧ were = ambient base t.saved ∧ c.locked = true
  | .unlocked were => c.enabled = false ∧ were = ambient base t.saved ∧ c.locked = false

/-- All prints so far, whole and one after the other. -/
def serialOf (taken : List (ω × String)) : List UInt8 := taken.flatMap fun print => wire print.2

def screenOf (active : Bool) (taken : List (ω × String)) : List Char :=
  taken.flatMap fun print => drawn active print.2

theorem serialOf_snoc (before : List (ω × String)) (writer : ω) (text : String) :
    serialOf (before ++ [(writer, text)]) = serialOf before ++ wire text := by
  rw [serialOf, List.flatMap_append, List.flatMap_singleton]
  rfl

theorem screenOf_snoc (before : List (ω × String)) (writer : ω) (text : String) :
    screenOf active (before ++ [(writer, text)]) = screenOf active before ++ drawn active text := by
  rw [screenOf, List.flatMap_append, List.flatMap_singleton]
  rfl

def Emitted (active : Bool) (c : Console ω) (t : Thread) : Prop :=
  match t.stage with
  | .sending _ text left => ∃ before who sent, c.taken = before ++ [(who, text)] ∧
      sent ++ left = wire text ∧ c.serial = serialOf before ++ sent ∧
      c.screen = screenOf active before
  | .drawing _ left => ∃ before who text shown, c.taken = before ++ [(who, text)] ∧
      shown ++ left = drawn active text ∧ c.serial = serialOf c.taken ∧
      c.screen = screenOf active before ++ shown
  | _ => c.serial = serialOf c.taken ∧ c.screen = screenOf active c.taken

structure Running (active base : Bool) (c : Console ω) (t : Thread) : Prop where
  nested : Nested base t.saved
  held : Held base c t
  emitted : Emitted active c t

def texts (code : List Act) : List String :=
  code.filterMap fun act => match act with
    | .print text => some text
    | _ => none

theorem sending_kept {code : List Act} {saved : List Bool} {were : Bool} {text : String}
    {left : List UInt8} (running : Running active base c ⟨code, saved, .sending were text left⟩)
    (moved : advance active who c ⟨code, saved, .sending were text left⟩ = some (c', t')) :
    Running active base c' t' ∧ c'.taken = c.taken ∧ texts t'.code = texts code := by
  obtain ⟨nested, held, emitted⟩ := running
  obtain ⟨before, writer, sent, taken, all, serial, screen⟩ := emitted
  cases left with
  | nil =>
      obtain ⟨rfl, rfl⟩ := Prod.mk.inj (Option.some.inj moved)
      refine ⟨⟨nested, held, before, writer, text, [], taken, rfl, ?_, ?_⟩, rfl, rfl⟩
      · rw [List.append_nil] at all
        rw [serial, taken, all, serialOf_snoc]
      · exact screen.trans (List.append_nil _).symm
  | cons byte left =>
      obtain ⟨rfl, rfl⟩ := Prod.mk.inj (Option.some.inj moved)
      refine ⟨⟨nested, held, before, writer, sent ++ [byte], taken, ?_, ?_, screen⟩,
        rfl, rfl⟩
      · rw [List.append_assoc]
        exact all
      · rw [serial, List.append_assoc]

theorem drawing_kept {code : List Act} {saved : List Bool} {were : Bool} {left : List Char}
    (running : Running active base c ⟨code, saved, .drawing were left⟩)
    (moved : advance active who c ⟨code, saved, .drawing were left⟩ = some (c', t')) :
    Running active base c' t' ∧ c'.taken = c.taken ∧ texts t'.code = texts code := by
  obtain ⟨nested, held, emitted⟩ := running
  obtain ⟨before, writer, text, shown, taken, all, serial, screen⟩ := emitted
  obtain ⟨off, found, taking⟩ := held
  cases left with
  | nil =>
      obtain ⟨rfl, rfl⟩ := Prod.mk.inj (Option.some.inj moved)
      refine ⟨⟨nested, ⟨off, found, rfl⟩, serial, ?_⟩, rfl, rfl⟩
      rw [List.append_nil] at all
      show c.screen = screenOf active c.taken
      rw [screen, taken, all, screenOf_snoc]
  | cons ch left =>
      obtain ⟨rfl, rfl⟩ := Prod.mk.inj (Option.some.inj moved)
      refine ⟨⟨nested, ⟨off, found, taking⟩, before, writer, text, shown ++ [ch], taken, ?_,
        serial, ?_⟩, rfl, rfl⟩
      · rw [List.append_assoc]
        exact all
      · rw [screen, List.append_assoc]

theorem advance_kept (running : Running active base c t)
    (moved : advance active who c t = some (c', t')) :
    Running active base c' t' ∧ (c'.taken = c.taken ∧ texts t'.code = texts t.code ∨
      ∃ text, c'.taken = c.taken ++ [(who, text)] ∧ texts t.code = text :: texts t'.code) := by
  obtain ⟨nested, held, emitted⟩ := running
  obtain ⟨code, saved, stage⟩ := t
  cases stage with
  | ready =>
      obtain ⟨flag, free⟩ := held
      simp only [advance] at moved
      split at moved
      · obtain ⟨rfl, rfl⟩ := Prod.mk.inj (Option.some.inj moved)
        obtain ⟨found, nested⟩ := nested
        refine ⟨⟨nested, ⟨?_, free⟩, emitted⟩, Or.inl ⟨rfl, rfl⟩⟩
        rw [show c.enabled = false from flag]
        exact found
      · obtain ⟨rfl, rfl⟩ := Prod.mk.inj (Option.some.inj moved)
        exact ⟨⟨nested, ⟨flag, flag, free⟩, emitted⟩, Or.inl ⟨rfl, rfl⟩⟩
      · obtain ⟨rfl, rfl⟩ := Prod.mk.inj (Option.some.inj moved)
        exact ⟨⟨nested, ⟨flag, flag, free⟩, emitted⟩, Or.inl ⟨rfl, rfl⟩⟩
      · cases moved
  | asked were =>
      obtain ⟨-, found, free⟩ := held
      simp only [advance] at moved
      split at moved
      · obtain ⟨rfl, rfl⟩ := Prod.mk.inj (Option.some.inj moved)
        exact ⟨⟨⟨found, nested⟩, ⟨rfl, free⟩, emitted⟩, Or.inl ⟨rfl, rfl⟩⟩
      · obtain ⟨rfl, rfl⟩ := Prod.mk.inj (Option.some.inj moved)
        exact ⟨⟨nested, ⟨rfl, found, free⟩, emitted⟩, Or.inl ⟨rfl, rfl⟩⟩
      · cases moved
  | disabled were =>
      obtain ⟨off, found, free⟩ := held
      obtain ⟨serial, screen⟩ := emitted
      simp only [advance] at moved
      split at moved
      · rename_i text rest
        rw [if_neg (by rw [free]; exact Bool.false_ne_true)] at moved
        obtain ⟨rfl, rfl⟩ := Prod.mk.inj (Option.some.inj moved)
        refine ⟨⟨nested, ⟨off, found, rfl⟩, c.taken, who, [], rfl, rfl, ?_, screen⟩,
          Or.inr ⟨text, rfl, rfl⟩⟩
        exact serial.trans (List.append_nil _).symm
      · cases moved
  | sending were text left =>
      exact (sending_kept ⟨nested, held, emitted⟩ moved).imp_right Or.inl
  | drawing were left =>
      exact (drawing_kept ⟨nested, held, emitted⟩ moved).imp_right Or.inl
  | unlocked were =>
      obtain ⟨off, found, free⟩ := held
      obtain ⟨rfl, rfl⟩ := Prod.mk.inj (Option.some.inj moved)
      refine ⟨⟨nested, ⟨?_, free⟩, emitted⟩, Or.inl ⟨rfl, rfl⟩⟩
      rw [off]
      exact found

def Whole (active : Bool) (c : Console ω) : Prop :=
  c.serial = serialOf c.taken ∧ c.screen = screenOf active c.taken

theorem emitted_whole (running : Running active base c t) :
    ∃ before last sent shown, c.taken = before ++ last ∧ last.length ≤ 1 ∧
      sent <+: serialOf last ∧ c.serial = serialOf before ++ sent ∧
      shown <+: screenOf active last ∧ c.screen = screenOf active before ++ shown ∧
      (c.locked = false → last = []) := by
  obtain ⟨-, held, emitted⟩ := running
  obtain ⟨code, saved, stage⟩ := t
  have whole : Whole active c → ∃ before last sent shown, c.taken = before ++ last ∧
      last.length ≤ 1 ∧ sent <+: serialOf last ∧ c.serial = serialOf before ++ sent ∧
      shown <+: screenOf active last ∧ c.screen = screenOf active before ++ shown ∧
      (c.locked = false → last = []) := fun all =>
    ⟨c.taken, [], [], [], (List.append_nil _).symm, Nat.zero_le _, List.nil_prefix,
      all.1.trans (List.append_nil _).symm, List.nil_prefix,
      all.2.trans (List.append_nil _).symm, fun _ => rfl⟩
  cases stage with
  | ready => exact whole emitted
  | asked were => exact whole emitted
  | disabled were => exact whole emitted
  | unlocked were => exact whole emitted
  | sending were text left =>
      obtain ⟨before, writer, sent, taken, all, serial, screen⟩ := emitted
      refine ⟨before, [(writer, text)], sent, [], taken, Nat.le_refl 1, ⟨left, ?_⟩, serial,
        List.nil_prefix, screen.trans (List.append_nil _).symm, fun free => ?_⟩
      · rw [all, serialOf, List.flatMap_singleton]
      · exact absurd (held.2.2.symm.trans free) Bool.noConfusion
  | drawing were left =>
      obtain ⟨before, writer, text, shown, taken, all, serial, screen⟩ := emitted
      refine ⟨before, [(writer, text)], wire text, shown, taken, Nat.le_refl 1, ⟨[], ?_⟩, ?_,
        ⟨left, ?_⟩, screen, fun free => ?_⟩
      · rw [List.append_nil, serialOf, List.flatMap_singleton]
      · rw [serial, taken, serialOf_snoc]
      · rw [all, screenOf, List.flatMap_singleton]
      · exact absurd (held.2.2.symm.trans free) Bool.noConfusion

structure Parked (t : Thread) : Prop where
  outside : t.saved = []
  stage : t.stage = .ready ∨ t.stage = .asked true

theorem parked_of_enabled (running : Running active base c t) (enabled : c.enabled = true) :
    base = true ∧ Parked t ∧ c.locked = false ∧ Whole active c := by
  obtain ⟨nested, held, emitted⟩ := running
  obtain ⟨code, saved, stage⟩ := t
  have outer : c.enabled = ambient base saved → base = true ∧ saved = [] := by
    intro flag
    cases saved with
    | nil => exact ⟨flag.symm.trans enabled, rfl⟩
    | cons were saved => exact absurd (flag.symm.trans enabled) Bool.false_ne_true
  cases stage with
  | ready =>
      obtain ⟨flag, free⟩ := held
      obtain ⟨rfl, rfl⟩ := outer flag
      exact ⟨rfl, ⟨rfl, Or.inl rfl⟩, free, emitted⟩
  | asked were =>
      obtain ⟨flag, found, free⟩ := held
      obtain ⟨rfl, rfl⟩ := outer flag
      obtain rfl : were = true := found
      exact ⟨rfl, ⟨rfl, Or.inr rfl⟩, free, emitted⟩
  | disabled were => exact absurd (held.1.symm.trans enabled) Bool.false_ne_true
  | sending were text left => exact absurd (held.1.symm.trans enabled) Bool.false_ne_true
  | drawing were left => exact absurd (held.1.symm.trans enabled) Bool.false_ne_true
  | unlocked were => exact absurd (held.1.symm.trans enabled) Bool.false_ne_true

theorem Parked.running (parked : Parked t) (enabled : c.enabled = true) (free : c.locked = false)
    (whole : Whole active c) : Running active true c t := by
  obtain ⟨code, saved, stage⟩ := t
  obtain ⟨outside, here⟩ := parked
  obtain rfl : saved = [] := outside
  rcases here with here | here
  · obtain rfl : stage = .ready := here
    exact ⟨trivial, ⟨enabled, free⟩, whole⟩
  · obtain rfl : stage = .asked true := here
    exact ⟨trivial, ⟨enabled, rfl, free⟩, whole⟩

end Threads

section Machines

variable {ι : Type} [DecidableEq ι] {active : Bool} {code : ι → List Act} {m m' : Machine ι}

/-- The texts that somebody has taken the lock to print. -/
def textsOf (who : Option ι) (taken : List (Option ι × String)) : List String :=
  taken.filterMap fun print => if print.1 = who then some print.2 else none

theorem textsOf_append (who other : Option ι) (taken : List (Option ι × String)) (text : String) :
    textsOf who (taken ++ [(other, text)]) =
      textsOf who taken ++ if other = who then [text] else [] := by
  rw [textsOf, List.filterMap_append]
  by_cases same : other = who
  · simp [textsOf, same]
  · simp [textsOf, same]

/-- The code that runs: a handler, if there is one. -/
def Machine.running (m : Machine ι) : Thread := m.handler.getD (m.tasks m.current)

structure Kept (active : Bool) (code : ι → List Act) (m : Machine ι) : Prop where
  busy : Running active m.handler.isNone m.console m.running
  parked : ∀ i, (m.handler.isSome = true ∨ i ≠ m.current) →
    Parked (m.tasks i) ∧ m.flags i = true
  counted : ∀ i, textsOf (some i) m.console.taken ++ texts (m.tasks i).code = texts (code i)

theorem kept_boot (active : Bool) (first : ι) (code : ι → List Act) :
    Kept active code (boot first code) :=
  ⟨⟨trivial, ⟨rfl, rfl⟩, rfl, rfl⟩, fun _ _ => ⟨⟨rfl, Or.inl rfl⟩, rfl⟩, fun _ => rfl⟩

theorem kept_handler {t : Thread} (kept : Kept active code m) (inside : m.handler = some t)
    {c : Console (Option ι)} {t' : Thread}
    (moved : advance active none m.console t = some (c, t')) :
    Kept active code { m with console := c, handler := some t' } := by
  have busy := kept.busy
  rw [Machine.running, inside] at busy
  obtain ⟨later, counts⟩ := advance_kept busy moved
  refine ⟨later, fun i _ => kept.parked i (Or.inl (by rw [inside]; rfl)), fun i => ?_⟩
  rw [← kept.counted i]
  rcases counts with ⟨same, -⟩ | ⟨text, more, -⟩
  · exact congrArg (textsOf (some i) · ++ _) same
  · show textsOf (some i) c.taken ++ _ = _
    rw [more, textsOf_append, if_neg (by simp), List.append_nil]

theorem kept_task (kept : Kept active code m) (outside : m.handler = none)
    {c : Console (Option ι)} {t' : Thread}
    (moved : advance active (some m.current) m.console (m.tasks m.current) = some (c, t')) :
    Kept active code { m with console := c, tasks := Function.update m.tasks m.current t' } := by
  have busy := kept.busy
  rw [Machine.running, outside, Option.getD_none] at busy
  obtain ⟨later, counts⟩ := advance_kept busy moved
  refine ⟨?_, fun i elsewhere => ?_, fun i => ?_⟩
  · show Running active m.handler.isNone c
      (m.handler.getD (Function.update m.tasks m.current t' m.current))
    rw [outside, Function.update_self]
    exact later
  · have apart : i ≠ m.current := by
      rcases elsewhere with inside | apart
      · exact absurd (outside ▸ inside : (none : Option Thread).isSome = true) Bool.false_ne_true
      · exact apart
    show Parked (Function.update m.tasks m.current t' i) ∧ m.flags i = true
    rw [Function.update_of_ne apart]
    exact kept.parked i (Or.inr apart)
  · rw [← kept.counted i]
    show textsOf (some i) c.taken ++ texts (Function.update m.tasks m.current t' i).code = _
    rcases eq_or_ne i m.current with rfl | apart
    · rw [Function.update_self]
      rcases counts with ⟨same, rest⟩ | ⟨text, more, rest⟩
      · rw [same, rest]
      · rw [more, textsOf_append, if_pos rfl, rest, List.append_assoc, List.singleton_append]
    · rw [Function.update_of_ne apart]
      rcases counts with ⟨same, -⟩ | ⟨text, more, -⟩
      · rw [same]
      · rw [more, textsOf_append, if_neg fun same => apart (Option.some.inj same).symm,
          List.append_nil]

theorem kept_step (kept : Kept active code m) {e : Event ι} (taken : step active m e = some m') :
    Kept active code m' := by
  cases e with
  | turn =>
      simp only [step] at taken
      split at taken
      · rename_i t inside
        obtain ⟨moved, goes, rfl⟩ := Option.map_eq_some_iff.mp taken
        exact kept_handler kept inside goes
      · rename_i outside
        obtain ⟨moved, goes, rfl⟩ := Option.map_eq_some_iff.mp taken
        exact kept_task kept outside goes
  | interrupt acts =>
      obtain ⟨⟨idle, enabled⟩, rest⟩ := Option.ite_none_right_eq_some.mp taken
      obtain rfl := Option.some.inj rest
      obtain outside := Option.isNone_iff_eq_none.mp idle
      have busy := kept.busy
      rw [Machine.running, outside] at busy
      obtain ⟨-, parked, free, whole⟩ := parked_of_enabled busy enabled
      refine ⟨⟨trivial, ⟨rfl, free⟩, whole⟩, fun i _ => ?_, kept.counted⟩
      show Parked (m.tasks i) ∧ Function.update m.flags m.current m.console.enabled i = true
      rcases eq_or_ne i m.current with rfl | apart
      · rw [Function.update_self]
        exact ⟨parked, enabled⟩
      · rw [Function.update_of_ne apart]
        exact kept.parked i (Or.inr apart)
  | iret next =>
      simp only [step] at taken
      split at taken
      · rename_i inside
        obtain rfl := Option.some.inj taken
        have busy := kept.busy
        rw [Machine.running, inside] at busy
        obtain ⟨-, ⟨-, free⟩, whole⟩ := busy
        obtain ⟨parked, flag⟩ := kept.parked next (Or.inl (by rw [inside]; rfl))
        exact ⟨parked.running flag free whole,
          fun i _ => kept.parked i (Or.inl (by rw [inside]; rfl)), kept.counted⟩
      · cases taken

/-- Printing by tasks and by interrupt handlers, with interrupts coming in wherever they are
enabled and any task going on after them. -/
theorem prints_arrive_whole (first : ι)
    (reached : Reached (step active) (fun m => m = boot first code) (fun _ _ => True) m) :
    (∃ before last sent shown, m.console.taken = before ++ last ∧ last.length ≤ 1 ∧
      sent <+: serialOf last ∧ m.console.serial = serialOf before ++ sent ∧
      shown <+: screenOf active last ∧ m.console.screen = screenOf active before ++ shown ∧
      (m.console.locked = false → last = [])) ∧
    (∀ i, textsOf (some i) m.console.taken ++ texts (m.tasks i).code = texts (code i)) ∧
    (∀ were, m.running.stage = .disabled were → m.console.locked = false) ∧
    (m.console.enabled = true ↔ m.handler = none ∧ m.running.saved = [] ∧
      (m.running.stage = .ready ∨ ∃ were, m.running.stage = .asked were)) := by
  have kept : Kept active code m := by
    refine reached.invariant (P := Kept active code) ?_ fun m e m' holds _ => kept_step holds
    rintro m rfl
    exact kept_boot active first code
  refine ⟨emitted_whole kept.busy, kept.counted, fun were here => ?_, fun enabled => ?_, ?_⟩
  · have held := kept.busy.held
    rw [Held, here] at held
    exact held.2.2
  · obtain ⟨base, parked, -⟩ := parked_of_enabled kept.busy enabled
    exact ⟨Option.isNone_iff_eq_none.mp base, parked.outside, parked.stage.imp id fun asked =>
      ⟨true, asked⟩⟩
  · rintro ⟨outside, outer, here | ⟨were, here⟩⟩
    · have held := kept.busy.held
      rw [Held, here] at held
      rw [held.1, outer, outside]
      rfl
    · have held := kept.busy.held
      rw [Held, here] at held
      rw [held.1, outer, outside]
      rfl

/-- A task that prints a line, and one that prints with interrupts turned off already. -/
def twoTasks : Nat → List Act
  | 0 => [.print "a\n"]
  | 1 => [.mask, .print "b", .unmask]
  | _ => []

/-- A handler that prints comes in when the first task has only looked at the flag, and the timer
when the second task is done. -/
def interleaved : List (Event Nat) :=
  ([.turn, .interrupt [.print "c"]] : List (Event Nat)) ++ List.replicate 8 Event.turn ++
    [Event.iret 1] ++ List.replicate 11 Event.turn ++ [Event.interrupt [], Event.iret 0] ++
    List.replicate 10 Event.turn

theorem prints_arrive_whole_two : ∃ m,
    runAll (step true) (boot 0 twoTasks) interleaved = some m ∧
      ∀ i, textsOf (some i) m.console.taken ++ texts (m.tasks i).code = texts (twoTasks i) := by
  obtain ⟨m, run⟩ : ∃ m, runAll (step true) (boot 0 twoTasks) interleaved = some m :=
    Option.isSome_iff_exists.mp (by decide +kernel)
  have begun : Reached (step true) (fun m => m = boot 0 twoTasks) (fun _ _ => True)
      (boot 0 twoTasks) := .start rfl
  have reached := begun.runAll (allAllowed_of_forall (fun _ _ _ => trivial) _) run
  exact ⟨m, run, (prints_arrive_whole 0 reached).2.1⟩

example : (runAll (step true) (boot 0 twoTasks) interleaved).map (fun m =>
    (m.console.serial, m.console.screen, m.console.enabled)) =
      some ([99, 98, 97, 13, 10], ['c', 'b', 'a', '\n'], true) := by decide +kernel

end Machines

end FiveAM.Display.Printing
