/- GID: FiveAM/Display/Terminal
   source: kernel/src/framebuffer.rs
   digest: The console as a terminal of text cells, and the texts that strike no cell twice over. -/

import FiveAM.Display.Font

set_option autoImplicit false
set_option relaxedAutoImplicit false

namespace FiveAM.Display.Terminal

open FiveAM.Display.Font

/-- A terminal: what was struck in each cell since it was blank, the newest first, by row
and column, and the cursor. -/
structure Screen where
  cells : Nat → Nat → List UInt8
  column : Nat
  row : Nat

namespace Screen

def blank : Screen := ⟨fun _ _ => [], 0, 0⟩

/-- What a cell shows: the last character struck in it. -/
def shown (t : Screen) (r c : Nat) : Option UInt8 := (t.cells r c).head?

/-- Every full row moves up by one, and the last one is blank. -/
def scroll (t : Screen) (rows : Nat) : Screen :=
  { t with cells := fun r c => if r + 1 < rows then t.cells (r + 1) c else [] }

def newline (t : Screen) (rows : Nat) : Screen :=
  if rows ≤ t.row + 1 then { t.scroll rows with column := 0, row := rows - 1 }
  else { t with column := 0, row := t.row + 1 }

/-- Past the last column a character goes to the next row. -/
def wrap (t : Screen) (columns rows : Nat) : Screen :=
  if columns ≤ t.column then t.newline rows else t

def strike (t : Screen) (byte : UInt8) : Screen where
  cells r c := if r = t.row ∧ c = t.column then byte :: t.cells r c else t.cells r c
  column := t.column + 1
  row := t.row

def writeByte (t : Screen) (columns rows : Nat) (byte : UInt8) : Screen :=
  if byte = 10 then t.newline rows
  else if byte = 13 then { t with column := 0 }
  else if byte = 8 then { t with column := t.column - 1 }
  else (t.wrap columns rows).strike byte

def write (t : Screen) (columns rows : Nat) (text : List UInt8) : Screen :=
  text.foldl (fun t byte => t.writeByte columns rows byte) t

end Screen

/-- The cursor is on the screen, or just past the end of a row. -/
structure OnScreen (t : Screen) (columns rows : Nat) : Prop where
  row : t.row < rows
  column : t.column ≤ columns

/-- A pixel of the ink of everything struck in a cell. -/
def layered (struck : List UInt8) (py px : Nat) : Bool := struck.any fun byte => inked byte py px

/-- Nothing but the last character of a cell shows. -/
def Plain (t : Screen) (columns rows : Nat) : Prop :=
  ∀ r c, r < rows → c < columns → ∀ py px, py < height → px < width →
    layered (t.cells r c) py px = (t.shown r c).any fun byte => inked byte py px

/-- The ink of one character is all in the ink of another. -/
def Covers (new old : UInt8) : Prop :=
  ∀ py px, py < height → px < width → inked old py px = true → inked new py px = true

/-- The character moves the cursor only, or covers what the cell it goes to shows. -/
def Covered (t : Screen) (columns rows : Nat) (byte : UInt8) : Prop :=
  byte = 10 ∨ byte = 13 ∨ byte = 8 ∨
    ∀ old, (t.wrap columns rows).shown (t.wrap columns rows).row (t.wrap columns rows).column =
      some old → Covers byte old

/-- Every character of a text is so where it is written. -/
def AllCovered (t : Screen) (columns rows : Nat) : List UInt8 → Prop
  | [] => True
  | byte :: rest => Covered t columns rows byte ∧
      AllCovered (t.writeByte columns rows byte) columns rows rest

section Moves

variable {t : Screen} {columns rows : Nat} {byte : UInt8}

theorem OnScreen.newline (on : OnScreen t columns rows) : OnScreen (t.newline rows) columns rows := by
  have row := on.row
  unfold Screen.newline
  split_ifs with full
  · exact ⟨by change rows - 1 < rows; omega, Nat.zero_le _⟩
  · exact ⟨by change t.row + 1 < rows; omega, Nat.zero_le _⟩

theorem newline_column : (t.newline rows).column = 0 := by
  unfold Screen.newline
  split_ifs
  · rfl
  · rfl

theorem OnScreen.wrap (on : OnScreen t columns rows) (wide : 0 < columns) :
    OnScreen (t.wrap columns rows) columns rows ∧ (t.wrap columns rows).column < columns := by
  unfold Screen.wrap
  split_ifs with full
  · exact ⟨on.newline, by rw [newline_column]; exact wide⟩
  · exact ⟨on, Nat.lt_of_not_le full⟩

theorem OnScreen.writeByte (on : OnScreen t columns rows) (wide : 0 < columns) :
    OnScreen (t.writeByte columns rows byte) columns rows := by
  have row := on.row
  have column := on.column
  unfold Screen.writeByte
  split_ifs
  · exact on.newline
  · exact ⟨row, Nat.zero_le _⟩
  · exact ⟨row, by change t.column - 1 ≤ columns; omega⟩
  · obtain ⟨on', inside⟩ := on.wrap wide
    exact ⟨on'.row, inside⟩

theorem Plain.newline (plain : Plain t columns rows) : Plain (t.newline rows) columns rows := by
  unfold Screen.newline
  split_ifs with full
  · intro r c low inside py px tall broad
    change layered (if r + 1 < rows then t.cells (r + 1) c else []) py px =
      (if r + 1 < rows then t.cells (r + 1) c else []).head?.any _
    split_ifs with below
    · exact plain (r + 1) c below inside py px tall broad
    · rfl
  · exact plain

theorem Plain.wrap (plain : Plain t columns rows) : Plain (t.wrap columns rows) columns rows := by
  unfold Screen.wrap
  split_ifs
  · exact plain.newline
  · exact plain

theorem plain_strike (plain : Plain t columns rows) (row : t.row < rows)
    (column : t.column < columns) : Plain (t.strike byte) columns rows ↔
      ∀ old, t.shown t.row t.column = some old → Covers byte old := by
  have here : (t.strike byte).cells t.row t.column = byte :: t.cells t.row t.column :=
    if_pos ⟨rfl, rfl⟩
  have before := plain t.row t.column row column
  refine ⟨fun after old was py px tall broad dark => ?_, fun covers r c low inside py px tall broad => ?_⟩
  · have now := after t.row t.column row column py px tall broad
    rw [Screen.shown, here] at now
    have under : layered (t.cells t.row t.column) py px = true := by
      rw [before py px tall broad, was]
      exact dark
    rw [layered, List.any_cons] at now
    rw [layered] at under
    rw [under, Bool.or_true] at now
    exact now.symm
  · by_cases same : r = t.row ∧ c = t.column
    · obtain ⟨rfl, rfl⟩ := same
      rw [Screen.shown, here, layered, List.any_cons]
      change (inked byte py px || layered (t.cells t.row t.column) py px) = inked byte py px
      rw [before py px tall broad]
      cases was : t.shown t.row t.column with
      | none => exact Bool.or_false _
      | some old =>
          cases dark : inked old py px with
          | false =>
              rw [Option.any_some, dark]
              exact Bool.or_false _
          | true => rw [covers old was py px tall broad dark, Bool.true_or]
    · have other : (t.strike byte).cells r c = t.cells r c := if_neg same
      rw [Screen.shown, other]
      exact plain r c low inside py px tall broad

theorem plain_writeByte (plain : Plain t columns rows) (on : OnScreen t columns rows)
    (wide : 0 < columns) :
    Plain (t.writeByte columns rows byte) columns rows ↔ Covered t columns rows byte := by
  unfold Screen.writeByte Covered
  split_ifs with feed home back
  · simp only [feed, true_or, iff_true]
    exact plain.newline
  · simp only [home, true_or, or_true, iff_true]
    exact plain
  · simp only [back, true_or, or_true, iff_true]
    exact plain
  · obtain ⟨on', inside⟩ := on.wrap wide
    rw [plain_strike plain.wrap on'.row inside]
    simp only [feed, home, back, false_or]

/-- A text shows as it was written, from its first character to its last, just when each
character covers what its cell showed. -/
theorem plain_write (plain : Plain t columns rows) (on : OnScreen t columns rows)
    (wide : 0 < columns) (text : List UInt8) :
    (∀ begun, begun <+: text → Plain (t.write columns rows begun) columns rows) ↔
      AllCovered t columns rows text := by
  induction text generalizing t with
  | nil =>
      refine ⟨fun _ => trivial, fun _ begun before => ?_⟩
      rw [List.prefix_nil.mp before]
      exact plain
  | cons byte rest ih =>
      refine ⟨fun all => ?_, fun covered begun before => ?_⟩
      · have first : Plain (t.writeByte columns rows byte) columns rows :=
          all [byte] (List.prefix_append [byte] rest)
        refine ⟨(plain_writeByte plain on wide).mp first, (ih first (on.writeByte wide)).mp ?_⟩
        exact fun begun before => all (byte :: begun) (List.cons_prefix_cons.mpr ⟨rfl, before⟩)
      · have first := (plain_writeByte plain on wide).mpr covered.1
        cases begun with
        | nil => exact plain
        | cons byte' begun =>
            obtain ⟨rfl, later⟩ := List.cons_prefix_cons.mp before
            exact (ih first (on.writeByte wide)).mpr covered.2 begun later

theorem plain_blank : Plain Screen.blank columns rows := fun _ _ _ _ _ _ _ _ => rfl

theorem OnScreen.write (on : OnScreen t columns rows) (wide : 0 < columns) (text : List UInt8) :
    OnScreen (t.write columns rows text) columns rows := by
  induction text generalizing t with
  | nil => exact on
  | cons byte rest ih => exact ih (on.writeByte wide)

end Moves

end FiveAM.Display.Terminal
