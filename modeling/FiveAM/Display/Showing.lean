/- GID: FiveAM/Display/Showing
   source: kernel/src/framebuffer.rs
   digest: The framebuffer console refines a terminal of text cells, ink laid over ink. -/

import FiveAM.Display.Framebuffer
import FiveAM.Display.Terminal
import FiveAM.Lib.Loops

set_option autoImplicit false
set_option relaxedAutoImplicit false

namespace FiveAM.Display.Showing

open FiveAM.Display.Font (inked glyph glyph_length)
open FiveAM.Display.Framebuffer FiveAM.Display.Terminal
open FiveAM.Lib.ByteRegions FiveAM.Lib.Checked FiveAM.Lib.Loops

structure Fits (g : FrameBufferInfo) : Prop where
  wide : Font.width ≤ g.width
  tall : Font.height ≤ g.height
  stride : g.width ≤ g.stride
  depth : 1 ≤ g.bytesPerPixel
  channels : g.pixelFormat = .rgb ∨ g.pixelFormat = .bgr → 3 ≤ g.bytesPerPixel

/-- Which pixels are lit, by pixel row and column. -/
abbrev Ink := Nat × Nat → Bool

section Pixels

variable {g : FrameBufferInfo} {ink : Ink} {x y : Nat}

def lit (g : FrameBufferInfo) : List UInt8 :=
  match g.pixelFormat with
  | .rgb => red :: green :: blue :: List.replicate (g.bytesPerPixel - 3) 0
  | .bgr => blue :: green :: red :: List.replicate (g.bytesPerPixel - 3) 0
  | .u8 => grey :: List.replicate (g.bytesPerPixel - 1) 0
  | .unknown => List.replicate g.bytesPerPixel 0xC0

def shade (g : FrameBufferInfo) (on : Bool) : List UInt8 :=
  if on then lit g else List.replicate g.bytesPerPixel 0

theorem shade_length (fits : Fits g) (on : Bool) : (shade g on).length = g.bytesPerPixel := by
  have depth := fits.depth
  have channels := fits.channels
  unfold shade lit
  split_ifs
  · cases format : g.pixelFormat with
    | rgb =>
        have := channels (.inl format)
        simp
        omega
    | bgr =>
        have := channels (.inr format)
        simp
        omega
    | u8 =>
        simp
        omega
    | unknown => simp
  · simp

theorem shade_inj (fits : Fits g) {on off : Bool} (same : shade g on = shade g off) : on = off := by
  have apart : shade g true ≠ shade g false := by
    obtain ⟨n, depth⟩ := Nat.exists_eq_add_of_le' fits.depth
    intro equal
    have first := congrArg List.head? equal
    unfold shade lit at first
    rw [depth] at first
    cases format : g.pixelFormat <;> rw [format] at first <;>
      simp [List.replicate_succ, red, green, blue, grey] at first
  cases on <;> cases off
  · rfl
  · exact absurd same.symm apart
  · exact absurd same apart
  · rfl

theorem paint_shade (fits : Fits g) (on : Bool) :
    paint (shade g on) g.pixelFormat = some (shade g true) := by
  have channels := fits.channels
  obtain ⟨n, depth⟩ := Nat.exists_eq_add_of_le' fits.depth
  unfold shade lit
  cases format : g.pixelFormat with
  | rgb =>
      obtain ⟨k, three⟩ := Nat.exists_eq_add_of_le' (channels (.inl format))
      rw [three]
      cases on <;> simp [paint, store, List.replicate_succ]
  | bgr =>
      obtain ⟨k, three⟩ := Nat.exists_eq_add_of_le' (channels (.inr format))
      rw [three]
      cases on <;> simp [paint, store, List.replicate_succ]
  | u8 =>
      rw [depth]
      cases on <;> simp [paint, store, List.replicate_succ]
  | unknown => cases on <;> simp [paint]

/-- The buffer of a display with this ink on it. -/
def render (g : FrameBufferInfo) (ink : Ink) : List UInt8 :=
  (List.range (g.stride * g.height * g.bytesPerPixel)).map fun n =>
    (shade g (ink (n / g.bytesPerPixel / g.stride, n / g.bytesPerPixel % g.stride))).getD
      (n % g.bytesPerPixel) 0

@[simp] theorem render_length : (render g ink).length = g.stride * g.height * g.bytesPerPixel := by
  simp [render]

theorem render_get {n : Nat} (inside : n < g.stride * g.height * g.bytesPerPixel) :
    (render g ink)[n]? = some
      ((shade g (ink (n / g.bytesPerPixel / g.stride, n / g.bytesPerPixel % g.stride))).getD
        (n % g.bytesPerPixel) 0) := by
  rw [render, List.getElem?_map, List.getElem?_range inside]
  rfl

theorem render_past {n : Nat} (past : g.stride * g.height * g.bytesPerPixel ≤ n) :
    (render g ink)[n]? = none := List.getElem?_eq_none (by rw [render_length]; exact past)

private theorem block_place {size k i : Nat} (inside : i < size) :
    (k * size + i) / size = k ∧ (k * size + i) % size = i := by
  rw [Nat.mul_comm]
  exact ⟨by rw [Nat.mul_add_div (by omega), Nat.div_eq_of_lt inside, Nat.add_zero],
    by rw [Nat.mul_add_mod, Nat.mod_eq_of_lt inside]⟩

private theorem pixel_end (x_in : x < g.stride) (y_in : y < g.height) :
    (y * g.stride + x) * g.bytesPerPixel + g.bytesPerPixel ≤
      g.stride * g.height * g.bytesPerPixel := by
  have row : (y + 1) * g.stride ≤ g.height * g.stride := Nat.mul_le_mul_right _ y_in
  have pixel : y * g.stride + x + 1 ≤ g.stride * g.height := by
    rw [Nat.add_mul, Nat.one_mul] at row
    rw [Nat.mul_comm g.stride]
    omega
  calc (y * g.stride + x) * g.bytesPerPixel + g.bytesPerPixel
      = (y * g.stride + x + 1) * g.bytesPerPixel := by rw [Nat.add_mul _ 1, Nat.one_mul]
    _ ≤ g.stride * g.height * g.bytesPerPixel := Nat.mul_le_mul_right _ pixel

theorem shade_get (fits : Fits g) {on : Bool} {i : Nat} (inside : i < g.bytesPerPixel) :
    (shade g on)[i]? = some ((shade g on).getD i 0) := by
  have bound : i < (shade g on).length := by rwa [shade_length fits]
  rw [List.getD_eq_getElem _ _ bound, List.getElem?_eq_getElem bound]

theorem render_pixel (fits : Fits g) (x_in : x < g.stride) (y_in : y < g.height) :
    ((render g ink).drop ((y * g.stride + x) * g.bytesPerPixel)).take g.bytesPerPixel =
      shade g (ink (y, x)) := by
  have bound := pixel_end x_in y_in
  obtain ⟨row, column⟩ := block_place (k := y) x_in
  refine List.ext_getElem? fun i => ?_
  by_cases inside : i < g.bytesPerPixel
  · obtain ⟨pixel, place⟩ := block_place (k := y * g.stride + x) inside
    rw [List.getElem?_take_of_lt inside, List.getElem?_drop, render_get (by omega), pixel, place,
      row, column, shade_get fits inside]
  · rw [List.getElem?_take_eq_none (by omega),
      List.getElem?_eq_none (by rw [shade_length fits]; omega)]

def mark (x y : Nat) : Ink := fun p => decide (p = (y, x))

theorem render_mark (fits : Fits g) (x_in : x < g.stride) (y_in : y < g.height) :
    splice (render g ink) ((y * g.stride + x) * g.bytesPerPixel) (shade g true) =
      render g fun p => ink p || mark x y p := by
  have bound := pixel_end x_in y_in
  have length := shade_length fits true
  obtain ⟨row, column⟩ := block_place (k := y) x_in
  refine List.ext_getElem? fun n => ?_
  rw [splice_get (by rw [length, render_length]; exact bound), length]
  by_cases inside : n < g.stride * g.height * g.bytesPerPixel
  · rw [render_get inside, render_get inside]
    split_ifs with here
    · obtain ⟨i, rfl⟩ := Nat.exists_eq_add_of_le here.1
      have i_in : i < g.bytesPerPixel := by omega
      obtain ⟨pixel, place⟩ := block_place (k := y * g.stride + x) i_in
      rw [Nat.add_sub_cancel_left, shade_get fits i_in, pixel, place, row, column]
      simp [mark]
    · have off : mark x y (n / g.bytesPerPixel / g.stride, n / g.bytesPerPixel % g.stride) =
          false := by
        refine decide_eq_false fun same => here ?_
        obtain ⟨at_row, at_column⟩ := Prod.mk.inj same
        have pixel := Nat.div_add_mod (n / g.bytesPerPixel) g.stride
        rw [at_row, at_column, Nat.mul_comm] at pixel
        have byte := Nat.div_add_mod n g.bytesPerPixel
        have rest := Nat.mod_lt n fits.depth
        rw [← pixel, Nat.mul_comm] at byte
        omega
      rw [off, Bool.or_false]
  · rw [render_past (by omega), render_past (by omega), if_neg (by omega)]

end Pixels

section Drawing

variable {g : FrameBufferInfo} {column row : Nat} {ink : Ink} {x y : Nat} {byte : UInt8}

def shape (g : FrameBufferInfo) (column row : Nat) (ink : Ink) : Console :=
  ⟨render g ink, g, column, row⟩

theorem setPixel_shape (fits : Fits g) (x_in : x < g.width) (y_in : y < g.height) :
    (shape g column row ink).setPixel x y =
      some (shape g column row fun p => ink p || mark x y p) := by
  have wide := Nat.lt_of_lt_of_le x_in fits.stride
  have bound := pixel_end wide y_in
  have inside : ¬((shape g column row ink).info.width ≤ x ∨
      (shape g column row ink).info.height ≤ y) := by
    change ¬(g.width ≤ x ∨ g.height ≤ y)
    omega
  have room : ¬(shape g column row ink).buffer.length <
      (y * g.stride + x) * g.bytesPerPixel + g.bytesPerPixel := by
    change ¬(render g ink).length < _
    rw [render_length]
    omega
  rw [Console.setPixel, if_neg inside]
  refine (if_neg room).trans ?_
  change (paint (((render g ink).drop ((y * g.stride + x) * g.bytesPerPixel)).take
    g.bytesPerPixel) g.pixelFormat).map _ = _
  rw [render_pixel fits wide y_in, paint_shade fits, Option.map_some]
  exact congrArg (fun buffer => some (Console.mk buffer g column row)) (render_mark fits wide y_in)

def lineMark (bits : UInt8) (x y : Nat) : Ink := fun p =>
  (List.range Font.width).any fun i => bits &&& (0x80 >>> UInt8.ofNat i) != 0 && mark (x + i) y p

theorem drawLine_shape (fits : Fits g) (x_in : x + Font.width ≤ g.width) (y_in : y < g.height)
    (bits : UInt8) : (shape g column row ink).drawLine bits x y =
      some (shape g column row fun p => ink p || lineMark bits x y p) := by
  have steps : ∀ i ∈ List.range Font.width, ∀ ink,
      (if bits &&& (0x80 >>> UInt8.ofNat i) != 0 then (shape g column row ink).setPixel (x + i) y
        else some (shape g column row ink)) = some (shape g column row fun p =>
          ink p || (bits &&& (0x80 >>> UInt8.ofNat i) != 0 && mark (x + i) y p)) := by
    intro i inside ink
    have i_in := List.mem_range.mp inside
    cases on : bits &&& (0x80 >>> UInt8.ofNat i) != 0 with
    | true =>
        rw [if_pos rfl, setPixel_shape fits (by omega) y_in]
        rfl
    | false =>
        rw [if_neg Bool.false_ne_true]
        simp
  rw [Console.drawLine, foldlM_image (shape g column row) _ steps, foldl_or]
  rfl

def glyphMark (byte : UInt8) (x y : Nat) : Ink := fun p =>
  (glyph byte).zipIdx.any fun line => lineMark line.1 x (y + line.2) p

theorem drawGlyph_shape (fits : Fits g) (x_in : x + Font.width ≤ g.width)
    (y_in : y + Font.height ≤ g.height) (byte : UInt8) :
    (shape g column row ink).drawGlyph byte x y =
      some (shape g column row fun p => ink p || glyphMark byte x y p) := by
  have steps : ∀ line ∈ (glyph byte).zipIdx, ∀ ink,
      (shape g column row ink).drawLine line.1 x (y + line.2) =
        some (shape g column row fun p => ink p || lineMark line.1 x (y + line.2) p) := by
    intro line inside ink
    obtain ⟨line_in, -⟩ := List.getElem?_eq_some_iff.mp (List.mem_zipIdx_iff_getElem?.mp inside)
    rw [glyph_length] at line_in
    exact drawLine_shape fits x_in (by omega) line.1
  rw [Console.drawGlyph, foldlM_image (shape g column row) _ steps, foldl_or]
  rfl

theorem glyphMark_eq (byte : UInt8) (x y : Nat) (p : Nat × Nat) : glyphMark byte x y p =
    (decide (y ≤ p.1 ∧ p.1 < y + Font.height ∧ x ≤ p.2 ∧ p.2 < x + Font.width) &&
      inked byte (p.1 - y) (p.2 - x)) := by
  rw [Bool.eq_iff_iff]
  simp only [glyphMark, lineMark, mark, List.any_eq_true, Bool.and_eq_true, decide_eq_true_eq,
    List.mem_range, Prod.exists]
  refine ⟨?_, ?_⟩
  · rintro ⟨bits, k, listed, i, i_in, on, here⟩
    have found := List.mem_zipIdx_iff_getElem?.mp listed
    obtain ⟨k_in, -⟩ := List.getElem?_eq_some_iff.mp found
    obtain ⟨p1, p2⟩ := p
    obtain ⟨rfl, rfl⟩ := Prod.mk.inj here
    rw [glyph_length] at k_in
    refine ⟨by omega, ?_⟩
    rw [Nat.add_sub_cancel_left, Nat.add_sub_cancel_left, inked, List.getD_eq_getElem?_getD, found]
    exact on
  · rintro ⟨⟨low, high, left, right⟩, on⟩
    have k_in : p.1 - y < (glyph byte).length := by
      rw [glyph_length]
      omega
    rw [inked, List.getD_eq_getElem _ _ k_in] at on
    refine ⟨_, p.1 - y, List.mem_zipIdx_iff_getElem?.mpr (List.getElem?_eq_getElem k_in), p.2 - x,
      by omega, on, Prod.ext ?_ ?_⟩
    · change p.1 = y + (p.1 - y)
      omega
    · change p.2 = x + (p.2 - x)
      omega

def raised (g : FrameBufferInfo) (ink : Ink) : Ink := fun p =>
  decide (p.1 + Font.height < g.height) && ink (p.1 + Font.height, p.2)

private theorem row_below (fits : Fits g) (n : Nat) :
    (n + g.stride * g.bytesPerPixel * Font.height) / g.bytesPerPixel / g.stride =
        n / g.bytesPerPixel / g.stride + Font.height ∧
      (n + g.stride * g.bytesPerPixel * Font.height) / g.bytesPerPixel % g.stride =
        n / g.bytesPerPixel % g.stride ∧
      (n + g.stride * g.bytesPerPixel * Font.height) % g.bytesPerPixel = n % g.bytesPerPixel := by
  have depth := fits.depth
  have wide : 0 < g.stride := by
    have wide := fits.wide
    have stride := fits.stride
    unfold Font.width at wide
    omega
  rw [Nat.mul_comm g.stride, Nat.mul_assoc, Nat.add_mul_div_left _ _ depth,
    Nat.add_mul_mod_self_left, Nat.add_mul_div_left _ _ wide, Nat.add_mul_mod_self_left]
  exact ⟨rfl, rfl, rfl⟩

private theorem above_last (fits : Fits g) (n : Nat) :
    n < g.stride * g.bytesPerPixel * g.height - g.stride * g.bytesPerPixel * Font.height ↔
      n / g.bytesPerPixel / g.stride + Font.height < g.height := by
  have depth := fits.depth
  have wide : 0 < g.stride := by
    have wide := fits.wide
    have stride := fits.stride
    unfold Font.width at wide
    omega
  have size : 0 < g.stride * g.bytesPerPixel := Nat.mul_pos wide depth
  rw [← Nat.mul_sub, Nat.div_div_eq_div_mul, Nat.mul_comm g.bytesPerPixel, ← Nat.lt_sub_iff_add_lt,
    Nat.div_lt_iff_lt_mul size, Nat.mul_comm]

private theorem raised_bytes (fits : Fits g) (ink : Ink) {line start : Nat} (last : List UInt8)
    (text : line = g.stride * g.bytesPerPixel * Font.height)
    (above : start = g.stride * g.bytesPerPixel * g.height - line) (length : last.length = line) :
    splice (splice (render g ink) 0 ((render g ink).drop line)) start (last.map fun _ => 0) =
      render g (raised g ink) := by
  have order : line ≤ g.stride * g.bytesPerPixel * g.height :=
    text ▸ Nat.mul_le_mul_left _ fits.tall
  have size : g.stride * g.height * g.bytesPerPixel = g.stride * g.bytesPerPixel * g.height :=
    Nat.mul_right_comm _ _ _
  have moved : ((render g ink).drop line).length = start := by
    rw [List.length_drop, render_length, size, above]
  have room : 0 + ((render g ink).drop line).length ≤ (render g ink).length := by
    rw [moved, render_length, size]
    omega
  refine List.ext_getElem? fun n => ?_
  rw [splice_get (by rw [splice_length room, render_length, size, List.length_map]; omega),
    List.length_map, splice_get room, moved, length]
  have high := above_last fits n
  rw [← text, ← above] at high
  by_cases inside : n < g.stride * g.height * g.bytesPerPixel
  · have byte : (render g (raised g ink))[n]? = _ := render_get inside
    rw [byte, raised]
    by_cases first : n < start
    · obtain ⟨row, column, place⟩ := row_below fits n
      rw [← text] at row column place
      rw [if_neg (by omega), if_pos (by omega), List.getElem?_drop, Nat.sub_zero, Nat.add_comm,
        render_get (by omega), row, column, place]
      dsimp only
      rw [decide_eq_true (high.mp first), Bool.true_and]
    · rw [if_pos (by omega), List.getElem?_map, List.getElem?_eq_getElem (by omega)]
      dsimp only
      rw [decide_eq_false fun below => first (high.mpr below), Bool.false_and, Option.map_some,
        shade, if_neg Bool.false_ne_true]
      simp
  · rw [render_past (by omega), if_neg (by omega), if_neg (by omega), render_past (by omega)]

theorem scroll_shape (fits : Fits g) :
    (shape g column row ink).scroll = some (shape g column row (raised g ink)) := by
  have size : (render g ink).length = g.stride * g.bytesPerPixel * g.height := by
    rw [render_length, Nat.mul_right_comm]
  have order : g.stride * g.bytesPerPixel * Font.height ≤ g.stride * g.bytesPerPixel * g.height :=
    Nat.mul_le_mul_left _ fits.tall
  have raise := fun last => raised_bytes fits ink last rfl rfl
  change ((part (render g ink) (g.stride * g.bytesPerPixel * Font.height)
    (g.stride * g.bytesPerPixel * g.height)).bind fun kept =>
      (copyTo (render g ink) 0 kept).bind fun moved =>
        (minus (g.stride * g.bytesPerPixel * g.height)
          (g.stride * g.bytesPerPixel * Font.height)).bind fun start =>
            (part moved start (g.stride * g.bytesPerPixel * g.height)).bind fun last =>
              (copyTo moved start (last.map fun _ => 0)).bind fun blanked =>
                some (Console.mk blanked g column row)) = _
  generalize g.stride * g.bytesPerPixel * g.height = total at size order raise ⊢
  generalize g.stride * g.bytesPerPixel * Font.height = line at order raise ⊢
  have length : ((render g ink).drop line).length = total - line := by
    rw [List.length_drop, size]
  have full : (splice (render g ink) 0 ((render g ink).drop line)).length = total := by
    rw [splice_length (by rw [length, size]; omega), size]
  rw [part_eq order (Nat.le_of_eq size.symm), Option.bind_some,
    List.take_of_length_le (Nat.le_of_eq size), copyTo_eq (by rw [length, size]; omega),
    Option.bind_some, minus_eq order, Option.bind_some,
    part_eq (Nat.sub_le _ _) (Nat.le_of_eq full.symm), Option.bind_some,
    List.take_of_length_le (Nat.le_of_eq full)]
  have last : ((splice (render g ink) 0 ((render g ink).drop line)).drop (total - line)).length =
      line := by
    rw [List.length_drop, full]
    omega
  rw [copyTo_eq (by rw [List.length_map, last, full]; omega), Option.bind_some, raise _ last]
  rfl

end Drawing

section Refining

variable {g : FrameBufferInfo} {t : Screen} {byte : UInt8}

abbrev columns (g : FrameBufferInfo) : Nat := g.width / Font.width

abbrev rows (g : FrameBufferInfo) : Nat := g.height / Font.height

/-- The ink of a terminal: everything struck in each cell, one over the other. -/
def inkOf (g : FrameBufferInfo) (t : Screen) : Ink := fun p =>
  decide (p.1 < rows g * Font.height ∧ p.2 < columns g * Font.width) &&
    layered (t.cells (p.1 / Font.height) (p.2 / Font.width)) (p.1 % Font.height) (p.2 % Font.width)

def display (g : FrameBufferInfo) (t : Screen) : Console := shape g t.column t.row (inkOf g t)

theorem raised_inkOf (g : FrameBufferInfo) (t : Screen) :
    raised g (inkOf g t) = inkOf g (t.scroll (rows g)) := by
  have fit : rows g * Font.height ≤ g.height := Nat.div_mul_le_self _ _
  funext p
  unfold raised inkOf Screen.scroll
  dsimp only
  unfold Font.height at fit ⊢
  rw [Nat.add_div_right _ (by decide), Nat.add_mod_right]
  by_cases inside : p.1 / 16 + 1 < rows g
  · rw [if_pos inside, decide_eq_true (by omega : p.1 + 16 < g.height), Bool.true_and,
      decide_eq_decide.mpr (by omega : (p.1 + 16 < rows g * 16 ∧ p.2 < columns g * Font.width) ↔
        (p.1 < rows g * 16 ∧ p.2 < columns g * Font.width))]
  · rw [if_neg inside, decide_eq_false (by omega : ¬(p.1 + 16 < rows g * 16 ∧
      p.2 < columns g * Font.width)), Bool.false_and, Bool.and_false]
    exact (Bool.and_false _).symm

theorem newline_display (fits : Fits g) :
    (display g t).newline = some (display g (t.newline (rows g))) := by
  have some_row : 1 ≤ rows g := Nat.div_pos fits.tall (by decide)
  rw [Console.newline, Screen.newline]
  change (if rows g ≤ t.row + 1 then ((shape g 0 (t.row + 1) (inkOf g t)).scroll.bind fun c =>
    (minus c.rows 1).bind fun row => some { c with row := row }) else
      some (shape g 0 (t.row + 1) (inkOf g t))) = _
  split_ifs with full
  · rw [scroll_shape fits, Option.bind_some, raised_inkOf]
    change ((minus (rows g) 1).bind fun row =>
      some (shape g 0 row (inkOf g (t.scroll (rows g))))) = _
    rw [minus_eq some_row, Option.bind_some]
    rfl
  · rfl

theorem strike_display (fits : Fits g) (row : t.row < rows g) (column : t.column < columns g)
    (byte : UInt8) : (display g t).drawGlyph byte (t.column * Font.width) (t.row * Font.height) =
      some (shape g t.column t.row (inkOf g (t.strike byte))) := by
  have tall : rows g * Font.height ≤ g.height := Nat.div_mul_le_self _ _
  have wide : columns g * Font.width ≤ g.width := Nat.div_mul_le_self _ _
  have low : (t.row + 1) * Font.height ≤ rows g * Font.height := Nat.mul_le_mul_right _ row
  have left : (t.column + 1) * Font.width ≤ columns g * Font.width := Nat.mul_le_mul_right _ column
  rw [Nat.add_mul, Nat.one_mul] at low left
  rw [display, drawGlyph_shape fits (by omega) (by omega)]
  refine congrArg (fun ink => some (shape g t.column t.row ink)) (funext fun p => ?_)
  rw [glyphMark_eq]
  unfold inkOf Screen.strike
  dsimp only
  unfold Font.height Font.width at *
  by_cases here : p.1 / 16 = t.row ∧ p.2 / 8 = t.column
  · rw [if_pos here, decide_eq_true (by omega), decide_eq_true (by omega), Bool.true_and,
      Bool.true_and, Bool.true_and, Bool.or_comm,
      show p.1 - t.row * 16 = p.1 % 16 by omega, show p.2 - t.column * 8 = p.2 % 8 by omega,
      layered, layered, List.any_cons]
  · rw [if_neg here, decide_eq_false (by omega : ¬(t.row * 16 ≤ p.1 ∧ p.1 < t.row * 16 + 16 ∧
      t.column * 8 ≤ p.2 ∧ p.2 < t.column * 8 + 8)), Bool.false_and, Bool.or_false]

theorem writeByte_display (fits : Fits g) (on : OnScreen t (columns g) (rows g)) (byte : UInt8) :
    (display g t).writeByte byte = some (display g (t.writeByte (columns g) (rows g) byte)) := by
  have some_column : 0 < columns g := Nat.div_pos fits.wide (by decide)
  rw [Console.writeByte, Screen.writeByte]
  by_cases feed : byte = 10
  · rw [if_pos feed, if_pos feed]
    exact newline_display fits
  by_cases home : byte = 13
  · rw [if_neg feed, if_pos home, if_neg feed, if_pos home]
    rfl
  by_cases back : byte = 8
  · rw [if_neg feed, if_neg home, if_pos back, if_neg feed, if_neg home, if_pos back]
    change some (if 0 < t.column then shape g (t.column - 1) t.row (inkOf g t) else
      shape g t.column t.row (inkOf g t)) = some (shape g (t.column - 1) t.row (inkOf g t))
    split_ifs with left
    · rfl
    · rw [Nat.eq_zero_of_not_pos left]
  · rw [if_neg feed, if_neg home, if_neg back, if_neg feed, if_neg home, if_neg back]
    obtain ⟨on', inside⟩ := on.wrap some_column
    have wrapped : (if (display g t).columns ≤ (display g t).column then (display g t).newline
        else some (display g t)) = some (display g (t.wrap (columns g) (rows g))) := by
      change (if columns g ≤ t.column then (display g t).newline else some (display g t)) = _
      rw [Screen.wrap]
      split_ifs
      · exact newline_display fits
      · rfl
    rw [wrapped, Option.bind_some]
    exact congrArg (Option.map _) (strike_display fits on'.row inside byte)

theorem writeStr_display (fits : Fits g) (on : OnScreen t (columns g) (rows g)) (text : List Char) :
    writeStr (display g t) text =
      some (display g (t.write (columns g) (rows g) (text.map toAscii))) := by
  have some_column : 0 < columns g := Nat.div_pos fits.wide (by decide)
  induction text generalizing t with
  | nil => rfl
  | cons ch rest ih =>
      have next : OnScreen (t.writeByte (columns g) (rows g) (toAscii ch)) (columns g) (rows g) :=
        on.writeByte some_column
      have later := ih next
      rw [writeStr, List.foldlM_cons, writeByte_display fits on]
      exact later

theorem clear_display {c : Console} (info : c.info = g)
    (size : c.buffer.length = g.stride * g.height * g.bytesPerPixel) :
    c.clear = display g Screen.blank := by
  have dark : inkOf g Screen.blank = fun _ => false := funext fun p => Bool.and_false _
  have zeros : render g (fun _ => false) = (List.range _).map fun _ => 0 :=
    List.map_congr_left fun n _ => by simp [shade]
  rw [Console.clear, display, shape, dark, zeros, List.map_const', List.map_const',
    List.length_range, size, info]
  rfl

end Refining

section Shows

variable {g : FrameBufferInfo} {t : Screen} {c : Console} {text : List Char}

def pixelAt (c : Console) (x y : Nat) : List UInt8 :=
  (c.buffer.drop ((y * c.info.stride + x) * c.info.bytesPerPixel)).take c.info.bytesPerPixel

/-- The pixels of each text cell are the glyph of the last character there. -/
def Shows (c : Console) (t : Screen) : Prop :=
  ∀ r k, r < rows c.info → k < columns c.info → ∀ py px, py < Font.height → px < Font.width →
    pixelAt c (k * Font.width + px) (r * Font.height + py) =
      shade c.info ((t.shown r k).any fun byte => inked byte py px)

def after (g : FrameBufferInfo) (text : List Char) : Screen :=
  Screen.blank.write (columns g) (rows g) (text.map toAscii)

/-- The text is written, the cursor stays on the screen, and the screen shows the text. -/
def Faithful (c : Console) (text : List Char) : Prop :=
  ∃ c', writeStr c text = some c' ∧ c'.row < c'.rows ∧ c'.column ≤ c'.columns ∧
    Shows c' (after c.info text)

theorem shows_display (fits : Fits g) :
    Shows (display g t) t ↔ Plain t (columns g) (rows g) := by
  have tall : rows g * Font.height ≤ g.height := Nat.div_mul_le_self _ _
  have wide : columns g * Font.width ≤ g.width := Nat.div_mul_le_self _ _
  have stride := fits.stride
  have pixel : ∀ r k, r < rows g → k < columns g → ∀ py px, py < Font.height → px < Font.width →
      pixelAt (display g t) (k * Font.width + px) (r * Font.height + py) =
        shade g (layered (t.cells r k) py px) := by
    intro r k r_in k_in py px py_in px_in
    have low : (r + 1) * Font.height ≤ rows g * Font.height := Nat.mul_le_mul_right _ r_in
    have left : (k + 1) * Font.width ≤ columns g * Font.width := Nat.mul_le_mul_right _ k_in
    rw [Nat.add_mul, Nat.one_mul] at low left
    obtain ⟨row, py_at⟩ := block_place (k := r) py_in
    obtain ⟨column, px_at⟩ := block_place (k := k) px_in
    refine (render_pixel fits (by omega) (by omega)).trans (congrArg (shade g) ?_)
    rw [inkOf]
    dsimp only
    rw [decide_eq_true (by omega), Bool.true_and, row, py_at, column, px_at]
  refine ⟨fun shows r k r_in k_in py px py_in px_in => ?_,
    fun plain r k r_in k_in py px py_in px_in => ?_⟩
  · exact shade_inj fits ((pixel r k r_in k_in py px py_in px_in).symm.trans
      (shows r k r_in k_in py px py_in px_in))
  · rw [pixel r k r_in k_in py px py_in px_in, plain r k r_in k_in py px py_in px_in]
    rfl

theorem onScreen_blank (fits : Fits g) : OnScreen Screen.blank (columns g) (rows g) :=
  ⟨Nat.div_pos fits.tall (by decide), Nat.zero_le _⟩

/-- A text is written without a panic and with the cursor on the screen, and it shows at
every point just when each character covers what its cell showed. -/
theorem console_shows_iff (fits : Fits c.info)
    (size : c.buffer.length = c.info.stride * c.info.height * c.info.bytesPerPixel)
    (text : List Char) :
    (∃ c', writeStr c.clear text = some c' ∧ c'.row < c'.rows ∧ c'.column ≤ c'.columns) ∧
      ((∀ begun, begun <+: text → Faithful c.clear begun) ↔
        AllCovered Screen.blank (columns c.info) (rows c.info) (text.map toAscii)) := by
  have some_column : 0 < columns c.info := Nat.div_pos fits.wide (by decide)
  have blank := onScreen_blank fits
  have start : c.clear = display c.info Screen.blank := clear_display rfl size
  have run : ∀ begun, writeStr c.clear begun = some (display c.info (after c.info begun)) :=
    fun begun => start ▸ writeStr_display fits blank begun
  have inside : ∀ begun, OnScreen (after c.info begun) (columns c.info) (rows c.info) :=
    fun begun => blank.write some_column _
  have shows : ∀ begun, Faithful c.clear begun ↔
      Plain (after c.info begun) (columns c.info) (rows c.info) := by
    intro begun
    refine ⟨?_, fun plain => ?_⟩
    · rintro ⟨c', run', -, -, shown⟩
      obtain rfl := Option.some.inj (run'.symm.trans (run begun))
      exact (shows_display fits).mp shown
    · exact ⟨_, run begun, (inside begun).row, (inside begun).column, (shows_display fits).mpr plain⟩
  refine ⟨⟨_, run text, (inside text).row, (inside text).column⟩, ?_⟩
  rw [← plain_write plain_blank blank some_column]
  refine ⟨fun all begun before => ?_, fun all begun before => ?_⟩
  · obtain ⟨chars, before', rfl⟩ := List.prefix_map_iff.mp before
    exact (shows chars).mp (all chars before')
  · exact (shows begun).mpr (all _ (before.map toAscii))

def oneCell : Console := ⟨List.replicate 128 0, ⟨8, 16, 8, 1, .u8⟩, 0, 0⟩

private theorem oneCell_fits : Fits oneCell.info :=
  ⟨by decide, by decide, by decide, by decide, by decide⟩

private theorem oneCell_size : oneCell.buffer.length =
    oneCell.info.stride * oneCell.info.height * oneCell.info.bytesPerPixel :=
  List.length_replicate

theorem console_shows_iff_oneCell :
    (∃ c', writeStr oneCell.clear ['A', 'B'] = some c' ∧ c'.row < c'.rows ∧
      c'.column ≤ c'.columns) ∧
      ((∀ begun, begun <+: ['A', 'B'] → Faithful oneCell.clear begun) ↔
        AllCovered Screen.blank (columns oneCell.info) (rows oneCell.info)
          (['A', 'B'].map toAscii)) :=
  console_shows_iff oneCell_fits oneCell_size ['A', 'B']

/-- A space struck over a letter does not erase it. -/
theorem oneCell_unerased : ¬∀ (c : Console) (text : List Char), Fits c.info →
    c.buffer.length = c.info.stride * c.info.height * c.info.bytesPerPixel →
    Faithful c.clear text := by
  intro all
  obtain ⟨c', run, -, -, shows⟩ := all oneCell ['A', Char.ofNat 8, ' '] oneCell_fits oneCell_size
  have start : oneCell.clear = display oneCell.info Screen.blank := clear_display rfl oneCell_size
  rw [start, writeStr_display oneCell_fits (onScreen_blank oneCell_fits)] at run
  obtain rfl := Option.some.inj run
  have plain := (shows_display oneCell_fits).mp shows
  have pixel := plain 0 0 (by decide) (by decide) 4 3 (by decide) (by decide)
  exact absurd pixel (by decide +kernel)

end Shows

end FiveAM.Display.Showing
