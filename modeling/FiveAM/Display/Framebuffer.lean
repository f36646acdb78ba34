/- GID: FiveAM/Display/Framebuffer
   source: kernel/src/framebuffer.rs
   digest: The text console as the kernel draws it, pixel by pixel into the framebuffer. -/

import FiveAM.Display.Font
import FiveAM.Lib.Checked

set_option autoImplicit false
set_option relaxedAutoImplicit false

namespace FiveAM.Display.Framebuffer

open FiveAM.Lib.ByteRegions FiveAM.Lib.Checked

/-- `PixelFormat` of the boot protocol. -/
inductive PixelFormat
  | rgb
  | bgr
  | u8
  | unknown
  deriving DecidableEq

/-- The layout of the display: width and height in pixels, and a row of `stride` pixels
in the buffer. -/
structure FrameBufferInfo where
  width : Nat
  height : Nat
  stride : Nat
  bytesPerPixel : Nat
  pixelFormat : PixelFormat

/-- The console, with the cursor in characters. -/
structure Console where
  buffer : List UInt8
  info : FrameBufferInfo
  column : Nat
  row : Nat

def red : UInt8 := 0xC8

def green : UInt8 := 0xE8

def blue : UInt8 := 0xC8

def grey : UInt8 := UInt8.ofNat ((red.toNat * 30 + green.toNat * 59 + blue.toNat * 11) / 100)

/-- `pixel[i] = b`; `none` is the panic. -/
def store (pixel : List UInt8) (i : Nat) (b : UInt8) : Option (List UInt8) :=
  if i < pixel.length then some (pixel.set i b) else none

def paint (pixel : List UInt8) : PixelFormat → Option (List UInt8)
  | .rgb => ((store pixel 0 red).bind (store · 1 green)).bind (store · 2 blue)
  | .bgr => ((store pixel 0 blue).bind (store · 1 green)).bind (store · 2 red)
  | .u8 => store pixel 0 grey
  | .unknown => some (pixel.map fun _ => 0xC0)

namespace Console

def columns (c : Console) : Nat := c.info.width / Font.width

def rows (c : Console) : Nat := c.info.height / Font.height

def clear (c : Console) : Console :=
  { c with buffer := c.buffer.map fun _ => 0, column := 0, row := 0 }

def setPixel (c : Console) (x y : Nat) : Option Console :=
  if c.info.width ≤ x ∨ c.info.height ≤ y then some c
  else
    let offset := (y * c.info.stride + x) * c.info.bytesPerPixel
    if c.buffer.length < offset + c.info.bytesPerPixel then some c
    else
      (paint ((c.buffer.drop offset).take c.info.bytesPerPixel) c.info.pixelFormat).map fun pixel =>
        { c with buffer := splice c.buffer offset pixel }

def drawLine (c : Console) (bits : UInt8) (x y : Nat) : Option Console :=
  (List.range Font.width).foldlM
    (fun c column =>
      if bits &&& (0x80 >>> UInt8.ofNat column) != 0 then c.setPixel (x + column) y else some c) c

def drawGlyph (c : Console) (byte : UInt8) (x y : Nat) : Option Console :=
  (Font.glyph byte).zipIdx.foldlM (fun c line => c.drawLine line.1 x (y + line.2)) c

/-- Move everything up one text row and blank the last one. -/
def scroll (c : Console) : Option Console := do
  let strideBytes := c.info.stride * c.info.bytesPerPixel
  let rowBytes := strideBytes * Font.height
  let total := strideBytes * c.info.height
  let kept ← part c.buffer rowBytes total
  let moved ← copyTo c.buffer 0 kept
  let start ← minus total rowBytes
  let last ← part moved start total
  let blanked ← copyTo moved start (last.map fun _ => 0)
  some { c with buffer := blanked }

def newline (c : Console) : Option Console :=
  let c := { c with column := 0, row := c.row + 1 }
  if c.rows ≤ c.row then do
    let c ← c.scroll
    let row ← minus c.rows 1
    some { c with row := row }
  else some c

def writeByte (c : Console) (byte : UInt8) : Option Console :=
  if byte = 10 then c.newline
  else if byte = 13 then some { c with column := 0 }
  else if byte = 8 then some (if 0 < c.column then { c with column := c.column - 1 } else c)
  else
    (if c.columns ≤ c.column then c.newline else some c).bind fun c =>
      (c.drawGlyph byte (c.column * Font.width) (c.row * Font.height)).map fun c =>
        { c with column := c.column + 1 }

end Console

/-- Fold a character onto the ASCII the font can actually draw. -/
def toAscii (ch : Char) : UInt8 :=
  if ch.toNat = 0x2014 ∨ ch.toNat = 0x2013 then 45
  else if ch.toNat = 0x2018 ∨ ch.toNat = 0x2019 then 39
  else if ch.toNat = 0x201C ∨ ch.toNat = 0x201D then 34
  else if ch.toNat = 0x2026 then 46
  else if ch.toNat = 0xA0 then 32
  else if ch.toNat < 128 then UInt8.ofNat ch.toNat
  else 63

def writeStr (c : Console) (text : List Char) : Option Console :=
  text.foldlM (fun c ch => c.writeByte (toAscii ch)) c

end FiveAM.Display.Framebuffer
