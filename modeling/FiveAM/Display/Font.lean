/- GID: FiveAM/Display/Font
   source: kernel/src/font.rs
   digest: The bitmap font of the console, one byte for each row of pixels of a character. -/

import Mathlib.Data.List.GetD
import Mathlib.Tactic.SplitIfs

set_option autoImplicit false
set_option relaxedAutoImplicit false

namespace FiveAM.Display.Font

def width : Nat := 8

def height : Nat := 16

/-- The characters of the table, from the first to the last. -/
def first : UInt8 := 32

def last : UInt8 := 126

/-- `GLYPHS`: bit 7 is the leftmost pixel, and a set bit is an inked pixel. -/
def glyphs : List (List UInt8) :=
  ([
    [0x00, 0x00, 0x00, 0x00, 0x00, 0x00, 0x00, 0x00, 0x00, 0x00, 0x00, 0x00, 0x00, 0x00, 0x00, 0x00],
    [0x00, 0x00, 0x00, 0x00, 0x18, 0x18, 0x18, 0x18, 0x18, 0x18, 0x00, 0x18, 0x18, 0x00, 0x00, 0x00],
    [0x00, 0x00, 0x00, 0x64, 0x64, 0x64, 0x64, 0x00, 0x00, 0x00, 0x00, 0x00, 0x00, 0x00, 0x00, 0x00],
    [0x00, 0x00, 0x00, 0x00, 0x12, 0x16, 0x7F, 0x24, 0x24, 0xFE, 0x68, 0x48, 0x48, 0x00, 0x00, 0x00],
    [0x00, 0x00, 0x00, 0x00, 0x00, 0x3C, 0x68, 0x40, 0x38, 0x1C, 0x02, 0x46, 0x3C, 0x00, 0x00, 0x00],
    [0x00, 0x00, 0x00, 0x00, 0x70, 0x90, 0x90, 0x76, 0x18, 0xCE, 0x0B, 0x0B, 0x0E, 0x00, 0x00, 0x00],
    [0x00, 0x00, 0x00, 0x00, 0x3C, 0x60, 0x20, 0x30, 0x59, 0xCB, 0xC6, 0x46, 0x3A, 0x00, 0x00, 0x00],
    [0x00, 0x00, 0x00, 0x18, 0x18, 0x18, 0x18, 0x00, 0x00, 0x00, 0x00, 0x00, 0x00, 0x00, 0x00, 0x00],
    [0x00, 0x00, 0x08, 0x08, 0x10, 0x10, 0x10, 0x30, 0x30, 0x10, 0x10, 0x10, 0x08, 0x08, 0x00, 0x00],
    [0x00, 0x00, 0x30, 0x10, 0x18, 0x08, 0x08, 0x08, 0x08, 0x08, 0x08, 0x18, 0x10, 0x30, 0x00, 0x00],
    [0x00, 0x00, 0x00, 0x00, 0x00, 0x10, 0x10, 0x56, 0x3C, 0x3C, 0x56, 0x10, 0x10, 0x00, 0x00, 0x00],
    [0x00, 0x00, 0x00, 0x00, 0x00, 0x00, 0x18, 0x18, 0x7E, 0x18, 0x18, 0x18, 0x00, 0x00, 0x00, 0x00],
    [0x00, 0x00, 0x00, 0x00, 0x00, 0x00, 0x00, 0x00, 0x00, 0x00, 0x00, 0x18, 0x18, 0x30, 0x30, 0x00],
    [0x00, 0x00, 0x00, 0x00, 0x00, 0x00, 0x00, 0x00, 0x7E, 0x00, 0x00, 0x00, 0x00, 0x00, 0x00, 0x00],
    [0x00, 0x00, 0x00, 0x00, 0x00, 0x00, 0x00, 0x00, 0x00, 0x00, 0x38, 0x38, 0x38, 0x00, 0x00, 0x00],
    [0x00, 0x00, 0x00, 0x00, 0x06, 0x04, 0x0C, 0x08, 0x08, 0x10, 0x10, 0x30, 0x20, 0x60, 0x40, 0x00],
    [0x00, 0x00, 0x00, 0x3C, 0x64, 0x46, 0x4E, 0x5A, 0x52, 0x72, 0x66, 0x64, 0x3C, 0x00, 0x00, 0x00],
    [0x00, 0x00, 0x00, 0x00, 0x38, 0x78, 0x08, 0x08, 0x08, 0x08, 0x08, 0x08, 0x3E, 0x00, 0x00, 0x00],
    [0x00, 0x00, 0x00, 0x00, 0x3C, 0x44, 0x06, 0x04, 0x0C, 0x18, 0x30, 0x60, 0x7E, 0x00, 0x00, 0x00],
    [0x00, 0x00, 0x00, 0x00, 0x3C, 0x44, 0x06, 0x04, 0x3C, 0x06, 0x06, 0x46, 0x3C, 0x00, 0x00, 0x00],
    [0x00, 0x00, 0x00, 0x00, 0x0C, 0x1C, 0x14, 0x24, 0x64, 0x44, 0x7E, 0x04, 0x04, 0x00, 0x00, 0x00],
    [0x00, 0x00, 0x00, 0x00, 0x7C, 0x60, 0x60, 0x7C, 0x04, 0x06, 0x06, 0x44, 0x38, 0x00, 0x00, 0x00],
    [0x00, 0x00, 0x00, 0x00, 0x3C, 0x60, 0x40, 0x7C, 0x66, 0x42, 0x42, 0x66, 0x3C, 0x00, 0x00, 0x00],
    [0x00, 0x00, 0x00, 0x00, 0x7E, 0x06, 0x04, 0x0C, 0x08, 0x18, 0x18, 0x10, 0x30, 0x00, 0x00, 0x00],
    [0x00, 0x00, 0x00, 0x00, 0x3C, 0x66, 0x46, 0x64, 0x3C, 0x66, 0x42, 0x66, 0x3C, 0x00, 0x00, 0x00],
    [0x00, 0x00, 0x00, 0x00, 0x3C, 0x64, 0x46, 0x46, 0x66, 0x3E, 0x06, 0x04, 0x38, 0x00, 0x00, 0x00],
    [0x00, 0x00, 0x00, 0x00, 0x00, 0x00, 0x18, 0x18, 0x00, 0x00, 0x00, 0x18, 0x18, 0x00, 0x00, 0x00],
    [0x00, 0x00, 0x00, 0x00, 0x00, 0x00, 0x18, 0x18, 0x00, 0x00, 0x00, 0x18, 0x18, 0x30, 0x30, 0x00],
    [0x00, 0x00, 0x00, 0x00, 0x00, 0x00, 0x02, 0x1C, 0x60, 0x60, 0x1C, 0x02, 0x00, 0x00, 0x00, 0x00],
    [0x00, 0x00, 0x00, 0x00, 0x00, 0x00, 0x00, 0xFE, 0x00, 0x00, 0xFE, 0x00, 0x00, 0x00, 0x00, 0x00],
    [0x00, 0x00, 0x00, 0x00, 0x00, 0x00, 0x40, 0x38, 0x0E, 0x0E, 0x38, 0x40, 0x00, 0x00, 0x00, 0x00],
    [0x00, 0x00, 0x00, 0x00, 0x3C, 0x06, 0x06, 0x0C, 0x18, 0x10, 0x00, 0x10, 0x10, 0x00, 0x00, 0x00],
    [0x00, 0x00, 0x00, 0x00, 0x3C, 0x62, 0x42, 0xCF, 0x93, 0x93, 0x93, 0xCE, 0x40, 0x60, 0x1E, 0x00],
    [0x00, 0x00, 0x00, 0x00, 0x18, 0x18, 0x3C, 0x2C, 0x24, 0x66, 0x7E, 0x42, 0xC2, 0x00, 0x00, 0x00],
    [0x00, 0x00, 0x00, 0x00, 0x7C, 0x46, 0x46, 0x7C, 0x46, 0x42, 0x42, 0x46, 0x7C, 0x00, 0x00, 0x00],
    [0x00, 0x00, 0x00, 0x00, 0x1C, 0x22, 0x60, 0x40, 0x40, 0x40, 0x60, 0x22, 0x1C, 0x00, 0x00, 0x00],
    [0x00, 0x00, 0x00, 0x00, 0x78, 0x44, 0x46, 0x42, 0x42, 0x42, 0x46, 0x44, 0x78, 0x00, 0x00, 0x00],
    [0x00, 0x00, 0x00, 0x00, 0x7E, 0x60, 0x60, 0x7E, 0x60, 0x60, 0x60, 0x60, 0x7E, 0x00, 0x00, 0x00],
    [0x00, 0x00, 0x00, 0x00, 0x7E, 0x60, 0x60, 0x7E, 0x60, 0x60, 0x60, 0x60, 0x60, 0x00, 0x00, 0x00],
    [0x00, 0x00, 0x00, 0x00, 0x3C, 0x62, 0x40, 0x40, 0x4E, 0x42, 0x42, 0x62, 0x3C, 0x00, 0x00, 0x00],
    [0x00, 0x00, 0x00, 0x00, 0x42, 0x42, 0x42, 0x7E, 0x42, 0x42, 0x42, 0x42, 0x42, 0x00, 0x00, 0x00],
    [0x00, 0x00, 0x00, 0x00, 0x7E, 0x18, 0x18, 0x18, 0x18, 0x18, 0x18, 0x18, 0x7E, 0x00, 0x00, 0x00],
    [0x00, 0x00, 0x00, 0x00, 0x3C, 0x04, 0x04, 0x04, 0x04, 0x04, 0x04, 0x4C, 0x78, 0x00, 0x00, 0x00],
    [0x00, 0x00, 0x00, 0x00, 0x42, 0x44, 0x48, 0x70, 0x78, 0x48, 0x4C, 0x46, 0x42, 0x00, 0x00, 0x00],
    [0x00, 0x00, 0x00, 0x00, 0x60, 0x60, 0x60, 0x60, 0x60, 0x60, 0x60, 0x60, 0x7E, 0x00, 0x00, 0x00],
    [0x00, 0x00, 0x00, 0x00, 0xC6, 0xE6, 0xEE, 0xAA, 0x9A, 0x92, 0x82, 0x82, 0x82, 0x00, 0x00, 0x00],
    [0x00, 0x00, 0x00, 0x00, 0xC2, 0xE2, 0xE2, 0xF2, 0xD2, 0xDA, 0xCE, 0xCE, 0xC6, 0x00, 0x00, 0x00],
    [0x00, 0x00, 0x00, 0x00, 0x3C, 0x66, 0x46, 0x42, 0x42, 0x42, 0x46, 0x66, 0x3C, 0x00, 0x00, 0x00],
    [0x00, 0x00, 0x00, 0x00, 0x7C, 0x66, 0x62, 0x62, 0x66, 0x7C, 0x60, 0x60, 0x60, 0x00, 0x00, 0x00],
    [0x00, 0x00, 0x00, 0x00, 0x3C, 0x66, 0x46, 0x42, 0x42, 0x42, 0x46, 0x66, 0x3C, 0x0C, 0x04, 0x00],
    [0x00, 0x00, 0x00, 0x00, 0x7C, 0x46, 0x46, 0x46, 0x7C, 0x4C, 0x46, 0x42, 0x43, 0x00, 0x00, 0x00],
    [0x00, 0x00, 0x00, 0x00, 0x3C, 0x60, 0x40, 0x60, 0x3C, 0x06, 0x02, 0x46, 0x3C, 0x00, 0x00, 0x00],
    [0x00, 0x00, 0x00, 0x00, 0xFF, 0x18, 0x18, 0x18, 0x18, 0x18, 0x18, 0x18, 0x18, 0x00, 0x00, 0x00],
    [0x00, 0x00, 0x00, 0x00, 0x42, 0x42, 0x42, 0x42, 0x42, 0x42, 0x42, 0x66, 0x3C, 0x00, 0x00, 0x00],
    [0x00, 0x00, 0x00, 0x00, 0xC2, 0x42, 0x46, 0x64, 0x24, 0x24, 0x3C, 0x18, 0x18, 0x00, 0x00, 0x00],
    [0x00, 0x00, 0x00, 0x00, 0x83, 0x83, 0xC2, 0xDA, 0x5A, 0x5A, 0x6E, 0x66, 0x66, 0x00, 0x00, 0x00],
    [0x00, 0x00, 0x00, 0x00, 0x42, 0x66, 0x3C, 0x18, 0x18, 0x3C, 0x24, 0x66, 0xC2, 0x00, 0x00, 0x00],
    [0x00, 0x00, 0x00, 0x00, 0xC2, 0x66, 0x24, 0x3C, 0x18, 0x18, 0x18, 0x18, 0x18, 0x00, 0x00, 0x00],
    [0x00, 0x00, 0x00, 0x00, 0x7E, 0x06, 0x04, 0x0C, 0x18, 0x10, 0x20, 0x60, 0x7E, 0x00, 0x00, 0x00],
    [0x00, 0x00, 0x0C, 0x08, 0x08, 0x08, 0x08, 0x08, 0x08, 0x08, 0x08, 0x08, 0x08, 0x0C, 0x00, 0x00],
    [0x00, 0x00, 0x00, 0x00, 0x40, 0x60, 0x20, 0x30, 0x10, 0x10, 0x08, 0x08, 0x0C, 0x04, 0x06, 0x00],
    [0x00, 0x00, 0x38, 0x18, 0x18, 0x18, 0x18, 0x18, 0x18, 0x18, 0x18, 0x18, 0x18, 0x38, 0x00, 0x00],
    [0x00, 0x00, 0x00, 0x00, 0x18, 0x24, 0x42, 0x00, 0x00, 0x00, 0x00, 0x00, 0x00, 0x00, 0x00, 0x00],
    [0x00, 0x00, 0x00, 0x00, 0x00, 0x00, 0x00, 0x00, 0x00, 0x00, 0x00, 0x00, 0x00, 0x00, 0xFF, 0x00],
    [0x00, 0x00, 0x00, 0x30, 0x10, 0x00, 0x00, 0x00, 0x00, 0x00, 0x00, 0x00, 0x00, 0x00, 0x00, 0x00],
    [0x00, 0x00, 0x00, 0x00, 0x00, 0x00, 0x3C, 0x44, 0x06, 0x3E, 0x46, 0x46, 0x3E, 0x00, 0x00, 0x00],
    [0x00, 0x00, 0x40, 0x40, 0x40, 0x40, 0x7C, 0x66, 0x62, 0x42, 0x62, 0x66, 0x7C, 0x00, 0x00, 0x00],
    [0x00, 0x00, 0x00, 0x00, 0x00, 0x00, 0x1C, 0x22, 0x60, 0x60, 0x60, 0x22, 0x1C, 0x00, 0x00, 0x00],
    [0x00, 0x00, 0x06, 0x06, 0x06, 0x06, 0x3E, 0x66, 0x46, 0x46, 0x46, 0x66, 0x3E, 0x00, 0x00, 0x00],
    [0x00, 0x00, 0x00, 0x00, 0x00, 0x00, 0x3C, 0x66, 0x7E, 0x40, 0x40, 0x60, 0x3E, 0x00, 0x00, 0x00],
    [0x00, 0x00, 0x0E, 0x18, 0x10, 0x10, 0x7E, 0x10, 0x10, 0x10, 0x10, 0x10, 0x10, 0x00, 0x00, 0x00],
    [0x00, 0x00, 0x00, 0x00, 0x00, 0x00, 0x3E, 0x66, 0x46, 0x46, 0x46, 0x66, 0x3E, 0x06, 0x04, 0x38],
    [0x00, 0x00, 0x40, 0x40, 0x40, 0x40, 0x7C, 0x66, 0x66, 0x46, 0x46, 0x46, 0x46, 0x00, 0x00, 0x00],
    [0x00, 0x00, 0x00, 0x08, 0x00, 0x00, 0x38, 0x08, 0x08, 0x08, 0x08, 0x08, 0x7E, 0x00, 0x00, 0x00],
    [0x00, 0x00, 0x08, 0x00, 0x00, 0x00, 0x38, 0x08, 0x08, 0x08, 0x08, 0x08, 0x08, 0x08, 0x18, 0x70],
    [0x00, 0x00, 0x60, 0x60, 0x60, 0x60, 0x66, 0x6C, 0x78, 0x78, 0x6C, 0x66, 0x62, 0x00, 0x00, 0x00],
    [0x00, 0x00, 0x00, 0x78, 0x18, 0x18, 0x18, 0x18, 0x18, 0x18, 0x18, 0x08, 0x0E, 0x00, 0x00, 0x00],
    [0x00, 0x00, 0x00, 0x00, 0x00, 0x00, 0x7E, 0x5A, 0x5A, 0x5A, 0x5A, 0x5A, 0x5A, 0x00, 0x00, 0x00],
    [0x00, 0x00, 0x00, 0x00, 0x00, 0x00, 0x7C, 0x66, 0x66, 0x46, 0x46, 0x46, 0x46, 0x00, 0x00, 0x00],
    [0x00, 0x00, 0x00, 0x00, 0x00, 0x00, 0x3C, 0x66, 0x42, 0x42, 0x42, 0x66, 0x3C, 0x00, 0x00, 0x00],
    [0x00, 0x00, 0x00, 0x00, 0x00, 0x00, 0x7C, 0x66, 0x62, 0x42, 0x62, 0x66, 0x7C, 0x40, 0x40, 0x40],
    [0x00, 0x00, 0x00, 0x00, 0x00, 0x00, 0x3E, 0x66, 0x46, 0x46, 0x46, 0x66, 0x3E, 0x06, 0x06, 0x06],
    [0x00, 0x00, 0x00, 0x00, 0x00, 0x00, 0x3E, 0x30, 0x30, 0x30, 0x30, 0x30, 0x30, 0x00, 0x00, 0x00],
    [0x00, 0x00, 0x00, 0x00, 0x00, 0x00, 0x3C, 0x64, 0x60, 0x3C, 0x04, 0x44, 0x3C, 0x00, 0x00, 0x00],
    [0x00, 0x00, 0x00, 0x00, 0x10, 0x10, 0x7E, 0x10, 0x10, 0x10, 0x10, 0x10, 0x1E, 0x00, 0x00, 0x00],
    [0x00, 0x00, 0x00, 0x00, 0x00, 0x00, 0x46, 0x46, 0x46, 0x46, 0x66, 0x66, 0x3E, 0x00, 0x00, 0x00],
    [0x00, 0x00, 0x00, 0x00, 0x00, 0x00, 0x42, 0x46, 0x64, 0x24, 0x2C, 0x18, 0x18, 0x00, 0x00, 0x00],
    [0x00, 0x00, 0x00, 0x00, 0x00, 0x00, 0x83, 0xC3, 0x5A, 0x5A, 0x7A, 0x66, 0x64, 0x00, 0x00, 0x00],
    [0x00, 0x00, 0x00, 0x00, 0x00, 0x00, 0x46, 0x24, 0x18, 0x18, 0x38, 0x24, 0x42, 0x00, 0x00, 0x00],
    [0x00, 0x00, 0x00, 0x00, 0x00, 0x00, 0x42, 0x66, 0x24, 0x24, 0x3C, 0x18, 0x18, 0x18, 0x10, 0x60],
    [0x00, 0x00, 0x00, 0x00, 0x00, 0x00, 0x7E, 0x04, 0x08, 0x18, 0x30, 0x20, 0x7E, 0x00, 0x00, 0x00],
    [0x00, 0x00, 0x0E, 0x08, 0x18, 0x18, 0x18, 0x18, 0x70, 0x18, 0x18, 0x18, 0x08, 0x0E, 0x00, 0x00],
    [0x00, 0x00, 0x00, 0x08, 0x08, 0x08, 0x08, 0x08, 0x08, 0x08, 0x08, 0x08, 0x08, 0x08, 0x08, 0x08],
    [0x00, 0x00, 0x70, 0x10, 0x18, 0x18, 0x18, 0x18, 0x0E, 0x18, 0x18, 0x18, 0x10, 0x70, 0x00, 0x00],
    [0x00, 0x00, 0x00, 0x00, 0x00, 0x00, 0x00, 0x60, 0xD0, 0x0A, 0x0E, 0x00, 0x00, 0x00, 0x00, 0x00]] : List (List Nat)).map fun rows =>
    rows.map UInt8.ofNat

/-- Look up a glyph, falling back to a question mark for anything unprintable. -/
def glyph (ch : UInt8) : List UInt8 :=
  glyphs.getD (if first ≤ ch ∧ ch ≤ last then (ch - first).toNat else (63 - first).toNat) []

def inked (ch : UInt8) (row column : Nat) : Bool :=
  (glyph ch).getD row 0 &&& (0x80 >>> UInt8.ofNat column) != 0

theorem glyphs_length : glyphs.length = 95 := rfl

theorem glyph_mem (ch : UInt8) : glyph ch ∈ glyphs := by
  have inside : (if first ≤ ch ∧ ch ≤ last then (ch - first).toNat else (63 - first).toNat) <
      glyphs.length := by
    rw [glyphs_length]
    split_ifs with known
    · obtain ⟨low, high⟩ := known
      rw [UInt8.toNat_sub_of_le _ _ low]
      have bound : ch.toNat ≤ 126 := UInt8.le_iff_toNat_le.mp high
      change ch.toNat - 32 < 95
      omega
    · decide
  rw [glyph, List.getD_eq_getElem _ _ inside]
  exact List.getElem_mem inside

theorem glyph_length (ch : UInt8) : (glyph ch).length = height := by
  have all : glyphs.all (fun rows => rows.length == 16) = true := by decide +kernel
  exact beq_iff_eq.mp (List.all_eq_true.mp all _ (glyph_mem ch))

end FiveAM.Display.Font
