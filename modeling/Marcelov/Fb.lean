import Mathlib.Algebra.BigOperators.Group.List.Basic
import Marcelov.Fonts
import Marcelov.Lib.Loop

/-!
# The framebuffer

The part of `fb.c` that draws: the geometry, the font macros, `fb_clear`, `fb_fill_rect`,
`fb_print_char`, the functions that print by it and the measuring functions. The canvas is
written through logs: each function gives the list of its stores, in order, and
`Marcelov.Draw` applies those of a redraw.

`uint32_t` values are natural numbers below `2 ^ 32`, and every sum and product the source
computes in 32 bits goes through `u32`. `char` is unsigned, as on riscv64.
-/

namespace Marcelov

open Lib

/-! ## 32-bit conversions -/

/-- `uint32_t` wrap-around. -/
def u32 (n : ℕ) : ℕ := n % 2 ^ 32

theorem u32_of_lt {n : ℕ} (h : n < 2 ^ 32) : u32 n = n := Nat.mod_eq_of_lt h

/-- An integer stored to an `int32_t`. -/
def toI32 (v : ℤ) : ℤ := v.bmod (2 ^ 32)

/-- An `int32_t` converted to `uint32_t`. -/
def toU32 (v : ℤ) : ℕ := (v % 2 ^ 32).toNat

theorem toI32_of_lt {n : ℕ} (h : n < 2 ^ 31) : toI32 n = n := by
  rw [toI32, Int.bmod_def]
  omega

theorem toU32_natCast {n : ℕ} (h : n < 2 ^ 32) : toU32 n = n := by
  rw [toU32]
  omega

theorem toU32_toI32 {n : ℕ} (h : n < 2 ^ 32) : toU32 (toI32 n) = n := by
  rw [toU32, toI32, Int.bmod_def]
  omega

theorem toI32_succ (n : ℕ) : toI32 (toI32 n + 1) = toI32 (n + 1 : ℕ) := by
  rw [toI32, toI32, toI32, Int.bmod_add_bmod]
  rfl

/-! ## The framebuffer and the font -/

/-- `struct fb_rgb_pixel`. -/
structure Rgb where
  B : UInt8
  G : UInt8
  R : UInt8
  X : UInt8
  deriving DecidableEq

/-- `{ .R = 0, .G = 0, .B = 0 }`. -/
def black : Rgb := ⟨0, 0, 0, 0⟩

/-- The geometry held in `struct fb_config`. -/
structure FbGeometry where
  width : ℕ
  height : ℕ
  width_lt : width < 2 ^ 32
  height_lt : height < 2 ^ 32

/-- The geometry `main` gives to `fb_init`. -/
def mainFb : FbGeometry := ⟨640, 480, by decide, by decide⟩

/-- The font `fb.c` is built with. `cream12` carries the bytes that follow its width table in
memory, which a lookup past the table reads. -/
inductive Font where
  | monaco
  | cream12 (pastWidths : ℕ → UInt8)

/-! ## The font macros -/

def firstChar : ℕ := 32

def charHeight : ℕ := 16

namespace Font

/-- `CHAR_WIDTH(c)` -/
def charWidth : Font → UInt8 → ℕ
  | monaco, _ => 7
  | cream12 pastWidths, c =>
    if c.toNat < 128 then cream12Width.getD c.toNat 0 else (pastWidths (c.toNat - 128)).toNat

def charSize : Font → ℕ
  | monaco => 16
  | cream12 _ => 32

/-- The glyph section the font's array is made of. -/
def glyphs : Font → List ℕ
  | monaco => Marcelov.monaco
  | cream12 _ => Marcelov.cream12

/-- `sizeof(font)` -/
def size (font : Font) : ℕ := font.glyphs.length * font.charSize

def lastChar (font : Font) : ℕ := firstChar + font.size / font.charSize

theorem lastChar_cream12 (pastWidths : ℕ → UInt8) : (cream12 pastWidths).lastChar = 128 := by
  simp [lastChar, size, glyphs, charSize, firstChar]

/-- `font[i]` -/
def byte (font : Font) (i : ℕ) : ℕ := glyphByte font.glyphs font.charSize i

/-- `CHAR_WIDTH(*str++)`, with the position of `str` after it. The macro of `monaco` drops its
argument, and the increment with it. -/
def charWidthPostInc (font : Font) (str : ℕ → UInt8) (pos : ℕ) : ℕ × ℕ :=
  match font with
  | monaco => (7, pos)
  | cream12 _ => (font.charWidth (str pos), pos + 1)

end Font

/-! ## Measuring -/

/-- The loop of `fb_measure_line_width`: `size` is what is left of the argument, `pos` how far
`str` has moved. -/
def fbMeasureLineWidthLoop (font : Font) (str : ℕ → UInt8) : ℕ → ℕ → ℕ → ℕ
  | 0, _, res => res
  | size + 1, pos, res =>
    if str pos = 0 then res
    else
      let (w, pos') := font.charWidthPostInc str pos
      fbMeasureLineWidthLoop font str size pos' (u32 (res + w))

def fbMeasureLineWidth (font : Font) (str : ℕ → UInt8) (size : ℕ) : ℕ :=
  fbMeasureLineWidthLoop font str size 0 0

/-- The positions of `str` that the loop reads, that of its last test included. -/
def fbMeasureLineWidthReads (font : Font) (str : ℕ → UInt8) : ℕ → ℕ → List ℕ
  | 0, pos => [pos]
  | size + 1, pos =>
    pos :: if str pos = 0 then []
      else fbMeasureLineWidthReads font str size (font.charWidthPostInc str pos).2

/-- `fb_measure_line_height`, which looks at neither argument. -/
def fbMeasureLineHeight (_str : ℕ → UInt8) (_size : ℕ) : ℕ := charHeight

def fbMeasureChar (font : Font) (c : UInt8) : ℕ := font.charWidth c

/-! ## Drawing -/

/-- The stores of `fb_clear`: `fb.canvas[i] = px` for `i < fb.width * fb.height`. The counter of
the source is an `int`: what it does once the product is `2 ^ 31` or more is not modelled. -/
def fbClear (fb : FbGeometry) (r g b : UInt8) : List (ℕ × Rgb) :=
  let px : Rgb := { R := r, G := g, B := b, X := 0 }
  (List.range (u32 (fb.width * fb.height))).map fun i => (i, px)

theorem mem_fbClear {fb : FbGeometry} {r g b : UInt8} {w : ℕ × Rgb} :
    w ∈ fbClear fb r g b ↔
      w.1 < u32 (fb.width * fb.height) ∧ w.2 = { R := r, G := g, B := b, X := 0 } := by
  obtain ⟨i, px⟩ := w
  simp only [fbClear, List.mem_map, List.mem_range, Prod.mk.injEq]
  constructor
  · rintro ⟨j, hj, rfl, rfl⟩
    exact ⟨hj, rfl⟩
  · rintro ⟨hi, rfl⟩
    exact ⟨i, hi, rfl, rfl⟩

/-- `for (int i = start; i < limit && i < start + size; i++)`, where `i` is converted to
`uint32_t` to be compared. -/
def fillLoop (limit start size : ℕ) (body : ℤ → Option (List (ℤ × Rgb))) :
    Option (List (ℤ × Rgb)) :=
  forWhile (fun i => decide (toU32 i < limit ∧ toU32 i < u32 (start + size)))
    (fun i => toI32 (i + 1)) body (2 ^ 32) (toI32 start)

/-- The stores of `fb_fill_rect`, `none` if its loops do not end. -/
def fbFillRect (fb : FbGeometry) (col : Rgb) (x y width height : ℕ) : Option (List (ℤ × Rgb)) :=
  fillLoop fb.height y height fun i =>
    let rowOffset := toI32 (u32 (toU32 i * fb.width))
    fillLoop fb.width x width fun j => some [(toI32 (rowOffset + j), col)]

/-- A store of `fb_print_char`, by the values of its variables. -/
structure GlyphWrite where
  startX : ℕ
  startY : ℕ
  x : ℕ
  y : ℕ
  deriving DecidableEq

namespace GlyphWrite

/-- `start_x + x` -/
def column (w : GlyphWrite) : ℕ := u32 (w.startX + w.x)

/-- `start_y + y` -/
def row (w : GlyphWrite) : ℕ := u32 (w.startY + w.y)

/-- `(start_y + y) * fb.width + (start_x + x)` -/
def index (w : GlyphWrite) (fb : FbGeometry) : ℕ := u32 (u32 (w.row * fb.width) + w.column)

/-- `fb.canvas[...] = px` -/
def toWrite (fb : FbGeometry) (w : GlyphWrite) : ℕ × Rgb := (w.index fb, black)

end GlyphWrite

/-- The character `fb_print_char` draws for `c`: `'?'` when the font has no glyph for it. -/
def Font.printed (font : Font) (c : UInt8) : UInt8 :=
  if c.toNat < firstChar ∨ font.lastChar ≤ c.toNat then 63 else c

/-- `font[c_start + c_offset + y] & (0x80 >> c_x)` -/
def Font.glyphBit (font : Font) (c : UInt8) (x y : ℕ) : Bool :=
  let cStart := (c.toNat - firstChar) * font.charSize
  let cOffset := charHeight * (x / 8)
  let cX := x % 8
  font.byte (cStart + cOffset + y) &&& (0x80 >>> cX) != 0

/-- The stores of `fb_print_char`. -/
def fbPrintChar (font : Font) (fb : FbGeometry) (c : UInt8) (startX startY : ℕ) :
    List GlyphWrite :=
  let c := font.printed c
  forBreak (fun y =>
    let cols := forBreak (fun x =>
      if fb.width ≤ u32 (startX + x) then ([], true)
      else if font.glyphBit c x y then ([⟨startX, startY, x, y⟩], false)
      else ([], false)) 0 (font.charWidth c)
    (cols, decide (fb.height ≤ u32 (startY + y)))) 0 charHeight

/-- The stores of `fb_print_char`: a set bit of the glyph, unless the loops left before it. -/
theorem mem_fbPrintChar {font : Font} {fb : FbGeometry} {c : UInt8} {startX startY : ℕ}
    {w : GlyphWrite} :
    w ∈ fbPrintChar font fb c startX startY ↔
      ∃ x < font.charWidth (font.printed c), ∃ y < charHeight, w = ⟨startX, startY, x, y⟩ ∧
        font.glyphBit (font.printed c) x y = true ∧
        (∀ j ≤ x, u32 (startX + j) < fb.width) ∧ ∀ j < y, u32 (startY + j) < fb.height := by
  simp only [fbPrintChar, mem_forBreak, Nat.zero_add, decide_eq_false_iff_not, Nat.not_le]
  constructor
  · rintro ⟨y, hy, hrows, x, hx, hcols, hw⟩
    split_ifs at hw with hout hbit
    · cases hw
    · obtain rfl := List.mem_singleton.1 hw
      refine ⟨x, hx, y, hy, rfl, hbit, fun j hj => ?_, hrows⟩
      rcases Nat.lt_or_eq_of_le hj with hlt | rfl
      · have hgo := hcols j hlt
        by_contra hge
        rw [if_pos (Nat.not_lt.1 hge)] at hgo
        cases hgo
      · exact Nat.not_le.1 hout
    · cases hw
  · rintro ⟨x, hx, y, hy, rfl, hbit, hcols, hrows⟩
    refine ⟨y, hy, hrows, x, hx, fun j hj => ?_, ?_⟩
    · rw [if_neg (Nat.not_le.2 (hcols j (Nat.le_of_lt hj)))]
      split_ifs <;> rfl
    · rw [if_neg (Nat.not_le.2 (hcols x (Nat.le_refl x))), if_pos hbit]
      exact List.mem_singleton_self _

/-! ## Printing -/

/-- A call of `fb_print_char`. -/
structure PrintCall where
  c : UInt8
  x : ℕ
  y : ℕ
  deriving DecidableEq

/-- The variables `x` and `y` of `fb_print` after the character `c`. -/
def fbPrintPen (font : Font) (startX : ℕ) (pen : ℕ × ℕ) (c : UInt8) : ℕ × ℕ :=
  if c = 10 then (startX, u32 (pen.2 + (charHeight + 2)))
  else (u32 (pen.1 + font.charWidth c), pen.2)

/-- The calls of `fb_print` for the characters of a string, from a pen position. -/
def fbPrintCalls (font : Font) (startX : ℕ) : List UInt8 → ℕ × ℕ → List PrintCall
  | [], _ => []
  | c :: str, pen =>
    (if c = 10 then [] else [⟨c, pen.1, pen.2⟩]) ++
      fbPrintCalls font startX str (fbPrintPen font startX pen c)

/-- The stores of `fb_print`. -/
def fbPrint (font : Font) (fb : FbGeometry) (str : List UInt8) (startX startY : ℕ) :
    List GlyphWrite :=
  (fbPrintCalls font startX str (startX, startY)).flatMap fun call =>
    fbPrintChar font fb call.c call.x call.y

/-- What `fb_print_charmap` adds to `x` after the character `i`. -/
def fbPrintCharmapAdvance (font : Font) (i : ℕ) : ℕ :=
  if i < firstChar ∨ font.lastChar ≤ i then font.charWidth 63 else font.charWidth i.toUInt8

/-- The calls of `fb_print_charmap` for `n` characters from `i` on. -/
def fbPrintCharmapCalls (font : Font) (startX : ℕ) : ℕ → ℕ → ℕ × ℕ → List PrintCall
  | 0, _, _ => []
  | n + 1, i, pen =>
    let pen := if i ≠ 0 ∧ i % 32 = 0 then (startX, u32 (pen.2 + (charHeight + 2))) else pen
    ⟨i.toUInt8, pen.1, pen.2⟩ ::
      fbPrintCharmapCalls font startX n (i + 1)
        (u32 (pen.1 + fbPrintCharmapAdvance font i), pen.2)

/-- The stores of `fb_print_charmap`. -/
def fbPrintCharmap (font : Font) (fb : FbGeometry) (startX startY : ℕ) : List GlyphWrite :=
  (fbPrintCharmapCalls font startX 256 0 (startX, startY)).flatMap fun call =>
    fbPrintChar font fb call.c call.x call.y

end Marcelov
