import Marcelov.Draw
import Marcelov.Rows

/-!
# Where a redraw stores

The stores of the `fb_print_char` calls of a redraw, by the row of the screen and the character
they belong to (`mem_drawGlyphs`), and where they fall. The column is checked before each
store, but the row only after a whole row of the glyph: that the last row fits is left to
`scrollback_draw`, which stops a line early enough. `redraw_in_bounds` is the result, for any
geometry: the redraw ends, and no store or sum is out of range.
-/

namespace Marcelov

open Lib

/-! ## The characters of a row -/

/-- The pen is as far right as the characters before it are wide. -/
theorem pen_le (font : Font) (fb : FbGeometry) (row : ℕ → UInt8) {n i x : ℕ} {v : CharVisit}
    (hx : x + 255 * n < 2 ^ 32) (hv : v ∈ drawChars font fb row n i x) :
    v.x + 255 ≤ x + 255 * n := by
  induction n generalizing i x with
  | zero => simp [drawChars] at hv
  | succ n ih =>
    rw [drawChars] at hv
    split_ifs at hv
    · simp at hv
    · rcases List.mem_cons.1 hv with rfl | hv
      · dsimp only
        omega
      · have hwidth : fbMeasureChar font (row i) ≤ 255 :=
          Nat.le_of_lt_succ (font.charWidth_lt (row i))
        rw [u32_of_lt (by omega)] at hv
        have hpen := ih (by omega) hv
        omega
    · simp at hv

/-! ## The stores of the rows -/

theorem mem_drawGlyphs {font : Font} {fb : FbGeometry} {s : Scrollback} {w : GlyphWrite} :
    w ∈ drawGlyphs font fb s ↔
      ∃ r < s.drawnRows fb,
        ∃ v ∈ drawChars font fb (s.scrollbuffer (fwd maxLinesRemembered s.topLine r)) maxLineLen 0
            marginLeft,
          w ∈ fbPrintChar font fb v.c v.x (marginTop + charHeight * r) := by
  rw [drawGlyphs, drawCalls, drawVisits_eq]
  simp only [List.mem_flatMap, List.mem_map, List.mem_range]
  constructor
  · rintro ⟨_, ⟨_, ⟨r, hr, rfl⟩, v, hv, rfl⟩, hw⟩
    exact ⟨r, hr, v, hv, hw⟩
  · rintro ⟨r, hr, v, hv, hw⟩
    exact ⟨_, ⟨_, ⟨r, hr, rfl⟩, v, hv, rfl⟩, hw⟩

theorem row_fits {fb : FbGeometry} {s : Scrollback} {r : ℕ} (hr : r < s.drawnRows fb) :
    marginTop + charHeight * (r + 1) + marginBottom < fb.height :=
  (fits_iff fb r).1 (hr.trans_le (min_le_left _ _))

/-- The stores of a redraw, without the 32-bit arithmetic: no coordinate wraps, and each store
is to a pixel of the canvas. -/
structure GlyphWrite.Inside (fb : FbGeometry) (w : GlyphWrite) : Prop where
  column_eq : w.column = w.startX + w.x
  row_eq : w.row = w.startY + w.y
  column_lt : w.startX + w.x < fb.width
  row_lt : w.startY + w.y < fb.height

theorem drawGlyphs_inside {font : Font} {fb : FbGeometry} {s : Scrollback} {w : GlyphWrite}
    (hw : w ∈ drawGlyphs font fb s) : w.Inside fb := by
  obtain ⟨r, hr, v, hv, hw⟩ := mem_drawGlyphs.1 hw
  obtain ⟨x, hx, y, hy, rfl, -, hcols, -⟩ := mem_fbPrintChar.1 hw
  have hheight := fb.height_lt
  have hpen : v.x + 255 ≤ 15 + 255 * 256 :=
    pen_le font fb _ (by decide) hv
  have hwidth := font.charWidth_lt (font.printed v.c)
  have hcol : u32 (v.x + x) = v.x + x := u32_of_lt (by omega)
  have hbottom := row_fits hr
  have hrow : marginTop + charHeight * r + y < fb.height := by
    simp only [marginTop, marginBottom, charHeight] at hbottom hy ⊢
    omega
  refine ⟨hcol, u32_of_lt (hrow.trans hheight), ?_, hrow⟩
  have hin := hcols x le_rfl
  rw [hcol] at hin
  exact hin

theorem pixel_lt {width height x y : ℕ} (hx : x < width) (hy : y < height) :
    y * width + x < width * height := by
  have hrows : (y + 1) * width ≤ height * width := Nat.mul_le_mul_right width hy
  rw [Nat.mul_comm width height]
  rw [Nat.succ_mul] at hrows
  omega

theorem pixel_index_inj {width x y x' y' : ℕ} (hx : x < width) (hx' : x' < width)
    (h : y * width + x = y' * width + x') : x = x' ∧ y = y' := by
  have hwidth : 0 < width := by omega
  have hcol := congrArg (· % width) h
  have hrow := congrArg (· / width) h
  simp only [Nat.mul_add_mod_self_right, Nat.mod_eq_of_lt hx, Nat.mod_eq_of_lt hx'] at hcol
  simp only [Nat.add_comm _ x, Nat.add_comm _ x', Nat.add_mul_div_right _ _ hwidth,
    Nat.div_eq_of_lt hx, Nat.div_eq_of_lt hx', Nat.zero_add] at hrow
  exact ⟨hcol, hrow⟩

theorem GlyphWrite.Inside.index_eq {fb : FbGeometry} {w : GlyphWrite} (h : w.Inside fb)
    (hsize : fb.width * fb.height < 2 ^ 31) :
    w.index fb = (w.startY + w.y) * fb.width + (w.startX + w.x) := by
  have hlt := pixel_lt h.column_lt h.row_lt
  have hrow : u32 ((w.startY + w.y) * fb.width) = (w.startY + w.y) * fb.width :=
    u32_of_lt (by omega)
  rw [index, h.row_eq, h.column_eq, hrow, u32_of_lt (by omega)]

theorem GlyphWrite.Inside.index_lt {fb : FbGeometry} {w : GlyphWrite} (h : w.Inside fb)
    (hsize : fb.width * fb.height < 2 ^ 31) : w.index fb < fb.width * fb.height := by
  rw [h.index_eq hsize]
  exact pixel_lt h.column_lt h.row_lt

theorem fbClear_lt {fb : FbGeometry} {r g b : UInt8} {w : ℕ × Rgb}
    (hsize : fb.width * fb.height < 2 ^ 31) (hw : w ∈ fbClear fb r g b) :
    w.1 < fb.width * fb.height := by
  have hlt := (mem_fbClear.1 hw).1
  rwa [u32_of_lt (by omega)] at hlt

theorem drawWrites_lt {font : Font} {fb : FbGeometry} {s : Scrollback} {w : ℕ × Rgb}
    (hsize : fb.width * fb.height < 2 ^ 31) (hw : w ∈ drawWrites font fb s) :
    w.1 < fb.width * fb.height := by
  rcases List.mem_append.1 hw with hw | hw
  · exact fbClear_lt hsize hw
  · obtain ⟨g, hg, rfl⟩ := List.mem_map.1 hw
    exact (drawGlyphs_inside hg).index_lt hsize

/-! ## The result -/

/-- The loops of a redraw end, their sums do not wrap, and their stores are to pixels of the
canvas. -/
structure RedrawInBounds (font : Font) (fb : FbGeometry) (s : Scrollback) : Prop where
  stops : (drawRows font fb s maxLinesRemembered marginTop s.topLine noLine).isSome
  rows_le : (drawVisits font fb s).1.length ≤ maxLinesRemembered
  /-- `next_y + margin_bottom`, in the pass that draws a row and in the one after it -/
  row_sums : ∀ row ∈ (drawVisits font fb s).1,
    row.y + charHeight + charHeight + marginBottom < 2 ^ 32
  /-- `x + margin_right`, before a character and after it -/
  pen_sums : ∀ row ∈ (drawVisits font fb s).1, ∀ v ∈ row.chars,
    v.x + fbMeasureChar font v.c + marginRight < 2 ^ 32
  clear_lt : ∀ w ∈ fbClear fb 170 69 69, w.1 < fb.width * fb.height
  glyph_sums : ∀ w ∈ drawGlyphs font fb s, w.startX + w.x < 2 ^ 32 ∧ w.startY + w.y < 2 ^ 32 ∧
    w.row * fb.width + w.column < 2 ^ 32
  glyph_lt : ∀ w ∈ drawGlyphs font fb s, w.column < fb.width ∧ w.row < fb.height ∧
    w.index fb = w.row * fb.width + w.column ∧ w.index fb < fb.width * fb.height

/-- **A redraw ends and stays inside the canvas**, for every state of the scrollback and every
geometry whose canvas has fewer than `2 ^ 31` pixels: the loop stops after at most 1024 rows,
and no store or sum is out of range. -/
theorem redraw_in_bounds (font : Font) (fb : FbGeometry) (s : Scrollback)
    (hsize : fb.width * fb.height < 2 ^ 31) : RedrawInBounds font fb s where
  stops := drawRows_isSome font fb s
  rows_le := by
    rw [drawVisits_eq, List.length_map, List.length_range]
    exact drawnRows_le fb s
  row_sums := by
    intro row hrow
    rw [drawVisits_eq] at hrow
    obtain ⟨r, hr, rfl⟩ := List.mem_map.1 hrow
    have hlt : r < 1024 := (List.mem_range.1 hr).trans_le (drawnRows_le fb s)
    simp only [Scrollback.rowVisit, marginTop, marginBottom, charHeight]
    omega
  pen_sums := by
    intro row hrow v hv
    rw [drawVisits_eq] at hrow
    obtain ⟨r, -, rfl⟩ := List.mem_map.1 hrow
    have hpen : v.x + 255 ≤ 15 + 255 * 256 := pen_le font fb _ (by decide) hv
    have hwidth := font.charWidth_lt v.c
    simp only [fbMeasureChar, marginRight]
    omega
  clear_lt := fun _ hw => fbClear_lt hsize hw
  glyph_sums := by
    intro w hw
    have hin := drawGlyphs_inside hw
    have hpixel := pixel_lt hin.column_lt hin.row_lt
    rw [hin.column_eq, hin.row_eq]
    exact ⟨hin.column_lt.trans fb.width_lt, hin.row_lt.trans fb.height_lt, by omega⟩
  glyph_lt := by
    intro w hw
    have hin := drawGlyphs_inside hw
    rw [hin.index_eq hsize, hin.column_eq, hin.row_eq]
    exact ⟨hin.column_lt, hin.row_lt, rfl, pixel_lt hin.column_lt hin.row_lt⟩

/-- A line with a letter, on the screen of `main`. -/
theorem redraw_in_bounds_letter :
    let s := scrollbackPutchar .monaco mainFb Scrollback.init 0x61
    drawGlyphs .monaco mainFb s ≠ [] ∧ RedrawInBounds .monaco mainFb s :=
  ⟨by decide +kernel, redraw_in_bounds .monaco mainFb _ (by decide)⟩

end Marcelov
