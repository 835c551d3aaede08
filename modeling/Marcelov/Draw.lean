import Marcelov.Lib.Writes
import Marcelov.Scrollback

/-!
# Drawing the scrollback

`scrollback_draw`. The loops give the rows and characters they visit, with the values of `x`,
`y` and `line` there; the stores to the canvas are `fb_clear`'s followed by those of the
`fb_print_char` calls, in order.

The `while (1)` loop runs on fuel. `drawRows_eq` shows that it stops by itself, and what it has
visited then: `drawnRows` rows, from the top line on. `drawVisits` is that result.
-/

namespace Marcelov

open Lib

/-- A call `fb_print_char(c, x, y)` of the inner loop. -/
structure CharVisit where
  c : UInt8
  x : ℕ
  deriving DecidableEq

/-- A pass of the outer loop that draws its line. -/
structure RowVisit where
  line : ℕ
  y : ℕ
  chars : List CharVisit
  deriving DecidableEq

/-- The inner loop: `n` iterations left, at column `i` and pen position `x`. -/
def drawChars (font : Font) (fb : FbGeometry) (row : ℕ → UInt8) : ℕ → ℕ → ℕ → List CharVisit
  | 0, _, _ => []
  | n + 1, i, x =>
    if u32 (x + marginRight) < fb.width then
      if row i = 0 then []
      else ⟨row i, x⟩ :: drawChars font fb row n (i + 1) (u32 (x + fbMeasureChar font (row i)))
    else []

/-- The outer loop, on fuel: the rows drawn, and `last_line` at the end. -/
def drawRows (font : Font) (fb : FbGeometry) (s : Scrollback) :
    ℕ → ℕ → ℕ → ℕ → Option (List RowVisit × ℕ)
  | 0, _, _, _ => none
  | fuel + 1, y, line, lastLine =>
    let row := s.scrollbuffer line
    let nextY := u32 (y + fbMeasureLineHeight row maxLineLen)
    if fb.height ≤ u32 (nextY + marginBottom) then some ([], lastLine)
    else
      let visit : RowVisit := ⟨line, y, drawChars font fb row maxLineLen 0 marginLeft⟩
      let y' := u32 (y + fbMeasureLineHeight row maxLineLen)
      let line' := (line + 1) % maxLinesRemembered
      if line' = s.start then some ([visit], line)
      else (drawRows font fb s fuel y' line' line).map fun (visits, last) => (visit :: visits, last)

/-- `uint32_t last_line = -1` -/
def noLine : ℕ := 2 ^ 32 - 1

/-! ## The rows that are drawn -/

/-- How many rows fit between the margins. -/
def FbGeometry.rowsThatFit (fb : FbGeometry) : ℕ :=
  (fb.height - (marginTop + charHeight)) / charHeight

/-- The number of rows `scrollback_draw` draws. -/
def Scrollback.drawnRows (fb : FbGeometry) (s : Scrollback) : ℕ :=
  min fb.rowsThatFit (lap maxLinesRemembered s.topLine s.start)

/-- The pass that draws `line` as row `r` of the screen. -/
def Scrollback.rowVisit (font : Font) (fb : FbGeometry) (s : Scrollback) (r line : ℕ) : RowVisit :=
  ⟨line, marginTop + charHeight * r,
    drawChars font fb (s.scrollbuffer line) maxLineLen 0 marginLeft⟩

theorem fits_iff (fb : FbGeometry) (r : ℕ) :
    r < fb.rowsThatFit ↔ marginTop + charHeight * (r + 1) + marginBottom < fb.height := by
  unfold FbGeometry.rowsThatFit marginTop marginBottom charHeight
  omega

/-- The 32-bit sums of the outer loop are exact for as many rows as there can be. -/
theorem u32_nextY {r : ℕ} (hr : r ≤ 2 ^ 20) :
    u32 (marginTop + charHeight * r + charHeight) = marginTop + charHeight * (r + 1) := by
  unfold marginTop charHeight
  rw [u32_of_lt (by omega)]
  omega

theorem u32_bottom {r : ℕ} (hr : r ≤ 2 ^ 20) :
    u32 (marginTop + charHeight * (r + 1) + marginBottom) =
      marginTop + charHeight * (r + 1) + marginBottom := by
  unfold marginTop marginBottom charHeight
  exact u32_of_lt (by omega)

theorem map_range_succ {α : Type*} (f : ℕ → α) (n : ℕ) :
    (List.range (n + 1)).map f = f 0 :: (List.range n).map fun j => f (j + 1) := by
  rw [List.range_succ_eq_map, List.map_cons, List.map_map]
  rfl

/-- **The outer loop stops**, having drawn the rows from `line` on that fit and come before
`start`. -/
theorem drawRows_eq (font : Font) (fb : FbGeometry) (s : Scrollback) (fuel r line last k : ℕ)
    (hline : line < maxLinesRemembered) (hfuel : lap maxLinesRemembered line s.start ≤ fuel)
    (hr : r + fuel ≤ 2 ^ 20)
    (hk : k = min (fb.rowsThatFit - r) (lap maxLinesRemembered line s.start)) :
    drawRows font fb s fuel (marginTop + charHeight * r) line last =
      some ((List.range k).map fun j => s.rowVisit font fb (r + j) (fwd maxLinesRemembered line j),
        if k = 0 then last else fwd maxLinesRemembered line (k - 1)) := by
  have hN : 0 < maxLinesRemembered := by decide
  induction fuel generalizing r line last k with
  | zero => exact absurd hfuel (Nat.not_le.2 (lap_pos _ _ _))
  | succ fuel ih =>
    simp only [drawRows, fbMeasureLineHeight, u32_nextY (r := r) (by omega),
      u32_bottom (r := r) (by omega)]
    by_cases hfit : r < fb.rowsThatFit
    · rw [if_neg (Nat.not_le.2 ((fits_iff fb r).1 hfit))]
      by_cases hstart : (line + 1) % maxLinesRemembered = s.start
      · have hlap := (lap_eq_one_iff hN s.start_lt).2 hstart
        obtain rfl : k = 1 := by omega
        rw [if_pos hstart]
        simp [Scrollback.rowVisit, fwd_zero hline]
      · have hlap := lap_succ hN s.start_lt hstart
        obtain ⟨k, rfl⟩ : ∃ k', k = k' + 1 := ⟨k - 1, by omega⟩
        rw [if_neg hstart, ih (r + 1) _ line k (Nat.mod_lt _ hN) (by omega) (by omega) (by omega)]
        have hfwd (j : ℕ) : fwd maxLinesRemembered ((line + 1) % maxLinesRemembered) j =
            fwd maxLinesRemembered line (j + 1) := by
          rw [fwd, fwd, Nat.mod_add_mod]
          congr 1
          omega
        have hlast : (if k = 0 then line else fwd maxLinesRemembered line (k - 1 + 1)) =
            fwd maxLinesRemembered line k := by
          cases k with
          | zero => exact (fwd_zero hline).symm
          | succ k => rfl
        rw [map_range_succ, Option.map_some, fwd_zero hline]
        simp only [hfwd, hlast, Nat.add_right_comm r 1, Nat.add_assoc r]
        rfl
    · rw [if_pos (Nat.not_lt.1 ((fits_iff fb r).not.1 hfit))]
      obtain rfl : k = 0 := by omega
      simp

theorem drawRows_isSome (font : Font) (fb : FbGeometry) (s : Scrollback) :
    (drawRows font fb s maxLinesRemembered marginTop s.topLine noLine).isSome := by
  have h := drawRows_eq font fb s maxLinesRemembered 0 s.topLine noLine _ s.topLine_lt
    (lap_le (by decide) _ _) (by decide) rfl
  exact Option.isSome_of_mem h

/-- The rows `scrollback_draw` draws, and its `last_line`. -/
def drawVisits (font : Font) (fb : FbGeometry) (s : Scrollback) : List RowVisit × ℕ :=
  (drawRows font fb s maxLinesRemembered marginTop s.topLine noLine).get
    (drawRows_isSome font fb s)

theorem drawVisits_eq (font : Font) (fb : FbGeometry) (s : Scrollback) :
    drawVisits font fb s =
      ((List.range (s.drawnRows fb)).map fun r =>
          s.rowVisit font fb r (fwd maxLinesRemembered s.topLine r),
        if s.drawnRows fb = 0 then noLine
        else fwd maxLinesRemembered s.topLine (s.drawnRows fb - 1)) := by
  have h := drawRows_eq font fb s maxLinesRemembered 0 s.topLine noLine (s.drawnRows fb)
    s.topLine_lt (lap_le (by decide) _ _) (by decide) rfl
  simp only [Nat.zero_add] at h
  exact Option.get_of_eq_some _ h

/-- The lines of the rows `scrollback_draw` draws, from the top of the screen. -/
def drawnLines (font : Font) (fb : FbGeometry) (s : Scrollback) : List ℕ :=
  (drawVisits font fb s).1.map RowVisit.line

/-- `last_line` when the loop of `scrollback_draw` ends. -/
def lastLine (font : Font) (fb : FbGeometry) (s : Scrollback) : ℕ := (drawVisits font fb s).2

theorem drawnLines_eq (font : Font) (fb : FbGeometry) (s : Scrollback) :
    drawnLines font fb s =
      (List.range (s.drawnRows fb)).map (fwd maxLinesRemembered s.topLine) := by
  rw [drawnLines, drawVisits_eq, List.map_map]
  rfl

theorem drawnRows_le (fb : FbGeometry) (s : Scrollback) : s.drawnRows fb ≤ maxLinesRemembered :=
  le_trans (min_le_right _ _) (lap_le (by decide) _ _)

/-! ## The stores to the canvas -/

/-- The calls `fb_print_char(c, x, y)` of a whole redraw, as `(c, x, y)`, in order. -/
def drawCalls (font : Font) (fb : FbGeometry) (s : Scrollback) : List (UInt8 × ℕ × ℕ) :=
  (drawVisits font fb s).1.flatMap fun v => v.chars.map fun ch => (ch.c, ch.x, v.y)

def drawGlyphs (font : Font) (fb : FbGeometry) (s : Scrollback) : List GlyphWrite :=
  (drawCalls font fb s).flatMap fun (c, x, y) => fbPrintChar font fb c x y

def drawWrites (font : Font) (fb : FbGeometry) (s : Scrollback) : List (ℕ × Rgb) :=
  fbClear fb 170 69 69 ++ (drawGlyphs font fb s).map (GlyphWrite.toWrite fb)

/-- The scrollback and the canvas it is drawn on. -/
structure Display where
  sb : Scrollback
  canvas : ℕ → Rgb

def scrollbackDraw (font : Font) (fb : FbGeometry) (d : Display) : Display where
  sb :=
    if lastLine font fb d.sb = d.sb.currLine then { d.sb with scrollsOnNewLine := true }
    else d.sb
  canvas := applyWrites (drawWrites font fb d.sb) d.canvas

/-- A redraw changes the canvas and the sticky flag only. -/
theorem sameText_draw (font : Font) (fb : FbGeometry) (d : Display) :
    Scrollback.SameText d.sb (scrollbackDraw font fb d).sb := by
  unfold scrollbackDraw
  dsimp only
  split_ifs
  exacts [⟨rfl, rfl, rfl, rfl, rfl⟩, Scrollback.SameText.refl _]

end Marcelov
