import Marcelov.Pixels

/-!
# Clipping of a glyph

`fb_print_char` leaves the row at the right edge of the canvas before it stores, but looks at
the bottom edge only after a whole row of the glyph is drawn. So the columns are clipped for
every start position, also where the sums wrap, and one row too many is drawn: the row just
below the canvas, or the first row of a glyph that starts further down.

`clips_iff` says when that row is seen.
-/

namespace Marcelov

open Lib

variable {font : Font} {fb : FbGeometry} {c : UInt8} {startX startY : ℕ}

/-! ## The pixels a glyph should have -/

/-- A set bit of the glyph at a pixel of the canvas, in sums that do not wrap. -/
def glyphPixel (font : Font) (fb : FbGeometry) (c : UInt8) (startX startY px py : ℕ) : Prop :=
  ∃ x < font.charWidth (font.printed c), ∃ y < charHeight,
    font.glyphBit (font.printed c) x y = true ∧ px = startX + x ∧ py = startY + y ∧
    px < fb.width ∧ py < fb.height

def glyphIndex (font : Font) (fb : FbGeometry) (c : UInt8) (startX startY i : ℕ) : Prop :=
  ∃ px py, glyphPixel font fb c startX startY px py ∧ i = py * fb.width + px

/-- `fb_print_char` makes the pixels of the glyph black, stores nowhere else, and nowhere
outside the canvas. -/
structure Clips (font : Font) (fb : FbGeometry) (c : UInt8) (startX startY : ℕ) : Prop where
  stores_iff : ∀ i,
    (∃ w ∈ fbPrintChar font fb c startX startY, w.index fb = i) ↔
      glyphIndex font fb c startX startY i
  inside : ∀ w ∈ fbPrintChar font fb c startX startY, w.index fb < fb.width * fb.height
  black_iff : ∀ (canvas : ℕ → Rgb) i,
    let canvas' :=
      applyWrites ((fbPrintChar font fb c startX startY).map (GlyphWrite.toWrite fb)) canvas
    (glyphIndex font fb c startX startY i → canvas' i = black) ∧
      (¬ glyphIndex font fb c startX startY i → canvas' i = canvas i)

theorem glyphIndex_lt {i : ℕ} (h : glyphIndex font fb c startX startY i) :
    i < fb.width * fb.height := by
  obtain ⟨px, py, ⟨x, -, y, -, -, -, -, hpx, hpy⟩, rfl⟩ := h
  exact pixel_lt hpx hpy

/-- That the stores are those of the glyph is all there is to clipping. -/
theorem Clips.of_stores_iff
    (h : ∀ i, (∃ w ∈ fbPrintChar font fb c startX startY, w.index fb = i) ↔
      glyphIndex font fb c startX startY i) : Clips font fb c startX startY where
  stores_iff := h
  inside := fun w hw => glyphIndex_lt ((h _).1 ⟨w, hw, rfl⟩)
  black_iff := by
    intro canvas i
    refine ⟨fun hi => ?_, fun hi => ?_⟩
    · obtain ⟨w, hw, rfl⟩ := (h i).2 hi
      refine applyWrites_of_forall ⟨_, List.mem_map_of_mem hw, rfl⟩ fun w' hw' _ => ?_
      obtain ⟨g, -, rfl⟩ := List.mem_map.1 hw'
      rfl
    · refine applyWrites_of_not_mem fun w' hw' heq => ?_
      obtain ⟨g, hg, rfl⟩ := List.mem_map.1 hw'
      exact hi ((h i).1 ⟨g, hg, heq⟩)

/-! ## The edges -/

/-- A sum that stays below a 32-bit limit on the way has not wrapped. -/
theorem forall_u32_add_lt_iff {limit start n : ℕ} (hlimit : limit < 2 ^ 32)
    (hstart : start < 2 ^ 32) :
    (∀ j < n, u32 (start + j) < limit) ↔ n = 0 ∨ start + n ≤ limit := by
  induction n with
  | zero => simp
  | succ n ih =>
    constructor
    · intro h
      have hprev := ih.1 fun j hj => h j (Nat.lt_succ_of_lt hj)
      have hlast := h n (Nat.lt_succ_self n)
      rw [u32_of_lt (by omega)] at hlast
      omega
    · intro h j hj
      rw [u32_of_lt (by omega)]
      omega

theorem mem_fbPrintChar_iff {w : GlyphWrite} (hX : startX < 2 ^ 32) (hY : startY < 2 ^ 32) :
    w ∈ fbPrintChar font fb c startX startY ↔
      ∃ x < font.charWidth (font.printed c), ∃ y < charHeight, w = ⟨startX, startY, x, y⟩ ∧
        font.glyphBit (font.printed c) x y = true ∧
        startX + x < fb.width ∧ (y = 0 ∨ startY + y ≤ fb.height) := by
  have hcols (x : ℕ) : (∀ j ≤ x, u32 (startX + j) < fb.width) ↔ startX + x < fb.width := by
    have h := forall_u32_add_lt_iff (n := x + 1) fb.width_lt hX
    simp only [Nat.lt_succ_iff] at h
    rw [h]
    omega
  simp only [mem_fbPrintChar, hcols, forall_u32_add_lt_iff fb.height_lt hY]

/-- The row drawn before the bottom edge is seen. -/
def lateRow (fb : FbGeometry) (startY : ℕ) : ℕ := fb.height - startY

theorem index_of_row_lt {x y : ℕ} (hsize : fb.width * fb.height < 2 ^ 31)
    (hx : startX + x < fb.width) (hy : startY + y < fb.height) :
    (GlyphWrite.mk startX startY x y).index fb = (startY + y) * fb.width + (startX + x) :=
  GlyphWrite.Inside.index_eq
    ⟨u32_of_lt (hx.trans fb.width_lt), u32_of_lt (hy.trans fb.height_lt), hx, hy⟩ hsize

/-- A store in the late row is to no pixel of the glyph: to none of the canvas, or the glyph
has none. -/
theorem not_glyphIndex_lateRow {x : ℕ} (hsize : fb.width * fb.height < 2 ^ 31)
    (hx : startX + x < fb.width) :
    ¬ glyphIndex font fb c startX startY
        ((GlyphWrite.mk startX startY x (lateRow fb startY)).index fb) := by
  intro h
  have hlt := glyphIndex_lt h
  obtain ⟨px, py, ⟨x', -, y', -, -, -, rfl, -, hpy⟩, -⟩ := h
  -- A pixel of the glyph above the edge: the late row is row `fb.height`.
  have hrow : startY + lateRow fb startY = fb.height := by
    rw [lateRow]
    omega
  have hheight := fb.height_lt
  have hwidth : fb.width ≤ fb.width * fb.height := Nat.le_mul_of_pos_right _ (by omega)
  rw [GlyphWrite.index, GlyphWrite.row, GlyphWrite.column, hrow, u32_of_lt hheight,
    u32_of_lt (hx.trans fb.width_lt), Nat.mul_comm,
    u32_of_lt (n := fb.width * fb.height) (by omega), u32_of_lt (by omega)] at hlt
  omega

theorem mem_lateRow_iff {x : ℕ} (hX : startX < 2 ^ 32) (hY : startY < 2 ^ 32) :
    ⟨startX, startY, x, lateRow fb startY⟩ ∈ fbPrintChar font fb c startX startY ↔
      x < font.charWidth (font.printed c) ∧ lateRow fb startY < charHeight ∧
        font.glyphBit (font.printed c) x (lateRow fb startY) = true ∧ startX + x < fb.width := by
  rw [mem_fbPrintChar_iff hX hY]
  constructor
  · rintro ⟨x', hx, y, hy, heq, hbit, hcol, -⟩
    obtain ⟨-, -, rfl, rfl⟩ := GlyphWrite.mk.inj heq
    exact ⟨hx, hy, hbit, hcol⟩
  · rintro ⟨hx, hy, hbit, hcol⟩
    refine ⟨x, hx, _, hy, rfl, hbit, hcol, ?_⟩
    rw [lateRow]
    omega

/-! ## The result -/

/-- The late row is all that can go wrong. -/
theorem clips_iff_not_mem_lateRow (hsize : fb.width * fb.height < 2 ^ 31) (hX : startX < 2 ^ 32)
    (hY : startY < 2 ^ 32) :
    Clips font fb c startX startY ↔
      ∀ x, ⟨startX, startY, x, lateRow fb startY⟩ ∉ fbPrintChar font fb c startX startY := by
  constructor
  · intro h x hmem
    obtain ⟨-, -, -, hcol⟩ := (mem_lateRow_iff hX hY).1 hmem
    exact not_glyphIndex_lateRow hsize hcol ((h.stores_iff _).1 ⟨_, hmem, rfl⟩)
  · intro h
    refine Clips.of_stores_iff fun i => ⟨?_, ?_⟩
    · rintro ⟨w, hw, rfl⟩
      obtain ⟨x, hx, y, hy, rfl, hbit, hcol, hrow⟩ := (mem_fbPrintChar_iff hX hY).1 hw
      -- The store is not in the late row, so it is in a row of the canvas.
      have hne : y ≠ lateRow fb startY := by
        rintro rfl
        exact h x hw
      have hin : startY + y < fb.height := by
        rw [lateRow] at hne
        omega
      exact ⟨_, _, ⟨x, hx, y, hy, hbit, rfl, rfl, hcol, hin⟩, index_of_row_lt hsize hcol hin⟩
    · rintro ⟨px, py, ⟨x, hx, y, hy, hbit, rfl, rfl, hpx, hpy⟩, rfl⟩
      refine ⟨_, (mem_fbPrintChar_iff hX hY).2 ⟨x, hx, y, hy, rfl, hbit, hpx, ?_⟩,
        index_of_row_lt hsize hpx hpy⟩
      exact Or.inr (Nat.le_of_lt hpy)

/-- **Clipping of a glyph.** On a canvas of fewer than `2 ^ 31` pixels, `fb_print_char` clips the
glyph to the canvas exactly when the row after the last one inside has none of its set bits
left of the right edge. -/
theorem clips_iff (font : Font) (fb : FbGeometry) (c : UInt8) (startX startY : ℕ)
    (hsize : fb.width * fb.height < 2 ^ 31) (hX : startX < 2 ^ 32) (hY : startY < 2 ^ 32) :
    Clips font fb c startX startY ↔
      charHeight ≤ lateRow fb startY ∨
        ∀ x < font.charWidth (font.printed c), startX + x < fb.width →
          font.glyphBit (font.printed c) x (lateRow fb startY) = false := by
  rw [clips_iff_not_mem_lateRow hsize hX hY]
  constructor
  · intro h
    rcases Nat.lt_or_ge (lateRow fb startY) charHeight with hrow | hrow
    · refine Or.inr fun x hx hcol => ?_
      apply Bool.eq_false_iff.2
      intro hbit
      exact h x ((mem_lateRow_iff hX hY).2 ⟨hx, hrow, hbit, hcol⟩)
    · exact Or.inl hrow
  · intro h x hmem
    obtain ⟨hx, hrow, hbit, hcol⟩ := (mem_lateRow_iff hX hY).1 hmem
    rcases h with hlate | hblank
    · exact absurd hrow (Nat.not_lt.2 hlate)
    · rw [hblank x hx hcol] at hbit
      cases hbit

/-- A letter in the middle of the screen. -/
theorem clips_letter : Clips .monaco mainFb 0x61 100 100 :=
  (clips_iff .monaco mainFb 0x61 100 100 (by decide) (by decide) (by decide)).2
    (Or.inl (by decide))

/-- The letter `a`, six rows above the bottom edge: its row 6 is stored below the canvas. -/
theorem not_clips_letter_at_bottom : ¬ Clips .monaco mainFb 0x61 0 474 := by
  intro h
  have hmem : ⟨0, 474, 2, 6⟩ ∈ fbPrintChar .monaco mainFb 0x61 0 474 :=
    (mem_fbPrintChar_iff (by decide) (by decide)).2
      ⟨2, by decide, 6, by decide, rfl, by decide, by decide, by decide⟩
  exact absurd (h.inside _ hmem) (by decide)

end Marcelov
