import Marcelov.Pixels
import Marcelov.Text

/-!
# The screen shows the text

`textPixel` says where the text is on the screen, in terms of the lines the rows hold: no loop,
no clipping and no 32-bit arithmetic. Every row holds a line narrow enough for the screen
(`Laid`), because `scrollback_putchar` measures before it stores; so the tests of
`scrollback_draw` and `fb_print_char` never cut a line short, and the black pixels after a
redraw are exactly the text (`redraw_renders_text`).
-/

namespace Marcelov

open Lib

/-! ## What should be seen -/

def background : Rgb := { R := 170, G := 69, B := 69, X := 0 }

/-- Row `r` of the screen shows a line: it fits above the bottom margin, and the lines from the
top one on have not come round to `scrollbuffer_start`. -/
def visible (fb : FbGeometry) (s : Scrollback) (r : ℕ) : Prop :=
  15 + 16 * (r + 1) + 15 < fb.height ∧
    ∀ r', 0 < r' → r' ≤ r → (s.topLine + r') % 1024 ≠ s.start

/-- The line that row `r` of the screen shows. -/
def lineAt (s : Scrollback) (r : ℕ) : List UInt8 :=
  readRow (s.scrollbuffer ((s.topLine + r) % 1024))

/-- The pixel is a set bit of the glyph of a character of a visible line. -/
def textPixel (font : Font) (fb : FbGeometry) (s : Scrollback) (px py : ℕ) : Prop :=
  ∃ r j c, visible fb s r ∧ (lineAt s r)[j]? = some c ∧
    ∃ x < font.charWidth (font.printed c), ∃ y < 16,
      font.glyphBit (font.printed c) x y = true ∧
        px = 15 + font.lineWidth ((lineAt s r).take j) + x ∧ py = 15 + 16 * r + y

theorem visible_iff (fb : FbGeometry) (s : Scrollback) (r : ℕ) :
    visible fb s r ↔ r < s.drawnRows fb := by
  have hlap : (∀ r', 0 < r' → r' ≤ r → (s.topLine + r') % 1024 ≠ s.start) ↔
      r < lap maxLinesRemembered s.topLine s.start := by
    constructor
    · intro h
      by_contra hge
      exact h _ (lap_pos _ _ _) (Nat.not_lt.1 hge) (fwd_lap (by decide) s.start_lt)
    · intro h r' hpos hle
      exact fwd_ne_of_lt_lap s.topLine_lt s.start_lt hpos.ne' (hle.trans_lt h)
  rw [visible, hlap, Scrollback.drawnRows, lt_min_iff, fits_iff]
  rfl

/-! ## Lines that fit -/

/-- A line fits between the margins, and is made of ASCII characters. -/
structure LineFits (font : Font) (fb : FbGeometry) (l : List UInt8) : Prop where
  width_lt : l ≠ [] → 30 + font.lineWidth l < fb.width
  ascii : ∀ c ∈ l, c.toNat < 128

/-- Every row holds a line that fits. -/
def Laid (font : Font) (fb : FbGeometry) (s : Scrollback) : Prop :=
  ∀ r, ∃ l, HoldsLine (s.scrollbuffer r) l ∧ LineFits font fb l

/-- The operation prints or types no character that is not ASCII or too wide for a line. -/
def OpFits (font : Font) (fb : FbGeometry) (op : Op) : Prop :=
  ∀ c, op = .putchar c → c.toNat < 128 ∧ 30 + font.charWidth c < fb.width

section

variable {font : Font} {fb : FbGeometry} {s s' : Scrollback} {t : Text}

theorem LineFits.nil : LineFits font fb [] :=
  ⟨fun h => absurd rfl h, fun _ h => absurd h List.not_mem_nil⟩

theorem LineFits.dropLast {l : List UInt8} (h : LineFits font fb l) :
    LineFits font fb l.dropLast := by
  refine ⟨fun hne => ?_, fun c hc => h.ascii c (List.dropLast_subset l hc)⟩
  have hl : l ≠ [] := fun hl => hne (by rw [hl]; rfl)
  have hwidth := h.width_lt hl
  have hsplit := congrArg font.lineWidth (List.dropLast_append_getLast hl)
  rw [Font.lineWidth_append] at hsplit
  omega

theorem LineFits.snoc {l : List UInt8} {c : UInt8} (h : LineFits font fb l)
    (hwidth : 30 + font.lineWidth l + font.charWidth c < fb.width) (hc : c.toNat < 128) :
    LineFits font fb (l ++ [c]) := by
  refine ⟨fun _ => ?_, fun c' hc' => ?_⟩
  · rw [Font.lineWidth_append, Font.lineWidth_cons, Font.lineWidth_nil]
    omega
  · rcases List.mem_append.1 hc' with hc' | hc'
    · exact h.ascii c' hc'
    · rwa [List.mem_singleton.1 hc']

theorem Laid.last (hl : Laid font fb s) (h : Represents s t) : LineFits font fb t.last := by
  obtain ⟨l, hrow, hfits⟩ := hl s.currLine
  have heq : padded l = padded t.last := hrow.eq.symm.trans h.currRow.eq
  rwa [← padded_injective hrow.isLine h.currRow.isLine heq]

theorem Laid.congr (hl : Laid font fb s) (hs : Scrollback.SameText s s') : Laid font fb s' := by
  unfold Laid
  rw [hs.scrollbuffer]
  exact hl

theorem Laid.newLine (hl : Laid font fb s) (h : Represents s t) :
    Laid font fb (scrollbackNewLine s) := by
  intro r
  by_cases hr : r = s.nextLine
  · exact ⟨[], hr ▸ h.cleared, LineFits.nil⟩
  · rw [Scrollback.newLine_scrollbuffer, Function.update_of_ne hr]
    exact hl r

theorem Laid.update (hl : Laid font fb s) (h' : Represents s' t) (hline : s'.currLine = s.currLine)
    (hrows : ∀ r, r ≠ s.currLine → s'.scrollbuffer r = s.scrollbuffer r)
    (hlast : LineFits font fb t.last) : Laid font fb s' := by
  intro r
  by_cases hr : r = s.currLine
  · exact ⟨t.last, by rw [hr, ← hline]; exact h'.currRow, hlast⟩
  · rw [hrows r hr]
    exact hl r

theorem Laid.putchar (hl : Laid font fb s) (h : Represents s t) {c : UInt8} (hc : c.toNat < 128)
    (hwidth : 30 + font.charWidth c < fb.width) : Laid font fb (scrollbackPutchar font fb s c) := by
  unfold scrollbackPutchar
  by_cases hz : c = 0
  · rw [if_pos hz]
    exact hl
  · rw [if_neg hz]
    obtain ⟨hfull, hlen⟩ := Represents.tracks.wrapFull h
    obtain ⟨hwide, hlen⟩ := Represents.tracks.wrapWide font fb hfull hlen c
    generalize (if t.last.length = 256 then t.newLine else t) = t' at hfull hwide hlen
    have hl₁ : Laid font fb s.wrapFull := by
      unfold Scrollback.wrapFull
      split_ifs
      exacts [hl.newLine h, hl]
    have hl₂ : Laid font fb (s.wrapFull.wrapWide fb (s.wrapFull.lineWidthWith font c)) := by
      unfold Scrollback.wrapWide
      split_ifs
      exacts [hl₁.newLine hfull, hl₁]
    refine hl₂.update (hwide.putColumn hz hlen) rfl (fun r hr => Function.update_of_ne hr _ _) ?_
    refine (hl₂.last hwide).snoc ?_ hc
    by_cases hwrap : fb.width ≤ 30 + font.lineWidth t'.last + font.charWidth c
    · rw [if_pos hwrap]
      exact hwidth
    · rw [if_neg hwrap]
      exact Nat.lt_of_not_le hwrap

theorem Laid.deleteLast (hl : Laid font fb s) (h : Represents s t) (scancode : UInt8) :
    Laid font fb (deleteLast scancode s).1 := by
  have hlast := (hl.last h).dropLast
  have hrep := h.deleteLast scancode
  unfold Marcelov.deleteLast at hrep ⊢
  split_ifs at hrep ⊢
  · exact hl
  · exact hl.update hrep rfl (fun r hr => Function.update_of_ne hr _ _) hlast

theorem laid_exec {d : Display} (hl : Laid font fb d.sb) (h : Represents d.sb t) {op : Op}
    (hop : OpFits font fb op) : Laid font fb (op.exec font fb d).sb := by
  cases op <;> simp only [Op.exec, Op.edit]
  case putchar c => exact hl.putchar h (hop c rfl).1 (hop c rfl).2
  case newLine => exact hl.newLine h
  case deleteLast => exact hl.deleteLast h 0x0e
  case moveUp => exact hl.congr (Scrollback.sameText_moveUp 0x48 d.sb)
  case moveDown => exact hl.congr (Scrollback.sameText_moveDown 0x50 d.sb)
  case toggleShift => exact hl.congr (Scrollback.sameText_toggleShift 0x2a d.sb)
  case draw => exact hl.congr (sameText_draw font fb d)

/-- **Every row of every state of a run holds a line that fits.** -/
theorem laid_runOps (canvas : ℕ → Rgb) {ops : List Op} (hops : ∀ op ∈ ops, OpFits font fb op) :
    Laid font fb (runOps font fb (Display.init canvas) ops).sb := by
  refine (run_invariant_of_mem
    (I := fun d : Display => Laid font fb d.sb ∧ ∃ t, Represents d.sb t) ?_ ?_).1
  · exact ⟨fun _ => ⟨[], ⟨rfl, isLine_nil⟩, LineFits.nil⟩, Text.init, Represents.init⟩
  · rintro d op hop ⟨hl, t, h⟩
    exact ⟨laid_exec hl h (hops op hop), _, represents_exec h op⟩

end

/-! ## Characters in their places -/

/-- The characters of a line, each where the widths of those before it put it. -/
def placed (font : Font) : ℕ → List UInt8 → List CharVisit
  | _, [] => []
  | x, c :: l => ⟨c, x⟩ :: placed font (x + font.charWidth c) l

theorem mem_placed {font : Font} {x : ℕ} {l : List UInt8} {v : CharVisit} :
    v ∈ placed font x l ↔ ∃ j c, l[j]? = some c ∧ v = ⟨c, x + font.lineWidth (l.take j)⟩ := by
  induction l generalizing x with
  | nil => simp [placed]
  | cons c l ih =>
    rw [placed, List.mem_cons, ih]
    constructor
    · rintro (rfl | ⟨j, c', hj, rfl⟩)
      · exact ⟨0, c, rfl, by simp⟩
      · exact ⟨j + 1, c', hj, by simp [Nat.add_assoc]⟩
    · rintro ⟨j, c', hj, rfl⟩
      cases j with
      | zero =>
        obtain rfl : c = c' := Option.some.inj hj
        exact Or.inl (by simp)
      | succ j => exact Or.inr ⟨j, c', hj, by simp [Nat.add_assoc]⟩

/-- **The inner loop draws the whole line**: its tests for the margin and for the first NUL stop
it at the end of the line and not before. -/
theorem drawChars_padded {font : Font} {fb : FbGeometry} {l : List UInt8} (h : IsLine l)
    {n i x : ℕ} (hi : i + n = 256) (hil : i ≤ l.length)
    (hfits : l.drop i ≠ [] → x + font.lineWidth (l.drop i) + 15 < fb.width) :
    drawChars font fb (padded l) n i x = placed font x (l.drop i) := by
  have hlen : l.length ≤ 256 := h.length_le
  have hwidth := fb.width_lt
  induction n generalizing i x with
  | zero => rw [List.drop_eq_nil_of_le (by omega), drawChars, placed]
  | succ n ih =>
    rw [drawChars]
    by_cases hlt : i < l.length
    · have hdrop : l.drop i = l[i] :: l.drop (i + 1) := List.drop_eq_getElem_cons hlt
      have hroom := hfits (by rw [hdrop]; exact List.cons_ne_nil _ _)
      rw [hdrop, Font.lineWidth_cons] at hroom
      have hmargin : u32 (x + marginRight) < fb.width := by
        rw [u32_of_lt (by simp only [marginRight]; omega)]
        simp only [marginRight]
        omega
      have hpen : u32 (x + fbMeasureChar font (padded l i)) = x + font.charWidth l[i] := by
        rw [padded_of_lt hlt, fbMeasureChar, u32_of_lt (by omega)]
      rw [if_pos hmargin, if_neg (h.padded_ne_zero hlt), hdrop, placed, hpen, padded_of_lt hlt]
      have hrest : x + font.charWidth l[i] + font.lineWidth (l.drop (i + 1)) + 15 < fb.width := by
        omega
      rw [ih (by omega) hlt fun _ => hrest]
    · rw [padded_of_ge (Nat.not_lt.1 hlt), if_pos rfl, ite_self,
        List.drop_eq_nil_of_le (Nat.not_lt.1 hlt), placed]

section

variable {font : Font} {fb : FbGeometry} {s : Scrollback}

theorem mem_drawChars {l : List UInt8} (h : IsLine l) (hfits : LineFits font fb l)
    {v : CharVisit} :
    v ∈ drawChars font fb (padded l) maxLineLen 0 marginLeft ↔
      ∃ j c, l[j]? = some c ∧ v = ⟨c, 15 + font.lineWidth (l.take j)⟩ := by
  have hroom : l.drop 0 ≠ [] → marginLeft + font.lineWidth (l.drop 0) + 15 < fb.width := by
    intro hne
    have hwidth := hfits.width_lt hne
    rw [List.drop_zero]
    simp only [marginLeft]
    omega
  rw [drawChars_padded h (Nat.zero_add _) (Nat.zero_le _) hroom, List.drop_zero]
  exact mem_placed

/-- The character drawn for an ASCII character is no wider than the room it is given. -/
theorem charWidth_printed_le (font : Font) {c : UInt8} (hc : c.toNat < 128) :
    font.charWidth (font.printed c) ≤ font.charWidth c := by
  cases font with
  | monaco => exact le_rfl
  | cream12 pastWidths =>
    have htable : ∀ n < 32, cream12Width.getD 63 0 ≤ cream12Width.getD n 0 := by decide
    unfold Font.printed
    split_ifs with hglyph
    · rw [Font.lastChar_cream12] at hglyph
      have hlt : c.toNat < 32 := by
        unfold firstChar at hglyph
        omega
      simpa [Font.charWidth, hc] using htable c.toNat hlt
    · exact le_rfl

theorem lineWidth_take_le (font : Font) {l : List UInt8} {j : ℕ} {c : UInt8}
    (h : l[j]? = some c) : font.lineWidth (l.take j) + font.charWidth c ≤ font.lineWidth l := by
  obtain ⟨hj, rfl⟩ := List.getElem?_eq_some_iff.1 h
  conv_rhs => rw [← List.take_append_drop j l, List.drop_eq_getElem_cons hj]
  rw [Font.lineWidth_append, Font.lineWidth_cons]
  omega

/-- **The text lies between the margins.** -/
theorem textPixel_bounds (hl : Laid font fb s) {px py : ℕ} (h : textPixel font fb s px py) :
    15 ≤ px ∧ px + 15 < fb.width ∧ 15 ≤ py ∧ py + 15 < fb.height := by
  obtain ⟨r, j, c, ⟨hbottom, -⟩, hc, x, hx, y, hy, -, rfl, rfl⟩ := h
  obtain ⟨l, hrow, hfits⟩ := hl ((s.topLine + r) % 1024)
  rw [lineAt, hrow.readRow] at hc ⊢
  have hmem : c ∈ l := List.mem_of_getElem? hc
  have hwidth := hfits.width_lt (List.ne_nil_of_mem hmem)
  have hprinted := charWidth_printed_le font (hfits.ascii c hmem)
  have hend := lineWidth_take_le font hc
  omega

/-- **The stores of a redraw are the text**: none is missing, and there are no others. -/
theorem mem_drawGlyphs_iff (hl : Laid font fb s) {px py : ℕ} :
    (∃ w ∈ drawGlyphs font fb s, w.startX + w.x = px ∧ w.startY + w.y = py) ↔
      textPixel font fb s px py := by
  constructor
  · rintro ⟨w, hw, rfl, rfl⟩
    obtain ⟨r, hr, v, hv, hw⟩ := mem_drawGlyphs.1 hw
    obtain ⟨l, hrow, hfits⟩ := hl (fwd maxLinesRemembered s.topLine r)
    rw [hrow.eq] at hv
    obtain ⟨j, c, hc, rfl⟩ := (mem_drawChars hrow.isLine hfits).1 hv
    obtain ⟨x, hx, y, hy, rfl, hbit, -, -⟩ := mem_fbPrintChar.1 hw
    have hline : lineAt s r = l := hrow.readRow
    refine ⟨r, j, c, (visible_iff fb s r).2 hr, ?_, x, hx, y, hy, hbit, ?_, rfl⟩
    · rw [hline]
      exact hc
    · rw [hline]
  · intro htext
    have hbounds := textPixel_bounds hl htext
    obtain ⟨r, j, c, hvis, hc, x, hx, y, hy, hbit, rfl, rfl⟩ := htext
    obtain ⟨l, hrow, hfits⟩ := hl (fwd maxLinesRemembered s.topLine r)
    have hline : lineAt s r = l := hrow.readRow
    rw [hline] at hc hbounds ⊢
    have hwidth := fb.width_lt
    have hheight := fb.height_lt
    refine ⟨⟨15 + font.lineWidth (l.take j), 15 + 16 * r, x, y⟩, ?_, rfl, rfl⟩
    refine mem_drawGlyphs.2 ⟨r, (visible_iff fb s r).1 hvis,
      ⟨c, 15 + font.lineWidth (l.take j)⟩, ?_, ?_⟩
    · rw [hrow.eq]
      exact (mem_drawChars hrow.isLine hfits).2 ⟨j, c, hc, rfl⟩
    · refine mem_fbPrintChar.2 ⟨x, hx, y, hy, rfl, hbit, fun k hk => ?_, fun k hk => ?_⟩
      · dsimp only
        rw [u32_of_lt (by omega)]
        omega
      · simp only [marginTop, charHeight]
        rw [u32_of_lt (by omega)]
        omega

end

/-! ## The canvas -/

theorem index_mem_iff {font : Font} {fb : FbGeometry} {s : Scrollback} (hl : Laid font fb s)
    (hsize : fb.width * fb.height < 2 ^ 31) {px py : ℕ} (hpx : px < fb.width)
    (hpy : py < fb.height) :
    (∃ w ∈ drawGlyphs font fb s, w.index fb = py * fb.width + px) ↔ textPixel font fb s px py := by
  rw [← mem_drawGlyphs_iff hl]
  constructor
  · rintro ⟨w, hw, hi⟩
    have hin := drawGlyphs_inside hw
    rw [hin.index_eq hsize] at hi
    exact ⟨w, hw, pixel_index_inj hin.column_lt hpx hi⟩
  · rintro ⟨w, hw, rfl, rfl⟩
    exact ⟨w, hw, (drawGlyphs_inside hw).index_eq hsize⟩

section

variable {font : Font} {fb : FbGeometry} {d : Display}

theorem draw_black {i : ℕ} (h : ∃ w ∈ drawGlyphs font fb d.sb, w.index fb = i) :
    (scrollbackDraw font fb d).canvas i = black := by
  obtain ⟨w, hw, hi⟩ := h
  show applyWrites (drawWrites font fb d.sb) d.canvas i = black
  rw [drawWrites, applyWrites_append]
  refine applyWrites_of_forall ⟨_, List.mem_map_of_mem hw, hi⟩ fun w' hw' _ => ?_
  obtain ⟨g, -, rfl⟩ := List.mem_map.1 hw'
  rfl

theorem draw_background {i : ℕ} (hi : i < u32 (fb.width * fb.height))
    (h : ¬ ∃ w ∈ drawGlyphs font fb d.sb, w.index fb = i) :
    (scrollbackDraw font fb d).canvas i = background := by
  show applyWrites (drawWrites font fb d.sb) d.canvas i = background
  rw [drawWrites, applyWrites_append, applyWrites_of_not_mem]
  · exact applyWrites_of_forall ⟨(i, background), mem_fbClear.2 ⟨hi, rfl⟩, rfl⟩
      fun w hw _ => (mem_fbClear.1 hw).2
  · intro w' hw' heq
    obtain ⟨g, hg, rfl⟩ := List.mem_map.1 hw'
    exact h ⟨g, hg, heq⟩

end

/-- **The screen shows the text.** On a canvas of fewer than `2 ^ 31` pixels, after any run that
prints ASCII characters that fit on a line: a redraw makes the pixels of the text black and all
others the background, and the text lies between the margins. -/
theorem redraw_renders_text (font : Font) (fb : FbGeometry) (canvas : ℕ → Rgb) (ops : List Op)
    (hsize : fb.width * fb.height < 2 ^ 31) (hops : ∀ op ∈ ops, OpFits font fb op) :
    let d := runOps font fb (Display.init canvas) ops
    (∀ px < fb.width, ∀ py < fb.height,
      ((scrollbackDraw font fb d).canvas (py * fb.width + px) = black ↔
        textPixel font fb d.sb px py) ∧
      (¬ textPixel font fb d.sb px py →
        (scrollbackDraw font fb d).canvas (py * fb.width + px) = background)) ∧
    ∀ px py, textPixel font fb d.sb px py →
      15 ≤ px ∧ px + 15 < fb.width ∧ 15 ≤ py ∧ py + 15 < fb.height := by
  intro d
  have hl : Laid font fb d.sb := laid_runOps canvas hops
  refine ⟨fun px hpx py hpy => ?_, fun px py => textPixel_bounds hl⟩
  have hlt := pixel_lt hpx hpy
  have hiff := index_mem_iff hl hsize hpx hpy
  have hback (h : ¬ textPixel font fb d.sb px py) :
      (scrollbackDraw font fb d).canvas (py * fb.width + px) = background :=
    draw_background (by rw [u32_of_lt (by omega)]; exact hlt) (hiff.not.2 h)
  refine ⟨⟨fun hblack => ?_, fun h => draw_black (hiff.2 h)⟩, hback⟩
  by_contra h
  rw [hback h] at hblack
  exact absurd hblack (by decide)

/-- One letter on the 640x480 screen: the first set bit of its glyph, at row 6 and column 2. -/
theorem redraw_renders_letter :
    (scrollbackDraw .monaco mainFb
      (runOps .monaco mainFb (Display.init fun _ => black) [.putchar 0x61])).canvas
        (21 * mainFb.width + 17) = black := by
  have h := redraw_renders_text .monaco mainFb (fun _ => black) [.putchar 0x61] (by decide)
    (by simp [OpFits, Font.charWidth, mainFb])
  refine ((h.1 17 (by decide) 21 (by decide)).1).2 ?_
  exact ⟨0, 0, 0x61, ⟨by decide, fun r' hpos hle => by omega⟩, by decide, 2, by decide, 6,
    by decide, by decide, by decide, by decide⟩

end Marcelov
