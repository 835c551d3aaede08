import Marcelov.Keyboard
import Marcelov.Lib.Ring
import Marcelov.Rows

/-!
# The scrollback is an unbounded list of lines, seen from its end

`Text` says what the scrollback is for: a list of lines that only grows, the last of which is
being edited. `Represents` ties a state of `keyboard.c` to such a list, through the ring of
`Marcelov.Lib.Ring`, and every operation keeps it (`represents_exec`). `scrollback_refines_text`
is what a reader of the buffer sees after any run.
-/

namespace Marcelov

open Lib

/-! ## The list of lines -/

/-- A non-empty list of lines: those before the last, and the last. -/
structure Text where
  earlier : List (List UInt8)
  last : List UInt8

namespace Text

def lines (t : Text) : List (List UInt8) := t.earlier ++ [t.last]

/-- One empty line. -/
def init : Text := ⟨[], []⟩

def newLine (t : Text) : Text := ⟨t.lines, []⟩

def append (t : Text) (c : UInt8) : Text := { t with last := t.last ++ [c] }

/-- Put a character at the end of the text, on a new line if the last one is full or would
become too wide for the screen. -/
def putchar (font : Font) (fb : FbGeometry) (t : Text) (c : UInt8) : Text :=
  if c = 0 then t
  else
    let t := if t.last.length = 256 then t.newLine else t
    let t := if fb.width ≤ 30 + font.lineWidth t.last + font.charWidth c then t.newLine else t
    t.append c

def deleteLast (t : Text) : Text := { t with last := t.last.dropLast }

/-- What an operation does to the text: scrolling and redrawing do nothing. -/
def exec (font : Font) (fb : FbGeometry) (t : Text) : Op → Text
  | .putchar c => t.putchar font fb c
  | .newLine => t.newLine
  | .deleteLast => t.deleteLast
  | .moveUp | .moveDown | .toggleShift | .draw => t

@[simp] theorem lines_newLine (t : Text) : t.newLine.lines = t.lines ++ [[]] := rfl

theorem length_lines (t : Text) : t.lines.length = t.earlier.length + 1 := by
  rw [lines, List.length_append, List.length_singleton]

end Text

/-! ## Following `scrollback_putchar` -/

/-- A relation between scrollback and text by which the cursor is behind the last line, at the
beginning of the current row, and which new lines and single stores keep. -/
structure Tracks (R : Scrollback → Text → Prop) : Prop where
  isLine : ∀ {s t}, R s t → IsLine t.last
  column : ∀ {s t}, R s t → s.currColumn = t.last.length
  begins : ∀ {s t}, R s t → ∀ j (h : j < t.last.length), s.currRow j = t.last[j]
  newLine : ∀ {s t}, R s t → R (scrollbackNewLine s) t.newLine
  putColumn : ∀ {s t c}, R s t → c ≠ 0 → t.last.length < 256 → R (s.putColumn c) (t.append c)

namespace Tracks

variable {R : Scrollback → Text → Prop} {s : Scrollback} {t : Text} (font : Font) (fb : FbGeometry)

theorem lineWidthWith (hR : Tracks R) (h : R s t) (c : UInt8) :
    s.lineWidthWith font c = 30 + font.lineWidth t.last + font.charWidth c := by
  have hline := hR.isLine h
  have hwidth := font.lineWidth_lt hline
  have hchar := font.charWidth_lt c
  have hmeasure : fbMeasureLineWidth font s.currRow s.currColumn = font.lineWidth t.last := by
    have hpadded := fbMeasureLineWidth_padded font hline le_rfl
    rw [List.take_length] at hpadded
    rw [hR.column h, ← hpadded]
    refine measureLoop_congr font _ 0 0 fun j hj => ?_
    rw [Nat.zero_add] at hj
    rw [hR.begins h j hj, padded_of_lt hj]
  rw [Scrollback.lineWidthWith, hmeasure, fbMeasureChar,
    u32_of_lt (by simp only [marginLeft, marginRight]; omega)]
  simp only [marginLeft, marginRight]
  omega

/-- After the test for a full line, there is room for a character. -/
theorem wrapFull (hR : Tracks R) (h : R s t) :
    let t' := if t.last.length = 256 then t.newLine else t
    R s.wrapFull t' ∧ t'.last.length < 256 := by
  have hle : t.last.length ≤ 256 := (hR.isLine h).length_le
  unfold Scrollback.wrapFull
  rw [hR.column h]
  by_cases hfull : t.last.length = 256
  · rw [if_pos hfull, if_pos (hfull ▸ le_rfl)]
    exact ⟨hR.newLine h, by simp [Text.newLine]⟩
  · rw [if_neg hfull, if_neg (by simp only [maxLineLen]; omega)]
    exact ⟨h, by omega⟩

theorem wrapWide (hR : Tracks R) (h : R s t) (hlen : t.last.length < 256) (c : UInt8) :
    let t' := if fb.width ≤ 30 + font.lineWidth t.last + font.charWidth c then t.newLine else t
    R (s.wrapWide fb (s.lineWidthWith font c)) t' ∧ t'.last.length < 256 := by
  unfold Scrollback.wrapWide
  rw [hR.lineWidthWith font h]
  split_ifs
  · exact ⟨hR.newLine h, by simp [Text.newLine]⟩
  · exact ⟨h, hlen⟩

/-- **`scrollback_putchar` puts the character at the end of the text.** -/
theorem putchar (hR : Tracks R) (h : R s t) (c : UInt8) :
    R (scrollbackPutchar font fb s c) (t.putchar font fb c) := by
  unfold scrollbackPutchar Text.putchar
  by_cases hc : c = 0
  · rw [if_pos hc, if_pos hc]
    exact h
  · rw [if_neg hc, if_neg hc]
    obtain ⟨hfull, hlen⟩ := hR.wrapFull h
    obtain ⟨hwide, hlen⟩ := hR.wrapWide font fb hfull hlen c
    exact hR.putColumn hwide hc hlen

end Tracks

/-! ## The representation -/

/-- The row holds the line, followed by zeros. -/
structure HoldsLine (row : ℕ → UInt8) (l : List UInt8) : Prop where
  eq : row = padded l
  isLine : IsLine l

theorem HoldsLine.readRow {row : ℕ → UInt8} {l : List UInt8} (h : HoldsLine row l) :
    readRow row = l := by
  rw [h.eq, readRow_padded h.isLine]

/-- The state `s` of the scrollback represents the text `t`. -/
structure Represents (s : Scrollback) (t : Text) : Prop where
  ring : RingHolds maxLinesRemembered HoldsLine s.scrollbuffer s.start s.currLine t.lines
  column : s.currColumn = t.last.length
  rows : ∀ r, ∃ l, HoldsLine (s.scrollbuffer r) l
  stores : ∀ p ∈ s.stores, p.2 < maxLineLen

namespace Represents

variable {s s' : Scrollback} {t : Text}

theorem currRow (h : Represents s t) : HoldsLine s.currRow t.last := by
  have hlast := h.ring.getLast (by decide)
  show HoldsLine (s.scrollbuffer s.currLine) t.last
  simpa [Text.lines] using hlast

theorem congr (h : Represents s t) (hs : Scrollback.SameText s s') : Represents s' t := by
  obtain ⟨hbuf, hstart, hline, hcol, hstores⟩ := hs
  exact ⟨by rw [hbuf, hstart, hline]; exact h.ring, by rw [hcol]; exact h.column,
    by rw [hbuf]; exact h.rows, by rw [hstores]; exact h.stores⟩

theorem init : Represents Scrollback.init Text.init where
  ring := RingHolds.singleton (by decide) ⟨rfl, isLine_nil⟩
  column := rfl
  rows := fun _ => ⟨[], rfl, isLine_nil⟩
  stores := fun _ hp => absurd hp List.not_mem_nil

/-! ## Each operation keeps the representation -/

theorem cleared (h : Represents s t) :
    HoldsLine ((scrollbackNewLine s).scrollbuffer s.nextLine) [] := by
  obtain ⟨l, hl⟩ := h.rows s.nextLine
  refine ⟨?_, isLine_nil⟩
  rw [Scrollback.newLine_scrollbuffer, Function.update_self, hl.eq]
  exact clear_padded hl.isLine

theorem newLine (h : Represents s t) : Represents (scrollbackNewLine s) t.newLine := by
  have hother (r : ℕ) (hr : r ≠ s.nextLine) :
      (scrollbackNewLine s).scrollbuffer r = s.scrollbuffer r := by
    rw [Scrollback.newLine_scrollbuffer, Function.update_of_ne hr]
  refine ⟨?_, by simp [Text.newLine], fun r => ?_, ?_⟩
  · rw [Scrollback.newLine_start, Scrollback.newLine_currLine, Text.lines_newLine]
    exact h.ring.push (by decide) h.cleared fun r _ hr => hother r hr
  · by_cases hr : r = s.nextLine
    · exact ⟨[], hr ▸ h.cleared⟩
    · rw [hother r hr]
      exact h.rows r
  · intro p hp
    rw [Scrollback.newLine_stores, List.mem_append] at hp
    rcases hp with hp | hp
    · exact h.stores p hp
    · obtain ⟨j, hj, rfl⟩ := List.mem_map.1 hp
      exact List.mem_range.1 hj

/-- Storing into the current row a value that makes it hold the line `l`. -/
theorem store {l : List UInt8} (h : Represents s t) (column : ℕ) (c : UInt8)
    (hcol : column < maxLineLen) (hl : HoldsLine (Function.update s.currRow column c) l)
    (hs' : s' = { s.store column c with currColumn := l.length }) :
    Represents s' ⟨t.earlier, l⟩ := by
  subst hs'
  refine ⟨?_, rfl, fun r => ?_, ?_⟩
  · have hlines : Text.lines ⟨t.earlier, l⟩ = t.lines.dropLast ++ [l] := by simp [Text.lines]
    rw [hlines]
    refine h.ring.modifyLast (by decide) ?_ fun r _ hr => Function.update_of_ne hr _ _
    simpa [Scrollback.store, Scrollback.currRow] using hl
  · by_cases hr : r = s.currLine
    · subst hr
      exact ⟨l, by simpa [Scrollback.store, Scrollback.currRow] using hl⟩
    · simpa [Scrollback.store, Function.update_of_ne hr] using h.rows r
  · intro p hp
    rcases List.mem_append.1 hp with hp | hp
    · exact h.stores p hp
    · obtain rfl := List.mem_singleton.1 hp
      exact hcol

theorem putColumn (h : Represents s t) {c : UInt8} (hc : c ≠ 0) (hlen : t.last.length < 256) :
    Represents (s.putColumn c) (t.append c) := by
  have hrow := h.currRow
  refine h.store (l := t.last ++ [c]) s.currColumn c (h.column ▸ hlen)
    ⟨?_, hrow.isLine.snoc hlen hc⟩ ?_
  · rw [hrow.eq, h.column, update_padded_length]
  · rw [List.length_append, List.length_singleton, ← h.column]
    rfl

theorem tracks : Tracks Represents where
  isLine h := h.currRow.isLine
  column h := h.column
  begins h j hj := by rw [h.currRow.eq, padded_of_lt hj]
  newLine h := h.newLine
  putColumn h hc hlen := h.putColumn hc hlen

theorem deleteLast (h : Represents s t) (scancode : UInt8) :
    Represents (Marcelov.deleteLast scancode s).1 t.deleteLast := by
  have hrow := h.currRow
  have hle : t.last.length ≤ 256 := hrow.isLine.length_le
  unfold Marcelov.deleteLast
  by_cases hcol : s.currColumn = 0
  · have hnil : t.last = [] := List.length_eq_zero_iff.1 (h.column ▸ hcol)
    rw [if_pos hcol, Text.deleteLast, hnil, List.dropLast_nil, ← hnil]
    exact h
  · rw [if_neg hcol]
    rw [h.column] at hcol
    refine h.store (l := t.last.dropLast) (s.currColumn - 1) 0 ?_ ⟨?_, hrow.isLine.dropLast⟩ ?_
    · rw [h.column]
      simp only [maxLineLen]
      omega
    · rw [hrow.eq, h.column, update_padded_dropLast]
    · rw [List.length_dropLast, ← h.column]
      rfl

end Represents

/-- **One operation** keeps the representation. -/
theorem represents_exec {font : Font} {fb : FbGeometry} {d : Display} {t : Text}
    (h : Represents d.sb t) (op : Op) :
    Represents (op.exec font fb d).sb (t.exec font fb op) := by
  cases op <;> simp only [Op.exec, Op.edit, Text.exec]
  case putchar c => exact Represents.tracks.putchar font fb h c
  case newLine => exact h.newLine
  case deleteLast => exact h.deleteLast 0x0e
  case moveUp => exact h.congr (Scrollback.sameText_moveUp 0x48 d.sb)
  case moveDown => exact h.congr (Scrollback.sameText_moveDown 0x50 d.sb)
  case toggleShift => exact h.congr (Scrollback.sameText_toggleShift 0x2a d.sb)
  case draw => exact h.congr (sameText_draw font fb d)

theorem represents_runOps {font : Font} {fb : FbGeometry} {d : Display} {t : Text}
    (h : Represents d.sb t) (ops : List Op) :
    Represents (runOps font fb d ops).sb (run (Text.exec font fb) t ops) :=
  run_simulation (R := fun (d : Display) t => Represents d.sb t) h
    (fun _ _ op h => represents_exec h op) ops

/-! ## What a reader sees -/

theorem Represents.read {s : Scrollback} {t : Text} (h : Represents s t) :
    s.retained.map (fun r => readRow (s.scrollbuffer r)) =
      t.lines.drop (t.lines.length - maxLinesRemembered) := by
  have hread := h.ring.read (by decide)
  rw [List.rtake, List.forall₂_map_left_iff] at hread
  have heq := List.Forall₂.imp (fun _ _ hl => hl.readRow) hread
  rw [← List.forall₂_eq_eq_eq, List.forall₂_map_left_iff]
  exact heq

/-- **The scrollback refines the list of lines.** After any run from the zero-initialised
state, reading the rows in use gives the last lines of the text, as many as the ring has
rows; `curr_column` is the length of the last one; every store was made at a column below
`MAX_LINE_LEN`, and the byte after it is zero in every row. -/
theorem scrollback_refines_text (font : Font) (fb : FbGeometry) (canvas : ℕ → Rgb)
    (ops : List Op) :
    let s := (runOps font fb (Display.init canvas) ops).sb
    let t := run (Text.exec font fb) Text.init ops
    s.retained.map (fun r => readRow (s.scrollbuffer r)) =
        t.lines.drop (t.lines.length - maxLinesRemembered) ∧
      s.retained.length = min t.lines.length maxLinesRemembered ∧
      s.currColumn = t.last.length ∧
      (∀ p ∈ s.stores, p.2 < maxLineLen) ∧
      ∀ r < maxLinesRemembered, s.scrollbuffer r maxLineLen = 0 := by
  intro s t
  have h : Represents s t := represents_runOps Represents.init ops
  refine ⟨h.read, ?_, h.column, h.stores, fun r _ => ?_⟩
  · rw [Scrollback.retained, length_arc, h.ring.gap_eq (by decide)]
  · obtain ⟨l, hl⟩ := h.rows r
    rw [hl.eq, padded_of_ge hl.isLine.length_le]

end Marcelov
