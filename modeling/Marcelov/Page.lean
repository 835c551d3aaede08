import Marcelov.Lib.Viewer
import Marcelov.Text
import Marcelov.Viewport

/-!
# The page on the screen

`Text` says what the scrollback is for, and nothing of where the screen is. A `Page` has both:
a text, and the view of its lines, in numbers that are not taken modulo `MAX_LINES_REMEMBERED`.
`Shows` ties a state of `keyboard.c` to a page, and every operation keeps it (`shows_exec`).

`scrollback_refines_page` is what a redraw puts on the screen after any run: row by row the
lines of the text from the top of the view on, and nothing below the end of the text.
-/

namespace Marcelov

open Lib Scrollback

/-! ## Pages -/

/-- A text, and the view of its lines. -/
structure Page (fb : FbGeometry) where
  text : Text
  viewer : Viewer maxLinesRemembered fb.rowsThatFit
  count_eq : viewer.count = text.lines.length

namespace Page

variable {fb : FbGeometry} (font : Font)

def init (fb : FbGeometry) : Page fb := ⟨Text.init, Viewer.init _ _ (Nat.succ_pos _), rfl⟩

def newLine (p : Page fb) : Page fb :=
  ⟨p.text.newLine, p.viewer.push, by
    rw [Viewer.push_count, p.count_eq, Text.lines_newLine, List.length_append,
      List.length_singleton]⟩

def setLast (p : Page fb) (l : List UInt8) : Page fb :=
  ⟨⟨p.text.earlier, l⟩, p.viewer, by rw [p.count_eq]; simp [Text.lines]⟩

def wrapFull (p : Page fb) : Page fb := if p.text.last.length = 256 then p.newLine else p

/-- Start a new line if the character would make the last one too wide. -/
def wrapWide (p : Page fb) (c : UInt8) : Page fb :=
  if fb.width ≤ 30 + font.lineWidth p.text.last + font.charWidth c then p.newLine else p

def append (p : Page fb) (c : UInt8) : Page fb := p.setLast (p.text.last ++ [c])

def putchar (p : Page fb) (c : UInt8) : Page fb :=
  if c = 0 then p else ((p.wrapFull).wrapWide font c).append c

def deleteLast (p : Page fb) : Page fb := p.setLast p.text.last.dropLast

def moveUp (p : Page fb) : Page fb := ⟨p.text, p.viewer.up, p.count_eq⟩

def moveDown (p : Page fb) : Page fb := ⟨p.text, p.viewer.down, p.count_eq⟩

def draw (p : Page fb) : Page fb := ⟨p.text, p.viewer.draw, p.count_eq⟩

def exec (p : Page fb) : Op → Page fb
  | .putchar c => p.putchar font c
  | .newLine => p.newLine
  | .deleteLast => p.deleteLast
  | .moveUp => p.moveUp
  | .moveDown => p.moveDown
  | .toggleShift => p
  | .draw => p.draw

/-- Line number `i` of the text: an empty one past its end. -/
def line (p : Page fb) (i : ℕ) : List UInt8 := p.text.lines.getD i []

/-- The line in row `r` of the screen. -/
def row (p : Page fb) (r : ℕ) : List UInt8 := p.line (p.viewer.top + r)

/-- The lines that a screen shows from line number `i` on. -/
def screenFrom (p : Page fb) (i : ℕ) : List (List UInt8) :=
  (List.range (min fb.rowsThatFit (p.viewer.bound - i))).map fun r => p.line (i + r)

def shown (p : Page fb) : List (List UInt8) := p.screenFrom p.viewer.top

/-! ## The text of a page -/

variable (p : Page fb)

@[simp] theorem text_newLine : p.newLine.text = p.text.newLine := rfl

theorem text_wrapFull :
    p.wrapFull.text = if p.text.last.length = 256 then p.text.newLine else p.text := by
  unfold wrapFull
  split_ifs <;> rfl

theorem text_wrapWide (c : UInt8) :
    (p.wrapWide font c).text =
      if fb.width ≤ 30 + font.lineWidth p.text.last + font.charWidth c then p.text.newLine
      else p.text := by
  unfold wrapWide
  split_ifs <;> rfl

theorem text_putchar (c : UInt8) : (p.putchar font c).text = p.text.putchar font fb c := by
  unfold putchar Text.putchar
  by_cases hc : c = 0
  · rw [if_pos hc, if_pos hc]
  · rw [if_neg hc, if_neg hc]
    dsimp only
    rw [← text_wrapFull, ← text_wrapWide]
    rfl

theorem text_exec (op : Op) : (p.exec font op).text = p.text.exec font fb op := by
  cases op with
  | putchar c => exact text_putchar font p c
  | _ => rfl

theorem text_run (ops : List Op) :
    (run (exec font) p ops).text = run (Text.exec font fb) p.text ops :=
  run_simulation (R := fun (p : Page fb) t => p.text = t) rfl
    (fun p _ op h => by rw [text_exec, h]) ops

end Page

/-! ## The representation -/

/-- The state `s` of the scrollback shows the page `p`. -/
structure Shows {fb : FbGeometry} (s : Scrollback) (p : Page fb) : Prop where
  represents : Represents s p.text
  topLine_eq : s.topLine = p.viewer.top % maxLinesRemembered
  follows_eq : s.scrollsOnNewLine = p.viewer.follows
  /-- The rows past the end of a text that has not filled the buffer. -/
  blank : ∀ i < maxLinesRemembered, p.viewer.count ≤ i → s.scrollbuffer i = padded []

namespace Shows

variable {fb : FbGeometry} {s s' : Scrollback} {p : Page fb} (font : Font)

theorem init (fb : FbGeometry) : Shows Scrollback.init (Page.init fb) where
  represents := Represents.init
  topLine_eq := rfl
  follows_eq := rfl
  blank := fun _ _ _ => rfl

/-! ## The indices -/

theorem start_eq (h : Shows s p) : s.start = p.viewer.oldest % maxLinesRemembered := by
  rw [Viewer.oldest, p.count_eq]
  exact h.represents.ring.start_eq

theorem currLine_eq (h : Shows s p) : s.currLine = (p.viewer.count - 1) % maxLinesRemembered := by
  rw [p.count_eq]
  exact h.represents.ring.last_eq

theorem nextLine_eq (h : Shows s p) : s.nextLine = p.viewer.count % maxLinesRemembered := by
  have hpos := p.viewer.count_pos
  rw [nextLine, h.currLine_eq, Nat.mod_add_mod, Nat.sub_add_cancel hpos]

theorem drawnRows_eq (h : Shows s p) : s.drawnRows fb = p.viewer.rows := by
  rw [drawnRows, h.topLine_eq, h.start_eq, Viewer.lap_top]
  rfl

theorem lastLine_iff (h : Shows s p) :
    lastLine font fb s = s.currLine ↔ p.viewer.AtEnd := by
  rw [lastLine_eq_currLine, h.drawnRows_eq, currScreenRow, h.topLine_eq, h.currLine_eq]
  exact p.viewer.last_index_iff

theorem stickyLast (h : Shows s p) : StickyLast fb s := by
  intro hs
  have hend : p.viewer.AtEnd := p.viewer.follows_last (h.follows_eq ▸ hs)
  exact (lastLine_eq_currLine .monaco fb s).1 ((h.lastLine_iff .monaco).2 hend)

/-! ## Each operation keeps the page -/

theorem topLineAfter_eq (h : Shows s p) :
    s.topLineAfter = p.viewer.pushTop % maxLinesRemembered := by
  rw [Viewer.pushTop_mod, ← h.topLine_eq, ← h.nextLine_eq, ← h.follows_eq]
  by_cases hs : s.scrollsOnNewLine = true
  · rw [if_pos (Or.inl hs), topLineAfter_of_last hs (h.stickyLast hs)]
  · have hstay : ¬ (s.scrollsOnNewLine = true ∧
        (s.topLine + 1) % maxLinesRemembered ≠ s.startAfter) := fun hmove => hs hmove.1
    rw [topLineAfter, if_neg hstay]
    exact if_congr (or_iff_right hs).symm rfl rfl

theorem newLine (h : Shows s p) : Shows (scrollbackNewLine s) p.newLine where
  represents := h.represents.newLine
  topLine_eq := (newLine_topLine s).trans h.topLineAfter_eq
  follows_eq := (newLine_scrollsOnNewLine s).trans h.follows_eq
  blank := by
    intro i hi hcount
    have hlt : p.viewer.count < i := hcount
    have hne : i ≠ s.nextLine := by
      rw [h.nextLine_eq, Nat.mod_eq_of_lt (by omega)]
      omega
    rw [newLine_scrollbuffer, Function.update_of_ne hne]
    exact h.blank i hi (by omega)

theorem setLast {l : List UInt8} (h : Shows s p) (hrep : Represents s' ⟨p.text.earlier, l⟩)
    (hview : SameView s s') (hrows : ∀ r, r ≠ s.currLine → s'.scrollbuffer r = s.scrollbuffer r) :
    Shows s' (p.setLast l) where
  represents := hrep
  topLine_eq := hview.topLine.trans h.topLine_eq
  follows_eq := hview.scrollsOnNewLine.trans h.follows_eq
  blank := by
    intro i hi hcount
    have hpos := p.viewer.count_pos
    have hle : p.viewer.count ≤ i := hcount
    have hne : i ≠ s.currLine := by
      rw [h.currLine_eq, Nat.mod_eq_of_lt (by omega)]
      omega
    rw [hrows i hne]
    exact h.blank i hi hle

theorem wrapFull (h : Shows s p) :
    Shows s.wrapFull p.wrapFull ∧ p.wrapFull.text.last.length < 256 := by
  have hrep := Represents.tracks.wrapFull h.represents
  rw [← Page.text_wrapFull] at hrep
  refine ⟨?_, hrep.2⟩
  have hle : p.text.last.length ≤ 256 := h.represents.currRow.isLine.length_le
  unfold Scrollback.wrapFull Page.wrapFull
  rw [h.represents.column]
  by_cases hfull : p.text.last.length = 256
  · rw [if_pos hfull, if_pos (hfull ▸ le_rfl)]
    exact h.newLine
  · rw [if_neg hfull, if_neg (by simp only [maxLineLen]; omega)]
    exact h

theorem wrapWide (h : Shows s p) (hlen : p.text.last.length < 256) (c : UInt8) :
    Shows (s.wrapWide fb (s.lineWidthWith font c)) (p.wrapWide font c) ∧
      (p.wrapWide font c).text.last.length < 256 := by
  have hrep := Represents.tracks.wrapWide font fb h.represents hlen c
  rw [← Page.text_wrapWide] at hrep
  refine ⟨?_, hrep.2⟩
  unfold Scrollback.wrapWide Page.wrapWide
  rw [Represents.tracks.lineWidthWith font h.represents]
  split_ifs
  exacts [h.newLine, h]

theorem putchar (h : Shows s p) (c : UInt8) :
    Shows (scrollbackPutchar font fb s c) (p.putchar font c) := by
  unfold scrollbackPutchar Page.putchar
  by_cases hc : c = 0
  · rw [if_pos hc, if_pos hc]
    exact h
  · rw [if_neg hc, if_neg hc]
    obtain ⟨hfull, hlen⟩ := h.wrapFull
    obtain ⟨hwide, hlen⟩ := hfull.wrapWide font hlen c
    exact hwide.setLast (hwide.represents.putColumn hc hlen) (sameView_putColumn _ c)
      fun r hr => Function.update_of_ne hr _ _

theorem deleteLast (h : Shows s p) (scancode : UInt8) :
    Shows (Marcelov.deleteLast scancode s).1 p.deleteLast := by
  refine h.setLast (h.represents.deleteLast scancode) (sameView_deleteLast scancode s) ?_
  intro r hr
  unfold Marcelov.deleteLast
  split_ifs
  exacts [rfl, Function.update_of_ne hr _ _]

/-- A state with the same text and a view of its own. -/
theorem congr {v : Viewer maxLinesRemembered fb.rowsThatFit} (h : Shows s p)
    (htext : SameText s s') (hcount : v.count = p.viewer.count)
    (htop : s'.topLine = v.top % maxLinesRemembered)
    (hfollows : s'.scrollsOnNewLine = v.follows) :
    Shows s' ⟨p.text, v, hcount.trans p.count_eq⟩ where
  represents := h.represents.congr htext
  topLine_eq := htop
  follows_eq := hfollows
  blank := by
    rw [htext.scrollbuffer, hcount]
    exact h.blank

theorem moveDown (h : Shows s p) (scancode : UInt8) :
    Shows (Marcelov.moveDown scancode s).1 p.moveDown := by
  refine h.congr (v := p.viewer.down) (sameText_moveDown scancode s) rfl ?_ rfl
  have hstop := p.viewer.next_index_iff
  rw [← h.topLine_eq, ← h.start_eq] at hstop
  show s.scrollDown.topLine = _
  rw [scrollDown, Viewer.down_top]
  by_cases hend : p.viewer.top + 1 = p.viewer.bound
  · rw [if_pos (hstop.2 hend), if_pos hend, h.topLine_eq]
  · rw [if_neg (hstop.not.2 hend), if_neg hend]
    show (s.topLine + 1) % maxLinesRemembered = _
    rw [h.topLine_eq, Nat.mod_add_mod]

theorem moveUp (h : Shows s p) (scancode : UInt8) :
    Shows (Marcelov.moveUp scancode s).1 p.moveUp := by
  refine h.congr (v := p.viewer.up) (sameText_moveUp scancode s) rfl ?_ rfl
  have hstop := p.viewer.top_index_iff
  rw [← h.topLine_eq, ← h.start_eq] at hstop
  show s.scrollUp.topLine = _
  rw [scrollUp, Viewer.up_top]
  by_cases hend : p.viewer.top = p.viewer.oldest
  · rw [if_pos (hstop.2 hend), if_pos hend, h.topLine_eq]
  · have hle : p.viewer.oldest ≤ p.viewer.top := p.viewer.oldest_le
    rw [if_neg (hstop.not.2 hend), if_neg hend]
    show (s.topLine + maxLinesRemembered - 1) % maxLinesRemembered = _
    rw [h.topLine_eq]
    exact pred_mod (by decide) (by omega)

theorem draw {d : Display} (h : Shows d.sb p) : Shows (scrollbackDraw font fb d).sb p.draw := by
  have hlast := h.lastLine_iff font
  refine h.congr (v := p.viewer.draw) (sameText_draw font fb d) rfl ?_ ?_
  · unfold scrollbackDraw
    dsimp only
    split_ifs <;> exact h.topLine_eq
  · have hfollows : p.viewer.draw.follows = true ↔ lastLine font fb d.sb = d.sb.currLine :=
      p.viewer.draw_follows_iff.trans hlast.symm
    exact Bool.eq_iff_iff.2 ((draw_sticky_iff font h.stickyLast).trans hfollows.symm)

end Shows

/-- **One operation** keeps the page. -/
theorem shows_exec {font : Font} {fb : FbGeometry} {d : Display} {p : Page fb}
    (h : Shows d.sb p) (op : Op) : Shows (op.exec font fb d).sb (p.exec font op) := by
  cases op <;> simp only [Op.exec, Op.edit, Page.exec]
  case putchar c => exact h.putchar font c
  case newLine => exact h.newLine
  case deleteLast => exact h.deleteLast 0x0e
  case moveUp => exact h.moveUp 0x48
  case moveDown => exact h.moveDown 0x50
  case toggleShift =>
    exact h.congr (sameText_toggleShift 0x2a d.sb) rfl h.topLine_eq h.follows_eq
  case draw => exact h.draw font

theorem shows_runOps {font : Font} {fb : FbGeometry} {d : Display} {p : Page fb}
    (h : Shows d.sb p) (ops : List Op) :
    Shows (runOps font fb d ops).sb (run (Page.exec font) p ops) :=
  run_simulation (R := fun (d : Display) (p : Page fb) => Shows d.sb p) h
    (fun _ _ op h => shows_exec h op) ops

/-! ## What is on the screen -/

theorem Shows.row_eq {fb : FbGeometry} {s : Scrollback} {p : Page fb} (h : Shows s p) {r : ℕ}
    (hr : r < p.viewer.rows) :
    readRow (s.scrollbuffer (fwd maxLinesRemembered s.topLine r)) = p.row r := by
  have holdest := p.viewer.oldest_le
  have hrows : p.viewer.rows ≤ max p.viewer.count 1024 - p.viewer.top := min_le_right _ _
  have hcount := p.count_eq
  rw [h.topLine_eq, fwd_mod, Page.row, Page.line, List.getD_eq_getElem?_getD]
  by_cases hin : p.viewer.top + r < p.text.lines.length
  · have hline := h.represents.ring.cells _ hin (by omega)
    rw [hline.readRow, List.getElem?_eq_getElem hin]
    rfl
  · have hlt : p.viewer.top + r < 1024 := by omega
    rw [Nat.mod_eq_of_lt hlt, h.blank _ hlt (by omega), readRow_padded isLine_nil,
      List.getElem?_eq_none (Nat.le_of_not_lt hin)]
    rfl

theorem Shows.shown_eq {fb : FbGeometry} {s : Scrollback} {p : Page fb} (h : Shows s p)
    (font : Font) :
    (drawnLines font fb s).map (fun line => readRow (s.scrollbuffer line)) = p.shown := by
  rw [drawnLines_eq, List.map_map, h.drawnRows_eq]
  exact List.map_congr_left fun r hr => h.row_eq (List.mem_range.1 hr)

/-- **A redraw shows the page.** After any run from the zero-initialised state, the three line
indices are the numbers of the page modulo the size of the buffer, the sticky flag says whether
the view follows the text, and the rows that a redraw draws hold the lines on the page. -/
theorem scrollback_refines_page (font : Font) (fb : FbGeometry) (canvas : ℕ → Rgb)
    (ops : List Op) :
    let s := (runOps font fb (Display.init canvas) ops).sb
    let p := run (Page.exec font) (Page.init fb) ops
    p.text = run (Text.exec font fb) Text.init ops ∧
      s.topLine = p.viewer.top % 1024 ∧
      s.start = p.viewer.oldest % 1024 ∧
      s.currLine = (p.viewer.count - 1) % 1024 ∧
      s.scrollsOnNewLine = p.viewer.follows ∧
      (drawnLines font fb s).map (fun line => readRow (s.scrollbuffer line)) = p.shown := by
  intro s p
  have h : Shows s p := shows_runOps (d := Display.init canvas) (Shows.init fb) ops
  exact ⟨Page.text_run font _ ops, h.topLine_eq, h.start_eq, h.currLine_eq, h.follows_eq,
    h.shown_eq font⟩

end Marcelov
