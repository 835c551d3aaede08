import Marcelov.BootPrint
import Marcelov.Page
import Marcelov.Redraw
import Marcelov.Render
import Marcelov.Shift

/-!
# The terminal

What the keyboard and the screen are together, from the first redraw of `main` on: a `Terminal`
is a page and the state of the shift keys, and a key takes it to another one. Neither the ring
of rows nor the canvas is in it; `mirrors_key` and `terminal_renders` say that they hold and show
the page of the terminal at all times.

* `terminal_renders` — the pixels are those of the lines on the page, after any keys;
* `terminal_shows_tail` — a screen with the end of the text goes on showing it while the user types;
* `scroll_keys` — how far each scroll key moves the view, and when it follows the text again.
-/

namespace Marcelov

open Lib Scrollback

/-! ## The first screen -/

/-- What `main` does to the scrollback: it prints lines, and redraws. -/
def firstOps (lines : List (List UInt8)) : List Op :=
  (lines.flatMap scrollbackPrintLine).map ScrollbackCall.op ++ [Op.draw]

/-- The display when `main` has printed `lines` and redrawn, if no key was pressed until then. -/
def firstScreen (font : Font) (fb : FbGeometry) (canvas : ℕ → Rgb) (lines : List (List UInt8)) :
    Display :=
  runOps font fb (Display.init canvas) (firstOps lines)

/-! ## Terminals -/

structure Terminal (fb : FbGeometry) where
  page : Page fb
  shift : Bool

namespace Terminal

variable {fb : FbGeometry} (font : Font)

def first (fb : FbGeometry) (lines : List (List UInt8)) : Terminal fb :=
  ⟨run (Page.exec font) (Page.init fb) (firstOps lines), false⟩

def special (T : Terminal fb) : ℕ → Terminal fb
  | 1 => { T with shift := !T.shift }
  | 2 => { T with page := T.page.moveDown.draw }
  | 3 => { T with page := T.page.moveUp.draw }
  | 6 => { T with page := T.page.newLine.draw }
  | 7 => if T.page.text.last = [] then T else { T with page := T.page.deleteLast.draw }
  | _ => T

def key (T : Terminal fb) (scancode : UInt8) : Terminal fb :=
  let info := scancodeDefs scancode
  if info.mainValue = 0 then T.special info.specialValue.toNat
  else
    let c := if T.shift then info.specialValue else info.mainValue
    { T with page := (T.page.putchar font c).draw }

end Terminal

/-! ## The display holds the terminal -/

/-- The display has the page and the shift state of the terminal. -/
structure Mirrors {fb : FbGeometry} (d : Display) (T : Terminal fb) : Prop where
  shows : Shows d.sb T.page
  shift_eq : d.sb.isShiftPressed = T.shift

section

variable {font : Font} {fb : FbGeometry} {d : Display} {T : Terminal fb}

theorem Terminal.special_eq (h : Mirrors d T) {i : ℕ} (hi : i < 8) :
    T.special i = ⟨run (Page.exec font) T.page (specialOps d.sb i), T.shift ^^ decide (i = 1)⟩ := by
  interval_cases i
  case «7» =>
    have hcol : d.sb.currColumn = 0 ↔ T.page.text.last = [] := by
      rw [h.shows.represents.column, List.length_eq_zero_iff]
    unfold Terminal.special specialOps
    by_cases hlast : T.page.text.last = []
    · rw [if_pos hlast, if_pos (hcol.2 hlast)]
      simp
    · rw [if_neg hlast, if_neg (hcol.not.2 hlast)]
      simp [Page.exec]
  all_goals simp [Terminal.special, specialOps, Page.exec]

theorem Terminal.key_eq (h : Mirrors d T) (scancode : UInt8) :
    T.key font scancode =
      ⟨run (Page.exec font) T.page (keyOps d.sb scancode), T.shift ^^ togglesShift scancode⟩ := by
  unfold Terminal.key keyOps
  by_cases hmain : (scancodeDefs scancode).mainValue = 0
  · have htoggle : decide ((scancodeDefs scancode).specialValue.toNat = 1) =
        togglesShift scancode := by
      have hiff := specialValue_toggle scancode hmain
      rw [← UInt8.toNat_inj] at hiff
      exact Bool.eq_iff_iff.2 (decide_eq_true_iff.trans hiff)
    rw [if_pos hmain, if_pos hmain, ← htoggle]
    exact Terminal.special_eq h (specialValue_lt scancode hmain)
  · rw [if_neg hmain, if_neg hmain, not_togglesShift_of_typed hmain, Bool.xor_false, typedChar,
      h.shift_eq]
    rfl

/-- **One key** keeps the display and the terminal together. -/
theorem mirrors_key (h : Mirrors d T) (scancode : UInt8) :
    Mirrors (keyboardProcessScancode font fb d scancode) (T.key font scancode) := by
  rw [Terminal.key_eq h]
  refine ⟨?_, ?_⟩
  · rw [keyboardProcessScancode_eq]
    exact shows_runOps h.shows _
  · rw [isShiftPressed_key, h.shift_eq]

theorem isShiftPressed_firstScreen (canvas : ℕ → Rgb) (lines : List (List UInt8)) :
    (firstScreen font fb canvas lines).sb.isShiftPressed = false := by
  have hstep (d : Display) (op : Op) (hop : op ∈ firstOps lines)
      (hd : d.sb.isShiftPressed = false) : (op.exec font fb d).sb.isShiftPressed = false := by
    rcases List.mem_append.1 hop with hcall | hdraw
    · obtain ⟨call, -, rfl⟩ := List.mem_map.1 hcall
      cases call with
      | putchar c => exact (isShiftPressed_putchar d.sb c).trans hd
      | newLine => exact (newLine_isShiftPressed d.sb).trans hd
    · rw [List.mem_singleton.1 hdraw]
      exact (isShiftPressed_draw d).trans hd
  exact run_invariant_of_mem (I := fun d : Display => d.sb.isShiftPressed = false) rfl hstep

theorem mirrors_first (canvas : ℕ → Rgb) (lines : List (List UInt8)) :
    Mirrors (firstScreen font fb canvas lines) (Terminal.first font fb lines) :=
  ⟨shows_runOps (d := Display.init canvas) (Shows.init fb) _,
    isShiftPressed_firstScreen canvas lines⟩

theorem mirrors_runKeys (h : Mirrors d T) (scs : List UInt8) :
    Mirrors (runKeys font fb d scs) (run (Terminal.key font) T scs) :=
  run_simulation (R := fun (d : Display) (T : Terminal fb) => Mirrors d T) h
    (fun _ _ scancode h => mirrors_key h scancode) scs

end

/-! ## The pixels -/

/-- The pixel is a set bit of the glyph of a character of a line on the page. -/
def Page.ink {fb : FbGeometry} (font : Font) (p : Page fb) (px py : ℕ) : Prop :=
  ∃ r < p.viewer.rows, ∃ j c, (p.row r)[j]? = some c ∧
    ∃ x < font.charWidth (font.printed c), ∃ y < 16,
      font.glyphBit (font.printed c) x y = true ∧
        px = 15 + font.lineWidth ((p.row r).take j) + x ∧ py = 15 + 16 * r + y

section

variable {font : Font} {fb : FbGeometry} {d : Display}

theorem Shows.textPixel_iff {s : Scrollback} {p : Page fb} (h : Shows s p) (px py : ℕ) :
    textPixel font fb s px py ↔ p.ink font px py := by
  have hrow (r : ℕ) (hr : r < p.viewer.rows) : lineAt s r = p.row r := h.row_eq hr
  unfold textPixel Page.ink
  constructor
  · rintro ⟨r, j, c, hvis, hc, hglyph⟩
    have hr : r < p.viewer.rows := h.drawnRows_eq ▸ (visible_iff fb s r).1 hvis
    rw [hrow r hr] at hc hglyph
    exact ⟨r, hr, j, c, hc, hglyph⟩
  · rintro ⟨r, hr, j, c, hc, hglyph⟩
    rw [← hrow r hr] at hc hglyph
    exact ⟨r, j, c, (visible_iff fb s r).2 (h.drawnRows_eq ▸ hr), hc, hglyph⟩

theorem opFits_keyOps (hfits : ∀ c : UInt8, c.toNat < 128 → 30 + font.charWidth c < fb.width)
    (s : Scrollback) (scancode : UInt8) : ∀ op ∈ keyOps s scancode, OpFits font fb op := by
  rintro op hop c rfl
  unfold keyOps at hop
  split_ifs at hop with hmain
  · unfold specialOps at hop
    split at hop <;> simp at hop
  · have htyped := typedChar_bounds (s := s) hmain
    obtain rfl : c = typedChar s scancode := by simpa using hop
    exact ⟨by omega, hfits _ (by omega)⟩

theorem opFits_firstOps {lines : List (List UInt8)}
    (hfits : ∀ c : UInt8, c.toNat < 128 → 30 + font.charWidth c < fb.width)
    (hascii : ∀ l ∈ lines, ∀ c ∈ l, c.toNat < 128) :
    ∀ op ∈ firstOps lines, OpFits font fb op := by
  rintro op hop c rfl
  rcases List.mem_append.1 hop with hop | hdraw
  · obtain ⟨call, hcall, heq⟩ := List.mem_map.1 hop
    obtain ⟨l, hl, hline⟩ := List.mem_flatMap.1 hcall
    rcases List.mem_append.1 hline with hchar | hlast
    · obtain ⟨c', hc', rfl⟩ := List.mem_map.1 hchar
      obtain rfl : c' = c := by simpa [ScrollbackCall.op] using heq
      have hc : c' ∈ l := (List.takeWhile_prefix _).subset hc'
      exact ⟨hascii l hl c' hc, hfits c' (hascii l hl c' hc)⟩
    · rw [List.mem_singleton.1 hlast] at heq
      cases heq
  · simp at hdraw

/-- The display is that of the terminal, and what it shows is up to date. -/
structure Displays (font : Font) {fb : FbGeometry} (d : Display) (T : Terminal fb) : Prop where
  mirrors : Mirrors d T
  fresh : scrollbackDraw font fb d = d
  laid : Laid font fb d.sb

theorem displays_first {lines : List (List UInt8)} (canvas : ℕ → Rgb)
    (hfits : ∀ c : UInt8, c.toNat < 128 → 30 + font.charWidth c < fb.width)
    (hascii : ∀ l ∈ lines, ∀ c ∈ l, c.toNat < 128) :
    Displays font (firstScreen font fb canvas lines) (Terminal.first font fb lines) where
  mirrors := mirrors_first canvas lines
  fresh := by
    rw [firstScreen, firstOps, runOps, run_append]
    exact draw_idem _
  laid := laid_runOps canvas (opFits_firstOps hfits hascii)

variable {T : Terminal fb}

theorem laid_key (hfits : ∀ c : UInt8, c.toNat < 128 → 30 + font.charWidth c < fb.width)
    {t : Text} (hl : Laid font fb d.sb) (h : Represents d.sb t) (scancode : UInt8) :
    Laid font fb (keyboardProcessScancode font fb d scancode).sb := by
  rw [keyboardProcessScancode_eq]
  refine (run_invariant_of_mem
    (I := fun d : Display => Laid font fb d.sb ∧ ∃ t, Represents d.sb t) ⟨hl, t, h⟩ ?_).1
  rintro d op hop ⟨hl, t, h⟩
  exact ⟨laid_exec hl h (opFits_keyOps hfits _ scancode op hop), _, represents_exec h op⟩

theorem displays_key (hfits : ∀ c : UInt8, c.toNat < 128 → 30 + font.charWidth c < fb.width)
    (h : Displays font d T) (scancode : UInt8) :
    Displays font (keyboardProcessScancode font fb d scancode) (T.key font scancode) where
  mirrors := mirrors_key h.mirrors scancode
  fresh := draw_eq_self_of_key h.fresh scancode
  laid := laid_key hfits h.laid h.mirrors.shows.represents scancode

theorem displays_runKeys (hfits : ∀ c : UInt8, c.toNat < 128 → 30 + font.charWidth c < fb.width)
    (h : Displays font d T) (scs : List UInt8) :
    Displays font (runKeys font fb d scs) (run (Terminal.key font) T scs) :=
  run_simulation (R := fun (d : Display) (T : Terminal fb) => Displays font d T) h
    (fun _ _ scancode h => displays_key hfits h scancode) scs

/-- **A pixel of the display** is one of the text of the terminal, or of the background. -/
theorem Displays.pixel (h : Displays font d T) (hsize : fb.width * fb.height < 2 ^ 31) {px py : ℕ}
    (hpx : px < fb.width) (hpy : py < fb.height) :
    (T.page.ink font px py → d.canvas (py * fb.width + px) = black) ∧
      (¬ T.page.ink font px py → d.canvas (py * fb.width + px) = background) := by
  have hink : (∃ w ∈ drawGlyphs font fb d.sb, w.index fb = py * fb.width + px) ↔
      T.page.ink font px py :=
    (index_mem_iff h.laid hsize hpx hpy).trans (h.mirrors.shows.textPixel_iff px py)
  have hlt := pixel_lt hpx hpy
  rw [← h.fresh]
  refine ⟨fun hi => draw_black (hink.2 hi), fun hi => draw_background ?_ (hink.not.2 hi)⟩
  rw [u32_of_lt (by omega)]
  exact hlt

end

/-- **The screen shows the terminal.** Let `main` print ASCII lines and redraw, and let any keys
be pressed after that, on a screen where every ASCII character fits on a line: a pixel of the
canvas is black if it is a set bit of a glyph of the page that the terminal is at, and has the
background colour if it is not. -/
theorem terminal_renders (font : Font) (fb : FbGeometry) (canvas : ℕ → Rgb)
    (lines : List (List UInt8)) (scs : List UInt8) (hsize : fb.width * fb.height < 2 ^ 31)
    (hfits : ∀ c : UInt8, c.toNat < 128 → 30 + font.charWidth c < fb.width)
    (hascii : ∀ l ∈ lines, ∀ c ∈ l, c.toNat < 128) :
    let d := runKeys font fb (firstScreen font fb canvas lines) scs
    let T := run (Terminal.key font) (Terminal.first font fb lines) scs
    ∀ px < fb.width, ∀ py < fb.height,
      (T.page.ink font px py → d.canvas (py * fb.width + px) = black) ∧
        (¬ T.page.ink font px py → d.canvas (py * fb.width + px) = background) := by
  intro d T px hpx py hpy
  have h : Displays font d T := displays_runKeys hfits (displays_first canvas hfits hascii) scs
  exact h.pixel hsize hpx hpy

/-- A line printed and a letter typed: the first set bit of the glyph of the letter, on the second
row of the screen. -/
theorem terminal_renders_letter :
    (runKeys .monaco mainFb (firstScreen .monaco mainFb (fun _ => black) [[0x48]]) [0x1e]).canvas
      (37 * mainFb.width + 17) = black := by
  refine (terminal_renders .monaco mainFb (fun _ => black) [[0x48]] [0x1e] (by decide)
    (fun _ _ => by simp [Font.charWidth, mainFb]) (by simp) 17 (by decide) 37 (by decide)).1 ?_
  exact ⟨1, by decide, 0, 0x61, by decide, 2, by decide, 6, by decide, by decide, by decide,
    by decide⟩

/-! ## The end of the text -/

section

variable {font : Font} {fb : FbGeometry} {T : Terminal fb}

theorem Page.putchar_once {c : UInt8} (hc : c ≠ 0) (hfits : 30 + font.charWidth c < fb.width)
    (p : Page fb) : ∃ q, (q = p ∨ q = p.newLine) ∧ p.putchar font c = q.append c := by
  rw [Page.putchar, if_neg hc]
  refine ⟨_, ?_, rfl⟩
  unfold Page.wrapFull
  by_cases hfull : p.text.last.length = 256
  · have hroom : ¬ fb.width ≤ 30 + font.lineWidth p.newLine.text.last + font.charWidth c := by
      rw [Page.text_newLine, Text.newLine, Font.lineWidth_nil]
      omega
    rw [if_pos hfull, Page.wrapWide, if_neg hroom]
    exact Or.inr rfl
  · rw [if_neg hfull, Page.wrapWide]
    split_ifs
    exacts [Or.inr rfl, Or.inl rfl]

/-- What a key can do to a page. -/
inductive PageEffect (font : Font) (p : Page fb) (scancode : UInt8) : Page fb → Prop where
  | unchanged : PageEffect font p scancode p
  | typed (c : UInt8) (hc : 32 ≤ c.toNat ∧ c.toNat < 127) :
    PageEffect font p scancode (p.putchar font c).draw
  | scrolled (q : Page fb) (hkey : scancode = 0x48 ∨ scancode = 0x50)
    (hq : q = p.moveUp ∨ q = p.moveDown) : PageEffect font p scancode q.draw
  | newLine : PageEffect font p scancode p.newLine.draw
  | deleteLast : PageEffect font p scancode p.deleteLast.draw

theorem pageEffect_special {scancode : UInt8} (hmain : (scancodeDefs scancode).mainValue = 0) :
    PageEffect font T.page scancode
      (T.special (scancodeDefs scancode).specialValue.toNat).page := by
  have hlt := specialValue_lt scancode hmain
  have hscroll (hi : (scancodeDefs scancode).specialValue.toNat = 2 ∨
      (scancodeDefs scancode).specialValue.toNat = 3) : scancode = 0x48 ∨ scancode = 0x50 := by
    by_contra hkey
    rw [not_or] at hkey
    obtain ⟨hup, hdown⟩ := scroll_key hkey.1 hkey.2 hmain
    rcases hi with hi | hi
    · exact hdown (UInt8.toNat_inj.1 hi)
    · exact hup (UInt8.toNat_inj.1 hi)
  generalize (scancodeDefs scancode).specialValue.toNat = i at hlt hscroll ⊢
  interval_cases i
  · exact .unchanged
  · exact .unchanged
  · exact .scrolled T.page.moveDown (hscroll (Or.inl rfl)) (Or.inr rfl)
  · exact .scrolled T.page.moveUp (hscroll (Or.inr rfl)) (Or.inl rfl)
  · exact .unchanged
  · exact .unchanged
  · exact .newLine
  · unfold Terminal.special
    split_ifs
    exacts [.unchanged, .deleteLast]

/-- **A key does one of these things to the page.** -/
theorem pageEffect_key (font : Font) (T : Terminal fb) (scancode : UInt8) :
    PageEffect font T.page scancode (T.key font scancode).page := by
  unfold Terminal.key
  by_cases hmain : (scancodeDefs scancode).mainValue = 0
  · rw [if_pos hmain]
    exact pageEffect_special hmain
  · have hbounds := typed_bounds scancode hmain
    rw [if_neg hmain]
    refine .typed _ ?_
    split_ifs
    exacts [hbounds.2, hbounds.1]

theorem Terminal.drawn_key (font : Font) (h : T.page.viewer.draw = T.page.viewer)
    (scancode : UInt8) :
    (T.key font scancode).page.viewer.draw = (T.key font scancode).page.viewer := by
  have heffect := pageEffect_key font T scancode
  generalize (T.key font scancode).page = p at heffect ⊢
  cases heffect with
  | unchanged => exact h
  | typed c => exact Viewer.draw_draw _
  | scrolled q => exact Viewer.draw_draw _
  | newLine => exact Viewer.draw_draw _
  | deleteLast => exact Viewer.draw_draw _

theorem Terminal.drawn_run (font : Font) (lines : List (List UInt8)) (scs : List UInt8) :
    let p := (run (Terminal.key font) (Terminal.first font fb lines) scs).page
    p.viewer.draw = p.viewer := by
  refine run_invariant (I := fun T : Terminal fb => T.page.viewer.draw = T.page.viewer) ?_
    (fun _ scancode h => Terminal.drawn_key font h scancode) scs
  rw [Terminal.first, firstOps, run_append]
  exact Viewer.draw_draw _

/-- A key other than a scroll key keeps the end of the text on the screen. -/
theorem Terminal.tail_key (hrows : 0 < min fb.rowsThatFit maxLinesRemembered)
    (hfits : ∀ c : UInt8, c.toNat < 128 → 30 + font.charWidth c < fb.width) {scancode : UInt8}
    (hscroll : scancode ≠ 0x48 ∧ scancode ≠ 0x50) (ht : T.page.viewer.Tail) :
    (T.key font scancode).page.viewer.Tail := by
  have heffect := pageEffect_key font T scancode
  generalize (T.key font scancode).page = p at heffect ⊢
  cases heffect with
  | unchanged => exact ht
  | typed c hc =>
    have hne : c ≠ 0 := by
      rintro rfl
      exact absurd hc.1 (by decide)
    obtain ⟨q, rfl | rfl, heq⟩ := Page.putchar_once hne (hfits c (by omega)) T.page
    · rw [heq]
      exact ht.draw hrows
    · rw [heq]
      exact ht.push_draw hrows
  | scrolled q hkey => exact absurd hkey (not_or.2 hscroll)
  | newLine => exact ht.push_draw hrows
  | deleteLast => exact ht.draw hrows

theorem Page.shown_of_tail {p : Page fb} (ht : p.viewer.Tail) :
    p.shown = p.text.lines.rtake (min fb.rowsThatFit maxLinesRemembered) ++
      List.replicate (min fb.rowsThatFit maxLinesRemembered - p.text.lines.length) [] := by
  have htop := ht.top_eq
  have hrows := ht.rows_eq
  rw [p.count_eq] at htop
  unfold Viewer.rows at hrows
  refine List.ext_getElem ?_ fun r hr hr' => ?_
  · rw [Page.shown, Page.screenFrom, List.length_map, List.length_range, hrows, List.rtake,
      List.length_append, List.length_drop, List.length_replicate]
    omega
  · simp only [Page.shown, Page.screenFrom, Page.line, List.getElem_map, List.getElem_range,
      List.rtake, List.getD_eq_getElem?_getD, htop]
    rcases Nat.lt_or_ge (p.text.lines.length - min fb.rowsThatFit maxLinesRemembered + r)
      p.text.lines.length with hlt | hge
    · rw [List.getElem_append_left (by rw [List.length_drop]; omega), List.getElem_drop,
        List.getElem?_eq_getElem hlt]
      rfl
    · rw [List.getElem_append_right (by rw [List.length_drop]; omega), List.getElem_replicate,
        List.getElem?_eq_none hge]
      rfl

end

/-- **Typing keeps the end of the text on the screen.** Take any state after `main` has printed
`lines` and any keys were pressed, in which the screen begins with the line that puts the newest
one in its last row (or with the first line, if the text is shorter than the screen). After any
further keys other than the scroll keys, the rows that a redraw draws hold the last lines of the
text, as many as the screen has rows, and nothing after them. -/
theorem terminal_shows_tail (font : Font) (fb : FbGeometry) (canvas : ℕ → Rgb)
    (lines : List (List UInt8)) (scs typed : List UInt8)
    (hrows : 0 < min fb.rowsThatFit maxLinesRemembered)
    (hfits : ∀ c : UInt8, c.toNat < 128 → 30 + font.charWidth c < fb.width)
    (htop : (run (Terminal.key font) (Terminal.first font fb lines) scs).page.viewer.top =
      (run (Terminal.key font) (Terminal.first font fb lines) scs).page.viewer.count -
        min fb.rowsThatFit maxLinesRemembered)
    (hscroll : ∀ sc ∈ typed, sc ≠ 0x48 ∧ sc ≠ 0x50) :
    let s := (runKeys font fb (firstScreen font fb canvas lines) (scs ++ typed)).sb
    let t := (run (Terminal.key font) (Terminal.first font fb lines) (scs ++ typed)).page.text
    (drawnLines font fb s).map (fun line => readRow (s.scrollbuffer line)) =
      t.lines.rtake (min fb.rowsThatFit maxLinesRemembered) ++
        List.replicate (min fb.rowsThatFit maxLinesRemembered - t.lines.length) [] := by
  intro s t
  have hshows : Shows s (run (Terminal.key font) (Terminal.first font fb lines)
      (scs ++ typed)).page := (mirrors_runKeys (mirrors_first canvas lines) (scs ++ typed)).shows
  rw [hshows.shown_eq font]
  refine Page.shown_of_tail ?_
  rw [run_append]
  refine run_invariant_of_mem (I := fun T : Terminal fb => T.page.viewer.Tail) ?_
    fun _ sc hsc ht => Terminal.tail_key hrows hfits (hscroll sc hsc) ht
  exact Viewer.tail_of_drawn hrows (Terminal.drawn_run font lines scs) htop

/-- On a fresh screen: one line down, back up, and a new line. -/
theorem terminal_shows_tail_fresh :
    let scs : List UInt8 := [0x50, 0x48] ++ [0x1c]
    let s := (runKeys .monaco mainFb (firstScreen .monaco mainFb (fun _ => black) []) scs).sb
    let t := (run (Terminal.key .monaco) (Terminal.first .monaco mainFb []) scs).page.text
    (drawnLines .monaco mainFb s).map (fun line => readRow (s.scrollbuffer line)) =
      t.lines.rtake (min mainFb.rowsThatFit maxLinesRemembered) ++
        List.replicate (min mainFb.rowsThatFit maxLinesRemembered - t.lines.length) [] :=
  terminal_shows_tail .monaco mainFb (fun _ => black) [] [0x50, 0x48] [0x1c] (by decide)
    (fun _ _ => by simp [Font.charWidth, mainFb]) (by decide) (by simp)

/-! ## Scrolling -/

theorem Scrollback.SameText.trans {s s' s'' : Scrollback} (h : SameText s s')
    (h' : SameText s' s'') : SameText s s'' :=
  ⟨h'.scrollbuffer.trans h.scrollbuffer, h'.start.trans h.start, h'.currLine.trans h.currLine,
    h'.currColumn.trans h.currColumn, h'.stores.trans h.stores⟩

/-- The scrollback shows the text of the page from line number `i` on, and follows it exactly when
the newest line is in the last row. -/
structure ShowsFrom (font : Font) {fb : FbGeometry} (s : Scrollback) (p : Page fb) (i : ℕ) :
    Prop where
  lines : (drawnLines font fb s).map (fun line => readRow (s.scrollbuffer line)) = p.screenFrom i
  follows : s.scrollsOnNewLine = true ↔
    i < p.viewer.count ∧ i + min fb.rowsThatFit (p.viewer.bound - i) = p.viewer.count

section

variable {font : Font} {fb : FbGeometry} {d : Display} {T : Terminal fb}

theorem key_up (T : Terminal fb) :
    T.key font 0x48 = { T with page := T.page.moveUp.draw } := rfl

theorem key_down (T : Terminal fb) :
    T.key font 0x50 = { T with page := T.page.moveDown.draw } := rfl

theorem sameText_scroll (d : Display) {scancode : UInt8}
    (hkey : scancode = 0x48 ∨ scancode = 0x50) :
    SameText d.sb (keyboardProcessScancode font fb d scancode).sb := by
  rcases hkey with rfl | rfl
  · exact (sameText_moveUp 0x48 d.sb).trans (sameText_draw font fb { d with sb := _ })
  · exact (sameText_moveDown 0x50 d.sb).trans (sameText_draw font fb { d with sb := _ })

theorem sameText_scrolls (d : Display) {scancode : UInt8}
    (hkey : scancode = 0x48 ∨ scancode = 0x50) (k : ℕ) :
    SameText d.sb (runKeys font fb d (List.replicate k scancode)).sb := by
  refine run_invariant_of_mem (I := fun d' : Display => SameText d.sb d'.sb) (SameText.refl _) ?_
  intro d' sc hsc h
  rw [List.eq_of_mem_replicate hsc]
  exact h.trans (sameText_scroll d' hkey)

theorem Terminal.run_scroll {scancode : UInt8}
    {f : Viewer maxLinesRemembered fb.rowsThatFit → Viewer maxLinesRemembered fb.rowsThatFit}
    (hkey : ∀ T : Terminal fb, (T.key font scancode).page.text = T.page.text ∧
      (T.key font scancode).page.viewer = f T.page.viewer) (k : ℕ) (T : Terminal fb) :
    (run (Terminal.key font) T (List.replicate k scancode)).page.text = T.page.text ∧
      (run (Terminal.key font) T (List.replicate k scancode)).page.viewer =
        f^[k] T.page.viewer := by
  induction k generalizing T with
  | zero => exact ⟨rfl, rfl⟩
  | succ k ih =>
    obtain ⟨htext, hviewer⟩ := ih (T.key font scancode)
    obtain ⟨htext', hviewer'⟩ := hkey T
    rw [List.replicate_succ, run_cons, Function.iterate_succ_apply, htext, hviewer, hviewer']
    exact ⟨htext', rfl⟩

/-- A terminal whose view has been drawn shows the text of a page from the top of the view on. -/
theorem Mirrors.showsFrom {p : Page fb} (h : Mirrors d T)
    (hdrawn : T.page.viewer.draw = T.page.viewer) (htext : T.page.text = p.text)
    (hcount : T.page.viewer.count = p.viewer.count) :
    ShowsFrom font d.sb p T.page.viewer.top := by
  have hbound : T.page.viewer.bound = p.viewer.bound := by
    rw [Viewer.bound, Viewer.bound, hcount]
  refine ⟨?_, ?_⟩
  · rw [h.shows.shown_eq font, Page.shown]
    unfold Page.screenFrom Page.line
    rw [hbound, htext]
  · rw [h.shows.follows_eq, ← hdrawn, Viewer.draw_follows_iff, Viewer.AtEnd, Viewer.rows, hbound,
      hcount]
    rfl

theorem showsFrom_scrolls {scancode : UInt8} {k : ℕ}
    {f : Viewer maxLinesRemembered fb.rowsThatFit → Viewer maxLinesRemembered fb.rowsThatFit}
    (hm : Mirrors d T) (hdrawn : T.page.viewer.draw = T.page.viewer)
    (hkey : ∀ T : Terminal fb, (T.key font scancode).page.text = T.page.text ∧
      (T.key font scancode).page.viewer = f T.page.viewer)
    (hcount : (f^[k] T.page.viewer).count = T.page.viewer.count) :
    ShowsFrom font (runKeys font fb d (List.replicate k scancode)).sb T.page
      (f^[k] T.page.viewer).top := by
  obtain ⟨htext, hviewer⟩ := Terminal.run_scroll hkey k T
  have hdrawn' := run_invariant (I := fun T : Terminal fb => T.page.viewer.draw = T.page.viewer)
    hdrawn (fun _ scancode h => Terminal.drawn_key font h scancode)
    (List.replicate k scancode)
  rw [← hviewer] at hcount ⊢
  exact (mirrors_runKeys hm _).showsFrom hdrawn' htext hcount

end

/-- **The scroll keys move the view, and nothing else**, in every state after `main` has printed
`lines` and any keys were pressed. Pressed `k` times, the up key shows the text from `k` lines
further up, but not from before the oldest line kept, and the down key from `k` lines further
down, but not from after the last place of the buffer. -/
theorem scroll_keys (font : Font) (fb : FbGeometry) (canvas : ℕ → Rgb)
    (lines : List (List UInt8)) (scs : List UInt8) (k : ℕ) :
    let d := runKeys font fb (firstScreen font fb canvas lines) scs
    let p := (run (Terminal.key font) (Terminal.first font fb lines) scs).page
    let up := (runKeys font fb d (List.replicate k 0x48)).sb
    let down := (runKeys font fb d (List.replicate k 0x50)).sb
    SameText d.sb up ∧ SameText d.sb down ∧
      ShowsFrom font up p (max (p.viewer.top - k) p.viewer.oldest) ∧
      ShowsFrom font down p (min (p.viewer.top + k) (p.viewer.bound - 1)) := by
  intro d p up down
  have hm : Mirrors d (run (Terminal.key font) (Terminal.first font fb lines) scs) :=
    mirrors_runKeys (mirrors_first canvas lines) scs
  have hdrawn : p.viewer.draw = p.viewer := Terminal.drawn_run font lines scs
  refine ⟨sameText_scrolls d (Or.inl rfl) k, sameText_scrolls d (Or.inr rfl) k, ?_, ?_⟩
  · obtain ⟨hcount, htop⟩ := p.viewer.up_iterate k
    rw [← htop]
    exact showsFrom_scrolls hm hdrawn (fun T => by rw [key_up]; exact ⟨rfl, rfl⟩) hcount
  · obtain ⟨hcount, htop⟩ := p.viewer.down_iterate k
    rw [← htop]
    exact showsFrom_scrolls hm hdrawn (fun T => by rw [key_down]; exact ⟨rfl, rfl⟩) hcount

end Marcelov
