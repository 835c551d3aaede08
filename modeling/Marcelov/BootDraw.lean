import Mathlib.Logic.Relation
import Marcelov.Desktop

/-!
# Redrawing with the devices on

`main` redraws the scrollback with interrupts enabled, so a trap can come between any two
statements of `scrollback_draw`, also in the middle of a glyph, and the handler of a key redraws
everything on its own. `BootDraw` runs the redraw of `main` one statement at a time, and an event
of a run is either the next statement of `main` or a whole trap.
-/

namespace Marcelov

open Lib Scrollback

/-! ## The program -/

/-- The next statement of `scrollback_draw`, with the variables it has by then. -/
inductive DrawPc where
  /-- The loop of `fb_clear`, before iteration `i`. -/
  | clear (i : ℕ)
  /-- `line = scrollbuffer_top_line` -/
  | top
  /-- The head of the outer loop. -/
  | row (y line lastLine : ℕ)
  /-- The head of the inner loop, and `c = scrollbuffer[line][i]`. -/
  | column (y line i x : ℕ)
  /-- In `fb_print_char(c, x, y)`, with the stores it has still to make. -/
  | glyph (stores : List GlyphWrite) (c : UInt8) (y line i x : ℕ)
  /-- The end of the outer loop. -/
  | next (y line : ℕ)
  /-- `if (last_line == curr_line)` -/
  | lastTest (lastLine : ℕ)
  /-- `scrollbuffer_scrolls_on_new_line = true` -/
  | stickySet
  | done
  deriving DecidableEq

structure BootDraw where
  pc : DrawPc
  kernel : Kernel

namespace BootDraw

/-- `main` goes on at `pc`. -/
def goto (m : BootDraw) (pc : DrawPc) : BootDraw := { m with pc := pc }

/-- `main` stores to the canvas and goes on at `pc`. -/
def paint (m : BootDraw) (w : ℕ × Rgb) (pc : DrawPc) : BootDraw where
  pc := pc
  kernel :=
    { m.kernel with
      display :=
        { m.kernel.display with canvas := Function.update m.kernel.display.canvas w.1 w.2 } }

/-- `main` sets the sticky flag and goes on at `pc`. -/
def stick (m : BootDraw) (pc : DrawPc) : BootDraw where
  pc := pc
  kernel :=
    { m.kernel with
      display :=
        { m.kernel.display with sb := { m.kernel.display.sb with scrollsOnNewLine := true } } }

/-- The next statement of `main`. -/
def mainStep (font : Font) (fb : FbGeometry) (m : BootDraw) : BootDraw :=
  let s := m.kernel.display.sb
  match m.pc with
  | .clear i =>
    if i < u32 (fb.width * fb.height) then m.paint (i, background) (.clear (i + 1))
    else m.goto .top
  | .top => m.goto (.row marginTop s.topLine noLine)
  | .row y line lastLine =>
    let nextY := u32 (y + fbMeasureLineHeight (s.scrollbuffer line) maxLineLen)
    m.goto (if fb.height ≤ u32 (nextY + marginBottom) then .lastTest lastLine
      else .column y line 0 marginLeft)
  | .column y line i x =>
    if i < maxLineLen ∧ u32 (x + marginRight) < fb.width then
      let c := s.scrollbuffer line i
      m.goto (if c = 0 then .next y line else .glyph (fbPrintChar font fb c x y) c y line i x)
    else m.goto (.next y line)
  | .glyph [] c y line i x => m.goto (.column y line (i + 1) (u32 (x + fbMeasureChar font c)))
  | .glyph (w :: stores) c y line i x => m.paint (w.toWrite fb) (.glyph stores c y line i x)
  | .next y line =>
    let y' := u32 (y + fbMeasureLineHeight (s.scrollbuffer line) maxLineLen)
    let line' := (line + 1) % maxLinesRemembered
    m.goto (if line' = s.start then .lastTest line else .row y' line' line)
  | .lastTest lastLine => m.goto (if lastLine = s.currLine then .stickySet else .done)
  | .stickySet => m.stick .done
  | .done => m

section

variable (font : Font) (fb : FbGeometry) (k : Kernel)

theorem mainStep_row (y line lastLine : ℕ) :
    mainStep font fb ⟨.row y line lastLine, k⟩ =
      ⟨if fb.height ≤ u32 (u32 (y + charHeight) + marginBottom) then .lastTest lastLine
        else .column y line 0 marginLeft, k⟩ := rfl

theorem mainStep_next (y line : ℕ) :
    mainStep font fb ⟨.next y line, k⟩ =
      ⟨if (line + 1) % maxLinesRemembered = k.display.sb.start then .lastTest line
        else .row (u32 (y + charHeight)) ((line + 1) % maxLinesRemembered) line, k⟩ := rfl

theorem mainStep_lastTest (lastLine : ℕ) :
    mainStep font fb ⟨.lastTest lastLine, k⟩ =
      ⟨if lastLine = k.display.sb.currLine then .stickySet else .done, k⟩ := rfl

end

end BootDraw

inductive DrawEvent where
  | main
  | trap (t : Trap)
  deriving DecidableEq

def drawStep (font : Font) (fb : FbGeometry) (m : BootDraw) : DrawEvent → BootDraw
  | .main => m.mainStep font fb
  | .trap t => { m with kernel := m.kernel.handleTrap font fb t }

def BootDraw.init (k : Kernel) : BootDraw := ⟨.clear 0, k⟩

def trapsOf (events : List DrawEvent) : List Trap :=
  events.filterMap fun
    | .main => none
    | .trap t => some t

/-! ## Without traps -/

section

variable {font : Font} {fb : FbGeometry}

/-- `main` alone gets from `m` to `m'`. -/
def DrawReaches (font : Font) (fb : FbGeometry) : BootDraw → BootDraw → Prop :=
  Relation.ReflTransGen fun m m' => m.mainStep font fb = m'

theorem DrawReaches.head {m m' : BootDraw} (h : DrawReaches font fb (m.mainStep font fb) m') :
    DrawReaches font fb m m' := Relation.ReflTransGen.head rfl h

theorem DrawReaches.of_step {m m' : BootDraw} (h : m.mainStep font fb = m') :
    DrawReaches font fb m m' := Relation.ReflTransGen.single h

def Kernel.paint (k : Kernel) (ws : List (ℕ × Rgb)) : Kernel :=
  { k with display := { k.display with canvas := applyWrites ws k.display.canvas } }

@[simp] theorem Kernel.sb_paint (k : Kernel) (ws : List (ℕ × Rgb)) :
    (k.paint ws).display.sb = k.display.sb := rfl

theorem Kernel.paint_append (k : Kernel) (ws ws' : List (ℕ × Rgb)) :
    k.paint (ws ++ ws') = (k.paint ws).paint ws' := by
  rw [paint, applyWrites_append]
  rfl

theorem reaches_fbClear (k : Kernel) (i n : ℕ) (hi : i + n = u32 (fb.width * fb.height)) :
    DrawReaches font fb ⟨.clear i, k⟩
      ⟨.top, k.paint ((List.range' i n).map fun i => (i, background))⟩ := by
  induction n generalizing k i with
  | zero =>
    refine DrawReaches.of_step ?_
    rw [BootDraw.mainStep]
    exact if_neg (by omega)
  | succ n ih =>
    refine DrawReaches.head ?_
    rw [BootDraw.mainStep]
    dsimp only
    rw [if_pos (by omega)]
    exact ih (k.paint [(i, background)]) (i + 1) (by omega)

theorem reaches_glyph (k : Kernel) (ws : List GlyphWrite) (c : UInt8) (y line i x : ℕ) :
    DrawReaches font fb ⟨.glyph ws c y line i x, k⟩
      ⟨.column y line (i + 1) (u32 (x + fbMeasureChar font c)),
        k.paint (ws.map (GlyphWrite.toWrite fb))⟩ := by
  induction ws generalizing k with
  | nil => exact DrawReaches.of_step rfl
  | cons w ws ih => exact DrawReaches.head (ih (k.paint [w.toWrite fb]))

/-- The stores of the characters of a row. -/
def rowWrites (font : Font) (fb : FbGeometry) (y : ℕ) (chars : List CharVisit) :
    List (ℕ × Rgb) :=
  (chars.flatMap fun ch => fbPrintChar font fb ch.c ch.x y).map (GlyphWrite.toWrite fb)

/-- The inner loop. -/
theorem reaches_chars (k : Kernel) (y line i x n : ℕ) (hi : i + n = maxLineLen) :
    DrawReaches font fb ⟨.column y line i x, k⟩
      ⟨.next y line, k.paint
        (rowWrites font fb y (drawChars font fb (k.display.sb.scrollbuffer line) n i x))⟩ := by
  induction n generalizing k i x with
  | zero =>
    refine DrawReaches.of_step ?_
    rw [BootDraw.mainStep]
    exact if_neg fun h => absurd h.1 (by omega)
  | succ n ih =>
    have hlt : i < maxLineLen := by omega
    refine DrawReaches.head ?_
    rw [BootDraw.mainStep, drawChars]
    dsimp only
    by_cases hroom : u32 (x + marginRight) < fb.width
    · rw [if_pos ⟨hlt, hroom⟩, if_pos hroom]
      by_cases hc : k.display.sb.scrollbuffer line i = 0
      · rw [if_pos hc, if_pos hc]
        exact Relation.ReflTransGen.refl
      · rw [if_neg hc, if_neg hc, rowWrites, List.flatMap_cons, List.map_append,
          Kernel.paint_append]
        exact (reaches_glyph k _ _ y line i x).trans (ih _ (i + 1) _ (by omega))
    · rw [if_neg fun h => hroom h.2, if_neg hroom]
      exact Relation.ReflTransGen.refl

/-- A pass of the outer loop, with the height of every line. -/
theorem drawRows_succ (s : Scrollback) (fuel y line lastLine : ℕ) :
    drawRows font fb s (fuel + 1) y line lastLine =
      if fb.height ≤ u32 (u32 (y + charHeight) + marginBottom) then some ([], lastLine)
      else
        let visit : RowVisit :=
          ⟨line, y, drawChars font fb (s.scrollbuffer line) maxLineLen 0 marginLeft⟩
        if (line + 1) % maxLinesRemembered = s.start then some ([visit], line)
        else
          (drawRows font fb s fuel (u32 (y + charHeight)) ((line + 1) % maxLinesRemembered)
            line).map fun (visits, last) => (visit :: visits, last) := rfl

/-- The outer loop. -/
theorem reaches_rows (k : Kernel) {fuel y line lastLine last : ℕ} {visits : List RowVisit}
    (h : drawRows font fb k.display.sb fuel y line lastLine = some (visits, last)) :
    DrawReaches font fb ⟨.row y line lastLine, k⟩
      ⟨.lastTest last, k.paint (visits.flatMap fun v => rowWrites font fb v.y v.chars)⟩ := by
  induction fuel generalizing k y line lastLine visits with
  | zero => cases h
  | succ fuel ih =>
    refine DrawReaches.head ?_
    rw [drawRows_succ] at h
    rw [BootDraw.mainStep_row]
    by_cases hfull : fb.height ≤ u32 (u32 (y + charHeight) + marginBottom)
    · rw [if_pos hfull] at h ⊢
      obtain ⟨rfl, rfl⟩ := Prod.mk.inj (Option.some.inj h)
      exact Relation.ReflTransGen.refl
    · rw [if_neg hfull] at h ⊢
      refine (reaches_chars k y line 0 marginLeft maxLineLen (Nat.zero_add _)).trans ?_
      refine DrawReaches.head ?_
      rw [BootDraw.mainStep_next, Kernel.sb_paint]
      by_cases hstart : (line + 1) % maxLinesRemembered = k.display.sb.start
      · rw [if_pos hstart] at h
        obtain ⟨rfl, rfl⟩ := Prod.mk.inj (Option.some.inj h)
        rw [if_pos hstart, List.flatMap_singleton]
        exact Relation.ReflTransGen.refl
      · rw [if_neg hstart] at h
        obtain ⟨⟨rest, last'⟩, hrest, heq⟩ := Option.map_eq_some_iff.1 h
        obtain ⟨rfl, rfl⟩ := Prod.mk.inj heq
        rw [if_neg hstart, List.flatMap_cons, Kernel.paint_append]
        exact ih _ hrest

theorem reaches_lastTest (k : Kernel) :
    DrawReaches font fb (BootDraw.init k)
      ⟨.lastTest (lastLine font fb k.display.sb), k.paint (drawWrites font fb k.display.sb)⟩ := by
  have hrows : drawRows font fb k.display.sb maxLinesRemembered marginTop k.display.sb.topLine
      noLine = some ((drawVisits font fb k.display.sb).1, lastLine font fb k.display.sb) :=
    (Option.some_get _).symm
  have hwrites : drawWrites font fb k.display.sb =
      (List.range' 0 (u32 (fb.width * fb.height))).map (fun i => (i, background)) ++
        (drawVisits font fb k.display.sb).1.flatMap fun v => rowWrites font fb v.y v.chars := by
    rw [drawWrites, fbClear, List.range_eq_range', drawGlyphs, drawCalls]
    simp only [rowWrites, List.flatMap_assoc, List.map_flatMap, List.flatMap_map]
    rfl
  rw [hwrites, Kernel.paint_append]
  refine (reaches_fbClear k 0 _ (Nat.zero_add _)).trans (DrawReaches.head ?_)
  exact reaches_rows (k.paint _) hrows

/-- **Without traps, the statements of `main` redraw the scrollback.** -/
theorem reaches_draw (k : Kernel) :
    DrawReaches font fb (BootDraw.init k)
      ⟨.done, { k with display := scrollbackDraw font fb k.display }⟩ := by
  refine (reaches_lastTest k).trans (DrawReaches.head ?_)
  rw [BootDraw.mainStep_lastTest, Kernel.sb_paint]
  unfold scrollbackDraw
  by_cases hlast : lastLine font fb k.display.sb = k.display.sb.currLine
  · rw [if_pos hlast, if_pos hlast]
    exact DrawReaches.of_step rfl
  · rw [if_neg hlast, if_neg hlast]
    exact Relation.ReflTransGen.refl

theorem DrawReaches.exists_run {m m' : BootDraw} (h : DrawReaches font fb m m') :
    ∃ n, run (drawStep font fb) m (List.replicate n .main) = m' := by
  induction h using Relation.ReflTransGen.head_induction_on with
  | refl => exact ⟨0, rfl⟩
  | @head m m₁ hstep _ ih =>
    subst hstep
    obtain ⟨n, hn⟩ := ih
    exact ⟨n + 1, hn⟩

end

/-! ## What is typed does not depend on the view -/

/-- The states hold the same text, and agree on the shift keys. -/
structure SameTyping (s s' : Scrollback) : Prop where
  text : SameText s s'
  shift : s'.isShiftPressed = s.isShiftPressed

theorem SameTyping.refl (s : Scrollback) : SameTyping s s := ⟨SameText.refl s, rfl⟩

section

variable {s s' s'' : Scrollback}

theorem Scrollback.SameText.symm (h : SameText s s') : SameText s' s :=
  ⟨h.scrollbuffer.symm, h.start.symm, h.currLine.symm, h.currColumn.symm, h.stores.symm⟩

theorem SameTyping.trans (h : SameTyping s s') (h' : SameTyping s' s'') : SameTyping s s'' :=
  ⟨h.text.trans h'.text, h'.shift.trans h.shift⟩

theorem Scrollback.SameText.newLine (h : SameText s s') :
    SameText (scrollbackNewLine s) (scrollbackNewLine s') := by
  have hnext : s'.nextLine = s.nextLine := by
    rw [nextLine, nextLine, h.currLine]
  refine ⟨?_, ?_, ?_, ?_, ?_⟩
  · rw [newLine_scrollbuffer, newLine_scrollbuffer, hnext, h.scrollbuffer]
  · rw [newLine_start, newLine_start, startAfter, startAfter, hnext, h.start]
  · rw [newLine_currLine, newLine_currLine, hnext]
  · rw [newLine_currColumn, newLine_currColumn]
  · rw [newLine_stores, newLine_stores, hnext, h.stores]

theorem Scrollback.SameText.putColumn (h : SameText s s') (c : UInt8) :
    SameText (s.putColumn c) (s'.putColumn c) := by
  obtain ⟨hbuf, hstart, hline, hcol, hstores⟩ := h
  refine ⟨?_, hstart, hline, ?_, ?_⟩ <;>
    simp only [Scrollback.putColumn, Scrollback.store, hbuf, hline, hcol, hstores]

theorem Scrollback.SameText.deleteLast (h : SameText s s') (scancode : UInt8) :
    SameText (deleteLast scancode s).1 (deleteLast scancode s').1 := by
  unfold Marcelov.deleteLast
  rw [h.currColumn]
  by_cases hcol : s.currColumn = 0
  · rw [if_pos hcol, if_pos hcol]
    exact h
  · rw [if_neg hcol, if_neg hcol]
    obtain ⟨hbuf, hstart, hline, -, hstores⟩ := h
    refine ⟨?_, hstart, hline, ?_, ?_⟩ <;> simp only [Scrollback.store, hbuf, hline, hstores]

theorem Scrollback.SameText.wrapFull (h : SameText s s') : SameText s.wrapFull s'.wrapFull := by
  unfold Scrollback.wrapFull
  rw [h.currColumn]
  split_ifs
  exacts [h.newLine, h]

theorem Scrollback.SameText.wrapWide (h : SameText s s') (fb : FbGeometry) (lineWidth : ℕ) :
    SameText (s.wrapWide fb lineWidth) (s'.wrapWide fb lineWidth) := by
  unfold Scrollback.wrapWide
  split_ifs
  exacts [h.newLine, h]

theorem Scrollback.SameText.lineWidthWith_eq (h : SameText s s') (font : Font) (c : UInt8) :
    s'.lineWidthWith font c = s.lineWidthWith font c := by
  rw [lineWidthWith, lineWidthWith, currRow, currRow, h.scrollbuffer, h.currLine, h.currColumn]

theorem Scrollback.SameText.putchar (h : SameText s s') (font : Font) (fb : FbGeometry)
    (c : UInt8) :
    SameText (scrollbackPutchar font fb s c) (scrollbackPutchar font fb s' c) := by
  unfold scrollbackPutchar
  by_cases hc : c = 0
  · rw [if_pos hc, if_pos hc]
    exact h
  · rw [if_neg hc, if_neg hc]
    dsimp only
    rw [h.wrapFull.lineWidthWith_eq]
    exact (h.wrapFull.wrapWide fb _).putColumn c

theorem SameTyping.keyOps_eq (h : SameTyping s s') (scancode : UInt8) :
    keyOps s' scancode = keyOps s scancode := by
  rw [keyOps, keyOps, typedChar, typedChar, h.shift]
  unfold specialOps
  rw [h.text.currColumn]

end

section

variable {font : Font} {fb : FbGeometry} {d d' : Display}

theorem Scrollback.SameText.exec (h : SameText d.sb d'.sb) (op : Op) :
    SameText (op.exec font fb d).sb (op.exec font fb d').sb := by
  cases op <;> simp only [Op.exec, Op.edit]
  case putchar c => exact h.putchar font fb c
  case newLine => exact h.newLine
  case deleteLast => exact h.deleteLast 0x0e
  case moveUp =>
    exact (sameText_moveUp 0x48 d.sb).symm.trans (h.trans (sameText_moveUp 0x48 d'.sb))
  case moveDown =>
    exact (sameText_moveDown 0x50 d.sb).symm.trans (h.trans (sameText_moveDown 0x50 d'.sb))
  case toggleShift =>
    exact (sameText_toggleShift 0x2a d.sb).symm.trans (h.trans (sameText_toggleShift 0x2a d'.sb))
  case draw => exact (sameText_draw font fb d).symm.trans (h.trans (sameText_draw font fb d'))

/-- **A key types the same** in states that hold the same text, wherever their views are. -/
theorem SameTyping.key (h : SameTyping d.sb d'.sb) (scancode : UInt8) :
    SameTyping (keyboardProcessScancode font fb d scancode).sb
      (keyboardProcessScancode font fb d' scancode).sb := by
  refine ⟨?_, ?_⟩
  · rw [keyboardProcessScancode_eq, keyboardProcessScancode_eq, h.keyOps_eq]
    exact run_simulation (R := fun d d' : Display => SameText d.sb d'.sb) h.text
      (fun _ _ op h => h.exec op) _
  · rw [isShiftPressed_key, isShiftPressed_key, h.shift]

theorem SameTyping.runKeys (h : SameTyping d.sb d'.sb) (font : Font) (fb : FbGeometry)
    (scs : List UInt8) :
    SameTyping (runKeys font fb d scs).sb (runKeys font fb d' scs).sb :=
  run_simulation (R := fun d d' : Display => SameTyping d.sb d'.sb) h
    (fun _ _ scancode h => h.key scancode) scs

end

/-! ## What `main` and the traps do to the text -/

/-- The scancodes that the traps of a run bring. -/
def keysOf (events : List DrawEvent) : List UInt8 := Input.scancodes (inputsOf (trapsOf events))

section

variable {font : Font} {fb : FbGeometry} {m : BootDraw}

/-- What `main` is about to store to the canvas. -/
def DrawPc.nextStore (fb : FbGeometry) : DrawPc → Option (ℕ × Rgb)
  | .clear i => if i < u32 (fb.width * fb.height) then some (i, background) else none
  | .glyph (w :: _) _ _ _ _ _ => some (w.toWrite fb)
  | _ => none

/-- What a statement of `main` can do to the kernel. -/
inductive MainEffect (fb : FbGeometry) (m : BootDraw) : BootDraw → Prop where
  | goto (pc : DrawPc) : MainEffect fb m (m.goto pc)
  | paint (w : ℕ × Rgb) (hw : m.pc.nextStore fb = some w) (pc : DrawPc) :
    MainEffect fb m (m.paint w pc)
  | stick (pc : DrawPc) : MainEffect fb m (m.stick pc)

theorem mainEffect (font : Font) (fb : FbGeometry) (m : BootDraw) :
    MainEffect fb m (m.mainStep font fb) := by
  obtain ⟨pc, k⟩ := m
  cases pc with
  | clear i =>
    unfold BootDraw.mainStep
    dsimp only
    split_ifs with hi
    · have hw : DrawPc.nextStore fb (.clear i) = some (i, background) := if_pos hi
      exact .paint _ hw _
    · exact .goto _
  | column y line i x =>
    unfold BootDraw.mainStep
    dsimp only
    split_ifs <;> exact .goto _
  | glyph stores c y line i x =>
    cases stores with
    | nil => exact .goto _
    | cons w stores => exact .paint _ rfl _
  | stickySet => exact .stick _
  | _ => exact .goto _

/-- A statement of `main` leaves the text alone. -/
theorem MainEffect.sameTyping {m' : BootDraw} (h : MainEffect fb m m') :
    SameTyping m.kernel.display.sb m'.kernel.display.sb := by
  cases h with
  | stick pc => exact ⟨⟨rfl, rfl, rfl, rfl, rfl⟩, rfl⟩
  | _ => exact SameTyping.refl _

theorem MainEffect.plic {m' : BootDraw} (h : MainEffect fb m m') :
    m'.kernel.plic = m.kernel.plic := by
  cases h <;> rfl

theorem MainEffect.mouse {m' : BootDraw} (h : MainEffect fb m m') :
    m'.kernel.mouse = m.kernel.mouse := by
  cases h <;> rfl

theorem keysOf_trap (t : Trap) (events : List DrawEvent) :
    keysOf (.trap t :: events) = Input.scancodes t.input.toList ++ keysOf events := by
  have hinputs : inputsOf (t :: trapsOf events) = t.input.toList ++ inputsOf (trapsOf events) := by
    unfold inputsOf
    rw [List.filterMap_cons]
    cases t.input <;> rfl
  show Input.scancodes (inputsOf (t :: trapsOf events)) = _
  rw [hinputs]
  exact List.filterMap_append

/-- **The text is the user's.** Whatever comes between the statements of `main`, the scrollback
holds what the keys alone put in it. -/
theorem sameTyping_run {d : Display} (h : SameTyping d.sb m.kernel.display.sb)
    (hr : Routed m.kernel.plic) (events : List DrawEvent) :
    SameTyping (runKeys font fb d (keysOf events)).sb
      (run (drawStep font fb) m events).kernel.display.sb := by
  induction events generalizing m d with
  | nil => exact h
  | cons event events ih =>
    cases event with
    | main =>
      have heffect := mainEffect font fb m
      exact ih (h.trans heffect.sameTyping) (heffect.plic ▸ hr)
    | trap t =>
      obtain ⟨hdevices, hplic, -⟩ := trapStep font fb hr t
      obtain ⟨hsb, -⟩ := inputs_project font fb (m.kernel.display, m.kernel.mouse) t.input.toList
      rw [← hdevices] at hsb
      have hkeys := h.runKeys font fb (Input.scancodes t.input.toList)
      rw [keysOf_trap, Marcelov.runKeys, run_append]
      refine ih ?_ (hplic ▸ hr)
      rw [drawStep]
      dsimp only
      rw [hsb]
      exact hkeys

end

end Marcelov
