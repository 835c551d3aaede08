import Marcelov.Keyboard

/-!
# The screen is never stale

What a redraw reads (`SameImage`), that redrawing twice is redrawing once (`draw_idem`), and
that a handler which asks for no redraw changes nothing a redraw reads (`quiet_key`). Together:
after any sequence of scancodes the screen is what a redraw would make of it
(`screen_never_stale`).
-/

namespace Marcelov

open Lib

/-! ## What a redraw reads -/

/-- The states agree on what the stores of a redraw depend on. -/
structure SameImage (s s' : Scrollback) : Prop where
  scrollbuffer : s'.scrollbuffer = s.scrollbuffer
  topLine : s'.topLine = s.topLine
  start : s'.start = s.start

section

variable {s s' : Scrollback} (font : Font) (fb : FbGeometry)

theorem SameImage.drawVisits_eq (h : SameImage s s') :
    drawVisits font fb s' = drawVisits font fb s := by
  have hrows : s'.drawnRows fb = s.drawnRows fb := by
    rw [Scrollback.drawnRows, Scrollback.drawnRows, h.topLine, h.start]
  have hvisit : s'.rowVisit font fb = s.rowVisit font fb := by
    funext r line
    rw [Scrollback.rowVisit, Scrollback.rowVisit, h.scrollbuffer]
  rw [Marcelov.drawVisits_eq, Marcelov.drawVisits_eq, hrows, hvisit, h.topLine]

theorem SameImage.drawWrites_eq (h : SameImage s s') :
    drawWrites font fb s' = drawWrites font fb s := by
  rw [drawWrites, drawWrites, drawGlyphs, drawGlyphs, drawCalls, drawCalls, h.drawVisits_eq]

theorem SameImage.lastLine_eq (h : SameImage s s') : lastLine font fb s' = lastLine font fb s := by
  rw [lastLine, lastLine, h.drawVisits_eq]

end

section

variable {font : Font} {fb : FbGeometry}

theorem sameImage_draw (font : Font) (fb : FbGeometry) (d : Display) :
    SameImage d.sb (scrollbackDraw font fb d).sb := by
  unfold scrollbackDraw
  dsimp only
  split_ifs <;> exact ⟨rfl, rfl, rfl⟩

theorem draw_currLine (d : Display) : (scrollbackDraw font fb d).sb.currLine = d.sb.currLine :=
  (sameText_draw font fb d).currLine

/-- A redraw changes nothing exactly when its stores are already on the canvas and the sticky
flag is already set where it would set it. -/
theorem draw_eq_self_iff {d : Display} :
    scrollbackDraw font fb d = d ↔
      applyWrites (drawWrites font fb d.sb) d.canvas = d.canvas ∧
        (lastLine font fb d.sb = d.sb.currLine → d.sb.scrollsOnNewLine = true) := by
  constructor
  · intro h
    refine ⟨congrArg Display.canvas h, fun hlast => ?_⟩
    have hsb := congrArg Display.sb h
    rw [← hsb, scrollbackDraw]
    dsimp only
    rw [if_pos hlast]
  · rintro ⟨hcanvas, hsticky⟩
    unfold scrollbackDraw
    rw [hcanvas]
    by_cases hlast : lastLine font fb d.sb = d.sb.currLine
    · rw [if_pos hlast, ← hsticky hlast]
    · rw [if_neg hlast]

/-- **Redrawing twice is redrawing once.** -/
theorem draw_idem (d : Display) :
    scrollbackDraw font fb (scrollbackDraw font fb d) = scrollbackDraw font fb d := by
  have himage := sameImage_draw font fb d
  rw [draw_eq_self_iff, himage.drawWrites_eq, himage.lastLine_eq, draw_currLine]
  refine ⟨applyWrites_idem _ _, fun hlast => ?_⟩
  unfold scrollbackDraw
  dsimp only
  rw [if_pos hlast]

/-! ## Handlers that ask for no redraw -/

theorem quiet_deleteLast (scancode : UInt8) {s : Scrollback}
    (h : (deleteLast scancode s).2 = false) : (deleteLast scancode s).1 = s := by
  unfold deleteLast at h ⊢
  by_cases hcol : s.currColumn = 0
  · rw [if_pos hcol]
  · rw [if_neg hcol] at h
    cases h

/-- **A key that asks for no redraw** changes nothing but `is_shift_pressed`. -/
theorem quiet_key {s : Scrollback} {scancode : UInt8}
    (h : (handleScancode font fb s scancode).2 = false) :
    ∃ b, (handleScancode font fb s scancode).1 = { s with isShiftPressed := b } := by
  have heffect := keyEffect_handleScancode font fb s scancode
  generalize handleScancode font fb s scancode = r at h heffect ⊢
  cases heffect with
  | typed => cases h
  | ignored => exact ⟨s.isShiftPressed, rfl⟩
  | toggleShift => exact ⟨!s.isShiftPressed, rfl⟩
  | moveDown => cases h
  | moveUp => cases h
  | newLine => cases h
  | deleteLast => exact ⟨s.isShiftPressed, quiet_deleteLast scancode h⟩

theorem draw_eq_self_of_shift {d : Display} (h : scrollbackDraw font fb d = d) (b : Bool) :
    scrollbackDraw font fb { d with sb := { d.sb with isShiftPressed := b } } =
      { d with sb := { d.sb with isShiftPressed := b } } := by
  have himage : SameImage d.sb { d.sb with isShiftPressed := b } := ⟨rfl, rfl, rfl⟩
  rw [draw_eq_self_iff] at h ⊢
  rw [himage.drawWrites_eq, himage.lastLine_eq]
  exact h

theorem draw_eq_self_of_key {d : Display} (h : scrollbackDraw font fb d = d) (scancode : UInt8) :
    scrollbackDraw font fb (keyboardProcessScancode font fb d scancode) =
      keyboardProcessScancode font fb d scancode := by
  have hquiet : (handleScancode font fb d.sb scancode).2 = false →
      ∃ b, (handleScancode font fb d.sb scancode).1 = { d.sb with isShiftPressed := b } := quiet_key
  unfold keyboardProcessScancode
  cases hr : handleScancode font fb d.sb scancode with
  | mk sb redraw =>
    rw [hr] at hquiet
    cases redraw with
    | true => exact draw_idem { d with sb := sb }
    | false =>
      obtain ⟨b, rfl⟩ := hquiet rfl
      exact draw_eq_self_of_shift h b

/-! ## The canvas before a redraw -/

/-- A redraw writes every pixel of the framebuffer, so it shows nothing of what was there. -/
theorem draw_canvas_eq {i : ℕ} (hi : i < u32 (fb.width * fb.height)) (s : Scrollback)
    (canvas canvas' : ℕ → Rgb) :
    (scrollbackDraw font fb ⟨s, canvas⟩).canvas i =
      (scrollbackDraw font fb ⟨s, canvas'⟩).canvas i := by
  refine applyWrites_congr (Or.inl ?_)
  exact ⟨(i, ⟨69, 69, 170, 0⟩), List.mem_append_left _ (mem_fbClear.2 ⟨hi, rfl⟩), rfl⟩

end

/-- **The screen is never stale.** From a state reached by a run and just redrawn, and after any
sequence of scancodes: redrawing changes neither the canvas nor a variable, the pixels of the
framebuffer are those a redraw makes on a canvas of any content, and a key that asks for no
redraw changes nothing but `is_shift_pressed`. -/
theorem screen_never_stale (font : Font) (fb : FbGeometry) (canvas : ℕ → Rgb) (ops : List Op)
    (scs : List UInt8) :
    let d := runKeys font fb
      (scrollbackDraw font fb (runOps font fb (Display.init canvas) ops)) scs
    scrollbackDraw font fb d = d ∧
      (∀ canvas' : ℕ → Rgb, ∀ i < u32 (fb.width * fb.height),
        d.canvas i = (scrollbackDraw font fb ⟨d.sb, canvas'⟩).canvas i) ∧
      ∀ scancode, (handleScancode font fb d.sb scancode).2 = false →
        ∃ b, (handleScancode font fb d.sb scancode).1 = { d.sb with isShiftPressed := b } := by
  intro d
  have hfresh : scrollbackDraw font fb d = d :=
    run_invariant (I := fun d => scrollbackDraw font fb d = d) (draw_idem _)
      (fun _ scancode h => draw_eq_self_of_key h scancode) scs
  refine ⟨hfresh, fun canvas' i hi => ?_, fun _ h => quiet_key h⟩
  conv_lhs => rw [← hfresh]
  exact draw_canvas_eq hi d.sb d.canvas canvas'

end Marcelov
