import Marcelov.Keyboard
import Marcelov.Rows

/-!
# The view

Where `scrollbuffer_top_line` may be, and what the rows drawn from it show. Everything is
counted in steps along the ring: `gap` from `scrollbuffer_start` to the top line or to
`curr_line`, and `drawnRows` rows from the top line on.

* `topLine_retained_iff` — the top of the view is a line in use, in every state of a run,
  exactly when no key scrolls past the newest line;
* `sticky_exact` — the sticky flag says that the last row drawn is `curr_line`;
* `currLine_stays_drawn` — typing never pushes `curr_line` off the screen.
-/

namespace Marcelov

open Lib

/-! ## The top line among the lines in use -/

theorem topLine_mem_retained_iff (s : Scrollback) :
    s.topLine ∈ s.retained ↔
      gap maxLinesRemembered s.start s.topLine ≤ gap maxLinesRemembered s.start s.currLine :=
  mem_arc_iff s.start_lt s.topLine_lt

/-- A scroll key does not scroll past the newest line: the view does not start there, or the
ring is full and `scrollbuffer_scroll_down` stops. -/
def NotPastEnd (d : Display) (op : Op) : Prop :=
  op = .moveDown → d.sb.topLine = d.sb.currLine → d.sb.nextLine = d.sb.start

namespace Scrollback

variable {s s' : Scrollback}

theorem SameView.retained_iff (h : SameView s s') :
    s'.topLine ∈ s'.retained ↔ s.topLine ∈ s.retained := by
  rw [Scrollback.retained, Scrollback.retained, h.topLine, h.start, h.currLine]

theorem gap_nextLine (h : s.nextLine ≠ s.start) :
    gap maxLinesRemembered s.start s.nextLine =
      gap maxLinesRemembered s.start s.currLine + 1 := gap_succ s.start_lt s.currLine_lt h

theorem gap_newLine_of_full (h : s.nextLine = s.start) :
    gap maxLinesRemembered s.startAfter s.nextLine + 1 = maxLinesRemembered := by
  rw [startAfter, if_pos h, h]
  exact lap_self s.start_lt

theorem newLine_retained (h : s.topLine ∈ s.retained) :
    (scrollbackNewLine s).topLine ∈ (scrollbackNewLine s).retained := by
  have hN : 0 < maxLinesRemembered := by decide
  rw [topLine_mem_retained_iff] at h ⊢
  rw [newLine_start, newLine_topLine, newLine_currLine]
  by_cases hfull : s.nextLine = s.start
  · have hcurr := gap_newLine_of_full hfull
    have hlt := gap_lt hN s.startAfter s.topLineAfter
    omega
  · have hstart : s.startAfter = s.start := if_neg hfull
    have hcurr := gap_nextLine hfull
    have htop : s.nextLine ≠ s.topLine := by
      intro heq
      rw [heq] at hcurr
      omega
    rw [hstart, hcurr, topLineAfter, if_neg htop, hstart]
    split_ifs with hscroll
    · rw [gap_succ s.start_lt s.topLine_lt hscroll.2]
      omega
    · omega

/-- Scrolling down keeps the top of the view on a line in use exactly when it does not start
at the newest one, or cannot move. -/
theorem scrollDown_retained_iff (h : s.topLine ∈ s.retained) :
    s.scrollDown.topLine ∈ s.scrollDown.retained ↔
      (s.topLine = s.currLine → s.nextLine = s.start) := by
  unfold scrollDown
  by_cases hstop : (s.topLine + 1) % maxLinesRemembered = s.start
  · rw [if_pos hstop]
    refine iff_of_true h fun heq => ?_
    rw [nextLine, ← heq, hstop]
  · rw [if_neg hstop]
    rw [topLine_mem_retained_iff] at h ⊢
    have hgap : gap maxLinesRemembered s.topLineDown.start s.topLineDown.topLine =
        gap maxLinesRemembered s.start s.topLine + 1 := gap_succ s.start_lt s.topLine_lt hstop
    have hcurr : gap maxLinesRemembered s.topLineDown.start s.topLineDown.currLine =
        gap maxLinesRemembered s.start s.currLine := rfl
    rw [hgap, hcurr]
    constructor
    · intro hle heq
      rw [heq] at hle
      omega
    · intro hmove
      have hne : s.topLine ≠ s.currLine := by
        intro heq
        have hnext := hmove heq
        rw [nextLine, ← heq] at hnext
        exact hstop hnext
      have hgne : gap maxLinesRemembered s.start s.topLine ≠
          gap maxLinesRemembered s.start s.currLine := fun heq =>
        hne (eq_of_gap_eq s.start_lt s.topLine_lt s.currLine_lt heq)
      omega

theorem scrollUp_retained (h : s.topLine ∈ s.retained) :
    s.scrollUp.topLine ∈ s.scrollUp.retained := by
  unfold scrollUp
  split_ifs with hstop
  · exact h
  · rw [topLine_mem_retained_iff] at h ⊢
    dsimp only
    rw [gap_pred s.start_lt s.topLine_lt (Ne.symm hstop)]
    omega

theorem putchar_retained (font : Font) (fb : FbGeometry) (c : UInt8)
    (h : s.topLine ∈ s.retained) :
    (scrollbackPutchar font fb s c).topLine ∈ (scrollbackPutchar font fb s c).retained :=
  scrollbackPutchar_invariant (I := fun s => s.topLine ∈ s.retained) h
    (fun _ h => newLine_retained h)
    fun _ s h => (sameView_putColumn s c).retained_iff.2 h

end Scrollback

/-- **One operation** keeps the top of the view on a line in use exactly when it is not a
scroll past the newest line. -/
theorem exec_retained_iff (font : Font) (fb : FbGeometry) (d : Display) (op : Op)
    (h : d.sb.topLine ∈ d.sb.retained) :
    (op.exec font fb d).sb.topLine ∈ (op.exec font fb d).sb.retained ↔ NotPastEnd d op := by
  unfold NotPastEnd
  cases op <;> simp only [Op.exec, Op.edit, reduceCtorEq, false_implies, true_implies, iff_true]
  case putchar c => exact Scrollback.putchar_retained font fb c h
  case newLine => exact Scrollback.newLine_retained h
  case deleteLast => exact (Scrollback.sameView_deleteLast 0x0e d.sb).retained_iff.2 h
  case moveUp => exact Scrollback.scrollUp_retained h
  case moveDown => exact Scrollback.scrollDown_retained_iff h
  case toggleShift => exact (Scrollback.sameView_toggleShift 0x2a d.sb).retained_iff.2 h
  case draw =>
    unfold scrollbackDraw
    dsimp only
    split_ifs <;> exact h

/-- **The view stays on lines in use, exactly when no key scrolls past the newest line.** In a
run from the zero-initialised state, the top line lies between `scrollbuffer_start` and
`curr_line` in every state reached if and only if each `move_down` is handled in a state whose
view does not start at `curr_line`, unless the ring is full there. -/
theorem topLine_retained_iff (font : Font) (fb : FbGeometry) (canvas : ℕ → Rgb) (ops : List Op) :
    (∀ pre, pre <+: ops →
        (runOps font fb (Display.init canvas) pre).sb.topLine ∈
          (runOps font fb (Display.init canvas) pre).sb.retained) ↔
      Guarded (Op.exec font fb) NotPastEnd (Display.init canvas) ops :=
  always_iff_guarded (I := fun d : Display => d.sb.topLine ∈ d.sb.retained)
    (by show Scrollback.init.topLine ∈ Scrollback.init.retained; decide)
    (fun d op h => exec_retained_iff font fb d op h) ops

/-- One press of the down key in the initial state shows row 1, which holds no line. -/
theorem moveDown_leaves_retained :
    let d := runOps .monaco mainFb (Display.init fun _ => black) [.moveDown]
    d.sb.topLine ∉ d.sb.retained := by
  decide

/-! ## The current line on the screen -/

namespace Scrollback

/-- The row of the screen, counted from the top line, where `curr_line` is or would be. -/
def currScreenRow (s : Scrollback) : ℕ := gap maxLinesRemembered s.topLine s.currLine

theorem currLine_mem_drawnLines (font : Font) (fb : FbGeometry) (s : Scrollback) :
    s.currLine ∈ drawnLines font fb s ↔ s.currScreenRow < s.drawnRows fb := by
  rw [drawnLines_eq, List.mem_map]
  constructor
  · rintro ⟨r, hr, hline⟩
    have hlt : r < s.drawnRows fb := List.mem_range.1 hr
    rw [currScreenRow, ← hline, gap_fwd s.topLine_lt (hlt.trans_le (drawnRows_le fb s))]
    exact hlt
  · intro h
    exact ⟨s.currScreenRow, List.mem_range.2 h, fwd_gap s.topLine_lt s.currLine_lt⟩

theorem lastLine_eq_currLine (font : Font) (fb : FbGeometry) (s : Scrollback) :
    lastLine font fb s = s.currLine ↔ s.currScreenRow + 1 = s.drawnRows fb := by
  have hle := drawnRows_le fb s
  rw [lastLine, drawVisits_eq]
  dsimp only
  by_cases hz : s.drawnRows fb = 0
  · -- no row was drawn, and `last_line` is still -1
    have hcurr : s.currLine < 1024 := s.currLine_lt
    rw [if_pos hz, hz]
    refine iff_of_false ?_ (Nat.succ_ne_zero _)
    unfold noLine
    omega
  · rw [if_neg hz, currScreenRow]
    constructor
    · intro hlast
      rw [← hlast, gap_fwd s.topLine_lt (by omega)]
      omega
    · intro hrow
      rw [← hrow, Nat.add_sub_cancel, fwd_gap s.topLine_lt s.currLine_lt]

/-- While the view follows the text, a new line moves the top line one step. -/
theorem topLineAfter_of_last {s : Scrollback} {fb : FbGeometry} (hs : s.scrollsOnNewLine = true)
    (h : s.currScreenRow + 1 = s.drawnRows fb) :
    s.topLineAfter = (s.topLine + 1) % maxLinesRemembered := by
  have hN : 0 < maxLinesRemembered := by decide
  unfold topLineAfter
  by_cases htop : s.nextLine = s.topLine
  · rw [if_pos htop]
  · have hmove : (s.topLine + 1) % maxLinesRemembered ≠ s.startAfter := by
      intro hstop
      unfold startAfter at hstop
      split_ifs at hstop with hfull
      · -- both ends moved, so the top line was `start`, which is the new `curr_line`
        have hgap := gap_succ_succ s.topLine_lt s.start_lt
        rw [hstop, gap_self (nextLine_lt _)] at hgap
        exact htop (hfull.trans ((gap_eq_zero_iff s.topLine_lt s.start_lt).1 hgap.symm).symm)
      · -- the top line is the only one drawn, so it is `curr_line`
        have hlap := (lap_eq_one_iff hN s.start_lt).2 hstop
        have hrow : gap maxLinesRemembered s.topLine s.currLine = 0 := by
          unfold currScreenRow drawnRows at h
          omega
        have hcurr := (gap_eq_zero_iff s.topLine_lt s.currLine_lt).1 hrow
        exact hfull (by rw [nextLine, ← hcurr, hstop])
    rw [if_neg htop, if_pos ⟨hs, hmove⟩]

theorem newLine_last {s : Scrollback} {fb : FbGeometry} (hs : s.scrollsOnNewLine = true)
    (h : s.currScreenRow + 1 = s.drawnRows fb) :
    (scrollbackNewLine s).currScreenRow + 1 = (scrollbackNewLine s).drawnRows fb := by
  have hN : 0 < maxLinesRemembered := by decide
  have htop := topLineAfter_of_last hs h
  have hrow : (scrollbackNewLine s).currScreenRow = s.currScreenRow := by
    rw [currScreenRow, newLine_topLine, newLine_currLine, htop]
    exact gap_succ_succ s.topLine_lt s.currLine_lt
  rw [hrow, h, drawnRows, drawnRows, newLine_topLine, newLine_start, htop, startAfter]
  by_cases hfull : s.nextLine = s.start
  · rw [if_pos hfull, lap_succ_succ hN s.start_lt]
  · -- the text ends before `start`: it is the screen that bounds the rows drawn
    have hlap : s.currScreenRow + 1 ≠ lap maxLinesRemembered s.topLine s.start := by
      intro heq
      have hend := fwd_lap (a := s.topLine) hN s.start_lt
      rw [← heq, ← fwd_succ, currScreenRow, fwd_gap s.topLine_lt s.currLine_lt] at hend
      exact hfull hend
    have hstop : (s.topLine + 1) % maxLinesRemembered ≠ s.start := by
      intro heq
      have hone := (lap_eq_one_iff hN s.start_lt).2 heq
      unfold drawnRows at h
      omega
    have hshort := lap_succ hN s.start_lt hstop
    rw [if_neg hfull]
    unfold drawnRows at h
    omega

/-- The sticky flag, when set, says that `curr_line` is in the last row drawn. -/
def StickyLast (fb : FbGeometry) (s : Scrollback) : Prop :=
  s.scrollsOnNewLine = true → s.currScreenRow + 1 = s.drawnRows fb

theorem SameView.currScreenRow_eq {s s' : Scrollback} (h : SameView s s') :
    s'.currScreenRow = s.currScreenRow := by
  rw [currScreenRow, currScreenRow, h.topLine, h.currLine]

theorem SameView.drawnRows_eq {s s' : Scrollback} (h : SameView s s') (fb : FbGeometry) :
    s'.drawnRows fb = s.drawnRows fb := by
  rw [drawnRows, drawnRows, h.topLine, h.start]

theorem SameView.stickyLast {s s' : Scrollback} {fb : FbGeometry} (h : SameView s s')
    (hs : StickyLast fb s) : StickyLast fb s' := by
  unfold StickyLast
  rw [h.scrollsOnNewLine, h.currScreenRow_eq, h.drawnRows_eq]
  exact hs

theorem StickyLast.newLine {s : Scrollback} {fb : FbGeometry} (h : StickyLast fb s) :
    StickyLast fb (scrollbackNewLine s) := by
  intro hs
  rw [newLine_scrollsOnNewLine] at hs
  exact newLine_last hs (h hs)

end Scrollback

open Scrollback

theorem draw_sticky_iff (font : Font) {fb : FbGeometry} {d : Display}
    (h : StickyLast fb d.sb) :
    (scrollbackDraw font fb d).sb.scrollsOnNewLine = true ↔
      lastLine font fb d.sb = d.sb.currLine := by
  unfold scrollbackDraw
  dsimp only
  split_ifs with hlast
  · exact iff_of_true rfl hlast
  · exact iff_of_false (fun hs => hlast ((lastLine_eq_currLine font fb d.sb).2 (h hs))) hlast

theorem stickyLast_exec {font : Font} {fb : FbGeometry} {d : Display} (h : StickyLast fb d.sb)
    (op : Op) : StickyLast fb (op.exec font fb d).sb := by
  cases op <;> simp only [Op.exec, Op.edit]
  case putchar c =>
    exact scrollbackPutchar_invariant (I := StickyLast fb) h (fun _ h => h.newLine)
      fun _ s h => (sameView_putColumn s c).stickyLast h
  case newLine => exact h.newLine
  case deleteLast => exact (sameView_deleteLast 0x0e d.sb).stickyLast h
  case moveUp => exact fun hs => absurd hs (by simp [moveUp])
  case moveDown => exact fun hs => absurd hs (by simp [moveDown])
  case toggleShift => exact (sameView_toggleShift 0x2a d.sb).stickyLast h
  case draw =>
    intro hs
    have hlast := (lastLine_eq_currLine font fb d.sb).1 ((draw_sticky_iff font h).1 hs)
    unfold scrollbackDraw
    dsimp only
    split_ifs <;> exact hlast

theorem stickyLast_runOps (font : Font) (fb : FbGeometry) (canvas : ℕ → Rgb) (ops : List Op) :
    StickyLast fb (runOps font fb (Display.init canvas) ops).sb :=
  run_invariant (I := fun d : Display => StickyLast fb d.sb)
    (fun hs => absurd hs (by simp [Display.init, Scrollback.init]))
    (fun _ op h => stickyLast_exec h op) ops

/-- **The sticky flag is exact.** In every state of a run, a set flag says that the last row a
redraw would draw is `curr_line`; and after a redraw the flag is set if and only if it is. -/
theorem sticky_exact (font : Font) (fb : FbGeometry) (canvas : ℕ → Rgb) (ops : List Op) :
    let d := runOps font fb (Display.init canvas) ops
    (d.sb.scrollsOnNewLine = true → lastLine font fb d.sb = d.sb.currLine) ∧
      ((scrollbackDraw font fb d).sb.scrollsOnNewLine = true ↔
        lastLine font fb d.sb = d.sb.currLine) := by
  intro d
  have h : StickyLast fb d.sb := stickyLast_runOps font fb canvas ops
  exact ⟨fun hs => (lastLine_eq_currLine font fb d.sb).2 (h hs), draw_sticky_iff font h⟩

/-! ## Typing -/

namespace Scrollback

/-- `curr_line` is on the screen, and in the last row drawn if the view follows the text. -/
structure Shown (fb : FbGeometry) (s : Scrollback) : Prop where
  drawn : s.currScreenRow < s.drawnRows fb
  sticky : StickyLast fb s

/-- `curr_line` is on the screen, and the view follows the text exactly when it is in the last
row drawn. This is what a redraw establishes. -/
structure Following (fb : FbGeometry) (s : Scrollback) : Prop where
  drawn : s.currScreenRow < s.drawnRows fb
  sticky_iff : s.scrollsOnNewLine = true ↔ s.currScreenRow + 1 = s.drawnRows fb

variable {s s' : Scrollback} {fb : FbGeometry}

theorem Following.shown (h : Following fb s) : Shown fb s := ⟨h.drawn, h.sticky_iff.1⟩

theorem Following.congr (h : Following fb s) (hv : SameView s s') : Following fb s' := by
  refine ⟨?_, ?_⟩
  · rw [hv.currScreenRow_eq, hv.drawnRows_eq]
    exact h.drawn
  · rw [hv.scrollsOnNewLine, hv.currScreenRow_eq, hv.drawnRows_eq]
    exact h.sticky_iff

theorem Shown.congr (h : Shown fb s) (hv : SameView s s') : Shown fb s' := by
  refine ⟨?_, hv.stickyLast h.sticky⟩
  rw [hv.currScreenRow_eq, hv.drawnRows_eq]
  exact h.drawn

/-- Above the last row drawn, a new line goes to the next row and moves nothing else. -/
theorem newLine_above_last (h : s.currScreenRow + 1 < s.drawnRows fb)
    (hs : s.scrollsOnNewLine = false) :
    (scrollbackNewLine s).currScreenRow = s.currScreenRow + 1 ∧
      (scrollbackNewLine s).drawnRows fb = s.drawnRows fb := by
  have hlap : s.currScreenRow + 1 < lap maxLinesRemembered s.topLine s.start :=
    h.trans_le (min_le_right _ _)
  have hnext : s.nextLine = fwd maxLinesRemembered s.topLine (s.currScreenRow + 1) := by
    rw [← fwd_succ, currScreenRow, fwd_gap s.topLine_lt s.currLine_lt]
    rfl
  have hrow : gap maxLinesRemembered s.topLine s.nextLine = s.currScreenRow + 1 := by
    rw [hnext, gap_fwd s.topLine_lt (hlap.trans_le (lap_le (by decide) _ _))]
  have hstart : s.nextLine ≠ s.start := by
    rw [hnext]
    exact fwd_ne_of_lt_lap s.topLine_lt s.start_lt (Nat.succ_ne_zero _) hlap
  have htop : s.nextLine ≠ s.topLine := by
    intro heq
    rw [heq, gap_self s.topLine_lt] at hrow
    exact Nat.succ_ne_zero _ hrow.symm
  have htopAfter : s.topLineAfter = s.topLine := by simp [topLineAfter, htop, hs]
  refine ⟨?_, ?_⟩
  · rw [currScreenRow, newLine_topLine, newLine_currLine, htopAfter, hrow]
  · rw [drawnRows, drawnRows, newLine_topLine, newLine_start, htopAfter, startAfter, if_neg hstart]

theorem Following.newLine (h : Following fb s) : Shown fb (scrollbackNewLine s) := by
  have hdrawn := h.drawn
  by_cases hlast : s.currScreenRow + 1 = s.drawnRows fb
  · have hrow := newLine_last (h.sticky_iff.2 hlast) hlast
    exact ⟨by omega, fun _ => hrow⟩
  · have hs : s.scrollsOnNewLine = false := Bool.eq_false_iff.2 (h.sticky_iff.not.2 hlast)
    have hlt : s.currScreenRow + 1 < s.drawnRows fb := by omega
    obtain ⟨hrow, hrows⟩ := newLine_above_last hlt hs
    refine ⟨by omega, fun hs' => ?_⟩
    rw [newLine_scrollsOnNewLine, hs] at hs'
    cases hs'

/-- When a single character fits on a line, at most one of the two tests of
`scrollback_putchar` starts a new line. -/
theorem putchar_newLine_once {font : Font} {c : UInt8} (hc : c ≠ 0)
    (hfits : 30 + font.charWidth c < fb.width) (s : Scrollback) :
    ∃ s', (s' = s ∨ s' = scrollbackNewLine s) ∧ scrollbackPutchar font fb s c = s'.putColumn c := by
  rw [scrollbackPutchar, if_neg hc]
  refine ⟨_, ?_, rfl⟩
  unfold wrapFull
  by_cases hfull : maxLineLen ≤ s.currColumn
  · -- the line is new and empty, so it is not too wide
    have hwidth : (scrollbackNewLine s).lineWidthWith font c = 30 + font.charWidth c := by
      have hchar := font.charWidth_lt c
      rw [lineWidthWith, newLine_currColumn, fbMeasureLineWidth, fbMeasureLineWidthLoop,
        fbMeasureChar, u32_of_lt (by simp only [marginLeft, marginRight]; omega)]
      simp only [marginLeft, marginRight]
      omega
    rw [if_pos hfull, wrapWide, hwidth, if_neg (Nat.not_le.2 hfits)]
    exact Or.inr rfl
  · rw [if_neg hfull, wrapWide]
    split_ifs
    exacts [Or.inr rfl, Or.inl rfl]

theorem Following.putchar {font : Font} {c : UInt8} (h : Following fb s)
    (hfits : 30 + font.charWidth c < fb.width) : Shown fb (scrollbackPutchar font fb s c) := by
  by_cases hc : c = 0
  · rw [scrollbackPutchar, if_pos hc]
    exact h.shown
  · obtain ⟨s', rfl | rfl, heq⟩ := putchar_newLine_once hc hfits s
    · rw [heq]
      exact h.shown.congr (sameView_putColumn _ c)
    · rw [heq]
      exact h.newLine.congr (sameView_putColumn _ c)

end Scrollback

theorem following_handleScancode {font : Font} {fb : FbGeometry} {s : Scrollback}
    (hfits : ∀ c : UInt8, c.toNat < 128 → 30 + font.charWidth c < fb.width) {scancode : UInt8}
    (hup : scancode ≠ 0x48) (hdown : scancode ≠ 0x50) (h : Following fb s) :
    Shown fb (handleScancode font fb s scancode).1 ∧
      ((handleScancode font fb s scancode).2 = false →
        Following fb (handleScancode font fb s scancode).1) := by
  have heffect := keyEffect_handleScancode font fb s scancode
  generalize handleScancode font fb s scancode = r at heffect ⊢
  cases heffect with
  | typed hmain =>
    have htyped := typedChar_bounds (s := s) hmain
    exact ⟨h.putchar (hfits _ (by omega)), fun hf => absurd hf (by simp)⟩
  | ignored hmain hidx => exact ⟨h.shown, fun _ => h⟩
  | toggleShift hmain hidx =>
    have hshift := h.congr (sameView_toggleShift scancode s)
    exact ⟨hshift.shown, fun _ => hshift⟩
  | moveDown hmain hidx => exact absurd hidx (scroll_key hup hdown hmain).2
  | moveUp hmain hidx => exact absurd hidx (scroll_key hup hdown hmain).1
  | newLine hmain hidx =>
    dsimp only
    exact ⟨h.newLine, fun hf => absurd hf (by simp)⟩
  | deleteLast hmain hidx =>
    have hdelete := h.congr (sameView_deleteLast scancode s)
    exact ⟨hdelete.shown, fun _ => hdelete⟩

/-- A redraw that finds `curr_line` on the screen sets the flag exactly. -/
theorem following_draw {font : Font} {fb : FbGeometry} {d : Display} (h : Shown fb d.sb) :
    Following fb (scrollbackDraw font fb d).sb := by
  have hiff := (draw_sticky_iff font h.sticky).trans (lastLine_eq_currLine font fb d.sb)
  have hview : (scrollbackDraw font fb d).sb.currScreenRow = d.sb.currScreenRow ∧
      (scrollbackDraw font fb d).sb.drawnRows fb = d.sb.drawnRows fb := by
    unfold scrollbackDraw
    dsimp only
    split_ifs <;> exact ⟨rfl, rfl⟩
  refine ⟨?_, ?_⟩
  · rw [hview.1, hview.2]
    exact h.drawn
  · rw [hview.1, hview.2]
    exact hiff

theorem following_key {font : Font} {fb : FbGeometry} {d : Display}
    (hfits : ∀ c : UInt8, c.toNat < 128 → 30 + font.charWidth c < fb.width) {scancode : UInt8}
    (hup : scancode ≠ 0x48) (hdown : scancode ≠ 0x50) (h : Following fb d.sb) :
    Following fb (keyboardProcessScancode font fb d scancode).sb := by
  obtain ⟨hshown, hquiet⟩ := following_handleScancode hfits hup hdown h
  unfold keyboardProcessScancode
  cases hr : handleScancode font fb d.sb scancode with
  | mk sb redraw =>
    rw [hr] at hshown hquiet
    cases redraw with
    | true => exact following_draw (d := { d with sb := sb }) hshown
    | false => exact hquiet rfl

/-- **Typing never loses the line being edited.** Take any state reached by a run, redrawn with
`curr_line` on the screen, and any scancodes without the two scroll keys: `curr_line` is among
the rows that a redraw draws after each of them. -/
theorem currLine_stays_drawn (font : Font) (fb : FbGeometry) (canvas : ℕ → Rgb) (ops : List Op)
    (scs : List UInt8)
    (hfits : ∀ c : UInt8, c.toNat < 128 → 30 + font.charWidth c < fb.width)
    (hdrawn : (runOps font fb (Display.init canvas) ops).sb.currLine ∈
      drawnLines font fb (runOps font fb (Display.init canvas) ops).sb)
    (hscroll : ∀ sc ∈ scs, sc ≠ 0x48 ∧ sc ≠ 0x50) :
    ∀ pre sc, pre ++ [sc] <+: scs →
      let d := runKeys font fb
        (scrollbackDraw font fb (runOps font fb (Display.init canvas) ops)) pre
      let s := (handleScancode font fb d.sb sc).1
      s.currLine ∈ drawnLines font fb s := by
  intro pre sc hpre
  have hstart : Following fb
      (scrollbackDraw font fb (runOps font fb (Display.init canvas) ops)).sb :=
    following_draw ⟨(currLine_mem_drawnLines font fb _).1 hdrawn,
      stickyLast_runOps font fb canvas ops⟩
  have hmem : ∀ sc' ∈ pre ++ [sc], sc' ≠ 0x48 ∧ sc' ≠ 0x50 := fun sc' h =>
    hscroll sc' (hpre.subset h)
  have hkey : ∀ d : Display, ∀ x ∈ pre, Following fb d.sb →
      Following fb (keyboardProcessScancode font fb d x).sb := by
    intro d x hx h
    obtain ⟨hup, hdown⟩ := hmem x (List.mem_append_left _ hx)
    exact following_key hfits hup hdown h
  have hrun := run_invariant_of_mem (I := fun d : Display => Following fb d.sb) hstart hkey
  have hsc := hmem sc (List.mem_append_right _ List.mem_cons_self)
  have hshown := (following_handleScancode hfits hsc.1 hsc.2 hrun).1
  exact (currLine_mem_drawnLines font fb _).2 hshown.drawn

/-- Enter and a letter on a fresh 640x480 screen. -/
theorem currLine_stays_drawn_enter :
    let d := runKeys .monaco mainFb
      (scrollbackDraw .monaco mainFb (runOps .monaco mainFb (Display.init fun _ => black) []))
      [0x1c]
    let s := (handleScancode .monaco mainFb d.sb 0x1e).1
    s.currLine ∈ drawnLines .monaco mainFb s :=
  currLine_stays_drawn .monaco mainFb (fun _ => black) [] [0x1c, 0x1e]
    (fun _ _ => by simp [Font.charWidth, mainFb])
    ((currLine_mem_drawnLines _ _ _).2 (by decide)) (by simp) [0x1c] 0x1e (List.prefix_refl _)

end Marcelov
