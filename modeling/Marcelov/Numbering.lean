import Marcelov.Text
import Marcelov.Viewport

/-!
# Lines by their numbers

A row of the buffer holds one line after another, so the row is not what a reader recognises: the
line is. Lines are numbered from boot, by their place in the list that the scrollback
represents; `readRow_lineNumber` says that the number leads to the text of the row.

`newLine_keeps_view` is what `scrollback_new_line` does to the line at the top of the view and to
every other line in use.
-/

namespace Marcelov

open Lib Scrollback

/-- The number of the line in row `r`, when the lines so far are those of `t`. -/
def lineNumber (t : Text) (s : Scrollback) (r : ℕ) : ℕ :=
  t.lines.length - 1 - gap maxLinesRemembered r s.currLine

/-- The line in row `r` is in use, and no row holds it any more after a new line. -/
def Evicts (t : Text) (s : Scrollback) (r : ℕ) : Prop :=
  r ∈ s.retained ∧ ∀ r' ∈ (scrollbackNewLine s).retained,
    lineNumber t.newLine (scrollbackNewLine s) r' ≠ lineNumber t s r

/-- A new line does not move what the user is reading. -/
structure KeepsView (t : Text) (s : Scrollback) : Prop where
  top_stays : s.scrollsOnNewLine = false → ¬ Evicts t s s.topLine →
    lineNumber t.newLine (scrollbackNewLine s) (scrollbackNewLine s).topLine =
      lineNumber t s s.topLine
  top_evicted : s.scrollsOnNewLine = false → Evicts t s s.topLine →
    lineNumber t.newLine (scrollbackNewLine s) (scrollbackNewLine s).topLine =
        lineNumber t s s.topLine + 1 ∧
      (scrollbackNewLine s).topLine = (scrollbackNewLine s).start
  top_follows : s.scrollsOnNewLine = true →
    lineNumber t.newLine (scrollbackNewLine s) (scrollbackNewLine s).topLine =
      lineNumber t s s.topLine + 1
  top_retained : (scrollbackNewLine s).topLine ∈ (scrollbackNewLine s).retained
  others_stay : ∀ r ∈ s.retained, ¬ Evicts t s r →
    r ∈ (scrollbackNewLine s).retained ∧
      lineNumber t.newLine (scrollbackNewLine s) r = lineNumber t s r ∧
      (scrollbackNewLine s).scrollbuffer r = s.scrollbuffer r
  curr_empty : (scrollbackNewLine s).currRow = (fun _ => 0) ∧ (scrollbackNewLine s).currColumn = 0

section

variable {t : Text} {s : Scrollback} {r : ℕ}

/-! ## The numbers -/

theorem lt_of_mem_retained (h : r ∈ s.retained) : r < maxLinesRemembered :=
  lt_of_mem_arc (by decide) h

/-- **The number of a line leads to its text.** -/
theorem readRow_lineNumber (h : Represents s t) (hr : r ∈ s.retained) :
    t.lines[lineNumber t s r]? = some (readRow (s.scrollbuffer r)) := by
  obtain ⟨hi, hl⟩ := h.ring.get_of_mem_arc (by decide) hr
  rw [hl.readRow]
  exact List.getElem?_eq_getElem hi

theorem gap_lt_length (h : Represents s t) (hr : r ∈ s.retained) :
    gap maxLinesRemembered r s.currLine < t.lines.length := by
  have hgap : gap maxLinesRemembered r s.currLine = _ := gap_of_mem_arc s.start_lt s.currLine_lt hr
  have huse := h.ring.gap_eq (by decide)
  omega

/-- A row that does not become the current one keeps its line. -/
theorem lineNumber_newLine (hr : r < maxLinesRemembered) (hne : s.nextLine ≠ r) :
    lineNumber t.newLine (scrollbackNewLine s) r = lineNumber t s r := by
  have hgap : gap maxLinesRemembered r s.nextLine = gap maxLinesRemembered r s.currLine + 1 :=
    gap_succ hr s.currLine_lt hne
  rw [lineNumber, lineNumber, newLine_currLine, hgap, Text.lines_newLine, List.length_append,
    List.length_singleton]
  omega

theorem lineNumber_succ (h : Represents s t) (hr : r ∈ s.retained) :
    lineNumber t.newLine (scrollbackNewLine s) ((r + 1) % maxLinesRemembered) =
      lineNumber t s r + 1 := by
  have hlt := gap_lt_length h hr
  have hgap : gap maxLinesRemembered ((r + 1) % maxLinesRemembered) s.nextLine =
      gap maxLinesRemembered r s.currLine := gap_succ_succ (lt_of_mem_retained hr) s.currLine_lt
  rw [lineNumber, lineNumber, newLine_currLine, hgap, Text.lines_newLine, List.length_append,
    List.length_singleton]
  omega

/-! ## The line that is evicted -/

theorem nextLine_eq_start (h : s.nextLine ∈ s.retained) : s.nextLine = s.start := by
  by_contra hne
  have hle := (mem_arc_iff s.start_lt (nextLine_lt _)).1 h
  rw [← nextLine, gap_nextLine hne] at hle
  omega

theorem mem_retained_newLine (hr : r ∈ s.retained) : r ∈ (scrollbackNewLine s).retained := by
  have hlt := lt_of_mem_retained hr
  rw [Scrollback.retained, newLine_start, newLine_currLine,
    mem_arc_iff (newLine_start s ▸ (scrollbackNewLine s).start_lt) hlt]
  by_cases hfull : s.nextLine = s.start
  · have hall := gap_newLine_of_full hfull
    have hgap := gap_lt (n := maxLinesRemembered) (by decide) s.startAfter r
    omega
  · have hle := (mem_arc_iff s.start_lt hlt).1 hr
    rw [startAfter, if_neg hfull, gap_nextLine hfull]
    omega

theorem start_mem_retained (s : Scrollback) : s.start ∈ s.retained := by
  rw [Scrollback.retained, mem_arc_iff s.start_lt s.start_lt, gap_self s.start_lt]
  exact Nat.zero_le _

theorem evicts_iff (h : Represents s t) (hr : r ∈ s.retained) :
    Evicts t s r ↔ s.nextLine = r := by
  constructor
  · rintro ⟨-, hgone⟩
    by_contra hne
    exact hgone r (mem_retained_newLine hr)
      (lineNumber_newLine (lt_of_mem_retained hr) hne)
  · intro heq
    refine ⟨hr, fun r' hr' => ?_⟩
    -- The ring is full, and the row holds the line 1024 before the new one.
    have hstart := nextLine_eq_start (heq ▸ hr)
    have hfull : 1024 ≤ t.lines.length := h.ring.next_eq_start_iff.1 hstart
    have huse : gap maxLinesRemembered s.start s.currLine + 1 = min t.lines.length 1024 :=
      h.ring.gap_eq (by decide)
    have hgap : gap maxLinesRemembered r' s.nextLine < 1024 := gap_lt (by decide) _ _
    rw [← heq, hstart, lineNumber, lineNumber, newLine_currLine, Text.lines_newLine,
      List.length_append, List.length_singleton]
    omega

/-! ## The top of the view -/

theorem newLine_currRow (h : Represents s t) : (scrollbackNewLine s).currRow = fun _ => 0 := by
  rw [Scrollback.currRow, newLine_currLine, h.cleared.eq, padded_nil]

theorem newLine_row (hne : s.nextLine ≠ r) :
    (scrollbackNewLine s).scrollbuffer r = s.scrollbuffer r := by
  rw [newLine_scrollbuffer, Function.update_of_ne hne.symm]

theorem Represents.keepsView {fb : FbGeometry} (h : Represents s t) (hs : StickyLast fb s)
    (htop : s.topLine ∈ s.retained) : KeepsView t s where
  top_stays := by
    intro hsticky hkept
    have hne : s.nextLine ≠ s.topLine := fun heq => hkept ((evicts_iff h htop).2 heq)
    have hmove : ¬ (s.scrollsOnNewLine = true ∧
        (s.topLine + 1) % maxLinesRemembered ≠ s.startAfter) := by
      rw [hsticky]
      exact fun hm => Bool.false_ne_true hm.1
    rw [newLine_topLine, topLineAfter, if_neg hne, if_neg hmove]
    exact lineNumber_newLine s.topLine_lt hne
  top_evicted := by
    intro _ hevict
    have heq := (evicts_iff h htop).1 hevict
    have hstart := nextLine_eq_start (heq ▸ htop)
    rw [newLine_topLine, newLine_start, topLineAfter, if_pos heq, startAfter, if_pos hstart]
    exact ⟨lineNumber_succ h htop, by rw [← heq, hstart]⟩
  top_follows := by
    intro hsticky
    rw [newLine_topLine, topLineAfter_of_last hsticky (hs hsticky)]
    exact lineNumber_succ h htop
  top_retained := newLine_retained htop
  others_stay := by
    intro r hr hkept
    have hne : s.nextLine ≠ r := fun heq => hkept ((evicts_iff h hr).2 heq)
    exact ⟨mem_retained_newLine hr, lineNumber_newLine (lt_of_mem_retained hr) hne,
      newLine_row hne⟩
  curr_empty := ⟨newLine_currRow h, newLine_currColumn s⟩

end

/-- **A new line does not move what the user is reading.** In every state of a run whose top line
is in use: if the view does not follow the text, its top line is the same line after
`scrollback_new_line`, or the next one, now the oldest, if that line is evicted; if it follows
the text, the top line is the next one. -/
theorem newLine_keeps_view (font : Font) (fb : FbGeometry) (canvas : ℕ → Rgb) (ops : List Op)
    (htop : (runOps font fb (Display.init canvas) ops).sb.topLine ∈
      (runOps font fb (Display.init canvas) ops).sb.retained) :
    KeepsView (run (Text.exec font fb) Text.init ops)
      (runOps font fb (Display.init canvas) ops).sb :=
  (represents_runOps Represents.init ops).keepsView (stickyLast_runOps font fb canvas ops) htop

/-- On the second line, with the view at the first. -/
theorem newLine_keeps_view_second :
    KeepsView (run (Text.exec .monaco mainFb) Text.init [.newLine])
      (runOps .monaco mainFb (Display.init fun _ => black) [.newLine]).sb := by
  have htop := (exec_retained_iff .monaco mainFb (Display.init fun _ => black) .newLine
    (start_mem_retained Scrollback.init)).2 (by simp [NotPastEnd])
  exact newLine_keeps_view .monaco mainFb (fun _ => black) [.newLine] htop

end Marcelov
