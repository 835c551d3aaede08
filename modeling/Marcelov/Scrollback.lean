import Mathlib.Logic.Function.Basic
import Marcelov.Fb
import Marcelov.Lib.Cyclic

/-!
# The scrollback

The variables of `keyboard.c` and the functions that change them: `scrollback_new_line`,
`scrollback_putchar`, the two scroll functions and `delete_last`. Each function is assembled
from the statements of the source, which have names of their own (`advanceLine`,
`resetColumn`, `evictLine`, ...): `Marcelov.BootPrint` runs the same statements one by one.

The three line indices are always stored modulo `MAX_LINES_REMEMBERED`, and the structure
keeps that bound. `stores` is a ghost: the row and column of every store made to
`scrollbuffer`, in order.
-/

namespace Marcelov

open Lib

abbrev maxLineLen : ℕ := 256

abbrev maxLinesRemembered : ℕ := 1024

abbrev marginLeft : ℕ := 15
abbrev marginRight : ℕ := 15
abbrev marginTop : ℕ := 15
abbrev marginBottom : ℕ := 15

@[ext]
structure Scrollback where
  /-- `scrollbuffer[line][column]` -/
  scrollbuffer : ℕ → ℕ → UInt8
  /-- `scrollbuffer_scrolls_on_new_line` -/
  scrollsOnNewLine : Bool
  /-- `scrollbuffer_top_line` -/
  topLine : ℕ
  /-- `scrollbuffer_start` -/
  start : ℕ
  currLine : ℕ
  currColumn : ℕ
  isShiftPressed : Bool
  stores : List (ℕ × ℕ)
  topLine_lt : topLine < maxLinesRemembered
  start_lt : start < maxLinesRemembered
  currLine_lt : currLine < maxLinesRemembered

theorem nextLine_lt (line : ℕ) : (line + 1) % maxLinesRemembered < maxLinesRemembered :=
  Nat.mod_lt _ (by decide)

namespace Scrollback

/-- The state after `zero_bss`. -/
def init : Scrollback where
  scrollbuffer := fun _ _ => 0
  scrollsOnNewLine := false
  topLine := 0
  start := 0
  currLine := 0
  currColumn := 0
  isShiftPressed := false
  stores := []
  topLine_lt := by decide
  start_lt := by decide
  currLine_lt := by decide

/-- The rows in use, from `scrollbuffer_start` to `curr_line`. -/
def retained (s : Scrollback) : List ℕ := arc maxLinesRemembered s.start s.currLine

/-- `scrollbuffer[curr_line]` -/
def currRow (s : Scrollback) : ℕ → UInt8 := s.scrollbuffer s.currLine

/-- `scrollbuffer[curr_line][column] = c`, for a column of the row. Rows are kept apart here,
where C would go on into the next one. -/
def store (s : Scrollback) (column : ℕ) (c : UInt8) : Scrollback :=
  { s with
    scrollbuffer := Function.update s.scrollbuffer s.currLine
      (Function.update (s.scrollbuffer s.currLine) column c)
    stores := s.stores ++ [(s.currLine, column)] }

/-! ## Scrolling -/

/-- `scrollbuffer_top_line = (scrollbuffer_top_line + 1) % MAX_LINES_REMEMBERED` -/
def topLineDown (s : Scrollback) : Scrollback :=
  { s with topLine := (s.topLine + 1) % maxLinesRemembered, topLine_lt := nextLine_lt _ }

/-- `scrollbuffer_scroll_down` -/
def scrollDown (s : Scrollback) : Scrollback :=
  if (s.topLine + 1) % maxLinesRemembered = s.start then s else s.topLineDown

/-- `scrollbuffer_scroll_up` -/
def scrollUp (s : Scrollback) : Scrollback :=
  if s.topLine = s.start then s
  else
    { s with
      topLine := (s.topLine + maxLinesRemembered - 1) % maxLinesRemembered
      topLine_lt := Nat.mod_lt _ (by decide) }

/-! ## The statements of `scrollback_new_line` -/

/-- `curr_line = (curr_line + 1) % MAX_LINES_REMEMBERED` -/
def advanceLine (s : Scrollback) : Scrollback :=
  { s with currLine := (s.currLine + 1) % maxLinesRemembered, currLine_lt := nextLine_lt _ }

/-- `curr_column = 0` -/
def resetColumn (s : Scrollback) : Scrollback := { s with currColumn := 0 }

/-- `scrollbuffer_start = (scrollbuffer_start + 1) % MAX_LINES_REMEMBERED` -/
def evictLine (s : Scrollback) : Scrollback :=
  { s with start := (s.start + 1) % maxLinesRemembered, start_lt := nextLine_lt _ }

/-- `if (curr_line == scrollbuffer_start) { ... }` -/
def evict (s : Scrollback) : Scrollback := if s.currLine = s.start then s.evictLine else s

/-- `if (curr_line == scrollbuffer_top_line) { ... } else if (scrollbuffer_scrolls_on_new_line)
{ ... }` -/
def follow (s : Scrollback) : Scrollback :=
  if s.currLine = s.topLine then s.topLineDown
  else if s.scrollsOnNewLine then s.scrollDown
  else s

/-- One iteration of the clearing loop: `scrollbuffer[curr_line][i] = 0`. -/
def clearColumn (s : Scrollback) (i : ℕ) : Scrollback := s.store i 0

/-- The clearing loop, from iteration `i` on with `n` iterations left. -/
def clearFrom (s : Scrollback) : ℕ → ℕ → Scrollback
  | _, 0 => s
  | i, n + 1 => (s.clearColumn i).clearFrom (i + 1) n

end Scrollback

open Scrollback

def scrollbackNewLine (s : Scrollback) : Scrollback :=
  s.advanceLine.resetColumn.evict.follow.clearFrom 0 maxLineLen

/-! ## The statements of `scrollback_putchar` -/

namespace Scrollback

/-- `margin_left + fb_measure_line_width(...) + fb_measure_char(c) + margin_right` -/
def lineWidthWith (font : Font) (s : Scrollback) (c : UInt8) : ℕ :=
  u32 (marginLeft + fbMeasureLineWidth font s.currRow s.currColumn + fbMeasureChar font c +
    marginRight)

/-- `scrollbuffer[curr_line][curr_column++] = c` -/
def putColumn (s : Scrollback) (c : UInt8) : Scrollback :=
  { s.store s.currColumn c with currColumn := s.currColumn + 1 }

/-- `if (MAX_LINE_LEN <= curr_column) scrollback_new_line()` -/
def wrapFull (s : Scrollback) : Scrollback :=
  if maxLineLen ≤ s.currColumn then scrollbackNewLine s else s

/-- `if (fb.width <= line_width) scrollback_new_line()` -/
def wrapWide (fb : FbGeometry) (s : Scrollback) (lineWidth : ℕ) : Scrollback :=
  if fb.width ≤ lineWidth then scrollbackNewLine s else s

end Scrollback

def scrollbackPutchar (font : Font) (fb : FbGeometry) (s : Scrollback) (c : UInt8) : Scrollback :=
  if c = 0 then s
  else
    let s := s.wrapFull
    (s.wrapWide fb (s.lineWidthWith font c)).putColumn c

/-! ## The handlers -/

/-- A `scancode_handler`: the state it leaves, and whether the scrollbuffer changed. -/
abbrev ScancodeHandler := UInt8 → Scrollback → Scrollback × Bool

def unrecognizedScancode : ScancodeHandler := fun _ s => (s, false)

def toggleShift : ScancodeHandler := fun _ s =>
  ({ s with isShiftPressed := !s.isShiftPressed }, false)

def moveDown : ScancodeHandler := fun _ s =>
  ({ s.scrollDown with scrollsOnNewLine := false }, true)

def moveUp : ScancodeHandler := fun _ s =>
  ({ s.scrollUp with scrollsOnNewLine := false }, true)

def moveLeft : ScancodeHandler := fun _ s => (s, false)

def moveRight : ScancodeHandler := fun _ s => (s, false)

def newLine : ScancodeHandler := fun _ s => (scrollbackNewLine s, true)

def deleteLast : ScancodeHandler := fun _ s =>
  if s.currColumn = 0 then (s, false)
  else (({ s with currColumn := s.currColumn - 1 }).store (s.currColumn - 1) 0, true)

def specialScancodes : List ScancodeHandler :=
  [unrecognizedScancode, toggleShift, moveDown, moveUp, moveLeft, moveRight, newLine, deleteLast]

/-! ## What a new line changes -/

namespace Scrollback

def nextLine (s : Scrollback) : ℕ := (s.currLine + 1) % maxLinesRemembered

def startAfter (s : Scrollback) : ℕ :=
  if s.nextLine = s.start then (s.start + 1) % maxLinesRemembered else s.start

def topLineAfter (s : Scrollback) : ℕ :=
  if s.nextLine = s.topLine then (s.topLine + 1) % maxLinesRemembered
  else if s.scrollsOnNewLine ∧ (s.topLine + 1) % maxLinesRemembered ≠ s.startAfter then
    (s.topLine + 1) % maxLinesRemembered
  else s.topLine

/-- The clearing loop writes zeros to the columns it visits, and nothing else. -/
theorem clearFrom_eq (s : Scrollback) (i n : ℕ) :
    s.clearFrom i n =
      { s with
        scrollbuffer := Function.update s.scrollbuffer s.currLine fun j =>
          if i ≤ j ∧ j < i + n then 0 else s.currRow j
        stores := s.stores ++ (List.range' i n).map fun j => (s.currLine, j) } := by
  induction n generalizing s i with
  | zero =>
    have hrow : (fun j => if i ≤ j ∧ j < i + 0 then 0 else s.currRow j) = s.currRow := by
      funext j
      exact if_neg (by omega)
    rw [hrow]
    simp [clearFrom, currRow]
  | succ n ih =>
    rw [clearFrom, ih]
    simp only [clearColumn, store, currRow, Function.update_self, Function.update_idem,
      List.range'_succ, List.map_cons, List.append_assoc, List.singleton_append, mk.injEq,
      and_true]
    congr 1
    funext j
    by_cases hj : j = i
    · subst hj
      simp
    · rw [Function.update_of_ne hj]
      congr 1
      apply propext
      omega

theorem evict_eq (s : Scrollback) :
    s.evict = { s with
      start := if s.currLine = s.start then (s.start + 1) % maxLinesRemembered else s.start
      start_lt := by split_ifs; exacts [nextLine_lt _, s.start_lt] } := by
  unfold evict evictLine
  split_ifs <;> rfl

theorem follow_eq (s : Scrollback) :
    s.follow = { s with
      topLine :=
        if s.currLine = s.topLine then (s.topLine + 1) % maxLinesRemembered
        else if s.scrollsOnNewLine ∧ (s.topLine + 1) % maxLinesRemembered ≠ s.start then
          (s.topLine + 1) % maxLinesRemembered
        else s.topLine
      topLine_lt := by split_ifs; exacts [nextLine_lt _, nextLine_lt _, s.topLine_lt] } := by
  unfold follow scrollDown topLineDown
  by_cases h₁ : s.currLine = s.topLine
  · simp [h₁]
  · by_cases h₂ : s.scrollsOnNewLine = true <;>
      by_cases h₃ : (s.topLine + 1) % maxLinesRemembered = s.start <;>
        ext1 <;> simp [h₁, h₂, h₃]

section

variable (s : Scrollback)

@[simp] theorem newLine_currLine : (scrollbackNewLine s).currLine = s.nextLine := by
  rw [scrollbackNewLine, clearFrom_eq, follow_eq, evict_eq]
  rfl

@[simp] theorem newLine_currColumn : (scrollbackNewLine s).currColumn = 0 := by
  rw [scrollbackNewLine, clearFrom_eq, follow_eq, evict_eq]
  rfl

@[simp] theorem newLine_start : (scrollbackNewLine s).start = s.startAfter := by
  rw [scrollbackNewLine, clearFrom_eq, follow_eq, evict_eq]
  rfl

@[simp] theorem newLine_topLine : (scrollbackNewLine s).topLine = s.topLineAfter := by
  rw [scrollbackNewLine, clearFrom_eq, follow_eq, evict_eq]
  rfl

@[simp] theorem newLine_scrollsOnNewLine :
    (scrollbackNewLine s).scrollsOnNewLine = s.scrollsOnNewLine := by
  rw [scrollbackNewLine, clearFrom_eq, follow_eq, evict_eq]
  rfl

@[simp] theorem newLine_isShiftPressed :
    (scrollbackNewLine s).isShiftPressed = s.isShiftPressed := by
  rw [scrollbackNewLine, clearFrom_eq, follow_eq, evict_eq]
  rfl

theorem newLine_scrollbuffer :
    (scrollbackNewLine s).scrollbuffer = Function.update s.scrollbuffer s.nextLine fun j =>
      if j < maxLineLen then 0 else s.scrollbuffer s.nextLine j := by
  simp [scrollbackNewLine, clearFrom_eq, follow_eq, evict_eq, resetColumn, advanceLine, currRow,
    nextLine]

theorem newLine_stores :
    (scrollbackNewLine s).stores =
      s.stores ++ (List.range maxLineLen).map fun j => (s.nextLine, j) := by
  simp [scrollbackNewLine, clearFrom_eq, follow_eq, evict_eq, resetColumn, advanceLine, nextLine,
    List.range_eq_range']

end

/-! ## What storing a character changes -/

@[simp] theorem putColumn_currColumn (s : Scrollback) (c : UInt8) :
    (s.putColumn c).currColumn = s.currColumn + 1 := rfl

/-! ## What scrolling leaves alone -/

/-- The two states hold the same text: they agree on everything but the view and the keyboard
(`scrollbuffer_top_line`, the sticky flag and `is_shift_pressed`). -/
structure SameText (s s' : Scrollback) : Prop where
  scrollbuffer : s'.scrollbuffer = s.scrollbuffer
  start : s'.start = s.start
  currLine : s'.currLine = s.currLine
  currColumn : s'.currColumn = s.currColumn
  stores : s'.stores = s.stores

theorem SameText.refl (s : Scrollback) : SameText s s := ⟨rfl, rfl, rfl, rfl, rfl⟩

theorem sameText_scrollDown (s : Scrollback) : SameText s s.scrollDown := by
  unfold scrollDown
  split_ifs
  exacts [SameText.refl s, ⟨rfl, rfl, rfl, rfl, rfl⟩]

theorem sameText_scrollUp (s : Scrollback) : SameText s s.scrollUp := by
  unfold scrollUp
  split_ifs
  exacts [SameText.refl s, ⟨rfl, rfl, rfl, rfl, rfl⟩]

theorem sameText_moveDown (scancode : UInt8) (s : Scrollback) :
    SameText s (moveDown scancode s).1 := by
  obtain ⟨h₁, h₂, h₃, h₄, h₅⟩ := sameText_scrollDown s
  exact ⟨h₁, h₂, h₃, h₄, h₅⟩

theorem sameText_moveUp (scancode : UInt8) (s : Scrollback) :
    SameText s (moveUp scancode s).1 := by
  obtain ⟨h₁, h₂, h₃, h₄, h₅⟩ := sameText_scrollUp s
  exact ⟨h₁, h₂, h₃, h₄, h₅⟩

theorem sameText_toggleShift (scancode : UInt8) (s : Scrollback) :
    SameText s (toggleShift scancode s).1 := ⟨rfl, rfl, rfl, rfl, rfl⟩

/-- The two states show the same part of the buffer, and agree on where it ends. -/
structure SameView (s s' : Scrollback) : Prop where
  topLine : s'.topLine = s.topLine
  start : s'.start = s.start
  currLine : s'.currLine = s.currLine
  scrollsOnNewLine : s'.scrollsOnNewLine = s.scrollsOnNewLine

theorem sameView_putColumn (s : Scrollback) (c : UInt8) : SameView s (s.putColumn c) :=
  ⟨rfl, rfl, rfl, rfl⟩

theorem sameView_deleteLast (scancode : UInt8) (s : Scrollback) :
    SameView s (deleteLast scancode s).1 := by
  unfold deleteLast
  split_ifs <;> exact ⟨rfl, rfl, rfl, rfl⟩

theorem sameView_toggleShift (scancode : UInt8) (s : Scrollback) :
    SameView s (toggleShift scancode s).1 := ⟨rfl, rfl, rfl, rfl⟩

end Scrollback

/-- What new lines and single stores keep, `scrollback_putchar` keeps. -/
theorem scrollbackPutchar_invariant {I : Scrollback → Prop} {font : Font} {fb : FbGeometry}
    {s : Scrollback} {c : UInt8} (h : I s) (hnew : ∀ s, I s → I (scrollbackNewLine s))
    (hput : c ≠ 0 → ∀ s, I s → I (s.putColumn c)) : I (scrollbackPutchar font fb s c) := by
  unfold scrollbackPutchar
  by_cases hc : c = 0
  · rw [if_pos hc]
    exact h
  · rw [if_neg hc]
    have hfull : I s.wrapFull := by
      unfold wrapFull
      split_ifs
      exacts [hnew s h, h]
    refine hput hc _ ?_
    unfold wrapWide
    split_ifs
    exacts [hnew _ hfull, hfull]

end Marcelov
