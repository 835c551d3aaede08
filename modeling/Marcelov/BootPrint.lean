import Marcelov.Keyboard

/-!
# Printing with the keyboard on

`main` enables interrupts before it prints its greeting, so a key can be handled between any two
statements of `scrollback_putchar` and `scrollback_new_line`. `Boot` runs the calls of `main`
one statement at a time, and an event of a run is either the next statement of `main` or a
whole call of `keyboard_process_scancode`.

* `boot_call` — without keys in between, the statements of a call do what the call does;
* `intact_irq` — a key keeps the current row in order, as far as `main` has come with clearing it;
* `intact_main_iff` — a statement of `main` does so exactly when it is `Pc.Safe`.
-/

namespace Marcelov

open Lib Scrollback

/-! ## The program -/

/-- A call that `main` makes through `scrollback_print_line`. -/
inductive ScrollbackCall where
  | putchar (c : UInt8)
  | newLine

def scrollbackPrintLine (s : List UInt8) : List ScrollbackCall :=
  (s.takeWhile (· ≠ 0)).map .putchar ++ [.newLine]

/-- The statement of `scrollback_putchar` that a new line returns to, or `main` itself. -/
inductive Return where
  | main
  | putMeasure (c : UInt8)
  | putStore (c : UInt8)
  deriving DecidableEq

/-- The next statement of `main`: between two calls, in `scrollback_putchar(c)`, in
`scrollback_new_line` or in the `scrollbuffer_scroll_down` it calls. -/
inductive Pc where
  | idle
  /-- `if (c == 0) return` -/
  | putNul (c : UInt8)
  /-- `if (MAX_LINE_LEN <= curr_column)` -/
  | putFull (c : UInt8)
  /-- `line_width = ...` -/
  | putMeasure (c : UInt8)
  /-- `if (fb.width <= line_width)` -/
  | putWide (c : UInt8) (lineWidth : ℕ)
  /-- `scrollbuffer[curr_line][curr_column++] = c` -/
  | putStore (c : UInt8)
  /-- `curr_line = (curr_line + 1) % MAX_LINES_REMEMBERED` -/
  | nlLine (r : Return)
  /-- `curr_column = 0` -/
  | nlColumn (r : Return)
  /-- `if (curr_line == scrollbuffer_start)` -/
  | nlStartTest (r : Return)
  | nlStartSet (r : Return)
  /-- `if (curr_line == scrollbuffer_top_line)` -/
  | nlTopTest (r : Return)
  | nlTopSet (r : Return)
  /-- `else if (scrollbuffer_scrolls_on_new_line)` -/
  | nlStickyTest (r : Return)
  /-- `if ((scrollbuffer_top_line + 1) % MAX_LINES_REMEMBERED == scrollbuffer_start) return` -/
  | downTest (r : Return)
  | downSet (r : Return)
  /-- The clearing loop, before iteration `i`. -/
  | nlClear (r : Return) (i : ℕ)
  deriving DecidableEq

def Return.pc : Return → Pc
  | main => .idle
  | putMeasure c => .putMeasure c
  | putStore c => .putStore c

structure Boot where
  pc : Pc
  /-- The calls `main` has still to make. -/
  calls : List ScrollbackCall
  display : Display

namespace Boot

/-- `main` goes on at `pc`. -/
def goto (m : Boot) (pc : Pc) : Boot := { m with pc := pc }

/-- `main` changes the scrollback to `s` and goes on at `pc`. -/
def set (m : Boot) (s : Scrollback) (pc : Pc) : Boot :=
  { m with pc := pc, display := { m.display with sb := s } }

/-- The next statement of `main`. -/
def mainStep (font : Font) (fb : FbGeometry) (m : Boot) : Boot :=
  let s := m.display.sb
  match m.pc with
  | .idle =>
    match m.calls with
    | [] => m
    | .putchar c :: calls => { m with pc := .putNul c, calls := calls }
    | .newLine :: calls => { m with pc := .nlLine .main, calls := calls }
  | .putNul c => m.goto (if c = 0 then .idle else .putFull c)
  | .putFull c =>
    m.goto (if maxLineLen ≤ s.currColumn then .nlLine (.putMeasure c) else .putMeasure c)
  | .putMeasure c => m.goto (.putWide c (s.lineWidthWith font c))
  | .putWide c lineWidth =>
    m.goto (if fb.width ≤ lineWidth then .nlLine (.putStore c) else .putStore c)
  | .putStore c => m.set (s.putColumn c) .idle
  | .nlLine r => m.set s.advanceLine (.nlColumn r)
  | .nlColumn r => m.set s.resetColumn (.nlStartTest r)
  | .nlStartTest r => m.goto (if s.currLine = s.start then .nlStartSet r else .nlTopTest r)
  | .nlStartSet r => m.set s.evictLine (.nlTopTest r)
  | .nlTopTest r => m.goto (if s.currLine = s.topLine then .nlTopSet r else .nlStickyTest r)
  | .nlTopSet r => m.set s.topLineDown (.nlClear r 0)
  | .nlStickyTest r => m.goto (if s.scrollsOnNewLine then .downTest r else .nlClear r 0)
  | .downTest r =>
    m.goto (if (s.topLine + 1) % maxLinesRemembered = s.start then .nlClear r 0 else .downSet r)
  | .downSet r => m.set s.topLineDown (.nlClear r 0)
  | .nlClear r i =>
    if i < maxLineLen then m.set (s.clearColumn i) (.nlClear r (i + 1)) else m.goto r.pc

end Boot

inductive BootEvent where
  | main
  | irq (scancode : UInt8)
  deriving DecidableEq

/-- A statement of `main`, or a key handled between two of them. -/
def bootStep (font : Font) (fb : FbGeometry) (m : Boot) : BootEvent → Boot
  | .main => m.mainStep font fb
  | .irq scancode =>
    { m with display := keyboardProcessScancode font fb m.display scancode }

def Boot.init (canvas : ℕ → Rgb) (lines : List (List UInt8)) : Boot :=
  ⟨.idle, lines.flatMap scrollbackPrintLine, Display.init canvas⟩

/-! ## Without keys -/

section

variable (font : Font) (fb : FbGeometry) {m : Boot}

def Reaches (m m' : Boot) : Prop :=
  ∃ n, run (bootStep font fb) m (List.replicate n .main) = m'

variable {font fb}

theorem Reaches.refl (m : Boot) : Reaches font fb m m := ⟨0, rfl⟩

theorem Reaches.trans {m m' m'' : Boot} (h : Reaches font fb m m') (h' : Reaches font fb m' m'') :
    Reaches font fb m m'' := by
  obtain ⟨n, hn⟩ := h
  obtain ⟨n', hn'⟩ := h'
  exact ⟨n + n', by rw [List.replicate_add, run_append, hn, hn']⟩

theorem Reaches.step (font : Font) (fb : FbGeometry) (m : Boot) :
    Reaches font fb m (m.mainStep font fb) := ⟨1, rfl⟩

theorem Reaches.head {m m' : Boot} (h : Reaches font fb (m.mainStep font fb) m') :
    Reaches font fb m m' :=
  (Reaches.step font fb m).trans h

theorem reaches_clear (d : Display) (calls : List ScrollbackCall) (r : Return) (i n : ℕ)
    (hi : i + n = maxLineLen) :
    Reaches font fb ⟨.nlClear r i, calls, d⟩
      ⟨r.pc, calls, { d with sb := d.sb.clearFrom i n }⟩ := by
  induction n generalizing d i with
  | zero =>
    have hstop : ¬ i < maxLineLen := by omega
    have hstep := Reaches.step font fb ⟨.nlClear r i, calls, d⟩
    simpa [Boot.mainStep, hstop, Boot.goto, clearFrom] using hstep
  | succ n ih =>
    have hgo : i < maxLineLen := by omega
    refine Reaches.head ?_
    simp only [Boot.mainStep, if_pos hgo, Boot.set]
    exact ih { d with sb := d.sb.clearColumn i } (i + 1) (by omega)

/-- The statement `if (curr_line == scrollbuffer_start) { ... }`. -/
theorem reaches_evict (d : Display) (calls : List ScrollbackCall) (r : Return) :
    Reaches font fb ⟨.nlStartTest r, calls, d⟩
      ⟨.nlTopTest r, calls, { d with sb := d.sb.evict }⟩ := by
  refine Reaches.head ?_
  unfold evict
  by_cases h : d.sb.currLine = d.sb.start
  · simp only [Boot.mainStep, if_pos h, Boot.goto]
    exact Reaches.step font fb _
  · simp only [Boot.mainStep, if_neg h, Boot.goto]
    exact Reaches.refl _

/-- The statement that moves the top of the view, up to the clearing loop. -/
theorem reaches_follow (d : Display) (calls : List ScrollbackCall) (r : Return) :
    Reaches font fb ⟨.nlTopTest r, calls, d⟩
      ⟨.nlClear r 0, calls, { d with sb := d.sb.follow }⟩ := by
  refine Reaches.head ?_
  unfold follow
  by_cases htop : d.sb.currLine = d.sb.topLine
  · simp only [Boot.mainStep, if_pos htop, Boot.goto]
    exact Reaches.step font fb _
  · simp only [Boot.mainStep, if_neg htop, Boot.goto]
    refine Reaches.head ?_
    by_cases hs : d.sb.scrollsOnNewLine = true
    · simp only [Boot.mainStep, if_pos hs, Boot.goto]
      refine Reaches.head ?_
      unfold scrollDown
      by_cases hstop : (d.sb.topLine + 1) % maxLinesRemembered = d.sb.start
      · simp only [Boot.mainStep, if_pos hstop, Boot.goto]
        exact Reaches.refl _
      · simp only [Boot.mainStep, if_neg hstop, Boot.goto]
        exact Reaches.step font fb _
    · simp only [Boot.mainStep, if_neg hs, Boot.goto]
      exact Reaches.refl _

theorem reaches_newLine (d : Display) (calls : List ScrollbackCall) (r : Return) :
    Reaches font fb ⟨.nlLine r, calls, d⟩
      ⟨r.pc, calls, { d with sb := scrollbackNewLine d.sb }⟩ := by
  refine (Reaches.step font fb _).trans ((Reaches.step font fb _).trans ?_)
  refine (reaches_evict { d with sb := d.sb.advanceLine.resetColumn } calls r).trans ?_
  refine (reaches_follow { d with sb := d.sb.advanceLine.resetColumn.evict } calls r).trans ?_
  exact reaches_clear _ calls r 0 maxLineLen (Nat.zero_add _)

theorem reaches_putchar (d : Display) (calls : List ScrollbackCall) (c : UInt8) :
    Reaches font fb ⟨.putNul c, calls, d⟩
      ⟨.idle, calls, { d with sb := scrollbackPutchar font fb d.sb c }⟩ := by
  refine Reaches.head ?_
  unfold scrollbackPutchar
  by_cases hc : c = 0
  · simp only [Boot.mainStep, if_pos hc, Boot.goto]
    exact Reaches.refl _
  · simp only [Boot.mainStep, if_neg hc, Boot.goto]
    have hfull : Reaches font fb ⟨.putFull c, calls, d⟩
        ⟨.putMeasure c, calls, { d with sb := d.sb.wrapFull }⟩ := by
      refine Reaches.head ?_
      unfold wrapFull
      by_cases h : maxLineLen ≤ d.sb.currColumn
      · simp only [Boot.mainStep, if_pos h, Boot.goto]
        exact reaches_newLine d calls (.putMeasure c)
      · simp only [Boot.mainStep, if_neg h, Boot.goto]
        exact Reaches.refl _
    have hwide (d : Display) : Reaches font fb ⟨.putMeasure c, calls, d⟩
        ⟨.putStore c, calls, { d with sb := d.sb.wrapWide fb (d.sb.lineWidthWith font c) }⟩ := by
      refine (Reaches.step font fb _).trans (Reaches.head ?_)
      unfold wrapWide
      by_cases h : fb.width ≤ d.sb.lineWidthWith font c
      · simp only [Boot.mainStep, if_pos h, Boot.goto]
        exact reaches_newLine d calls (.putStore c)
      · simp only [Boot.mainStep, if_neg h, Boot.goto]
        exact Reaches.refl _
    exact (hfull.trans (hwide { d with sb := d.sb.wrapFull })).trans (Reaches.step font fb _)

/-- What a call does when no key interrupts it. -/
def ScrollbackCall.op : ScrollbackCall → Op
  | putchar c => .putchar c
  | newLine => .newLine

/-- **Without keys in between, the statements of a call do what the call does.** -/
theorem boot_call (d : Display) (call : ScrollbackCall) (calls : List ScrollbackCall) :
    Reaches font fb ⟨.idle, call :: calls, d⟩ ⟨.idle, calls, call.op.exec font fb d⟩ := by
  cases call with
  | putchar c => exact (Reaches.step font fb _).trans (reaches_putchar d calls c)
  | newLine => exact (Reaches.step font fb _).trans (reaches_newLine d calls .main)

end

/-! ## The row being printed to -/

/-- The cursor and the byte after each row, which every step of the run looks after. -/
structure Bounded (s : Scrollback) : Prop where
  column_le : s.currColumn ≤ 256
  terminated : ∀ r, s.scrollbuffer r 256 = 0

/-- The current row is in order up to column `i`: characters before the cursor, and zeros from
there to `i`. -/
structure FilledTo (i : ℕ) (s : Scrollback) : Prop where
  chars : ∀ j < s.currColumn, s.currRow j ≠ 0
  zeros : ∀ j, s.currColumn ≤ j → j < i → s.currRow j = 0

/-- The current row consists of `curr_column` characters, followed only by zeros. -/
structure RowExact (s : Scrollback) : Prop where
  column_le : s.currColumn ≤ 256
  chars : ∀ j < s.currColumn, s.currRow j ≠ 0
  zeros : ∀ j, s.currColumn ≤ j → j ≤ 256 → s.currRow j = 0

namespace Scrollback

structure SameRows (s s' : Scrollback) : Prop where
  scrollbuffer : s'.scrollbuffer = s.scrollbuffer
  currLine : s'.currLine = s.currLine
  currColumn : s'.currColumn = s.currColumn

theorem SameText.sameRows {s s' : Scrollback} (h : SameText s s') : SameRows s s' :=
  ⟨h.scrollbuffer, h.currLine, h.currColumn⟩

end Scrollback

section

variable {s s' : Scrollback} {i : ℕ}

theorem Bounded.congr (h : Bounded s) (hs : SameRows s s') : Bounded s' :=
  ⟨hs.currColumn ▸ h.column_le, by rw [hs.scrollbuffer]; exact h.terminated⟩

theorem FilledTo.congr (h : FilledTo i s) (hs : SameRows s s') : FilledTo i s' := by
  obtain ⟨hchars, hzeros⟩ := h
  refine ⟨?_, ?_⟩ <;> rw [currRow, hs.scrollbuffer, hs.currLine, hs.currColumn]
  exacts [hchars, hzeros]

theorem FilledTo.mono {i' : ℕ} (h : FilledTo i s) (hi : i' ≤ i) : FilledTo i' s :=
  ⟨h.chars, fun j hj hji => h.zeros j hj (hji.trans_le hi)⟩

/-- An order up to the last column, with the byte after it, is the whole row. -/
theorem FilledTo.terminate (h : FilledTo maxLineLen s) (hb : Bounded s) : FilledTo 257 s := by
  refine ⟨h.chars, fun j hj hji => ?_⟩
  by_cases hlast : j = 256
  · subst hlast
    exact hb.terminated s.currLine
  · exact h.zeros j hj (by simp only [maxLineLen]; omega)

theorem FilledTo.rowExact (h : FilledTo 257 s) (hb : Bounded s) : RowExact s :=
  ⟨hb.column_le, h.chars, fun j hj hji => h.zeros j hj (by omega)⟩

/-! ### One store -/

theorem currRow_store (s : Scrollback) (column : ℕ) (c : UInt8) :
    (s.store column c).currRow = Function.update s.currRow column c :=
  Function.update_self _ _ _

theorem terminated_store (h : Bounded s) {column : ℕ} {c : UInt8} (hc : column < 256 ∨ c = 0)
    (r : ℕ) : (s.store column c).scrollbuffer r 256 = 0 := by
  by_cases hr : r = s.currLine
  · subst hr
    show (s.store column c).currRow 256 = 0
    rw [currRow_store]
    by_cases hcol : column = 256
    · obtain hlt | rfl := hc
      · omega
      · rw [hcol, Function.update_self]
    · rw [Function.update_of_ne (Ne.symm hcol)]
      exact h.terminated s.currLine
  · have hrow : (s.store column c).scrollbuffer r = s.scrollbuffer r := Function.update_of_ne hr _ _
    rw [hrow]
    exact h.terminated r

theorem bounded_putColumn (h : Bounded s) (hcol : s.currColumn < 256) (c : UInt8) :
    Bounded (s.putColumn c) :=
  ⟨hcol, terminated_store h (Or.inl hcol)⟩

theorem filledTo_putColumn (h : FilledTo i s) {c : UInt8} (hc : c ≠ 0) :
    FilledTo i (s.putColumn c) := by
  have hrow : (s.putColumn c).currRow = Function.update s.currRow s.currColumn c :=
    currRow_store s s.currColumn c
  refine ⟨fun j hj => ?_, fun j hj hji => ?_⟩ <;> rw [putColumn_currColumn] at hj <;> rw [hrow]
  · by_cases hlast : j = s.currColumn
    · rw [hlast, Function.update_self]
      exact hc
    · rw [Function.update_of_ne hlast]
      exact h.chars j (by omega)
  · rw [Function.update_of_ne (by omega)]
    exact h.zeros j (by omega) hji

theorem bounded_clearColumn (h : Bounded s) (i : ℕ) : Bounded (s.clearColumn i) :=
  ⟨h.column_le, terminated_store h (Or.inr rfl)⟩

/-- Clearing column `i` takes the order one column further, exactly when no character of the
line is there. -/
theorem filledTo_clearColumn_iff (h : FilledTo i s) :
    FilledTo (i + 1) (s.clearColumn i) ↔ s.currColumn ≤ i := by
  have hrow : (s.clearColumn i).currRow = Function.update s.currRow i 0 := currRow_store s i 0
  constructor
  · intro hf
    by_contra hlt
    have hchar := hf.chars i (Nat.lt_of_not_le hlt)
    rw [hrow, Function.update_self] at hchar
    exact hchar rfl
  · intro hcol
    have hcolumn : (s.clearColumn i).currColumn = s.currColumn := rfl
    refine ⟨fun j hj => ?_, fun j hj hji => ?_⟩ <;> rw [hcolumn] at hj <;> rw [hrow]
    · rw [Function.update_of_ne (by omega)]
      exact h.chars j hj
    · by_cases hlast : j = i
      · rw [hlast, Function.update_self]
      · rw [Function.update_of_ne hlast]
        exact h.zeros j hj (by omega)

/-! ### The handler -/

theorem bounded_newLine (h : Bounded s) : Bounded (scrollbackNewLine s) := by
  refine ⟨by rw [newLine_currColumn]; omega, fun r => ?_⟩
  rw [newLine_scrollbuffer]
  by_cases hr : r = s.nextLine
  · subst hr
    rw [Function.update_self]
    split_ifs
    exacts [rfl, h.terminated s.nextLine]
  · rw [Function.update_of_ne hr]
    exact h.terminated r

theorem filledTo_newLine (h : Bounded s) : FilledTo 257 (scrollbackNewLine s) := by
  refine FilledTo.terminate ⟨fun j hj => ?_, fun j _ hji => ?_⟩ (bounded_newLine h)
  · rw [newLine_currColumn] at hj
    omega
  · rw [currRow, newLine_currLine, newLine_scrollbuffer, Function.update_self, if_pos hji]

theorem bounded_deleteLast (h : Bounded s) (scancode : UInt8) :
    Bounded (deleteLast scancode s).1 := by
  unfold deleteLast
  split_ifs
  · exact h
  · have hb : Bounded { s with currColumn := s.currColumn - 1 } :=
      ⟨(Nat.sub_le _ _).trans h.column_le, h.terminated⟩
    exact ⟨hb.column_le, terminated_store hb (Or.inr rfl)⟩

theorem filledTo_deleteLast (h : FilledTo i s) (scancode : UInt8) :
    FilledTo i (deleteLast scancode s).1 := by
  unfold deleteLast
  split_ifs with hcol
  · exact h
  · have hrow : (({ s with currColumn := s.currColumn - 1 }).store (s.currColumn - 1) 0).currRow =
        Function.update s.currRow (s.currColumn - 1) 0 := currRow_store _ _ _
    refine ⟨fun j hj => ?_, fun j hj hji => ?_⟩ <;> dsimp only [store] at hj <;> rw [hrow]
    · rw [Function.update_of_ne (by omega)]
      exact h.chars j (by omega)
    · by_cases hlast : j = s.currColumn - 1
      · rw [hlast, Function.update_self]
      · rw [Function.update_of_ne hlast]
        exact h.zeros j (by omega) hji

/-- What a whole `scrollback_putchar` stores to: the current row, or an empty one. -/
theorem putchar_target (font : Font) (fb : FbGeometry) (h : Bounded s) {c : UInt8} (hc : c ≠ 0) :
    ∃ s', Bounded s' ∧ s'.currColumn < 256 ∧ (∀ i ≤ 257, FilledTo i s → FilledTo i s') ∧
      scrollbackPutchar font fb s c = s'.putColumn c := by
  rw [scrollbackPutchar, if_neg hc]
  have hfull : Bounded s.wrapFull ∧ s.wrapFull.currColumn < 256 ∧
      ∀ i ≤ 257, FilledTo i s → FilledTo i s.wrapFull := by
    unfold wrapFull
    split_ifs with hcol
    · exact ⟨bounded_newLine h, by rw [newLine_currColumn]; omega,
        fun i hi _ => (filledTo_newLine h).mono hi⟩
    · exact ⟨h, by simp only [maxLineLen] at hcol; omega, fun _ _ hf => hf⟩
  obtain ⟨hb, hcol, hfill⟩ := hfull
  refine ⟨_, ?_, ?_, ?_, rfl⟩ <;> unfold wrapWide <;> split_ifs
  · exact bounded_newLine hb
  · exact hb
  · rw [newLine_currColumn]
    omega
  · exact hcol
  · exact fun i hi _ => (filledTo_newLine hb).mono hi
  · exact hfill

theorem bounded_putchar (font : Font) (fb : FbGeometry) (h : Bounded s) (c : UInt8) :
    Bounded (scrollbackPutchar font fb s c) := by
  by_cases hc : c = 0
  · rw [scrollbackPutchar, if_pos hc]
    exact h
  · obtain ⟨s', hb, hcol, -, heq⟩ := putchar_target font fb h hc
    rw [heq]
    exact bounded_putColumn hb hcol c

theorem filledTo_putchar (font : Font) (fb : FbGeometry) (h : Bounded s) (hi : i ≤ 257)
    (hf : FilledTo i s) (c : UInt8) : FilledTo i (scrollbackPutchar font fb s c) := by
  by_cases hc : c = 0
  · rw [scrollbackPutchar, if_pos hc]
    exact hf
  · obtain ⟨s', -, -, hfill, heq⟩ := putchar_target font fb h hc
    rw [heq]
    exact filledTo_putColumn (hfill i hi hf) hc

end

section

variable {font : Font} {fb : FbGeometry} {d : Display} {i : ℕ}

theorem bounded_exec (h : Bounded d.sb) (op : Op) : Bounded (op.exec font fb d).sb := by
  cases op <;> simp only [Op.exec, Op.edit]
  case putchar c => exact bounded_putchar font fb h c
  case newLine => exact bounded_newLine h
  case deleteLast => exact bounded_deleteLast h 0x0e
  case moveUp => exact h.congr (sameText_moveUp 0x48 d.sb).sameRows
  case moveDown => exact h.congr (sameText_moveDown 0x50 d.sb).sameRows
  case toggleShift => exact h.congr (sameText_toggleShift 0x2a d.sb).sameRows
  case draw => exact h.congr (sameText_draw font fb d).sameRows

theorem filledTo_exec (h : Bounded d.sb) (hi : i ≤ 257) (hf : FilledTo i d.sb) (op : Op) :
    FilledTo i (op.exec font fb d).sb := by
  cases op <;> simp only [Op.exec, Op.edit]
  case putchar c => exact filledTo_putchar font fb h hi hf c
  case newLine => exact (filledTo_newLine h).mono hi
  case deleteLast => exact filledTo_deleteLast hf 0x0e
  case moveUp => exact hf.congr (sameText_moveUp 0x48 d.sb).sameRows
  case moveDown => exact hf.congr (sameText_moveDown 0x50 d.sb).sameRows
  case toggleShift => exact hf.congr (sameText_toggleShift 0x2a d.sb).sameRows
  case draw => exact hf.congr (sameText_draw font fb d).sameRows

/-- **A key keeps the order of the row**, wherever in a call of `main` it is handled. -/
theorem bounded_key (h : Bounded d.sb) (scancode : UInt8) :
    Bounded (keyboardProcessScancode font fb d scancode).sb := by
  rw [keyboardProcessScancode_eq]
  exact run_invariant (I := fun d : Display => Bounded d.sb) h (fun _ op h => bounded_exec h op) _

theorem filledTo_key (h : Bounded d.sb) (hi : i ≤ 257) (hf : FilledTo i d.sb) (scancode : UInt8) :
    FilledTo i (keyboardProcessScancode font fb d scancode).sb := by
  rw [keyboardProcessScancode_eq]
  exact (run_invariant (I := fun d : Display => Bounded d.sb ∧ FilledTo i d.sb) ⟨h, hf⟩
    (fun _ op h => ⟨bounded_exec h.1 op, filledTo_exec h.1 hi h.2 op⟩) _).2

end

/-! ## Runs with keys -/

/-- How far the current row is in order when `main` is at `pc`: not at all between the first two
statements of a new line, and as far as the clearing loop has come after them. -/
def Pc.filled : Pc → Option ℕ
  | .nlColumn _ => none
  | .nlStartTest _ | .nlStartSet _ | .nlTopTest _ | .nlTopSet _ | .nlStickyTest _ | .downTest _
  | .downSet _ => some 0
  | .nlClear _ i => some i
  | _ => some 257

/-- The character `main` is about to store, if any. -/
def Return.char : Return → Option UInt8
  | main => none
  | putMeasure c | putStore c => some c

def Pc.char : Pc → Option UInt8
  | .idle | .putNul _ => none
  | .putFull c | .putMeasure c | .putWide c _ | .putStore c => some c
  | .nlLine r | .nlColumn r | .nlStartTest r | .nlStartSet r | .nlTopTest r | .nlTopSet r
  | .nlStickyTest r | .downTest r | .downSet r | .nlClear r _ => r.char

/-- The current row is in order as far as it has to be where `main` is. -/
structure Intact (m : Boot) : Prop where
  bounded : Bounded m.display.sb
  filled : ∀ i ∈ m.pc.filled, i ≤ 257 ∧ FilledTo i m.display.sb
  char_ne : ∀ c ∈ m.pc.char, c ≠ 0
  clear_le : ∀ r i, m.pc = .nlClear r i → i ≤ maxLineLen

/-- With the cursor at `column`, the next statement of `main` does not store past the end of the
row, nor clear a column before the cursor. -/
def Pc.Safe (column : ℕ) : Pc → Prop
  | .putStore _ => column < maxLineLen
  | .nlClear _ i => i < maxLineLen → column ≤ i
  | _ => True

instance (column : ℕ) (pc : Pc) : Decidable (pc.Safe column) := by
  cases pc <;> dsimp only [Pc.Safe] <;> infer_instance

section

variable {font : Font} {fb : FbGeometry}

/-- `main` goes on where the row need not be in order any further than where it was. -/
theorem Intact.goto {m : Boot} {pc : Pc} {n k : ℕ} (h : Intact m) (hm : m.pc.filled = some n)
    (hpc : pc.filled = some k) (hk : k ≤ n) (hchar : ∀ c ∈ pc.char, c ≠ 0)
    (hclear : ∀ r i, pc = .nlClear r i → i ≤ maxLineLen) : Intact (m.goto pc) where
  bounded := h.bounded
  filled := by
    intro i hi
    obtain rfl : k = i := Option.some.inj (hpc.symm.trans hi)
    obtain ⟨hn, hf⟩ := h.filled n hm
    exact ⟨hk.trans hn, hf.mono hk⟩
  char_ne := hchar
  clear_le := hclear

/-- A new line leaves the row that `main` returns with as it found it. -/
theorem Return.filled_pc (r : Return) : r.pc.filled = some 257 := by
  cases r <;> rfl

theorem Return.char_pc (r : Return) : r.pc.char = r.char := by
  cases r <;> rfl

theorem Return.pc_ne_nlClear (r r' : Return) (i : ℕ) : r.pc ≠ .nlClear r' i := by
  cases r <;> simp [Return.pc]

theorem intact_irq {m : Boot} (h : Intact m) (scancode : UInt8) :
    Intact (bootStep font fb m (.irq scancode)) where
  bounded := bounded_key h.bounded scancode
  filled := by
    intro i hi
    obtain ⟨hle, hf⟩ := h.filled i hi
    exact ⟨hle, filledTo_key h.bounded hle hf scancode⟩
  char_ne := h.char_ne
  clear_le := h.clear_le

theorem Intact.setRows {m : Boot} {s : Scrollback} {pc : Pc} {n k : ℕ} (h : Intact m)
    (hs : SameRows m.display.sb s) (hm : m.pc.filled = some n) (hpc : pc.filled = some k)
    (hk : k ≤ n) (hchar : ∀ c ∈ pc.char, c ≠ 0)
    (hclear : ∀ r i, pc = .nlClear r i → i ≤ maxLineLen) : Intact (m.set s pc) := by
  have hgoto := h.goto hm hpc hk hchar hclear
  refine ⟨hgoto.bounded.congr hs, fun i hi => ?_, hchar, hclear⟩
  obtain ⟨hle, hf⟩ := hgoto.filled i hi
  exact ⟨hle, hf.congr hs⟩

theorem Intact.branch {m : Boot} {p : Prop} [Decidable p] {pc pc' : Pc} (h : Intact (m.goto pc))
    (h' : Intact (m.goto pc')) : Intact (m.goto (if p then pc else pc')) := by
  split_ifs
  exacts [h, h']

theorem intact_putStore {c : UInt8} {calls : List ScrollbackCall} {d : Display}
    (h : Intact ⟨.putStore c, calls, d⟩) (hroom : d.sb.currColumn < maxLineLen) :
    Intact ⟨.idle, calls, { d with sb := d.sb.putColumn c }⟩ := by
  have hput : FilledTo 257 (d.sb.putColumn c) :=
    filledTo_putColumn (h.filled 257 rfl).2 (h.char_ne c rfl)
  refine ⟨bounded_putColumn h.bounded hroom c, fun i hi => ?_, by simp [Pc.char], by simp⟩
  obtain rfl : 257 = i := Option.some.inj hi
  exact ⟨le_rfl, hput⟩

/-- `curr_column = 0`: nothing of the row is in order yet, and nothing has to be. -/
theorem intact_nlColumn {r : Return} {calls : List ScrollbackCall} {d : Display}
    (h : Intact ⟨.nlColumn r, calls, d⟩) :
    Intact ⟨.nlStartTest r, calls, { d with sb := d.sb.resetColumn }⟩ := by
  refine ⟨⟨Nat.zero_le _, h.bounded.terminated⟩, fun i hi => ?_, h.char_ne, by simp⟩
  obtain rfl : 0 = i := Option.some.inj hi
  exact ⟨Nat.zero_le _, fun j hj => absurd hj (Nat.not_lt_zero j),
    fun j _ hj => absurd hj (Nat.not_lt_zero j)⟩

theorem intact_nlClear {r : Return} {i : ℕ} {calls : List ScrollbackCall} {d : Display}
    (h : Intact ⟨.nlClear r i, calls, d⟩) (hlt : i < maxLineLen) (hfree : d.sb.currColumn ≤ i) :
    Intact ⟨.nlClear r (i + 1), calls, { d with sb := d.sb.clearColumn i }⟩ := by
  have hclear := (filledTo_clearColumn_iff (h.filled i rfl).2).2 hfree
  refine ⟨bounded_clearColumn h.bounded i, fun k hk => ?_, h.char_ne, fun r' k hk => ?_⟩
  · obtain rfl : i + 1 = k := Option.some.inj hk
    exact ⟨by simp only [maxLineLen] at hlt; omega, hclear⟩
  · obtain ⟨-, rfl⟩ := Pc.nlClear.inj hk
    exact hlt

/-- The end of the clearing loop: the byte after the row is zero too. -/
theorem intact_nlClear_end {r : Return} {calls : List ScrollbackCall} {d : Display}
    (h : Intact ⟨.nlClear r maxLineLen, calls, d⟩) : Intact ⟨r.pc, calls, d⟩ := by
  refine ⟨h.bounded, fun k hk => ?_, ?_, fun r' k hk => absurd hk (r.pc_ne_nlClear r' k)⟩
  · obtain rfl : 257 = k := Option.some.inj (r.filled_pc.symm.trans hk)
    exact ⟨le_rfl, (h.filled maxLineLen rfl).2.terminate h.bounded⟩
  · show ∀ c ∈ r.pc.char, c ≠ 0
    rw [r.char_pc]
    exact h.char_ne

/-- **A safe statement of `main` keeps the row in order** as far as it has to be. -/
theorem intact_main {m : Boot} (h : Intact m) (hsafe : m.pc.Safe m.display.sb.currColumn) :
    Intact (m.mainStep font fb) := by
  obtain ⟨pc, calls, d⟩ := m
  have hne := h.char_ne
  cases pc with
  | idle =>
    cases calls with
    | nil => exact h
    | cons call calls =>
      cases call with
      | putchar c =>
        show Intact ⟨.putNul c, calls, d⟩
        exact ⟨h.bounded, h.filled, hne, by simp⟩
      | newLine =>
        show Intact ⟨.nlLine .main, calls, d⟩
        exact ⟨h.bounded, h.filled, hne, by simp⟩
  | putNul c =>
    simp only [Boot.mainStep]
    split_ifs with hc
    · exact h.goto rfl rfl le_rfl (by simp [Pc.char]) (by simp)
    · exact h.goto rfl rfl le_rfl (by simp [Pc.char, hc]) (by simp)
  | putFull c =>
    refine Intact.branch ?_ ?_
    · exact h.goto rfl rfl le_rfl hne (by simp)
    · exact h.goto rfl rfl le_rfl hne (by simp)
  | putMeasure c => exact h.goto rfl rfl le_rfl hne (by simp)
  | putWide c lineWidth =>
    refine Intact.branch ?_ ?_
    · exact h.goto rfl rfl le_rfl hne (by simp)
    · exact h.goto rfl rfl le_rfl hne (by simp)
  | putStore c => exact intact_putStore h hsafe
  | nlLine r =>
    show Intact ⟨.nlColumn r, calls, { d with sb := d.sb.advanceLine }⟩
    exact ⟨⟨h.bounded.column_le, h.bounded.terminated⟩, by simp [Pc.filled], hne, by simp⟩
  | nlColumn r => exact intact_nlColumn h
  | nlStartTest r =>
    refine Intact.branch ?_ ?_
    · exact h.goto rfl rfl le_rfl hne (by simp)
    · exact h.goto rfl rfl le_rfl hne (by simp)
  | nlStartSet r => exact h.setRows ⟨rfl, rfl, rfl⟩ rfl rfl le_rfl hne (by simp)
  | nlTopTest r =>
    refine Intact.branch ?_ ?_
    · exact h.goto rfl rfl le_rfl hne (by simp)
    · exact h.goto rfl rfl le_rfl hne (by simp)
  | nlTopSet r => exact h.setRows ⟨rfl, rfl, rfl⟩ rfl rfl le_rfl hne (by simp)
  | nlStickyTest r =>
    refine Intact.branch ?_ ?_
    · exact h.goto rfl rfl le_rfl hne (by simp)
    · exact h.goto rfl rfl le_rfl hne (by simp)
  | downTest r =>
    refine Intact.branch ?_ ?_
    · exact h.goto rfl rfl le_rfl hne (by simp)
    · exact h.goto rfl rfl le_rfl hne (by simp)
  | downSet r => exact h.setRows ⟨rfl, rfl, rfl⟩ rfl rfl le_rfl hne (by simp)
  | nlClear r i =>
    simp only [Boot.mainStep]
    by_cases hlt : i < maxLineLen
    · rw [if_pos hlt]
      exact intact_nlClear h hlt (hsafe hlt)
    · have hle := h.clear_le r i rfl
      obtain rfl : i = maxLineLen := by omega
      rw [if_neg hlt]
      exact intact_nlClear_end h

/-- **Exactly the safe statements** keep the row in order. -/
theorem intact_main_iff {m : Boot} (h : Intact m) :
    Intact (m.mainStep font fb) ↔ m.pc.Safe m.display.sb.currColumn := by
  refine ⟨fun h' => ?_, intact_main h⟩
  obtain ⟨pc, calls, d⟩ := m
  cases pc with
  | putStore c => exact h'.bounded.column_le
  | nlClear r i =>
    intro hlt
    simp only [Boot.mainStep, if_pos hlt] at h'
    exact (filledTo_clearColumn_iff (h.filled i rfl).2).1 (h'.filled (i + 1) rfl).2
  | _ => trivial

end

theorem intact_init (canvas : ℕ → Rgb) (lines : List (List UInt8)) :
    Intact (Boot.init canvas lines) where
  bounded := ⟨Nat.zero_le _, fun _ => rfl⟩
  filled := by
    intro i hi
    obtain rfl : 257 = i := Option.some.inj hi
    exact ⟨le_rfl, fun j hj => absurd hj (Nat.not_lt_zero j), fun _ _ _ => rfl⟩
  char_ne := by simp [Boot.init, Pc.char]
  clear_le := by simp [Boot.init]

end Marcelov
