import Marcelov.Heal

/-!
# Printing and typing take turns

`Marcelov.BootPrint` has the keys come between any two statements of the calls that `main` makes,
and says what becomes of the row. This is about the text. A call takes effect at one of its
statements, the test for a full row in `scrollback_putchar` and the first one of
`scrollback_new_line`, and from there on it must not meet a key that edits the text; any other
key, the scroll keys and their redraws among them, may come at any time.

* `Halfway` — a state in the middle of a call, and the display with the call done;
* `boot_linearizes` — then the text is what the calls and the keys make of it one after the other;
* `boot_prints_all` — and in any case the calls come to an end, whatever the keys do.
-/

namespace Marcelov

open Lib Scrollback

/-! ## When calls and keys take effect -/

/-- The operation moves the view at most. -/
def Op.keepsText : Op → Bool
  | .moveUp | .moveDown | .toggleShift | .draw => true
  | .putchar _ | .newLine | .deleteLast => false

/-- The calls that take effect at a statement of `main`. -/
def Pc.effects : Pc → List Op
  | .putFull c => [.putchar c]
  | .nlLine .main => [.newLine]
  | _ => []

/-- `main` is between two calls, or in one that has not taken effect. -/
def Pc.atRest : Pc → Bool
  | .idle | .putNul _ | .putFull _ | .nlLine .main => true
  | _ => false

/-- A key does not edit the text in the middle of a call. -/
def TakesTurn (m : Boot) : BootEvent → Prop
  | .main => True
  | .irq scancode => m.pc.atRest = true ∨ (keyOps m.display.sb scancode).all Op.keepsText = true

instance (m : Boot) : ∀ e, Decidable (TakesTurn m e)
  | .main => .isTrue trivial
  | .irq scancode => inferInstanceAs (Decidable (m.pc.atRest = true ∨
      (keyOps m.display.sb scancode).all Op.keepsText = true))

/-- The operations that take effect with an event. -/
def Boot.effects (m : Boot) : BootEvent → List Op
  | .main => m.pc.effects
  | .irq scancode => keyOps m.display.sb scancode

/-- Those of `main`. -/
def Boot.mainEffects (m : Boot) : BootEvent → List Op
  | .main => m.pc.effects
  | .irq _ => []

/-! ## The rest of a call -/

/-- What is left of a new line, but for the view. -/
def Pc.rest : Pc → Scrollback → Scrollback
  | .nlLine r, s =>
    if r = .main then s else s.advanceLine.resetColumn.evict.clearFrom 0 maxLineLen
  | .nlColumn _, s => s.resetColumn.evict.clearFrom 0 maxLineLen
  | .nlStartTest _, s => s.evict.clearFrom 0 maxLineLen
  | .nlStartSet _, s => s.evictLine.clearFrom 0 maxLineLen
  | .nlTopTest _, s | .nlTopSet _, s | .nlStickyTest _, s | .downTest _, s | .downSet _, s =>
    s.clearFrom 0 maxLineLen
  | .nlClear _ i, s => s.clearFrom i (maxLineLen - i)
  | _, s => s

/-- What is left of `scrollback_putchar` when a new line returns to it, but for the view. -/
def Return.after (font : Font) (fb : FbGeometry) (s : Scrollback) : Return → Scrollback
  | .main => s
  | .putMeasure c => (s.wrapWide fb (s.lineWidthWith font c)).putColumn c
  | .putStore c => s.putColumn c

/-- What is left of a call after what is left of a new line, but for the view. -/
def Pc.after (font : Font) (fb : FbGeometry) (s : Scrollback) : Pc → Scrollback
  | .putMeasure c => Return.after font fb s (.putMeasure c)
  | .putWide c lineWidth => (s.wrapWide fb lineWidth).putColumn c
  | .putStore c => s.putColumn c
  | .nlLine r | .nlColumn r | .nlStartTest r | .nlStartSet r | .nlTopTest r | .nlTopSet r
  | .nlStickyTest r | .downTest r | .downSet r | .nlClear r _ => r.after font fb s
  | .idle | .putNul _ | .putFull _ => s

section

variable {s s' : Scrollback} {font : Font} {fb : FbGeometry}

theorem Scrollback.SameText.clearFrom (h : SameText s s') (i n : ℕ) :
    SameText (s.clearFrom i n) (s'.clearFrom i n) := by
  obtain ⟨hbuf, hstart, hline, hcol, hstores⟩ := h
  rw [clearFrom_eq, clearFrom_eq]
  refine ⟨?_, hstart, hline, hcol, ?_⟩ <;> simp only [currRow, hbuf, hline, hstores]

theorem Scrollback.SameText.evict (h : SameText s s') : SameText s.evict s'.evict := by
  obtain ⟨hbuf, hstart, hline, hcol, hstores⟩ := h
  rw [evict_eq, evict_eq]
  refine ⟨hbuf, ?_, hline, hcol, hstores⟩
  simp only [hstart, hline]

theorem Scrollback.SameText.resetColumn (h : SameText s s') :
    SameText s.resetColumn s'.resetColumn :=
  ⟨h.scrollbuffer, h.start, h.currLine, rfl, h.stores⟩

/-- **What is left of a new line** is the same wherever the view is. -/
theorem Scrollback.SameText.rest (h : SameText s s') (pc : Pc) :
    SameText (pc.rest s) (pc.rest s') := by
  have hadvance : SameText s.advanceLine s'.advanceLine :=
    ⟨h.scrollbuffer, h.start, by simp only [advanceLine, h.currLine], h.currColumn, h.stores⟩
  have hevict : SameText s.evictLine s'.evictLine :=
    ⟨h.scrollbuffer, by simp only [evictLine, h.start], h.currLine, h.currColumn, h.stores⟩
  cases pc with
  | nlLine r =>
    simp only [Pc.rest]
    split_ifs
    exacts [h, hadvance.resetColumn.evict.clearFrom 0 maxLineLen]
  | nlColumn r => exact h.resetColumn.evict.clearFrom 0 maxLineLen
  | nlStartTest r => exact h.evict.clearFrom 0 maxLineLen
  | nlStartSet r => exact hevict.clearFrom 0 maxLineLen
  | nlTopTest r | nlTopSet r | nlStickyTest r | downTest r | downSet r =>
    exact h.clearFrom 0 maxLineLen
  | nlClear r i => exact h.clearFrom i (maxLineLen - i)
  | _ => exact h

theorem Scrollback.SameText.afterReturn (h : SameText s s') (r : Return) :
    SameText (r.after font fb s) (r.after font fb s') := by
  cases r with
  | main => exact h
  | putMeasure c =>
    simp only [Return.after, h.lineWidthWith_eq]
    exact (h.wrapWide fb _).putColumn c
  | putStore c => exact h.putColumn c

/-- **What is left of a call** does the same to the text wherever the view is. -/
theorem Scrollback.SameText.after (h : SameText s s') (pc : Pc) :
    SameText (pc.after font fb s) (pc.after font fb s') := by
  cases pc with
  | putMeasure c => exact h.afterReturn (.putMeasure c)
  | putWide c lineWidth => exact (h.wrapWide fb lineWidth).putColumn c
  | putStore c => exact h.putColumn c
  | idle | putNul | putFull => exact h
  | _ => exact h.afterReturn _

/-- A new line, but for the view. -/
theorem sameText_newLine (s : Scrollback) :
    SameText (scrollbackNewLine s) (s.advanceLine.resetColumn.evict.clearFrom 0 maxLineLen) := by
  refine SameText.clearFrom ?_ 0 maxLineLen
  rw [follow_eq]
  exact ⟨rfl, rfl, rfl, rfl, rfl⟩

end

/-! ## In the middle of a call -/

/-- What is left of the call that `main` is in will leave the text of `d`. -/
structure Halfway (font : Font) (fb : FbGeometry) (m : Boot) (d : Display) : Prop where
  text : SameText d.sb (m.pc.after font fb (m.pc.rest m.display.sb))
  shift : m.display.sb.isShiftPressed = d.sb.isShiftPressed
  char_ne : ∀ c ∈ m.pc.char, c ≠ 0
  clear_le : ∀ r i, m.pc = .nlClear r i → i ≤ maxLineLen

section

variable {font : Font} {fb : FbGeometry} {m : Boot} {d d' : Display}

theorem Pc.after_of_atRest {pc : Pc} (h : pc.atRest = true) (s : Scrollback) :
    pc.after font fb (pc.rest s) = s := by
  cases pc with
  | nlLine r =>
    cases r with
    | main => rfl
    | _ => cases h
  | idle | putNul | putFull => rfl
  | _ => cases h

theorem Halfway.sameTyping (h : Halfway font fb m d) (hrest : m.pc.atRest = true) :
    SameTyping d.sb m.display.sb := by
  have htext := h.text
  rw [Pc.after_of_atRest hrest] at htext
  exact ⟨htext, h.shift⟩

/-! ### Keys -/

theorem sameText_of_keepsText {ops : List Op} (h : ops.all Op.keepsText = true) (d : Display) :
    SameText d.sb (runOps font fb d ops).sb := by
  refine run_invariant_of_mem (I := fun d' : Display => SameText d.sb d'.sb) (SameText.refl d.sb) ?_
  intro d' op hop hd
  refine hd.trans ?_
  have hkeeps : op.keepsText = true := List.all_eq_true.1 h op hop
  cases op with
  | moveUp => exact sameText_moveUp 0x48 d'.sb
  | moveDown => exact sameText_moveDown 0x50 d'.sb
  | toggleShift => exact sameText_toggleShift 0x2a d'.sb
  | draw => exact sameText_draw font fb d'
  | _ => cases hkeeps

theorem isShiftPressed_exec (d : Display) (op : Op) :
    (op.exec font fb d).sb.isShiftPressed =
      (d.sb.isShiftPressed ^^ decide (op = .toggleShift)) := by
  cases op <;> simp only [Op.exec, Op.edit, reduceCtorEq, decide_false, Bool.xor_false]
  case putchar c => exact isShiftPressed_putchar d.sb c
  case newLine => exact newLine_isShiftPressed d.sb
  case deleteLast =>
    unfold Marcelov.deleteLast
    split_ifs <;> rfl
  case moveUp => exact (sameTyping_moveUp 0x48 d.sb).shift
  case moveDown => exact (sameTyping_moveDown 0x50 d.sb).shift
  case toggleShift => exact (Bool.xor_true _).symm
  case draw => exact isShiftPressed_draw d

theorem isShiftPressed_runOps (h : d'.sb.isShiftPressed = d.sb.isShiftPressed) (ops : List Op) :
    (runOps font fb d' ops).sb.isShiftPressed = (runOps font fb d ops).sb.isShiftPressed :=
  run_simulation (R := fun d' d : Display => d'.sb.isShiftPressed = d.sb.isShiftPressed) h
    (fun d' d op h => by rw [isShiftPressed_exec, isShiftPressed_exec, h]) ops

/-- **A key that takes its turn.** -/
theorem halfway_irq {scancode : UInt8} (hturn : TakesTurn m (.irq scancode))
    (h : Halfway font fb m d) :
    Halfway font fb (bootStep font fb m (.irq scancode))
      (runOps font fb d (keyOps m.display.sb scancode)) := by
  have hkey : (bootStep font fb m (.irq scancode)).display =
      runOps font fb m.display (keyOps m.display.sb scancode) :=
    keyboardProcessScancode_eq font fb m.display scancode
  refine ⟨?_, ?_, h.char_ne, h.clear_le⟩
  · show SameText _ (m.pc.after font fb (m.pc.rest _))
    rw [hkey]
    rcases hturn with hrest | hkeeps
    · rw [Pc.after_of_atRest hrest]
      have htext : SameText d.sb m.display.sb := (h.sameTyping hrest).text
      exact run_simulation (R := fun d d' : Display => SameText d.sb d'.sb) htext
        (fun _ _ op h => h.exec op) _
    · refine (sameText_of_keepsText hkeeps d).symm.trans (h.text.trans ?_)
      exact ((sameText_of_keepsText hkeeps m.display).rest m.pc).after m.pc
  · rw [hkey]
    exact isShiftPressed_runOps h.shift _

/-! ### Statements of `main` -/

/-- `main` goes on where as much is left of the call. -/
theorem Halfway.goto {s : Scrollback} {pc : Pc} (h : Halfway font fb m d)
    (htext : SameText (m.pc.after font fb (m.pc.rest m.display.sb))
      (pc.after font fb (pc.rest s)))
    (hshift : s.isShiftPressed = m.display.sb.isShiftPressed) (hchar : ∀ c ∈ pc.char, c ≠ 0)
    (hclear : ∀ r i, pc = .nlClear r i → i ≤ maxLineLen) :
    Halfway font fb (m.set s pc) d where
  text := h.text.trans htext
  shift := hshift.trans h.shift
  char_ne := hchar
  clear_le := hclear

theorem Halfway.branch {p : Prop} [Decidable p] {pc pc' : Pc}
    (h : Halfway font fb (m.set m.display.sb pc) d)
    (h' : Halfway font fb (m.set m.display.sb pc') d) :
    Halfway font fb (m.goto (if p then pc else pc')) d := by
  split_ifs
  exacts [h, h']

theorem Pc.rest_nlLine {r : Return} (hr : r ≠ .main) (s : Scrollback) :
    (Pc.nlLine r).rest s = s.advanceLine.resetColumn.evict.clearFrom 0 maxLineLen :=
  if_neg hr

theorem sameText_after_nlLine (s : Scrollback) {r : Return} (hr : r ≠ .main) :
    SameText (r.after font fb (scrollbackNewLine s))
      ((Pc.nlLine r).after font fb ((Pc.nlLine r).rest s)) := by
  rw [Pc.rest_nlLine hr]
  exact (sameText_newLine s).afterReturn r

/-- The test for a full row, from which on the call has taken effect. -/
theorem halfway_putFull {c : UInt8} {calls : List ScrollbackCall}
    (h : Halfway font fb ⟨.putFull c, calls, d'⟩ d) :
    Halfway font fb (Boot.mainStep font fb ⟨.putFull c, calls, d'⟩)
      (runOps font fb d [.putchar c]) := by
  obtain ⟨htext, hshift, hchar, -⟩ := h
  have hsame : SameText (scrollbackPutchar font fb d.sb c) (scrollbackPutchar font fb d'.sb c) :=
    SameText.putchar htext font fb c
  have hput : scrollbackPutchar font fb d'.sb c =
      Return.after font fb d'.sb.wrapFull (.putMeasure c) := if_neg (hchar c rfl)
  rw [hput, wrapFull] at hsame
  have hshift' : d'.sb.isShiftPressed = (scrollbackPutchar font fb d.sb c).isShiftPressed :=
    hshift.trans (isShiftPressed_putchar d.sb c).symm
  simp only [Boot.mainStep]
  split_ifs at hsame ⊢ with hfull
  · refine ⟨hsame.trans (sameText_after_nlLine d'.sb (by simp)), hshift', hchar, ?_⟩
    simp [Boot.goto]
  · exact ⟨hsame, hshift', hchar, by simp [Boot.goto]⟩

theorem halfway_putWide {c : UInt8} {lineWidth : ℕ} {calls : List ScrollbackCall}
    (h : Halfway font fb ⟨.putWide c lineWidth, calls, d'⟩ d) :
    Halfway font fb (Boot.mainStep font fb ⟨.putWide c lineWidth, calls, d'⟩) d := by
  have hwide : SameText d.sb ((d'.sb.wrapWide fb lineWidth).putColumn c) := h.text
  rw [wrapWide] at hwide
  simp only [Boot.mainStep]
  split_ifs at hwide ⊢
  · refine ⟨hwide.trans ?_, h.shift, h.char_ne, by simp [Boot.goto]⟩
    exact sameText_after_nlLine (r := .putStore c) d'.sb (by simp)
  · exact ⟨hwide, h.shift, h.char_ne, by simp [Boot.goto]⟩

/-- The first statement of a new line: a call of `main` takes effect with it. -/
theorem halfway_nlLine {r : Return} {calls : List ScrollbackCall}
    (h : Halfway font fb ⟨.nlLine r, calls, d'⟩ d) :
    Halfway font fb (Boot.mainStep font fb ⟨.nlLine r, calls, d'⟩)
      (runOps font fb d (Pc.effects (.nlLine r))) := by
  by_cases hr : r = .main
  · subst hr
    have hnew : SameText (scrollbackNewLine d.sb) (scrollbackNewLine d'.sb) :=
      SameText.newLine h.text
    have hrest : SameText (scrollbackNewLine d'.sb)
        (Pc.after font fb (Pc.rest (.nlColumn .main) d'.sb.advanceLine) (.nlColumn .main)) :=
      sameText_newLine d'.sb
    have hshift : d'.sb.isShiftPressed = (scrollbackNewLine d.sb).isShiftPressed :=
      h.shift.trans (newLine_isShiftPressed d.sb).symm
    have hops : runOps font fb d (Pc.effects (.nlLine .main)) =
        { d with sb := scrollbackNewLine d.sb } := rfl
    have hstep : Boot.mainStep font fb ⟨.nlLine .main, calls, d'⟩ =
        ⟨.nlColumn .main, calls, { d' with sb := d'.sb.advanceLine }⟩ := rfl
    rw [hops, hstep]
    refine ⟨?_, hshift, h.char_ne, by simp⟩
    dsimp only
    exact hnew.trans hrest
  · have heffects : Pc.effects (.nlLine r) = [] := by
      cases r with
      | main => exact absurd rfl hr
      | _ => rfl
    rw [heffects]
    refine h.goto ?_ rfl h.char_ne (by simp)
    dsimp only
    rw [Pc.rest_nlLine hr]
    exact SameText.refl _

theorem halfway_nlClear {r : Return} {i : ℕ} {calls : List ScrollbackCall}
    (h : Halfway font fb ⟨.nlClear r i, calls, d'⟩ d) :
    Halfway font fb (Boot.mainStep font fb ⟨.nlClear r i, calls, d'⟩) d := by
  have hle := h.clear_le r i rfl
  simp only [Boot.mainStep]
  by_cases hi : i < maxLineLen
  · rw [if_pos hi]
    refine h.goto ?_ rfl h.char_ne fun r' i' hpc => ?_
    · simp only [Pc.rest]
      obtain ⟨n, hn⟩ : ∃ n, maxLineLen - i = n + 1 := ⟨maxLineLen - (i + 1), by omega⟩
      rw [hn, (by omega : maxLineLen - (i + 1) = n)]
      exact SameText.refl _
    · obtain ⟨-, rfl⟩ := Pc.nlClear.inj hpc
      exact hi
  · obtain rfl : i = maxLineLen := by omega
    rw [if_neg hi]
    refine h.goto (s := d'.sb) ?_ rfl ?_ fun r' i' hpc => ?_
    · have hdone : r.pc.after font fb (r.pc.rest d'.sb) = r.after font fb d'.sb := by
        cases r <;> rfl
      rw [hdone]
      exact SameText.refl _
    · show ∀ c ∈ r.pc.char, c ≠ 0
      rw [r.char_pc]
      exact h.char_ne
    · exact absurd hpc (r.pc_ne_nlClear r' i')

/-- **A statement of `main`.** -/
theorem halfway_main (h : Halfway font fb m d) :
    Halfway font fb (m.mainStep font fb) (runOps font fb d m.pc.effects) := by
  obtain ⟨pc, calls, d'⟩ := m
  have hchar := h.char_ne
  have hsame (s : Scrollback) : SameText s s := SameText.refl s
  have hdown (s : Scrollback) : SameText s s.topLineDown := ⟨rfl, rfl, rfl, rfl, rfl⟩
  cases pc with
  | idle =>
    cases calls with
    | nil => exact h
    | cons call calls =>
      obtain ⟨htext, hshift, -, -⟩ := h
      cases call with
      | putchar c =>
        exact ⟨htext, hshift, by simp [Boot.mainStep, Pc.char], by simp [Boot.mainStep]⟩
      | newLine =>
        exact ⟨htext, hshift, by simp [Boot.mainStep, Pc.char, Return.char],
          by simp [Boot.mainStep]⟩
  | putNul c =>
    simp only [Boot.mainStep]
    split_ifs with hc
    · exact h.goto (hsame _) rfl (by simp [Pc.char]) (by simp)
    · exact h.goto (hsame _) rfl (by simp [Pc.char, hc]) (by simp)
  | putFull c => exact halfway_putFull h
  | putMeasure c => exact h.goto (hsame _) rfl hchar (by simp)
  | putWide c lineWidth => exact halfway_putWide h
  | putStore c => exact h.goto (hsame _) rfl (by simp [Pc.char]) (by simp)
  | nlLine r => exact halfway_nlLine h
  | nlColumn r => exact h.goto (hsame _) rfl hchar (by simp)
  | nlStartTest r =>
    simp only [Boot.mainStep]
    split_ifs with hstart
    · refine h.goto (s := d'.sb) ?_ rfl hchar (by simp)
      simp only [Pc.rest, evict, if_pos hstart]
      exact hsame _
    · refine h.goto (s := d'.sb) ?_ rfl hchar (by simp)
      simp only [Pc.rest, evict, if_neg hstart]
      exact hsame _
  | nlStartSet r => exact h.goto (hsame _) rfl hchar (by simp)
  | nlTopTest r | nlStickyTest r | downTest r =>
    refine Halfway.branch ?_ ?_ <;> exact h.goto (hsame _) rfl hchar (by simp)
  | nlTopSet r | downSet r =>
    exact h.goto (((hdown d'.sb).clearFrom 0 _).afterReturn r) rfl hchar (by simp)
  | nlClear r i => exact halfway_nlClear h

/-- **One event of a run in which the keys take turns.** -/
theorem halfway_step {e : BootEvent} (hturn : TakesTurn m e) (h : Halfway font fb m d) :
    Halfway font fb (bootStep font fb m e) (runOps font fb d (m.effects e)) := by
  cases e with
  | main => exact halfway_main h
  | irq scancode => exact halfway_irq hturn h

theorem halfway_init (canvas : ℕ → Rgb) (lines : List (List UInt8)) :
    Halfway font fb (Boot.init canvas lines) (Display.init canvas) where
  text := SameText.refl _
  shift := rfl
  char_ne := by simp [Boot.init, Pc.char]
  clear_le := by simp [Boot.init]

end

/-! ## The calls of `main` -/

/-- The call that `main` has begun and that has not taken effect. -/
def Pc.begun : Pc → List Op
  | .putNul c | .putFull c => [.putchar c]
  | .nlLine .main => [.newLine]
  | _ => []

/-- What took effect, what is begun and what is left of the calls of `main` are all its calls. -/
structure Counts (calls : List ScrollbackCall) (m : Boot) (done : List Op) : Prop where
  eq : done ++ m.pc.begun ++ m.calls.map ScrollbackCall.op = calls.map ScrollbackCall.op
  putNul_ne : ∀ c, m.pc = .putNul c → c ≠ 0
  calls_ne : ∀ c, .putchar c ∈ m.calls → c ≠ 0

section

variable {font : Font} {fb : FbGeometry} {m : Boot} {calls : List ScrollbackCall} {done : List Op}

/-- A statement at which no call is begun or takes effect. -/
theorem Counts.goto {s : Scrollback} {pc : Pc} (h : Counts calls m done)
    (hbegun : m.pc.begun = m.pc.effects ++ pc.begun) (hpc : ∀ c, pc ≠ .putNul c) :
    Counts calls (m.set s pc) (done ++ m.pc.effects) where
  eq := by
    have heq := h.eq
    rw [hbegun, ← List.append_assoc done] at heq
    exact heq
  putNul_ne := fun c hc => absurd hc (hpc c)
  calls_ne := h.calls_ne

theorem counts_main (h : Counts calls m done) :
    Counts calls (m.mainStep font fb) (done ++ m.pc.effects) := by
  obtain ⟨pc, left, d⟩ := m
  cases pc with
  | idle =>
    obtain ⟨heq, -, hcalls⟩ := h
    have heq : done ++ [] ++ left.map ScrollbackCall.op = calls.map ScrollbackCall.op := heq
    cases left with
    | nil =>
      refine ⟨?_, by simp [Boot.mainStep], by simp [Boot.mainStep]⟩
      show done ++ [] ++ [] ++ [] = _
      rw [List.append_nil]
      exact heq
    | cons call left =>
      have hleft (c : UInt8) (hc : .putchar c ∈ left) : c ≠ 0 :=
        hcalls c (List.mem_cons_of_mem call hc)
      have hbegun : done ++ [] ++ [call.op] ++ left.map ScrollbackCall.op =
          calls.map ScrollbackCall.op := by
        rw [List.append_assoc _ [call.op]]
        exact heq
      cases call with
      | putchar c =>
        refine ⟨hbegun, fun c' hc' => ?_, hleft⟩
        obtain rfl : c = c' := Pc.putNul.inj hc'
        exact hcalls c List.mem_cons_self
      | newLine => exact ⟨hbegun, by simp [Boot.mainStep], hleft⟩
  | putNul c =>
    simp only [Boot.mainStep]
    rw [if_neg (h.putNul_ne c rfl)]
    exact h.goto (s := d.sb) rfl (by simp)
  | nlLine r =>
    refine h.goto ?_ (by simp)
    cases r <;> rfl
  | nlClear r i =>
    simp only [Boot.mainStep]
    split_ifs
    · exact h.goto rfl (by simp)
    · refine h.goto (s := d.sb) ?_ ?_
      · cases r <;> rfl
      · cases r <;> simp [Return.pc]
  | putFull | putWide | nlStartTest | nlTopTest | nlStickyTest | downTest =>
    simp only [Boot.mainStep]
    split_ifs <;> exact h.goto (s := d.sb) rfl (by simp)
  | putMeasure | putStore | nlColumn | nlStartSet | nlTopSet | downSet =>
    exact h.goto rfl (by simp)

theorem counts_step (h : Counts calls m done) (e : BootEvent) :
    Counts calls (bootStep font fb m e) (done ++ m.mainEffects e) := by
  cases e with
  | main => exact counts_main h
  | irq scancode =>
    rw [Boot.mainEffects, List.append_nil]
    exact ⟨h.eq, h.putNul_ne, h.calls_ne⟩

theorem counts_init (canvas : ℕ → Rgb) (lines : List (List UInt8)) :
    Counts (lines.flatMap scrollbackPrintLine) (Boot.init canvas lines) [] where
  eq := rfl
  putNul_ne := by simp [Boot.init]
  calls_ne := by
    rintro _ hcall rfl
    obtain ⟨l, -, hc⟩ := List.mem_flatMap.1 hcall
    rcases List.mem_append.1 hc with hc | hc
    · obtain ⟨c', hc', heq⟩ := List.mem_map.1 hc
      obtain rfl := ScrollbackCall.putchar.inj heq
      exact absurd (List.mem_takeWhile_imp hc') (by simp)
    · simp at hc

end

section

variable {font : Font} {fb : FbGeometry} {canvas : ℕ → Rgb} {lines : List (List UInt8)}
  {events : List BootEvent}

theorem counts_run
    (hturns : Guarded (bootStep font fb) TakesTurn (Boot.init canvas lines) events) :
    Counts (lines.flatMap scrollbackPrintLine)
      (run (bootStep font fb) (Boot.init canvas lines) events)
      (outputs (bootStep font fb) Boot.mainEffects (Boot.init canvas lines) events) :=
  hturns.outputs (l := []) (I := Counts _) (counts_init canvas lines)
    fun _ e _ _ h => counts_step h e

/-- The run so far, and the operations that have taken effect done one after the other. -/
theorem halfway_run
    (hturns : Guarded (bootStep font fb) TakesTurn (Boot.init canvas lines) events) :
    Halfway font fb (run (bootStep font fb) (Boot.init canvas lines) events)
      (runOps font fb (Display.init canvas)
        (outputs (bootStep font fb) Boot.effects (Boot.init canvas lines) events)) := by
  refine hturns.outputs (l := [])
    (I := fun m ops => Halfway font fb m (runOps font fb (Display.init canvas) ops))
    (halfway_init canvas lines) ?_
  intro m e ops hturn h
  rw [runOps, run_append]
  exact halfway_step hturn h

end

/-- **Printing and typing linearise.** Whatever `main` prints and whichever keys are handled
between its statements: if no key edits the text in the middle of a call that has taken effect,
then between any two calls of `main` the rows, the cursor and Shift are those that the calls and
the keys leave when each is done whole, one after the other, in the order in which they took
effect. The calls of `main` are among them in their own order, each once. -/
theorem boot_linearizes (font : Font) (fb : FbGeometry) (canvas : ℕ → Rgb)
    (lines : List (List UInt8)) (events : List BootEvent)
    (hturns : Guarded (bootStep font fb) TakesTurn (Boot.init canvas lines) events) :
    let m := run (bootStep font fb) (Boot.init canvas lines) events
    let ops := outputs (bootStep font fb) Boot.effects (Boot.init canvas lines) events
    let mainOps := outputs (bootStep font fb) Boot.mainEffects (Boot.init canvas lines) events
    mainOps ++ m.pc.begun ++ m.calls.map ScrollbackCall.op =
        (lines.flatMap scrollbackPrintLine).map ScrollbackCall.op ∧
      (m.pc = .idle →
        SameTyping (runOps font fb (Display.init canvas) ops).sb m.display.sb) := by
  intro m ops mainOps
  refine ⟨(counts_run hturns).eq, fun hidle => (halfway_run hturns).sameTyping ?_⟩
  show m.pc.atRest = true
  rw [hidle]
  rfl

/-- The letter `a` printed, with `q` typed before the call takes effect, and a scroll and Shift
in the middle of it. -/
def turnsRun : List BootEvent :=
  [.main, .irq 0x10, .main, .main, .irq 0x48, .main, .irq 0x2a, .main, .main]

theorem boot_linearizes_turns :
    let m := run (bootStep .monaco mainFb) (Boot.init (fun _ => black) [[0x61]]) turnsRun
    SameTyping (runOps .monaco mainFb (Display.init fun _ => black)
      [.putchar 0x71, .draw, .putchar 0x61, .moveUp, .draw, .toggleShift]).sb m.display.sb := by
  have h := boot_linearizes .monaco mainFb (fun _ => black) [[0x61]] turnsRun (by decide +kernel)
  have hops : outputs (bootStep .monaco mainFb) Boot.effects
      (Boot.init (fun _ => black) [[0x61]]) turnsRun =
        [.putchar 0x71, .draw, .putchar 0x61, .moveUp, .draw, .toggleShift] := by
    decide +kernel
  rw [← hops]
  exact h.2 (by decide +kernel)

/-! ## The end of the calls -/

/-- How many statements are left of a call, at most, after a new line. -/
def Return.work : Return → ℕ
  | .main => 0
  | .putMeasure _ => 268
  | .putStore _ => 1

/-- How many statements are left of a call, at most. -/
def Pc.work : Pc → ℕ
  | .idle => 0
  | .putNul _ => 535
  | .putFull _ => 534
  | .putMeasure _ => 268
  | .putWide _ _ => 267
  | .putStore _ => 1
  | .nlLine r => 265 + r.work
  | .nlColumn r => 264 + r.work
  | .nlStartTest r => 263 + r.work
  | .nlStartSet r => 262 + r.work
  | .nlTopTest r => 261 + r.work
  | .nlStickyTest r => 260 + r.work
  | .downTest r => 259 + r.work
  | .nlTopSet r | .downSet r => 258 + r.work
  | .nlClear r i => maxLineLen - i + 1 + r.work

def Boot.work (m : Boot) : ℕ := m.pc.work + 536 * m.calls.length

section

variable {font : Font} {fb : FbGeometry}

theorem work_goto_lt {m : Boot} {s : Scrollback} {pc : Pc} (h : pc.work < m.pc.work) :
    (m.set s pc).work ≤ m.work - 1 := by
  have hset : (m.set s pc).work = pc.work + 536 * m.calls.length := rfl
  rw [hset, Boot.work]
  omega

theorem Return.work_pc (r : Return) : r.pc.work = r.work := by
  cases r <;> rfl

/-- **Every statement is one less to go.** -/
theorem work_main (m : Boot) : (m.mainStep font fb).work ≤ m.work - 1 := by
  obtain ⟨pc, calls, d⟩ := m
  cases pc with
  | idle =>
    cases calls with
    | nil => exact Nat.zero_le _
    | cons call calls =>
      have hcalls : (call :: calls).length = calls.length + 1 := rfl
      cases call <;> simp only [Boot.mainStep, Boot.work, Pc.work, Return.work, hcalls] <;> omega
  | putFull | putWide =>
    simp only [Boot.mainStep]
    split_ifs <;> exact work_goto_lt (s := d.sb) (by simp [Pc.work, Return.work])
  | putNul | nlStartTest | nlTopTest | nlStickyTest | downTest =>
    simp only [Boot.mainStep]
    split_ifs <;> exact work_goto_lt (s := d.sb) (by simp only [Pc.work, maxLineLen]; omega)
  | putMeasure | putStore | nlLine | nlColumn | nlStartSet | nlTopSet | downSet =>
    exact work_goto_lt (by simp only [Pc.work, maxLineLen]; omega)
  | nlClear r i =>
    simp only [Boot.mainStep]
    split_ifs with hi
    · exact work_goto_lt (by simp only [Pc.work]; omega)
    · refine work_goto_lt (s := d.sb) ?_
      show r.pc.work < maxLineLen - i + 1 + r.work
      rw [r.work_pc]
      omega

theorem idle_of_work {m : Boot} (h : m.work = 0) : m.pc = .idle ∧ m.calls = [] := by
  obtain ⟨pc, calls, d⟩ := m
  obtain ⟨hpc, hcalls⟩ : pc.work = 0 ∧ 536 * calls.length = 0 := Nat.add_eq_zero_iff.1 h
  have hlength : calls.length = 0 := by omega
  refine ⟨?_, List.length_eq_zero_iff.1 hlength⟩
  cases pc <;> simp [Pc.work] at hpc ⊢

end

/-- **No key holds up the printing.** Whichever keys are handled between its statements, `main`
is past its last call after at most 536 statements of its own for each of the calls. -/
theorem boot_prints_all (font : Font) (fb : FbGeometry) (canvas : ℕ → Rgb)
    (lines : List (List UInt8)) (events : List BootEvent)
    (hcount : 536 * (lines.flatMap scrollbackPrintLine).length ≤ events.count .main) :
    let m := run (bootStep font fb) (Boot.init canvas lines) events
    m.pc = .idle ∧ m.calls = [] := by
  intro m
  have hwork : m.work ≤ (Boot.init canvas lines).work - events.countP (· == .main) :=
    run_measure (I := fun _ => True) trivial (fun _ _ _ => trivial) (fun m event _ => ?_) events
  · refine idle_of_work (Nat.le_zero.1 (hwork.trans ?_))
    have hinit : (Boot.init canvas lines).work = 536 * (lines.flatMap scrollbackPrintLine).length :=
      Nat.zero_add _
    rw [hinit]
    exact Nat.le_of_eq (Nat.sub_eq_zero_of_le hcount)
  · cases event with
    | main => exact work_main m
    | irq scancode => exact le_rfl

/-- Two letters printed, with a key after every statement. -/
theorem boot_prints_all_keys :
    let m := run (bootStep .monaco mainFb) (Boot.init (fun _ => black) [[0x61, 0x62]])
      (List.replicate 1608 [BootEvent.main, .irq 0x1e]).flatten
    m.pc = .idle ∧ m.calls = [] := by
  refine boot_prints_all .monaco mainFb (fun _ => black) [[0x61, 0x62]] _ ?_
  rw [List.count_flatten, List.map_replicate, List.sum_replicate]
  decide

end Marcelov
