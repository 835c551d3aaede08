import Mathlib.Tactic.IntervalCases
import Marcelov.Draw
import Marcelov.Lib.Run
import Marcelov.Scancodes

/-!
# The keyboard

`keyboard_process_scancode`, and the operations everything that happens to the scrollback is
made of: `Op` has the two functions `main` prints with, the handlers of the special keys and
the redraw. `keyboardProcessScancode_eq` decomposes a key into such operations, so what holds
along every run of operations holds along every sequence of printed text and keys.
-/

namespace Marcelov

open Lib

theorem specialValue_lt_length (scancode : UInt8) (h : (scancodeDefs scancode).mainValue = 0) :
    (scancodeDefs scancode).specialValue.toNat < specialScancodes.length :=
  specialValue_lt scancode h

/-- `special_scancodes[info.special_value]` -/
def specialHandler (scancode : UInt8) (h : (scancodeDefs scancode).mainValue = 0) :
    ScancodeHandler :=
  specialScancodes.get
    ⟨(scancodeDefs scancode).specialValue.toNat, specialValue_lt_length scancode h⟩

/-- The character a key types: `is_shift_pressed ? info.special_value : info.main_value`. -/
def typedChar (s : Scrollback) (scancode : UInt8) : UInt8 :=
  if s.isShiftPressed then (scancodeDefs scancode).specialValue
  else (scancodeDefs scancode).mainValue

/-- The part of `keyboard_process_scancode` before the redraw, with `should_redraw`. -/
def handleScancode (font : Font) (fb : FbGeometry) (s : Scrollback) (scancode : UInt8) :
    Scrollback × Bool :=
  if h : (scancodeDefs scancode).mainValue = 0 then specialHandler scancode h scancode s
  else (scrollbackPutchar font fb s (typedChar s scancode), true)

/-- Each thing a scancode can do before the redraw, with what the table says of the scancodes
that do it. -/
inductive KeyEffect (font : Font) (fb : FbGeometry) (s : Scrollback) (scancode : UInt8) :
    Scrollback × Bool → Prop where
  | typed (h : (scancodeDefs scancode).mainValue ≠ 0) :
    KeyEffect font fb s scancode (scrollbackPutchar font fb s (typedChar s scancode), true)
  | ignored (h : (scancodeDefs scancode).mainValue = 0)
    (hidx : (scancodeDefs scancode).specialValue ≠ toggleShiftIdx) :
    KeyEffect font fb s scancode (s, false)
  | toggleShift (h : (scancodeDefs scancode).mainValue = 0)
    (hidx : (scancodeDefs scancode).specialValue = toggleShiftIdx) :
    KeyEffect font fb s scancode (Marcelov.toggleShift scancode s)
  | moveDown (h : (scancodeDefs scancode).mainValue = 0)
    (hidx : (scancodeDefs scancode).specialValue = moveDownIdx) :
    KeyEffect font fb s scancode (Marcelov.moveDown scancode s)
  | moveUp (h : (scancodeDefs scancode).mainValue = 0)
    (hidx : (scancodeDefs scancode).specialValue = moveUpIdx) :
    KeyEffect font fb s scancode (Marcelov.moveUp scancode s)
  | newLine (h : (scancodeDefs scancode).mainValue = 0)
    (hidx : (scancodeDefs scancode).specialValue = newLineIdx) :
    KeyEffect font fb s scancode (scrollbackNewLine s, true)
  | deleteLast (h : (scancodeDefs scancode).mainValue = 0)
    (hidx : (scancodeDefs scancode).specialValue = deleteLastIdx) :
    KeyEffect font fb s scancode (Marcelov.deleteLast scancode s)

theorem keyEffect_special {font : Font} {fb : FbGeometry} {s : Scrollback} {scancode : UInt8}
    (h : (scancodeDefs scancode).mainValue = 0) (i : ℕ) (hi : i < specialScancodes.length)
    (hidx : (scancodeDefs scancode).specialValue.toNat = i) :
    KeyEffect font fb s scancode (specialScancodes.get ⟨i, hi⟩ scancode s) := by
  have hlt : i < 8 := hi
  have hignored (hne : i ≠ 1) : (scancodeDefs scancode).specialValue ≠ toggleShiftIdx := by
    intro heq
    rw [heq] at hidx
    exact hne hidx.symm
  interval_cases i
  · exact .ignored h (hignored (by decide))
  · exact .toggleShift h (UInt8.toNat_inj.1 hidx)
  · exact .moveDown h (UInt8.toNat_inj.1 hidx)
  · exact .moveUp h (UInt8.toNat_inj.1 hidx)
  · exact .ignored h (hignored (by decide))
  · exact .ignored h (hignored (by decide))
  · exact .newLine h (UInt8.toNat_inj.1 hidx)
  · exact .deleteLast h (UInt8.toNat_inj.1 hidx)

/-- **A scancode does one of these things.** -/
theorem keyEffect_handleScancode (font : Font) (fb : FbGeometry) (s : Scrollback)
    (scancode : UInt8) : KeyEffect font fb s scancode (handleScancode font fb s scancode) := by
  unfold handleScancode
  by_cases h : (scancodeDefs scancode).mainValue = 0
  · rw [dif_pos h]
    exact keyEffect_special h _ (specialValue_lt_length scancode h) rfl
  · rw [dif_neg h]
    exact .typed h

/-- The end of `keyboard_process_scancode`: `if (should_redraw) scrollback_draw()`. -/
def redrawIf (font : Font) (fb : FbGeometry) (d : Display) : Scrollback × Bool → Display
  | (sb, true) => scrollbackDraw font fb { d with sb := sb }
  | (sb, false) => { d with sb := sb }

def keyboardProcessScancode (font : Font) (fb : FbGeometry) (d : Display) (scancode : UInt8) :
    Display :=
  redrawIf font fb d (handleScancode font fb d.sb scancode)

/-! ## Operations -/

inductive Op where
  | putchar (c : UInt8)
  | newLine
  | deleteLast
  | moveUp
  | moveDown
  | toggleShift
  | draw
  deriving DecidableEq

/-- The scrollback after an operation other than a redraw. -/
def Op.edit (font : Font) (fb : FbGeometry) (s : Scrollback) : Op → Scrollback
  | .putchar c => scrollbackPutchar font fb s c
  | .newLine => scrollbackNewLine s
  | .deleteLast => (Marcelov.deleteLast 0x0e s).1
  | .moveUp => (Marcelov.moveUp 0x48 s).1
  | .moveDown => (Marcelov.moveDown 0x50 s).1
  | .toggleShift => (Marcelov.toggleShift 0x2a s).1
  | .draw => s

def Op.exec (font : Font) (fb : FbGeometry) (d : Display) : Op → Display
  | .draw => scrollbackDraw font fb d
  | op => { d with sb := op.edit font fb d.sb }

/-- The state before anything is printed, on a canvas of any content. -/
def Display.init (canvas : ℕ → Rgb) : Display := ⟨Scrollback.init, canvas⟩

def runOps (font : Font) (fb : FbGeometry) (d : Display) (ops : List Op) : Display :=
  run (Op.exec font fb) d ops

def runKeys (font : Font) (fb : FbGeometry) (d : Display) (scs : List UInt8) : Display :=
  run (keyboardProcessScancode font fb) d scs

/-! ## Keys as operations -/

/-- The operations the special key with index `i` amounts to. -/
def specialOps (s : Scrollback) : ℕ → List Op
  | 1 => [.toggleShift]
  | 2 => [.moveDown, .draw]
  | 3 => [.moveUp, .draw]
  | 6 => [.newLine, .draw]
  | 7 => if s.currColumn = 0 then [] else [.deleteLast, .draw]
  | _ => []

def keyOps (s : Scrollback) (scancode : UInt8) : List Op :=
  if (scancodeDefs scancode).mainValue = 0 then
    specialOps s (scancodeDefs scancode).specialValue.toNat
  else [.putchar (typedChar s scancode), .draw]

theorem redrawIf_special (font : Font) (fb : FbGeometry) (d : Display) (scancode : UInt8) (i : ℕ)
    (hi : i < specialScancodes.length) :
    redrawIf font fb d (specialScancodes.get ⟨i, hi⟩ scancode d.sb) =
      runOps font fb d (specialOps d.sb i) := by
  have hlt : i < 8 := hi
  interval_cases i
  · rfl
  · rfl
  · rfl
  · rfl
  · rfl
  · rfl
  · rfl
  · show redrawIf font fb d (deleteLast scancode d.sb) =
      runOps font fb d (if d.sb.currColumn = 0 then [] else [.deleteLast, .draw])
    by_cases hc : d.sb.currColumn = 0 <;>
      simp [runOps, deleteLast, redrawIf, Op.exec, Op.edit, hc]

/-- **A key is a run of operations.** -/
theorem keyboardProcessScancode_eq (font : Font) (fb : FbGeometry) (d : Display)
    (scancode : UInt8) :
    keyboardProcessScancode font fb d scancode = runOps font fb d (keyOps d.sb scancode) := by
  unfold keyboardProcessScancode handleScancode keyOps
  by_cases h : (scancodeDefs scancode).mainValue = 0
  · rw [dif_pos h, if_pos h]
    exact redrawIf_special font fb d scancode _ (specialValue_lt scancode h)
  · rw [dif_neg h, if_neg h]
    rfl

theorem typedChar_bounds {s : Scrollback} {scancode : UInt8}
    (h : (scancodeDefs scancode).mainValue ≠ 0) :
    32 ≤ (typedChar s scancode).toNat ∧ (typedChar s scancode).toNat < 127 := by
  have hb := typed_bounds scancode h
  unfold typedChar
  split_ifs
  exacts [hb.2, hb.1]

end Marcelov
