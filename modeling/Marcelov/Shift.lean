import Mathlib.Algebra.Group.Nat.Even
import Mathlib.Data.Nat.Bits
import Marcelov.Keyboard

/-!
# Shift and CapsLock

`ShiftKeys` says what the scancode bytes tell about the two keys that shift the characters:
whether the left Shift key is held, and how many times CapsLock was pressed. `keyboard.c` keeps
one bit instead, which the make and break bytes of both keys toggle.

The two differ after a byte that toggles the bit and changes nothing of what the keys say: a
repeat of a make, or a break of a key that is up. `entered_shifted_iff` is exact: the character
entered is the right one when the number of such bytes so far is even, or the key is the space
bar.
-/

namespace Marcelov

open Lib

/-! ## What the keys say -/

structure ShiftKeys where
  /-- The latest byte of the left Shift key was its make. -/
  leftHeld : Bool
  /-- CapsLock was pressed, and not released since. -/
  capsHeld : Bool
  /-- The presses of CapsLock, each counted once however long it repeats. -/
  capsPresses : ℕ
  /-- The bytes so far that toggle `is_shift_pressed` and say nothing new. -/
  redundant : ℕ

namespace ShiftKeys

def released : ShiftKeys := ⟨false, false, 0, 0⟩

/-- A make of a key that is held, or a break of the Shift key when it is up. -/
def isRedundant (k : ShiftKeys) (b : UInt8) : Bool :=
  b == 0x2a && k.leftHeld || b == 0xaa && !k.leftHeld || b == 0x3a && k.capsHeld

def step (k : ShiftKeys) (b : UInt8) : ShiftKeys where
  leftHeld := if b = 0x2a then true else if b = 0xaa then false else k.leftHeld
  capsHeld := if b = 0x3a then true else if b = 0xba then false else k.capsHeld
  capsPresses := if b = 0x3a ∧ k.capsHeld = false then k.capsPresses + 1 else k.capsPresses
  redundant := if k.isRedundant b then k.redundant + 1 else k.redundant

/-- Shift is held, or CapsLock was pressed an odd number of times, and not both. -/
def shifted (k : ShiftKeys) : Bool := k.leftHeld ^^ k.capsPresses.bodd

end ShiftKeys

/-! ## What the bit says -/

/-- The bytes whose handler is `toggle_shift`. -/
def togglesShift (b : UInt8) : Bool := b == 0x2a || b == 0xaa || b == 0x3a

theorem specialValue_toggle (b : UInt8) (h : (scancodeDefs b).mainValue = 0) :
    (scancodeDefs b).specialValue = toggleShiftIdx ↔ togglesShift b = true := by
  constructor
  · exact scancodeDefs_forall
      (P := fun b i => i.mainValue = 0 → i.specialValue = toggleShiftIdx → togglesShift b = true)
      (fun _ h => absurd h (by decide)) (by decide) h
  · simp only [togglesShift, Bool.or_eq_true, beq_iff_eq]
    rintro ((rfl | rfl) | rfl) <;> decide

theorem not_togglesShift_of_typed {b : UInt8} (h : (scancodeDefs b).mainValue ≠ 0) :
    togglesShift b = false := by
  rw [Bool.eq_false_iff]
  simp only [togglesShift, Bool.or_eq_true, beq_iff_eq, ne_eq]
  rintro ((rfl | rfl) | rfl) <;> exact h (by decide)

section

variable {font : Font} {fb : FbGeometry}

theorem isShiftPressed_putchar (s : Scrollback) (c : UInt8) :
    (scrollbackPutchar font fb s c).isShiftPressed = s.isShiftPressed :=
  scrollbackPutchar_invariant (I := fun s' => s'.isShiftPressed = s.isShiftPressed) rfl
    (fun s' h => (Scrollback.newLine_isShiftPressed s').trans h) fun _ _ h => h

theorem isShiftPressed_draw (d : Display) :
    (scrollbackDraw font fb d).sb.isShiftPressed = d.sb.isShiftPressed := by
  unfold scrollbackDraw
  dsimp only
  split_ifs <;> rfl

theorem isShiftPressed_handleScancode (s : Scrollback) (b : UInt8) :
    (handleScancode font fb s b).1.isShiftPressed = (s.isShiftPressed ^^ togglesShift b) := by
  have heffect := keyEffect_handleScancode font fb s b
  have hother (hmain : (scancodeDefs b).mainValue = 0)
      (hidx : (scancodeDefs b).specialValue ≠ toggleShiftIdx) : togglesShift b = false :=
    Bool.eq_false_iff.2 ((specialValue_toggle b hmain).not.1 hidx)
  generalize handleScancode font fb s b = r at heffect ⊢
  cases heffect with
  | typed hmain =>
    rw [not_togglesShift_of_typed hmain, Bool.xor_false]
    exact isShiftPressed_putchar s (typedChar s b)
  | ignored hmain hidx => rw [hother hmain hidx, Bool.xor_false]
  | toggleShift hmain hidx =>
    rw [(specialValue_toggle b hmain).1 hidx, Bool.xor_true]
    rfl
  | moveDown hmain hidx =>
    rw [hother hmain (by rw [hidx]; decide), Bool.xor_false]
    show s.scrollDown.isShiftPressed = s.isShiftPressed
    unfold Scrollback.scrollDown
    split_ifs <;> rfl
  | moveUp hmain hidx =>
    rw [hother hmain (by rw [hidx]; decide), Bool.xor_false]
    show s.scrollUp.isShiftPressed = s.isShiftPressed
    unfold Scrollback.scrollUp
    split_ifs <;> rfl
  | newLine hmain hidx =>
    rw [hother hmain (by rw [hidx]; decide), Bool.xor_false]
    exact Scrollback.newLine_isShiftPressed s
  | deleteLast hmain hidx =>
    rw [hother hmain (by rw [hidx]; decide), Bool.xor_false]
    unfold deleteLast
    split_ifs <;> rfl

theorem isShiftPressed_key (d : Display) (b : UInt8) :
    (keyboardProcessScancode font fb d b).sb.isShiftPressed =
      (d.sb.isShiftPressed ^^ togglesShift b) := by
  have hredraw : ∀ r : Scrollback × Bool,
      (redrawIf font fb d r).sb.isShiftPressed = r.1.isShiftPressed := by
    rintro ⟨sb, redraw⟩
    cases redraw with
    | true => exact isShiftPressed_draw { d with sb := sb }
    | false => rfl
  rw [keyboardProcessScancode, hredraw]
  exact isShiftPressed_handleScancode d.sb b

end

/-! ## How far apart they are -/

/-- The bit is what the keys say, inverted once for every redundant byte. -/
def BitOf (s : Scrollback) (k : ShiftKeys) : Prop :=
  s.isShiftPressed = (k.shifted ^^ k.redundant.bodd)

theorem shifted_step (k : ShiftKeys) (b : UInt8) :
    ((k.step b).shifted ^^ (k.step b).redundant.bodd) =
      ((k.shifted ^^ k.redundant.bodd) ^^ togglesShift b) := by
  obtain ⟨leftHeld, capsHeld, capsPresses, redundant⟩ := k
  unfold ShiftKeys.shifted ShiftKeys.step ShiftKeys.isRedundant togglesShift
  by_cases h₁ : b = 0x2a
  · subst h₁
    cases leftHeld <;> simp
  · by_cases h₂ : b = 0xaa
    · subst h₂
      cases leftHeld <;> simp
    · by_cases h₃ : b = 0x3a
      · subst h₃
        cases capsHeld <;> simp
      · have hb : (b == 0x2a || b == 0xaa || b == 0x3a) = false := by simp [h₁, h₂, h₃]
        rw [hb]
        simp [h₁, h₂, h₃]

theorem bitOf_run {font : Font} {fb : FbGeometry} {d : Display}
    (h : d.sb.isShiftPressed = false) (scs : List UInt8) :
    BitOf (runKeys font fb d scs).sb (run ShiftKeys.step ShiftKeys.released scs) := by
  have hinit : BitOf d.sb ShiftKeys.released := by
    rw [BitOf, h]
    rfl
  refine run_simulation (R := fun (d : Display) k => BitOf d.sb k) hinit (fun d k b hb => ?_) scs
  unfold BitOf at hb ⊢
  rw [isShiftPressed_key, shifted_step, hb]

/-! ## The character entered -/

/-- The character before the cursor. -/
def Scrollback.lastEntered (s : Scrollback) : UInt8 := s.currRow (s.currColumn - 1)

theorem lastEntered_putchar (font : Font) (fb : FbGeometry) (s : Scrollback) {c : UInt8}
    (hc : c ≠ 0) : (scrollbackPutchar font fb s c).lastEntered = c := by
  rw [scrollbackPutchar, if_neg hc]
  simp [Scrollback.lastEntered, Scrollback.currRow, Scrollback.putColumn, Scrollback.store]

theorem lastEntered_key {font : Font} {fb : FbGeometry} {d : Display} {b : UInt8}
    (h : (scancodeDefs b).mainValue ≠ 0) :
    (keyboardProcessScancode font fb d b).sb.lastEntered = typedChar d.sb b := by
  have hbounds := typedChar_bounds (s := d.sb) h
  have hc : typedChar d.sb b ≠ 0 := by
    intro hz
    rw [hz] at hbounds
    exact absurd hbounds.1 (by decide)
  rw [← lastEntered_putchar font fb d.sb hc, keyboardProcessScancode,
    handleScancode, dif_neg h, redrawIf]
  have htext := sameText_draw font fb
    { d with sb := scrollbackPutchar font fb d.sb (typedChar d.sb b) }
  rw [Scrollback.lastEntered, Scrollback.currRow, htext.scrollbuffer, htext.currLine,
    htext.currColumn]
  rfl

theorem sameChar_iff {b : UInt8} (h : (scancodeDefs b).mainValue ≠ 0) :
    (scancodeDefs b).mainValue = (scancodeDefs b).specialValue ↔ b = 0x39 := by
  constructor
  · exact scancodeDefs_forall
      (P := fun b i => i.mainValue ≠ 0 → i.mainValue = i.specialValue → b = 0x39)
      (fun h => absurd rfl h) (by decide) h
  · rintro rfl
    decide

/-- **When the character entered is the one the keys say.** After any scancodes, from a state
with the bit clear, a key that types a character enters the shifted one exactly as the left
Shift key and CapsLock say if and only if the number of redundant bytes so far is even, or the
key is the space bar. -/
theorem entered_shifted_iff (font : Font) (fb : FbGeometry) (d : Display) (scs : List UInt8)
    (b : UInt8) (hd : d.sb.isShiftPressed = false) (hb : (scancodeDefs b).mainValue ≠ 0) :
    let k := run ShiftKeys.step ShiftKeys.released scs
    (keyboardProcessScancode font fb (runKeys font fb d scs) b).sb.lastEntered =
        (if k.shifted then (scancodeDefs b).specialValue else (scancodeDefs b).mainValue) ↔
      Even k.redundant ∨ b = 0x39 := by
  intro k
  have hbit : (runKeys font fb d scs).sb.isShiftPressed = (k.shifted ^^ k.redundant.bodd) :=
    bitOf_run hd scs
  have heven : Even k.redundant ↔ k.redundant.bodd = false := by
    rw [Nat.even_iff, Nat.mod_two_of_bodd]
    cases k.redundant.bodd <;> decide
  rw [lastEntered_key hb, typedChar, hbit, heven, ← sameChar_iff hb]
  generalize (scancodeDefs b).mainValue = main
  generalize (scancodeDefs b).specialValue = shifted
  cases k.shifted <;> cases k.redundant.bodd <;> simp [eq_comm]

/-- A letter with Shift held, before its make repeats. -/
theorem entered_shifted_iff_shift :
    let d := runKeys .monaco mainFb (Display.init fun _ => black) [0x2a]
    let k := run ShiftKeys.step ShiftKeys.released [0x2a]
    (keyboardProcessScancode .monaco mainFb d 0x10).sb.lastEntered =
        (if k.shifted then (scancodeDefs 0x10).specialValue else (scancodeDefs 0x10).mainValue) ↔
      Even k.redundant ∨ (0x10 : UInt8) = 0x39 :=
  entered_shifted_iff .monaco mainFb (Display.init fun _ => black) [0x2a] 0x10 rfl (by decide)

/-- Holding Shift until its make repeats enters a small letter. -/
theorem shift_repeat_enters_small :
    let d := runKeys .monaco mainFb (Display.init fun _ => black) [0x2a, 0x2a]
    let k := run ShiftKeys.step ShiftKeys.released [0x2a, 0x2a]
    ¬ (keyboardProcessScancode .monaco mainFb d 0x10).sb.lastEntered =
      if k.shifted then (scancodeDefs 0x10).specialValue else (scancodeDefs 0x10).mainValue := by
  dsimp only
  rw [lastEntered_key (by decide)]
  decide

end Marcelov
