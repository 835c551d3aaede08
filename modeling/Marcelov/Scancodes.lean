import Mathlib.Data.List.Basic

/-!
# The scancode table

`scancode_defs` of `keyboard.c`: for each of the 256 scancodes, the character it types without
and with shift, or, when `mainValue` is zero, the entry of `special_scancodes` that handles it.
-/

namespace Marcelov

/-! ## The indices into `special_scancodes` -/

def toggleShiftIdx : UInt8 := 1
def moveDownIdx : UInt8 := 2
def moveUpIdx : UInt8 := 3
def moveLeftIdx : UInt8 := 4
def moveRightIdx : UInt8 := 5
def newLineIdx : UInt8 := 6
def deleteLastIdx : UInt8 := 7

structure ScancodeInfo where
  mainValue : UInt8
  specialValue : UInt8
  deriving DecidableEq

/-- The entry of a key that types `main`, or `shifted` with shift. -/
def keys (main shifted : Char) : ScancodeInfo := ⟨main.toNat.toUInt8, shifted.toNat.toUInt8⟩

/-- The designated initializers of `scancode_defs`. -/
def scancodeEntries : List (UInt8 × ScancodeInfo) := [
  (0x01, ⟨0, 0⟩), -- Esc
  (0x02, keys '1' '!'), (0x03, keys '2' '@'), (0x04, keys '3' '#'), (0x05, keys '4' '$'),
  (0x06, keys '5' '%'), (0x07, keys '6' '^'), (0x08, keys '7' '&'), (0x09, keys '8' '*'),
  (0x0a, keys '9' '('), (0x0b, keys '0' ')'), (0x0c, keys '-' '_'), (0x0d, keys '=' '+'),
  (0x0e, ⟨0, deleteLastIdx⟩), -- Backspace
  (0x0f, ⟨0, 0⟩), -- Tab
  (0x10, keys 'q' 'Q'), (0x11, keys 'w' 'W'), (0x12, keys 'e' 'E'), (0x13, keys 'r' 'R'),
  (0x14, keys 't' 'T'), (0x15, keys 'y' 'Y'), (0x16, keys 'u' 'U'), (0x17, keys 'i' 'I'),
  (0x18, keys 'o' 'O'), (0x19, keys 'p' 'P'), (0x1a, keys '[' '{'), (0x1b, keys ']' '}'),
  (0x1c, ⟨0, newLineIdx⟩), -- Enter
  (0x1d, ⟨0, 0⟩), -- LCtrl
  (0x1e, keys 'a' 'A'), (0x1f, keys 's' 'S'), (0x20, keys 'd' 'D'), (0x21, keys 'f' 'F'),
  (0x22, keys 'g' 'G'), (0x23, keys 'h' 'H'), (0x24, keys 'j' 'J'), (0x25, keys 'k' 'K'),
  (0x26, keys 'l' 'L'), (0x27, keys ';' ':'),
  (0x28, ⟨39, 34⟩), -- apostrophe, double quote
  (0x29, ⟨96, 126⟩), -- backquote, tilde
  (0x2a, ⟨0, toggleShiftIdx⟩), -- LShift
  (0x80 ||| 0x2a, ⟨0, toggleShiftIdx⟩), -- LShift (UP)
  (0x2b, ⟨92, 124⟩), -- backslash, bar
  (0x2c, keys 'z' 'Z'), (0x2d, keys 'x' 'X'), (0x2e, keys 'c' 'C'), (0x2f, keys 'v' 'V'),
  (0x30, keys 'b' 'B'), (0x31, keys 'n' 'N'), (0x32, keys 'm' 'M'), (0x33, keys ',' '<'),
  (0x34, keys '.' '>'), (0x35, keys '/' '?'),
  (0x36, ⟨0, 0⟩), -- RShift
  (0x37, ⟨0, 0⟩), -- Keypad-* or PrtScn
  (0x38, ⟨0, 0⟩), -- LAlt
  (0x39, keys ' ' ' '), -- Space bar
  (0x3a, ⟨0, toggleShiftIdx⟩), -- CapsLock
  (0x3b, ⟨0, 0⟩), (0x3c, ⟨0, 0⟩), (0x3d, ⟨0, 0⟩), (0x3e, ⟨0, 0⟩), (0x3f, ⟨0, 0⟩), -- F1 to F5
  (0x40, ⟨0, 0⟩), (0x41, ⟨0, 0⟩), (0x42, ⟨0, 0⟩), (0x43, ⟨0, 0⟩), (0x44, ⟨0, 0⟩), -- F6 to F10
  (0x45, ⟨0, 0⟩), -- NumLock
  (0x46, ⟨0, 0⟩), -- ScrollLock
  (0x47, ⟨0, 0⟩), -- Keypad-7/Home
  (0x48, ⟨0, moveUpIdx⟩), -- Keypad-8/Up
  (0x49, ⟨0, 0⟩), -- Keypad-9/PgUp
  (0x4a, ⟨0, 0⟩), -- Keypad--
  (0x4b, ⟨0, moveLeftIdx⟩), -- Keypad-4/Left
  (0x4c, ⟨0, 0⟩), -- Keypad-5
  (0x4d, ⟨0, moveRightIdx⟩), -- Keypad-6/Right
  (0x4e, ⟨0, 0⟩), -- Keypad-+
  (0x4f, ⟨0, 0⟩), -- Keypad-1/End
  (0x50, ⟨0, moveDownIdx⟩), -- Keypad-2/Down
  (0x51, ⟨0, 0⟩), -- Keypad-3/PgDn
  (0x52, ⟨0, 0⟩), -- Keypad-0/Ins
  (0x53, ⟨0, 0⟩), -- Keypad-./Del
  (0x54, ⟨0, 0⟩), -- Alt-SysRq
  (0x57, ⟨0, 0⟩), -- F11
  (0x58, ⟨0, 0⟩)] -- F12

/-- `scancode_defs[scancode]`; an entry with no initializer is zero. -/
def scancodeDefs (scancode : UInt8) : ScancodeInfo :=
  (scancodeEntries.lookup scancode).getD ⟨0, 0⟩

/-- A property of every scancode is checked on the entries of the table and on the zero entry
of the scancodes that have none. -/
theorem scancodeDefs_forall {P : UInt8 → ScancodeInfo → Prop} {scancode : UInt8}
    (hzero : P scancode ⟨0, 0⟩) (h : ∀ e ∈ scancodeEntries, P e.1 e.2) :
    P scancode (scancodeDefs scancode) := by
  unfold scancodeDefs
  cases hl : scancodeEntries.lookup scancode with
  | none => exact hzero
  | some info =>
    obtain ⟨l₁, l₂, heq, -⟩ := List.lookup_eq_some_iff.1 hl
    exact h (scancode, info) (by rw [heq]; simp)

theorem specialValue_lt (scancode : UInt8) (h : (scancodeDefs scancode).mainValue = 0) :
    (scancodeDefs scancode).specialValue.toNat < 8 :=
  scancodeDefs_forall (P := fun _ i => i.mainValue = 0 → i.specialValue.toNat < 8)
    (by decide) (by decide) h

/-- A key that types a character types an ASCII character with a glyph, in both positions. -/
theorem typed_bounds (scancode : UInt8) (h : (scancodeDefs scancode).mainValue ≠ 0) :
    (32 ≤ (scancodeDefs scancode).mainValue.toNat ∧
      (scancodeDefs scancode).mainValue.toNat < 127) ∧
    32 ≤ (scancodeDefs scancode).specialValue.toNat ∧
      (scancodeDefs scancode).specialValue.toNat < 127 :=
  scancodeDefs_forall
    (P := fun _ i => i.mainValue ≠ 0 → (32 ≤ i.mainValue.toNat ∧ i.mainValue.toNat < 127) ∧
      32 ≤ i.specialValue.toNat ∧ i.specialValue.toNat < 127)
    (by decide) (by decide) h

theorem scroll_key {scancode : UInt8} (hup : scancode ≠ 0x48) (hdown : scancode ≠ 0x50)
    (h : (scancodeDefs scancode).mainValue = 0) :
    (scancodeDefs scancode).specialValue ≠ moveUpIdx ∧
      (scancodeDefs scancode).specialValue ≠ moveDownIdx :=
  scancodeDefs_forall
    (P := fun c i => c ≠ 0x48 → c ≠ 0x50 → i.mainValue = 0 →
      i.specialValue ≠ moveUpIdx ∧ i.specialValue ≠ moveDownIdx)
    (fun _ _ _ => by decide) (by decide) hup hdown h

end Marcelov
