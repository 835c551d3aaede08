import Marcelov.Fb
import Marcelov.Print

/-!
# Printing numbers on the screen

`fb_print_dec` of `fb.c` formats a number as `print_sdec` does, in a buffer of its own and with an
index in place of a pointer. `fbPrintDec_agrees` says that both come to the same string.
-/

namespace Marcelov

open Lib

/-- The loop of `fb_print_dec`: `str` and `i` after it. -/
def fbPrintDecDigits (str : List UInt8) (n : BitVec 32) : Option (List UInt8 × ℕ) := do
  let str ← storeAt str 32 0
  storeDigits decTable (fun n : BitVec 32 => ((n % 10).toNat : ℤ)) (fun n => n / 10)
    (fun n i => decide (n ≠ 0 ∧ 0 ≤ (i : ℤ))) 32 n str

/-- The stores of `fb_print_dec`, with `str` as it is when the function is entered. -/
def fbPrintDec (font : Font) (fb : FbGeometry) (str : List UInt8) (n : BitVec 32)
    (startX startY : ℕ) : Option (List GlyphWrite) := do
  let (str, i) ← fbPrintDecDigits str n
  let chars ← cString (str.drop i)
  return fbPrint font fb chars startX startY

/-- The loop of `fb_print_dec` ends with its index in place, and the string from there on, which
`fb_print` is given, is the number, as is the one that `print_sdec` gives to `print`. -/
structure DecimalsAgree (str : Vector UInt8 33) (buf : Vector UInt8 22) (n : BitVec 32) : Prop where
  digits : ∃ str' i, fbPrintDecDigits str.toList n = some (str', i) ∧ 22 ≤ i ∧ i ≤ 31 ∧
    cString (str'.drop i) = some (decimal n.toNat)
  prints : ∀ font fb startX startY, fbPrintDec font fb str.toList n startX startY =
    some (fbPrint font fb (decimal n.toNat) startX startY)
  sdec : (printSdecString buf.toList (n.setWidth 64)).bind cString = some (decimal n.toNat)

section

variable {n : BitVec 32}

theorem udecLoop : DigitLoop decTable (fun n : BitVec 32 => ((n % 10).toNat : ℤ)) (fun n => n / 10)
    (fun n i => decide (n ≠ 0 ∧ 0 ≤ (i : ℤ))) 10 Char.toUInt8 (fun n m => n.toNat = m) where
  load := by
    rintro n m rfl
    rw [loadAt_natCast]
    exact decTable_digit _ (Nat.mod_lt n.toNat (by decide))
  next := by
    rintro n m rfl
    rfl
  more := by
    rintro n m rfl i
    rw [decide_eq_true_iff, and_iff_left (Int.natCast_nonneg i), ne_eq, ← BitVec.toNat_inj]
    rfl

theorem decimal_natCast (m : ℕ) : decimal m = ascii (Nat.toDigits 10 m) := by
  rw [decimal, if_neg (Int.not_lt.2 (Int.natCast_nonneg m))]
  rfl

theorem fbPrintDecDigits_eq (str : Vector UInt8 33) (n : BitVec 32) :
    ∃ str' i, fbPrintDecDigits str.toList n = some (str', i) ∧ 22 ≤ i ∧ i ≤ 31 ∧
      str'.drop i = decimal n.toNat ++ [0] := by
  have hpos : 0 < (Nat.toDigits 10 n.toNat).length := Nat.length_toDigits_pos
  have hlt : n.toNat < 10 ^ 10 := n.isLt.trans (by decide)
  have hlength : (Nat.toDigits 10 n.toNat).length ≤ 10 :=
    (Nat.length_toDigits_le_iff (by decide) (by decide)).2 hlt
  have hstr : EndsIn 33 str.toList 33 [] := ⟨by simp, by simp, rfl⟩
  obtain ⟨hstore, hends⟩ := hstr.storeAt 0
  obtain ⟨str', i, hdigits, hends⟩ := hends.storeDigits udecLoop (by decide) (v := n) rfl
    (show (Nat.toDigits 10 n.toNat).length + 1 ≤ 33 by omega)
  have hi := hends.start
  rw [List.length_append, List.length_map, List.length_singleton] at hi
  refine ⟨str', i, ?_, by omega, by omega, ?_⟩
  · rw [fbPrintDecDigits, hstore]
    exact hdigits
  · rw [hends.drop_eq, decimal_natCast]
    rfl

theorem toInt_setWidth (n : BitVec 32) : (n.setWidth 64).toInt = n.toNat := by
  have hlt := n.isLt
  have hnat : (n.setWidth 64).toNat = n.toNat := BitVec.toNat_setWidth_of_le (by decide)
  rw [BitVec.toInt_eq_toNat_of_lt (by omega), hnat]

end

/-- **The two decimal formatters agree.** -/
theorem fbPrintDec_agrees (str : Vector UInt8 33) (buf : Vector UInt8 22) (n : BitVec 32) :
    DecimalsAgree str buf n := by
  obtain ⟨str', i, hdigits, hlow, hhigh, hdrop⟩ := fbPrintDecDigits_eq str n
  have hstring : cString (str'.drop i) = some (decimal n.toNat) := by
    rw [hdrop]
    exact cString_append_nul (nul_not_mem_decimal _)
  constructor
  · exact ⟨str', i, hdigits, hlow, hhigh, hstring⟩
  · intro font fb startX startY
    rw [fbPrintDec, hdigits, Option.bind_eq_bind, Option.bind_some]
    dsimp only
    rw [hstring]
    rfl
  · have hint := toInt_setWidth n
    rw [printSdecString_eq buf (by omega), hint, Option.bind_some]
    exact cString_append_nul (nul_not_mem_decimal _)

end Marcelov
