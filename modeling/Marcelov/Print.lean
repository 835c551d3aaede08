import Mathlib.Algebra.Group.Int.Defs
import Marcelov.Lib.Buffer
import Marcelov.Lib.Stdio

/-!
# Printing numbers

`print`, `print_hex` and `print_sdec` of `utils.h`. The console answers `sbi_console_putchar`; it
may answer anything, and `print` stops at an answer other than zero. An execution whose behaviour
C leaves undefined has no return value, but what it has sent before stays.

Both number formats are built backwards in a buffer, by `storeDigits`. `print_hex` writes no
terminator behind its digits, so what it prints depends on the last byte of the buffer
(`printsHex_iff`). `print_sdec` negates its argument, which overflows for the least number only
(`printsSdec_iff`).
-/

namespace Marcelov

open Lib

/-! ## Strings -/

/-- What `sbi_console_putchar` answers for the last of the characters sent so far. -/
abbrev Console := List UInt8 → BitVec 64

/-- The console takes every character. -/
def Accepts (console : Console) : Prop := ∀ sent, console sent = 0

/-- The characters sent, and the value returned where the behaviour is defined. -/
structure Printed where
  sent : List UInt8
  ret : Option (BitVec 64)
  deriving DecidableEq

/-- The loop of `print`, with `sent` and `len` so far. The object of the string ends where its list
does. -/
def printLoop (console : Console) : List UInt8 → List UInt8 → BitVec 64 → Printed
  | [], sent, _ => ⟨sent, none⟩
  | c :: str, sent, len =>
    if c = 0 then ⟨sent, some len⟩
    else
      let res := console (sent ++ [c])
      if res ≠ 0 then ⟨sent ++ [c], some res⟩
      else printLoop console str (sent ++ [c]) (len + 1)

def print (console : Console) (str : List UInt8) : Printed := printLoop console str [] 0

section

variable {console : Console} {str rest : List UInt8}

theorem printLoop_append (h : Accepts console) (hstr : 0 ∉ str) (sent : List UInt8)
    (len : BitVec 64) : printLoop console (str ++ rest) sent len =
      printLoop console rest (sent ++ str) (len + BitVec.ofNat 64 str.length) := by
  induction str generalizing sent len with
  | nil => simp
  | cons c str ih =>
    have hc : c ≠ 0 := fun heq => hstr (heq ▸ List.mem_cons_self)
    have htail : 0 ∉ str := fun hmem => hstr (List.mem_cons_of_mem c hmem)
    have hlen : len + 1 + BitVec.ofNat 64 str.length =
        len + BitVec.ofNat 64 (c :: str).length := by
      rw [List.length_cons, Nat.add_comm, BitVec.ofNat_add, BitVec.add_assoc]
      rfl
    rw [List.cons_append, printLoop, if_neg hc, h]
    simp only [ne_eq, not_true_eq_false, if_false]
    rw [ih htail, hlen, List.append_assoc, List.singleton_append]

theorem print_eq (h : Accepts console) (hstr : 0 ∉ str) :
    print console (str ++ 0 :: rest) = ⟨str, some (BitVec.ofNat 64 str.length)⟩ := by
  rw [print, printLoop_append h hstr, printLoop, if_pos rfl]
  simp

/-- Without a terminator `print` runs off the object. -/
theorem print_unterminated (h : Accepts console) (hstr : 0 ∉ str) :
    print console str = ⟨str, none⟩ := by
  have hloop : printLoop console (str ++ []) [] 0 = ⟨str, none⟩ := printLoop_append h hstr [] 0
  rwa [List.append_nil] at hloop

end

/-! ## Hexadecimal -/

/-- `table` of `print_hex` -/
def hexTable : List UInt8 :=
  ascii ['0', '1', '2', '3', '4', '5', '6', '7', '8', '9', 'A', 'B', 'C', 'D', 'E', 'F'] ++ [0]

/-- `s` of `print_hex`, as the bytes from there to the end of the object. `v` is not zero where the
`while` loop begins, so it is a `do` loop. -/
def printHexString (buf : List UInt8) (v : BitVec 64) : Option (List UInt8) :=
  if v = 0 then some (ascii ['0', 'x', '0'] ++ [0])
  else do
    let (buf, s) ← storeDigits hexTable (fun v : BitVec 64 => ((v &&& 0xF).toNat : ℤ))
      (fun v => v >>> 4) (fun v _ => decide (v ≠ 0)) 18 v buf
    let (buf, s) ← storeBack buf s 'x'.toUInt8
    let (buf, s) ← storeBack buf s '0'.toUInt8
    return buf.drop s

/-- `print_hex`, with `buf` as it is when the function is entered. -/
def printHex (console : Console) (buf : List UInt8) (v : BitVec 64) : Printed :=
  match printHexString buf v with
  | none => ⟨[], none⟩
  | some str => print console str

/-- A number in hexadecimal, with upper-case digits. -/
def hexadecimal (n : ℕ) : List UInt8 :=
  ascii ['0', 'x'] ++ ascii ((Nat.toDigits 16 n).map Char.toUpper)

/-- `print_hex` stays in its buffer, sends the number and returns how many characters that are. -/
structure PrintsHex (console : Console) (buf : Vector UInt8 19) (v : BitVec 64) : Prop where
  sent : (printHex console buf.toList v).sent = hexadecimal v.toNat
  ret : (printHex console buf.toList v).ret =
    some (BitVec.ofNat 64 (hexadecimal v.toNat).length)

section

variable {buf : Vector UInt8 19} {v : BitVec 64}

theorem hexLoop : DigitLoop hexTable (fun v : BitVec 64 => ((v &&& 0xF).toNat : ℤ))
    (fun v => v >>> 4) (fun v _ => decide (v ≠ 0)) 16 (fun c => c.toUpper.toUInt8)
    (fun v m => v.toNat = m) where
  load := by
    rintro v m rfl
    have htable : ∀ d < 16, hexTable[d]? = some (Nat.digitChar d).toUpper.toUInt8 := by decide
    have hand : (v &&& 0xF).toNat = v.toNat % 16 := Nat.and_two_pow_sub_one_eq_mod v.toNat 4
    rw [hand, loadAt_natCast]
    exact htable _ (Nat.mod_lt _ (by decide))
  next := by
    rintro v m rfl
    rw [BitVec.toNat_ushiftRight, Nat.shiftRight_eq_div_pow]
  more := by
    rintro v m rfl s
    rw [decide_eq_true_iff, ne_eq, ← BitVec.toNat_inj]
    rfl

theorem nul_not_mem_hexadecimal (n : ℕ) : 0 ∉ hexadecimal n := by
  rw [hexadecimal, ascii, ascii, List.map_map]
  exact List.not_mem_append (by decide) (nul_not_mem_toDigits (by decide) (by decide) n)

/-- The string begins with the number, but what is behind it is the last byte of the buffer. -/
theorem printHexString_eq (buf : Vector UInt8 19) (hv : v ≠ 0) :
    printHexString buf.toList v = some (hexadecimal v.toNat ++ [buf[18]]) := by
  have hlength : (Nat.toDigits 16 v.toNat).length ≤ 16 :=
    (Nat.length_toDigits_le_iff (by decide) (by decide)).2 v.isLt
  have hbuf : EndsIn 19 buf.toList 18 [buf[18]] := by
    refine ⟨by simp, ?_, rfl⟩
    rw [List.drop_eq_getElem_cons (by simp), List.drop_eq_nil_of_le (by simp)]
    rfl
  have hroom : (Nat.toDigits 16 v.toNat).length + [buf[18]].length ≤ 19 := by
    rw [List.length_singleton]
    omega
  obtain ⟨obj, s, hdigits, hends⟩ := hbuf.storeDigits hexLoop (by decide) (v := v) rfl hroom
  obtain ⟨obj', s', hx, hends⟩ := hends.storeBack (by simp; omega) 'x'.toUInt8
  obtain ⟨obj'', s'', hzero, hends⟩ := hends.storeBack (by simp; omega) '0'.toUInt8
  simp only [printHexString, if_neg hv, hdigits, hx, hzero, Option.bind_eq_bind, Option.bind_some]
  rw [hends.drop_eq]
  simp [hexadecimal, ascii]

variable {console : Console}

theorem printHex_zero (h : Accepts console) (buf : List UInt8) :
    printHex console buf 0 = ⟨hexadecimal 0, some 3⟩ := by
  have hliteral : 0 ∉ ascii ['0', 'x', '0'] := by decide
  exact print_eq h hliteral

theorem printHex_terminated (h : Accepts console) (hv : v ≠ 0) (hlast : buf[18] = 0) :
    printHex console buf.toList v =
      ⟨hexadecimal v.toNat, some (BitVec.ofNat 64 (hexadecimal v.toNat).length)⟩ := by
  rw [printHex, printHexString_eq buf hv, hlast]
  exact print_eq h (nul_not_mem_hexadecimal _)

/-- The last byte of the buffer is printed, and then what is behind the buffer is read. -/
theorem printHex_unterminated (h : Accepts console) (hv : v ≠ 0) (hlast : buf[18] ≠ 0) :
    printHex console buf.toList v = ⟨hexadecimal v.toNat ++ [buf[18]], none⟩ := by
  rw [printHex, printHexString_eq buf hv]
  apply print_unterminated h
  apply List.not_mem_append (nul_not_mem_hexadecimal _)
  intro hmem
  exact hlast (List.mem_singleton.1 hmem).symm

end

/-- **`print_hex` prints the number and nothing else** exactly for zero, and where the last byte of
its buffer, which it does not write, is a NUL. -/
theorem printsHex_iff (console : Console) (h : Accepts console) (buf : Vector UInt8 19)
    (v : BitVec 64) : PrintsHex console buf v ↔ v = 0 ∨ buf[18] = 0 := by
  by_cases hv : v = 0
  · subst hv
    refine iff_of_true ?_ (Or.inl rfl)
    have hprint := printHex_zero h buf.toList
    exact ⟨congrArg Printed.sent hprint, congrArg Printed.ret hprint⟩
  · rw [or_iff_right hv]
    constructor
    · intro hprints
      by_contra hlast
      have hret := hprints.ret
      rw [printHex_unterminated h hv hlast] at hret
      cases hret
    · intro hlast
      have hprint := printHex_terminated h hv hlast
      exact ⟨congrArg Printed.sent hprint, congrArg Printed.ret hprint⟩

def quiet : Console := fun _ => 0

/-- A number, from a buffer of zeros. -/
theorem printsHex_beef : PrintsHex quiet (Vector.replicate 19 0) 0xBEEF :=
  (printsHex_iff quiet (fun _ => rfl) (Vector.replicate 19 0) 0xBEEF).2 (Or.inr rfl)

/-- A one, from a buffer that holds letters. -/
theorem not_printsHex_letters : Accepts quiet ∧ ¬ PrintsHex quiet (Vector.replicate 19 0x41) 1 := by
  have haccepts : Accepts quiet := fun _ => rfl
  refine ⟨haccepts, ?_⟩
  intro hprints
  have hret := hprints.ret
  rw [printHex_unterminated haccepts (by decide) (by decide)] at hret
  cases hret

/-! ## Decimal -/

/-- `table` of `print_sdec`, `lookup` of `fb_print_dec` -/
def decTable : List UInt8 := ascii ['0', '1', '2', '3', '4', '5', '6', '7', '8', '9'] ++ [0]

/-- `-v` for an `int64_t`, which overflows for the least one. -/
def negI64 (v : ℤ) : Option ℤ := if v = -2 ^ 63 then none else some (-v)

/-- `s` of `print_sdec`, as the bytes from there to the end of `buf`. -/
def printSdecString (buf : List UInt8) (v : BitVec 64) : Option (List UInt8) := do
  let isNegative := decide (v.toInt < 0)
  let v ← (if isNegative then negI64 v.toInt else some v.toInt)
  let buf ← storeAt buf 21 0
  let (buf, s) ← storeDigits decTable (fun v : ℤ => v.tmod 10) (fun v => v.tdiv 10)
    (fun v _ => decide (v ≠ 0)) 21 v buf
  let (buf, s) ← (if isNegative then storeBack buf s '-'.toUInt8 else some (buf, s))
  return buf.drop s

/-- `print_sdec`, with `buf` as it is when the function is entered. -/
def printSdec (console : Console) (buf : List UInt8) (v : BitVec 64) : Printed :=
  match printSdecString buf v with
  | none => ⟨[], none⟩
  | some str => print console str

/-- A number in decimal. -/
def decimal (v : ℤ) : List UInt8 :=
  (if v < 0 then ascii ['-'] else []) ++ ascii (Nat.toDigits 10 v.natAbs)

/-- `print_sdec` stays in its table, its buffer and the range of its type, and sends the number. -/
structure PrintsSdec (console : Console) (buf : Vector UInt8 22) (v : BitVec 64) : Prop where
  sent : (printSdec console buf.toList v).sent = decimal v.toInt
  ret : (printSdec console buf.toList v).ret = some (BitVec.ofNat 64 (decimal v.toInt).length)

section

variable {v : BitVec 64}

theorem decTable_digit : ∀ d < 10, decTable[d]? = some (Nat.digitChar d).toUInt8 := by decide

theorem sdecLoop : DigitLoop decTable (fun v : ℤ => v.tmod 10) (fun v => v.tdiv 10)
    (fun v _ => decide (v ≠ 0)) 10 Char.toUInt8 (fun v m => v = m) where
  load := by
    rintro v m rfl
    have hload : loadAt decTable (m % 10 : ℕ) = some (Nat.digitChar (m % 10)).toUInt8 := by
      rw [loadAt_natCast]
      exact decTable_digit _ (Nat.mod_lt m (by decide))
    exact hload
  next := by
    rintro v m rfl
    exact (Int.ofNat_tdiv m 10).symm
  more := by
    rintro v m rfl s
    simp

theorem nul_not_mem_digits (n : ℕ) : 0 ∉ ascii (Nat.toDigits 10 n) :=
  nul_not_mem_toDigits (by decide) (by decide) n

theorem nul_not_mem_decimal (v : ℤ) : 0 ∉ decimal v := by
  refine List.not_mem_append ?_ (nul_not_mem_digits _)
  split_ifs <;> decide

theorem negI64_eq (hv : v.toInt ≠ -2 ^ 63) :
    (if decide (v.toInt < 0) then negI64 v.toInt else some v.toInt) =
      some (v.toInt.natAbs : ℤ) := by
  rw [negI64, if_neg hv]
  by_cases hneg : v.toInt < 0
  · rw [if_pos (decide_eq_true hneg), Int.ofNat_natAbs_of_nonpos (Int.le_of_lt hneg)]
  · rw [if_neg (by simpa using hneg), Int.natAbs_of_nonneg (Int.not_lt.1 hneg)]

theorem printSdecString_eq (buf : Vector UInt8 22) (hv : v.toInt ≠ -2 ^ 63) :
    printSdecString buf.toList v = some (decimal v.toInt ++ [0]) := by
  have hlt : v.toInt.natAbs < 10 ^ 19 := by
    have hlow : -2 ^ 63 ≤ v.toInt := BitVec.le_toInt v
    have hhigh : v.toInt < 2 ^ 63 := BitVec.toInt_lt
    omega
  have hlength : (Nat.toDigits 10 v.toInt.natAbs).length ≤ 19 :=
    (Nat.length_toDigits_le_iff (by decide) (by decide)).2 hlt
  have hbuf : EndsIn 22 buf.toList 22 [] := ⟨by simp, by simp, rfl⟩
  obtain ⟨hstore, hends⟩ := hbuf.storeAt 0
  obtain ⟨obj, s, hdigits, hends⟩ := hends.storeDigits sdecLoop (by decide) rfl
    (show (Nat.toDigits 10 v.toInt.natAbs).length + 1 ≤ 22 by omega)
  simp only [printSdecString, negI64_eq hv, hstore, hdigits, Option.bind_eq_bind, Option.bind_some]
  by_cases hneg : v.toInt < 0
  · obtain ⟨obj', s', hminus, hends⟩ := hends.storeBack (by simp; omega) '-'.toUInt8
    rw [if_pos (decide_eq_true hneg), hminus, Option.bind_some, hends.drop_eq, decimal,
      if_pos hneg]
    rfl
  · rw [if_neg (by simpa using hneg), Option.bind_some, hends.drop_eq, decimal, if_neg hneg]
    rfl

theorem printSdecString_least (buf : List UInt8) (hv : v.toInt = -2 ^ 63) :
    printSdecString buf v = none := by
  rw [printSdecString, hv]
  rfl

theorem printSdec_eq {console : Console} (h : Accepts console) (buf : Vector UInt8 22)
    (hv : v.toInt ≠ -2 ^ 63) :
    printSdec console buf.toList v =
      ⟨decimal v.toInt, some (BitVec.ofNat 64 (decimal v.toInt).length)⟩ := by
  rw [printSdec, printSdecString_eq buf hv]
  exact print_eq h (nul_not_mem_decimal _)

end

/-- **`print_sdec` prints every number but the least.** -/
theorem printsSdec_iff (console : Console) (h : Accepts console) (buf : Vector UInt8 22)
    (v : BitVec 64) : PrintsSdec console buf v ↔ v.toInt ≠ -2 ^ 63 := by
  constructor
  · intro hprints hv
    have hret := hprints.ret
    rw [printSdec, printSdecString_least _ hv] at hret
    cases hret
  · intro hv
    have hprint := printSdec_eq h buf hv
    exact ⟨congrArg Printed.sent hprint, congrArg Printed.ret hprint⟩

/-- A negative number. -/
theorem printsSdec_negative : PrintsSdec quiet (Vector.replicate 22 0x41) (-120) :=
  (printsSdec_iff quiet (fun _ => rfl) (Vector.replicate 22 0x41) (-120)).2 (by decide)

/-- The least number is its own negation. -/
theorem not_printsSdec_least :
    Accepts quiet ∧ ¬ PrintsSdec quiet (Vector.replicate 22 0) (BitVec.intMin 64) := by
  refine ⟨fun _ => rfl, ?_⟩
  intro hprints
  have hret := hprints.ret
  rw [printSdec, printSdecString_least _ (by decide)] at hret
  cases hret

end Marcelov
