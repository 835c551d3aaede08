import Mathlib.Data.Nat.Init
import Mathlib.Order.Basic

/-!
# Little-endian words in a byte memory

32-bit words at any address of a memory of bytes. A word reads back as it was stored
(`loadWord_storeWord`), and a store leaves the words that it does not overlap
(`loadWord_storeWord_of_disjoint`).

`memBit` looks at memory as a row of bits, in which a word at any address is a stretch of 32.
-/

namespace Marcelov.Lib

/-- The word at `a`, lowest byte first. -/
def loadWord (mem : ℕ → BitVec 8) (a : ℕ) : BitVec 32 :=
  mem (a + 3) ++ mem (a + 2) ++ mem (a + 1) ++ mem a

def loadHalf (mem : ℕ → BitVec 8) (a : ℕ) : BitVec 16 := mem (a + 1) ++ mem a

/-- The bytes of a value of `n` bytes, lowest first. -/
def bytesOf {w : ℕ} (n : ℕ) (v : BitVec w) : List (BitVec 8) :=
  (List.range n).map fun k => v.extractLsb' (8 * k) 8

/-- Store the bytes of `w` at `a`. -/
def storeWord (mem : ℕ → BitVec 8) (a : ℕ) (w : BitVec 32) : ℕ → BitVec 8 := fun b =>
  if a ≤ b ∧ b < a + 4 then w.extractLsb' (8 * (b - a)) 8 else mem b

/-- The words at `a` and `b` share no byte. -/
def WordDisjoint (a b : ℕ) : Prop := a + 4 ≤ b ∨ b + 4 ≤ a

theorem WordDisjoint.symm {a b : ℕ} (h : WordDisjoint a b) : WordDisjoint b a := Or.symm h

variable {mem : ℕ → BitVec 8} {a b : ℕ} {w : BitVec 32}

theorem storeWord_of_mem {k : ℕ} (hk : k < 4) :
    storeWord mem a w (a + k) = w.extractLsb' (8 * k) 8 := by
  rw [storeWord, if_pos (by omega), Nat.add_sub_cancel_left]

theorem storeWord_of_not_mem (h : b < a ∨ a + 4 ≤ b) : storeWord mem a w b = mem b :=
  if_neg (by omega)

@[simp] theorem loadWord_storeWord : loadWord (storeWord mem a w) a = w := by
  have h0 : storeWord mem a w a = w.extractLsb' 0 8 := storeWord_of_mem (k := 0) (by decide)
  rw [loadWord, storeWord_of_mem (by decide), storeWord_of_mem (by decide),
    storeWord_of_mem (by decide), h0]
  refine BitVec.eq_of_getLsbD_eq fun i hi => ?_
  simp only [BitVec.getLsbD_append, BitVec.getLsbD_extractLsb']
  split_ifs <;> rw [decide_eq_true (by omega), Bool.true_and] <;> congr 1 <;> omega

theorem loadWord_storeWord_of_disjoint (h : WordDisjoint a b) :
    loadWord (storeWord mem a w) b = loadWord mem b := by
  unfold WordDisjoint at h
  rw [loadWord, loadWord, storeWord_of_not_mem (by omega), storeWord_of_not_mem (by omega),
    storeWord_of_not_mem (by omega), storeWord_of_not_mem (by omega)]

/-! ## Single bits -/

theorem getLsbD_one_shiftLeft {i j : ℕ} (hj : j < 32) :
    (1#32 <<< j).getLsbD i = decide (i = j) := by
  by_cases h : i = j
  · subst h
    simp [hj]
  · simp [h]
    omega

theorem getLsbD_or_bit {i j : ℕ} (hj : j < 32) :
    (w ||| 1#32 <<< j).getLsbD i = (w.getLsbD i || decide (i = j)) := by
  rw [BitVec.getLsbD_or, getLsbD_one_shiftLeft hj]

theorem getLsbD_and_not_bit {i j : ℕ} (hj : j < 32) (h : i ≠ j) :
    (w &&& ~~~(1#32 <<< j)).getLsbD i = w.getLsbD i := by
  rcases Nat.lt_or_ge i 32 with hi | hi
  · rw [BitVec.getLsbD_and, BitVec.getLsbD_not, getLsbD_one_shiftLeft hj]
    simp [hi, h]
  · rw [BitVec.getLsbD_of_ge _ _ hi, BitVec.getLsbD_of_ge _ _ hi]

theorem getLsbD_and_not_bit_self {j : ℕ} (hj : j < 32) :
    (w &&& ~~~(1#32 <<< j)).getLsbD j = false := by
  rw [BitVec.getLsbD_and, BitVec.getLsbD_not, getLsbD_one_shiftLeft hj]
  simp

theorem and_bit_eq_iff {j : ℕ} (hj : j < 32) :
    w &&& 1#32 <<< j = 1#32 <<< j ↔ w.getLsbD j = true := by
  constructor
  · intro h
    have hbit := congrArg (fun v => v.getLsbD j) h
    simpa [getLsbD_one_shiftLeft hj] using hbit
  · intro h
    refine BitVec.eq_of_getLsbD_eq fun i _ => ?_
    rw [BitVec.getLsbD_and, getLsbD_one_shiftLeft hj]
    by_cases hij : i = j
    · subst hij
      simp [h]
    · simp [hij]

/-! ## Memory as bits -/

/-- Bit `n` of the memory from `a` on. -/
def memBit (mem : ℕ → BitVec 8) (a n : ℕ) : Bool := (mem (a + n / 8)).getLsbD (n % 8)

theorem memBit_add (mem : ℕ → BitVec 8) (a k n : ℕ) :
    memBit mem (a + k) n = memBit mem a (8 * k + n) := by
  have hdiv : (8 * k + n) / 8 = k + n / 8 := by omega
  rw [memBit, memBit, hdiv, Nat.mul_add_mod, Nat.add_assoc]

theorem getLsbD_loadWord (mem : ℕ → BitVec 8) (a : ℕ) {n : ℕ} (hn : n < 32) :
    (loadWord mem a).getLsbD n = memBit mem a n := by
  have hbyte (k : ℕ) (hk : n / 8 = k) : (mem (a + k)).getLsbD (n - 8 * k) = memBit mem a n := by
    rw [memBit, hk, Nat.mod_eq_sub, hk]
  rw [loadWord]
  simp only [BitVec.getLsbD_append]
  split_ifs with h0 h1 h2
  · exact hbyte 0 (by omega)
  · exact hbyte 1 (by omega)
  · rw [Nat.sub_sub]
    exact hbyte 2 (by omega)
  · rw [Nat.sub_sub, Nat.sub_sub]
    exact hbyte 3 (by omega)

theorem memBit_storeWord_of_not_mem {n : ℕ} (h : b + n / 8 < a ∨ a + 4 ≤ b + n / 8) :
    memBit (storeWord mem a w) b n = memBit mem b n := by
  rw [memBit, memBit, storeWord_of_not_mem h]

end Marcelov.Lib
