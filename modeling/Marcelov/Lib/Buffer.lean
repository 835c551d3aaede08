import Mathlib.Data.Int.Init
import Mathlib.Data.List.Basic

/-!
# Strings built backwards in a buffer

A C object is the list of its bytes, and an access outside of it has no result. `storeDigits` is
the loop that formats a number into the end of a buffer: it stores the digits from the lowest up,
each before the last one. `EndsIn` is its invariant, what the buffer ends in and where that begins;
`EndsIn.storeBack` is the rule for one store, and `EndsIn.storeDigits` says that the loop puts the
digits of `Nat.toDigits` there, for any type of counter that stands for a number.

`cString` reads a string back, up to its terminator.
-/

namespace Marcelov.Lib

/-! ## Accesses -/

def loadAt (obj : List UInt8) (i : ℤ) : Option UInt8 := if 0 ≤ i then obj[i.toNat]? else none

def storeAt (obj : List UInt8) (i : ℕ) (c : UInt8) : Option (List UInt8) :=
  if i < obj.length then some (obj.set i c) else none

/-- `*--s = c`: the object after it, and `s`. -/
def storeBack (obj : List UInt8) (s : ℕ) (c : UInt8) : Option (List UInt8 × ℕ) :=
  match s with
  | 0 => none
  | s + 1 => (storeAt obj s c).map fun obj => (obj, s)

/-- The string that a pointer to `bytes` stands for, if there is a NUL before the object ends. -/
def cString : List UInt8 → Option (List UInt8)
  | [] => none
  | c :: bytes => if c = 0 then some [] else (cString bytes).map (c :: ·)

theorem loadAt_natCast (obj : List UInt8) (i : ℕ) : loadAt obj i = obj[i]? :=
  if_pos (Int.natCast_nonneg i)

theorem cString_append_nul {str rest : List UInt8} (h : 0 ∉ str) :
    cString (str ++ 0 :: rest) = some str := by
  induction str with
  | nil => rfl
  | cons c str ih =>
    have hc : c ≠ 0 := fun heq => h (heq ▸ List.mem_cons_self)
    have hstr : 0 ∉ str := fun hmem => h (List.mem_cons_of_mem c hmem)
    rw [List.cons_append, cString, if_neg hc, ih hstr]
    rfl

/-- The object has `n` bytes, and ends in `str`, which begins at `s`. -/
structure EndsIn (n : ℕ) (obj : List UInt8) (s : ℕ) (str : List UInt8) : Prop where
  length_eq : obj.length = n
  drop_eq : obj.drop s = str
  start : s + str.length = n

section

variable {n s : ℕ} {obj str : List UInt8}

theorem EndsIn.storeAt (h : EndsIn n obj (s + 1) str) (c : UInt8) :
    storeAt obj s c = some (obj.set s c) ∧ EndsIn n (obj.set s c) s (c :: str) := by
  obtain ⟨hlength, hdrop, hstart⟩ := h
  have hs : s < obj.length := by omega
  refine ⟨if_pos hs, ?_, ?_, ?_⟩
  · rw [List.length_set, hlength]
  · rw [List.drop_set, if_neg (Nat.lt_irrefl s), Nat.sub_self, List.drop_eq_getElem_cons hs, hdrop]
    rfl
  · rw [List.length_cons]
    omega

theorem EndsIn.storeBack (h : EndsIn n obj s str) (hroom : str.length < n) (c : UInt8) :
    ∃ obj' s', storeBack obj s c = some (obj', s') ∧ EndsIn n obj' s' (c :: str) := by
  have hstart := h.start
  obtain ⟨s, rfl⟩ := Nat.exists_eq_succ_of_ne_zero (n := s) (by omega)
  obtain ⟨hstore, hends⟩ := h.storeAt c
  refine ⟨_, s, ?_, hends⟩
  rw [Lib.storeBack, hstore]
  rfl

end

/-! ## Digits -/

section

variable {α : Type*} (table : List UInt8) (digit : α → ℤ) (next : α → α) (more : α → ℕ → Bool)

/-- `do { *--s = table[digit(v)]; v = next(v); } while (more(v, s))`: the object after it, and
`s`. -/
def storeDigits : ℕ → α → List UInt8 → Option (List UInt8 × ℕ)
  | 0, _, _ => none
  | s + 1, v, obj => do
    let c ← loadAt table (digit v)
    let obj ← storeAt obj s c
    if more (next v) s then storeDigits s (next v) obj else return (obj, s)

/-- The loop goes through the digits of the numbers that `R` says its counter stands for; the
digit `d` is written as `char d`. -/
structure DigitLoop (b : ℕ) (char : Char → UInt8) (R : α → ℕ → Prop) : Prop where
  load : ∀ {v m}, R v m → loadAt table (digit v) = some (char (Nat.digitChar (m % b)))
  next : ∀ {v m}, R v m → R (next v) (m / b)
  more : ∀ {v m}, R v m → ∀ s, more v s = true ↔ m ≠ 0

variable {table digit next more} {b : ℕ} {char : Char → UInt8} {R : α → ℕ → Prop} {n s m : ℕ}
  {obj str : List UInt8} {v : α}

/-- **The loop puts the digits of its number in front.** -/
theorem EndsIn.storeDigits (h : EndsIn n obj s str)
    (hloop : DigitLoop table digit next more b char R) (hb : 1 < b) (hR : R v m)
    (hroom : (Nat.toDigits b m).length + str.length ≤ n) :
    ∃ obj' s', storeDigits table digit next more s v obj = some (obj', s') ∧
      EndsIn n obj' s' ((Nat.toDigits b m).map char ++ str) := by
  induction s generalizing v m obj str with
  | zero =>
    have hpos : 0 < (Nat.toDigits b m).length := Nat.length_toDigits_pos
    have hstart := h.start
    omega
  | succ s ih =>
    obtain ⟨hstore, hends⟩ := h.storeAt (char (Nat.digitChar (m % b)))
    simp only [Lib.storeDigits, hloop.load hR, hstore, Option.bind_eq_bind, Option.bind_some]
    have hmore := hloop.more (hloop.next hR) s
    rcases Nat.lt_or_ge m b with hlt | hge
    · -- the last digit
      rw [Nat.div_eq_of_lt hlt] at hmore
      rw [if_neg (by simp [hmore]), Nat.toDigits_of_lt_base hlt]
      rw [Nat.mod_eq_of_lt hlt] at hends ⊢
      exact ⟨_, _, rfl, hends⟩
    · have hdiv : m / b ≠ 0 := Nat.div_ne_zero_iff.2 ⟨by omega, hge⟩
      rw [if_pos (hmore.2 hdiv)]
      rw [Nat.toDigits_of_base_le hb hge] at hroom ⊢
      have hrest : (Nat.toDigits b (m / b)).length +
          (char (Nat.digitChar (m % b)) :: str).length ≤ n := by
        simp only [List.length_append, List.length_cons, List.length_nil] at hroom ⊢
        omega
      obtain ⟨obj', s', hdigits, hends'⟩ := ih hends (hloop.next hR) hrest
      refine ⟨obj', s', hdigits, ?_⟩
      simpa using hends'

theorem exists_digitChar_of_mem {c : Char} (hb : 1 < b) (h : c ∈ Nat.toDigits b m) :
    ∃ d < b, c = Nat.digitChar d := by
  induction m using Nat.strongRecOn with
  | ind m ih =>
    rcases Nat.lt_or_ge m b with hlt | hge
    · rw [Nat.toDigits_of_lt_base hlt] at h
      exact ⟨m, hlt, List.mem_singleton.1 h⟩
    · rw [Nat.toDigits_of_base_le hb hge, List.mem_append] at h
      rcases h with h | h
      · exact ih (m / b) (Nat.div_lt_self (by omega) hb) h
      · exact ⟨m % b, Nat.mod_lt m (by omega), List.mem_singleton.1 h⟩

theorem nul_not_mem_toDigits (hb : 1 < b) (hchar : ∀ d < b, char (Nat.digitChar d) ≠ 0) (m : ℕ) :
    0 ∉ (Nat.toDigits b m).map char := by
  intro hmem
  obtain ⟨c, hc, hzero⟩ := List.mem_map.1 hmem
  obtain ⟨d, hd, rfl⟩ := exists_digitChar_of_mem hb hc
  exact hchar d hd hzero

end

end Marcelov.Lib
