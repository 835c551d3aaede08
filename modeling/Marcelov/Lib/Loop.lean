import Mathlib.Data.List.Basic

/-!
# Counting loops with `break`

`forBreak body i n` is the output of `for (k = i; k < i + n; k++)`, where the body of each
iteration gives what it emits and whether it leaves the loop. `mem_forBreak` says what is
emitted: the output of every iteration that no earlier one breaks off.

`forWhile cond next body fuel i` is the output of `for (; cond(i); i = next(i))` over any type of
counter, `none` when the fuel runs out before the condition fails. `forWhile_eq` is the loop as
an equation, for a caller that knows the values the counter takes.

Of a loop that goes on as long as `p` holds, `forall_or_exists_first` says where it is left.
-/

namespace Marcelov.Lib

variable {α ι : Type*}

def forBreak (body : ℕ → List α × Bool) : ℕ → ℕ → List α
  | _, 0 => []
  | i, n + 1 => (body i).1 ++ if (body i).2 then [] else forBreak body (i + 1) n

section

variable {body : ℕ → List α × Bool} {i n : ℕ} {a : α}

theorem mem_forBreak :
    a ∈ forBreak body i n ↔
      ∃ k < n, (∀ j < k, (body (i + j)).2 = false) ∧ a ∈ (body (i + k)).1 := by
  induction n generalizing i with
  | zero => simp [forBreak]
  | succ n ih =>
    rw [forBreak, List.mem_append]
    constructor
    · rintro (h | h)
      · exact ⟨0, n.succ_pos, by simp, h⟩
      · by_cases hb : (body i).2 = true
        · simp [hb] at h
        · rw [if_neg hb, ih] at h
          obtain ⟨k, hk, hgo, hmem⟩ := h
          refine ⟨k + 1, by omega, fun j hj => ?_, by rwa [Nat.add_assoc, Nat.add_comm 1] at hmem⟩
          cases j with
          | zero => simpa using hb
          | succ j =>
            rw [Nat.add_comm j, ← Nat.add_assoc]
            exact hgo j (by omega)
    · rintro ⟨k, hk, hgo, hmem⟩
      cases k with
      | zero => exact Or.inl hmem
      | succ k =>
        have hb : (body i).2 = false := hgo 0 (by omega)
        refine Or.inr ?_
        rw [hb, if_neg (by simp), ih]
        refine ⟨k, by omega, fun j hj => ?_, by rwa [Nat.add_assoc, Nat.add_comm 1]⟩
        rw [Nat.add_assoc, Nat.add_comm 1]
        exact hgo (j + 1) (by omega)

/-- As many iterations as the loop has, each with at most `b` outputs. -/
theorem length_forBreak_le {b : ℕ} (hb : ∀ k, (body k).1.length ≤ b) (i n : ℕ) :
    (forBreak body i n).length ≤ n * b := by
  induction n generalizing i with
  | zero => exact Nat.zero_le _
  | succ n ih =>
    have hfirst := hb i
    have hrest := ih (i + 1)
    rw [forBreak, List.length_append, Nat.succ_mul]
    split_ifs
    · rw [List.length_nil]
      omega
    · omega

end

def forWhile (cond : ι → Bool) (next : ι → ι) (body : ι → Option (List α)) :
    ℕ → ι → Option (List α)
  | 0, _ => none
  | fuel + 1, i =>
    if cond i then do
      let out ← body i
      let rest ← forWhile cond next body fuel (next i)
      return out ++ rest
    else some []

/-- A loop that goes through `index 0`, …, `index (n - 1)` and leaves at `index n`. -/
theorem forWhile_eq {cond : ι → Bool} {next : ι → ι} {body : ι → Option (List α)}
    (index : ℕ → ι) (out : ℕ → List α) {n fuel : ℕ} (hfuel : n < fuel)
    (hnext : ∀ k < n, next (index k) = index (k + 1)) (hcond : ∀ k < n, cond (index k) = true)
    (hend : cond (index n) = false) (hbody : ∀ k < n, body (index k) = some (out k)) :
    forWhile cond next body fuel (index 0) = some ((List.range n).flatMap out) := by
  induction n generalizing index out fuel with
  | zero =>
    obtain ⟨fuel, rfl⟩ := Nat.exists_eq_succ_of_ne_zero (Nat.ne_of_gt hfuel)
    rw [forWhile, hend]
    rfl
  | succ n ih =>
    obtain ⟨fuel, rfl⟩ := Nat.exists_eq_succ_of_ne_zero (Nat.ne_of_gt (Nat.zero_lt_of_lt hfuel))
    have hrest := ih (fun k => index (k + 1)) (fun k => out (k + 1))
      (Nat.lt_of_succ_lt_succ hfuel) (fun k hk => hnext _ (Nat.succ_lt_succ hk))
      (fun k hk => hcond _ (Nat.succ_lt_succ hk)) hend
      (fun k hk => hbody _ (Nat.succ_lt_succ hk))
    rw [forWhile, if_pos (hcond 0 n.succ_pos), hbody 0 n.succ_pos, hnext 0 n.succ_pos, hrest,
      List.range_succ_eq_map, List.flatMap_cons, List.flatMap_map]
    rfl

/-! ## The first index -/

section

variable {p : ℕ → Prop} {j k : ℕ}

theorem forall_or_exists_first (p : ℕ → Prop) (n : ℕ) :
    (∀ j < n, p j) ∨ ∃ k < n, (∀ j < k, p j) ∧ ¬ p k := by
  induction n with
  | zero => exact Or.inl fun j hj => absurd hj (Nat.not_lt_zero j)
  | succ n ih =>
    rcases ih with hall | ⟨k, hk, hbefore, hfails⟩
    · by_cases hn : p n
      · refine Or.inl fun j hj => ?_
        rcases Nat.lt_succ_iff_lt_or_eq.1 hj with hj | rfl
        · exact hall j hj
        · exact hn
      · exact Or.inr ⟨n, n.lt_succ_self, hall, hn⟩
    · exact Or.inr ⟨k, Nat.lt_succ_of_lt hk, hbefore, hfails⟩

theorem first_unique (hj : ∀ m < j, p m) (hfails : ¬ p j) (hk : ∀ m < k, p m)
    (hfails' : ¬ p k) : j = k := by
  rcases Nat.lt_trichotomy j k with hlt | heq | hgt
  · exact absurd (hk j hlt) hfails
  · exact heq
  · exact absurd (hj k hgt) hfails'

end

end Marcelov.Lib
