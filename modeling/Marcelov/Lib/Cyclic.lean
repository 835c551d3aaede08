import Mathlib.Data.Nat.ModEq
import Mathlib.Data.List.Range
import Mathlib.Algebra.Order.Group.Nat

/-!
# Cyclic indices

The indices of an array of `n` cells, read as a circle. `fwd n a k` is the index `k` steps
after `a`, and `gap n a b` the number of steps from `a` to `b`; on indices below `n` they are
inverse to each other (`fwd_gap`, `gap_fwd`). `arc n a b` lists the indices met on the way from
`a` to `b`, both included, and `lap n a b` is the length of a walk from `a` that stops before
it reaches `b`.
-/

namespace Marcelov.Lib

/-- The index `k` steps after `a`. -/
def fwd (n a k : ℕ) : ℕ := (a + k) % n

/-- The number of steps from `a` to `b`. -/
def gap (n a b : ℕ) : ℕ := (b + n - a) % n

/-- The indices from `a` to `b`, both included. -/
def arc (n a b : ℕ) : List ℕ := (List.range (gap n a b + 1)).map (fwd n a)

variable {n a b k : ℕ}

theorem gap_lt (hn : 0 < n) (a b : ℕ) : gap n a b < n := Nat.mod_lt _ hn

/-- Numbers less than `n` apart do not share an index. -/
theorem mod_ne_mod_of_lt (hab : a < b) (hba : b < a + n) : a % n ≠ b % n := by
  intro heq
  have hmod : b - a ≡ 0 [MOD n] :=
    Nat.ModEq.add_right_cancel' a (by
      rw [Nat.sub_add_cancel hab.le, Nat.zero_add]
      exact heq.symm)
  have hle := Nat.le_of_dvd (by omega) (Nat.modEq_zero_iff_dvd.1 hmod)
  omega

/-! ## The two cases: before and after the wrap -/

theorem fwd_of_lt (h : a + k < n) : fwd n a k = a + k := Nat.mod_eq_of_lt h

theorem fwd_of_ge (h : n ≤ a + k) (h' : a + k < n + n) : fwd n a k = a + k - n := by
  rw [fwd, Nat.mod_eq_sub_mod h, Nat.mod_eq_of_lt (by omega)]

theorem gap_of_le (h : a ≤ b) (hb : b < n) : gap n a b = b - a := by
  have hsplit : b + n - a = b - a + n := by omega
  rw [gap, hsplit, Nat.add_mod_right, Nat.mod_eq_of_lt (by omega)]

theorem gap_of_gt (h : b < a) (ha : a < n) : gap n a b = b + n - a :=
  Nat.mod_eq_of_lt (by omega)

/-! ## `fwd` and `gap` are inverse -/

@[simp] theorem gap_self (ha : a < n) : gap n a a = 0 := by
  rw [gap_of_le le_rfl ha, Nat.sub_self]

theorem fwd_gap (ha : a < n) (hb : b < n) : fwd n a (gap n a b) = b := by
  rcases Nat.lt_or_ge b a with h | h
  · rw [gap_of_gt h ha, fwd_of_ge (by omega) (by omega)]
    omega
  · rw [gap_of_le h hb, fwd_of_lt (by omega)]
    omega

theorem gap_fwd (ha : a < n) (hk : k < n) : gap n a (fwd n a k) = k := by
  rcases Nat.lt_or_ge (a + k) n with h | h
  · rw [fwd_of_lt h, gap_of_le (by omega) h]
    omega
  · rw [fwd_of_ge h (by omega), gap_of_gt (by omega) ha]
    omega

theorem gap_eq_zero_iff (ha : a < n) (hb : b < n) : gap n a b = 0 ↔ a = b := by
  constructor
  · intro h
    have hf := fwd_gap ha hb
    rwa [h, fwd, Nat.add_zero, Nat.mod_eq_of_lt ha] at hf
  · rintro rfl
    exact gap_self ha

theorem eq_of_gap_eq {c : ℕ} (ha : a < n) (hb : b < n) (hc : c < n)
    (h : gap n a b = gap n a c) : b = c := by
  rw [← fwd_gap ha hb, ← fwd_gap ha hc, h]

/-! ## Moving one step -/

theorem fwd_succ (a k : ℕ) : (fwd n a k + 1) % n = fwd n a (k + 1) := by
  rw [fwd, fwd, Nat.mod_add_mod, Nat.add_assoc]

theorem fwd_zero (ha : a < n) : fwd n a 0 = a := by
  rw [fwd, Nat.add_zero, Nat.mod_eq_of_lt ha]

theorem fwd_turn (ha : a < n) : fwd n a n = a := by
  rw [fwd, Nat.add_mod_right, Nat.mod_eq_of_lt ha]

/-- Moving the second end one step, short of a whole turn, adds one to the distance. -/
theorem gap_succ (ha : a < n) (hb : b < n) (h : (b + 1) % n ≠ a) :
    gap n a ((b + 1) % n) = gap n a b + 1 := by
  have hn : 0 < n := by omega
  have hlt := gap_lt hn a b
  have hstep : (b + 1) % n = fwd n a (gap n a b + 1) := by
    conv_lhs => rw [← fwd_gap ha hb]
    exact fwd_succ a _
  have hturn : gap n a b + 1 ≠ n := by
    intro heq
    rw [hstep, heq, fwd_turn ha] at h
    exact h rfl
  rw [hstep, gap_fwd ha (by omega)]

theorem gap_succ_succ (ha : a < n) (hb : b < n) :
    gap n ((a + 1) % n) ((b + 1) % n) = gap n a b := by
  have hn : 0 < n := by omega
  have hstep : (b + 1) % n = fwd n ((a + 1) % n) (gap n a b) := by
    conv_lhs => rw [← fwd_gap ha hb]
    rw [fwd, fwd, Nat.mod_add_mod, Nat.mod_add_mod]
    congr 1
    omega
  rw [hstep, gap_fwd (Nat.mod_lt _ hn) (gap_lt hn a b)]

theorem gap_succ_left (ha : a < n) (hb : b < n) (h : a ≠ b) :
    gap n ((a + 1) % n) b = gap n a b - 1 := by
  have hpos : gap n a b ≠ 0 := fun hz => h ((gap_eq_zero_iff ha hb).1 hz)
  have hlt : gap n a b < n := gap_lt (by omega) a b
  have hstep : b = fwd n ((a + 1) % n) (gap n a b - 1) := by
    conv_lhs => rw [← fwd_gap ha hb]
    rw [fwd, fwd, Nat.mod_add_mod]
    congr 1
    omega
  conv_lhs => rw [hstep]
  exact gap_fwd (Nat.mod_lt _ (by omega)) (by omega)

theorem gap_pred (ha : a < n) (hb : b < n) (h : a ≠ b) :
    gap n a ((b + n - 1) % n) = gap n a b - 1 := by
  have hpos : gap n a b ≠ 0 := fun hz => h ((gap_eq_zero_iff ha hb).1 hz)
  have hlt : gap n a b < n := gap_lt (by omega) a b
  have hback : (b + n - 1) % n = fwd n a (gap n a b - 1) := by
    conv_lhs => rw [← fwd_gap ha hb, fwd]
    have hmod := Nat.mod_add_mod (a + gap n a b) n (n - 1)
    rw [Nat.add_sub_assoc (by omega), hmod, fwd]
    have hsplit : a + gap n a b + (n - 1) = a + (gap n a b - 1) + n := by omega
    rw [hsplit, Nat.add_mod_right]
  rw [hback, gap_fwd ha (by omega)]

/-! ## Laps -/

/-- The length of a walk that leaves `a` and stops before `b`: a whole turn when they are
equal. -/
def lap (n a b : ℕ) : ℕ := gap n ((a + 1) % n) b + 1

theorem lap_pos (n a b : ℕ) : 0 < lap n a b := Nat.succ_pos _

theorem lap_le (hn : 0 < n) (a b : ℕ) : lap n a b ≤ n := gap_lt hn _ b

theorem lap_of_ne (ha : a < n) (hb : b < n) (h : a ≠ b) : lap n a b = gap n a b := by
  have hpos : gap n a b ≠ 0 := fun hz => h ((gap_eq_zero_iff ha hb).1 hz)
  rw [lap, gap_succ_left ha hb h]
  omega

theorem lap_eq_one_iff (hn : 0 < n) (hb : b < n) : lap n a b = 1 ↔ (a + 1) % n = b := by
  rw [lap, Nat.add_eq_right, gap_eq_zero_iff (Nat.mod_lt _ hn) hb]

theorem lap_succ (hn : 0 < n) (hb : b < n) (h : (a + 1) % n ≠ b) :
    lap n ((a + 1) % n) b + 1 = lap n a b := by
  have hne : gap n ((a + 1) % n) b ≠ 0 := fun hz =>
    h ((gap_eq_zero_iff (Nat.mod_lt _ hn) hb).1 hz)
  rw [lap, lap, gap_succ_left (Nat.mod_lt _ hn) hb h]
  omega

theorem fwd_lap (hn : 0 < n) (hb : b < n) : fwd n a (lap n a b) = b := by
  have hstep : fwd n a (lap n a b) = fwd n ((a + 1) % n) (gap n ((a + 1) % n) b) := by
    rw [lap, fwd, fwd, Nat.mod_add_mod]
    congr 1
    omega
  rw [hstep, fwd_gap (Nat.mod_lt _ hn) hb]

/-- Before the end of the lap, the walk has not met `b`. -/
theorem fwd_ne_of_lt_lap (ha : a < n) (hb : b < n) (hk : k ≠ 0) (h : k < lap n a b) :
    fwd n a k ≠ b := by
  have hkn : k < n := Nat.lt_of_lt_of_le h (lap_le (by omega) a b)
  have hgap := gap_fwd ha hkn
  rintro rfl
  by_cases hab : a = fwd n a k
  · rw [← hab, gap_self ha] at hgap
    exact hk hgap.symm
  · rw [lap_of_ne ha hb hab, hgap] at h
    exact Nat.lt_irrefl k h

theorem lap_succ_succ (hn : 0 < n) (hb : b < n) :
    lap n ((a + 1) % n) ((b + 1) % n) = lap n a b := by
  rw [lap, lap, gap_succ_succ (Nat.mod_lt _ hn) hb]

theorem lap_self (ha : a < n) : lap n a a = n := by
  rcases Nat.lt_or_ge (a + 1) n with h | h
  · rw [lap, Nat.mod_eq_of_lt h, gap_of_gt (by omega) h]
    omega
  · obtain rfl : n = a + 1 := by omega
    rw [lap, Nat.mod_self, gap_of_le a.zero_le ha]
    omega

/-! ## Numbers and their indices -/

theorem mod_eq_mod_iff {lo : ℕ} (ha : lo ≤ a) (ha' : a < lo + n) (hb : lo ≤ b)
    (hb' : b < lo + n) : a % n = b % n ↔ a = b := by
  refine ⟨fun heq => ?_, fun heq => by rw [heq]⟩
  rcases Nat.lt_trichotomy a b with h | h | h
  · exact absurd heq (mod_ne_mod_of_lt h (by omega))
  · exact h
  · exact absurd heq.symm (mod_ne_mod_of_lt h (by omega))

theorem pred_mod (hn : 0 < n) (ha : 0 < a) : (a % n + n - 1) % n = (a - 1) % n := by
  have hturn : a + (n - 1) = a - 1 + n := by omega
  rw [Nat.add_sub_assoc hn, Nat.mod_add_mod, hturn, Nat.add_mod_right]

theorem fwd_mod (n a k : ℕ) : fwd n (a % n) k = (a + k) % n := Nat.mod_add_mod a n k

/-- The walk from the index of a number to that of the first one of its stretch. -/
theorem lap_mod {lo : ℕ} (ha : lo ≤ a) (ha' : a < lo + n) :
    lap n (a % n) (lo % n) = lo + n - a := by
  have hn : 0 < n := by omega
  have hend : lo % n = fwd n ((a + 1) % n) (lo + n - a - 1) := by
    have hsum : a + 1 + (lo + n - a - 1) = lo + n := by omega
    rw [fwd_mod, hsum, Nat.add_mod_right]
  rw [lap, Nat.mod_add_mod, hend, gap_fwd (Nat.mod_lt _ hn) (by omega)]
  omega

/-! ## Arcs -/

@[simp] theorem length_arc (n a b : ℕ) : (arc n a b).length = gap n a b + 1 := by
  rw [arc, List.length_map, List.length_range]

/-- An index lies on the arc from `a` to `b` exactly when it is met no later than `b`. -/
theorem mem_arc_iff {c : ℕ} (ha : a < n) (hc : c < n) :
    c ∈ arc n a b ↔ gap n a c ≤ gap n a b := by
  have hn : 0 < n := by omega
  simp only [arc, List.mem_map, List.mem_range]
  constructor
  · rintro ⟨k, hk, rfl⟩
    rw [gap_fwd ha (by have := gap_lt hn a b; omega)]
    omega
  · intro h
    exact ⟨gap n a c, by omega, fwd_gap ha hc⟩

theorem lt_of_mem_arc {c : ℕ} (hn : 0 < n) (h : c ∈ arc n a b) : c < n := by
  obtain ⟨k, -, rfl⟩ := List.mem_map.1 h
  exact Nat.mod_lt _ hn

theorem gap_of_mem_arc {c : ℕ} (ha : a < n) (hb : b < n) (h : c ∈ arc n a b) :
    gap n c b = gap n a b - gap n a c := by
  have hlt := gap_lt (by omega : 0 < n) a b
  obtain ⟨j, hj, rfl⟩ := List.mem_map.1 h
  rw [List.mem_range] at hj
  have hstep : b = fwd n (fwd n a j) (gap n a b - j) := by
    conv_lhs => rw [← fwd_gap ha hb]
    rw [fwd, fwd, fwd, Nat.mod_add_mod]
    congr 1
    omega
  rw [gap_fwd ha (by omega)]
  conv_lhs => rw [hstep]
  exact gap_fwd (Nat.mod_lt _ (by omega)) (by omega)

end Marcelov.Lib
