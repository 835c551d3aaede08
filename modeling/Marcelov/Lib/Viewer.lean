import Mathlib.Logic.Function.Iterate
import Marcelov.Lib.Cyclic

/-!
# A view of a growing list

A list of lines grows at its end and keeps its last `n` lines; a screen shows `h` of them. The
lines are numbered from the first one there ever was, and a `Viewer` says where the screen is:
the number of its top line, and whether it follows the end of the list.

The view may also start at a place that holds no line yet, as long as the list has never been
full: the places are those below `bound`, the larger of `count` and `n`.

* `Tail.push_draw` — a view that shows the tail of the list goes on showing it;
* `up_iterate`, `down_iterate` — scrolling moves the view as far as it can go.

Kept in a ring of `n` cells, a line has the index of its number modulo `n`. The last section says
which comparisons of such indices are comparisons of the numbers.
-/

namespace Marcelov.Lib

/-- A view of a list that keeps `n` lines, on a screen of `h` rows. -/
@[ext]
structure Viewer (n h : ℕ) where
  /-- The number of lines there have been. -/
  count : ℕ
  /-- The number of the line in the first row of the screen. -/
  top : ℕ
  /-- A new line moves the view. -/
  follows : Bool
  count_pos : 0 < count
  oldest_le : count - n ≤ top
  top_lt : top < max count n
  follows_last : follows = true → top < count ∧ top + min h (max count n - top) = count

namespace Viewer

variable {n h : ℕ}

/-- The number of the oldest line that is kept. -/
def oldest (v : Viewer n h) : ℕ := v.count - n

/-- The places for lines end here. -/
def bound (v : Viewer n h) : ℕ := max v.count n

/-- The rows of the screen that have a place. -/
def rows (v : Viewer n h) : ℕ := min h (v.bound - v.top)

/-- The last row of the screen shows the newest line. -/
def AtEnd (v : Viewer n h) : Prop := v.top < v.count ∧ v.top + v.rows = v.count

instance (v : Viewer n h) : Decidable v.AtEnd := inferInstanceAs (Decidable (_ ∧ _))

theorem oldest_add (v : Viewer n h) : v.oldest + n = v.bound := by
  unfold oldest bound
  omega

def init (n h : ℕ) (hn : 0 < n) : Viewer n h where
  count := 1
  top := 0
  follows := false
  count_pos := Nat.one_pos
  oldest_le := by omega
  top_lt := by omega
  follows_last := fun hf => absurd hf Bool.false_ne_true

/-! ## Operations -/

/-- The top of the view after a new line: it moves when it follows, when its line is dropped,
and when it was the place of the new line. The place after the last one of a list that was
never full is the first one. -/
def pushTop (v : Viewer n h) : ℕ :=
  if v.top = v.count then (if v.count + 1 = n then 0 else v.count + 1)
  else if v.follows = true ∨ v.top + n = v.count then v.top + 1
  else v.top

theorem pushTop_of_lt (v : Viewer n h) (hlt : v.top < v.count) :
    v.pushTop = if v.follows = true ∨ v.top + n = v.count then v.top + 1 else v.top :=
  if_neg hlt.ne

theorem pushTop_of_follows {v : Viewer n h} (hf : v.follows = true) : v.pushTop = v.top + 1 := by
  rw [pushTop_of_lt v (v.follows_last hf).1, if_pos (Or.inl hf)]

theorem pushTop_bounds (v : Viewer n h) :
    v.count + 1 - n ≤ v.pushTop ∧ v.pushTop < max (v.count + 1) n := by
  have holdest := v.oldest_le
  have htop := v.top_lt
  unfold pushTop
  split_ifs with hcount hwrap hmove
  · omega
  · exact ⟨by omega, by omega⟩
  · have hlt : v.top < v.count := by
      have hcount := v.count_pos
      rcases hmove with hf | hfull
      · exact (v.follows_last hf).1
      · omega
    exact ⟨by omega, by omega⟩
  · exact ⟨by omega, by omega⟩

def push (v : Viewer n h) : Viewer n h where
  count := v.count + 1
  top := v.pushTop
  follows := v.follows
  count_pos := Nat.succ_pos _
  oldest_le := v.pushTop_bounds.1
  top_lt := v.pushTop_bounds.2
  follows_last := by
    intro hf
    obtain ⟨hlt, hlast⟩ := v.follows_last hf
    rw [pushTop_of_follows hf]
    omega

/-- Scroll down: not past the last place. -/
def down (v : Viewer n h) : Viewer n h where
  count := v.count
  top := if v.top + 1 = v.bound then v.top else v.top + 1
  follows := false
  count_pos := v.count_pos
  oldest_le := by
    have holdest := v.oldest_le
    split_ifs <;> omega
  top_lt := by
    have htop := v.top_lt
    unfold bound
    split_ifs <;> omega
  follows_last := fun hf => absurd hf Bool.false_ne_true

/-- Scroll up: not past the oldest line. -/
def up (v : Viewer n h) : Viewer n h where
  count := v.count
  top := if v.top = v.oldest then v.top else v.top - 1
  follows := false
  count_pos := v.count_pos
  oldest_le := by
    have holdest := v.oldest_le
    unfold oldest
    split_ifs <;> omega
  top_lt := by
    have htop := v.top_lt
    split_ifs <;> omega
  follows_last := fun hf => absurd hf Bool.false_ne_true

/-- Draw the screen: from then on the view follows, if its last row shows the newest line. -/
def draw (v : Viewer n h) : Viewer n h where
  count := v.count
  top := v.top
  follows := v.follows || decide v.AtEnd
  count_pos := v.count_pos
  oldest_le := v.oldest_le
  top_lt := v.top_lt
  follows_last := by
    intro hf
    rcases Bool.or_eq_true_iff.1 hf with hf | hf
    · exact v.follows_last hf
    · exact of_decide_eq_true hf

section

variable (v : Viewer n h)

@[simp] theorem push_count : v.push.count = v.count + 1 := rfl
@[simp] theorem push_top : v.push.top = v.pushTop := rfl
@[simp] theorem push_follows : v.push.follows = v.follows := rfl
@[simp] theorem down_count : v.down.count = v.count := rfl
@[simp] theorem down_follows : v.down.follows = false := rfl
@[simp] theorem up_count : v.up.count = v.count := rfl
@[simp] theorem up_follows : v.up.follows = false := rfl
@[simp] theorem draw_count : v.draw.count = v.count := rfl
@[simp] theorem draw_top : v.draw.top = v.top := rfl

theorem down_top : v.down.top = if v.top + 1 = v.bound then v.top else v.top + 1 := rfl

theorem up_top : v.up.top = if v.top = v.oldest then v.top else v.top - 1 := rfl

/-- After it is drawn, a view follows exactly when its last row shows the newest line. -/
theorem draw_follows_iff : v.draw.follows = true ↔ v.AtEnd := by
  refine (Bool.or_eq_true_iff).trans ⟨?_, fun hend => Or.inr (decide_eq_true hend)⟩
  rintro (hf | hend)
  · exact v.follows_last hf
  · exact of_decide_eq_true hend

@[simp] theorem draw_draw : v.draw.draw = v.draw := by
  have hor : (v.follows || decide v.AtEnd || decide v.AtEnd) = (v.follows || decide v.AtEnd) := by
    rw [Bool.or_assoc, Bool.or_self]
  exact Viewer.ext rfl rfl hor

end

/-! ## The tail of the list -/

/-- The view shows the last lines of the list, as many as the screen has rows, and follows it
once the screen is full. -/
structure Tail (v : Viewer n h) : Prop where
  top_eq : v.top = v.count - min h n
  follows_iff : v.follows = true ↔ min h n ≤ v.count

/-- **A view of the tail goes on showing the tail**, if it is drawn after every line. -/
theorem Tail.push_draw {v : Viewer n h} (hpos : 0 < min h n) (ht : v.Tail) : v.push.draw.Tail := by
  obtain ⟨htop, hfollows⟩ := ht
  have hcount := v.count_pos
  have hpush : v.pushTop = v.count + 1 - min h n := by
    by_cases hf : v.follows = true
    · have hle := hfollows.1 hf
      rw [pushTop_of_follows hf, htop]
      omega
    · have hlt : v.count < min h n := Nat.lt_of_not_le (hfollows.not.1 hf)
      have hstay : ¬ (v.follows = true ∨ v.top + n = v.count) := by
        rintro (hf' | hfull)
        · exact hf hf'
        · omega
      rw [pushTop_of_lt v (by omega), if_neg hstay]
      omega
  refine ⟨hpush, ?_⟩
  rw [draw_follows_iff, AtEnd, rows, bound, draw_count, push_top, push_count, hpush]
  omega

theorem Tail.draw {v : Viewer n h} (hpos : 0 < min h n) (ht : v.Tail) : v.draw.Tail := by
  refine ⟨ht.top_eq, ?_⟩
  have htop := ht.top_eq
  have hcount := v.count_pos
  rw [draw_follows_iff, AtEnd, rows, bound, draw_count, htop]
  omega

theorem tail_of_drawn {v : Viewer n h} (hpos : 0 < min h n) (hdrawn : v.draw = v)
    (htop : v.top = v.count - min h n) : v.Tail := by
  refine ⟨htop, ?_⟩
  have hcount := v.count_pos
  rw [← hdrawn, draw_follows_iff, AtEnd, rows, bound, draw_count, htop]
  omega

theorem Tail.rows_eq {v : Viewer n h} (ht : v.Tail) : v.rows = min h n := by
  have htop := ht.top_eq
  have hcount := v.count_pos
  rw [rows, bound, htop]
  omega

/-! ## Scrolling -/

theorem up_iterate (v : Viewer n h) (k : ℕ) :
    ((fun v => v.up.draw)^[k] v).count = v.count ∧
      ((fun v => v.up.draw)^[k] v).top = max (v.top - k) v.oldest := by
  have holdest := v.oldest_le
  induction k with
  | zero => exact ⟨rfl, by rw [Function.iterate_zero_apply, oldest]; omega⟩
  | succ k ih =>
    obtain ⟨hcount, htop⟩ := ih
    rw [Function.iterate_succ_apply']
    refine ⟨hcount, ?_⟩
    rw [draw_top, up_top, htop, oldest, oldest, hcount]
    split_ifs <;> omega

theorem down_iterate (v : Viewer n h) (k : ℕ) :
    ((fun v => v.down.draw)^[k] v).count = v.count ∧
      ((fun v => v.down.draw)^[k] v).top = min (v.top + k) (v.bound - 1) := by
  have hlt := v.top_lt
  induction k with
  | zero => exact ⟨rfl, by rw [Function.iterate_zero_apply, bound]; omega⟩
  | succ k ih =>
    obtain ⟨hcount, htop⟩ := ih
    rw [Function.iterate_succ_apply']
    refine ⟨hcount, ?_⟩
    rw [draw_top, down_top, htop, bound, bound, hcount]
    split_ifs <;> omega

/-! ## Indices in a ring -/

section

variable (v : Viewer n h)

theorem top_lt_bound : v.top < v.oldest + n := by
  rw [v.oldest_add]
  exact v.top_lt

theorem lap_top : lap n (v.top % n) (v.oldest % n) = v.bound - v.top := by
  have hle : v.oldest ≤ v.top := v.oldest_le
  rw [lap_mod hle v.top_lt_bound, v.oldest_add]

/-- The view cannot go up when its top line has the index of the oldest one. -/
theorem top_index_iff : v.top % n = v.oldest % n ↔ v.top = v.oldest := by
  have hlt := v.top_lt_bound
  have hle : v.oldest ≤ v.top := v.oldest_le
  exact mod_eq_mod_iff hle hlt le_rfl (by omega)

/-- The view cannot go down when the next line would have that index. -/
theorem next_index_iff : (v.top % n + 1) % n = v.oldest % n ↔ v.top + 1 = v.bound := by
  have hlt := v.top_lt_bound
  have hle : v.oldest ≤ v.top := v.oldest_le
  have hn : 0 < n := by omega
  have hbound := v.oldest_add
  rw [← lap_eq_one_iff hn (Nat.mod_lt _ hn), lap_top]
  omega

/-- The index of a new line is that of the top of the view when its place is there, or the line
there is the oldest one of a full ring. -/
theorem new_index_iff : v.count % n = v.top % n ↔ v.top = v.count ∨ v.top + n = v.count := by
  have holdest := v.oldest_le
  have htop := v.top_lt
  by_cases hfull : n ≤ v.count
  · have hback : v.count % n = (v.count - n) % n := by
      conv_lhs => rw [← Nat.sub_add_cancel hfull]
      exact Nat.add_mod_right _ n
    rw [hback, mod_eq_mod_iff le_rfl (by omega) holdest (by omega)]
    omega
  · rw [mod_eq_mod_iff (Nat.zero_le _) (by omega) (Nat.zero_le _) (by omega)]
    omega

theorem last_index_iff : gap n (v.top % n) ((v.count - 1) % n) + 1 = v.rows ↔ v.AtEnd := by
  have hpos := v.count_pos
  have holdest := v.oldest_le
  have htop := v.top_lt
  have hn : 0 < n := by omega
  have hrows : v.rows ≤ max v.count n - v.top := min_le_right _ _
  rw [AtEnd]
  by_cases hlt : v.top < v.count
  · have hlast : (v.count - 1) % n = fwd n (v.top % n) (v.count - 1 - v.top) := by
      rw [fwd_mod]
      congr 1
      omega
    rw [hlast, gap_fwd (Nat.mod_lt _ hn) (by omega)]
    omega
  · rw [Nat.mod_eq_of_lt (by omega : v.count - 1 < n), Nat.mod_eq_of_lt (by omega : v.top < n),
      gap_of_gt (by omega) (by omega)]
    omega

/-- The list can be viewed from a place with any index. -/
theorem exists_seek {i : ℕ} (hi : i < n) :
    ∃ v' : Viewer n h, v'.count = v.count ∧ v'.top % n = i ∧ v'.follows = false := by
  have hn : 0 < n := by omega
  have hgap := gap_lt hn (v.oldest % n) i
  have hbound := v.oldest_add
  refine ⟨{
    count := v.count
    top := v.oldest + gap n (v.oldest % n) i
    follows := false
    count_pos := v.count_pos
    oldest_le := Nat.le_add_right _ _
    top_lt := ?_
    follows_last := fun hf => absurd hf Bool.false_ne_true }, rfl, ?_, rfl⟩
  · unfold bound at hbound
    omega
  · exact (fwd_mod n _ _).symm.trans (fwd_gap (Nat.mod_lt _ hn) hi)

theorem pushTop_mod :
    v.pushTop % n =
      if v.follows = true ∨ v.count % n = v.top % n then (v.top % n + 1) % n else v.top % n := by
  have hnew := v.new_index_iff
  rw [Nat.mod_add_mod, pushTop]
  by_cases hcount : v.top = v.count
  · rw [if_pos hcount, if_pos (Or.inr (hnew.2 (Or.inl hcount))), hcount]
    split_ifs with hwrap
    · rw [hwrap, Nat.mod_self, Nat.zero_mod]
    · rfl
  · have hfull : v.count % n = v.top % n ↔ v.top + n = v.count :=
      hnew.trans (or_iff_right hcount)
    rw [if_neg hcount]
    by_cases hmove : v.follows = true ∨ v.top + n = v.count
    · rw [if_pos hmove, if_pos (hmove.imp_right hfull.2)]
    · rw [if_neg hmove, if_neg fun hm => hmove (hm.imp_right hfull.1)]

end

end Viewer

end Marcelov.Lib
