import Marcelov.Pixels

/-!
# Filled rectangles

`fb_fill_rect` paints the part of a rectangle that is on the canvas, as long as the far corner
is a 32-bit value: both ends are computed with wrap-around, and an end that wraps is less than
the start, so that nothing at all is painted. `fillsRect_iff` says that this is the only way in
which it misses, in spite of the `int` counters.
-/

namespace Marcelov

open Lib

variable {fb : FbGeometry} {col : Rgb} {x y width height : ℕ}

instance : Nontrivial Rgb := ⟨black, ⟨1, 0, 0, 0⟩, by decide⟩

/-! ## The rectangle -/

def inRect (x y width height i j : ℕ) : Prop := (x ≤ i ∧ i < x + width) ∧ y ≤ j ∧ j < y + height

instance (i j : ℕ) : Decidable (inRect x y width height i j) :=
  inferInstanceAs (Decidable ((_ ∧ _) ∧ _ ∧ _))

/-- `fb_fill_rect` ends, stores to pixels of the canvas only, gives those of the rectangle the
colour, and leaves the others as they are. -/
def FillsRect (fb : FbGeometry) (col : Rgb) (x y width height : ℕ) : Prop :=
  ∃ ws, fbFillRect fb col x y width height = some ws ∧
    (∀ w ∈ ws, 0 ≤ w.1 ∧ w.1 < fb.width * fb.height) ∧
    ∀ (canvas : ℤ → Rgb), ∀ i < fb.width, ∀ j < fb.height,
      applyWrites ws canvas (j * fb.width + i : ℕ) =
        if inRect x y width height i j then col else canvas (j * fb.width + i : ℕ)

/-! ## What the loops store -/

/-- How many values a counter takes that starts at `start` and stops at `limit`, or at the
wrapped sum `start + size`. -/
def steps (limit start size : ℕ) : ℕ := min limit (u32 (start + size)) - start

theorem add_lt_of_lt_steps {limit start size k : ℕ} (h : k < steps limit start size) :
    start + k < limit ∧ start + k < u32 (start + size) := by
  rw [steps] at h
  omega

/-- A loop of `fb_fill_rect`, over the values its counter stands for. -/
theorem fillLoop_eq {limit start size : ℕ} {body : ℤ → Option (List (ℤ × Rgb))}
    {out : ℕ → List (ℤ × Rgb)} (hlimit : limit < 2 ^ 32) (hstart : start < 2 ^ 32)
    (hbody : ∀ k, start + k < limit → body (toI32 (start + k : ℕ)) = some (out k)) :
    fillLoop limit start size body =
      some ((List.range (steps limit start size)).flatMap out) := by
  refine forWhile_eq (fun k => toI32 (start + k : ℕ)) out ?_ ?_ ?_ ?_ ?_
  · rw [steps]
    omega
  · intro k _
    exact toI32_succ (start + k)
  · intro k hk
    have hin := add_lt_of_lt_steps hk
    rw [toU32_toI32 (hin.1.trans hlimit)]
    exact decide_eq_true hin
  · have hle : start + steps limit start size < 2 ^ 32 := by
      rw [steps]
      omega
    rw [toU32_toI32 hle, decide_eq_false_iff_not, steps]
    omega
  · intro k hk
    exact hbody k (add_lt_of_lt_steps hk).1

theorem rowOffset_add (hsize : fb.width * fb.height < 2 ^ 31) {i j : ℕ} (hi : i < fb.width)
    (hj : j < fb.height) :
    toI32 (toI32 (u32 (toU32 (toI32 j) * fb.width)) + toI32 i) = (j * fb.width + i : ℕ) := by
  have hlt := pixel_lt hi hj
  have hwidth : fb.width ≤ fb.width * fb.height := Nat.le_mul_of_pos_right _ (by omega)
  rw [toU32_toI32 (hj.trans fb.height_lt), u32_of_lt (by omega), toI32_of_lt (by omega),
    toI32_of_lt (n := i) (by omega), ← Int.natCast_add, toI32_of_lt (by omega)]

/-- **The stores of `fb_fill_rect`**: one row of pixels after the other. -/
theorem fbFillRect_eq (hsize : fb.width * fb.height < 2 ^ 31) (hx : x < 2 ^ 32)
    (hy : y < 2 ^ 32) :
    fbFillRect fb col x y width height =
      some ((List.range (steps fb.height y height)).flatMap fun k =>
        (List.range (steps fb.width x width)).map fun m =>
          ((((y + k) * fb.width + (x + m) : ℕ) : ℤ), col)) := by
  refine fillLoop_eq fb.height_lt hy fun k hk => ?_
  rw [List.map_eq_flatMap]
  refine fillLoop_eq fb.width_lt hx fun m hm => ?_
  rw [rowOffset_add hsize hm hk]

/-- The stores of `fb_fill_rect` have its colour, and are to the pixels between the starts and
the ends of its loops. -/
theorem mem_fbFillRect (hsize : fb.width * fb.height < 2 ^ 31) (hx : x < 2 ^ 32)
    (hy : y < 2 ^ 32) {ws : List (ℤ × Rgb)} (hws : fbFillRect fb col x y width height = some ws)
    {w : ℤ × Rgb} :
    w ∈ ws ↔ w.2 = col ∧ ∃ i j, w.1 = (j * fb.width + i : ℕ) ∧ i < fb.width ∧ j < fb.height ∧
      (x ≤ i ∧ i < u32 (x + width)) ∧ y ≤ j ∧ j < u32 (y + height) := by
  rw [fbFillRect_eq hsize hx hy, Option.some.injEq] at hws
  subst hws
  simp only [List.mem_flatMap, List.mem_map, List.mem_range]
  constructor
  · rintro ⟨k, hk, m, hm, rfl⟩
    obtain ⟨hrow, hbottom⟩ := add_lt_of_lt_steps hk
    obtain ⟨hcol, hright⟩ := add_lt_of_lt_steps hm
    exact ⟨rfl, _, _, rfl, hcol, hrow, ⟨Nat.le_add_right x m, hright⟩, Nat.le_add_right y k,
      hbottom⟩
  · rintro ⟨rfl, i, j, hij, hi, hj, ⟨hxi, hright⟩, hyj, hbottom⟩
    refine ⟨j - y, ?_, i - x, ?_, ?_⟩
    · rw [steps]
      omega
    · rw [steps]
      omega
    · rw [Nat.add_sub_cancel' hyj, Nat.add_sub_cancel' hxi, ← hij]

/-! ## The result -/

theorem applyWrites_fbFillRect (hsize : fb.width * fb.height < 2 ^ 31) (hx : x < 2 ^ 32)
    (hy : y < 2 ^ 32) {ws : List (ℤ × Rgb)} (hws : fbFillRect fb col x y width height = some ws)
    (canvas : ℤ → Rgb) {i j : ℕ} (hi : i < fb.width) (hj : j < fb.height) :
    applyWrites ws canvas (j * fb.width + i : ℕ) =
      if (x ≤ i ∧ i < u32 (x + width)) ∧ y ≤ j ∧ j < u32 (y + height) then col
      else canvas (j * fb.width + i : ℕ) := by
  split_ifs with hin
  · refine applyWrites_of_forall
      ⟨(_, col), (mem_fbFillRect hsize hx hy hws).2 ⟨rfl, i, j, rfl, hi, hj, hin⟩, rfl⟩ ?_
    intro w hw _
    exact ((mem_fbFillRect hsize hx hy hws).1 hw).1
  · refine applyWrites_of_not_mem fun w hw heq => hin ?_
    obtain ⟨-, i', j', hw, hi', hj', hin'⟩ := (mem_fbFillRect hsize hx hy hws).1 hw
    rw [hw] at heq
    obtain ⟨rfl, rfl⟩ := pixel_index_inj hi' hi (Int.natCast_inj.1 heq)
    exact hin'

/-- The rectangle is painted right when the ends that the loops stop at cut the canvas as those of
the rectangle do. -/
theorem fillsRect_iff_ends (hsize : fb.width * fb.height < 2 ^ 31) (hx : x < 2 ^ 32)
    (hy : y < 2 ^ 32) :
    FillsRect fb col x y width height ↔ ∀ i < fb.width, ∀ j < fb.height,
      ((x ≤ i ∧ i < u32 (x + width)) ∧ y ≤ j ∧ j < u32 (y + height) ↔
        inRect x y width height i j) := by
  constructor
  · rintro ⟨ws, hws, -, hpaint⟩
    intro i hi j hj
    -- a canvas of another colour shows which pixels are painted
    obtain ⟨other, hother⟩ : ∃ other : Rgb, other ≠ col := exists_ne col
    have h := hpaint (fun _ => other) i hi j hj
    rw [applyWrites_fbFillRect hsize hx hy hws _ hi hj] at h
    split_ifs at h with hends hin hin
    · exact iff_of_true hends hin
    · exact absurd h.symm hother
    · exact absurd h hother
    · exact iff_of_false hends hin
  · intro hends
    have hws := @fbFillRect_eq fb col x y width height hsize hx hy
    refine ⟨_, hws, ?_, ?_⟩
    · intro w hw
      obtain ⟨-, i, j, hij, hi, hj, -⟩ := (mem_fbFillRect hsize hx hy hws).1 hw
      have hlt := pixel_lt hi hj
      rw [hij]
      omega
    · intro canvas i hi j hj
      rw [applyWrites_fbFillRect hsize hx hy hws canvas hi hj]
      simp only [hends i hi j hj]

/-- **A filled rectangle.** On a canvas of fewer than `2 ^ 31` pixels, `fb_fill_rect` paints the
visible part of the rectangle exactly when its far corner does not wrap around, or no part of it
is visible. -/
theorem fillsRect_iff (fb : FbGeometry) (col : Rgb) (x y width height : ℕ)
    (hsize : fb.width * fb.height < 2 ^ 31) (hx : x < 2 ^ 32) (hy : y < 2 ^ 32)
    (hwidth : width < 2 ^ 32) (hheight : height < 2 ^ 32) :
    FillsRect fb col x y width height ↔
      (x + width < 2 ^ 32 ∧ y + height < 2 ^ 32) ∨
        ¬ (x < fb.width ∧ y < fb.height ∧ 0 < width ∧ 0 < height) := by
  rw [fillsRect_iff_ends hsize hx hy]
  constructor
  · intro hends
    by_contra hwrap
    push Not at hwrap
    obtain ⟨hcorner, hxw, hyh, hw, hh⟩ := hwrap
    -- the near corner is visible, and one of the ends stands before it
    have hnear := hends x hxw y hyh
    rw [inRect, u32, u32] at hnear
    omega
  · intro hcorner i hi j hj
    rw [inRect, u32, u32]
    omega

/-- A rectangle that is cut at the right and bottom edges of the screen. -/
theorem fillsRect_cut : FillsRect mainFb black 600 400 100 100 :=
  (fillsRect_iff mainFb black 600 400 100 100 (by decide) (by decide) (by decide) (by decide)
    (by decide)).2 (Or.inl (by decide))

/-- A rectangle that starts one row down and is as high as a `uint32_t` can say. -/
theorem not_fillsRect_tall : ¬ FillsRect mainFb ⟨0, 0, 255, 0⟩ 0 1 640 (2 ^ 32 - 1) := by
  rintro ⟨ws, hws, -, hpaint⟩
  have h := hpaint (fun _ => black) 0 (by decide) 1 (by decide)
  rw [applyWrites_fbFillRect (by decide) (by decide) (by decide) hws _ (by decide) (by decide)] at h
  exact absurd h (by decide)

end Marcelov
