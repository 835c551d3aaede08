import Mathlib.Data.List.DropRight
import Mathlib.Data.List.Forall2
import Marcelov.Lib.Cyclic

/-!
# A ring that keeps the end of a growing list

`RingHolds n R cell start last L` says that a circular array of `n` cells represents the list
`L` from its end: element number `i` of `L`, when it is one of the last `n`, is held (by `R`)
in cell `i % n`; `start` is the cell of the oldest element kept and `last` the cell of the
newest one. The two operations of such a ring keep it:

* `RingHolds.push` — advance `last`, and `start` too when the two meet, and fill the new cell;
* `RingHolds.modifyLast` — rewrite the newest cell.

`RingHolds.read` says what a reader of the ring sees: the last `n` elements, in order.
-/

namespace Marcelov.Lib

variable {α β : Type*}

structure RingHolds (n : ℕ) (R : α → β → Prop) (cell : ℕ → α) (start last : ℕ)
    (L : List β) : Prop where
  ne : L ≠ []
  last_eq : last = (L.length - 1) % n
  start_eq : start = (L.length - n) % n
  cells : ∀ (i : ℕ) (h : i < L.length), L.length ≤ i + n → R (cell (i % n)) L[i]

namespace RingHolds

variable {n start last : ℕ} {R : α → β → Prop} {cell cell' : ℕ → α} {L : List β}

theorem length_pos (h : RingHolds n R cell start last L) : 0 < L.length :=
  List.length_pos_iff.2 h.ne

theorem start_lt (hn : 0 < n) (h : RingHolds n R cell start last L) : start < n :=
  h.start_eq ▸ Nat.mod_lt _ hn

theorem getLast (hn : 0 < n) (h : RingHolds n R cell start last L) :
    R (cell last) (L.getLast h.ne) := by
  have hlen := h.length_pos
  have hcell := h.cells (L.length - 1) (by omega) (by omega)
  rwa [← h.last_eq, ← List.getLast_eq_getElem] at hcell

/-! ## The ring seen from its start -/

theorem fwd_start (h : RingHolds n R cell start last L) (k : ℕ) :
    fwd n start k = (L.length - n + k) % n := by
  rw [fwd, h.start_eq, Nat.mod_add_mod]

theorem last_eq_fwd (hn : 0 < n) (h : RingHolds n R cell start last L) :
    last = fwd n start (min L.length n - 1) := by
  have hlen := h.length_pos
  rw [h.fwd_start, h.last_eq]
  congr 1
  omega

/-- As many cells are in use as there are elements, up to the size of the ring. -/
theorem gap_eq (hn : 0 < n) (h : RingHolds n R cell start last L) :
    gap n start last + 1 = min L.length n := by
  have hlen := h.length_pos
  rw [h.last_eq_fwd hn, gap_fwd (h.start_lt hn) (by omega)]
  omega

/-- **Reading the ring** from `start` to `last` gives the last `n` elements. -/
theorem read (hn : 0 < n) (h : RingHolds n R cell start last L) :
    List.Forall₂ R ((arc n start last).map cell) (L.rtake n) := by
  have hlen : ((arc n start last).map cell).length = (L.rtake n).length := by
    rw [List.length_map, length_arc, h.gap_eq hn, List.rtake, List.length_drop]
    omega
  refine List.forall₂_iff_get.2 ⟨hlen, fun j h₁ h₂ => ?_⟩
  simp only [List.rtake, List.length_drop] at h₂
  simp only [List.get_eq_getElem, arc, List.getElem_map, List.getElem_range, List.rtake,
    List.getElem_drop, h.fwd_start]
  exact h.cells (L.length - n + j) (by omega) (by omega)

/-- An index that is in use holds the element as far from the end of the list as it is from
the newest cell. -/
theorem get_of_mem_arc (hn : 0 < n) (h : RingHolds n R cell start last L) {r : ℕ}
    (hr : r ∈ arc n start last) :
    ∃ hi : L.length - 1 - gap n r last < L.length, R (cell r) L[L.length - 1 - gap n r last] := by
  have hlast : last < n := h.last_eq ▸ Nat.mod_lt _ hn
  have hrn := lt_of_mem_arc hn hr
  have hgap := gap_of_mem_arc (h.start_lt hn) hlast hr
  have huse := h.gap_eq hn
  refine ⟨by omega, ?_⟩
  have hmod : (L.length - 1 - gap n r last) % n = r := by
    have hcancel : L.length - 1 - gap n r last ≡ r [MOD n] := by
      refine Nat.ModEq.add_right_cancel' (gap n r last) ?_
      rw [Nat.sub_add_cancel (by omega)]
      exact h.last_eq.symm.trans (fwd_gap hrn hlast).symm
    exact Eq.trans hcancel (Nat.mod_eq_of_lt hrn)
  have hcell := h.cells (L.length - 1 - gap n r last) (by omega) (by omega)
  rwa [hmod] at hcell

/-! ## Operations -/

theorem singleton {x : β} (hn : 0 < n) (hx : R (cell 0) x) : RingHolds n R cell 0 0 [x] where
  ne := List.cons_ne_nil x []
  last_eq := rfl
  start_eq := by simp [Nat.sub_eq_zero_of_le hn]
  cells := by
    intro i hi _
    obtain rfl : i = 0 := by simpa using hi
    exact hx

theorem next_eq_start_iff (h : RingHolds n R cell start last L) :
    (last + 1) % n = start ↔ n ≤ L.length := by
  have hlen := h.length_pos
  have hnext : (last + 1) % n = L.length % n := by
    rw [h.last_eq, Nat.mod_add_mod, Nat.sub_add_cancel hlen]
  rw [hnext, h.start_eq]
  rcases Nat.lt_or_ge L.length n with hlt | hge
  · rw [Nat.mod_eq_of_lt hlt, Nat.sub_eq_zero_of_le hlt.le, Nat.zero_mod]
    omega
  · refine iff_of_true ?_ hge
    conv_lhs => rw [← Nat.sub_add_cancel hge]
    exact Nat.add_mod_right _ n

/-- **Push**: advance `last`, evict the oldest cell when the ring is full, fill the new cell. -/
theorem push (hn : 0 < n) (h : RingHolds n R cell start last L) {x : β}
    (hx : R (cell' ((last + 1) % n)) x)
    (hframe : ∀ j < n, j ≠ (last + 1) % n → cell' j = cell j) :
    RingHolds n R cell' (if (last + 1) % n = start then (start + 1) % n else start)
      ((last + 1) % n) (L ++ [x]) := by
  have hlen := h.length_pos
  have hnext : (last + 1) % n = L.length % n := by
    rw [h.last_eq, Nat.mod_add_mod, Nat.sub_add_cancel hlen]
  refine ⟨by simp, by simp [hnext], ?_, ?_⟩
  · rw [List.length_append, List.length_singleton]
    by_cases hfull : n ≤ L.length
    · rw [if_pos ((h.next_eq_start_iff).2 hfull), h.start_eq, Nat.mod_add_mod]
      congr 1
      omega
    · rw [if_neg fun hs => hfull ((h.next_eq_start_iff).1 hs), h.start_eq]
      congr 1
      omega
  · intro i hi hlast
    rw [List.length_append, List.length_singleton] at hi hlast
    by_cases hnew : i = L.length
    · subst hnew
      rw [← hnext, List.getElem_append_right le_rfl]
      simpa using hx
    · rw [List.getElem_append_left (by omega), hframe _ (Nat.mod_lt _ hn)]
      · exact h.cells i (by omega) (by omega)
      · rw [hnext]
        exact mod_ne_mod_of_lt (by omega) (by omega)

/-- **Modify**: rewriting the newest cell rewrites the last element. -/
theorem modifyLast (hn : 0 < n) (h : RingHolds n R cell start last L) {x : β}
    (hx : R (cell' last) x) (hframe : ∀ j < n, j ≠ last → cell' j = cell j) :
    RingHolds n R cell' start last (L.dropLast ++ [x]) := by
  have hlen := h.length_pos
  have hlen' : (L.dropLast ++ [x]).length = L.length := by
    rw [List.length_append, List.length_dropLast, List.length_singleton]
    omega
  refine ⟨by simp, by rw [hlen', h.last_eq], by rw [hlen', h.start_eq], ?_⟩
  intro i hi hlast
  rw [hlen'] at hi hlast
  by_cases hnew : i = L.length - 1
  · subst hnew
    rw [← h.last_eq, List.getElem_append_right (by simp)]
    simpa using hx
  · rw [List.getElem_append_left (by simp; omega), List.getElem_dropLast,
      hframe _ (Nat.mod_lt _ hn)]
    · exact h.cells i hi hlast
    · rw [h.last_eq]
      exact mod_ne_mod_of_lt (by omega) (by omega)

end RingHolds

end Marcelov.Lib
