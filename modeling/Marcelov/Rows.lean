import Mathlib.Algebra.Order.Group.Nat
import Marcelov.Scrollback

/-!
# Rows and lines

A row of `scrollbuffer` is read up to its first NUL. A *line* is what such a read gives: at most
`MAX_LINE_LEN` characters, none of them NUL. `padded l` is the row that holds the line `l`
followed by zeros, and the edits of `keyboard.c` take padded rows to padded rows.
-/

namespace Marcelov

/-- The row that holds `l`, followed by zeros. -/
def padded (l : List UInt8) : ℕ → UInt8 := fun j => l.getD j 0

/-- The characters of a row up to its first NUL. -/
def readRow (row : ℕ → UInt8) : List UInt8 :=
  ((List.range (maxLineLen + 1)).map row).takeWhile (· ≠ 0)

/-- What a row can hold: no NUL, and no more characters than it has room for. -/
structure IsLine (l : List UInt8) : Prop where
  nul_not_mem : 0 ∉ l
  length_le : l.length ≤ maxLineLen

theorem isLine_nil : IsLine [] := ⟨List.not_mem_nil, Nat.zero_le _⟩

theorem IsLine.snoc {l : List UInt8} {c : UInt8} (h : IsLine l) (hlen : l.length < maxLineLen)
    (hc : c ≠ 0) : IsLine (l ++ [c]) := by
  refine ⟨?_, by rw [List.length_append]; exact hlen⟩
  rw [List.mem_append, List.mem_singleton]
  rintro (hmem | rfl)
  exacts [h.nul_not_mem hmem, hc rfl]

theorem IsLine.dropLast {l : List UInt8} (h : IsLine l) : IsLine l.dropLast := by
  refine ⟨fun hmem => h.nul_not_mem (List.dropLast_subset l hmem), ?_⟩
  rw [List.length_dropLast]
  exact (Nat.sub_le _ _).trans h.length_le

/-! ## Padded rows -/

theorem padded_of_lt {l : List UInt8} {j : ℕ} (h : j < l.length) : padded l j = l[j] := by
  rw [padded, List.getD_eq_getElem?_getD, List.getElem?_eq_getElem h]
  rfl

theorem padded_of_ge {l : List UInt8} {j : ℕ} (h : l.length ≤ j) : padded l j = 0 := by
  rw [padded, List.getD_eq_getElem?_getD, List.getElem?_eq_none h]
  rfl

@[simp] theorem padded_nil : padded [] = fun _ => 0 := rfl

theorem IsLine.padded_ne_zero {l : List UInt8} (h : IsLine l) {j : ℕ} (hj : j < l.length) :
    padded l j ≠ 0 := by
  rw [padded_of_lt hj]
  intro hz
  exact h.nul_not_mem (hz ▸ List.getElem_mem hj)

/-- **Reading a padded row** gives back the line. -/
theorem readRow_padded {l : List UInt8} (h : IsLine l) : readRow (padded l) = l := by
  have hlen : l.length ≤ 256 := h.length_le
  have hsplit : (List.range (maxLineLen + 1)).map (padded l) =
      l ++ List.replicate (256 - l.length + 1) 0 := by
    refine List.ext_getElem (by simp [maxLineLen]; omega) fun j hj _ => ?_
    rw [List.getElem_map, List.getElem_range]
    rcases Nat.lt_or_ge j l.length with hlt | hge
    · rw [padded_of_lt hlt, List.getElem_append_left hlt]
    · rw [padded_of_ge hge, List.getElem_append_right hge, List.getElem_replicate]
  have hall : ∀ c ∈ l, decide (c ≠ 0) = true := fun c hc =>
    decide_eq_true fun hz => h.nul_not_mem (hz ▸ hc)
  rw [readRow, hsplit, List.takeWhile_append_of_pos hall, List.replicate_succ]
  simp

theorem readRow_eq_append {row : ℕ → UInt8} {l : List UInt8} (h : IsLine l)
    (hrow : ∀ j (hj : j < l.length), row j = l[j]) :
    readRow row = l ++ ((List.range' l.length (maxLineLen + 1 - l.length)).map row).takeWhile
      (· ≠ 0) := by
  have hlen : l.length ≤ 256 := h.length_le
  have hfirst : (List.range' 0 l.length).map row = l := by
    refine List.ext_getElem (by simp) fun j hj hj' => ?_
    rw [List.getElem_map, List.getElem_range', Nat.zero_add, Nat.one_mul]
    exact hrow j hj'
  have hsplit : (List.range (maxLineLen + 1)).map row =
      l ++ (List.range' l.length (maxLineLen + 1 - l.length)).map row := by
    have hrange := List.range'_append_1 (s := 0) (m := l.length) (n := maxLineLen + 1 - l.length)
    rw [Nat.zero_add, Nat.add_sub_of_le (hlen.trans (Nat.le_succ _))] at hrange
    rw [List.range_eq_range', ← hrange, List.map_append, hfirst]
  have hall : ∀ c ∈ l, decide (c ≠ 0) = true := fun c hc =>
    decide_eq_true fun hz => h.nul_not_mem (hz ▸ hc)
  rw [readRow, hsplit, List.takeWhile_append_of_pos hall]

theorem padded_injective {l l' : List UInt8} (h : IsLine l) (h' : IsLine l')
    (heq : padded l = padded l') : l = l' := by
  rw [← readRow_padded h, heq, readRow_padded h']

theorem update_padded_length (l : List UInt8) (c : UInt8) :
    Function.update (padded l) l.length c = padded (l ++ [c]) := by
  funext j
  by_cases hj : j = l.length
  · subst hj
    rw [Function.update_self, padded_of_lt (by simp), List.getElem_append_right (Nat.le_refl _)]
    simp
  · rw [Function.update_of_ne hj]
    rcases Nat.lt_or_ge j l.length with hlt | hge
    · rw [padded_of_lt hlt, padded_of_lt (by simp; omega), List.getElem_append_left hlt]
    · rw [padded_of_ge hge, padded_of_ge (by simp; omega)]

theorem update_padded_dropLast (l : List UInt8) :
    Function.update (padded l) (l.length - 1) 0 = padded l.dropLast := by
  funext j
  by_cases hj : j = l.length - 1
  · subst hj
    rw [Function.update_self, padded_of_ge (by simp)]
  · rw [Function.update_of_ne hj]
    rcases Nat.lt_or_ge j (l.length - 1) with hlt | hge
    · rw [padded_of_lt (by omega), padded_of_lt (by simpa using hlt), List.getElem_dropLast]
    · rw [padded_of_ge (by omega), padded_of_ge (by simpa using hge)]

theorem clear_padded {l : List UInt8} (h : IsLine l) :
    (fun j => if j < maxLineLen then 0 else padded l j) = padded [] := by
  have hlen := h.length_le
  funext j
  by_cases hj : j < maxLineLen
  · rw [if_pos hj]
    rfl
  · rw [if_neg hj, padded_of_ge (by omega), padded_nil]

/-! ## Widths -/

/-- The pixels a line takes: the sum of `CHAR_WIDTH` over its characters. -/
def Font.lineWidth (font : Font) (l : List UInt8) : ℕ := (l.map font.charWidth).sum

namespace Font

variable (font : Font)

@[simp] theorem lineWidth_nil : font.lineWidth [] = 0 := rfl

@[simp] theorem lineWidth_cons (c : UInt8) (l : List UInt8) :
    font.lineWidth (c :: l) = font.charWidth c + font.lineWidth l := by
  simp [lineWidth]

@[simp] theorem lineWidth_append (l l' : List UInt8) :
    font.lineWidth (l ++ l') = font.lineWidth l + font.lineWidth l' := by
  simp [lineWidth]

theorem charWidth_lt (c : UInt8) : font.charWidth c < 256 := by
  cases font with
  | monaco => simp [charWidth]
  | cream12 pastWidths =>
    simp only [charWidth]
    split_ifs with h
    · have hmem : cream12Width.getD c.toNat 0 ∈ cream12Width := by
        rw [List.getD_eq_getElem?_getD, List.getElem?_eq_getElem h]
        exact List.getElem_mem _
      have := cream12Width_bounds _ hmem
      omega
    · exact (pastWidths _).toNat_lt

theorem lineWidth_le (l : List UInt8) : font.lineWidth l ≤ 255 * l.length := by
  induction l with
  | nil => simp
  | cons c l ih =>
    have := font.charWidth_lt c
    rw [lineWidth_cons, List.length_cons]
    omega

/-- No line is so wide that a 32-bit sum over it wraps. -/
theorem lineWidth_lt {l : List UInt8} (h : IsLine l) : font.lineWidth l ≤ 65280 := by
  have hwidth := font.lineWidth_le l
  have hlen : l.length ≤ 256 := h.length_le
  omega

end Font

/-! ## Measuring -/

/-- `str` holds the characters `l`, and a NUL after them. -/
structure HoldsString (str : ℕ → UInt8) (l : List UInt8) : Prop where
  nul_not_mem : 0 ∉ l
  get_eq : ∀ j (h : j < l.length), str j = l[j]
  nul : str l.length = 0

theorem holdsString_padded {l : List UInt8} (h : 0 ∉ l) : HoldsString (padded l) l :=
  ⟨h, fun _ => padded_of_lt, padded_of_ge (Nat.le_refl _)⟩

section

variable {str : ℕ → UInt8} {l : List UInt8}

theorem HoldsString.ne_zero (h : HoldsString str l) {j : ℕ} (hj : j < l.length) : str j ≠ 0 := by
  rw [h.get_eq j hj]
  intro hz
  exact h.nul_not_mem (hz ▸ List.getElem_mem hj)

theorem u32_u32_add (m n : ℕ) : u32 (u32 m + n) = u32 (m + n) := Nat.mod_add_mod m (2 ^ 32) n

theorem measureLoop_cream12 (pastWidths : ℕ → UInt8) (h : HoldsString str l)
    (size pos res : ℕ) (hpos : pos ≤ l.length) :
    fbMeasureLineWidthLoop (.cream12 pastWidths) str size pos (u32 res) =
      u32 (res + (Font.cream12 pastWidths).lineWidth ((l.drop pos).take size)) := by
  induction size generalizing pos res with
  | zero => simp [fbMeasureLineWidthLoop]
  | succ size ih =>
    rcases Nat.lt_or_eq_of_le hpos with hlt | rfl
    · have hdrop : l.drop pos = l[pos] :: l.drop (pos + 1) := List.drop_eq_getElem_cons hlt
      simp only [fbMeasureLineWidthLoop, Font.charWidthPostInc, if_neg (h.ne_zero hlt)]
      rw [hdrop, List.take_succ_cons, Font.lineWidth_cons, h.get_eq pos hlt, u32_u32_add,
        ih (pos + 1) _ hlt, Nat.add_assoc]
    · rw [fbMeasureLineWidthLoop, if_pos h.nul, List.drop_length, List.take_nil]
      rfl

/-- The measuring loop of `monaco` stays on the first character and counts. -/
theorem measureLoop_monaco (h : str 0 ≠ 0) (size res : ℕ) :
    fbMeasureLineWidthLoop .monaco str size 0 (u32 res) = u32 (res + 7 * size) := by
  induction size generalizing res with
  | zero => rfl
  | succ size ih =>
    simp only [fbMeasureLineWidthLoop, if_neg h, Font.charWidthPostInc]
    rw [u32_u32_add, ih, Nat.mul_succ, Nat.add_assoc, Nat.add_comm 7]

theorem measure_cream12 {pastWidths : ℕ → UInt8} (h : HoldsString str l) (size : ℕ) :
    fbMeasureLineWidth (.cream12 pastWidths) str size =
      u32 ((Font.cream12 pastWidths).lineWidth (l.take size)) := by
  have hloop := measureLoop_cream12 pastWidths h size 0 0 (Nat.zero_le _)
  rwa [List.drop_zero, Nat.zero_add] at hloop

/-- `fb_measure_line_width` of `monaco`: the number it is asked for, unless the string is
empty. -/
theorem measure_monaco (h : str 0 ≠ 0) (size : ℕ) :
    fbMeasureLineWidth .monaco str size = u32 (7 * size) := by
  have hloop := measureLoop_monaco h size 0
  rwa [Nat.zero_add] at hloop

theorem measure_empty (font : Font) (h : str 0 = 0) (size : ℕ) :
    fbMeasureLineWidth font str size = 0 := by
  cases size with
  | zero => rfl
  | succ size => rw [fbMeasureLineWidth, fbMeasureLineWidthLoop, if_pos h]

theorem lineWidth_monaco (l : List UInt8) : Font.monaco.lineWidth l = 7 * l.length := by
  induction l with
  | nil => rfl
  | cons c l ih =>
    rw [Font.lineWidth_cons, ih, List.length_cons, Font.charWidth]
    omega

/-- Asked for no more characters than the string has, both fonts give their widths. -/
theorem measure_of_le (font : Font) (h : HoldsString str l) {size : ℕ} (hsize : size ≤ l.length) :
    fbMeasureLineWidth font str size = u32 (font.lineWidth (l.take size)) := by
  cases font with
  | cream12 pastWidths => exact measure_cream12 h size
  | monaco =>
    rcases Nat.eq_zero_or_pos size with rfl | hpos
    · rfl
    · rw [measure_monaco (h.ne_zero (by omega)), lineWidth_monaco, List.length_take,
        Nat.min_eq_left hsize]

end

theorem measureLoop_congr (font : Font) {str str' : ℕ → UInt8} (size pos res : ℕ)
    (h : ∀ j < pos + size, str j = str' j) :
    fbMeasureLineWidthLoop font str size pos res =
      fbMeasureLineWidthLoop font str' size pos res := by
  induction size generalizing pos res with
  | zero => rfl
  | succ size ih =>
    have hpos : str pos = str' pos := h pos (by omega)
    cases font with
    | monaco =>
      simp only [fbMeasureLineWidthLoop, Font.charWidthPostInc, hpos]
      rw [ih pos _ fun j hj => h j (by omega)]
    | cream12 pastWidths =>
      simp only [fbMeasureLineWidthLoop, Font.charWidthPostInc, hpos]
      rw [ih (pos + 1) _ fun j hj => h j (by omega)]

/-- **Measuring a line**, when asked for no more characters than it has, gives their widths. -/
theorem fbMeasureLineWidth_padded (font : Font) {l : List UInt8} (h : IsLine l) {size : ℕ}
    (hsize : size ≤ l.length) :
    fbMeasureLineWidth font (padded l) size = font.lineWidth (l.take size) := by
  have hlen : l.length ≤ 256 := h.length_le
  have hwidth := font.lineWidth_le (l.take size)
  rw [List.length_take] at hwidth
  rw [measure_of_le font (holdsString_padded h.nul_not_mem) hsize, u32_of_lt (by omega)]

end Marcelov
