import Mathlib.Data.Nat.ModEq
import Marcelov.Rows

/-!
# Widths

Four functions of `fb.c` look up the width of a character. `fb_print_char` and
`fb_print_charmap` do it after the substitution of `'?'` for a character without a glyph,
`fb_print` and `fb_measure_char` on the character as it is. `drawnAsMeasured_iff` says for which
strings they agree.

`measuresString_iff` is about a fifth, `fb_measure_line_width`: it adds up the widths of the
characters in `cream12`, but in `monaco`, whose `CHAR_WIDTH` drops its argument, it only counts.
-/

namespace Marcelov

variable {font : Font} {str : List UInt8} {c : UInt8}

/-! ## Drawn and measured -/

/-- The columns that `fb_print_char` goes through for `c`. -/
def glyphColumns (font : Font) (c : UInt8) : ℕ := font.charWidth (font.printed c)

/-- `CHAR_WIDTH(c)` reads nothing, or an entry of the width table. -/
def Font.InTable : Font → UInt8 → Prop
  | monaco, _ => True
  | cream12 _, c => c.toNat < cream12Width.length

/-- What a string takes when it is measured or printed is what its glyphs take. -/
structure DrawnAsMeasured (font : Font) (str : List UInt8) : Prop where
  in_table : ∀ c ∈ str, font.InTable c
  measured : ∀ c ∈ str, fbMeasureChar font c = glyphColumns font c
  charmap : ∀ c ∈ str, fbPrintCharmapAdvance font c.toNat = glyphColumns font c
  advance : ∀ c ∈ str, ∀ startX pen,
    fbPrintPen font startX pen c = (u32 (pen.1 + glyphColumns font c), pen.2)
  measured_total : (str.map (fbMeasureChar font)).sum = (str.map (glyphColumns font)).sum
  line_total : fbMeasureLineWidth font (padded str) str.length =
    u32 (str.map (glyphColumns font)).sum
  /-- The pen of `fb_print` after the whole string, from any start. -/
  pen_total : ∀ startX < 2 ^ 32, ∀ startY,
    str.foldl (fbPrintPen font startX) (startX, startY) =
      (u32 (startX + (str.map (glyphColumns font)).sum), startY)

/-- `fb_print_charmap` looks at the character that is drawn. -/
theorem fbPrintCharmapAdvance_eq (font : Font) (c : UInt8) :
    fbPrintCharmapAdvance font c.toNat = glyphColumns font c := by
  rw [fbPrintCharmapAdvance, glyphColumns, Font.printed]
  split_ifs
  · rfl
  · rw [Nat.toUInt8_eq, UInt8.ofNat_toNat]

theorem cream12Width_control : ∀ i < 32, cream12Width.getD i 0 ≠ cream12Width.getD 63 0 := by
  decide

theorem charWidth_eq_glyphColumns_iff (h : font.InTable c) :
    font.charWidth c = glyphColumns font c ↔ font = .monaco ∨ 32 ≤ c.toNat ∧ c.toNat < 128 := by
  cases font with
  | monaco => simp [glyphColumns, Font.charWidth]
  | cream12 pastWidths =>
    have hlt : c.toNat < 128 := h
    rw [glyphColumns, Font.printed, Font.lastChar_cream12, firstChar]
    rcases Nat.lt_or_ge c.toNat 32 with hcontrol | hprintable
    · have hne := cream12Width_control c.toNat hcontrol
      simp only [if_pos (Or.inl hcontrol), Font.charWidth, if_pos hlt]
      constructor
      · intro heq
        exact absurd heq hne
      · rintro (hmonaco | ⟨hge, -⟩)
        · cases hmonaco
        · omega
    · rw [if_neg (by omega)]
      exact ⟨fun _ => Or.inr ⟨hprintable, hlt⟩, fun _ => rfl⟩

theorem foldl_fbPrintPen (hnl : 10 ∉ str)
    (h : ∀ c ∈ str, font.charWidth c = glyphColumns font c) (startX pen startY : ℕ) :
    str.foldl (fbPrintPen font startX) (u32 pen, startY) =
      (u32 (pen + (str.map (glyphColumns font)).sum), startY) := by
  induction str generalizing pen with
  | nil => rfl
  | cons c str ih =>
    have hc : c ≠ 10 := fun heq => hnl (heq ▸ List.mem_cons_self)
    rw [List.foldl_cons, fbPrintPen, if_neg hc, u32_u32_add, h c List.mem_cons_self,
      ih (fun hmem => hnl (List.mem_cons_of_mem c hmem))
        (fun d hd => h d (List.mem_cons_of_mem c hd)),
      List.map_cons, List.sum_cons, Nat.add_assoc]

/-- The functions agree on a string once they agree on its characters. -/
theorem drawnAsMeasured_of_widths (hnul : 0 ∉ str) (hnl : 10 ∉ str)
    (htable : ∀ c ∈ str, font.InTable c)
    (hwidth : ∀ c ∈ str, font.charWidth c = glyphColumns font c) : DrawnAsMeasured font str := by
  have htotal : (str.map (fbMeasureChar font)).sum = (str.map (glyphColumns font)).sum :=
    congrArg List.sum (List.map_congr_left hwidth)
  exact {
    in_table := htable
    measured := hwidth
    charmap := fun c _ => fbPrintCharmapAdvance_eq font c
    advance := by
      intro c hc startX pen
      have hne : c ≠ 10 := fun heq => hnl (heq ▸ hc)
      rw [fbPrintPen, if_neg hne, hwidth c hc]
    measured_total := htotal
    line_total := by
      rw [measure_of_le font (holdsString_padded hnul) le_rfl, List.take_length, ← htotal]
      rfl
    pen_total := by
      intro startX hstart startY
      have hpen := foldl_fbPrintPen hnl hwidth startX startX startY
      rwa [u32_of_lt hstart] at hpen }

/-- **Measured width is drawn width** for strings without a newline exactly in `monaco`, and in
`cream12` for printable ASCII. -/
theorem drawnAsMeasured_iff (font : Font) (str : List UInt8) (hnul : 0 ∉ str) (hnl : 10 ∉ str) :
    DrawnAsMeasured font str ↔
      font = .monaco ∨ ∀ c ∈ str, 32 ≤ c.toNat ∧ c.toNat < 128 := by
  constructor
  · intro h
    by_cases hfont : font = .monaco
    · exact Or.inl hfont
    · refine Or.inr fun c hc => ?_
      exact ((charWidth_eq_glyphColumns_iff (h.in_table c hc)).1 (h.measured c hc)).resolve_left
        hfont
  · intro h
    have htable : ∀ c ∈ str, font.InTable c := by
      intro c hc
      cases font with
      | monaco => trivial
      | cream12 pastWidths =>
        rcases h with hmonaco | h
        · cases hmonaco
        · exact (h c hc).2
    apply drawnAsMeasured_of_widths hnul hnl htable
    intro c hc
    exact (charWidth_eq_glyphColumns_iff (htable c hc)).2 (h.imp_right fun h => h c hc)

/-- A word in `cream12`, whatever follows its width table. -/
theorem drawnAsMeasured_word : DrawnAsMeasured (.cream12 fun _ => 0) [0x68, 0x69] :=
  (drawnAsMeasured_iff (.cream12 fun _ => 0) [0x68, 0x69] (by decide) (by decide)).2
    (Or.inr (by simp))

/-- A tab is 16 pixels wide when it is measured, and drawn as a `'?'` of 6. -/
theorem not_drawnAsMeasured_tab : ¬ DrawnAsMeasured (.cream12 fun _ => 0) [9] := fun h =>
  absurd (h.measured 9 List.mem_cons_self) (by decide)

/-! ## The width of a string -/

/-- `fb_measure_line_width` adds up the widths of the characters it is asked for, and reads none
past the terminator. -/
structure MeasuresString (font : Font) (mem : ℕ → UInt8) (str : List UInt8) (size : ℕ) :
    Prop where
  width_eq : fbMeasureLineWidth font mem size = u32 ((str.take size).map (fbMeasureChar font)).sum
  reads_le : ∀ pos ∈ fbMeasureLineWidthReads font mem size 0, pos ≤ str.length

theorem reads_le (font : Font) {mem : ℕ → UInt8} (h : HoldsString mem str) (size pos : ℕ)
    (hpos : pos ≤ str.length) :
    ∀ p ∈ fbMeasureLineWidthReads font mem size pos, p ≤ str.length := by
  induction size generalizing pos with
  | zero => simpa [fbMeasureLineWidthReads] using hpos
  | succ size ih =>
    intro p hp
    rcases List.mem_cons.1 hp with rfl | hp
    · exact hpos
    · split_ifs at hp with hnul
      · cases hp
      · have hlt : pos < str.length := by
          refine Nat.lt_of_le_of_ne hpos fun heq => hnul ?_
          rw [heq, h.nul]
        refine ih _ ?_ p hp
        cases font with
        | monaco => exact hpos
        | cream12 pastWidths => exact hlt

theorem u32_seven_mul_eq_iff {m n : ℕ} (h : m ≤ n) :
    u32 (7 * n) = u32 (7 * m) ↔ 2 ^ 32 ∣ n - m := by
  have hmul := Nat.modEq_iff_dvd' (n := 2 ^ 32) (Nat.mul_le_mul_left 7 h)
  rw [← Nat.mul_sub, Nat.Coprime.dvd_mul_left (by decide)] at hmul
  exact eq_comm.trans hmul

/-- In `monaco` the first character decides whether the loop stops before `size`. -/
theorem measure_monaco_iff {mem : ℕ → UInt8} (h : HoldsString mem str) (size : ℕ) :
    fbMeasureLineWidth .monaco mem size = u32 ((str.take size).map (fbMeasureChar .monaco)).sum ↔
      str = [] ∨ size ≤ str.length ∨ 2 ^ 32 ∣ size - str.length := by
  by_cases hne : str = []
  · subst hne
    rw [List.take_nil]
    exact iff_of_true (measure_empty .monaco h.nul size) (Or.inl rfl)
  · rcases Nat.lt_or_ge str.length size with hlt | hle
    · have hle := Nat.le_of_lt hlt
      have hsum : (str.map (fbMeasureChar .monaco)).sum = 7 * str.length := lineWidth_monaco str
      rw [List.take_of_length_le hle, measure_monaco (h.ne_zero (List.length_pos_iff.2 hne)), hsum,
        u32_seven_mul_eq_iff hle]
      simp [hne, Nat.not_le_of_lt hlt]
    · exact iff_of_true (measure_of_le .monaco h hle) (Or.inr (Or.inl hle))

/-- **The width of a string** is the sum of the widths of its first `size` characters exactly in
`cream12`, and in `monaco` if the string is empty, has that many characters, or `size` exceeds
its length by a multiple of `2 ^ 32`. -/
theorem measuresString_iff (font : Font) (mem : ℕ → UInt8) (str : List UInt8) (size : ℕ)
    (h : HoldsString mem str) :
    MeasuresString font mem str size ↔
      font ≠ .monaco ∨ str = [] ∨ size ≤ str.length ∨ 2 ^ 32 ∣ size - str.length := by
  constructor
  · intro hm
    cases font with
    | cream12 pastWidths => exact Or.inl nofun
    | monaco => exact Or.inr ((measure_monaco_iff h size).1 hm.width_eq)
  · intro hcond
    refine ⟨?_, reads_le font h size 0 (Nat.zero_le _)⟩
    cases font with
    | cream12 pastWidths => exact measure_cream12 h size
    | monaco => exact (measure_monaco_iff h size).2 (hcond.resolve_left (not_not_intro rfl))

/-- A word of two characters, asked for five in `cream12`. -/
theorem measuresString_word :
    MeasuresString (.cream12 fun _ => 0) (padded [0x68, 0x69]) [0x68, 0x69] 5 :=
  (measuresString_iff (.cream12 fun _ => 0) (padded [0x68, 0x69]) [0x68, 0x69] 5
    (holdsString_padded (by decide))).2 (Or.inl nofun)

/-- The same in `monaco` gives the width of five. -/
theorem not_measuresString_word : ¬ MeasuresString .monaco (padded [0x68, 0x69]) [0x68, 0x69] 5 :=
  fun h => absurd h.width_eq (by decide)

end Marcelov
