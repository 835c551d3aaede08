import Marcelov.Clip
import Marcelov.Render
import Marcelov.Widths

/-!
# Printed text

`fb_print` draws a string with newlines, the pen moving by `CHAR_WIDTH` along a line and by
`CHAR_HEIGHT + 2` from one line to the next. `mem_fbPrintCalls` says where each character goes, and
`print_renders` what is on the canvas after it: the glyphs of the lines, cut at the right edge,
and nothing else. `glyphCell_unique` adds that no two of them overlap, as long as each character
is drawn as wide as it is measured. `charmap_prints` shows the table of `fb_print_charmap` to be
such a text.
-/

namespace Marcelov

open Lib

section

variable {font : Font} {fb : FbGeometry} {startX startY : ℕ} {str : List UInt8}

/-! ## The pen -/

/-- `c` is character `j` of line `i`. -/
def CharAt (lines : List (List UInt8)) (i j : ℕ) (c : UInt8) : Prop :=
  ∃ l, lines[i]? = some l ∧ l[j]? = some c

/-- The width of the first `j` characters of line `i`. -/
def widthBefore (font : Font) (lines : List (List UInt8)) (i j : ℕ) : ℕ :=
  font.lineWidth ((lines.getD i []).take j)

theorem exists_splitOn (str : List UInt8) : ∃ l ls, str.splitOn 10 = l :: ls :=
  List.exists_cons_of_ne_nil (List.splitOn_ne_nil 10 str)

/-- The first line is at `w`, and the others at the margin. -/
theorem mem_fbPrintCalls_from (hX : startX < 2 ^ 32) (w n : ℕ) (call : PrintCall) :
    call ∈ fbPrintCalls font startX str (u32 (startX + w), u32 (startY + 18 * n)) ↔
      ∃ i j c, CharAt (str.splitOn 10) i j c ∧
        call = ⟨c,
          u32 (startX + ((if i = 0 then w else 0) + widthBefore font (str.splitOn 10) i j)),
          u32 (startY + 18 * (n + i))⟩ := by
  induction str generalizing w n with
  | nil =>
    refine iff_of_false List.not_mem_nil ?_
    rintro ⟨i, j, c, ⟨l, hl, hc⟩, -⟩
    cases i with
    | zero =>
      obtain rfl : [] = l := Option.some.inj hl
      cases hc
    | succ i => cases hl
  | cons c str ih =>
    obtain ⟨l, ls, hsplit⟩ := exists_splitOn str
    rw [fbPrintCalls, fbPrintPen, List.splitOn_cons_eq_if_modifyHead, hsplit]
    rw [hsplit] at ih
    by_cases hc : c = 10
    · have hpen : (startX, u32 (u32 (startY + 18 * n) + (charHeight + 2))) =
          (u32 (startX + 0), u32 (startY + 18 * (n + 1))) :=
        Prod.ext (u32_of_lt hX).symm (u32_u32_add _ _)
      rw [if_pos hc, if_pos hc, if_pos (beq_iff_eq.2 hc), List.nil_append, hpen, ih]
      constructor
      · rintro ⟨i, j, d, hd, rfl⟩
        refine ⟨i + 1, j, d, hd, ?_⟩
        rw [ite_self, if_neg (Nat.succ_ne_zero i), Nat.add_assoc n, Nat.add_comm 1]
        rfl
      · rintro ⟨i, j, d, ⟨l', hl', hd⟩, rfl⟩
        cases i with
        | zero =>
          obtain rfl : [] = l' := Option.some.inj hl'
          cases hd
        | succ i =>
          refine ⟨i, j, d, ⟨l', hl', hd⟩, ?_⟩
          rw [ite_self, if_neg (Nat.succ_ne_zero i), Nat.add_assoc n, Nat.add_comm 1]
          rfl
    · have hpen : ((u32 (u32 (startX + w) + font.charWidth c), u32 (startY + 18 * n)) : ℕ × ℕ) =
          (u32 (startX + (w + font.charWidth c)), u32 (startY + 18 * n)) := by
        rw [u32_u32_add, Nat.add_assoc]
      rw [if_neg hc, if_neg hc, if_neg (mt beq_iff_eq.1 hc), List.modifyHead_cons,
        List.mem_append, List.mem_singleton, hpen, ih]
      constructor
      · rintro (rfl | ⟨i, j, d, ⟨l', hl', hd⟩, rfl⟩)
        · exact ⟨0, 0, c, ⟨c :: l, rfl, rfl⟩, by simp [widthBefore]⟩
        · cases i with
          | zero =>
            obtain rfl : l = l' := Option.some.inj hl'
            refine ⟨0, j + 1, d, ⟨c :: l, rfl, hd⟩, ?_⟩
            simp [widthBefore, Nat.add_assoc]
          | succ i => exact ⟨i + 1, j, d, ⟨l', hl', hd⟩, rfl⟩
      · rintro ⟨i, j, d, ⟨l', hl', hd⟩, rfl⟩
        cases i with
        | zero =>
          obtain rfl : c :: l = l' := Option.some.inj hl'
          cases j with
          | zero =>
            obtain rfl : c = d := Option.some.inj hd
            exact Or.inl (by simp [widthBefore])
          | succ j =>
            refine Or.inr ⟨0, j, d, ⟨l, rfl, hd⟩, ?_⟩
            simp [widthBefore, Nat.add_assoc]
        | succ i => exact Or.inr ⟨i + 1, j, d, ⟨l', hl', hd⟩, rfl⟩

/-- **Where `fb_print` puts a character**: behind the characters before it in its line, eighteen
rows below the line above. -/
theorem mem_fbPrintCalls (hX : startX < 2 ^ 32) (hY : startY < 2 ^ 32) (call : PrintCall) :
    call ∈ fbPrintCalls font startX str (startX, startY) ↔
      ∃ i j c, CharAt (str.splitOn 10) i j c ∧
        call = ⟨c, u32 (startX + widthBefore font (str.splitOn 10) i j),
          u32 (startY + 18 * i)⟩ := by
  have h : call ∈ fbPrintCalls font startX str (u32 (startX + 0), u32 (startY + 18 * 0)) ↔ _ :=
    mem_fbPrintCalls_from hX 0 0 call
  simpa only [Nat.add_zero, Nat.mul_zero, u32_of_lt hX, u32_of_lt hY, ite_self, Nat.zero_add]
    using h

/-! ## The pixels -/

/-- The pixel is one of character `j` of line `i`, which is `c`. -/
structure GlyphCell (font : Font) (fb : FbGeometry) (str : List UInt8) (startX startY : ℕ)
    (i j : ℕ) (c : UInt8) (px py : ℕ) : Prop where
  charAt : CharAt (str.splitOn 10) i j c
  pixel : glyphPixel font fb c (startX + widthBefore font (str.splitOn 10) i j)
    (startY + 18 * i) px py

/-- The text is above the bottom edge, and not so wide that a sum of `fb_print` wraps. -/
structure PrintFits (font : Font) (fb : FbGeometry) (str : List UInt8) (startX startY : ℕ) :
    Prop where
  bottom : startY + 18 * ((str.splitOn 10).length - 1) + charHeight ≤ fb.height
  right : ∀ l ∈ str.splitOn 10, startX + font.lineWidth l < 2 ^ 32

theorem widthBefore_add_le {lines : List (List UInt8)} {i j : ℕ} {c : UInt8} {l : List UInt8}
    (hl : lines[i]? = some l) (hc : l[j]? = some c) :
    widthBefore font lines i j + font.charWidth c ≤ font.lineWidth l := by
  rw [widthBefore, List.getD_eq_getElem?_getD, hl]
  exact lineWidth_take_le font hc

theorem mem_fbPrintChar_at (h : PrintFits font fb str startX startY) {i j : ℕ} {c : UInt8}
    (hc : CharAt (str.splitOn 10) i j c) {w : GlyphWrite} :
    let x₀ := startX + widthBefore font (str.splitOn 10) i j
    let y₀ := startY + 18 * i
    w ∈ fbPrintChar font fb c (u32 x₀) (u32 y₀) ↔
      ∃ x < font.charWidth (font.printed c), ∃ y < charHeight, w = ⟨x₀, y₀, x, y⟩ ∧
        font.glyphBit (font.printed c) x y = true ∧ x₀ + x < fb.width ∧ y₀ + y < fb.height := by
  intro x₀ y₀
  obtain ⟨l, hl, hchar⟩ := hc
  have hwidth : widthBefore font (str.splitOn 10) i j + font.charWidth c ≤ font.lineWidth l :=
    widthBefore_add_le hl hchar
  have hright := h.right l (List.mem_of_getElem? hl)
  have hi : i < (str.splitOn 10).length := (List.getElem?_eq_some_iff.1 hl).1
  have hbottom := h.bottom
  have hheight := fb.height_lt
  have hx₀ : x₀ < 2 ^ 32 := by omega
  have hy₀ : y₀ + charHeight ≤ fb.height := by omega
  rw [u32_of_lt hx₀, u32_of_lt (by omega), mem_fbPrintChar_iff hx₀ (by omega)]
  refine exists_congr fun x => and_congr_right fun _ => exists_congr fun y =>
    and_congr_right fun hy => ?_
  have hrow : y = 0 ∨ y₀ + y ≤ fb.height ↔ y₀ + y < fb.height := by
    unfold charHeight at hy hy₀
    omega
  rw [hrow]

/-- **The stores of `fb_print`** are the pixels of the glyphs of its text. -/
theorem index_fbPrint_iff (hsize : fb.width * fb.height < 2 ^ 31) (hX : startX < 2 ^ 32)
    (h : PrintFits font fb str startX startY) (a : ℕ) :
    (∃ w ∈ fbPrint font fb str startX startY, w.index fb = a) ↔
      ∃ i j c px py, GlyphCell font fb str startX startY i j c px py ∧ a = py * fb.width + px := by
  have hheight := fb.height_lt
  have hbottom := h.bottom
  have hY : startY < 2 ^ 32 := by omega
  constructor
  · rintro ⟨w, hw, rfl⟩
    obtain ⟨call, hcall, hstore⟩ := List.mem_flatMap.1 hw
    obtain ⟨i, j, c, hc, rfl⟩ := (mem_fbPrintCalls hX hY call).1 hcall
    obtain ⟨x, hx, y, hy, rfl, hbit, hcol, hrow⟩ := (mem_fbPrintChar_at h hc).1 hstore
    exact ⟨i, j, c, _, _, ⟨hc, x, hx, y, hy, hbit, rfl, rfl, hcol, hrow⟩,
      index_of_row_lt hsize hcol hrow⟩
  · rintro ⟨i, j, c, px, py, ⟨hc, x, hx, y, hy, hbit, rfl, rfl, hcol, hrow⟩, rfl⟩
    refine ⟨_, List.mem_flatMap.2 ⟨_, (mem_fbPrintCalls hX hY _).2 ⟨i, j, c, hc, rfl⟩, ?_⟩,
      index_of_row_lt hsize hcol hrow⟩
    exact (mem_fbPrintChar_at h hc).2 ⟨x, hx, y, hy, rfl, hbit, hcol, hrow⟩

theorem widthBefore_lt {lines : List (List UInt8)} {i j j' : ℕ} {c : UInt8}
    (hc : CharAt lines i j c) (hj : j < j') :
    widthBefore font lines i j + font.charWidth c ≤ widthBefore font lines i j' := by
  obtain ⟨l, hl, hchar⟩ := hc
  rw [widthBefore, widthBefore, List.getD_eq_getElem?_getD, hl]
  have htake : (l.take j').take j = l.take j := by
    rw [List.take_take, min_eq_left hj.le]
  have hchar' : (l.take j')[j]? = some c := by
    rwa [List.getElem?_take_of_lt hj]
  have hle := lineWidth_take_le font hchar'
  rw [htake] at hle
  exact hle

/-- **No two characters overlap**, if they are drawn as wide as they are measured. -/
theorem glyphCell_unique {i j i' j' : ℕ} {c c' : UInt8} {px py : ℕ}
    (h : GlyphCell font fb str startX startY i j c px py)
    (h' : GlyphCell font fb str startX startY i' j' c' px py)
    (hc : font.charWidth c = glyphColumns font c) (hc' : font.charWidth c' = glyphColumns font c') :
    i = i' ∧ j = j' := by
  obtain ⟨hat, x, hx, y, hy, -, hpx, hpy, -, -⟩ := h
  obtain ⟨hat', x', hx', y', hy', -, hpx', hpy', -, -⟩ := h'
  rw [← glyphColumns, ← hc] at hx
  rw [← glyphColumns, ← hc'] at hx'
  have hi : i = i' := by
    unfold charHeight at hy hy'
    omega
  subst hi
  refine ⟨rfl, ?_⟩
  rcases Nat.lt_trichotomy j j' with hlt | heq | hlt
  · have hle : widthBefore font _ _ _ + font.charWidth c ≤ _ := widthBefore_lt hat hlt
    omega
  · exact heq
  · have hle : widthBefore font _ _ _ + font.charWidth c' ≤ _ := widthBefore_lt hat' hlt
    omega

end

/-- **What `fb_print` draws.** On a canvas of fewer than `2 ^ 31` pixels, a text that ends above
the bottom edge and is not `2 ^ 32` pixels wide makes black the pixels of the glyphs of its lines,
each line eighteen rows below the one above and each character behind those before it, as far as
they are left of the right edge. It changes no other pixel and stores nowhere else; and
if its characters are drawn as wide as they are measured, each pixel is of one character. -/
theorem print_renders (font : Font) (fb : FbGeometry) (str : List UInt8) (startX startY : ℕ)
    (canvas : ℕ → Rgb) (hsize : fb.width * fb.height < 2 ^ 31) (hX : startX < 2 ^ 32)
    (hfits : PrintFits font fb str startX startY) :
    let ws := fbPrint font fb str startX startY
    let canvas' := applyWrites (ws.map (GlyphWrite.toWrite fb)) canvas
    (∀ w ∈ ws, w.index fb < fb.width * fb.height) ∧
      (∀ px < fb.width, ∀ py < fb.height,
        ((∃ i j c, GlyphCell font fb str startX startY i j c px py) →
          canvas' (py * fb.width + px) = black) ∧
        ((∀ i j c, ¬ GlyphCell font fb str startX startY i j c px py) →
          canvas' (py * fb.width + px) = canvas (py * fb.width + px))) ∧
      ((∀ l ∈ str.splitOn 10, ∀ c ∈ l, font.charWidth c = glyphColumns font c) →
        ∀ i j c i' j' c' px py, GlyphCell font fb str startX startY i j c px py →
          GlyphCell font fb str startX startY i' j' c' px py → i = i' ∧ j = j') := by
  intro ws canvas'
  have hstores := index_fbPrint_iff hsize hX hfits
  refine ⟨fun w hw => ?_, fun px hpx py hpy => ⟨?_, fun hnot => ?_⟩, ?_⟩
  · obtain ⟨i, j, c, px, py, ⟨-, x, -, y, -, -, -, -, hpx, hpy⟩, heq⟩ := (hstores _).1 ⟨w, hw, rfl⟩
    rw [heq]
    exact pixel_lt hpx hpy
  · rintro ⟨i, j, c, hcell⟩
    obtain ⟨w, hw, heq⟩ := (hstores (py * fb.width + px)).2 ⟨i, j, c, px, py, hcell, rfl⟩
    refine applyWrites_of_forall ⟨_, List.mem_map_of_mem hw, heq⟩ fun w' hw' _ => ?_
    obtain ⟨g, -, rfl⟩ := List.mem_map.1 hw'
    rfl
  · refine applyWrites_of_not_mem fun w' hw' heq => ?_
    obtain ⟨g, hg, rfl⟩ := List.mem_map.1 hw'
    obtain ⟨i, j, c, qx, qy, hcell, hindex⟩ := (hstores _).1 ⟨g, hg, heq⟩
    have hqx : qx < fb.width := by
      obtain ⟨-, x, -, y, -, -, -, -, hqx, -⟩ := hcell
      exact hqx
    obtain ⟨rfl, rfl⟩ := pixel_index_inj hpx hqx hindex
    exact hnot i j c hcell
  · intro hwidths i j c i' j' c' px py hcell hcell'
    obtain ⟨l, hl, hc⟩ := hcell.charAt
    obtain ⟨l', hl', hc'⟩ := hcell'.charAt
    exact glyphCell_unique hcell hcell'
      (hwidths l (List.mem_of_getElem? hl) c (List.mem_of_getElem? hc))
      (hwidths l' (List.mem_of_getElem? hl') c' (List.mem_of_getElem? hc'))

/-- A letter on the second line: the first set bit of its glyph. -/
theorem print_renders_letter :
    applyWrites ((fbPrint .monaco mainFb [0x48, 10, 0x61] 40 40).map (GlyphWrite.toWrite mainFb))
      (fun _ => background) (64 * mainFb.width + 42) = black := by
  have hfits : PrintFits .monaco mainFb [0x48, 10, 0x61] 40 40 :=
    ⟨by decide, by simp [List.splitOn_cons_eq_if_modifyHead, Font.charWidth]⟩
  have h := print_renders .monaco mainFb [0x48, 10, 0x61] 40 40 (fun _ => background) (by decide)
    (by decide) hfits
  refine (h.2.1 42 (by decide) 64 (by decide)).1 ⟨1, 0, 0x61, ⟨[0x61], by decide, rfl⟩, ?_⟩
  exact ⟨2, by decide, 6, by decide, by decide, by decide, by decide, by decide, by decide⟩

/-! ## The table of characters -/

/-- The text of `fb_print_charmap` from character `i` on, with the glyphs it shows. -/
def charmapFrom (font : Font) : ℕ → ℕ → List UInt8
  | 0, _ => []
  | n + 1, i =>
    (if i ≠ 0 ∧ i % 32 = 0 then [10] else []) ++
      font.printed i.toUInt8 :: charmapFrom font n (i + 1)

def charmapText (font : Font) : List UInt8 := charmapFrom font 256 0

section

variable {font : Font}

theorem printed_bounds (font : Font) (c : UInt8) :
    firstChar ≤ (font.printed c).toNat ∧ (font.printed c).toNat < font.lastChar := by
  unfold Font.printed
  split_ifs with h
  · cases font with
    | monaco => decide
    | cream12 _ =>
      rw [Font.lastChar_cream12]
      decide
  · omega

theorem printed_printed (font : Font) (c : UInt8) :
    font.printed (font.printed c) = font.printed c := by
  have h := printed_bounds font c
  exact if_neg (by omega)

theorem printed_ne_nl (font : Font) (c : UInt8) : font.printed c ≠ 10 := by
  intro heq
  have h := printed_bounds font c
  rw [heq] at h
  exact absurd h.1 (by decide)

theorem charWidth_printed (font : Font) (c : UInt8) :
    font.charWidth (font.printed c) = glyphColumns font (font.printed c) := by
  rw [glyphColumns, printed_printed]

/-- **One row after the other**, the stores are those of `fb_print`. -/
theorem charmap_stores (fb : FbGeometry) (startX n i : ℕ) (hi : i + n ≤ 256) (pen : ℕ × ℕ) :
    ((fbPrintCharmapCalls font startX n i pen).flatMap fun call =>
        fbPrintChar font fb call.c call.x call.y) =
      (fbPrintCalls font startX (charmapFrom font n i) pen).flatMap fun call =>
        fbPrintChar font fb call.c call.x call.y := by
  induction n generalizing i pen with
  | zero => rfl
  | succ n ih =>
    have hnat : i.toUInt8.toNat = i := by
      rw [Nat.toUInt8_eq, UInt8.toNat_ofNat']
      omega
    have hadvance : fbPrintCharmapAdvance font i = font.charWidth (font.printed i.toUInt8) := by
      have h := fbPrintCharmapAdvance_eq font i.toUInt8
      rwa [hnat] at h
    have hchar (pen : ℕ × ℕ) :
        fbPrintChar font fb i.toUInt8 pen.1 pen.2 ++
            (fbPrintCharmapCalls font startX n (i + 1)
              (u32 (pen.1 + fbPrintCharmapAdvance font i), pen.2)).flatMap (fun call =>
                fbPrintChar font fb call.c call.x call.y) =
          (fbPrintCalls font startX (font.printed i.toUInt8 :: charmapFrom font n (i + 1))
            pen).flatMap fun call => fbPrintChar font fb call.c call.x call.y := by
      rw [ih (i + 1) (by omega), fbPrintCalls, fbPrintPen, if_neg (printed_ne_nl font _),
        if_neg (printed_ne_nl font _), List.singleton_append, List.flatMap_cons, hadvance]
      congr 1
      unfold fbPrintChar
      rw [printed_printed]
    rw [fbPrintCharmapCalls, charmapFrom, List.flatMap_cons]
    dsimp only
    by_cases hrow : i ≠ 0 ∧ i % 32 = 0
    · rw [if_pos hrow, if_pos hrow, List.singleton_append, fbPrintCalls, if_pos rfl,
        List.nil_append]
      exact hchar _
    · rw [if_neg hrow, if_neg hrow, List.nil_append]
      exact hchar _

theorem charmapFrom_congr {font' : Font} (h : ∀ c, font.printed c = font'.printed c) (n i : ℕ) :
    charmapFrom font n i = charmapFrom font' n i := by
  induction n generalizing i with
  | zero => rfl
  | succ n ih => rw [charmapFrom, charmapFrom, h, ih]

/-- The glyphs of row `i`. -/
def charmapRow (font : Font) (i : ℕ) : List UInt8 :=
  (List.range 32).map fun j => font.printed (32 * i + j).toUInt8

theorem charmapText_rows (font : Font) :
    (charmapText font).splitOn 10 = (List.range 8).map (charmapRow font) := by
  cases font with
  | monaco => decide +kernel
  | cream12 pastWidths =>
    have hsame (c : UInt8) : (Font.cream12 pastWidths).printed c =
      (Font.cream12 fun _ => 0).printed c := rfl
    have hrows : charmapRow (.cream12 pastWidths) = charmapRow (.cream12 fun _ => 0) := rfl
    rw [charmapText, charmapFrom_congr hsame, hrows]
    decide +kernel

end

/-- **The table of characters** is a printed text: `fb_print_charmap` makes the stores of
`fb_print` for eight lines of 32 glyphs, the glyph of character `32 * i + j` the one at place `j`
of line `i`; and no two of its 256 glyphs overlap, in either font. -/
theorem charmap_prints (font : Font) (fb : FbGeometry) (startX startY : ℕ) :
    fbPrintCharmap font fb startX startY = fbPrint font fb (charmapText font) startX startY ∧
      (charmapText font).splitOn 10 = (List.range 8).map (charmapRow font) ∧
      ∀ i j c i' j' c' px py,
        GlyphCell font fb (charmapText font) startX startY i j c px py →
          GlyphCell font fb (charmapText font) startX startY i' j' c' px py → i = i' ∧ j = j' := by
  refine ⟨charmap_stores fb startX 256 0 le_rfl _, charmapText_rows font, ?_⟩
  intro i j c i' j' c' px py hcell hcell'
  have hwidth {i j : ℕ} {c : UInt8} (hc : CharAt ((charmapText font).splitOn 10) i j c) :
      font.charWidth c = glyphColumns font c := by
    obtain ⟨l, hl, hchar⟩ := hc
    rw [charmapText_rows] at hl
    obtain ⟨r, -, rfl⟩ := List.mem_map.1 (List.mem_of_getElem? hl)
    obtain ⟨k, -, rfl⟩ := List.mem_map.1 (List.mem_of_getElem? hchar)
    exact charWidth_printed font _
  exact glyphCell_unique hcell hcell' (hwidth hcell.charAt) (hwidth hcell'.charAt)

end Marcelov
