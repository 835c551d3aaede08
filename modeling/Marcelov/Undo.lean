import Marcelov.Typing

/-!
# Taking back what was typed

Backspace works on the last line only, and stops at its start. So it undoes typing exactly when
no new line was started by it: `backspaces_undo` says that then everything is as it was, the rows,
the view, the flag and the pixels, and that otherwise the lines that were filled stay, below them
an empty one.
-/

namespace Marcelov

open Lib Scrollback

/-- The characters can be put after the line without starting a new one. -/
def FitsAfter (font : Font) (fb : FbGeometry) (l s : List UInt8) : Prop :=
  s = [] ∨ (l ++ s).length ≤ 256 ∧ 30 + font.lineWidth (l ++ s) < fb.width

/-- Press and release Backspace, `k` times. -/
def backspaces (k : ℕ) : List UInt8 := (List.replicate k [0x0e, breakOf 0x0e]).flatten

/-! ## On a page -/

section

variable {font : Font} {fb : FbGeometry} {p : Page fb} {l s : List UInt8} {c : UInt8}

theorem FitsAfter.cons (h : FitsAfter font fb l (c :: s)) :
    FitsAfter font fb l [c] ∧ FitsAfter font fb (l ++ [c]) s := by
  obtain ⟨hlen, hwidth⟩ := h.resolve_left (List.cons_ne_nil c s)
  have happend : l ++ [c] ++ s = l ++ c :: s := by simp
  refine ⟨Or.inr ?_, Or.inr (happend ▸ ⟨hlen, hwidth⟩)⟩
  rw [← happend, List.length_append] at hlen
  rw [← happend, Font.lineWidth_append] at hwidth
  exact ⟨by omega, by omega⟩

theorem FitsAfter.of_cons (h : FitsAfter font fb l [c]) (hs : FitsAfter font fb (l ++ [c]) s) :
    FitsAfter font fb l (c :: s) := by
  rcases hs with rfl | hs
  · exact h
  · have happend : l ++ [c] ++ s = l ++ c :: s := by simp
    exact Or.inr (happend ▸ hs)

theorem fitsAfter_singleton :
    FitsAfter font fb l [c] ↔
      l.length < 256 ∧ 30 + font.lineWidth l + font.charWidth c < fb.width := by
  refine (or_iff_right (List.cons_ne_nil c [])).trans ?_
  simp only [List.length_append, List.length_singleton, Font.lineWidth_append,
    Font.lineWidth_cons, Font.lineWidth_nil]
  omega

theorem Page.draw_of_drawn {q : Page fb} (h : q.viewer.draw = q.viewer) : q.draw = q := by
  obtain ⟨text, viewer, hcount⟩ := q
  simp only [Page.draw]
  congr

theorem Page.putchar_of_fits (hc : c ≠ 0) (h : FitsAfter font fb p.text.last [c]) :
    p.putchar font c = p.append c := by
  obtain ⟨hlen, hwidth⟩ := fitsAfter_singleton.1 h
  rw [Page.putchar, if_neg hc, Page.wrapFull, if_neg hlen.ne, Page.wrapWide, if_neg hwidth.not_ge]

theorem Text.putchar_of_fits {t : Text} (hc : c ≠ 0) (h : FitsAfter font fb t.last [c]) :
    t.putchar font fb c = t.append c := by
  obtain ⟨hlen, hwidth⟩ := fitsAfter_singleton.1 h
  rw [Text.putchar, if_neg hc, if_neg hlen.ne]
  dsimp only
  rw [if_neg hwidth.not_ge]

theorem Text.lines_wrap (b : Prop) [Decidable b] (t : Text) :
    t.lines.length ≤ (if b then t.newLine else t).lines.length ∧
      (if b then t.newLine else t).last.length ≤ t.last.length := by
  split_ifs
  · refine ⟨?_, Nat.zero_le _⟩
    rw [Text.lines_newLine, List.length_append]
    exact Nat.le_add_right _ _
  · exact ⟨le_rfl, le_rfl⟩

/-- What a character does to the lines: none is lost, and the last one gets it. -/
theorem Text.putchar_lines (font : Font) (fb : FbGeometry) (t : Text) (hc : c ≠ 0) :
    t.lines.length ≤ (t.putchar font fb c).lines.length ∧
      (t.putchar font fb c).last.length ≤ t.last.length + 1 := by
  obtain ⟨hfull, hfull'⟩ := t.lines_wrap (t.last.length = 256)
  rw [Text.putchar, if_neg hc]
  dsimp only
  generalize (if t.last.length = 256 then t.newLine else t) = u at hfull hfull' ⊢
  obtain ⟨hwide, hwide'⟩ :=
    u.lines_wrap (fb.width ≤ 30 + font.lineWidth u.last + font.charWidth c)
  generalize (if fb.width ≤ _ then u.newLine else u) = v at hwide hwide' ⊢
  rw [Text.length_lines v] at hwide
  rw [Text.length_lines (v.append c), Text.append, List.length_append, List.length_singleton]
  exact ⟨hfull.trans hwide, by omega⟩

theorem Text.putchar_of_not_fits {t : Text} (hc : c ≠ 0) (hlen : t.last.length ≤ 256)
    (h : ¬ FitsAfter font fb t.last [c]) :
    t.lines.length < (t.putchar font fb c).lines.length ∧ (t.putchar font fb c).last = [c] := by
  rw [fitsAfter_singleton, not_and_or] at h
  rw [Text.putchar, if_neg hc]
  by_cases hfull : t.last.length = 256
  · rw [if_pos hfull]
    dsimp only
    split_ifs <;> simp [Text.append, Text.newLine, Text.lines]
  · have hwide := h.resolve_left (fun hlt => hlt (by omega))
    rw [if_neg hfull]
    dsimp only
    rw [if_pos (Nat.le_of_not_lt hwide)]
    simp [Text.append, Text.newLine, Text.lines]

/-! ## Typing on the last line -/

def Printable (s : List UInt8) : Prop := ∀ c ∈ s, 32 ≤ c.toNat ∧ c.toNat < 127

theorem Printable.cons (hs : Printable (c :: s)) : c ≠ 0 ∧ c ≠ 0x0a ∧ Printable s := by
  have hc := hs c List.mem_cons_self
  refine ⟨?_, ?_, fun c' hc' => hs c' (List.mem_cons_of_mem c hc')⟩ <;>
  · rintro rfl
    exact absurd hc (by decide)

theorem run_typed_of_fits (hs : Printable s) (hdrawn : p.viewer.draw = p.viewer)
    (h : FitsAfter font fb l s) :
    run (Page.typed font) (p.setLast l) s = p.setLast (l ++ s) := by
  induction s generalizing l with
  | nil => rw [List.append_nil]; rfl
  | cons c s ih =>
    obtain ⟨hc, hnl, hs⟩ := hs.cons
    obtain ⟨hfirst, hrest⟩ := h.cons
    have htyped : (p.setLast l).typed font c = p.setLast (l ++ [c]) := by
      rw [Page.typed, if_neg hnl, Page.putchar_of_fits hc hfirst]
      exact Page.draw_of_drawn hdrawn
    rw [run_cons, htyped, ih hs hrest, List.append_assoc, List.singleton_append]

theorem run_typed_lines (font : Font) (fb : FbGeometry) (hs : Printable s) (t : Text) :
    t.lines.length ≤ (run (Text.typed font fb) t s).lines.length ∧
      (run (Text.typed font fb) t s).last.length ≤ t.last.length + s.length := by
  induction s generalizing t with
  | nil => exact ⟨le_rfl, le_rfl⟩
  | cons c s ih =>
    obtain ⟨hc, hnl, hs⟩ := hs.cons
    obtain ⟨hlines, hlast⟩ := t.putchar_lines font fb hc
    obtain ⟨hlines', hlast'⟩ := ih hs (t.putchar font fb c)
    rw [run_cons, Text.typed, if_neg hnl, List.length_cons]
    exact ⟨hlines.trans hlines', by omega⟩

/-- If the text did not fit, its last line begins somewhere inside it. -/
theorem run_typed_of_not_fits (hs : Printable s) {t : Text} (hlen : t.last.length ≤ 256)
    (h : ¬ FitsAfter font fb t.last s) :
    t.lines.length < (run (Text.typed font fb) t s).lines.length ∧
      (run (Text.typed font fb) t s).last.length ≤ s.length := by
  induction s generalizing t with
  | nil => exact absurd (Or.inl rfl) h
  | cons c s ih =>
    obtain ⟨hc, hnl, hs⟩ := hs.cons
    rw [run_cons, Text.typed, if_neg hnl, List.length_cons]
    by_cases hfirst : FitsAfter font fb t.last [c]
    · have hrest : ¬ FitsAfter font fb (t.append c).last s := fun hr => h (hfirst.of_cons hr)
      have hlen' : (t.append c).last.length ≤ 256 := (hfirst.resolve_left (List.cons_ne_nil c [])).1
      obtain ⟨hlines, hlast⟩ := ih hs hlen' hrest
      rw [Text.length_lines (t.append c)] at hlines
      rw [Text.putchar_of_fits hc hfirst, Text.length_lines t]
      exact ⟨hlines, hlast.trans (Nat.le_succ _)⟩
    · obtain ⟨hlines, hlast⟩ := Text.putchar_of_not_fits hc hlen hfirst
      obtain ⟨hlines', hlast'⟩ := run_typed_lines font fb hs (t.putchar font fb c)
      rw [hlast, List.length_singleton] at hlast'
      exact ⟨hlines.trans_le hlines', by omega⟩

/-! ## Backspace -/

/-- Press Backspace on a page. -/
def Page.erased (p : Page fb) : Page fb := if p.text.last = [] then p else p.deleteLast.draw

theorem Page.erased_setLast (hdrawn : p.viewer.draw = p.viewer) (l : List UInt8) :
    (p.setLast l).erased = p.setLast l.dropLast := by
  unfold Page.erased
  split_ifs with hl
  · have hnil : l = [] := hl
    rw [hnil]
    rfl
  · exact Page.draw_of_drawn hdrawn

/-- **Backspace** takes back the end of the last line, and no more than the line. -/
theorem Page.erased_iterate (hdrawn : p.viewer.draw = p.viewer) (l : List UInt8) (k : ℕ) :
    Page.erased^[k] (p.setLast l) = p.setLast (l.take (l.length - k)) := by
  induction k with
  | zero => rw [Nat.sub_zero, List.take_length]; rfl
  | succ k ih =>
    rw [Function.iterate_succ_apply', ih, Page.erased_setLast hdrawn, List.dropLast_eq_take,
      List.take_take, List.length_take]
    congr 2
    omega

theorem drawn_run_typed (font : Font) (hdrawn : p.viewer.draw = p.viewer) (s : List UInt8) :
    (run (Page.typed font) p s).viewer.draw = (run (Page.typed font) p s).viewer :=
  run_invariant (I := fun p : Page fb => p.viewer.draw = p.viewer) hdrawn
    (fun _ _ _ => Viewer.draw_draw _) s

theorem Page.undo_of_fits (hs : Printable s) (hdrawn : p.viewer.draw = p.viewer)
    (h : FitsAfter font fb p.text.last s) :
    Page.erased^[s.length] (run (Page.typed font) p s) = p := by
  have htyped : run (Page.typed font) p s = p.setLast (p.text.last ++ s) :=
    run_typed_of_fits (l := p.text.last) hs hdrawn h
  rw [htyped, Page.erased_iterate hdrawn, List.length_append, Nat.add_sub_cancel,
    List.take_left']
  · rfl
  · rfl

theorem Page.undo_of_not_fits (hs : Printable s) (hdrawn : p.viewer.draw = p.viewer)
    (hlen : p.text.last.length ≤ 256) (h : ¬ FitsAfter font fb p.text.last s) :
    Page.erased^[s.length] (run (Page.typed font) p s) =
      (run (Page.typed font) p s).setLast [] := by
  have hlast := (run_typed_of_not_fits hs hlen h).2
  rw [← Page.text_run_typed] at hlast
  have hdrawn' := drawn_run_typed font hdrawn s
  generalize run (Page.typed font) p s = q at hlast hdrawn' ⊢
  have herased := Page.erased_iterate hdrawn' q.text.last s.length
  rw [Nat.sub_eq_zero_of_le hlast, List.take_zero] at herased
  exact herased

theorem key_backspace (T : Terminal fb) :
    run (Terminal.key font) T [0x0e, breakOf 0x0e] = { T with page := T.page.erased } := by
  have hkey : T.key font 0x0e = { T with page := T.page.erased } := by
    show (if T.page.text.last = [] then T else _) = _
    unfold Page.erased
    split_ifs <;> rfl
  rw [run_cons, run_cons, run_nil, hkey, key_of_ignored (by decide)]

theorem run_backspaces (q : Page fb) (b : Bool) (k : ℕ) :
    run (Terminal.key font) ⟨q, b⟩ (backspaces k) = ⟨Page.erased^[k] q, b⟩ := by
  induction k generalizing q with
  | zero => rfl
  | succ k ih =>
    rw [backspaces, List.replicate_succ, List.flatten_cons, run_append, key_backspace]
    exact ih _

end

/-! ## The display -/

/-- The displays hold the same rows and the same variables, and have the same pixels. -/
structure SameDisplay (fb : FbGeometry) (d d' : Display) : Prop where
  scrollbuffer : ∀ r < maxLinesRemembered, d'.sb.scrollbuffer r = d.sb.scrollbuffer r
  scrollsOnNewLine : d'.sb.scrollsOnNewLine = d.sb.scrollsOnNewLine
  topLine : d'.sb.topLine = d.sb.topLine
  start : d'.sb.start = d.sb.start
  currLine : d'.sb.currLine = d.sb.currLine
  currColumn : d'.sb.currColumn = d.sb.currColumn
  isShiftPressed : d'.sb.isShiftPressed = d.sb.isShiftPressed
  canvas : ∀ i < u32 (fb.width * fb.height), d'.canvas i = d.canvas i

section

variable {font : Font} {fb : FbGeometry} {d d' : Display} {T : Terminal fb} {s s' : Scrollback}

/-- A redraw reads no row past the last one of the buffer. -/
theorem drawWrites_congr (htop : s'.topLine = s.topLine) (hstart : s'.start = s.start)
    (hrows : ∀ r < maxLinesRemembered, s'.scrollbuffer r = s.scrollbuffer r) :
    drawWrites font fb s' = drawWrites font fb s := by
  have hdrawn : s'.drawnRows fb = s.drawnRows fb := by
    rw [drawnRows, drawnRows, htop, hstart]
  have hvisit (r line : ℕ) (hline : line < maxLinesRemembered) :
      s'.rowVisit font fb r line = s.rowVisit font fb r line := by
    rw [rowVisit, rowVisit, hrows line hline]
  have hvisits : (drawVisits font fb s').1 = (drawVisits font fb s).1 := by
    rw [drawVisits_eq, drawVisits_eq, hdrawn, htop]
    exact List.map_congr_left fun r _ => hvisit r _ (Nat.mod_lt _ (Nat.succ_pos _))
  rw [drawWrites, drawWrites, drawGlyphs, drawGlyphs, drawCalls, drawCalls, hvisits]

theorem Shows.scrollbuffer_eq {p : Page fb} (h : Shows s p) (h' : Shows s' p) {r : ℕ}
    (hr : r < maxLinesRemembered) : s'.scrollbuffer r = s.scrollbuffer r := by
  by_cases hblank : p.viewer.count ≤ r
  · rw [h.blank r hr hblank, h'.blank r hr hblank]
  · obtain ⟨v, hcount, hplace, -⟩ := p.viewer.exists_seek hr
    have hlines := p.count_eq
    have holdest := v.oldest_le
    have htop := v.top_lt
    have hi : v.top < p.text.lines.length := by
      by_cases hfull : maxLinesRemembered ≤ v.count
      · omega
      · rw [Nat.mod_eq_of_lt (by omega)] at hplace
        omega
    have hkept : p.text.lines.length ≤ v.top + maxLinesRemembered := by omega
    rw [← hplace, (h.represents.ring.cells v.top hi hkept).eq,
      (h'.represents.ring.cells v.top hi hkept).eq]

/-- **The terminal determines the display**, when its pixels are up to date. -/
theorem Mirrors.sameDisplay (h : Mirrors d T) (h' : Mirrors d' T)
    (hfresh : scrollbackDraw font fb d = d) (hfresh' : scrollbackDraw font fb d' = d') :
    SameDisplay fb d d' where
  scrollbuffer := fun _ hr => h.shows.scrollbuffer_eq h'.shows hr
  scrollsOnNewLine := h'.shows.follows_eq.trans h.shows.follows_eq.symm
  topLine := h'.shows.topLine_eq.trans h.shows.topLine_eq.symm
  start := h'.shows.start_eq.trans h.shows.start_eq.symm
  currLine := h'.shows.currLine_eq.trans h.shows.currLine_eq.symm
  currColumn := h'.shows.represents.column.trans h.shows.represents.column.symm
  isShiftPressed := h'.shift_eq.trans h.shift_eq.symm
  canvas := by
    intro i hi
    have hwrites : drawWrites font fb d'.sb = drawWrites font fb d.sb :=
      drawWrites_congr (h'.shows.topLine_eq.trans h.shows.topLine_eq.symm)
        (h'.shows.start_eq.trans h.shows.start_eq.symm)
        fun _ hr => h.shows.scrollbuffer_eq h'.shows hr
    calc d'.canvas i = applyWrites (drawWrites font fb d'.sb) d'.canvas i :=
          congrFun (congrArg Display.canvas hfresh').symm i
      _ = applyWrites (drawWrites font fb d.sb) d'.canvas i := by rw [hwrites]
      _ = applyWrites (drawWrites font fb d.sb) d.canvas i :=
          draw_canvas_eq hi d.sb d'.canvas d.canvas
      _ = d.canvas i := congrFun (congrArg Display.canvas hfresh) i

theorem mirrors_undone (font : Font) {str : List UInt8} (h : Mirrors d T) (hup : T.shift = false)
    (hs : Printable str) :
    Mirrors (runKeys font fb d (scancodesFor str ++ backspaces str.length))
      ⟨Page.erased^[str.length] (run (Page.typed font) T.page str), false⟩ := by
  have htyped := mirrors_typed font h hup fun c hc => Or.inr (hs c hc)
  have hundone : Mirrors (runKeys font fb _ (backspaces str.length)) _ := mirrors_runKeys htyped _
  rwa [run_backspaces, runKeys, runKeys, ← run_append] at hundone

theorem fresh_runKeys (font : Font) (fb : FbGeometry) (canvas : ℕ → Rgb)
    (lines : List (List UInt8)) (scs : List UInt8) :
    scrollbackDraw font fb (runKeys font fb (firstScreen font fb canvas lines) scs) =
      runKeys font fb (firstScreen font fb canvas lines) scs := by
  refine run_invariant (I := fun d => scrollbackDraw font fb d = d) ?_
    (fun _ scancode h => draw_eq_self_of_key h scancode) scs
  rw [firstScreen, firstOps, runOps, run_append]
  exact draw_idem _

end

/-- **Backspace undoes typing, as far as the line goes.** In every state after `main` has printed
`lines` and any keys were pressed, if Shift is up: type a printable text, and press Backspace
once for each of its characters. If the text fits after the last line, everything is as it was
before. If not, the lines that it filled are kept, and the last one is empty. -/
theorem backspaces_undo (font : Font) (fb : FbGeometry) (canvas : ℕ → Rgb)
    (lines : List (List UInt8)) (scs s : List UInt8) (hs : Printable s)
    (hshift : (runKeys font fb (firstScreen font fb canvas lines) scs).sb.isShiftPressed =
      false) :
    let d := runKeys font fb (firstScreen font fb canvas lines) scs
    let t := (run (Terminal.key font) (Terminal.first font fb lines) scs).page.text
    let t' := run (Text.typed font fb) t s
    let d' := runKeys font fb d (scancodesFor s ++ backspaces s.length)
    (FitsAfter font fb t.last s → SameDisplay fb d d') ∧
      (¬ FitsAfter font fb t.last s →
        t.lines.length < t'.lines.length ∧
          d'.sb.retained.map (fun r => readRow (d'.sb.scrollbuffer r)) =
            (t'.earlier ++ [[]]).drop (t'.lines.length - 1024) ∧
          d'.sb.currColumn = 0) := by
  intro d t t' d'
  have hm : Mirrors d (run (Terminal.key font) (Terminal.first font fb lines) scs) :=
    mirrors_runKeys (mirrors_first canvas lines) scs
  have hdrawn : (run (Terminal.key font) (Terminal.first font fb lines) scs).page.viewer.draw = _ :=
    Terminal.drawn_run font lines scs
  have hup := hm.shift_eq.symm.trans hshift
  have hlen : t.last.length ≤ 256 := hm.shows.represents.currRow.isLine.length_le
  have hm' := mirrors_undone font hm hup hs
  refine ⟨fun hfits => ?_, fun hfits => ?_⟩
  · rw [Page.undo_of_fits hs hdrawn hfits, ← hup] at hm'
    refine hm.sameDisplay hm' (fresh_runKeys font fb canvas lines scs) ?_
    have hfresh := fresh_runKeys font fb canvas lines
      (scs ++ (scancodesFor s ++ backspaces s.length))
    rwa [runKeys, run_append] at hfresh
  · have htext : _ = t' := Page.text_run_typed font _ s
    rw [Page.undo_of_not_fits hs hdrawn hlen hfits] at hm'
    have hrep : Represents d'.sb ⟨t'.earlier, []⟩ := by
      rw [← htext]
      exact hm'.shows.represents
    refine ⟨(run_typed_of_not_fits hs hlen hfits).1, ?_, hrep.column⟩
    rw [hrep.read, Text.length_lines, ← Text.length_lines t']
    rfl

/-- After a line printed and a scroll: `Hi`, and two times Backspace. -/
theorem backspaces_undo_hi :
    let d := runKeys .monaco mainFb (firstScreen .monaco mainFb (fun _ => black) [[0x6f, 0x6b]])
      [0x48]
    SameDisplay mainFb d
      (runKeys .monaco mainFb d (scancodesFor [0x48, 0x69] ++ backspaces 2)) := by
  have h := backspaces_undo .monaco mainFb (fun _ => black) [[0x6f, 0x6b]] [0x48] [0x48, 0x69]
    (by simp [Printable]) ((mirrors_runKeys (mirrors_first _ _) [0x48]).shift_eq.trans rfl)
  exact h.1 (Or.inr ⟨by decide, by decide⟩)

end Marcelov
