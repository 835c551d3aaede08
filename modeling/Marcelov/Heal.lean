import Marcelov.Interrupted

/-!
# After an interrupted redraw

The last statement of a redraw may set the sticky flag when it should not: a key that was handled
since `last_line` was compared has moved the view or the end of the text. Then the view follows
a text whose end it does not show (`flag_without_newest_line`). `scroll_heals` says that this lasts
until one of the two scroll keys is pressed, and no longer.
-/

namespace Marcelov

open Lib Scrollback

section

variable {font : Font} {fb : FbGeometry}

/-- A state with the same text whose view does not follow it shows some page with that text. -/
theorem Shows.seek {s s' : Scrollback} {p : Page fb} (h : Shows s p) (hs : SameText s s')
    (hf : s'.scrollsOnNewLine = false) : ∃ q : Page fb, Shows s' q ∧ q.text = p.text := by
  obtain ⟨v, hcount, htop, hfollows⟩ := p.viewer.exists_seek s'.topLine_lt
  exact ⟨⟨p.text, v, hcount.trans p.count_eq⟩,
    h.congr hs hcount htop.symm (hf.trans hfollows.symm), rfl⟩

theorem exists_displays_draw {d : Display} {T : Terminal fb} (d' : Display) (h : Mirrors d T)
    (hl : Laid font fb d.sb) (ht : SameTyping d.sb d'.sb)
    (hf : d'.sb.scrollsOnNewLine = false) :
    ∃ T' : Terminal fb, T'.page.text = T.page.text ∧ T'.shift = T.shift ∧
      Displays font (scrollbackDraw font fb d') T' := by
  obtain ⟨q, hq, htext⟩ := h.shows.seek ht.text hf
  refine ⟨⟨q.draw, T.shift⟩, htext, rfl, ⟨hq.draw font, ?_⟩, draw_idem d', ?_⟩
  · exact (isShiftPressed_draw d').trans (ht.shift.trans h.shift_eq)
  · exact hl.congr (ht.text.trans (sameText_draw font fb d'))

theorem sameTyping_moveUp (scancode : UInt8) (s : Scrollback) :
    SameTyping s (moveUp scancode s).1 := by
  refine ⟨sameText_moveUp scancode s, ?_⟩
  show s.scrollUp.isShiftPressed = s.isShiftPressed
  unfold scrollUp
  split_ifs <;> rfl

theorem sameTyping_moveDown (scancode : UInt8) (s : Scrollback) :
    SameTyping s (moveDown scancode s).1 := by
  refine ⟨sameText_moveDown scancode s, ?_⟩
  show s.scrollDown.isShiftPressed = s.isShiftPressed
  unfold scrollDown
  split_ifs <;> rfl

/-- **A scroll key** leaves a terminal, from any state that holds the text of one. -/
theorem exists_displays_scroll {d d' : Display} {T : Terminal fb} (h : Mirrors d T)
    (hl : Laid font fb d.sb) (ht : SameTyping d.sb d'.sb) {scancode : UInt8}
    (hkey : scancode = 0x48 ∨ scancode = 0x50) :
    ∃ T' : Terminal fb, T'.page.text = T.page.text ∧ T'.shift = T.shift ∧
      Displays font (keyboardProcessScancode font fb d' scancode) T' := by
  rcases hkey with rfl | rfl
  · exact exists_displays_draw { d' with sb := (moveUp 0x48 d'.sb).1 } h hl
      (ht.trans (sameTyping_moveUp 0x48 d'.sb)) rfl
  · exact exists_displays_draw { d' with sb := (moveDown 0x50 d'.sb).1 } h hl
      (ht.trans (sameTyping_moveDown 0x50 d'.sb)) rfl

theorem laid_runKeys (hfits : ∀ c : UInt8, c.toNat < 128 → 30 + font.charWidth c < fb.width)
    {d : Display} {T : Terminal fb} (h : Mirrors d T) (hl : Laid font fb d.sb)
    (scs : List UInt8) : Laid font fb (runKeys font fb d scs).sb := by
  refine (run_invariant (I := fun d : Display =>
    Laid font fb d.sb ∧ ∃ T : Terminal fb, Mirrors d T) ⟨hl, T, h⟩ ?_ scs).1
  rintro d scancode ⟨hl, T, h⟩
  exact ⟨laid_key hfits hl h.shows.represents scancode, _, mirrors_key h scancode⟩

/-- A redraw with traps between its statements, and a scroll key after it, from any state that
holds the text of a terminal. -/
theorem displays_after_redraw
    (hfits : ∀ c : UInt8, c.toNat < 128 → 30 + font.charWidth c < fb.width)
    {d d' : Display} {T : Terminal fb} (h : Mirrors d T) (hl : Laid font fb d.sb)
    (ht : SameTyping d.sb d'.sb) (k : Kernel) (hr : Routed k.plic) (events : List DrawEvent)
    {scancode : UInt8} (hkey : scancode = 0x48 ∨ scancode = 0x50) :
    let m := run (drawStep font fb) (BootDraw.init { k with display := d' }) events
    let T₁ := run (Terminal.key font) T (keysOf events)
    ∃ T' : Terminal fb, T'.page.text = T₁.page.text ∧ T'.shift = T₁.shift ∧
      ∀ scs, Displays font (runKeys font fb m.kernel.display (scancode :: scs))
        (run (Terminal.key font) T' scs) := by
  intro m T₁
  have hkeys : Mirrors (runKeys font fb d (keysOf events)) T₁ := mirrors_runKeys h _
  have hlaid := laid_runKeys hfits h hl (keysOf events)
  have htyping : SameTyping (runKeys font fb d (keysOf events)).sb m.kernel.display.sb :=
    sameTyping_run (m := BootDraw.init { k with display := d' }) ht hr events
  obtain ⟨T', htext, hshift, hdisplays⟩ := exists_displays_scroll hkeys hlaid htyping hkey
  exact ⟨T', htext, hshift, displays_runKeys hfits hdisplays⟩

end

/-- **A scroll key heals the view.** On a screen where every ASCII character fits on a line, let
`main` redraw in a state that any prints and keys have led to, let any traps come between the
statements of the redraw, and let a scroll key be pressed after the last of them. From then on the
display is that of a terminal, whichever keys follow: with the text and the shift state that the
keys have made, the pixels of its page, and a view that follows the text only when it shows
its end. -/
theorem scroll_heals (font : Font) (fb : FbGeometry) (canvas : ℕ → Rgb) (ops : List Op)
    (k : Kernel) (hr : Routed k.plic)
    (hfits : ∀ c : UInt8, c.toNat < 128 → 30 + font.charWidth c < fb.width)
    (hops : ∀ op ∈ ops, OpFits font fb op) (events : List DrawEvent) (scancode : UInt8)
    (hkey : scancode = 0x48 ∨ scancode = 0x50) :
    let d := runOps font fb (Display.init canvas) ops
    let m := run (drawStep font fb) (BootDraw.init { k with display := d }) events
    let T₀ : Terminal fb := ⟨run (Page.exec font) (Page.init fb) ops, d.sb.isShiftPressed⟩
    let T₁ := run (Terminal.key font) T₀ (keysOf events)
    ∃ T : Terminal fb, T.page.text = T₁.page.text ∧ T.shift = T₁.shift ∧
      ∀ scs, Displays font (runKeys font fb m.kernel.display (scancode :: scs))
        (run (Terminal.key font) T scs) := by
  intro d m T₀ T₁
  have hd : Mirrors d T₀ := ⟨shows_runOps (d := Display.init canvas) (Shows.init fb) ops, rfl⟩
  exact displays_after_redraw hfits hd (laid_runOps canvas hops) (SameTyping.refl _) k hr
    events hkey

/-- The text of a run in which Enter is handled before the first statement of the redraw. -/
theorem scroll_heals_enter :
    let d := runOps .monaco mainFb (Display.init fun _ => black) [.putchar 0x61]
    let m := run (drawStep .monaco mainFb) (BootDraw.init ⟨d, Mouse.init, mainPlic, []⟩)
      [.trap ⟨0x8000000000000009, 12, 0x1c, 0⟩, .main]
    ∃ T : Terminal mainFb, T.page.text = ⟨[[0x61]], []⟩ ∧
      Displays .monaco (runKeys .monaco mainFb m.kernel.display [0x48]) T := by
  obtain ⟨T, htext, -, hT⟩ := scroll_heals .monaco mainFb (fun _ => black) [.putchar 0x61]
    ⟨Display.init fun _ => black, Mouse.init, mainPlic, []⟩ routed_mainPlic
    (fun _ _ => by simp [Font.charWidth, mainFb])
    (by simp [OpFits, Font.charWidth, mainFb]) [.trap ⟨0x8000000000000009, 12, 0x1c, 0⟩, .main] 0x48
    (Or.inl rfl)
  exact ⟨T, htext, hT []⟩

/-- **Until then the view can stay behind.** On the screen of `main`, with as many lines as there
are rows, Enter is handled before the last statement of the redraw: the flag is set with the newest
line off the screen. -/
theorem flag_without_newest_line :
    let d := runOps .monaco mainFb (Display.init fun _ => black) (List.replicate 27 .newLine)
    ∃ n,
      let m := run (drawStep .monaco mainFb) (BootDraw.init ⟨d, Mouse.init, mainPlic, []⟩)
        (List.replicate n .main ++ [.trap ⟨0x8000000000000009, 12, 0x1c, 0⟩, .main])
      m.pc = .done ∧ m.kernel.display.sb.scrollsOnNewLine = true ∧
        m.kernel.display.sb.currLine ∉ drawnLines .monaco mainFb m.kernel.display.sb := by
  intro d
  have hlast : lastLine .monaco mainFb d.sb = d.sb.currLine := by decide +kernel
  let k : Kernel := ⟨d, Mouse.init, mainPlic, []⟩
  have hreaches : DrawReaches .monaco mainFb (BootDraw.init k)
      ⟨.stickySet, k.paint (drawWrites .monaco mainFb d.sb)⟩ := by
    refine (reaches_lastTest k).trans (DrawReaches.of_step ?_)
    rw [BootDraw.mainStep_lastTest, Kernel.sb_paint, if_pos hlast]
  obtain ⟨n, hn⟩ := hreaches.exists_run
  refine ⟨n, ?_⟩
  rw [run_append, hn]
  decide +kernel

end Marcelov
