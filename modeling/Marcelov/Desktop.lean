import Marcelov.Terminal
import Marcelov.Trap

/-!
# The desktop

The whole of what a user has before them: the terminal, the pointer, and the marks the pointer has
left on the screen. A `Desktop` takes a byte from either device to another desktop; it has no
interrupts, no ring of rows and no canvas.

`desktop_renders` says that the kernel shows it: whatever traps arrive in whatever order, every
pixel of the canvas is a mark, or else what the terminal has there, and a redraw wipes the marks.
-/

namespace Marcelov

open Lib

/-! ## Desktops -/

structure Desktop (fb : FbGeometry) where
  terminal : Terminal fb
  mouse : Mouse
  /-- The pixels that the pointer has painted since the last redraw. -/
  marks : List (ℕ × ℕ)

/-- A key makes the scrollback draw itself again. -/
def Terminal.redraws {fb : FbGeometry} (T : Terminal fb) (scancode : UInt8) : Bool :=
  let info := scancodeDefs scancode
  if info.mainValue = 0 then
    info.specialValue == moveDownIdx || info.specialValue == moveUpIdx ||
      info.specialValue == newLineIdx ||
      info.specialValue == deleteLastIdx && !T.page.text.last.isEmpty
  else true

/-- The pixel that the pointer paints: where it is, when a packet has come in with the left button
down. -/
def markOf (m m' : Mouse) : List (ℕ × ℕ) :=
  if m.state = .waitByte2 ∧ m'.left = true then [(m'.x.toNat, m'.y.toNat)] else []

namespace Desktop

variable {fb : FbGeometry}

/-- The desktop when `main` has printed `lines` and redrawn. -/
def first (font : Font) (fb : FbGeometry) (lines : List (List UInt8)) : Desktop fb :=
  ⟨Terminal.first font fb lines, Mouse.init, []⟩

def step (font : Font) (D : Desktop fb) : Input → Desktop fb
  | .key data =>
    if data = 0xfa then D
    else
      { D with
        terminal := D.terminal.key font data
        marks := if D.terminal.redraws data then [] else D.marks }
  | .mouse data =>
    let mouse := handleMouse fb D.mouse data
    { D with mouse := mouse, marks := D.marks ++ markOf D.mouse mouse }

end Desktop

/-- The kernel when `main` has printed `lines` and redrawn. -/
def Kernel.first (font : Font) (fb : FbGeometry) (canvas : ℕ → Rgb) (lines : List (List UInt8)) :
    Kernel :=
  ⟨firstScreen font fb canvas lines, Mouse.init, mainPlic, []⟩

def markColour (p : ℕ × ℕ) : Rgb := ⟨p.1.toUInt8, p.2.toUInt8, 0, 0⟩

/-- The store that makes a mark. -/
def markWrite (fb : FbGeometry) (p : ℕ × ℕ) : ℕ × Rgb := (p.2 * fb.width + p.1, markColour p)

/-! ## The stores of the mouse are its marks -/

section

variable {fb : FbGeometry}

theorem strokesOf_printButton (old new : Bool) (down up : String) :
    strokesOf (printButton old new down up) = [] :=
  filterMap_printButton old new down up fun _ => rfl

theorem strokesOf_append (es es' : List MouseEffect) :
    strokesOf (es ++ es') = strokesOf es ++ strokesOf es' := List.filterMap_append

theorem strokesOf_paint (i : ℕ) (px : Rgb) : strokesOf [.paint i px] = [(i, px)] := by
  simp [strokesOf]

/-- What is done for a packet: some printing, and a store when the left button is down. -/
theorem newEffects_processEvent (fb : FbGeometry) (m : Mouse) :
    ∃ printed, strokesOf printed = [] ∧
      newEffects m (mouseProcessEvent fb m) = printed ++
        if (mouseProcessEvent fb m).left = true then
          [.paint (toI32 (u32 (u32 (toU32 (mouseProcessEvent fb m).y * fb.width) +
              toU32 (mouseProcessEvent fb m).x)))
            ⟨(toU32 (mouseProcessEvent fb m).x).toUInt8,
              (toU32 (mouseProcessEvent fb m).y).toUInt8, 0, 0⟩]
        else [] := by
  let m' := mouseProcessEvent fb m
  refine ⟨.processEvent m.packet ::
    (printButton m.left m'.left "Left button down\n" "Left button up\n" ++
      printButton m.mid m'.mid "Middle button down\n" "Middle button up\n" ++
      printButton m.right m'.right "Right button down\n" "Right button up\n"), ?_, ?_⟩
  · show strokesOf (_ ++ _ ++ _) = []
    rw [strokesOf_append, strokesOf_append, strokesOf_printButton, strokesOf_printButton,
      strokesOf_printButton]
    rfl
  · exact List.drop_left

theorem strokesOf_processEvent (hsize : fb.width * fb.height < 2 ^ 31) (hwidth : 0 < fb.width)
    (hheight : 0 < fb.height) (m : Mouse) :
    strokesOf (newEffects m (mouseProcessEvent fb m)) =
      if (mouseProcessEvent fb m).left = true then
        [markWrite fb ((mouseProcessEvent fb m).x.toNat, (mouseProcessEvent fb m).y.toNat)]
      else [] := by
  obtain ⟨printed, hprinted, heq⟩ := newEffects_processEvent fb m
  obtain ⟨⟨hx, hxlt⟩, hy, hylt⟩ := mouseProcessEvent_onCanvas hsize hwidth hheight m
  obtain ⟨x, hxn⟩ := Int.eq_ofNat_of_zero_le hx
  obtain ⟨y, hyn⟩ := Int.eq_ofNat_of_zero_le hy
  rw [hxn] at hxlt
  rw [hyn] at hylt
  have hxw : x < fb.width := Int.ofNat_lt.1 hxlt
  have hyh : y < fb.height := Int.ofNat_lt.1 hylt
  have hindex := canvasIndex_eq hsize hxw hyh
  rw [heq, strokesOf_append, hprinted, List.nil_append]
  by_cases hleft : (mouseProcessEvent fb m).left = true
  · rw [if_pos hleft, if_pos hleft, hxn, hyn, hindex, toU32_natCast (hxw.trans fb.width_lt),
      toU32_natCast (hyh.trans fb.height_lt)]
    exact strokesOf_paint (y * fb.width + x) _
  · rw [if_neg hleft, if_neg hleft]
    rfl

theorem strokesOf_handleMouse (hsize : fb.width * fb.height < 2 ^ 31) (hwidth : 0 < fb.width)
    (hheight : 0 < fb.height) (m : Mouse) (data : UInt8) :
    strokesOf (newEffects m (handleMouse fb m data)) =
      (markOf m (handleMouse fb m data)).map (markWrite fb) := by
  by_cases hstate : m.state = .waitByte2
  · have heq := handleMouse_byte2 fb hstate data
    have hmark := strokesOf_processEvent hsize hwidth hheight
      { m with packet := { m.packet with byte2 := data }, state := .waitByte0 }
    rw [heq, markOf]
    refine hmark.trans ?_
    by_cases hleft : (mouseProcessEvent fb
        { m with packet := { m.packet with byte2 := data }, state := .waitByte0 }).left = true
    · rw [if_pos hleft, if_pos ⟨hstate, hleft⟩]
      rfl
    · rw [if_neg hleft, if_neg fun h => hleft h.2]
      rfl
  · rw [markOf, if_neg fun h => hstate h.1, List.map_nil]
    unfold handleMouse newEffects
    split_ifs with hack
    · rw [Mouse.emit, List.drop_left]
      rfl
    · cases hs : m.state with
      | waitByte0 => simp [strokesOf]
      | waitByte1 => simp [strokesOf]
      | waitByte2 => exact absurd hs hstate

end

/-! ## The kernel shows the desktop -/

section

variable {font : Font} {fb : FbGeometry} {d : Display} {T : Terminal fb}

theorem redraws_eq (font : Font) (h : Mirrors d T) (scancode : UInt8) :
    (handleScancode font fb d.sb scancode).2 = T.redraws scancode := by
  have hcol : d.sb.currColumn = 0 ↔ T.page.text.last = [] := by
    rw [h.shows.represents.column, List.length_eq_zero_iff]
  have hspecial (i : ℕ) (hi : i < specialScancodes.length) (idx : UInt8) (hidx : idx.toNat = i) :
      (specialScancodes.get ⟨i, hi⟩ scancode d.sb).2 =
        (idx == moveDownIdx || idx == moveUpIdx || idx == newLineIdx ||
          idx == deleteLastIdx && !T.page.text.last.isEmpty) := by
    have hlt : i < 8 := hi
    obtain rfl : idx = i.toUInt8 := UInt8.toNat_inj.1 (by rw [hidx]; simp; omega)
    interval_cases i
    case «7» =>
      show (deleteLast scancode d.sb).2 = !T.page.text.last.isEmpty
      unfold deleteLast
      by_cases hlast : T.page.text.last = []
      · rw [if_pos (hcol.2 hlast), hlast]
        rfl
      · rw [if_neg (hcol.not.2 hlast)]
        simp [hlast]
    all_goals rfl
  unfold handleScancode Terminal.redraws
  by_cases hmain : (scancodeDefs scancode).mainValue = 0
  · rw [dif_pos hmain, if_pos hmain]
    exact hspecial _ (specialValue_lt_length scancode hmain) _ rfl
  · rw [dif_neg hmain, if_neg hmain]

/-- The display and the mouse are those of the desktop: without its marks, the display would be
that of its terminal. -/
structure Overlays (font : Font) (s : Display × Mouse) (D : Desktop fb) : Prop where
  mouse : s.2 = D.mouse
  clean : ∃ d, Displays font d D.terminal ∧ s.1.sb = d.sb ∧
    ∀ i < u32 (fb.width * fb.height),
      s.1.canvas i = applyWrites (D.marks.map (markWrite fb)) d.canvas i

/-- **One byte** keeps the display and the mouse those of the desktop. -/
theorem overlays_step (hsize : fb.width * fb.height < 2 ^ 31) (hwidth : 0 < fb.width)
    (hheight : 0 < fb.height)
    (hfits : ∀ c : UInt8, c.toNat < 128 → 30 + font.charWidth c < fb.width)
    {s : Display × Mouse} {D : Desktop fb} (h : Overlays font s D) (input : Input) :
    Overlays font (input.exec font fb s) (D.step font input) := by
  obtain ⟨hmouse, d, hd, hsb, hcanvas⟩ := h
  cases input with
  | key data =>
    unfold Input.exec Desktop.step
    dsimp only
    by_cases hack : data = 0xfa
    · rw [if_pos hack, if_pos hack]
      exact ⟨hmouse, d, hd, hsb, hcanvas⟩
    · rw [if_neg hack, if_neg hack]
      refine ⟨hmouse, _, displays_key hfits hd data, sb_key_congr hsb data, fun i hi => ?_⟩
      have hredraw := redraws_eq font hd.mirrors data
      unfold keyboardProcessScancode
      rw [hsb]
      cases hkey : handleScancode font fb d.sb data with
      | mk sb redraw =>
        rw [hkey] at hredraw
        dsimp only at hredraw ⊢
        rw [← hredraw]
        cases redraw with
        | true => exact draw_canvas_eq hi sb s.1.canvas d.canvas
        | false => exact hcanvas i hi
  | mouse data =>
    unfold Input.exec Desktop.step
    dsimp only
    refine ⟨by rw [hmouse], d, hd, hsb, fun i hi => ?_⟩
    rw [hmouse, strokesOf_handleMouse hsize hwidth hheight, List.map_append, applyWrites_append]
    exact applyWrites_congr (Or.inr (hcanvas i hi))

theorem Overlays.pixel {s : Display × Mouse} {D : Desktop fb} (h : Overlays font s D)
    (hsize : fb.width * fb.height < 2 ^ 31) (hmarks : ∀ p ∈ D.marks, p.1 < fb.width) {px py : ℕ}
    (hpx : px < fb.width) (hpy : py < fb.height) :
    ((px, py) ∈ D.marks → s.1.canvas (py * fb.width + px) = markColour (px, py)) ∧
      ((px, py) ∉ D.marks →
        (D.terminal.page.ink font px py → s.1.canvas (py * fb.width + px) = black) ∧
          (¬ D.terminal.page.ink font px py →
            s.1.canvas (py * fb.width + px) = background)) := by
  obtain ⟨-, d, hd, -, hcanvas⟩ := h
  have hlt := pixel_lt hpx hpy
  have hindex : ∀ p ∈ D.marks, p.2 * fb.width + p.1 = py * fb.width + px → p = (px, py) := by
    rintro ⟨x, y⟩ hp heq
    obtain ⟨rfl, rfl⟩ := pixel_index_inj (hmarks _ hp) hpx heq
    rfl
  rw [hcanvas _ (by rw [u32_of_lt (by omega)]; exact hlt)]
  refine ⟨fun hmem => ?_, fun hmem => ?_⟩
  · refine applyWrites_of_forall ⟨_, List.mem_map_of_mem hmem, rfl⟩ fun w hw heq => ?_
    obtain ⟨p, hp, rfl⟩ := List.mem_map.1 hw
    rw [hindex p hp heq]
    rfl
  · have hframe : applyWrites (D.marks.map (markWrite fb)) d.canvas (py * fb.width + px) =
        d.canvas (py * fb.width + px) := by
      refine applyWrites_of_not_mem fun w hw heq => ?_
      obtain ⟨p, hp, rfl⟩ := List.mem_map.1 hw
      exact hmem (hindex p hp heq ▸ hp)
    rw [hframe]
    exact hd.pixel hsize hpx hpy

theorem markOf_inside (hsize : fb.width * fb.height < 2 ^ 31) (hwidth : 0 < fb.width)
    (hheight : 0 < fb.height) (m : Mouse) (data : UInt8) :
    ∀ p ∈ markOf m (handleMouse fb m data), p.1 < fb.width ∧ p.2 < fb.height := by
  intro p hp
  unfold markOf at hp
  split_ifs at hp with hmark
  · obtain ⟨hx, hy⟩ := mouseProcessEvent_onCanvas hsize hwidth hheight
      { m with packet := { m.packet with byte2 := data }, state := .waitByte0 }
    rw [← handleMouse_byte2 fb hmark.1] at hx hy
    rw [List.mem_singleton.1 hp]
    exact ⟨by omega, by omega⟩
  · exact absurd hp List.not_mem_nil

theorem marks_step (hsize : fb.width * fb.height < 2 ^ 31) (hwidth : 0 < fb.width)
    (hheight : 0 < fb.height) {D : Desktop fb} (h : ∀ p ∈ D.marks, p.1 < fb.width)
    (input : Input) : ∀ p ∈ (D.step font input).marks, p.1 < fb.width := by
  cases input with
  | key data =>
    unfold Desktop.step
    dsimp only
    split_ifs
    exacts [h, fun p hp => absurd hp List.not_mem_nil, h]
  | mouse data =>
    intro p hp
    rcases List.mem_append.1 hp with hp | hp
    · exact h p hp
    · exact (markOf_inside hsize hwidth hheight D.mouse data p hp).1

end

/-- **The kernel shows the desktop.** Let `main` print ASCII lines and redraw, and let any traps
be handled after that, on a screen where every ASCII character fits on a line. Each pixel of the
canvas has the colour of its mark, if the pointer has painted it since the last redraw; if not,
it is black where the terminal has ink and of the background colour elsewhere. -/
theorem desktop_renders (font : Font) (fb : FbGeometry) (canvas : ℕ → Rgb)
    (lines : List (List UInt8)) (ts : List Trap) (hsize : fb.width * fb.height < 2 ^ 31)
    (hfits : ∀ c : UInt8, c.toNat < 128 → 30 + font.charWidth c < fb.width)
    (hascii : ∀ l ∈ lines, ∀ c ∈ l, c.toNat < 128) :
    let k := run (Kernel.handleTrap font fb) (Kernel.first font fb canvas lines) ts
    let D := run (Desktop.step font) (Desktop.first font fb lines) (inputsOf ts)
    ∀ px < fb.width, ∀ py < fb.height,
      ((px, py) ∈ D.marks → k.display.canvas (py * fb.width + px) = markColour (px, py)) ∧
        ((px, py) ∉ D.marks →
          (D.terminal.page.ink font px py →
              k.display.canvas (py * fb.width + px) = black) ∧
            (¬ D.terminal.page.ink font px py →
              k.display.canvas (py * fb.width + px) = background)) := by
  intro k D px hpx py hpy
  have hwidth : 0 < fb.width := by omega
  have hheight : 0 < fb.height := by omega
  obtain ⟨hdevices, -⟩ := traps_devices font fb
    (k := Kernel.first font fb canvas lines) routed_mainPlic ts
  have hover : Overlays font (k.display, k.mouse) D := by
    rw [hdevices]
    refine run_simulation (R := fun (s : Display × Mouse) (D : Desktop fb) => Overlays font s D) ?_
      (fun _ _ input h => overlays_step hsize hwidth hheight hfits h input) (inputsOf ts)
    exact ⟨rfl, _, displays_first canvas hfits hascii, rfl, fun _ _ => rfl⟩
  have hmarks : ∀ p ∈ D.marks, p.1 < fb.width :=
    run_invariant (I := fun D : Desktop fb => ∀ p ∈ D.marks, p.1 < fb.width)
      (fun _ hp => absurd hp List.not_mem_nil)
      (fun _ input h => marks_step hsize hwidth hheight h input) (inputsOf ts)
  exact hover.pixel hsize hmarks hpx hpy

/-- A click with a key in the middle of its packet. -/
theorem desktop_renders_click :
    let irq : BitVec 64 := 0x8000000000000009
    let ts : List Trap := [⟨irq, 13, 0, 0x09⟩, ⟨irq, 12, 0x1e, 0⟩, ⟨irq, 13, 0, 3⟩,
      ⟨irq, 13, 0, 5⟩]
    let k := run (Kernel.handleTrap .monaco mainFb)
      (Kernel.first .monaco mainFb (fun _ => black) [[0x48]]) ts
    k.display.canvas (5 * mainFb.width + 0) = markColour (0, 5) :=
  (desktop_renders .monaco mainFb (fun _ => black) [[0x48]] _ (by decide)
    (fun _ _ => by simp [Font.charWidth, mainFb]) (by simp) 0 (by decide) 5 (by decide)).1
    (by decide)

end Marcelov
