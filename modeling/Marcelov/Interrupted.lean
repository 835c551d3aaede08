import Marcelov.BootDraw
import Marcelov.Clip

/-!
# The redraw of `main`, interrupted

What becomes of a redraw when traps come between its statements. The rows it reads may change
under it, and so may the start of the buffer that it stops at: it may draw a line that is half
old and half new, and pass the end of the text. `draw_interrupted` says what holds all the same.
-/

namespace Marcelov

open Lib Scrollback

/-! ## The ranges of the variables -/

/-- `y` is that of a row that fits on the screen. -/
def RowFits (fb : FbGeometry) (y : ℕ) : Prop :=
  ∃ r < fb.rowsThatFit, y = marginTop + charHeight * r

/-- What `main` knows of its variables, whatever the traps do. -/
def DrawPc.InRange (fb : FbGeometry) : DrawPc → Prop
  | .row y _ _ => ∃ r ≤ fb.rowsThatFit, y = marginTop + charHeight * r
  | .column y _ _ _ => RowFits fb y
  | .glyph stores _ y _ _ _ => RowFits fb y ∧ stores.length ≤ charHeight * 256 ∧
    ∀ w ∈ stores, w.index fb < fb.width * fb.height
  | .next y _ => RowFits fb y
  | _ => True

section

variable {font : Font} {fb : FbGeometry} {m : BootDraw}

theorem height_lt_of_size (hsize : fb.width * fb.height < 2 ^ 31) (hwidth : 0 < fb.width) :
    fb.height < 2 ^ 31 := (Nat.le_mul_of_pos_left _ hwidth).trans_lt hsize

theorem index_lt_of_rowFits (hsize : fb.width * fb.height < 2 ^ 31) {c : UInt8} {x y : ℕ}
    (hy : RowFits fb y) {w : GlyphWrite} (hw : w ∈ fbPrintChar font fb c x y) :
    w.index fb < fb.width * fb.height := by
  obtain ⟨r, hr, rfl⟩ := hy
  obtain ⟨x', -, y', hy', rfl, -, hcols, -⟩ := mem_fbPrintChar.1 hw
  have hfit := (fits_iff fb r).1 hr
  have hheight := fb.height_lt
  have hrow : u32 (marginTop + charHeight * r + y') = marginTop + charHeight * r + y' := by
    simp only [marginTop, marginBottom, charHeight] at hfit hy' ⊢
    exact u32_of_lt (by omega)
  have hlt : (marginTop + charHeight * r + y') * fb.width + u32 (x + x') <
      fb.width * fb.height := by
    refine pixel_lt (hcols x' le_rfl) ?_
    simp only [marginTop, marginBottom, charHeight] at hfit hy' ⊢
    omega
  show u32 (u32 (u32 (marginTop + charHeight * r + y') * fb.width) + u32 (x + x')) < _
  rw [hrow, u32_of_lt (n := (marginTop + charHeight * r + y') * fb.width) (by omega),
    u32_of_lt (by omega)]
  exact hlt

theorem u32_row {r : ℕ} (hheight : fb.height < 2 ^ 31) (hr : r ≤ fb.rowsThatFit) :
    u32 (marginTop + charHeight * r + charHeight) = marginTop + charHeight * (r + 1) ∧
      u32 (marginTop + charHeight * (r + 1) + marginBottom) =
        marginTop + charHeight * (r + 1) + marginBottom := by
  unfold FbGeometry.rowsThatFit at hr
  simp only [marginTop, marginBottom, charHeight] at hr ⊢
  rw [u32_of_lt (by omega), u32_of_lt (by omega)]
  omega

theorem length_fbPrintChar_le (font : Font) (fb : FbGeometry) (c : UInt8) (x y : ℕ) :
    (fbPrintChar font fb c x y).length ≤ charHeight * 256 := by
  have hwidth := font.charWidth_lt (font.printed c)
  unfold fbPrintChar
  refine length_forBreak_le (fun y => ?_) 0 charHeight
  refine (length_forBreak_le (b := 1) (fun x => ?_) 0 _).trans (by omega)
  split_ifs <;> simp

theorem inRange_mainStep (hsize : fb.width * fb.height < 2 ^ 31) (hwidth : 0 < fb.width)
    (h : m.pc.InRange fb) : (m.mainStep font fb).pc.InRange fb := by
  have hheight := height_lt_of_size hsize hwidth
  obtain ⟨pc, k⟩ := m
  cases pc with
  | clear i =>
    unfold BootDraw.mainStep
    dsimp only
    split_ifs <;> trivial
  | top => exact ⟨0, Nat.zero_le _, rfl⟩
  | row y line lastLine =>
    obtain ⟨r, hr, rfl⟩ := h
    obtain ⟨hnext, hbottom⟩ := u32_row hheight hr
    rw [BootDraw.mainStep_row, hnext, hbottom]
    split_ifs with hfull
    · trivial
    · exact ⟨r, (fits_iff fb r).2 (Nat.lt_of_not_le hfull), rfl⟩
  | column y line i x =>
    unfold BootDraw.mainStep
    dsimp only
    split_ifs
    · exact h
    · exact ⟨h, length_fbPrintChar_le font fb _ x y, fun w hw => index_lt_of_rowFits hsize h hw⟩
    · exact h
  | glyph stores c y line i x =>
    obtain ⟨hy, hlen, hindex⟩ := h
    cases stores with
    | nil => exact hy
    | cons w stores =>
      exact ⟨hy, (Nat.le_succ _).trans hlen, fun w' hw' => hindex w' (List.mem_cons_of_mem w hw')⟩
  | next y line =>
    obtain ⟨r, hr, rfl⟩ := h
    rw [BootDraw.mainStep_next, (u32_row hheight hr.le).1]
    split_ifs
    · trivial
    · exact ⟨r + 1, hr, rfl⟩
  | lastTest lastLine =>
    rw [BootDraw.mainStep_lastTest]
    split_ifs <;> trivial
  | stickySet => trivial
  | done => trivial

theorem inRange_drawStep (font : Font) (hsize : fb.width * fb.height < 2 ^ 31)
    (hwidth : 0 < fb.width) (h : m.pc.InRange fb) (event : DrawEvent) :
    (drawStep font fb m event).pc.InRange fb := by
  cases event with
  | main => exact inRange_mainStep hsize hwidth h
  | trap t => exact h

/-! ## The work that is left -/

/-- The most statements that a character takes. -/
def charWork : ℕ := charHeight * 256 + 2

/-- The most statements that `n` rows take, and the end of the redraw. -/
def rowsWork (n : ℕ) : ℕ := (maxLineLen * charWork + 3) * n + 3

def rowsFrom (fb : FbGeometry) (y : ℕ) : ℕ := fb.rowsThatFit - (y - marginTop) / charHeight

/-- The most statements that are left. -/
def DrawPc.work (fb : FbGeometry) : DrawPc → ℕ
  | .clear i => (u32 (fb.width * fb.height) - i) + rowsWork fb.rowsThatFit + 2
  | .top => rowsWork fb.rowsThatFit + 1
  | .row y _ _ => rowsWork (rowsFrom fb y)
  | .column y _ i _ => (maxLineLen - i) * charWork + rowsWork (rowsFrom fb y - 1) + 2
  | .glyph stores _ y _ i _ =>
    stores.length + (maxLineLen - (i + 1)) * charWork + rowsWork (rowsFrom fb y - 1) + 3
  | .next y _ => rowsWork (rowsFrom fb y - 1) + 1
  | .lastTest _ => 2
  | .stickySet => 1
  | .done => 0

def drawWork (fb : FbGeometry) : ℕ := (DrawPc.clear 0).work fb

theorem rowsFrom_eq (fb : FbGeometry) (r : ℕ) :
    rowsFrom fb (marginTop + charHeight * r) = fb.rowsThatFit - r := by
  rw [rowsFrom, Nat.add_sub_cancel_left, Nat.mul_div_cancel_left r (by decide)]

theorem rowsWork_succ (n : ℕ) : rowsWork (n + 1) = rowsWork n + (maxLineLen * charWork + 3) := by
  rw [rowsWork, rowsWork, Nat.mul_succ, Nat.add_right_comm]

theorem three_le_rowsWork (n : ℕ) : 3 ≤ rowsWork n := Nat.le_add_left _ _

/-- **Each statement of `main` leaves less to do.** -/
theorem work_mainStep (hsize : fb.width * fb.height < 2 ^ 31) (hwidth : 0 < fb.width)
    (h : m.pc.InRange fb) : (m.mainStep font fb).pc.work fb ≤ m.pc.work fb - 1 := by
  have hheight := height_lt_of_size hsize hwidth
  obtain ⟨pc, k⟩ := m
  cases pc with
  | clear i =>
    unfold BootDraw.mainStep
    dsimp only
    split_ifs
    · simp only [BootDraw.paint, DrawPc.work]
      omega
    · simp only [BootDraw.goto, DrawPc.work]
      omega
  | top =>
    show rowsWork (rowsFrom fb (marginTop + charHeight * 0)) ≤ rowsWork fb.rowsThatFit + 1 - 1
    rw [rowsFrom_eq]
    exact le_rfl
  | row y line lastLine =>
    obtain ⟨r, hr, rfl⟩ := h
    obtain ⟨hnext, hbottom⟩ := u32_row hheight hr
    rw [BootDraw.mainStep_row, hnext, hbottom]
    split_ifs with hfull
    · have hleft := three_le_rowsWork (rowsFrom fb (marginTop + charHeight * r))
      simp only [DrawPc.work]
      omega
    · have hlt := (fits_iff fb r).2 (Nat.lt_of_not_le hfull)
      obtain ⟨n, hn⟩ : ∃ n, fb.rowsThatFit - r = n + 1 := ⟨fb.rowsThatFit - r - 1, by omega⟩
      simp only [DrawPc.work, rowsFrom_eq, hn, rowsWork_succ, Nat.add_sub_cancel, Nat.sub_zero]
      omega
  | column y line i x =>
    unfold BootDraw.mainStep
    dsimp only
    split_ifs with hi hc
    · simp only [BootDraw.goto, DrawPc.work]
      omega
    · have hlen := length_fbPrintChar_le font fb (k.display.sb.scrollbuffer line i) x y
      have hchar : charHeight * 256 + 2 = charWork := rfl
      have hturn : maxLineLen - i = maxLineLen - (i + 1) + 1 := by omega
      simp only [BootDraw.goto, DrawPc.work, hturn, Nat.succ_mul]
      omega
    · simp only [BootDraw.goto, DrawPc.work]
      omega
  | glyph stores c y line i x =>
    cases stores with
    | nil =>
      simp only [BootDraw.mainStep, BootDraw.goto, DrawPc.work, List.length_nil]
      omega
    | cons w stores =>
      simp only [BootDraw.mainStep, BootDraw.paint, DrawPc.work, List.length_cons]
      omega
  | next y line =>
    obtain ⟨r, hr, rfl⟩ := h
    rw [BootDraw.mainStep_next, (u32_row hheight hr.le).1]
    split_ifs
    · have hleft := three_le_rowsWork (rowsFrom fb (marginTop + charHeight * r) - 1)
      simp only [DrawPc.work]
      omega
    · simp only [DrawPc.work, rowsFrom_eq]
      rw [Nat.sub_sub]
      exact le_rfl
  | lastTest lastLine =>
    rw [BootDraw.mainStep_lastTest]
    split_ifs
    · exact le_rfl
    · exact Nat.zero_le _
  | stickySet => exact le_rfl
  | done => exact le_rfl

theorem done_of_work {pc : DrawPc} (h : pc.work fb = 0) : pc = .done := by
  cases pc with
  | done => rfl
  | row y line lastLine => exact absurd h (Nat.succ_ne_zero _)
  | _ => exact absurd h (Nat.succ_ne_zero _)

/-- **The redraw ends**, after as many statements of its own, whatever the traps do. -/
theorem done_of_count (font : Font) (hsize : fb.width * fb.height < 2 ^ 31) (hwidth : 0 < fb.width)
    (k : Kernel) {events : List DrawEvent} (hcount : drawWork fb ≤ events.count .main) :
    (run (drawStep font fb) (BootDraw.init k) events).pc = .done := by
  have hwork := run_measure (I := fun m : BootDraw => m.pc.InRange fb) (p := (· == DrawEvent.main))
    (M := fun m : BootDraw => m.pc.work fb) (s := BootDraw.init k) trivial
    (fun m event h => inRange_drawStep font hsize hwidth h event)
    (fun m event h => ?_) events
  · refine done_of_work (Nat.le_zero.1 (hwork.trans ?_))
    exact Nat.le_of_eq (Nat.sub_eq_zero_of_le hcount)
  · cases event with
    | main => exact work_mainStep hsize hwidth h
    | trap t => exact le_rfl

/-! ## The stores to the canvas -/

/-- The indices that a byte from a device has the kernel store to, be they on the canvas or not. -/
def Input.stores (font : Font) (fb : FbGeometry) (s : Display × Mouse) : Input → List ℤ
  | key data =>
    if data = 0xfa then []
    else if (handleScancode font fb s.1.sb data).2 then
      (drawWrites font fb (handleScancode font fb s.1.sb data).1).map fun w => (w.1 : ℤ)
    else []
  | mouse data =>
    (newEffects s.2 (handleMouse fb s.2 data)).filterMap fun
      | .paint i _ => some i
      | _ => none

/-- The indices that a statement of `main` or a trap stores to. -/
def BootDraw.stores (font : Font) (fb : FbGeometry) (m : BootDraw) : DrawEvent → List ℤ
  | .main => (m.pc.nextStore fb).toList.map fun w => (w.1 : ℤ)
  | .trap t => t.input.toList.flatMap (Input.stores font fb (m.kernel.display, m.kernel.mouse))

/-- The stores of a statement of `main` or of a trap are to pixels of the canvas; what the mouse
paints is among them, and no other pixel changes. -/
structure StoresOnCanvas (font : Font) (fb : FbGeometry) (m : BootDraw) (event : DrawEvent) :
    Prop where
  inside : ∀ i ∈ m.stores font fb event, 0 ≤ i ∧ i < fb.width * fb.height
  paints : ∀ i px,
    MouseEffect.paint i px ∈ newEffects m.kernel.mouse (drawStep font fb m event).kernel.mouse →
      i ∈ m.stores font fb event
  frame : ∀ i : ℕ, (i : ℤ) ∉ m.stores font fb event →
    (drawStep font fb m event).kernel.display.canvas i = m.kernel.display.canvas i

theorem nextStore_lt (hsize : fb.width * fb.height < 2 ^ 31) (h : m.pc.InRange fb) {w : ℕ × Rgb}
    (hw : m.pc.nextStore fb = some w) : w.1 < fb.width * fb.height := by
  obtain ⟨pc, k⟩ := m
  cases pc with
  | clear i =>
    unfold DrawPc.nextStore at hw
    dsimp only at hw
    split_ifs at hw with hi
    rw [u32_of_lt (by omega)] at hi
    obtain rfl := Option.some.inj hw
    exact hi
  | glyph stores c y line i x =>
    cases stores with
    | nil => cases hw
    | cons g stores =>
      obtain rfl := Option.some.inj hw
      exact h.2.2 g List.mem_cons_self
  | _ => cases hw

/-! ### Bytes from the devices -/

section

variable {s : Display × Mouse} {input : Input} {i : ℤ}

theorem mem_stores_mouse {data : UInt8} :
    i ∈ Input.stores font fb s (.mouse data) ↔
      ∃ px, MouseEffect.paint i px ∈ newEffects s.2 (handleMouse fb s.2 data) := by
  rw [Input.stores, List.mem_filterMap]
  constructor
  · rintro ⟨e, he, hi⟩
    cases e with
    | paint i' px =>
      obtain rfl := Option.some.inj hi
      exact ⟨px, he⟩
    | _ => cases hi
  · rintro ⟨px, he⟩
    exact ⟨_, he, rfl⟩

theorem stores_input (hsize : fb.width * fb.height < 2 ^ 31) (hwidth : 0 < fb.width)
    (hheight : 0 < fb.height) (hi : i ∈ Input.stores font fb s input) :
    0 ≤ i ∧ i < fb.width * fb.height := by
  cases input with
  | key data =>
    unfold Input.stores at hi
    dsimp only at hi
    split_ifs at hi
    · exact absurd hi List.not_mem_nil
    · obtain ⟨w, hw, rfl⟩ := List.mem_map.1 hi
      exact ⟨Int.natCast_nonneg _, by exact_mod_cast drawWrites_lt hsize hw⟩
    · exact absurd hi List.not_mem_nil
  | mouse data =>
    obtain ⟨px, hpaint⟩ := mem_stores_mouse.1 hi
    exact (paintsInside_of_pos hsize hwidth hheight s.2 data i px hpaint).2.2.2

theorem canvas_input {j : ℕ} (hj : (j : ℤ) ∉ Input.stores font fb s input) :
    (input.exec font fb s).1.canvas j = s.1.canvas j := by
  cases input with
  | key data =>
    unfold Input.stores at hj
    unfold Input.exec keyboardProcessScancode
    dsimp only at hj ⊢
    by_cases hack : data = 0xfa
    · rw [if_pos hack]
    · rw [if_neg hack] at hj ⊢
      cases hkey : handleScancode font fb s.1.sb data with
      | mk sb redraw =>
        rw [hkey] at hj
        cases redraw with
        | false => rfl
        | true =>
          refine applyWrites_of_not_mem fun w hw heq => hj ?_
          exact List.mem_map.2 ⟨w, hw, congrArg Nat.cast heq⟩
  | mouse data =>
    refine applyWrites_of_not_mem fun w hw heq => hj ?_
    obtain ⟨e, he, hw⟩ := List.mem_filterMap.1 hw
    cases e with
    | paint i px =>
      dsimp only at hw
      split_ifs at hw with hpos
      obtain rfl := Option.some.inj hw
      dsimp only at heq
      obtain rfl : i = j := by omega
      exact mem_stores_mouse.2 ⟨px, he⟩
    | _ => cases hw

theorem paint_mem_stores {px : Rgb}
    (hpaint : MouseEffect.paint i px ∈ newEffects s.2 (input.exec font fb s).2) :
    i ∈ Input.stores font fb s input := by
  cases input with
  | key data => simp [newEffects, Input.exec] at hpaint
  | mouse data => exact mem_stores_mouse.2 ⟨px, hpaint⟩

end

theorem routed_drawStep (hr : Routed m.kernel.plic) (event : DrawEvent) :
    Routed (drawStep font fb m event).kernel.plic := by
  cases event with
  | main => exact (mainEffect font fb m).plic ▸ hr
  | trap t => exact (trapStep font fb hr t).plic ▸ hr

/-- **A statement of `main` or a trap** stores to pixels of the canvas only. -/
theorem storesOnCanvas (hsize : fb.width * fb.height < 2 ^ 31) (hwidth : 0 < fb.width)
    (hheight : 0 < fb.height) (h : m.pc.InRange fb) (hr : Routed m.kernel.plic)
    (event : DrawEvent) : StoresOnCanvas font fb m event := by
  cases event with
  | main =>
    have heffect := mainEffect font fb m
    refine ⟨fun i hi => ?_, fun i px hpaint => ?_, fun i hi => ?_⟩
    · obtain ⟨w, hw, rfl⟩ := List.mem_map.1 hi
      have hlt := nextStore_lt hsize h (Option.mem_toList.1 hw)
      exact ⟨Int.natCast_nonneg _, by exact_mod_cast hlt⟩
    · rw [drawStep, heffect.mouse, newEffects, List.drop_length] at hpaint
      exact absurd hpaint List.not_mem_nil
    · rw [drawStep]
      generalize m.mainStep font fb = m' at heffect
      cases heffect with
      | paint w hw pc =>
        refine Function.update_of_ne (fun heq => hi ?_) _ _
        exact List.mem_map.2 ⟨w, Option.mem_toList.2 hw, congrArg Nat.cast heq.symm⟩
      | _ => rfl
  | trap t =>
    have hdevices := (trapStep font fb hr t).devices
    cases hinput : t.input with
    | none =>
      have hstores : m.stores font fb (.trap t) = [] := by
        rw [BootDraw.stores, hinput]
        rfl
      rw [hinput] at hdevices
      obtain ⟨hdisplay, hmouse⟩ := Prod.mk.inj hdevices
      refine ⟨fun i hi => ?_, fun i px hpaint => ?_, fun i _ => ?_⟩
      · rw [hstores] at hi
        exact absurd hi List.not_mem_nil
      · rw [drawStep, hmouse, newEffects, List.drop_length] at hpaint
        exact absurd hpaint List.not_mem_nil
      · rw [drawStep, hdisplay]
    | some input =>
      have hstores : m.stores font fb (.trap t) =
          input.stores font fb (m.kernel.display, m.kernel.mouse) := by
        rw [BootDraw.stores, hinput]
        exact List.append_nil _
      rw [hinput] at hdevices
      have hexec : (_, _) = input.exec font fb (m.kernel.display, m.kernel.mouse) := hdevices
      refine ⟨fun i hi => ?_, fun i px hpaint => ?_, fun i hi => ?_⟩
      · rw [hstores] at hi
        exact stores_input hsize hwidth hheight hi
      · have hnew : MouseEffect.paint i px ∈ newEffects m.kernel.mouse
            (input.exec font fb (m.kernel.display, m.kernel.mouse)).2 := by
          rw [← hexec]
          exact hpaint
        rw [hstores]
        exact paint_mem_stores hnew
      · rw [hstores] at hi
        have hframe := canvas_input hi
        rw [← hexec] at hframe
        exact hframe

end

theorem redraw_of_no_traps (font : Font) (fb : FbGeometry) (k : Kernel) {events : List DrawEvent}
    (hnone : trapsOf events = [])
    (hdone : (run (drawStep font fb) (BootDraw.init k) events).pc = .done) :
    (run (drawStep font fb) (BootDraw.init k) events).kernel =
      { k with display := scrollbackDraw font fb k.display } := by
  obtain ⟨n, rfl⟩ : ∃ n, events = List.replicate n .main := by
    refine ⟨events.length, List.eq_replicate_of_mem fun event hevent => ?_⟩
    cases event with
    | main => rfl
    | trap t => exact absurd (List.filterMap_eq_nil_iff.1 hnone _ hevent) (by simp)
  rw [run_replicate] at hdone ⊢
  have hstays (m : BootDraw) (hm : m.pc = .done) : m.mainStep font fb = m := by
    obtain ⟨pc, k⟩ := m
    obtain rfl : pc = .done := hm
    rfl
  have hreaches : DrawReaches font fb (BootDraw.init k) _ := reaches_draw k
  exact congrArg BootDraw.kernel
    (iterate_eq_of_reaches hreaches (hstays _ rfl) (hstays _ hdone))

/-- **The redraw of `main`, interrupted.** From any state of the kernel with the handlers
registered, on a canvas with pixels, and whatever traps come between the statements of the redraw
of `main`: the text and the shift keys are what the keys alone make of them, every store of `main`
and of a trap is to a pixel of the canvas, so that nothing beside it changes, and the redraw ends;
without traps, it is the redraw of `Marcelov.Draw`. -/
theorem draw_interrupted (font : Font) (fb : FbGeometry) (k : Kernel) (hr : Routed k.plic)
    (hsize : fb.width * fb.height < 2 ^ 31) (hwidth : 0 < fb.width) (hheight : 0 < fb.height)
    (events : List DrawEvent) :
    let m := run (drawStep font fb) (BootDraw.init k) events
    SameTyping (runKeys font fb k.display (keysOf events)).sb m.kernel.display.sb ∧
      Guarded (drawStep font fb) (StoresOnCanvas font fb) (BootDraw.init k) events ∧
      (∀ i, fb.width * fb.height ≤ i → m.kernel.display.canvas i = k.display.canvas i) ∧
      (drawWork fb ≤ events.count .main → m.pc = .done) ∧
      (m.pc = .done → trapsOf events = [] →
        m.kernel = { k with display := scrollbackDraw font fb k.display }) := by
  intro m
  have hstep (m : BootDraw) (event : DrawEvent) (h : m.pc.InRange fb ∧ Routed m.kernel.plic) :
      (drawStep font fb m event).pc.InRange fb ∧ Routed (drawStep font fb m event).kernel.plic :=
    ⟨inRange_drawStep font hsize hwidth h.1 event, routed_drawStep h.2 event⟩
  refine ⟨sameTyping_run (m := BootDraw.init k) (SameTyping.refl _) hr events, ?_, fun i hi => ?_,
    done_of_count font hsize hwidth k, fun hdone hnone => redraw_of_no_traps font fb k hnone hdone⟩
  · exact guarded_of_invariant (s := BootDraw.init k)
      (I := fun m : BootDraw => m.pc.InRange fb ∧ Routed m.kernel.plic) ⟨trivial, hr⟩ hstep
      (fun _ event h => storesOnCanvas hsize hwidth hheight h.1 h.2 event) events
  · refine (run_invariant (s := BootDraw.init k)
      (I := fun m : BootDraw => (m.pc.InRange fb ∧ Routed m.kernel.plic) ∧
        m.kernel.display.canvas i = k.display.canvas i) ⟨⟨trivial, hr⟩, rfl⟩ ?_ events).2
    rintro m event ⟨hinv, hcanvas⟩
    have hstores : StoresOnCanvas font fb m event :=
      storesOnCanvas hsize hwidth hheight hinv.1 hinv.2 event
    refine ⟨hstep m event hinv, (hstores.frame i fun hmem => ?_).trans hcanvas⟩
    have hlt := (hstores.inside i hmem).2
    exact absurd hi (Nat.not_le.2 (by exact_mod_cast hlt))

/-- A key typed after the first statement. -/
theorem draw_interrupted_typing :
    let k : Kernel := ⟨Display.init fun _ => black, Mouse.init, mainPlic, []⟩
    let events : List DrawEvent := [.main, .trap ⟨0x8000000000000009, 12, 0x10, 0⟩, .main]
    (run (drawStep .monaco mainFb) (BootDraw.init k) events).kernel.display.sb.currColumn = 1 :=
  (draw_interrupted .monaco mainFb ⟨Display.init fun _ => black, Mouse.init, mainPlic, []⟩
    routed_mainPlic (by decide) (by decide) (by decide) _).1.text.currColumn.trans (by decide)

end Marcelov
