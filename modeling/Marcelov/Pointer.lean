import Marcelov.Mouse
import Marcelov.Pixels

/-!
# The pointer and the canvas

`mouse_process_event` keeps `mouse_x` and `mouse_y` inside the canvas before it paints, by the
geometry that `fb_init` has left. On a canvas without pixels, such as the one of a failed
`fb_init`, there is no such position: the clamp gives -1, and the pixel painted is not one of
the canvas. `paints_inside_iff` says which byte streams meet it.
-/

namespace Marcelov

open Lib

/-! ## The packets of a byte stream -/

/-- The packets in a stream of bytes: 0xFA between packets is none. -/
def packetsOf : List UInt8 → List MousePacket
  | [] => []
  | b0 :: rest =>
    if b0 = 0xfa then packetsOf rest
    else
      match rest with
      | b1 :: b2 :: rest => ⟨b0, b1, b2⟩ :: packetsOf rest
      | _ => []

/-- `packetsOf` gives the packets that `mouse_process_event` is called with, for every stream. -/
theorem events_run (fb : FbGeometry) {m : Mouse} (h : m.state = .waitByte0) (bytes : List UInt8) :
    (run (handleMouse fb) m bytes).events = m.events ++ packetsOf bytes := by
  fun_induction packetsOf bytes generalizing m with
  | case1 => exact (List.append_nil _).symm
  | case2 rest ih =>
    obtain ⟨hstate, hevents⟩ := handleMouse_ack fb h
    rw [run_cons, ih hstate, hevents]
  | case3 b0 hack b1 b2 rest ih =>
    obtain ⟨hstate, hevents⟩ := handleMouse_packet fb h (p := ⟨b0, b1, b2⟩) hack
    simp only [MouseSent.bytes, run_cons, run_nil] at hstate hevents
    rw [run_cons, run_cons, run_cons, ih hstate, hevents, List.append_assoc]
    rfl
  | case4 b0 rest hack hshort =>
    rcases rest with - | ⟨b1, - | ⟨b2, rest⟩⟩
    · rw [run_cons, run_nil, handleMouse_byte0 fb h hack]
      exact (List.append_nil _).symm
    · rw [run_cons, run_cons, run_nil, handleMouse_byte01 fb h hack]
      exact (List.append_nil _).symm
    · exact absurd rfl (hshort b1 b2 rest)

def MousePacket.Left (p : MousePacket) : Prop := p.byte0 &&& 1 ≠ 0

instance (p : MousePacket) : Decidable p.Left := inferInstanceAs (Decidable (_ ≠ _))

/-! ## What a step paints -/

/-- What `handle_mouse` has printed and painted between two states. -/
def newEffects (m m' : Mouse) : List MouseEffect := m'.effects.drop m.effects.length

/-- The pixels painted between two states are at the pointer, and on the canvas. -/
def Inside (fb : FbGeometry) (m m' : Mouse) : Prop :=
  ∀ i px, MouseEffect.paint i px ∈ newEffects m m' →
    (0 ≤ m'.x ∧ m'.x < fb.width) ∧ (0 ≤ m'.y ∧ m'.y < fb.height) ∧
      i = m'.y * fb.width + m'.x ∧ 0 ≤ i ∧ i < fb.width * fb.height

/-- What `handle_mouse` paints for a byte is on the canvas. -/
def PaintsInside (fb : FbGeometry) (m : Mouse) (data : UInt8) : Prop :=
  Inside fb m (handleMouse fb m data)

section

variable {fb : FbGeometry} {m : Mouse}

theorem clampAxis_bounds {limit : ℕ} (hpos : 0 < limit) (hlimit : limit < 2 ^ 31) (v : ℤ) :
    0 ≤ clampAxis limit (toI32 v) ∧ clampAxis limit (toI32 v) < limit := by
  have hlow : -(2 ^ 31) ≤ toI32 v := Int.le_bmod (by decide)
  have hhigh : toI32 v < 2 ^ 31 := Int.bmod_lt (by decide)
  have hpred : toI32 (limit - 1) = limit - 1 := by
    have h := toI32_of_lt (n := limit - 1) (by omega)
    rwa [Int.ofNat_sub hpos] at h
  unfold clampAxis
  dsimp only
  split_ifs with hneg hge hge
  · rw [hpred]
    omega
  · omega
  · rw [hpred]
    omega
  · rw [toU32] at hge
    omega

theorem mem_printButton {old new : Bool} {down up : String} {i : ℤ} {px : Rgb} :
    MouseEffect.paint i px ∉ printButton old new down up := by
  unfold printButton
  split_ifs <;> simp

theorem paint_mem_newEffects (fb : FbGeometry) (m : Mouse) {i : ℤ} {px : Rgb} :
    MouseEffect.paint i px ∈ newEffects m (mouseProcessEvent fb m) ↔
      m.packet.Left ∧
        i = toI32 (u32 (u32 (toU32 (mouseProcessEvent fb m).y * fb.width) +
          toU32 (mouseProcessEvent fb m).x)) ∧
        px = ⟨(toU32 (mouseProcessEvent fb m).x).toUInt8,
          (toU32 (mouseProcessEvent fb m).y).toUInt8, 0, 0⟩ := by
  unfold mouseProcessEvent newEffects Mouse.emit MousePacket.Left
  dsimp only
  rw [List.drop_left]
  by_cases hleft : m.packet.byte0 &&& 1 = 0 <;> simp [hleft, mem_printButton]

theorem mouseProcessEvent_x (fb : FbGeometry) (m : Mouse) : ∃ v, (mouseProcessEvent fb m).x =
    clampAxis fb.width (toI32 v) := ⟨_, rfl⟩

theorem mouseProcessEvent_y (fb : FbGeometry) (m : Mouse) : ∃ v, (mouseProcessEvent fb m).y =
    clampAxis fb.height (toI32 v) := ⟨_, rfl⟩

/-- The clamps leave the pointer on a canvas that has pixels. -/
theorem mouseProcessEvent_onCanvas (hsize : fb.width * fb.height < 2 ^ 31) (hwidth : 0 < fb.width)
    (hheight : 0 < fb.height) (m : Mouse) :
    (0 ≤ (mouseProcessEvent fb m).x ∧ (mouseProcessEvent fb m).x < fb.width) ∧
      0 ≤ (mouseProcessEvent fb m).y ∧ (mouseProcessEvent fb m).y < fb.height := by
  have hwle : fb.width ≤ fb.width * fb.height := Nat.le_mul_of_pos_right _ hheight
  have hhle : fb.height ≤ fb.width * fb.height := Nat.le_mul_of_pos_left _ hwidth
  obtain ⟨vx, hvx⟩ := mouseProcessEvent_x fb m
  obtain ⟨vy, hvy⟩ := mouseProcessEvent_y fb m
  rw [hvx, hvy]
  exact ⟨clampAxis_bounds hwidth (by omega) vx, clampAxis_bounds hheight (by omega) vy⟩

theorem canvasIndex_eq (hsize : fb.width * fb.height < 2 ^ 31) {x y : ℕ} (hx : x < fb.width)
    (hy : y < fb.height) :
    toI32 (u32 (u32 (toU32 y * fb.width) + toU32 x)) = (y * fb.width + x : ℕ) := by
  have hlt : y * fb.width + x < fb.width * fb.height := pixel_lt hx hy
  rw [toU32_natCast (hx.trans fb.width_lt), toU32_natCast (hy.trans fb.height_lt),
    u32_of_lt (n := y * fb.width) (by omega), u32_of_lt (by omega), toI32_of_lt (by omega)]

/-- **One packet.** What is painted for it is on the canvas exactly when the canvas has pixels,
or nothing is painted. -/
theorem paints_packet_iff (hsize : fb.width * fb.height < 2 ^ 31) (m : Mouse) :
    Inside fb m (mouseProcessEvent fb m) ↔
      (0 < fb.width ∧ 0 < fb.height) ∨ ¬ m.packet.Left := by
  constructor
  · intro hin
    by_cases hleft : m.packet.Left
    · have hpaint := (paint_mem_newEffects fb m).2 ⟨hleft, rfl, rfl⟩
      obtain ⟨hx, hy, -⟩ := hin _ _ hpaint
      exact Or.inl ⟨by omega, by omega⟩
    · exact Or.inr hleft
  · intro hcanvas i px hpaint
    obtain ⟨hleft, hi, -⟩ := (paint_mem_newEffects fb m).1 hpaint
    obtain ⟨hwidth, hheight⟩ := hcanvas.resolve_right (not_not_intro hleft)
    obtain ⟨hx, hy⟩ := mouseProcessEvent_onCanvas hsize hwidth hheight m
    obtain ⟨x, hxn⟩ := Int.eq_ofNat_of_zero_le hx.1
    obtain ⟨y, hyn⟩ := Int.eq_ofNat_of_zero_le hy.1
    rw [hxn] at hi hx ⊢
    rw [hyn] at hi hy ⊢
    have hxlt : x < fb.width := Int.ofNat_lt.1 hx.2
    have hylt : y < fb.height := Int.ofNat_lt.1 hy.2
    rw [canvasIndex_eq hsize hxlt hylt] at hi
    rw [hi]
    refine ⟨hx, hy, ?_, ?_, ?_⟩
    · exact Int.natCast_add _ _
    · exact Int.natCast_nonneg _
    · exact Int.ofNat_lt.2 (pixel_lt hxlt hylt)

end

/-! ## The result -/

section

variable {fb : FbGeometry} {m : Mouse}

theorem paintsInside_of_ne (fb : FbGeometry) (data : UInt8) (h : m.state ≠ .waitByte2) :
    PaintsInside fb m data := by
  intro i px hpaint
  have hnone : MouseEffect.paint i px ∉ newEffects m (handleMouse fb m data) := by
    unfold handleMouse newEffects
    split_ifs with hack
    · simp [Mouse.emit]
    · cases hstate : m.state with
      | waitByte0 => simp
      | waitByte1 => simp
      | waitByte2 => exact absurd hstate h
  exact absurd hpaint hnone

theorem paintsInside_packet_iff (hsize : fb.width * fb.height < 2 ^ 31) {p : MousePacket}
    (h : m.state = .waitByte2) (h0 : m.packet.byte0 = p.byte0) (h1 : m.packet.byte1 = p.byte1) :
    PaintsInside fb m p.byte2 ↔ (0 < fb.width ∧ 0 < fb.height) ∨ ¬ p.Left := by
  rw [PaintsInside, handleMouse_byte2 fb h]
  dsimp only
  rw [h0, h1]
  exact paints_packet_iff hsize { m with packet := p, state := .waitByte0 }

theorem paintsInside_of_pos (hsize : fb.width * fb.height < 2 ^ 31) (hwidth : 0 < fb.width)
    (hheight : 0 < fb.height) (m : Mouse) (data : UInt8) : PaintsInside fb m data := by
  by_cases h : m.state = .waitByte2
  · exact (paintsInside_packet_iff (p := { m.packet with byte2 := data }) hsize h rfl rfl).2
      (Or.inl ⟨hwidth, hheight⟩)
  · exact paintsInside_of_ne fb data h

/-- From between packets, every step paints on the canvas exactly when the canvas has pixels, or
no packet of the stream has the left button down. -/
theorem guarded_paintsInside_iff (hsize : fb.width * fb.height < 2 ^ 31) (bytes : List UInt8)
    (h : m.state = .waitByte0) :
    Guarded (handleMouse fb) (PaintsInside fb) m bytes ↔
      (0 < fb.width ∧ 0 < fb.height) ∨ ∀ p ∈ packetsOf bytes, ¬ p.Left := by
  fun_induction packetsOf bytes generalizing m with
  | case1 => simp [Guarded]
  | case2 rest ih =>
    rw [Guarded, ih (handleMouse_ack fb h).1]
    exact and_iff_right (paintsInside_of_ne fb 0xfa (by simp [h]))
  | case3 b0 hack b1 b2 rest ih =>
    have hfirst : PaintsInside fb m b0 := paintsInside_of_ne fb b0 (by simp [h])
    have hsecond : PaintsInside fb (handleMouse fb m b0) b1 :=
      paintsInside_of_ne fb b1 (by simp [handleMouse_byte0 fb h hack])
    have hstate := (handleMouse_packet fb h (p := ⟨b0, b1, b2⟩) hack).1
    simp only [MouseSent.bytes, run_cons, run_nil] at hstate
    simp only [Guarded, List.forall_mem_cons]
    rw [ih hstate, handleMouse_byte01 fb h hack,
      paintsInside_packet_iff hsize (p := ⟨b0, b1, b2⟩) rfl rfl rfl, or_and_left]
    exact ⟨fun hg => hg.2.2, fun hg => ⟨hfirst, hsecond, hg⟩⟩
  | case4 b0 rest hack hshort =>
    -- the stream ends inside a packet
    have hfirst : PaintsInside fb m b0 := paintsInside_of_ne fb b0 (by simp [h])
    have hsecond (data : UInt8) : PaintsInside fb (handleMouse fb m b0) data :=
      paintsInside_of_ne fb data (by simp [handleMouse_byte0 fb h hack])
    rcases rest with - | ⟨b1, - | ⟨b2, rest⟩⟩
    · simp [Guarded, hfirst]
    · simp [Guarded, hfirst, hsecond]
    · exact absurd rfl (hshort b1 b2 rest)

/-- **The pointer stays on the canvas.** For every stream of bytes, from the initial state:
everything that `handle_mouse` paints is at a position inside the canvas, and to a pixel of it,
exactly when the canvas has pixels at all or no packet has the left button down. -/
theorem paints_inside_iff (fb : FbGeometry) (bytes : List UInt8)
    (hsize : fb.width * fb.height < 2 ^ 31) :
    Guarded (handleMouse fb) (PaintsInside fb) Mouse.init bytes ↔
      (0 < fb.width ∧ 0 < fb.height) ∨ ∀ p ∈ packetsOf bytes, ¬ p.Left :=
  guarded_paintsInside_iff hsize bytes rfl

/-- A drag on the 640x480 screen. -/
theorem paints_inside_drag :
    Guarded (handleMouse mainFb) (PaintsInside mainFb) Mouse.init [0xfa, 0x09, 3, 5, 0x29, 0, 0] :=
  (paints_inside_iff mainFb [0xfa, 0x09, 3, 5, 0x29, 0, 0] (by decide)).2 (Or.inl (by decide))

/-- The canvas that a failed `fb_init` leaves. -/
def noFb : FbGeometry := ⟨0, 0, by decide, by decide⟩

/-- A click with no canvas paints at the index -1. -/
theorem not_paints_inside_click :
    ¬ Guarded (handleMouse noFb) (PaintsInside noFb) Mouse.init [0x09, 0, 0] := by
  rintro ⟨-, -, hlast, -⟩
  obtain ⟨hx, -⟩ := hlast (-1) ⟨255, 255, 0, 0⟩ (by decide)
  exact absurd hx (by decide)

end

end Marcelov
