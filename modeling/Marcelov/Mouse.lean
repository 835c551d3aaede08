import Marcelov.Fb
import Marcelov.Lib.Run

/-!
# The mouse

`handle_mouse` and `mouse_process_event` of `kernel.c`. `effects` is a ghost: what the two
functions print and paint, and each call of `mouse_process_event` with the bytes it finds, in
order.

`mouse_framing` says which packets are decoded: all of those sent, provided none begins with
the byte 0xFA, which the state machine takes for an acknowledgement between packets.
-/

namespace Marcelov

open Lib

/-! ## The variables -/

inductive MouseState where
  | waitByte0
  | waitByte1
  | waitByte2
  deriving DecidableEq

/-- `mouse_byte0`, `mouse_byte1` and `mouse_byte2`. -/
structure MousePacket where
  byte0 : UInt8
  byte1 : UInt8
  byte2 : UInt8
  deriving DecidableEq

inductive MouseEffect where
  | print (text : String)
  | processEvent (packet : MousePacket)
  /-- `fb.canvas[i] = px` -/
  | paint (i : ℤ) (px : Rgb)
  deriving DecidableEq

structure Mouse where
  state : MouseState
  packet : MousePacket
  x : ℤ
  y : ℤ
  left : Bool
  mid : Bool
  right : Bool
  effects : List MouseEffect

namespace Mouse

/-- The state after `zero_bss`. -/
def init : Mouse where
  state := .waitByte0
  packet := ⟨0, 0, 0⟩
  x := 0
  y := 0
  left := false
  mid := false
  right := false
  effects := []

def emit (m : Mouse) (es : List MouseEffect) : Mouse := { m with effects := m.effects ++ es }

/-- The packets `mouse_process_event` was called with, in order. -/
def events (m : Mouse) : List MousePacket :=
  m.effects.filterMap fun
    | .processEvent packet => some packet
    | _ => none

end Mouse

/-! ## `mouse_process_event` -/

/-- `if (v < 0) v = 0; if (limit <= v) v = limit - 1;`, where the second comparison and the
subtraction are unsigned. -/
def clampAxis (limit : ℕ) (v : ℤ) : ℤ :=
  let v := if v < 0 then 0 else v
  if limit ≤ toU32 v then toI32 (limit - 1) else v

/-- `if (old != new) print(new ? down : up)` -/
def printButton (old new : Bool) (down up : String) : List MouseEffect :=
  if old = new then [] else [.print (if new then down else up)]

def mouseProcessEvent (fb : FbGeometry) (m : Mouse) : Mouse :=
  let left := m.packet.byte0 &&& 1 != 0
  let right := m.packet.byte0 &&& 2 != 0
  let mid := m.packet.byte0 &&& 4 != 0
  let xOffset : ℤ := m.packet.byte1.toNat - if m.packet.byte0 &&& 16 != 0 then 0x100 else 0
  let yOffset : ℤ := m.packet.byte2.toNat - if m.packet.byte0 &&& 32 != 0 then 0x100 else 0
  let x := clampAxis fb.width (toI32 (m.x - xOffset))
  let y := clampAxis fb.height (toI32 (m.y + yOffset))
  let buttons :=
    printButton m.left left "Left button down\n" "Left button up\n" ++
    printButton m.mid mid "Middle button down\n" "Middle button up\n" ++
    printButton m.right right "Right button down\n" "Right button up\n"
  let paints :=
    if left then
      -- `int i = mouse_y * fb.width + mouse_x` is computed in 32 unsigned bits
      let i := toI32 (u32 (u32 (toU32 y * fb.width) + toU32 x))
      [MouseEffect.paint i ⟨(toU32 x).toUInt8, (toU32 y).toUInt8, 0, 0⟩]
    else []
  { m with x, y, left, mid, right }.emit (MouseEffect.processEvent m.packet :: buttons ++ paints)

/-! ## `handle_mouse` -/

def handleMouse (fb : FbGeometry) (m : Mouse) (data : UInt8) : Mouse :=
  if m.state = .waitByte0 ∧ data = 0xfa then m.emit [.print "Received ACK from mouse\n"]
  else
    match m.state with
    | .waitByte0 => { m with packet := { m.packet with byte0 := data }, state := .waitByte1 }
    | .waitByte1 => { m with packet := { m.packet with byte1 := data }, state := .waitByte2 }
    | .waitByte2 =>
      mouseProcessEvent fb
        { m with packet := { m.packet with byte2 := data }, state := .waitByte0 }

/-! ## What the device sends -/

inductive MouseSent where
  | ack
  | packet (p : MousePacket)

namespace MouseSent

def bytes : MouseSent → List UInt8
  | ack => [0xfa]
  | packet p => [p.byte0, p.byte1, p.byte2]

def packets : List MouseSent → List MousePacket
  | [] => []
  | ack :: sent => packets sent
  | packet p :: sent => p :: packets sent

end MouseSent

/-! ## Framing -/

section

variable (fb : FbGeometry) {m : Mouse}

theorem mouseProcessEvent_state (m : Mouse) : (mouseProcessEvent fb m).state = m.state := rfl

theorem filterMap_printButton {α : Type*} (old new : Bool) (down up : String)
    {f : MouseEffect → Option α} (hf : ∀ text, f (.print text) = none) :
    (printButton old new down up).filterMap f = [] := by
  unfold printButton
  split_ifs <;> simp [hf]

theorem mouseProcessEvent_events (m : Mouse) :
    (mouseProcessEvent fb m).events = m.events ++ [m.packet] := by
  unfold mouseProcessEvent Mouse.events Mouse.emit
  dsimp only
  rw [List.filterMap_append]
  congr 1
  split_ifs <;> simp [filterMap_printButton]

/-- Between packets, an acknowledgement is no event. -/
theorem handleMouse_ack (h : m.state = .waitByte0) :
    (handleMouse fb m 0xfa).state = .waitByte0 ∧ (handleMouse fb m 0xfa).events = m.events := by
  rw [handleMouse, if_pos ⟨h, rfl⟩]
  exact ⟨h, by simp [Mouse.events, Mouse.emit]⟩

theorem handleMouse_byte0 (h : m.state = .waitByte0) {data : UInt8} (hack : data ≠ 0xfa) :
    handleMouse fb m data =
      { m with packet := { m.packet with byte0 := data }, state := .waitByte1 } := by
  rw [handleMouse, if_neg fun hc => hack hc.2, h]

theorem handleMouse_byte1 (h : m.state = .waitByte1) (data : UInt8) :
    handleMouse fb m data =
      { m with packet := { m.packet with byte1 := data }, state := .waitByte2 } := by
  rw [handleMouse, if_neg (by simp [h]), h]

theorem handleMouse_byte01 (h : m.state = .waitByte0) {b0 : UInt8} (hack : b0 ≠ 0xfa)
    (b1 : UInt8) :
    handleMouse fb (handleMouse fb m b0) b1 =
      { m with packet := { m.packet with byte0 := b0, byte1 := b1 }, state := .waitByte2 } := by
  rw [handleMouse_byte0 fb h hack]
  exact handleMouse_byte1 fb rfl b1

theorem handleMouse_byte2 (h : m.state = .waitByte2) (data : UInt8) :
    handleMouse fb m data =
      mouseProcessEvent fb
        { m with packet := { m.packet with byte2 := data }, state := .waitByte0 } := by
  rw [handleMouse, if_neg (by simp [h]), h]

/-- Between packets, the three bytes of a packet that does not begin with 0xFA are one event. -/
theorem handleMouse_packet (h : m.state = .waitByte0) {p : MousePacket} (hp : p.byte0 ≠ 0xfa) :
    (run (handleMouse fb) m (MouseSent.packet p).bytes).state = .waitByte0 ∧
      (run (handleMouse fb) m (MouseSent.packet p).bytes).events = m.events ++ [p] := by
  have hrun : run (handleMouse fb) m (MouseSent.packet p).bytes =
      mouseProcessEvent fb { m with packet := p, state := .waitByte0 } := by
    rw [MouseSent.bytes, run_cons, run_cons, run_cons, run_nil, handleMouse_byte01 fb h hp]
    exact handleMouse_byte2 fb rfl p.byte2
  rw [hrun, mouseProcessEvent_state, mouseProcessEvent_events]
  exact ⟨rfl, rfl⟩

theorem handleMouse_run {sent : List MouseSent} (h : m.state = .waitByte0)
    (hsent : ∀ p ∈ MouseSent.packets sent, p.byte0 ≠ 0xfa) :
    (run (handleMouse fb) m (sent.flatMap MouseSent.bytes)).state = .waitByte0 ∧
      (run (handleMouse fb) m (sent.flatMap MouseSent.bytes)).events =
        m.events ++ MouseSent.packets sent := by
  induction sent generalizing m with
  | nil => exact ⟨h, (List.append_nil _).symm⟩
  | cons item sent ih =>
    rw [List.flatMap_cons, run_append]
    cases item with
    | ack =>
      obtain ⟨hstate, hevents⟩ := handleMouse_ack fb h
      have hrest := ih hstate hsent
      rw [hevents] at hrest
      exact hrest
    | packet p =>
      obtain ⟨hstate, hevents⟩ := handleMouse_packet fb h (hsent p List.mem_cons_self)
      have hrest := ih hstate fun q hq => hsent q (List.mem_cons_of_mem p hq)
      rw [hevents, List.append_assoc] at hrest
      exact hrest

end

/-- **Mouse packets are framed**: fed byte by byte to `handle_mouse`, acknowledgements and
packets in any order, none of which begins with 0xFA, give one call of `mouse_process_event`
for each packet, in order, with its bytes, and leave the machine waiting for the next. -/
theorem mouse_framing (fb : FbGeometry) (sent : List MouseSent)
    (hsent : ∀ p ∈ MouseSent.packets sent, p.byte0 ≠ 0xfa) :
    let m := run (handleMouse fb) Mouse.init (sent.flatMap MouseSent.bytes)
    m.events = MouseSent.packets sent ∧ m.state = .waitByte0 := by
  obtain ⟨hstate, hevents⟩ := handleMouse_run fb (m := Mouse.init) rfl hsent
  exact ⟨hevents, hstate⟩

/-- An acknowledgement, a packet with two bytes 0xFA in it, and another acknowledgement. -/
theorem mouse_framing_acks :
    let sent : List MouseSent := [.ack, .packet ⟨0x08, 0xfa, 0xfa⟩, .ack]
    let m := run (handleMouse mainFb) Mouse.init (sent.flatMap MouseSent.bytes)
    m.events = MouseSent.packets sent ∧ m.state = .waitByte0 :=
  mouse_framing mainFb [.ack, .packet ⟨0x08, 0xfa, 0xfa⟩, .ack]
    (by decide)

/-- A packet that begins with 0xFA (both signs, both overflows and the right button) is not
decoded, and leaves the machine in the middle of a packet. -/
theorem mouse_packet_as_ack :
    let sent : List MouseSent := [.packet ⟨0xfa, 0, 0⟩]
    let m := run (handleMouse mainFb) Mouse.init (sent.flatMap MouseSent.bytes)
    (0xfa : UInt8) &&& 8 ≠ 0 ∧ ¬ (m.events = MouseSent.packets sent ∧ m.state = .waitByte0) := by
  decide

end Marcelov
