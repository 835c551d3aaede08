import Mathlib.Data.List.Destutter
import Marcelov.Pointer

/-!
# The buttons of the mouse

`mouse_process_event` prints a message when a button changes, and paints while the left one is
down. `buttons_logged` is about the whole log of a stream of bytes: the messages of a button are
the changes of its bit from packet to packet, who reads them knows the three variables, and every
stroke of the pointer is between the two messages of a press.
-/

namespace Marcelov

open Lib

/-! ## The messages -/

inductive MouseButton where
  | left
  | mid
  | right
  deriving DecidableEq

namespace MouseButton

/-- The bit of the button in the first byte of a packet. -/
def mask : MouseButton → UInt8
  | left => 1
  | mid => 4
  | right => 2

/-- What is printed when the button goes down or up. -/
def text : MouseButton → Bool → String
  | left, true => "Left button down\n"
  | left, false => "Left button up\n"
  | mid, true => "Middle button down\n"
  | mid, false => "Middle button up\n"
  | right, true => "Right button down\n"
  | right, false => "Right button up\n"

def isDown (b : MouseButton) (p : MousePacket) : Bool := p.byte0 &&& b.mask != 0

/-- `mouse_left`, `mouse_mid` and `mouse_right`. -/
def var (m : Mouse) : MouseButton → Bool
  | left => m.left
  | mid => m.mid
  | right => m.right

/-- What an entry of the log says of the button. -/
def read (b : MouseButton) : MouseEffect → Option Bool
  | .print text =>
    if text = b.text true then some true else if text = b.text false then some false else none
  | _ => none

/-- The messages of the button in a log. -/
def messages (b : MouseButton) (log : List MouseEffect) : List Bool := log.filterMap b.read

end MouseButton

/-- Who reads the log, entry by entry. -/
def readLog (held : MouseButton → Bool) (e : MouseEffect) : MouseButton → Bool :=
  fun b => (b.read e).getD (held b)

def MouseEffect.isPaint : MouseEffect → Bool
  | .paint _ _ => true
  | _ => false

/-- A stroke comes when the left button is down, as far as the log says. -/
def PenDown (held : MouseButton → Bool) (e : MouseEffect) : Prop :=
  e.isPaint = true → held .left = true

/-! ## One packet -/

section

variable (fb : FbGeometry) (m : Mouse)

def buttonChange (b : MouseButton) : List MouseEffect :=
  printButton (b.var m) (b.isDown m.packet) (b.text true) (b.text false)

def strokes : List MouseEffect :=
  if MouseButton.left.isDown m.packet then
    let m' := mouseProcessEvent fb m
    [.paint (toI32 (u32 (u32 (toU32 m'.y * fb.width) + toU32 m'.x)))
      ⟨(toU32 m'.x).toUInt8, (toU32 m'.y).toUInt8, 0, 0⟩]
  else []

theorem mouseProcessEvent_effects :
    (mouseProcessEvent fb m).effects = m.effects ++
      (.processEvent m.packet :: (buttonChange m .left ++ buttonChange m .mid ++
        buttonChange m .right ++ strokes fb m)) := rfl

theorem mouseProcessEvent_var (b : MouseButton) :
    b.var (mouseProcessEvent fb m) = b.isDown m.packet := by
  cases b <;> rfl

variable {fb m}

/-- The three buttons have six texts. -/
theorem read_text (b b' : MouseButton) (down : Bool) :
    b.read (.print (b'.text down)) = if b = b' then some down else none := by
  cases b <;> cases b' <;> cases down <;> rfl

/-- A message comes exactly when the bit is not what the variable was. -/
theorem messages_buttonChange (b b' : MouseButton) :
    b.messages (buttonChange m b') =
      if b = b' ∧ b.var m ≠ b.isDown m.packet then [b.isDown m.packet] else [] := by
  unfold buttonChange printButton MouseButton.messages
  by_cases hsame : b'.var m = b'.isDown m.packet
  · rw [if_pos hsame, if_neg]
    · rfl
    · intro hne
      rw [hne.1] at hne
      exact hne.2 hsame
  · rw [if_neg hsame, ← apply_ite b'.text, List.filterMap_cons, read_text]
    by_cases hb : b = b'
    · subst hb
      simp [hsame]
    · simp [hb]

theorem messages_strokes (b : MouseButton) : b.messages (strokes fb m) = [] := by
  unfold strokes
  split_ifs
  · rfl
  · rfl

theorem messages_mouseProcessEvent (b : MouseButton) :
    b.messages (mouseProcessEvent fb m).effects = b.messages m.effects ++
      if b.var m = b.isDown m.packet then [] else [b.isDown m.packet] := by
  have happend (l l' : List MouseEffect) : b.messages (l ++ l') = b.messages l ++ b.messages l' :=
    List.filterMap_append
  have hevent (l : List MouseEffect) :
      b.messages (.processEvent m.packet :: l) = b.messages l := rfl
  rw [mouseProcessEvent_effects, happend, hevent, happend, happend, happend, messages_strokes,
    messages_buttonChange, messages_buttonChange, messages_buttonChange]
  cases b <;> simp [ite_not]

/-! ## Who reads the log -/

theorem run_readLog (held : MouseButton → Bool) (log : List MouseEffect) (b : MouseButton) :
    run readLog held log b = (b.messages log).getLastD (held b) := by
  induction log generalizing held with
  | nil => rfl
  | cons e log ih =>
    rw [run_cons, ih, readLog, MouseButton.messages, MouseButton.messages, List.filterMap_cons]
    cases b.read e with
    | none => rfl
    | some down => exact (List.getLastD_cons ..).symm

/-- A reader who knew the variables before a packet knows them after it. -/
theorem run_readLog_mouseProcessEvent {held : MouseButton → Bool}
    (h : ∀ b, run readLog held m.effects b = b.var m) (b : MouseButton) :
    run readLog held (mouseProcessEvent fb m).effects b = b.var (mouseProcessEvent fb m) := by
  have hb := h b
  rw [run_readLog] at hb
  rw [run_readLog, messages_mouseProcessEvent, mouseProcessEvent_var]
  split_ifs with hsame
  · rw [List.append_nil, hb, hsame]
  · exact List.getLastD_concat ..

theorem guarded_penDown_of_forall {held : MouseButton → Bool} {log : List MouseEffect}
    (h : ∀ e ∈ log, e.isPaint = false) : Guarded readLog PenDown held log := by
  induction log generalizing held with
  | nil => trivial
  | cons e log ih =>
    refine ⟨fun hpaint => ?_, ih fun e' he' => h e' (List.mem_cons_of_mem e he')⟩
    rw [h e List.mem_cons_self] at hpaint
    exact absurd hpaint Bool.false_ne_true

theorem isPaint_of_mem_buttonChange {b : MouseButton} {e : MouseEffect}
    (he : e ∈ buttonChange m b) : e.isPaint = false := by
  unfold buttonChange printButton at he
  split_ifs at he
  · cases he
  · rw [List.mem_singleton.1 he]
    rfl
  · rw [List.mem_singleton.1 he]
    rfl

theorem penDown_mouseProcessEvent {held : MouseButton → Bool}
    (h : ∀ b, run readLog held m.effects b = b.var m)
    (hpen : Guarded readLog PenDown held m.effects) :
    Guarded readLog PenDown held (mouseProcessEvent fb m).effects := by
  have hread : run readLog held (mouseProcessEvent fb m).effects .left = _ :=
    run_readLog_mouseProcessEvent h .left
  rw [mouseProcessEvent_effects, ← List.cons_append, ← List.append_assoc] at hread ⊢
  rw [guarded_append, guarded_append]
  refine ⟨⟨hpen, guarded_penDown_of_forall fun e he => ?_⟩, ?_⟩
  · simp only [List.mem_cons, List.mem_append] at he
    rcases he with rfl | (he | he) | he
    · rfl
    · exact isPaint_of_mem_buttonChange he
    · exact isPaint_of_mem_buttonChange he
    · exact isPaint_of_mem_buttonChange he
  · -- the strokes say nothing of the button: it is down before them if it is after them
    rw [run_append, run_readLog, messages_strokes, mouseProcessEvent_var] at hread
    unfold strokes
    split_ifs with hdown
    · exact ⟨fun _ => hread.trans hdown, trivial⟩
    · trivial

theorem countP_isPaint_mouseProcessEvent :
    (mouseProcessEvent fb m).effects.countP MouseEffect.isPaint =
      m.effects.countP MouseEffect.isPaint +
        if MouseButton.left.isDown m.packet then 1 else 0 := by
  have hnone (b : MouseButton) : (buttonChange m b).countP MouseEffect.isPaint = 0 :=
    List.countP_eq_zero.2 fun e he => by simp [isPaint_of_mem_buttonChange he]
  have hstrokes : (strokes fb m).countP MouseEffect.isPaint =
      if MouseButton.left.isDown m.packet then 1 else 0 := by
    unfold strokes
    split_ifs
    · rfl
    · rfl
  rw [mouseProcessEvent_effects, List.countP_append, List.countP_cons, List.countP_append,
    List.countP_append, List.countP_append, hnone, hnone, hnone, hstrokes]
  simp [MouseEffect.isPaint]

end

/-! ## A stream of bytes -/

section

variable {fb : FbGeometry}

/-- **The rule of a stream**: what acknowledgements, bytes and packets keep holds after it. -/
theorem mouse_stream {P : Mouse → List MousePacket → Prop}
    (hack : ∀ m ps, P m ps → P (m.emit [.print "Received ACK from mouse\n"]) ps)
    (hbyte : ∀ m ps packet state, P m ps → P { m with packet := packet, state := state } ps)
    (hpacket : ∀ m ps, P m ps → P (mouseProcessEvent fb m) (ps ++ [m.packet])) {m : Mouse}
    {ps : List MousePacket} (h : m.state = .waitByte0) (hP : P m ps) (bytes : List UInt8) :
    P (run (handleMouse fb) m bytes) (ps ++ packetsOf bytes) := by
  fun_induction packetsOf bytes generalizing m ps with
  | case1 =>
    rw [List.append_nil]
    exact hP
  | case2 rest ih =>
    have hemit : handleMouse fb m 0xfa = m.emit [.print "Received ACK from mouse\n"] :=
      if_pos ⟨h, rfl⟩
    rw [run_cons, hemit]
    exact ih h (hack m ps hP)
  | case3 b0 hnack b1 b2 rest ih =>
    rw [run_cons, run_cons, run_cons, handleMouse_byte01 fb h hnack, handleMouse_byte2 fb rfl,
      List.append_cons]
    exact ih rfl (hpacket _ _ (hbyte m ps _ _ hP))
  | case4 b0 rest hnack hshort =>
    rw [List.append_nil]
    rcases rest with - | ⟨b1, - | ⟨b2, rest⟩⟩
    · rw [run_cons, run_nil, handleMouse_byte0 fb h hnack]
      exact hbyte m ps _ _ hP
    · rw [run_cons, run_cons, run_nil, handleMouse_byte01 fb h hnack]
      exact hbyte m ps _ _ hP
    · exact absurd rfl (hshort b1 b2 rest)

/-- The last of a list counts if it differs from the one before. -/
theorem destutter'_concat {α : Type*} [DecidableEq α] (a x : α) (l : List α) :
    (l ++ [x]).destutter' (· ≠ ·) a =
      l.destutter' (· ≠ ·) a ++ if l.getLastD a = x then [] else [x] := by
  induction l generalizing a with
  | nil =>
    by_cases hx : a = x
    · simp [hx]
    · simp [hx]
  | cons b l ih =>
    rw [List.cons_append, List.getLastD_cons]
    by_cases hb : a = b
    · subst hb
      rw [List.destutter'_cons_neg _ (not_not_intro rfl),
        List.destutter'_cons_neg _ (not_not_intro rfl), ih]
    · rw [List.destutter'_cons_pos _ hb, List.destutter'_cons_pos _ hb, ih, List.cons_append]

/-- What the log and the variables say after the packets `ps`. -/
structure Logged (m : Mouse) (ps : List MousePacket) : Prop where
  var_eq : ∀ b : MouseButton, b.var m = (ps.map b.isDown).getLastD false
  messages_eq : ∀ b : MouseButton,
    false :: b.messages m.effects = (ps.map b.isDown).destutter' (· ≠ ·) false
  read_eq : ∀ b : MouseButton, run readLog (fun _ => false) m.effects b = b.var m
  penDown : Guarded readLog PenDown (fun _ => false) m.effects
  strokes_eq : m.effects.countP MouseEffect.isPaint = ps.countP MouseButton.left.isDown

theorem Logged.init : Logged Mouse.init [] where
  var_eq b := by cases b <;> rfl
  messages_eq _ := rfl
  read_eq b := by cases b <;> rfl
  penDown := trivial
  strokes_eq := rfl

theorem Logged.ack {m : Mouse} {ps : List MousePacket} (h : Logged m ps) :
    Logged (m.emit [.print "Received ACK from mouse\n"]) ps := by
  have hmessages (b : MouseButton) :
      b.messages (m.effects ++ [.print "Received ACK from mouse\n"]) = b.messages m.effects := by
    rw [MouseButton.messages, List.filterMap_append]
    cases b <;> exact List.append_nil _
  have hvar (b : MouseButton) :
      b.var (m.emit [.print "Received ACK from mouse\n"]) = b.var m := by
    cases b <;> rfl
  constructor
  case var_eq =>
    intro b
    rw [hvar, h.var_eq]
  case messages_eq =>
    intro b
    rw [Mouse.emit, hmessages, h.messages_eq]
  case read_eq =>
    intro b
    rw [hvar, ← h.read_eq, Mouse.emit, run_readLog, hmessages, run_readLog]
  case penDown =>
    exact (guarded_append _ _).2 ⟨h.penDown, Bool.noConfusion, trivial⟩
  case strokes_eq =>
    rw [← h.strokes_eq, Mouse.emit, List.countP_append]
    rfl

/-- The bytes before the last of a packet are not logged. -/
theorem Logged.byte {m : Mouse} {ps : List MousePacket} (h : Logged m ps) (packet : MousePacket)
    (state : MouseState) : Logged { m with packet := packet, state := state } ps where
  var_eq b := by
    rw [← h.var_eq b]
    cases b <;> rfl
  messages_eq := h.messages_eq
  read_eq b := by
    rw [h.read_eq b]
    cases b <;> rfl
  penDown := h.penDown
  strokes_eq := h.strokes_eq

theorem Logged.packet {m : Mouse} {ps : List MousePacket} (h : Logged m ps) :
    Logged (mouseProcessEvent fb m) (ps ++ [m.packet]) where
  var_eq b := by
    rw [mouseProcessEvent_var, List.map_append, List.map_singleton]
    exact (List.getLastD_concat ..).symm
  messages_eq b := by
    rw [messages_mouseProcessEvent, ← List.cons_append, h.messages_eq, List.map_append,
      List.map_singleton, destutter'_concat, h.var_eq]
  read_eq := run_readLog_mouseProcessEvent h.read_eq
  penDown := penDown_mouseProcessEvent h.read_eq h.penDown
  strokes_eq := by
    rw [countP_isPaint_mouseProcessEvent, h.strokes_eq, List.countP_append, List.countP_singleton]

theorem logged_run (fb : FbGeometry) (bytes : List UInt8) :
    Logged (run (handleMouse fb) Mouse.init bytes) (packetsOf bytes) :=
  mouse_stream (fun _ _ => Logged.ack) (fun _ _ packet state h => h.byte packet state)
    (fun _ _ => Logged.packet) rfl Logged.init bytes

end

/-- **The log of the mouse.** For every stream of bytes, acknowledgements and cut packets among
them: the messages of each button are the changes of its bit from packet to packet, so that they
alternate and begin with a press; the variable is the bit of the last packet, and it is what the
last message says; and there is a stroke for each packet with the left button down, each between
the message that the button is down and the one that it is up. -/
theorem buttons_logged (fb : FbGeometry) (bytes : List UInt8) :
    let m := run (handleMouse fb) Mouse.init bytes
    (∀ b : MouseButton,
      false :: b.messages m.effects = ((packetsOf bytes).map b.isDown).destutter' (· ≠ ·) false ∧
        (false :: b.messages m.effects).IsChain (· ≠ ·) ∧
        b.var m = ((packetsOf bytes).map b.isDown).getLastD false ∧
        b.var m = (b.messages m.effects).getLastD false) ∧
      Guarded readLog PenDown (fun _ => false) m.effects ∧
      m.effects.countP MouseEffect.isPaint = (packetsOf bytes).countP MouseButton.left.isDown := by
  intro m
  have h := logged_run fb bytes
  refine ⟨fun b => ⟨h.messages_eq b, ?_, h.var_eq b, ?_⟩, h.penDown, h.strokes_eq⟩
  · rw [h.messages_eq b]
    exact List.isChain_destutter' _ _ _
  · rw [← h.read_eq b, run_readLog]

end Marcelov
