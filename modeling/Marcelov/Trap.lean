import Marcelov.Interrupts
import Marcelov.Keyboard
import Marcelov.Pointer

/-!
# Traps

`handle_trap` of `interrupts.c`, down to `handle_keyboard` and `handle_mouse` of `kernel.c`: the
scrollback, the mouse, the canvas that both draw on, and what is printed, claimed and completed.
A `Trap` carries what the registers hold when its handler reads them.

`traps_project` takes a sequence of traps apart: whatever arrives in whatever order, the keyboard
sees the keyboard's bytes and the mouse the mouse's, and every interrupt that is claimed is
completed before the next one.
-/

namespace Marcelov

open Lib

/-! ## The tables -/

def mcauseInt : BitVec 64 := 0x8000000000000000

def mcauseCause : BitVec 64 := 0x7fffffffffffffff

def isrTableSize : ℕ := 32

def exceptionTableSize : ℕ := 32

def externalIrq : ℕ := 9

def keyboardIrq : ℕ := 12

def mouseIrq : ℕ := 13

inductive Handler where
  | keyboard
  | mouse
  deriving DecidableEq

/-- `handle_external_irq`, as a pointer. -/
inductive Isr where
  | handleExternalIrq
  deriving DecidableEq

def isrHandler (id : ℕ) : Option Isr := if id = externalIrq then some .handleExternalIrq else none

/-- `exception_handler`, which nothing ever writes. -/
def exceptionHandler (_id : ℕ) : Option Handler := none

/-! ## The kernel -/

/-- A trap, with the registers that its handler reads. -/
structure Trap where
  scause : BitVec 64
  /-- The claim register of the supervisor context. -/
  claim : UInt32
  /-- `keyboard->data` -/
  keyboardData : UInt32
  /-- `mouse->data` -/
  mouseData : UInt32
  deriving DecidableEq

inductive TrapEffect where
  /-- `interrupts_claim(context)` gives `claim`. -/
  | claim (context claim : ℕ)
  | irq (effect : IrqEffect Handler)

structure Kernel where
  display : Display
  mouse : Mouse
  plic : Plic Handler
  /-- What the handlers have done with the PLIC and printed, in order. -/
  effects : List TrapEffect

/-- The stores to the canvas among what the mouse has done. An index below zero is none of
the canvas. -/
def strokesOf (es : List MouseEffect) : List (ℕ × Rgb) :=
  es.filterMap fun
    | .paint i px => if 0 ≤ i then some (i.toNat, px) else none
    | _ => none

namespace Kernel

def emit (k : Kernel) (es : List TrapEffect) : Kernel := { k with effects := k.effects ++ es }

/-- `handle_keyboard`, for what it reads from the device. -/
def handleKeyboard (font : Font) (fb : FbGeometry) (k : Kernel) (data : UInt8) : Kernel :=
  if data = 0xfa then k.emit [.irq (.print "Received ACK from keyboard\n")]
  else { k with display := keyboardProcessScancode font fb k.display data }

/-- `handle_mouse`, for what it reads from the device, with its stores to the canvas. -/
def handleMouse (fb : FbGeometry) (k : Kernel) (data : UInt8) : Kernel :=
  let mouse := Marcelov.handleMouse fb k.mouse data
  let canvas := applyWrites (strokesOf (newEffects k.mouse mouse)) k.display.canvas
  { k with mouse := mouse, display := { k.display with canvas := canvas } }

/-- A call through `external_handler`. -/
def call (font : Font) (fb : FbGeometry) (t : Trap) (k : Kernel) : Handler → Kernel
  | .keyboard => k.handleKeyboard font fb t.keyboardData.toUInt8
  | .mouse => k.handleMouse fb t.mouseData.toUInt8

/-- A statement of `handle_external_irq`. -/
def perform (font : Font) (fb : FbGeometry) (t : Trap) (k : Kernel) (e : IrqEffect Handler) :
    Kernel :=
  let k := k.emit [.irq e]
  match e with
  | .call handler => k.call font fb t handler
  | _ => k

def handleExternalIrq (font : Font) (fb : FbGeometry) (k : Kernel) (t : Trap) : Kernel :=
  let claim := t.claim.toNat
  run (perform font fb t) (k.emit [.claim supervisorContext claim])
    (Marcelov.handleExternalIrq k.plic claim)

def handleTrap (font : Font) (fb : FbGeometry) (k : Kernel) (t : Trap) : Kernel :=
  let id := (t.scause &&& mcauseCause).toNat
  if t.scause &&& mcauseInt ≠ 0 then
    if id < isrTableSize then
      match isrHandler id with
      | some .handleExternalIrq => k.handleExternalIrq font fb t
      | none => k
    else k
  else
    let k :=
      if id < exceptionTableSize then
        match exceptionHandler id with
        | some handler => k.call font fb t handler
        | none => k
      else k
    k.emit [.irq (.print "Finished handling exception "), .irq (.printHex id), .irq (.print "\n")]

end Kernel

/-! ## Bytes from the devices -/

/-- A byte from one of the two devices. -/
inductive Input where
  | key (data : UInt8)
  | mouse (data : UInt8)
  deriving DecidableEq

namespace Input

/-- The bytes of the keyboard that are scancodes. -/
def scancodes (inputs : List Input) : List UInt8 :=
  inputs.filterMap fun
    | key data => if data = 0xfa then none else some data
    | mouse _ => none

/-- The bytes of the mouse. -/
def mouseBytes (inputs : List Input) : List UInt8 :=
  inputs.filterMap fun
    | key _ => none
    | mouse data => some data

/-- What a byte does to the display and the mouse. -/
def exec (font : Font) (fb : FbGeometry) (s : Display × Mouse) : Input → Display × Mouse
  | key data => (if data = 0xfa then s.1 else keyboardProcessScancode font fb s.1 data, s.2)
  | mouse data =>
    let m := Marcelov.handleMouse fb s.2 data
    ({ s.1 with canvas := applyWrites (strokesOf (newEffects s.2 m)) s.1.canvas }, m)

end Input

def Trap.IsExternal (t : Trap) : Prop :=
  t.scause &&& mcauseInt ≠ 0 ∧ (t.scause &&& mcauseCause).toNat = externalIrq

instance (t : Trap) : Decidable t.IsExternal := inferInstanceAs (Decidable (_ ∧ _))

/-- Where `main` has the interrupts of the two devices go. -/
def route (interrupt : ℕ) : Option Handler :=
  if interrupt = keyboardIrq then some .keyboard
  else if interrupt = mouseIrq then some .mouse
  else none

def Trap.byteFor (t : Trap) : Handler → Input
  | .keyboard => .key t.keyboardData.toUInt8
  | .mouse => .mouse t.mouseData.toUInt8

/-- The byte that a trap brings, if it is an interrupt of one of the devices. -/
def Trap.input (t : Trap) : Option Input :=
  if t.IsExternal then (route t.claim.toNat).map t.byteFor else none

def inputsOf (ts : List Trap) : List Input := ts.filterMap Trap.input

/-- The handlers of `kernel.c`, and no others, are in `external_handler`. -/
def Routed (p : Plic Handler) : Prop := ∀ i < externalTableSize, p.externalHandler i = route i

instance (p : Plic Handler) : Decidable (Routed p) :=
  inferInstanceAs (Decidable (∀ i < externalTableSize, _))

/-- The PLIC as `main` sets it up. -/
def mainPlic : Plic Handler :=
  interruptsExternalEnable
    (interruptsExternalEnable Plic.init supervisorContext keyboardIrq (some .keyboard))
    supervisorContext mouseIrq (some .mouse)

theorem routed_mainPlic : Routed mainPlic := by decide

/-! ## One trap -/

/-- What is done with the PLIC. -/
def TrapEffect.isProtocol : TrapEffect → Bool
  | .claim _ _ => true
  | .irq (.complete _ _) => true
  | .irq _ => false

/-- The claims and completions so far, in order. -/
def Kernel.protocol (k : Kernel) : List TrapEffect := k.effects.filter TrapEffect.isProtocol

/-- What a trap leaves: the display and mouse that its byte makes, the same PLIC, and its claim
with the completion, if it has one. -/
structure TrapStep (font : Font) (fb : FbGeometry) (k : Kernel) (t : Trap) (k' : Kernel) :
    Prop where
  devices : (k'.display, k'.mouse) = run (Input.exec font fb) (k.display, k.mouse) t.input.toList
  plic : k'.plic = k.plic
  protocol : k'.protocol = k.protocol ++
    if t.IsExternal then
      [.claim supervisorContext t.claim.toNat, .irq (.complete supervisorContext t.claim.toNat)]
    else []

section

variable {font : Font} {fb : FbGeometry} {k : Kernel} {t : Trap}

theorem protocol_emit (k : Kernel) (es : List TrapEffect) :
    (k.emit es).protocol = k.protocol ++ es.filter TrapEffect.isProtocol :=
  List.filter_append _ _

/-- A trap that is not an external interrupt prints at most. -/
theorem handleTrap_of_not_external (font : Font) (fb : FbGeometry) (k : Kernel)
    (h : ¬ t.IsExternal) : ∃ es : List TrapEffect, k.handleTrap font fb t = k.emit es ∧
      es.filter TrapEffect.isProtocol = [] := by
  have hnone : k.emit [] = k := by
    rw [Kernel.emit, List.append_nil]
  unfold Kernel.handleTrap
  by_cases hint : t.scause &&& mcauseInt ≠ 0
  · have hid : (t.scause &&& mcauseCause).toNat ≠ externalIrq := fun hid => h ⟨hint, hid⟩
    refine ⟨[], ?_, rfl⟩
    rw [if_pos hint, hnone, isrHandler, if_neg hid, ite_self]
  · refine ⟨[.irq (.print "Finished handling exception "),
      .irq (.printHex (t.scause &&& mcauseCause).toNat), .irq (.print "\n")], ?_, rfl⟩
    rw [if_neg hint]
    simp only [exceptionHandler, ite_self]

theorem handleTrap_of_external (h : t.IsExternal) :
    k.handleTrap font fb t = k.handleExternalIrq font fb t := by
  unfold Kernel.handleTrap
  rw [if_pos h.1, if_pos (by rw [h.2]; decide), isrHandler, if_pos h.2]

/-! ### External interrupts -/

theorem route_lt {i : ℕ} {handler : Handler} (h : route i = some handler) :
    i < externalTableSize := by
  unfold route at h
  split_ifs at h with hkeyboard hmouse
  · rw [hkeyboard]
    decide
  · rw [hmouse]
    decide

theorem irqEffects_of_some {p : Plic Handler} (hr : Routed p) {claim : ℕ} {handler : Handler}
    (h : route claim = some handler) :
    handleExternalIrq p claim = [.call handler, .complete supervisorContext claim] := by
  have hlt := route_lt h
  unfold handleExternalIrq
  dsimp only
  rw [if_pos hlt, hr claim hlt, h]
  rfl

theorem irqEffects_of_none {p : Plic Handler} (hr : Routed p) {claim : ℕ}
    (h : route claim = none) :
    handleExternalIrq p claim =
      [.print "Ignoring unknown interrupt ", .printHex claim, .print "\n",
        .complete supervisorContext claim] := by
  unfold handleExternalIrq
  dsimp only
  by_cases hlt : claim < externalTableSize
  · rw [if_pos hlt, hr claim hlt, h]
    rfl
  · rw [if_neg hlt]
    rfl

/-- A handler does with the devices what its byte does, and leaves the PLIC alone. -/
theorem call_spec (font : Font) (fb : FbGeometry) (t : Trap) (k : Kernel) (handler : Handler) :
    ((k.call font fb t handler).display, (k.call font fb t handler).mouse) =
        (t.byteFor handler).exec font fb (k.display, k.mouse) ∧
      (k.call font fb t handler).plic = k.plic ∧
      (k.call font fb t handler).protocol = k.protocol := by
  cases handler with
  | mouse => exact ⟨rfl, rfl, rfl⟩
  | keyboard =>
    rw [Trap.byteFor, Kernel.call, Kernel.handleKeyboard, Input.exec]
    by_cases hack : t.keyboardData.toUInt8 = 0xfa
    · rw [if_pos hack, if_pos hack, protocol_emit]
      exact ⟨rfl, rfl, List.append_nil _⟩
    · rw [if_neg hack, if_neg hack]
      exact ⟨rfl, rfl, rfl⟩

theorem trapStep_external (hr : Routed k.plic) (h : t.IsExternal) :
    TrapStep font fb k t (k.handleTrap font fb t) := by
  have hinput : t.input = (route t.claim.toNat).map t.byteFor := if_pos h
  rw [handleTrap_of_external h, Kernel.handleExternalIrq]
  cases hroute : route t.claim.toNat with
  | none =>
    rw [hroute] at hinput
    rw [irqEffects_of_none hr hroute]
    simp only [run_cons, run_nil, Kernel.perform]
    refine ⟨?_, rfl, ?_⟩
    · rw [hinput]
      rfl
    · simp only [protocol_emit, if_pos h, List.append_assoc]
      rfl
  | some handler =>
    rw [hroute] at hinput
    rw [irqEffects_of_some hr hroute]
    simp only [run_cons, run_nil, Kernel.perform]
    obtain ⟨hdevices, hplic, hprotocol⟩ := call_spec font fb t
      ((k.emit [.claim supervisorContext t.claim.toNat]).emit [.irq (.call handler)]) handler
    refine ⟨?_, hplic, ?_⟩
    · rw [hinput]
      exact hdevices
    · rw [protocol_emit, hprotocol, protocol_emit, protocol_emit, if_pos h, List.append_assoc,
        List.append_assoc]
      rfl

/-- **One trap.** -/
theorem trapStep (font : Font) (fb : FbGeometry) (hr : Routed k.plic) (t : Trap) :
    TrapStep font fb k t (k.handleTrap font fb t) := by
  by_cases hext : t.IsExternal
  · exact trapStep_external hr hext
  · obtain ⟨es, heq, hes⟩ := handleTrap_of_not_external font fb k hext
    rw [heq]
    refine ⟨?_, rfl, ?_⟩
    · rw [Trap.input, if_neg hext]
      rfl
    · rw [protocol_emit, hes, if_neg hext]

end

/-! ## Sequences of traps -/

def claimsOf (ts : List Trap) : List TrapEffect :=
  (ts.filter (·.IsExternal)).flatMap fun t =>
    [.claim supervisorContext t.claim.toNat, .irq (.complete supervisorContext t.claim.toNat)]

section

variable {font : Font} {fb : FbGeometry} {k : Kernel}

theorem traps_devices (font : Font) (fb : FbGeometry) (hr : Routed k.plic) (ts : List Trap) :
    let k' := run (Kernel.handleTrap font fb) k ts
    (k'.display, k'.mouse) = run (Input.exec font fb) (k.display, k.mouse) (inputsOf ts) ∧
      k'.plic = k.plic ∧ k'.protocol = k.protocol ++ claimsOf ts := by
  induction ts generalizing k with
  | nil => exact ⟨rfl, rfl, (List.append_nil _).symm⟩
  | cons t ts ih =>
    obtain ⟨hdevices, hplic, hprotocol⟩ := trapStep font fb hr t
    obtain ⟨hdevices', hplic', hprotocol'⟩ := ih (k := k.handleTrap font fb t) (hplic ▸ hr)
    refine ⟨?_, hplic'.trans hplic, ?_⟩
    · have hinputs : inputsOf (t :: ts) = t.input.toList ++ inputsOf ts := by
        unfold inputsOf
        rw [List.filterMap_cons]
        cases t.input <;> rfl
      rw [run_cons, hinputs, run_append, ← hdevices]
      exact hdevices'
    · rw [run_cons, hprotocol', hprotocol, List.append_assoc]
      congr 1
      unfold claimsOf
      rw [List.filter_cons]
      by_cases hext : t.IsExternal
      · rw [if_pos hext, if_pos (decide_eq_true hext), List.flatMap_cons]
      · rw [if_neg hext, if_neg (by simp [hext]), List.nil_append]

theorem sb_key_congr {d d' : Display} (h : d.sb = d'.sb) (scancode : UInt8) :
    (keyboardProcessScancode font fb d scancode).sb =
      (keyboardProcessScancode font fb d' scancode).sb := by
  unfold keyboardProcessScancode
  rw [h]
  cases handleScancode font fb d'.sb scancode with
  | mk sb redraw =>
    cases redraw <;> rfl

theorem inputs_project (font : Font) (fb : FbGeometry) (s : Display × Mouse)
    (inputs : List Input) :
    (run (Input.exec font fb) s inputs).1.sb =
        (runKeys font fb s.1 (Input.scancodes inputs)).sb ∧
      (run (Input.exec font fb) s inputs).2 =
        run (handleMouse fb) s.2 (Input.mouseBytes inputs) := by
  have hsb (d : Display) (scs : List UInt8) {d' : Display} (h : d.sb = d'.sb) :
      (runKeys font fb d scs).sb = (runKeys font fb d' scs).sb :=
    run_simulation (R := fun d d' : Display => d.sb = d'.sb) h
      (fun _ _ scancode h => sb_key_congr h scancode) scs
  induction inputs generalizing s with
  | nil => exact ⟨rfl, rfl⟩
  | cons input inputs ih =>
    obtain ⟨hsb', hmouse⟩ := ih (input.exec font fb s)
    rw [run_cons, hsb', hmouse]
    cases input with
    | key data =>
      by_cases hack : data = 0xfa
      · simp [Input.exec, Input.scancodes, Input.mouseBytes, hack]
      · simp [Input.exec, Input.scancodes, Input.mouseBytes, hack, runKeys]
    | mouse data =>
      refine ⟨?_, rfl⟩
      exact hsb _ _ rfl

end

/-- **Traps come apart by device.** From any state in which the handlers of `kernel.c` are
registered, and for any sequence of traps: the scrollback is what the scancodes among them make
of it and the mouse what its bytes make of it, each in order and without the other's; if the
mouse was between packets, its events are the packets of its bytes, however they are spread over
the traps; and each interrupt claimed is completed, with the same number, before the next claim. -/
theorem traps_project (font : Font) (fb : FbGeometry) (k : Kernel) (hr : Routed k.plic)
    (ts : List Trap) :
    let k' := run (Kernel.handleTrap font fb) k ts
    k'.display.sb = (runKeys font fb k.display (Input.scancodes (inputsOf ts))).sb ∧
      k'.mouse = run (handleMouse fb) k.mouse (Input.mouseBytes (inputsOf ts)) ∧
      (k.mouse.state = .waitByte0 →
        k'.mouse.events = k.mouse.events ++ packetsOf (Input.mouseBytes (inputsOf ts))) ∧
      k'.plic = k.plic ∧
      k'.protocol = k.protocol ++ claimsOf ts := by
  intro k'
  obtain ⟨hdevices, hplic, hprotocol⟩ := traps_devices font fb hr ts
  obtain ⟨hsb, hmouse⟩ := inputs_project font fb (k.display, k.mouse) (inputsOf ts)
  rw [← hdevices] at hsb hmouse
  refine ⟨hsb, hmouse, fun hstate => ?_, hplic, hprotocol⟩
  exact (congrArg Mouse.events hmouse).trans (events_run fb hstate _)

/-- A key and an exception inside a mouse packet. -/
theorem traps_project_packet :
    let k : Kernel := ⟨Display.init fun _ => black, Mouse.init, mainPlic, []⟩
    let irq : BitVec 64 := 0x8000000000000009
    let ts : List Trap := [⟨irq, 13, 0, 0x08⟩, ⟨irq, 12, 0x1e, 0⟩, ⟨irq, 13, 0, 3⟩, ⟨2, 0, 0, 0⟩,
      ⟨irq, 13, 0, 0xfa⟩]
    let k' := run (Kernel.handleTrap .monaco mainFb) k ts
    k'.mouse.events = k.mouse.events ++ packetsOf (Input.mouseBytes (inputsOf ts)) :=
  (traps_project .monaco mainFb ⟨Display.init fun _ => black, Mouse.init, mainPlic, []⟩
    routed_mainPlic _).2.2.1 rfl

end Marcelov
