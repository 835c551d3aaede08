import Marcelov.BootText

/-!
# From the first line to the terminal

The whole of `main` from its first `scrollback_print_line` on, with the interrupts that come
between its statements: it prints its lines while keys are typed (`Marcelov.BootText`), it redraws
while traps of both devices come in (`Marcelov.BootDraw`), and then it only waits. The view is
correct from the first scroll key on (`Marcelov.Heal`); `boot_to_terminal` says what the text is,
and that the screen shows it.
-/

namespace Marcelov

open Lib

section

variable {font : Font} {fb : FbGeometry} {m : Boot} {events : List BootEvent}

theorem mem_effects {op : Op} (hop : op ∈ outputs (bootStep font fb) Boot.effects m events) :
    op ∈ outputs (bootStep font fb) Boot.mainEffects m events ∨
      ∃ s scancode, op ∈ keyOps s scancode := by
  induction events generalizing m with
  | nil => cases hop
  | cons e events ih =>
    rw [outputs, List.mem_append] at hop ⊢
    rcases hop with hop | hop
    · cases e with
      | main => exact Or.inl (Or.inl hop)
      | irq scancode => exact Or.inr ⟨m.display.sb, scancode, hop⟩
    · exact (ih hop).imp_left Or.inr

theorem opFits_effects {canvas : ℕ → Rgb} {lines : List (List UInt8)}
    (hfits : ∀ c : UInt8, c.toNat < 128 → 30 + font.charWidth c < fb.width)
    (hascii : ∀ l ∈ lines, ∀ c ∈ l, c.toNat < 128)
    (hturns : Guarded (bootStep font fb) TakesTurn (Boot.init canvas lines) events) :
    ∀ op ∈ outputs (bootStep font fb) Boot.effects (Boot.init canvas lines) events,
      OpFits font fb op := by
  intro op hop
  rcases mem_effects hop with hmain | ⟨s, scancode, hkey⟩
  · refine opFits_firstOps hfits hascii op (List.mem_append_left _ ?_)
    rw [← (counts_run hturns).eq, List.append_assoc]
    exact List.mem_append_left _ hmain
  · exact opFits_keyOps hfits s scancode op hkey

end

/-- **The kernel comes up as a terminal.** On a screen where every ASCII character fits on a
line: let `main` print ASCII lines, with keys between its statements that take their turns; let
it redraw, with any traps between the statements of the redraw; and let a scroll key be pressed
after that. From then on the display is that of a terminal, whichever keys follow. Its text is
that of the lines and the keys of the first part, in the order in which they took effect, and of
the keys that came during the redraw. -/
theorem boot_to_terminal (font : Font) (fb : FbGeometry) (canvas : ℕ → Rgb)
    (lines : List (List UInt8)) (events : List BootEvent)
    (hfits : ∀ c : UInt8, c.toNat < 128 → 30 + font.charWidth c < fb.width)
    (hascii : ∀ l ∈ lines, ∀ c ∈ l, c.toNat < 128)
    (hturns : Guarded (bootStep font fb) TakesTurn (Boot.init canvas lines) events)
    (hidle : (run (bootStep font fb) (Boot.init canvas lines) events).pc = .idle)
    (k : Kernel) (hr : Routed k.plic) (traps : List DrawEvent) (scancode : UInt8)
    (hkey : scancode = 0x48 ∨ scancode = 0x50) :
    let d := (run (bootStep font fb) (Boot.init canvas lines) events).display
    let ops := outputs (bootStep font fb) Boot.effects (Boot.init canvas lines) events
    let m := run (drawStep font fb) (BootDraw.init { k with display := d }) traps
    let T₀ : Terminal fb := ⟨run (Page.exec font) (Page.init fb) ops, d.sb.isShiftPressed⟩
    let T₁ := run (Terminal.key font) T₀ (keysOf traps)
    ∃ T : Terminal fb, T.page.text = T₁.page.text ∧ T.shift = T₁.shift ∧
      ∀ scs, Displays font (runKeys font fb m.kernel.display (scancode :: scs))
        (run (Terminal.key font) T scs) := by
  intro d ops m T₀ T₁
  have hrest : (run (bootStep font fb) (Boot.init canvas lines) events).pc.atRest = true := by
    rw [hidle]
    rfl
  have hsame := (halfway_run hturns).sameTyping hrest
  have hfirst : Mirrors (runOps font fb (Display.init canvas) ops) T₀ :=
    ⟨shows_runOps (d := Display.init canvas) (Shows.init fb) ops, hsame.shift.symm⟩
  have hlaid := laid_runOps canvas (opFits_effects hfits hascii hturns)
  exact displays_after_redraw hfits hfirst hlaid hsame k hr traps hkey

/-- The letters of `turnsRun`, and Enter before the first statement of the redraw. -/
theorem boot_to_terminal_turns :
    let d := (run (bootStep .monaco mainFb) (Boot.init (fun _ => black) [[0x61]]) turnsRun).display
    let m := run (drawStep .monaco mainFb) (BootDraw.init ⟨d, Mouse.init, mainPlic, []⟩)
      [.trap ⟨0x8000000000000009, 12, 0x1c, 0⟩, .main]
    ∃ T : Terminal mainFb, T.page.text.lines = [[0x71, 0x61], []] ∧
      Displays .monaco (runKeys .monaco mainFb m.kernel.display [0x48]) T := by
  obtain ⟨T, htext, -, hT⟩ := boot_to_terminal .monaco mainFb (fun _ => black) [[0x61]] turnsRun
    (fun _ _ => by simp [Font.charWidth, mainFb]) (by simp) (by decide +kernel) (by decide +kernel)
    ⟨Display.init fun _ => black, Mouse.init, mainPlic, []⟩ routed_mainPlic
    [.trap ⟨0x8000000000000009, 12, 0x1c, 0⟩, .main] 0x48 (Or.inl rfl)
  refine ⟨T, ?_, hT []⟩
  rw [htext]
  decide +kernel

end Marcelov
