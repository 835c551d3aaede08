import Marcelov.Fb
import Marcelov.Lib.Memory
import Marcelov.Lib.Run

/-!
# External interrupts

`interrupts_external_enable`, `interrupts_external_disable` and `handle_external_irq` of
`interrupts.c`, over the registers of the PLIC as plain bytes, addressed from `PLIC_BASE`. The
handlers are of any type `H`; a null pointer is `none`.

The enable bits are kept for each context, but the priorities and the handlers are shared.
`contexts_undisturbed_iff` says for which sequences of calls a context keeps what it has enabled:
those that never disable a source which another context has enabled.
-/

namespace Marcelov

open Lib

def externalTableSize : ℕ := 32

def supervisorContext : ℕ := 1

/-- The PLIC registers and `external_handler`. -/
structure Plic (H : Type*) where
  mem : ℕ → BitVec 8
  externalHandler : ℕ → Option H

inductive IrqEffect (H : Type*) where
  | call (handler : H)
  | print (text : String)
  | printHex (v : ℕ)
  /-- `interrupts_complete(context, claim)` -/
  | complete (context claim : ℕ)

variable {H : Type*}

/-- Memory and table start at zero. -/
def Plic.init : Plic H where
  mem := fun _ => 0
  externalHandler := fun _ => none

/-- `enabled_register - PLIC_BASE`, a sum of bytes -/
def enabledRegister (context interrupt : ℕ) : ℕ := 0x2000 + u32 (0x80 * context) + interrupt / 32

/-- `priority - PLIC_BASE` -/
def priorityRegister (interrupt : ℕ) : ℕ := u32 (0x4 * interrupt)

/-- The statements of `interrupts_external_enable` and `interrupts_external_disable`, which
differ in the new word of enable bits, the priority and the handler. -/
def configure (p : Plic H) (context interrupt : ℕ) (word : BitVec 32 → BitVec 32 → BitVec 32)
    (priority : BitVec 32) (handler : Option H) : Plic H :=
  if externalTableSize ≤ interrupt then p
  else
    let mask := 1#32 <<< interrupt
    let enabled := enabledRegister context interrupt
    let mem := storeWord p.mem enabled (word (loadWord p.mem enabled) mask)
    { mem := storeWord mem (priorityRegister interrupt) priority
      externalHandler := Function.update p.externalHandler interrupt handler }

def interruptsExternalEnable (p : Plic H) (context interrupt : ℕ) (handler : Option H) : Plic H :=
  configure p context interrupt (fun enabled mask => enabled ||| mask) 1 handler

def interruptsExternalDisable (p : Plic H) (context interrupt : ℕ) : Plic H :=
  configure p context interrupt (fun enabled mask => enabled &&& ~~~mask) 0 none

/-- `handle_external_irq`, for the value that `interrupts_claim` reads. -/
def handleExternalIrq (p : Plic H) (claim : ℕ) : List (IrqEffect H) :=
  let unknown := [.print "Ignoring unknown interrupt ", .printHex claim, .print "\n"]
  let handled :=
    if claim < externalTableSize then
      match p.externalHandler claim with
      | some handler => [.call handler]
      | none => unknown
    else unknown
  handled ++ [.complete supervisorContext claim]

/-! ## Sequences of calls -/

/-- A context whose enable words lie below the thresholds of the PLIC. -/
abbrev Context := Fin 15872

/-- A call, with a handler that is not null. -/
inductive PlicOp (H : Type*) where
  | enable (context : Context) (interrupt : ℕ) (handler : H)
  | disable (context : Context) (interrupt : ℕ)

def PlicOp.exec (p : Plic H) : PlicOp H → Plic H
  | enable context interrupt handler => interruptsExternalEnable p context interrupt (some handler)
  | disable context interrupt => interruptsExternalDisable p context interrupt

/-- For each pair, whether the latest call on it was an enable. -/
abbrev Calls := Context → ℕ → Bool

def Calls.record (calls : Calls) : PlicOp H → Calls
  | .enable context interrupt _ => fun c i =>
    if c = context ∧ i = interrupt then true else calls c i
  | .disable context interrupt => fun c i =>
    if c = context ∧ i = interrupt then false else calls c i

def Calls.none : Calls := fun _ _ => false

/-- The source can interrupt the context, and its interrupts are handled. -/
structure Live (p : Plic H) (context interrupt : ℕ) : Prop where
  bit : (loadWord p.mem (enabledRegister context interrupt)).getLsbD interrupt = true
  priority : loadWord p.mem (priorityRegister interrupt) = 1
  handler : (p.externalHandler interrupt).isSome
  known : IrqEffect.print "Ignoring unknown interrupt " ∉ handleExternalIrq p interrupt

/-- Every source that a context has enabled is live. -/
def Undisturbed (p : Plic H) (calls : Calls) : Prop :=
  ∀ c i, 1 ≤ i → i < 32 → calls c i = true → Live p c i

/-- The call does not disable a source that another context has enabled. -/
def NotShared (calls : Calls) : PlicOp H → Prop
  | .enable _ _ _ => True
  | .disable context interrupt =>
    1 ≤ interrupt → interrupt < 32 → ∀ c, c ≠ context → calls c interrupt = false

/-! ## The registers -/

section

variable {c c' : Context} {i i' : ℕ}

theorem enabledRegister_eq (c : Context) (hi : i < 32) :
    enabledRegister c i = 0x2000 + 0x80 * c := by
  have hc := c.isLt
  rw [enabledRegister, u32_of_lt (by omega), Nat.div_eq_of_lt hi, Nat.add_zero]

theorem priorityRegister_eq (hi : i < 32) : priorityRegister i = 4 * i := u32_of_lt (by omega)

theorem disjoint_enabled_priority (c : Context) (hi : i < 32) (hi' : i' < 32) :
    WordDisjoint (priorityRegister i) (enabledRegister c i') := by
  rw [WordDisjoint, enabledRegister_eq c hi', priorityRegister_eq hi]
  omega

theorem disjoint_enabled (h : c ≠ c') (hi : i < 32) (hi' : i' < 32) :
    WordDisjoint (enabledRegister c i) (enabledRegister c' i') := by
  have hne : (c : ℕ) ≠ c' := fun heq => h (Fin.ext heq)
  rw [WordDisjoint, enabledRegister_eq c hi, enabledRegister_eq c' hi']
  omega

theorem disjoint_priority (h : i ≠ i') (hi : i < 32) (hi' : i' < 32) :
    WordDisjoint (priorityRegister i) (priorityRegister i') := by
  rw [WordDisjoint, priorityRegister_eq hi, priorityRegister_eq hi']
  omega

end

/-! ## What a call changes -/

section

variable {p : Plic H} {c c' : Context} {i j : ℕ} {word : BitVec 32 → BitVec 32 → BitVec 32}
  {priority : BitVec 32} {handler : Option H}

theorem configure_of_ge (hi : 32 ≤ i) : configure p c i word priority handler = p := if_pos hi

theorem configure_of_lt (hi : i < 32) :
    configure p c i word priority handler =
      { mem := storeWord
          (storeWord p.mem (enabledRegister c i)
            (word (loadWord p.mem (enabledRegister c i)) (1#32 <<< i)))
          (priorityRegister i) priority
        externalHandler := Function.update p.externalHandler i handler } :=
  if_neg (Nat.not_le.2 hi)

theorem configure_word (hi : i < 32) :
    loadWord (configure p c i word priority handler).mem (enabledRegister c i) =
      word (loadWord p.mem (enabledRegister c i)) (1#32 <<< i) := by
  rw [configure_of_lt hi, loadWord_storeWord_of_disjoint (disjoint_enabled_priority c hi hi),
    loadWord_storeWord]

theorem configure_word_of_ne (h : c' ≠ c) (hi : i < 32) (hj : j < 32) :
    loadWord (configure p c i word priority handler).mem (enabledRegister c' j) =
      loadWord p.mem (enabledRegister c' j) := by
  rw [configure_of_lt hi, loadWord_storeWord_of_disjoint (disjoint_enabled_priority c' hi hj),
    loadWord_storeWord_of_disjoint (disjoint_enabled h.symm hi hj)]

theorem configure_priority (hi : i < 32) :
    loadWord (configure p c i word priority handler).mem (priorityRegister i) = priority := by
  rw [configure_of_lt hi, loadWord_storeWord]

theorem configure_priority_of_ne (h : j ≠ i) (hi : i < 32) (hj : j < 32) :
    loadWord (configure p c i word priority handler).mem (priorityRegister j) =
      loadWord p.mem (priorityRegister j) := by
  rw [configure_of_lt hi, loadWord_storeWord_of_disjoint (disjoint_priority h.symm hi hj),
    loadWord_storeWord_of_disjoint (disjoint_enabled_priority c hj hi).symm]

theorem configure_handler (hi : i < 32) :
    (configure p c i word priority handler).externalHandler =
      Function.update p.externalHandler i handler := by
  rw [configure_of_lt hi]

theorem Live.of_handler (hi : i < 32)
    (hbit : (loadWord p.mem (enabledRegister c i)).getLsbD i = true)
    (hpriority : loadWord p.mem (priorityRegister i) = 1)
    (hhandler : (p.externalHandler i).isSome) : Live p c i where
  bit := hbit
  priority := hpriority
  handler := hhandler
  known := by
    obtain ⟨h, hh⟩ := Option.isSome_iff_exists.1 hhandler
    simp [handleExternalIrq, externalTableSize, hi, hh]

/-- A call on another source that keeps this one's bit keeps it live. -/
theorem Live.configure_of_ne (h : Live p c' j) (hne : j ≠ i) (hi : i < 32) (hj : j < 32)
    (hword : ∀ w, (word w (1#32 <<< i)).getLsbD j = w.getLsbD j) :
    Live (configure p c i word priority handler) c' j := by
  refine Live.of_handler hj ?_ ?_ ?_
  · by_cases hc : c' = c
    · subst hc
      have hreg : enabledRegister c' j = enabledRegister c' i := by
        rw [enabledRegister_eq c' hj, enabledRegister_eq c' hi]
      rw [hreg, configure_word hi, hword, ← hreg]
      exact h.bit
    · rw [configure_word_of_ne hc hi hj]
      exact h.bit
  · rw [configure_priority_of_ne hne hi hj]
    exact h.priority
  · rw [configure_handler hi, Function.update_of_ne hne]
    exact h.handler

end

/-! ## Runs -/

section

variable {p : Plic H} {calls : Calls}

/-- The source that a context enables is live there, and in every context that it was live in. -/
theorem live_enable {c context : Context} {i : ℕ} (hi : i < 32) (handler : H)
    (h : c ≠ context → Live p c i) :
    Live (interruptsExternalEnable p context i (some handler)) c i := by
  rw [interruptsExternalEnable]
  refine Live.of_handler hi ?_ (configure_priority hi) ?_
  · by_cases hc : c = context
    · subst hc
      rw [configure_word hi, getLsbD_or_bit hi]
      simp
    · rw [configure_word_of_ne hc hi hi]
      exact (h hc).bit
  · rw [configure_handler hi, Function.update_self]
    rfl

theorem undisturbed_enable (h : Undisturbed p calls) (context : Context) (interrupt : ℕ)
    (handler : H) :
    Undisturbed (PlicOp.exec p (.enable context interrupt handler))
      (calls.record (.enable context interrupt handler)) := by
  intro c i hpos hi hcall
  rw [PlicOp.exec]
  by_cases hsource : i = interrupt
  · subst hsource
    apply live_enable hi handler
    intro hc
    exact h c i hpos hi (by simpa [Calls.record, hc] using hcall)
  · have hlive : Live p c i := h c i hpos hi (by simpa [Calls.record, hsource] using hcall)
    rw [interruptsExternalEnable]
    rcases Nat.lt_or_ge interrupt 32 with hlt | hge
    · refine hlive.configure_of_ne hsource hlt hi fun w => ?_
      rw [getLsbD_or_bit hlt]
      simp [hsource]
    · rw [configure_of_ge hge]
      exact hlive

theorem undisturbed_disable_iff (h : Undisturbed p calls) (context : Context) (interrupt : ℕ) :
    Undisturbed (PlicOp.exec p (.disable context interrupt))
        (calls.record (.disable context interrupt : PlicOp H)) ↔
      NotShared calls (.disable context interrupt : PlicOp H) := by
  constructor
  · intro hafter hpos hi c hc
    by_contra hcall
    -- The source of the other context has lost its priority.
    have hlive := hafter c interrupt hpos hi (by simpa [Calls.record, hc] using hcall)
    have hzero : (0 : BitVec 32) = 1 := (configure_priority hi).symm.trans hlive.priority
    exact absurd hzero (by decide)
  · intro hshared c i hpos hi hcall
    have hpair : ¬ (c = context ∧ i = interrupt) := fun heq => by simp [Calls.record, heq] at hcall
    have hbefore : calls c i = true := by simpa [Calls.record, hpair] using hcall
    have hlive := h c i hpos hi hbefore
    have hsource : i ≠ interrupt := by
      rintro rfl
      rw [hshared hpos hi c fun hc => hpair ⟨hc, rfl⟩] at hbefore
      cases hbefore
    rw [PlicOp.exec, interruptsExternalDisable]
    rcases Nat.lt_or_ge interrupt 32 with hlt | hge
    · exact hlive.configure_of_ne hsource hlt hi fun w => getLsbD_and_not_bit hlt hsource
    · rw [configure_of_ge hge]
      exact hlive

def PlicOp.step (s : Plic H × Calls) (op : PlicOp H) : Plic H × Calls :=
  (op.exec s.1, Calls.record s.2 op)

/-- **One call** keeps every enabled source live exactly when it disables none that another
context has enabled. -/
theorem undisturbed_exec_iff (h : Undisturbed p calls) (op : PlicOp H) :
    Undisturbed (op.exec p) (calls.record op) ↔ NotShared calls op := by
  cases op with
  | enable context interrupt handler =>
    exact iff_of_true (undisturbed_enable h context interrupt handler) trivial
  | disable context interrupt => exact undisturbed_disable_iff h context interrupt

end

/-- **Contexts do not disturb each other, unless one disables a source of another.** In every
state of a sequence of calls, each source from 1 to 31 whose latest call in a context was an
enable is live in that context, exactly when no call disables a source while the latest call on it
in another context was an enable. -/
theorem contexts_undisturbed_iff (ops : List (PlicOp H)) :
    (∀ pre, pre <+: ops →
        Undisturbed (run PlicOp.exec Plic.init pre) (run Calls.record Calls.none pre)) ↔
      Guarded Calls.record NotShared Calls.none ops := by
  have hinit : Undisturbed (Plic.init : Plic H) Calls.none := fun _ _ _ _ hcall => by
    cases hcall
  have hstate (pre : List (PlicOp H)) : run PlicOp.step (Plic.init, Calls.none) pre =
      (run PlicOp.exec Plic.init pre, run Calls.record Calls.none pre) := run_prod _ _ pre
  have hcalls : Guarded PlicOp.step (fun s op => NotShared s.2 op) (Plic.init, Calls.none) ops ↔
      Guarded Calls.record NotShared Calls.none ops :=
    guarded_map_iff (f := Prod.snd) (G := NotShared) (fun _ _ => rfl) _ ops
  have hrule : (∀ pre, pre <+: ops → Undisturbed (run PlicOp.step (Plic.init, Calls.none) pre).1
        (run PlicOp.step (Plic.init, Calls.none) pre).2) ↔
      Guarded PlicOp.step (fun s op => NotShared s.2 op) (Plic.init, Calls.none) ops :=
    always_iff_guarded (I := fun s : Plic H × Calls => Undisturbed s.1 s.2)
      (G := fun s op => NotShared s.2 op) hinit (fun _ op h => undisturbed_exec_iff h op) ops
  simp only [hstate] at hrule
  exact hrule.trans hcalls

/-- Two contexts enable the keyboard, and the second gives it up. -/
theorem not_undisturbed_shared :
    ¬ ∀ pre, pre <+: [PlicOp.enable 1 12 (), .enable 2 12 (), .disable 2 12] →
        Undisturbed (run PlicOp.exec Plic.init pre) (run Calls.record Calls.none pre) := by
  intro h
  have hlive := h _ (List.prefix_refl _) 1 12 (by decide) (by decide) (by decide)
  exact absurd hlive.handler (by decide)

end Marcelov
