import Marcelov.Query
import Marcelov.Trap

/-!
# Which interrupts arrive

`interrupts_enable` of `interrupts.c`, among any calls of `interrupts_external_enable` and
`interrupts_external_disable`. An interrupt of a source gets to `handle_trap` if its bit is set, its
priority is above the threshold, and the hart takes external interrupts. `delivers_iff` says which
sources these are: those that the supervisor context has enabled and that no context has disabled
since, once `interrupts_enable` was called; and what `handle_external_irq` then does.
-/

namespace Marcelov

open Lib

variable {H : Type*}

/-! ## The hart -/

def sstatusSie : BitVec 64 := 0x2

/-- The supervisor CSRs that `interrupts_enable` writes. -/
structure Csrs where
  stvec : BitVec 64
  sstatus : BitVec 64
  sie : BitVec 64
  deriving DecidableEq

structure Hart (H : Type*) where
  plic : Plic H
  csrs : Csrs

/-- `priority_threshold - PLIC_BASE` -/
def thresholdRegister : ℕ := 0x200000 + 0x1000 * supervisorContext

/-- `interrupts_enable`, where `handle_trap` is at the address `trap`. -/
def interruptsEnable (trap : BitVec 64) (m : Hart H) : Hart H where
  csrs :=
    { stvec := trap
      sstatus := m.csrs.sstatus ||| sstatusSie
      sie := 1#64 <<< externalIrq }
  plic := { m.plic with mem := storeWord m.plic.mem thresholdRegister 0 }

/-- The hart takes supervisor external interrupts. -/
def Csrs.Open (csrs : Csrs) : Prop :=
  csrs.sstatus &&& sstatusSie = sstatusSie ∧ csrs.sie.getLsbD externalIrq = true

instance (csrs : Csrs) : Decidable csrs.Open := inferInstanceAs (Decidable (_ ∧ _))

/-- `SUPERVISOR_CONTEXT` -/
def supervisor : Context := 1

/-- While its interrupt is pending, the source makes the hart trap. -/
structure Delivers (m : Hart H) (interrupt : ℕ) : Prop where
  bit : memBit m.plic.mem (enableBase supervisor) interrupt = true
  priority : loadWord m.plic.mem thresholdRegister <
    loadWord m.plic.mem (priorityRegister interrupt)
  csrs : m.csrs.Open

inductive HartCall (H : Type*) where
  | plic (call : PlicCall H)
  | enable

def HartCall.exec (trap : BitVec 64) (m : Hart H) : HartCall H → Hart H
  | plic call => { m with plic := call.exec m.plic }
  | enable => interruptsEnable trap m

/-- The calls that change the enable bits. -/
def HartCall.plicCalls (calls : List (HartCall H)) : List (PlicCall H) :=
  calls.filterMap fun
    | plic call => some call
    | enable => none

/-- A hart that nothing was enabled on, with any threshold and any CSRs. -/
def Hart.reset (threshold : BitVec 32) (csrs : Csrs) : Hart H where
  plic := { Plic.init with mem := storeWord (fun _ => 0) thresholdRegister threshold }
  csrs := csrs

/-! ## The latest call on a source -/

namespace PlicCall

def priority (call : PlicCall H) : BitVec 32 := if call.enables then 1 else 0

def handler : PlicCall H → Option H
  | enable _ _ handler => handler
  | disable _ _ => none

end PlicCall

/-- The latest call on a source, in any context. -/
def latestOn (calls : List (PlicCall H)) (i : ℕ) : Option (PlicCall H) :=
  (calls.filter fun call => call.interrupt = i).getLast?

section

variable {calls : List (PlicCall H)} {call : PlicCall H} {i : ℕ}

theorem latestOn_concat_self : latestOn (calls ++ [call]) call.interrupt = some call := by
  simp [latestOn, List.filter_append]

theorem latestOn_concat_of_ne (h : i ≠ call.interrupt) :
    latestOn (calls ++ [call]) i = latestOn calls i := by
  simp [latestOn, List.filter_append, Ne.symm h]

end

/-- The priorities and handlers are those of the latest call on each source. -/
structure Sources (p : Plic H) (calls : List (PlicCall H)) : Prop where
  priority : ∀ i < 32, loadWord p.mem (priorityRegister i) =
    ((latestOn calls i).map PlicCall.priority).getD 0
  handler : ∀ i < 32, p.externalHandler i = (latestOn calls i).bind PlicCall.handler

section

variable {p : Plic H} {calls : List (PlicCall H)}

theorem exec_eq (p : Plic H) (call : PlicCall H) :
    ∃ word, call.exec p =
      configure p call.context call.interrupt word call.priority call.handler := by
  cases call with
  | enable context i handler => exact ⟨fun enabled mask => enabled ||| mask, rfl⟩
  | disable context i => exact ⟨fun enabled mask => enabled &&& ~~~mask, rfl⟩

theorem sources_exec (h : Sources p calls) (call : PlicCall H) :
    Sources (call.exec p) (calls ++ [call]) := by
  obtain ⟨word, heq⟩ := exec_eq p call
  rw [heq]
  rcases Nat.lt_or_ge call.interrupt 32 with hlt | hge
  · refine ⟨fun i hi => ?_, fun i hi => ?_⟩
    · by_cases hsource : i = call.interrupt
      · subst hsource
        rw [configure_priority hi, latestOn_concat_self]
        rfl
      · rw [configure_priority_of_ne hsource hlt hi, latestOn_concat_of_ne hsource]
        exact h.priority i hi
    · rw [configure_handler hlt]
      by_cases hsource : i = call.interrupt
      · subst hsource
        rw [Function.update_self, latestOn_concat_self]
        rfl
      · rw [Function.update_of_ne hsource, latestOn_concat_of_ne hsource]
        exact h.handler i hi
  · rw [configure_of_ge hge]
    refine ⟨fun i hi => ?_, fun i hi => ?_⟩ <;> rw [latestOn_concat_of_ne (by omega)]
    exacts [h.priority i hi, h.handler i hi]

/-! ## The threshold -/

theorem memBit_storeThreshold (mem : ℕ → BitVec 8) (w : BitVec 32) (c : Context) {n : ℕ}
    (hn : n < 1024) :
    memBit (storeWord mem thresholdRegister w) (enableBase c) n = memBit mem (enableBase c) n := by
  have hc := c.isLt
  apply memBit_storeWord_of_not_mem
  rw [thresholdRegister, supervisorContext, enableBase]
  omega

theorem priority_storeThreshold (mem : ℕ → BitVec 8) (w : BitVec 32) {i : ℕ} (hi : i < 32) :
    loadWord (storeWord mem thresholdRegister w) (priorityRegister i) =
      loadWord mem (priorityRegister i) := by
  apply loadWord_storeWord_of_disjoint
  rw [WordDisjoint, thresholdRegister, supervisorContext, priorityRegister_eq hi]
  omega

theorem threshold_exec (p : Plic H) (call : PlicCall H) :
    loadWord (call.exec p).mem thresholdRegister = loadWord p.mem thresholdRegister := by
  obtain ⟨word, heq⟩ := exec_eq p call
  have hc := call.context.isLt
  rw [heq]
  rcases Nat.lt_or_ge call.interrupt 32 with hlt | hge
  · rw [configure_of_lt hlt, loadWord_storeWord_of_disjoint, loadWord_storeWord_of_disjoint]
    · rw [WordDisjoint, thresholdRegister, supervisorContext, enabledRegister_eq _ hlt]
      omega
    · rw [WordDisjoint, thresholdRegister, supervisorContext, priorityRegister_eq hlt]
      omega
  · rw [configure_of_ge hge]

end

/-! ## Runs -/

/-- The hart after `calls`, from a reset with this threshold and these CSRs. -/
structure SetUp (trap : BitVec 64) (threshold : BitVec 32) (csrs : Csrs)
    (calls : List (HartCall H)) (m : Hart H) : Prop where
  bits : EnableBits m.plic (HartCall.plicCalls calls)
  sources : Sources m.plic (HartCall.plicCalls calls)
  enabled : .enable ∈ calls → loadWord m.plic.mem thresholdRegister = 0 ∧ m.csrs.Open ∧
    m.csrs.stvec = trap
  untouched : .enable ∉ calls → loadWord m.plic.mem thresholdRegister = threshold ∧ m.csrs = csrs

section

variable {trap : BitVec 64} {threshold : BitVec 32} {csrs : Csrs} {calls : List (HartCall H)}
  {m : Hart H}

theorem setUp_reset (trap : BitVec 64) (threshold : BitVec 32) (csrs : Csrs) :
    SetUp trap threshold csrs [] (Hart.reset threshold csrs : Hart H) where
  bits := by
    intro c n hn
    rw [Hart.reset, memBit_storeThreshold _ _ c hn]
    simp [memBit, HartCall.plicCalls, LatestEnable]
  sources := by
    refine ⟨fun i hi => ?_, fun _ _ => rfl⟩
    rw [Hart.reset, priority_storeThreshold _ _ hi]
    simp [loadWord, HartCall.plicCalls, latestOn]
  enabled := fun h => absurd h List.not_mem_nil
  untouched := fun _ => ⟨loadWord_storeWord, rfl⟩

theorem open_interruptsEnable (trap : BitVec 64) (m : Hart H) :
    (interruptsEnable trap m).csrs.Open := by
  have hsie : (1#64 <<< externalIrq).getLsbD externalIrq = true := by decide
  refine ⟨BitVec.eq_of_getLsbD_eq fun i _ => ?_, hsie⟩
  show ((m.csrs.sstatus ||| sstatusSie) &&& sstatusSie).getLsbD i = sstatusSie.getLsbD i
  rw [BitVec.getLsbD_and, BitVec.getLsbD_or]
  cases m.csrs.sstatus.getLsbD i <;> cases sstatusSie.getLsbD i <;> rfl

/-- **One call.** -/
theorem setUp_exec (h : SetUp trap threshold csrs calls m) (call : HartCall H) :
    SetUp trap threshold csrs (calls ++ [call]) (call.exec trap m) := by
  cases call with
  | plic call =>
    have hcalls : HartCall.plicCalls (calls ++ [.plic call]) =
        HartCall.plicCalls calls ++ [call] := List.filterMap_append
    have hmem : .enable ∈ calls ++ [HartCall.plic call] ↔ .enable ∈ calls := by simp
    refine ⟨?_, ?_, fun he => ?_, fun he => ?_⟩
    · rw [hcalls]
      exact enableBits_exec h.bits call
    · rw [hcalls]
      exact sources_exec h.sources call
    · obtain ⟨hthreshold, hcsrs⟩ := h.enabled (hmem.1 he)
      exact ⟨(threshold_exec m.plic call).trans hthreshold, hcsrs⟩
    · obtain ⟨hthreshold, hcsrs⟩ := h.untouched (hmem.not.1 he)
      exact ⟨(threshold_exec m.plic call).trans hthreshold, hcsrs⟩
  | enable =>
    have hcalls : HartCall.plicCalls (calls ++ [.enable]) = HartCall.plicCalls calls := by
      simp [HartCall.plicCalls, List.filterMap_append]
    refine ⟨?_, ?_, fun _ => ⟨loadWord_storeWord, open_interruptsEnable trap m, rfl⟩, fun he => ?_⟩
    · rw [hcalls]
      intro c n hn
      exact (Bool.eq_iff_iff.1 (memBit_storeThreshold _ _ c hn)).trans (h.bits c n hn)
    · rw [hcalls]
      exact ⟨fun i hi => (priority_storeThreshold _ _ hi).trans (h.sources.priority i hi),
        h.sources.handler⟩
    · exact absurd (List.mem_append_right calls (List.mem_singleton_self _)) he

theorem setUp_run (trap : BitVec 64) (threshold : BitVec 32) (csrs : Csrs)
    (calls : List (HartCall H)) :
    SetUp trap threshold csrs calls
      (run (HartCall.exec trap) (Hart.reset threshold csrs) calls) := by
  induction calls using List.reverseRecOn with
  | nil => exact setUp_reset trap threshold csrs
  | append_singleton calls call ih =>
    rw [run_append]
    exact setUp_exec ih call

/-! ## The sources that deliver -/

theorem lt_priority_iff (threshold : BitVec 32) (call : PlicCall H) :
    threshold < call.priority ↔ threshold = 0 ∧ call.enables = true := by
  unfold PlicCall.priority
  cases call.enables <;> simp

/-- The gate that `interrupts_enable` opens for all sources. -/
theorem SetUp.gate_iff (h : SetUp trap threshold csrs calls m) :
    loadWord m.plic.mem thresholdRegister = 0 ∧ m.csrs.Open ↔
      .enable ∈ calls ∨ threshold = 0 ∧ csrs.Open := by
  by_cases he : .enable ∈ calls
  · obtain ⟨hthreshold, hopen, -⟩ := h.enabled he
    exact iff_of_true ⟨hthreshold, hopen⟩ (Or.inl he)
  · obtain ⟨hthreshold, hcsrs⟩ := h.untouched he
    rw [or_iff_right he, hthreshold, hcsrs]

theorem SetUp.above_threshold_iff (h : SetUp trap threshold csrs calls m) {i : ℕ} (hi : i < 32) :
    loadWord m.plic.mem thresholdRegister < loadWord m.plic.mem (priorityRegister i) ↔
      loadWord m.plic.mem thresholdRegister = 0 ∧
        (latestOn (HartCall.plicCalls calls) i).any PlicCall.enables = true := by
  rw [h.sources.priority i hi]
  cases latestOn (HartCall.plicCalls calls) i with
  | none => simp
  | some call => simpa using lt_priority_iff _ call

theorem SetUp.delivers (h : SetUp trap threshold csrs calls m) {i : ℕ} (hi : i < 32) :
    Delivers m i ↔
      (.enable ∈ calls ∨ threshold = 0 ∧ csrs.Open) ∧
        LatestEnable (HartCall.plicCalls calls) supervisor i ∧
        (latestOn (HartCall.plicCalls calls) i).any PlicCall.enables = true := by
  have hbit := h.bits supervisor i (by omega)
  have habove := h.above_threshold_iff hi
  constructor
  · intro hd
    obtain ⟨hzero, hcall⟩ := habove.1 hd.priority
    exact ⟨h.gate_iff.1 ⟨hzero, hd.csrs⟩, hbit.1 hd.bit, hcall⟩
  · rintro ⟨hgate, hlatest, hcall⟩
    obtain ⟨hzero, hopen⟩ := h.gate_iff.2 hgate
    exact ⟨hbit.2 hlatest, habove.2 ⟨hzero, hcall⟩, hopen⟩

/-- What `handle_external_irq` does for a source is up to the latest call on it. -/
theorem SetUp.handleExternalIrq_eq (h : SetUp trap threshold csrs calls m) {i : ℕ} (hi : i < 32) :
    handleExternalIrq m.plic i =
      ((latestOn (HartCall.plicCalls calls) i).bind PlicCall.handler).elim
          [.print "Ignoring unknown interrupt ", .printHex i, .print "\n"]
          (fun handler => [.call handler]) ++
        [.complete supervisorContext i] := by
  rw [← h.sources.handler i hi]
  unfold handleExternalIrq
  dsimp only
  rw [if_pos (show i < externalTableSize from hi)]
  cases m.plic.externalHandler i <;> rfl

end

/-- **Which sources deliver.** From any threshold and any CSRs, after any calls that enable and
disable sources in any contexts, with or without `interrupts_enable` among them: a source below 32,
the size of the table of handlers, makes the hart trap exactly when `interrupts_enable` was called
(or the hart was open before), the latest call on the source in the supervisor context was an
enable, and so was the latest call on it in any context. `handle_external_irq` then calls the
handler of that last call, whichever context it was for, if the handler is not null, and completes
the claim. -/
theorem delivers_iff (trap : BitVec 64) (threshold : BitVec 32) (csrs : Csrs)
    (calls : List (HartCall H)) (i : ℕ) (hi : i < 32) :
    let m := run (HartCall.exec trap) (Hart.reset threshold csrs) calls
    let latest := latestOn (HartCall.plicCalls calls) i
    (Delivers m i ↔
      (.enable ∈ calls ∨ threshold = 0 ∧ csrs.Open) ∧
        LatestEnable (HartCall.plicCalls calls) supervisor i ∧
        latest.any PlicCall.enables = true) ∧
    (∀ context handler, latest = some (.enable context i (some handler)) →
      handleExternalIrq m.plic i = [.call handler, .complete supervisorContext i]) ∧
    (.enable ∈ calls → m.csrs.stvec = trap) := by
  intro m latest
  have h : SetUp trap threshold csrs calls m := setUp_run trap threshold csrs calls
  refine ⟨h.delivers hi, fun context handler hlatest => ?_, fun he => (h.enabled he).2.2⟩
  rw [h.handleExternalIrq_eq hi, show latestOn _ i = _ from hlatest]
  rfl

def mainCalls : List (HartCall Handler) := [
  .plic (.enable supervisor keyboardIrq (some .keyboard)),
  .plic (.enable supervisor mouseIrq (some .mouse)),
  .enable]

/-- The keyboard, from a hart with a threshold that holds everything back. -/
theorem delivers_iff_keyboard :
    Delivers (run (HartCall.exec 0x80200000) (Hart.reset 7 ⟨0, 0, 0⟩) mainCalls) 12 :=
  (delivers_iff 0x80200000 7 ⟨0, 0, 0⟩ mainCalls 12 (by decide)).1.2
    ⟨Or.inl (by simp [mainCalls]), by decide, by decide⟩

/-- **After the calls of `main`** the sources that deliver are those with a handler of `kernel.c`,
so a trap never finds its source unknown. -/
theorem main_delivers (trap : BitVec 64) (threshold : BitVec 32) (csrs : Csrs) :
    let m := run (HartCall.exec trap) (Hart.reset threshold csrs) mainCalls
    Routed m.plic ∧ ∀ i < 32, Delivers m i ↔ (route i).isSome = true := by
  intro m
  have h : SetUp trap threshold csrs mainCalls m := setUp_run trap threshold csrs mainCalls
  have hroute : ∀ i < 32, (latestOn (HartCall.plicCalls mainCalls) i).bind PlicCall.handler =
      route i := by decide
  have hlatest : ∀ i < 32, (LatestEnable (HartCall.plicCalls mainCalls) supervisor i ∧
      (latestOn (HartCall.plicCalls mainCalls) i).any PlicCall.enables = true) ↔
      (route i).isSome = true := by
    decide
  refine ⟨fun i hi => (h.sources.handler i hi).trans (hroute i hi), fun i hi => ?_⟩
  rw [h.delivers hi, ← hlatest i hi, and_iff_right (Or.inl (by simp [mainCalls]))]

end Marcelov
