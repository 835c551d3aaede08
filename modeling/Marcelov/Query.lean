import Marcelov.Interrupts

/-!
# Asking the PLIC

`interrupts_external_query` reads an enable bit that `interrupts_external_enable` and
`interrupts_external_disable` write. All three add `interrupt / 32` to a pointer of bytes and shift
by the whole source number, but only the last two refuse the sources from 32 on: for these the
query reads the word that begins `interrupt / 32` bytes later, and in it the bit of another source
(`seenSource`). `query_iff_latest_iff` says when this shows.
-/

namespace Marcelov

open Lib

variable {H : Type*}

/-- `interrupts_external_query`. The amount of the shift is taken modulo 32, as `sllw` does; in C a
shift of an `int` by 32 or more is undefined. -/
def interruptsExternalQuery (p : Plic H) (context interrupt : ℕ) : Bool :=
  let mask := 1#32 <<< (interrupt % 32)
  decide (loadWord p.mem (enabledRegister context interrupt) &&& mask = mask)

/-! ## Calls -/

/-- A call that changes the enable bits, with any handler. -/
inductive PlicCall (H : Type*) where
  | enable (context : Context) (interrupt : ℕ) (handler : Option H)
  | disable (context : Context) (interrupt : ℕ)

namespace PlicCall

def exec (p : Plic H) : PlicCall H → Plic H
  | enable context interrupt handler => interruptsExternalEnable p context interrupt handler
  | disable context interrupt => interruptsExternalDisable p context interrupt

def context : PlicCall H → Context
  | enable context _ _ => context
  | disable context _ => context

def interrupt : PlicCall H → ℕ
  | enable _ interrupt _ => interrupt
  | disable _ interrupt => interrupt

def enables : PlicCall H → Bool
  | enable _ _ _ => true
  | disable _ _ => false

/-- The call is accepted, and is about the pair. -/
def IsOn (c : Context) (i : ℕ) (call : PlicCall H) : Prop :=
  call.interrupt < externalTableSize ∧ call.context = c ∧ call.interrupt = i

instance (c : Context) (i : ℕ) (call : PlicCall H) : Decidable (call.IsOn c i) :=
  inferInstanceAs (Decidable (_ ∧ _ ∧ _))

end PlicCall

/-- The latest accepted call on the pair was an enable. -/
def LatestEnable (calls : List (PlicCall H)) (c : Context) (i : ℕ) : Prop :=
  (calls.filter fun call => call.IsOn c i).getLast?.any PlicCall.enables = true

instance (calls : List (PlicCall H)) (c : Context) (i : ℕ) : Decidable (LatestEnable calls c i) :=
  inferInstanceAs (Decidable (_ = true))

section

variable {calls : List (PlicCall H)} {call : PlicCall H} {c : Context} {i : ℕ}

theorem latestEnable_concat_of_isOn (h : call.IsOn c i) :
    LatestEnable (calls ++ [call]) c i ↔ call.enables = true := by
  simp [LatestEnable, List.filter_append, h]

theorem latestEnable_concat_of_not_isOn (h : ¬ call.IsOn c i) :
    LatestEnable (calls ++ [call]) c i ↔ LatestEnable calls c i := by
  simp [LatestEnable, List.filter_append, h]

theorem not_latestEnable_of_ge (hi : 32 ≤ i) : ¬ LatestEnable calls c i := by
  have hnone : calls.filter (fun call => call.IsOn c i) = [] := by
    rw [List.filter_eq_nil_iff]
    intro call _ h
    obtain ⟨haccepted, -, hsource⟩ := of_decide_eq_true h
    rw [externalTableSize] at haccepted
    omega
  rw [LatestEnable, hnone]
  exact Bool.false_ne_true

end

/-! ## The enable bits -/

def enableBase (c : Context) : ℕ := 0x2000 + 0x80 * c

/-- A source's enable bit is set if the latest accepted call enabled it. -/
def EnableBits (p : Plic H) (calls : List (PlicCall H)) : Prop :=
  ∀ c, ∀ n < 1024, memBit p.mem (enableBase c) n = true ↔ LatestEnable calls c n

section

variable {p : Plic H} {calls : List (PlicCall H)} {c c' : Context} {i n : ℕ}
  {word : BitVec 32 → BitVec 32 → BitVec 32} {priority : BitVec 32} {handler : Option H}

theorem enabledRegister_eq_add (c : Context) (i : ℕ) :
    enabledRegister c i = enableBase c + i / 32 := by
  have hc := c.isLt
  rw [enabledRegister, enableBase, u32_of_lt (by omega)]

/-- The bits of the context that a call is about are those of the new word. -/
theorem memBit_configure (hi : i < 32) (hn : n < 32) :
    memBit (configure p c i word priority handler).mem (enableBase c) n =
      (word (loadWord p.mem (enableBase c)) (1#32 <<< i)).getLsbD n := by
  have hreg : enabledRegister c i = enableBase c := enabledRegister_eq c hi
  rw [← getLsbD_loadWord _ _ hn, ← hreg, configure_word hi]

theorem memBit_configure_of_ne (hi : i < 32) (hn : n < 1024) (h : c' ≠ c ∨ 32 ≤ n) :
    memBit (configure p c i word priority handler).mem (enableBase c') n =
      memBit p.mem (enableBase c') n := by
  rw [configure_of_lt hi]
  dsimp only
  rw [memBit_storeWord_of_not_mem, memBit_storeWord_of_not_mem]
  · rw [enabledRegister_eq c hi, enableBase]
    by_cases hc : c' = c
    · have hge : 32 ≤ n := h.resolve_left (not_not_intro hc)
      rw [hc]
      omega
    · have hne : (c' : ℕ) ≠ c := fun heq => hc (Fin.ext heq)
      omega
  · rw [priorityRegister_eq hi, enableBase]
    omega

/-- An accepted call is a new word in which the bit of its source is what it says. -/
theorem exec_eq_configure (p : Plic H) (call : PlicCall H) :
    ∃ word priority handler,
      call.exec p = configure p call.context call.interrupt word priority handler ∧
        (call.interrupt < 32 → ∀ w n, (word w (1#32 <<< call.interrupt)).getLsbD n =
          if n = call.interrupt then call.enables else w.getLsbD n) := by
  cases call with
  | enable context i handler =>
    refine ⟨fun enabled mask => enabled ||| mask, 1, handler, rfl, ?_⟩
    intro (hi : i < 32) w n
    show (w ||| 1#32 <<< i).getLsbD n = if n = i then true else w.getLsbD n
    rw [getLsbD_or_bit hi]
    by_cases hn : n = i <;> simp [hn]
  | disable context i =>
    refine ⟨fun enabled mask => enabled &&& ~~~mask, 0, none, rfl, ?_⟩
    intro (hi : i < 32) w n
    show (w &&& ~~~(1#32 <<< i)).getLsbD n = if n = i then false else w.getLsbD n
    by_cases hn : n = i
    · rw [if_pos hn, hn, getLsbD_and_not_bit_self hi]
    · rw [if_neg hn, getLsbD_and_not_bit hi hn]

theorem memBit_exec (call : PlicCall H) (hn : n < 1024) :
    memBit (call.exec p).mem (enableBase c) n =
      if call.IsOn c n then call.enables else memBit p.mem (enableBase c) n := by
  obtain ⟨word, priority, handler, hexec, hword⟩ := exec_eq_configure p call
  rw [hexec]
  by_cases hon : call.IsOn c n
  · rw [if_pos hon]
    obtain ⟨hi, rfl, rfl⟩ := hon
    rw [memBit_configure hi hi, hword hi, if_pos rfl]
  · rw [if_neg hon]
    rcases Nat.lt_or_ge call.interrupt 32 with hi | hi
    · by_cases hc : c = call.context ∧ n < 32
      · obtain ⟨rfl, hlt⟩ := hc
        have hne : n ≠ call.interrupt := fun heq => hon ⟨hi, rfl, heq.symm⟩
        rw [memBit_configure hi hlt, hword hi, if_neg hne, getLsbD_loadWord _ _ hlt]
      · apply memBit_configure_of_ne hi hn
        rw [not_and_or, Nat.not_lt] at hc
        exact hc
    · rw [configure_of_ge hi]

theorem enableBits_init : EnableBits (Plic.init : Plic H) [] := by
  intro c n _
  simp [memBit, Plic.init, LatestEnable]

theorem enableBits_exec (h : EnableBits p calls) (call : PlicCall H) :
    EnableBits (call.exec p) (calls ++ [call]) := by
  intro c n hn
  rw [memBit_exec call hn]
  by_cases hon : call.IsOn c n
  · rw [if_pos hon, latestEnable_concat_of_isOn hon]
  · rw [if_neg hon, latestEnable_concat_of_not_isOn hon]
    exact h c n hn

/-- **The enable bits after any calls.** -/
theorem enableBits_run (calls : List (PlicCall H)) :
    EnableBits (run PlicCall.exec Plic.init calls) calls := by
  induction calls using List.reverseRecOn with
  | nil => exact enableBits_init
  | append_singleton calls call ih =>
    rw [run_append]
    exact enableBits_exec ih call

end

/-! ## The query -/

/-- The source whose bit `interrupts_external_query` reads. -/
def seenSource (interrupt : ℕ) : ℕ := 8 * (interrupt / 32) + interrupt % 32

theorem seenSource_of_lt {i : ℕ} (hi : i < 32) : seenSource i = i := by
  rw [seenSource, Nat.div_eq_of_lt hi, Nat.mod_eq_of_lt hi, Nat.mul_zero, Nat.zero_add]

theorem seenSource_lt {i : ℕ} (hi : i < 1024) : seenSource i < 1024 := by
  rw [seenSource]
  omega

theorem query_iff_memBit (p : Plic H) (c : Context) (i : ℕ) :
    interruptsExternalQuery p c i = true ↔ memBit p.mem (enableBase c) (seenSource i) = true := by
  have hbit : i % 32 < 32 := Nat.mod_lt i (by decide)
  rw [interruptsExternalQuery, decide_eq_true_iff, and_bit_eq_iff hbit, enabledRegister_eq_add,
    getLsbD_loadWord _ _ hbit, memBit_add, seenSource]

/-- **What a query answers.** After any calls, `interrupts_external_query` answers for the source
it is asked for exactly when that source is less than 32, or the source whose bit it reads is not
enabled. -/
theorem query_iff_latest_iff (calls : List (PlicCall H)) (c : Context) (i : ℕ) (hi : i < 1024) :
    (interruptsExternalQuery (run PlicCall.exec Plic.init calls) c i = true ↔
        LatestEnable calls c i) ↔
      i < 32 ∨ ¬ LatestEnable calls c (seenSource i) := by
  rw [query_iff_memBit, enableBits_run calls c _ (seenSource_lt hi)]
  rcases Nat.lt_or_ge i 32 with hlt | hge
  · rw [seenSource_of_lt hlt]
    exact iff_of_true Iff.rfl (Or.inl hlt)
  · rw [iff_false_right (not_latestEnable_of_ge hge), or_iff_right (Nat.not_lt.2 hge)]

/-- The keyboard, and a source that shares no bit with it. -/
theorem query_iff_latest_keyboard :
    interruptsExternalQuery
        (run PlicCall.exec Plic.init [.enable 1 12 (some ()), .disable 1 7]) 1 12 = true ↔
      LatestEnable [.enable 1 12 (some ()), .disable 1 7] 1 12 :=
  (query_iff_latest_iff [.enable 1 12 (some ()), .disable 1 7] 1 12 (by decide)).2
    (Or.inl (by decide))

/-- With source 8 enabled, the query for source 32 says yes. -/
theorem query_answers_for_another :
    ¬ (interruptsExternalQuery (run PlicCall.exec Plic.init [.enable 1 8 (some ())]) 1 32 = true ↔
      LatestEnable [.enable 1 8 (some ())] 1 32) := by
  decide

end Marcelov
