import Mathlib.Data.BitVec
import Mathlib.Logic.Function.Basic
import Marcelov.Lib.Run

/-!
# The keyboard and mouse interfaces

`kmi.c` writes a command to the `data` register of a PL050 and polls `stat` until the device has
sent it. Here the processor and the two devices take turns in any order: a write sets TXBUSY, and
the device changes its status register as it likes, but does not begin to send by itself.

`ready_iff` is about any sequence of such accesses. `kmi_enable_turns` applies it to what `main`
does: no byte is written over one that is still being sent, exactly if both devices are idle at
the start.
-/

namespace Marcelov

open Lib

/-! ## The registers -/

inductive KmiDevice where
  | keyboard
  | mouse
  deriving DecidableEq

/-- The registers that are written. -/
inductive KmiRegister where
  | cr
  | data
  deriving DecidableEq

/-- `PL050_CONTROL.KmiEn` -/
def kmiEn : BitVec 32 := 4

/-- `PL050_CONTROL.KMIRXINTREn` -/
def kmiRxIntrEn : BitVec 32 := 16

/-- `PL050_STATUS.TXBUSY` -/
def txBusy : BitVec 32 := 32

/-- What the processor does with a device. -/
inductive KmiOp where
  /-- `device->r = v;` -/
  | store (d : KmiDevice) (r : KmiRegister) (v : BitVec 32)
  /-- `while (device->stat & PL050_STATUS.TXBUSY);` -/
  | wait (d : KmiDevice)
  deriving DecidableEq

/-! ## The functions -/

def kmiSend (device : KmiDevice) (command : BitVec 8) : List KmiOp :=
  [.store device .data (command.setWidth 32), .wait device]

def kmiSendWithData (device : KmiDevice) (command data : BitVec 8) : List KmiOp :=
  [.store device .data (command.setWidth 32), .wait device, .store device .data (data.setWidth 32),
    .wait device]

def kmiEnableMouse : List KmiOp :=
  .store .mouse .cr (kmiEn ||| kmiRxIntrEn) :: kmiSend .mouse 0xf4

def kmiEnableKeyboard : List KmiOp :=
  .store .keyboard .cr (kmiEn ||| kmiRxIntrEn) ::
    (kmiSend .keyboard 0xf4 ++ kmiSendWithData .keyboard 0xf0 1)

/-- The two calls of `main`. -/
def kmiEnable : List KmiOp := kmiEnableKeyboard ++ kmiEnableMouse

/-! ## The turns -/

/-- The status registers, what the processor has still to do, and the stores it has made. -/
structure Kmi where
  stat : KmiDevice → BitVec 32
  todo : List KmiOp
  stores : List (KmiDevice × KmiRegister × BitVec 32)

inductive KmiTurn where
  | cpu
  /-- The device would like its status register to be `v`. -/
  | device (d : KmiDevice) (v : BitVec 32)

namespace Kmi

def Idle (m : Kmi) (d : KmiDevice) : Prop := m.stat d &&& txBusy = 0

instance (m : Kmi) (d : KmiDevice) : Decidable (m.Idle d) := inferInstanceAs (Decidable (_ = _))

/-- The status after a store: a byte in `data` is sent. -/
def statAfter (m : Kmi) (d : KmiDevice) : KmiRegister → KmiDevice → BitVec 32
  | .cr => m.stat
  | .data => Function.update m.stat d (m.stat d ||| txBusy)

def step (m : Kmi) : KmiTurn → Kmi
  | .cpu =>
    match m.todo with
    | [] => m
    | .store d r v :: ops => ⟨m.statAfter d r, ops, m.stores ++ [(d, r, v)]⟩
    | .wait d :: ops => if m.Idle d then { m with todo := ops } else m
  -- TXBUSY stays only where it is set
  | .device d v => { m with stat := Function.update m.stat d (v &&& (m.stat d ||| ~~~txBusy)) }

/-- The processor does not write to `data` while the device is sending. -/
def Ready (m : Kmi) (t : KmiTurn) : Prop :=
  t = .cpu → ∀ d v ops, m.todo = .store d .data v :: ops → m.Idle d

end Kmi

/-- The devices that are idle. -/
def Kmi.idle (m : Kmi) (d : KmiDevice) : Bool := m.Idle d

/-- A turn of the processor at which no device is sending. -/
def Kmi.Free (m : Kmi) (t : KmiTurn) : Prop :=
  match t with
  | .cpu => m.Idle .keyboard ∧ m.Idle .mouse
  | .device _ _ => False

instance (m : Kmi) (t : KmiTurn) : Decidable (m.Free t) :=
  match t with
  | .cpu => inferInstanceAs (Decidable (m.Idle .keyboard ∧ m.Idle .mouse))
  | .device _ _ => .isFalse id

/-- How many of the turns are such turns. -/
def freeTurns : Kmi → List KmiTurn → ℕ
  | _, [] => 0
  | m, t :: ts => (if m.Free t then 1 else 0) + freeTurns (m.step t) ts

/-- Each byte is waited for before the next one to the same device, if those with `idle` are idle
at the start. -/
def Awaited (idle : KmiDevice → Bool) : List KmiOp → Bool
  | [] => true
  | .store _ .cr _ :: ops => Awaited idle ops
  | .store d .data _ :: ops => idle d && Awaited (Function.update idle d false) ops
  | .wait d :: ops => Awaited (Function.update idle d true) ops

/-- The stores among the accesses. -/
def storesOf (ops : List KmiOp) : List (KmiDevice × KmiRegister × BitVec 32) :=
  ops.filterMap fun
    | .store d r v => some (d, r, v)
    | .wait _ => none

/-! ## One turn -/

section

variable {m : Kmi} {d : KmiDevice} {ops : List KmiOp}

theorem idle_update (m : Kmi) (d : KmiDevice) (s : BitVec 32) (ops : List KmiOp)
    (stores : List (KmiDevice × KmiRegister × BitVec 32)) :
    (Kmi.mk (Function.update m.stat d s) ops stores).idle =
      Function.update m.idle d (s &&& txBusy = 0) :=
  Function.comp_update (fun s : BitVec 32 => decide (s &&& txBusy = 0)) m.stat d s

theorem busy_or (s : BitVec 32) : ¬ (s ||| txBusy) &&& txBusy = 0 := by
  rw [BitVec.and_or_distrib_right]
  intro h
  exact absurd (BitVec.or_eq_zero_iff.1 h).2 (by decide)

theorem not_busy_and {s : BitVec 32} (h : s &&& txBusy = 0) (v : BitVec 32) :
    v &&& (s ||| ~~~txBusy) &&& txBusy = 0 := by
  rw [BitVec.and_assoc, BitVec.and_or_distrib_right, h]
  simp [txBusy]

theorem step_cr {v : BitVec 32} (h : m.todo = .store d .cr v :: ops) :
    (m.step .cpu).idle = m.idle ∧ (m.step .cpu).todo = ops := by
  rw [Kmi.step, h]
  exact ⟨rfl, rfl⟩

theorem step_data {v : BitVec 32} (h : m.todo = .store d .data v :: ops) :
    (m.step .cpu).idle = Function.update m.idle d false ∧ (m.step .cpu).todo = ops := by
  rw [Kmi.step, h]
  refine ⟨(idle_update m d _ ops _).trans ?_, rfl⟩
  rw [decide_eq_false (busy_or _)]

theorem step_wait (h : m.todo = .wait d :: ops) :
    m.step .cpu = if m.Idle d then { m with todo := ops } else m := by
  rw [Kmi.step, h]

theorem idle_device (m : Kmi) (d : KmiDevice) (v : BitVec 32) :
    (m.step (.device d v)).idle =
      Function.update m.idle d (v &&& (m.stat d ||| ~~~txBusy) &&& txBusy = 0) :=
  idle_update m d _ m.todo m.stores

theorem idle_mono_device {v : BitVec 32} {d' : KmiDevice} (h : m.idle d' = true) :
    (m.step (.device d v)).idle d' = true := by
  rw [idle_device]
  by_cases heq : d' = d
  · subst heq
    rw [Function.update_self]
    exact decide_eq_true (not_busy_and (of_decide_eq_true h) v)
  · rwa [Function.update_of_ne heq]

/-! ## Any accesses -/

theorem awaited_mono {k k' : KmiDevice → Bool} (h : ∀ d, k d = true → k' d = true)
    {ops : List KmiOp} (hops : Awaited k ops = true) : Awaited k' ops = true := by
  have hupdate {k k' : KmiDevice → Bool} (h : ∀ d, k d = true → k' d = true) (d : KmiDevice)
      (b : Bool) (d' : KmiDevice) (hd' : Function.update k d b d' = true) :
      Function.update k' d b d' = true := by
    by_cases heq : d' = d
    · subst heq
      rw [Function.update_self] at hd' ⊢
      exact hd'
    · rw [Function.update_of_ne heq] at hd' ⊢
      exact h d' hd'
  fun_induction Awaited k ops generalizing k' with
  | case1 => rfl
  | case2 k d v ops ih => exact ih h hops
  | case3 k d v ops ih =>
    obtain ⟨hd, hrest⟩ := Bool.and_eq_true_iff.1 hops
    exact Bool.and_eq_true_iff.2 ⟨h d hd, ih (hupdate h d false) hrest⟩
  | case4 k d ops ih => exact ih (hupdate h d true) hops

/-- **One turn** is no store over a byte being sent, and keeps that each byte is waited for. -/
theorem awaited_step (h : Awaited m.idle m.todo = true) (t : KmiTurn) :
    m.Ready t ∧ Awaited (m.step t).idle (m.step t).todo = true := by
  constructor
  · rintro - d v ops htodo
    rw [htodo] at h
    exact of_decide_eq_true (Bool.and_eq_true_iff.1 h).1
  cases t with
  | device d v => exact awaited_mono (fun d' => idle_mono_device) h
  | cpu =>
    rcases htodo : m.todo with - | ⟨⟨d, - | -, v⟩ | d, ops⟩
    · rw [Kmi.step, htodo]
      exact h
    · obtain ⟨hidle, hops⟩ := step_cr htodo
      rw [htodo] at h
      rw [hidle, hops]
      exact h
    · obtain ⟨hidle, hops⟩ := step_data htodo
      rw [htodo] at h
      rw [hidle, hops]
      exact (Bool.and_eq_true_iff.1 h).2
    · rw [step_wait htodo]
      split_ifs with hd
      · have hsame : Function.update m.idle d true = m.idle := by
          rw [← decide_eq_true hd]
          exact Function.update_eq_self ..
        rw [htodo, Awaited, hsame] at h
        exact h
      · exact h

/-- If some byte is not waited for, there are turns that lead to a store over one being sent. -/
theorem exists_not_guarded (h : ¬ Awaited m.idle m.todo = true) :
    ∃ turns, ¬ Guarded Kmi.step Kmi.Ready m turns := by
  induction htodo : m.todo generalizing m with
  | nil =>
    rw [htodo] at h
    exact absurd rfl h
  | cons op ops ih =>
    rw [htodo] at h
    rcases op with ⟨d, - | -, v⟩ | d
    · obtain ⟨hidle, hops⟩ := step_cr htodo
      rw [Awaited, ← hidle, ← hops] at h
      obtain ⟨turns, hturns⟩ := ih h hops
      exact ⟨.cpu :: turns, fun hg => hturns hg.2⟩
    · by_cases hd : m.Idle d
      · obtain ⟨hidle, hops⟩ := step_data htodo
        rw [Awaited, Kmi.idle, decide_eq_true hd, Bool.true_and, ← hidle, ← hops] at h
        obtain ⟨turns, hturns⟩ := ih h hops
        exact ⟨.cpu :: turns, fun hg => hturns hg.2⟩
      · exact ⟨[.cpu], fun hg => hd (hg.1 rfl d v ops htodo)⟩
    · -- the device is done, and the processor leaves its loop
      have hdone : (m.step (.device d 0)).idle = Function.update m.idle d true := by
        rw [idle_device, decide_eq_true]
        exact (congrArg (· &&& txBusy) BitVec.zero_and).trans BitVec.zero_and
      have hidle : (m.step (.device d 0)).Idle d :=
        of_decide_eq_true ((congrFun hdone d).trans (Function.update_self ..))
      have hstep := step_wait (m := m.step (.device d 0)) htodo
      rw [if_pos hidle] at hstep
      have hops : ((m.step (.device d 0)).step .cpu).todo = ops := by rw [hstep]
      rw [Awaited, ← hdone, ← hops] at h
      obtain ⟨turns, hturns⟩ := ih (m := (m.step (.device d 0)).step .cpu)
        (by rwa [hstep] at h ⊢) hops
      exact ⟨.device d 0 :: .cpu :: turns, fun hg => hturns hg.2.2⟩

/-- **Any accesses.** They never write over a byte that is being sent, however the devices take
their turns, exactly when each byte is waited for. -/
theorem ready_iff (m : Kmi) :
    (∀ turns, Guarded Kmi.step Kmi.Ready m turns) ↔ Awaited m.idle m.todo = true := by
  constructor
  · intro hall
    by_contra h
    obtain ⟨turns, hturns⟩ := exists_not_guarded h
    exact hturns (hall turns)
  · intro h turns
    induction turns generalizing m with
    | nil => trivial
    | cons t turns ih =>
      obtain ⟨hready, hstep⟩ := awaited_step h t
      exact ⟨hready, ih _ hstep⟩

/-! ## What comes of them -/

/-- **One turn** of what is stored, and still to be stored. -/
theorem stores_step (m : Kmi) (t : KmiTurn) :
    (m.step t).stores ++ storesOf (m.step t).todo = m.stores ++ storesOf m.todo := by
  cases t with
  | device d v => rfl
  | cpu =>
    rcases htodo : m.todo with - | ⟨⟨d, r, v⟩ | d, ops⟩
    · rw [Kmi.step, htodo, htodo]
    · rw [Kmi.step, htodo]
      exact List.append_assoc m.stores [(d, r, v)] (storesOf ops)
    · rw [step_wait htodo]
      split_ifs
      · rfl
      · rw [htodo]

/-- No store is lost, made twice or made before its turn. -/
theorem stores_run (m : Kmi) (turns : List KmiTurn) :
    (run Kmi.step m turns).stores ++ storesOf (run Kmi.step m turns).todo =
      m.stores ++ storesOf m.todo :=
  run_invariant (I := fun m' => m'.stores ++ storesOf m'.todo = m.stores ++ storesOf m.todo) rfl
    (fun m' t h => (stores_step m' t).trans h) turns

/-- **One turn** at which no device is sending is a step forward. -/
theorem length_todo_step (m : Kmi) (t : KmiTurn) :
    (m.step t).todo.length ≤ m.todo.length - if m.Free t then 1 else 0 := by
  cases t with
  | device d v => exact le_rfl
  | cpu =>
    rcases htodo : m.todo with - | ⟨⟨d, r, v⟩ | d, ops⟩
    · rw [Kmi.step, htodo]
      simp [htodo]
    · rw [Kmi.step, htodo]
      split_ifs <;> simp
    · rw [step_wait htodo]
      by_cases hfree : m.Free .cpu
      · have hd : m.Idle d := by
          cases d with
          | keyboard => exact hfree.1
          | mouse => exact hfree.2
        rw [if_pos hd, if_pos hfree]
        simp
      · rw [if_neg hfree]
        split_ifs
        · simp
        · simp [htodo]

theorem length_todo_run (m : Kmi) (turns : List KmiTurn) :
    (run Kmi.step m turns).todo.length ≤ m.todo.length - freeTurns m turns := by
  induction turns generalizing m with
  | nil => exact le_rfl
  | cons t turns ih =>
    have hstep := length_todo_step m t
    have hrest := ih (m.step t)
    rw [run_cons, freeTurns]
    omega

theorem stores_of_freeTurns {turns : List KmiTurn} (h : m.todo.length ≤ freeTurns m turns) :
    (run Kmi.step m turns).stores = m.stores ++ storesOf m.todo := by
  have hlength := length_todo_run m turns
  have htodo : (run Kmi.step m turns).todo = [] := List.eq_nil_of_length_eq_zero (by omega)
  rw [← stores_run m turns, htodo]
  exact (List.append_nil _).symm

end

/-! ## The result -/

/-- The state in which `main` calls `kmi_enable_keyboard`. -/
def Kmi.init (stat : KmiDevice → BitVec 32) : Kmi where
  stat
  todo := kmiEnable
  stores := []

theorem awaited_kmiEnable (idle : KmiDevice → Bool) :
    Awaited idle kmiEnable = (idle .keyboard && idle .mouse) := by
  simp [kmiEnable, kmiEnableKeyboard, kmiEnableMouse, kmiSend, kmiSendWithData, Awaited]

/-- **The devices are enabled.** Whatever the status registers hold at the start: no byte is
written while its device is sending, for every order of turns, exactly if neither is sending at
the start. In every order of turns what has been stored is a beginning of the stores of the two
functions, and it is all of them once there were ten turns of the processor, which need not
follow each other, at which no device was sending. -/
theorem kmi_enable_turns (stat : KmiDevice → BitVec 32) :
    let stores : List (KmiDevice × KmiRegister × BitVec 32) :=
      [(.keyboard, .cr, 20), (.keyboard, .data, 0xf4), (.keyboard, .data, 0xf0),
        (.keyboard, .data, 1), (.mouse, .cr, 20), (.mouse, .data, 0xf4)]
    ((∀ turns, Guarded Kmi.step Kmi.Ready (Kmi.init stat) turns) ↔
        ∀ d, stat d &&& txBusy = 0) ∧
      ∀ turns, (run Kmi.step (Kmi.init stat) turns).stores <+: stores ∧
        (10 ≤ freeTurns (Kmi.init stat) turns →
          (run Kmi.step (Kmi.init stat) turns).stores = stores) := by
  intro stores
  have hstores : storesOf kmiEnable = stores := rfl
  refine ⟨?_, fun turns => ⟨?_, fun hfree => ?_⟩⟩
  · rw [ready_iff, Kmi.init, awaited_kmiEnable, Bool.and_eq_true_iff]
    constructor
    · rintro ⟨hkeyboard, hmouse⟩ d
      cases d with
      | keyboard => exact of_decide_eq_true hkeyboard
      | mouse => exact of_decide_eq_true hmouse
    · intro hidle
      exact ⟨decide_eq_true (hidle .keyboard), decide_eq_true (hidle .mouse)⟩
  · rw [← hstores]
    exact ⟨_, stores_run (Kmi.init stat) turns⟩
  · exact stores_of_freeTurns hfree

end Marcelov
