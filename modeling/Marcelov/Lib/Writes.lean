import Mathlib.Logic.Function.Basic
import Mathlib.Data.List.Basic

/-!
# Write logs

A log of writes `(address, value)` applied in order to a memory. The two facts the rest of the
development uses: what an address holds after the log (`applyWrites_of_forall`,
`applyWrites_of_not_mem`), and that applying a log twice is applying it once
(`applyWrites_idem`).
-/

namespace Marcelov.Lib

variable {ι α : Type*} [DecidableEq ι]

/-- The memory after the writes `ws`, in order. -/
def applyWrites (ws : List (ι × α)) (m : ι → α) : ι → α :=
  ws.foldl (fun m w => Function.update m w.1 w.2) m

variable {ws ws' : List (ι × α)} {m m' : ι → α} {a : ι} {v : α}

@[simp] theorem applyWrites_nil : applyWrites [] m = m := rfl

@[simp] theorem applyWrites_cons (w : ι × α) :
    applyWrites (w :: ws) m = applyWrites ws (Function.update m w.1 w.2) := rfl

theorem applyWrites_append :
    applyWrites (ws ++ ws') m = applyWrites ws' (applyWrites ws m) := List.foldl_append

/-- Frame: an address the log does not write keeps its value. -/
theorem applyWrites_of_not_mem (h : ∀ w ∈ ws, w.1 ≠ a) : applyWrites ws m a = m a := by
  induction ws generalizing m with
  | nil => rfl
  | cons w ws ih =>
    rw [applyWrites_cons, ih fun w' hw' => h w' (List.mem_cons_of_mem w hw')]
    exact Function.update_of_ne (h w List.mem_cons_self).symm _ _

/-- An address that is written, always with the same value, holds that value. -/
theorem applyWrites_of_forall (hex : ∃ w ∈ ws, w.1 = a) (h : ∀ w ∈ ws, w.1 = a → w.2 = v) :
    applyWrites ws m a = v := by
  induction ws generalizing m with
  | nil => simp at hex
  | cons w ws ih =>
    rw [applyWrites_cons]
    by_cases hlater : ∃ w' ∈ ws, w'.1 = a
    · exact ih hlater fun w' hw' => h w' (List.mem_cons_of_mem w hw')
    · have hw : w.1 = a := by
        obtain ⟨w', hw', ha⟩ := hex
        rcases List.mem_cons.1 hw' with rfl | hw'
        · exact ha
        · exact absurd ⟨w', hw', ha⟩ hlater
      rw [applyWrites_of_not_mem fun w' hw' ha => hlater ⟨w', hw', ha⟩, ← hw,
        Function.update_self]
      exact h w List.mem_cons_self hw

/-- What a log leaves at an address depends on the memory before only if it is not written. -/
theorem applyWrites_congr (h : (∃ w ∈ ws, w.1 = a) ∨ m a = m' a) :
    applyWrites ws m a = applyWrites ws m' a := by
  induction ws generalizing m m' with
  | nil => simpa using h
  | cons w ws ih =>
    rw [applyWrites_cons, applyWrites_cons]
    refine ih ?_
    by_cases hw : w.1 = a
    · subst hw
      exact Or.inr (by rw [Function.update_self, Function.update_self])
    · rw [Function.update_of_ne (Ne.symm hw), Function.update_of_ne (Ne.symm hw)]
      rcases h with ⟨w', hw', ha⟩ | h
      · rcases List.mem_cons.1 hw' with rfl | hw'
        · exact absurd ha hw
        · exact Or.inl ⟨w', hw', ha⟩
      · exact Or.inr h

/-- **Applying a log twice is applying it once.** -/
theorem applyWrites_idem (ws : List (ι × α)) (m : ι → α) :
    applyWrites ws (applyWrites ws m) = applyWrites ws m := by
  funext a
  by_cases h : ∃ w ∈ ws, w.1 = a
  · exact applyWrites_congr (Or.inl h)
  · have hframe : ∀ w ∈ ws, w.1 ≠ a := fun w hw ha => h ⟨w, hw, ha⟩
    rw [applyWrites_of_not_mem hframe]

end Marcelov.Lib
