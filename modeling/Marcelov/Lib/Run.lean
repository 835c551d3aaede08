import Mathlib.Data.List.Infix
import Mathlib.Logic.Function.Iterate
import Mathlib.Logic.Relation

/-!
# Runs of a deterministic machine

A machine is a step function `σ → α → σ`; a run folds it over a list of inputs. This file
has the five ways the rest of the development speaks about whole runs:

* `run_invariant` — what every step keeps, every run keeps;
* `Guarded` — every step of the run is taken in a state that meets a guard, with the rule
  `always_iff_guarded` for guards that are exact;
* `run_simulation` — two machines kept related step by step are related after every run;
* `run_measure` — what some inputs decrease and no input increases runs out;
* `Guarded.outputs` — what the steps put out, and a relation of the state to it.
-/

namespace Marcelov.Lib

variable {σ τ α : Type*}

/-- The state after the inputs `xs`. -/
def run (step : σ → α → σ) (s : σ) (xs : List α) : σ := xs.foldl step s

section

variable {step : σ → α → σ} {s : σ}

@[simp] theorem run_nil : run step s [] = s := rfl

@[simp] theorem run_cons (x : α) (xs : List α) :
    run step s (x :: xs) = run step (step s x) xs := rfl

theorem run_append (xs ys : List α) : run step s (xs ++ ys) = run step (run step s xs) ys :=
  List.foldl_append

/-- An invariant of every step (on the inputs of the run) is an invariant of the run. -/
theorem run_invariant_of_mem {I : σ → Prop} {xs : List α} (h : I s)
    (hstep : ∀ s, ∀ x ∈ xs, I s → I (step s x)) : I (run step s xs) := by
  induction xs generalizing s with
  | nil => exact h
  | cons x xs ih =>
    exact ih (hstep s x List.mem_cons_self h) fun t y hy => hstep t y (List.mem_cons_of_mem x hy)

theorem run_invariant {I : σ → Prop} (h : I s) (hstep : ∀ s x, I s → I (step s x))
    (xs : List α) : I (run step s xs) :=
  run_invariant_of_mem h fun s x _ => hstep s x

/-- Two machines whose steps (on the inputs of the run) keep `R` stay related by `R`. -/
theorem run_simulation_of_mem {step' : τ → α → τ} {R : σ → τ → Prop} {t : τ} {xs : List α}
    (h : R s t) (hstep : ∀ s t, ∀ x ∈ xs, R s t → R (step s x) (step' t x)) :
    R (run step s xs) (run step' t xs) := by
  induction xs generalizing s t with
  | nil => exact h
  | cons x xs ih =>
    exact ih (hstep s t x List.mem_cons_self h) fun s t y hy =>
      hstep s t y (List.mem_cons_of_mem x hy)

theorem run_simulation {step' : τ → α → τ} {R : σ → τ → Prop} {t : τ} (h : R s t)
    (hstep : ∀ s t x, R s t → R (step s x) (step' t x)) (xs : List α) :
    R (run step s xs) (run step' t xs) :=
  run_simulation_of_mem h fun s t x _ => hstep s t x

end

/-- A measure that the inputs with `p` decrease until it is zero, and no input increases. -/
theorem run_measure {step : σ → α → σ} {s : σ} {I : σ → Prop} {M : σ → ℕ} {p : α → Bool} (h : I s)
    (hstep : ∀ s x, I s → I (step s x))
    (hmeasure : ∀ s x, I s → M (step s x) ≤ M s - if p x then 1 else 0) (xs : List α) :
    M (run step s xs) ≤ M s - xs.countP p := by
  induction xs generalizing s with
  | nil => exact le_rfl
  | cons x xs ih =>
    have hx := hmeasure s x h
    have hrest := ih (hstep s x h)
    rw [run_cons, List.countP_cons]
    omega

theorem run_prod {step : σ → α → σ} {step' : τ → α → τ} (s : σ) (t : τ) (xs : List α) :
    run (fun p x => (step p.1 x, step' p.2 x)) (s, t) xs = (run step s xs, run step' t xs) := by
  induction xs generalizing s t with
  | nil => rfl
  | cons x xs ih => exact ih (step s x) (step' t x)

/-! ## One input, again and again -/

theorem run_replicate (step : σ → α → σ) (s : σ) (x : α) (n : ℕ) :
    run step s (List.replicate n x) = (fun s => step s x)^[n] s := by
  induction n generalizing s with
  | zero => rfl
  | succ n ih => exact ih (step s x)

/-- A machine that gets to a state it stays in is there whenever it has stopped. -/
theorem iterate_eq_of_reaches {f : σ → σ} {s t : σ}
    (h : Relation.ReflTransGen (fun s s' => f s = s') s t) (ht : f t = t) {n : ℕ}
    (hn : f (f^[n] s) = f^[n] s) : f^[n] s = t := by
  induction h using Relation.ReflTransGen.head_induction_on with
  | refl => exact Function.iterate_fixed ht n
  | @head s s' hs _ ih =>
    subst hs
    have hstep : f^[n] (f s) = f^[n] s := (Function.Commute.iterate_self f n s).trans hn
    rw [← hstep]
    exact ih (by rw [hstep, hn])

/-! ## Guarded runs -/

/-- Every step of the run from `s` is taken in a state that meets the guard `G`. -/
def Guarded (step : σ → α → σ) (G : σ → α → Prop) : σ → List α → Prop
  | _, [] => True
  | s, x :: xs => G s x ∧ Guarded step G (step s x) xs

instance Guarded.decidable (step : σ → α → σ) (G : σ → α → Prop) [∀ s x, Decidable (G s x)] :
    ∀ (s : σ) (xs : List α), Decidable (Guarded step G s xs)
  | _, [] => .isTrue trivial
  | s, x :: xs =>
    have := Guarded.decidable step G (step s x) xs
    inferInstanceAs (Decidable (G s x ∧ Guarded step G (step s x) xs))

theorem guarded_append {step : σ → α → σ} {G : σ → α → Prop} {s : σ} (xs ys : List α) :
    Guarded step G s (xs ++ ys) ↔ Guarded step G s xs ∧ Guarded step G (run step s xs) ys := by
  induction xs generalizing s with
  | nil => exact (iff_of_eq (true_and _)).symm
  | cons x xs ih => rw [List.cons_append, Guarded, Guarded, run_cons, ih, and_assoc]

/-- A guard on one component of a state is a guard on the run of that component. -/
theorem guarded_map_iff {step : σ → α → σ} {step' : τ → α → τ} {f : σ → τ} {G : τ → α → Prop}
    (hf : ∀ s x, f (step s x) = step' (f s) x) (s : σ) (xs : List α) :
    Guarded step (fun s => G (f s)) s xs ↔ Guarded step' G (f s) xs := by
  induction xs generalizing s with
  | nil => exact Iff.rfl
  | cons x xs ih => rw [Guarded, Guarded, ih, hf]

section

variable {step : σ → α → σ} {G : σ → α → Prop} {I : σ → Prop} {s : σ}

/-- A guard that an invariant implies holds at every step. -/
theorem guarded_of_invariant (h : I s) (hstep : ∀ s x, I s → I (step s x))
    (hguard : ∀ s x, I s → G s x) (xs : List α) : Guarded step G s xs := by
  induction xs generalizing s with
  | nil => trivial
  | cons x xs ih => exact ⟨hguard s x h, ih (hstep s x h)⟩

/-- If, from states with `I`, a step keeps `I` exactly when the guard holds, then `I` holds
in every state of a run exactly when the whole run is guarded. -/
theorem always_iff_guarded (h : I s) (hstep : ∀ s x, I s → (I (step s x) ↔ G s x))
    (xs : List α) :
    (∀ pre, pre <+: xs → I (run step s pre)) ↔ Guarded step G s xs := by
  induction xs generalizing s with
  | nil =>
    refine ⟨fun _ => trivial, fun _ pre hpre => ?_⟩
    rw [List.prefix_nil.1 hpre]
    exact h
  | cons x xs ih =>
    constructor
    · intro hall
      have hx : I (step s x) := hall [x] (List.prefix_append [x] xs)
      refine ⟨(hstep s x h).1 hx, (ih hx).1 fun pre hpre => ?_⟩
      exact hall (x :: pre) (List.cons_prefix_cons.2 ⟨rfl, hpre⟩)
    · rintro ⟨hg, hrest⟩ pre hpre
      have hx : I (step s x) := (hstep s x h).2 hg
      cases pre with
      | nil => exact h
      | cons y pre =>
        obtain ⟨rfl, htail⟩ := List.cons_prefix_cons.1 hpre
        exact (ih hx).2 hrest pre htail

end

/-! ## What a run puts out -/

/-- What the steps of the run from `s` put out, in order. -/
def outputs {β : Type*} (step : σ → α → σ) (out : σ → α → List β) : σ → List α → List β
  | _, [] => []
  | s, x :: xs => out s x ++ outputs step out (step s x) xs

/-- A relation between the state and all that was put out before, kept by guarded steps. -/
theorem Guarded.outputs {β : Type*} {step : σ → α → σ} {G : σ → α → Prop} {s : σ} {xs : List α}
    (hg : Guarded step G s xs) {out : σ → α → List β} {I : σ → List β → Prop} {l : List β}
    (h : I s l) (hstep : ∀ s x l, G s x → I s l → I (step s x) (l ++ out s x)) :
    I (run step s xs) (l ++ Lib.outputs step out s xs) := by
  induction xs generalizing s l with
  | nil => rwa [Lib.outputs, List.append_nil]
  | cons x xs ih =>
    rw [Lib.outputs, ← List.append_assoc]
    exact ih hg.2 (hstep s x l hg.1 h)

end Marcelov.Lib
