/-
Runs of a labelled transition system, and the one induction every safety
result of the development rests on.

A system is a relation between a state, a label and the next state.  A run is
the labels taken one after another.  What is proved of a run is always the same:
a property that holds at the start and that each step keeps holds wherever the
run stops, and since a prefix of a run is a run, in every state it passes
through.

Some results only hold of runs whose steps all meet a condition on the state
before the step.  Those are the runs of the system with the condition added to
its steps, so no second induction is needed for them.
-/
import Mathlib.Data.List.Basic

namespace TinyActor.Lib

variable {σ ι : Type}

/-- The labels of a run, from the state it starts in to the state it stops in. -/
inductive Run (step : σ → ι → σ → Prop) : σ → List ι → σ → Prop
  | nil (s : σ) : Run step s [] s
  | cons {s t u : σ} {i : ι} {is : List ι} :
      step s i t → Run step t is u → Run step s (i :: is) u

/-- The steps of a system that meet a condition on the state they leave. -/
def guarded (G : σ → ι → Prop) (step : σ → ι → σ → Prop) : σ → ι → σ → Prop :=
  fun s i t => G s i ∧ step s i t

/-- A step function read as a relation: a step it refuses is no step. -/
def ofFn (f : σ → ι → Option σ) : σ → ι → σ → Prop :=
  fun s i t => f s i = some t

/-- The state a list of labels leads to under a step function. -/
def exec (f : σ → ι → Option σ) : σ → List ι → Option σ
  | s, [] => some s
  | s, i :: is => (f s i).bind fun t => exec f t is

variable {is : List ι} {s t : σ}

namespace Run

variable {step : σ → ι → σ → Prop}

/-- **The invariant rule.**  What the first state has and every step keeps, the
last state has. -/
theorem invariant {P : σ → Prop} (hstep : ∀ s i t, P s → step s i t → P t) (h : Run step s is t)
    (h0 : P s) : P t := by
  induction h with
  | nil _ => exact h0
  | cons hs _ ih => exact ih (hstep _ _ _ h0 hs)

theorem append {u : σ} {js : List ι} (h : Run step s is t) (h' : Run step t js u) :
    Run step s (is ++ js) u := by
  induction h with
  | nil _ => exact h'
  | cons hs _ ih => exact .cons hs (ih h')

theorem single {i : ι} (h : step s i t) : Run step s [i] t :=
  .cons h (.nil t)

/-- The runs of a step function are what it computes. -/
theorem ofFn_iff {f : σ → ι → Option σ} : Run (ofFn f) s is t ↔ exec f s is = some t := by
  induction is generalizing s with
  | nil =>
      constructor
      · intro h; cases h; rfl
      · intro h
        have hst : s = t := by simpa [exec] using h
        subst hst; exact .nil s
  | cons i is ih =>
      constructor
      · intro h
        cases h with
        | cons hs hr =>
            simp only [exec]
            rw [show f s i = some _ from hs]
            exact ih.mp hr
      · intro h
        simp only [exec] at h
        obtain ⟨u, hu, hr⟩ := Option.bind_eq_some_iff.mp h
        exact .cons hu (ih.mpr hr)

/-- A guard that can be decided goes into the step function. -/
theorem guarded_iff {f : σ → ι → Option σ} {G : σ → ι → Prop} [∀ s i, Decidable (G s i)] :
    Run (guarded G (ofFn f)) s is t ↔
      exec (fun s i => if G s i then f s i else none) s is = some t := by
  have hstep : guarded G (ofFn f) = ofFn (fun s i => if G s i then f s i else none) := by
    funext s i t
    by_cases hg : G s i <;> simp [guarded, ofFn, hg]
  rw [hstep, ofFn_iff]

end Run

end TinyActor.Lib
