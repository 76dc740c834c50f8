/-
Loops that run until they are done.

A turn of the loop is a partial function on states: it has no result where the source
would read memory it must not.  `loop` takes turns until the state is a final one.
That a loop ends, and where, is said by counting its turns: `Reaches step n s t`, and
with more than `n` turns to spend the loop stops in `t`.
-/

namespace TinyActor.Lib

variable {σ : Type}

/-- Take turns until the state is final, `n - 1` of them at most. -/
def loop (step : σ → Option σ) (final : σ → Bool) : Nat → σ → Option σ
  | 0, _ => none
  | n + 1, s => if final s then some s else (step s).bind (loop step final n)

/-- What every turn keeps, the loop keeps; and it stops in a final state. -/
theorem loop_invariant {step : σ → Option σ} {final : σ → Bool} {P : σ → Prop}
    (hstep : ∀ s t, P s → step s = some t → P t) {n : Nat} {s t : σ}
    (h : loop step final n s = some t) (hs : P s) : P t ∧ final t = true := by
  induction n generalizing s with
  | zero => cases h
  | succ n ih =>
      rw [loop] at h
      split at h
      · next hf =>
          obtain rfl := Option.some.inj h
          exact ⟨hs, hf⟩
      · obtain ⟨u, hu, h⟩ := Option.bind_eq_some_iff.mp h
        exact ih h (hstep s u hs hu)

/-- `n` turns lead from one state to another. -/
inductive Reaches (step : σ → Option σ) : Nat → σ → σ → Prop
  | refl (s : σ) : Reaches step 0 s s
  | head {n : Nat} {s t u : σ} : step s = some t → Reaches step n t u → Reaches step (n + 1) s u

namespace Reaches

variable {step : σ → Option σ} {n m : Nat} {s t u : σ}

theorem trans (h : Reaches step n s t) (h' : Reaches step m t u) :
    Reaches step (n + m) s u := by
  induction h with
  | refl s => rwa [Nat.zero_add]
  | head hs _ ih =>
      rw [Nat.add_right_comm]
      exact .head hs (ih h')

theorem single (h : step s = some t) : Reaches step 1 s t := .head h (.refl t)

/-- **The loop stops where its turns lead.** -/
theorem loop {final : σ → Bool} (hfinal : ∀ s, final s = true → step s = none)
    (h : Reaches step n s t) (ht : final t = true) :
    ∀ k, n < k → Lib.loop step final k s = some t := by
  induction h with
  | refl s =>
      intro k hk
      cases k with
      | zero => cases hk
      | succ k => rw [Lib.loop, if_pos ht]
  | @head n s t u hs _ ih =>
      intro k hk
      cases k with
      | zero => cases hk
      | succ k =>
          have hmore : ¬ final s = true := by
            intro hf
            rw [hfinal s hf] at hs
            cases hs
          rw [Lib.loop, if_neg hmore, hs]
          exact ih ht k (Nat.lt_of_succ_lt_succ hk)

end Reaches

end TinyActor.Lib
