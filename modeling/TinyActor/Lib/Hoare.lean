/-
What a program that threads a state and may fail does whatever the state is: that it returns
one result if it has enough steps to spend, and what holds of all it may return then.
-/

namespace TinyActor.Lib

variable {σ ε α β : Type}

/-- With enough steps to spend the program returns `a`, whatever the state is. -/
def Gives (m : Nat → StateT σ (Except ε) α) (a : α) : Prop :=
  ∃ k, ∀ n ≥ k, ∀ s, ∃ s', m n s = .ok (a, s')

namespace Gives

variable {m m' : Nat → StateT σ (Except ε) α} {f : Nat → α → StateT σ (Except ε) β} {a : α} {b : β}

theorem const (a : α) : Gives (fun _ => (pure a : StateT σ (Except ε) α)) a :=
  ⟨0, fun _ _ s => ⟨s, rfl⟩⟩

theorem bind (hm : Gives m a) (hf : Gives (fun n => f n a) b) : Gives (fun n => m n >>= f n) b := by
  obtain ⟨k, hk⟩ := hm
  obtain ⟨l, hl⟩ := hf
  refine ⟨max k l, fun n hn s => ?_⟩
  obtain ⟨s', hs'⟩ := hk n (by omega) s
  obtain ⟨s'', hs''⟩ := hl n (by omega) s'
  exact ⟨s'', by simpa [Bind.bind, StateT.bind, hs', Except.bind] using hs''⟩

/-- A step is spent on the way in. -/
theorem step (h : ∀ n, m (n + 1) = m' n) (hm : Gives m' a) : Gives m a := by
  obtain ⟨k, hk⟩ := hm
  refine ⟨k + 1, fun n hn s => ?_⟩
  obtain ⟨n, rfl⟩ : ∃ l, n = l + 1 := ⟨n - 1, by omega⟩
  rw [h]
  exact hk n (by omega) s

end Gives

/-- What the program returns with enough steps to spend satisfies `Q`. -/
def Ends (m : Nat → StateT σ (Except ε) α) (Q : α → Prop) : Prop :=
  ∃ k, ∀ n ≥ k, ∀ s a s', m n s = .ok (a, s') → Q a

namespace Ends

variable {m m' : Nat → StateT σ (Except ε) α} {f : Nat → α → StateT σ (Except ε) β} {a : α}
  {P : α → Prop} {Q : β → Prop}

theorem step (h : ∀ n, m (n + 1) = m' n) (hm : Ends m' P) : Ends m P := by
  obtain ⟨k, hk⟩ := hm
  refine ⟨k + 1, fun n hn s a s' hrun => ?_⟩
  obtain ⟨n, rfl⟩ : ∃ l, n = l + 1 := ⟨n - 1, by omega⟩
  rw [h] at hrun
  exact hk n (by omega) s a s' hrun

end Ends

end TinyActor.Lib
