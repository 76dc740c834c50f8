/-
Nesting over any set of kinds.

A list of opening and closing marks is nested when a stack accepts it: a closing
mark takes the kind of the last mark still open, and the stack is empty at the
end.  A counter sees one kind only.  It agrees with the stack on lists of that
kind, and never objects to a nested list; three counters side by side are
therefore weaker than one stack.
-/

namespace TinyActor.Lib

variable {κ : Type}

inductive Mark (κ : Type)
  | opens (k : κ)
  | closes (k : κ)
deriving DecidableEq, Repr

def Mark.kind : Mark κ → κ
  | .opens k | .closes k => k

variable [DecidableEq κ]

/-- The kinds still open after the marks, the last first. -/
def nest : List κ → List (Mark κ) → Option (List κ)
  | stack, [] => some stack
  | stack, .opens k :: ms => nest (k :: stack) ms
  | [], .closes _ :: _ => none
  | j :: stack, .closes k :: ms => if j = k then nest stack ms else none

/-- Each closing mark is of the kind last opened, and none is left open. -/
def Nested (ms : List (Mark κ)) : Prop := nest [] ms = some []

instance (ms : List (Mark κ)) : Decidable (Nested ms) := inferInstanceAs (Decidable (_ = _))

/-- How many marks of the kind are open. -/
def depth (k : κ) : Nat → List (Mark κ) → Option Nat
  | n, [] => some n
  | n, .opens j :: ms => depth k (if j = k then n + 1 else n) ms
  | n, .closes j :: ms =>
      if j = k then (if 0 < n then depth k (n - 1) ms else none) else depth k n ms

theorem depth_append (k : κ) (n : Nat) (ms ms' : List (Mark κ)) :
    depth k n (ms ++ ms') = (depth k n ms).bind fun m => depth k m ms' := by
  induction ms generalizing n with
  | nil => rfl
  | cons m ms ih =>
      cases m with
      | opens j => exact ih _
      | closes j =>
          rw [List.cons_append, depth, depth]
          split
          · split
            · exact ih _
            · rfl
          · exact ih _

/-- The stack keeps the count of every kind. -/
theorem depth_of_nest (k : κ) {stack rest : List κ} {ms : List (Mark κ)}
    (h : nest stack ms = some rest) : depth k (stack.count k) ms = some (rest.count k) := by
  induction ms generalizing stack with
  | nil =>
      cases h
      rfl
  | cons m ms ih =>
      cases m with
      | opens j =>
          rw [depth, ← ih h, List.count_cons]
          by_cases hj : j = k <;> simp [hj]
      | closes j =>
          cases stack with
          | nil => cases h
          | cons i stack =>
              rw [nest] at h
              split at h
              · subst i
                rw [depth, ← ih h, List.count_cons]
                by_cases hj : j = k <;> simp [hj]
              · cases h

theorem Nested.depth {ms : List (Mark κ)} (h : Nested ms) (k : κ) : depth k 0 ms = some 0 :=
  depth_of_nest k h

/-- On one kind, counting is enough. -/
theorem nest_replicate (k : κ) (n : Nat) (ms : List (Mark κ)) :
    nest (List.replicate n k) (ms.filter fun m => m.kind = k) =
      (depth k n ms).map fun m => List.replicate m k := by
  induction ms generalizing n with
  | nil => rfl
  | cons m ms ih =>
      cases m with
      | opens j =>
          by_cases hj : j = k
          · subst hj
            simpa [depth, Mark.kind, nest, List.replicate_succ] using ih (n + 1)
          · simpa [depth, Mark.kind, hj] using ih n
      | closes j =>
          by_cases hj : j = k
          · subst hj
            cases n with
            | zero => simp [depth, Mark.kind, nest]
            | succ n => simpa [depth, Mark.kind, nest, List.replicate_succ] using ih n
          · simpa [depth, Mark.kind, hj] using ih n

theorem nested_filter_iff (k : κ) (ms : List (Mark κ)) :
    Nested (ms.filter fun m => m.kind = k) ↔ depth k 0 ms = some 0 := by
  unfold Nested
  rw [← List.replicate_zero, nest_replicate]
  cases depth k 0 ms with
  | none => simp
  | some n => cases n <;> simp [List.replicate_succ]

end TinyActor.Lib
