/-
The first occurrence of one list in another.

`firstOcc needle s` is where a scan from the left meets `needle` first.  A reader that is fed
piece by piece asks the question again for every piece, so the lemmas say how the answer
changes when the text grows at its end: an occurrence stays the first one, and a text in
which there is none can have one afterwards only across the seam or behind it.

Cutting a list at every occurrence, from the left and without overlap, is `Cut`.
-/
import Mathlib.Data.List.Infix
import Mathlib.Data.List.TakeDrop

namespace TinyActor.Lib

variable {α : Type*} [DecidableEq α]

/-- Where `needle` first occurs in a list. -/
def firstOcc (needle : List α) : List α → Option Nat
  | [] => if needle = [] then some 0 else none
  | c :: cs => if needle <+: c :: cs then some 0 else (firstOcc needle cs).map (· + 1)

variable {needle s : List α} {i : Nat}

theorem firstOcc_of_isPrefix (h : needle <+: s) : firstOcc needle s = some 0 := by
  cases s with
  | nil => simp [firstOcc, List.prefix_nil.mp h]
  | cons c cs => simp [firstOcc, h]

/-- An occurrence found is one. -/
theorem firstOcc_isPrefix (h : firstOcc needle s = some i) : needle <+: s.drop i := by
  induction s generalizing i with
  | nil =>
      by_cases hn : needle = []
      · simp [hn]
      · simp [firstOcc, hn] at h
  | cons c cs ih =>
      by_cases hp : needle <+: c :: cs
      · obtain rfl : 0 = i := by simpa [firstOcc, hp] using h
        exact hp
      · obtain ⟨j, hj, rfl⟩ : ∃ j, firstOcc needle cs = some j ∧ j + 1 = i := by
          simpa [firstOcc, hp] using h
        simpa using ih hj

theorem firstOcc_split (h : firstOcc needle s = some i) :
    s = s.take i ++ needle ++ s.drop (i + needle.length) := by
  obtain ⟨rest, hrest⟩ := firstOcc_isPrefix h
  have hdrop : rest = s.drop (i + needle.length) := by
    rw [← List.drop_drop, ← hrest, List.drop_left]
  rw [List.append_assoc, ← hdrop, hrest, List.take_append_drop]

theorem firstOcc_le (h : firstOcc needle s = some i) : i + needle.length ≤ s.length := by
  induction s generalizing i with
  | nil =>
      by_cases hn : needle = []
      · simp [firstOcc, hn] at h
        simp [hn, ← h]
      · simp [firstOcc, hn] at h
  | cons c cs ih =>
      by_cases hp : needle <+: c :: cs
      · obtain rfl : 0 = i := by simpa [firstOcc, hp] using h
        simpa using hp.length_le
      · obtain ⟨j, hj, rfl⟩ : ∃ j, firstOcc needle cs = some j ∧ j + 1 = i := by
          simpa [firstOcc, hp] using h
        have := ih hj
        simp only [List.length_cons]
        omega

/-- There is none before the first one. -/
theorem not_prefix_of_lt_firstOcc {j : Nat} (h : firstOcc needle s = some i) (hj : j < i) :
    ¬ needle <+: s.drop j := by
  induction s generalizing i j with
  | nil =>
      by_cases hn : needle = []
      · simp [firstOcc, hn] at h
        omega
      · simp [firstOcc, hn] at h
  | cons c cs ih =>
      by_cases hp : needle <+: c :: cs
      · obtain rfl : 0 = i := by simpa [firstOcc, hp] using h
        omega
      · obtain ⟨k, hk, rfl⟩ : ∃ k, firstOcc needle cs = some k ∧ k + 1 = i := by
          simpa [firstOcc, hp] using h
        cases j with
        | zero => simpa using hp
        | succ j => simpa using ih hk (by omega)

theorem firstOcc_eq_none : firstOcc needle s = none ↔ ¬ needle <:+: s := by
  induction s with
  | nil =>
      by_cases hn : needle = [] <;> simp [firstOcc, hn]
  | cons c cs ih =>
      by_cases hp : needle <+: c :: cs
      · simp [firstOcc, hp, hp.isInfix]
      · simp [firstOcc, hp, ih, List.infix_cons_iff]

/-- The first occurrence is determined: a split of the text with no occurrence that starts
earlier. -/
theorem firstOcc_eq_some (hi : i ≤ s.length) (hp : needle <+: s.drop i)
    (hno : ∀ j < i, ¬ needle <+: s.drop j) : firstOcc needle s = some i := by
  induction s generalizing i with
  | nil =>
      obtain rfl : i = 0 := by simpa using hi
      exact firstOcc_of_isPrefix hp
  | cons c cs ih =>
      cases i with
      | zero => exact firstOcc_of_isPrefix (by simpa using hp)
      | succ i =>
          have h0 : ¬ needle <+: c :: cs := by simpa using hno 0 (by omega)
          have := ih (i := i) (by simpa using hi) (by simpa using hp) (fun j hj => by
            simpa using hno (j + 1) (by omega))
          simp [firstOcc, h0, this]

/-- What was found stays found when the text grows at its end. -/
theorem firstOcc_append (h : firstOcc needle s = some i) (t : List α) :
    firstOcc needle (s ++ t) = some i := by
  have hle := firstOcc_le h
  refine firstOcc_eq_some (by rw [List.length_append]; omega) ?_ ?_
  · rw [List.drop_append_of_le_length (by omega)]
    exact (firstOcc_isPrefix h).trans (List.prefix_append _ _)
  · intro j hj hp
    refine not_prefix_of_lt_firstOcc h hj ?_
    rw [List.drop_append_of_le_length (by omega)] at hp
    refine List.prefix_of_prefix_length_le hp (List.prefix_append _ _) ?_
    rw [List.length_drop]
    omega

/-! ### Needles that begin with a rare element -/

section
variable {l : List α} {a : α}

theorem firstOcc_cons_of_ne {c : α} (t : List α) (cs : List α) (h : a ≠ c) :
    firstOcc (a :: t) (c :: cs) = (firstOcc (a :: t) cs).map (· + 1) := by
  have : ¬ (a :: t) <+: c :: cs := by
    intro hp
    exact h (List.cons_prefix_cons.mp hp).1
  rw [firstOcc, if_neg this]

theorem firstOcc_append_of_notMem (t : List α) (h : a ∉ l) (m : List α) :
    firstOcc (a :: t) (l ++ m) = (firstOcc (a :: t) m).map (· + l.length) := by
  induction l with
  | nil => simp
  | cons c l ih =>
      rw [List.mem_cons, not_or] at h
      rw [List.cons_append, firstOcc_cons_of_ne t _ h.1, ih h.2, Option.map_map]
      refine congrArg (fun f => Option.map f _) ?_
      funext n
      simp only [Function.comp_apply, List.length_cons]
      omega

theorem firstOcc_of_notMem (t : List α) (h : a ∉ l) : firstOcc (a :: t) l = none := by
  have := firstOcc_append_of_notMem t h []
  rw [List.append_nil] at this
  rw [this]
  rfl

/-- What ends a text without the needle's first element is found where it stands. -/
theorem firstOcc_at (t : List α) (h : a ∉ l) (m : List α) :
    firstOcc (a :: t) (l ++ (a :: t ++ m)) = some l.length := by
  rw [firstOcc_append_of_notMem t h, firstOcc_of_isPrefix (List.prefix_append _ _)]
  simp

end

/-- What stands before the first occurrence has none. -/
theorem not_infix_take (hne : needle ≠ []) (h : firstOcc needle s = some i) :
    ¬ needle <:+: s.take i := by
  rintro ⟨a, b, hab⟩
  have hlen := congrArg List.length hab
  have hpos := List.length_pos_iff.mpr hne
  simp only [List.length_append, List.length_take] at hlen
  refine not_prefix_of_lt_firstOcc (j := a.length) h (by omega) ⟨b ++ s.drop i, ?_⟩
  have hsplit : s = a ++ (needle ++ (b ++ s.drop i)) := by
    rw [← List.append_assoc needle, ← List.append_assoc a, ← List.append_assoc a, hab,
      List.take_append_drop]
  rw [hsplit, List.drop_left, ← hsplit]

/-! ### Cutting -/

/-- The pieces between the leftmost occurrences of `needle` that do not overlap. -/
inductive Cut (needle : List α) : List α → List (List α) → Prop
  | last {s : List α} : firstOcc needle s = none → Cut needle s [s]
  | next {s : List α} {i : Nat} {rest : List (List α)} : firstOcc needle s = some i →
      Cut needle (s.drop (i + needle.length)) rest → Cut needle s (s.take i :: rest)

theorem Cut.ne_nil {ps : List (List α)} (h : Cut needle s ps) : ps ≠ [] := by
  cases h <;> exact List.cons_ne_nil _ _

/-- Nothing is lost by cutting but the occurrences. -/
theorem Cut.intercalate {ps : List (List α)} (h : Cut needle s ps) :
    needle.intercalate ps = s := by
  induction h with
  | last hnone => simp [List.intercalate]
  | next hfirst hrest ih =>
      rw [List.intercalate_cons_of_ne_nil hrest.ne_nil, ih]
      exact (firstOcc_split hfirst).symm

theorem Cut.unique {ps qs : List (List α)} (h : Cut needle s ps) (h' : Cut needle s qs) :
    ps = qs := by
  induction h generalizing qs with
  | last hnone =>
      cases h' with
      | last => rfl
      | next hfirst => cases hnone.symm.trans hfirst
  | next hfirst hrest ih =>
      cases h' with
      | last hnone => cases hnone.symm.trans hfirst
      | next hfirst' hrest' =>
          obtain rfl := Option.some.inj (hfirst.symm.trans hfirst')
          rw [ih hrest']

/-- Pieces without the separator are cut where they were joined. -/
theorem Cut.of_intercalate {c : α} {ps : List (List α)} (hne : ps ≠ []) (hno : ∀ p ∈ ps, c ∉ p) :
    Cut [c] ([c].intercalate ps) ps := by
  induction ps with
  | nil => exact absurd rfl hne
  | cons p ps ih =>
      obtain ⟨hp, hps⟩ := List.forall_mem_cons.mp hno
      cases ps with
      | nil =>
          rw [List.intercalate_singleton]
          exact .last (firstOcc_of_notMem [] hp)
      | cons q ps =>
          have hfirst := firstOcc_at [] hp ([c].intercalate (q :: ps))
          have hcut := ih (List.cons_ne_nil _ _) hps
          rw [List.intercalate_cons_cons, List.append_assoc]
          have hrest : Cut [c] ((p ++ ([c] ++ [c].intercalate (q :: ps))).drop (p.length + [c].length))
              (q :: ps) := by
            rw [← List.append_assoc, List.drop_left' (by simp)]
            exact hcut
          have hnext := Cut.next hfirst hrest
          rwa [List.take_left] at hnext

end TinyActor.Lib
