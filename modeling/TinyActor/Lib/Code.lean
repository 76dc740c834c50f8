/-
Codes that can be read from the left.

A code is prefix-free on a set of symbols if the first code word of a text determines its symbol
and what is left.  A text then determines the symbols it was written from.
-/
import Mathlib.Data.List.Basic

namespace TinyActor.Lib

variable {α β : Type*}

/-- The first word of a text is that of one symbol, and no word is empty. -/
structure PrefixFree (p : α → Prop) (code : α → List β) : Prop where
  word_ne : ∀ {a}, p a → code a ≠ []
  first : ∀ {a b : α} {s t : List β}, p a → p b → code a ++ s = code b ++ t → a = b ∧ s = t

/-- **What was written can be read.** -/
theorem PrefixFree.flatMap_injOn {p : α → Prop} {code : α → List β} (h : PrefixFree p code)
    {xs ys : List α} (hxs : ∀ a ∈ xs, p a) (hys : ∀ a ∈ ys, p a)
    (heq : xs.flatMap code = ys.flatMap code) : xs = ys := by
  induction xs generalizing ys with
  | nil =>
      cases ys with
      | nil => rfl
      | cons b ys =>
          rw [List.flatMap_cons] at heq
          exact absurd (List.append_eq_nil_iff.mp heq.symm).1 (h.word_ne (hys b List.mem_cons_self))
  | cons a xs ih =>
      cases ys with
      | nil =>
          rw [List.flatMap_cons] at heq
          exact absurd (List.append_eq_nil_iff.mp heq).1 (h.word_ne (hxs a List.mem_cons_self))
      | cons b ys =>
          rw [List.flatMap_cons, List.flatMap_cons] at heq
          obtain ⟨rfl, hrest⟩ := h.first (hxs a List.mem_cons_self) (hys b List.mem_cons_self) heq
          rw [ih (fun c hc => hxs c (List.mem_cons_of_mem _ hc))
            (fun c hc => hys c (List.mem_cons_of_mem _ hc)) hrest]

/-- A text up to the first of its stops is determined by any text it is in front of. -/
theorem append_inj_of_stop (stop : β → Prop) {a b : List β} {c d : β} {s t : List β}
    (ha : ∀ x ∈ a, ¬ stop x) (hb : ∀ x ∈ b, ¬ stop x) (hc : stop c) (hd : stop d)
    (h : a ++ c :: s = b ++ d :: t) : a = b ∧ c = d ∧ s = t := by
  induction a generalizing b with
  | nil =>
      cases b with
      | nil =>
          rw [List.nil_append, List.nil_append, List.cons.injEq] at h
          exact ⟨rfl, h⟩
      | cons y b =>
          rw [List.nil_append, List.cons_append, List.cons.injEq] at h
          exact absurd (h.1 ▸ hc) (hb y List.mem_cons_self)
  | cons x a ih =>
      cases b with
      | nil =>
          rw [List.nil_append, List.cons_append, List.cons.injEq] at h
          exact absurd (h.1 ▸ hd) (ha x List.mem_cons_self)
      | cons y b =>
          rw [List.cons_append, List.cons_append, List.cons.injEq] at h
          obtain ⟨rfl, h⟩ := h
          obtain ⟨rfl, hrest⟩ := ih (fun z hz => ha z (List.mem_cons_of_mem _ hz))
            (fun z hz => hb z (List.mem_cons_of_mem _ hz)) h
          exact ⟨rfl, hrest⟩

end TinyActor.Lib
