/-
Finite maps over a three-way comparator.

A comparator answers with a sign: below zero, zero, above zero.  It need not be the equality
test of its keys; keys it answers zero for are the same key for everything here.  A finite
map is then a set of bindings no two of which have the same key, and it can be listed in one
way only: ascending.  The operations are written as sets, so that what a data structure has to
deliver is said without any of its order or shape, and `Lists` is what connects the two: the
list is ascending and has the bindings of the set.
-/
import Mathlib.Data.Set.Insert
import Mathlib.Data.List.Basic

namespace TinyActor.Lib

/-! ### Comparators -/

/-- A comparator that is a total order on its keys, up to answering zero. -/
structure Comparator (K : Type*) where
  cmp : K → K → Int
  swap : ∀ a b, cmp a b < 0 ↔ 0 < cmp b a
  trans : ∀ a b c, cmp a b ≤ 0 → cmp b c ≤ 0 → cmp a c ≤ 0

namespace Comparator

variable {K V : Type*} (C : Comparator K)

theorem zero_comm {a b : K} : C.cmp a b = 0 ↔ C.cmp b a = 0 := by
  have h₁ := C.swap a b
  have h₂ := C.swap b a
  omega

theorem refl (a : K) : C.cmp a a = 0 := by
  have h := C.swap a a
  omega

theorem le_swap {a b : K} : C.cmp a b ≤ 0 ↔ 0 ≤ C.cmp b a := by
  have h := C.swap b a
  omega

theorem lt_of_lt_of_le {a b c : K} (hab : C.cmp a b < 0) (hbc : C.cmp b c ≤ 0) :
    C.cmp a c < 0 := by
  by_contra h
  have hca : C.cmp c a ≤ 0 := C.le_swap.mpr (by omega)
  have hba : C.cmp b a ≤ 0 := C.trans b c a hbc hca
  have hpos := (C.swap a b).mp hab
  omega

theorem lt_of_le_of_lt {a b c : K} (hab : C.cmp a b ≤ 0) (hbc : C.cmp b c < 0) :
    C.cmp a c < 0 := by
  by_contra h
  have hca : C.cmp c a ≤ 0 := C.le_swap.mpr (by omega)
  have hcb : C.cmp c b ≤ 0 := C.trans c a b hca hab
  have hpos := (C.swap b c).mp hbc
  omega

theorem lt_trans {a b c : K} (hab : C.cmp a b < 0) (hbc : C.cmp b c < 0) : C.cmp a c < 0 :=
  C.lt_of_lt_of_le hab (by omega)

theorem zero_congr {a b c : K} (hab : C.cmp a b = 0) : C.cmp a c = 0 ↔ C.cmp b c = 0 := by
  have hba := C.zero_comm.mp hab
  constructor
  · intro h
    have h₁ := C.trans b a c (by omega) (by omega)
    have h₂ := C.trans c a b (by have := C.zero_comm.mp h; omega) (by omega)
    have := C.le_swap.mp h₂
    omega
  · intro h
    have h₁ := C.trans a b c (by omega) (by omega)
    have h₂ := C.trans c b a (by have := C.zero_comm.mp h; omega) (by omega)
    have := C.le_swap.mp h₂
    omega

/-! ### Ascending lists of bindings -/

/-- Every key is below the keys after it. -/
def Ascending (l : List (K × V)) : Prop := l.Pairwise (fun p q => C.cmp p.1 q.1 < 0)

variable {C}

@[simp] theorem ascending_nil : C.Ascending ([] : List (K × V)) := List.Pairwise.nil

@[simp] theorem ascending_cons {p : K × V} {l : List (K × V)} :
    C.Ascending (p :: l) ↔ (∀ q ∈ l, C.cmp p.1 q.1 < 0) ∧ C.Ascending l :=
  List.pairwise_cons

@[simp] theorem ascending_append {l m : List (K × V)} :
    C.Ascending (l ++ m) ↔
      C.Ascending l ∧ C.Ascending m ∧ ∀ p ∈ l, ∀ q ∈ m, C.cmp p.1 q.1 < 0 :=
  List.pairwise_append

theorem Ascending.filter {l : List (K × V)} (h : C.Ascending l) (p : K × V → Bool) :
    C.Ascending (l.filter p) :=
  List.Pairwise.filter p h

theorem Ascending.nodup {l : List (K × V)} (h : C.Ascending l) : l.Nodup := by
  refine List.Pairwise.imp ?_ h
  intro p q hpq heq
  have hzero := C.refl p.1
  rw [← heq] at hpq
  omega

/-- **A finite map is listed in ascending order in one way only.** -/
theorem Ascending.ext {l m : List (K × V)} (hl : C.Ascending l) (hm : C.Ascending m)
    (h : ∀ p, p ∈ l ↔ p ∈ m) : l = m := by
  have hperm : l.Perm m := (List.perm_ext_iff_of_nodup hl.nodup hm.nodup).mpr h
  refine hperm.eq_of_pairwise ?_ hl hm
  intro p q _ _ hpq hqp
  have hcontra := (C.swap p.1 q.1).mp hpq
  omega

end Comparator

/-! ### Finite maps as sets of bindings -/

/-- A map: its bindings. -/
abbrev Bindings (K V : Type*) := Set (K × V)

namespace Bindings

variable {K V : Type*} (C : Comparator K)

/-- Some binding of `B` is for the key `k`. -/
def Binds (B : Bindings K V) (k : K) : Prop := ∃ p ∈ B, C.cmp k p.1 = 0

/-- `B` without the key `k`. -/
def remove (B : Bindings K V) (k : K) : Bindings K V := {p | p ∈ B ∧ C.cmp k p.1 ≠ 0}

/-- `B` with `k` bound to `v` and to nothing else. -/
def insert (B : Bindings K V) (k : K) (v : V) : Bindings K V :=
  {p | p = (k, v) ∨ p ∈ remove C B k}

/-- Both maps; a key of both has the binding of the second. -/
def merge (B D : Bindings K V) : Bindings K V := {p | p ∈ D ∨ p ∈ B ∧ ¬ Binds C D p.1}

/-- The ascending list of a map. -/
def Lists (l : List (K × V)) (B : Bindings K V) : Prop :=
  C.Ascending l ∧ ∀ p, p ∈ l ↔ p ∈ B

variable {C}

/-- What `k` is bound to in `B`, if anything. -/
def Finds (C : Comparator K) (B : Bindings K V) (k : K) (r : Option V) : Prop :=
  ∀ v, r = some v ↔ ∃ p ∈ B, C.cmp k p.1 = 0 ∧ p.2 = v

theorem Finds.isSome {B : Bindings K V} {k : K} {r : Option V} (h : Finds C B k r) :
    r.isSome = true ↔ Binds C B k := by
  constructor
  · intro hr
    obtain ⟨v, rfl⟩ := Option.isSome_iff_exists.mp hr
    obtain ⟨p, hp, hz, -⟩ := (h v).mp rfl
    exact ⟨p, hp, hz⟩
  · rintro ⟨p, hp, hz⟩
    rw [(h p.2).mpr ⟨p, hp, hz, rfl⟩]
    rfl

/-- A merge is made by inserting the bindings of the second map one after another. -/
theorem merge_cons {B : Bindings K V} {l : List (K × V)} {p : K × V}
    (h : C.Ascending (p :: l)) :
    merge C B {q | q ∈ p :: l} = merge C (insert C B p.1 p.2) {q | q ∈ l} := by
  rw [Comparator.ascending_cons] at h
  have hfresh : ¬ Binds C {q | q ∈ l} p.1 := by
    rintro ⟨q, hq, hz⟩
    have := h.1 q hq
    omega
  ext q
  simp only [merge, insert, remove, Binds, Set.mem_ofPred_eq, List.mem_cons]
  constructor
  · rintro ((rfl | hq) | ⟨hq, hno⟩)
    · exact Or.inr ⟨Or.inl rfl, hfresh⟩
    · exact Or.inl hq
    · refine Or.inr ⟨Or.inr ⟨hq, ?_⟩, ?_⟩
      · intro hz
        exact hno ⟨p, Or.inl rfl, C.zero_comm.mp hz⟩
      · rintro ⟨r, hr, hz⟩
        exact hno ⟨r, Or.inr hr, hz⟩
  · rintro (hq | ⟨rfl | ⟨hq, hpq⟩, hno⟩)
    · exact Or.inl (Or.inr hq)
    · exact Or.inl (Or.inl rfl)
    · refine Or.inr ⟨hq, ?_⟩
      rintro ⟨r, rfl | hr, hz⟩
      · exact hpq (C.zero_comm.mp hz)
      · exact hno ⟨r, hr, hz⟩

theorem merge_nil (B : Bindings K V) : merge C B {q | q ∈ ([] : List (K × V))} = B := by
  ext q
  simp [merge, Binds]

/-- The bindings of a list in which no later one has the same key. -/
def ofList (C : Comparator K) (l : List (K × V)) : Bindings K V :=
  {p | ∃ pre post, l = pre ++ p :: post ∧ ∀ q ∈ post, C.cmp p.1 q.1 ≠ 0}

theorem mem_of_mem_ofList {l : List (K × V)} {p : K × V} (h : p ∈ ofList C l) : p ∈ l := by
  obtain ⟨pre, post, rfl, -⟩ := h
  simp

theorem mem_ofList_cons {p q : K × V} {l : List (K × V)} :
    q ∈ ofList C (p :: l) ↔ q ∈ ofList C l ∨ q = p ∧ ∀ r ∈ l, C.cmp p.1 r.1 ≠ 0 := by
  constructor
  · rintro ⟨pre, post, heq, hno⟩
    cases pre with
    | nil =>
        obtain ⟨rfl, rfl⟩ := List.cons.inj heq
        exact Or.inr ⟨rfl, hno⟩
    | cons x pre =>
        obtain ⟨rfl, rfl⟩ := List.cons.inj heq
        exact Or.inl ⟨pre, post, rfl, hno⟩
  · rintro (⟨pre, post, rfl, hno⟩ | ⟨rfl, hno⟩)
    · exact ⟨p :: pre, post, rfl, hno⟩
    · exact ⟨[], l, rfl, hno⟩

/-- A binding put behind a list is the last one of its key. -/
theorem ofList_concat (l : List (K × V)) (p : K × V) :
    ofList C (l ++ [p]) = insert C (ofList C l) p.1 p.2 := by
  ext q
  simp only [ofList, insert, remove, Set.mem_ofPred_eq]
  constructor
  · rintro ⟨pre, post, heq, hno⟩
    rcases List.eq_nil_or_concat' post with rfl | ⟨post, r, rfl⟩
    · obtain ⟨-, hq⟩ := List.append_inj' heq rfl
      exact Or.inl (List.cons.inj hq).1.symm
    · rw [← List.cons_append, ← List.append_assoc] at heq
      obtain ⟨rfl, hr⟩ := List.append_inj' heq rfl
      obtain rfl := (List.cons.inj hr).1
      refine Or.inr ⟨⟨pre, post, rfl, ?_⟩, ?_⟩
      · intro x hx
        exact hno x (List.mem_append_left _ hx)
      · intro hz
        exact hno p (by simp) (C.zero_comm.mp hz)
  · rintro (rfl | ⟨⟨pre, post, rfl, hno⟩, hne⟩)
    · exact ⟨l, [], rfl, by simp⟩
    · refine ⟨pre, post ++ [p], by simp, ?_⟩
      intro x hx
      rcases List.mem_append.mp hx with hx | hx
      · exact hno x hx
      · rw [List.mem_singleton.mp hx]
        exact fun hz => hne (C.zero_comm.mp hz)

/-- Every key of a list has a last binding. -/
theorem exists_ofList {l : List (K × V)} {p : K × V} (h : p ∈ l) :
    ∃ q ∈ ofList C l, C.cmp p.1 q.1 = 0 := by
  induction l generalizing p with
  | nil => cases h
  | cons r l ih =>
      by_cases hlast : ∀ q ∈ l, C.cmp p.1 q.1 ≠ 0
      · rcases List.mem_cons.mp h with rfl | hp
        · exact ⟨p, mem_ofList_cons.mpr (Or.inr ⟨rfl, hlast⟩), C.refl p.1⟩
        · exact absurd (C.refl p.1) (hlast p hp)
      · push Not at hlast
        obtain ⟨q, hq, hz⟩ := hlast
        obtain ⟨x, hx, hqx⟩ := ih hq
        exact ⟨x, mem_ofList_cons.mpr (Or.inl hx), (C.zero_congr hz).mpr hqx⟩

end Bindings

end TinyActor.Lib
