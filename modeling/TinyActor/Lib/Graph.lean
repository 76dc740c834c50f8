/-
Object graphs in a store, and copies of them.

A store maps addresses to objects, and an object holds addresses.  What a program
can see of a store is the part its roots reach, up to a renaming of addresses.  A
renaming that is one to one on that part and turns each object into the object
with its addresses renamed gives the program the same graph: the same kinds, the
same contents, and the same sharing, since two paths lead to one object before if
and only if they do after.

The second half is about objects laid out one behind the other: where each starts,
and that no two start at the same place.
-/
import Mathlib.Algebra.Order.Ring.Int
import Mathlib.Algebra.BigOperators.Group.List.Basic
import Mathlib.Data.List.Basic
import Mathlib.Data.List.Nodup
import Mathlib.Data.List.Perm.Subperm

namespace TinyActor.Lib

variable {A O : Type}

/-! ### Reachable part -/

/-- The addresses that can be reached from some roots. -/
inductive Reach (refs : O → List A) (store : A → Option O) (roots : List A) : A → Prop
  | root {a : A} : a ∈ roots → Reach refs store roots a
  | step {a b : A} {o : O} : Reach refs store roots a → store a = some o → b ∈ refs o →
      Reach refs store roots b

/-- `φ` renames the part of a store that some roots reach into another store. -/
structure GraphIso (refs : O → List A) (map : (A → A) → O → O) (store store' : A → Option O)
    (roots : List A) (φ : A → A) : Prop where
  /-- One object stays one, and two stay two. -/
  inj : ∀ {a b : A}, Reach refs store roots a → Reach refs store roots b → φ a = φ b → a = b
  obj : ∀ {a : A}, Reach refs store roots a → ∃ o, store a = some o ∧ store' (φ a) = some (map φ o)

/-- What is reached afterwards is the renaming of what was reached before. -/
theorem GraphIso.reach_iff {refs : O → List A} {map : (A → A) → O → O} {store store' : A → Option O}
    {roots : List A} {φ : A → A} (h : GraphIso refs map store store' roots φ)
    (hrefs : ∀ (f : A → A) (o : O), refs (map f o) = (refs o).map f) {b : A} :
    Reach refs store' (roots.map φ) b ↔ ∃ a, Reach refs store roots a ∧ φ a = b := by
  constructor
  · intro hb
    induction hb with
    | root hmem =>
        obtain ⟨a, ha, rfl⟩ := List.mem_map.mp hmem
        exact ⟨a, .root ha, rfl⟩
    | @step _ c o' _ hc hmem ih =>
        obtain ⟨a, ha, rfl⟩ := ih
        obtain ⟨o, ho, ho'⟩ := h.obj ha
        rw [ho'] at hc
        obtain rfl := Option.some.inj hc
        rw [hrefs] at hmem
        obtain ⟨d, hd, rfl⟩ := List.mem_map.mp hmem
        exact ⟨d, .step ha ho hd, rfl⟩
  · rintro ⟨a, ha, rfl⟩
    induction ha with
    | root hmem => exact .root (List.mem_map.mpr ⟨_, hmem, rfl⟩)
    | @step a c o hreach ho hmem ih =>
        obtain ⟨o₁, ho₁, ho'⟩ := h.obj hreach
        rw [ho] at ho₁
        obtain rfl := Option.some.inj ho₁
        refine .step ih ho' ?_
        rw [hrefs]
        exact List.mem_map.mpr ⟨c, hmem, rfl⟩

/-! ### One behind the other -/

variable {i : Nat}

section Layout

variable {α : Type} (size : α → Nat)

/-- The bytes a list of objects takes. -/
def extent (l : List α) : Nat := (l.map size).sum

@[simp] theorem extent_nil : extent size [] = 0 := rfl

@[simp] theorem extent_append (l l' : List α) :
    extent size (l ++ l') = extent size l + extent size l' := by
  simp [extent]

@[simp] theorem extent_cons (x : α) (l : List α) : extent size (x :: l) = size x + extent size l := by
  simp [extent]

theorem extent_take_succ (l : List α) (hi : i < l.length) :
    extent size (l.take (i + 1)) = extent size (l.take i) + size l[i] := by
  rw [List.take_succ_eq_append_getElem hi, extent_append]
  simp

theorem extent_take_le (l : List α) (i : Nat) : extent size (l.take i) ≤ extent size l := by
  conv_rhs => rw [← List.take_append_drop i l, extent_append]
  exact Nat.le_add_right _ _

variable {size}

/-- Objects that take room start at different places. -/
theorem extent_take_lt (hpos : ∀ x, 0 < size x) (l : List α) {j : Nat} (hij : i < j)
    (hj : j ≤ l.length) : extent size (l.take i) < extent size (l.take j) := by
  have hi : i < l.length := by omega
  calc extent size (l.take i) < extent size (l.take (i + 1)) := by
        rw [extent_take_succ size l hi]
        exact Nat.lt_add_of_pos_right (hpos _)
    _ = extent size ((l.take j).take (i + 1)) := by rw [List.take_take, Nat.min_eq_left hij]
    _ ≤ extent size (l.take j) := extent_take_le size _ _

theorem extent_take_inj (hpos : ∀ x, 0 < size x) (l : List α) {j : Nat} (hi : i ≤ l.length)
    (hj : j ≤ l.length) (h : extent size (l.take i) = extent size (l.take j)) : i = j := by
  rcases Nat.lt_trichotomy i j with hlt | heq | hlt
  · have := extent_take_lt hpos l hlt hj
    omega
  · exact heq
  · have := extent_take_lt hpos l hlt hi
    omega

theorem extent_le_of_sublist {l l' : List α} (h : l.Sublist l') :
    extent size l ≤ extent size l' := by
  induction h with
  | slnil => exact Nat.le_refl _
  | cons x _ ih =>
      rw [extent_cons]
      omega
  | cons_cons x _ ih =>
      rw [extent_cons, extent_cons]
      omega

/-- A list of different objects of another list takes no more room than that. -/
theorem extent_le_of_subset {l l' : List α} (hnd : l.Nodup) (hsub : l ⊆ l') :
    extent size l ≤ extent size l' := by
  obtain ⟨m, hperm, hsubl⟩ := hnd.subperm hsub
  calc extent size l = extent size m := ((hperm.map size).sum_nat).symm
    _ ≤ extent size l' := extent_le_of_sublist hsubl

theorem length_le_extent (hpos : ∀ x, 0 < size x) (l : List α) : l.length ≤ extent size l := by
  induction l with
  | nil => exact Nat.le_refl _
  | cons x l ih =>
      have := hpos x
      rw [List.length_cons, extent_cons]
      omega

/-- Where each of a list of objects starts. -/
def placed (size : α → Nat) : Nat → List α → List (Nat × α)
  | _, [] => []
  | base, x :: l => (base, x) :: placed size (base + size x) l

theorem getElem_mem_placed (base : Nat) (l : List α) (hi : i < l.length) :
    (base + extent size (l.take i), l[i]) ∈ placed size base l := by
  induction l generalizing base i with
  | nil => exact absurd hi (Nat.not_lt_zero _)
  | cons x l ih =>
      cases i with
      | zero => exact .head _
      | succ i =>
          have := ih (base + size x) (Nat.lt_of_succ_lt_succ hi)
          rw [Nat.add_assoc] at this
          refine List.mem_cons_of_mem _ ?_
          simpa using this

theorem extent_placed (base : Nat) (l : List α) :
    extent (fun x : Nat × α => size x.2) (placed size base l) = extent size l := by
  induction l generalizing base with
  | nil => rfl
  | cons x l ih =>
      rw [placed, extent_cons, extent_cons, ih]

end Layout

end TinyActor.Lib
