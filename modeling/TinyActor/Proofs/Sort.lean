/-
The sort of `lib/list.ta` is stable.

Two elements the comparator answers zero for may be different values, so being sorted and having
the right elements does not say which of them comes first.  What says it is the list of the
elements equal to a given one: `merge` puts those of its first list in front of those of its
second, because an element of the second list is only taken when everything left of the first is
greater.
-/
import TinyActor.Stdlib.Lists
import Mathlib.Data.List.Perm.Basic

namespace TinyActor.Stdlib.Lists

open Lib

variable {α : Type} {C : Comparator α} {a b : List α}

/-- Every element is at most the elements after it. -/
def Sorted (C : Comparator α) (l : List α) : Prop := l.Pairwise (fun x y => C.cmp x y ≤ 0)

/-- The elements equal to `x`, in their order. -/
def equals (C : Comparator α) (x : α) (l : List α) : List α := l.filter fun y => C.cmp x y = 0

theorem equals_cons (x y : α) (l : List α) :
    equals C x (y :: l) = if C.cmp x y = 0 then y :: equals C x l else equals C x l := by
  simp [equals, List.filter_cons]

theorem merge_perm (cmp : α → α → Int) (a b : List α) : (merge cmp a b).Perm (a ++ b) := by
  fun_induction merge cmp a b with
  | case1 b => exact List.Perm.refl b
  | case2 a _ => rw [List.append_nil]
  | case3 x a y b hle ih => exact ih.cons x
  | case4 x a y b hgt ih => exact (ih.cons y).trans List.perm_middle.symm

theorem sorted_merge (ha : Sorted C a) (hb : Sorted C b) : Sorted C (merge C.cmp a b) := by
  fun_induction merge C.cmp a b with
  | case1 b => exact hb
  | case2 a _ => exact ha
  | case3 x a y b hle ih =>
      obtain ⟨hx, ha⟩ := List.pairwise_cons.mp ha
      refine List.pairwise_cons.mpr ⟨?_, ih ha hb⟩
      intro z hz
      rcases List.mem_append.mp ((merge_perm C.cmp a (y :: b)).mem_iff.mp hz) with hz | hz
      · exact hx z hz
      · rcases List.mem_cons.mp hz with rfl | hz
        · exact hle
        · exact C.trans x y z hle ((List.pairwise_cons.mp hb).1 z hz)
  | case4 x a y b hgt ih =>
      obtain ⟨hy, hb⟩ := List.pairwise_cons.mp hb
      have hyx : C.cmp y x ≤ 0 := C.le_swap.mpr (by omega)
      refine List.pairwise_cons.mpr ⟨?_, ih ha hb⟩
      intro z hz
      rcases List.mem_append.mp ((merge_perm C.cmp (x :: a) b).mem_iff.mp hz) with hz | hz
      · rcases List.mem_cons.mp hz with rfl | hz
        · exact hyx
        · exact C.trans y x z hyx ((List.pairwise_cons.mp ha).1 z hz)
      · exact hy z hz

/-- Of equal elements, those of the first list come first. -/
theorem equals_merge (x : α) (ha : Sorted C a) :
    equals C x (merge C.cmp a b) = equals C x a ++ equals C x b := by
  fun_induction merge C.cmp a b with
  | case1 b => rfl
  | case2 a _ => exact (List.append_nil _).symm
  | case3 u a v b hle ih =>
      rw [equals_cons, equals_cons, ih (List.pairwise_cons.mp ha).2]
      split
      · rw [List.cons_append]
      · rfl
  | case4 u a v b hgt ih =>
      rw [equals_cons, equals_cons x v b, ih ha]
      split
      · next hxv =>
          -- The element taken is below all of the first list, so none of it equals `x`.
          have hnone : equals C x (u :: a) = [] := by
            refine List.filter_eq_nil_iff.mpr ?_
            intro z hz hzero
            have hxz : C.cmp x z = 0 := of_decide_eq_true hzero
            have hzv : C.cmp z v = 0 := C.zero_comm.mp ((C.zero_congr hxv).mp hxz)
            rcases List.mem_cons.mp hz with rfl | hz
            · omega
            · have huz := (List.pairwise_cons.mp ha).1 z hz
              have huv := C.trans u z v huz (by omega)
              omega
          rw [hnone]
          rfl
      · rfl

/-- **Sorting** gives a permutation of the list in non-decreasing order, and equal elements keep
their order. -/
theorem sort_stable (C : Comparator α) (l : List α) :
    (sort C.cmp l).Perm l ∧ Sorted C (sort C.cmp l) ∧
      ∀ x, equals C x (sort C.cmp l) = equals C x l := by
  fun_induction sort C.cmp l with
  | case1 => exact ⟨List.Perm.refl _, List.Pairwise.nil, fun _ => rfl⟩
  | case2 a => exact ⟨List.Perm.refl _, List.pairwise_singleton _ _, fun _ => rfl⟩
  | case3 a b l halves ih₁ ih₂ =>
      obtain ⟨hperm₁, hsorted₁, hequals₁⟩ := ih₁
      obtain ⟨hperm₂, hsorted₂, hequals₂⟩ := ih₂
      have hhalves : halves.1 ++ halves.2 = a :: b :: l := by
        simp only [halves, splitAt_eq (Nat.div_le_self _ _), List.take_append_drop]
      refine ⟨?_, sorted_merge hsorted₁ hsorted₂, ?_⟩
      · refine (merge_perm ..).trans ?_
        rw [← hhalves]
        exact hperm₁.append hperm₂
      · intro x
        rw [equals_merge x hsorted₁, hequals₁, hequals₂, ← hhalves]
        simp only [equals, List.filter_append]

end TinyActor.Stdlib.Lists
