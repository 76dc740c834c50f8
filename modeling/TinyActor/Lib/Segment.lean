/-
Pieces of a list at a place.

`Seg xs pos seg` says that `seg` stands in `xs` from index `pos` on.  A program laid
out as one list is reasoned about piece by piece: a piece made of two parts is two
pieces, one after the other, and what is at an index of the piece is at the index
plus `pos` of the whole.  `writeAll` fills in values that are only known afterwards.
-/
import Mathlib.Data.List.Basic

namespace TinyActor.Lib

variable {α : Type}

def Seg (xs : List α) (pos : Nat) (seg : List α) : Prop :=
  ∀ j, j < seg.length → xs[pos + j]? = seg[j]?

namespace Seg

variable {xs : List α} {pos : Nat} {a b seg : List α}

theorem append_iff : Seg xs pos (a ++ b) ↔ Seg xs pos a ∧ Seg xs (pos + a.length) b := by
  constructor
  · intro h
    refine ⟨fun j hj => ?_, fun j hj => ?_⟩
    · rw [h j (by rw [List.length_append]; omega), List.getElem?_append_left hj]
    · rw [Nat.add_assoc, h (a.length + j) (by rw [List.length_append]; omega),
        List.getElem?_append_right (by omega), Nat.add_sub_cancel_left]
  · rintro ⟨ha, hb⟩ j hj
    rw [List.length_append] at hj
    by_cases hlt : j < a.length
    · rw [ha j hlt, List.getElem?_append_left hlt]
    · have hb' := hb (j - a.length) (by omega)
      rw [List.getElem?_append_right (by omega), ← hb']
      congr 1
      omega

theorem left (h : Seg xs pos (a ++ b)) : Seg xs pos a := (append_iff.mp h).1

theorem right (h : Seg xs pos (a ++ b)) : Seg xs (pos + a.length) b := (append_iff.mp h).2

/-- What stands at an index of the piece. -/
theorem get (h : Seg xs pos seg) {j : Nat} {x : α} (hj : seg[j]? = some x) :
    xs[pos + j]? = some x := by
  rw [h j (List.getElem?_eq_some_iff.mp hj).1, hj]

theorem head {x : α} (h : Seg xs pos (x :: seg)) : xs[pos]? = some x := by
  rw [← Nat.add_zero pos]
  exact h.get rfl

theorem self : Seg xs 0 xs := fun j _ => by rw [Nat.zero_add]

/-- A write in front of the piece does not touch it. -/
theorem set (h : Seg xs pos seg) {i : Nat} (hi : i < pos) (x : α) : Seg (xs.set i x) pos seg := by
  intro j hj
  rw [List.getElem?_set_ne (by omega), h j hj]

end Seg

/-! ### Many writes -/

/-- Write every value at its index, one after another. -/
def writeAll (rs : List (Nat × α)) (xs : List α) : List α :=
  rs.foldl (fun xs r => xs.set r.1 r.2) xs

theorem writeAll_append (rs rs' : List (Nat × α)) (xs : List α) :
    writeAll (rs ++ rs') xs = writeAll rs' (writeAll rs xs) := List.foldl_append

variable {rs : List (Nat × α)}

theorem getElem?_writeAll_of_ne {i : Nat} (h : ∀ r ∈ rs, r.1 ≠ i) :
    ∀ xs : List α, (writeAll rs xs)[i]? = xs[i]? := by
  induction rs with
  | nil => exact fun _ => rfl
  | cons r rs ih =>
      intro xs
      obtain ⟨hr, hrs⟩ := List.forall_mem_cons.mp h
      exact (ih hrs (xs.set r.1 r.2)).trans (List.getElem?_set_ne hr)

/-- With every index written once, every value stands where it was written. -/
theorem getElem?_writeAll_of_mem (hrs : rs.Pairwise fun a b => a.1 < b.1) :
    ∀ {xs : List α} {r : Nat × α}, r ∈ rs → r.1 < xs.length →
      (writeAll rs xs)[r.1]? = some r.2 := by
  induction rs with
  | nil => nofun
  | cons r' rs ih =>
      intro xs r hr hlt
      obtain ⟨hfirst, hrest⟩ := List.pairwise_cons.mp hrs
      rcases List.mem_cons.mp hr with heq | hmem
      · have hne : ∀ b ∈ rs, b.1 ≠ r'.1 := fun b hb => Nat.ne_of_gt (hfirst b hb)
        rw [heq] at hlt ⊢
        exact (getElem?_writeAll_of_ne hne _).trans (List.getElem?_set_self hlt)
      · exact ih hrest hmem (by rwa [List.length_set])

theorem Seg.writeAll {pos : Nat} {seg : List α} (hrs : ∀ r ∈ rs, r.1 < pos) :
    ∀ {xs : List α}, Seg xs pos seg → Seg (writeAll rs xs) pos seg := by
  induction rs with
  | nil => exact id
  | cons r rs ih =>
      intro xs h
      obtain ⟨hr, hrest⟩ := List.forall_mem_cons.mp hrs
      exact ih hrest (h.set hr r.2)

end TinyActor.Lib
