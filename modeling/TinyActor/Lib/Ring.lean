/-
A queue kept in a ring of cells.

The cells are a list of fixed length, and an entry's cell is the head counter
plus the entry's place in the queue, reduced by the length.  `Holds` says that a
ring holds a queue.  Writing one cell past the last entry appends to the queue,
moving the head counter on drops its first entry, and copying the entries out in
order gives a ring whose counter is zero, of any length that has room for them.
-/
import Mathlib.Data.List.Basic
import Mathlib.Data.Nat.ModEq

namespace TinyActor.Lib.Ring

variable {α : Type}

/-- The ring `cells`, read from the counter `head` on, holds the queue `xs`. -/
structure Holds (cells : List (Option α)) (head : Nat) (xs : List α) : Prop where
  fits : xs.length ≤ cells.length
  cell : ∀ i (h : i < xs.length), cells[(head + i) % cells.length]? = some (some xs[i])

theorem holds_nil (cells : List (Option α)) (head : Nat) : Holds cells head [] :=
  ⟨Nat.zero_le _, fun _ h => absurd h (Nat.not_lt_zero _)⟩

variable {cells : List (Option α)} {xs : List α} {head : Nat}

/-- Two places of the queue less than a full turn apart are different cells. -/
theorem mod_ne {n i j : Nat} (hij : i < j) (hj : j < n + i) : (head + i) % n ≠ (head + j) % n := by
  intro h
  have hdvd : n ∣ (head + j) - (head + i) := (Nat.modEq_iff_dvd' (by omega)).mp h
  have hle : n ≤ (head + j) - (head + i) := Nat.le_of_dvd (by omega) hdvd
  omega

/-- The first entry is in the cell of the head counter. -/
theorem Holds.first {x : α} (h : Holds cells head (x :: xs)) :
    cells[head % cells.length]? = some (some x) := by
  have h0 := h.cell 0 (Nat.succ_pos _)
  rwa [Nat.add_zero, List.getElem_cons_zero] at h0

/-- Moving the head counter on drops the first entry. -/
theorem Holds.pop {x : α} (h : Holds cells head (x :: xs)) : Holds cells (head + 1) xs := by
  refine ⟨?_, ?_⟩
  · have := h.fits
    simp only [List.length_cons] at this
    omega
  · intro i hi
    have := h.cell (i + 1) (by simpa using hi)
    rw [show head + 1 + i = head + (i + 1) by omega]
    simpa using this

/-- Writing the cell after the last entry appends to the queue, if a cell is free. -/
theorem Holds.push (h : Holds cells head xs) (hroom : xs.length < cells.length) (x : α) :
    Holds (cells.set ((head + xs.length) % cells.length) (some x)) head (xs ++ [x]) := by
  have hlt : (head + xs.length) % cells.length < cells.length := Nat.mod_lt _ (by omega)
  refine ⟨by simp only [List.length_append, List.length_cons, List.length_nil, List.length_set]; omega, ?_⟩
  intro i hi
  have hi' : i < xs.length + 1 := by simpa using hi
  rw [List.length_set]
  by_cases hlast : i = xs.length
  · subst hlast
    simp [hlt]
  · have hne : (head + i) % cells.length ≠ (head + xs.length) % cells.length :=
      mod_ne (by omega) (by omega)
    rw [List.getElem?_set_ne hne.symm, h.cell i (by omega), List.getElem_append_left]

/-- The entries copied to the front of other cells are held from zero on. -/
theorem holds_copied (hfit : xs.length ≤ cells.length)
    (hcell : ∀ i (h : i < xs.length), cells[i]? = some (some xs[i])) : Holds cells 0 xs := by
  refine ⟨hfit, ?_⟩
  intro i hi
  rw [Nat.zero_add, Nat.mod_eq_of_lt (by omega)]
  exact hcell i hi

end TinyActor.Lib.Ring
