/-
Decimal numerals.

A numeral is a text of digits and nothing else; its number is what the digits write in base
ten.  `str.to_int` takes more texts than these, and takes these for their number as long as
it fits.
-/
import TinyActor.Stdlib.Str

namespace TinyActor.Stdlib

open Lib

namespace Str

/-- The number some digits write. -/
def decimalValue (ds : Bytes) : Nat := ds.foldl (fun a c => a * 10 + (c.toNat - 48)) 0

/-- A text is the number `n` in decimal and nothing else. -/
def IsDecimal (v : Bytes) (n : Nat) : Prop :=
  v ≠ [] ∧ (∀ c ∈ v, isDigit c = true) ∧ decimalValue v = n

instance (v : Bytes) (n : Nat) : Decidable (IsDecimal v n) :=
  inferInstanceAs (Decidable (_ ∧ _ ∧ _))

theorem le_foldl_digits (ds : Bytes) (a : Nat) :
    a ≤ ds.foldl (fun a c => a * 10 + (c.toNat - 48)) a := by
  induction ds generalizing a with
  | nil => exact Nat.le_refl a
  | cons c ds ih =>
      rw [List.foldl_cons]
      refine Nat.le_trans ?_ (ih _)
      omega

theorem isDigit_bounds {c : UInt8} (h : isDigit c = true) : 48 ≤ c.toNat ∧ c.toNat ≤ 57 := by
  rw [isDigit, Bool.and_eq_true, decide_eq_true_eq, decide_eq_true_eq] at h
  exact h

/-- Digits are read without an overflow as long as their number fits. -/
theorem toIntDigits_eq (ds : Bytes) (a : Nat) (h : ∀ c ∈ ds, isDigit c = true)
    (hfit : ds.foldl (fun a c => a * 10 + (c.toNat - 48)) a < 2 ^ 63) :
    toIntDigits a ds = (ds.foldl (fun a c => a * 10 + (c.toNat - 48)) a : Nat) := by
  induction ds generalizing a with
  | nil => rfl
  | cons c ds ih =>
      have hc := h c (List.mem_cons_self ..)
      have hb := isDigit_bounds hc
      rw [List.foldl_cons] at hfit ⊢
      have hle := le_foldl_digits ds (a * 10 + (c.toNat - 48))
      have hstep : ((a : Int) * 10 + ((c.toNat : Int) - 48)).bmod (2 ^ 64) =
          ((a * 10 + (c.toNat - 48) : Nat) : Int) := by
        rw [Int.bmod_eq_of_le (by omega) (by omega)]
        omega
      rw [toIntDigits, if_pos hc, hstep]
      exact ih _ (fun x hx => h x (List.mem_cons_of_mem _ hx)) hfit

theorem toInt_lt (s : Bytes) : toInt s < 2 ^ 47 := by
  have hlt : ∀ n, int48 n < 2 ^ 47 := fun n => Int.bmod_lt (by decide)
  unfold toInt
  split
  · decide
  · split
    · exact hlt _
    · split <;> exact hlt _

/-- **A plain decimal below 2^47 is read as its number.** -/
theorem toInt_of_isDecimal {v : Bytes} {n : Nat} (h : IsDecimal v n) (hn : n < 2 ^ 47) :
    toInt v = n := by
  obtain ⟨hne, hdig, hval⟩ := h
  have hloop : toIntDigits 0 v = n := by
    have := toIntDigits_eq v 0 hdig (by rw [decimalValue] at hval; omega)
    rw [← decimalValue, hval] at this
    exact this
  cases v with
  | nil => exact absurd rfl hne
  | cons c v =>
      have hb := isDigit_bounds (hdig c (List.mem_cons_self ..))
      have h32 : c ≠ 32 := by rintro rfl; simp at hb
      have h9 : c ≠ 9 := by rintro rfl; simp at hb
      have h45 : c ≠ 45 := by rintro rfl; simp at hb
      have h43 : c ≠ 43 := by rintro rfl; simp at hb
      have hdrop : (c :: v).dropWhile (fun c => c == 32 || c == 9) = c :: v := by
        simp [h32, h9]
      rw [toInt, hdrop]
      simp only [beq_iff_eq, h45, h43, if_false]
      rw [hloop, int48, Int.bmod_eq_of_le (by omega) (by omega)]

/-! ### Writing numbers -/

/-- The digits of a number. -/
def digits (n : Nat) : Bytes := (Nat.toDigits 10 n).map fun c => UInt8.ofNat c.toNat

end Str

end TinyActor.Stdlib
