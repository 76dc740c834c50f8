/-
Numbers at the width of a C `int`.

`int` arithmetic wraps at 32 bits here, which is what the machine does; the C
standard leaves it undefined.  Cutting a number to 32 bits goes through sums, so an
expression is cut once, where its value is used.
-/
import Mathlib.Algebra.Order.Ring.Int

namespace TinyActor.Lib

/-- The value of an `int` expression whose exact value is `x`. -/
def int32 (x : Int) : Int := x.bmod (2 ^ 32)

theorem int32_of_range {x : Int} (hlo : -2 ^ 31 ≤ x) (hhi : x < 2 ^ 31) : int32 x = x := by
  unfold int32
  rw [Int.bmod_def]
  omega

theorem int32_add (x y : Int) : int32 (int32 x + y) = int32 (x + y) := by
  unfold int32
  rw [Int.bmod_def, Int.bmod_def, Int.bmod_def]
  omega

theorem int32_int32 (x : Int) : int32 (int32 x) = int32 x := by
  have h := int32_add x 0
  rwa [Int.add_zero, Int.add_zero] at h

/-- Cutting makes no number larger that was not below the range. -/
theorem int32_le {x : Int} (hlo : -2 ^ 31 ≤ x) : int32 x ≤ x := by
  unfold int32
  rw [Int.bmod_def]
  omega

theorem int32_bounds (x : Int) : -2 ^ 31 ≤ int32 x ∧ int32 x < 2 ^ 31 := by
  unfold int32
  rw [Int.bmod_def]
  omega

end TinyActor.Lib
