/-
Lists (`lib/list.ta`): the functions that sort, and those the random module takes lists apart
with.

A list of the source is a chain of pairs that ends in `nil`.  `car` and `cdr` of `nil` end the
actor; the one function here that could get there is `split_at`, which `sort` calls with half of
the length.
-/
import TinyActor.Lib.Ordered
import Mathlib.Algebra.Order.Ring.Int

namespace TinyActor.Stdlib.Lists

variable {α : Type}

/-- `take`: a count below zero is never reached. -/
def take : Int → List α → List α
  | _, [] => []
  | n, a :: l => if n = 0 then [] else a :: take (n - 1) l

/-- `nth`; `nil` is the value of the source. -/
def nth (nil : α) : List α → Int → α
  | [], _ => nil
  | a :: l, n => if n = 0 then a else nth nil l (n - 1)

/-- `split_at`. -/
def splitAt : Nat → List α → List α × List α
  | 0, l => ([], l)
  | n + 1, a :: l =>
      let halves := splitAt n l
      (a :: halves.1, halves.2)
  | _ + 1, [] => ([], [])

/-- `merge`: of two equal elements the one of the first list. -/
def merge (cmp : α → α → Int) : List α → List α → List α
  | [], b => b
  | a, [] => a
  | x :: a, y :: b =>
      if cmp x y ≤ 0 then x :: merge cmp a (y :: b) else y :: merge cmp (x :: a) b
termination_by a b => a.length + b.length

theorem splitAt_eq {n : Nat} {l : List α} (h : n ≤ l.length) :
    splitAt n l = (l.take n, l.drop n) := by
  induction n generalizing l with
  | zero => rfl
  | succ n ih =>
      cases l with
      | nil => cases h
      | cons a l => rw [splitAt, ih (Nat.le_of_succ_le_succ h), List.take_succ_cons, List.drop_succ_cons]

def sort (cmp : α → α → Int) : List α → List α
  | [] => []
  | [a] => [a]
  | a :: b :: l =>
      let halves := splitAt ((a :: b :: l).length / 2) (a :: b :: l)
      merge cmp (sort cmp halves.1) (sort cmp halves.2)
termination_by l => l.length
decreasing_by
  all_goals
    rw [splitAt_eq (Nat.div_le_self _ _)]
    simp only [List.length_take, List.length_drop, List.length_cons]
    omega

end TinyActor.Stdlib.Lists
