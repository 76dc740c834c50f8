/-
Strings of the library (`lib/str.c`, `lib/cmp.ta`).

A string is a byte array with a length; nothing here stops at a zero byte.  Lengths and
indices are integers of the language, so a search that fails answers -1 and a slice with
arguments out of range is the empty string, as in the C functions.  The lemmas say what
search and slices are in terms of the bytes, so that nobody above this module has to look at
an index again.
-/
import Mathlib.Algebra.Order.Ring.Int
import Mathlib.Data.List.DropRight
import TinyActor.Lib.Decimal
import TinyActor.Lib.Ordered
import TinyActor.Lib.Search

namespace TinyActor.Stdlib

open Lib

abbrev Bytes := List UInt8

/-- The bytes of a text that is ASCII. -/
def ascii (s : String) : Bytes := s.toList.map fun c => UInt8.ofNat c.toNat

/-- What `val_int` keeps of an integer: its low 48 bits, read with a sign. -/
def int48 (n : Int) : Int := n.bmod (2 ^ 48)

namespace Str

/-! ### `lib/str.c` -/

def length (s : Bytes) : Int := s.length

/-- `str_char_at`: the byte at an index, -1 outside. -/
def charAt (s : Bytes) (i : Int) : Int :=
  if i < 0 then -1
  else
    match s[i.toNat]? with
    | some c => c.toNat
    | none => -1

/-- `str_substr`: empty for arguments out of range, cut off at the end. -/
def substr (s : Bytes) (start slen : Int) : Bytes :=
  if start < 0 || slen < 0 || start > length s then []
  else (s.drop start.toNat).take slen.toNat

def concat (a b : Bytes) : Bytes := a ++ b

/-- `str_index_of`: the first index, or -1. -/
def indexOf (hay needle : Bytes) : Int :=
  match firstOcc needle hay with
  | some i => i
  | none => -1

/-- `str_chr_fn`: one byte, or nothing for a number that is none. -/
def chr (n : Int) : Bytes := if n < 0 || n > 255 then [] else [UInt8.ofNat n.toNat]

def isDigit (c : UInt8) : Bool := 48 ≤ c && c ≤ 57

/-- The loop of `str_to_int` over the digits, in 64-bit arithmetic. -/
def toIntDigits (val : Int) : Bytes → Int
  | [] => val
  | c :: cs =>
      if isDigit c then toIntDigits ((val * 10 + (c.toNat - 48)).bmod (2 ^ 64)) cs else val

/-- `str_to_int`: blanks, a sign, and as many digits as there are; what follows is not looked
at, and no digit at all is zero. -/
def toInt (s : Bytes) : Int :=
  match s.dropWhile fun c => c == 32 || c == 9 with
  | [] => 0
  | c :: cs =>
      if c == 45 then int48 (-(toIntDigits 0 cs))
      else if c == 43 then int48 (toIntDigits 0 cs)
      else int48 (toIntDigits 0 (c :: cs))

/-- `str_from_int`: decimal. -/
def fromInt (n : Int) : Bytes := (decimal n).map fun c => UInt8.ofNat c.toNat

/-- `str_cmp_fn`: -1, 0 or 1, by unsigned bytes; a proper beginning is smaller. -/
def cmp : Bytes → Bytes → Int
  | [], [] => 0
  | [], _ :: _ => -1
  | _ :: _, [] => 1
  | a :: as, b :: bs => if a = b then cmp as bs else if a < b then -1 else 1

/-- `is_ascii_space`. -/
def isAsciiSpace (c : UInt8) : Bool :=
  c == 32 || c == 9 || c == 10 || c == 13 || c == 11 || c == 12

/-- `str_trim`. -/
def trim (s : Bytes) : Bytes := (s.dropWhile isAsciiSpace).rdropWhile isAsciiSpace

/-- The lines of `str_pairs`: cut at every separator met from the left.  A text of `n` bytes
has at most `n` separators. -/
def lines (sep : Bytes) : Nat → Bytes → List Bytes
  | 0, s => [s]
  | n + 1, s =>
      match firstOcc sep s with
      | none => [s]
      | some i => s.take i :: lines sep n (s.drop (i + sep.length))

/-- One line of `str_pairs`: cut at the first `kvSep` unless the line begins with it. -/
def pairOf (kvSep line : Bytes) : Option (Bytes × Bytes) :=
  match firstOcc kvSep line with
  | none => none
  | some 0 => none
  | some (i + 1) => some (trim (line.take (i + 1)), trim (line.drop (i + 1 + kvSep.length)))

/-- `str_pairs`. -/
def pairs (s lineSep kvSep : Bytes) : List (Bytes × Bytes) :=
  if lineSep = [] || kvSep = [] || s = [] then []
  else (lines lineSep s.length s).filterMap (pairOf kvSep)

/-! ### Slices and searches -/

@[simp] theorem length_eq (s : Bytes) : length s = s.length := rfl

@[simp] theorem concat_eq (a b : Bytes) : concat a b = a ++ b := rfl

theorem charAt_append (s : Bytes) (c : UInt8) (t : Bytes) :
    charAt (s ++ c :: t) s.length = c.toNat := by
  simp [charAt]

theorem substr_nat (s : Bytes) {i n : Nat} (h : i ≤ s.length) :
    substr s i n = (s.drop i).take n := by
  have h₁ : ¬ (i : Int) > (s.length : Int) := by omega
  simp [substr, h₁]

theorem substr_take (s : Bytes) {n : Int} {i : Nat} (h : n = i) : substr s 0 n = s.take i := by
  subst h
  simpa using substr_nat s (i := 0) (n := i) (by omega)

theorem substr_drop (s : Bytes) {n m : Int} {i : Nat} (hi : i ≤ s.length) (hn : n = i)
    (hm : m = s.length - i) : substr s n m = s.drop i := by
  have hm' : m = ((s.length - i : Nat) : Int) := by omega
  subst hn hm'
  rw [substr_nat s hi, ← List.length_drop, List.take_length]

/-- A slice as long as the whole text is cut off at its end. -/
theorem substr_rest (s : Bytes) {n : Int} {i : Nat} (hi : i ≤ s.length) (hn : n = i) :
    substr s n (length s) = s.drop i := by
  subst hn
  rw [length_eq, substr_nat s hi, List.take_of_length_le (by rw [List.length_drop]; omega)]

theorem indexOf_of_some {s needle : Bytes} {i : Nat} (h : firstOcc needle s = some i) :
    indexOf s needle = i := by simp [indexOf, h]

theorem indexOf_of_none {s needle : Bytes} (h : firstOcc needle s = none) :
    indexOf s needle = -1 := by simp [indexOf, h]

theorem indexOf_nonneg {s needle : Bytes} : 0 ≤ indexOf s needle ↔ needle <:+: s := by
  cases h : firstOcc needle s with
  | none =>
      rw [indexOf_of_none h]
      have := firstOcc_eq_none.mp h
      simp [this]
  | some i =>
      rw [indexOf_of_some h]
      have : ¬ firstOcc needle s = none := by simp [h]
      rw [firstOcc_eq_none, not_not] at this
      simp [this]

/-! ### The order of byte strings -/

theorem cmp_swap (a b : Bytes) : cmp a b = -cmp b a := by
  induction a generalizing b with
  | nil => cases b <;> rfl
  | cons x a ih =>
      cases b with
      | nil => rfl
      | cons y b =>
          by_cases hxy : x = y
          · simp [cmp, hxy, ih]
          · by_cases hlt : x < y
            · have : ¬ y < x := UInt8.not_lt.mpr (UInt8.le_of_lt hlt)
              simp [cmp, hxy, Ne.symm hxy, hlt, this]
            · have : y < x := UInt8.lt_of_le_of_ne (UInt8.not_lt.mp hlt) (Ne.symm hxy)
              simp [cmp, hxy, Ne.symm hxy, hlt, this]

theorem cmp_eq_zero {a b : Bytes} : cmp a b = 0 ↔ a = b := by
  induction a generalizing b with
  | nil => cases b <;> simp [cmp]
  | cons x a ih =>
      cases b with
      | nil => simp [cmp]
      | cons y b =>
          by_cases hxy : x = y
          · simp [cmp, hxy, ih]
          · by_cases hlt : x < y <;> simp [cmp, hxy, hlt]

theorem cmp_trans (a b c : Bytes) (hab : cmp a b ≤ 0) (hbc : cmp b c ≤ 0) : cmp a c ≤ 0 := by
  induction a generalizing b c with
  | nil => cases c <;> simp [cmp]
  | cons x a ih =>
      cases b with
      | nil => simp [cmp] at hab
      | cons y b =>
          cases c with
          | nil => simp [cmp] at hbc
          | cons z c =>
              by_cases hxy : x = y
              · subst hxy
                by_cases hxz : x = z
                · subst hxz
                  simp only [cmp, if_true] at hab hbc ⊢
                  exact ih b c hab hbc
                · by_cases hlt : x < z
                  · simp [cmp, hxz, hlt]
                  · simp [cmp, hxz, hlt] at hbc
              · have hlt : x < y := by
                  by_contra h
                  simp [cmp, hxy, h] at hab
                have hle : y ≤ z := by
                  by_contra h
                  have hzy : z < y := UInt8.not_le.mp h
                  have hne : y ≠ z := Ne.symm (UInt8.ne_of_lt hzy)
                  have : ¬ y < z := UInt8.not_lt.mpr (UInt8.le_of_lt hzy)
                  simp [cmp, hne, this] at hbc
                have hxz : x < z := UInt8.lt_of_lt_of_le hlt hle
                simp [cmp, UInt8.ne_of_lt hxz, hxz]

/-- `str_cmp` of `lib/cmp.ta`. -/
def strCmp : Comparator Bytes where
  cmp := cmp
  swap := by
    intro a b
    rw [cmp_swap]
    omega
  trans := cmp_trans

end Str

end TinyActor.Stdlib
