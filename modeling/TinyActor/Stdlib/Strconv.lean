/-
Integers and text (`lib/strconv.ta`, `lib/str.c`).

In base ten a number is written with a sign; in the bases 2, 8 and 16 the text is that of its
48 bits.  The conversions of the C module have no way to fail: a text that is none answers -1
there, a number out of range is cut to 48 bits, and the layer above looks for both.
-/
import TinyActor.Stdlib.Str

namespace TinyActor.Stdlib

namespace Str

/-- `digit_val`. -/
def digitVal (c : UInt8) : Option Nat :=
  if 48 ≤ c ∧ c ≤ 57 then some (c.toNat - 48)
  else if 97 ≤ c ∧ c ≤ 102 then some (c.toNat - 97 + 10)
  else if 65 ≤ c ∧ c ≤ 70 then some (c.toNat - 65 + 10)
  else none

/-- The loop of `str_from_base`, in unsigned 64-bit arithmetic. -/
def fromBaseLoop (base : Nat) : Nat → Bytes → Option Nat
  | acc, [] => some acc
  | acc, c :: cs =>
      match digitVal c with
      | none => none
      | some d => if d ≥ base then none else fromBaseLoop base ((acc * base + d) % 2 ^ 64) cs

/-- `str_from_base`. -/
def fromBase (s : Bytes) (base : Int) : Int :=
  if (base ≠ 2 ∧ base ≠ 8 ∧ base ≠ 16) ∨ s = [] then -1
  else
    match fromBaseLoop base.toNat 0 s with
    | none => -1
    | some acc => int48 acc

/-- `"0123456789abcdef"[d]`. -/
def lowerHex (d : Nat) : UInt8 := (ascii "0123456789abcdef").getD d 0

/-- The loop of `str_to_base`: the digits before those already in the buffer, whose 49 bytes
have room for one digit of each bit. -/
def toBaseLoop (base : Nat) : Nat → Nat → Bytes → Bytes
  | 0, _, buf => buf
  | room + 1, u, buf =>
      let buf' := lowerHex (u % base) :: buf
      if u / base > 0 then toBaseLoop base room (u / base) buf' else buf'

/-- `str_to_base`. -/
def toBase (n base : Int) : Bytes :=
  if base ≠ 2 ∧ base ≠ 8 ∧ base ≠ 16 then []
  else toBaseLoop base.toNat 49 (n % 2 ^ 48).toNat []

end Str

namespace Strconv

def intToStr (n base : Int) : Except Bytes Bytes :=
  if base = 10 then .ok (Str.fromInt n)
  else
    let s := Str.toBase n base
    if s = [] then .error (ascii "invalid base") else .ok s

/-- `is_digits`, of what is left of the text. -/
def isDigits : Bytes → Bool → Bool
  | [], seen => seen
  | c :: cs, _ => if Str.isDigit c then isDigits cs true else false

/-- `is_dec_int`. -/
def isDecInt (s : Bytes) : Bool :=
  if Str.charAt s 0 = 43 ∨ Str.charAt s 0 = 45 then isDigits (s.drop 1) false
  else isDigits s false

def stripZeros : Bytes → Bytes
  | [] => []
  | [c] => [c]
  | c :: d :: cs => if c = 48 then stripZeros (d :: cs) else c :: d :: cs

def normDec (s : Bytes) : Bytes :=
  let c := Str.charAt s 0
  let neg := c = 45
  let digits := stripZeros (if neg ∨ c = 43 then Str.substr s 1 (Str.length s) else s)
  if neg ∧ digits ≠ ascii "0" then Str.concat (ascii "-") digits else digits

def strToInt (s : Bytes) (base : Int) : Except Bytes Int :=
  if base = 10 then
    if isDecInt s then
      let v := Str.toInt s
      if Str.fromInt v = normDec s then .ok v else .error (ascii "out of range")
    else .error (ascii "invalid int")
  else if base = 2 ∨ base = 8 ∨ base = 16 then
    let v := Str.fromBase s base
    if v = -1 then .error (ascii "invalid int") else .ok v
  else .error (ascii "invalid base")

end Strconv

end TinyActor.Stdlib
