/-
Searching, cutting, joining and replacing (`lib/str.c`).

The four functions scan with loops of their own, each with its own bound: the search jumps
from one occurrence of the needle's first byte to the next, cutting collects where the pieces
begin and takes the pieces afterwards, and replacing copies as it goes.  An index is the C
variable; the bytes compared are those of the string at that index.
-/
import TinyActor.Stdlib.Str

namespace TinyActor.Stdlib.Str

/-- The bytes from one index up to another. -/
def slice (s : Bytes) (start stop : Nat) : Bytes := (s.drop start).take (stop - start)

/-- `memcmp(s + pos, t, len) == 0`, with the length of `t`. -/
def sameAt (s t : Bytes) (pos : Nat) : Bool := slice s pos (pos + t.length) == t

/-- `memchr`: the first of `left` bytes from `cur` on that is `c`. -/
def memchr (s : Bytes) (cur : Nat) (c : UInt8) (left : Nat) : Option Nat :=
  ((slice s cur (cur + left)).idxOf? c).map (cur + ·)

/-- The loop of `str_index_of`: `left` places from `cur` on are still possible. -/
def indexOfLoop (hay needle : Bytes) (c : UInt8) : Nat → Nat → Nat → Int
  | 0, _, _ => -1
  | n + 1, cur, left =>
      if left = 0 then -1
      else
        match memchr hay cur c left with
        | none => -1
        | some hit =>
            if sameAt hay needle hit then hit
            else indexOfLoop hay needle c n (hit + 1) (left - (hit - cur + 1))

/-- `str_index_of`, with its loop. -/
def indexOfScan (hay needle : Bytes) : Int :=
  match needle with
  | [] => 0
  | c :: _ =>
      if needle.length > hay.length then -1
      else indexOfLoop hay needle c (hay.length + 1) 0 (hay.length - needle.length + 1)

/-- The loop of `str_split`: where the pieces after the first begin.  Of the array of `cap`
entries, `npieces` are taken. -/
def splitStarts (s sep : Bytes) (cap : Nat) : Nat → Nat → Nat → List Nat
  | 0, _, _ => []
  | n + 1, npieces, pos =>
      if pos + sep.length ≤ s.length then
        if sameAt s sep pos then
          if npieces ≥ cap then []
          else (pos + sep.length) :: splitStarts s sep cap n (npieces + 1) (pos + sep.length)
        else splitStarts s sep cap n npieces (pos + 1)
      else []

/-- The pieces with these beginnings: each ends before the separator in front of the next. -/
def splitPieces (s sep : Bytes) : List Nat → List Bytes
  | [] => []
  | [start] => [slice s start s.length]
  | start :: next :: rest => slice s start (next - sep.length) :: splitPieces s sep (next :: rest)

/-- `str_split`. -/
def split (s sep : Bytes) : List Bytes :=
  if sep = [] then s.map fun c => [c]
  else if sep.length > s.length then [s]
  else splitPieces s sep (0 :: splitStarts s sep (s.length / sep.length + 2) (s.length + 1) 1 0)

/-- The second loop of `str_join`; `k` strings have been written. -/
def joinLoop (sep : Bytes) : Nat → List Bytes → Bytes
  | _, [] => []
  | k, e :: rest => (if k > 0 then sep else []) ++ (e ++ joinLoop sep (k + 1) rest)

/-- `str_join`. -/
def join (strs : List Bytes) (sep : Bytes) : Bytes := joinLoop sep 0 strs

/-- The second loop of `str_replace`. -/
def replaceLoop (s old new : Bytes) : Nat → Nat → Bytes
  | 0, _ => []
  | n + 1, i =>
      if i < s.length then
        if i + old.length ≤ s.length ∧ sameAt s old i then
          new ++ replaceLoop s old new n (i + old.length)
        else slice s i (i + 1) ++ replaceLoop s old new n (i + 1)
      else []

/-- `str_replace`. -/
def replace (s old new : Bytes) : Bytes :=
  if old = [] then s else replaceLoop s old new (s.length + 1) 0

end TinyActor.Stdlib.Str
