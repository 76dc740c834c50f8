/-
Paths (`lib/path.ta`).

Nothing here rewrites a path: `dirname` and `basename` cut it at its last slash after the slashes
at the end are stripped, and `join` puts one slash between two paths.
-/
import TinyActor.Stdlib.Str

namespace TinyActor.Stdlib.Path

/-- `'/'`. -/
def slash : UInt8 := 47

/-- `last_slash`: the last slash before an index, or -1. -/
def lastSlash (s : Bytes) : Nat → Int
  | 0 => -1
  | n + 1 => if Str.charAt s n = 47 then n else lastSlash s n

/-- `strip_trailing_slashes`. -/
def stripTrailingSlashes (s : Bytes) : Bytes :=
  let n := Str.length s
  if h : n > 0 then
    if Str.charAt s (n - 1) = 47 then stripTrailingSlashes (Str.substr s 0 (n - 1)) else s
  else s
termination_by s.length
decreasing_by
  have hn : 0 < s.length := by simpa [n] using h
  have htake : Str.substr s 0 (n - 1) = s.take (s.length - 1) :=
    Str.substr_take s (by simp only [n, Str.length_eq]; omega)
  rw [htake, List.length_take]
  omega

/-- `strip_leading_slashes`. -/
def stripLeadingSlashes : Bytes → Bytes
  | [] => []
  | c :: s => if c = slash then stripLeadingSlashes s else c :: s

def join (a b : Bytes) : Bytes :=
  if Str.length a = 0 then b
  else if Str.length b = 0 then a
  else Str.concat (Str.concat (stripTrailingSlashes a) (ascii "/")) (stripLeadingSlashes b)

def dirname (p : Bytes) : Bytes :=
  let s := stripTrailingSlashes p
  let n := Str.length s
  if n = 0 then
    if Str.length p = 0 then ascii "." else ascii "/"
  else
    let i := lastSlash s s.length
    if i < 0 then ascii "."
    else if i = 0 then ascii "/"
    else stripTrailingSlashes (Str.substr s 0 i)

def basename (p : Bytes) : Bytes :=
  if Str.length p = 0 then ascii "."
  else
    let s := stripTrailingSlashes p
    if Str.length s = 0 then ascii "/"
    else
      let i := lastSlash s s.length
      if i < 0 then s else Str.substr s (i + 1) (Str.length s - i - 1)

end TinyActor.Stdlib.Path
