/-
Parser combinators (`lib/mpc.ta`).

A parser is a function of the text and an index; it succeeds with a value and the next index
or fails with a message and the index the failure is about.  A failure without message and
index is the `nil` of the source, which no combinator here produces for itself.  The two
loops are written with a bound; a repetition whose bound runs out fails in that way.
-/
import TinyActor.Stdlib.Str

namespace TinyActor.Stdlib.Mpc

/-- `('err msg . pos)`, or `nil`. -/
abbrev Failure := Option (Bytes × Nat)

inductive Result (α : Type) where
  | ok (value : α) (next : Nat)
  | fail (e : Failure)
  deriving Repr, DecidableEq

abbrev Parser (α : Type) := Bytes → Nat → Result α

variable {α β : Type}

/-! ### The error channel -/

def errAt (msg : Bytes) (pos : Nat) : Result α := .fail (some (msg, pos))

/-- `err_max`: the failure that got furthest, the first one of two at the same place. -/
def errMax : Failure → Failure → Failure
  | none, e2 => e2
  | e1, none => e1
  | some e1, some e2 => if e2.2 > e1.2 then some e2 else some e1

/-- `line_of`: one more than the newlines before an index. -/
def lineOf (s : Bytes) (pos : Nat) : Nat := (s.take pos).count 10 + 1

/-- `col_of`: the distance from the last newline before an index. -/
def colOf (s : Bytes) (pos : Nat) : Nat := ((s.take pos).reverse.takeWhile (· ≠ 10)).length + 1

/-- `fmt_err`. -/
def fmtErr (s : Bytes) : Failure → Bytes
  | none => ascii "unknown position"
  | some (msg, pos) =>
      ascii "line " ++ (Str.fromInt (lineOf s pos) ++ (ascii ", col " ++ Str.fromInt (colOf s pos)))
        ++ (ascii ": " ++ msg)

/-! ### Combinators -/

def ret (v : α) : Parser α := fun _ i => .ok v i

def bind (p : Parser α) (f : α → Parser β) : Parser β := fun s i =>
  match p s i with
  | .fail e => .fail e
  | .ok v j => f v s j

def pmap (f : α → β) (p : Parser α) : Parser β := fun s i =>
  match p s i with
  | .fail e => .fail e
  | .ok v j => .ok (f v) j

def choice (p1 p2 : Parser α) : Parser α := fun s i =>
  match p1 s i with
  | .ok v j => .ok v j
  | .fail e1 =>
      match p2 s i with
      | .ok v j => .ok v j
      | .fail e2 => .fail (errMax e1 e2)

def choiceListLoop : List (Parser α) → Bytes → Nat → Failure → Result α
  | [], _, _, best => .fail best
  | p :: ps, s, i, best =>
      match p s i with
      | .ok v j => .ok v j
      | .fail e => choiceListLoop ps s i (errMax best e)

def choiceList (ps : List (Parser α)) : Parser α := fun s i => choiceListLoop ps s i none

def opt (p : Parser α) : Parser (Option α) := fun s i =>
  match p s i with
  | .fail _ => .ok none i
  | .ok v j => .ok (some v) j

/-! ### Characters -/

def satisfyL (f : Int → Bool) (msg : Bytes) : Parser Int := fun s i =>
  if i < s.length then
    let c := Str.charAt s i
    if f c then .ok c (i + 1) else errAt msg i
  else errAt msg i

def satisfy (f : Int → Bool) : Parser Int :=
  satisfyL f (ascii "expecting char satisfying predicate")

def range (lo hi : Int) : Parser Int :=
  satisfyL (fun c => c ≥ lo && c ≤ hi)
    (ascii "expecting " ++ (Str.chr lo ++ (ascii "-" ++ Str.chr hi)))

def digit : Parser Int := satisfyL (fun c => c ≥ 48 && c ≤ 57) (ascii "expecting digit")

def lit (t : Bytes) : Parser Bytes := fun s i =>
  if i + t.length ≤ s.length ∧ Str.substr s i t.length = t then .ok t (i + t.length)
  else errAt (ascii "expecting " ++ t) i

/-- `take_while_pos`; the first argument is the number of characters up to the end. -/
def takeWhilePos (f : Int → Bool) (s : Bytes) : Nat → Nat → Nat
  | 0, i => i
  | n + 1, i => if f (Str.charAt s i) then takeWhilePos f s n (i + 1) else i

def takeWhile (f : Int → Bool) : Parser Bytes := fun s i =>
  let j := takeWhilePos f s (s.length - i) i
  .ok (Str.substr s i (j - i)) j

/-! ### Repetition -/

/-- `star_loop`: an iteration that fails or consumes nothing ends it. -/
def starLoop (p : Parser α) (s : Bytes) : Nat → Nat → List α → Result (List α)
  | 0, _, _ => .fail none
  | n + 1, i, acc =>
      match p s i with
      | .fail _ => .ok acc.reverse i
      | .ok v j => if j = i then .ok acc.reverse i else starLoop p s n j (v :: acc)

/-- `star`.  A text has no more than its length of iterations that consume something. -/
def star (p : Parser α) : Parser (List α) := fun s i => starLoop p s (s.length + 1) i []

def plus (p : Parser α) : Parser (List α) := bind p fun v => bind (star p) fun rest => ret (v :: rest)

def sepThen (p : Parser α) (sep : Parser β) : Parser α := bind sep fun _ => bind p fun v => ret v

def sepBy1 (p : Parser α) (sep : Parser β) : Parser (List α) :=
  bind p fun v => bind (star (sepThen p sep)) fun rest => ret (v :: rest)

def sepBy (p : Parser α) (sep : Parser β) : Parser (List α) := choice (sepBy1 p sep) (ret [])

end TinyActor.Stdlib.Mpc
