/-
Random numbers: the generator (`lib/random.c`) and the list functions over it (`lib/random.ta`).

The generator is one 64-bit word, stepped by shifts and exclusive ors and read through a
multiplication.  `rand_int` draws until it gets a word that is not below `2^64 mod n`; whether it
ever does is a matter of the words drawn, so the loop is given a bound.  The list functions see
answers of `rand_int` only: at position `i` of a shuffle they ask for one below `i + 1`, and what
they are answered there is a parameter.
-/
import TinyActor.Stdlib.Lists
import TinyActor.Stdlib.Str
import TinyActor.Vm.Value

namespace TinyActor.Stdlib.Random

open Vm

/-! ### The generator -/

abbrev Word := BitVec 64

def golden : Word := 0x9E3779B97F4A7C15#64

def splitmix64 (x : Word) : Word :=
  let z := x + golden
  let z := (z ^^^ (z >>> 30)) * 0xBF58476D1CE4E5B9#64
  let z := (z ^^^ (z >>> 27)) * 0x94D049BB133111EB#64
  z ^^^ (z >>> 31)

/-- What `rng_next` makes of the state. -/
def nextState (x : Word) : Word :=
  let x := x ^^^ (x >>> 12)
  let x := x ^^^ (x <<< 25)
  x ^^^ (x >>> 27)

/-- `rng_next`: the word drawn and the state. -/
def rngNext (state : Word) : Word × Word :=
  let x := nextState state
  (x * 0x2545F4914F6CDD1D#64, x)

structure Rng where
  state : Word
  seeded : Bool
deriving DecidableEq, Repr

/-- `rng_seed_if_needed`; `now` is the time and the process id. -/
def seedIfNeeded (now : Word) (rng : Rng) : Rng :=
  if rng.seeded then rng else ⟨splitmix64 now, true⟩

variable {F : Type}

def srand (arg : Val F) (rng : Rng) : Val F × Rng :=
  if isInt arg then (.nil, ⟨splitmix64 (BitVec.ofInt 64 (getInt arg)), true⟩)
  else (valInt (-1), rng)

/-- `-un % un`. -/
def threshold (un : Word) : Word := -un % un

/-- The draws of `rand_int` until one is not below the threshold. -/
def redraw (threshold : Word) : Nat → Word → Option (Word × Word)
  | 0, _ => none
  | bound + 1, state =>
      let next := rngNext state
      if next.1 < threshold then redraw threshold bound next.2 else some next

/-- What `rand_int` answers for a word it accepts. -/
def answer (un r : Word) : Val F := valInt (r % un).toInt

/-- `rand_rand_int`. -/
def rawRandInt (now : Word) (bound : Nat) (arg : Val F) (rng : Rng) : Option (Val F × Rng) :=
  if !isInt arg then some (valInt (-1), rng)
  else if getInt arg ≤ 0 then some (valInt (-1), rng)
  else
    let un : Word := BitVec.ofInt 64 (getInt arg)
    let rng := seedIfNeeded now rng
    (redraw (threshold un) bound rng.state).map fun next =>
      (answer un next.1, { rng with state := next.2 })

/-! ### Lists -/

variable {α : Type}

/-- `rand_int`, by the answer of `raw_rand_int`. -/
def randInt (raw : Int) : Except Bytes Int :=
  if raw = -1 then .error (ascii "rand_int: n must be >= 1") else .ok raw

/-- `set_nth`; past the end of the list `car` or `cdr` ends the actor. -/
def setNth : List α → Int → α → Option (List α)
  | [], _, _ => none
  | a :: l, n, x => if n = 0 then some (x :: l) else (setNth l (n - 1) x).map (a :: ·)

def swap (nil : α) (l : List α) (i j : Int) : Option (List α) :=
  let vi := Lists.nth nil l i
  let vj := Lists.nth nil l j
  (setNth l i vj).bind fun l' => setNth l' j vi

/-- `fy`; `raw i` is the answer to the draw for the position `i`. -/
def fy (nil : α) (raw : Nat → Int) : List α → Nat → Option (List α)
  | l, 0 => some l
  | l, i + 1 =>
      match randInt (raw (i + 1)) with
      | .ok j => (swap nil l (i + 1 : Nat) j).bind fun l' => fy nil raw l' i
      | .error _ => some l

def shuffle (nil : α) (raw : Nat → Int) (l : List α) : Option (List α) :=
  fy nil raw l (l.length - 1)

def sample (nil : α) (raw : Nat → Int) (n : Int) (l : List α) : Option (Except Bytes (List α)) :=
  if n > l.length then some (.error (ascii "sample: n exceeds list length"))
  else (shuffle nil raw l).map fun s => .ok (Lists.take n s)

end TinyActor.Stdlib.Random
