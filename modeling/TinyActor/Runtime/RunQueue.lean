/-
The run queue of `src/scheduler.c`: a ring of pids behind two `int` counters.

The counters only ever go up and are reduced modulo the capacity where a cell is
used; growing the ring copies the pids to the front of a larger block and starts
the counters again from there.  `int` arithmetic wraps at 32 bits here, which is
what the machine does (the C standard leaves it undefined), and `%` rounds
towards zero, so a negative counter gives a negative index.  An access outside
the block, and a read of a cell nothing was written to, is a fault.

Both operations run under `rq_lock`, so they are steps of their own.
-/
import Mathlib.Data.List.Basic
import TinyActor.Lib.CInt

namespace TinyActor.Runtime

open TinyActor.Lib (int32)

structure RunQueue where
  /-- The cells; `none` was never written since the block was allocated. -/
  runq : List (Option Int)
  rqCap : Int
  rqHead : Int
  rqTail : Int
  rqCount : Int
deriving DecidableEq, Repr

namespace RunQueue

/-- `malloc` of a number of cells; a negative number is a huge `size_t`. -/
def malloc (cells : Int) : Option (List (Option Int)) :=
  if 0 ≤ cells then some (.replicate cells.toNat none) else none

def readCell (block : List (Option Int)) (i : Int) : Option Int :=
  if 0 ≤ i then (block[i.toNat]?).join else none

def writeCell (block : List (Option Int)) (i x : Int) : Option (List (Option Int)) :=
  if 0 ≤ i ∧ i.toNat < block.length then some (block.set i.toNat (some x)) else none

/-- The queue `vm_new` makes. -/
def new : RunQueue where
  runq := .replicate 256 none
  rqCap := 256
  rqHead := 0
  rqTail := 0
  rqCount := 0

/-- The copying loop of a growing ring, with `k` rounds to go. -/
def copyLoop (q : RunQueue) : Nat → Int → List (Option Int) → Option (List (Option Int))
  | 0, _, newQ => some newQ
  | k + 1, i, newQ =>
      (readCell q.runq ((int32 (q.rqHead + i)).tmod q.rqCap)).bind fun x =>
        (writeCell newQ i x).bind fun newQ => copyLoop q k (i + 1) newQ

/-- The branch that doubles the ring. -/
def grow (q : RunQueue) : Option RunQueue :=
  let newCap := int32 (q.rqCap * 2)
  let count := int32 (q.rqTail - q.rqHead)
  (malloc newCap).bind fun newQ =>
    (copyLoop q count.toNat 0 newQ).map fun newQ =>
      { q with runq := newQ, rqCap := newCap, rqHead := 0, rqTail := count }

/-- The branch taken in every case: write the cell and move the tail on. -/
def append (q : RunQueue) (pid : Int) : Option RunQueue :=
  (writeCell q.runq (q.rqTail.tmod q.rqCap) pid).map fun block =>
    { q with runq := block, rqTail := int32 (q.rqTail + 1), rqCount := int32 (q.rqCount + 1) }

def runqEnqueue (q : RunQueue) (pid : Int) : Option RunQueue :=
  if q.rqCap ≤ int32 (q.rqTail - q.rqHead) then q.grow.bind fun q => q.append pid
  else q.append pid

/-- The pid, or `-1` if the queue is empty, and the queue afterwards. -/
def runqTrydequeue (q : RunQueue) : Option (Int × RunQueue) :=
  if q.rqCount = 0 then some (-1, q)
  else
    (readCell q.runq (q.rqHead.tmod q.rqCap)).map fun pid =>
      (pid, { q with rqHead := int32 (q.rqHead + 1), rqCount := int32 (q.rqCount - 1) })

/-- One operation on the queue. -/
inductive Op
  | enqueue (pid : Int)
  | dequeue
deriving DecidableEq, Repr

/-- One operation, and what it returned if it was a dequeue. -/
def step (q : RunQueue) : Op → Option (List Int × RunQueue)
  | .enqueue pid => (q.runqEnqueue pid).map fun q => ([], q)
  | .dequeue => q.runqTrydequeue.map fun (pid, q) => ([pid], q)

/-- The operations one after another, with what the dequeues returned. -/
def run (q : RunQueue) : List Op → Option (List Int × RunQueue)
  | [] => some ([], q)
  | op :: ops =>
      (q.step op).bind fun (out, q) => (run q ops).map fun (outs, q) => (out ++ outs, q)

/-- The same operations on a queue without bound: what the ring is for. -/
def fifo : List Int → List Op → List Int × List Int
  | xs, [] => ([], xs)
  | xs, .enqueue pid :: ops => fifo (xs ++ [pid]) ops
  | [], .dequeue :: ops => let (outs, ys) := fifo [] ops; (-1 :: outs, ys)
  | x :: xs, .dequeue :: ops => let (outs, ys) := fifo xs ops; (x :: outs, ys)

/-- No counter passes `INT_MAX` in the operation: there is a number left for the
tail, and for twice the capacity if the ring is full. -/
def fits (q : RunQueue) : Op → Bool
  | .enqueue _ =>
      if q.rqTail - q.rqHead < q.rqCap then q.rqTail < 2 ^ 31 - 1 else q.rqCap * 2 < 2 ^ 31
  | .dequeue => true

/-- Every operation of the run finds its counters below `INT_MAX`. -/
def allFit (q : RunQueue) : List Op → Bool
  | [] => true
  | op :: ops =>
      q.fits op && match q.step op with
        | some (_, q) => allFit q ops
        | none => true

end RunQueue

end TinyActor.Runtime
