/-
The memory block of an actor: `ta_inline.h` and the sizing half of
`gc_collect_internal` in `src/gc.c`, with the places of `src/vm.c` that move the
stack top without going through a checked push.

One block holds the heap, growing up from offset 0, and the stack, growing down
from the end.  A stack slot has a negative index `i` and occupies the eight bytes
at `mem_size + 8 * i`; the top slot has index `sp`.  `stack_floor` is the lowest
index any frame has reserved.  Only the sizes are modelled here: what a
collection copies is the subject of `Runtime/Gc.lean`, and all that matters of it
here is how many bytes it found alive, so each operation that may collect takes
that number.

All sizes and offsets are C `int`s, so what is added up from them is cut to 32 bits.
A block has at most one gibibyte, the size of one object does not.
-/
import TinyActor.Lib.CInt

namespace TinyActor.Runtime

open TinyActor.Lib (int32)

def TA_PROC_HEAP0 : Int := 512
def TA_STACK_HEADROOM : Int := 256
def TA_HEAP_FIT_SLACK : Int := 16
def TA_HEAP_MIN_OBJECT : Int := 16

/-- Round up to whole words, with room for a forwarding pointer. -/
def taHeapObjectSize (size : Int) : Int :=
  let size := int32 (size + 7) / 8 * 8
  if size < TA_HEAP_MIN_OBJECT then TA_HEAP_MIN_OBJECT else size

/-- The sizes and offsets of `Proc`'s memory block. -/
structure Arena where
  /-- `mem` is not null. -/
  hasMem : Bool
  memSize : Int
  heapPtr : Int
  sp : Int
  stackFloor : Int
  /-- The capacity of the other semispace, if it exists. -/
  gcTo : Option Int
  gcTrigger : Int
  gcPending : Bool
  gcGate : Nat
deriving DecidableEq, Repr

namespace Arena

/-- A new actor has no block. -/
def fresh : Arena where
  hasMem := false
  memSize := 0
  heapPtr := 0
  sp := 0
  stackFloor := 0
  gcTo := none
  gcTrigger := 0
  gcPending := false
  gcGate := 0

/-- `proc_stack_lo`: the lowest slot the heap must stay below. -/
def stackLo (a : Arena) : Int := if a.sp < a.stackFloor then a.sp else a.stackFloor

/-- `while (want < need && want < cap) want *= 2`.  Sixty-four doublings of a
positive size pass any cap the source admits. -/
def doubleUpTo (need cap : Int) : Nat → Int → Int
  | 0, want => want
  | fuel + 1, want =>
      if want < need ∧ want < cap then doubleUpTo need cap fuel (int32 (want * 2)) else want

/-- The size a block of `size` bytes grows to for `need` bytes, if the cap admits
it. -/
def grownSize (cap size need : Int) : Option Int :=
  let want := min (doubleUpTo need cap 64 size) cap
  if want < need then none else some want

def procEnsureHeap (a : Arena) : Arena :=
  if a.hasMem then a else { a with hasMem := true, memSize := TA_PROC_HEAP0 }

/-- Grow the block in place, which only an empty heap allows. -/
def procArenaGrow (cap : Int) (a : Arena) (need : Int) : Option Arena :=
  if a.hasMem = false ∨ a.heapPtr > 0 then none
  else
    (grownSize cap a.memSize need).bind fun want =>
      if want ≤ a.memSize then none else some { a with memSize := want }

/-- How a collection ends. -/
inductive Collected
  | ok (a : Arena)
  /-- The return value `-1`: the live set does not fit even at the cap. -/
  | tooBig
  /-- The live set does not fit below the stack. -/
  | fatal
deriving DecidableEq, Repr

/-- The destination is the other semispace, made as large as wanted if it is
smaller or not there. -/
def gcToCap (a : Arena) (want : Int) : Int :=
  match a.gcTo with
  | none => want
  | some c => if c < want then want else c

/-- The semispaces change places, and the next collection is due when the heap has
grown to twice the live bytes. -/
def swapped (a : Arena) (toCap live : Int) : Arena :=
  { a with
    memSize := toCap
    heapPtr := live
    gcTo := some a.memSize
    gcTrigger := if int32 (2 * live) < 4096 then 4096 else int32 (2 * live) }

/-- `need` in `gc_collect_internal`: everything in the heap, the extra room and the
stack down to its floor. -/
def gcNeed (a : Arena) (extraRoom : Int) : Int := int32 (a.heapPtr + extraRoom + -a.stackLo * 8)

/-- `gc_collect_internal`: size the destination; copy the `live` bytes; swap the
semispaces. -/
def gcCollect (cap : Int) (a : Arena) (extraRoom live : Int) : Collected :=
  if a.hasMem = false then .ok a
  else
    match grownSize cap a.memSize (a.gcNeed extraRoom) with
    | none => .tooBig
    | some want =>
        if a.gcToCap want + a.sp * 8 < live then .fatal
        else
          .ok (a.swapped (a.gcToCap want) live)

/-- `proc_gc_drain`: honour a pending request if the gate is open.  A live set
that does not fit is left where it is. -/
def procGcDrain (cap : Int) (a : Arena) (live : Int) : Option Arena :=
  if a.gcGate = 0 ∧ a.gcPending = true then
    match gcCollect cap { a with gcPending := false } 0 live with
    | .ok b => some b
    | .tooBig => some { a with gcPending := false }
    | .fatal => none
  else some a

/-- `proc_push` without the value, and the checked pushes of the interpreter. -/
def procPush (cap : Int) (a : Arena) : Option Arena :=
  let a := a.procEnsureHeap
  if int32 (a.memSize + (a.sp - 1) * 8) < a.heapPtr then
    (procArenaGrow cap a (int32 ((1 - a.sp) * 8))).bind fun b =>
      if int32 (b.memSize + (b.sp - 1) * 8) < b.heapPtr then none
      else some { b with sp := b.sp - 1 }
  else some { a with sp := a.sp - 1 }

/-- The deepest frame floor asked for so far. -/
def lowerFloor (a : Arena) (loIdx : Int) : Arena :=
  { a with stackFloor := if loIdx < a.stackFloor then loIdx else a.stackFloor }

/-- `proc_stack_reserve`: record the floor, then make the room. -/
def procStackReserve (cap : Int) (a : Arena) (loIdx live : Int) : Option Arena :=
  let a := a.procEnsureHeap.lowerFloor loIdx
  if int32 (a.memSize + loIdx * 8) < a.heapPtr then
    let b? := match procArenaGrow cap a (int32 ((1 - loIdx) * 8)) with
      | some b => some b
      | none =>
          match gcCollect cap a (int32 ((1 - loIdx) * 8)) live with
          | .ok b => some b
          | _ => none
    b?.bind fun b => if int32 (b.memSize + loIdx * 8) < b.heapPtr then none else some b
  else some a

/-- `proc_reserve_heap`: room for a copy of known size. -/
def procReserveHeap (cap : Int) (a : Arena) (bytes live : Int) : Option Arena :=
  if int32 (a.memSize - a.heapPtr + a.stackLo * 8) ≥ int32 (bytes + TA_HEAP_FIT_SLACK) then some a
  else if a.heapPtr = 0 then
    procArenaGrow cap a (int32 (a.heapPtr + -a.stackLo * 8 + bytes + TA_STACK_HEADROOM))
  else
    match gcCollect cap a (int32 (bytes + TA_STACK_HEADROOM)) live with
    | .ok b => some b
    | _ => none

/-- `proc_heap_alloc` outside a callback window.  `live` and `live'` are what the
drained request and the collection for room would find. -/
def procHeapAlloc (cap : Int) (a : Arena) (size live live' : Int) : Option Arena :=
  let size := taHeapObjectSize size
  let a := a.procEnsureHeap
  let a := { a with gcPending := a.gcPending || decide (a.heapPtr > a.gcTrigger) }
  (procGcDrain cap a live).bind fun a =>
    if int32 (a.heapPtr + size + TA_HEAP_FIT_SLACK) > int32 (a.memSize + a.stackLo * 8) then
      if a.gcGate ≠ 0 then none
      else
        match gcCollect cap a (int32 (size + TA_STACK_HEADROOM)) live' with
        | .ok b => some { b with heapPtr := int32 (b.heapPtr + size) }
        | _ => none
    else some { a with heapPtr := int32 (a.heapPtr + size) }

/-- `gc_collect_converge`: the chunk arena's bytes are the extra room, and what is
alive of them is copied as well. -/
def gcCollectConverge (cap : Int) (a : Arena) (total live : Int) : Option Arena :=
  match gcCollect cap a total live with
  | .ok b => some b
  | _ => none

/-! ### Where the interpreter moves the stack top -/

/-- `RESERVE n`: the frame's locals, pushed unchecked after one reservation. -/
def opReserve (cap : Int) (a : Arena) (n : Nat) (live : Int) : Option Arena :=
  (procStackReserve cap a (-int32 (-a.sp + n)) live).map fun b => { b with sp := b.sp - n }

/-- The three words of a return frame, pushed behind one check. -/
def pushCont (cap : Int) (a : Arena) : Option Arena :=
  -- the check is made on addresses
  let a? := if a.memSize + (a.sp - 3) * 8 < a.heapPtr then
      procArenaGrow cap a (int32 ((-a.sp + 3) * 8))
    else some a
  a?.map fun b => { b with sp := b.sp - 3 }

/-- `CALL n` of a function whose frame takes `maxd` slots: flush the last
argument, push the return frame, and reserve the whole frame unless a deeper one
has been reserved already. -/
def opCall (cap : Int) (a : Arena) (n maxd : Nat) (live : Int) : Option Arena :=
  (procPush cap a).bind fun a =>
    let nb := -a.sp - n
    (pushCont cap a).bind fun a =>
      let lo := -int32 (nb + maxd + 1)
      if lo < a.stackFloor then procStackReserve cap a lo live else some a

/-- `TCALL n` in a frame at `base`: flush the last argument, reserve the new
frame unless the function calls itself, and move the call block down to the
base. -/
def opTcall (cap : Int) (a : Arena) (selfCall : Bool) (base n maxd : Nat) (live : Int) :
    Option Arena :=
  (procPush cap a).bind fun a =>
    let a? := if selfCall then some a else procStackReserve cap a (-int32 (base + maxd + 1)) live
    a?.map fun b => { b with sp := -(base + n + 3) }

end Arena

end TinyActor.Runtime
