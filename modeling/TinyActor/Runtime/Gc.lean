/-
The collector: `src/gc.c`, and the sweep of `src/resource.c` that ends a
collection.

Memory is known by the objects that start at its addresses.  Copying an object
leaves a forwarding pointer over its first bytes, so what was there is lost: a
cell is an object or a forwarding pointer, never both.  Reading a cell where no
object starts, or scanning one that was forwarded, has no meaning in the source,
and the functions then have no result; they have none either where the source
stops with a fatal error.

There are two places objects are copied from, the actor's heap and, while the
result of a native call is brought home, the chunks that call allocated.
Everything else a value may point at, such as the constants of the program, stays
where it is.
-/
import Mathlib.Logic.Function.Basic
import TinyActor.Runtime.Arena

namespace TinyActor.Runtime.Gc

/-! ### Words and objects -/

/-- The tags of the words that are pointers. -/
inductive Tag
  | pair
  | clos
  | string
  | bytes
  | resource
deriving DecidableEq, Repr

inductive Val
  /-- Any other word: a number, a symbol, a pid, a closure without captures. -/
  | imm (w : Nat)
  | ptr (tag : Tag) (addr : Nat)
deriving DecidableEq, Repr

/-- A word with its address replaced. -/
def Val.map (f : Nat → Nat) : Val → Val
  | imm w => imm w
  | ptr tag a => ptr tag (f a)

/-- The address in a word. -/
def Val.addr? : Val → Option Nat
  | imm _ => none
  | ptr _ a => some a

inductive Obj
  | pair (car cdr : Val)
  | clos (entry : Nat) (free : List Val)
  | string (data : List UInt8)
  | bytes (data : List UInt8)
  | resource (ownerPid : Nat) (res : Option Nat)
deriving DecidableEq, Repr

namespace Obj

/-- The words of an object. -/
def vals : Obj → List Val
  | pair car cdr => [car, cdr]
  | clos _ free => free
  | string _ | bytes _ | resource _ _ => []

/-- An object with other words. -/
def withVals : Obj → List Val → Obj
  | pair _ _, [car, cdr] => pair car cdr
  | clos entry _, free => clos entry free
  | o, _ => o

def map (f : Nat → Nat) : Obj → Obj
  | pair car cdr => pair (car.map f) (cdr.map f)
  | clos entry free => clos entry (free.map (Val.map f))
  | string data => string data
  | bytes data => bytes data
  | resource ownerPid res => resource ownerPid res

/-- The addresses in an object. -/
def refs (o : Obj) : List Nat := o.vals.filterMap Val.addr?

/-- `gc_obj_size`, with the sizes of the source's structs. -/
def gcObjSize (o : Obj) : Nat :=
  (taHeapObjectSize (match o with
    | pair _ _ => 24
    | clos _ free => 16 + 8 * free.length
    | string data => 8 + data.length + 1
    | bytes data => 8 + data.length
    | resource _ _ => 16)).toNat

/-- The size rounded up to whole words once more, as the copy and both walks do. -/
def stride (o : Obj) : Nat := (o.gcObjSize + 7) / 8 * 8

end Obj

inductive Cell
  | obj (o : Obj)
  | fwd (addr : Nat)
deriving DecidableEq, Repr

abbrev Cells := Nat → Option Cell

/-! ### Spaces -/

/-- The chunks of a native call: where each starts and how many bytes count as
its own. -/
structure CallbackArena where
  promote : Bool
  chunks : List (Nat × Nat)
deriving Repr

/-- What a collection copies from and to. -/
structure Spaces where
  mem : Nat
  heapPtr : Nat
  ccall : Option CallbackArena
  gcTo : Nat
  /-- `gc_to_cap + sp * 8`, the bytes below the stack. -/
  room : Int
deriving Repr

namespace Spaces

def inFromspace (S : Spaces) (a : Nat) : Bool := S.mem ≤ a ∧ a < S.mem + S.heapPtr

def valInChunk (S : Spaces) (a : Nat) : Bool :=
  match S.ccall with
  | none => false
  | some c => c.chunks.any fun (start, bytes) => start ≤ a ∧ a < start + bytes

def gcCopyable (S : Spaces) (a : Nat) : Bool :=
  S.inFromspace a || ((S.ccall.elim false fun c => c.promote) && S.valInChunk a)

end Spaces

/-! ### Copying -/

/-- The memory, and how much of the destination is in use. -/
structure Heap where
  cells : Cells
  gcToSize : Nat

def Heap.write (h : Heap) (a : Nat) (c : Cell) : Heap :=
  { h with cells := Function.update h.cells a (some c) }

/-- Copy an object to the end of the destination, or follow the pointer a copy
has left.  An object that does not fit has no copy: the fit check is fatal, or its sum
wraps and the bytes go past the destination. -/
def gcCopyObj (S : Spaces) (h : Heap) (a : Nat) : Option (Nat × Heap) :=
  match h.cells a with
  | none => none
  | some (.fwd b) => some (b, h)
  | some (.obj o) =>
      if (h.gcToSize : Int) + o.stride > S.room then none
      else
        let new := S.gcTo + h.gcToSize
        some (new, { (h.write new (.obj o)).write a (.fwd new) with gcToSize := h.gcToSize + o.stride })

def gcCopyVal (S : Spaces) (h : Heap) (v : Val) : Option (Val × Heap) :=
  match v with
  | .imm w => some (.imm w, h)
  | .ptr tag a =>
      if S.gcCopyable a then (gcCopyObj S h a).map fun (b, h) => (.ptr tag b, h)
      else some (.ptr tag a, h)

/-- The words of a range in turn: the stack, or the fields of an object. -/
def gcCopyVals (S : Spaces) (h : Heap) : List Val → Option (List Val × Heap)
  | [] => some ([], h)
  | v :: vs =>
      (gcCopyVal S h v).bind fun (v, h) => (gcCopyVals S h vs).map fun (vs, h) => (v :: vs, h)

/-- Walk the destination from its start, copying what each object points at, until
the walk has caught up with the copies. -/
def gcScanTospace (S : Spaces) : Nat → Nat → Heap → Option Heap
  | 0, _, _ => none
  | fuel + 1, scan, h =>
      if scan < h.gcToSize then
        match h.cells (S.gcTo + scan) with
        | some (.obj o) =>
            (gcCopyVals S h o.vals).bind fun (vs, h) =>
              let o := o.withVals vs
              gcScanTospace S fuel (scan + o.stride) (h.write (S.gcTo + scan) (.obj o))
        | _ => none
      else some h

/-! ### The sweep -/

/-- The payload an actor would release through an object. -/
def Obj.releasable (pid : Nat) : Obj → Option Nat
  | resource ownerPid res => if ownerPid = pid then res else none
  | _ => none

/-- A header that has been released through. -/
def Obj.cleared : Obj → Obj
  | resource ownerPid _ => resource ownerPid none
  | o => o

/-- `resource_release_space`, with the offsets it stops at: release through every
header of the actor, in the space that was copied from (`skipForwarded`), where the
size of a forwarded object is read off its copy, and in the heap of an actor that has
died, where a forwarded header would not be recognised. -/
def resourceReleaseSpace (skipForwarded : Bool) (pid base bytes : Nat) :
    Nat → Nat → Cells → Option (List Nat × Cells × List Nat)
  | 0, _, _ => none
  | fuel + 1, off, cells =>
      if off < bytes then
        match cells (base + off) with
        | none => none
        | some (.fwd a) =>
            match skipForwarded, cells a with
            | true, some (.obj o) =>
                (resourceReleaseSpace skipForwarded pid base bytes fuel (off + o.stride) cells).map
                  fun (offs, cells, ps) => (off :: offs, cells, ps)
            | _, _ => none
        | some (.obj o) =>
            let cells := (o.releasable pid).elim cells fun _ =>
              Function.update cells (base + off) (some (.obj o.cleared))
            (resourceReleaseSpace skipForwarded pid base bytes fuel (off + o.cleared.stride) cells).map
              fun (offs, cells, ps) => (off :: offs, cells, (o.releasable pid).toList ++ ps)
      else some ([], cells, [])

/-! ### A collection -/

/-- The memory around an actor's block: the addresses of its two semispaces, and
the native call in progress. -/
structure Memory where
  cells : Cells
  mem : Nat
  gcTo : Nat
  ccall : Option CallbackArena

/-- The roots, in the order they are copied. -/
structure Roots where
  extra : Option Val
  /-- The stack from its top. -/
  stack : List Val
deriving DecidableEq, Repr

def Roots.vals (r : Roots) : List Val := r.extra.toList ++ r.stack

/-- The addresses among the roots. -/
def Roots.addrs (r : Roots) : List Nat := r.vals.filterMap Val.addr?

def Roots.map (f : Nat → Nat) (r : Roots) : Roots where
  extra := r.extra.map (Val.map f)
  stack := r.stack.map (Val.map f)

/-- What a collection leaves, besides the sizes. -/
structure Result where
  cells : Cells
  roots : Roots
  /-- The payloads the sweep released. -/
  released : List Nat

/-- How `gc_collect_internal` ends. -/
inductive Outcome
  /-- There is no block to collect. -/
  | idle
  /-- The return value `-1`. -/
  | tooBig
  | fatal
  | ok (a : Arena) (r : Result)

/-- The roots and what they reach, copied; the space they came from is left as it is
for the sweep. -/
def gcCopied (S : Spaces) (fuel : Nat) (cells : Cells) (roots : Roots) : Option (Heap × Roots) :=
  (gcCopyVals S ⟨cells, 0⟩ roots.extra.toList).bind fun (extra, h) =>
    (gcCopyVals S h roots.stack).bind fun (stack, h) =>
      (gcScanTospace S fuel 0 h).map fun h => (h, { extra := extra.head?, stack := stack })

/-- The copy, in a destination that has been sized: the roots, then what they
reach, then the sweep of what was left behind. -/
def gcCopyLive (S : Spaces) (pid : Nat) (fuel : Nat) (cells : Cells) (roots : Roots) :
    Option (Nat × Result) :=
  (gcCopied S fuel cells roots).bind fun (h, roots) =>
    (resourceReleaseSpace true pid S.mem S.heapPtr (S.heapPtr + 1) 0 h.cells).map
      fun (_, cells, released) => (h.gcToSize, { cells, roots, released })

/-- The spaces of a collection into `toCap` bytes. -/
def spaces (a : Arena) (m : Memory) (toCap : Int) : Spaces where
  mem := m.mem
  heapPtr := a.heapPtr.toNat
  ccall := m.ccall
  gcTo := m.gcTo
  room := toCap + a.sp * 8

/-- `gc_collect_internal`. -/
def gcCollectInternal (cap : Int) (a : Arena) (pid : Nat) (m : Memory) (extraRoom : Int)
    (roots : Roots) : Outcome :=
  if a.hasMem = false then .idle
  else
    match Arena.grownSize cap a.memSize (a.gcNeed extraRoom) with
    | none => .tooBig
    | some want =>
        let toCap := a.gcToCap want
        match gcCopyLive (spaces a m toCap) pid (toCap.toNat + 1) m.cells roots with
        | none => .fatal
        | some (live, r) => .ok (a.swapped toCap live) r

end TinyActor.Runtime.Gc
