/-
How a message travels: `frag_calc_size` and `frag_copy` of `src/scheduler.c` serialise
it into a block of its own, `val_calc_heap_size` and `val_deep_copy` of `src/val.c`
rebuild it on the receiver's heap.

All four walk over the value with a stack of tasks.  The block is fresh memory and so
a memory of its own; the copies read from one memory and write to another.  Sizes are
C `int`s.  A pointer whose target is not an object of its tag is never followed by the
source, and the functions then have no result.
-/
import TinyActor.Lib.CInt
import TinyActor.Lib.Loop
import TinyActor.Runtime.Gc

namespace TinyActor.Runtime.Message

open TinyActor.Lib (int32 loop)
open TinyActor.Runtime (taHeapObjectSize)
open TinyActor.Runtime.Gc (Val Obj Tag)

/-! ### Memory -/

/-- The objects of a memory, by their address. -/
abbrev Memory := Nat → Option Obj

def tagOf : Obj → Tag
  | .pair _ _ => .pair
  | .clos _ _ => .clos
  | .string _ => .string
  | .bytes _ => .bytes
  | .resource _ _ => .resource

/-- The bytes of an object, with the sizes of the source's structs. -/
def objBytes : Obj → Int
  | .pair _ _ => 24
  | .clos _ free => 16 + 8 * free.length
  | .string data => 8 + data.length + 1
  | .bytes data => 8 + data.length
  | .resource _ _ => 16

/-- The object a word of this tag points at. -/
def deref (mem : Memory) (tag : Tag) (a : Nat) : Option Obj :=
  match mem a with
  | some o => if tagOf o = tag then some o else none
  | none => none

/-- `FRAG_ALIGN8`. -/
def fragAlign8 (x : Int) : Int := (x + 7) / 8 * 8

/-- `ta_heap_object_size`, which takes an `int`. -/
def heapRound (x : Int) : Int := taHeapObjectSize (int32 x)

/-! ### Sizes -/

structure SizeState where
  tasks : List Val
  total : Int
  hasRes : Bool
deriving DecidableEq, Repr

def isResource : Obj → Bool
  | .resource _ _ => true
  | _ => false

/-- A turn of both size loops; they differ in how an object's size is rounded up.  The words
of an object are pushed so that the first is on top. -/
def sizeStep (round : Int → Int) (mem : Memory) (s : SizeState) : Option SizeState :=
  match s.tasks with
  | [] => none
  | .imm _ :: rest => some { s with tasks := rest }
  | .ptr tag a :: rest =>
      (deref mem tag a).map fun o =>
        ⟨o.vals ++ rest, int32 (s.total + round (objBytes o)), s.hasRes || isResource o⟩

def calcSize (round : Int → Int) (mem : Memory) (fuel : Nat) (root : Val) : Option SizeState :=
  loop (sizeStep round mem) (fun s => s.tasks.isEmpty) fuel ⟨[root], 0, false⟩

/-- The bytes of `data[]` for a value, and whether there is a resource in it. -/
def fragCalcSize (mem : Memory) (fuel : Nat) (root : Val) : Option (Int × Bool) :=
  (calcSize fragAlign8 mem fuel root).map fun s => (s.total, s.hasRes)

/-- The bytes to reserve on the receiver's heap. -/
def valCalcHeapSize (mem : Memory) (fuel : Nat) (root : Val) : Option Int :=
  (calcSize heapRound mem fuel root).map fun s => s.total

/-! ### The copy into a fragment -/

/-- `MsgFragment`: the address of `data[]`, how much of it is used, and the objects there.
`written` counts the bytes of the objects; the source has no such counter. -/
structure Fragment where
  data : Nat
  size : Int
  mem : Memory
  written : Int

/-- Put an object behind the ones before it, at the next multiple of eight. -/
def Fragment.place (f : Fragment) (o : Obj) : Fragment × Nat :=
  let start := int32 (fragAlign8 f.size)
  let dst := ((f.data : Int) + start).toNat
  ({ f with
      size := int32 (start + objBytes o)
      mem := Function.update f.mem dst (some o)
      written := f.written + objBytes o }, dst)

inductive FragTask
  | value (v : Val)
  | pair
  | closure (dst : Nat)
deriving DecidableEq, Repr

structure FragCopy where
  frag : Fragment
  tasks : List FragTask
  results : List Val

def fragCopyStep (src : Memory) (s : FragCopy) : Option FragCopy :=
  match s.tasks with
  | [] => none
  | .pair :: rest =>
      match s.results with
      | cdr :: car :: results =>
          let p := s.frag.place (.pair car cdr)
          some ⟨p.1, rest, .ptr .pair p.2 :: results⟩
      | _ => none
  | .closure dst :: rest =>
      match s.frag.mem dst with
      | some (.clos entry free) =>
          if free.length ≤ s.results.length then
            let o := Obj.clos entry (s.results.take free.length).reverse
            some ⟨{ s.frag with mem := Function.update s.frag.mem dst (some o) }, rest,
              .ptr .clos dst :: s.results.drop free.length⟩
          else none
      | _ => none
  | .value (.imm w) :: rest => some { s with tasks := rest, results := .imm w :: s.results }
  | .value (.ptr tag a) :: rest =>
      match deref src tag a with
      | none => none
      | some (.pair car cdr) =>
          some { s with tasks := .value car :: .value cdr :: .pair :: rest }
      | some (.clos entry free) =>
          -- the closure is placed now, and its words filled in once they are copied
          let p := s.frag.place (.clos entry (List.replicate free.length (.imm 0)))
          some { s with frag := p.1, tasks := free.map .value ++ .closure p.2 :: rest }
      | some o =>
          let p := s.frag.place o
          some ⟨p.1, rest, .ptr tag p.2 :: s.results⟩

/-- The fragment with the copy of a value in it, and the copy's word. -/
def fragCopy (src : Memory) (fuel : Nat) (f : Fragment) (root : Val) : Option (Fragment × Val) :=
  (loop (fragCopyStep src) (fun s => s.tasks.isEmpty) fuel ⟨f, [.value root], []⟩).bind fun s =>
    s.results.head?.map fun v => (s.frag, v)

/-- `malloc` of a fragment. -/
def newFragment (data : Nat) : Fragment := ⟨data, 0, fun _ => none, 0⟩

/-! ### The copy onto the receiver's heap -/

/-- The heap of an actor that does not collect: where it is, how much of it is used, and the
objects there. -/
structure Target where
  base : Nat
  heapPtr : Int
  mem : Memory

/-- `proc_heap_alloc` and the stores that follow it. -/
def Target.alloc (h : Target) (o : Obj) : Target × Nat :=
  let dst := ((h.base : Int) + h.heapPtr).toNat
  ({ h with
      heapPtr := h.heapPtr + heapRound (objBytes o)
      mem := Function.update h.mem dst (some o) }, dst)

inductive CopyTask
  | value (v : Val)
  | pair
  | closure (v : Val)
deriving DecidableEq, Repr

structure DeepCopy where
  target : Target
  tasks : List CopyTask
  results : List Val

def deepCopyStep (src : Memory) (s : DeepCopy) : Option DeepCopy :=
  match s.tasks with
  | [] => none
  | .pair :: rest =>
      match s.results with
      | cdr :: car :: results =>
          let p := s.target.alloc (.pair car cdr)
          some ⟨p.1, rest, .ptr .pair p.2 :: results⟩
      | _ => none
  | .closure (.ptr tag a) :: rest =>
      match deref src tag a with
      | some (.clos entry free) =>
          if free.length ≤ s.results.length then
            let p := s.target.alloc (.clos entry (s.results.take free.length).reverse)
            some ⟨p.1, rest, .ptr .clos p.2 :: s.results.drop free.length⟩
          else none
      | _ => none
  | .closure (.imm _) :: _ => none
  | .value (.imm w) :: rest => some { s with tasks := rest, results := .imm w :: s.results }
  | .value (.ptr tag a) :: rest =>
      match deref src tag a with
      | none => none
      | some (.pair car cdr) =>
          some { s with tasks := .value car :: .value cdr :: .pair :: rest }
      | some (.clos _ free) =>
          some { s with tasks := free.map .value ++ .closure (.ptr tag a) :: rest }
      | some o =>
          let p := s.target.alloc o
          some ⟨p.1, rest, .ptr tag p.2 :: s.results⟩

/-- `val_deep_copy` on the way of a message, where resources have been checked before. -/
def valDeepCopy (src : Memory) (fuel : Nat) (h : Target) (root : Val) : Option (Target × Val) :=
  (loop (deepCopyStep src) (fun s => s.tasks.isEmpty) fuel ⟨h, [.value root], []⟩).bind fun s =>
    s.results.head?.map fun v => (s.target, v)

/-- What a message goes through between `mbox_deliver` and the end of `mbox_pop`, if there is
no resource in it: the memory of the sender, where the fragment is allocated, and the heap of
the receiver. -/
def carry (src : Memory) (fuel data : Nat) (h : Target) (msg : Val) : Option (Target × Val) := do
  let size ← fragCalcSize src fuel msg
  if size.2 then none
  else
    let f ← fragCopy src fuel (newFragment data) msg
    valDeepCopy f.1.mem fuel h f.2

end TinyActor.Runtime.Message
