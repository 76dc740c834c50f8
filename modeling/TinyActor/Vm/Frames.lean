/-
Frames: what calls, tail calls and returns do to the stack of `src/vm.c`.

A frame starts at `base` with the function in it and its arguments.  Above them lie the
three words of the return frame, at a place that depends on how many arguments the
function now in the frame takes, and above these its locals and operands.  A call makes
its call block the new frame; a tail call rebuilds the current frame in place for
another function; a return reads the three words and drops the frame.

A `Trace` follows these three through a whole execution.  Next to the machine it keeps
the list of callers that are waiting, as they were when they called, which is what the
words on the stack stand for.
-/
import TinyActor.Vm.Machine

namespace TinyActor.Vm

variable {F W : Type}

/-- How many arguments the function in a frame takes.  The slot of the entry's frame
has no function, and the entry takes no argument. -/
def arity (img : Image F) (heap : Heap F) (f : Val F) : Nat :=
  ((fidOf heap f).bind (img.fnArgs[·]?)).getD 0

/-- The arity of the function that is running. -/
def State.arity (img : Image F) (s : State F W) : Nat := Vm.arity img s.heap (s.slots s.base)

/-- A caller as it waits: where it goes on, its frame, and its stack. -/
structure Caller (F : Type) where
  pc : Nat
  base : Nat
  cbase : Nat
  sp : Nat
  slots : Nat → Val F

/-- The caller at a `CALL n`: it goes on after the instruction, with the stack below the
call block. -/
def State.caller (s : State F W) (n : Nat) : Caller F :=
  ⟨s.pc + 2, s.base, s.cbase, s.sp + 1 - n, s.slots⟩

/-- The call block of an instruction, accumulator included, lies above the frame. -/
def State.blockAbove (img : Image F) (s : State F W) (n : Nat) : Prop :=
  s.base + s.arity img + 4 ≤ s.sp + 1 - n

/-- Registers that `val_int` keeps: an address space of words and slots is far smaller. -/
def State.fits (s : State F W) : Prop := s.pc + 2 < 2 ^ 47 ∧ s.base < 2 ^ 47 ∧ s.cbase < 2 ^ 47

/-- What a function does within its own frame: it may write its arguments, its locals
and operands, allocate and jump, but what lies below its frame, the function in it and
the return frame stay. -/
structure Works (img : Image F) (s s' : State F W) : Prop where
  base : s'.base = s.base
  kept : ∀ i, i ≤ s.base ∨ (s.base + s.arity img + 1 ≤ i ∧ i ≤ s.base + s.arity img + 3) →
    s'.slots i = s.slots i
  heap : s.heap <+: s'.heap
  room : s.base + s.arity img + 4 ≤ s'.sp

/-- The instructions that act within the frame.  A store does if it is to an argument or
a local; what a primitive does is not part of the interpreter. -/
def Instr.inFrame (nargs : Nat) : Instr → Bool
  | .store k => (1 ≤ k && k ≤ nargs) || nargs + 4 ≤ k
  | .call _ | .tcall _ | .ret _ | .builtin _ _ => false
  | _ => true

variable [Double F] [DecidableEq F]

/-- An execution, with the callers that wait, the last one first. -/
inductive Trace (host : Host F W) (img : Image F) :
    State F W × List (Caller F) → State F W × List (Caller F) → Prop
  | refl (r : State F W × List (Caller F)) : Trace host img r r
  | work {s s' : State F W} {cs : List (Caller F)} {r : State F W × List (Caller F)} :
      Works img s s' → Trace host img (s', cs) r → Trace host img (s, cs) r
  | call {s s' : State F W} {cs : List (Caller F)} {n : Nat} {r : State F W × List (Caller F)} :
      exec host img s (.call n) = .tick s' → s.blockAbove img n → s.fits →
      Trace host img (s', s.caller n :: cs) r → Trace host img (s, cs) r
  | tcall {s s' : State F W} {cs : List (Caller F)} {n : Nat} {r : State F W × List (Caller F)} :
      exec host img s (.tcall n) = .tick s' → s.blockAbove img n →
      Trace host img (s', cs) r → Trace host img (s, cs) r
  | ret {s s' : State F W} {c : Caller F} {cs : List (Caller F)}
      {r : State F W × List (Caller F)} :
      exec host img s (.ret (s.arity img)) = .tick s' →
      Trace host img (s', cs) r → Trace host img (s, c :: cs) r

/-- A chain of tail calls, with what the functions do in between. -/
inductive TailChain (host : Host F W) (img : Image F) : State F W → State F W → Prop
  | refl (s : State F W) : TailChain host img s s
  | work {s s' r : State F W} : Works img s s' → TailChain host img s' r → TailChain host img s r
  | tcall {s s' r : State F W} {n : Nat} : exec host img s (.tcall n) = .tick s' →
      TailChain host img s' r → TailChain host img s r

/-- `proc_frame_init`: the first frame of an actor, for the function `fid`.  The entry
has nil in the place of a function. -/
def frameInit (img : Image F) (m : Memory F W) (fid : Nat) (f acc : Val F) : State F W where
  slots i := if i = 0 then f else if i < 4 + (img.fnArgs[fid]?).getD 0 then .nil else m.slots i
  heap := m.heap
  world := m.world
  acc := acc
  pc := (img.fnEntry[fid]?).getD 0
  base := 0
  cbase := (img.fnEntry[fid]?).getD 0
  sp := 4 + (img.fnArgs[fid]?).getD 0

/-- `op_tcall` after its shortcut: the return frame is read, the call block moves down,
and the return frame is written above it. -/
def opTcallGeneral (img : Image F) (s : State F W) (n entry : Nat) : State F W :=
  let ok := s.arity img
  let moved := copyDown s.slots (s.sp - n) s.base n
  let oret : Val F := valInt (getInt (s.slots (s.base + ok + 1)))
  let obase : Val F := valInt (getInt (s.slots (s.base + ok + 2)))
  let ocbase : Val F := valInt (getInt (s.slots (s.base + ok + 3)))
  { s with
    slots := Function.update (Function.update (Function.update moved (s.base + n) oret)
      (s.base + n + 1) obase) (s.base + n + 2) ocbase
    sp := s.base + n + 3 }.enter entry

/-- The caller goes on as it was when it called. -/
structure Restored (s : State F W) (c : Caller F) : Prop where
  pc : s.pc = c.pc
  base : s.base = c.base
  cbase : s.cbase = c.cbase
  sp : s.sp = c.sp
  stack : ∀ i < c.sp, s.slots i = c.slots i

/-- Two states with the same frame, whose return frame starts at `p`: equal but for the
words of the return frame, and these read the same.  If they are integers, as a call
writes them, the states are equal. -/
structure SameFrame (p : Nat) (a b : State F W) : Prop where
  regs : a = { b with slots := a.slots }
  slots : ∀ i, i < p ∨ p + 3 ≤ i → a.slots i = b.slots i
  words : ∀ j, j < 3 → getInt (a.slots (p + j)) = getInt (b.slots (p + j))
  exact : (∀ j, j < 3 → isInt (a.slots (p + j)) = true) → a = b

end TinyActor.Vm
