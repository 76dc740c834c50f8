/-
The interpreter loop, `run_proc` of `src/vm.c`, one instruction at a time.

An image is the loaded program: the word stream, the constants and, for each
function, its entry and its number of arguments.  The interpreter keeps its
registers in C locals and everything else in the actor's memory.  The stack is the
upper half of that memory: slot `i` has a fixed place whatever the depth, so a slot
above the depth keeps what was last written there.

Memory is unbounded here: `SP_ROOM`, `proc_stack_reserve` and the collector make
room or stop the whole machine, and a collection keeps the object graph, so
references are identities that never change.
-/
import TinyActor.Vm.Value
import Mathlib.Logic.Function.Basic

namespace TinyActor.Vm

variable {F W : Type}

/-- The instructions, with their operand words. -/
inductive Instr
  | const (i : Nat)
  | load (k : Nat)
  | store (k : Nat)
  | loadF (i : Nat)
  | push
  | arith (op : Arith)
  | div
  | mod
  | cmp (op : Cmp)
  | pairP
  | symP
  | cons
  | car
  | cdr
  | jif (no : Nat)
  | jump (target : Nat)
  | call (n : Nat)
  | tcall (n : Nat)
  | ret (k : Nat)
  | makeClosure (fid nfree : Nat)
  | global (o : Int)
  | reserve (n : Nat)
  | builtin (id n : Nat)
  | loadP (k : Nat)
  | constP (i : Nat)
  | globP (o : Int)
  | jifCmp (op : Cmp) (yes no : Nat)
  | constI (imm : Int)
  | arithI (op : Arith) (imm : Int)
  | jifEqI (imm : Int) (yes no : Nat)
deriving DecidableEq, Repr

/-- The loaded program. -/
structure Image (F : Type) where
  words : List Int
  consts : List (Val F)
  fnEntry : List Nat
  fnArgs : List Nat

namespace Image

/-- An operand that is an index, a count or an offset. -/
def nat (img : Image F) (i : Nat) : Option Nat := img.words[i]?.bind Int.toNat?

/-- The dispatch table `LOP_*`: the opcode at `pc` and its operands. -/
def fetch (img : Image F) (pc : Nat) : Option Instr := do
  match ← img.words[pc]? with
  | 0 => return .const (← img.nat (pc + 1))
  | 1 => return .load (← img.nat (pc + 1))
  | 2 => return .store (← img.nat (pc + 1))
  | 3 => return .loadF (← img.nat (pc + 1))
  | 4 => return .push
  | 5 => return .arith .add
  | 6 => return .arith .sub
  | 7 => return .arith .mul
  | 8 => return .div
  | 9 => return .mod
  | 10 => return .cmp .lt
  | 11 => return .cmp .le
  | 12 => return .cmp .gt
  | 13 => return .cmp .ge
  | 14 => return .cmp .eq
  | 15 => return .pairP
  | 16 => return .symP
  | 17 => return .cons
  | 18 => return .car
  | 19 => return .cdr
  | 20 => return .jif (← img.nat (pc + 1))
  | 21 => return .jump (← img.nat (pc + 1))
  | 22 => return .call (← img.nat (pc + 1))
  | 23 => return .tcall (← img.nat (pc + 1))
  | 24 => return .ret (← img.nat (pc + 1))
  | 25 => return .makeClosure (← img.nat (pc + 1)) (← img.nat (pc + 2))
  | 26 => return .global (← img.words[pc + 1]?)
  | 27 => return .reserve (← img.nat (pc + 1))
  | 28 => return .builtin (← img.nat (pc + 1)) (← img.nat (pc + 2))
  | 29 => return .loadP (← img.nat (pc + 1))
  | 30 => return .constP (← img.nat (pc + 1))
  | 31 => return .globP (← img.words[pc + 1]?)
  | 32 => return .jifCmp .lt (← img.nat (pc + 1)) (← img.nat (pc + 2))
  | 33 => return .jifCmp .le (← img.nat (pc + 1)) (← img.nat (pc + 2))
  | 34 => return .jifCmp .gt (← img.nat (pc + 1)) (← img.nat (pc + 2))
  | 35 => return .jifCmp .ge (← img.nat (pc + 1)) (← img.nat (pc + 2))
  | 36 => return .jifCmp .eq (← img.nat (pc + 1)) (← img.nat (pc + 2))
  | 37 => return .constI (← img.words[pc + 1]?)
  | 38 => return .arithI .add (← img.words[pc + 1]?)
  | 39 => return .arithI .sub (← img.words[pc + 1]?)
  | 40 => return .jifEqI (← img.words[pc + 1]?) (← img.nat (pc + 2)) (← img.nat (pc + 3))
  | _ => none

end Image

/-- What of an actor outlives a turn on the interpreter: its stack slots, its heap
and the world its C functions and primitives act on. -/
structure Memory (F W : Type) where
  slots : Nat → Val F
  heap : Heap F
  world : W

/-- The interpreter's locals, with the memory they point into.  `sp` is the depth of
the stack, `vend - vsp`; `pc` and `cbase` are offsets into the words. -/
structure State (F W : Type) extends Memory F W where
  acc : Val F
  pc : Nat
  base : Nat
  cbase : Nat
  sp : Nat

namespace State

def push (s : State F W) (v : Val F) : State F W :=
  { s with slots := Function.update s.slots s.sp v, sp := s.sp + 1 }

/-- Read the top of the stack and drop it. -/
def pop (s : State F W) : Option (Val F × State F W) :=
  match s.sp with
  | 0 => none
  | d + 1 => some (s.slots d, { s with sp := d })

/-- Leave a result and go on to the instruction `k` words further. -/
def result (s : State F W) (v : Val F) (k : Nat) : State F W :=
  { s with acc := v, pc := s.pc + k }

/-- Push and go on to the instruction two words further. -/
def pushed (s : State F W) (v : Val F) : State F W :=
  { s.push v with pc := s.pc + 2 }

/-- Start at a function's entry. -/
def enter (s : State F W) (entry : Nat) : State F W := { s with pc := entry, cbase := entry }

/-- The values of `n` consecutive slots. -/
def block (s : State F W) (i n : Nat) : List (Val F) := (List.range n).map fun k => s.slots (i + k)

end State

/-- `fatal`: what stops the whole machine. -/
inductive Fatal
  | loadfNonClosure
  | callNonFunction
  | arityMismatch
  | badCfuncIndex
  | tooManyArguments
deriving DecidableEq, Repr

/-- How an actor's execution ends.  `fault` is a read of memory the program does not
own. -/
inductive Halt
  | returned
  | died (reason : Reason)
  | fatal (cause : Fatal)
  | fault
deriving DecidableEq, Repr

/-- How one instruction ends: go on with the next, go on after a `TICK`, or stop. -/
inductive Effect (F W : Type)
  | next (s : State F W)
  | tick (s : State F W)
  | halt (h : Halt) (s : State F W)

/-- What a C function gives back: a value, or the reason its caller has to die. -/
inductive CResult (F W : Type)
  | value (v : Val F) (heap : Heap F) (world : W)
  | die (reason : String) (world : W)

/-- A host function; a negative number of arguments is a variable one. -/
structure CFunc (F W : Type) where
  nargs : Int
  fn : W → Heap F → List (Val F) → CResult F W

/-- What the interpreter calls into: the host's functions and the actor
primitives. -/
structure Host (F W : Type) where
  cfuncs : List (CFunc F W)
  /-- An execution of a primitive that does not wait, on the stack and the
  accumulator it finds. -/
  builtin : Nat → Nat → State F W → Except Reason (State F W)

/-- `op_global` and `op_globp`: a negative operand names a C function. -/
def globalVal (o : Int) : Val F :=
  if o < 0 then .native (-(o + 1)).toNat else .closId o.toNat

/-- The number of the function a value calls: the payload of a `TAG_CLOS_ID`, the
entry of a closure object. -/
def fidOf (heap : Heap F) : Val F → Option Nat
  | .closId fid => some fid
  | .clos loc =>
      match heap[loc]? with
      | some (.clos entry _) => some entry
      | _ => none
  | _ => none

/-- Copy `n` slots from `src` to `dst`, in rising order. -/
def copyDown (slots : Nat → Val F) (src dst : Nat) : Nat → Nat → Val F
  | 0 => slots
  | n + 1 =>
      let m := copyDown slots src dst n
      Function.update m (dst + n) (m (src + n))

/-- The end of `do_ccall` when the function was called and neither yielded nor
died: the result takes the place of the call block. -/
def ccallReturn (s : State F W) (n : Nat) (v : Val F) (heap : Heap F) (world : W) : State F W :=
  { s with
    slots := Function.update s.slots (s.sp - n) v
    heap := heap
    world := world
    acc := v
    sp := s.sp - n
    pc := s.pc + 2 }

/-- `do_ccall` of a function that does not ask to be called again, on a stack whose
top `n` slots are the function and its arguments. -/
def doCcall (host : Host F W) (s : State F W) (cf n : Nat) : Effect F W :=
  match host.cfuncs[cf]? with
  | none => .halt (.fatal .badCfuncIndex) s
  | some c =>
      if 0 ≤ c.nargs ∧ c.nargs ≠ (n : Int) - 1 then .halt (.fatal .arityMismatch) s
      else if n - 1 > 64 then .halt (.fatal .tooManyArguments) s
      else match c.fn s.world s.heap (s.block (s.sp - n + 1) (n - 1)) with
        | .value v heap world => .next (ccallReturn s n v heap world)
        | .die reason world => .halt (.died (.native reason)) { s with world := world }

/-- `CALL_COMMON`: flush the accumulator, find out what is called, check the number
of arguments, and go on with `k` for a function of the image. -/
def callCommon (host : Host F W) (img : Image F) (s : State F W) (n : Nat)
    (k : State F W → Nat → Nat → Effect F W) : Effect F W :=
  let s := s.push s.acc
  if n = 0 ∨ s.sp < n then .halt .fault s
  else match s.slots (s.sp - n) with
    | .native cf => doCcall host s cf n
    | .closId fid => known s fid
    | .clos loc =>
        match s.heap[loc]? with
        | some (.clos entry _) => known s entry
        | _ => .halt .fault s
    | _ => .halt (.fatal .callNonFunction) s
where
  known (s : State F W) (fid : Nat) : Effect F W :=
    match img.fnArgs[fid]?, img.fnEntry[fid]? with
    | some nargs, some entry =>
        if nargs ≠ n - 1 then .halt (.fatal .arityMismatch) s else k s fid entry
    | _, _ => .halt .fault s

/-- `op_call` on a function of the image: push the return frame above the call block
and make the block the new frame. -/
def opCall (s : State F W) (n entry : Nat) : State F W :=
  let nb := s.sp - n
  let s' := ((s.push (valInt (s.pc + 2))).push (valInt s.base)).push (valInt s.cbase)
  { s' with base := nb }.enter entry

/-- `op_tcall` on a function of the image: the call block moves down over the current
frame.  A function that calls itself finds its return frame where it was; otherwise
the return frame is read before the block moves and written above it. -/
def opTcall (img : Image F) (s : State F W) (n fid entry : Nat) : State F W :=
  let cfid := fidOf s.heap (s.slots s.base)
  let moved := copyDown s.slots (s.sp - n) s.base n
  let slots :=
    if cfid = some fid then moved
    else
      let ok := (cfid.bind (img.fnArgs[·]?)).getD 0
      let oret : Val F := valInt (getInt (s.slots (s.base + ok + 1)))
      let obase : Val F := valInt (getInt (s.slots (s.base + ok + 2)))
      let ocbase : Val F := valInt (getInt (s.slots (s.base + ok + 3)))
      Function.update (Function.update (Function.update moved (s.base + n) oret)
        (s.base + n + 1) obase) (s.base + n + 2) ocbase
  { s with slots := slots, sp := s.base + n + 3 }.enter entry

/-- `op_ret`, outside the first frame: restore the caller's registers from the return
frame and drop the whole frame. -/
def opRet (s : State F W) (k : Nat) : State F W :=
  { s with
    pc := (getInt (s.slots (s.base + k + 1))).toNat
    base := (getInt (s.slots (s.base + k + 2))).toNat
    cbase := (getInt (s.slots (s.base + k + 3))).toNat
    sp := s.base }

/-- `op_make_closure`: the captured values are the top of the stack, the last of them
in the accumulator. -/
def opMakeClosure (s : State F W) (fid nfree : Nat) : Option (State F W) :=
  if nfree = 0 then some (s.result (.closId fid) 3)
  else
    let s := s.push s.acc
    if s.sp < nfree then none
    else
      let cell := Cell.clos fid (s.block (s.sp - nfree) nfree)
      some ({ s with heap := s.heap ++ [cell], sp := s.sp - nfree }.result (.clos s.heap.length) 3)

/-- `op_cons`: the first component is on the stack, the second in the accumulator. -/
def opCons (s : State F W) : Option (State F W) :=
  let s := s.push s.acc
  if s.sp < 2 then none
  else
    let cell := Cell.pair (s.slots (s.sp - 2)) (s.slots (s.sp - 1))
    some ({ s with heap := s.heap ++ [cell], sp := s.sp - 2 }.result (.pair s.heap.length) 1)

/-- `op_reserve`: nil in every slot of the frame's locals. -/
def opReserve (s : State F W) : Nat → State F W
  | 0 => s
  | n + 1 => (opReserve s n).push .nil

/-- A value, or the end of the program if there is none to read. -/
def Effect.ofOption (s : State F W) : Option (State F W) → Effect F W
  | some s' => .next s'
  | none => .halt .fault s

/-- An instruction that pops its left operand. -/
def binary (s : State F W) (f : Val F → State F W → Effect F W) : Effect F W :=
  match s.pop with
  | some (l, s') => f l s'
  | none => .halt .fault s

/-- `PROC_DIE_ISOLATED` or the result. -/
def Effect.ofExcept (s : State F W) : Except Reason (Val F) → Effect F W
  | .ok v => .next (s.result v 1)
  | .error r => .halt (.died r) s

variable [Double F] [DecidableEq F]

/-- One instruction. -/
def exec (host : Host F W) (img : Image F) (s : State F W) : Instr → Effect F W
  | .const i => .ofOption s (img.consts[i]?.map (s.result · 2))
  | .load k => .next (s.result (s.slots (s.base + k)) 2)
  | .store k =>
      .next { s with slots := Function.update s.slots (s.base + k) s.acc, pc := s.pc + 2 }
  | .loadF i =>
      match s.slots s.base with
      | .clos loc =>
          match s.heap[loc]? with
          | some (.clos _ free) => .ofOption s (free[i]?.map (s.result · 2))
          | _ => .halt .fault s
      | _ => .halt (.fatal .loadfNonClosure) s
  | .push => .next { s.push s.acc with pc := s.pc + 1 }
  | .arith op => binary s fun l s => .next (s.result (op.apply l s.acc) 1)
  | .div => binary s fun l s => .ofExcept s (divide l s.acc)
  | .mod => binary s fun l s => .ofExcept s (modulo l s.acc)
  | .cmp op => binary s fun l s => .next (s.result (.bool (op.holds l s.acc)) 1)
  | .pairP => .next (s.result (.bool (isPair s.acc)) 1)
  | .symP => .next (s.result (.bool (isSym s.acc)) 1)
  | .cons => .ofOption s (opCons s)
  | .car =>
      match s.acc with
      | .pair loc =>
          match s.heap[loc]? with
          | some (.pair car _) => .next (s.result car 1)
          | _ => .halt .fault s
      | _ => .halt (.died .cartype) s
  | .cdr =>
      match s.acc with
      | .pair loc =>
          match s.heap[loc]? with
          | some (.pair _ cdr) => .next (s.result cdr 1)
          | _ => .halt .fault s
      | _ => .halt (.died .cdrtype) s
  | .jif no => .tick { s with pc := if isTrue s.acc then s.pc + 2 else s.cbase + no }
  | .jump target => .tick { s with pc := s.cbase + target }
  | .call n => callCommon host img s n fun s _ entry => .tick (opCall s n entry)
  | .tcall n => callCommon host img s n fun s fid entry => .tick (opTcall img s n fid entry)
  | .ret k => if s.base = 0 then .halt .returned s else .tick (opRet s k)
  | .makeClosure fid nfree => .ofOption s (opMakeClosure s fid nfree)
  | .global o => .next (s.result (globalVal o) 2)
  | .reserve n => .next { opReserve s n with pc := s.pc + 2 }
  | .builtin id n =>
      match host.builtin id n s with
      | .ok s' => .tick { s' with pc := s.pc + 3, base := s.base, cbase := s.cbase }
      | .error r => .halt (.died r) s
  | .loadP k => .next (s.pushed (s.slots (s.base + k)))
  | .constP i => .ofOption s (img.consts[i]?.map s.pushed)
  | .globP o => .next (s.pushed (globalVal o))
  | .jifCmp op yes no =>
      binary s fun l s => .tick { s with pc := s.cbase + if op.holds l s.acc then yes else no }
  | .constI imm => .next (s.result (valInt imm) 2)
  | .arithI op imm => binary s fun l s => .next (s.result (op.applyImm l imm) 2)
  | .jifEqI imm yes no =>
      binary s fun l s =>
        .tick { s with pc := s.cbase + if Cmp.eq.holds l (valInt imm) then yes else no }

/-- The instruction at `pc`. -/
def step (host : Host F W) (img : Image F) (s : State F W) : Effect F W :=
  match img.fetch s.pc with
  | some i => exec host img s i
  | none => .halt .fault s

end TinyActor.Vm
