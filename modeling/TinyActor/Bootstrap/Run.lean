/-
Running instruction trees under any meaning of their instructions.

The passes after code generation rearrange instructions without asking what they do
to the data: fusion merges neighbours, flattening lays them out.  So a meaning is a
parameter here: the data an instruction acts on, and how one instruction, the test of
a conditional and the two fused tests act.  `machine` is the meaning that counts, the
registers and the memory of `src/vm.c`; what a call or a primitive does is left to the
surroundings, which see the whole machine.
-/
import TinyActor.Bootstrap.Codegen
import TinyActor.Vm.Machine

namespace TinyActor.Bootstrap

open TinyActor.Vm (Symbol Arith Cmp Val Cell Memory Halt Fatal Reason Double isTrue isPair isSym
  divide modulo)

/-- The value of a constant. -/
def constVal {F : Type} [Double F] : Const → Val F
  | .nil => .nil
  | .bool b => .bool b
  | .int v => .int v
  | .sym name => .sym name
  | .str s => .str s
  | .float text => .float (Double.ofText text)

/-- What the instructions do to data of type `D`.  An instruction that does not go on
to the next one gives an `R`. -/
structure Meaning (D R : Type) where
  /-- An instruction that is no conditional. -/
  act : Ins → D → Except R D
  /-- The test of a conditional. -/
  test : D → Bool
  /-- Comparison and test in one. -/
  cmp : Cmp → D → Except R (Bool × D)
  /-- Equality with a literal and test in one. -/
  eqI : BitVec 48 → D → Except R (Bool × D)

/-- An instruction without parts. -/
def Ins.straight : Ins → Bool
  | .ifE _ _ _ | .ifP _ _ _ _ | .ifI _ _ _ _ => false
  | _ => true

mutual

def runIns {D R : Type} (M : Meaning D R) : Ins → D → Except R D
  | .ifE cond yes no, d => do
      let d ← run M cond d
      if M.test d then run M yes d else run M no d
  | .ifP op cond yes no, d => do
      let d ← run M cond d
      let r ← M.cmp op d
      if r.1 then run M yes r.2 else run M no r.2
  | .ifI imm cond yes no, d => do
      let d ← run M cond d
      let r ← M.eqI imm d
      if r.1 then run M yes r.2 else run M no r.2
  | i, d => M.act i d

/-- Run instructions one after the other. -/
def run {D R : Type} (M : Meaning D R) : List Ins → D → Except R D
  | [], d => .ok d
  | i :: rest, d => do
      let d ← runIns M i d
      run M rest d

end

/-! ### The machine -/

/-- The machine without its accumulator: the actor's memory, the base of the frame and
the depth of the stack. -/
structure Stack (F W : Type) extends Memory F W where
  base : Nat
  sp : Nat

structure Regs (F W : Type) extends Stack F W where
  acc : Val F

/-- How a piece of code ends other than at its end: by the return of its function, by
leaving it for good with a tail call, or with the actor or the machine. -/
inductive Exit (F W : Type)
  | ret (nargs : Nat) (s : Regs F W)
  | left (s : Regs F W)
  | halt (h : Halt) (world : W)

/-- What surrounds a function: the globals, the calls it makes and the primitives.  A
primitive without operands never looks at the accumulator. -/
structure Around (F W : Type) where
  glob : Symbol → Val F
  call : Bool → Nat → Regs F W → Except (Exit F W) (Regs F W)
  nullary : Nat → Stack F W → Except (Exit F W) (Regs F W)
  builtin : Nat → Nat → Regs F W → Except (Exit F W) (Regs F W)

variable {F W : Type}

namespace Regs

def load (s : Regs F W) (v : Val F) : Regs F W := { s with acc := v }

def push (s : Regs F W) (v : Val F) : Regs F W :=
  { s with slots := Function.update s.slots s.sp v, sp := s.sp + 1 }

/-- `fatal`, or a fault. -/
def halt {α : Type} (s : Regs F W) (h : Halt) : Except (Exit F W) α := .error (.halt h s.world)

/-- Take the last pushed operand. -/
def pop (s : Regs F W) : Except (Exit F W) (Val F × Regs F W) :=
  match s.sp with
  | 0 => s.halt .fault
  | d + 1 => .ok (s.slots d, { s with sp := d })

def ofExcept (s : Regs F W) : Except Reason (Val F) → Except (Exit F W) (Regs F W)
  | .ok v => .ok (s.load v)
  | .error r => s.halt (.died r)

/-- `op_loadf`. -/
def loadF (s : Regs F W) (i : Nat) : Except (Exit F W) (Regs F W) :=
  match s.slots s.base with
  | .clos loc =>
      match s.heap[loc]? with
      | some (.clos _ free) =>
          match free[i]? with
          | some v => .ok (s.load v)
          | none => s.halt .fault
      | _ => s.halt .fault
  | _ => s.halt (.fatal .loadfNonClosure)

/-- `op_car` and `op_cdr`. -/
def component (s : Regs F W) (reason : Reason) (pick : Val F → Val F → Val F) :
    Except (Exit F W) (Regs F W) :=
  match s.acc with
  | .pair loc =>
      match s.heap[loc]? with
      | some (.pair a d) => .ok (s.load (pick a d))
      | _ => s.halt .fault
  | _ => s.halt (.died reason)

/-- `op_make_closure`: the captured values are the top of the stack, the last of them
in the accumulator. -/
def makeClosure (s : Regs F W) (fid nfree : Nat) : Except (Exit F W) (Regs F W) :=
  if nfree = 0 then .ok (s.load (.closId fid))
  else
    let s := s.push s.acc
    if s.sp < nfree then s.halt .fault
    else
      let free := (List.range nfree).map fun k => s.slots (s.sp - nfree + k)
      .ok { s with
        heap := s.heap ++ [.clos fid free], sp := s.sp - nfree, acc := .clos s.heap.length }

/-- `op_reserve`. -/
def reserve (s : Regs F W) : Nat → Regs F W
  | 0 => s
  | n + 1 => (reserve s n).push .nil

variable [Double F] [DecidableEq F]

/-- The operators. -/
def op (s : Regs F W) : Op → Except (Exit F W) (Regs F W)
  | .arith op => do
      let (l, s) ← s.pop
      .ok (s.load (op.apply l s.acc))
  | .div => do
      let (l, s) ← s.pop
      s.ofExcept (divide l s.acc)
  | .mod => do
      let (l, s) ← s.pop
      s.ofExcept (modulo l s.acc)
  | .cmp op => do
      let (l, s) ← s.pop
      .ok (s.load (.bool (op.holds l s.acc)))
  | .cons => do
      -- the accumulator is flushed to the stack and both are dropped again
      let (l, _) ← s.pop
      let s := s.push s.acc
      .ok { s with
        heap := s.heap ++ [.pair l s.acc], sp := s.sp - 2, acc := .pair s.heap.length }
  | .pairP => .ok (s.load (.bool (isPair s.acc)))
  | .symP => .ok (s.load (.bool (isSym s.acc)))
  | .car => s.component .cartype fun a _ => a
  | .cdr => s.component .cdrtype fun _ d => d

end Regs

variable [Double F] [DecidableEq F]

/-- One instruction of `run_proc`, conditionals apart. -/
def Around.act (E : Around F W) : Ins → Regs F W → Except (Exit F W) (Regs F W)
  | .const c, s => .ok (s.load (constVal c))
  | .constI imm, s => .ok (s.load (.int imm))
  | .load k, s => .ok (s.load (s.slots (s.base + k)))
  | .loadF i, s => s.loadF i
  | .loadP k, s => .ok (s.push (s.slots (s.base + k)))
  | .constP c, s => .ok (s.push (constVal c))
  | .globP x, s => .ok (s.push (E.glob x))
  | .store k, s => .ok { s with slots := Function.update s.slots (s.base + k) s.acc }
  | .glob x, s => .ok (s.load (E.glob x))
  | .push, s => .ok (s.push s.acc)
  | .op o, s => s.op o
  | .opI op imm, s => do
      let (l, s) ← s.pop
      .ok (s.load (op.applyImm l imm.toInt))
  | .call n, s => E.call false n s
  | .tcall n, s => E.call true n s
  | .builtin id n, s => if n = 0 then E.nullary id s.toStack else E.builtin id n s
  | .clos fid nfree, s => s.makeClosure fid nfree
  | .ret k, s => .error (.ret k s)
  | .reserve n, s => .ok (s.reserve n)
  | .ifE _ _ _, s | .ifP _ _ _ _, s | .ifI _ _ _ _, s => s.halt .fault

/-- **The meaning of the instructions on the machine.** -/
def machine (E : Around F W) : Meaning (Regs F W) (Exit F W) where
  act := E.act
  test s := isTrue s.acc
  cmp op s := do
    let (l, s) ← s.pop
    .ok (op.holds l s.acc, s)
  eqI imm s := do
    let (l, s) ← s.pop
    .ok (Cmp.eq.holds l (.int imm), s)

end TinyActor.Bootstrap
