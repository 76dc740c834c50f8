/-
Preemption: how `run_proc` of `src/vm.c` gives up the interpreter and takes it
back.

While an actor runs, its registers are C locals and the fields of its `Proc` are
whatever was last published there.  A slice ends in one of two ways that the actor
survives: a `TICK` finds the budget spent, or a C function asks to be called again
later, which it does by having the whole instruction executed again.  Each way
publishes the registers in its own place, and the next slice starts from the
published fields alone.

A function that asks to be called again has only registered its actor with the
poller: what it allocated is thrown away.
-/
import TinyActor.Lib.Run
import TinyActor.Vm.Machine

namespace TinyActor.Vm

variable {F W : Type}

/-- The fields of a `Proc` a slice starts from, with the actor's memory. -/
structure Proc (F W : Type) extends Memory F W where
  acc : Val F
  hasAcc : Bool
  pc : Nat
  base : Nat
  cbase : Nat
  sp : Nat

/-- The registers at the start of a slice. -/
def Proc.restore (p : Proc F W) : State F W where
  toMemory := p.toMemory
  acc := if p.hasAcc then p.acc else .nil
  pc := p.pc
  base := p.base
  cbase := p.cbase
  sp := p.sp

/-- What a `TICK` with the budget spent writes. -/
def tickPublish (s : State F W) : Proc F W where
  toMemory := s.toMemory
  acc := s.acc
  hasAcc := true
  pc := s.pc
  base := s.base
  cbase := s.cbase
  sp := s.sp

/-- What `do_ccall` writes when the function asked to be called again.  It runs on
the stack with the last argument flushed, and takes that argument off again. -/
def ccallPublish (s : State F W) : Proc F W where
  toMemory := s.toMemory
  acc := s.acc
  hasAcc := true
  pc := s.pc
  base := s.base
  cbase := s.cbase
  sp := s.sp - 1

/-- The instruction at `pc` is a call that reaches a C function. -/
def reachesNative (host : Host F W) (img : Image F) (s : State F W) : Bool :=
  match img.fetch s.pc with
  | some (.call n) | some (.tcall n) =>
      let s := s.push s.acc
      n != 0 && n ≤ s.sp &&
        match s.slots (s.sp - n) with
        | .native cf =>
            host.cfuncs[cf]?.any fun c => (c.nargs < 0 || c.nargs = (n : Int) - 1) && n - 1 ≤ 64
        | _ => false
  | _ => false

/-- Where an actor is.  A running one still has the fields it was last started
from. -/
inductive Phase (F W : Type)
  | parked (p : Proc F W)
  | running (p : Proc F W) (s : State F W) (budget : Int)
  | halted (h : Halt) (s : State F W)

/-- An actor and the values its instructions have left in the accumulator. -/
structure Machine (F W : Type) where
  phase : Phase F W
  trace : List (Val F)

/-- What can happen to an actor: a slice begins with some budget, an instruction is
executed to its end, or the C function it calls asks to be called again. -/
inductive Event
  | resume (budget : Int)
  | step
  | ask
deriving DecidableEq, Repr

section

variable [Double F] [DecidableEq F]

/-- What an event does; `none` when it cannot happen. -/
def Machine.on (host : Host F W) (img : Image F) (m : Machine F W) :
    Event → Option (Machine F W)
  | .resume budget =>
      match m.phase with
      | .parked p => some { m with phase := .running { p with hasAcc := false } p.restore budget }
      | _ => none
  | .step =>
      match m.phase with
      | .running p s budget =>
          match Vm.step host img s with
          | .next s' => some ⟨.running p s' budget, m.trace ++ [s'.acc]⟩
          | .tick s' =>
              if budget - 1 ≤ 0 then some ⟨.parked (tickPublish s'), m.trace ++ [s'.acc]⟩
              else some ⟨.running p s' (budget - 1), m.trace ++ [s'.acc]⟩
          | .halt h s' => some ⟨.halted h s', m.trace⟩
      | _ => none
  | .ask =>
      match m.phase with
      | .running _ s _ =>
          if reachesNative host img s then
            some { m with phase := .parked (ccallPublish (s.push s.acc)) }
          else none
      | _ => none

/-- A run without a break: the state, the values so far and, once it has ended, how. -/
structure Course (F W : Type) where
  state : State F W
  trace : List (Val F)
  ended : Option Halt

/-- One instruction of a run without a break. -/
def Course.advance (host : Host F W) (img : Image F) (c : Course F W) : Course F W :=
  match c.ended with
  | some _ => c
  | none =>
      match Vm.step host img c.state with
      | .next s' | .tick s' => ⟨s', c.trace ++ [s'.acc], none⟩
      | .halt h s' => ⟨s', c.trace, some h⟩

/-- The run without a break after `n` instructions. -/
def uninterrupted (host : Host F W) (img : Image F) (s : State F W) : Nat → Course F W
  | 0 => ⟨s, [], none⟩
  | n + 1 => (uninterrupted host img s n).advance host img

end

/-- The registers of an actor: its locals while it runs, what it will resume with
while it is parked. -/
def Machine.state (m : Machine F W) : State F W :=
  match m.phase with
  | .parked p => p.restore
  | .running _ s _ => s
  | .halted _ s => s

/-- How an actor has ended, if it has. -/
def Machine.ended (m : Machine F W) : Option Halt :=
  match m.phase with
  | .halted h _ => some h
  | _ => none

/-- The stack, bottom first. -/
def State.stack (s : State F W) : List (Val F) := s.block 0 s.sp

end TinyActor.Vm
