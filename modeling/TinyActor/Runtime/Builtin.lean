/-
The actor primitives as instructions: `do_builtin` of `src/vm.c`, with what it
calls in `src/scheduler.c` to deliver a message and to create an actor.

A primitive with `n` arguments finds the first `n - 1` on the operand stack and
the last in the accumulator, and leaves its result in the accumulator.  A
primitive that has to wait publishes the point at which it is to be executed
again and the stack it wants to find there; when the actor is woken, the
interpreter starts over at that point with a fresh accumulator.
-/
import TinyActor.Runtime.Mailbox

namespace TinyActor.Runtime

variable {V M H : Type}

/-- The actors by pid and what the primitives read of the rest of the machine. -/
structure Vm (V M H : Type) where
  procs : Nat → Option (Proc V M H)
  nextPid : Nat
  procsCap : Nat
  nextRef : Int
  runq : List Nat
  fnEntry : Nat → Nat
  fnArgs : Nat → Nat
  /-- The empty heap of a new actor. -/
  freshHeap : H

namespace Vm

def setProc (vm : Vm V M H) (pid : Nat) (p : Proc V M H) : Vm V M H :=
  { vm with procs := Function.update vm.procs pid (some p) }

def runqEnqueue (vm : Vm V M H) (pid : Nat) : Vm V M H :=
  { vm with runq := vm.runq ++ [pid] }

/-- The actor with this pid if it exists and has not died. -/
def liveProc (vm : Vm V M H) (pid : Nat) : Option (Proc V M H) :=
  (vm.procs pid).filter fun t => t.state ≠ .dead

end Vm

/-- `val_set_resource_owner` on the sender's own copy of a message.  The sender is
looked up at this point: it may have been its own target. -/
def moveOwner (W : Words V M H) (vm : Vm V M H) (sender : Nat) (msg : V) (target : Nat) :
    Vm V M H :=
  match vm.procs sender with
  | some s => vm.setProc sender { s with heap := W.setOwner s.heap msg target }
  | none => vm

/-- Serialise a message and append it to a live target's mailbox, waking it if it
waits.  Refused when the message carries resources the sender may not pass on;
otherwise those resources change owner, in the fragment and in the sender's
heap. -/
def mboxDeliver (W : Words V M H) (vm : Vm V M H) (sender target : Nat) (msg : V) :
    Option (Vm V M H) :=
  match vm.procs sender, vm.procs target with
  | some s, some t =>
      let frag := W.fragCopy s.heap msg
      let hasRes := W.hasResource frag
      if hasRes && !W.sendCheck s.heap msg sender target then none
      else if t.state = .dead then some vm
      else
        let (t', wake) := mboxAppend t (if hasRes then W.setFragOwner frag target else frag)
        let vm := vm.setProc target t'
        let vm := if hasRes then moveOwner W vm sender msg target else vm
        some (if wake then vm.runqEnqueue target else vm)
  | _, _ => some vm

/-- `proc_new`: a running actor with nothing in it. -/
def procNew (W : Words V M H) (vm : Vm V M H) : Proc V M H where
  pid := vm.nextPid
  state := .running
  stack := []
  heap := vm.freshHeap
  pc := 0
  base := 0
  cbase := 0
  acc := W.nil
  hasAcc := false
  mbox := .empty
  peekIndex := 0
  recvDeadlineMs := -1
  watchers := []
  waitRegistered := false

/-- `proc_frame_init`: the function value, a nil for each argument and for the
three words of the return frame, and the function's entry as resume point. -/
def procFrameInit (W : Words V M H) (vm : Vm V M H) (p : Proc V M H) (fid : Nat) (fnval : V) :
    Proc V M H :=
  { p with
    stack := List.replicate (3 + vm.fnArgs fid) W.nil ++ fnval :: p.stack
    base := 0
    pc := vm.fnEntry fid
    cbase := vm.fnEntry fid }

/-- `monitor`: join the watchers of a live target; of any other, the notice of
its death arrives at once.  The notice carries no resource, so its delivery is
never refused, and the source does not look. -/
def bMonitor (W : Words V M H) (vm : Vm V M H) (self : Nat) (p : Proc V M H) :
    Option (Vm V M H) :=
  (procPop p).bind fun (pidV, q) =>
    let target := W.getPid pidV
    let ref := vm.nextRef + 1
    let vm := { vm.setProc self q with nextRef := ref }
    let vm := match vm.liveProc target with
      | some t => vm.setProc target { t with watchers := t.watchers ++ [(self, ref)] }
      | none =>
          let (msg, heap) := W.downMsg q.heap ref target
          let vm := vm.setProc self { q with heap := heap }
          (mboxDeliver W vm self self msg).getD vm
    (vm.procs self).map fun q => vm.setProc self (procPush q (W.ofInt ref))

/-- The eight primitives. -/
inductive Builtin
  | self
  | spawn
  | send
  | recv
  | monitor
  | recvAfter
  | recvPeek
  | recvCommit
deriving DecidableEq, Repr

/-- How many arguments a primitive takes. -/
def Builtin.arity : Builtin → Nat
  | self | recv | recvPeek | recvCommit => 0
  | spawn | monitor | recvAfter => 1
  | send => 2

/-- How an execution of a primitive ends.  `fault` is a read of memory the source
does not own: a null link of the mailbox, or a stack slot that is not there. -/
inductive Outcome (V M H : Type)
  | done (vm : Vm V M H)
  | blocked (vm : Vm V M H)
  | died (reason : String) (vm : Vm V M H)
  | fatal (msg : String)
  | fault

/-- The resume point of an instruction that is to be executed again. -/
def publish (p : Proc V M H) (pc base cbase : Nat) : Proc V M H :=
  { p with pc := pc, base := base, cbase := cbase }

/-- Move the result a shared builtin pushed into the accumulator. -/
def takeResult (vm : Vm V M H) (self : Nat) (q : Proc V M H) : Outcome V M H :=
  match procPop q with
  | none => .fault
  | some (v, q) => .done (vm.setProc self { q with acc := v })

/-- `spawn`: copy the closure into a new actor, hand over its resources, build
its first frame and queue it.  A closure whose resources may not move kills the
parent; the child, never queued, ends with it. -/
def doSpawn (W : Words V M H) (vm : Vm V M H) (self : Nat) (p : Proc V M H)
    (pc base cbase : Nat) : Outcome V M H :=
  match W.closureFid p.acc with
  | none => .fatal "spawn on non-closure"
  | some fid =>
      if vm.procsCap ≤ vm.nextPid then .fatal "process table exhausted"
      else
        let np := procNew W vm
        let vm' := { vm with nextPid := vm.nextPid + 1 }
        match W.spawnCopy p.heap p.acc self np.pid with
        | none =>
            .died "resource"
              ((vm'.setProc np.pid { np with state := .dead }).setProc self
                (publish p pc base cbase))
        | some (owned, heap) =>
            let p := { p with heap := W.setOwner p.heap p.acc np.pid, acc := W.ofPid np.pid }
            let np := procFrameInit W vm { np with heap := heap } fid owned
            .done (((vm'.setProc np.pid np).setProc self p).runqEnqueue np.pid)

/-- `send`: the target's pid is on the stack and the message in the accumulator.
A message to no one is dropped. -/
def doSend (W : Words V M H) (vm : Vm V M H) (self : Nat) (p : Proc V M H)
    (pc base cbase : Nat) : Outcome V M H :=
  match p.stack with
  | [] => .fault
  | pidV :: _ =>
      let target := W.getPid pidV
      let delivered := match vm.liveProc target with
        | some _ => mboxDeliver W vm self target p.acc
        | none => some vm
      match delivered with
      | none => .died "resource" (vm.setProc self (publish p pc base cbase))
      | some vm =>
          match vm.procs self with
          | none => .fault
          | some p => .done (vm.setProc self { p with stack := p.stack.drop 1, acc := W.nil })

/-- One execution of a primitive by the actor `self`.  The clock readings are
those of `recv_after`; `pc`, `base` and `cbase` are the interpreter's own. -/
def doBuiltin (W : Words V M H) (vm : Vm V M H) (self : Nat) (id : Builtin) (n pc base cbase : Nat)
    (now now' : Nat) : Outcome V M H :=
  match vm.procs self with
  | none => .fault
  | some p =>
      if n ≠ id.arity then .fatal "arity mismatch"
      else
        match id with
        | .self => .done (vm.setProc self { p with acc := W.ofPid p.pid })
        | .spawn => doSpawn W vm self p pc base cbase
        | .send => doSend W vm self p pc base cbase
        | .recv =>
            match bRecv W p with
            | none => .fault
            | some (.suspend, q) => .blocked (vm.setProc self (park (publish q pc base cbase)))
            | some (_, q) => takeResult vm self q
        | .monitor =>
            match bMonitor W vm self (procPush p p.acc) with
            | none => .fault
            | some vm =>
                match vm.procs self with
                | none => .fault
                | some q => takeResult vm self q
        | .recvAfter =>
            match bRecvAfter W now now' (procPush p p.acc) with
            | none => .fault
            | some (.suspend, q) =>
                -- back to the stack of before the operand was flushed
                .blocked (vm.setProc self (park (publish
                  { q with stack := q.stack.drop (q.stack.length - p.stack.length) } pc base cbase)))
            | some (_, q) => takeResult vm self q
        | .recvPeek =>
            match bRecvPeek W p with
            | none => .fault
            | some (.died, q) => .died "resource" (vm.setProc self (publish q pc base cbase))
            | some (.suspend, q) => .blocked (vm.setProc self (park (publish q pc base cbase)))
            | some (.ok, q) => takeResult vm self q
        | .recvCommit =>
            match bRecvCommit p with
            | none => .fault
            | some (_, q) => .done (vm.setProc self { q with acc := W.nil })

/-- The interpreter picks a woken actor up at its resume point.  Nothing that
blocks in a primitive keeps an accumulator, so it is nil there. -/
def resume (W : Words V M H) (p : Proc V M H) : Proc V M H :=
  { p with acc := if p.hasAcc then p.acc else W.nil, hasAcc := false }

end TinyActor.Runtime
