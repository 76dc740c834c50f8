/-
Child processes: `lib/process.c`.

A process handle is a resource whose record has the child's pid and the parent's
ends of two pipes.  The entries and the destructor tell each other what has been
closed and waited for only by the record: a field is cleared when its descriptor
is closed or its child is about to be waited for.  A cleared field is `none` here
and −1 in the source.

The system is left to the environment: it says whether `pipe` and `fork` succeed,
and how a child ended.  Descriptors and children are numbered in the order they
come, so that a number stands for one descriptor although the system uses its
numbers again.  What is kept of the system is the calls of `close` and `waitpid`,
in order.
-/
import TinyActor.Runtime.Native

namespace TinyActor.Stdlib.Process

open Runtime.Native Runtime.Resource

/-! ### The system -/

inductive Sys
  | close (fd : Nat)
  | waitpid (pid : Nat)
deriving DecidableEq, Repr

structure Os where
  nextFd : Nat
  nextChild : Nat
  calls : List Sys
  killed : List Nat
deriving Repr

namespace Os

def call (e : Os) (c : Sys) : Os := { e with calls := e.calls ++ [c] }

/-- `if (fd >= 0) close(fd)`. -/
def closeFd (e : Os) (fd : Option Nat) : Os := fd.elim e fun fd => e.call (.close fd)

def waitpid (e : Os) (pid : Option Nat) : Os := pid.elim e fun pid => e.call (.waitpid pid)

/-- `pipe`: the read end is the first of the two new descriptors. -/
def pipe (e : Os) : Os := { e with nextFd := e.nextFd + 2 }

def fork (e : Os) : Os := { e with nextChild := e.nextChild + 1 }

end Os

/-! ### The module -/

structure ChildState where
  pid : Option Nat
  inFd : Option Nat
  outFd : Option Nat
deriving DecidableEq, Repr

def ChildState.cleared : ChildState := { pid := none, inFd := none, outFd := none }

/-- `proc_dtor`: nobody is left to wait for the child, so it is killed first. -/
def procDtor : Dtor ChildState Os := fun _ ps e =>
  let e := (e.closeFd ps.inFd).closeFd ps.outFd
  ps.pid.elim e fun pid => { e with killed := e.killed ++ [pid] }.waitpid (some pid)

/-- `process_raw_run` from the first `pipe` on: what is left of the system, and
the parent's fields if a child was started. -/
def startChild (e : Os) (pipe₁ pipe₂ forked : Bool) : Os × Option ChildState :=
  let in₀ := e.nextFd
  let in₁ := e.nextFd + 1
  let out₀ := e.nextFd + 2
  let out₁ := e.nextFd + 3
  if pipe₁ = false then (e, none)
  else if pipe₂ = false then ((e.pipe.closeFd in₀).closeFd in₁, none)
  else if forked = false then
    ((((e.pipe.pipe.closeFd in₀).closeFd in₁).closeFd out₀).closeFd out₁, none)
  else
    ((e.pipe.pipe.fork.closeFd in₀).closeFd out₁,
      some { pid := e.nextChild, inFd := in₁, outFd := out₀ })

abbrev State := Runtime.Native.State ChildState Os

namespace State

/-- `process_raw_run`; `args` says that the command and its arguments are good.  The
resource is made before the pipes, so a failure after it releases it. -/
def rawRun (s : State) (a : Nat) (args pipe₁ pipe₂ forked : Bool) : Option (State × Answer) :=
  if (s.world.actors a).isSome then
    if args = false then some (s, .int (-1))
    else
      (s.new procDtor a .cleared).bind fun t =>
        match startChild t.env pipe₁ pipe₂ forked with
        | (e, none) =>
            ((t.onEnv fun _ => e).event procDtor (.close a s.world.nextHdr)).map fun u =>
              (u, .int (-1))
        | (e, some ps) =>
            some ((t.setRec s.world.nextRes ps).onEnv fun _ => e, .res s.world.nextHdr)
  else none

/-- `process_raw_wait`; `status` is the exit code of a child that `waitpid` has seen
exit. -/
def rawWait (s : State) (a h : Nat) (status : Option Nat) : Option (State × Answer) :=
  s.entry a h (-1) fun p ps =>
    if ps.pid = none then some (s, .int (-1))
    else
      (((s.setRec p .cleared).onEnv fun e => (e.closeFd ps.inFd).closeFd ps.outFd).event procDtor
        (.close a h)).map fun t =>
          (t.onEnv fun e => e.waitpid ps.pid, .int (status.elim (-1) fun n => n))

/-- `process_raw_close`. -/
def rawClose (s : State) (a h : Nat) : Option (State × Answer) :=
  s.entry a h 1 fun p ps =>
    (((s.setRec p .cleared).onEnv fun e => (e.closeFd ps.inFd).closeFd ps.outFd).event procDtor
      (.close a h)).map fun t => (t.onEnv fun e => e.waitpid ps.pid, .int 1)

/-- `process_raw_close_stdin`. -/
def rawCloseStdin (s : State) (a h : Nat) : Option (State × Answer) :=
  s.entry a h (-1) fun p ps =>
    if ps.inFd = none then some (s, .int (-1))
    else
      some ((s.setRec p { ps with inFd := none }).onEnv fun e => e.closeFd ps.inFd, .int 1)

end State

/-! ### Runs -/

inductive Call
  /-- Anything else the actors and the machine do, with values of any module. -/
  | event (e : World.Event)
  | run (a : Nat) (args pipe₁ pipe₂ forked : Bool)
  | wait (a h : Nat) (status : Option Nat)
  | close (a h : Nat)
  | closeStdin (a h : Nat)
deriving Repr

namespace State

def step (s : State) : Call → Option State
  | .event e => s.event procDtor e
  | .run a args pipe₁ pipe₂ forked => (s.rawRun a args pipe₁ pipe₂ forked).map Prod.fst
  | .wait a h status => (s.rawWait a h status).map Prod.fst
  | .close a h => (s.rawClose a h).map Prod.fst
  | .closeStdin a h => (s.rawCloseStdin a h).map Prod.fst

/-- The main actor and no child. -/
def init : State :=
  Runtime.Native.State.start { nextFd := 0, nextChild := 0, calls := [], killed := [] }

end State

end TinyActor.Stdlib.Process
