/-
Monitors: `b_monitor` of `src/builtin.c` and the death of an actor, `proc_die` of
`src/scheduler.c`.

A step is what one thread does before another can see it: an atomic load or store, or
a section under a lock.  `procs_lock` is kept as its holder, because two sections
under it are more than one step: `monitor` looks its target up and registers with it,
and a dying actor walks over its watchers, while other actors go on storing
`PROC_DEAD` without the lock.  A delivery is one section under the mailbox lock of its
target.  Memory for the message is always there.

The runs are those in which the entry actor is alive; its death, which also stores
`PROC_DEAD` for actors that wait, is no step here.

Beside each actor stand records the source does not keep: the letters it has taken out
of its mailbox, and the monitor calls it has made, by what they found.
-/
import TinyActor.Lib.Run
import TinyActor.Runtime.Message

namespace TinyActor.Runtime.Monitor

open TinyActor.Lib (int32 ofFn)

/-- Why an actor died: a symbol, or nil for a normal exit. -/
abbrev Reason := Option (List Char)

/-- `('DOWN ref pid reason)`; with `'noproc` for the reason it is the caller's own answer to a
target that is not there. -/
inductive Down
  | noproc (ref : Int) (pid : Nat)
  | exit (ref : Int) (pid : Nat) (reason : Reason)
deriving DecidableEq, Repr

variable {M : Type}

inductive Letter (M : Type)
  | down (d : Down)
  | other (m : M)
deriving DecidableEq, Repr

/-- How far an actor has got between `proc_new` and the end of `proc_die`. -/
inductive Life
  /-- No actor has this pid. -/
  | absent
  /-- The pid is taken and its slot of `procs` still empty. -/
  | reserved
  | alive
  /-- `PROC_DEAD` is stored, and the actor still in the table. -/
  | marked (reason : Reason)
  /-- The slot of `procs` is empty again. -/
  | removed (reason : Reason)
  /-- In the loop over the watchers at watcher `i`, under the lock; `dest` has been looked up
  and found alive. -/
  | walking (reason : Reason) (i : Nat) (dest : Option Nat)
  | done
deriving DecidableEq, Repr

namespace Life

/-- The `state` of the actor is `PROC_DEAD`. -/
def dead : Life → Bool
  | absent | reserved | alive => false
  | _ => true

/-- There has been an actor of this pid in the table. -/
def existed : Life → Bool
  | absent | reserved => false
  | _ => true

/-- The slot of `procs` is not empty. -/
def inTable : Life → Bool
  | alive | marked _ => true
  | _ => false

end Life

/-- Where an actor is in a call of `monitor`. -/
inductive Calling
  | idle
  /-- It has its reference. -/
  | called (ref : Int) (target : Nat)
  /-- It holds the lock, and the target was not dead. -/
  | found (ref : Int) (target : Nat)
  /-- The lock is given up, and the target was dead or not there. -/
  | missed (ref : Int) (target : Nat)
deriving DecidableEq, Repr

structure Actor (M : Type) where
  life : Life
  /-- `watchers` and `watcher_refs`. -/
  watchers : List (Nat × Int)
  mailbox : List (Letter M)
  calling : Calling
  taken : List (Letter M)
  /-- The calls that registered with their target, and those that did not find it. -/
  registered : List (Int × Nat)
  refused : List (Int × Nat)
  /-- Pids asked for before there was such an actor. -/
  strangers : List Nat

def Actor.none : Actor M := ⟨.absent, [], [], .idle, [], [], [], []⟩

structure State (M : Type) where
  actors : Nat → Actor M
  /-- The holder of `procs_lock`. -/
  lock : Option Nat
  nextPid : Nat
  /-- Monitor calls so far; `next_ref` is what an `int` keeps of it. -/
  nextRef : Nat
  procsCap : Nat
  mainPid : Nat

namespace State

def set (s : State M) (p : Nat) (a : Actor M) : State M :=
  { s with actors := Function.update s.actors p a }

/-- The letter goes behind the others, unless the actor is dead. -/
def mboxDeliver (s : State M) (p : Nat) (m : Letter M) : State M :=
  s.set p { s.actors p with
    mailbox := if (s.actors p).life.dead then (s.actors p).mailbox
      else (s.actors p).mailbox ++ [m] }

end State

inductive Event (M : Type)
  /-- `proc_new`, up to the pid and then the slot of the table. -/
  | reserve
  | publish (p : Nat)
  /-- `monitor`, step by step. -/
  | call (w q : Nat)
  | look (w : Nat)
  | register (w : Nat)
  | refuse (w : Nat)
  /-- `proc_die`, step by step. -/
  | mark (p : Nat) (reason : Reason)
  | remove (p : Nat)
  | walk (p : Nat)
  | check (p : Nat)
  | deliver (p : Nat)
  | finish (p : Nat)
  /-- Any other message, and the reception of a letter. -/
  | send (p : Nat) (m : M)
  | recv (p i : Nat)

/-- The reference of the `k`-th call. -/
def refOf (k : Nat) : Int := int32 k

/-- `monitor` has the lock and looks at its target. -/
def lookFor (s : State M) (w : Nat) (ref : Int) (q : Nat) : State M :=
  let a := s.actors w
  if q < s.procsCap ∧ (s.actors q).life.inTable ∧ ¬ (s.actors q).life.dead then
    { s.set w { a with calling := .found ref q } with lock := some w }
  else
    s.set w { a with
      calling := .missed ref q
      refused := (ref, q) :: a.refused
      strangers := if (s.actors q).life.existed then a.strangers else q :: a.strangers }

/-- Append to the watchers of the target, give up the lock and return. -/
def registerWith (s : State M) (w : Nat) (ref : Int) (q : Nat) : State M :=
  let t := s.actors q
  let s := s.set q { t with watchers := t.watchers ++ [(w, ref)] }
  let a := s.actors w
  { s.set w { a with calling := .idle, registered := (ref, q) :: a.registered } with lock := none }

/-- One turn of the loop over the watchers, up to the delivery. -/
def checkWatcher (s : State M) (p : Nat) (reason : Reason) (i w : Nat) : State M :=
  let l := (s.actors w).life
  let dest := if l.inTable ∧ ¬ l.dead then some w else none
  let i := if dest.isSome then i else i + 1
  s.set p { s.actors p with life := .walking reason i dest }

/-- What a thread does, if it can. -/
def step (s : State M) : Event M → Option (State M)
  | .reserve =>
      if s.nextPid < s.procsCap then
        some { s.set s.nextPid { s.actors s.nextPid with life := .reserved } with
          nextPid := s.nextPid + 1 }
      else none
  | .publish p =>
      if (s.actors p).life = .reserved ∧ s.lock = none then
        some (s.set p { s.actors p with life := .alive })
      else none
  | .call w q =>
      if (s.actors w).life = .alive ∧ (s.actors w).calling = .idle then
        some { s.set w { s.actors w with calling := .called (refOf (s.nextRef + 1)) q } with
          nextRef := s.nextRef + 1 }
      else none
  | .look w =>
      match (s.actors w).calling with
      | .called ref q => if s.lock = none then some (lookFor s w ref q) else none
      | _ => none
  | .register w =>
      match (s.actors w).calling with
      | .found ref q => some (registerWith s w ref q)
      | _ => none
  | .refuse w =>
      match (s.actors w).calling with
      | .missed ref q =>
          some ((s.set w { s.actors w with calling := .idle }).mboxDeliver w
            (.down (.noproc ref q)))
      | _ => none
  | .mark p reason =>
      -- an actor dies on its own thread, so not inside a call
      if (s.actors p).life = .alive ∧ (s.actors p).calling = .idle ∧ p ≠ s.mainPid then
        some (s.set p { s.actors p with life := .marked reason })
      else none
  | .remove p =>
      match (s.actors p).life with
      | .marked reason =>
          if s.lock = none then some (s.set p { s.actors p with life := .removed reason }) else none
      | _ => none
  | .walk p =>
      match (s.actors p).life with
      | .removed reason =>
          if s.lock = none then
            some { s.set p { s.actors p with life := .walking reason 0 none } with lock := some p }
          else none
      | _ => none
  | .check p =>
      match (s.actors p).life with
      | .walking reason i none =>
          ((s.actors p).watchers[i]?).map fun e => checkWatcher s p reason i e.1
      | _ => none
  | .deliver p =>
      match (s.actors p).life with
      | .walking reason i (some w) =>
          ((s.actors p).watchers[i]?).map fun e =>
            (s.set p { s.actors p with life := .walking reason (i + 1) none }).mboxDeliver w
              (.down (.exit e.2 p reason))
      | _ => none
  | .finish p =>
      match (s.actors p).life with
      | .walking _ i none =>
          if (s.actors p).watchers.length ≤ i then
            some { s.set p { s.actors p with life := .done } with lock := none }
          else none
      | _ => none
  | .send p m => if (s.actors p).life.existed then some (s.mboxDeliver p (.other m)) else none
  | .recv p i =>
      if (s.actors p).life = .alive ∧ (s.actors p).calling = .idle then
        ((s.actors p).mailbox[i]?).map fun m =>
          s.set p { s.actors p with
            mailbox := (s.actors p).mailbox.eraseIdx i
            taken := m :: (s.actors p).taken }
      else none

/-- The entry actor is the first, and alive. -/
def init (procsCap : Nat) : State M where
  actors := Function.update (fun _ => .none) 0 { Actor.none with life := .alive }
  lock := none
  nextPid := 1
  nextRef := 0
  procsCap := procsCap
  mainPid := 0

end TinyActor.Runtime.Monitor
