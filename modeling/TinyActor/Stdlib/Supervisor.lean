/-
The supervisor (`lib/supervisor.ta`).

A child is a start thunk; running it gives a pid, and the reference of its monitor is the
number of the monitor call, counted over the whole machine.  Which pid a thunk gives and how
many monitor calls other actors get in before is up to the environment.  The loop takes one
DOWN message at a time, of which it looks at the reference only; other messages stay in the
mailbox.
-/
import TinyActor.Lib.Run
import TinyActor.Runtime.Monitor
import TinyActor.Stdlib.Str

namespace TinyActor.Stdlib.Supervisor

open Runtime.Monitor (refOf)

variable {T : Type}

/-- `(start_fn . (pid . (ref . (restarts . nil))))`. -/
structure Entry (T : Type) where
  startFn : T
  pid : Nat
  ref : Int
  restarts : Int
  deriving DecidableEq, Repr

/-- What one start meets: the pid of the new child, and the monitor calls made by others, the
thunk among them, since the last one. -/
structure Start where
  pid : Nat
  others : Nat

/-- The starts of a run, one after another. -/
abbrev Env := Nat → Start

/-- The monitor calls of the machine so far, and the starts of this supervisor. -/
structure World where
  calls : Nat
  starts : Nat
  deriving DecidableEq, Repr

/-- The world after the next start. -/
def World.next (env : Env) (w : World) : World :=
  ⟨w.calls + (env w.starts).others + 1, w.starts + 1⟩

def startChild (env : Env) (w : World) (startFn : T) (restarts : Int) : Entry T × World :=
  (⟨startFn, (env w.starts).pid, refOf (w.next env).calls, restarts⟩, w.next env)

def startAll (env : Env) (w : World) : List T → List (Entry T) × World
  | [] => ([], w)
  | child :: children =>
      let (entry, w) := startChild env w child 0
      let (entries, w) := startAll env w children
      (entry :: entries, w)

def find : List (Entry T) → Int → Option (Entry T)
  | [], _ => none
  | entry :: entries, ref => if entry.ref = ref then some entry else find entries ref

def replace : List (Entry T) → Int → Entry T → List (Entry T)
  | [], _, _ => []
  | entry :: entries, ref, newEntry =>
      if entry.ref = ref then newEntry :: entries else entry :: replace entries ref newEntry

/-- The supervisor at its `receive`. -/
structure State (T : Type) where
  entries : List (Entry T)
  world : World
  deriving DecidableEq, Repr

/-- `start`, up to the first `receive`. -/
def start (env : Env) (w : World) (children : List T) : State T :=
  let (entries, w) := startAll env w children
  ⟨entries, w⟩

/-- `handle_down`: the state the loop goes on in, none for `'gave_up`. -/
def handleDown (env : Env) (maxRestarts : Int) (s : State T) (ref : Int) : Option (State T) :=
  match find s.entries ref with
  | some entry =>
      let restarts := int48 (entry.restarts + 1)
      if restarts > maxRestarts then none
      else
        let (newEntry, w) := startChild env s.world entry.startFn restarts
        some ⟨replace s.entries ref newEntry, w⟩
  | none => some s

/-- `run`, for the references of the DOWN messages in the order they are received. -/
def run (env : Env) (maxRestarts : Int) : State T → List Int → Option (State T) :=
  Lib.exec (handleDown env maxRestarts)

end TinyActor.Stdlib.Supervisor
