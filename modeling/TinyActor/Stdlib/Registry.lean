/-
The process registry (`lib/registry.ta`): an actor whose loop goes on with a dictionary of
names, and answers the requests of its clients in the order they reach its mailbox.
-/
import TinyActor.Stdlib.Dict

namespace TinyActor.Stdlib.Registry

inductive Request
  | register (name : Bytes) (proc : Nat)
  | whereis (name : Bytes)
  | unregister (name : Bytes)

/-- `Ok('ok)`, `Err('taken)`, or what `dict.get` finds. -/
inductive Result
  | ok
  | taken
  | found (proc : Option Nat)

/-- The arms of `loop`: the names it goes on with, and the reply. -/
def turn (names : Dict Bytes Nat) : Request → Dict Bytes Nat × Option Result
  | .register name proc =>
      if names.hasKey name then (names, some .taken) else (names.insert name proc, some .ok)
  | .whereis name => (names, some (.found (names.get name)))
  | .unregister name => (names.remove name, none)

/-- Turn after turn: the state at the end, and the replies with the clients they go to. -/
def turns {σ : Type} (f : σ → Request → σ × Option Result) (st : σ) :
    List (Nat × Request) → σ × List (Nat × Option Result)
  | [] => (st, [])
  | (sender, req) :: rest =>
      let later := turns f (f st req).1 rest
      (later.1, (sender, (f st req).2) :: later.2)

/-- `start`, for the messages the registry receives. -/
def loop : List (Nat × Request) → Dict Bytes Nat × List (Nat × Option Result) :=
  turns turn .strNew

end TinyActor.Stdlib.Registry
