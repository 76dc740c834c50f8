/-
Native modules that keep a record behind a resource: what `lib/tls.c` and
`lib/process.c` share.

The payload of such a resource points to a record of the module, and its
destructor is a function of the module.  Every entry of the module takes a handle
and begins with `ta_resource_open`, which lets it pass only for the actor the
header names and only while the payload is there.  The record is then the
module's to change.

The records stay with the machine of `Runtime/Resource.lean`, which says when a
payload is released.  The destructors act on what is outside the machine, the
descriptors and the children, and are called in the order of the releases.
-/
import TinyActor.Runtime.Resource

namespace TinyActor.Runtime.Native

open Resource

variable {σ E : Type}

/-- What a destructor does outside, given the payload it is called for and the
record behind it. -/
abbrev Dtor (σ E : Type) := Nat → σ → E → E

/-- What an entry returns to the actor. -/
inductive Answer
  | int (n : Int)
  | nil
  | res (h : Nat)
  /-- A string or a symbol. -/
  | other
deriving DecidableEq, Repr

structure State (σ E : Type) where
  world : World
  /-- The record behind a payload, freed or not; none behind those of other
  modules. -/
  recs : Nat → Option σ
  env : E

/-- `ta_resource_open`: the owner comes before the release, because only the
owner may look at the payload. -/
def taResourceOpen (w : World) (a h : Nat) (closedCode : Int) : Except Int Nat :=
  if (w.hdr h).ownerPid ≠ a then .error (-2)
  else
    match (w.hdr h).res with
    | none => .error closedCode
    | some p => .ok p

namespace State

def setRec (s : State σ E) (p : Nat) (x : σ) : State σ E :=
  { s with recs := Function.update s.recs p (some x) }

def onEnv (s : State σ E) (f : E → E) : State σ E := { s with env := f s.env }

/-- The destructor calls for payloads, in order. -/
def destroy (dtor : Dtor σ E) (recs : Nat → Option σ) (ps : List Nat) (e : E) : E :=
  ps.foldl (fun e p => (recs p).elim e fun x => dtor p x e) e

/-- An event of the machine, and the destructor calls of what it released. -/
def event (dtor : Dtor σ E) (s : State σ E) (e : World.Event) : Option (State σ E) :=
  (s.world.step e).map fun w =>
    { s with
      world := w
      env := destroy dtor s.recs (w.freed.drop s.world.freed.length) s.env }

/-- `ta_resource_new` with a record of the module. -/
def new (dtor : Dtor σ E) (s : State σ E) (a : Nat) (x : σ) : Option (State σ E) :=
  (s.event dtor (.create a true)).map fun t => t.setRec s.world.nextRes x

/-- The main actor and no payload. -/
def start (env : E) : State σ E := { world := World.init, recs := fun _ => none, env := env }

/-- The actor is there and its code has the handle. -/
def CanUse (s : State σ E) (a h : Nat) : Prop := ∃ A ∈ s.world.actors a, h ∈ A.reach

instance (s : State σ E) (a h : Nat) : Decidable (s.CanUse a h) :=
  inferInstanceAs (Decidable (∃ A ∈ s.world.actors a, h ∈ A.reach))

/-- An entry of the module on a handle: what `ta_resource_open` answers if it
refuses, and otherwise the body, on the payload and its record.  A handle of
another module is kept out by the types. -/
def entry (s : State σ E) (a h : Nat) (closedCode : Int)
    (body : Nat → σ → Option (State σ E × Answer)) : Option (State σ E × Answer) :=
  if s.CanUse a h then
    match taResourceOpen s.world a h closedCode with
    | .error code => some (s, .int code)
    | .ok p => (s.recs p).bind (body p)
  else none

end State

end TinyActor.Runtime.Native
