/-
Resources of native modules: `src/resource.c`, and the places of
`src/scheduler.c`, `src/val.c`, `src/builtin.c`, `src/gc.c` and `src/api.c` where a
resource changes hands or is let go.

A resource is a payload outside every heap, behind small headers inside the heaps.
A header names the actor that owns the payload.  Copying a value copies its
headers; the payload is shared.  When a value passes from one actor to another,
the headers in the copy and in the sender's heap are both rewritten to name the
receiver, so the sender's header is left behind as a stale one.  A payload is
released through a header that names the actor doing it: by its owner's `close`,
by a collection that finds the header unreachable, by the owner's death, or when
the machine is freed.

Headers are known by a number that stands for their address.  Of a value only the
tree of pairs and closures down to its headers is kept: the other words have
nothing below them.  What the code of an actor does between these operations is
free: it may keep, drop and combine the values it can reach.
-/
import TinyActor.Runtime.Mailbox

namespace TinyActor.Runtime.Resource

/-! ### Values -/

/-- A value, down to the headers in it. -/
inductive Tree
  /-- An immediate word, a string or a byte string. -/
  | atom (w : Nat)
  | res (h : Nat)
  | pair (car cdr : Tree)
  | clos (entry : Nat) (free : List Tree)
deriving Repr

namespace Tree

mutual

/-- `collect_resources`: the headers of a value, in the order the work list meets
them, which takes the last captured value of a closure first. -/
def headers : Tree → List Nat
  | atom _ => []
  | res h => [h]
  | pair car cdr => car.headers ++ cdr.headers
  | clos _ free => headersList free

def headersList : List Tree → List Nat
  | [] => []
  | t :: ts => headersList ts ++ t.headers

end

mutual

/-- The same value on headers of its own: those from `n` on. -/
def relabel : Tree → Nat → Tree
  | atom w, _ => atom w
  | res _, n => res n
  | pair car cdr, n => pair (car.relabel n) (cdr.relabel (n + car.headers.length))
  | clos entry free, n => clos entry (relabelList free n)

def relabelList : List Tree → Nat → List Tree
  | [], _ => []
  | t :: ts, n => t.relabel (n + (headersList ts).length) :: relabelList ts n

end

/-- A closure, or the immediate word of one that captures nothing. -/
def isClosure : Tree → Bool
  | atom _ | clos _ _ => true
  | res _ | pair _ _ => false

end Tree

/-! ### The machine -/

/-- `HeapResource`: the owner and the payload, until it is released. -/
structure Header where
  ownerPid : Nat
  res : Option Nat
deriving DecidableEq, Repr

/-- What a live actor has to do with resources. -/
structure Actor where
  /-- The values its code can still use. -/
  roots : List Tree
  /-- The headers in its heap, in address order, reachable or not. -/
  heap : List Nat
  mbox : Mailbox Tree
  peekIndex : Nat

/-- The headers that live in an actor's heap or mailbox. -/
def Actor.held (A : Actor) : List Nat := A.heap ++ A.mbox.frags.flatMap Tree.headers

/-- The headers an actor's code can reach. -/
def Actor.reach (A : Actor) : List Nat := A.roots.flatMap Tree.headers

structure World where
  hdr : Nat → Header
  nextHdr : Nat
  actors : Nat → Option Actor
  nextPid : Nat
  nextRes : Nat
  /-- The payload has a pointer and a destructor. -/
  hasDtor : Nat → Bool
  /-- The payloads released so far. -/
  freed : List Nat
  /-- The destructor calls so far. -/
  dtorCalls : List Nat
  vmFreed : Bool

namespace World

def setActor (w : World) (a : Nat) (A : Option Actor) : World :=
  { w with actors := Function.update w.actors a A }

def held (w : World) (a : Nat) : List Nat := (w.actors a).elim [] Actor.held

/-! ### Releasing -/

/-- `ta_resource_release`: run the destructor, free the payload and clear the
header; nothing if it is cleared already. -/
def taResourceRelease (w : World) (h : Nat) : World :=
  match (w.hdr h).res with
  | none => w
  | some p =>
      { w with
        hdr := Function.update w.hdr h { w.hdr h with res := none }
        freed := w.freed ++ [p]
        dtorCalls := if w.hasDtor p then w.dtorCalls ++ [p] else w.dtorCalls }

/-- The loop of `resource_release_tree` and of `resource_release_space`: release
through those of the headers that name the actor. -/
def releaseOwned (w : World) (pid : Nat) (hs : List Nat) : World :=
  hs.foldl (fun w h => if (w.hdr h).ownerPid = pid then w.taResourceRelease h else w) w

/-- `proc_die`, and what `vm_free` does with an actor that has not died: release
what is in its mailbox, then what is in its heap. -/
def procDie (w : World) (a : Nat) : World :=
  match w.actors a with
  | none => w
  | some A =>
      let w := A.mbox.frags.foldl (fun w t => w.releaseOwned a t.headers) w
      (w.releaseOwned a A.heap).setActor a none

/-! ### Changing hands -/

/-- `val_set_resource_owner` on the headers of a value. -/
def setOwner (w : World) (hs : List Nat) (pid : Nat) : World :=
  { w with hdr := fun h => if h ∈ hs then { w.hdr h with ownerPid := pid } else w.hdr h }

/-- The headers of a copied value: each a copy of one of the old ones. -/
def copyHeaders (w : World) (hs : List Nat) : World :=
  { w with
    hdr := fun h => if w.nextHdr ≤ h then w.hdr (hs.getD (h - w.nextHdr) h) else w.hdr h
    nextHdr := w.nextHdr + hs.length }

/-- The headers `copyHeaders` makes. -/
def newHeaders (w : World) (hs : List Nat) : List Nat := List.range' w.nextHdr hs.length

/-- A copy and the value it was made from both name the receiver. -/
def handOver (w : World) (hs : List Nat) (pid : Nat) : World :=
  ((w.copyHeaders hs).setOwner (w.newHeaders hs) pid).setOwner hs pid

/-- The loop of `resource_send_check`, which `val_deep_copy` of a spawned closure
has as well: every header names the sender, and no payload comes twice.  The
result is the headers that passed and whether all did. -/
def checkHeaders (w : World) (sender : Nat) : List Nat → List Nat → List Nat × Bool
  | seen, [] => (seen, true)
  | seen, h :: rest =>
      if (w.hdr h).ownerPid ≠ sender then (seen, false)
      else if seen.any fun j => (w.hdr j).res ≠ none ∧ (w.hdr j).res = (w.hdr h).res then
        (seen, false)
      else checkHeaders w sender (seen ++ [h]) rest

/-- `resource_send_check`; without a sender, or to itself, nothing may pass. -/
def resourceSendCheck (w : World) (hs : List Nat) (sender : Option Nat) (target : Nat) : Bool :=
  match sender with
  | none => false
  | some s => s ≠ target && (w.checkHeaders s [] hs).2

/-- `mbox_deliver`; `none` is a refusal.  A message to a dead actor is dropped and
nothing changes hands. -/
def mboxDeliver (w : World) (sender : Option Nat) (target : Nat) (msg : Tree) : Option World :=
  if msg.headers ≠ [] ∧ w.resourceSendCheck msg.headers sender target = false then none
  else
    match w.actors target with
    | none => some w
    | some T =>
        let frag := msg.relabel w.nextHdr
        some ((w.handOver msg.headers target).setActor target
          (some { T with mbox := T.mbox.push frag }))

/-- `send` of a value the actor can use.  A refusal kills the sender. -/
def send (w : World) (a : Nat) (A : Actor) (i b : Nat) : Option World :=
  A.roots[i]?.map fun msg =>
    match w.actors b with
    | none => w
    | some _ => (w.mboxDeliver (some a) b msg).getD (w.procDie a)

/-- `proc_new` numbers the actors in order. -/
def takePid (w : World) : World := { w with nextPid := w.nextPid + 1 }

/-- `spawn` of a closure the actor can use.  A refusal leaves the child with the
headers copied so far, which still name the parent, and kills both. -/
def spawn (w : World) (a : Nat) (A : Actor) (i : Nat) : Option World :=
  (A.roots[i]?.filter Tree.isClosure).map fun clos =>
    let c := w.nextPid
    let hs := clos.headers
    let w := w.takePid
    let (seen, ok) := w.checkHeaders a [] hs
    if ok then
      (w.handOver hs c).setActor c
        (some { roots := [clos.relabel w.nextHdr], heap := w.newHeaders hs, mbox := .empty,
                peekIndex := 0 })
    else
      let child : Actor := { roots := [], heap := w.newHeaders seen, mbox := .empty, peekIndex := 0 }
      (((w.copyHeaders seen).setActor c (some child)).procDie c).procDie a

/-- `mbox_pop`: the head fragment becomes a value on headers in the heap. -/
def recv (w : World) (a : Nat) (A : Actor) : Option World :=
  A.mbox.pop.map fun (frag, mbox) =>
    (w.copyHeaders frag.headers).setActor a
      (some { A with
        roots := frag.relabel w.nextHdr :: A.roots
        heap := A.heap ++ w.newHeaders frag.headers
        mbox := mbox })

/-- `recv_peek` of a fragment; one with resources kills the actor. -/
def recvPeek (w : World) (a : Nat) (A : Actor) : Option World :=
  if A.peekIndex < A.mbox.count then
    (A.mbox.nth A.peekIndex).map fun frag =>
      if frag.headers ≠ [] then w.procDie a
      else w.setActor a (some { A with roots := frag :: A.roots, peekIndex := A.peekIndex + 1 })
  else none

/-- `recv_commit`: the fragment behind the cursor is freed as it is. -/
def recvCommit (w : World) (a : Nat) (A : Actor) : Option World :=
  (A.mbox.unlink (commitTarget A.peekIndex)).map fun (_, mbox) =>
    w.setActor a (some { A with mbox := mbox, peekIndex := 0 })

/-! ### The other operations -/

/-- `ta_resource_new`. -/
def taResourceNew (w : World) (a : Nat) (A : Actor) (dtor : Bool) : World :=
  { w with
    hdr := Function.update w.hdr w.nextHdr { ownerPid := a, res := some w.nextRes }
    nextHdr := w.nextHdr + 1
    nextRes := w.nextRes + 1
    hasDtor := Function.update w.hasDtor w.nextRes dtor
    actors := Function.update w.actors a
      (some { A with roots := .res w.nextHdr :: A.roots, heap := A.heap ++ [w.nextHdr] }) }

/-- A module's `close`: `ta_resource_open`, then the release. -/
def close (w : World) (a h : Nat) : World :=
  if (w.hdr h).ownerPid ≠ a then w
  else w.taResourceRelease h

/-- A collection: the headers that were not forwarded are swept, and those that
name the actor are released through. -/
def collect (w : World) (a : Nat) (A : Actor) : World :=
  (w.releaseOwned a (A.heap.filter fun h => h ∉ A.reach)).setActor a
    (some { A with heap := A.heap.filter fun h => h ∈ A.reach })

/-- `vm_free`: every actor still in the table. -/
def vmFree (w : World) : World :=
  { (List.range w.nextPid).foldl procDie w with vmFreed := true }

/-- What happens next, and to which actor. -/
inductive Event
  | create (a : Nat) (dtor : Bool)
  /-- The actor's code: the values it can use become others on the same headers. -/
  | compute (a : Nat) (roots : List Tree)
  | send (a i b : Nat)
  /-- The poller thread delivers a timer's message. -/
  | timer (b : Nat) (msg : Tree)
  | spawn (a i : Nat)
  | recv (a : Nat)
  | recvPeek (a : Nat)
  | recvCommit (a : Nat)
  | close (a h : Nat)
  | collect (a : Nat)
  | die (a : Nat)
  | vmFree
deriving Repr

/-- One step; nothing happens after the machine is freed, to an actor that is not
there, or to a value that cannot be reached. -/
def step (w : World) (e : Event) : Option World :=
  if w.vmFreed then none
  else
    match e with
    | .create a dtor => (w.actors a).map fun A => w.taResourceNew a A dtor
    | .compute a roots =>
        (w.actors a).bind fun A =>
          if roots.flatMap Tree.headers ⊆ A.reach then
            some (w.setActor a (some { A with roots := roots }))
          else none
    | .send a i b => (w.actors a).bind fun A => w.send a A i b
    | .timer b msg => some ((w.mboxDeliver none b msg).getD w)
    | .spawn a i => (w.actors a).bind fun A => w.spawn a A i
    | .recv a => (w.actors a).bind fun A => w.recv a A
    | .recvPeek a => (w.actors a).bind fun A => w.recvPeek a A
    | .recvCommit a => (w.actors a).bind fun A => w.recvCommit a A
    | .close a h => (w.actors a).bind fun A => if h ∈ A.reach then some (w.close a h) else none
    | .collect a => (w.actors a).map fun A => w.collect a A
    | .die a => (w.actors a).map fun _ => w.procDie a
    | .vmFree => some w.vmFree

/-- The main actor and nothing else. -/
def init : World where
  hdr _ := { ownerPid := 0, res := none }
  nextHdr := 0
  actors := Function.update (fun _ => none) 0
    (some { roots := [.atom 0], heap := [], mbox := .empty, peekIndex := 0 })
  nextPid := 1
  nextRes := 0
  hasDtor _ := false
  freed := []
  dtorCalls := []
  vmFreed := false

end World

end TinyActor.Runtime.Resource
