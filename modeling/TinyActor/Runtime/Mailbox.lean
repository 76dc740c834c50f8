/-
The mailbox of an actor and the shared builtins that work on it: `mbox_pop` of
`src/scheduler.c` and `recv_peek`, `recv_commit` and `recv_after` of
`src/builtin.c`.

A mailbox is a linked list of message fragments with a counter beside it.  The
counter is a field of its own in the source, so it is one here, with the
statement that it counts the list.  Walking off the end of the list is a null
dereference in the source; here the function then has no result.

What the words of the machine are does not matter to any of this, so they are a
parameter: a type of words, a type of message trees, a type of heaps, and the
handful of conversions the builtins call.
-/
import Mathlib.Data.List.Basic

namespace TinyActor.Runtime

/-- What the builtins need of the machine's words: the constants and accessors
they use, the test for a resource in a message, and the two copies between an
actor's heap and a message fragment. -/
structure Words (V M H : Type) where
  nil : V
  ofPid : Nat → V
  getPid : V → Nat
  ofInt : Int → V
  getInt : V → Int
  /-- The function a spawnable value names, if it is a closure at all. -/
  closureFid : V → Option Nat
  /-- `val_has_resource` of a fragment's root. -/
  hasResource : M → Bool
  /-- `val_deep_copy` of a fragment's root onto a heap. -/
  deepCopy : H → M → V × H
  /-- `frag_copy` of a value into a fresh fragment. -/
  fragCopy : H → V → M
  /-- `resource_send_check`: may the sender pass the value to the target? -/
  sendCheck : H → V → Nat → Nat → Bool
  /-- `val_set_resource_owner` of a fragment's root, and of a value on a heap. -/
  setFragOwner : M → Nat → M
  setOwner : H → V → Nat → H
  /-- `val_deep_copy` of a spawned closure onto a new actor's heap, with the
  check that its resources may move there. -/
  spawnCopy : H → V → Nat → Nat → Option (V × H)
  /-- The notice `(DOWN ref pid noproc)` about a dead actor, built on a heap. -/
  downMsg : H → Int → Nat → V × H

/-! ### The fragment list -/

/-- The fragment list, oldest message first, and its counter. -/
structure Mailbox (M : Type) where
  frags : List M
  count : Nat
  count_eq : count = frags.length

namespace Mailbox

variable {M : Type}

def empty : Mailbox M := ⟨[], 0, rfl⟩

/-- Append a fragment, as `mbox_deliver` does. -/
def push (mb : Mailbox M) (frag : M) : Mailbox M :=
  ⟨mb.frags ++ [frag], mb.count + 1, by simp [mb.count_eq]⟩

/-- Unlink the head fragment. -/
def pop (mb : Mailbox M) : Option (M × Mailbox M) :=
  match h : mb.frags with
  | [] => none
  | frag :: rest => some (frag, ⟨rest, mb.count - 1, by simp [mb.count_eq, h]⟩)

/-- The fragment `i` links behind the head. -/
def nth (mb : Mailbox M) (i : Nat) : Option M := mb.frags[i]?

/-- Unlink the fragment `i` links behind the head. -/
def unlink (mb : Mailbox M) (i : Nat) : Option (M × Mailbox M) :=
  if h : i < mb.frags.length then
    some (mb.frags.get ⟨i, h⟩,
      ⟨mb.frags.eraseIdx i, mb.count - 1, by simp [mb.count_eq, List.length_eraseIdx, h]⟩)
  else none

end Mailbox

/-! ### The process record -/

inductive ProcState
  | running
  | waitRecv
  | waitIo
  | dead
deriving DecidableEq, Repr

/-- The deadline fired while the actor was blocked in `recv_after`. -/
def RECV_AFTER_EXPIRED : Int := -2

/-- The fields of `Proc` that the builtins and the scheduler read or write.  The
stack is listed from its top, so `sp` is the negated length. -/
structure Proc (V M H : Type) where
  pid : Nat
  state : ProcState
  stack : List V
  heap : H
  pc : Nat
  base : Nat
  cbase : Nat
  acc : V
  hasAcc : Bool
  mbox : Mailbox M
  peekIndex : Nat
  recvDeadlineMs : Int
  /-- Pid and reference of every actor that monitors this one. -/
  watchers : List (Nat × Int)
  waitRegistered : Bool

variable {V M H : Type}

def procPush (p : Proc V M H) (v : V) : Proc V M H := { p with stack := v :: p.stack }

def procPop (p : Proc V M H) : Option (V × Proc V M H) :=
  match p.stack with
  | [] => none
  | v :: rest => some (v, { p with stack := rest })

/-! ### Putting messages in -/

/-- What `mbox_deliver` does under the target's mailbox lock: append the
fragment, and wake a target that waits for a message.  The flag says whether the
target goes to the run queue. -/
def mboxAppend (p : Proc V M H) (frag : M) : Proc V M H × Bool :=
  let q := { p with mbox := p.mbox.push frag }
  if q.state = .waitRecv then ({ q with state := .running, waitRegistered := false }, true)
  else (q, false)

/-- What the deadline scan does under the mailbox lock, on a second look at the
state and the deadline.  The flag says whether the timeout fired. -/
def deadlineFire (now : Int) (p : Proc V M H) : Proc V M H × Bool :=
  if p.state = .waitRecv ∧ 0 ≤ p.recvDeadlineMs ∧ p.recvDeadlineMs ≤ now then
    ({ p with recvDeadlineMs := RECV_AFTER_EXPIRED, state := .running }, true)
  else (p, false)

/-- What every blocking builtin publishes under the mailbox lock, besides the
resume point. -/
def park (p : Proc V M H) : Proc V M H :=
  { p with state := .waitRecv, waitRegistered := true }

/-! ### Taking messages out -/

/-- Detach the head fragment and rebuild it on the actor's own heap. -/
def mboxPop (W : Words V M H) (p : Proc V M H) : Option (V × Proc V M H) :=
  (p.mbox.pop).map fun (frag, mbox) =>
    let (v, heap) := W.deepCopy p.heap frag
    (v, { p with mbox := mbox, heap := heap })

inductive BStatus
  | ok
  | suspend
  | died
deriving DecidableEq, Repr

/-- `recv`: the head message, or block on an empty mailbox. -/
def bRecv (W : Words V M H) (p : Proc V M H) : Option (BStatus × Proc V M H) :=
  if p.mbox.count = 0 then some (.suspend, p)
  else (mboxPop W p).map fun (msg, q) => (.ok, procPush q msg)

/-- Copy the message under the scan cursor and advance the cursor, without
unlinking the fragment. -/
def bRecvPeek (W : Words V M H) (p : Proc V M H) : Option (BStatus × Proc V M H) :=
  if p.peekIndex < p.mbox.count then
    (p.mbox.nth p.peekIndex).map fun frag =>
      if W.hasResource frag then (.died, p)
      else
        let (msg, heap) := W.deepCopy p.heap frag
        (.ok, procPush { p with heap := heap, peekIndex := p.peekIndex + 1 } msg)
  else some (.suspend, p)

/-- How many links behind the head `recv_commit` unlinks.  The head is taken
only for cursor 1; otherwise the walk stops at least at the head and the
fragment after it goes, so a cursor of 0 unlinks the second fragment. -/
def commitTarget (peekIndex : Nat) : Nat :=
  let target : Int := peekIndex - 1
  if target = 0 then 0 else (target - 1).toNat + 1

/-- Unlink the fragment behind the scan cursor and reset the cursor. -/
def bRecvCommit (p : Proc V M H) : Option (BStatus × Proc V M H) :=
  (p.mbox.unlink (commitTarget p.peekIndex)).map fun (_, mbox) =>
    (.ok, { p with mbox := mbox, peekIndex := 0 })

/-- The part of `recv_after` after its operand is settled: a message wins over
the deadline, a passed deadline gives nil, and otherwise the actor blocks. -/
def recvAfterArmed (W : Words V M H) (now : Int) (p : Proc V M H) :
    Option (BStatus × Proc V M H) :=
  if 0 < p.mbox.count then
    (mboxPop W { p with recvDeadlineMs := -1 }).map fun (msg, q) => (.ok, procPush q msg)
  else if p.recvDeadlineMs ≤ now then
    some (.ok, procPush { p with recvDeadlineMs := -1, waitRegistered := false } W.nil)
  else some (.suspend, p)

/-- `recv_after`: `now` and `now'` are its two readings of the clock. -/
def bRecvAfter (W : Words V M H) (now now' : Int) (p : Proc V M H) :
    Option (BStatus × Proc V M H) :=
  if p.recvDeadlineMs = RECV_AFTER_EXPIRED then
    some (.ok, procPush { p with recvDeadlineMs := -1 } W.nil)
  else if p.recvDeadlineMs < 0 then
    (procPop p).bind fun (ms, q) =>
      recvAfterArmed W now' { q with recvDeadlineMs := now + W.getInt ms }
  else recvAfterArmed W now' p

end TinyActor.Runtime
