/-
The native calls that wait: `sleep` of `lib/time.c` and `connect`, `accept`, `read` and `write` of
`lib/net.c`.

A native call that has to wait yields.  It is then executed again from its beginning, with the
same arguments, after the I/O poller has woken the actor.  What it has reached is kept beside the
actor: a connect in a registry, by the pid, and a sleep in the actor's I/O deadline alone, the
field that a connect uses to bound its wait and by which the poller wakes.

What the system answers to a call (allocations, the clock, sockets, names) is a parameter.  The
resolver thread and the other actors change the registry in any way but its removal.
-/
import TinyActor.Runtime.Mailbox

namespace TinyActor.Runtime.Blocking

/-! ### Calls -/

inductive Errno
  | again
  | inProgress
  | already
  | isConn
  | refused
  | other (n : Int)
deriving DecidableEq, Repr

/-- What a native call answers. -/
inductive Answer
  | int (n : Int)
  | sym (name : String)
  | text (s : List UInt8)
deriving DecidableEq, Repr

inductive Events
  | none
  | pollIn
  | pollOut
deriving DecidableEq, Repr

/-- The fields of `Proc` the native calls and the poller share. -/
structure Io where
  /-- `wait_deadline_ms`; -1 is disarmed. -/
  waitDeadlineMs : Int
  waitFd : Int
  waitEvents : Events
  lastErrno : Option Errno
deriving DecidableEq, Repr

/-- `NetResolve`: a name that is looked up.  The name itself is the resolver's concern. -/
structure NetResolve where
  pid : Nat
  pipeR : Int
  cancelled : Bool
  deadlineMs : Int
  failed : Bool

structure NetConnect where
  pid : Nat
  fd : Int
  deadlineMs : Int

structure NetState where
  resolverStarted : Bool
  resolveQueue : List NetResolve
  inFlight : List NetResolve
  resolves : List NetResolve
  connects : List NetConnect

/-- The answers of the system to one execution of a native call. -/
structure Outcomes where
  /-- The clock, as a call reads it first, in `net_connect_finish` and for a new deadline. -/
  now : Int
  nowFinish : Int
  nowFresh : Int
  registryAlloc : Bool
  soError : Option Errno
  socket : Except Errno Int
  connect : Option Errno
  entryAlloc : Bool
  numericHost : Bool
  resolveAlloc : Bool
  pipe : Option Int
  strdup : Bool
  thread : Bool
  accepted : Except Errno Int
  bufferAlloc : Bool
  received : Except Errno (List UInt8)
  written : Except Errno Int

/-- An execution gives no answer if it yields. -/
abbrev Result (S : Type) := Option Answer × S × Io

def Io.watchFd (io : Io) (fd : Int) (events : Events) : Io :=
  { io with waitFd := fd, waitEvents := events }

def Io.arm (io : Io) (deadline : Int) : Io := { io with waitDeadlineMs := deadline }

def Io.disarm (io : Io) : Io := io.arm (-1)

def Io.unwatch (io : Io) (fd : Int) : Io := if io.waitFd = fd then { io with waitFd := -1 } else io

/-- `time_sleep`; there is no number in an argument of another type. -/
def timeSleep (now : Int) (arg : Option Int) (io : Io) : Option Answer × Io :=
  match arg with
  | none => (some (.int (-1)), io)
  | some ms =>
      if ms ≤ 0 then (some (.int 0), io)
      else if io.waitDeadlineMs < 0 then (none, (io.arm (now + ms)).watchFd (-1) .none)
      else if now ≥ io.waitDeadlineMs then (some (.int 0), io.disarm)
      else (none, io)

/-- `net_connect_finish`, if the registry has a connect of the actor. -/
def netConnectFinish (out : Outcomes) (pid : Nat) (ns : NetState) (io : Io) :
    Option (Result NetState) :=
  (ns.connects.find? (·.pid = pid)).map fun e =>
    let removed := { ns with connects := ns.connects.eraseP (·.pid = pid) }
    if out.nowFinish > e.deadlineMs then (some (.sym "timeout"), removed, io.disarm)
    else
      match out.soError with
      | none => (some (.int e.fd), removed, io.disarm)
      | some .refused =>
          (some (.sym "refused"), removed, { io.disarm with lastErrno := some .refused })
      | some .inProgress | some .already =>
          (none, ns, (io.watchFd e.fd .pollOut).arm e.deadlineMs)
      | some err => (some (.sym "error"), removed, { io.disarm with lastErrno := some err })

/-- `net_connect_sockaddr`. -/
def netConnectSockaddr (out : Outcomes) (pid : Nat) (overallDeadlineMs : Int) (ns : NetState)
    (io : Io) : Result NetState :=
  match out.socket with
  | .error err => (some (.sym "error"), ns, { io with lastErrno := some err })
  | .ok fd =>
      match out.connect with
      | none | some .isConn => (some (.int fd), ns, io)
      | some .inProgress | some .already =>
          if out.entryAlloc then
            (none, { ns with connects := ⟨pid, fd, overallDeadlineMs⟩ :: ns.connects },
              (io.watchFd fd .pollOut).arm overallDeadlineMs)
          else (some (.sym "error"), ns, io)
      | some err =>
          (some (.sym (if err = .refused then "refused" else "error")), ns,
            { io with lastErrno := some err })

/-- `net_connect_dns_enqueue`. -/
def netConnectDnsEnqueue (out : Outcomes) (pid : Nat) (timeoutMs : Int) (ns : NetState) (io : Io) :
    Result NetState :=
  if !out.resolveAlloc then (some (.sym "error"), ns, io)
  else
    match out.pipe with
    | none => (some (.sym "error"), ns, io)
    | some pipeR =>
        if !out.strdup then (some (.sym "error"), ns, io)
        else if !ns.resolverStarted && !out.thread then (some (.sym "error"), ns, io)
        else
          let deadline := out.nowFresh + timeoutMs
          (none, { ns with
              resolverStarted := true
              resolveQueue := ns.resolveQueue ++ [⟨pid, pipeR, false, deadline, false⟩] },
            (io.watchFd pipeR .pollIn).arm deadline)

/-- The part of `net_connect` for a call that has no lookup in the registry. -/
def netConnectStart (out : Outcomes) (timeoutMs : Int) (pid : Nat) (ns : NetState) (io : Io) :
    Result NetState :=
  match netConnectFinish out pid ns io with
  | some r => r
  | none =>
      if out.numericHost then
        netConnectSockaddr out pid (out.nowFresh + timeoutMs) ns io
      else netConnectDnsEnqueue out pid timeoutMs ns io

/-- The lookup of an actor marked for the resolver to drop. -/
def cancelFirst (pid : Nat) : List NetResolve → List NetResolve
  | [] => []
  | r :: rs => if r.pid = pid then { r with cancelled := true } :: rs else r :: cancelFirst pid rs

/-- The part of `net_connect` for a lookup that is queued or in flight. -/
def netConnectPending (out : Outcomes) (queued : Bool) (rp : NetResolve) (ns : NetState) (io : Io) :
    Result NetState :=
  if out.now ≥ rp.deadlineMs then
    let ns := if queued then
        { ns with resolveQueue := ns.resolveQueue.eraseP (·.pid = rp.pid) }
      else
        { ns with inFlight := cancelFirst rp.pid ns.inFlight }
    (some (.sym "timeout"), ns, (io.unwatch rp.pipeR).disarm)
  else (none, ns, (io.watchFd rp.pipeR .pollIn).arm rp.deadlineMs)

/-- The part of `net_connect` for a lookup that is done. -/
def netConnectResolved (out : Outcomes) (pid : Nat) (r : NetResolve) (ns : NetState) (io : Io) :
    Result NetState :=
  let ns := { ns with resolves := ns.resolves.eraseP (·.pid = pid) }
  let io := io.unwatch r.pipeR
  if out.now > r.deadlineMs then (some (.sym "timeout"), ns, io.disarm)
  else if r.failed then (some (.sym "dns_error"), ns, io)
  else netConnectSockaddr out pid r.deadlineMs ns io

/-- `net_connect`, behind the checks of its arguments. -/
def netConnectWith (out : Outcomes) (timeoutMs : Int) (pid : Nat) (ns : NetState) (io : Io) :
    Result NetState :=
  let io := io.disarm
  match ns.resolves.find? (·.pid = pid) with
  | some r => netConnectResolved out pid r ns io
  | none =>
      match ns.resolveQueue.find? (·.pid = pid) with
      | some rp => netConnectPending out true rp ns io
      | none =>
          match ns.inFlight.find? (·.pid = pid) with
          | some rp => netConnectPending out false rp ns io
          | none => netConnectStart out timeoutMs pid ns io

/-- `get_net_state`: the registry is made by the first connect and never freed. -/
def getNetState (out : Outcomes) : Option NetState → Option NetState
  | some ns => some ns
  | none => if out.registryAlloc then some ⟨false, [], [], [], []⟩ else none

/-- `net_connect`; there is no timeout in arguments of other types. -/
def netConnect (out : Outcomes) (timeoutMs : Option Int) (pid : Nat) (net : Option NetState)
    (io : Io) : Result (Option NetState) :=
  match getNetState out net, timeoutMs with
  | none, _ => (some (.int (-1)), none, io)
  | some ns, none => (some (.int (-1)), some ns, io)
  | some ns, some ms =>
      let r := netConnectWith out ms pid ns io
      (r.1, some r.2.1, r.2.2)

/-- A call that is tried again when a descriptor is ready. -/
def whenReady (events : Events) (fd : Int) (answer : Except Errno Answer) (io : Io) :
    Option Answer × Io :=
  match answer with
  | .ok a => (some a, io)
  | .error .again => (none, io.watchFd fd events)
  | .error err => (some (.int (-1)), { io with lastErrno := some err })

def netAccept (out : Outcomes) (fd : Int) (io : Io) : Option Answer × Io :=
  whenReady .pollIn fd (out.accepted.map .int) io

def netRead (out : Outcomes) (fd : Int) (io : Io) : Option Answer × Io :=
  if !out.bufferAlloc then (some (.int (-1)), io)
  else whenReady .pollIn fd (out.received.map fun s => if s = [] then .sym "eof" else .text s) io

def netWrite (out : Outcomes) (fd : Int) (isString : Bool) (io : Io) : Option Answer × Io :=
  if !isString then (some (.int (-1)), io)
  else whenReady .pollOut fd (out.written.map .int) io

/-! ### The actor -/

inductive Op
  | sleep (arg : Option Int)
  | connect (timeoutMs : Option Int)
  | accept (fd : Int)
  | read (fd : Int)
  | write (fd : Int) (isString : Bool)
deriving DecidableEq, Repr

/-- One execution of a native call. -/
def execute (out : Outcomes) (pid : Nat) (net : Option NetState) (io : Io) :
    Op → Result (Option NetState)
  | .sleep arg => let r := timeSleep out.now arg io; (r.1, net, r.2)
  | .connect timeoutMs => netConnect out timeoutMs pid net io
  | .accept fd => let r := netAccept out fd io; (r.1, net, r.2)
  | .read fd => let r := netRead out fd io; (r.1, net, r.2)
  | .write fd isString => let r := netWrite out fd isString io; (r.1, net, r.2)

variable {V M H : Type}

/-- A native call that is not finished, with the clock and the mailbox as they were when it was
first executed and the messages that came since. -/
structure Call (M : Type) where
  op : Op
  since : Int
  had : List M
  came : List M

/-- An actor, with the registry and the clock. -/
structure Actor (V M H : Type) where
  proc : Proc V M H
  io : Io
  net : Option NetState
  clock : Int
  call : Option (Call M)

namespace Actor

/-- The call of an operation: the one that goes on, or a new one. -/
def callOf (a : Actor V M H) (op : Op) : Call M :=
  a.call.getD ⟨op, a.clock, a.proc.mbox.frags, []⟩

/-- An operation is executed if none is unfinished, or to go on with it. -/
def canExecute (a : Actor V M H) (op : Op) : Prop :=
  a.proc.state = .running ∧ ∀ c, a.call = some c → c.op = op

/-- `do_ccall`: an execution that yields leaves the actor waiting. -/
def executed (a : Actor V M H) (op : Op) (out : Outcomes) : Actor V M H :=
  let r := execute out a.proc.pid a.net a.io op
  { proc := if r.1.isNone then { a.proc with state := .waitIo, waitRegistered := true } else a.proc
    io := r.2.2
    net := r.2.1
    clock := out.now
    call := if r.1.isNone then some (a.callOf op) else none }

/-- The poller: what it waits for is ready, or the deadline has passed. -/
def polled (a : Actor V M H) (ready : Bool) (now : Int) : Actor V M H :=
  if a.proc.state = .waitIo ∧
      (ready ∨ (0 ≤ a.io.waitDeadlineMs ∧ a.io.waitDeadlineMs ≤ now)) then
    { a with proc := { a.proc with state := .running, waitRegistered := false } }
  else a

/-- `mbox_deliver` by a sender. -/
def delivered (a : Actor V M H) (frag : M) : Actor V M H :=
  { a with
    proc := (mboxAppend a.proc frag).1
    call := a.call.map fun c => { c with came := c.came ++ [frag] } }

end Actor

/-- The receive operations. -/
inductive Receive
  | recv
  | peek
  | commit
  | after (now now' : Int)

def Receive.run (W : Words V M H) (p : Proc V M H) : Receive → Option (BStatus × Proc V M H)
  | .recv => bRecv W p
  | .peek => bRecvPeek W p
  | .commit => bRecvCommit p
  | .after now now' => bRecvAfter W now now' p

/-- What can happen next. -/
inductive Step (W : Words V M H) : Actor V M H → Actor V M H → Prop
  | tick {a : Actor V M H} {now : Int} : a.clock ≤ now → Step W a { a with clock := now }
  | registry {a : Actor V M H} (ns : NetState) : Step W a { a with net := some ns }
  | deliver {a : Actor V M H} (frag : M) : Step W a (a.delivered frag)
  | poll {a : Actor V M H} (ready : Bool) (now : Int) : Step W a (a.polled ready now)
  | expire {a : Actor V M H} (now : Int) : Step W a { a with proc := (deadlineFire now a.proc).1 }
  | receive {a : Actor V M H} {r : Receive} {status : BStatus} {q : Proc V M H} :
      a.proc.state = .running → a.call = none → r.run W a.proc = some (status, q) →
      Step W a { a with proc := if status = .suspend then park q else q }
  | execute {a : Actor V M H} {op : Op} {out : Outcomes} :
      a.canExecute op → a.clock ≤ out.now → Step W a (a.executed op out)

end TinyActor.Runtime.Blocking
