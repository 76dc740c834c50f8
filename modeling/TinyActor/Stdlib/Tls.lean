/-
TLS connections and the descriptors under them: `lib/tls.c`, and the part of
`lib/tls.ta` that lifts its answers.

A connection is a resource whose record has the descriptor of a socket.  The
descriptor comes from the caller and may go back to the caller, after a handshake
that failed and after `close_keep_fd`; the record then has −1 in its place and the
destructor leaves the socket open.  Otherwise the destructor closes it.

OpenSSL is left to the environment: it says whether a wrap, a handshake step, a
read or a write succeeds.  Outside the module a descriptor is closed, or held by
some caller, or wrapped by a connection.  Closing a descriptor that the connection
does not have wrapped is noted as a stray close.
-/
import TinyActor.Runtime.Native

namespace TinyActor.Stdlib.Tls

open Runtime.Native Runtime.Resource

/-! ### Descriptors -/

inductive Holder
  | closed
  | caller
  | wrapped (p : Nat)
deriving DecidableEq, Repr

structure Sockets where
  holder : Int → Holder
  /-- The connections that have closed their descriptor, in order. -/
  closedBy : List Nat
  /-- The connections that have handed theirs back. -/
  backFrom : List Nat
  /-- Descriptors a connection closed that it did not have wrapped. -/
  stray : List Int

namespace Sockets

def set (e : Sockets) (fd : Int) (k : Holder) : Sockets :=
  { e with holder := Function.update e.holder fd k }

/-- `close(fd)` by the connection `p`. -/
def close (e : Sockets) (p : Nat) (fd : Int) : Sockets :=
  { e.set fd .closed with
    closedBy := e.closedBy ++ [p]
    stray := if e.holder fd = .wrapped p then e.stray else e.stray ++ [fd] }

/-- The record of `p` forgets its descriptor, which is the caller's again. -/
def giveBack (e : Sockets) (p : Nat) (fd : Int) : Sockets :=
  { e.set fd .caller with backFrom := e.backFrom ++ [p] }

end Sockets

/-! ### The module -/

structure TlsState where
  fd : Int
deriving DecidableEq, Repr

/-- The shutdown of the session, which goes with the record, is left out. -/
def tlsDtor : Dtor TlsState Sockets := fun p st e => if 0 ≤ st.fd then e.close p st.fd else e

abbrev State := Runtime.Native.State TlsState Sockets

namespace State

/-- `tls_raw_wrap`; `made` says that the context, the session and the record could
be made. -/
def rawWrap (s : State) (a : Nat) (fd : Int) (made : Bool) : Option (State × Answer) :=
  if (s.world.actors a).isSome then
    if fd < 0 ∨ made = false then some (s, .int (-1))
    else
      (s.new tlsDtor a { fd := fd }).map fun t =>
        (t.onEnv fun e => e.set fd (.wrapped s.world.nextRes), .res s.world.nextHdr)
  else none

/-- What `SSL_connect` and `SSL_get_error` say. -/
inductive Connect
  | done
  /-- The actor waits for the descriptor, and the call is made again. -/
  | want
  | failed
deriving DecidableEq, Repr

/-- `tls_raw_hs`. -/
def rawHs (s : State) (a h : Nat) (ret : Connect) : Option (State × Answer) :=
  s.entry a h (-1) fun p st =>
    match ret with
    | .done => some (s, .int 1)
    | .want => some (s, .nil)
    | .failed =>
        (((s.setRec p { st with fd := -1 }).onEnv fun e => e.giveBack p st.fd).event tlsDtor
          (.close a h)).map fun t => (t, .int (-1))

/-- `tls_raw_read` and `tls_raw_write`, which answer what the session says and
leave the record alone. -/
def rawIo (s : State) (a h : Nat) (ret : Answer) : Option (State × Answer) :=
  s.entry a h (-1) fun _ _ => some (s, ret)

/-- `tls_raw_close`. -/
def rawClose (s : State) (a h : Nat) (keep : Bool) : Option (State × Answer) :=
  s.entry a h 1 fun p st =>
    let s := if keep then
      (s.setRec p { st with fd := -1 }).onEnv fun e => e.giveBack p st.fd else s
    (s.event tlsDtor (.close a h)).map fun t => (t, .int (if keep then st.fd else 1))

/-- `close_h` of `lib/tls.ta`: `Ok` of the answer, unless it is a failure. -/
def closeH : Answer → Option Int
  | .int n => if n = -1 ∨ n = -2 then none else some n
  | _ => none

end State

/-! ### Runs -/

inductive Call
  /-- Anything else the actors and the machine do, with values of any module. -/
  | event (e : World.Event)
  /-- The caller's side: a descriptor is opened and closed. -/
  | socket (fd : Int)
  | tcpClose (fd : Int)
  | wrap (a : Nat) (fd : Int) (made : Bool)
  | hs (a h : Nat) (ret : State.Connect)
  | io (a h : Nat) (ret : Answer)
  | close (a h : Nat) (keep : Bool)
deriving Repr

namespace State

def step (s : State) : Call → Option State
  | .event e => s.event tlsDtor e
  | .socket fd =>
      if 0 ≤ fd ∧ s.env.holder fd = .closed then some (s.onEnv fun e => e.set fd .caller) else none
  | .tcpClose fd => some (s.onEnv fun e => e.set fd .closed)
  | .wrap a fd made => (s.rawWrap a fd made).map Prod.fst
  | .hs a h ret => (s.rawHs a h ret).map Prod.fst
  | .io a h ret => (s.rawIo a h ret).map Prod.fst
  | .close a h keep => (s.rawClose a h keep).map Prod.fst

/-- The main actor, no connection, and the three standard descriptors. -/
def init : State :=
  Runtime.Native.State.start
    { holder := fun fd => if 0 ≤ fd ∧ fd ≤ 2 then .caller else .closed
      closedBy := []
      backFrom := []
      stray := [] }

end State

end TinyActor.Stdlib.Tls
