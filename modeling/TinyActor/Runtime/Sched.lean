/-
The scheduler: `src/scheduler.c` and the places of `src/vm.c` where the
interpreter hands an actor over.

A step is one section under a lock, or one of the stores outside any lock that
other threads can see.  A worker takes an actor off the run queue, looks at its
state, runs it, and ends a slice in one of five ways: the budget is used up and
the worker queues the actor again, the actor blocks in a primitive, it blocks in
a native call, it dies, or it is the entry actor and returns.  Deliveries come
from running actors, from the notices of a death and from the timer.  The poller
wakes actors that wait for I/O, and fires the deadlines of `recv_after`: there it
gives up the mailbox lock first, and takes the actor off the wait list and queues
it afterwards.

Beside each actor stands a record of its receive scan that the source does not
keep: what it blocked in last, the messages the scan has looked at, and whether
the list was left alone since the scan began.
-/
import Mathlib.Algebra.BigOperators.Fin
import TinyActor.Runtime.Builtin

namespace TinyActor.Runtime

variable {V M H : Type} {n : Nat}

/-- Where a worker is in its loop. -/
inductive Worker
  | idle
  /-- The pid is off the queue and its state not yet looked at. -/
  | picked (pid : Nat)
  | running (pid : Nat)
  /-- The slice is over and the actor not yet queued again. -/
  | yielding (pid : Nat)
  /-- Inside `spawn`: the child is in the table and not yet queued. -/
  | spawning (pid child : Nat)
  /-- The actor is published as waiting for I/O and not yet on the wait list. -/
  | registering (pid : Nat)
deriving DecidableEq, Repr

/-- Where the poller is in its deadline scan. -/
inductive Poller
  | scanning
  /-- The deadline has fired and the actor is still on the wait list. -/
  | fired (pid : Nat)
  /-- The actor is off the wait list and not yet queued. -/
  | unregistered (pid : Nat)
deriving DecidableEq, Repr

/-- What is remembered of an actor's receive scan. -/
structure ScanRecord (M : Type) where
  /-- The primitive the actor blocked in last was `recv_peek`. -/
  parkedByScan : Bool
  /-- The messages looked at since the last commit. -/
  seen : List M
  /-- No message was taken off the front since the cursor left it. -/
  undisturbed : Bool

def ScanRecord.fresh : ScanRecord M := ⟨false, [], true⟩

structure Sched (n : Nat) (V M H : Type) where
  vm : Vm V M H
  mainPid : Nat
  entryDone : Bool
  workers : Fin n → Worker
  poller : Poller
  scans : Nat → ScanRecord M

/-- The sections and stores the threads interleave. -/
inductive Event (n : Nat) (M : Type)
  | dequeue (w : Fin n)
  | check (w : Fin n)
  | yield (w : Fin n)
  | yieldEnqueue (w : Fin n)
  /-- A primitive other than `spawn`, with its operand count and clock readings. -/
  | builtin (w : Fin n) (id : Builtin) (k now now' : Nat)
  | spawn (w : Fin n)
  | spawnEnqueue (w : Fin n)
  | ioBlock (w : Fin n)
  | ioRegister (w : Fin n)
  | die (w : Fin n)
  | entryReturn (w : Fin n)
  /-- A delivery by the timer, or of the notice of a death. -/
  | deliver (target : Nat) (frag : M)
  /-- The two sections of the entry actor's death. -/
  | clearWaits
  | killWaiting
  | ioWake (pid : Nat)
  | deadlineScan (pid now : Nat)
  | scanUnregister
  | scanEnqueue

namespace Sched

def setWorker (s : Sched n V M H) (w : Fin n) (x : Worker) : Sched n V M H :=
  { s with workers := Function.update s.workers w x }

def setVm (s : Sched n V M H) (vm : Vm V M H) : Sched n V M H := { s with vm := vm }

def setScan (s : Sched n V M H) (pid : Nat) (r : ScanRecord M) : Sched n V M H :=
  { s with scans := Function.update s.scans pid r }

/-- The actor a worker is running, with its pid. -/
def runningProc (s : Sched n V M H) (w : Fin n) : Option (Nat × Proc V M H) :=
  match s.workers w with
  | .running pid => (s.vm.procs pid).map fun p => (pid, p)
  | _ => none

/-- What a completed primitive adds to the record of the actor's scan. -/
def scanAfter (r : ScanRecord M) (p q : Proc V M H) : Builtin → ScanRecord M
  | .recvPeek => { r with seen := r.seen ++ (p.mbox.nth p.peekIndex).toList }
  | .recvCommit => { r with seen := [], undisturbed := true }
  | .recv | .recvAfter =>
      if q.mbox.count < p.mbox.count ∧ 0 < p.peekIndex then { r with undisturbed := false } else r
  | _ => r

/-- One primitive, executed by a worker.  A completed one leaves the worker with
its actor; a blocked one and a death leave it idle; the fatal errors and the
faults end the machine. -/
def stepBuiltin (W : Words V M H) (s : Sched n V M H) (w : Fin n) (id : Builtin)
    (k now now' : Nat) : Option (Sched n V M H) :=
  (s.runningProc w).bind fun (pid, p) =>
    match doBuiltin W s.vm pid id k p.pc p.base p.cbase now now' with
    | .done vm =>
        (vm.procs pid).map fun q =>
          (s.setVm vm).setScan pid (scanAfter (s.scans pid) p q id)
    | .blocked vm =>
        some (((s.setVm vm).setScan pid
          { s.scans pid with parkedByScan := id = .recvPeek }).setWorker w .idle)
    | .died _ vm =>
        (vm.procs pid).map fun q =>
          (s.setVm (vm.setProc pid { q with state := .dead })).setWorker w .idle
    | .fatal _ => none
    | .fault => none

/-- `proc_new` inside `spawn`. -/
def stepSpawn (W : Words V M H) (s : Sched n V M H) (w : Fin n) : Option (Sched n V M H) :=
  (s.runningProc w).bind fun (pid, p) =>
    match W.closureFid p.acc with
    | none => none
    | some _ =>
        if s.vm.procsCap ≤ s.vm.nextPid then none
        else
          let np := procNew W s.vm
          let vm := { s.vm with nextPid := s.vm.nextPid + 1 }
          some (((s.setVm (vm.setProc np.pid np)).setScan np.pid .fresh).setWorker w
            (.spawning pid np.pid))

/-- The rest of `spawn`: fill the child in and queue it, or end both. -/
def stepSpawnEnqueue (W : Words V M H) (s : Sched n V M H) (w : Fin n) : Option (Sched n V M H) :=
  match s.workers w with
  | .spawning pid child =>
      match s.vm.procs pid, s.vm.procs child with
      | some p, some np =>
          match W.spawnCopy p.heap p.acc pid child, W.closureFid p.acc with
          | some (owned, heap), some fid =>
              let p := { p with heap := W.setOwner p.heap p.acc child, acc := W.ofPid child }
              let np := procFrameInit W s.vm { np with heap := heap } fid owned
              some ((s.setVm (((s.vm.setProc child np).setProc pid p).runqEnqueue child)).setWorker w
                (.running pid))
          | _, _ =>
              some ((s.setVm ((s.vm.setProc child { np with state := .dead }).setProc pid
                { p with state := .dead })).setWorker w .idle)
      | _, _ => none
  | _ => none

/-- What the entry actor's death does to every actor still waiting. -/
def killIfWaiting (p : Proc V M H) : Proc V M H :=
  if p.state = .waitIo ∨ p.state = .waitRecv then { p with state := .dead } else p

/-- One step of the scheduler. -/
def step (W : Words V M H) (s : Sched n V M H) : Event n M → Option (Sched n V M H)
  | .dequeue w =>
      match s.workers w, s.vm.runq with
      | .idle, pid :: rest => some ((s.setVm { s.vm with runq := rest }).setWorker w (.picked pid))
      | _, _ => none
  | .check w =>
      match s.workers w with
      | .picked pid =>
          match s.vm.procs pid with
          | some p => some (s.setWorker w (if p.state = .running then .running pid else .idle))
          | none => some (s.setWorker w .idle)
      | _ => none
  | .yield w => (s.runningProc w).map fun (pid, _) => s.setWorker w (.yielding pid)
  | .yieldEnqueue w =>
      match s.workers w with
      | .yielding pid => some ((s.setVm (s.vm.runqEnqueue pid)).setWorker w .idle)
      | _ => none
  | .builtin w id k now now' =>
      if id = .spawn then none else stepBuiltin W s w id k now now'
  | .spawn w => stepSpawn W s w
  | .spawnEnqueue w => stepSpawnEnqueue W s w
  | .ioBlock w =>
      (s.runningProc w).map fun (pid, p) =>
        (s.setVm (s.vm.setProc pid { p with state := .waitIo, hasAcc := true })).setWorker w
          (.registering pid)
  | .ioRegister w =>
      match s.workers w with
      | .registering pid =>
          (s.vm.procs pid).map fun p =>
            (s.setVm (s.vm.setProc pid { p with waitRegistered := true })).setWorker w .idle
      | _ => none
  | .die w =>
      (s.runningProc w).map fun (pid, p) =>
        (s.setVm (s.vm.setProc pid { p with state := .dead, waitRegistered := false })).setWorker w
          .idle
  | .entryReturn w =>
      (s.runningProc w).bind fun (pid, _) =>
        if pid = s.mainPid then some { s.setWorker w .idle with entryDone := true } else none
  | .deliver target frag =>
      (s.vm.liveProc target).map fun t =>
        let (t', wake) := mboxAppend t frag
        let vm := s.vm.setProc target t'
        s.setVm (if wake then vm.runqEnqueue target else vm)
  | .clearWaits =>
      some (s.setVm { s.vm with
        procs := fun i => (s.vm.procs i).map fun p => { p with waitRegistered := false } })
  | .killWaiting =>
      some (s.setVm { s.vm with procs := fun i => (s.vm.procs i).map killIfWaiting })
  | .ioWake pid =>
      (s.vm.procs pid).bind fun p =>
        if p.waitRegistered = true ∧ p.state = .waitIo then
          some (s.setVm ((s.vm.setProc pid
            { p with state := .running, waitRegistered := false }).runqEnqueue pid))
        else none
  | .deadlineScan pid now =>
      match s.poller with
      | .scanning =>
          (s.vm.procs pid).map fun p =>
            let (q, fired) := deadlineFire now p
            { s.setVm (s.vm.setProc pid q) with poller := if fired then .fired pid else .scanning }
      | _ => none
  | .scanUnregister =>
      match s.poller with
      | .fired pid =>
          (s.vm.procs pid).map fun p =>
            { s.setVm (s.vm.setProc pid { p with waitRegistered := false }) with
              poller := .unregistered pid }
      | _ => none
  | .scanEnqueue =>
      match s.poller with
      | .unregistered pid => some { s.setVm (s.vm.runqEnqueue pid) with poller := .scanning }
      | _ => none

/-- The start of a run: the entry actor is in the table and in the queue. -/
def init (n : Nat) (main : Proc V M H) (vm : Vm V M H) : Sched n V M H where
  vm := { vm with
    procs := fun i => if i = main.pid then
      some { main with state := .running, mbox := .empty, peekIndex := 0 } else none
    nextPid := main.pid + 1
    runq := [main.pid] }
  mainPid := main.pid
  entryDone := false
  workers := fun _ => .idle
  poller := .scanning
  scans := fun _ => .fresh

end Sched

end TinyActor.Runtime
