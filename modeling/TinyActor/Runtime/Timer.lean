/-
Timers: `lib/timer.c`.

The timers of a machine are one list, sorted by deadline.  Registering a timer puts
it behind those of the same deadline.  The firing pass takes the first timer off the
list while it is due, delivers its message with the lock released, and then takes the
lock again to put a periodic timer back or to free a timer that is done.  Actors
cancel and register in between, so a cancel has three places to find its timer in: on
the list, in the pass, or nowhere.

The pass is given twice: as the function it is when nothing comes in between, and,
over the same two lock-protected sections, as steps of a system in which the actors
take theirs.
-/
import Mathlib.Data.List.Basic

namespace TinyActor.Runtime.Timers

structure Timer (Msg : Type) where
  id : Nat
  targetPid : Nat
  /-- Zero for a timer that fires once. -/
  intervalMs : Int
  deadlineMs : Int
  frag : Msg
  /-- Cancelled while the pass had it. -/
  cancelRequested : Bool
deriving DecidableEq, Repr

structure TimerState (Msg : Type) where
  head : List (Timer Msg)
  nextId : Nat
  /-- The timer the pass has taken off the list. -/
  firing : Option (Timer Msg)
deriving DecidableEq, Repr

variable {Msg : Type}

/-! ### What the actors call -/

def timerInsert (t : Timer Msg) : List (Timer Msg) → List (Timer Msg)
  | [] => [t]
  | x :: xs => if x.deadlineMs ≤ t.deadlineMs then x :: timerInsert t xs else t :: x :: xs

/-- The locked section of `timer_register`. -/
def timerRegister (now : Int) (targetPid : Nat) (ms intervalMs : Int) (msg : Msg)
    (s : TimerState Msg) : TimerState Msg :=
  { s with
    nextId := s.nextId + 1
    head := timerInsert ⟨s.nextId + 1, targetPid, intervalMs, now + ms, msg, false⟩ s.head }

/-- `send_after` and `send_interval`. -/
inductive Request (Msg : Type)
  | after (pid : Nat) (ms : Int) (msg : Msg)
  | interval (pid : Nat) (ms : Int) (msg : Msg)
deriving Repr

/-- The interval a request registers: none must be taken for a one-shot's. -/
def Request.intervalMs : Request Msg → Int
  | after _ _ _ => 0
  | interval _ ms _ => if ms < 1 then 1 else ms

def timerCSend (now : Int) (s : TimerState Msg) : Request Msg → TimerState Msg
  | .after pid ms msg => timerRegister now pid (if ms < 0 then 0 else ms) 0 msg s
  | .interval pid ms msg =>
      let ms := if ms < 1 then 1 else ms
      timerRegister now pid ms ms msg s

/-- The result, and the timers afterwards. -/
def timerCCancel (id : Int) (s : TimerState Msg) : Bool × TimerState Msg :=
  if id ≤ 0 then (false, s)
  else if s.head.any fun t => t.id = id then
    (true, { s with head := s.head.eraseP fun t => t.id = id })
  else
    match s.firing with
    | some t =>
        if t.id = id ∧ t.intervalMs > 0 then
          (true, { s with firing := some { t with cancelRequested := true } })
        else (false, s)
    | none => (false, s)

/-! ### The firing pass -/

/-- The first section of a round: take the first timer if it is due. -/
def popDue (now : Int) (s : TimerState Msg) : Option (Timer Msg × TimerState Msg) :=
  match s.head with
  | [] => none
  | t :: ts => if t.deadlineMs > now then none else some (t, { s with head := ts, firing := some t })

/-- Whether a timer that has fired goes back on the list. -/
def Timer.rearms (t : Timer Msg) (targetDead : Bool) : Bool :=
  t.intervalMs > 0 && !targetDead && !t.cancelRequested

/-- A timer put back at `now`: due one interval later, however late it was. -/
def Timer.rearmed (now : Int) (t : Timer Msg) : Timer Msg :=
  { t with deadlineMs := now + t.intervalMs }

/-- The second section: the timer goes back, or is dropped. -/
def settle (now : Int) (targetDead : Bool) (t : Timer Msg) (s : TimerState Msg) : TimerState Msg :=
  if t.rearms targetDead then
    { s with firing := none, head := timerInsert (t.rearmed now) s.head }
  else { s with firing := none }

/-- `timer_fire_expired` with nothing in between: the timers whose messages are
delivered, in order.  `dead t` says that the target of `t` was found dead. -/
def timerFireExpired (dead : Timer Msg → Bool) (now : Int) :
    Nat → TimerState Msg → Option (List (Timer Msg) × TimerState Msg)
  | 0, _ => none
  | fuel + 1, s =>
      match popDue now s with
      | none => some ([], s)
      | some (t, s) =>
          (timerFireExpired dead now fuel (settle now (dead t) t s)).map
            fun (ts, s) => (if dead t then ts else t :: ts, s)

/-! ### Actors and the pass, side by side -/

/-- Where the pass is. -/
inductive Pass
  | idle
  | scanning (now : Int)
  | delivering (now : Int)
  | settling (now : Int) (targetDead : Bool)
deriving DecidableEq, Repr

inductive Event
  | registered (id : Nat) (intervalMs : Int)
  /-- The pass has taken the timer off the list to deliver it. -/
  | started (id : Nat)
  | delivered (id : Nat)
  /-- The pass has found the target dead. -/
  | missed (id : Nat)
  /-- A cancel has returned 1. -/
  | cancelled (id : Nat)
deriving DecidableEq, Repr

structure World (Msg : Type) where
  state : TimerState Msg
  pass : Pass
  /-- The registrations that have left their section and have yet to read the id they
  return. -/
  returning : List Nat
  /-- The records that have been freed. -/
  freed : List Nat
  log : List Event
deriving DecidableEq, Repr

inductive Act (Msg : Type)
  | register (now : Int) (request : Request Msg)
  /-- `return t->id`, after the lock is released. -/
  | returnId (id : Nat)
  | begin (now : Int)
  | pop
  | deliver (targetDead : Bool)
  | settle
  | cancel (id : Int)
deriving Repr

namespace World

def init : World Msg where
  state := ⟨[], 0, none⟩
  pass := .idle
  returning := []
  freed := []
  log := []

/-- One section. -/
def step (w : World Msg) : Act Msg → Option (World Msg)
  | .register now request =>
      let state := timerCSend now w.state request
      some { w with
        state := state
        returning := state.nextId :: w.returning
        log := w.log ++ [.registered state.nextId request.intervalMs] }
  | .returnId id =>
      if id ∈ w.returning then some { w with returning := w.returning.erase id } else none
  | .begin now => if w.pass = .idle then some { w with pass := .scanning now } else none
  | .pop =>
      match w.pass with
      | .scanning now =>
          match popDue now w.state with
          | none => some { w with pass := .idle }
          | some (t, state) =>
              some { w with
                state := state
                pass := .delivering now
                log := w.log ++ [.started t.id] }
      | _ => none
  | .deliver targetDead =>
      match w.pass, w.state.firing with
      | .delivering now, some t =>
          some { w with
            pass := .settling now targetDead
            log := w.log ++ [if targetDead then .missed t.id else .delivered t.id] }
      | _, _ => none
  | .settle =>
      match w.pass, w.state.firing with
      | .settling now targetDead, some t =>
          some { w with
            state := Timers.settle now targetDead t w.state
            pass := .scanning now
            freed := if t.rearms targetDead then w.freed else t.id :: w.freed }
      | _, _ => none
  | .cancel id =>
      let listed := w.state.head.any fun t => t.id = id
      let (done, state) := timerCCancel id w.state
      some { w with
        state := state
        freed := if done && listed then id.toNat :: w.freed else w.freed
        log := if done then w.log ++ [.cancelled id.toNat] else w.log }

/-- The timers there are records of, on the list and in the pass. -/
def timers (w : World Msg) : List (Timer Msg) := w.state.head ++ w.state.firing.toList

/-- The records a section may read. -/
def reads (w : World Msg) : Act Msg → List Nat
  | .returnId id => [id]
  | .begin _ => []
  | _ => w.timers.map Timer.id

/-- A timer nothing more can come of: the pass does not have it, and it was cancelled, its
target was found dead, or it was to fire once and has. -/
def Over (w : World Msg) (n : Nat) : Prop :=
  (∀ t ∈ w.state.firing, t.id ≠ n) ∧
    (.cancelled n ∈ w.log ∨ .missed n ∈ w.log ∨ .registered n 0 ∈ w.log ∧ .started n ∈ w.log)

end World

end TinyActor.Runtime.Timers
