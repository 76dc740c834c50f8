/-
A sleep is as long as it was asked to be.

A sleep tells its first execution from the later ones by the I/O deadline of the actor, so it is
right only if nothing leaves that deadline armed.  A connect arms it as well, but it disarms it
first whenever it is executed, and every way it ends keeps it so; the other calls do not touch it.
What an unfinished call may have left there is the invariant, by the operation.
-/
import Mathlib.Logic.Relation
import TinyActor.Runtime.Blocking

namespace TinyActor.Runtime.Blocking

variable {V M H : Type}

/-! ### What one execution does to the deadline -/

theorem unwatch_deadline (io : Io) (fd : Int) : (io.unwatch fd).waitDeadlineMs = io.waitDeadlineMs := by
  rw [Io.unwatch]
  split <;> rfl

theorem whenReady_deadline (events : Events) (fd : Int) (answer : Except Errno Answer) (io : Io) :
    (whenReady events fd answer io).2.waitDeadlineMs = io.waitDeadlineMs := by
  unfold whenReady
  split <;> rfl

/-- The executions of a sleep: over at once, the first one of a wait, the last one, and one in
between. -/
theorem timeSleep_cases (now : Int) (arg : Option Int) (io : Io) :
    ((∀ ms, arg = some ms → ms ≤ 0) ∧ (timeSleep now arg io).1.isSome ∧
      (timeSleep now arg io).2 = io) ∨
    ∃ ms, arg = some ms ∧ 0 < ms ∧
      ((io.waitDeadlineMs < 0 ∧
        timeSleep now arg io = (none, (io.arm (now + ms)).watchFd (-1) .none)) ∨
      (0 ≤ io.waitDeadlineMs ∧ io.waitDeadlineMs ≤ now ∧
        timeSleep now arg io = (some (.int 0), io.disarm)) ∨
      (0 ≤ io.waitDeadlineMs ∧ now < io.waitDeadlineMs ∧ timeSleep now arg io = (none, io))) := by
  cases arg with
  | none => exact .inl ⟨fun ms h => (by cases h), rfl, rfl⟩
  | some ms =>
      by_cases hms : ms ≤ 0
      · have heq : timeSleep now (some ms) io = (some (.int 0), io) := if_pos hms
        rw [heq]
        exact .inl ⟨fun k hk => (by cases hk; exact hms), rfl, rfl⟩
      · refine .inr ⟨ms, rfl, by omega, ?_⟩
        have heq : timeSleep now (some ms) io = _ := if_neg hms
        rw [heq]
        by_cases hfirst : io.waitDeadlineMs < 0
        · exact .inl ⟨hfirst, if_pos hfirst⟩
        · rw [if_neg hfirst]
          by_cases hlate : now ≥ io.waitDeadlineMs
          · exact .inr (.inl ⟨by omega, hlate, if_pos hlate⟩)
          · exact .inr (.inr ⟨by omega, by omega, if_neg hlate⟩)

/-- A result that is final leaves the deadline disarmed. -/
def Disarms {S : Type} (r : Result S) : Prop := r.1.isSome → r.2.2.waitDeadlineMs = -1

theorem netConnectFinish_disarms {out : Outcomes} {pid : Nat} {ns : NetState} {io : Io}
    {r : Result NetState} (h : netConnectFinish out pid ns io = some r) : Disarms r := by
  obtain ⟨e, -, rfl⟩ := Option.map_eq_some_iff.mp h
  intro hsome
  dsimp only at hsome ⊢
  split at hsome
  · rename_i hlate
    rw [if_pos hlate]
    rfl
  · rename_i hlate
    rw [if_neg hlate]
    split at hsome
    · rfl
    · rfl
    · cases hsome
    · cases hsome
    · rfl

theorem netConnectSockaddr_disarms {out : Outcomes} {pid : Nat} {deadline : Int} {ns : NetState}
    {io : Io} (hio : io.waitDeadlineMs = -1) :
    Disarms (netConnectSockaddr out pid deadline ns io) := by
  unfold netConnectSockaddr
  split
  · exact fun _ => hio
  · split
    · exact fun _ => hio
    · exact fun _ => hio
    · split
      · exact fun h => by cases h
      · exact fun _ => hio
    · split
      · exact fun h => by cases h
      · exact fun _ => hio
    · exact fun _ => hio

theorem netConnectDnsEnqueue_disarms {out : Outcomes} {pid : Nat} {timeoutMs : Int} {ns : NetState}
    {io : Io} (hio : io.waitDeadlineMs = -1) :
    Disarms (netConnectDnsEnqueue out pid timeoutMs ns io) := by
  unfold netConnectDnsEnqueue
  split
  · exact fun _ => hio
  · split
    · exact fun _ => hio
    · split
      · exact fun _ => hio
      · split
        · exact fun _ => hio
        · exact fun h => by cases h

theorem netConnectPending_disarms {out : Outcomes} {queued : Bool} {rp : NetResolve} {ns : NetState}
    {io : Io} : Disarms (netConnectPending out queued rp ns io) := by
  unfold netConnectPending
  split
  · exact fun _ => rfl
  · exact fun h => by cases h

theorem netConnectResolved_disarms {out : Outcomes} {pid : Nat} {r : NetResolve} {ns : NetState}
    {io : Io} (hio : io.waitDeadlineMs = -1) : Disarms (netConnectResolved out pid r ns io) := by
  have hio' : (io.unwatch r.pipeR).waitDeadlineMs = -1 := by rw [unwatch_deadline, hio]
  unfold netConnectResolved
  dsimp only
  split
  · exact fun _ => rfl
  · split
    · exact fun _ => hio'
    · exact netConnectSockaddr_disarms hio'

/-- **Every way a connect ends leaves the deadline disarmed**, whatever it found there. -/
theorem netConnectWith_disarms (out : Outcomes) (timeoutMs : Int) (pid : Nat) (ns : NetState)
    (io : Io) : Disarms (netConnectWith out timeoutMs pid ns io) := by
  have hio : io.disarm.waitDeadlineMs = -1 := rfl
  unfold netConnectWith
  dsimp only
  split
  · exact netConnectResolved_disarms hio
  · split
    · exact netConnectPending_disarms
    · split
      · exact netConnectPending_disarms
      · unfold netConnectStart
        split
        · rename_i hfinish
          exact netConnectFinish_disarms hfinish
        · split
          · exact netConnectSockaddr_disarms hio
          · exact netConnectDnsEnqueue_disarms hio

/-- A connect that is executed again finds the registry. -/
theorem netConnect_disarms {out : Outcomes} {ms : Int} {pid : Nat} {net : Option NetState} {io : Io}
    (hnet : net.isSome) : Disarms (netConnect out (some ms) pid net io) := by
  obtain ⟨ns, rfl⟩ := Option.isSome_iff_exists.mp hnet
  exact netConnectWith_disarms out ms pid ns io

/-! ### The invariant -/

/-- What an unfinished call may have left. -/
def Op.Left (since deadline : Int) (hasNet : Bool) : Op → Prop
  | .sleep arg => ∃ ms, arg = some ms ∧ 0 < ms ∧ (deadline < 0 ∨ since + ms ≤ deadline)
  | .connect timeoutMs => timeoutMs.isSome ∧ hasNet
  | .accept _ | .read _ | .write _ _ => deadline = -1

structure Orderly (a : Actor V M H) : Prop where
  idle : a.call = none → a.io.waitDeadlineMs = -1
  left : ∀ c, a.call = some c → c.op.Left c.since a.io.waitDeadlineMs a.net.isSome
  since : ∀ c, a.call = some c → c.since ≤ a.clock
  mailbox : ∀ c, a.call = some c → a.proc.mbox.frags = c.had ++ c.came

/-- What a call finds before it is executed, for the first time or again. -/
structure Finds (a : Actor V M H) (op : Op) : Prop where
  fresh : a.call = none → a.io.waitDeadlineMs = -1
  left : a.call ≠ none → op.Left (a.callOf op).since a.io.waitDeadlineMs a.net.isSome
  isOp : (a.callOf op).op = op
  since : (a.callOf op).since ≤ a.clock
  mailbox : a.proc.mbox.frags = (a.callOf op).had ++ (a.callOf op).came

theorem Orderly.finds {a : Actor V M H} (h : Orderly a) {op : Op} (hop : a.canExecute op) :
    Finds a op := by
  cases hc : a.call with
  | none =>
      have hcall : a.callOf op = ⟨op, a.clock, a.proc.mbox.frags, []⟩ := by
        rw [Actor.callOf, hc, Option.getD_none]
      refine ⟨h.idle, fun hne => absurd hc hne, by rw [hcall], Int.le_of_eq (congrArg Call.since hcall), ?_⟩
      rw [hcall, List.append_nil]
  | some c =>
      have hcall : a.callOf op = c := by rw [Actor.callOf, hc, Option.getD_some]
      have hcop := hop.2 c hc
      refine ⟨h.idle, fun _ => ?_, by rw [hcall, hcop], ?_, ?_⟩
      · rw [hcall, ← hcop]
        exact h.left c hc
      · rw [hcall]
        exact h.since c hc
      · rw [hcall]
        exact h.mailbox c hc

section Execute

variable {a : Actor V M H} {op : Op} {out : Outcomes}

/-- What is executed once only finds the deadline disarmed. -/
theorem Finds.disarmed (h : Finds a op)
    (honce : ¬ op.Left (a.callOf op).since a.io.waitDeadlineMs a.net.isSome) :
    a.io.waitDeadlineMs = -1 :=
  h.fresh (not_not.mp fun hne => honce (h.left hne))

theorem Finds.disarmed_of_ready (h : Finds a op)
    (hop : ∀ since deadline hasNet, op.Left since deadline hasNet → deadline = -1) :
    a.io.waitDeadlineMs = -1 := by
  by_cases hc : a.call = none
  · exact h.fresh hc
  · exact hop _ _ _ (h.left hc)

theorem Finds.execute_disarms (h : Finds a op) :
    Disarms (execute out a.proc.pid a.net a.io op) := by
  intro hsome
  cases op with
  | sleep arg =>
      change (timeSleep out.now arg a.io).1.isSome at hsome
      change (timeSleep out.now arg a.io).2.waitDeadlineMs = -1
      rcases timeSleep_cases out.now arg a.io with ⟨hms, -, hio⟩ | ⟨ms, harg, hpos, hcases⟩
      · rw [hio]
        refine h.disarmed ?_
        rintro ⟨ms, harg, hpos, -⟩
        exact absurd (hms ms harg) (by omega)
      · rcases hcases with ⟨-, heq⟩ | ⟨-, -, heq⟩ | ⟨-, -, heq⟩
        · rw [heq] at hsome
          cases hsome
        · rw [heq]
          rfl
        · rw [heq] at hsome
          cases hsome
  | connect timeoutMs =>
      by_cases hagain : timeoutMs.isSome ∧ a.net.isSome
      · obtain ⟨ms, rfl⟩ := Option.isSome_iff_exists.mp hagain.1
        exact netConnect_disarms hagain.2 hsome
      · have hio : a.io.waitDeadlineMs = -1 := h.disarmed hagain
        change (netConnect out timeoutMs a.proc.pid a.net a.io).1.isSome at hsome
        change (netConnect out timeoutMs a.proc.pid a.net a.io).2.2.waitDeadlineMs = -1
        unfold netConnect at hsome ⊢
        split at hsome
        · exact hio
        · exact hio
        · exact netConnectWith_disarms _ _ _ _ _ hsome
  | accept fd =>
      have hio := h.disarmed_of_ready (fun _ _ _ hl => hl)
      exact (whenReady_deadline ..).trans hio
  | read fd =>
      have hio := h.disarmed_of_ready (fun _ _ _ hl => hl)
      change (netRead out fd a.io).2.waitDeadlineMs = -1
      unfold netRead
      split
      · exact hio
      · exact (whenReady_deadline ..).trans hio
  | write fd isString =>
      have hio := h.disarmed_of_ready (fun _ _ _ hl => hl)
      change (netWrite out fd isString a.io).2.waitDeadlineMs = -1
      unfold netWrite
      split
      · exact hio
      · exact (whenReady_deadline ..).trans hio

theorem Finds.execute_left (h : Finds a op) (hclock : a.clock ≤ out.now)
    (hnone : (execute out a.proc.pid a.net a.io op).1 = none) :
    op.Left (a.callOf op).since (execute out a.proc.pid a.net a.io op).2.2.waitDeadlineMs
      (execute out a.proc.pid a.net a.io op).2.1.isSome := by
  have hsince := h.since
  cases op with
  | sleep arg =>
      change (timeSleep out.now arg a.io).1 = none at hnone
      change Op.Left _ (timeSleep out.now arg a.io).2.waitDeadlineMs _ (.sleep arg)
      rcases timeSleep_cases out.now arg a.io with ⟨-, hsome, -⟩ | ⟨ms, harg, hpos, hcases⟩
      · rw [hnone] at hsome
        cases hsome
      · refine ⟨ms, harg, hpos, ?_⟩
        rcases hcases with ⟨-, heq⟩ | ⟨-, -, heq⟩ | ⟨harmed, -, heq⟩
        · rw [heq]
          right
          change _ ≤ out.now + ms
          omega
        · rw [heq] at hnone
          cases hnone
        · rw [heq]
          have hagain : a.call ≠ none := fun hc => by
            have := h.fresh hc
            omega
          obtain ⟨k, hk, -, hleft⟩ := h.left hagain
          rw [harg] at hk
          cases hk
          exact hleft
  | connect timeoutMs =>
      change (netConnect out timeoutMs a.proc.pid a.net a.io).1 = none at hnone
      change timeoutMs.isSome ∧ (netConnect out timeoutMs a.proc.pid a.net a.io).2.1.isSome
      unfold netConnect at hnone ⊢
      split at hnone
      · cases hnone
      · cases hnone
      · exact ⟨rfl, rfl⟩
  | accept fd =>
      exact (whenReady_deadline ..).trans (h.disarmed_of_ready (fun _ _ _ hl => hl))
  | read fd =>
      have hio := h.disarmed_of_ready (fun _ _ _ hl => hl)
      change (netRead out fd a.io).2.waitDeadlineMs = -1
      unfold netRead
      split
      · exact hio
      · exact (whenReady_deadline ..).trans hio
  | write fd isString =>
      have hio := h.disarmed_of_ready (fun _ _ _ hl => hl)
      change (netWrite out fd isString a.io).2.waitDeadlineMs = -1
      unfold netWrite
      split
      · exact hio
      · exact (whenReady_deadline ..).trans hio

/-- **A sleep that is over has lasted.** -/
theorem Finds.sleep_lasts {ms : Int} (h : Finds a (.sleep (some ms))) (hclock : a.clock ≤ out.now)
    (hzero : (execute out a.proc.pid a.net a.io (.sleep (some ms))).1 = some (.int 0)) :
    (a.callOf (.sleep (some ms))).since + ms ≤ out.now := by
  have hsince := h.since
  change (timeSleep out.now (some ms) a.io).1 = some (.int 0) at hzero
  rcases timeSleep_cases out.now (some ms) a.io with ⟨hms, -⟩ | ⟨k, hk, hpos, hcases⟩
  · have := hms ms rfl
    omega
  · cases hk
    rcases hcases with ⟨-, heq⟩ | ⟨harmed, hlate, -⟩ | ⟨-, -, heq⟩
    · rw [heq] at hzero
      cases hzero
    · have hagain : a.call ≠ none := fun hc => by
        have := h.fresh hc
        omega
      obtain ⟨k, hk, -, hleft⟩ := h.left hagain
      cases hk
      omega
    · rw [heq] at hzero
      cases hzero

end Execute

/-! ### Runs -/

section Runs

variable {W : Words V M H} {a b : Actor V M H}

theorem Orderly.executed (h : Orderly a) {op : Op} {out : Outcomes} (hop : a.canExecute op)
    (hclock : a.clock ≤ out.now) : Orderly (a.executed op out) := by
  have hf := h.finds hop
  cases hr : (execute out a.proc.pid a.net a.io op).1 with
  | some answer =>
      have hcall : (a.executed op out).call = none := by
        simp only [Actor.executed, hr, Option.isNone_some, Bool.false_eq_true, if_false]
      have hno : ∀ c, (a.executed op out).call ≠ some c := by
        intro c hc
        rw [hcall] at hc
        cases hc
      refine ⟨fun _ => ?_, fun c hc => absurd hc (hno c), fun c hc => absurd hc (hno c),
        fun c hc => absurd hc (hno c)⟩
      exact hf.execute_disarms (by rw [hr]; rfl)
  | none =>
      have hcall : (a.executed op out).call = some (a.callOf op) := by
        simp only [Actor.executed, hr, Option.isNone_none, if_true]
      have hmbox : (a.executed op out).proc.mbox = a.proc.mbox := by
        simp only [Actor.executed, hr, Option.isNone_none, if_true]
      refine ⟨fun hc => ?_, fun c hc => ?_, fun c hc => ?_, fun c hc => ?_⟩
      · rw [hcall] at hc
        cases hc
      · obtain rfl := Option.some.inj (hcall.symm.trans hc)
        rw [hf.isOp]
        exact hf.execute_left hclock hr
      · obtain rfl := Option.some.inj (hcall.symm.trans hc)
        exact Int.le_trans hf.since hclock
      · obtain rfl := Option.some.inj (hcall.symm.trans hc)
        rw [hmbox]
        exact hf.mailbox

/-- What keeps the call, the mailbox and the I/O fields keeps the order. -/
theorem Orderly.keep (h : Orderly a) (hcall : b.call = a.call) (hio : b.io = a.io)
    (hnet : a.net.isSome → b.net.isSome) (hclock : a.clock ≤ b.clock)
    (hmbox : a.call ≠ none → b.proc.mbox = a.proc.mbox) : Orderly b := by
  refine ⟨fun hc => ?_, fun c hc => ?_, fun c hc => ?_, fun c hc => ?_⟩
  · rw [hio]
    exact h.idle (hcall ▸ hc)
  · rw [hcall] at hc
    have hleft := h.left c hc
    rw [hio]
    cases hop : c.op with
    | connect timeoutMs =>
        rw [hop] at hleft
        exact ⟨hleft.1, hnet hleft.2⟩
    | _ =>
        rw [hop] at hleft
        exact hleft
  · rw [hcall] at hc
    exact Int.le_trans (h.since c hc) hclock
  · rw [hcall] at hc
    rw [hmbox (by rw [hc]; exact Option.some_ne_none c)]
    exact h.mailbox c hc

theorem Orderly.delivered (h : Orderly a) (frag : M) : Orderly (a.delivered frag) := by
  have hmbox : (a.delivered frag).proc.mbox.frags = a.proc.mbox.frags ++ [frag] := by
    simp only [Actor.delivered, mboxAppend]
    split <;> rfl
  refine ⟨fun hc => h.idle (Option.map_eq_none_iff.mp hc), fun c hc => ?_, fun c hc => ?_,
    fun c hc => ?_⟩
  · obtain ⟨c', hc', rfl⟩ := Option.map_eq_some_iff.mp hc
    exact h.left c' hc'
  · obtain ⟨c', hc', rfl⟩ := Option.map_eq_some_iff.mp hc
    exact h.since c' hc'
  · obtain ⟨c', hc', rfl⟩ := Option.map_eq_some_iff.mp hc
    rw [hmbox, h.mailbox c' hc', List.append_assoc]

theorem Orderly.step (h : Orderly a) (hs : Step W a b) : Orderly b := by
  cases hs with
  | tick hclock => exact h.keep rfl rfl id hclock (fun _ => rfl)
  | registry ns => exact h.keep rfl rfl (fun _ => rfl) (Int.le_refl _) (fun _ => rfl)
  | deliver frag => exact h.delivered frag
  | poll ready now =>
      unfold Actor.polled
      split
      · exact h.keep rfl rfl id (Int.le_refl _) (fun _ => rfl)
      · exact h
  | expire now =>
      refine h.keep rfl rfl id (Int.le_refl _) (fun _ => ?_)
      unfold deadlineFire
      split <;> rfl
  | receive _ hcall _ => exact h.keep rfl rfl id (Int.le_refl _) (fun hc => absurd hcall hc)
  | execute hop hclock => exact h.executed hop hclock

theorem Orderly.run (h : Orderly a) (hr : Relation.ReflTransGen (Step W) a b) : Orderly b := by
  induction hr with
  | refl => exact h
  | tail _ hs ih => exact ih.step hs

end Runs

/-- An actor before its first native call. -/
structure Fresh (a : Actor V M H) : Prop where
  disarmed : a.io.waitDeadlineMs = -1
  idle : a.call = none

theorem Fresh.orderly {a : Actor V M H} (h : Fresh a) : Orderly a := by
  have hno : ∀ c, a.call ≠ some c := by
    intro c hc
    rw [h.idle] at hc
    cases hc
  exact ⟨fun _ => h.disarmed, fun c hc => absurd hc (hno c), fun c hc => absurd hc (hno c),
    fun c hc => absurd hc (hno c)⟩

/-- **Sleeping.**  Whatever an actor has done and whatever has happened to it, a native call starts
with the I/O deadline disarmed; and a sleep that answers 0 does so no earlier than it was asked to,
counted from its first execution, with the mailbox as it was then and the messages that came
since. -/
theorem sleep_waits (W : Words V M H) (a₀ a : Actor V M H) (h₀ : Fresh a₀)
    (hr : Relation.ReflTransGen (Step W) a₀ a) :
    (a.call = none → a.io.waitDeadlineMs = -1) ∧
    ∀ (ms : Int) (out : Outcomes), a.canExecute (.sleep (some ms)) → a.clock ≤ out.now →
      (execute out a.proc.pid a.net a.io (.sleep (some ms))).1 = some (.int 0) →
      (a.callOf (.sleep (some ms))).since + ms ≤ out.now ∧
      (a.executed (.sleep (some ms)) out).proc.mbox.frags =
        (a.callOf (.sleep (some ms))).had ++ (a.callOf (.sleep (some ms))).came := by
  have h := h₀.orderly.run hr
  refine ⟨h.idle, fun ms out hop hclock hzero => ?_⟩
  have hf := h.finds hop
  refine ⟨hf.sleep_lasts hclock hzero, ?_⟩
  rw [← hf.mailbox]
  simp only [Actor.executed, hzero, Option.isNone_some, Bool.false_eq_true, if_false]

/-! ### A sleep with a message in between -/

def numberWords : Words Unit Nat Unit where
  nil := ()
  ofPid _ := ()
  getPid _ := 0
  ofInt _ := ()
  getInt _ := 0
  closureFid _ := none
  hasResource _ := false
  deepCopy _ _ := ((), ())
  fragCopy _ _ := 0
  sendCheck _ _ _ _ := true
  setFragOwner frag _ := frag
  setOwner _ _ _ := ()
  spawnCopy _ _ _ _ := none
  downMsg _ _ _ := ((), ())

/-- A system that gives nothing but the time. -/
def idleAt (now : Int) : Outcomes where
  now := now
  nowFinish := now
  nowFresh := now
  registryAlloc := false
  soError := none
  socket := .error .again
  connect := none
  entryAlloc := false
  numericHost := false
  resolveAlloc := false
  pipe := none
  strdup := false
  thread := false
  accepted := .error .again
  bufferAlloc := false
  received := .error .again
  written := .error .again

/-- An actor that starts to sleep at 5, gets a message and is woken at 16. -/
def sleeper : Actor Unit Nat Unit :=
  ⟨⟨1, .running, [], (), 0, 0, 0, (), false, .empty, 0, -1, [], false⟩, ⟨-1, -1, .none, none⟩, none, 5,
    none⟩

def sleeping : Actor Unit Nat Unit := sleeper.executed (.sleep (some 10)) (idleAt 5)

def woken : Actor Unit Nat Unit := (sleeping.delivered 7).polled false 16

theorem sleep_waits_message : 5 + 10 ≤ (idleAt 16).now ∧
    (woken.executed (.sleep (some 10)) (idleAt 16)).proc.mbox.frags = [7] := by
  have hrun : Relation.ReflTransGen (Step numberWords) sleeper woken := by
    have hsleep : Step numberWords sleeper (sleeper.executed (.sleep (some 10)) (idleAt 5)) :=
      .execute ⟨rfl, fun c hc => by cases hc⟩ (Int.le_refl _)
    exact .tail (.tail (.tail .refl hsleep) (.deliver 7)) (.poll false 16)
  refine (sleep_waits numberWords sleeper woken ⟨rfl, rfl⟩ hrun).2 10 (idleAt 16) ⟨rfl, ?_⟩
    (by decide) rfl
  intro c hc
  obtain rfl := Option.some.inj hc
  rfl

end TinyActor.Runtime.Blocking
