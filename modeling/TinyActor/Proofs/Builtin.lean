/-
What a primitive leaves on the operand stack.

Executing a primitive once is described by two lemmas: what it leaves when it
completes, and what it publishes when it blocks.  A whole completion, with the
executions that blocked and the wake-ups between them, is then an induction over
the number of suspensions.

All primitives but one leave the stack without their pushed arguments.  The
exception is `recv_after`: the interpreter flushes its operand to the stack on
every execution, and the builtin takes it off only on the execution that arms the
deadline.  When it is executed again after a wait, the operand stays.
-/
import TinyActor.Proofs.Mailbox
import TinyActor.Runtime.Builtin

namespace TinyActor.Runtime

variable {V M H : Type}

/-! ### Reading the machine -/

namespace Vm

@[simp] theorem setProc_self (vm : Vm V M H) (i : Nat) (p : Proc V M H) :
    (vm.setProc i p).procs i = some p := by
  simp [setProc]

theorem setProc_ne (vm : Vm V M H) {i j : Nat} (p : Proc V M H) (h : j ≠ i) :
    (vm.setProc i p).procs j = vm.procs j := by
  simp [setProc, h]

@[simp] theorem runqEnqueue_procs (vm : Vm V M H) (i : Nat) :
    (vm.runqEnqueue i).procs = vm.procs := rfl

end Vm

/-- What no other actor, and no delivery, touches of an actor: its stack and its
accumulator. -/
structure SameRegs (p q : Proc V M H) : Prop where
  stack : q.stack = p.stack
  acc : q.acc = p.acc

/-- Every actor of the first machine is in the second, with the same registers. -/
def RegsKept (vm vm' : Vm V M H) : Prop :=
  ∀ i p, vm.procs i = some p → ∃ p', vm'.procs i = some p' ∧ SameRegs p p'

variable {W : Words V M H} {p q : Proc V M H} {vm vm' : Vm V M H} {b : BStatus} {id : Builtin}
  {self now now' pc base cbase : Nat}

namespace RegsKept

theorem refl (vm : Vm V M H) : RegsKept vm vm :=
  fun _ p hp => ⟨p, hp, rfl, rfl⟩

theorem trans {vm'' : Vm V M H} (h : RegsKept vm vm') (h' : RegsKept vm' vm'') :
    RegsKept vm vm'' := by
  intro i p hp
  obtain ⟨q, hq, hpq⟩ := h i p hp
  obtain ⟨r, hr, hqr⟩ := h' i q hq
  exact ⟨r, hr, hqr.stack.trans hpq.stack, hqr.acc.trans hpq.acc⟩

theorem setProc {i : Nat} (hi : vm.procs i = some p) (hpq : SameRegs p q) :
    RegsKept vm (vm.setProc i q) := by
  intro j r hj
  by_cases h : j = i
  · subst h
    rw [hi] at hj
    obtain rfl := Option.some.inj hj
    exact ⟨q, Vm.setProc_self _ _ _, hpq⟩
  · exact ⟨r, by rw [Vm.setProc_ne _ _ h]; exact hj, rfl, rfl⟩

end RegsKept

theorem mboxAppend_sameRegs (p : Proc V M H) (frag : M) : SameRegs p (mboxAppend p frag).1 := by
  unfold mboxAppend
  dsimp only
  split <;> exact ⟨rfl, rfl⟩

theorem moveOwner_regsKept (W : Words V M H) (vm : Vm V M H) (s : Nat) (msg : V) (t : Nat) :
    RegsKept vm (moveOwner W vm s msg t) := by
  unfold moveOwner
  split
  · next p hp => exact RegsKept.setProc hp ⟨rfl, rfl⟩
  · exact .refl vm

/-- A delivery changes no actor's stack and no accumulator, the sender's own
included. -/
theorem mboxDeliver_regsKept {s t : Nat} {msg : V} (h : mboxDeliver W vm s t msg = some vm') :
    RegsKept vm vm' := by
  unfold mboxDeliver at h
  split at h
  · next ps pt hs ht =>
      dsimp only at h
      split at h
      · exact absurd h (by simp)
      split at h
      · obtain rfl := Option.some.inj h
        exact .refl vm
      obtain rfl := Option.some.inj h
      have happ := fun frag => RegsKept.setProc ht (mboxAppend_sameRegs pt frag)
      have hown := fun frag => (happ frag).trans (moveOwner_regsKept W _ s msg t)
      -- whether the target is queued as well does not show in its record
      split <;> split <;> first | exact hown _ | exact happ _
  · obtain rfl := Option.some.inj h
    exact .refl vm

theorem liveProc_eq_some {i : Nat} (h : vm.liveProc i = some p) : vm.procs i = some p := by
  unfold Vm.liveProc at h
  exact (Option.filter_eq_some_iff.mp h).1

/-! ### One execution -/

/-- No deadline of a `recv_after` is pending or has fired. -/
def Unarmed (p : Proc V M H) : Prop :=
  p.recvDeadlineMs < 0 ∧ p.recvDeadlineMs ≠ RECV_AFTER_EXPIRED

instance (p : Proc V M H) : Decidable (Unarmed p) := inferInstanceAs (Decidable (_ ∧ _))

/-- The stack a completed execution leaves. -/
def stackAfter (p : Proc V M H) : Builtin → List V
  | .send => p.stack.drop 1
  | .recvAfter => if Unarmed p then p.stack else p.acc :: p.stack
  | _ => p.stack

/-- The copy of the message at a position of the mailbox. -/
def messageAt (W : Words V M H) (p : Proc V M H) (i : Nat) : V :=
  match p.mbox.nth i with
  | some frag => (W.deepCopy p.heap frag).1
  | none => W.nil

/-- What a primitive is for: the value it yields in the state in which it
completes. -/
def builtinResult (W : Words V M H) (vm : Vm V M H) (p : Proc V M H) : Builtin → V
  | .self => W.ofPid p.pid
  | .spawn => W.ofPid vm.nextPid
  | .send | .recvCommit => W.nil
  | .recv => messageAt W p 0
  | .recvAfter =>
      if p.recvDeadlineMs ≠ RECV_AFTER_EXPIRED ∧ 0 < p.mbox.count then messageAt W p 0
      else W.nil
  | .recvPeek => messageAt W p p.peekIndex
  | .monitor => W.ofInt (vm.nextRef + 1)

theorem mboxPop_eq {v : V} (h : mboxPop W p = some (v, q)) :
    v = messageAt W p 0 ∧ q.stack = p.stack := by
  unfold mboxPop at h
  obtain ⟨⟨frag, mbox⟩, hpop, heq⟩ := Option.map_eq_some_iff.mp h
  obtain ⟨rfl, rfl⟩ := Prod.mk.inj heq
  refine ⟨?_, rfl⟩
  simp [messageAt, Mailbox.nth, Mailbox.pop_eq_some hpop]

theorem bRecv_suspend (h : bRecv W p = some (.suspend, q)) : q = p := by
  unfold bRecv at h
  split at h
  · exact (Prod.mk.inj (Option.some.inj h)).2.symm
  · obtain ⟨r, -, heq⟩ := Option.map_eq_some_iff.mp h
    exact absurd (Prod.mk.inj heq).1 (by simp)

theorem bRecv_ok (h : bRecv W p = some (b, q)) (hb : b ≠ .suspend) :
    q.stack = messageAt W p 0 :: p.stack := by
  unfold bRecv at h
  split at h
  · exact absurd (Prod.mk.inj (Option.some.inj h)).1.symm hb
  · obtain ⟨⟨msg, r⟩, hpop, heq⟩ := Option.map_eq_some_iff.mp h
    obtain ⟨-, rfl⟩ := Prod.mk.inj heq
    obtain ⟨rfl, hst⟩ := mboxPop_eq hpop
    simp [procPush, hst]

private theorem recvAfterArmed_eq {now : Int} (h : recvAfterArmed W now p = some (b, q)) :
    b = .ok ∧ q.stack = (if 0 < p.mbox.count then messageAt W p 0 else W.nil) :: p.stack ∨
      b = .suspend ∧ q = p ∧ now < p.recvDeadlineMs := by
  unfold recvAfterArmed at h
  split at h
  · next hc =>
      obtain ⟨⟨msg, r⟩, hpop, heq⟩ := Option.map_eq_some_iff.mp h
      obtain ⟨rfl, rfl⟩ := Prod.mk.inj heq
      obtain ⟨rfl, hst⟩ := mboxPop_eq hpop
      exact .inl ⟨rfl, by simp [procPush, hst, hc]; rfl⟩
  · next hc =>
      split at h
      · obtain ⟨rfl, rfl⟩ := Prod.mk.inj (Option.some.inj h)
        exact .inl ⟨rfl, by simp [procPush, hc]⟩
      · next hd =>
          obtain ⟨rfl, rfl⟩ := Prod.mk.inj (Option.some.inj h)
          exact .inr ⟨rfl, rfl, by omega⟩

/-- What `recv_after` does with the operand the interpreter flushed.  It is taken
off only by the execution that arms the deadline. -/
theorem bRecvAfter_eq (vm : Vm V M H) {ms : V}
    (h : bRecvAfter W now now' (procPush p ms) = some (b, q)) :
    b = .ok ∧ q.stack = builtinResult W vm p .recvAfter ::
        (if Unarmed p then p.stack else ms :: p.stack) ∨
      b = .suspend ∧ 0 ≤ q.recvDeadlineMs ∧ (q.stack = p.stack ∨ q.stack = ms :: p.stack) := by
  unfold bRecvAfter at h
  by_cases hexp : p.recvDeadlineMs = RECV_AFTER_EXPIRED
  · rw [if_pos (show (procPush p ms).recvDeadlineMs = _ from hexp)] at h
    obtain ⟨rfl, rfl⟩ := Prod.mk.inj (Option.some.inj h)
    exact .inl ⟨rfl, by simp [procPush, builtinResult, Unarmed, hexp]⟩
  rw [if_neg (show ¬ (procPush p ms).recvDeadlineMs = _ from hexp)] at h
  by_cases hneg : p.recvDeadlineMs < 0
  · rw [if_pos (show (procPush p ms).recvDeadlineMs < 0 from hneg)] at h
    simp only [procPop, procPush, Option.bind_some] at h
    have hun : Unarmed p := ⟨hneg, hexp⟩
    rcases recvAfterArmed_eq h with ⟨rfl, hst⟩ | ⟨rfl, rfl, hd⟩
    · refine .inl ⟨rfl, ?_⟩
      rw [hst, if_pos hun]
      simp [builtinResult, hexp, messageAt]
    · refine .inr ⟨rfl, ?_, .inl rfl⟩
      omega
  · rw [if_neg (show ¬ (procPush p ms).recvDeadlineMs < 0 from hneg)] at h
    have hun : ¬ Unarmed p := fun hu => hneg hu.1
    rcases recvAfterArmed_eq h with ⟨rfl, hst⟩ | ⟨rfl, rfl, hd⟩
    · refine .inl ⟨rfl, ?_⟩
      rw [hst, if_neg hun]
      simp only [builtinResult, ne_eq, hexp, not_false_eq_true, true_and]
      rfl
    · exact .inr ⟨rfl, by simpa [procPush] using hneg, .inr rfl⟩

theorem bRecvPeek_ok (h : bRecvPeek W p = some (.ok, q)) :
    q.stack = messageAt W p p.peekIndex :: p.stack := by
  unfold bRecvPeek at h
  split at h
  · obtain ⟨frag, hnth, heq⟩ := Option.map_eq_some_iff.mp h
    by_cases hres : W.hasResource frag = true
    · rw [if_pos hres] at heq
      exact absurd (Prod.mk.inj heq).1 (by simp)
    · rw [if_neg hres] at heq
      obtain ⟨-, rfl⟩ := Prod.mk.inj heq
      simp [procPush, messageAt, hnth]
  · exact absurd (Prod.mk.inj (Option.some.inj h)).1 (by simp)

/-- `monitor` takes its operand off and pushes the reference, whoever the target
is: the actor itself, another one, or nobody. -/
theorem bMonitor_ok {a : V} (h : bMonitor W vm self (procPush p a) = some vm') :
    ∃ q, vm'.procs self = some q ∧ q.stack = W.ofInt (vm.nextRef + 1) :: p.stack := by
  simp only [bMonitor, procPop, procPush, Option.bind_some] at h
  obtain ⟨q, hq, rfl⟩ := Option.map_eq_some_iff.mp h
  refine ⟨_, Vm.setProc_self _ _ _, ?_⟩
  suffices hst : q.stack = p.stack by simp [hst]
  set vm₁ : Vm V M H := { vm.setProc self p with nextRef := vm.nextRef + 1 } with hvm₁
  have hp₁ : vm₁.procs self = some p := Vm.setProc_self vm self p
  -- the stack of the actor itself through the rest: `hk` is what each branch keeps
  suffices hk : ∀ vm₂, RegsKept vm₁ vm₂ → vm₂.procs self = some q → q.stack = p.stack by
    split at hq
    · next t ht =>
        refine hk _ ?_ hq
        exact RegsKept.setProc (liveProc_eq_some ht) ⟨rfl, rfl⟩
    · refine hk _ ?_ hq
      have hheap := RegsKept.setProc (q := { p with heap := (W.downMsg p.heap (vm.nextRef + 1)
        (W.getPid a)).2 }) hp₁ ⟨rfl, rfl⟩
      cases hd : mboxDeliver W _ self self (W.downMsg p.heap (vm.nextRef + 1) (W.getPid a)).1 with
      | none => exact hheap
      | some vm₂ => exact hheap.trans (mboxDeliver_regsKept hd)
  intro vm₂ hkept hq₂
  obtain ⟨r, hr, hregs⟩ := hkept self p hp₁
  rw [hr] at hq₂
  obtain rfl := Option.some.inj hq₂
  exact hregs.stack

theorem doSpawn_done (h : doSpawn W vm self p pc base cbase = .done vm') :
    ∃ p', vm'.procs self = some p' ∧ p'.stack = p.stack ∧ p'.acc = W.ofPid vm.nextPid := by
  unfold doSpawn at h
  split at h
  · exact absurd h (by simp)
  split at h
  · exact absurd h (by simp)
  dsimp only at h
  split at h
  · exact absurd h (by simp)
  obtain rfl := Outcome.done.inj h
  exact ⟨_, Vm.setProc_self _ _ _, rfl, rfl⟩

theorem doSend_done (hp : vm.procs self = some p)
    (h : doSend W vm self p pc base cbase = .done vm') :
    ∃ p', vm'.procs self = some p' ∧ p'.stack = p.stack.drop 1 ∧ p'.acc = W.nil := by
  unfold doSend at h
  split at h
  · exact absurd h (by simp)
  dsimp only at h
  split at h
  · exact absurd h (by simp)
  next vm₁ hdel =>
    have hkept : RegsKept vm vm₁ := by
      split at hdel
      · exact mboxDeliver_regsKept hdel
      · obtain rfl := Option.some.inj hdel
        exact .refl vm
    obtain ⟨p₁, hp₁, hregs⟩ := hkept self p hp
    rw [hp₁] at h
    obtain rfl := Outcome.done.inj h
    exact ⟨_, Vm.setProc_self _ _ _, by rw [hregs.stack], rfl⟩

theorem doSpawn_ne_blocked : doSpawn W vm self p pc base cbase ≠ .blocked vm' := by
  unfold doSpawn
  split
  · simp
  split
  · simp
  dsimp only
  split <;> simp

theorem doSend_ne_blocked : doSend W vm self p pc base cbase ≠ .blocked vm' := by
  unfold doSend
  split
  · simp
  dsimp only
  split
  · simp
  split <;> simp

section

variable (W vm self p pc base cbase now now')

/-- **What an execution can come to**, when there is no fatal error and no fault. -/
inductive Executes : Builtin → Outcome V M H → Prop
  | self : Executes .self (.done (vm.setProc self { p with acc := W.ofPid p.pid }))
  | spawn {o : Outcome V M H} (h : doSpawn W vm self p pc base cbase = o) : Executes .spawn o
  | send {o : Outcome V M H} (h : doSend W vm self p pc base cbase = o) : Executes .send o
  | recv {b : BStatus} {q : Proc V M H} {v : V} {st : List V} (h : bRecv W p = some (b, q))
      (hb : b ≠ .suspend) (hst : q.stack = v :: st) :
      Executes .recv (.done (vm.setProc self { q with stack := st, acc := v }))
  | recvWaits {q : Proc V M H} (h : bRecv W p = some (.suspend, q)) :
      Executes .recv (.blocked (vm.setProc self (park (publish q pc base cbase))))
  | monitor {vm₁ : Vm V M H} {q : Proc V M H} {v : V} {st : List V}
      (h : bMonitor W vm self (procPush p p.acc) = some vm₁) (hq : vm₁.procs self = some q)
      (hst : q.stack = v :: st) :
      Executes .monitor (.done (vm₁.setProc self { q with stack := st, acc := v }))
  | recvAfter {b : BStatus} {q : Proc V M H} {v : V} {st : List V}
      (h : bRecvAfter W now now' (procPush p p.acc) = some (b, q)) (hb : b ≠ .suspend)
      (hst : q.stack = v :: st) :
      Executes .recvAfter (.done (vm.setProc self { q with stack := st, acc := v }))
  | recvAfterWaits {q : Proc V M H}
      (h : bRecvAfter W now now' (procPush p p.acc) = some (.suspend, q)) :
      Executes .recvAfter (.blocked (vm.setProc self (park (publish
        { q with stack := q.stack.drop (q.stack.length - p.stack.length) } pc base cbase))))
  | recvPeek {q : Proc V M H} {v : V} {st : List V} (h : bRecvPeek W p = some (.ok, q))
      (hst : q.stack = v :: st) :
      Executes .recvPeek (.done (vm.setProc self { q with stack := st, acc := v }))
  | recvPeekWaits {q : Proc V M H} (h : bRecvPeek W p = some (.suspend, q)) :
      Executes .recvPeek (.blocked (vm.setProc self (park (publish q pc base cbase))))
  | recvPeekDies {q : Proc V M H} (h : bRecvPeek W p = some (.died, q)) :
      Executes .recvPeek (.died "resource" (vm.setProc self (publish q pc base cbase)))
  | recvCommit {mbox : Mailbox M} : Executes .recvCommit
      (.done (vm.setProc self { p with mbox := mbox, peekIndex := 0, acc := W.nil }))

end

variable {o : Outcome V M H}

theorem takeResult_cases (h : takeResult vm self q = o) (ho : o ≠ .fault) :
    ∃ v st, q.stack = v :: st ∧ .done (vm.setProc self { q with stack := st, acc := v }) = o := by
  unfold takeResult procPop at h
  cases hst : q.stack with
  | nil =>
      rw [hst] at h
      exact absurd h.symm ho
  | cons v st =>
      rw [hst] at h
      exact ⟨v, st, rfl, h⟩

theorem doBuiltin_executes {n : Nat} (hp : vm.procs self = some p)
    (h : doBuiltin W vm self id n pc base cbase now now' = o) (hfault : o ≠ .fault)
    (hfatal : ∀ msg, o ≠ .fatal msg) :
    n = id.arity ∧ Executes W p vm self now now' pc base cbase id o := by
  unfold doBuiltin at h
  rw [hp] at h
  dsimp only at h
  by_cases hn : n = id.arity
  swap
  · rw [if_pos hn] at h
    exact absurd h.symm (hfatal _)
  rw [if_neg (not_not.mpr hn)] at h
  refine ⟨hn, ?_⟩
  cases id with
  | self =>
      obtain rfl := h
      exact .self
  | spawn => exact .spawn h
  | send => exact .send h
  | recv =>
      dsimp only at h
      split at h
      · exact absurd h.symm hfault
      · next hb =>
          obtain rfl := h
          exact .recvWaits hb
      · next hne hb =>
          obtain ⟨v, st, hst, rfl⟩ := takeResult_cases h hfault
          exact .recv hb hne hst
  | monitor =>
      dsimp only at h
      split at h
      · exact absurd h.symm hfault
      next hm =>
        split at h
        · exact absurd h.symm hfault
        · next hq =>
            obtain ⟨v, st, hst, rfl⟩ := takeResult_cases h hfault
            exact .monitor hm hq hst
  | recvAfter =>
      dsimp only at h
      split at h
      · exact absurd h.symm hfault
      · next hb =>
          obtain rfl := h
          exact .recvAfterWaits hb
      · next hne hb =>
          obtain ⟨v, st, hst, rfl⟩ := takeResult_cases h hfault
          exact .recvAfter hb hne hst
  | recvPeek =>
      dsimp only at h
      split at h
      · exact absurd h.symm hfault
      · next hb =>
          obtain rfl := h
          exact .recvPeekDies hb
      · next hb =>
          obtain rfl := h
          exact .recvPeekWaits hb
      · next hb =>
          obtain ⟨v, st, hst, rfl⟩ := takeResult_cases h hfault
          exact .recvPeek hb hst
  | recvCommit =>
      dsimp only at h
      split at h
      · exact absurd h.symm hfault
      · next hb =>
          obtain ⟨⟨frag, mbox⟩, -, heq⟩ := Option.map_eq_some_iff.mp hb
          obtain ⟨-, rfl⟩ := Prod.mk.inj heq
          obtain rfl := h
          exact .recvCommit

/-- **One completed execution.**  It leaves the stack of `stackAfter` and its
result in the accumulator. -/
theorem doBuiltin_done {n : Nat} (hp : vm.procs self = some p)
    (h : doBuiltin W vm self id n pc base cbase now now' = .done vm') :
    n = id.arity ∧ ∃ p', vm'.procs self = some p' ∧ p'.stack = stackAfter p id ∧
      p'.acc = builtinResult W vm p id := by
  obtain ⟨hn, hx⟩ := doBuiltin_executes hp h (by simp) (by simp)
  refine ⟨hn, ?_⟩
  -- the result is what the builtin pushed
  have htop : ∀ {v w : V} {st st' : List V} {q : Proc V M H}, q.stack = v :: st →
      q.stack = w :: st' → st = st' ∧ v = w := by
    intro v w st st' q hq hq'
    obtain ⟨rfl, rfl⟩ := List.cons.inj (hq.symm.trans hq')
    exact ⟨rfl, rfl⟩
  cases hx with
  | self => exact ⟨_, Vm.setProc_self _ _ _, rfl, rfl⟩
  | spawn h => exact doSpawn_done h
  | send h => exact doSend_done hp h
  | recv hb hne hst => exact ⟨_, Vm.setProc_self _ _ _, htop hst (bRecv_ok hb hne)⟩
  | monitor hm hq hst =>
      obtain ⟨q', hq', hst'⟩ := bMonitor_ok hm
      obtain rfl := Option.some.inj (hq.symm.trans hq')
      exact ⟨_, Vm.setProc_self _ _ _, htop hst hst'⟩
  | recvAfter hb hne hst =>
      rcases bRecvAfter_eq vm hb with ⟨-, hst'⟩ | ⟨rfl, -, -⟩
      · exact ⟨_, Vm.setProc_self _ _ _, htop hst hst'⟩
      · exact (hne rfl).elim
  | recvPeek hb hst => exact ⟨_, Vm.setProc_self _ _ _, htop hst (bRecvPeek_ok hb)⟩
  | recvCommit => exact ⟨_, Vm.setProc_self _ _ _, rfl, rfl⟩

/-- **One execution that blocks.**  It publishes the stack it found, and a
blocked `recv_after` has a pending deadline. -/
theorem doBuiltin_blocked {n : Nat} (hp : vm.procs self = some p)
    (h : doBuiltin W vm self id n pc base cbase now now' = .blocked vm') :
    ∃ p', vm'.procs self = some p' ∧ p'.stack = p.stack ∧
      (id = .recvAfter → 0 ≤ p'.recvDeadlineMs) := by
  cases (doBuiltin_executes hp h (by simp) (by simp)).2 with
  | spawn h => exact absurd h doSpawn_ne_blocked
  | send h => exact absurd h doSend_ne_blocked
  | recvWaits hb =>
      obtain rfl := bRecv_suspend hb
      exact ⟨_, Vm.setProc_self _ _ _, rfl, by simp⟩
  | @recvAfterWaits q hb =>
      rcases bRecvAfter_eq vm hb with ⟨hb', -⟩ | ⟨-, hd, hst⟩
      · exact absurd hb' (by simp)
      · refine ⟨_, Vm.setProc_self _ _ _, ?_, fun _ => hd⟩
        show q.stack.drop (q.stack.length - p.stack.length) = p.stack
        rcases hst with hst | hst <;> simp [hst]
  | recvPeekWaits hb =>
      rcases bRecvPeek_cases hb with ⟨-, rfl⟩ | ⟨hb', -⟩
      · exact ⟨_, Vm.setProc_self _ _ _, rfl, by simp⟩
      · exact absurd hb' (by simp)

/-! ### A whole completion -/

/-- What other threads do to an actor that waits: deliver messages, fire its
deadline, take it off the wait list, and start to watch it. -/
inductive Touched : Proc V M H → Proc V M H → Prop
  | refl (p : Proc V M H) : Touched p p
  | deliver {p q : Proc V M H} (frag : M) : Touched p q → Touched p (mboxAppend q frag).1
  | deadline {p q : Proc V M H} (now : Nat) : Touched p q → Touched p (deadlineFire now q).1
  | unregister {p q : Proc V M H} : Touched p q → Touched p { q with waitRegistered := false }
  | watch {p q : Proc V M H} (w : Nat × Int) :
      Touched p q → Touched p { q with watchers := q.watchers ++ [w] }

/-- None of that touches the stack, and a pending deadline is still pending or
has fired. -/
theorem Touched.spec (h : Touched p q) :
    q.stack = p.stack ∧ (0 ≤ p.recvDeadlineMs → ¬ Unarmed q) := by
  induction h with
  | refl =>
      refine ⟨rfl, fun h hu => ?_⟩
      have := hu.1
      omega
  | deliver frag _ ih =>
      rename_i q _
      refine ⟨(mboxAppend_sameRegs _ _).stack.trans ih.1, fun h => ?_⟩
      have hd : (mboxAppend q frag).1.recvDeadlineMs = q.recvDeadlineMs := by
        unfold mboxAppend
        dsimp only
        split <;> rfl
      unfold Unarmed
      rw [hd]
      exact ih.2 h
  | deadline now _ ih =>
      unfold deadlineFire
      split
      · exact ⟨ih.1, fun _ hu => hu.2 rfl⟩
      · exact ih
  | unregister _ ih => exact ih
  | watch w _ ih => exact ih

/-- A primitive completes after a number of suspensions.  The third index is the
machine in which its last execution started. -/
inductive Completes (W : Words V M H) (self : Nat) (id : Builtin) (n pc base cbase : Nat) :
    Vm V M H → Nat → Vm V M H → Vm V M H → Prop
  | done {vm vm' : Vm V M H} (now now' : Nat) :
      doBuiltin W vm self id n pc base cbase now now' = .done vm' →
      Completes W self id n pc base cbase vm 0 vm vm'
  | again {vm vm₁ vm₂ last vm' : Vm V M H} {p₁ p₂ : Proc V M H} {k : Nat} (now now' : Nat) :
      doBuiltin W vm self id n pc base cbase now now' = .blocked vm₁ →
      vm₁.procs self = some p₁ → Touched p₁ p₂ → p₂.state = .running →
      vm₂.procs self = some (resume W p₂) →
      Completes W self id n pc base cbase vm₂ k last vm' →
      Completes W self id n pc base cbase vm (k + 1) last vm'

/-- The last execution finds the stack of the first, and if it is not the first
and the primitive is `recv_after`, its deadline is pending or has fired. -/
theorem Completes.last_spec {n : Nat} {last : Vm V M H} {k : Nat}
    (h : Completes W self id n pc base cbase vm k last vm') :
    ∀ p, vm.procs self = some p →
      ∃ pl now now', last.procs self = some pl ∧
        doBuiltin W last self id n pc base cbase now now' = .done vm' ∧
        pl.stack = p.stack ∧
        (id = .recvAfter → (Unarmed pl ↔ k = 0 ∧ Unarmed p)) := by
  induction h with
  | done now now' hd =>
      intro p hp
      exact ⟨p, now, now', hp, hd, rfl, fun _ => by simp⟩
  | @again vm vm₁ vm₂ last vm' p₁ p₂ k now now' hb hp₁ ht hrun hp₂ _ ih =>
      intro p hp
      obtain ⟨pl, now₂, now₂', hpl, hdone, hst, harm⟩ := ih _ hp₂
      obtain ⟨q, hq, hqst, hqd⟩ := doBuiltin_blocked hp hb
      rw [hp₁] at hq
      obtain rfl := Option.some.inj hq
      refine ⟨pl, now₂, now₂', hpl, hdone, ?_, ?_⟩
      · exact hst.trans (ht.spec.1.trans hqst)
      · intro hid
        rw [harm hid]
        have hun : ¬ Unarmed (resume W p₂) := ht.spec.2 (hqd hid)
        simp [hun]

/-- **The stack balance of the primitives.**  A completed primitive leaves its
result in the accumulator, and the stack without its pushed arguments unless it
is a `recv_after` that found a deadline pending or fired, which it does whenever
it was suspended. -/
theorem builtin_stack_balanced_iff (W : Words V M H) (self : Nat) (id : Builtin)
    (n pc base cbase : Nat) (vm last vm' : Vm V M H) (k : Nat) (p : Proc V M H)
    (hp : vm.procs self = some p) (h : Completes W self id n pc base cbase vm k last vm') :
    ∃ pl p', last.procs self = some pl ∧ vm'.procs self = some p' ∧
      p'.acc = builtinResult W last pl id ∧
      (p'.stack = p.stack.drop (n - 1) ↔ (id = .recvAfter → k = 0 ∧ Unarmed p)) := by
  obtain ⟨pl, now, now', hpl, hdone, hst, harm⟩ := h.last_spec p hp
  obtain ⟨rfl, p', hp', hst', hacc⟩ := doBuiltin_done hpl hdone
  refine ⟨pl, p', hpl, hp', hacc, ?_⟩
  rw [hst']
  by_cases hid : id = .recvAfter
  · subst hid
    -- the operand is left behind exactly when the deadline was not to be armed
    by_cases hun : Unarmed pl
    · simp [stackAfter, Builtin.arity, hun, hst, (harm rfl).mp hun]
    · have hlong : pl.acc :: pl.stack ≠ p.stack := by
        rw [hst]
        exact fun heq => absurd (congrArg List.length heq) (by simp)
      have hno : ¬ (k = 0 ∧ Unarmed p) := fun hc => hun ((harm rfl).mpr hc)
      simp [stackAfter, Builtin.arity, hun, hlong, hno]
  · cases id <;> simp_all [stackAfter, Builtin.arity]

/-! ### Two completions after a wait -/

namespace Session

/-- A machine with the one actor. -/
def oneActor (p : Proc Int (Nat × Int) Unit) : Vm Int (Nat × Int) Unit where
  procs := fun i => if i = 1 then some p else none
  nextPid := 2
  procsCap := 16
  nextRef := 0
  runq := []
  fnEntry := fun _ => 0
  fnArgs := fun _ => 0
  freshHeap := ()

/-- The actor with a word on its stack that is none of the primitive's. -/
def callingProc : Proc Int (Nat × Int) Unit := { idleProc with stack := [41], acc := 50 }

/-- What an actor that blocked at time 100 looks like when message 7 has woken
it. -/
def wokenProc (deadline : Int) : Proc Int (Nat × Int) Unit :=
  (mboxAppend { park callingProc with recvDeadlineMs := deadline } (0, 7)).1

theorem touched_wokenProc (deadline : Int) :
    Touched { park callingProc with recvDeadlineMs := deadline } (wokenProc deadline) :=
  .deliver _ (.refl _)

private theorem recv_completes :
    ∃ vm', Completes intWords 1 .recv 0 0 0 0 (oneActor callingProc) 1
      (oneActor (resume intWords (wokenProc (-1)))) vm' :=
  ⟨_, .again 0 0 rfl rfl (touched_wokenProc (-1)) rfl rfl (.done 0 0 rfl)⟩

/-- A `recv` that waits for a message leaves the stack as it was. -/
theorem builtin_stack_balanced_recv :
    ∃ vm' p', Completes intWords 1 .recv 0 0 0 0 (oneActor callingProc) 1
        (oneActor (resume intWords (wokenProc (-1)))) vm' ∧
      vm'.procs 1 = some p' ∧ p'.acc = 7 ∧ p'.stack = [41] := by
  obtain ⟨vm', h⟩ := recv_completes
  obtain ⟨pl, p', hpl, hp', hacc, hst⟩ :=
    builtin_stack_balanced_iff intWords 1 .recv 0 0 0 0 _ _ vm' 1 callingProc rfl h
  obtain rfl := Option.some.inj hpl
  exact ⟨vm', p', h, hp', hacc, hst.mpr (by simp)⟩

/-- A `recv_after` that waits for a message leaves its flushed operand behind. -/
theorem recv_after_leaves_operand :
    ∃ vm' p', Completes intWords 1 .recvAfter 1 0 0 0 (oneActor callingProc) 1
        (oneActor (resume intWords (wokenProc 150))) vm' ∧
      vm'.procs 1 = some p' ∧ p'.acc = 7 ∧ p'.stack = [0, 41] ∧
      callingProc.stack.drop (1 - 1) = [41] :=
  ⟨_, _, .again 100 100 rfl rfl (touched_wokenProc 150) rfl rfl (.done 120 120 rfl),
    rfl, rfl, rfl, rfl⟩

end Session

end TinyActor.Runtime
