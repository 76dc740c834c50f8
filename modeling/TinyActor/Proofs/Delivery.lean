/-
What one section of one thread does to the table of actors.

A delivery appends to a mailbox and wakes the target if it waited; the two halves
of a wake-up, the state and the place in the run queue, come together.  Seen from
the whole table a delivery therefore keeps a balance: an actor gains a place in
the queue exactly when its state turns to running.  A primitive either delivers,
or works on its own actor's mailbox and nothing else.
-/
import TinyActor.Proofs.Builtin
import TinyActor.Runtime.Sched

namespace TinyActor.Runtime

variable {V M H : Type}

/-- One for an actor whose state is running, else none. -/
def Vm.runs (vm : Vm V M H) (i : Nat) : Nat :=
  match vm.procs i with
  | some p => if p.state = .running then 1 else 0
  | none => 0

/-! ### What a delivery does to the actors -/

/-- Messages came in, and the actor woke if it waited for one. -/
structure Grown (p q : Proc V M H) : Prop where
  frags : ∃ new, q.mbox.frags = p.mbox.frags ++ new
  peekIndex : q.peekIndex = p.peekIndex
  state : q.state = p.state ∨ p.state = .waitRecv ∧ q.state = .running
  quiet : q.state = .waitRecv → q.mbox.frags = p.mbox.frags

variable {W : Words V M H} {p q : Proc V M H} {vm vm' : Vm V M H} {b : BStatus} {id : Builtin}
  {pid self pc base cbase now now' : Nat}

theorem Grown.of_eq (hm : q.mbox = p.mbox) (hi : q.peekIndex = p.peekIndex)
    (hs : q.state = p.state) : Grown p q :=
  ⟨⟨[], by simp [hm]⟩, hi, .inl hs, fun _ => by rw [hm]⟩

theorem Grown.trans {r : Proc V M H} (h : Grown p q) (h' : Grown q r) : Grown p r where
  frags := by
    obtain ⟨l, hl⟩ := h.frags
    obtain ⟨l', hl'⟩ := h'.frags
    exact ⟨l ++ l', by rw [hl', hl, List.append_assoc]⟩
  peekIndex := h'.peekIndex.trans h.peekIndex
  state := by
    rcases h.state with hs | ⟨hw, hr⟩ <;> rcases h'.state with hs' | ⟨hw', hr'⟩
    · exact .inl (hs'.trans hs)
    · exact .inr ⟨hs ▸ hw', hr'⟩
    · exact .inr ⟨hw, hs'.trans hr⟩
    · rw [hr] at hw'; exact absurd hw' (by simp)
  quiet := by
    intro hw
    rw [h'.quiet hw]
    refine h.quiet ?_
    rcases h'.state with hs' | ⟨_, hr'⟩
    · rw [← hs']; exact hw
    · rw [hr'] at hw; exact absurd hw (by simp)

theorem mboxAppend_grown (p : Proc V M H) (frag : M) : Grown p (mboxAppend p frag).1 := by
  refine ⟨⟨[frag], mboxAppend_frags p frag⟩, mboxAppend_peekIndex p frag, ?_, ?_⟩
  · unfold mboxAppend
    dsimp only
    split
    · next hw => exact .inr ⟨hw, rfl⟩
    · exact .inl rfl
  · unfold mboxAppend
    dsimp only
    split
    · intro h; exact absurd h (by simp)
    · next hw => intro h; exact absurd h hw

/-- A machine after deliveries: the same actors, each grown, and exactly the
woken ones queued. -/
structure Delivered (vm vm' : Vm V M H) : Prop where
  next : vm'.nextPid = vm.nextPid
  absent : ∀ i, vm.procs i = none → vm'.procs i = none
  present : ∀ i p, vm.procs i = some p → ∃ q, vm'.procs i = some q ∧ Grown p q
  balance : ∀ i, vm'.runq.count i + vm.runs i = vm.runq.count i + vm'.runs i

@[simp] theorem Vm.runs_runqEnqueue (vm : Vm V M H) (i : Nat) :
    (vm.runqEnqueue i).runs = vm.runs := rfl

@[simp] theorem Vm.setProc_runq (vm : Vm V M H) (i : Nat) (p : Proc V M H) :
    (vm.setProc i p).runq = vm.runq := rfl

theorem Vm.count_runqEnqueue (vm : Vm V M H) (pid i : Nat) :
    (vm.runqEnqueue pid).runq.count i = vm.runq.count i + if pid = i then 1 else 0 := by
  simp [Vm.runqEnqueue, List.count_cons]

theorem Vm.runs_setProc (vm : Vm V M H) (pid : Nat) (p : Proc V M H) (i : Nat) :
    (vm.setProc pid p).runs i =
      if pid = i then (if p.state = .running then 1 else 0) else vm.runs i := by
  unfold Vm.runs
  by_cases h : pid = i
  · subst h
    simp
  · rw [Vm.setProc_ne _ _ (fun hc => h hc.symm), if_neg h]

theorem Vm.runs_of {i : Nat} (h : vm.procs i = some p) :
    vm.runs i = if p.state = .running then 1 else 0 := by
  unfold Vm.runs
  rw [h]

/-- With another record for one actor, the counts change by what its state changes by. -/
theorem Vm.runs_replace {pid : Nat} {a b : Nat → Nat} (hp : vm.procs pid = some p)
    (hself : (if q.state = .running then 1 else 0) + a pid =
      (if p.state = .running then 1 else 0) + b pid)
    (hother : ∀ i, pid ≠ i → a i = b i) (i : Nat) :
    (vm.setProc pid q).runs i + a i = vm.runs i + b i := by
  rw [Vm.runs_setProc]
  by_cases hi : pid = i
  · subst hi
    rw [if_pos rfl, Vm.runs_of hp]
    exact hself
  · rw [if_neg hi, hother i hi]

theorem Vm.runs_le_one (vm : Vm V M H) (i : Nat) : vm.runs i ≤ 1 := by
  unfold Vm.runs
  split
  · split <;> omega
  · omega

theorem Vm.runs_eq_one {i : Nat} (h : vm.runs i = 1) :
    ∃ p, vm.procs i = some p ∧ p.state = .running := by
  unfold Vm.runs at h
  split at h
  · next p hp =>
      by_cases hs : p.state = .running
      · exact ⟨p, hp, hs⟩
      · rw [if_neg hs] at h; exact absurd h (by simp)
  · exact absurd h (by simp)

namespace Delivered

theorem refl (vm : Vm V M H) : Delivered vm vm :=
  ⟨rfl, fun _ h => h, fun _ p h => ⟨p, h, .of_eq rfl rfl rfl⟩, fun _ => rfl⟩

theorem trans {vm'' : Vm V M H} (h : Delivered vm vm') (h' : Delivered vm' vm'') :
    Delivered vm vm'' where
  next := h'.next.trans h.next
  absent := fun i hi => h'.absent i (h.absent i hi)
  present := by
    intro i p hp
    obtain ⟨q, hq, hpq⟩ := h.present i p hp
    obtain ⟨r, hr, hqr⟩ := h'.present i q hq
    exact ⟨r, hr, hpq.trans hqr⟩
  balance := by
    intro i
    have h1 := h.balance i
    have h2 := h'.balance i
    omega

/-- Replacing one actor by a grown one, queueing it if it woke. -/
theorem setProc (hp : vm.procs pid = some p) (hg : Grown p q) (wake : Bool)
    (hw : wake = true ↔ q.state ≠ p.state) :
    Delivered vm (if wake = true then (vm.setProc pid q).runqEnqueue pid else vm.setProc pid q) where
  next := by split <;> rfl
  absent := by
    intro i hi
    have hne : i ≠ pid := by
      rintro rfl
      rw [hp] at hi
      exact absurd hi (by simp)
    split
    · rw [Vm.runqEnqueue_procs, Vm.setProc_ne _ _ hne]; exact hi
    · rw [Vm.setProc_ne _ _ hne]; exact hi
  present := by
    intro i r hr
    have hcase : ∃ q', (vm.setProc pid q).procs i = some q' ∧ Grown r q' := by
      by_cases h : i = pid
      · subst h
        rw [hp] at hr
        obtain rfl := Option.some.inj hr
        exact ⟨q, Vm.setProc_self _ _ _, hg⟩
      · exact ⟨r, by rw [Vm.setProc_ne _ _ h]; exact hr, .of_eq rfl rfl rfl⟩
    split
    · exact hcase
    · exact hcase
  balance := by
    intro i
    -- a wake adds one to the queue and turns a waiting state into a running one
    by_cases hwake : wake = true
    · rw [if_pos hwake, Vm.count_runqEnqueue, Vm.runs_runqEnqueue, Vm.setProc_runq]
      rcases hg.state with hs | ⟨hwait, hrun⟩
      · exact absurd hs (hw.mp hwake)
      · have hone := Vm.runs_replace (q := q) (a := fun _ => 0)
          (b := fun i => if pid = i then 1 else 0) hp (by simp [hwait, hrun])
          (fun i hi => (if_neg hi).symm) i
        omega
    · have hs : q.state = p.state := not_not.mp (fun hc => hwake (hw.mpr hc))
      have hsame := Vm.runs_replace (q := q) (a := fun _ => 0) (b := fun _ => 0) hp (by rw [hs])
        (fun _ _ => rfl) i
      rw [if_neg hwake, Vm.setProc_runq]
      omega

end Delivered

theorem mboxAppend_wake (p : Proc V M H) (frag : M) :
    (mboxAppend p frag).2 = true ↔ (mboxAppend p frag).1.state ≠ p.state := by
  unfold mboxAppend
  dsimp only
  split
  · next hw => simp [hw]
  · simp

/-- Replacing one actor by one whose mailbox and state are the same. -/
theorem Delivered.setSame (hp : vm.procs pid = some p) (hm : q.mbox = p.mbox)
    (hi : q.peekIndex = p.peekIndex) (hs : q.state = p.state) : Delivered vm (vm.setProc pid q) :=
  Delivered.setProc hp (.of_eq hm hi hs) false (by simp [hs])

theorem moveOwner_delivered (W : Words V M H) (vm : Vm V M H) (s : Nat) (msg : V) (t : Nat) :
    Delivered vm (moveOwner W vm s msg t) := by
  unfold moveOwner
  split
  · next p hp => exact .setSame hp rfl rfl rfl
  · exact .refl vm

/-- Queueing an actor after its record has changed in another way is queueing it
at once. -/
theorem Delivered.enqueue_after {vm₁ vm₂ : Vm V M H} (h : Delivered vm (vm₁.runqEnqueue pid))
    (h' : Delivered vm₁ vm₂) :
    Delivered vm (vm₂.runqEnqueue pid) where
  next := h'.next.trans h.next
  absent := fun i hi => h'.absent i (h.absent i hi)
  present := by
    intro i p hp
    obtain ⟨q, hq, hpq⟩ := h.present i p hp
    obtain ⟨r, hr, hqr⟩ := h'.present i q hq
    exact ⟨r, hr, hpq.trans hqr⟩
  balance := by
    intro i
    have h1 := h.balance i
    have h2 := h'.balance i
    rw [Vm.count_runqEnqueue, Vm.runs_runqEnqueue] at h1 ⊢
    omega

theorem mboxDeliver_delivered {s t : Nat} {msg : V} (h : mboxDeliver W vm s t msg = some vm') :
    Delivered vm vm' := by
  unfold mboxDeliver at h
  split at h
  · next ps pt hs ht =>
      dsimp only at h
      split at h
      · exact absurd h (by simp)
      split at h
      · obtain rfl := Option.some.inj h
        exact .refl vm
      obtain rfl := Option.some.inj h
      have happ := fun frag =>
        Delivered.setProc ht (mboxAppend_grown pt frag) _ (mboxAppend_wake pt frag)
      have hown := fun vm => moveOwner_delivered W vm s msg t
      by_cases hres : W.hasResource (W.fragCopy ps.heap msg) = true
      · simp only [if_pos hres]
        have happ := happ (W.setFragOwner (W.fragCopy ps.heap msg) t)
        split
        · next hwake => rw [if_pos hwake] at happ; exact happ.enqueue_after (hown _)
        · next hwake => rw [if_neg hwake] at happ; exact happ.trans (hown _)
      · simp only [if_neg hres]
        exact happ (W.fragCopy ps.heap msg)
  · obtain rfl := Option.some.inj h
    exact .refl vm

/-! ### What a primitive does to the actors -/

theorem mboxPop_state {v : V} (h : mboxPop W p = some (v, q)) : q.state = p.state := by
  unfold mboxPop at h
  obtain ⟨r, -, heq⟩ := Option.map_eq_some_iff.mp h
  obtain ⟨-, rfl⟩ := Prod.mk.inj heq
  rfl

theorem bRecv_state (h : bRecv W p = some (b, q)) : q.state = p.state := by
  unfold bRecv at h
  split at h
  · obtain ⟨-, rfl⟩ := Prod.mk.inj (Option.some.inj h)
    rfl
  · obtain ⟨⟨msg, r⟩, hpop, heq⟩ := Option.map_eq_some_iff.mp h
    obtain ⟨-, rfl⟩ := Prod.mk.inj heq
    exact (mboxPop_state hpop :)

private theorem recvAfterArmed_state {now : Int} (h : recvAfterArmed W now p = some (b, q)) :
    q.state = p.state ∧ (b = .suspend → q.mbox.frags = [] ∧ p.mbox.frags = []) := by
  unfold recvAfterArmed at h
  split at h
  · obtain ⟨⟨msg, r⟩, hpop, heq⟩ := Option.map_eq_some_iff.mp h
    obtain ⟨rfl, rfl⟩ := Prod.mk.inj heq
    exact ⟨(mboxPop_state hpop :), by simp⟩
  · next hc =>
      have hempty : p.mbox.frags = [] := by
        by_contra hne
        exact hc (Mailbox.count_pos_iff.mpr hne)
      split at h
      · obtain ⟨rfl, rfl⟩ := Prod.mk.inj (Option.some.inj h)
        exact ⟨rfl, by simp⟩
      · obtain ⟨rfl, rfl⟩ := Prod.mk.inj (Option.some.inj h)
        exact ⟨rfl, fun _ => ⟨hempty, hempty⟩⟩

/-- `recv_after` keeps the state, and blocks only on an empty mailbox. -/
theorem bRecvAfter_state {now now' : Int} {ms : V}
    (h : bRecvAfter W now now' (procPush p ms) = some (b, q)) :
    q.state = p.state ∧ (b = .suspend → q.mbox.frags = [] ∧ p.mbox.frags = []) := by
  unfold bRecvAfter at h
  split at h
  · obtain ⟨rfl, rfl⟩ := Prod.mk.inj (Option.some.inj h)
    exact ⟨rfl, by simp⟩
  split at h
  · simp only [procPop, procPush, Option.bind_some] at h
    exact (recvAfterArmed_state h :)
  · exact (recvAfterArmed_state h :)

theorem bRecvPeek_state (h : bRecvPeek W p = some (b, q)) :
    q.state = p.state ∧ (b = .suspend → p.mbox.frags.length ≤ p.peekIndex) := by
  unfold bRecvPeek at h
  split at h
  · obtain ⟨frag, -, heq⟩ := Option.map_eq_some_iff.mp h
    split at heq <;>
    · obtain ⟨rfl, rfl⟩ := Prod.mk.inj heq
      exact ⟨rfl, by simp⟩
  · next hlt =>
      obtain ⟨rfl, rfl⟩ := Prod.mk.inj (Option.some.inj h)
      rw [p.mbox.count_eq] at hlt
      exact ⟨rfl, fun _ => by omega⟩

/-- What a completed primitive does to its own actor's mailbox. -/
def OwnMail (p q : Proc V M H) : Builtin → Prop
  | .recv => ∃ frag, TookHead p q frag
  | .recvAfter => Kept p q ∨ ∃ frag, TookHead p q frag
  | .recvPeek => q.mbox = p.mbox ∧ q.peekIndex = p.peekIndex + 1 ∧
      ∃ frag, p.mbox.frags[p.peekIndex]? = some frag
  | .recvCommit => q.peekIndex = 0
  | _ => False

theorem bMonitor_delivered {a : V} (hp : vm.procs self = some p)
    (h : bMonitor W vm self (procPush p a) = some vm') : Delivered vm vm' := by
  simp only [bMonitor, procPop, procPush, Option.bind_some] at h
  obtain ⟨q, hq, rfl⟩ := Option.map_eq_some_iff.mp h
  have hself : Delivered vm { vm.setProc self p with nextRef := vm.nextRef + 1 } :=
    have hd := Delivered.setSame hp (q := p) rfl rfl rfl
    ⟨hd.next, hd.absent, hd.present, hd.balance⟩
  -- the watchers of the target, or the notice, and then the pushed reference
  refine (hself.trans ?_).trans (Delivered.setSame hq rfl rfl rfl)
  split
  · next t ht => exact .setSame (liveProc_eq_some ht) rfl rfl rfl
  · have hheap : Delivered ({ vm.setProc self p with nextRef := vm.nextRef + 1 } : Vm V M H) _ :=
      .setSame (Vm.setProc_self vm self p)
        (q := { p with heap := (W.downMsg p.heap (vm.nextRef + 1) (W.getPid a)).2 }) rfl rfl rfl
    cases hd : mboxDeliver W _ self self (W.downMsg p.heap (vm.nextRef + 1) (W.getPid a)).1 with
    | none => exact hheap
    | some vm₂ => exact hheap.trans (mboxDeliver_delivered hd)

theorem doSend_delivered (h : doSend W vm self p pc base cbase = .done vm') : Delivered vm vm' := by
  unfold doSend at h
  split at h
  · exact absurd h (by simp)
  dsimp only at h
  split at h
  · exact absurd h (by simp)
  next vm₁ hdel =>
    have hd : Delivered vm vm₁ := by
      split at hdel
      · exact mboxDeliver_delivered hdel
      · obtain rfl := Option.some.inj hdel
        exact .refl vm
    split at h
    · exact absurd h (by simp)
    · next p₁ hp₁ =>
        obtain rfl := Outcome.done.inj h
        exact hd.trans (.setSame hp₁ rfl rfl rfl)

/-- A completed primitive delivers, or works on its own actor's mailbox alone. -/
theorem doBuiltin_done_sched {k : Nat} (hid : id ≠ .spawn) (hp : vm.procs self = some p)
    (h : doBuiltin W vm self id k pc base cbase now now' = .done vm') :
    (Delivered vm vm' ∧ ∀ q (r : ScanRecord M), Sched.scanAfter r p q id = r) ∨
      ∃ q, vm' = vm.setProc self q ∧ q.state = p.state ∧ OwnMail p q id := by
  cases (doBuiltin_executes hp h (by simp) (by simp)).2 with
  | self => exact .inl ⟨.setSame hp rfl rfl rfl, fun _ _ => rfl⟩
  | spawn => exact absurd rfl hid
  | send h => exact .inl ⟨doSend_delivered h, fun _ _ => rfl⟩
  | recv hb hne hst =>
      rcases bRecv_cases hb with ⟨-, rfl⟩ | ⟨-, frag, hf⟩
      · exact (hne rfl).elim
      · exact .inr ⟨_, rfl, (bRecv_state hb :), frag, hf.frags, hf.peekIndex⟩
  | monitor hm hq hst =>
      exact .inl ⟨(bMonitor_delivered hp hm).trans (.setSame hq rfl rfl rfl), fun _ _ => rfl⟩
  | recvAfter hb hne hst =>
      refine .inr ⟨_, rfl, (bRecvAfter_state hb).1, ?_⟩
      rcases bRecvAfter_cases hb with hk | ⟨-, -, -, frag, hf⟩
      · exact .inl ⟨hk.frags, hk.peekIndex⟩
      · exact .inr ⟨frag, hf.frags, hf.peekIndex⟩
  | recvPeek hb hst =>
      rcases bRecvPeek_cases hb with ⟨hne, -⟩ | ⟨-, hmb, hidx, hfrag⟩
      · exact absurd rfl hne
      · exact .inr ⟨_, rfl, (bRecvPeek_state hb).1, hmb, hidx, hfrag⟩
  | recvCommit => exact .inr ⟨_, rfl, rfl, rfl⟩

/-- A primitive that blocks parks its own actor, `recv` and `recv_after` on an
empty mailbox and `recv_peek` with its cursor past the end. -/
theorem doBuiltin_blocked_sched {k : Nat} (hp : vm.procs self = some p)
    (h : doBuiltin W vm self id k pc base cbase now now' = .blocked vm') :
    ∃ q, vm' = vm.setProc self q ∧ q.state = .waitRecv ∧ q.mbox.frags = p.mbox.frags ∧
      q.peekIndex = p.peekIndex ∧ (id ≠ .recvPeek → q.mbox.frags = []) ∧
      (id = .recvPeek → q.mbox.frags.length ≤ q.peekIndex) := by
  cases (doBuiltin_executes hp h (by simp) (by simp)).2 with
  | spawn h => exact absurd h doSpawn_ne_blocked
  | send h => exact absurd h doSend_ne_blocked
  | @recvWaits q hb =>
      obtain rfl := bRecv_suspend hb
      refine ⟨_, rfl, rfl, rfl, rfl, fun _ => ?_, by simp⟩
      by_contra hne
      have hcount : q.mbox.count ≠ 0 := (Mailbox.count_pos_iff.mpr hne).ne'
      unfold bRecv at hb
      rw [if_neg hcount] at hb
      obtain ⟨r, -, heq⟩ := Option.map_eq_some_iff.mp hb
      exact absurd (Prod.mk.inj heq).1 (by simp)
  | recvAfterWaits hb =>
      obtain ⟨hq, -⟩ := (bRecvAfter_state hb).2 rfl
      rcases bRecvAfter_cases hb with hk | ⟨-, -, hok, -⟩
      · exact ⟨_, rfl, rfl, hk.frags, hk.peekIndex, fun _ => hq, by simp⟩
      · exact absurd hok (by simp)
  | recvPeekWaits hb =>
      rcases bRecvPeek_cases hb with ⟨-, rfl⟩ | ⟨hok, -⟩
      · exact ⟨_, rfl, rfl, rfl, rfl, by simp, fun _ => (bRecvPeek_state hb).2 rfl⟩
      · exact absurd hok (by simp)

/-- A primitive that kills its actor has touched no other and no mailbox. -/
theorem doBuiltin_died_sched {k : Nat} {reason : String} (hid : id ≠ .spawn)
    (hp : vm.procs self = some p)
    (h : doBuiltin W vm self id k pc base cbase now now' = .died reason vm') :
    ∃ q, vm' = vm.setProc self q ∧ q.mbox = p.mbox ∧ q.peekIndex = p.peekIndex := by
  cases (doBuiltin_executes hp h (by simp) (by simp)).2 with
  | spawn => exact absurd rfl hid
  | send h =>
      dsimp only [doSend] at h
      split at h
      · exact absurd h (by simp)
      split at h
      · exact ⟨_, (Outcome.died.inj h).2.symm, rfl, rfl⟩
      · split at h <;> exact absurd h (by simp)
  | recvPeekDies hb =>
      rcases bRecvPeek_cases hb with ⟨-, rfl⟩ | ⟨hok, -⟩
      · exact ⟨_, rfl, rfl, rfl⟩
      · exact absurd hok (by simp)

end TinyActor.Runtime
