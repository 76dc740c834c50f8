/-
Where a live actor is.

The invariant of `Proofs/Sched.lean` counts holders.  Here the count is read off:
each way of holding an actor is a place, being parked is one more, and a live
actor is in exactly one of them at any time.  There is a place that is neither a
worker, nor the queue, nor a parked state: between the section that makes an
actor runnable and the one that queues it, it is in the hands of the thread that
did the first, the worker that created it or the deadline scan that woke it.
-/
import Mathlib.Data.List.Duplicate
import Mathlib.Data.List.NodupEquivFin
import TinyActor.Proofs.Sched

namespace TinyActor.Runtime

open TinyActor.Lib

variable {V M H : Type} {n : Nat}

variable {s : Sched n V M H} {i : Nat}

namespace Sched

/-! ### Where an actor is -/

/-- The places an actor can be in. -/
inductive Place (n : Nat)
  /-- Taken off the queue by a worker, run by it, or about to be queued by it. -/
  | worker (w : Fin n)
  /-- In the run queue, at a position. -/
  | queue (pos : Nat)
  /-- In a waiting state. -/
  | parked
  /-- Just created by a worker that has not queued it yet. -/
  | creator (w : Fin n)
  /-- Its deadline fired in the scan, which has not queued it yet. -/
  | deadlineScan
deriving DecidableEq

/-- A worker has an actor in its hands to run it. -/
def WorksOn (s : Sched n V M H) (w : Fin n) (i : Nat) : Prop :=
  s.workers w = .picked i ∨ s.workers w = .running i ∨ s.workers w = .yielding i ∨
    ∃ child, s.workers w = .spawning i child

/-- An actor is in a place. -/
def At (s : Sched n V M H) (i : Nat) : Place n → Prop
  | .worker w => s.WorksOn w i
  | .queue pos => s.vm.runq[pos]? = some i
  | .parked => ∃ p, s.vm.procs i = some p ∧ (p.state = .waitRecv ∨ p.state = .waitIo)
  | .creator w => ∃ pid, s.workers w = .spawning pid i
  | .deadlineScan => s.poller = .fired i ∨ s.poller = .unregistered i

/-- An actor of the table that has not died and is not the entry actor after its
return. -/
def Live (s : Sched n V M H) (i : Nat) : Prop :=
  (∃ p, s.vm.procs i = some p ∧ p.state ≠ .dead) ∧ ¬ (s.entryDone = true ∧ s.mainPid = i)

theorem WorksOn.holds {w : Fin n} (h : s.WorksOn w i) : 1 ≤ (s.workers w).holds i := by
  rcases h with h | h | h | ⟨child, h⟩ <;> rw [h] <;> simp [Worker.holds]

/-- Two workers that each hold an actor make two holders. -/
theorem two_le_workerHolds {w v : Fin n} (hne : w ≠ v) (hw : 1 ≤ (s.workers w).holds i)
    (hv : 1 ≤ (s.workers v).holds i) : 2 ≤ s.workerHolds i := by
  have hpair : ∑ u ∈ {w, v}, (s.workers u).holds i ≤ s.workerHolds i :=
    Finset.sum_le_sum_of_subset (Finset.subset_univ _)
  rw [Finset.sum_pair hne] at hpair
  omega

theorem two_le_count {l : List Nat} {a b : Nat} (hne : a ≠ b) (ha : l[a]? = some i)
    (hb : l[b]? = some i) : 2 ≤ l.count i := by
  obtain ⟨hla, hga⟩ := List.getElem?_eq_some_iff.mp ha
  obtain ⟨hlb, hgb⟩ := List.getElem?_eq_some_iff.mp hb
  rw [← List.duplicate_iff_two_le_count, List.duplicate_iff_exists_distinct_get]
  rcases Nat.lt_or_gt_of_ne hne with hlt | hlt
  · exact ⟨⟨a, hla⟩, ⟨b, hlb⟩, hlt, hga.symm, hgb.symm⟩
  · exact ⟨⟨b, hlb⟩, ⟨a, hla⟩, hlt, hgb.symm, hga.symm⟩

/-- The part of the holders that a place stands for. -/
def share (s : Sched n V M H) (i : Nat) : Place n → Nat
  | .worker _ | .creator _ => s.workerHolds i
  | .queue _ => s.vm.runq.count i
  | .deadlineScan => s.poller.holds i
  | .parked => 0

theorem At.share_pos {pl : Place n} (h : s.At i pl) (hpl : pl ≠ .parked) : 1 ≤ s.share i pl := by
  cases pl with
  | worker w => exact (WorksOn.holds h).trans (s.holds_le_workerHolds w i)
  | queue pos => exact List.one_le_count_iff.mpr (List.mem_of_getElem? h)
  | parked => exact absurd rfl hpl
  | creator w =>
      obtain ⟨pid, hw⟩ := h
      refine Nat.le_trans ?_ (s.holds_le_workerHolds w i)
      rw [hw, Worker.holds_spawning, if_pos rfl]
      omega
  | deadlineScan => rcases h with h | h <;> simp [share, h, Poller.holds]

/-- With one holder there is one place. -/
theorem At.unique {pl pl' : Place n} (h : s.At i pl) (h' : s.At i pl') (hone : s.holders i ≤ 1)
    (hpl : pl ≠ .parked) (hpl' : pl' ≠ .parked) : pl = pl' := by
  have hs := h.share_pos hpl
  have hs' := h'.share_pos hpl'
  unfold holders at hone
  -- a worker that both works on an actor and has just created it holds it twice
  have hboth : ∀ w v : Fin n, s.WorksOn w i → (∃ pid, s.workers v = .spawning pid i) → False := by
    rintro w v hw ⟨pid, hv⟩
    have hv1 : 1 ≤ (s.workers v).holds i := by
      rw [hv, Worker.holds_spawning, if_pos rfl]; omega
    by_cases hwv : w = v
    · subst hwv
      have hle := s.holds_le_workerHolds w i
      rcases hw with hw | hw | hw | ⟨child, hw⟩ <;> rw [hv] at hw
      · exact absurd hw (by simp)
      · exact absurd hw (by simp)
      · exact absurd hw (by simp)
      · obtain ⟨rfl, rfl⟩ := Worker.spawning.inj hw
        rw [hv, Worker.holds_spawning, if_pos rfl] at hle
        omega
    · have := two_le_workerHolds hwv hw.holds hv1
      omega
  cases pl with
  | parked => exact absurd rfl hpl
  | worker w =>
      cases pl' with
      | parked => exact absurd rfl hpl'
      | worker v =>
          by_contra hne
          have := two_le_workerHolds (fun hc => hne (by rw [hc])) (WorksOn.holds h) (WorksOn.holds h')
          omega
      | creator v => exact (hboth w v h h').elim
      | queue pos => simp only [share] at hs hs'; omega
      | deadlineScan => simp only [share] at hs hs'; omega
  | creator w =>
      cases pl' with
      | parked => exact absurd rfl hpl'
      | worker v => exact (hboth v w h' h).elim
      | creator v =>
          obtain ⟨pid, hw⟩ := h
          obtain ⟨pid', hv⟩ := h'
          by_contra hne
          have := two_le_workerHolds (s := s) (w := w) (v := v) (i := i)
            (fun hc => hne (by rw [hc]))
            (by rw [hw, Worker.holds_spawning, if_pos rfl]; omega)
            (by rw [hv, Worker.holds_spawning, if_pos rfl]; omega)
          omega
      | queue pos => simp only [share] at hs hs'; omega
      | deadlineScan => simp only [share] at hs hs'; omega
  | queue pos =>
      cases pl' with
      | parked => exact absurd rfl hpl'
      | queue pos' =>
          by_contra hne
          have := two_le_count (fun hc => hne (by rw [hc])) h h'
          omega
      | worker v => simp only [share] at hs hs'; omega
      | creator v => simp only [share] at hs hs'; omega
      | deadlineScan => simp only [share] at hs hs'; omega
  | deadlineScan =>
      cases pl' with
      | parked => exact absurd rfl hpl'
      | deadlineScan => rfl
      | worker v => simp only [share] at hs hs'; omega
      | creator v => simp only [share] at hs hs'; omega
      | queue pos => simp only [share] at hs hs'; omega

/-- A holder other than the end of the program is a place. -/
theorem exists_at (hone : 1 ≤ s.holders i) (hend : s.ended i = 0) :
    ∃ pl, pl ≠ .parked ∧ s.At i pl := by
  by_cases hq : i ∈ s.vm.runq
  · obtain ⟨pos, hpos⟩ := List.getElem?_of_mem hq
    exact ⟨.queue pos, by simp, hpos⟩
  by_cases hpoll : s.poller = .fired i ∨ s.poller = .unregistered i
  · exact ⟨.deadlineScan, by simp, hpoll⟩
  have hq0 : s.vm.runq.count i = 0 := List.count_eq_zero_of_not_mem hq
  have hpoll0 : s.poller.holds i = 0 := by
    cases hp : s.poller with
    | scanning => rfl
    | fired pid =>
        rw [hp] at hpoll
        exact if_neg (fun hc => hpoll (.inl (by rw [hc])))
    | unregistered pid =>
        rw [hp] at hpoll
        exact if_neg (fun hc => hpoll (.inr (by rw [hc])))
  have hwork : s.workerHolds i ≠ 0 := by
    unfold holders at hone
    omega
  obtain ⟨w, -, hw⟩ := Finset.exists_ne_zero_of_sum_ne_zero hwork
  cases hs : s.workers w with
  | idle => rw [hs] at hw; exact absurd rfl hw
  | registering pid => rw [hs] at hw; exact absurd rfl hw
  | picked pid =>
      obtain rfl : pid = i := by by_contra hc; rw [hs] at hw; exact hw (if_neg hc)
      exact ⟨.worker w, by simp, .inl hs⟩
  | running pid =>
      obtain rfl : pid = i := by by_contra hc; rw [hs] at hw; exact hw (if_neg hc)
      exact ⟨.worker w, by simp, .inr (.inl hs)⟩
  | yielding pid =>
      obtain rfl : pid = i := by by_contra hc; rw [hs] at hw; exact hw (if_neg hc)
      exact ⟨.worker w, by simp, .inr (.inr (.inl hs))⟩
  | spawning pid child =>
      by_cases hp : pid = i
      · subst hp
        exact ⟨.worker w, by simp, .inr (.inr (.inr ⟨child, hs⟩))⟩
      · obtain rfl : child = i := by
          by_contra hc
          rw [hs, Worker.holds_spawning, if_neg hp, if_neg hc] at hw
          exact hw rfl
        exact ⟨.creator w, by simp, pid, hs⟩

/-- **Every live actor is in one place.**  In every state of every interleaving a
live actor is with exactly one worker, at exactly one position of the queue,
parked, or in the hands of exactly one thread that has created or woken it and is
about to queue it; no two workers have the same actor; and an actor parked by
`recv` or `recv_after` has an empty mailbox, while one parked by a receive scan
has its cursor past the last message and, if nothing was taken off the front
since the scan began, has looked at every message. -/
theorem actor_in_one_place (W : Words V M H) (main : Proc V M H) (vm : Vm V M H)
    (es : List (Event n M)) (s : Sched n V M H)
    (h : Run (ofFn (step W)) (init n main vm) es s) :
    (∀ i, s.Live i → ∃! pl, s.At i pl) ∧
      (∀ w v i, s.WorksOn w i → s.WorksOn v i → w = v) ∧
      ∀ i p, s.vm.procs i = some p → p.state = .waitRecv →
        ((s.scans i).parkedByScan = false → p.mbox.frags = []) ∧
        ((s.scans i).parkedByScan = true → p.mbox.frags.length ≤ p.peekIndex ∧
          ((s.scans i).undisturbed = true → ∀ frag ∈ p.mbox.frags, frag ∈ (s.scans i).seen)) := by
  have hinv := Inv.run h
  have hle : ∀ i, s.holders i ≤ 1 := fun i => by
    rw [hinv.one i]; exact s.vm.runs_le_one i
  refine ⟨?_, ?_, ?_⟩
  · rintro i ⟨⟨p, hp, hdead⟩, hend⟩
    have hone := hinv.one i
    rw [Vm.runs_of hp] at hone
    by_cases hrun : p.state = .running
    · -- a running actor is not parked, and has its one holder
      rw [if_pos hrun] at hone
      obtain ⟨pl, hpl, hat⟩ := exists_at hone.ge (if_neg hend)
      refine ⟨pl, hat, fun pl' hat' => ?_⟩
      refine hat'.unique hat (hle i) ?_ hpl
      rintro rfl
      obtain ⟨q, hq, hst⟩ := hat'
      rw [hp] at hq
      obtain rfl := Option.some.inj hq
      rcases hst with hst | hst <;> rw [hrun] at hst <;> exact absurd hst (by simp)
    · -- any other live actor waits, and has no holder
      rw [if_neg hrun] at hone
      refine ⟨.parked, ⟨p, hp, ?_⟩, fun pl' hat' => ?_⟩
      · cases hs : p.state with
        | running => exact absurd hs hrun
        | waitRecv => exact .inl rfl
        | waitIo => exact .inr rfl
        | dead => exact absurd hs hdead
      · by_contra hne
        have hpos := hat'.share_pos hne
        unfold holders at hone
        cases pl' <;> simp only [share] at hpos <;> omega
  · intro w v i hw hv
    have hatw : s.At i (.worker w) := hw
    have hatv : s.At i (.worker v) := hv
    exact Place.worker.inj (hatw.unique hatv (hle i) (by simp) (by simp))
  · intro i p hp hwait
    have hscan := hinv.scan i p hp
    refine ⟨hscan.parkedRecv hwait, fun hby => ⟨hscan.parkedScan hwait hby, ?_⟩⟩
    intro hu frag hmem
    obtain ⟨j, hj⟩ := List.getElem?_of_mem hmem
    have hlt : j < p.mbox.frags.length := (List.getElem?_eq_some_iff.mp hj).1
    obtain ⟨frag', hmem', hj'⟩ := hscan.seen hu j (hlt.trans_le (hscan.parkedScan hwait hby))
    rw [hj] at hj'
    obtain rfl := Option.some.inj hj'
    exact hmem'

/-- One worker, and one actor that calls `recv_after(50)` at time 100. -/
def waiting : List (Event 1 (Nat × Int)) :=
  [.dequeue 0, .check 0, .builtin 0 .recvAfter 1 100 100]

/-- While the actor waits it is parked and nowhere else. -/
theorem actor_in_one_place_waiting :
    ∃ s, Run (ofFn (step Session.intWords)) (init 1 Session.callingProc (Session.oneActor
        Session.callingProc)) waiting s ∧
      s.At 1 .parked ∧ ∃! pl, s.At 1 pl := by
  have hrun : Run (ofFn (step Session.intWords)) (init 1 Session.callingProc (Session.oneActor
      Session.callingProc)) waiting _ := Run.ofFn_iff.mpr rfl
  refine ⟨_, hrun, ⟨_, rfl, .inl rfl⟩, ?_⟩
  exact (actor_in_one_place _ _ _ _ _ hrun).1 1 ⟨⟨_, rfl, by decide⟩, by decide⟩

/-- When the deadline has fired and the scan has let go of the mailbox, the actor
is live and neither with a worker, nor queued, nor parked. -/
theorem fired_actor_in_no_queue :
    ∃ s, Run (ofFn (step Session.intWords)) (init 1 Session.callingProc (Session.oneActor
        Session.callingProc)) (waiting ++ [.deadlineScan 1 200]) s ∧
      s.Live 1 ∧ (∀ w, ¬ s.WorksOn w 1) ∧ 1 ∉ s.vm.runq ∧ ¬ s.At 1 .parked := by
  refine ⟨_, Run.ofFn_iff.mpr rfl, ⟨⟨_, rfl, by decide⟩, by decide⟩, ?_, by decide, ?_⟩
  · intro w hw
    obtain rfl : w = 0 := Subsingleton.elim w 0
    have h : (1 : Nat) ≤ 0 := hw.holds
    omega
  · rintro ⟨p, hp, hs⟩
    obtain rfl := Option.some.inj hp
    rcases hs with hs | hs <;> exact absurd hs (by decide)

end Sched

end TinyActor.Runtime
