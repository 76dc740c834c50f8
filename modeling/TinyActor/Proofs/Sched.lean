/-
Where an actor is while the threads interleave.

Every thread that may put an actor into the run queue, and the queue itself, is
counted as a holder of that actor.  The invariant is one equation: the holders of
an actor are one in number if its state is running and none otherwise.  It says at
once that no two workers run the same actor, that nothing is queued twice, and
that a parked actor is in nobody's hands, and each step of each thread keeps it by
moving one holder and at most one state.

The mailbox half is about the single moment at which an actor parks.  A delivery
that finds an actor parked wakes it, so a parked actor's mailbox is the one it
parked with.
-/
import Mathlib.Algebra.Order.BigOperators.Group.Finset
import TinyActor.Lib.Run
import TinyActor.Proofs.Delivery

namespace TinyActor.Runtime

open TinyActor.Lib

variable {V M H : Type} {n : Nat}

/-! ### Holders -/

/-- How often a worker holds an actor it will run or queue. -/
def Worker.holds : Worker → Nat → Nat
  | .picked pid, i | .running pid, i | .yielding pid, i => if pid = i then 1 else 0
  | .spawning pid child, i => (if pid = i then 1 else 0) + (if child = i then 1 else 0)
  | .idle, _ | .registering _, _ => 0

theorem Worker.holds_running (pid i : Nat) :
    (Worker.running pid).holds i = if pid = i then 1 else 0 := rfl

theorem Worker.holds_spawning (pid child i : Nat) :
    (Worker.spawning pid child).holds i =
      (if pid = i then 1 else 0) + (if child = i then 1 else 0) := rfl

def Poller.holds : Poller → Nat → Nat
  | .fired pid, i | .unregistered pid, i => if pid = i then 1 else 0
  | .scanning, _ => 0

namespace Sched

/-- The entry actor keeps its state when it returns; the end of the program holds
it then. -/
def ended (s : Sched n V M H) (i : Nat) : Nat :=
  if s.entryDone = true ∧ s.mainPid = i then 1 else 0

def workerHolds (s : Sched n V M H) (i : Nat) : Nat := ∑ w, (s.workers w).holds i

/-- The holders of an actor. -/
def holders (s : Sched n V M H) (i : Nat) : Nat :=
  s.workerHolds i + s.vm.runq.count i + s.poller.holds i + s.ended i

theorem setVm_workers (s : Sched n V M H) (vm : Vm V M H) : (s.setVm vm).workers = s.workers := rfl

theorem holds_le_workerHolds (s : Sched n V M H) (w : Fin n) (i : Nat) :
    (s.workers w).holds i ≤ s.workerHolds i :=
  Finset.single_le_sum (f := fun w => (s.workers w).holds i) (fun _ _ => Nat.zero_le _)
    (Finset.mem_univ w)

/-- Moving one worker changes the sum by that worker's share. -/
theorem workerHolds_update (s : Sched n V M H) (w : Fin n) (x : Worker) (i : Nat) :
    (∑ v, (Function.update s.workers w x v).holds i) + (s.workers w).holds i =
      s.workerHolds i + x.holds i := by
  unfold workerHolds
  rw [← Finset.add_sum_erase _ _ (Finset.mem_univ w),
    ← Finset.add_sum_erase (a := w) _ (fun v => (s.workers v).holds i) (Finset.mem_univ w)]
  have hrest : ∑ v ∈ Finset.univ.erase w, (Function.update s.workers w x v).holds i =
      ∑ v ∈ Finset.univ.erase w, (s.workers v).holds i := by
    refine Finset.sum_congr rfl ?_
    intro v hv
    rw [Function.update_of_ne (Finset.ne_of_mem_erase hv)]
  rw [hrest, Function.update_self]
  omega

end Sched

/-! ### The scan record -/

/-- What holds of an actor and the record of its scan. -/
structure ScanOk (p : Proc V M H) (r : ScanRecord M) : Prop where
  seen : r.undisturbed = true → ∀ i < p.peekIndex, ∃ frag ∈ r.seen, p.mbox.frags[i]? = some frag
  parkedRecv : p.state = .waitRecv → r.parkedByScan = false → p.mbox.frags = []
  parkedScan : p.state = .waitRecv → r.parkedByScan = true → p.mbox.frags.length ≤ p.peekIndex

variable {t : Sched n V M H} {r : ScanRecord M} {W : Words V M H} {p q : Proc V M H} {x : Worker}
  {w : Fin n} {pid : Nat}

/-- An actor that does not wait for a message only has to account for what its
scan has seen. -/
theorem ScanOk.of_awake (hs : p.state ≠ .waitRecv)
    (hseen : r.undisturbed = true → ∀ i < p.peekIndex, ∃ frag ∈ r.seen, p.mbox.frags[i]? = some frag) :
    ScanOk p r :=
  ⟨hseen, fun h => absurd h hs, fun h => absurd h hs⟩

theorem ScanOk.grown (h : ScanOk p r) (hg : Grown p q) :
    ScanOk q r where
  seen := by
    intro hu i hi
    rw [hg.peekIndex] at hi
    obtain ⟨frag, hmem, hget⟩ := h.seen hu i hi
    obtain ⟨new, hnew⟩ := hg.frags
    refine ⟨frag, hmem, ?_⟩
    rw [hnew, List.getElem?_append_left (List.getElem?_eq_some_iff.mp hget).1]
    exact hget
  parkedRecv := by
    intro hw hr
    rw [hg.quiet hw]
    refine h.parkedRecv ?_ hr
    rcases hg.state with hs | ⟨hp, -⟩
    · exact hs.symm.trans hw
    · exact hp
  parkedScan := by
    intro hw hr
    rw [hg.quiet hw, hg.peekIndex]
    refine h.parkedScan ?_ hr
    rcases hg.state with hs | ⟨hp, -⟩
    · exact hs.symm.trans hw
    · exact hp

/-- The scan record follows every primitive that works on the mailbox. -/
theorem ScanOk.own {id : Builtin} (h : ScanOk p r) (hq : q.state ≠ .waitRecv)
    (hm : OwnMail p q id) : ScanOk q (Sched.scanAfter r p q id) := by
  refine .of_awake hq ?_
  intro hu i hi
  -- taking the head from under a cursor leaves a record that says so
  have htook : ∀ frag, TookHead p q frag → q.mbox.count < p.mbox.count := by
    intro frag hf
    rw [q.mbox.count_eq, p.mbox.count_eq, hf.frags]
    simp
  cases id with
  | self | spawn | send | monitor => exact hm.elim
  | recv =>
      obtain ⟨frag, hf⟩ := hm
      rw [hf.peekIndex] at hi
      simp only [Sched.scanAfter] at hu
      rw [if_pos ⟨htook frag hf, by omega⟩] at hu
      exact absurd hu (by simp)
  | recvAfter =>
      rcases hm with hk | ⟨frag, hf⟩
      · have hnot : ¬ (q.mbox.count < p.mbox.count ∧ 0 < p.peekIndex) := by
          rw [q.mbox.count_eq, p.mbox.count_eq, hk.frags]
          omega
        simp only [Sched.scanAfter, if_neg hnot] at hu ⊢
        rw [hk.peekIndex] at hi
        rw [hk.frags]
        exact h.seen hu i hi
      · rw [hf.peekIndex] at hi
        simp only [Sched.scanAfter] at hu
        rw [if_pos ⟨htook frag hf, by omega⟩] at hu
        exact absurd hu (by simp)
  | recvPeek =>
      obtain ⟨hmb, hidx, frag, hfrag⟩ := hm
      simp only [Sched.scanAfter, Mailbox.nth, hfrag, Option.toList_some] at hu ⊢
      rw [hmb]
      rw [hidx] at hi
      rcases Nat.lt_succ_iff_lt_or_eq.mp hi with hlt | heq
      · obtain ⟨f, hmem, hget⟩ := h.seen hu i hlt
        exact ⟨f, List.mem_append_left _ hmem, hget⟩
      · exact ⟨frag, by simp, by rw [heq]; exact hfrag⟩
  | recvCommit =>
      have hzero : q.peekIndex = 0 := hm
      omega

/-! ### The invariant -/

namespace Sched

/-- **The scheduler invariant.** -/
structure Inv (s : Sched n V M H) : Prop where
  /-- A running actor has one holder, any other none. -/
  one : ∀ i, s.holders i = s.vm.runs i
  /-- Pids not handed out yet name nobody. -/
  fresh : ∀ i, s.vm.nextPid ≤ i → s.vm.procs i = none
  scan : ∀ i p, s.vm.procs i = some p → ScanOk p (s.scans i)

namespace Inv

variable {s : Sched n V M H}

theorem holds_le_runs (h : Inv s) (w : Fin n) (i : Nat) : (s.workers w).holds i ≤ s.vm.runs i := by
  have h1 := s.holds_le_workerHolds w i
  have h2 := h.one i
  unfold holders at h2
  omega

theorem running (h : Inv s) (hw : s.runningProc w = some (pid, p)) :
    s.workers w = .running pid ∧ s.vm.procs pid = some p ∧ p.state = .running := by
  unfold runningProc at hw
  split at hw
  · next pid' hpid =>
      obtain ⟨p', hp, heq⟩ := Option.map_eq_some_iff.mp hw
      obtain ⟨rfl, rfl⟩ := Prod.mk.inj heq
      refine ⟨hpid, hp, ?_⟩
      have hle := h.holds_le_runs w pid'
      rw [hpid] at hle
      simp only [Worker.holds, if_true] at hle
      obtain ⟨r, hr, hrun⟩ := Vm.runs_eq_one (Nat.le_antisymm (Vm.runs_le_one _ _) hle)
      rw [hp] at hr
      obtain rfl := Option.some.inj hr
      exact hrun
  · exact absurd hw (by simp)

/-- A delivery keeps the invariant. -/
theorem delivered (h : Inv s) {vm' : Vm V M H} (hd : Delivered s.vm vm') : Inv (s.setVm vm') where
  one := by
    intro i
    have h1 := h.one i
    have h2 := hd.balance i
    show s.workerHolds i + vm'.runq.count i + s.poller.holds i + s.ended i = vm'.runs i
    unfold holders at h1
    omega
  fresh := by
    intro i hi
    exact hd.absent i (h.fresh i (hd.next ▸ hi))
  scan := by
    intro i q hq
    cases hp : s.vm.procs i with
    | none =>
        have hnone : vm'.procs i = none := hd.absent i hp
        rw [show (s.setVm vm').vm.procs i = vm'.procs i from rfl, hnone] at hq
        exact absurd hq (by simp)
    | some p =>
        obtain ⟨q', hq', hg⟩ := hd.present i p hp
        rw [show (s.setVm vm').vm.procs i = vm'.procs i from rfl, hq'] at hq
        obtain rfl := Option.some.inj hq
        exact (h.scan i p hp).grown hg

/-- One actor's record, its scan record and one worker change together.  The
holders come out right if what the worker gives up or gains is what the state of
the actor changes by. -/
theorem update (h : Inv s) (hp : s.vm.procs pid = some p) (hq : ScanOk q r)
    (hmove : ∀ i, (s.vm.setProc pid q).runs i + (s.workers w).holds i = s.vm.runs i + x.holds i) :
    Inv (((s.setVm (s.vm.setProc pid q)).setScan pid r).setWorker w x) where
  one := by
    intro i
    have h1 := h.one i
    have h2 := hmove i
    have h3 := s.workerHolds_update w x i
    show (∑ v, (Function.update s.workers w x v).holds i) + s.vm.runq.count i +
      s.poller.holds i + s.ended i = (s.vm.setProc pid q).runs i
    unfold holders at h1
    omega
  fresh := by
    intro i hi
    have hne : i ≠ pid := by
      rintro rfl
      rw [h.fresh i hi] at hp
      exact absurd hp (by simp)
    exact (Vm.setProc_ne _ _ hne).trans (h.fresh i hi)
  scan := by
    intro i p' hp'
    by_cases hi : i = pid
    · subst hi
      have heq : q = p' := Option.some.inj ((Vm.setProc_self s.vm i q).symm.trans hp')
      subst heq
      show ScanOk q (Function.update s.scans i r i)
      rw [Function.update_self]
      exact hq
    · show ScanOk p' (Function.update s.scans pid r i)
      rw [Function.update_of_ne hi]
      exact h.scan i p' ((Vm.setProc_ne _ _ hi).symm.trans hp')

/-- The same with the scan record left alone. -/
theorem updateProc (h : Inv s) (hp : s.vm.procs pid = some p) (hq : ScanOk q (s.scans pid))
    (hmove : ∀ i, (s.vm.setProc pid q).runs i + (s.workers w).holds i = s.vm.runs i + x.holds i) :
    Inv ((s.setVm (s.vm.setProc pid q)).setWorker w x) := by
  have hu := h.update (r := s.scans pid) hp hq hmove
  rwa [show (s.setVm (s.vm.setProc pid q)).setScan pid (s.scans pid) =
    s.setVm (s.vm.setProc pid q) by simp [setScan, setVm]] at hu

/-- Only a worker moves, from one way of holding an actor to another. -/
theorem moveWorker (h : Inv s) (hmove : ∀ i, (s.workers w).holds i = x.holds i) :
    Inv (s.setWorker w x) where
  one := by
    intro i
    have h1 := h.one i
    have h2 := hmove i
    have h3 := s.workerHolds_update w x i
    show (∑ v, (Function.update s.workers w x v).holds i) + s.vm.runq.count i +
      s.poller.holds i + s.ended i = s.vm.runs i
    unfold holders at h1
    omega
  fresh := h.fresh
  scan := h.scan

/-- A worker and the queue pass an actor between them. -/
theorem moveQueue (h : Inv s) (runq : List Nat)
    (hmove : ∀ i, (s.workers w).holds i + s.vm.runq.count i = x.holds i + runq.count i) :
    Inv ((s.setVm { s.vm with runq := runq }).setWorker w x) where
  one := by
    intro i
    have h1 := h.one i
    have h2 := hmove i
    have h3 := s.workerHolds_update w x i
    show (∑ v, (Function.update s.workers w x v).holds i) + runq.count i +
      s.poller.holds i + s.ended i = s.vm.runs i
    unfold holders at h1
    omega
  fresh := h.fresh
  scan := h.scan

/-- The share a worker loses when its actor stops running. -/
theorem stops (hw : s.workers w = .running pid) (hp : s.vm.procs pid = some p)
    (hs : p.state = .running) (hq : q.state ≠ .running) (hx : ∀ i, x.holds i = 0) :
    ∀ i, (s.vm.setProc pid q).runs i + (s.workers w).holds i = s.vm.runs i + x.holds i := by
  refine Vm.runs_replace hp ?_ ?_
  · simp [hw, hx, Worker.holds_running, hs, hq]
  · intro i hi
    simp [hw, hx, Worker.holds_running, hi]

/-- A worker's actor goes on running. -/
theorem goesOn (hp : s.vm.procs pid = some p) (hs : q.state = p.state) :
    ∀ i, (s.vm.setProc pid q).runs i + (s.workers w).holds i =
      s.vm.runs i + (s.workers w).holds i :=
  Vm.runs_replace hp (by rw [hs]) (fun _ _ => rfl)

/-! ### The steps -/

theorem stepBuiltin (h : Inv s) {id : Builtin} {k now now' : Nat} (hid : id ≠ .spawn)
    (ht : s.stepBuiltin W w id k now now' = some t) : Inv t := by
  obtain ⟨⟨pid, p⟩, hrp, ht⟩ := Option.bind_eq_some_iff.mp ht
  obtain ⟨hw, hp, hrun⟩ := h.running hrp
  dsimp only at ht
  split at ht
  · next vm' hdone =>
      obtain ⟨q', hq', rfl⟩ := Option.map_eq_some_iff.mp ht
      rcases doBuiltin_done_sched hid hp hdone with ⟨hd, hscan⟩ | ⟨q, rfl, hs, hm⟩
      · rw [hscan, show (s.setVm vm').setScan pid (s.scans pid) = s.setVm vm' by
          simp [setScan, setVm]]
        exact h.delivered hd
      · rw [Vm.setProc_self] at hq'
        obtain rfl := Option.some.inj hq'
        have hawake : q.state ≠ .waitRecv := by rw [hs, hrun]; simp
        have hu := h.update (w := w) hp ((h.scan pid p hp).own hawake hm) (goesOn hp hs)
        rwa [show ∀ u : Sched n V M H, u.workers = s.workers → u.setWorker w (s.workers w) = u by
          intro u hu; simp [setWorker, ← hu]] at hu
        rfl
  · next vm' hblk =>
      obtain rfl := Option.some.inj ht
      obtain ⟨q, rfl, hs, hfr, hidx, hempty, hend⟩ := doBuiltin_blocked_sched hp hblk
      have hok : ScanOk q { s.scans pid with parkedByScan := id = .recvPeek } := by
        refine ⟨?_, ?_, ?_⟩
        · intro hu i hi
          rw [hidx] at hi
          rw [hfr]
          exact (h.scan pid p hp).seen hu i hi
        · intro _ hr
          exact hempty (by simpa using hr)
        · intro _ hr
          exact hend (by simpa using hr)
      exact h.update hp hok (stops hw hp hrun (by simp [hs]) (fun _ => rfl))
  · next reason vm' hdied =>
      obtain ⟨q', hq', rfl⟩ := Option.map_eq_some_iff.mp ht
      obtain ⟨q, rfl, hmb, hidx⟩ := doBuiltin_died_sched hid hp hdied
      rw [Vm.setProc_self] at hq'
      obtain rfl := Option.some.inj hq'
      rw [show (s.vm.setProc pid q).setProc pid { q with state := .dead } =
        s.vm.setProc pid { q with state := .dead } by simp [Vm.setProc]]
      refine h.updateProc hp (.of_awake (by simp) ?_)
        (stops hw hp hrun (by simp) (fun _ => rfl))
      intro hu i hi
      obtain ⟨frag, hmem, hget⟩ := (h.scan pid p hp).seen hu i (hidx ▸ hi)
      exact ⟨frag, hmem, by rw [← hget, ← hmb]⟩
  · exact absurd ht (by simp)
  · exact absurd ht (by simp)

theorem stepSpawn (h : Inv s) (ht : s.stepSpawn W w = some t) : Inv t := by
  obtain ⟨⟨pid, p⟩, hrp, ht⟩ := Option.bind_eq_some_iff.mp ht
  obtain ⟨hw, hp, hrun⟩ := h.running hrp
  dsimp only at ht
  split at ht
  · exact absurd ht (by simp)
  split at ht
  · exact absurd ht (by simp)
  obtain rfl := Option.some.inj ht
  have hnone : s.vm.procs s.vm.nextPid = none := h.fresh _ (Nat.le_refl _)
  refine ⟨?_, ?_, ?_⟩
  · intro i
    have h1 := h.one i
    have h2 := s.workerHolds_update w (.spawning pid s.vm.nextPid) i
    have h3 : (s.vm.setProc s.vm.nextPid (procNew W s.vm)).runs i =
        s.vm.runs i + if s.vm.nextPid = i then 1 else 0 := by
      rw [Vm.runs_setProc]
      by_cases hi : s.vm.nextPid = i
      · subst hi
        simp [Vm.runs, hnone, procNew]
      · simp [hi]
    show (∑ v, (Function.update s.workers w (.spawning pid s.vm.nextPid) v).holds i) +
      s.vm.runq.count i + s.poller.holds i + s.ended i =
        (s.vm.setProc s.vm.nextPid (procNew W s.vm)).runs i
    unfold holders at h1
    rw [hw, Worker.holds_running, Worker.holds_spawning] at h2
    omega
  · intro i hi
    have hlt : s.vm.nextPid < i := hi
    have hne : i ≠ s.vm.nextPid := by omega
    exact (Vm.setProc_ne s.vm (procNew W s.vm) hne).trans (h.fresh i (by omega))
  · intro i q hq
    show ScanOk q (Function.update s.scans s.vm.nextPid .fresh i)
    by_cases hi : i = s.vm.nextPid
    · subst hi
      rw [Function.update_self]
      have heq : procNew W s.vm = q :=
        Option.some.inj ((Vm.setProc_self s.vm s.vm.nextPid (procNew W s.vm)).symm.trans hq)
      subst heq
      exact .of_awake (by simp [procNew]) (fun _ j hj => absurd hj (by simp [procNew]))
    · rw [Function.update_of_ne hi]
      exact h.scan i q ((Vm.setProc_ne s.vm (procNew W s.vm) hi).symm.trans hq)

/-- What a worker inside `spawn` holds: two actors, both running. -/
theorem spawning (h : Inv s) {child : Nat} {np : Proc V M H}
    (hw : s.workers w = .spawning pid child) (hp : s.vm.procs pid = some p)
    (hnp : s.vm.procs child = some np) :
    pid ≠ child ∧ p.state = .running ∧ np.state = .running := by
  have hle := h.holds_le_runs w
  simp only [hw, Worker.holds_spawning] at hle
  have hrun : ∀ {i : Nat} {q : Proc V M H}, s.vm.procs i = some q → 1 ≤ s.vm.runs i →
      q.state = .running := by
    intro i q hq hi
    rw [Vm.runs_of hq] at hi
    by_contra hc
    rw [if_neg hc] at hi
    omega
  have hpid := hle pid
  have hchild := hle child
  rw [if_pos rfl] at hpid
  rw [if_pos (rfl : child = child)] at hchild
  refine ⟨?_, hrun hp (by omega), hrun hnp (by omega)⟩
  rintro rfl
  have := s.vm.runs_le_one pid
  rw [if_pos rfl] at hpid
  omega

theorem stepSpawnEnqueue (h : Inv s) (ht : s.stepSpawnEnqueue W w = some t) : Inv t := by
  unfold Sched.stepSpawnEnqueue at ht
  split at ht
  swap
  · exact absurd ht (by simp)
  next pid child hw =>
    split at ht
    swap
    · exact absurd ht (by simp)
    next p np hp hnp =>
      obtain ⟨hne, hprun, hnprun⟩ := h.spawning hw hp hnp
      split at ht
      · next owned heap fid hcopy hfid =>
          obtain rfl := Option.some.inj ht
          -- fill the child in, fill the parent in, pass the child to the queue
          have h1 := h.delivered (.setSame hnp (q := procFrameInit W s.vm { np with heap := heap }
            fid owned) rfl rfl rfl)
          have hp' : (s.vm.setProc child (procFrameInit W s.vm { np with heap := heap } fid
            owned)).procs pid = some p := (Vm.setProc_ne _ _ hne).trans hp
          have h2 := h1.delivered (.setSame hp'
            (q := { p with heap := W.setOwner p.heap p.acc child, acc := W.ofPid child }) rfl rfl rfl)
          refine h2.moveQueue (w := w) (x := .running pid) (s.vm.runq ++ [child]) ?_
          intro i
          show (s.workers w).holds i + s.vm.runq.count i = _
          rw [hw, Worker.holds_spawning, Worker.holds_running, List.count_append,
            List.count_singleton]
          simp only [beq_iff_eq]
          omega
      · obtain rfl := Option.some.inj ht
        -- the child ends in the worker's hands, and then the parent
        have h1 := h.updateProc (w := w) (x := .running pid) (q := { np with state := .dead }) hnp
          (.of_awake (by simp) (h.scan child np hnp).seen)
          (Vm.runs_replace hnp (by simp [hw, Worker.holds, hnprun, hne])
            (fun i hi => by simp [hw, Worker.holds, hi]))
        have hp' : ((s.setVm (s.vm.setProc child { np with state := .dead })).setWorker w
            (.running pid)).vm.procs pid = some p := (Vm.setProc_ne _ _ hne).trans hp
        have h2 := h1.updateProc (w := w) (x := .idle) (q := { p with state := .dead }) hp'
          (.of_awake (by simp) (h.scan pid p hp).seen)
          (stops (by simp [setWorker]) hp' hprun (by simp) (fun _ => rfl))
        simpa [setWorker, setVm] using h2

/-- The poller takes an actor or gives it to the queue. -/
theorem movePoller (h : Inv s) (vm' : Vm V M H) {x : Poller} (hnext : vm'.nextPid = s.vm.nextPid)
    (habsent : ∀ i, s.vm.procs i = none → vm'.procs i = none)
    (hscan : ∀ i q, vm'.procs i = some q → ScanOk q (s.scans i))
    (hmove : ∀ i, vm'.runs i + (s.poller.holds i + s.vm.runq.count i) =
      s.vm.runs i + (x.holds i + vm'.runq.count i)) :
    Inv { s.setVm vm' with poller := x } where
  one := by
    intro i
    have h1 := h.one i
    have h2 := hmove i
    show s.workerHolds i + vm'.runq.count i + x.holds i + s.ended i = vm'.runs i
    unfold holders at h1
    omega
  fresh := by
    intro i hi
    exact habsent i (h.fresh i (hnext ▸ hi))
  scan := hscan

theorem absent_setProc (hp : s.vm.procs pid = some p) :
    ∀ i, s.vm.procs i = none → (s.vm.setProc pid q).procs i = none := by
  intro i hi
  have hne : i ≠ pid := by rintro rfl; rw [hp] at hi; exact absurd hi (by simp)
  exact (Vm.setProc_ne _ _ hne).trans hi

theorem scan_setProc (h : Inv s) (hq : ScanOk q (s.scans pid)) :
    ∀ i p, (s.vm.setProc pid q).procs i = some p → ScanOk p (s.scans i) := by
  intro i p hp
  by_cases hi : i = pid
  · subst hi
    rw [Vm.setProc_self] at hp
    exact Option.some.inj hp ▸ hq
  · exact h.scan i p ((Vm.setProc_ne _ _ hi).symm.trans hp)

/-- The poller changes the record of the actor it is at. -/
theorem pollProc (h : Inv s) {x : Poller} (hp : s.vm.procs pid = some p)
    (hq : ScanOk q (s.scans pid))
    (hself : (if q.state = .running then 1 else 0) + s.poller.holds pid =
      (if p.state = .running then 1 else 0) + x.holds pid)
    (hother : ∀ i, pid ≠ i → s.poller.holds i = x.holds i) :
    Inv { s.setVm (s.vm.setProc pid q) with poller := x } := by
  refine h.movePoller _ rfl (absent_setProc hp) (h.scan_setProc hq) (Vm.runs_replace hp ?_ ?_)
  · rw [Vm.setProc_runq]
    omega
  · intro i hi
    rw [Vm.setProc_runq, hother i hi]

theorem stepDeadlineScan (h : Inv s) {now : Nat} (hpoll : s.poller = .scanning)
    (hp : s.vm.procs pid = some p) :
    Inv { s.setVm (s.vm.setProc pid (deadlineFire now p).1) with
      poller := if (deadlineFire now p).2 = true then .fired pid else .scanning } := by
  unfold deadlineFire
  by_cases hc : p.state = .waitRecv ∧ 0 ≤ p.recvDeadlineMs ∧ p.recvDeadlineMs ≤ now
  · simp only [if_pos hc, if_true]
    refine h.pollProc hp (.of_awake (by simp) (h.scan pid p hp).seen) ?_ ?_
    · simp [hpoll, Poller.holds, hc.1]
    · intro i hi
      simp [hpoll, Poller.holds, hi]
  · simp only [if_neg hc, Bool.false_eq_true, if_false]
    exact h.pollProc hp (h.scan pid p hp) (by rw [hpoll]) (fun i _ => by rw [hpoll])

theorem stepScanUnregister (h : Inv s) (hpoll : s.poller = .fired pid)
    (hp : s.vm.procs pid = some p) :
    Inv { s.setVm (s.vm.setProc pid { p with waitRegistered := false }) with
      poller := .unregistered pid } :=
  h.pollProc hp ((h.scan pid p hp).grown (.of_eq rfl rfl rfl)) (by rw [hpoll]; rfl)
    (fun i _ => by rw [hpoll]; rfl)

theorem stepScanEnqueue (h : Inv s) (hpoll : s.poller = .unregistered pid) :
    Inv { s.setVm (s.vm.runqEnqueue pid) with poller := .scanning } := by
  refine h.movePoller _ rfl (fun _ hi => hi) h.scan ?_
  intro i
  rw [hpoll, Vm.count_runqEnqueue, Vm.runs_runqEnqueue]
  simp [Poller.holds]
  omega

theorem stepIoWake (h : Inv s) (hp : s.vm.procs pid = some p) (hstate : p.state = .waitIo) :
    Inv (s.setVm ((s.vm.setProc pid
      { p with state := .running, waitRegistered := false }).runqEnqueue pid)) := by
  refine h.movePoller ((s.vm.setProc pid _).runqEnqueue pid) (x := s.poller) rfl
    (absent_setProc hp) (h.scan_setProc (.of_awake (by simp) (h.scan pid p hp).seen)) ?_
  refine Vm.runs_replace hp ?_ ?_
  · rw [Vm.count_runqEnqueue, Vm.setProc_runq]
    simp [hstate]
    omega
  · intro i hi
    rw [Vm.count_runqEnqueue, Vm.setProc_runq, if_neg hi, Nat.add_zero]

/-- The entry actor's worker lets go of it and the end of the program takes it. -/
theorem stepEntryReturn (h : Inv s) (hw : s.workers w = .running s.mainPid) :
    Inv { s.setWorker w .idle with entryDone := true } := by
  refine ⟨?_, h.fresh, h.scan⟩
  intro i
  have h1 := h.one i
  have h2 := s.workerHolds_update w .idle i
  have h3 := s.holds_le_workerHolds w i
  have h4 := s.vm.runs_le_one i
  show (∑ v, (Function.update s.workers w .idle v).holds i) + s.vm.runq.count i +
    s.poller.holds i + (if true = true ∧ s.mainPid = i then 1 else 0) = s.vm.runs i
  unfold holders ended at h1
  rw [hw, Worker.holds_running] at h2 h3
  simp only [Worker.holds, true_and] at h2 ⊢
  -- the program had not ended before: the worker was its only holder
  by_cases hi : s.mainPid = i
  · simp only [hi, if_true, and_true] at h1 h2 h3 ⊢
    split at h1 <;> omega
  · simp only [hi, if_false, and_false] at h1 h2 h3 ⊢
    omega

/-- What is in the queue runs, so the second look never finds otherwise. -/
theorem picked (h : Inv s) (hw : s.workers w = .picked pid) :
    ∃ p, s.vm.procs pid = some p ∧ p.state = .running := by
  have hle := h.holds_le_runs w pid
  rw [hw] at hle
  simp only [Worker.holds, if_true] at hle
  exact Vm.runs_eq_one (Nat.le_antisymm (Vm.runs_le_one _ _) hle)

/-- A change of every actor that wakes none keeps the invariant if it lets none
run that ran. -/
theorem mapProcs (h : Inv s) (f : Proc V M H → Proc V M H)
    (hrun : ∀ p, (f p).state = .running ↔ p.state = .running)
    (hok : ∀ p (r : ScanRecord M), ScanOk p r → ScanOk (f p) r) :
    Inv (s.setVm { s.vm with procs := fun i => (s.vm.procs i).map f }) where
  one := by
    intro i
    have h1 := h.one i
    show s.holders i = _
    rw [h1]
    show s.vm.runs i = Vm.runs { s.vm with procs := fun i => (s.vm.procs i).map f } i
    unfold Vm.runs
    cases hp : s.vm.procs i with
    | none => simp [hp]
    | some p => simp [hp, hrun]
  fresh := by
    intro i hi
    show (s.vm.procs i).map f = none
    rw [h.fresh i hi]
    rfl
  scan := by
    intro i q hq
    obtain ⟨p, hp, rfl⟩ := Option.map_eq_some_iff.mp (show (s.vm.procs i).map f = some q from hq)
    exact hok p _ (h.scan i p hp)

theorem killIfWaiting_running (p : Proc V M H) :
    (killIfWaiting p).state = .running ↔ p.state = .running := by
  unfold killIfWaiting
  split
  · next hw => rcases hw with hw | hw <;> simp [hw]
  · rfl

theorem scanOk_killIfWaiting (h : ScanOk p r) : ScanOk (killIfWaiting p) r := by
  unfold killIfWaiting
  split
  · exact .of_awake (by simp) h.seen
  · exact h

theorem stepDequeue {w : Fin n} (h : Inv s) (ht : s.step W (.dequeue w) = some t) : Inv t := by
  simp only [Sched.step] at ht
  split at ht
  · next pid rest hw hq =>
      obtain rfl := Option.some.inj ht
      refine h.moveQueue rest ?_
      intro i
      rw [hw, hq, List.count_cons]
      simp [Worker.holds]
      omega
  · exact absurd ht (by simp)

theorem stepCheck {w : Fin n} (h : Inv s) (ht : s.step W (.check w) = some t) : Inv t := by
  simp only [Sched.step] at ht
  split at ht
  · next pid hw =>
      obtain ⟨p, hp, hrun⟩ := h.picked hw
      rw [hp] at ht
      obtain rfl := Option.some.inj ht
      rw [if_pos hrun]
      exact h.moveWorker (fun i => by rw [hw]; rfl)
  · exact absurd ht (by simp)

theorem stepYieldEnqueue {w : Fin n} (h : Inv s) (ht : s.step W (.yieldEnqueue w) = some t) : Inv t := by
  simp only [Sched.step] at ht
  split at ht
  · next pid hw =>
      obtain rfl := Option.some.inj ht
      refine h.moveQueue (s.vm.runq ++ [pid]) ?_
      intro i
      rw [hw, List.count_append, List.count_singleton]
      simp [Worker.holds]
      omega
  · exact absurd ht (by simp)

theorem stepIoRegister {w : Fin n} (h : Inv s) (ht : s.step W (.ioRegister w) = some t) : Inv t := by
  simp only [Sched.step] at ht
  split at ht
  · next pid hw =>
      obtain ⟨p, hp, rfl⟩ := Option.map_eq_some_iff.mp ht
      have h1 := h.delivered (.setSame hp (q := { p with waitRegistered := true }) rfl rfl rfl)
      exact h1.moveWorker (fun i => by rw [setVm_workers, hw]; rfl)
  · exact absurd ht (by simp)

theorem stepReturned {w : Fin n} (h : Inv s) (ht : s.step W (.entryReturn w) = some t) : Inv t := by
  obtain ⟨⟨pid, p⟩, hrp, ht⟩ := Option.bind_eq_some_iff.mp ht
  dsimp only at ht
  split at ht
  · next hmain =>
      obtain rfl := Option.some.inj ht
      exact h.stepEntryReturn (hmain ▸ (h.running hrp).1)
  · exact absurd ht (by simp)

theorem stepWoken {pid : Nat} (h : Inv s) (ht : s.step W (.ioWake pid) = some t) : Inv t := by
  obtain ⟨p, hp, ht⟩ := Option.bind_eq_some_iff.mp ht
  split at ht
  · next hc =>
      obtain rfl := Option.some.inj ht
      exact h.stepIoWake hp hc.2
  · exact absurd ht (by simp)

theorem stepDeadline {pid now : Nat} (h : Inv s) (ht : s.step W (.deadlineScan pid now) = some t) :
    Inv t := by
  simp only [Sched.step] at ht
  split at ht
  · next hpoll =>
      obtain ⟨p, hp, rfl⟩ := Option.map_eq_some_iff.mp ht
      exact h.stepDeadlineScan hpoll hp
  · exact absurd ht (by simp)

theorem stepUnregister (h : Inv s) (ht : s.step W .scanUnregister = some t) : Inv t := by
  simp only [Sched.step] at ht
  split at ht
  · next pid hpoll =>
      obtain ⟨p, hp, rfl⟩ := Option.map_eq_some_iff.mp ht
      exact h.stepScanUnregister hpoll hp
  · exact absurd ht (by simp)

theorem stepEnqueue (h : Inv s) (ht : s.step W .scanEnqueue = some t) : Inv t := by
  simp only [Sched.step] at ht
  split at ht
  · next pid hpoll =>
      obtain rfl := Option.some.inj ht
      exact h.stepScanEnqueue hpoll
  · exact absurd ht (by simp)

/-- **Every step of every thread keeps the invariant.** -/
theorem step (h : Inv s) {e : Event n M} (ht : s.step W e = some t) : Inv t := by
  cases e with
  | dequeue w => exact h.stepDequeue ht
  | check w => exact h.stepCheck ht
  | yield w =>
      obtain ⟨⟨pid, p⟩, hrp, rfl⟩ := Option.map_eq_some_iff.mp ht
      obtain ⟨hw, -, -⟩ := h.running hrp
      exact h.moveWorker (fun i => by rw [hw]; rfl)
  | yieldEnqueue w => exact h.stepYieldEnqueue ht
  | builtin w id k now now' =>
      simp only [Sched.step] at ht
      split at ht
      · exact absurd ht (by simp)
      · next hid => exact h.stepBuiltin hid ht
  | spawn w => exact h.stepSpawn ht
  | spawnEnqueue w => exact h.stepSpawnEnqueue ht
  | ioBlock w =>
      obtain ⟨⟨pid, p⟩, hrp, rfl⟩ := Option.map_eq_some_iff.mp ht
      obtain ⟨hw, hp, hrun⟩ := h.running hrp
      exact h.updateProc hp (.of_awake (by simp) (h.scan pid p hp).seen)
        (stops hw hp hrun (by simp) (fun _ => rfl))
  | ioRegister w => exact h.stepIoRegister ht
  | die w =>
      obtain ⟨⟨pid, p⟩, hrp, rfl⟩ := Option.map_eq_some_iff.mp ht
      obtain ⟨hw, hp, hrun⟩ := h.running hrp
      exact h.updateProc hp (.of_awake (by simp) (h.scan pid p hp).seen)
        (stops hw hp hrun (by simp) (fun _ => rfl))
  | entryReturn w => exact h.stepReturned ht
  | deliver target frag =>
      obtain ⟨q, hq, rfl⟩ := Option.map_eq_some_iff.mp ht
      exact h.delivered (Delivered.setProc (liveProc_eq_some hq) (mboxAppend_grown q frag) _
        (mboxAppend_wake q frag))
  | clearWaits =>
      obtain rfl := Option.some.inj ht
      exact h.mapProcs _ (fun _ => Iff.rfl) (fun p r hr => hr.grown (.of_eq rfl rfl rfl))
  | killWaiting =>
      obtain rfl := Option.some.inj ht
      exact h.mapProcs _ killIfWaiting_running (fun _ _ hr => scanOk_killIfWaiting hr)
  | ioWake pid => exact h.stepWoken ht
  | deadlineScan pid now => exact h.stepDeadline ht
  | scanUnregister => exact h.stepUnregister ht
  | scanEnqueue => exact h.stepEnqueue ht

theorem init (main : Proc V M H) (vm : Vm V M H) : Inv (Sched.init n main vm) where
  one := by
    intro i
    by_cases hi : main.pid = i
    · subst hi
      simp [holders, workerHolds, ended, Sched.init, Vm.runs, Worker.holds, Poller.holds]
    · have hi' : i ≠ main.pid := fun hc => hi hc.symm
      simp [holders, workerHolds, ended, Sched.init, Vm.runs, Worker.holds, Poller.holds, hi, hi']
  fresh := by
    intro i hi
    have hlt : main.pid < i := hi
    exact if_neg (by omega)
  scan := by
    intro i p hp
    simp only [Sched.init] at hp
    split at hp
    · obtain rfl := Option.some.inj hp
      exact .of_awake (by simp) (fun _ j hj => absurd hj (by simp))
    · exact absurd hp (by simp)

theorem run {main : Proc V M H} {vm : Vm V M H} {es : List (Event n M)}
    (h : Run (ofFn (Sched.step W)) (Sched.init n main vm) es t) : Inv t :=
  h.invariant (fun _ _ _ hi hs => hi.step hs) (init main vm)

end Inv

end Sched

end TinyActor.Runtime
