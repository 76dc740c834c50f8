/-
Every pipe end is closed once and every child is waited for once.

What a record still has to do is read off its fields: `owed`, the `close` and
`waitpid` calls of the fields that are not cleared.  A call is owed from the moment
its descriptor or child exists, by one record, until it is made; that is the notion
of `Lib/Linear.lean` again, with records as the handles and system calls as the
things.  `run` issues calls and makes some of them at once, `close_stdin` makes one,
and `wait`, `close` and the destructor make all that are left.

When the machine is freed every payload has been released, so no record is live
and no call is owed.  This is where a payload that `recv_commit` loses matters: its
record stays, and its calls are never made.
-/
import TinyActor.Lib.Run
import TinyActor.Proofs.Native
import TinyActor.Stdlib.Process

namespace TinyActor.Stdlib.Process

open Lib Runtime.Native Runtime.Native.State Runtime.Resource

variable {L : Nat → Option ChildState} {e e' : Os} {p : Nat} {ps : ChildState}

/-! ### What a record owes -/

/-- The calls a record still has to make, in the order its destructor makes them. -/
def ChildState.owed (ps : ChildState) : List Sys :=
  ps.inFd.toList.map .close ++ ps.outFd.toList.map .close ++ ps.pid.toList.map .waitpid

/-- The record behind the payload is live and owes the call. -/
def Owes (L : Nat → Option ChildState) (p : Nat) (c : Sys) : Prop := ∃ ps ∈ L p, c ∈ ps.owed

/-- The call's descriptor or child exists. -/
def Issued (e : Os) : Sys → Prop
  | .close fd => fd < e.nextFd
  | .waitpid pid => pid < e.nextChild

@[simp] theorem calls_closeFd (e : Os) (fd : Option Nat) :
    (e.closeFd fd).calls = e.calls ++ fd.toList.map .close := by
  cases fd with
  | none => exact (List.append_nil _).symm
  | some fd => rfl

@[simp] theorem calls_waitpid (e : Os) (pid : Option Nat) :
    (e.waitpid pid).calls = e.calls ++ pid.toList.map .waitpid := by
  cases pid with
  | none => exact (List.append_nil _).symm
  | some pid => rfl

@[simp] theorem nextFd_closeFd (e : Os) (fd : Option Nat) : (e.closeFd fd).nextFd = e.nextFd := by
  cases fd <;> rfl

@[simp] theorem nextChild_closeFd (e : Os) (fd : Option Nat) :
    (e.closeFd fd).nextChild = e.nextChild := by
  cases fd <;> rfl

@[simp] theorem nextFd_waitpid (e : Os) (pid : Option Nat) : (e.waitpid pid).nextFd = e.nextFd := by
  cases pid <;> rfl

@[simp] theorem nextChild_waitpid (e : Os) (pid : Option Nat) :
    (e.waitpid pid).nextChild = e.nextChild := by
  cases pid <;> rfl

/-- Closing both pipe ends and waiting: what the destructor does, and what `wait`
and `close` do around their release. -/
def Os.finish (e : Os) (ps : ChildState) : Os :=
  ((e.closeFd ps.inFd).closeFd ps.outFd).waitpid ps.pid

theorem calls_finish : (e.finish ps).calls = e.calls ++ ps.owed := by
  unfold Os.finish ChildState.owed
  simp only [calls_waitpid, calls_closeFd, List.append_assoc]

/-- The two systems have the same descriptors and children. -/
def SameIssued (e e' : Os) : Prop := e'.nextFd = e.nextFd ∧ e'.nextChild = e.nextChild

theorem sameIssued_finish : SameIssued e (e.finish ps) := by
  simp [SameIssued, Os.finish]

theorem procDtor_eq (p : Nat) (ps : ChildState) (e : Os) :
    ∃ l, procDtor p ps e = { e.finish ps with killed := l } := by
  unfold procDtor Os.finish
  cases ps.pid with
  | none => exact ⟨_, rfl⟩
  | some pid => exact ⟨_, rfl⟩

/-! ### Every call is owed by one record, until it is made -/

structure Ledger (L : Nat → Option ChildState) (e : Os) : Prop where
  linear : Linear (Owes L) (Issued e) e.calls
  nodup : ∀ {p ps}, L p = some ps → ps.owed.Nodup

namespace Ledger

/-- The record of `p` makes some of its calls and owes the rest. -/
theorem settle {gs : List Sys} {y : Option ChildState} (k : Ledger L e) (hp : L p = some ps)
    (hgs : gs.Nodup) (hsub : gs ⊆ ps.owed)
    (hrest : ∀ c, (∃ qs ∈ y, c ∈ qs.owed) ↔ c ∈ ps.owed ∧ c ∉ gs)
    (hnd : ∀ qs ∈ y, qs.owed.Nodup) (hcalls : e'.calls = e.calls ++ gs) (hsame : SameIssued e e') :
    Ledger (Function.update L p y) e' := by
  have hissued : Issued e' = Issued e := by
    funext c
    cases c <;> simp only [Issued, hsame.1, hsame.2]
  refine ⟨?_, fun {q qs} hq => ?_⟩
  · rw [hcalls, hissued]
    refine k.linear.release hgs (fun c hc => ⟨p, ps, hp, hsub hc⟩) fun q c => ?_
    unfold Owes
    by_cases hqp : q = p
    · subst hqp
      rw [Function.update_self, hrest, hp]
      simp
    · rw [Function.update_of_ne hqp]
      refine ⟨fun hq => ⟨hq, fun hc => ?_⟩, fun hq => hq.1⟩
      exact hqp (k.linear.unique hq ⟨ps, hp, hsub hc⟩)
  · rw [Function.update_apply] at hq
    split at hq
    · exact hnd qs hq
    · exact k.nodup hq

/-- The record of `p` makes all the calls it owes and is gone. -/
theorem settleAll (k : Ledger L e) (hp : L p = some ps) (hcalls : e'.calls = e.calls ++ ps.owed)
    (hsame : SameIssued e e') : Ledger (Function.update L p none) e' :=
  k.settle hp (k.nodup hp) (List.Subset.refl _) (by simp) (by simp) hcalls hsame

theorem dtor : DtorKeeps procDtor Ledger := by
  intro L e p ps k hp
  obtain ⟨l, heq⟩ := procDtor_eq p ps e
  rw [heq]
  exact k.settleAll hp calls_finish sameIssued_finish

/-- New descriptors and children: some of their calls are made at once, and the
record of `p`, which owed nothing, owes the others. -/
theorem issue {y : Option ChildState} (k : Ledger L e) (ts gs : List Sys)
    (hp : ∀ c, ¬ Owes L p c) (hnew : ∀ c ∈ ts, ¬ Issued e c) (hgs : gs.Nodup) (hsub : gs ⊆ ts)
    (hrest : ∀ c, (∃ qs ∈ y, c ∈ qs.owed) ↔ c ∈ ts ∧ c ∉ gs) (hnd : ∀ qs ∈ y, qs.owed.Nodup)
    (hcalls : e'.calls = e.calls ++ gs) (hborn : ∀ c, Issued e' c ↔ Issued e c ∨ c ∈ ts) :
    Ledger (Function.update L p y) e' := by
  refine ⟨?_, fun {q qs} hq => ?_⟩
  · rw [hcalls]
    refine k.linear.issue p hnew hgs hsub (fun q c => ?_) hborn
    by_cases hqp : q = p
    · subst hqp
      have hself : Owes (Function.update L q y) q c ↔ ∃ qs ∈ y, c ∈ qs.owed := by
        unfold Owes
        rw [Function.update_self]
      rw [hself, hrest]
      simp [hp c]
    · have hother : Owes (Function.update L p y) q c ↔ Owes L q c := by
        unfold Owes
        rw [Function.update_of_ne hqp]
      rw [hother]
      simp [hqp]
  · rw [Function.update_apply] at hq
    split at hq
    · exact hnd qs hq
    · exact k.nodup hq

/-- New descriptors that are all closed at once. -/
theorem issueAll (k : Ledger L e) (ts : List Sys) (hp : ∀ c, ¬ Owes L p c)
    (hnew : ∀ c ∈ ts, ¬ Issued e c) (hts : ts.Nodup) (hcalls : e'.calls = e.calls ++ ts)
    (hborn : ∀ c, Issued e' c ↔ Issued e c ∨ c ∈ ts) : Ledger (Function.update L p none) e' :=
  k.issue ts ts hp hnew hts (List.Subset.refl _) (by simp) (by simp) hcalls hborn

/-- **`run`, on every outcome.**  The descriptors that are not kept are closed, and
the record has the others. -/
theorem startChild (k : Ledger L e) (hp : ∀ c, ¬ Owes L p c) (pipe₁ pipe₂ forked : Bool) :
    Ledger (Function.update L p (Process.startChild e pipe₁ pipe₂ forked).2)
      (Process.startChild e pipe₁ pipe₂ forked).1 := by
  unfold Process.startChild
  dsimp only
  generalize hn : e.nextFd = n
  generalize hm : e.nextChild = m
  split
  · exact k.issueAll [] hp (by simp) (by simp) (by simp) (by simp)
  split
  · refine k.issueAll [.close n, .close (n + 1)] hp ?_ (by simp) (by simp [Os.pipe]) ?_
    · simp [Issued, hn]
    · rintro (fd | pid)
      · simp only [Issued, Os.pipe, nextFd_closeFd, List.mem_cons, Sys.close.injEq, List.not_mem_nil,
          or_false]
        omega
      · simp [Issued, Os.pipe]
  split
  · refine k.issueAll [.close n, .close (n + 1), .close (n + 2), .close (n + 3)] hp ?_ (by simp)
      (by simp [Os.pipe]) ?_
    · simp [Issued, hn]
    · rintro (fd | pid)
      · simp only [Issued, Os.pipe, nextFd_closeFd, List.mem_cons, Sys.close.injEq, List.not_mem_nil,
          or_false]
        omega
      · simp [Issued, Os.pipe]
  · refine k.issue
      [.close n, .close (n + 1), .close (n + 2), .close (n + 3), .waitpid m]
      [.close n, .close (n + 3)] hp ?_ ?_ ?_ ?_ ?_ ?_ ?_
    · simp [Issued, hn, hm]
    · simp
    · simp
    · rintro (fd | pid)
      · simp only [ChildState.owed, Option.mem_def, Option.some.injEq, exists_eq_left', Option.toList_some,
          List.map_cons, List.map_nil, List.mem_append, List.mem_cons, Sys.close.injEq,
          List.not_mem_nil, or_false, reduceCtorEq]
        omega
      · simp [ChildState.owed, eq_comm]
    · simp [ChildState.owed]
    · simp [Os.pipe, Os.fork]
    · rintro (fd | pid)
      · simp only [Issued, Os.pipe, Os.fork, nextFd_closeFd, List.mem_cons, Sys.close.injEq,
          List.not_mem_nil, or_false, reduceCtorEq]
        omega
      · simp only [Issued, Os.pipe, Os.fork, nextChild_closeFd, List.mem_cons, Sys.waitpid.injEq,
          List.not_mem_nil, or_false, false_or, reduceCtorEq]
        omega

end Ledger

/-! ### Every call of the module -/

namespace State

variable {s t : State} {a h : Nat} {r : Answer}

structure Sound (s : State) : Prop where
  fit : Fit s
  /-- Nothing has been lost. -/
  inv : World.Inv s.world
  ledger : Ledger s.live s.env

theorem sound_init : Sound init := by
  refine ⟨fit_start _, World.inv_init, ?_⟩
  unfold init
  rw [live_start]
  refine ⟨Linear.empty (by simp [Owes]) ?_, fun hp => absurd hp (by simp)⟩
  rintro (fd | pid) <;> exact Nat.not_lt_zero _

theorem Sound.event {e : World.Event} (hs : Sound s) (hl : s.world.LosesNothing e)
    (he : s.event procDtor e = some t) : Sound t := by
  obtain ⟨hfit, -, -, hkeeps⟩ := hs.fit.event he
  exact ⟨hfit, hs.inv.step hl (event_world he), hkeeps Ledger Ledger.dtor hs.ledger⟩

/-- Clearing the record, releasing it and waiting: `wait` and `close`. -/
theorem Sound.finish {c : Int} (hs : Sound s) (huse : s.CanUse a h)
    (ho : taResourceOpen s.world a h c = .ok p) (hx : s.recs p = some ps)
    (he : ((s.setRec p .cleared).onEnv fun e => (e.closeFd ps.inFd).closeFd ps.outFd).event procDtor
      (.close a h) = some t) : Sound (t.onEnv fun e => e.waitpid ps.pid) := by
  have hp := hs.fit.opened huse ho
  have hlive : s.live p = some ps := by rw [live_of_not_mem hp, hx]
  set u := (s.setRec p .cleared).onEnv fun e => (e.closeFd ps.inFd).closeFd ps.outFd with hu
  have hfit : Fit u := (hs.fit.setRec (hs.fit.made hx)).onEnv _
  have hrec : u.recs p = some .cleared := Function.update_self ..
  obtain ⟨v, hv, hfit', -, hlive', henv⟩ := hfit.release procDtor huse ho hrec
  obtain rfl := Option.some.inj (he.symm.trans hv)
  have hstep : s.world.step (.close a h) = some t.world := event_world (s := u) he
  refine ⟨hfit'.onEnv _, hs.inv.step (e := .close a h) trivial hstep, ?_⟩
  show Ledger t.live (t.env.waitpid ps.pid)
  have hul : u.live = Function.update s.live p (some .cleared) := live_setRec hp
  rw [hlive', hul, Function.update_idem, henv]
  -- the destructor finds a cleared record and does nothing
  show Ledger _ (s.env.finish ps)
  exact hs.ledger.settleAll hlive calls_finish sameIssued_finish

theorem Sound.run {args pipe₁ pipe₂ forked : Bool} (hs : Sound s)
    (hr : s.rawRun a args pipe₁ pipe₂ forked = some (t, r)) : Sound t := by
  unfold rawRun at hr
  split at hr
  · split at hr
    · obtain ⟨rfl, -⟩ := Prod.mk.inj (Option.some.inj hr)
      exact hs
    · obtain ⟨u, hu, hr⟩ := Option.bind_eq_some_iff.mp hr
      obtain ⟨hfit, hlive, henv, hrec, huse, hopen⟩ := hs.fit.new hu
      have hinv : World.Inv u.world := hs.inv.step (e := .create a true) trivial (new_world hu)
      have hnone : ∀ c, ¬ Owes s.live s.world.nextRes c := by
        rintro c ⟨qs, hq, -⟩
        exact Nat.lt_irrefl _ (hs.fit.made (recs_of_live hq))
      have hstart := hs.ledger.startChild hnone pipe₁ pipe₂ forked
      rw [henv] at hr
      have hfree : s.world.nextRes ∉ u.world.freed := hfit.opened huse (hopen 0)
      split at hr
      next e' heq =>
        rw [heq] at hstart
        obtain ⟨v, hv, heq'⟩ := Option.map_eq_some_iff.mp hr
        obtain ⟨rfl, -⟩ := Prod.mk.inj heq'
        obtain ⟨v', hv', hfit', -, hlive', henv'⟩ :=
          (hfit.onEnv fun _ => e').release procDtor huse (hopen 0) hrec
        obtain rfl := Option.some.inj (hv.symm.trans hv')
        have hstep : u.world.step (.close a s.world.nextHdr) = some v.world :=
          event_world (s := u.onEnv fun _ => e') hv
        refine ⟨hfit', hinv.step (e := .close a s.world.nextHdr) trivial hstep, ?_⟩
        have hul : (u.onEnv fun _ => e').live = u.live := rfl
        rw [hlive', hul, hlive, Function.update_idem, henv']
        exact hstart
      next e' qs heq =>
        rw [heq] at hstart
        obtain ⟨rfl, -⟩ := Prod.mk.inj (Option.some.inj hr)
        refine ⟨(hfit.setRec (hfit.made hrec)).onEnv _, hinv, ?_⟩
        show Ledger (u.setRec s.world.nextRes qs).live e'
        rw [live_setRec hfree, hlive, Function.update_idem]
        exact hstart
  · exact absurd hr (by simp)

theorem Sound.wait {status : Option Nat} (hs : Sound s)
    (hw : s.rawWait a h status = some (t, r)) : Sound t := by
  rcases entry_cases hw with ⟨rfl, -⟩ | ⟨p, ps, huse, ho, hx, hb⟩
  · exact hs
  · split at hb
    · obtain ⟨rfl, -⟩ := Prod.mk.inj (Option.some.inj hb)
      exact hs
    · obtain ⟨u, hu, heq⟩ := Option.map_eq_some_iff.mp hb
      obtain ⟨rfl, -⟩ := Prod.mk.inj heq
      exact hs.finish huse ho hx hu

theorem Sound.close (hs : Sound s) (hc : s.rawClose a h = some (t, r)) : Sound t := by
  rcases entry_cases hc with ⟨rfl, -⟩ | ⟨p, ps, huse, ho, hx, hb⟩
  · exact hs
  · obtain ⟨u, hu, heq⟩ := Option.map_eq_some_iff.mp hb
    obtain ⟨rfl, -⟩ := Prod.mk.inj heq
    exact hs.finish huse ho hx hu

theorem Sound.closeStdin (hs : Sound s) (hc : s.rawCloseStdin a h = some (t, r)) : Sound t := by
  rcases entry_cases hc with ⟨rfl, -⟩ | ⟨p, ps, huse, ho, hx, hb⟩
  · exact hs
  · split at hb
    · obtain ⟨rfl, -⟩ := Prod.mk.inj (Option.some.inj hb)
      exact hs
    next hin =>
      obtain ⟨rfl, -⟩ := Prod.mk.inj (Option.some.inj hb)
      obtain ⟨fd, hfd⟩ := Option.ne_none_iff_exists'.mp hin
      have hp := hs.fit.opened huse ho
      have hlive : s.live p = some ps := by rw [live_of_not_mem hp, hx]
      have hnd := hs.ledger.nodup hlive
      have howed : ps.owed = .close fd :: { ps with inFd := none }.owed := by
        simp [ChildState.owed, hfd]
      rw [howed] at hnd
      refine ⟨(hs.fit.setRec (hs.fit.made hx)).onEnv _, hs.inv, ?_⟩
      show Ledger (s.setRec p { ps with inFd := none }).live (s.env.closeFd ps.inFd)
      rw [live_setRec hp, hfd]
      refine hs.ledger.settle hlive (List.nodup_singleton (.close fd)) ?_ (fun c => ?_) ?_ ?_ ?_
      · simp [howed]
      · rw [howed]
        simp only [Option.mem_def, Option.some.injEq, exists_eq_left', List.mem_cons,
          List.not_mem_nil, or_false]
        refine ⟨fun hc => ⟨.inr hc, fun hcf => ?_⟩, fun hc => hc.1.resolve_left hc.2⟩
        exact (List.nodup_cons.mp hnd).1 (hcf ▸ hc)
      · simpa using (List.nodup_cons.mp hnd).2
      · simp
      · simp [SameIssued]

/-- No commit of a receive scan frees a fragment that carries a payload. -/
def LosesNothing (s : State) : Call → Prop
  | .event e => s.world.LosesNothing e
  | _ => True

instance (s : State) (c : Call) : Decidable (LosesNothing s c) :=
  match c with
  | .event e => inferInstanceAs (Decidable (s.world.LosesNothing e))
  | .run .. | .wait .. | .close .. | .closeStdin .. => instDecidableTrue

theorem Sound.step {c : Call} (hs : Sound s) (hl : LosesNothing s c) (hc : s.step c = some t) :
    Sound t := by
  cases c with
  | event e => exact hs.event hl hc
  | run a args pipe₁ pipe₂ forked =>
      obtain ⟨⟨u, r⟩, hu, rfl⟩ := Option.map_eq_some_iff.mp hc
      exact hs.run hu
  | wait a h status =>
      obtain ⟨⟨u, r⟩, hu, rfl⟩ := Option.map_eq_some_iff.mp hc
      exact hs.wait hu
  | close a h =>
      obtain ⟨⟨u, r⟩, hu, rfl⟩ := Option.map_eq_some_iff.mp hc
      exact hs.close hu
  | closeStdin a h =>
      obtain ⟨⟨u, r⟩, hu, rfl⟩ := Option.map_eq_some_iff.mp hc
      exact hs.closeStdin hu

/-- In a machine that has been freed every payload has been released. -/
theorem Sound.none_live (hs : Sound s) (hvm : s.world.vmFreed = true) : s.live p = none := by
  by_contra hne
  obtain ⟨x, hx⟩ := Option.ne_none_iff_exists'.mp hne
  have hborn := hs.fit.made (recs_of_live hx)
  have hnf : p ∉ s.world.freed := by
    intro hf
    rw [live, if_pos hf] at hx
    exact absurd hx (by simp)
  obtain ⟨y, hy⟩ := hs.inv.linear.kept hborn hnf
  have hheld := hy.1
  rw [World.held_none (hs.inv.shape.ended hvm _)] at hheld
  exact absurd hheld List.not_mem_nil

/-- **Pipes and children.**  In every state of a run that loses no payload, no
descriptor of a pipe has been closed twice and no child waited for twice, and once
the machine is freed each has been closed or waited for.  A copy of a handle that
was sent away touches nothing. -/
theorem pipes_and_children_once {calls : List Call}
    (hr : Run (guarded LosesNothing (ofFn State.step)) init calls s) :
    (∀ c, s.env.calls.count c ≤ 1) ∧
      (s.world.vmFreed = true → (∀ fd < s.env.nextFd, s.env.calls.count (.close fd) = 1) ∧
        ∀ pid < s.env.nextChild, s.env.calls.count (.waitpid pid) = 1) ∧
      ∀ a h, s.CanUse a h → (s.world.hdr h).ownerPid ≠ a →
        (∀ status, s.rawWait a h status = some (s, .int (-2))) ∧
          s.rawClose a h = some (s, .int (-2)) ∧ s.rawCloseStdin a h = some (s, .int (-2)) := by
  have hs : Sound s := hr.invariant (fun _ _ _ hs hc => hs.step hc.1 hc.2) sound_init
  refine ⟨hs.ledger.linear.count_le_one, fun hvm => ?_, fun a h huse ho => ?_⟩
  · have hnone : ∀ p c, ¬ Owes s.live p c := by
      rintro p c ⟨ps, hp, -⟩
      rw [hs.none_live hvm] at hp
      exact absurd hp (by simp)
    exact ⟨fun fd hfd => hs.ledger.linear.count_eq_one hnone hfd,
      fun pid hpid => hs.ledger.linear.count_eq_one hnone hpid⟩
  · exact ⟨fun _ => entry_sent_away huse ho, entry_sent_away huse ho, entry_sent_away huse ho⟩

/-- A handle goes to another actor, which ends the child's input and waits for it.
Another child is never waited for, and a third could not be forked. -/
def passedOn : List Call :=
  [.run 0 true true true true, .event (.spawn 0 1), .event (.send 0 0 1), .event (.recv 1),
    .closeStdin 1 2, .wait 1 2 (some 0), .run 0 true true true true, .run 0 true true true false,
    .event .vmFree]

theorem pipes_and_children_once_passedOn : ∃ s,
    exec (fun s c => if LosesNothing s c then s.step c else none) init passedOn = some s ∧
      s.env.nextFd = 12 ∧ s.env.nextChild = 2 ∧ (∀ fd < 12, s.env.calls.count (.close fd) = 1) ∧
      ∀ pid < 2, s.env.calls.count (.waitpid pid) = 1 := by
  obtain ⟨s, hs, hfacts⟩ := (Option.any_eq_true _ _).mp (by decide +kernel :
    (exec (fun s c => if LosesNothing s c then s.step c else none) init passedOn).any (fun s =>
      s.world.vmFreed = true ∧ s.env.nextFd = 12 ∧ s.env.nextChild = 2) = true)
  obtain ⟨hvm, hfd, hchild⟩ := of_decide_eq_true hfacts
  have hend := (pipes_and_children_once (Run.guarded_iff.mpr hs)).2.1 hvm
  rw [hfd, hchild] at hend
  exact ⟨s, hs, hfd, hchild, hend.1, hend.2⟩

/-- The handle is in the second message when a guard of a receive scan takes the
first one out. -/
def guardReceives : List Call :=
  [.run 0 true true true true, .event (.spawn 0 1), .event (.send 0 1 1), .event (.send 0 0 1),
    .event (.recvPeek 1), .event (.recv 1), .event (.recvCommit 1), .event (.die 1), .event (.die 0),
    .event .vmFree]

/-- The commit frees the message with the handle: the parent's ends of the pipes
are never closed, and nobody waits for the child. -/
theorem guard_recv_leaks_child : ∃ s, Run (ofFn State.step) init guardReceives s ∧
    s.world.vmFreed = true ∧ s.env.nextFd = 4 ∧ s.env.nextChild = 1 ∧
      s.env.calls = [.close 0, .close 3] := by
  obtain ⟨s, hs, hfacts⟩ := (Option.any_eq_true _ _).mp (by decide +kernel :
    (exec State.step init guardReceives).any (fun s =>
      s.world.vmFreed = true ∧ s.env.nextFd = 4 ∧ s.env.nextChild = 1 ∧
        s.env.calls = [.close 0, .close 3]) = true)
  exact ⟨s, Run.ofFn_iff.mpr hs, of_decide_eq_true hfacts⟩

/-! ### Kills -/

theorem killed_procDtor (p : Nat) (ps : ChildState) (e : Os) :
    (procDtor p ps e).killed = e.killed ++ ps.pid.toList := by
  cases hin : ps.inFd <;> cases hout : ps.outFd <;> cases hpid : ps.pid <;>
    simp [procDtor, hin, hout, hpid, Os.closeFd, Os.waitpid, Os.call]

/-- A child killed since `e` had not been waited for at `e`, and has been by `e'`. -/
def KillsUnwaited (e e' : Os) : Prop :=
  ∀ pid ∈ e'.killed, pid ∈ e.killed ∨ .waitpid pid ∉ e.calls ∧ .waitpid pid ∈ e'.calls

/-- **A signal never hits a pid that was waited for**, which may be another process by then. -/
theorem kills_unwaited {calls : List Call} {e : World.Event}
    (hr : Run (guarded LosesNothing (ofFn State.step)) init calls s)
    (he : s.event procDtor e = some t) : KillsUnwaited s.env t.env := by
  have hs : Sound s := hr.invariant (fun _ _ _ hs hc => hs.step hc.1 hc.2) sound_init
  let K (L : Nat → Option ChildState) (o : Os) : Prop :=
    Ledger L o ∧ s.env.calls ⊆ o.calls ∧ KillsUnwaited s.env o
  have hK : DtorKeeps procDtor K := by
    rintro L o p ps ⟨k, hsub, hkilled⟩ hp
    obtain ⟨l, heq⟩ := procDtor_eq p ps o
    have hcalls : (procDtor p ps o).calls = o.calls ++ ps.owed := by rw [heq]; exact calls_finish
    refine ⟨Ledger.dtor k hp, fun c hc => hcalls ▸ List.mem_append_left _ (hsub hc), ?_⟩
    rw [KillsUnwaited, killed_procDtor, hcalls]
    intro pid hpid
    rcases List.mem_append.mp hpid with hpid | hpid
    · exact (hkilled pid hpid).imp_right fun h => ⟨h.1, List.mem_append_left _ h.2⟩
    · -- the record still owes the wait, so it was not made before
      have howed : .waitpid pid ∈ ps.owed := List.mem_append_right _ (List.mem_map_of_mem hpid)
      exact .inr ⟨fun hc => k.linear.live ⟨ps, hp, howed⟩ (hsub hc), List.mem_append_right _ howed⟩
  obtain ⟨-, -, -, hkeeps⟩ := hs.fit.event he
  exact (hkeeps K hK ⟨hs.ledger, List.Subset.refl _, fun _ h => .inl h⟩).2.2

/-- The first child is waited for, the second killed when its owner dies. -/
theorem kills_unwaited_die : ∃ s t : State, s.event procDtor (.die 0) = some t ∧
    t.env.killed = [1] ∧ KillsUnwaited s.env t.env := by
  obtain ⟨s, hs, hany⟩ := (Option.any_eq_true _ _).mp (by decide +kernel :
    (exec (fun s c => if LosesNothing s c then s.step c else none) init
      [.run 0 true true true true, .wait 0 0 none, .run 0 true true true true]).any (fun s =>
        (s.event procDtor (.die 0)).any fun t => t.env.killed = [1]) = true)
  obtain ⟨t, ht, hk⟩ := (Option.any_eq_true _ _).mp hany
  exact ⟨s, t, ht, of_decide_eq_true hk, kills_unwaited (Run.guarded_iff.mpr hs) ht⟩

end State

end TinyActor.Stdlib.Process
