/-
What a module may rely on when its records live behind resources.

Two facts carry every result about such a module.

  * A payload's destructor runs at most once, and an entry that passed
    `ta_resource_open` has a payload whose destructor has not run.  This holds of
    every run of the machine, also of those in which `recv_commit` loses a
    payload: a payload that is lost is released less often, not more.
  * So whatever the destructor keeps true of the live records and of the world
    outside, every event of the machine keeps true, however many payloads it
    releases at once.

`Proofs/Release.lean` has the first for the runs that lose nothing.  Nothing in
the machine reads its log of releases, so for the other runs a lost payload is
entered there as if it had been released (`relog`), and the invariant holds again.
-/
import TinyActor.Proofs.Release
import TinyActor.Runtime.Native

namespace TinyActor.Runtime.Resource.World

open TinyActor.Lib

variable {w w' : World} {a x p : Nat}

/-! ### Numbers of payloads -/

theorem nextRes_releaseOwned (w : World) (a : Nat) (hs : List Nat) :
    (w.releaseOwned a hs).nextRes = w.nextRes := by
  obtain ⟨ps, hr, -⟩ := w.released_releaseOwned a hs
  exact hr.nextRes

theorem nextRes_procDie (w : World) (a : Nat) : (w.procDie a).nextRes = w.nextRes := by
  cases hA : w.actors a with
  | none => rw [procDie_none hA]
  | some A =>
      obtain ⟨hs, -, heq⟩ := procDie_eq hA
      rw [heq]
      exact nextRes_releaseOwned w a hs

theorem nextRes_deliver {s : Option Nat} {b : Nat} {msg : Tree}
    (hd : w.mboxDeliver s b msg = some w') : w'.nextRes = w.nextRes := by
  unfold mboxDeliver at hd
  split at hd
  · exact absurd hd (by simp)
  · split at hd <;> obtain rfl := Option.some.inj hd <;> rfl

/-- No payload's number is given out twice. -/
theorem nextRes_step {e : Event} (hs : w.step e = some w') : w.nextRes ≤ w'.nextRes := by
  obtain ⟨-, hs⟩ := Option.ite_none_left_eq_some.mp hs
  cases e with
  | create a dtor =>
      obtain ⟨A, -, rfl⟩ := Option.map_eq_some_iff.mp hs
      exact Nat.le_succ _
  | compute a roots =>
      obtain ⟨A, -, hs⟩ := Option.bind_eq_some_iff.mp hs
      obtain ⟨-, ⟨⟩⟩ := Option.ite_none_right_eq_some.mp hs
      exact Nat.le_refl _
  | send a i b =>
      obtain ⟨A, -, hs⟩ := Option.bind_eq_some_iff.mp hs
      obtain ⟨msg, -, rfl⟩ := Option.map_eq_some_iff.mp hs
      split
      · exact Nat.le_refl _
      · cases hd : w.mboxDeliver (some a) b msg with
        | none => exact Nat.le_of_eq (nextRes_procDie w a).symm
        | some w' => exact Nat.le_of_eq (nextRes_deliver hd).symm
  | timer b msg =>
      obtain rfl := Option.some.inj hs
      cases hd : w.mboxDeliver none b msg with
      | none => exact Nat.le_refl _
      | some w' => exact Nat.le_of_eq (nextRes_deliver hd).symm
  | spawn a i =>
      obtain ⟨A, -, hs⟩ := Option.bind_eq_some_iff.mp hs
      obtain ⟨clos, -, rfl⟩ := Option.map_eq_some_iff.mp hs
      dsimp only
      split
      · exact Nat.le_refl _
      · rw [nextRes_procDie, nextRes_procDie]
        exact Nat.le_refl _
  | recv a =>
      obtain ⟨A, -, hs⟩ := Option.bind_eq_some_iff.mp hs
      obtain ⟨m, -, rfl⟩ := Option.map_eq_some_iff.mp hs
      exact Nat.le_refl _
  | recvPeek a =>
      obtain ⟨A, -, hs⟩ := Option.bind_eq_some_iff.mp hs
      unfold recvPeek at hs
      split at hs
      · obtain ⟨frag, -, rfl⟩ := Option.map_eq_some_iff.mp hs
        split
        · exact Nat.le_of_eq (nextRes_procDie w a).symm
        · exact Nat.le_refl _
      · exact absurd hs (by simp)
  | recvCommit a =>
      obtain ⟨A, -, hs⟩ := Option.bind_eq_some_iff.mp hs
      obtain ⟨m, -, rfl⟩ := Option.map_eq_some_iff.mp hs
      exact Nat.le_refl _
  | close a x =>
      obtain ⟨A, -, hs⟩ := Option.bind_eq_some_iff.mp hs
      obtain ⟨-, ⟨⟩⟩ := Option.ite_none_right_eq_some.mp hs
      have hn : (w.close a x).nextRes = w.nextRes := by rw [close_eq, nextRes_releaseOwned]
      exact Nat.le_of_eq hn.symm
  | collect a =>
      obtain ⟨A, -, rfl⟩ := Option.map_eq_some_iff.mp hs
      exact Nat.le_of_eq (nextRes_releaseOwned w a _).symm
  | die a =>
      obtain ⟨A, -, rfl⟩ := Option.map_eq_some_iff.mp hs
      exact Nat.le_of_eq (nextRes_procDie w a).symm
  | vmFree =>
      obtain rfl := Option.some.inj hs
      have hfold : ∀ (l : List Nat) (w : World), (l.foldl procDie w).nextRes = w.nextRes := by
        intro l
        induction l with
        | nil => exact fun _ => rfl
        | cons a l ih => exact fun w => (ih _).trans (nextRes_procDie w a)
      exact Nat.le_of_eq (hfold _ w).symm

/-! ### The log is never read -/

/-- The same machine with another log of releases. -/
def relog (w : World) (F D : List Nat) : World := { w with freed := F, dtorCalls := D }

/-- The operation adds the same payloads to every log, and does the same with the
rest of the machine. -/
def Logs (op : World → World) : Prop :=
  ∀ w, ∃ ps, ∀ F D, ∃ D', op (w.relog F D) = (op w).relog (F ++ ps) D'

theorem logs_of_eq {op : World → World} (h : ∀ w F D, op (w.relog F D) = (op w).relog F D) :
    Logs op := by
  intro w
  refine ⟨[], fun F D => ⟨D, ?_⟩⟩
  rw [h, List.append_nil]

theorem Logs.comp {f g : World → World} (hg : Logs g) (hf : Logs f) : Logs fun w => g (f w) := by
  intro w
  obtain ⟨ps, hps⟩ := hf w
  obtain ⟨qs, hqs⟩ := hg (f w)
  refine ⟨ps ++ qs, fun F D => ?_⟩
  obtain ⟨D₁, h₁⟩ := hps F D
  obtain ⟨D₂, h₂⟩ := hqs (F ++ ps) D₁
  exact ⟨D₂, by dsimp only; rw [h₁, h₂, List.append_assoc]⟩

theorem Logs.foldl {β : Type} {f : World → β → World} (hf : ∀ b, Logs fun w => f w b) (l : List β) :
    Logs fun w => l.foldl f w := by
  induction l with
  | nil => exact logs_of_eq fun _ _ _ => rfl
  | cons b l ih => exact ih.comp (hf b)

theorem logs_release (h : Nat) : Logs fun w => w.taResourceRelease h := by
  intro w
  unfold taResourceRelease
  cases hres : (w.hdr h).res with
  | none => exact ⟨[], fun F D => ⟨D, by simp [relog, hres]⟩⟩
  | some p => exact ⟨[p], fun F D => ⟨_, by simp only [relog, hres]; rfl⟩⟩

theorem logs_releaseOwned (a : Nat) (hs : List Nat) : Logs fun w => w.releaseOwned a hs := by
  refine Logs.foldl (fun h w => ?_) hs
  by_cases ho : (w.hdr h).ownerPid = a
  · obtain ⟨ps, hps⟩ := logs_release h w
    refine ⟨ps, fun F D => ?_⟩
    obtain ⟨D', hD⟩ := hps F D
    refine ⟨D', ?_⟩
    dsimp only at hD ⊢
    rw [if_pos ho, ← hD]
    exact if_pos ho
  · refine ⟨[], fun F D => ⟨D, ?_⟩⟩
    dsimp only
    rw [if_neg ho, List.append_nil]
    exact if_neg ho

theorem logs_setActor (a : Nat) (A : Option Actor) : Logs fun w => w.setActor a A :=
  logs_of_eq fun _ _ _ => rfl

theorem logs_procDie (a : Nat) : Logs fun w => w.procDie a := by
  intro w
  cases hA : w.actors a with
  | none =>
      refine ⟨[], fun F D => ⟨D, ?_⟩⟩
      dsimp only
      rw [procDie_none hA, procDie_none (w := w.relog F D) hA, List.append_nil]
  | some A =>
      have hbody : Logs fun w => ((A.mbox.frags.foldl (fun w t => w.releaseOwned a t.headers) w).releaseOwned
          a A.heap).setActor a none :=
        ((logs_setActor a none).comp (logs_releaseOwned a A.heap)).comp
          (Logs.foldl (fun t => logs_releaseOwned a t.headers) A.mbox.frags)
      have heq : ∀ F D, (w.relog F D).actors a = some A := fun _ _ => hA
      obtain ⟨ps, hps⟩ := hbody w
      refine ⟨ps, fun F D => ?_⟩
      obtain ⟨D', hD⟩ := hps F D
      refine ⟨D', ?_⟩
      unfold procDie
      dsimp only
      rw [heq, hA]
      exact hD

/-- The same for an operation that may refuse, in one state of the machine. -/
def LogsAt (op : World → Option World) (w : World) : Prop :=
  ∃ ps, ∀ F D, ∃ D', op (w.relog F D) = (op w).map fun w' => w'.relog (F ++ ps) D'

theorem LogsAt.of_eq {op : World → Option World}
    (h : ∀ F D, op (w.relog F D) = (op w).map fun w' => w'.relog F D) : LogsAt op w := by
  refine ⟨[], fun F D => ⟨D, ?_⟩⟩
  rw [h, List.append_nil]

theorem Logs.at {op : World → World} (h : Logs op) {f : World → Option World}
    (hw : ∀ F D, f (w.relog F D) = some (op (w.relog F D))) (hw' : f w = some (op w)) :
    LogsAt f w := by
  obtain ⟨ps, hps⟩ := h w
  refine ⟨ps, fun F D => ?_⟩
  obtain ⟨D', hD⟩ := hps F D
  exact ⟨D', by rw [hw, hw', hD]; rfl⟩

theorem LogsAt.actor {f : Actor → World → Option World} (h : ∀ A, LogsAt (f A) w) :
    LogsAt (fun w => (w.actors a).bind fun A => f A w) w := by
  have hrel : ∀ F D, (w.relog F D).actors a = w.actors a := fun _ _ => rfl
  cases hA : w.actors a with
  | none => exact .of_eq fun F D => by simp only [hrel, hA, Option.bind_none, Option.map_none]
  | some A =>
      obtain ⟨ps, hps⟩ := h A
      refine ⟨ps, fun F D => ?_⟩
      obtain ⟨D', hD⟩ := hps F D
      exact ⟨D', by simp only [hrel, hA, Option.bind_some, hD]⟩

theorem LogsAt.actorMap {f : Actor → World → World} (h : ∀ A, Logs (f A)) :
    LogsAt (fun w => (w.actors a).map fun A => f A w) w := by
  have hbind := LogsAt.actor (w := w) (a := a) (f := fun A w => some (f A w))
    fun A => (h A).at (fun _ _ => rfl) rfl
  simpa only [Option.map_eq_bind, Function.comp_def] using hbind

theorem checkHeaders_relog (F D : List Nat) (s : Nat) (seen hs : List Nat) :
    (w.relog F D).checkHeaders s seen hs = w.checkHeaders s seen hs := by
  induction hs generalizing seen with
  | nil => rfl
  | cons h hs ih =>
      unfold checkHeaders
      rw [ih]
      rfl

theorem mboxDeliver_relog (F D : List Nat) (s : Option Nat) (b : Nat) (msg : Tree) :
    (w.relog F D).mboxDeliver s b msg = (w.mboxDeliver s b msg).map fun w' => w'.relog F D := by
  have hcheck : (w.relog F D).resourceSendCheck msg.headers s b =
      w.resourceSendCheck msg.headers s b := by
    unfold resourceSendCheck
    cases s with
    | none => rfl
    | some s =>
        dsimp only
        rw [checkHeaders_relog]
  have hact : (w.relog F D).actors b = w.actors b := rfl
  unfold mboxDeliver
  rw [hcheck, hact]
  split
  · rfl
  · cases w.actors b <;> rfl

theorem logs_send {A : Actor} (i b : Nat) : LogsAt (fun w => w.send a A i b) w := by
  unfold send
  cases A.roots[i]? with
  | none => exact .of_eq fun _ _ => rfl
  | some msg =>
      have hrel : ∀ F D, (w.relog F D).actors b = w.actors b := fun _ _ => rfl
      simp only [Option.map_some]
      cases hb : w.actors b with
      | none =>
          refine .of_eq fun F D => ?_
          simp only [hrel, hb, Option.map_some]
      | some B =>
          cases hd : w.mboxDeliver (some a) b msg with
          | none =>
              refine (logs_procDie a).at (fun F D => ?_) ?_
              · simp only [hrel, hb, mboxDeliver_relog, hd, Option.map_none, Option.getD_none]
              · simp only [hb, hd, Option.getD_none]
          | some w' =>
              refine .of_eq fun F D => ?_
              simp only [hrel, hb, mboxDeliver_relog, hd, Option.map_some, Option.getD_some]

theorem logs_spawn {A : Actor} (i : Nat) : LogsAt (fun w => w.spawn a A i) w := by
  unfold spawn
  cases A.roots[i]?.filter Tree.isClosure with
  | none => exact .of_eq fun _ _ => rfl
  | some clos =>
      have hrel : ∀ F D, (w.relog F D).takePid = w.takePid.relog F D := fun _ _ => rfl
      simp only [Option.map_some]
      cases hc : w.takePid.checkHeaders a [] clos.headers with
      | mk seen ok =>
          cases ok with
          | true =>
              refine .of_eq fun F D => ?_
              simp only [hrel, checkHeaders_relog, hc, if_true, Option.map_some]
              rfl
          | false =>
              have hbody : Logs fun v => (((v.copyHeaders seen).setActor w.nextPid
                  (some { roots := [], heap := v.newHeaders seen, mbox := .empty,
                          peekIndex := 0 })).procDie w.nextPid).procDie a :=
                ((logs_procDie a).comp (logs_procDie w.nextPid)).comp (logs_of_eq fun _ _ _ => rfl)
              refine (hbody.comp (f := takePid) (logs_of_eq fun _ _ _ => rfl)).at (fun F D => ?_) ?_
              · simp only [hrel, checkHeaders_relog, hc]
                rfl
              · simp only [hc]
                rfl

theorem logs_recvPeek {A : Actor} : LogsAt (fun w => w.recvPeek a A) w := by
  unfold recvPeek
  split
  · cases A.mbox.nth A.peekIndex with
    | none => exact .of_eq fun _ _ => rfl
    | some frag =>
        simp only [Option.map_some]
        split
        · exact (logs_procDie a).at (fun _ _ => rfl) rfl
        · exact .of_eq fun _ _ => rfl
  · exact .of_eq fun _ _ => rfl

theorem logs_vmFree : Logs vmFree := by
  have hset : Logs fun w => { w with vmFreed := true } := logs_of_eq fun _ _ _ => rfl
  intro w
  exact hset.comp (Logs.foldl logs_procDie (List.range w.nextPid)) w

/-- **What an event does with the log.**  It adds some payloads, the same ones
whatever the log is. -/
theorem logs_step (e : Event) : LogsAt (fun w => w.step e) w := by
  cases hv : w.vmFreed with
  | true =>
      have hnone : ∀ v : World, v.vmFreed = true → v.step e = none := fun v h => if_pos h
      refine .of_eq fun F D => ?_
      rw [hnone w hv, hnone _ (show (w.relog F D).vmFreed = true from hv)]
      rfl
  | false =>
      have hrun : ∀ {g : World → Option World}, LogsAt g w →
          (∀ v : World, v.vmFreed = false → v.step e = g v) → LogsAt (fun w => w.step e) w := by
        rintro g ⟨ps, hps⟩ heq
        refine ⟨ps, fun F D => ?_⟩
        obtain ⟨D', hD⟩ := hps F D
        refine ⟨D', ?_⟩
        dsimp only
        rw [heq w hv, heq _ (show (w.relog F D).vmFreed = false from hv)]
        exact hD
      have hneg : ∀ v : World, v.vmFreed = false → ¬ v.vmFreed = true := fun v h => by simp [h]
      cases e with
      | create a dtor =>
          exact hrun (.actorMap fun A => logs_of_eq fun _ _ _ => rfl) fun v h => if_neg (hneg v h)
      | compute a roots =>
          refine hrun (.actor fun A => .of_eq fun _ _ => ?_) fun v h => if_neg (hneg v h)
          split <;> rfl
      | send a i b => exact hrun (.actor fun A => logs_send i b) fun v h => if_neg (hneg v h)
      | timer b msg =>
          refine hrun (g := fun w => some ((w.mboxDeliver none b msg).getD w)) (.of_eq fun F D => ?_)
            fun v h => if_neg (hneg v h)
          rw [mboxDeliver_relog]
          cases w.mboxDeliver none b msg <;> rfl
      | spawn a i => exact hrun (.actor fun A => logs_spawn i) fun v h => if_neg (hneg v h)
      | recv a =>
          refine hrun (.actor fun A => .of_eq fun _ _ => ?_) fun v h => if_neg (hneg v h)
          unfold recv
          cases A.mbox.pop <;> rfl
      | recvPeek a => exact hrun (.actor fun A => logs_recvPeek) fun v h => if_neg (hneg v h)
      | recvCommit a =>
          refine hrun (.actor fun A => .of_eq fun _ _ => ?_) fun v h => if_neg (hneg v h)
          unfold recvCommit
          cases A.mbox.unlink (commitTarget A.peekIndex) <;> rfl
      | close a x =>
          refine hrun (.actor fun A => ?_) fun v h => if_neg (hneg v h)
          by_cases hx : x ∈ A.reach
          · have hlog : Logs fun w => w.close a x := by
              simpa only [close_eq] using logs_releaseOwned a [x]
            exact hlog.at (fun _ _ => if_pos hx) (if_pos hx)
          · exact .of_eq fun _ _ => by simp only [if_neg hx, Option.map_none]
      | collect a =>
          exact hrun (.actorMap fun A => (logs_setActor a _).comp (logs_releaseOwned a _))
            fun v h => if_neg (hneg v h)
      | die a =>
          exact hrun (.actorMap fun _ => logs_procDie a) fun v h => if_neg (hneg v h)
      | vmFree => exact hrun (logs_vmFree.at (fun _ _ => rfl) rfl) fun v h => if_neg (hneg v h)

theorem step_log {e : Event} (hs : w.step e = some w') :
    ∃ ps, w'.freed = w.freed ++ ps ∧
      ∀ F D, ∃ D', (w.relog F D).step e = some (w'.relog (F ++ ps) D') := by
  obtain ⟨ps, hps⟩ := logs_step (w := w) e
  have hmap : ∀ F D, ∃ D', (w.relog F D).step e = some (w'.relog (F ++ ps) D') := by
    intro F D
    obtain ⟨D', hD⟩ := hps F D
    dsimp only at hD
    rw [hs] at hD
    exact ⟨D', hD⟩
  -- the machine's own log is one of them
  obtain ⟨D', hD⟩ := hmap w.freed w.dtorCalls
  have hself : some w' = some (w'.relog (w.freed ++ ps) D') := hs.symm.trans hD
  exact ⟨ps, congrArg World.freed (Option.some.inj hself), hmap⟩

/-! ### Released at most once -/

/-- The invariant without its promise that every payload still has a holder. -/
structure Tidy (w : World) : Prop where
  shape : Shape w
  unique : ∀ {h h' p : Nat}, w.Own h p → w.Own h' p → h = h'
  live : ∀ {h p : Nat}, w.Own h p → p ∉ w.freed
  once : w.freed.Nodup
  known : ∀ {h p : Nat}, w.Own h p → p < w.nextRes
  past : ∀ {p : Nat}, p ∈ w.freed → p < w.nextRes

theorem Inv.tidy (h : Inv w) : Tidy w :=
  ⟨h.shape, h.linear.unique, h.linear.live, h.linear.once, h.linear.known, h.linear.past⟩

theorem Inv.tidy_relog {L D : List Nat} (h : Inv (w.relog (L ++ w.freed) D)) : Tidy w := by
  have hlin : Linear w.Own (· < w.nextRes) (L ++ w.freed) := h.linear
  refine ⟨⟨h.shape.apart, h.shape.nodup, h.shape.old, h.shape.rooted, h.shape.pids, h.shape.ended⟩,
    hlin.unique, fun ho hp => hlin.live ho (List.mem_append_right _ hp),
    (List.nodup_append.mp hlin.once).2.1, hlin.known, fun hp => hlin.past (List.mem_append_right _ hp)⟩

/-- With the lost payloads in front of the log nothing is lost. -/
theorem Tidy.inv_relog (h : Tidy w) : ∃ L D, Inv (w.relog (L ++ w.freed) D) := by
  classical
  let L := (List.range w.nextRes).filter fun p => (∀ x, ¬ w.Own x p) ∧ p ∉ w.freed
  have hL : ∀ p, p ∈ L ↔ p < w.nextRes ∧ (∀ x, ¬ w.Own x p) ∧ p ∉ w.freed := by
    intro p
    simp only [L, List.mem_filter, List.mem_range, decide_eq_true_eq]
  refine ⟨L, (L ++ w.freed).filter w.hasDtor, ⟨h.shape.apart, h.shape.nodup, h.shape.old,
    h.shape.rooted, h.shape.pids, h.shape.ended⟩, ?_, rfl⟩
  refine ⟨h.unique, fun {x p} ho hp => ?_, fun {p} hb hp => ?_, ?_, h.known, fun {p} hp => ?_⟩
  · rcases List.mem_append.mp hp with hp | hp
    · exact ((hL p).mp hp).2.1 x ho
    · exact h.live ho hp
  · by_contra hnone
    refine hp (List.mem_append.mpr ?_)
    by_cases hf : p ∈ w.freed
    · exact .inr hf
    · exact .inl ((hL p).mpr ⟨hb, fun x hx => hnone ⟨x, hx⟩, hf⟩)
  · refine List.nodup_append.mpr ⟨List.nodup_range.filter _, h.once, ?_⟩
    rintro p hp q hq rfl
    exact ((hL p).mp hp).2.2 hq
  · rcases List.mem_append.mp hp with hp | hp
    · exact ((hL p).mp hp).1
    · exact h.past hp

/-- A commit that frees a fragment with a payload takes a holder away and does
nothing else. -/
theorem Tidy.recvCommit {A : Actor} (h : Tidy w) (hA : w.actors a = some A)
    (hc : w.recvCommit a A = some w') : Tidy w' := by
  obtain ⟨⟨frag, mbox⟩, hun, rfl⟩ := Option.map_eq_some_iff.mp hc
  obtain ⟨-, hfr⟩ := Mailbox.unlink_eq_some hun
  set B : Actor := { A with mbox := mbox, peekIndex := 0 } with hB
  have hsub : B.held.Sublist A.held := by
    show (A.heap ++ mbox.frags.flatMap Tree.headers).Sublist _
    rw [hfr]
    exact (List.Sublist.refl _).append ((List.eraseIdx_sublist ..).flatMap _)
  have hnd : A.held.Nodup := held_some hA ▸ h.shape.nodup a
  have hshape : Shape (w.setActor a (some B)) := by
    refine h.shape.set rfl (Nat.le_refl _) (Nat.le_refl _) rfl (hnd.sublist hsub)
      (fun x hx => .inl (held_some hA ▸ hsub.subset hx)) fun C hC => ?_
    obtain rfl := Option.some.inj hC
    have hroot : A.reach ⊆ A.heap := h.shape.rooted hA
    exact ⟨hroot, h.shape.lt_nextPid hA, h.shape.running hA⟩
  have hown : ∀ {x p}, (w.setActor a (some B)).Own x p → w.Own x p := by
    rintro x p ⟨hx, hp⟩
    refine ⟨?_, hp⟩
    change x ∈ (w.setActor a (some B)).held (w.hdr x).ownerPid at hx
    by_cases hb : (w.hdr x).ownerPid = a
    · rw [hb, held_setActor] at hx
      rw [hb, held_some hA]
      exact hsub.subset hx
    · rwa [held_setActor_ne _ _ hb] at hx
  exact ⟨hshape, fun hx hy => h.unique (hown hx) (hown hy), fun hx => h.live (hown hx), h.once,
    fun hx => h.known (hown hx), h.past⟩

/-- **Every event**, also one that loses a payload, keeps the rest of the
invariant. -/
theorem Tidy.step {e : Event} (h : Tidy w) (hs : w.step e = some w') : Tidy w' := by
  by_cases hl : ∀ v F D, v = w.relog F D → v.LosesNothing e
  · obtain ⟨L, D, hinv⟩ := h.inv_relog
    obtain ⟨ps, hfreed, hps⟩ := step_log hs
    obtain ⟨D', hD⟩ := hps (L ++ w.freed) D
    rw [List.append_assoc, ← hfreed] at hD
    exact (hinv.step (hl _ _ _ rfl) hD).tidy_relog
  · cases e with
    | recvCommit a =>
        obtain ⟨-, hs⟩ := Option.ite_none_left_eq_some.mp hs
        obtain ⟨A, hA, hs⟩ := Option.bind_eq_some_iff.mp hs
        exact h.recvCommit hA hs
    | _ => exact absurd (fun _ _ _ _ => trivial) hl

/-- The payloads an event releases are new to the log, and there is no payload
among them twice. -/
theorem Tidy.step_freed {e : Event} (h : Tidy w) (hs : w.step e = some w') :
    ∃ ps, w'.freed = w.freed ++ ps ∧ ps.Nodup ∧ ∀ p ∈ ps, p ∉ w.freed := by
  obtain ⟨ps, hfreed, -⟩ := step_log hs
  have hnd := (h.step hs).once
  rw [hfreed] at hnd
  obtain ⟨-, hps, hdis⟩ := List.nodup_append.mp hnd
  exact ⟨ps, hfreed, hps, fun p hp hq => hdis p hq p hp rfl⟩

end TinyActor.Runtime.Resource.World

namespace TinyActor.Runtime.Native

open Resource Resource.World

variable {σ E : Type} {dtor : Dtor σ E} {s t : State σ E} {a h p : Nat} {x : σ}

/-! ### Live records -/

namespace State

/-- The record behind a payload that has not been released. -/
def live (s : State σ E) (p : Nat) : Option σ := if p ∈ s.world.freed then none else s.recs p

/-- What holds of the machine and the records whatever the module does. -/
structure Fit (s : State σ E) : Prop where
  tidy : Tidy s.world
  /-- A record was made with its payload. -/
  made : ∀ {p : Nat} {x : σ}, s.recs p = some x → p < s.world.nextRes

theorem fit_start (env : E) : Fit (start env : State σ E) :=
  ⟨inv_init.tidy, fun hp => absurd hp (by simp [start])⟩

theorem live_start (env : E) : (start env : State σ E).live = fun _ => none := by
  funext p
  unfold live start
  exact ite_self _

theorem Fit.onEnv (hf : Fit s) (f : E → E) : Fit (s.onEnv f) := ⟨hf.tidy, hf.made⟩

/-- The destructor keeps the property when it takes its own record away. -/
def DtorKeeps (dtor : Dtor σ E) (K : (Nat → Option σ) → E → Prop) : Prop :=
  ∀ {L : Nat → Option σ} {e : E} {p : Nat} {x : σ}, K L e → L p = some x →
    K (Function.update L p none) (dtor p x e)

theorem DtorKeeps.destroy {K : (Nat → Option σ) → E → Prop} (hK : DtorKeeps dtor K)
    {recs : Nat → Option σ} {ps : List Nat} (hnd : ps.Nodup) {L : Nat → Option σ} {e : E}
    (hL : ∀ p ∈ ps, L p = recs p) (h : K L e) :
    K (fun q => if q ∈ ps then none else L q) (destroy dtor recs ps e) := by
  induction ps generalizing L e with
  | nil => simpa [State.destroy] using h
  | cons p ps ih =>
      obtain ⟨hp, hnd⟩ := List.nodup_cons.mp hnd
      have hLp := hL p (.head _)
      cases hr : recs p with
      | none =>
          -- another module's payload: no record goes
          have hsame : (fun q => if q ∈ p :: ps then none else L q) =
              fun q => if q ∈ ps then none else L q := by
            funext q
            by_cases hq : q = p
            · subst hq
              simp [hLp, hr]
            · simp [hq]
          rw [hsame]
          have hd : State.destroy dtor recs (p :: ps) e = State.destroy dtor recs ps e := by
            simp only [State.destroy, List.foldl_cons, hr, Option.elim_none]
          rw [hd]
          exact ih hnd (fun q hq => hL q (.tail _ hq)) h
      | some x =>
          have hsame : (fun q => if q ∈ p :: ps then none else L q) =
              fun q => if q ∈ ps then none else Function.update L p none q := by
            funext q
            by_cases hq : q = p
            · subst hq
              simp [hp]
            · simp [hq]
          rw [hsame]
          have hd : State.destroy dtor recs (p :: ps) e =
              State.destroy dtor recs ps (dtor p x e) := by
            simp only [State.destroy, List.foldl_cons, hr, Option.elim_some]
          rw [hd]
          refine ih hnd (fun q hq => ?_) (hK h (hLp.trans hr))
          have hqp : q ≠ p := fun hc => hp (hc ▸ hq)
          rw [Function.update_of_ne hqp]
          exact hL q (.tail _ hq)

/-- **An event of the machine.**  Some records go, and what the destructor keeps
is kept. -/
theorem Fit.event {e : Event} (hf : Fit s) (hs : s.event dtor e = some t) :
    Fit t ∧ t.recs = s.recs ∧ (∀ q x, t.live q = some x → s.live q = some x) ∧
      ∀ K, DtorKeeps dtor K → K s.live s.env → K t.live t.env := by
  obtain ⟨w', hw, rfl⟩ := Option.map_eq_some_iff.mp hs
  obtain ⟨ps, hfreed, hnd, hnew⟩ := hf.tidy.step_freed hw
  have hdrop : w'.freed.drop s.world.freed.length = ps := by rw [hfreed, List.drop_left]
  have hlive : (State.mk w' s.recs (destroy dtor s.recs ps s.env)).live =
      fun q => if q ∈ ps then none else s.live q := by
    funext q
    unfold live
    dsimp only
    rw [hfreed]
    by_cases hq : q ∈ ps <;> by_cases hq' : q ∈ s.world.freed <;> simp [hq, hq']
  dsimp only
  rw [hdrop, hlive]
  refine ⟨⟨hf.tidy.step hw, fun hx => Nat.lt_of_lt_of_le (hf.made hx) (nextRes_step hw)⟩, rfl, ?_, ?_⟩
  · intro q x hq
    dsimp only at hq
    split at hq
    · exact absurd hq (by simp)
    · exact hq
  · intro K hK h
    refine hK.destroy hnd (fun p hp => ?_) h
    exact if_neg (hnew p hp)

theorem event_world {e : Event} (hs : s.event dtor e = some t) : s.world.step e = some t.world := by
  obtain ⟨w', hw, rfl⟩ := Option.map_eq_some_iff.mp hs
  exact hw

theorem new_world (hs : s.new dtor a x = some t) : s.world.step (.create a true) = some t.world := by
  obtain ⟨u, hu, rfl⟩ := Option.map_eq_some_iff.mp hs
  show s.world.step (.create a true) = some u.world
  exact event_world hu

theorem recs_of_live (hx : s.live p = some x) : s.recs p = some x := by
  unfold live at hx
  split at hx
  · exact absurd hx (by simp)
  · exact hx

/-! ### The entries of a module -/

theorem open_eq_ok {w : World} {c : Int} (ho : taResourceOpen w a h c = .ok p) :
    (w.hdr h).ownerPid = a ∧ (w.hdr h).res = some p := by
  unfold taResourceOpen at ho
  split at ho
  · exact absurd ho (by simp)
  next hne =>
    refine ⟨not_not.mp hne, ?_⟩
    split at ho
    · exact absurd ho (by simp)
    next hres => rw [hres, Except.ok.inj ho]

/-- Nothing happens, or the handle's payload is there and the body runs. -/
theorem entry_cases {c : Int} {body : Nat → σ → Option (State σ E × Answer)} {r : Answer}
    (he : s.entry a h c body = some (t, r)) :
    (t = s ∧ ∃ code, taResourceOpen s.world a h c = .error code ∧ r = .int code) ∨
      ∃ p x, s.CanUse a h ∧ taResourceOpen s.world a h c = .ok p ∧ s.recs p = some x ∧
        body p x = some (t, r) := by
  unfold entry at he
  split at he
  next huse =>
    split at he
    next code hopen =>
      obtain ⟨rfl, rfl⟩ := Prod.mk.inj (Option.some.inj he)
      exact .inl ⟨rfl, code, hopen, rfl⟩
    next p hopen =>
      obtain ⟨x, hx, hb⟩ := Option.bind_eq_some_iff.mp he
      exact .inr ⟨p, x, huse, hopen, hx, hb⟩
  · exact absurd he (by simp)

/-- A handle that does not name the actor any more is refused, whatever the entry
would do. -/
theorem entry_sent_away {c : Int} {body : Nat → σ → Option (State σ E × Answer)}
    (huse : s.CanUse a h) (ho : (s.world.hdr h).ownerPid ≠ a) :
    s.entry a h c body = some (s, .int (-2)) := by
  unfold entry taResourceOpen
  rw [if_pos huse, if_pos ho]

/-- The payload an entry has opened is not released. -/
theorem Fit.opened {c : Int} (hf : Fit s) (huse : s.CanUse a h)
    (ho : taResourceOpen s.world a h c = .ok p) : p ∉ s.world.freed := by
  obtain ⟨how, hres⟩ := open_eq_ok ho
  obtain ⟨A, hA, hx⟩ := huse
  exact hf.tidy.live ⟨how ▸ hf.tidy.shape.reach_subset hA hx, hres⟩

theorem live_of_not_mem (hp : p ∉ s.world.freed) : s.live p = s.recs p := if_neg hp

theorem live_setRec (hp : p ∉ s.world.freed) :
    (s.setRec p x).live = Function.update s.live p (some x) := by
  funext q
  unfold live setRec
  by_cases hq : q = p
  · subst hq
    simp [hp]
  · simp [hq]

theorem Fit.setRec (hf : Fit s) (hp : p < s.world.nextRes) : Fit (s.setRec p x) := by
  refine ⟨hf.tidy, fun {q y} hq => ?_⟩
  by_cases hqp : q = p
  · exact hqp ▸ hp
  · exact hf.made ((Function.update_of_ne hqp ..).symm.trans hq)

/-- **The release an entry ends with.**  The payload's own destructor runs, and no
other. -/
theorem Fit.release (dtor : Dtor σ E) {c : Int} (hf : Fit s) (huse : s.CanUse a h)
    (ho : taResourceOpen s.world a h c = .ok p) (hx : s.recs p = some x) :
    ∃ t, s.event dtor (.close a h) = some t ∧ Fit t ∧ t.recs = s.recs ∧
      t.live = Function.update s.live p none ∧ t.env = dtor p x s.env := by
  obtain ⟨how, hres⟩ := open_eq_ok ho
  obtain ⟨A, hA, hreach⟩ := huse
  have hvm : s.world.vmFreed = false := hf.tidy.shape.running hA
  have hstep : s.world.step (.close a h) = some (s.world.taResourceRelease h) := by
    have hclose : s.world.close a h = s.world.taResourceRelease h := if_neg (not_not.mpr how)
    simp only [World.step, hvm, Bool.false_eq_true, if_false, Option.mem_def.mp hA, Option.bind_some,
      if_pos hreach, hclose]
  have hfreed : (s.world.taResourceRelease h).freed = s.world.freed ++ [p] := by
    unfold taResourceRelease
    rw [hres]
  have hev : s.event dtor (.close a h) =
      some ⟨s.world.taResourceRelease h, s.recs, dtor p x s.env⟩ := by
    unfold State.event
    rw [hstep, Option.map_some, hfreed, List.drop_left]
    simp only [State.destroy, List.foldl_cons, List.foldl_nil, hx, Option.elim_some]
  refine ⟨_, hev, (hf.event hev).1, rfl, ?_, rfl⟩
  funext q
  unfold live
  rw [hfreed]
  by_cases hq : q = p
  · subst hq
    simp
  · simp [hq]

/-- **A new record.**  The actor gets a handle that opens it. -/
theorem Fit.new (hf : Fit s) (hs : s.new dtor a x = some t) :
    Fit t ∧ t.live = Function.update s.live s.world.nextRes (some x) ∧ t.env = s.env ∧
      t.recs s.world.nextRes = some x ∧ t.CanUse a s.world.nextHdr ∧
      ∀ c, taResourceOpen t.world a s.world.nextHdr c = .ok s.world.nextRes := by
  obtain ⟨u, hu, rfl⟩ := Option.map_eq_some_iff.mp hs
  obtain ⟨w', hw, heq⟩ := Option.map_eq_some_iff.mp hu
  have hfit := (hf.event hu).1
  unfold World.step at hw
  split at hw
  · exact absurd hw (by simp)
  obtain ⟨A, hA, rfl⟩ := Option.map_eq_some_iff.mp hw
  have hdrop : s.world.freed.drop s.world.freed.length = [] := List.drop_length
  have hu' : u = ⟨s.world.taResourceNew a A true, s.recs, s.env⟩ := by
    rw [← heq]
    show State.mk _ s.recs (State.destroy dtor s.recs (s.world.freed.drop s.world.freed.length) s.env) = _
    rw [hdrop]
    rfl
  subst hu'
  have hfresh : s.world.nextRes ∉ s.world.freed := fun hm => Nat.lt_irrefl _ (hf.tidy.past hm)
  refine ⟨hfit.setRec (Nat.lt_succ_self _), ?_, rfl, Function.update_self .., ?_, fun c => ?_⟩
  · rw [live_setRec (s := ⟨s.world.taResourceNew a A true, s.recs, s.env⟩) hfresh]
    rfl
  · refine ⟨_, Function.update_self .., ?_⟩
    simp [Actor.reach, Tree.headers]
  · unfold taResourceOpen
    simp [State.setRec, taResourceNew]

end State

/-! ### Every run of the machine -/

open Lib

/-- **A payload that can be opened is its owner's alone.**  In every run, also one that loses
payloads, nothing is released twice; what `ta_resource_open` hands out has not been
released, and no other actor or handle opens it. -/
theorem opened_exclusively {es : List Event} {w : World} (hr : Run (ofFn World.step) init es w) :
    w.freed.Nodup ∧
      ∀ a h c p, (∃ A ∈ w.actors a, h ∈ A.reach) → taResourceOpen w a h c = .ok p →
        p ∉ w.freed ∧ ∀ b k d, (∃ B ∈ w.actors b, k ∈ B.reach) →
          taResourceOpen w b k d = .ok p → b = a ∧ k = h := by
  have ht : Tidy w := hr.invariant (fun _ _ _ h hs => h.step hs) inv_init.tidy
  have hown : ∀ a h c p, (∃ A ∈ w.actors a, h ∈ A.reach) → taResourceOpen w a h c = .ok p →
      (w.hdr h).ownerPid = a ∧ w.Own h p := by
    rintro a h c p ⟨A, hA, hreach⟩ ho
    obtain ⟨how, hres⟩ := State.open_eq_ok ho
    exact ⟨how, how ▸ ht.shape.reach_subset hA hreach, hres⟩
  refine ⟨ht.once, fun a h c p huse ho => ?_⟩
  obtain ⟨how, hp⟩ := hown a h c p huse ho
  refine ⟨ht.live hp, fun b k d huse' ho' => ?_⟩
  obtain ⟨how', hp'⟩ := hown b k d p huse' ho'
  obtain rfl := ht.unique hp hp'
  exact ⟨how'.symm.trans how, rfl⟩

/-- A payload is lost, and another one made and opened. -/
theorem opened_exclusively_after_loss :
    ∃ es w, Run (ofFn World.step) init es w ∧ taResourceOpen w 0 2 0 = .ok 1 ∧ 1 ∉ w.freed := by
  obtain ⟨w, hw, hf⟩ := (Option.any_eq_true _ _).mp (by decide :
    (exec World.step init (guardReceives.take 7 ++ [.create 0 true])).any (fun w =>
      (∃ A ∈ w.actors 0, 2 ∈ A.reach) ∧ taResourceOpen w 0 2 0 = .ok 1) = true)
  obtain ⟨huse, ho⟩ := of_decide_eq_true hf
  have hr := Run.ofFn_iff.mpr hw
  exact ⟨_, w, hr, ho, ((opened_exclusively hr).2 0 2 0 1 huse ho).1⟩

end TinyActor.Runtime.Native
