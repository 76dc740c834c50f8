/-
Exactly one DOWN for a monitor call.

The threads are taken apart once: `Change` lists what a step can do, and every invariant
is proved along it.  The first invariant, `Ordered`, says who can be where: a call that
has found its target holds the lock, so the target is still in the table when the call
registers with it, and the walk over the watchers comes after that.  The second,
`Balanced`, counts: what has been answered and what is still owed by the targets is what
was registered, and a call that missed its target has been answered or is about to be.
-/
import Mathlib.Algebra.Order.Ring.Int
import Mathlib.Data.List.Perm.Basic
import TinyActor.Runtime.Monitor

namespace TinyActor.Runtime.Monitor

open TinyActor.Lib (Run int32 ofFn)

variable {M : Type} {s t : State M} {e : Event M}

section Fields

variable (s : State M) (p q w : Nat) (r : Int) (a : Actor M) (m : Letter M)

@[grind =] theorem State.set_actors : (s.set p a).actors q = if q = p then a else s.actors q :=
  Function.update_apply ..

@[simp] theorem State.set_self : (s.set p a).actors p = a := Function.update_self ..

@[simp] theorem State.set_other (h : q ≠ p) : (s.set p a).actors q = s.actors q :=
  Function.update_of_ne h ..

@[simp, grind =] theorem State.set_lock : (s.set p a).lock = s.lock := rfl

@[simp, grind =] theorem State.set_nextPid : (s.set p a).nextPid = s.nextPid := rfl

@[simp, grind =] theorem State.set_procsCap : (s.set p a).procsCap = s.procsCap := rfl

theorem State.mboxDeliver_actors :
    (s.mboxDeliver p m).actors q = { s.actors q with
      mailbox := if q = p ∧ (s.actors q).life.dead = false then (s.actors q).mailbox ++ [m]
        else (s.actors q).mailbox } := by
  by_cases h : q = p
  · subst h
    cases hd : (s.actors q).life.dead <;> simp [State.mboxDeliver, hd]
  · simp [State.mboxDeliver, h]

/-- A registration changes the watchers of one actor and the call of one, maybe the same. -/
@[grind =] theorem registerWith_actors :
    (registerWith s w r q).actors p =
      { s.actors p with
        watchers := if p = q then (s.actors p).watchers ++ [(w, r)] else (s.actors p).watchers
        calling := if p = w then .idle else (s.actors p).calling
        registered := if p = w then (r, q) :: (s.actors p).registered
          else (s.actors p).registered } := by
  unfold registerWith
  by_cases hq : p = q <;> by_cases hw : p = w <;> subst_vars <;> simp [State.set_actors, *]

@[simp, grind =] theorem registerWith_lock : (registerWith s w r q).lock = none := rfl

@[simp, grind =] theorem registerWith_nextPid : (registerWith s w r q).nextPid = s.nextPid := rfl

@[simp, grind =] theorem registerWith_procsCap : (registerWith s w r q).procsCap = s.procsCap :=
  rfl

end Fields

/-! ### What a step can do -/

/-- The steps of the threads, with the conditions under which they are taken. -/
inductive Change (s : State M) : Event M → State M → Prop
  | reserve (h : s.nextPid < s.procsCap) :
      Change s .reserve { s.set s.nextPid { s.actors s.nextPid with life := .reserved } with
        nextPid := s.nextPid + 1 }
  | publish (p : Nat) (hl : (s.actors p).life = .reserved) (hk : s.lock = none) :
      Change s (.publish p) (s.set p { s.actors p with life := .alive })
  | call (w q : Nat) (hl : (s.actors w).life = .alive) (hc : (s.actors w).calling = .idle) :
      Change s (.call w q) { s.set w { s.actors w with calling := .called (refOf (s.nextRef + 1)) q } with
        nextRef := s.nextRef + 1 }
  | find (w q : Nat) (r : Int) (hc : (s.actors w).calling = .called r q) (hk : s.lock = none)
      (hq : (s.actors q).life = .alive) :
      Change s (.look w) { s.set w { s.actors w with calling := .found r q } with lock := some w }
  | miss (w q : Nat) (r : Int) (hc : (s.actors w).calling = .called r q) (hk : s.lock = none)
      (hq : s.procsCap ≤ q ∨ (s.actors q).life ≠ .alive) :
      Change s (.look w) (s.set w { s.actors w with
        calling := .missed r q
        refused := (r, q) :: (s.actors w).refused
        strangers := if (s.actors q).life.existed then (s.actors w).strangers
          else q :: (s.actors w).strangers })
  | register (w q : Nat) (r : Int) (hc : (s.actors w).calling = .found r q) :
      Change s (.register w) (registerWith s w r q)
  | refuse (w q : Nat) (r : Int) (hc : (s.actors w).calling = .missed r q) :
      Change s (.refuse w) ((s.set w { s.actors w with calling := .idle }).mboxDeliver w
        (.down (.noproc r q)))
  | mark (p : Nat) (x : Reason) (hl : (s.actors p).life = .alive)
      (hc : (s.actors p).calling = .idle) :
      Change s (.mark p x) (s.set p { s.actors p with life := .marked x })
  | remove (p : Nat) (x : Reason) (hl : (s.actors p).life = .marked x) (hk : s.lock = none) :
      Change s (.remove p) (s.set p { s.actors p with life := .removed x })
  | walk (p : Nat) (x : Reason) (hl : (s.actors p).life = .removed x) (hk : s.lock = none) :
      Change s (.walk p) { s.set p { s.actors p with life := .walking x 0 none } with lock := some p }
  | skip (p i w : Nat) (x : Reason) (r : Int) (hl : (s.actors p).life = .walking x i none)
      (he : (s.actors p).watchers[i]? = some (w, r)) (hw : (s.actors w).life ≠ .alive) :
      Change s (.check p) (s.set p { s.actors p with life := .walking x (i + 1) none })
  | choose (p i w : Nat) (x : Reason) (r : Int) (hl : (s.actors p).life = .walking x i none)
      (he : (s.actors p).watchers[i]? = some (w, r)) (hw : (s.actors w).life = .alive) :
      Change s (.check p) (s.set p { s.actors p with life := .walking x i (some w) })
  | deliver (p i w : Nat) (x : Reason) (e : Nat × Int)
      (hl : (s.actors p).life = .walking x i (some w))
      (he : (s.actors p).watchers[i]? = some e) :
      Change s (.deliver p) ((s.set p { s.actors p with life := .walking x (i + 1) none }).mboxDeliver w
        (.down (.exit e.2 p x)))
  | finish (p i : Nat) (x : Reason) (hl : (s.actors p).life = .walking x i none)
      (hi : (s.actors p).watchers.length ≤ i) :
      Change s (.finish p) { s.set p { s.actors p with life := .done } with lock := none }
  | send (p : Nat) (m : M) : Change s (.send p m) (s.mboxDeliver p (.other m))
  | recv (p i : Nat) (m : Letter M) (hl : (s.actors p).life = .alive)
      (hm : (s.actors p).mailbox[i]? = some m) :
      Change s (.recv p i) (s.set p { s.actors p with
        mailbox := (s.actors p).mailbox.eraseIdx i
        taken := m :: (s.actors p).taken })

theorem Life.alive_iff {l : Life} : (l.inTable = true ∧ ¬ l.dead = true) ↔ l = .alive := by
  cases l <;> simp [Life.inTable, Life.dead]

variable {d : Option Nat} {x : Reason} {w q p i : Nat}

theorem lookFor_change {r : Int} (hc : (s.actors w).calling = .called r q) (hk : s.lock = none) :
    Change s (.look w) (lookFor s w r q) := by
  unfold lookFor
  by_cases h : q < s.procsCap ∧ (s.actors q).life.inTable ∧ ¬ (s.actors q).life.dead
  · rw [if_pos h]
    exact .find w q r hc hk (Life.alive_iff.mp h.2)
  · rw [if_neg h]
    refine .miss w q r hc hk ?_
    rw [Life.alive_iff] at h
    rcases Nat.lt_or_ge q s.procsCap with hq | hq
    · exact .inr fun ha => h ⟨hq, ha⟩
    · exact .inl hq

theorem checkWatcher_change {r : Int} (hl : (s.actors p).life = .walking x i none)
    (he : (s.actors p).watchers[i]? = some (w, r)) : Change s (.check p) (checkWatcher s p x i w) := by
  simp only [checkWatcher, Life.alive_iff]
  by_cases h : (s.actors w).life = .alive
  · simp only [if_pos h, Option.isSome_some, if_true]
    exact .choose p i w x r hl he h
  · simp only [if_neg h, Option.isSome_none, Bool.false_eq_true, if_false]
    exact .skip p i w x r hl he h

/-- **A step is one of the changes.** -/
theorem step_change (h : step s e = some t) : Change s e t := by
  cases e with
  | reserve =>
      obtain ⟨hg, ⟨⟩⟩ := Option.ite_none_right_eq_some.mp h
      exact .reserve hg
  | publish p =>
      obtain ⟨hg, ⟨⟩⟩ := Option.ite_none_right_eq_some.mp h
      exact .publish p hg.1 hg.2
  | call w q =>
      obtain ⟨hg, ⟨⟩⟩ := Option.ite_none_right_eq_some.mp h
      exact .call w q hg.1 hg.2
  | look w =>
      simp only [step] at h
      split at h
      next r q hc =>
        obtain ⟨hk, ⟨⟩⟩ := Option.ite_none_right_eq_some.mp h
        exact lookFor_change hc hk
      · cases h
  | register w =>
      simp only [step] at h
      split at h
      next r q hc => cases h; exact .register w q r hc
      · cases h
  | refuse w =>
      simp only [step] at h
      split at h
      next r q hc => cases h; exact .refuse w q r hc
      · cases h
  | mark p x =>
      obtain ⟨hg, ⟨⟩⟩ := Option.ite_none_right_eq_some.mp h
      exact .mark p x hg.1 hg.2.1
  | remove p =>
      simp only [step] at h
      split at h
      next x hl =>
        obtain ⟨hk, ⟨⟩⟩ := Option.ite_none_right_eq_some.mp h
        exact .remove p x hl hk
      · cases h
  | walk p =>
      simp only [step] at h
      split at h
      next x hl =>
        obtain ⟨hk, ⟨⟩⟩ := Option.ite_none_right_eq_some.mp h
        exact .walk p x hl hk
      · cases h
  | check p =>
      simp only [step] at h
      split at h
      next x i hl =>
        obtain ⟨⟨w, r⟩, he, rfl⟩ := Option.map_eq_some_iff.mp h
        exact checkWatcher_change hl he
      · cases h
  | deliver p =>
      simp only [step] at h
      split at h
      next x i w hl =>
        obtain ⟨e, he, rfl⟩ := Option.map_eq_some_iff.mp h
        exact .deliver p i w x e hl he
      · cases h
  | finish p =>
      simp only [step] at h
      split at h
      next x i hl =>
        obtain ⟨hi, ⟨⟩⟩ := Option.ite_none_right_eq_some.mp h
        exact .finish p i x hl hi
      · cases h
  | send p m =>
      obtain ⟨-, ⟨⟩⟩ := Option.ite_none_right_eq_some.mp h
      exact .send p m
  | recv p i =>
      obtain ⟨hg, h⟩ := Option.ite_none_right_eq_some.mp h
      obtain ⟨m, hm, rfl⟩ := Option.map_eq_some_iff.mp h
      exact .recv p i m hg.1 hm

/-! ### Who can be where -/

def Life.isWalking : Life → Bool
  | .walking _ _ _ => true
  | _ => false

def Calling.isFound : Calling → Bool
  | .found _ _ => true
  | _ => false

/-- Who holds `procs_lock`, and what holds of the actors while they are where they are. -/
structure Ordered (s : State M) : Prop where
  fresh : ∀ p, s.nextPid ≤ p → (s.actors p).life = .absent
  room : s.nextPid ≤ s.procsCap
  busy : ∀ w, (s.actors w).calling ≠ .idle → (s.actors w).life = .alive
  found : ∀ w r q, (s.actors w).calling = .found r q →
    s.lock = some w ∧ (s.actors q).life.inTable = true
  walking : ∀ p, (s.actors p).life.isWalking = true → s.lock = some p
  holder : ∀ p, s.lock = some p →
    (s.actors p).calling.isFound = true ∨ (s.actors p).life.isWalking = true
  dest : ∀ p x i w, (s.actors p).life = .walking x i (some w) →
    ∃ r, (s.actors p).watchers[i]? = some (w, r)
  known : ∀ q w r, (w, r) ∈ (s.actors q).watchers → (s.actors w).life.existed = true

attribute [local grind] State.mboxDeliver Life.dead Life.existed Life.inTable
  Life.isWalking Calling.isFound

/-- An actor never comes back. -/
theorem Ordered.later (ho : Ordered s) (h : Change s e t) (p : Nat) :
    ((s.actors p).life.dead = true → (t.actors p).life.dead = true) ∧
      ((s.actors p).life.existed = true → (t.actors p).life.existed = true) := by
  have hfresh := ho.fresh s.nextPid (Nat.le_refl _)
  cases h <;> grind

section Step

variable (ho : Ordered s) (h : Change s e t)

include ho h

theorem Ordered.step_fresh : ∀ p, t.nextPid ≤ p → (t.actors p).life = .absent := by
  have := ho.fresh
  have := ho.busy
  cases h <;> grind

theorem Ordered.step_busy :
    ∀ w, (t.actors w).calling ≠ .idle → (t.actors w).life = .alive := by
  have := ho.busy
  have := ho.fresh
  cases h <;> grind

/-- Who has found its target has the lock, so the target is not taken out of the table. -/
theorem Ordered.step_found : ∀ w r q, (t.actors w).calling = .found r q →
    t.lock = some w ∧ (t.actors q).life.inTable = true := by
  have := ho.found
  have := ho.fresh
  have := ho.busy
  have := ho.walking
  cases h <;> grind

theorem Ordered.step_walking : ∀ p, (t.actors p).life.isWalking = true → t.lock = some p := by
  have := ho.walking
  have := ho.found
  have := ho.busy
  cases h <;> grind

theorem Ordered.step_holder : ∀ p, t.lock = some p →
    (t.actors p).calling.isFound = true ∨ (t.actors p).life.isWalking = true := by
  have := ho.holder
  have := ho.fresh
  have := ho.busy
  cases h <;> grind

/-- The watchers only grow, so the one that was looked up is still where it was. -/
theorem Ordered.step_dest : ∀ p x i w, (t.actors p).life = .walking x i (some w) →
    ∃ r, (t.actors p).watchers[i]? = some (w, r) := by
  have := ho.dest
  cases h <;> grind

theorem Ordered.step_known : ∀ q w r, (w, r) ∈ (t.actors q).watchers →
    (t.actors w).life.existed = true := by
  have := ho.known
  have := ho.busy
  have := ho.later h
  cases h <;> grind

theorem Ordered.step : Ordered t where
  fresh := ho.step_fresh h
  room := by
    have := ho.room
    cases h <;> grind
  busy := ho.step_busy h
  found := ho.step_found h
  walking := ho.step_walking h
  holder := ho.step_holder h
  dest := ho.step_dest h
  known := ho.step_known h

end Step

/-! ### Answers and debts -/

def Letter.noproc : Letter M → Option (Int × Nat)
  | .down (.noproc r q) => some (r, q)
  | _ => none

def Letter.exit : Letter M → Option (Int × Nat)
  | .down (.exit r q _) => some (r, q)
  | _ => none

namespace Actor

/-- How many letters of a kind have ever been put into the mailbox. -/
def count (a : Actor M) (kind : Letter M → Option (Int × Nat)) (r : Int) (q : Nat) : Nat :=
  (a.taken.filterMap kind).count (r, q) + (a.mailbox.filterMap kind).count (r, q)

/-- The watchers that still have to be told. -/
def unserved (a : Actor M) : List (Nat × Int) :=
  match a.life with
  | .walking _ i _ => a.watchers.drop i
  | .done => []
  | _ => a.watchers

end Actor

theorem count_filterMap_eraseIdx {α β : Type} [BEq β] [LawfulBEq β] (f : α → Option β) (b : β)
    {l : List α} {a : α} (h : l[i]? = some a) :
    (l.filterMap f).count b = ([a].filterMap f).count b + ((l.eraseIdx i).filterMap f).count b := by
  obtain ⟨hi, rfl⟩ := List.getElem?_eq_some_iff.mp h
  have hperm := (List.getElem_cons_eraseIdx_perm hi).filterMap f
  rw [← hperm.count_eq, ← List.singleton_append, List.filterMap_append, List.count_append]

/-- Taking a letter out of the mailbox does not change what has been put into it. -/
theorem Actor.count_recv (a : Actor M) {m : Letter M} (hm : a.mailbox[i]? = some m)
    (kind : Letter M → Option (Int × Nat)) (r : Int) (q : Nat) :
    Actor.count { a with mailbox := a.mailbox.eraseIdx i, taken := m :: a.taken } kind r q =
      a.count kind r q := by
  unfold Actor.count
  rw [count_filterMap_eraseIdx kind (r, q) hm]
  simp only [← List.singleton_append (l := a.taken), List.filterMap_append, List.count_append]
  omega

theorem Actor.count_append (a : Actor M) (m : Letter M) (kind : Letter M → Option (Int × Nat))
    (r : Int) (q : Nat) :
    Actor.count { a with mailbox := a.mailbox ++ [m] } kind r q =
      a.count kind r q + if kind m = some (r, q) then 1 else 0 := by
  unfold Actor.count
  rw [List.filterMap_append, List.count_append, ← Nat.add_assoc]
  congr 1
  cases hk : kind m with
  | none => simp [hk]
  | some x => simp [hk, List.count_singleton]

/-- The calls that missed their target have been answered, all but the present one. -/
def Answered (a : Actor M) : Prop :=
  a.life.dead = false → ∀ r q,
    a.count Letter.noproc r q + (if a.calling = .missed r q then 1 else 0) = a.refused.count (r, q)

/-- What was registered has been answered, or is owed by the target. -/
def Balanced (s : State M) : Prop :=
  ∀ w, (s.actors w).life.dead = false → ∀ r q,
    (s.actors w).count Letter.exit r q + (s.actors q).unserved.count (w, r) =
      (s.actors w).registered.count (r, q)

/-- A letter of another kind does not count. -/
theorem State.count_mboxDeliver (s : State M) (p w : Nat) (m : Letter M)
    (kind : Letter M → Option (Int × Nat)) (r : Int) (q : Nat) :
    ((s.mboxDeliver p m).actors w).count kind r q = (s.actors w).count kind r q +
      if w = p ∧ (s.actors p).life.dead = false ∧ kind m = some (r, q) then 1 else 0 := by
  rw [State.mboxDeliver_actors]
  by_cases h : w = p ∧ (s.actors w).life.dead = false
  · obtain ⟨rfl, hd⟩ := h
    simp only [hd, and_self, if_true, true_and, Actor.count_append]
  · rw [if_neg h, if_neg]
    · rfl
    · rintro ⟨rfl, hd, -⟩
      exact h ⟨rfl, hd⟩

theorem Answered.step (ho : Ordered s) (ha : ∀ p, Answered (s.actors p)) (h : Change s e t)
    (p : Nat) : Answered (t.actors p) := by
  have hfresh := ho.fresh s.nextPid (Nat.le_refl _)
  have hp := ha p
  intro hd r q
  cases h with
  | refuse | deliver | send =>
      rw [State.count_mboxDeliver]
      grind [Answered, Actor.count, Letter.noproc]
  | recv p' i m hl hm =>
      have hm' := (s.actors p').count_recv hm Letter.noproc r q
      rw [State.set_actors] at hd ⊢
      grind [Answered]
  | _ => grind [Answered, Actor.count]

/-- The head of what is still to be served. -/
theorem Actor.unserved_walking {a : Actor M} {e : Nat × Int} (hl : a.life = .walking x i d)
    (he : a.watchers[i]? = some e) : a.unserved = e :: a.watchers.drop (i + 1) := by
  obtain ⟨hi, rfl⟩ := List.getElem?_eq_some_iff.mp he
  simp only [Actor.unserved, hl]
  exact List.drop_eq_getElem_cons hi

theorem State.unserved_mboxDeliver (s : State M) (p q : Nat) (m : Letter M) :
    ((s.mboxDeliver p m).actors q).unserved = (s.actors q).unserved := by
  rw [State.mboxDeliver_actors]
  rfl

/-- A target that is still in the table has the whole walk before it. -/
theorem unserved_registerWith {r : Int} (hq : (s.actors q).life.inTable = true) (p : Nat) :
    ((registerWith s w r q).actors p).unserved =
      if p = q then (s.actors p).unserved ++ [(w, r)] else (s.actors p).unserved := by
  rw [registerWith_actors]
  by_cases hp : p = q
  · subst hp
    cases hl : (s.actors p).life <;> simp_all [Actor.unserved, Life.inTable]
  · simp only [Actor.unserved, if_neg hp]

theorem Life.dead_of_existed {l : Life} (h : l.existed = true) (hl : l ≠ .alive) :
    l.dead = true := by
  cases l <;> simp_all [Life.existed, Life.dead]

theorem Balanced.step (ho : Ordered s) (hb : Balanced s) (h : Change s e t) : Balanced t := by
  have hfresh := ho.fresh s.nextPid (Nat.le_refl _)
  intro w hd r q
  have hw := hb w
  cases h with
  | register w' q' r' hc =>
      have hun := unserved_registerWith (w := w') (r := r') (ho.found w' r' q' hc).2 q
      grind [Actor.count]
  | skip p i w' x r' hl he hw' =>
      -- who is passed over is dead
      have hun := Actor.unserved_walking hl he
      have hdead := Life.dead_of_existed (ho.known p w' r' (List.mem_of_getElem? he)) hw'
      grind [Actor.count, Actor.unserved]
  | deliver p i w' x e hl he =>
      obtain ⟨r', hr'⟩ := ho.dest p x i w' hl
      have hun := Actor.unserved_walking hl he
      rw [State.count_mboxDeliver, State.unserved_mboxDeliver]
      grind [Actor.count, Actor.unserved, Letter.exit]
  | finish p i x hl hi =>
      have hun : (s.actors p).unserved = [] := by
        simp only [Actor.unserved, hl]
        exact List.drop_eq_nil_of_le hi
      grind [Actor.count, Actor.unserved]
  | refuse | send =>
      rw [State.count_mboxDeliver, State.unserved_mboxDeliver]
      grind [Actor.count, Actor.unserved, Letter.exit]
  | recv p' i m hl hm =>
      have hm' := (s.actors p').count_recv hm Letter.exit r q
      rw [State.set_actors] at hd ⊢
      grind [Actor.unserved]
  | _ => grind [Actor.count, Actor.unserved]

/-! ### Who is written about -/

/-- A notice of a death is about an actor that is dead, and an actor that was not found is dead
unless there had not been such an actor. -/
structure Honest (s : State M) : Prop where
  exits : ∀ w r q, 0 < (s.actors w).count Letter.exit r q → (s.actors q).life.dead = true
  refused : ∀ w r q, (r, q) ∈ (s.actors w).refused →
    (s.actors q).life.dead = true ∨ q ∈ (s.actors w).strangers

theorem Honest.step (ho : Ordered s) (hh : Honest s) (h : Change s e t) : Honest t where
  exits := by
    intro w r q hpos
    refine Decidable.byContradiction fun hd => ?_
    have hq : ¬ (s.actors q).life.dead = true := fun hq => hd ((ho.later h q).1 hq)
    have hzero : (s.actors w).count Letter.exit r q = 0 :=
      Nat.eq_zero_of_not_pos fun hw => hq (hh.exits w r q hw)
    cases h with
    | refuse | send =>
        rw [State.count_mboxDeliver] at hpos
        grind [Actor.count, Letter.exit]
    | deliver p i w' x e hl he =>
        rw [State.count_mboxDeliver] at hpos
        grind [Actor.count, Letter.exit]
    | recv p i m hl hm =>
        have hm' := (s.actors p).count_recv hm Letter.exit r q
        rw [State.set_actors] at hpos
        grind
    | _ => grind [Actor.count]
  refused := by
    intro w r q hmem
    have hlater := (ho.later h q).1
    have hw := hh.refused w r q
    cases h with
    | miss w' q' r' hc hk hq' =>
        have hlate : s.procsCap ≤ q' → (s.actors q').life = .absent := fun hcap =>
          ho.fresh q' (Nat.le_trans ho.room hcap)
        have hdead := @Life.dead_of_existed (s.actors q').life
        grind
    | _ => grind

/-! ### References -/

theorem refOf_inj {j k : Nat} (hj : j < 2 ^ 32) (hk : k < 2 ^ 32) (h : refOf j = refOf k) :
    j = k := by
  unfold refOf int32 at h
  rw [Int.bmod_def, Int.bmod_def] at h
  omega

/-- One for a call of `monitor`. -/
def Event.isCall : Event M → Nat
  | .call _ _ => 1
  | _ => 0

/-- The reference that an event of `w` returns, and the target it is for, after `k` calls. -/
def Event.begun (w k : Nat) : Event M → List (Int × Nat)
  | .call w' q => if w = w' then [(refOf (k + 1), q)] else []
  | _ => []

/-- The calls that `w` makes in a run, after `k` calls. -/
def callsOf (w : Nat) : Nat → List (Event M) → List (Int × Nat)
  | _, [] => []
  | k, e :: es => e.begun w k ++ callsOf w (k + e.isCall) es

def callCount (es : List (Event M)) : Nat := (es.map Event.isCall).sum

/-- The call an actor is in, if it is not settled. -/
def Calling.open : Calling → List (Int × Nat)
  | .called r q | .found r q => [(r, q)]
  | _ => []

/-- The calls of an actor: the one it is in, those that registered and those that did not find
their target. -/
def Actor.calls (a : Actor M) : List (Int × Nat) := a.calling.open ++ (a.registered ++ a.refused)

theorem calls_set {a : Actor M} (h : a.calls = (s.actors p).calls) (w : Nat) :
    ((s.set p a).actors w).calls = (s.actors w).calls := by
  rw [State.set_actors]
  split
  · next hw => rw [h, hw]
  · rfl

/-- Only a call takes a new reference; what becomes of it later is a change of place. -/
theorem Change.calls (h : Change s e t) : t.nextRef = s.nextRef + e.isCall ∧
    ∀ w, ((t.actors w).calls).Perm (e.begun w s.nextRef ++ (s.actors w).calls) := by
  cases h with
  | call w' q hl hc =>
      refine ⟨rfl, fun w => .of_eq ?_⟩
      simp only [State.set_actors, Event.begun]
      by_cases hw : w = w'
      · subst hw
        simp [Actor.calls, Calling.open, hc]
      · simp [hw]
  | register w' q r hc =>
      refine ⟨rfl, fun w => .of_eq ?_⟩
      rw [registerWith_actors]
      by_cases hw : w = w'
      · subst hw
        simp [Actor.calls, Calling.open, hc, Event.begun]
      · simp [Actor.calls, hw, Event.begun]
  | miss w' q r hc hk hq =>
      refine ⟨rfl, fun w => ?_⟩
      rw [State.set_actors]
      by_cases hw : w = w'
      · subst hw
        simp only [Actor.calls, Calling.open, hc, if_true, List.nil_append, Event.begun]
        exact List.perm_middle
      · rw [if_neg hw]
        exact .refl _
  | find w' q r hc =>
      exact ⟨rfl, fun w => .of_eq (calls_set (by simp only [Actor.calls, Calling.open, hc]) w)⟩
  | refuse w' q r hc =>
      refine ⟨rfl, fun w => .of_eq ?_⟩
      rw [State.mboxDeliver_actors]
      exact calls_set (by simp only [Actor.calls, Calling.open, hc]) w
  | deliver p i w' x e =>
      refine ⟨rfl, fun w => .of_eq ?_⟩
      rw [State.mboxDeliver_actors]
      refine calls_set ?_ w
      rfl
  | send p m => exact ⟨rfl, fun w => .of_eq (by rw [State.mboxDeliver_actors]; rfl)⟩
  | reserve | publish | mark | remove | walk | skip | choose | finish | recv =>
      refine ⟨rfl, fun w => .of_eq (calls_set ?_ w)⟩
      rfl

/-- **The calls a run makes are the calls its actors have on record.** -/
theorem run_calls {es : List (Event M)} (h : Run (ofFn step) s es t) :
    t.nextRef = s.nextRef + callCount es ∧
      ∀ w, ((t.actors w).calls).Perm (callsOf w s.nextRef es ++ (s.actors w).calls) := by
  induction h with
  | nil s => exact ⟨rfl, fun w => .refl _⟩
  | @cons s u t e es hs _ ih =>
      obtain ⟨hnext, hcalls⟩ := (step_change hs).calls
      rw [hnext] at ih
      refine ⟨by rw [ih.1, callCount, callCount, List.map_cons, List.sum_cons, Nat.add_assoc],
        fun w => (ih.2 w).trans ?_⟩
      refine ((hcalls w).append_left _).trans ?_
      rw [callsOf, ← List.append_assoc]
      exact List.perm_append_comm.append_right _

theorem Event.begun_ref {w k q : Nat} {r : Int} (h : (r, q) ∈ e.begun w k) :
    e.isCall = 1 ∧ r = refOf (k + 1) := by
  cases e with
  | call w' q' =>
      simp only [begun] at h
      split at h
      · exact ⟨rfl, (Prod.mk.inj (List.mem_singleton.mp h)).1⟩
      · cases h
  | _ => cases h

/-- The reference of a call is the number of the call. -/
theorem callsOf_ref {w k q : Nat} {r : Int} {es : List (Event M)} (h : (r, q) ∈ callsOf w k es) :
    ∃ j, k < j ∧ j ≤ k + callCount es ∧ r = refOf j := by
  induction es generalizing k with
  | nil => cases h
  | cons e es ih =>
      rw [callCount, List.map_cons, List.sum_cons]
      rcases List.mem_append.mp h with h | h
      · obtain ⟨hone, hr⟩ := Event.begun_ref h
        exact ⟨k + 1, by omega, by omega, hr⟩
      · obtain ⟨j, hlo, hhi, hr⟩ := ih h
        rw [callCount] at hhi
        exact ⟨j, by omega, by omega, hr⟩

/-- No two calls have the same reference, until the numbers start again. -/
theorem callsOf_nodup {w k : Nat} {es : List (Event M)} (h : k + callCount es < 2 ^ 32) :
    ((callsOf w k es).map Prod.fst).Nodup := by
  induction es generalizing k with
  | nil => exact List.nodup_nil
  | cons e es ih =>
      rw [callCount, List.map_cons, List.sum_cons] at h
      rw [callsOf, List.map_append]
      refine List.nodup_append.mpr ⟨?_, ih (by rw [callCount]; omega), ?_⟩
      · cases e with
        | call w' q => simp only [Event.begun]; split <;> simp
        | _ => exact List.nodup_nil
      · intro r hr r' hr' heq
        subst heq
        obtain ⟨⟨_, q⟩, hmem, rfl⟩ := List.mem_map.mp hr
        obtain ⟨⟨_, q'⟩, hmem', heq⟩ := List.mem_map.mp hr'
        obtain ⟨hone, hr⟩ := Event.begun_ref hmem
        obtain ⟨j, hlo, hhi, hj⟩ := callsOf_ref hmem'
        rw [callCount] at hhi
        have := refOf_inj (by omega) (by omega) ((hr.symm.trans heq.symm).trans hj)
        omega

/-! ### The end of a death -/

/-- The run of a walker from one state to another: nobody else changes its life by it. -/
structure Walked (p : Nat) (s t : State M) : Prop where
  run : ∃ es, Run (ofFn step) s es t
  watchers : (t.actors p).watchers = (s.actors p).watchers
  others : ∀ w, w ≠ p → (t.actors w).life = (s.actors w).life

theorem Walked.trans {u : State M} (h : Walked p s t) (h' : Walked p t u) : Walked p s u := by
  obtain ⟨es, hes⟩ := h.run
  obtain ⟨es', hes'⟩ := h'.run
  exact ⟨⟨es ++ es', hes.append hes'⟩, h'.watchers.trans h.watchers,
    fun w hw => (h'.others w hw).trans (h.others w hw)⟩

theorem walked_deliver {e : Nat × Int} (hl : (s.actors p).life = .walking x i (some w))
    (he : (s.actors p).watchers[i]? = some e) :
    ∃ t, Walked p s t ∧ (t.actors p).life = .walking x (i + 1) none := by
  have hs : step s (.deliver p) = some ((s.set p { s.actors p with
      life := .walking x (i + 1) none }).mboxDeliver w (.down (.exit e.2 p x))) := by
    simp only [step, hl, he, Option.map_some]
  refine ⟨_, ⟨⟨_, .single hs⟩, ?_, fun w' hw' => ?_⟩, ?_⟩
  all_goals simp [State.mboxDeliver_actors, *]

/-- A turn of the loop, with the delivery if there is one. -/
theorem walked_turn (hl : (s.actors p).life = .walking x i none)
    (hi : i < (s.actors p).watchers.length) :
    ∃ t, Walked p s t ∧ (t.actors p).life = .walking x (i + 1) none := by
  have he : (s.actors p).watchers[i]? = some (s.actors p).watchers[i] :=
    List.getElem?_eq_getElem hi
  generalize (s.actors p).watchers[i] = e at he
  have hs : step s (.check p) = some (checkWatcher s p x i e.1) := by
    simp only [step, hl, he, Option.map_some]
  simp only [checkWatcher, Life.alive_iff] at hs
  by_cases hw : (s.actors e.1).life = .alive
  · simp only [if_pos hw, Option.isSome_some, if_true] at hs
    have hwalk : Walked p s (s.set p { s.actors p with life := .walking x i (some e.1) }) :=
      ⟨⟨_, .single hs⟩, by simp, fun w hw => by simp [hw]⟩
    obtain ⟨t, ht, hlife⟩ := walked_deliver (s := s.set p { s.actors p with
      life := .walking x i (some e.1) }) (by rw [State.set_self]) (by rw [State.set_self]; exact he)
    exact ⟨t, hwalk.trans ht, hlife⟩
  · simp only [if_neg hw, Option.isSome_none, Bool.false_eq_true, if_false] at hs
    exact ⟨_, ⟨⟨_, .single hs⟩, by simp, fun w hw => by simp [hw]⟩, by simp⟩

theorem walked_finish (hl : (s.actors p).life = .walking x i none)
    (hi : (s.actors p).watchers.length ≤ i) :
    ∃ t, Walked p s t ∧ (t.actors p).life = .done ∧ t.lock = none := by
  have hs : step s (.finish p) =
      some { s.set p { s.actors p with life := .done } with lock := none } := by
    simp only [step, hl]
    rw [if_pos hi]
  exact ⟨_, ⟨⟨_, .single hs⟩, by simp, fun w hw => by simp [hw]⟩, by simp, rfl⟩

theorem walked_loop (n : Nat) : ∀ {s : State M} {i : Nat},
    (s.actors p).life = .walking x i none → (s.actors p).watchers.length ≤ i + n →
    ∃ t, Walked p s t ∧ (t.actors p).life = .done ∧ t.lock = none := by
  induction n with
  | zero => exact fun hl hn => walked_finish hl hn
  | succ n ih =>
      intro s i hl hn
      by_cases hi : i < (s.actors p).watchers.length
      · obtain ⟨u, hu, hlu⟩ := walked_turn hl hi
        obtain ⟨t, ht, hdone⟩ := ih hlu (by rw [hu.watchers]; omega)
        exact ⟨t, hu.trans ht, hdone⟩
      · exact walked_finish hl (by omega)

/-- A walk that has begun comes to its end. -/
theorem walk_ends (ho : Ordered s) (hl : (s.actors p).life = .walking x i d) :
    ∃ t, Walked p s t ∧ (t.actors p).life = .done ∧ t.lock = none := by
  cases d with
  | none => exact walked_loop (s.actors p).watchers.length hl (by omega)
  | some w =>
      obtain ⟨r, he⟩ := ho.dest p x i w hl
      obtain ⟨u, hu, hlu⟩ := walked_deliver hl he
      obtain ⟨t, ht, hdone⟩ := walked_loop (u.actors p).watchers.length hlu (by omega)
      exact ⟨t, hu.trans ht, hdone⟩

/-- Whoever has the lock gives it up, and nobody dies of that. -/
theorem lock_released (ho : Ordered s) : ∃ es t, Run (ofFn step) s es t ∧ t.lock = none ∧
    ∀ p, (t.actors p).life = (s.actors p).life ∨ (t.actors p).life = .done ∧
      (s.actors p).life.isWalking = true := by
  cases hk : s.lock with
  | none => exact ⟨[], s, .nil s, hk, fun p => .inl rfl⟩
  | some p =>
      rcases ho.holder p hk with hc | hl
      · cases hc' : (s.actors p).calling with
        | found r q =>
            have hs : step s (.register p) = some (registerWith s p r q) := by
              simp only [step, hc']
            exact ⟨_, _, .single hs, rfl, fun w => .inl (by rw [registerWith_actors])⟩
        | idle | called | missed => rw [hc'] at hc; cases hc
      · cases hl' : (s.actors p).life with
        | walking x i d =>
            obtain ⟨t, ht, hdone, hfree⟩ := walk_ends ho hl'
            obtain ⟨es, hes⟩ := ht.run
            refine ⟨es, t, hes, hfree, fun w => ?_⟩
            by_cases hw : w = p
            · subst hw
              exact .inr ⟨hdone, hl⟩
            · exact .inl (ht.others w hw)
        | absent | reserved | alive | marked | removed | done => rw [hl'] at hl; cases hl

theorem Ordered.run (ho : Ordered s) {es : List (Event M)}
    (h : Run (ofFn Monitor.step) s es t) : Ordered t :=
  h.invariant (fun _ _ _ hs hstep => hs.step (step_change hstep)) ho

/-- An actor that has died can come to the end of its death without anybody else dying. -/
def Completes (q : Nat) (s : State M) : Prop :=
  ∃ es t, Run (ofFn step) s es t ∧ (t.actors q).life = .done ∧
    ∀ w, (s.actors w).life = .alive → (t.actors w).life = .alive

theorem Completes.of_run {es : List (Event M)} (h : Run (ofFn step) s es t)
    (halive : ∀ w, (s.actors w).life = .alive → (t.actors w).life = .alive) (hc : Completes q t) :
    Completes q s := by
  obtain ⟨es', u, hrun, hdone, hu⟩ := hc
  exact ⟨es ++ es', u, h.append hrun, hdone, fun w hw => hu w (halive w hw)⟩

theorem completes_walking (ho : Ordered s) (hl : (s.actors q).life = .walking x i d) :
    Completes q s := by
  obtain ⟨t, ht, hdone, -⟩ := walk_ends ho hl
  obtain ⟨es, hes⟩ := ht.run
  refine ⟨es, t, hes, hdone, fun w hw => ?_⟩
  rw [ht.others w (by rintro rfl; rw [hl] at hw; cases hw), hw]

theorem alive_set {a : Actor M} (hl : (s.actors q).life ≠ .alive) (w : Nat) (hw : (s.actors w).life = .alive) :
    ((s.set q a).actors w).life = .alive := by
  rwa [State.set_other _ _ _ _ fun h => hl (by rw [← h, hw])]

theorem completes_removed (ho : Ordered s) (hl : (s.actors q).life = .removed x)
    (hk : s.lock = none) : Completes q s := by
  have hs : step s (.walk q) = some { s.set q { s.actors q with
      life := .walking x 0 none } with lock := some q } := by
    simp only [step, hl, if_pos hk]
  have hrun : Run (ofFn step) s [.walk q] _ := .single hs
  exact .of_run hrun (alive_set (by simp [hl])) (completes_walking (ho.run hrun) (x := x) (i := 0)
    (d := none) (by simp))

theorem completes_marked (ho : Ordered s) (hl : (s.actors q).life = .marked x)
    (hk : s.lock = none) : Completes q s := by
  have hs : step s (.remove q) = some (s.set q { s.actors q with life := .removed x }) := by
    simp only [step, hl, if_pos hk]
  have hrun : Run (ofFn step) s [.remove q] _ := .single hs
  exact .of_run hrun (alive_set (by simp [hl])) (completes_removed (ho.run hrun) (x := x) (by simp) hk)

/-- **A death that has begun can always be completed.** -/
theorem death_completes (ho : Ordered s) (hd : (s.actors q).life.dead = true) : Completes q s := by
  obtain ⟨es, t, hrun, hk, hlife⟩ := lock_released ho
  have ht := ho.run hrun
  have hd' : (t.actors q).life.dead = true := by
    rcases hlife q with h | ⟨h, -⟩
    · rwa [h]
    · rw [h]; rfl
  refine .of_run hrun (fun w hw => ?_) ?_
  · rcases hlife w with h | ⟨-, h⟩
    · rwa [h]
    · rw [hw] at h
      cases h
  cases hl : (t.actors q).life with
  | marked x => exact completes_marked ht hl hk
  | removed x => exact completes_removed ht hl hk
  | walking x i d => exact completes_walking ht hl
  | done => exact ⟨[], t, .nil t, hl, fun _ hw => hw⟩
  | absent | reserved | alive => rw [hl] at hd'; cases hd'

/-! ### Exactly one notice -/

theorem init_actors (procsCap p : Nat) : (init procsCap : State M).actors p =
    if p = 0 then { Actor.none with life := .alive } else .none :=
  Function.update_apply (fun _ => Actor.none) 0 _ p

theorem init_ordered {procsCap : Nat} (h : 0 < procsCap) : Ordered (init procsCap : State M) where
  fresh := by
    intro p hp
    rw [init_actors, if_neg (Nat.ne_of_gt hp)]
    rfl
  room := h
  busy := by
    intro w hc
    rw [init_actors] at hc
    split at hc <;> exact absurd rfl hc
  found := by
    intro w r q hc
    rw [init_actors] at hc
    split at hc <;> cases hc
  walking := by
    intro p hl
    rw [init_actors] at hl
    split at hl <;> cases hl
  holder := nofun
  dest := by
    intro p x i w hl
    rw [init_actors] at hl
    split at hl <;> cases hl
  known := by
    intro q w r hm
    rw [init_actors] at hm
    split at hm <;> cases hm

/-- What holds in every state of a run. -/
structure Invariant (s : State M) : Prop where
  ordered : Ordered s
  answered : ∀ p, Answered (s.actors p)
  balanced : Balanced s
  honest : Honest s

theorem Invariant.step (hi : Invariant s) (h : Change s e t) : Invariant t where
  ordered := hi.ordered.step h
  answered := Answered.step hi.ordered hi.answered h
  balanced := hi.balanced.step hi.ordered h
  honest := hi.honest.step hi.ordered h

theorem init_invariant {procsCap : Nat} (h : 0 < procsCap) :
    Invariant (init procsCap : State M) where
  ordered := init_ordered h
  answered := by
    intro p _ r q
    rw [init_actors]
    split <;> rfl
  balanced := by
    intro w _ r q
    rw [init_actors, init_actors]
    split <;> split <;> rfl
  honest := by
    refine ⟨fun w r q hpos => ?_, fun w r q hm => ?_⟩
    · rw [init_actors] at hpos
      split at hpos <;> cases hpos
    · rw [init_actors] at hm
      split at hm <;> cases hm

/-- **Every monitor call is answered exactly once.**  Wherever a run of the threads has come to
with the entry actor alive, for a caller that is alive and between calls: each call that did
not find its target has been answered; each call that registered has been answered or its
entry is still to be served, and it has been answered once the death of the target is over;
nothing has been said of a target that is not dead.  The calls that registered and those that
did not find their target are the calls the run has made, under the references they returned,
and these are all different; a target that was not found is dead or had never existed; and a
death that has begun comes to its end. -/
theorem monitor_exactly_once {procsCap : Nat} (hcap : 0 < procsCap) {es : List (Event M)}
    (h : Run (ofFn step) (init procsCap) es s) :
    (∀ w, (s.actors w).life = .alive → (s.actors w).calling = .idle → ∀ r q,
      (s.actors w).count Letter.noproc r q = (s.actors w).refused.count (r, q) ∧
      (s.actors w).count Letter.exit r q + (s.actors q).unserved.count (w, r) =
        (s.actors w).registered.count (r, q) ∧
      ((s.actors q).life = .done →
        (s.actors w).count Letter.exit r q = (s.actors w).registered.count (r, q)) ∧
      ((s.actors q).life.dead = false → (s.actors w).count Letter.exit r q = 0)) ∧
    (∀ w, (s.actors w).calling = .idle →
      ((s.actors w).registered ++ (s.actors w).refused).Perm (callsOf w 0 es)) ∧
    (s.nextRef < 2 ^ 32 → ∀ w,
      (((s.actors w).registered ++ (s.actors w).refused).map Prod.fst).Nodup) ∧
    (∀ w r q, (r, q) ∈ (s.actors w).refused →
      (s.actors q).life.dead = true ∨ q ∈ (s.actors w).strangers) ∧
    ∀ q, (s.actors q).life.dead = true → Completes q s := by
  have hi : Invariant s := h.invariant (fun _ _ _ hs hstep => hs.step (step_change hstep))
    (init_invariant hcap)
  obtain ⟨hnext, hcalls⟩ := run_calls h
  have hrecord : ∀ w, ((s.actors w).calls).Perm (callsOf w 0 es) := by
    intro w
    have hnone : (((init procsCap : State M).actors w).calls) = [] := by
      simp only [init, Function.update_apply]
      split <;> rfl
    have := hcalls w
    rwa [hnone, List.append_nil] at this
  refine ⟨fun w hl hc r q => ?_, fun w hc => ?_, fun hlt w => ?_, hi.honest.refused, fun q hq =>
    death_completes hi.ordered hq⟩
  · have hd : (s.actors w).life.dead = false := by rw [hl]; rfl
    have hans := hi.answered w hd r q
    rw [hc, if_neg nofun, Nat.add_zero] at hans
    have hbal := hi.balanced w hd r q
    refine ⟨hans, hbal, fun hq => ?_, fun hq => ?_⟩
    · have hun : (s.actors q).unserved = [] := by simp only [Actor.unserved, hq]
      rwa [hun, List.count_nil, Nat.add_zero] at hbal
    · refine Nat.eq_zero_of_not_pos fun hpos => ?_
      rw [hi.honest.exits w r q hpos] at hq
      cases hq
  · have := hrecord w
    rw [Actor.calls, hc] at this
    exact this
  · have hzero : (init procsCap : State M).nextRef = 0 := rfl
    have hnodup := (((hrecord w).map Prod.fst).nodup_iff).mpr (callsOf_nodup (by omega))
    rw [Actor.calls, List.map_append] at hnodup
    exact (List.nodup_append.mp hnodup).2.1

/-- An actor is watched and dies; another pid was never taken. -/
def watchedDeath : List (Event Unit) :=
  [.reserve, .publish 1, .call 0 1, .look 0, .mark 1 none, .register 0, .call 0 7, .look 0,
    .remove 1, .refuse 0, .walk 1, .check 1, .deliver 1, .finish 1]

theorem monitor_exactly_once_watchedDeath : ∃ s : State Unit,
    Run (ofFn step) (init 16) watchedDeath s ∧
    (s.actors 0).life = .alive ∧ (s.actors 0).calling = .idle ∧ (s.actors 1).life = .done ∧
    (s.actors 0).count Letter.exit 1 1 = (s.actors 0).registered.count (1, 1) ∧
    (s.actors 0).count Letter.noproc 2 7 = (s.actors 0).refused.count (2, 7) ∧
    ((s.actors 0).registered ++ (s.actors 0).refused).Perm [(1, 1), (2, 7)] := by
  have hsome : (Lib.exec step (init 16 : State Unit) watchedDeath).isSome = true := by decide
  have hrun := Run.ofFn_iff.mpr (Option.some_get hsome).symm
  obtain ⟨h, hcalls, -⟩ := monitor_exactly_once (by decide) hrun
  exact ⟨_, hrun, rfl, rfl, rfl, (h 0 rfl rfl 1 1).2.2.1 rfl, (h 0 rfl rfl 2 7).1, hcalls 0 rfl⟩

end TinyActor.Runtime.Monitor
