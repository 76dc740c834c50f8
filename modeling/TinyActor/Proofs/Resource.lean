/-
Every resource is released once.

The header that counts is the one that lives with the actor it names: `Own`.  A
copy that is handed over takes its payload along, because the old header is
rewritten to name an actor it does not live with, and it can never count again:
only its owner can pass it on, and its owner has no hold of it.  So the payloads
are held by one header each, in the sense of `Lib/Linear.lean`, and every
operation is a birth, a move or a release.

The one exception is `recv_commit`, which frees a fragment without looking at it.
It relies on the fragment having been peeked, and a peek refuses resources.  When
a guard takes a message out between the two, the cursor is off by one and the
fragment that goes may carry a payload, which then nobody holds.
-/
import TinyActor.Lib.Linear
import TinyActor.Proofs.Mailbox
import TinyActor.Runtime.Resource

namespace TinyActor.Runtime.Resource

open TinyActor.Lib

/-! ### Copied values -/

namespace Tree

mutual

theorem headers_relabel : ∀ (t : Tree) (n : Nat),
    (t.relabel n).headers = List.range' n t.headers.length
  | atom _, _ => rfl
  | res _, _ => rfl
  | pair car cdr, n => by
      simp only [relabel, headers, headers_relabel car, headers_relabel cdr, List.length_append,
        List.range'_append_1]
  | clos _ free, n => by
      simp only [relabel, headers, headersList_relabelList free]

theorem headersList_relabelList : ∀ (ts : List Tree) (n : Nat),
    headersList (relabelList ts n) = List.range' n (headersList ts).length
  | [], _ => rfl
  | t :: ts, n => by
      simp only [relabelList, headersList, headers_relabel t, headersList_relabelList ts,
        List.length_append, List.range'_append_1]

end

end Tree

variable {hs ps : List Nat} {w w' : World} {A : Actor} {a b : Nat}

namespace World

@[simp] theorem actors_setActor (w : World) (a : Nat) (A : Option Actor) :
    (w.setActor a A).actors a = A := Function.update_self ..

theorem actors_setActor_ne (w : World) (A : Option Actor) (h : b ≠ a) :
    (w.setActor a A).actors b = w.actors b := Function.update_of_ne h ..

theorem held_setActor (w : World) (a : Nat) (A : Option Actor) :
    (w.setActor a A).held a = A.elim [] Actor.held := by
  unfold held
  rw [actors_setActor]

theorem held_setActor_ne (w : World) (A : Option Actor) (h : b ≠ a) :
    (w.setActor a A).held b = w.held b := by
  unfold held
  rw [actors_setActor_ne w A h]

theorem held_some (h : w.actors a = some A) : w.held a = A.held := by
  unfold held
  rw [h]
  rfl

theorem held_none (h : w.actors a = none) : w.held a = [] := by
  unfold held
  rw [h]
  rfl

/-! ### Releasing -/

/-- What a release through the headers of one actor does: those headers are
cleared, and the payloads `ps` they had are freed. -/
structure Released (w : World) (a : Nat) (hs ps : List Nat) (w' : World) : Prop where
  actors : w'.actors = w.actors
  nextHdr : w'.nextHdr = w.nextHdr
  nextPid : w'.nextPid = w.nextPid
  nextRes : w'.nextRes = w.nextRes
  hasDtor : w'.hasDtor = w.hasDtor
  vmFreed : w'.vmFreed = w.vmFreed
  owner : ∀ h, (w'.hdr h).ownerPid = (w.hdr h).ownerPid
  res : ∀ h, (w'.hdr h).res =
    if h ∈ hs ∧ (w.hdr h).ownerPid = a then none else (w.hdr h).res
  freed : w'.freed = w.freed ++ ps
  calls : w'.dtorCalls = w.dtorCalls ++ ps.filter w.hasDtor
  mem : ∀ p, p ∈ ps ↔ ∃ h ∈ hs, (w.hdr h).ownerPid = a ∧ (w.hdr h).res = some p

/-- No two of the headers that name `a` have one payload. -/
def Apart (w : World) (a : Nat) (hs : List Nat) : Prop :=
  ∀ h ∈ hs, ∀ h' ∈ hs, (w.hdr h).ownerPid = a → (w.hdr h').ownerPid = a →
    ∀ p, (w.hdr h).res = some p → (w.hdr h').res = some p → h = h'

theorem releaseOwned_cons (w : World) (a h : Nat) (hs : List Nat) :
    w.releaseOwned a (h :: hs) =
      (if (w.hdr h).ownerPid = a then w.taResourceRelease h else w).releaseOwned a hs := rfl

theorem releaseOwned_append (w : World) (a : Nat) (hs hs' : List Nat) :
    w.releaseOwned a (hs ++ hs') = (w.releaseOwned a hs).releaseOwned a hs' :=
  List.foldl_append

theorem released_one {h : Nat} (how : (w.hdr h).ownerPid = a) :
    Released w a [h] (w.hdr h).res.toList (w.taResourceRelease h) := by
  unfold taResourceRelease
  cases hres : (w.hdr h).res with
  | none =>
      refine ⟨rfl, rfl, rfl, rfl, rfl, rfl, fun _ => rfl, fun k => ?_, by simp, by simp, ?_⟩
      · dsimp only
        split
        · next hk => rw [List.mem_singleton.mp hk.1, hres]
        · rfl
      · simp [hres]
  | some p =>
      refine ⟨rfl, rfl, rfl, rfl, rfl, rfl, fun k => ?_, fun k => ?_, rfl, ?_, ?_⟩
      · by_cases hk : k = h
        · subst hk; simp
        · simp [hk]
      · by_cases hk : k = h
        · subst hk; simp [how]
        · simp [hk]
      · by_cases hd : w.hasDtor p = true <;> simp [hd]
      · intro q
        simp [how, hres, eq_comm]

theorem Released.held (h : Released w a hs ps w') (b : Nat) : w'.held b = w.held b := by
  unfold World.held
  rw [h.actors]

theorem Released.trans {w₁ w₂ : World} {hs' ps' : List Nat} (h₁ : Released w a hs ps w₁)
    (h₂ : Released w₁ a hs' ps' w₂) :
    Released w a (hs ++ hs') (ps ++ ps') w₂ where
  actors := h₂.actors.trans h₁.actors
  nextHdr := h₂.nextHdr.trans h₁.nextHdr
  nextPid := h₂.nextPid.trans h₁.nextPid
  nextRes := h₂.nextRes.trans h₁.nextRes
  hasDtor := h₂.hasDtor.trans h₁.hasDtor
  vmFreed := h₂.vmFreed.trans h₁.vmFreed
  owner h := (h₂.owner h).trans (h₁.owner h)
  res h := by
    rw [h₂.res, h₁.owner, h₁.res]
    by_cases ho : (w.hdr h).ownerPid = a <;> by_cases hm : h ∈ hs <;> by_cases hm' : h ∈ hs' <;>
      simp [ho, hm, hm']
  freed := by rw [h₂.freed, h₁.freed, List.append_assoc]
  calls := by rw [h₂.calls, h₁.calls, h₁.hasDtor, List.append_assoc, List.filter_append]
  mem p := by
    rw [List.mem_append, h₁.mem, h₂.mem]
    constructor
    · rintro (⟨h, hm, ho, hr⟩ | ⟨h, hm, ho, hr⟩)
      · exact ⟨h, List.mem_append_left _ hm, ho, hr⟩
      · rw [h₁.res] at hr
        rw [h₁.owner] at ho
        split at hr
        · exact absurd hr (by simp)
        · exact ⟨h, List.mem_append_right _ hm, ho, hr⟩
    · rintro ⟨h, hm, ho, hr⟩
      by_cases hin : h ∈ hs
      · exact .inl ⟨h, hin, ho, hr⟩
      · refine .inr ⟨h, (List.mem_append.mp hm).resolve_left hin, (h₁.owner h).trans ho, ?_⟩
        rw [h₁.res, if_neg (by simp [hin]), hr]

/-- The payloads that go are those of the headers that name the actor, each
once if no two of the headers share one. -/
theorem released_releaseOwned (w : World) (a : Nat) (hs : List Nat) :
    ∃ ps, Released w a hs ps (w.releaseOwned a hs) ∧ (Apart w a hs → ps.Nodup) := by
  induction hs generalizing w with
  | nil =>
      refine ⟨[], ⟨rfl, rfl, rfl, rfl, rfl, rfl, fun _ => rfl, fun _ => by simp; rfl, ?_, ?_, ?_⟩, ?_⟩
      · simp [releaseOwned]
      · simp [releaseOwned]
      · simp
      · simp
  | cons h hs ih =>
      rw [releaseOwned_cons]
      by_cases how : (w.hdr h).ownerPid = a
      · rw [if_pos how]
        have h₁ := released_one how
        obtain ⟨ps, h₂, hnd⟩ := ih (w.taResourceRelease h)
        refine ⟨_, h₁.trans h₂, fun hap => ?_⟩
        have hap' : Apart (w.taResourceRelease h) a hs := by
          intro k hk k' hk' ho ho' p hp hp'
          rw [h₁.owner] at ho ho'
          rw [h₁.res] at hp hp'
          split at hp
          · exact absurd hp (by simp)
          split at hp'
          · exact absurd hp' (by simp)
          exact hap k (.tail _ hk) k' (.tail _ hk') ho ho' p hp hp'
        refine List.nodup_append.mpr ⟨by cases (w.hdr h).res <;> simp, hnd hap', ?_⟩
        rintro p hp q hq rfl
        -- a later header with this payload would be the one just cleared
        obtain ⟨k, hk, ho, hr⟩ := (h₂.mem p).mp hq
        rw [h₁.owner] at ho
        rw [h₁.res] at hr
        split at hr
        · exact absurd hr (by simp)
        · next hne =>
            have hp' : (w.hdr h).res = some p := by simpa using hp
            have := hap k (.tail _ hk) h (.head _) ho how p hr hp'
            exact hne ⟨by simp [this], ho⟩
      · rw [if_neg how]
        obtain ⟨ps, h₂, hnd⟩ := ih w
        refine ⟨ps, ⟨h₂.actors, h₂.nextHdr, h₂.nextPid, h₂.nextRes, h₂.hasDtor, h₂.vmFreed, h₂.owner,
          fun k => ?_, h₂.freed, h₂.calls, fun p => ?_⟩, fun hap => hnd ?_⟩
        · rw [h₂.res]
          by_cases hk : k = h
          · subst hk; simp [how]
          · simp [hk]
        · rw [h₂.mem]
          simp [how]
        · intro k hk k' hk'
          exact hap k (.tail _ hk) k' (.tail _ hk')

/-! ### The invariant -/

/-- The header lives with the actor it names and has the payload. -/
def Own (w : World) (h p : Nat) : Prop :=
  h ∈ w.held (w.hdr h).ownerPid ∧ (w.hdr h).res = some p

/-- Where headers live. -/
structure Shape (w : World) : Prop where
  /-- A header lives in one place. -/
  apart : ∀ {a b h : Nat}, h ∈ w.held a → h ∈ w.held b → a = b
  nodup : ∀ a, (w.held a).Nodup
  old : ∀ {a h : Nat}, h ∈ w.held a → h < w.nextHdr
  /-- What an actor's code can reach is in its heap. -/
  rooted : ∀ {a : Nat} {A : Actor}, w.actors a = some A → A.reach ⊆ A.heap
  pids : ∀ {a : Nat}, w.nextPid ≤ a → w.actors a = none
  ended : w.vmFreed = true → ∀ a, w.actors a = none

structure Inv (w : World) : Prop where
  shape : Shape w
  linear : Linear w.Own (· < w.nextRes) w.freed
  calls : w.dtorCalls = w.freed.filter w.hasDtor

theorem init_actors_ne (ha : a ≠ 0) : init.actors a = none := by
  simp [init, ha]

theorem inv_init : Inv init := by
  have hheld : ∀ a, init.held a = [] := by
    intro a
    by_cases ha : a = 0
    · subst ha; rfl
    · exact held_none (init_actors_ne ha)
  have hown : ∀ h p, ¬ init.Own h p := by simp [Own, hheld]
  refine ⟨⟨?_, ?_, ?_, ?_, ?_, ?_⟩, Linear.empty hown Nat.not_lt_zero, rfl⟩
  · intro a b h hm
    simp [hheld] at hm
  · intro a
    simp [hheld]
  · intro a h hm
    simp [hheld] at hm
  · intro a A hA
    by_cases ha : a = 0
    · subst ha
      obtain rfl := Option.some.inj hA
      simp [Actor.reach, Tree.headers]
    · rw [init_actors_ne ha] at hA
      exact absurd hA (by simp)
  · intro a ha
    have : 1 ≤ a := ha
    exact init_actors_ne (by omega)
  · intro h
    exact absurd h (by simp [init])

namespace Shape

variable {w : World}

theorem lt_nextPid (h : Shape w) (hA : w.actors a = some A) : a < w.nextPid := by
  by_contra hle
  rw [h.pids (Nat.not_lt.mp hle)] at hA
  exact absurd hA (by simp)

theorem running (h : Shape w) (hA : w.actors a = some A) : w.vmFreed = false := by
  by_contra hne
  rw [h.ended (by simpa using hne)] at hA
  exact absurd hA (by simp)

theorem reach_subset (h : Shape w) (hA : w.actors a = some A) : A.reach ⊆ w.held a := by
  intro x hx
  rw [held_some hA]
  exact List.mem_append_left _ (h.rooted hA hx)

/-- One actor changes, and what lives with it lived there before or is new. -/
theorem set {A : Option Actor} (h : Shape w) (hactors : w'.actors = Function.update w.actors a A)
    (hnext : w.nextHdr ≤ w'.nextHdr) (hpid : w.nextPid ≤ w'.nextPid)
    (hvm : w'.vmFreed = w.vmFreed) (hnd : (A.elim [] Actor.held).Nodup)
    (hA : ∀ x ∈ A.elim [] Actor.held, x ∈ w.held a ∨ w.nextHdr ≤ x ∧ x < w'.nextHdr)
    (hsome : ∀ B, A = some B → B.reach ⊆ B.heap ∧ a < w'.nextPid ∧ w.vmFreed = false) :
    Shape w' := by
  have hheld : w'.held a = A.elim [] Actor.held := by
    unfold held
    rw [hactors, Function.update_self]
  have hactne : ∀ {b}, b ≠ a → w'.actors b = w.actors b := fun hb => by
    rw [hactors, Function.update_of_ne hb]
  have hne : ∀ {b}, b ≠ a → w'.held b = w.held b := fun hb => by
    unfold held
    rw [hactne hb]
  have hclash : ∀ {b x}, b ≠ a → x ∈ w'.held a → x ∈ w'.held b → False := by
    intro b x hb hx hxb
    rw [hne hb] at hxb
    rw [hheld] at hx
    rcases hA x hx with hx | ⟨hx, -⟩
    · exact hb (h.apart hxb hx)
    · exact absurd (h.old hxb) (Nat.not_lt.mpr hx)
  refine ⟨?_, ?_, ?_, ?_, ?_, ?_⟩
  · intro b c x hb hc
    by_cases hba : b = a <;> by_cases hca : c = a
    · rw [hba, hca]
    · exact (hclash hca (hba ▸ hb) hc).elim
    · exact (hclash hba (hca ▸ hc) hb).elim
    · rw [hne hba] at hb
      rw [hne hca] at hc
      exact h.apart hb hc
  · intro b
    by_cases hb : b = a
    · rw [hb, hheld]
      exact hnd
    · rw [hne hb]
      exact h.nodup b
  · intro b x hx
    by_cases hb : b = a
    · rw [hb, hheld] at hx
      rcases hA x hx with hx | ⟨-, hx⟩
      · exact Nat.lt_of_lt_of_le (h.old hx) hnext
      · exact hx
    · rw [hne hb] at hx
      exact Nat.lt_of_lt_of_le (h.old hx) hnext
  · intro b B hB
    by_cases hb : b = a
    · rw [hb, hactors, Function.update_self] at hB
      exact (hsome B hB).1
    · exact h.rooted ((hactne hb).symm.trans hB)
  · intro b hb
    by_cases hba : b = a
    · rw [hba, hactors, Function.update_self]
      refine Option.eq_none_iff_forall_ne_some.mpr fun B hB => ?_
      have := (hsome B hB).2.1
      omega
    · rw [hactne hba]
      exact h.pids (Nat.le_trans hpid hb)
  · intro hv b
    rw [hvm] at hv
    by_cases hba : b = a
    · rw [hba, hactors, Function.update_self]
      refine Option.eq_none_iff_forall_ne_some.mpr fun B hB => ?_
      rw [(hsome B hB).2.2] at hv
      exact absurd hv (by simp)
    · rw [hactne hba]
      exact h.ended hv b

end Shape

theorem Released.shape (hr : Released w a hs ps w') (h : Shape w) : Shape w' := by
  refine ⟨?_, ?_, ?_, ?_, ?_, ?_⟩
  · intro b c x hb hc
    rw [hr.held] at hb hc
    exact h.apart hb hc
  · intro b
    rw [hr.held]
    exact h.nodup b
  · intro b x hx
    rw [hr.held] at hx
    rw [hr.nextHdr]
    exact h.old hx
  · intro b B hB
    rw [hr.actors] at hB
    exact h.rooted hB
  · intro b hb
    rw [hr.nextPid] at hb
    rw [hr.actors]
    exact h.pids hb
  · intro hv b
    rw [hr.vmFreed] at hv
    rw [hr.actors]
    exact h.ended hv b

namespace Inv

variable {w : World}

theorem distinct (h : Inv w) (hsub : hs ⊆ w.held a) : Apart w a hs := by
  intro x hx y hy hox hoy p hp hp'
  exact h.linear.unique (p := p) ⟨hox ▸ hsub hx, hp⟩ ⟨hoy ▸ hsub hy, hp'⟩

/-- Releasing through headers that live with an actor. -/
theorem release (h : Inv w) (hsub : hs ⊆ w.held a) : Inv (w.releaseOwned a hs) := by
  obtain ⟨ps, hr, hnd⟩ := w.released_releaseOwned a hs
  have hheld : ∀ b, (w.releaseOwned a hs).held b = w.held b := fun b => hr.held b
  have hown : ∀ x p, (w.releaseOwned a hs).Own x p ↔ w.Own x p ∧ p ∉ ps := by
    intro x p
    unfold Own
    rw [hr.owner, hheld, hr.res, hr.mem]
    constructor
    · rintro ⟨hx, hp⟩
      split at hp
      · exact absurd hp (by simp)
      next hne =>
        refine ⟨⟨hx, hp⟩, ?_⟩
        rintro ⟨y, hy, hoy, hpy⟩
        have : x = y := h.linear.unique (p := p) ⟨hx, hp⟩ ⟨hoy ▸ hsub hy, hpy⟩
        exact hne ⟨this ▸ hy, this ▸ hoy⟩
    · rintro ⟨⟨hx, hp⟩, hnot⟩
      refine ⟨hx, ?_⟩
      rw [if_neg (fun hc => hnot ⟨x, hc.1, hc.2, hp⟩)]
      exact hp
  have hps : ∀ p ∈ ps, ∃ x, w.Own x p := by
    intro p hp
    obtain ⟨x, hx, hox, hpx⟩ := (hr.mem p).mp hp
    exact ⟨x, hox ▸ hsub hx, hpx⟩
  refine ⟨hr.shape h.shape, ?_, ?_⟩
  · rw [hr.nextRes, hr.freed]
    exact h.linear.release (hnd (h.distinct hsub)) hps hown
  · rw [hr.calls, hr.freed, hr.hasDtor, List.filter_append, h.calls]

/-- An actor lets go of headers, none of which holds a payload. -/
theorem drop (h : Inv w) {A : Option Actor} (hsub : (A.elim [] Actor.held).Sublist (w.held a))
    (hsome : ∀ B, A = some B → B.reach ⊆ B.heap ∧ (w.actors a).isSome)
    (hkeep : ∀ x ∈ w.held a, x ∉ A.elim [] Actor.held → (w.hdr x).ownerPid = a → (w.hdr x).res = none) :
    Inv (w.setActor a A) := by
  have hown : ∀ x p, (w.setActor a A).Own x p ↔ w.Own x p := by
    intro x p
    show x ∈ (w.setActor a A).held (w.hdr x).ownerPid ∧ (w.hdr x).res = some p ↔ w.Own x p
    unfold Own
    by_cases hb : (w.hdr x).ownerPid = a
    · rw [hb, held_setActor]
      refine ⟨fun hx => ⟨hsub.subset hx.1, hx.2⟩, fun hx => ⟨?_, hx.2⟩⟩
      by_contra hnot
      have := hkeep x hx.1 hnot hb
      rw [hx.2] at this
      exact absurd this (by simp)
    · rw [held_setActor_ne w A hb]
  refine ⟨h.shape.set rfl (Nat.le_refl _) (Nat.le_refl _) rfl ((h.shape.nodup a).sublist hsub)
    (fun x hx => .inl (hsub.subset hx)) fun B hB => ?_, h.linear.congr hown, h.calls⟩
  obtain ⟨hroot, hin⟩ := hsome B hB
  obtain ⟨C, hC⟩ := Option.isSome_iff_exists.mp hin
  exact ⟨hroot, h.shape.lt_nextPid hC, h.shape.running hC⟩

end Inv

/-- What a death releases through is what lives with the actor. -/
theorem procDie_eq (hA : w.actors a = some A) :
    ∃ hs, (∀ x, x ∈ hs ↔ x ∈ w.held a) ∧ w.procDie a = (w.releaseOwned a hs).setActor a none := by
  refine ⟨A.mbox.frags.flatMap Tree.headers ++ A.heap, fun x => ?_, ?_⟩
  · rw [held_some hA, Actor.held, List.mem_append, List.mem_append, or_comm]
  · unfold procDie
    rw [hA]
    dsimp only
    rw [releaseOwned_append]
    congr 2
    unfold releaseOwned
    rw [List.foldl_flatMap]

theorem procDie_none (hA : w.actors a = none) : w.procDie a = w := by
  unfold procDie
  rw [hA]

theorem Inv.die (h : Inv w) (a : Nat) : Inv (w.procDie a) := by
  cases hA : w.actors a with
  | none => rwa [procDie_none hA]
  | some A =>
      obtain ⟨hs, hmem, heq⟩ := procDie_eq hA
      obtain ⟨ps, hr, -⟩ := w.released_releaseOwned a hs
      rw [heq]
      refine (h.release fun x hx => (hmem x).mp hx).drop (List.nil_sublist _)
        (fun B hB => absurd hB (by simp)) ?_
      intro x hx _ hox
      rw [hr.held] at hx
      rw [hr.owner] at hox
      rw [hr.res, if_pos ⟨(hmem x).mpr hx, hox⟩]

/-! ### Changing hands -/

theorem mem_newHeaders {x : Nat} :
    x ∈ w.newHeaders hs ↔ w.nextHdr ≤ x ∧ x < w.nextHdr + hs.length := by
  unfold newHeaders
  rw [List.mem_range'_1]

theorem hdr_copyHeaders_old {x : Nat} (hx : x < w.nextHdr) :
    (w.copyHeaders hs).hdr x = w.hdr x := if_neg (Nat.not_le.mpr hx)

theorem hdr_copyHeaders_new {i : Nat} (hi : i < hs.length) :
    (w.copyHeaders hs).hdr (w.nextHdr + i) = w.hdr hs[i] := by
  unfold copyHeaders
  dsimp only
  rw [if_pos (Nat.le_add_right _ _), Nat.add_sub_cancel_left, List.getD_eq_getElem?_getD,
    List.getElem?_eq_getElem hi]
  rfl

theorem hdr_handOver_old {x : Nat} (hx : x < w.nextHdr) :
    (w.handOver hs b).hdr x = if x ∈ hs then { w.hdr x with ownerPid := b } else w.hdr x := by
  have hnew : x ∉ w.newHeaders hs := fun h => absurd (mem_newHeaders.mp h).1 (Nat.not_le.mpr hx)
  simp only [handOver, setOwner, if_neg hnew, hdr_copyHeaders_old hx]

theorem hdr_handOver_new {i : Nat} (hi : i < hs.length) (hold : ∀ x ∈ hs, x < w.nextHdr) :
    (w.handOver hs b).hdr (w.nextHdr + i) = { ownerPid := b, res := (w.hdr hs[i]).res } := by
  have hnew : w.nextHdr + i ∈ w.newHeaders hs := mem_newHeaders.mpr ⟨by omega, by omega⟩
  have hnot : w.nextHdr + i ∉ hs := fun h => by have := hold _ h; omega
  simp only [handOver, setOwner, if_pos hnew, if_neg hnot, hdr_copyHeaders_new hi]

/-- Where a copied header's payload goes. -/
def moved (w : World) (hs : List Nat) (x : Nat) : Nat :=
  if x ∈ hs then w.nextHdr + hs.idxOf x else x

/-- No payload comes twice. -/
def Single (w : World) (hs : List Nat) : Prop :=
  hs.Pairwise fun x y => (w.hdr x).res ≠ none → (w.hdr x).res ≠ (w.hdr y).res

theorem Single.idxOf (h : Single w hs) {i p : Nat} (hi : i < hs.length)
    (hp : (w.hdr hs[i]).res = some p) : hs.idxOf hs[i] = i := by
  have hlt : hs.idxOf hs[i] < hs.length := List.idxOf_lt_length_iff.mpr (List.getElem_mem hi)
  have hget : hs[hs.idxOf hs[i]] = hs[i] := List.getElem_idxOf hlt
  rcases Nat.lt_trichotomy (hs.idxOf hs[i]) i with hc | hc | hc
  · have := List.pairwise_iff_getElem.mp h _ _ hlt hi hc
    rw [hget] at this
    exact absurd rfl (this (by simp [hp]))
  · exact hc
  · have := List.pairwise_iff_getElem.mp h _ _ hi hlt hc
    rw [hget] at this
    exact absurd rfl (this (by simp [hp]))

/-- **A hand-over.**  The copies live with the receiver and name it; the old
headers live with the sender and name the receiver, so they no longer count. -/
theorem Inv.transfer (h : Inv w) {T : Actor} (hab : a ≠ b) (hheld : hs ⊆ w.held a)
    (hown : ∀ x ∈ hs, (w.hdr x).ownerPid = a) (hsingle : Single w hs)
    (hT : T.held = w.held b ++ w.newHeaders hs) (hroot : T.reach ⊆ T.heap) (hb : b < w.nextPid)
    (hrun : w.vmFreed = false) : Inv ((w.handOver hs b).setActor b (some T)) := by
  have hold : ∀ x ∈ hs, x < w.nextHdr := fun x hx => h.shape.old (hheld hx)
  have hmem : ∀ {c x}, x ∈ ((w.handOver hs b).setActor b (some T)).held c ↔
      x ∈ w.held c ∨ c = b ∧ x ∈ w.newHeaders hs := by
    intro c x
    by_cases hc : c = b
    · subst hc
      rw [held_setActor, show (some T).elim [] Actor.held = T.held from rfl, hT, List.mem_append]
      simp
    · rw [held_setActor_ne _ _ hc]
      simp [hc]
      rfl
  have hdisj : ∀ {c x}, x ∈ w.held c → x ∉ w.newHeaders hs := fun hx hn =>
    absurd (h.shape.old hx) (Nat.not_lt.mpr (mem_newHeaders.mp hn).1)
  refine ⟨h.shape.set rfl (Nat.le_add_right _ _) (Nat.le_refl _) rfl ?_ ?_ ?_, ?_, h.calls⟩
  · show T.held.Nodup
    rw [hT]
    refine List.nodup_append.mpr ⟨h.shape.nodup b, List.nodup_range', ?_⟩
    rintro x hx y hy rfl
    exact hdisj hx hy
  · intro x hx
    rw [show (some T).elim [] Actor.held = T.held from rfl, hT] at hx
    rcases List.mem_append.mp hx with hx | hx
    · exact .inl hx
    · exact .inr (mem_newHeaders.mp hx)
  · intro B hB
    obtain rfl := Option.some.inj hB
    exact ⟨hroot, hb, hrun⟩
  refine h.linear.move (w.moved hs) ?_ ?_
  · rintro x p ⟨hx, hp⟩
    unfold moved Own
    rw [hmem, show ((w.handOver hs b).setActor b (some T)).hdr = (w.handOver hs b).hdr from rfl]
    split
    · next hin =>
        have hi : hs.idxOf x < hs.length := List.idxOf_lt_length_iff.mpr hin
        rw [hdr_handOver_new hi hold]
        exact ⟨.inr ⟨rfl, mem_newHeaders.mpr ⟨by omega, by omega⟩⟩,
          by rw [List.getElem_idxOf hi]; exact hp⟩
    · next hout =>
        rw [hdr_handOver_old (h.shape.old hx), if_neg hout]
        exact ⟨.inl hx, hp⟩
  · rintro x p ⟨hx, hp⟩
    rw [show ((w.handOver hs b).setActor b (some T)).hdr = (w.handOver hs b).hdr from rfl] at hx hp
    rcases hmem.mp hx with hx | ⟨-, hx⟩
    · have hlt := h.shape.old hx
      rw [hdr_handOver_old hlt] at hx hp
      by_cases hin : x ∈ hs
      · -- an old header names the receiver, and does not live there
        rw [if_pos hin] at hx
        exact absurd (h.shape.apart (hheld hin) hx) hab
      · rw [if_neg hin] at hx hp
        exact ⟨x, ⟨hx, hp⟩, if_neg hin⟩
    · obtain ⟨hge, hlt⟩ := mem_newHeaders.mp hx
      obtain ⟨i, rfl⟩ := Nat.exists_eq_add_of_le hge
      have hi : i < hs.length := by omega
      rw [hdr_handOver_new hi hold] at hp
      have hin : hs[i] ∈ hs := List.getElem_mem hi
      refine ⟨hs[i], ⟨by rw [hown _ hin]; exact hheld hin, hp⟩, ?_⟩
      unfold moved
      rw [if_pos hin, hsingle.idxOf hi hp]

/-- **A receive.**  The copies live in the heap in place of the fragment's
headers. -/
theorem Inv.rehome (h : Inv w) (hin : (w.actors a).isSome) (hheld : hs ⊆ w.held a)
    (hnd : hs.Nodup) (hA : ∀ x, x ∈ A.held ↔ x ∈ w.held a ∧ x ∉ hs ∨ x ∈ w.newHeaders hs)
    (hAnd : A.held.Nodup) (hroot : A.reach ⊆ A.heap) :
    Inv ((w.copyHeaders hs).setActor a (some A)) := by
  obtain ⟨B, hB⟩ := Option.isSome_iff_exists.mp hin
  have hmem : ∀ {c x}, x ∈ ((w.copyHeaders hs).setActor a (some A)).held c ↔
      x ∈ w.held c ∧ (c = a → x ∉ hs) ∨ c = a ∧ x ∈ w.newHeaders hs := by
    intro c x
    by_cases hc : c = a
    · subst hc
      rw [held_setActor, show (some A).elim [] Actor.held = A.held from rfl, hA]
      simp
    · rw [held_setActor_ne _ _ hc]
      simp [hc]
      rfl
  refine ⟨h.shape.set rfl (Nat.le_add_right _ _) (Nat.le_refl _) rfl hAnd ?_ ?_, ?_, h.calls⟩
  · intro x hx
    rcases (hA x).mp hx with ⟨hx, -⟩ | hx
    · exact .inl hx
    · exact .inr (mem_newHeaders.mp hx)
  · intro C hC
    obtain rfl := Option.some.inj hC
    exact ⟨hroot, h.shape.lt_nextPid hB, h.shape.running hB⟩
  refine h.linear.move (w.moved hs) ?_ ?_
  · rintro x p ⟨hx, hp⟩
    unfold moved Own
    rw [hmem, show ((w.copyHeaders hs).setActor a (some A)).hdr = (w.copyHeaders hs).hdr from rfl]
    split
    · next hxs =>
        have hi : hs.idxOf x < hs.length := List.idxOf_lt_length_iff.mpr hxs
        rw [hdr_copyHeaders_new hi, List.getElem_idxOf hi]
        exact ⟨.inr ⟨h.shape.apart hx (hheld hxs), mem_newHeaders.mpr ⟨by omega, by omega⟩⟩, hp⟩
    · next hout =>
        rw [hdr_copyHeaders_old (h.shape.old hx)]
        exact ⟨.inl ⟨hx, fun _ => hout⟩, hp⟩
  · rintro x p ⟨hx, hp⟩
    rw [show ((w.copyHeaders hs).setActor a (some A)).hdr = (w.copyHeaders hs).hdr from rfl] at hx hp
    rcases hmem.mp hx with ⟨hx, hout⟩ | ⟨how, hx⟩
    · have hlt := h.shape.old hx
      rw [hdr_copyHeaders_old hlt] at hx hp hout
      refine ⟨x, ⟨hx, hp⟩, if_neg fun hxs => ?_⟩
      exact hout (h.shape.apart hx (hheld hxs)) hxs
    · obtain ⟨hge, hlt⟩ := mem_newHeaders.mp hx
      obtain ⟨i, rfl⟩ := Nat.exists_eq_add_of_le hge
      have hi : i < hs.length := by omega
      rw [hdr_copyHeaders_new hi] at hp how
      have hxs : hs[i] ∈ hs := List.getElem_mem hi
      refine ⟨hs[i], ⟨by rw [how]; exact hheld hxs, hp⟩, ?_⟩
      unfold moved
      rw [if_pos hxs, hnd.idxOf_getElem i hi]

/-- A refused spawn leaves the child copies that name the parent. -/
theorem Inv.halfCopy (h : Inv w) {c : Nat} {C : Actor} (hc : w.actors c = none)
    (hlt : c < w.nextPid) (hrun : w.vmFreed = false) (hac : a ≠ c)
    (hown : ∀ x ∈ hs, (w.hdr x).ownerPid = a) (hC : C.held = w.newHeaders hs)
    (hroot : C.reach ⊆ C.heap) : Inv ((w.copyHeaders hs).setActor c (some C)) := by
  have hmem : ∀ {b x}, x ∈ ((w.copyHeaders hs).setActor c (some C)).held b ↔
      x ∈ w.held b ∨ b = c ∧ x ∈ w.newHeaders hs := by
    intro b x
    by_cases hb : b = c
    · subst hb
      rw [held_setActor, show (some C).elim [] Actor.held = C.held from rfl, hC, held_none hc]
      simp
    · rw [held_setActor_ne _ _ hb]
      simp [hb]
      rfl
  refine ⟨h.shape.set rfl (Nat.le_add_right _ _) (Nat.le_refl _) rfl ?_ ?_ ?_, ?_, h.calls⟩
  · show C.held.Nodup
    rw [hC]
    exact List.nodup_range'
  · intro x hx
    exact .inr (mem_newHeaders.mp (hC ▸ hx))
  · intro B hB
    obtain rfl := Option.some.inj hB
    exact ⟨hroot, hlt, hrun⟩
  refine h.linear.congr fun x p => ?_
  unfold Own
  rw [hmem, show ((w.copyHeaders hs).setActor c (some C)).hdr = (w.copyHeaders hs).hdr from rfl]
  rcases Nat.lt_or_ge x w.nextHdr with hx | hx
  · have hnew : x ∉ w.newHeaders hs := fun hm => absurd (mem_newHeaders.mp hm).1 (Nat.not_le.mpr hx)
    rw [hdr_copyHeaders_old hx]
    simp [hnew]
  · have hnot : ∀ {b}, x ∉ w.held b := fun hm => absurd (h.shape.old hm) (Nat.not_lt.mpr hx)
    refine ⟨fun ⟨hm, hp⟩ => ?_, fun ⟨hm, _⟩ => absurd hm hnot⟩
    rcases hm with hm | ⟨how, hm⟩
    · exact absurd hm hnot
    · -- a new header names the parent
      obtain ⟨i, rfl⟩ := Nat.exists_eq_add_of_le hx
      have hi : i < hs.length := by have := (mem_newHeaders.mp hm).2; omega
      rw [hdr_copyHeaders_new hi, hown _ (List.getElem_mem hi)] at how
      exact absurd how hac

theorem Inv.create (h : Inv w) (hA : w.actors a = some A) (dtor : Bool) :
    Inv (w.taResourceNew a A dtor) := by
  have hfresh : ∀ {b}, w.nextHdr ∉ w.held b := fun hm => absurd (h.shape.old hm) (Nat.lt_irrefl _)
  have hmem : ∀ {b x}, x ∈ (w.taResourceNew a A dtor).held b ↔
      x ∈ w.held b ∨ b = a ∧ x = w.nextHdr := by
    intro b x
    by_cases hb : b = a
    · subst hb
      unfold held taResourceNew
      dsimp only
      rw [Function.update_self, hA]
      simp [Actor.held, or_comm, or_left_comm]
    · unfold held taResourceNew
      dsimp only
      rw [Function.update_of_ne hb]
      simp [hb]
  have hAnd := h.shape.nodup a
  have hfreshA : w.nextHdr ∉ A.held := by
    rw [← held_some hA]
    exact hfresh
  rw [held_some hA] at hAnd
  refine ⟨h.shape.set rfl (Nat.le_succ _) (Nat.le_refl _) rfl ?_ ?_ ?_, ?_, ?_⟩
  · show ((A.heap ++ [w.nextHdr]) ++ A.mbox.frags.flatMap Tree.headers).Nodup
    have hperm : ((A.heap ++ [w.nextHdr]) ++ A.mbox.frags.flatMap Tree.headers).Perm
        (w.nextHdr :: A.held) := by
      rw [List.append_assoc]
      exact List.perm_middle
    exact hperm.nodup_iff.mpr (List.nodup_cons.mpr ⟨hfreshA, hAnd⟩)
  · intro x hx
    have hx' : x ∈ (w.taResourceNew a A dtor).held a := by
      unfold held taResourceNew
      dsimp only
      rw [Function.update_self]
      exact hx
    rcases hmem.mp hx' with hx | ⟨-, rfl⟩
    · exact .inl hx
    · exact .inr ⟨Nat.le_refl _, Nat.lt_succ_self _⟩
  · intro B hB
    obtain rfl := Option.some.inj hB
    refine ⟨?_, h.shape.lt_nextPid hA, h.shape.running hA⟩
    intro x hx
    rcases List.mem_append.mp (show x ∈ [w.nextHdr] ++ A.reach from hx) with hx | hx
    · exact List.mem_append_right _ hx
    · exact List.mem_append_left _ (h.shape.rooted hA hx)
  · refine h.linear.birth w.nextHdr (Nat.lt_irrefl w.nextRes) ?_ ?_
    · intro x p
      unfold Own
      rw [hmem]
      by_cases hx : x = w.nextHdr
      · subst hx
        rw [show (w.taResourceNew a A dtor).hdr w.nextHdr = ⟨a, some w.nextRes⟩ from
          Function.update_self ..]
        simp [hfresh, eq_comm]
      · rw [show (w.taResourceNew a A dtor).hdr x = w.hdr x from Function.update_of_ne hx ..]
        simp [hx]
    · intro p
      show p < w.nextRes + 1 ↔ p < w.nextRes ∨ p = w.nextRes
      omega
  · show w.dtorCalls = w.freed.filter (Function.update w.hasDtor w.nextRes dtor)
    rw [h.calls]
    refine List.filter_congr fun p hp => ?_
    have : p ≠ w.nextRes := Nat.ne_of_lt (h.linear.past hp)
    rw [Function.update_of_ne this]

/-! ### The check before a hand-over -/

theorem checkHeaders_spec (w : World) (s : Nat) (hs : List Nat) {seen : List Nat}
    (hown : ∀ x ∈ seen, (w.hdr x).ownerPid = s) (hsingle : Single w seen) :
    (∀ x ∈ (w.checkHeaders s seen hs).1, (w.hdr x).ownerPid = s) ∧
      Single w (w.checkHeaders s seen hs).1 ∧
      ((w.checkHeaders s seen hs).2 = true → (w.checkHeaders s seen hs).1 = seen ++ hs) := by
  induction hs generalizing seen with
  | nil => exact ⟨hown, hsingle, fun _ => by simp [checkHeaders]⟩
  | cons h hs ih =>
      unfold checkHeaders
      split
      · exact ⟨hown, hsingle, fun hf => absurd hf (by simp)⟩
      next ho =>
        split
        · exact ⟨hown, hsingle, fun hf => absurd hf (by simp)⟩
        next hdup =>
          have hown' : ∀ x ∈ seen ++ [h], (w.hdr x).ownerPid = s := by
            intro x hx
            rcases List.mem_append.mp hx with hx | hx
            · exact hown x hx
            · rw [List.mem_singleton.mp hx]
              exact not_not.mp ho
          have hsingle' : Single w (seen ++ [h]) := by
            refine List.pairwise_append.mpr ⟨hsingle, List.pairwise_singleton _ _, ?_⟩
            intro x hx y hy hne heq
            rw [List.mem_singleton.mp hy] at heq
            exact hdup (List.any_eq_true.mpr ⟨x, hx, decide_eq_true ⟨hne, heq⟩⟩)
          obtain ⟨h₁, h₂, h₃⟩ := ih hown' hsingle'
          exact ⟨h₁, h₂, fun hok => by rw [h₃ hok]; simp⟩

end World

end TinyActor.Runtime.Resource
