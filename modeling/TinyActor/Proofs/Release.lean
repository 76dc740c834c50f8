/-
Every resource is released once, whatever its owners do.

`Proofs/Resource.lean` says what a release, a copy and a hand-over do to the
headers that count.  Here each operation of the machine is one of those, the
invariant is carried along every run, and the four things that are wanted are
read off it: one owner per payload, one destructor call, no release under an
owner that can still reach the header, and nothing left when the machine is freed.
-/
import Mathlib.Data.List.Flatten
import TinyActor.Proofs.Resource

namespace TinyActor.Runtime.Resource.World

open TinyActor.Lib

/-! ### One lemma per operation -/

variable {w w' : World} {A : Actor} {b a i x p : Nat}

theorem Inv.deliver (h : Inv w) {s : Option Nat} {msg : Tree}
    (hreach : ∀ a, s = some a → msg.headers ⊆ w.held a) (hd : w.mboxDeliver s b msg = some w') :
    Inv w' := by
  unfold mboxDeliver at hd
  split at hd
  · exact absurd hd (by simp)
  next hok =>
    split at hd
    · obtain rfl := Option.some.inj hd
      exact h
    next T hT =>
      obtain rfl := Option.some.inj hd
      have hheld : ({ T with mbox := T.mbox.push (msg.relabel w.nextHdr) } : Actor).held =
          w.held b ++ w.newHeaders msg.headers := by
        rw [held_some hT]
        simp [Actor.held, Tree.headers_relabel, newHeaders]
      have hroot := h.shape.rooted hT
      have hb := h.shape.lt_nextPid hT
      have hrun := h.shape.running hT
      by_cases hnil : msg.headers = []
      · -- nothing changes hands: any other actor will do as the sender
        rw [hnil] at hheld ⊢
        exact h.transfer (Nat.succ_ne_self b) (List.nil_subset _) (by simp) List.Pairwise.nil hheld
          hroot hb hrun
      · have hcheck : w.resourceSendCheck msg.headers s b = true := by
          by_contra hne
          exact hok ⟨hnil, by simpa using hne⟩
        cases s with
        | none => exact absurd hcheck (by simp [resourceSendCheck])
        | some a =>
            simp only [resourceSendCheck, Bool.and_eq_true, decide_eq_true_eq] at hcheck
            obtain ⟨hown, hsingle, hall⟩ :=
              w.checkHeaders_spec a msg.headers (by simp) List.Pairwise.nil
            rw [hall hcheck.2, List.nil_append] at hown hsingle
            exact h.transfer hcheck.1 (hreach a rfl) hown hsingle hheld hroot hb hrun

/-- What a value among an actor's roots reaches lives with the actor. -/
theorem Inv.root_held (h : Inv w) {t : Tree} (hA : w.actors a = some A)
    (ht : A.roots[i]? = some t) : t.headers ⊆ w.held a := by
  intro x hx
  exact h.shape.reach_subset hA (List.mem_flatMap.mpr ⟨t, List.mem_of_getElem? ht, hx⟩)

theorem Inv.send (h : Inv w) (hA : w.actors a = some A) (hs : w.send a A i b = some w') :
    Inv w' := by
  obtain ⟨msg, hmsg, rfl⟩ := Option.map_eq_some_iff.mp hs
  split
  · exact h
  · cases hd : w.mboxDeliver (some a) b msg with
    | none => exact h.die a
    | some w' =>
        refine h.deliver (fun c hc => ?_) hd
        obtain rfl := Option.some.inj hc
        exact h.root_held hA hmsg

theorem Inv.takePid (h : Inv w) : Inv w.takePid :=
  ⟨⟨h.shape.apart, h.shape.nodup, h.shape.old, h.shape.rooted,
    fun hle => h.shape.pids (Nat.le_of_succ_le hle), h.shape.ended⟩, h.linear, h.calls⟩

theorem Inv.spawn (h : Inv w) (hA : w.actors a = some A) (hs : w.spawn a A i = some w') :
    Inv w' := by
  obtain ⟨clos, hclos, rfl⟩ := Option.map_eq_some_iff.mp hs
  have hget : A.roots[i]? = some clos := (Option.filter_eq_some_iff.mp hclos).1
  have hn := h.takePid
  have hfresh : w.takePid.actors w.nextPid = none := h.shape.pids (Nat.le_refl _)
  have hne : a ≠ w.nextPid := Nat.ne_of_lt (h.shape.lt_nextPid hA)
  have hrun := h.shape.running hA
  obtain ⟨hown, hsingle, hall⟩ := w.takePid.checkHeaders_spec a clos.headers
    (by simp) List.Pairwise.nil
  dsimp only
  split
  · next hok =>
      rw [hall hok, List.nil_append] at hown hsingle
      refine hn.transfer hne (h.root_held hA hget) hown hsingle ?_ ?_ (Nat.lt_succ_self _) hrun
      · rw [held_none hfresh]
        simp [Actor.held, Mailbox.empty]
      · simp [Actor.reach, Tree.headers_relabel, newHeaders]
  · exact ((hn.halfCopy hfresh (Nat.lt_succ_self _) hrun hne hown
      (by simp [Actor.held, Mailbox.empty]) (by simp [Actor.reach])).die _).die a

theorem Inv.recv (h : Inv w) (hA : w.actors a = some A) (hr : w.recv a A = some w') : Inv w' := by
  obtain ⟨⟨frag, mbox⟩, hpop, rfl⟩ := Option.map_eq_some_iff.mp hr
  have hfr := Mailbox.pop_eq_some hpop
  have hheld : w.held a = A.heap ++ (frag.headers ++ mbox.frags.flatMap Tree.headers) := by
    rw [held_some hA, Actor.held, hfr, List.flatMap_cons]
  have hnd := h.shape.nodup a
  have hnew : ∀ {x}, x ∈ w.held a → x ∉ w.newHeaders frag.headers := fun hx hn =>
    absurd (h.shape.old hx) (Nat.not_lt.mpr (mem_newHeaders.mp hn).1)
  rw [hheld] at hnd hnew
  obtain ⟨hnh, hnfm, hdisj⟩ := List.nodup_append.mp hnd
  obtain ⟨hnf, hnm, hdisj'⟩ := List.nodup_append.mp hnfm
  refine h.rehome (by simp [hA]) ?_ hnf ?_ ?_ ?_
  · rw [hheld]
    intro x hx
    simp [hx]
  · intro x
    rw [hheld]
    show x ∈ (A.heap ++ w.newHeaders frag.headers) ++ mbox.frags.flatMap Tree.headers ↔ _
    have h₁ : x ∈ A.heap → x ∉ frag.headers := fun hx hf => hdisj x hx x (by simp [hf]) rfl
    have h₂ : x ∈ mbox.frags.flatMap Tree.headers → x ∉ frag.headers :=
      fun hx hf => hdisj' x hf x hx rfl
    simp only [List.mem_append]
    tauto
  · show ((A.heap ++ w.newHeaders frag.headers) ++ mbox.frags.flatMap Tree.headers).Nodup
    have hperm : ((A.heap ++ w.newHeaders frag.headers) ++ mbox.frags.flatMap Tree.headers).Perm
        (w.newHeaders frag.headers ++ (A.heap ++ mbox.frags.flatMap Tree.headers)) := by
      rw [← List.append_assoc]
      exact List.perm_append_comm.append_right _
    refine hperm.nodup_iff.mpr (List.nodup_append.mpr ⟨List.nodup_range', ?_, ?_⟩)
    · exact List.nodup_append.mpr ⟨hnh, hnm, fun x hx y hy => hdisj x hx y (by simp [hy])⟩
    · rintro x hx y hy rfl
      refine hnew ?_ hx
      rcases List.mem_append.mp hy with hy | hy <;> simp [hy]
  · intro x hx
    rcases List.mem_append.mp (show x ∈ (frag.relabel w.nextHdr).headers ++ A.reach from hx)
      with hx | hx
    · rw [Tree.headers_relabel] at hx
      exact List.mem_append_right _ hx
    · exact List.mem_append_left _ (h.shape.rooted hA hx)

/-- A change of an actor that keeps its headers where they are. -/
theorem Inv.keep (h : Inv w) {B : Actor} (hA : w.actors a = some A) (hheld : B.held = A.held)
    (hroot : B.reach ⊆ B.heap) : Inv (w.setActor a (some B)) := by
  have heq : (some B).elim [] Actor.held = w.held a := by
    rw [held_some hA, ← hheld]
    rfl
  refine h.drop (by rw [heq]) (fun C hC => ?_) ?_
  · obtain rfl := Option.some.inj hC
    exact ⟨hroot, by simp [hA]⟩
  · intro x hx hnot
    exact absurd (heq ▸ hx) hnot

theorem Inv.recvPeek (h : Inv w) (hA : w.actors a = some A) (hp : w.recvPeek a A = some w') :
    Inv w' := by
  unfold World.recvPeek at hp
  split at hp
  · obtain ⟨frag, -, rfl⟩ := Option.map_eq_some_iff.mp hp
    split
    · exact h.die a
    · next hnil =>
        refine h.keep hA rfl ?_
        intro x hx
        rcases List.mem_append.mp (show x ∈ frag.headers ++ A.reach from hx) with hx | hx
        · rw [not_not.mp hnil] at hx
          exact absurd hx List.not_mem_nil
        · exact h.shape.rooted hA hx
  · exact absurd hp (by simp)

theorem Inv.collect (h : Inv w) (hA : w.actors a = some A) : Inv (w.collect a A) := by
  have hheap : A.heap ⊆ w.held a := by
    rw [held_some hA]
    exact List.subset_append_left _ _
  obtain ⟨ps, hr, -⟩ := w.released_releaseOwned a (A.heap.filter fun x => x ∉ A.reach)
  have hinv := h.release fun x (hx : x ∈ A.heap.filter fun x => x ∉ A.reach) =>
    hheap (List.mem_filter.mp hx).1
  refine hinv.drop ?_ (fun B hB => ?_) ?_
  · rw [hr.held, held_some hA]
    exact List.filter_sublist.append (List.Sublist.refl _)
  · obtain rfl := Option.some.inj hB
    refine ⟨fun x hx => ?_, by rw [hr.actors, hA]; rfl⟩
    exact List.mem_filter.mpr ⟨h.shape.rooted hA hx, decide_eq_true hx⟩
  · intro x hx hnot hox
    rw [hr.held, held_some hA] at hx
    rw [hr.owner] at hox
    -- what was dropped was swept
    have hgone : x ∈ A.heap.filter fun x => x ∉ A.reach := by
      rcases List.mem_append.mp hx with hx | hx
      · refine List.mem_filter.mpr ⟨hx, decide_eq_true fun hin => hnot ?_⟩
        exact List.mem_append_left _ (List.mem_filter.mpr ⟨hx, decide_eq_true hin⟩)
      · exact absurd (List.mem_append_right _ hx) hnot
    rw [hr.res, if_pos ⟨hgone, hox⟩]

theorem close_eq (w : World) (a h : Nat) : w.close a h = w.releaseOwned a [h] := by
  unfold close releaseOwned
  simp only [List.foldl_cons, List.foldl_nil, ne_eq, ite_not]

/-! ### The fragment a commit frees -/

/-- The commit frees no fragment that carries a payload. -/
def LosesNothing (w : World) : Event → Prop
  | .recvCommit a => ∀ A ∈ w.actors a, ∀ frag ∈ A.mbox.frags[commitTarget A.peekIndex]?,
      ∀ x ∈ frag.headers, (w.hdr x).res = none
  | _ => True

instance (w : World) (e : Event) : Decidable (w.LosesNothing e) := by
  cases e <;> unfold LosesNothing <;> infer_instance

theorem Inv.recvCommit (h : Inv w) (hA : w.actors a = some A)
    (hl : w.LosesNothing (.recvCommit a)) (hc : w.recvCommit a A = some w') : Inv w' := by
  obtain ⟨⟨frag, mbox⟩, hun, rfl⟩ := Option.map_eq_some_iff.mp hc
  obtain ⟨hget, hfr⟩ := Mailbox.unlink_eq_some hun
  obtain ⟨hi, hfrag⟩ := List.getElem?_eq_some_iff.mp hget
  refine h.drop ?_ (fun B hB => ?_) ?_
  · rw [held_some hA]
    show (A.heap ++ mbox.frags.flatMap Tree.headers).Sublist _
    rw [hfr]
    exact (List.Sublist.refl _).append ((List.eraseIdx_sublist ..).flatMap _)
  · obtain rfl := Option.some.inj hB
    have hroot : A.reach ⊆ A.heap := h.shape.rooted hA
    exact ⟨hroot, by simp [hA]⟩
  · intro x hx hnot _
    refine hl A hA frag hget x ?_
    rw [held_some hA] at hx
    -- the freed fragment is the only one that is missing
    rcases List.mem_append.mp hx with hx | hx
    · exact absurd (List.mem_append_left _ hx) hnot
    obtain ⟨t, ht, hxt⟩ := List.mem_flatMap.mp hx
    rcases List.mem_cons.mp ((List.getElem_cons_eraseIdx_perm hi).symm.subset ht) with rfl | ht
    · rwa [hfrag] at hxt
    · refine absurd (List.mem_append_right _ ?_) hnot
      show x ∈ mbox.frags.flatMap Tree.headers
      rw [hfr]
      exact List.mem_flatMap.mpr ⟨t, ht, hxt⟩

/-! ### The end of the machine -/

/-- A death takes the actor out of the table and no one else. -/
theorem procDie_actors (w : World) (a b : Nat) :
    (w.procDie a).actors b = if b = a then none else w.actors b := by
  cases hA : w.actors a with
  | none =>
      rw [procDie_none hA]
      split
      · next hb => rw [hb, hA]
      · rfl
  | some A =>
      obtain ⟨hs, -, heq⟩ := procDie_eq hA
      obtain ⟨ps, hr, -⟩ := w.released_releaseOwned a hs
      rw [heq]
      split
      · next hb => rw [hb, actors_setActor]
      · next hb => rw [actors_setActor_ne _ _ hb, hr.actors]

theorem foldl_procDie_actors (l : List Nat) (w : World) (b : Nat) :
    (l.foldl procDie w).actors b = if b ∈ l then none else w.actors b := by
  induction l generalizing w with
  | nil => simp
  | cons a l ih =>
      rw [List.foldl_cons, ih, procDie_actors]
      by_cases hl : b ∈ l <;> by_cases ha : b = a <;> simp [hl, ha]

theorem Inv.vmFree (h : Inv w) : Inv w.vmFree := by
  have hfold : ∀ (l : List Nat) (w : World), Inv w → Inv (l.foldl procDie w) := by
    intro l
    induction l with
    | nil => exact fun _ h => h
    | cons a l ih => exact fun w h => ih _ (h.die a)
  have hinv := hfold (List.range w.nextPid) w h
  have hnone : ∀ b, ((List.range w.nextPid).foldl procDie w).actors b = none := by
    intro b
    rw [foldl_procDie_actors]
    split
    · rfl
    · next hb => exact h.shape.pids (by simpa using hb)
  exact ⟨⟨hinv.shape.apart, hinv.shape.nodup, hinv.shape.old, hinv.shape.rooted, hinv.shape.pids,
    fun _ b => hnone b⟩, hinv.linear, hinv.calls⟩

/-! ### Every step -/

theorem Inv.step {e : Event} (h : Inv w) (hl : w.LosesNothing e) (hs : w.step e = some w') :
    Inv w' := by
  obtain ⟨-, hs⟩ := Option.ite_none_left_eq_some.mp hs
  cases e with
  | create a dtor =>
      obtain ⟨A, hA, rfl⟩ := Option.map_eq_some_iff.mp hs
      exact h.create hA dtor
  | compute a roots =>
      obtain ⟨A, hA, hs⟩ := Option.bind_eq_some_iff.mp hs
      obtain ⟨hsub, ⟨⟩⟩ := Option.ite_none_right_eq_some.mp hs
      exact h.keep hA rfl fun x hx => h.shape.rooted hA (hsub hx)
  | send a i b =>
      obtain ⟨A, hA, hs⟩ := Option.bind_eq_some_iff.mp hs
      exact h.send hA hs
  | timer b msg =>
      obtain rfl := Option.some.inj hs
      cases hd : w.mboxDeliver none b msg with
      | none => exact h
      | some w' => exact h.deliver (fun a ha => absurd ha (by simp)) hd
  | spawn a i =>
      obtain ⟨A, hA, hs⟩ := Option.bind_eq_some_iff.mp hs
      exact h.spawn hA hs
  | recv a =>
      obtain ⟨A, hA, hs⟩ := Option.bind_eq_some_iff.mp hs
      exact h.recv hA hs
  | recvPeek a =>
      obtain ⟨A, hA, hs⟩ := Option.bind_eq_some_iff.mp hs
      exact h.recvPeek hA hs
  | recvCommit a =>
      obtain ⟨A, hA, hs⟩ := Option.bind_eq_some_iff.mp hs
      exact h.recvCommit hA hl hs
  | close a x =>
      obtain ⟨A, hA, hs⟩ := Option.bind_eq_some_iff.mp hs
      obtain ⟨hx, ⟨⟩⟩ := Option.ite_none_right_eq_some.mp hs
      rw [close_eq]
      exact h.release (by simpa using h.shape.reach_subset hA hx)
  | collect a =>
      obtain ⟨A, hA, rfl⟩ := Option.map_eq_some_iff.mp hs
      exact h.collect hA
  | die a =>
      obtain ⟨A, -, rfl⟩ := Option.map_eq_some_iff.mp hs
      exact h.die a
  | vmFree =>
      obtain rfl := Option.some.inj hs
      exact h.vmFree

/-- The runs in which no commit frees a fragment that carries a payload. -/
abbrev Steps : World → List Event → World → Prop :=
  Run (guarded LosesNothing (ofFn World.step))

theorem Inv.run {es : List Event} (hr : Steps w es w') (h : Inv w) : Inv w' :=
  hr.invariant (fun _ _ _ hi hs => hi.step hs.1 hs.2) h

/-! ### What is released, and when -/

/-- The actor's code can reach the header, and the header names the actor and has
the payload. -/
def Reaches (w : World) (a x p : Nat) : Prop :=
  (∃ A, w.actors a = some A ∧ x ∈ A.reach) ∧ (w.hdr x).ownerPid = a ∧ (w.hdr x).res = some p

theorem Reaches.own (h : Inv w) (hr : w.Reaches a x p) : w.Own x p := by
  obtain ⟨⟨A, hA, hx⟩, ho, hp⟩ := hr
  exact ⟨ho ▸ h.shape.reach_subset hA hx, hp⟩

theorem Released.mem_freed {hs ps : List Nat} (hr : Released w a hs ps w') (hp : p ∈ w'.freed)
    (hn : p ∉ w.freed) : ∃ y ∈ hs, (w.hdr y).ownerPid = a ∧ (w.hdr y).res = some p := by
  rw [hr.freed] at hp
  exact (hr.mem p).mp ((List.mem_append.mp hp).resolve_left hn)

/-- What a death releases, the dying actor owned. -/
theorem procDie_freed (hp : p ∈ (w.procDie a).freed) (hn : p ∉ w.freed) :
    ∃ y ∈ w.held a, (w.hdr y).ownerPid = a ∧ (w.hdr y).res = some p := by
  cases hA : w.actors a with
  | none =>
      rw [procDie_none hA] at hp
      exact absurd hp hn
  | some A =>
      obtain ⟨hs, hmem, heq⟩ := procDie_eq hA
      obtain ⟨ps, hr, -⟩ := w.released_releaseOwned a hs
      rw [heq] at hp
      obtain ⟨y, hy, hoy⟩ := hr.mem_freed hp hn
      exact ⟨y, (hmem y).mp hy, hoy⟩

/-- The header a payload was released through was its owner's. -/
theorem Inv.same_owner (h : Inv w) {y : Nat} (hx : w.Own x p) (hxb : (w.hdr x).ownerPid = b)
    (hy : y ∈ w.held a) (hoy : (w.hdr y).ownerPid = a) (hpy : (w.hdr y).res = some p) :
    b = a ∧ x = y := by
  have heq : x = y := h.linear.unique hx ⟨hoy ▸ hy, hpy⟩
  subst heq
  exact ⟨hxb.symm.trans hoy, rfl⟩

theorem Inv.procDie_owner (h : Inv w) (hx : w.Own x p) (hxb : (w.hdr x).ownerPid = b)
    (hp : p ∈ (w.procDie a).freed) (hn : p ∉ w.freed) : (w.procDie a).actors b = none := by
  obtain ⟨y, hy, hoy, hpy⟩ := procDie_freed hp hn
  rw [(h.same_owner hx hxb hy hoy hpy).1, procDie_actors, if_pos rfl]

theorem mboxDeliver_freed {s : Option Nat} {msg : Tree} (hd : w.mboxDeliver s b msg = some w') :
    w'.freed = w.freed := by
  unfold mboxDeliver at hd
  split at hd
  · exact absurd hd (by simp)
  · split at hd <;> obtain rfl := Option.some.inj hd <;> rfl

/-- A refused spawn releases what the parent owns. -/
theorem Inv.spawn_owner (h : Inv w) (hA : w.actors a = some A) (hs : w.spawn a A i = some w')
    (hx : w.Own x p) (hxb : (w.hdr x).ownerPid = b) (hp : p ∈ w'.freed) (hn : p ∉ w.freed) :
    w'.actors b = none := by
  obtain ⟨clos, -, rfl⟩ := Option.map_eq_some_iff.mp hs
  have hfresh : w.takePid.actors w.nextPid = none := h.shape.pids (Nat.le_refl _)
  have hne : a ≠ w.nextPid := Nat.ne_of_lt (h.shape.lt_nextPid hA)
  obtain ⟨hown, -, -⟩ := w.takePid.checkHeaders_spec a clos.headers (by simp) List.Pairwise.nil
  dsimp only at hp ⊢
  split at hp
  · exact absurd hp hn
  next hbad =>
    rw [if_neg hbad]
    set seen := (w.takePid.checkHeaders a [] clos.headers).1
    set half := (w.takePid.copyHeaders seen).setActor w.nextPid
      (some { roots := [], heap := w.takePid.newHeaders seen, mbox := .empty, peekIndex := 0 })
      with hhalf
    have hinv : Inv half := h.takePid.halfCopy hfresh (Nat.lt_succ_self _) (h.shape.running hA) hne
      hown (by simp [Actor.held, Mailbox.empty]) (by simp [Actor.reach])
    have hlt : x < w.nextHdr := h.shape.old hx.1
    have hold : half.hdr x = w.hdr x := hdr_copyHeaders_old (w := w.takePid) hlt
    have hbc : b ≠ w.nextPid := by
      rintro rfl
      have := hx.1
      rw [hxb, held_none (show w.actors w.nextPid = none from hfresh)] at this
      exact absurd this List.not_mem_nil
    -- the child's copies name the parent, so its death releases nothing
    have hnc : p ∉ (half.procDie w.nextPid).freed := by
      intro hc
      obtain ⟨y, hy, hoy, -⟩ := procDie_freed hc hn
      rw [hhalf, held_setActor] at hy
      have hy' : y ∈ w.takePid.newHeaders seen := by
        simpa [Actor.held, Mailbox.empty] using hy
      obtain ⟨hge, hlt⟩ := mem_newHeaders.mp hy'
      obtain ⟨i, rfl⟩ := Nat.exists_eq_add_of_le hge
      have hi : i < seen.length := by omega
      rw [show half.hdr = (w.takePid.copyHeaders seen).hdr from rfl, hdr_copyHeaders_new hi,
        hown _ (List.getElem_mem hi)] at hoy
      exact hne hoy
    have hown' : (half.procDie w.nextPid).Own x p ∧
        ((half.procDie w.nextPid).hdr x).ownerPid = b := by
      have hhx : half.Own x p := by
        unfold Own
        rw [hold, hxb, hhalf, held_setActor_ne _ _ hbc]
        exact ⟨hxb ▸ hx.1, hx.2⟩
      obtain ⟨hs, -, heq⟩ := procDie_eq (w := half) (actors_setActor ..)
      obtain ⟨ps, hr, -⟩ := half.released_releaseOwned w.nextPid hs
      have hpid : (half.hdr x).ownerPid ≠ w.nextPid := by rw [hold, hxb]; exact hbc
      have hhdr : ((half.procDie w.nextPid).hdr x).ownerPid = (half.hdr x).ownerPid := by
        rw [heq]
        exact hr.owner x
      refine ⟨⟨?_, ?_⟩, by rw [hhdr, hold, hxb]⟩
      · rw [hhdr, heq, held_setActor_ne _ _ hpid, hr.held]
        exact hhx.1
      · rw [heq]
        show ((half.releaseOwned w.nextPid hs).hdr x).res = some p
        rw [hr.res, if_neg (fun hc => hpid hc.2)]
        exact hhx.2
    exact (hinv.die w.nextPid).procDie_owner hown'.1 hown'.2 hp hnc

/-- A payload its owner can still reach goes only when the owner closes it or
dies. -/
theorem Inv.step_freed {e : Event} (h : Inv w) (hl : w.LosesNothing e) (hs : w.step e = some w')
    (hr : w.Reaches b x p) (hp : p ∈ w'.freed) (hn : p ∉ w.freed) :
    e = .close b x ∨ w'.actors b = none := by
  have hinv' := h.step hl hs
  have hx := hr.own h
  have hxb := hr.2.1
  obtain ⟨-, hs⟩ := Option.ite_none_left_eq_some.mp hs
  cases e with
  | create a dtor =>
      obtain ⟨A, -, rfl⟩ := Option.map_eq_some_iff.mp hs
      exact absurd hp hn
  | compute a roots =>
      obtain ⟨A, -, hs⟩ := Option.bind_eq_some_iff.mp hs
      obtain ⟨-, ⟨⟩⟩ := Option.ite_none_right_eq_some.mp hs
      exact absurd hp hn
  | send a i c =>
      obtain ⟨A, hA, hs⟩ := Option.bind_eq_some_iff.mp hs
      obtain ⟨msg, -, rfl⟩ := Option.map_eq_some_iff.mp hs
      split at hp
      · exact absurd hp hn
      · cases hd : w.mboxDeliver (some a) c msg with
        | none =>
            rw [hd] at hp
            exact .inr (h.procDie_owner hx hxb hp hn)
        | some w' =>
            rw [hd] at hp
            exact absurd (mboxDeliver_freed hd ▸ hp) hn
  | timer c msg =>
      obtain rfl := Option.some.inj hs
      cases hd : w.mboxDeliver none c msg with
      | none =>
          rw [hd] at hp
          exact absurd hp hn
      | some w' =>
          rw [hd] at hp
          exact absurd (mboxDeliver_freed hd ▸ hp) hn
  | spawn a i =>
      obtain ⟨A, hA, hs⟩ := Option.bind_eq_some_iff.mp hs
      exact .inr (h.spawn_owner hA hs hx hxb hp hn)
  | recv a =>
      obtain ⟨A, -, hs⟩ := Option.bind_eq_some_iff.mp hs
      obtain ⟨_, -, rfl⟩ := Option.map_eq_some_iff.mp hs
      exact absurd hp hn
  | recvPeek a =>
      obtain ⟨A, -, hs⟩ := Option.bind_eq_some_iff.mp hs
      unfold World.recvPeek at hs
      split at hs
      · obtain ⟨frag, -, rfl⟩ := Option.map_eq_some_iff.mp hs
        split at hp
        · next hres =>
            rw [if_pos hres]
            exact .inr (h.procDie_owner hx hxb hp hn)
        · exact absurd hp hn
      · exact absurd hs (by simp)
  | recvCommit a =>
      obtain ⟨A, -, hs⟩ := Option.bind_eq_some_iff.mp hs
      obtain ⟨_, -, rfl⟩ := Option.map_eq_some_iff.mp hs
      exact absurd hp hn
  | close a y =>
      obtain ⟨A, hA, hs⟩ := Option.bind_eq_some_iff.mp hs
      obtain ⟨hy, ⟨⟩⟩ := Option.ite_none_right_eq_some.mp hs
      rw [close_eq] at hp
      obtain ⟨ps, hrel, -⟩ := w.released_releaseOwned a [y]
      obtain ⟨z, hz, hoz, hpz⟩ := hrel.mem_freed hp hn
      rw [List.mem_singleton.mp hz] at hoz hpz
      obtain ⟨rfl, rfl⟩ := h.same_owner hx hxb (h.shape.reach_subset hA hy) hoz hpz
      exact .inl rfl
  | collect a =>
      obtain ⟨A, hA, rfl⟩ := Option.map_eq_some_iff.mp hs
      obtain ⟨ps, hrel, -⟩ := w.released_releaseOwned a (A.heap.filter fun y => y ∉ A.reach)
      obtain ⟨z, hz, hoz, hpz⟩ := hrel.mem_freed hp hn
      obtain ⟨hzh, hzr⟩ := List.mem_filter.mp hz
      have hzheld : z ∈ w.held a := by
        rw [held_some hA]
        exact List.mem_append_left _ hzh
      -- the header that was swept is the one that is reached
      obtain ⟨rfl, rfl⟩ := h.same_owner hx hxb hzheld hoz hpz
      obtain ⟨⟨B, hB, hreach⟩, -⟩ := hr
      obtain rfl := Option.some.inj (hA.symm.trans hB)
      exact absurd hreach (of_decide_eq_true hzr)
  | die a =>
      obtain ⟨A, -, rfl⟩ := Option.map_eq_some_iff.mp hs
      exact .inr (h.procDie_owner hx hxb hp hn)
  | vmFree =>
      obtain rfl := Option.some.inj hs
      exact .inr (hinv'.shape.ended rfl b)

/-- **Every resource is released once.**  In every state of a run in which no
commit frees a fragment that carries a payload: a payload has one header that
lives with the actor it names; its destructor has been called at most once; it has
not been released while such a header can be reached, and the next step releases
it then only if the owner closes it or dies; and once the machine is freed, every
payload has been released exactly once. -/
theorem resource_released_once {es : List Event} {w : World} (hr : Steps init es w) :
    (∀ a a' x x' p, x ∈ w.held a → (w.hdr x).ownerPid = a → (w.hdr x).res = some p →
      x' ∈ w.held a' → (w.hdr x').ownerPid = a' → (w.hdr x').res = some p → a = a' ∧ x = x') ∧
    (∀ p, w.dtorCalls.count p ≤ 1) ∧
    (∀ a x p, w.Reaches a x p → p ∉ w.freed) ∧
    (∀ e w', w.LosesNothing e → w.step e = some w' → ∀ a x p, w.Reaches a x p → p ∈ w'.freed →
      e = .close a x ∨ w'.actors a = none) ∧
    (w.vmFreed = true → ∀ p < w.nextRes, w.freed.count p = 1) := by
  have h := Inv.run hr inv_init
  refine ⟨?_, ?_, ?_, ?_, ?_⟩
  · intro a a' x x' p hx hox hp hx' hox' hp'
    have heq : x = x' := h.linear.unique (p := p) ⟨hox ▸ hx, hp⟩ ⟨hox' ▸ hx', hp'⟩
    subst heq
    exact ⟨hox.symm.trans hox', rfl⟩
  · intro p
    rw [h.calls]
    exact Nat.le_trans (List.filter_sublist.count_le p) (h.linear.count_le_one p)
  · intro a x p hreach
    exact h.linear.live (hreach.own h)
  · intro e w' hl hs a x p hreach hp
    exact h.step_freed hl hs hreach hp (h.linear.live (hreach.own h))
  · intro hv p hp
    refine h.linear.count_eq_one (fun x q hx => ?_) hp
    have := hx.1
    rw [held_none (h.shape.ended hv _)] at this
    exact absurd this List.not_mem_nil

/-- A resource is made, sent to a new actor, received and dropped there; another
is closed; a third is still held when the machine is freed. -/
def passedOn : List Event :=
  [.create 0 true, .spawn 0 1, .send 0 0 1, .recv 1, .timer 1 (.atom 7), .recvPeek 1, .recvCommit 1,
    .create 0 true, .close 0 3, .compute 1 [], .collect 1, .create 0 false, .die 1, .vmFree]

theorem resource_released_once_passedOn : ∃ w, Steps init passedOn w ∧
    w.freed = [1, 0, 2] ∧ w.dtorCalls = [1, 0] ∧ ∀ p < 3, w.freed.count p = 1 := by
  obtain ⟨w, hw, hfacts⟩ := (Option.any_eq_true _ _).mp (by decide :
    (exec (fun s e => if s.LosesNothing e then s.step e else none) init passedOn).any (fun w =>
      w.freed = [1, 0, 2] ∧ w.dtorCalls = [1, 0] ∧ w.vmFreed = true ∧ w.nextRes = 3) = true)
  obtain ⟨hfreed, hcalls, hvm, hres⟩ := of_decide_eq_true hfacts
  have hr : Steps init passedOn w := Run.guarded_iff.mpr hw
  have hend := (resource_released_once hr).2.2.2.2 hvm
  rw [hres] at hend
  exact ⟨w, hr, hfreed, hcalls, hend⟩

/-- The second message, with a resource, is in the mailbox when a guard of a
receive scan that has looked at the first takes that one out. -/
def guardReceives : List Event :=
  [.create 0 true, .spawn 0 1, .send 0 1 1, .send 0 0 1, .recvPeek 1, .recv 1, .recvCommit 1,
    .die 1, .die 0, .vmFree]

/-- The commit frees the fragment with the resource, and the payload is never
released. -/
theorem guard_recv_leaks_resource : ∃ w, Run (ofFn World.step) init guardReceives w ∧
    w.vmFreed = true ∧ w.nextRes = 1 ∧ w.freed = [] ∧ w.dtorCalls = [] := by
  obtain ⟨w, hw, hfacts⟩ := (Option.any_eq_true _ _).mp (by decide :
    (exec World.step init guardReceives).any (fun w =>
      w.vmFreed = true ∧ w.nextRes = 1 ∧ w.freed = [] ∧ w.dtorCalls = []) = true)
  exact ⟨w, Run.ofFn_iff.mpr hw, of_decide_eq_true hfacts⟩

end TinyActor.Runtime.Resource.World
