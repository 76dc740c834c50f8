/-
A wrapped descriptor is closed once or handed back, and never both.

The record of a connection and the table of descriptors name each other: a record
with a descriptor is the one the table has it wrapped by.  So two connections
never have one descriptor, and what a destructor closes is its own.  A record that
has given its descriptor back has −1, and its destructor closes nothing.

This needs the caller to wrap only what it holds.  A descriptor that is wrapped
twice is closed by both connections.

`close_keep_fd` answers the descriptor of a connection that is still open.  For a
released one `tls_raw_close` answers 1, as `close` does, and `close_h` lifts that
to `Ok(1)`, which the caller cannot tell from a descriptor.
-/
import TinyActor.Lib.Run
import TinyActor.Proofs.Native
import TinyActor.Stdlib.Tls

namespace TinyActor.Stdlib.Tls

open Lib Runtime.Native Runtime.Native.State Runtime.Resource

variable {R L : Nat → Option TlsState} {e : Sockets} {p : Nat} {st : TlsState}

/-! ### Records and descriptors -/

/-- The records `L` that are live, among all those made, and the descriptors. -/
structure Kept (R L : Nat → Option TlsState) (e : Sockets) : Prop where
  stray : e.stray = []
  wraps : ∀ {p st}, L p = some st → 0 ≤ st.fd → e.holder st.fd = .wrapped p
  /-- A record that still has its descriptor has neither closed it nor given it
  back. -/
  has : ∀ {p st}, L p = some st → 0 ≤ st.fd → p ∉ e.closedBy ∧ p ∉ e.backFrom
  once : e.closedBy.Nodup
  apart : ∀ {p}, p ∈ e.backFrom → p ∉ e.closedBy
  made : ∀ {p st}, L p = some st → R p ≠ none
  past : ∀ {p}, p ∈ e.closedBy ∨ p ∈ e.backFrom → R p ≠ none

namespace Kept

/-- Another record's descriptor is another one. -/
theorem fd_ne (k : Kept R L e) (hp : L p = some st) (hfd : 0 ≤ st.fd) {q : Nat} {st' : TlsState}
    (hq : L q = some st') (hfd' : 0 ≤ st'.fd) (hne : q ≠ p) : st'.fd ≠ st.fd := by
  intro hsame
  have hw := k.wraps hq hfd'
  rw [hsame, k.wraps hp hfd] at hw
  exact hne (Holder.wrapped.inj hw).symm

/-- A live record other than `p` after `p` was updated. -/
theorem other {y : Option TlsState} {q : Nat} {st' : TlsState}
    (hq : Function.update L p y q = some st') (hy : ∀ x, y = some x → ¬ 0 ≤ x.fd) (hfd : 0 ≤ st'.fd) :
    q ≠ p ∧ L q = some st' := by
  rw [Function.update_apply] at hq
  split at hq
  · exact absurd hfd (hy st' hq)
  next hqp => exact ⟨hqp, hq⟩

theorem made_update (k : Kept R L e) {y : Option TlsState} (hp : L p = some st) :
    ∀ {q st'}, Function.update L p y q = some st' → R q ≠ none := by
  intro q st' hq
  rw [Function.update_apply] at hq
  split at hq
  next hqp => exact hqp ▸ k.made hp
  · exact k.made hq

/-- The record of `p` gives its descriptor back. -/
theorem giveBack (k : Kept R L e) (hp : L p = some st) (hfd : 0 ≤ st.fd) :
    Kept R (Function.update L p (some { st with fd := -1 })) (e.giveBack p st.fd) := by
  have hy : ∀ x, some { st with fd := -1 } = some x → ¬ 0 ≤ x.fd := by
    rintro x hx
    rw [← Option.some.inj hx]
    decide
  refine ⟨k.stray, fun {q st'} hq hfd' => ?_, fun {q st'} hq hfd' => ?_, k.once, fun {q} hq => ?_,
    k.made_update hp, fun {q} hq => ?_⟩
  · obtain ⟨hne, hq⟩ := other hq hy hfd'
    show Function.update e.holder st.fd .caller st'.fd = _
    rw [Function.update_of_ne (k.fd_ne hp hfd hq hfd' hne)]
    exact k.wraps hq hfd'
  · obtain ⟨hne, hq⟩ := other hq hy hfd'
    obtain ⟨hc, hb⟩ := k.has hq hfd'
    exact ⟨hc, by simp [Sockets.giveBack, Sockets.set, hb, hne]⟩
  · rcases List.mem_append.mp hq with hq | hq
    · exact k.apart hq
    · rw [List.mem_singleton.mp hq]
      exact (k.has hp hfd).1
  · rcases hq with hq | hq
    · exact k.past (.inl hq)
    · rcases List.mem_append.mp hq with hq | hq
      · exact k.past (.inr hq)
      · rw [List.mem_singleton.mp hq]
        exact k.made hp

/-- The destructor of `p` closes its descriptor, if it still has one. -/
theorem dtor : DtorKeeps tlsDtor (Kept R) := by
  intro L e p st k hp
  have hy : ∀ x : TlsState, none = some x → ¬ 0 ≤ x.fd := fun x hx => absurd hx (by simp)
  unfold tlsDtor
  split
  next hfd =>
    refine ⟨?_, fun {q st'} hq hfd' => ?_, fun {q st'} hq hfd' => ?_, ?_, fun {q} hq => ?_,
      k.made_update hp, fun {q} hq => ?_⟩
    · show (if e.holder st.fd = .wrapped p then e.stray else _) = []
      rw [if_pos (k.wraps hp hfd), k.stray]
    · obtain ⟨hne, hq⟩ := other hq hy hfd'
      show Function.update e.holder st.fd .closed st'.fd = _
      rw [Function.update_of_ne (k.fd_ne hp hfd hq hfd' hne)]
      exact k.wraps hq hfd'
    · obtain ⟨hne, hq⟩ := other hq hy hfd'
      obtain ⟨hc, hb⟩ := k.has hq hfd'
      exact ⟨by simp [Sockets.close, hc, hne], hb⟩
    · refine List.nodup_append.mpr ⟨k.once, List.nodup_singleton p, ?_⟩
      rintro q hq q' hq' rfl
      exact (k.has hp hfd).1 (List.mem_singleton.mp hq' ▸ hq)
    · show q ∉ e.closedBy ++ [p]
      refine fun hm => (List.mem_append.mp hm).elim (k.apart hq) fun hm => ?_
      exact (k.has hp hfd).2 (List.mem_singleton.mp hm ▸ hq)
    · rcases hq with hq | hq
      · rcases List.mem_append.mp hq with hq | hq
        · exact k.past (.inl hq)
        · rw [List.mem_singleton.mp hq]
          exact k.made hp
      · exact k.past (.inr hq)
  next hfd =>
    refine ⟨k.stray, fun {q st'} hq hfd' => ?_, fun {q st'} hq hfd' => ?_, k.once, k.apart,
      k.made_update hp, k.past⟩
    · exact k.wraps (other hq hy hfd').2 hfd'
    · exact k.has (other hq hy hfd').2 hfd'

/-- Another record has been made, or changed. -/
theorem setRec (k : Kept R L e) (p : Nat) (x : TlsState) :
    Kept (Function.update R p (some x)) L e := by
  have hR : ∀ {q}, R q ≠ none → Function.update R p (some x) q ≠ none := by
    intro q hq
    rw [Function.update_apply]
    split
    · exact Option.some_ne_none x
    · exact hq
  exact ⟨k.stray, k.wraps, k.has, k.once, k.apart, fun hq => hR (k.made hq), fun hq => hR (k.past hq)⟩

/-- A descriptor of the caller's is wrapped by a new record. -/
theorem wrap (k : Kept R L e) (hnew : R p = none) {fd : Int} (hheld : e.holder fd = .caller) :
    Kept (Function.update R p (some { fd := fd })) (Function.update L p (some { fd := fd }))
      (e.set fd (.wrapped p)) := by
  have k' := k.setRec p { fd := fd }
  refine ⟨k.stray, fun {q st'} hq hfd' => ?_, fun {q st'} hq hfd' => ?_, k.once, k.apart,
    fun {q st'} hq => ?_, k'.past⟩
  · show Function.update e.holder fd (.wrapped p) st'.fd = _
    rw [Function.update_apply] at hq
    split at hq
    next hqp =>
      rw [← Option.some.inj hq, Function.update_self, hqp]
    next =>
      have hne : st'.fd ≠ fd := by
        intro hc
        have hw := k.wraps hq hfd'
        rw [hc, hheld] at hw
        exact absurd hw (by simp)
      rw [Function.update_of_ne hne]
      exact k.wraps hq hfd'
  · rw [Function.update_apply] at hq
    split at hq
    next hqp =>
      subst hqp
      exact ⟨fun hc => k.past (.inl hc) hnew, fun hb => k.past (.inr hb) hnew⟩
    · exact k.has hq hfd'
  · rw [Function.update_apply] at hq
    split at hq
    next hqp => simp [hqp]
    · exact k'.made hq

/-- What the caller does with a descriptor that no connection has. -/
theorem outside (k : Kept R L e) {fd : Int} {c : Holder} (hfree : ∀ p, e.holder fd ≠ .wrapped p) :
    Kept R L (e.set fd c) := by
  refine ⟨k.stray, fun {q st'} hq hfd' => ?_, k.has, k.once, k.apart, k.made, k.past⟩
  have hw := k.wraps hq hfd'
  show Function.update e.holder fd c st'.fd = _
  have hne : st'.fd ≠ fd := by
    intro hc
    rw [hc] at hw
    exact hfree q hw
  rw [Function.update_of_ne hne]
  exact hw

end Kept

/-! ### Every call -/

namespace State

variable {s t : State} {a h : Nat}

structure Sound (s : State) : Prop where
  fit : Fit s
  kept : Kept s.recs s.live s.env
  /-- Between calls every live connection has its descriptor. -/
  has : ∀ {p st}, s.live p = some st → 0 ≤ st.fd

theorem sound_init : Sound init := by
  have hnone : ∀ {p st}, init.live p ≠ some st := by
    intro p st
    unfold init
    rw [live_start]
    simp
  exact ⟨fit_start _, ⟨rfl, fun hp => absurd hp hnone, fun hp => absurd hp hnone, List.nodup_nil,
    fun hp => absurd hp List.not_mem_nil, fun hp => absurd hp hnone,
    fun hp => absurd hp (by simp [init, start])⟩, fun hp => absurd hp hnone⟩

theorem Sound.event {e : World.Event} (hs : Sound s) (he : s.event tlsDtor e = some t) :
    Sound t := by
  obtain ⟨hfit, hrecs, hless, hkeeps⟩ := hs.fit.event he
  refine ⟨hfit, ?_, fun hp => hs.has (hless _ _ hp)⟩
  rw [hrecs]
  exact hkeeps (Kept s.recs) Kept.dtor hs.kept

/-- Giving the descriptor back and releasing the connection: a failed handshake
and `close_keep_fd`. -/
theorem Sound.giveBack {c : Int} (hs : Sound s) (huse : s.CanUse a h)
    (ho : taResourceOpen s.world a h c = .ok p) (hx : s.recs p = some st) :
    ∃ t, ((s.setRec p { st with fd := -1 }).onEnv fun e => e.giveBack p st.fd).event tlsDtor
      (.close a h) = some t ∧ Sound t ∧ s.env.holder st.fd = .wrapped p ∧
      t.env.holder st.fd = .caller := by
  have hlive : s.live p = some st := by rw [live_of_not_mem (hs.fit.opened huse ho), hx]
  have hfd := hs.has hlive
  set u := (s.setRec p { st with fd := -1 }).onEnv fun e => e.giveBack p st.fd with hu
  have hfit : Fit u := (hs.fit.setRec (hs.fit.made hx)).onEnv _
  have hrec : u.recs p = some { st with fd := -1 } := Function.update_self ..
  obtain ⟨t, ht, hfit', hrecs, hlive', henv⟩ := hfit.release tlsDtor huse ho hrec
  have hul : u.live = Function.update s.live p (some { st with fd := -1 }) :=
    live_setRec (hs.fit.opened huse ho)
  rw [hul, Function.update_idem] at hlive'
  have henv' : t.env = s.env.giveBack p st.fd := henv
  refine ⟨t, ht, ⟨hfit', ?_, fun {q y} hq => ?_⟩, hs.kept.wraps hlive hfd, ?_⟩
  · have hback := hs.kept.giveBack hlive hfd
    have hgone := Kept.dtor hback (Function.update_self ..)
    rw [Function.update_idem] at hgone
    rw [hrecs, hlive', henv']
    exact hgone.setRec p _
  · rw [hlive', Function.update_apply] at hq
    split at hq
    · exact absurd hq (by simp)
    · exact hs.has hq
  · rw [henv']
    exact Function.update_self ..

theorem Sound.wrap {fd : Int} {made : Bool} {r : Answer} (hs : Sound s)
    (hheld : made = true → 0 ≤ fd → s.env.holder fd = .caller)
    (hw : s.rawWrap a fd made = some (t, r)) : Sound t := by
  unfold rawWrap at hw
  split at hw
  · split at hw
    · obtain ⟨rfl, -⟩ := Prod.mk.inj (Option.some.inj hw)
      exact hs
    next hok =>
      obtain ⟨hfd, hmade⟩ := not_or.mp hok
      obtain ⟨u, hu, heq⟩ := Option.map_eq_some_iff.mp hw
      obtain ⟨rfl, -⟩ := Prod.mk.inj heq
      obtain ⟨hfit, hlive, henv, -, -, -⟩ := hs.fit.new hu
      have hrecs : u.recs = Function.update s.recs s.world.nextRes (some { fd := fd }) := by
        obtain ⟨v, hv, rfl⟩ := Option.map_eq_some_iff.mp hu
        exact congrArg (Function.update · _ _) (hs.fit.event hv).2.1
      have hnew : s.recs s.world.nextRes = none := by
        by_contra hc
        obtain ⟨x, hx⟩ := Option.ne_none_iff_exists'.mp hc
        exact Nat.lt_irrefl _ (hs.fit.made hx)
      refine ⟨hfit.onEnv _, ?_, fun {q y} hq => ?_⟩
      · show Kept u.recs u.live (u.env.set fd _)
        rw [hrecs, hlive, henv]
        exact hs.kept.wrap hnew (hheld (by simpa using hmade) (Int.not_lt.mp hfd))
      · change u.live q = some y at hq
        rw [hlive, Function.update_apply] at hq
        split at hq
        · rw [← Option.some.inj hq]
          exact Int.not_lt.mp hfd
        · exact hs.has hq
  · exact absurd hw (by simp)

theorem Sound.hs {ret : Connect} {r : Answer} (hs : Sound s) (hh : s.rawHs a h ret = some (t, r)) :
    Sound t := by
  rcases entry_cases hh with ⟨rfl, -⟩ | ⟨p, st, huse, ho, hx, hb⟩
  · exact hs
  cases ret with
  | done =>
      obtain ⟨rfl, -⟩ := Prod.mk.inj (Option.some.inj hb)
      exact hs
  | want =>
      obtain ⟨rfl, -⟩ := Prod.mk.inj (Option.some.inj hb)
      exact hs
  | failed =>
      obtain ⟨u, hu, heq⟩ := Option.map_eq_some_iff.mp hb
      obtain ⟨rfl, -⟩ := Prod.mk.inj heq
      obtain ⟨v, hv, hsound, -, -⟩ := hs.giveBack huse ho hx
      rwa [Option.some.inj (hu.symm.trans hv)]

theorem closeH_int {n v : Int} (hc : closeH (.int n) = some v) : n = v := by
  unfold closeH at hc
  dsimp only at hc
  split at hc
  · exact absurd hc (by simp)
  · exact Option.some.inj hc

/-- What `close_keep_fd` does with an open connection. -/
theorem Sound.closeKeep {r : Answer} (hs : Sound s) (hc : s.rawClose a h true = some (t, r)) :
    Sound t ∧ ∀ p, (s.world.hdr h).res = some p → ∀ v, closeH r = some v →
      s.env.holder v = .wrapped p ∧ t.env.holder v = .caller := by
  rcases entry_cases hc with ⟨rfl, code, ho, rfl⟩ | ⟨p, st, huse, ho, hx, hb⟩
  · refine ⟨hs, fun p hp v hv => ?_⟩
    unfold taResourceOpen at ho
    split at ho
    · obtain rfl := Except.error.inj ho
      exact absurd hv (by simp [closeH])
    · rw [hp] at ho
      exact absurd ho (by simp)
  · obtain ⟨u, hu, heq⟩ := Option.map_eq_some_iff.mp hb
    obtain ⟨rfl, rfl⟩ := Prod.mk.inj heq
    obtain ⟨v, hv, hsound, hbefore, hafter⟩ := hs.giveBack huse ho hx
    obtain rfl := Option.some.inj (hu.symm.trans hv)
    refine ⟨hsound, fun q hq n hn => ?_⟩
    obtain rfl : p = q := Option.some.inj ((open_eq_ok ho).2.symm.trans hq)
    obtain rfl : st.fd = n := closeH_int hn
    exact ⟨hbefore, hafter⟩

theorem Sound.close {r : Answer} (hs : Sound s) (hc : s.rawClose a h false = some (t, r)) :
    Sound t := by
  rcases entry_cases hc with ⟨rfl, -⟩ | ⟨p, st, huse, ho, hx, hb⟩
  · exact hs
  · obtain ⟨u, hu, heq⟩ := Option.map_eq_some_iff.mp hb
    obtain ⟨rfl, -⟩ := Prod.mk.inj heq
    exact hs.event hu

/-- The caller wraps and closes only descriptors it holds. -/
def Orderly (s : State) : Call → Prop
  | .wrap _ fd made => made = true → 0 ≤ fd → s.env.holder fd = .caller
  | .tcpClose fd => s.env.holder fd = .caller
  | _ => True

instance (s : State) (c : Call) : Decidable (Orderly s c) :=
  match c with
  | .wrap _ fd made =>
      inferInstanceAs (Decidable (made = true → 0 ≤ fd → s.env.holder fd = .caller))
  | .tcpClose fd => inferInstanceAs (Decidable (s.env.holder fd = .caller))
  | .event _ | .socket _ | .hs .. | .io .. | .close .. => instDecidableTrue

theorem Sound.step {c : Call} (hs : Sound s) (ho : Orderly s c) (hc : s.step c = some t) :
    Sound t := by
  have houtside : ∀ {fd k}, (∀ p, s.env.holder fd ≠ .wrapped p) →
      Sound (s.onEnv fun e => e.set fd k) :=
    fun hfree => ⟨hs.fit.onEnv _, hs.kept.outside hfree, hs.has⟩
  cases c with
  | event e => exact hs.event hc
  | socket fd =>
      simp only [State.step] at hc
      split at hc
      next hfree =>
        obtain rfl := Option.some.inj hc
        exact houtside fun p => by rw [hfree.2]; simp
      · exact absurd hc (by simp)
  | tcpClose fd =>
      obtain rfl := Option.some.inj hc
      have hcaller : s.env.holder fd = .caller := ho
      exact houtside fun p => by rw [hcaller]; simp
  | wrap a fd made =>
      obtain ⟨⟨u, r⟩, hu, rfl⟩ := Option.map_eq_some_iff.mp hc
      exact hs.wrap ho hu
  | hs a h ret =>
      obtain ⟨⟨u, r⟩, hu, rfl⟩ := Option.map_eq_some_iff.mp hc
      exact hs.hs hu
  | io a h ret =>
      obtain ⟨⟨u, r⟩, hu, rfl⟩ := Option.map_eq_some_iff.mp hc
      rcases entry_cases hu with ⟨rfl, -⟩ | ⟨p, st, -, -, -, hb⟩
      · exact hs
      · obtain ⟨rfl, -⟩ := Prod.mk.inj (Option.some.inj hb)
        exact hs
  | close a h keep =>
      obtain ⟨⟨u, r⟩, hu, rfl⟩ := Option.map_eq_some_iff.mp hc
      cases keep with
      | true => exact (hs.closeKeep hu).1
      | false => exact hs.close hu

/-- **The descriptor of a connection.**  In every state that callers who keep to
their own descriptors can reach, whatever the actors send, collect or lose, each
connection has closed its descriptor at most once, and not after it gave it back;
every descriptor it closed was still its own.  What `close_keep_fd` answers for a
connection that is not released is the descriptor it had wrapped, and the caller
holds it then. -/
theorem wrapped_closed_once {calls : List Call}
    (hr : Run (guarded Orderly (ofFn State.step)) init calls s) :
    s.env.stray = [] ∧ s.env.closedBy.Nodup ∧ (∀ p ∈ s.env.backFrom, p ∉ s.env.closedBy) ∧
      ∀ a h t r v p, s.rawClose a h true = some (t, r) → closeH r = some v →
        (s.world.hdr h).res = some p → s.env.holder v = .wrapped p ∧ t.env.holder v = .caller := by
  have hs : Sound s := hr.invariant (fun _ _ _ hs hc => hs.step hc.1 hc.2) sound_init
  exact ⟨hs.kept.stray, hs.kept.once, fun _ hp => hs.kept.apart hp,
    fun a h t r v p hc hv hp => (hs.closeKeep hc).2 p hp v hv⟩

/-- A descriptor is wrapped, its handshake done, and the connection goes to another
actor, which gives the descriptor back. -/
def passedOn : List Call :=
  [.socket 7, .wrap 0 7 true, .hs 0 0 .want, .hs 0 0 .done, .event (.spawn 0 1), .event (.send 0 0 1),
    .event (.recv 1), .io 1 2 .other]

theorem wrapped_closed_once_passedOn : ∃ s t r,
    exec (fun s c => if Orderly s c then s.step c else none) init passedOn = some s ∧
      s.env.stray = [] ∧ s.rawClose 1 2 true = some (t, r) ∧ closeH r = some 7 ∧
      s.env.holder 7 = .wrapped 0 ∧ t.env.holder 7 = .caller := by
  obtain ⟨s, hs, hfacts⟩ := (Option.any_eq_true _ _).mp (by decide +kernel :
    (exec (fun s c => if Orderly s c then s.step c else none) init passedOn).any (fun s =>
      (s.world.hdr 2).res = some 0 ∧ (s.rawClose 1 2 true).any (fun tr => closeH tr.2 = some 7)) =
        true)
  obtain ⟨hres, hany⟩ := of_decide_eq_true hfacts
  obtain ⟨⟨t, r⟩, hc, hr⟩ := (Option.any_eq_true _ _).mp hany
  have hv : closeH r = some 7 := of_decide_eq_true hr
  obtain ⟨hstray, -, -, hkeep⟩ := wrapped_closed_once (Run.guarded_iff.mpr hs)
  exact ⟨s, t, r, hs, hstray, hc, hv, hkeep 1 2 t r 7 0 hc hv hres⟩

/-- The second `close_keep_fd` of a connection answers `Ok(1)`: the standard output,
which no connection ever had. -/
theorem close_keep_fd_again : ∃ s t r, Run (guarded Orderly (ofFn State.step)) init
    [.socket 7, .wrap 0 7 true, .hs 0 0 .done, .close 0 0 true, .tcpClose 7] s ∧
      s.rawClose 0 0 true = some (t, r) ∧ closeH r = some 1 ∧ s.env.holder 1 = .caller ∧
      s.env.holder 7 = .closed := by
  obtain ⟨s, hs, hfacts⟩ := (Option.any_eq_true _ _).mp (by decide +kernel :
    (exec (fun s c => if Orderly s c then s.step c else none) init
      [.socket 7, .wrap 0 7 true, .hs 0 0 .done, .close 0 0 true, .tcpClose 7]).any (fun s =>
        (s.rawClose 0 0 true).any (fun tr => closeH tr.2 = some 1) ∧ s.env.holder 1 = .caller ∧
          s.env.holder 7 = .closed) = true)
  obtain ⟨hany, hone, hseven⟩ := of_decide_eq_true hfacts
  obtain ⟨⟨t, r⟩, hc, hr⟩ := (Option.any_eq_true _ _).mp hany
  exact ⟨s, t, r, Run.guarded_iff.mpr hs, hc, of_decide_eq_true hr, hone, hseven⟩

/-- Without the condition on `wrap`: a descriptor that two connections have. -/
example : (exec State.step init [.socket 7, .wrap 0 7 true, .wrap 0 7 true, .close 0 0 false,
    .close 0 1 false]).map (fun s => s.env.closedBy) = some [0, 1] := by decide +kernel

end State

end TinyActor.Stdlib.Tls
