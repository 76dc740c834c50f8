/-
One child, one entry.

The entries stand in the order of the children and are told apart by their references.  A
reference is the number of a monitor call, so a new one is not among those given before, and
the message about it can only mean the entry that has it.  The numbers are 32 bits wide: a
machine that has made 2^32 monitor calls gives references again, and from there on a message can
mean the wrong child.  The counter of an entry is the number of messages that were answered by
a restart of its child.
-/
import Mathlib.Data.List.Nodup
import TinyActor.Proofs.Monitor
import TinyActor.Proofs.Strconv
import TinyActor.Stdlib.Supervisor

namespace TinyActor.Stdlib.Supervisor

open Runtime.Monitor (refOf refOf_inj)

variable {T : Type} {env : Env} {w : World} {limit ref : Int} {s t : State T} {e : Entry T}
  {before after : List (Entry T)}

/-- The references an entry is looked up by. -/
def refs (entries : List (Entry T)) : List Int := entries.map (·.ref)

/-! ### Looking up -/

theorem find_none {entries : List (Entry T)} (h : ref ∉ refs entries) : find entries ref = none := by
  induction entries with
  | nil => rfl
  | cons e entries ih =>
      obtain ⟨he, hrest⟩ := not_or.mp (mt List.mem_cons.mpr h)
      rw [find, if_neg (Ne.symm he), ih hrest]

theorem find_append (h : e.ref ∉ refs before) : find (before ++ e :: after) e.ref = some e := by
  induction before with
  | nil => exact if_pos rfl
  | cons x before ih =>
      obtain ⟨hx, hrest⟩ := not_or.mp (mt List.mem_cons.mpr h)
      rw [List.cons_append, find, if_neg (Ne.symm hx), ih hrest]

theorem replace_append (h : e.ref ∉ refs before) (x : Entry T) :
    replace (before ++ e :: after) e.ref x = before ++ x :: after := by
  induction before with
  | nil => exact if_pos rfl
  | cons y before ih =>
      obtain ⟨hy, hrest⟩ := not_or.mp (mt List.mem_cons.mpr h)
      rw [List.cons_append, replace, if_neg (Ne.symm hy), ih hrest]
      rfl

/-! ### The entries of a run -/

/-- Each child has its entry, found by a reference of its own, and no counter has passed the
limit or the number of the calls. -/
structure Kept (children : List T) (limit : Int) (s : State T) : Prop where
  children : s.entries.map (·.startFn) = children
  given : ∀ e ∈ s.entries, ∃ k ≤ s.world.calls, e.ref = refOf k
  nodup : (refs s.entries).Nodup
  restarts : ∀ e ∈ s.entries, 0 ≤ e.restarts ∧ e.restarts ≤ max limit 0 ∧
    e.restarts ≤ s.world.calls

theorem calls_next (env : Env) (w : World) : w.calls < (w.next env).calls := by
  change w.calls < w.calls + (env w.starts).others + 1
  omega

/-- A reference given now was not given before. -/
theorem refOf_next_ne {k : Nat} (hcalls : (w.next env).calls < 2 ^ 32) (hk : k ≤ w.calls) :
    refOf (w.next env).calls ≠ refOf k := by
  intro h
  have hlt := calls_next env w
  have := refOf_inj hcalls (by omega) h
  omega

theorem startAll_kept (env : Env) (w : World) (children : List T) :
    w.calls ≤ (startAll env w children).2.calls ∧
    (startAll env w children).1.map (·.startFn) = children ∧
    (∀ e ∈ (startAll env w children).1, e.restarts = 0 ∧
      ∃ k, w.calls < k ∧ k ≤ (startAll env w children).2.calls ∧ e.ref = refOf k) ∧
    ((startAll env w children).2.calls < 2 ^ 32 → (refs (startAll env w children).1).Nodup) := by
  induction children generalizing w with
  | nil => exact ⟨Nat.le_refl _, rfl, nofun, fun _ => List.nodup_nil⟩
  | cons child children ih =>
      obtain ⟨hle, hmap, hgiven, hnodup⟩ := ih (w.next env)
      have hlt := calls_next env w
      have hstart : startAll env w (child :: children) =
          (⟨child, (env w.starts).pid, refOf (w.next env).calls, 0⟩ ::
            (startAll env (w.next env) children).1, (startAll env (w.next env) children).2) := rfl
      rw [hstart]
      dsimp only
      refine ⟨by omega, congrArg (child :: ·) hmap, ?_, ?_⟩
      · intro e he
        rcases List.mem_cons.mp he with rfl | he
        · exact ⟨rfl, (w.next env).calls, hlt, hle, by dsimp only⟩
        · obtain ⟨hzero, k, hk, hk', href⟩ := hgiven e he
          exact ⟨hzero, k, by omega, hk', href⟩
      · intro hcalls
        refine List.nodup_cons.mpr ⟨?_, hnodup hcalls⟩
        intro hmem
        obtain ⟨e, he, heq⟩ := List.mem_map.mp hmem
        obtain ⟨-, k, hk, hk', href⟩ := hgiven e he
        dsimp only at heq
        rw [href] at heq
        have : k = (w.next env).calls := refOf_inj (by omega) (by omega) heq
        omega

theorem start_kept (children : List T) (limit : Int)
    (hcalls : (start env w children).world.calls < 2 ^ 32) :
    Kept children limit (start env w children) := by
  obtain ⟨-, hmap, hgiven, hnodup⟩ := startAll_kept env w children
  refine ⟨hmap, ?_, hnodup hcalls, ?_⟩
  · intro e he
    obtain ⟨-, k, -, hk, href⟩ := hgiven e he
    exact ⟨k, hk, href⟩
  · intro e he
    rw [(hgiven e he).1]
    omega

/-! ### One message -/

theorem handleDown_unknown (h : ref ∉ refs s.entries) : handleDown env limit s ref = some s := by
  rw [handleDown, find_none h]

variable {downs : List Int} {children : List T}

/-- The child is started again in its place, unless it has used up its restarts. -/
theorem handleDown_known (hkept : Kept children limit s) (hcalls : s.world.calls < 2 ^ 32)
    (hs : s.entries = before ++ e :: after) :
    handleDown env limit s e.ref =
      if e.restarts < limit then
        some ⟨before ++ ⟨e.startFn, (env s.world.starts).pid, refOf (s.world.next env).calls,
          e.restarts + 1⟩ :: after, s.world.next env⟩
      else none := by
  have hnodup := hkept.nodup
  rw [hs, refs, List.map_append, List.map_cons, List.nodup_middle] at hnodup
  have hbefore : e.ref ∉ refs before := fun h =>
    (List.nodup_cons.mp hnodup).1 (List.mem_append_left _ h)
  obtain ⟨hnonneg, -, hle⟩ := hkept.restarts e (hs ▸ List.mem_append_right _ (List.mem_cons_self ..))
  have hcount : int48 (e.restarts + 1) = e.restarts + 1 := Str.int48_of_range (by omega)
  rw [handleDown, hs, find_append hbefore]
  simp only [hcount, startChild, replace_append hbefore]
  by_cases hused : e.restarts < limit
  · rw [if_pos hused, if_neg (by omega)]
  · rw [if_neg hused, if_pos (by omega)]

/-- What a message leaves: everything as it was, or one entry changed for a new one. -/
theorem handleDown_some (hkept : Kept children limit s) (hcalls : s.world.calls < 2 ^ 32)
    (h : handleDown env limit s ref = some t) :
    (ref ∉ refs s.entries ∧ t = s) ∨
    ∃ before e after, s.entries = before ++ e :: after ∧ e.ref = ref ∧ e.restarts < limit ∧
      t = ⟨before ++ ⟨e.startFn, (env s.world.starts).pid, refOf (s.world.next env).calls,
        e.restarts + 1⟩ :: after, s.world.next env⟩ := by
  by_cases hmem : ref ∈ refs s.entries
  · obtain ⟨e, he, rfl⟩ := List.mem_map.mp hmem
    obtain ⟨before, after, hs⟩ := List.append_of_mem he
    rw [handleDown_known hkept hcalls hs] at h
    by_cases hused : e.restarts < limit
    · rw [if_pos hused] at h
      exact .inr ⟨before, e, after, hs, rfl, hused, (Option.some.inj h).symm⟩
    · rw [if_neg hused] at h
      cases h
  · rw [handleDown_unknown hmem] at h
    exact .inl ⟨hmem, (Option.some.inj h).symm⟩

theorem handleDown_calls (h : handleDown env limit s ref = some t) :
    s.world.calls ≤ t.world.calls := by
  have hlt := calls_next env s.world
  rw [handleDown] at h
  split at h
  · dsimp only at h
    split at h
    · cases h
    · obtain rfl := Option.some.inj h
      exact Nat.le_of_lt hlt
  · obtain rfl := Option.some.inj h
    exact Nat.le_refl _

theorem handleDown_kept (hkept : Kept children limit s) (hcalls : t.world.calls < 2 ^ 32)
    (h : handleDown env limit s ref = some t) : Kept children limit t := by
  rcases handleDown_some hkept (Nat.lt_of_le_of_lt (handleDown_calls h) hcalls) h with ⟨-, rfl⟩ | ⟨before, e, after, hs, -, hused, rfl⟩
  · exact hkept
  obtain ⟨hchildren, hgiven, hnodup, hrestarts⟩ := hkept
  have hlt := calls_next env s.world
  rw [hs] at hchildren hgiven hnodup hrestarts
  have hother : ∀ x ∈ before ++ after, x ∈ before ++ e :: after := fun x hx => by
    rcases List.mem_append.mp hx with hx | hx
    · exact List.mem_append_left _ hx
    · exact List.mem_append_right _ (List.mem_cons_of_mem _ hx)
  refine ⟨?_, ?_, ?_, ?_⟩
  · rw [← hchildren]
    simp only [List.map_append, List.map_cons]
  · intro x hx
    rcases List.mem_cons.mp (List.perm_middle.mem_iff.mp hx) with rfl | hx
    · exact ⟨(s.world.next env).calls, Nat.le_refl _, by dsimp only⟩
    · obtain ⟨k, hk, href⟩ := hgiven x (hother x hx)
      exact ⟨k, hk.trans (Nat.le_of_lt hlt), href⟩
  · rw [refs, List.map_append, List.map_cons, List.nodup_middle] at hnodup ⊢
    refine List.nodup_cons.mpr ⟨?_, (List.nodup_cons.mp hnodup).2⟩
    rw [← List.map_append]
    intro hmem
    obtain ⟨x, hx, heq⟩ := List.mem_map.mp hmem
    obtain ⟨k, hk, href⟩ := hgiven x (hother x hx)
    dsimp only at heq
    rw [href] at heq
    exact refOf_next_ne hcalls hk heq.symm
  · intro x hx
    rcases List.mem_cons.mp (List.perm_middle.mem_iff.mp hx) with rfl | hx
    · have := hrestarts e (List.mem_append_right _ (List.mem_cons_self ..))
      dsimp only
      omega
    · have := hrestarts x (hother x hx)
      dsimp only
      omega

/-! ### Runs -/

theorem run_calls (h : run env limit s downs = some t) : s.world.calls ≤ t.world.calls := by
  refine (Lib.Run.ofFn_iff.mpr h).invariant (P := fun u => s.world.calls ≤ u.world.calls) ?_
    (Nat.le_refl _)
  intro u i v hu hstep
  exact hu.trans (handleDown_calls hstep)

theorem run_kept
    (hkept : s.world.calls < 2 ^ 32 → Kept children limit s) (h : run env limit s downs = some t)
    (hcalls : t.world.calls < 2 ^ 32) : Kept children limit t := by
  refine (Lib.Run.ofFn_iff.mpr h).invariant
    (P := fun u => u.world.calls < 2 ^ 32 → Kept children limit u) ?_ hkept hcalls
  intro u i v hu hstep hv
  have hle := handleDown_calls hstep
  exact handleDown_kept (hu (by omega)) hv hstep

/-- How often a message about the current reference of the `i`-th child was answered. -/
def answered (env : Env) (limit : Int) (i : Nat) : State T → List Int → Nat
  | _, [] => 0
  | s, ref :: downs =>
      match handleDown env limit s ref with
      | none => 0
      | some t =>
          (if s.entries[i]?.map (·.ref) = some ref then 1 else 0) + answered env limit i t downs

theorem getElem?_other {i : Nat} (x y : Entry T) (h : i ≠ before.length) :
    (before ++ x :: after)[i]? = (before ++ y :: after)[i]? := by
  rcases Nat.lt_or_ge i before.length with hlt | hge
  · rw [List.getElem?_append_left hlt, List.getElem?_append_left hlt]
  · rw [List.getElem?_append_right hge, List.getElem?_append_right hge]
    obtain ⟨j, hj⟩ : ∃ j, i - before.length = j + 1 := ⟨i - before.length - 1, by omega⟩
    rw [hj]
    rfl

theorem getElem?_middle (x : Entry T) : (before ++ x :: after)[before.length]? = some x := by
  rw [List.getElem?_append_right (Nat.le_refl _), Nat.sub_self]
  rfl

/-- Two positions with one reference are one. -/
theorem Kept.position (hkept : Kept children limit s) {i j : Nat} {x y : Entry T}
    (hx : s.entries[i]? = some x) (hy : s.entries[j]? = some y) (h : x.ref = y.ref) : i = j := by
  have hi : (refs s.entries)[i]? = some x.ref := by rw [refs, List.getElem?_map, hx]; rfl
  have hj : (refs s.entries)[j]? = some y.ref := by rw [refs, List.getElem?_map, hy]; rfl
  exact (List.getElem?_inj (List.getElem?_eq_some_iff.mp hi).1 hkept.nodup).mp (by rw [hi, hj, h])

/-- The counter of an entry goes up with each message that is answered for it. -/
theorem restarts_eq_answered
    (hkept : s.world.calls < 2 ^ 32 → Kept children limit s) (h : run env limit s downs = some t)
    (hcalls : t.world.calls < 2 ^ 32) {i : Nat} {e' : Entry T} (he : s.entries[i]? = some e)
    (he' : t.entries[i]? = some e') : e'.restarts = e.restarts + answered env limit i s downs := by
  induction downs generalizing s e with
  | nil =>
      obtain rfl := Option.some.inj h
      obtain rfl := Option.some.inj (he.symm.trans he')
      simp [answered]
  | cons ref downs ih =>
      obtain ⟨u, hu, hrest⟩ := Option.bind_eq_some_iff.mp h
      have hle := handleDown_calls hu
      have hle' := run_calls hrest
      have hnow := hkept (by omega)
      have hlater : u.world.calls < 2 ^ 32 → Kept children limit u := fun hc =>
        handleDown_kept hnow hc hu
      rw [answered, hu]
      simp only [he, Option.map_some, Option.some.injEq]
      rcases handleDown_some hnow (by omega) hu with ⟨hmem, rfl⟩ | ⟨before, x, after, hs, hx, -, rfl⟩
      · have hne : e.ref ≠ ref := by
          rintro rfl
          exact hmem (List.mem_map_of_mem (List.mem_of_getElem? he))
        rw [if_neg hne, ih hlater hrest he]
        omega
      · have hxs : s.entries[before.length]? = some x := by rw [hs, getElem?_middle]
        by_cases hi : i = before.length
        · subst hi
          obtain rfl := Option.some.inj (he.symm.trans hxs)
          rw [if_pos hx, ih hlater hrest (getElem?_middle _)]
          dsimp only
          omega
        · have hne : e.ref ≠ ref := fun h => hi (hnow.position he hxs (h.trans hx.symm))
          rw [if_neg hne, ih hlater hrest (by rw [← he, hs]; exact getElem?_other _ _ hi)]
          omega

/-- A reference that no entry has any more, no entry gets again. -/
theorem stale_stays {k : Nat}
    (hkept : s.world.calls < 2 ^ 32 → Kept children limit s) (h : run env limit s downs = some t)
    (hcalls : t.world.calls < 2 ^ 32) (hk : k ≤ s.world.calls) (hstale : refOf k ∉ refs s.entries) :
    refOf k ∉ refs t.entries := by
  refine ((Lib.Run.ofFn_iff.mpr h).invariant (P := fun u => u.world.calls < 2 ^ 32 →
    Kept children limit u ∧ k ≤ u.world.calls ∧ refOf k ∉ refs u.entries) ?_
    (fun hc => ⟨hkept hc, hk, hstale⟩) hcalls).2.2
  intro u i v hu hstep hv
  have hle := handleDown_calls hstep
  obtain ⟨hnow, hku, hno⟩ := hu (by omega)
  refine ⟨handleDown_kept hnow hv hstep, by omega, ?_⟩
  rcases handleDown_some hnow (by omega) hstep with ⟨-, rfl⟩ | ⟨before, e, after, hs, -, -, rfl⟩
  · exact hno
  · rw [hs] at hno
    simp only [refs, List.map_append, List.map_cons, List.mem_append, List.mem_cons, not_or] at hno ⊢
    exact ⟨hno.1, (refOf_next_ne hv hku).symm, hno.2.2⟩

/-- **One for one.**  After any messages each child has its entry, in order, with the number of
its restarts.  The next message is passed over if no entry has its reference; otherwise the
child of the entry is started again in its place, the others left as they are, or the
supervisor ends, if the child has used up its restarts.  A reference no entry has is no
entry's later on. -/
theorem one_for_one (env : Env) (w : World) (children : List T) (limit : Int) (downs : List Int)
    (s : State T) (hrun : run env limit (start env w children) downs = some s)
    (hcalls : s.world.calls < 2 ^ 32) :
    s.entries.map (·.startFn) = children ∧
    (∀ i e, s.entries[i]? = some e →
      e.restarts = (answered env limit i (start env w children) downs : Int) ∧
      e.restarts ≤ max limit 0) ∧
    (∀ ref, ref ∉ refs s.entries → handleDown env limit s ref = some s) ∧
    (∀ before e after, s.entries = before ++ e :: after →
      handleDown env limit s e.ref =
        if e.restarts < limit then
          some ⟨before ++ ⟨e.startFn, (env s.world.starts).pid, refOf (s.world.next env).calls,
            e.restarts + 1⟩ :: after, s.world.next env⟩
        else none) ∧
    ∀ more t, run env limit s more = some t → t.world.calls < 2 ^ 32 →
      ∀ k ≤ s.world.calls, refOf k ∉ refs s.entries → refOf k ∉ refs t.entries := by
  have hstart : (start env w children).world.calls < 2 ^ 32 →
      Kept children limit (start env w children) := start_kept children limit
  have hkept := run_kept hstart hrun hcalls
  refine ⟨hkept.children, ?_, fun ref => handleDown_unknown, fun before e after =>
    handleDown_known hkept hcalls, fun more t ht hc k => stale_stays (fun _ => hkept) ht hc⟩
  intro i e he
  refine ⟨?_, (hkept.restarts e (List.mem_of_getElem? he)).2.1⟩
  have hlen : (start env w children).entries.length = s.entries.length := by
    have hfirst := (startAll_kept env w children).2.1
    have hnow := hkept.children
    rw [← hfirst] at hnow
    have := congrArg List.length hnow
    rw [List.length_map, List.length_map] at this
    exact this.symm
  obtain ⟨hi, -⟩ := List.getElem?_eq_some_iff.mp he
  obtain ⟨e₀, he₀⟩ : ∃ e₀, (start env w children).entries[i]? = some e₀ :=
    ⟨_, List.getElem?_eq_getElem (hlen ▸ hi)⟩
  have hzero := ((startAll_kept env w children).2.2.1 e₀ (List.mem_of_getElem? he₀)).1
  rw [restarts_eq_answered hstart hrun hcalls he₀ he, hzero, Int.zero_add]

/-- Starts that no other monitor call comes between. -/
def quiet : Env := fun n => ⟨n + 1, 0⟩

theorem one_for_one_quiet :
    handleDown quiet 1 (⟨[⟨0, 1, 1, 0⟩, ⟨1, 3, 3, 1⟩], ⟨3, 3⟩⟩ : State Nat) 3 = none :=
  (one_for_one quiet ⟨0, 0⟩ [0, 1] 1 [7, 2, 2] ⟨[⟨0, 1, 1, 0⟩, ⟨1, 3, 3, 1⟩], ⟨3, 3⟩⟩
    (by decide +kernel) (by decide)).2.2.2.1 [⟨0, 1, 1, 0⟩] ⟨1, 3, 3, 1⟩ [] rfl

/-- Others fill the numbers between the second start and the third. -/
def crowded : Env := fun n => ⟨n + 1, if n = 2 then 2 ^ 32 - 2 else 0⟩

/-- **Numbers that come again.**  The second child is started again and gets the reference of
the first; when it goes down the next time, the first is started in its place. -/
theorem wrong_child_restarted :
    run crowded 5 (start crowded ⟨0, 0⟩ [0, 1]) [2] =
      some ⟨[⟨0, 1, 1, 0⟩, ⟨1, 3, 1, 1⟩], ⟨2 ^ 32 + 1, 3⟩⟩ ∧
    run crowded 5 (start crowded ⟨0, 0⟩ [0, 1]) [2, 1] =
      some ⟨[⟨0, 4, 2, 1⟩, ⟨1, 3, 1, 1⟩], ⟨2 ^ 32 + 2, 4⟩⟩ := by
  decide +kernel

end TinyActor.Stdlib.Supervisor
