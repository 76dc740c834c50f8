/-
Where an actor is preempted does not show in what it computes.

A run cut into slices is compared with the run without a break that has completed
as many instructions.  The two agree on everything but one slot: a C function that
asks to be called again leaves its last argument in the first slot above the stack,
where the run without a break has not written yet.  Executing the call again writes
the same value there before anything can read it, so the difference never reaches a
register, a live slot or the heap.
-/
import TinyActor.Vm.Preempt

namespace TinyActor.Vm

open TinyActor.Lib

variable {F W : Type}

/-! ### The pending argument -/

/-- The state with the accumulator written in the first slot above the stack. -/
def State.flushed (s : State F W) : State F W :=
  { s with slots := Function.update s.slots s.sp s.acc }

theorem State.flushed_push (s : State F W) :
    s.flushed.push s.flushed.acc = s.push s.acc := by
  simp only [State.flushed, State.push, Function.update_idem]

theorem State.flushed_flushed (s : State F W) : s.flushed.flushed = s.flushed := by
  simp only [State.flushed, Function.update_idem]

/-- Writing above the stack leaves the stack alone. -/
theorem State.flushed_stack (s : State F W) : s.flushed.stack = s.stack := by
  unfold State.stack State.block State.flushed
  apply List.map_congr_left
  intro k hk
  have hlt : k < s.sp := List.mem_range.mp hk
  exact Function.update_of_ne (by omega) _ _

/-- A call depends on the slot above the stack only after it has written it. -/
theorem callCommon_flushed (host : Host F W) (img : Image F) (s : State F W) (n : Nat)
    (k : State F W → Nat → Nat → Effect F W) :
    callCommon host img s.flushed n k = callCommon host img s n k := by
  unfold callCommon
  rw [State.flushed_push]

section

variable [Double F] [DecidableEq F]

/-- A call that reaches a C function does the same with its last argument already in
place. -/
theorem step_flushed (host : Host F W) (img : Image F) (s : State F W)
    (h : reachesNative host img s) : Vm.step host img s.flushed = Vm.step host img s := by
  have hpc : s.flushed.pc = s.pc := rfl
  unfold Vm.step
  rw [hpc]
  unfold reachesNative at h
  split at h
  · next n hf => rw [hf]; exact callCommon_flushed host img s n _
  · next n hf => rw [hf]; exact callCommon_flushed host img s n _
  · cases h

end

/-! ### Publishing and restoring -/

/-- What a `TICK` publishes is what the next slice starts from. -/
theorem restore_tickPublish (s : State F W) : (tickPublish s).restore = s := rfl

/-! ### The comparison -/

/-- A state of the sliced run that stands for a state of the run without a break: the
same, or waiting to execute a native call again. -/
def StandsFor (host : Host F W) (img : Image F) (s t : State F W) : Prop :=
  s = t ∨ (s = t.flushed ∧ reachesNative host img t)

/-- The sliced run `m` has come as far as the run without a break `c`. -/
structure Follows (host : Host F W) (img : Image F) (m : Machine F W) (c : Course F W) :
    Prop where
  trace : m.trace = c.trace
  ended : m.ended = c.ended
  state : StandsFor host img m.state c.state

namespace StandsFor

variable {host : Host F W} {img : Image F} {s t : State F W}

/-- What an observer of the registers, the live stack, the heap and the world sees. -/
theorem observed (h : StandsFor host img s t) :
    s.acc = t.acc ∧ s.pc = t.pc ∧ s.base = t.base ∧ s.cbase = t.cbase ∧
      s.stack = t.stack ∧ s.heap = t.heap ∧ s.world = t.world := by
  rcases h with h | ⟨h, _⟩
  · subst h
    exact ⟨rfl, rfl, rfl, rfl, rfl, rfl, rfl⟩
  · subst h
    exact ⟨rfl, rfl, rfl, rfl, t.flushed_stack, rfl, rfl⟩

theorem step_eq [Double F] [DecidableEq F] (h : StandsFor host img s t) :
    Vm.step host img s = Vm.step host img t := by
  rcases h with h | ⟨h, hn⟩
  · rw [h]
  · rw [h, step_flushed host img t hn]

/-- Asking to be called again keeps a state standing for what it stood for. -/
theorem ask (h : StandsFor host img s t) (hn : reachesNative host img s) :
    StandsFor host img s.flushed t := by
  rcases h with h | ⟨h, hn'⟩
  · subst h
    exact .inr ⟨rfl, hn⟩
  · subst h
    exact .inr ⟨t.flushed_flushed, hn'⟩

end StandsFor

section

variable [Double F] [DecidableEq F]
variable {host : Host F W} {img : Image F}

/-- The instructions an event completes. -/
def Event.completed : Event → Nat
  | .step => 1
  | _ => 0

/-- The instructions completed in a run. -/
def completed (es : List Event) : Nat := (es.map Event.completed).sum

namespace Follows

variable {m m' : Machine F W} {c : Course F W}

/-- Starting a slice changes nothing. -/
theorem resume (h : Follows host img m c) {b : Int} (hm : m.on host img (.resume b) = some m') :
    Follows host img m' c := by
  obtain ⟨phase, trace⟩ := m
  cases phase with
  | parked p =>
      simp only [Machine.on, Option.some.injEq] at hm
      subst hm
      exact ⟨h.trace, h.ended, h.state⟩
  | running p s b => cases hm
  | halted e s => cases hm

/-- A function that asks to be called again changes nothing. -/
theorem ask (h : Follows host img m c) (hm : m.on host img .ask = some m') :
    Follows host img m' c := by
  obtain ⟨phase, trace⟩ := m
  cases phase with
  | parked p => cases hm
  | halted e s => cases hm
  | running p s b =>
      simp only [Machine.on] at hm
      split at hm
      · next hn =>
          cases hm
          refine ⟨h.trace, h.ended, ?_⟩
          have hs : StandsFor host img s c.state := h.state
          exact hs.ask hn
      · cases hm

/-- An instruction of the sliced run is the next instruction of the run without a
break, whether or not the slice ends with it. -/
theorem step (h : Follows host img m c) (hm : m.on host img .step = some m') :
    Follows host img m' (c.advance host img) := by
  obtain ⟨phase, trace⟩ := m
  obtain ⟨t, ctrace, ended⟩ := c
  cases phase with
  | parked p => cases hm
  | halted e s => cases hm
  | running p s b =>
      have hended : none = ended := h.ended
      have htrace : trace = ctrace := h.trace
      have hs : StandsFor host img s t := h.state
      subst hended htrace
      simp only [Machine.on, hs.step_eq] at hm
      cases heff : Vm.step host img t with
      | next s' =>
          simp only [heff, Option.some.injEq] at hm
          subst hm
          simp only [Course.advance, heff]
          exact ⟨rfl, rfl, .inl rfl⟩
      | tick s' =>
          simp only [heff] at hm
          simp only [Course.advance, heff]
          split at hm
          · cases hm
            exact ⟨rfl, rfl, .inl (restore_tickPublish s')⟩
          · cases hm
            exact ⟨rfl, rfl, .inl rfl⟩
      | halt e s' =>
          simp only [heff, Option.some.injEq] at hm
          subst hm
          simp only [Course.advance, heff]
          exact ⟨rfl, rfl, .inl rfl⟩

/-- A run takes a sliced run that has come `n` instructions far to one that has come
as much further as it completed instructions. -/
theorem run {s : State F W} {es : List Event} (hr : Run (ofFn (Machine.on host img)) m es m')
    {n : Nat} (h : Follows host img m (uninterrupted host img s n)) :
    Follows host img m' (uninterrupted host img s (n + completed es)) := by
  induction hr generalizing n with
  | nil m => exact h
  | @cons m m₁ m' e es hs _ ih =>
      have hsum : n + completed (e :: es) = n + e.completed + completed es := by
        simp [completed, Nat.add_assoc]
      rw [hsum]
      refine ih ?_
      cases e with
      | resume b => exact h.resume hs
      | ask => exact h.ask hs
      | step => exact h.step hs

end Follows

/-- **Preemption is invisible.**  Take any actor, any program and host, and any run of
the actor cut into slices, with any budget for each slice and any native calls
executed again any number of times.  It has left the same values in the accumulator,
in the same order, as the run without a break has after as many instructions; the
two have ended in the same way or not at all; and they have the same registers, the
same stack, the same heap graph and the same world. -/
theorem preemption_invisible (host : Host F W) (img : Image F) (p : Proc F W)
    (es : List Event) (m : Machine F W)
    (hr : Run (ofFn (Machine.on host img)) ⟨.parked p, []⟩ es m) :
    let c := uninterrupted host img p.restore (completed es)
    m.trace = c.trace ∧ m.ended = c.ended ∧
      m.state.acc = c.state.acc ∧ m.state.stack = c.state.stack ∧
      m.state.heap = c.state.heap ∧ m.state.world = c.state.world ∧
      m.state.pc = c.state.pc ∧ m.state.base = c.state.base ∧ m.state.cbase = c.state.cbase := by
  intro c
  have h0 : Follows host img ⟨.parked p, []⟩ (uninterrupted host img p.restore 0) :=
    ⟨rfl, rfl, .inl rfl⟩
  have h := h0.run hr
  rw [Nat.zero_add] at h
  obtain ⟨hacc, hpc, hbase, hcbase, hstack, hheap, hworld⟩ := h.state.observed
  exact ⟨h.trace, h.ended, hacc, hstack, hheap, hworld, hpc, hbase, hcbase⟩

end

/-- A host with one function, which counts its calls and gives back its argument. -/
def countingHost : Host Int Nat where
  cfuncs := [⟨1, fun w heap args => .value (args.headD .nil) heap (w + 1)⟩]
  builtin _ _ s := .ok s

/-- A main function that calls it on five, jumps and returns. -/
def callingImage : Image Int where
  words := [27, 0, 31, -1, 37, 5, 22, 2, 21, 10, 24, 0]
  consts := []
  fnEntry := [0]
  fnArgs := [0]

/-- The actor as `proc_frame_init` leaves it. -/
def freshProc : Proc Int Nat where
  slots _ := .nil
  heap := []
  world := 0
  acc := .nil
  hasAcc := false
  pc := 0
  base := 0
  cbase := 0
  sp := 4

/-- The function asks twice to be called again, and the jump ends a slice. -/
def slicedRun : List Event :=
  [.resume 1, .step, .step, .step, .ask, .resume 1, .ask, .resume 1, .step, .step,
    .resume 1000, .step]

theorem preemption_invisible_sliced :
    ∃ m, Run (ofFn (Machine.on countingHost callingImage)) ⟨.parked freshProc, []⟩ slicedRun m ∧
      m.ended = some .returned ∧ m.state.acc = valInt 5 ∧ m.state.world = 1 ∧
      m.trace = (uninterrupted countingHost callingImage freshProc.restore 6).trace := by
  obtain ⟨m, hm, hp⟩ := (Option.any_eq_true _ _).mp
    (by decide : (Lib.exec (Machine.on countingHost callingImage) ⟨.parked freshProc, []⟩ slicedRun).any
      (fun m => m.ended = some .returned ∧ m.state.acc = valInt 5 ∧ m.state.world = 1) = true)
  have hr := Run.ofFn_iff.mpr hm
  obtain ⟨hended, hacc, hworld⟩ := of_decide_eq_true hp
  exact ⟨m, hr, hended, hacc, hworld,
    (preemption_invisible countingHost callingImage freshProc slicedRun m hr).1⟩

end TinyActor.Vm
