/-
The timer table, alone and among actors that use it.

One pass is a matter of order.  The due timers are a prefix of the list, and a timer
that goes back gets a deadline after the moment the pass works with, so it lands
behind what is still due: the prefix only shrinks, and the pass ends when it is gone.

Among actors the question is where a timer is.  Every id given out is in exactly one of
three places: on the list, in the hands of the pass, or among the freed records.  Seen from one
timer, every section is a step of its life or leaves it alone: `Next` are the steps, `Lives`
says that all timers lead such lives, and what the log can say of a timer is a matter of its
life only.  One reader does not look for its timer in any of the places: a registration reads
the id it returns from its own pointer, with the lock released, and nothing keeps the record
from being freed by then.
-/
import TinyActor.Lib.Run
import TinyActor.Runtime.Timer

namespace TinyActor.Runtime.Timers

open TinyActor.Lib

variable {Msg : Type}

/-! ### The list -/

def Sorted (ts : List (Timer Msg)) : Prop := ts.Pairwise fun a b => a.deadlineMs ≤ b.deadlineMs

variable {ts : List (Timer Msg)} {s : TimerState Msg} {t : Timer Msg}

theorem timerInsert_append {l : List (Timer Msg)} (h : ∀ x ∈ l, x.deadlineMs ≤ t.deadlineMs)
    (r : List (Timer Msg)) : timerInsert t (l ++ r) = l ++ timerInsert t r := by
  induction l with
  | nil => rfl
  | cons x l ih =>
      obtain ⟨hx, hl⟩ := List.forall_mem_cons.mp h
      rw [List.cons_append, timerInsert, if_pos hx, ih hl, List.cons_append]

/-- A timer goes behind those that are due no later and before the others. -/
theorem timerInsert_split (t : Timer Msg) (hs : Sorted ts) :
    ∃ l r, ts = l ++ r ∧ timerInsert t ts = l ++ t :: r ∧
      (∀ x ∈ l, x.deadlineMs ≤ t.deadlineMs) ∧ ∀ x ∈ r, t.deadlineMs < x.deadlineMs := by
  induction ts with
  | nil => exact ⟨[], [], rfl, rfl, by simp, by simp⟩
  | cons x ts ih =>
      obtain ⟨hx, hts⟩ := List.pairwise_cons.mp hs
      by_cases hle : x.deadlineMs ≤ t.deadlineMs
      · obtain ⟨l, r, rfl, heq, hl, hr⟩ := ih hts
        refine ⟨x :: l, r, rfl, ?_, List.forall_mem_cons.mpr ⟨hle, hl⟩, hr⟩
        rw [timerInsert, if_pos hle, heq, List.cons_append]
      · refine ⟨[], x :: ts, rfl, by rw [timerInsert, if_neg hle]; rfl, by simp, fun y hy => ?_⟩
        rcases List.mem_cons.mp hy with rfl | hy
        · omega
        · have := hx y hy
          omega

theorem timerInsert_perm (t : Timer Msg) (ts : List (Timer Msg)) :
    (timerInsert t ts).Perm (t :: ts) := by
  induction ts with
  | nil => exact .refl _
  | cons x ts ih =>
      unfold timerInsert
      split
      · exact (ih.cons x).trans (.swap t x ts)
      · exact .refl _

theorem mem_timerInsert {x : Timer Msg} : x ∈ timerInsert t ts ↔ x = t ∨ x ∈ ts := by
  rw [(timerInsert_perm t ts).mem_iff, List.mem_cons]

/-! ### One pass -/

/-- The pass over a list whose due timers are `due`. -/
theorem timerFireExpired_eq (dead : Timer Msg → Bool) (now : Int) (due rest : List (Timer Msg))
    {fuel : Nat} (nextId : Nat) (hdue : ∀ t ∈ due, t.deadlineMs ≤ now)
    (hrest : ∀ t ∈ rest, now < t.deadlineMs) (hfuel : due.length < fuel) :
    timerFireExpired dead now fuel ⟨due ++ rest, nextId, none⟩ =
      some (due.filter (!dead ·), ⟨(due.filter fun t => t.rearms (dead t)).foldl
        (fun ts t => timerInsert (t.rearmed now) ts) rest, nextId, none⟩) := by
  induction due generalizing rest fuel with
  | nil =>
      obtain ⟨fuel, rfl⟩ := Nat.exists_eq_succ_of_ne_zero (Nat.ne_zero_of_lt hfuel)
      unfold timerFireExpired popDue
      cases rest with
      | nil => rfl
      | cons x rest =>
          have := hrest x List.mem_cons_self
          simp only [List.nil_append]
          rw [if_pos (by omega)]
          rfl
  | cons t due ih =>
      obtain ⟨fuel, rfl⟩ := Nat.exists_eq_succ_of_ne_zero (Nat.ne_zero_of_lt hfuel)
      obtain ⟨ht, hdue⟩ := List.forall_mem_cons.mp hdue
      have hfuel' : due.length < fuel := by
        rw [List.length_cons] at hfuel
        omega
      unfold timerFireExpired popDue
      simp only [List.cons_append]
      rw [if_neg (by omega)]
      dsimp only [settle]
      cases hr : t.rearms (dead t) with
      | true =>
          have hpos : 0 < t.intervalMs := by
            unfold Timer.rearms at hr
            simp only [Bool.and_eq_true, decide_eq_true_eq] at hr
            exact hr.1.1
          have hlater : now < (t.rearmed now).deadlineMs := by
            show now < now + t.intervalMs
            omega
          rw [if_pos rfl, timerInsert_append (t := t.rearmed now)
            (fun x hx => by have := hdue x hx; omega), ih _ hdue ?_ hfuel']
          · simp only [Option.map_some, List.filter_cons, hr, if_true, List.foldl_cons]
            cases dead t <;> rfl
          · intro x hx
            rcases List.mem_cons.mp ((timerInsert_perm _ _).mem_iff.mp hx) with rfl | hx
            · exact hlater
            · exact hrest x hx
      | false =>
          rw [if_neg Bool.false_ne_true, ih _ hdue hrest hfuel']
          simp only [Option.map_some, List.filter_cons, hr, Bool.false_eq_true, if_false]
          cases dead t <;> rfl

/-- A sorted list is its due timers and then the others. -/
theorem Sorted.due (hs : Sorted ts) (now : Int) :
    ts = (ts.filter fun t => t.deadlineMs ≤ now) ++ ts.filter fun t => now < t.deadlineMs := by
  induction ts with
  | nil => rfl
  | cons t ts ih =>
      obtain ⟨ht, hts⟩ := List.pairwise_cons.mp hs
      by_cases hle : t.deadlineMs ≤ now
      · rw [List.filter_cons_of_pos (by simpa using hle),
          List.filter_cons_of_neg (by simpa using hle), List.cons_append, ← ih hts]
      · have hall : ∀ x ∈ t :: ts, now < x.deadlineMs := List.forall_mem_cons.mpr
          ⟨by omega, fun x hx => by have := ht x hx; omega⟩
        rw [List.filter_eq_nil_iff.mpr fun x hx => by simpa using hall x hx, List.nil_append,
          List.filter_eq_self.mpr fun x hx => by simpa using hall x hx]

/-! ### The order in which timers were put into the table -/

/-- `b` was put into the table after `a` last was. -/
def PutBefore (puts : List Nat) (a b : Nat) : Prop :=
  ∃ l r, puts = l ++ b :: r ∧ a ∈ l ∧ a ∉ b :: r

/-- By deadline, and timers of one deadline in the order in which they were last put into the
table. -/
def Ordered (puts : List Nat) (ts : List (Timer Msg)) : Prop :=
  ts.Pairwise fun a b => a.deadlineMs < b.deadlineMs ∨
    a.deadlineMs = b.deadlineMs ∧ PutBefore puts a.id b.id

variable {puts : List Nat} {a b n : Nat}

theorem PutBefore.append (h : PutBefore puts a b) (hn : a ≠ n) : PutBefore (puts ++ [n]) a b := by
  obtain ⟨l, r, rfl, ha, hno⟩ := h
  refine ⟨l, r ++ [n], by rw [List.append_assoc, List.cons_append], ha, ?_⟩
  rw [← List.cons_append, List.mem_append, List.mem_singleton]
  exact not_or.mpr ⟨hno, hn⟩

theorem PutBefore.last (ha : a ∈ puts) (hn : a ≠ n) : PutBefore (puts ++ [n]) a n :=
  ⟨puts, [], rfl, ha, by rwa [List.mem_singleton]⟩

theorem Ordered.sorted (h : Ordered puts ts) : Sorted ts := by
  refine h.imp fun hab => ?_
  rcases hab with hlt | ⟨heq, -⟩
  · exact Int.le_of_lt hlt
  · exact Int.le_of_eq heq

/-- A list of timers, each put into the table once more than it was taken out. -/
structure Listed (puts : List Nat) (ts : List (Timer Msg)) : Prop where
  ordered : Ordered puts ts
  put : ∀ t ∈ ts, t.id ∈ puts
  nodup : (ts.map Timer.id).Nodup

theorem Listed.sublist {us : List (Timer Msg)} (h : Listed puts ts) (hsub : us.Sublist ts) :
    Listed puts us :=
  ⟨h.ordered.sublist hsub, fun t ht => h.put t (hsub.subset ht), h.nodup.sublist (hsub.map _)⟩

theorem Listed.insert (h : Listed puts ts) (hnew : t.id ∉ ts.map Timer.id) :
    Listed (puts ++ [t.id]) (timerInsert t ts) := by
  have hperm := (timerInsert_perm t ts).map Timer.id
  have hne : ∀ x ∈ ts, x.id ≠ t.id := fun x hx heq => hnew (heq ▸ List.mem_map_of_mem hx)
  refine ⟨?_, fun x hx => ?_, hperm.nodup_iff.mpr (List.nodup_cons.mpr ⟨hnew, h.nodup⟩)⟩
  · have hold : Ordered (puts ++ [t.id]) ts := by
      refine List.Pairwise.imp_of_mem ?_ h.ordered
      intro x y hx _ hxy
      exact hxy.imp_right fun heq => ⟨heq.1, heq.2.append (hne x hx)⟩
    obtain ⟨l, r, hsplit, heq, hl, hr⟩ := timerInsert_split t h.ordered.sorted
    rw [hsplit] at hold
    obtain ⟨hl', hr', hlr⟩ := List.pairwise_append.mp hold
    rw [heq]
    refine List.pairwise_append.mpr
      ⟨hl', List.pairwise_cons.mpr ⟨fun x hx => .inl (hr x hx), hr'⟩, fun x hx y hy => ?_⟩
    rcases List.mem_cons.mp hy with rfl | hy
    · -- Of one deadline, the new timer is the one that was put in last.
      have hmem : x ∈ ts := hsplit ▸ List.mem_append_left _ hx
      rcases Int.lt_or_eq_of_le (hl x hx) with hlt | heq
      · exact .inl hlt
      · exact .inr ⟨heq, .last (h.put x hmem) (hne x hmem)⟩
    · exact hlr x hx y hy
  · rcases mem_timerInsert.mp hx with rfl | hx
    · exact List.mem_append_right _ (List.mem_singleton_self _)
    · exact List.mem_append_left _ (h.put x hx)

/-- The timers that go back, one after another. -/
def rearmAll (now : Int) (again rest : List (Timer Msg)) : List (Timer Msg) :=
  again.foldl (fun ts t => timerInsert (t.rearmed now) ts) rest

theorem rearmAll_perm (now : Int) (again rest : List (Timer Msg)) :
    (rearmAll now again rest).Perm (rest ++ again.map (Timer.rearmed now)) := by
  induction again generalizing rest with
  | nil => rw [List.map_nil, List.append_nil]; exact .refl _
  | cons t again ih =>
      rw [List.map_cons]
      exact (ih _).trans (((timerInsert_perm _ _).append_right _).trans List.perm_middle.symm)

theorem Listed.rearmAll {again rest : List (Timer Msg)} (h : Listed puts rest) (now : Int)
    (hnodup : ((again ++ rest).map Timer.id).Nodup) :
    Listed (puts ++ again.map Timer.id) (rearmAll now again rest) := by
  induction again generalizing puts rest with
  | nil => rwa [List.map_nil, List.append_nil]
  | cons t again ih =>
      rw [List.cons_append, List.map_cons, List.nodup_cons] at hnodup
      obtain ⟨hnew, hnodup⟩ := hnodup
      have hrest : t.id ∉ rest.map Timer.id := fun hmem =>
        hnew (by rw [List.map_append]; exact List.mem_append_right _ hmem)
      have hperm : (again ++ timerInsert (t.rearmed now) rest).Perm (t.rearmed now :: (again ++ rest)) :=
        ((timerInsert_perm _ _).append_left again).trans List.perm_middle
      have hins : Listed (puts ++ [t.id]) (timerInsert (t.rearmed now) rest) :=
        h.insert (t := t.rearmed now) hrest
      have := ih hins ((hperm.map Timer.id).nodup_iff.mpr (List.nodup_cons.mpr ⟨hnew, hnodup⟩))
      rwa [List.append_assoc, List.singleton_append, ← List.map_cons] at this

/-- What a table keeps. -/
structure TableOk (puts : List Nat) (s : TimerState Msg) : Prop where
  listed : Listed puts s.head
  numbered : ∀ t ∈ s.head, t.id ≤ s.nextId
  /-- Only the pass has timers that were cancelled. -/
  unflagged : ∀ t ∈ s.head, t.cancelRequested = false
  quiet : s.firing = none

/-- The timers that are due, and those of them that go back. -/
def TimerState.due (s : TimerState Msg) (now : Int) : List (Timer Msg) :=
  s.head.filter fun t => t.deadlineMs ≤ now

def TimerState.again (s : TimerState Msg) (dead : Timer Msg → Bool) (now : Int) : List (Timer Msg) :=
  (s.due now).filter fun t => 0 < t.intervalMs && !dead t

def TimerState.notDue (s : TimerState Msg) (now : Int) : List (Timer Msg) :=
  s.head.filter fun t => now < t.deadlineMs

theorem TableOk.register (h : TableOk puts s) (now : Int) (pid : Nat) (ms interval : Int) (msg : Msg) :
    TableOk (puts ++ [s.nextId + 1]) (timerRegister now pid ms interval msg s) := by
  have hnew : s.nextId + 1 ∉ s.head.map Timer.id := by
    intro hmem
    obtain ⟨t, ht, hid⟩ := List.mem_map.mp hmem
    have := h.numbered t ht
    omega
  refine ⟨h.listed.insert (t := ⟨s.nextId + 1, pid, interval, now + ms, msg, false⟩) hnew,
    fun t ht => ?_, fun t ht => ?_, h.quiet⟩
  · rcases mem_timerInsert.mp ht with rfl | ht
    · exact Nat.le_refl _
    · exact Nat.le_succ_of_le (h.numbered t ht)
  · rcases mem_timerInsert.mp ht with rfl | ht
    · rfl
    · exact h.unflagged t ht

theorem TableOk.fires (ok : TableOk puts s) (dead : Timer Msg → Bool) (now : Int) :
    timerFireExpired dead now (s.head.length + 1) s = some ((s.due now).filter (!dead ·),
        { s with head := rearmAll now (s.again dead now) (s.notDue now) }) ∧
      TableOk (puts ++ (s.again dead now).map Timer.id)
        { s with head := rearmAll now (s.again dead now) (s.notDue now) } := by
  have hfire := timerFireExpired_eq dead now (s.due now) (s.notDue now) s.nextId
    (by simp [TimerState.due]) (by simp [TimerState.notDue])
    (Nat.lt_succ_of_le (List.length_filter_le _ s.head))
  have hparts : s.head = s.due now ++ s.notDue now := ok.listed.ordered.sorted.due now
  have hrearms : ((s.due now).filter fun t => t.rearms (dead t)) = s.again dead now := by
    refine List.filter_congr fun t ht => ?_
    simp [Timer.rearms, ok.unflagged t (List.mem_of_mem_filter ht)]
  rw [← hparts, ← ok.quiet, hrearms] at hfire
  have hsub : (s.again dead now ++ s.notDue now).Sublist s.head := by
    rw [hparts]
    exact List.filter_sublist.append_right _
  have hmem : ∀ t ∈ rearmAll now (s.again dead now) (s.notDue now), ∃ x ∈ s.head, t.id = x.id ∧
      t.cancelRequested = x.cancelRequested := by
    intro t ht
    rcases List.mem_append.mp ((rearmAll_perm now _ _).mem_iff.mp ht) with ht | ht
    · exact ⟨t, List.mem_of_mem_filter ht, rfl, rfl⟩
    · obtain ⟨x, hx, rfl⟩ := List.mem_map.mp ht
      exact ⟨x, hsub.subset (List.mem_append_left _ hx), rfl, rfl⟩
  refine ⟨hfire, (ok.listed.sublist List.filter_sublist).rearmAll now (ok.listed.nodup.sublist (hsub.map _)),
    fun t ht => ?_, fun t ht => ?_, ok.quiet⟩
  · obtain ⟨x, hx, hid, -⟩ := hmem t ht
    exact hid ▸ ok.numbered x hx
  · obtain ⟨x, hx, -, hflag⟩ := hmem t ht
    exact hflag.trans (ok.unflagged x hx)

/-- The tables there are, when nothing happens during a pass, with the ids that were put into
them, in order: by a registration, or by the pass that put a periodic timer back. -/
inductive Table : List Nat → TimerState Msg → Prop
  | empty : Table [] ⟨[], 0, none⟩
  | send {puts : List Nat} {s : TimerState Msg} (now : Int) (request : Request Msg) :
      Table puts s → Table (puts ++ [s.nextId + 1]) (timerCSend now s request)
  | cancel {puts : List Nat} {s : TimerState Msg} (id : Int) :
      Table puts s → Table puts (timerCCancel id s).2
  | pass {puts : List Nat} {s s' : TimerState Msg} {ts : List (Timer Msg)} {dead : Timer Msg → Bool}
      {now : Int} : Table puts s → timerFireExpired dead now (s.head.length + 1) s = some (ts, s') →
      Table (puts ++ (s.again dead now).map Timer.id) s'

theorem Table.ok (h : Table puts s) : TableOk puts s := by
  induction h with
  | empty => exact ⟨⟨List.Pairwise.nil, by simp, List.nodup_nil⟩, by simp, by simp, rfl⟩
  | send now request _ ih =>
      cases request with
      | after pid ms msg => exact ih.register now pid _ _ msg
      | interval pid ms msg => exact ih.register now pid _ _ msg
  | @cancel puts s id _ ih =>
      unfold timerCCancel
      split
      · exact ih
      split
      · exact ⟨ih.listed.sublist List.eraseP_sublist,
          fun t ht => ih.numbered t (List.mem_of_mem_eraseP ht),
          fun t ht => ih.unflagged t (List.mem_of_mem_eraseP ht), ih.quiet⟩
      · rw [ih.quiet]
        exact ih
  | @pass puts s s' ts dead now _ hp ih =>
      obtain ⟨heq, ok⟩ := ih.fires dead now
      obtain ⟨-, rfl⟩ := Prod.mk.inj (Option.some.inj (heq.symm.trans hp))
      exact ok

/-- **One firing pass.**  It ends, and delivers the message of every due timer whose
target lives, once, in the order of the deadlines and within one deadline in the order in
which the timers were last put into the table.  The table it leaves is the timers that were
not due, into which the periodic ones of a living target have been put back one after
another, due one interval from now: it holds just these, in that same order. -/
theorem pass_fires_due_once {puts : List Nat} {s : TimerState Msg} (h : Table puts s)
    (dead : Timer Msg → Bool) (now : Int) :
    timerFireExpired dead now (s.head.length + 1) s = some ((s.due now).filter (!dead ·),
        { s with head := rearmAll now (s.again dead now) (s.notDue now) }) ∧
      (((s.due now).filter (!dead ·)).map Timer.id).Nodup ∧
      Ordered puts ((s.due now).filter (!dead ·)) ∧
      (rearmAll now (s.again dead now) (s.notDue now)).Perm
        (s.notDue now ++ (s.again dead now).map (Timer.rearmed now)) ∧
      Sorted (rearmAll now (s.again dead now) (s.notDue now)) ∧
      Ordered (puts ++ (s.again dead now).map Timer.id)
        (rearmAll now (s.again dead now) (s.notDue now)) := by
  obtain ⟨hfire, ok⟩ := h.ok.fires dead now
  have hfired : Listed puts ((s.due now).filter (!dead ·)) :=
    h.ok.listed.sublist (List.filter_sublist.trans List.filter_sublist)
  exact ⟨hfire, hfired.nodup, hfired.ordered, rearmAll_perm now _ _, ok.listed.ordered.sorted,
    ok.listed.ordered⟩

/-- A periodic timer and, after it, a one-shot for the time the first is due again. -/
def metronome : TimerState String :=
  timerCSend 0 (timerCSend 0 ⟨[], 0, none⟩ (.interval 1 10 "tick")) (.after 2 20 "once")

theorem pass_fires_due_once_metronome :
    timerFireExpired (fun _ => false) 10 3 metronome = some ([⟨1, 1, 10, 10, "tick", false⟩],
      ⟨[⟨2, 2, 0, 20, "once", false⟩, ⟨1, 1, 10, 20, "tick", false⟩], 2, none⟩) ∧
    Ordered [1, 2, 1] [(⟨2, 2, 0, 20, "once", false⟩ : Timer String), ⟨1, 1, 10, 20, "tick", false⟩] := by
  obtain ⟨hfire, -, -, -, -, hordered⟩ :=
    pass_fires_due_once (.send 0 (.after 2 20 "once") (.send 0 (.interval 1 10 "tick") .empty))
      (fun _ => false) 10
  exact ⟨hfire, hordered⟩

/-- The periodic timer was registered first; put back with the deadline of the other,
it is delivered after it. -/
theorem rearmed_behind_later_registration :
    ∃ s' s'' : TimerState String, metronome.head.map Timer.id = [1, 2] ∧
      timerFireExpired (fun _ => false) 10 3 metronome =
        some ([⟨1, 1, 10, 10, "tick", false⟩], s') ∧
      timerFireExpired (fun _ => false) 20 3 s' =
        some ([⟨2, 2, 0, 20, "once", false⟩, ⟨1, 1, 10, 20, "tick", false⟩], s'') :=
  ⟨_, _, rfl, rfl, rfl⟩

/-! ### Among actors -/

/-- The timer an event is about. -/
def Event.timer : Event → Nat
  | .registered n _ => n
  | .started n => n
  | .delivered n => n
  | .missed n => n
  | .cancelled n => n

/-- What is logged of one timer. -/
def about (n : Nat) (log : List Event) : List Event := log.filter fun e => e.timer = n

theorem mem_about {e : Event} (log : List Event) : e ∈ about e.timer log ↔ e ∈ log := by
  simp [about]

theorem count_about (e : Event) (log : List Event) : (about e.timer log).count e = log.count e :=
  List.count_filter (by simp)

theorem about_append {n : Nat} {es : List Event} (h : ∀ e ∈ es, e.timer = n) (log : List Event) :
    about n (log ++ es) = about n log ++ es := by
  rw [about, List.filter_append, List.filter_eq_self.mpr fun e he => decide_eq_true (h e he)]
  rfl

theorem about_append_other {n : Nat} {es : List Event} (h : ∀ e ∈ es, e.timer ≠ n) (log : List Event) :
    about n (log ++ es) = about n log := by
  have hnone : es.filter (fun e => e.timer = n) = [] :=
    List.filter_eq_nil_iff.mpr fun e he => by simpa using h e he
  rw [about, List.filter_append, hnone, List.append_nil]
  rfl

theorem about_unknown {n : Nat} {log : List Event} (h : ∀ e ∈ log, e.timer ≠ n) : about n log = [] :=
  about_append_other h []

namespace World

/-- What a section does, by the branch it takes. -/
inductive Stepped (w : World Msg) : Act Msg → World Msg → Prop
  | register (now : Int) (request : Request Msg) {t : Timer Msg} (id : t.id = w.state.nextId + 1)
      (interval : t.intervalMs = request.intervalMs) (fresh : t.cancelRequested = false) :
      Stepped w (.register now request) { w with
        state := { w.state with nextId := w.state.nextId + 1, head := timerInsert t w.state.head }
        returning := (w.state.nextId + 1) :: w.returning
        log := w.log ++ [.registered (w.state.nextId + 1) request.intervalMs] }
  | returnId (id : Nat) : Stepped w (.returnId id) { w with returning := w.returning.erase id }
  | pass (a : Act Msg) (p : Pass) (free : w.pass = .idle ∨ ∃ now, w.pass = .scanning now)
      (next : p = .idle ∨ ∃ now, p = .scanning now) : Stepped w a { w with pass := p }
  | start {now : Int} {t : Timer Msg} {ts : List (Timer Msg)} (free : w.pass = .scanning now)
      (head : w.state.head = t :: ts) :
      Stepped w .pop { w with
        state := { w.state with head := ts, firing := some t }
        pass := .delivering now
        log := w.log ++ [.started t.id] }
  | deliver {now : Int} {t : Timer Msg} (dead : Bool) (free : w.pass = .delivering now)
      (firing : w.state.firing = some t) :
      Stepped w (.deliver dead) { w with
        pass := .settling now dead
        log := w.log ++ [if dead then .missed t.id else .delivered t.id] }
  | rearm {now : Int} {t : Timer Msg} (free : w.pass = .settling now false)
      (firing : w.state.firing = some t) (periodic : 0 < t.intervalMs)
      (wanted : t.cancelRequested = false) :
      Stepped w .settle { w with
        state := { w.state with firing := none, head := timerInsert (t.rearmed now) w.state.head }
        pass := .scanning now }
  | drop {now : Int} {t : Timer Msg} {dead : Bool} (free : w.pass = .settling now dead)
      (firing : w.state.firing = some t) (done : t.rearms dead = false) :
      Stepped w .settle { w with
        state := { w.state with firing := none }
        pass := .scanning now
        freed := t.id :: w.freed }
  | miss (id : Int) (result : (timerCCancel id w.state).1 = false) : Stepped w (.cancel id) w
  | unlist {t : Timer Msg} {ts : List (Timer Msg)} (head : w.state.head.Perm (t :: ts)) :
      Stepped w (.cancel t.id) { w with
        state := { w.state with head := ts }
        freed := t.id :: w.freed
        log := w.log ++ [.cancelled t.id] }
  | flag {t : Timer Msg} (firing : w.state.firing = some t) :
      Stepped w (.cancel t.id) { w with
        state := { w.state with firing := some { t with cancelRequested := true } }
        log := w.log ++ [.cancelled t.id] }

theorem stepped_cancel (w : World Msg) (id : Int) {w' : World Msg}
    (h : w.step (.cancel id) = some w') : Stepped w (.cancel id) w' := by
  simp only [step] at h
  have miss : timerCCancel id w.state = (false, w.state) → Stepped w (.cancel id) w' := by
    intro hc
    rw [hc] at h
    obtain rfl := Option.some.inj h
    exact .miss id (by rw [hc])
  by_cases hneg : id ≤ 0
  · exact miss (if_pos hneg)
  by_cases hlist : (w.state.head.any fun t => t.id = id) = true
  · obtain ⟨t, ht, hid⟩ := List.any_eq_true.mp hlist
    obtain ⟨t, l, r, -, hid, heq, herase⟩ := List.exists_of_eraseP (p := fun t => t.id = id) ht hid
    obtain rfl : (t.id : Int) = id := of_decide_eq_true hid
    have hc : timerCCancel t.id w.state = (true, { w.state with head := l ++ r }) := by
      rw [timerCCancel, if_neg hneg, if_pos hlist, herase]
    rw [hc, hlist] at h
    obtain rfl := Option.some.inj h
    exact .unlist (heq ▸ List.perm_middle)
  · cases hf : w.state.firing with
    | none =>
        refine miss ?_
        rw [timerCCancel, if_neg hneg, if_neg hlist, hf]
    | some t =>
        by_cases hid : t.id = id ∧ t.intervalMs > 0
        · obtain rfl := hid.1
          have hc : timerCCancel t.id w.state =
              (true, { w.state with firing := some { t with cancelRequested := true } }) := by
            rw [timerCCancel, if_neg hneg, if_neg hlist, hf]
            exact if_pos hid
          rw [hc, Bool.eq_false_iff.mpr hlist] at h
          obtain rfl := Option.some.inj h
          exact .flag hf
        · refine miss ?_
          rw [timerCCancel, if_neg hneg, if_neg hlist, hf]
          exact if_neg hid

theorem stepped {w w' : World Msg} {a : Act Msg} (h : w.step a = some w') : Stepped w a w' := by
  cases a with
  | register now request =>
      obtain rfl := (Option.some.inj h).symm
      cases request with
      | after pid ms msg => exact .register now _ rfl rfl rfl
      | interval pid ms msg => exact .register now _ rfl rfl rfl
  | returnId id =>
      simp only [step] at h
      split at h
      · obtain rfl := (Option.some.inj h).symm
        exact .returnId id
      · exact absurd h nofun
  | begin now =>
      simp only [step] at h
      split at h
      · next hidle =>
          obtain rfl := (Option.some.inj h).symm
          exact .pass _ _ (.inl hidle) (.inr ⟨now, rfl⟩)
      · exact absurd h nofun
  | pop =>
      simp only [step] at h
      split at h
      · next now hp =>
          unfold popDue at h
          cases hh : w.state.head with
          | nil =>
              rw [hh] at h
              obtain rfl := (Option.some.inj h).symm
              exact .pass _ _ (.inr ⟨now, hp⟩) (.inl rfl)
          | cons t ts =>
              rw [hh] at h
              dsimp only at h
              by_cases hdue : t.deadlineMs > now
              · rw [if_pos hdue] at h
                obtain rfl := (Option.some.inj h).symm
                exact .pass _ _ (.inr ⟨now, hp⟩) (.inl rfl)
              · rw [if_neg hdue] at h
                obtain rfl := (Option.some.inj h).symm
                exact .start hp hh
      · exact absurd h nofun
  | deliver dead =>
      simp only [step] at h
      split at h
      · next now t hp hf =>
          obtain rfl := (Option.some.inj h).symm
          exact .deliver dead hp hf
      · exact absurd h nofun
  | settle =>
      simp only [step, Timers.settle] at h
      split at h
      · next now dead t hp hf =>
          obtain rfl := (Option.some.inj h).symm
          cases hr : t.rearms dead with
          | true =>
              unfold Timer.rearms at hr
              simp only [Bool.and_eq_true, decide_eq_true_eq, Bool.not_eq_true'] at hr
              obtain ⟨⟨hpos, rfl⟩, hwanted⟩ := hr
              exact .rearm hp hf hpos hwanted
          | false => exact .drop hp hf hr
      · exact absurd h nofun
  | cancel id => exact stepped_cancel w id h

/-! ### The life of a timer

Seen from one timer, a section either leaves it alone or takes it one step further in its
life.  What the log says of a timer depends on that life only.
-/

/-- Where a timer is, with its interval as long as there is a record of it. -/
inductive Place
  | listed (ms : Int)
  | taken (ms : Int) (cancelled : Bool)
  | fired (ms : Int) (cancelled dead : Bool)
  | freed

/-- One step of the life of timer `n`, and what is logged of it. -/
inductive Next (n : Nat) : Place → List Event → Place → Prop
  | start (ms : Int) : Next n (.listed ms) [.started n] (.taken ms false)
  | deliver (ms : Int) (c dead : Bool) :
      Next n (.taken ms c) [if dead then .missed n else .delivered n] (.fired ms c dead)
  | rearm {ms : Int} (periodic : 0 < ms) : Next n (.fired ms false false) [] (.listed ms)
  | drop {ms : Int} {c dead : Bool} (done : ms ≤ 0 ∨ c = true ∨ dead = true) :
      Next n (.fired ms c dead) [] .freed
  | unlist (ms : Int) : Next n (.listed ms) [.cancelled n] .freed
  | flagTaken (ms : Int) (c : Bool) : Next n (.taken ms c) [.cancelled n] (.taken ms true)
  | flagFired (ms : Int) (c dead : Bool) : Next n (.fired ms c dead) [.cancelled n] (.fired ms true dead)

/-- The lives of timer `n`, with what has been logged of it. -/
inductive Life (n : Nat) : Place → List Event → Prop
  | born {ms : Int} (hms : 0 ≤ ms) : Life n (.listed ms) [.registered n ms]
  | next {p p' : Place} {h es : List Event} : Life n p h → Next n p es p' → Life n p' (h ++ es)

/-- What the log of a timer says of where it is. -/
def Says (n : Nat) (h : List Event) : Place → Prop
  | .listed ms => (0 ≤ ms ∧ ∀ k, .registered n k ∈ h ↔ k = ms) ∧ .cancelled n ∉ h ∧ .missed n ∉ h ∧
      (ms = 0 → h.count (.started n) = 0) ∧ h.count (.delivered n) ≤ h.count (.started n)
  | .taken ms c => (0 ≤ ms ∧ ∀ k, .registered n k ∈ h ↔ k = ms) ∧ (.cancelled n ∈ h ↔ c = true) ∧
      .missed n ∉ h ∧ .started n ∈ h ∧ (ms = 0 → h.count (.started n) = 1) ∧
      h.count (.delivered n) < h.count (.started n)
  | .fired ms c dead => (0 ≤ ms ∧ ∀ k, .registered n k ∈ h ↔ k = ms) ∧ (.cancelled n ∈ h ↔ c = true) ∧
      (.missed n ∈ h ↔ dead = true) ∧ .started n ∈ h ∧ (ms = 0 → h.count (.started n) = 1) ∧
      h.count (.delivered n) ≤ h.count (.started n)
  | .freed => (∃ ms, ∀ k, .registered n k ∈ h ↔ k = ms) ∧ (.started n ∈ h ∨ .cancelled n ∈ h) ∧
      (.cancelled n ∈ h ∨ .missed n ∈ h ∨ .registered n 0 ∈ h ∧ .started n ∈ h) ∧
      (.registered n 0 ∈ h → h.count (.started n) ≤ 1) ∧ h.count (.delivered n) ≤ h.count (.started n)

variable {p p' : Place} {h es : List Event}

theorem Says.next (hs : Says n h p) (hn : Next n p es p') : Says n (h ++ es) p' := by
  cases hn with
  | start ms =>
      obtain ⟨hreg, hc, hm, hzero, hle⟩ := hs
      refine ⟨by simpa using hreg, by simpa using hc, by simpa using hm, by simp, fun h0 => ?_, ?_⟩
      · simp [hzero h0]
      · simp only [List.count_append, List.count_singleton]
        simp
        omega
  | deliver ms c dead =>
      obtain ⟨hreg, hc, hm, hst, hone, hlt⟩ := hs
      cases dead with
      | true => exact ⟨by simpa using hreg, by simpa using hc, by simp, by simpa using hst,
          fun h0 => by simpa using hone h0, by simpa using Nat.le_of_lt hlt⟩
      | false =>
          refine ⟨by simpa using hreg, by simpa using hc, by simpa using hm, by simpa using hst,
            fun h0 => by simpa using hone h0, ?_⟩
          have hmore : (h ++ [Event.delivered n]).count (.delivered n) = h.count (.delivered n) + 1 := by
            simp
          have hsame : (h ++ [Event.delivered n]).count (.started n) = h.count (.started n) := by
            simp
          rw [if_neg Bool.false_ne_true, hmore, hsame]
          exact hlt
  | rearm periodic =>
      obtain ⟨hreg, hc, hm, hst, hone, hle⟩ := hs
      rw [List.append_nil]
      exact ⟨hreg, fun hin => absurd (hc.mp hin) Bool.false_ne_true,
        fun hin => absurd (hm.mp hin) Bool.false_ne_true, fun h0 => by omega, hle⟩
  | @drop ms c dead done =>
      obtain ⟨⟨hms, hreg⟩, hc, hm, hst, hone, hle⟩ := hs
      rw [List.append_nil]
      refine ⟨⟨ms, hreg⟩, .inl hst, ?_, fun h0 => Nat.le_of_eq (hone ((hreg 0).mp h0).symm), hle⟩
      rcases done with hle | rfl | rfl
      · exact .inr (.inr ⟨(hreg 0).mpr (by omega), hst⟩)
      · exact .inl (hc.mpr rfl)
      · exact .inr (.inl (hm.mpr rfl))
  | unlist ms =>
      obtain ⟨⟨hms, hreg⟩, hc, hm, hzero, hle⟩ := hs
      refine ⟨⟨ms, by simpa using hreg⟩, .inr (by simp), .inl (by simp), fun h0 => ?_, by simpa using hle⟩
      have h0 : (0 : Int) = ms := (hreg 0).mp (by simpa using h0)
      simp [hzero h0.symm]
  | flagTaken ms c =>
      obtain ⟨hreg, hc, hm, hst, hone, hlt⟩ := hs
      exact ⟨by simpa using hreg, by simp, by simpa using hm, by simpa using hst,
        fun h0 => by simpa using hone h0, by simpa using hlt⟩
  | flagFired ms c dead =>
      obtain ⟨hreg, hc, hm, hst, hone, hle⟩ := hs
      exact ⟨by simpa using hreg, by simp, by simpa using hm, by simpa using hst,
        fun h0 => by simpa using hone h0, by simpa using hle⟩

theorem Life.told (hl : Life n p h) : Says n h p := by
  induction hl with
  | born hms => exact ⟨⟨hms, by simp⟩, by simp, by simp, by simp, by simp⟩
  | next _ hn ih => exact ih.next hn

theorem Life.delivered_once (hl : Life n p h) (hreg : .registered n 0 ∈ h) :
    h.count (.delivered n) ≤ 1 := by
  have hs := hl.told
  cases p with
  | listed ms =>
      obtain ⟨⟨-, hms⟩, -, -, hzero, hle⟩ := hs
      have := hzero ((hms 0).mp hreg).symm
      omega
  | taken ms c =>
      obtain ⟨⟨-, hms⟩, -, -, -, hone, hlt⟩ := hs
      have := hone ((hms 0).mp hreg).symm
      omega
  | fired ms c dead =>
      obtain ⟨⟨-, hms⟩, -, -, -, hone, hle⟩ := hs
      have := hone ((hms 0).mp hreg).symm
      omega
  | freed =>
      obtain ⟨-, -, -, hone, hle⟩ := hs
      exact Nat.le_trans hle (hone hreg)

/-! ### The lives of all timers -/

/-- The timer the pass has is before its delivery or behind it. -/
def place (t : Timer Msg) : Pass → Place
  | .settling _ dead => .fired t.intervalMs t.cancelRequested dead
  | _ => .taken t.intervalMs t.cancelRequested

/-- All timers there have been, with where they are. -/
def records (w : World Msg) : List (Nat × Place) :=
  w.state.head.map (fun t => (t.id, .listed t.intervalMs)) ++
    (w.state.firing.toList.map (fun t => (t.id, place t w.pass)) ++ w.freed.map fun n => (n, .freed))

theorem Next.timer (hn : Next n p es p') : ∀ e ∈ es, e.timer = n := by
  cases hn with
  | deliver ms c dead => cases dead <;> simp [Event.timer]
  | start _ | rearm _ | drop _ | unlist _ | flagTaken _ _ | flagFired _ _ _ => simp [Event.timer]

/-- What a section is to the timers: nothing, a step in the life of one of them, or a new one. -/
inductive Moved (w w' : World Msg) : Prop
  | still (records : w'.records = w.records) (log : w'.log = w.log)
      (nextId : w'.state.nextId = w.state.nextId)
  | moved {n : Nat} {p p' : Place} {es : List Event} {rest : List (Nat × Place)}
      (before : w.records.Perm ((n, p) :: rest)) (next : Next n p es p')
      (after : w'.records.Perm ((n, p') :: rest)) (log : w'.log = w.log ++ es)
      (nextId : w'.state.nextId = w.state.nextId)
  | born {ms : Int} (hms : 0 ≤ ms)
      (after : w'.records.Perm ((w.state.nextId + 1, .listed ms) :: w.records))
      (log : w'.log = w.log ++ [.registered (w.state.nextId + 1) ms])
      (nextId : w'.state.nextId = w.state.nextId + 1)

/-- What keeps the list and the pass apart. -/
structure Tidy (w : World Msg) : Prop where
  unflagged : ∀ t ∈ w.state.head, t.cancelRequested = false
  /-- Between two timers the pass has none. -/
  empty : w.pass = .idle ∨ (∃ now, w.pass = .scanning now) → w.state.firing = none

variable {w w' : World Msg} {a : Act Msg}

theorem Tidy.step (h : Tidy w) (hs : Stepped w a w') : Tidy w' := by
  cases hs with
  | register now request id interval fresh =>
      refine ⟨fun x hx => ?_, h.empty⟩
      rcases mem_timerInsert.mp hx with rfl | hx
      · exact fresh
      · exact h.unflagged x hx
  | returnId _ => exact ⟨h.unflagged, h.empty⟩
  | pass _ p free next => exact ⟨h.unflagged, fun _ => h.empty free⟩
  | start free head =>
      refine ⟨fun x hx => h.unflagged x (head ▸ List.mem_cons_of_mem _ hx), fun hp => ?_⟩
      rcases hp with hp | ⟨_, hp⟩ <;> cases hp
  | deliver dead free firing =>
      refine ⟨h.unflagged, fun hp => ?_⟩
      rcases hp with hp | ⟨_, hp⟩ <;> cases hp
  | @rearm now t free firing periodic wanted =>
      refine ⟨fun x hx => ?_, fun _ => rfl⟩
      rcases mem_timerInsert.mp hx with rfl | hx
      · exact wanted
      · exact h.unflagged x hx
  | drop free firing done => exact ⟨h.unflagged, fun _ => rfl⟩
  | miss _ _ => exact h
  | unlist head => exact ⟨fun x hx => h.unflagged x (head.mem_iff.mpr (List.mem_cons_of_mem _ hx)), h.empty⟩
  | flag firing =>
      refine ⟨h.unflagged, fun hp => ?_⟩
      rw [h.empty hp] at firing
      cases firing

theorem records_listed {ts : List (Timer Msg)} (h : w.state.head.Perm (t :: ts)) :
    w.records.Perm ((t.id, .listed t.intervalMs) :: (ts.map (fun t => (t.id, .listed t.intervalMs)) ++
      (w.state.firing.toList.map (fun t => (t.id, place t w.pass)) ++ w.freed.map fun n => (n, .freed)))) :=
  (h.map _).append_right _

theorem records_firing (h : w.state.firing = some t) :
    w.records.Perm ((t.id, place t w.pass) :: (w.state.head.map (fun t => (t.id, .listed t.intervalMs)) ++
      w.freed.map fun n => (n, .freed))) := by
  unfold records
  rw [h]
  exact List.perm_middle

theorem Stepped.moved (hs : Stepped w a w') (h : Tidy w) : Moved w w' := by
  cases hs with
  | @register now request t id interval fresh =>
      have hms : 0 ≤ request.intervalMs := by
        cases request with
        | after pid ms msg => exact Int.le_refl 0
        | interval pid ms msg =>
            unfold Request.intervalMs
            split <;> omega
      refine .born hms ?_ rfl rfl
      have := (timerInsert_perm t w.state.head).map fun t => (t.id, Place.listed t.intervalMs)
      rw [List.map_cons, id, interval] at this
      exact this.append_right _
  | returnId _ | miss _ _ => exact .still rfl rfl rfl
  | pass _ p free next =>
      refine .still ?_ rfl rfl
      unfold records
      rw [h.empty free]
      rfl
  | @start now t ts free head =>
      refine .moved (records_listed (.of_eq head)) (.start _) ?_ rfl rfl
      have hflag := h.unflagged t (head ▸ List.mem_cons_self)
      rw [h.empty (.inr ⟨now, free⟩), ← hflag]
      exact List.perm_middle
  | @deliver now t dead free firing =>
      have hbefore := records_firing firing
      rw [free] at hbefore
      exact .moved hbefore (.deliver _ _ dead) (records_firing firing) rfl rfl
  | @rearm now t free firing periodic wanted =>
      have hbefore := records_firing firing
      rw [free, place, wanted] at hbefore
      have hafter := timerInsert_perm (t.rearmed now) w.state.head
      exact .moved hbefore (.rearm periodic) (records_listed (t := t.rearmed now) hafter)
        (List.append_nil _).symm rfl
  | @drop now t dead free firing done =>
      have hbefore := records_firing firing
      rw [free] at hbefore
      refine .moved hbefore (.drop ?_) List.perm_middle (List.append_nil _).symm rfl
      unfold Timer.rearms at done
      simp only [Bool.and_eq_false_iff, decide_eq_false_iff_not, Bool.not_eq_false'] at done
      rcases done with (hle | hdead) | hflag
      · exact .inl (Int.not_lt.mp hle)
      · exact .inr (.inr hdead)
      · exact .inr (.inl hflag)
  | @unlist t ts head =>
      refine .moved (records_listed head) (.unlist _) ?_ rfl rfl
      unfold records
      rw [List.map_cons]
      exact (List.perm_middle.append_left _).trans List.perm_middle
  | @flag t firing =>
      have hafter : Next t.id (place t w.pass) [.cancelled t.id]
          (place { t with cancelRequested := true } w.pass) := by
        cases w.pass with
        | settling now dead => exact .flagFired _ _ _
        | idle | scanning _ | delivering _ => exact .flagTaken _ _
      exact .moved (records_firing firing) hafter
        (records_firing (t := { t with cancelRequested := true }) rfl) rfl rfl

/-- **Every timer leads its life.**  Each id given out is that of one timer, in one place, and
what is logged of it is what its life has been. -/
structure Lives (w : World Msg) : Prop where
  nodup : (w.records.map Prod.fst).Nodup
  numbered : ∀ n, n ∈ w.records.map Prod.fst ↔ 1 ≤ n ∧ n ≤ w.state.nextId
  known : ∀ e ∈ w.log, 1 ≤ e.timer ∧ e.timer ≤ w.state.nextId
  led : ∀ r ∈ w.records, Life r.1 r.2 (about r.1 w.log)

theorem Lives.step (h : Lives w) (hm : Moved w w') : Lives w' := by
  obtain ⟨nodup, numbered, known, led⟩ := h
  cases hm with
  | still records log nextId =>
      refine ⟨records ▸ nodup, ?_, ?_, ?_⟩
      · rwa [records, nextId]
      · rwa [log, nextId]
      · rwa [records, log]
  | @moved n p p' es rest before next after log nextId =>
      have hids : (w'.records.map Prod.fst).Perm (w.records.map Prod.fst) :=
        (after.map Prod.fst).trans (before.map Prod.fst).symm
      have hn : (n, p) ∈ w.records := before.mem_iff.mpr List.mem_cons_self
      have hnew : n ∉ rest.map Prod.fst :=
        (List.nodup_cons.mp ((before.map Prod.fst).nodup_iff.mp nodup)).1
      refine ⟨hids.nodup_iff.mpr nodup, fun k => ?_, fun e he => ?_, fun r hr => ?_⟩
      · rw [nextId]
        exact hids.mem_iff.trans (numbered k)
      · rw [nextId]
        rw [log] at he
        rcases List.mem_append.mp he with he | he
        · exact known e he
        · rw [next.timer e he]
          exact (numbered n).mp (List.mem_map_of_mem hn)
      · rw [log]
        rcases List.mem_cons.mp (after.mem_iff.mp hr) with rfl | hr
        · rw [about_append next.timer]
          exact (led _ hn).next next
        · have hne : n ≠ r.1 := fun heq => hnew (heq ▸ List.mem_map_of_mem hr)
          rw [about_append_other fun e he => (next.timer e he).symm ▸ hne]
          exact led r (before.mem_iff.mpr (List.mem_cons_of_mem _ hr))
  | @born ms hms after log nextId =>
      have hnew : w.state.nextId + 1 ∉ w.records.map Prod.fst := by
        rw [numbered]
        omega
      have hids := after.map Prod.fst
      refine ⟨hids.nodup_iff.mpr (List.nodup_cons.mpr ⟨hnew, nodup⟩), fun k => ?_, fun e he => ?_,
        fun r hr => ?_⟩
      · rw [hids.mem_iff, List.map_cons, List.mem_cons, numbered, nextId]
        dsimp only
        omega
      · rw [nextId]
        rw [log] at he
        rcases List.mem_append.mp he with he | he
        · have := known e he
          omega
        · obtain rfl := List.mem_singleton.mp he
          simp only [Event.timer]
          omega
      · rw [log]
        rcases List.mem_cons.mp (after.mem_iff.mp hr) with rfl | hr
        · rw [about_append (by simp [Event.timer]), about_unknown fun e he => by
            have := known e he
            omega]
          exact .born hms
        · have hne : w.state.nextId + 1 ≠ r.1 := fun heq => hnew (heq ▸ List.mem_map_of_mem hr)
          rw [about_append_other (by simpa [Event.timer] using hne)]
          exact led r hr

/-- What the world is like wherever a run of sections has got to. -/
theorem lives {acts : List (Act Msg)} (hrun : Run (ofFn step) init acts w) : Tidy w ∧ Lives w := by
  refine hrun.invariant (P := fun w => Tidy w ∧ Lives w)
    (fun _ _ _ h hs => ⟨h.1.step (stepped hs), h.2.step ((stepped hs).moved h.1)⟩) ⟨?_, ?_⟩
  · exact ⟨by simp [init], fun _ => rfl⟩
  · refine ⟨List.nodup_nil, fun n => ?_, by simp [init], by simp [init, records]⟩
    simp only [init, records, List.map_nil, Option.toList_none, List.append_nil, List.not_mem_nil,
      false_iff]
    omega

/-- A timer that was given out is somewhere. -/
theorem Lives.somewhere (h : Lives w) {e : Event} (he : e ∈ w.log) :
    ∃ q, (e.timer, q) ∈ w.records ∧ Life e.timer q (about e.timer w.log) := by
  obtain ⟨⟨k, q⟩, hr, rfl⟩ := List.mem_map.mp ((h.numbered e.timer).mpr (h.known e he))
  exact ⟨q, hr, h.led _ hr⟩

theorem mem_records {r : Nat × Place} (hr : r ∈ w.records) :
    (∃ t ∈ w.state.head, r = (t.id, .listed t.intervalMs)) ∨
      (∃ t ∈ w.state.firing, r = (t.id, place t w.pass)) ∨ ∃ n ∈ w.freed, r = (n, .freed) := by
  unfold records at hr
  rcases List.mem_append.mp hr with hr | hr
  · obtain ⟨t, ht, rfl⟩ := List.mem_map.mp hr
    exact .inl ⟨t, ht, rfl⟩
  rcases List.mem_append.mp hr with hr | hr
  · obtain ⟨t, ht, rfl⟩ := List.mem_map.mp hr
    exact .inr (.inl ⟨t, Option.mem_toList.mp ht, rfl⟩)
  · obtain ⟨n, hn, rfl⟩ := List.mem_map.mp hr
    exact .inr (.inr ⟨n, hn, rfl⟩)

theorem Lives.freed (h : Lives w) (hn : n ∈ w.freed) : Life n .freed (about n w.log) :=
  h.led (n, .freed) (List.mem_append_right _ (List.mem_append_right _ (List.mem_map_of_mem hn)))

theorem Lives.not_freed (h : Lives w) (ht : t ∈ w.timers) : t.id ∉ w.freed := by
  intro hin
  have hids : w.records.map Prod.fst = w.timers.map Timer.id ++ w.freed := by
    simp [records, timers, Function.comp_def]
  have hnodup := h.nodup
  rw [hids] at hnodup
  exact (List.nodup_append.mp hnodup).2.2 t.id (List.mem_map_of_mem ht) t.id hin rfl

/-- **A record is freed exactly when nothing more can come of its timer.** -/
theorem Lives.freed_iff (h : Lives w) : n ∈ w.freed ↔ w.Over n := by
  refine ⟨fun hn => ⟨fun t ht heq => ?_, ?_⟩, fun hover => ?_⟩
  · exact h.not_freed (List.mem_append_right _ (Option.mem_toList.mpr ht)) (heq ▸ hn)
  · obtain ⟨-, -, hwhy, -⟩ := (h.freed hn).told
    refine hwhy.imp (mem_about (e := .cancelled n) _).mp (Or.imp (mem_about (e := .missed n) _).mp ?_)
    exact And.imp (mem_about (e := .registered n 0) _).mp (mem_about (e := .started n) _).mp
  · obtain ⟨hpass, hwhy⟩ := hover
    obtain ⟨q, hr, hlife⟩ : ∃ q, (n, q) ∈ w.records ∧ Life n q (about n w.log) := by
      rcases hwhy with he | he | ⟨-, he⟩
      · exact h.somewhere he
      · exact h.somewhere he
      · exact h.somewhere he
    rcases mem_records hr with ⟨t, ht, heq⟩ | ⟨t, ht, heq⟩ | ⟨k, hk, heq⟩
    · -- What is on the list was neither cancelled nor missed, and if it fires once it has not yet.
      obtain ⟨rfl, rfl⟩ := Prod.mk.inj heq
      obtain ⟨⟨-, hreg⟩, hc, hm, hzero, -⟩ := hlife.told
      rcases hwhy with he | he | ⟨he0, he⟩
      · exact absurd ((mem_about (e := .cancelled t.id) _).mpr he) hc
      · exact absurd ((mem_about (e := .missed t.id) _).mpr he) hm
      · have hnone := hzero ((hreg 0).mp ((mem_about (e := .registered t.id 0) _).mpr he0)).symm
        exact absurd ((mem_about (e := .started t.id) _).mpr he) (List.count_eq_zero.mp hnone)
    · exact absurd (Prod.mk.inj heq).1.symm (hpass t ht)
    · exact (Prod.mk.inj heq).1 ▸ hk

/-- A timer that was cancelled is not taken off the list any more. -/
theorem Lives.not_started (h : Lives w) (hc : .cancelled n ∈ w.log) (hm : Moved w w') :
    .cancelled n ∈ w'.log ∧ w'.log.count (.started n) = w.log.count (.started n) := by
  cases hm with
  | still _ log _ => rw [log]; exact ⟨hc, rfl⟩
  | born _ _ log _ => rw [log]; simp [hc]
  | @moved k p p' es rest before next after log _ =>
      have hnone : .started n ∉ es := by
        intro he
        obtain rfl : n = k := next.timer _ he
        have hlife := h.led _ (before.mem_iff.mpr List.mem_cons_self)
        cases next with
        | start ms => exact hlife.told.2.1 ((mem_about (e := .cancelled n) _).mpr hc)
        | deliver ms c dead => cases dead <;> simp at he
        | rearm _ | drop _ | unlist _ | flagTaken _ _ | flagFired _ _ _ => simp at he
      rw [log, List.count_append, List.count_eq_zero.mpr hnone]
      exact ⟨List.mem_append_left _ hc, rfl⟩

/-- A timer that a cancel does not find has been taken off the list for delivery or was
cancelled. -/
theorem Lives.missing (h : Lives w) {ms : Int} (hmiss : (timerCCancel n w.state).1 = false)
    (hreg : .registered n ms ∈ w.log) : .started n ∈ w.log ∨ .cancelled n ∈ w.log := by
  have hpos := (h.known _ hreg).1
  simp only [Event.timer] at hpos
  unfold timerCCancel at hmiss
  rw [if_neg (by omega)] at hmiss
  split at hmiss
  · cases hmiss
  next hlist =>
    obtain ⟨q, hr, hlife⟩ := h.somewhere hreg
    have hlog : (.started n ∈ about n w.log ∨ .cancelled n ∈ about n w.log) →
        .started n ∈ w.log ∨ .cancelled n ∈ w.log :=
      Or.imp (mem_about (e := .started n) _).mp (mem_about (e := .cancelled n) _).mp
    rcases mem_records hr with ⟨t, ht, heq⟩ | ⟨t, ht, heq⟩ | ⟨k, hk, heq⟩
    · refine absurd (List.any_eq_true.mpr ⟨t, ht, ?_⟩) hlist
      simp [← (Prod.mk.inj heq).1, Event.timer]
    · obtain ⟨-, rfl⟩ := Prod.mk.inj heq
      have hs := hlife.told
      cases hp : w.pass with
      | settling now dead =>
          rw [hp] at hs
          exact hlog (.inl hs.2.2.2.1)
      | idle | scanning _ | delivering _ =>
          rw [hp] at hs
          exact hlog (.inl hs.2.2.2.1)
    · obtain ⟨-, rfl⟩ := Prod.mk.inj heq
      exact hlog hlife.told.2.1

theorem Life.registered (hl : Life n p h) : ∃ ms, .registered n ms ∈ h := by
  induction hl with
  | born _ => exact ⟨_, List.mem_singleton_self _⟩
  | next _ _ ih =>
      obtain ⟨ms, hin⟩ := ih
      exact ⟨ms, List.mem_append_left _ hin⟩

/-- **Timers among actors.**  In every run: a one-shot is delivered at most once; after a
cancel that returned 1, the timer is never again taken off the list for delivery; a cancel
that returns 0 names a timer that has been taken off for delivery or was never registered,
unless it was cancelled before that; and a section reads no record that has been freed, unless
it is a registration that returns its id after its timer is over. -/
theorem timers_interleaved {acts : List (Act Msg)} {w : World Msg} (hrun : Run (ofFn step) init acts w) :
    (∀ n, .registered n 0 ∈ w.log → w.log.count (.delivered n) ≤ 1) ∧
    (∀ (n : Nat) (w' w'' : World Msg) (later : List (Act Msg)), (timerCCancel n w.state).1 = true →
      w.step (.cancel n) = some w' → Run (ofFn step) w' later w'' →
      w''.log.count (.started n) = w.log.count (.started n)) ∧
    (∀ n : Nat, (timerCCancel n w.state).1 = false →
      ((.started n ∈ w.log ∨ ∀ ms, .registered n ms ∉ w.log) ↔
        (.started n ∈ w.log ∨ .cancelled n ∉ w.log))) ∧
    ∀ (a : Act Msg) (w' : World Msg), w.step a = some w' →
      ((∀ n ∈ w.reads a, n ∉ w.freed) ↔ ∀ n, a = .returnId n → ¬ w.Over n) := by
  obtain ⟨htidy, h⟩ := lives hrun
  refine ⟨fun n hreg => ?_, ?_, fun n hmiss => ?_, fun a w' hs => ?_⟩
  · obtain ⟨q, -, hlife⟩ := h.somewhere hreg
    have := hlife.delivered_once ((mem_about (e := .registered n 0) _).mpr hreg)
    exact (count_about (.delivered n) w.log) ▸ this
  · intro n w' w'' later hdone hcancel hlater
    have hstep := stepped hcancel
    have hlog : .cancelled n ∈ w'.log ∧ w'.log.count (.started n) = w.log.count (.started n) := by
      simp only [step] at hcancel
      obtain rfl := Option.some.inj hcancel
      simp [hdone]
    refine (hlater.invariant (P := fun v => (Tidy v ∧ Lives v) ∧ .cancelled n ∈ v.log ∧
      v.log.count (.started n) = w.log.count (.started n)) (fun u _ v hu hs => ?_)
      ⟨⟨htidy.step hstep, h.step (hstep.moved htidy)⟩, hlog⟩).2.2
    obtain ⟨⟨hu, hl⟩, hc, hcount⟩ := hu
    have hmoved := (stepped hs).moved hu
    obtain ⟨hc', hcount'⟩ := hl.not_started hc hmoved
    exact ⟨⟨hu.step (stepped hs), hl.step hmoved⟩, hc', hcount'.trans hcount⟩
  · refine or_congr_right' fun hstarted => ⟨fun hnever hc => ?_, fun hc ms hreg => ?_⟩
    · obtain ⟨q, -, hlife⟩ := h.somewhere hc
      obtain ⟨ms, hreg⟩ := hlife.registered
      exact hnever ms ((mem_about (e := .registered n ms) _).mp hreg)
    · exact (h.missing hmiss hreg).elim hstarted hc
  · cases a with
    | returnId id =>
        refine ⟨fun hsafe n heq hover => ?_, fun hprompt n hn hfreed => ?_⟩
        · obtain rfl := Act.returnId.inj heq
          exact hsafe id (List.mem_singleton_self _) (h.freed_iff.mpr hover)
        · obtain rfl := List.mem_singleton.mp hn
          exact hprompt n rfl (h.freed_iff.mp hfreed)
    | begin now =>
        refine ⟨fun _ n heq => ?_, fun _ n hn => absurd hn List.not_mem_nil⟩
        cases heq
    | register _ _ | pop | deliver _ | settle | cancel _ =>
        refine ⟨fun _ n heq => ?_, fun _ n hn => ?_⟩
        · cases heq
        · obtain ⟨t, ht, rfl⟩ := List.mem_map.mp hn
          exact h.not_freed ht

/-- A timer that is due at once. -/
def soon : Act String := .register 5 (.after 1 0 "now")

theorem timers_interleaved_soon :
    ∃ w, Run (ofFn step) init [soon, .begin 5, .pop, .deliver false] w ∧
      w.log.count (.delivered 1) ≤ 1 ∧ 1 ∈ w.reads (.returnId 1) ∧ 1 ∉ w.freed := by
  have hrun : Run (ofFn step) init [soon, .begin 5, .pop, .deliver false]
      ((exec step init [soon, .begin 5, .pop, .deliver false]).get (by decide)) :=
    Run.ofFn_iff.mpr (by decide)
  obtain ⟨honce, -, -, hreads⟩ := timers_interleaved hrun
  refine ⟨_, hrun, honce 1 (by decide), by decide, (hreads (.returnId 1) _ rfl).mpr ?_ 1 (by decide)⟩
  -- The pass still has the timer.
  intro n heq hover
  obtain rfl := Act.returnId.inj heq
  exact hover.1 _ rfl rfl

/-- The pass fires and frees the timer before the registration has read the id it
returns.  And a timer that was cancelled and has never fired is cancelled again: the
result is 0. -/
theorem returned_id_read_after_free :
    (∃ w : World String, Run (ofFn step) init [soon, .begin 5, .pop, .deliver false, .settle] w ∧
      (w.step (.returnId 1)).isSome ∧ 1 ∈ w.reads (.returnId 1) ∧ 1 ∈ w.freed) ∧
    ∃ w : World String, Run (ofFn step) init [soon, .returnId 1, .cancel 1] w ∧
      (timerCCancel 1 w.state).1 = false ∧ .registered 1 0 ∈ w.log ∧ .started 1 ∉ w.log :=
  ⟨⟨_, Run.ofFn_iff.mpr rfl, by decide, by decide, by decide⟩,
    ⟨_, Run.ofFn_iff.mpr rfl, by decide, by decide, by decide⟩⟩

end World

end TinyActor.Runtime.Timers
