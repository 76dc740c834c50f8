/-
What becomes of the messages sent to one actor.

The system here is one actor's mailbox: deliveries from anywhere, `recv`,
`recv_after`, its deadline, and the scans of `receive`, which peek any number of
times and commit once an arm has matched.  Beside the process record stand three
things the source does not keep: the messages delivered so far, each with its
arrival number, those handed to the program, and for each `receive` under way the
one its last peek returned.

A scan remembers where it is by an index into the list.  As long as nothing is
taken from the front while the index is past it, the index names the peeked
message and every message is handed out once.  A guard that itself receives
shifts the list under the index, and the commit then removes a message that was
never looked at.  A `receive` in a guard has no cursor of its own: it begins where
the one around it stands, and leaves the cursor at the front, where the commit
around it unlinks the second message.
-/
import Mathlib.Data.List.Nodup
import Mathlib.Data.List.Perm.Basic
import TinyActor.Lib.Run
import TinyActor.Runtime.Mailbox

namespace TinyActor.Runtime

open TinyActor.Lib

variable {V M H α : Type}

/-! ### The fragment list -/

namespace Mailbox

@[simp] theorem push_frags (mb : Mailbox M) (frag : M) :
    (mb.push frag).frags = mb.frags ++ [frag] := rfl

theorem pop_eq_some {mb mb' : Mailbox M} {frag : M} :
    mb.pop = some (frag, mb') → mb.frags = frag :: mb'.frags := by
  intro h
  unfold pop at h
  split at h
  · exact absurd h (by simp)
  · next _ rest hfr =>
      simp only [Option.some.injEq, Prod.mk.injEq] at h
      rw [hfr, h.1, ← h.2]

theorem unlink_eq {mb : Mailbox M} {i : Nat} {frag : M} (h : mb.frags[i]? = some frag) :
    ∃ mb', mb.unlink i = some (frag, mb') ∧ mb'.frags = mb.frags.eraseIdx i := by
  obtain ⟨hi, hget⟩ := List.getElem?_eq_some_iff.mp h
  refine ⟨⟨mb.frags.eraseIdx i, mb.count - 1, ?_⟩, ?_, rfl⟩
  · simp [mb.count_eq, List.length_eraseIdx, hi]
  · unfold unlink
    rw [dif_pos hi]
    simp [hget]

theorem unlink_eq_some {mb mb' : Mailbox M} {i : Nat} {frag : M}
    (h : mb.unlink i = some (frag, mb')) :
    mb.frags[i]? = some frag ∧ mb'.frags = mb.frags.eraseIdx i := by
  unfold unlink at h
  split at h
  · next hi =>
      obtain ⟨rfl, rfl⟩ := Prod.mk.inj (Option.some.inj h)
      exact ⟨List.getElem?_eq_getElem hi, rfl⟩
  · exact absurd h (by simp)

theorem count_pos_iff {mb : Mailbox M} : 0 < mb.count ↔ mb.frags ≠ [] := by
  rw [mb.count_eq, List.length_pos_iff]

end Mailbox

/-- After a peek the cursor is at least one, and then the commit aims at the
fragment just before it. -/
theorem commitTarget_succ (k : Nat) : commitTarget (k + 1) = k := by
  unfold commitTarget
  dsimp only
  split <;> omega

/-! ### One actor's mailbox as a system -/

/-- What can happen to one actor's mailbox. -/
inductive MailOp (V α : Type)
  | deliver (m : α)
  | recv
  /-- `recv_after` with its operand and its two readings of the clock. -/
  | recvAfter (ms : V) (now now' : Int)
  /-- The scheduler's deadline scan, at a time. -/
  | deadlineScan (now : Int)
  /-- A `receive` begins, which runs no builtin yet. -/
  | recvBegin
  | recvPeek
  | recvCommit

def MailOp.isBegin : MailOp V α → Bool
  | .recvBegin => true
  | _ => false

/-- The process with the record of its messages.  A message carries its arrival
number, so no two of them are equal.  The scans are those of the `receive`s under
way, the innermost first, with what the last peek of each returned. -/
structure Session (V α H : Type) where
  proc : Proc V (Nat × α) H
  delivered : List (Nat × α)
  handed : List (Nat × α)
  scans : List (Option (Nat × α))

namespace Session

def queued (s : Session V α H) : List (Nat × α) := s.proc.mbox.frags

/-- A process whose mailbox nobody has used yet. -/
def init (p : Proc V (Nat × α) H) : Session V α H :=
  { proc := { p with mbox := .empty, peekIndex := 0 }
    delivered := [], handed := [], scans := [] }

/-- A `recv` or `recv_after` that ran: if it blocked the actor parks, and
otherwise what left the front of the list was handed to the program. -/
def received (s : Session V α H) :
    BStatus × Proc V (Nat × α) H → Session V α H
  | (.ok, q) =>
      { s with proc := q, handed := s.handed ++ s.queued.take (s.queued.length - q.mbox.frags.length) }
  | (_, q) => { s with proc := park q }

/-- One step.  Peeks and commits are those of the innermost `receive`; a commit comes
after a peek of it that succeeded, and ends it.  A peek of a message that carries a
resource kills the actor, and its mailbox with it. -/
def step (W : Words V (Nat × α) H) (s : Session V α H) :
    MailOp V α → Option (Session V α H)
  | .deliver m =>
      let frag := (s.delivered.length, m)
      some { s with proc := (mboxAppend s.proc frag).1, delivered := s.delivered ++ [frag] }
  | .recv => (bRecv W s.proc).map s.received
  | .recvAfter ms now now' => (bRecvAfter W now now' (procPush s.proc ms)).map s.received
  | .deadlineScan now => some { s with proc := (deadlineFire now s.proc).1 }
  | .recvBegin => some { s with scans := none :: s.scans }
  | .recvPeek =>
      s.scans.head?.bind fun _ =>
        (bRecvPeek W s.proc).bind fun
          | (.ok, q) =>
              some { s with proc := q, scans := s.queued[s.proc.peekIndex]? :: s.scans.tail }
          | (.suspend, q) => some { s with proc := park q }
          | (.died, _) => none
  | .recvCommit =>
      s.scans.head?.join.bind fun m =>
        (bRecvCommit s.proc).map fun (_, q) =>
          { s with proc := q, handed := s.handed ++ [m], scans := s.scans.tail }

/-- Whether a step takes the head message out of the mailbox. -/
def takes (s : Session V α H) : MailOp V α → Bool
  | .recv => 0 < s.proc.mbox.count
  | .recvAfter _ _ _ => s.proc.recvDeadlineMs ≠ RECV_AFTER_EXPIRED && 0 < s.proc.mbox.count
  | _ => false

/-- Messages are taken from the front only between scans, and no `receive` begins in the
guard of another. -/
def PlainGuards (s : Session V α H) (op : MailOp V α) : Prop :=
  (s.takes op = true → s.proc.peekIndex = 0) ∧ (op.isBegin = true → s.scans = [])

instance (s : Session V α H) (op : MailOp V α) : Decidable (PlainGuards s op) :=
  inferInstanceAs (Decidable (_ ∧ _))

/-- Every delivered message is handed out or queued, none twice, and the queue
is in arrival order. -/
structure Accounted (s : Session V α H) : Prop where
  perm : (s.handed ++ s.queued).Perm s.delivered
  order : s.queued.Sublist s.delivered
  once : s.delivered.Nodup

end Session

/-! ### What the builtins do to the mailbox -/

/-- The mailbox and the cursor are as they were. -/
structure Kept (p q : Proc V M H) : Prop where
  frags : q.mbox.frags = p.mbox.frags
  peekIndex : q.peekIndex = p.peekIndex

/-- The head message is gone and the cursor is as it was. -/
structure TookHead (p q : Proc V M H) (frag : M) : Prop where
  frags : p.mbox.frags = frag :: q.mbox.frags
  peekIndex : q.peekIndex = p.peekIndex

variable {q : Proc V (Nat × α) H} {s : Session V α H} {W : Words V M H} {p : Proc V M H}
  {frag : Nat × α} {b : BStatus}

theorem mboxPop_tookHead {q : Proc V M H} {v : V} (h : mboxPop W p = some (v, q)) :
    ∃ frag, TookHead p q frag := by
  unfold mboxPop at h
  obtain ⟨⟨frag, mbox⟩, hpop, heq⟩ := Option.map_eq_some_iff.mp h
  obtain ⟨-, rfl⟩ := Prod.mk.inj heq
  exact ⟨frag, Mailbox.pop_eq_some hpop, rfl⟩

theorem bRecv_cases {q : Proc V M H} (h : bRecv W p = some (b, q)) :
    Kept p q ∧ b = .suspend ∨ b = .ok ∧ ∃ frag, TookHead p q frag := by
  unfold bRecv at h
  split at h
  · simp only [Option.some.injEq, Prod.mk.injEq] at h
    obtain ⟨rfl, rfl⟩ := h
    exact .inl ⟨⟨rfl, rfl⟩, rfl⟩
  · obtain ⟨⟨msg, r⟩, hpop, heq⟩ := Option.map_eq_some_iff.mp h
    obtain ⟨rfl, rfl⟩ := Prod.mk.inj heq
    obtain ⟨frag, hf⟩ := mboxPop_tookHead hpop
    exact .inr ⟨rfl, frag, hf.frags, hf.peekIndex⟩

private theorem recvAfterArmed_cases {now : Int} {q : Proc V M H}
    (h : recvAfterArmed W now p = some (b, q)) :
    Kept p q ∨ 0 < p.mbox.count ∧ b = .ok ∧ ∃ frag, TookHead p q frag := by
  unfold recvAfterArmed at h
  split at h
  · next hc =>
      obtain ⟨⟨msg, r⟩, hpop, heq⟩ := Option.map_eq_some_iff.mp h
      obtain ⟨rfl, rfl⟩ := Prod.mk.inj heq
      obtain ⟨frag, hf⟩ := mboxPop_tookHead hpop
      exact .inr ⟨hc, rfl, frag, hf.frags, hf.peekIndex⟩
  · split at h <;>
    · simp only [Option.some.injEq, Prod.mk.injEq] at h
      obtain ⟨rfl, rfl⟩ := h
      exact .inl ⟨rfl, rfl⟩

/-- `recv_after` leaves the mailbox alone, or takes the head of a nonempty one
when its deadline had not fired. -/
theorem bRecvAfter_cases {now now' : Int} {q : Proc V M H} {ms : V}
    (h : bRecvAfter W now now' (procPush p ms) = some (b, q)) :
    Kept p q ∨ p.recvDeadlineMs ≠ RECV_AFTER_EXPIRED ∧ 0 < p.mbox.count ∧ b = .ok ∧
      ∃ frag, TookHead p q frag := by
  unfold bRecvAfter at h
  split at h
  · simp only [Option.some.injEq, Prod.mk.injEq] at h
    obtain ⟨rfl, rfl⟩ := h
    exact .inl ⟨rfl, rfl⟩
  · next hne =>
      split at h
      · simp only [procPop, procPush, Option.bind_some] at h
        rcases recvAfterArmed_cases h with hk | ⟨hc, hb, frag, hf⟩
        · exact .inl ⟨hk.frags, hk.peekIndex⟩
        · exact .inr ⟨hne, hc, hb, frag, hf.frags, hf.peekIndex⟩
      · rcases recvAfterArmed_cases h with hk | ⟨hc, hb, frag, hf⟩
        · exact .inl ⟨hk.frags, hk.peekIndex⟩
        · exact .inr ⟨hne, hc, hb, frag, hf.frags, hf.peekIndex⟩

theorem mboxAppend_frags (p : Proc V M H) (frag : M) :
    (mboxAppend p frag).1.mbox.frags = p.mbox.frags ++ [frag] := by
  unfold mboxAppend
  dsimp only
  split <;> rfl

theorem mboxAppend_peekIndex (p : Proc V M H) (frag : M) :
    (mboxAppend p frag).1.peekIndex = p.peekIndex := by
  unfold mboxAppend
  dsimp only
  split <;> rfl

theorem deadlineFire_kept (now : Int) (p : Proc V M H) : Kept p (deadlineFire now p).1 := by
  unfold deadlineFire
  split <;> exact ⟨rfl, rfl⟩

theorem bRecvPeek_cases {q : Proc V M H} (h : bRecvPeek W p = some (b, q)) :
    b ≠ .ok ∧ q = p ∨
      b = .ok ∧ q.mbox = p.mbox ∧ q.peekIndex = p.peekIndex + 1 ∧
        ∃ frag, p.mbox.frags[p.peekIndex]? = some frag := by
  unfold bRecvPeek at h
  split at h
  · obtain ⟨frag, hnth, heq⟩ := Option.map_eq_some_iff.mp h
    by_cases hres : W.hasResource frag = true
    · rw [if_pos hres] at heq
      obtain ⟨rfl, rfl⟩ := Prod.mk.inj heq
      exact .inl ⟨by simp, rfl⟩
    · rw [if_neg hres] at heq
      obtain ⟨rfl, rfl⟩ := Prod.mk.inj heq
      exact .inr ⟨rfl, rfl, rfl, frag, hnth⟩
  · simp only [Option.some.injEq, Prod.mk.injEq] at h
    obtain ⟨rfl, rfl⟩ := h
    exact .inl ⟨by simp, rfl⟩

/-- A commit after a peek at the fragment behind the cursor unlinks that
fragment. -/
theorem bRecvCommit_of_peeked {k : Nat} {frag : M} (hk : p.peekIndex = k + 1)
    (hf : p.mbox.frags[k]? = some frag) :
    ∃ q, bRecvCommit p = some (.ok, q) ∧ q.mbox.frags = p.mbox.frags.eraseIdx k ∧
      q.peekIndex = 0 := by
  obtain ⟨mbox, hun, hfr⟩ := Mailbox.unlink_eq hf
  refine ⟨{ p with mbox := mbox, peekIndex := 0 }, ?_, hfr, rfl⟩
  unfold bRecvCommit
  rw [hk, commitTarget_succ, hun]
  rfl

/-! ### The scan invariant -/

namespace Session

/-- What a run keeps while guards are plain: nothing is lost, one `receive` at most is
under way, and the cursor stands right behind the message of its last peek. -/
structure ScanInv (s : Session V α H) : Prop where
  serials : s.delivered.map Prod.fst = List.range s.delivered.length
  perm : (s.handed ++ s.queued).Perm s.delivered
  order : s.queued.Sublist s.delivered
  single : s.scans.length ≤ 1
  peeked : ∀ m, some m ∈ s.scans → ∃ k, s.proc.peekIndex = k + 1 ∧ s.queued[k]? = some m

theorem ScanInv.nodup (h : ScanInv s) : s.delivered.Nodup := by
  refine List.Nodup.of_map Prod.fst ?_
  rw [h.serials]
  exact List.nodup_range

theorem ScanInv.accounted (h : ScanInv s) : Accounted s :=
  ⟨h.perm, h.order, h.nodup⟩

theorem scanInv_init (p : Proc V (Nat × α) H) : ScanInv (init p) :=
  ⟨rfl, List.Perm.refl _, List.Sublist.refl _, Nat.zero_le _, by intro m h; cases h⟩

theorem ScanInv.deliver (h : ScanInv s) (m : α) :
    ScanInv { s with proc := (mboxAppend s.proc (s.delivered.length, m)).1,
                     delivered := s.delivered ++ [(s.delivered.length, m)] } where
  serials := by simp [h.serials, List.range_succ]
  perm := by
    show (s.handed ++ (mboxAppend s.proc (s.delivered.length, m)).1.mbox.frags).Perm _
    rw [mboxAppend_frags, ← List.append_assoc]
    exact h.perm.append_right _
  order := by
    show ((mboxAppend s.proc (s.delivered.length, m)).1.mbox.frags).Sublist _
    rw [mboxAppend_frags]
    exact h.order.append (List.Sublist.refl _)
  single := h.single
  peeked := by
    intro x hx
    obtain ⟨k, hk, hget⟩ := h.peeked x hx
    refine ⟨k, (mboxAppend_peekIndex _ _).trans hk, ?_⟩
    show ((mboxAppend s.proc (s.delivered.length, m)).1.mbox.frags)[k]? = some x
    have hlt : k < s.proc.mbox.frags.length := (List.getElem?_eq_some_iff.mp hget).1
    rw [mboxAppend_frags, List.getElem?_append_left hlt]
    exact hget

/-- A step that leaves mailbox and cursor alone keeps everything. -/
theorem ScanInv.kept (h : ScanInv s) (hq : Kept s.proc q) : ScanInv { s with proc := q } where
  serials := h.serials
  perm := by
    show (s.handed ++ q.mbox.frags).Perm _
    rw [hq.frags]; exact h.perm
  order := by
    show q.mbox.frags.Sublist _
    rw [hq.frags]; exact h.order
  single := h.single
  peeked := by
    intro m hm
    obtain ⟨k, hk, hget⟩ := h.peeked m hm
    refine ⟨k, hq.peekIndex.trans hk, ?_⟩
    show q.mbox.frags[k]? = some m
    rw [hq.frags]; exact hget

/-- Handing out the head between scans keeps everything: with the cursor at the
front there is no peeked message whose place could move. -/
theorem ScanInv.tookHead (h : ScanInv s) (hq : TookHead s.proc q frag)
    (hrest : s.proc.peekIndex = 0) :
    ScanInv { s with proc := q, handed := s.handed ++ [frag] } where
  serials := h.serials
  perm := by
    show (s.handed ++ [frag] ++ q.mbox.frags).Perm _
    rw [List.append_assoc, List.singleton_append, ← hq.frags]
    exact h.perm
  order := by
    refine List.Sublist.trans ?_ h.order
    show q.mbox.frags.Sublist s.proc.mbox.frags
    rw [hq.frags]
    exact List.sublist_cons_self _ _
  single := h.single
  peeked := by
    intro m hm
    obtain ⟨k, hk, -⟩ := h.peeked m hm
    omega

theorem received_tookHead (hq : TookHead s.proc q frag) :
    s.received (.ok, q) = { s with proc := q, handed := s.handed ++ [frag] } := by
  have htake : s.queued.take (s.queued.length - q.mbox.frags.length) = [frag] := by
    simp [queued, hq.frags]
  simp only [received, htake]

theorem received_kept (h : ScanInv s) (hq : Kept s.proc q) : ScanInv (s.received (b, q)) := by
  cases b with
  | ok =>
      have htake : s.queued.take (s.queued.length - q.mbox.frags.length) = [] := by
        simp [queued, hq.frags]
      simp only [received, htake, List.append_nil]
      exact h.kept hq
  | suspend => exact h.kept ⟨hq.frags, hq.peekIndex⟩
  | died => exact h.kept ⟨hq.frags, hq.peekIndex⟩

theorem ScanInv.tail (h : ScanInv s) : s.scans.tail = [] := by
  rw [← List.length_eq_zero_iff, List.length_tail]
  have := h.single
  omega

/-- Committing hands out the message the cursor stands behind. -/
theorem ScanInv.commit (h : ScanInv s) {m : Nat × α} (hm : s.scans.head? = some (some m)) :
    ∃ q k, bRecvCommit s.proc = some (.ok, q) ∧ s.queued[k]? = some m ∧
      q.mbox.frags = s.queued.eraseIdx k ∧
      ScanInv { s with proc := q, handed := s.handed ++ [m], scans := s.scans.tail } := by
  obtain ⟨k, hk, hget⟩ := h.peeked m (List.mem_of_head? hm)
  obtain ⟨q, hq, hfr, -⟩ := bRecvCommit_of_peeked hk hget
  rw [h.tail]
  refine ⟨q, k, hq, hget, hfr, h.serials, ?_, ?_, Nat.zero_le _, by intro x hx; cases hx⟩
  · obtain ⟨hlt, hval⟩ := List.getElem?_eq_some_iff.mp hget
    show (s.handed ++ [m] ++ q.mbox.frags).Perm _
    rw [hfr, List.append_assoc, List.singleton_append, ← hval]
    exact ((List.getElem_cons_eraseIdx_perm hlt).append_left _).trans h.perm
  · show q.mbox.frags.Sublist _
    rw [hfr]
    exact (List.eraseIdx_sublist _ _).trans h.order

theorem ScanInv.begin (h : ScanInv s) (hnone : s.scans = []) :
    ScanInv { s with scans := none :: s.scans } where
  serials := h.serials
  perm := h.perm
  order := h.order
  single := by rw [hnone]; exact Nat.le_refl _
  peeked := by
    intro m hm
    rw [hnone, List.mem_singleton] at hm
    cases hm

theorem ScanInv.peek (h : ScanInv s) (hmb : q.mbox = s.proc.mbox)
    (hidx : q.peekIndex = s.proc.peekIndex + 1) :
    ScanInv { s with proc := q, scans := s.queued[s.proc.peekIndex]? :: s.scans.tail } where
  serials := h.serials
  perm := by
    show (s.handed ++ q.mbox.frags).Perm _
    rw [hmb]; exact h.perm
  order := by
    show q.mbox.frags.Sublist _
    rw [hmb]; exact h.order
  single := by
    rw [h.tail]
    exact Nat.le_refl _
  peeked := by
    intro m hm
    rw [h.tail, List.mem_singleton] at hm
    refine ⟨s.proc.peekIndex, hidx, ?_⟩
    show q.mbox.frags[s.proc.peekIndex]? = some m
    rw [hmb]
    exact hm.symm

/-! ### Steps and runs -/

theorem takes_of_tookHead (hq : TookHead s.proc q frag) : 0 < s.proc.mbox.count := by
  rw [Mailbox.count_pos_iff, hq.frags]
  exact List.cons_ne_nil _ _

/-- A step with plain guards keeps the invariant. -/
theorem ScanInv.step {W : Words V (Nat × α) H} {t : Session V α H} {op : MailOp V α}
    (h : ScanInv s) (hg : PlainGuards s op) (hs : s.step W op = some t) : ScanInv t := by
  cases op with
  | deliver m =>
      obtain rfl : _ = t := Option.some.inj hs
      exact h.deliver m
  | recv =>
      obtain ⟨⟨b, q⟩, hr, rfl⟩ := Option.map_eq_some_iff.mp hs
      rcases bRecv_cases hr with ⟨hk, -⟩ | ⟨rfl, frag, hf⟩
      · exact received_kept h hk
      · have htakes : s.takes .recv = true := by
          simpa [takes] using takes_of_tookHead hf
        rw [received_tookHead hf]
        exact h.tookHead hf (hg.1 htakes)
  | recvAfter ms now now' =>
      obtain ⟨⟨b, q⟩, hr, rfl⟩ := Option.map_eq_some_iff.mp hs
      rcases bRecvAfter_cases hr with hk | ⟨hne, hc, rfl, frag, hf⟩
      · exact received_kept h hk
      · have htakes : s.takes (.recvAfter ms now now') = true := by
          simp [takes, hne, hc]
        rw [received_tookHead hf]
        exact h.tookHead hf (hg.1 htakes)
  | deadlineScan now =>
      obtain rfl : _ = t := Option.some.inj hs
      exact h.kept (deadlineFire_kept now s.proc)
  | recvBegin =>
      obtain rfl : _ = t := Option.some.inj hs
      exact h.begin (hg.2 rfl)
  | recvPeek =>
      obtain ⟨-, -, hs⟩ := Option.bind_eq_some_iff.mp hs
      obtain ⟨⟨b, q⟩, hr, ht⟩ := Option.bind_eq_some_iff.mp hs
      rcases bRecvPeek_cases hr with ⟨hb, rfl⟩ | ⟨rfl, hmb, hidx, -⟩
      · cases b with
        | ok => exact absurd rfl hb
        | suspend =>
            obtain rfl : _ = t := Option.some.inj ht
            exact h.kept ⟨rfl, rfl⟩
        | died => exact absurd ht (by simp)
      · obtain rfl : _ = t := Option.some.inj ht
        exact h.peek hmb hidx
  | recvCommit =>
      obtain ⟨m, hm, hc⟩ := Option.bind_eq_some_iff.mp hs
      obtain ⟨q, k, hq, -, -, hinv⟩ := h.commit (Option.join_eq_some_iff.mp hm)
      rw [hq] at hc
      obtain rfl : _ = t := Option.some.inj hc
      exact hinv

theorem scanInv_run {W : Words V (Nat × α) H} {p : Proc V (Nat × α) H} {ops : List (MailOp V α)}
    (h : Run (guarded PlainGuards (ofFn (step W))) (init p) ops s) : ScanInv s :=
  h.invariant (fun _ _ _ hi hs => hi.step hs.1 hs.2) (scanInv_init p)

/-- **Every message is handed out once.**  In every state of a run whose guards take no message
and begin no `receive`, what was handed out and what is queued is what was delivered, and a
commit removes the message of the last peek of its `receive` and no other. -/
theorem receive_hands_out_once (W : Words V (Nat × α) H) (p : Proc V (Nat × α) H)
    (ops : List (MailOp V α)) (s : Session V α H)
    (h : Run (guarded PlainGuards (ofFn (step W))) (init p) ops s) :
    Accounted s ∧
      ∀ m, s.scans.head? = some (some m) →
        ∃ t l₁ l₂, s.step W .recvCommit = some t ∧ s.queued = l₁ ++ m :: l₂ ∧
          t.queued = l₁ ++ l₂ := by
  have hinv := scanInv_run h
  refine ⟨hinv.accounted, ?_⟩
  intro m hm
  obtain ⟨q, k, hq, hget, hfr, -⟩ := hinv.commit hm
  obtain ⟨hlt, hval⟩ := List.getElem?_eq_some_iff.mp hget
  refine ⟨{ s with proc := q, handed := s.handed ++ [m], scans := s.scans.tail },
    s.queued.take k, s.queued.drop (k + 1), ?_, ?_, ?_⟩
  · simp only [step, hm, hq, Option.join_some, Option.bind_some, Option.map_some]
  · rw [← hval, List.getElem_cons_drop, List.take_append_drop]
  · show q.mbox.frags = _
    rw [hfr, List.eraseIdx_eq_take_drop_succ]

/-- Words that are integers, with messages that are their own copies. -/
def intWords : Words Int (Nat × Int) Unit where
  nil := 0
  ofPid := Int.ofNat
  getPid := Int.toNat
  ofInt := id
  getInt := id
  closureFid := fun _ => none
  hasResource := fun _ => false
  deepCopy := fun h m => (m.2, h)
  fragCopy := fun _ v => (0, v)
  sendCheck := fun _ _ _ _ => true
  setFragOwner := fun m _ => m
  setOwner := fun h _ _ => h
  spawnCopy := fun h v _ _ => some (v, h)
  downMsg := fun h ref _ => (ref, h)

/-- An actor that has just been created. -/
def idleProc : Proc Int (Nat × Int) Unit where
  pid := 1
  state := .running
  stack := []
  heap := ()
  pc := 0
  base := 0
  cbase := 0
  acc := 0
  hasAcc := false
  mbox := .empty
  peekIndex := 0
  recvDeadlineMs := -1
  watchers := []
  waitRegistered := false

/-- A scan that skips the first of two messages, takes the second, and a `recv`
after it: the second message is handed out, then the first. -/
theorem receive_hands_out_once_skip :
    ∃ s, Run (guarded PlainGuards (ofFn (step intWords))) (init idleProc)
        [.deliver 7, .deliver 8, .recvBegin, .recvPeek, .recvPeek, .recvCommit, .recv] s ∧
      s.handed = [(1, 8), (0, 7)] ∧ s.queued = [] ∧ Accounted s := by
  have hrun : Run (guarded PlainGuards (ofFn (step intWords))) (init idleProc)
      [.deliver 7, .deliver 8, .recvBegin, .recvPeek, .recvPeek, .recvCommit, .recv] _ :=
    Run.guarded_iff.mpr rfl
  exact ⟨_, hrun, rfl, rfl, (receive_hands_out_once intWords idleProc _ _ hrun).1⟩

/-! ### Taking a message during a scan -/

/-- A guard that receives: the scan has peeked at message 0 when `recv` takes it, and the commit
then removes message 1, so that message 0 is handed out twice and message 1 never.  If the guard
is a `receive`, it hands out message 1, and the commit around it removes message 2 instead of
message 0. -/
theorem guard_recv_loses_message :
    (∃ s t, Run (ofFn (step intWords)) (init idleProc)
        [.deliver 7, .deliver 8, .recvBegin, .recvPeek, .recv] s ∧
      s.scans = [some (0, 7)] ∧ s.step intWords .recvCommit = some t ∧
      s.queued = [(1, 8)] ∧ t.queued = [] ∧ t.handed = [(0, 7), (0, 7)] ∧
      t.delivered = [(0, 7), (1, 8)] ∧ ¬ Accounted t) ∧
    ∃ s t, Run (ofFn (step intWords)) (init idleProc)
        [.deliver 7, .deliver 8, .deliver 9, .recvBegin, .recvPeek, .recvBegin, .recvPeek,
          .recvCommit] s ∧
      s.scans = [some (0, 7)] ∧ s.step intWords .recvCommit = some t ∧
      s.queued = [(0, 7), (2, 9)] ∧ t.queued = [(0, 7)] ∧ t.handed = [(1, 8), (0, 7)] ∧
      t.delivered = [(0, 7), (1, 8), (2, 9)] ∧ ¬ Accounted t := by
  refine ⟨⟨_, _, Run.ofFn_iff.mpr rfl, rfl, rfl, rfl, rfl, rfl, rfl, fun h => ?_⟩,
    _, _, Run.ofFn_iff.mpr rfl, rfl, rfl, rfl, rfl, rfl, rfl, fun h => ?_⟩
  · have hperm : [((0 : Nat), (7 : Int)), (0, 7)].Perm [(0, 7), (1, 8)] := h.perm
    exact absurd hperm (by decide)
  · have hperm : [((1 : Nat), (8 : Int)), (0, 7), (0, 7)].Perm [(0, 7), (1, 8), (2, 9)] := h.perm
    exact absurd hperm (by decide)

end Session

end TinyActor.Runtime
