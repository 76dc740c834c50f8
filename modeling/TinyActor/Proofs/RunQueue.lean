/-
The ring of `src/scheduler.c` is a queue.

`Models` relates a ring to the pids waiting in it.  Each operation that keeps the
counters below `INT_MAX` carries it on and returns what the queue without bound
returns, so a whole run does.  The counters never go down between two doublings,
though, and nothing else stops them: after 2^31 + 1 pids have gone through a ring
that did not have to grow, the next one is written 255 cells before the block.
-/
import TinyActor.Lib.Ring
import TinyActor.Runtime.RunQueue

namespace TinyActor.Runtime

open TinyActor.Lib

variable {q : RunQueue} {xs : List Int}

namespace RunQueue

/-! ### Cells and counters -/

theorem readCell_ofNat (block : List (Option Int)) (n : Nat) :
    readCell block n = (block[n]?).join := by
  simp [readCell]

theorem writeCell_ofNat {block : List (Option Int)} {n : Nat} (h : n < block.length) (x : Int) :
    writeCell block n x = some (block.set n (some x)) := by
  simp [writeCell, h]

/-- The index of a counter that is not negative. -/
theorem tmod_ofNat {c : Int} (hc : 0 ≤ c) (n : Nat) :
    c.tmod n = ((c.toNat % n : Nat) : Int) := by
  rw [Int.tmod_eq_emod_of_nonneg hc, Int.natCast_mod, Int.toNat_of_nonneg hc]

/-! ### The ring and the pids in it -/

/-- The ring holds the pids `xs`, oldest first. -/
structure Models (q : RunQueue) (xs : List Int) : Prop where
  cap : q.rqCap = q.runq.length
  pos : 0 < q.runq.length
  capMax : q.rqCap < 2 ^ 31
  head : 0 ≤ q.rqHead
  tail : q.rqTail = q.rqHead + xs.length
  tailMax : q.rqTail < 2 ^ 31
  count : q.rqCount = xs.length
  holds : Ring.Holds q.runq q.rqHead.toNat xs

theorem models_new : Models new [] where
  cap := by rw [show new.runq.length = 256 from List.length_replicate]; rfl
  pos := by rw [show new.runq.length = 256 from List.length_replicate]; omega
  capMax := by rw [show new.rqCap = 256 from rfl]; omega
  head := le_refl _
  tail := rfl
  tailMax := by rw [show new.rqTail = 0 from rfl]; omega
  count := rfl
  holds := Ring.holds_nil _ _

/-- The test for a full ring sees the number of pids. -/
theorem Models.waiting (h : Models q xs) : int32 (q.rqTail - q.rqHead) = xs.length := by
  have h1 := h.tail
  have h2 := h.tailMax
  have h3 := h.head
  rw [int32_of_range (by omega) (by omega)]
  omega

/-! ### Growing -/

/-- The copying loop fills the front of the new block with the pids in order. -/
theorem copyLoop_models (h : Models q xs) (k : Nat) :
    ∀ (i : Nat) (newQ : List (Option Int)), i + k = xs.length → xs.length ≤ newQ.length →
      (∀ j (hj : j < xs.length), j < i → newQ[j]? = some (some xs[j])) →
      ∃ block, copyLoop q k i newQ = some block ∧ block.length = newQ.length ∧
        ∀ j (hj : j < xs.length), block[j]? = some (some xs[j]) := by
  induction k with
  | zero =>
      intro i newQ hik _ hdone
      exact ⟨newQ, rfl, rfl, fun j hj => hdone j hj (by omega)⟩
  | succ k ih =>
      intro i newQ hik hroom hdone
      have hi : i < xs.length := by omega
      have htail := h.tail
      have hmax := h.tailMax
      have hhead := h.head
      have hread : readCell q.runq ((int32 (q.rqHead + i)).tmod q.rqCap) = some xs[i] := by
        rw [int32_of_range (by omega) (by omega), h.cap, tmod_ofNat (by omega), readCell_ofNat,
          show (q.rqHead + (i : Int)).toNat = q.rqHead.toNat + i by omega, h.holds.cell i hi]
        rfl
      have hwrite := writeCell_ofNat (show i < newQ.length by omega) xs[i]
      obtain ⟨block, hb, hlen, hcells⟩ := ih (i + 1) (newQ.set i (some xs[i])) (by omega)
        (by simpa using hroom) (by
          intro j hj hji
          by_cases hj' : j = i
          · subst hj'
            simp [show j < newQ.length by omega]
          · rw [List.getElem?_set_ne (by omega)]
            exact hdone j hj (by omega))
      refine ⟨block, ?_, by simpa using hlen, hcells⟩
      simp only [copyLoop, hread, Option.bind_some, hwrite]
      exact_mod_cast hb

/-- A ring that may double does, and holds the same pids with a cell to spare. -/
theorem Models.grow (h : Models q xs) (hcap : q.rqCap * 2 < 2 ^ 31) :
    ∃ q', q.grow = some q' ∧ Models q' xs ∧ q'.rqTail = xs.length ∧
      q'.rqCap = q.rqCap * 2 := by
  have hlen := h.cap
  have hpos := h.pos
  have hfit := h.holds.fits
  have hnew : int32 (q.rqCap * 2) = ((q.runq.length * 2 : Nat) : Int) := by
    rw [int32_of_range (by omega) (by omega)]
    omega
  obtain ⟨block, hb, hblen, hcells⟩ := copyLoop_models h xs.length 0
    (.replicate (q.runq.length * 2) none) (by omega)
    (by simp only [List.length_replicate]; omega) (fun j _ hj => absurd hj (Nat.not_lt_zero j))
  rw [List.length_replicate] at hblen
  refine ⟨{ q with runq := block, rqCap := int32 (q.rqCap * 2), rqHead := 0,
                   rqTail := xs.length }, ?_, ?_, rfl, ?_⟩
  · have hmalloc : malloc (int32 (q.rqCap * 2)) =
        some (.replicate (q.runq.length * 2) none) := by
      rw [hnew, malloc, if_pos (Int.natCast_nonneg _), Int.toNat_natCast]
    simp only [RunQueue.grow, hmalloc, h.waiting, Int.toNat_natCast, Option.bind_some]
    rw [show copyLoop q xs.length 0 _ = some block from hb]
    rfl
  · exact
      { cap := by simp only [hnew, hblen]
        pos := by simp only [hblen]; omega
        capMax := by simp only [hnew]; omega
        head := le_refl _
        tail := by simp
        tailMax := by simp only; omega
        count := h.count
        holds := Ring.holds_copied (by simp only [hblen]; omega) hcells }
  · simp only [hnew]
    omega

/-! ### One operation -/

/-- What the last branch of `runq_enqueue` does if its index is a cell. -/
theorem append_of_index {n : Nat} (hindex : q.rqTail.tmod q.rqCap = n) (hn : n < q.runq.length)
    (pid : Int) :
    q.append pid = some { q with
      runq := q.runq.set n (some pid), rqTail := int32 (q.rqTail + 1),
      rqCount := int32 (q.rqCount + 1) } := by
  rw [append, hindex, writeCell_ofNat hn]
  rfl

/-- Appending to a ring with a free cell. -/
theorem Models.append (h : Models q xs) (hroom : xs.length < q.runq.length)
    (hmax : q.rqTail < 2 ^ 31 - 1) (pid : Int) :
    ∃ q', q.append pid = some q' ∧ Models q' (xs ++ [pid]) := by
  have htail := h.tail
  have hhead := h.head
  have hcount := h.count
  have hindex : q.rqTail.tmod q.rqCap =
      (((q.rqHead.toNat + xs.length) % q.runq.length : Nat) : Int) := by
    rw [h.cap, tmod_ofNat (by omega), htail]
    congr 2
    omega
  have htail' : int32 (q.rqTail + 1) = q.rqTail + 1 := int32_of_range (by omega) (by omega)
  have hcount' : int32 (q.rqCount + 1) = q.rqCount + 1 := int32_of_range (by omega) (by omega)
  refine ⟨_, append_of_index hindex (Nat.mod_lt _ h.pos) pid, ?_⟩
  exact
    { cap := by simpa using h.cap
      pos := by simpa using h.pos
      capMax := h.capMax
      head := hhead
      tail := by simp only [htail', List.length_append, List.length_singleton]; omega
      tailMax := by simp only [htail']; omega
      count := by simp only [hcount', List.length_append, List.length_singleton]; omega
      holds := h.holds.push hroom pid }

/-- An enqueue that keeps the counters in range appends its pid. -/
theorem Models.enqueue (h : Models q xs) {pid : Int} (hfits : q.fits (.enqueue pid) = true) :
    ∃ q', q.runqEnqueue pid = some q' ∧ Models q' (xs ++ [pid]) := by
  have htail := h.tail
  have hcap := h.cap
  have hlen := h.holds.fits
  unfold runqEnqueue
  rw [h.waiting]
  by_cases hfull : q.rqCap ≤ xs.length
  · have hdouble : q.rqCap * 2 < 2 ^ 31 := by
      simpa [fits, show ¬ q.rqTail - q.rqHead < q.rqCap by omega] using hfits
    obtain ⟨g, hg, hmodels, hgtail, hgcap⟩ := h.grow hdouble
    have hgroom := hmodels.cap
    obtain ⟨q', hq', hm'⟩ := hmodels.append (by have := h.pos; omega) (by omega) pid
    exact ⟨q', by rw [if_pos hfull, hg]; exact hq', hm'⟩
  · have hmax : q.rqTail < 2 ^ 31 - 1 := by
      simpa [fits, show q.rqTail - q.rqHead < q.rqCap by omega] using hfits
    obtain ⟨q', hq', hm'⟩ := h.append (by omega) hmax pid
    exact ⟨q', by rw [if_neg hfull]; exact hq', hm'⟩

/-- A dequeue of an empty ring reports it. -/
theorem Models.dequeue_nil (h : Models q []) : q.runqTrydequeue = some (-1, q) := by
  have hcount : q.rqCount = 0 := by simpa using h.count
  rw [runqTrydequeue, if_pos hcount]

/-- A dequeue takes the oldest pid. -/
theorem Models.dequeue_cons {x : Int} (h : Models q (x :: xs)) :
    ∃ q', q.runqTrydequeue = some (x, q') ∧ Models q' xs := by
  have htail := h.tail
  have hhead := h.head
  have hcount := h.count
  have hmax := h.tailMax
  simp only [List.length_cons] at htail hcount
  have hread : readCell q.runq (q.rqHead.tmod q.rqCap) = some x := by
    rw [h.cap, tmod_ofNat hhead, readCell_ofNat, h.holds.first]
    rfl
  refine ⟨{ q with rqHead := int32 (q.rqHead + 1), rqCount := int32 (q.rqCount - 1) }, ?_, ?_⟩
  · rw [runqTrydequeue, if_neg (by omega), hread]
    rfl
  · have hhead' : int32 (q.rqHead + 1) = q.rqHead + 1 := int32_of_range (by omega) (by omega)
    exact
      { cap := h.cap
        pos := h.pos
        capMax := h.capMax
        head := by simp only [hhead']; omega
        tail := by simp only [hhead']; omega
        tailMax := hmax
        count := by simp only; rw [int32_of_range (by omega) (by omega)]; omega
        holds := by
          simp only [hhead']
          rw [show (q.rqHead + 1).toNat = q.rqHead.toNat + 1 by omega]
          exact h.holds.pop }

/-! ### Whole runs -/

/-- A run from a ring that holds `xs` returns what the queue `xs` returns. -/
theorem Models.run_fifo {ops : List Op} : ∀ {q : RunQueue} {xs : List Int}, Models q xs →
    q.allFit ops = true → ∃ q', q.run ops = some ((fifo xs ops).1, q') ∧ Models q' (fifo xs ops).2 := by
  induction ops with
  | nil =>
      intro q xs h _
      exact ⟨q, rfl, h⟩
  | cons op ops ih =>
      intro q xs h hfit
      obtain ⟨hop, hrest⟩ : q.fits op = true ∧ ∀ out q₁, q.step op = some (out, q₁) →
          q₁.allFit ops = true := by
        simp only [allFit, Bool.and_eq_true] at hfit
        refine ⟨hfit.1, ?_⟩
        intro out q₁ hstep
        simpa only [hstep] using hfit.2
      cases op with
      | enqueue pid =>
          obtain ⟨q₁, hq₁, hm₁⟩ := h.enqueue hop
          have hstep : q.step (.enqueue pid) = some ([], q₁) := by simp [step, hq₁]
          obtain ⟨q', hq', hm'⟩ := ih hm₁ (hrest _ _ hstep)
          refine ⟨q', ?_, hm'⟩
          rw [run, hstep]
          simp [hq', fifo]
      | dequeue =>
          cases xs with
          | nil =>
              have hstep : q.step .dequeue = some ([-1], q) := by simp [step, h.dequeue_nil]
              obtain ⟨q', hq', hm'⟩ := ih h (hrest _ _ hstep)
              refine ⟨q', ?_, hm'⟩
              rw [run, hstep]
              simp [hq', fifo]
          | cons x xs =>
              obtain ⟨q₁, hq₁, hm₁⟩ := h.dequeue_cons
              have hstep : q.step .dequeue = some ([x], q₁) := by simp [step, hq₁]
              obtain ⟨q', hq', hm'⟩ := ih hm₁ (hrest _ _ hstep)
              refine ⟨q', ?_, hm'⟩
              rw [run, hstep]
              simp [hq', fifo]

/-- **The run queue is a queue.**  As long as the counters of the operations stay
below `INT_MAX`, no access leaves the ring, and the dequeues return what a queue
without bound returns, whatever was enqueued and however often the ring grew. -/
theorem run_eq_fifo (ops : List Op) (hfit : new.allFit ops = true) :
    (new.run ops).map Prod.fst = some (fifo [] ops).1 := by
  obtain ⟨q', hq', -⟩ := models_new.run_fifo hfit
  rw [hq']
  rfl

theorem run_eq_fifo_sample :
    (new.run [.enqueue 4, .enqueue 9, .dequeue, .dequeue, .dequeue]).map Prod.fst =
      some [4, 9, -1] := by
  exact run_eq_fifo [.enqueue 4, .enqueue 9, .dequeue, .dequeue, .dequeue] (by decide +kernel)

/-! ### A counter that reaches its end -/

/-- An empty ring of 256 cells whose counters stand at `c`. -/
structure Idle (q : RunQueue) (c : Int) : Prop where
  cells : q.runq.length = 256
  cap : q.rqCap = 256
  head : q.rqHead = c
  tail : q.rqTail = c
  count : q.rqCount = 0

theorem idle_new : Idle new 0 :=
  ⟨List.length_replicate, rfl, rfl, rfl, rfl⟩

/-- A pid through an empty ring, when its counter gives a cell. -/
theorem Idle.pair {c : Int} (h : Idle q c) (hc : 0 ≤ c.tmod 256) (pid : Int) :
    ∃ q', Idle q' (int32 (c + 1)) ∧
      ∀ ops, q'.run ops = none → q.run (.enqueue pid :: .dequeue :: ops) = none := by
  obtain ⟨hcells, hcap, hhead, htail, hcount⟩ := h
  have hlt : (c.tmod 256).toNat < q.runq.length := by
    have := Int.tmod_lt_of_pos c (show (0 : Int) < 256 by omega)
    omega
  have hindex : q.rqTail.tmod q.rqCap = (c.tmod 256).toNat := by
    rw [htail, hcap]
    omega
  have henq : q.runqEnqueue pid = some { q with
      runq := q.runq.set (c.tmod 256).toNat (some pid), rqTail := int32 (c + 1), rqCount := 1 } := by
    rw [runqEnqueue, if_neg (by rw [htail, hhead, hcap, Int.sub_self]; decide),
      append_of_index hindex hlt, htail, hcount]
    rfl
  have hdeq : ({ q with runq := q.runq.set (c.tmod 256).toNat (some pid),
                        rqTail := int32 (c + 1), rqCount := 1 } : RunQueue).runqTrydequeue =
      some (pid, { q with
        runq := q.runq.set (c.tmod 256).toNat (some pid), rqHead := int32 (c + 1),
        rqTail := int32 (c + 1), rqCount := 0 }) := by
    have hread : readCell (q.runq.set (c.tmod 256).toNat (some pid)) (c.tmod 256) = some pid := by
      rw [← Int.toNat_of_nonneg hc, readCell_ofNat, Int.toNat_natCast]
      simp [hlt]
    rw [runqTrydequeue, if_neg (show ¬ (1 : Int) = 0 by decide), hhead, hcap, hread]
    rfl
  refine ⟨{ q with
    runq := q.runq.set (c.tmod 256).toNat (some pid), rqHead := int32 (c + 1),
    rqTail := int32 (c + 1), rqCount := 0 }, ⟨by simpa using hcells, hcap, rfl, rfl, rfl⟩, ?_⟩
  intro ops hops
  simp only [run, step, henq, hdeq, Option.map_some, Option.bind_some, hops, Option.map_none]

/-- The operations that send `k` pids through a ring, one at a time. -/
def pairs : Nat → List Op
  | 0 => []
  | k + 1 => .enqueue 0 :: .dequeue :: pairs k

/-- Sending pids through an empty ring moves its counters on by their number. -/
theorem Idle.pairs {k : Nat} : ∀ {q : RunQueue} {c : Int}, Idle q (int32 c) →
    (∀ j : Nat, j < k → 0 ≤ (int32 (c + j)).tmod 256) →
    ∃ q', Idle q' (int32 (c + k)) ∧
      ∀ ops, q'.run ops = none → q.run (RunQueue.pairs k ++ ops) = none := by
  induction k with
  | zero =>
      intro q c h _
      refine ⟨q, by simpa using h, ?_⟩
      intro ops hops
      exact hops
  | succ k ih =>
      intro q c h hcells
      obtain ⟨q₁, h₁, hrun₁⟩ := h.pair (by simpa using hcells 0 (by omega)) 0
      rw [int32_add] at h₁
      obtain ⟨q', h', hrun'⟩ := ih h₁ (by
        intro j hj
        have := hcells (j + 1) (by omega)
        rwa [show c + ((j + 1 : Nat) : Int) = c + 1 + j by omega] at this)
      refine ⟨q', ?_, ?_⟩
      · rwa [show c + ((k + 1 : Nat) : Int) = c + 1 + k by omega]
      · intro ops hops
        exact hrun₁ _ (hrun' ops hops)

/-- The counters that the first 2^31 + 1 pids find give cells of the ring. -/
theorem index_of_le {j : Nat} (hj : j < 2 ^ 31 + 1) : 0 ≤ (int32 (0 + (j : Int))).tmod 256 := by
  by_cases hlast : j = 2 ^ 31
  · subst hlast
    decide
  · rw [int32_of_range (by omega) (by omega)]
    exact Int.tmod_nonneg _ (by omega)

/-- After 2^31 + 1 pids have passed through the ring, the next enqueue writes
outside it. -/
theorem enqueue_out_of_ring : new.run (pairs (2 ^ 31 + 1) ++ [.enqueue 0]) = none := by
  obtain ⟨q, hq, hrun⟩ := Idle.pairs (k := 2 ^ 31 + 1) (c := 0)
    (show Idle new (int32 0) from idle_new) (fun j hj => index_of_le hj)
  refine hrun _ ?_
  have htail : q.rqTail = -(2 ^ 31 - 1) := hq.tail.trans (by decide)
  have hwrite : q.append 0 = none := by
    rw [append, htail, hq.cap, writeCell, if_neg (fun h => absurd h.1 (by decide))]
    rfl
  have hfull : ¬ q.rqCap ≤ int32 (q.rqTail - q.rqHead) := by
    rw [hq.tail, hq.head, hq.cap, Int.sub_self]
    decide
  simp only [run, step, runqEnqueue, if_neg hfull, hwrite, Option.map_none, Option.bind_none]

end RunQueue

end TinyActor.Runtime
