/-
A whole collection: the sizes, the copy and the sweep together.

`Proofs/Gc.lean` proves the copy against a list of the objects it may meet.  Here
that list is what an actor has: a heap whose objects lie one behind the other, and
the chunks of a native call.  The destination is sized for all of them, so the
copy never runs out of room, and what it reports as alive is what
`Proofs/Arena.lean` takes a collection to find.
-/
import Mathlib.Tactic.IntervalCases
import TinyActor.Proofs.Gc

namespace TinyActor.Runtime.Gc

open TinyActor.Lib

/-- The memory of an actor at a collection.  `heap` are the objects of its heap in
address order, `chunk` those of the native call that is being brought home. -/
structure WellFormed (S : Spaces) (cells : Cells) (roots : List Nat) (heap : List Obj)
    (chunk : List (Nat × Obj)) : Prop where
  laid : ∀ {i : Nat} (hi : i < heap.length), cells (startOf S.mem heap i) = some (.obj heap[i])
  heapBytes : extent Obj.stride heap = S.heapPtr
  /-- A pointer leads to an object. -/
  live : ∀ {a : Nat}, Reach Obj.refs (store cells) roots a → ∃ o, cells a = some (.obj o)
  /-- A pointer into the heap or a chunk leads to the start of an object there. -/
  starts : ∀ {a : Nat} {o : Obj}, Reach Obj.refs (store cells) roots a → S.gcCopyable a = true →
    cells a = some (.obj o) →
      (∃ i, ∃ _ : i < heap.length, a = startOf S.mem heap i) ∨ (a, o) ∈ chunk
  /-- What lies outside, such as a constant, does not point in. -/
  closed : ∀ {a b : Nat} {o : Obj}, Reach Obj.refs (store cells) roots a → S.gcCopyable a = false →
    cells a = some (.obj o) → b ∈ o.refs → S.gcCopyable b = false
  apart : ∀ {a : Nat}, Reach Obj.refs (store cells) roots a ∨ S.gcCopyable a = true →
    a < S.gcTo ∨ S.gcTo + S.room ≤ a

namespace WellFormed

variable {S : Spaces} {cells : Cells} {roots : List Nat} {heap : List Obj}
  {chunk : List (Nat × Obj)}

theorem source (w : WellFormed S cells roots heap chunk)
    (hfit : (S.heapPtr : Int) + bytes chunk ≤ S.room) :
    Source S cells roots (placed Obj.stride S.mem heap ++ chunk) where
  live := w.live
  copied := by
    intro a o hreach hcopy hcell
    rcases w.starts hreach hcopy hcell with ⟨i, hi, rfl⟩ | hmem
    · rw [w.laid hi] at hcell
      have heq : heap[i] = o := Cell.obj.inj (Option.some.inj hcell)
      rw [← heq]
      exact List.mem_append_left _ (getElem_mem_placed S.mem heap hi)
    · exact List.mem_append_right _ hmem
  closed := w.closed
  apart := w.apart
  fits := by
    have hheap : bytes (placed Obj.stride S.mem heap) = S.heapPtr :=
      (extent_placed S.mem heap).trans w.heapBytes
    have : bytes (placed Obj.stride S.mem heap ++ chunk) =
        bytes (placed Obj.stride S.mem heap) + bytes chunk := extent_append ..
    omega

theorem length_objs (w : WellFormed S cells roots heap chunk) :
    (placed Obj.stride S.mem heap ++ chunk).length ≤ S.heapPtr + bytes chunk := by
  calc (placed Obj.stride S.mem heap ++ chunk).length
      ≤ bytes (placed Obj.stride S.mem heap ++ chunk) :=
        length_le_extent (fun x : Nat × Obj => x.2.stride_pos) _
    _ = S.heapPtr + bytes chunk := by
        rw [bytes, extent_append, show extent _ (placed Obj.stride S.mem heap) = S.heapPtr from
          (extent_placed S.mem heap).trans w.heapBytes]

/-- Every object of the heap can be copied. -/
theorem copyable_start (w : WellFormed S cells roots heap chunk) {i : Nat} (hi : i < heap.length) :
    S.gcCopyable (startOf S.mem heap i) = true := by
  have hlt := startOf_lt S.mem hi
  rw [w.heapBytes] at hlt
  unfold Spaces.gcCopyable Spaces.inFromspace
  simp only [Bool.or_eq_true, decide_eq_true_eq]
  exact .inl ⟨Nat.le_add_right _ _, hlt⟩

end WellFormed

/-! ### The roots -/

theorem gcCopyVals_append (S : Spaces) (h : Heap) (vs us : List Val) :
    gcCopyVals S h (vs ++ us) =
      (gcCopyVals S h vs).bind fun (vs, h) => (gcCopyVals S h us).map fun (us, h) => (vs ++ us, h) := by
  induction vs generalizing h with
  | nil => simp [gcCopyVals]
  | cons v vs ih =>
      simp only [List.cons_append, gcCopyVals, ih]
      cases gcCopyVal S h v with
      | none => rfl
      | some r =>
          obtain ⟨v', h'⟩ := r
          simp only [Option.bind_some]
          cases gcCopyVals S h' vs with
          | none => rfl
          | some r =>
              obtain ⟨vs', h''⟩ := r
              simp only [Option.bind_some, Option.map_some, Option.map_map]
              rfl

variable {chunk : List (Nat × Obj)} {heap : List Obj} {S : Spaces} {cells : Cells} {roots : Roots}
  {a : Arena} {h : Heap} {cap extraRoom want : Int}

theorem length_gcCopyVals {h' : Heap} {vs us : List Val} (heq : gcCopyVals S h vs = some (us, h')) :
    us.length = vs.length := by
  induction vs generalizing h h' us with
  | nil =>
      obtain ⟨rfl, -⟩ := Prod.mk.inj (Option.some.inj heq)
      rfl
  | cons v vs ih =>
      obtain ⟨⟨v', h₁⟩, -, heq⟩ := Option.bind_eq_some_iff.mp heq
      obtain ⟨⟨us', h₂⟩, hus, heq⟩ := Option.map_eq_some_iff.mp heq
      obtain ⟨rfl, -⟩ := Prod.mk.inj heq
      rw [List.length_cons, List.length_cons, ih hus]

/-- Two ranges copied one after the other are one range. -/
theorem gcCopyVals_split {h' : Heap} {vs us : List Val} {f : Val → Val}
    (heq : gcCopyVals S h (vs ++ us) = some ((vs ++ us).map f, h')) :
    ∃ h₁, gcCopyVals S h vs = some (vs.map f, h₁) ∧ gcCopyVals S h₁ us = some (us.map f, h') := by
  rw [gcCopyVals_append] at heq
  obtain ⟨⟨vs', h₁⟩, hvs, heq⟩ := Option.bind_eq_some_iff.mp heq
  obtain ⟨⟨us', h₂⟩, hus, heq⟩ := Option.map_eq_some_iff.mp heq
  obtain ⟨hlist, rfl⟩ := Prod.mk.inj heq
  rw [List.map_append] at hlist
  have hlen : vs'.length = (vs.map f).length := by
    rw [length_gcCopyVals hvs, List.length_map]
  obtain ⟨rfl, rfl⟩ := List.append_inj hlist hlen
  exact ⟨h₁, hvs, hus⟩

theorem Roots.addrs_map (f : Nat → Nat) (r : Roots) : (r.map f).addrs = r.addrs.map f := by
  have hval : ∀ vs : List Val,
      (vs.map (Val.map f)).filterMap Val.addr? = (vs.filterMap Val.addr?).map f :=
    fun vs => Obj.refs_map f (.clos 0 vs)
  have hvals : (r.map f).vals = r.vals.map (Val.map f) := by
    unfold Roots.vals Roots.map
    rw [List.map_append]
    cases r.extra <;> rfl
  unfold Roots.addrs
  rw [hvals, hval]

theorem Roots.mem_addrs {r : Roots} {a : Nat} : a ∈ r.addrs ↔ ∃ v ∈ r.vals, v.addr? = some a := by
  unfold Roots.addrs
  rw [List.mem_filterMap]

/-! ### The copy and the sweep -/

/-- The graph before is the graph after, under the renaming `φ`. -/
structure Preserved (S : Spaces) (cells : Cells) (roots : Roots) (heap : List Obj) (pid live : Nat)
    (r : Result) (φ : Nat → Nat) : Prop where
  renamed : r.roots = roots.map φ
  /-- Same objects, same contents, same sharing. -/
  iso : GraphIso Obj.refs Obj.map (store cells) (store r.cells) roots.addrs φ
  /-- What was in the heap or a chunk is in the destination. -/
  copied : ∀ {a : Nat}, Reach Obj.refs (store cells) roots.addrs a → S.gcCopyable a = true →
    S.gcTo ≤ φ a ∧ φ a < S.gcTo + live
  /-- What was outside is where it was. -/
  stays : ∀ {a : Nat}, Reach Obj.refs (store cells) roots.addrs a → S.gcCopyable a = false → φ a = a
  /-- The payloads released are those of the actor's headers that nothing
  reaches. -/
  released : ∀ p, p ∈ r.released ↔ ∃ i, ∃ hi : i < heap.length, heap[i] = .resource pid (some p) ∧
    ¬ Reach Obj.refs (store cells) roots.addrs (startOf S.mem heap i)

theorem Copying.unswept {roots : List Nat} {log objs : List (Nat × Obj)}
    (w : WellFormed S cells roots heap chunk) (src : Source S cells roots objs)
    (c : Copying S cells roots objs h log log.length) :
    Unswept S.mem heap (fun i => decide (startOf S.mem heap i ∈ log.map Prod.fst)) h.cells 0 := by
  have hroom := c.bytes_le_room src
  refine ⟨?_, ?_⟩
  · intro j hj _ hf
    have hnot : startOf S.mem heap j ∉ log.map Prod.fst := of_decide_eq_false hf
    rw [← w.laid hj]
    refine c.rest hnot ?_
    have := src.apart (.inr (w.copyable_start hj))
    omega
  · intro j hj _ hf
    obtain ⟨i, hi, hij⟩ := exists_getElem_of_mem (of_decide_eq_true hf)
    have hcell := (c.source (List.getElem_mem hi)).2.2
    rw [hij, w.laid hj] at hcell
    have ho : heap[j] = log[i].2 := Cell.obj.inj (Option.some.inj hcell)
    refine ⟨_, _, hij ▸ c.fwd hi, (c.done hi hi).1, by rw [Obj.stride_map, ho], ?_⟩
    -- a copy is in the destination, and the heap is not
    rw [w.heapBytes]
    by_contra hin
    rw [not_or] at hin
    have hcopy : S.gcCopyable (S.gcTo + bytes (log.take i)) = true := by
      unfold Spaces.gcCopyable Spaces.inFromspace
      simp only [Bool.or_eq_true, decide_eq_true_eq]
      exact .inl ⟨by omega, by omega⟩
    exact c.place_ne src hi (.inr hcopy) rfl

/-- The copy ends, with all that the roots reach in the destination. -/
theorem WellFormed.copied {fuel : Nat} (w : WellFormed S cells roots.addrs heap chunk)
    (hfit : (S.heapPtr : Int) + bytes chunk ≤ S.room) (hfuel : S.heapPtr + bytes chunk < fuel) :
    ∃ h log, gcCopied S fuel cells roots = some (h, roots.map (target S log)) ∧
      Copying S cells roots.addrs (placed Obj.stride S.mem heap ++ chunk) h log log.length ∧
      ∀ a ∈ roots.addrs, S.gcCopyable a = true → a ∈ log.map Prod.fst := by
  have src := w.source hfit
  have hlen := w.length_objs
  -- the roots
  obtain ⟨h₁, log, hroots, c₁, hmem⟩ := Copying.start.copyVals src roots.vals (Nat.zero_le _)
    fun v hv a ha => .root (Roots.mem_addrs.mpr ⟨v, hv, ha⟩)
  rw [List.nil_append] at hroots c₁ hmem
  obtain ⟨h₀, hextra, hstack⟩ := gcCopyVals_split hroots
  -- the walk
  obtain ⟨h₂, ext, hscan, c₂⟩ := c₁.scan src (Nat.zero_le _)
    (show (placed Obj.stride S.mem heap ++ chunk).length - 0 < fuel by omega)
  have hval : ∀ v ∈ roots.vals, v.map (target S log) = v.map (target S (log ++ ext)) := by
    intro v hv
    cases v with
    | imm w => rfl
    | ptr tag a => exact congrArg (Val.ptr tag) (c₂.target_later (hmem _ hv a rfl)).symm
  refine ⟨h₂, log ++ ext, ?_, c₂, ?_⟩
  · unfold gcCopied
    simp only [hextra, Option.bind_some, hstack]
    rw [show (0 : Nat) = bytes (log.take 0) from rfl, hscan]
    have hex : (roots.extra.toList.map (Val.map (target S log))).head? =
        roots.extra.map (Val.map (target S (log ++ ext))) := by
      cases hx : roots.extra with
      | none => rfl
      | some v => exact congrArg some (hval v (by simp [Roots.vals, hx]))
    have hst : roots.stack.map (Val.map (target S log)) =
        roots.stack.map (Val.map (target S (log ++ ext))) :=
      List.map_congr_left fun v hv => hval v (List.mem_append_right _ hv)
    simp only [Option.map_some, hex, hst]
    rfl
  · intro a ha hca
    obtain ⟨v, hv, hva⟩ := Roots.mem_addrs.mp ha
    rw [List.map_append]
    exact List.mem_append_left _ (hmem v hv a hva hca)

/-- After the copy, the sweep stops at every object of the heap, and releases through
those headers of the actor that the roots did not reach. -/
theorem WellFormed.swept {log : List (Nat × Obj)} (pid : Nat)
    (w : WellFormed S cells roots.addrs heap chunk)
    (hfit : (S.heapPtr : Int) + bytes chunk ≤ S.room)
    (c : Copying S cells roots.addrs (placed Obj.stride S.mem heap ++ chunk) h log log.length)
    (hcopied : ∀ a ∈ roots.addrs, S.gcCopyable a = true → a ∈ log.map Prod.fst) :
    ∃ cells' left, resourceReleaseSpace true pid S.mem S.heapPtr (S.heapPtr + 1) 0 h.cells =
        some ((List.range heap.length).map fun i => extent Obj.stride (heap.take i), cells',
          payloads pid heap left) ∧
      left.Pairwise (· < ·) ∧
      (∀ i, i ∈ left ↔ ∃ _ : i < heap.length,
        ¬ Reach Obj.refs (store cells) roots.addrs (startOf S.mem heap i)) ∧
      ∀ b, b < S.mem ∨ S.mem + S.heapPtr ≤ b → cells' b = h.cells b := by
  have src := w.source hfit
  have hun := c.unswept w src
  have hlen : heap.length ≤ S.heapPtr := by
    rw [← w.heapBytes]
    exact length_le_extent Obj.stride_pos heap
  obtain ⟨cells', hsweep, hout⟩ := resourceReleaseSpace_eq pid (.inl rfl) (Nat.zero_le _) hun
    (show heap.length - 0 < S.heapPtr + 1 by omega)
  rw [w.heapBytes] at hsweep hout
  refine ⟨cells', _, by rw [List.range_eq_range']; exact hsweep, ?_, fun i => ?_, hout⟩
  · exact List.Pairwise.filter _ List.pairwise_lt_range'
  · rw [mem_leftBehind]
    constructor
    · rintro ⟨-, hi, hf⟩
      exact ⟨hi, fun hr => of_decide_eq_false hf (c.reached src hcopied hr (w.copyable_start hi))⟩
    · rintro ⟨hi, hnot⟩
      refine ⟨Nat.zero_le _, hi, decide_eq_false fun hin => hnot ?_⟩
      obtain ⟨x, hx, heq⟩ := List.mem_map.mp hin
      exact heq ▸ (c.source hx).2.1

theorem copyLive_preserves {fuel : Nat} (pid : Nat)
    (w : WellFormed S cells roots.addrs heap chunk)
    (hfit : (S.heapPtr : Int) + bytes chunk ≤ S.room) (hfuel : S.heapPtr + bytes chunk < fuel) :
    ∃ live r φ, gcCopyLive S pid fuel cells roots = some (live, r) ∧
      live ≤ S.heapPtr + bytes chunk ∧ Preserved S cells roots heap pid live r φ := by
  have src := w.source hfit
  obtain ⟨h, log, hcopy, c, hcopied⟩ := w.copied hfit hfuel
  obtain ⟨cells', left, hsweep, -, hleft, hout⟩ := w.swept pid hfit c hcopied
  have hiso := c.iso src hcopied
  refine ⟨h.gcToSize, ⟨cells', roots.map (target S log), payloads pid heap left⟩, target S log, ?_, ?_,
    rfl, ?_, ?_, ?_, ?_⟩
  · simp only [gcCopyLive, hcopy, Option.bind_some, hsweep, Option.map_some]
  · have := c.bytes_le src
    have hsum : bytes (placed Obj.stride S.mem heap ++ chunk) = S.heapPtr + bytes chunk := by
      show extent _ _ = _
      rw [extent_append]
      exact congrArg (· + bytes chunk) ((extent_placed S.mem heap).trans w.heapBytes)
    rw [c.size]
    omega
  · -- the sweep leaves alone what the renaming leads to
    refine ⟨hiso.inj, fun {a} ha => ?_⟩
    obtain ⟨o, ho, ho'⟩ := hiso.obj ha
    refine ⟨o, ho, ?_⟩
    rw [store_eq_some] at ho' ⊢
    rw [← ho']
    have hnot := c.target_leaves src hcopied ha
    refine hout _ ?_
    by_contra hin
    rw [not_or] at hin
    unfold Spaces.gcCopyable Spaces.inFromspace at hnot
    simp only [Bool.or_eq_false_iff, decide_eq_false_iff_not] at hnot
    exact hnot.1 ⟨by omega, by omega⟩
  · intro a ha hca
    rw [c.size]
    exact c.target_mem (c.reached src hcopied ha hca)
  · intro a _ hca
    exact target_of_not_mem fun hin => Bool.eq_false_iff.mp hca (c.copyable hin)
  · intro p
    rw [mem_payloads]
    constructor
    · rintro ⟨i, hi, hlt, ho⟩
      obtain ⟨_, hnot⟩ := (hleft i).mp hi
      exact ⟨i, hlt, ho, hnot⟩
    · rintro ⟨i, hlt, ho, hnot⟩
      exact ⟨i, (hleft i).mpr ⟨hlt, hnot⟩, hlt, ho⟩

/-- Nothing that is reached afterwards is where it was copied from. -/
theorem Preserved.leaves {pid live : Nat} {r : Result} {φ : Nat → Nat}
    (w : WellFormed S cells roots.addrs heap chunk) (hlive : (live : Int) ≤ S.room)
    (h : Preserved S cells roots heap pid live r φ) {b : Nat}
    (hb : Reach Obj.refs (store r.cells) r.roots.addrs b) : S.gcCopyable b = false := by
  rw [h.renamed, Roots.addrs_map] at hb
  obtain ⟨a, ha, rfl⟩ := (h.iso.reach_iff Obj.refs_map).mp hb
  by_cases hca : S.gcCopyable a = true
  · obtain ⟨hge, hlt⟩ := h.copied ha hca
    by_contra hc
    have := w.apart (.inr (by simpa using hc))
    omega
  · rw [h.stays ha (by simpa using hca)]
    simpa using hca

/-- What a collection adds up to size its destination. -/
def sizingSum (a : Arena) (extraRoom : Int) : Int := a.heapPtr + extraRoom + -a.stackLo * 8

theorem gcNeed_eq (hheap : 0 ≤ a.heapPtr) (htop : a.sp ≤ 0) (hextra : 0 ≤ extraRoom)
    (hsum : sizingSum a extraRoom < 2 ^ 31) : a.gcNeed extraRoom = sizingSum a extraRoom := by
  have hlo := a.stackLo_le_sp
  exact Lib.int32_of_range (by omega) hsum

/-- The destination is large enough for the heap, the chunks and the stack, if the
sizing sum is one an `int` can hold. -/
theorem spaces_fit (m : Memory) (hheap : 0 ≤ a.heapPtr) (htop : a.sp ≤ 0)
    (hsum : sizingSum a extraRoom < 2 ^ 31)
    (hsize : Arena.grownSize cap a.memSize (a.gcNeed extraRoom) = some want)
    (hchunk : (bytes chunk : Int) ≤ extraRoom) :
    ((spaces a m (a.gcToCap want)).heapPtr : Int) + bytes chunk ≤ (spaces a m (a.gcToCap want)).room ∧
      (spaces a m (a.gcToCap want)).heapPtr + bytes chunk < (a.gcToCap want).toNat + 1 := by
  have hneed := (Arena.grownSize_spec hsize).1
  rw [gcNeed_eq hheap htop (by omega) hsum, sizingSum] at hneed
  have hcap := a.le_gcToCap want
  have hlo := a.stackLo_le_sp
  have hptr : ((spaces a m (a.gcToCap want)).heapPtr : Int) = a.heapPtr :=
    Int.toNat_of_nonneg hheap
  have hroom : (spaces a m (a.gcToCap want)).room = a.gcToCap want + a.sp * 8 := rfl
  omega

theorem gcCollectInternal_eq {pid live : Nat} {m : Memory} {r : Result} (hmem : a.hasMem = true)
    (hsize : Arena.grownSize cap a.memSize (a.gcNeed extraRoom) = some want)
    (hcopy : gcCopyLive (spaces a m (a.gcToCap want)) pid ((a.gcToCap want).toNat + 1) m.cells roots = some (live, r)) :
    gcCollectInternal cap a pid m extraRoom roots = .ok (a.swapped (a.gcToCap want) live) r := by
  unfold gcCollectInternal
  rw [if_neg (by simp [hmem]), hsize]
  simp only [hcopy]

/-- The sizes after a collection are those of the sizing model. -/
theorem gcCollect_eq {live : Int} (hmem : a.hasMem = true)
    (hsize : Arena.grownSize cap a.memSize (a.gcNeed extraRoom) = some want)
    (hlive : live ≤ a.gcToCap want + a.sp * 8) :
    Arena.gcCollect cap a extraRoom live = .ok (a.swapped (a.gcToCap want) live) := by
  unfold Arena.gcCollect
  rw [if_neg (by simp [hmem]), hsize]
  exact if_neg (by omega)

/-- **A collection keeps the graph.**  If the heap, the extra room and the stack fit
the cap, a collection ends; the values on the stack and the extra root are the same
values on other addresses; what they reach is the same graph; what was in the heap or
in a chunk that is being brought home is in the destination, and no pointer leads back.
What it finds alive is no more than the heap and the chunks held, and the sizes it
leaves are those of `Arena.gcCollect` for that. -/
theorem collection_preserves_graph (cap extraRoom want : Int) {a : Arena} (pid : Nat) {m : Memory}
    {roots : Roots} {heap : List Obj} {chunk : List (Nat × Obj)} (hcap : cap ≤ 2 ^ 30)
    (hheap : 0 ≤ a.heapPtr) (htop : a.sp ≤ 0) (hmem : a.hasMem = true)
    (hsize : Arena.grownSize cap a.memSize (sizingSum a extraRoom) = some want)
    (hwf : WellFormed (spaces a m (a.gcToCap want)) m.cells roots.addrs heap chunk)
    (hchunk : (bytes chunk : Int) ≤ extraRoom) :
    ∃ a' r φ, ∃ live : Nat, gcCollectInternal cap a pid m extraRoom roots = .ok a' r ∧
      Preserved (spaces a m (a.gcToCap want)) m.cells roots heap pid live r φ ∧
      (∀ b, Reach Obj.refs (store r.cells) r.roots.addrs b →
        (spaces a m (a.gcToCap want)).gcCopyable b = false) ∧
      Arena.gcCollect cap a extraRoom live = .ok a' ∧
      (live : Int) ≤ a.heapPtr + bytes chunk := by
  have hptr : ((spaces a m (a.gcToCap want)).heapPtr : Int) = a.heapPtr :=
    Int.toNat_of_nonneg hheap
  obtain ⟨hle, hmax, -⟩ := Arena.grownSize_spec hsize
  have hsum : sizingSum a extraRoom < 2 ^ 31 := by omega
  rw [← gcNeed_eq hheap htop (by omega) hsum] at hsize
  obtain ⟨hroom, hfuel⟩ := spaces_fit m hheap htop hsum hsize hchunk
  have hbelow : (spaces a m (a.gcToCap want)).room = a.gcToCap want + a.sp * 8 := rfl
  obtain ⟨live, r, φ, hcopy, hlive, hpres⟩ := copyLive_preserves pid hwf hroom hfuel
  refine ⟨a.swapped (a.gcToCap want) live, r, φ, live, gcCollectInternal_eq hmem hsize hcopy, hpres,
    fun b hb => hpres.leaves hwf (by omega) hb, gcCollect_eq hmem hsize (by omega), by omega⟩

/-! ### An example -/

/-- A string that two words share, the pair of them, and a header no one
reaches. -/
def sharedHeap : List Obj :=
  [.string [65, 66], .pair (.ptr .string 1000) (.ptr .string 1000), .resource 7 (some 3)]

/-- The native call has made a closure over the pair. -/
def calledChunk : List (Nat × Obj) := [(5000, .clos 2 [.ptr .pair 1016, .imm 4])]

def sharedMemory : Memory where
  cells x :=
    if x = 1000 then some (.obj (.string [65, 66]))
    else if x = 1016 then some (.obj (.pair (.ptr .string 1000) (.ptr .string 1000)))
    else if x = 1040 then some (.obj (.resource 7 (some 3)))
    else if x = 5000 then some (.obj (.clos 2 [.ptr .pair 1016, .imm 4]))
    else if x = 9000 then some (.obj (.string []))
    else none
  mem := 1000
  gcTo := 3000
  ccall := some { promote := true, chunks := [(5000, 256)] }

/-- The call's result, and a stack with the pair, a number and a constant. -/
def sharedRoots : Roots where
  extra := some (.ptr .clos 5000)
  stack := [.ptr .pair 1016, .imm 4, .ptr .string 9000]

def sharedArena : Arena where
  hasMem := true
  memSize := 512
  heapPtr := 56
  sp := -3
  stackFloor := -10
  gcTo := none
  gcTrigger := 4096
  gcPending := false
  gcGate := 1

theorem shared_reach {x : Nat}
    (h : Reach Obj.refs (store sharedMemory.cells) sharedRoots.addrs x) :
    x = 5000 ∨ x = 1016 ∨ x = 1000 ∨ x = 9000 := by
  induction h with
  | root hmem =>
      have : sharedRoots.addrs = [5000, 1016, 9000] := by decide
      rw [this] at hmem
      simp only [List.mem_cons, List.not_mem_nil, or_false] at hmem
      omega
  | @step x y o _ ho hy ih =>
      rcases ih with rfl | rfl | rfl | rfl <;> obtain rfl := Option.some.inj ho <;>
        simp [Obj.refs, Obj.vals, Val.addr?] at hy <;> omega

theorem shared_wellFormed :
    WellFormed (spaces sharedArena sharedMemory 512) sharedMemory.cells sharedRoots.addrs sharedHeap
      calledChunk where
  laid := by
    intro i hi
    have : i < 3 := hi
    interval_cases i <;> rfl
  heapBytes := by decide
  live := by
    intro x hx
    rcases shared_reach hx with rfl | rfl | rfl | rfl <;> exact ⟨_, rfl⟩
  starts := by
    intro x o hx hcopy hcell
    rcases shared_reach hx with rfl | rfl | rfl | rfl
    · obtain rfl := Cell.obj.inj (Option.some.inj hcell)
      exact .inr (by decide)
    · exact .inl ⟨1, by decide, by decide⟩
    · exact .inl ⟨0, by decide, by decide⟩
    · exact absurd hcopy (by decide)
  closed := by
    intro x y o hx hcopy hcell hy
    rcases shared_reach hx with rfl | rfl | rfl | rfl
    · exact absurd hcopy (by decide)
    · exact absurd hcopy (by decide)
    · exact absurd hcopy (by decide)
    · obtain rfl := Cell.obj.inj (Option.some.inj hcell)
      exact absurd hy List.not_mem_nil
  apart := by
    intro x hx
    show x < 3000 ∨ (3000 : Int) + 488 ≤ x
    rcases hx with hx | hx
    · rcases shared_reach hx with rfl | rfl | rfl | rfl <;> omega
    · have hx' : (1000 ≤ x ∧ x < 1000 + 56) ∨ (5000 ≤ x ∧ x < 5000 + 256) := by
        simpa [Spaces.gcCopyable, Spaces.inFromspace, Spaces.valInChunk, spaces, sharedArena,
          sharedMemory] using hx
      omega

theorem collection_preserves_graph_shared : ∃ a' r φ, ∃ live : Nat,
    gcCollectInternal 4096 sharedArena 7 sharedMemory 32 sharedRoots = .ok a' r ∧
      Preserved (spaces sharedArena sharedMemory 512) sharedMemory.cells sharedRoots sharedHeap 7 live
        r φ ∧ (live : Int) ≤ 88 := by
  obtain ⟨a', r, φ, live, hok, hpres, -, -, hlive⟩ := collection_preserves_graph 4096 32 512 7
    (by decide) (by decide) (by decide) rfl (by decide) shared_wellFormed (by decide)
  exact ⟨a', r, φ, live, hok, hpres, hlive⟩

end TinyActor.Runtime.Gc
