/-
The linear walks over a heap.

Nothing in the heap says where its objects start.  Both walks of the runtime step
from one object to the next by its size, computed from its header, so they rely on
every allocation having taken exactly that size, and on nothing that happens to an
object later changing it.  `Laid` says that a space is a row of objects from its
bottom to its top; every way a heap changes keeps it, collections included, because
the copies lie one behind the other in the destination.

From that, the walk that releases what an actor has left behind stops at every
object and nowhere else, in the space a collection copied from, where some headers
are overwritten, and in the heap of an actor that has died.
-/
import TinyActor.Proofs.Collect

namespace TinyActor.Runtime.Gc

open TinyActor.Lib

/-- What the constructor of each kind asks `proc_heap_alloc` for. -/
def Obj.allocSize : Obj → Int
  | pair _ _ => 24
  | clos _ free => 16 + free.length * 8
  | string data => 8 + data.length + 1
  | bytes data => 8 + data.length
  | resource _ _ => 16

/-- The heap of an actor: its address, its size, and the memory it is part of. -/
structure Space where
  mem : Nat
  heapPtr : Nat
  cells : Cells

variable {heap : List Obj} {s : Space}

namespace Space

/-- Allocate at the top and fill in the object. -/
def alloc (s : Space) (o : Obj) : Space where
  mem := s.mem
  heapPtr := s.heapPtr + (taHeapObjectSize o.allocSize).toNat
  cells := Function.update s.cells (s.mem + s.heapPtr) (some (.obj o))

/-- Whatever may happen to a heap. -/
inductive Step (s : Space) : Space → Prop
  | alloc (o : Obj) : Step s (s.alloc o)
  /-- A header is given to another actor, or its payload is released. -/
  | rewrite {a owner owner' : Nat} {res : Option Nat} (res' : Option Nat)
      (header : s.cells a = some (.obj (.resource owner res))) :
      Step s { s with cells := Function.update s.cells a (some (.obj (.resource owner' res'))) }
  /-- Memory outside of the heap changes. -/
  | elsewhere {cells : Cells}
      (same : ∀ b, s.mem ≤ b → b < s.mem + s.heapPtr → cells b = s.cells b) :
      Step s { s with cells := cells }
  /-- A block without objects moves. -/
  | move (mem : Nat) (empty : s.heapPtr = 0) : Step s { s with mem := mem }
  | collect {S : Spaces} {roots : Roots} {heap : List Obj} {chunk : List (Nat × Obj)}
      {pid fuel live : Nat} {r : Result} (here : S.mem = s.mem ∧ S.heapPtr = s.heapPtr)
      (formed : WellFormed S s.cells roots.addrs heap chunk)
      (fits : (S.heapPtr : Int) + bytes chunk ≤ S.room) (fuelled : S.heapPtr + bytes chunk < fuel)
      (ok : gcCopyLive S pid fuel s.cells roots = some (live, r)) :
      Step s ⟨S.gcTo, live, r.cells⟩

/-- The objects of `heap` lie one behind the other from the bottom to the top. -/
structure Laid (s : Space) (heap : List Obj) : Prop where
  laid : ∀ {i : Nat} (hi : i < heap.length), s.cells (startOf s.mem heap i) = some (.obj heap[i])
  heapBytes : extent Obj.stride heap = s.heapPtr

/-- The walks step as far as the allocation took. -/
theorem stride_eq (o : Obj) : o.stride = (taHeapObjectSize o.allocSize).toNat := by
  have hsize : (o.gcObjSize : Int) = taHeapObjectSize o.allocSize := by
    unfold Obj.gcObjSize
    rw [Int.toNat_of_nonneg (Int.le_of_lt (Arena.taHeapObjectSize_pos _))]
    cases o <;> simp [Obj.allocSize, Int.mul_comm]
  have hwords : taHeapObjectSize o.allocSize % 8 = 0 := by
    unfold taHeapObjectSize TA_HEAP_MIN_OBJECT
    dsimp only
    split <;> omega
  unfold Obj.stride
  omega

/-- An object of the same size takes the place of another. -/
theorem Laid.set (l : Laid s heap) {a : Nat} {o o' : Obj} (hcell : s.cells a = some (.obj o))
    (hsize : o'.stride = o.stride) :
    ∃ heap', Laid { s with cells := Function.update s.cells a (some (.obj o')) } heap' := by
  by_cases hstart : ∃ k, ∃ _ : k < heap.length, a = startOf s.mem heap k
  · obtain ⟨k, hk, rfl⟩ := hstart
    have ho : heap[k] = o := Cell.obj.inj (Option.some.inj ((l.laid hk).symm.trans hcell))
    have hmap : (heap.set k o').map Obj.stride = heap.map Obj.stride := by
      rw [List.map_set, hsize, ← ho, ← List.getElem_map Obj.stride (h := by simpa using hk),
        List.set_getElem_self]
    have htake : ∀ i, extent Obj.stride ((heap.set k o').take i) = extent Obj.stride (heap.take i) := by
      intro i
      simp only [extent, List.map_take, hmap]
    refine ⟨heap.set k o', fun {i} hi => ?_, ?_⟩
    · rw [List.length_set] at hi
      show Function.update s.cells _ _ (s.mem + _) = _
      rw [htake, List.getElem_set]
      split
      · next heq => subst heq; rw [Function.update_self]
      · next hne =>
          rw [Function.update_of_ne, ← l.laid hi]
          rcases Nat.lt_or_gt_of_ne hne with hlt | hlt
          · exact startOf_ne hlt hi
          · exact (startOf_ne hlt hk).symm
    · simp only [extent, hmap]
      exact l.heapBytes
  · refine ⟨heap, fun {i} hi => ?_, l.heapBytes⟩
    show Function.update s.cells a _ (startOf s.mem heap i) = _
    rw [Function.update_of_ne fun heq => hstart ⟨i, hi, heq.symm⟩, l.laid hi]

/-- The copies of a collection lie one behind the other. -/
theorem laid_collect {S : Spaces} {cells : Cells} {roots : Roots} {chunk : List (Nat × Obj)}
    {pid fuel live : Nat} {r : Result} (w : WellFormed S cells roots.addrs heap chunk)
    (hfit : (S.heapPtr : Int) + bytes chunk ≤ S.room) (hfuel : S.heapPtr + bytes chunk < fuel)
    (hok : gcCopyLive S pid fuel cells roots = some (live, r)) :
    ∃ heap', Laid ⟨S.gcTo, live, r.cells⟩ heap' := by
  have src := w.source hfit
  obtain ⟨h, log, hcopy, c, hcopied⟩ := w.copied hfit hfuel
  obtain ⟨cells', left, hsweep, -, -, hout⟩ := w.swept pid hfit c hcopied
  simp only [gcCopyLive, hcopy, Option.bind_some, hsweep, Option.map_some, Option.some.injEq,
    Prod.mk.injEq] at hok
  obtain ⟨rfl, rfl⟩ := hok
  have hbytes : ∀ i, extent Obj.stride ((log.map fun x => x.2.map (target S log)).take i) =
      bytes (log.take i) := by
    intro i
    simp only [bytes, extent, ← List.map_take, List.map_map]
    exact congrArg _ (List.map_congr_left fun x _ => Obj.stride_map _ x.2)
  refine ⟨log.map fun x => x.2.map (target S log), fun {i} hi => ?_, ?_⟩
  · rw [List.length_map] at hi
    show cells' (S.gcTo + _) = _
    rw [hbytes, hout, (c.done hi hi).1, List.getElem_map]
    -- a copy is in the destination, and the heap is not
    by_contra hin
    rw [not_or] at hin
    refine c.place_ne src hi (.inr ?_) rfl
    unfold Spaces.gcCopyable Spaces.inFromspace
    simp only [Bool.or_eq_true, decide_eq_true_eq]
    exact .inl ⟨by omega, by omega⟩
  · have := hbytes log.length
    rwa [List.take_length, ← c.size, List.take_of_length_le (by simp)] at this

theorem Laid.step {t : Space} (l : Laid s heap) (h : Step s t) : ∃ heap', Laid t heap' := by
  have hlt : ∀ {i : Nat} (_ : i < heap.length), startOf s.mem heap i < s.mem + s.heapPtr := by
    intro i hi
    rw [← l.heapBytes]
    exact startOf_lt s.mem hi
  cases h with
  | alloc o =>
      refine ⟨heap ++ [o], fun {i} hi => ?_, ?_⟩
      · rw [List.length_append, List.length_singleton] at hi
        show Function.update s.cells (s.mem + s.heapPtr) _ (s.mem + _) = _
        rw [List.take_append_of_le_length (by omega)]
        by_cases heq : i = heap.length
        · subst heq
          rw [List.take_length, l.heapBytes, Function.update_self, List.getElem_concat_length rfl]
        · have hi' : i < heap.length := by omega
          rw [Function.update_of_ne (Nat.ne_of_lt (hlt hi')), List.getElem_append_left hi']
          exact l.laid hi'
      · show _ = s.heapPtr + _
        rw [extent_append, l.heapBytes, ← stride_eq]
        simp [extent]
  | rewrite res' header => exact l.set header rfl
  | elsewhere same =>
      refine ⟨heap, fun {i} hi => ?_, l.heapBytes⟩
      exact (same _ (Nat.le_add_right _ _) (hlt hi)).trans (l.laid hi)
  | move mem empty =>
      refine ⟨[], fun hi => absurd hi (Nat.not_lt_zero _), empty.symm⟩
  | collect here formed fits fuelled ok => exact laid_collect formed fits fuelled ok

/-- The heaps of an actor, from its first empty block on. -/
inductive History : Space → Prop
  | empty (mem : Nat) (cells : Cells) : History ⟨mem, 0, cells⟩
  | step {s t : Space} (past : History s) (next : Step s t) : History t

theorem History.laid (h : History s) : ∃ heap, Laid s heap := by
  induction h with
  | empty mem cells => exact ⟨[], fun hi => absurd hi (Nat.not_lt_zero _), rfl⟩
  | step _ next ih =>
      obtain ⟨heap, l⟩ := ih
      exact l.step next

theorem payloads_all (pid : Nat) (heap : List Obj) :
    payloads pid heap (leftBehind heap (fun _ => false) 0) = heap.filterMap (Obj.releasable pid) := by
  simp only [payloads, leftBehind, Bool.not_false, List.filter_true, Nat.sub_zero,
    ← List.range_eq_range']
  induction heap with
  | nil => rfl
  | cons o heap ih =>
      rw [List.length_cons, List.range_succ_eq_map, List.filterMap_cons, List.filterMap_map,
        List.filterMap_cons]
      simp only [List.getElem?_cons_zero, Option.bind_some, Function.comp_def, Nat.succ_eq_add_one,
        List.getElem?_cons_succ, ih]

/-- **The sweep is exact.**  After any history a heap is a row of objects.  When its
actor dies, the sweep stops where each of them starts and nowhere else, and releases
in turn the payload of every header of the actor.  When it is collected, the sweep of
what the copy left stops at the same places, and releases in turn the payloads of
those headers of the actor that the roots did not reach. -/
theorem sweep_exact (pid : Nat) {s : Space} (past : History s) :
    (∃ heap, Laid s heap) ∧ ∀ heap, Laid s heap →
      (∃ cells', resourceReleaseSpace false pid s.mem s.heapPtr (s.heapPtr + 1) 0 s.cells =
        some ((List.range heap.length).map fun i => extent Obj.stride (heap.take i), cells',
          heap.filterMap (Obj.releasable pid))) ∧
      ∀ {S : Spaces} {roots : Roots} {chunk : List (Nat × Obj)} {fuel : Nat},
        S.mem = s.mem → S.heapPtr = s.heapPtr → WellFormed S s.cells roots.addrs heap chunk →
        (S.heapPtr : Int) + bytes chunk ≤ S.room → S.heapPtr + bytes chunk < fuel →
        ∃ h roots' cells' left, gcCopied S fuel s.cells roots = some (h, roots') ∧
          resourceReleaseSpace true pid s.mem s.heapPtr (s.heapPtr + 1) 0 h.cells =
            some ((List.range heap.length).map fun i => extent Obj.stride (heap.take i), cells',
              payloads pid heap left) ∧
          gcCopyLive S pid fuel s.cells roots =
            some (h.gcToSize, ⟨cells', roots', payloads pid heap left⟩) ∧
          left.Pairwise (· < ·) ∧
          ∀ i, i ∈ left ↔ ∃ _ : i < heap.length,
            ¬ Reach Obj.refs (store s.cells) roots.addrs (startOf s.mem heap i) := by
  refine ⟨past.laid, fun heap l => ⟨?_, ?_⟩⟩
  · have hun : Unswept s.mem heap (fun _ => false) s.cells 0 :=
      ⟨fun hj _ _ => l.laid hj, fun _ _ hf => absurd hf (by simp)⟩
    have hlen : heap.length ≤ s.heapPtr := by
      rw [← l.heapBytes]
      exact length_le_extent Obj.stride_pos heap
    obtain ⟨cells', hsweep, -⟩ := resourceReleaseSpace_eq pid (.inr fun _ => rfl : false = true ∨ _)
      (Nat.zero_le _) hun (show heap.length - 0 < s.heapPtr + 1 by omega)
    refine ⟨cells', ?_⟩
    rw [l.heapBytes] at hsweep
    rw [List.range_eq_range', ← payloads_all pid heap]
    exact hsweep
  · intro S roots chunk fuel hmem hptr w hfit hfuel
    obtain ⟨h, log, hcopy, c, hcopied⟩ := w.copied hfit hfuel
    obtain ⟨cells', left, hsweep, hsorted, hleft, -⟩ := w.swept pid hfit c hcopied
    have hlive : gcCopyLive S pid fuel s.cells roots =
        some (h.gcToSize, ⟨cells', roots.map (target S log), payloads pid heap left⟩) := by
      simp only [gcCopyLive, hcopy, Option.bind_some, hsweep, Option.map_some]
    rw [hmem, hptr] at hsweep
    rw [hmem] at hleft
    exact ⟨h, _, cells', left, hcopy, hsweep, hlive, hsorted, hleft⟩

/-- Actor 7 has made a string and two resources, and given one of these away. -/
def diedWith : Space :=
  (((⟨1000, 0, fun _ => none⟩ : Space).alloc (.string [65, 66])).alloc (.resource 7 (some 3))).alloc
    (.resource 8 (some 4))

theorem sweep_exact_diedWith : ∃ cells',
    resourceReleaseSpace false 7 1000 48 49 0 diedWith.cells = some ([0, 16, 32], cells', [3]) := by
  have past : History diedWith := .step (.step (.step (.empty 1000 _) (.alloc _)) (.alloc _)) (.alloc _)
  have l : Laid diedWith [.string [65, 66], .resource 7 (some 3), .resource 8 (some 4)] := by
    refine ⟨fun {i} hi => ?_, rfl⟩
    have : i < 3 := hi
    interval_cases i <;> rfl
  exact ((sweep_exact 7 past).2 _ l).1

end Space

end TinyActor.Runtime.Gc
