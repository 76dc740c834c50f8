/-
The heap stays below the stack.

Heap and stack share one block and grow towards each other, and several paths of
the interpreter push without a check because an earlier reservation made room.
What makes that sound is one inequality about four numbers, `Inv.below`: the heap
ends at or below the lowest slot that is in use or reserved.  Every operation of
the source keeps it: the pushes because they check, the frame reservations because
they make room after they lower the floor, the allocations because they fit
against the floor and not against the top, and the collections because they size
their destination for the whole old heap.

All of it is `int` arithmetic.  The block has at most one gibibyte, so sums of its
offsets stay in range; the size of an object, a frame or the result of a native call
has no such bound, and one of nearly two gibibytes wraps the sum a fit check
compares.  The heap then runs past the stack and out of the block.
-/
import TinyActor.Lib.Run
import TinyActor.Runtime.Arena

namespace TinyActor.Runtime.Arena

open TinyActor.Lib

variable {a b : Arena} {cap need extra live : Int}

/-- **The block invariant**, under a cap. -/
structure Inv (cap : Int) (a : Arena) : Prop where
  heap : 0 ≤ a.heapPtr
  /-- The heap ends below the stack top and below the reserved floor. -/
  below : a.heapPtr ≤ a.memSize + a.stackLo * 8
  top : a.sp ≤ 0
  floor : a.stackFloor ≤ 0
  /-- Without a block there is nothing in it. -/
  unborn : a.hasMem = false → a.heapPtr = 0 ∧ a.sp = 0 ∧ a.stackFloor = 0 ∧ a.memSize = 0
  /-- `ta_arena_cap_env` answers no more than a gibibyte. -/
  range : TA_PROC_HEAP0 ≤ cap ∧ cap ≤ 2 ^ 30
  size : a.memSize ≤ cap
  other : ∀ c ∈ a.gcTo, c ≤ cap

theorem stackLo_le_sp (a : Arena) : a.stackLo ≤ a.sp := by
  unfold stackLo
  split <;> omega

theorem stackLo_le_floor (a : Arena) : a.stackLo ≤ a.stackFloor := by
  unfold stackLo
  split <;> omega

theorem stackLo_eq_min (a : Arena) : a.stackLo = min a.sp a.stackFloor := by
  unfold stackLo
  split <;> omega

theorem inv_fresh (hcap : TA_PROC_HEAP0 ≤ cap ∧ cap ≤ 2 ^ 30) : Inv cap fresh := by
  have hpos : 0 ≤ cap := Int.le_trans (by decide) hcap.1
  exact ⟨by decide, by decide, by decide, by decide, fun _ => by decide, hcap, hpos, nofun⟩

/-- The offsets of a block are far from the ends of the `int`s. -/
theorem Inv.bounds (h : Inv cap a) :
    0 ≤ a.memSize ∧ a.memSize ≤ 2 ^ 30 ∧ a.heapPtr ≤ 2 ^ 30 ∧ -2 ^ 27 ≤ a.stackLo := by
  have hheap := h.heap
  have hbelow := h.below
  have htop := h.top
  have hlo := a.stackLo_le_sp
  have hsize := h.size
  have hcap := h.range.2
  omega

/-! ### Growing and collecting -/

/-- Doubling below the cap makes the block larger. -/
theorem le_doubleUpTo (hcap : cap ≤ 2 ^ 30) (fuel : Nat) {want : Int} (hwant : 0 ≤ want) :
    want ≤ doubleUpTo need cap fuel want := by
  induction fuel generalizing want with
  | zero => exact Int.le_refl _
  | succ fuel ih =>
      unfold doubleUpTo
      split
      · rw [int32_of_range (by omega) (by omega)]
        have hmore : want * 2 ≤ doubleUpTo need cap fuel (want * 2) := ih (by omega)
        omega
      · exact Int.le_refl _

/-- The size a block grows to is enough, within the cap, and no less than it was. -/
theorem grownSize_spec {size want : Int} (h : grownSize cap size need = some want) :
    need ≤ want ∧ want ≤ cap ∧ (cap ≤ 2 ^ 30 → 0 ≤ size → size ≤ cap → size ≤ want) := by
  unfold grownSize at h
  dsimp only at h
  split at h
  · cases h
  next hle =>
    obtain rfl := Option.some.inj h
    refine ⟨by omega, by omega, fun hcap hsize hmax => ?_⟩
    have hgrown : size ≤ doubleUpTo need cap 64 size := le_doubleUpTo hcap 64 hsize
    omega

theorem Inv.ensureHeap (h : Inv cap a) : Inv cap a.procEnsureHeap := by
  unfold procEnsureHeap
  split
  · exact h
  · next hm =>
      obtain ⟨hheap, hsp, hfloor, -⟩ := h.unborn (by simpa using hm)
      refine ⟨h.heap, ?_, h.top, h.floor, by simp, h.range, h.range.1, h.other⟩
      simp [stackLo, hheap, hsp, hfloor, TA_PROC_HEAP0]

theorem hasMem_ensureHeap (a : Arena) : a.procEnsureHeap.hasMem = true := by
  unfold procEnsureHeap
  split
  · next h => exact h
  · rfl

theorem sp_ensureHeap (a : Arena) : a.procEnsureHeap.sp = a.sp := by
  unfold procEnsureHeap
  split <;> rfl

theorem heapPtr_ensureHeap (a : Arena) : a.procEnsureHeap.heapPtr = a.heapPtr := by
  unfold procEnsureHeap
  split <;> rfl

/-- A block that is no smaller, with no more in it and the same stack. -/
structure Roomier (cap : Int) (a b : Arena) : Prop where
  mem : b.hasMem = true
  sp : b.sp = a.sp
  stackFloor : b.stackFloor = a.stackFloor
  heap : 0 ≤ b.heapPtr ∧ b.heapPtr ≤ a.heapPtr
  size : a.memSize ≤ b.memSize ∧ b.memSize ≤ cap
  other : ∀ c ∈ b.gcTo, c ≤ cap

theorem Roomier.stackLo (h : Roomier cap a b) : b.stackLo = a.stackLo := by
  unfold Arena.stackLo
  rw [h.sp, h.stackFloor]

theorem Inv.roomier (h : Inv cap a) (hb : Roomier cap a b) : Inv cap b := by
  have hbelow := h.below
  have hheap := hb.heap
  have hsize := hb.size
  refine ⟨hheap.1, ?_, hb.sp ▸ h.top, hb.stackFloor ▸ h.floor, ?_, h.range, hsize.2, hb.other⟩
  · rw [hb.stackLo]
    omega
  · intro hfalse
    rw [hb.mem] at hfalse
    cases hfalse

/-- Growing in place leaves an empty heap in a larger block. -/
theorem procArenaGrow_some (hheap : 0 ≤ a.heapPtr) (hother : ∀ c ∈ a.gcTo, c ≤ cap)
    (h : procArenaGrow cap a need = some b) :
    need ≤ b.memSize ∧ b.heapPtr = a.heapPtr ∧ a.heapPtr = 0 ∧ Roomier cap a b := by
  unfold procArenaGrow at h
  split at h
  · cases h
  next hc =>
    obtain ⟨want, hw, hb⟩ := Option.bind_eq_some_iff.mp h
    split at hb
    · cases hb
    next hlt =>
      obtain rfl := Option.some.inj hb
      obtain ⟨hneed, hle, -⟩ := grownSize_spec hw
      have hmem : a.hasMem = true := by
        cases hm : a.hasMem with
        | true => rfl
        | false => exact absurd (.inl hm) hc
      refine ⟨hneed, rfl, by omega, hmem, rfl, rfl, ⟨hheap, Int.le_refl _⟩, ⟨?_, hle⟩, hother⟩
      exact Int.le_of_lt (Int.not_le.mp hlt)

theorem le_gcToCap (a : Arena) (want : Int) : want ≤ a.gcToCap want := by
  unfold gcToCap
  split
  · exact Int.le_refl _
  · split <;> omega

theorem gcToCap_le {want : Int} (hother : ∀ c ∈ a.gcTo, c ≤ cap) (hwant : want ≤ cap) :
    a.gcToCap want ≤ cap := by
  unfold gcToCap
  split
  · exact hwant
  · next c hc =>
      have := hother c hc
      split <;> omega

/-- A collection that ends has found a destination, and swaps it in. -/
theorem gcCollect_ok (hmem : a.hasMem = true) (h : gcCollect cap a extra live = .ok b) :
    ∃ want, grownSize cap a.memSize (a.gcNeed extra) = some want ∧
      b = a.swapped (a.gcToCap want) live := by
  unfold gcCollect at h
  rw [if_neg (by simp [hmem])] at h
  split at h
  · cases h
  next want hw =>
    split at h
    · cases h
    · exact ⟨want, hw, (Collected.ok.inj h).symm⟩

/-- A collection that finds no more alive than the heap held leaves a roomier block,
whatever the sizing sum was. -/
theorem gcCollect_roomier (hmem : a.hasMem = true) (hcap : cap ≤ 2 ^ 30) (hsize : 0 ≤ a.memSize)
    (hmax : a.memSize ≤ cap) (hother : ∀ c ∈ a.gcTo, c ≤ cap) (hlive : 0 ≤ live)
    (hle : live ≤ a.heapPtr) (h : gcCollect cap a extra live = .ok b) : Roomier cap a b := by
  obtain ⟨want, hw, rfl⟩ := gcCollect_ok hmem h
  obtain ⟨-, hwant, hgrown⟩ := grownSize_spec hw
  have hto := a.le_gcToCap want
  refine ⟨hmem, rfl, rfl, ⟨hlive, hle⟩, ⟨?_, gcToCap_le hother hwant⟩, ?_⟩
  · exact Int.le_trans (hgrown hcap hsize hmax) hto
  · intro c hc
    obtain rfl : a.memSize = c := Option.some.inj hc
    exact hmax

/-- A collection for less than a gibibyte leaves the room it was asked for. -/
theorem Inv.collect_room (h : Inv cap a) (hmem : a.hasMem = true) (hextra : 0 ≤ extra)
    (hsmall : extra < 2 ^ 30) (hc : gcCollect cap a extra live = .ok b) :
    a.heapPtr + extra ≤ b.memSize + a.stackLo * 8 := by
  obtain ⟨want, hw, rfl⟩ := gcCollect_ok hmem hc
  have hneed := (grownSize_spec hw).1
  have hto := a.le_gcToCap want
  have hheap := h.heap
  have hbelow := h.below
  obtain ⟨-, hsize, -, -⟩ := h.bounds
  have htop := h.top
  have hlo := a.stackLo_le_sp
  have hsum : a.gcNeed extra = a.heapPtr + extra + -a.stackLo * 8 :=
    int32_of_range (by omega) (by omega)
  show _ ≤ a.gcToCap want + _
  omega

theorem Inv.collect (h : Inv cap a) (hlive : 0 ≤ live) (hle : live ≤ a.heapPtr)
    (hc : gcCollect cap a extra live = .ok b) : Inv cap b := by
  by_cases hmem : a.hasMem = true
  · exact h.roomier (gcCollect_roomier hmem h.range.2 h.bounds.1 h.size h.other hlive hle hc)
  · unfold gcCollect at hc
    rw [if_pos (by simpa using hmem)] at hc
    obtain rfl := Collected.ok.inj hc
    exact h

/-! ### One lemma per operation -/

/-- The stack top moves to a slot the heap is below. -/
theorem Inv.setSp (h : Inv cap a) (hmem : a.hasMem = true) {k : Int} (hk : k ≤ 0)
    (hroom : a.heapPtr ≤ a.memSize + k * 8) : Inv cap { a with sp := k } := by
  have hbelow := h.below
  have hfl := a.stackLo_le_floor
  refine ⟨h.heap, ?_, hk, h.floor, by simp [hmem], h.range, h.size, h.other⟩
  show a.heapPtr ≤ a.memSize + (if k < a.stackFloor then k else a.stackFloor) * 8
  split <;> omega

/-- The slot a push is about to use has an offset an `int` can hold. -/
theorem Inv.slot (h : Inv cap a) {k : Int} (hk : k ≤ 0) (hlow : -2 ^ 28 ≤ k) :
    int32 (a.memSize + k * 8) = a.memSize + k * 8 := by
  obtain ⟨hlo, hhi, -, -⟩ := h.bounds
  exact int32_of_range (by omega) (by omega)

theorem Inv.sp_low (h : Inv cap a) : -2 ^ 27 ≤ a.sp :=
  Int.le_trans h.bounds.2.2.2 a.stackLo_le_sp

theorem Inv.push (h : Inv cap a) (hp : procPush cap a = some b) :
    Inv cap b ∧ b.hasMem = true ∧ b.sp = a.sp - 1 ∧ b.heapPtr = a.heapPtr := by
  have he := h.ensureHeap
  have hmem := a.hasMem_ensureHeap
  have hsp := a.sp_ensureHeap
  have hheap := a.heapPtr_ensureHeap
  have htop := h.top
  have hlow := h.sp_low
  unfold procPush at hp
  dsimp only at hp
  split at hp
  · obtain ⟨c, hc, hp⟩ := Option.bind_eq_some_iff.mp hp
    split at hp
    · cases hp
    next hroom =>
      obtain rfl := Option.some.inj hp
      obtain ⟨-, hcheap, -, hroomier⟩ := procArenaGrow_some he.heap he.other hc
      have hci := he.roomier hroomier
      have hcsp := hroomier.sp
      rw [hci.slot (by omega) (by omega)] at hroom
      exact ⟨hci.setSp hroomier.mem (by omega) (by omega), hroomier.mem, by dsimp only; omega,
        hcheap.trans hheap⟩
  · next hroom =>
      obtain rfl := Option.some.inj hp
      rw [he.slot (by omega) (by omega)] at hroom
      exact ⟨he.setSp hmem (by omega) (by omega), hmem, by dsimp only; omega, hheap⟩

theorem lowerFloor_floor_le (a : Arena) (lo : Int) :
    (a.lowerFloor lo).stackFloor ≤ lo ∧ (a.lowerFloor lo).stackFloor ≤ a.stackFloor := by
  unfold lowerFloor
  dsimp only
  split <;> omega

/-- A block with the heap below the new floor, the old one and the stack top keeps
the invariant under the lowest of them. -/
theorem Inv.lowered {lo : Int} (h : Inv cap a) (hlo : lo ≤ 0)
    (hb : Roomier cap (a.lowerFloor lo) b) (hroom : b.heapPtr ≤ b.memSize + lo * 8) :
    Inv cap b := by
  have hbelow := h.below
  have hfloor := h.floor
  have hheap : b.heapPtr ≤ a.heapPtr := hb.heap.2
  have hsize : a.memSize ≤ b.memSize := hb.size.1
  have hmin := a.stackLo_eq_min
  have hlow : (a.lowerFloor lo).stackLo = min a.sp (min lo a.stackFloor) := by
    rw [stackLo_eq_min]
    unfold lowerFloor
    dsimp only
    split <;> omega
  refine ⟨hb.heap.1, by rw [hb.stackLo, hlow]; omega, hb.sp ▸ h.top, ?_, ?_, h.range, hb.size.2,
    hb.other⟩
  · have := (a.lowerFloor_floor_le lo).1
    rw [hb.stackFloor]
    omega
  · intro hfalse
    rw [hb.mem] at hfalse
    cases hfalse

/-- A reserved frame lies above the heap, to its last slot: the block was checked, or
is checked again after the room was made. -/
theorem Inv.reserve {lo : Int} (h : Inv cap a) (hlo : lo ≤ 0) (hlow : -2 ^ 28 ≤ lo)
    (hlive : 0 ≤ live) (hle : live ≤ a.heapPtr) (hr : procStackReserve cap a lo live = some b) :
    Inv cap b ∧ b.hasMem = true ∧ b.sp = a.sp ∧ b.stackFloor ≤ lo := by
  have he := h.ensureHeap
  have hmem := a.hasMem_ensureHeap
  have hheap := a.heapPtr_ensureHeap
  obtain ⟨hfl, -⟩ := a.procEnsureHeap.lowerFloor_floor_le lo
  have hend : ∀ {c : Arena}, Roomier cap (a.procEnsureHeap.lowerFloor lo) c →
      ¬ int32 (c.memSize + lo * 8) < c.heapPtr →
      Inv cap c ∧ c.hasMem = true ∧ c.sp = a.sp ∧ c.stackFloor ≤ lo := by
    intro c hc hroom
    have hcsize := hc.size
    have hsize : a.procEnsureHeap.memSize ≤ c.memSize := hc.size.1
    have hcap := he.range.2
    obtain ⟨hpos, -, -, -⟩ := he.bounds
    rw [int32_of_range (by omega) (by omega)] at hroom
    exact ⟨he.lowered hlo hc (by omega), hc.mem, hc.sp.trans a.sp_ensureHeap,
      by rw [hc.stackFloor]; exact hfl⟩
  unfold procStackReserve at hr
  dsimp only at hr
  split at hr
  · obtain ⟨c, hc, hr⟩ := Option.bind_eq_some_iff.mp hr
    split at hr
    · cases hr
    next hroom =>
      obtain rfl := Option.some.inj hr
      refine hend ?_ hroom
      split at hc
      · next d hd =>
          obtain rfl := Option.some.inj hc
          exact (procArenaGrow_some (a := a.procEnsureHeap.lowerFloor lo) he.heap he.other hd).2.2.2
      · split at hc
        · next d hd =>
            obtain rfl := Option.some.inj hc
            refine gcCollect_roomier hmem he.range.2 he.bounds.1 he.size he.other hlive ?_ hd
            show live ≤ a.procEnsureHeap.heapPtr
            omega
        · cases hc
  · next hroom =>
      obtain rfl := Option.some.inj hr
      exact hend ⟨hmem, rfl, rfl, ⟨he.heap, Int.le_refl _⟩, ⟨Int.le_refl _, he.size⟩, he.other⟩ hroom

theorem Inv.reserveHeap {bytes : Int} (h : Inv cap a) (hlive : 0 ≤ live) (hle : live ≤ a.heapPtr)
    (hr : procReserveHeap cap a bytes live = some b) : Inv cap b := by
  unfold procReserveHeap at hr
  split at hr
  · obtain rfl := Option.some.inj hr
    exact h
  split at hr
  · exact h.roomier (procArenaGrow_some h.heap h.other hr).2.2.2
  · split at hr
    · next c hc =>
        obtain rfl := Option.some.inj hr
        exact h.collect hlive hle hc
    · cases hr

theorem Inv.drain (h : Inv cap a) (hlive : 0 ≤ live) (hle : live ≤ a.heapPtr)
    (hd : procGcDrain cap a live = some b) :
    Inv cap b ∧ (a.hasMem = true → b.hasMem = true ∧ live ≤ b.heapPtr) := by
  have hpre : Inv cap { a with gcPending := false } :=
    ⟨h.heap, h.below, h.top, h.floor, h.unborn, h.range, h.size, h.other⟩
  unfold procGcDrain at hd
  split at hd
  · split at hd
    · next c hc =>
        obtain rfl := Option.some.inj hd
        refine ⟨hpre.collect hlive hle hc, fun hmem => ?_⟩
        obtain ⟨want, -, rfl⟩ := gcCollect_ok (a := { a with gcPending := false }) hmem hc
        exact ⟨hmem, Int.le_refl _⟩
    · obtain rfl := Option.some.inj hd
      exact ⟨hpre, fun hmem => ⟨hmem, hle⟩⟩
    · cases hd
  · obtain rfl := Option.some.inj hd
    exact ⟨h, fun hmem => ⟨hmem, hle⟩⟩

theorem taHeapObjectSize_pos (size : Int) : 0 < taHeapObjectSize size := by
  unfold taHeapObjectSize TA_HEAP_MIN_OBJECT
  dsimp only
  split <;> omega

theorem taHeapObjectSize_le {size : Int} (h0 : 0 ≤ size) (h : size ≤ 10 ^ 9) :
    taHeapObjectSize size ≤ 10 ^ 9 + 16 := by
  unfold taHeapObjectSize TA_HEAP_MIN_OBJECT
  dsimp only
  rw [int32_of_range (by omega) (by omega)]
  split <;> omega

/-- An object is added to a heap that has room for it. -/
theorem Inv.add {n : Int} (h : Inv cap a) (hmem : a.hasMem = true) (hn : 0 ≤ n)
    (hroom : a.heapPtr + n ≤ a.memSize + a.stackLo * 8) :
    Inv cap { a with heapPtr := int32 (a.heapPtr + n) } := by
  have hheap := h.heap
  have hlo := a.stackLo_le_sp
  have htop := h.top
  obtain ⟨-, hsize, -, -⟩ := h.bounds
  rw [int32_of_range (by omega) (by omega)]
  exact ⟨by dsimp only; omega, hroom, h.top, h.floor, by simp [hmem], h.range, h.size, h.other⟩

/-- An allocation ends below the stack top and below the floor. -/
theorem Inv.alloc {size live' : Int} (h : Inv cap a) (h0 : 0 ≤ size) (hsmall : size ≤ 10 ^ 9)
    (hlive' : 0 ≤ live') (hle' : live' ≤ live) (hle : live ≤ a.heapPtr)
    (ha : procHeapAlloc cap a size live live' = some b) : Inv cap b := by
  have hsize := taHeapObjectSize_pos size
  have hmax := taHeapObjectSize_le h0 hsmall
  have he := h.ensureHeap
  have hheap := a.heapPtr_ensureHeap
  unfold procHeapAlloc at ha
  dsimp only at ha
  obtain ⟨c, hc, ha⟩ := Option.bind_eq_some_iff.mp ha
  have hpre : Inv cap { a.procEnsureHeap with
      gcPending := a.procEnsureHeap.gcPending ||
        decide (a.procEnsureHeap.heapPtr > a.procEnsureHeap.gcTrigger) } :=
    ⟨he.heap, he.below, he.top, he.floor, he.unborn, he.range, he.size, he.other⟩
  obtain ⟨hcinv, hdrained⟩ := hpre.drain (by omega) (by dsimp only; omega) hc
  obtain ⟨hcmem, hclive⟩ := hdrained a.hasMem_ensureHeap
  obtain ⟨hmem0, hmem1, hheap1, hlo1⟩ := hcinv.bounds
  have hheap0 := hcinv.heap
  have htop := hcinv.top
  have hlosp := c.stackLo_le_sp
  split at ha
  · split at ha
    · cases ha
    split at ha
    · next d hd =>
        obtain rfl := Option.some.inj ha
        rw [int32_of_range (x := _ + TA_STACK_HEADROOM) (by unfold TA_STACK_HEADROOM; omega)
          (by unfold TA_STACK_HEADROOM; omega)] at hd
        have hroomier := gcCollect_roomier hcmem hcinv.range.2 hmem0 hcinv.size hcinv.other hlive'
          (by omega) hd
        have hroom := hcinv.collect_room hcmem (by unfold TA_STACK_HEADROOM; omega)
          (by unfold TA_STACK_HEADROOM; omega) hd
        have hdheap := hroomier.heap
        refine (hcinv.roomier hroomier).add hroomier.mem (by omega) ?_
        rw [hroomier.stackLo]
        unfold TA_STACK_HEADROOM at hroom
        omega
    · cases ha
  · next hroom =>
      obtain rfl := Option.some.inj ha
      unfold TA_HEAP_FIT_SLACK at hroom
      rw [int32_of_range (by omega) (by omega), hcinv.slot (by omega) (by omega)] at hroom
      exact hcinv.add hcmem (by omega) (by omega)

/-- The result of a native call comes home below the floor. -/
theorem Inv.converge {total : Int} (h : Inv cap a) (h0 : 0 ≤ total) (hsmall : total ≤ 10 ^ 9)
    (hlive : 0 ≤ live) (hle : live ≤ a.heapPtr + total)
    (hc : gcCollectConverge cap a total live = some b) : Inv cap b := by
  unfold gcCollectConverge at hc
  split at hc
  · next c hc' =>
      obtain rfl := Option.some.inj hc
      by_cases hmem : a.hasMem = true
      · have hroom := h.collect_room hmem h0 (by omega) hc'
        obtain ⟨want, hw, rfl⟩ := gcCollect_ok hmem hc'
        refine ⟨hlive, ?_, h.top, h.floor, fun hf => ?_, h.range,
          gcToCap_le h.other (grownSize_spec hw).2.1, ?_⟩
        · exact Int.le_trans hle hroom
        · rw [show (a.swapped (a.gcToCap want) live).hasMem = a.hasMem from rfl, hmem] at hf
          cases hf
        · intro k hk
          obtain rfl : a.memSize = k := Option.some.inj hk
          exact h.size
      · unfold gcCollect at hc'
        rw [if_pos (by simpa using hmem)] at hc'
        obtain rfl := Collected.ok.inj hc'
        exact h
  · cases hc

theorem Inv.opReserve {n : Nat} (h : Inv cap a) (hn : n < 2 ^ 27) (hlive : 0 ≤ live)
    (hle : live ≤ a.heapPtr) (hr : opReserve cap a n live = some b) : Inv cap b := by
  obtain ⟨c, hc, rfl⟩ := Option.map_eq_some_iff.mp hr
  have htop := h.top
  have hlow := h.sp_low
  rw [int32_of_range (by omega) (by omega)] at hc
  obtain ⟨hci, hcm, hcsp, hfl⟩ := h.reserve (by omega) (by omega) hlive hle hc
  have hbelow := hci.below
  have hlo := c.stackLo_le_floor
  exact hci.setSp hcm (by omega) (by omega)

theorem Inv.pushCont (h : Inv cap a) (hmem : a.hasMem = true) (hp : pushCont cap a = some b) :
    Inv cap b ∧ b.hasMem = true ∧ b.sp = a.sp - 3 ∧ b.heapPtr = a.heapPtr := by
  have htop := h.top
  have hlow := h.sp_low
  unfold Arena.pushCont at hp
  dsimp only at hp
  obtain ⟨c, hc, rfl⟩ := Option.map_eq_some_iff.mp hp
  split at hc
  · obtain ⟨hneed, hcheap, hzero, hroomier⟩ := procArenaGrow_some h.heap h.other hc
    have hcsp := hroomier.sp
    rw [int32_of_range (by omega) (by omega)] at hneed
    exact ⟨(h.roomier hroomier).setSp hroomier.mem (by omega) (by omega), hroomier.mem,
      by dsimp only; omega, hcheap⟩
  · next hroom =>
      obtain rfl := Option.some.inj hc
      exact ⟨h.setSp hmem (by omega) (by omega), hmem, rfl, rfl⟩

/-- A call keeps the invariant, on the fast path too: a frame above the recorded
floor needs no room that is not there already. -/
theorem Inv.opCall {n maxd : Nat} (h : Inv cap a) (hn : n ≤ -a.sp + 1) (hmaxd : maxd < 2 ^ 27)
    (hlive : 0 ≤ live) (hle : live ≤ a.heapPtr) (hc : opCall cap a n maxd live = some b) :
    Inv cap b := by
  obtain ⟨c, hpush, hc⟩ := Option.bind_eq_some_iff.mp hc
  dsimp only at hc
  obtain ⟨d, hcont, hc⟩ := Option.bind_eq_some_iff.mp hc
  obtain ⟨hci, hcm, hcsp, hcheap⟩ := h.push hpush
  obtain ⟨hdi, -, -, hdheap⟩ := hci.pushCont hcm hcont
  have hlow := hci.sp_low
  split at hc
  · rw [int32_of_range (by omega) (by omega)] at hc
    exact (hdi.reserve (by omega) (by omega) hlive (by omega) hc).1
  · obtain rfl := Option.some.inj hc
    exact hdi

/-- A tail call moves the stack top down to the new frame's, which is no deeper
than the call block was. -/
theorem Inv.opTcall {selfCall : Bool} {base n maxd : Nat} (h : Inv cap a)
    (hn : (base : Int) + n + 3 ≤ -a.sp + 1) (hmaxd : maxd < 2 ^ 27) (hlive : 0 ≤ live)
    (hle : live ≤ a.heapPtr) (hc : opTcall cap a selfCall base n maxd live = some b) :
    Inv cap b := by
  obtain ⟨c, hpush, hc⟩ := Option.bind_eq_some_iff.mp hc
  dsimp only at hc
  obtain ⟨d, hd, rfl⟩ := Option.map_eq_some_iff.mp hc
  obtain ⟨hci, hcm, hcsp, hcheap⟩ := h.push hpush
  have hlow := hci.sp_low
  have hdi : Inv cap d ∧ d.hasMem = true ∧ d.sp = c.sp := by
    split at hd
    · obtain rfl := Option.some.inj hd
      exact ⟨hci, hcm, rfl⟩
    · rw [int32_of_range (by omega) (by omega)] at hd
      obtain ⟨h1, h2, h3, -⟩ := hci.reserve (by omega) (by omega) hlive (by omega) hd
      exact ⟨h1, h2, h3⟩
  obtain ⟨hinv, hm, hsp⟩ := hdi
  have hbelow := hinv.below
  have hlo := d.stackLo_le_sp
  exact hinv.setSp hm (by omega) (by omega)

/-! ### Every run -/

/-- What an actor does with its block.  `live` is what a collection would find
alive; an allocation may collect twice. -/
inductive Op
  | push
  | pop
  /-- Return from a frame, or drop the operands of a finished instruction. -/
  | dropTo (sp : Int)
  | reserve (loIdx live : Int)
  | reserveHeap (bytes live : Int)
  | alloc (size live live' : Int)
  | request
  | enter
  | leave
  | drain (live : Int)
  | converge (total live : Int)
  | opReserve (n : Nat) (live : Int)
  | opCall (n maxd : Nat) (live : Int)
  | opTcall (selfCall : Bool) (base n maxd : Nat) (live : Int)
deriving Repr

/-- What the caller of an operation answers for: nothing is popped that was not
pushed, a call block is on the stack before it is called, and a collection finds
no more alive than there is. -/
def Op.Ok (a : Arena) : Op → Prop
  | push | request | enter => True
  | pop => a.sp < 0
  | dropTo k => a.sp ≤ k ∧ k ≤ 0
  | reserve loIdx live => loIdx ≤ 0 ∧ 0 ≤ live ∧ live ≤ a.heapPtr
  | reserveHeap bytes live => 0 ≤ bytes ∧ 0 ≤ live ∧ live ≤ a.heapPtr
  | alloc _ live live' => 0 ≤ live' ∧ live' ≤ live ∧ live ≤ a.heapPtr
  | leave => 0 < a.gcGate
  | drain live => 0 ≤ live ∧ live ≤ a.heapPtr
  | converge total live => 0 ≤ total ∧ 0 ≤ live ∧ live ≤ a.heapPtr + total
  | opReserve _ live => 0 ≤ live ∧ live ≤ a.heapPtr
  | opCall n _ live => n ≤ -a.sp + 1 ∧ 0 ≤ live ∧ live ≤ a.heapPtr
  | opTcall _ base n _ live => (base : Int) + n + 3 ≤ -a.sp + 1 ∧ 0 ≤ live ∧ live ≤ a.heapPtr

instance (a : Arena) (o : Op) : Decidable (o.Ok a) := by
  cases o <;> unfold Op.Ok <;> infer_instance

/-- The sizes an operation asks for: no object and no result of a native call has more
than a billion bytes, and no frame as many words as a gibibyte holds. -/
def Op.Small : Op → Prop
  | reserve loIdx _ => -2 ^ 28 ≤ loIdx
  | alloc size _ _ => 0 ≤ size ∧ size ≤ 10 ^ 9
  | converge total _ => total ≤ 10 ^ 9
  | opReserve n _ => n < 2 ^ 27
  | opCall _ maxd _ | opTcall _ _ _ maxd _ => maxd < 2 ^ 27
  | _ => True

/-- One operation; `none` is `ta_arena_fatal`. -/
def step (cap : Int) (a : Arena) : Op → Option Arena
  | .push => procPush cap a
  | .pop => some { a with sp := a.sp + 1 }
  | .dropTo k => some { a with sp := k }
  | .reserve loIdx live => procStackReserve cap a loIdx live
  | .reserveHeap bytes live => procReserveHeap cap a bytes live
  | .alloc size live live' => procHeapAlloc cap a size live live'
  | .request => some { a with gcPending := true }
  | .enter => some { a with gcGate := a.gcGate + 1 }
  | .leave => some { a with gcGate := a.gcGate - 1 }
  | .drain live => procGcDrain cap a live
  | .converge total live => gcCollectConverge cap a total live
  | .opReserve n live => Arena.opReserve cap a n live
  | .opCall n maxd live => Arena.opCall cap a n maxd live
  | .opTcall selfCall base n maxd live => Arena.opTcall cap a selfCall base n maxd live

/-- Dropping slots needs no room: the stack shrinks away from the heap. -/
theorem Inv.drop (h : Inv cap a) {k : Int} (hle : a.sp ≤ k) (hk : k ≤ 0) :
    Inv cap { a with sp := k } := by
  have hbelow := h.below
  have hlo := a.stackLo_le_sp
  have hfl := a.stackLo_le_floor
  refine ⟨h.heap, ?_, hk, h.floor, fun hf => ?_, h.range, h.size, h.other⟩
  · show a.heapPtr ≤ a.memSize + (if k < a.stackFloor then k else a.stackFloor) * 8
    split <;> omega
  · obtain ⟨h1, h2, h3, h4⟩ := h.unborn hf
    exact ⟨h1, by dsimp only; omega, h3, h4⟩

theorem Inv.step {o : Op} (h : Inv cap a) (hok : o.Ok a) (hsmall : o.Small)
    (hs : step cap a o = some b) : Inv cap b := by
  cases o with
  | push => exact (h.push hs).1
  | pop =>
      obtain rfl := Option.some.inj hs
      have : a.sp < 0 := hok
      exact h.drop (by omega) (by omega)
  | dropTo k =>
      obtain rfl := Option.some.inj hs
      exact h.drop hok.1 hok.2
  | reserve lo live => exact (h.reserve hok.1 hsmall hok.2.1 hok.2.2 hs).1
  | reserveHeap bytes live => exact h.reserveHeap hok.2.1 hok.2.2 hs
  | alloc size live live' => exact h.alloc hsmall.1 hsmall.2 hok.1 hok.2.1 hok.2.2 hs
  | request | enter | leave =>
      obtain rfl := Option.some.inj hs
      exact ⟨h.heap, h.below, h.top, h.floor, h.unborn, h.range, h.size, h.other⟩
  | drain live => exact (h.drain hok.1 hok.2 hs).1
  | converge total live => exact h.converge hok.1 hsmall hok.2.1 hok.2.2 hs
  | opReserve n live => exact h.opReserve hsmall hok.1 hok.2 hs
  | opCall n maxd live => exact h.opCall hok.1 hsmall hok.2.1 hok.2.2 hs
  | opTcall selfCall base n maxd live => exact h.opTcall hok.1 hsmall hok.2.1 hok.2.2 hs

/-- The runs of an actor's block under a cap. -/
abbrev Steps (cap : Int) : Arena → List Op → Arena → Prop :=
  Run (guarded (fun a o => o.Ok a) (ofFn (Arena.step cap)))

theorem Inv.run {os : List Op} (hr : Steps cap a os b) (hsmall : ∀ o ∈ os, o.Small)
    (h : Inv cap a) : Inv cap b := by
  induction hr with
  | nil => exact h
  | cons hs _ ih =>
      exact ih (fun o ho => hsmall o (List.mem_cons_of_mem _ ho))
        (h.step hs.1 (hsmall _ List.mem_cons_self) hs.2)

/-- A push into a reserved slot writes where it is, without growing. -/
theorem Inv.push_reserved (h : Inv cap a) (hmem : a.hasMem = true)
    (hlow : a.stackFloor ≤ a.sp - 1) : procPush cap a = some { a with sp := a.sp - 1 } := by
  have hbelow := h.below
  have hfl := a.stackLo_le_floor
  have htop := h.top
  have hsp := h.sp_low
  unfold procPush procEnsureHeap
  dsimp only
  rw [if_pos hmem, h.slot (by omega) (by omega), if_neg (by omega)]

/-- **The heap stays below the stack**, while no object, frame or result is larger than
`Op.Small` admits.  In every state an actor's block then reaches, the heap ends at or
below the lowest of the stack top and the reserved floor.  So each slot in use or
reserved lies in the block above the heap, also after the next allocation; and a push
into a reserved slot takes the room that is there. -/
theorem heap_below_stack {cap : Int} (hcap : TA_PROC_HEAP0 ≤ cap ∧ cap ≤ 2 ^ 30) {os : List Op}
    {a : Arena} (hr : Steps cap fresh os a) (hsmall : ∀ o ∈ os, o.Small) :
    a.heapPtr ≤ a.memSize + 8 * min a.sp a.stackFloor ∧
      (∀ i, min a.sp a.stackFloor ≤ i → i < 0 →
        0 ≤ a.heapPtr ∧ a.heapPtr ≤ a.memSize + 8 * i ∧ a.memSize + 8 * i + 8 ≤ a.memSize) ∧
      (∀ size live live' b, Op.Ok a (.alloc size live live') → Op.Small (.alloc size live live') →
        procHeapAlloc cap a size live live' = some b →
          ∀ i, min b.sp b.stackFloor ≤ i → i < 0 → b.heapPtr ≤ b.memSize + 8 * i) ∧
      (a.hasMem = true → a.stackFloor ≤ a.sp - 1 →
        procPush cap a = some { a with sp := a.sp - 1 } ∧
          a.heapPtr ≤ a.memSize + 8 * (a.sp - 1)) := by
  have hinv := Inv.run hr hsmall (inv_fresh hcap)
  have hlow : ∀ {b : Arena}, Inv cap b → b.heapPtr ≤ b.memSize + 8 * min b.sp b.stackFloor := by
    intro b hb
    have := hb.below
    have := stackLo_eq_min b
    omega
  have hbelow := hlow hinv
  refine ⟨hbelow, ?_, ?_, ?_⟩
  · intro i hi hneg
    have := hinv.heap
    omega
  · intro size live live' b hok hsize hb i hi _
    have hb' : Inv cap b := hinv.alloc hsize.1 hsize.2 hok.1 hok.2.1 hok.2.2 hb
    have := hlow hb'
    omega
  · intro hmem hfl
    exact ⟨hinv.push_reserved hmem hfl, by omega⟩

/-- A push, a pair, a frame that only a collection in a larger block makes room
for, a call into it and the return of a native call. -/
def framed : List Op :=
  [.push, .alloc 24 0 0, .reserve (-70) 24, .push, .opCall 1 80 24, .converge 400 300]

def afterFramed : Arena where
  hasMem := true
  memSize := 2048
  heapPtr := 300
  sp := -6
  stackFloor := -83
  gcTo := some 2048
  gcTrigger := 4096
  gcPending := false
  gcGate := 0

theorem heap_below_stack_framed : Steps 4096 fresh framed afterFramed ∧
    afterFramed.heapPtr ≤ afterFramed.memSize + 8 * min afterFramed.sp afterFramed.stackFloor := by
  have hr : Steps 4096 fresh framed afterFramed := Run.guarded_iff.mpr (by decide)
  exact ⟨hr, (heap_below_stack (by decide) hr (by simp [framed, Op.Small])).1⟩

/-- With 120 bytes in the heap, a string of 2147483500 characters passes the fit check:
the sum it compares wraps.  The heap ends two gibibytes behind a block of 512 bytes. -/
theorem heap_over_stack : ∃ a, Steps 4096 fresh [.push, .alloc 120 0 0, .alloc 2147483509 120 120] a ∧
    a.memSize = 512 ∧ a.heapPtr = 2147483632 := by
  refine ⟨⟨true, 512, 2147483632, -1, 0, some 512, 4096, false, 0⟩, Run.guarded_iff.mpr ?_, rfl, rfl⟩
  decide

end TinyActor.Runtime.Arena
