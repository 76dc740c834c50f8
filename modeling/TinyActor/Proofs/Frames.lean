/-
A return finds its caller.

The invariant is `Framed`: the return frame of the current frame reads as the registers
of the first waiting caller, everything below the frame is as that caller left it, and
the caller's own frame is in the same relation to the callers after it.  A tail call
keeps it because the return frame is read before the call block moves and the frame's
base stays; the shortcut for a function that calls itself keeps it because then the
return frame is in its place already.
-/
import TinyActor.Vm.Frames

namespace TinyActor.Vm

variable {F W : Type}

/-! ### Words of the return frame -/

theorem getInt_valInt {i : Int} (hlo : -2 ^ 47 ≤ i) (hhi : i < 2 ^ 47) :
    getInt (valInt i : Val F) = i := by
  simp only [valInt, getInt, BitVec.toInt_ofInt, Int.bmod_def]
  omega

variable {t : State F W} {img : Image F} {heap heap' : Heap F} {v : Val F} {n fid : Nat}

theorem getInt_valInt_nat (h : n < 2 ^ 47) : getInt (valInt (n : Int) : Val F) = n :=
  getInt_valInt (by omega) (by omega)

/-- What was read from a slot is read again from the word written for it. -/
theorem getInt_valInt_getInt (v : Val F) : getInt (valInt (getInt v) : Val F) = getInt v := by
  cases v with
  | int n => simp [valInt, getInt]
  | _ => simp [valInt, getInt]

/-- An integer is written back as it was. -/
theorem valInt_getInt (h : isInt v = true) : valInt (getInt v) = v := by
  cases v with
  | int n => simp [valInt, getInt]
  | _ => cases h

/-- A return frame, written from `p` on. -/
structure ReturnFrame (slots slots' : Nat → Val F) (p : Nat) (ret base cbase : Val F) : Prop where
  ret : slots' p = ret
  base : slots' (p + 1) = base
  cbase : slots' (p + 2) = cbase
  outside : ∀ i, i < p ∨ p + 3 ≤ i → slots' i = slots i

theorem returnFrame_written (slots : Nat → Val F) (p : Nat) (a b c : Val F) :
    ReturnFrame slots (Function.update (Function.update (Function.update slots p a) (p + 1) b)
      (p + 2) c) p a b c := by
  refine ⟨?_, ?_, ?_, ?_⟩
  · rw [Function.update_of_ne (by omega), Function.update_of_ne (by omega), Function.update_self]
  · rw [Function.update_of_ne (by omega), Function.update_self]
  · rw [Function.update_self]
  · intro i hi
    rw [Function.update_of_ne (by omega), Function.update_of_ne (by omega),
      Function.update_of_ne (by omega)]

/-! ### Moving a call block down -/

theorem copyDown_outside (slots : Nat → Val F) (src : Nat) {dst i : Nat} : ∀ {n : Nat},
    (i < dst ∨ dst + n ≤ i) → copyDown slots src dst n i = slots i
  | 0, _ => rfl
  | n + 1, h => by
      rw [copyDown, Function.update_of_ne (by omega)]
      exact copyDown_outside slots src (by omega)

/-- The source lies above the target, so a slot is read before it is overwritten. -/
theorem copyDown_inside (slots : Nat → Val F) {src dst : Nat} (hle : dst ≤ src) :
    ∀ {n i : Nat}, i < n → copyDown slots src dst n (dst + i) = slots (src + i)
  | n + 1, i, h => by
      rw [copyDown]
      by_cases hi : i = n
      · rw [hi, Function.update_self]
        exact copyDown_outside slots src (by omega)
      · rw [Function.update_of_ne (by omega)]
        exact copyDown_inside slots hle (by omega)

/-! ### Functions in frames -/

/-- A closure of the heap, if it is one. -/
def Owned (heap : Heap F) (v : Val F) : Prop := ∀ loc, v = .clos loc → loc < heap.length

theorem fidOf_extend (h : Owned heap v) (hh : heap <+: heap') : fidOf heap' v = fidOf heap v := by
  cases v with
  | clos loc =>
      obtain ⟨more, rfl⟩ := hh
      simp only [fidOf, List.getElem?_append_left (h loc rfl)]
  | _ => rfl

theorem Owned.extend (h : Owned heap v) (hh : heap <+: heap') :
    Owned heap' v := fun loc hv => Nat.lt_of_lt_of_le (h loc hv) hh.length_le

theorem arity_extend (img : Image F) (h : Owned heap v) (hh : heap <+: heap') :
    arity img heap' v = arity img heap v := by
  rw [arity, arity, fidOf_extend h hh]

/-! ### The invariant -/

/-- The frame at `base` returns to `c`. -/
structure Saved (img : Image F) (heap : Heap F) (slots : Nat → Val F) (base : Nat) (c : Caller F) :
    Prop where
  place : base = c.sp
  pcWord : getInt (slots (base + arity img heap (slots base) + 1)) = c.pc
  baseWord : getInt (slots (base + arity img heap (slots base) + 2)) = c.base
  cbaseWord : getInt (slots (base + arity img heap (slots base) + 3)) = c.cbase
  below : ∀ i < base, slots i = c.slots i

/-- The frame at `base` returns to the first of the callers, that one's frame to the
second, and so on down to the first frame of the actor. -/
def Chain (img : Image F) (heap : Heap F) : (Nat → Val F) → Nat → List (Caller F) → Prop
  | _, base, [] => base = 0
  | slots, base, c :: cs =>
      Saved img heap slots base c ∧ Owned heap (c.slots c.base) ∧
        c.base + arity img heap (c.slots c.base) + 4 ≤ c.sp ∧ Chain img heap c.slots c.base cs

structure Framed (img : Image F) (s : State F W) (cs : List (Caller F)) : Prop where
  owned : Owned s.heap (s.slots s.base)
  room : s.base + s.arity img + 4 ≤ s.sp
  chain : Chain img s.heap s.slots s.base cs

/-- The chain depends on what lies below the frame, on its function and on its return
frame only. -/
theorem Chain.keep (hh : heap <+: heap') :
    ∀ {cs : List (Caller F)} {slots slots' : Nat → Val F} {base : Nat}, Owned heap (slots base) →
      (∀ i, i ≤ base ∨ (base + arity img heap (slots base) + 1 ≤ i ∧
        i ≤ base + arity img heap (slots base) + 3) → slots' i = slots i) →
      Chain img heap slots base cs → Chain img heap' slots' base cs
  | [], _, _, _, _, _, h => h
  | c :: cs, slots, slots', base, hown, hkept, h => by
      obtain ⟨hsaved, hcown, hroom, hchain⟩ := h
      have harity : arity img heap' (slots' base) = arity img heap (slots base) := by
        rw [hkept base (.inl (Nat.le_refl _)), arity_extend img hown hh]
      refine ⟨⟨hsaved.place, ?_, ?_, ?_, ?_⟩, hcown.extend hh, ?_, ?_⟩
      · rw [harity, hkept _ (.inr ⟨by omega, by omega⟩)]
        exact hsaved.pcWord
      · rw [harity, hkept _ (.inr ⟨by omega, by omega⟩)]
        exact hsaved.baseWord
      · rw [harity, hkept _ (.inr ⟨by omega, by omega⟩)]
        exact hsaved.cbaseWord
      · intro i hi
        rw [hkept i (.inl (by omega))]
        exact hsaved.below i hi
      · rw [arity_extend img hcown hh]
        exact hroom
      · exact hchain.keep hh hcown (fun _ _ => rfl)

theorem Framed.work {s s' : State F W} {cs : List (Caller F)} (h : Framed img s cs)
    (hw : Works img s s') : Framed img s' cs := by
  have hfn : s'.slots s.base = s.slots s.base := hw.kept _ (.inl (Nat.le_refl _))
  refine ⟨?_, ?_, ?_⟩
  · rw [hw.base, hfn]
    exact h.owned.extend hw.heap
  · have harity : s'.arity img = s.arity img := by
      rw [State.arity, State.arity, hw.base, hfn, arity_extend img h.owned hw.heap]
    rw [harity, hw.base]
    exact hw.room
  · rw [hw.base]
    exact h.chain.keep hw.heap h.owned hw.kept

/-! ### Instructions within a frame -/

section Within

variable {host : Host F W} {img : Image F} {s s' : State F W}

/-- The stack below the top, the base and the objects of the heap stay. -/
structure Low (s s' : State F W) : Prop where
  base : s'.base = s.base
  slots : ∀ i, i < s.sp → s'.slots i = s.slots i
  heap : s.heap <+: s'.heap

theorem Low.registers (hb : s'.base = s.base) (hs : s'.slots = s.slots) (hh : s'.heap = s.heap) :
    Low s s' := ⟨hb, fun _ _ => by rw [hs], [], by rw [List.append_nil, hh]⟩

theorem Low.push (s : State F W) (v : Val F) : Low s (s.push v) :=
  ⟨rfl, fun _ hi => Function.update_of_ne (Nat.ne_of_lt hi) _ _, List.prefix_refl _⟩

theorem Low.reserve (s : State F W) : ∀ n, Low s (opReserve s n) ∧ s.sp ≤ (opReserve s n).sp
  | 0 => ⟨.registers rfl rfl rfl, Nat.le_refl _⟩
  | n + 1 => by
      obtain ⟨h, hsp⟩ := Low.reserve s n
      have hp := Low.push (opReserve s n) .nil
      refine ⟨⟨hp.base.trans h.base, ?_, h.heap.trans hp.heap⟩, Nat.le_succ_of_le hsp⟩
      intro i hi
      exact (hp.slots i (by omega)).trans (h.slots i hi)

/-- A pop only moves the top. -/
theorem pop_eq {l : Val F} (h : s.pop = some (l, s')) : s' = { s with sp := s.sp - 1 } := by
  unfold State.pop at h
  split at h
  · cases h
  · next d hd =>
      cases h
      rw [hd]
      rfl

theorem Low.of_cons (h : opCons s = some s') : Low s s' := by
  unfold opCons at h
  simp only at h
  split at h
  · cases h
  · cases h
    exact ⟨rfl, (Low.push s s.acc).slots, List.prefix_append _ _⟩

theorem Low.of_makeClosure {nfree : Nat} (h : opMakeClosure s fid nfree = some s') : Low s s' := by
  unfold opMakeClosure at h
  split at h
  · cases h
    exact .registers rfl rfl rfl
  · simp only at h
    split at h
    · cases h
    · cases h
      exact ⟨rfl, (Low.push s s.acc).slots, List.prefix_append _ _⟩

/-- How an instruction goes on to the next one. -/
def Effect.goesTo (e : Effect F W) (s' : State F W) : Prop := e = .next s' ∨ e = .tick s'

@[simp] theorem goesTo_next : (Effect.next t).goesTo s' ↔ t = s' := by
  simp [Effect.goesTo]

@[simp] theorem goesTo_tick : (Effect.tick t).goesTo s' ↔ t = s' := by
  simp [Effect.goesTo]

@[simp] theorem goesTo_halt {e : Halt} : ¬ (Effect.halt e t).goesTo s' := by
  simp [Effect.goesTo]

@[simp] theorem goesTo_ofOption {o : Option (State F W)} :
    (Effect.ofOption s o).goesTo s' ↔ o = some s' := by
  cases o <;> simp [Effect.ofOption]

@[simp] theorem goesTo_ofExcept {x : Except Reason (Val F)} :
    (Effect.ofExcept s x).goesTo s' ↔ ∃ v, x = .ok v ∧ s.result v 1 = s' := by
  cases x <;> simp [Effect.ofExcept]

@[simp] theorem goesTo_binary {f : Val F → State F W → Effect F W} :
    (binary s f).goesTo s' ↔ ∃ l t, s.pop = some (l, t) ∧ (f l t).goesTo s' := by
  unfold binary
  cases s.pop with
  | none => simp
  | some r =>
      constructor
      · exact fun h => ⟨r.1, r.2, rfl, h⟩
      · rintro ⟨l, t, heq, h⟩
        cases heq
        exact h

/-- An operator on the popped operand and the accumulator. -/
theorem Low.of_binary {f : Val F → State F W → Effect F W} (h : (binary s f).goesTo s')
    (hf : ∀ l t, (f l t).goesTo s' → s'.base = t.base ∧ s'.slots = t.slots ∧ s'.heap = t.heap) :
    Low s s' := by
  obtain ⟨l, t, hpop, hgo⟩ := goesTo_binary.mp h
  obtain ⟨hb, hs, hh⟩ := hf l t hgo
  rw [pop_eq hpop] at hb hs hh
  exact .registers hb hs hh

variable [Double F] [DecidableEq F]

/-- An instruction other than a store leaves the stack below its top alone. -/
theorem exec_low {nargs : Nat} {i : Instr} (hi : i.inFrame nargs = true)
    (hstore : ∀ k, i ≠ .store k) (h : (exec host img s i).goesTo s') : Low s s' := by
  cases i with
  | store k => exact absurd rfl (hstore k)
  | call | tcall | ret | builtin => cases hi
  | load | constI | global | pairP | symP | jif | jump =>
      simp only [exec, goesTo_next, goesTo_tick] at h
      subst h
      exact .registers rfl rfl rfl
  | push =>
      simp only [exec, goesTo_next] at h
      subst h
      exact ⟨rfl, (Low.push s s.acc).slots, List.prefix_refl _⟩
  | loadP | globP =>
      simp only [exec, goesTo_next] at h
      subst h
      exact ⟨rfl, (Low.push s _).slots, List.prefix_refl _⟩
  | const k =>
      simp only [exec, goesTo_ofOption, Option.map_eq_some_iff] at h
      obtain ⟨v, -, rfl⟩ := h
      exact .registers rfl rfl rfl
  | constP k =>
      simp only [exec, goesTo_ofOption, Option.map_eq_some_iff] at h
      obtain ⟨v, -, rfl⟩ := h
      exact ⟨rfl, (Low.push s v).slots, List.prefix_refl _⟩
  | reserve n =>
      simp only [exec, goesTo_next] at h
      subst h
      exact ⟨(Low.reserve s n).1.base, (Low.reserve s n).1.slots, (Low.reserve s n).1.heap⟩
  | cons => exact .of_cons (goesTo_ofOption.mp h)
  | makeClosure fid nfree => exact .of_makeClosure (goesTo_ofOption.mp h)
  | arith | cmp | arithI | jifCmp | jifEqI =>
      refine .of_binary h fun l t ht => ?_
      simp only [goesTo_next, goesTo_tick] at ht
      subst ht
      exact ⟨rfl, rfl, rfl⟩
  | div | mod =>
      refine .of_binary h fun l t ht => ?_
      obtain ⟨v, -, rfl⟩ := goesTo_ofExcept.mp ht
      exact ⟨rfl, rfl, rfl⟩
  | loadF k =>
      simp only [exec] at h
      split at h
      · split at h
        · simp only [goesTo_ofOption, Option.map_eq_some_iff] at h
          obtain ⟨v, -, rfl⟩ := h
          exact .registers rfl rfl rfl
        · exact absurd h goesTo_halt
      · exact absurd h goesTo_halt
  | car | cdr =>
      simp only [exec] at h
      split at h
      · split at h
        · rw [goesTo_next] at h
          subst h
          exact .registers rfl rfl rfl
        · exact absurd h goesTo_halt
      · exact absurd h goesTo_halt

/-- **An instruction that acts within the frame keeps the frame**, as long as it leaves the
operands above it. -/
theorem Works.of_exec {cs : List (Caller F)} {i : Instr} (hf : Framed img s cs)
    (hi : i.inFrame (s.arity img) = true) (h : (exec host img s i).goesTo s')
    (hroom : s.base + s.arity img + 4 ≤ s'.sp) : Works img s s' := by
  have hsp := hf.room
  by_cases hstore : ∃ k, i = .store k
  · obtain ⟨k, rfl⟩ := hstore
    simp only [exec, goesTo_next] at h
    subst h
    refine ⟨rfl, ?_, List.prefix_refl _, hroom⟩
    intro j hj
    simp only [Instr.inFrame, Bool.or_eq_true, Bool.and_eq_true, decide_eq_true_eq] at hi
    exact Function.update_of_ne (by omega) _ _
  · have hlow := exec_low hi (fun k hk => hstore ⟨k, hk⟩) h
    exact ⟨hlow.base, fun j hj => hlow.slots j (by omega), hlow.heap, hroom⟩

end Within

/-! ### Calls -/

section Calls

variable {host : Host F W} {img : Image F} {s s' : State F W}

/-- What a call of a function of the image has found out. -/
structure Called (img : Image F) (s : State F W) (n fid : Nat) : Prop where
  args : n = (arity img s.heap (s.slots (s.sp - n))) + 1
  sp : n ≤ s.sp
  fid : fidOf s.heap (s.slots (s.sp - n)) = some fid
  owned : Owned s.heap (s.slots (s.sp - n))

theorem owned_of_fidOf (h : fidOf heap v = some fid) : Owned heap v := by
  intro loc hv
  rw [hv] at h
  by_contra hge
  rw [fidOf, List.getElem?_eq_none (by omega)] at h
  cases h

theorem known_tick {k : State F W → Nat → Nat → Effect F W}
    (h : callCommon.known img n k s fid = .tick s') :
    img.fnArgs[fid]? = some (n - 1) ∧
      ∃ entry, img.fnEntry[fid]? = some entry ∧ k s fid entry = .tick s' := by
  unfold callCommon.known at h
  split at h
  · next nargs entry hargs hentry =>
      split at h
      · cases h
      · next hn =>
          rw [hargs]
          exact ⟨congrArg some (by omega), entry, hentry, h⟩
  · cases h

/-- A call that goes on in a function of the image: the accumulator is flushed, and the call
block is that function with as many arguments as it takes. -/
theorem callCommon_tick {k : State F W → Nat → Nat → Effect F W}
    (h : callCommon host img s n k = .tick s') :
    ∃ fid entry, Called img (s.push s.acc) n fid ∧ img.fnEntry[fid]? = some entry ∧
      k (s.push s.acc) fid entry = .tick s' := by
  unfold callCommon at h
  generalize s.push s.acc = t at h
  have hcalled : ∀ fid, fidOf t.heap (t.slots (t.sp - n)) = some fid →
      ¬ (n = 0 ∨ t.sp < n) → callCommon.known img n k t fid = .tick s' →
      ∃ fid entry, Called img t n fid ∧ img.fnEntry[fid]? = some entry ∧
        k t fid entry = .tick s' := by
    intro fid hfid hn hk
    obtain ⟨hargs, entry, hentry, hk⟩ := known_tick hk
    refine ⟨fid, entry, ⟨?_, by omega, hfid, owned_of_fidOf hfid⟩, hentry, hk⟩
    simp only [arity, hfid, Option.bind_some, hargs, Option.getD_some]
    omega
  simp only at h
  split at h
  · cases h
  · next hn =>
      split at h
      · unfold doCcall at h
        split at h
        · cases h
        · split at h
          · cases h
          · split at h
            · cases h
            · split at h <;> cases h
      · next fid hv => exact hcalled fid (by rw [hv]; rfl) hn h
      · next loc hv =>
          split at h
          · next entry free hcell => exact hcalled entry (by rw [hv]; simp [fidOf, hcell]) hn h
          · cases h
      · cases h

variable {n : Nat}

/-- The accumulator is flushed to the top of the stack. -/
structure Flushed (s t : State F W) : Prop where
  sp : t.sp = s.sp + 1
  heap : t.heap = s.heap
  regs : t.pc = s.pc ∧ t.base = s.base ∧ t.cbase = s.cbase
  low : ∀ i, i < s.sp → t.slots i = s.slots i

theorem flushed_push (s : State F W) (v : Val F) : Flushed s (s.push v) :=
  ⟨rfl, rfl, ⟨rfl, rfl, rfl⟩, fun _ hi => Function.update_of_ne (Nat.ne_of_lt hi) _ _⟩

/-- What a tail call makes of the frame: the call block at its bottom, and a return frame
that reads as the old one did. -/
structure Rebuilt (img : Image F) (t t' : State F W) (n : Nat) : Prop where
  base : t'.base = t.base
  sp : t'.sp = t.base + n + 3
  heap : t'.heap = t.heap
  below : ∀ i, i < t.base → t'.slots i = t.slots i
  block : ∀ i, i < n → t'.slots (t.base + i) = t.slots (t.sp - n + i)
  words : ∀ j, j < 3 →
    getInt (t'.slots (t.base + n + j)) = getInt (t.slots (t.base + t.arity img + 1 + j))

theorem rebuilt_general (hle : t.base ≤ t.sp - n) (entry : Nat) :
    Rebuilt img t (opTcallGeneral img t n entry) n := by
  have hw := returnFrame_written (copyDown t.slots (t.sp - n) t.base n) (t.base + n)
    (valInt (getInt (t.slots (t.base + t.arity img + 1))))
    (valInt (getInt (t.slots (t.base + t.arity img + 2))))
    (valInt (getInt (t.slots (t.base + t.arity img + 3))))
  refine ⟨rfl, rfl, rfl, ?_, ?_, ?_⟩
  · intro i hi
    exact (hw.outside i (by omega)).trans (copyDown_outside _ _ (by omega))
  · intro i hi
    exact (hw.outside _ (by omega)).trans (copyDown_inside _ hle hi)
  · intro j hj
    match j, hj with
    | 0, _ => exact (congrArg getInt hw.ret).trans (getInt_valInt_getInt _)
    | 1, _ => exact (congrArg getInt hw.base).trans (getInt_valInt_getInt _)
    | 2, _ => exact (congrArg getInt hw.cbase).trans (getInt_valInt_getInt _)

/-- The two ways of a tail call: the shortcut moves the call block and is done. -/
theorem opTcall_cases (img : Image F) (t : State F W) (n fid entry : Nat) :
    (fidOf t.heap (t.slots t.base) = some fid ∧ opTcall img t n fid entry =
      { t with slots := copyDown t.slots (t.sp - n) t.base n, sp := t.base + n + 3 }.enter entry) ∨
    (fidOf t.heap (t.slots t.base) ≠ some fid ∧
      opTcall img t n fid entry = opTcallGeneral img t n entry) := by
  by_cases hself : fidOf t.heap (t.slots t.base) = some fid
  · left
    refine ⟨hself, ?_⟩
    unfold opTcall
    simp only [if_pos hself]
  · right
    refine ⟨hself, ?_⟩
    unfold opTcall
    simp only [if_neg hself]
    rfl

theorem rebuilt_opTcall (hcalled : Called img t n fid) (hle : t.base ≤ t.sp - n) (entry : Nat) :
    Rebuilt img t (opTcall img t n fid entry) n := by
  rcases opTcall_cases img t n fid entry with ⟨hself, hx⟩ | ⟨-, hx⟩
  · rw [hx]
    -- both functions are the same one, so the return frame is in its place
    have harity : t.arity img = n - 1 := by
      have hargs := hcalled.args
      rw [arity, hcalled.fid, ← hself] at hargs
      show arity img t.heap (t.slots t.base) = n - 1
      rw [arity]
      omega
    have hargs := hcalled.args
    refine ⟨rfl, rfl, rfl, ?_, ?_, ?_⟩
    · intro i hi
      exact copyDown_outside _ _ (by omega)
    · intro i hi
      exact copyDown_inside _ hle hi
    · intro j _
      have hplace : t.base + t.arity img + 1 + j = t.base + n + j := by omega
      rw [hplace]
      exact congrArg getInt (copyDown_outside _ _ (by omega))
  · rw [hx]
    exact rebuilt_general hle entry

variable [Double F] [DecidableEq F] {cs : List (Caller F)}

/-- **A call**: the new frame returns to the caller as it is. -/
theorem Framed.call (h : Framed img s cs) (hx : exec host img s (.call n) = .tick s')
    (hab : s.blockAbove img n) (hfit : s.fits) : Framed img s' (s.caller n :: cs) := by
  obtain ⟨fid, entry, hcalled, -, hk⟩ := callCommon_tick hx
  cases hk
  have ht := flushed_push s s.acc
  generalize s.push s.acc = t at hcalled ht
  have hw := returnFrame_written t.slots t.sp (valInt (t.pc + 2)) (valInt t.base) (valInt t.cbase)
  have hargs := hcalled.args
  have hn := hcalled.sp
  have hsp := ht.sp
  -- the function of the new frame is the one that was called
  have hfn : (opCall t n entry).slots (t.sp - n) = t.slots (t.sp - n) := hw.outside _ (by omega)
  have harity : (opCall t n entry).arity img = n - 1 := by
    show arity img t.heap ((opCall t n entry).slots (t.sp - n)) = n - 1
    rw [hfn]
    omega
  have hword : ∀ j, t.sp - n + (opCall t n entry).arity img + (j + 1) = t.sp + j := by
    intro j
    rw [harity]
    omega
  refine ⟨?_, ?_, ⟨?_, ?_, ?_, ?_, ?_⟩, ?_, ?_, ?_⟩
  · show Owned t.heap ((opCall t n entry).slots (t.sp - n))
    rw [hfn]
    exact hcalled.owned
  · show t.sp - n + (opCall t n entry).arity img + 4 ≤ t.sp + 1 + 1 + 1
    rw [harity]
    omega
  · show t.sp - n = s.sp + 1 - n
    rw [hsp]
  · show getInt ((opCall t n entry).slots (t.sp - n + (opCall t n entry).arity img + (0 + 1))) = ((s.pc + 2 : Nat) : Int)
    rw [hword 0, ← ht.regs.1]
    exact (congrArg getInt hw.ret).trans (getInt_valInt_nat (by rw [ht.regs.1]; exact hfit.1))
  · show getInt ((opCall t n entry).slots (t.sp - n + (opCall t n entry).arity img + (1 + 1))) = (s.base : Int)
    rw [hword 1, ← ht.regs.2.1]
    exact (congrArg getInt hw.base).trans (getInt_valInt_nat (by rw [ht.regs.2.1]; exact hfit.2.1))
  · show getInt ((opCall t n entry).slots (t.sp - n + (opCall t n entry).arity img + (2 + 1))) = (s.cbase : Int)
    rw [hword 2, ← ht.regs.2.2]
    exact (congrArg getInt hw.cbase).trans
      (getInt_valInt_nat (by rw [ht.regs.2.2]; exact hfit.2.2))
  · intro i hi
    have hi' : i < t.sp - n := hi
    exact (hw.outside i (by omega)).trans (ht.low i (by omega))
  · show Owned t.heap (s.slots s.base)
    rw [ht.heap]
    exact h.owned
  · show s.base + arity img t.heap (s.slots s.base) + 4 ≤ s.sp + 1 - n
    rw [ht.heap]
    exact hab
  · show Chain img t.heap s.slots s.base cs
    rw [ht.heap]
    exact h.chain

/-- **A tail call**: the frame, now of another function, returns where it did. -/
theorem Framed.tcall (h : Framed img s cs) (hx : exec host img s (.tcall n) = .tick s')
    (hab : s.blockAbove img n) : Framed img s' cs := by
  obtain ⟨fid, entry, hcalled, -, hk⟩ := callCommon_tick hx
  cases hk
  have ht := flushed_push s s.acc
  generalize s.push s.acc = t at hcalled ht
  have hsp := ht.sp
  have hbase := ht.regs.2.1
  have hroom := h.room
  unfold State.blockAbove at hab
  have hb := rebuilt_opTcall hcalled (by omega) entry
  generalize opTcall img t n fid entry = t' at hb
  have hargs := hcalled.args
  have hbb := hb.base
  have hfn : t'.slots t'.base = t.slots (t.sp - n) := by
    rw [hbb, ← Nat.add_zero t.base, ← Nat.add_zero (t.sp - n)]
    exact hb.block 0 (by omega)
  have harity : t'.arity img = n - 1 := by
    rw [State.arity, hfn, hb.heap]
    omega
  have htarity : t.arity img = s.arity img := by
    rw [State.arity, State.arity, hbase, ht.heap, ht.low _ (by omega)]
  have hbasesp := hb.sp
  refine ⟨?_, ?_, ?_⟩
  · rw [hfn, hb.heap]
    exact hcalled.owned
  · rw [harity]
    omega
  · have hchain := h.chain
    cases cs with
    | nil =>
        show t'.base = 0
        rw [hbb, hbase]
        exact hchain
    | cons c cs =>
        obtain ⟨hsaved, hcown, hcroom, hcchain⟩ := hchain
        have hread : ∀ j, j < 3 → getInt (t'.slots (t'.base + t'.arity img + (j + 1))) =
            getInt (s.slots (s.base + s.arity img + (j + 1))) := by
          intro j hj
          have hplace : t'.base + t'.arity img + (j + 1) = t.base + n + j := by omega
          have hplace' : t.base + t.arity img + 1 + j = s.base + s.arity img + (j + 1) := by omega
          rw [hplace, hb.words j hj, hplace', ht.low _ (by omega)]
        rw [← ht.heap, ← hb.heap] at hcown hcroom hcchain
        refine ⟨⟨?_, ?_, ?_, ?_, ?_⟩, hcown, hcroom, hcchain⟩
        · rw [hbb, hbase]
          exact hsaved.place
        · exact (hread 0 (by omega)).trans hsaved.pcWord
        · exact (hread 1 (by omega)).trans hsaved.baseWord
        · exact (hread 2 (by omega)).trans hsaved.cbaseWord
        · intro i hi
          rw [hb.below i (by omega), ht.low i (by omega)]
          exact hsaved.below i (by omega)

/-- **A return**: the caller's registers and its stack are back. -/
theorem Framed.ret {c : Caller F} (h : Framed img s (c :: cs)) :
    ∃ s', exec host img s (.ret (s.arity img)) = .tick s' ∧ Restored s' c ∧ Framed img s' cs := by
  obtain ⟨hsaved, hcown, hcroom, hcchain⟩ := h.chain
  have hplace := hsaved.place
  have hbase : s.base ≠ 0 := by omega
  have hpc : (getInt (s.slots (s.base + s.arity img + 1))).toNat = c.pc :=
    (congrArg Int.toNat hsaved.pcWord).trans (Int.toNat_natCast _)
  have hb : (getInt (s.slots (s.base + s.arity img + 2))).toNat = c.base :=
    (congrArg Int.toNat hsaved.baseWord).trans (Int.toNat_natCast _)
  have hcb : (getInt (s.slots (s.base + s.arity img + 3))).toNat = c.cbase :=
    (congrArg Int.toNat hsaved.cbaseWord).trans (Int.toNat_natCast _)
  have hstack : ∀ i < c.sp, s.slots i = c.slots i := by
    intro i hi
    exact hsaved.below i (by omega)
  refine ⟨opRet s (s.arity img), by simp only [exec, if_neg hbase],
    ⟨hpc, hb, hcb, hplace, hstack⟩, ?_, ?_, ?_⟩
  · show Owned s.heap (s.slots (getInt (s.slots (s.base + s.arity img + 2))).toNat)
    rw [hb, hstack _ (by omega)]
    exact hcown
  · show (getInt (s.slots (s.base + s.arity img + 2))).toNat +
      arity img s.heap (s.slots (getInt (s.slots (s.base + s.arity img + 2))).toNat) + 4 ≤ s.base
    rw [hb, hstack _ (by omega), hplace]
    exact hcroom
  · show Chain img s.heap s.slots (getInt (s.slots (s.base + s.arity img + 2))).toNat cs
    rw [hb]
    refine hcchain.keep (List.prefix_refl _) hcown ?_
    intro i hi
    exact hstack i (by omega)

/-- Every execution keeps the frames in order. -/
theorem Trace.framed {r r' : State F W × List (Caller F)} (h : Trace host img r r') :
    Framed img r.1 r.2 → Framed img r'.1 r'.2 := by
  induction h with
  | refl r => exact id
  | work hw _ ih => exact fun hf => ih (hf.work hw)
  | call hx hab hfit _ ih => exact fun hf => ih (hf.call hx hab hfit)
  | tcall hx hab _ ih => exact fun hf => ih (hf.tcall hx hab)
  | ret hx _ ih =>
      intro hf
      obtain ⟨s', hx', -, hf'⟩ := hf.ret
      rw [hx] at hx'
      cases hx'
      exact ih hf'

end Calls

/-! ### The first frame -/

theorem framed_frameInit {m : Memory F W} {f : Val F} (acc : Val F)
    (hf : f = .nil ∨ fidOf m.heap f = some fid) : Framed img (frameInit img m fid f acc) [] := by
  have hfn : (frameInit img m fid f acc).slots 0 = f := rfl
  refine ⟨?_, ?_, rfl⟩
  · show Owned m.heap ((frameInit img m fid f acc).slots 0)
    rw [hfn]
    rcases hf with rfl | hfid
    · exact fun loc hv => nomatch hv
    · exact owned_of_fidOf hfid
  · show 0 + arity img m.heap ((frameInit img m fid f acc).slots 0) + 4 ≤
      4 + (img.fnArgs[fid]?).getD 0
    rw [hfn]
    rcases hf with rfl | hfid
    · simp [arity, fidOf]
    · simp only [arity, hfid, Option.bind_some]
      omega

/-! ### The shortcut -/

theorem sameFrame_shortcut (hn : 1 ≤ n) (hself : fidOf t.heap (t.slots t.base) = some fid)
    (hargs : img.fnArgs[fid]? = some (n - 1)) (entry : Nat) :
    SameFrame (t.base + n) (opTcall img t n fid entry)
      (opTcallGeneral img t n entry) := by
  have harity : t.arity img = n - 1 := by
    simp [State.arity, arity, hself, hargs]
  have hw := returnFrame_written (copyDown t.slots (t.sp - n) t.base n) (t.base + n)
    (valInt (getInt (t.slots (t.base + t.arity img + 1))))
    (valInt (getInt (t.slots (t.base + t.arity img + 2))))
    (valInt (getInt (t.slots (t.base + t.arity img + 3))))
  rcases opTcall_cases img t n fid entry with ⟨-, hx⟩ | ⟨hne, -⟩
  · rw [hx]
    have hmoved : ∀ j, copyDown t.slots (t.sp - n) t.base n (t.base + n + j) =
        t.slots (t.base + t.arity img + 1 + j) := by
      intro j
      rw [copyDown_outside _ _ (by omega)]
      exact congrArg t.slots (by omega)
    -- the general path writes back the integers it has read
    have hback : ∀ j, j < 3 → (opTcallGeneral img t n entry).slots (t.base + n + j) =
        valInt (getInt (t.slots (t.base + t.arity img + 1 + j))) := by
      intro j hj
      match j, hj with
      | 0, _ => exact hw.ret
      | 1, _ => exact hw.base
      | 2, _ => exact hw.cbase
    have hwords : ∀ j, j < 3 → (opTcallGeneral img t n entry).slots (t.base + n + j) =
        valInt (getInt (copyDown t.slots (t.sp - n) t.base n (t.base + n + j))) := by
      intro j hj
      rw [hback j hj, hmoved]
    refine ⟨rfl, fun i hi => (hw.outside i hi).symm, ?_, ?_⟩
    · intro j hj
      rw [hwords j hj, getInt_valInt_getInt]
      rfl
    · intro hints
      have hslots : copyDown t.slots (t.sp - n) t.base n = (opTcallGeneral img t n entry).slots := by
        funext i
        by_cases hi : i < t.base + n ∨ t.base + n + 3 ≤ i
        · exact (hw.outside i hi).symm
        · obtain ⟨j, rfl⟩ : ∃ j, i = t.base + n + j := ⟨i - (t.base + n), by omega⟩
          rw [hwords j (by omega)]
          exact (valInt_getInt (hints j (by omega))).symm
      show { t with slots := _, sp := _ }.enter entry = _
      rw [hslots]
      rfl
  · exact absurd hself hne

/-! ### The protocol -/

variable [Double F] [DecidableEq F]

theorem TailChain.base_eq {host : Host F W} {s s' : State F W} (h : TailChain host img s s') :
    s'.base = s.base := by
  induction h with
  | refl s => rfl
  | work hw _ ih => rw [ih, hw.base]
  | @tcall s s' r n hx _ ih =>
      obtain ⟨fid, entry, -, -, hk⟩ := callCommon_tick hx
      cases hk
      rw [ih]
      rfl

/-- **Calls, tail calls and returns.**  In every execution that starts with the first frame
of an actor, a return gives the caller that is waiting its registers and its stack back as
they were at its call.  A chain of tail calls stays in one frame.  And where a function
calls itself, the shortcut leaves the frame that the general path would leave. -/
theorem frames_protocol (host : Host F W) (img : Image F) :
    (∀ (m : Memory F W) (fid : Nat) (f acc : Val F), f = .nil ∨ fidOf m.heap f = some fid →
      ∀ (s : State F W) (c : Caller F) (cs : List (Caller F)),
        Trace host img (frameInit img m fid f acc, []) (s, c :: cs) →
        ∃ s', exec host img s (.ret (s.arity img)) = .tick s' ∧ Restored s' c) ∧
    (∀ s s' : State F W, TailChain host img s s' → s'.base = s.base) ∧
    ∀ (t : State F W) (n fid entry : Nat), 1 ≤ n → fidOf t.heap (t.slots t.base) = some fid →
      img.fnArgs[fid]? = some (n - 1) →
      SameFrame (t.base + n) (opTcall img t n fid entry) (opTcallGeneral img t n entry) := by
  refine ⟨?_, fun _ _ h => h.base_eq, ?_⟩
  · intro m fid f acc hf s c cs h
    obtain ⟨s', hx, hr, -⟩ := (h.framed (framed_frameInit acc hf)).ret
    exact ⟨s', hx, hr⟩
  · intro t n fid entry hn hself hargs
    exact sameFrame_shortcut hn hself hargs entry

/-! ### Two functions -/

/-- An entry and two functions, of one and of two arguments. -/
def twoFunctions : Image Int := ⟨[], [], [0, 10, 20], [0, 1, 2]⟩

def idleHost : Host Int Unit := ⟨[], fun _ _ s => .ok s⟩

/-- The entry about to call the first function. -/
def entryCalls : State Int Unit :=
  { (frameInit twoFunctions ⟨fun _ => .nil, [], ()⟩ 0 .nil .nil).push (.closId 1) with
    acc := .int 5, pc := 6 }

/-- That function in its frame, about to leave it to the second one. -/
def firstLeaves : State Int Unit :=
  { ((opCall (entryCalls.push (.int 5)) 2 10).push (.closId 2)).push (.int 7) with acc := .int 8 }

theorem frames_protocol_tailCall :
    ∃ s', exec idleHost twoFunctions (opTcall twoFunctions (firstLeaves.push (.int 8)) 3 2 20)
        (.ret 2) = .tick s' ∧ Restored s' (entryCalls.caller 2) := by
  have hentry : Works twoFunctions
      (frameInit twoFunctions ⟨fun _ => .nil, [], ()⟩ 0 .nil .nil) entryCalls := by
    refine ⟨rfl, ?_, List.prefix_refl _, by decide⟩
    intro i hi
    change i ≤ 0 ∨ (1 ≤ i ∧ i ≤ 3) at hi
    exact Function.update_of_ne (show i ≠ 4 by omega) _ _
  have hfirst : Works twoFunctions (opCall (entryCalls.push (.int 5)) 2 10) firstLeaves := by
    refine ⟨rfl, ?_, List.prefix_refl _, by decide⟩
    intro i hi
    change i ≤ 4 ∨ (6 ≤ i ∧ i ≤ 8) at hi
    exact (Function.update_of_ne (show i ≠ 10 by omega) _ _).trans
      (Function.update_of_ne (show i ≠ 9 by omega) _ _)
  have hcall : exec idleHost twoFunctions entryCalls (.call 2) =
      .tick (opCall (entryCalls.push (.int 5)) 2 10) := rfl
  have htcall : exec idleHost twoFunctions firstLeaves (.tcall 3) =
      .tick (opTcall twoFunctions (firstLeaves.push (.int 8)) 3 2 20) := rfl
  have hfits : entryCalls.fits := by
    refine ⟨?_, ?_, ?_⟩ <;> decide
  exact (frames_protocol idleHost twoFunctions).1 ⟨fun _ => .nil, [], ()⟩ 0 .nil .nil (.inl rfl)
    _ _ _ (.work hentry (.call hcall (show _ ≤ _ by decide) hfits
      (.work hfirst (.tcall htcall (show _ ≤ _ by decide) (.refl _)))))

end TinyActor.Vm
