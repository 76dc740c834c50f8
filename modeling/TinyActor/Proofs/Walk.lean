/-
The walker names the functions that are active.

What it relies on is an invariant of every execution: the program counter, that of the actor and
that in every return frame, lies in the words of the function whose frame it is, and the frame has
that function in its slot.  Then the search in the entry table finds the function, the number of
its arguments gives the place of its return frame, also after tail calls between functions with
different numbers of arguments, and the chain of callers of `Proofs/Frames` does the rest.
-/
import Mathlib.Data.List.Forall2
import TinyActor.Proofs.Frames
import TinyActor.Vm.Walk

namespace TinyActor.Vm

variable {F W : Type} {img : Image F} {lay : Layout img} {heap heap' : Heap F}

/-! ### The entry table -/

/-- The search finds the function whose entry is the last one not behind the place. -/
theorem fidFrom_eq {entries : List Nat} (h : entries.Pairwise (· < ·)) {k entry pc : Nat}
    (hk : entries[k]? = some entry) (hle : entry ≤ pc)
    (hnext : ∀ next, entries[k + 1]? = some next → pc < next) (i : Nat) :
    fidFrom pc i entries = some (i + k) := by
  induction entries generalizing k i with
  | nil => cases hk
  | cons a entries ih =>
      rw [List.pairwise_cons] at h
      cases k with
      | zero =>
          obtain rfl := Option.some.inj hk
          cases entries with
          | nil => rw [fidFrom, if_neg (by omega), Nat.add_zero]
          | cons b entries =>
              have hpc := hnext b rfl
              rw [fidFrom, if_neg (by omega), if_pos (by omega), Nat.add_zero]
      | succ k =>
          rw [List.getElem?_cons_succ] at hk
          have hmem := List.mem_of_getElem? hk
          have hentry := h.1 entry hmem
          cases entries with
          | nil => cases hk
          | cons b entries =>
              have hb : b ≤ entry := by
                rcases List.mem_cons.mp hmem with rfl | hmem
                · exact Nat.le_refl _
                · exact Nat.le_of_lt ((List.pairwise_cons.mp h.2).1 entry hmem)
              rw [fidFrom, if_neg (by omega), if_neg (by omega), ih h.2 hk hnext,
                Nat.add_right_comm, Nat.add_assoc]

theorem Layout.fidOfPc_eq (lay : Layout img) {fid pc : Nat} (h : lay.instr fid pc) :
    fidOfPc img pc = some fid := by
  obtain ⟨entry, hentry, hle, hnext⟩ := lay.within h
  rw [fidOfPc, fidFrom_eq lay.ascending hentry hle hnext, Nat.zero_add]

/-! ### The function of a frame -/

/-- The function `fid` is at `pc`, in a frame that has it in its slot; the first frame of an actor
may have nil there. -/
structure Runs (lay : Layout img) (heap : Heap F) (slots : Nat → Val F) (pc base cbase fid : Nat) :
    Prop where
  here : lay.instr fid pc
  entry : img.fnEntry[fid]? = some cbase
  slot : base ≠ 0 → fidOf heap (slots base) = some fid

def Caller.runs (lay : Layout img) (heap : Heap F) (c : Caller F) (fid : Nat) : Prop :=
  Runs lay heap c.slots c.pc c.base c.cbase fid

/-- The active functions are those the actor and its callers are in. -/
structure Located (lay : Layout img) (s : State F W) (cs : List (Caller F)) (f : Nat)
    (fs : List Nat) : Prop where
  framed : Framed img s cs
  current : Runs lay s.heap s.slots s.pc s.base s.cbase f
  callers : List.Forall₂ (Caller.runs lay s.heap) cs fs

theorem Runs.arity {slots : Nat → Val F} {pc base cbase fid : Nat}
    (h : Runs lay heap slots pc base cbase fid) (hb : base ≠ 0) :
    arity img heap (slots base) = (img.fnArgs[fid]?).getD 0 := by
  rw [Vm.arity, h.slot hb, Option.bind_some]

theorem fidOf_keep {v : Val F} {fid : Nat} (h : fidOf heap v = some fid) (hh : heap <+: heap') :
    fidOf heap' v = some fid := by
  rw [fidOf_extend (owned_of_fidOf h) hh, h]

theorem Runs.extend {slots : Nat → Val F} {pc base cbase fid : Nat}
    (h : Runs lay heap slots pc base cbase fid) (hh : heap <+: heap') :
    Runs lay heap' slots pc base cbase fid :=
  ⟨h.here, h.entry, fun hb => fidOf_keep (h.slot hb) hh⟩

/-! ### The walk -/

/-- The walk goes along the callers; of the slots it needs only what lies in their frames. -/
theorem walkFrom_chain {live : Nat} {slots : Nat → Val F} {cs : List (Caller F)} :
    ∀ (maxDepth : Nat) {own : Nat → Val F} {pc base cbase f top : Nat} {fs : List Nat},
      Runs lay heap own pc base cbase f → List.Forall₂ (Caller.runs lay heap) cs fs →
      Chain img heap own base cs → base + arity img heap (own base) + 4 ≤ top → top ≤ live →
      (∀ i < top, slots i = own i) →
      walkFrom img slots live maxDepth pc base = (f :: fs).take maxDepth := by
  induction cs with
  | nil =>
      intro maxDepth own pc base cbase f top fs hruns hcs hchain _ _ _
      cases hcs
      have hbase : base = 0 := hchain
      cases maxDepth with
      | zero => rfl
      | succ n =>
          rw [walkFrom, lay.fidOfPc_eq hruns.here]
          simp [hbase]
  | cons c cs ih =>
      intro maxDepth own pc base cbase f top fs hruns hcs hchain hroom htop hsame
      cases hcs with
      | @cons _ g _ gs hc hcs =>
          obtain ⟨hsaved, -, hcroom, hrest⟩ := hchain
          have hplace := hsaved.place
          have hb : base ≠ 0 := by omega
          have harity := hruns.arity hb
          cases maxDepth with
          | zero => rfl
          | succ n =>
              have hword : ∀ j, j < 4 → slots (base + arity img heap (own base) + j) =
                  own (base + arity img heap (own base) + j) := fun j hj => hsame _ (by omega)
              have hpc : getInt (slots ((base : Int) + (arity img heap (own base) : Nat) + 1).toNat) =
                  c.pc := by
                rw [← hsaved.pcWord, ← hword 1 (by omega)]
                rfl
              have hbase : getInt (slots ((base : Int) + (arity img heap (own base) : Nat) + 2).toNat) =
                  c.base := by
                rw [← hsaved.baseWord, ← hword 2 (by omega)]
                rfl
              have hrec := ih n hc hcs hrest hcroom (by omega) (fun i hi => by
                rw [hsame i (by omega), hsaved.below i (by omega)])
              rw [walkFrom, lay.fidOfPc_eq hruns.here]
              simp only [← harity, hpc, hbase, hrec]
              rw [if_neg (by omega), if_neg (by omega), List.take_succ_cons]

/-- A state whose stack agrees with that of a located one up to the end of its frame. -/
theorem Located.walk {s p : State F W} {cs : List (Caller F)} {f : Nat} {fs : List Nat}
    (h : Located lay s cs f fs) (hpc : p.pc = s.pc) (hbase : p.base = s.base)
    (hsp : s.base + s.arity img + 4 ≤ p.sp)
    (hslots : ∀ i < s.base + s.arity img + 4, p.slots i = s.slots i) (maxDepth : Nat) :
    walkStack img p maxDepth = (f :: fs).take maxDepth := by
  rw [walkStack, if_neg (by omega), hpc, hbase]
  exact walkFrom_chain _ h.current h.callers h.framed.chain (Nat.le_refl _) hsp hslots

/-! ### Steps -/

section Steps

variable {host : Host F W} {s s' : State F W} {n : Nat}

/-- How a call ends: as the C function does, as a function of the image is entered, or with the
machine. -/
theorem callCommon_cases {k : State F W → Nat → Nat → Effect F W} {e : Effect F W}
    (h : callCommon host img s n k = e) :
    (∃ cf, doCcall host (s.push s.acc) cf n = e) ∨
    (∃ fid entry, k (s.push s.acc) fid entry = e) ∨
    ∃ cause, e = .halt cause (s.push s.acc) ∧ ∀ r, cause ≠ .died r := by
  have hknown : ∀ fid, callCommon.known img n k (s.push s.acc) fid = e →
      (∃ fid entry, k (s.push s.acc) fid entry = e) ∨
      ∃ cause, e = .halt cause (s.push s.acc) ∧ ∀ r, cause ≠ .died r := by
    intro fid hx
    unfold callCommon.known at hx
    split at hx
    · split at hx
      · exact .inr ⟨_, hx.symm, by simp⟩
      · exact .inl ⟨_, _, hx⟩
    · exact .inr ⟨_, hx.symm, by simp⟩
  unfold callCommon at h
  simp only at h
  split at h
  · exact .inr (.inr ⟨_, h.symm, by simp⟩)
  · split at h
    · exact .inl ⟨_, h⟩
    · exact .inr (hknown _ h)
    · split at h
      · exact .inr (hknown _ h)
      · exact .inr (.inr ⟨_, h.symm, by simp⟩)
    · exact .inr (.inr ⟨_, h.symm, by simp⟩)

theorem doCcall_cases {t : State F W} {cf : Nat} {e : Effect F W} (h : doCcall host t cf n = e) :
    (∃ v heap world, e = .next (ccallReturn t n v heap world)) ∨
    (∃ reason world, e = .halt (.died (.native reason)) { t with world := world }) ∨
    ∃ cause, e = .halt cause t ∧ ∀ r, cause ≠ .died r := by
  unfold doCcall at h
  split at h
  · exact .inr (.inr ⟨_, h.symm, by simp⟩)
  · split at h
    · exact .inr (.inr ⟨_, h.symm, by simp⟩)
    · split at h
      · exact .inr (.inr ⟨_, h.symm, by simp⟩)
      · split at h
        · exact .inl ⟨_, _, _, h.symm⟩
        · exact .inr (.inl ⟨_, _, h.symm⟩)

theorem callCommon_next {k : State F W → Nat → Nat → Effect F W}
    (hk : ∀ t fid entry r, k t fid entry ≠ .next r) (h : callCommon host img s n k = .next s') :
    s'.cbase = s.cbase ∧ s'.pc = s.pc + 2 := by
  rcases callCommon_cases h with ⟨cf, hx⟩ | ⟨fid, entry, hx⟩ | ⟨cause, hx, -⟩
  · rcases doCcall_cases hx with ⟨v, heap, world, hx⟩ | ⟨reason, world, hx⟩ | ⟨cause, hx, -⟩
    · cases hx
      exact ⟨rfl, rfl⟩
    · cases hx
    · cases hx
  · exact absurd hx (hk _ _ _ _)
  · cases hx

theorem callCommon_died {k : State F W → Nat → Nat → Effect F W} {p : State F W} {r : Reason}
    (hk : ∀ t fid entry e q, k t fid entry ≠ .halt e q)
    (h : callCommon host img s n k = .halt (.died r) p) :
    p.pc = s.pc ∧ p.base = s.base ∧ ∀ j < s.sp, p.slots j = s.slots j := by
  rcases callCommon_cases h with ⟨cf, hx⟩ | ⟨fid, entry, hx⟩ | ⟨cause, hx, hcause⟩
  · rcases doCcall_cases hx with ⟨v, heap, world, hx⟩ | ⟨reason, world, hx⟩ | ⟨cause, hx, hcause⟩
    · cases hx
    · cases hx
      exact ⟨rfl, rfl, (flushed_push s s.acc).low⟩
    · injection hx with heq
      exact absurd heq.symm (hcause r)
  · exact absurd hx (hk _ _ _ _ _)
  · injection hx with heq
    exact absurd heq.symm (hcause r)

theorem ofOption_ne_died {t p : State F W} {o : Option (State F W)} {r : Reason} :
    Effect.ofOption t o ≠ .halt (.died r) p := by
  cases o with
  | none => simp [Effect.ofOption]
  | some t => simp [Effect.ofOption]

theorem binary_died {f : Val F → State F W → Effect F W} {p : State F W} {r : Reason}
    (h : binary s f = .halt (.died r) p) :
    ∃ l, f l { s with sp := s.sp - 1 } = .halt (.died r) p := by
  unfold binary at h
  split at h
  · next l t hpop =>
      rw [pop_eq hpop] at h
      exact ⟨l, h⟩
  · cases h

theorem reserve_cbase (s : State F W) (n : Nat) : (opReserve s n).cbase = s.cbase := by
  induction n with
  | zero => rfl
  | succ n ih => exact ih

/-- What a call and a tail call enter: a function of the image, at its entry, with that function
in the slot of the frame. -/
structure Enters (img : Image F) (s s' : State F W) (fid entry : Nat) : Prop where
  isEntry : img.fnEntry[fid]? = some entry
  pc : s'.pc = entry
  cbase : s'.cbase = entry
  heap : s'.heap = s.heap
  slot : fidOf s'.heap (s'.slots s'.base) = some fid

theorem Enters.extends {fid entry : Nat} (h : Enters img s s' fid entry) : s.heap <+: s'.heap :=
  h.heap ▸ List.prefix_refl _

theorem Enters.runs {fid entry : Nat} (h : Enters img s s' fid entry) :
    Runs lay s'.heap s'.slots s'.pc s'.base s'.cbase fid :=
  ⟨h.pc ▸ lay.starts h.isEntry, h.cbase ▸ h.isEntry, fun _ => h.slot⟩

variable {cs : List (Caller F)} {f : Nat} {fs : List Nat}

theorem Located.extend_callers (h : Located lay s cs f fs) (hh : s.heap <+: s'.heap) :
    List.Forall₂ (Caller.runs lay s'.heap) cs fs :=
  h.callers.imp fun _ _ hc => Runs.extend hc hh

variable [Double F] [DecidableEq F]

/-- The machine goes on in the same frame at one of the successors of an instruction. -/
def GoesOn (s : State F W) (i : Instr) (s' : State F W) : Prop :=
  s'.cbase = s.cbase ∧ s'.pc ∈ i.successors s.pc s.cbase

/-- A call of a C function: the other calls and a return end in a tick. -/
theorem goesOn_leaving {i : Instr} (hleaves : i.leaves = true) (hnext : exec host img s i = .next s') :
    GoesOn s i s' := by
  cases i with
  | call n =>
      obtain ⟨hcbase, hpc⟩ := callCommon_next (fun _ _ _ _ hk => by cases hk) hnext
      exact ⟨hcbase, hpc ▸ List.mem_cons_self⟩
  | tcall n =>
      obtain ⟨hcbase, hpc⟩ := callCommon_next (fun _ _ _ _ hk => by cases hk) hnext
      exact ⟨hcbase, hpc ▸ List.mem_cons_self⟩
  | ret k =>
      rw [exec] at hnext
      split at hnext <;> cases hnext
  | _ => cases hleaves

theorem goesOn_cons (hgo : (exec host img s .cons).goesTo s') : GoesOn s .cons s' := by
  have hcons := goesTo_ofOption.mp hgo
  unfold opCons at hcons
  simp only at hcons
  split at hcons
  · cases hcons
  · cases hcons
    exact ⟨rfl, List.mem_cons_self⟩

theorem goesOn_makeClosure {fid nfree : Nat} (hgo : (exec host img s (.makeClosure fid nfree)).goesTo s') :
    GoesOn s (.makeClosure fid nfree) s' := by
  have hclos := goesTo_ofOption.mp hgo
  unfold opMakeClosure at hclos
  split at hclos
  · cases hclos
    exact ⟨rfl, List.mem_cons_self⟩
  · simp only at hclos
    split at hclos
    · cases hclos
    · cases hclos
      exact ⟨rfl, List.mem_cons_self⟩

theorem goesOn_loadF {k : Nat} (hgo : (exec host img s (.loadF k)).goesTo s') : GoesOn s (.loadF k) s' := by
  simp only [exec] at hgo
  split at hgo
  · split at hgo
    · simp only [goesTo_ofOption, Option.map_eq_some_iff] at hgo
      obtain ⟨v, -, rfl⟩ := hgo
      exact ⟨rfl, List.mem_cons_self⟩
    · exact absurd hgo goesTo_halt
  · exact absurd hgo goesTo_halt

theorem goesOn_part {i : Instr} (hi : i = .car ∨ i = .cdr) (hgo : (exec host img s i).goesTo s') :
    GoesOn s i s' := by
  rcases hi with rfl | rfl <;>
  · simp only [exec] at hgo
    split at hgo
    · split at hgo
      · rw [goesTo_next] at hgo
        subst hgo
        exact ⟨rfl, List.mem_cons_self⟩
      · exact absurd hgo goesTo_halt
    · exact absurd hgo goesTo_halt

theorem goesOn_builtin {id n : Nat} (hgo : (exec host img s (.builtin id n)).goesTo s') :
    GoesOn s (.builtin id n) s' := by
  simp only [exec] at hgo
  split at hgo
  · rw [goesTo_tick] at hgo
    subst hgo
    exact ⟨rfl, List.mem_cons_self⟩
  · exact absurd hgo goesTo_halt

/-- An instruction that stays in its frame goes on at one of its successors. -/
theorem exec_successor {i : Instr}
    (h : exec host img s i = .next s' ∨ exec host img s i = .tick s' ∧ i.leaves = false) :
    GoesOn s i s' := by
  by_cases hleaves : i.leaves = true
  · exact goesOn_leaving hleaves (h.resolve_right fun hr => by rw [hleaves] at hr; cases hr.2)
  · have hgo : (exec host img s i).goesTo s' := h.imp_right And.left
    cases i with
    | call | tcall | ret => exact absurd rfl hleaves
    | load | store | push | pairP | symP | global | constI | loadP | globP | jump =>
        simp only [exec, goesTo_next, goesTo_tick] at hgo
        subst hgo
        exact ⟨rfl, List.mem_cons_self⟩
    | jif no =>
        simp only [exec, goesTo_tick] at hgo
        subst hgo
        refine ⟨rfl, ?_⟩
        dsimp only [Instr.successors]
        split
        · exact List.mem_cons_self
        · exact List.mem_cons_of_mem _ List.mem_cons_self
    | const | constP =>
        simp only [exec, goesTo_ofOption, Option.map_eq_some_iff] at hgo
        obtain ⟨v, -, rfl⟩ := hgo
        exact ⟨rfl, List.mem_cons_self⟩
    | reserve n =>
        simp only [exec, goesTo_next] at hgo
        subst hgo
        exact ⟨reserve_cbase s n, List.mem_cons_self⟩
    | cons => exact goesOn_cons hgo
    | makeClosure fid nfree => exact goesOn_makeClosure hgo
    | arith | cmp | arithI =>
        obtain ⟨l, t, hpop, ht⟩ := goesTo_binary.mp hgo
        rw [goesTo_next] at ht
        rw [pop_eq hpop] at ht
        subst ht
        exact ⟨rfl, List.mem_cons_self⟩
    | div | mod =>
        obtain ⟨l, t, hpop, ht⟩ := goesTo_binary.mp hgo
        obtain ⟨v, -, rfl⟩ := goesTo_ofExcept.mp ht
        rw [pop_eq hpop]
        exact ⟨rfl, List.mem_cons_self⟩
    | jifCmp | jifEqI =>
        obtain ⟨l, t, hpop, ht⟩ := goesTo_binary.mp hgo
        rw [goesTo_tick] at ht
        rw [pop_eq hpop] at ht
        subst ht
        refine ⟨rfl, ?_⟩
        dsimp only [Instr.successors]
        split
        · exact List.mem_cons_self
        · exact List.mem_cons_of_mem _ List.mem_cons_self
    | loadF k => exact goesOn_loadF hgo
    | car => exact goesOn_part (.inl rfl) hgo
    | cdr => exact goesOn_part (.inr rfl) hgo
    | builtin id n => exact goesOn_builtin hgo

theorem exec_call_enters (h : exec host img s (.call n) = .tick s') :
    ∃ fid entry, Enters img s s' fid entry := by
  obtain ⟨fid, entry, hcalled, hentry, hk⟩ := callCommon_tick h
  cases hk
  refine ⟨fid, entry, hentry, rfl, rfl, rfl, ?_⟩
  generalize s.push s.acc = t at hcalled
  have hargs := hcalled.args
  have hn := hcalled.sp
  have hw := returnFrame_written t.slots t.sp (valInt (t.pc + 2)) (valInt t.base) (valInt t.cbase)
  rw [← hcalled.fid]
  exact congrArg (fidOf t.heap) (hw.outside (t.sp - n) (by omega))

theorem exec_tcall_enters (h : exec host img s (.tcall n) = .tick s') (hab : s.blockAbove img n) :
    ∃ fid entry, Enters img s s' fid entry := by
  obtain ⟨fid, entry, hcalled, hentry, hk⟩ := callCommon_tick h
  cases hk
  have ht := flushed_push s s.acc
  refine ⟨fid, entry, hentry, rfl, rfl, rfl, ?_⟩
  generalize s.push s.acc = t at hcalled ht
  have hargs := hcalled.args
  have hsp := ht.sp
  have hbase := ht.regs.2.1
  unfold State.blockAbove at hab
  have hb := rebuilt_opTcall hcalled (by omega) entry
  have hslot := hb.block 0 (by omega)
  rw [Nat.add_zero, Nat.add_zero] at hslot
  rw [hb.heap, hb.base, hslot, hcalled.fid]

theorem Located.work (h : Located lay s cs f fs) {i : Instr}
    (hfetch : img.fetch s.pc = some i)
    (hx : exec host img s i = .next s' ∨ exec host img s i = .tick s' ∧ i.leaves = false)
    (hw : Works img s s') : Located lay s' cs f fs := by
  obtain ⟨hcbase, hpc⟩ := exec_successor hx
  have hslot : s'.slots s.base = s.slots s.base := hw.kept _ (.inl (Nat.le_refl _))
  refine ⟨h.framed.work hw, ⟨?_, ?_, ?_⟩, h.extend_callers hw.heap⟩
  · exact lay.stays h.current.entry h.current.here hfetch _ hpc
  · rw [hcbase]
    exact h.current.entry
  · rw [hw.base, hslot]
    exact fun hb => fidOf_keep (h.current.slot hb) hw.heap

theorem Located.call (h : Located lay s cs f fs)
    (hfetch : img.fetch s.pc = some (.call n)) (hx : exec host img s (.call n) = .tick s')
    (hab : s.blockAbove img n) (hfit : s.fits) {g : Nat}
    (hg : fidOf s'.heap (s'.slots s'.base) = some g) :
    Located lay s' (s.caller n :: cs) g (f :: fs) := by
  obtain ⟨fid, entry, he⟩ := exec_call_enters hx
  obtain rfl : fid = g := Option.some.inj (he.slot.symm.trans hg)
  refine ⟨h.framed.call hx hab hfit, he.runs, .cons ⟨?_, h.current.entry, ?_⟩
    (h.extend_callers he.extends)⟩
  · exact lay.stays h.current.entry h.current.here hfetch _ List.mem_cons_self
  · exact fun hb => fidOf_keep (h.current.slot hb) he.extends

theorem Located.tcall (h : Located lay s cs f fs)
    (hx : exec host img s (.tcall n) = .tick s') (hab : s.blockAbove img n) {g : Nat}
    (hg : fidOf s'.heap (s'.slots s'.base) = some g) : Located lay s' cs g fs := by
  obtain ⟨fid, entry, he⟩ := exec_tcall_enters hx hab
  obtain rfl : fid = g := Option.some.inj (he.slot.symm.trans hg)
  exact ⟨h.framed.tcall hx hab, he.runs, h.extend_callers he.extends⟩

theorem Located.ret {c : Caller F} (h : Located lay s (c :: cs) f fs) {k : Nat}
    (hfetch : img.fetch s.pc = some (.ret k)) (hx : exec host img s (.ret k) = .tick s') :
    ∃ g gs, fs = g :: gs ∧ Located lay s' cs g gs := by
  have hbase : s.base ≠ 0 := by
    intro hb
    rw [exec, if_pos hb] at hx
    cases hx
  have hk : s.arity img = k := by
    rw [State.arity, h.current.arity hbase, lay.returns h.current.here hfetch, Option.getD_some]
  obtain ⟨r, hr : exec host img s (.ret (s.arity img)) = .tick r, hres, hframed⟩ := h.framed.ret
  rw [hk, hx] at hr
  cases hr
  cases h.callers with
  | @cons _ g _ gs hc hcs =>
      have hsp := h.framed.chain.2.2.1
      have hheap : s'.heap = s.heap := by
        rw [exec, if_neg hbase] at hx
        cases hx
        rfl
      refine ⟨g, gs, rfl, hframed, ⟨?_, ?_, ?_⟩, by rw [hheap]; exact hcs⟩
      · rw [hres.pc]
        exact hc.here
      · rw [hres.cbase]
        exact hc.entry
      · rw [hheap, hres.base, hres.stack _ (by omega)]
        exact hc.slot

/-- **Every history is located.** -/
theorem History.located {s₀ : State F W} {fid₀ : Nat}
    (h₀ : Located lay s₀ [] fid₀ []) {fs : List Nat} (h : History host img s₀ fid₀ s cs fs) :
    ∃ f gs, fs = f :: gs ∧ Located lay s cs f gs := by
  induction h with
  | start => exact ⟨fid₀, [], rfl, h₀⟩
  | work _ hfetch hx hw ih =>
      obtain ⟨f, gs, rfl, hloc⟩ := ih
      exact ⟨f, gs, rfl, hloc.work hfetch hx hw⟩
  | call _ hfetch hx hab hfit hg ih =>
      obtain ⟨f, gs, rfl, hloc⟩ := ih
      exact ⟨_, _, rfl, hloc.call hfetch hx hab hfit hg⟩
  | tcall _ _ hx hab hg ih =>
      obtain ⟨f, gs, heq, hloc⟩ := ih
      cases heq
      exact ⟨_, _, rfl, hloc.tcall hx hab hg⟩
  | ret _ hfetch hx ih =>
      obtain ⟨f, gs, heq, hloc⟩ := ih
      cases heq
      exact hloc.ret hfetch hx

/-- The instructions that act within the frame are steps of a history if they leave the operands
above it. -/
theorem History.instr {s₀ : State F W} {fid₀ : Nat} (h₀ : Located lay s₀ [] fid₀ [])
    {fs : List Nat} (h : History host img s₀ fid₀ s cs fs) {i : Instr}
    (hfetch : img.fetch s.pc = some i) (hi : i.inFrame (s.arity img) = true)
    (hx : (exec host img s i).goesTo s') (hroom : s.base + s.arity img + 4 ≤ s'.sp) :
    History host img s₀ fid₀ s' cs fs := by
  obtain ⟨f, gs, -, hloc⟩ := h.located h₀
  have hleaves : i.leaves = false := by
    cases i with
    | call | tcall | ret => cases hi
    | _ => rfl
  refine .work h hfetch ?_ (Works.of_exec hloc.framed hi hx hroom)
  exact hx.imp_right fun ht => ⟨ht, hleaves⟩

/-- What is published at a crash: the instruction that crashed, its frame, and the stack below. -/
theorem exec_died {i : Instr} {p : State F W} {r : Reason}
    (h : exec host img s i = .halt (.died r) p) :
    p.pc = s.pc ∧ p.base = s.base ∧ ∀ j < s.sp, p.slots j = s.slots j := by
  cases i with
  | call n => exact callCommon_died (fun _ _ _ _ _ hk => by cases hk) h
  | tcall n => exact callCommon_died (fun _ _ _ _ _ hk => by cases hk) h
  | load | store | push | pairP | symP | global | constI | loadP | globP | reserve | jif | jump =>
      cases h
  | const | constP | cons | makeClosure => exact absurd h ofOption_ne_died
  | arith | cmp | arithI | jifCmp | jifEqI =>
      obtain ⟨l, hx⟩ := binary_died h
      cases hx
  | div | mod =>
      obtain ⟨l, hx⟩ := binary_died h
      unfold Effect.ofExcept at hx
      split at hx
      · cases hx
      · cases hx
        exact ⟨rfl, rfl, fun _ _ => rfl⟩
  | ret k =>
      rw [exec] at h
      split at h <;> cases h
  | loadF k =>
      simp only [exec] at h
      split at h
      · split at h
        · exact absurd h ofOption_ne_died
        · cases h
      · cases h
  | car | cdr =>
      simp only [exec] at h
      split at h
      · split at h <;> cases h
      · cases h
        exact ⟨rfl, rfl, fun _ _ => rfl⟩
  | builtin id n =>
      simp only [exec] at h
      split at h
      · cases h
      · cases h
        exact ⟨rfl, rfl, fun _ _ => rfl⟩

end Steps

/-! ### The report -/

theorem located_frameInit (lay : Layout img) {m : Memory F W} {fid entry : Nat} {f : Val F}
    (acc : Val F) (hfid : img.fnEntry[fid]? = some entry)
    (hf : f = .nil ∨ fidOf m.heap f = some fid) :
    Located lay (frameInit img m fid f acc) [] fid [] := by
  have hpc : (img.fnEntry[fid]?).getD 0 = entry := by rw [hfid, Option.getD_some]
  refine ⟨framed_frameInit acc hf, ⟨?_, ?_, fun hb => absurd rfl hb⟩, .nil⟩
  · change lay.instr fid ((img.fnEntry[fid]?).getD 0)
    rw [hpc]
    exact lay.starts hfid
  · change img.fnEntry[fid]? = some ((img.fnEntry[fid]?).getD 0)
    rw [hpc, hfid]

variable [Double F] [DecidableEq F]

/-- **The stack walker.**  In every execution of an actor of a laid out image, from its first frame
on, the walk of a state that is published as it is (a yield, and a primitive or C function that
waits) gives the first 64 of the functions that are active, the innermost first, and so does the
walk of what an instruction publishes that crashes, with its operands above the frame. -/
theorem walk_stack_active (host : Host F W) (img : Image F) (lay : Layout img)
    (m : Memory F W) (fid entry : Nat) (hfid : img.fnEntry[fid]? = some entry) (f acc : Val F)
    (hf : f = .nil ∨ fidOf m.heap f = some fid) (s : State F W) (cs : List (Caller F))
    (fs : List Nat) (h : History host img (frameInit img m fid f acc) fid s cs fs) :
    walkStack img s 64 = fs.take 64 ∧
    ∀ (i : Instr) (r : Reason) (p : State F W), exec host img s i = .halt (.died r) p →
      s.base + s.arity img + 4 ≤ p.sp → walkStack img p 64 = fs.take 64 := by
  obtain ⟨g, gs, rfl, hloc⟩ := h.located (located_frameInit lay acc hfid hf)
  refine ⟨hloc.walk rfl rfl hloc.framed.room (fun _ _ => rfl) 64, ?_⟩
  intro i r p hx hsp
  obtain ⟨hpc, hbase, hslots⟩ := exec_died hx
  have hroom := hloc.framed.room
  exact hloc.walk hpc hbase hsp (fun j hj => hslots j (by omega)) 64

/-! ### A crash behind a tail call -/

/-- The entry calls the first function, which leaves its frame to the second, of two arguments;
that one takes the `car` of an integer. -/
def crashing : Image Int where
  words := [26, 1, 4, 37, 5, 22, 2, 24, 0, 0, 26, 2, 4, 29, 1, 37, 8, 23, 3, 24, 1, 0, 37, 7, 18, 24, 2]
  consts := []
  fnEntry := [0, 10, 22]
  fnArgs := [0, 1, 2]

/-- The places of the instructions of a function. -/
def crashingPlaces : Nat → List Nat
  | 0 => [0, 2, 3, 5, 7]
  | 1 => [10, 12, 13, 15, 17, 19]
  | 2 => [22, 24, 25]
  | _ => []

theorem crashing_entry {fid entry : Nat} (h : crashing.fnEntry[fid]? = some entry) :
    (fid, entry) ∈ [(0, 0), (1, 10), (2, 22)] := by
  rcases fid with _ | _ | _ | fid
  · obtain rfl := Option.some.inj h
    decide
  · obtain rfl := Option.some.inj h
    decide
  · obtain rfl := Option.some.inj h
    decide
  · cases h

theorem crashing_stays : ∀ f ∈ [(0, 0), (1, 10), (2, 22)], ∀ pc ∈ crashingPlaces f.1,
    ∀ i ∈ (crashing.fetch pc).toList, ∀ next ∈ i.successors pc f.2, next ∈ crashingPlaces f.1 := by
  decide +kernel

theorem crashing_returns : ∀ fid ∈ [0, 1, 2], ∀ pc ∈ crashingPlaces fid,
    crashing.fetch pc = some (.ret fid) ∨ ∀ i ∈ (crashing.fetch pc).toList, i.successors pc 0 ≠ [] := by
  decide +kernel

theorem mem_crashingPlaces {fid pc : Nat} (h : pc ∈ crashingPlaces fid) : fid ∈ [0, 1, 2] := by
  rcases fid with _ | _ | _ | fid
  · decide
  · decide
  · decide
  · cases h

def crashingLayout : Layout crashing where
  instr fid pc := pc ∈ crashingPlaces fid
  ascending := by decide
  within {fid pc} h := by
    have hwithin : ∀ f ∈ [(0, 0, 10), (1, 10, 22), (2, 22, 27)], ∀ pc ∈ crashingPlaces f.1,
        f.2.1 ≤ pc ∧ pc < f.2.2 := by decide
    rcases fid with _ | _ | _ | fid
    · obtain ⟨hle, hlt⟩ := hwithin (0, 0, 10) (by decide) pc h
      exact ⟨0, rfl, hle, fun next hnext => Option.some.inj hnext ▸ hlt⟩
    · obtain ⟨hle, hlt⟩ := hwithin (1, 10, 22) (by decide) pc h
      exact ⟨10, rfl, hle, fun next hnext => Option.some.inj hnext ▸ hlt⟩
    · exact ⟨22, rfl, (hwithin (2, 22, 27) (by decide) pc h).1, fun next hnext => by cases hnext⟩
    · cases h
  starts {fid entry} h := by
    have hstarts : ∀ f ∈ [(0, 0), (1, 10), (2, 22)], f.2 ∈ crashingPlaces f.1 := by decide
    exact hstarts _ (crashing_entry h)
  stays hentry h hi := crashing_stays _ (crashing_entry hentry) _ h _ (by rw [hi]; simp)
  returns {fid pc k} h hk := by
    have hargs : ∀ fid ∈ [0, 1, 2], crashing.fnArgs[fid]? = some fid := by decide
    have hmem := mem_crashingPlaces h
    rcases crashing_returns fid hmem pc h with hret | hnot
    · rw [hk] at hret
      cases hret
      exact hargs _ hmem
    · exact absurd rfl (hnot (.ret k) (by rw [hk]; simp))

/-- The state after a number of instructions. -/
def crashingAfter : Nat → State Int Unit
  | 0 => frameInit crashing ⟨fun _ => .nil, [], ()⟩ 0 .nil .nil
  | n + 1 =>
      match step idleHost crashing (crashingAfter n) with
      | .next s | .tick s | .halt _ s => s

theorem walk_stack_active_tailCall : walkStack crashing (crashingAfter 11) 64 = [2, 0] := by
  have h₀ : Located crashingLayout (crashingAfter 0) [] 0 [] :=
    located_frameInit crashingLayout .nil rfl (.inl rfl)
  have hentry : History idleHost crashing (crashingAfter 0) 0 (crashingAfter 3) [] [0] :=
    ((History.start.instr h₀ (i := .global 1) rfl rfl (.inl rfl) (by decide)).instr h₀
      (i := .push) rfl rfl (.inl rfl) (by decide)).instr h₀ (i := .constI 5) rfl rfl (.inl rfl)
      (by decide)
  have hcall : History idleHost crashing (crashingAfter 0) 0 (crashingAfter 4)
      [(crashingAfter 3).caller 2] [1, 0] :=
    hentry.call rfl rfl (show _ ≤ _ by decide) (by refine ⟨?_, ?_, ?_⟩ <;> decide) rfl
  have hfirst : History idleHost crashing (crashingAfter 0) 0 (crashingAfter 8)
      [(crashingAfter 3).caller 2] [1, 0] :=
    (((hcall.instr h₀ (i := .global 2) rfl rfl (.inl rfl) (by decide)).instr h₀
      (i := .push) rfl rfl (.inl rfl) (by decide)).instr h₀ (i := .loadP 1) rfl rfl (.inl rfl)
      (by decide)).instr h₀ (i := .constI 8) rfl rfl (.inl rfl) (by decide)
  have htcall : History idleHost crashing (crashingAfter 0) 0 (crashingAfter 9)
      [(crashingAfter 3).caller 2] [2, 0] :=
    hfirst.tcall rfl rfl (show _ ≤ _ by decide) rfl
  have hsecond : History idleHost crashing (crashingAfter 0) 0 (crashingAfter 10)
      [(crashingAfter 3).caller 2] [2, 0] :=
    htcall.instr h₀ (i := .constI 7) rfl rfl (.inl rfl) (by decide)
  exact (walk_stack_active idleHost crashing crashingLayout _ 0 0 rfl .nil .nil (.inl rfl) _ _ _
    hsecond).2 .car .cartype (crashingAfter 11) rfl (by decide)

end TinyActor.Vm
