/-
What linking does to an image.

The linker finds the instructions of a function again from its own table of lengths.
The walk is followed along the lines of the function.  It is in step with them up to
the return, which it takes for one word: the number of parameters behind it is read as
one more opcode.  For most numbers that is an opcode the walk merely steps over, on
its way past the end of the function.  For some there is no such opcode, and for two the
word behind the function is linked, which goes unnoticed only if it becomes what it was.
-/
import TinyActor.Proofs.Load
import TinyActor.Proofs.Shape

namespace TinyActor.Bootstrap

open TinyActor.Lib (Seg writeAll writeAll_append getElem?_writeAll_of_ne getElem?_writeAll_of_mem)
open TinyActor.Vm (Symbol Val Double Loaded FnHeader LoadError wordAt optlen symConst linkOperand
  linkCode linkFns fnOfSym linkUnit load opGlobal opGlobP)

/-! ### Lines the linker understands -/

/-- The table has the length of the line, and the line refers to a symbol of the pool if and
only if its opcode is one of the two the linker looks at. -/
structure Linkable (pool : List Const) (l : Line) : Prop where
  op : ∃ k : Nat, l.op = k ∧ optlen[k]? = some (l.args.length + 1)
  plain : l.name = none → l.op ≠ opGlobal ∧ l.op ≠ opGlobP
  global : ∀ x, l.name = some x → (l.op = opGlobal ∨ l.op = opGlobP) ∧
    ∃ i : Nat, l.args = [(i : Int)] ∧ poolIdx (.sym x) pool = some i

variable {pool : List Const}

theorem Linkable.of_plain {op : Int} {args : List Int} (k : Nat) (hop : op = k)
    (hlen : optlen[k]? = some (args.length + 1)) (hk : k ≠ 26 ∧ k ≠ 31) :
    Linkable pool ⟨op, args, none⟩ := by
  refine ⟨⟨k, hop, hlen⟩, fun _ => ⟨?_, ?_⟩, nofun⟩
  · intro h
    have h' : op = 26 := h
    omega
  · intro h
    have h' : op = 31 := h
    omega

theorem Linkable.of_global {op : Int} {start : List Const} (x : Symbol)
    (hop : op = opGlobal ∨ op = opGlobP) (hp : (poolAdd (.sym x) start).2 <+: pool) :
    Linkable pool ⟨op, [((poolAdd (.sym x) start).1 : Int)], some x⟩ := by
  refine ⟨?_, nofun, ?_⟩
  · rcases hop with h | h
    · exact ⟨26, h, rfl⟩
    · exact ⟨31, h, rfl⟩
  · intro y hy
    cases hy
    exact ⟨hop, _, rfl, poolIdx_mono (poolIdx_poolAdd_sym x start) hp⟩

theorem Linkable.of_op (op : Op) : Linkable pool ⟨op.code, [], none⟩ := by
  cases op with
  | arith op => cases op <;> exact .of_plain _ rfl rfl (by decide)
  | cmp op => cases op <;> exact .of_plain _ rfl rfl (by decide)
  | _ => exact .of_plain _ rfl rfl (by decide)

theorem Linkable.branch {cond yes no : List Line} {test : Nat → Nat → Line} {y n stop : Nat}
    (hc : ∀ l ∈ cond, Linkable pool l) (ht : Linkable pool (test y n))
    (hy : ∀ l ∈ yes, Linkable pool l) (hn : ∀ l ∈ no, Linkable pool l) :
    ∀ l ∈ Bootstrap.branch cond test yes no y n stop, Linkable pool l := by
  have hjump : Linkable pool ⟨opJump, [(stop : Int)], none⟩ := .of_plain 21 rfl rfl (by decide)
  unfold Bootstrap.branch
  simp only [List.forall_mem_append, List.forall_mem_cons]
  exact ⟨hc, ht, hy, hjump, hn⟩

mutual

theorem asmIns_linkable : ∀ {i : Ins} {pos : Nat} {start : List Const}, properIns i = true →
    (asmIns i pos start).2 <+: pool → ∀ l ∈ (asmIns i pos start).1, Linkable pool l
  | .ifE cond yes no, pos, start, h, hp => by
      rw [properIns, Bool.and_eq_true_iff, Bool.and_eq_true_iff] at h
      have hno := asm_extends no (pos + size cond + 2 + size yes + 2)
        (asm yes (pos + size cond + 2) (asm cond pos start).2).2
      have hyes := asm_extends yes (pos + size cond + 2) (asm cond pos start).2
      simp only [asmIns]
      refine Linkable.branch (asm_linkable h.1 (hyes.trans (hno.trans hp))) ?_
        (asm_linkable h.2.1 (hno.trans hp)) (asm_linkable h.2.2 hp)
      exact .of_plain 20 rfl rfl (by decide)
  | .ifP op cond yes no, pos, start, h, hp => by
      rw [properIns, Bool.and_eq_true_iff, Bool.and_eq_true_iff] at h
      have hno := asm_extends no (pos + size cond + 3 + size yes + 2)
        (asm yes (pos + size cond + 3) (asm cond pos start).2).2
      have hyes := asm_extends yes (pos + size cond + 3) (asm cond pos start).2
      simp only [asmIns]
      refine Linkable.branch (asm_linkable h.1 (hyes.trans (hno.trans hp))) ?_
        (asm_linkable h.2.1 (hno.trans hp)) (asm_linkable h.2.2 hp)
      cases op <;> exact .of_plain _ rfl rfl (by decide)
  | .ifI imm cond yes no, pos, start, h, hp => by
      rw [properIns, Bool.and_eq_true_iff, Bool.and_eq_true_iff] at h
      have hno := asm_extends no (pos + size cond + 4 + size yes + 2)
        (asm yes (pos + size cond + 4) (asm cond pos start).2).2
      have hyes := asm_extends yes (pos + size cond + 4) (asm cond pos start).2
      simp only [asmIns]
      refine Linkable.branch (asm_linkable h.1 (hyes.trans (hno.trans hp))) ?_
        (asm_linkable h.2.1 (hno.trans hp)) (asm_linkable h.2.2 hp)
      exact .of_plain 40 rfl rfl (by decide)
  | .glob x, _, _, _, hp => List.forall_mem_singleton.mpr (.of_global x (.inl rfl) hp)
  | .globP x, _, _, _, hp => List.forall_mem_singleton.mpr (.of_global x (.inr rfl) hp)
  | .op op, _, _, _, _ => List.forall_mem_singleton.mpr (.of_op op)
  | .opI op imm, _, _, h, _ => by
      cases op with
      | add => exact List.forall_mem_singleton.mpr (.of_plain 38 rfl rfl (by decide))
      | sub => exact List.forall_mem_singleton.mpr (.of_plain 39 rfl rfl (by decide))
      | mul => cases h
  | .const _, _, _, _, _ => List.forall_mem_singleton.mpr (.of_plain 0 rfl rfl (by decide))
  | .constP _, _, _, _, _ => List.forall_mem_singleton.mpr (.of_plain 30 rfl rfl (by decide))
  | .constI _, _, _, _, _ => List.forall_mem_singleton.mpr (.of_plain 37 rfl rfl (by decide))
  | .load _, _, _, _, _ => List.forall_mem_singleton.mpr (.of_plain 1 rfl rfl (by decide))
  | .loadP _, _, _, _, _ => List.forall_mem_singleton.mpr (.of_plain 29 rfl rfl (by decide))
  | .loadF _, _, _, _, _ => List.forall_mem_singleton.mpr (.of_plain 3 rfl rfl (by decide))
  | .store _, _, _, _, _ => List.forall_mem_singleton.mpr (.of_plain 2 rfl rfl (by decide))
  | .push, _, _, _, _ => List.forall_mem_singleton.mpr (.of_plain 4 rfl rfl (by decide))
  | .call _, _, _, _, _ => List.forall_mem_singleton.mpr (.of_plain 22 rfl rfl (by decide))
  | .tcall _, _, _, _, _ => List.forall_mem_singleton.mpr (.of_plain 23 rfl rfl (by decide))
  | .builtin _ _, _, _, _, _ => List.forall_mem_singleton.mpr (.of_plain 28 rfl rfl (by decide))
  | .clos _ _, _, _, _, _ => List.forall_mem_singleton.mpr (.of_plain 25 rfl rfl (by decide))
  | .reserve _, _, _, _, _ => List.forall_mem_singleton.mpr (.of_plain 27 rfl rfl (by decide))

theorem asm_linkable : ∀ {code : List Ins} {pos : Nat} {start : List Const}, proper code = true →
    (asm code pos start).2 <+: pool → ∀ l ∈ (asm code pos start).1, Linkable pool l
  | [], _, _, _, _ => nofun
  | i :: rest, pos, start, h, hp => by
      rw [proper, Bool.and_eq_true_iff] at h
      have hrest := asm_extends rest (pos + sizeIns i) (asmIns i pos start).2
      exact List.forall_mem_append.mpr
        ⟨asmIns_linkable h.1 (hrest.trans hp), asm_linkable h.2 hp⟩

end

/-- The lines of a function: ones the linker understands, and the return. -/
theorem Laid.linkable {r : FnRec} {ls : List Line} (h : Laid pool r ls)
    (hs : Shaped r.nargs r.code) :
    ∃ body, ls = body ++ [⟨opRet, [(r.nargs : Int)], none⟩] ∧ ∀ l ∈ body, Linkable pool l := by
  obtain ⟨start, hls, hp⟩ := h.lines
  obtain ⟨n, body, hcode, hproper⟩ := hs.fuse
  rw [hcode, ← List.cons_append, asm_append] at hls hp
  exact ⟨_, hls, asm_linkable hproper hp⟩

/-! ### The operands to fill in -/

/-- Where the operands of the `GLOBAL` and `GLOBP` lines stand, with the names they are to be
replaced for; the first line is at `p`. -/
def operands : List Line → Nat → List (Nat × Symbol)
  | [], _ => []
  | l :: ls, p =>
      (l.name.map fun x => (p + 1, x)).toList ++ operands ls (p + (l.args.length + 1))

theorem operands_append (a b : List Line) : ∀ p,
    operands (a ++ b) p = operands a p ++ operands b (p + (lineWords a).length) := by
  induction a with
  | nil => exact fun _ => rfl
  | cons l a ih =>
      intro p
      rw [List.cons_append, operands, operands, ih, List.append_assoc, lineWords_cons,
        List.length_cons, List.length_append]
      congr 3
      omega

/-- The operands are inside the code, in rising order. -/
theorem operands_bounds (ls : List Line) (hl : ∀ l ∈ ls, ∀ x, l.name = some x → l.args ≠ []) :
    ∀ p, (∀ r ∈ operands ls p, p < r.1 ∧ r.1 < p + (lineWords ls).length) ∧
      (operands ls p).Pairwise fun a b => a.1 < b.1 := by
  induction ls with
  | nil => exact fun _ => ⟨nofun, .nil⟩
  | cons l ls ih =>
      intro p
      obtain ⟨hone, hls⟩ := List.forall_mem_cons.mp hl
      obtain ⟨hb, hs⟩ := ih hls (p + (l.args.length + 1))
      have hlen : (lineWords (l :: ls)).length = l.args.length + 1 + (lineWords ls).length := by
        rw [lineWords_cons, List.length_cons, List.length_append]
        omega
      rw [operands]
      cases hname : l.name with
      | none => exact ⟨fun r hr => by have := hb r hr; omega, hs⟩
      | some x =>
          have hpos := List.length_pos_iff.mpr (hone x hname)
          refine ⟨List.forall_mem_cons.mpr ⟨by dsimp only; omega, fun r hr => ?_⟩,
            List.pairwise_cons.mpr ⟨fun r hr => ?_, hs⟩⟩
          · have := hb r hr
            omega
          · have := hb r hr
            dsimp only
            omega

theorem Linkable.args_ne_nil {l : Line} (h : Linkable pool l) (x : Symbol) (hx : l.name = some x) :
    l.args ≠ [] := by
  obtain ⟨-, i, hargs, -⟩ := h.global x hx
  rw [hargs]
  exact List.cons_ne_nil _ _

/-! ### The walk over the code -/

variable {x : Symbol}

section Walk

variable {F : Type} {resolve : Symbol → Option Nat} {table : List Int} {consts : List (Val F)}
  {words : List Int} {stop n p : Nat}

theorem toInt_ofInt_small {k : Nat} (h : k < 41) : (BitVec.ofInt 32 (k : Int)).toInt = k := by
  rw [BitVec.toInt_ofInt]
  exact Int.bmod_eq_of_le (by omega) (by omega)

theorem lt_of_optlen {k len : Nat} (h : optlen[k]? = some len) : k < 41 :=
  (List.getElem?_eq_some_iff.mp h).1

theorem wordAt_natCast {w : Int} (h : words[p]? = some w) : wordAt words p = .ok w := by
  change wordAt words (Int.ofNat p) = .ok w
  rw [wordAt, h]

theorem bind_eq_ok {α β : Type} {r : Except LoadError α} {f : α → Except LoadError β} {b : β} :
    r.bind f = .ok b ↔ ∃ a, r = .ok a ∧ f a = .ok b := by
  cases r with
  | error e => exact ⟨nofun, fun ⟨_, h, _⟩ => by cases h⟩
  | ok a => exact ⟨fun h => ⟨a, rfl, h⟩, fun ⟨_, ha, h⟩ => Except.ok.inj ha ▸ h⟩

theorem linkCode_done (h : stop ≤ p) : linkCode resolve table consts stop n p words = .ok words := by
  cases n with
  | zero => rfl
  | succ n => rw [linkCode, if_neg (Nat.not_lt.mpr h)]

/-- One turn of the walk: an instruction that is no `GLOBAL` is stepped over. -/
theorem linkCode_plain {k len : Nat} {w : Int} (hp : p < stop) (hw : words[p]? = some w)
    (hk : (BitVec.ofInt 32 w).toInt = k) (hlen : optlen[k]? = some len)
    (hplain : (k : Int) ≠ opGlobal ∧ (k : Int) ≠ opGlobP) :
    linkCode resolve table consts stop (n + 1) p words =
      linkCode resolve table consts stop n (p + len) words := by
  rw [linkCode, if_pos hp]
  simp only [bind, Except.bind, wordAt_natCast hw, hk, Int.toNat_natCast, hlen,
    if_neg (not_or.mpr hplain), if_neg (Int.not_lt.mpr (Int.natCast_nonneg k))]

/-- And the operand of a `GLOBAL` is filled in. -/
theorem linkCode_global {w o v : Int} {sid : Nat} (hp : p < stop) (hw : words[p]? = some w)
    (hop : w = opGlobal ∨ w = opGlobP) (ho : words[p + 1]? = some o)
    (hsym : symConst consts o = some (sid, x)) (hv : linkOperand resolve table sid x = .ok v) :
    linkCode resolve table consts stop (n + 1) p words =
      linkCode resolve table consts stop n (p + 2) (words.set (p + 1) v) := by
  have hk : ∃ k : Nat, w = k ∧ optlen[k]? = some 2 := by
    rcases hop with h | h
    · exact ⟨26, h, rfl⟩
    · exact ⟨31, h, rfl⟩
  obtain ⟨k, hk, hlen⟩ := hk
  rw [hk] at hw hop
  have ho' : wordAt words ((p : Int) + 1) = .ok o := wordAt_natCast (p := p + 1) ho
  rw [linkCode, if_pos hp]
  simp only [bind, Except.bind, wordAt_natCast hw, toInt_ofInt_small (lt_of_optlen hlen),
    Int.toNat_natCast, hlen, if_pos hop, if_neg (Int.not_lt.mpr (Int.natCast_nonneg k)), ho', hsym, hv]

end Walk

/-- The operands with the words that go there. -/
def filled (val : Symbol → Int) (ls : List Line) (p : Nat) : List (Nat × Int) :=
  (operands ls p).map fun r => (r.1, val r.2)

variable {F : Type} [Double F] {resolve : Symbol → Option Nat} {table : List Int}
  {val : Symbol → Int}

theorem symConst_of_poolIdx {i : Nat} (h : poolIdx (.sym x) pool = some i) :
    symConst (pool.map (constVal (F := F))) (i : Int) = some (i, x) := by
  change symConst (pool.map (constVal (F := F))) (Int.ofNat i) = some (i, x)
  rw [symConst, List.getElem?_map, poolIdx_sym h]
  rfl

/-- The table and the host give a word for a name. -/
def Resolves (resolve : Symbol → Option Nat) (table : List Int) (pool : List Const) (x : Symbol)
    (v : Int) : Prop :=
  ∀ i, poolIdx (.sym x) pool = some i → linkOperand resolve table i x = .ok v

/-- The walk is in step with lines it understands, and fills in their operands. -/
theorem linkCode_lines {stop : Nat} (ls : List Line) : ∀ {p n : Nat} {words : List Int},
    (∀ l ∈ ls, Linkable pool l) →
    (∀ l ∈ ls, ∀ x, l.name = some x → Resolves resolve table pool x (val x)) →
    Seg words p (lineWords ls) → p + (lineWords ls).length ≤ stop → stop - p ≤ n →
      ∃ n', stop - (p + (lineWords ls).length) ≤ n' ∧
        linkCode resolve table (pool.map (constVal (F := F))) stop n p words =
          linkCode resolve table (pool.map (constVal (F := F))) stop n'
            (p + (lineWords ls).length) (writeAll (filled val ls p) words) := by
  induction ls with
  | nil => exact fun _ _ _ _ hn => ⟨_, hn, rfl⟩
  | cons l ls ih =>
      intro p n words hl hv hseg hstop hn
      obtain ⟨hone, hls⟩ := List.forall_mem_cons.mp hl
      obtain ⟨hvone, hvls⟩ := List.forall_mem_cons.mp hv
      obtain ⟨k, hk, hlen⟩ := hone.op
      have hlength : (lineWords (l :: ls)).length = l.args.length + 1 + (lineWords ls).length := by
        rw [lineWords_cons, List.length_cons, List.length_append]
        omega
      have hrest : Seg words (p + (l.args.length + 1)) (lineWords ls) :=
        Seg.right (a := l.op :: l.args) hseg
      have hw : words[p]? = some l.op := hseg.head
      rw [hlength] at hstop ⊢
      cases n with
      | zero => omega
      | succ n =>
          cases hname : l.name with
          | none =>
              obtain ⟨n', hn', heq⟩ := ih (n := n) hls hvls hrest (by omega) (by omega)
              refine ⟨n', by omega, ?_⟩
              rw [linkCode_plain (by omega) hw (hk ▸ toInt_ofInt_small (lt_of_optlen hlen)) hlen
                (hk ▸ hone.plain hname), heq]
              simp only [filled, operands, hname, Option.map_none, Option.toList_none,
                List.nil_append, Nat.add_assoc]
          | some x =>
              obtain ⟨hop, i, hargs, hi⟩ := hone.global x hname
              have ho : words[p + 1]? = some (i : Int) := hseg.get (j := 1) (by
                rw [lineWords_cons, hargs]
                rfl)
              have htwo : l.args.length + 1 = 2 := by rw [hargs]; rfl
              rw [htwo] at hrest hstop ⊢
              obtain ⟨n', hn', heq⟩ := ih (n := n) hls hvls
                (hrest.set (Nat.lt_succ_self (p + 1)) (val x)) (by omega) (by omega)
              refine ⟨n', by omega, ?_⟩
              rw [linkCode_global (by omega) hw hop ho (symConst_of_poolIdx hi)
                (hvone x hname i hi), heq]
              simp only [filled, operands, hname, Option.map_some, Option.toList_some, htwo,
                List.cons_append, List.nil_append, List.map_cons, Nat.add_assoc]
              rfl

/-! ### The number of parameters -/

/-- The opcode that a number of parameters is taken for. -/
def strayOp (nargs : Nat) : Int := (BitVec.ofInt 32 (nargs : Int)).toInt

/-- A number of parameters that the walk, taking it for an opcode, steps over. -/
def HarmlessArity (nargs : Nat) : Prop :=
  0 ≤ strayOp nargs ∧ strayOp nargs ≤ 40 ∧ strayOp nargs ≠ 26 ∧ strayOp nargs ≠ 31

/-- What the walk makes of the number of parameters at the end of a function: nothing, or it
links the word behind it. -/
def Strays (resolve : Symbol → Option Nat) (table : List Int) (consts : List (Val F)) (nargs q : Nat)
    (words words' : List Int) : Prop :=
  HarmlessArity nargs ∧ words' = words ∨ (strayOp nargs = opGlobal ∨ strayOp nargs = opGlobP) ∧
    ∃ o sid x w, words[q + 1]? = some o ∧ symConst consts o = some (sid, x) ∧
      linkOperand resolve table sid x = .ok w ∧ words' = words.set (q + 1) w

omit [Double F] in
/-- The word behind the function is linked. -/
theorem linkCode_strayGlobal {consts : List (Val F)} {w : Int} {q n : Nat} {words words' : List Int}
    (hw : words[q]? = some w)
    (hop : (BitVec.ofInt 32 w).toInt = opGlobal ∨ (BitVec.ofInt 32 w).toInt = opGlobP) :
    linkCode resolve table consts (q + 1) (n + 1) q words = .ok words' ↔
      ∃ o sid x v, words[q + 1]? = some o ∧ symConst consts o = some (sid, x) ∧
        linkOperand resolve table sid x = .ok v ∧ words' = words.set (q + 1) v := by
  have hlen : optlen[((BitVec.ofInt 32 w).toInt).toNat]? = some 2 := by
    rcases hop with h | h <;> rw [h] <;> rfl
  have hneg : ¬ (BitVec.ofInt 32 w).toInt < 0 := by
    rcases hop with h | h <;> rw [h] <;> decide
  rw [linkCode, if_pos (Nat.lt_succ_self q)]
  simp only [bind, Except.bind, wordAt_natCast hw, hlen, if_neg hneg, if_pos hop]
  cases ho : words[q + 1]? with
  | none =>
      have hread : wordAt words ((q : Int) + 1) = .error .overrun := by
        change wordAt words (Int.ofNat (q + 1)) = _
        rw [wordAt, ho]
      simp [hread]
  | some o =>
      have hread : wordAt words ((q : Int) + 1) = .ok o := wordAt_natCast (p := q + 1) ho
      cases hsym : symConst consts o with
      | none => simp [hread, hsym]
      | some sx =>
          cases hlink : linkOperand resolve table sx.1 sx.2 with
          | error e => simp [hread, hsym, hlink, Prod.ext_iff]
          | ok v =>
              simp [hread, hsym, hlink, Prod.ext_iff, linkCode_done, eq_comm]

omit [Double F] in
theorem linkCode_stray {consts : List (Val F)} {nargs q n : Nat} {words words' : List Int}
    (hw : words[q]? = some (nargs : Int)) :
    linkCode resolve table consts (q + 1) (n + 1) q words = .ok words' ↔
      Strays resolve table consts nargs q words words' := by
  by_cases hop : strayOp nargs = opGlobal ∨ strayOp nargs = opGlobP
  · have hnot : ¬ HarmlessArity nargs := fun h => hop.elim h.2.2.1 h.2.2.2
    rw [linkCode_strayGlobal hw hop, Strays]
    simp only [hnot, false_and, false_or, hop, true_and]
  · have hne : strayOp nargs ≠ 26 ∧ strayOp nargs ≠ 31 := not_or.mp hop
    by_cases hin : 0 ≤ strayOp nargs ∧ strayOp nargs ≤ 40
    · obtain ⟨k, hk⟩ := Int.eq_ofNat_of_zero_le hin.1
      have hlt : k < optlen.length := show k < 41 by omega
      have hlen : optlen[k]? = some optlen[k] := List.getElem?_eq_getElem hlt
      have hpos : 0 < optlen[k] := by
        have hall : ∀ len ∈ optlen, 0 < len := by decide
        exact hall _ (List.getElem_mem hlt)
      rw [linkCode_plain (Nat.lt_succ_self q) hw hk hlen (hk ▸ hne), linkCode_done (by omega)]
      refine ⟨fun h => .inl ⟨⟨hin.1, hin.2, hne⟩, (Except.ok.inj h).symm⟩, ?_⟩
      rintro (⟨-, rfl⟩ | ⟨h, -⟩)
      · rfl
      · exact absurd h hop
    · have hstop : linkCode resolve table consts (q + 1) (n + 1) q words = .error .badOpcode := by
        rw [linkCode, if_pos (Nat.lt_succ_self q)]
        simp only [bind, Except.bind, wordAt_natCast hw]
        by_cases hneg : strayOp nargs < 0
        · exact if_pos hneg
        · have hnone : optlen[(strayOp nargs).toNat]? = none :=
            List.getElem?_eq_none_iff.mpr (show 41 ≤ (strayOp nargs).toNat by omega)
          refine (if_neg hneg).trans ?_
          rw [show (BitVec.ofInt 32 (nargs : Int)).toInt = strayOp nargs from rfl, hnone]
      rw [hstop]
      refine ⟨nofun, ?_⟩
      rintro (⟨h, -⟩ | ⟨h, -⟩)
      · exact absurd ⟨h.1, h.2.1⟩ hin
      · exact absurd h hop

/-- Over a whole function: the return is one word too short in the table, and what follows it
is the last turn of the walk. -/
theorem linkCode_function {body : List Line} {nargs p : Nat} {words words' : List Int}
    (hb : ∀ l ∈ body, Linkable pool l)
    (hv : ∀ l ∈ body, ∀ x, l.name = some x → Resolves resolve table pool x (val x))
    (hseg : Seg words p (lineWords (body ++ [⟨opRet, [(nargs : Int)], none⟩]))) :
    linkCode resolve table (pool.map (constVal (F := F)))
        (p + (lineWords (body ++ [⟨opRet, [(nargs : Int)], none⟩])).length)
        (lineWords (body ++ [⟨opRet, [(nargs : Int)], none⟩])).length p words = .ok words' ↔
      Strays resolve table (pool.map (constVal (F := F))) nargs
        (p + (lineWords body).length + 1)
        (writeAll (filled val (body ++ [⟨opRet, [(nargs : Int)], none⟩]) p) words) words' := by
  have hbounds := (operands_bounds body (fun l hl x hx => (hb l hl).args_ne_nil x hx) p).1
  have hwords : lineWords (body ++ [⟨opRet, [(nargs : Int)], none⟩]) =
      lineWords body ++ [opRet, (nargs : Int)] := by simp
  have hfilled : filled val (body ++ [⟨opRet, [(nargs : Int)], none⟩]) p = filled val body p := by
    simp [filled, operands_append, operands]
  rw [hwords] at hseg ⊢
  rw [hfilled, List.length_append]
  generalize hstop : p + ((lineWords body).length + [opRet, (nargs : Int)].length) = stop
  have hstop' : stop = p + (lineWords body).length + 1 + 1 := by
    rw [← hstop, ← Nat.add_assoc]
    rfl
  obtain ⟨n, hn, heq⟩ := linkCode_lines (F := F) (n := stop - p) body hb hv hseg.left
    (by omega) (Nat.le_refl _)
  have hret : Seg (writeAll (filled val body p) words) (p + (lineWords body).length)
      [opRet, (nargs : Int)] := by
    refine Seg.writeAll (fun r hr => ?_) hseg.right
    obtain ⟨r', hr', hrr⟩ := List.mem_map.mp hr
    rw [← hrr]
    exact (hbounds r' hr').2
  rw [show (lineWords body).length + [opRet, (nargs : Int)].length = stop - p by omega, heq]
  obtain ⟨n, rfl⟩ : ∃ m, n = m + 2 := ⟨n - 2, by omega⟩
  rw [linkCode_plain (k := 24) (by omega) hret.head rfl rfl (by decide), hstop']
  exact linkCode_stray (hret.get (j := 1) rfl)

/-! ### All functions -/

/-- The operands of a program's functions; the code of the first begins at `entry`. -/
def operandsAll : List (FnRec × List Line) → Nat → List (Nat × Symbol)
  | [], _ => []
  | e :: es, entry => operands e.2 entry ++ operandsAll es (entry + (lineWords e.2).length + 5)

/-- A function the linker gets through. -/
structure Walkable (pool : List Const) (e : FnRec × List Line) : Prop where
  laid : Laid pool e.1 e.2
  shaped : Shaped e.1.nargs e.1.code

theorem Walkable.args_ne_nil {e : FnRec × List Line} (h : Walkable pool e) :
    ∀ l ∈ e.2, ∀ x, l.name = some x → l.args ≠ [] := by
  obtain ⟨body, hbody, hlink⟩ := h.laid.linkable h.shaped
  rw [hbody]
  refine List.forall_mem_append.mpr ⟨fun l hl x hx => (hlink l hl).args_ne_nil x hx, ?_⟩
  exact List.forall_mem_singleton.mpr nofun

/-- The operands stand within the functions, in rising order. -/
theorem operandsAll_bounds (forms : List Form) (es : List (FnRec × List Line)) :
    ∀ (entry : Nat) (e : Int), (∀ e ∈ es, Walkable pool e) →
      (∀ r ∈ operandsAll es entry, entry < r.1 ∧
        r.1 + 5 < entry + (writeFns (es.map fun e => e.1.bytecode e.2) forms e).length) ∧
      (operandsAll es entry).Pairwise fun a b => a.1 < b.1 := by
  induction es with
  | nil => exact fun _ _ _ => ⟨nofun, .nil⟩
  | cons x es ih =>
      intro entry e h
      obtain ⟨hx, hes⟩ := List.forall_mem_cons.mp h
      obtain ⟨hb, hs⟩ := operands_bounds x.2 hx.args_ne_nil entry
      obtain ⟨hb', hs'⟩ := ih (entry + (lineWords x.2).length + 5)
        (e + 5 + (lineWords x.2).length) hes
      have hlen : (writeFns ((x :: es).map fun e => e.1.bytecode e.2) forms e).length =
          5 + (lineWords x.2).length + (writeFns (es.map fun e => e.1.bytecode e.2) forms
            (e + 5 + (lineWords x.2).length)).length := by
        simp only [List.map_cons, writeFns, List.length_cons, List.length_append, FnRec.bytecode]
        omega
      rw [operandsAll, hlen]
      refine ⟨List.forall_mem_append.mpr ⟨fun r hr => ?_, fun r hr => ?_⟩,
        List.pairwise_append.mpr ⟨hs, hs', fun a ha b hb'' => ?_⟩⟩
      · have := hb r hr
        omega
      · have := hb' r hr
        omega
      · have := hb a ha
        have := hb' b hb''
        omega

/-- A number of parameters that does no harm: it is stepped over, or the word behind the
function is linked to itself. -/
def Passes (resolve : Symbol → Option Nat) (table : List Int) (consts : List (Val F)) (nargs : Nat)
    (behind : Option Int) : Prop :=
  HarmlessArity nargs ∨ (strayOp nargs = opGlobal ∨ strayOp nargs = opGlobP) ∧
    ∃ o sid x, behind = some o ∧ symConst consts o = some (sid, x) ∧
      linkOperand resolve table sid x = .ok o

/-- The numbers of parameters of functions, and the places behind their code. -/
def ends : List FnBC → Nat → List (Nat × Nat)
  | [], _ => []
  | f :: rest, entry =>
      (f.nargs, entry + f.words.length) :: ends rest (entry + f.words.length + 5)

theorem ends_ge {fns : List FnBC} {entry : Nat} {r : Nat × Nat} (h : r ∈ ends fns entry) :
    entry ≤ r.2 := by
  induction fns generalizing entry with
  | nil => cases h
  | cons f fns ih =>
      rcases List.mem_cons.mp h with rfl | h
      · exact Nat.le_add_right _ _
      · have := ih h
        omega

omit [Double F] in
/-- The walk writes behind where it stands. -/
theorem linkCode_below {consts : List (Val F)} {stop n p : Nat} {words words' : List Int}
    (h : linkCode resolve table consts stop n p words = .ok words') {i : Nat} (hi : i ≤ p) :
    words'[i]? = words[i]? := by
  induction n generalizing p words with
  | zero => rw [Except.ok.inj h]
  | succ n ih =>
      rw [linkCode] at h
      split at h
      · obtain ⟨w, -, h⟩ := bind_eq_ok.mp h
        dsimp only at h
        split at h
        · cases h
        · split at h
          · cases h
          · split at h
            · obtain ⟨o, -, h⟩ := bind_eq_ok.mp h
              split at h
              · cases h
              · obtain ⟨v, -, h⟩ := bind_eq_ok.mp h
                rw [ih h (by omega), List.getElem?_set_ne (by omega)]
            · exact ih h (by omega)
      · rw [Except.ok.inj h]

omit [Double F] in
theorem linkFns_below {consts : List (Val F)} (forms : List Form) {fns : List FnBC} {entry : Nat}
    {words words' : List Int}
    (h : linkFns resolve table consts (headers forms fns entry) words = .ok words') {i : Nat}
    (hi : i ≤ entry) : words'[i]? = words[i]? := by
  induction fns generalizing entry words with
  | nil => rw [Except.ok.inj h]
  | cons f fns ih =>
      obtain ⟨words₁, hone, hrest⟩ := bind_eq_ok.mp h
      rw [ih hrest (by omega), linkCode_below hone hi]

section Functions

variable (forms : List Form) {x : FnRec × List Line} {es : List (FnRec × List Line)} {p : Nat}
  {e : Int} {words words' : List Int}

/-- Filling in the operands of a function changes nothing behind it. -/
theorem getElem?_filled (hx : Walkable pool x) (val : Symbol → Int) (words : List Int) {i : Nat}
    (hi : p + (lineWords x.2).length ≤ i) :
    (writeAll (filled val x.2 p) words)[i]? = words[i]? := by
  refine getElem?_writeAll_of_ne (fun r hr => ?_) words
  obtain ⟨r', hr', rfl⟩ := List.mem_map.mp hr
  have := (operands_bounds x.2 hx.args_ne_nil p).1 r' hr'
  dsimp only
  omega

/-- The linker on the first of some functions. -/
theorem linkFns_cons (hx : Walkable pool x)
    (hvx : ∀ l ∈ x.2, ∀ y, l.name = some y → Resolves resolve table pool y (val y))
    (hseg : Seg words p (writeFns ((x :: es).map fun e => e.1.bytecode e.2) forms e)) :
    Seg (writeAll (filled val x.2 (p + 5)) words) (p + 5 + (lineWords x.2).length)
      (writeFns (es.map fun e => e.1.bytecode e.2) forms (e + 5 + (lineWords x.2).length)) ∧
    (linkFns resolve table (pool.map (constVal (F := F)))
        (headers forms ((x :: es).map fun e => e.1.bytecode e.2) (p + 5)) words = .ok words' ↔
      ∃ words₁, Strays resolve table (pool.map (constVal (F := F))) x.1.nargs
          (p + 5 + (lineWords x.2).length - 1) (writeAll (filled val x.2 (p + 5)) words) words₁ ∧
        linkFns resolve table (pool.map (constVal (F := F))) (headers forms
          (es.map fun e => e.1.bytecode e.2) (p + 5 + (lineWords x.2).length + 5)) words₁ =
            .ok words') := by
  have hbounds := (operands_bounds x.2 hx.args_ne_nil (p + 5)).1
  obtain ⟨body, hbody, hlink⟩ := hx.laid.linkable hx.shaped
  have hcode : Seg words (p + 5) (lineWords x.2 ++ writeFns
      (es.map fun e => e.1.bytecode e.2) forms (e + 5 + (lineWords x.2).length)) :=
    Seg.right (a := [nameIdx forms x.1.name, e, (x.1.nargs : Int), (x.1.bytecode x.2).maxd,
      ((lineWords x.2).length : Int)]) hseg
  have hfn : ∀ words₁, linkCode resolve table (pool.map (constVal (F := F)))
      (p + 5 + (lineWords x.2).length) (lineWords x.2).length (p + 5) words = .ok words₁ ↔
        Strays resolve table (pool.map (constVal (F := F))) x.1.nargs
          (p + 5 + (lineWords x.2).length - 1) (writeAll (filled val x.2 (p + 5)) words) words₁ := by
    intro words₁
    have hleft := hcode.left
    rw [hbody] at hleft hvx ⊢
    have hlast : p + 5 + (lineWords (body ++ [⟨opRet, [(x.1.nargs : Int)], none⟩])).length - 1 =
        p + 5 + (lineWords body).length + 1 := by
      simp
      omega
    rw [hlast]
    exact linkCode_function hlink (List.forall_mem_append.mp hvx).1 hleft
  refine ⟨Seg.writeAll (fun r hr => ?_) hcode.right, ?_⟩
  · obtain ⟨r', hr', hrr⟩ := List.mem_map.mp hr
    rw [← hrr]
    exact (hbounds r' hr').2
  · have hstop : (((p + 5 : Nat) : Int) + ((lineWords x.2).length : Int)).toNat =
        p + 5 + (lineWords x.2).length := by omega
    simp only [← hfn]
    refine Iff.trans (b := (linkCode resolve table (pool.map (constVal (F := F)))
      (((p + 5 : Nat) : Int) + ((lineWords x.2).length : Int)).toNat
      ((((p + 5 : Nat) : Int) + ((lineWords x.2).length : Int)).toNat - (p + 5)) (p + 5)
      words).bind (linkFns resolve table (pool.map (constVal (F := F))) (headers forms
        (es.map fun e => e.1.bytecode e.2) (p + 5 + (lineWords x.2).length + 5))) = .ok words') Iff.rfl ?_
    rw [hstop, Nat.add_sub_cancel_left]
    exact bind_eq_ok

end Functions

section Loop

variable (forms : List Form)

/-- The second loop of the linker, over all functions, if no number of parameters does harm. -/
theorem linkFns_eq (es : List (FnRec × List Line)) : ∀ {p : Nat} {e : Int} {words : List Int},
    (∀ e ∈ es, Walkable pool e) →
    (∀ e ∈ es, ∀ l ∈ e.2, ∀ x, l.name = some x → Resolves resolve table pool x (val x)) →
    Seg words p (writeFns (es.map fun e => e.1.bytecode e.2) forms e) →
    (∀ r ∈ ends (es.map fun e => e.1.bytecode e.2) (p + 5),
      Passes resolve table (pool.map (constVal (F := F))) r.1 words[r.2]?) →
    linkFns resolve table (pool.map (constVal (F := F)))
        (headers forms (es.map fun e => e.1.bytecode e.2) (p + 5)) words =
      .ok (writeAll ((operandsAll es (p + 5)).map fun r => (r.1, val r.2)) words) := by
  induction es with
  | nil => exact fun _ _ _ _ => rfl
  | cons x es ih =>
      intro p e words h hv hseg hpass
      obtain ⟨hx, hes⟩ := List.forall_mem_cons.mp h
      obtain ⟨hvx, hves⟩ := List.forall_mem_cons.mp hv
      obtain ⟨hpx, hpes⟩ := List.forall_mem_cons.mp hpass
      obtain ⟨hrest, hiff⟩ := linkFns_cons (F := F) forms hx hvx hseg
      have hbehind := getElem?_filled hx val words (Nat.le_refl (p + 5 + (lineWords x.2).length))
      have hlast : p + 5 + (lineWords x.2).length - 1 + 1 = p + 5 + (lineWords x.2).length :=
        Nat.sub_add_cancel (by omega)
      refine hiff.mpr ⟨writeAll (filled val x.2 (p + 5)) words, ?_, ?_⟩
      · rcases hpx with harmless | ⟨hop, o, sid, y, ho, hsym, hlink⟩
        · exact .inl ⟨harmless, rfl⟩
        · have hsame := hbehind.trans ho
          obtain ⟨hlt, rfl⟩ := List.getElem?_eq_some_iff.mp hsame
          refine .inr ⟨hop, _, sid, y, _, ?_, hsym, hlink, ?_⟩
          · rw [hlast]
            exact hsame
          · rw [hlast, List.set_getElem_self hlt]
      · rw [operandsAll, List.map_append, writeAll_append]
        refine ih hes hves hrest fun r hr => ?_
        rw [getElem?_filled hx val words (Nat.le_trans (Nat.le_add_right _ 5) (ends_ge hr))]
        exact hpes r hr

/-- And only then are the words behind the functions as they were. -/
theorem linkFns_passes (es : List (FnRec × List Line)) : ∀ {p : Nat} {e : Int}
    {words : List Int} (words' : List Int), (∀ e ∈ es, Walkable pool e) →
    (∀ e ∈ es, ∀ l ∈ e.2, ∀ x, l.name = some x → Resolves resolve table pool x (val x)) →
    Seg words p (writeFns (es.map fun e => e.1.bytecode e.2) forms e) →
    linkFns resolve table (pool.map (constVal (F := F)))
        (headers forms (es.map fun e => e.1.bytecode e.2) (p + 5)) words = .ok words' →
    (∀ r ∈ ends (es.map fun e => e.1.bytecode e.2) (p + 5), words'[r.2]? = words[r.2]?) →
    ∀ r ∈ ends (es.map fun e => e.1.bytecode e.2) (p + 5),
      Passes resolve table (pool.map (constVal (F := F))) r.1 words[r.2]? := by
  induction es with
  | nil => exact fun _ _ _ _ _ _ => nofun
  | cons x es ih =>
      intro p e words words' h hv hseg hlink hsame
      obtain ⟨hx, hes⟩ := List.forall_mem_cons.mp h
      obtain ⟨hvx, hves⟩ := List.forall_mem_cons.mp hv
      obtain ⟨hsx, hses⟩ := List.forall_mem_cons.mp hsame
      obtain ⟨hrest, hiff⟩ := linkFns_cons (F := F) forms hx hvx hseg
      obtain ⟨words₁, hstray, hlater⟩ := hiff.mp hlink
      have hbehind := getElem?_filled hx val words (Nat.le_refl (p + 5 + (lineWords x.2).length))
      have hlast : p + 5 + (lineWords x.2).length - 1 + 1 = p + 5 + (lineWords x.2).length :=
        Nat.sub_add_cancel (by omega)
      -- Later functions leave the word behind this one alone, so it was linked to itself.
      have hfirst : Passes resolve table (pool.map (constVal (F := F))) x.1.nargs
          words[p + 5 + (lineWords x.2).length]? ∧
          words₁ = writeAll (filled val x.2 (p + 5)) words := by
        rcases hstray with ⟨harmless, hw⟩ | ⟨hop, o, sid, y, w, ho, hsym, hlinkw, hw⟩
        · exact ⟨.inl harmless, hw⟩
        · rw [hlast] at ho hw
          have hlt := (List.getElem?_eq_some_iff.mp ho).1
          have hend : words'[p + 5 + (lineWords x.2).length]? = some w := by
            rw [linkFns_below forms hlater (Nat.le_add_right _ 5), hw, List.getElem?_set_self hlt]
          obtain rfl : o = w := by
            have horig : words[p + 5 + (lineWords x.2).length]? = some w := hsx.symm.trans hend
            rw [← hbehind] at horig
            exact Option.some.inj (ho.symm.trans horig)
          refine ⟨.inr ⟨hop, o, sid, y, hbehind.symm.trans ho, hsym, hlinkw⟩, ?_⟩
          obtain ⟨hlt', rfl⟩ := List.getElem?_eq_some_iff.mp ho
          rw [hw, List.set_getElem_self hlt']
      obtain ⟨hpx, rfl⟩ := hfirst
      refine List.forall_mem_cons.mpr ⟨hpx, fun r hr => ?_⟩
      have hmoved : ∀ r ∈ ends (es.map fun e => e.1.bytecode e.2)
          (p + 5 + (lineWords x.2).length + 5),
          (writeAll (filled val x.2 (p + 5)) words)[r.2]? = words[r.2]? := fun r hr =>
        getElem?_filled hx val words (Nat.le_trans (Nat.le_add_right _ 5) (ends_ge hr))
      rw [← hmoved r hr]
      exact ih words' hes hves hrest hlater (fun r hr => (hses r hr).trans (hmoved r hr).symm) r hr

/-- No operand stands behind a function. -/
theorem ends_ne_operand (es : List (FnRec × List Line)) : ∀ {entry : Nat},
    (∀ e ∈ es, Walkable pool e) → ∀ r ∈ ends (es.map fun e => e.1.bytecode e.2) entry,
      ∀ q ∈ operandsAll es entry, q.1 ≠ r.2 := by
  induction es with
  | nil => exact fun _ => nofun
  | cons x es ih =>
      intro entry h r hr q hq
      obtain ⟨hx, hes⟩ := List.forall_mem_cons.mp h
      have hlater : ∀ q ∈ operandsAll es (entry + (lineWords x.2).length + 5),
          entry + (lineWords x.2).length + 5 < q.1 := fun q hq =>
        ((operandsAll_bounds [] es _ 0 hes).1 q hq).1
      rcases List.mem_append.mp hq with hq | hq
      · have hlt := ((operands_bounds x.2 hx.args_ne_nil entry).1 q hq).2
        rcases List.mem_cons.mp hr with rfl | hr
        · exact Nat.ne_of_lt hlt
        · have hge : entry + (lineWords x.2).length + 5 ≤ r.2 := ends_ge hr
          omega
      · rcases List.mem_cons.mp hr with rfl | hr
        · have hgt := hlater q hq
          show q.1 ≠ entry + (lineWords x.2).length
          omega
        · exact ih hes r hr q hq

end Loop

/-! ### The table of names -/

/-- The number of the function of a name. -/
def fnNamed (fns : List FnBC) (x : Symbol) : Option Nat := fns.findIdx? fun f => f.name = some x

theorem fnNamed_cons (f : FnBC) (fns : List FnBC) (x : Symbol) :
    fnNamed (f :: fns) x = if f.name = some x then some 0 else (fnNamed fns x).map (· + 1) := by
  unfold fnNamed
  rw [List.findIdx?_cons]
  simp only [decide_eq_true_eq]

theorem fnNamed_none {fns : List FnBC} (h : x ∉ fns.filterMap FnBC.name) :
    fnNamed fns x = none := by
  unfold fnNamed
  rw [List.findIdx?_eq_none_iff]
  intro f hf
  refine decide_eq_false fun hx => h (List.mem_filterMap.mpr ⟨f, hf, hx⟩)

/-- The first loop of the linker: with names of their own, every function gets the entry of
its name, and no other entry changes. -/
theorem fnOfSym_eq (fns : List FnBC) : ∀ (k entry : Nat) (table : List Int),
    (∀ f ∈ fns, ∀ x, f.name = some x → ∃ i, poolIdx (.sym x) pool = some i) →
    (fns.filterMap FnBC.name).Nodup → table.length = pool.length →
    (∀ x ∈ fns.filterMap FnBC.name, ∀ i, poolIdx (.sym x) pool = some i →
      table.getD i (-1) = -1) →
      ∃ table', fnOfSym (pool.map (constVal (F := F)))
          (headers (pool.map constAtom) fns entry) k table = .ok table' ∧
        (∀ x i, poolIdx (.sym x) pool = some i → table'.getD i (-1) =
          ((fnNamed fns x).map fun j => ((k + j : Nat) : Int)).getD (table.getD i (-1))) ∧
        ∀ i, table'.getD i (-1) ≠ table.getD i (-1) → ∃ x, poolIdx (.sym x) pool = some i := by
  induction fns with
  | nil => exact fun _ _ _ _ _ _ _ => ⟨_, rfl, fun _ _ _ => rfl, fun _ h => absurd rfl h⟩
  | cons f fns ih =>
      intro k entry table hn hnodup hlen hfresh
      obtain ⟨hf, hfs⟩ := List.forall_mem_cons.mp hn
      cases hname : f.name with
      | none =>
          rw [List.filterMap_cons_none hname] at hnodup hfresh
          obtain ⟨table', htable, hspec, hchanged⟩ := ih (k + 1)
            (entry + f.words.length + 5) table hfs hnodup hlen hfresh
          refine ⟨table', ?_, fun x i hi => ?_, hchanged⟩
          · rw [headers, fnOfSym, hname, nameIdx, if_pos (show (-1 : Int) < 0 by decide)]
            exact htable
          · rw [hspec x i hi, fnNamed_cons, if_neg (by simp [hname]), Option.map_map]
            congr 2
            funext j
            exact congrArg Nat.cast (by omega : k + 1 + j = k + (j + 1))
      | some y =>
          rw [List.filterMap_cons_some hname] at hnodup hfresh
          obtain ⟨hy, hnodup⟩ := List.nodup_cons.mp hnodup
          obtain ⟨iy, hiy⟩ := hf y hname
          have hidx : nameIdx (pool.map constAtom) (some y) = iy := by
            rw [nameIdx, symPoolIdx_eq hiy, Int.zero_add]
          have hlt : iy < table.length := by
            rw [hlen]
            exact (List.getElem?_eq_some_iff.mp (poolIdx_sym hiy)).1
          have hother : ∀ {x i}, x ≠ y → poolIdx (.sym x) pool = some i →
              (table.set iy (k : Int)).getD i (-1) = table.getD i (-1) := by
            intro x i hne hi
            have hii : iy ≠ i := by
              intro heq
              have hx := poolIdx_sym hi
              rw [← heq, poolIdx_sym hiy] at hx
              exact hne (Const.sym.inj (Option.some.inj hx)).symm
            rw [List.getD_eq_getElem?_getD, List.getElem?_set_ne hii, List.getD_eq_getElem?_getD]
          obtain ⟨table', htable, hspec, hchanged⟩ := ih (k + 1)
            (entry + f.words.length + 5) (table.set iy (k : Int)) hfs hnodup
            (by rw [List.length_set, hlen]) (fun x hx i hi => by
              rw [hother (fun heq => hy (heq ▸ hx)) hi]
              exact hfresh x (List.mem_cons_of_mem _ hx) i hi)
          refine ⟨table', ?_, fun x i hi => ?_, fun i hi => ?_⟩
          rotate_left 2
          · by_cases hii : iy = i
            · exact ⟨y, hii ▸ hiy⟩
            · refine hchanged i fun heq => hi ?_
              rw [heq, List.getD_eq_getElem?_getD, List.getElem?_set_ne hii,
                List.getD_eq_getElem?_getD]
          · have hnew := hfresh y (List.mem_cons_self ..) iy hiy
            rw [headers, fnOfSym, hname, hidx, if_neg (show ¬((iy : Int) < 0) by omega),
              symConst_of_poolIdx hiy]
            dsimp only
            rw [hnew, if_neg (by decide)]
            exact htable
          · rw [hspec x i hi, fnNamed_cons]
            by_cases hxy : x = y
            · have hii : i = iy := by
                rw [hxy, hiy] at hi
                exact (Option.some.inj hi).symm
              rw [hxy, hname, if_pos rfl, fnNamed_none hy, hii, List.getD_eq_getElem?_getD,
                List.getElem?_set_self hlt]
              rfl
            · rw [if_neg (by rw [hname]; exact fun h => hxy (Option.some.inj h).symm),
                hother hxy hi, Option.map_map]
              congr 2
              funext j
              exact congrArg Nat.cast (by omega : k + 1 + j = k + (j + 1))

/-! ### Programs -/

/-- The operands of the `GLOBAL` and `GLOBP` instructions of a compiled program: their places
in the file and the names they stand for. -/
def globalOperands (prog : List Top) : List (Nat × Symbol) :=
  match collectGlobals prog 1 [] with
  | .ok (g, nid) => operandsAll (flattenLines (programFns g nid prog) []) 8
  | .error _ => []

/-- What a name is linked to: the number of the function it names, or else the index of the
host's function, as a negative number. -/
def globalWord (fns : List FnBC) (resolve : Symbol → Option Nat) (x : Symbol) : Option Int :=
  match fnNamed fns x with
  | some k => some (k : Int)
  | none => (resolve x).map fun cf : Nat => -(cf : Int) - 1

theorem linkOperand_eq (fns : List FnBC) {i : Nat} {v : Int}
    (htable : table.getD i (-1) = ((fnNamed fns x).map fun j : Nat => (j : Int)).getD (-1))
    (hv : globalWord fns resolve x = some v) : linkOperand resolve table i x = .ok v := by
  unfold globalWord at hv
  unfold linkOperand
  rw [htable]
  cases hk : fnNamed fns x with
  | some k =>
      rw [hk] at hv
      rw [← Option.some.inj hv, Option.map_some, Option.getD_some]
      exact if_neg (by omega)
  | none =>
      rw [hk] at hv
      obtain ⟨cf, hcf, hcv⟩ := Option.map_eq_some_iff.mp hv
      rw [Option.map_none, Option.getD_none, hcf, ← hcv]
      rfl

theorem getD_replicate_none (n i : Nat) : (List.replicate n (-1 : Int)).getD i (-1) = -1 := by
  rw [List.getD_eq_getElem?_getD, List.getElem?_replicate]
  split <;> rfl

theorem mem_operands (ls : List Line) : ∀ {p : Nat}, (∃ l ∈ ls, l.name = some x) →
    ∃ r ∈ operands ls p, r.2 = x := by
  induction ls with
  | nil => exact fun h => by obtain ⟨l, hl, -⟩ := h; cases hl
  | cons l ls ih =>
      intro p h
      obtain ⟨l', hl', hx⟩ := h
      rw [operands]
      rcases List.mem_cons.mp hl' with heq | hmem
      · rw [heq] at hx
        rw [hx]
        exact ⟨_, List.mem_append_left _ (List.mem_singleton_self _), rfl⟩
      · obtain ⟨r, hr, hrx⟩ := ih ⟨l', hmem, hx⟩
        exact ⟨r, List.mem_append_right _ hr, hrx⟩

theorem mem_operandsAll (es : List (FnRec × List Line)) : ∀ {p : Nat},
    (∃ e ∈ es, ∃ l ∈ e.2, l.name = some x) → ∃ r ∈ operandsAll es p, r.2 = x := by
  induction es with
  | nil => exact fun h => by obtain ⟨e, he, -⟩ := h; cases he
  | cons e es ih =>
      intro p h
      obtain ⟨e', he', hl⟩ := h
      rcases List.mem_cons.mp he' with heq | hmem
      · rw [heq] at hl
        obtain ⟨r, hr, hrx⟩ := mem_operands e.2 (p := p) hl
        exact ⟨r, List.mem_append_left _ hr, hrx⟩
      · obtain ⟨r, hr, hrx⟩ := ih (p := p + (lineWords e.2).length + 5) ⟨e', hmem, hl⟩
        exact ⟨r, List.mem_append_right _ hr, hrx⟩

/-- The number of parameters of a function goes unnoticed by the linker: it is stepped over, or
the word behind the function is the index of a name, and the function of that name has the same
number. -/
def Unnoticed (fns : List FnBC) (consts : List Const) (nargs : Nat) (behind : Option Int) : Prop :=
  HarmlessArity nargs ∨ (strayOp nargs = opGlobal ∨ strayOp nargs = opGlobP) ∧
    ∃ (k : Nat) (x : Symbol), behind = some (k : Int) ∧ poolIdx (.sym x) consts = some k ∧
      fnNamed fns x = some k

theorem symConst_eq_some {o : Int} {sid : Nat}
    (h : symConst (pool.map (constVal (F := F))) o = some (sid, x)) :
    o = (sid : Int) ∧ pool[sid]? = some (.sym x) := by
  unfold symConst at h
  split at h
  · next n =>
      rw [List.getElem?_map] at h
      cases hc : pool[n]? with
      | none =>
          rw [hc] at h
          cases h
      | some c =>
          rw [hc] at h
          cases c with
          | sym y =>
              obtain ⟨rfl, rfl⟩ := Prod.mk.inj (Option.some.inj h)
              exact ⟨rfl, hc⟩
          | _ => cases h
  · cases h

/-- With the table of the program's functions. -/
theorem passes_iff {fns : List FnBC} {nargs : Nat} {behind : Option Int}
    (hspec : ∀ x i, poolIdx (.sym x) pool = some i →
      table.getD i (-1) = ((fnNamed fns x).map fun j : Nat => (j : Int)).getD (-1))
    (hset : ∀ i, table.getD i (-1) ≠ -1 → ∃ x, poolIdx (.sym x) pool = some i) :
    Passes resolve table (pool.map (constVal (F := F))) nargs behind ↔
      Unnoticed fns pool nargs behind := by
  refine or_congr_right (and_congr_right fun _ => ⟨?_, ?_⟩)
  · rintro ⟨o, sid, x, ho, hsym, hlink⟩
    obtain ⟨rfl, hx⟩ := symConst_eq_some hsym
    unfold linkOperand at hlink
    dsimp only at hlink
    split at hlink
    · split at hlink
      · next cf _ =>
          have heq : -(cf : Int) - 1 = (sid : Int) := Except.ok.inj hlink
          omega
      · cases hlink
    · have heq : table.getD sid (-1) = (sid : Int) := Except.ok.inj hlink
      obtain ⟨y, hy⟩ := hset sid (by omega)
      obtain rfl : y = x := Const.sym.inj (Option.some.inj ((poolIdx_sym hy).symm.trans hx))
      refine ⟨sid, y, ho, hy, ?_⟩
      rw [hspec y sid hy] at heq
      cases hfn : fnNamed fns y with
      | none =>
          rw [hfn] at heq
          have hneg : (-1 : Int) = (sid : Int) := heq
          omega
      | some j =>
          rw [hfn] at heq
          exact congrArg some (Int.ofNat.inj heq)
  · rintro ⟨k, x, hk, hx, hfn⟩
    refine ⟨k, k, x, hk, symConst_of_poolIdx hx, ?_⟩
    have htable : table.getD k (-1) = (k : Int) := by
      rw [hspec x k hx, hfn]
      rfl
    unfold linkOperand
    rw [htable]
    exact if_neg (by omega)

/-- **Loading the file of a compiled program succeeds and rewrites exactly the operands of
`GLOBAL` and `GLOBP`**, if the host knows the names the program does not define, exactly if the
number of parameters of every function goes unnoticed. -/
theorem load_writeBc {prog : List Top} {fns : List FnBC} {consts : List Const}
    (h : compile prog = .out fns consts) (ht : ∀ c ∈ consts, isText c = true)
    (hhost : ∀ r ∈ globalOperands prog, (globalWord fns resolve r.2).isSome = true) :
    (∃ u : Loaded F, load resolve (writeBc fns consts) = .ok u ∧
      (∀ r ∈ globalOperands prog, u.words[r.1]? = globalWord fns resolve r.2) ∧
      ∀ i, (∀ r ∈ globalOperands prog, r.1 ≠ i) → u.words[i]? = (bcWords fns consts)[i]?) ↔
    ∀ r ∈ ends fns 8, Unnoticed fns consts r.1 (bcWords fns consts)[r.2]? := by
  obtain ⟨hne, hnamed⟩ := compile_named h
  obtain ⟨g, nid, hg, hfns, hlaid⟩ := compile_lines h
  obtain ⟨hshape, hnodup⟩ := programFns_shape hg
  have hops : globalOperands prog = operandsAll (flattenLines (programFns g nid prog) []) 8 := by
    rw [globalOperands, hg]
  rw [hops] at hhost ⊢
  have hfst := flattenLines_fst (programFns g nid prog) []
  generalize flattenLines (programFns g nid prog) [] = es at *
  have hready : ∀ e ∈ es, Walkable consts e := fun e he =>
    ⟨hlaid e he, hshape e.1 (hfst ▸ List.mem_map_of_mem he)⟩
  have hnames : (fns.filterMap FnBC.name).Nodup := by
    have heq : fns.filterMap FnBC.name = (es.map Prod.fst).filterMap FnRec.name := by
      rw [hfns, List.filterMap_map, List.filterMap_map]
      rfl
    rw [heq, hfst]
    exact hnodup
  obtain ⟨table, htable, hspec, hset⟩ := fnOfSym_eq (F := F) fns 0 8
    (List.replicate consts.length (-1)) hnamed hnames (List.length_replicate ..)
    (fun x _ i _ => by rw [getD_replicate_none])
  simp only [getD_replicate_none, Nat.zero_add] at hspec hset
  have hval : ∀ e ∈ es, ∀ l ∈ e.2, ∀ x, l.name = some x →
      Resolves resolve table consts x ((globalWord fns resolve x).getD 0) := by
    intro e he l hl x hx i hi
    obtain ⟨r, hr, hrx⟩ := mem_operandsAll es (p := 8) ⟨e, he, l, hl, hx⟩
    obtain ⟨v, hv⟩ := Option.isSome_iff_exists.mp (hrx ▸ hhost r hr)
    exact linkOperand_eq fns (hspec x i hi) (by rw [hv]; rfl)
  have hseg := (seg_bcWords fns consts).left
  rw [hfns] at hseg
  have hlink := linkFns_eq (F := F) (consts.map constAtom) es hready hval hseg
  have honly := fun words' => linkFns_passes (F := F) (consts.map constAtom) es words' hready hval
    hseg
  rw [← hfns] at hlink honly hseg
  have hpasses : (∀ r ∈ ends fns 8, Unnoticed fns consts r.1 (bcWords fns consts)[r.2]?) ↔
      ∀ r ∈ ends fns 8, Passes resolve table (consts.map (constVal (F := F))) r.1
        (bcWords fns consts)[r.2]? :=
    forall₂_congr fun r _ => (passes_iff hspec hset).symm
  have hload : ∀ u : Loaded F, load resolve (writeBc fns consts) = .ok u ↔
      ∃ words, linkFns resolve table (consts.map (constVal (F := F)))
        (headers (consts.map constAtom) fns 8) (bcWords fns consts) = .ok words ∧
        .ok (⟨words, headers (consts.map constAtom) fns 8, consts.map constVal⟩ : Loaded F) =
          (.ok u : Except LoadError (Loaded F)) := by
    intro u
    unfold load linkUnit
    rw [parseUnit_writeBc_eq hne ht]
    dsimp only [bind, Except.bind]
    rw [List.length_map, show fnOfSym _ _ 0 _ = .ok table from htable]
    exact bind_eq_ok
  rw [hpasses]
  refine ⟨?_, fun hall => ?_⟩
  · rintro ⟨u, hu, -, hsame⟩
    obtain ⟨words, hwords, hok⟩ := (hload u).mp hu
    obtain rfl := Except.ok.inj hok
    refine honly words hwords fun r hr => hsame r.2 fun q hq => ?_
    rw [hfns] at hr
    exact ends_ne_operand es hready r hr q hq
  · obtain ⟨hbounds, hsorted⟩ := operandsAll_bounds (consts.map constAtom) es 8 8 hready
    refine ⟨_, (hload _).mpr ⟨_, hlink hall, rfl⟩, fun r hr => ?_, fun i hi => ?_⟩
    · obtain ⟨v, hv⟩ := Option.isSome_iff_exists.mp (hhost r hr)
      have hlt : r.1 < (bcWords fns consts).length := by
        have hr' := (hbounds r hr).2
        rw [← hfns] at hr'
        simp only [bcWords, List.length_cons, List.length_append]
        omega
      have hmem := List.mem_map_of_mem (f := fun r : Nat × Symbol =>
        (r.1, (globalWord fns resolve r.2).getD 0)) hr
      rw [hv]
      refine (getElem?_writeAll_of_mem ?_ hmem hlt).trans (by rw [hv]; rfl)
      exact List.pairwise_map.mpr hsorted
    · refine getElem?_writeAll_of_ne (fun r hr => ?_) _
      obtain ⟨r', hr', hrr⟩ := List.mem_map.mp hr
      rw [← hrr]
      exact hi r' hr'

/-- A define that calls a host function and itself, called from the entry. -/
def callingProgram : List Top :=
  [.define "loop" (.lambda ["n"] (.ifE (.call (.sym "eq?") [.sym "n", .const (.int 0)])
      (.call (.sym "print") [.const (.str "done")])
      (.call (.sym "loop") [.call (.sym "-") [.sym "n", .const (.int 1)]]))),
    .expr (.call (.sym "loop") [.const (.int 3)])]

theorem load_writeBc_callingProgram : ∃ fns consts, compile callingProgram = .out fns consts ∧
    (globalOperands callingProgram).map Prod.snd = ["loop", "print", "loop"] ∧
    ∃ u : Loaded Int, load (fun x => if x = "print" then some 6 else none) (writeBc fns consts) =
        .ok u ∧
      (∀ r ∈ globalOperands callingProgram, u.words[r.1]? =
        globalWord fns (fun x => if x = "print" then some 6 else none) r.2) ∧
      ∀ i, (∀ r ∈ globalOperands callingProgram, r.1 ≠ i) →
        u.words[i]? = (bcWords fns consts)[i]? := by
  have hout : compile callingProgram = .out _ _ := rfl
  refine ⟨_, _, hout, ?_, (load_writeBc hout ?_ ?_).mpr fun r hr => .inl ?_⟩
  · decide +kernel
  · decide +kernel
  · decide +kernel
  · revert r
    unfold HarmlessArity
    decide +kernel

/-- A function of so many parameters. -/
def wideProgram (n : Nat) : List Top :=
  [.define "wide" (.lambda ((List.range n).map fun i => String.ofList (List.replicate (i + 1) 'p'))
    (.const .nil)), .expr (.const (.bool true))]

/-- A function of 41 parameters is compiled and written, and the loader stops at its return:
the number of parameters is no opcode.  With 31 parameters the walk reads the next word of
the file as the operand of a `GLOBP`. -/
theorem load_writeBc_wideProgram :
    (∃ fns consts, compile (wideProgram 41) = .out fns consts ∧
      globalOperands (wideProgram 41) = [] ∧
      load (F := Int) (fun _ => none) (writeBc fns consts) = .error .badOpcode) ∧
    ∃ fns consts, compile (wideProgram 31) = .out fns consts ∧
      globalOperands (wideProgram 31) = [] ∧
      load (F := Int) (fun _ => none) (writeBc fns consts) = .error .globalNotASymbol := by
  refine ⟨⟨_, _, rfl, ?_, ?_⟩, _, _, rfl, ?_, ?_⟩
  all_goals decide +kernel

end TinyActor.Bootstrap
