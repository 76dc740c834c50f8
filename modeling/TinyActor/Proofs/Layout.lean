/-
The layout of the word stream.

`flat2` appends to one list and fills the jumps in afterwards, by index into all that
has been written.  Here the same words are put down line by line: `asm` knows from the
sizes of the parts where every jump goes, and a line is one instruction of the machine
with its operand words.  Whatever reads the words in order, the linker or the
interpreter, is followed along the lines.
-/
import TinyActor.Bootstrap.Flatten
import TinyActor.Vm.Machine

namespace TinyActor.Bootstrap

open TinyActor.Vm (opGlobal opGlobP Cmp Image Instr Symbol)

/-- An instruction as it stands in the word stream. -/
structure Line where
  op : Int
  args : List Int
  /-- The name of the global it refers to. -/
  name : Option Symbol

def Line.words (l : Line) : List Int := l.op :: l.args

def lineWords (ls : List Line) : List Int := ls.flatMap Line.words

mutual

/-- The number of words of an instruction. -/
def sizeIns : Ins → Nat
  | .push | .op _ => 1
  | .builtin _ _ | .clos _ _ => 3
  | .ifE cond yes no => size cond + (2 + (size yes + (2 + size no)))
  | .ifP _ cond yes no => size cond + (3 + (size yes + (2 + size no)))
  | .ifI _ cond yes no => size cond + (4 + (size yes + (2 + size no)))
  | _ => 2

def size : List Ins → Nat
  | [] => 0
  | i :: rest => sizeIns i + size rest

end

/-- The lines of a conditional: the condition, a jump that knows where the two branches
begin, and the branches with a jump over the second. -/
def branch (cond : List Line) (test : Nat → Nat → Line) (yes no : List Line)
    (atYes atNo stop : Nat) : List Line :=
  cond ++ test atYes atNo :: (yes ++ ⟨opJump, [(stop : Int)], none⟩ :: no)

mutual

/-- The lines of an instruction that stands at a position. -/
def asmIns : Ins → Nat → List Const → List Line × List Const
  | .const c, _, pool => ([⟨opConst, [((poolAdd c pool).1 : Int)], none⟩], (poolAdd c pool).2)
  | .constP c, _, pool => ([⟨opConstP, [((poolAdd c pool).1 : Int)], none⟩], (poolAdd c pool).2)
  | .constI imm, _, pool => ([⟨opConstI, [imm.toInt], none⟩], pool)
  | .load s, _, pool => ([⟨opLoad, [(s : Int)], none⟩], pool)
  | .loadP s, _, pool => ([⟨opLoadP, [(s : Int)], none⟩], pool)
  | .loadF k, _, pool => ([⟨opLoadF, [(k : Int)], none⟩], pool)
  | .store s, _, pool => ([⟨opStore, [(s : Int)], none⟩], pool)
  | .glob x, _, pool =>
      ([⟨opGlobal, [((poolAdd (.sym x) pool).1 : Int)], some x⟩], (poolAdd (.sym x) pool).2)
  | .globP x, _, pool =>
      ([⟨opGlobP, [((poolAdd (.sym x) pool).1 : Int)], some x⟩], (poolAdd (.sym x) pool).2)
  | .push, _, pool => ([⟨opPush, [], none⟩], pool)
  | .op op, _, pool => ([⟨op.code, [], none⟩], pool)
  | .opI op imm, _, pool => ([⟨Arith.code op - opAdd + opAddI, [imm.toInt], none⟩], pool)
  | .call n, _, pool => ([⟨opCall, [(n : Int)], none⟩], pool)
  | .tcall n, _, pool => ([⟨opTcall, [(n : Int)], none⟩], pool)
  | .builtin id n, _, pool => ([⟨opBuiltin, [(id : Int), (n : Int)], none⟩], pool)
  | .clos fid nfree, _, pool => ([⟨opMakeClosure, [(fid : Int), (nfree : Int)], none⟩], pool)
  | .ret k, _, pool => ([⟨opRet, [(k : Int)], none⟩], pool)
  | .reserve n, _, pool => ([⟨opReserve, [(n : Int)], none⟩], pool)
  | .ifE cond yes no, pos, pool =>
      let atYes := pos + size cond + 2
      let atNo := atYes + size yes + 2
      let c := asm cond pos pool
      let y := asm yes atYes c.2
      let n := asm no atNo y.2
      (branch c.1 (fun _ atNo => ⟨opJif, [(atNo : Int)], none⟩) y.1 n.1 atYes atNo
        (atNo + size no), n.2)
  | .ifP op cond yes no, pos, pool =>
      let atYes := pos + size cond + 3
      let atNo := atYes + size yes + 2
      let c := asm cond pos pool
      let y := asm yes atYes c.2
      let n := asm no atNo y.2
      (branch c.1 (fun atYes atNo =>
        ⟨Cmp.code op - opLt + opJifLt, [(atYes : Int), (atNo : Int)], none⟩) y.1 n.1 atYes atNo
        (atNo + size no), n.2)
  | .ifI imm cond yes no, pos, pool =>
      let atYes := pos + size cond + 4
      let atNo := atYes + size yes + 2
      let c := asm cond pos pool
      let y := asm yes atYes c.2
      let n := asm no atNo y.2
      (branch c.1 (fun atYes atNo =>
        ⟨opJifEqI, [imm.toInt, (atYes : Int), (atNo : Int)], none⟩) y.1 n.1 atYes atNo
        (atNo + size no), n.2)

def asm : List Ins → Nat → List Const → List Line × List Const
  | [], _, pool => ([], pool)
  | i :: rest, pos, pool =>
      let a := asmIns i pos pool
      let b := asm rest (pos + sizeIns i) a.2
      (a.1 ++ b.1, b.2)

end

/-! ### Sizes -/

@[simp] theorem lineWords_nil : lineWords [] = [] := rfl

@[simp] theorem lineWords_cons (l : Line) (ls : List Line) :
    lineWords (l :: ls) = l.op :: (l.args ++ lineWords ls) := rfl

@[simp] theorem lineWords_append (a b : List Line) :
    lineWords (a ++ b) = lineWords a ++ lineWords b := List.flatMap_append

mutual

theorem asmIns_length : ∀ (i : Ins) (pos : Nat) (pool : List Const),
    (lineWords (asmIns i pos pool).1).length = sizeIns i
  | .ifE cond yes no, pos, pool => by
      simp [asmIns, sizeIns, branch, asm_length cond, asm_length yes, asm_length no]
      omega
  | .ifP op cond yes no, pos, pool => by
      simp [asmIns, sizeIns, branch, asm_length cond, asm_length yes, asm_length no]
      omega
  | .ifI imm cond yes no, pos, pool => by
      simp [asmIns, sizeIns, branch, asm_length cond, asm_length yes, asm_length no]
      omega
  | .const _, _, _ | .constP _, _, _ | .constI _, _, _ | .load _, _, _ | .loadP _, _, _
  | .loadF _, _, _ | .store _, _, _ | .glob _, _, _ | .globP _, _, _ | .push, _, _ | .op _, _, _
  | .opI _ _, _, _ | .call _, _, _ | .tcall _, _, _ | .builtin _ _, _, _ | .clos _ _, _, _
  | .ret _, _, _ | .reserve _, _, _ => rfl

theorem asm_length : ∀ (code : List Ins) (pos : Nat) (pool : List Const),
    (lineWords (asm code pos pool).1).length = size code
  | [], _, _ => rfl
  | i :: rest, pos, pool => by
      rw [asm, lineWords_append, List.length_append, asmIns_length i, asm_length rest, size]

end

/-! ### Filling in the jumps -/

theorem set_middle {pre post : List Int} {x v : Int} {i : Nat} (h : i = pre.length) :
    (pre ++ x :: post).set i v = pre ++ v :: post := by
  rw [h, List.set_append_right _ _ (Nat.le_refl _), Nat.sub_self]
  rfl

/-- The last target word of a test and the target of the jump over the second branch. -/
theorem patch {ws cond test yes no : List Int} {i j : Nat} {x v v' w w' : Int}
    (hi : i = ws.length + (cond.length + test.length))
    (hj : j = i + 1 + (yes.length + 1)) (hv : v = v') (hw : w = w') :
    ((ws ++ (cond ++ (test ++ x :: (yes ++ opJump :: 0 :: no)))).set i v).set j w =
      ws ++ (cond ++ (test ++ v' :: (yes ++ opJump :: w' :: no))) := by
  have hfirst : ∀ z, ws ++ (cond ++ (test ++ z :: (yes ++ opJump :: 0 :: no))) =
      (ws ++ (cond ++ test)) ++ z :: (yes ++ opJump :: 0 :: no) := fun z => by
    simp only [List.append_assoc]
  have hsecond : ∀ z, ws ++ (cond ++ (test ++ v' :: (yes ++ opJump :: z :: no))) =
      (ws ++ (cond ++ (test ++ v' :: (yes ++ [opJump])))) ++ z :: no := fun z => by
    simp only [List.append_assoc, List.cons_append, List.nil_append]
  rw [hv, hw, hfirst, set_middle (by simp only [List.length_append]; omega), ← hfirst, hsecond,
    set_middle (by simp only [List.length_append, List.length_cons, List.length_nil]; omega),
    ← hsecond]

/-- Both target words of a test that has two. -/
theorem patch_both {ws cond test yes no : List Int} {i i' j : Nat} {u u' v v' w w' : Int}
    (hi : i = ws.length + (cond.length + test.length)) (hi' : i' = i + 1)
    (hj : j = i' + 1 + (yes.length + 1)) (hu : u = u') (hv : v = v') (hw : w = w') :
    (((ws ++ (cond ++ (test ++ 0 :: 0 :: (yes ++ opJump :: 0 :: no)))).set i u).set i' v).set j w =
      ws ++ (cond ++ (test ++ u' :: v' :: (yes ++ opJump :: w' :: no))) := by
  have hfirst : ∀ z rest, ws ++ (cond ++ (test ++ z :: rest)) =
      (ws ++ (cond ++ test)) ++ z :: rest := fun z rest => by
    simp only [List.append_assoc]
  have hsecond : ∀ z rest, ws ++ (cond ++ (test ++ u' :: z :: rest)) =
      ws ++ (cond ++ ((test ++ [u']) ++ z :: rest)) := fun z rest => by
    simp only [List.append_assoc, List.cons_append, List.nil_append]
  rw [hu, hfirst, set_middle (by simp only [List.length_append]; omega), ← hfirst, hsecond,
    patch (by simp only [List.length_append, List.length_cons, List.length_nil]; omega) hj hv hw,
    ← hsecond]

/-- `flat2` appends the words of the lines of a piece of code. -/
def AppendsLines (code : List Ins) : Prop :=
  ∀ (ws : List Int) (pool : List Const) {pos : Nat}, pos = ws.length →
    flat2 code ws pool = (ws ++ lineWords (asm code pos pool).1, (asm code pos pool).2)

/-- The parts of a conditional before its jumps are filled in, with any test in front of the
branches. -/
theorem flat2_branches {cond yes no : List Ins} (hcond : AppendsLines cond)
    (hyes : AppendsLines yes) (hno : AppendsLines no) (test : List Int) {ws : List Int}
    (pool : List Const) {pos : Nat} (hpos : pos = ws.length) :
    let a := flat2 cond ws pool
    let t := flat2 yes (a.1 ++ test) a.2
    let atYes := pos + size cond + test.length
    let c := asm cond pos pool
    let y := asm yes atYes c.2
    let n := asm no (atYes + size yes + 2) y.2
    a.1.length = pos + size cond ∧ t.1.length = atYes + size yes ∧
      flat2 no (t.1 ++ [opJump, 0]) t.2 =
        (ws ++ (lineWords c.1 ++ (test ++ (lineWords y.1 ++ opJump :: 0 :: lineWords n.1))), n.2) := by
  intro a t atYes c y n
  have ha : a = (ws ++ lineWords c.1, c.2) := hcond ws pool hpos
  have hla : a.1.length = pos + size cond := by
    rw [ha, List.length_append, asm_length, hpos]
  have hpool : a.2 = c.2 := congrArg Prod.snd ha
  have ht : t = (a.1 ++ test ++ lineWords y.1, y.2) := by
    have hat : atYes = (a.1 ++ test).length := by rw [List.length_append, hla]
    change flat2 yes (a.1 ++ test) a.2 = _
    rw [hpool]
    exact hyes (a.1 ++ test) c.2 hat
  have hlt : t.1.length = atYes + size yes := by
    rw [ht, List.length_append, List.length_append, hla, asm_length]
  have hat : atYes + size yes + 2 = (t.1 ++ [opJump, 0]).length := by
    rw [List.length_append, hlt]
    rfl
  refine ⟨hla, hlt, ?_⟩
  rw [hno _ _ hat, ht, ha]
  simp only [List.append_assoc, List.cons_append, List.nil_append]
  rfl

mutual

theorem flatIns_asm : ∀ (i : Ins) (ws : List Int) (pool : List Const) {pos : Nat},
    pos = ws.length →
      flatIns i ws pool = (ws ++ lineWords (asmIns i pos pool).1, (asmIns i pos pool).2)
  | .ifE cond yes no, ws, pool, pos, hpos => by
      obtain ⟨ha, ht, he⟩ := flat2_branches (flat2_asm cond) (flat2_asm yes) (flat2_asm no)
        [opJif, 0] pool hpos
      rw [flatIns]
      simp only [ha, he, asmIns, branch, lineWords_append, lineWords_cons]
      refine congrArg (·, _) (@patch ws _ [opJif] _ _ _ _ 0 _ _ _ _ ?_ ?_ ?_ ?_)
      all_goals
        simp only [asm_length, ht, hpos, List.length_append, List.length_cons, List.length_nil]
        omega
  | .ifP op cond yes no, ws, pool, pos, hpos => by
      obtain ⟨ha, ht, he⟩ := flat2_branches (flat2_asm cond) (flat2_asm yes) (flat2_asm no)
        [Cmp.code op - opLt + opJifLt, 0, 0] pool hpos
      rw [flatIns]
      simp only [ha, he, asmIns, branch, lineWords_append, lineWords_cons]
      refine congrArg (·, _) (@patch_both ws _ [Cmp.code op - opLt + opJifLt] _ _ _ _ _ _ _ _ _ _ _
        ?_ ?_ ?_ ?_ ?_ ?_)
      all_goals
        simp only [asm_length, ht, ha, hpos, List.length_append, List.length_cons, List.length_nil] <;>
          omega
  | .ifI imm cond yes no, ws, pool, pos, hpos => by
      obtain ⟨ha, ht, he⟩ := flat2_branches (flat2_asm cond) (flat2_asm yes) (flat2_asm no)
        [opJifEqI, imm.toInt, 0, 0] pool hpos
      rw [flatIns]
      simp only [ha, he, asmIns, branch, lineWords_append, lineWords_cons]
      refine congrArg (·, _) (@patch_both ws _ [opJifEqI, imm.toInt] _ _ _ _ _ _ _ _ _ _ _
        ?_ ?_ ?_ ?_ ?_ ?_)
      all_goals
        simp only [asm_length, ht, ha, hpos, List.length_append, List.length_cons, List.length_nil] <;>
          omega
  | .const _, _, _, _, _ | .constP _, _, _, _, _ | .constI _, _, _, _, _ | .load _, _, _, _, _
  | .loadP _, _, _, _, _ | .loadF _, _, _, _, _ | .store _, _, _, _, _ | .glob _, _, _, _, _
  | .globP _, _, _, _, _ | .push, _, _, _, _ | .op _, _, _, _, _ | .opI _ _, _, _, _, _
  | .call _, _, _, _, _ | .tcall _, _, _, _, _ | .builtin _ _, _, _, _, _
  | .clos _ _, _, _, _, _ | .ret _, _, _, _, _ | .reserve _, _, _, _, _ => rfl

/-- **The word stream is the lines one after another.** -/
theorem flat2_asm : ∀ (code : List Ins) (ws : List Int) (pool : List Const) {pos : Nat},
    pos = ws.length →
      flat2 code ws pool = (ws ++ lineWords (asm code pos pool).1, (asm code pos pool).2)
  | [], ws, _, _, _ => by rw [flat2, asm, lineWords_nil, List.append_nil]
  | i :: rest, ws, pool, pos, hpos => by
      have hnext : pos + sizeIns i = (ws ++ lineWords (asmIns i pos pool).1).length := by
        rw [List.length_append, asmIns_length, hpos]
      rw [flat2, flatIns_asm i ws pool hpos, flat2_asm rest _ _ hnext, asm]
      simp only [lineWords_append, List.append_assoc]

end

/-! ### What the machine fetches -/

section Fetch

variable {F : Type} {img : Image F} {ws rest : List Int} {pool : List Const}

/-- The machine's instruction for one that does not branch.  A product has no form with an
immediate. -/
def instrOf (pool : List Const) : Ins → Option Instr
  | .const c => some (.const (poolAdd c pool).1)
  | .constP c => some (.constP (poolAdd c pool).1)
  | .constI imm => some (.constI imm.toInt)
  | .load s => some (.load s)
  | .loadP s => some (.loadP s)
  | .loadF k => some (.loadF k)
  | .store s => some (.store s)
  | .glob x => some (.global (poolAdd (.sym x) pool).1)
  | .globP x => some (.globP (poolAdd (.sym x) pool).1)
  | .push => some .push
  | .op (.arith op) => some (.arith op)
  | .op .div => some .div
  | .op .mod => some .mod
  | .op (.cmp op) => some (.cmp op)
  | .op .pairP => some .pairP
  | .op .symP => some .symP
  | .op .cons => some .cons
  | .op .car => some .car
  | .op .cdr => some .cdr
  | .opI .mul _ => none
  | .opI op imm => some (.arithI op imm.toInt)
  | .call n => some (.call n)
  | .tcall n => some (.tcall n)
  | .builtin id n => some (.builtin id n)
  | .clos fid nfree => some (.makeClosure fid nfree)
  | .ret k => some (.ret k)
  | .reserve n => some (.reserve n)
  | .ifE _ _ _ | .ifP _ _ _ _ | .ifI _ _ _ _ => none

/-- What is fetched depends on the words from there on. -/
theorem fetch_behind (himg : img.words = ws ++ rest) :
    img.fetch ws.length = { img with words := rest }.fetch 0 := by
  have hat : ∀ k, img.words[ws.length + k]? = rest[k]? := by
    intro k
    rw [himg, List.getElem?_append_right (Nat.le_add_right _ _), Nat.add_sub_cancel_left]
  have hnat : ∀ k, img.nat (ws.length + k) = { img with words := rest }.nat k :=
    fun k => congrArg (Option.bind · Int.toNat?) (hat k)
  unfold Image.fetch
  simp only [hat, hnat, show img.words[ws.length]? = rest[0]? from hat 0, Nat.zero_add]

/-- **The words of an instruction are fetched as that instruction.** -/
theorem fetch_flatIns {i : Ins} {j : Instr} (hi : instrOf pool i = some j)
    (himg : img.words = (flatIns i ws pool).1 ++ rest) : img.fetch ws.length = some j := by
  rw [flatIns_asm i ws pool rfl, List.append_assoc] at himg
  rw [fetch_behind himg]
  cases i with
  | opI op => cases op <;> cases hi <;> rfl
  | op op =>
      cases op with
      | arith op | cmp op => cases hi; cases op <;> rfl
      | _ => cases hi; rfl
  | ifE | ifP | ifI => cases hi
  | _ => cases hi; rfl

/-- The test of a conditional is fetched from behind its condition. -/
theorem fetch_test {pc atYes atNo stop : Nat} {cond yes no : List Line} {test : Nat → Nat → Line}
    (himg : img.words = ws ++ lineWords (branch cond test yes no atYes atNo stop) ++ rest)
    (hpc : pc = ws.length + (lineWords cond).length) :
    ∃ more, img.fetch pc = { img with words := (test atYes atNo).words ++ more }.fetch 0 := by
  rw [branch, lineWords_append, ← List.append_assoc ws, List.append_assoc] at himg
  rw [hpc, ← List.length_append, fetch_behind himg, lineWords_cons, List.cons_append,
    List.append_assoc]
  exact ⟨_, rfl⟩

/-- A comparison that is part of the jump. -/
theorem fetch_ifP {op : Cmp} {cond yes no : List Ins}
    (himg : img.words = (flatIns (.ifP op cond yes no) ws pool).1 ++ rest) :
    img.fetch (ws.length + size cond) = some (.jifCmp op (ws.length + size cond + 3)
      (ws.length + size cond + 3 + size yes + 2)) := by
  simp only [flatIns_asm _ ws pool rfl, asmIns] at himg
  obtain ⟨more, hfetch⟩ := fetch_test himg (congrArg _ (asm_length cond _ _).symm)
  rw [hfetch]
  cases op <;> rfl

theorem fetch_ifI {imm : BitVec 48} {cond yes no : List Ins}
    (himg : img.words = (flatIns (.ifI imm cond yes no) ws pool).1 ++ rest) :
    img.fetch (ws.length + size cond) = some (.jifEqI imm.toInt (ws.length + size cond + 4)
      (ws.length + size cond + 4 + size yes + 2)) := by
  simp only [flatIns_asm _ ws pool rfl, asmIns] at himg
  obtain ⟨more, hfetch⟩ := fetch_test himg (congrArg _ (asm_length cond _ _).symm)
  rw [hfetch]
  rfl

end Fetch

/-! ### The pool -/

theorem constEq_sym {h : Const} {x : Symbol} : constEq h (.sym x) = true ↔ h = .sym x := by
  cases h <;> simp [constEq]

/-- Constants are only ever added at the end, so an index stays good. -/
theorem poolIdx_mono {c : Const} {pool pool' : List Const} {i : Nat} (h : poolIdx c pool = some i)
    (hp : pool <+: pool') : poolIdx c pool' = some i := by
  obtain ⟨more, hmore⟩ := hp
  unfold poolIdx at h ⊢
  rw [← hmore, List.findIdx?_append, h]
  rfl

theorem poolIdx_sym {x : Symbol} {pool : List Const} {i : Nat}
    (h : poolIdx (.sym x) pool = some i) : pool[i]? = some (.sym x) := by
  obtain ⟨hlt, heq, -⟩ := List.findIdx?_eq_some_iff_getElem.mp h
  rw [List.getElem?_eq_getElem hlt, constEq_sym.mp heq]

theorem poolAdd_extends (c : Const) (pool : List Const) : pool <+: (poolAdd c pool).2 := by
  unfold poolAdd
  split
  · exact List.prefix_refl _
  · exact List.prefix_append _ _

theorem poolIdx_poolAdd_sym (x : Symbol) (pool : List Const) :
    poolIdx (.sym x) (poolAdd (.sym x) pool).2 = some (poolAdd (.sym x) pool).1 := by
  unfold poolAdd
  split
  · next h => exact h
  · next h =>
      unfold poolIdx at h ⊢
      rw [List.findIdx?_append, h]
      simp [constEq]

mutual

theorem asmIns_extends : ∀ (i : Ins) (pos : Nat) (pool : List Const),
    pool <+: (asmIns i pos pool).2
  | .const c, _, pool | .constP c, _, pool => poolAdd_extends c pool
  | .glob x, _, pool | .globP x, _, pool => poolAdd_extends (.sym x) pool
  | .ifE cond yes no, _, pool | .ifP _ cond yes no, _, pool | .ifI _ cond yes no, _, pool =>
      (asm_extends cond _ pool).trans ((asm_extends yes _ _).trans (asm_extends no _ _))
  | .constI _, _, _ | .load _, _, _ | .loadP _, _, _ | .loadF _, _, _ | .store _, _, _
  | .push, _, _ | .op _, _, _ | .opI _ _, _, _ | .call _, _, _ | .tcall _, _, _
  | .builtin _ _, _, _ | .clos _ _, _, _ | .ret _, _, _ | .reserve _, _, _ => List.prefix_refl _

theorem asm_extends : ∀ (code : List Ins) (pos : Nat) (pool : List Const),
    pool <+: (asm code pos pool).2
  | [], _, _ => List.prefix_refl _
  | i :: rest, pos, pool => (asmIns_extends i pos pool).trans (asm_extends rest _ _)

end

theorem asm_append (a b : List Ins) : ∀ (pos : Nat) (pool : List Const),
    asm (a ++ b) pos pool =
      ((asm a pos pool).1 ++ (asm b (pos + size a) (asm a pos pool).2).1,
        (asm b (pos + size a) (asm a pos pool).2).2) := by
  induction a with
  | nil => exact fun _ _ => rfl
  | cons i a ih =>
      intro pos pool
      simp only [List.cons_append, asm, ih, List.append_assoc, size, Nat.add_assoc]

/-! ### Functions -/

/-- A function's name is put into the pool before its code. -/
def namePool : Option Symbol → List Const → List Const
  | some s, pool => (poolAdd (.sym s) pool).2
  | none, pool => pool

/-- The functions of a program with their lines. -/
def flattenLines : List FnRec → List Const → List (FnRec × List Line)
  | [], _ => []
  | r :: rest, pool =>
      let a := asm (fuse r.code) 0 (namePool r.name pool)
      (r, a.1) :: flattenLines rest a.2

/-- A function as it is written out, from its lines. -/
def FnRec.bytecode (r : FnRec) (ls : List Line) : FnBC :=
  ⟨r.name, r.nargs, (depth (fuse r.code) (r.nargs + 4) (r.nargs + 4)).2, lineWords ls⟩

/-- What the lines of a function have in the pool the program ends with: its name, and the
constants it refers to. -/
structure Laid (pool : List Const) (r : FnRec) (ls : List Line) : Prop where
  named : ∀ x, r.name = some x → ∃ i, poolIdx (.sym x) pool = some i
  lines : ∃ start, ls = (asm (fuse r.code) 0 start).1 ∧ (asm (fuse r.code) 0 start).2 <+: pool

theorem flattenAll_cons (r : FnRec) (rest : List FnRec) (pool : List Const) :
    flattenAll (r :: rest) pool =
      (r.bytecode (asm (fuse r.code) 0 (namePool r.name pool)).1 ::
        (flattenAll rest (asm (fuse r.code) 0 (namePool r.name pool)).2).1,
        (flattenAll rest (asm (fuse r.code) 0 (namePool r.name pool)).2).2) := by
  obtain ⟨fid, name, nargs, code⟩ := r
  cases name with
  | none => simp only [flattenAll, flat2_asm (fuse code) [] _ rfl]; rfl
  | some s => simp only [flattenAll, flat2_asm (fuse code) [] _ rfl]; rfl

theorem flattenAll_eq (rs : List FnRec) : ∀ pool : List Const,
    (flattenAll rs pool).1 = (flattenLines rs pool).map fun e => e.1.bytecode e.2 := by
  induction rs with
  | nil => exact fun _ => rfl
  | cons r rest ih =>
      intro pool
      rw [flattenAll_cons, ih]
      rfl

theorem flattenLines_fst (rs : List FnRec) : ∀ pool : List Const,
    (flattenLines rs pool).map Prod.fst = rs := by
  induction rs with
  | nil => exact fun _ => rfl
  | cons r rest ih => exact fun pool => congrArg (r :: ·) (ih _)

theorem namePool_extends (name : Option Symbol) (pool : List Const) : pool <+: namePool name pool := by
  cases name with
  | none => exact List.prefix_refl _
  | some s => exact poolAdd_extends _ _

/-- Every function is laid out with the constants of the final pool. -/
theorem flattenLines_laid (rs : List FnRec) : ∀ pool : List Const,
    pool <+: (flattenAll rs pool).2 ∧
      ∀ e ∈ flattenLines rs pool, Laid (flattenAll rs pool).2 e.1 e.2 := by
  induction rs with
  | nil => exact fun pool => ⟨List.prefix_refl _, nofun⟩
  | cons r rest ih =>
      intro pool
      obtain ⟨hpool, hrest⟩ := ih (asm (fuse r.code) 0 (namePool r.name pool)).2
      have hname := (asm_extends (fuse r.code) 0 (namePool r.name pool)).trans hpool
      rw [flattenAll_cons]
      refine ⟨(namePool_extends r.name pool).trans hname,
        List.forall_mem_cons.mpr ⟨⟨?_, _, rfl, hpool⟩, hrest⟩⟩
      intro x hx
      have hx' : r.name = some x := hx
      rw [hx'] at hname
      exact ⟨_, poolIdx_mono (poolIdx_poolAdd_sym x pool) (hx' ▸ hname)⟩

end TinyActor.Bootstrap
