/-
From instruction trees to words: the passes of `lib/bootstrap/compile.ta` after
code generation, and `compile` itself.

`fuse` merges neighbouring instructions, `flat2` lays the tree out as a stream of
words, with the constants in a pool and the jumps filled in once their targets are
known, and `depth` walks the same tree for the height of the frame.
-/
import TinyActor.Bootstrap.Codegen
import TinyActor.Vm.Load

namespace TinyActor.Bootstrap

open TinyActor.Vm (Symbol Arith Cmp opGlobal opGlobP)

/-! ### Opcodes

Those of `GLOBAL` and `GLOBP` stand with the linker, which looks for them. -/

def Cmp.code : Cmp → Int
  | .lt => 10
  | .le => 11
  | .gt => 12
  | .ge => 13
  | .eq => 14

def Arith.code : Arith → Int
  | .add => 5
  | .sub => 6
  | .mul => 7

def Op.code : Op → Int
  | .arith op => Arith.code op
  | .div => 8
  | .mod => 9
  | .cmp op => Cmp.code op
  | .pairP => 15
  | .symP => 16
  | .cons => 17
  | .car => 18
  | .cdr => 19

def opConst : Int := 0
def opLoad : Int := 1
def opStore : Int := 2
def opLoadF : Int := 3
def opPush : Int := 4
def opAdd : Int := 5
def opLt : Int := 10
def opJif : Int := 20
def opJump : Int := 21
def opCall : Int := 22
def opTcall : Int := 23
def opRet : Int := 24
def opMakeClosure : Int := 25
def opReserve : Int := 27
def opBuiltin : Int := 28
def opLoadP : Int := 29
def opConstP : Int := 30
def opJifLt : Int := 32
def opConstI : Int := 37
def opAddI : Int := 38
def opJifEqI : Int := 40

/-! ### Fusion -/

/-- The comparison a list of instructions ends with. -/
def lastCmp (code : List Ins) : Option Cmp :=
  match code.getLast? with
  | some (.op (.cmp op)) => some op
  | _ => none

/-- The literal a list of instructions ends with. -/
def tailConstI (code : List Ins) : Option (BitVec 48) :=
  match code.getLast? with
  | some (.constI imm) => some imm
  | _ => none

/-- A conditional whose condition ends with a comparison. -/
def fuseIf (fc yes no : List Ins) : Ins :=
  match lastCmp fc with
  | some op =>
      match tailConstI fc.dropLast with
      | some imm =>
          if op = .eq then .ifI imm fc.dropLast.dropLast yes no else .ifP op fc.dropLast yes no
      | none => .ifP op fc.dropLast yes no
  | none => .ifE fc yes no

/-- The operators with an immediate form. -/
def arithIP (op : Arith) : Bool := op = .add || op = .sub

mutual

def fuseIns : Ins → Ins
  | .ifE cond yes no => fuseIf (fuse cond) (fuse yes) (fuse no)
  | i => i

def fuse : List Ins → List Ins
  | [] => []
  | .load s :: .push :: more => .loadP s :: fuse more
  | .const a :: .push :: more => .constP a :: fuse more
  | .constI a :: .op (.arith op) :: more =>
      if arithIP op then .opI op a :: fuse more
      else .constI a :: .op (.arith op) :: fuse more
  | .glob x :: .push :: more => .globP x :: fuse more
  | i :: rest => fuseIns i :: fuse rest

end

/-! ### The word stream -/

/-- Equality of constants.  Two floats are never the same: their texts are not
compared. -/
def constEq : Const → Const → Bool
  | .float _, _ => false
  | a, b => a = b

def poolIdx (c : Const) (pool : List Const) : Option Nat :=
  pool.findIdx? fun h => constEq h c

/-- The index of a constant and the pool that has it. -/
def poolAdd (c : Const) (pool : List Const) : Nat × List Const :=
  match poolIdx c pool with
  | some i => (i, pool)
  | none => (pool.length, pool ++ [c])

mutual

def flatIns : Ins → List Int → List Const → List Int × List Const
  | .const c, ws, pool => (ws ++ [opConst, ((poolAdd c pool).1 : Int)], (poolAdd c pool).2)
  | .constP c, ws, pool => (ws ++ [opConstP, ((poolAdd c pool).1 : Int)], (poolAdd c pool).2)
  | .constI imm, ws, pool => (ws ++ [opConstI, imm.toInt], pool)
  | .load s, ws, pool => (ws ++ [opLoad, (s : Int)], pool)
  | .loadP s, ws, pool => (ws ++ [opLoadP, (s : Int)], pool)
  | .loadF k, ws, pool => (ws ++ [opLoadF, (k : Int)], pool)
  | .store s, ws, pool => (ws ++ [opStore, (s : Int)], pool)
  | .glob x, ws, pool =>
      (ws ++ [opGlobal, ((poolAdd (.sym x) pool).1 : Int)], (poolAdd (.sym x) pool).2)
  | .globP x, ws, pool =>
      (ws ++ [opGlobP, ((poolAdd (.sym x) pool).1 : Int)], (poolAdd (.sym x) pool).2)
  | .push, ws, pool => (ws ++ [opPush], pool)
  | .op op, ws, pool => (ws ++ [op.code], pool)
  | .opI op imm, ws, pool => (ws ++ [Arith.code op - opAdd + opAddI, imm.toInt], pool)
  | .call n, ws, pool => (ws ++ [opCall, (n : Int)], pool)
  | .tcall n, ws, pool => (ws ++ [opTcall, (n : Int)], pool)
  | .builtin id n, ws, pool => (ws ++ [opBuiltin, (id : Int), (n : Int)], pool)
  | .clos fid nfree, ws, pool => (ws ++ [opMakeClosure, (fid : Int), (nfree : Int)], pool)
  | .ret k, ws, pool => (ws ++ [opRet, (k : Int)], pool)
  | .reserve n, ws, pool => (ws ++ [opReserve, (n : Int)], pool)
  | .ifE cond yes no, ws, pool =>
      -- cond; JIF no; yes; JUMP end; no
      let a := flat2 cond ws pool
      let ji := a.1.length
      let t := flat2 yes (a.1 ++ [opJif, 0]) a.2
      let wc := t.1 ++ [opJump, 0]
      let jp := wc.length - 1
      let e := flat2 no wc t.2
      ((e.1.set (ji + 1) ((jp + 1 : Nat) : Int)).set jp (e.1.length : Int), e.2)
  | .ifP op cond yes no, ws, pool =>
      let a := flat2 cond ws pool
      let ji := a.1.length
      let wb := a.1 ++ [Cmp.code op - opLt + opJifLt, 0, 0]
      let t := flat2 yes wb a.2
      let wc := t.1 ++ [opJump, 0]
      let jp := wc.length - 1
      let e := flat2 no wc t.2
      (((e.1.set (ji + 1) (wb.length : Int)).set (ji + 2) ((jp + 1 : Nat) : Int)).set jp
        (e.1.length : Int), e.2)
  | .ifI imm cond yes no, ws, pool =>
      let a := flat2 cond ws pool
      let ji := a.1.length
      let wb := a.1 ++ [opJifEqI, imm.toInt, 0, 0]
      let t := flat2 yes wb a.2
      let wc := t.1 ++ [opJump, 0]
      let jp := wc.length - 1
      let e := flat2 no wc t.2
      (((e.1.set (ji + 2) (wb.length : Int)).set (ji + 3) ((jp + 1 : Nat) : Int)).set jp
        (e.1.length : Int), e.2)

/-- Append the words of the instructions to the words before them. -/
def flat2 : List Ins → List Int → List Const → List Int × List Const
  | [], ws, pool => (ws, pool)
  | i :: rest, ws, pool => flat2 rest (flatIns i ws pool).1 (flatIns i ws pool).2

end

/-! ### The height of a frame -/

/-- The operators that take an operand off the stack. -/
def binopP (op : Op) : Bool := (5 ≤ op.code && op.code ≤ 14) || op.code = 17

mutual

/-- The depth after an instruction and the greatest depth so far. -/
def depthIns : Ins → Int → Int → Int × Int
  | .reserve n, d, m => (d + n, max (d + n) m)
  | .push, d, m | .loadP _, d, m | .constP _, d, m | .globP _, d, m => (d + 1, max (d + 1) m)
  | .op op, d, m => if binopP op then (d - 1, m) else (d, m)
  | .opI op _, d, m => if binopP (.arith op) then (d - 1, m) else (d, m)
  | .call n, d, m | .tcall n, d, m => (d + 1 - n, max (d + 4) m)
  | .builtin _ n, d, m => (d, max (d + n - 1) m)
  | .clos _ nfv, d, m => (d + 1 - nfv, max (d + 1 - nfv) m)
  | .ifE cond yes no, d, m =>
      let c := depth cond d m
      let t := depth yes c.1 c.2
      depth no t.1 t.2
  | .ifP _ cond yes no, d, m | .ifI _ cond yes no, d, m =>
      let c := depth cond d m
      let t := depth yes (c.1 - 1) c.2
      depth no t.1 t.2
  | _, d, m => (d, m)

def depth : List Ins → Int → Int → Int × Int
  | [], d, m => (d, m)
  | i :: rest, d, m => depth rest (depthIns i d m).1 (depthIns i d m).2

end

/-! ### Programs -/

/-- A function as it is written out. -/
structure FnBC where
  name : Option Symbol
  nargs : Nat
  maxd : Int
  words : List Int
deriving Repr, DecidableEq

inductive Out
  | out (fns : List FnBC) (consts : List Const)
  | fail (msg : String)
deriving Repr, DecidableEq

def flattenAll : List FnRec → List Const → List FnBC × List Const
  | [], pool => ([], pool)
  | ⟨_, name, nargs, code⟩ :: rest, pool =>
      let p0 := match name with
        | some s => (poolAdd (.sym s) pool).2
        | none => pool
      let fc := fuse code
      let w := flat2 fc [] p0
      let r := flattenAll rest w.2
      (⟨name, nargs, (depth fc (nargs + 4) (nargs + 4)).2, w.1⟩ :: r.1, r.2)

/-- The numbers of the defines, or the name defined twice. -/
def collectGlobals : List Top → Nat → Binds → Except String (Binds × Nat)
  | [], nextId, acc => .ok (acc, nextId)
  | .define name _ :: rest, nextId, acc =>
      if acc.lookup name = none then collectGlobals rest (nextId + 1) (acc ++ [(name, nextId)])
      else .error ("duplicate global: " ++ name)
  | .expr _ :: rest, nextId, acc => collectGlobals rest nextId acc

def renderNames : List Symbol → String
  | [] => ""
  | h :: rest => h ++ (" " ++ renderNames rest)

def undefMsg (place : String) (names : List Symbol) : String :=
  "undefined name(s) in " ++ (place ++ (": " ++ renderNames names))

/-- What is wrong with the names of a program. -/
def checkNames : List Top → List Symbol → Binds → Option String
  | [], _, _ => none
  | .define name (.lambda params body) :: rest, bound, g =>
      let fv := freeVars body params bound g
      if fv.isEmpty then checkNames rest bound g
      else some (undefMsg ("define " ++ name) fv)
  | .define name _ :: _, _, _ => some ("define value must be a lambda: " ++ name)
  | .expr e :: rest, bound, g =>
      let fv := freeVars e bound [] g
      if fv.isEmpty then checkNames rest (introduced e ++ bound) g
      else some (undefMsg "top level" fv)

/-- The code of the entry; the defines only leave their functions in the context. -/
def compileProgram (g : Binds) : List Top → Ctx → List Ins × Ctx
  | [], c => ([], c)
  | .define name (.lambda params body) :: rest, c =>
      let fvs := captured params body g c
      let r := closeLambda params fvs c (some name) (g.lookup name)
        (compileExpr g body (bodyCtx params fvs c) true)
      compileProgram g rest r.2
  | .define _ _ :: rest, c => compileProgram g rest c
  | .expr e :: rest, c =>
      let r1 := compileExpr g e c false
      let r2 := compileProgram g rest r1.2
      (r1.1 ++ r2.1, r2.2)

/-- The functions of a program, the entry first. -/
def programFns (g : Binds) (nid : Nat) (prog : List Top) : List FnRec :=
  let r := compileProgram g prog ⟨[], [], 4, nid, []⟩
  insertFn ⟨0, none, 0, .reserve (r.2.nextSlot - 4) :: (r.1 ++ [.ret 0])⟩ r.2.fns

def compile (prog : List Top) : Out :=
  match collectGlobals prog 1 [] with
  | .error msg => .fail msg
  | .ok (g, nid) =>
      match checkNames prog [] g with
      | some msg => .fail msg
      | none =>
          let r := flattenAll (programFns g nid prog) []
          .out r.1 r.2

end TinyActor.Bootstrap
