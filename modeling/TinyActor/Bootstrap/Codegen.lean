/-
The code generator of `lib/bootstrap/compile.ta`: from expressions to trees of
instructions.

The generator threads a context through the expression: the names that have a slot
in the current frame, the names the current function captures, the next free slot,
the next function number and the functions compiled so far.  A sub-expression hands
back the context it ends with, names included; `introduced` says which names are
meant to stay visible, and `freeVars` resolves names by it.
-/
import TinyActor.Bootstrap.Ast
import Mathlib.Data.List.Basic

namespace TinyActor.Bootstrap

open TinyActor.Vm (Symbol Arith Cmp)

/-! ### Operators, host functions and primitives -/

/-- The operators with an opcode of their own. -/
inductive Op
  | arith (op : Arith)
  | div
  | mod
  | cmp (op : Cmp)
  | pairP
  | symP
  | cons
  | car
  | cdr
deriving DecidableEq, Repr

/-- How many operands an operator takes. -/
inductive OpKind
  | binOp (op : Op)
  | unOp (op : Op)
  | notAnOp
deriving DecidableEq, Repr

def opKind (name : Symbol) : OpKind :=
  match name with
  | "+" => .binOp (.arith .add)
  | "-" => .binOp (.arith .sub)
  | "*" => .binOp (.arith .mul)
  | "/" => .binOp .div
  | "%" => .binOp .mod
  | "modulo" => .binOp .mod
  | "=" => .binOp (.cmp .eq)
  | "eq?" => .binOp (.cmp .eq)
  | "<" => .binOp (.cmp .lt)
  | "<=" => .binOp (.cmp .le)
  | ">" => .binOp (.cmp .gt)
  | ">=" => .binOp (.cmp .ge)
  | "cons" => .binOp .cons
  | "car" => .unOp .car
  | "cdr" => .unOp .cdr
  | "pair?" => .unOp .pairP
  | "symbol?" => .unOp .symP
  | _ => .notAnOp

def bareCfunc (name : Symbol) : Bool :=
  name ∈ ["print", "int?", "string?", "bytes?", "pid?", "float?", "bool?", "list?",
    "map?", "nil?"]

/-- The actor primitives, by the number the instruction carries. -/
def builtinId (name : Symbol) : Option Nat :=
  match name with
  | "self" => some 0
  | "spawn" => some 1
  | "send" => some 2
  | "recv" => some 3
  | "recv_after" => some 5
  | "recv_peek" => some 6
  | "recv_commit" => some 7
  | "monitor" => some 4
  | _ => none

def bSpawn : Nat := 1

/-- A name with a dot is a host function of a module. -/
def hasDot (s : String) : Bool := s.toList.contains '.'

def libCfuncHead (name : Symbol) : Bool := bareCfunc name || hasDot name

def opName (name : Symbol) : Bool :=
  match opKind name with
  | .notAnOp => false
  | _ => true

def isBuiltin (name : Symbol) : Bool := (builtinId name).isSome

/-- A name with the slot, the capture index or the function number it stands for. -/
abbrev Binds := List (Symbol × Nat)

/-- A name that stands for something without being bound around its use. -/
def resolvable (name : Symbol) (g : Binds) : Bool :=
  (g.lookup name).isSome || libCfuncHead name || isBuiltin name

/-- The head of a call is dealt with by its name if it is a symbol, and as an
expression otherwise. -/
def Expr.onHead {α : Type} (callee : Expr) (name : Symbol → α) (other : α) : α :=
  match callee with
  | .sym x => name x
  | _ => other

/-! ### Free variables -/

mutual

/-- The names an expression leaves visible to what is evaluated after it in the same
sequence. -/
def introduced : Expr → List Symbol
  | .const _ | .sym _ | .lambda _ _ => []
  | .letE name _ body => name :: introduced body
  | .ifE cond _ _ => introduced cond
  | .begin forms => introducedSeq forms
  | .call callee args => introduced callee ++ introducedSeq args

def introducedSeq : List Expr → List Symbol
  | [] => []
  | h :: rest => introduced h ++ introducedSeq rest

end

/-- Keep the first occurrence of each name. -/
def uniq (xs : List Symbol) : List Symbol := go xs []
where
  go : List Symbol → List Symbol → List Symbol
    | [], acc => acc.reverse
    | h :: rest, acc => if h ∈ acc then go rest acc else go rest (h :: acc)

/-- A name bound in the function itself is not free; one visible around the function
is, whatever else it stands for; any other is unless it is resolvable. -/
def freeSym (name : Symbol) (bound outer : List Symbol) (g : Binds) : List Symbol :=
  if name ∈ bound then []
  else if name ∈ outer then [name]
  else if resolvable name g then []
  else [name]

mutual

/-- The free names of an expression, in the order they are met. -/
def freeVars : Expr → List Symbol → List Symbol → Binds → List Symbol
  | .const _, _, _, _ => []
  | .sym name, bound, outer, g => freeSym name bound outer g
  | .lambda params body, bound, outer, g => freeVars body (params ++ bound) outer g
  | .letE name init body, bound, outer, g =>
      uniq (freeVars init bound outer g ++ freeVars body (name :: bound) outer g)
  | .ifE cond yes no, bound, outer, g =>
      let b1 := introduced cond ++ bound
      uniq (freeVars cond bound outer g ++
        (freeVars yes b1 outer g ++ freeVars no b1 outer g))
  | .begin forms, bound, outer, g => uniq (freeSeq forms bound outer g)
  | .call callee args, bound, outer, g =>
      -- the head of a call is no reference if it is an operator
      let head := callee.onHead
        (fun name => if opName name then [] else freeSym name bound outer g)
        (freeVars callee bound outer g)
      uniq (head ++ freeSeq args (introduced callee ++ bound) outer g)

/-- The forms of a sequence are evaluated in turn, and what one introduces the next
ones see. -/
def freeSeq : List Expr → List Symbol → List Symbol → Binds → List Symbol
  | [], _, _, _ => []
  | h :: rest, bound, outer, g =>
      freeVars h bound outer g ++ freeSeq rest (introduced h ++ bound) outer g

end

/-! ### Instructions -/

/-- The instruction tree.  Only conditionals have parts. -/
inductive Ins
  | const (c : Const)
  | constI (imm : BitVec 48)
  | load (slot : Nat)
  | loadF (idx : Nat)
  | loadP (slot : Nat)
  | constP (c : Const)
  | globP (name : Symbol)
  | store (slot : Nat)
  | glob (name : Symbol)
  | push
  | op (op : Op)
  | opI (op : Arith) (imm : BitVec 48)
  | call (n : Nat)
  | tcall (n : Nat)
  | builtin (id n : Nat)
  | clos (fid nfree : Nat)
  | ret (nargs : Nat)
  | reserve (n : Nat)
  | ifE (cond yes no : List Ins)
  /-- Comparison and jump in one: the comparison is stripped off `cond`. -/
  | ifP (op : Cmp) (cond yes no : List Ins)
  /-- Equality with a literal and jump in one. -/
  | ifI (imm : BitVec 48) (cond yes no : List Ins)
deriving Repr

/-- A compiled function.  A define has a name, the entry and the lambdas have none. -/
structure FnRec where
  fid : Nat
  name : Option Symbol
  nargs : Nat
  code : List Ins
deriving Repr

structure Ctx where
  locals : Binds
  upvals : Binds
  nextSlot : Nat
  nextFnid : Nat
  fns : List FnRec
deriving Repr

/-- The functions in order of their numbers. -/
def insertFn (fr : FnRec) : List FnRec → List FnRec
  | [] => [fr]
  | f2 :: rest => if fr.fid < f2.fid then fr :: f2 :: rest else f2 :: insertFn fr rest

/-! ### Code generation -/

def constIns : Const → List Ins
  | .int v => [.constI v]
  | c => [.const c]

/-- A variable: a slot of the frame, a captured value, or else a global. -/
def compileRef (name : Symbol) (c : Ctx) : List Ins :=
  match c.locals.lookup name with
  | some slot => [.load slot]
  | none =>
      match c.upvals.lookup name with
      | some idx => [.loadF idx]
      | none => [.glob name]

/-- A name in the head of a call. -/
def compileHead (name : Symbol) (g : Binds) (c : Ctx) : List Ins :=
  if c.locals.lookup name = none ∧ g.lookup name = none ∧ libCfuncHead name then [.glob name]
  else compileRef name c

def paramBindings : List Symbol → Nat → Binds
  | [], _ => []
  | p :: rest, slot => (p, slot) :: paramBindings rest (slot + 1)

def indexBindings : List Symbol → Nat → Binds
  | [], _ => []
  | h :: rest, i => (h, i) :: indexBindings rest (i + 1)

def bindNames (binds : Binds) : List Symbol := binds.map Prod.fst

/-- Where the enclosing function finds a name its lambda captures.  The index of a
name that is nowhere is never used: captured names are visible ones. -/
def freeLoad (name : Symbol) (env up : Binds) : Ins :=
  match env.lookup name with
  | some slot => .load slot
  | none => .loadF ((up.lookup name).getD 0)

/-- Load the captured values, pushing all but the last. -/
def freeLoads : List Symbol → Binds → Binds → List Ins
  | [], _, _ => []
  | [f], env, up => [freeLoad f env up]
  | f :: rest, env, up => freeLoad f env up :: .push :: freeLoads rest env up

def callIns (tail : Bool) (n : Nat) : Ins := if tail then .tcall n else .call n

/-- The opcode of a call that is an operator with all its operands. -/
def operator (callee : Expr) (nargs : Nat) : Option Op :=
  match callee with
  | .sym name =>
      match opKind name with
      | .binOp op => if nargs = 2 then some op else none
      | .unOp op => if nargs = 1 then some op else none
      | .notAnOp => none
  | _ => none

/-- The primitive a call is, if it is one. -/
def primitive : Expr → Option Nat
  | .sym name => builtinId name
  | _ => none

/-- The end of `compile_lambda`: the function is complete once its body is compiled.
A lambda takes its number here, a define has brought its own. -/
def closeLambda (params fvs : List Symbol) (c : Ctx) (name : Option Symbol) (fid : Option Nat)
    (body : List Ins × Ctx) : List Ins × Ctx :=
  let nargs := params.length
  let code := .reserve (body.2.nextSlot - nargs - 4) :: (body.1 ++ [.ret nargs])
  let myfid := fid.getD body.2.nextFnid
  let next := if fid.isNone then body.2.nextFnid + 1 else body.2.nextFnid
  let pool := insertFn ⟨myfid, name, nargs, code⟩ body.2.fns
  (freeLoads fvs c.locals c.upvals ++ [.clos myfid fvs.length],
    { c with nextFnid := next, fns := pool })

/-- The context of a function's body: arguments in slots from one, captured names by
their index, locals above the three words of the return frame. -/
def bodyCtx (params fvs : List Symbol) (c : Ctx) : Ctx where
  locals := paramBindings params 1
  upvals := indexBindings fvs 0
  nextSlot := params.length + 4
  nextFnid := c.nextFnid
  fns := c.fns

/-- The names a lambda captures where it stands. -/
def captured (params : List Symbol) (body : Expr) (g : Binds) (c : Ctx) : List Symbol :=
  freeVars body params (bindNames c.locals ++ bindNames c.upvals) g

/-- `spawn` of a quoted name is the function of that name. -/
def spawnTarget (bid : Nat) (args : List Expr) (g : Binds) : Option Nat :=
  match args with
  | [.const (.sym name)] => if bid = bSpawn then g.lookup name else none
  | _ => none

mutual

def compileExpr (g : Binds) : Expr → Ctx → Bool → List Ins × Ctx
  | .const x, c, _ => (constIns x, c)
  | .sym name, c, _ => (compileRef name c, c)
  | .lambda params body, c, _ =>
      let fvs := captured params body g c
      closeLambda params fvs c none none (compileExpr g body (bodyCtx params fvs c) true)
  | .letE name init body, c, tail =>
      let r1 := compileExpr g init c false
      let ns := r1.2.nextSlot
      let r2 := compileExpr g body
        { r1.2 with locals := (name, ns) :: r1.2.locals, nextSlot := ns + 1 } tail
      (r1.1 ++ .store ns :: r2.1, r2.2)
  | .ifE cond yes no, c, tail =>
      let r1 := compileExpr g cond c false
      let r2 := compileExpr g yes r1.2 tail
      -- the names the first branch bound are dropped, its slots are not
      let r3 := compileExpr g no { r2.2 with locals := r1.2.locals, upvals := r1.2.upvals } tail
      ([.ifE r1.1 r2.1 r3.1], r3.2)
  | .begin forms, c, tail => compileBegin g forms c tail
  | .call callee args, c, tail =>
      match operator callee args.length with
      | some op =>
          -- `compile_binop`, `compile_unop`: the operands as the arguments of a call
          let r := compileArgs g args c
          (r.1 ++ [.op op], r.2)
      | none =>
          match primitive callee with
          | some bid =>
              match spawnTarget bid args g with
              | some fid => ([.clos fid 0, .builtin bSpawn 1], c)
              | none =>
                  let r := compileArgs g args c
                  (r.1 ++ [.builtin bid args.length], r.2)
          | none =>
              let r1 := callee.onHead (fun name => (compileHead name g c, c))
                (compileExpr g callee c false)
              let call := callIns tail (args.length + 1)
              if args.isEmpty then (r1.1 ++ [call], r1.2)
              else
                let r2 := compileArgs g args r1.2
                (r1.1 ++ .push :: (r2.1 ++ [call]), r2.2)

def compileBegin (g : Binds) : List Expr → Ctx → Bool → List Ins × Ctx
  | [], c, _ => (constIns .nil, c)
  | [one], c, tail => compileExpr g one c tail
  | h :: rest, c, tail =>
      let r1 := compileExpr g h c false
      let r2 := compileBegin g rest r1.2 tail
      (r1.1 ++ r2.1, r2.2)

/-- All arguments but the last are pushed. -/
def compileArgs (g : Binds) : List Expr → Ctx → List Ins × Ctx
  | [], c => ([], c)
  | [last], c => compileExpr g last c false
  | h :: rest, c =>
      let r1 := compileExpr g h c false
      let r2 := compileArgs g rest r1.2
      (r1.1 ++ .push :: r2.1, r2.2)

end

end TinyActor.Bootstrap
