/-
What scope is meant to be, as a code generator of its own.

Scope in kl is sequential: the name a `let` binds is visible in its body and in
whatever is evaluated after the `let` in the same sequence, be it the next form of
a block, the next argument of a call or the branches of the conditional it is the
condition of.  It is not visible after the initialiser or the branch it was bound
in.  `introduced` says this of names; the generator here says it of code.

It knows nothing of how the source finds names.  A name is read where its binder in
scope is: in the slot the binder filled, the latest binder first; or else among the
values of the closure, if it is one of the variables the function uses of those visible
where it stands, each taken once, in the order of their first use; or else it is a
global.  The head of a call is read like any other variable, and a define has nothing
around it.

The generator of the source keeps the names of an initialiser and of a second branch.
They do harm only when they are used: a name is stray from the end of the expression
that bound it until it is bound again.
-/
import TinyActor.Bootstrap.Flatten

namespace TinyActor.Bootstrap

open TinyActor.Vm (Symbol)

/-! ### Names that are used -/

mutual

/-- The names an expression uses without binding them itself. -/
def refs : Expr → List Symbol → List Symbol
  | .const _, _ => []
  | .sym name, bound => if name ∈ bound then [] else [name]
  | .lambda params body, bound => refs body (params ++ bound)
  | .letE name init body, bound => refs init bound ++ refs body (name :: bound)
  | .ifE cond yes no, bound =>
      refs cond bound ++
        (refs yes (introduced cond ++ bound) ++ refs no (introduced cond ++ bound))
  | .begin forms, bound => refsSeq forms bound
  | .call callee args, bound =>
      callee.onHead (fun name => if opName name || name ∈ bound then [] else [name])
        (refs callee bound) ++ refsSeq args (introduced callee ++ bound)

def refsSeq : List Expr → List Symbol → List Symbol
  | [], _ => []
  | h :: rest, bound => refs h bound ++ refsSeq rest (introduced h ++ bound)

end

/-! ### Scope -/

/-- What is in scope at a point of a function, and how far the output has come. -/
structure Scope where
  /-- The binders of the function itself and their slots, the latest first. -/
  own : List (Symbol × Nat)
  /-- The variables from around the function, in the order of the closure's values. -/
  around : List Symbol
  nextSlot : Nat
  nextFnid : Nat
  fns : List FnRec

namespace Scope

/-- Where a variable is read. -/
def read (s : Scope) (x : Symbol) : Ins :=
  match s.own.lookup x with
  | some slot => .load slot
  | none => if x ∈ s.around then .loadF (s.around.idxOf x) else .glob x

/-- The variables a function needs from where it stands: those it uses, without binding them,
that are visible here. -/
def needs (s : Scope) (params : List Symbol) (body : Expr) : List Symbol :=
  ((refs body params).filter fun x => x ∈ s.own.map Prod.fst || x ∈ s.around).eraseDups

/-- The scope of a function's body: the arguments are in the slots from one, and the locals
above the three words of the return frame. -/
def inside (s : Scope) (params around : List Symbol) : Scope :=
  { s with own := params.zipIdx 1, around := around, nextSlot := params.length + 4 }

/-- What is in scope in `s` again, after the code that led to `d`. -/
def back (s d : Scope) : Scope := { d with own := s.own, around := s.around }

/-- A new binder. -/
def bind (s : Scope) (x : Symbol) : Scope :=
  { s with own := (x, s.nextSlot) :: s.own, nextSlot := s.nextSlot + 1 }

/-- A function is complete once its body is: its number, and the scope it stands in. -/
def close (s : Scope) (params : List Symbol) (name : Option Symbol) (fid : Option Nat)
    (body : List Ins × Scope) : Nat × Scope :=
  let n := params.length
  let num := fid.getD body.2.nextFnid
  let code := .reserve (body.2.nextSlot - n - 4) :: (body.1 ++ [.ret n])
  (num, { s with
    nextFnid := if fid.isNone then body.2.nextFnid + 1 else body.2.nextFnid
    fns := insertFn ⟨num, name, n, code⟩ body.2.fns })

end Scope

/-! ### The generator -/

mutual

def scopedExpr (g : Binds) : Expr → Scope → Bool → List Ins × Scope
  | .const x, s, _ => (constIns x, s)
  | .sym name, s, _ => ([s.read name], s)
  | .lambda params body, s, _ =>
      let around := s.needs params body
      let r := s.close params none none (scopedExpr g body (s.inside params around) true)
      ((around.map s.read).intersperse .push ++ [.clos r.1 around.length], r.2)
  | .letE name init body, s, tail =>
      let r1 := scopedExpr g init s false
      let r2 := scopedExpr g body ((s.back r1.2).bind name) tail
      (r1.1 ++ .store r1.2.nextSlot :: r2.1, r2.2)
  | .ifE cond yes no, s, tail =>
      let r1 := scopedExpr g cond s false
      let r2 := scopedExpr g yes r1.2 tail
      let r3 := scopedExpr g no (r1.2.back r2.2) tail
      ([.ifE r1.1 r2.1 r3.1], r1.2.back r3.2)
  | .begin forms, s, tail => scopedBegin g forms s tail
  | .call callee args, s, tail =>
      match operator callee args.length with
      | some op =>
          let r := scopedArgs g args s
          (r.1 ++ [.op op], r.2)
      | none =>
          match primitive callee with
          | some bid =>
              match spawnTarget bid args g with
              | some fid => ([.clos fid 0, .builtin bSpawn 1], s)
              | none =>
                  let r := scopedArgs g args s
                  (r.1 ++ [.builtin bid args.length], r.2)
          | none =>
              let r1 := scopedExpr g callee s false
              let call := callIns tail (args.length + 1)
              if args.isEmpty then (r1.1 ++ [call], r1.2)
              else
                let r2 := scopedArgs g args r1.2
                (r1.1 ++ .push :: (r2.1 ++ [call]), r2.2)

def scopedBegin (g : Binds) : List Expr → Scope → Bool → List Ins × Scope
  | [], s, _ => (constIns .nil, s)
  | [one], s, tail => scopedExpr g one s tail
  | h :: rest, s, tail =>
      let r1 := scopedExpr g h s false
      let r2 := scopedBegin g rest r1.2 tail
      (r1.1 ++ r2.1, r2.2)

def scopedArgs (g : Binds) : List Expr → Scope → List Ins × Scope
  | [], s => ([], s)
  | [last], s => scopedExpr g last s false
  | h :: rest, s =>
      let r1 := scopedExpr g h s false
      let r2 := scopedArgs g rest r1.2
      (r1.1 ++ .push :: r2.1, r2.2)

end

def scopedProgram (g : Binds) : List Top → Scope → List Ins × Scope
  | [], s => ([], s)
  | .define name (.lambda params body) :: rest, s =>
      let r := s.close params (some name) (g.lookup name) (scopedExpr g body (s.inside params []) true)
      scopedProgram g rest r.2
  | .define _ _ :: rest, s => scopedProgram g rest s
  | .expr e :: rest, s =>
      let r1 := scopedExpr g e s false
      let r2 := scopedProgram g rest r1.2
      (r1.1 ++ r2.1, r2.2)

def scopedFns (g : Binds) (nid : Nat) (prog : List Top) : List FnRec :=
  let r := scopedProgram g prog ⟨[], [], 4, nid, []⟩
  insertFn ⟨0, none, 0, .reserve (r.2.nextSlot - 4) :: (r.1 ++ [.ret 0])⟩ r.2.fns

/-- The compiler with this generator in the place of its own. -/
def scopedCompile (prog : List Top) : Out :=
  match collectGlobals prog 1 [] with
  | .error msg => .fail msg
  | .ok (g, nid) =>
      match checkNames prog [] g with
      | some msg => .fail msg
      | none =>
          let r := flattenAll (scopedFns g nid prog) []
          .out r.1 r.2

/-! ### Stray names -/

mutual

/-- The names the generator of the source adds to the frame's names. -/
def frameNames : Expr → List Symbol
  | .const _ | .sym _ | .lambda _ _ => []
  | .letE name init body => name :: (frameNames init ++ frameNames body)
  | .ifE cond _ no => frameNames cond ++ frameNames no
  | .begin forms => frameNamesSeq forms
  | .call callee args => frameNames callee ++ frameNamesSeq args

def frameNamesSeq : List Expr → List Symbol
  | [] => []
  | h :: rest => frameNames h ++ frameNamesSeq rest

end

/-- The stray names in the body of a `let`. -/
def strayLet (name : Symbol) (init : Expr) (stray : List Symbol) : List Symbol :=
  (frameNames init ++ stray).filter (· ≠ name)

mutual

/-- The stray names after an expression, from those before it. -/
def strayAfter : Expr → List Symbol → List Symbol
  | .const _, stray | .sym _, stray | .lambda _ _, stray => stray
  | .letE name init body, stray => strayAfter body (strayLet name init stray)
  | .ifE cond _ no, stray => frameNames no ++ strayAfter cond stray
  | .begin forms, stray => strayAfterSeq forms stray
  | .call callee args, stray => strayAfterSeq args (strayAfter callee stray)

def strayAfterSeq : List Expr → List Symbol → List Symbol
  | [], stray => stray
  | h :: rest, stray => strayAfterSeq rest (strayAfter h stray)

end

/-- A name in the head of a call is looked up as the variable it is: it is not stray,
and not the name of a host function that is captured from around the function. -/
def headClean (g : Binds) (name : Symbol) (own outer stray : List Symbol) : Bool :=
  name ∉ stray && (name ∈ own || name ∉ outer || (g.lookup name).isSome || !libCfuncHead name)

mutual

/-- No stray name is used, and no captured variable that is called has the name of a
host function.  `own` are the names bound in the function so far, `outer` the names
around it. -/
def clean (g : Binds) : Expr → List Symbol → List Symbol → List Symbol → Bool
  | .const _, _, _, _ => true
  | .sym name, _, _, stray => name ∉ stray
  | .lambda params body, own, outer, stray =>
      ((refs body params).all fun x => x ∉ stray) && clean g body params (own ++ outer) []
  | .letE name init body, own, outer, stray =>
      clean g init own outer stray &&
        clean g body (name :: own) outer (strayLet name init stray)
  | .ifE cond yes no, own, outer, stray =>
      clean g cond own outer stray &&
        (clean g yes (introduced cond ++ own) outer (strayAfter cond stray) &&
          clean g no (introduced cond ++ own) outer (strayAfter cond stray))
  | .begin forms, own, outer, stray => cleanSeq g forms own outer stray
  | .call callee args, own, outer, stray =>
      callee.onHead
          (fun name => (operator callee args.length).isSome || isBuiltin name ||
            headClean g name own outer stray)
          (clean g callee own outer stray) &&
        cleanSeq g args (introduced callee ++ own) outer (strayAfter callee stray)

def cleanSeq (g : Binds) : List Expr → List Symbol → List Symbol → List Symbol → Bool
  | [], _, _, _ => true
  | h :: rest, own, outer, stray =>
      clean g h own outer stray &&
        cleanSeq g rest (introduced h ++ own) outer (strayAfter h stray)

end

/-- The same of the forms of a program: the top level is one function, and a define
sees the names bound at the top level before it. -/
def cleanTops (g : Binds) : List Top → List Symbol → List Symbol → Bool
  | [], _, _ => true
  | .define _ (.lambda params body) :: rest, own, stray =>
      ((refs body params).all fun x => x ∉ stray) && clean g body params own [] &&
        cleanTops g rest own stray
  | .define _ _ :: rest, own, stray => cleanTops g rest own stray
  | .expr e :: rest, own, stray =>
      clean g e own [] stray && cleanTops g rest (introduced e ++ own) (strayAfter e stray)

/-- A program no use of a name in which depends on a name kept too long. -/
def cleanProgram (prog : List Top) : Bool :=
  match collectGlobals prog 1 [] with
  | .error _ => true
  | .ok (g, _) => cleanTops g prog [] []

end TinyActor.Bootstrap
