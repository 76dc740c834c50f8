/-
The closures of a program: where each function is made, and what its code loads.

`sites` follows the code generator through an expression and lists every lambda it
compiles, with the function that comes of it, the names it captures and the names
of the frame that makes it.  `upvalLoads` are the captured values a function's own
code reads, by their index.
-/
import TinyActor.Bootstrap.Scope

namespace TinyActor.Bootstrap

open TinyActor.Vm (Symbol)

/-! ### Loads of captured values -/

mutual

def Ins.upvalLoads : Ins → List Nat
  | .loadF i => [i]
  | .ifE cond yes no | .ifP _ cond yes no | .ifI _ cond yes no =>
      Bootstrap.upvalLoads cond ++ (Bootstrap.upvalLoads yes ++ Bootstrap.upvalLoads no)
  | _ => []

/-- The indices of the captured values a piece of code loads. -/
def upvalLoads : List Ins → List Nat
  | [] => []
  | i :: rest => i.upvalLoads ++ upvalLoads rest

end

/-! ### Where functions are made -/

/-- The function `closeLambda` adds to the pool. -/
def lambdaFn (params : List Symbol) (name : Option Symbol) (fid : Option Nat)
    (body : List Ins × Ctx) : FnRec :=
  ⟨fid.getD body.2.nextFnid, name, params.length,
    .reserve (body.2.nextSlot - params.length - 4) :: (body.1 ++ [.ret params.length])⟩

/-- A function, the names it captures in the order of their indices, the code that
makes its closure, and the names of the frame that code runs in. -/
structure Site where
  fn : FnRec
  fvs : List Symbol
  make : List Ins
  locals : Binds
  upvals : Binds
deriving Repr

/-- A lambda compiled in a context. -/
def siteOf (g : Binds) (params : List Symbol) (body : Expr) (c : Ctx) (name : Option Symbol)
    (fid : Option Nat) : Site :=
  let fvs := captured params body g c
  let r := compileExpr g body (bodyCtx params fvs c) true
  ⟨lambdaFn params name fid r, fvs, (closeLambda params fvs c name fid r).1, c.locals, c.upvals⟩

mutual

/-- The lambdas of an expression, each in the context it is compiled in. -/
def sites (g : Binds) : Expr → Ctx → Bool → List Site
  | .const _, _, _ | .sym _, _, _ => []
  | .lambda params body, c, _ =>
      sites g body (bodyCtx params (captured params body g c) c) true ++
        [siteOf g params body c none none]
  | .letE name init body, c, tail =>
      let r1 := compileExpr g init c false
      let ns := r1.2.nextSlot
      sites g init c false ++
        sites g body { r1.2 with locals := (name, ns) :: r1.2.locals, nextSlot := ns + 1 } tail
  | .ifE cond yes no, c, tail =>
      let r1 := compileExpr g cond c false
      let r2 := compileExpr g yes r1.2 tail
      sites g cond c false ++ (sites g yes r1.2 tail ++
        sites g no { r2.2 with locals := r1.2.locals, upvals := r1.2.upvals } tail)
  | .begin forms, c, tail => sitesBegin g forms c tail
  | .call callee args, c, _ =>
      -- a name in the head has no lambdas and leaves the context as it is
      sites g callee c false ++ sitesArgs g args (compileExpr g callee c false).2

def sitesBegin (g : Binds) : List Expr → Ctx → Bool → List Site
  | [], _, _ => []
  | [one], c, tail => sites g one c tail
  | h :: rest, c, tail => sites g h c false ++ sitesBegin g rest (compileExpr g h c false).2 tail

def sitesArgs (g : Binds) : List Expr → Ctx → List Site
  | [], _ => []
  | [last], c => sites g last c false
  | h :: rest, c => sites g h c false ++ sitesArgs g rest (compileExpr g h c false).2

end

/-- The functions of the forms of a program, the defines with their names. -/
def sitesTops (g : Binds) : List Top → Ctx → List Site
  | [], _ => []
  | .define name (.lambda params body) :: rest, c =>
      let fvs := captured params body g c
      let r := closeLambda params fvs c (some name) (g.lookup name)
        (compileExpr g body (bodyCtx params fvs c) true)
      sites g body (bodyCtx params fvs c) true ++
        (siteOf g params body c (some name) (g.lookup name) :: sitesTops g rest r.2)
  | .define _ _ :: rest, c => sitesTops g rest c
  | .expr e :: rest, c => sites g e c false ++ sitesTops g rest (compileExpr g e c false).2

/-- Every function of a program but its entry. -/
def programSites (prog : List Top) : List Site :=
  match collectGlobals prog 1 [] with
  | .error _ => []
  | .ok (g, nid) => sitesTops g prog ⟨[], [], 4, nid, []⟩

/-- The captured values and the loads of a function fit each other: its code loads
each captured value and no index beyond them; the closure is made of the values of the
captured names, one after the other in the order of their indices; and each of these
names stands for something in the frame that makes the closure. -/
structure Site.Exact (s : Site) : Prop where
  loads : ∀ i, i ∈ upvalLoads s.fn.code ↔ i < s.fvs.length
  order : s.make = (s.fvs.map (freeLoad · s.locals s.upvals)).intersperse .push ++
    [.clos s.fn.fid s.fvs.length]
  visible : ∀ x ∈ s.fvs, s.locals.lookup x ≠ none ∨ s.upvals.lookup x ≠ none
  nodup : s.fvs.Nodup

/-! ### Captures that are read

Which captured variables a function reads can be told from its names alone: the names it uses,
and the names its frame has got by then, those kept too long included.
-/

/-- The head of a call is read from around the function unless it is in the frame or taken for a
host function. -/
def headTaken (g : Binds) (name : Symbol) (frame : List Symbol) : List Symbol :=
  if (libCfuncHead name && (g.lookup name).isNone) || name ∈ frame then [] else [name]

mutual

/-- The names an expression reads from around its function, in a frame with these names. -/
def taken (g : Binds) : Expr → List Symbol → List Symbol
  | .const _, _ => []
  | .sym name, frame => if name ∈ frame then [] else [name]
  | .lambda params body, frame => (refs body params).filter (· ∉ frame)
  | .letE name init body, frame =>
      taken g init frame ++ taken g body (name :: (frameNames init ++ frame))
  | .ifE cond yes no, frame =>
      taken g cond frame ++
        (taken g yes (frameNames cond ++ frame) ++ taken g no (frameNames cond ++ frame))
  | .begin forms, frame => takenSeq g forms frame
  | .call callee args, frame =>
      callee.onHead
          (fun name => if (operator callee args.length).isSome || isBuiltin name then []
            else headTaken g name frame)
          (taken g callee frame) ++
        takenSeq g args (frameNames callee ++ frame)

def takenSeq (g : Binds) : List Expr → List Symbol → List Symbol
  | [], _ => []
  | h :: rest, frame => taken g h frame ++ takenSeq g rest (frameNames h ++ frame)

end

/-- The names a function uses that are in the frame around it or captured there. -/
def caught (params : List Symbol) (body : Expr) (frame up : List Symbol) : List Symbol :=
  (refs body params).filter fun x => x ∈ frame || x ∈ up

mutual

/-- Every function in an expression reads all that it captures.  `frame` are the names in the
frame around it, `up` those captured there. -/
def readsCaptures (g : Binds) : Expr → List Symbol → List Symbol → Bool
  | .const _, _, _ | .sym _, _, _ => true
  | .lambda params body, frame, up =>
      readsCaptures g body params (caught params body frame up) &&
        (caught params body frame up).all fun x => x ∈ taken g body params
  | .letE name init body, frame, up =>
      readsCaptures g init frame up &&
        readsCaptures g body (name :: (frameNames init ++ frame)) up
  | .ifE cond yes no, frame, up =>
      readsCaptures g cond frame up &&
        (readsCaptures g yes (frameNames cond ++ frame) up &&
          readsCaptures g no (frameNames cond ++ frame) up)
  | .begin forms, frame, up => readsCapturesSeq g forms frame up
  | .call callee args, frame, up =>
      readsCaptures g callee frame up && readsCapturesSeq g args (frameNames callee ++ frame) up

def readsCapturesSeq (g : Binds) : List Expr → List Symbol → List Symbol → Bool
  | [], _, _ => true
  | h :: rest, frame, up =>
      readsCaptures g h frame up && readsCapturesSeq g rest (frameNames h ++ frame) up

end

/-- The same of the forms of a program, where a define uses no name of the top level's frame. -/
def readsCapturesTops (g : Binds) : List Top → List Symbol → Bool
  | [], _ => true
  | .define _ (.lambda params body) :: rest, frame =>
      ((refs body params).all fun x => x ∉ frame) && readsCaptures g body params [] &&
        readsCapturesTops g rest frame
  | .define _ _ :: rest, frame => readsCapturesTops g rest frame
  | .expr e :: rest, frame =>
      readsCaptures g e frame [] && readsCapturesTops g rest (frameNames e ++ frame)

/-- Every function of a program reads, going by its names, each variable it captures, and no
define uses a name in the frame of the top level. -/
def readsProgram (prog : List Top) : Bool :=
  match collectGlobals prog 1 [] with
  | .error _ => false
  | .ok (g, _) => readsCapturesTops g prog []

end TinyActor.Bootstrap
