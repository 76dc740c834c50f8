/-
Forms, the heterogeneous tree that `.kl` text stands for, and the bridge of
`lib/bootstrap/ast.ta` between forms and the typed tree.

Writing a form is plain recursion.  Reading one asks its questions of a tree that may
be anything: taking apart what is not a pair kills the compiler, and a name that is
not a symbol has no place in the typed tree.
-/
import TinyActor.Bootstrap.Ast

namespace TinyActor.Bootstrap

open TinyActor.Vm (Symbol Reason)

inductive Form
  | nil
  | bool (b : Bool)
  | int (v : BitVec 48)
  | sym (name : Symbol)
  | str (s : String)
  | pair (car cdr : Form)
deriving DecidableEq, Repr

namespace Form

/-- A list of forms, ending in nil. -/
def ofList : List Form → Form
  | [] => .nil
  | h :: rest => .pair h (ofList rest)

/-- `at`: the element of a list, or whatever stands where the list ends. -/
def atIdx : Form → Nat → Form
  | .pair h _, 0 => h
  | .pair _ rest, n + 1 => rest.atIdx n
  | x, _ => x

end Form

/-- Why a tree of forms cannot be read. -/
inductive Unreadable
  | died (reason : Reason)
  /-- A form other than a symbol where the typed tree has a name. -/
  | notAName
deriving DecidableEq, Repr

namespace Form

def cdr : Form → Except Unreadable Form
  | .pair _ d => .ok d
  | _ => .error (.died .cdrtype)

def name : Form → Except Unreadable Symbol
  | .sym x => .ok x
  | _ => .error .notAName

end Form

/-! ### Reading -/

/-- The text of a float literal, `('float "1.5")`. -/
def floatFormText : Form → Except Unreadable (Option String)
  | .pair (.sym "float") rest => do
      let tail ← rest.cdr
      if tail = .nil then
        match rest.atIdx 0 with
        | .str text => return some text
        | _ => return none
      else return none
  | _ => .ok none

/-- Not a pair, or a float literal. -/
def isAtomShape : Form → Except Unreadable Bool
  | .pair a d => return (← floatFormText (.pair a d)).isSome
  | _ => .ok true

def atomConst : Form → Const
  | .int v => .int v
  | .nil => .nil
  | .sym x => .sym x
  | .str s => .str s
  | .bool true => .bool true
  | _ => .bool false

def constOf (x : Form) : Except Unreadable Const := do
  match ← floatFormText x with
  | some text => return .float text
  | none => return atomConst x

mutual

/-- What is quoted is an atom, everywhere in the tree. -/
def quoteOk : Form → Except Unreadable Bool
  | .pair head rest => do
      if head = .sym "quote" then
        if ← isAtomShape (rest.atIdx 0) then quoteOkTail rest else return false
      else if ← quoteOk head then quoteOkTail rest
      else return false
  | _ => .ok true

def quoteOkTail : Form → Except Unreadable Bool
  | .pair head rest => do
      if ← quoteOk head then quoteOkTail rest else return false
  | _ => .ok true

end

def parseParams : Form → Except Unreadable (List Symbol)
  | .pair p rest => return (← p.name) :: (← parseParams rest)
  | _ => .ok []

theorem Form.sizeOf_atIdx (x : Form) (n : Nat) : sizeOf (x.atIdx n) ≤ sizeOf x := by
  induction x generalizing n with
  | pair h rest _ ihr =>
      cases n with
      | zero =>
          simp only [Form.atIdx, Form.pair.sizeOf_spec]
          omega
      | succ n =>
          have := ihr n
          simp only [Form.atIdx, Form.pair.sizeOf_spec]
          omega
  | nil | bool | int | sym | str => simp [Form.atIdx]

mutual

def parseExpr : Form → Except Unreadable Expr
  | .sym x => .ok (.sym x)
  | .pair head args => do
      -- a float literal is an atom, not a call of `float`
      match ← floatFormText (.pair head args) with
      | some text => return .const (.float text)
      | none => parseCompound head args
  | x => return .const (← constOf x)
termination_by x => (sizeOf x, 1)

/-- By the symbol at the head: the special forms, or else a call. -/
def parseCompound (head args : Form) : Except Unreadable Expr := do
  if head = .sym "quote" then return .const (← constOf (args.atIdx 0))
  else if head = .sym "if" then
    return .ifE (← parseExpr (args.atIdx 0)) (← parseExpr (args.atIdx 1))
      (← parseExpr (args.atIdx 2))
  else if head = .sym "begin" then return .begin (← parseForms args)
  else if head = .sym "lambda" then
    return .lambda (← parseParams (args.atIdx 0)) (← parseExpr (args.atIdx 1))
  else if head = .sym "let" then
    return .letE (← ((args.atIdx 0).atIdx 0).name) (← parseExpr ((args.atIdx 0).atIdx 1))
      (← parseExpr (args.atIdx 1))
  else return .call (← parseExpr head) (← parseForms args)
termination_by (1 + sizeOf head + sizeOf args, 0)
decreasing_by
  all_goals
    have h0 := Form.sizeOf_atIdx args 0
    have h1 := Form.sizeOf_atIdx args 1
    have h2 := Form.sizeOf_atIdx args 2
    have h3 := Form.sizeOf_atIdx (args.atIdx 0) 1
    apply Prod.Lex.left
    omega

def parseForms : Form → Except Unreadable (List Expr)
  | .pair h rest => return (← parseExpr h) :: (← parseForms rest)
  | _ => .ok []
termination_by x => (sizeOf x, 1)

end

def isDef : Form → Bool
  | .pair (.sym "define") _ => true
  | _ => false

def parseTops : Form → Except Unreadable (List Top)
  | .pair form rest => do
      if isDef form then
        return .define (← (form.atIdx 1).name) (← parseExpr (form.atIdx 2)) ::
          (← parseTops rest)
      else return .expr (← parseExpr form) :: (← parseTops rest)
  | _ => .ok []

def parseProgram (forms : Form) : Except Unreadable (Option (List Top)) := do
  if ← quoteOk forms then return some (← parseTops forms) else return none

/-! ### Writing -/

/-- A constant as a form: a float is its text with a tag. -/
def constAtom : Const → Form
  | .nil => .nil
  | .bool b => .bool b
  | .int v => .int v
  | .sym x => .sym x
  | .str s => .str s
  | .float text => .ofList [.sym "float", .str text]

mutual

def encodeExpr : Expr → Form
  | .const (.sym x) => .ofList [.sym "quote", .sym x]
  | .const c => constAtom c
  | .sym x => .sym x
  | .lambda params body =>
      .ofList [.sym "lambda", .ofList (params.map .sym), encodeExpr body]
  | .letE x init body =>
      .ofList [.sym "let", .ofList [.sym x, encodeExpr init], encodeExpr body]
  | .ifE cond yes no =>
      .ofList [.sym "if", encodeExpr cond, encodeExpr yes, encodeExpr no]
  | .begin forms => .pair (.sym "begin") (encodeForms forms)
  | .call callee args => .pair (encodeExpr callee) (encodeForms args)

def encodeForms : List Expr → Form
  | [] => .nil
  | h :: rest => .pair (encodeExpr h) (encodeForms rest)

end

def encodeProgram : List Top → Form
  | [] => .nil
  | .define x value :: rest =>
      .pair (.ofList [.sym "define", .sym x, encodeExpr value]) (encodeProgram rest)
  | .expr e :: rest => .pair (encodeExpr e) (encodeProgram rest)

end TinyActor.Bootstrap
