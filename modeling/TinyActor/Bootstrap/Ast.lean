/-
The typed syntax tree of kl, `lib/bootstrap/ast.ta`.

Everything downstream of the parser works on this tree.
-/
import TinyActor.Vm.Value

namespace TinyActor.Bootstrap

open TinyActor.Vm (Symbol)

/-- An atomic literal.  An integer of the compiler is an integer of the language it
is written in; a float stays text until the loader reads it. -/
inductive Const
  | nil
  | bool (b : Bool)
  | int (v : BitVec 48)
  | sym (name : Symbol)
  | str (s : String)
  | float (text : String)
deriving DecidableEq, Repr

/-- An expression. -/
inductive Expr
  | const (c : Const)
  | sym (name : Symbol)
  | lambda (params : List Symbol) (body : Expr)
  | letE (name : Symbol) (init body : Expr)
  | ifE (cond yes no : Expr)
  | begin (forms : List Expr)
  | call (callee : Expr) (args : List Expr)
deriving Repr

/-- A top-level form. -/
inductive Top
  | define (name : Symbol) (value : Expr)
  | expr (e : Expr)
deriving Repr

end TinyActor.Bootstrap
