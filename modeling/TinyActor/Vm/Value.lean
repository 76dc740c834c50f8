/-
Values and what the instructions of `src/vm.c` compute on them.

A value is a NaN-boxed word: a double, or a tag with a 48 bit payload.  Integers
are the payload itself, so they wrap at 48 bits; pairs and closures are references
into the actor's heap, compared by identity.  A string is compared by content and
nothing here takes it apart, so it stands for itself.

The doubles are a parameter: nothing depends on more than which operation is
applied to which operands.
-/
import Mathlib.Algebra.Order.Ring.Int

namespace TinyActor.Vm

/-- A symbol, by its name: symbols are interned, so equal names are equal words. -/
abbrev Symbol := String

/-- The operations on doubles the instructions use. -/
class Double (F : Type) where
  add : F → F → F
  sub : F → F → F
  mul : F → F → F
  div : F → F → F
  lt : F → F → Bool
  le : F → F → Bool
  eq : F → F → Bool
  /-- The conversion `(double)` of an integer. -/
  ofInt : Int → F
  /-- `strtod`, by which the loader reads a constant. -/
  ofText : String → F
  /-- The double a C function's word is read as: its tag lies outside the range of
  tags that `val_is_float` tests for. -/
  ofNative : Nat → F

/-- Integers in the place of doubles, for running programs without fractions. -/
instance Double.integers : Double Int where
  add := (· + ·)
  sub := (· - ·)
  mul := (· * ·)
  div := Int.tdiv
  lt a b := a < b
  le a b := a ≤ b
  eq a b := a = b
  ofInt := id
  ofText _ := 0
  ofNative _ := -(2 ^ 1020)

/-- A value. -/
inductive Val (F : Type)
  | nil
  | bool (b : Bool)
  | int (n : BitVec 48)
  | float (f : F)
  | sym (name : Symbol)
  | str (s : String)
  | pair (loc : Nat)
  | clos (loc : Nat)
  /-- A function that captures nothing, by its number. -/
  | closId (fid : Nat)
  /-- A C function, by its index in the host's table. -/
  | native (cf : Nat)
  /-- Pids, byte strings and resources: no instruction looks inside. -/
  | boxed (id : Nat)
deriving DecidableEq, Repr

/-- A heap object. -/
inductive Cell (F : Type)
  | pair (car cdr : Val F)
  | clos (entry : Nat) (free : List (Val F))
deriving DecidableEq, Repr

abbrev Heap (F : Type) := List (Cell F)

variable {F : Type}

/-- `val_int`: keep the low 48 bits. -/
def valInt (i : Int) : Val F := .int (BitVec.ofInt 48 i)

/-- `val_get_int`: sign-extend the payload.  Apart from integers, only the nils of
the first frame are ever read this way, and their payload is zero. -/
def getInt : Val F → Int
  | .int n => n.toInt
  | _ => 0

/-- `val_is_true`. -/
def isTrue : Val F → Bool
  | .nil | .bool false => false
  | _ => true

def isInt : Val F → Bool
  | .int _ => true
  | _ => false

/-- `val_is_float`, which also takes a C function for a double. -/
def isFloat : Val F → Bool
  | .float _ | .native _ => true
  | _ => false

/-- `cmp_numeric_path`: one operand is a float and the other a number. -/
def cmpNumericPath (a b : Val F) : Bool :=
  (isFloat a && (isInt b || isFloat b)) || (isFloat b && (isInt a || isFloat a))

/-- `op_pairp`. -/
def isPair : Val F → Bool
  | .pair _ => true
  | _ => false

/-- `op_symp`. -/
def isSym : Val F → Bool
  | .sym _ => true
  | _ => false

/-- Why an actor dies of its own instruction. -/
inductive Reason
  | divzero
  | arithtype
  | cartype
  | cdrtype
  /-- A C function's own reason, `p->cfunc_die`. -/
  | native (reason : String)
deriving DecidableEq, Repr

/-- `op_mod`: of integers only. -/
def modulo : Val F → Val F → Except Reason (Val F)
  | .int a, .int b =>
      if b.toInt = 0 then .error .divzero else .ok (valInt (a.toInt.tmod b.toInt))
  | _, _ => .error .arithtype

variable [Double F]

/-- `val_to_double`: whatever is not a number counts as zero. -/
def toDouble : Val F → F
  | .float f => f
  | .native cf => Double.ofNative cf
  | .int n => Double.ofInt n.toInt
  | _ => Double.ofInt 0

/-- The operators of `ARITH`. -/
inductive Arith
  | add
  | sub
  | mul
deriving DecidableEq, Repr

def Arith.onInt : Arith → Int → Int → Int
  | add, a, b => a + b
  | sub, a, b => a - b
  | mul, a, b => a * b

def Arith.onDouble : Arith → F → F → F
  | add => Double.add
  | sub => Double.sub
  | mul => Double.mul

/-- `ARITH`: two integers stay an integer, anything else is computed in doubles. -/
def Arith.apply (op : Arith) : Val F → Val F → Val F
  | .int a, .int b => valInt (op.onInt a.toInt b.toInt)
  | l, r => .float (op.onDouble (toDouble l) (toDouble r))

/-- `ARITH_I`: the right operand is a word of the instruction. -/
def Arith.applyImm (op : Arith) (l : Val F) (imm : Int) : Val F :=
  match l with
  | .int a => valInt (op.onInt a.toInt imm)
  | l => .float (op.onDouble (toDouble l) (Double.ofInt imm))

/-- The comparisons, equality among them. -/
inductive Cmp
  | lt
  | le
  | gt
  | ge
  | eq
deriving DecidableEq, Repr

def Cmp.onInt : Cmp → Int → Int → Bool
  | lt, a, b => a < b
  | le, a, b => a ≤ b
  | gt, a, b => a > b
  | ge, a, b => a ≥ b
  | eq, a, b => a = b

def Cmp.onDouble : Cmp → F → F → Bool
  | lt, a, b => Double.lt a b
  | le, a, b => Double.le a b
  | gt, a, b => Double.lt b a
  | ge, a, b => Double.le b a
  | eq, a, b => Double.eq a b

/-- `CMP` and `op_eq`.  A number against a float is compared in doubles.  Otherwise
an order holds between integers only, and equality is `val_equal`: strings by
content, immediates by value, heap objects by identity. -/
def Cmp.holds [DecidableEq F] (op : Cmp) (l r : Val F) : Bool :=
  if cmpNumericPath l r then op.onDouble (toDouble l) (toDouble r)
  else match op with
    | .eq => l == r
    | op => isInt l && isInt r && op.onInt (getInt l) (getInt r)

/-- `op_div`: an integer division by zero kills the actor, a float one does not. -/
def divide : Val F → Val F → Except Reason (Val F)
  | .int a, .int b =>
      if b.toInt = 0 then .error .divzero else .ok (valInt (a.toInt.tdiv b.toInt))
  | l, r => .ok (.float (Double.div (toDouble l) (toDouble r)))

end TinyActor.Vm
