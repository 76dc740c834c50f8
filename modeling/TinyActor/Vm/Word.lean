/-
The words of `ta.h` and `ta_inline.h`: what a value is in memory.

A double is stored as its own 64 bits, any other value as a tag in the top sixteen
bits and a payload below.  The tags from `TAG_FIRST` to `TAG_LAST` are patterns of
NaNs, which `val_from_double` replaces by one NaN outside that range.  A double
stands here for its bits; what the arithmetic of doubles gives is a parameter.

The instructions on integers compute in `int64_t` and cut the result to 48 bits
where it is boxed.  A result outside `int64_t` has no meaning in C, so it ends the
computation here.
-/
import TinyActor.Vm.Value

namespace TinyActor.Vm

abbrev Word := BitVec 64

namespace Word

/-! ### Tags -/

abbrev Tag := BitVec 16

def tagFirst : Tag := 0xFFF1#16
def tagInt : Tag := 0xFFF1#16
def tagNil : Tag := 0xFFF2#16
def tagTrue : Tag := 0xFFF3#16
def tagFalse : Tag := 0xFFF4#16
def tagSym : Tag := 0xFFF5#16
def tagPair : Tag := 0xFFF6#16
def tagPid : Tag := 0xFFF7#16
def tagClos : Tag := 0xFFF8#16
def tagString : Tag := 0xFFF9#16
def tagBytes : Tag := 0xFFFA#16
def tagClosId : Tag := 0xFFFB#16
def tagResource : Tag := 0xFFFC#16
def tagLast : Tag := tagResource
def tagNative : Tag := 0xFFC1#16

def valCanonNan : Word := 0x7FF8000000000000#64

def valTag (v : Word) : Tag := (v >>> 48).setWidth 16

/-- `lpayload` and `val_payload48`. -/
def lpayload (v : Word) : Word := v &&& 0x0000FFFFFFFFFFFF#64

/-- `lbox` and `box_tag_payload`. -/
def lbox (tag : Tag) (payload : Word) : Word :=
  (tag.setWidth 64 <<< 48) ||| (payload &&& 0x0000FFFFFFFFFFFF#64)

/-! ### Integers and doubles -/

def valIsInt (v : Word) : Bool := valTag v == tagInt

def valIsFloat (v : Word) : Bool := valTag v < tagFirst || valTag v > tagLast

/-- `val_int` of an `int64_t`, by the bits of its two's complement. -/
def valInt (i : Int) : Word := lbox tagInt (BitVec.ofInt 64 i)

def valGetInt (v : Word) : Int :=
  let u := lpayload v
  if u &&& 0x800000000000#64 ≠ 0#64 then (u ||| 0xFFFF000000000000#64).toInt else u.toInt

/-- The double's bits, or the one NaN for every NaN. -/
def valFromDouble (d : Word) : Word :=
  if d <<< 1 > 0xFFE0000000000000#64 then valCanonNan else d

def valGetFloat (v : Word) : Word := v

/-! ### Kinds -/

/-- The kinds of value the predicates tell apart. -/
inductive Kind
  | float
  | int
  | nil
  | valTrue
  | valFalse
  | symbol
  | pair
  | pid
  | closure
  | closureId
  | string
  | bytes
  | resource
  | native
deriving DecidableEq, Repr

/-- The tag a kind's predicate tests for; `val_is_float` tests for none. -/
def Kind.tag : Kind → Option Tag
  | float => none
  | int => some tagInt
  | nil => some tagNil
  | valTrue => some tagTrue
  | valFalse => some tagFalse
  | symbol => some tagSym
  | pair => some tagPair
  | pid => some tagPid
  | closure => some tagClos
  | closureId => some tagClosId
  | string => some tagString
  | bytes => some tagBytes
  | resource => some tagResource
  | native => some tagNative

/-- The predicate of a kind. -/
def Kind.test (k : Kind) (v : Word) : Bool :=
  match k.tag with
  | none => valIsFloat v
  | some tag => valTag v == tag

/-- What the constructors make words of.  A heap value's payload is the address
its constructor allocated. -/
inductive Made
  | float (d : Word)
  | int (i : Int)
  | nil
  | valTrue
  | valFalse
  | symbol (idx : BitVec 32)
  | pid (n : BitVec 32)
  | pair (addr : Word)
  | string (addr : Word)
  | bytes (addr : Word)
  | closure (addr : Word)
  | closureId (fid : Word)
  | resource (addr : Word)
  | native (cf : Word)

/-- The word a constructor returns. -/
def Made.word : Made → Word
  | float d => valFromDouble d
  | int i => valInt i
  | nil => lbox tagNil 0
  | valTrue => lbox tagTrue 0
  | valFalse => lbox tagFalse 0
  | symbol idx => lbox tagSym (idx.setWidth 64)
  | pid n => lbox tagPid (n.setWidth 64)
  | pair addr => lbox tagPair addr
  | string addr => lbox tagString addr
  | bytes addr => lbox tagBytes addr
  | closure addr => lbox tagClos addr
  | closureId fid => lbox tagClosId fid
  | resource addr => lbox tagResource addr
  | native cf => lbox tagNative cf

/-- The kind a constructor is for. -/
def Made.kind : Made → Kind
  | float _ => .float
  | int _ => .int
  | nil => .nil
  | valTrue => .valTrue
  | valFalse => .valFalse
  | symbol _ => .symbol
  | pid _ => .pid
  | pair _ => .pair
  | string _ => .string
  | bytes _ => .bytes
  | closure _ => .closure
  | closureId _ => .closureId
  | resource _ => .resource
  | native _ => .native

/-- A NaN by the standard: the exponent's eleven bits are ones and the fraction is
not zero. -/
def isNan (d : Word) : Bool :=
  (d >>> 52) &&& 0x7FF#64 == 0x7FF#64 && d &&& 0x000FFFFFFFFFFFFF#64 != 0#64

/-! ### Instructions -/

/-- How an instruction ends without a result. -/
inductive Stop
  | dies (reason : Reason)
  /-- A value left the range of `int64_t`. -/
  | overflow
deriving DecidableEq, Repr

/-- An expression of type `int64_t` whose exact value is `x`. -/
def int64 (x : Int) : Except Stop Int :=
  if -2 ^ 63 ≤ x ∧ x < 2 ^ 63 then .ok x else .error .overflow

/-- Integers in the place of the doubles' bits, for running programs without
fractions. -/
instance patterns : Double Word where
  add := (· + ·)
  sub := (· - ·)
  mul := (· * ·)
  div := BitVec.sdiv
  lt := BitVec.slt
  le := BitVec.sle
  eq a b := a == b
  ofInt := BitVec.ofInt 64
  ofText _ := 0
  ofNative cf := lbox tagNative cf

variable [Double Word]

def valToDouble (v : Word) : Word :=
  if valIsFloat v then valGetFloat v
  else if valIsInt v then Double.ofInt (valGetInt v)
  else Double.ofInt 0

/-- `ARITH`. -/
def arith (op : Arith) (l acc : Word) : Except Stop Word :=
  if valIsInt l && valIsInt acc then
    (int64 (op.onInt (valGetInt l) (valGetInt acc))).map valInt
  else .ok (valFromDouble (op.onDouble (valToDouble l) (valToDouble acc)))

/-- `ARITH_I`, of the word `imm` of the instruction. -/
def arithI (op : Arith) (l : Word) (imm : Int) : Except Stop Word :=
  if valIsInt l then (int64 (op.onInt (valGetInt l) imm)).map valInt
  else .ok (valFromDouble (op.onDouble (valToDouble l) (Double.ofInt imm)))

def opDiv (l acc : Word) : Except Stop Word :=
  if valIsInt l && valIsInt acc then
    if valGetInt acc = 0 then .error (.dies .divzero)
    else (int64 ((valGetInt l).tdiv (valGetInt acc))).map valInt
  else .ok (valFromDouble (Double.div (valToDouble l) (valToDouble acc)))

omit [Double Word] in
/-- `op_mod`.  C's remainder is undefined where the quotient does not fit. -/
def opMod (l acc : Word) : Except Stop Word :=
  if !valIsInt l || !valIsInt acc then .error (.dies .arithtype)
  else if valGetInt acc = 0 then .error (.dies .divzero)
  else
    (int64 ((valGetInt l).tdiv (valGetInt acc))).bind fun _ =>
      (int64 ((valGetInt l).tmod (valGetInt acc))).map valInt

/-- The operations on integers. -/
inductive IntOp
  | arith (op : Arith)
  | div
  | mod
deriving DecidableEq, Repr

/-- The instruction of an operation. -/
def IntOp.exec : IntOp → Word → Word → Except Stop Word
  | arith op => Word.arith op
  | div => opDiv
  | mod => opMod

omit [Double Word] in
/-- The exact result of an operation. -/
def IntOp.exact : IntOp → Int → Int → Int
  | arith op => op.onInt
  | div => Int.tdiv
  | mod => Int.tmod

end Word

end TinyActor.Vm
