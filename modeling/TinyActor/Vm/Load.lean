/-
The loader, `src/main.c`: read the words of an image, take the tables of functions
and constants out of them, and link.

Positions are C `long`s, and nothing checks that one lies within the words; a read
outside of them ends the model with an error of its own.  The host's functions are
found by name: a table lookup, or a module loaded on the first use of a name with a
dot.
-/
import TinyActor.Vm.Machine
import TinyActor.Lib.Decimal

namespace TinyActor.Vm

open TinyActor.Lib (scanInts)

variable {F : Type}

/-- Why an image is not loaded. -/
inductive LoadError
  | truncatedFile
  | versionMismatch (got : Int)
  | noFunctions
  | badConstKind
  | badFnNameConst
  | duplicateGlobal
  | badOpcode
  | globalNotASymbol
  | unknownCfunc (name : Symbol)
  /-- A read outside the words, or a length that is negative. -/
  | overrun
deriving DecidableEq, Repr

def bcVersion : Int := 3

/-- `words[p]`. -/
def wordAt (words : List Int) (p : Int) : Except LoadError Int :=
  match p with
  | .ofNat n =>
      match words[n]? with
      | some w => .ok w
      | none => .error .overrun
  | .negSucc _ => .error .overrun

/-! ### Constants -/

/-- The conversion `(char)`. -/
def toByte (w : Int) : Char := Char.ofNat (w % 256).toNat

/-- So many words as bytes. -/
def readBytes (words : List Int) : Nat → Int → Except LoadError (List Char)
  | 0, _ => .ok []
  | n + 1, p => do
      let w ← wordAt words p
      let rest ← readBytes words n (p + 1)
      return toByte w :: rest

/-- A length and so many bytes, with the position behind them. -/
def readText (words : List Int) (p : Int) : Except LoadError (List Char × Int) := do
  match ← wordAt words p with
  | .ofNat len => return (← readBytes words len (p + 1), p + 1 + len)
  | .negSucc _ => .error .overrun

/-- A C string ends at its first zero. -/
def cString (bytes : List Char) : String := String.ofList (bytes.takeWhile (· ≠ '\x00'))

/-- A string keeps its length in an `int`. -/
def heapString (bytes : List Char) : String :=
  String.ofList (bytes.take (BitVec.ofNat 32 bytes.length).toInt.toNat)

def parseConst [Double F] (words : List Int) (p : Int) : Except LoadError (Val F × Int) := do
  match ← wordAt words p with
  | 0 => return (valInt (← wordAt words (p + 1)), p + 2)
  | 1 => return (.nil, p + 1)
  | 2 => return (.bool true, p + 1)
  | 3 => return (.bool false, p + 1)
  | 4 =>
      let t ← readText words (p + 1)
      return (.sym (cString t.1), t.2)
  | 5 =>
      let t ← readText words (p + 1)
      return (.str (heapString t.1), t.2)
  | 6 =>
      let t ← readText words (p + 1)
      return (.float (Double.ofText (cString t.1)), t.2)
  | _ => .error .badConstKind

def buildConsts [Double F] (words : List Int) : Nat → Int → Except LoadError (List (Val F))
  | 0, _ => .ok []
  | n + 1, p => do
      let r ← parseConst words p
      let rest ← buildConsts words n r.2
      return r.1 :: rest

/-! ### Functions -/

/-- The entry of a function in the loader's tables. -/
structure FnHeader where
  nameidx : Int
  entry : Int
  nargs : Int
  maxd : Int
  codelen : Int
deriving DecidableEq, Repr

/-- The function section, with the position behind it. -/
def readFns (words : List Int) : Nat → Int → Except LoadError (List FnHeader × Int)
  | 0, p => .ok ([], p)
  | n + 1, p => do
      let nameidx ← wordAt words p
      let entry ← wordAt words (p + 1)
      let nargs ← wordAt words (p + 2)
      let maxd ← wordAt words (p + 3)
      let codelen ← wordAt words (p + 4)
      let rest ← readFns words n (p + 5 + codelen)
      return (⟨nameidx, entry, nargs, maxd, codelen⟩ :: rest.1, rest.2)

/-- What the loader knows of an image. -/
structure Loaded (F : Type) where
  words : List Int
  fns : List FnHeader
  consts : List (Val F)
deriving DecidableEq, Repr

def parseWords [Double F] (words : List Int) : Except LoadError (Loaded F) := do
  if words.length < 3 then .error .truncatedFile
  else
    let ver ← wordAt words 0
    if ver ≠ bcVersion then .error (.versionMismatch ver)
    else
      let nfns ← wordAt words 1
      let nconsts ← wordAt words 2
      if nfns < 1 then .error .noFunctions
      else
        let fns ← readFns words nfns.toNat 3
        let consts ← buildConsts words nconsts.toNat fns.2
        return ⟨words, fns.1, consts⟩

/-- `load_words` and `parse_unit`. -/
def parseUnit [Double F] (text : List Char) : Except LoadError (Loaded F) :=
  parseWords (scanInts text)

/-! ### Linking -/

/-- `g_optlen`: the words of an instruction, by its opcode. -/
def optlen : List Nat :=
  [2, 2, 2, 2, 1, 1, 1, 1, 1, 1, 1, 1, 1, 1, 1, 1, 1, 1, 1, 1, 2, 2, 2, 2, 1, 3, 2, 2, 3, 2, 2, 2,
    3, 3, 3, 3, 3, 2, 2, 2, 4]

/-- Whether a constant is there and is a symbol. -/
def symConst (consts : List (Val F)) (o : Int) : Option (Nat × Symbol) :=
  match o with
  | .ofNat n =>
      match consts[n]? with
      | some (.sym x) => some (n, x)
      | _ => none
  | .negSucc _ => none

/-- The first loop of `link_unit`: `fn_of_sym`, by the index of a symbol the number of the
function it names, or minus one. -/
def fnOfSym (consts : List (Val F)) : List FnHeader → Int → List Int → Except LoadError (List Int)
  | [], _, table => .ok table
  | f :: rest, i, table =>
      if f.nameidx < 0 then fnOfSym consts rest (i + 1) table
      else
        match symConst consts f.nameidx with
        | none => .error .badFnNameConst
        | some (sid, _) =>
            if 0 ≤ table.getD sid (-1) then .error .duplicateGlobal
            else fnOfSym consts rest (i + 1) (table.set sid i)

/-- What the operand of a `GLOBAL` becomes. -/
def linkOperand (resolve : Symbol → Option Nat) (table : List Int) (sid : Nat) (x : Symbol) :
    Except LoadError Int :=
  let fid := table.getD sid (-1)
  if fid < 0 then
    match resolve x with
    | some cf => .ok (-(cf : Int) - 1)
    | none => .error (.unknownCfunc x)
  else .ok fid

def opGlobal : Int := 26
def opGlobP : Int := 31

/-- The second loop over the code of one function, from `p` up to `stop`; every turn takes
the walk at least a word further. -/
def linkCode (resolve : Symbol → Option Nat) (table : List Int) (consts : List (Val F))
    (stop : Nat) : Nat → Nat → List Int → Except LoadError (List Int)
  | 0, _, words => .ok words
  | n + 1, p, words =>
      if p < stop then do
        -- the conversion `(int)`
        let op := (BitVec.ofInt 32 (← wordAt words p)).toInt
        if op < 0 then .error .badOpcode
        else
          match optlen[op.toNat]? with
          | none => .error .badOpcode
          | some len =>
              if op = opGlobal ∨ op = opGlobP then
                match symConst consts (← wordAt words (p + 1)) with
                | none => .error .globalNotASymbol
                | some (sid, x) =>
                    let w ← linkOperand resolve table sid x
                    linkCode resolve table consts stop n (p + len) (words.set (p + 1) w)
              else linkCode resolve table consts stop n (p + len) words
      else .ok words

def linkFns (resolve : Symbol → Option Nat) (table : List Int) (consts : List (Val F)) :
    List FnHeader → List Int → Except LoadError (List Int)
  | [], words => .ok words
  | f :: rest, words =>
      match f.entry with
      | .ofNat p => do
          let stop := (f.entry + f.codelen).toNat
          let words ← linkCode resolve table consts stop (stop - p) p words
          linkFns resolve table consts rest words
      | .negSucc _ => .error .overrun

def linkUnit (resolve : Symbol → Option Nat) (u : Loaded F) : Except LoadError (Loaded F) := do
  let table ← fnOfSym u.consts u.fns 0 (List.replicate u.consts.length (-1))
  let words ← linkFns resolve table u.consts u.fns u.words
  return { u with words := words }

/-- The words of an image once it is loaded. -/
def load [Double F] (resolve : Symbol → Option Nat) (text : List Char) :
    Except LoadError (Loaded F) := do
  linkUnit resolve (← parseUnit text)

end TinyActor.Vm
