/-
The image file, `lib/bootstrap/bytecode.ta`: functions and constants as a text of
integers.

The file is a header of three words (format, number of functions, number of
constants), then for each function a header of five words and its code, then the
constants, each by a kind with what the kind needs.  Every word is pushed to the
buffer as its decimal text with a space behind, so the words are collected here and
turned into text at the end.
-/
import TinyActor.Bootstrap.Flatten
import TinyActor.Bootstrap.Form
import TinyActor.Lib.Decimal

namespace TinyActor.Bootstrap

open TinyActor.Lib (spaced)
open TinyActor.Vm (Symbol)

/-- A text is the list of its bytes, a character for a byte. -/
def strToBytes (s : String) : List Int := s.toList.map fun c => (c.toNat : Int)

/-- The words of a symbol, a string or the text of a float. -/
def textWords (kind : Int) (s : String) : List Int :=
  kind :: (s.toList.length : Int) :: strToBytes s

/-- A constant.  A pair that is not a float gets a kind the loader refuses. -/
def constWords : Form → List Int
  | .pair (.sym "float") (.pair (.str text) .nil) => textWords 6 text
  | .pair _ _ => [-1]
  | .nil => [1]
  | .sym x => textWords 4 x
  | .int v => [0, v.toInt]
  | .str s => textWords 5 s
  | .bool true => [2]
  | .bool false => [3]

def writeConsts (consts : List Form) : List Int := consts.flatMap constWords

/-- The index of a symbol in the pool. -/
def symPoolIdx : List Form → Symbol → Int → Int
  | [], _, _ => -1
  | h :: rest, sym, k => if h = .sym sym then k else symPoolIdx rest sym (k + 1)

/-- The index of a function's name, if it has one. -/
def nameIdx (consts : List Form) : Option Symbol → Int
  | some sym => symPoolIdx consts sym 0
  | none => -1

/-- The functions; `entry` is where in the file the code of the next one begins. -/
def writeFns : List FnBC → List Form → Int → List Int
  | [], _, _ => []
  | f :: rest, consts, entry =>
      nameIdx consts f.name :: entry :: (f.nargs : Int) :: f.maxd :: (f.words.length : Int) ::
        (f.words ++ writeFns rest consts (entry + 5 + f.words.length))

/-- The words of the file. -/
def bcWords (fns : List FnBC) (consts : List Const) : List Int :=
  let pool := consts.map constAtom
  3 :: (fns.length : Int) :: (pool.length : Int) :: (writeFns fns pool 8 ++ writeConsts pool)

/-- What `write_bc` writes to the file. -/
def writeBc (fns : List FnBC) (consts : List Const) : List Char := spaced (bcWords fns consts)

end TinyActor.Bootstrap
