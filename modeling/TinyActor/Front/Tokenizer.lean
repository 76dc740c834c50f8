/-
Tokens, `lib/bootstrap/tokenizer.ta`, and the vector in which `src/api.c` hands them to
the parser.

A text is the list of its bytes, a character for a byte.  A reader works on what is left
of the text and gives back what is left after it, with the number of lines it went past;
where the source cuts the text of a token out of the whole, the text is what was read.
Positions show in messages only; the loop that keeps them stands beside the one that does
not.

The loops over a whole text have a number of tokens to spend.  Every token takes at least
one character, so the length of the text is enough.
-/
import TinyActor.Bootstrap.Form

namespace TinyActor.Front

open TinyActor.Vm (Symbol)
open TinyActor.Bootstrap (Form)

/-! ### Tokens -/

inductive TokType
  | lparen | rparen | lbrace | rbrace | comma | colon | semicol | lbracket | rbracket
  | quote | string | unterminated | arrow | int | float | op | kw | ident | unknown | eof
deriving DecidableEq, Repr

inductive TokVal
  | nil
  | int (v : BitVec 48)
  | str (text : List Char)
deriving DecidableEq, Repr

structure Token where
  type : TokType
  val : TokVal
deriving DecidableEq, Repr

def opToken (text : List Char) : Token := ⟨.op, .str text⟩

def unknownToken : Token := ⟨.unknown, .nil⟩

/-! ### Characters -/

def isAlpha (c : Char) : Bool := c.isAlpha || c = '_'

def isIdentChar (c : Char) : Bool :=
  isAlpha c || c.isDigit ||
    c ∈ ['.', '+', '-', '<', '>', '=', '!', '?', '*', '/']

def keywords : List String :=
  ["fn", "let", "match", "if", "else", "when", "spawn", "send", "import", "receive", "pub",
    "type", "external", "const", "nil", "true", "false"]

def isKw (text : List Char) : Bool := String.ofList text ∈ keywords

/-- The byte a single-character escape stands for. -/
def escapeValue (c : Char) : Option Char :=
  if c = 'n' then some '\n'
  else if c = 'r' then some '\r'
  else if c = 't' then some '\t'
  else if c = '\\' then some '\\'
  else if c = '"' then some '"'
  else if c = '\'' then some '\''
  else none

/-- The value of a hexadecimal digit.  Whether a character is one of `A` to `F` is asked
only of those from `a` on, past `f`. -/
def hexDigit (c : Char) : Option Nat :=
  if '0' ≤ c then
    if c ≤ '9' then some (c.toNat - '0'.toNat)
    else if 'a' ≤ c then
      if c ≤ 'f' then some (c.toNat - 'a'.toNat + 10)
      else if 'A' ≤ c then
        if c ≤ 'F' then some (c.toNat - 'A'.toNat + 10) else none
      else none
    else none
  else none

/-! ### Literals -/

/-- A token, what is left of the text, and the lines it went past. -/
abbrev Reading := Token × List Char × Nat

/-- The content of a string literal, with what has been read of it, raw and decoded. -/
def readStringLit : List Char → List Char → List Char → Nat → Reading
  | [], raw, _, _ => (⟨.unterminated, .str raw⟩, [], raw.count '\n')
  | c :: rest, raw, acc, lines =>
      if c = '"' then (⟨.string, .str acc⟩, rest, lines)
      else if c = '\\' then
        match rest with
        | [] => (⟨.unterminated, .str raw⟩, [c], raw.count '\n')
        | e :: rest =>
            if e = 'x' then
              match rest with
              | h :: l :: rest' =>
                  match hexDigit h, hexDigit l with
                  | some hi, some lo =>
                      readStringLit rest' (raw ++ [c, e, h, l])
                        (acc ++ [Char.ofNat (hi * 16 + lo)]) lines
                  | _, _ => readStringLit (h :: l :: rest') (raw ++ [c, e]) (acc ++ [c, e]) lines
              | rest => readStringLit rest (raw ++ [c, e]) (acc ++ [c, e]) lines
            else
              match escapeValue e with
              | some v => readStringLit rest (raw ++ [c, e]) (acc ++ [v]) lines
              -- an escape that is none stays as it is written
              | none => readStringLit rest (raw ++ [c, e]) (acc ++ [c, e]) lines
      else
        readStringLit rest (raw ++ [c]) (acc ++ [c]) (if c = '\n' then lines + 1 else lines)

def charCode (c : Char) : BitVec 48 := BitVec.ofNat 48 c.toNat

/-- What follows a quote, if it is the rest of a character literal. -/
def readCharLit : List Char → Option (BitVec 48 × List Char)
  | '\\' :: 'x' :: h :: l :: q :: rest =>
      if q = '\'' then
        match hexDigit h, hexDigit l with
        | some hi, some lo => some (BitVec.ofNat 48 (hi * 16 + lo), rest)
        | _, _ => none
      else none
  | '\\' :: 'x' :: _ => none
  | '\\' :: e :: q :: rest =>
      if q = '\'' then (escapeValue e).map fun v => (charCode v, rest) else none
  | '\\' :: _ => none
  | c :: q :: rest => if q = '\'' then some (charCode c, rest) else none
  | _ => none

/-- The number digits spell, at the width of an integer. -/
def toInt (digits : List Char) : BitVec 48 :=
  digits.foldl (fun v c => v * 10 + BitVec.ofNat 48 (c.toNat - '0'.toNat)) 0

/-- Digits, and if a dot and a digit follow them the fraction as well. -/
def readNumberLit (text : List Char) : Token × List Char :=
  let digits := text.takeWhile Char.isDigit
  match text.dropWhile Char.isDigit with
  | '.' :: d :: rest =>
      if d.isDigit then
        (⟨.float, .str (digits ++ '.' :: d :: rest.takeWhile Char.isDigit)⟩,
          rest.dropWhile Char.isDigit)
      else (⟨.int, .int (toInt digits)⟩, '.' :: d :: rest)
  | rest => (⟨.int, .int (toInt digits)⟩, rest)

def readIdent (text : List Char) : Token × List Char :=
  let name := text.takeWhile isIdentChar
  (⟨if isKw name then .kw else .ident, .str name⟩, text.dropWhile isIdentChar)

/-- A number with its sign: the text of a float has it, an integer is negated. -/
def negate (t : Token) : Token :=
  match t.val with
  | .str text => ⟨t.type, .str ('-' :: text)⟩
  | .int v => ⟨t.type, .int (-v)⟩
  | .nil => t

/-! ### One token -/

def punctuation (c : Char) : Option TokType :=
  if c = ')' then some .rparen
  else if c = '{' then some .lbrace
  else if c = '}' then some .rbrace
  else if c = ',' then some .comma
  else if c = ':' then some .colon
  else if c = ';' then some .semicol
  else if c = '[' then some .lbracket
  else if c = ']' then some .rbracket
  else none

/-- An operator of two characters, or else the first of them alone. -/
def readPair (c second : Char) (alone : Token) : List Char → Reading
  | [] => (alone, [], 0)
  | d :: rest => if d = second then (opToken [c, second], rest, 0) else (alone, d :: rest, 0)

def readMinus : List Char → Reading
  | [] => (opToken ['-'], [], 0)
  | c :: rest =>
      if c = '>' then (⟨.arrow, .nil⟩, rest, 0)
      else if c.isDigit then
        let r := readNumberLit (c :: rest)
        (negate r.1, r.2, 0)
      else (opToken ['-'], c :: rest, 0)

def readBar : List Char → Reading
  | [] => (unknownToken, [], 0)
  | c :: rest =>
      if c = '|' then (opToken ['|', '|'], rest, 0)
      else if c = '>' then (opToken ['|', '>'], rest, 0)
      else (opToken ['|'], c :: rest, 0)

def readQuote (rest : List Char) : Reading :=
  match readCharLit rest with
  | some (v, rest') => (⟨.int, .int v⟩, rest', 0)
  | none => (⟨.quote, .nil⟩, rest, 0)

/-- What follows the first character of a number, a name or something else. -/
def readWord (c : Char) (rest : List Char) : Reading :=
  if c.isDigit then
    let r := readNumberLit (c :: rest)
    (r.1, r.2, 0)
  else if isAlpha c then
    let r := readIdent (c :: rest)
    (r.1, r.2, 0)
  else (unknownToken, rest, 0)

/-- `read_token`.  A parenthesis remembers whether there was space before it. -/
def readToken (ws : Bool) : List Char → Reading
  | [] => (unknownToken, [], 0)
  | c :: rest =>
      match punctuation c with
      | some type => (⟨type, .nil⟩, rest, 0)
      | none =>
          if c = '(' then (⟨.lparen, .int (if ws then 1 else 0)⟩, rest, 0)
          else if c = '\'' then readQuote rest
          else if c = '"' then readStringLit rest [] [] 0
          else if c = '-' then readMinus rest
          else if c = '=' || c = '<' || c = '>' then readPair c '=' (opToken [c]) rest
          else if c = '!' then readPair c '=' unknownToken rest
          else if c = '&' then readPair c '&' unknownToken rest
          else if c = '|' then readBar rest
          else if c = '+' || c = '*' || c = '/' || c = '%' then (opToken [c], rest, 0)
          else readWord c rest

/-! ### A whole text -/

def isBlank (c : Char) : Bool := c = ' ' || c = '\t' || c = '\n' || c = '\r'

mutual

/-- Past space and comments. -/
def skipWs : List Char → List Char
  | [] => []
  | c :: rest =>
      if isBlank c then skipWs rest
      else if c = '/' then
        match rest with
        | '/' :: rest' => skipComment rest'
        | _ => c :: rest
      else c :: rest

def skipComment : List Char → List Char
  | [] => []
  | c :: rest => if c = '\n' then skipWs rest else skipComment rest

end

/-- The tokens of a text, of which at most `n` are read. -/
def tokenizeLoop : Nat → List Char → List Token
  | 0, _ => [⟨.eof, .nil⟩]
  | n + 1, text =>
      match skipWs text with
      | [] => [⟨.eof, .nil⟩]
      | c :: rest =>
          let r := readToken (decide ((c :: rest).length < text.length)) (c :: rest)
          r.1 :: tokenizeLoop n r.2.1

def tokenize (text : List Char) : List Token := tokenizeLoop (text.length + 1) text

/-! ### Positions -/

/-- A line and a column, counted from one, and an offset. -/
structure Pos where
  line : Nat
  col : Nat
  off : Nat
deriving DecidableEq, Repr

mutual

/-- What is left after space and comments, its offset and its line. -/
def skipWsL : List Char → Nat → Nat → List Char × Nat × Nat
  | [], i, line => ([], i, line)
  | c :: rest, i, line =>
      if c = '\n' then skipWsL rest (i + 1) (line + 1)
      else if isBlank c then skipWsL rest (i + 1) line
      else if c = '/' then
        match rest with
        | '/' :: rest' => skipCommentL rest' (i + 2) line
        | _ => (c :: rest, i, line)
      else (c :: rest, i, line)

def skipCommentL : List Char → Nat → Nat → List Char × Nat × Nat
  | [], i, line => ([], i, line)
  | c :: rest, i, line =>
      if c = '\n' then skipWsL rest (i + 1) (line + 1) else skipCommentL rest (i + 1) line

end

/-- The offset at which the line of an offset begins. -/
def posLineStart (src : List Char) : Nat → Nat
  | 0 => 0
  | i + 1 => if src[i]? = some '\n' then i + 1 else posLineStart src i

def lineCol (src : List Char) (i : Nat) : Nat := i - posLineStart src i + 1

def mkPos (src : List Char) (off line : Nat) : Pos := ⟨line, lineCol src off, off⟩

/-- The tokens of what is left of a text, of which at most `n` are read, with their
positions. -/
def tokenizePosLoop (src : List Char) : Nat → List Char → Nat → Nat → List (Token × Pos)
  | 0, _, _, _ => []
  | n + 1, text, i, line =>
      let w := skipWsL text i line
      match w.1 with
      | [] => [(⟨.eof, .nil⟩, mkPos src w.2.1 w.2.2)]
      | c :: rest =>
          let r := readToken (decide (i < w.2.1)) (c :: rest)
          let next := w.2.1 + ((c :: rest).length - r.2.1.length)
          (r.1, mkPos src w.2.1 w.2.2) :: tokenizePosLoop src n r.2.1 next (w.2.2 + r.2.2)

def tokenizePos (text : List Char) : List (Token × Pos) :=
  tokenizePosLoop text (text.length + 1) text 0 1

/-! ### The token vector -/

/-- A text as C reads it back: up to the first zero byte. -/
def cString (text : List Char) : List Char := text.takeWhile (· ≠ '\x00')

/-- `vm.tok_type`.  Past the end there is nothing but the end. -/
def tokType (toks : List Token) (pos : Nat) : TokType :=
  match toks[pos]? with
  | some t => t.type
  | none => .eof

def TokVal.readBack : TokVal → TokVal
  | .str text => .str (cString text)
  | v => v

/-- `vm.tok_val`. -/
def tokVal (toks : List Token) (pos : Nat) : TokVal :=
  match toks[pos]? with
  | some t => t.val.readBack
  | none => .nil

/-- A value of a token as a form. -/
def TokVal.form : TokVal → Form
  | .nil => .nil
  | .int v => .int v
  | .str text => .str (String.ofList text)

/-- `str.to_sym`: at most 255 bytes of a text, and nil of anything else. -/
def TokVal.toSym : TokVal → Form
  | .str text => .sym (String.ofList (text.take 255))
  | _ => .nil

/-- The value is this text. -/
def TokVal.is (v : TokVal) (text : String) : Bool := v = .str text.toList

end TinyActor.Front
