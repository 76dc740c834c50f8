/-
The parser, `lib/bootstrap/parser.ta`: recursive descent over the token vector.

Every function of the parser is given a position and gives back a form and the position
after it.  They call one another in every direction and nothing bounds how deep, so a
function is written with its calls as a parameter: `Call` names a function with its
arguments, and `parseCall` says what each does, given what the calls it makes do.  `run`
ties the knot with a number of calls to spend.

A form the parser rejects is replaced by a marker, `(parse_error msg . pos)`, and parsing
goes on.  What happens to markers is not visible in what the functions return, so a log is
kept beside them that nothing reads: the markers made, the sub-results that are left out
together with the place they stood in because another marker takes it, and the sub-results
left out of a form that stays.  Of sub-results only those are noted in which
`find_parse_error` of `lib/bootstrap/driver.ta` would have found a marker.

Marking statements for coverage is left out: without positions it does nothing.
-/
import TinyActor.Front.Tokenizer

namespace TinyActor.Front

open TinyActor.Vm (Symbol Reason)
open TinyActor.Bootstrap (Form)

/-! ### Markers -/

/-- The message and the position of a marker. -/
abbrev Marker := String × Nat

/-- The marker whose name stands before this. -/
def markerOf : Form → Option Marker
  | .pair (.str msg) (.int pos) => some (msg, pos.toNat)
  | .pair (.str msg) _ => some (msg, 0)
  | .str msg => some (msg, 0)
  | _ => none

/-- The markers in a form, in the order in which they are looked for.  What has the name of
a marker at its head is not looked into. -/
def marks : Form → List Marker
  | .pair a d => if a = .sym "parse_error" then (markerOf d).toList else marks a ++ marks d
  | _ => []

/-! ### The parser's state -/

/-- Why the parser gives no result: it died, or was not given enough calls. -/
inductive ParseStop
  | died (reason : Reason)
  | calls
deriving DecidableEq, Repr

structure Log where
  made : List Marker := []
  replaced : List Marker := []
  dropped : List Marker := []
deriving DecidableEq, Repr

abbrev Parse := StateT Log (Except ParseStop)

/-- A form and the position after it. -/
abbrev Parsed := Form × Nat

/-- A marker stands for the position of the token it complains of. -/
def marker (msg : String) (pos : Nat) : Form :=
  .pair (.sym "parse_error") (.pair (.str msg) (.int (BitVec.ofNat 48 pos)))

def mkParseError (msg : String) (pos : Nat) : Parse Parsed := do
  modify fun log => { log with made := log.made ++ marks (marker msg pos) }
  return (marker msg pos, pos)

def mkParseErrorAt (msg : String) (pos : Nat) : Parse Parsed := do
  return ((← mkParseError msg pos).1, pos + 1)

/-- Forms a marker takes the place of. -/
def replace (forms : List Form) : Parse Unit :=
  modify fun log => { log with replaced := log.replaced ++ forms.flatMap marks }

/-- Forms that are left out. -/
def drop (forms : List Form) : Parse Unit :=
  modify fun log => { log with dropped := log.dropped ++ forms.flatMap marks }

/-! ### Forms -/

/-- A form with this name at its head. -/
def headIs (name : Symbol) : Form → Bool
  | .pair head _ => head = .sym name
  | _ => false

/-- `list.nth`: nil where there is no such element. -/
def nth : Form → Nat → Form
  | .pair a _, 0 => a
  | .pair _ d, n + 1 => nth d n
  | _, _ => .nil

def extractNames : Form → Form
  | .pair (.pair name _) rest => .pair name (extractNames rest)
  | _ => .nil

def extractTypes : Form → Form
  | .pair (.pair _ type) rest => .pair type (extractTypes rest)
  | _ => .nil

def hasAnyNonnil : Form → Bool
  | .pair .nil rest => hasAnyNonnil rest
  | .pair _ _ => true
  | _ => false

def hasAnyType (types ret : Form) : Bool := ret ≠ .nil || hasAnyNonnil types

/-- Forms one after another onto a list in reverse. -/
def prependAll : Form → List Form → List Form
  | .pair form rest, acc => prependAll rest (form :: acc)
  | _, acc => acc

def curryType : Form → Form → Form
  | .pair a rest, ret => .ofList [.sym "arrow", a, curryType rest ret]
  | _, ret => ret

/-- The chain of pairs a constructor is applied by, over the items in order. -/
def consChain : List Form → Form
  | [] => .nil
  | e :: rest => .ofList [.sym "cons", e, consChain rest]

def consChainOf : Form → Form
  | .pair e rest => .ofList [.sym "cons", e, consChainOf rest]
  | _ => .nil

/-- The elements of a list pattern around what stands for the rest, the last first. -/
def buildConsPatterns : List Form → Form → Form
  | [], result => result
  | item :: items, result => buildConsPatterns items (.ofList [.sym "cons", item, result])

def isAndOrHead : List Form → Bool
  | .sym "and" :: _ => true
  | .sym "or" :: _ => true
  | _ => false

def binary (op : String) (left right : Form) : Form := .ofList [.sym op, left, right]

def quoted (name : Form) : Form := .ofList [.sym "quote", name]

/-- A statement that binds a name for the rest of its block. -/
def isLetForm (form : Form) : Parse Bool :=
  if headIs "let" form then
    match form with
    | .pair _ (.pair _ (.pair _ tail)) => pure (tail = .nil)
    | _ => throw (.died .cdrtype)
  else pure false

/-- The head no call can have. -/
def useHead : Form := .pair (.sym "use") (.sym "use")

def isUseForm (form : Form) : Parse Bool :=
  match form with
  | .pair head rest =>
      if head = useHead then
        match rest with
        | .pair _ (.pair _ tail) => pure (tail = .nil)
        | .pair _ _ => pure false
        | _ => throw (.died .cdrtype)
      else pure false
  | _ => pure false

/-! ### Pipes -/

def pipeError (pos : Nat) : Parse Parsed :=
  mkParseError "pipe target must be a function call (x |> f(a, b))" (pos + 1)

def notPipeable : List Symbol :=
  ["quote", "if", "let", "begin", "match", "and", "or", "float", "+", "-", "*", "/", "%", "=",
    "!=", "<", ">", "<=", ">="]

def isPipeableHead : Form → Bool
  | .sym name => name ∉ notPipeable
  | _ => false

/-- A marker on the right is taken for a call, and is no marker after that. -/
def pipedMarker (head : Form) (forms : List Form) : Parse Unit :=
  if head = .sym "parse_error" then drop forms else pure ()

/-- A list without its first element; a marker is not taken apart. -/
def restOf : Form → Form
  | .pair a d => if a = .sym "parse_error" then .pair a d else d
  | f => f

/-- `left` becomes the first argument of the constructor. -/
def pipeConstructor (left args : Form) (pos : Nat) : Parse Parsed :=
  match args with
  | .pair ctor (.pair chain more) =>
      if headIs "quote" ctor then do
        drop [restOf (.pair chain more)]
        return (.ofList [.sym "cons", ctor, .ofList [.sym "cons", left, chain]], pos)
      else do
        replace [left, args]
        pipeError pos
  | _ => throw (.died .cartype)

/-- `left` becomes the first argument of the call on the right. -/
def rewritePipe (left right : Form) (pos : Nat) : Parse Parsed :=
  match right with
  | .pair head args =>
      if isPipeableHead head then
        if head = .sym "cons" then pipeConstructor left args pos
        else do
          pipedMarker head [left, right]
          return (.pair head (.pair left args), pos)
      else do
        replace [left, right]
        pipeError pos
  | right =>
      if isPipeableHead right then pure (.ofList [right, left], pos)
      else do
        replace [left]
        pipeError pos

/-! ### Calls -/

/-- The functions of the parser with their arguments.  Lists of what has been read are in
reverse. -/
inductive Call
  | expr (pos : Nat)
  | orLevel (pos : Nat)
  | pipeRest (pos : Nat) (left : Form)
  | orRest (pos : Nat) (left : Form)
  | andRest (pos : Nat) (left : Form)
  | comparison (pos : Nat)
  | comparisonRest (pos : Nat) (left : Form)
  | additive (pos : Nat)
  | additiveRest (pos : Nat) (left : Form)
  | multiplicative (pos : Nat)
  | multRest (pos : Nat) (left : Form)
  | operandChain (pos : Nat)
  | chainSuffix (pos : Nat) (node : Form)
  | operand (pos : Nat)
  | lambda (pos : Nat)
  | paramsLoop (pos : Nat) (acc : List Form)
  | singleParam (pos : Nat)
  | typeAfterColon (pos : Nat)
  | typeAtom (pos : Nat)
  | typeArgs (pos : Nat) (acc : List Form)
  | fnType (pos : Nat)
  | identOrCall (pos : Nat)
  | callArgsList (pos : Nat) (acc : List Form)
  | callArgs (pos : Nat) (acc : List Form)
  | parenList (pos : Nat) (acc : List Form)
  | braced (pos : Nat)
  | blockRest (pos : Nat)
  | blockForms (pos : Nat) (acc : List Form)
  | ifExpr (pos : Nat)
  | form (pos : Nat)
  | useForm (pos : Nat)
  | matchExpr (pos : Nat)
  | receive (pos : Nat)
  | matchArms (pos : Nat) (acc : List Form)
  | listExpr (pos : Nat) (acc : List Form)
  | bracketPattern (pos : Nat) (acc : List Form)
  | bracketRest (pos : Nat) (acc : List Form)
  | pattern (pos : Nat)
  | toplevels (pos : Nat) (acc : List Form)
  | toplevel (pos : Nat)
  | externalFn (pos : Nat)
  | externalParams (pos : Nat) (acc : List Form)
  | fn (pos : Nat) (isPub : Bool)
  | typeParams (pos : Nat) (acc : List Form)
  | type (pos : Nat)
  | variants (pos : Nat) (acc : List Form)
  | variant (pos : Nat)
  | variantFields (pos : Nat) (acc : List Form)

section Functions

variable (toks : List Token) (go : Call → Parse Parsed)

/-! ### The cursor -/

def isType (pos : Nat) (type : TokType) : Bool := tokType toks pos = type

def isKwAt (pos : Nat) (kw : String) : Bool := isType toks pos .kw && (tokVal toks pos).is kw

def isOp (pos : Nat) (op : String) : Bool := isType toks pos .op && (tokVal toks pos).is op

/-- Past a token of a type if one is there. -/
def skip (type : TokType) (pos : Nat) : Nat := if isType toks pos type then pos + 1 else pos

def isUppercase : TokVal → Bool
  | .str (c :: _) => 'A' ≤ c && c ≤ 'Z'
  | _ => false

/-- A parenthesis with space before it. -/
def isWsLparen (pos : Nat) : Bool := isType toks pos .lparen && tokVal toks pos = .int 1

/-! ### Expressions -/

def parseExpr (pos : Nat) : Parse Parsed := do
  let (left, p) ← go (.orLevel pos)
  go (.pipeRest p left)

def parseOrLevel (pos : Nat) : Parse Parsed := do
  let (left, p) ← go (.comparison pos)
  let (left2, p2) ← go (.andRest p left)
  go (.orRest p2 left2)

def parsePipeRest (pos : Nat) (left : Form) : Parse Parsed := do
  if isOp toks pos "|>" then
    let (right, p2) ← go (.orLevel (pos + 1))
    let rw ← rewritePipe left right pos
    if headIs "parse_error" rw.1 then return rw else go (.pipeRest p2 rw.1)
  else return (left, pos)

/-- One of the operators `table` gives a name to, with what stands on its right, and more of
the same; or what comes after if there is none. -/
def parseInfix (table : List (String × String)) (right : Nat → Call) (again : Nat → Form → Call)
    (after : Nat → Form → Parse Parsed) (pos : Nat) (left : Form) : Parse Parsed := do
  match table.find? fun entry => isOp toks pos entry.1 with
  | some (_, name) =>
      let (r, p) ← go (right (pos + 1))
      go (again p (binary name left r))
  | none => after pos left

def stop (pos : Nat) (left : Form) : Parse Parsed := pure (left, pos)

def parseOrRest (pos : Nat) (left : Form) : Parse Parsed :=
  parseInfix toks go [("||", "or")] .comparison .orRest stop pos left

def parseAndRest (pos : Nat) (left : Form) : Parse Parsed :=
  parseInfix toks go [("&&", "and")] .comparison .andRest stop pos left

def parseComparison (pos : Nat) : Parse Parsed := do
  let (left, p) ← go (.additive pos)
  parseInfix toks go
    [("<", "<"), (">", ">"), ("<=", "<="), (">=", ">="), ("==", "="), ("!=", "!=")]
    .additive .comparisonRest (fun p left => go (.andRest p left)) p left

/-- After the first comparison `<=` and `>=` are not looked for. -/
def parseComparisonRest (pos : Nat) (left : Form) : Parse Parsed :=
  parseInfix toks go [("<", "<"), (">", ">"), ("==", "="), ("!=", "!=")] .additive
    .comparisonRest (fun p left => go (.andRest p left)) pos left

def parseAdditive (pos : Nat) : Parse Parsed := do
  let (left, p) ← go (.multiplicative pos)
  go (.additiveRest p left)

def parseAdditiveRest (pos : Nat) (left : Form) : Parse Parsed :=
  parseInfix toks go [("+", "+"), ("-", "-")] .multiplicative .additiveRest stop pos left

def parseMultiplicative (pos : Nat) : Parse Parsed := do
  let (left, p) ← go (.operandChain pos)
  go (.multRest p left)

def parseMultRest (pos : Nat) (left : Form) : Parse Parsed :=
  parseInfix toks go [("*", "*"), ("/", "/"), ("%", "%")] .operandChain .multRest stop pos left

def parseOperandChain (pos : Nat) : Parse Parsed := do
  let (node, p) ← go (.operand pos)
  go (.chainSuffix p node)

def parseChainSuffix (pos : Nat) (node : Form) : Parse Parsed := do
  if isType toks pos .lparen then
    let (args, p2) ← go (.callArgsList (pos + 1) [])
    go (.chainSuffix p2 (.pair node args))
  else return (node, pos)

/-- A keyword where an operand should be. -/
def parseKeyword (pos : Nat) : Parse Parsed :=
  let val := tokVal toks pos
  if val.is "nil" then pure (.nil, pos + 1)
  else if val.is "true" then pure (.bool true, pos + 1)
  else if val.is "false" then pure (.bool false, pos + 1)
  else if val.is "fn" then go (.lambda pos)
  else if val.is "if" then go (.ifExpr pos)
  else if val.is "match" then go (.matchExpr pos)
  else if val.is "receive" then go (.receive pos)
  else go (.identOrCall pos)

def parseOperand (pos : Nat) : Parse Parsed :=
  let val := tokVal toks pos
  match tokType toks pos with
  | .op =>
      if val.is "|" then mkParseErrorAt "'|' is only allowed in list patterns" pos
      else pure (val.toSym, pos + 1)
  | .int => pure (val.form, pos + 1)
  | .float => pure (.ofList [.sym "float", val.form], pos + 1)
  | .string => pure (val.form, pos + 1)
  | .kw => parseKeyword toks go pos
  | .ident => go (.identOrCall pos)
  | .lbracket => go (.listExpr (pos + 1) [])
  | .lparen => go (.parenList (pos + 1) [])
  | .lbrace => go (.braced pos)
  | .quote => pure (quoted (tokVal toks (pos + 1)).toSym, pos + 2)
  | _ => pure (.nil, pos + 1)

/-! ### Types -/

def parseReturnType (pos : Nat) : Parse Parsed :=
  if isType toks pos .arrow then go (.typeAfterColon (pos + 1)) else pure (.nil, pos)

/-- The elements up to a closing parenthesis, separated by commas or not. -/
def parseElements (elem : Nat → Parse Parsed) (again : Nat → List Form → Call)
    (finish : List Form → Form) (pos : Nat) (acc : List Form) : Parse Parsed := do
  if isType toks pos .rparen then return (finish acc, pos + 1)
  else if isType toks pos .eof then return (finish acc, pos)
  else
    let (e, p) ← elem pos
    go (again (skip toks .comma p) (e :: acc))

def inOrder (acc : List Form) : Form := .ofList acc.reverse

/-- What stands in parentheses, if there are any. -/
def parseParens (elements : Nat → List Form → Call) (pos : Nat) : Parse Parsed :=
  if isType toks pos .lparen then go (elements (pos + 1) []) else pure (.nil, pos)

def parseParamsLoop (pos : Nat) (acc : List Form) : Parse Parsed :=
  parseElements toks go (fun p => go (.singleParam p)) .paramsLoop inOrder pos acc

/-- A name and its type, or nil for a type. -/
def parseSingleParam (pos : Nat) : Parse Parsed := do
  let name := (tokVal toks pos).toSym
  if isType toks (pos + 1) .colon then
    let (type, p) ← go (.typeAfterColon (pos + 2))
    return (.pair name type, p)
  else return (.pair name .nil, pos + 1)

def parseTypeAfterColon (pos : Nat) : Parse Parsed := do
  if isKwAt toks pos "fn" then go (.fnType pos)
  else
    let (base, p) ← go (.typeAtom pos)
    if isType toks p .arrow then
      let (right, p2) ← go (.typeAfterColon (p + 1))
      return (binary "arrow" base right, p2)
    else return (base, p)

def parseTypeAtom (pos : Nat) : Parse Parsed := do
  if isType toks pos .quote then
    return (quoted (tokVal toks (pos + 1)).toSym, pos + 2)
  else
    let name := (tokVal toks pos).toSym
    if isType toks (pos + 1) .lparen then
      let (args, p2) ← go (.typeArgs (pos + 2) [])
      return (.pair name args, p2)
    else return (name, pos + 1)

def parseTypeArgs (pos : Nat) (acc : List Form) : Parse Parsed :=
  parseElements toks go (fun p => go (.typeAfterColon p)) .typeArgs inOrder pos acc

def parseFnType (pos : Nat) : Parse Parsed := do
  if !isType toks (pos + 1) .lparen then
    mkParseErrorAt "'fn' in a type needs a parameter list: fn(A, B) -> R" pos
  else
    let (args, p2) ← go (.typeArgs (pos + 2) [])
    if args = .nil then mkParseErrorAt "fn() with no parameters is not a type" (p2 - 1)
    else if !isType toks p2 .arrow then
      replace [args]
      mkParseErrorAt "function type needs a result: fn(A, B) -> R" p2
    else
      let (right, p3) ← go (.typeAfterColon (p2 + 1))
      return (curryType args right, p3)

/-! ### Functions and calls -/

/-- The types of the parameters are read and left out. -/
def parseLambda (pos : Nat) : Parse Parsed := do
  let (pairs, p2) ← parseParens toks go .paramsLoop (pos + 1)
  drop [extractTypes pairs]
  let (ret, p3) ← parseReturnType toks go p2
  let (body, p4) ← go (.braced p3)
  return (.ofList [.sym "lambda", extractNames pairs, body, ret], p4)

def parseIdentOrCall (pos : Nat) : Parse Parsed := do
  let name := tokVal toks pos
  let p := pos + 1
  if isUppercase name then
    if isWsLparen toks p then
      mkParseError "constructor call must be glued: P(x), not P (x)" (p + 1)
    else if isType toks p .lparen then
      let (args, p2) ← go (.callArgs (p + 1) [])
      return (.ofList [.sym "cons", quoted name.toSym, args], p2)
    else return (quoted name.toSym, p)
  else
    if isWsLparen toks p then
      mkParseError "call must be glued: f(x), not f (x)" (p + 1)
    else if isType toks p .lparen then
      let (args, p2) ← go (.callArgsList (p + 1) [])
      return (.pair name.toSym args, p2)
    else return (name.toSym, p)

def parseCallArgsList (pos : Nat) (acc : List Form) : Parse Parsed :=
  parseElements toks go (fun p => go (.expr p)) .callArgsList inOrder pos acc

/-- `parse_call_args`, the arguments as a chain. -/
def parseCallArgs (pos : Nat) (acc : List Form) : Parse Parsed :=
  parseElements toks go (fun p => go (.expr p)) .callArgs (fun acc => consChain acc.reverse) pos acc

def parseParenList (pos : Nat) (acc : List Form) : Parse Parsed := do
  if isType toks pos .rparen then
    if isAndOrHead acc.reverse then
      replace acc
      mkParseError "use && or || instead of (and ...)/(or ...)" (pos + 1)
    else
      match acc with
      -- nothing between the parentheses: the tail of no list is asked for
      | [] => throw (.died .cdrtype)
      | [item] => return (item, pos + 1)
      | _ =>
          replace acc
          mkParseError "no Lisp-style parenthesized calls: write f(x) instead of (f x)" (pos + 1)
  else if isType toks pos .eof then return (inOrder acc, pos)
  else
    let (e, p) ← go (.expr pos)
    go (.parenList p (e :: acc))

/-! ### Blocks -/

def parseBraced (pos : Nat) : Parse Parsed := do
  let (body, p2) ← go (.blockRest (skip toks .lbrace pos))
  return (body, skip toks .rbrace p2)

/-- The end of a block. -/
def blockEnds (pos : Nat) : Bool := isType toks pos .rbrace || isType toks pos .eof

def parseBlockRest (pos : Nat) : Parse Parsed := do
  let p := skip toks .semicol pos
  if blockEnds toks p then return (.nil, p)
  else
    let (first, q) ← go (.form p)
    let p2 := skip toks .semicol q
    if ← isLetForm first then
      let (rest, p3) ← go (.blockRest p2)
      return (.ofList [.sym "let", nth first 1, nth first 2, rest], p3)
    else if ← isUseForm first then
      let (rest, p3) ← go (.blockRest p2)
      let lam := .ofList [.sym "lambda", .ofList [nth first 1], rest]
      return (.ofList [nth first 2, lam], p3)
    else if blockEnds toks p2 then return (first, p2)
    else
      let (forms, p3) ← go (.blockForms p2 [])
      return (.pair (.sym "begin") (.pair first forms), p3)

def useError : String := "use must be the first statement of a block (use x <- expr)"

def parseBlockForms (pos : Nat) (acc : List Form) : Parse Parsed := do
  let p := skip toks .semicol pos
  if blockEnds toks p then return (inOrder acc, p)
  else
    let (form, q) ← go (.form p)
    let p2 := skip toks .semicol q
    if ← isUseForm form then
      replace (form :: acc)
      mkParseError useError p2
    else go (.blockForms p2 (form :: acc))

/-- A body without braces, which cannot bind by `use`. -/
def parseBareBody (pos : Nat) : Parse Parsed := do
  let (form, q) ← go (.form pos)
  if ← isUseForm form then
    replace [form]
    mkParseError useError q
  else return (form, q)

def parseBody (pos : Nat) : Parse Parsed :=
  if isType toks pos .lbrace then go (.braced pos) else parseBareBody go pos

def parseIfExpr (pos : Nat) : Parse Parsed := do
  let (cond, p) ← go (.expr (pos + 1))
  let (yes, p2) ← go (.braced p)
  if isKwAt toks p2 "else" then
    let (no, p3) ← parseBody toks go (p2 + 1)
    return (.ofList [.sym "if", cond, yes, no], p3)
  else return (.ofList [.sym "if", cond, yes, .nil], p2)

/-- `<-`, which is two tokens, the second of which may be the sign of a number. -/
def isArrow (pos : Nat) : Bool :=
  isOp toks pos "<" &&
    (isOp toks (pos + 1) "-" ||
      match tokType toks (pos + 1), tokVal toks (pos + 1) with
      | .int, .int v => v.slt 0
      | .float, .str (c :: _) => c = '-'
      | _, _ => false)

def isUseKeyword (pos : Nat) : Bool :=
  isType toks pos .ident && (tokVal toks pos).is "use" &&
    (isArrow toks (pos + 1) || (isType toks (pos + 1) .ident && isArrow toks (pos + 2)))

def parseForm (pos : Nat) : Parse Parsed := do
  if isKwAt toks pos "let" then
    let p := pos + 2
    let (e, p3) ← go (.expr (if isOp toks p "=" then p + 1 else p))
    return (.ofList [.sym "let", (tokVal toks (pos + 1)).toSym, e], p3)
  else if isKwAt toks pos "if" then go (.ifExpr pos)
  else if isKwAt toks pos "match" then go (.matchExpr pos)
  else if isKwAt toks pos "receive" then go (.receive pos)
  else if isUseKeyword toks pos then go (.useForm pos)
  else go (.expr pos)

/-- No expression begins here. -/
def useExprMissing (pos : Nat) : Bool :=
  match tokType toks pos with
  | .rbrace | .rparen | .eof | .semicol | .comma | .colon | .arrow => true
  | .op => (tokVal toks pos).is "-"
  | _ => false

/-- What follows `<-`, whose first token is at `pos`. -/
def parseUseExpr (name : Form) (pos : Nat) : Parse Parsed := do
  let exprPos := if isOp toks (pos + 1) "-" then pos + 2 else pos + 1
  if useExprMissing toks exprPos then
    mkParseError "use expects an expression after '<-' (use x <- expr)" exprPos
  else
    let (e, p) ← go (.expr exprPos)
    return (.ofList [useHead, name, e], p)

def parseUseForm (pos : Nat) : Parse Parsed :=
  if isArrow toks (pos + 1) then parseUseExpr toks go (.sym "_") (pos + 1)
  else parseUseExpr toks go (tokVal toks (pos + 1)).toSym (pos + 2)

/-! ### Matching -/

def parseArmsBraced (pos : Nat) : Parse Parsed := do
  let (arms, p3) ← go (.matchArms (skip toks .lbrace pos) [])
  return (arms, skip toks .rbrace p3)

def parseMatch (pos : Nat) : Parse Parsed := do
  let (scrut, p) ← go (.expr (pos + 1))
  let (arms, p4) ← parseArmsBraced toks go p
  return (.pair (.sym "match") (.pair scrut arms), p4)

def parseReceive (pos : Nat) : Parse Parsed := do
  let (arms, p4) ← parseArmsBraced toks go (pos + 1)
  return (.pair (.sym "receive") arms, p4)

/-- The guard of an arm, if it has one. -/
def parseGuard (pos : Nat) : Parse (Option Parsed) := do
  if isKwAt toks pos "when" then return some (← go (.expr (pos + 1)))
  else if isKwAt toks pos "if" then
    return some (← mkParseError "use 'when' instead of 'if' for match/receive guards" pos)
  else return none

def armForm (pat : Form) (guard : Option Parsed) (body : Form) : Form :=
  match guard with
  | some (g, _) => .ofList [pat, g, body]
  | none => .ofList [pat, body]

def parseMatchArms (pos : Nat) (acc : List Form) : Parse Parsed := do
  let p0 := skip toks .comma (skip toks .semicol pos)
  if blockEnds toks p0 then return (inOrder acc, p0)
  else
    let (pat, p2) ← go (.pattern p0)
    let guard ← parseGuard toks go p2
    let p3 := skip toks .arrow ((guard.map Prod.snd).getD p2)
    let (body, p4) ← parseBody toks go p3
    go (.matchArms p4 (armForm pat guard body :: acc))

def parseListExpr (pos : Nat) (acc : List Form) : Parse Parsed := do
  let p := skip toks .semicol pos
  if isType toks p .rbracket then return (.pair (.sym "list") (inOrder acc), p + 1)
  else if isType toks p .eof then return (.pair (.sym "list") (inOrder acc), p)
  else if isOp toks p "|" then
    replace acc
    mkParseErrorAt "'|' is only allowed in list patterns" p
  else
    let (e, q) ← go (.expr p)
    go (.listExpr (skip toks .comma (skip toks .semicol q)) (e :: acc))

def parseBracketPattern (pos : Nat) (acc : List Form) : Parse Parsed := do
  let p := skip toks .semicol pos
  if isType toks p .rbracket then return (buildConsPatterns acc .nil, p + 1)
  else if isType toks p .eof then return (buildConsPatterns acc .nil, p)
  else if isOp toks p "|" then
    replace acc
    mkParseError "expected a pattern before '|' in list pattern" p
  else
    let (pat, p2) ← go (.pattern p)
    let p3 := skip toks .semicol p2
    if isType toks p3 .comma then go (.bracketPattern (p3 + 1) (pat :: acc))
    else if isOp toks p3 "|" then go (.bracketRest (p3 + 1) (pat :: acc))
    else go (.bracketPattern p3 (pat :: acc))

def parseBracketRest (pos : Nat) (acc : List Form) : Parse Parsed := do
  let p := skip toks .semicol pos
  if isType toks p .rbracket then
    replace acc
    mkParseError "expected a pattern after '|' in list pattern" p
  else
    let (tail, q) ← go (.pattern p)
    let p2 := skip toks .semicol q
    if isType toks p2 .rbracket then return (buildConsPatterns acc tail, p2 + 1)
    else
      replace (tail :: acc)
      mkParseError "expected ']' after the rest pattern" p2

/-- What comes after the second argument is left out. -/
def dropAfterTwo : Form → Parse Unit
  | .pair _ (.pair _ more) => drop [more]
  | _ => pure ()

/-- A pattern that begins with a name. -/
def parseNamePattern (pos : Nat) : Parse Parsed := do
  let name := tokVal toks pos
  let p := pos + 1
  if isUppercase name then
    if isType toks p .lparen then
      let (args, p2) ← go (.callArgsList (p + 1) [])
      return (consChainOf (.pair (quoted name.toSym) args), p2)
    else return (quoted name.toSym, p)
  else if name.is "cons" then
    if isType toks p .lparen then
      let (args, p2) ← go (.callArgsList (p + 1) [])
      dropAfterTwo args
      return (.ofList [.sym "cons", nth args 0, nth args 1], p2)
    else return (name.toSym, p)
  else return (name.toSym, p)

def parsePattern (pos : Nat) : Parse Parsed := do
  let val := tokVal toks pos
  match tokType toks pos with
  | .int => return (val.form, pos + 1)
  | .float => mkParseError "float literals cannot be used in patterns" (pos + 1)
  | .string => return (val.form, pos + 1)
  | .kw => if val.is "nil" then return (.nil, pos + 1) else return (val.toSym, pos + 1)
  | .ident => parseNamePattern toks go pos
  | .quote =>
      if isType toks (pos + 1) .op then
        return (quoted (tokVal toks (pos + 1)).toSym, pos + 2)
      else
        let (pat, p) ← go (.pattern (pos + 1))
        return (quoted pat, p)
  | .lbracket => go (.bracketPattern (pos + 1) [])
  | _ => mkParseErrorAt "invalid pattern" pos

/-! ### The top level -/

def parseToplevels (pos : Nat) (acc : List Form) : Parse Parsed := do
  if isType toks pos .eof then return (inOrder acc, pos)
  else
    let (forms, p) ← go (.toplevel pos)
    if p ≤ pos then
      drop [forms]
      go (.toplevels (pos + 1) acc)
    else go (.toplevels p (prependAll forms acc))

def wrapSingle (r : Parsed) : Parsed := (.ofList [r.1], r.2)

/-- A marker with its position, in the place of a form. -/
def wrapError (msg : String) (pos : Nat) : Parse Parsed := do
  let (m, p) ← mkParseError msg pos
  return (.ofList [.pair m (.int (BitVec.ofNat 48 p))], pos)

def parseImport (pos : Nat) : Parse Parsed := do
  let name := (tokVal toks (pos + 1)).form
  if isType toks (pos + 2) .ident && (tokVal toks (pos + 2)).is "as" then
    return (.ofList [.ofList [.sym "import", name, (tokVal toks (pos + 3)).form]], pos + 4)
  else return (.ofList [.ofList [.sym "import", name, name]], pos + 2)

def parseConst (pos : Nat) : Parse Parsed := do
  if isOp toks (pos + 2) "=" then
    if isType toks (pos + 3) .eof then wrapError "const requires a value after '='" (pos + 1)
    else
      let (e, p) ← go (.expr (pos + 3))
      return (.ofList [.ofList [.sym "const", (tokVal toks (pos + 1)).toSym, e]], p)
  else wrapError "const requires 'NAME = expr'" (pos + 1)

def parseToplevel (pos : Nat) : Parse Parsed := do
  if isKwAt toks pos "pub" then
    if isKwAt toks (pos + 1) "fn" then go (.fn (pos + 1) true)
    else if isKwAt toks (pos + 1) "type" then return wrapSingle (← go (.type (pos + 1)))
    else return wrapSingle (← go (.expr pos))
  else if isKwAt toks pos "fn" then go (.fn pos false)
  else if isKwAt toks pos "import" then parseImport toks pos
  else if isKwAt toks pos "type" then return wrapSingle (← go (.type pos))
  else if isKwAt toks pos "external" then
    if isKwAt toks (pos + 1) "fn" then go (.externalFn (pos + 2))
    else return wrapSingle (← go (.expr pos))
  else if isKwAt toks pos "const" then parseConst toks go pos
  else return wrapSingle (← go (.expr pos))

def parseExternalFn (pos : Nat) : Parse Parsed := do
  let (params, p2) ← parseParens toks go .externalParams (pos + 1)
  let (ret, p3) ← parseReturnType toks go p2
  return (.ofList [.ofList [.sym "external_fn", (tokVal toks pos).toSym, params, ret]], p3)

/-- Past a name and a colon. -/
def skipLabel (pos : Nat) : Nat :=
  if isType toks pos .ident && isType toks (pos + 1) .colon then pos + 2 else pos

def parseExternalParams (pos : Nat) (acc : List Form) : Parse Parsed :=
  parseElements toks go (fun p => go (.typeAfterColon (skipLabel toks p))) .externalParams inOrder
    pos acc

/-- Up to a brace or the end, at most `n` tokens on. -/
def skipToLbrace : Nat → Nat → Nat
  | 0, pos => pos
  | n + 1, pos =>
      if isType toks pos .lbrace || isType toks pos .eof then pos else skipToLbrace n (pos + 1)

def parseFn (pos : Nat) (isPub : Bool) : Parse Parsed := do
  if !isType toks (pos + 1) .ident then
    wrapError
      "anonymous fn not allowed at top level; expected function name (for a lambda write: let f = fn(x) \x7b ... \x7d)"
      (pos + 1)
  else
    let name := (tokVal toks (pos + 1)).toSym
    let (pairs, p2) ← parseParens toks go .paramsLoop (pos + 2)
    let (ret, q) ← parseReturnType toks go p2
    let (body, p4) ← go (.braced (skipToLbrace toks toks.length q))
    let head := if isPub then "define_pub" else "define"
    let define := Form.ofList [.sym head, .pair name (extractNames pairs), body]
    let types := extractTypes pairs
    if hasAnyType types ret then
      return (.ofList [.ofList [.sym "type-sig", name, types, ret], define], p4)
    else return (.ofList [define], p4)

def parseTypeParams (pos : Nat) (acc : List Form) : Parse Parsed :=
  parseElements toks go (fun p => pure ((tokVal toks p).toSym, p + 1)) .typeParams inOrder pos acc

def parseType (pos : Nat) : Parse Parsed := do
  let (params, p1) ← parseParens toks go .typeParams (pos + 2)
  let (variants, p3) ← go (.variants (skip toks .lbrace p1) [])
  return (.pair (.sym "type") (.pair (tokVal toks (pos + 1)).toSym (.pair params variants)),
    skip toks .rbrace p3)

def parseVariants (pos : Nat) (acc : List Form) : Parse Parsed := do
  let p := skip toks .semicol pos
  if blockEnds toks p then return (inOrder acc, p)
  else
    let (variant, q) ← go (.variant p)
    go (.variants (skip toks .semicol q) (variant :: acc))

def parseVariant (pos : Nat) : Parse Parsed := do
  let name := (tokVal toks pos).toSym
  if isType toks (pos + 1) .lparen then
    let (args, p2) ← go (.variantFields (pos + 2) [])
    return (.pair name args, p2)
  else return (quoted name, pos + 1)

def parseVariantFields (pos : Nat) (acc : List Form) : Parse Parsed :=
  parseElements toks go (fun p => go (.expr (skipLabel toks p))) .variantFields inOrder pos acc

/-! ### The knot -/

def parseCall : Call → Parse Parsed
  | .expr pos => parseExpr go pos
  | .orLevel pos => parseOrLevel go pos
  | .pipeRest pos left => parsePipeRest toks go pos left
  | .orRest pos left => parseOrRest toks go pos left
  | .andRest pos left => parseAndRest toks go pos left
  | .comparison pos => parseComparison toks go pos
  | .comparisonRest pos left => parseComparisonRest toks go pos left
  | .additive pos => parseAdditive go pos
  | .additiveRest pos left => parseAdditiveRest toks go pos left
  | .multiplicative pos => parseMultiplicative go pos
  | .multRest pos left => parseMultRest toks go pos left
  | .operandChain pos => parseOperandChain go pos
  | .chainSuffix pos node => parseChainSuffix toks go pos node
  | .operand pos => parseOperand toks go pos
  | .lambda pos => parseLambda toks go pos
  | .paramsLoop pos acc => parseParamsLoop toks go pos acc
  | .singleParam pos => parseSingleParam toks go pos
  | .typeAfterColon pos => parseTypeAfterColon toks go pos
  | .typeAtom pos => parseTypeAtom toks go pos
  | .typeArgs pos acc => parseTypeArgs toks go pos acc
  | .fnType pos => parseFnType toks go pos
  | .identOrCall pos => parseIdentOrCall toks go pos
  | .callArgsList pos acc => parseCallArgsList toks go pos acc
  | .callArgs pos acc => parseCallArgs toks go pos acc
  | .parenList pos acc => parseParenList toks go pos acc
  | .braced pos => parseBraced toks go pos
  | .blockRest pos => parseBlockRest toks go pos
  | .blockForms pos acc => parseBlockForms toks go pos acc
  | .ifExpr pos => parseIfExpr toks go pos
  | .form pos => parseForm toks go pos
  | .useForm pos => parseUseForm toks go pos
  | .matchExpr pos => parseMatch toks go pos
  | .receive pos => parseReceive toks go pos
  | .matchArms pos acc => parseMatchArms toks go pos acc
  | .listExpr pos acc => parseListExpr toks go pos acc
  | .bracketPattern pos acc => parseBracketPattern toks go pos acc
  | .bracketRest pos acc => parseBracketRest toks go pos acc
  | .pattern pos => parsePattern toks go pos
  | .toplevels pos acc => parseToplevels toks go pos acc
  | .toplevel pos => parseToplevel toks go pos
  | .externalFn pos => parseExternalFn toks go pos
  | .externalParams pos acc => parseExternalParams toks go pos acc
  | .fn pos isPub => parseFn toks go pos isPub
  | .typeParams pos acc => parseTypeParams toks go pos acc
  | .type pos => parseType toks go pos
  | .variants pos acc => parseVariants toks go pos acc
  | .variant pos => parseVariant toks go pos
  | .variantFields pos acc => parseVariantFields toks go pos acc

end Functions

/-- A call of the parser, with at most `n` calls inside one another. -/
def run (toks : List Token) : Nat → Call → Parse Parsed
  | 0, _ => throw .calls
  | n + 1, c => parseCall toks (run toks n) c

/-- The top-level forms of a list of tokens, and the log. -/
def parse (n : Nat) (toks : List Token) : Except ParseStop (Form × Log) :=
  ((run toks n (.toplevels 0 [])).run {}).map fun r => (r.1.1, r.2)

end TinyActor.Front
