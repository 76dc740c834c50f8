/-
Command-line flags (`lib/arg.ta`).

The parser takes one token at a time.  A flag with an equals sign carries its value;
one without is a boolean, or takes the next token whatever it looks like.  In the
source `parse_flag` and `with_raw_value` go on with the loop themselves; here they
hand back what the loop goes on with, and a flag that takes the next token is an
argument of the loop.

The usage texts are left out: only `usage` reads them.
-/
import TinyActor.Stdlib.Dict
import TinyActor.Stdlib.Strconv

namespace TinyActor.Stdlib.Arg

/-- What a flag can be bound to. -/
inductive Value
  | bool (b : Bool)
  | int (n : Int)
  | str (s : Bytes)
deriving DecidableEq, Repr

structure Flag where
  name : Bytes
  kind : Bytes
  default : Value

structure Parsed where
  flags : Dict Bytes Value
  rest : List Bytes

/-- `kind_of`. -/
def kindOf : List Flag → Bytes → Option Bytes
  | [], _ => none
  | f :: spec, name => if f.name = name then some f.kind else kindOf spec name

def defaultFlags (spec : List Flag) : Dict Bytes Value :=
  spec.foldl (fun d e => d.insert e.name e.default) Dict.strNew

/-- `is_flag`: a dash and more. -/
def isFlag (t : Bytes) : Bool := Str.charAt t 0 = 45 ∧ Str.length t > 1

def dashCount (t : Bytes) : Int := if Str.charAt t 1 = 45 then 2 else 1

def convert (kind name raw : Bytes) : Except Bytes Value :=
  if kind = ascii "bool" then
    if raw = ascii "true" then .ok (.bool true)
    else if raw = ascii "false" then .ok (.bool false)
    else .error (ascii "invalid bool for --" ++ name ++ ascii ": " ++ raw)
  else if kind = ascii "int" then
    match Strconv.strToInt raw 10 with
    | .ok v => .ok (.int v)
    | .error _ => .error (ascii "invalid int for --" ++ name ++ ascii ": " ++ raw)
  else if kind = ascii "string" then .ok (.str raw)
  else .error (ascii "invalid kind for --" ++ name ++ ascii ": " ++ kind)

/-! ### `parse_args` -/

def unknownFlag (name : Bytes) : Bytes := ascii "unknown flag: --" ++ name

def missingValue (name : Bytes) : Bytes := ascii "missing value for --" ++ name

def terminator : Bytes := ascii "--"

/-- `with_raw_value`: the bindings the loop goes on with. -/
def withRawValue (spec : List Flag) (flags : Dict Bytes Value) (name raw : Bytes) :
    Except Bytes (Dict Bytes Value) :=
  match kindOf spec name with
  | none => .error (unknownFlag name)
  | some kind =>
      match convert kind name raw with
      | .error msg => .error msg
      | .ok v => .ok (flags.insert name v)

/-- What a flag token comes to: a refusal, bindings, or a flag that waits for the
next token. -/
inductive Reading
  | refused (msg : Bytes)
  | bound (flags : Dict Bytes Value)
  | awaits (name : Bytes)

def Reading.ofExcept : Except Bytes (Dict Bytes Value) → Reading
  | .error msg => .refused msg
  | .ok flags => .bound flags

/-- `parse_flag`, as far as it does not look at the next token. -/
def parseFlag (spec : List Flag) (flags : Dict Bytes Value) (t : Bytes) : Reading :=
  let body := Str.substr t (dashCount t) (Str.length t)
  let i := Str.indexOf body [61]
  if i ≥ 0 then
    .ofExcept (withRawValue spec flags (Str.substr body 0 i)
      (Str.substr body (i + 1) (Str.length body)))
  else
    match kindOf spec body with
    | none => .refused (unknownFlag body)
    | some kind =>
        if kind = ascii "bool" then .bound (flags.insert body (.bool true)) else .awaits body

/-- The loop goes on, or the refusal is the answer. -/
def Reading.andThen (r : Reading) (next : Dict Bytes Value → Except Bytes Parsed)
    (await : Bytes → Except Bytes Parsed) : Except Bytes Parsed :=
  match r with
  | .refused msg => .error msg
  | .bound flags => next flags
  | .awaits name => await name

/-- `parse_loop`, with the flag that takes the next token if there is one. -/
def parseLoop (spec : List Flag) :
    List Bytes → Dict Bytes Value → List Bytes → Option Bytes → Except Bytes Parsed
  | [], flags, pos, none => .ok ⟨flags, pos⟩
  | [], _, _, some name => .error (missingValue name)
  | t :: rest, flags, pos, none =>
      if t = terminator then .ok ⟨flags, pos ++ rest⟩
      else if isFlag t then
        (parseFlag spec flags t).andThen (fun flags => parseLoop spec rest flags pos none)
          fun name => parseLoop spec rest flags pos (some name)
      else parseLoop spec rest flags (pos ++ [t]) none
  | raw :: rest, flags, pos, some name =>
      (Reading.ofExcept (withRawValue spec flags name raw)).andThen
        (fun flags => parseLoop spec rest flags pos none)
        fun name => parseLoop spec rest flags pos (some name)

def parseArgs (spec : List Flag) (toks : List Bytes) : Except Bytes Parsed :=
  parseLoop spec toks (defaultFlags spec) [] none

def Parsed.get (p : Parsed) (name : Bytes) : Option Value := p.flags.get name

end TinyActor.Stdlib.Arg
