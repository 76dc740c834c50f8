/-
Comma-separated values (`lib/csv.ta`).

The parser is made of combinators up to a record; the loop over the records is written out in
the source so that the failure of a later record is the one reported.  The writer pushes its
fragments into one buffer; here a buffer is the bytes pushed so far.
-/
import TinyActor.Stdlib.Mpc

namespace TinyActor.Stdlib.Csv

open Mpc

/-! ### Parsing -/

/-- `is_field_char`. -/
def isFieldChar (c : Int) : Bool := c != 44 && (c != 34 && (c != 13 && (c != 10 && c ≥ 32)))

def unquotedField : Parser Bytes := Mpc.takeWhile isFieldChar

/-- `qchar`: two quotes are one, everything but a quote is itself. -/
def qchar : Parser Bytes :=
  choice (pmap (fun _ => ascii "\"") (lit (ascii "\"\"")))
    (pmap Str.chr (satisfy fun c => c != 34))

/-- `join`. -/
def join : List Bytes → Bytes → Bytes
  | [], acc => acc
  | p :: ps, acc => join ps (Str.concat acc p)

def quotedField : Parser Bytes :=
  bind (lit (ascii "\"")) fun _ =>
  bind (star qchar) fun parts =>
  bind (lit (ascii "\"")) fun _ =>
  ret (join parts [])

/-- `field`: the first character decides. -/
def field : Parser Bytes := fun s i =>
  if Str.charAt s i = 34 then quotedField s i else unquotedField s i

def commaField : Parser Bytes :=
  bind (lit (ascii ",")) fun _ =>
  bind field fun f =>
  ret f

def recordGrammar : Parser (List Bytes) :=
  bind field fun f =>
  bind (star commaField) fun rest =>
  ret (f :: rest)

def newline : Parser Bytes := choice (lit (ascii "\r\n")) (lit (ascii "\n"))

def endOfFile : Parser Unit := fun s i =>
  if i = s.length then .ok () i
  else errAt (ascii "expecting ',' or a new record (newline)") i

/-- `records_loop`, for at most so many records. -/
def recordsLoop (s : Bytes) : Nat → Nat → List (List Bytes) → Result (List (List Bytes))
  | 0, _, _ => .fail none
  | n + 1, i, acc =>
      match newline s i with
      | .fail _ =>
          match endOfFile s i with
          | .fail e => .fail e
          | .ok _ _ => .ok acc.reverse i
      | .ok _ j =>
          if j = s.length then .ok acc.reverse j
          else
            match recordGrammar s j with
            | .fail e => .fail e
            | .ok row k => recordsLoop s n k (row :: acc)

def fileGrammar : Parser (List (List Bytes)) := fun s i =>
  match recordGrammar s i with
  | .fail e => .fail e
  | .ok row j => recordsLoop s (s.length + 1) j [row]

/-- `parse`. -/
def parse (text : Bytes) : Except Bytes (List (List Bytes)) :=
  if Str.length text = 0 then .ok []
  else
    match fileGrammar text 0 with
    | .fail e => .error (fmtErr text e)
    | .ok rows _ => .ok rows

/-! ### Writing -/

/-- `needs_quote`. -/
def needsQuote : Bytes → Bool
  | [] => false
  | c :: cs => if c = 44 || (c = 34 || (c = 13 || c = 10)) then true else needsQuote cs

/-- `write_quoted_body`. -/
def writeQuotedBody (b : Bytes) : Bytes → Bytes
  | [] => b
  | c :: cs =>
      if c = 34 then writeQuotedBody (b ++ ascii "\"\"") cs else writeQuotedBody (b ++ [c]) cs

def writeField (b s : Bytes) : Bytes :=
  if needsQuote s then writeQuotedBody (b ++ ascii "\"") s ++ ascii "\"" else b ++ s

def writeRow (b : Bytes) : List Bytes → Bytes
  | [] => b
  | [f] => writeField b f
  | f :: fs => writeRow (writeField b f ++ ascii ",") fs

def writeRows (b : Bytes) : List (List Bytes) → Bytes
  | [] => b
  | [r] => writeRow b r
  | r :: rs => writeRows (writeRow b r ++ ascii "\r\n") rs

def write (rows : List (List Bytes)) : Bytes := writeRows [] rows

end TinyActor.Stdlib.Csv
