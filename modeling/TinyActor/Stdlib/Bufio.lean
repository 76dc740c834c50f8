/-
Buffered reading over an injected read function (`lib/bufio.ta`).

The read function is known only by the signals it answers with, one for each call: a chunk,
not ready yet, an error number, the end.  A source is the list of the signals it still has to
give; one that has none left goes on answering with the end.  A reader is its buffer, since
the read function never changes.
-/
import TinyActor.Stdlib.Str

namespace TinyActor.Stdlib

open Lib

/-- What the read function answers. -/
inductive Signal where
  | data (d : Bytes)
  | notReady
  | error (errno : Int)
  | eof
  deriving Repr, DecidableEq

/-- The chunks among some signals, put together. -/
def chunks : List Signal → Bytes
  | [] => []
  | .data d :: s => d ++ chunks s
  | _ :: s => chunks s

namespace Bufio

/-- The read function is the source; what a reader carries besides is the buffer. -/
structure Reader where
  acc : Bytes
  deriving Repr, DecidableEq

/-- `Step`: the payload and the reader to go on with. -/
structure Step where
  data : Option Bytes
  rest : Reader
  deriving Repr, DecidableEq

/-- `Result(Step, NetErr)`; the only error is `IoErr`. -/
inductive Result where
  | ok (step : Step)
  | ioErr (errno : Int)
  deriving Repr, DecidableEq

def readerNew : Reader := ⟨[]⟩

/-- `eof_data`: what is left over, if anything is. -/
def eofData (acc : Bytes) : Option Bytes := if Str.length acc > 0 then some acc else none

/-- `read_until`. -/
def readUntil (delim : Bytes) (r : Reader) (src : List Signal) : Result × List Signal :=
  let idx := Str.indexOf r.acc delim
  if idx ≥ 0 then
    let dlen := Str.length delim
    let data := Str.substr r.acc 0 idx
    let rest := Str.substr r.acc (idx + dlen) (Str.length r.acc - idx - dlen)
    (.ok ⟨some data, ⟨rest⟩⟩, src)
  else
    match src with
    | [] => (.ok ⟨eofData r.acc, ⟨[]⟩⟩, [])
    | .notReady :: src => readUntil delim r src
    | .eof :: src => (.ok ⟨eofData r.acc, ⟨[]⟩⟩, src)
    | .error e :: src => (.ioErr e, src)
    | .data d :: src => readUntil delim ⟨Str.concat r.acc d⟩ src

/-- `read_line` is `read_until` with a newline. -/
def readLine (r : Reader) (src : List Signal) : Result × List Signal :=
  readUntil (ascii "\n") r src

/-- `read_exact`. -/
def readExact (n : Int) (r : Reader) (src : List Signal) : Result × List Signal :=
  if n ≤ 0 then (.ok ⟨some [], r⟩, src)
  else if Str.length r.acc ≥ n then
    let data := Str.substr r.acc 0 n
    let rest := Str.substr r.acc n (Str.length r.acc - n)
    (.ok ⟨some data, ⟨rest⟩⟩, src)
  else
    match src with
    | [] => (.ok ⟨none, r⟩, [])
    | .notReady :: src => readExact n r src
    | .eof :: src => (.ok ⟨none, r⟩, src)
    | .error e :: src => (.ioErr e, src)
    | .data d :: src => readExact n ⟨Str.concat r.acc d⟩ src

/-- `read_available`: the buffer and at most one chunk. -/
def readAvailable (r : Reader) (src : List Signal) : Result × List Signal :=
  match src with
  | [] => (.ok ⟨eofData r.acc, ⟨[]⟩⟩, [])
  | .notReady :: src =>
      if Str.length r.acc > 0 then (.ok ⟨some r.acc, ⟨[]⟩⟩, src) else readAvailable r src
  | .eof :: src => (.ok ⟨eofData r.acc, ⟨[]⟩⟩, src)
  | .error e :: src => (.ioErr e, src)
  | .data d :: src => (.ok ⟨some (Str.concat r.acc d), ⟨[]⟩⟩, src)

/-! ### Sequences of calls -/

inductive Call where
  | line
  | until (delim : Bytes)
  | exact (n : Int)
  | available
  deriving Repr, DecidableEq

def Call.run : Call → Reader → List Signal → Result × List Signal
  | .line, r, src => readLine r src
  | .until delim, r, src => readUntil delim r src
  | .exact n, r, src => readExact n r src
  | .available, r, src => readAvailable r src

/-- The reader a caller goes on with: the one it was handed, or after an error the one it
had. -/
def Result.reader (r : Reader) : Result → Reader
  | .ok s => s.rest
  | .ioErr _ => r

def Result.failed : Result → Bool
  | .ok _ => false
  | .ioErr _ => true

def Result.data : Result → Bytes
  | .ok s => s.data.getD []
  | .ioErr _ => []

/-- One call as it went: the reader it was made with, the signals it took and its result. -/
structure Event where
  call : Call
  reader : Reader
  read : List Signal
  result : Result
  deriving Repr, DecidableEq

/-- Calls one after another on one source: how each went, the last reader, and what is left of
the source. -/
def session : List Call → Reader → List Signal → List Event × Reader × List Signal
  | [], r, src => ([], r, src)
  | c :: cs, r, src =>
      let out := c.run r src
      let rest := session cs (out.1.reader r) out.2
      (⟨c, r, src.take (src.length - out.2.length), out.1⟩ :: rest.1, rest.2)

/-- The delimiter of a call that has one. -/
def Call.delim : Call → Option Bytes
  | .line => some (ascii "\n")
  | .until delim => some delim
  | _ => none

/-- The bytes a call took away from the stream: the data it returned, and behind it the
delimiter, if the call has one and it was there. -/
def Event.taken (e : Event) : Bytes :=
  match e.call.delim with
  | some delim =>
      if delim <:+: e.reader.acc ++ chunks e.read ∧ e.result.failed = false then
        e.result.data ++ delim
      else e.result.data
  | none => e.result.data

end Bufio

end TinyActor.Stdlib
