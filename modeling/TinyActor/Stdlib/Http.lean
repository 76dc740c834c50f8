/-
HTTP over a buffered reader (`lib/http.ta`): the connection loop of the server and the
response reader of the client.

A request or a response is read from a `Reader` over the signals of its connection.  The
connection loop is written with a bound on the number of requests it may handle, and reading
a body up to the end of the stream with a bound on the number of reads; both answer `none`
when the bound is too small and for no other reason.
-/
import TinyActor.Stdlib.Bufio
import TinyActor.Stdlib.Dict

namespace TinyActor.Stdlib.Http

open Lib

abbrev Headers := Dict Bytes Bytes

/-- `MkReq`. -/
structure Request where
  method : Bytes
  path : Bytes
  query : Bytes
  headers : Headers
  body : Bytes

/-- `MkResp`. -/
structure Response where
  status : Int
  headers : Headers
  body : Bytes

/-- The errors a response reader gives. -/
inductive HttpErr where
  | transport (errno : Int)
  | badResponse (reason : String)
  deriving Repr, DecidableEq

def crlf : Bytes := ascii "\r\n"

/-- The empty line that ends a head, with the end of the line before it. -/
def headEnd : Bytes := ascii "\r\n\r\n"

def contentLength : Bytes := ascii "Content-Length"

def transferEncoding : Bytes := ascii "Transfer-Encoding"

/-! ### Parsing -/

/-- `parse_request_line`. -/
def parseRequestLine (line hdrs body : Bytes) : Option Request :=
  let sp1 := Str.indexOf line (ascii " ")
  if sp1 ≤ 0 then none
  else
    let method := Str.substr line 0 sp1
    let after := Str.substr line (sp1 + 1) (Str.length line - sp1 - 1)
    let sp2 := Str.indexOf after (ascii " ")
    if sp2 < 0 then none
    else
      let target := Str.substr after 0 sp2
      let q := Str.indexOf target (ascii "?")
      let path := if q < 0 then target else Str.substr target 0 q
      let query :=
        if q < 0 then [] else Str.substr target (q + 1) (Str.length target - q - 1)
      some ⟨method, path, query, Dict.strFromList (Str.pairs hdrs crlf (ascii ":")), body⟩

/-- `parse_request`. -/
def parseRequest (raw : Bytes) : Option Request :=
  let sep := Str.indexOf raw headEnd
  if sep < 0 then none
  else
    let head := Str.substr raw 0 sep
    let body := Str.substr raw (sep + 4) (Str.length raw - sep - 4)
    let nl := Str.indexOf head crlf
    if nl < 0 then parseRequestLine head [] body
    else
      parseRequestLine (Str.substr head 0 nl)
        (Str.substr head (nl + 2) (Str.length head - nl - 2)) body

/-- `parse_head`: the status and the headers of a response. -/
def parseHead (head : Bytes) : Option (Int × Headers) :=
  let nl := Str.indexOf head crlf
  let statusLine := if nl < 0 then head else Str.substr head 0 nl
  let hdrs := if nl < 0 then [] else Str.substr head (nl + 2) (Str.length head - nl - 2)
  let sp1 := Str.indexOf statusLine (ascii " ")
  if sp1 ≤ 0 then none
  else
    let after := Str.substr statusLine (sp1 + 1) (Str.length statusLine - sp1 - 1)
    let sp2 := Str.indexOf after (ascii " ")
    let codeTxt := if sp2 < 0 then after else Str.substr after 0 sp2
    let code := Str.toInt codeTxt
    if code ≤ 0 then none
    else some (code, Dict.strFromList (Str.pairs hdrs crlf (ascii ":")))

/-! ### Rendering -/

/-- `render_headers`. -/
def renderHeaders : List (Bytes × Bytes) → Bytes → Bytes
  | [], acc => acc
  | kv :: rest, acc => renderHeaders rest (acc ++ ((kv.1 ++ ascii ": ") ++ (kv.2 ++ crlf)))

/-- `text_response`. -/
def textResponse (status : Int) (body : Bytes) : Response :=
  ⟨status, Dict.strNew.insert (ascii "Content-Type") (ascii "text/plain"), body⟩

/-! ### The server -/

/-- `read_request`: a request, and what is left of the source.  The reader that is left is not
among the results. -/
def readRequest (r : Bufio.Reader) (src : List Signal) : Option Request × List Signal :=
  match Bufio.readUntil headEnd r src with
  | (.ioErr _, src) => (none, src)
  | (.ok ⟨none, _⟩, src) => (none, src)
  | (.ok ⟨some head, rest⟩, src) =>
      match parseRequest (Str.concat head headEnd) with
      | none => (none, src)
      | some req =>
          match req.headers.get contentLength with
          | none => (some { req with body := [] }, src)
          | some v =>
              match Bufio.readExact (Str.toInt v) rest src with
              | (.ok ⟨some b, _⟩, src) => (some { req with body := b }, src)
              | (_, src) => (none, src)

/-- `framed_body`. -/
def framedBody (r : Bufio.Reader) (src : List Signal) (status : Int) (headers : Headers)
    (n : Int) : Except HttpErr Response :=
  match (Bufio.readExact n r src).1 with
  | .ioErr e => .error (.transport e)
  | .ok ⟨some b, _⟩ => .ok ⟨status, headers, b⟩
  | .ok ⟨none, _⟩ => .error (.badResponse "truncated body")

/-- `unframed_body`, with at most `k` reads. -/
def unframedBody : Nat → Bufio.Reader → List Signal → Int → Headers → Bytes →
    Option (Except HttpErr Response)
  | 0, _, _, _, _, _ => none
  | k + 1, r, src, status, headers, acc =>
      match Bufio.readAvailable r src with
      | (.ioErr e, _) => some (.error (.transport e))
      | (.ok ⟨none, _⟩, _) => some (.ok ⟨status, headers, acc⟩)
      | (.ok ⟨some d, rest⟩, src) => unframedBody k rest src status headers (Str.concat acc d)

/-- `read_response`, with at most `k` reads for a body that has no length. -/
def readResponse (k : Nat) (r : Bufio.Reader) (src : List Signal) :
    Option (Except HttpErr Response) :=
  match Bufio.readUntil headEnd r src with
  | (.ioErr e, _) => some (.error (.transport e))
  | (.ok ⟨none, _⟩, _) => some (.error (.badResponse "no complete head before eof"))
  | (.ok ⟨some head, rest⟩, src) =>
      match parseHead head with
      | none => some (.error (.badResponse "malformed status line"))
      | some (status, headers) =>
          match headers.get transferEncoding with
          | some _ => some (.error (.badResponse "chunked transfer-encoding not supported"))
          | none =>
              match headers.get contentLength with
              | some v => some (framedBody rest src status headers (Str.toInt v))
              | none => unframedBody k rest src status headers []

end TinyActor.Stdlib.Http
