/-
Requests of the client and the redirects it follows (`lib/http.ta`).

A call is one connection: where it goes and the bytes that are written on it.  What comes back
is up to the network, which may look at all the calls made before; `follow` answers with the
calls it made beside its result.
-/
import TinyActor.Stdlib.Http
import TinyActor.Stdlib.Url

namespace TinyActor.Stdlib.Http

open Lib

structure Call where
  scheme : Bytes
  host : Bytes
  port : Int
  request : Bytes
  deriving DecidableEq

/-- Connecting, writing the request and `read_response`, after the calls made so far. -/
abbrev Network := List Call → Call → Except HttpErr Response

/-- `HttpErr` without `TimedOut`, which is the requester's. -/
inductive ClientErr where
  | exchange (e : HttpErr)
  | badUrl (reason : Bytes)
  | tooManyRedirects
  deriving DecidableEq

/-- `MAX_REDIRECTS`. -/
def maxRedirects : Nat := 5

def renderRequest (method pathq hostport : Bytes) (headers : Headers) (body : Bytes) : Bytes :=
  let hs :=
    if headers.hasKey (ascii "Host") then headers else headers.insert (ascii "Host") hostport
  let hs2 := hs.insert contentLength (Str.fromInt (Str.length body))
  ((method ++ (ascii " " ++ (pathq ++ ascii " HTTP/1.1\r\n"))) ++ renderHeaders hs2.toList []) ++
    (crlf ++ body)

def defaultPort (scheme : Bytes) : Int := if scheme = ascii "https" then 443 else 80

def hostportSuffix (scheme : Bytes) (port : Int) : Bytes :=
  if port = defaultPort scheme then [] else Str.concat (ascii ":") (Str.fromInt port)

def locationOf (headers : Headers) : Option Bytes :=
  match headers.get (ascii "Location") with
  | some loc => if Str.length loc > 0 then some loc else none
  | none => none

def redirectTarget (r : Response) : Option Bytes :=
  if r.status = 301 ∨ r.status = 302 ∨ r.status = 303 ∨ r.status = 307 ∨ r.status = 308 then
    locationOf r.headers
  else none

def redirectMethod (status : Int) (method : Bytes) : Bytes :=
  if status = 307 ∨ status = 308 then method else ascii "GET"

def redirectBody (status : Int) (body : Bytes) : Bytes :=
  if status = 307 ∨ status = 308 then body else []

def resolveLocation (scheme host : Bytes) (port : Int) (loc : Bytes) : Bytes :=
  if Str.indexOf loc (ascii "://") > 0 then loc
  else if Str.indexOf loc (ascii "//") = 0 then Str.concat scheme (Str.concat (ascii ":") loc)
  else
    let path := if Str.indexOf loc (ascii "/") = 0 then loc else Str.concat (ascii "/") loc
    Str.concat
      (Str.concat scheme (Str.concat (ascii "://") (Str.concat host (hostportSuffix scheme port))))
      path

/-- The port that is connected to. -/
def portOf (scheme : Bytes) (port : Int) : Int := if port > 0 then port else defaultPort scheme

/-- The target in the request line. -/
def requestTarget (path query : Bytes) : Bytes :=
  let pathq :=
    if Str.length query > 0 then Str.concat path (Str.concat (ascii "?") query) else path
  if Str.length pathq > 0 then pathq else ascii "/"

/-- The connection `one_shot` makes. -/
def callOf (scheme host : Bytes) (port : Int) (path query method : Bytes) (headers : Headers)
    (body : Bytes) : Call :=
  let p := portOf scheme port
  ⟨scheme, host, p, renderRequest method (requestTarget path query)
    (Str.concat host (hostportSuffix scheme p)) headers body⟩

/-- `one_shot`. -/
def oneShot (net : Network) (past : List Call) (scheme host : Bytes) (port : Int)
    (path query method : Bytes) (headers : Headers) (body : Bytes) :
    List Call × Except ClientErr Response :=
  let c := callOf scheme host port path query method headers body
  if scheme = ascii "https" ∨ scheme = ascii "http" then
    (past ++ [c], (net past c).mapError .exchange)
  else (past, .error (.badUrl (Str.concat (ascii "unsupported scheme: ") scheme)))

/-- `follow`, from the calls made so far. -/
def follow (net : Network) (headers : Headers) (past : List Call) (method target body : Bytes)
    (hops : Nat) : List Call × Except ClientErr Response :=
  if hops > maxRedirects then (past, .error .tooManyRedirects)
  else
    match Url.parse target with
    | .error reason => (past, .error (.badUrl reason))
    | .ok u =>
        let port := Str.toInt u.port
        match oneShot net past u.scheme u.host port u.path u.query method headers body with
        | (past, .error e) => (past, .error e)
        | (past, .ok resp) =>
            match redirectTarget resp with
            | none => (past, .ok resp)
            | some loc =>
                follow net headers past (redirectMethod resp.status method)
                  (resolveLocation u.scheme u.host port loc) (redirectBody resp.status body)
                  (hops + 1)
termination_by maxRedirects + 1 - hops

end TinyActor.Stdlib.Http
