/-
The static file server (`lib/serve.ta`), with the file tests of `lib/file.c`.

The handler is one function from a request to a response; besides the response it has the
list of the file accesses it made, in their order.  A path is handed to the system as a C
string, so what is tested or read is the path up to its first zero byte.  The root directory
is an argument of the process and has no zero byte.
-/
import TinyActor.Stdlib.Http

namespace TinyActor.Stdlib.Serve

open Http

/-- The part of a string the system takes for a path. -/
def cPath (p : Bytes) : Bytes := p.takeWhile (· ≠ 0)

/-- What the system answers about a path. -/
structure Files where
  present : Bytes → Bool
  content : Bytes → Option Bytes

inductive Access where
  | tested (path : Bytes)
  | read (path : Bytes)
  deriving Repr, DecidableEq

def Access.path : Access → Bytes
  | .tested p => p
  | .read p => p

/-- `file.exists`: `access` on the C string. -/
def fileExists (fs : Files) (path : Bytes) : Bool := fs.present (cPath path)

/-- `file.read`: `fopen` on the C string. -/
def fileRead (fs : Files) (path : Bytes) : Option Bytes := fs.content (cPath path)

/-- The root directory the server was started with. -/
structure RootDir where
  bytes : Bytes
  noNul : 0 ∉ bytes

/-- `rindex_dot`: the last dot before index `i`, or -1. -/
def rindexDot (s : Bytes) : Nat → Int
  | 0 => -1
  | i + 1 => if Str.charAt s i = 46 then i else rindexDot s i

/-- `mime_of`. -/
def mimeOf (path : Bytes) : Bytes :=
  let idx := rindexDot path path.length
  if idx = -1 then ascii "text/plain"
  else
    let ext := Str.substr path idx (Str.length path - idx)
    if ext = ascii ".html" then ascii "text/html"
    else if ext = ascii ".htm" then ascii "text/html"
    else if ext = ascii ".css" then ascii "text/css"
    else if ext = ascii ".js" then ascii "application/javascript"
    else if ext = ascii ".png" then ascii "image/png"
    else if ext = ascii ".jpg" then ascii "image/jpeg"
    else if ext = ascii ".jpeg" then ascii "image/jpeg"
    else if ext = ascii ".gif" then ascii "image/gif"
    else if ext = ascii ".svg" then ascii "image/svg+xml"
    else if ext = ascii ".ico" then ascii "image/x-icon"
    else if ext = ascii ".woff2" then ascii "font/woff2"
    else if ext = ascii ".woff" then ascii "font/woff2"
    else if ext = ascii ".txt" then ascii "text/plain"
    else if ext = ascii ".md" then ascii "text/plain"
    else if ext = ascii ".xml" then ascii "text/plain"
    else if ext = ascii ".atom" then ascii "application/atom+xml"
    else if ext = ascii ".rss" then ascii "application/atom+xml"
    else ascii "application/octet-stream"

/-- `trim_slash`. -/
def trimSlash (path : Bytes) : Bytes :=
  let len := Str.length path
  if len > 1 ∧ Str.charAt path (len - 1) = 47 then Str.substr path 0 (len - 1) else path

def indexHtml : Bytes := ascii "/index.html"

def dotHtml : Bytes := ascii ".html"

/-- `resolve_path`, with the paths it tested. -/
def resolvePath (fs : Files) (root path : Bytes) : Option Bytes × List Access :=
  if path = ascii "/" then (some (Str.concat root indexHtml), [])
  else
    let full := trimSlash (Str.concat root path)
    let index := Str.concat full indexHtml
    if fileExists fs index then (some index, [.tested (cPath index)])
    else if fileExists fs full then (some full, [.tested (cPath index), .tested (cPath full)])
    else
      let html := Str.concat full dotHtml
      let tests := [.tested (cPath index), .tested (cPath full), .tested (cPath html)]
      if fileExists fs html then (some html, tests) else (none, tests)

/-- `file_handler`, with the file accesses it made. -/
def fileHandler (fs : Files) (root : Bytes) (req : Request) : Response × List Access :=
  if req.method = ascii "GET" then
    if Str.indexOf req.path (ascii "..") ≥ 0 then (textResponse 403 (ascii "403 Forbidden"), [])
    else
      match resolvePath fs root req.path with
      | (none, tests) => (textResponse 404 (ascii "404 Not Found"), tests)
      | (some full, tests) =>
          match fileRead fs full with
          | none => (textResponse 404 (ascii "404 Not Found"), tests ++ [.read (cPath full)])
          | some data =>
              (⟨200, Dict.strNew.insert (ascii "Content-Type") (mimeOf full), data⟩,
                tests ++ [.read (cPath full)])
  else (textResponse 405 (ascii "405 Method Not Allowed"), [])

/-- The accesses made for a request line a client sends, with whatever headers and body. -/
def accesses (fs : Files) (root : RootDir) (line hdrs body : Bytes) : List Access :=
  match parseRequestLine line hdrs body with
  | none => []
  | some req => (fileHandler fs root.bytes req).2

end TinyActor.Stdlib.Serve
