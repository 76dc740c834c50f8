/-
URLs and query strings (`lib/url.ta`).

A text is cut at the first `#`, then at the first `?`, then at the first `://`; what follows
that, up to the first slash, is the authority, which is cut at the first `@` and the first `:`.
-/
import TinyActor.Stdlib.Encoding
import TinyActor.Stdlib.Split

namespace TinyActor.Stdlib

open Encoding

/-- `MkUrl`. -/
structure Url where
  scheme : Bytes
  userinfo : Bytes
  host : Bytes
  port : Bytes
  path : Bytes
  query : Bytes
  fragment : Bytes
deriving DecidableEq, Repr

namespace Url

def cutBefore (s sep : Bytes) : Bytes :=
  let i := Str.indexOf s sep
  if i < 0 then s else Str.substr s 0 i

def cutAfter (s sep : Bytes) : Bytes :=
  let i := Str.indexOf s sep
  if i < 0 then [] else Str.substr s (i + Str.length sep) (Str.length s)

/-- The part of `parse` after the scheme. -/
def parseAuthority (scheme rest query fragment : Bytes) : Except Bytes Url :=
  let slash := Str.indexOf rest (ascii "/")
  let authority := if slash < 0 then rest else Str.substr rest 0 slash
  let path := if slash < 0 then [] else Str.substr rest slash (Str.length rest)
  if authority = [] then .error (ascii "empty host")
  else
    let at' := Str.indexOf authority (ascii "@")
    let userinfo := if at' < 0 then [] else Str.substr authority 0 at'
    let hostport := if at' < 0 then authority else cutAfter authority (ascii "@")
    let colon := Str.indexOf hostport (ascii ":")
    let host := if colon < 0 then hostport else Str.substr hostport 0 colon
    let port := if colon < 0 then [] else cutAfter hostport (ascii ":")
    .ok ⟨scheme, userinfo, host, port, path, query, fragment⟩

def parse (s : Bytes) : Except Bytes Url :=
  let fragment := cutAfter s (ascii "#")
  let noFrag := cutBefore s (ascii "#")
  let query := cutAfter noFrag (ascii "?")
  let noQuery := cutBefore noFrag (ascii "?")
  let schemeEnd := Str.indexOf noQuery (ascii "://")
  if schemeEnd = 0 then .error (ascii "empty scheme")
  else if schemeEnd < 0 then .ok ⟨[], [], [], [], noQuery, query, fragment⟩
  else
    parseAuthority (Str.substr noQuery 0 schemeEnd)
      (Str.substr noQuery (schemeEnd + 3) (Str.length noQuery)) query fragment

/-! ### Query strings -/

def decodeSeg (seg : Bytes) : Except Bytes (Bytes × Bytes) := do
  let eq := Str.indexOf seg (ascii "=")
  let rawK := if eq < 0 then seg else Str.substr seg 0 eq
  let rawV := if eq < 0 then [] else cutAfter seg (ascii "=")
  let k ← percentDecode rawK
  let v ← percentDecode rawV
  return (k, v)

def decodeSegs : List Bytes → Except Bytes (List (Bytes × Bytes))
  | [] => .ok []
  | seg :: segs => do
      if seg = [] then decodeSegs segs
      else
        let kv ← decodeSeg seg
        let rest ← decodeSegs segs
        return kv :: rest

def queryDecode (qs : Bytes) : Except Bytes (List (Bytes × Bytes)) :=
  decodeSegs (Str.split qs (ascii "&"))

def encodePairs (pairs : List (Bytes × Bytes)) : List Bytes :=
  pairs.map fun kv =>
    Str.concat (percentEncode kv.1) (Str.concat (ascii "=") (percentEncode kv.2))

def queryEncode (pairs : List (Bytes × Bytes)) : Bytes := Str.join (encodePairs pairs) (ascii "&")

end Url

end TinyActor.Stdlib
