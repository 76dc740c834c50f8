/-
The tree serializer (`lib/html.ta`).

Long texts and long lists of pieces are put together by halves, so that no string is copied more
often than the logarithm of its length.  A backslash is escaped as `&apos;` and a single quote is
not escaped, both on purpose.
-/
import TinyActor.Stdlib.Str

namespace TinyActor.Stdlib.Html

/-- An attribute; without a value it is a flag. -/
structure Attr where
  name : Bytes
  value : Option Bytes
deriving DecidableEq, Repr

inductive Node where
  | elem (tag : Bytes) (attrs : List Attr) (children : List Node)
  | text (s : Bytes)
  | raw (s : Bytes)
deriving Repr

/-- What `hd_esc_segment` writes for one character. -/
def escChar (c : Int) : Bytes :=
  if c = 34 then ascii "&quot;"
  else if c = 38 then ascii "&amp;"
  else if c = 92 then ascii "&apos;"
  else if c = 60 then ascii "&lt;"
  else if c = 62 then ascii "&gt;"
  else Str.chr c

def escSegment (s : Bytes) (lo hi : Nat) (acc : Bytes) : Bytes :=
  if lo ≥ hi then acc
  else escSegment s (lo + 1) hi (Str.concat acc (escChar (Str.charAt s lo)))
termination_by hi - lo

def escLeaf : Nat := 48

def escaped (s : Bytes) (lo hi : Nat) : Bytes :=
  if hi - lo ≤ escLeaf then escSegment s lo hi []
  else
    let mid := lo + (hi - lo) / 2
    Str.concat (escaped s lo mid) (escaped s mid hi)
termination_by hi - lo
decreasing_by
  all_goals
    simp only [escLeaf] at *
    omega

/-- `hd_join`, which is called with the length of a list that is not empty, or less. -/
def join (strs : List Bytes) (n : Nat) : Bytes :=
  if n ≤ 1 then strs.headD []
  else
    let half := n / 2
    Str.concat (join strs half) (join (strs.drop half) (n - half))
termination_by n

def joinList (strs : List Bytes) : Bytes :=
  if strs.isEmpty then [] else join strs strs.length

def attrStr (a : Attr) : Bytes :=
  match a.value with
  | none => Str.concat (ascii " ") a.name
  | some v =>
      Str.concat (Str.concat (ascii " ") a.name)
        (Str.concat (ascii "=\"") (Str.concat (escaped v 0 v.length) (ascii "\"")))

mutual

def nodeStr : Node → Bytes
  | .elem tag attrs children =>
      let attrsStr := joinList (attrs.map attrStr)
      if children.isEmpty then
        Str.concat (Str.concat (ascii "<") tag) (Str.concat attrsStr (ascii " />"))
      else
        let body := joinList (mapNodeStr children)
        Str.concat (Str.concat (ascii "<") tag)
          (Str.concat attrsStr
            (Str.concat (ascii ">") (Str.concat body (Str.concat (ascii "</")
              (Str.concat tag (ascii ">"))))))
  | .text s => escaped s 0 s.length
  | .raw s => s

def mapNodeStr : List Node → List Bytes
  | [] => []
  | n :: ns => nodeStr n :: mapNodeStr ns

end

def render (node : Node) : Bytes := nodeStr node

def renderList (nodes : List Node) : Bytes := joinList (mapNodeStr nodes)

end TinyActor.Stdlib.Html
