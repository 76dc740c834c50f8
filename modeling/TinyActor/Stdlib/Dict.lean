/-
Ordered dictionaries and sets (`lib/dict.ta`, `lib/set.ta`).

A dictionary is a comparator and a balanced search tree; every node stores its height.  The
functions are the ones of the source: an insertion or a removal rebuilds the path and
rebalances it on the way up, a fold walks the tree in order, and everything on two
dictionaries is a fold over one of them.  A set is a dictionary whose values are zero.

The store at the end is what a program holds: all the versions it has made so far, any of
which it can go on with.
-/
import TinyActor.Stdlib.Str

namespace TinyActor.Stdlib

open Lib

inductive Tree (K V : Type) where
  | leaf
  | node (key : K) (value : V) (left right : Tree K V) (height : Int)
  deriving Repr, DecidableEq

namespace Tree

variable {K V A : Type}

/-! ### The tree -/

def tHeight : Tree K V → Int
  | leaf => 0
  | node _ _ _ _ h => h

def tNode (k : K) (v : V) (l r : Tree K V) : Tree K V :=
  let lh := tHeight l
  let rh := tHeight r
  node k v l r (if lh < rh then rh + 1 else lh + 1)

/-- `t_balance`: a node of two subtrees whose heights may differ by two. -/
def tBalance (k : K) (v : V) (l r : Tree K V) : Tree K V :=
  let lh := tHeight l
  let rh := tHeight r
  if lh > rh + 1 then
    match l with
    | node lk lv ll lr _ =>
        if tHeight ll ≥ tHeight lr then tNode lk lv ll (tNode k v lr r)
        else
          match lr with
          | node lrk lrv lrl lrr _ => tNode lrk lrv (tNode lk lv ll lrl) (tNode k v lrr r)
          | leaf => leaf
    | leaf => leaf
  else if rh > lh + 1 then
    match r with
    | node rk rv rl rr _ =>
        if tHeight rr ≥ tHeight rl then tNode rk rv (tNode k v l rl) rr
        else
          match rl with
          | node rlk rlv rll rlr _ => tNode rlk rlv (tNode k v l rll) (tNode rk rv rlr rr)
          | leaf => leaf
    | leaf => leaf
  else tNode k v l r

def tGet (cmp : K → K → Int) : Tree K V → K → Option V
  | leaf, _ => none
  | node k2 v l r _, k =>
      let c := cmp k k2
      if c = 0 then some v else if c < 0 then tGet cmp l k else tGet cmp r k

def tInsert (cmp : K → K → Int) : Tree K V → K → V → Tree K V
  | leaf, k, v => node k v leaf leaf 1
  | node k2 v2 l r h, k, v =>
      let c := cmp k k2
      if c = 0 then node k v l r h
      else if c < 0 then tBalance k2 v2 (tInsert cmp l k v) r
      else tBalance k2 v2 l (tInsert cmp r k v)

def tIsLeaf : Tree K V → Bool
  | leaf => true
  | node _ _ _ _ _ => false

/-- `t_min`: the leftmost binding; a leaf has none. -/
def tMin : Tree K V → Option (K × V)
  | leaf => none
  | node k v leaf _ _ => some (k, v)
  | node _ _ (node lk lv ll lr lh) _ _ => tMin (node lk lv ll lr lh)

/-- `t_delete_root`: the two subtrees of a removed root.  `removeR` is `t_remove` on the right
one, which is where the new root is taken from. -/
def tDeleteRoot (removeR : K → Tree K V) (l r : Tree K V) : Tree K V :=
  if tIsLeaf l then r
  else if tIsLeaf r then l
  else
    match tMin r with
    | some succ => tBalance succ.1 succ.2 l (removeR succ.1)
    | none => leaf

def tRemove (cmp : K → K → Int) : Tree K V → K → Tree K V
  | leaf, _ => leaf
  | node k2 v2 l r _, k =>
      let c := cmp k k2
      if c < 0 then tBalance k2 v2 (tRemove cmp l k) r
      else if c > 0 then tBalance k2 v2 l (tRemove cmp r k)
      else tDeleteRoot (fun k' => tRemove cmp r k') l r

def tSize : Tree K V → Int → Int
  | leaf, acc => acc
  | node _ _ l r _, acc => tSize l (tSize r acc + 1)

def tInOrder : Tree K V → List (K × V) → List (K × V)
  | leaf, acc => acc
  | node k v l r _, acc => tInOrder l ((k, v) :: tInOrder r acc)

def tFold (f : A → K → V → A) : Tree K V → A → A
  | leaf, acc => acc
  | node k v l r _, acc => tFold f r (f (tFold f l acc) k v)

/-- `t_build_go`: a tree of the first `n` bindings and the bindings after them.  The first
argument bounds the depth; `n` itself is enough. -/
def tBuildGo : Nat → List (K × V) → Nat → Tree K V × List (K × V)
  | _, s, 0 => (leaf, s)
  | 0, s, _ + 1 => (leaf, s)
  | d + 1, s, n + 1 =>
      let ln := n / 2
      match tBuildGo d s ln with
      | (left, p :: s2) =>
          match tBuildGo d s2 (n - ln) with
          | (right, s3) => (tNode p.1 p.2 left right, s3)
      | (_, []) => (leaf, s)

def tBuild (s : List (K × V)) (n : Nat) : Tree K V := (tBuildGo n s n).1

/-- `sd_ins`: a binding put where it belongs; one that is already there stays. -/
def sdIns (cmp : K → K → Int) (p : K × V) : List (K × V) → List (K × V)
  | [] => [p]
  | q :: rest =>
      let c := cmp p.1 q.1
      if c = 0 then q :: rest
      else if c < 0 then p :: q :: rest
      else q :: sdIns cmp p rest

/-- `sort_dedup`, `sort_dedup_str`: from the right, so that the last binding of a key is the one
that stays. -/
def sortDedup (cmp : K → K → Int) : List (K × V) → List (K × V)
  | [] => []
  | p :: rest => sdIns cmp p (sortDedup cmp rest)

end Tree

/-! ### Dictionaries -/

structure Dict (K V : Type) where
  cmp : K → K → Int
  root : Tree K V

namespace Dict

variable {K V A : Type}

def new (cmp : K → K → Int) : Dict K V := ⟨cmp, .leaf⟩

def strNew : Dict Bytes V := ⟨Str.cmp, .leaf⟩

def fromList (pairs : List (K × V)) (cmp : K → K → Int) : Dict K V :=
  let s := Tree.sortDedup cmp pairs
  ⟨cmp, Tree.tBuild s s.length⟩

def strFromList (pairs : List (Bytes × V)) : Dict Bytes V := fromList pairs Str.cmp

def insert (d : Dict K V) (k : K) (v : V) : Dict K V := ⟨d.cmp, d.root.tInsert d.cmp k v⟩

def get (d : Dict K V) (k : K) : Option V := d.root.tGet d.cmp k

def hasKey (d : Dict K V) (k : K) : Bool := (d.get k).isSome

def remove (d : Dict K V) (k : K) : Dict K V := ⟨d.cmp, d.root.tRemove d.cmp k⟩

def size (d : Dict K V) : Int := d.root.tSize 0

def toList (d : Dict K V) : List (K × V) := d.root.tInOrder []

def keys (d : Dict K V) : List K := d.toList.map fun kv => kv.1

def fold (d : Dict K V) (f : A → K → V → A) (acc : A) : A := d.root.tFold f acc

def merge (d1 d2 : Dict K V) : Dict K V := d2.fold (fun acc k v => acc.insert k v) d1

end Dict

/-! ### Sets -/

structure MkSet (K : Type) where
  inner : Dict K Int

namespace MkSet

variable {K : Type}

def new (cmp : K → K → Int) : MkSet K := ⟨Dict.new cmp⟩

def add (s : MkSet K) (x : K) : MkSet K := ⟨s.inner.insert x 0⟩

def remove (s : MkSet K) (x : K) : MkSet K := ⟨s.inner.remove x⟩

def member (s : MkSet K) (x : K) : Bool := (s.inner.get x).isSome

def toList (s : MkSet K) : List K := s.inner.keys

def union (a b : MkSet K) : MkSet K := ⟨a.inner.merge b.inner⟩

def intersect (a b : MkSet K) : MkSet K :=
  ⟨a.inner.fold (fun acc x _ => if b.inner.hasKey x then acc.insert x 0 else acc)
    (Dict.new a.inner.cmp)⟩

def difference (a b : MkSet K) : MkSet K :=
  ⟨a.inner.fold (fun acc x _ => if b.inner.hasKey x then acc else acc.insert x 0)
    (Dict.new a.inner.cmp)⟩

end MkSet

/-! ### A program that works on versions -/

/-- One call.  Dictionaries and sets are named by the position of their version. -/
inductive VersionOp (K V A : Type) where
  | new
  | fromList (pairs : List (K × V))
  | insert (d : Nat) (k : K) (v : V)
  | remove (d : Nat) (k : K)
  | merge (d1 d2 : Nat)
  | get (d : Nat) (k : K)
  | fold (d : Nat) (f : A → K → V → A) (acc : A)
  | toList (d : Nat)
  | size (d : Nat)
  | setNew
  | add (s : Nat) (x : K)
  | setRemove (s : Nat) (x : K)
  | union (a b : Nat)
  | intersect (a b : Nat)
  | difference (a b : Nat)
  | member (s : Nat) (x : K)
  | setToList (s : Nat)

/-- What a call hands back: a new version, or the answer to a question. -/
inductive VersionResult (K V A : Type) where
  | version
  | found (v : Option V)
  | folded (acc : A)
  | listed (l : List (K × V))
  | count (n : Int)
  | belongs (b : Bool)
  | elements (l : List K)
  | absent

/-- All versions made so far. -/
structure Versions (K V : Type) where
  dicts : List (Dict K V)
  sets : List (MkSet K)

namespace Versions

variable {K V A : Type}

def empty : Versions K V := ⟨[], []⟩

def addDict (s : Versions K V) (d : Dict K V) : Versions K V := ⟨s.dicts ++ [d], s.sets⟩

def addSet (s : Versions K V) (x : MkSet K) : Versions K V := ⟨s.dicts, s.sets ++ [x]⟩

/-- A call on a dictionary version that exists. -/
def onDict (s : Versions K V) (i : Nat)
    (f : Dict K V → Versions K V × VersionResult K V A) : Versions K V × VersionResult K V A :=
  match s.dicts[i]? with
  | some d => f d
  | none => (s, .absent)

/-- A call on a set version that exists. -/
def onSet (s : Versions K V) (i : Nat)
    (f : MkSet K → Versions K V × VersionResult K V A) : Versions K V × VersionResult K V A :=
  match s.sets[i]? with
  | some x => f x
  | none => (s, .absent)

def step (cmp : K → K → Int) (s : Versions K V) :
    VersionOp K V A → Versions K V × VersionResult K V A
  | .new => (s.addDict (Dict.new cmp), .version)
  | .fromList l => (s.addDict (Dict.fromList l cmp), .version)
  | .insert i k v => s.onDict i fun d => (s.addDict (d.insert k v), .version)
  | .remove i k => s.onDict i fun d => (s.addDict (d.remove k), .version)
  | .merge i j => s.onDict i fun d1 => s.onDict j fun d2 => (s.addDict (d1.merge d2), .version)
  | .get i k => s.onDict i fun d => (s, .found (d.get k))
  | .fold i f acc => s.onDict i fun d => (s, .folded (d.fold f acc))
  | .toList i => s.onDict i fun d => (s, .listed d.toList)
  | .size i => s.onDict i fun d => (s, .count d.size)
  | .setNew => (s.addSet (MkSet.new cmp), .version)
  | .add i x => s.onSet i fun a => (s.addSet (a.add x), .version)
  | .setRemove i x => s.onSet i fun a => (s.addSet (a.remove x), .version)
  | .union i j => s.onSet i fun a => s.onSet j fun b => (s.addSet (a.union b), .version)
  | .intersect i j => s.onSet i fun a => s.onSet j fun b => (s.addSet (a.intersect b), .version)
  | .difference i j =>
      s.onSet i fun a => s.onSet j fun b => (s.addSet (a.difference b), .version)
  | .member i x => s.onSet i fun a => (s, .belongs (a.member x))
  | .setToList i => s.onSet i fun a => (s, .elements a.toList)

/-- A run: the versions it leaves and what each call handed back. -/
def run (cmp : K → K → Int) :
    Versions K V → List (VersionOp K V A) → Versions K V × List (VersionResult K V A)
  | s, [] => (s, [])
  | s, op :: ops =>
      let one := step cmp s op
      let rest := run cmp one.1 ops
      (rest.1, one.2 :: rest.2)

end Versions

end TinyActor.Stdlib
