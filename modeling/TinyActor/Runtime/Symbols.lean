/-
The symbol table: `vm_intern_symbol` and its hash table, `src/api.c`.

A symbol's id is its index in the array of names, which only grows.  The hash table
holds ids, and is rebuilt at twice its size when it gets full; if there is no memory for
that, it is dropped and names are looked for in the array itself.

The two loops over the slots end only at a free slot or at the name, so they are walks
with fuel here, and a call that does not come to an end has no result.  Counts and sizes
are C ints: their products are cut to 32 bits, and there is no memory for a size that has
become negative.
-/
import Mathlib.Data.List.Basic
import TinyActor.Lib.CInt

namespace TinyActor.Runtime.Symbols

open TinyActor.Lib

/-- A C string, without its end. -/
abbrev Name := List UInt8

/-- FNV-1a. -/
def taNameHash (s : Name) : UInt32 :=
  s.foldl (fun h c => (h ^^^ c.toUInt32) * 16777619) 2166136261

structure SymTable where
  symbols : List Name
  symCap : Nat
  /-- The slots; none if the table was dropped (`sym_hash_cap` is 0). -/
  symHash : List (Option Nat)
deriving DecidableEq, Repr

def SymTable.init : SymTable := ⟨[], 0, []⟩

/-- `i & mask`, for a table of `cap` slots. -/
def masked (cap i : Nat) : Nat := i &&& (cap - 1)

/-- The loop over the slots, to a free one or one that `hit` accepts. -/
def symHashWalk (hit : Nat → Bool) (slots : List (Option Nat)) : Nat → Nat → Option Nat
  | 0, _ => none
  | fuel + 1, i =>
      match slots[i]? with
      | some (some e) =>
          if hit e then some i else symHashWalk hit slots fuel (masked slots.length (i + 1))
      | some none => some i
      | none => none

def symHashLookup (fuel : Nat) (t : SymTable) (name : Name) : Option (Option Nat) :=
  (symHashWalk (fun e => t.symbols[e]? = some name) t.symHash fuel
    (masked t.symHash.length (taNameHash name).toNat)).map fun i => t.symHash[i]?.join

/-- Put the id `k` into the first free slot. -/
def symHashPlace (fuel : Nat) (symbols : List Name) (slots : List (Option Nat)) (k : Nat) :
    Option (List (Option Nat)) :=
  (symHashWalk (fun _ => false) slots fuel
    (masked slots.length (taNameHash (symbols.getD k [])).toNat)).map fun i => slots.set i (some k)

def symHashRebuild (fuel : Nat) (symbols : List Name) (newcap : Nat) : Option (List (Option Nat)) :=
  (List.range symbols.length).foldlM (symHashPlace fuel symbols) (List.replicate newcap none)

/-- The size of the next table. -/
def grownCap (cap first : Nat) : Int := if cap = 0 then first else int32 (cap * 2)

/-- The new name is the last one.  `alloc` says that there is memory for a new table. -/
def symHashInsert (fuel : Nat) (alloc : Bool) (t : SymTable) : Option SymTable :=
  if int32 (t.symbols.length * 10) ≥ int32 (t.symHash.length * 7) then
    if alloc ∧ 0 < grownCap t.symHash.length 256 then
      (symHashRebuild fuel t.symbols (grownCap t.symHash.length 256).toNat).map
        fun slots => { t with symHash := slots }
    else some { t with symHash := [] }
  else
    (symHashPlace fuel t.symbols t.symHash (t.symbols.length - 1)).map
      fun slots => { t with symHash := slots }

/-- A call, and which of its allocations there is memory for. -/
structure Call where
  name : Name
  arrayAlloc : Bool
  hashAlloc : Bool
deriving DecidableEq, Repr

/-- `vm_intern_symbol`: the id, or `none` for -1. -/
def vmInternSymbol (fuel : Nat) (t : SymTable) (c : Call) : Option (Option Nat × SymTable) :=
  let hit? := if t.symHash.length > 0 then symHashLookup fuel t c.name
    else some (t.symbols.findIdx? (· = c.name))
  match hit? with
  | none => none
  | some (some id) => some (some id, t)
  | some none =>
      let full := t.symbols.length ≥ t.symCap
      if full ∧ ¬ (c.arrayAlloc ∧ 0 < grownCap t.symCap 16) then some (none, t)
      else
        (symHashInsert fuel c.hashAlloc
          { t with
            symbols := t.symbols ++ [c.name]
            symCap := if full then (grownCap t.symCap 16).toNat else t.symCap }).map
          fun t' => (some t.symbols.length, t')

/-- `vm_symbol_name`. -/
def vmSymbolName (t : SymTable) (id : Nat) : Option Name := t.symbols[id]?

/-- A call comes to an end. -/
def Interns (t : SymTable) (c : Call) (id : Option Nat) (t' : SymTable) : Prop :=
  ∃ n, ∀ fuel ≥ n, vmInternSymbol fuel t c = some (id, t')

end TinyActor.Runtime.Symbols
