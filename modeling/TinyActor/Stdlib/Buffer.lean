/-
Byte buffers: `lib/buffer.c` and `lib/buffer.ta`.

The sizes are C `int`s, so every sum and product of them is taken into 32 bits
with a sign.  The block the bytes live in is the list of all its bytes, used or
not; a `memcpy` that does not stay inside it is a fault.  The loop that doubles
the capacity has a number of rounds to spend, and `looping` says that they did not
suffice.  What `realloc` answers, and what is in the bytes it adds, is free.

The preamble of every function, `ta_resource_open`, belongs to the resources: the
buffer here is open and the caller its owner.
-/
import TinyActor.Lib.CInt
import TinyActor.Stdlib.Str

namespace TinyActor.Stdlib.Buffer

open TinyActor.Lib (int32)

/-- `BufState`. -/
structure Buf where
  data : Bytes
  len : Int
  cap : Int

/-- How a call ends, if it does. -/
inductive Fate (α : Type)
  | looping
  /-- A write outside the block. -/
  | fault
  | done (a : α)

def Fate.bind {α β : Type} (x : Fate α) (f : α → Fate β) : Fate β :=
  match x with
  | .looping => .looping
  | .fault => .fault
  | .done a => f a

/-- The system's answers to `realloc`. -/
structure Memory where
  grants : Nat → Bool
  junk : Nat → UInt8

def Memory.realloc (m : Memory) (data : Bytes) (size : Nat) : Option Bytes :=
  if m.grants size then some ((data ++ (List.range (size - data.length)).map m.junk).take size)
  else none

/-- The loop of `buf_ensure`. -/
def double (need : Int) : Nat → Int → Fate Int
  | 0, _ => .looping
  | n + 1, newcap => if newcap < need then double need n (int32 (newcap * 2)) else .done newcap

/-- `buf_ensure`; `none` is out of memory. -/
def bufEnsure (rounds : Nat) (m : Memory) (b : Buf) (add : Int) : Fate (Option Buf) :=
  if int32 (b.len + add) ≤ b.cap then .done (some b)
  else
    (double (int32 (b.len + add)) rounds (if b.cap ≠ 0 then b.cap else 16)).bind fun newcap =>
      .done ((m.realloc b.data newcap.toNat).map fun nd => { b with data := nd, cap := newcap })

/-- `memcpy` into the block. -/
def memcpy (data : Bytes) (off : Int) (s : Bytes) : Fate Bytes :=
  if 0 ≤ off ∧ off + s.length ≤ data.length then
    .done (data.take off.toNat ++ s ++ data.drop (off.toNat + s.length))
  else .fault

/-- The new buffer and the integer the call answers. -/
abbrev Pushed := Buf × Int

/-- The copy behind the bytes in use, once there is room. -/
def append (b : Buf) (s : Bytes) : Fate Pushed :=
  (memcpy b.data b.len s).bind fun data =>
    .done ({ b with data := data, len := int32 (b.len + s.length) }, int32 (b.len + s.length))

/-- What both functions do: ensure room, and append. -/
def rawPush (rounds : Nat) (m : Memory) (b : Buf) (add : Int) (s : Bytes) : Fate Pushed :=
  (bufEnsure rounds m b add).bind fun r =>
    match r with
    | none => .done (b, -1)
    | some b => append b s

/-- `buffer_raw_push_str`. -/
def rawPushStr (rounds : Nat) (m : Memory) (b : Buf) (s : Bytes) : Fate Pushed :=
  rawPush rounds m b (int32 s.length) s

/-- `buffer_raw_push_byte`. -/
def rawPushByte (rounds : Nat) (m : Memory) (b : Buf) (n : Int) : Fate Pushed :=
  if 0 ≤ n ∧ n ≤ 255 then rawPush rounds m b 1 [UInt8.ofNat n.toNat] else .done (b, -1)

/-- `buffer_raw_slice`; `none` is the answer -1. -/
def rawSlice (b : Buf) (start stop : Int) : Option Bytes :=
  if 0 ≤ start ∧ stop ≤ b.len ∧ start ≤ stop then
    some ((b.data.drop start.toNat).take (stop - start).toNat)
  else none

/-! ### `lib/buffer.ta` -/

def liftInt (r : Int) : Except String Int :=
  if r = -2 then .error "not owner" else if r < 0 then .error "closed" else .ok r

def empty : Buf := ⟨[], 0, 0⟩

/-- One push. -/
inductive Push
  | str (s : Bytes)
  | byte (n : Int)

/-- `push_str` and `push_byte`. -/
def push (rounds : Nat) (m : Memory) (b : Buf) : Push → Fate (Buf × Except String Int)
  | .str s => (rawPushStr rounds m b s).bind fun (b, r) => .done (b, liftInt r)
  | .byte n =>
      if n < 0 ∨ n > 255 then .done (b, .error "range")
      else (rawPushByte rounds m b n).bind fun (b, r) => .done (b, liftInt r)

def slice (b : Buf) (start stop : Int) : Except String Bytes :=
  match liftInt b.len with
  | .error e => .error e
  | .ok len =>
      if start < 0 ∨ stop > len ∨ start > stop then .error "range"
      else
        match rawSlice b start stop with
        | some s => .ok s
        | none => .error "closed"

/-- The answers to a sequence of pushes, each with the system's answers to it. -/
def pushes (rounds : Nat) : Buf → List (Push × Memory) → Fate (Buf × List (Except String Int))
  | b, [] => .done (b, [])
  | b, (x, m) :: xs =>
      (push rounds m b x).bind fun (b, r) =>
        (pushes rounds b xs).bind fun (b, rs) => .done (b, r :: rs)

end TinyActor.Stdlib.Buffer
