/-
The stack walker (`lisp_walk_stack` of `src/main.c`), by which a crash report and the profiler name
the functions of an actor.

The walker has the published program counter, base and depth.  It finds a function by searching the
entry table for the program counter, takes the place of the return frame from the number of
arguments of that function, and goes on with the two words it reads there.

A `History` is an execution with the functions active in the frames of its stack, the innermost
first: a call adds one, a tail call replaces one, a return takes one off.
-/
import TinyActor.Vm.Frames

namespace TinyActor.Vm

variable {F W : Type}

/-- The loop of `lisp_fid_of_pc` from a function on. -/
def fidFrom (pc : Int) : Nat → List Nat → Option Nat
  | _, [] => none
  | i, [entry] => if pc < entry then none else some i
  | i, entry :: next :: entries =>
      if pc < entry then none
      else if pc < next then some i
      else fidFrom pc (i + 1) (next :: entries)

/-- `lisp_fid_of_pc`. -/
def fidOfPc (img : Image F) (pc : Int) : Option Nat := fidFrom pc 0 img.fnEntry

/-- The loop of `lisp_walk_stack`; `live` is the published depth. -/
def walkFrom (img : Image F) (slots : Nat → Val F) (live : Nat) : Nat → Int → Int → List Nat
  | 0, _, _ => []
  | maxDepth + 1, pc, base =>
      match fidOfPc img pc with
      | none => []
      | some fid =>
          fid ::
            if base = 0 then []
            else
              let nargs : Nat := (img.fnArgs[fid]?).getD 0
              if base + nargs + 3 > live then []
              else walkFrom img slots live maxDepth (getInt (slots (base + nargs + 1).toNat))
                (getInt (slots (base + nargs + 2).toNat))

/-- `lisp_walk_stack` on a published state. -/
def walkStack (img : Image F) (s : State F W) (maxDepth : Nat) : List Nat :=
  if s.sp = 0 then [] else walkFrom img s.slots s.sp maxDepth s.pc s.base

/-- Where an instruction may go on within its function. -/
def Instr.successors (pc cbase : Nat) : Instr → List Nat
  | .jif no => [pc + 2, cbase + no]
  | .jump target => [cbase + target]
  | .jifCmp _ yes no | .jifEqI _ yes no => [cbase + yes, cbase + no]
  | .ret _ => []
  | .makeClosure _ _ | .builtin _ _ => [pc + 3]
  | .push | .arith _ | .div | .mod | .cmp _ | .pairP | .symP | .cons | .car | .cdr => [pc + 1]
  | .const _ | .load _ | .store _ | .loadF _ | .call _ | .tcall _ | .global _ | .reserve _
  | .loadP _ | .constP _ | .globP _ | .constI _ | .arithI _ _ => [pc + 2]

/-- The layout of an image: functions one behind the other, none of which runs into the next or
jumps out of its own words, and each returning with its own number of arguments. -/
structure Layout (img : Image F) where
  /-- The places of the instructions of a function. -/
  instr : Nat → Nat → Prop
  ascending : img.fnEntry.Pairwise (· < ·)
  within : ∀ {fid pc : Nat}, instr fid pc → ∃ entry, img.fnEntry[fid]? = some entry ∧
    entry ≤ pc ∧ ∀ next, img.fnEntry[fid + 1]? = some next → pc < next
  starts : ∀ {fid entry : Nat}, img.fnEntry[fid]? = some entry → instr fid entry
  stays : ∀ {fid entry pc : Nat} {i : Instr}, img.fnEntry[fid]? = some entry → instr fid pc →
    img.fetch pc = some i → ∀ next ∈ i.successors pc entry, instr fid next
  returns : ∀ {fid pc k : Nat}, instr fid pc → img.fetch pc = some (.ret k) →
    img.fnArgs[fid]? = some k

/-- The instructions that change frames, unless what they call is a C function. -/
def Instr.leaves : Instr → Bool
  | .call _ | .tcall _ | .ret _ => true
  | _ => false

variable [Double F] [DecidableEq F]

/-- An execution from a state of the function `fid₀`, with the callers that wait and the functions
that are active. -/
inductive History (host : Host F W) (img : Image F) (s₀ : State F W) (fid₀ : Nat) :
    State F W → List (Caller F) → List Nat → Prop
  | start : History host img s₀ fid₀ s₀ [] [fid₀]
  /-- An instruction within the frame, a primitive, or a call of a C function. -/
  | work {s s' : State F W} {cs : List (Caller F)} {fs : List Nat} {i : Instr} :
      History host img s₀ fid₀ s cs fs → img.fetch s.pc = some i →
      (exec host img s i = .next s' ∨ exec host img s i = .tick s' ∧ i.leaves = false) →
      Works img s s' → History host img s₀ fid₀ s' cs fs
  | call {s s' : State F W} {cs : List (Caller F)} {fs : List Nat} {n fid : Nat} :
      History host img s₀ fid₀ s cs fs → img.fetch s.pc = some (.call n) →
      exec host img s (.call n) = .tick s' → s.blockAbove img n → s.fits →
      fidOf s'.heap (s'.slots s'.base) = some fid →
      History host img s₀ fid₀ s' (s.caller n :: cs) (fid :: fs)
  | tcall {s s' : State F W} {cs : List (Caller F)} {f : Nat} {fs : List Nat} {n fid : Nat} :
      History host img s₀ fid₀ s cs (f :: fs) → img.fetch s.pc = some (.tcall n) →
      exec host img s (.tcall n) = .tick s' → s.blockAbove img n →
      fidOf s'.heap (s'.slots s'.base) = some fid →
      History host img s₀ fid₀ s' cs (fid :: fs)
  | ret {s s' : State F W} {c : Caller F} {cs : List (Caller F)} {f k : Nat} {fs : List Nat} :
      History host img s₀ fid₀ s (c :: cs) (f :: fs) → img.fetch s.pc = some (.ret k) →
      exec host img s (.ret k) = .tick s' → History host img s₀ fid₀ s' cs fs

end TinyActor.Vm
