/-
The registry is a map of names: whatever its clients send, in any order, each gets the reply
of a map that serves one request at a time.
-/
import TinyActor.Proofs.Dict
import TinyActor.Stdlib.Registry

namespace TinyActor.Stdlib.Registry

open Lib

/-- What the registry is for: a name has one process at most, and keeps it until it is
unregistered. -/
def serve (m : Bytes → Option Nat) : Request → (Bytes → Option Nat) × Option Result
  | .register name proc =>
      match m name with
      | some _ => (m, some .taken)
      | none => (Function.update m name (some proc), some .ok)
  | .whereis name => (m, some (.found (m name)))
  | .unregister name => (Function.update m name none, none)

def Holds (d : Dict Bytes Nat) (m : Bytes → Option Nat) : Prop :=
  Represents Str.strCmp d {p | m p.1 = some p.2}

variable {d : Dict Bytes Nat} {m : Bytes → Option Nat}

theorem cmp_zero {a b : Bytes} : Str.strCmp.cmp a b = 0 ↔ a = b := Str.cmp_eq_zero

theorem Holds.get (h : Holds d m) (name : Bytes) : d.get name = m name := by
  ext proc
  rw [Represents.get h name proc]
  simp [cmp_zero]

theorem Holds.insert (h : Holds d m) (name : Bytes) (proc : Nat) :
    Holds (d.insert name proc) (Function.update m name (some proc)) := by
  have hset : {p : Bytes × Nat | Function.update m name (some proc) p.1 = some p.2} =
      Bindings.insert Str.strCmp {p | m p.1 = some p.2} name proc := by
    ext ⟨k, v⟩
    by_cases hk : k = name
    · subst hk
      simp [Bindings.insert, Bindings.remove, cmp_zero.mpr, eq_comm]
    · simp [Bindings.insert, Bindings.remove, cmp_zero, hk, Ne.symm hk]
  rw [Holds, hset]
  exact Represents.insert h name proc

theorem Holds.remove (h : Holds d m) (name : Bytes) :
    Holds (d.remove name) (Function.update m name none) := by
  have hset : {p : Bytes × Nat | Function.update m name none p.1 = some p.2} =
      Bindings.remove Str.strCmp {p | m p.1 = some p.2} name := by
    ext ⟨k, v⟩
    by_cases hk : k = name
    · subst hk
      simp [Bindings.remove, cmp_zero]
    · simp [Bindings.remove, cmp_zero, hk, Ne.symm hk]
  rw [Holds, hset]
  exact Represents.remove h name

theorem Holds.turn (h : Holds d m) (req : Request) :
    Holds (turn d req).1 (serve m req).1 ∧ (turn d req).2 = (serve m req).2 := by
  cases req with
  | register name proc =>
      simp only [Registry.turn, serve, Dict.hasKey, h.get]
      cases m name with
      | some _ => exact ⟨h, rfl⟩
      | none => exact ⟨h.insert name proc, rfl⟩
  | whereis name => exact ⟨h, by rw [Registry.turn, serve, h.get]⟩
  | unregister name => exact ⟨h.remove name, rfl⟩

theorem Holds.turns (h : Holds d m) (msgs : List (Nat × Request)) :
    Holds (turns Registry.turn d msgs).1 (turns serve m msgs).1 ∧
      (turns Registry.turn d msgs).2 = (turns serve m msgs).2 := by
  induction msgs generalizing d m with
  | nil => exact ⟨h, rfl⟩
  | cons msg msgs ih =>
      obtain ⟨hturn, hreply⟩ := h.turn msg.2
      obtain ⟨hlast, hrest⟩ := ih hturn
      exact ⟨hlast, by simp only [Registry.turns, hreply, hrest]⟩

/-- **The registry is one map of names for all its clients.** -/
theorem loop_serves (msgs : List (Nat × Request)) :
    (loop msgs).2 = (turns serve (fun _ => none) msgs).2 ∧
      ∀ name, (loop msgs).1.get name = (turns serve (fun _ => none) msgs).1 name := by
  have h0 : Holds .strNew fun _ => none := by
    have hset : {p : Bytes × Nat | none = some p.2} = ∅ := by simp
    rw [Holds, hset]
    exact Represents.new Str.strCmp
  obtain ⟨hlast, hreplies⟩ := Holds.turns h0 msgs
  exact ⟨hreplies, hlast.get⟩

end TinyActor.Stdlib.Registry
