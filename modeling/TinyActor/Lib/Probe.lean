/-
Open addressing with linear probing.

A table is a row of slots that are free or hold an entry.  An entry is looked for from
the slot its key names, slot by slot and round at the end, until it is met or a free
slot is: so the walk ends only while there is a free slot, and it finds an entry only
while no slot is free between the one its key names and its own.  `Probed` is that, and
filling the first free slot on an entry's walk keeps it.
-/
import Mathlib.Data.List.Basic
import Mathlib.Data.List.Count
import Mathlib.Data.Nat.Find

namespace TinyActor.Lib

variable {α : Type}

/-- The first slot from `i` on that is free or holds what is looked for; `none` if the
walk has not ended. -/
def probe (hit : α → Bool) (slots : List (Option α)) : Nat → Nat → Option Nat
  | 0, _ => none
  | fuel + 1, i =>
      match slots[i]? with
      | some (some a) => if hit a then some i else probe hit slots fuel ((i + 1) % slots.length)
      | some none => some i
      | none => none

/-- The first `d` slots from `i` on are taken. -/
def Filled (slots : List (Option α)) (i d : Nat) : Prop :=
  ∀ j < d, ∃ a, slots[(i + j) % slots.length]? = some (some a)

variable {hit : α → Bool} {slots : List (Option α)} {fuel i : Nat}

/-- The walk ends at the first slot that ends it. -/
theorem probe_eq (hi : i < slots.length) {d : Nat}
    (hpath : ∀ j < d, ∃ a, slots[(i + j) % slots.length]? = some (some a) ∧ hit a = false)
    (hstop : ∀ a, slots[(i + d) % slots.length]? = some (some a) → hit a = true) (hfuel : d < fuel) :
    probe hit slots fuel i = some ((i + d) % slots.length) := by
  induction d generalizing i fuel with
  | zero =>
      obtain ⟨fuel, rfl⟩ := Nat.exists_eq_succ_of_ne_zero (Nat.ne_zero_of_lt hfuel)
      rw [Nat.add_zero, Nat.mod_eq_of_lt hi] at hstop ⊢
      rw [probe, List.getElem?_eq_getElem hi]
      cases hs : slots[i] with
      | none => rfl
      | some a => exact if_pos (hstop a (by rw [List.getElem?_eq_getElem hi, hs]))
  | succ d ih =>
      obtain ⟨fuel, rfl⟩ := Nat.exists_eq_succ_of_ne_zero (Nat.ne_zero_of_lt hfuel)
      have hshift : ∀ j, ((i + 1) % slots.length + j) % slots.length = (i + (j + 1)) % slots.length := by
        intro j
        rw [Nat.mod_add_mod, Nat.add_assoc, Nat.add_comm 1 j]
      obtain ⟨a, ha, hmiss⟩ := hpath 0 (Nat.succ_pos d)
      rw [Nat.add_zero, Nat.mod_eq_of_lt hi] at ha
      rw [probe, ha]
      simp only [hmiss, Bool.false_eq_true, if_false]
      rw [ih (Nat.mod_lt _ (by omega)) (fun j hj => ?_) (fun a => ?_) (by omega), hshift]
      · rw [hshift]
        exact hpath (j + 1) (by omega)
      · rw [hshift]
        exact hstop a

theorem countP_isSome_lt_iff :
    slots.countP Option.isSome < slots.length ↔ ∃ j, ∃ _ : j < slots.length, slots[j] = none := by
  rw [← not_iff_not, Nat.not_lt]
  constructor
  · rintro h ⟨j, hj, hnone⟩
    have hall := List.countP_eq_length.mp (Nat.le_antisymm List.countP_le_length h)
    have := hall _ (List.getElem_mem hj)
    rw [hnone] at this
    exact absurd this nofun
  · intro h
    refine Nat.le_of_eq (List.countP_eq_length.mpr fun o ho => ?_).symm
    obtain ⟨j, hj, rfl⟩ := List.mem_iff_getElem.mp ho
    by_contra hnone
    exact h ⟨j, hj, by simpa using hnone⟩

/-- From every slot the walk comes to a free one, if there is one. -/
theorem exists_filled (hfree : slots.countP Option.isSome < slots.length) (i : Nat) :
    ∃ d < slots.length, slots[(i + d) % slots.length]? = some none ∧ Filled slots i d := by
  obtain ⟨j, hj, hnone⟩ := countP_isSome_lt_iff.mp hfree
  have hreach : ∃ d, slots[(i + d) % slots.length]? = some none := by
    refine ⟨j + (slots.length - i % slots.length), ?_⟩
    have hlt := Nat.mod_lt i (by omega : 0 < slots.length)
    have : (i + (j + (slots.length - i % slots.length))) % slots.length = j := by
      rw [← Nat.mod_add_mod, show i % slots.length + (j + (slots.length - i % slots.length)) =
        j + slots.length by omega, Nat.add_mod_right, Nat.mod_eq_of_lt hj]
    rw [this, List.getElem?_eq_getElem hj, hnone]
  classical
  refine ⟨Nat.find hreach, ?_, Nat.find_spec hreach, fun k hk => ?_⟩
  · refine Nat.lt_of_le_of_lt (Nat.find_min' hreach (m := Nat.find hreach % slots.length) ?_)
      (Nat.mod_lt _ (by omega))
    rw [Nat.add_mod_mod]
    exact Nat.find_spec hreach
  · have hlt := Nat.mod_lt (i + k) (by omega : 0 < slots.length)
    have hne := Nat.find_min hreach hk
    rw [List.getElem?_eq_getElem hlt] at hne ⊢
    cases hs : slots[(i + k) % slots.length] with
    | none => exact absurd (by rw [hs]) hne
    | some a => exact ⟨a, rfl⟩

/-- The table holds the entries that satisfy `P`, each on the walk of its key. -/
structure Probed (key : α → Nat) (P : α → Prop) (slots : List (Option α)) : Prop where
  only : ∀ {j : Nat} {a : α}, slots[j]? = some (some a) → P a
  found : ∀ {a : α}, P a → ∃ d < slots.length,
    slots[(key a + d) % slots.length]? = some (some a) ∧ Filled slots (key a) d

namespace Probed

variable {key : α → Nat} {P : α → Prop}

/-- The walk for the one entry that is looked for ends at it. -/
theorem probe_hit (h : Probed key P slots) {a : α} (ha : P a) (hhit : ∀ b, P b → (hit b = true ↔ b = a))
    (hfuel : slots.length ≤ fuel) :
    ∃ j, probe hit slots fuel (key a % slots.length) = some j ∧ slots[j]? = some (some a) := by
  obtain ⟨d, hd, hslot, hpath⟩ := h.found ha
  have hreach : ∃ d, slots[(key a + d) % slots.length]? = some (some a) := ⟨d, hslot⟩
  classical
  have hle := Nat.find_min' hreach hslot
  refine ⟨_, probe_eq (d := Nat.find hreach) (Nat.mod_lt _ (by omega)) (fun j hj => ?_) (fun b hb => ?_)
    (by omega), ?_⟩
  · obtain ⟨b, hb⟩ := hpath j (by omega)
    refine ⟨b, by rwa [Nat.mod_add_mod], Bool.eq_false_iff.mpr fun hh => Nat.find_min hreach hj ?_⟩
    rw [hb, (hhit b (h.only hb)).mp hh]
  · exact (hhit b (h.only hb)).mpr (by
      rw [Nat.mod_add_mod, Nat.find_spec hreach] at hb
      exact (Option.some.inj (Option.some.inj hb)).symm)
  · rw [Nat.mod_add_mod]
    exact Nat.find_spec hreach

/-- The walk for what is not there ends at a free slot. -/
theorem probe_miss (h : Probed key P slots) (hhit : ∀ b, P b → hit b = false)
    (hfree : slots.countP Option.isSome < slots.length) (k : Nat) :
    ∃ d < slots.length,
      (∀ fuel ≥ slots.length, probe hit slots fuel (k % slots.length) = some ((k + d) % slots.length)) ∧
      slots[(k + d) % slots.length]? = some none ∧ Filled slots k d := by
  obtain ⟨d, hd, hnone, hpath⟩ := exists_filled hfree k
  refine ⟨d, hd, fun fuel hfuel => ?_, hnone, hpath⟩
  rw [probe_eq (d := d) (Nat.mod_lt _ (by omega)) (fun j hj => ?_) (fun b hb => ?_) (by omega),
    Nat.mod_add_mod]
  · obtain ⟨b, hb⟩ := hpath j hj
    exact ⟨b, by rwa [Nat.mod_add_mod], hhit b (h.only hb)⟩
  · rw [Nat.mod_add_mod, hnone] at hb
    exact absurd hb nofun

theorem insert (h : Probed key P slots) {a : α} {d : Nat} (hd : d < slots.length)
    (hnone : slots[(key a + d) % slots.length]? = some none) (hpath : Filled slots (key a) d) :
    Probed key (fun b => P b ∨ b = a) (slots.set ((key a + d) % slots.length) (some a)) := by
  have hkeep : ∀ {j : Nat} {b : α}, slots[j]? = some (some b) →
      (slots.set ((key a + d) % slots.length) (some a))[j]? = some (some b) := by
    intro j b hb
    rw [List.getElem?_set_ne, hb]
    intro heq
    rw [heq, hb] at hnone
    exact absurd hnone nofun
  have hfilled : ∀ {k e : Nat}, Filled slots k e →
      Filled (slots.set ((key a + d) % slots.length) (some a)) k e := by
    intro k e hf j hj
    obtain ⟨b, hb⟩ := hf j hj
    exact ⟨b, by rw [List.length_set]; exact hkeep hb⟩
  refine ⟨fun {j b} hb => ?_, fun {b} hb => ?_⟩
  · by_cases heq : (key a + d) % slots.length = j
    · subst heq
      rw [List.getElem?_set_self (Nat.mod_lt _ (by omega))] at hb
      exact .inr (Option.some.inj (Option.some.inj hb)).symm
    · rw [List.getElem?_set_ne heq] at hb
      exact .inl (h.only hb)
  · rw [List.length_set]
    rcases hb with hb | rfl
    · obtain ⟨e, he, hslot, hf⟩ := h.found hb
      exact ⟨e, he, hkeep hslot, hfilled hf⟩
    · exact ⟨d, hd, List.getElem?_set_self (Nat.mod_lt _ (by omega)), hfilled hpath⟩

theorem empty (key : α → Nat) (n : Nat) : Probed key (fun _ => False) (List.replicate n none) := by
  refine ⟨fun {j a} h => ?_, False.elim⟩
  rw [List.getElem?_replicate] at h
  split at h <;> exact absurd h nofun

theorem congr {key' : α → Nat} {Q : α → Prop} (h : Probed key P slots) (hQ : ∀ a, Q a ↔ P a)
    (hkey : ∀ a, P a → key' a = key a) : Probed key' Q slots := by
  refine ⟨fun hj => (hQ _).mpr (h.only hj), fun {a} ha => ?_⟩
  rw [hkey a ((hQ a).mp ha)]
  exact h.found ((hQ a).mp ha)

end Probed

/-- Filling a free slot adds one to the slots that are taken. -/
theorem countP_isSome_set {j : Nat} (hnone : slots[j]? = some none) (a : α) :
    (slots.set j (some a)).countP Option.isSome = slots.countP Option.isSome + 1 := by
  obtain ⟨hj, hs⟩ := List.getElem?_eq_some_iff.mp hnone
  rw [List.countP_set hj, hs]
  simp

end TinyActor.Lib
