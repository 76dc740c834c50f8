/-
Things that are held by one handle until they are given up, once.

A thing is born, passes from handle to handle and is at last given up.  Handles
may be copied and may outlive their thing; what is fixed is that at any time one
handle at most counts as the thing's holder, that no thing is both held and given
up, and that a thing that was born is one or the other.

A system keeps this if each of its steps is a birth, a move along a map of
handles, or a giving up of things that are held.  At the end, when nothing is
held any more, every thing has been given up exactly once.
-/
import Mathlib.Data.List.Nodup
import Mathlib.Data.List.Count

namespace TinyActor.Lib

variable {H P : Type}

/-- `own h p`: the handle `h` counts as the holder of `p`.  `gone` lists the
things given up, in order. -/
structure Linear (own : H → P → Prop) (born : P → Prop) (gone : List P) : Prop where
  unique : ∀ {h h' : H} {p : P}, own h p → own h' p → h = h'
  live : ∀ {h : H} {p : P}, own h p → p ∉ gone
  kept : ∀ {p : P}, born p → p ∉ gone → ∃ h, own h p
  once : gone.Nodup
  known : ∀ {h : H} {p : P}, own h p → born p
  past : ∀ {p : P}, p ∈ gone → born p

namespace Linear

variable {own own' : H → P → Prop} {born born' : P → Prop} {gone : List P}

theorem empty (hown : ∀ h p, ¬ own h p) (hborn : ∀ p, ¬ born p) : Linear own born [] where
  unique h := absurd h (hown _ _)
  live h := absurd h (hown _ _)
  kept h := absurd h (hborn _)
  once := List.nodup_nil
  known h := absurd h (hown _ _)
  past h := absurd h List.not_mem_nil

/-- New things: some are given up at once, the others are in one handle. -/
theorem issue (l : Linear own born gone) (h₀ : H) {ps gs : List P} (hnew : ∀ p ∈ ps, ¬ born p)
    (hgs : gs.Nodup) (hsub : gs ⊆ ps)
    (hown : ∀ h p, own' h p ↔ own h p ∨ h = h₀ ∧ p ∈ ps ∧ p ∉ gs)
    (hborn : ∀ p, born' p ↔ born p ∨ p ∈ ps) : Linear own' born' (gone ++ gs) where
  unique {h h' p} ha hb := by
    rcases (hown h p).mp ha with ha | ⟨rfl, hp, -⟩ <;>
      rcases (hown h' p).mp hb with hb | ⟨rfl, hp', -⟩
    · exact l.unique ha hb
    · exact absurd (l.known ha) (hnew p hp')
    · exact absurd (l.known hb) (hnew p hp)
    · rfl
  live {h p} ha hg := by
    rcases (hown h p).mp ha with ha | ⟨-, hp, hng⟩ <;> rcases List.mem_append.mp hg with hg | hg
    · exact l.live ha hg
    · exact hnew p (hsub hg) (l.known ha)
    · exact hnew p hp (l.past hg)
    · exact hng hg
  kept {p} hb hg := by
    simp only [List.mem_append, not_or] at hg
    rcases (hborn p).mp hb with hb | hp
    · obtain ⟨h, hh⟩ := l.kept hb hg.1
      exact ⟨h, (hown h p).mpr (.inl hh)⟩
    · exact ⟨h₀, (hown h₀ p).mpr (.inr ⟨rfl, hp, hg.2⟩)⟩
  once := by
    refine List.nodup_append.mpr ⟨l.once, hgs, ?_⟩
    rintro p hp q hq rfl
    exact hnew p (hsub hq) (l.past hp)
  known {h p} ha := by
    rcases (hown h p).mp ha with ha | ⟨-, hp, -⟩
    · exact (hborn p).mpr (.inl (l.known ha))
    · exact (hborn p).mpr (.inr hp)
  past {p} hp := by
    rcases List.mem_append.mp hp with hp | hp
    · exact (hborn p).mpr (.inl (l.past hp))
    · exact (hborn p).mpr (.inr (hsub hp))

/-- A new thing in a handle. -/
theorem birth (l : Linear own born gone) (h₀ : H) {p₀ : P} (hnew : ¬ born p₀)
    (hown : ∀ h p, own' h p ↔ own h p ∨ h = h₀ ∧ p = p₀)
    (hborn : ∀ p, born' p ↔ born p ∨ p = p₀) : Linear own' born' gone := by
  have hissue : Linear own' born' (gone ++ []) :=
    l.issue h₀ (List.forall_mem_singleton.mpr hnew) List.nodup_nil (List.nil_subset [p₀])
      (by simpa using hown) (by simpa using hborn)
  rwa [List.append_nil] at hissue

/-- Every holder passes what it holds to the handle `f` names, and nothing else
holds anything. -/
theorem move (l : Linear own born gone) (f : H → H) (hto : ∀ h p, own h p → own' (f h) p)
    (hfrom : ∀ h' p, own' h' p → ∃ h, own h p ∧ f h = h') : Linear own' born gone where
  unique {h h' p} ha hb := by
    obtain ⟨k, hk, rfl⟩ := hfrom h p ha
    obtain ⟨k', hk', rfl⟩ := hfrom h' p hb
    rw [l.unique hk hk']
  live {h p} ha := by
    obtain ⟨k, hk, -⟩ := hfrom h p ha
    exact l.live hk
  kept {p} hb hg := by
    obtain ⟨h, hh⟩ := l.kept hb hg
    exact ⟨f h, hto h p hh⟩
  once := l.once
  known {h p} ha := by
    obtain ⟨k, hk, -⟩ := hfrom h p ha
    exact l.known hk
  past := l.past

/-- Who holds what has not changed. -/
theorem congr (l : Linear own born gone) (h : ∀ h p, own' h p ↔ own h p) :
    Linear own' born gone :=
  l.move id (fun k p hk => (h k p).mpr hk) fun k p hk => ⟨k, (h k p).mp hk, rfl⟩

/-- Things that are held are given up. -/
theorem release (l : Linear own born gone) {ps : List P} (hps : ps.Nodup)
    (hheld : ∀ p ∈ ps, ∃ h, own h p) (hown : ∀ h p, own' h p ↔ own h p ∧ p ∉ ps) :
    Linear own' born (gone ++ ps) where
  unique {h h' p} ha hb := l.unique ((hown h p).mp ha).1 ((hown h' p).mp hb).1
  live {h p} ha := by
    obtain ⟨hk, hnp⟩ := (hown h p).mp ha
    simp [l.live hk, hnp]
  kept {p} hb hg := by
    simp only [List.mem_append, not_or] at hg
    obtain ⟨h, hh⟩ := l.kept hb hg.1
    exact ⟨h, (hown h p).mpr ⟨hh, hg.2⟩⟩
  once := by
    refine List.nodup_append.mpr ⟨l.once, hps, ?_⟩
    rintro p hp q hq rfl
    obtain ⟨h, hh⟩ := hheld p hq
    exact l.live hh hp
  known {h p} ha := l.known ((hown h p).mp ha).1
  past {p} hp := by
    rcases List.mem_append.mp hp with hp | hp
    · exact l.past hp
    · obtain ⟨h, hh⟩ := hheld p hp
      exact l.known hh

/-- When nothing is held any more, everything has been given up exactly once. -/
theorem count_eq_one [DecidableEq P] (l : Linear own born gone) (hnone : ∀ h p, ¬ own h p) {p : P}
    (hp : born p) : gone.count p = 1 := by
  by_cases hg : p ∈ gone
  · exact List.count_eq_one_of_mem l.once hg
  · obtain ⟨h, hh⟩ := l.kept hp hg
    exact absurd hh (hnone h p)

theorem count_le_one [DecidableEq P] (l : Linear own born gone) (p : P) : gone.count p ≤ 1 :=
  List.nodup_iff_count_le_one.mp l.once p

end Linear

end TinyActor.Lib
