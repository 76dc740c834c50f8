/-
Searching, cutting, joining and replacing agree.

A loop that has come to an index without meeting an occurrence since the piece began knows
the first occurrence as soon as it meets one, or that there is none when it stops.  The loop of
cutting and that of replacing go over the same indices, so what replacing has written is
always what joining the pieces so far gives.
-/
import TinyActor.Stdlib.Split

namespace TinyActor.Stdlib.Str

open Lib

variable {s sep new hay needle : Bytes} {start pos : Nat}

/-! ### Slices -/

@[simp] theorem slice_self (s : Bytes) (i : Nat) : slice s i i = [] := by simp [slice]

theorem slice_end (s : Bytes) (i : Nat) : slice s i s.length = s.drop i := by
  rw [slice, ← List.length_drop, List.take_length]

theorem slice_append (h : start ≤ pos) (n : Nat) :
    slice s start pos ++ slice s pos (pos + n) = slice s start (pos + n) := by
  have hpos : start + (pos - start) = pos := by omega
  rw [slice, slice, slice, Nat.add_sub_cancel_left, show pos + n - start = pos - start + n by omega,
    List.take_add, List.drop_drop, hpos]

theorem sameAt_iff : sameAt s sep pos = true ↔ sep <+: s.drop pos := by
  rw [sameAt, beq_iff_eq, slice, Nat.add_sub_cancel_left, List.prefix_iff_eq_take, eq_comm]

/-- Nothing fits behind the last place where it would fit. -/
theorem not_prefix_drop (h : s.length < pos + sep.length) : ¬ (sep ≠ [] ∧ sep <+: s.drop pos) := by
  rintro ⟨hne, hp⟩
  have := hp.length_le
  have := List.length_pos_iff.mpr hne
  rw [List.length_drop] at *
  omega

/-! ### One piece -/

/-- No occurrence begins in a stretch of the text. -/
def Clear (s sep : Bytes) (start pos : Nat) : Prop :=
  ∀ j, start ≤ j → j < pos → ¬ sep <+: s.drop j

theorem Clear.refl (s sep : Bytes) (i : Nat) : Clear s sep i i := by
  intro j hj hlt
  omega

theorem Clear.trans {stop : Nat} (h : Clear s sep start pos) (h' : Clear s sep pos stop) :
    Clear s sep start stop := by
  intro j hj hlt
  by_cases hpos : j < pos
  · exact h j hj hpos
  · exact h' j (by omega) hlt

theorem Clear.succ (h : Clear s sep start pos) (hpos : ¬ sep <+: s.drop pos) :
    Clear s sep start (pos + 1) := by
  refine h.trans fun j hj hlt => ?_
  obtain rfl : j = pos := by omega
  exact hpos

theorem Clear.found (h : Clear s sep start pos) (hle : start ≤ pos) (hpos : pos ≤ s.length)
    (hp : sep <+: s.drop pos) : firstOcc sep (s.drop start) = some (pos - start) := by
  refine firstOcc_eq_some (by rw [List.length_drop]; omega) ?_ ?_
  · rw [List.drop_drop, show start + (pos - start) = pos by omega]
    exact hp
  · intro j hj
    rw [List.drop_drop]
    exact h _ (by omega) (by omega)

theorem Clear.none (h : Clear s sep start pos) (hne : sep ≠ []) (hend : s.length < pos + sep.length) :
    firstOcc sep (s.drop start) = none := by
  cases hfirst : firstOcc sep (s.drop start) with
  | none => rfl
  | some i =>
      have hp := firstOcc_isPrefix hfirst
      rw [List.drop_drop] at hp
      by_cases hi : start + i < pos
      · exact absurd hp (h _ (by omega) hi)
      · exact absurd ⟨hne, hp⟩ (not_prefix_drop (by omega))

/-! ### Searching -/

variable {c : UInt8} {t : Bytes} {left n npieces : Nat}

theorem getElem?_of_prefix {j : Nat} (h : c :: t <+: s.drop j) : s[j]? = some c := by
  obtain ⟨rest, hrest⟩ := h
  rw [← List.head?_drop, ← hrest]
  rfl

theorem getElem?_slice {k : Nat} (h : k < left) : (slice s pos (pos + left))[k]? = s[pos + k]? := by
  rw [slice, Nat.add_sub_cancel_left, List.getElem?_take_of_lt h, List.getElem?_drop]

/-- No byte `c`, so no needle that begins with it. -/
theorem Clear.of_not_mem (hno : ∀ k < left, s[pos + k]? ≠ some c) :
    Clear s (c :: t) pos (pos + left) := by
  intro j hj hlt hp
  refine hno (j - pos) (by omega) ?_
  rw [show pos + (j - pos) = j by omega]
  exact getElem?_of_prefix hp

theorem memchr_none (h : memchr s pos c left = none) : Clear s (c :: t) pos (pos + left) := by
  rw [memchr, Option.map_eq_none_iff, List.idxOf?_eq_none_iff] at h
  refine .of_not_mem fun k hk heq => h ?_
  rw [← getElem?_slice hk] at heq
  exact List.mem_of_getElem? heq

theorem memchr_some {hit : Nat} (h : memchr s pos c left = some hit) :
    pos ≤ hit ∧ hit < pos + left ∧ Clear s (c :: t) pos hit := by
  obtain ⟨i, hi, rfl⟩ := Option.map_eq_some_iff.mp h
  obtain ⟨hlt, -, hno⟩ := List.idxOf?_eq_some_iff.mp hi
  have hleft : i < left := by
    rw [slice, List.length_take] at hlt
    omega
  refine ⟨by omega, by omega, .of_not_mem fun k hk heq => ?_⟩
  rw [← getElem?_slice (by omega : k < left)] at heq
  obtain ⟨hk', hget⟩ := List.getElem?_eq_some_iff.mp heq
  exact hno k hk hget

theorem indexOfLoop_eq {cur : Nat} (hclear : Clear hay (c :: t) 0 cur)
    (hleft : cur + left + t.length = hay.length) (hn : left ≤ n) :
    indexOfLoop hay (c :: t) c n cur left = indexOf hay (c :: t) := by
  induction n generalizing cur left with
  | zero =>
      have hnone := hclear.none (List.cons_ne_nil _ _) (by simp only [List.length_cons]; omega)
      exact (indexOf_of_none hnone).symm
  | succ n ih =>
      have hnone : ∀ {stop}, Clear hay (c :: t) 0 stop → hay.length < stop + (t.length + 1) →
          (-1 : Int) = indexOf hay (c :: t) := fun h hstop =>
        (indexOf_of_none (h.none (List.cons_ne_nil _ _) hstop)).symm
      rw [indexOfLoop]
      by_cases hzero : left = 0
      · rw [if_pos hzero]
        exact hnone hclear (by omega)
      rw [if_neg hzero]
      cases hchr : memchr hay cur c left with
      | none => exact hnone (hclear.trans (memchr_none hchr)) (by omega)
      | some hit =>
          obtain ⟨hge, hlt, hbetween⟩ := memchr_some (t := t) hchr
          have hhit := hclear.trans hbetween
          dsimp only
          by_cases hsame : sameAt hay (c :: t) hit = true
          · rw [if_pos hsame]
            exact (indexOf_of_some (hhit.found (Nat.zero_le _) (by omega) (sameAt_iff.mp hsame))).symm
          · rw [if_neg hsame]
            exact ih (hhit.succ (mt sameAt_iff.mpr hsame)) (by omega) (by omega)

/-- The search finds what a scan from the left meets first. -/
theorem indexOfScan_eq (hay needle : Bytes) : indexOfScan hay needle = indexOf hay needle := by
  cases needle with
  | nil => exact (indexOf_of_some (firstOcc_of_isPrefix (List.nil_prefix))).symm
  | cons c t =>
      have hstart : Clear hay (c :: t) 0 0 := .refl _ _ _
      rw [indexOfScan]
      by_cases hlong : (c :: t).length > hay.length
      · rw [if_pos hlong]
        exact (indexOf_of_none (hstart.none (List.cons_ne_nil _ _) (by omega))).symm
      · rw [if_neg hlong]
        rw [List.length_cons] at hlong ⊢
        exact indexOfLoop_eq hstart (by omega) (by omega)

/-! ### Cutting -/

theorem splitPieces_cons (start next : Nat) (rest : List Nat) :
    splitPieces s sep (start :: next :: rest) =
      slice s start (next - sep.length) :: splitPieces s sep (next :: rest) := rfl

/-- The array of beginnings always has an entry left. -/
theorem room_left (hne : sep ≠ []) (hfits : pos + sep.length ≤ s.length)
    (hcount : npieces * sep.length ≤ pos + sep.length) : ¬ npieces ≥ s.length / sep.length + 2 := by
  have hlen := List.length_pos_iff.mpr hne
  have : npieces ≤ s.length / sep.length := (Nat.le_div_iff_mul_le hlen).mpr (by omega)
  omega

theorem splitStarts_cut (hne : sep ≠ []) (hclear : Clear s sep start pos) (hle : start ≤ pos)
    (hpos : pos ≤ s.length) (hn : s.length < pos + n)
    (hcount : npieces * sep.length ≤ pos + sep.length) :
    Cut sep (s.drop start) (splitPieces s sep
      (start :: splitStarts s sep (s.length / sep.length + 2) n npieces pos)) := by
  have hlen := List.length_pos_iff.mpr hne
  induction n generalizing start npieces pos with
  | zero => omega
  | succ n ih =>
      rw [splitStarts]
      by_cases hfits : pos + sep.length ≤ s.length
      · rw [if_pos hfits]
        by_cases hsame : sameAt s sep pos = true
        · rw [if_pos hsame, if_neg (room_left hne hfits hcount), splitPieces_cons, Nat.add_sub_cancel]
          refine .next (hclear.found hle hpos (sameAt_iff.mp hsame)) ?_
          rw [List.drop_drop, show start + (pos - start + sep.length) = pos + sep.length by omega]
          refine ih (.refl _ _ _) (Nat.le_refl _) hfits (by omega) ?_
          rw [Nat.add_mul]
          omega
        · rw [if_neg hsame]
          exact ih (hclear.succ (mt sameAt_iff.mpr hsame)) (by omega) (by omega) (by omega) (by omega)
      · rw [if_neg hfits, splitPieces, slice_end]
        exact .last (hclear.none hne (by omega))

/-- The pieces are those between the leftmost occurrences. -/
theorem split_cut (s : Bytes) (hne : sep ≠ []) : Cut sep s (split s sep) := by
  have hstart : Clear s sep 0 0 := .refl _ _ _
  rw [split, if_neg hne]
  by_cases hlong : sep.length > s.length
  · rw [if_pos hlong]
    exact .last (hstart.none hne (by omega))
  · rw [if_neg hlong]
    exact splitStarts_cut hne hstart (Nat.le_refl _) (Nat.zero_le _) (by omega) (by omega)

/-! ### Joining -/

theorem joinLoop_succ (sep : Bytes) (k : Nat) (strs : List Bytes) :
    joinLoop sep (k + 1) strs = (strs.map (sep ++ ·)).flatten := by
  induction strs generalizing k with
  | nil => rfl
  | cons e rest ih => simp [joinLoop, ih]

theorem join_eq (strs : List Bytes) (sep : Bytes) : join strs sep = sep.intercalate strs := by
  have hcons : ∀ e rest, join (e :: rest) sep = e ++ (rest.map (sep ++ ·)).flatten := by
    intro e rest
    rw [join, joinLoop, if_neg (by omega), List.nil_append, joinLoop_succ]
  induction strs with
  | nil => rfl
  | cons e rest ih =>
      cases rest with
      | nil => simp [hcons, List.intercalate]
      | cons q rest =>
          rw [List.intercalate_cons_cons, ← ih, hcons, hcons]
          simp

/-! ### Replacing -/

/-- Behind the last place where the pattern fits everything is copied. -/
theorem replaceLoop_copies {old : Bytes} {i : Nat} (hend : s.length < i + old.length)
    (hn : s.length < i + n) : replaceLoop s old new n i = s.drop i := by
  induction n generalizing i with
  | zero => rw [replaceLoop, List.drop_eq_nil_of_le (by omega)]
  | succ n ih =>
      rw [replaceLoop]
      by_cases hi : i < s.length
      · rw [if_pos hi, if_neg (by omega), ih (by omega) (by omega), slice, Nat.add_sub_cancel_left,
          ← List.drop_drop, List.take_append_drop]
      · rw [if_neg hi, List.drop_eq_nil_of_le (by omega)]

theorem splitPieces_ne_nil (start : Nat) (rest : List Nat) :
    splitPieces s sep (start :: rest) ≠ [] := by
  cases rest <;> exact List.cons_ne_nil _ _

/-- What has been copied of a piece and what replacing goes on with, in step with cutting. -/
theorem replaceLoop_pieces (hne : sep ≠ []) (hle : start ≤ pos) (hpos : pos ≤ s.length)
    (hn : s.length < pos + n) (hcount : npieces * sep.length ≤ pos + sep.length) :
    slice s start pos ++ replaceLoop s sep new n pos =
      new.intercalate (splitPieces s sep
        (start :: splitStarts s sep (s.length / sep.length + 2) n npieces pos)) := by
  have hlen := List.length_pos_iff.mpr hne
  induction n generalizing start npieces pos with
  | zero => omega
  | succ n ih =>
      rw [splitStarts]
      by_cases hfits : pos + sep.length ≤ s.length
      · rw [if_pos hfits, replaceLoop, if_pos (by omega)]
        by_cases hsame : sameAt s sep pos = true
        · rw [if_pos ⟨hfits, hsame⟩, if_pos hsame, if_neg (room_left hne hfits hcount),
            splitPieces_cons, Nat.add_sub_cancel,
            List.intercalate_cons_of_ne_nil (splitPieces_ne_nil _ _),
            ← ih (Nat.le_refl _) hfits (by omega) (by rw [Nat.add_mul]; omega), slice_self,
            List.nil_append, List.append_assoc]
        · rw [if_neg fun h => hsame h.2, if_neg hsame, ← List.append_assoc, slice_append hle]
          exact ih (by omega) (by omega) (by omega) (by omega)
      · rw [if_neg hfits, replaceLoop_copies (by omega) hn, splitPieces, slice_end,
          List.intercalate_singleton, ← slice_end s pos]
        have := slice_append hle (s.length - pos) (s := s)
        rw [Nat.add_sub_cancel' hpos, slice_end s start] at this
        exact this

/-- Replacing is cutting at the pattern and joining with the replacement. -/
theorem replace_eq_join (s : Bytes) (hne : sep ≠ []) (new : Bytes) :
    replace s sep new = join (split s sep) new := by
  rw [replace, if_neg hne, join_eq, split, if_neg hne]
  by_cases hlong : sep.length > s.length
  · rw [if_pos hlong, replaceLoop_copies (by omega) (by omega), List.intercalate_singleton,
      List.drop_zero]
  · rw [if_neg hlong, ← replaceLoop_pieces hne (Nat.le_refl 0) (Nat.zero_le _) (by omega) (by omega),
      slice_self, List.nil_append]

/-- **Searching, cutting, joining and replacing agree** on every string and separator. -/
theorem split_join_replace (s sep : Bytes) (hne : sep ≠ []) :
    join (split s sep) sep = s ∧ Cut sep s (split s sep) ∧
      ((∃ i : Nat, indexOfScan s sep = i ∧ sep <+: s.drop i ∧ ∀ j < i, ¬ sep <+: s.drop j) ∨
        indexOfScan s sep = -1 ∧ ¬ sep <:+: s) ∧
      ∀ new, replace s sep new = join (split s sep) new := by
  have hcut := split_cut s hne
  refine ⟨by rw [join_eq, hcut.intercalate], hcut, ?_, replace_eq_join s hne⟩
  rw [indexOfScan_eq]
  cases hfirst : firstOcc sep s with
  | none => exact .inr ⟨indexOf_of_none hfirst, firstOcc_eq_none.mp hfirst⟩
  | some i =>
      exact .inl ⟨i, indexOf_of_some hfirst, firstOcc_isPrefix hfirst,
        fun j hj => not_prefix_of_lt_firstOcc hfirst hj⟩

theorem split_join_replace_overlap :
    split (ascii "aaab") (ascii "aa") = [[], ascii "ab"] ∧
      join (split (ascii "aaab") (ascii "aa")) (ascii "aa") = ascii "aaab" :=
  ⟨by decide, (split_join_replace _ (ascii "aa") (by decide)).1⟩

end TinyActor.Stdlib.Str
