/-
What `dirname` and `basename` cut a path into.

A path that is not all slashes is a directory, a run of slashes, a name without slashes and a
run of slashes at the end.  The four are found by stripping from the right, which is what the two
functions do, so each of them is read off from the parts.  `dirname` strips once more after the
cut, and there the run before the name is taken for the end of a directory: if nothing stands
before it, nothing is left.
-/
import TinyActor.Stdlib.Path

namespace TinyActor.Stdlib.Path

/-! ### Stripping and searching -/

def slashes (n : Nat) : Bytes := List.replicate n slash

def isSlash (c : UInt8) : Bool := c = slash

theorem toNat_eq_slash {c : UInt8} : (c.toNat : Int) = 47 ↔ c = slash := by
  rw [slash, ← UInt8.toNat_inj]
  exact Int.ofNat_inj

theorem stripTrailing_eq (s : Bytes) : stripTrailingSlashes s = s.rdropWhile isSlash := by
  induction s using List.reverseRecOn with
  | nil =>
      rw [stripTrailingSlashes]
      rfl
  | append_singleton s c ih =>
      have hlen : Str.length (s ++ [c]) - 1 = s.length := by simp
      have htake : Str.substr (s ++ [c]) 0 s.length = s := by
        rw [Str.substr_take _ rfl, List.take_left]
      rw [stripTrailingSlashes, List.rdropWhile_concat]
      simp only [hlen, Str.charAt_append s c [], toNat_eq_slash, htake, ih, isSlash, decide_eq_true_eq]
      rw [dif_pos (by simp)]

theorem stripLeading_of_ne {b : Bytes} (h : slash ∉ b) : stripLeadingSlashes b = b := by
  cases b with
  | nil => rfl
  | cons c b =>
      rw [stripLeadingSlashes, if_neg]
      rintro rfl
      exact h List.mem_cons_self

theorem strip_slashes (s : Bytes) (n : Nat) :
    (s ++ slashes n).rdropWhile isSlash = s.rdropWhile isSlash := by
  induction n with
  | zero => rw [slashes, List.replicate_zero, List.append_nil]
  | succ n ih =>
      rw [slashes, List.replicate_succ', ← List.append_assoc, List.rdropWhile_concat_pos _ _ _ rfl]
      exact ih

/-- What stands behind the place the search begins at plays no part in it. -/
theorem lastSlash_prefix (s t : Bytes) {n : Nat} (h : n ≤ s.length) :
    lastSlash (s ++ t) n = lastSlash s n := by
  induction n with
  | zero => rfl
  | succ n ih =>
      have hget : Str.charAt (s ++ t) n = Str.charAt s n := by
        simp [Str.charAt, List.getElem?_append_left (show n < s.length from h)]
      rw [lastSlash, lastSlash, hget, ih (by omega)]

theorem lastSlash_concat (s : Bytes) (c : UInt8) :
    lastSlash (s ++ [c]) (s ++ [c]).length =
      if c = slash then (s.length : Int) else lastSlash s s.length := by
  rw [List.length_append, List.length_singleton, lastSlash, Str.charAt_append,
    lastSlash_prefix s [c] (Nat.le_refl _)]
  simp only [toNat_eq_slash]

/-- The search goes past what has no slash. -/
theorem lastSlash_append (s : Bytes) {b : Bytes} (h : slash ∉ b) :
    lastSlash (s ++ b) (s ++ b).length = lastSlash s s.length := by
  induction b using List.reverseRecOn with
  | nil => rw [List.append_nil]
  | append_singleton b c ih =>
      rw [List.mem_append, not_or, List.mem_singleton] at h
      rw [← List.append_assoc, lastSlash_concat, if_neg (Ne.symm h.2), ih h.1]

/-! ### The parts of a path -/

theorem split_end (s : Bytes) : ∃ d n, s = d ++ slashes n ∧ d.rdropWhile isSlash = d := by
  induction s using List.reverseRecOn with
  | nil => exact ⟨[], 0, rfl, rfl⟩
  | append_singleton s c ih =>
      by_cases hc : c = slash
      · obtain ⟨d, n, rfl, hd⟩ := ih
        refine ⟨d, n + 1, ?_, hd⟩
        rw [hc, slashes, slashes, List.replicate_succ', List.append_assoc]
      · refine ⟨s ++ [c], 0, (List.append_nil _).symm, ?_⟩
        exact List.rdropWhile_concat_neg _ _ _ (by simp [isSlash, hc])

theorem split_name (s : Bytes) :
    ∃ x name, s = x ++ name ∧ slash ∉ name ∧ (x = [] ∨ ∃ y, x = y ++ [slash]) := by
  induction s using List.reverseRecOn with
  | nil => exact ⟨[], [], rfl, List.not_mem_nil, .inl rfl⟩
  | append_singleton s c ih =>
      by_cases hc : c = slash
      · exact ⟨s ++ [c], [], (List.append_nil _).symm, List.not_mem_nil, .inr ⟨s, by rw [hc]⟩⟩
      · obtain ⟨x, name, rfl, hname, hx⟩ := ih
        refine ⟨x, name ++ [c], List.append_assoc .., ?_, hx⟩
        rw [List.mem_append, not_or, List.mem_singleton]
        exact ⟨hname, Ne.symm hc⟩

/-- A directory, slashes, a name and slashes at the end. -/
structure Parts (p : Bytes) where
  dir : Bytes
  before : Nat
  name : Bytes
  after : Nat
  eq : p = dir ++ (slashes before ++ name) ++ slashes after
  dir_end : dir.rdropWhile isSlash = dir
  dir_nil : before = 0 → dir = []
  name_ne : name ≠ []
  name_free : slash ∉ name

/-- **The parts of a path** that is not all slashes. -/
theorem exists_parts (p : Bytes) : (∃ n, p = slashes n) ∨ Nonempty (Parts p) := by
  obtain ⟨s, after, rfl, hs⟩ := split_end p
  obtain ⟨x, name, rfl, hname, hx⟩ := split_name s
  by_cases hne : name = []
  · subst hne
    rw [List.append_nil] at hs ⊢
    rcases hx with rfl | ⟨y, rfl⟩
    · exact .inl ⟨after, rfl⟩
    · rw [List.rdropWhile_concat_pos _ _ _ rfl] at hs
      have hlen := (List.rdropWhile_prefix (p := isSlash) (l := y)).length_le
      rw [hs, List.length_append, List.length_singleton] at hlen
      omega
  · refine .inr ?_
    rcases hx with rfl | ⟨y, rfl⟩
    · exact ⟨⟨[], 0, name, after, rfl, rfl, fun _ => rfl, hne, hname⟩⟩
    · obtain ⟨dir, before, rfl, hdir⟩ := split_end y
      refine ⟨⟨dir, before + 1, name, after, ?_, hdir, by omega, hne, hname⟩⟩
      simp [slashes, List.replicate_succ', List.append_assoc]

namespace Parts

variable {p : Bytes} (h : Parts p)

include h

theorem strip_eq : stripTrailingSlashes p = h.dir ++ (slashes h.before ++ h.name) := by
  obtain ⟨b, c, hbc⟩ := (List.eq_nil_or_concat' h.name).resolve_left h.name_ne
  have hc : c ≠ slash := by
    rintro rfl
    exact h.name_free (by rw [hbc]; simp)
  rw [stripTrailing_eq, congrArg (List.rdropWhile isSlash) h.eq, strip_slashes, hbc,
    ← List.append_assoc, ← List.append_assoc, List.rdropWhile_concat_neg _ _ _ (by simp [isSlash, hc])]

theorem lastSlash_eq : lastSlash (stripTrailingSlashes p) (stripTrailingSlashes p).length =
    h.dir.length + h.before - 1 := by
  rw [strip_eq h, ← List.append_assoc, lastSlash_append _ h.name_free]
  cases hk : h.before with
  | zero =>
      rw [h.dir_nil hk]
      rfl
  | succ k =>
      rw [slashes, List.replicate_succ', ← List.append_assoc, lastSlash_concat, if_pos rfl,
        List.length_append, List.length_replicate]
      omega

theorem length_ne : Str.length p ≠ 0 ∧ Str.length (stripTrailingSlashes p) ≠ 0 := by
  have hname := List.length_pos_iff.mpr h.name_ne
  have hlen := congrArg List.length h.eq
  rw [strip_eq h]
  simp only [Str.length_eq, List.length_append] at hlen ⊢
  omega

theorem basename_eq : basename p = h.name := by
  obtain ⟨hp, hs⟩ := length_ne h
  rw [basename, if_neg hp]
  simp only [if_neg hs, lastSlash_eq h]
  by_cases hk : h.before = 0
  · rw [if_pos (by rw [hk, h.dir_nil hk]; decide), strip_eq h, hk, h.dir_nil hk]
    rfl
  · have hcut : Str.substr (stripTrailingSlashes p) (h.dir.length + h.before - 1 + 1)
        (Str.length (stripTrailingSlashes p) - (h.dir.length + h.before - 1) - 1) =
        (stripTrailingSlashes p).drop (h.dir.length + h.before) := by
      refine Str.substr_drop _ ?_ (by omega) (by simp only [Str.length_eq]; omega)
      rw [strip_eq h]
      simp only [List.length_append, slashes, List.length_replicate]
      omega
    rw [if_neg (by omega), hcut, strip_eq h, ← List.append_assoc]
    exact List.drop_left' (by rw [List.length_append, slashes, List.length_replicate])

/-- `dirname` is the directory; where there is none it is `.` or, behind one slash, `/`. -/
theorem dirname_eq : dirname p =
    if h.before = 0 then ascii "." else if h.dir.length + h.before = 1 then ascii "/" else h.dir := by
  obtain ⟨hp, hs⟩ := length_ne h
  rw [dirname]
  simp only [if_neg hs, lastSlash_eq h]
  by_cases hk : h.before = 0
  · rw [if_pos (by rw [hk, h.dir_nil hk]; decide), if_pos hk]
  · rw [if_neg (by omega), if_neg hk]
    by_cases hone : h.dir.length + h.before = 1
    · rw [if_pos (by omega), if_pos hone]
    · -- What is cut off in front of the last slash ends in the other slashes of the run.
      obtain ⟨k, hk⟩ : ∃ k, h.before = k + 1 := ⟨h.before - 1, by omega⟩
      have hcut : Str.substr (stripTrailingSlashes p) 0 (h.dir.length + h.before - 1) =
          h.dir ++ slashes k := by
        rw [Str.substr_take _ (i := (h.dir ++ slashes k).length) (by
          simp only [List.length_append, slashes, List.length_replicate]; omega), strip_eq h, hk]
        have hrun : h.dir ++ (slashes (k + 1) ++ h.name) =
            (h.dir ++ slashes k) ++ ([slash] ++ h.name) := by
          simp [slashes, List.replicate_succ', List.append_assoc]
        rw [hrun, List.take_left]
      rw [if_neg (by omega), if_neg hone, hcut, stripTrailing_eq, strip_slashes, h.dir_end]

end Parts

/-! ### The path that is named -/

/-- Runs of slashes made one. -/
def collapse : Bytes → Bytes
  | a :: b :: s => if a = slash ∧ b = slash then collapse (b :: s) else a :: collapse (b :: s)
  | s => s

/-- A `./` in front dropped. -/
def dropDot (p : Bytes) : Bytes :=
  if p.take 2 = ascii "./" then p.drop 2 else p

/-- What a path names: runs of slashes collapsed, the slash at the end removed (the root keeps
it), and a `./` in front dropped. -/
def canonical (p : Bytes) : Bytes :=
  dropDot (if collapse p = [slash] then [slash] else (collapse p).rdropWhile isSlash)

theorem collapse_run (x y : Bytes) :
    collapse (x ++ slash :: slash :: y) = collapse (x ++ slash :: y) := by
  induction x with
  | nil => rw [List.nil_append, collapse, if_pos ⟨rfl, rfl⟩, List.nil_append]
  | cons a x ih =>
      cases x with
      | nil =>
          simp only [List.cons_append, List.nil_append] at ih ⊢
          rw [collapse, ih, collapse]
      | cons b x =>
          simp only [List.cons_append] at ih ⊢
          rw [collapse, ih, collapse]

theorem collapse_slashes (x y : Bytes) (n : Nat) :
    collapse (x ++ (slashes (n + 1) ++ y)) = collapse (x ++ slash :: y) := by
  induction n with
  | zero => rfl
  | succ n ih =>
      rw [← ih]
      simp only [slashes, List.replicate_succ, List.cons_append]
      exact collapse_run x _

/-- What stands before and behind a byte that is no slash is collapsed for itself. -/
theorem exists_collapse (x : Bytes) {c : UInt8} (hc : c ≠ slash) :
    ∃ u, ∀ y, collapse (x ++ c :: y) = u ++ c :: collapse y := by
  induction x with
  | nil =>
      refine ⟨[], fun y => ?_⟩
      cases y with
      | nil => rfl
      | cons b y => simp only [List.nil_append, collapse, hc, false_and, if_false]
  | cons a x ih =>
      obtain ⟨u, hu⟩ := ih
      cases x with
      | nil =>
          refine ⟨a :: u, fun y => ?_⟩
          have := hu y
          simp only [List.nil_append] at this
          simp only [List.cons_append, List.nil_append, collapse, hc, and_false, if_false, this]
      | cons b x =>
          by_cases hab : a = slash ∧ b = slash
          · refine ⟨u, fun y => ?_⟩
            rw [← hu y]
            simp only [List.cons_append, collapse, if_pos hab]
          · refine ⟨a :: u, fun y => ?_⟩
            have := hu y
            simp only [List.cons_append] at this
            simp only [List.cons_append, collapse, if_neg hab, this]

theorem collapse_of_free {s : Bytes} (hs : slash ∉ s) : collapse s = s := by
  induction s with
  | nil => rfl
  | cons a s ih =>
      have ha : a ≠ slash := fun h => hs (h ▸ List.mem_cons_self)
      have := ih (fun h => hs (List.mem_cons_of_mem _ h))
      cases s with
      | nil => rfl
      | cons b s => rw [collapse, if_neg (fun h => ha h.1), this]

/-- Slashes behind a name do not count. -/
theorem canonical_name (x : Bytes) {name : Bytes} (hne : name ≠ []) (hfree : slash ∉ name)
    (m : Nat) : canonical (x ++ (name ++ slashes m)) = dropDot (collapse (x ++ name)) := by
  obtain ⟨n, c, rfl⟩ := (List.eq_nil_or_concat' name).resolve_left hne
  have hc : c ≠ slash := fun h => hfree (by simp [h])
  obtain ⟨u, hu⟩ := exists_collapse (x ++ n) hc
  have hwhole : collapse (x ++ (n ++ [c] ++ slashes m)) = u ++ c :: collapse (slashes m) := by
    rw [← hu]
    simp only [List.append_assoc, List.singleton_append]
  have hname : collapse (x ++ (n ++ [c])) = u ++ [c] := by
    rw [← List.append_assoc, hu]
    rfl
  have hrest : ∃ k, collapse (slashes m) = slashes k := by
    cases m with
    | zero => exact ⟨0, rfl⟩
    | succ m =>
        refine ⟨1, ?_⟩
        have := collapse_slashes [] [] m
        rwa [List.append_nil] at this
  obtain ⟨k, hk⟩ := hrest
  have hroot : u ++ c :: slashes k ≠ [slash] := by
    intro h
    have hmem : c ∈ [slash] := h ▸ List.mem_append_right _ List.mem_cons_self
    exact hc (by simpa using hmem)
  have hsplit : u ++ c :: slashes k = (u ++ [c]) ++ slashes k := by simp
  rw [canonical, hwhole, hname, hk, if_neg hroot, hsplit, strip_slashes,
    List.rdropWhile_concat_neg _ _ _ (by simp [isSlash, hc])]

theorem dropDot_of_free {s : Bytes} (hs : slash ∉ s) : dropDot s = s := by
  rw [dropDot, if_neg]
  intro h
  exact hs (List.mem_of_mem_take (h ▸ (by decide : slash ∈ ascii "./")))

/-- The paths `dirname` loses: two or more slashes, one name, and any slashes behind it. -/
def DoubledRoot (p : Bytes) : Prop :=
  ∃ k name m, 2 ≤ k ∧ name ≠ [] ∧ slash ∉ name ∧ p = slashes k ++ (name ++ slashes m)

/-- A path from the root. -/
def Absolute (p : Bytes) : Prop := p.head? = some slash

instance (p : Bytes) : Decidable (Absolute p) := inferInstanceAs (Decidable (_ = _))

/-- What `dirname` and `basename` keep of a path. -/
structure Splits (p : Bytes) : Prop where
  dirname_ne : dirname p ≠ []
  basename_ne : basename p ≠ []
  absolute : Absolute p → Absolute (dirname p)
  same : canonical (join (dirname p) (basename p)) = canonical p

theorem join_eq {a b : Bytes} (ha : a ≠ []) (hb : b ≠ []) :
    join a b = a.rdropWhile isSlash ++ (slash :: stripLeadingSlashes b) := by
  have hla : ¬ Str.length a = 0 := by simpa using ha
  have hlb : ¬ Str.length b = 0 := by simpa using hb
  rw [join, if_neg hla, if_neg hlb, stripTrailing_eq]
  simp [Str.concat, ascii, slash]

theorem root_splits (n : Nat) : Splits (slashes (n + 1)) := by
  have hstrip : stripTrailingSlashes (slashes (n + 1)) = [] := by
    rw [stripTrailing_eq, ← List.nil_append (slashes (n + 1)), strip_slashes]
    rfl
  have hlen : ¬ Str.length (slashes (n + 1)) = 0 := by
    simp only [Str.length_eq, slashes, List.length_replicate]
    omega
  have hdir : dirname (slashes (n + 1)) = [slash] := by
    rw [dirname, hstrip]
    simp only [Str.length_eq, List.length_nil]
    rfl
  have hbase : basename (slashes (n + 1)) = [slash] := by
    rw [basename, if_neg hlen, hstrip]
    rfl
  have hcollapse : collapse (slashes (n + 1)) = [slash] := by
    have := collapse_slashes [] [] n
    rwa [List.append_nil] at this
  refine ⟨by rw [hdir]; decide, by rw [hbase]; decide, fun _ => by rw [hdir]; decide, ?_⟩
  rw [hdir, hbase, join_eq (by decide) (by decide), canonical, canonical, hcollapse]
  decide

namespace Parts

variable {p : Bytes} (h : Parts p)

include h

theorem name_head : ∃ c s, h.name = c :: s ∧ c ≠ slash := by
  obtain ⟨c, s, hcs⟩ := List.exists_cons_of_ne_nil h.name_ne
  refine ⟨c, s, hcs, ?_⟩
  rintro rfl
  exact h.name_free (by rw [hcs]; exact List.mem_cons_self)

theorem canonical_eq :
    canonical p = dropDot (collapse (h.dir ++ (slashes h.before ++ h.name))) := by
  rw [← List.append_assoc, ← canonical_name _ h.name_ne h.name_free h.after]
  exact congrArg canonical (by simpa only [List.append_assoc] using h.eq)

theorem canonical_join {d : Bytes} (hd : d ≠ []) : canonical (join d h.name) =
    dropDot (collapse (d.rdropWhile isSlash ++ slash :: h.name)) := by
  have hname := canonical_name (d.rdropWhile isSlash ++ [slash]) h.name_ne h.name_free 0
  rw [slashes, List.replicate_zero, List.append_nil, List.append_assoc,
    List.singleton_append] at hname
  rw [join_eq hd h.name_ne, stripLeading_of_ne h.name_free, hname]

/-- A bare name: the directory is `.`. -/
theorem splits_bare (hk : h.before = 0) : Splits p := by
  obtain ⟨c, s, hcs, hc⟩ := name_head h
  have hdir := h.dir_nil hk
  have hdirname : dirname p = ascii "." := by rw [dirname_eq h, if_pos hk]
  have hdot : collapse (ascii "./" ++ h.name) = ascii "./" ++ h.name := by
    have hfree := collapse_of_free h.name_free
    rw [hcs] at hfree ⊢
    change collapse (46 :: slash :: c :: s) = 46 :: slash :: c :: s
    rw [collapse, if_neg (by decide), collapse, if_neg (fun e => hc e.2), hfree]
  refine ⟨by rw [hdirname]; decide, by rw [basename_eq h]; exact h.name_ne, ?_, ?_⟩
  · intro hp
    have heq := h.eq
    rw [hk, hdir, hcs] at heq
    rw [Absolute, heq] at hp
    exact absurd (Option.some.inj hp) hc
  · rw [hdirname, basename_eq h, canonical_join h (by decide), canonical_eq h, hk, hdir]
    change dropDot (collapse (ascii "./" ++ h.name)) = dropDot (collapse h.name)
    rw [hdot, collapse_of_free h.name_free, dropDot_of_free h.name_free, dropDot]
    exact if_pos rfl

/-- One name behind the root. -/
theorem splits_root (hdir : h.dir = []) (hk : h.before = 1) : Splits p := by
  have hdirname : dirname p = ascii "/" := by
    rw [dirname_eq h, hk, hdir]
    rfl
  refine ⟨by rw [hdirname]; decide, by rw [basename_eq h]; exact h.name_ne,
    fun _ => by rw [hdirname]; decide, ?_⟩
  rw [hdirname, basename_eq h, canonical_join h (by decide), canonical_eq h, hdir, hk]
  rfl

theorem splits_dir (hdir : h.dir ≠ []) : Splits p := by
  have hpos := List.length_pos_iff.mpr hdir
  obtain ⟨k, hk⟩ : ∃ k, h.before = k + 1 :=
    Nat.exists_eq_succ_of_ne_zero (fun hk => hdir (h.dir_nil hk))
  have hdirname : dirname p = h.dir := by
    rw [dirname_eq h, if_neg (by omega), if_neg (by omega)]
  refine ⟨by rw [hdirname]; exact hdir, by rw [basename_eq h]; exact h.name_ne, ?_, ?_⟩
  · intro hp
    obtain ⟨c, s, hcs⟩ := List.exists_cons_of_ne_nil hdir
    have heq := h.eq
    rw [hcs] at heq
    rw [Absolute, heq] at hp
    rw [hdirname, hcs]
    exact hp
  · rw [hdirname, basename_eq h, canonical_join h hdir, canonical_eq h, h.dir_end, hk,
      collapse_slashes]

end Parts

/-- Behind a doubled root `dirname` strips the root itself. -/
theorem dirname_of_doubledRoot {p : Bytes} (h : DoubledRoot p) : dirname p = [] := by
  obtain ⟨k, name, m, hk, hne, hfree, rfl⟩ := h
  let parts : Parts (slashes k ++ (name ++ slashes m)) :=
    ⟨[], k, name, m, (List.append_assoc ..).symm, rfl, fun _ => rfl, hne, hfree⟩
  have hdir := parts.dirname_eq
  rw [hdir, if_neg (show ¬ k = 0 by omega),
    if_neg (show ¬ ([] : Bytes).length + k = 1 by rw [List.length_nil]; omega)]

/-- **A path is its directory and its name**, whatever slashes it has, exactly if its only
directory is not a root written with more than one slash. -/
theorem dirname_basename_path (p : Bytes) (hp : p ≠ []) : Splits p ↔ ¬ DoubledRoot p := by
  refine ⟨fun h hroot => h.dirname_ne (dirname_of_doubledRoot hroot), fun hroot => ?_⟩
  rcases exists_parts p with ⟨n, rfl⟩ | ⟨⟨h⟩⟩
  · cases n with
    | zero => exact absurd rfl hp
    | succ n => exact root_splits n
  · by_cases hk : h.before = 0
    · exact h.splits_bare hk
    · by_cases hdir : h.dir = []
      · refine h.splits_root hdir ?_
        by_contra hone
        refine hroot ⟨h.before, h.name, h.after, by omega, h.name_ne, h.name_free, ?_⟩
        have heq := h.eq
        rwa [hdir, List.nil_append, List.append_assoc] at heq
      · exact h.splits_dir hdir

theorem dirname_basename_log : Splits (ascii "/var//log/") := by
  refine (dirname_basename_path _ (by decide)).mpr ?_
  rintro ⟨k, name, m, hk, -, -, h⟩
  obtain ⟨k, rfl⟩ := Nat.exists_eq_add_of_le' hk
  have hsnd := congrArg (fun s => s[1]?) h
  simp [slashes, List.replicate_succ, ascii, slash] at hsnd

/-- `//a` has an empty directory, and what is put together again is a path from nowhere. -/
theorem dirname_doubled_slash :
    dirname (ascii "//a") = [] ∧ Absolute (ascii "//a") ∧
      join (dirname (ascii "//a")) (basename (ascii "//a")) = ascii "a" := by
  let parts : Parts (ascii "//a") :=
    ⟨[], 2, ascii "a", 0, by decide, rfl, fun _ => rfl, by decide, by decide⟩
  have hdir : dirname (ascii "//a") = [] := parts.dirname_eq
  refine ⟨hdir, by decide, ?_⟩
  rw [hdir, parts.basename_eq]
  rfl

end TinyActor.Stdlib.Path
