/-
Dictionaries and sets are finite maps.

`Represents` reads a dictionary as a set of bindings and carries what every version keeps:
the comparator, the order of the tree, its heights and its balance.  Each function of
`lib/dict.ta` and `lib/set.ta` takes represented maps to the represented result, so a program
that works on any number of versions does, call by call, what it would do on finite maps
(`Does`), and a version that has been made is never touched again.
-/
import Mathlib.Data.List.Forall2
import Mathlib.Data.Nat.Fib.Basic
import TinyActor.Proofs.Tree

namespace TinyActor.Stdlib

open Lib

variable {K V A : Type}

/-! ### One dictionary -/

/-- A dictionary is a balanced search tree of the bindings `B`. -/
structure Represents (C : Comparator K) (d : Dict K V) (B : Bindings K V) : Prop where
  cmp : d.cmp = C.cmp
  search : d.root.Search C
  balanced : d.root.Balanced
  mem : ∀ p, p ∈ d.root.bindings ↔ p ∈ B

namespace Represents

variable {C : Comparator K} {d d2 : Dict K V} {B D : Bindings K V}

theorem ascending (h : Represents C d B) : C.Ascending d.root.bindings :=
  Tree.search_iff.mp h.search

theorem lists (h : Represents C d B) : Bindings.Lists C d.root.bindings B := ⟨h.ascending, h.mem⟩

theorem setOf_eq (h : Represents C d B) : {p | p ∈ d.root.bindings} = B := by
  ext p
  exact h.mem p

theorem new (C : Comparator K) : Represents C (Dict.new C.cmp : Dict K V) ∅ :=
  ⟨rfl, trivial, trivial, by simp [Dict.new]⟩

theorem insert (h : Represents C d B) (k : K) (v : V) :
    Represents C (d.insert k v) (B.insert C k v) := by
  have g := Tree.tInsert_grows C h.search h.balanced k v
  have hroot : (d.insert k v).root = d.root.tInsert C.cmp k v := by rw [Dict.insert, h.cmp]
  have hbind : (d.insert k v).root.bindings = Tree.splice C k v d.root.bindings := by
    rw [hroot, g.bindings]
  refine ⟨h.cmp, ?_, by rw [hroot]; exact g.balanced, ?_⟩
  · rw [Tree.search_iff, hbind, Tree.splice, Comparator.ascending_append,
      Comparator.ascending_cons]
    refine ⟨h.ascending.filter _, ⟨?_, h.ascending.filter _⟩, ?_⟩
    · intro q hq
      exact of_decide_eq_true (List.mem_filter.mp hq).2
    · intro p hp q hq
      have hpk : C.cmp p.1 k < 0 := of_decide_eq_true (List.mem_filter.mp hp).2
      rcases List.mem_cons.mp hq with rfl | hq
      · exact hpk
      · exact C.lt_trans hpk (of_decide_eq_true (List.mem_filter.mp hq).2)
  · intro p
    rw [hbind]
    simp only [Tree.splice, List.mem_append, List.mem_cons, List.mem_filter, decide_eq_true_eq,
      h.mem, Bindings.insert, Bindings.remove, Set.mem_ofPred_eq]
    have := C.swap p.1 k
    constructor
    · rintro (⟨hp, hlt⟩ | hp | ⟨hp, hlt⟩)
      · exact Or.inr ⟨hp, by omega⟩
      · exact Or.inl hp
      · exact Or.inr ⟨hp, by omega⟩
    · rintro (hp | ⟨hp, hne⟩)
      · exact Or.inr (Or.inl hp)
      · by_cases hlt : C.cmp p.1 k < 0
        · exact Or.inl ⟨hp, hlt⟩
        · exact Or.inr (Or.inr ⟨hp, by omega⟩)

theorem remove (h : Represents C d B) (k : K) : Represents C (d.remove k) (B.remove C k) := by
  have s := Tree.tRemove_shrinks C h.search h.balanced k
  have hroot : (d.remove k).root = d.root.tRemove C.cmp k := by rw [Dict.remove, h.cmp]
  refine ⟨h.cmp, ?_, by rw [hroot]; exact s.balanced, ?_⟩
  · rw [Tree.search_iff, hroot, s.bindings]
    exact h.ascending.filter _
  · intro p
    rw [hroot, s.bindings]
    simp [Tree.without, Bindings.remove, h.mem]

/-- Inserting the bindings of an ascending list one after another. -/
theorem insertAll (h : Represents C d B) {l : List (K × V)} (hl : C.Ascending l) :
    Represents C (l.foldl (fun acc p => acc.insert p.1 p.2) d) (B.merge C {q | q ∈ l}) := by
  induction l generalizing d B with
  | nil =>
      rw [Bindings.merge_nil]
      exact h
  | cons p l ih =>
      rw [Bindings.merge_cons hl]
      exact ih (h.insert p.1 p.2) (Comparator.ascending_cons.mp hl).2

theorem merge (h : Represents C d B) (h2 : Represents C d2 D) :
    Represents C (d.merge d2) (B.merge C D) := by
  rw [Dict.merge, Dict.fold, Tree.tFold_eq, ← h2.setOf_eq]
  exact h.insertAll h2.ascending

theorem get (h : Represents C d B) (k : K) : Bindings.Finds C B k (d.get k) := by
  rw [Dict.get, h.cmp, ← h.setOf_eq]
  exact Tree.tGet_finds C h.search k

theorem hasKey (h : Represents C d B) (k : K) : d.hasKey k = true ↔ B.Binds C k :=
  (h.get k).isSome

theorem toList_eq (d : Dict K V) : d.toList = d.root.bindings := by
  rw [Dict.toList, Tree.tInOrder_eq, List.append_nil]

theorem size_eq (d : Dict K V) : d.size = d.root.bindings.length := by
  rw [Dict.size, Tree.tSize_eq, Int.add_zero]

end Represents

/-! ### Dictionaries made from lists -/

theorem mem_sortDedup {C : Comparator K} (l : List (K × V)) :
    C.Ascending (Tree.sortDedup C.cmp l) ∧
      ∀ p, p ∈ Tree.sortDedup C.cmp l ↔ p ∈ Bindings.ofList C l := by
  induction l with
  | nil => exact ⟨Comparator.ascending_nil, fun p => by simp [Tree.sortDedup, Bindings.ofList]⟩
  | cons q l ih =>
      obtain ⟨hasc, hmem⟩ := ih
      refine ⟨Tree.sdIns_ascending hasc, ?_⟩
      intro p
      rw [Tree.sortDedup, Tree.mem_sdIns hasc, Bindings.mem_ofList_cons, hmem]
      -- The keys of a list are the keys of its last bindings.
      have hkeys : (∀ r ∈ Tree.sortDedup C.cmp l, C.cmp q.1 r.1 ≠ 0) ↔
          ∀ r ∈ l, C.cmp q.1 r.1 ≠ 0 := by
        constructor
        · intro h r hr hz
          obtain ⟨x, hx, hrx⟩ := Bindings.exists_ofList (C := C) hr
          exact h x ((hmem x).mpr hx) ((C.zero_congr hz).mpr hrx)
        · intro h r hr
          exact h r (Bindings.mem_of_mem_ofList ((hmem r).mp hr))
      rw [hkeys]

/-- **`from_list` binds every key of the list to its last value.** -/
theorem Represents.fromList (C : Comparator K) (l : List (K × V)) :
    Represents C (Dict.fromList l C.cmp) (Bindings.ofList C l) := by
  obtain ⟨hasc, hmem⟩ := mem_sortDedup (C := C) l
  obtain ⟨hbind, hbal⟩ := Tree.tBuild_eq (Tree.sortDedup C.cmp l)
  refine ⟨rfl, ?_, hbal, ?_⟩
  · rw [Tree.search_iff, Dict.fromList, hbind]
    exact hasc
  · intro p
    rw [Dict.fromList, hbind]
    exact hmem p

/-- Inserting the pairs of a list one by one. -/
theorem Represents.insertEach (C : Comparator K) (l : List (K × V)) :
    Represents C (l.foldl (fun acc p => acc.insert p.1 p.2) (Dict.new C.cmp))
      (Bindings.ofList C l) := by
  induction l using List.reverseRecOn with
  | nil =>
      have hnone : Bindings.ofList C ([] : List (K × V)) = ∅ := by
        ext p
        simp [Bindings.ofList]
      rw [hnone]
      exact Represents.new C
  | append_singleton l p ih =>
      rw [List.foldl_append, Bindings.ofList_concat]
      exact ih.insert p.1 p.2

/-- What the two ways of making a dictionary of a list agree on. -/
structure BuiltAs (C : Comparator K) (d e : Dict K V) : Prop where
  cmp : d.cmp = C.cmp
  bindings : d.toList = e.toList
  search : d.root.Search C
  balanced : d.root.Balanced

/-- **A dictionary made of a list at once** has the bindings of one the pairs are inserted into in
order, as a balanced search tree. -/
theorem from_list_inserts (C : Comparator K) (l : List (K × V)) (texts : List (Bytes × V)) :
    BuiltAs C (Dict.fromList l C.cmp)
        (l.foldl (fun d p => d.insert p.1 p.2) (Dict.new C.cmp)) ∧
      BuiltAs Str.strCmp (Dict.strFromList texts)
        (texts.foldl (fun d p => d.insert p.1 p.2) Dict.strNew) := by
  have hbuilt : ∀ {K : Type} (C : Comparator K) (l : List (K × V)),
      BuiltAs C (Dict.fromList l C.cmp)
        (l.foldl (fun d p => d.insert p.1 p.2) (Dict.new C.cmp)) := by
    intro K C l
    have hlist := Represents.fromList C l
    have heach := Represents.insertEach C l
    refine ⟨rfl, ?_, hlist.search, hlist.balanced⟩
    rw [Represents.toList_eq, Represents.toList_eq]
    refine hlist.ascending.ext heach.ascending ?_
    intro p
    rw [hlist.mem, heach.mem]
  exact ⟨hbuilt C l, hbuilt Str.strCmp texts⟩

/-! ### One set -/

/-- A set is a dictionary of its elements, each with the value zero. -/
def Contains (C : Comparator K) (s : MkSet K) (E : Set K) : Prop :=
  Represents C s.inner {p | p.1 ∈ E ∧ p.2 = 0}

/-- Some element of `E` is the key `x`. -/
def Belongs (C : Comparator K) (E : Set K) (x : K) : Prop := ∃ y ∈ E, C.cmp x y = 0

namespace Contains

variable {C : Comparator K} {s t : MkSet K} {E F : Set K}

theorem congr {B D : Bindings K Int} {d : Dict K Int} (h : Represents C d B)
    (heq : ∀ p, p ∈ B ↔ p ∈ D) : Represents C d D :=
  ⟨h.cmp, h.search, h.balanced, fun p => (h.mem p).trans (heq p)⟩

theorem binds_iff {x : K} :
    Bindings.Binds C {p : K × Int | p.1 ∈ E ∧ p.2 = 0} x ↔ Belongs C E x := by
  constructor
  · rintro ⟨p, ⟨hp, -⟩, hz⟩
    exact ⟨p.1, hp, hz⟩
  · rintro ⟨y, hy, hz⟩
    exact ⟨(y, 0), ⟨hy, rfl⟩, hz⟩

theorem new (C : Comparator K) : Contains C (MkSet.new C.cmp) ∅ :=
  congr (Represents.new C) (by simp)

theorem add (h : Contains C s E) (x : K) :
    Contains C (s.add x) {y | y = x ∨ y ∈ E ∧ C.cmp x y ≠ 0} := by
  refine congr (Represents.insert h x 0) ?_
  rintro ⟨y, n⟩
  simp only [Bindings.insert, Bindings.remove, Set.mem_ofPred_eq, Prod.mk.injEq]
  tauto

theorem remove (h : Contains C s E) (x : K) :
    Contains C (s.remove x) {y | y ∈ E ∧ C.cmp x y ≠ 0} := by
  refine congr (Represents.remove h x) ?_
  rintro ⟨y, n⟩
  simp only [Bindings.remove, Set.mem_ofPred_eq]
  tauto

theorem member (h : Contains C s E) (x : K) : s.member x = true ↔ Belongs C E x :=
  (Represents.get h x).isSome.trans binds_iff

theorem union (h : Contains C s E) (h2 : Contains C t F) :
    Contains C (s.union t) {y | y ∈ F ∨ y ∈ E ∧ ¬ Belongs C F y} := by
  refine congr (Represents.merge h h2) ?_
  rintro ⟨y, n⟩
  simp only [Bindings.merge, binds_iff, Set.mem_ofPred_eq]
  tauto

/-- The elements of a set that pass a test, collected into a new one. -/
theorem collect (h : Contains C s E) (test : K → Bool) :
    Represents C
      (s.inner.fold (fun (acc : Dict K Int) x _ => if test x then acc.insert x 0 else acc)
        (Dict.new s.inner.cmp))
      {p | (p.1 ∈ E ∧ test p.1 = true) ∧ p.2 = 0} := by
  have hasc := h.ascending
  have hkept : C.Ascending ((s.inner.root.bindings.filter fun p => test p.1).map
      fun p => (p.1, (0 : Int))) := by
    refine List.Pairwise.map _ ?_ (hasc.filter _)
    intro p q hpq
    exact hpq
  have hall := (Represents.new C).insertAll hkept
  rw [List.foldl_map, List.foldl_filter] at hall
  rw [Dict.fold, Tree.tFold_eq, h.cmp]
  refine congr hall ?_
  rintro ⟨y, n⟩
  simp only [Bindings.merge, Set.mem_ofPred_eq, List.mem_map, List.mem_filter, h.mem,
    Set.mem_empty_iff_false, false_and, or_false, Prod.mk.injEq]
  constructor
  · rintro ⟨p, ⟨⟨hp, -⟩, ht⟩, rfl, rfl⟩
    exact ⟨⟨hp, ht⟩, rfl⟩
  · rintro ⟨⟨hy, ht⟩, rfl⟩
    exact ⟨(y, 0), ⟨⟨hy, rfl⟩, ht⟩, rfl, rfl⟩

theorem intersect (h : Contains C s E) (h2 : Contains C t F) :
    Contains C (s.intersect t) {y | y ∈ E ∧ Belongs C F y} := by
  refine congr (h.collect t.inner.hasKey) ?_
  rintro ⟨y, n⟩
  simp only [Set.mem_ofPred_eq, Represents.hasKey h2, binds_iff]

theorem difference (h : Contains C s E) (h2 : Contains C t F) :
    Contains C (s.difference t) {y | y ∈ E ∧ ¬ Belongs C F y} := by
  have hnot := h.collect fun x => !t.inner.hasKey x
  have hfun : (fun (acc : Dict K Int) (x : K) (_ : Int) =>
      if t.inner.hasKey x then acc else acc.insert x 0) =
      fun acc x _ => if (!t.inner.hasKey x) then acc.insert x 0 else acc := by
    funext acc x n
    cases t.inner.hasKey x <;> rfl
  rw [Contains, MkSet.difference, hfun]
  refine congr hnot ?_
  rintro ⟨y, n⟩
  have hiff : t.inner.hasKey y = true ↔ Belongs C F y :=
    (Represents.hasKey h2 y).trans binds_iff
  simp [← hiff]

/-- The elements from the least to the greatest. -/
theorem toList (h : Contains C s E) :
    s.toList.Pairwise (fun x y => C.cmp x y < 0) ∧ ∀ x, x ∈ s.toList ↔ x ∈ E := by
  rw [MkSet.toList, Dict.keys, Represents.toList_eq]
  refine ⟨List.Pairwise.map _ (fun _ _ hpq => hpq) h.ascending, ?_⟩
  intro x
  simp only [List.mem_map, h.mem, Set.mem_ofPred_eq]
  constructor
  · rintro ⟨p, ⟨hp, -⟩, rfl⟩
    exact hp
  · intro hx
    exact ⟨(x, 0), ⟨hx, rfl⟩, rfl⟩

end Contains

/-! ### Versions -/

/-- The finite maps and sets a program has made so far. -/
structure FiniteMaps (K V : Type) where
  dicts : List (Bindings K V)
  sets : List (Set K)

namespace FiniteMaps

def empty : FiniteMaps K V := ⟨[], []⟩

def addDict (m : FiniteMaps K V) (B : Bindings K V) : FiniteMaps K V := ⟨m.dicts ++ [B], m.sets⟩

def addSet (m : FiniteMaps K V) (E : Set K) : FiniteMaps K V := ⟨m.dicts, m.sets ++ [E]⟩

end FiniteMaps

/-- The dictionary versions a call names. -/
def VersionOp.dictArgs : VersionOp K V A → List Nat
  | .insert d _ _ | .remove d _ | .get d _ | .fold d _ _ | .toList d | .size d => [d]
  | .merge d1 d2 => [d1, d2]
  | _ => []

/-- The set versions a call names. -/
def VersionOp.setArgs : VersionOp K V A → List Nat
  | .add s _ | .setRemove s _ | .member s _ | .setToList s => [s]
  | .union a b | .intersect a b | .difference a b => [a, b]
  | _ => []

/-- **What one call does on finite maps.** -/
inductive Does (C : Comparator K) (m : FiniteMaps K V) :
    VersionOp K V A → VersionResult K V A → FiniteMaps K V → Prop where
  | new : Does C m .new .version (m.addDict ∅)
  | fromList (l : List (K × V)) :
      Does C m (.fromList l) .version (m.addDict (Bindings.ofList C l))
  | insert {i : Nat} {B : Bindings K V} (k : K) (v : V) (h : m.dicts[i]? = some B) :
      Does C m (.insert i k v) .version (m.addDict (B.insert C k v))
  | remove {i : Nat} {B : Bindings K V} (k : K) (h : m.dicts[i]? = some B) :
      Does C m (.remove i k) .version (m.addDict (B.remove C k))
  | merge {i j : Nat} {B D : Bindings K V} (h : m.dicts[i]? = some B)
      (h2 : m.dicts[j]? = some D) : Does C m (.merge i j) .version (m.addDict (B.merge C D))
  | get {i : Nat} {B : Bindings K V} {k : K} {r : Option V} (h : m.dicts[i]? = some B)
      (hr : B.Finds C k r) : Does C m (.get i k) (.found r) m
  | fold {i : Nat} {B : Bindings K V} {l : List (K × V)} (f : A → K → V → A) (acc : A)
      (h : m.dicts[i]? = some B) (hl : B.Lists C l) :
      Does C m (.fold i f acc) (.folded (l.foldl (fun a p => f a p.1 p.2) acc)) m
  | toList {i : Nat} {B : Bindings K V} {l : List (K × V)} (h : m.dicts[i]? = some B)
      (hl : B.Lists C l) : Does C m (.toList i) (.listed l) m
  | size {i : Nat} {B : Bindings K V} {l : List (K × V)} (h : m.dicts[i]? = some B)
      (hl : B.Lists C l) : Does C m (.size i) (.count l.length) m
  | setNew : Does C m .setNew .version (m.addSet ∅)
  | add {i : Nat} {E : Set K} (x : K) (h : m.sets[i]? = some E) :
      Does C m (.add i x) .version (m.addSet {y | y = x ∨ y ∈ E ∧ C.cmp x y ≠ 0})
  | setRemove {i : Nat} {E : Set K} (x : K) (h : m.sets[i]? = some E) :
      Does C m (.setRemove i x) .version (m.addSet {y | y ∈ E ∧ C.cmp x y ≠ 0})
  | union {i j : Nat} {E F : Set K} (h : m.sets[i]? = some E) (h2 : m.sets[j]? = some F) :
      Does C m (.union i j) .version (m.addSet {y | y ∈ F ∨ y ∈ E ∧ ¬ Belongs C F y})
  | intersect {i j : Nat} {E F : Set K} (h : m.sets[i]? = some E) (h2 : m.sets[j]? = some F) :
      Does C m (.intersect i j) .version (m.addSet {y | y ∈ E ∧ Belongs C F y})
  | difference {i j : Nat} {E F : Set K} (h : m.sets[i]? = some E) (h2 : m.sets[j]? = some F) :
      Does C m (.difference i j) .version (m.addSet {y | y ∈ E ∧ ¬ Belongs C F y})
  | member {i : Nat} {E : Set K} {x : K} {b : Bool} (h : m.sets[i]? = some E)
      (hb : b = true ↔ Belongs C E x) : Does C m (.member i x) (.belongs b) m
  | setToList {i : Nat} {E : Set K} {l : List K} (h : m.sets[i]? = some E)
      (hl : l.Pairwise fun x y => C.cmp x y < 0) (hmem : ∀ x, x ∈ l ↔ x ∈ E) :
      Does C m (.setToList i) (.elements l) m
  | absentDict {op : VersionOp K V A} {i : Nat} (hi : i ∈ op.dictArgs) (h : m.dicts[i]? = none) :
      Does C m op .absent m
  | absentSet {op : VersionOp K V A} {i : Nat} (hi : i ∈ op.setArgs) (h : m.sets[i]? = none) :
      Does C m op .absent m

/-- Calls one after another. -/
inductive DoesAll (C : Comparator K) :
    FiniteMaps K V → List (VersionOp K V A) → List (VersionResult K V A) → FiniteMaps K V → Prop
  | nil (m : FiniteMaps K V) : DoesAll C m [] [] m
  | cons {m m' m'' : FiniteMaps K V} {op : VersionOp K V A} {r : VersionResult K V A}
      {ops : List (VersionOp K V A)} {rs : List (VersionResult K V A)} (h : Does C m op r m')
      (hs : DoesAll C m' ops rs m'') : DoesAll C m (op :: ops) (r :: rs) m''

/-- Every version is the balanced search tree of its map. -/
structure Agrees (C : Comparator K) (s : Versions K V) (m : FiniteMaps K V) : Prop where
  dicts : List.Forall₂ (Represents C) s.dicts m.dicts
  sets : List.Forall₂ (Contains C) s.sets m.sets

theorem forall₂_get {α β : Type*} {R : α → β → Prop} {l : List α} {l' : List β}
    (h : List.Forall₂ R l l') (i : Nat) :
    (∃ a b, l[i]? = some a ∧ l'[i]? = some b ∧ R a b) ∨ (l[i]? = none ∧ l'[i]? = none) := by
  induction h generalizing i with
  | nil => exact Or.inr ⟨rfl, rfl⟩
  | cons hab _ ih =>
      cases i with
      | zero => exact Or.inl ⟨_, _, rfl, rfl, hab⟩
      | succ i => simpa using ih i

variable {s : Versions K V} {i : Nat}

namespace Agrees

variable {C : Comparator K} {s : Versions K V} {m : FiniteMaps K V}

theorem empty : Agrees C (Versions.empty : Versions K V) FiniteMaps.empty := ⟨.nil, .nil⟩

theorem addDict (h : Agrees C s m) {d : Dict K V} {B : Bindings K V} (hd : Represents C d B) :
    Agrees C (s.addDict d) (m.addDict B) :=
  ⟨List.rel_append h.dicts (.cons hd .nil), h.sets⟩

theorem addSet (h : Agrees C s m) {x : MkSet K} {E : Set K} (hx : Contains C x E) :
    Agrees C (s.addSet x) (m.addSet E) :=
  ⟨h.dicts, List.rel_append h.sets (.cons hx .nil)⟩

/-- A call on one dictionary: either the version exists on both sides or on neither. -/
theorem onDict (h : Agrees C s m) {op : VersionOp K V A} (hi : i ∈ op.dictArgs)
    {f : Dict K V → Versions K V × VersionResult K V A}
    (hf : ∀ d B, m.dicts[i]? = some B → Represents C d B → ∃ m', Does C m op (f d).2 m' ∧ Agrees C (f d).1 m') :
    ∃ m', Does C m op (s.onDict i f).2 m' ∧ Agrees C (s.onDict i f).1 m' := by
  rcases forall₂_get h.dicts i with ⟨d, B, hd, hB, hdB⟩ | ⟨hd, hB⟩
  · simp only [Versions.onDict, hd]
    exact hf d B hB hdB
  · simp only [Versions.onDict, hd]
    exact ⟨m, .absentDict hi hB, h⟩

theorem onSet (h : Agrees C s m) {op : VersionOp K V A} (hi : i ∈ op.setArgs)
    {f : MkSet K → Versions K V × VersionResult K V A}
    (hf : ∀ x E, m.sets[i]? = some E → Contains C x E → ∃ m', Does C m op (f x).2 m' ∧ Agrees C (f x).1 m') :
    ∃ m', Does C m op (s.onSet i f).2 m' ∧ Agrees C (s.onSet i f).1 m' := by
  rcases forall₂_get h.sets i with ⟨x, E, hx, hE, hxE⟩ | ⟨hx, hE⟩
  · simp only [Versions.onSet, hx]
    exact hf x E hE hxE
  · simp only [Versions.onSet, hx]
    exact ⟨m, .absentSet hi hE, h⟩

/-- One call of the source is one call on finite maps. -/
theorem step (h : Agrees C s m) (op : VersionOp K V A) :
    ∃ m', Does C m op (s.step C.cmp op).2 m' ∧ Agrees C (s.step C.cmp op).1 m' := by
  cases op with
  | new => exact ⟨_, .new, h.addDict (Represents.new C)⟩
  | fromList l => exact ⟨_, .fromList l, h.addDict (Represents.fromList C l)⟩
  | insert i k v =>
      refine h.onDict (by simp [VersionOp.dictArgs]) ?_
      intro d B hB hd
      exact ⟨_, .insert k v hB, h.addDict (hd.insert k v)⟩
  | remove i k =>
      refine h.onDict (by simp [VersionOp.dictArgs]) ?_
      intro d B hB hd
      exact ⟨_, .remove k hB, h.addDict (hd.remove k)⟩
  | merge i j =>
      refine h.onDict (by simp [VersionOp.dictArgs]) ?_
      intro d B hB hd
      refine h.onDict (by simp [VersionOp.dictArgs]) ?_
      intro d2 D hD hd2
      exact ⟨_, .merge hB hD, h.addDict (hd.merge hd2)⟩
  | get i k =>
      refine h.onDict (by simp [VersionOp.dictArgs]) ?_
      intro d B hB hd
      exact ⟨m, .get hB (hd.get k), h⟩
  | fold i f acc =>
      refine h.onDict (by simp [VersionOp.dictArgs]) ?_
      intro d B hB hd
      refine ⟨m, ?_, h⟩
      rw [Dict.fold, Tree.tFold_eq]
      exact .fold f acc hB hd.lists
  | toList i =>
      refine h.onDict (by simp [VersionOp.dictArgs]) ?_
      intro d B hB hd
      refine ⟨m, ?_, h⟩
      rw [Represents.toList_eq]
      exact .toList hB hd.lists
  | size i =>
      refine h.onDict (by simp [VersionOp.dictArgs]) ?_
      intro d B hB hd
      refine ⟨m, ?_, h⟩
      rw [Represents.size_eq]
      exact .size hB hd.lists
  | setNew => exact ⟨_, .setNew, h.addSet (Contains.new C)⟩
  | add i x =>
      refine h.onSet (by simp [VersionOp.setArgs]) ?_
      intro a E hE ha
      exact ⟨_, .add x hE, h.addSet (ha.add x)⟩
  | setRemove i x =>
      refine h.onSet (by simp [VersionOp.setArgs]) ?_
      intro a E hE ha
      exact ⟨_, .setRemove x hE, h.addSet (ha.remove x)⟩
  | union i j =>
      refine h.onSet (by simp [VersionOp.setArgs]) ?_
      intro a E hE ha
      refine h.onSet (by simp [VersionOp.setArgs]) ?_
      intro b F hF hb
      exact ⟨_, .union hE hF, h.addSet (ha.union hb)⟩
  | intersect i j =>
      refine h.onSet (by simp [VersionOp.setArgs]) ?_
      intro a E hE ha
      refine h.onSet (by simp [VersionOp.setArgs]) ?_
      intro b F hF hb
      exact ⟨_, .intersect hE hF, h.addSet (ha.intersect hb)⟩
  | difference i j =>
      refine h.onSet (by simp [VersionOp.setArgs]) ?_
      intro a E hE ha
      refine h.onSet (by simp [VersionOp.setArgs]) ?_
      intro b F hF hb
      exact ⟨_, .difference hE hF, h.addSet (ha.difference hb)⟩
  | member i x =>
      refine h.onSet (by simp [VersionOp.setArgs]) ?_
      intro a E hE ha
      exact ⟨m, .member hE (ha.member x), h⟩
  | setToList i =>
      refine h.onSet (by simp [VersionOp.setArgs]) ?_
      intro a E hE ha
      exact ⟨m, .setToList hE ha.toList.1 ha.toList.2, h⟩

theorem run (h : Agrees C s m) (ops : List (VersionOp K V A)) :
    ∃ m', DoesAll C m ops (s.run C.cmp ops).2 m' ∧ Agrees C (s.run C.cmp ops).1 m' := by
  induction ops generalizing s m with
  | nil => exact ⟨m, .nil m, h⟩
  | cons op ops ih =>
      obtain ⟨m₁, h₁, ha₁⟩ := h.step op
      obtain ⟨m₂, h₂, ha₂⟩ := ih ha₁
      exact ⟨m₂, .cons h₁ h₂, ha₂⟩

end Agrees

/-! ### Versions are only added -/

namespace Versions

/-- Versions that exist are still there, at their position. -/
def Extends (s s' : Versions K V) : Prop := s.dicts <+: s'.dicts ∧ s.sets <+: s'.sets

theorem Extends.refl (s : Versions K V) : Extends s s := ⟨List.prefix_rfl, List.prefix_rfl⟩

theorem Extends.trans {s' s'' : Versions K V} (h : Extends s s') (h' : Extends s' s'') :
    Extends s s'' :=
  ⟨h.1.trans h'.1, h.2.trans h'.2⟩

theorem extends_addDict (s : Versions K V) (d : Dict K V) : Extends s (s.addDict d) :=
  ⟨List.prefix_append _ _, List.prefix_rfl⟩

theorem extends_addSet (s : Versions K V) (x : MkSet K) : Extends s (s.addSet x) :=
  ⟨List.prefix_rfl, List.prefix_append _ _⟩

theorem extends_onDict {f : Dict K V → Versions K V × VersionResult K V A}
    (h : ∀ d, Extends s (f d).1) : Extends s (s.onDict i f).1 := by
  rw [onDict]
  split
  · exact h _
  · exact Extends.refl s

theorem extends_onSet {f : MkSet K → Versions K V × VersionResult K V A}
    (h : ∀ x, Extends s (f x).1) : Extends s (s.onSet i f).1 := by
  rw [onSet]
  split
  · exact h _
  · exact Extends.refl s

theorem extends_step (cmp : K → K → Int) (s : Versions K V) (op : VersionOp K V A) :
    Extends s (s.step cmp op).1 := by
  cases op with
  | new | fromList => exact extends_addDict s _
  | setNew => exact extends_addSet s _
  | insert | remove => exact extends_onDict fun d => extends_addDict s _
  | merge => exact extends_onDict fun d => extends_onDict fun d2 => extends_addDict s _
  | get | fold | toList | size => exact extends_onDict fun d => Extends.refl s
  | add | setRemove => exact extends_onSet fun a => extends_addSet s _
  | union | intersect | difference =>
      exact extends_onSet fun a => extends_onSet fun b => extends_addSet s _
  | member | setToList => exact extends_onSet fun a => Extends.refl s

theorem extends_run (cmp : K → K → Int) (s : Versions K V) (ops : List (VersionOp K V A)) :
    Extends s (s.run cmp ops).1 := by
  induction ops generalizing s with
  | nil => exact Extends.refl s
  | cons op ops ih => exact (extends_step cmp s op).trans (ih _)

theorem run_append (cmp : K → K → Int) (s : Versions K V) (ops ops' : List (VersionOp K V A)) :
    (s.run cmp (ops ++ ops')).1 = ((s.run cmp ops).1.run cmp ops').1 := by
  induction ops generalizing s with
  | nil => rfl
  | cons op ops ih => exact ih _

end Versions

/--
**Dictionaries and sets are finite maps and sets, version by version.**

Whatever calls a program makes, in any order and on any versions, what it is handed back is
what finite maps ordered by the comparator hand back, every version is a search tree with
right heights and balanced siblings, and the versions there are at one point are unchanged
at every later point.
-/
theorem versions_are_finite_maps (C : Comparator K) (ops : List (VersionOp K V A)) :
    (∃ m, DoesAll C FiniteMaps.empty ops (Versions.empty.run C.cmp ops).2 m ∧
      Agrees C (Versions.empty.run C.cmp ops).1 m) ∧
    ∀ pre post, ops = pre ++ post →
      Versions.Extends (Versions.empty.run C.cmp pre).1 (Versions.empty.run C.cmp ops).1 := by
  refine ⟨Agrees.empty.run ops, ?_⟩
  rintro pre post rfl
  rw [Versions.run_append]
  exact Versions.extends_run C.cmp _ post

/-! ### Depth -/

theorem Tree.fib_depth_le {t : Tree K V} (hb : t.Balanced) :
    Nat.fib (t.depth.toNat + 2) ≤ t.bindings.length + 1 := by
  induction t with
  | leaf => exact Nat.le_refl 1
  | node k v l r h ihl ihr =>
      obtain ⟨-, hlr, hrl, hl, hr⟩ := hb
      have hl0 := depth_nonneg l
      have hr0 := depth_nonneg r
      have hfib (n : Nat) : Nat.fib (n + 1 + 2) = Nat.fib (n + 1) + Nat.fib (n + 2) :=
        Nat.fib_add_two
      have hl' := ihl hl
      have hr' := ihr hr
      rw [bindings_node, List.length_append, List.length_cons, depth]
      rcases Int.le_total l.depth r.depth with hle | hle
      · have hmono : Nat.fib (r.depth.toNat + 1) ≤ Nat.fib (l.depth.toNat + 2) :=
          Nat.fib_mono (by omega)
        rw [max_eq_right hle, Int.toNat_add hr0 (by decide), Int.toNat_one, hfib]
        omega
      · have hmono : Nat.fib (l.depth.toNat + 1) ≤ Nat.fib (r.depth.toNat + 2) :=
          Nat.fib_mono (by omega)
        rw [max_eq_left hle, Int.toNat_add hl0 (by decide), Int.toNat_one, hfib]
        omega

theorem Represents.shallow {C : Comparator K} {d : Dict K V} {B : Bindings K V}
    (h : Represents C d B) : (Nat.fib (d.root.depth.toNat + 2) : Int) ≤ d.size + 1 := by
  have := Tree.fib_depth_le h.balanced
  rw [size_eq]
  omega

/-- **Lookups are logarithmic.**  Whatever calls built it, the depth `h` of a dictionary or a
set of `n` elements is bounded by `fib (h + 2) ≤ n + 1`. -/
theorem versions_shallow (C : Comparator K) (ops : List (VersionOp K V A)) :
    (∀ d ∈ (Versions.empty.run C.cmp ops).1.dicts,
      (Nat.fib (d.root.depth.toNat + 2) : Int) ≤ d.size + 1) ∧
    ∀ x ∈ (Versions.empty.run C.cmp ops).1.sets,
      (Nat.fib (x.inner.root.depth.toNat + 2) : Int) ≤ x.inner.size + 1 := by
  obtain ⟨m, -, h⟩ := Agrees.empty.run (C := C) ops
  constructor
  · exact ((List.forall₂_and_left _ _).mp (h.dicts.imp fun _ _ hd => ⟨hd.shallow, hd⟩)).1
  · exact ((List.forall₂_and_left _ _).mp
      (h.sets.imp fun _ _ hx => ⟨Represents.shallow hx, hx⟩)).1

end TinyActor.Stdlib
