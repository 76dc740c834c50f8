/-
Balanced search trees.

Three things are kept by every function that builds a tree: its bindings are in ascending
order from left to right, every stored height is the height, and the two subtrees of a node
differ in height by at most one.  The first is a statement about the list of bindings, so
the functions are described by what they do to that list; the other two are `Balanced`.

`t_balance` is the only place where a tree is taken apart.  It is called with two balanced
trees whose heights differ by two at most, and then none of its leaf answers is reached.
-/
import Mathlib.Data.Nat.Size
import TinyActor.Stdlib.Dict

namespace TinyActor.Stdlib.Tree

open Lib

variable {K V A : Type}

/-! ### What a tree holds, and its shape -/

/-- The bindings from left to right. -/
def bindings : Tree K V → List (K × V)
  | leaf => []
  | node k v l r _ => bindings l ++ (k, v) :: bindings r

/-- The number of nodes on the longest way down. -/
def depth : Tree K V → Int
  | leaf => 0
  | node _ _ l r _ => max (depth l) (depth r) + 1

/-- Stored heights are right and siblings differ in height by at most one. -/
def Balanced : Tree K V → Prop
  | leaf => True
  | node k v l r h =>
      h = depth (node k v l r h) ∧ depth l ≤ depth r + 1 ∧ depth r ≤ depth l + 1 ∧
        Balanced l ∧ Balanced r

/-- A search tree: smaller keys to the left, greater ones to the right, at every node. -/
def Search (C : Comparator K) : Tree K V → Prop
  | leaf => True
  | node k _ l r _ =>
      (∀ p ∈ bindings l, C.cmp p.1 k < 0) ∧ (∀ p ∈ bindings r, C.cmp k p.1 < 0) ∧
        Search C l ∧ Search C r

@[simp] theorem bindings_leaf : bindings (leaf : Tree K V) = [] := rfl

@[simp] theorem bindings_node (k : K) (v : V) (l r : Tree K V) (h : Int) :
    bindings (node k v l r h) = bindings l ++ (k, v) :: bindings r := rfl

@[simp] theorem bindings_tNode (k : K) (v : V) (l r : Tree K V) :
    bindings (tNode k v l r) = bindings l ++ (k, v) :: bindings r := rfl

@[simp] theorem depth_tNode (k : K) (v : V) (l r : Tree K V) :
    depth (tNode k v l r) = max (depth l) (depth r) + 1 := rfl

theorem depth_nonneg (t : Tree K V) : 0 ≤ depth t := by
  induction t with
  | leaf => exact Int.le_refl 0
  | node k v l r h ihl ihr =>
      rw [depth]
      omega

variable {C : Comparator K} {t l r : Tree K V} {k : K} {v v2 : V}

theorem tHeight_eq (h : Balanced t) : tHeight t = depth t := by
  cases t with
  | leaf => rfl
  | node k v l r n => exact h.1

theorem balanced_tNode (hl : Balanced l) (hr : Balanced r) (hlr : depth l ≤ depth r + 1)
    (hrl : depth r ≤ depth l + 1) : Balanced (tNode k v l r) := by
  refine ⟨?_, hlr, hrl, hl, hr⟩
  rw [tHeight_eq hl, tHeight_eq hr, depth]
  split <;> omega

theorem search_iff : Search C t ↔ C.Ascending (bindings t) := by
  induction t with
  | leaf => simp [Search]
  | node k v l r h ihl ihr =>
      simp only [Search, ihl, ihr, bindings_node, Comparator.ascending_append,
        Comparator.ascending_cons, List.mem_cons]
      constructor
      · rintro ⟨hl, hr, al, ar⟩
        refine ⟨al, ⟨hr, ar⟩, ?_⟩
        rintro p hp q (rfl | hq)
        · exact hl p hp
        · exact C.lt_trans (hl p hp) (hr q hq)
      · rintro ⟨al, ⟨hr, ar⟩, hlr⟩
        exact ⟨fun p hp => hlr p hp _ (Or.inl rfl), hr, al, ar⟩

/-! ### Rebalancing -/

/-- What `t_balance` leaves: the bindings in their order, a balanced tree, and a height that is
the one of an ordinary node, or one less if a subtree was too high. -/
structure Rebalanced (k : K) (v : V) (l r t : Tree K V) : Prop where
  bindings : bindings t = Tree.bindings l ++ (k, v) :: Tree.bindings r
  balanced : Balanced t
  depth_le : depth t ≤ max (depth l) (depth r) + 1
  le_depth : max (depth l) (depth r) ≤ depth t
  depth_eq : depth l ≤ depth r + 1 → depth r ≤ depth l + 1 →
    depth t = max (depth l) (depth r) + 1

theorem tBalance_even (hl : Balanced l) (hr : Balanced r) (hlr : depth l ≤ depth r + 1)
    (hrl : depth r ≤ depth l + 1) : Rebalanced k v l r (tBalance k v l r) := by
  have heq : tBalance k v l r = tNode k v l r := by
    simp only [tBalance, tHeight_eq hl, tHeight_eq hr]
    rw [if_neg (by omega), if_neg (by omega)]
  rw [heq]
  refine ⟨rfl, balanced_tNode hl hr hlr hrl, Int.le_refl _, ?_, fun _ _ => rfl⟩
  rw [depth_tNode]
  omega

theorem tBalance_left (hl : Balanced l) (hr : Balanced r) (hd : depth l = depth r + 2) :
    Rebalanced k v l r (tBalance k v l r) := by
  have hpos := depth_nonneg r
  have hhl := tHeight_eq hl
  cases l with
  | leaf =>
      rw [depth] at hd
      omega
  | node lk lv ll lr lh =>
      obtain ⟨-, h₁, h₂, hll, hlr⟩ := hl
      simp only [tBalance, hhl, tHeight_eq hr, tHeight_eq hll, tHeight_eq hlr]
      rw [if_pos (by omega)]
      rw [depth] at hd
      by_cases hrot : depth ll ≥ depth lr
      · -- A single rotation: the left subtree of the left one is the high one.
        rw [if_pos hrot]
        have hin : Balanced (tNode k v lr r) := balanced_tNode hlr hr (by omega) (by omega)
        refine ⟨by simp, balanced_tNode hll hin ?_ ?_, ?_, ?_, ?_⟩ <;>
          simp only [depth_tNode, depth] <;> omega
      · rw [if_neg hrot]
        cases lr with
        | leaf =>
            have := depth_nonneg ll
            rw [depth] at hrot
            omega
        | node lrk lrv lrl lrr lrh =>
            obtain ⟨-, h₃, h₄, hlrl, hlrr⟩ := hlr
            simp only [depth] at hd h₁ h₂ hrot
            have hin : Balanced (tNode lk lv ll lrl) :=
              balanced_tNode hll hlrl (by omega) (by omega)
            have hout : Balanced (tNode k v lrr r) :=
              balanced_tNode hlrr hr (by omega) (by omega)
            refine ⟨by simp, balanced_tNode hin hout ?_ ?_, ?_, ?_, ?_⟩ <;>
              simp only [depth_tNode, depth] <;> omega

theorem tBalance_right (hl : Balanced l) (hr : Balanced r) (hd : depth r = depth l + 2) :
    Rebalanced k v l r (tBalance k v l r) := by
  have hpos := depth_nonneg l
  have hhr := tHeight_eq hr
  cases r with
  | leaf =>
      rw [depth] at hd
      omega
  | node rk rv rl rr rh =>
      obtain ⟨-, h₁, h₂, hrl, hrr⟩ := hr
      simp only [tBalance, hhr, tHeight_eq hl, tHeight_eq hrl, tHeight_eq hrr]
      rw [if_neg (by omega), if_pos (by omega)]
      rw [depth] at hd
      by_cases hrot : depth rr ≥ depth rl
      · rw [if_pos hrot]
        have hin : Balanced (tNode k v l rl) := balanced_tNode hl hrl (by omega) (by omega)
        refine ⟨by simp, balanced_tNode hin hrr ?_ ?_, ?_, ?_, ?_⟩ <;>
          simp only [depth_tNode, depth] <;> omega
      · rw [if_neg hrot]
        cases rl with
        | leaf =>
            have := depth_nonneg rr
            rw [depth] at hrot
            omega
        | node rlk rlv rll rlr rlh =>
            obtain ⟨-, h₃, h₄, hrll, hrlr⟩ := hrl
            simp only [depth] at hd h₁ h₂ hrot
            have hin : Balanced (tNode k v l rll) :=
              balanced_tNode hl hrll (by omega) (by omega)
            have hout : Balanced (tNode rk rv rlr rr) :=
              balanced_tNode hrlr hrr (by omega) (by omega)
            refine ⟨by simp, balanced_tNode hin hout ?_ ?_, ?_, ?_, ?_⟩ <;>
              simp only [depth_tNode, depth] <;> omega

/-- **`t_balance` rebalances two trees whose heights differ by at most two.** -/
theorem tBalance_rebalances (hl : Balanced l) (hr : Balanced r) (hlr : depth l ≤ depth r + 2)
    (hrl : depth r ≤ depth l + 2) : Rebalanced k v l r (tBalance k v l r) := by
  by_cases h₁ : depth l = depth r + 2
  · exact tBalance_left hl hr h₁
  · by_cases h₂ : depth r = depth l + 2
    · exact tBalance_right hl hr h₂
    · exact tBalance_even hl hr (by omega) (by omega)

/-! ### Insertion -/

/-- What is below `k`, the new binding, what is above `k`. -/
def splice (C : Comparator K) (k : K) (v : V) (l : List (K × V)) : List (K × V) :=
  l.filter (fun p => C.cmp p.1 k < 0) ++ (k, v) :: l.filter (fun p => C.cmp k p.1 < 0)

/-- A tree made from a balanced one by an insertion below it. -/
structure Grown (C : Comparator K) (k : K) (v : V) (t t' : Tree K V) : Prop where
  bindings : bindings t' = splice C k v (Tree.bindings t)
  balanced : Balanced t'
  le_depth : depth t ≤ depth t'
  depth_le : depth t' ≤ depth t + 1

section Lists

variable {C : Comparator K} {l r : List (K × V)} {k k2 : K}

theorem filter_lt_eq_self (h : ∀ p ∈ l, C.cmp p.1 k2 < 0) (hk : C.cmp k2 k ≤ 0) :
    l.filter (fun p => C.cmp p.1 k < 0) = l := by
  refine List.filter_eq_self.mpr ?_
  intro p hp
  exact decide_eq_true (C.lt_of_lt_of_le (h p hp) hk)

theorem filter_lt_eq_nil (h : ∀ p ∈ r, C.cmp k2 p.1 < 0) (hk : C.cmp k k2 ≤ 0) :
    r.filter (fun p => C.cmp p.1 k < 0) = [] := by
  refine List.filter_eq_nil_iff.mpr ?_
  intro p hp hlt
  have h₁ := C.lt_of_le_of_lt hk (h p hp)
  have h₂ := (C.swap p.1 k).mp (of_decide_eq_true hlt)
  omega

theorem filter_gt_eq_self (h : ∀ p ∈ r, C.cmp k2 p.1 < 0) (hk : C.cmp k k2 ≤ 0) :
    r.filter (fun p => C.cmp k p.1 < 0) = r := by
  refine List.filter_eq_self.mpr ?_
  intro p hp
  exact decide_eq_true (C.lt_of_le_of_lt hk (h p hp))

theorem filter_gt_eq_nil (h : ∀ p ∈ l, C.cmp p.1 k2 < 0) (hk : C.cmp k2 k ≤ 0) :
    l.filter (fun p => C.cmp k p.1 < 0) = [] := by
  refine List.filter_eq_nil_iff.mpr ?_
  intro p hp hlt
  have h₁ := C.lt_of_lt_of_le (h p hp) hk
  have h₂ := (C.swap k p.1).mp (of_decide_eq_true hlt)
  omega

/-- Inserting to the left of a node's key. -/
theorem splice_left (hr : ∀ p ∈ r, C.cmp k2 p.1 < 0) (hk : C.cmp k k2 < 0) :
    splice C k v (l ++ (k2, v2) :: r) = splice C k v l ++ (k2, v2) :: r := by
  have hnot : ¬ C.cmp k2 k < 0 := by
    have := (C.swap k k2).mp hk
    omega
  simp [splice, filter_lt_eq_nil hr (Int.le_of_lt hk), filter_gt_eq_self hr (Int.le_of_lt hk),
    hk, hnot]

/-- Inserting to the right of a node's key. -/
theorem splice_right (hl : ∀ p ∈ l, C.cmp p.1 k2 < 0) (hk : C.cmp k2 k < 0) :
    splice C k v (l ++ (k2, v2) :: r) = l ++ (k2, v2) :: splice C k v r := by
  have hnot : ¬ C.cmp k k2 < 0 := by
    have := (C.swap k2 k).mp hk
    omega
  simp [splice, filter_lt_eq_self hl (Int.le_of_lt hk), filter_gt_eq_nil hl (Int.le_of_lt hk),
    hk, hnot]

/-- Inserting the key of a node. -/
theorem splice_here (hl : ∀ p ∈ l, C.cmp p.1 k2 < 0) (hr : ∀ p ∈ r, C.cmp k2 p.1 < 0)
    (hk : C.cmp k k2 = 0) : splice C k v (l ++ (k2, v2) :: r) = l ++ (k, v) :: r := by
  have hk' := C.zero_comm.mp hk
  simp [splice, filter_lt_eq_self hl (Int.le_of_eq hk'), filter_gt_eq_nil hl (Int.le_of_eq hk'),
    filter_lt_eq_nil hr (Int.le_of_eq hk), filter_gt_eq_self hr (Int.le_of_eq hk), hk, hk']

end Lists

/-- **An insertion splices the binding in and grows the tree by one level at most.** -/
theorem tInsert_grows (C : Comparator K) (hs : Search C t) (hb : Balanced t) (k : K) (v : V) :
    Grown C k v t (tInsert C.cmp t k v) := by
  induction t with
  | leaf =>
      refine ⟨rfl, ⟨rfl, ?_, ?_, trivial, trivial⟩, ?_, ?_⟩ <;> simp [tInsert, depth]
  | node k2 v2 l r h ihl ihr =>
      obtain ⟨hl, hr, sl, sr⟩ := hs
      obtain ⟨hh, h₁, h₂, bl, br⟩ := hb
      rw [tInsert]
      by_cases hz : C.cmp k k2 = 0
      · rw [if_pos hz]
        exact ⟨(splice_here hl hr hz).symm, ⟨hh, h₁, h₂, bl, br⟩, Int.le_refl _,
          by rw [depth, depth]; omega⟩
      · rw [if_neg hz]
        by_cases hlt : C.cmp k k2 < 0
        · rw [if_pos hlt]
          have g := ihl sl bl
          have glo := g.le_depth
          have ghi := g.depth_le
          have b : Rebalanced k2 v2 (tInsert C.cmp l k v) r _ :=
            tBalance_rebalances g.balanced br (by omega) (by omega)
          have blo := b.le_depth
          have bhi := b.depth_le
          have beq := b.depth_eq
          refine ⟨?_, b.balanced, ?_, ?_⟩
          · rw [b.bindings, g.bindings, bindings_node, splice_left hr hlt]
          · rw [depth]; omega
          · rw [depth]; omega
        · rw [if_neg hlt]
          have hgt : C.cmp k2 k < 0 := (C.swap k2 k).mpr (by omega)
          have g := ihr sr br
          have glo := g.le_depth
          have ghi := g.depth_le
          have b : Rebalanced k2 v2 l (tInsert C.cmp r k v) _ :=
            tBalance_rebalances bl g.balanced (by omega) (by omega)
          have blo := b.le_depth
          have bhi := b.depth_le
          have beq := b.depth_eq
          refine ⟨?_, b.balanced, ?_, ?_⟩
          · rw [b.bindings, g.bindings, bindings_node, splice_right hl hgt]
          · rw [depth]; omega
          · rw [depth]; omega

/-! ### Removal -/

/-- The bindings of a list that are not for the key `k`. -/
def without (C : Comparator K) (k : K) (l : List (K × V)) : List (K × V) :=
  l.filter (fun p => C.cmp k p.1 ≠ 0)

/-- A tree made from a balanced one by a removal below it. -/
structure Shrunk (C : Comparator K) (k : K) (t t' : Tree K V) : Prop where
  bindings : bindings t' = without C k (Tree.bindings t)
  balanced : Balanced t'
  le_depth : depth t - 1 ≤ depth t'
  depth_le : depth t' ≤ depth t

theorem without_eq_self_of_lt {k2 : K} {l : List (K × V)} (h : ∀ p ∈ l, C.cmp p.1 k2 < 0)
    (hk : C.cmp k2 k ≤ 0) : without C k l = l := by
  refine List.filter_eq_self.mpr ?_
  intro p hp
  have h₁ := C.lt_of_lt_of_le (h p hp) hk
  have h₂ := (C.swap p.1 k).mp h₁
  exact decide_eq_true (by omega)

theorem without_eq_self_of_gt {k2 : K} {r : List (K × V)} (h : ∀ p ∈ r, C.cmp k2 p.1 < 0)
    (hk : C.cmp k k2 ≤ 0) : without C k r = r := by
  refine List.filter_eq_self.mpr ?_
  intro p hp
  have h₁ := C.lt_of_le_of_lt hk (h p hp)
  exact decide_eq_true (by omega)

theorem without_node {k2 : K} {l r : List (K × V)} :
    without C k (l ++ (k2, v2) :: r) =
      without C k l ++ (if C.cmp k k2 = 0 then without C k r
        else (k2, v2) :: without C k r) := by
  by_cases h : C.cmp k k2 = 0 <;> simp [without, h]

/-- The leftmost binding is the first one of the list. -/
theorem tMin_eq (t : Tree K V) : tMin t = (bindings t).head? := by
  induction t with
  | leaf => rfl
  | node k v l r h ihl _ =>
      cases l with
      | leaf => rfl
      | node lk lv ll lr lh =>
          rw [tMin, ihl]
          simp only [bindings_node]
          cases bindings ll <;> rfl

theorem bindings_ne_nil (h : tIsLeaf t = false) : bindings t ≠ [] := by
  cases t with
  | leaf => cases h
  | node k v l r n => simp

/-- The two subtrees of a removed root, joined.  `removeR` is the removal from the right one. -/
theorem tDeleteRoot_joins {removeR : K → Tree K V} (bl : Balanced l) (br : Balanced r)
    (sr : Search C r) (h₁ : depth l ≤ depth r + 1) (h₂ : depth r ≤ depth l + 1)
    (hrem : ∀ k, Shrunk C k r (removeR k)) :
    bindings (tDeleteRoot removeR l r) = bindings l ++ bindings r ∧
      Balanced (tDeleteRoot removeR l r) ∧
      max (depth l) (depth r) ≤ depth (tDeleteRoot removeR l r) ∧
      depth (tDeleteRoot removeR l r) ≤ max (depth l) (depth r) + 1 := by
  have hl := depth_nonneg l
  have hr := depth_nonneg r
  cases hll : tIsLeaf l with
  | true =>
      cases l with
      | node => cases hll
      | leaf =>
          rw [tDeleteRoot, if_pos (show tIsLeaf leaf = true from rfl)]
          exact ⟨rfl, br, by rw [depth]; omega, by omega⟩
  | false =>
      cases hrl : tIsLeaf r with
      | true =>
          cases r with
          | node => cases hrl
          | leaf =>
              rw [tDeleteRoot, hll, if_neg (by decide), if_pos (show tIsLeaf leaf = true from rfl)]
              exact ⟨by simp, bl, by rw [depth]; omega, by omega⟩
      | false =>
          obtain ⟨succ, rest, hrest⟩ := List.exists_cons_of_ne_nil (bindings_ne_nil hrl)
          have hmin : tMin r = some succ := by rw [tMin_eq, hrest]; rfl
          rw [tDeleteRoot, hll, hrl, if_neg (by decide), if_neg (by decide), hmin]
          dsimp only
          have s := hrem succ.1
          have slo := s.le_depth
          have shi := s.depth_le
          have b : Rebalanced succ.1 succ.2 l (removeR succ.1) _ :=
            tBalance_rebalances bl s.balanced (by omega) (by omega)
          have blo := b.le_depth
          have bhi := b.depth_le
          refine ⟨?_, b.balanced, ?_, ?_⟩
          · -- The removed key is the first of the right subtree, and only there.
            have hasc := search_iff.mp sr
            rw [hrest, Comparator.ascending_cons] at hasc
            have hkeep : without C succ.1 (bindings r) = rest := by
              rw [hrest, ← List.nil_append (succ :: rest)]
              rw [show succ = (succ.1, succ.2) from rfl, without_node, if_pos (C.refl succ.1)]
              exact without_eq_self_of_gt hasc.1 (Int.le_of_eq (C.refl succ.1))
            rw [b.bindings, s.bindings, hkeep, hrest]
          · have := b.depth_eq
            omega
          · omega

/-- **A removal drops the key and lowers the tree by one level at most.** -/
theorem tRemove_shrinks (C : Comparator K) (hs : Search C t) (hb : Balanced t) (k : K) :
    Shrunk C k t (tRemove C.cmp t k) := by
  induction t generalizing k with
  | leaf => exact ⟨rfl, trivial, by rw [tRemove]; omega, by rw [tRemove]⟩
  | node k2 v2 l r h ihl ihr =>
      obtain ⟨hl, hr, sl, sr⟩ := hs
      obtain ⟨hh, h₁, h₂, bl, br⟩ := hb
      rw [tRemove]
      by_cases hlt : C.cmp k k2 < 0
      · rw [if_pos hlt]
        have s := ihl sl bl k
        have slo := s.le_depth
        have shi := s.depth_le
        have b : Rebalanced k2 v2 (tRemove C.cmp l k) r _ :=
          tBalance_rebalances s.balanced br (by omega) (by omega)
        have blo := b.le_depth
        have bhi := b.depth_le
        have beq := b.depth_eq
        refine ⟨?_, b.balanced, ?_, ?_⟩
        · rw [b.bindings, s.bindings, bindings_node, without_node, if_neg (by omega),
            without_eq_self_of_gt hr (Int.le_of_lt hlt)]
        · rw [depth]; omega
        · rw [depth]; omega
      · rw [if_neg hlt]
        by_cases hgt : C.cmp k k2 > 0
        · rw [if_pos hgt]
          have s := ihr sr br k
          have slo := s.le_depth
          have shi := s.depth_le
          have b : Rebalanced k2 v2 l (tRemove C.cmp r k) _ :=
            tBalance_rebalances bl s.balanced (by omega) (by omega)
          have blo := b.le_depth
          have bhi := b.depth_le
          have beq := b.depth_eq
          refine ⟨?_, b.balanced, ?_, ?_⟩
          · rw [b.bindings, s.bindings, bindings_node, without_node, if_neg (by omega),
              without_eq_self_of_lt hl (C.le_swap.mpr (by omega))]
          · rw [depth]; omega
          · rw [depth]; omega
        · rw [if_neg hgt]
          have hz : C.cmp k k2 = 0 := by omega
          have hz' := C.zero_comm.mp hz
          rw [show (fun k' => tRemove C.cmp r k') = tRemove C.cmp r from rfl]
          obtain ⟨hbind, hbal, hlo, hhi⟩ :=
            tDeleteRoot_joins bl br sr h₁ h₂ (fun k' => ihr sr br k')
          refine ⟨?_, hbal, ?_, ?_⟩
          · rw [hbind, bindings_node, without_node, if_pos hz,
              without_eq_self_of_lt hl (Int.le_of_eq hz'),
              without_eq_self_of_gt hr (Int.le_of_eq hz)]
          · rw [depth]; omega
          · rw [depth]; omega

/-! ### Walks -/

theorem tInOrder_eq (t : Tree K V) (acc : List (K × V)) : tInOrder t acc = bindings t ++ acc := by
  induction t generalizing acc with
  | leaf => rfl
  | node k v l r h ihl ihr => simp [tInOrder, ihl, ihr]

theorem tFold_eq (f : A → K → V → A) (t : Tree K V) (acc : A) :
    tFold f t acc = (bindings t).foldl (fun a p => f a p.1 p.2) acc := by
  induction t generalizing acc with
  | leaf => rfl
  | node k v l r h ihl ihr => simp [tFold, ihl, ihr]

theorem tSize_eq (t : Tree K V) (acc : Int) : tSize t acc = (bindings t).length + acc := by
  induction t generalizing acc with
  | leaf => simp [tSize]
  | node k v l r h ihl ihr =>
      simp only [tSize, ihl, ihr, bindings_node, List.length_append, List.length_cons]
      omega

/-- **A search finds the binding of its key and nothing else.** -/
theorem tGet_finds (C : Comparator K) (hs : Search C t) (k : K) :
    Bindings.Finds C {p | p ∈ bindings t} k (tGet C.cmp t k) := by
  intro v
  induction t with
  | leaf => simp [tGet]
  | node k2 v2 l r h ihl ihr =>
      obtain ⟨hl, hr, sl, sr⟩ := hs
      -- A key on one side of the node is not the key of anything on the other.
      have hleft : C.cmp k k2 ≥ 0 → ∀ p ∈ bindings l, C.cmp k p.1 ≠ 0 := by
        intro hk p hp hz
        have h₁ := C.lt_of_lt_of_le (hl p hp) (C.le_swap.mpr hk)
        have h₂ := C.zero_comm.mp hz
        omega
      have hright : C.cmp k k2 ≤ 0 → ∀ p ∈ bindings r, C.cmp k p.1 ≠ 0 := by
        intro hk p hp hz
        have := C.lt_of_le_of_lt hk (hr p hp)
        omega
      rw [tGet]
      simp only [bindings_node, List.mem_append, List.mem_cons]
      by_cases hz : C.cmp k k2 = 0
      · rw [if_pos hz]
        constructor
        · intro hv
          exact ⟨(k2, v2), Or.inr (Or.inl rfl), hz, Option.some.inj hv⟩
        · rintro ⟨p, hp | rfl | hp, hpz, rfl⟩
          · exact absurd hpz (hleft (by omega) p hp)
          · rfl
          · exact absurd hpz (hright (by omega) p hp)
      · rw [if_neg hz]
        by_cases hlt : C.cmp k k2 < 0
        · rw [if_pos hlt, ihl sl]
          constructor
          · rintro ⟨p, hp, hpz, hpv⟩
            exact ⟨p, Or.inl hp, hpz, hpv⟩
          · rintro ⟨p, hp | rfl | hp, hpz, hpv⟩
            · exact ⟨p, hp, hpz, hpv⟩
            · exact absurd hpz hz
            · exact absurd hpz (hright (by omega) p hp)
        · rw [if_neg hlt, ihr sr]
          constructor
          · rintro ⟨p, hp, hpz, hpv⟩
            exact ⟨p, Or.inr (Or.inr hp), hpz, hpv⟩
          · rintro ⟨p, hp | rfl | hp, hpz, hpv⟩
            · exact absurd hpz (hleft (by omega) p hp)
            · exact absurd hpz hz
            · exact ⟨p, hp, hpz, hpv⟩

/-! ### Building from a list -/

/-- The height of a tree that is built from `n` bindings: the number of binary digits of `n`. -/
theorem size_step {n : Nat} :
    max (Nat.size (n / 2)) (Nat.size (n - n / 2)) + 1 = Nat.size (n + 1) ∧
      Nat.size (n / 2) ≤ Nat.size (n - n / 2) ∧
      Nat.size (n - n / 2) ≤ Nat.size (n / 2) + 1 := by
  have hmono : Nat.size (n / 2) ≤ Nat.size (n - n / 2) := Nat.size_le_size (by omega)
  have hhalf : Nat.size (n + 1) = Nat.size ((n + 1) / 2) + 1 := by
    obtain ⟨b, hb⟩ : ∃ b, n + 1 = Nat.bit b ((n + 1) / 2) := by
      rcases Nat.mod_two_eq_zero_or_one (n + 1) with h | h
      · exact ⟨false, by simp only [Nat.bit, cond_false]; omega⟩
      · exact ⟨true, by simp only [Nat.bit, cond_true]; omega⟩
    have hne : Nat.bit b ((n + 1) / 2) ≠ 0 := by omega
    conv_lhs => rw [hb, Nat.size_bit hne]
  have hsub : n - n / 2 = (n + 1) / 2 := by omega
  refine ⟨?_, hmono, ?_⟩
  · rw [hhalf, ← hsub]
    omega
  · refine Nat.size_le.mpr ?_
    have := Nat.lt_size_self (n / 2)
    rw [Nat.pow_succ]
    omega

/-- What `t_build_go` makes of a list that is long enough. -/
theorem tBuildGo_eq (d n : Nat) (s : List (K × V)) (hd : n ≤ d) (hn : n ≤ s.length) :
    bindings (tBuildGo d s n).1 = s.take n ∧ (tBuildGo d s n).2 = s.drop n ∧
      Balanced (tBuildGo d s n).1 ∧ depth (tBuildGo d s n).1 = Nat.size n := by
  induction d generalizing n s with
  | zero =>
      obtain rfl : n = 0 := by omega
      simp [tBuildGo, Balanced, depth]
  | succ d ih =>
      cases n with
      | zero => simp [tBuildGo, Balanced, depth]
      | succ n =>
          obtain ⟨hb₁, hr₁, hbal₁, hd₁⟩ := ih (n / 2) s (by omega) (by omega)
          obtain ⟨p, s2, hs2⟩ : ∃ p s2, s.drop (n / 2) = p :: s2 :=
            List.exists_cons_of_ne_nil (by
              intro h
              have := congrArg List.length h
              simp at this
              omega)
          have hlen : s2.length + 1 = s.length - n / 2 := by
            have := congrArg List.length hs2
            simpa using this.symm
          obtain ⟨hb₂, hr₂, hbal₂, hd₂⟩ := ih (n - n / 2) s2 (by omega) (by omega)
          have heq : tBuildGo (d + 1) s (n + 1) =
              (tNode p.1 p.2 (tBuildGo d s (n / 2)).1 (tBuildGo d s2 (n - n / 2)).1,
                (tBuildGo d s2 (n - n / 2)).2) := by
            rw [tBuildGo]
            have hpair : tBuildGo d s (n / 2) = ((tBuildGo d s (n / 2)).1, p :: s2) := by
              rw [← hs2, ← hr₁]
            rw [hpair]
          obtain ⟨hsize, hle, hge⟩ := @size_step n
          rw [heq]
          have hcut : s = s.take (n / 2) ++ p :: s2 := by rw [← hs2, List.take_append_drop]
          refine ⟨?_, ?_, balanced_tNode hbal₁ hbal₂ ?_ ?_, ?_⟩
          · rw [bindings_tNode, hb₁, hb₂]
            have hn1 : n + 1 = n / 2 + ((n - n / 2) + 1) := by omega
            conv_rhs => rw [hn1, List.take_add, hs2]
            simp
          · have hn1 : n + 1 = n / 2 + ((n - n / 2) + 1) := by omega
            rw [hr₂, hn1, ← List.drop_drop, hs2]
            simp
          · rw [hd₁, hd₂]; omega
          · rw [hd₁, hd₂]; omega
          · rw [depth_tNode, hd₁, hd₂]; omega

theorem tBuild_eq (s : List (K × V)) :
    bindings (tBuild s s.length) = s ∧ Balanced (tBuild s s.length) := by
  obtain ⟨hb, -, hbal, -⟩ := tBuildGo_eq s.length s.length s (Nat.le_refl _) (Nat.le_refl _)
  rw [List.take_length] at hb
  exact ⟨hb, hbal⟩

theorem mem_sdIns {p q : K × V} {s : List (K × V)} (hs : C.Ascending s) :
    q ∈ sdIns C.cmp p s ↔ q ∈ s ∨ q = p ∧ ∀ r ∈ s, C.cmp p.1 r.1 ≠ 0 := by
  induction s with
  | nil => simp [sdIns]
  | cons r s ih =>
      rw [Comparator.ascending_cons] at hs
      rw [sdIns]
      by_cases hz : C.cmp p.1 r.1 = 0
      · simp [hz]
      · rw [if_neg hz]
        by_cases hlt : C.cmp p.1 r.1 < 0
        · have hno : ∀ x ∈ s, C.cmp p.1 x.1 ≠ 0 := by
            intro x hx
            have := C.lt_trans hlt (hs.1 x hx)
            omega
          rw [if_pos hlt]
          simp only [List.mem_cons, forall_eq_or_imp]
          constructor
          · rintro (rfl | h)
            · exact Or.inr ⟨rfl, hz, hno⟩
            · exact Or.inl h
          · rintro (h | ⟨rfl, -⟩)
            · exact Or.inr h
            · exact Or.inl rfl
        · rw [if_neg hlt]
          simp only [List.mem_cons, forall_eq_or_imp, ih hs.2]
          constructor
          · rintro (h | h | ⟨rfl, h⟩)
            · exact Or.inl (Or.inl h)
            · exact Or.inl (Or.inr h)
            · exact Or.inr ⟨rfl, hz, h⟩
          · rintro ((h | h) | ⟨rfl, -, h⟩)
            · exact Or.inl h
            · exact Or.inr (Or.inl h)
            · exact Or.inr (Or.inr ⟨rfl, h⟩)

theorem sdIns_ascending {p : K × V} {s : List (K × V)} (hs : C.Ascending s) :
    C.Ascending (sdIns C.cmp p s) := by
  induction s with
  | nil => simp [sdIns]
  | cons r s ih =>
      have hrs := hs
      rw [Comparator.ascending_cons] at hs
      rw [sdIns]
      by_cases hz : C.cmp p.1 r.1 = 0
      · simpa [hz] using hs
      · rw [if_neg hz]
        by_cases hlt : C.cmp p.1 r.1 < 0
        · rw [if_pos hlt, Comparator.ascending_cons]
          refine ⟨?_, hrs⟩
          intro q hq
          rcases List.mem_cons.mp hq with rfl | hq
          · exact hlt
          · exact C.lt_trans hlt (hs.1 q hq)
        · rw [if_neg hlt, Comparator.ascending_cons]
          refine ⟨?_, ih hs.2⟩
          intro q hq
          rcases (mem_sdIns hs.2).mp hq with hq | ⟨rfl, -⟩
          · exact hs.1 q hq
          · exact (C.swap _ _).mpr (by omega)

end TinyActor.Stdlib.Tree
