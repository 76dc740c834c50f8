/-
A message arrives as it was sent.

A value is known by the tree it unfolds to: `Reads P mem v t` says that `v` in memory
`mem` unfolds to `t`, and that every object met on the way has an address in `P`.  The
loops are followed by one statement each about a value task on top of the stack: after
some turns the task is gone, one result is on the other stack, and the result unfolds
to the same tree in the new memory, where nothing below the place of the copy has
changed.  The sizes that are computed beforehand are sums over the same tree.
-/
import Mathlib.Tactic.Ring
import TinyActor.Runtime.Message

namespace TinyActor.Runtime.Message

open TinyActor.Lib (Reaches int32 int32_add int32_int32 int32_of_range)
open TinyActor.Runtime (taHeapObjectSize)
open TinyActor.Runtime.Gc (Val Obj Tag)

/-! ### Trees -/

/-- What a value is, whatever memory it lives in. -/
inductive Tree
  | imm (w : Nat)
  | pair (car cdr : Tree)
  | clos (entry : Nat) (free : List Tree)
  | string (data : List UInt8)
  | bytes (data : List UInt8)
  | resource (ownerPid : Nat) (res : Option Nat)

namespace Tree

mutual

/-- The bytes of the objects of a tree, each rounded up. -/
def size (round : Int → Int) : Tree → Int
  | imm _ => 0
  | pair car cdr => round 24 + (car.size round + cdr.size round)
  | clos _ free => round (16 + 8 * free.length) + sizeAll round free
  | string data => round (8 + data.length + 1)
  | bytes data => round (8 + data.length)
  | resource _ _ => round 16

def sizeAll (round : Int → Int) : List Tree → Int
  | [] => 0
  | t :: ts => t.size round + sizeAll round ts

end

mutual

def hasRes : Tree → Bool
  | pair car cdr => car.hasRes || cdr.hasRes
  | clos _ free => hasResAny free
  | resource _ _ => true
  | _ => false

def hasResAny : List Tree → Bool
  | [] => false
  | t :: ts => t.hasRes || hasResAny ts

end

end Tree

mutual

/-- A word unfolds to a tree, through objects at addresses in `P`. -/
inductive Reads (P : Nat → Prop) (mem : Memory) : Val → Tree → Prop
  | imm (w : Nat) : Reads P mem (.imm w) (.imm w)
  | pair {a : Nat} {x y : Val} {tx ty : Tree} (hp : P a) (hm : mem a = some (.pair x y))
      (hx : Reads P mem x tx) (hy : Reads P mem y ty) : Reads P mem (.ptr .pair a) (.pair tx ty)
  | clos {a entry : Nat} {free : List Val} {ts : List Tree} (hp : P a)
      (hm : mem a = some (.clos entry free)) (hf : ReadsAll P mem free ts) :
      Reads P mem (.ptr .clos a) (.clos entry ts)
  | string {a : Nat} {data : List UInt8} (hp : P a) (hm : mem a = some (.string data)) :
      Reads P mem (.ptr .string a) (.string data)
  | bytes {a : Nat} {data : List UInt8} (hp : P a) (hm : mem a = some (.bytes data)) :
      Reads P mem (.ptr .bytes a) (.bytes data)
  | resource {a ownerPid : Nat} {res : Option Nat} (hp : P a)
      (hm : mem a = some (.resource ownerPid res)) :
      Reads P mem (.ptr .resource a) (.resource ownerPid res)

inductive ReadsAll (P : Nat → Prop) (mem : Memory) : List Val → List Tree → Prop
  | nil : ReadsAll P mem [] []
  | cons {v : Val} {vs : List Val} {t : Tree} {ts : List Tree} (hv : Reads P mem v t)
      (hvs : ReadsAll P mem vs ts) : ReadsAll P mem (v :: vs) (t :: ts)

end

variable {P Q : Nat → Prop} {mem mem' : Memory}

mutual

/-- What is read through some addresses does not depend on the others. -/
theorem Reads.congr (hpq : ∀ a, P a → Q a) (hm : ∀ a, P a → mem' a = mem a) :
    ∀ {v : Val} {t : Tree}, Reads P mem v t → Reads Q mem' v t
  | _, _, .imm w => .imm w
  | _, _, .pair hp h hx hy =>
      .pair (hpq _ hp) ((hm _ hp).trans h) (hx.congr hpq hm) (hy.congr hpq hm)
  | _, _, .clos hp h hf => .clos (hpq _ hp) ((hm _ hp).trans h) (hf.congr hpq hm)
  | _, _, .string hp h => .string (hpq _ hp) ((hm _ hp).trans h)
  | _, _, .bytes hp h => .bytes (hpq _ hp) ((hm _ hp).trans h)
  | _, _, .resource hp h => .resource (hpq _ hp) ((hm _ hp).trans h)

theorem ReadsAll.congr (hpq : ∀ a, P a → Q a) (hm : ∀ a, P a → mem' a = mem a) :
    ∀ {vs : List Val} {ts : List Tree}, ReadsAll P mem vs ts → ReadsAll Q mem' vs ts
  | _, _, .nil => .nil
  | _, _, .cons hv hvs => .cons (hv.congr hpq hm) (hvs.congr hpq hm)

end

theorem ReadsAll.length_eq : ∀ {vs : List Val} {ts : List Tree}, ReadsAll P mem vs ts →
    vs.length = ts.length
  | _, _, .nil => rfl
  | _, _, .cons _ hvs => congrArg (· + 1) hvs.length_eq

/-! ### Sizes -/

theorem deref_eq {tag : Tag} {a : Nat} {o : Obj} (hm : mem a = some o) (ht : tagOf o = tag) :
    deref mem tag a = some o := by
  simp only [deref, hm, ht, if_true]

variable {round : Int → Int}

theorem sizeStep_ptr {tag : Tag} {a : Nat} {o : Obj} (hm : mem a = some o) (ht : tagOf o = tag)
    (rest : List Val) (total : Int) (r : Bool) :
    sizeStep round mem ⟨.ptr tag a :: rest, total, r⟩ =
      some ⟨o.vals ++ rest, int32 (total + round (objBytes o)), r || isResource o⟩ := by
  simp only [sizeStep, deref_eq hm ht, Option.map_some]

mutual

/-- **The size loop over a value adds the size of its tree.** -/
theorem Reads.sizeStep : ∀ {v : Val} {t : Tree}, Reads P mem v t →
    ∀ (rest : List Val) (total : Int) (r : Bool), int32 total = total →
      ∃ n, Reaches (sizeStep round mem) n ⟨v :: rest, total, r⟩
        ⟨rest, int32 (total + t.size round), r || t.hasRes⟩
  | _, _, .imm w, rest, total, r, ht => by
      refine ⟨1, .single ?_⟩
      simp only [Message.sizeStep, Tree.size, Tree.hasRes, Int.add_zero, ht, Bool.or_false]
  | _, _, @Reads.pair _ _ _ _ y _ _ _ hm hx hy, rest, total, r, _ => by
      obtain ⟨n, hn⟩ := hx.sizeStep (y :: rest) _ r (int32_int32 (total + round 24))
      obtain ⟨m, hm'⟩ := hy.sizeStep rest _ _ (int32_int32 _)
      have h := hn.trans hm'
      simp only [int32_add, Bool.or_assoc, Int.add_assoc] at h
      have hs := @sizeStep_ptr _ round _ _ _ hm rfl rest total r
      simp only [isResource, Bool.or_false] at hs
      exact ⟨_, .head hs h⟩
  | _, _, @Reads.clos _ _ _ _ free _ _ hm hf, rest, total, r, _ => by
      obtain ⟨n, hn⟩ := hf.sizeStep rest _ r (int32_int32 (total + round (16 + 8 * free.length)))
      simp only [int32_add, Int.add_assoc, hf.length_eq] at hn
      have hs := @sizeStep_ptr _ round _ _ _ hm rfl rest total r
      simp only [isResource, Bool.or_false, objBytes, hf.length_eq] at hs
      exact ⟨_, .head hs hn⟩
  | _, _, .string _ hm, rest, total, r, _ => ⟨_, .single (sizeStep_ptr hm rfl rest total r)⟩
  | _, _, .bytes _ hm, rest, total, r, _ => ⟨_, .single (sizeStep_ptr hm rfl rest total r)⟩
  | _, _, .resource _ hm, rest, total, r, _ => ⟨_, .single (sizeStep_ptr hm rfl rest total r)⟩

theorem ReadsAll.sizeStep : ∀ {vs : List Val} {ts : List Tree}, ReadsAll P mem vs ts →
    ∀ (rest : List Val) (total : Int) (r : Bool), int32 total = total →
      ∃ n, Reaches (Message.sizeStep round mem) n ⟨vs ++ rest, total, r⟩
        ⟨rest, int32 (total + Tree.sizeAll round ts), r || Tree.hasResAny ts⟩
  | _, _, .nil, rest, total, r, ht => by
      refine ⟨0, ?_⟩
      simp only [Tree.sizeAll, Tree.hasResAny, Int.add_zero, ht, Bool.or_false]
      exact .refl _
  | _, _, .cons hv hvs, rest, total, r, ht => by
      obtain ⟨n, hn⟩ := hv.sizeStep (_ ++ rest) total r ht
      obtain ⟨m, hm⟩ := hvs.sizeStep rest _ _ (int32_int32 _)
      have h := hn.trans hm
      simp only [int32_add, Bool.or_assoc, Int.add_assoc] at h
      exact ⟨_, h⟩

end

/-! ### Places -/

/-- The addresses of one stretch of memory. -/
def between (lo hi : Int) (a : Nat) : Prop := lo ≤ a ∧ (a : Int) < hi

/-- Nothing below a place has changed. -/
def Keeps (top : Int) (mem mem' : Memory) : Prop := ∀ a : Nat, (a : Int) < top → mem' a = mem a

theorem Keeps.trans {lo hi : Int} {mem'' : Memory} (h : Keeps lo mem mem')
    (h' : Keeps hi mem' mem'') (hle : lo ≤ hi) : Keeps lo mem mem'' :=
  fun a ha => (h' a (by omega)).trans (h a ha)

theorem Keeps.update {top : Int} {dst : Nat} {o : Option Obj} (h : Keeps top mem mem')
    (hd : top ≤ dst) : Keeps top mem (Function.update mem' dst o) := by
  intro a ha
  rw [Function.update_of_ne (by omega)]
  exact h a ha

theorem Keeps.refl (top : Int) (mem : Memory) : Keeps top mem mem := fun _ _ => rfl

variable {lo hi lo' hi' : Int}

variable {src : Memory} {t : Tree} {v : Val} {entry : Nat}

theorem Reads.widen (h : Reads (between lo hi) mem v t) (hlo : lo' ≤ lo) (hhi : hi ≤ hi')
    (hk : ∀ a, between lo hi a → mem' a = mem a) : Reads (between lo' hi') mem' v t :=
  h.congr (fun _ ha => ⟨le_trans hlo ha.1, lt_of_lt_of_le ha.2 hhi⟩) hk

theorem ReadsAll.widen {vs : List Val} {ts : List Tree} (h : ReadsAll (between lo hi) mem vs ts)
    (hlo : lo' ≤ lo) (hhi : hi ≤ hi') (hk : ∀ a, between lo hi a → mem' a = mem a) :
    ReadsAll (between lo' hi') mem' vs ts :=
  h.congr (fun _ ha => ⟨le_trans hlo ha.1, lt_of_lt_of_le ha.2 hhi⟩) hk

theorem fragAlign8_ge (x : Int) : x ≤ fragAlign8 x := by
  unfold fragAlign8
  omega

theorem fragAlign8_add (x y : Int) : fragAlign8 (fragAlign8 x + y) = fragAlign8 x + fragAlign8 y := by
  unfold fragAlign8
  omega

theorem objBytes_pos (o : Obj) : 0 < objBytes o := by
  cases o <;> simp only [objBytes] <;> omega

mutual

theorem Tree.size_nonneg (hround : ∀ x, 0 ≤ x → 0 ≤ round x) : ∀ t : Tree, 0 ≤ t.size round
  | .imm _ => le_refl 0
  | .pair car cdr => by
      have hx := Tree.size_nonneg hround car
      have hy := Tree.size_nonneg hround cdr
      have h := hround 24 (by omega)
      rw [Tree.size]
      omega
  | .clos _ free => by
      have hf := Tree.sizeAll_nonneg hround free
      have h := hround (16 + 8 * free.length) (by omega)
      rw [Tree.size]
      omega
  | .string data => hround _ (by omega)
  | .bytes data => hround _ (by omega)
  | .resource _ _ => hround 16 (by omega)

theorem Tree.sizeAll_nonneg (hround : ∀ x, 0 ≤ x → 0 ≤ round x) :
    ∀ ts : List Tree, 0 ≤ Tree.sizeAll round ts
  | [] => le_refl 0
  | t :: ts => Int.add_nonneg (Tree.size_nonneg hround t) (Tree.sizeAll_nonneg hround ts)

end

variable {round' : Int → Int} {c d : Int}

mutual

/-- Two ways to round compare on trees as they do on objects, none of which is shorter than its
header. -/
theorem Tree.size_le (hr : ∀ x, 8 ≤ x → c * round x ≤ d * round' x) :
    ∀ t : Tree, c * t.size round ≤ d * t.size round'
  | .imm _ => le_of_eq ((mul_zero c).trans (mul_zero d).symm)
  | .pair car cdr => by
      simp only [Tree.size, mul_add]
      exact add_le_add (hr 24 (by omega)) (add_le_add (car.size_le hr) (cdr.size_le hr))
  | .clos _ free => by
      simp only [Tree.size, mul_add]
      exact add_le_add (hr _ (by omega)) (Tree.sizeAll_le hr free)
  | .string _ => hr _ (by omega)
  | .bytes _ => hr _ (by omega)
  | .resource _ _ => hr 16 (by omega)

theorem Tree.sizeAll_le (hr : ∀ x, 8 ≤ x → c * round x ≤ d * round' x) :
    ∀ ts : List Tree, c * Tree.sizeAll round ts ≤ d * Tree.sizeAll round' ts
  | [] => le_of_eq ((mul_zero c).trans (mul_zero d).symm)
  | t :: ts => by
      simp only [Tree.sizeAll, mul_add]
      exact add_le_add (t.size_le hr) (Tree.sizeAll_le hr ts)

end

/-! ### The copy into a fragment -/

theorem fragAlign8_nonneg (x : Int) (h : 0 ≤ x) : 0 ≤ fragAlign8 x :=
  le_trans h (fragAlign8_ge x)

/-- The address behind the last object. -/
def Fragment.top (f : Fragment) : Int := f.data + fragAlign8 f.size

/-- A fragment with `n` more bytes of objects. -/
structure Fragment.Grown (f f' : Fragment) (n : Int) : Prop where
  data : f'.data = f.data
  size_nonneg : 0 ≤ f'.size
  used : fragAlign8 f'.size = fragAlign8 f.size + n
  written : f'.written ≤ f.written + n
  keeps : Keeps f.top f.mem f'.mem

namespace Fragment.Grown

variable {f f' f'' : Fragment} {n m : Int}

theorem top (h : Grown f f' n) : f'.top = f.top + n := by
  rw [Fragment.top, Fragment.top, h.data, h.used, Int.add_assoc]

theorem trans (h : Grown f f' n) (h' : Grown f' f'' m) (hn : 0 ≤ n) : Grown f f'' (n + m) where
  data := h'.data.trans h.data
  size_nonneg := h'.size_nonneg
  used := by rw [h'.used, h.used, Int.add_assoc]
  written := by
    have := h.written
    have := h'.written
    omega
  keeps := h.keeps.trans h'.keeps (by rw [h.top]; omega)

theorem refl (h : 0 ≤ f.size) : Grown f f 0 where
  data := rfl
  size_nonneg := h
  used := (Int.add_zero _).symm
  written := le_of_eq (Int.add_zero _).symm
  keeps := .refl _ _

end Fragment.Grown

/-- An object is placed behind the others, as long as the block is small enough. -/
theorem Fragment.place_grown (f : Fragment) (o : Obj) (h0 : 0 ≤ f.size)
    (h : fragAlign8 f.size + fragAlign8 (objBytes o) < 2 ^ 31) :
    f.Grown (f.place o).1 (fragAlign8 (objBytes o)) ∧ ((f.place o).2 : Int) = f.top ∧
      (f.place o).1.mem (f.place o).2 = some o := by
  have hs := fragAlign8_nonneg f.size h0
  have ho := objBytes_pos o
  have ha := fragAlign8_ge (objBytes o)
  have hstart : int32 (fragAlign8 f.size) = fragAlign8 f.size := int32_of_range (by omega) (by omega)
  have hend : int32 (fragAlign8 f.size + objBytes o) = fragAlign8 f.size + objBytes o :=
    int32_of_range (by omega) (by omega)
  have hdst : (((f.data : Int) + fragAlign8 f.size).toNat : Int) = f.top := by
    rw [Int.toNat_of_nonneg (by omega), Fragment.top]
  simp only [Fragment.place, hstart, hend]
  refine ⟨⟨rfl, by simp only; omega, fragAlign8_add _ _, by simp only; omega, ?_⟩, hdst,
    Function.update_self ..⟩
  exact (Keeps.refl _ _).update (le_of_eq hdst.symm)

/-- What a turn does with an object that has no words in it. -/
theorem fragCopyStep_leaf {tag : Tag} {a : Nat} {o : Obj} (hm : src a = some o)
    (ht : tagOf o = tag) (hp : tag ≠ .pair) (hc : tag ≠ .clos) (f : Fragment)
    (rest : List FragTask) (res : List Val) :
    fragCopyStep src ⟨f, .value (.ptr tag a) :: rest, res⟩ =
      some ⟨(f.place o).1, rest, .ptr tag (f.place o).2 :: res⟩ := by
  cases o with
  | pair => exact absurd ht.symm hp
  | clos => exact absurd ht.symm hc
  | string | bytes | resource => simp only [fragCopyStep, deref_eq hm ht]

theorem fragCopyStep_pair {a : Nat} {x y : Val} (hm : src a = some (.pair x y)) (f : Fragment)
    (rest : List FragTask) (res : List Val) :
    fragCopyStep src ⟨f, .value (.ptr .pair a) :: rest, res⟩ =
      some ⟨f, .value x :: .value y :: .pair :: rest, res⟩ := by
  have hd : deref src .pair a = some (.pair x y) := deref_eq hm rfl
  simp only [fragCopyStep, hd]

theorem fragCopyStep_mkPair (f : Fragment) (x y : Val) (rest : List FragTask) (res : List Val) :
    fragCopyStep src ⟨f, .pair :: rest, y :: x :: res⟩ =
      some ⟨(f.place (.pair x y)).1, rest, .ptr .pair (f.place (.pair x y)).2 :: res⟩ := rfl

theorem fragCopyStep_clos {a : Nat} {free : List Val} (hm : src a = some (.clos entry free))
    (f : Fragment) (rest : List FragTask) (res : List Val) :
    fragCopyStep src ⟨f, .value (.ptr .clos a) :: rest, res⟩ =
      let p := f.place (.clos entry (List.replicate free.length (.imm 0)))
      some ⟨p.1, free.map .value ++ .closure p.2 :: rest, res⟩ := by
  have hd : deref src .clos a = some (.clos entry free) := deref_eq hm rfl
  simp only [fragCopyStep, hd]

/-- The words of a closure are on top of the results, the last one first. -/
theorem popped {old vs : List Val} (hl : old.length = vs.length) (res : List Val) :
    old.length ≤ (vs.reverse ++ res).length ∧
      (vs.reverse ++ res).take old.length = vs.reverse ∧
      (vs.reverse ++ res).drop old.length = res := by
  have hr : vs.reverse.length = old.length := by rw [hl, List.length_reverse]
  refine ⟨?_, List.take_left' hr, List.drop_left' hr⟩
  rw [List.length_append, hr]
  omega

theorem fragCopyStep_closure {f : Fragment} {dst : Nat} {old vs : List Val}
    (hm : f.mem dst = some (.clos entry old)) (hl : old.length = vs.length) (rest : List FragTask)
    (res : List Val) :
    fragCopyStep src ⟨f, .closure dst :: rest, vs.reverse ++ res⟩ =
      some ⟨{ f with mem := Function.update f.mem dst (some (.clos entry vs)) }, rest,
        .ptr .clos dst :: res⟩ := by
  obtain ⟨hle, htake, hdrop⟩ := popped hl res
  simp only [fragCopyStep, hm, if_pos hle, htake, hdrop, List.reverse_reverse]

/-- An object without words is placed and can be read there. -/
theorem fragCopy_leaf {tag : Tag} {a : Nat} {o : Obj} (hm : src a = some o) (ht : tagOf o = tag)
    (hp : tag ≠ .pair) (hc : tag ≠ .clos) (hsize : t.size fragAlign8 = fragAlign8 (objBytes o))
    (hread : ∀ {P : Nat → Prop} {mem : Memory} {a : Nat}, P a → mem a = some o → Reads P mem (.ptr tag a) t)
    (f : Fragment) (rest : List FragTask) (res : List Val) (h0 : 0 ≤ f.size)
    (hlt : fragAlign8 f.size + t.size fragAlign8 < 2 ^ 31) :
    ∃ n f' r, Reaches (fragCopyStep src) n ⟨f, .value (.ptr tag a) :: rest, res⟩
        ⟨f', rest, r :: res⟩ ∧
      f.Grown f' (t.size fragAlign8) ∧ Reads (between f.top f'.top) f'.mem r t := by
  rw [hsize] at hlt ⊢
  obtain ⟨hg, hdst, hmem⟩ := f.place_grown o h0 hlt
  refine ⟨1, _, _, .single (fragCopyStep_leaf hm ht hp hc f rest res), hg, hread ?_ hmem⟩
  have hpos := objBytes_pos o
  have hge := fragAlign8_ge (objBytes o)
  rw [between, hg.top, hdst]
  omega

theorem Tree.size_frag_nonneg (t : Tree) : 0 ≤ t.size fragAlign8 :=
  t.size_nonneg fragAlign8_nonneg

mutual

/-- **A value task copies the tree of its value behind what is there.** -/
theorem Reads.fragCopy : ∀ {v : Val} {t : Tree}, Reads P src v t →
    ∀ (f : Fragment) (rest : List FragTask) (res : List Val), 0 ≤ f.size →
      fragAlign8 f.size + t.size fragAlign8 < 2 ^ 31 →
      ∃ n f' r, Reaches (fragCopyStep src) n ⟨f, .value v :: rest, res⟩ ⟨f', rest, r :: res⟩ ∧
        f.Grown f' (t.size fragAlign8) ∧ Reads (between f.top f'.top) f'.mem r t
  | _, _, .imm w, f, rest, res, h0, _ => ⟨1, f, .imm w, .single rfl, .refl h0, .imm w⟩
  | _, _, @Reads.pair _ _ _ x y tx ty _ hm hx hy, f, rest, res, h0, hlt => by
      have hsx := tx.size_frag_nonneg
      have hsy := ty.size_frag_nonneg
      have h24 : fragAlign8 24 = 24 := by decide
      rw [Tree.size, h24] at hlt ⊢
      obtain ⟨n, f₁, x', hr₁, hg₁, hx'⟩ :=
        hx.fragCopy f (.value y :: .pair :: rest) res h0 (by omega)
      obtain ⟨m, f₂, y', hr₂, hg₂, hy'⟩ :=
        hy.fragCopy f₁ (.pair :: rest) (x' :: res) hg₁.size_nonneg (by rw [hg₁.used]; omega)
      have hg := hg₁.trans hg₂ hsx
      obtain ⟨hg₃, hdst, hmem⟩ := f₂.place_grown (.pair x' y') hg₂.size_nonneg
        (by rw [hg.used, objBytes, h24]; omega)
      rw [objBytes, h24] at hg₃
      have hgrown := hg.trans hg₃ (by omega)
      rw [Int.add_comm _ 24] at hgrown
      have ht₁ := hg₁.top
      have ht₂ := hg₂.top
      have ht₃ := hg₃.top
      refine ⟨_, _, _, .head (fragCopyStep_pair hm f rest res) (hr₁.trans (hr₂.trans
        (.single (fragCopyStep_mkPair f₂ x' y' rest res)))), hgrown, .pair ⟨by omega, by omega⟩ hmem ?_ ?_⟩
      · exact hx'.widen (le_refl _) (by omega) fun a ha =>
          (hg₂.keeps.trans hg₃.keeps (by omega)) a ha.2
      · exact hy'.widen (by omega) (by omega) fun a ha => hg₃.keeps a ha.2
  | _, _, @Reads.clos _ _ _ entry free ts _ hm hf, f, rest, res, h0, hlt => by
      have hss := Tree.sizeAll_nonneg fragAlign8_nonneg ts
      have hlen : (List.replicate free.length (Val.imm 0)).length = ts.length := by
        rw [List.length_replicate, hf.length_eq]
      have hge := fragAlign8_ge (16 + 8 * ts.length)
      rw [Tree.size] at hlt ⊢
      obtain ⟨hg₁, hdst, hmem⟩ := f.place_grown (.clos entry (.replicate free.length (.imm 0))) h0
        (by rw [objBytes, hlen]; omega)
      rw [objBytes, hlen] at hg₁
      -- the words of the closure come behind it, so they do not disturb it
      obtain ⟨n, f₂, rs, hr₂, hg₂, hread⟩ := hf.fragCopy _ (.closure _ :: rest) res hg₁.size_nonneg
        (by rw [hg₁.used]; omega)
      have ht₁ := hg₁.top
      have ht₂ := hg₂.top
      have hmem₂ := (hg₂.keeps _ (by omega)).trans hmem
      have hrs : (List.replicate free.length (Val.imm 0)).length = rs.length := by
        rw [hlen, hread.length_eq]
      have hg := hg₁.trans hg₂ (by omega)
      refine ⟨_, _, _, .head (fragCopyStep_clos hm f rest res)
        (hr₂.trans (.single (fragCopyStep_closure hmem₂ hrs rest res))),
        ⟨hg.data, hg.size_nonneg, hg.used, hg.written, hg.keeps.update (by omega)⟩,
        .clos ⟨by omega, ?_⟩ (Function.update_self ..) ?_⟩
      · show _ < f₂.top
        omega
      · refine hread.widen (by omega) (le_refl _) fun a ha => Function.update_of_ne ?_ _ _
        have := ha.1
        omega
  | _, _, .string _ hm, f, rest, res, h0, hlt =>
      fragCopy_leaf hm rfl nofun nofun rfl .string f rest res h0 hlt
  | _, _, .bytes _ hm, f, rest, res, h0, hlt =>
      fragCopy_leaf hm rfl nofun nofun rfl .bytes f rest res h0 hlt
  | _, _, .resource _ hm, f, rest, res, h0, hlt =>
      fragCopy_leaf hm rfl nofun nofun rfl .resource f rest res h0 hlt

theorem ReadsAll.fragCopy : ∀ {vs : List Val} {ts : List Tree},
    ReadsAll P src vs ts →
    ∀ (f : Fragment) (rest : List FragTask) (res : List Val), 0 ≤ f.size →
      fragAlign8 f.size + Tree.sizeAll fragAlign8 ts < 2 ^ 31 →
      ∃ n f' rs, Reaches (fragCopyStep src) n ⟨f, vs.map .value ++ rest, res⟩
          ⟨f', rest, rs.reverse ++ res⟩ ∧
        f.Grown f' (Tree.sizeAll fragAlign8 ts) ∧ ReadsAll (between f.top f'.top) f'.mem rs ts
  | _, _, .nil, f, rest, res, h0, _ => ⟨0, f, [], .refl _, .refl h0, .nil⟩
  | _, _, @ReadsAll.cons _ _ _ vs t ts hv hvs, f, rest, res, h0, hlt => by
      have hst := t.size_frag_nonneg
      have hss := Tree.sizeAll_nonneg fragAlign8_nonneg ts
      rw [Tree.sizeAll] at hlt ⊢
      obtain ⟨n, f₁, r, hr₁, hg₁, hread₁⟩ :=
        hv.fragCopy f (vs.map .value ++ rest) res h0 (by omega)
      obtain ⟨m, f₂, rs, hr₂, hg₂, hread₂⟩ :=
        hvs.fragCopy f₁ rest (r :: res) hg₁.size_nonneg (by rw [hg₁.used]; omega)
      have ht₁ := hg₁.top
      have ht₂ := hg₂.top
      refine ⟨n + m, f₂, r :: rs, ?_, hg₁.trans hg₂ hst, .cons ?_ ?_⟩
      · rw [List.reverse_cons, List.append_assoc]
        exact hr₁.trans hr₂
      · exact hread₁.widen (le_refl _) (by omega) fun a ha => hg₂.keeps a ha.2
      · exact hread₂.widen (by omega) (le_refl _) fun _ _ => rfl

end

/-! ### The copy onto the receiver's heap -/

theorem heapRound_pos (x : Int) : 0 < heapRound x := by
  have hmin : TA_HEAP_MIN_OBJECT = 16 := rfl
  simp only [heapRound, taHeapObjectSize]
  split <;> omega

/-- The address of the next object. -/
def Target.top (h : Target) : Int := h.base + h.heapPtr

/-- A heap with `n` more bytes allocated. -/
structure Target.Grown (h h' : Target) (n : Int) : Prop where
  base : h'.base = h.base
  heapPtr : h'.heapPtr = h.heapPtr + n
  keeps : Keeps h.top h.mem h'.mem

namespace Target.Grown

variable {h h' h'' : Target} {n m : Int}

theorem top (g : Grown h h' n) : h'.top = h.top + n := by
  rw [Target.top, Target.top, g.base, g.heapPtr, Int.add_assoc]

theorem trans (g : Grown h h' n) (g' : Grown h' h'' m) (hn : 0 ≤ n) : Grown h h'' (n + m) where
  base := g'.base.trans g.base
  heapPtr := by rw [g'.heapPtr, g.heapPtr, Int.add_assoc]
  keeps := g.keeps.trans g'.keeps (by rw [g.top]; omega)

theorem refl : Grown h h 0 := ⟨rfl, (Int.add_zero _).symm, .refl _ _⟩

end Target.Grown

theorem Target.alloc_grown (h : Target) (o : Obj) (h0 : 0 ≤ h.heapPtr) :
    h.Grown (h.alloc o).1 (heapRound (objBytes o)) ∧ ((h.alloc o).2 : Int) = h.top ∧
      (h.alloc o).1.mem (h.alloc o).2 = some o := by
  have hdst : (((h.base : Int) + h.heapPtr).toNat : Int) = h.top := by
    rw [Int.toNat_of_nonneg (by omega), Target.top]
  exact ⟨⟨rfl, rfl, (Keeps.refl _ _).update (le_of_eq hdst.symm)⟩, hdst, Function.update_self ..⟩

theorem deepCopyStep_leaf {tag : Tag} {a : Nat} {o : Obj} (hm : src a = some o)
    (ht : tagOf o = tag) (hp : tag ≠ .pair) (hc : tag ≠ .clos) (h : Target) (rest : List CopyTask)
    (res : List Val) :
    deepCopyStep src ⟨h, .value (.ptr tag a) :: rest, res⟩ =
      some ⟨(h.alloc o).1, rest, .ptr tag (h.alloc o).2 :: res⟩ := by
  cases o with
  | pair => exact absurd ht.symm hp
  | clos => exact absurd ht.symm hc
  | string | bytes | resource => simp only [deepCopyStep, deref_eq hm ht]

theorem deepCopyStep_pair {a : Nat} {x y : Val} (hm : src a = some (.pair x y)) (h : Target)
    (rest : List CopyTask) (res : List Val) :
    deepCopyStep src ⟨h, .value (.ptr .pair a) :: rest, res⟩ =
      some ⟨h, .value x :: .value y :: .pair :: rest, res⟩ := by
  have hd : deref src .pair a = some (.pair x y) := deref_eq hm rfl
  simp only [deepCopyStep, hd]

theorem deepCopyStep_mkPair (h : Target) (x y : Val) (rest : List CopyTask) (res : List Val) :
    deepCopyStep src ⟨h, .pair :: rest, y :: x :: res⟩ =
      some ⟨(h.alloc (.pair x y)).1, rest, .ptr .pair (h.alloc (.pair x y)).2 :: res⟩ := rfl

theorem deepCopyStep_clos {a : Nat} {free : List Val} (hm : src a = some (.clos entry free))
    (h : Target) (rest : List CopyTask) (res : List Val) :
    deepCopyStep src ⟨h, .value (.ptr .clos a) :: rest, res⟩ =
      some ⟨h, free.map .value ++ .closure (.ptr .clos a) :: rest, res⟩ := by
  have hd : deref src .clos a = some (.clos entry free) := deref_eq hm rfl
  simp only [deepCopyStep, hd]

theorem deepCopyStep_closure {a : Nat} {old vs : List Val} (hm : src a = some (.clos entry old))
    (hl : old.length = vs.length) (h : Target) (rest : List CopyTask) (res : List Val) :
    deepCopyStep src ⟨h, .closure (.ptr .clos a) :: rest, vs.reverse ++ res⟩ =
      some ⟨(h.alloc (.clos entry vs)).1, rest, .ptr .clos (h.alloc (.clos entry vs)).2 :: res⟩ := by
  have hd : deref src .clos a = some (.clos entry old) := deref_eq hm rfl
  obtain ⟨hle, htake, hdrop⟩ := popped hl res
  simp only [deepCopyStep, hd, if_pos hle, htake, hdrop, List.reverse_reverse]

theorem deepCopy_leaf {tag : Tag} {a : Nat} {o : Obj} (hm : src a = some o) (ht : tagOf o = tag)
    (hp : tag ≠ .pair) (hc : tag ≠ .clos) (hsize : t.size heapRound = heapRound (objBytes o))
    (hread : ∀ {P : Nat → Prop} {mem : Memory} {a : Nat}, P a → mem a = some o → Reads P mem (.ptr tag a) t)
    (h : Target) (rest : List CopyTask) (res : List Val) (h0 : 0 ≤ h.heapPtr) :
    ∃ n h' r, Reaches (deepCopyStep src) n ⟨h, .value (.ptr tag a) :: rest, res⟩
        ⟨h', rest, r :: res⟩ ∧
      h.Grown h' (t.size heapRound) ∧ Reads (between h.top h'.top) h'.mem r t := by
  rw [hsize]
  obtain ⟨hg, hdst, hmem⟩ := h.alloc_grown o h0
  refine ⟨1, _, _, .single (deepCopyStep_leaf hm ht hp hc h rest res), hg, hread ?_ hmem⟩
  have hpos := heapRound_pos (objBytes o)
  rw [between, hg.top, hdst]
  omega

theorem heapRound_nonneg (x : Int) (_ : 0 ≤ x) : 0 ≤ heapRound x := le_of_lt (heapRound_pos x)

mutual

/-- **A value task rebuilds the tree of its value above what is there.** -/
theorem Reads.deepCopy : ∀ {v : Val} {t : Tree}, Reads P src v t →
    ∀ (h : Target) (rest : List CopyTask) (res : List Val), 0 ≤ h.heapPtr →
      ∃ n h' r, Reaches (deepCopyStep src) n ⟨h, .value v :: rest, res⟩ ⟨h', rest, r :: res⟩ ∧
        h.Grown h' (t.size heapRound) ∧ Reads (between h.top h'.top) h'.mem r t
  | _, _, .imm w, h, rest, res, _ => ⟨1, h, .imm w, .single rfl, .refl, .imm w⟩
  | _, _, @Reads.pair _ _ _ x y tx ty _ hm hx hy, h, rest, res, h0 => by
      have hsx := tx.size_nonneg heapRound_nonneg
      have hsy := ty.size_nonneg heapRound_nonneg
      have hpos := heapRound_pos 24
      obtain ⟨n, h₁, x', hr₁, hg₁, hx'⟩ := hx.deepCopy h (.value y :: .pair :: rest) res h0
      obtain ⟨m, h₂, y', hr₂, hg₂, hy'⟩ := hy.deepCopy h₁ (.pair :: rest) (x' :: res)
        (by rw [hg₁.heapPtr]; omega)
      obtain ⟨hg₃, hdst, hmem⟩ := h₂.alloc_grown (.pair x' y')
        (by rw [hg₂.heapPtr, hg₁.heapPtr]; omega)
      rw [objBytes] at hg₃
      have hgrown := (hg₁.trans hg₂ hsx).trans hg₃ (by omega)
      rw [Int.add_comm _ (heapRound 24), ← Tree.size] at hgrown
      have ht₁ := hg₁.top
      have ht₂ := hg₂.top
      have ht₃ := hg₃.top
      refine ⟨_, _, _, .head (deepCopyStep_pair hm h rest res) (hr₁.trans (hr₂.trans
        (.single (deepCopyStep_mkPair h₂ x' y' rest res)))), hgrown,
        .pair ⟨by omega, by omega⟩ hmem ?_ ?_⟩
      · exact hx'.widen (le_refl _) (by omega) fun a ha =>
          (hg₂.keeps.trans hg₃.keeps (by omega)) a ha.2
      · exact hy'.widen (by omega) (by omega) fun a ha => hg₃.keeps a ha.2
  | _, _, @Reads.clos _ _ _ entry free ts _ hm hf, h, rest, res, h0 => by
      have hss := Tree.sizeAll_nonneg heapRound_nonneg ts
      obtain ⟨n, h₁, rs, hr₁, hg₁, hread⟩ := hf.deepCopy h (.closure (.ptr .clos _) :: rest) res h0
      have hpos := heapRound_pos (16 + 8 * rs.length)
      obtain ⟨hg₂, hdst, hmem⟩ := h₁.alloc_grown (.clos entry rs) (by rw [hg₁.heapPtr]; omega)
      rw [objBytes] at hg₂
      have hgrown := hg₁.trans hg₂ hss
      rw [Int.add_comm, hread.length_eq, ← Tree.size.eq_3 heapRound entry] at hgrown
      have ht₁ := hg₁.top
      have ht₂ := hg₂.top
      refine ⟨_, _, _, .head (deepCopyStep_clos hm h rest res) (hr₁.trans
        (.single (deepCopyStep_closure hm (hf.length_eq.trans hread.length_eq.symm) h₁ rest res))),
        hgrown, .clos ⟨by omega, by omega⟩ hmem ?_⟩
      exact hread.widen (le_refl _) (by omega) fun a ha => hg₂.keeps a ha.2
  | _, _, .string _ hm, h, rest, res, h0 =>
      deepCopy_leaf hm rfl nofun nofun (by simp only [Tree.size, objBytes]) .string h rest res h0
  | _, _, .bytes _ hm, h, rest, res, h0 =>
      deepCopy_leaf hm rfl nofun nofun (by simp only [Tree.size, objBytes]) .bytes h rest res h0
  | _, _, .resource _ hm, h, rest, res, h0 =>
      deepCopy_leaf hm rfl nofun nofun (by simp only [Tree.size, objBytes]) .resource h rest res h0

theorem ReadsAll.deepCopy : ∀ {vs : List Val} {ts : List Tree},
    ReadsAll P src vs ts →
    ∀ (h : Target) (rest : List CopyTask) (res : List Val), 0 ≤ h.heapPtr →
      ∃ n h' rs, Reaches (deepCopyStep src) n ⟨h, vs.map .value ++ rest, res⟩
          ⟨h', rest, rs.reverse ++ res⟩ ∧
        h.Grown h' (Tree.sizeAll heapRound ts) ∧ ReadsAll (between h.top h'.top) h'.mem rs ts
  | _, _, .nil, h, rest, res, _ => ⟨0, h, [], .refl _, .refl, .nil⟩
  | _, _, @ReadsAll.cons _ _ _ vs t ts hv hvs, h, rest, res, h0 => by
      have hst := t.size_nonneg heapRound_nonneg
      have hss := Tree.sizeAll_nonneg heapRound_nonneg ts
      obtain ⟨n, h₁, r, hr₁, hg₁, hread₁⟩ := hv.deepCopy h (vs.map .value ++ rest) res h0
      obtain ⟨m, h₂, rs, hr₂, hg₂, hread₂⟩ := hvs.deepCopy h₁ rest (r :: res)
        (by rw [hg₁.heapPtr]; omega)
      have ht₁ := hg₁.top
      have ht₂ := hg₂.top
      refine ⟨n + m, h₂, r :: rs, ?_, hg₁.trans hg₂ hst, .cons ?_ ?_⟩
      · rw [List.reverse_cons, List.append_assoc]
        exact hr₁.trans hr₂
      · exact hread₁.widen (le_refl _) (by omega) fun a ha => hg₂.keeps a ha.2
      · exact hread₂.widen (by omega) (le_refl _) fun _ _ => rfl

end

/-! ### Whole messages -/

theorem calcSize_eq (round : Int → Int) (hv : Reads P mem v t) :
    ∃ bound, ∀ fuel, bound < fuel →
      calcSize round mem fuel v = some ⟨[], int32 (t.size round), t.hasRes⟩ := by
  obtain ⟨n, hn⟩ := hv.sizeStep [] 0 false rfl
  rw [Int.zero_add, Bool.false_or] at hn
  refine ⟨n, hn.loop ?_ rfl⟩
  rintro ⟨_ | ⟨v, tasks⟩, total, r⟩ h
  · rfl
  · cases h

theorem fragCopyStep_done (s : FragCopy) (h : s.tasks.isEmpty = true) :
    fragCopyStep mem s = none := by
  obtain ⟨f, _ | ⟨v, tasks⟩, res⟩ := s
  · rfl
  · cases h

theorem fragCopy_eq (hv : Reads P mem v t) (hlt : t.size fragAlign8 < 2 ^ 31) (data : Nat) :
    ∃ bound f root, (newFragment data).Grown f (t.size fragAlign8) ∧
      Reads (between (newFragment data).top f.top) f.mem root t ∧
      ∀ fuel, bound < fuel → fragCopy mem fuel (newFragment data) v = some (f, root) := by
  have hlt' : fragAlign8 (newFragment data).size + t.size fragAlign8 < 2 ^ 31 := by
    rwa [show fragAlign8 (newFragment data).size = 0 from rfl, Int.zero_add]
  obtain ⟨n, f, root, hn, hg, hr⟩ := hv.fragCopy (newFragment data) [] [] (le_refl 0) hlt'
  refine ⟨n, f, root, hg, hr, fun fuel hfuel => ?_⟩
  have hloop : Lib.loop (fragCopyStep mem) (fun s => s.tasks.isEmpty) fuel
      ⟨newFragment data, [.value v], []⟩ = some ⟨f, [], [root]⟩ :=
    hn.loop fragCopyStep_done rfl fuel hfuel
  simp only [fragCopy, hloop, Option.bind_some, List.head?_cons, Option.map_some]

theorem valDeepCopy_eq (hv : Reads P mem v t) (h : Target) (h0 : 0 ≤ h.heapPtr) :
    ∃ bound h' v', h.Grown h' (t.size heapRound) ∧ Reads (between h.top h'.top) h'.mem v' t ∧
      ∀ fuel, bound < fuel → valDeepCopy mem fuel h v = some (h', v') := by
  obtain ⟨n, h', v', hn, hg, hr⟩ := hv.deepCopy h [] [] h0
  refine ⟨n, h', v', hg, hr, fun fuel hfuel => ?_⟩
  have hloop : Lib.loop (deepCopyStep mem) (fun s => s.tasks.isEmpty) fuel
      ⟨h, [.value v], []⟩ = some ⟨h', [], [v']⟩ := hn.loop ?_ rfl fuel hfuel
  · simp only [valDeepCopy, hloop, Option.bind_some, List.head?_cons, Option.map_some]
  · rintro ⟨f, _ | ⟨v, tasks⟩, res⟩ h
    · rfl
    · cases h

/-! ### What the copy writes -/

/-- The bytes of the objects that the tasks of a copy have still to write. -/
inductive Owes (src : Memory) : List FragTask → Int → Prop
  | nil : Owes src [] 0
  | pair {ts : List FragTask} {n : Int} (h : Owes src ts n) : Owes src (.pair :: ts) (24 + n)
  | closure {dst : Nat} {ts : List FragTask} {n : Int} (h : Owes src ts n) :
      Owes src (.closure dst :: ts) n
  | value {v : Val} {t : Tree} {ts : List FragTask} {n : Int}
      (hv : Reads (fun _ => True) src v t) (h : Owes src ts n) :
      Owes src (.value v :: ts) (t.size id + n)

theorem Owes.values {rest : List FragTask} {n : Int} (h : Owes src rest n) :
    ∀ {vs : List Val} {ts : List Tree}, ReadsAll (fun _ => True) src vs ts →
      Owes src (vs.map .value ++ rest) (Tree.sizeAll id ts + n)
  | _, _, .nil => by rwa [Tree.sizeAll, Int.zero_add]
  | _, _, .cons hv hvs => by
      rw [Tree.sizeAll, Int.add_assoc]
      exact .value hv (h.values hvs)

theorem Fragment.place_written (f : Fragment) (o : Obj) :
    (f.place o).1.written = f.written + objBytes o := rfl

/-- A turn pays for what it writes, whatever has become of the size of the fragment. -/
theorem Owes.step {s s' : FragCopy} {n : Int} (h : Owes src s.tasks n)
    (hs : fragCopyStep src s = some s') :
    ∃ n', Owes src s'.tasks n' ∧ s'.frag.written + n' = s.frag.written + n := by
  obtain ⟨f, tasks, res⟩ := s
  cases h with
  | nil => cases hs
  | @pair ts n h =>
      rcases res with _ | ⟨y, _ | ⟨x, res⟩⟩
      · cases hs
      · cases hs
      · obtain rfl := Option.some.inj ((fragCopyStep_mkPair f x y ts res).symm.trans hs)
        exact ⟨n, h, by rw [Fragment.place_written, objBytes, Int.add_assoc]⟩
  | @closure dst ts n h =>
      simp only [fragCopyStep] at hs
      split at hs
      · split at hs
        · obtain rfl := Option.some.inj hs
          exact ⟨n, h, rfl⟩
        · cases hs
      · cases hs
  | @value v t ts n hv h =>
      have hleaf : ∀ {tag : Tag} {a : Nat} {o : Obj}, src a = some o → tagOf o = tag →
          tag ≠ .pair → tag ≠ .clos → v = .ptr tag a → t.size id = objBytes o →
          ∃ n', Owes src s'.tasks n' ∧ s'.frag.written + n' = f.written + (t.size id + n) := by
        rintro tag a o hm ht hp hc rfl hsize
        obtain rfl := Option.some.inj ((fragCopyStep_leaf hm ht hp hc f ts res).symm.trans hs)
        exact ⟨n, h, by rw [Fragment.place_written, hsize]; omega⟩
      cases hv with
      | imm w =>
          obtain rfl := Option.some.inj hs
          exact ⟨n, h, by rw [Tree.size, Int.zero_add]⟩
      | pair _ hm hx hy =>
          obtain rfl := Option.some.inj ((fragCopyStep_pair hm f ts res).symm.trans hs)
          exact ⟨_, .value hx (.value hy (.pair h)), by simp only [Tree.size, id]; omega⟩
      | clos _ hm hf =>
          obtain rfl := Option.some.inj ((fragCopyStep_clos hm f ts res).symm.trans hs)
          refine ⟨_, Owes.values (.closure h) hf, ?_⟩
          rw [Fragment.place_written, objBytes, List.length_replicate, hf.length_eq]
          simp only [Tree.size, id]
          omega
      | string _ hm => exact hleaf hm rfl nofun nofun rfl rfl
      | bytes _ hm => exact hleaf hm rfl nofun nofun rfl rfl
      | resource _ hm => exact hleaf hm rfl nofun nofun rfl rfl

/-- **The copy writes the bytes of the unfolded message.** -/
theorem fragCopy_written {v : Val} {t : Tree} (hv : Reads (fun _ => True) src v t) {fuel data : Nat}
    {f : Fragment} {root : Val} (h : fragCopy src fuel (newFragment data) v = some (f, root)) :
    f.written = t.size id := by
  obtain ⟨s, hloop, hroot⟩ := Option.bind_eq_some_iff.mp h
  obtain ⟨r, -, hr⟩ := Option.map_eq_some_iff.mp hroot
  obtain ⟨⟨n, howes, hsum⟩, hdone⟩ := Lib.loop_invariant
    (P := fun s => ∃ n, Owes src s.tasks n ∧ s.frag.written + n = t.size id)
    (fun s s' ⟨n, howes, hsum⟩ hs => by
      obtain ⟨n', howes', hsum'⟩ := howes.step hs
      exact ⟨n', howes', hsum'.trans hsum⟩) hloop
    ⟨_, .value hv .nil, by show 0 + (t.size id + 0) = _; omega⟩
  obtain ⟨rfl, -⟩ := Prod.mk.inj hr
  rw [List.isEmpty_iff.mp hdone] at howes
  cases howes
  omega

/-- With turns enough to spend, the copy into the fragment stays within the block, and the
rebuilt message within what was reserved. -/
def Enough (src : Memory) (msg : Val) (data : Nat) (h : Target) : Prop :=
  ∃ bound, ∀ fuel, bound < fuel → ∃ need hasRes f root size h' v,
    fragCalcSize src fuel msg = some (need, hasRes) ∧
    fragCopy src fuel (newFragment data) msg = some (f, root) ∧
    f.written ≤ need ∧ f.size ≤ need ∧
    valCalcHeapSize f.mem fuel root = some size ∧
    valDeepCopy f.mem fuel h root = some (h', v) ∧
    h'.heapPtr - h.heapPtr ≤ size

/-- A size of 2^31 or more is cut to less than the bytes that are written: of an object in whole
words at least nine parts in sixteen are its own. -/
theorem int32_size_lt (t : Tree) (h : 2 ^ 31 ≤ t.size fragAlign8) :
    int32 (t.size fragAlign8) < t.size id := by
  have hparts : 9 * t.size fragAlign8 ≤ 16 * t.size id := by
    refine t.size_le fun x hx => ?_
    unfold fragAlign8
    simp only [id]
    omega
  unfold int32
  rw [Int.bmod_def]
  omega

/-- **The sizes computed for a message are enough exactly if they are sizes an `int` can hold**:
those of the objects of the message in the fragment, and those on the receiver's heap. -/
theorem message_fits {src : Memory} {msg : Val} {t : Tree}
    (hmsg : Reads (fun _ => True) src msg t) (data : Nat) (h : Target) (h0 : 0 ≤ h.heapPtr) :
    Enough src msg data h ↔ t.size fragAlign8 < 2 ^ 31 ∧ t.size heapRound < 2 ^ 31 := by
  obtain ⟨b₁, hneed⟩ := calcSize_eq fragAlign8 hmsg
  constructor
  · rintro ⟨b, henough⟩
    have hfrag : t.size fragAlign8 < 2 ^ 31 := by
      by_contra hlarge
      obtain ⟨need, hasRes, f, root, -, -, -, hcalc, hcopy, hle, -⟩ :=
        henough (b + b₁ + 1) (by omega)
      rw [fragCalcSize, hneed _ (by omega), Option.map_some] at hcalc
      obtain ⟨rfl, -⟩ := Prod.mk.inj (Option.some.inj hcalc)
      have hlt := int32_size_lt t (by omega)
      rw [fragCopy_written hmsg hcopy] at hle
      exact absurd hle (not_le_of_gt hlt)
    refine ⟨hfrag, ?_⟩
    obtain ⟨b₂, f, root, hg, hroot, hcopy⟩ := fragCopy_eq hmsg hfrag data
    obtain ⟨b₃, hsize⟩ := calcSize_eq heapRound hroot
    obtain ⟨b₄, h', v, hg', -, hdeep⟩ := valDeepCopy_eq hroot h h0
    obtain ⟨_, _, f', root', size, h'', v', -, hcopy', -, -, hcalc, hdeep', hle⟩ :=
      henough (b + b₂ + b₃ + b₄ + 1) (by omega)
    obtain ⟨rfl, rfl⟩ := Prod.mk.inj (Option.some.inj ((hcopy _ (by omega)).symm.trans hcopy'))
    obtain ⟨rfl, rfl⟩ := Prod.mk.inj (Option.some.inj ((hdeep _ (by omega)).symm.trans hdeep'))
    rw [valCalcHeapSize, hsize _ (by omega), Option.map_some] at hcalc
    obtain rfl := Option.some.inj hcalc
    have hcut := (Lib.int32_bounds (t.size heapRound)).2
    rw [hg'.heapPtr, add_sub_cancel_left] at hle
    exact lt_of_le_of_lt hle hcut
  · rintro ⟨hfrag, hheap⟩
    obtain ⟨b₂, f, root, hg, hroot, hcopy⟩ := fragCopy_eq hmsg hfrag data
    obtain ⟨b₃, hsize⟩ := calcSize_eq heapRound hroot
    obtain ⟨b₄, h', v, hg', -, hdeep⟩ := valDeepCopy_eq hroot h h0
    have hfrag0 := t.size_nonneg fragAlign8_nonneg
    have hheap0 := t.size_nonneg heapRound_nonneg
    refine ⟨b₁ + b₂ + b₃ + b₄, fun fuel hfuel => ⟨t.size fragAlign8, t.hasRes, f, root,
      t.size heapRound, h', v, ?_, hcopy fuel (by omega), ?_, ?_, ?_, hdeep fuel (by omega), ?_⟩⟩
    · rw [fragCalcSize, hneed fuel (by omega), Option.map_some,
        int32_of_range (by omega) hfrag]
    · exact le_of_le_of_eq hg.written (Int.zero_add _)
    · exact le_of_le_of_eq (fragAlign8_ge f.size) (hg.used.trans (Int.zero_add _))
    · rw [valCalcHeapSize, hsize fuel (by omega), Option.map_some,
        int32_of_range (by omega) hheap]
    · rw [hg'.heapPtr]
      omega

/-- A pair of a number and a string. -/
def sampleMemory : Memory := fun a =>
  if a = 32 then some (.pair (.imm 7) (.ptr .string 64))
  else if a = 64 then some (.string [104, 105])
  else none

def sampleTree : Tree := .pair (.imm 7) (.string [104, 105])

theorem sampleMemory_reads : Reads (fun _ => True) sampleMemory (.ptr .pair 32) sampleTree :=
  .pair trivial rfl (.imm 7) (.string trivial rfl)

theorem message_fits_sample : Enough sampleMemory (.ptr .pair 32) 4096 ⟨65536, 0, fun _ => none⟩ :=
  (message_fits sampleMemory_reads 4096 _ (by decide)).mpr (by decide)

/-! ### A small value with a large tree -/

/-- The `n`-th of a row of pairs, each with the one before it on both sides. -/
def sharedRef : Nat → Val
  | 0 => .imm 0
  | n + 1 => .ptr .pair (32 * (n + 1))

def sharedMemory : Memory := fun a =>
  if a % 32 = 0 then some (.pair (sharedRef (a / 32 - 1)) (sharedRef (a / 32 - 1))) else none

def sharedTree : Nat → Tree
  | 0 => .imm 0
  | n + 1 => .pair (sharedTree n) (sharedTree n)

theorem sharedMemory_pair (n : Nat) :
    sharedMemory (32 * (n + 1)) = some (.pair (sharedRef n) (sharedRef n)) := by
  rw [sharedMemory, if_pos (by omega), show 32 * (n + 1) / 32 - 1 = n by omega]

theorem sharedRef_reads : ∀ n, Reads (fun _ => True) sharedMemory (sharedRef n) (sharedTree n)
  | 0 => .imm 0
  | n + 1 => .pair trivial (sharedMemory_pair n) (sharedRef_reads n) (sharedRef_reads n)

theorem sharedTree_size (n : Nat) : (sharedTree n).size round = round 24 * (2 ^ n - 1) := by
  induction n with
  | zero => simp [sharedTree, Tree.size]
  | succ n ih =>
      rw [sharedTree, Tree.size, ih, pow_succ]
      ring

theorem sharedTree_hasRes (n : Nat) : (sharedTree n).hasRes = false := by
  induction n with
  | zero => rfl
  | succ n ih => rw [sharedTree, Tree.hasRes, ih, Bool.or_false]

/-- Pairs are placed whatever became of the size of the fragment. -/
theorem sharedRef_fragCopy (n : Nat) : ∀ (f : Fragment) (rest : List FragTask) (res : List Val),
    ∃ k f' r, Reaches (fragCopyStep sharedMemory) k ⟨f, .value (sharedRef n) :: rest, res⟩
        ⟨f', rest, r :: res⟩ ∧
      f'.written = f.written + 24 * (2 ^ n - 1) := by
  induction n with
  | zero =>
      intro f rest res
      exact ⟨1, f, .imm 0, .single rfl, by omega⟩
  | succ n ih =>
      intro f rest res
      obtain ⟨k₁, f₁, x, hr₁, hw₁⟩ := ih f (.value (sharedRef n) :: .pair :: rest) res
      obtain ⟨k₂, f₂, y, hr₂, hw₂⟩ := ih f₁ (.pair :: rest) (x :: res)
      refine ⟨_, _, _, .head (fragCopyStep_pair (sharedMemory_pair n) f rest res) (hr₁.trans
        (hr₂.trans (.single (fragCopyStep_mkPair f₂ x y rest res)))), ?_⟩
      show f₂.written + 24 = _
      rw [hw₂, hw₁, pow_succ]
      ring

/-- Twenty-eight pairs are a message whose size does not fit in an `int`: what is left of it is
a third of the bytes that the copy writes. -/
theorem message_fits_shared : ∃ bound, ∀ fuel, bound < fuel →
    fragCalcSize sharedMemory fuel (sharedRef 28) = some (2147483624, false) ∧
    ∃ f root, fragCopy sharedMemory fuel (newFragment 4096) (sharedRef 28) = some (f, root) ∧
      f.written = 6442450920 := by
  obtain ⟨b, hneed⟩ := calcSize_eq fragAlign8 (sharedRef_reads 28)
  obtain ⟨n, f, root, hn, hw⟩ := sharedRef_fragCopy 28 (newFragment 4096) [] []
  refine ⟨b + n, fun fuel hfuel => ⟨?_, f, root, ?_, hw⟩⟩
  · rw [fragCalcSize, hneed fuel (by omega), Option.map_some, sharedTree_hasRes, sharedTree_size]
    decide
  · have hloop : Lib.loop (fragCopyStep sharedMemory) (fun s => s.tasks.isEmpty) fuel
        ⟨newFragment 4096, [.value (sharedRef 28)], []⟩ = some ⟨f, [], [root]⟩ :=
      hn.loop fragCopyStep_done rfl fuel (by omega)
    simp only [fragCopy, hloop, Option.bind_some, List.head?_cons, Option.map_some]

/-! ### What the receiver gets -/

/-- Whole words, at least the two that a forwarding pointer takes. -/
def wholeWords (x : Int) : Int := max (fragAlign8 x) TA_HEAP_MIN_OBJECT

/-- **The receiver gets what was sent**: a message without resources that fits on the
receiver's heap, where places are `int`s, arrives as a value with the same tree, and what was
on the heap before is still there. -/
theorem carry_reads {src : Memory} {msg : Val} {t : Tree}
    (hmsg : Reads (fun _ => True) src msg t) (hres : t.hasRes = false) (data : Nat) (h : Target)
    (h0 : 0 ≤ h.heapPtr) (hfit : h.heapPtr + t.size wholeWords < 2 ^ 31) :
    ∃ bound, ∀ fuel, bound < fuel → ∃ h' v, carry src fuel data h msg = some (h', v) ∧
      Reads (between h.top h'.top) h'.mem v t ∧ Keeps h.top h.mem h'.mem := by
  have hfrag : t.size fragAlign8 < 2 ^ 31 := by
    have hround : ∀ x, 8 ≤ x → 1 * fragAlign8 x ≤ 1 * wholeWords x := fun x _ => by
      rw [Int.one_mul, Int.one_mul]
      exact le_max_left _ _
    have := t.size_le hround
    omega
  obtain ⟨b₁, hneed⟩ := calcSize_eq fragAlign8 hmsg
  obtain ⟨b₂, f, root, -, hroot, hcopy⟩ := fragCopy_eq hmsg hfrag data
  obtain ⟨b₃, h', v, hg, hv, hdeep⟩ := valDeepCopy_eq hroot h h0
  refine ⟨b₁ + b₂ + b₃, fun fuel hfuel => ⟨h', v, ?_, hv, hg.keeps⟩⟩
  simp only [carry, fragCalcSize, hneed fuel (by omega), hres, hcopy fuel (by omega),
    hdeep fuel (by omega), Option.map_some, Option.bind_eq_bind, Option.bind_some, if_false,
    Bool.false_eq_true]

theorem carry_reads_sample :
    sampleTree.hasRes = false ∧
    ∃ bound, ∀ fuel, bound < fuel → ∃ h' v,
      carry sampleMemory fuel 4096 ⟨65536, 0, fun _ => none⟩ (.ptr .pair 32) = some (h', v) ∧
      Reads (between 65536 h'.top) h'.mem v sampleTree ∧ Keeps 65536 (fun _ => none) h'.mem :=
  ⟨by decide, carry_reads sampleMemory_reads (by decide) 4096 ⟨65536, 0, fun _ => none⟩
    (by decide) (by decide)⟩

end TinyActor.Runtime.Message
