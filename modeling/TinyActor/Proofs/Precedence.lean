/-
How infix operators group.

The parser has a function for every level of operators, which reads an operand of the next
tighter level and then goes on as long as an operator of its own level follows.  Two things
do not follow that plan: `&&` is read at the end of the function for comparisons, by itself,
and so groups to the right; and a comparison after the first of a chain is looked for in a
shorter table, without `<=` and `>=`.

A sequence of operands and operators is given its tree by taking it apart at its loosest
operators first: `tree`.  What the parser returns is that tree exactly if the sequence is one
that `Fits`: no `<=` or `>=` stands in a chain of comparisons except at its beginning, and what
stands on the right of a pipe is something that can be called.  Where a sequence does not fit,
every function stops before the comparison it does not look for, or the last one stops at the
pipe.
-/
import TinyActor.Front.Parser
import TinyActor.Lib.Hoare

namespace TinyActor.Front

open TinyActor.Bootstrap (Form)
open TinyActor.Lib (Gives Ends)

/-! ### Operators -/

inductive Level
  | pipe | or | and | comparison | additive | multiplicative
deriving DecidableEq, Repr

inductive Operator
  | pipe | or | and | lt | gt | le | ge | eq | ne | add | sub | mul | div | mod
deriving DecidableEq, Repr

variable {tail : List (Operator × Form)} {ls : List Level} {op : Operator} {l : Level} {q e : Nat}

namespace Operator

def level : Operator → Level
  | pipe => .pipe
  | or => .or
  | and => .and
  | lt | gt | le | ge | eq | ne => .comparison
  | add | sub => .additive
  | mul | div | mod => .multiplicative

def text : Operator → String
  | pipe => "|>"
  | or => "||"
  | and => "&&"
  | lt => "<"
  | gt => ">"
  | le => "<="
  | ge => ">="
  | eq => "=="
  | ne => "!="
  | add => "+"
  | sub => "-"
  | mul => "*"
  | div => "/"
  | mod => "%"

/-- The name in the tree. -/
def name : Operator → String
  | or => "or"
  | and => "and"
  | eq => "="
  | op => op.text

def all : List Operator := [pipe, or, and, lt, gt, le, ge, eq, ne, add, sub, mul, div, mod]

theorem mem_all (op : Operator) : op ∈ all := by
  cases op <;> decide

theorem text_inj {op' : Operator} (h : op.text = op'.text) : op = op' := by
  have hall : ∀ o ∈ all, ∀ o' ∈ all, o.text = o'.text → o = o' := by decide
  exact hall op op.mem_all op' op'.mem_all h

/-- The entry of a table of the parser. -/
def entry (op : Operator) : String × String := (op.text, op.name)

end Operator

/-! ### The tree of a sequence -/

/-- An operand, and operators with the operands on their right. -/
abbrev Chain := Form × List (Operator × Form)

/-- A sequence taken apart at the operators of a level. -/
def split (l : Level) : Form → List (Operator × Form) → Chain × List (Operator × Chain)
  | f, [] => ((f, []), [])
  | f, (op, g) :: rest =>
      let r := split l g rest
      if op.level = l then ((f, []), (op, r.1) :: r.2)
      else ((f, (op, r.1.1) :: r.1.2), r.2)

/-- `left` as the first argument of the call, the constructor or the name on the right. -/
def piped (left : Form) : Form → Form
  | .pair head args =>
      if head = .sym "cons" then
        .ofList [.sym "cons", nth args 0, .ofList [.sym "cons", left, nth args 1]]
      else .pair head (.pair left args)
  | right => .ofList [right, left]

/-- The operands of a level put together: to the left, but `&&` to the right. -/
def Level.join (l : Level) (f : Form) (rest : List (Operator × Form)) : Form :=
  match l with
  | .and =>
      match rest with
      | [] => f
      | (op, g) :: rest => binary op.name f (Level.join .and g rest)
  | .pipe => rest.foldl (fun left x => piped left x.2) f
  | _ => rest.foldl (fun left x => binary x.1.name left x.2) f
termination_by structural rest

/-- **The tree of a sequence**, given the levels of its operators, the loosest first. -/
def tree : List Level → Chain → Form
  | [], c => c.1
  | l :: ls, c =>
      let r := split l c.1 c.2
      l.join (tree ls r.1) (r.2.map fun x => (x.1, tree ls x.2))

/-- What can be called with one more argument. -/
def isTarget : Form → Bool
  | .pair head args =>
      isPipeableHead head && head ≠ .sym "parse_error" &&
        (head ≠ .sym "cons" ||
          match args with
          | .pair ctor (.pair _ _) => headIs "quote" ctor
          | _ => false)
  | right => isPipeableHead right && right ≠ .sym "parse_error"

/-- What a level asks of its operators and what stands on their right. -/
def Level.Allows (l : Level) (rest : List (Operator × Form)) : Prop :=
  match l with
  | .comparison => ∀ x ∈ rest.tail, x.1 ≠ .le ∧ x.1 ≠ .ge
  | .pipe => ∀ x ∈ rest, isTarget x.2 = true
  | _ => True

/-- Every part of a sequence is what its level asks for. -/
def Fits : List Level → Chain → Prop
  | [], _ => True
  | l :: ls, c =>
      let r := split l c.1 c.2
      l.Allows (r.2.map fun x => (x.1, tree ls x.2)) ∧ Fits ls r.1 ∧ ∀ x ∈ r.2, Fits ls x.2

/-! ### A sequence among the tokens -/

variable {toks : List Token}

/-- A call of the parser returns this form and position, given enough calls. -/
def Yields (toks : List Token) (c : Call) (r : Parsed) : Prop := Gives (fun n => run toks n c) r

/-- Operators and operands stand at a position, up to another where there is no operator.  An
operand takes a token or more. -/
inductive Stands (toks : List Token) : Nat → List (Operator × Form) → Nat → Prop
  | done {q : Nat} : (∀ op : Operator, isOp toks q op.text = false) → Stands toks q [] q
  | next {q q' e : Nat} {op : Operator} {g : Form} {rest : List (Operator × Form)} :
      isOp toks q op.text = true → Yields toks (.operandChain (q + 1)) (g, q') → q + 1 < q' →
      Stands toks q' rest e → Stands toks q ((op, g) :: rest) e

theorem Yields.call {c : Call} {r : Parsed} (h : Gives (fun n => parseCall toks (run toks n) c) r) :
    Yields toks c r := .step (fun _ => rfl) h

theorem Stands.le (h : Stands toks q tail e) : q ≤ e := by
  induction h with
  | done _ => exact Nat.le_refl _
  | next _ _ hlt _ ih => omega

theorem isOp_inj {a b : String} (ha : isOp toks q a = true) (hb : isOp toks q b = true) :
    a = b := by
  simp only [isOp, TokVal.is, Bool.and_eq_true, decide_eq_true_eq] at ha hb
  exact String.toList_inj.mp (TokVal.str.inj (ha.2.symm.trans hb.2))

/-- What is found in a table at an operator. -/
theorem find_entry (h : isOp toks q op.text = true) (ops : List Operator) :
    ((ops.map Operator.entry).find? fun e => isOp toks q e.1) =
      if op ∈ ops then some op.entry else none := by
  induction ops with
  | nil => rfl
  | cons o ops ih =>
      rw [List.map_cons, List.find?_cons, ih]
      by_cases ho : isOp toks q o.text = true
      · obtain rfl := Operator.text_inj (isOp_inj ho h)
        simp [Operator.entry, ho]
      · have hne : op ≠ o := by
          rintro rfl
          exact ho h
        simp [Operator.entry, ho, hne]

/-- No operator of these comes next. -/
def Past (ops : List Operator) (tail : List (Operator × Form)) : Prop := ∀ x ∈ tail.head?, x.1 ∉ ops

theorem Stands.find_none (h : Stands toks q tail e) {ops : List Operator} (hops : Past ops tail) :
    ((ops.map Operator.entry).find? fun e => isOp toks q e.1) = none := by
  cases h with
  | done hnone =>
      refine List.find?_eq_none.mpr fun e he => ?_
      obtain ⟨o, -, rfl⟩ := List.mem_map.mp he
      rw [Operator.entry, hnone o]
      exact nofun
  | next hop _ _ _ => rw [find_entry hop, if_neg (hops _ rfl)]

section Infix

variable {ops : List Operator} {right : Nat → Call} {again : Nat → Form → Call}
  (after : Nat → Nat → Form → Parse Parsed) {q p : Nat} {left g : Form} {r : Parsed}

/-- An operator of the level is read, and its right side. -/
theorem infix_next (hop : isOp toks q op.text = true) (hmem : op ∈ ops)
    (hright : Yields toks (right (q + 1)) (g, p))
    (hagain : Yields toks (again p (binary op.name left g)) r) :
    Gives (fun n => parseInfix toks (run toks n) (ops.map Operator.entry) right again (after n) q left) r := by
  unfold parseInfix
  rw [find_entry hop, if_pos hmem]
  exact .bind hright hagain

theorem infix_after (hnone : ((ops.map Operator.entry).find? fun e => isOp toks q e.1) = none)
    (hafter : Gives (fun n => after n q left) r) :
    Gives (fun n => parseInfix toks (run toks n) (ops.map Operator.entry) right again (after n) q left) r := by
  unfold parseInfix
  rw [hnone]
  exact hafter

end Infix

/-! ### Parts of a sequence -/

/-- The parts in one row. -/
def flat (segs : List (Operator × Chain)) : List (Operator × Form) :=
  segs.flatMap fun x => (x.1, x.2.1) :: x.2.2

theorem split_first (l : Level) (f : Form) (rest : List (Operator × Form)) :
    (split l f rest).1.1 = f := by
  cases rest with
  | nil => rfl
  | cons x rest =>
      simp only [split]
      split <;> rfl

theorem split_flat (l : Level) (f : Form) (rest : List (Operator × Form)) :
    (split l f rest).1.2 ++ flat (split l f rest).2 = rest := by
  induction rest generalizing f with
  | nil => rfl
  | cons x rest ih =>
      have h := ih x.2
      have hf := split_first l x.2 rest
      simp only [split]
      split
      · simp only [flat, List.flatMap_cons, List.nil_append, List.cons_append, hf] at h ⊢
        rw [h]
      · rw [List.cons_append, h, hf]

/-- Parts that begin with operators of the level, with tighter operators inside. -/
structure Part (l : Level) (ls : List Level) (x : Operator × Chain) : Prop where
  level : x.1.level = l
  inner : ∀ y ∈ x.2.2, y.1.level ∈ ls

theorem split_inner {f : Form} {rest : List (Operator × Form)}
    (h : ∀ x ∈ rest, x.1.level ∈ l :: ls) :
    (∀ x ∈ (split l f rest).1.2, x.1.level ∈ ls) ∧ ∀ x ∈ (split l f rest).2, Part l ls x := by
  induction rest generalizing f with
  | nil => exact ⟨nofun, nofun⟩
  | cons x rest ih =>
      obtain ⟨hfirst, hrest⟩ := @ih x.2 fun y hy => h y (List.mem_cons_of_mem _ hy)
      simp only [split]
      by_cases hx : x.1.level = l
      · rw [if_pos hx]
        refine ⟨nofun, fun y hy => ?_⟩
        rcases List.mem_cons.mp hy with rfl | hy
        · exact ⟨hx, hfirst⟩
        · exact hrest y hy
      · rw [if_neg hx]
        refine ⟨fun y hy => ?_, hrest⟩
        rcases List.mem_cons.mp hy with rfl | hy
        · exact (List.mem_cons.mp (h x List.mem_cons_self)).resolve_left hx
        · exact hfirst y hy

/-- No operator of these levels comes next. -/
def Beyond (ls : List Level) (tail : List (Operator × Form)) : Prop := ∀ x ∈ tail.head?, x.1.level ∉ ls

theorem Beyond.nil (ls : List Level) : Beyond ls [] := by
  intro x hx
  cases hx

theorem Beyond.past (h : Beyond ls tail) {ops : List Operator} (hops : ∀ op ∈ ops, op.level ∈ ls) :
    Past ops tail :=
  fun x hx hmem => h x hx (hops _ hmem)

theorem Beyond.flat {segs : List (Operator × Chain)} (hl : l ∉ ls)
    (hsegs : ∀ x ∈ segs, Part l ls x) (h : Beyond (l :: ls) tail) :
    Beyond ls (flat segs ++ tail) := by
  intro x hx
  cases segs with
  | nil => exact fun hmem => h x hx (List.mem_cons_of_mem _ hmem)
  | cons y segs =>
      obtain rfl := Option.some.inj hx
      rw [(hsegs y List.mem_cons_self).level]
      exact hl

/-! ### Levels -/

/-- The function reads a sequence of operators of these levels and returns its tree. -/
def Parses (toks : List Token) (ls : List Level) (call : Nat → Call) : Prop :=
  ∀ {p q e : Nat} {f : Form} {chain tail : List (Operator × Form)},
    Yields toks (.operandChain p) (f, q) → (∀ x ∈ chain, x.1.level ∈ ls) → Beyond ls tail →
    Fits ls (f, chain) → Stands toks q (chain ++ tail) e →
    ∃ q', Yields toks (call p) (tree ls (f, chain), q') ∧ Stands toks q' tail e

/-- One more level: its first operand is read by the function for the next level, and the parts
that follow stand behind it. -/
theorem Parses.first {sub : Nat → Call} (hsub : Parses toks ls sub) (hl : l ∉ ls) {p : Nat}
    {f : Form} {chain : List (Operator × Form)} (hf : Yields toks (.operandChain p) (f, q))
    (hchain : ∀ x ∈ chain, x.1.level ∈ l :: ls) (htail : Beyond (l :: ls) tail)
    (hfits : Fits ls (split l f chain).1) (hs : Stands toks q (chain ++ tail) e) :
    ∃ q', Yields toks (sub p) (tree ls (split l f chain).1, q') ∧
      Stands toks q' (flat (split l f chain).2 ++ tail) e := by
  obtain ⟨hinner, hparts⟩ := split_inner (f := f) hchain
  have hs' : Stands toks q ((split l f chain).1.2 ++ (flat (split l f chain).2 ++ tail)) e := by
    rwa [← List.append_assoc, split_flat]
  have hf' : Yields toks (.operandChain p) ((split l f chain).1.1, q) := by rwa [split_first]
  exact hsub hf' hinner (.flat hl hparts htail) hfits hs'

section Rest

variable {ls : List Level} {l : Level} {sub : Nat → Call} (again : Nat → Form → Call)
  (ops : List Operator) {segs : List (Operator × Chain)} {tail : List (Operator × Form)} {q e : Nat}

/-- The right side of the next operator is read. -/
theorem Parses.next (hsub : Parses toks ls sub) (hl : l ∉ ls) {x : Operator × Chain}
    (hsegs : ∀ y ∈ x :: segs, Part l ls y) (hfits : Fits ls x.2) (htail : Beyond (l :: ls) tail)
    (hs : Stands toks q (flat (x :: segs) ++ tail) e) :
    isOp toks q x.1.text = true ∧ ∃ q', Yields toks (sub (q + 1)) (tree ls x.2, q') ∧
      Stands toks q' (flat segs ++ tail) e := by
  have hx := hsegs x List.mem_cons_self
  have hrest : ∀ y ∈ segs, Part l ls y := fun y hy => hsegs y (List.mem_cons_of_mem _ hy)
  simp only [flat, List.flatMap_cons, List.cons_append, List.append_assoc] at hs
  cases hs with
  | next hop hg _ hs => exact ⟨hop, hsub hg hx.inner (.flat hl hrest htail) hfits hs⟩

/-- **The rest of a level** that groups to the left. -/
theorem Parses.rest (hsub : Parses toks ls sub) (hl : l ∉ ls) (hops : ∀ op, op ∈ ops ↔ op.level = l)
    (hagain : ∀ n q left, parseCall toks (run toks n) (again q left) =
      parseInfix toks (run toks n) (ops.map Operator.entry) sub again stop q left)
    (hsegs : ∀ x ∈ segs, Part l ls x) (hfits : ∀ x ∈ segs, Fits ls x.2) (htail : Beyond (l :: ls) tail)
    (hs : Stands toks q (flat segs ++ tail) e) (left : Form) :
    ∃ q', Yields toks (again q left)
      (segs.foldl (fun left x => binary x.1.name left (tree ls x.2)) left, q') ∧
      Stands toks q' tail e := by
  induction segs generalizing q left with
  | nil =>
      have hpast : Past ops tail := htail.past fun op hop => by
        rw [(hops op).mp hop]
        exact List.mem_cons_self
      refine ⟨q, .call ?_, hs⟩
      simp only [hagain]
      exact infix_after (fun _ => stop) (hs.find_none hpast) (.const _)
  | cons x segs ih =>
      obtain ⟨hop, p, hright, hs⟩ := hsub.next hl hsegs (hfits x List.mem_cons_self) htail hs
      obtain ⟨q', hy, hs⟩ := ih (fun y hy => hsegs y (List.mem_cons_of_mem _ hy))
        (fun y hy => hfits y (List.mem_cons_of_mem _ hy)) hs (binary x.1.name left (tree ls x.2))
      refine ⟨q', .call ?_, hs⟩
      simp only [hagain]
      exact infix_next (fun _ => stop) hop ((hops _).mpr (hsegs x List.mem_cons_self).level) hright hy

end Rest

theorem tree_left (hand : l ≠ .and) (hpipe : l ≠ .pipe) (ls : List Level) (f : Form)
    (chain : List (Operator × Form)) :
    tree (l :: ls) (f, chain) = (split l f chain).2.foldl
      (fun left x => binary x.1.name left (tree ls x.2)) (tree ls (split l f chain).1) := by
  rw [tree]
  cases l with
  | and => exact absurd rfl hand
  | pipe => exact absurd rfl hpipe
  | or | comparison | additive | multiplicative =>
      unfold Level.join
      rw [List.foldl_map]

/-- A level that groups to the left, and whose function does nothing else. -/
theorem Parses.level (l : Level) (ops : List Operator) {sub call : Nat → Call}
    {again : Nat → Form → Call} (hsub : Parses toks ls sub) (hl : l ∉ ls) (hand : l ≠ .and)
    (hpipe : l ≠ .pipe) (hops : ∀ op, op ∈ ops ↔ op.level = l)
    (hcall : ∀ n p, parseCall toks (run toks n) (call p) = (do let (left, q) ← run toks n (sub p); run toks n (again q left)))
    (hagain : ∀ n q left, parseCall toks (run toks n) (again q left) = parseInfix toks (run toks n) (ops.map Operator.entry) sub again stop q left) :
    Parses toks (l :: ls) call := by
  intro p q e f chain tail hf hchain htail hfits hs
  obtain ⟨q₁, hfirst, hs⟩ := hsub.first hl hf hchain htail hfits.2.1 hs
  obtain ⟨q', hrest, hs⟩ := hsub.rest again ops hl hops hagain (split_inner hchain).2 hfits.2.2 htail hs _
  refine ⟨q', .call ?_, hs⟩
  simp only [hcall, tree_left hand hpipe]
  exact .bind hfirst hrest

section Comparison

variable {segs : List (Operator × Chain)} {tail chain : List (Operator × Form)} {p q e : Nat} {f : Form}

end Comparison

/-- A comparison stands here that is not looked for after another. -/
def Stuck (toks : List Token) (q : Nat) : Prop :=
  ∃ op : Operator, (op = .le ∨ op = .ge) ∧ isOp toks q op.text = true

theorem Stuck.find_none (h : Stuck toks q) (ops : List Operator) (hle : .le ∉ ops) (hge : .ge ∉ ops) :
    ((ops.map Operator.entry).find? fun e => isOp toks q e.1) = none := by
  obtain ⟨op, hop, hat⟩ := h
  rw [find_entry hat, if_neg]
  rcases hop with rfl | rfl
  · exact hle
  · exact hge

section Sticks

variable {segs : List (Operator × Chain)} {chain : List (Operator × Form)} {p : Nat} {f : Form}

end Sticks

/-! ### Pipes -/

end TinyActor.Front
