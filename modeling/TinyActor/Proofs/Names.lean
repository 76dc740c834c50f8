/-
The names of a program: where a name is found, which names an expression uses and which of
them are free, and which functions a program has.

The scan for free variables drops repetitions at every level.  What it gives is the names
used, in order, that are visible around the function or stand for nothing, each at its first
use.
-/
import TinyActor.Bootstrap.Scope
import TinyActor.Lib.Distinct

namespace TinyActor.Bootstrap

open TinyActor.Lib
open TinyActor.Vm (Symbol)

/-! ### Names and their places -/

variable {bound outer params : List Symbol} {x y : Symbol} {g : Binds}

theorem mem_bindNames {b : Binds} : x ∈ bindNames b ↔ b.lookup x ≠ none := by
  induction b with
  | nil => simp [bindNames]
  | cons p rest ih =>
      obtain ⟨y, k⟩ := p
      by_cases hxy : x = y
      · subst hxy
        simp [bindNames]
      · have hbeq : (x == y) = false := by simpa using hxy
        simp only [bindNames, List.map_cons, List.mem_cons, hxy, false_or,
          List.lookup_cons, hbeq] at ih ⊢
        exact ih

theorem lookup_cons_of_ne (h : x ≠ y) (k : Nat) (b : Binds) :
    List.lookup x ((y, k) :: b) = List.lookup x b := by
  have hbeq : (x == y) = false := by simpa using h
  rw [List.lookup_cons, hbeq]

/-- The head of a call is a symbol or is treated as an expression. -/
theorem Expr.head_cases (callee : Expr) :
    (∃ x, callee = .sym x) ∨
      ∀ (α : Type) (name : Symbol → α) (other : α), callee.onHead name other = other := by
  cases callee with
  | sym x => exact .inl ⟨x, rfl⟩
  | const | lambda | letE | ifE | begin | call => exact .inr fun _ _ _ => rfl

theorem bindNames_paramBindings (params : List Symbol) (k : Nat) :
    bindNames (paramBindings params k) = params := by
  induction params generalizing k with
  | nil => rfl
  | cons p rest ih => exact congrArg (p :: ·) (ih (k + 1))

theorem bindNames_indexBindings (names : List Symbol) (i : Nat) :
    bindNames (indexBindings names i) = names := by
  induction names generalizing i with
  | nil => rfl
  | cons n rest ih => exact congrArg (n :: ·) (ih (i + 1))

theorem freeLoads_eq (env up : Binds) : ∀ fvs : List Symbol,
    freeLoads fvs env up = (fvs.map (freeLoad · env up)).intersperse .push
  | [] => rfl
  | [_] => rfl
  | x :: y :: rest => by
      simp only [freeLoads, freeLoads_eq env up (y :: rest)]
      rfl

/-! ### Repetitions -/

theorem uniq_eq_eraseDups (xs : List Symbol) : uniq xs = xs.eraseDups := by
  have hgo : ∀ ys acc, uniq.go ys acc = List.eraseDupsBy.loop (· == ·) ys acc := by
    intro ys
    induction ys with
    | nil => intro acc; rfl
    | cons y ys ih =>
        intro acc
        rw [uniq.go, List.eraseDupsBy.loop, ih, ih]
        cases hin : acc.any (y == ·) with
        | true => rw [if_pos (by simpa using hin)]
        | false =>
            have hno : y ∉ acc := fun hmem => Bool.false_ne_true (hin.symm.trans (by simpa using hmem))
            rw [if_neg hno]
  exact hgo xs []

/-! ### Names that are used -/

theorem mem_ite_singleton : (x ∈ if y ∈ bound then [] else [y]) ↔ x = y ∧ x ∉ bound := by
  by_cases hxy : x = y
  · subst hxy
    split <;> simp_all
  · split <;> simp [hxy]

mutual

/-- Binding more names around an expression leaves the other names it uses. -/
theorem mem_refs_append {x : Symbol} {l : List Symbol} :
    ∀ (e : Expr) (b : List Symbol), x ∈ refs e (b ++ l) ↔ x ∈ refs e b ∧ x ∉ l
  | .const _, _ => by simp [refs]
  | .sym y, b => by
      simp only [refs, mem_ite_singleton]
      simp only [List.mem_append]
      tauto
  | .lambda params body, b => by
      simp only [refs]
      rw [← List.append_assoc]
      exact mem_refs_append body (params ++ b)
  | .letE y init body, b => by
      simp only [refs, List.mem_append, mem_refs_append init b, ← List.cons_append,
        mem_refs_append body (y :: b)]
      tauto
  | .ifE cond yes no, b => by
      simp only [refs, List.mem_append, ← List.append_assoc, mem_refs_append cond b,
        mem_refs_append yes (introduced cond ++ b), mem_refs_append no (introduced cond ++ b)]
      tauto
  | .begin forms, b => by simp only [refs, mem_refsSeq_append forms b]
  | .call callee args, b => by
      simp only [refs, List.mem_append, ← List.append_assoc,
        mem_refsSeq_append args (introduced callee ++ b)]
      rcases callee.head_cases with ⟨y, hy⟩ | hh
      · subst hy
        simp only [Expr.onHead]
        by_cases ho : opName y = true
        · simp only [ho, Bool.true_or, if_true, List.not_mem_nil, false_or]
        · rw [Bool.not_eq_true] at ho
          simp only [ho, Bool.false_or, decide_eq_true_eq, ← List.mem_append, mem_ite_singleton]
          simp only [List.mem_append]
          tauto
      · simp only [hh, mem_refs_append callee b]
        tauto

theorem mem_refsSeq_append {x : Symbol} {l : List Symbol} :
    ∀ (es : List Expr) (b : List Symbol), x ∈ refsSeq es (b ++ l) ↔ x ∈ refsSeq es b ∧ x ∉ l
  | [], _ => by simp [refsSeq]
  | e :: es, b => by
      simp only [refsSeq, List.mem_append, ← List.append_assoc, mem_refs_append e b,
        mem_refsSeq_append es (introduced e ++ b)]
      tauto

end

/-! ### Names that are free -/

/-- A name that is not bound in a function is free there if it is visible around the function
or stands for nothing. -/
def freeHere (outer : List Symbol) (g : Binds) (x : Symbol) : Bool := x ∈ outer || !resolvable x g

theorem freeSym_eq (x : Symbol) (bound outer : List Symbol) (g : Binds) :
    freeSym x bound outer g = ((if x ∈ bound then [] else [x]).filter (freeHere outer g)).eraseDups := by
  unfold freeSym
  by_cases hb : x ∈ bound
  · rw [if_pos hb, if_pos hb]
    rfl
  · rw [if_neg hb, if_neg hb]
    by_cases ho : x ∈ outer
    · simp [freeHere, ho, List.eraseDups_cons]
    · cases hr : resolvable x g <;> simp [freeHere, ho, hr, List.eraseDups_cons]

mutual

/-- **The free names** are the names used that are free where they are used, each once, in the
order of their first use. -/
theorem freeVars_eq (outer : List Symbol) (g : Binds) :
    ∀ (e : Expr) (bound : List Symbol),
      freeVars e bound outer g = ((refs e bound).filter (freeHere outer g)).eraseDups
  | .const _, _ => rfl
  | .sym x, bound => freeSym_eq x bound outer g
  | .lambda params body, bound => freeVars_eq outer g body (params ++ bound)
  | .letE x init body, bound => by
      rw [freeVars, refs, uniq_eq_eraseDups, List.filter_append, freeVars_eq outer g init bound,
        freeVars_eq outer g body (x :: bound)]
      exact eraseDups_append_congr (eraseDups_eraseDups _) (eraseDups_eraseDups _)
  | .ifE cond yes no, bound => by
      rw [freeVars, refs, uniq_eq_eraseDups, List.filter_append, List.filter_append,
        freeVars_eq outer g cond bound, freeVars_eq outer g yes _, freeVars_eq outer g no _]
      exact eraseDups_append_congr (eraseDups_eraseDups _)
        (eraseDups_append_congr (eraseDups_eraseDups _) (eraseDups_eraseDups _))
  | .begin forms, bound => by
      rw [freeVars, refs, uniq_eq_eraseDups, freeSeq_eq outer g forms bound]
  | .call callee args, bound => by
      rw [freeVars, refs, uniq_eq_eraseDups, List.filter_append]
      refine eraseDups_append_congr ?_ (freeSeq_eq outer g args _)
      rcases callee.head_cases with ⟨x, hx⟩ | hh
      · subst hx
        simp only [Expr.onHead]
        by_cases ho : opName x = true
        · simp [ho]
        · rw [Bool.not_eq_true] at ho
          simp only [ho, Bool.false_eq_true, if_false, Bool.false_or, decide_eq_true_eq, freeSym_eq]
          exact eraseDups_eraseDups _
      · rw [hh, hh, freeVars_eq outer g callee bound]
        exact eraseDups_eraseDups _

theorem freeSeq_eq (outer : List Symbol) (g : Binds) :
    ∀ (es : List Expr) (bound : List Symbol),
      (freeSeq es bound outer g).eraseDups = ((refsSeq es bound).filter (freeHere outer g)).eraseDups
  | [], _ => rfl
  | e :: es, bound => by
      rw [freeSeq, refsSeq, List.filter_append, freeVars_eq outer g e bound]
      exact eraseDups_append_congr (eraseDups_eraseDups _) (freeSeq_eq outer g es _)

end

theorem mem_freeVars (e : Expr) (bound : List Symbol) :
    x ∈ freeVars e bound outer g ↔ x ∈ refs e bound ∧ (x ∈ outer ∨ resolvable x g = false) := by
  rw [freeVars_eq, List.mem_eraseDups, List.mem_filter]
  simp [freeHere]

theorem freeVars_nodup (e : Expr) (bound outer : List Symbol) (g : Binds) :
    (freeVars e bound outer g).Nodup := by
  rw [freeVars_eq]
  exact eraseDups_nodup _

/-- A name that is used and not bound is one of these or stands for something anyway. -/
def Reached (g : Binds) (used names : List Symbol) : Prop :=
  ∀ x ∈ used, x ∈ names ∨ resolvable x g = true

theorem Reached.mono {used used' names : List Symbol} (h : Reached g used names)
    (hsub : ∀ x ∈ used', x ∈ used) : Reached g used' names :=
  fun x hx => h x (hsub x hx)

/-- An expression without free names. -/
theorem reached_of_closed {e : Expr} {names : List Symbol}
    (h : (freeVars e bound outer g).isEmpty = true) : Reached g (refs e bound) names := by
  intro x hx
  right
  by_contra hres
  have hin : x ∈ freeVars e bound outer g :=
    (mem_freeVars e bound).mpr ⟨hx, .inr (by simpa using hres)⟩
  rw [List.isEmpty_iff.mp h] at hin
  cases hin

/-! ### Calls that are no calls -/

theorem operator_symbol {callee : Expr} {n : Nat} {op : Op} (h : operator callee n = some op) :
    ∃ x, callee = .sym x := by
  cases callee with
  | sym x => exact ⟨x, rfl⟩
  | const | lambda | letE | ifE | begin | call => cases h

theorem primitive_symbol {callee : Expr} {bid : Nat} (h : primitive callee = some bid) :
    ∃ x, callee = .sym x := by
  cases callee with
  | sym x => exact ⟨x, rfl⟩
  | const | lambda | letE | ifE | begin | call => cases h

/-- A head that is treated as an expression is no operator and no primitive. -/
theorem not_special {callee : Expr}
    (hh : ∀ (α : Type) (name : Symbol → α) (other : α), callee.onHead name other = other)
    (n : Nat) : operator callee n = none ∧ primitive callee = none := by
  have hname : ¬∃ x, callee = .sym x := by
    rintro ⟨x, rfl⟩
    exact Bool.false_ne_true (hh Bool (fun _ => true) false).symm
  exact ⟨Option.eq_none_iff_forall_ne_some.mpr fun _ h => hname (operator_symbol h),
    Option.eq_none_iff_forall_ne_some.mpr fun _ h => hname (primitive_symbol h)⟩

theorem spawnTarget_args {bid fid : Nat} {args : List Expr}
    (h : spawnTarget bid args g = some fid) : ∃ k, args = [.const k] := by
  unfold spawnTarget at h
  split at h
  · next name => exact ⟨.sym name, rfl⟩
  · cases h

/-! ### What the generator does to the names of the frame -/

mutual

/-- What a function captures does not change while its body is compiled. -/
theorem compileExpr_upvals (g : Binds) :
    ∀ (e : Expr) (c : Ctx) (tail : Bool), (compileExpr g e c tail).2.upvals = c.upvals
  | .const _, _, _ | .sym _, _, _ | .lambda _ _, _, _ => rfl
  | .letE x init body, c, tail => by
      simp only [compileExpr, compileExpr_upvals g body, compileExpr_upvals g init]
  | .ifE cond yes no, c, tail => by
      simp only [compileExpr, compileExpr_upvals g no, compileExpr_upvals g cond]
  | .begin forms, c, tail => compileBegin_upvals g forms c tail
  | .call callee args, c, tail => by
      have hhead : (callee.onHead (fun x => (compileHead x g c, c))
          (compileExpr g callee c false)).2.upvals = c.upvals := by
        rcases callee.head_cases with ⟨x, hx⟩ | hh
        · subst hx; rfl
        · rw [hh]; exact compileExpr_upvals g callee c false
      simp only [compileExpr]
      split
      · exact compileArgs_upvals g args c
      · split
        · split
          · rfl
          · exact compileArgs_upvals g args c
        · split
          · exact hhead
          · exact (compileArgs_upvals g args _).trans hhead

theorem compileBegin_upvals (g : Binds) :
    ∀ (es : List Expr) (c : Ctx) (tail : Bool), (compileBegin g es c tail).2.upvals = c.upvals
  | [], _, _ => rfl
  | [e], c, tail => compileExpr_upvals g e c tail
  | e :: e' :: es, c, tail => by
      simp only [compileBegin, compileBegin_upvals g (e' :: es), compileExpr_upvals g e]

theorem compileArgs_upvals (g : Binds) :
    ∀ (es : List Expr) (c : Ctx), (compileArgs g es c).2.upvals = c.upvals
  | [], _ => rfl
  | [e], c => compileExpr_upvals g e c false
  | e :: e' :: es, c => by
      simp only [compileArgs, compileArgs_upvals g (e' :: es), compileExpr_upvals g e]

end

mutual

/-- A name an expression does not add to the frame is found where it was. -/
theorem compileExpr_lookup (g : Binds) :
    ∀ (e : Expr) (c : Ctx) (tail : Bool), x ∉ frameNames e →
      (compileExpr g e c tail).2.locals.lookup x = c.locals.lookup x
  | .const _, _, _, _ | .sym _, _, _, _ | .lambda _ _, _, _, _ => rfl
  | .letE y init body, c, tail, h => by
      simp only [frameNames, List.mem_cons, List.mem_append, not_or] at h
      simp only [compileExpr]
      rw [compileExpr_lookup g body _ tail h.2.2, lookup_cons_of_ne h.1,
        compileExpr_lookup g init c false h.2.1]
  | .ifE cond yes no, c, tail, h => by
      simp only [frameNames, List.mem_append, not_or] at h
      simp only [compileExpr]
      rw [compileExpr_lookup g no _ tail h.2]
      exact compileExpr_lookup g cond c false h.1
  | .begin forms, c, tail, h => compileBegin_lookup g forms c tail h
  | .call callee args, c, tail, h => by
      simp only [frameNames, List.mem_append, not_or] at h
      have hhead : (callee.onHead (fun x => (compileHead x g c, c))
          (compileExpr g callee c false)).2.locals.lookup x = c.locals.lookup x := by
        rcases callee.head_cases with ⟨x, hx⟩ | hh
        · subst hx; rfl
        · rw [hh]; exact compileExpr_lookup g callee c false h.1
      simp only [compileExpr]
      split
      · exact compileArgs_lookup g args c h.2
      · split
        · split
          · rfl
          · exact compileArgs_lookup g args c h.2
        · split
          · exact hhead
          · exact (compileArgs_lookup g args _ h.2).trans hhead

theorem compileBegin_lookup (g : Binds) :
    ∀ (es : List Expr) (c : Ctx) (tail : Bool), x ∉ frameNamesSeq es →
      (compileBegin g es c tail).2.locals.lookup x = c.locals.lookup x
  | [], _, _, _ => rfl
  | [e], c, tail, h => by
      simp only [frameNamesSeq, List.append_nil] at h
      exact compileExpr_lookup g e c tail h
  | e :: e' :: es, c, tail, h => by
      rw [frameNamesSeq, List.mem_append, not_or] at h
      simp only [compileBegin]
      rw [compileBegin_lookup g (e' :: es) _ tail h.2, compileExpr_lookup g e c false h.1]

theorem compileArgs_lookup (g : Binds) :
    ∀ (es : List Expr) (c : Ctx), x ∉ frameNamesSeq es →
      (compileArgs g es c).2.locals.lookup x = c.locals.lookup x
  | [], _, _ => rfl
  | [e], c, h => by
      simp only [frameNamesSeq, List.append_nil] at h
      exact compileExpr_lookup g e c false h
  | e :: e' :: es, c, h => by
      rw [frameNamesSeq, List.mem_append, not_or] at h
      simp only [compileArgs]
      rw [compileArgs_lookup g (e' :: es) _ h.2, compileExpr_lookup g e c false h.1]

end

/-! ### Functions -/

theorem mem_insertFn {r fr : FnRec} {pool : List FnRec} :
    r ∈ insertFn fr pool ↔ r = fr ∨ r ∈ pool := by
  induction pool with
  | nil => simp [insertFn]
  | cons f rest ih =>
      rw [insertFn]
      split
      · simp
      · rw [List.mem_cons, ih, List.mem_cons]
        tauto

/-- An accepted program, by its parts. -/
theorem compile_out {prog : List Top} {fns : List FnBC} {consts : List Const}
    (h : compile prog = .out fns consts) :
    ∃ g nid, collectGlobals prog 1 [] = .ok (g, nid) ∧ checkNames prog [] g = none ∧
      flattenAll (programFns g nid prog) [] = (fns, consts) := by
  unfold compile at h
  split at h
  · cases h
  · next g nid hg =>
      split at h
      · cases h
      · next hn =>
          cases h
          exact ⟨g, nid, hg, hn, rfl⟩

end TinyActor.Bootstrap
