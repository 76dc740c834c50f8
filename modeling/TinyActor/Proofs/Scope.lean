/-
The code generator of the source resolves names by sequential scope, except where a
stray name is used or a captured variable with the name of a host function is
called.

The two generators are run side by side.  They agree on the slots, the function
numbers and the functions all along; the names of their frames differ, but only in
stray names, so a name that is not stray is found in the same slot by both.  What the
scan for free variables finds in an accepted program is what a function needs of the
variables visible where it stands.
-/
import TinyActor.Proofs.Names

namespace TinyActor.Bootstrap

open TinyActor.Vm (Symbol)

/-! ### The two generators side by side -/

variable {params : List Symbol} {x : Symbol} {g : Binds}

theorem paramBindings_eq_zipIdx (params : List Symbol) (k : Nat) :
    paramBindings params k = params.zipIdx k := by
  induction params generalizing k with
  | nil => rfl
  | cons p rest ih => rw [paramBindings, ih, List.zipIdx_cons]

/-- The index of a captured name is its place in the list. -/
theorem lookup_indexBindings_idxOf (names : List Symbol) (k : Nat) :
    (indexBindings names k).lookup x = if x ∈ names then some (k + names.idxOf x) else none := by
  induction names generalizing k with
  | nil => rfl
  | cons y rest ih =>
      by_cases hxy : x = y
      · subst hxy
        simp [indexBindings]
      · rw [indexBindings, lookup_cons_of_ne hxy, ih, List.idxOf_cons_ne _ fun h => hxy h.symm]
        simp only [List.mem_cons, hxy, false_or]
        rw [Nat.succ_add_eq_add_succ]

/-- The generators at the same point: the names of the source's frame differ from those in
scope in stray names only. -/
structure Agree (own outer around stray : List Symbol) (c : Ctx) (s : Scope) : Prop where
  nextSlot : c.nextSlot = s.nextSlot
  nextFnid : c.nextFnid = s.nextFnid
  fns : c.fns = s.fns
  upvals : c.upvals = indexBindings around 0
  closure : s.around = around
  lookup : ∀ x, x ∉ stray → c.locals.lookup x = s.own.lookup x
  own : ∀ x, x ∈ own ↔ x ∈ bindNames s.own
  outer : ∀ x ∈ around, x ∈ outer

namespace Agree

variable {own outer around stray : List Symbol} {c : Ctx} {s : Scope} {e : Expr}

theorem mem_locals (h : Agree own outer around stray c s) (hx : x ∉ stray) :
    x ∈ bindNames c.locals ↔ x ∈ own := by
  rw [h.own x, mem_bindNames, mem_bindNames, h.lookup x hx]

theorem ref (h : Agree own outer around stray c s) (hx : x ∉ stray) :
    compileRef x c = [s.read x] := by
  unfold compileRef Scope.read
  rw [h.lookup x hx, h.upvals, lookup_indexBindings_idxOf, h.closure]
  cases s.own.lookup x with
  | some slot => rfl
  | none =>
      by_cases hin : x ∈ around
      · simp only [hin, if_true, Nat.zero_add]
      · simp only [hin, if_false]

/-- The head of a call is found where any other use of the name would be. -/
theorem head (h : Agree own outer around stray c s) (hx : headClean g x own outer stray = true) :
    compileHead x g c = [s.read x] := by
  simp only [headClean, Bool.and_eq_true, decide_eq_true_eq, Bool.or_eq_true] at hx
  obtain ⟨hstray, hclean⟩ := hx
  unfold compileHead
  split
  · next hglob =>
      obtain ⟨hl, hg, hlib⟩ := hglob
      have hown : x ∉ own := by
        rw [← h.mem_locals hstray, mem_bindNames]
        exact fun hne => hne hl
      have hout : x ∉ around := by
        intro hin
        rcases hclean with ((hc | hc) | hc) | hc
        · exact hown hc
        · exact hc (h.outer x hin)
        · rw [hg] at hc; cases hc
        · rw [hlib] at hc; cases hc
      have hread : s.own.lookup x = none := (h.lookup x hstray).symm.trans hl
      simp only [Scope.read, hread, h.closure, hout, if_false]
  · exact h.ref hstray

/-- Where a function's names are looked for is where they are visible. -/
theorem visible (h : Agree own outer around stray c s) (hx : x ∉ stray) :
    x ∈ bindNames c.locals ++ bindNames c.upvals ↔ x ∈ s.own.map Prod.fst ∨ x ∈ s.around := by
  rw [List.mem_append, h.mem_locals hx, h.own x, h.upvals, bindNames_indexBindings, h.closure]
  rfl

/-- **The scan finds what the function needs.** -/
theorem captured (h : Agree own outer around stray c s)
    (hreach : Reached g (refs (.lambda params e) own) around)
    (hrefs : ∀ x ∈ refs e params, x ∉ stray) : captured params e g c = s.needs params e := by
  unfold Bootstrap.captured Scope.needs
  rw [freeVars_eq]
  refine congrArg List.eraseDups (List.filter_congr fun x hx => ?_)
  rw [Bool.eq_iff_iff, freeHere]
  simp only [Bool.or_eq_true, decide_eq_true_eq, Bool.not_eq_true']
  rw [h.visible (hrefs x hx), or_iff_left_iff_imp]
  intro hres
  by_cases hown : x ∈ own
  · exact .inl ((h.own x).mp hown)
  · rcases hreach x ((mem_refs_append e params).mpr ⟨hx, hown⟩) with hin | hr
    · exact .inr (h.closure ▸ hin)
    · rw [hres] at hr
      cases hr

/-- What a function needs is loaded where it stands. -/
theorem loads (h : Agree own outer around stray c s) (hrefs : ∀ x ∈ refs e params, x ∉ stray) :
    freeLoads (s.needs params e) c.locals c.upvals =
      ((s.needs params e).map s.read).intersperse .push := by
  rw [freeLoads_eq]
  refine congrArg (List.intersperse Ins.push) (List.map_congr_left fun x hx => ?_)
  obtain ⟨hused, hvis⟩ := List.mem_filter.mp (List.mem_eraseDups.mp hx)
  simp only [Bool.or_eq_true, decide_eq_true_eq] at hvis
  unfold freeLoad Scope.read
  rw [h.lookup x (hrefs x hused), h.upvals, lookup_indexBindings_idxOf, h.closure]
  cases hl : s.own.lookup x with
  | some slot => rfl
  | none =>
      have hin : x ∈ around := by
        rcases hvis with hown | hin
        · exact absurd hl (mem_bindNames.mp hown)
        · exact h.closure ▸ hin
      simp only [hin, if_true, Option.getD_some, Nat.zero_add]

/-- The names bound so far, in any order. -/
theorem reorder (h : Agree own outer around stray c s) {own' : List Symbol}
    (hown : ∀ x, x ∈ own' ↔ x ∈ own) : Agree own' outer around stray c s :=
  { h with own := fun x => (hown x).trans (h.own x) }

/-- The two bodies of a function start in agreement. -/
theorem body (h : Agree own outer around stray c s) {needs : List Symbol}
    (hneeds : ∀ x ∈ needs, x ∈ own ++ outer) :
    Agree params (own ++ outer) needs [] (bodyCtx params needs c) (s.inside params needs) := by
  refine ⟨rfl, h.nextFnid, h.fns, rfl, rfl, fun x _ => ?_, fun x => ?_, hneeds⟩
  · show (paramBindings params 1).lookup x = (params.zipIdx 1).lookup x
    rw [paramBindings_eq_zipIdx]
  · show x ∈ params ↔ x ∈ bindNames (params.zipIdx 1)
    rw [← paramBindings_eq_zipIdx, bindNames_paramBindings]

theorem needs_visible (h : Agree own outer around stray c s) :
    ∀ x ∈ s.needs params e, x ∈ own ++ outer := by
  intro x hx
  obtain ⟨-, hvis⟩ := List.mem_filter.mp (List.mem_eraseDups.mp hx)
  simp only [Bool.or_eq_true, decide_eq_true_eq] at hvis
  rcases hvis with hown | hin
  · exact List.mem_append_left _ ((h.own x).mpr hown)
  · exact List.mem_append_right _ (h.outer x (h.closure ▸ hin))

/-- The names a body uses are among those its function needs, or stand for something. -/
theorem reached (h : Agree own outer around stray c s)
    (hreach : Reached g (refs (.lambda params e) own) around) :
    Reached g (refs e params) (s.needs params e) := by
  intro x hx
  by_cases hvis : x ∈ s.own.map Prod.fst ∨ x ∈ s.around
  · left
    refine List.mem_eraseDups.mpr (List.mem_filter.mpr ⟨hx, ?_⟩)
    simpa only [Bool.or_eq_true, decide_eq_true_eq] using hvis
  · have hown : x ∉ own := fun hin => hvis (.inl ((h.own x).mp hin))
    rcases hreach x ((mem_refs_append e params).mpr ⟨hx, hown⟩) with hin | hr
    · exact absurd (.inr (h.closure ▸ hin)) hvis
    · exact .inr hr

/-- Closing a function keeps the agreement, and gives it the same number. -/
theorem close (h : Agree own outer around stray c s) {fvs : List Symbol} {name : Option Symbol}
    {fid : Option Nat} {r : List Ins × Ctx} {r' : List Ins × Scope} (hr : r.1 = r'.1)
    (hs : r.2.nextSlot = r'.2.nextSlot) (hn : r.2.nextFnid = r'.2.nextFnid)
    (hf : r.2.fns = r'.2.fns) :
    (closeLambda params fvs c name fid r).1 = freeLoads fvs c.locals c.upvals ++
        [.clos (s.close params name fid r').1 fvs.length] ∧
      Agree own outer around stray (closeLambda params fvs c name fid r).2
        (s.close params name fid r').2 := by
  refine ⟨?_, ⟨h.nextSlot, ?_, ?_, h.upvals, h.closure, h.lookup, h.own, h.outer⟩⟩
  · simp only [closeLambda, Scope.close, hn]
  · simp only [closeLambda, Scope.close, hn]
  · simp only [closeLambda, Scope.close, hr, hs, hn, hf]

/-- The body of a `let`: of the initialiser's names only the slots are left. -/
theorem letBody (h : Agree own outer around stray c s) (x : Symbol) {init : Expr}
    {o t : List Symbol}
    (hi : Agree o outer around t (compileExpr g init c false).2 (scopedExpr g init s false).2) :
    Agree (x :: own) outer around (strayLet x init stray)
      { (compileExpr g init c false).2 with
        locals := (x, (compileExpr g init c false).2.nextSlot) ::
          (compileExpr g init c false).2.locals
        nextSlot := (compileExpr g init c false).2.nextSlot + 1 }
      ((s.back (scopedExpr g init s false).2).bind x) := by
  refine ⟨?_, hi.nextFnid, hi.fns, hi.upvals, h.closure, fun y hy => ?_, fun y => ?_, hi.outer⟩
  · exact congrArg (· + 1) hi.nextSlot
  · simp only [Scope.bind, Scope.back]
    by_cases hyx : y = x
    · subst hyx
      simp only [List.lookup_cons_self, hi.nextSlot]
    · -- the initialiser's own names are stray, so this is a name it did not bind
      simp only [strayLet, List.mem_filter, List.mem_append, decide_eq_true_eq,
        hyx, not_false_eq_true, and_true, not_or, ne_eq] at hy
      rw [lookup_cons_of_ne hyx, lookup_cons_of_ne hyx,
        compileExpr_lookup g init c false hy.1, h.lookup y hy.2]
  · simp only [Scope.bind, Scope.back, bindNames, List.map_cons, List.mem_cons]
    rw [h.own y]
    rfl

/-- The second branch of a conditional starts with the names of the condition. -/
theorem secondBranch (h : Agree own outer around stray c s) {o t : List Symbol} {d : Ctx} {d' : Scope}
    (hd : Agree o outer around t d d') :
    Agree own outer around stray { d with locals := c.locals, upvals := c.upvals } (s.back d') :=
  ⟨hd.nextSlot, hd.nextFnid, hd.fns, h.upvals, h.closure, h.lookup, h.own, h.outer⟩

end Agree

/-- The generators give the same code and end in agreement. -/
def Same (own outer around stray : List Symbol) (r : List Ins × Ctx) (r' : List Ins × Scope) : Prop :=
  r.1 = r'.1 ∧ Agree own outer around stray r.2 r'.2

/-- A call, from its head and its arguments. -/
theorem Same.call {own own' outer around stray stray' : List Symbol} (args : List Expr) (i : Ins)
    {r1 r2 : List Ins × Ctx} {r1' r2' : List Ins × Scope} (h1 : Same own outer around stray r1 r1')
    (h2 : Same own' outer around stray' r2 r2') (hnil : args = [] → own' = own ∧ stray' = stray) :
    Same own' outer around stray'
      (if args.isEmpty = true then (r1.1 ++ [i], r1.2) else (r1.1 ++ .push :: (r2.1 ++ [i]), r2.2))
      (if args.isEmpty = true then (r1'.1 ++ [i], r1'.2)
        else (r1'.1 ++ .push :: (r2'.1 ++ [i]), r2'.2)) := by
  by_cases hempty : args.isEmpty = true
  · obtain ⟨rfl, rfl⟩ := hnil (List.isEmpty_iff.mp hempty)
    rw [if_pos hempty, if_pos hempty]
    exact ⟨congrArg (· ++ _) h1.1, h1.2⟩
  · rw [if_neg hempty, if_neg hempty]
    refine ⟨?_, h2.2⟩
    show _ ++ _ = _ ++ _
    rw [h1.1, h2.1]

mutual

theorem same_expr (g : Binds) :
    ∀ (e : Expr) (own outer around stray : List Symbol) (c : Ctx) (s : Scope) (tail : Bool),
      clean g e own outer stray = true → Reached g (refs e own) around →
      Agree own outer around stray c s →
      Same (introduced e ++ own) outer around (strayAfter e stray)
        (compileExpr g e c tail) (scopedExpr g e s tail)
  | .const x, own, outer, around, stray, c, s, tail, _, _, h => ⟨rfl, h⟩
  | .sym x, own, outer, around, stray, c, s, tail, hc, _, h => by
      have hx : x ∉ stray := by simpa [clean] using hc
      exact ⟨h.ref hx, h⟩
  | .lambda params body, own, outer, around, stray, c, s, tail, hc, hr, h => by
      simp only [clean, Bool.and_eq_true, List.all_eq_true, decide_eq_true_eq] at hc
      obtain ⟨hrefs, hbody⟩ := hc
      have ih := same_expr g body params (own ++ outer) (s.needs params body) [] _ _ true hbody
        (h.reached hr) (h.body h.needs_visible)
      simp only [compileExpr, scopedExpr]
      rw [h.captured hr hrefs, ← h.loads hrefs]
      exact h.close ih.1 ih.2.nextSlot ih.2.nextFnid ih.2.fns
  | .letE x init body, own, outer, around, stray, c, s, tail, hc, hr, h => by
      simp only [clean, Bool.and_eq_true] at hc
      have hi := same_expr g init own outer around stray c s false hc.1
        (hr.mono fun y hy => List.mem_append_left _ hy) h
      have hb := same_expr g body (x :: own) outer around (strayLet x init stray) _ _ tail hc.2
        (hr.mono fun y hy => List.mem_append_right _ hy) (h.letBody x hi.2)
      refine ⟨?_, hb.2.reorder fun y => ?_⟩
      · simp only [compileExpr, scopedExpr]
        rw [hi.1, hb.1, hi.2.nextSlot]
      · simp only [introduced, List.mem_append, List.mem_cons, List.cons_append]
        tauto
  | .ifE cond yes no, own, outer, around, stray, c, s, tail, hc, hr, h => by
      simp only [clean, Bool.and_eq_true] at hc
      obtain ⟨hcond, hyes, hno⟩ := hc
      have h1 := same_expr g cond own outer around stray c s false hcond
        (hr.mono fun y hy => List.mem_append_left _ hy) h
      have h2 := same_expr g yes _ outer around _ _ _ tail hyes
        (hr.mono fun y hy => List.mem_append_right _ (List.mem_append_left _ hy)) h1.2
      have h3 := same_expr g no _ outer around _ _ _ tail hno
        (hr.mono fun y hy => List.mem_append_right _ (List.mem_append_right _ hy))
        (h1.2.secondBranch h2.2)
      refine ⟨?_, ⟨h3.2.nextSlot, h3.2.nextFnid, h3.2.fns, h3.2.upvals, h1.2.closure,
        fun y hy => ?_, h1.2.own, h3.2.outer⟩⟩
      · simp only [compileExpr, scopedExpr]
        rw [h1.1, h2.1, h3.1]
      · simp only [strayAfter, List.mem_append, not_or] at hy
        simp only [compileExpr, scopedExpr]
        rw [compileExpr_lookup g no _ tail hy.1]
        exact h1.2.lookup y hy.2
  | .begin forms, own, outer, around, stray, c, s, tail, hc, hr, h =>
      same_begin g forms own outer around stray c s tail hc hr h
  | .call callee args, own, outer, around, stray, c, s, tail, hc, hr, h => by
      simp only [clean, Bool.and_eq_true] at hc
      obtain ⟨hhead, hargs⟩ := hc
      have hrargs : Reached g (refsSeq args (introduced callee ++ own)) around :=
        hr.mono fun y hy => by simp only [refs]; exact List.mem_append_right _ hy
      -- an operator or a primitive is compiled by its arguments alone
      have hsymbol : (∃ x, callee = .sym x) →
          Same (introduced (.call callee args) ++ own) outer around
            (strayAfter (.call callee args) stray) (compileArgs g args c) (scopedArgs g args s) := by
        rintro ⟨x, rfl⟩
        exact same_args g args own outer around stray c s hargs hrargs h
      simp only [compileExpr, scopedExpr]
      cases hop : operator callee args.length with
      | some op =>
          have hs := hsymbol (operator_symbol hop)
          exact ⟨congrArg (· ++ _) hs.1, hs.2⟩
      | none =>
          cases hprim : primitive callee with
          | some bid =>
              have hs := hsymbol (primitive_symbol hprim)
              dsimp only
              cases hsp : spawnTarget bid args g with
              | some fid =>
                  obtain ⟨k, rfl⟩ := spawnTarget_args hsp
                  obtain ⟨x, rfl⟩ := primitive_symbol hprim
                  exact ⟨rfl, h⟩
              | none => exact ⟨congrArg (· ++ _) hs.1, hs.2⟩
          | none =>
              have h1 : Same (introduced callee ++ own) outer around (strayAfter callee stray)
                  (callee.onHead (fun x => (compileHead x g c, c)) (compileExpr g callee c false))
                  (scopedExpr g callee s false) := by
                rcases callee.head_cases with ⟨x, hx⟩ | hh
                · subst hx
                  have hnb : isBuiltin x = false := by
                    have hp : builtinId x = none := hprim
                    simp [isBuiltin, hp]
                  have hcl : headClean g x own outer stray = true := by
                    simpa [Expr.onHead, hop, hnb] using hhead
                  exact ⟨h.head hcl, h⟩
                · rw [hh] at hhead ⊢
                  refine same_expr g callee own outer around stray c s false hhead ?_ h
                  exact hr.mono fun y hy => by simp only [refs, hh]; exact List.mem_append_left _ hy
              have h2 := same_args g args _ outer around _ _ _ hargs hrargs h1.2
              have hcall := h1.call args (callIns tail (args.length + 1)) h2
                (by rintro rfl; exact ⟨rfl, rfl⟩)
              refine ⟨hcall.1, hcall.2.reorder fun y => ?_⟩
              simp only [introduced, List.mem_append]
              tauto

theorem same_begin (g : Binds) :
    ∀ (es : List Expr) (own outer around stray : List Symbol) (c : Ctx) (s : Scope) (tail : Bool),
      cleanSeq g es own outer stray = true → Reached g (refsSeq es own) around →
      Agree own outer around stray c s →
      Same (introducedSeq es ++ own) outer around (strayAfterSeq es stray)
        (compileBegin g es c tail) (scopedBegin g es s tail)
  | [], own, outer, around, stray, c, s, tail, _, _, h => ⟨rfl, h⟩
  | [e], own, outer, around, stray, c, s, tail, hc, hr, h => by
      simp only [cleanSeq, Bool.and_true] at hc
      have he := same_expr g e own outer around stray c s tail hc
        (hr.mono fun y hy => List.mem_append_left _ hy) h
      refine ⟨he.1, he.2.reorder fun y => ?_⟩
      simp [introducedSeq]
  | e :: e' :: es, own, outer, around, stray, c, s, tail, hc, hr, h => by
      rw [cleanSeq, Bool.and_eq_true] at hc
      have he := same_expr g e own outer around stray c s false hc.1
        (hr.mono fun y hy => List.mem_append_left _ hy) h
      have hes := same_begin g (e' :: es) _ outer around _ _ _ tail hc.2
        (hr.mono fun y hy => List.mem_append_right _ hy) he.2
      refine ⟨?_, hes.2.reorder fun y => ?_⟩
      · simp only [compileBegin, scopedBegin]
        rw [he.1, hes.1]
      · rw [introducedSeq]
        simp only [List.mem_append]
        tauto

theorem same_args (g : Binds) :
    ∀ (es : List Expr) (own outer around stray : List Symbol) (c : Ctx) (s : Scope),
      cleanSeq g es own outer stray = true → Reached g (refsSeq es own) around →
      Agree own outer around stray c s →
      Same (introducedSeq es ++ own) outer around (strayAfterSeq es stray)
        (compileArgs g es c) (scopedArgs g es s)
  | [], own, outer, around, stray, c, s, _, _, h => ⟨rfl, h⟩
  | [e], own, outer, around, stray, c, s, hc, hr, h => by
      simp only [cleanSeq, Bool.and_true] at hc
      have he := same_expr g e own outer around stray c s false hc
        (hr.mono fun y hy => List.mem_append_left _ hy) h
      refine ⟨he.1, he.2.reorder fun y => ?_⟩
      simp [introducedSeq]
  | e :: e' :: es, own, outer, around, stray, c, s, hc, hr, h => by
      rw [cleanSeq, Bool.and_eq_true] at hc
      have he := same_expr g e own outer around stray c s false hc.1
        (hr.mono fun y hy => List.mem_append_left _ hy) h
      have hes := same_args g (e' :: es) _ outer around _ _ _ hc.2
        (hr.mono fun y hy => List.mem_append_right _ hy) he.2
      refine ⟨?_, hes.2.reorder fun y => ?_⟩
      · simp only [compileArgs, scopedArgs]
        rw [he.1, hes.1]
      · rw [introducedSeq]
        simp only [List.mem_append]
        tauto

end

theorem same_program (g : Binds) (prog : List Top) (own stray : List Symbol) (c : Ctx) (s : Scope)
    (hnames : checkNames prog own g = none) (hc : cleanTops g prog own stray = true)
    (h : Agree own [] [] stray c s) :
    (compileProgram g prog c).1 = (scopedProgram g prog s).1 ∧
      (compileProgram g prog c).2.nextSlot = (scopedProgram g prog s).2.nextSlot ∧
      (compileProgram g prog c).2.fns = (scopedProgram g prog s).2.fns := by
  induction prog generalizing own stray c s with
  | nil => exact ⟨rfl, h.nextSlot, h.fns⟩
  | cons top rest ih =>
      cases top with
      | expr e =>
          simp only [cleanTops, Bool.and_eq_true] at hc
          simp only [checkNames] at hnames
          split at hnames
          · next hfv =>
              have he := same_expr g e own [] [] stray c s false hc.1 (reached_of_closed hfv) h
              obtain ⟨hcode, hslot, hfns⟩ := ih _ _ _ _ hnames hc.2 he.2
              simp only [compileProgram, scopedProgram]
              rw [he.1, hcode]
              exact ⟨rfl, hslot, hfns⟩
          · cases hnames
      | define name value =>
          cases value with
          | lambda params body =>
              simp only [cleanTops, Bool.and_eq_true, List.all_eq_true, decide_eq_true_eq] at hc
              obtain ⟨⟨hrefs, hbody⟩, hrest⟩ := hc
              simp only [checkNames] at hnames
              split at hnames
              · next hfv =>
                  -- no name bound at the top level is used, and any other stands for something
                  have hnone : captured params body g c = [] := by
                    rw [← List.isEmpty_iff.mp hfv, captured, freeVars_eq, freeVars_eq]
                    refine congrArg List.eraseDups (List.filter_congr fun x hx => ?_)
                    rw [freeHere, freeHere, Bool.eq_iff_iff]
                    simp only [Bool.or_eq_true, decide_eq_true_eq, List.mem_append,
                      h.mem_locals (hrefs x hx), h.upvals]
                    simp [indexBindings, bindNames]
                  have hctx : Agree params (own ++ []) [] [] (bodyCtx params [] c) (s.inside params []) :=
                    h.body fun x hx => absurd hx List.not_mem_nil
                  rw [List.append_nil] at hctx
                  have hb := same_expr g body params own [] [] _ _ true hbody
                    (reached_of_closed hfv) hctx
                  simp only [compileProgram, scopedProgram, hnone]
                  exact ih _ _ _ _ hnames hrest
                    (h.close hb.1 hb.2.nextSlot hb.2.nextFnid hb.2.fns).2
              · cases hnames
          | const | sym | letE | ifE | begin | call => cases hnames

/-- On an accepted program that uses no stray name the generator of the source compiles the
functions scope asks for. -/
theorem programFns_eq_scopedFns (nid : Nat) {prog : List Top} (hnames : checkNames prog [] g = none)
    (hc : cleanTops g prog [] [] = true) : programFns g nid prog = scopedFns g nid prog := by
  have h0 : Agree [] [] [] [] ⟨[], [], 4, nid, []⟩ ⟨[], [], 4, nid, []⟩ :=
    ⟨rfl, rfl, rfl, rfl, rfl, fun _ _ => rfl, fun _ => Iff.rfl, fun _ hx => absurd hx List.not_mem_nil⟩
  obtain ⟨hcode, hslot, hfns⟩ := same_program g prog [] [] _ _ hnames hc h0
  simp only [programFns, scopedFns, hcode, hslot, hfns]

/-- **Names are resolved by sequential scope.**  On a program in which no name is used
after the initialiser or the second branch that bound it last, and no captured
variable that is called has the name of a host function, the compiler gives exactly
what it would give if every use of a name, in the head of a call or anywhere else,
were looked up among the binders in scope there: those whose scope, being sequential,
has begun and not ended, the latest first, then those around the function, and only
then the globals. -/
theorem compile_resolves_sequentially (prog : List Top) (hc : cleanProgram prog = true) :
    compile prog = scopedCompile prog := by
  unfold compile scopedCompile
  unfold cleanProgram at hc
  cases hg : collectGlobals prog 1 [] with
  | error msg => rfl
  | ok p =>
      obtain ⟨g, nid⟩ := p
      rw [hg] at hc
      dsimp only
      cases hnames : checkNames prog [] g with
      | some msg => rfl
      | none => simp only [programFns_eq_scopedFns nid hnames hc]

/-- A function whose initialiser and branches bind names that are never used again,
and that calls a variable it captures. -/
def scopedExample : List Top :=
  [.define "f" (.lambda ["x", "k"]
    (.letE "y" (.letE "z" (.sym "x") (.sym "z"))
      (.begin [.ifE (.sym "y") (.letE "w" (.sym "x") (.sym "w")) (.letE "v" (.sym "y") (.sym "v")),
        .lambda ["w"] (.call (.sym "k") [.sym "w", .letE "u" (.sym "y") (.sym "u"), .sym "u"])]))),
   .expr (.call (.sym "f") [.const (.int 1), .sym "f"])]

theorem compile_resolves_sequentially_example :
    cleanProgram scopedExample = true ∧ compile scopedExample = scopedCompile scopedExample :=
  ⟨by decide, compile_resolves_sequentially scopedExample (by decide)⟩

/-- `print(let x = 1 in x, x)`: the second `x` is not inside the `let`, and is read from
the slot the `let` filled. -/
theorem compile_argument_let_visible :
    compile [.expr (.call (.sym "print") [.letE "x" (.const (.int 1)) (.sym "x"), .sym "x"])] =
        .out [⟨none, 0, 11, [27, 1, 31, 0, 37, 1, 2, 4, 29, 4, 1, 4, 22, 3, 24, 0]⟩]
          [.sym "print"] ∧
      (programFns [] 1
        [.expr (.call (.sym "print") [.letE "x" (.const (.int 1)) (.sym "x"), .sym "x"])]).map
          FnRec.code =
        [[.reserve 1, .glob "print", .push, .constI 1, .store 4, .load 4, .push, .load 4, .call 3,
          .ret 0]] :=
  ⟨by decide, rfl⟩

end TinyActor.Bootstrap
