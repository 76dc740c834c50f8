/-
What a closure captures and what its code loads.

The free-variable scan and the code generator walk the same expression with two ideas
of which names are in scope: the scan goes by `introduced`, the generator by the
names it has put into the frame.  The frame gets more: the names of an initialiser
and of a second branch stay in it.  So the names after an expression are those before
it, those it introduces, and those.

What a function loads follows from the names in its frame: `taken`.  It captures more than
that where a name in its frame, or a host function or an actor primitive of that name, is
found before the captured variable.  A program in which no function does, and no define finds
a name in the frame of the top level, is one in which the two agree, and there is no other.
-/
import Mathlib.Data.List.Nodup
import TinyActor.Bootstrap.Closures
import TinyActor.Proofs.Scope

namespace TinyActor.Bootstrap

open TinyActor.Vm (Symbol)

/-! ### The names of the frame -/

mutual

/-- After an expression the frame has the names from before and those of
`frameNames`. -/
theorem compileExpr_names (g : Binds) (x : Symbol) :
    ∀ (e : Expr) (c : Ctx) (tail : Bool),
      x ∈ bindNames (compileExpr g e c tail).2.locals ↔
        x ∈ frameNames e ∨ x ∈ bindNames c.locals
  | .const _, _, _ | .sym _, _, _ | .lambda _ _, _, _ => by
      simp [compileExpr, frameNames, closeLambda]
  | .letE y init body, c, tail => by
      simp only [compileExpr, frameNames]
      rw [compileExpr_names g x body]
      have hi := compileExpr_names g x init c false
      simp only [bindNames, List.map_cons, List.mem_cons, List.mem_append] at hi ⊢
      rw [hi]
      tauto
  | .ifE cond yes no, c, tail => by
      simp only [compileExpr, frameNames]
      rw [compileExpr_names g x no]
      have hc := compileExpr_names g x cond c false
      simp only [List.mem_append, hc]
      tauto
  | .begin forms, c, tail => compileBegin_names g x forms c tail
  | .call callee args, c, tail => by
      have hhead : x ∈ bindNames (callee.onHead (fun y => (compileHead y g c, c))
          (compileExpr g callee c false)).2.locals ↔
            x ∈ frameNames callee ∨ x ∈ bindNames c.locals := by
        rcases callee.head_cases with ⟨y, hy⟩ | hh
        · subst hy; simp [Expr.onHead, frameNames]
        · rw [hh]; exact compileExpr_names g x callee c false
      have hsymbol : (∃ y, callee = .sym y) →
          (x ∈ bindNames (compileArgs g args c).2.locals ↔
            x ∈ frameNames callee ++ frameNamesSeq args ∨ x ∈ bindNames c.locals) := by
        rintro ⟨y, rfl⟩
        simpa [frameNames] using compileArgs_names g x args c
      simp only [compileExpr, frameNames]
      split
      · next hop => exact hsymbol (operator_symbol hop)
      · split
        · next hprim =>
            split
            · next hsp =>
                obtain ⟨k, hk⟩ := spawnTarget_args hsp
                subst hk
                exact hsymbol (primitive_symbol hprim)
            · exact hsymbol (primitive_symbol hprim)
        · split
          · next hempty =>
              have hnil : args = [] := List.isEmpty_iff.mp hempty
              subst hnil
              simpa [frameNamesSeq] using hhead
          · rw [compileArgs_names g x args, hhead, List.mem_append]
            tauto

theorem compileBegin_names (g : Binds) (x : Symbol) :
    ∀ (es : List Expr) (c : Ctx) (tail : Bool),
      x ∈ bindNames (compileBegin g es c tail).2.locals ↔
        x ∈ frameNamesSeq es ∨ x ∈ bindNames c.locals
  | [], _, _ => by simp [compileBegin, frameNamesSeq]
  | [e], c, tail => by
      simp only [compileBegin, frameNamesSeq, List.append_nil]
      exact compileExpr_names g x e c tail
  | e :: e' :: es, c, tail => by
      simp only [compileBegin]
      rw [compileBegin_names g x (e' :: es), compileExpr_names g x e]
      simp only [frameNamesSeq, List.mem_append]
      tauto

theorem compileArgs_names (g : Binds) (x : Symbol) :
    ∀ (es : List Expr) (c : Ctx),
      x ∈ bindNames (compileArgs g es c).2.locals ↔
        x ∈ frameNamesSeq es ∨ x ∈ bindNames c.locals
  | [], _ => by simp [compileArgs, frameNamesSeq]
  | [e], c => by
      simp only [compileArgs, frameNamesSeq, List.append_nil]
      exact compileExpr_names g x e c false
  | e :: e' :: es, c => by
      simp only [compileArgs]
      rw [compileArgs_names g x (e' :: es), compileExpr_names g x e]
      simp only [frameNamesSeq, List.mem_append]
      tauto

end

variable {args : List Expr} {x : Symbol} {g : Binds} {s : Site}

mutual

/-- What an expression introduces stays in the frame. -/
theorem mem_frameNames_of_introduced :
    ∀ (e : Expr), x ∈ introduced e → x ∈ frameNames e
  | .const _, h | .sym _, h | .lambda _ _, h => by simp [introduced] at h
  | .letE y init body, h => by
      simp only [introduced, List.mem_cons] at h
      simp only [frameNames, List.mem_cons, List.mem_append]
      exact h.imp_right fun hb => .inr (mem_frameNames_of_introduced body hb)
  | .ifE cond _ no, h => by
      simp only [frameNames, List.mem_append]
      exact .inl (mem_frameNames_of_introduced cond h)
  | .begin forms, h => mem_frameNamesSeq_of_introduced forms h
  | .call callee args, h => by
      simp only [introduced, List.mem_append] at h
      simp only [frameNames, List.mem_append]
      exact h.imp (mem_frameNames_of_introduced callee) (mem_frameNamesSeq_of_introduced args)

theorem mem_frameNamesSeq_of_introduced :
    ∀ (es : List Expr), x ∈ introducedSeq es → x ∈ frameNamesSeq es
  | [], h => h
  | e :: es, h => by
      simp only [introducedSeq, List.mem_append] at h
      simp only [frameNamesSeq, List.mem_append]
      exact h.imp (mem_frameNames_of_introduced e) (mem_frameNamesSeq_of_introduced es)

end

/-! ### Captured names -/

theorem lookup_indexBindings {fvs : List Symbol} (hnodup : fvs.Nodup) :
    ∀ (k : Nat) {x : Symbol} {i : Nat},
      (indexBindings fvs k).lookup x = some i ↔ ∃ j, fvs[j]? = some x ∧ i = k + j := by
  induction fvs with
  | nil => intro k x i; simp [indexBindings]
  | cons y ys ih =>
      intro k x i
      obtain ⟨hy, hys⟩ := List.nodup_cons.mp hnodup
      by_cases hxy : x = y
      · subst hxy
        simp only [indexBindings, List.lookup_cons_self, Option.some.injEq]
        constructor
        · rintro rfl
          exact ⟨0, rfl, rfl⟩
        · rintro ⟨j, hj, rfl⟩
          cases j with
          | zero => rfl
          | succ j => exact absurd (List.mem_of_getElem? (show ys[j]? = some x from hj)) hy
      · rw [indexBindings, lookup_cons_of_ne hxy, ih hys (k + 1)]
        constructor
        · rintro ⟨j, hj, rfl⟩
          exact ⟨j + 1, hj, by omega⟩
        · rintro ⟨j, hj, rfl⟩
          cases j with
          | zero => exact absurd (Option.some.inj hj).symm hxy
          | succ j => exact ⟨j, hj, by omega⟩

/-! ### Loads in pieces of code -/

theorem upvalLoads_append (a b : List Ins) : upvalLoads (a ++ b) = upvalLoads a ++ upvalLoads b := by
  induction a with
  | nil => rfl
  | cons i a ih => simp only [List.cons_append, upvalLoads, ih, List.append_assoc]

/-- A piece of code loads just the captured values that the names in `used` stand for. -/
def Loads (used : List Symbol) (up : Binds) (code : List Ins) : Prop :=
  ∀ i, i ∈ upvalLoads code ↔ ∃ x ∈ used, up.lookup x = some i

namespace Loads

variable {used used' : List Symbol} {up : Binds} {a b : List Ins}

theorem of_no_loads (h : upvalLoads a = []) : Loads [] up a := by
  intro i
  simp [h]

theorem append (ha : Loads used up a) (hb : Loads used' up b) : Loads (used ++ used') up (a ++ b) := by
  intro i
  rw [upvalLoads_append, List.mem_append, ha i, hb i]
  simp only [List.mem_append, or_and_right, exists_or]

theorem congr {up' : Binds} (h : Loads used up a) (hup : up = up') : Loads used up' a := hup ▸ h

/-- Code around an instruction that loads no captured value. -/
theorem around {i : Ins} (hi : i.upvalLoads = []) (ha : Loads used up a) (hb : Loads used' up b) :
    Loads (used ++ used') up (a ++ i :: b) := by
  have hone : Loads [] up [i] := of_no_loads (by simp [upvalLoads, hi])
  exact ha.append (hone.append hb)

theorem snoc {i : Ins} (hi : i.upvalLoads = []) (ha : Loads used up a) :
    Loads used up (a ++ [i]) := by
  have hnil : Loads [] up [] := of_no_loads rfl
  have h := ha.around hi hnil
  rwa [List.append_nil] at h

theorem ifE {u v w : List Symbol} {cond yes no : List Ins} (hc : Loads u up cond)
    (hy : Loads v up yes) (hn : Loads w up no) : Loads (u ++ (v ++ w)) up [.ifE cond yes no] := by
  have hloads : upvalLoads [.ifE cond yes no] = upvalLoads (cond ++ (yes ++ no)) := by
    simp only [upvalLoads, Ins.upvalLoads, upvalLoads_append, List.append_nil]
  intro i
  rw [hloads]
  exact hc.append (hy.append hn) i

/-- A call, from its head and its arguments. -/
theorem call {i : Ins} {r r' : List Ins × Ctx} (hi : i.upvalLoads = []) (hf : Loads used up r.1)
    (ha : Loads used' up r'.1) (hnil : args = [] → used' = []) :
    Loads (used ++ used') up (if args.isEmpty = true then (r.1 ++ [i], r.2)
      else (r.1 ++ .push :: (r'.1 ++ [i]), r'.2)).1 := by
  by_cases hempty : args.isEmpty = true
  · rw [if_pos hempty, hnil (List.isEmpty_iff.mp hempty), List.append_nil]
    exact hf.snoc hi
  · rw [if_neg hempty]
    exact hf.around rfl (ha.snoc hi)

end Loads

theorem upvalLoads_callIns (tail : Bool) (n : Nat) : (callIns tail n).upvalLoads = [] := by
  cases tail <;> rfl

theorem loads_constIns (k : Const) (up : Binds) : Loads [] up (constIns k) := by
  cases k <;> exact .of_no_loads rfl

theorem loads_freeLoad {env up : Binds} (hvis : env.lookup x ≠ none ∨ up.lookup x ≠ none) :
    Loads ([x].filter fun y => env.lookup y = none) up [freeLoad x env up] := by
  intro i
  unfold freeLoad
  cases hl : env.lookup x with
  | some s => simp [upvalLoads, Ins.upvalLoads, hl]
  | none =>
      obtain ⟨j, hj⟩ := Option.ne_none_iff_exists'.mp (hvis.resolve_left fun hne => hne hl)
      have hone : [x].filter (fun y => env.lookup y = none) = [x] := by simp [hl]
      rw [hone]
      simp only [upvalLoads, Ins.upvalLoads, hj, Option.getD_some, List.append_nil, List.mem_singleton,
        exists_eq_left, Option.some.injEq]
      exact eq_comm

/-- The values of a closure, loaded in the frame that makes it. -/
theorem loads_freeLoads {env up : Binds} :
    ∀ {fvs : List Symbol}, (∀ x ∈ fvs, env.lookup x ≠ none ∨ up.lookup x ≠ none) →
      Loads (fvs.filter fun y => env.lookup y = none) up (freeLoads fvs env up)
  | [], _ => .of_no_loads rfl
  | [x], hvis => loads_freeLoad (hvis x (List.mem_singleton_self x))
  | x :: y :: rest, hvis => by
      have hx := loads_freeLoad (hvis x (List.mem_cons_self ..))
      have hrest : Loads _ up (freeLoads (y :: rest) env up) :=
        loads_freeLoads fun z hz => hvis z (List.mem_cons_of_mem _ hz)
      have h := hx.around (i := .push) rfl hrest
      rwa [← List.filter_append] at h

/-! ### Loads in compiled expressions -/

/-- The names known of a context: those of its frame, of which `own` are in scope, and those
captured. -/
structure Knows (own frame up : List Symbol) (c : Ctx) : Prop where
  own : ∀ x ∈ own, x ∈ frame
  frame : ∀ x, x ∈ frame ↔ x ∈ bindNames c.locals
  up : ∀ x, x ∈ up ↔ x ∈ bindNames c.upvals

namespace Knows

variable {own frame up params : List Symbol} {c : Ctx} {e body : Expr}

theorem after (h : Knows own frame up c) (e : Expr) (tail : Bool) :
    Knows (introduced e ++ own) (frameNames e ++ frame) up (compileExpr g e c tail).2 := by
  refine ⟨fun x hx => ?_, fun x => ?_, fun x => ?_⟩
  · rcases List.mem_append.mp hx with hx | hx
    · exact List.mem_append_left _ (mem_frameNames_of_introduced e hx)
    · exact List.mem_append_right _ (h.own x hx)
  · rw [compileExpr_names, List.mem_append, h.frame]
  · rw [compileExpr_upvals, h.up]

theorem letBody (h : Knows own frame up c) (y : Symbol) (init : Expr) (slot next : Nat) :
    Knows (y :: own) (y :: (frameNames init ++ frame)) up
      { (compileExpr g init c false).2 with
        locals := (y, slot) :: (compileExpr g init c false).2.locals
        nextSlot := next } := by
  have hi := h.after (g := g) init false
  refine ⟨fun x hx => ?_, fun x => ?_, hi.up⟩
  · rcases List.mem_cons.mp hx with rfl | hx
    · exact List.mem_cons_self
    · exact List.mem_cons_of_mem _ (List.mem_append_right _ (h.own x hx))
  · have := hi.frame x
    simp only [bindNames, List.map_cons, List.mem_cons] at this ⊢
    rw [this]

/-- What a lambda captures is visible where it stands. -/
theorem captured_visible (h : Knows own frame up c)
    (hreach : Reached g (refs (.lambda params body) own) up) :
    ∀ x ∈ captured params body g c, c.locals.lookup x ≠ none ∨ c.upvals.lookup x ≠ none := by
  intro x hx
  obtain ⟨hused, hout⟩ := (mem_freeVars body params).mp hx
  rcases hout with hvis | hres
  · simpa [mem_bindNames] using hvis
  · by_cases hown : x ∈ own
    · exact .inl (mem_bindNames.mp ((h.frame x).mp (h.own x hown)))
    · right
      have hin : x ∈ refs (.lambda params body) own := (mem_refs_append body params).mpr ⟨hused, hown⟩
      rcases hreach x hin with hup | hr
      · exact mem_bindNames.mp ((h.up x).mp hup)
      · rw [hres] at hr
        cases hr

/-- What a lambda captures, told from the names alone. -/
theorem mem_captured (h : Knows own frame up c)
    (hvis : ∀ x ∈ captured params body g c, c.locals.lookup x ≠ none ∨ c.upvals.lookup x ≠ none) :
    x ∈ captured params body g c ↔ x ∈ caught params body frame up := by
  have houter : x ∈ bindNames c.locals ++ bindNames c.upvals ↔ x ∈ frame ∨ x ∈ up := by
    rw [List.mem_append, h.frame, h.up]
  simp only [caught, List.mem_filter, Bool.or_eq_true, decide_eq_true_eq]
  rw [← houter]
  refine ⟨fun hx => ⟨((mem_freeVars body params).mp hx).1, ?_⟩, fun hx => ?_⟩
  · simpa [mem_bindNames] using hvis x hx
  · exact (mem_freeVars body params).mpr ⟨hx.1, .inl hx.2⟩

theorem inside (h : Knows own frame up c)
    (hvis : ∀ x ∈ captured params body g c, c.locals.lookup x ≠ none ∨ c.upvals.lookup x ≠ none) :
    Knows params params (caught params body frame up) (bodyCtx params (captured params body g c) c) := by
  refine ⟨fun x hx => hx, fun x => ?_, fun x => ?_⟩
  · rw [show (bodyCtx params (captured params body g c) c).locals = paramBindings params 1 from rfl,
      bindNames_paramBindings]
  · rw [show (bodyCtx params (captured params body g c) c).upvals =
      indexBindings (captured params body g c) 0 from rfl, bindNames_indexBindings, h.mem_captured hvis]

/-- A variable of the frame is not loaded from the captured values, any other that is
captured is. -/
theorem loads_ref (h : Knows own frame up c) (x : Symbol) :
    Loads (if x ∈ frame then [] else [x]) c.upvals (compileRef x c) := by
  intro i
  unfold compileRef
  cases hl : c.locals.lookup x with
  | some s =>
      have hin : x ∈ frame := (h.frame x).mpr (mem_bindNames.mpr (by rw [hl]; exact Option.some_ne_none _))
      simp [hin, upvalLoads, Ins.upvalLoads]
  | none =>
      have hout : x ∉ frame := fun hin => mem_bindNames.mp ((h.frame x).mp hin) hl
      cases hu : c.upvals.lookup x with
      | some j =>
          simp only [hout, if_false, upvalLoads, Ins.upvalLoads, List.append_nil, List.mem_singleton,
            exists_eq_left, hu, Option.some.injEq]
          exact eq_comm
      | none => simp [hout, upvalLoads, Ins.upvalLoads, hu]

theorem loads_head (h : Knows own frame up c) (x : Symbol) :
    Loads (headTaken g x frame) c.upvals (compileHead x g c) := by
  have href := h.loads_ref x
  unfold headTaken
  by_cases hin : x ∈ frame
  · have hl := mem_bindNames.mp ((h.frame x).mp hin)
    have hcode : compileHead x g c = compileRef x c := if_neg fun hglob => hl hglob.1
    rw [hcode]
    simpa [hin] using href
  · have hl : c.locals.lookup x = none := by
      by_contra hne
      exact hin ((h.frame x).mpr (mem_bindNames.mpr hne))
    by_cases hhost : g.lookup x = none ∧ libCfuncHead x = true
    · have hcode : compileHead x g c = [.glob x] := if_pos ⟨hl, hhost⟩
      rw [hcode, if_pos (by simp [hhost.1, hhost.2])]
      exact .of_no_loads rfl
    · have hcode : compileHead x g c = compileRef x c := if_neg fun hglob => hhost hglob.2
      have hno : ¬ ((libCfuncHead x && (g.lookup x).isNone || decide (x ∈ frame)) = true) := by
        simp only [hin, decide_false, Bool.or_false, Bool.and_eq_true, Option.isNone_iff_eq_none]
        exact fun hboth => hhost hboth.symm
      rw [hcode, if_neg hno]
      simpa [hin] using href

end Knows

section

variable {own frame up params : List Symbol} {body : Expr} {c : Ctx}

/-- In the body of a function every used name is captured or stands for something. -/
theorem reached_body (h : Knows own frame up c)
    (hvis : ∀ x ∈ captured params body g c, c.locals.lookup x ≠ none ∨ c.upvals.lookup x ≠ none) :
    Reached g (refs body params) (caught params body frame up) := by
  intro x hx
  cases hr : resolvable x g with
  | true => exact .inr rfl
  | false => exact .inl ((h.mem_captured hvis).mp ((mem_freeVars body params).mpr ⟨hx, .inr hr⟩))

theorem upvalLoads_lambdaFn (name : Option Symbol) (fid : Option Nat) (r : List Ins × Ctx) :
    upvalLoads (lambdaFn params name fid r).code = upvalLoads r.1 := by
  simp [lambdaFn, upvalLoads, Ins.upvalLoads, upvalLoads_append]

/-- A function is exact if and only if it takes every name it captures. -/
theorem siteOf_exact {name : Option Symbol} {fid : Option Nat} {used : List Symbol}
    (hvis : ∀ x ∈ captured params body g c, c.locals.lookup x ≠ none ∨ c.upvals.lookup x ≠ none)
    (hbody : Loads used (indexBindings (captured params body g c) 0)
      (compileExpr g body (bodyCtx params (captured params body g c) c) true).1) :
    (siteOf g params body c name fid).Exact ↔ ∀ x ∈ captured params body g c, x ∈ used := by
  have hnodup : (captured params body g c).Nodup := freeVars_nodup ..
  have hloads : ∀ i, i ∈ upvalLoads (siteOf g params body c name fid).fn.code ↔
      ∃ x ∈ used, (captured params body g c)[i]? = some x := by
    intro i
    simp only [siteOf, upvalLoads_lambdaFn]
    rw [hbody i]
    refine exists_congr fun x => and_congr_right fun _ => ?_
    rw [lookup_indexBindings hnodup 0]
    constructor
    · rintro ⟨j, hj, rfl⟩
      rwa [Nat.zero_add]
    · exact fun hi => ⟨i, hi, (Nat.zero_add i).symm⟩
  constructor
  · intro hexact x hx
    obtain ⟨i, hi, rfl⟩ := List.mem_iff_getElem.mp hx
    obtain ⟨y, hy, hyi⟩ := (hloads i).mp ((hexact.loads i).mpr hi)
    rw [List.getElem?_eq_getElem hi] at hyi
    exact Option.some.inj hyi ▸ hy
  · intro hall
    refine ⟨fun i => ?_, by rw [← freeLoads_eq]; rfl, hvis, hnodup⟩
    rw [hloads i]
    constructor
    · rintro ⟨x, -, hi⟩
      exact (List.getElem?_eq_some_iff.mp hi).1
    · intro hi
      exact ⟨_, hall _ (List.getElem_mem hi), List.getElem?_eq_getElem hi⟩

end

/-- The functions made at some places are exact if and only if a test says so. -/
def Exacts (ss : List Site) (b : Bool) : Prop := (∀ s ∈ ss, s.Exact) ↔ b = true

theorem Exacts.nil : Exacts [] true := by simp [Exacts]

theorem Exacts.append {ss ss' : List Site} {b b' : Bool} (h : Exacts ss b) (h' : Exacts ss' b') :
    Exacts (ss ++ ss') (b && b') := by
  unfold Exacts at h h' ⊢
  rw [Bool.and_eq_true, ← h, ← h']
  simp only [List.mem_append, or_imp, forall_and]

/-- A call of a name.  An operator or a primitive is not looked up. -/
theorem loads_callName {own frame up : List Symbol} {c : Ctx} {tail : Bool} (h : Knows own frame up c)
    (hargs : Loads (takenSeq g args frame) c.upvals (compileArgs g args c).1) :
    Loads (taken g (.call (.sym x) args) frame) c.upvals
      (compileExpr g (.call (.sym x) args) c tail).1 := by
  simp only [taken, Expr.onHead, frameNames, List.nil_append]
  cases hop : operator (.sym x) args.length with
  | some op =>
      simp only [compileExpr, hop, Option.isSome_some, Bool.true_or, if_true, List.nil_append]
      exact hargs.snoc rfl
  | none =>
      cases hprim : builtinId x with
      | none =>
          simp only [compileExpr, hop, primitive, hprim, Expr.onHead, isBuiltin, Option.isSome_none,
            Bool.or_self, Bool.false_eq_true, if_false]
          have hf : Loads _ c.upvals (compileHead x g c, c).1 := h.loads_head x
          exact hf.call (upvalLoads_callIns _ _) hargs (show args = [] → _ from by rintro rfl; rfl)
      | some bid =>
          simp only [isBuiltin, hprim, Option.isSome_some, Bool.or_true, if_true, List.nil_append]
          cases hsp : spawnTarget bid args g with
          | some fid =>
              obtain ⟨k, rfl⟩ := spawnTarget_args hsp
              simp only [compileExpr, hop, primitive, hprim, hsp]
              exact .of_no_loads rfl
          | none =>
              simp only [compileExpr, hop, primitive, hprim, hsp]
              exact hargs.snoc rfl

/-- A lambda, from its body. -/
theorem fits_lambda {own frame up params : List Symbol} {body : Expr} {c : Ctx} (tail : Bool)
    (h : Knows own frame up c) (hr : Reached g (refs (.lambda params body) own) up)
    (hload : Loads (taken g body params) (bodyCtx params (captured params body g c) c).upvals
      (compileExpr g body (bodyCtx params (captured params body g c) c) true).1)
    (hin : Exacts (sites g body (bodyCtx params (captured params body g c) c) true)
      (readsCaptures g body params (caught params body frame up))) :
    Loads (taken g (.lambda params body) frame) c.upvals (compileExpr g (.lambda params body) c tail).1 ∧
      Exacts (sites g (.lambda params body) c tail) (readsCaptures g (.lambda params body) frame up) := by
  have hvis := h.captured_visible hr
  refine ⟨fun i => ?_, hin.append ?_⟩
  · have hmake : Loads _ c.upvals (compileExpr g (.lambda params body) c tail).1 :=
      (loads_freeLoads hvis).snoc rfl
    rw [hmake i]
    refine exists_congr fun x => and_congr_left fun hi => ?_
    have hout : x ∈ bindNames c.locals ++ bindNames c.upvals :=
      List.mem_append_right _ (mem_bindNames.mpr (by rw [hi]; exact Option.some_ne_none _))
    have hframe : c.locals.lookup x = none ↔ x ∉ frame := by
      rw [h.frame x, mem_bindNames, not_not]
    simp only [taken, List.mem_filter, decide_eq_true_eq, hframe]
    refine and_congr_left fun _ => ?_
    rw [show captured params body g c = freeVars body params _ g from rfl, mem_freeVars]
    exact ⟨And.left, fun hused => ⟨hused, .inl hout⟩⟩
  · unfold Exacts
    simp only [List.forall_mem_singleton, List.all_eq_true, decide_eq_true_eq]
    rw [siteOf_exact hvis hload]
    exact forall_congr' fun x => by rw [h.mem_captured hvis]

mutual

/-- **What an expression loads, and whether its functions are exact**, from the names alone. -/
theorem fits_expr (g : Binds) :
    ∀ (e : Expr) (own frame up : List Symbol) (c : Ctx) (tail : Bool),
      Knows own frame up c → Reached g (refs e own) up →
      Loads (taken g e frame) c.upvals (compileExpr g e c tail).1 ∧
        Exacts (sites g e c tail) (readsCaptures g e frame up)
  | .const k, own, frame, up, c, tail, _, _ => ⟨loads_constIns k _, .nil⟩
  | .sym x, own, frame, up, c, tail, h, _ => ⟨h.loads_ref x, .nil⟩
  | .lambda params body, own, frame, up, c, tail, h, hr => by
      obtain ⟨hload, hin⟩ := fits_expr g body params params _ _ true
        (h.inside (h.captured_visible hr)) (reached_body h (h.captured_visible hr))
      exact fits_lambda tail h hr hload hin
  | .letE x init body, own, frame, up, c, tail, h, hr => by
      have hup := compileExpr_upvals g init c false
      obtain ⟨hl1, hs1⟩ := fits_expr g init own frame up c false h
        (hr.mono fun y hy => List.mem_append_left _ hy)
      obtain ⟨hl2, hs2⟩ := fits_expr g body (x :: own) (x :: (frameNames init ++ frame)) up _ tail
        (h.letBody x init _ _) (hr.mono fun y hy => List.mem_append_right _ hy)
      exact ⟨hl1.around rfl (hl2.congr hup), hs1.append hs2⟩
  | .ifE cond yes no, own, frame, up, c, tail, h, hr => by
      have hup := compileExpr_upvals g cond c false
      have h1 := h.after (g := g) cond false
      obtain ⟨hl1, hs1⟩ := fits_expr g cond own frame up c false h
        (hr.mono fun y hy => List.mem_append_left _ hy)
      obtain ⟨hl2, hs2⟩ := fits_expr g yes _ _ up _ tail h1
        (hr.mono fun y hy => List.mem_append_right _ (List.mem_append_left _ hy))
      obtain ⟨hl3, hs3⟩ := fits_expr g no (introduced cond ++ own) (frameNames cond ++ frame) up
        { (compileExpr g yes (compileExpr g cond c false).2 tail).2 with
          locals := (compileExpr g cond c false).2.locals
          upvals := (compileExpr g cond c false).2.upvals } tail ⟨h1.own, h1.frame, h1.up⟩
        (hr.mono fun y hy => List.mem_append_right _ (List.mem_append_right _ hy))
      exact ⟨hl1.ifE (hl2.congr hup) (hl3.congr hup), hs1.append (hs2.append hs3)⟩
  | .begin forms, own, frame, up, c, tail, h, hr => fits_begin g forms own frame up c tail h hr
  | .call callee args, own, frame, up, c, tail, h, hr => by
      have hup := compileExpr_upvals g callee c false
      obtain ⟨hl2, hs2⟩ := fits_args g args _ _ up _ (h.after (g := g) callee false)
        (hr.mono fun y hy => by simp only [refs]; exact List.mem_append_right _ hy)
      rcases callee.head_cases with ⟨x, hx⟩ | hh
      · subst hx
        exact ⟨loads_callName h hl2, Exacts.nil.append hs2⟩
      · obtain ⟨hl1, hs1⟩ := fits_expr g callee own frame up c false h
          (hr.mono fun y hy => by simp only [refs, hh]; exact List.mem_append_left _ hy)
        refine ⟨?_, hs1.append hs2⟩
        obtain ⟨hop, hprim⟩ := not_special hh args.length
        simp only [compileExpr, hop, hprim, hh, taken]
        exact hl1.call (upvalLoads_callIns _ _) (hl2.congr hup)
          (show args = [] → _ from by rintro rfl; rfl)

theorem fits_begin (g : Binds) :
    ∀ (es : List Expr) (own frame up : List Symbol) (c : Ctx) (tail : Bool),
      Knows own frame up c → Reached g (refsSeq es own) up →
      Loads (takenSeq g es frame) c.upvals (compileBegin g es c tail).1 ∧
        Exacts (sitesBegin g es c tail) (readsCapturesSeq g es frame up)
  | [], own, frame, up, c, tail, _, _ => ⟨loads_constIns .nil _, .nil⟩
  | [e], own, frame, up, c, tail, h, hr => by
      simp only [refsSeq, takenSeq, readsCapturesSeq, List.append_nil, Bool.and_true] at hr ⊢
      exact fits_expr g e own frame up c tail h hr
  | e :: e' :: es, own, frame, up, c, tail, h, hr => by
      have hup := compileExpr_upvals g e c false
      obtain ⟨hl1, hs1⟩ := fits_expr g e own frame up c false h
        (hr.mono fun y hy => List.mem_append_left _ hy)
      obtain ⟨hl2, hs2⟩ := fits_begin g (e' :: es) _ _ up _ tail (h.after (g := g) e false)
        (hr.mono fun y hy => List.mem_append_right _ hy)
      exact ⟨hl1.append (hl2.congr hup), hs1.append hs2⟩

theorem fits_args (g : Binds) :
    ∀ (es : List Expr) (own frame up : List Symbol) (c : Ctx),
      Knows own frame up c → Reached g (refsSeq es own) up →
      Loads (takenSeq g es frame) c.upvals (compileArgs g es c).1 ∧
        Exacts (sitesArgs g es c) (readsCapturesSeq g es frame up)
  | [], own, frame, up, c, _, _ => ⟨.of_no_loads rfl, .nil⟩
  | [e], own, frame, up, c, h, hr => by
      simp only [refsSeq, takenSeq, readsCapturesSeq, List.append_nil, Bool.and_true] at hr ⊢
      exact fits_expr g e own frame up c false h hr
  | e :: e' :: es, own, frame, up, c, h, hr => by
      have hup := compileExpr_upvals g e c false
      obtain ⟨hl1, hs1⟩ := fits_expr g e own frame up c false h
        (hr.mono fun y hy => List.mem_append_left _ hy)
      obtain ⟨hl2, hs2⟩ := fits_args g (e' :: es) _ _ up _ (h.after (g := g) e false)
        (hr.mono fun y hy => List.mem_append_right _ hy)
      exact ⟨hl1.around rfl (hl2.congr hup), hs1.append hs2⟩

end

/-! ### Whole programs -/

/-- A call that is no operator and no primitive, by the context it ends with. -/
theorem compileExpr_call_ctx (g : Binds) (callee : Expr) (args : List Expr) (c : Ctx) (tail : Bool) :
    (compileExpr g (.call callee args) c tail).2 =
      (compileArgs g args (compileExpr g callee c false).2).2 := by
  have hend : ∀ d : Ctx, args.isEmpty = true → d = (compileArgs g args d).2 := by
    intro d hempty
    rw [List.isEmpty_iff.mp hempty]
    rfl
  simp only [compileExpr]
  rcases callee.head_cases with ⟨x, rfl⟩ | hh
  · split
    · rfl
    · split
      · split
        · next hsp =>
            obtain ⟨k, rfl⟩ := spawnTarget_args hsp
            rfl
        · rfl
      · split
        · next hempty => exact hend _ hempty
        · rfl
  · obtain ⟨hop, hprim⟩ := not_special hh args.length
    rw [hop, hprim, hh]
    dsimp only
    split
    · next hempty => exact hend _ hempty
    · rfl

mutual

/-- The functions an expression adds to the pool are those of its lambdas. -/
theorem mem_compileExpr_fns (g : Binds) (r : FnRec) :
    ∀ (e : Expr) (c : Ctx) (tail : Bool),
      r ∈ (compileExpr g e c tail).2.fns ↔ r ∈ c.fns ∨ r ∈ (sites g e c tail).map Site.fn
  | .const _, _, _ | .sym _, _, _ => by simp [compileExpr, sites]
  | .lambda params body, c, _ => by
      have hb := mem_compileExpr_fns g r body (bodyCtx params (captured params body g c) c) true
      have hpool : ∀ x : List Ins × Ctx,
          r ∈ (closeLambda params (captured params body g c) c none none x).2.fns ↔
            r = lambdaFn params none none x ∨ r ∈ x.2.fns := fun x => mem_insertFn
      simp only [compileExpr, sites, List.map_append, List.mem_append, hpool, hb]
      rw [or_comm, or_assoc]
      exact or_congr Iff.rfl (or_congr Iff.rfl List.mem_singleton.symm)
  | .letE x init body, c, tail => by
      simp only [compileExpr, sites, List.map_append, List.mem_append]
      rw [mem_compileExpr_fns g r body, mem_compileExpr_fns g r init, or_assoc]
  | .ifE cond yes no, c, tail => by
      simp only [compileExpr, sites, List.map_append, List.mem_append]
      rw [mem_compileExpr_fns g r no, mem_compileExpr_fns g r yes, mem_compileExpr_fns g r cond,
        or_assoc, or_assoc]
  | .begin forms, c, tail => mem_compileBegin_fns g r forms c tail
  | .call callee args, c, tail => by
      rw [compileExpr_call_ctx, mem_compileArgs_fns g r args, mem_compileExpr_fns g r callee, sites,
        List.map_append, List.mem_append, or_assoc]

theorem mem_compileBegin_fns (g : Binds) (r : FnRec) :
    ∀ (es : List Expr) (c : Ctx) (tail : Bool),
      r ∈ (compileBegin g es c tail).2.fns ↔ r ∈ c.fns ∨ r ∈ (sitesBegin g es c tail).map Site.fn
  | [], _, _ => by simp [compileBegin, sitesBegin]
  | [e], c, tail => mem_compileExpr_fns g r e c tail
  | e :: e' :: es, c, tail => by
      simp only [compileBegin, sitesBegin, List.map_append, List.mem_append]
      rw [mem_compileBegin_fns g r (e' :: es), mem_compileExpr_fns g r e, or_assoc]

theorem mem_compileArgs_fns (g : Binds) (r : FnRec) :
    ∀ (es : List Expr) (c : Ctx),
      r ∈ (compileArgs g es c).2.fns ↔ r ∈ c.fns ∨ r ∈ (sitesArgs g es c).map Site.fn
  | [], _ => by simp [compileArgs, sitesArgs]
  | [e], c => mem_compileExpr_fns g r e c false
  | e :: e' :: es, c => by
      simp only [compileArgs, sitesArgs, List.map_append, List.mem_append]
      rw [mem_compileArgs_fns g r (e' :: es), mem_compileExpr_fns g r e, or_assoc]

end

theorem mem_compileProgram_fns (g : Binds) (r : FnRec) (prog : List Top) (c : Ctx) :
    r ∈ (compileProgram g prog c).2.fns ↔ r ∈ c.fns ∨ r ∈ (sitesTops g prog c).map Site.fn := by
  induction prog generalizing c with
  | nil => simp [compileProgram, sitesTops]
  | cons top rest ih =>
      cases top with
      | expr e =>
          simp only [compileProgram, sitesTops, List.map_append, List.mem_append]
          rw [ih, mem_compileExpr_fns, or_assoc]
      | define name value =>
          cases value with
          | lambda params body =>
              simp only [compileProgram, sitesTops, List.map_append, List.map_cons,
                List.mem_append, List.mem_cons]
              rw [ih]
              have hpool : ∀ x : List Ins × Ctx,
                  r ∈ (closeLambda params (captured params body g c) c (some name)
                    (g.lookup name) x).2.fns ↔
                    r = lambdaFn params (some name) (g.lookup name) x ∨ r ∈ x.2.fns :=
                fun x => mem_insertFn
              rw [hpool, mem_compileExpr_fns]
              have hfn : (siteOf g params body c (some name) (g.lookup name)).fn =
                  lambdaFn params (some name) (g.lookup name)
                    (compileExpr g body (bodyCtx params (captured params body g c) c) true) := rfl
              have hctx : (bodyCtx params (captured params body g c) c).fns = c.fns := rfl
              rw [hfn, hctx]
              tauto
          | const | sym | letE | ifE | begin | call => exact ih c

mutual

/-- The functions of an expression are its lambdas, each compiled where it stands. -/
theorem sites_made : ∀ (e : Expr) (c : Ctx) (tail : Bool),
    s ∈ sites g e c tail → ∃ params body c', s = siteOf g params body c' none none
  | .const _, _, _, h | .sym _, _, _, h => by simp [sites] at h
  | .lambda params body, c, _, h => by
      simp only [sites, List.mem_append, List.mem_singleton] at h
      rcases h with h | rfl
      · exact sites_made body _ _ h
      · exact ⟨params, body, c, rfl⟩
  | .letE x init body, c, tail, h => by
      simp only [sites, List.mem_append] at h
      exact h.elim (sites_made init _ _) (sites_made body _ _)
  | .ifE cond yes no, c, tail, h => by
      simp only [sites, List.mem_append] at h
      exact h.elim (sites_made cond _ _) (·.elim (sites_made yes _ _) (sites_made no _ _))
  | .begin forms, c, tail, h => sitesBegin_made forms c tail h
  | .call callee args, c, tail, h => by
      simp only [sites, List.mem_append] at h
      exact h.elim (sites_made callee _ _) (sitesArgs_made args _)

theorem sitesBegin_made : ∀ (es : List Expr) (c : Ctx) (tail : Bool),
    s ∈ sitesBegin g es c tail → ∃ params body c', s = siteOf g params body c' none none
  | [], _, _, h => by simp [sitesBegin] at h
  | [e], c, tail, h => sites_made e c tail h
  | e :: e' :: es, c, tail, h => by
      simp only [sitesBegin, List.mem_append] at h
      exact h.elim (sites_made e _ _) (sitesBegin_made (e' :: es) _ _)

theorem sitesArgs_made : ∀ (es : List Expr) (c : Ctx),
    s ∈ sitesArgs g es c → ∃ params body c', s = siteOf g params body c' none none
  | [], _, h => by simp [sitesArgs] at h
  | [e], c, h => sites_made e c false h
  | e :: e' :: es, c, h => by
      simp only [sitesArgs, List.mem_append] at h
      exact h.elim (sites_made e _ _) (sitesArgs_made (e' :: es) _)

end

/-- The lambdas of an expression have no names. -/
theorem sites_name (e : Expr) (c : Ctx) (tail : Bool) (h : s ∈ sites g e c tail) :
    s.fn.name = none := by
  obtain ⟨params, body, c', rfl⟩ := sites_made e c tail h
  rfl

theorem sitesTops_made : ∀ (prog : List Top) (c : Ctx),
    s ∈ sitesTops g prog c → ∃ params body c' name fid, s = siteOf g params body c' name fid
  | [], _, h => by simp [sitesTops] at h
  | .expr e :: rest, c, h => by
      simp only [sitesTops, List.mem_append] at h
      rcases h with h | h
      · obtain ⟨params, body, c', hs⟩ := sites_made e c false h
        exact ⟨params, body, c', none, none, hs⟩
      · exact sitesTops_made rest _ h
  | .define name value :: rest, c, h => by
      cases value with
      | lambda params body =>
          simp only [sitesTops, List.mem_append, List.mem_cons] at h
          rcases h with h | rfl | h
          · obtain ⟨params', body', c', hs⟩ := sites_made body _ true h
            exact ⟨params', body', c', none, none, hs⟩
          · exact ⟨params, body, c, some name, g.lookup name, rfl⟩
          · exact sitesTops_made rest _ h
      | const | sym | letE | ifE | begin | call => exact sitesTops_made rest c h

/-- **A function of a program is its entry, or the code of a lambda or define.** -/
theorem programFns_made {nid : Nat} {prog : List Top} {r : FnRec} (h : r ∈ programFns g nid prog) :
    (r.nargs = 0 ∧ r.code =
      .reserve ((compileProgram g prog ⟨[], [], 4, nid, []⟩).2.nextSlot - 4) ::
        ((compileProgram g prog ⟨[], [], 4, nid, []⟩).1 ++ [.ret 0])) ∨
      ∃ params body c name fid, r = lambdaFn params name fid
        (compileExpr g body (bodyCtx params (captured params body g c) c) true) := by
  rcases mem_insertFn.mp h with rfl | h
  · exact .inl ⟨rfl, rfl⟩
  · right
    have hsite := ((mem_compileProgram_fns g r prog _).mp h).resolve_left List.not_mem_nil
    obtain ⟨s, hs, rfl⟩ := List.mem_map.mp hsite
    obtain ⟨params, body, c', name, fid, rfl⟩ := sitesTops_made prog _ hs
    exact ⟨params, body, c', name, fid, rfl⟩

/-- No captured value is loaded where none is captured. -/
theorem Loads.nothing {used : List Symbol} {code : List Ins} (h : Loads used [] code) :
    upvalLoads code = [] := by
  rw [List.eq_nil_iff_forall_not_mem]
  intro i hi
  obtain ⟨x, -, hx⟩ := (h i).mp hi
  cases hx

/-- A function is what scope and frame ask of it. -/
def Site.Fit (s : Site) : Prop := s.Exact ∧ (s.fn.name ≠ none → s.fvs = [])

/-- A define that passed the check of names captures just the names it finds in the frame. -/
theorem define_captures {own frame params : List Symbol} {body : Expr} {c : Ctx}
    (h : Knows own frame [] c) (hfv : (freeVars body params own g).isEmpty = true) :
    captured params body g c = [] ↔ ((refs body params).all fun x => x ∉ frame) = true := by
  have hres : ∀ x ∈ refs body params, resolvable x g = true := fun x hx =>
    (reached_of_closed hfv x hx).resolve_left List.not_mem_nil
  have hmem : ∀ x, x ∈ captured params body g c ↔ x ∈ refs body params ∧ x ∈ frame := by
    intro x
    rw [show captured params body g c = freeVars body params _ g from rfl, mem_freeVars,
      List.mem_append, ← h.frame, ← h.up]
    refine and_congr_right fun hx => ?_
    simp [hres x hx]
  simp only [List.eq_nil_iff_forall_not_mem, hmem, List.all_eq_true, decide_eq_true_eq, not_and]

/-- The forms of an accepted program, from a top level with these names. -/
theorem fits_program (g : Binds) (prog : List Top) (own frame : List Symbol) (c : Ctx)
    (hnames : checkNames prog own g = none) (h : Knows own frame [] c) (hup : c.upvals = []) :
    upvalLoads (compileProgram g prog c).1 = [] ∧
      ((∀ s ∈ sitesTops g prog c, s.Fit) ↔ readsCapturesTops g prog frame = true) := by
  induction prog generalizing own frame c with
  | nil => exact ⟨rfl, by simp [sitesTops, readsCapturesTops]⟩
  | cons top rest ih =>
      cases top with
      | expr e =>
          simp only [checkNames] at hnames
          split at hnames
          · next hfv =>
              obtain ⟨hload, hexact⟩ := fits_expr g e own frame [] c false h (reached_of_closed hfv)
              unfold Exacts at hexact
              obtain ⟨hrest, hsites⟩ := ih _ _ _ hnames (h.after e false)
                ((compileExpr_upvals g e c false).trans hup)
              refine ⟨?_, ?_⟩
              · simp only [compileProgram, upvalLoads_append, hrest, (hload.congr hup).nothing,
                  List.append_nil]
              · -- The functions of an expression have no names.
                have hname : (∀ s ∈ sites g e c false, s.Fit) ↔ ∀ s ∈ sites g e c false, s.Exact :=
                  forall₂_congr fun s hs => and_iff_left fun hn => absurd (sites_name e _ _ hs) hn
                simp only [sitesTops, readsCapturesTops, List.mem_append, or_imp, forall_and,
                  Bool.and_eq_true, hsites, hname]
                rw [hexact]
          · cases hnames
      | define name value =>
          cases value with
          | lambda params body =>
              simp only [checkNames] at hnames
              split at hnames
              · next hfv =>
                  have hclose : Knows own frame []
                      (closeLambda params (captured params body g c) c (some name) (g.lookup name)
                        (compileExpr g body (bodyCtx params (captured params body g c) c) true)).2 :=
                    ⟨h.own, h.frame, h.up⟩
                  obtain ⟨htop, hsites⟩ := ih _ _ _ hnames hclose hup
                  refine ⟨htop, ?_⟩
                  have hcap := define_captures h hfv
                  simp only [sitesTops, readsCapturesTops, List.mem_append, List.mem_cons, or_imp,
                    forall_and, forall_eq, Bool.and_eq_true, hsites]
                  rw [← hcap, ← and_assoc]
                  refine and_congr_left fun _ => ?_
                  by_cases hnil : captured params body g c = []
                  · have hbody : Knows params params [] (bodyCtx params (captured params body g c) c) := by
                      refine ⟨fun x hx => hx, fun x => ?_, fun x => ?_⟩
                      · rw [show (bodyCtx params (captured params body g c) c).locals =
                          paramBindings params 1 from rfl, bindNames_paramBindings]
                      · rw [hnil]
                        exact Iff.rfl
                    obtain ⟨hload, hexact⟩ := fits_expr g body params params [] _ true hbody
                      (reached_of_closed hfv)
                    unfold Exacts at hexact
                    have hfit : (siteOf g params body c (some name) (g.lookup name)).Fit := by
                      refine ⟨(siteOf_exact ?_ hload).mpr ?_, fun _ => hnil⟩
                      · rw [hnil]
                        exact fun x hx => absurd hx List.not_mem_nil
                      · rw [hnil]
                        exact fun x hx => absurd hx List.not_mem_nil
                    have hname : (∀ s ∈ sites g body (bodyCtx params (captured params body g c) c) true,
                        s.Fit) ↔ ∀ s ∈ sites g body (bodyCtx params (captured params body g c) c) true,
                        s.Exact :=
                      forall₂_congr fun s hs => and_iff_left fun hn => absurd (sites_name body _ _ hs) hn
                    rw [hname, hexact]
                    exact ⟨fun hs => ⟨hnil, hs.1⟩, fun hs => ⟨hs.2, hfit⟩⟩
                  · refine ⟨fun hs => absurd (hs.2.2 ?_) hnil, fun hs => absurd hs.1 hnil⟩
                    exact Option.some_ne_none _
              · cases hnames
          | const | sym | letE | ifE | begin | call => cases hnames

/-- **The scan and the generator agree**, on which programs.  The names in the context an
expression ends with are those from before and those it introduces exactly if it leaves no
other name in the frame.  And in an accepted program every function other than the entry comes
of a lambda or a define, and the entry loads no captured value; all these functions load
exactly the values their closures have, which their makers can load, and the defines capture
nothing, exactly if every function reads, going by its names, each variable it captures and no
define uses a name in the frame of the top level. -/
theorem scan_agrees_with_codegen (prog : List Top) :
    (∀ (g : Binds) (e : Expr) (c : Ctx) (tail : Bool),
      (∀ x, x ∈ bindNames (compileExpr g e c tail).2.locals ↔
        x ∈ bindNames c.locals ∨ x ∈ introduced e) ↔
      ∀ x ∈ frameNames e, x ∈ introduced e ∨ x ∈ bindNames c.locals) ∧
    ∀ (fns : List FnBC) (consts : List Const), compile prog = .out fns consts →
      ∃ g nid, flattenAll (programFns g nid prog) [] = (fns, consts) ∧
        (∀ r ∈ programFns g nid prog,
          (r.fid = 0 ∧ upvalLoads r.code = []) ∨ r ∈ (programSites prog).map Site.fn) ∧
        ((∀ s ∈ programSites prog, s.Exact ∧ (s.fn.name ≠ none → s.fvs = [])) ↔
          readsProgram prog = true) := by
  refine ⟨?_, ?_⟩
  · intro g e c tail
    simp only [compileExpr_names]
    constructor
    · intro h x hx
      exact ((h x).mp (.inl hx)).symm
    · intro hleft x
      constructor
      · rintro (hx | hx)
        · exact (hleft x hx).symm
        · exact .inl hx
      · rintro (hx | hx)
        · exact .inr hx
        · exact .inl (mem_frameNames_of_introduced e hx)
  · intro fns consts hout
    obtain ⟨g, nid, hg, hnames, hfns⟩ := compile_out hout
    have hsites : programSites prog = sitesTops g prog ⟨[], [], 4, nid, []⟩ := by
      simp only [programSites, hg]
    have hreads : readsProgram prog = readsCapturesTops g prog [] := by
      simp only [readsProgram, hg]
    have h0 : Knows [] [] [] ⟨[], [], 4, nid, []⟩ := ⟨fun _ hx => hx, fun _ => Iff.rfl, fun _ => Iff.rfl⟩
    obtain ⟨hentry, hexact⟩ := fits_program g prog [] [] _ hnames h0 rfl
    refine ⟨g, nid, hfns, fun r hr => ?_, by rw [hsites, hreads]; exact hexact⟩
    rcases mem_insertFn.mp hr with rfl | hr
    · left
      refine ⟨rfl, ?_⟩
      simp [upvalLoads, Ins.upvalLoads, upvalLoads_append, hentry]
    · right
      rw [hsites]
      exact ((mem_compileProgram_fns g r prog _).mp hr).resolve_left List.not_mem_nil

theorem scan_agrees_with_codegen_example :
    (∀ x, x ∈ bindNames (compileExpr [] (.letE "y" (.const .nil) (.sym "y"))
        ⟨[("x", 1)], [], 5, 1, []⟩ false).2.locals ↔ x ∈ ["x"] ∨ x ∈ ["y"]) ∧
      ∀ s ∈ programSites scopedExample, s.Exact ∧ (s.fn.name ≠ none → s.fvs = []) := by
  refine ⟨?_, ?_⟩
  · exact ((scan_agrees_with_codegen []).1 [] (.letE "y" (.const .nil) (.sym "y"))
      ⟨[("x", 1)], [], 5, 1, []⟩ false).mpr (by decide)
  · obtain ⟨fns, consts, hout⟩ : ∃ fns consts, compile scopedExample = .out fns consts :=
      ⟨_, _, rfl⟩
    obtain ⟨g, nid, -, -, hs⟩ := (scan_agrees_with_codegen scopedExample).2 fns consts hout
    exact hs.mpr (by decide)

/-- A name bound in the second branch of a conditional at the top level, and a define
after it that uses the host function of that name. -/
def leakingProgram : List Top :=
  [.expr (.ifE (.const (.bool true)) (.const .nil) (.letE "print" (.const (.int 1)) (.const .nil))),
   .define "f" (.lambda [] (.sym "print"))]

/-- The name is visible after the conditional, which introduces none; and the define is
accepted and compiled with a captured value. -/
theorem leak_captured_by_define :
    bindNames (compileExpr [] (.ifE (.const (.bool true)) (.const .nil)
        (.letE "print" (.const (.int 1)) (.const .nil))) ⟨[], [], 4, 1, []⟩ false).2.locals =
          ["print"] ∧
      introduced (.ifE (.const (.bool true)) (.const .nil)
        (.letE "print" (.const (.int 1)) (.const .nil))) = [] ∧
      (∃ fns consts, compile leakingProgram = .out fns consts) ∧
      (programSites leakingProgram).map (fun s => (s.fn.name, s.fvs)) = [(some "f", ["print"])] :=
  ⟨by decide, by decide, ⟨_, _, rfl⟩, by decide⟩

end TinyActor.Bootstrap
