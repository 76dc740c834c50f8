/-
Fusion keeps what code does.

A fused form leaves the accumulator as it was where the instructions it stands for
wrote it.  That is safe because of what the code generator lets follow: after a push,
and at the start of either branch of a conditional, the code writes the accumulator
before it reads it.  `blind` is that property of a piece of code and `tidy` says that
code has it wherever fusion relies on it.  Both are about the tree alone; what fusion
needs of the instructions' meaning is collected in `Meaning.Fusible`.
-/
import TinyActor.Bootstrap.Run
import TinyActor.Proofs.Closures
import TinyActor.Proofs.Shape

namespace TinyActor.Bootstrap

open TinyActor.Vm (Symbol Arith Cmp Val Double isTrue)

/-! ### Code that does not look at the accumulator -/

/-- The instructions that write the accumulator and do not read it. -/
def writes : Ins → Bool
  | .const _ | .constI _ | .load _ | .loadF _ | .glob _ => true
  | .clos _ nfree => nfree = 0
  | .builtin _ n => n = 0
  | _ => false

variable {a yes no code : List Ins} {i : Ins}

theorem straight_of_writes (h : writes i = true) : i.straight = true := by
  cases i with
  | ifE | ifP | ifI => cases h
  | _ => rfl

mutual

/-- What the instruction does, and everything after it, does not depend on the
accumulator. -/
def blindIns : Ins → Bool
  | .ifE cond _ _ => blind cond
  | i => writes i

def blind : List Ins → Bool
  | [] => false
  | i :: _ => blindIns i

end

mutual

def tidyIns : Ins → Bool
  | .ifE cond yes no => tidy cond && (blind yes && tidy yes) && (blind no && tidy no)
  | _ => true

/-- The accumulator is written before it is read after every push and in every branch. -/
def tidy : List Ins → Bool
  | [] => true
  | .push :: rest => blind rest && tidy rest
  | i :: rest => tidyIns i && tidy rest

end

theorem blind_append (h : blind a = true) (b : List Ins) : blind (a ++ b) = true := by
  cases a with
  | nil => cases h
  | cons i a => exact h

/-- Code goes on tidily after tidy code, unless that ends with a push. -/
theorem tidy_append {b : List Ins} (hb : tidy b = true) :
    ∀ {a : List Ins}, tidy a = true → tidy (a ++ b) = true
  | [], _ => hb
  | i :: a, h => by
      cases i with
      | push =>
          simp only [tidy, Bool.and_eq_true_iff, List.cons_append] at h ⊢
          exact ⟨blind_append h.1 b, tidy_append hb h.2⟩
      | _ =>
          simp only [tidy, Bool.and_eq_true_iff, List.cons_append] at h ⊢
          exact ⟨h.1, tidy_append hb h.2⟩

/-- Tidy code that writes the accumulator first. -/
structure Emits (code : List Ins) : Prop where
  blind : Bootstrap.blind code = true
  tidy : Bootstrap.tidy code = true

theorem Emits.append {b : List Ins} (ha : Emits a) (hb : Bootstrap.tidy b = true) :
    Emits (a ++ b) :=
  ⟨blind_append ha.blind b, tidy_append hb ha.tidy⟩

theorem Emits.pushed (h : Emits a) : Bootstrap.tidy (.push :: a) = true := by
  simp only [Bootstrap.tidy, h.blind, h.tidy, Bool.and_self]

theorem Emits.conditional {cond : List Ins} (hc : Emits cond) (hy : Emits yes) (hn : Emits no) :
    Emits [.ifE cond yes no] := by
  refine ⟨hc.blind, ?_⟩
  simp only [Bootstrap.tidy, tidyIns, hc.tidy, hy.blind, hy.tidy, hn.blind, hn.tidy, Bool.and_self]

/-! ### The code generator -/

theorem emits_constIns (x : Const) : Emits (constIns x) := by
  cases x <;> exact ⟨rfl, rfl⟩

theorem emits_compileRef (x : Symbol) (c : Ctx) : Emits (compileRef x c) := by
  unfold compileRef
  split
  · exact ⟨rfl, rfl⟩
  · split <;> exact ⟨rfl, rfl⟩

theorem emits_compileHead (x : Symbol) (g : Binds) (c : Ctx) : Emits (compileHead x g c) := by
  unfold compileHead
  split
  · exact ⟨rfl, rfl⟩
  · exact emits_compileRef x c

theorem tidy_callIns (tail : Bool) (n : Nat) : tidy [callIns tail n] = true := by
  cases tail <;> rfl

theorem emits_freeLoad (f : Symbol) (env up : Binds) {rest : List Ins} (h : tidy rest = true) :
    Emits (freeLoad f env up :: rest) := by
  unfold freeLoad
  split <;> exact ⟨rfl, h⟩

/-- A closure is made of captured values, each loaded before the next is pushed. -/
theorem emits_closure (env up : Binds) {last : List Ins} (hlast : tidy last = true) :
    ∀ {fvs : List Symbol}, fvs ≠ [] → Emits (freeLoads fvs env up ++ last)
  | [f], _ => emits_freeLoad f env up hlast
  | f :: f' :: rest, _ =>
      emits_freeLoad f env up (emits_closure env up hlast (List.cons_ne_nil f' rest)).pushed

theorem emits_closeLambda (params fvs : List Symbol) (c : Ctx) (name : Option Symbol)
    (fid : Option Nat) (body : List Ins × Ctx) :
    Emits (closeLambda params fvs c name fid body).1 := by
  cases fvs with
  | nil => exact ⟨rfl, rfl⟩
  | cons f rest => exact emits_closure _ _ rfl (List.cons_ne_nil f rest)

/-- The operands of an operator are there. -/
theorem operator_args {callee : Expr} {args : List Expr} {op : Op}
    (h : operator callee args.length = some op) : args ≠ [] := by
  intro hnil
  rw [hnil] at h
  cases callee with
  | sym x =>
      simp only [operator] at h
      cases hk : opKind x <;> rw [hk] at h <;> simp at h
  | _ => cases h

mutual

theorem compileExpr_emits (g : Binds) : ∀ (e : Expr) (c : Ctx) (tail : Bool),
    Emits (compileExpr g e c tail).1
  | .const x, _, _ => emits_constIns x
  | .sym x, c, _ => emits_compileRef x c
  | .lambda params body, c, _ => emits_closeLambda params _ c none none _
  | .letE x init body, c, tail => by
      have hb := compileExpr_emits g body
        { (compileExpr g init c false).2 with
          locals := (x, (compileExpr g init c false).2.nextSlot) ::
            (compileExpr g init c false).2.locals
          nextSlot := (compileExpr g init c false).2.nextSlot + 1 } tail
      exact (compileExpr_emits g init c false).append hb.tidy
  | .ifE cond yes no, c, tail =>
      .conditional (compileExpr_emits g cond c false) (compileExpr_emits g yes _ tail)
        (compileExpr_emits g no _ tail)
  | .begin forms, c, tail => compileBegin_emits g forms c tail
  | .call callee args, c, tail => by
      simp only [compileExpr]
      split
      · next hop => exact (compileArgs_emits g args c (operator_args hop)).append rfl
      · split
        · split
          · exact ⟨rfl, rfl⟩
          · cases args with
            | nil => exact ⟨rfl, rfl⟩
            | cons a args =>
                exact (compileArgs_emits g (a :: args) c (List.cons_ne_nil a args)).append rfl
        · have hhead : Emits (callee.onHead (fun name => (compileHead name g c, c))
              (compileExpr g callee c false)).1 := by
            rcases callee.head_cases with ⟨x, hx⟩ | hh
            · rw [hx]
              exact emits_compileHead x g c
            · rw [hh]
              exact compileExpr_emits g callee c false
          generalize callee.onHead (fun name => (compileHead name g c, c))
            (compileExpr g callee c false) = r at hhead ⊢
          split
          · exact hhead.append (tidy_callIns tail _)
          · next hne =>
              have ha := compileArgs_emits g args r.2 (by simpa using hne)
              exact hhead.append (ha.append (tidy_callIns tail _)).pushed

theorem compileBegin_emits (g : Binds) : ∀ (es : List Expr) (c : Ctx) (tail : Bool),
    Emits (compileBegin g es c tail).1
  | [], _, _ => emits_constIns .nil
  | [e], c, tail => compileExpr_emits g e c tail
  | e :: e' :: es, c, tail =>
      (compileExpr_emits g e c false).append (compileBegin_emits g (e' :: es) _ tail).tidy

theorem compileArgs_emits (g : Binds) : ∀ (es : List Expr) (c : Ctx), es ≠ [] →
    Emits (compileArgs g es c).1
  | [e], c, _ => compileExpr_emits g e c false
  | e :: e' :: es, c, _ =>
      (compileExpr_emits g e c false).append
        (compileArgs_emits g (e' :: es) _ (List.cons_ne_nil e' es)).pushed

end

theorem compileProgram_tidy (g : Binds) : ∀ (prog : List Top) (c : Ctx),
    tidy (compileProgram g prog c).1 = true
  | [], _ => rfl
  | .expr e :: rest, c => tidy_append (compileProgram_tidy g rest _) (compileExpr_emits g e c false).tidy
  | .define _ value :: rest, c => by
      cases value with
      | lambda => exact compileProgram_tidy g rest _
      | const | sym | letE | ifE | begin | call => exact compileProgram_tidy g rest c

theorem tidy_function {body : List Ins} (h : tidy body = true) (n nargs : Nat) :
    tidy (.reserve n :: (body ++ [.ret nargs])) = true := by
  simp only [tidy, tidyIns, Bool.true_and]
  exact tidy_append rfl h

theorem programFns_tidy {g : Binds} {nid : Nat} {prog : List Top} {r : FnRec}
    (h : r ∈ programFns g nid prog) : tidy r.code = true := by
  rcases programFns_made h with ⟨-, hcode⟩ | ⟨params, body, c, name, fid, rfl⟩
  · rw [hcode]
    exact tidy_function (compileProgram_tidy g prog _) _ _
  · exact tidy_function (compileExpr_emits g body _ true).tidy _ _

/-! ### What fusion needs of a meaning -/

/-- Two pieces of code end the same way, with results that are related. -/
inductive Alike {A B R : Type} (p : A → B → Prop) : Except R A → Except R B → Prop
  | ok {a : A} {b : B} : p a b → Alike p (.ok a) (.ok b)
  | error (r : R) : Alike p (.error r) (.error r)

theorem Alike.bind_eq {A B C R : Type} {p : A → B → Prop} {x : Except R A} {y : Except R B}
    {f : A → Except R C} {g : B → Except R C} (h : Alike p x y) (hfg : ∀ a b, p a b → f a = g b) :
    (x >>= f) = (y >>= g) := by
  cases h with
  | ok hab => exact hfg _ _ hab
  | error r => rfl

/-- A meaning in which a fused form does what its parts do, up to `same`: equality of
all but the accumulator. -/
structure Meaning.Fusible {D R : Type} (M : Meaning D R) (same : D → D → Prop) : Prop where
  overwrites : ∀ {i : Ins} {d d' : D}, writes i = true → same d d' → M.act i d = M.act i d'
  loadP : ∀ s d, Alike same (M.act (.loadP s) d) (M.act (.load s) d >>= M.act .push)
  constP : ∀ c d, Alike same (M.act (.constP c) d) (M.act (.const c) d >>= M.act .push)
  globP : ∀ x d, Alike same (M.act (.globP x) d) (M.act (.glob x) d >>= M.act .push)
  arithI : ∀ op imm d,
    M.act (.opI op imm) d = (M.act (.constI imm) d >>= M.act (.op (.arith op)))
  cmp : ∀ op d, Alike (fun r d' => r.1 = M.test d' ∧ same r.2 d') (M.cmp op d)
    (M.act (.op (.cmp op)) d)
  eqI : ∀ imm d, Alike (fun r d' => r.1 = M.test d' ∧ same r.2 d') (M.eqI imm d)
    (M.act (.constI imm) d >>= M.act (.op (.cmp .eq)))

section Runs

variable {D R : Type} {M : Meaning D R} {same : D → D → Prop}

theorem run_cons (i : Ins) (rest : List Ins) (d : D) :
    run M (i :: rest) d = (runIns M i d >>= run M rest) := by
  rw [run]

theorem run_append (a b : List Ins) (d : D) : run M (a ++ b) d = (run M a d >>= run M b) := by
  induction a generalizing d with
  | nil => rfl
  | cons i a ih =>
      rw [List.cons_append, run_cons, run_cons, bind_assoc]
      exact bind_congr ih

theorem run_single (i : Ins) (d : D) : run M [i] d = runIns M i d := by
  rw [run_cons]
  cases runIns M i d <;> rfl

theorem runIns_straight (h : i.straight = true) (d : D) : runIns M i d = M.act i d := by
  cases i with
  | ifE | ifP | ifI => cases h
  | _ => simp only [runIns]

theorem run_straight (h : i.straight = true) (rest : List Ins) (d : D) :
    run M (i :: rest) d = (M.act i d >>= run M rest) := by
  rw [run_cons, runIns_straight h]

/-- **Code that writes the accumulator first does the same whatever it holds.** -/
theorem run_blind (hM : M.Fusible same) {d d' : D} (hd : same d d') :
    ∀ {code : List Ins}, blind code = true → run M code d = run M code d'
  | i :: rest, h => by
      have hi : runIns M i d = runIns M i d' := by
        cases i with
        | ifE cond yes no =>
            simp only [blind, blindIns] at h
            rw [runIns, runIns, run_blind hM hd h]
        | _ =>
            simp only [blind, blindIns] at h
            have hs := straight_of_writes h
            rw [runIns_straight hs, runIns_straight hs, hM.overwrites h hd]
      rw [run_cons, run_cons, hi]

/-! ### Conditionals -/

theorem lastCmp_eq {op : Cmp} (h : lastCmp code = some op) :
    code = code.dropLast ++ [.op (.cmp op)] := by
  unfold lastCmp at h
  split at h
  · next hlast =>
      cases h
      exact (List.dropLast_append_getLast? _ hlast).symm
  · cases h

theorem tailConstI_eq {imm : BitVec 48} (h : tailConstI code = some imm) :
    code = code.dropLast ++ [.constI imm] := by
  unfold tailConstI at h
  split at h
  · next hlast =>
      cases h
      exact (List.dropLast_append_getLast? _ hlast).symm
  · cases h

/-- The branches of a conditional, with the test they follow on. -/
theorem branches_eq {x : Except R (Bool × D)} {y : Except R D}
    (hy : ∀ d d', same d d' → run M yes d = run M yes d')
    (hn : ∀ d d', same d d' → run M no d = run M no d')
    (h : Alike (fun r d' => r.1 = M.test d' ∧ same r.2 d') x y) :
    (x >>= fun r => if r.1 then run M yes r.2 else run M no r.2) =
      (y >>= fun d => if M.test d then run M yes d else run M no d) := by
  refine h.bind_eq ?_
  intro r d hr
  rw [hr.1, hy _ _ hr.2, hn _ _ hr.2]

/-- Taking the comparison into the jump changes nothing, if the branches do not look at
the accumulator. -/
theorem runIns_fuseIf (hM : M.Fusible same) {cond : List Ins} (d : D)
    (hy : ∀ d d', same d d' → run M yes d = run M yes d')
    (hn : ∀ d d', same d d' → run M no d = run M no d') :
    runIns M (fuseIf cond yes no) d = runIns M (.ifE cond yes no) d := by
  have hP : ∀ op, lastCmp cond = some op →
      runIns M (.ifP op cond.dropLast yes no) d = runIns M (.ifE cond yes no) d := by
    intro op hop
    have hcond : run M cond d = (run M cond.dropLast d >>= M.act (.op (.cmp op))) := by
      conv_lhs => rw [lastCmp_eq hop]
      rw [run_append]
      exact bind_congr fun d => by rw [run_single, runIns_straight rfl]
    rw [runIns, runIns, hcond, bind_assoc]
    exact bind_congr fun d => branches_eq hy hn (hM.cmp op d)
  unfold fuseIf
  split
  · next op hop =>
      split
      · next imm himm =>
          split
          · next heq =>
              have hcond : run M cond d = (run M cond.dropLast.dropLast d >>= fun d =>
                  M.act (.constI imm) d >>= M.act (.op (.cmp .eq))) := by
                conv_lhs => rw [lastCmp_eq hop, tailConstI_eq himm, heq]
                rw [run_append, run_append, bind_assoc]
                refine bind_congr fun d => ?_
                rw [run_single, runIns_straight rfl]
                exact bind_congr fun d => by rw [run_single, runIns_straight rfl]
              rw [runIns, runIns, hcond, bind_assoc]
              exact bind_congr fun d => branches_eq hy hn (hM.eqI imm d)
          · exact hP op hop
      · exact hP op hop
  · rfl

/-! ### Fusion -/

theorem tidy_tail {rest : List Ins} (h : tidy (i :: rest) = true) : tidy rest = true := by
  cases i <;> simp only [tidy, Bool.and_eq_true_iff] at h <;> exact h.2

/-- A merged load and push. -/
theorem run_merged {j : Ins} {out more : List Ins} (hM : M.Fusible same) (d : D)
    (hj : j.straight = true) (hi : i.straight = true)
    (h : Alike same (M.act j d) (M.act i d >>= M.act .push)) (hmore : blind more = true)
    (ih : ∀ d, run M out d = run M more d) : run M (j :: out) d = run M (i :: .push :: more) d := by
  rw [run_straight hj, run_straight hi, bind_congr (run_straight rfl more), bind_congr ih,
    ← bind_assoc]
  exact h.bind_eq fun a b hab => run_blind hM hab hmore

/-- **Fused code does what the code it is made of does**, however it ends. -/
theorem Fuses.run_eq (hM : M.Fusible same) {out : List Ins} (h : Fuses code out) :
    tidy code = true → ∀ d, run M out d = run M code d := by
  induction h with
  | nil => exact fun _ _ => rfl
  | load s _ ih =>
      intro ht d
      simp only [tidy, tidyIns, Bool.true_and, Bool.and_eq_true_iff] at ht
      exact run_merged hM d rfl rfl (hM.loadP s d) ht.1 (ih ht.2)
  | const c _ ih =>
      intro ht d
      simp only [tidy, tidyIns, Bool.true_and, Bool.and_eq_true_iff] at ht
      exact run_merged hM d rfl rfl (hM.constP c d) ht.1 (ih ht.2)
  | glob x _ ih =>
      intro ht d
      simp only [tidy, tidyIns, Bool.true_and, Bool.and_eq_true_iff] at ht
      exact run_merged hM d rfl rfl (hM.globP x d) ht.1 (ih ht.2)
  | @arith imm op more out _ _ ih =>
      intro ht d
      rw [run_straight rfl, run_straight rfl, hM.arithI, bind_congr (run_straight rfl more),
        ← bind_assoc]
      exact bind_congr (ih (tidy_tail (tidy_tail ht)))
  | @branch cond cond' yes yes' no no' rest out _ _ _ _ ihc ihy ihn ih =>
      intro ht d
      simp only [tidy, tidyIns, Bool.and_eq_true_iff] at ht
      obtain ⟨⟨⟨hc, hby, hy⟩, hbn, hn⟩, hrest⟩ := ht
      have hyes : ∀ d d', same d d' → run M yes' d = run M yes' d' := by
        intro d d' hd
        rw [ihy hy, ihy hy, run_blind hM hd hby]
      have hno : ∀ d d', same d d' → run M no' d = run M no' d' := by
        intro d d' hd
        rw [ihn hn, ihn hn, run_blind hM hd hbn]
      rw [run_cons, run_cons, runIns_fuseIf hM d hyes hno, runIns, runIns, ihc hc]
      simp only [ihy hy, ihn hn]
      exact bind_congr (ih hrest)
  | same i _ ih =>
      intro ht d
      rw [run_cons, run_cons]
      exact bind_congr (ih (tidy_tail ht))

end Runs

/-! ### The machine -/

section Machine

variable {F W : Type}

/-- What differs in the accumulator only, differs by a load. -/
theorem Regs.eq_load {s s' : Regs F W} (h : s.toStack = s'.toStack) : s = s'.load s.acc := by
  cases s
  cases s'
  cases h
  rfl

@[simp] theorem isTrue_bool (b : Bool) : isTrue (.bool b : Val F) = b := by
  cases b <;> rfl

variable [Double F]

/-- The immediate of an instruction is the integer it would have loaded. -/
theorem applyImm_eq_apply (op : Arith) (l : Val F) (imm : BitVec 48) :
    op.applyImm l imm.toInt = op.apply l (.int imm) := by
  cases l <;> rfl

variable [DecidableEq F]

theorem machine_fusible (E : Around F W) :
    (machine E).Fusible fun s s' => s.toStack = s'.toStack where
  overwrites := by
    intro i s s' hi hs
    rw [Regs.eq_load hs]
    cases i with
    | clos fid nfree =>
        have hn : nfree = 0 := by simpa [writes] using hi
        rw [hn]
        rfl
    | builtin id n =>
        have hn : n = 0 := by simpa [writes] using hi
        rw [hn]
        rfl
    | const | constI | load | loadF | glob => rfl
    | _ => cases hi
  loadP _ _ := .ok rfl
  constP _ _ := .ok rfl
  globP _ _ := .ok rfl
  arithI op imm s := by
    obtain ⟨⟨m, base, sp⟩, acc⟩ := s
    cases sp with
    | zero => rfl
    | succ d => exact congrArg Except.ok (congrArg _ (applyImm_eq_apply op _ imm))
  cmp op s := by
    obtain ⟨⟨m, base, sp⟩, acc⟩ := s
    cases sp with
    | zero => exact .error _
    | succ d => exact .ok ⟨(isTrue_bool _).symm, rfl⟩
  eqI imm s := by
    obtain ⟨⟨m, base, sp⟩, acc⟩ := s
    cases sp with
    | zero => exact .error _
    | succ d => exact .ok ⟨(isTrue_bool _).symm, rfl⟩

/-- **Fusion keeps what generated code does**: from every state of the machine, whatever
is around it, the fused code ends as the code does, with the same accumulator, stack,
heap and world or with the same crash.  So for the code of every expression in every
context, and for every function of a program. -/
theorem fuse_run (E : Around F W) :
    (∀ (g : Binds) (e : Expr) (c : Ctx) (tail : Bool) (s : Regs F W),
      run (machine E) (fuse (compileExpr g e c tail).1) s =
        run (machine E) (compileExpr g e c tail).1 s) ∧
    ∀ (g : Binds) (nid : Nat) (prog : List Top), ∀ r ∈ programFns g nid prog,
      ∀ s : Regs F W, run (machine E) (fuse r.code) s = run (machine E) r.code s := by
  refine ⟨?_, ?_⟩
  · intro g e c tail s
    exact (fuse_fuses _).run_eq (machine_fusible E) (compileExpr_emits g e c tail).tidy s
  · intro g nid prog r hr s
    exact (fuse_fuses _).run_eq (machine_fusible E) (programFns_tidy hr) s

end Machine

end TinyActor.Bootstrap
