/-
The shape of compiled functions.

Every function reserves its locals first and returns last, and nowhere in between.
Only defines leave a name, each its own, so a name stands for one function of the
program.  Fusion changes neither.
-/
import TinyActor.Proofs.Names

namespace TinyActor.Bootstrap

open TinyActor.Vm (Symbol)

/-! ### Code of a body -/

mutual

/-- An instruction that may stand in the body of a function: no return, and an immediate
only where there is an opcode for it. -/
def properIns : Ins → Bool
  | .ret _ => false
  | .opI op _ => arithIP op
  | .ifE cond yes no | .ifP _ cond yes no | .ifI _ cond yes no =>
      proper cond && (proper yes && proper no)
  | _ => true

def proper : List Ins → Bool
  | [] => true
  | i :: rest => properIns i && proper rest

end

variable {code : List Ins} {fr : FnRec}

theorem proper_iff : proper code = true ↔ ∀ i ∈ code, properIns i = true := by
  induction code with
  | nil => simp [proper]
  | cons i rest ih => rw [proper, Bool.and_eq_true_iff, ih, List.forall_mem_cons]

theorem proper_append {a b : List Ins} :
    proper (a ++ b) = true ↔ proper a = true ∧ proper b = true := by
  simp only [proper_iff, List.forall_mem_append]

theorem proper_dropLast (h : proper code = true) : proper code.dropLast = true :=
  proper_iff.mpr fun i hi => proper_iff.mp h i (List.dropLast_subset _ hi)

/-! ### Fusion, step by step -/

/-- What fusion does to a list of instructions: it merges a pair at the front, or takes
one instruction over, a conditional with its parts fused. -/
inductive Fuses : List Ins → List Ins → Prop
  | nil : Fuses [] []
  | load (s : Nat) {more out : List Ins} : Fuses more out →
      Fuses (.load s :: .push :: more) (.loadP s :: out)
  | const (c : Const) {more out : List Ins} : Fuses more out →
      Fuses (.const c :: .push :: more) (.constP c :: out)
  | glob (x : Symbol) {more out : List Ins} : Fuses more out →
      Fuses (.glob x :: .push :: more) (.globP x :: out)
  | arith (imm : BitVec 48) {op : TinyActor.Vm.Arith} {more out : List Ins} :
      arithIP op = true → Fuses more out →
      Fuses (.constI imm :: .op (.arith op) :: more) (.opI op imm :: out)
  | branch {cond cond' yes yes' no no' rest out : List Ins} : Fuses cond cond' →
      Fuses yes yes' → Fuses no no' → Fuses rest out →
      Fuses (.ifE cond yes no :: rest) (fuseIf cond' yes' no' :: out)
  | same (i : Ins) {rest out : List Ins} : Fuses rest out → Fuses (i :: rest) (i :: out)

theorem fuse_fuses : ∀ code : List Ins, Fuses code (fuse code) := by
  intro code
  unfold fuse
  split
  · exact .nil
  · exact .load _ (fuse_fuses _)
  · exact .const _ (fuse_fuses _)
  · split
    · next h => exact .arith _ h (fuse_fuses _)
    · exact .same _ (.same _ (fuse_fuses _))
  · exact .glob _ (fuse_fuses _)
  · next i rest _ _ _ _ =>
      cases i with
      | ifE cond yes no =>
          rw [fuseIns]
          exact .branch (fuse_fuses cond) (fuse_fuses yes) (fuse_fuses no) (fuse_fuses rest)
      | _ => exact .same _ (fuse_fuses rest)
termination_by code => sizeOf code

theorem properIns_fuseIf {cond yes no : List Ins} (hc : proper cond = true)
    (hy : proper yes = true) (hn : proper no = true) : properIns (fuseIf cond yes no) = true := by
  have hd := proper_dropLast hc
  unfold fuseIf
  split
  · split
    · split
      · simp [properIns, proper_dropLast hd, hy, hn]
      · simp [properIns, hd, hy, hn]
    · simp [properIns, hd, hy, hn]
  · simp [properIns, hc, hy, hn]

theorem Fuses.proper {out : List Ins} (h : Fuses code out) :
    Bootstrap.proper code = true → Bootstrap.proper out = true := by
  induction h with
  | nil => exact id
  | load s _ ih | const c _ ih | glob x _ ih =>
      intro hc
      simp only [Bootstrap.proper, properIns, Bool.true_and] at hc ⊢
      exact ih hc
  | arith imm hop _ ih =>
      intro hc
      simp only [Bootstrap.proper, properIns, Bool.true_and, hop] at hc ⊢
      exact ih hc
  | branch _ _ _ _ ihc ihy ihn ih =>
      intro hc
      simp only [Bootstrap.proper, properIns, Bool.and_eq_true_iff] at hc ⊢
      obtain ⟨⟨hcond, hyes, hno⟩, hrest⟩ := hc
      exact ⟨properIns_fuseIf (ihc hcond) (ihy hyes) (ihn hno), ih hrest⟩
  | same i _ ih =>
      intro hc
      simp only [Bootstrap.proper, Bool.and_eq_true_iff] at hc ⊢
      exact ⟨hc.1, ih hc.2⟩

/-- A final return stays where it is: nothing merges with it. -/
theorem Fuses.append_ret {out : List Ins} (h : Fuses code out) {k : Nat} :
    ∀ {body : List Ins}, code = body ++ [.ret k] →
      ∃ body', out = body' ++ [.ret k] ∧ Fuses body body' := by
  induction h with
  | nil => intro body hb; cases body <;> cases hb
  | @load s more out hf ih =>
      intro body hb
      rcases body with _ | ⟨i, _ | ⟨j, body⟩⟩ <;> cases hb
      obtain ⟨body', hout, hb'⟩ := ih rfl
      exact ⟨.loadP s :: body', by rw [hout]; rfl, .load s hb'⟩
  | @const c more out hf ih =>
      intro body hb
      rcases body with _ | ⟨i, _ | ⟨j, body⟩⟩ <;> cases hb
      obtain ⟨body', hout, hb'⟩ := ih rfl
      exact ⟨.constP c :: body', by rw [hout]; rfl, .const c hb'⟩
  | @glob x more out hf ih =>
      intro body hb
      rcases body with _ | ⟨i, _ | ⟨j, body⟩⟩ <;> cases hb
      obtain ⟨body', hout, hb'⟩ := ih rfl
      exact ⟨.globP x :: body', by rw [hout]; rfl, .glob x hb'⟩
  | @arith imm op more out hop hf ih =>
      intro body hb
      rcases body with _ | ⟨i, _ | ⟨j, body⟩⟩ <;> cases hb
      obtain ⟨body', hout, hb'⟩ := ih rfl
      exact ⟨.opI op imm :: body', by rw [hout]; rfl, .arith imm hop hb'⟩
  | @branch cond cond' yes yes' no no' rest out hc hy hn hf ihc ihy ihn ih =>
      intro body hb
      rcases body with _ | ⟨i, body⟩ <;> cases hb
      obtain ⟨body', hout, hb'⟩ := ih rfl
      exact ⟨fuseIf cond' yes' no' :: body', by rw [hout]; rfl, .branch hc hy hn hb'⟩
  | @same i rest out hf ih =>
      intro body hb
      rcases body with _ | ⟨i', body⟩
      · cases hb
        cases hf
        exact ⟨[], rfl, .nil⟩
      · cases hb
        obtain ⟨body', hout, hb'⟩ := ih rfl
        exact ⟨i :: body', by rw [hout]; rfl, .same i hb'⟩

/-! ### Functions -/

/-- The code of a function: room for its locals, a body, and its only return. -/
def Shaped (nargs : Nat) (code : List Ins) : Prop :=
  ∃ n body, code = .reserve n :: (body ++ [.ret nargs]) ∧ proper body = true

theorem Shaped.fuse {nargs : Nat} (h : Shaped nargs code) : Shaped nargs (Bootstrap.fuse code) := by
  obtain ⟨n, body, hcode, hbody⟩ := h
  have hf := fuse_fuses code
  rw [hcode] at hf ⊢
  generalize Bootstrap.fuse (.reserve n :: (body ++ [.ret nargs])) = out at hf ⊢
  cases hf with
  | same _ hf =>
      obtain ⟨body', hout, hb'⟩ := hf.append_ret rfl
      exact ⟨n, body', by rw [hout], hb'.proper hbody⟩

/-- The functions that compiling an expression adds: all of the right shape and without a
name. -/
structure Adds (pool pool' : List FnRec) : Prop where
  shaped : (∀ f ∈ pool, Shaped f.nargs f.code) → ∀ f ∈ pool', Shaped f.nargs f.code
  names : pool'.filterMap FnRec.name = pool.filterMap FnRec.name

theorem Adds.refl (pool : List FnRec) : Adds pool pool := ⟨id, rfl⟩

theorem Adds.trans {a b c : List FnRec} (h : Adds a b) (h' : Adds b c) : Adds a c :=
  ⟨fun ha => h'.shaped (h.shaped ha), h'.names.trans h.names⟩

theorem insertFn_perm (fr : FnRec) (pool : List FnRec) :
    (insertFn fr pool).Perm (fr :: pool) := by
  induction pool with
  | nil => exact .refl _
  | cons f rest ih =>
      rw [insertFn]
      split
      · exact .refl _
      · exact (ih.cons f).trans (.swap fr f rest)

theorem filterMap_insertFn_none (h : fr.name = none) (pool : List FnRec) :
    (insertFn fr pool).filterMap FnRec.name = pool.filterMap FnRec.name := by
  induction pool with
  | nil => simp [insertFn, h]
  | cons f rest ih =>
      rw [insertFn]
      split
      · rw [List.filterMap_cons_none h]
      · rw [List.filterMap_cons, List.filterMap_cons, ih]

theorem filterMap_insertFn_some {x : Symbol} (h : fr.name = some x) (pool : List FnRec) :
    ((insertFn fr pool).filterMap FnRec.name).Perm (x :: pool.filterMap FnRec.name) := by
  rw [← List.filterMap_cons_some h]
  exact (insertFn_perm fr pool).filterMap FnRec.name

theorem Shaped.insertFn {pool : List FnRec} (h : Shaped fr.nargs fr.code)
    (hp : ∀ f ∈ pool, Shaped f.nargs f.code) :
    ∀ f ∈ Bootstrap.insertFn fr pool, Shaped f.nargs f.code := by
  intro f hf
  rcases mem_insertFn.mp hf with heq | hmem
  · exact heq ▸ h
  · exact hp f hmem

theorem proper_freeLoads (env up : Binds) :
    ∀ fvs : List Symbol, proper (freeLoads fvs env up) = true := by
  have hload : ∀ f, properIns (freeLoad f env up) = true := by
    intro f
    unfold freeLoad
    split <;> rfl
  intro fvs
  induction fvs with
  | nil => rfl
  | cons f rest ih =>
      cases rest with
      | nil => simp [freeLoads, proper, hload]
      | cons f' rest =>
          simp only [freeLoads, proper, hload, properIns, Bool.true_and]
          exact ih

/-- A lambda adds its function to those of its body. -/
theorem Adds.close {params fvs : List Symbol} {c : Ctx} {body : List Ins × Ctx}
    (hcode : proper body.1 = true) (h : Adds c.fns body.2.fns) :
    proper (closeLambda params fvs c none none body).1 = true ∧
      Adds c.fns (closeLambda params fvs c none none body).2.fns := by
  refine ⟨?_, ?_, ?_⟩
  · exact proper_append.mpr ⟨proper_freeLoads _ _ fvs, rfl⟩
  · intro hp
    exact Shaped.insertFn ⟨_, _, rfl, hcode⟩ (h.shaped hp)
  · exact (filterMap_insertFn_none rfl _).trans h.names

/-- A define adds its name as well. -/
theorem Adds.define {params fvs : List Symbol} {c : Ctx} {name : Symbol} {fid : Option Nat}
    {body : List Ins × Ctx} (h : Adds c.fns body.2.fns) :
    ((closeLambda params fvs c (some name) fid body).2.fns.filterMap FnRec.name).Perm
      (name :: c.fns.filterMap FnRec.name) := by
  rw [← h.names]
  exact filterMap_insertFn_some rfl _

theorem proper_constIns (x : Const) : proper (constIns x) = true := by
  cases x <;> rfl

theorem proper_compileRef (x : Symbol) (c : Ctx) : proper (compileRef x c) = true := by
  unfold compileRef
  split
  · rfl
  · split <;> rfl

theorem proper_compileHead (x : Symbol) (g : Binds) (c : Ctx) :
    proper (compileHead x g c) = true := by
  unfold compileHead
  split
  · rfl
  · exact proper_compileRef x c

theorem proper_callIns (tail : Bool) (n : Nat) : proper [callIns tail n] = true := by
  cases tail <;> rfl

mutual

/-- Compiling an expression emits code of a body and adds only functions of the right shape. -/
theorem compileExpr_shape (g : Binds) : ∀ (e : Expr) (c : Ctx) (tail : Bool),
    proper (compileExpr g e c tail).1 = true ∧ Adds c.fns (compileExpr g e c tail).2.fns
  | .const x, c, _ => ⟨proper_constIns x, .refl _⟩
  | .sym x, c, _ => ⟨proper_compileRef x c, .refl _⟩
  | .lambda params body, c, _ => by
      obtain ⟨hcode, hadds⟩ := compileExpr_shape g body
        (bodyCtx params (captured params body g c) c) true
      exact Adds.close hcode hadds
  | .letE x init body, c, tail => by
      obtain ⟨hi, hai⟩ := compileExpr_shape g init c false
      obtain ⟨hb, hab⟩ := compileExpr_shape g body
        { (compileExpr g init c false).2 with
          locals := (x, (compileExpr g init c false).2.nextSlot) ::
            (compileExpr g init c false).2.locals
          nextSlot := (compileExpr g init c false).2.nextSlot + 1 } tail
      exact ⟨proper_append.mpr ⟨hi, hb⟩, hai.trans hab⟩
  | .ifE cond yes no, c, tail => by
      obtain ⟨hc, hac⟩ := compileExpr_shape g cond c false
      obtain ⟨hy, hay⟩ := compileExpr_shape g yes (compileExpr g cond c false).2 tail
      obtain ⟨hn, han⟩ := compileExpr_shape g no
        { (compileExpr g yes (compileExpr g cond c false).2 tail).2 with
          locals := (compileExpr g cond c false).2.locals
          upvals := (compileExpr g cond c false).2.upvals } tail
      refine ⟨?_, (hac.trans hay).trans han⟩
      simp only [compileExpr, proper, properIns, hc, hy, hn, Bool.and_self]
  | .begin forms, c, tail => compileBegin_shape g forms c tail
  | .call callee args, c, tail => by
      have ha := compileArgs_shape g args c
      simp only [compileExpr]
      split
      · exact ⟨proper_append.mpr ⟨ha.1, rfl⟩, ha.2⟩
      · split
        · split
          · exact ⟨rfl, .refl _⟩
          · exact ⟨proper_append.mpr ⟨ha.1, rfl⟩, ha.2⟩
        · have hhead : proper (callee.onHead (fun name => (compileHead name g c, c))
              (compileExpr g callee c false)).1 = true ∧
              Adds c.fns (callee.onHead (fun name => (compileHead name g c, c))
                (compileExpr g callee c false)).2.fns := by
            rcases callee.head_cases with ⟨x, hx⟩ | hh
            · rw [hx]
              exact ⟨proper_compileHead x g c, .refl _⟩
            · rw [hh]
              exact compileExpr_shape g callee c false
          generalize callee.onHead (fun name => (compileHead name g c, c))
            (compileExpr g callee c false) = r at hhead ⊢
          have ha' := compileArgs_shape g args r.2
          split
          · exact ⟨proper_append.mpr ⟨hhead.1, proper_callIns tail _⟩, hhead.2⟩
          · refine ⟨proper_append.mpr ⟨hhead.1, ?_⟩, hhead.2.trans ha'.2⟩
            exact proper_append.mpr ⟨ha'.1, proper_callIns tail _⟩

theorem compileBegin_shape (g : Binds) : ∀ (es : List Expr) (c : Ctx) (tail : Bool),
    proper (compileBegin g es c tail).1 = true ∧ Adds c.fns (compileBegin g es c tail).2.fns
  | [], _, _ => ⟨rfl, .refl _⟩
  | [e], c, tail => compileExpr_shape g e c tail
  | e :: e' :: es, c, tail => by
      obtain ⟨he, hae⟩ := compileExpr_shape g e c false
      obtain ⟨hr, har⟩ := compileBegin_shape g (e' :: es) (compileExpr g e c false).2 tail
      exact ⟨proper_append.mpr ⟨he, hr⟩, hae.trans har⟩

theorem compileArgs_shape (g : Binds) : ∀ (es : List Expr) (c : Ctx),
    proper (compileArgs g es c).1 = true ∧ Adds c.fns (compileArgs g es c).2.fns
  | [], _ => ⟨rfl, .refl _⟩
  | [e], c => compileExpr_shape g e c false
  | e :: e' :: es, c => by
      obtain ⟨he, hae⟩ := compileExpr_shape g e c false
      obtain ⟨hr, har⟩ := compileArgs_shape g (e' :: es) (compileExpr g e c false).2
      exact ⟨proper_append.mpr ⟨he, hr⟩, hae.trans har⟩

end

/-! ### Programs -/

def definedNames : List Top → List Symbol
  | [] => []
  | .define name _ :: rest => name :: definedNames rest
  | .expr _ :: rest => definedNames rest

/-- The defines of a program have names of their own. -/
theorem collectGlobals_nodup : ∀ (prog : List Top) {k : Nat} {acc : Binds} {r : Binds × Nat},
    collectGlobals prog k acc = .ok r →
      (definedNames prog).Nodup ∧ ∀ x ∈ definedNames prog, acc.lookup x = none
  | [], _, _, _, _ => ⟨List.nodup_nil, nofun⟩
  | .expr _ :: rest, k, acc, r, h => by
      rw [collectGlobals] at h
      exact collectGlobals_nodup rest h
  | .define name _ :: rest, k, acc, r, h => by
      rw [collectGlobals] at h
      split at h
      · next hnone =>
          obtain ⟨hnodup, hnew⟩ := collectGlobals_nodup rest h
          have hfresh : ∀ x ∈ definedNames rest, x ≠ name ∧ acc.lookup x = none := by
            intro x hx
            have hlookup := hnew x hx
            rw [List.lookup_append, Option.or_eq_none_iff] at hlookup
            refine ⟨?_, hlookup.1⟩
            intro heq
            rw [heq] at hlookup
            simp at hlookup
          refine ⟨List.nodup_cons.mpr ⟨fun hmem => (hfresh name hmem).1 rfl, hnodup⟩, ?_⟩
          exact List.forall_mem_cons.mpr ⟨hnone, fun x hx => (hfresh x hx).2⟩
      · cases h

/-- The functions of a program, so far: all shaped, and named after defines. -/
structure Names (prog : List Top) (pool pool' : List FnRec) : Prop where
  shaped : (∀ f ∈ pool, Shaped f.nargs f.code) → ∀ f ∈ pool', Shaped f.nargs f.code
  names : ∃ ns, ns.Sublist (definedNames prog) ∧
    (pool'.filterMap FnRec.name).Perm (ns ++ pool.filterMap FnRec.name)

theorem compileProgram_names (g : Binds) : ∀ (prog : List Top) (c : Ctx),
    proper (compileProgram g prog c).1 = true ∧ Names prog c.fns (compileProgram g prog c).2.fns
  | [], c => ⟨rfl, id, [], List.nil_sublist _, .refl _⟩
  | .expr e :: rest, c => by
      obtain ⟨he, hae⟩ := compileExpr_shape g e c false
      obtain ⟨hr, hsh, ns, hsub, hperm⟩ := compileProgram_names g rest (compileExpr g e c false).2
      refine ⟨proper_append.mpr ⟨he, hr⟩, fun hp => hsh (hae.shaped hp), ns, hsub, ?_⟩
      rw [hae.names] at hperm
      exact hperm
  | .define name value :: rest, c => by
      cases value with
      | lambda params body =>
          obtain ⟨hb, hab⟩ := compileExpr_shape g body
            (bodyCtx params (captured params body g c) c) true
          obtain ⟨hr, hsh, ns, hsub, hperm⟩ := compileProgram_names g rest
            (closeLambda params (captured params body g c) c (some name) (g.lookup name)
              (compileExpr g body (bodyCtx params (captured params body g c) c) true)).2
          refine ⟨hr, fun hp => hsh (Shaped.insertFn ⟨_, _, rfl, hb⟩ (hab.shaped hp)),
            name :: ns, hsub.cons_cons name, hperm.trans ?_⟩
          have hdefine := @Adds.define params (captured params body g c) c name (g.lookup name) _ hab
          exact (hdefine.append_left ns).trans List.perm_middle
      | _ =>
          obtain ⟨hr, hsh, ns, hsub, hperm⟩ := compileProgram_names g rest c
          exact ⟨hr, hsh, ns, hsub.cons _, hperm⟩

/-- **The functions of a program have the shape, and no two of them one name.** -/
theorem programFns_shape {prog : List Top} {g : Binds} {nid : Nat}
    (h : collectGlobals prog 1 [] = .ok (g, nid)) :
    (∀ f ∈ programFns g nid prog, Shaped f.nargs f.code) ∧
      ((programFns g nid prog).filterMap FnRec.name).Nodup := by
  obtain ⟨hcode, hsh, ns, hsub, hperm⟩ := compileProgram_names g prog ⟨[], [], 4, nid, []⟩
  refine ⟨Shaped.insertFn ⟨_, _, rfl, hcode⟩ (hsh nofun), ?_⟩
  unfold programFns
  rw [filterMap_insertFn_none rfl, hperm.nodup_iff, List.filterMap_nil, List.append_nil]
  exact (collectGlobals_nodup prog h).1.sublist hsub

end TinyActor.Bootstrap
