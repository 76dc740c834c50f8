/-
A typed tree survives the way through its form.

The reader tells a call from a special form by the name at its head, and a float
literal by its tag.  So the round trip needs one thing of a tree: none of the words of
the form layer is used as a variable.
-/
import TinyActor.Bootstrap.Form

namespace TinyActor.Bootstrap

open TinyActor.Vm (Symbol)

/-! ### Names the form layer keeps for itself -/

def reserved : List Symbol := ["quote", "if", "begin", "lambda", "let", "define", "float"]

mutual

/-- No variable, parameter or callee of an expression has a reserved name. -/
def unreserved : Expr → Bool
  | .const _ => true
  | .sym x => x ∉ reserved
  | .lambda params body => (params.all fun p => p ∉ reserved) && unreserved body
  | .letE x init body => x ∉ reserved && (unreserved init && unreserved body)
  | .ifE cond yes no => unreserved cond && (unreserved yes && unreserved no)
  | .begin forms => unreservedSeq forms
  | .call callee args => unreserved callee && unreservedSeq args

def unreservedSeq : List Expr → Bool
  | [] => true
  | h :: rest => unreserved h && unreservedSeq rest

end

/-- The same of every form of a program.  The name of a define is free. -/
def unreservedTops : List Top → Bool
  | [] => true
  | .define _ value :: rest => unreserved value && unreservedTops rest
  | .expr e :: rest => unreserved e && unreservedTops rest

/-! ### What the head of a form tells -/

theorem floatFormText_of_ne {head args : Form} (h : head ≠ .sym "float") :
    floatFormText (.pair head args) = .ok none := by
  unfold floatFormText
  split
  · next heq => exact absurd (Form.pair.inj heq).1 h
  · rfl

/-- The encoding of an expression is a reserved symbol only if the expression is. -/
theorem encodeExpr_ne_sym {e : Expr} (h : unreserved e = true) {x : Symbol} (hx : x ∈ reserved) :
    encodeExpr e ≠ .sym x := by
  intro heq
  cases e with
  | sym y =>
      simp only [encodeExpr, Form.sym.injEq] at heq
      simp only [unreserved, decide_eq_true_eq] at h
      exact h (heq ▸ hx)
  | const c => cases c <;> simp [encodeExpr, constAtom, Form.ofList] at heq
  | lambda | letE | ifE | begin | call => simp [encodeExpr, Form.ofList] at heq

theorem parseParams_encode (params : List Symbol) :
    parseParams (.ofList (params.map .sym)) = .ok params := by
  induction params with
  | nil => rfl
  | cons p rest ih =>
      simp only [List.map_cons, Form.ofList, parseParams, Form.name, ih]
      rfl

/-! ### Reading back -/

/-- A form that is no float literal is a special form or a call. -/
theorem parseExpr_pair {head args : Form} (h : head ≠ .sym "float") :
    parseExpr (.pair head args) = parseCompound head args := by
  rw [parseExpr, floatFormText_of_ne h]
  rfl

theorem parseExpr_const : ∀ c : Const, parseExpr (encodeExpr (.const c)) = .ok (.const c)
  | .sym x => by
      rw [encodeExpr, Form.ofList, parseExpr_pair (by decide), parseCompound, if_pos rfl]
      rfl
  | .float text => by
      rw [encodeExpr, constAtom, Form.ofList, parseExpr]
      · rfl
      · intro x h
        cases h
  | .bool true | .bool false | .nil | .int _ | .str _ => by
      rw [encodeExpr, constAtom, parseExpr]
      · rfl
      all_goals
        intros
        contradiction

mutual

/-- **An expression is read back from its form.** -/
theorem parseExpr_encode : ∀ e : Expr, unreserved e = true → parseExpr (encodeExpr e) = .ok e
  | .const c, _ => parseExpr_const c
  | .sym x, _ => by rw [encodeExpr, parseExpr]
  | .lambda params body, h => by
      simp only [unreserved, Bool.and_eq_true] at h
      rw [encodeExpr, Form.ofList, parseExpr_pair (by decide), parseCompound]
      simp only [Form.ofList, Form.atIdx, parseParams_encode, parseExpr_encode body h.2]
      rfl
  | .letE x init body, h => by
      simp only [unreserved, Bool.and_eq_true] at h
      rw [encodeExpr, Form.ofList, parseExpr_pair (by decide), parseCompound]
      simp only [Form.ofList, Form.atIdx, Form.name, parseExpr_encode init h.2.1,
        parseExpr_encode body h.2.2]
      rfl
  | .ifE cond yes no, h => by
      simp only [unreserved, Bool.and_eq_true] at h
      rw [encodeExpr, Form.ofList, parseExpr_pair (by decide), parseCompound]
      simp only [Form.ofList, Form.atIdx, parseExpr_encode cond h.1, parseExpr_encode yes h.2.1,
        parseExpr_encode no h.2.2]
      rfl
  | .begin forms, h => by
      rw [encodeExpr, parseExpr_pair (by decide), parseCompound]
      simp only [parseForms_encode forms h]
      rfl
  | .call callee args, h => by
      simp only [unreserved, Bool.and_eq_true] at h
      have hne : ∀ x ∈ reserved, encodeExpr callee ≠ .sym x := fun x hx =>
        encodeExpr_ne_sym h.1 hx
      rw [encodeExpr, parseExpr_pair (hne "float" (by decide)), parseCompound,
        if_neg (hne "quote" (by decide)), if_neg (hne "if" (by decide)),
        if_neg (hne "begin" (by decide)), if_neg (hne "lambda" (by decide)),
        if_neg (hne "let" (by decide)), parseExpr_encode callee h.1, parseForms_encode args h.2]
      rfl

theorem parseForms_encode : ∀ es : List Expr, unreservedSeq es = true →
    parseForms (encodeForms es) = .ok es
  | [], _ => by
      rw [encodeForms, parseForms]
      nofun
  | e :: es, h => by
      simp only [unreservedSeq, Bool.and_eq_true] at h
      rw [encodeForms, parseForms, parseExpr_encode e h.1, parseForms_encode es h.2]
      rfl

end

/-! ### What is quoted -/

/-- A list is in order if its head is no quote and its elements are in order. -/
theorem quoteOk_pair {head rest : Form} (hne : head ≠ .sym "quote") (hh : quoteOk head = .ok true)
    (hr : quoteOkTail rest = .ok true) : quoteOk (.pair head rest) = .ok true := by
  rw [quoteOk, if_neg hne, hh]
  exact hr

theorem quoteOkTail_pair {head rest : Form} (hh : quoteOk head = .ok true)
    (hr : quoteOkTail rest = .ok true) : quoteOkTail (.pair head rest) = .ok true := by
  rw [quoteOkTail, hh]
  exact hr

theorem quoteOkTail_params (params : List Symbol) :
    quoteOkTail (.ofList (params.map .sym)) = .ok true := by
  induction params with
  | nil => rfl
  | cons p rest ih => exact quoteOkTail_pair rfl ih

theorem quoteOk_params {params : List Symbol} (h : ∀ p ∈ params, p ∉ reserved) :
    quoteOk (.ofList (params.map .sym)) = .ok true := by
  cases params with
  | nil => rfl
  | cons p rest =>
      have hp : p ≠ "quote" := fun heq => h p (List.mem_cons_self ..) (heq ▸ by decide)
      refine quoteOk_pair (fun heq => hp (Form.sym.inj heq)) rfl ?_
      exact quoteOkTail_params rest

theorem quoteOk_const : ∀ c : Const, quoteOk (encodeExpr (.const c)) = .ok true
  | .sym _ | .float _ | .bool _ | .nil | .int _ | .str _ => rfl

mutual

theorem quoteOk_encode : ∀ e : Expr, unreserved e = true → quoteOk (encodeExpr e) = .ok true
  | .const c, _ => quoteOk_const c
  | .sym x, _ => rfl
  | .lambda params body, h => by
      simp only [unreserved, Bool.and_eq_true, List.all_eq_true, decide_eq_true_eq] at h
      refine quoteOk_pair (by decide) rfl (quoteOkTail_pair (quoteOk_params h.1) ?_)
      exact quoteOkTail_pair (quoteOk_encode body h.2) rfl
  | .letE x init body, h => by
      simp only [unreserved, Bool.and_eq_true, decide_eq_true_eq] at h
      have hx : x ≠ "quote" := fun heq => h.1 (heq ▸ by decide)
      have hbind : quoteOk (.ofList [.sym x, encodeExpr init]) = .ok true :=
        quoteOk_pair (fun heq => hx (Form.sym.inj heq)) rfl
          (quoteOkTail_pair (quoteOk_encode init h.2.1) rfl)
      refine quoteOk_pair (by decide) rfl (quoteOkTail_pair hbind ?_)
      exact quoteOkTail_pair (quoteOk_encode body h.2.2) rfl
  | .ifE cond yes no, h => by
      simp only [unreserved, Bool.and_eq_true] at h
      refine quoteOk_pair (by decide) rfl (quoteOkTail_pair (quoteOk_encode cond h.1) ?_)
      refine quoteOkTail_pair (quoteOk_encode yes h.2.1) ?_
      exact quoteOkTail_pair (quoteOk_encode no h.2.2) rfl
  | .begin forms, h => quoteOk_pair (by decide) rfl (quoteOkTail_encode forms h)
  | .call callee args, h => by
      simp only [unreserved, Bool.and_eq_true] at h
      exact quoteOk_pair (encodeExpr_ne_sym h.1 (by decide)) (quoteOk_encode callee h.1)
        (quoteOkTail_encode args h.2)

theorem quoteOkTail_encode : ∀ es : List Expr, unreservedSeq es = true →
    quoteOkTail (encodeForms es) = .ok true
  | [], _ => rfl
  | e :: es, h => by
      simp only [unreservedSeq, Bool.and_eq_true] at h
      exact quoteOkTail_pair (quoteOk_encode e h.1) (quoteOkTail_encode es h.2)

end

/-! ### Programs -/

/-- What an expression is encoded as does not look like a define. -/
theorem isDef_encode {e : Expr} (h : unreserved e = true) : isDef (encodeExpr e) = false := by
  have hcase : ∀ {head rest : Form}, head ≠ .sym "define" → isDef (.pair head rest) = false := by
    intro head rest hne
    unfold isDef
    split
    · next heq => exact absurd (Form.pair.inj heq).1 hne
    · rfl
  cases e with
  | const c => cases c <;> rfl
  | sym x => rfl
  | call callee args =>
      simp only [unreserved, Bool.and_eq_true] at h
      exact hcase (encodeExpr_ne_sym h.1 (by decide))
  | lambda | letE | ifE | begin => exact hcase (by decide)

theorem parseTops_encode : ∀ prog : List Top, unreservedTops prog = true →
    parseTops (encodeProgram prog) = .ok prog
  | [], _ => rfl
  | .define x value :: rest, h => by
      simp only [unreservedTops, Bool.and_eq_true] at h
      rw [encodeProgram, parseTops, if_pos (show isDef _ = true from rfl)]
      simp only [Form.ofList, Form.atIdx, Form.name, parseExpr_encode value h.1,
        parseTops_encode rest h.2]
      rfl
  | .expr e :: rest, h => by
      simp only [unreservedTops, Bool.and_eq_true] at h
      rw [encodeProgram, parseTops, isDef_encode h.1, parseExpr_encode e h.1,
        parseTops_encode rest h.2]
      rfl

theorem quoteOkTail_program : ∀ prog : List Top, unreservedTops prog = true →
    quoteOkTail (encodeProgram prog) = .ok true
  | [], _ => rfl
  | .define x value :: rest, h => by
      simp only [unreservedTops, Bool.and_eq_true] at h
      refine quoteOkTail_pair ?_ (quoteOkTail_program rest h.2)
      refine quoteOk_pair (by decide) rfl (quoteOkTail_pair rfl ?_)
      exact quoteOkTail_pair (quoteOk_encode value h.1) rfl
  | .expr e :: rest, h => by
      simp only [unreservedTops, Bool.and_eq_true] at h
      exact quoteOkTail_pair (quoteOk_encode e h.1) (quoteOkTail_program rest h.2)

/-- The program as a list of forms is scanned like any other form: its first form must
not be the word `quote` either. -/
theorem quoteOk_program : ∀ prog : List Top, unreservedTops prog = true →
    quoteOk (encodeProgram prog) = .ok true
  | [], _ => rfl
  | .define x value :: rest, h => by
      simp only [unreservedTops, Bool.and_eq_true] at h
      refine quoteOk_pair (by simp [Form.ofList]) ?_ (quoteOkTail_program rest h.2)
      refine quoteOk_pair (by decide) rfl (quoteOkTail_pair rfl ?_)
      exact quoteOkTail_pair (quoteOk_encode value h.1) rfl
  | .expr e :: rest, h => by
      simp only [unreservedTops, Bool.and_eq_true] at h
      exact quoteOk_pair (encodeExpr_ne_sym h.1 (by decide)) (quoteOk_encode e h.1)
        (quoteOkTail_program rest h.2)

/-- **A program is read back from its forms**, if no variable or callee in it has a name
the form layer keeps for itself. -/
theorem parseProgram_encodeProgram (prog : List Top) (h : unreservedTops prog = true) :
    parseProgram (encodeProgram prog) = .ok (some prog) := by
  rw [parseProgram, quoteOk_program prog h, parseTops_encode prog h]
  rfl

/-- A define whose body has every kind of expression, and constants that look like
names, calls and literals. -/
theorem parseProgram_encodeProgram_example :
    let prog : List Top :=
      [.define "quote" (.lambda ["x", "y"]
        (.letE "z" (.const (.float "1.5"))
          (.ifE (.sym "x") (.begin [.const (.sym "if"), .const .nil])
            (.call (.call (.sym "f") []) [.const (.str "float"), .const (.bool false)])))),
       .expr (.call (.const (.sym "quote")) [.const (.int 7)])]
    unreservedTops prog = true ∧ parseProgram (encodeProgram prog) = .ok (some prog) :=
  ⟨by decide, parseProgram_encodeProgram _ (by decide)⟩

end TinyActor.Bootstrap
