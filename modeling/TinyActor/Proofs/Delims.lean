/-
The check of delimiters before parsing, `scan_tokens` of
`lib/bootstrap/driver.ta`, against proper nesting.

The scan keeps one number for each kind of delimiter and no stack, and it looks at
the numbers when it meets an `eof`.  Up to there it accepts a list when each kind
taken by itself is nested.  It does not object to the delimiters of a nested list
that ends in its `eof`; but two kinds that cross, as in `( [ ) ]`, pass it, and so
does what stands behind an `eof` or is left open without one.
-/
import TinyActor.Front.Source
import TinyActor.Lib.Nesting

namespace TinyActor.Front

open TinyActor.Lib

inductive Delim
  | paren | brack | brace
deriving DecidableEq, Repr

/-- What a token does to the nesting. -/
def TokType.mark : TokType → Option (Mark Delim)
  | .lparen => some (.opens .paren)
  | .rparen => some (.closes .paren)
  | .lbracket => some (.opens .brack)
  | .rbracket => some (.closes .brack)
  | .lbrace => some (.opens .brace)
  | .rbrace => some (.closes .brace)
  | _ => none

def delims (toks : List Token) : List (Mark Delim) := toks.filterMap fun t => t.type.mark

/-- The two complaints of the scan that are not about delimiters. -/
def lexicalErrors : List String := ["unterminated string literal", "unexpected character"]

/-- The tokens the scan complains about whatever the delimiters are. -/
def Token.faulty (t : Token) : Bool := t.type = .unterminated || t.type = .unknown

def eofToken : Token := ⟨.eof, .nil⟩

theorem delims_cons (t : Token) (toks : List Token) :
    delims (t :: toks) = t.type.mark.toList ++ delims toks := by
  unfold delims
  rw [List.filterMap_cons]
  cases t.type.mark <;> rfl

/-- The tokens the scan comes to. -/
def scanned (toks : List Token) : List Token := toks.takeWhile fun t => t.type ≠ .eof

/-- The counter of a kind, run over the tokens from the number given, does not fall below zero,
and is zero if an `eof` comes. -/
def Settled (toks : List Token) (k : Delim) (n : Nat) : Prop :=
  ∃ d, depth k n (delims (scanned toks)) = some d ∧ ((∃ t ∈ toks, t.type = .eof) → d = 0)

/-- No counter falls below zero. -/
def Open (toks : List Token) (paren brack brace : Nat) : Prop :=
  depth .paren paren (delims (scanned toks)) ≠ none ∧
    depth .brack brack (delims (scanned toks)) ≠ none ∧
    depth .brace brace (delims (scanned toks)) ≠ none

variable {toks : List Token} {paren brack brace : Nat}

theorem scanned_cons {t : Token} (h : t.type ≠ .eof) :
    scanned (t :: toks) = t :: scanned toks := by
  simp [scanned, h]

theorem settled_cons {t : Token} {k : Delim} {n : Nat} (h : t.type ≠ .eof) :
    Settled (t :: toks) k n ↔
      ∃ d, depth k n (t.type.mark.toList ++ delims (scanned toks)) = some d ∧
        ((∃ t ∈ toks, t.type = .eof) → d = 0) := by
  simp [Settled, scanned_cons h, delims_cons, h]

theorem scanned_eof {t : Token} (h : t.type = .eof) : scanned (t :: toks) = [] := by
  simp [scanned, h]

theorem settled_eof {t : Token} {k : Delim} {n : Nat} (h : t.type = .eof) :
    Settled (t :: toks) k n ↔ n = 0 := by
  simp [Settled, scanned_eof h, delims, depth, h]

/-- **The scan is three counters.** -/
theorem scanTokens_eq_none_iff :
    scanTokens toks paren brack brace = none ↔ (∀ t ∈ scanned toks, t.faulty = false) ∧
      Settled toks .paren paren ∧ Settled toks .brack brack ∧ Settled toks .brace brace := by
  induction toks generalizing paren brack brace with
  | nil => simp [scanTokens, scanned, Settled, delims, depth]
  | cons t toks ih =>
      by_cases heof : t.type = .eof
      · rw [settled_eof heof, settled_eof heof, settled_eof heof, scanned_eof heof, scanTokens, heof]
        by_cases hp : 0 < paren <;> by_cases hb : 0 < brack <;> by_cases hc : 0 < brace <;>
          simp [hp, hb, hc] <;> omega
      · rw [settled_cons heof, settled_cons heof, settled_cons heof, scanned_cons heof]
        simp only [Settled] at ih
        obtain ⟨type, val⟩ := t
        cases type with
        | eof => exact absurd rfl heof
        | rparen =>
            by_cases h : 0 < paren <;>
              simp [scanTokens, TokType.mark, depth, Token.faulty, h, ih]
        | rbracket =>
            by_cases h : 0 < brack <;>
              simp [scanTokens, TokType.mark, depth, Token.faulty, h, ih]
        | rbrace =>
            by_cases h : 0 < brace <;>
              simp [scanTokens, TokType.mark, depth, Token.faulty, h, ih]
        | _ => simp [scanTokens, TokType.mark, depth, Token.faulty, ih]

/-- Where no counter falls below zero, a faulty token is what is complained about. -/
theorem scanTokens_of_open (hopen : Open toks paren brack brace) :
    (∃ t ∈ scanned toks, t.faulty = true) ↔
      ∃ msg ∈ lexicalErrors, scanTokens toks paren brack brace = some msg := by
  induction toks generalizing paren brack brace with
  | nil => simp [scanTokens, scanned]
  | cons t toks ih =>
      by_cases heof : t.type = .eof
      · rw [scanned_eof heof, scanTokens, heof]
        by_cases hp : 0 < paren <;> by_cases hb : 0 < brack <;> by_cases hc : 0 < brace <;>
          simp [hp, hb, hc, lexicalErrors]
      · simp only [Open, scanned_cons heof, delims_cons] at hopen ih
        rw [scanned_cons heof]
        obtain ⟨type, val⟩ := t
        cases type with
        | eof => exact absurd rfl heof
        | unterminated | unknown => simp [scanTokens, Token.faulty, lexicalErrors]
        | rparen =>
            by_cases h : 0 < paren
            · simp [TokType.mark, depth, h] at hopen
              simpa [scanTokens, Token.faulty, h] using ih hopen
            · simp [TokType.mark, depth, h] at hopen
        | rbracket =>
            by_cases h : 0 < brack
            · simp [TokType.mark, depth, h] at hopen
              simpa [scanTokens, Token.faulty, h] using ih hopen
            · simp [TokType.mark, depth, h] at hopen
        | rbrace =>
            by_cases h : 0 < brace
            · simp [TokType.mark, depth, h] at hopen
              simpa [scanTokens, Token.faulty, h] using ih hopen
            · simp [TokType.mark, depth, h] at hopen
        | _ =>
            simp [TokType.mark, depth] at hopen
            simpa [scanTokens, Token.faulty] using ih hopen

/-- Up to an `eof` a nested list is open at most. -/
theorem open_of_nested (h : Nested (delims toks)) : Open toks 0 0 0 := by
  have hsome : ∀ k, depth k 0 (delims (scanned toks)) ≠ none := by
    intro k hnone
    have hall := h.depth k
    have hsplit : delims toks = delims (scanned toks) ++
        delims (toks.dropWhile fun t => t.type ≠ .eof) := by
      rw [delims, delims, delims, ← List.filterMap_append, scanned, List.takeWhile_append_dropWhile]
    rw [hsplit, depth_append, hnone] at hall
    cases hall
  exact ⟨hsome _, hsome _, hsome _⟩

/-- Each kind of delimiter is settled. -/
def Balanced (toks : List Token) : Prop := ∀ k, Settled toks k 0

theorem checkSyntax_eq_none_iff :
    checkSyntax toks = none ↔ (∀ t ∈ scanned toks, t.faulty = false) ∧ Balanced toks := by
  refine scanTokens_eq_none_iff.trans (and_congr_right fun _ => ⟨?_, fun h => ⟨h _, h _, h _⟩⟩)
  rintro ⟨hp, hb, hc⟩ k
  cases k with
  | paren => exact hp
  | brack => exact hb
  | brace => exact hc

/-- **What the delimiter check decides.**  What it passes is nested, exactly if the list is
nested or has a faulty token or a kind of delimiter that is not balanced by itself; and it
objects to the delimiters of no nested list, exactly if the list is balanced up to its `eof` or
has a faulty token before it.  A list that ends in its only `eof` is balanced if each kind of
its delimiters is nested by itself. -/
theorem checkSyntax_delimiters (toks : List Token) :
    ((checkSyntax toks = none → Nested (delims toks)) ↔
      Nested (delims toks) ∨ (∃ t ∈ scanned toks, t.faulty = true) ∨ ¬ Balanced toks) ∧
    ((Nested (delims toks) → ∀ msg, checkSyntax toks = some msg → msg ∈ lexicalErrors) ↔
      (Nested (delims toks) → (∃ t ∈ scanned toks, t.faulty = true) ∨ Balanced toks)) ∧
    ∀ init, (∀ t ∈ init, t.type ≠ .eof) → toks = init ++ [eofToken] →
      (Balanced toks ↔ ∀ k, Nested ((delims toks).filter fun m => m.kind = k)) ∧
      (Nested (delims toks) → Balanced toks) := by
  have hfaulty : (∃ t ∈ scanned toks, t.faulty = true) ↔ ¬ ∀ t ∈ scanned toks, t.faulty = false := by
    simp
  refine ⟨?_, imp_congr_right fun hnest => ?_, ?_⟩
  · rw [checkSyntax_eq_none_iff, hfaulty]
    tauto
  · have hlexical := scanTokens_of_open (open_of_nested hnest)
    refine ⟨fun hall => ?_, fun h msg hmsg => ?_⟩
    · cases hscan : checkSyntax toks with
      | none => exact .inr (checkSyntax_eq_none_iff.mp hscan).2
      | some msg => exact .inl (hlexical.mpr ⟨msg, hall msg hscan, hscan⟩)
    · by_cases hbad : ∃ t ∈ scanned toks, t.faulty = true
      · obtain ⟨msg', hin, hscan⟩ := hlexical.mp hbad
        rw [checkSyntax, hscan] at hmsg
        exact Option.some.inj hmsg ▸ hin
      · have hnone := checkSyntax_eq_none_iff.mpr ⟨by simpa using hbad, h.resolve_left hbad⟩
        rw [hnone] at hmsg
        cases hmsg
  · rintro init hinit rfl
    have hscanned : scanned (init ++ [eofToken]) = init := by
      rw [scanned, List.takeWhile_append_of_pos fun t ht => decide_eq_true (hinit t ht)]
      exact List.append_nil _
    have hdelims : delims (init ++ [eofToken]) = delims init := by
      rw [delims, List.filterMap_append]
      exact List.append_nil _
    have hkind : Balanced (init ++ [eofToken]) ↔
        ∀ k, Nested ((delims init).filter fun m => m.kind = k) := by
      simp only [nested_filter_iff, Balanced, Settled, hscanned]
      simp [eofToken]
    rw [hdelims]
    exact ⟨hkind, fun h => hkind.mpr fun k => (nested_filter_iff k _).mpr (h.depth k)⟩

/-- `f(a[0])`, as far as its delimiters go. -/
def nestedCall : List Token :=
  [⟨.ident, .str ['f']⟩, ⟨.lparen, .int 0⟩, ⟨.lbracket, .nil⟩, ⟨.rbracket, .nil⟩, ⟨.rparen, .nil⟩]

example : checkSyntax (nestedCall ++ [eofToken]) = none ∧ Nested (delims nestedCall) := by decide

/-- `( [ ) ]` passes the check, and so does a list with an open parenthesis and no
`eof`. -/
theorem checkSyntax_crossing :
    checkSyntax [⟨.lparen, .int 0⟩, ⟨.lbracket, .nil⟩, ⟨.rparen, .nil⟩, ⟨.rbracket, .nil⟩,
      eofToken] = none ∧
    ¬ Nested (delims [⟨.lparen, .int 0⟩, ⟨.lbracket, .nil⟩, ⟨.rparen, .nil⟩, ⟨.rbracket, .nil⟩,
      eofToken]) ∧
    checkSyntax [⟨.lparen, .int 0⟩] = none ∧ ¬ Nested (delims [⟨.lparen, .int 0⟩]) := by
  decide

end TinyActor.Front
