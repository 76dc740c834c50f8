/-
String literals: from the text of a literal to the string in the tree.

A literal is spelled piece by piece, each of which stands for one byte.  The reader of the
tokenizer decodes the pieces one after another; the token vector then hands the text to the
parser as C reads it back, and the parser puts it into the tree as it is.

Two kinds of literals do not arrive.  A zero byte ends the text in the token vector.  And a
hexadecimal digit from `A` to `F` is not taken for a digit, so that the escape it is part
of stays in the text as it is written.
-/
import TinyActor.Front.Parser
import Mathlib.Data.List.Forall2
import Mathlib.Data.List.TakeWhile

namespace TinyActor.Front

open TinyActor.Bootstrap (Form)

/-! ### Spellings -/

/-- The part of a literal that stands for one byte. -/
inductive Piece
  | raw (c : Char)
  | escape (e : Char)
  | hex (hi lo : Char)

/-- The escapes of one character, with the bytes they stand for. -/
def escapes : List (Char × Char) :=
  [('n', '\n'), ('r', '\r'), ('t', '\t'), ('\\', '\\'), ('"', '"'), ('\'', '\'')]

/-- The value of a hexadecimal digit, in either case. -/
def hexValue (c : Char) : Option Nat :=
  if '0' ≤ c ∧ c ≤ '9' then some (c.toNat - '0'.toNat)
  else if 'a' ≤ c ∧ c ≤ 'f' then some (c.toNat - 'a'.toNat + 10)
  else if 'A' ≤ c ∧ c ≤ 'F' then some (c.toNat - 'A'.toNat + 10)
  else none

namespace Piece

def text : Piece → List Char
  | raw c => [c]
  | escape e => ['\\', e]
  | hex hi lo => ['\\', 'x', hi, lo]

/-- The byte a piece stands for, if it may stand in a literal. -/
def byte : Piece → Option Char
  | raw c => if c = '"' ∨ c = '\\' then none else some c
  | escape e => escapes.lookup e
  | hex hi lo =>
      match hexValue hi, hexValue lo with
      | some h, some l => some (Char.ofNat (h * 16 + l))
      | _, _ => none

/-- Without a digit from `A` to `F`. -/
def lower : Piece → Bool
  | hex hi lo => !hi.isUpper && !lo.isUpper
  | _ => true

end Piece

/-- The text of a literal, from one double quote to the other. -/
def literal (ps : List Piece) : List Char := '"' :: (ps.flatMap Piece.text ++ ['"'])

/-- The pieces stand for these bytes. -/
def Spells (ps : List Piece) (bytes : List Char) : Prop :=
  List.Forall₂ (fun p b => Piece.byte p = some b) ps bytes

/-! ### Reading a literal -/

theorem hexDigit_of_hexValue {c : Char} {v : Nat} (h : hexValue c = some v)
    (hl : c.isUpper = false) : hexDigit c = some v := by
  have hupper : ¬('A' ≤ c ∧ c ≤ 'F') := by
    rintro ⟨ha, hf⟩
    have : c.isUpper = true := decide_eq_true ⟨ha, Nat.le_trans hf (by decide)⟩
    simp [this] at hl
  unfold hexValue at h
  split at h
  · rename_i hd
    simp [hexDigit, hd.1, hd.2, ← h]
  · rename_i hd
    split at h
    · rename_i ha
      have h0 : '0' ≤ c := Nat.le_trans (by decide) ha.1
      have h9 : ¬ c ≤ '9' := fun h9 => hd ⟨h0, h9⟩
      simp [hexDigit, h0, h9, ha.1, ha.2, ← h]
    · cases h

theorem escapeValue_of_lookup {e b : Char} (h : escapes.lookup e = some b) :
    escapeValue e = some b ∧ e ≠ 'x' := by
  obtain ⟨before, after, heq, -⟩ := List.lookup_eq_some_iff.mp h
  have hm : (e, b) ∈ escapes := by simp [heq]
  simp only [escapes, List.mem_cons, Prod.mk.injEq, List.not_mem_nil, or_false] at hm
  rcases hm with ⟨rfl, rfl⟩ | ⟨rfl, rfl⟩ | ⟨rfl, rfl⟩ | ⟨rfl, rfl⟩ | ⟨rfl, rfl⟩ | ⟨rfl, rfl⟩ <;>
    decide

theorem hexDigit_of_upper {c : Char} (hu : c.isUpper = true) : hexDigit c = none := by
  obtain ⟨ha, hz⟩ : 'A' ≤ c ∧ c ≤ 'Z' := of_decide_eq_true hu
  have h9 : ¬ c ≤ '9' := fun h => absurd (Nat.le_trans ha h) (by decide)
  have hlow : ¬ 'a' ≤ c := fun h => absurd (Nat.le_trans h hz) (by decide)
  simp [hexDigit, h9, hlow]

/-- A hexadecimal digit is neither a quote nor a backslash nor a zero byte. -/
theorem hexValue_ne {c : Char} {v : Nat} (h : hexValue c = some v) :
    c ≠ '"' ∧ c ≠ '\\' ∧ c ≠ '\x00' := by
  refine ⟨?_, ?_, ?_⟩ <;> (rintro rfl; cases h)

/-- What the reader makes of a piece: the byte it stands for, or the escape as it is written. -/
def Piece.decoded (p : Piece) : List Char := if p.lower then p.byte.toList else p.text

/-- A piece without a digit in upper case is read as the byte it stands for. -/
theorem readStringLit_lower {p : Piece} {b : Char} (hb : p.byte = some b)
    (hl : p.lower = true) (rest raw acc : List Char) (lines : Nat) :
    ∃ lines', readStringLit (p.text ++ rest) raw acc lines =
      readStringLit rest (raw ++ p.text) (acc ++ [b]) lines' := by
  cases p with
  | raw c =>
      simp only [Piece.byte] at hb
      split at hb
      · cases hb
      · rename_i hc
        obtain ⟨hq, hs⟩ := not_or.mp hc
        cases hb
        refine ⟨if b = '\n' then lines + 1 else lines, ?_⟩
        rw [readStringLit.eq_def]
        simp [Piece.text, hq, hs]
  | escape e =>
      obtain ⟨hv, hx⟩ := escapeValue_of_lookup hb
      refine ⟨lines, ?_⟩
      rw [readStringLit.eq_def]
      simp [Piece.text, hv, hx]
  | hex hi lo =>
      simp only [Piece.byte] at hb
      simp only [Piece.lower, Bool.and_eq_true, Bool.not_eq_true'] at hl
      split at hb
      · rename_i h l hh hlo
        cases hb
        refine ⟨lines, ?_⟩
        rw [readStringLit.eq_def]
        simp [Piece.text, hexDigit_of_hexValue hh hl.1, hexDigit_of_hexValue hlo hl.2]
      · cases hb

/-- A character that is neither a quote nor a backslash is read as it is. -/
theorem readStringLit_raw {c : Char} (hq : c ≠ '"') (hs : c ≠ '\\') (rest raw acc : List Char)
    (lines : Nat) :
    ∃ lines', readStringLit (c :: rest) raw acc lines =
      readStringLit rest (raw ++ [c]) (acc ++ [c]) lines' := by
  refine ⟨if c = '\n' then lines + 1 else lines, ?_⟩
  rw [readStringLit.eq_def]
  simp [hq, hs]

/-- An escape with a digit in upper case stays as it is written. -/
theorem readStringLit_upper {hi lo b : Char} (hb : (Piece.hex hi lo).byte = some b)
    (hu : (Piece.hex hi lo).lower = false) (rest raw acc : List Char) (lines : Nat) :
    ∃ lines', readStringLit ('\\' :: 'x' :: hi :: lo :: rest) raw acc lines =
      readStringLit rest (raw ++ ['\\', 'x', hi, lo]) (acc ++ ['\\', 'x', hi, lo]) lines' := by
  simp only [Piece.byte] at hb
  split at hb
  · rename_i h l hh hlo
    have hnone : hexDigit hi = none ∨ hexDigit lo = none := by
      simp only [Piece.lower, Bool.and_eq_false_iff, Bool.not_eq_false'] at hu
      exact hu.imp hexDigit_of_upper hexDigit_of_upper
    obtain ⟨hhq, hhs, -⟩ := hexValue_ne hh
    obtain ⟨hlq, hls, -⟩ := hexValue_ne hlo
    have hskip : readStringLit ('\\' :: 'x' :: hi :: lo :: rest) raw acc lines =
        readStringLit (hi :: lo :: rest) (raw ++ ['\\', 'x']) (acc ++ ['\\', 'x']) lines := by
      rw [readStringLit.eq_def]
      rcases hnone with hn | hn
      · simp [hn]
      · cases hd : hexDigit hi <;> simp [hn, hd]
    obtain ⟨lines1, h1⟩ := readStringLit_raw hhq hhs (lo :: rest) (raw ++ ['\\', 'x'])
      (acc ++ ['\\', 'x']) lines
    obtain ⟨lines2, h2⟩ := readStringLit_raw hlq hls rest (raw ++ ['\\', 'x'] ++ [hi])
      (acc ++ ['\\', 'x'] ++ [hi]) lines1
    refine ⟨lines2, ?_⟩
    rw [hskip, h1, h2]
    simp
  · cases hb

theorem readStringLit_piece {p : Piece} {b : Char} (hb : p.byte = some b)
    (rest raw acc : List Char) (lines : Nat) :
    ∃ lines', readStringLit (p.text ++ rest) raw acc lines =
      readStringLit rest (raw ++ p.text) (acc ++ p.decoded) lines' := by
  cases hl : p.lower with
  | true =>
      rw [Piece.decoded, if_pos hl, hb]
      exact readStringLit_lower hb hl rest raw acc lines
  | false =>
      rw [Piece.decoded, if_neg (by simp [hl])]
      cases p with
      | raw c => cases hl
      | escape e => cases hl
      | hex hi lo => exact readStringLit_upper hb hl rest raw acc lines

/-- The pieces up to the closing quote are decoded one after the other. -/
theorem readStringLit_spells {ps : List Piece} {bytes : List Char} (h : Spells ps bytes)
    (rest raw acc : List Char) (lines : Nat) :
    ∃ lines', readStringLit (ps.flatMap Piece.text ++ '"' :: rest) raw acc lines =
      (⟨.string, .str (acc ++ ps.flatMap Piece.decoded)⟩, rest, lines') := by
  induction h generalizing raw acc lines with
  | nil =>
      refine ⟨lines, ?_⟩
      rw [readStringLit.eq_def]
      simp
  | @cons p b ps bytes hb _ ih =>
      obtain ⟨lines1, h1⟩ := readStringLit_piece hb (ps.flatMap Piece.text ++ '"' :: rest) raw acc
        lines
      obtain ⟨lines2, h2⟩ := ih (raw ++ p.text) (acc ++ p.decoded) lines1
      refine ⟨lines2, ?_⟩
      rw [List.flatMap_cons, List.append_assoc, h1, h2, List.append_assoc, List.flatMap_cons]

theorem readToken_literal {ps : List Piece} {bytes : List Char} (h : Spells ps bytes) (ws : Bool)
    (rest : List Char) :
    ∃ lines, readToken ws (literal ps ++ rest) =
      (⟨.string, .str (ps.flatMap Piece.decoded)⟩, rest, lines) := by
  obtain ⟨lines, hr⟩ := readStringLit_spells h rest [] [] 0
  refine ⟨lines, ?_⟩
  simpa [literal, readToken, punctuation] using hr

/-! ### What arrives -/

/-- A piece is decoded to its byte, or to four characters none of which is a zero byte. -/
theorem Piece.decoded_cases {p : Piece} {b : Char} (hb : p.byte = some b) :
    p.lower = true ∧ p.decoded = [b] ∨
      p.lower = false ∧ p.decoded.length = 4 ∧ '\x00' ∉ p.decoded := by
  cases hl : p.lower with
  | true => exact .inl ⟨rfl, by rw [decoded, if_pos hl, hb]; rfl⟩
  | false =>
      refine .inr ⟨rfl, ?_⟩
      rw [decoded, if_neg (by simp [hl])]
      cases p with
      | raw c => cases hl
      | escape e => cases hl
      | hex hi lo =>
          simp only [byte] at hb
          split at hb
          · rename_i h l hh hlo
            refine ⟨rfl, ?_⟩
            simp [text, (hexValue_ne hh).2.2.symm, (hexValue_ne hlo).2.2.symm]
          · cases hb

/-- The decoded pieces are at least as long as the bytes they stand for, and as long only
without digits in upper case; a zero byte in them is one they stand for. -/
theorem decoded_spells {ps : List Piece} {bytes : List Char} (h : Spells ps bytes) :
    bytes.length ≤ (ps.flatMap Piece.decoded).length ∧
      ((ps.flatMap Piece.decoded).length = bytes.length → ∀ p ∈ ps, p.lower = true) ∧
      ('\x00' ∈ ps.flatMap Piece.decoded → '\x00' ∈ bytes) ∧
      ((∀ p ∈ ps, p.lower = true) → ps.flatMap Piece.decoded = bytes) := by
  induction h with
  | nil => simp
  | @cons p b ps bytes hb _ ih =>
      obtain ⟨hle, heq, hzero, hlower⟩ := ih
      simp only [List.flatMap_cons, List.length_append, List.length_cons, List.mem_append,
        List.mem_cons, forall_eq_or_imp]
      rcases Piece.decoded_cases hb with ⟨hl, hd⟩ | ⟨hl, hlen, hz⟩
      · rw [hd, List.length_singleton, List.mem_singleton]
        refine ⟨by omega, fun h => ⟨hl, heq (by omega)⟩, fun h => h.imp_right hzero, ?_⟩
        rintro ⟨-, hall⟩
        rw [hlower hall]
        rfl
      · rw [hlen]
        refine ⟨by omega, fun h => absurd h (by omega), ?_, ?_⟩
        · exact fun h => h.elim (fun h => absurd h hz) (fun h => .inr (hzero h))
        · rintro ⟨h, -⟩
          rw [hl] at h
          cases h

theorem cString_eq_self {text : List Char} (h : '\x00' ∉ text) : cString text = text := by
  refine List.takeWhile_eq_self_iff.mpr fun c hc => ?_
  simp only [ne_eq, decide_eq_true_eq]
  rintro rfl
  exact h hc

theorem zero_notMem_cString (text : List Char) : '\x00' ∉ cString text := by
  intro h
  simpa using List.mem_takeWhile_imp h

/-- The token vector hands on the bytes a literal spells exactly if none of them is zero and no
hexadecimal digit is written in upper case. -/
theorem cString_decoded {ps : List Piece} {bytes : List Char} (h : Spells ps bytes) :
    cString (ps.flatMap Piece.decoded) = bytes ↔
      '\x00' ∉ bytes ∧ ∀ p ∈ ps, p.lower = true := by
  obtain ⟨-, heq, hzero, hlower⟩ := decoded_spells h
  constructor
  · intro hc
    have hz : '\x00' ∉ bytes := hc ▸ zero_notMem_cString _
    rw [cString_eq_self (fun hd => hz (hzero hd))] at hc
    exact ⟨hz, heq (congrArg List.length hc)⟩
  · rintro ⟨hz, hall⟩
    rw [hlower hall, cString_eq_self hz]

/-- **The string in the tree is the byte string the literal spells**, whether it is an
expression or a pattern, exactly if no byte is zero and no hexadecimal digit is written in
upper case; and the token ends where the literal ends. -/
theorem literal_string_in_tree {ps : List Piece} {bytes : List Char} (h : Spells ps bytes)
    (ws : Bool) (rest : List Char) (toks : List Token) (pos n : Nat)
    (ht : toks[pos]? = some (readToken ws (literal ps ++ rest)).1) :
    (readToken ws (literal ps ++ rest)).2.1 = rest ∧
      (run toks (n + 1) (.operand pos) = pure (.str (String.ofList bytes), pos + 1) ↔
        '\x00' ∉ bytes ∧ ∀ p ∈ ps, p.lower = true) ∧
      (run toks (n + 1) (.pattern pos) = pure (.str (String.ofList bytes), pos + 1) ↔
        '\x00' ∉ bytes ∧ ∀ p ∈ ps, p.lower = true) := by
  obtain ⟨lines, hr⟩ := readToken_literal h ws rest
  rw [hr] at ht ⊢
  have htype : tokType toks pos = .string := by simp [tokType, ht]
  have hval : (tokVal toks pos).form =
      .str (String.ofList (cString (ps.flatMap Piece.decoded))) := by
    simp [tokVal, ht, TokVal.readBack, TokVal.form]
  have hsame : ∀ x : Form, (pure (x, pos + 1) : Parse Parsed) =
      pure (.str (String.ofList bytes), pos + 1) ↔ x = .str (String.ofList bytes) := by
    intro x
    refine ⟨fun h => ?_, fun h => by rw [h]⟩
    have hfst := (Prod.mk.inj (Except.ok.inj (congrFun h {}))).1
    exact (Prod.mk.inj hfst).1
  refine ⟨rfl, ?_, ?_⟩
  · simp only [run, parseCall, parseOperand, htype, hval]
    rw [hsame, Form.str.injEq, String.ofList_inj, cString_decoded h]
  · simp only [run, parseCall, parsePattern, htype, hval]
    rw [hsame, Form.str.injEq, String.ofList_inj, cString_decoded h]

theorem literal_string_in_tree_carriageReturn :
    (readToken false (literal [.raw 'a', .hex '0' 'd', .escape 'n'] ++ [')'])).2.1 = [')'] ∧
      run [(readToken false (literal [.raw 'a', .hex '0' 'd', .escape 'n'] ++ [')'])).1] 1
          (.operand 0) =
        pure (.str (String.ofList ['a', '\r', '\n']), 1) :=
  have h := literal_string_in_tree (.cons rfl (.cons rfl (.cons rfl .nil))) false [')'] _ 0 0 rfl
  ⟨h.1, h.2.1.mpr ⟨by decide, by simp [Piece.lower]⟩⟩

/-- A literal that spells a carriage return with an upper case digit arrives as the four
characters of the escape, and one with a zero byte in it ends there. -/
theorem literal_upper_and_zero :
    Spells [.hex '0' 'D'] ['\r'] ∧
      run [(readToken false (literal [.hex '0' 'D'])).1] 1 (.operand 0) =
        pure (.str (String.ofList ['\\', 'x', '0', 'D']), 1) ∧
      Spells [.raw 'a', .hex '0' '0', .raw 'b'] ['a', '\x00', 'b'] ∧
      run [(readToken false (literal [.raw 'a', .hex '0' '0', .raw 'b'])).1] 1 (.operand 0) =
        pure (.str (String.ofList ['a']), 1) :=
  ⟨.cons rfl .nil, rfl, .cons rfl (.cons rfl (.cons rfl .nil)), rfl⟩

end TinyActor.Front
