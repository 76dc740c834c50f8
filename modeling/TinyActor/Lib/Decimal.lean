/-
Integers as decimal text: written one after another with a space behind each, and
scanned back as `scanf` does, skipping white space.
-/
import Mathlib.Data.List.TakeWhile

namespace TinyActor.Lib

/-- An integer in decimal. -/
def decimal : Int → List Char
  | .ofNat n => Nat.toDigits 10 n
  | .negSucc n => '-' :: Nat.toDigits 10 (n + 1)

/-- Integers with a space behind each. -/
def spaced (ws : List Int) : List Char := ws.flatMap fun w => decimal w ++ [' ']

def isBlank (c : Char) : Bool := c = ' ' || c = '\t' || c = '\n' || c = '\r'

/-- Digits from the front, as a number, and what follows. -/
def scanNat (cs : List Char) : Option (Nat × List Char) :=
  match cs.takeWhile Char.isDigit with
  | [] => none
  | ds => some (Nat.ofDigitChars 10 ds 0, cs.dropWhile Char.isDigit)

/-- An integer from the front. -/
def scanInt (cs : List Char) : Option (Int × List Char) :=
  match cs.dropWhile isBlank with
  | '-' :: rest => (scanNat rest).map fun r => (-(r.1 : Int), r.2)
  | '+' :: rest => (scanNat rest).map fun r => ((r.1 : Int), r.2)
  | rest => (scanNat rest).map fun r => ((r.1 : Int), r.2)

/-- Integers from the front for as long as there are any, `n` at most. -/
def scanUpTo : Nat → List Char → List Int
  | 0, _ => []
  | n + 1, cs =>
      match scanInt cs with
      | some (w, rest) => w :: scanUpTo n rest
      | none => []

/-- All integers of a text: there are no more than it has characters. -/
def scanInts (cs : List Char) : List Int := scanUpTo cs.length cs

/-! ### Digits -/

variable {rest : List Char}

/-- A token ends where its characters do. -/
theorem span_token {p : Char → Bool} {ds : List Char} (h : ∀ c ∈ ds, p c = true)
    (hr : ∀ c ∈ rest.head?, p c = false) :
    (ds ++ rest).takeWhile p = ds ∧ (ds ++ rest).dropWhile p = rest := by
  rw [List.takeWhile_append_of_pos h, List.dropWhile_append_of_pos h]
  cases rest with
  | nil => exact ⟨List.append_nil _, rfl⟩
  | cons c rest =>
      rw [List.takeWhile_cons, List.dropWhile_cons, hr c rfl]
      exact ⟨List.append_nil _, rfl⟩

theorem isDigit_of_mem_toDigits {n : Nat} {c : Char} (h : c ∈ Nat.toDigits 10 n) :
    c.isDigit = true := Nat.isDigit_of_mem_toDigits (by decide) (by decide) h

theorem scanNat_toDigits (n : Nat) (hr : ∀ c ∈ rest.head?, c.isDigit = false) :
    scanNat (Nat.toDigits 10 n ++ rest) = some (n, rest) := by
  unfold scanNat
  have hall : ∀ c ∈ Nat.toDigits 10 n, c.isDigit = true := fun _ hc => isDigit_of_mem_toDigits hc
  rw [(span_token hall hr).1, (span_token hall hr).2]
  cases hd : Nat.toDigits 10 n with
  | nil => exact absurd hd Nat.toDigits_ne_nil
  | cons d ds =>
      dsimp only
      rw [← hd, Nat.ofDigitChars_toDigits (by decide) (by decide)]

/-- A digit is none of the other characters an integer or the space before it has. -/
theorem ne_of_isDigit {c : Char} (h : c.isDigit = true) :
    c ≠ '-' ∧ c ≠ '+' ∧ isBlank c = false := by
  refine ⟨?_, ?_, ?_⟩
  · intro heq; subst heq; cases h
  · intro heq; subst heq; cases h
  · unfold isBlank
    simp only [Bool.or_eq_false_iff, decide_eq_false_iff_not]
    refine ⟨⟨⟨?_, ?_⟩, ?_⟩, ?_⟩ <;> intro heq <;> subst heq <;> cases h

theorem scanInt_digits {n : Nat} (hr : ∀ c ∈ rest.head?, c.isDigit = false) :
    scanInt (Nat.toDigits 10 n ++ rest) = some ((n : Int), rest) := by
  have hscan := scanNat_toDigits n hr
  cases hd : Nat.toDigits 10 n with
  | nil => exact absurd hd Nat.toDigits_ne_nil
  | cons d ds =>
      have hdig : d.isDigit = true := isDigit_of_mem_toDigits (hd ▸ List.mem_cons_self ..)
      obtain ⟨hm, hp, hb⟩ := ne_of_isDigit hdig
      rw [hd] at hscan
      rw [List.cons_append] at hscan ⊢
      unfold scanInt
      rw [List.dropWhile_cons, hb, if_neg Bool.false_ne_true]
      split
      · next heq => exact absurd (List.cons.inj heq).1 hm
      · next heq => exact absurd (List.cons.inj heq).1 hp
      · rw [hscan]; rfl

/-- An integer is scanned back where no digit follows. -/
theorem scanInt_decimal (w : Int) (hr : ∀ c ∈ rest.head?, c.isDigit = false) :
    scanInt (decimal w ++ rest) = some (w, rest) := by
  cases w with
  | ofNat n => exact scanInt_digits hr
  | negSucc n =>
      have hscan := scanNat_toDigits (n + 1) hr
      simp only [decimal, List.cons_append, scanInt]
      rw [List.dropWhile_cons, if_neg (by decide)]
      simp only [hscan, Option.map_some]
      rfl

theorem decimal_ne_nil (w : Int) : decimal w ≠ [] := by
  cases w with
  | ofNat n => exact Nat.toDigits_ne_nil
  | negSucc n => exact List.cons_ne_nil _ _

theorem scanInt_blank (cs : List Char) : scanInt (' ' :: cs) = scanInt cs := rfl

theorem scanUpTo_spaced (ws : List Int) :
    ∀ n, (spaced ws).length ≤ n →
      scanUpTo n (spaced ws) = ws ∧ scanUpTo n (' ' :: spaced ws) = ws := by
  induction ws with
  | nil => intro n _; cases n <;> exact ⟨rfl, rfl⟩
  | cons w ws ih =>
      intro n hn
      have hlen : 0 < (decimal w).length := List.length_pos_iff.mpr (decimal_ne_nil w)
      have hcons : spaced (w :: ws) = decimal w ++ ' ' :: spaced ws := by
        simp [spaced, List.append_assoc]
      rw [hcons] at hn ⊢
      rw [List.length_append, List.length_cons] at hn
      cases n with
      | zero => omega
      | succ n =>
          have hscan : scanInt (decimal w ++ ' ' :: spaced ws) = some (w, ' ' :: spaced ws) :=
            scanInt_decimal w fun c hc => by cases hc; rfl
          have htail := (ih n (by omega)).2
          simp only [scanUpTo, scanInt_blank, hscan, htail, and_self]

/-- **Integers written with a space behind each are scanned back.** -/
theorem scanInts_spaced (ws : List Int) : scanInts (spaced ws) = ws :=
  (scanUpTo_spaced ws _ (Nat.le_refl _)).1

end TinyActor.Lib
