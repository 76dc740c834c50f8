/-
Integers converted to text and back.

Digits are written one after another from a number, so what they stand for, read from the
left, is the number.  A decimal text is compared with the text of the number it was read as:
without its leading zeros it is the text of the number it stands for, so the two are equal
exactly if nothing was cut off when it was read.
-/
import Mathlib.Data.Int.ModEq
import TinyActor.Proofs.Numeral
import TinyActor.Stdlib.Strconv

namespace TinyActor.Stdlib

open Lib

variable {c : UInt8} {ds s : Bytes} {n : Nat}

namespace Str

/-! ### The text of a number -/

theorem fromInt_nat (n : Nat) : fromInt n = digits n := rfl

theorem fromInt_neg (h : n ≠ 0) : fromInt (-n) = 45 :: digits n := by
  obtain ⟨m, rfl⟩ := Nat.exists_eq_succ_of_ne_zero h
  rfl

theorem isDigit_ofChar {c : Char} (h : c.isDigit = true) :
    (UInt8.ofNat c.toNat).toNat = c.toNat ∧ isDigit (UInt8.ofNat c.toNat) = true := by
  have hb : 48 ≤ c.toNat ∧ c.toNat ≤ 57 := Char.isDigit_iff_toNat.mp h
  have hnat : (UInt8.ofNat c.toNat).toNat = c.toNat := by
    rw [UInt8.toNat_ofNat']
    omega
  refine ⟨hnat, ?_⟩
  rw [isDigit, Bool.and_eq_true, decide_eq_true_eq, decide_eq_true_eq, UInt8.le_iff_toNat_le,
    UInt8.le_iff_toNat_le, hnat]
  exact hb

theorem foldl_digits (cs : List Char) (a : Nat) (h : ∀ c ∈ cs, c.isDigit = true) :
    (cs.map fun c => UInt8.ofNat c.toNat).foldl (fun a c => a * 10 + (c.toNat - 48)) a =
      Nat.ofDigitChars 10 cs a := by
  induction cs generalizing a with
  | nil => rfl
  | cons c cs ih =>
      obtain ⟨hc, hcs⟩ := List.forall_mem_cons.mp h
      rw [List.map_cons, List.foldl_cons, ih _ hcs, Nat.ofDigitChars_cons, (isDigit_ofChar hc).1,
        Nat.mul_comm]
      rfl

theorem digits_isDecimal (n : Nat) : IsDecimal (digits n) n := by
  have hall : ∀ c ∈ Nat.toDigits 10 n, c.isDigit = true := fun _ hc => isDigit_of_mem_toDigits hc
  refine ⟨?_, ?_, ?_⟩
  · simp [digits, Nat.toDigits_ne_nil]
  · intro c hc
    obtain ⟨d, hd, rfl⟩ := List.mem_map.mp hc
    exact (isDigit_ofChar (hall d hd)).2
  · rw [decimalValue, digits, foldl_digits _ _ hall, Nat.ofDigitChars_toDigits (by decide) (by decide)]

theorem decimalValue_concat (ds : Bytes) (d : UInt8) :
    decimalValue (ds ++ [d]) = 10 * decimalValue ds + (d.toNat - 48) := by
  rw [decimalValue, List.foldl_append, Nat.mul_comm]
  rfl

theorem digits_digit {d : UInt8} (h : isDigit d = true) : digits (d.toNat - 48) = [d] := by
  have hb := isDigit_bounds h
  have hchar : ∀ k < 10, UInt8.ofNat (Nat.digitChar k).toNat = UInt8.ofNat (48 + k) := by decide
  rw [digits, Nat.toDigits_of_lt_base (by omega), List.map_singleton, hchar _ (by omega),
    Nat.add_sub_cancel' hb.1, UInt8.ofNat_toNat]

theorem decimalValue_pos (hc : isDigit c = true) (hne : c ≠ 48) : 0 < decimalValue (c :: ds) := by
  have hb := isDigit_bounds hc
  have hc48 : c.toNat ≠ 48 := fun h => hne (UInt8.toNat.inj h)
  have hle := le_foldl_digits ds (0 * 10 + (c.toNat - 48))
  rw [decimalValue, List.foldl_cons]
  omega

/-- A text of digits that does not begin with a zero is the text of its number. -/
theorem digits_decimalValue (h : ∀ x ∈ c :: ds, isDigit x = true) (hne : c ≠ 48 ∨ ds = []) :
    digits (decimalValue (c :: ds)) = c :: ds := by
  induction ds using List.reverseRecOn with
  | nil =>
      have hvalue : decimalValue [c] = c.toNat - 48 := by simp [decimalValue]
      rw [hvalue, digits_digit (h c (List.mem_singleton_self c))]
  | append_singleton ds d ih =>
      have hc : c ≠ 48 := hne.resolve_right (by simp)
      have hds : ∀ x ∈ c :: ds, isDigit x = true := fun x hx => h x (by
        rw [← List.cons_append]
        exact List.mem_append_left _ hx)
      have hd : isDigit d = true := h d (by simp)
      have hb := isDigit_bounds hd
      have hpos : 0 < decimalValue (c :: ds) := decimalValue_pos (h c (List.mem_cons_self ..)) hc
      rw [← List.cons_append, decimalValue_concat, digits,
        ← Nat.toDigits_append_toDigits (by decide) hpos (by omega), List.map_append]
      exact congrArg₂ (· ++ ·) (ih hds (.inl hc)) (digits_digit hd)

/-! ### Signed numerals -/

/-- A text is an optional sign and digits, and `v` is its number. -/
def IsInt (s : Bytes) (v : Int) : Prop :=
  ∃ ds n, IsDecimal ds n ∧
    ((s = ds ∧ v = n) ∨ (s = 43 :: ds ∧ v = n) ∨ (s = 45 :: ds ∧ v = -n))

theorem IsDecimal.head_ne (h : IsDecimal ds n) (x : UInt8) (t : Bytes) (hx : isDigit x = false) :
    ds ≠ x :: t := by
  rintro rfl
  have := h.2.1 x (List.mem_cons_self ..)
  rw [hx] at this
  exact absurd this Bool.false_ne_true

theorem IsInt.unique {v w : Int} (hv : IsInt s v) (hw : IsInt s w) : v = w := by
  obtain ⟨ds, n, hd, hv⟩ := hv
  obtain ⟨es, m, he, hw⟩ := hw
  have hdplus := hd.head_ne 43 es rfl
  have hdminus := hd.head_ne 45 es rfl
  have heplus := he.head_ne 43 ds rfl
  have heminus := he.head_ne 45 ds rfl
  have hvalue : ds = es → n = m := fun h => by rw [← hd.2.2, ← he.2.2, h]
  rcases hv with ⟨rfl, rfl⟩ | ⟨rfl, rfl⟩ | ⟨rfl, rfl⟩ <;>
    rcases hw with ⟨h, rfl⟩ | ⟨h, rfl⟩ | ⟨h, rfl⟩ <;> simp_all

theorem fromInt_isInt (n : Int) : IsInt (fromInt n) n := by
  obtain ⟨m, rfl | rfl⟩ := Int.eq_nat_or_neg n
  · exact ⟨_, m, digits_isDecimal m, .inl ⟨fromInt_nat m, rfl⟩⟩
  by_cases hm : m = 0
  · subst hm
    exact ⟨_, 0, digits_isDecimal 0, .inl ⟨rfl, rfl⟩⟩
  · exact ⟨_, m, digits_isDecimal m, .inr (.inr ⟨fromInt_neg hm, rfl⟩)⟩

theorem fromInt_injective {m n : Int} (h : fromInt m = fromInt n) : m = n :=
  (fromInt_isInt m).unique (h ▸ fromInt_isInt n)

/-! ### Reading, for texts of any length -/

theorem int48_congr {x y : Int} (h : x ≡ y [ZMOD 2 ^ 48]) : int48 x = int48 y := by
  have hmod : x % ((2 ^ 48 : Nat) : Int) = y % ((2 ^ 48 : Nat) : Int) := h
  rw [int48, int48, ← Int.emod_bmod x, ← Int.emod_bmod y, hmod]

theorem int48_of_range {n : Int} (h : -2 ^ 47 ≤ n ∧ n < 2 ^ 47) : int48 n = n :=
  Int.bmod_eq_of_le (by omega) (by omega)

theorem int48_range (n : Int) : -2 ^ 47 ≤ int48 n ∧ int48 n < 2 ^ 47 := by
  have hle : -(((2 ^ 48 : Nat) : Int) / 2) ≤ int48 n := Int.le_bmod (by decide)
  have hlt : int48 n < (((2 ^ 48 : Nat) : Int) + 1) / 2 := Int.bmod_lt (by decide)
  omega

/-- The accumulator wraps at 64 bits, which the last 48 do not see. -/
theorem toIntDigits_modEq (ds : Bytes) (v : Int) (a : Nat) (h : ∀ c ∈ ds, isDigit c = true)
    (hv : v ≡ a [ZMOD 2 ^ 48]) :
    toIntDigits v ds ≡ (ds.foldl (fun a c => a * 10 + (c.toNat - 48)) a : Nat) [ZMOD 2 ^ 48] := by
  induction ds generalizing v a with
  | nil => exact hv
  | cons c ds ih =>
      obtain ⟨hc, hds⟩ := List.forall_mem_cons.mp h
      have hb := isDigit_bounds hc
      rw [toIntDigits, if_pos hc, List.foldl_cons]
      refine ih _ _ hds ?_
      have hwrap : (v * 10 + (c.toNat - 48)).bmod (2 ^ 64) ≡ v * 10 + (c.toNat - 48)
          [ZMOD 2 ^ 48] := by
        have h64 : (v * 10 + (c.toNat - 48)).bmod (2 ^ 64) ≡ v * 10 + (c.toNat - 48)
          [ZMOD (2 ^ 64 : Nat)] := Int.bmod_emod
        exact h64.of_dvd (by decide)
      refine hwrap.trans ?_
      have hcast : ((a * 10 + (c.toNat - 48) : Nat) : Int) = a * 10 + ((c.toNat : Int) - 48) := by
        omega
      rw [hcast]
      exact (hv.mul_right 10).add_right _

theorem toIntDigits_decimal (h : IsDecimal ds n) : toIntDigits 0 ds ≡ n [ZMOD 2 ^ 48] := by
  have := toIntDigits_modEq ds 0 0 h.2.1 rfl
  rwa [← decimalValue, h.2.2] at this

/-- Without a blank in front, what is read depends on the sign alone. -/
theorem toInt_cons {cs : Bytes} (h32 : c ≠ 32) (h9 : c ≠ 9) :
    toInt (c :: cs) = if c == 45 then int48 (-(toIntDigits 0 cs))
      else if c == 43 then int48 (toIntDigits 0 cs) else int48 (toIntDigits 0 (c :: cs)) := by
  have hdrop : (c :: cs).dropWhile (fun c => c == 32 || c == 9) = c :: cs := by simp [h32, h9]
  rw [toInt, hdrop]

/-- **A numeral of any length is read as its number, cut to 48 bits.** -/
theorem toInt_of_isInt {v : Int} (h : IsInt s v) : toInt s = int48 v := by
  obtain ⟨ds, n, hd, ⟨rfl, rfl⟩ | ⟨rfl, rfl⟩ | ⟨rfl, rfl⟩⟩ := h
  · obtain ⟨c, cs, rfl⟩ := List.exists_cons_of_ne_nil hd.1
    have hb := isDigit_bounds (hd.2.1 c (List.mem_cons_self ..))
    have hne : ∀ x : UInt8, x.toNat < 48 → c ≠ x := by
      rintro x hx rfl
      omega
    rw [toInt_cons (hne 32 (by decide)) (hne 9 (by decide)),
      if_neg (by simpa using hne 45 (by decide)), if_neg (by simpa using hne 43 (by decide))]
    exact int48_congr (toIntDigits_decimal hd)
  · rw [toInt_cons (by decide) (by decide)]
    exact int48_congr (toIntDigits_decimal hd)
  · rw [toInt_cons (by decide) (by decide)]
    exact int48_congr (toIntDigits_decimal hd).neg

/-- **A 48-bit number is read back from its text.** -/
theorem toInt_fromInt {n : Int} (h : -2 ^ 47 ≤ n ∧ n < 2 ^ 47) : toInt (fromInt n) = n := by
  rw [toInt_of_isInt (fromInt_isInt n), int48_of_range h]

/-! ### The bases 2, 8 and 16 -/

theorem digitVal_lowerHex : ∀ d < 16, digitVal (lowerHex d) = some d := by decide

theorem toBaseLoop_ne_nil (base room u : Nat) (buf : Bytes) (h : buf ≠ []) :
    toBaseLoop base room u buf ≠ [] := by
  induction room generalizing u buf with
  | zero => exact h
  | succ room ih =>
      rw [toBaseLoop]
      split
      · exact ih _ _ (List.cons_ne_nil _ _)
      · exact List.cons_ne_nil _ _

/-- A digit put before the buffer is what division takes from the number. -/
theorem fromBaseLoop_digit {base u : Nat} (hbase : 0 < base ∧ base ≤ 16) (hu : u < 2 ^ 64)
    (buf : Bytes) :
    fromBaseLoop base (u / base) (lowerHex (u % base) :: buf) = fromBaseLoop base u buf := by
  have hlt : u % base < base := Nat.mod_lt u hbase.1
  have hback : u / base * base + u % base = u := by rw [Nat.mul_comm, Nat.div_add_mod]
  rw [fromBaseLoop, digitVal_lowerHex _ (by omega)]
  dsimp only
  rw [if_neg (by omega), hback, Nat.mod_eq_of_lt hu]

/-- Reading what is written: the number that is left and the digits of the buffer always
stand for the same number. -/
theorem fromBaseLoop_toBaseLoop {base : Nat} (hbase : 2 ≤ base ∧ base ≤ 16) (room u : Nat)
    (buf : Bytes) (hu : u < 2 ^ 64) (hroom : u < base ^ (room + 1)) :
    fromBaseLoop base 0 (toBaseLoop base (room + 1) u buf) = fromBaseLoop base u buf := by
  have hpos : 0 < base := by omega
  induction room generalizing u buf with
  | zero =>
      have hdiv : u / base = 0 := Nat.div_eq_of_lt (by simpa using hroom)
      rw [toBaseLoop, if_neg (by omega), ← fromBaseLoop_digit ⟨hpos, hbase.2⟩ hu, hdiv]
  | succ room ih =>
      rw [toBaseLoop]
      by_cases hdiv : u / base > 0
      · have hle := Nat.div_le_self u base
        rw [if_pos hdiv, ih _ _ (by omega) (Nat.div_lt_of_lt_mul (by rwa [Nat.pow_succ', ] at hroom)),
          fromBaseLoop_digit ⟨hpos, hbase.2⟩ hu]
      · rw [if_neg hdiv, ← fromBaseLoop_digit ⟨hpos, hbase.2⟩ hu, Nat.eq_zero_of_not_pos hdiv]

theorem fromBase_toBase {n base : Int} (hn : -2 ^ 47 ≤ n ∧ n < 2 ^ 47)
    (hbase : base = 2 ∨ base = 8 ∨ base = 16) :
    toBase n base ≠ [] ∧ fromBase (toBase n base) base = n := by
  have hcond : ¬ (base ≠ 2 ∧ base ≠ 8 ∧ base ≠ 16) := by omega
  have hu : (n % 2 ^ 48).toNat < 2 ^ 48 := by omega
  have hfit : (n % 2 ^ 48).toNat < base.toNat ^ (48 + 1) := by
    have hpow : 2 ^ 49 ≤ base.toNat ^ (48 + 1) := Nat.pow_le_pow_left (by omega) 49
    exact Nat.lt_of_lt_of_le (by omega) hpow
  have hne : toBase n base ≠ [] := by
    rw [toBase, if_neg hcond, toBaseLoop]
    split
    · exact toBaseLoop_ne_nil _ _ _ _ (List.cons_ne_nil _ _)
    · exact List.cons_ne_nil _ _
  refine ⟨hne, ?_⟩
  rw [fromBase, if_neg (by rintro (h | h); exacts [hcond h, hne h]), toBase, if_neg hcond,
    fromBaseLoop_toBaseLoop (by omega) 48 _ _ (by omega) hfit]
  have hwrap : int48 ((n % 2 ^ 48).toNat : Int) = int48 n := by
    rw [Int.toNat_of_nonneg (by omega)]
    exact int48_congr (Int.mod_modEq n (2 ^ 48))
  exact hwrap.trans (int48_of_range hn)

end Str

namespace Strconv

open Str

theorem isDigits_iff (ds : Bytes) (seen : Bool) :
    isDigits ds seen = true ↔ (∀ c ∈ ds, isDigit c = true) ∧ (ds = [] → seen = true) := by
  induction ds generalizing seen with
  | nil => simp [isDigits]
  | cons c ds ih =>
      by_cases hc : isDigit c = true
      · simp [isDigits, hc, ih]
      · simp [isDigits, hc]

theorem isDigits_isDecimal (ds : Bytes) :
    isDigits ds false = true ↔ IsDecimal ds (decimalValue ds) := by
  rw [isDigits_iff]
  exact ⟨fun h => ⟨fun hnil => Bool.false_ne_true (h.2 hnil), h.1, rfl⟩,
    fun h => ⟨h.2.1, fun hnil => absurd hnil h.1⟩⟩

theorem charAt_cons (c : UInt8) (cs : Bytes) : charAt (c :: cs) 0 = c.toNat := rfl

theorem charAt_cons_eq {cs : Bytes} {x : UInt8} : charAt (c :: cs) 0 = (x.toNat : Int) ↔ c = x := by
  rw [charAt_cons, Int.ofNat_inj]
  exact UInt8.toNat_inj

/-- The check of the shape takes exactly the numerals. -/
theorem isDecInt_iff (s : Bytes) : isDecInt s = true ↔ ∃ v, IsInt s v := by
  constructor
  · intro h
    rw [isDecInt] at h
    by_cases hsign : charAt s 0 = 43 ∨ charAt s 0 = 45
    · rw [if_pos hsign, isDigits_isDecimal] at h
      cases s with
      | nil => exact absurd rfl h.1
      | cons c cs =>
          rcases hsign with hc | hc
          · obtain rfl := charAt_cons_eq (x := 43) |>.mp hc
            exact ⟨_, _, _, h, .inr (.inl ⟨rfl, rfl⟩)⟩
          · obtain rfl := charAt_cons_eq (x := 45) |>.mp hc
            exact ⟨_, _, _, h, .inr (.inr ⟨rfl, rfl⟩)⟩
    · rw [if_neg hsign, isDigits_isDecimal] at h
      exact ⟨_, _, _, h, .inl ⟨rfl, rfl⟩⟩
  · rintro ⟨v, ds, n, hd, ⟨rfl, rfl⟩ | ⟨rfl, rfl⟩ | ⟨rfl, rfl⟩⟩
    · have hdec := hd
      rw [← hd.2.2] at hdec
      obtain ⟨c, cs, rfl⟩ := List.exists_cons_of_ne_nil hd.1
      have hb := isDigit_bounds (hd.2.1 c (List.mem_cons_self ..))
      rw [isDecInt, if_neg (by rw [charAt_cons]; omega)]
      exact (isDigits_isDecimal _).mpr hdec
    all_goals
      have hdec := hd
      rw [← hd.2.2] at hdec
      exact (isDigits_isDecimal ds).mpr hdec

/-! ### The text a number is compared with -/

theorem stripZeros_spec (h : IsDecimal ds n) : stripZeros ds = digits n := by
  obtain ⟨hne, hall, rfl⟩ := h
  fun_induction stripZeros ds with
  | case1 => exact absurd rfl hne
  | case2 c => exact (digits_decimalValue hall (.inr rfl)).symm
  | case3 d cs ih =>
      rw [ih (List.cons_ne_nil _ _) fun x hx => hall x (List.mem_cons_of_mem _ hx)]
      simp [decimalValue]
  | case4 c d cs hc => exact (digits_decimalValue hall (.inl hc)).symm

theorem substr_tail (c : UInt8) (cs : Bytes) : substr (c :: cs) 1 (length (c :: cs)) = cs := by
  have hlen : ¬ ((cs.length : Int) + 1 < 0 ∨ (cs.length : Int) < 0) := by omega
  simp [substr, length, hlen]

theorem digits_eq_zero : digits n = ascii "0" ↔ n = 0 := by
  constructor
  · intro h
    rw [← (digits_isDecimal n).2.2, h]
    rfl
  · rintro rfl
    rfl

theorem normDec_of_isInt {v : Int} (h : IsInt s v) : normDec s = fromInt v := by
  obtain ⟨ds, n, hd, ⟨rfl, rfl⟩ | ⟨rfl, rfl⟩ | ⟨rfl, rfl⟩⟩ := h
  · obtain ⟨c, cs, rfl⟩ := List.exists_cons_of_ne_nil hd.1
    have hb := isDigit_bounds (hd.2.1 c (List.mem_cons_self ..))
    have h45 : charAt (c :: cs) 0 ≠ 45 := by rw [charAt_cons]; omega
    have h43 : charAt (c :: cs) 0 ≠ 43 := by rw [charAt_cons]; omega
    rw [normDec, if_neg (fun h => h45 h.1), if_neg (by rintro (h | h); exacts [h45 h, h43 h]),
      stripZeros_spec hd, fromInt_nat]
  · have h45 : charAt (43 :: ds) 0 ≠ 45 := by rw [charAt_cons]; decide
    rw [normDec, if_neg (fun h => h45 h.1), if_pos (.inr rfl), substr_tail, stripZeros_spec hd,
      fromInt_nat]
  · have hsign : charAt (45 :: ds) 0 = 45 ∨ charAt (45 :: ds) 0 = 43 := .inl rfl
    rw [normDec, if_pos hsign, substr_tail, stripZeros_spec hd]
    by_cases hn : n = 0
    · rw [if_neg fun h => h.2 (digits_eq_zero.mpr hn), hn]
      rfl
    · rw [if_pos ⟨rfl, fun h => hn (digits_eq_zero.mp h)⟩, fromInt_neg hn]
      rfl

/-- **Decimal conversion succeeds exactly on the numerals whose number has 48 bits.** -/
theorem strToInt_ten (s : Bytes) (v : Int) :
    strToInt s 10 = .ok v ↔ IsInt s v ∧ -2 ^ 47 ≤ v ∧ v < 2 ^ 47 := by
  rw [strToInt, if_pos rfl]
  constructor
  · intro h
    by_cases hshape : isDecInt s = true
    · rw [if_pos hshape] at h
      obtain ⟨w, hw⟩ := (isDecInt_iff s).mp hshape
      rw [toInt_of_isInt hw, normDec_of_isInt hw] at h
      by_cases heq : fromInt (int48 w) = fromInt w
      · have hfit := fromInt_injective heq
        rw [if_pos heq] at h
        obtain rfl := Except.ok.inj h
        exact ⟨by rwa [hfit], int48_range w⟩
      · rw [if_neg heq] at h
        cases h
    · rw [if_neg hshape] at h
      cases h
  · rintro ⟨hs, hv⟩
    rw [if_pos ((isDecInt_iff s).mpr ⟨v, hs⟩), toInt_of_isInt hs, normDec_of_isInt hs,
      int48_of_range hv]
    exact if_pos rfl

/-- What is written in some base is read back exactly if it is not -1 in a base other than ten:
the text of -1 there is read as -1, which is also the answer to a text that is no number. -/
theorem strToInt_intToStr {n base : Int} (hn : -2 ^ 47 ≤ n ∧ n < 2 ^ 47)
    (hbase : base = 2 ∨ base = 8 ∨ base = 10 ∨ base = 16) :
    (∃ t, intToStr n base = .ok t ∧ strToInt t base = .ok n) ↔ (n = -1 → base = 10) := by
  by_cases hten : base = 10
  · subst hten
    exact ⟨fun _ _ => rfl,
      fun _ => ⟨fromInt n, rfl, (strToInt_ten _ n).mpr ⟨fromInt_isInt n, hn⟩⟩⟩
  · have hother : base = 2 ∨ base = 8 ∨ base = 16 := by omega
    obtain ⟨hne, hback⟩ := fromBase_toBase hn hother
    have htext : intToStr n base = .ok (toBase n base) := by
      rw [intToStr, if_neg hten]
      exact if_neg hne
    have hread : strToInt (toBase n base) base =
        if n = -1 then .error (ascii "invalid int") else .ok n := by
      rw [strToInt, if_neg hten, if_pos hother, hback]
    constructor
    · rintro ⟨t, ht, hok⟩ rfl
      obtain rfl := Except.ok.inj (htext.symm.trans ht)
      rw [hread, if_pos rfl] at hok
      cases hok
    · intro hminus
      exact ⟨_, htext, hread.trans (if_neg fun h => hten (hminus h))⟩

/-- **Integers and their text.**  A 48-bit number comes back from its text exactly if it is not
-1 in a base other than ten; and in base ten a text is taken exactly when it is a numeral of
48 bits, of any length. -/
theorem int_text_round_trip (n base : Int) (s : Bytes) (v : Int) (hn : -2 ^ 47 ≤ n ∧ n < 2 ^ 47)
    (hbase : base = 2 ∨ base = 8 ∨ base = 10 ∨ base = 16) :
    ((∃ t, intToStr n base = .ok t ∧ strToInt t base = .ok n) ↔ (n = -1 → base = 10)) ∧
    (strToInt s 10 = .ok v ↔ IsInt s v ∧ -2 ^ 47 ≤ v ∧ v < 2 ^ 47) :=
  ⟨strToInt_intToStr hn hbase, strToInt_ten s v⟩

theorem int_text_round_trip_hex :
    (∃ t, intToStr (-2) 16 = .ok t ∧ strToInt t 16 = .ok (-2)) ∧
    (strToInt (ascii "-007") 10 = .ok (-7) ↔
      IsInt (ascii "-007") (-7) ∧ -2 ^ 47 ≤ (-7 : Int) ∧ (-7 : Int) < 2 ^ 47) :=
  have h := int_text_round_trip (-2) 16 (ascii "-007") (-7) (by decide) (by decide)
  ⟨h.1.mpr (by decide), h.2⟩

/-- The text of -1 in base sixteen is refused. -/
theorem minus_one_lost : intToStr (-1) 16 = .ok (ascii "ffffffffffff") ∧
    strToInt (ascii "ffffffffffff") 16 = .error (ascii "invalid int") := by
  decide

end Strconv

end TinyActor.Stdlib
