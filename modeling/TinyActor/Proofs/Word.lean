/-
Kinds of words, and integer arithmetic on them.

Every constructor but that of C functions makes words that one predicate accepts,
its own, with a gap: the tag of C functions is 0xFFC1, the top bits of doubles
around -2.4e307.  So a C function passes for a float, and those doubles pass for C
functions.

The operations on integers give the exact result cut to 48 bits.  The sum,
difference, quotient and remainder of two such integers fit `int64_t` with room to
spare; their product needs not, and a signed overflow is undefined in C.
-/
import Mathlib.Data.Nat.Bitwise
import TinyActor.Vm.Word

namespace TinyActor.Vm.Word

/-! ### Tag and payload -/

theorem toNat_valTag (v : Word) : (valTag v).toNat = v.toNat / 2 ^ 48 := by
  have hv := v.isLt
  simp only [valTag, BitVec.toNat_setWidth, BitVec.toNat_ushiftRight, Nat.shiftRight_eq_div_pow]
  omega

theorem toNat_lpayload (v : Word) : (lpayload v).toNat = v.toNat % 2 ^ 48 := by
  rw [lpayload, BitVec.toNat_and]
  exact Nat.and_two_pow_sub_one_eq_mod v.toNat 48

theorem toNat_lbox (tag : Tag) (payload : Word) :
    (lbox tag payload).toNat = tag.toNat * 2 ^ 48 + payload.toNat % 2 ^ 48 := by
  have htag := tag.isLt
  have hlow : payload.toNat % 2 ^ 48 < 2 ^ 48 := Nat.mod_lt _ (by omega)
  have hpay : (payload &&& 0x0000FFFFFFFFFFFF#64).toNat = payload.toNat % 2 ^ 48 :=
    toNat_lpayload payload
  rw [lbox, BitVec.toNat_or, hpay, BitVec.toNat_shiftLeft, BitVec.toNat_setWidth,
    Nat.mod_eq_of_lt (show tag.toNat < 2 ^ 64 by omega), Nat.shiftLeft_eq,
    Nat.mod_eq_of_lt (show tag.toNat * 2 ^ 48 < 2 ^ 64 by omega), ← Nat.shiftLeft_eq,
    ← Nat.shiftLeft_add_eq_or_of_lt hlow]

@[simp] theorem valTag_lbox (tag : Tag) (payload : Word) : valTag (lbox tag payload) = tag := by
  apply BitVec.eq_of_toNat_eq
  rw [toNat_valTag, toNat_lbox]
  omega

/-! ### Kinds -/

/-- The tags of two kinds differ. -/
theorem Kind.tag_injective {j k : Kind} (h : j.tag = k.tag) : j = k := by
  cases j <;> cases k <;> first | rfl | exact absurd h (by decide)

/-- A word with the tag of a kind other than C functions has that kind only. -/
theorem Kind.test_iff_of_tag {k : Kind} {tag : Tag} (hk : k.tag = some tag)
    (hnative : k ≠ .native) {v : Word} (hv : valTag v = tag) (j : Kind) :
    j.test v = true ↔ j = k := by
  have hfloat : Kind.test .float v = false := by
    simp only [Kind.test, Kind.tag, valIsFloat, hv]
    cases k <;> first | exact absurd rfl hnative | (cases hk <;> decide)
  cases hj : j.tag with
  | none =>
      obtain rfl : j = .float := Kind.tag_injective hj
      constructor
      · intro h
        rw [hfloat] at h
        cases h
      · rintro rfl
        cases hk
  | some t =>
      simp only [Kind.test, hj, hv, beq_iff_eq]
      constructor
      · rintro rfl
        exact Kind.tag_injective (hj.trans hk.symm)
      · rintro rfl
        exact Option.some.inj (hk.symm.trans hj)

/-- A word whose tag lies outside the range, and is not that of C functions, is a
float only. -/
theorem Kind.test_iff_of_float {v : Word} (hfloat : valIsFloat v = true)
    (hnative : valTag v ≠ tagNative) (j : Kind) : j.test v = true ↔ j = .float := by
  constructor
  · intro h
    by_contra hj
    have htag : ∃ t, j.tag = some t ∧ valTag v = t := by
      cases hj' : j.tag with
      | none => exact absurd (Kind.tag_injective (k := .float) hj') hj
      | some t => exact ⟨t, rfl, by simpa [Kind.test, hj'] using h⟩
    obtain ⟨t, ht, hv⟩ := htag
    rw [valIsFloat, hv] at hfloat
    cases j <;> cases ht <;> first | exact hnative hv | exact absurd hfloat (by decide)
  · rintro rfl
    exact hfloat

/-! ### Doubles -/

theorem isNan_iff (d : Word) :
    isNan d = true ↔ 0xFFE0000000000000 < 2 * d.toNat % 2 ^ 64 := by
  have hd := d.isLt
  have hexp : ((d >>> 52) &&& 0x7FF#64).toNat = d.toNat / 2 ^ 52 % 2 ^ 11 := by
    rw [BitVec.toNat_and, BitVec.toNat_ushiftRight, Nat.shiftRight_eq_div_pow]
    exact Nat.and_two_pow_sub_one_eq_mod _ 11
  have hfrac : (d &&& 0x000FFFFFFFFFFFFF#64).toNat = d.toNat % 2 ^ 52 := by
    rw [BitVec.toNat_and]
    exact Nat.and_two_pow_sub_one_eq_mod _ 52
  simp only [isNan, Bool.and_eq_true, beq_iff_eq, bne_iff_ne, ne_eq, ← BitVec.toNat_inj, hexp,
    hfrac, BitVec.toNat_ofNat]
  omega

/-- A double is boxed as its bits, a NaN as the one NaN. -/
theorem valFromDouble_eq (d : Word) :
    valFromDouble d = if isNan d = true then valCanonNan else d := by
  have hshift : (d <<< 1 > 0xFFE0000000000000#64) ↔ isNan d = true := by
    rw [isNan_iff, gt_iff_lt, BitVec.lt_def, BitVec.toNat_shiftLeft, Nat.shiftLeft_eq,
      Nat.mul_comm]
    rfl
  rw [valFromDouble]
  by_cases h : isNan d = true
  · rw [if_pos (hshift.mpr h), if_pos h]
  · rw [if_neg (fun hs => h (hshift.mp hs)), if_neg h]

/-- A boxed double lies outside the range of the tags. -/
theorem valIsFloat_valFromDouble (d : Word) : valIsFloat (valFromDouble d) = true := by
  rw [valFromDouble_eq]
  by_cases h : isNan d = true
  · rw [if_pos h]
    decide
  · rw [if_neg h]
    rw [isNan_iff] at h
    have hd := d.isLt
    simp only [valIsFloat, Bool.or_eq_true, decide_eq_true_eq, gt_iff_lt, BitVec.lt_def,
      toNat_valTag, show tagFirst.toNat = 0xFFF1 from rfl]
    left
    omega

/-- What a boxed double unboxes to: itself, or a NaN if it is one. -/
theorem valGetFloat_valFromDouble (d : Word) :
    if isNan d = true then isNan (valGetFloat (valFromDouble d)) = true
    else valGetFloat (valFromDouble d) = d := by
  rw [valFromDouble_eq, valGetFloat]
  by_cases h : isNan d = true
  · simp only [if_pos h]
    decide
  · simp only [if_neg h]

/-! ### Words of the constructors -/

/-- The tag of a word that no double and no C function made. -/
theorem Made.tag_word {m : Made} (hfloat : m.kind ≠ .float) :
    m.kind.tag = some (valTag m.word) := by
  cases m <;> first | exact absurd rfl hfloat | simp [Made.kind, Kind.tag, Made.word, valInt]

/-- A word with the tag of C functions passes for a float and for a C function. -/
theorem Kind.two_of_native {v : Word} (hv : valTag v = tagNative) :
    Kind.test .float v = true ∧ Kind.test .native v = true := by
  simp only [Kind.test, Kind.tag, valIsFloat, hv]
  decide

/-- A word a constructor made has the kind of its constructor and no other, if its
top bits are not the tag of C functions. -/
theorem Made.test_iff {m : Made} (hnative : valTag m.word ≠ tagNative) (k : Kind) :
    k.test m.word = true ↔ k = m.kind := by
  by_cases hfloat : m.kind = .float
  · obtain ⟨d, rfl⟩ : ∃ d, m = .float d := by
      cases m <;> first | exact ⟨_, rfl⟩ | cases hfloat
    exact Kind.test_iff_of_float (valIsFloat_valFromDouble d) hnative k
  · have htag := Made.tag_word hfloat
    refine Kind.test_iff_of_tag htag ?_ rfl k
    intro hk
    rw [hk] at htag
    exact hnative (Option.some.inj htag.symm)

/-- **Kinds are disjoint exactly away from the tag of C functions.**  One predicate
accepts the word a constructor made if and only if the top bits of the word are not
that tag, and it is then the predicate of the constructor; and every double comes
out of its box as it went in, a NaN as a NaN. -/
theorem kind_of_word (m : Made) :
    ((∃! k : Kind, k.test m.word = true) ↔ valTag m.word ≠ tagNative) ∧
      (valTag m.word ≠ tagNative → ∀ k : Kind, k.test m.word = true ↔ k = m.kind) ∧
      ∀ d, m = .float d →
        if isNan d = true then isNan (valGetFloat m.word) = true
        else valGetFloat m.word = d := by
  refine ⟨⟨?_, ?_⟩, fun hnative k => Made.test_iff hnative k, ?_⟩
  · rintro ⟨k, -, hk⟩ hv
    obtain ⟨hfloat, hnative⟩ := Kind.two_of_native hv
    have h : Kind.float = Kind.native := (hk _ hfloat).trans (hk _ hnative).symm
    cases h
  · intro hnative
    exact ⟨m.kind, (Made.test_iff hnative _).mpr rfl,
      fun k hk => (Made.test_iff hnative k).mp hk⟩
  · rintro d rfl
    exact valGetFloat_valFromDouble d

theorem kind_of_word_one :
    (∀ k : Kind, k.test (Made.float 0x3FF0000000000000#64).word = true ↔ k = .float) ∧
      valGetFloat (Made.float 0x3FF0000000000000#64).word = 0x3FF0000000000000#64 :=
  ⟨(kind_of_word (.float 0x3FF0000000000000#64)).2.1 (by decide),
    (if_neg (by decide)).mp ((kind_of_word (.float 0x3FF0000000000000#64)).2.2 _ rfl)⟩

/-- A C function is a float too, and a double with its top bits is a C function. -/
theorem native_is_float :
    (Kind.test .native (Made.native 0).word = true ∧
        Kind.test .float (Made.native 0).word = true) ∧
      isNan 0xFFC1000000000000#64 = false ∧
      Kind.test .float (Made.float 0xFFC1000000000000#64).word = true ∧
      Kind.test .native (Made.float 0xFFC1000000000000#64).word = true := by
  decide

/-! ### Integers -/

theorem toNat_ofInt_mod (i : Int) : ((BitVec.ofInt 64 i).toNat % 2 ^ 48 : Int) = i % 2 ^ 48 := by
  have h := BitVec.toNat_ofInt (n := 64) i
  omega

/-- Bit 47 of a payload. -/
theorem and_bit47 {n : Nat} (hn : n < 2 ^ 48) :
    n &&& 2 ^ 47 = if n < 2 ^ 47 then 0 else 2 ^ 47 := by
  rw [Nat.and_two_pow, Nat.testBit_eq_decide_div_mod_eq]
  split
  · rw [decide_eq_false (by omega)]
    rfl
  · rw [decide_eq_true (by omega)]
    rfl

theorem or_high {n : Nat} (hn : n < 2 ^ 48) : n ||| 0xFFFF000000000000 = n + 0xFFFF * 2 ^ 48 := by
  rw [Nat.or_comm, show 0xFFFF000000000000 = 0xFFFF <<< 48 from rfl,
    ← Nat.shiftLeft_add_eq_or_of_lt hn, Nat.shiftLeft_eq, Nat.add_comm]

/-- A word's payload is read with the sign of its bit 47. -/
theorem valGetInt_eq (v : Word) : valGetInt v = ((v.toNat % 2 ^ 48 : Nat) : Int).bmod (2 ^ 48) := by
  have hlt : v.toNat % 2 ^ 48 < 2 ^ 48 := Nat.mod_lt _ (by omega)
  have hu := toNat_lpayload v
  have hbit : (lpayload v &&& 0x800000000000#64).toNat =
      if v.toNat % 2 ^ 48 < 2 ^ 47 then 0 else 2 ^ 47 := by
    rw [BitVec.toNat_and, hu]
    exact and_bit47 hlt
  have hor : (lpayload v ||| 0xFFFF000000000000#64).toNat =
      v.toNat % 2 ^ 48 + 0xFFFF * 2 ^ 48 := by
    rw [BitVec.toNat_or, hu]
    exact or_high hlt
  rw [valGetInt, Int.bmod_def]
  by_cases hneg : v.toNat % 2 ^ 48 < 2 ^ 47
  · rw [if_pos hneg] at hbit
    have hzero : lpayload v &&& 0x800000000000#64 = 0#64 := BitVec.eq_of_toNat_eq hbit
    rw [if_neg (by simpa using hzero), BitVec.toInt_eq_toNat_cond, hu]
    omega
  · rw [if_neg hneg] at hbit
    have hne : lpayload v &&& 0x800000000000#64 ≠ 0#64 := by
      intro h
      rw [h] at hbit
      exact absurd hbit (by decide)
    rw [if_pos hne, BitVec.toInt_eq_toNat_cond, hor]
    omega

/-- What is boxed as an integer is read back cut to 48 bits. -/
theorem valGetInt_valInt (i : Int) : valGetInt (valInt i) = i.bmod (2 ^ 48) := by
  have h := toNat_ofInt_mod i
  rw [valGetInt_eq, valInt, toNat_lbox, Int.bmod_def, Int.bmod_def]
  omega

@[simp] theorem valIsInt_valInt (i : Int) : valIsInt (valInt i) = true := by
  simp [valIsInt, valInt]

/-- An integer of 48 bits is read back as it is. -/
theorem valGetInt_of_range {i : Int} (hlo : -2 ^ 47 ≤ i) (hhi : i < 2 ^ 47) :
    valGetInt (valInt i) = i := by
  rw [valGetInt_valInt, Int.bmod_def]
  omega

theorem int64_of_range {x : Int} (hlo : -2 ^ 63 ≤ x) (hhi : x < 2 ^ 63) : int64 x = .ok x :=
  if_pos ⟨hlo, hhi⟩

variable {a b : Int}

/-- A quotient is not longer than its dividend. -/
theorem tdiv_range (hlo : -2 ^ 47 ≤ a) (hhi : a < 2 ^ 47) :
    -2 ^ 63 ≤ a.tdiv b ∧ a.tdiv b < 2 ^ 63 := by
  have h : (a.tdiv b).natAbs ≤ a.natAbs := by
    rw [Int.natAbs_tdiv]
    exact Nat.div_le_self _ _
  omega

/-- A remainder is not longer than its dividend. -/
theorem tmod_range (hlo : -2 ^ 47 ≤ a) (hhi : a < 2 ^ 47) :
    -2 ^ 63 ≤ a.tmod b ∧ a.tmod b < 2 ^ 63 := by
  have h : (a.tmod b).natAbs ≤ a.natAbs := by
    rw [Int.natAbs_tmod]
    exact Nat.mod_le _ _
  omega

/-- The exact result of an operation other than the product fits `int64_t`. -/
theorem exact_range {op : IntOp} (hop : op ≠ .arith .mul) (ha : -2 ^ 47 ≤ a ∧ a < 2 ^ 47)
    (hb : -2 ^ 47 ≤ b ∧ b < 2 ^ 47) : -2 ^ 63 ≤ op.exact a b ∧ op.exact a b < 2 ^ 63 := by
  rcases op with op | _ | _
  · cases op with
    | add => simp only [IntOp.exact, Arith.onInt]; omega
    | sub => simp only [IntOp.exact, Arith.onInt]; omega
    | mul => exact absurd rfl hop
  · exact tdiv_range ha.1 ha.2
  · exact tmod_range ha.1 ha.2

section

variable [Double Word]

/-- An instruction on two integers boxes the exact result, if that fits `int64_t`. -/
theorem exec_of_range {op : IntOp} (ha : -2 ^ 47 ≤ a ∧ a < 2 ^ 47) (hb : -2 ^ 47 ≤ b ∧ b < 2 ^ 47)
    (hzero : op = .div ∨ op = .mod → b ≠ 0)
    (hfit : -2 ^ 63 ≤ op.exact a b ∧ op.exact a b < 2 ^ 63) :
    op.exec (valInt a) (valInt b) = .ok (valInt (op.exact a b)) := by
  have hra := valGetInt_of_range ha.1 ha.2
  have hrb := valGetInt_of_range hb.1 hb.2
  have hres := int64_of_range hfit.1 hfit.2
  rcases op with op | _ | _
  · simp only [IntOp.exec, arith, valIsInt_valInt, Bool.and_self, if_true, hra, hrb]
    rw [show op.onInt a b = IntOp.exact (.arith op) a b from rfl, hres]
    rfl
  · simp only [IntOp.exec, opDiv, valIsInt_valInt, Bool.and_self, if_true, hra, hrb,
      if_neg (hzero (.inl rfl))]
    rw [show a.tdiv b = IntOp.exact .div a b from rfl, hres]
    rfl
  · have hquot := tdiv_range (b := b) ha.1 ha.2
    simp only [IntOp.exec, opMod, valIsInt_valInt, Bool.not_true, Bool.or_self, hra, hrb,
      if_neg (hzero (.inr rfl)), int64_of_range hquot.1 hquot.2]
    rw [show a.tmod b = IntOp.exact .mod a b from rfl, hres]
    rfl

/-- The immediate form boxes the exact result too. -/
theorem arithI_of_range {op : Arith} (ha : -2 ^ 47 ≤ a ∧ a < 2 ^ 47)
    (hfit : -2 ^ 63 ≤ op.onInt a b ∧ op.onInt a b < 2 ^ 63) :
    arithI op (valInt a) b = .ok (valInt (op.onInt a b)) := by
  simp only [arithI, valIsInt_valInt, if_true, valGetInt_of_range ha.1 ha.2]
  rw [int64_of_range hfit.1 hfit.2]
  rfl

/-- A product outside `int64_t` has no result. -/
theorem mul_of_overflow (ha : -2 ^ 47 ≤ a ∧ a < 2 ^ 47) (hb : -2 ^ 47 ≤ b ∧ b < 2 ^ 47)
    (hout : ¬(-2 ^ 63 ≤ a * b ∧ a * b < 2 ^ 63)) :
    IntOp.exec (.arith .mul) (valInt a) (valInt b) = .error .overflow := by
  simp only [IntOp.exec, arith, valIsInt_valInt, Bool.and_self, if_true,
    valGetInt_of_range ha.1 ha.2, valGetInt_of_range hb.1 hb.2, Arith.onInt]
  rw [int64, if_neg hout]
  rfl

/-- **Integer instructions.**  On two 48 bit integers, an operation gives the integer
that is the exact result cut to 48 bits, with nothing it computes outside `int64_t`,
exactly if it is not a product or the exact product fits `int64_t`; sums and
differences do so in their immediate form too. -/
theorem int_instructions (op : IntOp) (a b : Int) (ha : -2 ^ 47 ≤ a ∧ a < 2 ^ 47)
    (hb : -2 ^ 47 ≤ b ∧ b < 2 ^ 47) (hzero : op = .div ∨ op = .mod → b ≠ 0) :
    ((∃ w, op.exec (valInt a) (valInt b) = .ok w ∧ valIsInt w = true ∧
        valGetInt w = (op.exact a b).bmod (2 ^ 48)) ↔
      (op = .arith .mul → -2 ^ 63 ≤ a * b ∧ a * b < 2 ^ 63)) ∧
      ∀ k : Arith, op = .arith k → k ≠ .mul → ∃ w, arithI k (valInt a) b = .ok w ∧
        valIsInt w = true ∧ valGetInt w = (op.exact a b).bmod (2 ^ 48) := by
  refine ⟨⟨?_, ?_⟩, ?_⟩
  · rintro ⟨w, hw, -, -⟩ rfl
    by_contra hout
    rw [mul_of_overflow ha hb hout] at hw
    cases hw
  · intro hmul
    have hfit : -2 ^ 63 ≤ op.exact a b ∧ op.exact a b < 2 ^ 63 := by
      by_cases hop : op = .arith .mul
      · subst hop
        exact hmul rfl
      · exact exact_range hop ha hb
    exact ⟨_, exec_of_range ha hb hzero hfit, valIsInt_valInt _, valGetInt_valInt _⟩
  · rintro k rfl hk
    have hop : IntOp.arith k ≠ .arith .mul := fun h => hk (IntOp.arith.inj h)
    exact ⟨_, arithI_of_range ha (exact_range hop ha hb), valIsInt_valInt _, valGetInt_valInt _⟩

end

theorem int_instructions_least :
    (∃ w, IntOp.div.exec (valInt (-2 ^ 47)) (valInt (-1)) = .ok w ∧ valIsInt w = true ∧
      valGetInt w = -2 ^ 47) ∧
    ∃ w, arithI .add (valInt (2 ^ 47 - 1)) 1 = .ok w ∧ valIsInt w = true ∧
      valGetInt w = -2 ^ 47 := by
  refine ⟨?_, ?_⟩
  · exact (int_instructions .div (-2 ^ 47) (-1) (by decide) (by decide)
      (fun _ => by decide)).1.mpr (fun h => by cases h)
  · exact (int_instructions (.arith .add) (2 ^ 47 - 1) 1 (by decide) (by decide)
      (fun h => by rcases h with h | h <;> cases h)).2 .add rfl (by decide)

/-- The product of two 48 bit integers can leave `int64_t`. -/
theorem product_overflows :
    IntOp.exec (.arith .mul) (valInt (2 ^ 47 - 1)) (valInt (2 ^ 47 - 1)) = .error .overflow := by
  decide +kernel

end TinyActor.Vm.Word
