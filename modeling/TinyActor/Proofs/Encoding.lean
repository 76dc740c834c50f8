/-
Decoding undoes encoding.

For base64 the text is a body of characters of the alphabet and at most two padding
characters; the decoder looks at the padding once and then only at the body.  Four characters
of a body are three bytes whichever alphabet it is, so the round trip is an induction over the
groups, with the two shorter groups at the end.

Percent coding is read back byte by byte, in front of any rest.
-/
import TinyActor.Stdlib.Encoding

namespace TinyActor.Stdlib.Encoding

variable (A : Alphabet)

/-! ### Groups of bits -/

theorem trip_eq (a b c : UInt8) : trip a b c = a.toNat * 65536 + b.toNat * 256 + c.toNat := by
  have hb := b.toNat_lt
  have hc := c.toNat_lt
  have hab : (a.toNat <<< 16) ||| (b.toNat <<< 8) = (a.toNat <<< 8 + b.toNat) <<< 8 := by
    rw [Nat.shiftLeft_add_eq_or_of_lt (by omega), Nat.shiftLeft_or_distrib, ← Nat.shiftLeft_add]
  rw [trip, hab, ← Nat.shiftLeft_add_eq_or_of_lt (by omega)]
  simp only [Nat.shiftLeft_eq]
  omega

theorem and_63 (t : Nat) : t &&& 63 = t % 64 := Nat.and_two_pow_sub_one_eq_mod t 6

theorem push_eq (acc : Nat) {v : Nat} (h : v < 64) : acc <<< 6 ||| v = acc * 64 + v := by
  rw [← Nat.shiftLeft_add_eq_or_of_lt (by omega), Nat.shiftLeft_eq]

theorem byte_toNat (c : UInt8) {n : Nat} (h : n % 256 = c.toNat) : byte n = c := by
  apply UInt8.toNat.inj
  rw [byte, UInt8.toNat_ofNat', h]

/-! ### The alphabet -/

theorem b64Index_isSome (c : UInt8) : (b64Index c A.chars).isSome = true ↔ c ∈ A.chars := by
  unfold b64Index
  by_cases hc : c = 0
  · rw [if_pos hc, hc]
    simp [A.no_zero]
  · rw [if_neg hc, ← Option.ne_none_iff_isSome, ne_eq, List.idxOf?_eq_none_iff, not_not]

theorem get_mem {n : Nat} (h : n < 64) : A.chars.getD n 0 ∈ A.chars :=
  (b64Index_isSome A _).mp (by rw [A.index_get n h]; rfl)

/-! ### Bodies -/

/-- What a text encodes to, without the padding. -/
def b64Body : Bytes → Bytes
  | [] => []
  | [a] => [A.chars.getD (trip a 0 0 / 262144 % 64) 0, A.chars.getD (trip a 0 0 / 4096 % 64) 0]
  | [a, b] =>
      [A.chars.getD (trip a b 0 / 262144 % 64) 0, A.chars.getD (trip a b 0 / 4096 % 64) 0,
        A.chars.getD (trip a b 0 / 64 % 64) 0]
  | a :: b :: c :: rest =>
      A.chars.getD (trip a b c / 262144 % 64) 0 :: A.chars.getD (trip a b c / 4096 % 64) 0 ::
        A.chars.getD (trip a b c / 64 % 64) 0 :: A.chars.getD (trip a b c % 64) 0 :: b64Body rest

theorem b64Encode_eq (s : Bytes) : ∃ pad ≤ 2, b64Encode A.chars s =
    b64Body A s ++ List.replicate pad padChar ∧ ((b64Body A s).length + pad) % 4 = 0 := by
  induction s using b64Body.induct with
  | case1 => exact ⟨0, by omega, rfl, rfl⟩
  | case2 a =>
      refine ⟨2, by omega, ?_, by simp [b64Body]⟩
      simp [b64Encode, b64Body, and_63, Nat.shiftRight_eq_div_pow]
  | case3 a b =>
      refine ⟨1, by omega, ?_, by simp [b64Body]⟩
      simp [b64Encode, b64Body, and_63, Nat.shiftRight_eq_div_pow]
  | case4 a b c rest ih =>
      obtain ⟨pad, hle, hrest, hlen⟩ := ih
      refine ⟨pad, hle, ?_, by simp only [b64Body, List.length_cons]; omega⟩
      simp [b64Encode, b64Body, hrest, and_63, Nat.shiftRight_eq_div_pow]

theorem b64Body_mem (s : Bytes) : ∀ c ∈ b64Body A s, c ∈ A.chars := by
  have hget : ∀ t, A.chars.getD (t % 64) 0 ∈ A.chars := fun t => get_mem A (by omega)
  induction s using b64Body.induct with
  | case1 => nofun
  | case2 a | case3 a b => simp only [b64Body, List.forall_mem_cons, hget]; simp
  | case4 a b c rest ih =>
      simp only [b64Body, List.forall_mem_cons, hget, true_and]
      exact ih

/-- One character of a body. -/
theorem b64Loop_get {acc bits n : Nat} (cs : Bytes) (h : n < 64) :
    b64Loop A.chars (A.chars.getD n 0 :: cs) acc bits =
      if bits + 6 = 24 then
        (b64Loop A.chars cs 0 0).map fun out =>
          byte ((acc * 64 + n) / 65536) :: byte ((acc * 64 + n) / 256) :: byte (acc * 64 + n) :: out
      else b64Loop A.chars cs (acc * 64 + n) (bits + 6) := by
  rw [b64Loop, A.index_get n h]
  simp only [push_eq acc h, Nat.shiftRight_eq_div_pow, Nat.reducePow]

theorem b64Loop_body (s : Bytes) : b64Loop A.chars (b64Body A s) 0 0 = some s := by
  have hlt : ∀ t, t % 64 < 64 := fun t => by omega
  induction s using b64Body.induct with
  | case1 => rfl
  | case2 a =>
      have ha := a.toNat_lt
      rw [b64Body, b64Loop_get A _ (hlt _), if_neg (by decide), b64Loop_get A _ (hlt _),
        if_neg (by decide), b64Loop, if_pos rfl]
      simp only [Nat.shiftRight_eq_div_pow, trip_eq, UInt8.toNat_zero, Nat.reducePow]
      rw [byte_toNat a (by omega)]
  | case3 a b =>
      have ha := a.toNat_lt
      have hb := b.toNat_lt
      rw [b64Body, b64Loop_get A _ (hlt _), if_neg (by decide), b64Loop_get A _ (hlt _),
        if_neg (by decide), b64Loop_get A _ (hlt _), if_neg (by decide), b64Loop,
        if_neg (by decide), if_pos rfl]
      simp only [Nat.shiftRight_eq_div_pow, trip_eq, UInt8.toNat_zero, Nat.reducePow]
      rw [byte_toNat a (by omega), byte_toNat b (by omega)]
  | case4 a b c rest ih =>
      have ha := a.toNat_lt
      have hb := b.toNat_lt
      have hc := c.toNat_lt
      rw [b64Body, b64Loop_get A _ (hlt _), if_neg (by decide), b64Loop_get A _ (hlt _),
        if_neg (by decide), b64Loop_get A _ (hlt _), if_neg (by decide), b64Loop_get A _ (hlt _),
        if_pos rfl, ih, Option.map_some]
      simp only [trip_eq]
      rw [byte_toNat a (by omega), byte_toNat b (by omega), byte_toNat c (by omega)]

/-! ### Padding -/

/-- A text the decoder takes: a body over the alphabet, not one character too long, and at most
two padding characters that complete a group of four. -/
def WellPadded (text : Bytes) : Prop :=
  ∃ body pad, text = body ++ List.replicate pad padChar ∧ pad ≤ 2 ∧
    (pad = 0 ∨ (body.length + pad) % 4 = 0) ∧ (∀ c ∈ body, c ∈ A.chars) ∧ body.length % 4 ≠ 1

theorem stripPad_eq (s : Bytes) :
    s = (stripPad s).1 ++ List.replicate (stripPad s).2 padChar ∧ (stripPad s).2 ≤ 2 := by
  unfold stripPad
  by_cases hlast : s.getLast? = some padChar
  · obtain ⟨s', rfl⟩ := List.getLast?_eq_some_iff.mp hlast
    rw [if_pos hlast, List.dropLast_concat]
    by_cases hlast' : s'.getLast? = some padChar
    · obtain ⟨s'', rfl⟩ := List.getLast?_eq_some_iff.mp hlast'
      rw [if_pos hlast', List.dropLast_concat]
      exact ⟨by simp [List.replicate], Nat.le_refl _⟩
    · rw [if_neg hlast']
      exact ⟨by simp, Nat.le_succ 1⟩
  · rw [if_neg hlast]
    exact ⟨by simp, Nat.zero_le 2⟩

theorem getLast?_ne_of_not_mem {s : Bytes} {c : UInt8} (h : c ∉ s) : s.getLast? ≠ some c :=
  fun hlast => h (List.mem_of_getLast? hlast)

theorem stripPad_append {body : Bytes} (hbody : padChar ∉ body) {pad : Nat} (hpad : pad ≤ 2) :
    stripPad (body ++ List.replicate pad padChar) = (body, pad) := by
  have hlast := getLast?_ne_of_not_mem hbody
  unfold stripPad
  obtain rfl | rfl | rfl : pad = 0 ∨ pad = 1 ∨ pad = 2 := by omega
  · simp [hlast]
  · simp [hlast]
  · simp [List.replicate]

theorem b64Loop_isSome (s : Bytes) (acc bits : Nat) :
    (b64Loop A.chars s acc bits).isSome = true ↔ ∀ c ∈ s, c ∈ A.chars := by
  induction s generalizing acc bits with
  | nil =>
      rw [b64Loop]
      split
      · simp
      · split <;> simp
  | cons c cs ih =>
      rw [List.forall_mem_cons, ← b64Index_isSome, b64Loop]
      cases b64Index c A.chars with
      | none => simp
      | some v =>
          dsimp only
          split
          · rw [Option.isSome_map, ih]
            simp
          · rw [ih]
            simp

/-- Of a text that is well padded only the body counts. -/
theorem b64Decode_append {body : Bytes} {pad : Nat} (hpad : pad ≤ 2)
    (hquad : pad = 0 ∨ (body.length + pad) % 4 = 0) (hbody : ∀ c ∈ body, c ∈ A.chars)
    (hlen : body.length % 4 ≠ 1) :
    b64Decode A.chars (body ++ List.replicate pad padChar) = b64Loop A.chars body 0 0 := by
  have hno : padChar ∉ body := fun h => A.no_pad (hbody _ h)
  rw [b64Decode, stripPad_append hno hpad]
  dsimp only
  rw [if_neg (getLast?_ne_of_not_mem hno), if_neg hlen, if_neg (by omega)]

theorem b64Decode_isSome (text : Bytes) :
    (b64Decode A.chars text).isSome = true ↔ WellPadded A text := by
  constructor
  · intro h
    obtain ⟨htext, hpad⟩ := stripPad_eq text
    refine ⟨(stripPad text).1, (stripPad text).2, htext, hpad, ?_⟩
    unfold b64Decode at h
    dsimp only at h
    split at h
    · cases h
    split at h
    · cases h
    split at h
    · cases h
    next hlen hquad => exact ⟨by omega, (b64Loop_isSome A _ 0 0).mp h, hlen⟩
  · rintro ⟨body, pad, rfl, hpad, hquad, hbody, hlen⟩
    rw [b64Decode_append A hpad hquad hbody hlen]
    exact (b64Loop_isSome A _ 0 0).mpr hbody

theorem b64Decode_encode (s : Bytes) : b64Decode A.chars (b64Encode A.chars s) = some s ∧
    b64Decode A.chars ((b64Encode A.chars s).filter (· ≠ padChar)) = some s := by
  obtain ⟨pad, hpad, hencode, hquad⟩ := b64Encode_eq A s
  have hbody := b64Body_mem A s
  have hno : ∀ c ∈ b64Body A s, c ≠ padChar := fun c hc heq => A.no_pad (heq ▸ hbody c hc)
  have hlen : (b64Body A s).length % 4 ≠ 1 := by omega
  have hfilter : (b64Encode A.chars s).filter (· ≠ padChar) = b64Body A s := by
    rw [hencode, List.filter_append, List.filter_eq_self.mpr (by simpa using hno)]
    simp
  have hbare := b64Decode_append A (Nat.zero_le 2) (.inl rfl) hbody hlen
  rw [List.replicate_zero, List.append_nil] at hbare
  rw [hfilter, hbare, hencode, b64Decode_append A hpad (.inr hquad) hbody hlen, b64Loop_body]
  exact ⟨rfl, rfl⟩

theorem lift_ok (msg : String) (r : Option Bytes) :
    (∃ v, lift msg r = .ok v) ↔ r.isSome = true := by
  cases r <;> simp [lift]

/-- **Base64 in both alphabets**: decoding undoes encoding, with the padding or without, and takes
exactly the texts that are well padded. -/
theorem base64_decodes (s text : Bytes) :
    (decode (encode s) = .ok s ∧ decode ((encode s).filter (· ≠ padChar)) = .ok s) ∧
    (urlDecode (urlEncode s) = .ok s ∧ urlDecode ((urlEncode s).filter (· ≠ padChar)) = .ok s) ∧
    ((∃ v, decode text = .ok v) ↔ WellPadded std text) ∧
    ((∃ v, urlDecode text = .ok v) ↔ WellPadded url text) := by
  have hround : ∀ (A : Alphabet) (msg : String),
      lift msg (b64Decode A.chars (b64Encode A.chars s)) = .ok s ∧
        lift msg (b64Decode A.chars ((b64Encode A.chars s).filter (· ≠ padChar))) = .ok s := by
    intro A msg
    obtain ⟨hpadded, hbare⟩ := b64Decode_encode A s
    rw [hpadded, hbare]
    exact ⟨rfl, rfl⟩
  exact ⟨hround std _, hround url _, (lift_ok _ _).trans (b64Decode_isSome std text),
    (lift_ok _ _).trans (b64Decode_isSome url text)⟩

/-! ### Percent coding -/

theorem hexIndex_upperHex : ∀ n < 16, hexIndex (upperHex n) = some n := by decide

theorem and_15 (t : Nat) : t &&& 15 = t % 16 := Nat.and_two_pow_sub_one_eq_mod t 4

/-- One byte is read back in front of any rest. -/
theorem pctDecode_pctByte (c : UInt8) (rest : Bytes) :
    pctDecode (pctByte c ++ rest) = (pctDecode rest).map (c :: ·) := by
  have hc := c.toNat_lt
  unfold pctByte
  by_cases hplain : isUnreserved c = true
  · have hne : c ≠ 37 := by
      rintro rfl
      exact absurd hplain (by decide)
    rw [if_pos hplain, List.singleton_append, pctDecode.eq_def]
    exact if_pos hne
  · have hhi : c.toNat >>> 4 < 16 := by
      rw [Nat.shiftRight_eq_div_pow]
      omega
    have hlo : c.toNat &&& 15 < 16 := by
      rw [and_15]
      omega
    have hbyte : byte ((c.toNat >>> 4) <<< 4 ||| (c.toNat &&& 15)) = c := by
      refine byte_toNat c ?_
      rw [← Nat.shiftLeft_add_eq_or_of_lt hlo, Nat.shiftLeft_eq, Nat.shiftRight_eq_div_pow, and_15]
      omega
    rw [if_neg hplain]
    simp only [List.cons_append, List.nil_append]
    rw [pctDecode, if_neg (by simp)]
    simp only [hexIndex_upperHex _ hhi, hexIndex_upperHex _ hlo, hbyte]

theorem pctDecode_percentEncode (s : Bytes) : pctDecode (percentEncode s) = some s := by
  induction s with
  | nil => rfl
  | cons c s ih =>
      have hcons : percentEncode (c :: s) = pctByte c ++ percentEncode s := rfl
      rw [hcons, pctDecode_pctByte, ih]
      rfl

/-- An encoded text has no byte that is neither unreserved nor the percent sign. -/
theorem mem_percentEncode {s : Bytes} {x : UInt8} (h : x ∈ percentEncode s) :
    isUnreserved x = true ∨ x = 37 := by
  have hdigit : ∀ n < 16, isUnreserved (upperHex n) = true := by decide
  obtain ⟨c, -, hx⟩ := List.mem_flatMap.mp h
  have hc := c.toNat_lt
  unfold pctByte at hx
  split at hx
  · next hplain => exact .inl (List.mem_singleton.mp hx ▸ hplain)
  · simp only [List.mem_cons, List.not_mem_nil, or_false, and_15, Nat.shiftRight_eq_div_pow] at hx
    rcases hx with rfl | rfl | rfl
    · exact .inr rfl
    · exact .inl (hdigit _ (by omega))
    · exact .inl (hdigit _ (by omega))

end TinyActor.Stdlib.Encoding
