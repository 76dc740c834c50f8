/-
The generator never falls to zero, its bounded draws are fair, and a shuffle is a bijection.

Every stage of the state step (an exclusive or with a shift of the word itself) takes only zero to
zero, and so does every stage of the seed mixer after its first addition; the one seed the mixer
takes to zero is no sign-extended 48-bit number.

A shuffle of a list is the list read through a product of transpositions, the one of the last
position outermost.  The others leave the last position alone, so the draw for it is where the
product takes it, and the rest follows by going down the positions.  There are as many draw
sequences as rearrangements, so the map is onto as well.
-/
import Mathlib.Data.Nat.Factorial.BigOperators
import Mathlib.Data.Nat.Periodic
import Mathlib.Data.Set.Card
import Mathlib.Data.Fintype.Perm
import Mathlib.Data.Fintype.BigOperators
import TinyActor.Stdlib.Random

namespace TinyActor.Stdlib.Random

open Vm Equiv

/-! ### Zero is left out -/

theorem xor_eq_zero {x y : Word} (h : x ^^^ y = 0) : x = y := by
  simpa using h

theorem shiftRight_stage {x : Word} {k : Nat} (hk : 0 < k) (h : x ^^^ (x >>> k) = 0) : x = 0 := by
  have hx := congrArg BitVec.toNat (xor_eq_zero h)
  rw [BitVec.toNat_ushiftRight, Nat.shiftRight_eq_div_pow] at hx
  by_contra hne
  have hpos : 0 < x.toNat := Nat.pos_of_ne_zero (fun h0 => hne (BitVec.eq_of_toNat_eq h0))
  have := Nat.div_lt_self hpos (Nat.one_lt_two_pow (Nat.ne_of_gt hk))
  omega

/-- A factor with an inverse can be undone. -/
theorem mul_stage {x c u : Word} (hu : c * u = 1#64) (h : x * c = 0) : x = 0 := by
  rw [← BitVec.mul_one x, ← hu, ← BitVec.mul_assoc, h, BitVec.ofNat_eq_ofNat, BitVec.zero_mul]

theorem shiftLeft_stage {x : Word} (h : x ^^^ (x <<< 25) = 0) : x = 0 := by
  have hx := xor_eq_zero h
  -- Shifted three times the word is out of its 64 bits.
  rw [hx, hx, hx, ← BitVec.shiftLeft_add, ← BitVec.shiftLeft_add]
  exact BitVec.shiftLeft_eq_zero (by decide)

theorem nextState_ne_zero {x : Word} (h : x ≠ 0) : nextState x ≠ 0 := by
  intro h0
  exact h (shiftRight_stage (by decide) (shiftLeft_stage (shiftRight_stage (by decide) h0)))

theorem add_stage {x c : Word} (h : x + c = 0) : x = -c := by
  bv_omega

theorem splitmix64_eq_zero {x : Word} (h : splitmix64 x = 0) : x = -golden := by
  have hfirst := shiftRight_stage (by decide) h
  have hsecond := mul_stage (u := 0x319642b2d24d8ec3#64) (by decide) hfirst
  have hthird := mul_stage (u := 0x96de1b173f119089#64) (by decide)
    (shiftRight_stage (by decide) hsecond)
  exact add_stage (shiftRight_stage (by decide) hthird)

/-- The seed that the mixer takes to zero has more than 48 bits. -/
theorem splitmix64_seed_ne_zero (seed : BitVec 48) : splitmix64 (BitVec.ofInt 64 seed.toInt) ≠ 0 := by
  intro h
  have hseed := congrArg BitVec.toNat (splitmix64_eq_zero h)
  have hgolden : (-golden).toNat = 0x61C8864680B583EB := by decide
  rw [hgolden, BitVec.toNat_ofInt] at hseed
  have hlow := BitVec.le_toInt seed
  have hhigh := BitVec.toInt_lt (x := seed)
  omega

/-- The state after a number of draws behind `srand`. -/
def stateAfter (seed : BitVec 48) (draws : Nat) : Word :=
  (fun state => (rngNext state).2)^[draws] (srand (F := Unit) (.int seed) ⟨0, false⟩).2.state

theorem stateAfter_succ (seed : BitVec 48) (draws : Nat) :
    stateAfter seed (draws + 1) = (rngNext (stateAfter seed draws)).2 :=
  Function.iterate_succ_apply' ..

theorem stateAfter_ne_zero (seed : BitVec 48) (draws : Nat) : stateAfter seed draws ≠ 0 := by
  induction draws with
  | zero => exact splitmix64_seed_ne_zero seed
  | succ draws ih =>
      rw [stateAfter_succ]
      exact nextState_ne_zero ih

theorem rngNext_ne_zero {x : Word} (h : x ≠ 0) : (rngNext x).1 ≠ 0 := by
  intro h0
  exact nextState_ne_zero h (mul_stage (u := 0x59071d96d81ecd35#64) (by decide) h0)

/-- The draw in which the loop of `rand_int` gets the first word that is not below the
threshold. -/
structure FirstAccepted (t : Word) (seed : BitVec 48) (draws last : Nat) : Prop where
  le : draws ≤ last
  below : ∀ k, draws ≤ k → k < last → (rngNext (stateAfter seed k)).1 < t
  accepted : ¬ (rngNext (stateAfter seed last)).1 < t

/-- The loop of `rand_int` gives the first word it accepts and the state behind it, if that comes
within its bound. -/
theorem redraw_stateAfter {seed : BitVec 48} {t : Word} {bound draws : Nat} {next : Word × Word} :
    redraw t bound (stateAfter seed draws) = some next ↔
      ∃ last, FirstAccepted t seed draws last ∧ last < draws + bound ∧
        next = rngNext (stateAfter seed last) := by
  induction bound generalizing draws with
  | zero =>
      constructor
      · intro h
        cases h
      · rintro ⟨last, hfirst, hlt, -⟩
        exact absurd hfirst.le (by omega)
  | succ bound ih =>
      rw [redraw]
      by_cases hlt : (rngNext (stateAfter seed draws)).1 < t
      · rw [if_pos hlt, ← stateAfter_succ, ih]
        constructor
        · rintro ⟨last, hfirst, hbound, hnext⟩
          refine ⟨last, ⟨by have := hfirst.le; omega, ?_, hfirst.accepted⟩, by omega, hnext⟩
          intro k hk hklast
          rcases Nat.eq_or_lt_of_le hk with rfl | hk
          · exact hlt
          · exact hfirst.below k hk hklast
        · rintro ⟨last, hfirst, hbound, hnext⟩
          have hne : draws ≠ last := by
            rintro rfl
            exact hfirst.accepted hlt
          have hle := hfirst.le
          exact ⟨last, ⟨by omega, fun k hk => hfirst.below k (by omega), hfirst.accepted⟩,
            by omega, hnext⟩
      · rw [if_neg hlt]
        constructor
        · intro h
          obtain rfl := Option.some.inj h
          refine ⟨draws, ⟨Nat.le_refl _, fun k hk hkd => ?_, hlt⟩, by omega, rfl⟩
          exact absurd hkd (by omega)
        · rintro ⟨last, hfirst, -, rfl⟩
          rcases Nat.eq_or_lt_of_le hfirst.le with rfl | hd
          · rfl
          · exact absurd (hfirst.below draws (Nat.le_refl _) hd) hlt

/-! ### Fair answers -/

theorem toNat_threshold {un : Word} (h : 0 < un.toNat) :
    (threshold un).toNat = 2 ^ 64 % un.toNat := by
  have hlt := un.isLt
  have hneg : (2 ^ 64 - un.toNat) % 2 ^ 64 = 2 ^ 64 - un.toNat := Nat.mod_eq_of_lt (by omega)
  rw [threshold, BitVec.toNat_umod, BitVec.toNat_neg, hneg, ← Nat.mod_eq_sub_mod (Nat.le_of_lt hlt)]

theorem count_residue {n v : Nat} (hv : v < n) : n.count (fun r => r % n = v) = 1 := by
  have hfilter : (Finset.range n).filter (fun r => r % n = v) = {v} := by
    ext r
    simp only [Finset.mem_filter, Finset.mem_range, Finset.mem_singleton]
    constructor
    · rintro ⟨hr, rfl⟩
      rw [Nat.mod_eq_of_lt hr]
    · rintro rfl
      exact ⟨hv, Nat.mod_eq_of_lt hv⟩
  rw [Nat.count_eq_card_filter_range, hfilter, Finset.card_singleton]

/-- Of so many whole periods each residue has one number in each. -/
theorem card_residues (t : Nat) {n v : Nat} (hv : v < n) (q : Nat) :
    ((Finset.Ico t (t + q * n)).filter (fun r => r % n = v)).card = q := by
  induction q with
  | zero => simp
  | succ q ih =>
      have hsplit : Finset.Ico t (t + (q + 1) * n) =
          Finset.Ico t (t + q * n) ∪ Finset.Ico (t + q * n) (t + q * n + n) := by
        rw [Finset.Ico_union_Ico_eq_Ico (by omega) (by omega), Nat.succ_mul, Nat.add_assoc]
      have hdisjoint := Finset.Ico_disjoint_Ico_consecutive t (t + q * n) (t + q * n + n)
      have hperiod : Function.Periodic (fun r => r % n = v) n := by
        intro r
        simp only [Nat.add_mod_right]
      rw [hsplit, Finset.filter_union,
        Finset.card_union_of_disjoint (Finset.disjoint_filter_filter hdisjoint), ih,
        Nat.filter_Ico_card_eq_of_periodic _ _ _ hperiod, count_residue hv]

/-- The words `rand_int` accepts for a bound and answers with a number. -/
def answeredBy (F : Type) (n : BitVec 48) (v : Int) : Set Word :=
  { r | ¬ r < threshold (BitVec.ofInt 64 n.toInt) ∧
    answer (F := F) (BitVec.ofInt 64 n.toInt) r = valInt v }

theorem answer_eq {F : Type} {un r : Word} {v : Nat} (hun : 0 < un.toNat) (hsmall : un.toNat < 2 ^ 47)
    (hv : v < un.toNat) : answer (F := F) un r = valInt v ↔ r.toNat % un.toNat = v := by
  have hlt := Nat.mod_lt r.toNat hun
  have hint : (r % un).toInt = (r.toNat % un.toNat : Nat) := by
    rw [BitVec.toInt_eq_toNat_of_lt, BitVec.toNat_umod]
    rw [BitVec.toNat_umod]
    omega
  rw [answer, hint, valInt, valInt, Val.int.injEq]
  constructor
  · intro h
    have := congrArg BitVec.toNat h
    rw [BitVec.toNat_ofInt, BitVec.toNat_ofInt] at this
    omega
  · intro h
    rw [h]

theorem ncard_answeredBy (F : Type) {n : BitVec 48} (hn : 0 < n.toInt) {v : Int} (h0 : 0 ≤ v)
    (hv : v < n.toInt) : (answeredBy F n v).ncard = 2 ^ 64 / n.toInt.toNat := by
  obtain ⟨v, rfl⟩ := Int.eq_ofNat_of_zero_le h0
  have hhigh := BitVec.toInt_lt (x := n)
  have hun : (BitVec.ofInt 64 n.toInt).toNat = n.toInt.toNat := by
    rw [BitVec.toNat_ofInt]
    omega
  have hpos : 0 < (BitVec.ofInt 64 n.toInt).toNat := by omega
  -- The words accepted are the numbers from the threshold on, a whole number of periods.
  have himage : BitVec.toNat '' answeredBy F n v =
      ((Finset.Ico (2 ^ 64 % n.toInt.toNat)
        (2 ^ 64 % n.toInt.toNat + 2 ^ 64 / n.toInt.toNat * n.toInt.toNat)).filter
          (fun r => r % n.toInt.toNat = v) : Finset Nat) := by
    have hfull : 2 ^ 64 % n.toInt.toNat + 2 ^ 64 / n.toInt.toNat * n.toInt.toNat = 2 ^ 64 := by
      rw [Nat.mul_comm]
      exact Nat.mod_add_div ..
    rw [hfull]
    ext r
    simp only [Set.mem_image, Finset.coe_filter, Finset.mem_Ico, Set.mem_ofPred_eq, answeredBy]
    constructor
    · rintro ⟨w, ⟨hw, hanswer⟩, rfl⟩
      rw [answer_eq hpos (by omega) (by omega), hun] at hanswer
      rw [BitVec.lt_def, toNat_threshold hpos, hun] at hw
      exact ⟨⟨Nat.le_of_not_lt hw, w.isLt⟩, hanswer⟩
    · rintro ⟨⟨hlow, hr⟩, hanswer⟩
      have hword : (BitVec.ofNat 64 r).toNat = r := by
        rw [BitVec.toNat_ofNat, Nat.mod_eq_of_lt hr]
      refine ⟨BitVec.ofNat 64 r, ⟨?_, ?_⟩, hword⟩
      · rw [BitVec.lt_def, toNat_threshold hpos, hun, hword]
        exact Nat.not_lt_of_le hlow
      · rwa [answer_eq hpos (by omega) (by omega), hun, hword]
  rw [← Set.ncard_image_of_injective _ (fun _ _ => BitVec.eq_of_toNat_eq), himage, Set.ncard_coe_finset,
    card_residues _ (by omega)]

/-- A call for a bound from one on answers for the first word it accepts, and leaves the state
behind it. -/
theorem rawRandInt_stateAfter {F : Type} {now : Word} {bound draws : Nat} {seed n : BitVec 48}
    {next : Val F × Rng} (hn : 0 < n.toInt) :
    rawRandInt now bound (.int n) ⟨stateAfter seed draws, true⟩ = some next ↔
      ∃ last, FirstAccepted (threshold (BitVec.ofInt 64 n.toInt)) seed draws last ∧
        last < draws + bound ∧
        next = (answer (BitVec.ofInt 64 n.toInt) (rngNext (stateAfter seed last)).1,
          ⟨stateAfter seed (last + 1), true⟩) := by
  have hget : getInt (.int n : Val F) = n.toInt := rfl
  rw [rawRandInt, if_neg (by simp [isInt]), hget, if_neg (by omega)]
  simp only [Option.map_eq_some_iff, seedIfNeeded, if_true, redraw_stateAfter]
  constructor
  · rintro ⟨word, ⟨last, hfirst, hlast, rfl⟩, rfl⟩
    refine ⟨last, hfirst, hlast, ?_⟩
    rw [stateAfter_succ]
  · rintro ⟨last, hfirst, hlast, rfl⟩
    refine ⟨_, ⟨last, hfirst, hlast, rfl⟩, ?_⟩
    rw [stateAfter_succ]

/-- Any other call answers -1 and leaves the generator alone. -/
theorem rawRandInt_refused {F : Type} (now : Word) (bound : Nat) {n : BitVec 48} (rng : Rng)
    (hn : n.toInt ≤ 0) : rawRandInt (F := F) now bound (.int n) rng = some (valInt (-1), rng) := by
  have hget : getInt (.int n : Val F) = n.toInt := rfl
  rw [rawRandInt, if_neg (by simp [isInt]), hget, if_pos hn]

/-- **The generator never falls to zero, and `rand_int` is fair**: behind any seed and any number
of draws neither the state nor the word drawn next is zero; a call of `rand_int` for a bound from
one on answers for the first word that is not below the threshold and leaves the generator behind
it, and any other call is refused; and of the words it accepts for a bound as many give one answer
as give any other. -/
theorem rand_int_fair :
    (∀ seed draws, stateAfter seed draws ≠ 0 ∧ (rngNext (stateAfter seed draws)).1 ≠ 0) ∧
    (∀ (F : Type) (now : Word) (bound draws : Nat) (seed n : BitVec 48) (next : Val F × Rng),
      0 < n.toInt →
        (rawRandInt now bound (.int n) ⟨stateAfter seed draws, true⟩ = some next ↔
          ∃ last, FirstAccepted (threshold (BitVec.ofInt 64 n.toInt)) seed draws last ∧
            last < draws + bound ∧
            next = (answer (BitVec.ofInt 64 n.toInt) (rngNext (stateAfter seed last)).1,
              ⟨stateAfter seed (last + 1), true⟩))) ∧
    (∀ (F : Type) (now : Word) (bound : Nat) (n : BitVec 48) (rng : Rng), n.toInt ≤ 0 →
      rawRandInt (F := F) now bound (.int n) rng = some (valInt (-1), rng)) ∧
    ∀ (F : Type) (n : BitVec 48), 0 < n.toInt → ∀ v, 0 ≤ v → v < n.toInt →
      (answeredBy F n v).ncard = 2 ^ 64 / n.toInt.toNat := by
  refine ⟨fun seed draws => ?_, fun _ _ _ _ _ _ _ hn => rawRandInt_stateAfter hn,
    fun _ now bound _ rng hn => rawRandInt_refused now bound rng hn,
    fun F _ hn _ h0 hv => ncard_answeredBy F hn h0 hv⟩
  exact ⟨stateAfter_ne_zero seed draws, rngNext_ne_zero (stateAfter_ne_zero seed draws)⟩

theorem rand_int_fair_die : (answeredBy Unit 6#48 5).ncard = 2 ^ 64 / 6 := by
  have hsix : (6#48).toInt.toNat = 6 := by decide
  rw [← hsix]
  exact rand_int_fair.2.2.2 Unit 6#48 (by decide) 5 (by decide) (by decide)

/-! ### The shuffle -/

/-- One draw for each position, not above it. -/
abbrev Draws (n : Nat) := (i : Fin n) → Fin (i + 1)

/-- The answers of `raw_rand_int` that are these draws. -/
def Draws.raw {n : Nat} (d : Draws n) (i : Nat) : Int :=
  if h : i < n then (d ⟨i, h⟩ : Nat) else 0

namespace Draws

variable {n : Nat} (d : Draws n)

/-- A position and the one drawn for it. -/
def exchange (i : Nat) : Perm (Fin n) :=
  if h : i < n then Equiv.swap ⟨i, h⟩ ((d ⟨i, h⟩).castLE h) else 1

/-- The exchanges from a position down. -/
def exchanges : Nat → Perm (Fin n)
  | 0 => 1
  | i + 1 => exchange d (i + 1) * exchanges i

/-- What the draws do to the positions. -/
def rearrangement : Perm (Fin n) := exchanges d (n - 1)

theorem exchange_of_lt {i : Nat} {k : Fin n} (h : i < k) : exchange d i k = k := by
  rw [exchange]
  split
  · rename_i hi
    refine Equiv.swap_apply_of_ne_of_ne ?_ ?_
    · rintro rfl
      exact Nat.lt_irrefl _ h
    · intro hk
      have hval := congrArg Fin.val hk
      have := (d ⟨i, hi⟩).isLt
      rw [Fin.val_castLE] at hval
      omega
  · rfl

theorem exchanges_of_lt {i : Nat} {k : Fin n} (h : i < k) : exchanges d i k = k := by
  induction i with
  | zero => rfl
  | succ i ih =>
      rw [exchanges, Perm.mul_apply, ih (by omega), exchange_of_lt d h]

/-- The last position goes where its draw says. -/
theorem exchanges_last {i : Nat} (h : i + 1 < n) :
    exchanges d (i + 1) ⟨i + 1, h⟩ = (d ⟨i + 1, h⟩).castLE h := by
  rw [exchanges, Perm.mul_apply, exchanges_of_lt d (Nat.lt_succ_self i), exchange, dif_pos h,
    Equiv.swap_apply_left]

variable {d}

/-- The draws can be read off, from the last one down. -/
theorem eq_of_exchanges {d' : Draws n} {i : Nat} (h : exchanges d i = exchanges d' i) (k : Fin n)
    (hk : k ≤ i) : d k = d' k := by
  induction i with
  | zero =>
      have hone : ∀ a : Fin (k + 1), (a : Nat) = 0 := fun a => by omega
      exact Fin.ext ((hone _).trans (hone _).symm)
  | succ i ih =>
      by_cases hi : i + 1 < n
      · have hlast : d ⟨i + 1, hi⟩ = d' ⟨i + 1, hi⟩ := by
          have := exchanges_last d hi
          rw [h, exchanges_last d' hi] at this
          exact (Fin.castLE_injective hi this).symm
        rcases Nat.lt_or_eq_of_le hk with hlt | heq
        · refine ih ?_ (by omega)
          have hexchange : exchange d (i + 1) = exchange d' (i + 1) := by
            rw [exchange, exchange, dif_pos hi, dif_pos hi, hlast]
          rw [exchanges, exchanges, hexchange] at h
          exact mul_left_cancel h
        · obtain rfl : k = ⟨i + 1, hi⟩ := Fin.ext heq
          exact hlast
      · refine ih ?_ (by omega)
        rw [exchanges, exchanges, exchange, exchange, dif_neg hi, dif_neg hi] at h
        exact mul_left_cancel h

theorem rearrangement_injective : Function.Injective (rearrangement : Draws n → Perm (Fin n)) := by
  intro d d' h
  funext k
  exact eq_of_exchanges h k (by omega)

theorem card_draws : Fintype.card (Draws n) = n.factorial := by
  rw [Fintype.card_pi]
  simp only [Fintype.card_fin]
  rw [Nat.factorial_eq_prod_range_add_one, ← Fin.prod_univ_eq_prod_range]

/-- **Every rearrangement comes from one sequence of draws.** -/
theorem rearrangement_bijective : Function.Bijective (rearrangement : Draws n → Perm (Fin n)) := by
  rw [Fintype.bijective_iff_injective_and_card, card_draws, Fintype.card_perm, Fintype.card_fin]
  exact ⟨rearrangement_injective, rfl⟩

end Draws

/-! ### The lists -/

variable {α : Type}

theorem nth_ofFn (nil : α) {n : Nat} (f : Fin n → α) (k : Fin n) :
    Lists.nth nil (List.ofFn f) (k : Nat) = f k := by
  induction n with
  | zero => exact k.elim0
  | succ n ih =>
      rw [List.ofFn_succ, Lists.nth]
      cases k using Fin.cases with
      | zero => rfl
      | succ k =>
          have hpred : ((k.succ : Nat) : Int) - 1 = (k : Nat) := by simp
          rw [if_neg (by rw [Fin.val_succ]; omega), hpred, ih]

theorem setNth_ofFn {n : Nat} (f : Fin n → α) (k : Fin n) (x : α) :
    setNth (List.ofFn f) (k : Nat) x = some (List.ofFn (Function.update f k x)) := by
  induction n with
  | zero => exact k.elim0
  | succ n ih =>
      rw [List.ofFn_succ, List.ofFn_succ, setNth]
      cases k using Fin.cases with
      | zero => rfl
      | succ k =>
          have hpred : ((k.succ : Nat) : Int) - 1 = (k : Nat) := by simp
          have htail : (fun i : Fin n => Function.update f k.succ x i.succ) =
              Function.update (fun i => f i.succ) k x := by
            funext i
            simp only [Function.update_apply, Fin.succ_inj]
          rw [if_neg (by rw [Fin.val_succ]; omega), hpred, ih, htail,
            Function.update_of_ne (Fin.succ_ne_zero k).symm]
          rfl

theorem swap_ofFn (nil : α) {n : Nat} (f : Fin n → α) (i j : Fin n) :
    swap nil (List.ofFn f) (i : Nat) (j : Nat) = some (List.ofFn (f ∘ Equiv.swap j i)) := by
  rw [swap, nth_ofFn, nth_ofFn, setNth_ofFn, Option.bind_some, setNth_ofFn,
    Equiv.comp_swap_eq_update]

theorem fy_ofFn (nil : α) {n : Nat} (f : Fin n → α) (d : Draws n) {i : Nat} (hi : i ≤ n - 1) :
    fy nil d.raw (List.ofFn f) i = some (List.ofFn (f ∘ d.exchanges i)) := by
  induction i generalizing f with
  | zero => rfl
  | succ i ih =>
      have hlt : i + 1 < n := by omega
      have hraw : d.raw (i + 1) = ((d ⟨i + 1, hlt⟩).castLE hlt : Fin n).val := by
        rw [Draws.raw, dif_pos hlt, Fin.val_castLE]
      have hok : randInt (d.raw (i + 1)) = .ok (d.raw (i + 1)) := by
        rw [randInt, if_neg]
        omega
      rw [fy, hok]
      simp only []
      rw [hraw, swap_ofFn nil f ⟨i + 1, hlt⟩, Option.bind_some, ih _ (by omega), Draws.exchanges,
        Draws.exchange, dif_pos hlt, Equiv.swap_comm]
      rfl

theorem shuffle_eq (nil : α) (l : List α) (d : Draws l.length) :
    shuffle nil d.raw l = some (List.ofFn (l.get ∘ d.rearrangement)) := by
  have := fy_ofFn nil l.get d (Nat.le_refl _)
  rwa [List.ofFn_get] at this

theorem take_eq (n : Nat) (l : List α) : Lists.take n l = l.take n := by
  induction l generalizing n with
  | nil => cases n <;> rfl
  | cons a l ih =>
      cases n with
      | zero => rfl
      | succ n =>
          rw [Lists.take, if_neg (by omega), List.take_succ_cons, ← ih n]
          congr
          omega

theorem take_negative {n : Int} (hn : n < 0) (l : List α) : Lists.take n l = l := by
  induction l generalizing n with
  | nil => rfl
  | cons a l ih => rw [Lists.take, if_neg (by omega), ih (by omega)]

/-- The elements at the positions a rearrangement puts first. -/
theorem take_shuffled (l : List α) (σ : Perm (Fin l.length)) (n : Nat) :
    (List.ofFn (l.get ∘ σ)).take n = ((List.ofFn σ).take n).map l.get := by
  rw [List.map_take, List.map_ofFn]

/-- A sample of `n` does what it is for, with the answers of `raw_rand_int` to the draws. -/
structure Samples (nil : α) (n : Int) (l : List α) (d : Draws l.length) : Prop where
  /-- It succeeds where the list has so many elements and nowhere else. -/
  succeeds : (∃ s, sample nil d.raw n l = some (.ok s)) ↔ 0 ≤ n ∧ n ≤ l.length
  /-- It is the elements of so many different positions. -/
  sampled : ∀ s, sample nil d.raw n l = some (.ok s) →
    ∃ positions : List (Fin l.length),
      positions.Nodup ∧ positions.length = n ∧ s = positions.map l.get

theorem sample_of_le (nil : α) (l : List α) (d : Draws l.length) {n : Nat} (hn : n ≤ l.length) :
    sample nil d.raw n l = some (.ok (((List.ofFn d.rearrangement).take n).map l.get)) := by
  rw [sample, if_neg (by omega), shuffle_eq, Option.map_some, take_eq, take_shuffled]

theorem le_of_sample {nil : α} {raw : Nat → Int} {n : Int} {l s : List α}
    (h : sample nil raw n l = some (.ok s)) : n ≤ l.length := by
  by_contra hn
  rw [sample, if_pos (by omega)] at h
  cases h

theorem ofFn_perm (l : List α) (σ : Perm (Fin l.length)) : (List.ofFn (l.get ∘ σ)).Perm l := by
  have := Equiv.Perm.ofFn_comp_perm σ l.get
  rwa [List.ofFn_get] at this

theorem samples (nil : α) (n : Nat) (l : List α) (d : Draws l.length) : Samples nil n l d where
  succeeds := ⟨fun ⟨_, h⟩ => ⟨by omega, le_of_sample h⟩,
    fun hn => ⟨_, sample_of_le nil l d (by omega)⟩⟩
  sampled s h := by
    have hn : n ≤ l.length := by have := le_of_sample h; omega
    rw [sample_of_le nil l d hn] at h
    obtain rfl := Except.ok.inj (Option.some.inj h)
    refine ⟨_, ?_, ?_, rfl⟩
    · exact (List.nodup_ofFn.mpr d.rearrangement.injective).sublist (List.take_sublist _ _)
    · rw [List.length_take, List.length_ofFn, Nat.min_eq_left hn]

/-- A sample of a count below zero is the whole list. -/
theorem sample_of_neg (nil : α) (l : List α) (d : Draws l.length) {n : Int} (hn : n < 0) :
    sample nil d.raw n l = some (.ok (List.ofFn (l.get ∘ d.rearrangement))) := by
  rw [sample, if_neg (by omega), shuffle_eq, Option.map_some, take_negative hn]

/-- **A shuffle is a bijection from draws to rearrangements**: it gives the elements at the places
the draws send the positions to, every rearrangement by one sequence of draws.  A sample takes so
many different positions, and fails where there are not so many, exactly if its count is not
negative. -/
theorem shuffle_sample (nil : α) (l : List α) :
    Function.Bijective (Draws.rearrangement : Draws l.length → Perm (Fin l.length)) ∧
      ∀ d : Draws l.length,
        (∃ s, shuffle nil d.raw l = some s ∧ s = List.ofFn (l.get ∘ d.rearrangement) ∧
          s.Perm l) ∧
        ∀ n : Int, Samples nil n l d ↔ 0 ≤ n := by
  refine ⟨Draws.rearrangement_bijective, fun d => ⟨⟨_, shuffle_eq nil l d, rfl, ofFn_perm l _⟩, ?_⟩⟩
  intro n
  constructor
  · intro h
    by_contra hneg
    exact hneg (h.succeeds.mp ⟨_, sample_of_neg nil l d (by omega)⟩).1
  · intro hn
    obtain ⟨n, rfl⟩ := Int.eq_ofNat_of_zero_le hn
    exact samples nil n l d

theorem shuffle_sample_two : Samples 0 2 [1, 2, 3] (fun _ => 0) :=
  (((shuffle_sample 0 [1, 2, 3]).2 _).2 2).mpr (by decide)

/-- Less than nothing of a list is all of it. -/
theorem sample_minus_one :
    sample 0 (fun _ => 0) (-1) [1, 2, 3] = some (.ok [2, 3, 1]) := by
  decide

end TinyActor.Stdlib.Random
