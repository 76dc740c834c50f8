/-
Buffers hold what was pushed, up to 2^30 bytes.

A capacity is 0 or a power of two from 16 on, and doubling stays inside an `int` as
long as a power up to 2^30 suffices.  Then a push finds room or is refused, and the
used part of the block is what was pushed.

Past that the arithmetic leaves the 32 bits.  With 2^30 bytes in the buffer, one
more doubles the capacity to -2^31, to 0, and to 0 for ever; and a piece that takes
the length to 2^31 makes the sum negative, so that the test finds room where there
is none and the copy runs out of the block.
-/
import TinyActor.Stdlib.Buffer

namespace TinyActor.Stdlib.Buffer

open TinyActor.Lib (int32 int32_of_range)

variable {b b' : Buf} {m : Memory} {rounds : Nat} {s : Bytes} {need : Int}

/-! ### Room -/

/-- The block has the bytes the capacity says, and the length stays inside. -/
structure Sized (b : Buf) : Prop where
  block : (b.data.length : Int) = b.cap
  nonneg : 0 ≤ b.len
  fits : b.len ≤ b.cap
  power : b.cap = 0 ∨ ∃ j, 4 ≤ j ∧ j ≤ 30 ∧ b.cap = 2 ^ j

/-- The bytes in use. -/
def Buf.contents (b : Buf) : Bytes := b.data.take b.len.toNat

theorem Sized.length_contents (h : Sized b) : (b.contents.length : Int) = b.len := by
  have hblock := h.block
  have hnonneg := h.nonneg
  have hfits := h.fits
  rw [Buf.contents, List.length_take]
  omega

theorem sized_empty : Sized empty := ⟨rfl, Int.le_refl 0, Int.le_refl 0, .inl rfl⟩

theorem pow_le_limit {j : Nat} (hj : j ≤ 30) : (2 : Int) ^ j ≤ 2 ^ 30 :=
  pow_le_pow_right₀ (by decide) hj

/-- Doubling reaches a power of two that suffices. -/
theorem double_eq (hneed : need ≤ 2 ^ 30) {j : Nat} (hj : j ≤ 30) (hr : 30 < rounds + j) :
    ∃ k, j ≤ k ∧ k ≤ 30 ∧ need ≤ 2 ^ k ∧ double need rounds (2 ^ j) = .done (2 ^ k) := by
  induction rounds generalizing j with
  | zero => omega
  | succ n ih =>
      rw [double]
      split
      · rename_i hlt
        have hj' : j < 30 := by
          by_contra hge
          obtain rfl : j = 30 := by omega
          omega
        have hpow : int32 (2 ^ j * 2) = 2 ^ (j + 1) := by
          have hle : (2 : Int) ^ (j + 1) ≤ 2 ^ 30 := pow_le_limit hj'
          have hpos : (0 : Int) < 2 ^ (j + 1) := pow_pos (by decide) _
          rw [← pow_succ]
          exact int32_of_range (by omega) (by omega)
        rw [hpow]
        obtain ⟨k, hjk, hrest⟩ := ih (j := j + 1) hj' (by omega)
        exact ⟨k, by omega, hrest⟩
      · exact ⟨j, Nat.le_refl j, hj, by omega, rfl⟩

theorem Memory.length_realloc {data nd : Bytes} {size : Nat} (h : m.realloc data size = some nd)
    (hle : data.length ≤ size) : nd.length = size ∧ nd.take data.length = data := by
  unfold Memory.realloc at h
  split at h
  · cases h
    refine ⟨?_, ?_⟩
    · rw [List.length_take, List.length_append, List.length_map, List.length_range]
      omega
    · rw [List.take_take, Nat.min_eq_left hle, List.take_left]
  · cases h

/-- Room is found, or the buffer stays as it is. -/
theorem bufEnsure_spec (h : Sized b) {add : Int} (hadd : 0 ≤ add) (hneed : b.len + add ≤ 2 ^ 30)
    (hr : 26 < rounds) :
    (bufEnsure rounds m b add = .done none ∧ ∃ size, m.grants size = false) ∨
      ∃ b', bufEnsure rounds m b add = .done (some b') ∧ Sized b' ∧ b'.len = b.len ∧
        b'.contents = b.contents ∧ b.len + add ≤ b'.cap := by
  have hnonneg := h.nonneg
  have hsum : int32 (b.len + add) = b.len + add := int32_of_range (by omega) (by omega)
  unfold bufEnsure
  rw [hsum]
  split
  · exact .inr ⟨b, rfl, h, rfl, rfl, ‹_›⟩
  obtain ⟨j, hj, hj', hcap⟩ : ∃ j, 4 ≤ j ∧ j ≤ 30 ∧ (if b.cap ≠ 0 then b.cap else 16) = 2 ^ j := by
    rcases h.power with h0 | ⟨j, hj, hj', hcap⟩
    · exact ⟨4, by omega, by omega, by rw [if_neg (by simpa using h0)]; rfl⟩
    · have hpos : (0 : Int) < 2 ^ j := pow_pos (by decide) _
      exact ⟨j, hj, hj', by rw [if_pos (by omega), hcap]⟩
  have hrounds : 30 < rounds + j := by omega
  obtain ⟨k, hjk, hk, hfits, hdouble⟩ := double_eq hneed hj' hrounds
  rw [hcap, hdouble, Fate.bind]
  cases hre : m.realloc b.data ((2 : Int) ^ k).toNat with
  | none =>
      refine .inl ⟨rfl, ((2 : Int) ^ k).toNat, Bool.eq_false_iff.mpr fun hg => ?_⟩
      rw [Memory.realloc, if_pos hg] at hre
      cases hre
  | some nd =>
      have hblock := h.block
      have hlen := h.fits
      obtain ⟨hnd, htake⟩ := Memory.length_realloc hre (by omega)
      refine .inr ⟨{ b with data := nd, cap := 2 ^ k }, rfl, ⟨?_, hnonneg, ?_, ?_⟩, rfl, ?_, hfits⟩
      · dsimp only
        omega
      · dsimp only
        omega
      · exact .inr ⟨k, by omega, hk, rfl⟩
      · rw [Buf.contents, Buf.contents]
        dsimp only
        rw [← htake, List.take_take, Nat.min_eq_left (by omega)]

/-- Where there is room, the copy stays inside the block. -/
theorem append_spec (h : Sized b) (hfits : b.len + s.length ≤ b.cap) :
    ∃ b', append b s = .done (b', b.len + s.length) ∧ Sized b' ∧ b'.len = b.len + s.length ∧
      b'.contents = b.contents ++ s := by
  have hblock := h.block
  have hnonneg := h.nonneg
  have hcap : b.cap ≤ 2 ^ 30 := by
    rcases h.power with h0 | ⟨j, -, hj, hcap⟩
    · omega
    · exact hcap ▸ pow_le_limit hj
  have hsum : int32 (b.len + s.length) = b.len + s.length := int32_of_range (by omega) (by omega)
  refine ⟨{ b with
    data := b.data.take b.len.toNat ++ s ++ b.data.drop (b.len.toNat + s.length)
    len := b.len + s.length }, ?_, ⟨?_, ?_, hfits, h.power⟩, rfl, ?_⟩
  · rw [append, memcpy, if_pos ⟨hnonneg, by omega⟩, Fate.bind, hsum]
  · simp only [List.length_append, List.length_take, List.length_drop]
    omega
  · dsimp only
    omega
  · have hlen : (b.len + s.length).toNat = (b.data.take b.len.toNat ++ s).length := by
      rw [List.length_append, List.length_take]
      omega
    rw [Buf.contents, hlen, List.take_left]
    rfl

/-! ### Pushes -/

def Push.bytes : Push → Bytes
  | .str s => s
  | .byte n => [UInt8.ofNat n.toNat]

/-- What a push may do: fail and change nothing, or append and answer the length. -/
def Answered (b b' : Buf) (x : Push) (r : Except String Int) : Prop :=
  (∃ e, r = .error e ∧ b'.contents = b.contents) ∨
    (r = .ok (b.contents ++ x.bytes).length ∧ b'.contents = b.contents ++ x.bytes)

theorem liftInt_nonneg {n : Int} (h : 0 ≤ n) : liftInt n = .ok n := by
  rw [liftInt, if_neg (by omega), if_neg (by omega)]

/-- Both kinds of push, once the bytes are known. -/
theorem rawPush_spec (h : Sized b) (x : Push) (m : Memory) (hr : 26 < rounds)
    (hneed : b.len + x.bytes.length ≤ 2 ^ 30) :
    ∃ b' r, rawPush rounds m b x.bytes.length x.bytes = .done (b', r) ∧
      Sized b' ∧ b'.len ≤ b.len + x.bytes.length ∧ Answered b b' x (liftInt r) := by
  have hnonneg := h.nonneg
  unfold rawPush
  rcases bufEnsure_spec (m := m) h (Int.natCast_nonneg _) hneed hr with
    ⟨hnone, -⟩ | ⟨b₁, hsome, hs, hl, hc, hfits⟩
  · rw [hnone]
    exact ⟨b, -1, rfl, h, by omega, .inl ⟨"closed", rfl, rfl⟩⟩
  · obtain ⟨b₂, happend, hs₂, hl₂, hc₂⟩ := append_spec hs (s := x.bytes) (by omega)
    rw [hsome]
    refine ⟨b₂, _, happend, hs₂, by omega, .inr ⟨?_, by rw [hc₂, hc]⟩⟩
    rw [liftInt_nonneg (by omega), List.length_append, Int.natCast_add, h.length_contents, hl]

/-- **One push.** -/
theorem push_spec (h : Sized b) (x : Push) (m : Memory) (hr : 26 < rounds)
    (hneed : b.len + x.bytes.length ≤ 2 ^ 30) :
    ∃ b' r, push rounds m b x = .done (b', r) ∧ Sized b' ∧ b'.len ≤ b.len + x.bytes.length ∧
      Answered b b' x r := by
  obtain ⟨b', r, hpush, hs, hl, ha⟩ := rawPush_spec h x m hr hneed
  have hnonneg := h.nonneg
  cases x with
  | str s =>
      simp only [Push.bytes] at hpush hneed
      have hsize : int32 s.length = s.length := int32_of_range (by omega) (by omega)
      refine ⟨b', liftInt r, ?_, hs, hl, ha⟩
      rw [push, rawPushStr, hsize, hpush]
      rfl
  | byte n =>
      by_cases hn : n < 0 ∨ n > 255
      · exact ⟨b, .error "range", if_pos hn, h, by omega, .inl ⟨_, rfl, rfl⟩⟩
      · refine ⟨b', liftInt r, ?_, hs, hl, ha⟩
        simp only [Push.bytes, List.length_singleton, Int.natCast_one] at hpush
        rw [push, if_neg hn, rawPushByte, if_pos (by omega), hpush]
        rfl

/-- The answers to a sequence of pushes, and what is in the buffer after them: the
pieces that were not refused, one behind the other. -/
inductive Log : Bytes → List Push → List (Except String Int) → Bytes → Prop
  | nil (c : Bytes) : Log c [] [] c
  | refused {c c' : Bytes} {x : Push} {xs : List Push} {rs : List (Except String Int)}
      (e : String) : Log c xs rs c' → Log c (x :: xs) (.error e :: rs) c'
  | pushed {c c' : Bytes} {x : Push} {xs : List Push} {rs : List (Except String Int)} :
      Log (c ++ x.bytes) xs rs c' → Log c (x :: xs) (.ok (c ++ x.bytes).length :: rs) c'

/-- The bytes of all pieces together. -/
def total (xs : List (Push × Memory)) : Nat := (xs.map fun x => x.1.bytes.length).sum

theorem pushes_spec (hr : 26 < rounds) (xs : List (Push × Memory)) (h : Sized b)
    (hsize : b.len + total xs ≤ 2 ^ 30) :
    ∃ b' rs, pushes rounds b xs = .done (b', rs) ∧ Sized b' ∧
      Log b.contents (xs.map Prod.fst) rs b'.contents := by
  induction xs generalizing b with
  | nil => exact ⟨b, [], rfl, h, .nil _⟩
  | cons x xs ih =>
      obtain ⟨x, m⟩ := x
      simp only [total, List.map_cons, List.sum_cons] at hsize
      obtain ⟨b₁, r, hpush, hs, hl, ha⟩ := push_spec h x m hr (by omega)
      obtain ⟨b₂, rs, hrest, hs₂, hlog⟩ := ih hs (by unfold total; omega)
      refine ⟨b₂, r :: rs, ?_, hs₂, ?_⟩
      · rw [pushes, hpush]
        simp only [Fate.bind, hrest]
      · rcases ha with ⟨e, rfl, hc⟩ | ⟨rfl, hc⟩
        · exact .refused e (hc ▸ hlog)
        · exact .pushed (hc ▸ hlog)

theorem slice_eq (h : Sized b) (start stop : Int) :
    slice b start stop = if 0 ≤ start ∧ start ≤ stop ∧ stop ≤ b.contents.length then
      .ok ((b.contents.drop start.toNat).take (stop - start).toNat) else .error "range" := by
  have hlen := h.length_contents
  rw [slice, liftInt_nonneg h.nonneg]
  dsimp only
  by_cases hin : 0 ≤ start ∧ start ≤ stop ∧ stop ≤ b.len
  · rw [if_neg (by omega), if_pos (by omega), rawSlice, if_pos (by omega)]
    dsimp only
    rw [Buf.contents, List.drop_take, List.take_take, Nat.min_eq_left (by omega)]
  · rw [if_pos (by omega), if_neg (by omega)]

/-- **A buffer holds what was pushed.**  For pieces of 2^30 bytes together, every
push ends, inside the block; it is refused and changes nothing, or it answers the
new length; and a slice of the buffer is a slice of what was pushed. -/
theorem pushes_concat (xs : List (Push × Memory)) (hsize : total xs ≤ 2 ^ 30) :
    ∀ rounds, 26 < rounds → ∃ b rs, pushes rounds empty xs = .done (b, rs) ∧
      (b.data.length : Int) = b.cap ∧ b.len ≤ b.cap ∧ (b.contents.length : Int) = b.len ∧
      Log [] (xs.map Prod.fst) rs b.contents ∧
      ∀ start stop, slice b start stop =
        if 0 ≤ start ∧ start ≤ stop ∧ stop ≤ b.contents.length then
          .ok ((b.contents.drop start.toNat).take (stop - start).toNat) else .error "range" := by
  intro rounds hr
  have hsize' : empty.len + total xs ≤ 2 ^ 30 := by
    rw [show empty.len = 0 from rfl]
    omega
  obtain ⟨b, rs, hpush, hs, hlog⟩ := pushes_spec hr xs sized_empty hsize'
  exact ⟨b, rs, hpush, hs.block, hs.fits, hs.length_contents, hlog, slice_eq hs⟩

/-- Memory without end, all zero. -/
def ample : Memory := ⟨fun _ => true, fun _ => 0⟩

theorem pushes_concat_greeting : ∃ b rs,
    pushes 27 empty [(.str [72, 105], ample), (.byte 33, ample)] = .done (b, rs) ∧
      slice b 1 3 = if 3 ≤ b.contents.length then .ok ((b.contents.drop 1).take 2)
        else .error "range" := by
  obtain ⟨b, rs, hpush, -, -, -, -, hslice⟩ :=
    pushes_concat [(.str [72, 105], ample), (.byte 33, ample)] (by decide) 27 (by decide)
  exact ⟨b, rs, hpush, by simpa using hslice 1 3⟩

/-! ### Past 2^30 -/

/-- Doubling from zero stays at zero. -/
theorem double_zero (hneed : 0 < need) (rounds : Nat) : double need rounds 0 = .looping := by
  induction rounds with
  | zero => rfl
  | succ n ih =>
      rw [double, if_pos hneed]
      exact ih

/-- A buffer of 2^30 bytes is full. -/
theorem push_to_limit (hs : (s.length : Int) = 2 ^ 30) :
    ∃ b, push 27 ample empty (.str s) = .done (b, .ok (2 ^ 30)) ∧ Sized b ∧ b.len = 2 ^ 30 ∧
      b.cap = 2 ^ 30 := by
  have hadd : int32 s.length = s.length := int32_of_range (by omega) (by omega)
  have hneed : empty.len + s.length ≤ 2 ^ 30 := by
    rw [show empty.len = 0 from rfl]
    omega
  rcases bufEnsure_spec (m := ample) sized_empty (Int.natCast_nonneg _) hneed (by decide : 26 < 27)
    with ⟨-, size, hsize⟩ | ⟨b₁, hensure, hb₁, hlen₁, -, hfits⟩
  · cases hsize
  · have hzero : b₁.len = 0 := hlen₁
    have hroom : b₁.len + s.length ≤ b₁.cap := by
      rw [hlen₁]
      exact hfits
    obtain ⟨b, happend, hb, hlen, -⟩ := append_spec hb₁ hroom
    refine ⟨b, ?_, hb, by omega, ?_⟩
    · rw [push, rawPushStr, hadd, rawPush, hensure, Fate.bind]
      dsimp only
      rw [happend, hzero, Int.zero_add, hs]
      rfl
    · have hfull := hb.fits
      rcases hb.power with h0 | ⟨j, -, hj, hcap⟩
      · omega
      · have hle := pow_le_limit hj
        omega

/-- **The 32 bits run out.**  In a buffer of 2^30 bytes the next byte is looked for
room for ever, and another 2^30 bytes are copied past the end of the block. -/
theorem push_past_limit : ∃ b, push 27 ample empty (.str (List.replicate (2 ^ 30) 0)) =
      .done (b, .ok (2 ^ 30)) ∧
    (∀ rounds, push rounds ample b (.byte 0) = .looping) ∧
    ∀ rounds, push rounds ample b (.str (List.replicate (2 ^ 30) 0)) = .fault := by
  have hs : ((List.replicate (2 ^ 30) (0 : UInt8)).length : Int) = 2 ^ 30 := by
    rw [List.length_replicate]
    rfl
  generalize List.replicate (2 ^ 30) (0 : UInt8) = s at hs
  obtain ⟨b, hpush, hb, hlen, hcap⟩ := push_to_limit hs
  refine ⟨b, hpush, fun rounds => ?_, fun rounds => ?_⟩
  · -- the sum is one more than the capacity, which doubles to -2^31 and then to zero
    have hloop : double (2 ^ 30 + 1) rounds (2 ^ 30) = .looping := by
      cases rounds with
      | zero => rfl
      | succ n =>
          cases n with
          | zero => rfl
          | succ n => exact double_zero (by decide) n
    have hsum : int32 (2 ^ 30 + 1) = 2 ^ 30 + 1 := int32_of_range (by decide) (by decide)
    rw [push, if_neg (by decide), rawPushByte, if_pos (by decide), rawPush, bufEnsure, hlen, hcap,
      hsum, if_neg (by decide), if_pos (by decide), hloop]
    rfl
  · -- the sum wraps to -2^31, so there seems to be room
    have hadd : int32 s.length = 2 ^ 30 := by
      rw [hs]
      exact int32_of_range (by decide) (by decide)
    have hblock := hb.block
    rw [push, rawPushStr, hadd, rawPush, bufEnsure, hlen, hcap, if_pos (by decide), Fate.bind]
    dsimp only
    rw [append, memcpy, if_neg (by omega)]
    rfl

end TinyActor.Stdlib.Buffer
