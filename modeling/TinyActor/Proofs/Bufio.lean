/-
A buffered reader hands out the stream it reads.

`UntilOutcome` and `ExactOutcome` say the few ways a read can go in terms of the bytes that
were buffered and the chunks that arrived during the call; no index is left in them.  With
them, what a sequence of calls took and what it left in the buffer are the chunks in order,
as long as no call fails after a chunk has already arrived in it: the reader the caller still
has then does not hold that chunk, and the one that holds it is not returned.
-/
import TinyActor.Stdlib.Bufio

namespace TinyActor.Stdlib

open Lib

/-! ### Chunks -/

@[simp] theorem chunks_append (s t : List Signal) : chunks (s ++ t) = chunks s ++ chunks t := by
  induction s with
  | nil => rfl
  | cons x s ih => cases x <;> simp [chunks, ih]

@[simp] theorem chunks_nil : chunks [] = [] := rfl

@[simp] theorem chunks_data (d : Bytes) (s : List Signal) :
    chunks (.data d :: s) = d ++ chunks s := rfl

@[simp] theorem chunks_notReady (s : List Signal) : chunks (.notReady :: s) = chunks s := rfl

@[simp] theorem chunks_eof (s : List Signal) : chunks (.eof :: s) = chunks s := rfl

variable {out : Result × List Signal} {src read rest s g : List Signal} {r : Reader}
  {delim acc : Bytes} {n : Nat}

namespace Bufio

/-! ### The ways a read can go -/

/-- Signals that came before the source said it had ended. -/
def Ended (src read rest : List Signal) : Prop :=
  src = read ∧ rest = [] ∨ src = read ++ .eof :: rest

/-- The ways `read_until` can go, from the buffer `acc` and the source `src`. -/
inductive UntilOutcome (delim acc : Bytes) (src : List Signal) : Result × List Signal → Prop
  | found {read rest : List Signal} {i : Nat} (hsrc : src = read ++ rest)
      (hocc : firstOcc delim (acc ++ chunks read) = some i) :
      UntilOutcome delim acc src (.ok ⟨some ((acc ++ chunks read).take i),
        ⟨(acc ++ chunks read).drop (i + delim.length)⟩⟩, rest)
  | ended {read rest : List Signal} (hsrc : Ended src read rest)
      (hocc : firstOcc delim (acc ++ chunks read) = none) :
      UntilOutcome delim acc src (.ok ⟨eofData (acc ++ chunks read), ⟨[]⟩⟩, rest)
  | failed {read rest : List Signal} {e : Int} (hsrc : src = read ++ .error e :: rest) :
      UntilOutcome delim acc src (.ioErr e, rest)

/-- The ways `read_exact` can go for a positive count. -/
inductive ExactOutcome (n : Nat) (acc : Bytes) (src : List Signal) : Result × List Signal → Prop
  | full {read rest : List Signal} (hsrc : src = read ++ rest)
      (hlen : n ≤ (acc ++ chunks read).length) :
      ExactOutcome n acc src
        (.ok ⟨some ((acc ++ chunks read).take n), ⟨(acc ++ chunks read).drop n⟩⟩, rest)
  | ended {read rest : List Signal} (hsrc : Ended src read rest)
      (hlen : (acc ++ chunks read).length < n) :
      ExactOutcome n acc src (.ok ⟨none, ⟨acc ++ chunks read⟩⟩, rest)
  | failed {read rest : List Signal} {e : Int} (hsrc : src = read ++ .error e :: rest) :
      ExactOutcome n acc src (.ioErr e, rest)

theorem Ended.cons {s : Signal} (h : Ended src read rest) : Ended (s :: src) (s :: read) rest := by
  rcases h with ⟨rfl, rfl⟩ | rfl
  · exact Or.inl ⟨rfl, rfl⟩
  · exact Or.inr rfl

/-- A signal before those that the read sees. -/
theorem UntilOutcome.cons {x : Signal} (h : UntilOutcome delim (acc ++ chunks [x]) src out) :
    UntilOutcome delim acc (x :: src) out := by
  cases h with
  | found hsrc hocc =>
      rw [List.append_assoc, ← chunks_append] at hocc ⊢
      exact found (congrArg (x :: ·) hsrc) hocc
  | ended hsrc hocc =>
      rw [List.append_assoc, ← chunks_append] at hocc ⊢
      exact ended hsrc.cons hocc
  | failed hsrc => exact @failed _ _ _ (x :: _) _ _ (congrArg (x :: ·) hsrc)

theorem ExactOutcome.cons {x : Signal} (h : ExactOutcome n (acc ++ chunks [x]) src out) :
    ExactOutcome n acc (x :: src) out := by
  cases h with
  | full hsrc hlen =>
      rw [List.append_assoc, ← chunks_append] at hlen ⊢
      exact full (congrArg (x :: ·) hsrc) hlen
  | ended hsrc hlen =>
      rw [List.append_assoc, ← chunks_append] at hlen ⊢
      exact ended hsrc.cons hlen
  | failed hsrc => exact @failed _ _ _ (x :: _) _ _ (congrArg (x :: ·) hsrc)

theorem UntilOutcome.atOnce {i : Nat} (h : firstOcc delim acc = some i) :
    UntilOutcome delim acc src
      (.ok ⟨some (acc.take i), ⟨acc.drop (i + delim.length)⟩⟩, src) := by
  simpa using @found delim acc src [] src i rfl (by simpa using h)

theorem UntilOutcome.endsAtOnce (hsrc : Ended src [] rest) (h : firstOcc delim acc = none) :
    UntilOutcome delim acc src (.ok ⟨eofData acc, ⟨[]⟩⟩, rest) := by
  simpa using @ended delim acc src [] rest hsrc (by simpa using h)

theorem ExactOutcome.atOnce (h : n ≤ acc.length) :
    ExactOutcome n acc src (.ok ⟨some (acc.take n), ⟨acc.drop n⟩⟩, src) := by
  simpa using @full n acc src [] src rfl (by simpa using h)

theorem ExactOutcome.endsAtOnce (hsrc : Ended src [] rest) (h : acc.length < n) :
    ExactOutcome n acc src (.ok ⟨none, ⟨acc⟩⟩, rest) := by
  simpa using @ended n acc src [] rest hsrc (by simpa using h)

/-! ### The reads -/

/-- The delimiter is in the buffer already. -/
theorem readUntil_hit {i : Nat} (h : firstOcc delim r.acc = some i) (src : List Signal) :
    readUntil delim r src =
      (.ok ⟨some (r.acc.take i), ⟨r.acc.drop (i + delim.length)⟩⟩, src) := by
  have hle := firstOcc_le h
  rw [readUntil.eq_def]
  simp only [Str.indexOf_of_some h, Str.length_eq]
  rw [if_pos (by omega), Str.substr_take _ rfl,
    Str.substr_drop r.acc hle (by omega) (by omega)]

/-- The delimiter is not in the buffer, so the source is asked. -/
theorem readUntil_miss (h : firstOcc delim r.acc = none) (src : List Signal) :
    readUntil delim r src =
      match src with
      | [] => (.ok ⟨eofData r.acc, ⟨[]⟩⟩, [])
      | .notReady :: src => readUntil delim r src
      | .eof :: src => (.ok ⟨eofData r.acc, ⟨[]⟩⟩, src)
      | .error e :: src => (.ioErr e, src)
      | .data d :: src => readUntil delim ⟨r.acc ++ d⟩ src := by
  rw [readUntil.eq_def]
  simp only [Str.indexOf_of_none h]
  rw [if_neg (by omega)]
  rfl

/-- **What `read_until` does.** -/
theorem readUntil_outcome (delim : Bytes) (r : Reader) (src : List Signal) :
    UntilOutcome delim r.acc src (readUntil delim r src) := by
  induction src generalizing r with
  | nil =>
      cases hocc : firstOcc delim r.acc with
      | some i =>
          rw [readUntil_hit hocc]
          exact .atOnce hocc
      | none =>
          rw [readUntil_miss hocc]
          exact .endsAtOnce (Or.inl ⟨rfl, rfl⟩) hocc
  | cons s src ih =>
      cases hocc : firstOcc delim r.acc with
      | some i =>
          rw [readUntil_hit hocc]
          exact .atOnce hocc
      | none =>
          rw [readUntil_miss hocc]
          cases s with
          | notReady => exact .cons (by simpa using ih r)
          | data d => exact .cons (by simpa using ih ⟨r.acc ++ d⟩)
          | eof => exact .endsAtOnce (Or.inr rfl) hocc
          | error e => exact @UntilOutcome.failed _ _ _ [] _ _ rfl

theorem readExact_hit (hn : 0 < n) (h : n ≤ r.acc.length) (src : List Signal) :
    readExact n r src = (.ok ⟨some (r.acc.take n), ⟨r.acc.drop n⟩⟩, src) := by
  rw [readExact.eq_def, Str.length_eq, if_neg (by omega), if_pos (by omega),
    Str.substr_take _ rfl, Str.substr_drop r.acc h rfl rfl]

theorem readExact_miss (h : r.acc.length < n) (src : List Signal) :
    readExact n r src =
      match src with
      | [] => (.ok ⟨none, r⟩, [])
      | .notReady :: src => readExact n r src
      | .eof :: src => (.ok ⟨none, r⟩, src)
      | .error e :: src => (.ioErr e, src)
      | .data d :: src => readExact n ⟨r.acc ++ d⟩ src := by
  rw [readExact.eq_def, Str.length_eq, if_neg (by omega), if_neg (by omega)]
  rfl

theorem readExact_none {n : Int} (hn : n ≤ 0) (r : Reader) (src : List Signal) :
    readExact n r src = (.ok ⟨some [], r⟩, src) := by
  rw [readExact.eq_def, if_pos hn]

/-- **What `read_exact` does for a positive count.** -/
theorem readExact_outcome (hn : 0 < n) (r : Reader) (src : List Signal) :
    ExactOutcome n r.acc src (readExact n r src) := by
  induction src generalizing r with
  | nil =>
      by_cases hlen : n ≤ r.acc.length
      · rw [readExact_hit hn hlen]
        exact .atOnce hlen
      · rw [readExact_miss (by omega)]
        exact .endsAtOnce (Or.inl ⟨rfl, rfl⟩) (by omega)
  | cons s src ih =>
      by_cases hlen : n ≤ r.acc.length
      · rw [readExact_hit hn hlen]
        exact .atOnce hlen
      · rw [readExact_miss (by omega)]
        cases s with
        | notReady => exact .cons (by simpa using ih r)
        | data d => exact .cons (by simpa using ih ⟨r.acc ++ d⟩)
        | eof => exact .endsAtOnce (Or.inr rfl) (by omega)
        | error e => exact @ExactOutcome.failed _ _ _ [] _ _ rfl

/-! ### Sources that only deliver -/

/-- Chunks and not-ready signals only. -/
def Clean (src : List Signal) : Prop :=
  ∀ s ∈ src, s = .notReady ∨ ∃ d, s = .data d

theorem Clean.nil : Clean [] := by
  intro s hs
  cases hs

theorem Clean.tail {x : Signal} (h : Clean (x :: s)) : Clean s :=
  fun y hy => h y (List.mem_cons_of_mem _ hy)

/-- Cases on a source that only delivers. -/
theorem Clean.head {x : Signal} (h : Clean (x :: s)) :
    x = .notReady ∨ ∃ d, x = .data d := h x (List.mem_cons_self ..)

/-- What is found in the chunks of `g` is found without looking behind them, and nothing of
them is lost. -/
theorem readUntil_clean {i : Nat} (hg : Clean g) (h : firstOcc delim (acc ++ chunks g) = some i)
    (later : List Signal) :
    ∃ g' rest, Clean g' ∧
      readUntil delim ⟨acc⟩ (g ++ later) =
        (.ok ⟨some ((acc ++ chunks g).take i), ⟨rest⟩⟩, g' ++ later) ∧
      rest ++ chunks g' = (acc ++ chunks g).drop (i + delim.length) := by
  induction g generalizing acc with
  | nil =>
      rw [chunks_nil, List.append_nil] at h ⊢
      exact ⟨[], _, Clean.nil, readUntil_hit h later, List.append_nil _⟩
  | cons s g ih =>
      cases hacc : firstOcc delim acc with
      | some j =>
          obtain rfl : j = i := by
            have := firstOcc_append hacc (chunks (s :: g))
            rw [h] at this
            exact (Option.some.inj this).symm
          have hle := firstOcc_le hacc
          refine ⟨s :: g, acc.drop (j + delim.length), hg, ?_, ?_⟩
          · rw [List.take_append_of_le_length (by omega)]
            exact readUntil_hit hacc (s :: g ++ later)
          · rw [List.drop_append_of_le_length hle]
      | none =>
          rw [List.cons_append, readUntil_miss hacc]
          rcases hg.head with rfl | ⟨d, rfl⟩
          · exact ih hg.tail h
          · rw [chunks_data, ← List.append_assoc] at h ⊢
            exact ih hg.tail h

/-- Where there is no delimiter, everything is read and is the residue. -/
theorem readUntil_clean_end (hg : Clean g) (h : firstOcc delim (acc ++ chunks g) = none) :
    readUntil delim ⟨acc⟩ g = (.ok ⟨eofData (acc ++ chunks g), ⟨[]⟩⟩, []) := by
  induction g generalizing acc with
  | nil =>
      rw [chunks_nil, List.append_nil] at h ⊢
      exact readUntil_miss h []
  | cons s g ih =>
      have hacc : firstOcc delim acc = none := by
        rw [firstOcc_eq_none] at h ⊢
        exact fun hin => h (hin.trans (List.prefix_append _ _).isInfix)
      rw [readUntil_miss hacc]
      rcases hg.head with rfl | ⟨d, rfl⟩
      · exact ih hg.tail h
      · rw [chunks_data, ← List.append_assoc] at h ⊢
        exact ih hg.tail h

theorem readExact_clean (hg : Clean g) (h : n ≤ (acc ++ chunks g).length) (later : List Signal) :
    ∃ g' rest, Clean g' ∧
      readExact n ⟨acc⟩ (g ++ later) =
        (.ok ⟨some ((acc ++ chunks g).take n), ⟨rest⟩⟩, g' ++ later) ∧
      rest ++ chunks g' = (acc ++ chunks g).drop n := by
  rcases Nat.eq_zero_or_pos n with rfl | hn
  · exact ⟨g, acc, hg, readExact_none (by omega) _ _, rfl⟩
  · induction g generalizing acc with
    | nil =>
        rw [chunks_nil, List.append_nil] at h ⊢
        exact ⟨[], _, Clean.nil, readExact_hit hn h later, List.append_nil _⟩
    | cons s g ih =>
        by_cases hlen : n ≤ acc.length
        · refine ⟨s :: g, acc.drop n, hg, ?_, ?_⟩
          · rw [List.take_append_of_le_length hlen]
            exact readExact_hit hn hlen (s :: g ++ later)
          · rw [List.drop_append_of_le_length hlen]
        · rw [List.cons_append, readExact_miss (Nat.lt_of_not_le hlen)]
          rcases hg.head with rfl | ⟨d, rfl⟩
          · exact ih hg.tail h
          · rw [chunks_data, ← List.append_assoc] at h ⊢
            exact ih hg.tail h

theorem readExact_clean_short (hg : Clean g) (h : (acc ++ chunks g).length < n) :
    readExact n ⟨acc⟩ g = (.ok ⟨none, ⟨acc ++ chunks g⟩⟩, []) := by
  induction g generalizing acc with
  | nil =>
      rw [chunks_nil, List.append_nil] at h ⊢
      exact readExact_miss h []
  | cons s g ih =>
      have hacc : acc.length < n := by
        rw [List.length_append] at h
        omega
      rw [readExact_miss hacc]
      rcases hg.head with rfl | ⟨d, rfl⟩
      · exact ih hg.tail h
      · rw [chunks_data, ← List.append_assoc] at h ⊢
        exact ih hg.tail h

/-! ### What a call takes -/

theorem eofData_getD (acc : Bytes) : (eofData acc).getD [] = acc := by
  cases acc with
  | nil => rfl
  | cons c acc =>
      have : (0 : Int) < Str.length (c :: acc) := by rw [Str.length_eq, List.length_cons]; omega
      rw [eofData, if_pos this]
      rfl

/-- Where a source that ended was left. -/
theorem Ended.split (h : Ended src read rest) :
    ∃ took, src = took ++ rest ∧ chunks took = chunks read := by
  rcases h with ⟨rfl, rfl⟩ | rfl
  · exact ⟨src, (List.append_nil src).symm, rfl⟩
  · exact ⟨read ++ [.eof], by simp, by simp⟩

def isError : Signal → Bool
  | .error _ => true
  | _ => false

/-- A call that succeeds has taken away what the buffer and the chunks of the call have lost;
one that fails has taken nothing and met an error. -/
structure Balances (c : Call) (r : Reader) (read : List Signal) (result : Result) : Prop where
  balance : result.failed = false →
    r.acc ++ chunks read = Event.taken ⟨c, r, read, result⟩ ++ (result.reader r).acc
  nothing : result.failed = true → Event.taken ⟨c, r, read, result⟩ = []
  error : result.failed = true → ∃ s ∈ read, isError s = true

theorem Balances.ioErr (c : Call) (r : Reader) (read : List Signal) (e : Int) :
    Balances c r (read ++ [.error e]) (.ioErr e) := by
  refine ⟨nofun, fun _ => ?_, fun _ => ⟨.error e, by simp, rfl⟩⟩
  cases c <;> simp [Event.taken, Call.delim, Result.failed, Result.data]

theorem until_balances {c : Call} (hc : c.delim = some delim)
    (h : UntilOutcome delim r.acc src out) :
    ∃ read, src = read ++ out.2 ∧ Balances c r read out.1 := by
  cases h with
  | @found read rest i hsrc hocc =>
      refine ⟨read, hsrc, ?_, nofun, nofun⟩
      intro _
      have hin : delim <:+: r.acc ++ chunks read := by
        by_contra hno
        rw [firstOcc_eq_none.mpr hno] at hocc
        cases hocc
      rw [Event.taken]
      simp only [hc, hin, Result.failed, Result.data, Result.reader, true_and, if_true,
        Option.getD_some]
      exact firstOcc_split hocc
  | @ended read rest hsrc hocc =>
      obtain ⟨took, hsplit, hchunks⟩ := hsrc.split
      refine ⟨took, hsplit, ?_, nofun, nofun⟩
      intro _
      have hno : ¬ delim <:+: r.acc ++ chunks read := firstOcc_eq_none.mp hocc
      rw [Event.taken]
      simp only [hc, hchunks, hno, Result.data, Result.reader, false_and, if_false,
        eofData_getD, List.append_nil]
  | @failed read rest e hsrc =>
      exact ⟨read ++ [.error e], by simpa using hsrc, Balances.ioErr c r _ e⟩

theorem exact_balances {k : Int} (h : ExactOutcome n r.acc src out) :
    ∃ read, src = read ++ out.2 ∧ Balances (.exact k) r read out.1 := by
  cases h with
  | @full read rest hsrc hlen =>
      refine ⟨read, hsrc, ?_, nofun, nofun⟩
      intro _
      exact (List.take_append_drop n (r.acc ++ chunks read)).symm
  | @ended read rest hsrc hlen =>
      obtain ⟨took, hsplit, hchunks⟩ := hsrc.split
      refine ⟨took, hsplit, ?_, nofun, nofun⟩
      intro _
      rw [hchunks]
      rfl
  | @failed read rest e hsrc =>
      exact ⟨read ++ [.error e], by simpa using hsrc, Balances.ioErr _ r _ e⟩

theorem available_balances (r : Reader) (src : List Signal) :
    ∃ read, src = read ++ (readAvailable r src).2 ∧
      Balances .available r read (readAvailable r src).1 := by
  -- At the end of the source everything buffered is handed out.
  have hend : Balances .available r [] (.ok ⟨eofData r.acc, ⟨[]⟩⟩) := by
    refine ⟨fun _ => ?_, nofun, nofun⟩
    simp [Event.taken, Call.delim, Result.data, Result.reader, eofData_getD]
  induction src with
  | nil => exact ⟨[], rfl, hend⟩
  | cons s src ih =>
      cases s with
      | notReady =>
          rw [readAvailable]
          split
          · refine ⟨[.notReady], rfl, ?_, nofun, nofun⟩
            intro _
            simp [Event.taken, Call.delim, Result.data, Result.reader]
          · obtain ⟨read, hsrc, hbal⟩ := ih
            refine ⟨.notReady :: read, congrArg (_ :: ·) hsrc, hbal.balance, hbal.nothing, fun hfail => ?_⟩
            obtain ⟨s, hs, herr⟩ := hbal.error hfail
            exact ⟨s, List.mem_cons_of_mem _ hs, herr⟩
      | eof => exact ⟨[.eof], rfl, hend.balance, nofun, nofun⟩
      | error e => exact ⟨[.error e], rfl, Balances.ioErr _ r [] e⟩
      | data d =>
          refine ⟨[.data d], rfl, ?_, nofun, nofun⟩
          intro _
          simp [Event.taken, Call.delim, Result.data, Result.reader, readAvailable]

/-- **One call takes a stretch of the source and accounts for it.** -/
theorem call_balances (c : Call) (r : Reader) (src : List Signal) :
    ∃ read, src = read ++ (c.run r src).2 ∧ Balances c r read (c.run r src).1 := by
  cases c with
  | line => exact until_balances rfl (readUntil_outcome _ r src)
  | «until» delim => exact until_balances rfl (readUntil_outcome delim r src)
  | exact n =>
      by_cases hn : n ≤ 0
      · rw [Call.run, readExact_none hn]
        refine ⟨[], rfl, ?_, nofun, nofun⟩
        intro _
        simp [Event.taken, Call.delim, Result.data, Result.reader]
      · obtain ⟨m, rfl⟩ := Int.eq_ofNat_of_zero_le (by omega : 0 ≤ n)
        exact exact_balances (readExact_outcome (by omega) r src)
  | available => exact available_balances r src

/-! ### What a sequence of calls takes -/

/-- No chunk came in a call that met an error. -/
def Event.EmptyHanded (e : Event) : Prop := (∃ s ∈ e.read, isError s = true) → chunks e.read = []

instance (e : Event) : Decidable e.EmptyHanded :=
  inferInstanceAs (Decidable ((∃ s ∈ e.read, isError s = true) → chunks e.read = []))

/-- The first event of a session, with the signals it took written out. -/
theorem session_cons {c : Call} {cs : List Call} (h : src = read ++ (c.run r src).2) :
    session (c :: cs) r src =
      (⟨c, r, read, (c.run r src).1⟩ ::
          (session cs ((c.run r src).1.reader r) (c.run r src).2).1,
        (session cs ((c.run r src).1.reader r) (c.run r src).2).2) := by
  have hread : src.take (src.length - (c.run r src).2.length) = read := by
    generalize (c.run r src).2 = rest at h
    subst h
    simp
  rw [session, hread]

theorem session_balances (calls : List Call) (r : Reader) (src : List Signal)
    (h : ∀ e ∈ (session calls r src).1, e.EmptyHanded) :
    src = (session calls r src).1.flatMap Event.read ++ (session calls r src).2.2 ∧
      r.acc ++ chunks ((session calls r src).1.flatMap Event.read) =
        (session calls r src).1.flatMap Event.taken ++ (session calls r src).2.1.acc := by
  induction calls generalizing r src with
  | nil => exact ⟨rfl, by simp [session]⟩
  | cons c cs ih =>
      obtain ⟨read, hsrc, hbal⟩ := call_balances c r src
      rw [session_cons hsrc] at h ⊢
      obtain ⟨hrest, hsum⟩ := ih _ _ (fun e he => h e (List.mem_cons_of_mem _ he))
      have hone := h _ (List.mem_cons_self ..)
      refine ⟨?_, ?_⟩
      · rw [List.flatMap_cons, List.append_assoc, ← hrest]
        exact hsrc
      · rw [List.flatMap_cons, List.flatMap_cons, chunks_append, List.append_assoc, ← hsum]
        cases hfail : (c.run r src).1.failed with
        | false => rw [← List.append_assoc, hbal.balance hfail, List.append_assoc]
        | true =>
            -- A failed call leaves the reader it was made with.
            have hsame : (c.run r src).1.reader r = r := by
              cases hres : (c.run r src).1 with
              | ok s => rw [hres] at hfail; cases hfail
              | ioErr e => rfl
            rw [hbal.nothing hfail, hone (hbal.error hfail), hsame]
            rfl

/--
**No byte is lost, duplicated or reordered.**

For every source and every sequence of calls, each with the reader the one before returned or
after an error with the same one again: what the calls returned, with the delimiters they
consumed, followed by what is still buffered, is the concatenation of the chunks, provided
that no chunk came in a call that met an error.
-/
theorem session_accounts_for_stream (calls : List Call) (src : List Signal)
    (h : ∀ e ∈ (session calls readerNew src).1, e.EmptyHanded) :
    src = (session calls readerNew src).1.flatMap Event.read ++
        (session calls readerNew src).2.2 ∧
      chunks ((session calls readerNew src).1.flatMap Event.read) =
        (session calls readerNew src).1.flatMap Event.taken ++
          (session calls readerNew src).2.1.acc :=
  session_balances calls readerNew src h

/-- An error before any chunk, a line that spans two chunks, and the rest. -/
theorem session_accounts_for_stream_retry :
    chunks ((session [.line, .line, .available] readerNew
        [.error 11, .data (ascii "ab"), .data (ascii "c\nd"), .eof]).1.flatMap Event.read) =
      (session [.line, .line, .available] readerNew
        [.error 11, .data (ascii "ab"), .data (ascii "c\nd"), .eof]).1.flatMap Event.taken ++ [] :=
  (session_accounts_for_stream [.line, .line, .available]
    [.error 11, .data (ascii "ab"), .data (ascii "c\nd"), .eof] (by decide)).2

/-- A chunk that arrives in the same call before an error is lost: the line `abc` is read as
`c`. -/
theorem chunk_lost_at_error :
    (session [.line, .line] readerNew
        [.data (ascii "ab"), .error 11, .data (ascii "c\n")]).1.map Event.result =
      [.ioErr 11, .ok ⟨some (ascii "c"), ⟨[]⟩⟩] ∧
    chunks ((session [.line, .line] readerNew
        [.data (ascii "ab"), .error 11, .data (ascii "c\n")]).1.flatMap Event.read) ≠
      (session [.line, .line] readerNew
          [.data (ascii "ab"), .error 11, .data (ascii "c\n")]).1.flatMap Event.taken ++
        (session [.line, .line] readerNew
          [.data (ascii "ab"), .error 11, .data (ascii "c\n")]).2.1.acc := by
  decide

end Bufio

end TinyActor.Stdlib
