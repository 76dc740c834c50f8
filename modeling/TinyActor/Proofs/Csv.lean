/-
What is written is parsed back.

A field is written as it is or between quotes, a row as its fields with commas between, a table
as its rows with an end of line between.  Each of them is parsed back from its text whatever
follows, as long as what follows cannot belong to it.  Two things stand in the way for a whole
table: a field is put between quotes only for a comma, a quote or an end-of-line byte, and the
parser takes no other control byte outside of quotes; and a last row of one empty field has no
bytes, so the end of line before it is taken for the one that may end the last record.  Where
one of them does, the text is refused or comes back without its last row.
-/
import TinyActor.Proofs.Mpc
import TinyActor.Stdlib.Csv

namespace TinyActor.Stdlib.Csv

open Mpc

/-! ### The text of a table -/

def quotedBody (f : Bytes) : Bytes := f.flatMap fun c => if c = 34 then [34, 34] else [c]

def fieldText (f : Bytes) : Bytes := if needsQuote f then 34 :: (quotedBody f ++ [34]) else f

def rowText : List Bytes → Bytes
  | [] => []
  | f :: fs => fieldText f ++ fs.flatMap fun g => 44 :: fieldText g

def tableText : List (List Bytes) → Bytes
  | [] => []
  | r :: rs => rowText r ++ rs.flatMap fun q => 13 :: 10 :: rowText q

theorem writeQuotedBody_eq (b f : Bytes) : writeQuotedBody b f = b ++ quotedBody f := by
  have hquote : ascii "\"\"" = [34, 34] := by decide
  induction f generalizing b with
  | nil => simp [writeQuotedBody, quotedBody]
  | cons c f ih =>
      rw [writeQuotedBody]
      by_cases hc : c = 34
      · rw [if_pos hc, ih, hquote]
        simp [quotedBody, hc]
      · rw [if_neg hc, ih]
        simp [quotedBody, hc]

theorem writeField_eq (b f : Bytes) : writeField b f = b ++ fieldText f := by
  have hquote : ascii "\"" = [34] := by decide
  rw [writeField, fieldText]
  by_cases h : needsQuote f = true
  · rw [if_pos h, if_pos h, writeQuotedBody_eq, hquote]
    simp
  · rw [if_neg h, if_neg h]

theorem writeRow_eq (b : Bytes) (r : List Bytes) : writeRow b r = b ++ rowText r := by
  have hcomma : ascii "," = [44] := by decide
  induction r generalizing b with
  | nil => simp [writeRow, rowText]
  | cons f r ih =>
      cases r with
      | nil => rw [writeRow, writeField_eq]; simp [rowText]
      | cons g r =>
          rw [writeRow, ih, writeField_eq, hcomma]
          · simp [rowText]
          · simp

theorem writeRows_eq (b : Bytes) (rows : List (List Bytes)) :
    writeRows b rows = b ++ tableText rows := by
  have hline : ascii "\r\n" = [13, 10] := by decide
  induction rows generalizing b with
  | nil => simp [writeRows, tableText]
  | cons r rows ih =>
      cases rows with
      | nil => rw [writeRows, writeRow_eq]; simp [tableText]
      | cons q rows =>
          rw [writeRows, ih, writeRow_eq, hline]
          · simp [tableText]
          · simp

theorem write_eq (rows : List (List Bytes)) : write rows = tableText rows := writeRows_eq [] rows

/-! ### Fields -/

/-- A field the parser takes back: between quotes, or without a control byte. -/
def Survives (f : Bytes) : Prop := needsQuote f = true ∨ ∀ c ∈ f, 32 ≤ c

/-- What can follow a field: nothing, a comma or an end of line. -/
def EndsField (rest : Bytes) : Prop := ∀ c ∈ rest.head?, c = 44 ∨ c = 13 ∨ c = 10

variable {s rest : Bytes} {i : Nat}

theorem qchar_cons {c : UInt8} (h : At s i (c :: rest)) (hc : c ≠ 34) :
    qchar s i = .ok [c] (i + 1) := by
  have hno : ¬ ascii "\"\"" <+: c :: rest := by
    intro hp
    exact hc (List.cons_prefix_cons.mp hp).1.symm
  have hne : ((c.toNat : Int) != 34) = true := by
    refine bne_iff_ne.mpr fun h34 => hc (UInt8.toNat_inj.mp ?_)
    show c.toNat = 34
    omega
  have hchr : Str.chr (c.toNat : Int) = [c] := by
    have := c.toNat_lt
    rw [Str.chr, if_neg (by simp; omega)]
    simp
  rw [qchar, choice, pmap, lit_fail h hno]
  simp only [errAt, pmap, satisfy, satisfyL_cons h, hne, if_true, hchr]

theorem qchar_quotes (h : At s i (34 :: 34 :: rest)) : qchar s i = .ok [34] (i + 2) := by
  have hlit := lit_ok (show At s i (ascii "\"\"" ++ rest) from h)
  rw [qchar, choice, pmap, hlit]
  rfl

theorem qchar_end (h : At s i (34 :: rest)) (hrest : EndsField rest) :
    ∃ e, qchar s i = .fail e := by
  have hno : ¬ ascii "\"\"" <+: 34 :: rest := by
    intro hp
    have hp := (List.cons_prefix_cons.mp hp).2
    cases rest with
    | nil => simp at hp
    | cons c rest =>
        have hc := (List.cons_prefix_cons.mp hp).1
        have := hrest c rfl
        rw [← hc] at this
        exact absurd this (by decide)
  have hsat : ∃ e, pmap Str.chr (satisfy fun c => c != 34) s i = .fail e := by
    rw [pmap, satisfy, satisfyL_cons h]
    exact ⟨_, rfl⟩
  obtain ⟨e, he⟩ := hsat
  rw [qchar, choice, pmap, lit_fail h hno]
  simp only [errAt, he]
  exact ⟨_, rfl⟩

variable {rows : List (List Bytes)} {r : List Bytes} {f : Bytes}

/-- The characters of a quoted field, up to the quote that closes it. -/
theorem qchars_repeat (h : At s i (quotedBody f ++ 34 :: rest)) (hrest : EndsField rest) :
    Repeats qchar s i (f.map ([·])) (i + (quotedBody f).length) := by
  induction f generalizing i with
  | nil =>
      obtain ⟨e, he⟩ := qchar_end h hrest
      exact .stop he
  | cons c f ih =>
      by_cases hc : c = 34
      · subst hc
        have hbody : quotedBody (34 :: f) = 34 :: 34 :: quotedBody f := rfl
        rw [hbody] at h ⊢
        have hih := ih (i := i + 2) (At.advance (m := [34, 34]) h)
        rw [List.length_cons, List.length_cons,
          show i + ((quotedBody f).length + 1 + 1) = i + 2 + (quotedBody f).length by omega]
        exact .step (qchar_quotes h) (by omega) hih
      · have hbody : quotedBody (c :: f) = c :: quotedBody f := by simp [quotedBody, hc]
        rw [hbody] at h ⊢
        have hih := ih (At.next h)
        rw [List.length_cons,
          show i + ((quotedBody f).length + 1) = i + 1 + (quotedBody f).length by omega]
        exact .step (qchar_cons h hc) (by omega) hih

theorem join_singletons (f acc : Bytes) : join (f.map ([·])) acc = acc ++ f := by
  induction f generalizing acc with
  | nil => simp [join]
  | cons c f ih => simp [join, ih]

theorem length_le_quotedBody (f : Bytes) : f.length ≤ (quotedBody f).length := by
  induction f with
  | nil => exact Nat.le_refl 0
  | cons c f ih =>
      by_cases hc : c = 34
      · subst hc
        have hbody : quotedBody (34 :: f) = 34 :: 34 :: quotedBody f := rfl
        rw [hbody]
        simp only [List.length_cons]
        omega
      · have hbody : quotedBody (c :: f) = c :: quotedBody f := by simp [quotedBody, hc]
        rw [hbody]
        simp only [List.length_cons]
        omega

theorem quotedField_eq (h : At s i (34 :: (quotedBody f ++ [34]) ++ rest))
    (hrest : EndsField rest) : quotedField s i = .ok f (i + (quotedBody f).length + 2) := by
  have hquote : ascii "\"" = [34] := by decide
  rw [List.cons_append, List.append_assoc] at h
  have hbody := At.next h
  have hlen := h.length
  have hle := length_le_quotedBody f
  have hopen : lit (ascii "\"") s i = .ok (ascii "\"") (i + 1) :=
    lit_ok (show At s i (ascii "\"" ++ (quotedBody f ++ 34 :: rest)) from h)
  have hchars := star_of_repeats (qchars_repeat hbody hrest) (by
    simp only [List.length_map, List.length_cons, List.length_append] at hlen ⊢
    omega)
  have hclose : lit (ascii "\"") s (i + 1 + (quotedBody f).length) =
      .ok (ascii "\"") (i + 1 + (quotedBody f).length + 1) :=
    lit_ok (show At s _ (ascii "\"" ++ rest) from hbody.advance)
  simp only [quotedField, Mpc.bind, hopen, hchars, hclose, ret, join_singletons, List.nil_append]
  refine congrArg _ ?_
  omega

theorem mem_of_not_needsQuote (h : ¬ needsQuote f = true) :
    ∀ c ∈ f, c ≠ 44 ∧ c ≠ 34 ∧ c ≠ 13 ∧ c ≠ 10 := by
  induction f with
  | nil => simp
  | cons x f ih =>
      rw [needsQuote] at h
      by_cases hx : (x = 44 || (x = 34 || (x = 13 || x = 10))) = true
      · rw [if_pos hx] at h
        exact absurd rfl h
      · rw [if_neg hx] at h
        intro c hc
        rcases List.mem_cons.mp hc with rfl | hc
        · simpa using hx
        · exact ih h c hc

theorem isFieldChar_eq (c : UInt8) :
    isFieldChar (c.toNat : Int) = true ↔ c ≠ 44 ∧ c ≠ 34 ∧ c ≠ 13 ∧ c ≠ 10 ∧ 32 ≤ c := by
  have hne : ∀ k : UInt8, ((c.toNat : Int) ≠ (k.toNat : Int)) ↔ c ≠ k := by
    intro k
    rw [Ne, Ne, ← UInt8.toNat_inj]
    omega
  have hle : 32 ≤ c ↔ (32 : Int) ≤ (c.toNat : Int) := by
    rw [UInt8.le_iff_toNat_le, show (32 : UInt8).toNat = 32 from rfl]
    omega
  rw [← hne 44, ← hne 34, ← hne 13, ← hne 10, hle]
  simp only [isFieldChar, Bool.and_eq_true, bne_iff_ne, ge_iff_le, decide_eq_true_eq]
  exact Iff.rfl

theorem charAt_ne_quote {c : UInt8} (hc : c ≠ 34) (h : At s i (c :: rest)) :
    ¬ Str.charAt s i = 34 := by
  rw [At.charAt h]
  intro h34
  exact hc (UInt8.toNat_inj.mp (show c.toNat = 34 by omega))

/-- **A field is parsed back from its text.** -/
theorem field_eq (hf : Survives f) (h : At s i (fieldText f ++ rest)) (hrest : EndsField rest) :
    field s i = .ok f (i + (fieldText f).length) := by
  by_cases hq : needsQuote f = true
  · have htext : fieldText f = 34 :: (quotedBody f ++ [34]) := by rw [fieldText, if_pos hq]
    rw [htext] at h ⊢
    have hfirst : Str.charAt s i = 34 := At.charAt h
    rw [field, if_pos hfirst, quotedField_eq h hrest]
    simp only [List.length_cons, List.length_append, List.length_nil]
    refine congrArg _ ?_
    omega
  · have htext : fieldText f = f := by rw [fieldText, if_neg hq]
    rw [htext] at h ⊢
    have hno := mem_of_not_needsQuote hq
    have hfirst : ¬ Str.charAt s i = 34 := by
      cases f with
      | nil =>
          cases rest with
          | nil => rw [At.charAt_end h]; omega
          | cons c rest =>
              rw [At.charAt h]
              rcases hrest c rfl with rfl | rfl | rfl <;> decide
      | cons c f => exact charAt_ne_quote (hno c (List.mem_cons_self ..)).2.1 h
    have hlow := hf.resolve_left hq
    rw [field, if_neg hfirst]
    refine takeWhile_eq h ?_ ?_
    · intro c hc
      obtain ⟨h1, h2, h3, h4⟩ := hno c hc
      exact (isFieldChar_eq c).mpr ⟨h1, h2, h3, h4, hlow c hc⟩
    · intro c hc
      rcases hrest c hc with rfl | rfl | rfl <;> decide

/-! ### Rows -/

/-- What can follow a row: nothing or an end of line. -/
def EndsRow (rest : Bytes) : Prop := rest = [] ∨ ∃ r, rest = 13 :: 10 :: r

theorem EndsRow.endsField (h : EndsRow rest) : EndsField rest := by
  rcases h with rfl | ⟨r, rfl⟩
  · intro c hc
    cases hc
  · intro c hc
    obtain rfl : 13 = c := Option.some.inj hc
    exact Or.inr (Or.inl rfl)

theorem commaField_eq (hf : Survives f) (h : At s i (44 :: (fieldText f ++ rest)))
    (hrest : EndsField rest) : commaField s i = .ok f (i + (fieldText f).length + 1) := by
  have hcomma : lit (ascii ",") s i = .ok (ascii ",") (i + 1) :=
    lit_ok (show At s i (ascii "," ++ (fieldText f ++ rest)) from h)
  simp only [commaField, Mpc.bind, hcomma, field_eq hf (At.next h) hrest, ret]
  refine congrArg _ ?_
  omega

theorem commaField_end (h : At s i rest) (hrest : EndsRow rest) :
    ∃ e, commaField s i = .fail e := by
  have hno : ¬ ascii "," <+: rest := by
    rcases hrest with rfl | ⟨r, rfl⟩
    · simp [ascii]
    · intro hp
      exact absurd (List.cons_prefix_cons.mp hp).1 (by decide)
  simp only [commaField, Mpc.bind, lit_fail h hno, errAt]
  exact ⟨_, rfl⟩

theorem commaFields_repeat {fs : List Bytes} (hfs : ∀ f ∈ fs, Survives f)
    (h : At s i ((fs.flatMap fun g => 44 :: fieldText g) ++ rest)) (hrest : EndsRow rest) :
    Repeats commaField s i fs (i + (fs.flatMap fun g => 44 :: fieldText g).length) := by
  induction fs generalizing i with
  | nil =>
      obtain ⟨e, he⟩ := commaField_end h hrest
      exact .stop he
  | cons f fs ih =>
      rw [List.flatMap_cons, List.cons_append, List.cons_append, List.append_assoc] at h
      have hends : EndsField ((fs.flatMap fun g => 44 :: fieldText g) ++ rest) := by
        cases fs with
        | nil => exact hrest.endsField
        | cons g fs =>
            intro c hc
            obtain rfl : 44 = c := Option.some.inj hc
            exact Or.inl rfl
      have hone := commaField_eq (hfs f (List.mem_cons_self ..)) h hends
      have hih := ih (fun g hg => hfs g (List.mem_cons_of_mem _ hg)) (At.next h).advance
      have hlen : i + ((f :: fs).flatMap fun g => 44 :: fieldText g).length =
          i + 1 + (fieldText f).length + (fs.flatMap fun g => 44 :: fieldText g).length := by
        simp only [List.flatMap_cons, List.cons_append, List.length_cons, List.length_append]
        omega
      rw [show i + (fieldText f).length + 1 = i + 1 + (fieldText f).length by omega] at hone
      rw [hlen]
      exact .step hone (by omega) hih

theorem length_le_commas (fs : List Bytes) :
    fs.length ≤ (fs.flatMap fun g => 44 :: fieldText g).length := by
  induction fs with
  | nil => exact Nat.le_refl 0
  | cons f fs ih =>
      simp only [List.flatMap_cons, List.cons_append, List.length_cons, List.length_append]
      omega

/-- **A row is parsed back from its text.** -/
theorem recordGrammar_eq (hne : r ≠ []) (hr : ∀ f ∈ r, Survives f)
    (h : At s i (rowText r ++ rest)) (hrest : EndsRow rest) :
    recordGrammar s i = .ok r (i + (rowText r).length) := by
  obtain ⟨f, fs, rfl⟩ := List.exists_cons_of_ne_nil hne
  rw [rowText, List.append_assoc] at h
  have hends : EndsField ((fs.flatMap fun g => 44 :: fieldText g) ++ rest) := by
    cases fs with
    | nil => exact hrest.endsField
    | cons g fs =>
        intro c hc
        obtain rfl : 44 = c := Option.some.inj hc
        exact Or.inl rfl
  have hone := field_eq (hr f (List.mem_cons_self ..)) h hends
  have hlen := h.length
  have hle := length_le_commas fs
  have hmore := star_of_repeats
    (commaFields_repeat (fun g hg => hr g (List.mem_cons_of_mem _ hg)) h.advance hrest) (by
      simp only [List.length_append] at hlen
      omega)
  simp only [recordGrammar, Mpc.bind, hone, hmore, ret, rowText, List.length_append]
  refine congrArg _ ?_
  omega

/-! ### Tables -/

theorem newline_crlf (h : At s i (13 :: 10 :: rest)) :
    newline s i = .ok (ascii "\r\n") (i + 2) := by
  have hlit := lit_ok (show At s i (ascii "\r\n" ++ rest) from h)
  rw [newline, choice, hlit]
  rfl

theorem newline_end (h : At s i []) : ∃ e, newline s i = .fail e := by
  rw [newline, choice, lit_fail h (by decide), lit_fail h (by decide)]
  exact ⟨_, rfl⟩

theorem rowText_eq_nil (hne : r ≠ []) (h : rowText r = []) : r = [[]] := by
  obtain ⟨f, fs, rfl⟩ := List.exists_cons_of_ne_nil hne
  rw [rowText, List.append_eq_nil_iff] at h
  obtain ⟨hf, hfs⟩ := h
  have hfs' : fs = [] := by
    cases fs with
    | nil => rfl
    | cons g fs => exact absurd hfs (by simp)
  have hf' : f = [] := by
    rw [fieldText] at hf
    split at hf
    · cases hf
    · exact hf
  rw [hf', hfs']

/-- The ends of line behind rows, each with the next row. -/
def rowsText (rows : List (List Bytes)) : Bytes := rows.flatMap fun q => 13 :: 10 :: rowText q

theorem endsRow_rowsText {tail : Bytes} (htail : EndsRow tail) (rows : List (List Bytes)) :
    EndsRow (rowsText rows ++ tail) := by
  cases rows with
  | nil => exact htail
  | cons q rows => exact .inr ⟨_, rfl⟩

/-- A tail of the text behind which nothing is lost: an end of line of its own, or none behind a
row that has bytes. -/
def Closed (rows : List (List Bytes)) (tail : Bytes) : Prop :=
  tail = [] ∧ rows.getLast? ≠ some [[]] ∨ tail = [13, 10]

theorem Closed.endsRow {tail : Bytes} (h : Closed rows tail) : EndsRow tail := by
  rcases h with ⟨rfl, -⟩ | rfl
  · exact .inl rfl
  · exact .inr ⟨[], rfl⟩

theorem Closed.tail {tail : Bytes} (h : Closed (r :: rows) tail) : Closed rows tail := by
  rcases h with ⟨rfl, hlast⟩ | rfl
  · refine .inl ⟨rfl, fun hrows => hlast ?_⟩
    cases rows with
    | nil => cases hrows
    | cons q rows => rwa [List.getLast?_cons_cons]
  · exact .inr rfl

/-- A row in a closed text has bytes before the end. -/
theorem Closed.ne_nil {tail : Bytes} (h : Closed (r :: rows) tail) (hne : r ≠ []) :
    rowText r ++ (rowsText rows ++ tail) ≠ [] := by
  intro hnil
  obtain ⟨hrow, hrest⟩ := List.append_eq_nil_iff.mp hnil
  obtain ⟨hrows, htail⟩ := List.append_eq_nil_iff.mp hrest
  rcases h with ⟨-, hlast⟩ | rfl
  · cases rows with
    | cons q rows => cases hrows
    | nil => exact hlast (by rw [rowText_eq_nil hne hrow]; rfl)
  · cases htail

theorem recordsLoop_eq {tail : Bytes} (hne : ∀ r ∈ rows, r ≠ [])
    (hs : ∀ r ∈ rows, ∀ f ∈ r, Survives f) (hc : Closed rows tail)
    (h : At s i (rowsText rows ++ tail)) {n : Nat} (hn : rows.length < n)
    (acc : List (List Bytes)) : ∃ j, recordsLoop s n i acc = .ok (acc.reverse ++ rows) j := by
  induction rows generalizing i n acc with
  | nil =>
      obtain ⟨n, rfl⟩ : ∃ m, n = m + 1 := ⟨n - 1, by omega⟩
      rw [List.append_nil]
      rcases hc with ⟨rfl, -⟩ | rfl
      · obtain ⟨e, he⟩ := newline_end h
        have hend : i = s.length := h.length.symm
        refine ⟨i, ?_⟩
        rw [recordsLoop, he]
        simp [endOfFile, hend]
      · have hend : i + 2 = s.length := h.length.symm
        refine ⟨i + 2, ?_⟩
        rw [recordsLoop, newline_crlf h]
        exact if_pos hend
  | cons q rows ih =>
      rw [List.length_cons] at hn
      obtain ⟨n, rfl⟩ : ∃ m, n = m + 1 := ⟨n - 1, by omega⟩
      rw [rowsText, List.flatMap_cons, List.append_assoc] at h
      have hq := hne q (List.mem_cons_self ..)
      have hafter : At s (i + 2) (rowText q ++ (rowsText rows ++ tail)) :=
        At.advance (m := [13, 10]) h
      -- The row behind this end of line has bytes, so the text does not end here.
      have hmore : ¬ i + 2 = s.length := by
        intro hend
        have hlen := hafter.length
        exact hc.ne_nil hq (List.eq_nil_of_length_eq_zero (by omega))
      have hrec := recordGrammar_eq hq (hs q (List.mem_cons_self ..)) hafter
        (endsRow_rowsText hc.endsRow rows)
      rw [recordsLoop, newline_crlf h]
      simp only [hmore, if_false, hrec]
      obtain ⟨j, hj⟩ := ih (fun r hr => hne r (List.mem_cons_of_mem _ hr))
        (fun r hr => hs r (List.mem_cons_of_mem _ hr)) hc.tail hafter.advance (n := n) (by omega)
        (q :: acc)
      exact ⟨j, by rw [hj]; simp⟩

theorem length_le_rowsText (rows : List (List Bytes)) : rows.length ≤ (rowsText rows).length := by
  induction rows with
  | nil => exact Nat.le_refl 0
  | cons q rows ih =>
      rw [rowsText] at ih ⊢
      simp only [List.flatMap_cons, List.cons_append, List.length_cons, List.length_append]
      omega

/-- **A table is parsed back from its text.** -/
theorem parse_rows {tail : Bytes} (hne : ∀ q ∈ r :: rows, q ≠ [])
    (hs : ∀ q ∈ r :: rows, ∀ f ∈ q, Survives f) (hc : Closed (r :: rows) tail) :
    parse (rowText r ++ (rowsText rows ++ tail)) = .ok (r :: rows) := by
  have hstart := At.start (rowText r ++ (rowsText rows ++ tail))
  have hr := hne r (List.mem_cons_self ..)
  have hrec := recordGrammar_eq hr (hs r (List.mem_cons_self ..)) hstart
    (endsRow_rowsText hc.endsRow rows)
  have htext : ¬ Str.length (rowText r ++ (rowsText rows ++ tail)) = 0 := by
    rw [Str.length_eq]
    intro h0
    exact hc.ne_nil hr (List.eq_nil_of_length_eq_zero (by omega))
  have hle := length_le_rowsText rows
  obtain ⟨j, hj⟩ := recordsLoop_eq (fun q hq => hne q (List.mem_cons_of_mem _ hq))
    (fun q hq => hs q (List.mem_cons_of_mem _ hq)) hc.tail hstart.advance
    (n := (rowText r ++ (rowsText rows ++ tail)).length + 1) (by
      simp only [List.length_append]
      omega) [r]
  rw [parse, if_neg htext]
  simp only [fileGrammar, hrec, hj]
  rfl

/-! ### Tables that are not parsed back -/

/-- The parser stands before a byte that ends nothing. -/
def Halts (s : Bytes) (i : Nat) : Prop := ∃ c t, At s i (c :: t) ∧ c ≠ 44 ∧ c ≠ 13 ∧ c ≠ 10

theorem field_refused (hf : ¬ Survives f) (h : At s i (fieldText f ++ rest)) :
    ∃ pre j, field s i = .ok pre j ∧ i ≤ j ∧ Halts s j := by
  obtain ⟨hq, hlow⟩ := not_or.mp hf
  have htext : fieldText f = f := by rw [fieldText, if_neg hq]
  have hno := mem_of_not_needsQuote hq
  have hsplit := List.takeWhile_append_dropWhile (p := fun c : UInt8 => decide (32 ≤ c)) (l := f)
  cases hdrop : f.dropWhile fun c => decide (32 ≤ c) with
  | nil =>
      refine absurd ?_ hlow
      intro c hc
      exact of_decide_eq_true (List.dropWhile_eq_nil_iff.mp hdrop c hc)
  | cons c t =>
      have hc : ¬ 32 ≤ c := by
        have := List.dropWhile_get_zero_not (fun c : UInt8 => decide (32 ≤ c)) f (by
          rw [hdrop]
          exact Nat.zero_lt_succ _)
        simpa [hdrop] using this
      rw [hdrop] at hsplit
      have hmem : c ∈ f := hsplit ▸ List.mem_append_right _ (List.mem_cons_self ..)
      have hfirst : ¬ Str.charAt s i = 34 := by
        obtain ⟨x, f', rfl⟩ := List.exists_cons_of_ne_nil (List.ne_nil_of_mem hmem)
        rw [htext] at h
        exact charAt_ne_quote (hno x (List.mem_cons_self ..)).2.1 h
      rw [htext, ← hsplit, List.append_assoc] at h
      refine ⟨f.takeWhile fun c => decide (32 ≤ c), _, ?_, Nat.le_add_right _ _, c, t ++ rest,
        h.advance, (hno c hmem).1, (hno c hmem).2.2⟩
      rw [field, if_neg hfirst]
      refine takeWhile_eq h ?_ ?_
      · intro x hx
        obtain ⟨h1, h2, h3, h4⟩ := hno x (hsplit ▸ List.mem_append_left _ hx)
        have hx32 : decide (32 ≤ x) = true :=
          List.mem_takeWhile_imp (p := fun c : UInt8 => decide (32 ≤ c)) hx
        exact (isFieldChar_eq x).mpr ⟨h1, h2, h3, h4, of_decide_eq_true hx32⟩
      · intro x hx
        obtain rfl : c = x := Option.some.inj hx
        exact Bool.eq_false_iff.mpr fun hfc => hc ((isFieldChar_eq c).mp hfc).2.2.2.2

theorem commaField_halts (h : Halts s i) : ∃ e, commaField s i = .fail e := by
  obtain ⟨c, t, hat, hcomma, -⟩ := h
  have hno : ¬ ascii "," <+: c :: t := fun hp => hcomma (List.cons_prefix_cons.mp hp).1.symm
  simp only [commaField, Mpc.bind, lit_fail hat hno, errAt]
  exact ⟨_, rfl⟩

theorem commaFields_refused {fs : List Bytes} (hbad : ∃ f ∈ fs, ¬ Survives f)
    (h : At s i ((fs.flatMap fun g => 44 :: fieldText g) ++ rest)) :
    ∃ vs j, Repeats commaField s i vs j ∧ vs.length ≤ fs.length ∧ Halts s j := by
  induction fs generalizing i with
  | nil =>
      obtain ⟨f, hf, -⟩ := hbad
      cases hf
  | cons f fs ih =>
      rw [List.flatMap_cons, List.cons_append, List.cons_append, List.append_assoc] at h
      by_cases hf : Survives f
      · have hrest : ∃ g ∈ fs, ¬ Survives g := by
          obtain ⟨g, hg, hbad⟩ := hbad
          rcases List.mem_cons.mp hg with rfl | hg
          · exact absurd hf hbad
          · exact ⟨g, hg, hbad⟩
        have hends : EndsField ((fs.flatMap fun g => 44 :: fieldText g) ++ rest) := by
          cases fs with
          | nil =>
              obtain ⟨g, hg, -⟩ := hrest
              cases hg
          | cons g fs =>
              intro c hc
              obtain rfl : 44 = c := Option.some.inj hc
              exact Or.inl rfl
        obtain ⟨vs, j, hvs, hlen, hhalt⟩ := ih hrest (At.next h).advance
        have hone := commaField_eq hf h hends
        rw [show i + (fieldText f).length + 1 = i + 1 + (fieldText f).length by omega] at hone
        exact ⟨f :: vs, j, .step hone (by omega) hvs, Nat.succ_le_succ hlen, hhalt⟩
      · obtain ⟨pre, j, hfield, hle, hhalt⟩ := field_refused hf (At.next h)
        have hcomma : lit (ascii ",") s i = .ok (ascii ",") (i + 1) :=
          lit_ok (show At s i (ascii "," ++ (fieldText f ++ _)) from h)
        have hone : commaField s i = .ok pre j := by
          simp only [commaField, Mpc.bind, hcomma, hfield, ret]
        obtain ⟨e, he⟩ := commaField_halts hhalt
        exact ⟨[pre], j, .step hone (by omega) (.stop he), by simp, hhalt⟩

theorem recordGrammar_refused (hbad : ∃ f ∈ r, ¬ Survives f) (h : At s i (rowText r ++ rest)) :
    ∃ r' j, recordGrammar s i = .ok r' j ∧ Halts s j := by
  obtain ⟨f, fs, rfl⟩ : ∃ f fs, r = f :: fs := by
    obtain ⟨f, hf, -⟩ := hbad
    exact List.exists_cons_of_ne_nil (List.ne_nil_of_mem hf)
  rw [rowText, List.append_assoc] at h
  have hlen := h.length
  have hle := length_le_commas fs
  simp only [List.length_append] at hlen
  by_cases hf : Survives f
  · have hrest : ∃ g ∈ fs, ¬ Survives g := by
      obtain ⟨g, hg, hbad⟩ := hbad
      rcases List.mem_cons.mp hg with rfl | hg
      · exact absurd hf hbad
      · exact ⟨g, hg, hbad⟩
    have hends : EndsField ((fs.flatMap fun g => 44 :: fieldText g) ++ rest) := by
      cases fs with
      | nil =>
          obtain ⟨g, hg, -⟩ := hrest
          cases hg
      | cons g fs =>
          intro c hc
          obtain rfl : 44 = c := Option.some.inj hc
          exact Or.inl rfl
    obtain ⟨vs, j, hvs, hlen', hhalt⟩ := commaFields_refused hrest h.advance
    refine ⟨f :: vs, j, ?_, hhalt⟩
    simp only [recordGrammar, Mpc.bind, field_eq hf h hends, star_of_repeats hvs (by omega), ret]
  · obtain ⟨pre, j, hfield, -, hhalt⟩ := field_refused hf h
    obtain ⟨e, he⟩ := commaField_halts hhalt
    refine ⟨[pre], j, ?_, hhalt⟩
    simp only [recordGrammar, Mpc.bind, hfield, star_of_repeats (.stop he) (Nat.zero_le _), ret]

theorem recordsLoop_halts (h : Halts s i) (n : Nat) (acc : List (List Bytes)) :
    ∃ e, recordsLoop s n i acc = .fail e := by
  cases n with
  | zero => exact ⟨_, rfl⟩
  | succ n =>
      obtain ⟨c, t, hat, -, hcr, hlf⟩ := h
      have hcrlf : ¬ ascii "\r\n" <+: c :: t := fun hp => hcr (List.cons_prefix_cons.mp hp).1.symm
      have hline : ¬ ascii "\n" <+: c :: t := fun hp => hlf (List.cons_prefix_cons.mp hp).1.symm
      have hnl : ∃ e, newline s i = .fail e := by
        rw [newline, choice, lit_fail hat hcrlf, lit_fail hat hline]
        exact ⟨_, rfl⟩
      obtain ⟨e, he⟩ := hnl
      have hmore : ¬ i = s.length := by
        rw [hat.length, List.length_cons]
        omega
      rw [recordsLoop, he]
      simp only [endOfFile, if_neg hmore, errAt]
      exact ⟨_, rfl⟩

theorem recordsLoop_refused (hne : ∀ q ∈ rows, q ≠ [])
    (hbad : ∃ q ∈ rows, ∃ f ∈ q, ¬ Survives f) (h : At s i (rowsText rows)) (n : Nat)
    (acc : List (List Bytes)) : ∃ e, recordsLoop s n i acc = .fail e := by
  induction rows generalizing i n acc with
  | nil =>
      obtain ⟨q, hq, -⟩ := hbad
      cases hq
  | cons q rows ih =>
      cases n with
      | zero => exact ⟨_, rfl⟩
      | succ n =>
          have hafter : At s (i + 2) (rowText q ++ rowsText rows) :=
            At.advance (m := [13, 10]) (show At s i ([13, 10] ++ (rowText q ++ rowsText rows)) from h)
          have hlen := hafter.length
          rw [recordsLoop, newline_crlf (show At s i (13 :: 10 :: (rowText q ++ rowsText rows)) from h)]
          by_cases hq : ∃ f ∈ q, ¬ Survives f
          · obtain ⟨r', j, hrec, hhalt⟩ := recordGrammar_refused hq hafter
            have hmore : ¬ i + 2 = s.length := by
              intro hend
              have hnil : rowText q = [] := by
                refine (List.append_eq_nil_iff.mp (List.eq_nil_of_length_eq_zero
                  (l := rowText q ++ rowsText rows) ?_)).1
                omega
              obtain ⟨f, hf, hbad⟩ := hq
              rw [rowText_eq_nil (hne q (List.mem_cons_self ..)) hnil, List.mem_singleton] at hf
              exact hbad (hf ▸ .inr nofun)
            simp only [hmore, if_false, hrec]
            exact recordsLoop_halts hhalt n _
          · have hrest : ∃ p ∈ rows, ∃ f ∈ p, ¬ Survives f := by
              obtain ⟨p, hp, hbad⟩ := hbad
              rcases List.mem_cons.mp hp with rfl | hp
              · exact absurd hbad hq
              · exact ⟨p, hp, hbad⟩
            have hmore : ¬ i + 2 = s.length := by
              intro hend
              have hnil : rowsText rows = [] := by
                refine (List.append_eq_nil_iff.mp (List.eq_nil_of_length_eq_zero
                  (l := rowText q ++ rowsText rows) ?_)).2
                omega
              obtain ⟨p, hp, -⟩ := hrest
              cases rows with
              | nil => cases hp
              | cons p rows => cases hnil
            have hall : ∀ f ∈ q, Survives f := fun f hf => by_contra fun hb => hq ⟨f, hf, hb⟩
            have hends := endsRow_rowsText (.inl rfl) rows
            rw [List.append_nil] at hends
            have hrec := recordGrammar_eq (hne q (List.mem_cons_self ..)) hall hafter hends
            simp only [hmore, if_false, hrec]
            exact ih (fun p hp => hne p (List.mem_cons_of_mem _ hp)) hrest hafter.advance n _

/-- A table with a field that does not survive is not accepted. -/
theorem parse_refused (hne : ∀ q ∈ rows, q ≠ []) (hbad : ∃ q ∈ rows, ∃ f ∈ q, ¬ Survives f) :
    ∃ e, parse (write rows) = .error e := by
  cases rows with
  | nil =>
      obtain ⟨q, hq, -⟩ := hbad
      cases hq
  | cons r rows =>
      rw [write_eq]
      have hstart : At (tableText (r :: rows)) 0 (rowText r ++ rowsText rows) := At.start _
      have htext : ¬ Str.length (tableText (r :: rows)) = 0 := by
        intro h0
        have hnil : rowText r ++ rowsText rows = [] :=
          List.eq_nil_of_length_eq_zero (Int.ofNat.inj h0)
        obtain ⟨hrow, hrows⟩ := List.append_eq_nil_iff.mp hnil
        obtain ⟨q, hq, f, hf, hbad⟩ := hbad
        cases rows with
        | cons p rows => cases hrows
        | nil =>
            obtain rfl := List.mem_singleton.mp hq
            rw [rowText_eq_nil (hne q hq) hrow, List.mem_singleton] at hf
            exact hbad (hf ▸ .inr nofun)
      have hfail : ∃ e, fileGrammar (tableText (r :: rows)) 0 = .fail e := by
        rw [fileGrammar]
        by_cases hr : ∃ f ∈ r, ¬ Survives f
        · obtain ⟨r', j, hrec, hhalt⟩ := recordGrammar_refused hr hstart
          simp only [hrec]
          exact recordsLoop_halts hhalt _ _
        · have hrest : ∃ p ∈ rows, ∃ f ∈ p, ¬ Survives f := by
            obtain ⟨p, hp, hbad⟩ := hbad
            rcases List.mem_cons.mp hp with rfl | hp
            · exact absurd hbad hr
            · exact ⟨p, hp, hbad⟩
          have hall : ∀ f ∈ r, Survives f := fun f hf => by_contra fun hb => hr ⟨f, hf, hb⟩
          have hends := endsRow_rowsText (.inl rfl) rows
          rw [List.append_nil] at hends
          simp only [recordGrammar_eq (hne r (List.mem_cons_self ..)) hall hstart hends]
          exact recordsLoop_refused (fun p hp => hne p (List.mem_cons_of_mem _ hp)) hrest
            hstart.advance _ _
      obtain ⟨e, he⟩ := hfail
      rw [parse, if_neg htext, he]
      exact ⟨_, rfl⟩

/-- Without a last row of one empty field a table comes back, and with one it comes back without
that row. -/
theorem parse_write (hne : ∀ q ∈ rows, q ≠ []) (hs : ∀ q ∈ rows, ∀ f ∈ q, Survives f) :
    (rows.getLast? ≠ some [[]] → parse (write rows) = .ok rows) ∧
      ∀ init, rows = init ++ [[[]]] → parse (write rows) = .ok init := by
  rw [write_eq]
  refine ⟨fun hlast => ?_, ?_⟩
  · cases rows with
    | nil => rfl
    | cons r rows =>
        have hrows := parse_rows hne hs (.inl ⟨rfl, hlast⟩)
        rw [List.append_nil] at hrows
        exact hrows
  · rintro init rfl
    cases init with
    | nil => rfl
    | cons r init =>
        have htext : tableText (r :: init ++ [[[]]]) = rowText r ++ (rowsText init ++ [13, 10]) := by
          rw [List.cons_append, tableText, List.flatMap_append]
          rfl
        rw [htext]
        exact parse_rows (fun q hq => hne q (List.mem_append_left _ hq))
          (fun q hq => hs q (List.mem_append_left _ hq)) (.inr rfl)

/-! ### Tables that were parsed -/

theorem recordGrammar_ne_nil {j : Nat} (h : recordGrammar s i = .ok r j) : r ≠ [] := by
  simp only [recordGrammar, Mpc.bind] at h
  cases hf : field s i with
  | fail e =>
      rw [hf] at h
      cases h
  | ok f k =>
      simp only [hf] at h
      cases hs : star commaField s k with
      | fail e =>
          rw [hs] at h
          cases h
      | ok fs m =>
          simp only [hs, ret] at h
          obtain ⟨rfl, -⟩ : f :: fs = r ∧ m = j := by simpa using h
          exact List.cons_ne_nil f fs

theorem recordsLoop_ne_nil {n j : Nat} {acc : List (List Bytes)} (hacc : ∀ r ∈ acc, r ≠ [])
    (h : recordsLoop s n i acc = .ok rows j) : ∀ r ∈ rows, r ≠ [] := by
  induction n generalizing i acc with
  | zero => cases h
  | succ n ih =>
      have hrev : ∀ r ∈ acc.reverse, r ≠ [] := fun r hr => hacc r (List.mem_reverse.mp hr)
      rw [recordsLoop] at h
      cases hnl : newline s i with
      | fail e =>
          simp only [hnl] at h
          cases hend : endOfFile s i with
          | fail e =>
              rw [hend] at h
              cases h
          | ok u k =>
              rw [hend] at h
              obtain ⟨rfl, -⟩ : acc.reverse = rows ∧ i = j := by simpa using h
              exact hrev
      | ok t k =>
          simp only [hnl] at h
          by_cases hk : k = s.length
          · rw [if_pos hk] at h
            obtain ⟨rfl, -⟩ : acc.reverse = rows ∧ k = j := by simpa using h
            exact hrev
          · rw [if_neg hk] at h
            cases hrec : recordGrammar s k with
            | fail e =>
                rw [hrec] at h
                cases h
            | ok row m =>
                simp only [hrec] at h
                refine ih ?_ h
                intro r hr
                rcases List.mem_cons.mp hr with rfl | hr
                · exact recordGrammar_ne_nil hrec
                · exact hacc r hr

/-- Every row of a parsed text has a field. -/
theorem parse_ne_nil {text : Bytes} (h : parse text = .ok rows) : ∀ r ∈ rows, r ≠ [] := by
  rw [parse] at h
  split at h
  · obtain rfl : [] = rows := by simpa using h
    simp
  · rw [fileGrammar] at h
    cases hrec : recordGrammar text 0 with
    | fail e =>
        rw [hrec] at h
        cases h
    | ok row m =>
        simp only [hrec] at h
        cases hloop : recordsLoop text (text.length + 1) m [row] with
        | fail e =>
            rw [hloop] at h
            cases h
        | ok all k =>
            rw [hloop] at h
            obtain rfl : all = rows := by simpa using h
            refine recordsLoop_ne_nil ?_ hloop
            intro r hr
            rw [List.mem_singleton.mp hr]
            exact recordGrammar_ne_nil hrec

/-- A table that ends in a row of one empty field. -/
theorem last_empty (h : rows.getLast? = some [[]]) : ∃ init, rows = init ++ [[[]]] :=
  ⟨rows.dropLast, (List.dropLast_append_getLast? _ h).symm⟩

/--
**Rows are parsed back, and writing what was parsed is stable**, exactly where fields survive
and no last row is lost.

The first half is for every table whose rows have a field: it comes back exactly if its fields
survive and its last row is not a single empty field.  The second is for every text that is
accepted: the second write gives the text of the first exactly if the fields survive and the
table is one row or does not end in a row of a single empty field.
-/
theorem write_parse_round_trip (rows : List (List Bytes)) :
    ((∀ r ∈ rows, r ≠ []) → (parse (write rows) = .ok rows ↔
      (∀ r ∈ rows, ∀ f ∈ r, Survives f) ∧ rows.getLast? ≠ some [[]])) ∧
    ∀ text, parse text = .ok rows →
      ((∃ rows', parse (write rows) = .ok rows' ∧ write rows' = write rows) ↔
        (∀ r ∈ rows, ∀ f ∈ r, Survives f) ∧ (rows.length = 1 ∨ rows.getLast? ≠ some [[]])) := by
  have hsurvive : ∀ {rows'}, (∀ r ∈ rows, r ≠ []) → parse (write rows) = .ok rows' →
      ∀ r ∈ rows, ∀ f ∈ r, Survives f := by
    intro rows' hne h r hr f hf
    by_contra hbad
    obtain ⟨e, he⟩ := parse_refused hne ⟨r, hr, f, hf, hbad⟩
    rw [he] at h
    cases h
  refine ⟨fun hne => ⟨fun h => ?_, fun h => (parse_write hne h.1).1 h.2⟩, fun text hparse => ?_⟩
  · refine ⟨hsurvive hne h, fun hl => ?_⟩
    obtain ⟨init, rfl⟩ := last_empty hl
    rw [(parse_write hne (hsurvive hne h)).2 init rfl] at h
    have hlen := congrArg List.length (Except.ok.inj h)
    rw [List.length_append] at hlen
    exact absurd hlen (Nat.ne_of_lt (Nat.lt_succ_self _))
  · have hne := parse_ne_nil hparse
    refine ⟨?_, ?_⟩
    · rintro ⟨rows', h, hsame⟩
      have hs := hsurvive hne h
      refine ⟨hs, ?_⟩
      by_contra hboth
      obtain ⟨hone, hl⟩ := not_or.mp hboth
      obtain ⟨init, rfl⟩ := last_empty (not_not.mp hl)
      obtain rfl := Except.ok.inj (((parse_write hne hs).2 init rfl).symm.trans h)
      cases init with
      | nil => exact hone rfl
      | cons r init =>
          -- The second text is the first without its last end of line.
          have hlen := congrArg List.length hsame
          rw [write_eq, write_eq, List.cons_append, tableText, tableText, List.flatMap_append] at hlen
          simp at hlen
    · rintro ⟨hs, hlast⟩
      by_cases hl : rows.getLast? = some [[]]
      · -- One row of one empty field is written as nothing, which is no row and written as nothing.
        obtain ⟨r, rfl⟩ := List.length_eq_one_iff.mp (hlast.resolve_right (not_not_intro hl))
        obtain rfl : r = [[]] := Option.some.inj hl
        exact ⟨[], rfl, rfl⟩
      · exact ⟨rows, (parse_write hne hs).1 hl, rfl⟩

theorem write_parse_round_trip_table :
    parse (write [[ascii "a,b", []], [ascii "c\"d"]]) = .ok [[ascii "a,b", []], [ascii "c\"d"]] ∧
      ∃ rows', parse (write [[ascii "a", ascii "b"]]) = .ok rows' ∧
        write rows' = write [[ascii "a", ascii "b"]] := by
  refine ⟨((write_parse_round_trip _).1 (by decide)).mpr ⟨?_, by decide⟩,
    ((write_parse_round_trip _).2 (ascii "a,\"b\"\n") (by decide)).mpr ⟨?_, Or.inl rfl⟩⟩
  · simp only [Survives]
    decide +kernel
  · simp only [Survives]
    decide +kernel

/-- **Tables that are not parsed back.**  A tab outside of quotes is refused, so neither the field
nor the text that quotes it comes back; and a last row of one empty field is lost. -/
theorem control_byte_and_last_empty_row_lost :
    (parse (write [[[9]]]) = .error (ascii "line 1, col 1: " ++
      ascii "expecting ',' or a new record (newline)")) ∧
    (parse (ascii "\"\t\"") = .ok [[[9]]]) ∧
    (parse (write [[ascii "a"], [[]]]) = .ok [[ascii "a"]]) ∧
    (parse (ascii "a\n\n") = .ok [[ascii "a"], [[]]] ∧
      write [[ascii "a"]] ≠ write [[ascii "a"], [[]]]) := by
  decide

end TinyActor.Stdlib.Csv
