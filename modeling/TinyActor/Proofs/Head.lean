/-
Heads of requests and responses, as bytes.

A head is a first line and more lines, each behind an end of line; the empty line that ends it
comes next.  As long as no line has an end of line in it and no line but the first is empty,
the lines can be read off again in one way: the empty line is found where the head ends, the
first line ends at the first end of line, and the rest is cut into the other lines.  A lone
carriage return or line feed is an ordinary byte of its line.
-/
import TinyActor.Proofs.Numeral
import TinyActor.Stdlib.Http

namespace TinyActor.Lib

variable {α : Type*} [DecidableEq α]

/-! ### Searches for a needle that begins with a rare element -/

variable {more : List Bytes} {l : List α} {line : Bytes} {a : α}

/-- A text without the needle's first two elements in a row is passed over, also where it ends
in the first of them. -/
theorem firstOcc_append_of_no_pair {b : α} (hab : a ≠ b) (t : List α) (h : ¬ [a, b] <:+: l)
    (m : List α) :
    firstOcc (a :: b :: t) (l ++ a :: m) =
      (firstOcc (a :: b :: t) (a :: m)).map (· + l.length) := by
  induction l with
  | nil => simp
  | cons c l ih =>
      rw [List.infix_cons_iff, not_or] at h
      have hno : ¬ (a :: b :: t) <+: c :: (l ++ a :: m) := by
        intro hp
        obtain ⟨rfl, htail⟩ := List.cons_prefix_cons.mp hp
        cases l with
        | nil => exact hab (List.cons_prefix_cons.mp htail).1.symm
        | cons d l =>
            obtain ⟨rfl, -⟩ := List.cons_prefix_cons.mp htail
            exact h.1 (List.cons_prefix_cons.mpr ⟨rfl, List.cons_prefix_cons.mpr
              ⟨rfl, List.nil_prefix⟩⟩)
      rw [List.cons_append, firstOcc, if_neg hno, ih h.2, Option.map_map]
      refine congrArg (fun f => Option.map f _) ?_
      funext n
      simp only [Function.comp_apply, List.length_cons]
      omega

end TinyActor.Lib

namespace TinyActor.Stdlib

open Lib

/-! ### Lines -/

namespace Http

/-- No end-of-line byte. -/
def NoBreak (l : Bytes) : Prop := 13 ∉ l ∧ 10 ∉ l

/-- A first line and more lines, each behind an end of line. -/
def headText (line : Bytes) (more : List Bytes) : Bytes := line ++ more.flatMap (crlf ++ ·)

/-- The lines of a head: no end of line in them, and only the first may be empty. -/
structure Lines (line : Bytes) (more : List Bytes) : Prop where
  first : ¬ crlf <:+: line
  rest : ∀ l ∈ more, ¬ crlf <:+: l ∧ l ≠ []

/-- Lines without an end of line in them, empty or not: what a text that need not be a head is
cut into. -/
def Unbroken (line : Bytes) (more : List Bytes) : Prop := ∀ l ∈ line :: more, ¬ crlf <:+: l

theorem Unbroken.first (h : Unbroken line more) : ¬ crlf <:+: line := h line (List.mem_cons_self ..)

theorem Unbroken.tail {l : Bytes} (h : Unbroken line (l :: more)) : Unbroken l more :=
  fun x hx => h x (List.mem_cons_of_mem _ hx)

theorem Lines.unbroken (h : Lines line more) : Unbroken line more := by
  intro l hl
  rcases List.mem_cons.mp hl with rfl | hl
  · exact h.first
  · exact (h.rest l hl).1

theorem Lines.tail {l : Bytes} (h : Lines line (l :: more)) : Lines l more :=
  ⟨(h.rest l (List.mem_cons_self ..)).1, fun x hx => h.rest x (List.mem_cons_of_mem _ hx)⟩

theorem headText_cons (line l : Bytes) (more : List Bytes) :
    headText line (l :: more) = line ++ (crlf ++ headText l more) := by
  simp [headText]

theorem crlf_eq : crlf = [13, 10] := by decide

theorem headEnd_eq : headEnd = 13 :: [10, 13, 10] := by decide

/-- A search for the empty line passes over a line. -/
theorem firstOcc_headEnd_line (h : ¬ crlf <:+: line) (m : Bytes) :
    firstOcc headEnd (line ++ (crlf ++ m)) =
      (firstOcc headEnd (crlf ++ m)).map (· + line.length) := by
  rw [crlf_eq] at h ⊢
  rw [headEnd_eq]
  exact firstOcc_append_of_no_pair (by decide) _ h _

/-- An end of line is the beginning of the empty line only if another one follows. -/
theorem firstOcc_headEnd_break {m : Bytes} (h : ¬ crlf <+: m) :
    firstOcc headEnd (crlf ++ m) = (firstOcc headEnd m).map (· + 2) := by
  have hno : ¬ headEnd <+: 13 :: 10 :: m := by
    rw [headEnd_eq]
    intro hp
    refine h ?_
    rw [crlf_eq]
    exact (List.cons_prefix_cons.mp (List.cons_prefix_cons.mp hp).2).2
  rw [crlf_eq, List.cons_append, List.cons_append, List.nil_append, firstOcc, if_neg hno,
    headEnd_eq, firstOcc_cons_of_ne _ _ (by decide), Option.map_map]
  rfl

/-- A line that is not empty does not begin with an end of line, whatever comes next. -/
theorem not_crlf_prefix {l : Bytes} (h : ¬ crlf <:+: l) (hne : l ≠ []) {m : Bytes}
    (hm : m.head? ≠ some 10) : ¬ crlf <+: l ++ m := by
  rw [crlf_eq] at h ⊢
  intro hp
  match l, hne with
  | [c], _ =>
      obtain ⟨-, htail⟩ := List.cons_prefix_cons.mp hp
      cases m with
      | nil => simp at htail
      | cons d m =>
          obtain ⟨rfl, -⟩ := List.cons_prefix_cons.mp htail
          exact hm rfl
  | c :: d :: l, _ =>
      obtain ⟨rfl, htail⟩ := List.cons_prefix_cons.mp hp
      obtain ⟨rfl, -⟩ := List.cons_prefix_cons.mp htail
      exact h (List.prefix_append [13, 10] l).isInfix

/-- The empty line is found where the head ends. -/
theorem firstOcc_headEnd (h : Lines line more) (body : Bytes) :
    firstOcc headEnd (headText line more ++ (headEnd ++ body)) =
      some (headText line more).length := by
  have hend : headEnd ++ body = crlf ++ (crlf ++ body) := by rw [headEnd_eq, crlf_eq]; rfl
  induction more generalizing line with
  | nil =>
      rw [headText, List.flatMap_nil, List.append_nil, hend, firstOcc_headEnd_line h.first,
        ← hend, firstOcc_of_isPrefix (List.prefix_append _ _)]
      simp
  | cons l more ih =>
      have hl := h.rest l (List.mem_cons_self ..)
      have hih := ih h.tail
      have hhead : ¬ crlf <+: headText l more ++ (headEnd ++ body) := by
        rw [headText, List.append_assoc]
        refine not_crlf_prefix hl.1 hl.2 ?_
        cases more with
        | nil => rw [headEnd_eq]; simp
        | cons x more => rw [crlf_eq]; simp
      rw [headText_cons, List.append_assoc, List.append_assoc, firstOcc_headEnd_line h.first,
        firstOcc_headEnd_break hhead, hih, crlf_eq]
      simp only [Option.map_some, List.length_append, List.length_cons, List.length_nil]
      refine congrArg some ?_
      omega

theorem firstOcc_crlf_single (h : ¬ crlf <:+: line) : firstOcc crlf line = none :=
  firstOcc_eq_none.mpr h

theorem firstOcc_crlf_cons (h : ¬ crlf <:+: line) (m : Bytes) :
    firstOcc crlf (line ++ (crlf ++ m)) = some line.length := by
  rw [crlf_eq] at h ⊢
  rw [List.cons_append, firstOcc_append_of_no_pair (by decide) [] h, ← List.cons_append,
    firstOcc_of_isPrefix (List.prefix_append _ _)]
  simp

/-- Every text is cut into lines. -/
theorem exists_headText (text : Bytes) : ∃ line more, Unbroken line more ∧ text = headText line more := by
  induction hn : text.length using Nat.strong_induction_on generalizing text with
  | _ n ih =>
      cases hocc : firstOcc crlf text with
      | none =>
          refine ⟨text, [], ?_, by simp [headText]⟩
          intro l hl
          rw [List.mem_singleton.mp hl]
          exact firstOcc_eq_none.mp hocc
      | some i =>
          have hle := firstOcc_le hocc
          have hsplit := firstOcc_split hocc
          rw [crlf_eq] at hle
          simp only [List.length_cons, List.length_nil] at hle
          have hshort : (text.drop (i + crlf.length)).length < n := by
            rw [List.length_drop, crlf_eq]
            simp only [List.length_cons, List.length_nil]
            omega
          obtain ⟨line, more, hlines, heq⟩ := ih _ hshort _ rfl
          refine ⟨text.take i, line :: more, ?_, ?_⟩
          · intro l hl
            rcases List.mem_cons.mp hl with rfl | hl
            · exact not_infix_take (by decide) hocc
            · exact hlines l hl
          · rw [headText_cons, ← heq, ← List.append_assoc]
            exact hsplit

/-- **Every text up to its first empty line is a head.** -/
theorem exists_lines (head body : Bytes)
    (h : firstOcc headEnd (head ++ (headEnd ++ body)) = some head.length) :
    ∃ line more, Lines line more ∧ head = headText line more := by
  obtain ⟨line, more, hlines, rfl⟩ := exists_headText head
  refine ⟨line, more, ⟨hlines.first, fun l hl => ⟨hlines l (List.mem_cons_of_mem _ hl), ?_⟩⟩, rfl⟩
  rintro rfl
  obtain ⟨pre, post, rfl⟩ := List.append_of_mem hl
  -- An empty line is an end of line with another one behind it, and that is before the end.
  have hcut : headText line (pre ++ [] :: post) ++ (headEnd ++ body) =
      headText line pre ++ (crlf ++ (headText [] post ++ (headEnd ++ body))) := by
    simp [headText]
  have hbreak : crlf <+: headText [] post ++ (headEnd ++ body) := by
    cases post with
    | nil => exact ⟨crlf ++ body, by rw [headEnd_eq, crlf_eq]; rfl⟩
    | cons x post => exact ⟨headText x post ++ (headEnd ++ body), by rw [headText_cons]; simp⟩
  obtain ⟨rest, hrest⟩ := hbreak
  refine not_prefix_of_lt_firstOcc (j := (headText line pre).length) h ?_ ?_
  · simp only [headText, crlf_eq, List.flatMap_append, List.flatMap_cons, List.length_append,
      List.length_cons]
    omega
  · rw [hcut, List.drop_left, ← hrest]
    exact ⟨rest, by rw [headEnd_eq, crlf_eq]; rfl⟩

theorem lines_headText (h : Unbroken line more) {n : Nat} (hn : more.length ≤ n) :
    Str.lines crlf n (headText line more) = line :: more := by
  induction more generalizing line n with
  | nil =>
      have hnone : firstOcc crlf (headText line []) = none := by
        rw [headText, List.flatMap_nil, List.append_nil]
        exact firstOcc_crlf_single h.first
      cases n with
      | zero => rw [Str.lines, headText, List.flatMap_nil, List.append_nil]
      | succ n =>
          rw [Str.lines, hnone]
          simp [headText]
  | cons l more ih =>
      cases n with
      | zero => exact absurd hn (by simp)
      | succ n =>
          rw [headText_cons, Str.lines, firstOcc_crlf_cons h.first]
          simp only [List.take_left]
          rw [← List.length_append, ← List.append_assoc, List.drop_left]
          exact congrArg (line :: ·) (ih h.tail (by simpa using hn))

theorem length_le_headText (line : Bytes) (more : List Bytes) :
    more.length ≤ (headText line more).length := by
  induction more generalizing line with
  | nil => exact Nat.zero_le _
  | cons l more ih =>
      rw [headText_cons, crlf_eq]
      have := ih l
      simp only [List.length_append, List.length_cons]
      omega

/-- The fields of the lines behind the first one. -/
theorem pairs_headText {l : Bytes} (h : Unbroken l more) :
    Str.pairs (headText l more) crlf (ascii ":") =
      (l :: more).filterMap (Str.pairOf (ascii ":")) := by
  by_cases hne : headText l more = []
  · obtain ⟨rfl, hmore⟩ := List.append_eq_nil_iff.mp hne
    cases more with
    | nil => decide
    | cons x more => simp [crlf_eq] at hmore
  · have hcond : (crlf = [] || ascii ":" = [] || headText l more = []) = false := by
      rw [decide_eq_false hne]
      decide
    rw [Str.pairs, hcond, lines_headText h (length_le_headText l more)]
    rfl

end Http

end TinyActor.Stdlib
