/-
Where tokens stand.

A text is taken apart into what is skipped and what is read, token by token: `lexemes`.
Together these are the text, so the offset of a token is the length of what comes before
it; the column is found by going back to the last line end and does not depend on what has
been counted.  The line is counted as the text is read.  Between tokens that is done for
every line end, and inside a token by its reader, which misses two kinds: a line end after
a backslash in a string literal, and the line end that is itself a character literal.  The
line of every token is right exactly if there is none of these: the end of the text is a token
too, and its line falls short by all that were missed.
-/
import TinyActor.Front.Tokenizer
import Mathlib.Data.List.TakeWhile

namespace TinyActor.Front

/-! ### What is skipped and what is read -/

/-- Blanks and comments.  Only at the end of the text a comment may end without a line end. -/
inductive Skipped (atEnd : Bool) : List Char → Prop
  | nil : Skipped atEnd []
  | blank {c : Char} {gap : List Char} : isBlank c = true → Skipped atEnd gap → Skipped atEnd (c :: gap)
  | comment (body : List Char) {gap : List Char} : '\n' ∉ body → Skipped atEnd gap →
      Skipped atEnd ('/' :: '/' :: (body ++ '\n' :: gap))
  | last {body : List Char} : atEnd = true → '\n' ∉ body → Skipped atEnd ('/' :: '/' :: body)

/-- A token with its text and what is skipped before it. -/
structure Lexeme where
  gap : List Char
  span : List Char
  token : Token

def Lexeme.text (x : Lexeme) : List Char := x.gap ++ x.span

/-- The text up to what is left of it. -/
def upTo (text rest : List Char) : List Char := text.take (text.length - rest.length)

def lexemesLoop : Nat → List Char → List Lexeme × List Char
  | 0, text => ([], text)
  | n + 1, text =>
      match skipWs text with
      | [] => ([], text)
      | c :: rest =>
          let r := readToken (decide ((c :: rest).length < text.length)) (c :: rest)
          let more := lexemesLoop n r.2.1
          (⟨upTo text (c :: rest), upTo (c :: rest) r.2.1, r.1⟩ :: more.1, more.2)

/-- The tokens of a text, and what is skipped after the last. -/
def lexemes (text : List Char) : List Lexeme × List Char := lexemesLoop (text.length + 1) text

/-- The line ends in a string literal that come after a backslash. -/
def escapedNewlines : List Char → Nat
  | '\\' :: e :: rest => (if e = '\n' then 1 else 0) + escapedNewlines rest
  | _ :: rest => escapedNewlines rest
  | [] => 0

/-- The line ends in a token that are not counted. -/
def uncounted (token : Token) (span : List Char) : Nat :=
  if token.type = .string then escapedNewlines span.tail
  else if span = ['\'', '\n', '\''] then 1
  else 0

def Lexeme.uncounted (x : Lexeme) : Nat := Front.uncounted x.token x.span

theorem upTo_append (span rest : List Char) : upTo (span ++ rest) rest = span := by
  simp [upTo]

/-! ### Skipping -/

variable {rest src : List Char} {c : Char}

theorem Skipped.longer {atEnd : Bool} {gap : List Char} (hc : c ≠ '\n')
    (h : Skipped atEnd ('/' :: '/' :: gap)) : Skipped atEnd ('/' :: '/' :: c :: gap) := by
  cases h with
  | blank hb _ => exact absurd hb (by decide)
  | comment body hbody hgap => exact .comment (c :: body) (by simp [hbody, hc.symm]) hgap
  | last hend hbody => exact .last hend (by simp [hbody, hc.symm])

/-- What skipping comes to: what it skips, with the offset and the line moved on by it. -/
def Skips (text rest : List Char) (skipL : Nat → Nat → List Char × Nat × Nat) (gap : List Char) : Prop :=
  text = gap ++ rest ∧ (∀ i line, skipL i line = (rest, i + gap.length, line + gap.count '\n')) ∧
    ∀ c rest', rest = c :: rest' → isBlank c = false

/-- One character is skipped first. -/
theorem Skips.cons {text gap : List Char} {skipL skipL' : Nat → Nat → List Char × Nat × Nat}
    (c : Char) (h : Skips text rest skipL gap)
    (hl : ∀ i line, skipL' i line = skipL (i + 1) (line + if c = '\n' then 1 else 0)) :
    Skips (c :: text) rest skipL' (c :: gap) := by
  obtain ⟨htext, hskip, hhead⟩ := h
  refine ⟨by rw [htext]; rfl, fun i line => ?_, hhead⟩
  rw [hl, hskip, List.length_cons, List.count_cons]
  simp only [beq_iff_eq, Prod.mk.injEq, true_and]
  omega

/-- A comment begins. -/
def isComment (c : Char) (rest : List Char) : Bool := c = '/' && rest.head? = some '/'

theorem skipWs_cons (c : Char) (rest : List Char) :
    skipWs (c :: rest) =
      if isBlank c then skipWs rest else if isComment c rest then skipComment rest.tail else c :: rest := by
  rw [skipWs.eq_def]
  by_cases hc : c = '/'
  · subst hc
    rcases rest with _ | ⟨d, rest⟩
    · rfl
    · by_cases hd : d = '/'
      · subst hd
        rfl
      · simp [isComment, hd]
  · simp [isComment, hc]

theorem skipWsL_cons (c : Char) (rest : List Char) (i line : Nat) :
    skipWsL (c :: rest) i line =
      if isBlank c then skipWsL rest (i + 1) (line + if c = '\n' then 1 else 0)
      else if isComment c rest then skipCommentL rest.tail (i + 2) line else (c :: rest, i, line) := by
  rw [skipWsL.eq_def]
  by_cases hnl : c = '\n'
  · subst hnl
    rfl
  by_cases hc : c = '/'
  · subst hc
    rcases rest with _ | ⟨d, rest⟩
    · rfl
    · by_cases hd : d = '/'
      · subst hd
        rfl
      · simp [isComment, hd]
  · simp [isComment, hc, hnl]

mutual

theorem skipWs_skips : ∀ text : List Char,
    ∃ gap, Skips text (skipWs text) (skipWsL text) gap ∧ Skipped (skipWs text).isEmpty gap
  | [] => ⟨[], ⟨rfl, fun _ _ => rfl, nofun⟩, .nil⟩
  | c :: rest => by
      rw [skipWs_cons]
      by_cases hb : isBlank c = true
      · obtain ⟨gap, hskips, hgap⟩ := skipWs_skips rest
        rw [if_pos hb]
        refine ⟨c :: gap, hskips.cons c fun i line => ?_, .blank hb hgap⟩
        rw [skipWsL_cons, if_pos hb]
      · rw [if_neg hb]
        by_cases hcomment : isComment c rest = true
        · rw [if_pos hcomment]
          rcases rest with _ | ⟨d, rest⟩
          · simp [isComment] at hcomment
          obtain ⟨rfl, rfl⟩ : c = '/' ∧ d = '/' := by simpa [isComment] using hcomment
          obtain ⟨gap, hskips, hgap⟩ := skipComment_skips rest
          have hsecond : Skips ('/' :: rest) (skipComment rest)
              (fun i line => skipCommentL rest (i + 1) line) ('/' :: gap) := hskips.cons '/' fun _ _ => rfl
          refine ⟨'/' :: '/' :: gap, hsecond.cons '/' fun i line => ?_, hgap⟩
          rw [skipWsL_cons, if_neg hb, if_pos hcomment]
          rfl
        · rw [if_neg hcomment]
          refine ⟨[], ⟨rfl, fun i line => ?_, fun d rest' heq => ?_⟩, .nil⟩
          · rw [skipWsL_cons, if_neg hb, if_neg hcomment]
            rfl
          · rw [← (List.cons.inj heq).1]
            exact Bool.eq_false_iff.mpr hb

theorem skipComment_skips : ∀ text : List Char,
    ∃ gap, Skips text (skipComment text) (skipCommentL text) gap ∧
      Skipped (skipComment text).isEmpty ('/' :: '/' :: gap)
  | [] => ⟨[], ⟨rfl, fun _ _ => rfl, nofun⟩, .last rfl nofun⟩
  | c :: rest => by
      by_cases hnl : c = '\n'
      · subst hnl
        obtain ⟨gap, hskips, hgap⟩ := skipWs_skips rest
        have hws : skipComment ('\n' :: rest) = skipWs rest := by rw [skipComment, if_pos rfl]
        rw [hws]
        refine ⟨'\n' :: gap, hskips.cons '\n' fun i line => ?_, .comment [] nofun hgap⟩
        rw [skipCommentL, if_pos rfl]
        rfl
      · obtain ⟨gap, hskips, hgap⟩ := skipComment_skips rest
        have hws : skipComment (c :: rest) = skipComment rest := by rw [skipComment, if_neg hnl]
        rw [hws]
        refine ⟨c :: gap, hskips.cons c fun i line => ?_, hgap.longer hnl⟩
        rw [skipCommentL, if_neg hnl, if_neg hnl]
        rfl

end

/-! ### One token -/

/-- A reader reads a part of the text, and counts all line ends in it but those that are
`uncounted`. -/
def Spans (text : List Char) (r : Reading) : Prop :=
  ∃ span, text = span ++ r.2.1 ∧ span ≠ [] ∧ r.2.2 + uncounted r.1 span = span.count '\n'

/-- A token without a line end. -/
theorem Spans.plain (span : List Char) {t : Token} (hne : span ≠ []) (hnl : '\n' ∉ span)
    (ht : t.type ≠ .string) : Spans (span ++ rest) (t, rest, 0) := by
  refine ⟨span, rfl, hne, ?_⟩
  have hchar : span ≠ ['\'', '\n', '\''] := by
    rintro rfl
    exact hnl (by decide)
  rw [List.count_eq_zero.mpr hnl, uncounted, if_neg ht, if_neg hchar]

theorem newline_not_mem {p : Char → Bool} (hp : p '\n' = false) (text : List Char) :
    '\n' ∉ text.takeWhile p := by
  intro h
  rw [List.mem_takeWhile_imp h] at hp
  exact absurd hp nofun

theorem readNumberLit_reads (text : List Char) :
    ∃ span, text = span ++ (readNumberLit text).2 ∧ '\n' ∉ span ∧ (readNumberLit text).1.type ≠ .string ∧
      ∃ more, span = text.takeWhile Char.isDigit ++ more := by
  have hdigits := newline_not_mem (p := Char.isDigit) rfl text
  have htext := (List.takeWhile_append_dropWhile (p := Char.isDigit) (l := text)).symm
  unfold readNumberLit
  dsimp only
  split
  · rename_i d rest heq
    rw [heq] at htext
    split
    · rename_i hd
      have hfrac := newline_not_mem (p := Char.isDigit) rfl rest
      have hdnl : '\n' ≠ d := by
        rintro rfl
        exact absurd hd (by decide)
      refine ⟨text.takeWhile Char.isDigit ++ '.' :: d :: rest.takeWhile Char.isDigit, ?_, ?_, nofun, _, rfl⟩
      · rw [List.append_assoc, List.cons_append, List.cons_append, List.takeWhile_append_dropWhile]
        exact htext
      · simp [hdigits, hfrac, hdnl]
    · exact ⟨_, htext, hdigits, nofun, [], (List.append_nil _).symm⟩
  · exact ⟨_, htext, hdigits, nofun, [], (List.append_nil _).symm⟩

/-- A number, with or without its sign. -/
theorem Spans.number (sign : List Char) {t : Token} (hc : c.isDigit = true) (hsign : '\n' ∉ sign)
    (ht : t.type = (readNumberLit (c :: rest)).1.type) :
    Spans (sign ++ c :: rest) (t, (readNumberLit (c :: rest)).2, 0) := by
  obtain ⟨span, htext, hnl, hstring, more, hspan⟩ := readNumberLit_reads (c :: rest)
  rw [List.takeWhile_cons, if_pos hc] at hspan
  generalize hr : readNumberLit (c :: rest) = r at *
  rw [htext, ← List.append_assoc]
  have hne : sign ++ span ≠ [] := by simp [hspan]
  have hplain : '\n' ∉ sign ++ span := by simp [hsign, hnl]
  exact .plain _ hne hplain (by rwa [ht])

/-- What the reader of string literals has read when it is done, beyond `raw`. -/
def StringReads (raw : List Char) (lines : Nat) (text : List Char) (r : Reading) : Prop :=
  ∃ span, text = span ++ r.2.1 ∧
    ((r.1.type = .string ∧ r.2.2 + escapedNewlines span = lines + span.count '\n') ∨
      (r.1.type = .unterminated ∧ r.2.2 = (raw ++ span).count '\n'))

theorem StringReads.step (pre : List Char) (k : Nat) {raw text : List Char} {lines lines' : Nat} {r : Reading}
    (h : StringReads (raw ++ pre) lines' text r) (hk : lines' + k = lines + pre.count '\n')
    (he : ∀ span, escapedNewlines (pre ++ span) = k + escapedNewlines span) :
    StringReads raw lines (pre ++ text) r := by
  obtain ⟨span, htext, hr⟩ := h
  refine ⟨pre ++ span, by rw [List.append_assoc, ← htext], hr.imp (fun ⟨ht, hc⟩ => ⟨ht, ?_⟩)
    fun ⟨ht, hc⟩ => ⟨ht, by rw [hc, List.append_assoc]⟩⟩
  rw [he, List.count_append]
  omega

theorem escapedNewlines_cons (hc : c ≠ '\\') (span : List Char) :
    escapedNewlines (c :: span) = escapedNewlines span := by
  rw [escapedNewlines]
  exact fun _ _ h => absurd h hc

/-- A backslash and what follows it: a line end there is not counted. -/
theorem StringReads.escape {raw text : List Char} {lines : Nat} {r : Reading} {e : Char}
    (h : StringReads (raw ++ ['\\', e]) lines text r) : StringReads raw lines ('\\' :: e :: text) r := by
  refine StringReads.step ['\\', e] (if e = '\n' then 1 else 0) h ?_ fun span => ?_
  · by_cases hnl : e = '\n' <;> simp [hnl]
  · simp [escapedNewlines]

theorem hexDigit_plain {v : Nat} (h : hexDigit c = some v) : c ≠ '\\' ∧ c ≠ '\n' :=
  ⟨by rintro rfl; exact absurd h nofun, by rintro rfl; exact absurd h nofun⟩

theorem readStringLit_reads (text raw acc : List Char) (lines : Nat) :
    StringReads raw lines text (readStringLit text raw acc lines) := by
  fun_induction readStringLit text raw acc lines with
  | case1 raw acc lines => exact ⟨[], rfl, .inr ⟨rfl, by rw [List.append_nil]⟩⟩
  | case2 rest raw acc lines => exact ⟨['"'], rfl, .inl ⟨rfl, rfl⟩⟩
  | case3 raw acc lines _ => exact ⟨[], rfl, .inr ⟨rfl, by rw [List.append_nil]⟩⟩
  | case4 raw acc lines h l rest' hi lo hl hh _ ih =>
      obtain ⟨hh1, hh2⟩ := hexDigit_plain hh
      obtain ⟨hl1, hl2⟩ := hexDigit_plain hl
      refine StringReads.step ['\\', 'x', h, l] 0 ih ?_ fun span => ?_
      · simp [hh2, hl2]
      · simp [escapedNewlines, escapedNewlines_cons hh1, escapedNewlines_cons hl1]
  | case5 raw acc lines h l rest' _ _ ih => exact ih.escape
  | case6 raw acc lines rest _ _ ih => exact ih.escape
  | case7 raw acc lines e rest _ v _ _ ih => exact ih.escape
  | case8 raw acc lines e rest _ _ _ ih => exact ih.escape
  | case9 c rest raw acc lines _ hc ih =>
      refine StringReads.step [c] 0 ih ?_ fun span => ?_
      · by_cases hnl : c = '\n' <;> simp [hnl]
      · rw [List.singleton_append, escapedNewlines_cons hc, Nat.zero_add]

theorem readCharLit_reads {text : List Char} {v : BitVec 48}
    (h : readCharLit text = some (v, rest)) :
    ∃ span, text = span ++ rest ∧ (span = ['\n', '\''] ∨ '\n' ∉ span) := by
  revert h
  fun_cases readCharLit text with
  | case1 h l rest' hi lo hl hh =>
      intro heq
      obtain ⟨-, rfl⟩ := Prod.mk.inj (Option.some.inj heq)
      refine ⟨['\\', 'x', h, l, '\''], rfl, .inr ?_⟩
      simp [(hexDigit_plain hh).2.symm, (hexDigit_plain hl).2.symm]
  | case5 e rest' =>
      intro heq
      obtain ⟨w, hw, heq⟩ := Option.map_eq_some_iff.mp heq
      obtain ⟨-, rfl⟩ := Prod.mk.inj heq
      refine ⟨['\\', e, '\''], rfl, .inr ?_⟩
      have he : '\n' ≠ e := by
        rintro rfl
        exact absurd hw nofun
      simp [he]
  | case8 c rest' =>
      intro heq
      obtain ⟨-, rfl⟩ := Prod.mk.inj (Option.some.inj heq)
      refine ⟨[c, '\''], rfl, ?_⟩
      by_cases hc : c = '\n'
      · exact .inl (by rw [hc])
      · exact .inr (by simp [Ne.symm hc])
  | _ => exact nofun

theorem readQuote_reads (rest : List Char) : Spans ('\'' :: rest) (readQuote rest) := by
  unfold readQuote
  split
  · rename_i v rest' h
    obtain ⟨span, rfl, rfl | hnl⟩ := readCharLit_reads h
    · exact ⟨['\'', '\n', '\''], rfl, nofun, rfl⟩
    · exact .plain ('\'' :: span) nofun (by simp [hnl]) nofun
  · exact .plain ['\''] nofun (by decide) nofun

theorem readPair_reads {d : Char} {alone : Token} (hc : c ≠ '\n') (hd : d ≠ '\n')
    (ht : alone.type ≠ .string) : Spans (c :: rest) (readPair c d alone rest) := by
  have halone : Spans (c :: rest) (alone, rest, 0) :=
    .plain [c] nofun (by simp [hc.symm]) ht
  unfold readPair
  split
  · exact halone
  · split
    · rename_i heq
      subst heq
      exact .plain [c, _] nofun (by simp [hc.symm, hd.symm]) nofun
    · exact halone

theorem readMinus_reads (rest : List Char) : Spans ('-' :: rest) (readMinus rest) := by
  have halone : ∀ rest, Spans ('-' :: rest) (opToken ['-'], rest, 0) := fun rest =>
    .plain ['-'] nofun (by decide) nofun
  unfold readMinus
  split
  · exact halone []
  · rename_i c rest
    split
    · rename_i hc
      subst hc
      exact .plain ['-', '>'] nofun (by decide) nofun
    · split
      · rename_i hd
        refine .number ['-'] hd (by decide) ?_
        unfold negate
        split <;> rfl
      · exact halone _

theorem readBar_reads (rest : List Char) : Spans ('|' :: rest) (readBar rest) := by
  unfold readBar
  split
  · exact .plain ['|'] nofun (by decide) nofun
  · rename_i c rest
    split
    · rename_i hc
      subst hc
      exact .plain ['|', '|'] nofun (by decide) nofun
    · split
      · rename_i hc
        subst hc
        exact .plain ['|', '>'] nofun (by decide) nofun
      · exact .plain ['|'] nofun (by decide) nofun

theorem readWord_reads (rest : List Char) (hc : c ≠ '\n') :
    Spans (c :: rest) (readWord c rest) := by
  unfold readWord
  split
  · rename_i hd
    exact .number [] hd nofun rfl
  · split
    · rename_i ha
      have hident : isIdentChar c = true := by simp [isIdentChar, ha]
      have hsplit := (List.takeWhile_append_dropWhile (p := isIdentChar) (l := c :: rest)).symm
      have hne : (c :: rest).takeWhile isIdentChar ≠ [] := by simp [hident]
      have ht : (readIdent (c :: rest)).1.type ≠ .string := by
        unfold readIdent
        dsimp only
        split <;> exact nofun
      have hnl := newline_not_mem (p := isIdentChar) (by decide) (c :: rest)
      have hreads : Spans (_ ++ (c :: rest).dropWhile isIdentChar) _ := .plain _ hne hnl ht
      rwa [← hsplit] at hreads
    · exact .plain [c] nofun (by simp [hc.symm]) nofun

/-- **Every token is a part of the text**, with its line ends counted but for those that are
`uncounted`. -/
theorem readToken_reads (ws : Bool) (rest : List Char) (hc : isBlank c = false) :
    Spans (c :: rest) (readToken ws (c :: rest)) := by
  have hnl : c ≠ '\n' := by
    rintro rfl
    exact absurd hc nofun
  have hone : ∀ t : Token, t.type ≠ .string → Spans (c :: rest) (t, rest, 0) := fun t ht =>
    .plain [c] nofun (by simp [hnl.symm]) ht
  rw [readToken]
  split
  · rename_i type htype
    refine hone _ ?_
    rintro rfl
    unfold punctuation at htype
    repeat' split at htype
    all_goals exact absurd htype nofun
  · split
    · exact hone _ nofun
    split
    · rename_i hq
      rw [hq]
      exact readQuote_reads rest
    split
    · rename_i hq
      rw [hq]
      obtain ⟨span, htext, ⟨ht, hlines⟩ | ⟨ht, hlines⟩⟩ := readStringLit_reads rest [] [] 0
      · refine ⟨'"' :: span, by rw [List.cons_append, ← htext], nofun, ?_⟩
        rw [uncounted, if_pos ht, List.tail_cons, hlines]
        simp
      · refine ⟨'"' :: span, by rw [List.cons_append, ← htext], nofun, ?_⟩
        rw [uncounted, if_neg (by rw [ht]; exact nofun), hlines]
        simp
    split
    · rename_i hm
      rw [hm]
      exact readMinus_reads rest
    split
    · exact readPair_reads hnl (by decide) nofun
    split
    · exact readPair_reads hnl (by decide) nofun
    split
    · exact readPair_reads hnl (by decide) nofun
    split
    · rename_i hbar
      rw [hbar]
      exact readBar_reads rest
    split
    · exact hone _ nofun
    · exact readWord_reads rest hnl

/-! ### Columns -/

/-- The characters since the last line end. -/
def lineBefore (before : List Char) : List Char := before.reverse.takeWhile (· ≠ '\n')

theorem posLineStart_add {i : Nat} (hi : i ≤ src.length) :
    posLineStart src i + (lineBefore (src.take i)).length = i := by
  induction i with
  | zero => rfl
  | succ i ih =>
      have hlt : i < src.length := hi
      have hget : src[i]? = some src[i] := List.getElem?_eq_getElem hlt
      have hrev : (src.take (i + 1)).reverse = src[i] :: (src.take i).reverse := by
        rw [List.take_add_one, hget, Option.toList_some, List.reverse_append]
        rfl
      have ih := ih (Nat.le_of_lt hlt)
      unfold lineBefore at ih ⊢
      rw [posLineStart, hget, hrev, List.takeWhile_cons]
      by_cases hnl : src[i] = '\n'
      · simp [hnl]
      · rw [if_neg (by simpa using hnl), if_pos (by simpa using hnl), List.length_cons]
        omega

/-- A column is one more than the characters before it on its line. -/
theorem lineCol_eq {i : Nat} (hi : i ≤ src.length) :
    lineCol src i = (lineBefore (src.take i)).length + 1 := by
  have := posLineStart_add hi
  unfold lineCol
  omega

/-! ### A whole text -/

/-- The offsets at which tokens stand that follow one another. -/
def starts : Nat → List Lexeme → List Char → List (Token × Nat)
  | off, [], last => [(⟨.eof, .nil⟩, off + last.length)]
  | off, x :: rest, last => (x.token, off + x.gap.length) :: starts (off + x.text.length) rest last

/-- Lexemes and what is skipped after them are a text. -/
structure Covers (text : List Char) (xs : List Lexeme) (last : List Char) : Prop where
  text_eq : text = xs.flatMap Lexeme.text ++ last
  gaps : ∀ x ∈ xs, Skipped false x.gap ∧ x.span ≠ []
  last : Skipped true last

/-- The next token of a text: what is skipped before it, what is read and what is left. -/
structure Next (text gap span rest : List Char) (token : Token) (lines : Nat) : Prop where
  text_eq : text = gap ++ (span ++ rest)
  ne : span ≠ []
  skipped : Skipped false gap
  counted : lines + uncounted token span = span.count '\n'
  skip : skipWs text = span ++ rest
  skipL : ∀ i line, skipWsL text i line = (span ++ rest, i + gap.length, line + gap.count '\n')
  read : readToken (decide (0 < gap.length)) (span ++ rest) = (token, rest, lines)

theorem next_or_end (text : List Char) :
    (skipWs text = [] ∧ Skipped true text ∧
      ∀ i line, skipWsL text i line = ([], i + text.length, line + text.count '\n')) ∨
    ∃ gap span rest token lines, Next text gap span rest token lines := by
  obtain ⟨gap, ⟨htext, hskip, hhead⟩, hgap⟩ := skipWs_skips text
  cases hw : skipWs text with
  | nil =>
      rw [hw, List.append_nil] at htext
      rw [hw] at hskip hgap
      subst htext
      exact .inl ⟨rfl, hgap, hskip⟩
  | cons c rest =>
      obtain ⟨span, hspan, hne, hlines⟩ := readToken_reads (decide (0 < gap.length)) rest (hhead c rest hw)
      rw [hw, hspan] at htext hskip
      rw [hw] at hgap
      exact .inr ⟨gap, span, _, _, _, htext, hne, hgap, hlines, hw.trans hspan, hskip, by rw [← hspan]⟩

variable {text gap span rest : List Char} {token : Token} {lines : Nat}

theorem Next.length_lt (h : Next text gap span rest token lines) : rest.length < text.length := by
  have := List.length_pos_iff.mpr h.ne
  rw [h.text_eq, List.length_append, List.length_append]
  omega

theorem Next.lexemesLoop_eq (h : Next text gap span rest token lines) (n : Nat) :
    lexemesLoop (n + 1) text =
      (⟨gap, span, token⟩ :: (lexemesLoop n rest).1, (lexemesLoop n rest).2) := by
  obtain ⟨c, s, hcons⟩ := List.exists_cons_of_ne_nil (List.append_ne_nil_of_left_ne_nil h.ne rest)
  have hws : decide ((c :: s).length < text.length) = decide (0 < gap.length) := by
    rw [h.text_eq, ← hcons]
    simp only [List.length_append]
    exact decide_eq_decide.mpr (by omega)
  have hread := h.read
  rw [hcons] at hread
  rw [lexemesLoop, h.skip, hcons]
  simp only [hws, hread]
  rw [← hcons, upTo_append, h.text_eq, upTo_append]

theorem Next.tokenizePosLoop_eq (h : Next text gap span rest token lines) (src : List Char) (n i line : Nat) :
    tokenizePosLoop src (n + 1) text i line =
      (token, mkPos src (i + gap.length) (line + gap.count '\n')) ::
        tokenizePosLoop src n rest (i + gap.length + span.length) (line + gap.count '\n' + lines) := by
  obtain ⟨c, s, hcons⟩ := List.exists_cons_of_ne_nil (List.append_ne_nil_of_left_ne_nil h.ne rest)
  have hws : decide (i < i + gap.length) = decide (0 < gap.length) := decide_eq_decide.mpr (by omega)
  have hlen : (c :: s).length - rest.length = span.length := by
    rw [← hcons, List.length_append, Nat.add_sub_cancel]
  have hread := h.read
  rw [hcons] at hread
  rw [tokenizePosLoop, h.skipL, hcons]
  simp only [hws, hread, hlen]

theorem lexemesLoop_covers {n : Nat} {text : List Char} (hn : text.length < n) :
    Covers text (lexemesLoop n text).1 (lexemesLoop n text).2 := by
  induction n generalizing text with
  | zero => exact absurd hn (Nat.not_lt_zero _)
  | succ n ih =>
      rcases next_or_end text with ⟨hw, hskip, -⟩ | ⟨gap, span, rest, token, lines, h⟩
      · simp only [lexemesLoop, hw]
        exact ⟨rfl, nofun, hskip⟩
      · obtain ⟨heq, hgaps, hlast⟩ := ih (Nat.lt_of_lt_of_le h.length_lt (Nat.le_of_lt_succ hn))
        rw [h.lexemesLoop_eq]
        refine ⟨?_, fun x hx => ?_, hlast⟩
        · rw [List.flatMap_cons, List.append_assoc, ← heq, Lexeme.text, List.append_assoc]
          exact h.text_eq
        · rcases List.mem_cons.mp hx with rfl | hx
          · exact ⟨h.skipped, h.ne⟩
          · exact hgaps x hx

/-- **The loop over a text**: offsets are those of the lexemes, and lines are counted right
exactly if no line end goes uncounted.  `before` is what has been read, and `short` are the
line ends in it that went uncounted. -/
theorem tokenizePosLoop_true {n : Nat} {text before : List Char} {line short : Nat}
    (hn : text.length < n) (hsrc : src = before ++ text)
    (hline : line + short = 1 + before.count '\n') :
    (tokenizePosLoop src n text before.length line).map (fun t => (t.1, t.2.off)) =
        starts before.length (lexemesLoop n text).1 (lexemesLoop n text).2 ∧
      (∀ t ∈ tokenizePosLoop src n text before.length line,
        t.2.off ≤ src.length ∧ t.2.col = lineCol src t.2.off) ∧
      ((∀ t ∈ tokenizePosLoop src n text before.length line,
          t.2.line = 1 + (src.take t.2.off).count '\n') ↔
        short = 0 ∧ ∀ x ∈ (lexemesLoop n text).1, x.uncounted = 0) := by
  induction n generalizing text before line short with
  | zero => exact absurd hn (Nat.not_lt_zero _)
  | succ n ih =>
      rcases next_or_end text with ⟨hw, hskip, hl⟩ | ⟨gap, span, rest, token, lines, h⟩
      · have hend : before.length + text.length = src.length := by rw [hsrc, List.length_append]
        simp only [tokenizePosLoop, lexemesLoop, hw, hl, mkPos, hend, List.mem_singleton]
        refine ⟨by rw [starts, hend]; rfl, ?_, ?_⟩
        · rintro t rfl
          exact ⟨Nat.le_refl _, rfl⟩
        · rw [forall_eq, List.take_length, hsrc, List.count_append]
          dsimp only
          exact ⟨fun h => ⟨by omega, nofun⟩, fun ⟨h, _⟩ => by omega⟩
      · have hbefore : src = (before ++ gap ++ span) ++ rest := by
          rw [hsrc, h.text_eq]
          simp only [List.append_assoc]
        have hlen : (before ++ gap ++ span).length = before.length + gap.length + span.length := by
          simp only [List.length_append]
        have hcount := h.counted
        obtain ⟨hoffs, hcols, hlines⟩ := @ih rest (before ++ gap ++ span)
          (line + gap.count '\n' + lines) (short + uncounted token span)
          (Nat.lt_of_lt_of_le h.length_lt (Nat.le_of_lt_succ hn)) hbefore
          (by simp only [List.count_append]; omega)
        rw [hlen] at hoffs hcols hlines
        rw [h.lexemesLoop_eq, h.tokenizePosLoop_eq]
        refine ⟨?_, fun t ht => ?_, ?_⟩
        · rw [List.map_cons, hoffs, starts, Lexeme.text, List.length_append, ← Nat.add_assoc]
          rfl
        · rcases List.mem_cons.mp ht with rfl | ht
          · refine ⟨?_, rfl⟩
            rw [hbefore, List.length_append, hlen]
            show before.length + gap.length ≤ _
            omega
          · exact hcols t ht
        · -- The token itself is short by what was missed before it, the rest by its own too.
          have htake : src.take (before.length + gap.length) = before ++ gap := by
            rw [hbefore, List.append_assoc, ← List.length_append, List.take_left]
          rw [List.forall_mem_cons, List.forall_mem_cons, hlines]
          simp only [mkPos, htake, List.count_append, Lexeme.uncounted]
          exact ⟨fun ⟨hhead, hshort, hrest⟩ => ⟨by omega, by omega, hrest⟩,
            fun ⟨hshort, hspan, hrest⟩ => ⟨by omega, by omega, hrest⟩⟩

/-- The tokens are those of the loop that keeps no positions. -/
theorem tokenizeLoop_eq {n : Nat} {text : List Char} :
    tokenizeLoop n text = (lexemesLoop n text).1.map Lexeme.token ++ [⟨.eof, .nil⟩] := by
  induction n generalizing text with
  | zero => rfl
  | succ n ih =>
      rw [tokenizeLoop, lexemesLoop]
      cases skipWs text with
      | nil => rfl
      | cons c rest =>
          dsimp only
          rw [ih, List.map_cons, List.cons_append]

theorem starts_tokens (off : Nat) (xs : List Lexeme) (last : List Char) :
    (starts off xs last).map Prod.fst = xs.map Lexeme.token ++ [⟨.eof, .nil⟩] := by
  induction xs generalizing off with
  | nil => rfl
  | cons x xs ih => rw [starts, List.map_cons, ih, List.map_cons, List.cons_append]

/-- **Positions are true** exactly if no token has a line end that goes uncounted.  The tokens
of a text with what is skipped between them are the text, and blanks and comments are all that
is skipped; the tokens with positions are those without, and the offset of each is that of its
text; the column of a position is one more than the characters since the last line end before
the offset.  The line of every position is one more than the line ends before the offset if no
line end goes uncounted, and only then. -/
theorem positions_true (text : List Char) :
    Covers text (lexemes text).1 (lexemes text).2 ∧
    (tokenizePos text).map Prod.fst = tokenize text ∧
    (tokenizePos text).map (fun t => (t.1, t.2.off)) = starts 0 (lexemes text).1 (lexemes text).2 ∧
    (∀ t ∈ tokenizePos text, t.2.off ≤ text.length ∧
      t.2.col = (lineBefore (text.take t.2.off)).length + 1) ∧
    ((∀ t ∈ tokenizePos text, t.2.line = 1 + (text.take t.2.off).count '\n') ↔
      ∀ x ∈ (lexemes text).1, x.uncounted = 0) := by
  obtain ⟨hoffs, hcols, hlines⟩ := @tokenizePosLoop_true text (text.length + 1) text [] 1 0
    (Nat.lt_succ_self _) rfl rfl
  have htokens : (tokenizePos text).map Prod.fst = tokenize text := by
    have hfst := congrArg (List.map Prod.fst) hoffs
    rw [List.map_map, starts_tokens, ← tokenizeLoop_eq] at hfst
    exact hfst
  refine ⟨lexemesLoop_covers (Nat.lt_succ_self _), htokens, hoffs, fun t ht => ?_,
    hlines.trans (and_iff_right rfl)⟩
  obtain ⟨hin, hcol⟩ := hcols t ht
  exact ⟨hin, hcol.trans (lineCol_eq hin)⟩

/-- A string literal of two lines, a comment and a name. -/
def twoLines : List Char := "\"a\nb\" // c\n x".toList

example : tokenizePos twoLines = [(⟨.string, .str "a\nb".toList⟩, ⟨1, 1, 0⟩),
    (⟨.ident, .str ['x']⟩, ⟨3, 2, 12⟩), (⟨.eof, .nil⟩, ⟨3, 3, 13⟩)] := by
  decide +kernel

/-- A line end after a backslash in a string literal, and one that is a character literal,
are not counted: the name that follows is on the second line, and is said to be on the
first. -/
theorem line_not_counted :
    tokenizePos "\"\\\n\" x".toList =
      [(⟨.string, .str "\\\n".toList⟩, ⟨1, 1, 0⟩), (⟨.ident, .str ['x']⟩, ⟨1, 3, 5⟩), (⟨.eof, .nil⟩, ⟨1, 4, 6⟩)] ∧
    ("\"\\\n\" x".toList.take 5).count '\n' = 1 ∧
    tokenizePos "'\n' x".toList =
      [(⟨.int, .int 10⟩, ⟨1, 1, 0⟩), (⟨.ident, .str ['x']⟩, ⟨1, 3, 4⟩), (⟨.eof, .nil⟩, ⟨1, 4, 5⟩)] ∧
    ("'\n' x".toList.take 4).count '\n' = 1 := by
  refine ⟨?_, ?_, ?_, ?_⟩ <;> decide +kernel

end TinyActor.Front
