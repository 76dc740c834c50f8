/-
Reading a response.

What a response has to be is said by the stream alone, cut at its empty line: `Sent`.  The
reader goes by a head that need not be one, for a stream without an empty line is taken for a
head when it ends; by the number `str.to_int` makes of a text, which is lenient; and by one
spelling of the length field.  So a stream it does not refuse is read as sent exactly if it has
an empty line, its status is a plain number, and the length it gives is the number of bytes
the reader takes.
-/
import TinyActor.Proofs.Http

namespace TinyActor.Stdlib.Http

open Lib Bufio

/-! ### What a head says -/

/-- A status line: the version, the status and possibly a reason, with spaces between. -/
def StatusLine (line version code : Bytes) : Prop :=
  version ≠ [] ∧ 32 ∉ version ∧ 32 ∉ code ∧
    (line = version ++ 32 :: code ∨ ∃ reason, line = version ++ 32 :: (code ++ 32 :: reason))

/-- The status a line gives: a decimal number, and not zero. -/
def HasStatus (line : Bytes) (status : Nat) : Prop :=
  ∃ version code, StatusLine line version code ∧ Str.IsDecimal code status ∧ 0 < status

/-- The length a head gives: the last length field is the one that counts. -/
def HasLength (more : List Bytes) (n : Nat) : Prop :=
  ∃ pre f post, fields more = pre ++ f :: post ∧ IsLength f.1 ∧ (∀ g ∈ post, ¬ IsLength g.1) ∧
    Str.IsDecimal f.2 n

/-- The headers hold every field, the last one of each name. -/
def HasHeaders (more : List Bytes) (headers : Headers) : Prop :=
  Represents Str.strCmp headers (Bindings.ofList Str.strCmp (fields more))

/-- **What a response that was read has to be.**  The stream has an empty line; before it stand
the status and the headers, and behind it the body: as many bytes as the head says, which are
there, or all of them if it does not say. -/
structure Sent (stream : Bytes) (resp : Response) : Prop where
  whole : headEnd <:+: stream
  parts : ∀ line more rest, Splits stream line more rest →
    (∃ status, HasStatus line status ∧ resp.status = (status : Nat)) ∧ HasHeaders more resp.headers ∧
      ((∃ n, HasLength more n ∧ n ≤ rest.length ∧ resp.body = rest.take n) ∨
        (∀ f ∈ fields more, ¬ IsLength f.1) ∧ resp.body = rest)

/-! ### What the reader goes by -/

/-- The head the reader goes by is what stands before the empty line, or else all there is. -/
inductive Head (stream : Bytes) : Bytes → List Bytes → Bytes → Prop
  | whole {line rest : Bytes} {more : List Bytes} (h : Splits stream line more rest) :
      Head stream line more rest
  | broken {line : Bytes} {more : List Bytes} (hend : ¬ headEnd <:+: stream) (hne : stream ≠ [])
      (hlines : Unbroken line more) (h : stream = headText line more) : Head stream line more []

/-- The value of the last length field that is spelled the one way the client knows. -/
def Given (more : List Bytes) (v : Bytes) : Prop :=
  ∃ pre post, fields more = pre ++ (contentLength, v) :: post ∧ ∀ g ∈ post, g.1 ≠ contentLength

/-- How many bytes are taken for the body. -/
def Takes (more : List Bytes) (rest : Bytes) (n : Nat) : Prop :=
  (∃ v, Given more v ∧ n = (Str.toInt v).toNat) ∨
    (∀ f ∈ fields more, f.1 ≠ contentLength) ∧ n = rest.length

/-- The streams that are errors: no status above zero, a transfer encoding, or a length that
goes beyond the end. -/
inductive Refused (line : Bytes) (more : List Bytes) (rest : Bytes) : Prop
  | status (h : ∀ version code, StatusLine line version code → Str.toInt code ≤ 0)
  | encoded {f : Bytes × Bytes} (hf : f ∈ fields more) (h : f.1 = transferEncoding)
  | short {v : Bytes} (hv : Given more v) (h : (rest.length : Int) < Str.toInt v)

/-- The numbers of a head are what they are taken for. -/
structure Plain (line : Bytes) (more : List Bytes) (rest : Bytes) : Prop where
  status : ∃ version code n, StatusLine line version code ∧ Str.IsDecimal code n ∧ n < 2 ^ 47
  length : (∀ f ∈ fields more, ¬ IsLength f.1) ∨ ∃ n, HasLength more n ∧ Takes more rest n

/-! ### Parsing a head -/

variable {more : List Bytes} {line v : Bytes}

/-- A line is cut at its spaces in one way. -/
theorem statusLine_unique {v' c c' : Bytes} (h : StatusLine line v c) (h' : StatusLine line v' c') :
    c = c' := by
  have hcode : ∀ {v c : Bytes}, StatusLine line v c →
      c = ((line.dropWhile (· ≠ 32)).drop 1).takeWhile (· ≠ 32) := by
    rintro v c ⟨-, hv, hc, rfl | ⟨reason, rfl⟩⟩
    · rw [(span_cut hv _).2]
      exact (span_no_cut hc).1.symm
    · rw [(span_cut hv _).2]
      exact (span_cut hc _).1.symm
  rw [hcode h, hcode h']

theorem exists_statusLine {m : Bytes} (hne : v ≠ []) (hv : 32 ∉ v) :
    ∃ code, StatusLine (v ++ 32 :: m) v code := by
  by_cases hm : 32 ∈ m
  · obtain ⟨code, reason, rfl, hcode⟩ := List.eq_append_cons_of_mem hm
    exact ⟨code, hne, hv, hcode, Or.inr ⟨reason, rfl⟩⟩
  · exact ⟨m, hne, hv, hm, Or.inl rfl⟩

/-- `parse_head` on a head with a status line. -/
theorem parseHead_status {version code : Bytes} (h : Unbroken line more)
    (hs : StatusLine line version code) :
    parseHead (headText line more) =
      if Str.toInt code ≤ 0 then none
      else some (Str.toInt code, Dict.strFromList (fields more)) := by
  have hspace : ascii " " = [32] := by decide
  obtain ⟨hne, hv, hc, hsplit⟩ := hs
  have hpos : 0 < version.length := List.length_pos_iff.mpr hne
  obtain ⟨hfirst, hrest⟩ := parseHead_cut h
  simp only [parseHead, hfirst, hrest, hspace]
  rcases hsplit with rfl | ⟨reason, rfl⟩
  · have hfront : ¬ ((version.length : Int) ≤ 0) := by omega
    simp only [indexOf_byte hv, if_neg hfront, substr_behind, indexOf_byte_none hc]
    rfl
  · have hfront : ¬ ((version.length : Int) ≤ 0) := by omega
    have hback : ¬ ((code.length : Int) < 0) := by omega
    simp only [indexOf_byte hv, if_neg hfront, substr_behind, indexOf_byte hc, if_neg hback,
      substr_before]

/-- `parse_head` on a head without one. -/
theorem parseHead_none (h : Unbroken line more)
    (hno : ∀ version code, ¬ StatusLine line version code) :
    parseHead (headText line more) = none := by
  have hspace : ascii " " = [32] := by decide
  obtain ⟨hfirst, -⟩ := parseHead_cut h
  have hidx : Str.indexOf line [32] ≤ 0 := by
    by_cases hmem : 32 ∈ line
    · obtain ⟨v, m, rfl, hv⟩ := List.eq_append_cons_of_mem hmem
      rw [indexOf_byte hv]
      by_contra hpos
      have hne : v ≠ [] := by
        rintro rfl
        exact hpos (Int.le_refl 0)
      obtain ⟨code, hcode⟩ := exists_statusLine (m := m) hne hv
      exact hno v code hcode
    · rw [indexOf_byte_none hmem]
      omega
  simp only [parseHead, hfirst, hspace]
  rw [if_pos hidx]

/-! ### The fields a client looks up -/

theorem get_headers {name : Bytes} (h : (Dict.strFromList (fields more)).get name = some v) :
    ∃ pre post, fields more = pre ++ (name, v) :: post ∧ ∀ g ∈ post, g.1 ≠ name := by
  obtain ⟨p, ⟨pre, post, heq, hlast⟩, hz, rfl⟩ :=
    ((Represents.fromList Str.strCmp (fields more)).get name v).mp h
  obtain rfl : name = p.1 := Str.cmp_eq_zero.mp hz
  refine ⟨pre, post, heq, ?_⟩
  intro g hg hname
  exact hlast g hg (Str.cmp_eq_zero.mpr hname.symm)

theorem get_headers_none {name : Bytes} (h : (Dict.strFromList (fields more)).get name = none) :
    ∀ f ∈ fields more, f.1 ≠ name := by
  intro f hf hname
  obtain ⟨p, hp, hz⟩ := Bindings.exists_ofList (C := Str.strCmp) hf
  rw [hname] at hz
  have hsome := ((Represents.fromList Str.strCmp (fields more)).get name p.2).mpr
    ⟨p, hp, hz, rfl⟩
  have hnone : (Dict.fromList (fields more) Str.strCmp.cmp).get name = none := h
  rw [hnone] at hsome
  cases hsome

/-- What the client finds under the length field is the value given, and there is only one. -/
theorem get_length : (Dict.strFromList (fields more)).get contentLength = some v ↔ Given more v := by
  refine ⟨get_headers, ?_⟩
  rintro ⟨pre, post, heq, hlast⟩
  refine ((Represents.fromList Str.strCmp (fields more)).get contentLength v).mpr
    ⟨(contentLength, v), ⟨pre, post, heq, ?_⟩, Str.cmp_eq_zero.mpr rfl, rfl⟩
  intro g hg hz
  exact hlast g hg (Str.cmp_eq_zero.mp hz).symm

/-! ### A body up to the end of the stream -/

theorem readAvailable_empty_end : readAvailable ⟨[]⟩ [] = (.ok ⟨none, ⟨[]⟩⟩, []) := rfl

/-- Everything that is buffered and everything that still comes is the body. -/
theorem unframedBody_clean (status : Int) (headers : Headers) {src : List Signal}
    (hsrc : Clean src) (r : Reader) (acc : Bytes) {k : Nat} (hk : src.length + 2 ≤ k) :
    unframedBody k r src status headers acc =
      some (.ok ⟨status, headers, acc ++ (r.acc ++ chunks src)⟩) := by
  induction src generalizing r acc k with
  | nil =>
      obtain ⟨k, rfl⟩ : ∃ m, k = m + 2 := ⟨k - 2, by simp only [List.length_nil] at hk; omega⟩
      cases hr : r.acc with
      | nil =>
          have hread : readAvailable r [] = (.ok ⟨none, ⟨[]⟩⟩, []) := by
            rw [readAvailable, hr]
            rfl
          rw [unframedBody, hread]
          simp
      | cons c cs =>
          have hread : readAvailable r [] = (.ok ⟨some (c :: cs), ⟨[]⟩⟩, []) := by
            rw [readAvailable, hr, eofData, if_pos (by simp only [Str.length_eq, List.length_cons]; omega)]
          rw [unframedBody, hread]
          simp only [unframedBody, readAvailable_empty_end, Str.concat_eq]
          simp
  | cons s src ih =>
      rw [List.length_cons] at hk
      obtain ⟨k, rfl⟩ : ∃ m, k = m + 1 := ⟨k - 1, by omega⟩
      rcases hsrc.head with rfl | ⟨d, rfl⟩
      · cases hr : r.acc with
        | nil =>
            have hread : readAvailable r (.notReady :: src) = readAvailable r src := by
              rw [readAvailable, hr, if_neg (by simp)]
            have hsame : unframedBody (k + 1) r (.notReady :: src) status headers acc =
                unframedBody (k + 1) r src status headers acc := by
              rw [unframedBody, hread, unframedBody]
            rw [hsame, ih hsrc.tail r acc (by omega), hr]
            rfl
        | cons c cs =>
            have hread : readAvailable r (.notReady :: src) =
                (.ok ⟨some (c :: cs), ⟨[]⟩⟩, src) := by
              rw [readAvailable, hr, if_pos (by simp only [Str.length_eq, List.length_cons]; omega)]
            rw [unframedBody, hread]
            simp only
            rw [ih hsrc.tail _ _ (by omega)]
            simp
      · have hread : readAvailable r (.data d :: src) =
            (.ok ⟨some (r.acc ++ d), ⟨[]⟩⟩, src) := rfl
        rw [unframedBody, hread]
        simp only
        rw [ih hsrc.tail _ _ (by omega)]
        simp

/-- A body of a length that was given. -/
theorem framedBody_clean {g : List Signal} (hg : Clean g) {buf rest : Bytes} (hrest : buf ++ chunks g = rest)
    (status : Int) (headers : Headers) (n : Int) :
    framedBody ⟨buf⟩ g status headers n =
      if n ≤ rest.length then .ok ⟨status, headers, rest.take n.toNat⟩
      else .error (.badResponse "truncated body") := by
  subst hrest
  by_cases hn : n ≤ 0
  · have hfits : n ≤ ((buf ++ chunks g).length : Int) := by omega
    rw [framedBody, readExact_none hn, if_pos hfits, Int.toNat_of_nonpos hn]
    rfl
  · obtain ⟨m, rfl⟩ := Int.eq_ofNat_of_zero_le (show 0 ≤ n by omega)
    by_cases hm : m ≤ (buf ++ chunks g).length
    · obtain ⟨g', rest', -, hexact, -⟩ := readExact_clean hg hm []
      rw [List.append_nil] at hexact
      rw [framedBody, hexact, if_pos (by omega)]
      rfl
    · have hshort : (buf ++ chunks g).length < m := by omega
      rw [framedBody, readExact_clean_short hg hshort, if_neg (by omega)]

/-! ### The response reader -/

/-- The head is read whole, and what is left is the rest of the stream. -/
theorem readUntil_splits {src : List Signal} (hsrc : Clean src) {rest : Bytes}
    (h : Splits (chunks src) line more rest) :
    ∃ g buf, Clean g ∧ g.length ≤ src.length ∧ buf ++ chunks g = rest ∧
      readUntil headEnd readerNew src = (.ok ⟨some (headText line more), ⟨buf⟩⟩, g) := by
  have hocc : firstOcc headEnd ([] ++ chunks src) = some (headText line more).length := by
    rw [List.nil_append, h.eq]
    exact firstOcc_headEnd h.lines rest
  obtain ⟨g, buf, hg, hread, hrest⟩ := readUntil_clean hsrc hocc []
  rw [List.append_nil, List.append_nil, List.nil_append, h.eq, List.take_left] at hread
  refine ⟨g, buf, hg, ?_, ?_, hread⟩
  · obtain ⟨took, htook, -⟩ := call_balances (.until headEnd) readerNew src
    rw [Call.run, readerNew, hread] at htook
    rw [htook, List.length_append]
    exact Nat.le_add_left _ _
  · rw [hrest, List.nil_append, h.eq, ← List.append_assoc, ← List.length_append, List.drop_left]

theorem exists_head {stream : Bytes} (hne : stream ≠ []) : ∃ line more rest, Head stream line more rest := by
  by_cases hend : headEnd <:+: stream
  · obtain ⟨line, more, rest, h⟩ := exists_splits hend
    exact ⟨line, more, rest, .whole h⟩
  · obtain ⟨line, more, hlines, h⟩ := exists_headText stream
    exact ⟨line, more, [], .broken hend hne hlines h⟩

theorem Head.unbroken {stream rest : Bytes} (h : Head stream line more rest) : Unbroken line more := by
  cases h with
  | whole h => exact h.lines.unbroken
  | broken _ _ hlines _ => exact hlines

/-- The head is what `read_until` gives, and what is left is the rest of the stream. -/
theorem Head.readUntil {src : List Signal} (hsrc : Clean src) {rest : Bytes}
    (h : Head (chunks src) line more rest) :
    ∃ g buf, Clean g ∧ g.length ≤ src.length ∧ buf ++ chunks g = rest ∧
      readUntil headEnd readerNew src = (.ok ⟨some (headText line more), ⟨buf⟩⟩, g) := by
  cases h with
  | whole h => exact readUntil_splits hsrc h
  | broken hend hne _ h =>
      have hnone : firstOcc headEnd ([] ++ chunks src) = none := firstOcc_eq_none.mpr hend
      have hread := readUntil_clean_end hsrc hnone
      have hsome : eofData ([] ++ chunks src) = some (headText line more) := by
        rw [List.nil_append, eofData, ← h, if_pos]
        have := List.length_pos_iff.mpr hne
        rw [Str.length_eq]
        omega
      exact ⟨[], [], Clean.nil, Nat.zero_le _, rfl, by rw [← hsome]; exact hread⟩

/-- **What the reader gives**, from the head it goes by. -/
theorem Head.readResponse {src : List Signal} (hsrc : Clean src) {rest : Bytes}
    (h : Head (chunks src) line more rest) {k : Nat} (hk : src.length + 2 ≤ k) :
    (Refused line more rest ∧ ∃ e, readResponse k readerNew src = some (.error e)) ∨
      ¬ Refused line more rest ∧ ∃ version code n, StatusLine line version code ∧
        0 < Str.toInt code ∧ Takes more rest n ∧ n ≤ rest.length ∧ readResponse k readerNew src =
          some (.ok ⟨Str.toInt code, Dict.strFromList (fields more), rest.take n⟩) := by
  obtain ⟨g, buf, hg, hglen, hbuf, hread⟩ := h.readUntil hsrc
  by_cases hstatus : ∃ version code, StatusLine line version code ∧ 0 < Str.toInt code
  · obtain ⟨version, code, hs, hpos⟩ := hstatus
    have hparse := parseHead_status h.unbroken hs
    rw [if_neg (by omega)] at hparse
    have hst : ¬ ∀ v' c', StatusLine line v' c' → Str.toInt c' ≤ 0 := fun hall =>
      absurd (hall version code hs) (by omega)
    cases hte : (Dict.strFromList (fields more)).get transferEncoding with
    | some v =>
        obtain ⟨pre, post, heq, -⟩ := get_headers hte
        have hmem : (transferEncoding, v) ∈ fields more := by
          rw [heq]
          exact List.mem_append_right _ (List.mem_cons_self ..)
        exact .inl ⟨.encoded hmem rfl, .badResponse "chunked transfer-encoding not supported", by
          simp only [Http.readResponse, hread, hparse, hte]⟩
    | none =>
        have hplain := get_headers_none hte
        cases hlen : (Dict.strFromList (fields more)).get contentLength with
        | none =>
            have hno := get_headers_none hlen
            have hbody := unframedBody_clean (Str.toInt code) (Dict.strFromList (fields more)) hg ⟨buf⟩ []
              (k := k) (by omega)
            rw [List.nil_append, hbuf] at hbody
            refine .inr ⟨fun href => ?_, version, code, rest.length, hs, hpos, .inr ⟨hno, rfl⟩,
              Nat.le_refl _, ?_⟩
            · cases href with
              | status hall => exact hst hall
              | encoded hf hname => exact hplain _ hf hname
              | short hv _ =>
                  rw [get_length.mpr hv] at hlen
                  cases hlen
            · simp only [Http.readResponse, hread, hparse, hte, hlen, hbody, List.take_length]
        | some v =>
            have hgiven := get_length.mp hlen
            have hresult : Http.readResponse k readerNew src =
                some (framedBody ⟨buf⟩ g (Str.toInt code) (Dict.strFromList (fields more)) (Str.toInt v)) := by
              simp only [Http.readResponse, hread, hparse, hte, hlen]
            rw [framedBody_clean hg hbuf] at hresult
            by_cases hfits : Str.toInt v ≤ rest.length
            · rw [if_pos hfits] at hresult
              refine .inr ⟨fun href => ?_, version, code, _, hs, hpos, .inl ⟨v, hgiven, rfl⟩,
                by omega, hresult⟩
              cases href with
              | status hall => exact hst hall
              | encoded hf hname => exact hplain _ hf hname
              | short hv hlong =>
                  have hsame := hlen.symm.trans (get_length.mpr hv)
                  rw [← Option.some.inj hsame] at hlong
                  omega
            · rw [if_neg hfits] at hresult
              exact .inl ⟨.short hgiven (by omega), _, hresult⟩
  · have hall : ∀ version code, StatusLine line version code → Str.toInt code ≤ 0 := by
      intro version code hs
      by_contra hpos
      exact hstatus ⟨version, code, hs, by omega⟩
    have hparse : parseHead (headText line more) = none := by
      by_cases hline : ∃ version code, StatusLine line version code
      · obtain ⟨version, code, hs⟩ := hline
        rw [parseHead_status h.unbroken hs, if_pos (hall version code hs)]
      · exact parseHead_none h.unbroken fun v c hs => hline ⟨v, c, hs⟩
    exact .inl ⟨.status hall, .badResponse "malformed status line", by
      simp only [Http.readResponse, hread, hparse]⟩

/-- A response was not refused. -/
theorem Head.accepted {src : List Signal} (hsrc : Clean src) {rest : Bytes}
    (h : Head (chunks src) line more rest) {k : Nat} (hk : src.length + 2 ≤ k) {resp : Response}
    (hres : Http.readResponse k readerNew src = some (.ok resp)) :
    ¬ Refused line more rest ∧ ∃ version code n, StatusLine line version code ∧
      0 < Str.toInt code ∧ Takes more rest n ∧ n ≤ rest.length ∧
      resp = ⟨Str.toInt code, Dict.strFromList (fields more), rest.take n⟩ := by
  rcases h.readResponse hsrc hk with ⟨-, e, herr⟩ | ⟨hno, version, code, n, hs, hpos, ht, hn, hok⟩
  · rw [hres] at herr
    cases herr
  · rw [hres] at hok
    exact ⟨hno, version, code, n, hs, hpos, ht, hn, Except.ok.inj (Option.some.inj hok)⟩

/-- Where nothing was sent there is no response. -/
theorem readResponse_empty {src : List Signal} (hsrc : Clean src) (hempty : chunks src = []) (k : Nat) :
    readResponse k readerNew src = some (.error (.badResponse "no complete head before eof")) := by
  have hnone : firstOcc headEnd ([] ++ chunks src) = none := by
    rw [hempty]
    decide
  have hread := readUntil_clean_end hsrc hnone
  have heof : eofData ([] ++ chunks src) = none := by
    rw [hempty]
    rfl
  rw [heof] at hread
  simp only [readResponse, readerNew, hread]

theorem Takes.unique {rest : Bytes} {n n' : Nat} (h : Takes more rest n) (h' : Takes more rest n') :
    n = n' := by
  have hnot : ∀ {v}, Given more v → ¬ ∀ f ∈ fields more, f.1 ≠ contentLength := by
    rintro v ⟨pre, post, heq, -⟩ hall
    exact hall (contentLength, v) (by rw [heq]; exact List.mem_append_right _ (List.mem_cons_self ..)) rfl
  rcases h with ⟨v, hv, rfl⟩ | ⟨hno, rfl⟩
  · rcases h' with ⟨v', hv', rfl⟩ | ⟨hno, -⟩
    · have hsame := (get_length.mpr hv).symm.trans (get_length.mpr hv')
      rw [Option.some.inj hsame]
    · exact absurd hno (hnot hv)
  · rcases h' with ⟨v', hv', -⟩ | ⟨-, rfl⟩
    · exact absurd hno (hnot hv')
    · rfl

/-- An accepted response is as it was sent exactly if its numbers are plain. -/
theorem parts_iff_plain {version code rest : Bytes} {n : Nat} (hs : StatusLine line version code)
    (hpos : 0 < Str.toInt code) (htakes : Takes more rest n) (hn : n ≤ rest.length) :
    ((∃ status, HasStatus line status ∧ Str.toInt code = (status : Nat)) ∧
      ((∃ m, HasLength more m ∧ m ≤ rest.length ∧ rest.take n = rest.take m) ∨
        (∀ f ∈ fields more, ¬ IsLength f.1) ∧ rest.take n = rest)) ↔ Plain line more rest := by
  constructor
  · rintro ⟨⟨status, ⟨version', code', hs', hdec, -⟩, heq⟩, hbody⟩
    obtain rfl := statusLine_unique hs hs'
    refine ⟨⟨version, code, status, hs, hdec, ?_⟩, ?_⟩
    · have := Str.toInt_lt code
      omega
    · rcases hbody with ⟨m, hlen, hm, htake⟩ | ⟨hno, -⟩
      · right
        have hsame : n = m := by
          have := congrArg List.length htake
          rw [List.length_take, List.length_take] at this
          omega
        exact ⟨n, hsame ▸ hlen, htakes⟩
      · exact .inl hno
  · rintro ⟨⟨version', code', m, hs', hdec, hm⟩, hlength⟩
    obtain rfl := statusLine_unique hs hs'
    have hint := Str.toInt_of_isDecimal hdec hm
    refine ⟨⟨m, ⟨version, code, hs, hdec, by omega⟩, hint⟩, ?_⟩
    rcases hlength with hno | ⟨m', hlen, htakes'⟩
    · right
      refine ⟨hno, ?_⟩
      rcases htakes with ⟨v, ⟨pre, post, heq, -⟩, -⟩ | ⟨-, hall⟩
      · exact absurd rfl (hno (contentLength, v) (by rw [heq]; exact List.mem_append_right _ (List.mem_cons_self ..)))
      · rw [hall, List.take_length]
    · left
      have hsame : m' = n := Takes.unique htakes' htakes
      exact ⟨m', hlen, by omega, by rw [hsame]⟩

/--
**A response is read as it was sent**, on which streams.

The stream is any bytes, cut into chunks in any way and ended anywhere.  Reading it ends; it
gives a response exactly if there are bytes and the head the reader goes by is not refused; and
what it gives is as it was sent, an error included, exactly if that head is refused, or is
whole and its numbers are plain.
-/
theorem response_read_as_sent (src : List Signal) (hsrc : Clean src) (k : Nat)
    (hk : src.length + 2 ≤ k) :
    ∃ result, readResponse k readerNew src = some result ∧
      ((∃ resp, result = .ok resp) ↔
        ∃ line more rest, Head (chunks src) line more rest ∧ ¬ Refused line more rest) ∧
      ((∀ resp, result = .ok resp → Sent (chunks src) resp) ↔
        ∀ line more rest, Head (chunks src) line more rest →
          Refused line more rest ∨ Splits (chunks src) line more rest ∧ Plain line more rest) := by
  have hhead : ∀ {resp}, readResponse k readerNew src = some (.ok resp) →
      ∃ line more rest, Head (chunks src) line more rest := by
    intro resp hres
    refine exists_head fun hempty => ?_
    rw [readResponse_empty hsrc hempty] at hres
    cases hres
  obtain ⟨result, hres⟩ : ∃ result, readResponse k readerNew src = some result := by
    by_cases hempty : chunks src = []
    · exact ⟨_, readResponse_empty hsrc hempty k⟩
    · obtain ⟨line, more, rest, h⟩ := exists_head hempty
      rcases h.readResponse hsrc hk with ⟨-, e, herr⟩ | ⟨-, _, _, _, -, -, -, -, hok⟩
      · exact ⟨_, herr⟩
      · exact ⟨_, hok⟩
  refine ⟨result, hres, ⟨?_, ?_⟩, ⟨?_, ?_⟩⟩
  · rintro ⟨resp, rfl⟩
    obtain ⟨line, more, rest, h⟩ := hhead hres
    exact ⟨line, more, rest, h, (h.accepted hsrc hk hres).1⟩
  · rintro ⟨line, more, rest, h, hno⟩
    rcases h.readResponse hsrc hk with ⟨href, -⟩ | ⟨-, _, _, _, -, -, -, -, hok⟩
    · exact absurd href hno
    · exact ⟨_, Option.some.inj (hres.symm.trans hok)⟩
  · intro hsent line more rest h
    rcases h.readResponse hsrc hk with ⟨href, -⟩ | ⟨-, version, code, n, hs, hpos, ht, hn, hok⟩
    · exact .inl href
    · have hsent := hsent _ (Option.some.inj (hres.symm.trans hok))
      cases h with
      | broken hend _ _ _ => exact absurd hsent.whole hend
      | whole hsplit =>
          obtain ⟨hstatus, -, hbody⟩ := hsent.parts line more rest hsplit
          exact .inr ⟨hsplit, (parts_iff_plain hs hpos ht hn).mp ⟨hstatus, hbody⟩⟩
  · rintro hall resp rfl
    refine ⟨?_, fun line more rest hsplit => ?_⟩
    · obtain ⟨line, more, rest, h⟩ := hhead hres
      rcases hall line more rest h with href | ⟨hsplit, -⟩
      · exact absurd href (h.accepted hsrc hk hres).1
      · exact ⟨headText line more, rest, by rw [hsplit.eq, List.append_assoc]⟩
    · obtain ⟨hno, version, code, n, hs, hpos, ht, hn, rfl⟩ := (Head.whole hsplit).accepted hsrc hk hres
      rcases hall line more rest (.whole hsplit) with href | ⟨-, hplain⟩
      · exact absurd href hno
      · obtain ⟨hstatus, hbody⟩ := (parts_iff_plain hs hpos ht hn).mpr hplain
        exact ⟨hstatus, Represents.fromList Str.strCmp (fields more), hbody⟩

/-- A response with a body of two bytes, cut in the middle of a field name. -/
theorem response_read_as_sent_ok :
    ∃ result, readResponse 5 readerNew
        [.data (ascii "HTTP/1.1 200 OK\r\nContent-"), .notReady,
          .data (ascii "Length: 2\r\n\r\nhi")] = some result ∧
      ∀ resp, result = .ok resp → Sent (ascii "HTTP/1.1 200 OK\r\nContent-Length: 2\r\n\r\nhi") resp := by
  obtain ⟨result, hres, -, hsent⟩ := response_read_as_sent
    [.data (ascii "HTTP/1.1 200 OK\r\nContent-"), .notReady, .data (ascii "Length: 2\r\n\r\nhi")]
    (by simp [Clean]) 5 (by decide)
  refine ⟨result, hres, hsent.mpr fun line more rest h => .inr ?_⟩
  have hsplit : Splits (ascii "HTTP/1.1 200 OK\r\nContent-Length: 2\r\n\r\nhi") (ascii "HTTP/1.1 200 OK")
      [ascii "Content-Length: 2"] (ascii "hi") :=
    ⟨⟨by decide, by decide⟩, by decide⟩
  cases h with
  | broken hend _ _ _ => exact absurd (by decide) hend
  | whole h =>
      obtain ⟨rfl, rfl, rfl⟩ := hsplit.unique h
      refine ⟨h, ⟨ascii "HTTP/1.1", ascii "200", 200, ?_, by decide +kernel, by decide⟩, .inr ⟨2, ?_, .inl ?_⟩⟩
      · exact ⟨by decide, by decide, by decide, .inr ⟨ascii "OK", by decide⟩⟩
      · exact ⟨[], (contentLength, ascii "2"), [], by decide, rfl, by simp, by decide +kernel⟩
      · exact ⟨ascii "2", ⟨[], [], by decide, by simp⟩, by decide +kernel⟩

/-- Status and body of a response that was read. -/
def outcomeOf (result : Option (Except HttpErr Response)) : Option (Int × Bytes) :=
  match result with
  | some (.ok resp) => some (resp.status, resp.body)
  | _ => none

/-- **A stream that stops inside the head is read as a whole response**, and so is one whose
length is no number or a negative one. -/
theorem broken_response_accepted :
    outcomeOf (readResponse 9 readerNew [.data (ascii "HTTP/1.1 200 OK\r\nContent-Le")]) =
      some (200, []) ∧
    outcomeOf (readResponse 9 readerNew
      [.data (ascii "HTTP/1.1 200 OK\r\nContent-Length: abc\r\n\r\nhi")]) = some (200, []) ∧
    outcomeOf (readResponse 9 readerNew
      [.data (ascii "HTTP/1.1 200 OK\r\nContent-Length: -5\r\n\r\nhi")]) = some (200, []) := by
  refine ⟨by decide +kernel, by decide +kernel, by decide +kernel⟩

end TinyActor.Stdlib.Http
