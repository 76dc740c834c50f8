/-
The connection loop and the requests of its stream.

A request is a head, the empty line and as many bytes as its length field says.  The loop takes
chunks until the bytes hold a request, and starts the next round with the reader it was given:
the bytes that came in with the end of one request are not there for the next one.  `Rounds`
says which requests the chunks of a connection are read as; the requests that were sent are
served exactly if they are these.
-/
import TinyActor.Proofs.Bufio
import TinyActor.Proofs.Dict
import TinyActor.Proofs.Head

namespace TinyActor.Stdlib.Http

open Lib

/-! ### Cutting at one byte -/

variable {c : UInt8} {l : Bytes}

theorem indexOf_byte (h : c ∉ l) (m : Bytes) : Str.indexOf (l ++ c :: m) [c] = l.length :=
  Str.indexOf_of_some (firstOcc_at [] h m)

theorem indexOf_byte_none (h : c ∉ l) : Str.indexOf l [c] = -1 :=
  Str.indexOf_of_none (firstOcc_of_notMem [] h)

theorem substr_before (l m : Bytes) : Str.substr (l ++ m) 0 l.length = l := by
  rw [Str.substr_take _ rfl, List.take_left]

theorem substr_behind (l : Bytes) (c : UInt8) (m : Bytes) :
    Str.substr (l ++ c :: m) (l.length + 1) (Str.length (l ++ c :: m) - l.length - 1) = m := by
  have hlen : (l ++ c :: m).length = l.length + 1 + m.length := by
    rw [List.length_append, List.length_cons]
    omega
  rw [Str.length_eq, Str.substr_drop (l ++ c :: m) (i := l.length + 1) (by omega) (by omega)
    (by omega), ← List.drop_drop, List.drop_left]
  rfl

theorem span_cut (h : c ∉ l) (m : Bytes) :
    (l ++ c :: m).takeWhile (· ≠ c) = l ∧ (l ++ c :: m).dropWhile (· ≠ c) = c :: m := by
  have hl : ∀ x ∈ l, decide (x ≠ c) = true := by
    intro x hx
    refine decide_eq_true ?_
    rintro rfl
    exact h hx
  rw [List.takeWhile_append_of_pos hl, List.dropWhile_append_of_pos hl]
  simp

theorem span_no_cut (h : c ∉ l) : l.takeWhile (· ≠ c) = l ∧ l.dropWhile (· ≠ c) = [] := by
  have hl : ∀ x ∈ l, decide (x ≠ c) = true := by
    intro x hx
    refine decide_eq_true ?_
    rintro rfl
    exact h hx
  exact ⟨List.takeWhile_eq_self_iff.mpr hl, List.dropWhile_eq_nil_iff.mpr hl⟩

/-! ### Heads -/

variable {more : List Bytes} {line rest acc d : Bytes}

/-- A field line is cut at its first colon; one without a colon, or with the colon first, is
none. -/
def field (line : Bytes) : Option (Bytes × Bytes) :=
  if 58 ∈ line ∧ line.takeWhile (· ≠ 58) ≠ [] then
    some (Str.trim (line.takeWhile (· ≠ 58)), Str.trim ((line.dropWhile (· ≠ 58)).drop 1))
  else none

/-- The fields of a head, in their order. -/
def fields (more : List Bytes) : List (Bytes × Bytes) := more.filterMap field

/-- A stream is a head, the empty line and the bytes behind it. -/
structure Splits (bytes line : Bytes) (more : List Bytes) (rest : Bytes) : Prop where
  lines : Lines line more
  eq : bytes = headText line more ++ (headEnd ++ rest)

theorem pairOf_eq_field (line : Bytes) : Str.pairOf (ascii ":") line = field line := by
  have hcolon : ascii ":" = [58] := by decide
  by_cases h : 58 ∈ line
  · obtain ⟨l, m, rfl, hl⟩ := List.eq_append_cons_of_mem h
    have hocc : firstOcc (ascii ":") (l ++ 58 :: m) = some l.length := firstOcc_at [] hl m
    rw [field, (span_cut hl m).1, (span_cut hl m).2, Str.pairOf, hocc]
    cases l with
    | nil => simp
    | cons c l =>
        have hcut : (c :: l ++ 58 :: m).drop (l.length + 1 + 1) = m := by
          rw [← List.drop_drop, ← List.length_cons, List.drop_left]
          rfl
        have htake : (c :: l ++ 58 :: m).take (l.length + 1) = c :: l := by
          rw [← List.length_cons, List.take_left]
        rw [if_pos ⟨h, List.cons_ne_nil c l⟩, List.length_cons, hcolon]
        simp only [htake, List.length_cons, List.length_nil, Nat.zero_add, hcut]
        rfl
  · have hocc : firstOcc (ascii ":") line = none := by
      rw [hcolon]
      exact firstOcc_of_notMem [] h
    rw [field, if_neg (fun hc => h hc.1), Str.pairOf, hocc]

/-- The first line and the fields of a head, as `parse_head` cuts them out. -/
theorem parseHead_cut (h : Unbroken line more) :
    (if Str.indexOf (headText line more) crlf < 0 then headText line more
      else Str.substr (headText line more) 0 (Str.indexOf (headText line more) crlf)) = line ∧
    Str.pairs (if Str.indexOf (headText line more) crlf < 0 then []
      else Str.substr (headText line more) (Str.indexOf (headText line more) crlf + 2)
        (Str.length (headText line more) - Str.indexOf (headText line more) crlf - 2))
      crlf (ascii ":") = fields more := by
  cases more with
  | nil =>
      have hidx : Str.indexOf (headText line []) crlf = -1 := by
        rw [headText, List.flatMap_nil, List.append_nil]
        exact Str.indexOf_of_none (firstOcc_crlf_single h.first)
      rw [hidx, if_pos (by omega), if_pos (by omega)]
      exact ⟨by simp [headText], rfl⟩
  | cons l more =>
      have hidx : Str.indexOf (headText line (l :: more)) crlf = line.length := by
        rw [headText_cons]
        exact Str.indexOf_of_some (firstOcc_crlf_cons h.first _)
      have hlen : (headText line (l :: more)).length =
          line.length + 2 + (headText l more).length := by
        rw [headText_cons, crlf_eq]
        simp only [List.length_append, List.length_cons, List.length_nil]
        omega
      have hcut : Str.substr (headText line (l :: more)) (line.length + 2)
          (Str.length (headText line (l :: more)) - line.length - 2) = headText l more := by
        rw [Str.length_eq, Str.substr_drop _ (i := line.length + 2) (by omega) (by omega)
          (by omega), headText_cons, ← List.drop_drop, List.drop_left, crlf_eq]
        rfl
      rw [hidx, if_neg (by omega), if_neg (by omega), hcut, pairs_headText h.tail]
      refine ⟨by rw [headText_cons]; exact substr_before _ _, ?_⟩
      exact List.filterMap_congr fun x _ => pairOf_eq_field x

theorem exists_splits {bytes : Bytes} (h : headEnd <:+: bytes) :
    ∃ line more rest, Splits bytes line more rest := by
  cases hocc : firstOcc headEnd bytes with
  | none => exact absurd h (firstOcc_eq_none.mp hocc)
  | some i =>
      have hle := firstOcc_le hocc
      have hsplit := firstOcc_split hocc
      rw [List.append_assoc] at hsplit
      have hlen : (bytes.take i).length = i := by
        rw [List.length_take]
        omega
      have hfirst : firstOcc headEnd
          (bytes.take i ++ (headEnd ++ bytes.drop (i + headEnd.length))) =
          some (bytes.take i).length := by
        rw [← hsplit, hlen]
        exact hocc
      obtain ⟨line, more, hlines, heq⟩ := exists_lines _ _ hfirst
      exact ⟨line, more, _, hlines, by rw [← heq]; exact hsplit⟩

/-- There is only one way to cut. -/
theorem Splits.unique {bytes rest line' rest' : Bytes} {more' : List Bytes}
    (h : Splits bytes line more rest) (h' : Splits bytes line' more' rest') :
    line = line' ∧ more = more' ∧ rest = rest' := by
  have hlen : (headText line more).length = (headText line' more').length := by
    have hocc := firstOcc_headEnd h.lines rest
    have hocc' := firstOcc_headEnd h'.lines rest'
    rw [← h.eq] at hocc
    rw [← h'.eq, hocc] at hocc'
    exact Option.some.inj hocc'
  obtain ⟨hhead, htail⟩ := List.append_inj (h.eq.symm.trans h'.eq) hlen
  have hlines := lines_headText h.lines.unbroken (length_le_headText line more)
  have hlines' := lines_headText h'.lines.unbroken (length_le_headText line' more')
  rw [hhead, hlines'] at hlines
  obtain ⟨rfl, rfl⟩ := List.cons.inj hlines
  exact ⟨rfl, rfl, List.append_cancel_left htail⟩

theorem Splits.append (h : Splits acc line more rest) (d : Bytes) :
    Splits (acc ++ d) line more (rest ++ d) :=
  ⟨h.lines, by rw [h.eq]; simp only [List.append_assoc]⟩

theorem Splits.infix (h : Splits acc line more rest) : headEnd <:+: acc :=
  ⟨headText line more, rest, by rw [h.eq, List.append_assoc]⟩

theorem Splits.firstOcc (h : Splits acc line more rest) :
    firstOcc headEnd acc = some (headText line more).length := by
  rw [h.eq]
  exact firstOcc_headEnd h.lines rest

/-! ### Requests on the wire -/

def lower (c : UInt8) : UInt8 := if 65 ≤ c ∧ c ≤ 90 then c + 32 else c

/-- The name of the field that gives the length of the body; case does not matter in it. -/
def IsLength (name : Bytes) : Prop := name.map lower = contentLength.map lower

instance (name : Bytes) : Decidable (IsLength name) :=
  inferInstanceAs (Decidable (_ = _))

/-- A request as it stands on the wire.  A field is its name and what stands behind the
colon. -/
structure WireRequest where
  method : Bytes
  target : Bytes
  version : Bytes
  fields : List (Bytes × Bytes)
  body : Bytes

namespace WireRequest

def requestLine (w : WireRequest) : Bytes :=
  w.method ++ 32 :: (w.target ++ 32 :: w.version)

def fieldLine (f : Bytes × Bytes) : Bytes := f.1 ++ (ascii ":" ++ f.2)

def head (w : WireRequest) : Bytes := headText w.requestLine (w.fields.map fieldLine)

def bytes (w : WireRequest) : Bytes := w.head ++ (headEnd ++ w.body)

/-- The fields with the blanks around their values taken off. -/
def values (w : WireRequest) : List (Bytes × Bytes) := w.fields.map fun f => (f.1, Str.trim f.2)

/-- The request a handler is to be given: the target split at its question mark. -/
def request (w : WireRequest) : Request where
  method := w.method
  path := w.target.takeWhile (· ≠ 63)
  query := (w.target.dropWhile (· ≠ 63)).drop 1
  headers := Dict.strFromList w.values
  body := w.body

/-- A well-formed request: its parts do not contain what separates them, every length field is
the decimal length of the body, and without one there is no body. -/
structure WellFormed (w : WireRequest) : Prop where
  method : w.method ≠ [] ∧ 32 ∉ w.method ∧ NoBreak w.method
  target : 32 ∉ w.target ∧ NoBreak w.target
  version : NoBreak w.version
  fields : ∀ f ∈ w.fields, f.1 ≠ [] ∧ 58 ∉ f.1 ∧ (∀ c ∈ f.1, Str.isAsciiSpace c = false) ∧
    NoBreak f.2
  framed : ∀ f ∈ w.fields, IsLength f.1 → Str.IsDecimal (Str.trim f.2) w.body.length
  unframed : (∀ f ∈ w.fields, ¬ IsLength f.1) → w.body = []

/-- The length field is spelled the one way the server knows, and the length is a number of
the language. -/
structure Plain (w : WireRequest) : Prop where
  spelled : ∀ f ∈ w.fields, IsLength f.1 → f.1 = contentLength
  fits : w.body.length < 2 ^ 47

end WireRequest

/-- The request a head asks for: the request line is cut at its first two spaces, and the target
at its question mark. -/
def asked (line : Bytes) (more : List Bytes) (body : Bytes) : Option Request :=
  let after := (line.dropWhile (· ≠ 32)).drop 1
  let target := after.takeWhile (· ≠ 32)
  if 32 ∈ line ∧ line.takeWhile (· ≠ 32) ≠ [] ∧ 32 ∈ after then
    some ⟨line.takeWhile (· ≠ 32), target.takeWhile (· ≠ 63), (target.dropWhile (· ≠ 63)).drop 1,
      Dict.strFromList (fields more), body⟩
  else none

/-- The length of the body: what the length field says, if there is one. -/
def bodyLength (more : List Bytes) : Int :=
  match (Dict.strFromList (fields more)).get contentLength with
  | some v => Str.toInt v
  | none => 0

/-- The bytes begin with a whole request. -/
def Holds (bytes : Bytes) (req : Request) : Prop :=
  ∃ line more rest, Splits bytes line more rest ∧ bodyLength more ≤ rest.length ∧
    asked line more (rest.take (bodyLength more).toNat) = some req

/-- A round, from the bytes there are and the signals to come: chunks are taken until the bytes
hold a request.  What else they hold is lost.  When the stream ends without an empty line, its
last bytes are taken for a head. -/
inductive Round : Bytes → List Signal → Request → List Signal → Prop
  | whole {acc : Bytes} {src : List Signal} {req : Request} (h : Holds acc req) :
      Round acc src req src
  | wait {acc : Bytes} {src rest : List Signal} {req : Request} (hno : ∀ q, ¬ Holds acc q)
      (h : Round acc src req rest) : Round acc (.notReady :: src) req rest
  | more {acc d : Bytes} {src rest : List Signal} {req : Request} (hno : ∀ q, ¬ Holds acc q)
      (h : Round (acc ++ d) src req rest) : Round acc (.data d :: src) req rest
  | ended {acc line rest : Bytes} {more : List Bytes} {req : Request} (hne : acc ≠ [])
      (hend : ¬ headEnd <:+: acc) (h : Splits (acc ++ headEnd) line more rest)
      (hlen : bodyLength more ≤ 0) (hreq : asked line more [] = some req) : Round acc [] req []

theorem asked_body (line : Bytes) (more : List Bytes) (b b' : Bytes) :
    asked line more b = (asked line more b').map fun q => { q with body := b } := by
  simp only [asked]
  split <;> rfl

theorem Holds.unique {q q' : Request} (h : Holds acc q) (h' : Holds acc q') : q = q' := by
  obtain ⟨line, more, rest, hs, -, hq⟩ := h
  obtain ⟨line', more', rest', hs', -, hq'⟩ := h'
  obtain ⟨rfl, rfl, rfl⟩ := hs.unique hs'
  exact Option.some.inj (hq.symm.trans hq')

/-! ### One round of the loop -/

theorem parseRequestLine_eq (line hdrs body : Bytes)
    (h : Str.pairs hdrs crlf (ascii ":") = fields more) :
    parseRequestLine line hdrs body = asked line more body := by
  have hspace : ascii " " = [32] := by decide
  have hmark : ascii "?" = [63] := by decide
  by_cases hline : 32 ∈ line
  · obtain ⟨method, after, rfl, hmethod⟩ := List.eq_append_cons_of_mem hline
    simp only [parseRequestLine, asked, hspace, hmark, indexOf_byte hmethod, substr_before,
      substr_behind, (span_cut hmethod after).1, (span_cut hmethod after).2, List.drop_succ_cons,
      List.drop_zero, hline, h]
    cases method with
    | nil => simp
    | cons c method =>
        rw [if_neg (by simp only [List.length_cons]; omega)]
        by_cases hafter : 32 ∈ after
        · obtain ⟨target, version, rfl, htarget⟩ := List.eq_append_cons_of_mem hafter
          rw [indexOf_byte htarget, if_neg (by omega), (span_cut htarget version).1,
            if_pos (And.intro trivial ⟨List.cons_ne_nil c method, hafter⟩), substr_before]
          by_cases hq : 63 ∈ target
          · obtain ⟨path, query, rfl, hpath⟩ := List.eq_append_cons_of_mem hq
            rw [indexOf_byte hpath, if_neg (by omega), if_neg (by omega), substr_before,
              substr_behind, (span_cut hpath query).1, (span_cut hpath query).2]
            rfl
          · rw [indexOf_byte_none hq, if_pos (by omega), if_pos (by omega), (span_no_cut hq).1,
              (span_no_cut hq).2]
            rfl
        · rw [indexOf_byte_none hafter, if_pos (by omega), if_neg fun hc => hafter hc.2.2]
  · simp only [parseRequestLine, asked, hspace, indexOf_byte_none hline]
    rw [if_pos (by omega), if_neg fun hc => hline hc.1]

/-- `parse_request` on bytes with an empty line. -/
theorem parseRequest_splits (h : Splits acc line more rest) :
    parseRequest acc = asked line more rest := by
  have hhead : Str.substr acc 0 ((headText line more).length : Int) = headText line more := by
    rw [h.eq]
    exact substr_before _ _
  have hlen : acc.length = (headText line more).length + 4 + rest.length := by
    rw [h.eq, headEnd_eq]
    simp only [List.length_append, List.length_cons, List.length_nil]
    omega
  have hbody : Str.substr acc ((headText line more).length + 4)
      (Str.length acc - (headText line more).length - 4) = rest := by
    rw [Str.length_eq, Str.substr_drop _ (i := (headText line more).length + 4) (by omega) (by omega)
      (by omega), h.eq, ← List.drop_drop, List.drop_left, headEnd_eq]
    rfl
  obtain ⟨hfirst, hpairs⟩ := parseHead_cut h.lines.unbroken
  simp only [parseRequest, Str.indexOf_of_some h.firstOcc, hhead, hbody]
  rw [if_neg (by omega)]
  by_cases hnl : Str.indexOf (headText line more) crlf < 0
  · rw [if_pos hnl] at hfirst hpairs ⊢
    rw [parseRequestLine_eq _ _ _ hpairs, hfirst]
  · rw [if_neg hnl] at hfirst hpairs ⊢
    rw [parseRequestLine_eq _ _ _ hpairs, hfirst]

open Bufio

variable {src : List Signal} {req : Request}

theorem asked_headers {b : Bytes} (h : asked line more b = some req) :
    req.headers = Dict.strFromList (fields more) := by
  simp only [asked] at h
  split at h
  · cases h
    rfl
  · cases h

/-- The body is read behind a head that asks for something. -/
def readBody (line : Bytes) (more : List Bytes) (rest : Bytes) (src : List Signal) :
    Option Request × List Signal :=
  match asked line more [] with
  | none => (none, src)
  | some req =>
      match readExact (bodyLength more) ⟨rest⟩ src with
      | (.ok ⟨some b, _⟩, src) => (some { req with body := b }, src)
      | (_, src) => (none, src)

/-- `read_request`, once the head is read and parsed. -/
theorem readRequest_parsed {r : Reader} {src' : List Signal} {head b : Bytes}
    (hread : readUntil headEnd r src = (.ok ⟨some head, ⟨rest⟩⟩, src'))
    (hparse : parseRequest (head ++ headEnd) = asked line more b) :
    readRequest r src = readBody line more rest src' := by
  rw [asked_body line more b []] at hparse
  simp only [readRequest, hread, Str.concat_eq, hparse, readBody]
  cases hask : asked line more [] with
  | none => rfl
  | some req =>
      simp only [Option.map_some, asked_headers hask, bodyLength]
      cases (Dict.strFromList (fields more)).get contentLength with
      | none => simp only [readExact_none (Int.le_refl 0)]
      | some v => rfl

theorem readRequest_splits (h : Splits acc line more rest) (src : List Signal) :
    readRequest ⟨acc⟩ src = readBody line more rest src := by
  have hhead : acc.take (headText line more).length = headText line more := by
    rw [h.eq, List.take_left]
  have hrest : acc.drop ((headText line more).length + headEnd.length) = rest := by
    rw [h.eq, ← List.drop_drop, List.drop_left, List.drop_left]
  refine readRequest_parsed ?_ (parseRequest_splits ⟨h.lines, by rw [List.append_nil]⟩)
  rw [readUntil_hit (r := ⟨acc⟩) h.firstOcc, hhead, hrest]

theorem Holds.read (h : Holds acc req) (src : List Signal) :
    readRequest ⟨acc⟩ src = (some req, src) := by
  obtain ⟨line, more, rest, hs, hlen, hask⟩ := h
  rw [asked_body line more _ [], Option.map_eq_some_iff] at hask
  obtain ⟨q, hq, rfl⟩ := hask
  simp only [readRequest_splits hs, readBody, hq]
  by_cases hpos : bodyLength more ≤ 0
  · rw [readExact_none hpos, Int.toNat_of_nonpos hpos, List.take_zero]
  · obtain ⟨n, hn⟩ := Int.eq_ofNat_of_zero_le (by omega : 0 ≤ bodyLength more)
    rw [hn] at hlen hpos ⊢
    rw [readExact_hit (by omega) (Int.ofNat_le.mp hlen)]
    rfl

/-- A head that asks for nothing. -/
def Dead (bytes : Bytes) : Prop :=
  ∃ line more rest, Splits bytes line more rest ∧ asked line more [] = none

theorem Dead.append (h : Dead acc) (d : Bytes) : Dead (acc ++ d) := by
  obtain ⟨line, more, rest, hs, hask⟩ := h
  exact ⟨line, more, rest ++ d, hs.append d, hask⟩

theorem Dead.read (h : Dead acc) (src : List Signal) : readRequest ⟨acc⟩ src = (none, src) := by
  obtain ⟨line, more, rest, hs, hask⟩ := h
  simp only [readRequest_splits hs, readBody, hask]

/-- A head that asks for a request the bytes do not hold: the body is not there yet. -/
theorem waiting (hno : ∀ q, ¬ Holds acc q) (hdead : ¬ Dead acc) (hs : Splits acc line more rest) :
    ∃ q, asked line more [] = some q ∧ ∃ n : Nat, bodyLength more = n ∧ rest.length < n := by
  cases hask : asked line more [] with
  | none => exact absurd ⟨line, more, rest, hs, hask⟩ hdead
  | some q =>
      have hshort : (rest.length : Int) < bodyLength more := by
        refine Int.not_le.mp fun hle => hno { q with body := rest.take (bodyLength more).toNat } ?_
        exact ⟨line, more, rest, hs, hle, by rw [asked_body line more _ [], hask]; rfl⟩
      exact ⟨q, rfl, (bodyLength more).toNat, by omega, by omega⟩

theorem Holds.round {q : Request} (h : Holds acc q) {rest : List Signal} :
    Round acc src req rest ↔ (some q, src) = (some req, rest) := by
  constructor
  · intro hr
    cases hr with
    | whole h' => rw [h.unique h']
    | wait hno => exact absurd h (hno q)
    | more hno => exact absurd h (hno q)
    | ended hne hend =>
        obtain ⟨line, more, rest, hs, -⟩ := h
        exact absurd hs.infix hend
  · intro heq
    cases heq
    exact .whole h

theorem Round.clean {rest : List Signal} (h : Round acc src req rest) (hsrc : Clean src) :
    Clean rest := by
  induction h with
  | whole h => exact hsrc
  | wait hno h ih => exact ih fun s hs => hsrc s (List.mem_cons_of_mem _ hs)
  | more hno h ih => exact ih fun s hs => hsrc s (List.mem_cons_of_mem _ hs)
  | ended => exact hsrc

end TinyActor.Stdlib.Http
