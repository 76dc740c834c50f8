/-
Flags come back as they were given.

A legal assignment, in one token or in two, takes the loop past its tokens and binds
its flag; nothing in a value is looked at before the flag has been found, so values
may look like flags, like the terminator or like anything else.  The bindings are
then the defaults with the assignments put over them, in order.

The one name that cannot be given in two tokens is the empty one: its first token is
`--`, which ends the flags.
-/
import TinyActor.Proofs.Dict
import TinyActor.Proofs.Strconv
import TinyActor.Stdlib.Arg

namespace TinyActor.Stdlib.Arg

open Lib

variable {spec : List Flag} {flags : Dict Bytes Value} {pos : List Bytes} {f : Flag}
  {name text : Bytes}

/-! ### Bindings -/

/-- The dictionary is in order. -/
def Kept (d : Dict Bytes Value) : Prop := ∃ B, Represents Str.strCmp d B

theorem kept_new : Kept Dict.strNew := ⟨_, Represents.new Str.strCmp⟩

theorem Kept.insert {d : Dict Bytes Value} (h : Kept d) (k : Bytes) (v : Value) :
    Kept (d.insert k v) := by
  obtain ⟨B, hB⟩ := h
  exact ⟨_, hB.insert k v⟩

theorem Kept.get_insert {d : Dict Bytes Value} (h : Kept d) (k k' : Bytes) (v : Value) :
    (d.insert k v).get k' = if k = k' then some v else d.get k' := by
  obtain ⟨B, hB⟩ := h
  ext w
  rw [(hB.insert k v).get k' w]
  by_cases hk : k = k'
  · subst hk
    rw [if_pos rfl]
    constructor
    · rintro ⟨p, hp | ⟨-, hne⟩, hz, rfl⟩
      · rw [hp]
      · exact absurd hz hne
    · intro hv
      exact ⟨(k, v), .inl rfl, Str.cmp_eq_zero.mpr rfl, Option.some.inj hv⟩
  · rw [if_neg hk, hB.get k' w]
    constructor
    · rintro ⟨p, hp | ⟨hp, -⟩, hz, hw⟩
      · have hkey : k' = p.1 := Str.cmp_eq_zero.mp hz
        rw [hp] at hkey
        exact absurd hkey.symm hk
      · exact ⟨p, hp, hz, hw⟩
    · rintro ⟨p, hp, hz, hw⟩
      have hkey : k' = p.1 := Str.cmp_eq_zero.mp hz
      refine ⟨p, .inr ⟨hp, fun hz' => hk ?_⟩, hz, hw⟩
      rw [hkey]
      exact Str.cmp_eq_zero.mp hz'

/-- The value a key has after the bindings, which come one after the other. -/
def lastValue (k : Bytes) (start : Option Value) (l : List (Bytes × Value)) : Option Value :=
  l.foldl (fun acc p => if p.1 = k then some p.2 else acc) start

def bindAll (d : Dict Bytes Value) (l : List (Bytes × Value)) : Dict Bytes Value :=
  l.foldl (fun d p => d.insert p.1 p.2) d

theorem kept_bindAll {d : Dict Bytes Value} (h : Kept d) (l : List (Bytes × Value)) :
    Kept (bindAll d l) := by
  induction l generalizing d with
  | nil => exact h
  | cons p l ih => exact ih (h.insert p.1 p.2)

theorem Kept.get_bindAll {d : Dict Bytes Value} (h : Kept d) (l : List (Bytes × Value))
    (k : Bytes) : (bindAll d l).get k = lastValue k (d.get k) l := by
  induction l generalizing d with
  | nil => rfl
  | cons p l ih =>
      rw [bindAll, List.foldl_cons, ← bindAll, ih (h.insert p.1 p.2), h.get_insert]
      rfl

theorem lastValue_eq (k : Bytes) (v : Value) (l : List (Bytes × Value)) :
    lastValue k (some v) l = some ((lastValue k none l).getD v) := by
  induction l using List.reverseRecOn with
  | nil => rfl
  | append_singleton l p ih =>
      simp only [lastValue, List.foldl_append, List.foldl_cons, List.foldl_nil] at ih ⊢
      split
      · rfl
      · exact ih

/-! ### Specifications -/

/-- Names are distinct, have no equals sign and no dash in front. -/
structure Legal (spec : List Flag) : Prop where
  distinct : (spec.map Flag.name).Nodup
  plain : ∀ f ∈ spec, 61 ∉ f.name ∧ f.name.head? ≠ some 45

theorem kindOf_mem (hd : (spec.map Flag.name).Nodup) (hf : f ∈ spec) :
    kindOf spec f.name = some f.kind := by
  induction spec with
  | nil => cases hf
  | cons g spec ih =>
      rw [kindOf]
      obtain ⟨hg, hd'⟩ := List.nodup_cons.mp hd
      rcases List.mem_cons.mp hf with rfl | hf
      · rw [if_pos rfl]
      · have hne : g.name ≠ f.name := fun heq => hg (heq ▸ List.mem_map_of_mem hf)
        rw [if_neg hne, ih hd' hf]

/-- The defaults, as bindings. -/
def defaults (spec : List Flag) : List (Bytes × Value) := spec.map fun f => (f.name, f.default)

theorem defaultFlags_eq (spec : List Flag) : defaultFlags spec = bindAll Dict.strNew (defaults spec) := by
  rw [defaultFlags, bindAll, defaults, List.foldl_map]

theorem lastValue_defaults (hd : (spec.map Flag.name).Nodup) (hf : f ∈ spec) (start : Option Value) :
    lastValue f.name start (defaults spec) = some f.default := by
  induction spec generalizing start with
  | nil => cases hf
  | cons g spec ih =>
      obtain ⟨hg, hd'⟩ := List.nodup_cons.mp hd
      rcases List.mem_cons.mp hf with rfl | hf
      · -- no later flag has the name
        have hrest : ∀ (l : List Flag) (start : Option Value), f.name ∉ l.map Flag.name →
            lastValue f.name start (defaults l) = start := by
          intro l
          induction l with
          | nil => exact fun _ _ => rfl
          | cons g l ih =>
              intro start hl
              simp only [List.map_cons, List.mem_cons, not_or] at hl
              rw [defaults, List.map_cons, lastValue, List.foldl_cons, if_neg (Ne.symm hl.1)]
              exact ih start hl.2
        rw [defaults, List.map_cons, lastValue, List.foldl_cons, if_pos rfl]
        exact hrest spec _ hg
      · rw [defaults, List.map_cons, lastValue, List.foldl_cons]
        exact ih hd' hf _

/-! ### Tokens -/

/-- The token of a flag, without and with a value. -/
def dashed (name : Bytes) : Bytes := 45 :: 45 :: name

theorem isFlag_dashed (body : Bytes) : isFlag (dashed body) = true := by
  simp [isFlag, dashed, Str.charAt]

theorem body_dashed (body : Bytes) :
    Str.substr (dashed body) (dashCount (dashed body)) (Str.length (dashed body)) = body := by
  have hcount : dashCount (dashed body) = (2 : Nat) := rfl
  rw [Str.substr_rest _ (by simp [dashed]) hcount]
  rfl

theorem indexOf_equals (h : 61 ∉ name) (text : Bytes) :
    Str.indexOf (name ++ 61 :: text) [61] = name.length :=
  Str.indexOf_of_some (firstOcc_at [] h text)

/-- The text writes the value, for a flag of the kind. -/
inductive Writes : Bytes → Bytes → Value → Prop
  | true : Writes (ascii "bool") (ascii "true") (.bool true)
  | false : Writes (ascii "bool") (ascii "false") (.bool false)
  | int {text : Bytes} {n : Int} (h : Str.IsInt text n) (hn : -2 ^ 47 ≤ n ∧ n < 2 ^ 47) :
      Writes (ascii "int") text (.int n)
  | str (text : Bytes) : Writes (ascii "string") text (.str text)

theorem Writes.convert {kind : Bytes} {v : Value} (h : Writes kind text v) (name : Bytes) :
    convert kind name text = .ok v := by
  cases h with
  | true => rfl
  | false => rfl
  | int h hn =>
      rw [Arg.convert, if_neg (by decide), if_pos rfl, (Strconv.strToInt_ten _ _).mpr ⟨h, hn⟩]
  | str => rfl

/-- An assignment: a flag, a text and the value it writes, in one token or in two. -/
structure Assign where
  flag : Flag
  text : Bytes
  value : Value
  split : Bool

def Assign.tokens (a : Assign) : List Bytes :=
  if a.split then [dashed a.flag.name, a.text] else [dashed (a.flag.name ++ 61 :: a.text)]

/-- The flag is one of the specification and the text writes the value; two tokens
are for flags that are not boolean and have a name. -/
structure Assign.Legal (spec : List Flag) (a : Assign) : Prop where
  known : a.flag ∈ spec
  writes : Writes a.flag.kind a.text a.value
  split : a.split = true → a.flag.kind ≠ ascii "bool" ∧ a.flag.name ≠ []

def Assign.binding (a : Assign) : Bytes × Value := (a.flag.name, a.value)

/-- A value given to a known flag is bound. -/
theorem withRawValue_legal (hl : Legal spec) {a : Assign} (ha : a.Legal spec) :
    withRawValue spec flags a.flag.name a.text = .ok (flags.insert a.flag.name a.value) := by
  rw [withRawValue, kindOf_mem hl.distinct ha.known]
  dsimp only
  rw [ha.writes.convert]

/-- A flag with an equals sign. -/
theorem parseFlag_equals (hname : 61 ∉ name) (text : Bytes) :
    parseFlag spec flags (dashed (name ++ 61 :: text)) =
      .ofExcept (withRawValue spec flags name text) := by
  have hbefore : Str.substr (name ++ 61 :: text) 0 name.length = name := by
    rw [Str.substr_take _ rfl, List.take_left]
  have hbehind : Str.substr (name ++ 61 :: text) (name.length + 1)
      (Str.length (name ++ 61 :: text)) = text := by
    have hle : name.length + 1 ≤ (name ++ 61 :: text).length := by
      rw [List.length_append, List.length_cons]
      omega
    have hn : (name.length : Int) + 1 = (name.length + 1 : Nat) := by omega
    rw [Str.substr_rest _ hle hn, ← List.drop_drop, List.drop_left]
    rfl
  rw [parseFlag, body_dashed]
  rw [indexOf_equals hname, if_pos (Int.natCast_nonneg _), hbefore, hbehind]

/-- A flag that takes the next token. -/
theorem parseFlag_awaits {kind : Bytes} (hname : 61 ∉ name) (hkind : kindOf spec name = some kind)
    (hbool : kind ≠ ascii "bool") : parseFlag spec flags (dashed name) = .awaits name := by
  have hnone : ¬ Str.indexOf name [61] ≥ 0 := by
    rw [Str.indexOf_of_none (firstOcc_of_notMem [] hname)]
    decide
  rw [parseFlag, body_dashed]
  rw [if_neg hnone, hkind]
  dsimp only
  rw [if_neg hbool]

theorem dashed_ne_terminator {body : Bytes} (h : body ≠ []) : dashed body ≠ terminator := fun heq =>
  h (List.cons.inj (List.cons.inj heq).2).2

/-- **One assignment is one binding.** -/
theorem parseLoop_assign (hl : Legal spec) {a : Assign} (ha : a.Legal spec) (toks : List Bytes) :
    parseLoop spec (a.tokens ++ toks) flags pos none =
      parseLoop spec toks (flags.insert a.flag.name a.value) pos none := by
  have hplain := (hl.plain a.flag ha.known).1
  rw [Assign.tokens]
  split
  · rename_i hsplit
    obtain ⟨hbool, hname⟩ := ha.split hsplit
    rw [List.cons_append, List.cons_append, List.nil_append, parseLoop,
      if_neg (dashed_ne_terminator hname), if_pos (isFlag_dashed _),
      parseFlag_awaits hplain (kindOf_mem hl.distinct ha.known) hbool, Reading.andThen, parseLoop,
      withRawValue_legal hl ha]
    rfl
  · rw [List.cons_append, List.nil_append, parseLoop, if_neg (dashed_ne_terminator (by simp)),
      if_pos (isFlag_dashed _), parseFlag_equals hplain, withRawValue_legal hl ha]
    rfl

theorem parseLoop_assigns (hl : Legal spec) {as : List Assign} (ha : ∀ a ∈ as, a.Legal spec)
    (toks : List Bytes) :
    parseLoop spec (as.flatMap Assign.tokens ++ toks) flags pos none =
      parseLoop spec toks (bindAll flags (as.map Assign.binding)) pos none := by
  induction as generalizing flags with
  | nil => rfl
  | cons a as ih =>
      obtain ⟨ha, has⟩ := List.forall_mem_cons.mp ha
      rw [List.flatMap_cons, List.append_assoc, parseLoop_assign hl ha, ih has]
      rfl

/-- **Flags come back as they were given.**  For a legal specification, any legal
assignments to its flags and any tokens behind the terminator: parsing succeeds, a
flag has the value of its last assignment, or its default without one, and the
tokens behind the terminator are the positionals. -/
theorem parse_args_assigned (spec : List Flag) (hl : Legal spec) (as : List Assign)
    (ha : ∀ a ∈ as, a.Legal spec) (positionals : List Bytes) :
    ∃ p, parseArgs spec (as.flatMap Assign.tokens ++ terminator :: positionals) = .ok p ∧
      p.rest = positionals ∧
      ∀ f ∈ spec, p.get f.name =
        some ((lastValue f.name none (as.map Assign.binding)).getD f.default) := by
  refine ⟨⟨bindAll (defaultFlags spec) (as.map Assign.binding), positionals⟩, ?_, rfl, ?_⟩
  · rw [parseArgs, parseLoop_assigns hl ha, parseLoop, if_pos rfl, List.nil_append]
  · intro f hf
    have hkept : Kept (defaultFlags spec) := by
      rw [defaultFlags_eq]
      exact kept_bindAll kept_new _
    have hdefault : (defaultFlags spec).get f.name = some f.default := by
      rw [defaultFlags_eq, kept_new.get_bindAll, lastValue_defaults hl.distinct hf]
    rw [Parsed.get, hkept.get_bindAll, hdefault, lastValue_eq]

def verbose : Flag := ⟨ascii "v", ascii "bool", .bool false⟩

def port : Flag := ⟨ascii "port", ascii "int", .int 80⟩

def root : Flag := ⟨ascii "root", ascii "string", .str []⟩

/-- `--port=-1 --root --v --port 8080`: the text of `root` is `--v`, and `port` is given
twice. -/
def serverArgs : List Assign :=
  [⟨port, Str.fromInt (-1), .int (-1), false⟩, ⟨root, ascii "--v", .str (ascii "--v"), true⟩,
    ⟨port, Str.fromInt 8080, .int 8080, true⟩]

theorem parse_args_assigned_server :
    ∃ p, parseArgs [verbose, port, root]
        (serverArgs.flatMap Assign.tokens ++ terminator :: [terminator]) = .ok p ∧
      p.rest = [terminator] ∧ p.get port.name = some (.int 8080) ∧
      p.get root.name = some (.str (ascii "--v")) ∧ p.get verbose.name = some (.bool false) := by
  have hlegal : Legal [verbose, port, root] := ⟨by decide, by decide⟩
  have hargs : ∀ a ∈ serverArgs, a.Legal [verbose, port, root] := by
    intro a ha
    rcases List.mem_cons.mp ha with rfl | ha
    · exact ⟨by simp, .int (Str.fromInt_isInt _) (by decide), fun h => by cases h⟩
    rcases List.mem_cons.mp ha with rfl | ha
    · exact ⟨by simp, .str _, fun _ => by decide⟩
    obtain rfl := List.mem_singleton.mp ha
    exact ⟨by simp, .int (Str.fromInt_isInt _) (by decide), fun _ => by decide⟩
  obtain ⟨p, hp, hrest, hget⟩ :=
    parse_args_assigned [verbose, port, root] hlegal serverArgs hargs [terminator]
  refine ⟨p, hp, hrest, ?_, ?_, ?_⟩
  · exact (hget port (by simp)).trans (by decide)
  · exact (hget root (by simp)).trans (by decide)
  · exact (hget verbose (by simp)).trans (by decide)

/-- **The empty name.**  A flag without a name takes no value in two tokens: the first
of them is the terminator. -/
theorem parse_args_nameless :
    (parseArgs [⟨[], ascii "string", .str []⟩] [dashed [], ascii "x", terminator]).toOption.map
      (fun p => (p.get [], p.rest)) = some (some (.str []), [ascii "x", terminator]) := by
  decide

end TinyActor.Stdlib.Arg
