/-
What the loader makes of a written image.

Writer and loader count separately: the writer adds up where each function's code will
begin, the loader walks over the headers and the code.  Both are followed along the
same pieces of the word list, function by function and constant by constant.
-/
import TinyActor.Bootstrap.Bytecode
import TinyActor.Bootstrap.Run
import TinyActor.Lib.Segment
import TinyActor.Proofs.Layout
import TinyActor.Proofs.Names
import TinyActor.Vm.Load
import Mathlib.Data.List.Forall2

namespace TinyActor.Bootstrap

open TinyActor.Lib (Seg scanInts_spaced)
open TinyActor.Vm (Symbol Val Double Loaded FnHeader LoadError wordAt toByte readBytes readText
  cString heapString parseConst buildConsts readFns parseWords parseUnit)

/-! ### Texts -/

/-- The characters are bytes. -/
def isBytes (s : String) : Bool := s.toList.all fun c => c.toNat < 256

/-- The bytes of a C string. -/
def isCString (s : String) : Bool := s.toList.all fun c => c.toNat < 256 && c ≠ '\x00'

/-- A constant whose texts are texts of the machine: strings of bytes, shorter than an `int`
can say, and names and numbers without a zero byte. -/
def isText : Const → Bool
  | .str s => isBytes s && s.toList.length < 2 ^ 31
  | .sym x => isCString x
  | .float text => isCString text
  | _ => true

/-! ### Words -/

variable {words : List Int}

theorem wordAt_of_seg {p : Nat} {seg : List Int} {j : Nat} {w q : Int} (h : Seg words p seg)
    (hj : seg[j]? = some w) (hq : q = ((p + j : Nat) : Int)) : wordAt words q = .ok w := by
  rw [hq]
  change wordAt words (Int.ofNat (p + j)) = .ok w
  rw [wordAt, h.get hj]

theorem toByte_toNat {c : Char} (h : c.toNat < 256) : toByte (c.toNat : Int) = c := by
  have hmod : ((c.toNat : Int) % 256).toNat = c.toNat := by omega
  rw [toByte, hmod, Char.ofNat_toNat]

theorem readBytes_of_seg (cs : List Char) : ∀ {p : Nat} {q : Int},
    Seg words p (cs.map fun c => (c.toNat : Int)) → (∀ c ∈ cs, c.toNat < 256) → q = (p : Int) →
      readBytes words cs.length q = .ok cs := by
  induction cs with
  | nil => exact fun _ _ _ => rfl
  | cons c cs ih =>
      intro p q h hb hq
      obtain ⟨hc, hcs⟩ := List.forall_mem_cons.mp hb
      have hw : wordAt words q = .ok (c.toNat : Int) :=
        wordAt_of_seg h (j := 0) rfl (by rw [hq, Nat.add_zero])
      have hrest : readBytes words cs.length (q + 1) = .ok cs :=
        ih (Seg.right (a := [(c.toNat : Int)]) h) hcs (by rw [hq]; rfl)
      rw [List.length_cons, readBytes, hw]
      show (readBytes words cs.length (q + 1)).bind _ = _
      rw [hrest]
      show Except.ok (toByte (c.toNat : Int) :: cs) = _
      rw [toByte_toNat hc]

variable {consts : List Const} {fns : List FnBC} {s : String}

/-- A text is read back with its length, and the position is behind it. -/
theorem readText_of_seg {p : Nat} {q : Int} {kind : Int} (h : Seg words p (textWords kind s))
    (hb : ∀ c ∈ s.toList, c.toNat < 256) (hq : q = ((p + 1 : Nat) : Int)) :
    readText words q = .ok (s.toList, ((p + (textWords kind s).length : Nat) : Int)) := by
  have hlen : wordAt words q = .ok (Int.ofNat s.toList.length) := wordAt_of_seg h (j := 1) rfl hq
  have hbytes : readBytes words s.toList.length (q + 1) = .ok s.toList :=
    readBytes_of_seg s.toList (Seg.right (a := [kind, (s.toList.length : Int)]) h) hb
      (by rw [hq]; rfl)
  have hpos : q + 1 + (s.toList.length : Int) = ((p + (textWords kind s).length : Nat) : Int) := by
    simp only [hq, textWords, strToBytes, List.length_cons, List.length_map]
    omega
  unfold readText
  rw [hlen]
  show (readBytes words s.toList.length (q + 1)).bind (fun t =>
    Except.ok (t, q + 1 + (s.toList.length : Int))) = _
  rw [hbytes, hpos]
  rfl

/-! ### Constants -/

theorem isCString_iff : isCString s = true ↔ ∀ c ∈ s.toList, c.toNat < 256 ∧ c ≠ '\x00' := by
  simp [isCString]

theorem cString_toList (h : isCString s = true) : cString s.toList = s := by
  have hall : ∀ c ∈ s.toList, decide (c ≠ '\x00') = true := fun c hc =>
    decide_eq_true (isCString_iff.mp h c hc).2
  rw [cString, List.takeWhile_eq_self_iff.mpr hall, String.ofList_toList]

theorem heapString_toList (h : s.toList.length < 2 ^ 31) : heapString s.toList = s := by
  have hlen : (BitVec.ofNat 32 s.toList.length).toInt.toNat = s.toList.length := by
    have hnat : (BitVec.ofNat 32 s.toList.length).toNat = s.toList.length :=
      Nat.mod_eq_of_lt (by omega)
    rw [BitVec.toInt_eq_toNat_of_lt (by omega), hnat, Int.toNat_natCast]
  rw [heapString, hlen, List.take_length, String.ofList_toList]

variable {F : Type} [Double F]

/-- **A constant is read back**, and the position is behind it. -/
theorem parseConst_of_seg {c : Const} {p : Nat} {q : Int} (hc : isText c = true)
    (h : Seg words p (constWords (constAtom c))) (hq : q = (p : Int)) :
    parseConst words q =
      .ok ((constVal c : Val F), ((p + (constWords (constAtom c)).length : Nat) : Int)) := by
  have hkind : ∀ {kind : Int} {rest : List Int}, constWords (constAtom c) = kind :: rest →
      wordAt words q = .ok kind := fun heq =>
    wordAt_of_seg h (j := 0) (by rw [heq]; rfl) (by rw [hq, Nat.add_zero])
  cases c with
  | nil =>
      rw [parseConst, hkind rfl, hq]
      rfl
  | bool b =>
      cases b with
      | true =>
          rw [parseConst, hkind rfl, hq]
          rfl
      | false =>
          rw [parseConst, hkind rfl, hq]
          rfl
  | int v =>
      have hw : wordAt words (q + 1) = .ok v.toInt :=
        wordAt_of_seg h (j := 1) rfl (by rw [hq]; rfl)
      rw [parseConst, hkind rfl]
      dsimp only [bind, Except.bind]
      rw [hw, hq]
      show Except.ok (Vm.valInt v.toInt, _) = _
      rw [Vm.valInt, BitVec.ofInt_toInt]
      rfl
  | sym x =>
      have hb : ∀ c ∈ x.toList, c.toNat < 256 := fun c hx => (isCString_iff.mp hc c hx).1
      have ht := readText_of_seg h hb (q := q + 1) (by rw [hq]; rfl)
      rw [parseConst, hkind rfl]
      dsimp only [bind, Except.bind]
      rw [ht]
      show Except.ok (Val.sym (cString x.toList), _) = _
      rw [cString_toList hc]
      rfl
  | str s =>
      obtain ⟨hbytes, hlen⟩ := Bool.and_eq_true_iff.mp hc
      have hb : ∀ c ∈ s.toList, c.toNat < 256 := by simpa [isBytes] using hbytes
      have ht := readText_of_seg h hb (q := q + 1) (by rw [hq]; rfl)
      rw [parseConst, hkind rfl]
      dsimp only [bind, Except.bind]
      rw [ht]
      show Except.ok (Val.str (heapString s.toList), _) = _
      rw [heapString_toList (of_decide_eq_true hlen)]
      rfl
  | float text =>
      have hb : ∀ c ∈ text.toList, c.toNat < 256 := fun c hx => (isCString_iff.mp hc c hx).1
      have ht := readText_of_seg h hb (q := q + 1) (by rw [hq]; rfl)
      rw [parseConst, hkind rfl]
      dsimp only [bind, Except.bind]
      rw [ht]
      show Except.ok (Val.float (Double.ofText (cString text.toList)), _) = _
      rw [cString_toList hc]
      rfl

theorem buildConsts_of_seg (consts : List Const) : ∀ {p : Nat} {q : Int},
    (∀ c ∈ consts, isText c = true) → Seg words p (writeConsts (consts.map constAtom)) →
      q = (p : Int) → buildConsts words consts.length q = .ok (consts.map (constVal (F := F))) := by
  induction consts with
  | nil => exact fun _ _ _ => rfl
  | cons c consts ih =>
      intro p q ht h hq
      obtain ⟨hc, hcs⟩ := List.forall_mem_cons.mp ht
      have hone := parseConst_of_seg (F := F) hc h.left hq
      have hrest := ih hcs h.right rfl
      rw [List.length_cons, buildConsts, hone]
      dsimp only [bind, Except.bind]
      rw [hrest]
      rfl

/-! ### Functions -/

/-- The loader's table for functions whose code begins at `entry`. -/
def headers (pool : List Form) : List FnBC → Nat → List FnHeader
  | [], _ => []
  | f :: rest, entry =>
      ⟨nameIdx pool f.name, entry, f.nargs, f.maxd, f.words.length⟩ ::
        headers pool rest (entry + f.words.length + 5)

theorem readFns_of_seg (pool : List Form) (fns : List FnBC) : ∀ {p : Nat} {q e : Int},
    Seg words p (writeFns fns pool e) → q = (p : Int) → e = ((p + 5 : Nat) : Int) →
      readFns words fns.length q =
        .ok (headers pool fns (p + 5), ((p + (writeFns fns pool e).length : Nat) : Int)) := by
  induction fns with
  | nil =>
      intro p q e _ hq _
      rw [hq]
      rfl
  | cons f fns ih =>
      intro p q e h hq he
      have hword : ∀ {j : Nat} {w : Int}, (writeFns (f :: fns) pool e)[j]? = some w →
          wordAt words (q + j) = .ok w := fun hj =>
        wordAt_of_seg h hj (by rw [hq]; omega)
      have hseg : Seg words (p + 5 + f.words.length) (writeFns fns pool (e + 5 + f.words.length)) := by
        have hcode := Seg.right (a := [nameIdx pool f.name, e, (f.nargs : Int), f.maxd,
          (f.words.length : Int)]) h
        exact hcode.right
      have hrest := ih hseg (q := q + 5 + f.words.length) (by rw [hq]; omega) (by rw [he]; omega)
      have hpos : p + 5 + f.words.length + (writeFns fns pool (e + 5 + f.words.length)).length =
          p + (writeFns (f :: fns) pool e).length := by
        simp only [writeFns, List.length_cons, List.length_append]
        omega
      have h0 : wordAt words q = .ok (nameIdx pool f.name) := by simpa using hword (j := 0) rfl
      have h1 : wordAt words (q + 1) = .ok e := hword (j := 1) rfl
      have h2 : wordAt words (q + 2) = .ok (f.nargs : Int) := hword (j := 2) rfl
      have h3 : wordAt words (q + 3) = .ok f.maxd := hword (j := 3) rfl
      have h4 : wordAt words (q + 4) = .ok (f.words.length : Int) := hword (j := 4) rfl
      rw [hpos] at hrest
      rw [List.length_cons, readFns, headers, ← he]
      simp only [bind, Except.bind, h0, h1, h2, h3, h4, hrest]
      rfl

/-- The functions and the constants stand behind the first three words. -/
theorem seg_bcWords (fns : List FnBC) (consts : List Const) : Seg (bcWords fns consts) 3
    (writeFns fns (consts.map constAtom) 8 ++ writeConsts (consts.map constAtom)) :=
  Seg.right (a := [3, (fns.length : Int), ((consts.map constAtom).length : Int)]) Seg.self

/-- **The loader takes the tables the writer has put down.** -/
theorem parseUnit_writeBc_eq (hfns : fns ≠ []) (ht : ∀ c ∈ consts, isText c = true) :
    parseUnit (writeBc fns consts) =
      .ok (⟨bcWords fns consts, headers (consts.map constAtom) fns 8,
        consts.map (constVal (F := F))⟩ : Loaded F) := by
  have hpos : ¬((fns.length : Int) < 1) := by
    have := List.length_pos_iff.mpr hfns
    omega
  have hseg := seg_bcWords fns consts
  have hf := readFns_of_seg (consts.map constAtom) fns hseg.left (q := 3) rfl rfl
  have hc := buildConsts_of_seg (F := F) consts ht hseg.right rfl
  have hlen : ¬((bcWords fns consts).length < 3) := by
    simp only [bcWords, List.length_cons]
    omega
  have h0 : wordAt (bcWords fns consts) 0 = .ok 3 := rfl
  have h1 : wordAt (bcWords fns consts) 1 = .ok (fns.length : Int) := rfl
  have h2 : wordAt (bcWords fns consts) 2 = .ok (consts.length : Int) := by
    rw [← List.length_map constAtom]
    rfl
  rw [parseUnit, writeBc, scanInts_spaced, parseWords, if_neg hlen]
  simp only [bind, Except.bind, h0, h1, h2, Vm.bcVersion, ne_eq, not_true_eq_false, if_false,
    if_neg hpos, Int.toNat_natCast, hf, hc]
  rfl

/-! ### What compile writes -/

/-- What the loader has to know of a function: its name, as the index of a constant, the
number of its parameters, the height of its frame, and where its code is. -/
structure Recovered (consts : List Const) (words : List Int) (f : FnBC) (h : FnHeader) : Prop where
  name : ∀ x, f.name = some x → ∃ i : Nat, h.nameidx = i ∧ poolIdx (.sym x) consts = some i ∧
    consts[i]? = some (.sym x)
  anonymous : f.name = none → h.nameidx = -1
  nargs : h.nargs = f.nargs
  maxd : h.maxd = f.maxd
  codelen : h.codelen = f.words.length
  code : ∃ e : Nat, h.entry = e ∧ Seg words e f.words

theorem symPoolIdx_eq {x : Symbol} {pool : List Const} : ∀ {i : Nat} {k : Int},
    poolIdx (.sym x) pool = some i → symPoolIdx (pool.map constAtom) x k = k + i := by
  induction pool with
  | nil => intro i k h; cases h
  | cons c pool ih =>
      intro i k h
      have hatom : constAtom c = .sym x ↔ c = .sym x := by cases c <;> simp [constAtom, Form.ofList]
      unfold poolIdx at h
      rw [List.findIdx?_cons] at h
      rw [List.map_cons, symPoolIdx]
      by_cases hc : c = .sym x
      · rw [if_pos (constEq_sym.mpr hc)] at h
        rw [if_pos (hatom.mpr hc), ← Option.some.inj h]
        exact (Int.add_zero k).symm
      · rw [if_neg (fun he => hc (constEq_sym.mp he))] at h
        obtain ⟨j, hj, hji⟩ := Option.map_eq_some_iff.mp h
        rw [if_neg (fun he => hc (hatom.mp he)), ih hj, ← hji]
        omega

theorem recovered_headers (fns : List FnBC) : ∀ {e : Nat} {e' : Int} {p : Nat},
    (∀ f ∈ fns, ∀ x, f.name = some x → ∃ i, poolIdx (.sym x) consts = some i) →
      Seg words p (writeFns fns (consts.map constAtom) e') → e = p + 5 →
      List.Forall₂ (Recovered consts words) fns (headers (consts.map constAtom) fns e) := by
  induction fns with
  | nil => exact fun _ _ _ => .nil
  | cons f fns ih =>
      intro e e' p hn h he
      obtain ⟨hf, hfs⟩ := List.forall_mem_cons.mp hn
      have hcode := Seg.right (a := [nameIdx (consts.map constAtom) f.name, e', (f.nargs : Int),
        f.maxd, (f.words.length : Int)]) h
      refine .cons ⟨?_, ?_, rfl, rfl, rfl, e, rfl, he ▸ hcode.left⟩ ?_
      · intro x hx
        obtain ⟨i, hi⟩ := hf x hx
        refine ⟨i, ?_, hi, poolIdx_sym hi⟩
        show nameIdx (consts.map constAtom) f.name = i
        rw [hx, nameIdx, symPoolIdx_eq hi, Int.zero_add]
      · intro hx
        show nameIdx (consts.map constAtom) f.name = -1
        rw [hx, nameIdx]
      · exact ih hfs hcode.right (by rw [he]; rfl)

theorem programFns_ne_nil (g : Binds) (nid : Nat) (prog : List Top) :
    programFns g nid prog ≠ [] := by
  intro hnil
  have hmem : _ ∈ programFns g nid prog := mem_insertFn.mpr (.inl rfl)
  rw [hnil] at hmem
  cases hmem

/-- A compiled program from the lines of its functions. -/
theorem compile_lines {prog : List Top} (h : compile prog = .out fns consts) :
    ∃ g nid, collectGlobals prog 1 [] = .ok (g, nid) ∧
      fns = (flattenLines (programFns g nid prog) []).map (fun e => e.1.bytecode e.2) ∧
      ∀ e ∈ flattenLines (programFns g nid prog) [], Laid consts e.1 e.2 := by
  obtain ⟨g, nid, hg, -, hflat⟩ := compile_out h
  have hfns := flattenAll_eq (programFns g nid prog) []
  have hlaid := (flattenLines_laid (programFns g nid prog) []).2
  rw [hflat] at hfns hlaid
  exact ⟨g, nid, hg, hfns, hlaid⟩

/-- A compiled program has functions, and their names are in its pool. -/
theorem compile_named {prog : List Top} (h : compile prog = .out fns consts) :
    fns ≠ [] ∧ ∀ f ∈ fns, ∀ x, f.name = some x → ∃ i, poolIdx (.sym x) consts = some i := by
  obtain ⟨g, nid, -, hfns, hlaid⟩ := compile_lines h
  rw [hfns]
  refine ⟨?_, ?_⟩
  · intro hnil
    have hlines := flattenLines_fst (programFns g nid prog) []
    rw [List.map_eq_nil_iff.mp hnil] at hlines
    exact programFns_ne_nil g nid prog hlines.symm
  · intro f hf x hx
    obtain ⟨e, he, hef⟩ := List.mem_map.mp hf
    rw [← hef] at hx
    exact (hlaid e he).named x hx

/-- **Parsing the file of a compiled program recovers the program**: every function with its
name, its numbers and its code at the offset its header gives, and every constant at its
index. -/
theorem parseUnit_writeBc {prog : List Top} {fns : List FnBC} {consts : List Const}
    (h : compile prog = .out fns consts) (ht : ∀ c ∈ consts, isText c = true) :
    ∃ u : Loaded F, parseUnit (writeBc fns consts) = .ok u ∧ u.words = bcWords fns consts ∧
      u.consts = consts.map constVal ∧ List.Forall₂ (Recovered consts u.words) fns u.fns := by
  obtain ⟨hfns, hnamed⟩ := compile_named h
  exact ⟨_, parseUnit_writeBc_eq hfns ht, rfl, rfl,
    recovered_headers fns hnamed (seg_bcWords fns consts).left rfl⟩

/-- A define that is called on a string, a float and a closure. -/
def sampleProgram : List Top :=
  [.define "both" (.lambda ["f", "x"] (.call (.sym "cons") [.call (.sym "f") [.sym "x"], .sym "x"])),
    .expr (.letE "s" (.const (.str "caf\xe9 \x00")) (.call (.sym "both")
      [.lambda ["y"] (.ifE (.call (.sym "eq?") [.sym "y", .const (.int 7)])
        (.const (.float "1.5")) (.sym "s")), .const (.sym "k")]))]

theorem parseUnit_writeBc_sampleProgram : ∃ fns consts, compile sampleProgram = .out fns consts ∧
    fns.length = 3 ∧ consts.length = 4 ∧
    ∃ u : Loaded Int, parseUnit (writeBc fns consts) = .ok u ∧ u.words = bcWords fns consts ∧
      u.consts = consts.map constVal ∧ List.Forall₂ (Recovered consts u.words) fns u.fns := by
  have hout : compile sampleProgram = .out _ _ := rfl
  refine ⟨_, _, hout, ?_, ?_, parseUnit_writeBc hout ?_⟩
  · decide +kernel
  · decide +kernel
  · decide +kernel

end TinyActor.Bootstrap
