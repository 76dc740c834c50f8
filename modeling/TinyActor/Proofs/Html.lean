/-
A rendered tree can be read back.

The text of a tree is a run of tokens: characters of text, each written as itself or as an
entity, and the tags.  The tokens are a prefix-free code: an entity is the only place of an
ampersand, no value contains the quote that ends it, and a tag ends at its first `>`.  So a text
determines its tokens.  From the tokens, read from the right with a stack of the lists that are
still open, comes the tree with its neighbouring texts merged.
-/
import TinyActor.Lib.Code
import TinyActor.Stdlib.Html

namespace TinyActor.Stdlib.Html

open Lib

/-! ### Escaping and joining by halves -/

def escape (c : UInt8) : Bytes := escChar c.toNat

theorem escSegment_eq {s : Bytes} {hi : Nat} (hhi : hi ≤ s.length) (lo : Nat) (acc : Bytes) :
    escSegment s lo hi acc = acc ++ ((s.take hi).drop lo).flatMap escape := by
  induction h : hi - lo generalizing lo acc with
  | zero =>
      rw [escSegment, if_pos (by omega), List.drop_eq_nil_of_le (by rw [List.length_take]; omega),
        List.flatMap_nil, List.append_nil]
  | succ n ih =>
      have hlt : lo < (s.take hi).length := by rw [List.length_take]; omega
      have hget : (s.take hi)[lo] = s[lo] := List.getElem_take
      have hchar : Str.charAt s lo = (s[lo].toNat : Int) := by
        simp [Str.charAt, List.getElem?_eq_getElem (show lo < s.length by omega)]
      rw [escSegment, if_neg (by omega), ih _ _ (by omega), List.drop_eq_getElem_cons hlt,
        List.flatMap_cons, hchar, hget, Str.concat_eq, List.append_assoc]
      rfl

theorem escaped_range {s : Bytes} (lo : Nat) {hi : Nat} (hhi : hi ≤ s.length) (hlo : lo ≤ hi) :
    escaped s lo hi = ((s.take hi).drop lo).flatMap escape := by
  induction h : hi - lo using Nat.strong_induction_on generalizing lo hi with
  | _ n ih =>
      rw [escaped]
      by_cases hleaf : hi - lo ≤ escLeaf
      · rw [if_pos hleaf, escSegment_eq hhi, List.nil_append]
      · have hlen : 48 < hi - lo := Nat.lt_of_not_le hleaf
        have hhalf : lo + (hi - lo) / 2 < hi := by omega
        have hsplit : (s.take hi).drop lo = (s.take (lo + (hi - lo) / 2)).drop lo ++
            (s.take hi).drop (lo + (hi - lo) / 2) := by
          have := List.take_append_drop ((hi - lo) / 2) ((s.take hi).drop lo)
          rw [List.drop_drop, List.take_drop, List.take_take, Nat.min_eq_left (by omega)] at this
          rw [this]
        simp only [if_neg hleaf]
        rw [Str.concat_eq, ih _ (by omega) lo (by omega) (by omega) rfl,
          ih _ (by omega) _ hhi (by omega) rfl, hsplit, List.flatMap_append]

theorem escaped_eq (s : Bytes) : escaped s 0 s.length = s.flatMap escape := by
  rw [escaped_range 0 (Nat.le_refl _) (Nat.zero_le _), List.take_length, List.drop_zero]

theorem join_eq {strs : List Bytes} {n : Nat} (hn : 0 < n) (hlen : n ≤ strs.length) :
    join strs n = (strs.take n).flatten := by
  induction n using Nat.strong_induction_on generalizing strs with
  | _ n ih =>
      rw [join]
      by_cases hone : n ≤ 1
      · obtain rfl : n = 1 := by omega
        obtain ⟨s, strs, rfl⟩ := List.exists_cons_of_length_pos hlen
        simp
      · have hsplit : strs.take n = strs.take (n / 2) ++ (strs.drop (n / 2)).take (n - n / 2) := by
          rw [← List.take_add, Nat.add_sub_cancel' (Nat.div_le_self _ _)]
        simp only [if_neg hone]
        rw [Str.concat_eq, ih _ (by omega) (by omega) (by omega),
          ih _ (by omega) (by omega) (by rw [List.length_drop]; omega), hsplit, List.flatten_append]

theorem joinList_eq (strs : List Bytes) : joinList strs = strs.flatten := by
  cases strs with
  | nil => rfl
  | cons s strs =>
      rw [joinList, if_neg (by simp), join_eq (by simp) (Nat.le_refl _), List.take_length]

/-! ### Entities -/

def entities : List (UInt8 × Bytes) :=
  [(34, ascii "&quot;"), (38, ascii "&amp;"), (92, ascii "&apos;"), (60, ascii "&lt;"),
    (62, ascii "&gt;")]

theorem escape_cases (c : UInt8) :
    (c, escape c) ∈ entities ∨ (escape c = [c] ∧ c ≠ 34 ∧ c ≠ 38 ∧ c ≠ 60 ∧ c ≠ 62) := by
  by_cases hspecial : c ∈ entities.map Prod.fst
  · left
    have hall : ∀ d ∈ entities.map Prod.fst, (d, escape d) ∈ entities := by decide +kernel
    exact hall c hspecial
  · right
    simp only [entities, List.map_cons, List.map_nil, List.mem_cons, List.not_mem_nil, or_false,
      not_or] at hspecial
    obtain ⟨h34, h38, h92, h60, h62⟩ := hspecial
    refine ⟨?_, h34, h38, h60, h62⟩
    have hne : ∀ (d : UInt8) (k : Int), k = d.toNat → c ≠ d → ¬ (c.toNat : Int) = k := by
      intro d k hk hcd h
      exact hcd (UInt8.toNat_inj.mp (Int.ofNat_inj.mp (h.trans hk)))
    have hlt := c.toNat_lt
    have hbyte : ¬ (((c.toNat : Int) < 0 || (c.toNat : Int) > 255) = true) := by simp; omega
    rw [escape, escChar, if_neg (hne 34 34 rfl h34), if_neg (hne 38 38 rfl h38),
      if_neg (hne 92 92 rfl h92), if_neg (hne 60 60 rfl h60), if_neg (hne 62 62 rfl h62), Str.chr,
      if_neg hbyte, Int.toNat_natCast, UInt8.ofNat_toNat]

/-- What is escaped has none of the characters tags and values end at. -/
theorem escape_free {c b : UInt8} (h : b ∈ escape c) : b ≠ 60 ∧ b ≠ 62 ∧ b ≠ 34 := by
  rcases escape_cases c with hentity | ⟨heq, h34, -, h60, h62⟩
  · have hall : ∀ e ∈ entities, ∀ b ∈ e.2, b ≠ 60 ∧ b ≠ 62 ∧ b ≠ 34 := by
      decide +kernel
    exact hall _ hentity b h
  · rw [heq, List.mem_singleton] at h
    exact h ▸ ⟨h60, h62, h34⟩

theorem escape_prefixFree : PrefixFree (fun _ => True) escape where
  word_ne {c} _ := by
    rcases escape_cases c with hentity | ⟨heq, -⟩
    · have hall : ∀ e ∈ entities, e.2 ≠ [] := by decide +kernel
      exact hall _ hentity
    · rw [heq]
      exact List.cons_ne_nil _ _
  first {c d s t} _ _ h := by
    have hentity : ∀ e ∈ entities, ∃ w, e.2 = 38 :: w := by
      simp [entities, ascii]
    rcases escape_cases c with hc | ⟨hc, -, hc38, -⟩
    · rcases escape_cases d with hd | ⟨hd, -, hd38, -⟩
      · -- None of the entities is the beginning of another.
        have hall : ∀ e ∈ entities, ∀ f ∈ entities, e.2 <+: f.2 → e = f := by decide +kernel
        have heq : (c, escape c) = (d, escape d) := by
          rcases List.prefix_or_prefix_of_prefix (List.prefix_append _ s)
            (h ▸ List.prefix_append (escape d) t) with hp | hp
          · exact hall _ hc _ hd hp
          · exact (hall _ hd _ hc hp).symm
        obtain rfl := congrArg Prod.fst heq
        exact ⟨rfl, List.append_cancel_left h⟩
      · obtain ⟨w, hw⟩ := hentity _ hc
        rw [show escape c = 38 :: w from hw, hd] at h
        exact absurd (List.cons.inj h).1.symm hd38
    · rcases escape_cases d with hd | ⟨hd, -⟩
      · obtain ⟨w, hw⟩ := hentity _ hd
        rw [show escape d = 38 :: w from hw, hc] at h
        exact absurd (List.cons.inj h).1 hc38
      · rw [hc, hd] at h
        exact ⟨(List.cons.inj h).1, (List.cons.inj h).2⟩

/-! ### Tokens -/

inductive Token where
  | char (c : UInt8)
  | start (tag : Bytes) (attrs : List Attr)
  | empty (tag : Bytes) (attrs : List Attr)
  | stop (tag : Bytes)

/-- The bytes of a value in front of a rest, or the rest alone for a flag. -/
def valueStr (value : Option Bytes) (rest : Bytes) : Bytes :=
  match value with
  | none => rest
  | some v => 61 :: 34 :: (v.flatMap escape ++ 34 :: rest)

/-- Attributes in front of a rest. -/
def attrsStr : List Attr → Bytes → Bytes
  | [], rest => rest
  | a :: attrs, rest => 32 :: (a.name ++ valueStr a.value (attrsStr attrs rest))

def Token.str : Token → Bytes
  | .char c => escape c
  | .start tag attrs => 60 :: (tag ++ attrsStr attrs [62])
  | .empty tag attrs => 60 :: (tag ++ attrsStr attrs [32, 47, 62])
  | .stop tag => 60 :: 47 :: (tag ++ [62])

mutual

def nodeTokens : Node → List Token
  | .elem tag attrs children =>
      if children.isEmpty then [.empty tag attrs]
      else .start tag attrs :: (listTokens children ++ [.stop tag])
  | .text s => s.map .char
  | .raw _ => []

def listTokens : List Node → List Token
  | [] => []
  | n :: ns => nodeTokens n ++ listTokens ns

end

/-- The names a tag and an attribute may have: not empty, no blank and none of `< > / = & "`. -/
def isName (s : Bytes) : Bool :=
  !s.isEmpty && s.all fun c => !(ascii " <>/=&\"").contains c

mutual

/-- No raw nodes, and names for tags and attributes. -/
def wellNamed : Node → Bool
  | .elem tag attrs children =>
      isName tag && attrs.all (fun a => isName a.name) && allNamed children
  | .text _ => true
  | .raw _ => false

def allNamed : List Node → Bool
  | [] => true
  | n :: ns => wellNamed n && allNamed ns

end

theorem attrsStr_append (attrs : List Attr) (s t : Bytes) :
    attrsStr attrs (s ++ t) = attrsStr attrs s ++ t := by
  induction attrs with
  | nil => rfl
  | cons a attrs ih =>
      rw [attrsStr, attrsStr, ih]
      cases a.value with
      | none => simp [valueStr]
      | some v => simp [valueStr]

theorem attrStr_append (a : Attr) (rest : Bytes) :
    attrStr a ++ rest = 32 :: (a.name ++ valueStr a.value rest) := by
  rw [attrStr]
  cases a.value with
  | none => rfl
  | some v =>
      simp only [Str.concat_eq, escaped_eq, List.append_assoc]
      rfl

theorem flatten_attrStr (attrs : List Attr) (rest : Bytes) :
    (attrs.map attrStr).flatten ++ rest = attrsStr attrs rest := by
  induction attrs with
  | nil => rfl
  | cons a attrs ih =>
      rw [List.map_cons, List.flatten_cons, List.append_assoc, ih, attrStr_append, attrsStr]

theorem flatMap_char (s : Bytes) : (s.map Token.char).flatMap Token.str = s.flatMap escape := by
  rw [List.flatMap_map]
  rfl

mutual

theorem nodeStr_eq (n : Node) (h : wellNamed n) : nodeStr n = (nodeTokens n).flatMap Token.str := by
  cases n with
  | text s => rw [nodeStr, nodeTokens, escaped_eq, flatMap_char]
  | raw s => cases h
  | elem tag attrs children =>
      have hchildren : allNamed children := by
        rw [wellNamed, Bool.and_eq_true] at h
        exact h.2
      have hbody := mapNodeStr_eq children hchildren
      rw [nodeStr, nodeTokens]
      simp only [Str.concat_eq, joinList_eq, List.append_assoc, flatten_attrStr]
      cases hempty : children.isEmpty with
      | true =>
          simp only [if_true, List.flatMap_cons, List.flatMap_nil, List.append_nil]
          rfl
      | false =>
          simp only [Bool.false_eq_true, if_false, hbody, List.flatMap_cons, List.flatMap_append,
            List.flatMap_nil, List.append_nil, Token.str, List.cons_append, List.append_assoc,
            ← attrsStr_append]
          rfl

theorem mapNodeStr_eq (ns : List Node) (h : allNamed ns) :
    (mapNodeStr ns).flatten = (listTokens ns).flatMap Token.str := by
  cases ns with
  | nil => rfl
  | cons n ns =>
      rw [allNamed, Bool.and_eq_true] at h
      rw [mapNodeStr, listTokens, List.flatten_cons, List.flatMap_append, nodeStr_eq n h.1,
        mapNodeStr_eq ns h.2]

end

/-! ### The tokens of a text -/

theorem isName_iff {s : Bytes} : isName s = true ↔
    s ≠ [] ∧ ∀ c ∈ s, c ≠ 32 ∧ c ≠ 60 ∧ c ≠ 62 ∧ c ≠ 47 ∧ c ≠ 61 ∧ c ≠ 38 ∧ c ≠ 34 := by
  simp [isName, ascii]

def named (attrs : List Attr) : Bool := attrs.all fun a => isName a.name

/-- What ends a name: a blank, `>` or `=`. -/
def Stop (c : UInt8) : Prop := c = 32 ∨ c = 62 ∨ c = 61

theorem not_stop_of_isName {s : Bytes} (h : isName s) : ∀ c ∈ s, ¬ Stop c := by
  rintro c hc (rfl | rfl | rfl)
  · exact ((isName_iff.mp h).2 _ hc).1 rfl
  · exact ((isName_iff.mp h).2 _ hc).2.2.1 rfl
  · exact ((isName_iff.mp h).2 _ hc).2.2.2.2.1 rfl

theorem head_of_isName {s : Bytes} (h : isName s) : ∃ c w, s = c :: w ∧ c ≠ 47 := by
  obtain ⟨hne, hall⟩ := isName_iff.mp h
  obtain ⟨c, w, rfl⟩ := List.exists_cons_of_ne_nil hne
  exact ⟨c, w, rfl, (hall c List.mem_cons_self).2.2.2.1⟩

/-- The two ends of a tag with attributes: `>`, and ` />`. -/
def tagEnd (isEmpty : Bool) (rest : Bytes) : Bytes :=
  if isEmpty then 32 :: 47 :: 62 :: rest else 62 :: rest

theorem attrsStr_head (attrs : List Attr) (e : Bool) (rest : Bytes) :
    ∃ c w, attrsStr attrs (tagEnd e rest) = c :: w ∧ (c = 32 ∨ c = 62) := by
  cases attrs with
  | cons a attrs => exact ⟨_, _, rfl, .inl rfl⟩
  | nil =>
      cases e with
      | true => exact ⟨_, _, rfl, .inl rfl⟩
      | false => exact ⟨_, _, rfl, .inr rfl⟩

theorem valueStr_head (value : Option Bytes) (attrs : List Attr) (e : Bool) (rest : Bytes) :
    ∃ c w, valueStr value (attrsStr attrs (tagEnd e rest)) = c :: w ∧ Stop c ∧
      (c = 61 ↔ value.isSome) := by
  cases value with
  | some v => exact ⟨61, _, rfl, .inr (.inr rfl), by simp⟩
  | none =>
      obtain ⟨c, w, h, hc⟩ := attrsStr_head attrs e rest
      refine ⟨c, w, h, ?_, ?_⟩
      · exact hc.imp_right Or.inl
      · rcases hc with rfl | rfl <;> decide

/-- The quote that ends a value is the first one in it. -/
theorem valueStr_inj {v w : Option Bytes} {s t : Bytes} (hsome : v.isSome = w.isSome)
    (h : valueStr v s = valueStr w t) : v = w ∧ s = t := by
  cases v with
  | none =>
      cases w with
      | none => exact ⟨rfl, h⟩
      | some w => cases hsome
  | some v =>
      cases w with
      | none => cases hsome
      | some w =>
          have hfree : ∀ u : Bytes, ∀ b ∈ u.flatMap escape, ¬ b = 34 := by
            intro u b hb
            obtain ⟨c, -, hc⟩ := List.mem_flatMap.mp hb
            exact (escape_free hc).2.2
          simp only [valueStr, List.cons.injEq, true_and] at h
          obtain ⟨hvalue, -, hrest⟩ := append_inj_of_stop (· = 34) (hfree v) (hfree w)
            rfl rfl h
          have := escape_prefixFree.flatMap_injOn (by simp) (by simp) hvalue
          exact ⟨congrArg some this, hrest⟩

/-- A name and what it ends at. -/
theorem name_inj {a b : Bytes} {s t s' t' : Bytes} {c d : UInt8} (ha : isName a) (hb : isName b)
    (hs : s = c :: s') (ht : t = d :: t') (hc : Stop c) (hd : Stop d)
    (h : a ++ s = b ++ t) : a = b ∧ s = t := by
  rw [hs, ht] at h
  obtain ⟨rfl, rfl, rfl⟩ := append_inj_of_stop _ (not_stop_of_isName ha)
    (not_stop_of_isName hb) hc hd h
  exact ⟨rfl, by rw [hs, ht]⟩

theorem attr_ne_tagEnd {a : Attr} {e : Bool} {u rest : Bytes} (ha : isName a.name) :
    32 :: (a.name ++ u) ≠ tagEnd e rest := by
  obtain ⟨c, w, hname, hc⟩ := head_of_isName ha
  intro h
  rw [hname] at h
  cases e with
  | false => cases (List.cons.inj h).1
  | true => exact hc (List.cons.inj (List.cons.inj h).2).1

theorem tagEnd_inj {e f : Bool} {s t : Bytes} (h : tagEnd e s = tagEnd f t) : e = f ∧ s = t := by
  cases e <;> cases f <;> simp_all [tagEnd]

theorem attrsStr_inj {as bs : List Attr} {e f : Bool} {s t : Bytes} (ha : named as)
    (hb : named bs) (h : attrsStr as (tagEnd e s) = attrsStr bs (tagEnd f t)) :
    as = bs ∧ e = f ∧ s = t := by
  induction as generalizing bs with
  | nil =>
      cases bs with
      | nil => exact ⟨rfl, tagEnd_inj h⟩
      | cons b bs =>
          rw [named, List.all_cons, Bool.and_eq_true] at hb
          exact absurd h.symm (attr_ne_tagEnd hb.1)
  | cons a as ih =>
      cases bs with
      | nil =>
          rw [named, List.all_cons, Bool.and_eq_true] at ha
          exact absurd h (attr_ne_tagEnd ha.1)
      | cons b bs =>
          rw [named, List.all_cons, Bool.and_eq_true] at ha hb
          rw [attrsStr, attrsStr, List.cons.injEq] at h
          obtain ⟨c, u, hu, hc, hc61⟩ := valueStr_head a.value as e s
          obtain ⟨d, w, hw, hd, hd61⟩ := valueStr_head b.value bs f t
          obtain ⟨hname, hvalue⟩ := name_inj ha.1 hb.1 hu hw hc hd h.2
          have hcd : c = d := by rw [hu, hw] at hvalue; exact (List.cons.inj hvalue).1
          have hsome : a.value.isSome = b.value.isSome := by
            rw [Bool.eq_iff_iff, ← hc61, ← hd61, hcd]
          obtain ⟨hval, hrest⟩ := valueStr_inj hsome hvalue
          obtain ⟨rfl, hend⟩ := ih ha.2 hb.2 hrest
          refine ⟨?_, hend⟩
          obtain ⟨n, v⟩ := a
          obtain ⟨m, w⟩ := b
          cases hname
          cases hval
          rfl

/-- Tokens with names. -/
def Token.Named : Token → Prop
  | .char _ => True
  | .start tag attrs | .empty tag attrs => isName tag ∧ named attrs
  | .stop tag => isName tag

/-- The tag of an element that is closed at once, or not. -/
def tagToken (tag : Bytes) (attrs : List Attr) (e : Bool) : Token :=
  if e then .empty tag attrs else .start tag attrs

theorem tagToken_str (tag : Bytes) (attrs : List Attr) (e : Bool) (rest : Bytes) :
    (tagToken tag attrs e).str ++ rest = 60 :: (tag ++ attrsStr attrs (tagEnd e rest)) := by
  cases e with
  | true =>
      change 60 :: (tag ++ attrsStr attrs [32, 47, 62]) ++ rest = _
      rw [List.cons_append, List.append_assoc, ← attrsStr_append]
      rfl
  | false =>
      change 60 :: (tag ++ attrsStr attrs [62]) ++ rest = _
      rw [List.cons_append, List.append_assoc, ← attrsStr_append]
      rfl

theorem tagToken_inj {tag tag' : Bytes} {as bs : List Attr} {e f : Bool} {s t : Bytes}
    (ha : isName tag ∧ named as) (hb : isName tag' ∧ named bs)
    (h : (tagToken tag as e).str ++ s = (tagToken tag' bs f).str ++ t) :
    tagToken tag as e = tagToken tag' bs f ∧ s = t := by
  rw [tagToken_str, tagToken_str, List.cons.injEq] at h
  obtain ⟨c, u, hu, hc⟩ := attrsStr_head as e s
  obtain ⟨d, w, hw, hd⟩ := attrsStr_head bs f t
  obtain ⟨rfl, hrest⟩ := name_inj ha.1 hb.1 hu hw (hc.imp_right Or.inl) (hd.imp_right Or.inl) h.2
  obtain ⟨rfl, rfl, rfl⟩ := attrsStr_inj ha.2 hb.2 hrest
  exact ⟨rfl, rfl⟩

theorem char_ne_tag {c : UInt8} {s t : Bytes} : escape c ++ s ≠ 60 :: t := by
  intro h
  obtain ⟨b, w, hw⟩ := List.exists_cons_of_ne_nil (escape_prefixFree.word_ne (a := c) trivial)
  have hb : b = 60 := by
    rw [hw] at h
    exact (List.cons.inj h).1
  exact (escape_free (c := c) (b := b) (by rw [hw]; exact List.mem_cons_self)).1 hb

theorem tag_ne_stop {tag : Bytes} {attrs : List Attr} {e : Bool} {s t : Bytes} (h : isName tag) :
    (tagToken tag attrs e).str ++ s ≠ 60 :: 47 :: t := by
  obtain ⟨c, w, rfl, hc⟩ := head_of_isName h
  rw [tagToken_str]
  intro heq
  exact hc (List.cons.inj (List.cons.inj heq).2).1

theorem str_prefixFree : PrefixFree Token.Named Token.str where
  word_ne {a} _ := by
    cases a with
    | char c => exact escape_prefixFree.word_ne trivial
    | start tag attrs => exact List.cons_ne_nil _ _
    | empty tag attrs => exact List.cons_ne_nil _ _
    | stop tag => exact List.cons_ne_nil _ _
  first {a b s t} ha hb h := by
    cases a with
    | char c =>
        cases b with
        | char d =>
            obtain ⟨rfl, hrest⟩ := escape_prefixFree.first trivial trivial h
            exact ⟨rfl, hrest⟩
        | start tag attrs => exact absurd h char_ne_tag
        | empty tag attrs => exact absurd h char_ne_tag
        | stop tag => exact absurd h char_ne_tag
    | start tag attrs =>
        cases b with
        | char d => exact absurd h.symm char_ne_tag
        | start tag' attrs' => exact tagToken_inj (e := false) (f := false) ha hb h
        | empty tag' attrs' => exact tagToken_inj (e := false) (f := true) ha hb h
        | stop tag' => exact absurd h (tag_ne_stop (e := false) ha.1)
    | empty tag attrs =>
        cases b with
        | char d => exact absurd h.symm char_ne_tag
        | start tag' attrs' => exact tagToken_inj (e := true) (f := false) ha hb h
        | empty tag' attrs' => exact tagToken_inj (e := true) (f := true) ha hb h
        | stop tag' => exact absurd h (tag_ne_stop (e := true) ha.1)
    | stop tag =>
        cases b with
        | char d => exact absurd h.symm char_ne_tag
        | start tag' attrs' => exact absurd h.symm (tag_ne_stop (e := false) hb.1)
        | empty tag' attrs' => exact absurd h.symm (tag_ne_stop (e := true) hb.1)
        | stop tag' =>
            simp only [Token.str, List.cons_append, List.append_assoc, List.nil_append,
              List.cons.injEq, true_and] at h
            obtain ⟨rfl, hrest⟩ := name_inj ha hb rfl rfl (.inr (.inl rfl)) (.inr (.inl rfl)) h
            exact ⟨rfl, (List.cons.inj hrest).2⟩

mutual

theorem nodeTokens_named (n : Node) (h : wellNamed n) : ∀ t ∈ nodeTokens n, t.Named := by
  intro t ht
  cases n with
  | text s =>
      obtain ⟨c, -, rfl⟩ := List.mem_map.mp (by rwa [nodeTokens] at ht)
      trivial
  | raw s => cases h
  | elem tag attrs children =>
      rw [wellNamed, Bool.and_eq_true, Bool.and_eq_true] at h
      rw [nodeTokens] at ht
      split at ht
      · rw [List.mem_singleton.mp ht]
        exact h.1
      · rcases List.mem_cons.mp ht with rfl | ht
        · exact h.1
        · rcases List.mem_append.mp ht with ht | ht
          · exact listTokens_named children h.2 t ht
          · rw [List.mem_singleton.mp ht]
            exact h.1.1

theorem listTokens_named (ns : List Node) (h : allNamed ns) : ∀ t ∈ listTokens ns, t.Named := by
  intro t ht
  cases ns with
  | nil => cases ht
  | cons n ns =>
      rw [allNamed, Bool.and_eq_true] at h
      rw [listTokens] at ht
      rcases List.mem_append.mp ht with ht | ht
      · exact nodeTokens_named n h.1 t ht
      · exact listTokens_named ns h.2 t ht

end

/-! ### The tree of the tokens -/

/-- A text in front of merged nodes: joined to a text that follows, dropped if it is empty. -/
def addText (s : Bytes) (rest : List Node) : List Node :=
  if s.isEmpty then rest
  else
    match rest with
    | .text t :: rest => .text (s ++ t) :: rest
    | rest => .text s :: rest

mutual

/-- A node in front of merged nodes. -/
def mergeNode (rest : List Node) : Node → List Node
  | .elem tag attrs children => .elem tag attrs (mergeOnto [] children) :: rest
  | .text s => addText s rest
  | .raw s => .raw s :: rest

def mergeOnto (rest : List Node) : List Node → List Node
  | [] => rest
  | n :: ns => mergeNode (mergeOnto rest ns) n

end

/-- Nodes with adjacent texts merged and empty ones dropped, at every level. -/
def merged (ns : List Node) : List Node := mergeOnto [] ns

/-- A token read from the right, onto the lists of nodes that are still open. -/
def push : Token → List (List Node) → List (List Node)
  | .char c, cur :: open_ => addText [c] cur :: open_
  | .start tag attrs, children :: cur :: open_ => (.elem tag attrs children :: cur) :: open_
  | .empty tag attrs, cur :: open_ => (.elem tag attrs [] :: cur) :: open_
  | .stop _, open_ => [] :: open_
  | _, open_ => open_

theorem addText_cons (c : UInt8) (s : Bytes) (rest : List Node) :
    addText (c :: s) rest = addText [c] (addText s rest) := by
  cases s with
  | nil => rfl
  | cons d s =>
      cases rest with
      | nil => rfl
      | cons n ns => cases n <;> rfl

theorem push_text (s : Bytes) (cur : List Node) (above : List (List Node)) :
    (s.map Token.char).foldr push (cur :: above) = addText s cur :: above := by
  induction s with
  | nil => rfl
  | cons c s ih => rw [List.map_cons, List.foldr_cons, ih, push, addText_cons c s]

mutual

theorem push_node (n : Node) (h : wellNamed n) (cur : List Node) (above : List (List Node)) :
    (nodeTokens n).foldr push (cur :: above) = mergeNode cur n :: above := by
  cases n with
  | text s => rw [nodeTokens, push_text, mergeNode]
  | raw s => cases h
  | elem tag attrs children =>
      rw [wellNamed, Bool.and_eq_true, Bool.and_eq_true] at h
      rw [nodeTokens, mergeNode]
      cases children with
      | nil => rfl
      | cons c cs =>
          rw [if_neg (by simp), List.foldr_cons, List.foldr_append, List.foldr_cons,
            List.foldr_nil, push, push_list _ h.2, push]

theorem push_list (ns : List Node) (h : allNamed ns) (cur : List Node) (above : List (List Node)) :
    (listTokens ns).foldr push (cur :: above) = mergeOnto cur ns :: above := by
  cases ns with
  | nil => rfl
  | cons n ns =>
      rw [allNamed, Bool.and_eq_true] at h
      rw [listTokens, List.foldr_append, push_list ns h.2, push_node n h.1, mergeOnto]

end

theorem merged_eq_of_renderList {ns ms : List Node} (hns : allNamed ns) (hms : allNamed ms)
    (h : renderList ns = renderList ms) : merged ns = merged ms := by
  rw [renderList, renderList, joinList_eq, joinList_eq, mapNodeStr_eq ns hns,
    mapNodeStr_eq ms hms] at h
  have htokens := str_prefixFree.flatMap_injOn (listTokens_named ns hns) (listTokens_named ms hms) h
  have hpush := push_list ns hns [] []
  rw [htokens, push_list ms hms [] []] at hpush
  exact (List.cons.inj hpush).1.symm

theorem renderList_singleton (n : Node) : renderList [n] = render n := by
  rw [renderList, joinList_eq, render, mapNodeStr, mapNodeStr, List.flatten_singleton]

/-- **A rendered tree determines the tree**, up to merged and dropped texts, and so does a rendered
list of trees; no text and no value adds a character that begins or ends a tag or ends a value. -/
theorem render_injective :
    (∀ n m : Node, wellNamed n → wellNamed m → render n = render m → merged [n] = merged [m]) ∧
    (∀ ns ms : List Node, allNamed ns → allNamed ms → renderList ns = renderList ms →
      merged ns = merged ms) ∧
    ∀ s : Bytes, ∀ b ∈ escaped s 0 s.length, b ≠ 60 ∧ b ≠ 62 ∧ b ≠ 34 := by
  refine ⟨fun n m hn hm h => ?_, fun ns ms hns hms h => merged_eq_of_renderList hns hms h,
    fun s b hb => ?_⟩
  · rw [← renderList_singleton, ← renderList_singleton] at h
    exact merged_eq_of_renderList (by simp [allNamed, hn]) (by simp [allNamed, hm]) h
  · rw [escaped_eq] at hb
    obtain ⟨c, -, hc⟩ := List.mem_flatMap.mp hb
    exact escape_free hc

/-- A paragraph in two texts and in one. -/
theorem render_injective_paragraph :
    merged [.elem (ascii "p") [] [.text (ascii "1 <"), .text (ascii " 2")]] =
      merged [.elem (ascii "p") [] [.text (ascii "1 < 2")]] := by
  refine render_injective.1 _ _ rfl rfl ?_
  rw [render, render, nodeStr_eq _ rfl, nodeStr_eq _ rfl]
  rfl

end TinyActor.Stdlib.Html
