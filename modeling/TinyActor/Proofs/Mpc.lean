/-
What the combinators do with the text that is left.

`At s i rest` says that `rest` is what is left of the text `s` at index `i`.  Every parser is
described by what it does to that rest, and the index it answers with is again where a rest
begins; the text and the index themselves play no part in any argument.
-/
import TinyActor.Proofs.Numeral
import TinyActor.Stdlib.Mpc

namespace TinyActor.Stdlib

/-- What is left of a text at an index. -/
def At (s : Bytes) (i : Nat) (rest : Bytes) : Prop := ∃ pre, s = pre ++ rest ∧ i = pre.length

namespace At

variable {s rest m : Bytes} {i : Nat} {c : UInt8}

theorem start (s : Bytes) : At s 0 s := ⟨[], rfl, rfl⟩

theorem advance (h : At s i (m ++ rest)) : At s (i + m.length) rest := by
  obtain ⟨pre, rfl, rfl⟩ := h
  exact ⟨pre ++ m, by rw [List.append_assoc], by rw [List.length_append]⟩

theorem next (h : At s i (c :: rest)) : At s (i + 1) rest := advance (m := [c]) h

theorem length (h : At s i rest) : s.length = i + rest.length := by
  obtain ⟨pre, rfl, rfl⟩ := h
  rw [List.length_append]

theorem drop (h : At s i rest) : s.drop i = rest := by
  obtain ⟨pre, rfl, rfl⟩ := h
  exact List.drop_left

theorem charAt (h : At s i (c :: rest)) : Str.charAt s i = c.toNat := by
  obtain ⟨pre, rfl, rfl⟩ := h
  simp [Str.charAt]

theorem charAt_end (h : At s i []) : Str.charAt s i = -1 := by
  obtain ⟨pre, rfl, rfl⟩ := h
  simp [Str.charAt]

theorem substr (h : At s i (m ++ rest)) : Str.substr s i m.length = m := by
  obtain ⟨pre, rfl, rfl⟩ := h
  rw [Str.substr_nat _ (by simp), List.drop_left, List.take_left]

end At

variable {f : Int → Bool}

namespace Mpc

variable {α β : Type} {s rest : Bytes} {i : Nat}

/-! ### Characters -/

theorem lit_ok {t : Bytes} (h : At s i (t ++ rest)) : lit t s i = .ok t (i + t.length) := by
  have hlen := h.length
  rw [List.length_append] at hlen
  rw [lit, if_pos ⟨by omega, h.substr⟩]

theorem lit_fail {t : Bytes} (h : At s i rest) (hno : ¬ t <+: rest) :
    lit t s i = errAt (ascii "expecting " ++ t) i := by
  rw [lit, if_neg]
  rintro ⟨hlen, hsub⟩
  have hi : i ≤ s.length := by omega
  rw [Str.substr_nat s hi, h.drop] at hsub
  exact hno ⟨rest.drop t.length, by conv_rhs => rw [← List.take_append_drop t.length rest, hsub]⟩

theorem satisfyL_cons {msg : Bytes} {c : UInt8} (h : At s i (c :: rest)) :
    satisfyL f msg s i =
      if f c.toNat then .ok (c.toNat : Int) (i + 1) else errAt msg i := by
  have hlen := h.length
  rw [List.length_cons] at hlen
  rw [satisfyL, if_pos (by omega), h.charAt]

/-- The characters that pass a test, up to the first that does not. -/
theorem takeWhilePos_eq {m : Bytes} (h : At s i (m ++ rest))
    (hm : ∀ c ∈ m, f (c.toNat : Int) = true) (hrest : ∀ c ∈ rest.head?, f (c.toNat : Int) = false)
    {n : Nat} (hn : n = (m ++ rest).length) : takeWhilePos f s n i = i + m.length := by
  induction m generalizing i n with
  | nil =>
      cases rest with
      | nil =>
          subst hn
          rfl
      | cons c rest =>
          subst hn
          have hf := hrest c rfl
          rw [List.nil_append, List.length_cons, takeWhilePos, At.charAt h, hf]
          rfl
  | cons c m ih =>
      subst hn
      have hf := hm c (List.mem_cons_self ..)
      rw [List.cons_append, List.length_cons, takeWhilePos, At.charAt h, hf, if_pos rfl,
        ih (At.next h) (fun x hx => hm x (List.mem_cons_of_mem _ hx)) rfl, List.length_cons]
      omega

theorem takeWhile_eq {m : Bytes} (h : At s i (m ++ rest)) (hm : ∀ c ∈ m, f (c.toNat : Int) = true)
    (hrest : ∀ c ∈ rest.head?, f (c.toNat : Int) = false) :
    Mpc.takeWhile f s i = .ok m (i + m.length) := by
  have hpos := takeWhilePos_eq h hm hrest (n := s.length - i) (by rw [h.length]; omega)
  have hsub : Str.substr s i (((i + m.length : Nat) : Int) - i) = m := by
    rw [show ((i + m.length : Nat) : Int) - i = (m.length : Nat) by omega]
    exact h.substr
  simp only [Mpc.takeWhile, hpos]
  rw [hsub]

/-! ### Repetition -/

/-- The iterations of a repetition: each succeeds and consumes something, and the one after
them fails or consumes nothing. -/
inductive Repeats (p : Parser α) (s : Bytes) : Nat → List α → Nat → Prop
  | stop {i : Nat} {e : Failure} (h : p s i = .fail e) : Repeats p s i [] i
  | empty {i : Nat} {v : α} (h : p s i = .ok v i) : Repeats p s i [] i
  | step {i j k : Nat} {v : α} {vs : List α} (h : p s i = .ok v j) (hne : j ≠ i)
      (hs : Repeats p s j vs k) : Repeats p s i (v :: vs) k

theorem starLoop_of_repeats {p : Parser α} {i k : Nat} {vs : List α} (h : Repeats p s i vs k)
    {n : Nat} (hn : vs.length < n) (acc : List α) :
    starLoop p s n i acc = .ok (acc.reverse ++ vs) k := by
  induction h generalizing n acc with
  | stop h =>
      obtain ⟨n, rfl⟩ : ∃ m, n = m + 1 := ⟨n - 1, by omega⟩
      rw [starLoop, h, List.append_nil]
  | empty h =>
      obtain ⟨n, rfl⟩ : ∃ m, n = m + 1 := ⟨n - 1, by omega⟩
      rw [starLoop, h, List.append_nil]
      exact if_pos rfl
  | @step i j k v vs h hne _ ih =>
      rw [List.length_cons] at hn
      obtain ⟨n, rfl⟩ : ∃ m, n = m + 1 := ⟨n - 1, by omega⟩
      rw [starLoop, h]
      simp only [hne, if_false]
      rw [ih (by omega), List.reverse_cons, List.append_assoc]
      rfl

theorem star_of_repeats {p : Parser α} {i k : Nat} {vs : List α} (h : Repeats p s i vs k)
    (hn : vs.length ≤ s.length) : star p s i = .ok vs k :=
  starLoop_of_repeats h (by omega) []

/-- Started inside the text a parser answers, on success, with an index of the text that is not
before its own. -/
def Advances (p : Parser α) : Prop :=
  ∀ s i v j, i ≤ s.length → p s i = .ok v j → i ≤ j ∧ j ≤ s.length

/-- An advancing parser can be repeated from every index of the text, and what is left of the text
bounds the iterations. -/
theorem Advances.repeats {p : Parser α} (hp : Advances p) {s : Bytes} {i : Nat}
    (hi : i ≤ s.length) : ∃ vs k, Repeats p s i vs k ∧ vs.length ≤ s.length - i := by
  induction hleft : s.length - i using Nat.strongRecOn generalizing i with
  | ind left ih =>
      cases hr : p s i with
      | fail e => exact ⟨[], i, .stop hr, Nat.zero_le _⟩
      | ok v j =>
          by_cases hne : j = i
          · subst hne
            exact ⟨[], j, .empty hr, Nat.zero_le _⟩
          · obtain ⟨hij, hj⟩ := hp s i v j hi hr
            obtain ⟨vs, k, hvs, hlen⟩ := ih (s.length - j) (by omega) hj rfl
            refine ⟨v :: vs, k, .step hr hne hvs, ?_⟩
            rw [List.length_cons]
            omega

theorem Advances.star {p : Parser α} (hp : Advances p) {s : Bytes} {i : Nat}
    (hi : i ≤ s.length) : ∃ vs k, Repeats p s i vs k ∧ star p s i = .ok vs k := by
  obtain ⟨vs, k, hvs, hlen⟩ := hp.repeats hi
  exact ⟨vs, k, hvs, star_of_repeats hvs (by omega)⟩

theorem sepThen_ok {p : Parser α} {sep : Parser β} {v : α} {k : Nat} :
    sepThen p sep s i = .ok v k ↔ ∃ w j, sep s i = .ok w j ∧ p s j = .ok v k := by
  simp only [sepThen, bind]
  constructor
  · intro h
    split at h
    · cases h
    · next w j hw =>
        split at h
        · cases h
        · next u l hu => exact ⟨w, j, hw, hu.trans h⟩
  · rintro ⟨w, j, hw, hv⟩
    simp only [hw, hv, ret]

theorem Advances.sepThen {p : Parser α} {sep : Parser β} (hp : Advances p) (hsep : Advances sep) :
    Advances (sepThen p sep) := by
  intro s i v k hi h
  obtain ⟨w, j, hw, hv⟩ := sepThen_ok.mp h
  have hij := hsep s i w j hi hw
  have hjk := hp s j v k hij.2 hv
  omega

/-- A list read by `p` and then the repetition of an advancing `q` fails only where `p` does. -/
theorem first_then_star {p q : Parser α} (hp : Advances p) (hq : Advances q) {s : Bytes} {i : Nat}
    (hi : i ≤ s.length) :
    (∀ e, Mpc.bind p (fun v => Mpc.bind (Mpc.star q) fun rest => ret (v :: rest)) s i = .fail e ↔
      p s i = .fail e) ∧
    ∀ vs k, Mpc.bind p (fun v => Mpc.bind (Mpc.star q) fun rest => ret (v :: rest)) s i = .ok vs k →
      ∃ v j rest, p s i = .ok v j ∧ Repeats q s j rest k ∧ vs = v :: rest := by
  cases hr : p s i with
  | fail e => simp [Mpc.bind, hr]
  | ok v j =>
      obtain ⟨rest, k, hrest, hstar⟩ := hq.star (hp s i v j hi hr).2
      refine ⟨fun e => by simp [Mpc.bind, hr, hstar, ret], ?_⟩
      intro vs k' h
      simp only [Mpc.bind, hr, hstar, ret, Result.ok.injEq] at h
      obtain ⟨rfl, rfl⟩ := h
      exact ⟨v, j, rest, rfl, hrest, rfl⟩

/-- Items with separators between them: every separator is followed by an item, and the index at
the end is where the last item ends. -/
inductive Items (p : Parser α) (sep : Parser β) (s : Bytes) : Nat → List α → Nat → Prop
  | last {i j : Nat} {v : α} (h : p s i = .ok v j) : Items p sep s i [v] j
  | more {i j j' k : Nat} {v : α} {w : β} {vs : List α} (h : p s i = .ok v j)
      (hsep : sep s j = .ok w j') (hs : Items p sep s j' vs k) : Items p sep s i (v :: vs) k

theorem Items.of_repeats {p : Parser α} {sep : Parser β} {j k : Nat} {rest : List α}
    (hs : Repeats (sepThen p sep) s j rest k) :
    ∀ {i : Nat} {v : α}, p s i = .ok v j → Items p sep s i (v :: rest) k := by
  induction hs with
  | stop _ => exact fun h => .last h
  | empty _ => exact fun h => .last h
  | @step i' j k v' vs h hne _ ih =>
      intro i v hv
      obtain ⟨w, j', hw, hv'⟩ := sepThen_ok.mp h
      exact .more hv hw (ih hv')

/-! ### Alternatives -/

/-- The failure of a list that got furthest, the first one of those; one without an index got
nowhere. -/
def Furthest (fs : List Failure) : Failure → Prop
  | none => ∀ f ∈ fs, f = none
  | some (msg, pos) => ∃ before after, fs = before ++ some (msg, pos) :: after ∧
      (∀ m q, some (m, q) ∈ before → q < pos) ∧ ∀ m q, some (m, q) ∈ after → q ≤ pos

theorem Furthest.concat {fs : List Failure} {best : Failure} (h : Furthest fs best) (e : Failure) :
    Furthest (fs ++ [e]) (errMax best e) := by
  cases best with
  | none =>
      have hnone : ∀ f ∈ fs, f = none := h
      cases e with
      | none =>
          intro f hf
          rcases List.mem_append.mp hf with hf | hf
          · exact hnone f hf
          · exact List.mem_singleton.mp hf
      | some e =>
          refine ⟨fs, [], rfl, ?_, by simp⟩
          intro m q hm
          cases hnone _ hm
  | some best =>
      obtain ⟨before, after, rfl, hbefore, hafter⟩ := h
      cases e with
      | none =>
          refine ⟨before, after ++ [none], by simp, hbefore, ?_⟩
          intro m q hm
          exact hafter m q (by simpa using hm)
      | some e =>
          by_cases hlt : e.2 > best.2
          · rw [errMax, if_pos hlt]
            refine ⟨before ++ some best :: after, [], rfl, ?_, by simp⟩
            intro m q hm
            rcases List.mem_append.mp hm with hm | hm
            · have := hbefore m q hm
              omega
            · rcases List.mem_cons.mp hm with hm | hm
              · cases hm
                exact hlt
              · have := hafter m q hm
                omega
          · rw [errMax, if_neg hlt]
            refine ⟨before, after ++ [some e], by simp, hbefore, ?_⟩
            intro m q hm
            rcases List.mem_append.mp hm with hm | hm
            · exact hafter m q hm
            · cases List.mem_singleton.mp hm
              omega

/-- What a choice answers: the first success, or the failure that got furthest. -/
inductive Chosen (ps : List (Parser α)) (s : Bytes) (i : Nat) : Result α → Prop
  | success {before after : List (Parser α)} {p : Parser α} {v : α} {j : Nat}
      (hps : ps = before ++ p :: after) (hfail : ∀ q ∈ before, ∃ e, q s i = .fail e)
      (h : p s i = .ok v j) : Chosen ps s i (.ok v j)
  | failure {fs : List Failure} {e : Failure}
      (hall : ps.map (fun p => p s i) = fs.map .fail) (h : Furthest fs e) :
      Chosen ps s i (.fail e)

theorem choiceListLoop_chosen (ps : List (Parser α)) (s : Bytes) (i : Nat) :
    ∀ (done : List (Parser α)) (fs : List Failure) {best : Failure},
      done.map (fun p => p s i) = fs.map .fail → Furthest fs best →
      Chosen (done ++ ps) s i (choiceListLoop ps s i best) := by
  induction ps with
  | nil =>
      intro done fs best hdone hbest
      rw [List.append_nil]
      exact .failure hdone hbest
  | cons p ps ih =>
      intro done fs best hdone hbest
      rw [choiceListLoop]
      cases hr : p s i with
      | ok v j =>
          refine .success rfl ?_ hr
          intro q hq
          have hmem : q s i ∈ fs.map (Result.fail (α := α)) := hdone ▸ List.mem_map_of_mem hq
          obtain ⟨e, -, he⟩ := List.mem_map.mp hmem
          exact ⟨e, he.symm⟩
      | fail e =>
          have hmore := ih (done ++ [p]) (fs ++ [e])
            (by rw [List.map_append, List.map_append, hdone, List.map_singleton, hr]; rfl)
            (hbest.concat e)
          rwa [List.append_assoc] at hmore

theorem choiceList_chosen (ps : List (Parser α)) (s : Bytes) (i : Nat) :
    Chosen ps s i (choiceList ps s i) :=
  choiceListLoop_chosen ps s i [] [] rfl (by simp [Furthest])

theorem choice_eq (p q : Parser α) : choice p q = choiceList [p, q] := by
  funext s i
  simp only [choice, choiceList, choiceListLoop, errMax]

/-- **Repetition and choice.**  Over parsers that advance, from every index of the text: a repetition ends without failing, with
the values of the longest run of matches that consume something; lists fail where their first
item fails; a separator is taken only with the item after it; and a choice is the first success
or the failure that got furthest. -/
theorem repetition_and_choice (p : Parser α) (sep : Parser β) (hp : Advances p)
    (hsep : Advances sep) (ps : List (Parser α)) (q : Parser α) (s : Bytes) (i : Nat)
    (hi : i ≤ s.length) :
    (∃ vs k, Repeats p s i vs k ∧ star p s i = .ok vs k ∧
      ∀ n, s.length < n → starLoop p s n i [] = .ok vs k) ∧
    (∀ e, plus p s i = .fail e ↔ p s i = .fail e) ∧
    (∀ e, sepBy1 p sep s i = .fail e ↔ p s i = .fail e) ∧
    (∃ vs k, sepBy p sep s i = .ok vs k ∧
      (Items p sep s i vs k ∨ vs = [] ∧ k = i ∧ ∃ e, p s i = .fail e)) ∧
    Chosen ps s i (choiceList ps s i) ∧ Chosen [p, q] s i (choice p q s i) := by
  have hpair := hp.sepThen hsep
  refine ⟨?_, (first_then_star hp hp hi).1, (first_then_star hp hpair hi).1, ?_, ?_, ?_⟩
  · obtain ⟨vs, k, hvs, hlen⟩ := hp.repeats hi
    exact ⟨vs, k, hvs, star_of_repeats hvs (by omega),
      fun n hn => starLoop_of_repeats hvs (by omega) []⟩
  · cases hr : sepBy1 p sep s i with
    | ok vs k =>
        obtain ⟨v, j, rest, hv, hrest, rfl⟩ := (first_then_star hp hpair hi).2 vs k hr
        exact ⟨v :: rest, k, by rw [sepBy, choice, hr], .inl (.of_repeats hrest hv)⟩
    | fail e =>
        have hfail := ((first_then_star hp hpair hi).1 e).mp hr
        exact ⟨[], i, by rw [sepBy, choice, hr, ret], .inr ⟨rfl, rfl, e, hfail⟩⟩
  · exact choiceList_chosen ps s i
  · rw [choice_eq]
    exact choiceList_chosen [p, q] s i

theorem le_takeWhilePos (f : Int → Bool) (s : Bytes) (n i : Nat) :
    i ≤ takeWhilePos f s n i ∧ takeWhilePos f s n i ≤ i + n := by
  induction n generalizing i with
  | zero => exact ⟨Nat.le_refl _, Nat.le_refl _⟩
  | succ n ih =>
      rw [takeWhilePos]
      split
      · have := ih (i + 1)
        omega
      · omega

/-- A parser that takes as many characters as pass a test, none of them too, advances. -/
theorem takeWhile_advances (f : Int → Bool) : Advances (Mpc.takeWhile f) := by
  intro s i v j hi h
  have hpos := le_takeWhilePos f s (s.length - i) i
  simp only [Mpc.takeWhile, Result.ok.injEq] at h
  omega

theorem repetition_and_choice_words :
    ∃ vs k, sepBy (Mpc.takeWhile (· ≠ 44)) (lit (ascii ",")) (ascii "a,b") 1 = .ok vs k ∧
      (Items (Mpc.takeWhile (· ≠ 44)) (lit (ascii ",")) (ascii "a,b") 1 vs k ∨
        vs = [] ∧ k = 1 ∧ ∃ e, Mpc.takeWhile (· ≠ 44) (ascii "a,b") 1 = .fail e) := by
  have hcomma : Advances (lit (ascii ",")) := by
    intro s i v j hi h
    rw [lit] at h
    split at h
    · cases h
      omega
    · cases h
  exact (repetition_and_choice _ _ (takeWhile_advances _) hcomma [] (Mpc.takeWhile (· ≠ 44))
    (ascii "a,b") 1 (by decide)).2.2.2.1

end Mpc

end TinyActor.Stdlib
