/-
Interning gives every name one id, for good.

The array of names has no name twice, and only grows at its end, so an id means the same
name for ever; what is to be shown is that the hash table, when there is one, finds what
is in the array and ends when it is not.  `Inv` says that the slots hold every id on the
walk of its name's hash and that one slot is free.  Growing keeps that: a table is
rebuilt when it is seven tenths full, at twice its size.

One path breaks it.  A table that was dropped for want of memory is built again at the
next new name with 256 slots, however many names there are by then.  With more names than
slots the rebuild itself does not end, and with as many the next walk does not.  A table is
dropped, too, when its size no longer fits an int.
-/
import Mathlib.Algebra.Order.Ring.Int
import Mathlib.Data.List.GetD
import Mathlib.Data.List.Nodup
import TinyActor.Lib.Probe
import TinyActor.Lib.Run
import TinyActor.Runtime.Symbols

namespace TinyActor.Runtime.Symbols

open TinyActor.Lib

/-! ### The walk -/

theorem masked_eq_mod {cap k : Nat} (h : cap = 2 ^ k) (i : Nat) : masked cap i = i % cap := by
  rw [masked, h, Nat.and_two_pow_sub_one_eq_mod]

variable {slots : List (Option Nat)} {t : SymTable}

theorem symHashWalk_eq {k : Nat} (h : slots.length = 2 ^ k) (hit : Nat → Bool) (fuel i : Nat) :
    symHashWalk hit slots fuel i = probe hit slots fuel i := by
  induction fuel generalizing i with
  | zero => rfl
  | succ fuel ih =>
      unfold symHashWalk probe
      rw [masked_eq_mod h]
      simp only [ih]
      cases slots[i]? with
      | none => rfl
      | some o => cases o <;> rfl

/-- What the walk of an id starts from. -/
def keyOf (symbols : List Name) (e : Nat) : Nat := (taNameHash (symbols.getD e [])).toNat

/-- The slots hold the first `n` ids. -/
structure Holds (symbols : List Name) (n : Nat) (slots : List (Option Nat)) : Prop where
  size : ∃ k ≤ 30, slots.length = 2 ^ k
  probed : Probed (keyOf symbols) (· < n) slots
  used : slots.countP Option.isSome = n

theorem Holds.place {symbols : List Name} {n : Nat} (h : Holds symbols n slots)
    (hn : n < slots.length) :
    ∃ slots', (∀ fuel ≥ slots.length, symHashPlace fuel symbols slots n = some slots') ∧
      slots'.length = slots.length ∧ Holds symbols (n + 1) slots' := by
  obtain ⟨k, hk30, hk⟩ := h.size
  obtain ⟨d, hd, hwalk, hnone, hpath⟩ := h.probed.probe_miss
    (show ∀ b, b < n → (fun _ => false) b = false from fun _ _ => rfl) (by rw [h.used]; exact hn)
    (keyOf symbols n)
  refine ⟨slots.set ((keyOf symbols n + d) % slots.length) (some n), fun fuel hfuel => ?_,
    List.length_set, ?_, ?_, ?_⟩
  · rw [symHashPlace, symHashWalk_eq hk, masked_eq_mod hk]
    exact congrArg (Option.map _) (hwalk fuel hfuel)
  · exact ⟨k, hk30, by rw [List.length_set, hk]⟩
  · exact (h.probed.insert hd hnone hpath).congr (fun e => by omega) fun _ _ => rfl
  · rw [countP_isSome_set hnone, h.used]

theorem Holds.rebuild (symbols : List Name) {k n : Nat} (hk : k ≤ 30) (hn : n < 2 ^ k) :
    ∃ slots, (∀ fuel ≥ 2 ^ k, (List.range n).foldlM (symHashPlace fuel symbols)
        (List.replicate (2 ^ k) none) = some slots) ∧
      slots.length = 2 ^ k ∧ Holds symbols n slots := by
  induction n with
  | zero =>
      refine ⟨_, fun _ _ => rfl, List.length_replicate, ⟨k, hk, List.length_replicate⟩,
        (Probed.empty _ _).congr (fun e => by simp) fun _ _ => rfl, ?_⟩
      simp [List.countP_replicate]
  | succ n ih =>
      obtain ⟨slots, heq, hlen, hslots⟩ := ih (by omega)
      obtain ⟨slots', hplace, hlen', hslots'⟩ := hslots.place (by omega)
      refine ⟨slots', fun fuel hfuel => ?_, hlen'.trans hlen, hslots'⟩
      rw [List.range_succ, List.foldlM_append, heq fuel hfuel]
      simp [hplace fuel (by omega)]

theorem walk_free {fuel i j : Nat} (h : symHashWalk (fun _ => false) slots fuel i = some j) :
    slots[j]? = some none := by
  induction fuel generalizing i with
  | zero => exact absurd h nofun
  | succ fuel ih =>
      unfold symHashWalk at h
      split at h
      · exact ih h
      · next hnone => rwa [← Option.some.inj h]
      · exact absurd h nofun

/-- More names than slots are never placed. -/
theorem rebuild_overfull {symbols : List Name} {newcap : Nat} (h : newcap < symbols.length) (fuel : Nat) :
    symHashRebuild fuel symbols newcap = none := by
  have hcount : ∀ n slots, (List.range n).foldlM (symHashPlace fuel symbols)
      (List.replicate newcap none) = some slots →
      slots.length = newcap ∧ slots.countP Option.isSome = n := by
    intro n
    induction n with
    | zero =>
        intro slots heq
        obtain rfl := Option.some.inj heq
        simp [List.countP_replicate]
    | succ n ih =>
        intro slots heq
        rw [List.range_succ, List.foldlM_append] at heq
        obtain ⟨slots₀, h₀, heq⟩ := Option.bind_eq_some_iff.mp heq
        simp only [List.foldlM_cons, List.foldlM_nil, Option.pure_def, Option.bind_eq_bind,
          Option.bind_fun_some] at heq
        obtain ⟨i, hwalk, rfl⟩ := Option.map_eq_some_iff.mp heq
        obtain ⟨hlen, hcount⟩ := ih slots₀ h₀
        exact ⟨by rw [List.length_set, hlen], by rw [countP_isSome_set (walk_free hwalk), hcount]⟩
  cases hr : symHashRebuild fuel symbols newcap with
  | none => rfl
  | some slots =>
      obtain ⟨hlen, hused⟩ := hcount _ _ hr
      have := slots.countP_le_length (p := Option.isSome)
      omega

/-! ### One call -/

/-- What a symbol table keeps. -/
structure Inv (t : SymTable) : Prop where
  nodup : t.symbols.Nodup
  table : t.symHash ≠ [] → Holds t.symbols t.symbols.length t.symHash ∧ t.symbols.length < t.symHash.length

theorem lookup_eq (h : Inv t) (hne : t.symHash ≠ []) {fuel : Nat} (name : Name)
    (hfuel : t.symHash.length ≤ fuel) :
    symHashLookup fuel t name = some (t.symbols.findIdx? (· = name)) := by
  obtain ⟨⟨⟨k, -, hk⟩, hprobed, hused⟩, hlt⟩ := h.table hne
  rw [symHashLookup, symHashWalk_eq hk, masked_eq_mod hk]
  cases hfind : t.symbols.findIdx? (· = name) with
  | none =>
      have hmiss : ∀ b, b < t.symbols.length → decide (t.symbols[b]? = some name) = false := by
        intro b hb
        have := List.findIdx?_eq_none_iff.mp hfind _ (List.getElem_mem hb)
        simpa [List.getElem?_eq_getElem hb] using this
      obtain ⟨d, -, hwalk, hnone, -⟩ := hprobed.probe_miss hmiss (by omega) (taNameHash name).toNat
      rw [hwalk fuel hfuel, Option.map_some, hnone]
      rfl
  | some e =>
      obtain ⟨he, hname, -⟩ := List.findIdx?_eq_some_iff_getElem.mp hfind
      have hname : t.symbols[e] = name := of_decide_eq_true hname
      have hhit : ∀ b, b < t.symbols.length → (decide (t.symbols[b]? = some name) = true ↔ b = e) := by
        intro b hb
        rw [decide_eq_true_iff, List.getElem?_eq_getElem hb, Option.some.injEq, ← hname]
        exact h.nodup.getElem_inj_iff
      obtain ⟨j, hwalk, hslot⟩ := hprobed.probe_hit he hhit hfuel
      have hkey : keyOf t.symbols e = (taNameHash name).toNat := by
        rw [keyOf, List.getD_eq_getElem?_getD, List.getElem?_eq_getElem he, hname]
        rfl
      rw [hkey] at hwalk
      rw [hwalk, Option.map_some, hslot]
      rfl

/-- A table that was dropped is not built again once there are 256 names, and ten times the
number of names is an int. -/
def Fits (t : SymTable) (c : Call) : Prop :=
  c.name ∉ t.symbols → (t.symHash = [] → c.hashAlloc = true → t.symbols.length + 1 < 256) ∧
    (t.symbols.length + 1) * 10 < 2 ^ 31

instance (t : SymTable) (c : Call) : Decidable (Fits t c) := by unfold Fits; infer_instance

/-- A table that can grow has a power of two for its next size. -/
theorem grownCap_eq {cap k : Nat} (hk : k ≤ 30) (hcap : cap = 2 ^ k) (hpos : 0 < grownCap cap 256) :
    k + 1 ≤ 30 ∧ (grownCap cap 256).toNat = 2 ^ (k + 1) := by
  have hne : cap ≠ 0 := by
    rw [hcap]
    exact Nat.pos_iff_ne_zero.mp (Nat.two_pow_pos k)
  rw [grownCap, if_neg hne, hcap] at hpos ⊢
  have hlt : k < 30 := by
    refine Nat.lt_of_le_of_ne hk ?_
    rintro rfl
    exact absurd hpos (by decide)
  have hsize : 2 ^ (k + 1) ≤ 2 ^ 30 := Nat.pow_le_pow_right (by decide) hlt
  have heq : ((2 ^ k : Nat) : Int) * 2 = ((2 ^ (k + 1) : Nat) : Int) := by
    rw [Nat.pow_succ, Int.natCast_mul]
    rfl
  rw [heq, int32_of_range (by omega) (by omega)]
  exact ⟨hlt, rfl⟩

theorem insert_ends {name : Name} {symCap : Nat} (alloc : Bool) (h : Inv t)
    (hnew : name ∉ t.symbols) (hfits : t.symHash = [] → alloc = true → t.symbols.length + 1 < 256)
    (hcount : (t.symbols.length + 1) * 10 < 2 ^ 31) :
    ∃ t', (∀ fuel ≥ t.symHash.length * 2 + 256,
        symHashInsert fuel alloc ⟨t.symbols ++ [name], symCap, t.symHash⟩ = some t') ∧
      t'.symbols = t.symbols ++ [name] ∧ Inv t' := by
  have hnodup : (t.symbols ++ [name]).Nodup := by
    rw [List.nodup_append]
    exact ⟨h.nodup, List.nodup_singleton _, fun a ha b hb hab =>
      hnew (List.mem_singleton.mp hb ▸ hab ▸ ha)⟩
  have hlen : (t.symbols ++ [name]).length = t.symbols.length + 1 := by simp
  have hint : int32 ((t.symbols ++ [name]).length * 10) = (t.symbols.length + 1) * 10 := by
    rw [hlen, int32_of_range (by omega) (by omega)]
    rfl
  unfold symHashInsert
  dsimp only
  rw [hint]
  by_cases hload : ((t.symbols.length : Int) + 1) * 10 ≥ int32 (t.symHash.length * 7)
  · simp only [if_pos hload]
    by_cases hgrow : alloc = true ∧ 0 < grownCap t.symHash.length 256
    · have hcap : ∃ k ≤ 30, (grownCap t.symHash.length 256).toNat = 2 ^ k ∧
          t.symbols.length + 1 < 2 ^ k ∧ 2 ^ k ≤ t.symHash.length * 2 + 256 := by
        by_cases hnil : t.symHash = []
        · exact ⟨8, by decide, by rw [hnil]; rfl, hfits hnil hgrow.1, by omega⟩
        · obtain ⟨⟨⟨k, hk30, hk⟩, -, -⟩, hlt⟩ := h.table hnil
          obtain ⟨hk30, heq⟩ := grownCap_eq hk30 hk hgrow.2
          have hpos := Nat.two_pow_pos k
          rw [hk] at hlt ⊢
          exact ⟨k + 1, hk30, by rwa [hk] at heq, by rw [Nat.pow_succ]; omega,
            by rw [Nat.pow_succ]; omega⟩
      obtain ⟨k, hk30, hk, hroom, hbound⟩ := hcap
      obtain ⟨slots, hbuilt, hsize, hholds⟩ := Holds.rebuild (t.symbols ++ [name]) hk30
        (hlen ▸ hroom : (t.symbols ++ [name]).length < 2 ^ k)
      refine ⟨⟨t.symbols ++ [name], symCap, slots⟩, fun fuel hfuel => ?_, rfl, hnodup,
        fun _ => ⟨hholds, by dsimp only; omega⟩⟩
      rw [if_pos hgrow, symHashRebuild, hk, hbuilt fuel (by omega)]
      rfl
    · refine ⟨⟨t.symbols ++ [name], symCap, []⟩, fun _ _ => ?_, rfl, hnodup, fun hne => absurd rfl hne⟩
      rw [if_neg hgrow]
  · simp only [if_neg hload]
    -- Cut to 32 bits, seven times the size is no larger than it is.
    have hcut := int32_le (x := (t.symHash.length : Int) * 7) (by omega)
    obtain ⟨hholds, -⟩ := h.table fun hnil => by
      rw [hnil, List.length_nil] at hcut
      rw [hnil, List.length_nil] at hload
      omega
    have hold : Holds (t.symbols ++ [name]) t.symbols.length t.symHash := by
      refine ⟨hholds.size, hholds.probed.congr (fun _ => Iff.rfl) fun e he => ?_, hholds.used⟩
      rw [keyOf, keyOf, List.getD_append _ _ _ _ he]
    obtain ⟨slots, hplace, hsize, hnew⟩ := hold.place (by omega)
    refine ⟨⟨t.symbols ++ [name], symCap, slots⟩, fun fuel hfuel => ?_, rfl, hnodup,
      fun _ => ⟨by rw [hlen]; exact hnew, by dsimp only; omega⟩⟩
    rw [hlen, Nat.add_sub_cancel, hplace fuel (by omega)]
    rfl

/-- **One call** ends, and either finds the name's id, or gives up for want of memory
for the array, or appends the name. -/
theorem intern_ends {c : Call} (h : Inv t) (hfits : Fits t c) :
    ∃ id t', Interns t c id t' ∧ Inv t' ∧ t.symbols <+: t'.symbols ∧
      ∀ i, id = some i → t'.symbols[i]? = some c.name := by
  have hhit : ∀ fuel ≥ t.symHash.length, (if t.symHash.length > 0 then symHashLookup fuel t c.name
      else some (t.symbols.findIdx? (· = c.name))) = some (t.symbols.findIdx? (· = c.name)) := by
    intro fuel hfuel
    split
    · next hpos => exact lookup_eq h (List.length_pos_iff.mp hpos) c.name hfuel
    · rfl
  cases hfind : t.symbols.findIdx? (· = c.name) with
  | some i =>
      refine ⟨some i, t, ⟨t.symHash.length, fun fuel hfuel => ?_⟩, h, List.prefix_refl _, ?_⟩
      · rw [vmInternSymbol, hhit fuel hfuel, hfind]
      · rintro j ⟨⟩
        obtain ⟨hi, hname, -⟩ := List.findIdx?_eq_some_iff_getElem.mp hfind
        rw [List.getElem?_eq_getElem hi, of_decide_eq_true hname]
  | none =>
      have hnew : c.name ∉ t.symbols := fun hin => by
        simpa using List.findIdx?_eq_none_iff.mp hfind _ hin
      by_cases hfull : t.symbols.length ≥ t.symCap ∧ ¬ (c.arrayAlloc ∧ 0 < grownCap t.symCap 16)
      · refine ⟨none, t, ⟨t.symHash.length, fun fuel hfuel => ?_⟩, h, List.prefix_refl _, nofun⟩
        rw [vmInternSymbol, hhit fuel hfuel, hfind]
        exact if_pos hfull
      · obtain ⟨t', hins, hsym, hinv⟩ := insert_ends c.hashAlloc h hnew
          (hfits hnew).1 (hfits hnew).2
        refine ⟨some t.symbols.length, t', ⟨t.symHash.length * 2 + 256, fun fuel hfuel => ?_⟩, hinv,
          hsym ▸ List.prefix_append _ _, ?_⟩
        · rw [vmInternSymbol, hhit fuel (by omega), hfind]
          dsimp only
          rw [if_neg hfull, hins fuel hfuel]
          rfl
        · rintro j ⟨⟩
          simp [hsym]

theorem Interns.unique {t₁ t₂ : SymTable} {c : Call} {i₁ i₂ : Option Nat} (h₁ : Interns t c i₁ t₁)
    (h₂ : Interns t c i₂ t₂) : i₁ = i₂ ∧ t₁ = t₂ := by
  obtain ⟨n₁, h₁⟩ := h₁
  obtain ⟨n₂, h₂⟩ := h₂
  exact Prod.mk.inj (Option.some.inj
    ((h₁ (max n₁ n₂) (Nat.le_max_left ..)).symm.trans (h₂ (max n₁ n₂) (Nat.le_max_right ..))))

/-! ### Any sequence of calls -/

/-- A table, and the names interned so far with the ids returned. -/
structure Session where
  table : SymTable
  log : List (Name × Option Nat)

namespace Session

def init : Session := ⟨.init, []⟩

/-- A call that comes to an end. -/
def Step (s : Session) (c : Call) (s' : Session) : Prop :=
  ∃ id t', Interns s.table c id t' ∧ s' = ⟨t', s.log ++ [(c.name, id)]⟩

/-- The ids handed out mean the names they were given for. -/
def Kept (s : Session) : Prop :=
  Inv s.table ∧ ∀ {n : Name} {i : Nat}, (n, some i) ∈ s.log → s.table.symbols[i]? = some n

theorem Kept.step {s s' : Session} {c : Call} (h : Kept s) (hfits : Fits s.table c)
    (hs : Step s c s') : Kept s' := by
  obtain ⟨id, t', hcall, rfl⟩ := hs
  obtain ⟨id', t'', hcall', hinv, ⟨more, hmore⟩, hid⟩ := intern_ends h.1 hfits
  obtain ⟨rfl, rfl⟩ := hcall.unique hcall'
  refine ⟨hinv, fun {n i} hin => ?_⟩
  rcases List.mem_append.mp hin with hin | hin
  · have hold := h.2 hin
    dsimp only
    rw [← hmore, List.getElem?_append_left (List.getElem?_eq_some_iff.mp hold).1, hold]
  · obtain ⟨rfl, rfl⟩ := Prod.mk.inj (List.mem_singleton.mp hin)
    exact hid i rfl

/-- **Interning.**  In every sequence of calls in which there are not more names than ten times
their number is an int, and a table that was dropped is not built again once there are 256
of them: the next call comes to an end; every id handed out
maps to the name it was given for; and two calls got the same id exactly if they had the
same name. -/
theorem interning_is_stable {calls : List Call} {s : Session}
    (hrun : Run (guarded (fun s c => Fits s.table c) Step) init calls s) :
    (∀ c, Fits s.table c → ∃ s', Step s c s') ∧
    (∀ n i, (n, some i) ∈ s.log → vmSymbolName s.table i = some n) ∧
    ∀ n m i j, (n, some i) ∈ s.log → (m, some j) ∈ s.log → (n = m ↔ i = j) := by
  have h : Kept s := hrun.invariant (fun _ _ _ h hs => h.step hs.1 hs.2)
    ⟨⟨List.nodup_nil, fun hne => absurd rfl hne⟩, fun hin => absurd hin List.not_mem_nil⟩
  refine ⟨fun c hfits => ?_, fun n i hin => h.2 hin, fun n m i j hn hm => ⟨?_, ?_⟩⟩
  · obtain ⟨id, t', hcall, -⟩ := intern_ends h.1 hfits
    exact ⟨_, id, t', hcall, rfl⟩
  · rintro rfl
    have hi := h.2 hn
    exact (List.getElem?_inj (List.getElem?_eq_some_iff.mp hi).1 h.1.nodup).mp (hi.trans (h.2 hm).symm)
  · rintro rfl
    exact Option.some.inj ((h.2 hn).symm.trans (h.2 hm))

theorem interning_is_stable_fresh :
    ∃ s, Run (guarded (fun s c => Fits s.table c) Step) init [⟨[97], true, false⟩] s ∧
      (∃ s', Step s ⟨[98], true, true⟩ s') ∧
      ∀ n m i j, (n, some i) ∈ s.log → (m, some j) ∈ s.log → (n = m ↔ i = j) := by
  have hfull : int32 (([[97]] : List Name).length * 10) ≥ int32 (([] : List (Option Nat)).length * 7) := by
    decide +kernel
  have hs : Step init ⟨[97], true, false⟩ ⟨⟨[[97]], 16, []⟩, [([97], some 0)]⟩ := by
    refine ⟨some 0, _, ⟨0, fun fuel _ => ?_⟩, rfl⟩
    have hins : symHashInsert fuel false ⟨[[97]], 16, []⟩ = some ⟨[[97]], 16, []⟩ := if_pos hfull
    simp [vmInternSymbol, init, SymTable.init, grownCap, hins]
  have hrun : Run (guarded (fun s c => Fits s.table c) Step) init _ _ := .single ⟨by decide, hs⟩
  obtain ⟨hnext, -, hids⟩ := interning_is_stable hrun
  exact ⟨_, hrun, hnext ⟨[98], true, true⟩ (by decide), hids⟩

/-! ### The table that is built again too small -/

/-- Names that are all different. -/
def repeated (n : Nat) : Name := List.replicate (n + 1) 97

theorem repeated_new (k : Nat) : repeated k ∉ (List.range k).map repeated := by
  intro hin
  obtain ⟨n, hn, heq⟩ := List.mem_map.mp hin
  have hlt := List.mem_range.mp hn
  have := congrArg List.length heq
  simp [repeated] at this
  omega

/-- Without a hash table a new name is appended to the array. -/
theorem intern_dropped {name : Name} (hnil : t.symHash = []) (hnew : name ∉ t.symbols)
    (hlen : t.symbols.length ≤ 256) (hcap : t.symCap ≤ 2 * t.symbols.length + 16) (alloc : Bool) :
    ∃ symCap ≤ 2 * (t.symbols.length + 1) + 16, ∀ fuel, vmInternSymbol fuel t ⟨name, true, alloc⟩ =
      (symHashInsert fuel alloc ⟨t.symbols ++ [name], symCap, []⟩).map
        fun t' => (some t.symbols.length, t') := by
  have hfind : t.symbols.findIdx? (· = name) = none :=
    List.findIdx?_eq_none_iff.mpr fun x hx => decide_eq_false fun heq => hnew (heq ▸ hx)
  have hgrown : 0 < grownCap t.symCap 16 ∧ (t.symbols.length ≥ t.symCap →
      (grownCap t.symCap 16).toNat ≤ 2 * (t.symbols.length + 1) + 16) := by
    unfold grownCap
    split
    · exact ⟨by decide, fun _ => by omega⟩
    · rw [int32_of_range (by omega) (by omega)]
      exact ⟨by omega, fun hfull => by omega⟩
  refine ⟨if t.symbols.length ≥ t.symCap then (grownCap t.symCap 16).toNat else t.symCap, ?_,
    fun fuel => ?_⟩
  · split
    · next hfull => exact hgrown.2 hfull
    · omega
  · rw [vmInternSymbol, hnil]
    simp only [List.length_nil, Nat.lt_irrefl, if_false, gt_iff_lt, hfind]
    rw [if_neg fun hfull => hfull.2 ⟨trivial, hgrown.1⟩]

/-- Without slots every table is too full. -/
theorem overloaded {n : Nat} (h : n ≤ 257) :
    int32 ((n : Int) * 10) ≥ int32 (([] : List (Option Nat)).length * 7) := by
  rw [int32_of_range (by omega) (by omega), List.length_nil, int32_of_range (by omega) (by omega)]
  omega

theorem dropped_run {k : Nat} (hk : k ≤ 256) : ∃ s, Run Step init
    ((List.range k).map fun n => ⟨repeated n, true, false⟩) s ∧
      s.table.symbols = (List.range k).map repeated ∧ s.table.symHash = [] ∧
      s.table.symCap ≤ 2 * s.table.symbols.length + 16 := by
  induction k with
  | zero => exact ⟨init, .nil init, rfl, rfl, by decide⟩
  | succ k ih =>
      obtain ⟨s, hrun, hsym, hnil, hcap⟩ := ih (by omega)
      have hlen : s.table.symbols.length = k := by simp [hsym]
      obtain ⟨symCap, hcap, hcall⟩ :=
        intern_dropped hnil (hsym ▸ repeated_new k) (by omega) hcap false
      have hlast : (s.table.symbols ++ [repeated k]).length = k + 1 := by simp [hlen]
      rw [List.range_succ, List.map_append, List.map_append]
      refine ⟨_, hrun.append (.single ⟨some s.table.symbols.length,
        ⟨s.table.symbols ++ [repeated k], symCap, []⟩, ⟨0, fun fuel _ => ?_⟩, rfl⟩), ?_, rfl, ?_⟩
      · rw [hcall fuel, symHashInsert, if_pos (hlast ▸ overloaded (by omega))]
        rfl
      · rw [hsym]
        rfl
      · dsimp only
        omega

/-- There was no memory for the hash table while 256 names were interned, and there is
when one more is: the call does not come to an end. -/
theorem rebuild_without_end : ∃ s, Run Step init
    ((List.range 256).map fun n => ⟨repeated n, true, false⟩) s ∧
      ∀ fuel, vmInternSymbol fuel s.table ⟨repeated 256, true, true⟩ = none := by
  obtain ⟨s, hrun, hsym, hnil, hcap⟩ := dropped_run (Nat.le_refl 256)
  have hlen : s.table.symbols.length = 256 := by simp [hsym]
  obtain ⟨symCap, -, hcall⟩ :=
    intern_dropped hnil (hsym ▸ repeated_new 256) (Nat.le_of_eq hlen) hcap true
  have hlast : (s.table.symbols ++ [repeated 256]).length = 257 := by simp [hlen]
  refine ⟨s, hrun, fun fuel => ?_⟩
  have hover : symHashRebuild fuel (s.table.symbols ++ [repeated 256]) 256 = none :=
    rebuild_overfull (by omega) fuel
  have hpos : 0 < grownCap ([] : List (Option Nat)).length 256 := by decide
  have hfirst : (grownCap ([] : List (Option Nat)).length 256).toNat = 256 := rfl
  rw [hcall fuel, symHashInsert, if_pos (hlast ▸ overloaded (by decide)), if_pos ⟨rfl, hpos⟩]
  simp only [hfirst, hover, Option.map_none]

end Session

end TinyActor.Runtime.Symbols
