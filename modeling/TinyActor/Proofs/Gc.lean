/-
A collection keeps the graph.

The objects copied so far, in the order they were copied, say everything about a
collection under way: the `i`-th of them lies in the destination behind the ones
before it, its old place holds a pointer there, and nothing else has changed.
The walk divides the list in two: the objects before it have their words
renamed, and everything those point at is in the list; the objects behind it are
still as they were.  `Copying` is that invariant.  When the walk has caught up
with the list, the renaming is an isomorphism of what the roots reach.

The sizes work out because the list never holds an object twice: whatever the
roots reach, it takes no more room than the heap and the chunks did.
-/
import TinyActor.Lib.Graph
import TinyActor.Proofs.Arena
import TinyActor.Runtime.Gc

namespace TinyActor.Runtime.Gc

open TinyActor.Lib

/-! ### Words and objects -/

variable {cells : Cells} {o : Obj} {a i j : Nat}

namespace Obj

theorem refs_map (f : Nat → Nat) (o : Obj) : (o.map f).refs = o.refs.map f := by
  have hval : ∀ vs : List Val,
      (vs.map (Val.map f)).filterMap Val.addr? = (vs.filterMap Val.addr?).map f := by
    intro vs
    induction vs with
    | nil => rfl
    | cons v vs ih =>
        cases v with
        | imm w => exact ih
        | ptr tag a => exact congrArg (f a :: ·) ih
  cases o with
  | pair car cdr => exact hval [car, cdr]
  | clos entry free => exact hval free
  | string data | bytes data | resource owner res => rfl

theorem withVals_map (f : Nat → Nat) (o : Obj) : o.withVals (o.vals.map (Val.map f)) = o.map f := by
  cases o <;> rfl

theorem stride_map (f : Nat → Nat) (o : Obj) : (o.map f).stride = o.stride := by
  cases o with
  | clos entry free => simp [map, stride, gcObjSize]
  | pair _ _ | string _ | bytes _ | resource _ _ => rfl

theorem gcObjSize_pos (o : Obj) : 0 < o.gcObjSize := by
  unfold gcObjSize
  exact Int.lt_toNat.mpr (Arena.taHeapObjectSize_pos _)

theorem stride_pos (o : Obj) : 0 < o.stride := by
  have := o.gcObjSize_pos
  unfold stride
  omega

theorem stride_cleared (o : Obj) : o.cleared.stride = o.stride := by
  cases o <;> rfl

theorem releasable_eq_some {pid p : Nat} :
    o.releasable pid = some p ↔ o = .resource pid (some p) := by
  cases o with
  | resource owner res =>
      show (if owner = pid then res else none) = some p ↔ _
      rw [resource.injEq]
      by_cases h : owner = pid <;> simp [h]
  | pair _ _ | clos _ _ | string _ | bytes _ => simp [releasable]

theorem mem_refs {b : Nat} : b ∈ o.refs ↔ ∃ v ∈ o.vals, v.addr? = some b := by
  unfold refs
  rw [List.mem_filterMap]

/-- Only where the addresses in an object go matters. -/
theorem map_congr {f g : Nat → Nat} (h : ∀ b ∈ o.refs, f b = g b) : o.map f = o.map g := by
  have hval : ∀ v ∈ o.vals, v.map f = v.map g := by
    intro v hv
    cases v with
    | imm w => rfl
    | ptr tag a => exact congrArg (Val.ptr tag) (h a (mem_refs.mpr ⟨_, hv, rfl⟩))
  cases o with
  | pair car cdr =>
      exact congrArg₂ Obj.pair (hval car (by simp [vals])) (hval cdr (by simp [vals]))
  | clos entry free => exact congrArg (Obj.clos entry) (List.map_congr_left hval)
  | string data | bytes data | resource owner res => rfl

theorem map_id (o : Obj) : o.map id = o := by
  have hval : ∀ v : Val, v.map id = v := by
    intro v
    cases v <;> rfl
  cases o with
  | pair car cdr => exact congrArg₂ Obj.pair (hval car) (hval cdr)
  | clos entry free =>
      refine congrArg (Obj.clos entry) ?_
      rw [List.map_congr_left fun v _ => hval v]
      exact List.map_id' _
  | string data | bytes data | resource owner res => rfl

end Obj

/-- The objects of a memory, without the places that hold forwarding pointers. -/
def store (cells : Cells) (a : Nat) : Option Obj :=
  match cells a with
  | some (.obj o) => some o
  | _ => none

theorem store_eq_some : store cells a = some o ↔ cells a = some (.obj o) := by
  unfold store
  constructor
  · intro h
    split at h
    · next o' heq => rw [heq, Option.some.inj h]
    · exact absurd h (by simp)
  · intro h
    rw [h]

/-! ### The objects copied so far -/

/-- The bytes copied objects take. -/
abbrev bytes (log : List (Nat × Obj)) : Nat := extent (fun x => x.2.stride) log

theorem bytes_take_lt (log : List (Nat × Obj)) (hij : i < j) (hj : j ≤ log.length) :
    bytes (log.take i) < bytes (log.take j) :=
  extent_take_lt (fun x => x.2.stride_pos) log hij hj

/-- Where the copies are: the renaming a collection has made so far. -/
def target (S : Spaces) (log : List (Nat × Obj)) (a : Nat) : Nat :=
  if a ∈ log.map Prod.fst then S.gcTo + bytes (log.take ((log.map Prod.fst).idxOf a)) else a

section Target

variable {S : Spaces} {log : List (Nat × Obj)}

theorem target_of_not_mem (h : a ∉ log.map Prod.fst) : target S log a = a := if_neg h

theorem target_getElem (hnd : (log.map Prod.fst).Nodup) (hi : i < log.length) :
    target S log log[i].1 = S.gcTo + bytes (log.take i) := by
  have hi' : i < (log.map Prod.fst).length := by rwa [List.length_map]
  have hget : (log.map Prod.fst)[i] = log[i].1 := List.getElem_map ..
  unfold target
  rw [if_pos (hget ▸ List.getElem_mem hi'), ← hget, hnd.idxOf_getElem i hi']

/-- Later copies do not move earlier ones. -/
theorem target_append (h : a ∈ log.map Prod.fst) (ext : List (Nat × Obj)) :
    target S (log ++ ext) a = target S log a := by
  have hlt : (log.map Prod.fst).idxOf a < log.length := by
    have := List.idxOf_lt_length_iff.mpr h
    rwa [List.length_map] at this
  unfold target
  rw [List.map_append, if_pos (List.mem_append_left _ h), if_pos h, List.idxOf_append_of_mem h,
    List.take_append_of_le_length (Nat.le_of_lt hlt)]

theorem exists_getElem_of_mem (h : a ∈ log.map Prod.fst) :
    ∃ i, ∃ hi : i < log.length, log[i].1 = a := by
  obtain ⟨x, hx, rfl⟩ := List.mem_map.mp h
  obtain ⟨i, hi, rfl⟩ := List.getElem_of_mem hx
  exact ⟨i, hi, rfl⟩

end Target

/-! ### The invariant of a collection -/

/-- What a collection finds: `objs` are the objects it may copy. -/
structure Source (S : Spaces) (cells : Cells) (roots : List Nat) (objs : List (Nat × Obj)) :
    Prop where
  /-- What the roots reach are objects. -/
  live : ∀ {a : Nat}, Reach Obj.refs (store cells) roots a → ∃ o, cells a = some (.obj o)
  copied : ∀ {a : Nat} {o : Obj}, Reach Obj.refs (store cells) roots a → S.gcCopyable a = true →
    cells a = some (.obj o) → (a, o) ∈ objs
  /-- Nothing outside points back in. -/
  closed : ∀ {a b : Nat} {o : Obj}, Reach Obj.refs (store cells) roots a → S.gcCopyable a = false →
    cells a = some (.obj o) → b ∈ o.refs → S.gcCopyable b = false
  /-- The destination is somewhere else. -/
  apart : ∀ {a : Nat}, Reach Obj.refs (store cells) roots a ∨ S.gcCopyable a = true →
    a < S.gcTo ∨ S.gcTo + S.room ≤ a
  fits : (bytes objs : Int) ≤ S.room

/-- The invariant: `log` are the objects copied so far, and the walk has passed
the first `k` of them. -/
structure Copying (S : Spaces) (cells : Cells) (roots : List Nat) (objs : List (Nat × Obj))
    (h : Heap) (log : List (Nat × Obj)) (k : Nat) : Prop where
  size : h.gcToSize = bytes log
  nodup : (log.map Prod.fst).Nodup
  source : ∀ {x : Nat × Obj}, x ∈ log → S.gcCopyable x.1 = true ∧
    Reach Obj.refs (store cells) roots x.1 ∧ cells x.1 = some (.obj x.2)
  fwd : ∀ {i : Nat} (hi : i < log.length),
    h.cells log[i].1 = some (.fwd (S.gcTo + bytes (log.take i)))
  /-- Everything else is as it was. -/
  rest : ∀ {a : Nat}, a ∉ log.map Prod.fst → a < S.gcTo ∨ S.gcTo + bytes log ≤ a →
    h.cells a = cells a
  todo : ∀ {i : Nat} (hi : i < log.length), k ≤ i →
    h.cells (S.gcTo + bytes (log.take i)) = some (.obj log[i].2)
  done : ∀ {i : Nat} (hi : i < log.length), i < k →
    h.cells (S.gcTo + bytes (log.take i)) = some (.obj (log[i].2.map (target S log))) ∧
      ∀ b ∈ log[i].2.refs, S.gcCopyable b = true → b ∈ log.map Prod.fst

namespace Copying

variable {S : Spaces} {cells : Cells} {roots : List Nat} {objs : List (Nat × Obj)} {h : Heap}
  {log : List (Nat × Obj)} {k : Nat}

theorem start : Copying S cells roots objs ⟨cells, 0⟩ [] 0 where
  size := rfl
  nodup := List.nodup_nil
  source hx := absurd hx List.not_mem_nil
  fwd hi := absurd hi (Nat.not_lt_zero _)
  rest _ _ := rfl
  todo hi := absurd hi (Nat.not_lt_zero _)
  done hi := absurd hi (Nat.not_lt_zero _)

theorem copyable (c : Copying S cells roots objs h log k) (ha : a ∈ log.map Prod.fst) :
    S.gcCopyable a = true := by
  obtain ⟨x, hx, rfl⟩ := List.mem_map.mp ha
  exact (c.source hx).1

theorem subset (src : Source S cells roots objs) (c : Copying S cells roots objs h log k) :
    log ⊆ objs := by
  intro x hx
  obtain ⟨hcopy, hreach, hcell⟩ := c.source hx
  exact src.copied hreach hcopy hcell

/-- No object is copied twice, so what is copied takes no more room than there
was to copy. -/
theorem bytes_le (src : Source S cells roots objs) (c : Copying S cells roots objs h log k) :
    bytes log ≤ bytes objs :=
  extent_le_of_subset (List.Nodup.of_map _ c.nodup) (c.subset src)

theorem bytes_le_room (src : Source S cells roots objs) (c : Copying S cells roots objs h log k) :
    (bytes log : Int) ≤ S.room := by
  have hle := c.bytes_le src
  have hfit := src.fits
  omega

theorem length_le (src : Source S cells roots objs) (c : Copying S cells roots objs h log k) :
    log.length ≤ objs.length :=
  ((List.Nodup.of_map _ c.nodup).subperm (c.subset src)).length_le

/-- A copy lies in the destination, and what is reached does not. -/
theorem place_ne (src : Source S cells roots objs) (c : Copying S cells roots objs h log k)
    (hi : i < log.length) (ha : Reach Obj.refs (store cells) roots a ∨ S.gcCopyable a = true) :
    S.gcTo + bytes (log.take i) ≠ a := by
  have hlt := bytes_take_lt log hi (Nat.le_refl _)
  rw [List.take_length] at hlt
  have hroom := c.bytes_le_room src
  have := src.apart ha
  omega

theorem place_inj (hi : i < log.length) (hj : j < log.length) (hne : i ≠ j) :
    S.gcTo + bytes (log.take i) ≠ S.gcTo + bytes (log.take j) := by
  intro heq
  exact hne (extent_take_inj (fun x : Nat × Obj => x.2.stride_pos) log (Nat.le_of_lt hi)
    (Nat.le_of_lt hj) (Nat.add_left_cancel heq))

/-- The words of a walked object point where they did when it was walked. -/
theorem map_target_append (ho : ∀ b ∈ o.refs, S.gcCopyable b = true → b ∈ log.map Prod.fst)
    {x : Nat × Obj} (hx : S.gcCopyable x.1 = true) :
    o.map (target S (log ++ [x])) = o.map (target S log) := by
  refine Obj.map_congr fun b hb => ?_
  by_cases hmem : b ∈ log.map Prod.fst
  · exact target_append hmem _
  · have hnot : b ∉ (log ++ [x]).map Prod.fst := by
      intro hin
      rw [List.map_append, List.mem_append] at hin
      rcases hin with hin | hin
      · exact hmem hin
      · rw [List.mem_singleton.mp hin] at hb hmem
        exact hmem (ho _ hb hx)
    rw [target_of_not_mem hmem, target_of_not_mem hnot]

/-- There is room for an object that has not been copied. -/
theorem room_for (src : Source S cells roots objs) (c : Copying S cells roots objs h log k)
    (hreach : Reach Obj.refs (store cells) roots a) (hcopy : S.gcCopyable a = true)
    (hcell : cells a = some (.obj o)) (hnew : a ∉ log.map Prod.fst) :
    (bytes log : Int) + o.stride ≤ S.room := by
  have hnd : (log ++ [(a, o)]).Nodup := by
    refine List.nodup_append.mpr ⟨List.Nodup.of_map _ c.nodup, List.nodup_singleton _, ?_⟩
    intro x hx y hy heq
    rw [heq, List.mem_singleton.mp hy] at hx
    exact hnew (List.mem_map.mpr ⟨_, hx, rfl⟩)
  have hsub : log ++ [(a, o)] ⊆ objs := by
    intro x hx
    rcases List.mem_append.mp hx with hx | hx
    · exact c.subset src hx
    · rw [List.mem_singleton.mp hx]
      exact src.copied hreach hcopy hcell
  have hle : bytes (log ++ [(a, o)]) ≤ bytes objs := extent_le_of_subset hnd hsub
  have hfit := src.fits
  rw [show bytes (log ++ [(a, o)]) = bytes log + o.stride by simp [bytes]] at hle
  omega

/-- Copying an object that has not been copied. -/
theorem copy (src : Source S cells roots objs) (c : Copying S cells roots objs h log k)
    (hreach : Reach Obj.refs (store cells) roots a) (hcopy : S.gcCopyable a = true)
    (hcell : cells a = some (.obj o)) (hnew : a ∉ log.map Prod.fst) (hk : k ≤ log.length) :
    Copying S cells roots objs
      { (h.write (S.gcTo + bytes log) (.obj o)).write a (.fwd (S.gcTo + bytes log)) with
        gcToSize := h.gcToSize + o.stride } (log ++ [(a, o)]) k := by
  have hroom := c.room_for src hreach hcopy hcell hnew
  have hpos := o.stride_pos
  have hbytes : bytes (log ++ [(a, o)]) = bytes log + o.stride := by simp [bytes]
  -- what is reached is not where the copy goes
  have hout : ∀ {b}, Reach Obj.refs (store cells) roots b → b ≠ S.gcTo + bytes log := by
    intro b hb
    have := src.apart (.inl hb)
    omega
  have hplace : ∀ {i}, i < log.length → S.gcTo + bytes (log.take i) ≠ S.gcTo + bytes log := by
    intro i hi
    have := bytes_take_lt log hi (Nat.le_refl _)
    rw [List.take_length] at this
    omega
  -- so a place that is neither is left alone
  have hkeep : ∀ {b}, b ≠ a → b ≠ S.gcTo + bytes log →
      ((h.write (S.gcTo + bytes log) (.obj o)).write a (.fwd (S.gcTo + bytes log))).cells b =
        h.cells b := by
    intro b hba hbt
    simp only [Heap.write, Function.update_of_ne hba, Function.update_of_ne hbt]
  have htake : ∀ {i}, i < log.length → (log ++ [(a, o)]).take i = log.take i := fun hi =>
    List.take_append_of_le_length (Nat.le_of_lt hi)
  have hlast : ∀ {i}, i < (log ++ [(a, o)]).length → ¬ i < log.length → i = log.length := by
    intro i hi hni
    rw [List.length_append, List.length_singleton] at hi
    omega
  refine ⟨?_, ?_, ?_, ?_, ?_, ?_, ?_⟩
  · rw [hbytes, ← c.size]
  · rw [List.map_append]
    refine List.nodup_append.mpr ⟨c.nodup, List.nodup_singleton _, ?_⟩
    intro x hx y hy heq
    rw [heq, List.mem_singleton.mp hy] at hx
    exact hnew hx
  · intro x hx
    rcases List.mem_append.mp hx with hx | hx
    · exact c.source hx
    · rw [List.mem_singleton.mp hx]
      exact ⟨hcopy, hreach, hcell⟩
  · intro i hi
    by_cases hlt : i < log.length
    · have hmem := List.getElem_mem hlt
      have hna : log[i].1 ≠ a := fun heq => hnew (heq ▸ List.mem_map.mpr ⟨_, hmem, rfl⟩)
      rw [List.getElem_append_left hlt, htake hlt]
      exact (hkeep hna (hout (c.source hmem).2.1)).trans (c.fwd hlt)
    · obtain rfl := hlast hi hlt
      simp [Heap.write]
  · intro b hb hrange
    rw [List.map_append, List.mem_append, not_or] at hb
    have hba : b ≠ a := fun heq => hb.2 (by simp [heq])
    rw [hbytes] at hrange
    exact (hkeep hba (by omega)).trans (c.rest hb.1 (by omega))
  · intro i hi hki
    by_cases hlt : i < log.length
    · rw [List.getElem_append_left hlt, htake hlt]
      exact (hkeep (c.place_ne src hlt (.inl hreach)) (hplace hlt)).trans (c.todo hlt hki)
    · obtain rfl := hlast hi hlt
      have hne := hout hreach
      simp [Heap.write, Function.update_of_ne hne.symm]
  · intro i hi hik
    have hlt : i < log.length := Nat.lt_of_lt_of_le hik hk
    obtain ⟨hcell, hrefs⟩ := c.done hlt hik
    rw [List.getElem_append_left hlt, htake hlt, map_target_append hrefs hcopy]
    refine ⟨(hkeep (c.place_ne src hlt (.inl hreach)) (hplace hlt)).trans hcell, ?_⟩
    intro b hb hcb
    rw [List.map_append]
    exact List.mem_append_left _ (hrefs b hb hcb)

/-- The walk passes an object whose words have been copied. -/
theorem walk (src : Source S cells roots objs) (c : Copying S cells roots objs h log k)
    (hk : k < log.length)
    (hrefs : ∀ b ∈ log[k].2.refs, S.gcCopyable b = true → b ∈ log.map Prod.fst) :
    Copying S cells roots objs
      (h.write (S.gcTo + bytes (log.take k)) (.obj (log[k].2.map (target S log)))) log (k + 1) := by
  have hkeep : ∀ {b}, b ≠ S.gcTo + bytes (log.take k) →
      (h.write (S.gcTo + bytes (log.take k)) (.obj (log[k].2.map (target S log)))).cells b =
        h.cells b := fun hb => Function.update_of_ne hb ..
  refine ⟨c.size, c.nodup, c.source, ?_, ?_, ?_, ?_⟩
  · intro i hi
    have hne := c.place_ne src hk (.inl (c.source (List.getElem_mem hi)).2.1)
    exact (hkeep hne.symm).trans (c.fwd hi)
  · intro b hb hrange
    have hlt := bytes_take_lt log hk (Nat.le_refl _)
    rw [List.take_length] at hlt
    exact (hkeep (by omega)).trans (c.rest hb hrange)
  · intro i hi hki
    exact (hkeep (place_inj hi hk (by omega))).trans (c.todo hi (by omega))
  · intro i hi hik
    by_cases heq : i = k
    · subst heq
      exact ⟨Function.update_self .., hrefs⟩
    · obtain ⟨hcell, hr⟩ := c.done hi (by omega)
      exact ⟨(hkeep (place_inj hi hk heq)).trans hcell, hr⟩

/-! ### What each function of the collector does -/

/-- Copying one word renames it, and what it points at is copied. -/
theorem copyVal (src : Source S cells roots objs) (c : Copying S cells roots objs h log k)
    (hk : k ≤ log.length) {v : Val}
    (hv : ∀ a, v.addr? = some a → Reach Obj.refs (store cells) roots a) :
    ∃ h' ext, gcCopyVal S h v = some (v.map (target S (log ++ ext)), h') ∧
      Copying S cells roots objs h' (log ++ ext) k ∧
      ∀ a, v.addr? = some a → S.gcCopyable a = true → a ∈ (log ++ ext).map Prod.fst := by
  cases v with
  | imm w => exact ⟨h, [], rfl, by rwa [List.append_nil], fun a ha => absurd ha (by simp [Val.addr?])⟩
  | ptr tag a =>
      have hreach := hv a rfl
      have haddr : ∀ b, (Val.ptr tag a).addr? = some b → b = a := fun b hb => (Option.some.inj hb).symm
      unfold gcCopyVal
      by_cases hcopy : S.gcCopyable a = true
      · dsimp only
        rw [if_pos hcopy]
        by_cases hin : a ∈ log.map Prod.fst
        · -- already copied: the forwarding pointer names the copy
          obtain ⟨i, hi, rfl⟩ := exists_getElem_of_mem hin
          refine ⟨h, [], ?_, by rwa [List.append_nil], fun b hb _ => ?_⟩
          · rw [List.append_nil]
            simp only [gcCopyObj, c.fwd hi, Option.map_some, Val.map, target_getElem c.nodup hi]
          · rw [List.append_nil, haddr b hb]
            exact hin
        · obtain ⟨o, ho⟩ := src.live hreach
          have hroom := c.room_for src hreach hcopy ho hin
          have hcell : h.cells a = some (.obj o) := by
            have hle := c.bytes_le_room src
            rw [← ho]
            refine c.rest hin ?_
            have := src.apart (.inl hreach)
            omega
          have hc' := c.copy src hreach hcopy ho hin hk
          have hlen : log.length < (log ++ [(a, o)]).length := by simp
          have htarget : target S (log ++ [(a, o)]) a = S.gcTo + bytes log := by
            have := target_getElem (S := S) hc'.nodup hlen
            simpa using this
          refine ⟨_, [(a, o)], ?_, hc', fun b hb _ => ?_⟩
          · simp only [gcCopyObj, hcell, c.size, Val.map, htarget]
            rw [if_neg (by omega)]
            rfl
          · rw [haddr b hb]
            simp
      · dsimp only
        rw [if_neg hcopy]
        have hnot : a ∉ log.map Prod.fst := fun hin => hcopy (c.copyable hin)
        refine ⟨h, [], ?_, by rwa [List.append_nil], fun b hb hcb => ?_⟩
        · rw [List.append_nil]
          simp only [Val.map, target_of_not_mem hnot]
        · rw [haddr b hb] at hcb
          exact absurd hcb hcopy

/-- Objects copied later do not change where a copied word points. -/
theorem target_later {ext : List (Nat × Obj)} (c : Copying S cells roots objs h (log ++ ext) k)
    (ha : S.gcCopyable a = true → a ∈ log.map Prod.fst) :
    target S (log ++ ext) a = target S log a := by
  by_cases hin : a ∈ log.map Prod.fst
  · exact target_append hin ext
  · have hout : a ∉ (log ++ ext).map Prod.fst := fun hmem => hin (ha (c.copyable hmem))
    rw [target_of_not_mem hin, target_of_not_mem hout]

theorem copyVals (src : Source S cells roots objs) (vs : List Val)
    (c : Copying S cells roots objs h log k) (hk : k ≤ log.length)
    (hv : ∀ v ∈ vs, ∀ a, v.addr? = some a → Reach Obj.refs (store cells) roots a) :
    ∃ h' ext, gcCopyVals S h vs = some (vs.map (Val.map (target S (log ++ ext))), h') ∧
      Copying S cells roots objs h' (log ++ ext) k ∧
      ∀ v ∈ vs, ∀ a, v.addr? = some a → S.gcCopyable a = true → a ∈ (log ++ ext).map Prod.fst := by
  induction vs generalizing h log with
  | nil => exact ⟨h, [], rfl, by rwa [List.append_nil], fun v hv => absurd hv List.not_mem_nil⟩
  | cons v vs ih =>
      obtain ⟨h₁, ext₁, heq₁, c₁, hmem₁⟩ := c.copyVal src hk (hv v (.head _))
      have hk₁ : k ≤ (log ++ ext₁).length := by
        rw [List.length_append]
        omega
      obtain ⟨h₂, ext₂, heq₂, c₂, hmem₂⟩ := ih c₁ hk₁ fun u hu => hv u (.tail _ hu)
      rw [List.append_assoc] at heq₂ c₂ hmem₂
      have hlater : ∀ a, v.addr? = some a →
          target S (log ++ (ext₁ ++ ext₂)) a = target S (log ++ ext₁) a := by
        intro a ha
        rw [← List.append_assoc] at c₂ ⊢
        exact c₂.target_later (hmem₁ a ha)
      have hval : v.map (target S (log ++ ext₁)) = v.map (target S (log ++ (ext₁ ++ ext₂))) := by
        cases v with
        | imm w => rfl
        | ptr tag a => exact congrArg (Val.ptr tag) (hlater a rfl).symm
      refine ⟨h₂, ext₁ ++ ext₂, ?_, c₂, ?_⟩
      · simp only [gcCopyVals, heq₁, Option.bind_some, heq₂, Option.map_some, List.map_cons, hval]
      · intro u hu a ha hca
        rcases List.mem_cons.mp hu with rfl | hu
        · rw [← List.append_assoc, List.map_append]
          exact List.mem_append_left _ (hmem₁ a ha hca)
        · exact hmem₂ u hu a ha hca

/-- The walk catches up: every object copied so far is walked, and so is every
object that is copied on the way.  It takes one round an object. -/
theorem scan (src : Source S cells roots objs) {fuel : Nat}
    (c : Copying S cells roots objs h log k) (hk : k ≤ log.length)
    (hfuel : objs.length - k < fuel) :
    ∃ h' ext, gcScanTospace S fuel (bytes (log.take k)) h = some h' ∧
      Copying S cells roots objs h' (log ++ ext) (log ++ ext).length := by
  induction fuel generalizing h log k with
  | zero => exact absurd hfuel (Nat.not_lt_zero _)
  | succ fuel ih =>
      unfold gcScanTospace
      by_cases hlt : k < log.length
      · have hsize : bytes (log.take k) < h.gcToSize := by
          rw [c.size]
          have := bytes_take_lt log hlt (Nat.le_refl _)
          rwa [List.take_length] at this
        obtain ⟨-, hreach, hcell⟩ := c.source (List.getElem_mem hlt)
        have hrefs : ∀ v ∈ log[k].2.vals, ∀ a, v.addr? = some a →
            Reach Obj.refs (store cells) roots a := fun v hv a ha =>
          .step hreach (store_eq_some.mpr hcell) (Obj.mem_refs.mpr ⟨v, hv, ha⟩)
        obtain ⟨h₁, ext₁, heq, c₁, hmem⟩ := c.copyVals src log[k].2.vals hk hrefs
        have hlt₁ : k < (log ++ ext₁).length := by
          rw [List.length_append]
          omega
        have hget : (log ++ ext₁)[k] = log[k] := List.getElem_append_left hlt
        have htake : (log ++ ext₁).take k = log.take k :=
          List.take_append_of_le_length (Nat.le_of_lt hlt)
        have hrefs₁ : ∀ b ∈ (log ++ ext₁)[k].2.refs, S.gcCopyable b = true →
            b ∈ (log ++ ext₁).map Prod.fst := by
          intro b hb hcb
          rw [hget] at hb
          obtain ⟨v, hv, hvb⟩ := Obj.mem_refs.mp hb
          exact hmem v hv b hvb hcb
        have c₂ := c₁.walk src hlt₁ hrefs₁
        have hlen := c₁.length_le src
        obtain ⟨h', ext, hscan, c'⟩ := ih c₂ hlt₁ (by omega)
        refine ⟨h', ext₁ ++ ext, ?_, by rwa [← List.append_assoc]⟩
        rw [if_pos hsize, c.todo hlt (Nat.le_refl _)]
        simp only [heq, Option.bind_some, Obj.withVals_map, Obj.stride_map]
        have hnext : bytes ((log ++ ext₁).take (k + 1)) = bytes (log.take k) + log[k].2.stride := by
          have := extent_take_succ (fun x : Nat × Obj => x.2.stride) _ hlt₁
          rwa [htake, hget] at this
        rw [← hscan, hnext, htake, hget]
      · have heq : k = log.length := by omega
        subst heq
        rw [List.take_length, if_neg (by rw [c.size]; exact Nat.lt_irrefl _)]
        exact ⟨h, [], rfl, by rwa [List.append_nil]⟩

/-! ### The graph afterwards -/

/-- When the walk has caught up and the roots are copied, all that is reached is
copied. -/
theorem reached (src : Source S cells roots objs)
    (c : Copying S cells roots objs h log log.length)
    (hroots : ∀ a ∈ roots, S.gcCopyable a = true → a ∈ log.map Prod.fst)
    (hreach : Reach Obj.refs (store cells) roots a) (hcopy : S.gcCopyable a = true) :
    a ∈ log.map Prod.fst := by
  induction hreach with
  | root hmem => exact hroots _ hmem hcopy
  | @step b a o hb ho hmem ih =>
      rw [store_eq_some] at ho
      by_cases hcb : S.gcCopyable b = true
      · obtain ⟨i, hi, rfl⟩ := exists_getElem_of_mem (ih hcb)
        have hcell := (c.source (List.getElem_mem hi)).2.2
        rw [hcell] at ho
        obtain rfl := Cell.obj.inj (Option.some.inj ho)
        exact (c.done hi hi).2 a hmem hcopy
      · have := src.closed hb (by simpa using hcb) ho hmem
        rw [this] at hcopy
        exact absurd hcopy (by simp)

theorem target_mem (hin : a ∈ log.map Prod.fst) (c : Copying S cells roots objs h log k) :
    S.gcTo ≤ target S log a ∧ target S log a < S.gcTo + bytes log := by
  obtain ⟨i, hi, rfl⟩ := exists_getElem_of_mem hin
  rw [target_getElem c.nodup hi]
  have := bytes_take_lt log hi (Nat.le_refl _)
  rw [List.take_length] at this
  omega

/-- The renaming leads out of where objects are copied from. -/
theorem target_leaves (src : Source S cells roots objs)
    (c : Copying S cells roots objs h log log.length)
    (hroots : ∀ a ∈ roots, S.gcCopyable a = true → a ∈ log.map Prod.fst)
    (hreach : Reach Obj.refs (store cells) roots a) : S.gcCopyable (target S log a) = false := by
  rw [Bool.eq_false_iff]
  by_cases hca : S.gcCopyable a = true
  · intro hc
    have hmem := c.target_mem (c.reached src hroots hreach hca)
    have hroom := c.bytes_le_room src
    have := src.apart (.inr hc)
    omega
  · rwa [target_of_not_mem fun hin => hca (c.copyable hin)]

/-- **The renaming is an isomorphism.** -/
theorem iso (src : Source S cells roots objs) (c : Copying S cells roots objs h log log.length)
    (hroots : ∀ a ∈ roots, S.gcCopyable a = true → a ∈ log.map Prod.fst) :
    GraphIso Obj.refs Obj.map (store cells) (store h.cells) roots (target S log) := by
  have hroom := c.bytes_le_room src
  have hid : ∀ {a}, S.gcCopyable a = false → a ∉ log.map Prod.fst :=
    fun ha hin => Bool.eq_false_iff.mp ha (c.copyable hin)
  refine ⟨?_, ?_⟩
  · intro a b ha hb heq
    by_cases hca : S.gcCopyable a = true <;> by_cases hcb : S.gcCopyable b = true
    · obtain ⟨i, hi, rfl⟩ := exists_getElem_of_mem (c.reached src hroots ha hca)
      obtain ⟨j, hj, rfl⟩ := exists_getElem_of_mem (c.reached src hroots hb hcb)
      rw [target_getElem c.nodup hi, target_getElem c.nodup hj] at heq
      by_contra hne
      exact place_inj hi hj (fun hij => hne (by subst hij; rfl)) heq
    · -- a copy and an object that stays are in different places
      have hmem := c.target_mem (c.reached src hroots ha hca)
      rw [heq, target_of_not_mem (hid (by simpa using hcb))] at hmem
      have := src.apart (.inl hb)
      omega
    · have hmem := c.target_mem (c.reached src hroots hb hcb)
      rw [← heq, target_of_not_mem (hid (by simpa using hca))] at hmem
      have := src.apart (.inl ha)
      omega
    · rwa [target_of_not_mem (hid (by simpa using hca)),
        target_of_not_mem (hid (by simpa using hcb))] at heq
  · intro a ha
    obtain ⟨o, ho⟩ := src.live ha
    refine ⟨o, store_eq_some.mpr ho, store_eq_some.mpr ?_⟩
    by_cases hca : S.gcCopyable a = true
    · obtain ⟨i, hi, rfl⟩ := exists_getElem_of_mem (c.reached src hroots ha hca)
      have hcell := (c.source (List.getElem_mem hi)).2.2
      rw [hcell] at ho
      obtain rfl := Cell.obj.inj (Option.some.inj ho)
      rw [target_getElem c.nodup hi]
      exact (c.done hi hi).1
    · have hfalse : S.gcCopyable a = false := by simpa using hca
      have hsame : o.map (target S log) = o := by
        conv_rhs => rw [← o.map_id]
        refine Obj.map_congr fun b hb => ?_
        exact target_of_not_mem (hid (src.closed ha hfalse ho hb))
      rw [target_of_not_mem (hid hfalse), hsame, ← ho]
      refine c.rest (hid hfalse) ?_
      have := src.apart (.inl ha)
      omega

end Copying

/-! ### The sweep -/

section Sweep

variable {base : Nat} {heap : List Obj} {forwarded : Nat → Bool}

/-- Where the `i`-th object of a heap starts. -/
abbrev startOf (base : Nat) (heap : List Obj) (i : Nat) : Nat :=
  base + extent Obj.stride (heap.take i)

/-- What the sweep has yet to look at: an object, or a pointer to a copy of the
same size somewhere else. -/
structure Unswept (base : Nat) (heap : List Obj) (forwarded : Nat → Bool) (cells : Cells)
    (i : Nat) : Prop where
  left : ∀ {j : Nat} (hj : j < heap.length), i ≤ j → forwarded j = false →
    cells (startOf base heap j) = some (.obj heap[j])
  moved : ∀ {j : Nat} (hj : j < heap.length), i ≤ j → forwarded j = true →
    ∃ t o, cells (startOf base heap j) = some (.fwd t) ∧ cells t = some (.obj o) ∧
      o.stride = heap[j].stride ∧ (t < base ∨ base + extent Obj.stride heap ≤ t)

theorem startOf_lt (base : Nat) (hi : i < heap.length) :
    startOf base heap i < base + extent Obj.stride heap := by
  have := extent_take_lt Obj.stride_pos heap hi (Nat.le_refl _)
  rw [List.take_length] at this
  exact Nat.add_lt_add_left this base

theorem startOf_ne (hij : i < j) (hj : j < heap.length) :
    startOf base heap j ≠ startOf base heap i := by
  have := extent_take_lt Obj.stride_pos heap hij (Nat.le_of_lt hj)
  unfold startOf
  omega

/-- A write to a place that has been swept leaves the rest to be swept. -/
theorem Unswept.write (hi : i < heap.length) (h : Unswept base heap forwarded cells i)
    (c : Option Cell) :
    Unswept base heap forwarded (Function.update cells (startOf base heap i) c) (i + 1) := by
  refine ⟨?_, ?_⟩
  · intro j hj hij hf
    rw [Function.update_of_ne (startOf_ne (by omega) hj)]
    exact h.left hj (by omega) hf
  · intro j hj hij hf
    obtain ⟨t, o, hfwd, ho, hsize, hout⟩ := h.moved hj (by omega) hf
    have hlt := startOf_lt base hi
    have ht : t ≠ startOf base heap i := by
      unfold startOf at hlt ⊢
      omega
    exact ⟨t, o, by rwa [Function.update_of_ne (startOf_ne (by omega) hj)],
      by rwa [Function.update_of_ne ht], hsize, hout⟩

theorem Unswept.next (h : Unswept base heap forwarded cells i) :
    Unswept base heap forwarded cells (i + 1) :=
  ⟨fun hj hij => h.left hj (by omega), fun hj hij => h.moved hj (by omega)⟩

/-- The objects from the `i`-th on that were left behind. -/
def leftBehind (heap : List Obj) (forwarded : Nat → Bool) (i : Nat) : List Nat :=
  (List.range' i (heap.length - i)).filter (!forwarded ·)

/-- What an actor releases through them. -/
def payloads (pid : Nat) (heap : List Obj) (is : List Nat) : List Nat :=
  is.filterMap fun j => heap[j]?.bind (Obj.releasable pid)

theorem range'_next {n : Nat} (h : i < n) :
    List.range' i (n - i) = i :: List.range' (i + 1) (n - (i + 1)) := by
  rw [show n - i = n - (i + 1) + 1 by omega, List.range'_succ]

theorem mem_leftBehind :
    j ∈ leftBehind heap forwarded i ↔ i ≤ j ∧ j < heap.length ∧ forwarded j = false := by
  simp only [leftBehind, List.mem_filter, List.mem_range'_1, Bool.not_eq_true']
  constructor
  · rintro ⟨⟨h1, h2⟩, h3⟩
    exact ⟨h1, by omega, h3⟩
  · rintro ⟨h1, h2, h3⟩
    exact ⟨⟨h1, by omega⟩, h3⟩

/-- **The sweep.**  It stops at every object and nowhere else, releases through the
actor's headers that were left behind, one after another, and writes nowhere else. -/
theorem resourceReleaseSpace_eq (pid : Nat) {skip : Bool} (hskip : skip = true ∨ ∀ j, forwarded j = false)
    {fuel : Nat} (hi : i ≤ heap.length) (h : Unswept base heap forwarded cells i)
    (hfuel : heap.length - i < fuel) :
    ∃ cells', resourceReleaseSpace skip pid base (extent Obj.stride heap) fuel
        (extent Obj.stride (heap.take i)) cells =
          some ((List.range' i (heap.length - i)).map fun j => extent Obj.stride (heap.take j), cells',
            payloads pid heap (leftBehind heap forwarded i)) ∧
      ∀ b, b < base ∨ base + extent Obj.stride heap ≤ b → cells' b = cells b := by
  induction fuel generalizing cells i with
  | zero => exact absurd hfuel (Nat.not_lt_zero _)
  | succ fuel ih =>
      by_cases hlt : i < heap.length
      · have hoff : extent Obj.stride (heap.take i) < extent Obj.stride heap := by
          have := extent_take_lt Obj.stride_pos heap hlt (Nat.le_refl _)
          rwa [List.take_length] at this
        have hnext := extent_take_succ Obj.stride heap hlt
        rw [resourceReleaseSpace, if_pos hoff, range'_next hlt]
        cases hf : forwarded i with
        | true =>
            obtain ⟨t, o, hfwd, ho, hsize, -⟩ := h.moved hlt (Nat.le_refl _) hf
            obtain rfl : skip = true := hskip.resolve_right fun hn => by simp [hn i] at hf
            obtain ⟨cells', heq, hout⟩ := ih hlt h.next (by omega)
            refine ⟨cells', ?_, hout⟩
            rw [show cells (base + _) = _ from hfwd]
            simp only [ho, hsize, ← hnext, heq]
            simp [leftBehind, range'_next hlt, hf]
        | false =>
            rw [show cells (base + _) = _ from h.left hlt (Nat.le_refl _) hf]
            have hps : payloads pid heap (leftBehind heap forwarded i) =
                (heap[i].releasable pid).toList ++
                  payloads pid heap (leftBehind heap forwarded (i + 1)) := by
              unfold payloads leftBehind
              rw [range'_next hlt, List.filter_cons_of_pos (by simp [hf]), List.filterMap_cons,
                List.getElem?_eq_getElem hlt, Option.bind_some]
              cases heap[i].releasable pid <;> rfl
            cases hr : heap[i].releasable pid with
            | none =>
                obtain ⟨cells', heq, hout⟩ := ih hlt h.next (by omega)
                refine ⟨cells', ?_, hout⟩
                simp only [hr, Option.elim_none, Obj.stride_cleared, ← hnext, heq, hps]
                rfl
            | some p =>
                obtain ⟨cells', heq, hout⟩ :=
                  ih hlt (h.write hlt (some (.obj heap[i].cleared))) (by omega)
                refine ⟨cells', ?_, fun b hb => ?_⟩
                · simp only [hr, Option.elim_some, Obj.stride_cleared, ← hnext, heq, hps]
                  rfl
                · have hstart := startOf_lt base hlt
                  rw [hout b hb, Function.update_of_ne]
                  unfold startOf at hstart ⊢
                  omega
      · have heq : i = heap.length := by omega
        subst heq
        refine ⟨cells, ?_, fun _ _ => rfl⟩
        rw [List.take_length, resourceReleaseSpace, if_neg (Nat.lt_irrefl _)]
        simp [leftBehind, payloads]

theorem mem_payloads {pid p : Nat} {is : List Nat} :
    p ∈ payloads pid heap is ↔ ∃ j ∈ is, ∃ hj : j < heap.length, heap[j] = .resource pid (some p) := by
  simp only [payloads, List.mem_filterMap, Option.bind_eq_some_iff, Obj.releasable_eq_some,
    List.getElem?_eq_some_iff]
  constructor
  · rintro ⟨j, hj, o, ⟨hlt, rfl⟩, ho⟩
    exact ⟨j, hj, hlt, ho⟩
  · rintro ⟨j, hj, hlt, ho⟩
    exact ⟨j, hj, _, ⟨hlt, rfl⟩, ho⟩

end Sweep

end TinyActor.Runtime.Gc
