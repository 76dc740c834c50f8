/-
The static server stays under its root.

Every path the handler tests or reads is the root and then the request's path, possibly
without its last slash and with a fixed ending.  If the request's path begins with a slash,
what stands behind the root is a list of components; a request path with two dots in a row
is refused, and no ending makes a component of two dots.  Nothing makes the request's path
begin with a slash, and without one it runs on from the last component of the root: where
nothing is found, a path is tested that is not below the root.
-/
import TinyActor.Proofs.Http
import TinyActor.Stdlib.Serve

namespace TinyActor.Stdlib.Serve

open Lib Http

/-! ### Components -/

def dotDot : Bytes := ascii ".."

/-- A path below a directory: a slash and a component, one or more times, and no component is
the one that leads upwards. -/
def Below (p : Bytes) : Prop :=
  ∃ comps : List Bytes, comps ≠ [] ∧ p = comps.flatMap (47 :: ·) ∧
    ∀ c ∈ comps, 47 ∉ c ∧ c ≠ dotDot

/-- A path inside a directory. -/
def Inside (root p : Bytes) : Prop := ∃ q, p = root ++ q ∧ Below q

/-- The components of a text behind its first slash. -/
def components : Bytes → List Bytes
  | [] => [[]]
  | c :: cs =>
      if c = 47 then [] :: components cs
      else
        match components cs with
        | [] => [[c]]
        | d :: ds => (c :: d) :: ds

theorem components_ne_nil (p : Bytes) : components p ≠ [] := by
  cases p with
  | nil => simp [components]
  | cons c p =>
      rw [components]
      split
      · simp
      · split <;> simp

theorem flatMap_components (p : Bytes) : (components p).flatMap (47 :: ·) = 47 :: p := by
  induction p with
  | nil => rfl
  | cons c p ih =>
      rw [components]
      by_cases hc : c = 47
      · rw [if_pos hc, List.flatMap_cons, ih, hc]
        rfl
      · rw [if_neg hc]
        cases hp : components p with
        | nil => exact absurd hp (components_ne_nil p)
        | cons d ds =>
            rw [hp, List.flatMap_cons] at ih
            have := (List.cons.inj ih).2
            rw [List.flatMap_cons, ← this]
            rfl

variable {p : Bytes}

theorem mem_components {c : Bytes} (h : c ∈ components p) : 47 ∉ c ∧ c <:+: p := by
  induction p generalizing c with
  | nil =>
      rw [components, List.mem_singleton] at h
      simp [h]
  | cons x p ih =>
      rw [components] at h
      by_cases hx : x = 47
      · rw [if_pos hx] at h
        rcases List.mem_cons.mp h with rfl | h
        · simp
        · exact ⟨(ih h).1, (ih h).2.trans (List.suffix_cons x p).isInfix⟩
      · rw [if_neg hx] at h
        cases hp : components p with
        | nil => exact absurd hp (components_ne_nil p)
        | cons d ds =>
            rw [hp] at h
            rcases List.mem_cons.mp h with rfl | h
            · have hd := ih (c := d) (by rw [hp]; exact List.mem_cons_self ..)
              refine ⟨by simp [Ne.symm hx, hd.1], ?_⟩
              -- The first component is a beginning of the text.
              have hflat := flatMap_components p
              rw [hp, List.flatMap_cons] at hflat
              have hpre : d <+: p := ⟨_, (List.cons.inj hflat).2⟩
              exact (List.cons_prefix_cons.mpr ⟨rfl, hpre⟩).isInfix
            · have hc := ih (c := c) (by rw [hp]; exact List.mem_cons_of_mem _ h)
              exact ⟨hc.1, hc.2.trans (List.suffix_cons x p).isInfix⟩

/-- A text without two dots in a row is below its directory. -/
theorem below_of_no_dots (h : ¬ dotDot <:+: p) : Below (47 :: p) := by
  refine ⟨components p, components_ne_nil p, (flatMap_components p).symm, ?_⟩
  intro c hc
  obtain ⟨hslash, hin⟩ := mem_components hc
  refine ⟨hslash, ?_⟩
  rintro rfl
  exact h hin

theorem Below.append_index {q : Bytes} (h : Below q) : Below (q ++ indexHtml) := by
  obtain ⟨comps, hne, rfl, hcomps⟩ := h
  refine ⟨comps ++ [ascii "index.html"], by simp, ?_, ?_⟩
  · rw [List.flatMap_append]
    rfl
  · intro c hc
    rcases List.mem_append.mp hc with hc | hc
    · exact hcomps c hc
    · rw [List.mem_singleton.mp hc]
      decide

/-- The ending goes to the last component, which is then too long to be two dots. -/
theorem Below.append_html {q : Bytes} (h : Below q) : Below (q ++ dotHtml) := by
  obtain ⟨comps, hne, rfl, hcomps⟩ := h
  obtain ⟨init, last, rfl⟩ : ∃ init last, comps = init ++ [last] :=
    ⟨_, _, (List.dropLast_append_getLast hne).symm⟩
  refine ⟨init ++ [last ++ dotHtml], by simp, ?_, ?_⟩
  · simp
  · intro c hc
    rcases List.mem_append.mp hc with hc | hc
    · exact hcomps c (List.mem_append_left _ hc)
    · rw [List.mem_singleton.mp hc]
      refine ⟨?_, ?_⟩
      · rw [List.mem_append, not_or]
        exact ⟨(hcomps last (by simp)).1, by decide⟩
      · intro heq
        have hlen := congrArg List.length heq
        rw [List.length_append, show dotHtml.length = 5 from rfl,
          show dotDot.length = 2 from rfl] at hlen
        omega

/-! ### What the system takes for a path -/

theorem cPath_append {l : Bytes} (h : 0 ∉ l) (m : Bytes) : cPath (l ++ m) = l ++ cPath m := by
  refine List.takeWhile_append_of_pos ?_
  intro c hc
  refine decide_eq_true ?_
  rintro rfl
  exact h hc

/-- A path with an ending, as the system takes it: a zero byte cuts it before the ending, and
without one the ending is there. -/
theorem below_cPath {e : Bytes} (hdots : ¬ dotDot <:+: p) (he : 0 ∉ e)
    (hend : Below (47 :: p) → Below (47 :: (p ++ e))) : Below (cPath (47 :: (p ++ e))) := by
  have hcons : cPath (47 :: (p ++ e)) = 47 :: cPath (p ++ e) :=
    cPath_append (l := [47]) (by decide) _
  rw [hcons]
  by_cases h0 : 0 ∈ p
  · obtain ⟨l, m, rfl, hl⟩ := List.eq_append_cons_of_mem h0
    have hcut : cPath (l ++ 0 :: m ++ e) = l := by
      rw [List.append_assoc, cPath_append hl]
      simp [cPath]
    rw [hcut]
    exact below_of_no_dots fun hin => hdots (hin.trans (List.prefix_append _ _).isInfix)
  · have hwhole : cPath (p ++ e) = p ++ e := by
      rw [cPath_append h0]
      have := cPath_append he []
      rw [List.append_nil] at this
      rw [this]
      simp [cPath]
    rw [hwhole]
    exact hend (below_of_no_dots hdots)

/-- A path that is the root, a slash and a text without two dots in a row, with one of the
endings the handler tries. -/
theorem inside_cPath (root : RootDir) {e : Bytes} (hdots : ¬ dotDot <:+: p)
    (he : e = [] ∨ e = indexHtml ∨ e = dotHtml) :
    Inside root.bytes (cPath (root.bytes ++ 47 :: p ++ e)) := by
  refine ⟨cPath (47 :: (p ++ e)), ?_, ?_⟩
  · rw [List.append_assoc, cPath_append root.noNul]
    rfl
  · refine below_cPath hdots ?_ ?_
    · rcases he with rfl | rfl | rfl <;> decide
    · intro h
      rcases he with rfl | rfl | rfl
      · rwa [List.append_nil]
      · exact h.append_index
      · exact h.append_html

/-! ### The handler -/

/-- Taking off a last slash leaves the root, a slash and a beginning of the path. -/
theorem trimSlash_under (root p : Bytes) (hp : p ≠ []) :
    ∃ q, q <+: p ∧ trimSlash (root ++ 47 :: p) = root ++ 47 :: q := by
  rw [trimSlash]
  split
  · refine ⟨p.dropLast, List.dropLast_prefix p, ?_⟩
    have hlen : (root ++ 47 :: p).length = root.length + 1 + p.length := by
      rw [List.length_append, List.length_cons]
      omega
    rw [Str.substr_take _ (i := (root ++ 47 :: p).length - 1) (by rw [Str.length_eq]; omega),
      ← List.dropLast_eq_take, List.dropLast_append_of_ne_nil (by simp),
      List.dropLast_cons_of_ne_nil hp]
  · exact ⟨p, List.prefix_rfl, rfl⟩

theorem resolvePath_inside (fs : Files) (root : RootDir) (hdots : ¬ dotDot <:+: 47 :: p) :
    (∀ a ∈ (resolvePath fs root.bytes (47 :: p)).2, Inside root.bytes a.path) ∧
      ∀ full, (resolvePath fs root.bytes (47 :: p)).1 = some full →
        Inside root.bytes (cPath full) := by
  have hslash : ascii "/" = [47] := by decide
  have hp : ¬ dotDot <:+: p := fun hin => hdots (hin.trans (List.suffix_cons 47 p).isInfix)
  rw [resolvePath]
  by_cases hroot : 47 :: p = ascii "/"
  · rw [if_pos hroot]
    refine ⟨by simp, ?_⟩
    rintro full ⟨⟩
    -- The root's own page is a slash and `index.html`.
    have hindex := inside_cPath root (p := ascii "index.html") (by decide) (Or.inl rfl)
    rw [List.append_nil] at hindex
    exact hindex
  · have hne : p ≠ [] := by
      rintro rfl
      exact hroot hslash.symm
    obtain ⟨q, hq, htrim⟩ := trimSlash_under root.bytes p hne
    have hqdots : ¬ dotDot <:+: q := fun hin => hp (hin.trans hq.isInfix)
    have hindex := inside_cPath root hqdots (Or.inr (Or.inl rfl))
    have hfull := inside_cPath root hqdots (Or.inl rfl)
    have hhtml := inside_cPath root hqdots (Or.inr (Or.inr rfl))
    rw [List.append_nil] at hfull
    rw [if_neg hroot]
    simp only [Str.concat_eq, htrim]
    -- The tests are a beginning of these three.
    have hall : ∀ a ∈ [Access.tested (cPath (root.bytes ++ 47 :: q ++ indexHtml)),
        .tested (cPath (root.bytes ++ 47 :: q)),
        .tested (cPath (root.bytes ++ 47 :: q ++ dotHtml))], Inside root.bytes a.path := by
      intro a ha
      simp only [List.mem_cons, List.not_mem_nil, or_false] at ha
      rcases ha with rfl | rfl | rfl
      · exact hindex
      · exact hfull
      · exact hhtml
    split
    · exact ⟨fun a ha => hall a (List.mem_of_mem_take (i := 1) ha),
        by rintro full ⟨⟩; exact hindex⟩
    · split
      · exact ⟨fun a ha => hall a (List.mem_of_mem_take (i := 2) ha),
          by rintro full ⟨⟩; exact hfull⟩
      · split
        · exact ⟨hall, by rintro full ⟨⟩; exact hhtml⟩
        · exact ⟨hall, by rintro full ⟨⟩⟩

/-- Where no file is found. -/
def noFiles : Files := ⟨fun _ => false, fun _ => none⟩

theorem Below.head {q : Bytes} (h : Below q) : q.head? = some 47 := by
  obtain ⟨comps, hne, rfl, -⟩ := h
  obtain ⟨c, comps, rfl⟩ := List.exists_cons_of_ne_nil hne
  rfl

/-- Taking off a last slash leaves the root and a beginning of the path with the same first
byte, or a part of the root. -/
theorem trimSlash_beside (root : Bytes) (hp : p.head? ≠ some 47) :
    trimSlash (root ++ p) <+: root ∨
      ∃ c q, c ≠ 47 ∧ trimSlash (root ++ p) = root ++ c :: q := by
  rw [trimSlash]
  cases p with
  | nil =>
      rw [List.append_nil]
      refine .inl ?_
      split
      · next hlast =>
          rw [Str.length_eq] at hlast ⊢
          rw [Str.substr_take _ (i := root.length - 1) (by omega)]
          exact List.take_prefix _ _
      · exact List.prefix_rfl
  | cons c p =>
      have hc : c ≠ 47 := fun h => hp (by rw [h]; rfl)
      refine .inr ?_
      split
      · next hlast =>
          cases p with
          | nil =>
              -- The byte itself would be the slash.
              refine absurd hlast.2 ?_
              rw [Str.length_eq, List.length_append, List.length_singleton,
                show ((root.length + 1 : Nat) : Int) - 1 = (root.length : Nat) by omega,
                Str.charAt_append]
              exact fun h => hc (UInt8.toNat_inj.mp (Int.ofNat_inj.mp h))
          | cons d p =>
              refine ⟨c, (d :: p).dropLast, hc, ?_⟩
              rw [Str.substr_take _ (i := (root ++ c :: d :: p).length - 1)
                (by rw [Str.length_eq, List.length_append, List.length_cons]; omega),
                ← List.dropLast_eq_take, List.dropLast_append_of_ne_nil (by simp),
                List.dropLast_cons_of_ne_nil (by simp)]
      · exact ⟨c, p, hc, rfl⟩

theorem not_inside_beside (root : RootDir) (hp : p.head? ≠ some 47) :
    ¬ Inside root.bytes (cPath (trimSlash (root.bytes ++ p))) := by
  rintro ⟨q, hq, hbelow⟩
  have hhead := hbelow.head
  rcases trimSlash_beside root.bytes hp with hpre | ⟨c, r, hc, htrim⟩
  · have hcut : cPath (trimSlash (root.bytes ++ p)) <+: root.bytes :=
      (List.takeWhile_prefix _).trans hpre
    have hlen := hcut.length_le
    rw [hq, List.length_append] at hlen
    rw [List.length_eq_zero_iff.mp (show q.length = 0 by omega)] at hhead
    cases hhead
  · rw [htrim, cPath_append root.noNul, List.append_cancel_left_eq] at hq
    rw [← hq, cPath, List.takeWhile_cons] at hhead
    split at hhead
    · exact hc (Option.some.inj hhead)
    · cases hhead

/-- A request that is answered without looking for a file, or whose path begins with a slash. -/
def Confined (req : Request) : Prop :=
  req.method = ascii "GET" → ¬ dotDot <:+: req.path → req.path.head? = some 47

theorem fileHandler_inside (root : RootDir) (req : Request) :
    (∀ fs, ∀ a ∈ (fileHandler fs root.bytes req).2, Inside root.bytes a.path) ↔ Confined req := by
  refine ⟨fun hall hget hdots => ?_, fun h fs => ?_⟩
  · -- Without a file the resolved path itself is tested.
    by_contra hslash
    have hroot : req.path ≠ ascii "/" := fun h => hslash (by rw [h]; rfl)
    have hno : ¬ Str.indexOf req.path (ascii "..") ≥ 0 := mt Str.indexOf_nonneg.mp hdots
    refine not_inside_beside root hslash (hall noFiles (.tested (cPath _)) ?_)
    rw [fileHandler, if_pos hget, if_neg hno, resolvePath, if_neg hroot]
    simp [fileExists, noFiles]
  · rw [fileHandler]
    split
    · next hget =>
        split
        · simp
        · next hno =>
            have hdots : ¬ dotDot <:+: req.path := mt Str.indexOf_nonneg.mpr hno
            obtain ⟨p, hpath⟩ := List.head?_eq_some_iff.mp (h hget hdots)
            rw [hpath] at hdots ⊢
            obtain ⟨htests, hread⟩ := resolvePath_inside fs root hdots
            split
            · next tests hres =>
                rw [hres] at htests
                exact htests
            · next full tests hres =>
                rw [hres] at htests hread
                have hall : ∀ a ∈ tests ++ [.read (cPath full)], Inside root.bytes a.path := by
                  intro a ha
                  rcases List.mem_append.mp ha with ha | ha
                  · exact htests a ha
                  · rw [List.mem_singleton.mp ha]
                    exact hread full rfl
                split
                · exact hall
                · exact hall
    · simp

/--
**Every path the server tests or reads lies inside the root** exactly if the request is
confined.

For every root and every request line, whatever headers and body come with it: whatever files
there are, each path that is tested or read is the root followed by slashes and components none
of which is `..`, if the request is not for a file, if its path has two dots in a row, or if its
path begins with a slash; and only then.
-/
theorem accesses_inside (root : RootDir) (line hdrs body : Bytes) :
    (∀ fs, ∀ a ∈ accesses fs root line hdrs body, Inside root.bytes a.path) ↔
      ∀ req, parseRequestLine line hdrs body = some req → Confined req := by
  unfold accesses
  cases parseRequestLine line hdrs body with
  | none => simp
  | some req =>
      rw [fileHandler_inside root req]
      exact ⟨fun h r hr => Option.some.inj hr ▸ h, fun h => h req rfl⟩

/-- A system with one file. -/
def oneFile (path : Bytes) : Files where
  present p := p = path
  content p := if p = path then some [] else none

def srvWww : RootDir := ⟨ascii "/srv/www", by decide⟩

example : accesses (oneFile (ascii "/srv/www/a.html")) srvWww (ascii "GET /a HTTP/1.1") [] [] =
    [.tested (ascii "/srv/www/a/index.html"), .tested (ascii "/srv/www/a"),
      .tested (ascii "/srv/www/a.html"), .read (ascii "/srv/www/a.html")] := by
  decide +kernel

/-- **A request path without a slash leads out of the root**: the file of another directory
whose name begins like the root's is tested and read. -/
theorem sibling_directory_read :
    accesses (oneFile (ascii "/srv/www-secret/key")) srvWww
        (ascii "GET -secret/key HTTP/1.1") [] [] =
      [.tested (ascii "/srv/www-secret/key/index.html"), .tested (ascii "/srv/www-secret/key"),
        .read (ascii "/srv/www-secret/key")] ∧
    ¬ Inside srvWww.bytes (ascii "/srv/www-secret/key") := by
  refine ⟨by decide +kernel, ?_⟩
  rintro ⟨q, hq, comps, hne, rfl, -⟩
  obtain ⟨c, comps, rfl⟩ := List.exists_cons_of_ne_nil hne
  have hpre : srvWww.bytes ++ [47] <+: ascii "/srv/www-secret/key" :=
    ⟨c ++ comps.flatMap (47 :: ·), by rw [hq]; simp⟩
  exact absurd hpre (by decide)

end TinyActor.Stdlib.Serve
