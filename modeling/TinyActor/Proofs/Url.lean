/-
What the parts of a URL are, and query strings read back.

Every cut is at the first occurrence of a delimiter: joined with the delimiter the two parts
are the text again, and the first of them does not have the delimiter.  The parts of an
accepted text are put together from these facts, one cut after another.

An encoded key or value has none of the separators of a query string, so the segments are cut
where they were joined and each of them at its only equals sign.
-/
import TinyActor.Proofs.Encoding
import TinyActor.Proofs.Split
import TinyActor.Stdlib.Url

namespace TinyActor.Stdlib

open Lib

variable {d : String} {a b part text s : Bytes} {c : UInt8} {u : Url}

namespace Url

open Encoding

variable {s sep : Bytes} {i : Nat}

/-! ### Cuts -/

theorem cut_none (h : firstOcc sep s = none) : cutBefore s sep = s ∧ cutAfter s sep = [] := by
  have hneg : Str.indexOf s sep < 0 := by
    rw [Str.indexOf_of_none h]
    decide
  exact ⟨if_pos hneg, if_pos hneg⟩

theorem cut_some (h : firstOcc sep s = some i) :
    cutBefore s sep = s.take i ∧ cutAfter s sep = s.drop (i + sep.length) := by
  have hpos : ¬ Str.indexOf s sep < 0 := by
    rw [Str.indexOf_of_some h]
    omega
  refine ⟨(if_neg hpos).trans (Str.substr_take s (Str.indexOf_of_some h)), ?_⟩
  refine (if_neg hpos).trans (Str.substr_rest s (firstOcc_le h) ?_)
  rw [Str.indexOf_of_some h, Str.length_eq, Int.natCast_add]

/-- A part behind its delimiter; if it is empty the delimiter may be missing. -/
def Behind (delim part text : Bytes) : Prop := text = delim ++ part ∨ part = [] ∧ text = []

/-- A part before its delimiter; if it is empty the delimiter may be missing. -/
def Before (part delim text : Bytes) : Prop := text = part ++ delim ∨ part = [] ∧ text = []

/-- The two sides of the first delimiter. -/
theorem cut_spec (s : Bytes) (hne : sep ≠ []) :
    ∃ tail, Behind sep (cutAfter s sep) tail ∧ s = cutBefore s sep ++ tail ∧
      ¬ sep <:+: cutBefore s sep := by
  cases hfirst : firstOcc sep s with
  | none =>
      obtain ⟨hbefore, hafter⟩ := cut_none hfirst
      rw [hbefore, hafter]
      exact ⟨[], .inr ⟨rfl, rfl⟩, (List.append_nil s).symm, firstOcc_eq_none.mp hfirst⟩
  | some i =>
      obtain ⟨hbefore, hafter⟩ := cut_some hfirst
      rw [hbefore, hafter]
      refine ⟨_, .inl rfl, ?_, not_infix_take hne hfirst⟩
      rw [← List.append_assoc]
      exact firstOcc_split hfirst

/-! ### Parts -/

/-- None of these characters is in a part. -/
def Free (delims : String) (part : Bytes) : Prop := ∀ c ∈ ascii delims, c ∉ part

instance (delims : String) (part : Bytes) : Decidable (Free delims part) :=
  inferInstanceAs (Decidable (∀ c ∈ ascii delims, c ∉ part))

theorem Free.append : Free d (a ++ b) ↔ Free d a ∧ Free d b := by
  simp only [Free, List.mem_append, not_or]
  exact ⟨fun h => ⟨fun c hc => (h c hc).1, fun c hc => (h c hc).2⟩,
    fun h c hc => ⟨h.1 c hc, h.2 c hc⟩⟩

theorem Free.join {d' dd : String} (hdd : ascii dd = ascii d ++ ascii d') (h : Free d a)
    (h' : Free d' a) : Free dd a := by
  intro c hc
  rw [hdd, List.mem_append] at hc
  exact hc.elim (h c) (h' c)

/-- A cut at a single character. -/
theorem cut_free (s : Bytes) (hd : ascii d = [c]) :
    ∃ tail, Behind (ascii d) (cutAfter s (ascii d)) tail ∧ s = cutBefore s (ascii d) ++ tail ∧
      Free d (cutBefore s (ascii d)) := by
  have hne : ascii d ≠ [] := by
    rw [hd]
    exact List.cons_ne_nil _ _
  obtain ⟨tail, htail, hs, hno⟩ := cut_spec s hne
  refine ⟨tail, htail, hs, fun x hx hmem => hno ?_⟩
  rw [hd, List.mem_singleton] at hx
  obtain ⟨a, b, hab⟩ := List.append_of_mem hmem
  rw [hab, hd, hx]
  exact ⟨a, b, by simp⟩

/-- A text without the delimiter is carried along by a cut. -/
theorem cut_append {p : Bytes} (s : Bytes) (hd : ascii d = [c]) (hp : Free d p) :
    cutBefore (p ++ s) (ascii d) = p ++ cutBefore s (ascii d) ∧
      cutAfter (p ++ s) (ascii d) = cutAfter s (ascii d) := by
  have hmem : c ∉ p := hp c (by rw [hd]; exact List.mem_singleton_self c)
  have happend := firstOcc_append_of_notMem [] hmem s
  rw [← hd] at happend
  cases hfirst : firstOcc (ascii d) s with
  | none =>
      rw [hfirst] at happend
      obtain ⟨hbefore, hafter⟩ := cut_none hfirst
      obtain ⟨hbefore', hafter'⟩ := cut_none happend
      rw [hbefore, hafter, hbefore', hafter']
      exact ⟨rfl, rfl⟩
  | some i =>
      rw [hfirst, Option.map_some, Nat.add_comm] at happend
      obtain ⟨hbefore, hafter⟩ := cut_some hfirst
      obtain ⟨hbefore', hafter'⟩ := cut_some happend
      rw [hbefore, hafter, hbefore', hafter', Nat.add_assoc, List.take_length_add_append,
        List.drop_length_add_append]
      exact ⟨rfl, rfl⟩

/-- Empty, or begun by one of these characters. -/
def Opens (delims : String) (text : Bytes) : Prop := text = [] ∨ ∃ c ∈ ascii delims, ∃ t, text = c :: t

theorem Opens.append (ha : Opens d a) (hb : Opens d b) : Opens d (a ++ b) := by
  rcases ha with rfl | ⟨c, hc, t, rfl⟩
  · exact hb
  · exact .inr ⟨c, hc, t ++ b, rfl⟩

theorem Opens.behind {delim : String} (h : Behind (ascii delim) part text)
    (hd : ascii delim = [c]) (hc : c ∈ ascii d) : Opens d text := by
  rcases h with rfl | ⟨-, rfl⟩
  · exact .inr ⟨c, hc, part, by rw [hd]; rfl⟩
  · exact .inl rfl

/-- A cut where the delimiter stands first. -/
theorem cut_opens (hd : ascii d = [c]) (h : Opens d text) : cutBefore text (ascii d) = [] := by
  rcases h with rfl | ⟨x, hx, t, rfl⟩
  · exact (cut_none (by rw [hd]; rfl)).1
  · rw [hd, List.mem_singleton] at hx
    have hfirst : firstOcc [c] (c :: t) = some 0 := firstOcc_of_isPrefix ⟨t, rfl⟩
    rw [hd, hx, (cut_some hfirst).1, List.take_zero]

/-- A cut at a delimiter that stands nowhere before. -/
theorem cut_free_opens {p : Bytes} (hd : ascii d = [c]) (hp : Free d p) (h : Opens d text) :
    cutBefore (p ++ text) (ascii d) = p := by
  rw [(cut_append text hd hp).1, cut_opens hd h, List.append_nil]

/-- The authority and the path behind it. -/
structure Address (rest : Bytes) (u : Url) : Prop where
  text : ∃ usr prt, Before u.userinfo (ascii "@") usr ∧ Behind (ascii ":") u.port prt ∧
    rest = usr ++ (u.host ++ (prt ++ u.path)) ∧ usr ++ (u.host ++ prt) ≠ [] ∧
    Free "/" (usr ++ (u.host ++ prt)) ∧ (usr = [] → Free "@" (u.host ++ prt))
  userinfo : Free "@" u.userinfo
  host : Free ":" u.host
  path : Opens "/" u.path

/-- The path begins with the slash the authority ends at. -/
theorem slash_spec (rest : Bytes) :
    let slash := Str.indexOf rest (ascii "/")
    let path := if slash < 0 then [] else Str.substr rest slash (Str.length rest)
    rest = cutBefore rest (ascii "/") ++ path ∧ Opens "/" path := by
  intro slash path
  cases hfirst : firstOcc (ascii "/") rest with
  | none =>
      have hneg : slash < 0 := by
        rw [show slash = -1 from Str.indexOf_of_none hfirst]
        decide
      have hpath : path = [] := if_pos hneg
      rw [hpath, (cut_none hfirst).1]
      exact ⟨(List.append_nil _).symm, .inl rfl⟩
  | some i =>
      have hslash : slash = i := Str.indexOf_of_some hfirst
      have hle := firstOcc_le hfirst
      have hpath : path = rest.drop i :=
        (if_neg (by omega)).trans (Str.substr_rest rest (by omega) hslash)
      obtain ⟨t, ht⟩ := firstOcc_isPrefix hfirst
      rw [hpath, (cut_some hfirst).1, List.take_append_drop]
      exact ⟨rfl, .inr ⟨47, by decide, t, ht.symm⟩⟩

/-- The user info, and what is left of the authority behind it. -/
theorem at_spec (authority : Bytes) :
    let at' := Str.indexOf authority (ascii "@")
    let userinfo := if at' < 0 then [] else Str.substr authority 0 at'
    let hostport := if at' < 0 then authority else cutAfter authority (ascii "@")
    ∃ usr, Before userinfo (ascii "@") usr ∧ authority = usr ++ hostport ∧ Free "@" userinfo ∧
      (usr = [] → Free "@" hostport) := by
  intro at' userinfo hostport
  cases hfirst : firstOcc (ascii "@") authority with
  | none =>
      have hneg : at' < 0 := by
        rw [show at' = -1 from Str.indexOf_of_none hfirst]
        decide
      have huser : userinfo = [] := if_pos hneg
      have hhost : hostport = authority := if_pos hneg
      obtain ⟨-, -, -, hfree⟩ := cut_free authority (d := "@") rfl
      rw [(cut_none hfirst).1] at hfree
      rw [huser, hhost]
      exact ⟨[], .inr ⟨rfl, rfl⟩, rfl, fun _ _ => nofun, fun _ => hfree⟩
  | some i =>
      have hat : at' = i := Str.indexOf_of_some hfirst
      have huser : userinfo = cutBefore authority (ascii "@") := by
        rw [(cut_some hfirst).1]
        exact (if_neg (by omega)).trans (Str.substr_take _ hat)
      have hhost : hostport = cutAfter authority (ascii "@") := if_neg (by omega)
      obtain ⟨-, -, -, hfree⟩ := cut_free authority (d := "@") rfl
      rw [huser, hhost]
      refine ⟨_, .inl rfl, ?_, hfree, fun hnil => ?_⟩
      · rw [(cut_some hfirst).1, (cut_some hfirst).2]
        exact firstOcc_split hfirst
      · exact absurd hnil (List.append_ne_nil_of_right_ne_nil _ (by decide))

theorem port_eq (hostport : Bytes) :
    (if Str.indexOf hostport (ascii ":") < 0 then [] else cutAfter hostport (ascii ":")) =
      cutAfter hostport (ascii ":") := by
  unfold cutAfter
  split
  · next hneg => exact (if_pos hneg).symm
  · rfl

theorem parseAuthority_ok {scheme rest query fragment : Bytes}
    (h : parseAuthority scheme rest query fragment = .ok u) :
    Address rest u ∧ u.scheme = scheme ∧ u.query = query ∧ u.fragment = fragment := by
  obtain ⟨hrest, hpath⟩ := slash_spec rest
  obtain ⟨-, -, -, hslash⟩ := cut_free rest (d := "/") rfl
  obtain ⟨usr, husr, hauth, huser, hat⟩ := at_spec (cutBefore rest (ascii "/"))
  change ite (cutBefore rest (ascii "/") = []) _ _ = _ at h
  by_cases hempty : cutBefore rest (ascii "/") = []
  · rw [if_pos hempty] at h
    cases h
  rw [if_neg hempty] at h
  obtain rfl := Except.ok.inj h
  obtain ⟨prt, hprt, hsplit, hhost⟩ := cut_free (if Str.indexOf (cutBefore rest (ascii "/"))
    (ascii "@") < 0 then cutBefore rest (ascii "/") else
    cutAfter (cutBefore rest (ascii "/")) (ascii "@")) (d := ":") rfl
  rw [← port_eq] at hprt
  have hparts := hauth.trans (congrArg (usr ++ ·) hsplit)
  refine ⟨⟨⟨usr, prt, husr, hprt, ?_, ?_, ?_, ?_⟩, huser, hhost, hpath⟩, rfl, rfl, rfl⟩
  · exact hrest.trans ((congrArg (· ++ _) hparts).trans (by simp only [List.append_assoc]; rfl))
  · exact fun hnil => hempty (hparts.trans hnil)
  · exact hparts ▸ hslash
  · exact fun hnil => hsplit ▸ hat hnil

/-- The parts of a text: joined with their delimiters they are the text, and none has a delimiter
that would end it earlier. -/
structure Parts (s : Bytes) (u : Url) : Prop where
  text : ∃ sch usr prt qry frg, Before u.scheme (ascii "://") sch ∧
    Before u.userinfo (ascii "@") usr ∧ Behind (ascii ":") u.port prt ∧
    Behind (ascii "?") u.query qry ∧ Behind (ascii "#") u.fragment frg ∧
    s = sch ++ (usr ++ (u.host ++ (prt ++ (u.path ++ (qry ++ frg)))))
  scheme : ¬ ascii "://" <:+: u.scheme ∧ Free "?#" u.scheme
  userinfo : Free "@/?#" u.userinfo
  host : Free ":/?#" u.host
  port : Free "/?#" u.port
  path : Free "?#" u.path
  query : Free "#" u.query

theorem Free.before {delim : Bytes} (h : Before part delim text) (hfree : Free d text) :
    Free d part := by
  rcases h with rfl | ⟨rfl, -⟩
  · exact (Free.append.mp hfree).1
  · exact fun _ _ => nofun

theorem Free.behind {delim : Bytes} (h : Behind delim part text) (hfree : Free d text) :
    Free d part := by
  rcases h with rfl | ⟨rfl, -⟩
  · exact (Free.append.mp hfree).2
  · exact fun _ _ => nofun

theorem Free.nil (d : String) : Free d [] := fun _ _ => nofun

/-- What `parse` looks for a scheme in. -/
def beforeQuery (s : Bytes) : Bytes := cutBefore (cutBefore s (ascii "#")) (ascii "?")

theorem Free.cut {p : Bytes} (hp : Free "?#" p) : Free "#" p ∧ Free "?" p := by
  refine ⟨fun c hc => hp c ?_, fun c hc => hp c ?_⟩
  · exact List.mem_cons_of_mem _ hc
  · exact List.mem_append_left [35] hc

/-- The query of a text, without the fragment. -/
def queryOf (s : Bytes) : Bytes := cutAfter (cutBefore s (ascii "#")) (ascii "?")

theorem query_append {p : Bytes} (s : Bytes) (hp : Free "?#" p) :
    beforeQuery (p ++ s) = p ++ beforeQuery s ∧ queryOf (p ++ s) = queryOf s := by
  obtain ⟨hhash, hmark⟩ := hp.cut
  rw [beforeQuery, queryOf, (cut_append s rfl hhash).1, (cut_append _ rfl hmark).1,
    (cut_append _ rfl hmark).2]
  exact ⟨rfl, rfl⟩

theorem beforeQuery_spec (s : Bytes) :
    ∃ qry frg, Behind (ascii "?") (cutAfter (cutBefore s (ascii "#")) (ascii "?")) qry ∧
      Behind (ascii "#") (cutAfter s (ascii "#")) frg ∧ s = beforeQuery s ++ (qry ++ frg) ∧
      Free "?#" (beforeQuery s) ∧ Free "#" (cutAfter (cutBefore s (ascii "#")) (ascii "?")) := by
  obtain ⟨frg, hfrg, hs, hnofrag⟩ := cut_free s (d := "#") rfl
  obtain ⟨qry, hqry, hnf, hnoquery⟩ := cut_free (cutBefore s (ascii "#")) (d := "?") rfl
  rw [hnf, Free.append] at hnofrag
  refine ⟨qry, frg, hqry, hfrg, ?_, hnoquery.join rfl hnofrag.1, hnofrag.2.behind hqry⟩
  rw [beforeQuery, ← List.append_assoc, ← hnf]
  exact hs

/-- The two ways a text is accepted. -/
theorem parse_cases (h : parse s = .ok u) :
    u.query = cutAfter (cutBefore s (ascii "#")) (ascii "?") ∧
      u.fragment = cutAfter s (ascii "#") ∧
      (¬ ascii "://" <:+: beforeQuery s ∧
          u = ⟨[], [], [], [], beforeQuery s, u.query, u.fragment⟩ ∨
        ∃ rest, beforeQuery s = u.scheme ++ (ascii "://" ++ rest) ∧ u.scheme ≠ [] ∧
          ¬ ascii "://" <:+: u.scheme ∧ Address rest u) := by
  change ite (Str.indexOf (beforeQuery s) (ascii "://") = 0) _
    (ite (Str.indexOf (beforeQuery s) (ascii "://") < 0) _ (parseAuthority
      (Str.substr (beforeQuery s) 0 (Str.indexOf (beforeQuery s) (ascii "://")))
      (Str.substr (beforeQuery s) (Str.indexOf (beforeQuery s) (ascii "://") + 3)
        (Str.length (beforeQuery s))) _ _)) = _ at h
  cases hfirst : firstOcc (ascii "://") (beforeQuery s) with
  | none =>
      have hindex := Str.indexOf_of_none hfirst
      rw [if_neg (by omega), if_pos (by omega)] at h
      obtain rfl := Except.ok.inj h
      exact ⟨rfl, rfl, .inl ⟨firstOcc_eq_none.mp hfirst, rfl⟩⟩
  | some i =>
      have hindex := Str.indexOf_of_some hfirst
      have hle := firstOcc_le hfirst
      by_cases hzero : i = 0
      · rw [if_pos (by omega)] at h
        cases h
      rw [if_neg (by omega), if_neg (by omega), Str.substr_take _ hindex,
        Str.substr_rest _ hle (by rw [hindex]; rfl)] at h
      obtain ⟨haddress, hscheme, hquery, hfragment⟩ := parseAuthority_ok h
      refine ⟨hquery, hfragment, .inr ⟨_, ?_, ?_, ?_, haddress⟩⟩
      · rw [hscheme, ← List.append_assoc]
        exact firstOcc_split hfirst
      · rw [hscheme, ← List.length_pos_iff, List.length_take]
        have : 0 < (ascii "://").length := by decide
        omega
      · rw [hscheme]
        exact not_infix_take (by decide) hfirst

theorem parse_ok_parts (h : parse s = .ok u) : Parts s u := by
  obtain ⟨qry, frg, hqry, hfrg, hs, hfree, hquery⟩ := beforeQuery_spec s
  obtain ⟨hq, hf, hcases⟩ := parse_cases h
  rw [← hq] at hqry hquery
  rw [← hf] at hfrg
  rcases hcases with ⟨hno, hu⟩ | ⟨rest, hnoq, hne, hno, haddress⟩
  · rw [hu]
    exact ⟨⟨[], [], [], qry, frg, .inr ⟨rfl, rfl⟩, .inr ⟨rfl, rfl⟩, .inr ⟨rfl, rfl⟩, hqry, hfrg, hs⟩,
      ⟨by simp [ascii], .nil _⟩, .nil _, .nil _, .nil _, hfree, hquery⟩
  · obtain ⟨usr, prt, husr, hprt, hrest, -, hslash, -⟩ := haddress.text
    rw [hnoq, hrest] at hfree hs
    simp only [Free.append] at hfree hslash
    obtain ⟨hfs, -, hfu, hfh, hfp, hfpath⟩ := hfree
    obtain ⟨hsu, hsh, hsp⟩ := hslash
    refine ⟨⟨_, usr, prt, qry, frg, .inl rfl, husr, hprt, hqry, hfrg, ?_⟩, ⟨hno, hfs⟩, ?_, ?_, ?_,
      hfpath, hquery⟩
    · rw [hs]
      simp only [List.append_assoc]
    · have hrest : Free "/?#" u.userinfo := (hsu.before husr).join rfl (hfu.before husr)
      exact haddress.userinfo.join rfl hrest
    · have hrest : Free "/?#" u.host := hsh.join rfl hfh
      exact haddress.host.join rfl hrest
    · exact (hsp.behind hprt).join rfl (hfp.behind hprt)

/-! ### Hosts -/

/-- The first `://` is found, whatever follows it. -/
theorem firstOcc_scheme {scheme : Bytes} (hno : ¬ ascii "://" <:+: scheme) (rest : Bytes) :
    firstOcc (ascii "://") (scheme ++ (ascii "://" ++ rest)) = some scheme.length := by
  induction scheme with
  | nil => exact firstOcc_of_isPrefix (List.prefix_append _ _)
  | cons c scheme ih =>
      rw [List.infix_cons_iff, not_or] at hno
      have hhere : ¬ ascii "://" <+: c :: (scheme ++ (ascii "://" ++ rest)) := by
        -- One that begins here would end in the scheme or go on with a second colon.
        intro hp
        cases scheme with
        | nil => exact absurd (List.cons_prefix_cons.mp (List.cons_prefix_cons.mp hp).2).1 (by decide)
        | cons d scheme =>
            cases scheme with
            | nil =>
                have hp := (List.cons_prefix_cons.mp (List.cons_prefix_cons.mp hp).2).2
                exact absurd (List.cons_prefix_cons.mp hp).1 (by decide)
            | cons e scheme =>
                refine hno.1 ?_
                obtain ⟨h₁, hp⟩ := List.cons_prefix_cons.mp hp
                obtain ⟨h₂, hp⟩ := List.cons_prefix_cons.mp hp
                obtain ⟨h₃, -⟩ := List.cons_prefix_cons.mp hp
                exact ⟨scheme, by rw [← h₁, ← h₂, ← h₃]; rfl⟩
      rw [List.cons_append, firstOcc, if_neg hhere, ih hno.2]
      rfl

theorem beforeQuery_opens (h : Opens "/?#" text) : Opens "/" (beforeQuery text) := by
  rcases h with rfl | ⟨c, hc, t, rfl⟩
  · exact .inl rfl
  · have hthree : ∀ x ∈ ascii "/?#", x = 47 ∨ x = 63 ∨ x = 35 := by decide +kernel
    rcases hthree c hc with rfl | rfl | rfl
    · have hslash : beforeQuery (47 :: t) = 47 :: beforeQuery t :=
        (query_append (p := [47]) t (by decide +kernel)).1
      exact .inr ⟨47, by decide, _, hslash⟩
    · have hmark : cutBefore (63 :: t) (ascii "#") = 63 :: cutBefore t (ascii "#") :=
        (cut_append (p := [63]) t rfl (by decide +kernel)).1
      rw [beforeQuery, hmark]
      exact .inl (cut_opens rfl (.inr ⟨63, by decide, _, rfl⟩))
    · rw [beforeQuery, cut_opens (d := "#") rfl (.inr ⟨35, by decide, t, rfl⟩)]
      exact .inl rfl

/-- Behind a scheme a text is read from its authority on. -/
theorem parse_scheme {scheme : Bytes} (rest : Bytes) (hne : scheme ≠ [])
    (hno : ¬ ascii "://" <:+: scheme) (hfree : Free "?#" scheme) :
    parse (scheme ++ (ascii "://" ++ rest)) =
      parseAuthority scheme (beforeQuery rest) (queryOf rest) (cutAfter rest (ascii "#")) := by
  have hall : Free "?#" (scheme ++ ascii "://") := Free.append.mpr ⟨hfree, by decide +kernel⟩
  obtain ⟨hbefore, hquery⟩ := query_append rest hall
  have hfragment := (cut_append rest (d := "#") rfl hall.cut.1).2
  rw [List.append_assoc] at hbefore hquery hfragment
  have hfirst := firstOcc_scheme hno (beforeQuery rest)
  have hindex := Str.indexOf_of_some hfirst
  have hpos := List.length_pos_iff.mpr hne
  change ite (Str.indexOf (beforeQuery _) (ascii "://") = 0) _
    (ite (Str.indexOf (beforeQuery _) (ascii "://") < 0) _ (parseAuthority
      (Str.substr (beforeQuery _) 0 (Str.indexOf (beforeQuery _) (ascii "://")))
      (Str.substr (beforeQuery _) (Str.indexOf (beforeQuery _) (ascii "://") + 3)
        (Str.length (beforeQuery _))) (queryOf _) _)) = _
  rw [hbefore, hquery, hfragment, List.append_assoc, if_neg (by omega), if_neg (by omega),
    Str.substr_take _ hindex, Str.substr_rest _ (firstOcc_le hfirst) (by rw [hindex]; rfl),
    List.take_left, ← List.append_assoc, List.drop_left' (by simp [ascii])]

/-- The host of an authority: what is left of it behind the user info, up to the port. -/
theorem parseAuthority_host (scheme query fragment : Bytes) {authority path : Bytes}
    (hne : authority ≠ []) (hslash : Free "/" authority) (hpath : Opens "/" path) :
    ∃ u, parseAuthority scheme (authority ++ path) query fragment = .ok u ∧ u.scheme = scheme ∧
      u.host = cutBefore (if Str.indexOf authority (ascii "@") < 0 then authority
        else cutAfter authority (ascii "@")) (ascii ":") := by
  have hauth : ite (Str.indexOf (authority ++ path) (ascii "/") < 0) (authority ++ path)
      (Str.substr (authority ++ path) 0 (Str.indexOf (authority ++ path) (ascii "/"))) = authority :=
    cut_free_opens rfl hslash hpath
  unfold parseAuthority
  simp only [hauth, if_neg hne]
  exact ⟨_, rfl, rfl, rfl⟩

/-- The host is missing from an authority: it is empty up to the port, behind the user info if
there is one. -/
def NoHost (authority : Bytes) : Prop :=
  Free "@" authority ∧ Opens ":" authority ∨
    ∃ info hostport, authority = info ++ 64 :: hostport ∧ Free "@" info ∧ Opens ":" hostport

/-- A scheme, and behind it an authority that is not empty but has no host. -/
def HostMissing (s : Bytes) : Prop :=
  ∃ scheme authority rest, s = scheme ++ (ascii "://" ++ (authority ++ rest)) ∧
    scheme ≠ [] ∧ ¬ ascii "://" <:+: scheme ∧ Free "?#" scheme ∧
    authority ≠ [] ∧ Free "/?#" authority ∧ Opens "/?#" rest ∧ NoHost authority

/-- A text in which the host is missing is accepted, without a host. -/
theorem HostMissing.accepted (h : HostMissing s) :
    ∃ u, parse s = .ok u ∧ u.scheme ≠ [] ∧ u.host = [] := by
  obtain ⟨scheme, authority, rest, rfl, hscheme, hno, hfree, hne, hauth, hrest, hhost⟩ := h
  have hslash : Free "/" authority := fun c hc => hauth c (List.mem_append_left (ascii "?#") hc)
  have hquery : Free "?#" authority := fun c hc => hauth c (List.mem_cons_of_mem _ hc)
  obtain ⟨u, hu, hus, huh⟩ := parseAuthority_host scheme (queryOf (authority ++ rest))
    (cutAfter (authority ++ rest) (ascii "#")) hne hslash (beforeQuery_opens hrest)
  refine ⟨u, ?_, hus ▸ hscheme, huh.trans ?_⟩
  · rw [parse_scheme _ hscheme hno hfree, (query_append rest hquery).1, hu]
  · rcases hhost with ⟨hat, hport⟩ | ⟨info, hostport, rfl, hinfo, hport⟩
    · have hnone := Str.indexOf_of_none (firstOcc_of_notMem [] (hat 64 (by decide)))
      rw [if_pos (by rw [show ascii "@" = [64] from rfl, hnone]; decide)]
      exact cut_opens rfl hport
    · have hfirst : firstOcc (ascii "@") (info ++ 64 :: hostport) = some info.length :=
        firstOcc_at [] (hinfo 64 (by decide)) hostport
      rw [if_neg (by rw [Str.indexOf_of_some hfirst]; omega), (cut_some hfirst).2,
        ← List.drop_drop, List.drop_left]
      exact cut_opens rfl hport

/-- A text that is accepted with a scheme and without a host is one in which it is missing. -/
theorem HostMissing.of_parse (h : parse s = .ok u) (hscheme : u.scheme ≠ []) (hhost : u.host = []) :
    HostMissing s := by
  obtain ⟨qry, frg, hqry, hfrg, hs, hfree, -⟩ := beforeQuery_spec s
  obtain ⟨-, -, ⟨-, hu⟩ | ⟨rest, hnoq, -, hno, haddress⟩⟩ := parse_cases h
  · exact absurd (congrArg Url.scheme hu) hscheme
  obtain ⟨usr, prt, husr, hprt, hrest, hempty, hslash, hat⟩ := haddress.text
  rw [hhost, List.nil_append] at hrest hempty hslash hat
  rw [hnoq, hrest] at hs hfree
  simp only [Free.append] at hfree
  obtain ⟨hfs, -, hfu, hfp, -⟩ := hfree
  have hquery : Free "?#" (usr ++ prt) := Free.append.mpr ⟨hfu, hfp⟩
  have hpath : Opens "/?#" u.path := by
    rcases haddress.path with hnil | ⟨c, hc, t, ht⟩
    · exact .inl hnil
    · exact .inr ⟨c, List.mem_append_left (ascii "?#") hc, t, ht⟩
  refine ⟨u.scheme, usr ++ prt, u.path ++ (qry ++ frg), ?_, hscheme, hno, hfs, hempty,
    hslash.join rfl hquery, ?_, ?_⟩
  · rw [hs]
    simp only [List.append_assoc]
  · exact hpath.append ((Opens.behind hqry rfl (by decide)).append (.behind hfrg rfl (by decide)))
  · have hport : Opens ":" prt := Opens.behind hprt rfl (by decide)
    rcases husr with rfl | ⟨-, rfl⟩
    · exact .inr ⟨u.userinfo, prt, by rw [List.append_assoc]; rfl, haddress.userinfo, hport⟩
    · exact .inl ⟨hat rfl, hport⟩

theorem prefix_cutBefore {p : Bytes} (hp : p <+: s) (hd : ascii d = [c]) (hfree : Free d p) :
    p <+: cutBefore s (ascii d) := by
  obtain ⟨tail, htail, hs, -⟩ := cut_free s hd
  rcases htail with rfl | ⟨-, rfl⟩
  · have hpre : cutBefore s (ascii d) ++ ascii d <+: s := by
      rw [← List.append_assoc] at hs
      exact ⟨_, hs.symm⟩
    rcases List.prefix_or_prefix_of_prefix hp hpre with hle | hle
    · rw [hd] at hle ⊢
      rcases List.prefix_concat_iff.mp hle with rfl | hle
      · refine absurd ?_ (hfree c (by rw [hd]; exact List.mem_singleton_self c))
        exact List.mem_append_right _ (List.mem_singleton_self c)
      · exact hle
    · refine absurd ?_ (hfree c (by rw [hd]; exact List.mem_singleton_self c))
      exact hle.subset (List.mem_append_right _ (by rw [hd]; exact List.mem_singleton_self c))
  · rw [List.append_nil] at hs
    exact hs ▸ hp

/-- A text with `://` before its query is not taken for a path. -/
theorem scheme_ne_nil (h : parse s = .ok u) {pre post : Bytes}
    (hs : s = pre ++ (ascii "://" ++ post)) (hfree : Free "?#" pre) : u.scheme ≠ [] := by
  have hp : pre ++ ascii "://" <+: s := ⟨post, by rw [hs, List.append_assoc]⟩
  have hall : Free "?#" (pre ++ ascii "://") := Free.append.mpr ⟨hfree, by decide +kernel⟩
  have hpre : pre ++ ascii "://" <+: beforeQuery s := by
    refine prefix_cutBefore (prefix_cutBefore hp rfl fun c hc => hall c ?_) rfl fun c hc => hall c ?_
    · exact List.mem_cons_of_mem _ hc
    · exact List.mem_append_left [35] hc
  obtain ⟨-, -, ⟨hno, -⟩ | ⟨-, -, hne, -, -⟩⟩ := parse_cases h
  · exact absurd ((List.suffix_append _ _).isInfix.trans hpre.isInfix) hno
  · exact hne

/-- A text has an authority: `://` stands before its query and fragment. -/
def HasAuthority (s : Bytes) : Prop := ∃ pre post, s = pre ++ (ascii "://" ++ post) ∧ Free "?#" pre

/-- **The parts of an accepted text**: joined they are the text again and none has a delimiter
that would end it earlier.  Where there is an authority, and with it a scheme, there is a host,
exactly if it is not one of those in which only the host is missing. -/
theorem parse_parts (s : Bytes) :
    (∀ u, parse s = .ok u → Parts s u) ∧
    (¬ HostMissing s ↔ ∀ u, parse s = .ok u →
      (u.scheme ≠ [] → u.host ≠ []) ∧ (HasAuthority s → u.scheme ≠ [] ∧ u.host ≠ [])) := by
  refine ⟨fun u => parse_ok_parts, fun hgiven u h => ?_, fun hall hmissing => ?_⟩
  · have hhost : u.scheme ≠ [] → u.host ≠ [] := fun hne hnil => hgiven (.of_parse h hne hnil)
    refine ⟨hhost, ?_⟩
    rintro ⟨pre, post, hs, hfree⟩
    have hne := scheme_ne_nil h hs hfree
    exact ⟨hne, hhost hne⟩
  · obtain ⟨u, hu, hne, hnil⟩ := hmissing.accepted
    exact (hall u hu).1 hne hnil

/-- **A host that is missing before a port is not noticed.** -/
theorem empty_host_accepted :
    parse (ascii "http://:80/") = .ok ⟨ascii "http", [], [], ascii "80", ascii "/", [], []⟩ := by
  decide +kernel

/-! ### Query strings -/

theorem separator_not_mem (s : Bytes) : 38 ∉ percentEncode s ∧ 61 ∉ percentEncode s := by
  constructor <;> exact fun h => absurd (mem_percentEncode h) (by decide)

theorem decodeSeg_encode (k v : Bytes) :
    decodeSeg (percentEncode k ++ (61 :: percentEncode v)) = .ok (k, v) := by
  have hfirst : firstOcc (ascii "=") (percentEncode k ++ (61 :: percentEncode v)) =
      some (percentEncode k).length :=
    firstOcc_at [] (separator_not_mem k).2 (percentEncode v)
  have hindex := Str.indexOf_of_some hfirst
  have hpos : ¬ Str.indexOf (percentEncode k ++ (61 :: percentEncode v)) (ascii "=") < 0 := by
    rw [hindex]
    omega
  have hafter := (cut_some hfirst).2
  have hdrop : (percentEncode k ++ (61 :: percentEncode v)).drop
      ((percentEncode k).length + (ascii "=").length) = percentEncode v := by
    rw [← List.drop_drop, List.drop_left]
    rfl
  rw [decodeSeg, if_neg hpos, if_neg hpos, Str.substr_take _ hindex, List.take_left, hafter, hdrop]
  simp only [percentDecode, pctDecode_percentEncode]
  rfl

theorem decodeSegs_encode (pairs : List (Bytes × Bytes)) :
    decodeSegs (encodePairs pairs) = .ok pairs := by
  induction pairs with
  | nil => rfl
  | cons kv pairs ih =>
      have hseg : encodePairs (kv :: pairs) =
          (percentEncode kv.1 ++ (61 :: percentEncode kv.2)) :: encodePairs pairs := rfl
      rw [hseg, decodeSegs, if_neg (by simp), decodeSeg_encode, ih]
      rfl

theorem separator_not_mem_encodePairs (pairs : List (Bytes × Bytes)) :
    ∀ seg ∈ encodePairs pairs, 38 ∉ seg := by
  intro seg hseg hmem
  obtain ⟨kv, -, rfl⟩ := List.mem_map.mp hseg
  rcases List.mem_append.mp hmem with hmem | hmem
  · exact (separator_not_mem kv.1).1 hmem
  · rcases List.mem_append.mp hmem with hmem | hmem
    · exact absurd hmem (by decide)
    · exact (separator_not_mem kv.2).1 hmem

/-- **A query string is decoded to the pairs it was made of**, and percent decoding undoes percent
encoding. -/
theorem query_round_trip (pairs : List (Bytes × Bytes)) (s : Bytes) :
    queryDecode (queryEncode pairs) = .ok pairs ∧ percentDecode (percentEncode s) = .ok s := by
  refine ⟨?_, by rw [percentDecode, pctDecode_percentEncode]; rfl⟩
  by_cases hnil : pairs = []
  · subst hnil
    rfl
  · have hne : encodePairs pairs ≠ [] := by simpa [encodePairs] using hnil
    have hcut : Cut (ascii "&") (queryEncode pairs) (encodePairs pairs) := by
      rw [queryEncode, Str.join_eq]
      exact .of_intercalate hne (separator_not_mem_encodePairs pairs)
    rw [queryDecode, (Str.split_cut _ (by decide)).unique hcut, decodeSegs_encode]

end Url

end TinyActor.Stdlib
