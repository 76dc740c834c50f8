/-
Where a redirect leads.

A location is looked at as text, put together with the address the response came from and read
again as a URL.  For one that begins with a slash the two texts meet where the path begins:
nothing in front of it has a delimiter of the parts behind it, so every cut falls where it would
in the location alone.

A location that has `://` anywhere is taken for an absolute one, so a path whose query holds an
address is not resolved at all: no scheme begins with a slash, and the request ends there.  A
host with an `@` of its own is cut at it when it is read again, and one that is missing is
noticed then if there is no port either.
-/
import TinyActor.Proofs.Strconv
import TinyActor.Proofs.Url
import TinyActor.Stdlib.Redirect

namespace TinyActor.Stdlib

open Lib

variable {p rest : Bytes} {port : Int}

namespace Url

/-! ### Reading an address that was put together -/

/-- An authority of a host and a port, behind which a path begins. -/
theorem parseAuthority_plain (scheme : Bytes) {host prt port path : Bytes} (query fragment : Bytes)
    (hport : Behind (ascii ":") port prt) (hhost : Free ":" host)
    (hne : host ++ prt ≠ []) (hauth : Free "@/" (host ++ prt)) :
    parseAuthority scheme (host ++ prt ++ 47 :: path) query fragment =
      .ok ⟨scheme, [], host, port, 47 :: path, query, fragment⟩ := by
  have hslash : firstOcc (ascii "/") (host ++ prt ++ 47 :: path) = some (host ++ prt).length :=
    firstOcc_at [] (hauth 47 (by decide)) path
  have hat : Str.indexOf (host ++ prt) (ascii "@") = -1 :=
    Str.indexOf_of_none (firstOcc_of_notMem [] (hauth 64 (by decide)))
  have hindex := Str.indexOf_of_some hslash
  have hnat : ¬ ((host ++ prt).length : Int) < 0 := by omega
  have hminus : (-1 : Int) < 0 := by decide
  have hpath : Str.substr (host ++ prt ++ 47 :: path) (host ++ prt).length
      (Str.length (host ++ prt ++ 47 :: path)) = 47 :: path := by
    rw [Str.substr_rest _ (firstOcc_le hslash |>.trans' (Nat.le_add_right _ _)) rfl, List.drop_left]
  have htake : Str.substr (host ++ prt ++ 47 :: path) 0 (host ++ prt).length = host ++ prt := by
    rw [Str.substr_take _ rfl, List.take_left]
  obtain ⟨hbefore, hafter⟩ := cut_append (p := host) prt (d := ":") rfl hhost
  have hcuts : cutBefore prt (ascii ":") = [] ∧ cutAfter prt (ascii ":") = port := by
    rcases hport with rfl | ⟨rfl, rfl⟩
    · have hfirst : firstOcc (ascii ":") (ascii ":" ++ port) = some 0 :=
        firstOcc_of_isPrefix (List.prefix_append _ _)
      exact cut_some hfirst
    · exact ⟨rfl, rfl⟩
  rw [hcuts.1, List.append_nil] at hbefore
  rw [hcuts.2] at hafter
  simp only [parseAuthority, hindex, if_neg hnat, htake, hpath, if_neg hne, hat, if_pos hminus]
  rw [port_eq, hafter]
  exact congrArg (fun x => Except.ok (⟨scheme, [], x, port, 47 :: path, query, fragment⟩ : Url)) hbefore

end Url

namespace Http

open Url

variable {scheme host loc : Bytes} {port : Int}

/-! ### Ports -/

theorem fromInt_free (n : Int) : Free ":@/?#" (Str.fromInt n) := by
  intro c hc hmem
  obtain ⟨ds, m, hds, htext⟩ := Str.fromInt_isInt n
  have hne : ∀ x ∈ ascii ":@/?#", Str.isDigit x = false ∧ x ≠ 43 ∧ x ≠ 45 := by
    decide +kernel
  obtain ⟨hdigit, hplus, hminus⟩ := hne c hc
  have hnot : c ∉ ds := by
    intro hin
    rw [hds.2.1 c hin] at hdigit
    cases hdigit
  rcases htext with ⟨ht, -⟩ | ⟨ht, -⟩ | ⟨ht, -⟩ <;> rw [ht] at hmem <;> simp_all

/-- The text of a port behind a host. -/
theorem hostportSuffix_spec (scheme : Bytes) (hport : -2 ^ 47 ≤ port ∧ port < 2 ^ 47) :
    ∃ txt, Behind (ascii ":") txt (hostportSuffix scheme port) ∧
      Free "@/?#" (hostportSuffix scheme port) ∧
      portOf scheme (Str.toInt txt) = portOf scheme port := by
  rw [hostportSuffix]
  by_cases hdefault : port = defaultPort scheme
  · have hpos : 0 < defaultPort scheme := by
      rw [defaultPort]
      split <;> decide
    refine ⟨[], ?_, ?_, ?_⟩
    · exact .inr ⟨rfl, if_pos hdefault⟩
    · rw [if_pos hdefault]
      exact .nil _
    · rw [portOf, portOf, if_neg (by decide), if_pos (by omega), hdefault]
  · refine ⟨Str.fromInt port, ?_, ?_, ?_⟩
    · exact .inl (if_neg hdefault)
    · rw [if_neg hdefault]
      have hfree : Free ":@/?#" (Str.fromInt port) := fromInt_free port
      exact Free.append.mpr ⟨by decide +kernel, fun c hc => hfree c (List.mem_cons_of_mem _ hc)⟩
    · rw [Str.toInt_fromInt hport]

theorem toInt_range (s : Bytes) : -2 ^ 47 ≤ Str.toInt s ∧ Str.toInt s < 2 ^ 47 := by
  rw [Str.toInt]
  split
  · decide
  · split
    · exact Str.int48_range _
    · split <;> exact Str.int48_range _

/-! ### Locations -/

/-- The schemes a call is made for. -/
def Served (scheme : Bytes) : Prop := scheme = ascii "https" ∨ scheme = ascii "http"

theorem Served.plain (h : Served scheme) :
    scheme ≠ [] ∧ ¬ ascii "://" <:+: scheme ∧ Free "?#" scheme ∧ scheme.head? = some 104 := by
  rcases h with rfl | rfl <;> decide +kernel

theorem index_of_infix {needle : Bytes} (h : ¬ needle <:+: loc) : Str.indexOf loc needle = -1 :=
  Str.indexOf_of_none (firstOcc_eq_none.mpr h)

/-- An absolute location is taken as it is. -/
theorem resolveLocation_absolute {pre : Bytes} (scheme host : Bytes) (port : Int) (rest : Bytes)
    (hne : pre ≠ []) (hpre : Free ":" pre) :
    resolveLocation scheme host port (pre ++ (ascii "://" ++ rest)) =
      pre ++ (ascii "://" ++ rest) := by
  have hfirst : firstOcc (ascii "://") (pre ++ (ascii "://" ++ rest)) = some pre.length :=
    firstOcc_at (ascii "//") (hpre 58 (by decide)) rest
  have hpos := List.length_pos_iff.mpr hne
  rw [resolveLocation, Str.indexOf_of_some hfirst, if_pos (by omega)]

/-- Behind two slashes an authority begins. -/
theorem resolveLocation_authority (scheme host : Bytes) (port : Int)
    (hno : ¬ ascii "://" <:+: ascii "//" ++ rest) :
    resolveLocation scheme host port (ascii "//" ++ rest) = scheme ++ (ascii "://" ++ rest) := by
  have hslashes : Str.indexOf (ascii "//" ++ rest) (ascii "//") = 0 :=
    Str.indexOf_of_some (firstOcc_of_isPrefix (List.prefix_append _ _))
  rw [resolveLocation, index_of_infix hno, if_neg (by decide), if_pos hslashes]
  rfl

/-- Behind a single slash a path begins. -/
theorem resolveLocation_path (scheme host : Bytes) (port : Int)
    (hno : ¬ ascii "://" <:+: 47 :: rest) (hsingle : ¬ ascii "/" <+: rest) :
    resolveLocation scheme host port (47 :: rest) =
      scheme ++ (ascii "://" ++ (host ++ hostportSuffix scheme port ++ 47 :: rest)) := by
  have hslash : Str.indexOf (47 :: rest) (ascii "/") = 0 :=
    Str.indexOf_of_some (firstOcc_of_isPrefix ⟨rest, rfl⟩)
  have hslashes : Str.indexOf (47 :: rest) (ascii "//") ≠ 0 := by
    intro hzero
    cases hfirst : firstOcc (ascii "//") (47 :: rest) with
    | none =>
        rw [Str.indexOf_of_none hfirst] at hzero
        cases hzero
    | some i =>
        obtain rfl : i = 0 := by
          rw [Str.indexOf_of_some hfirst] at hzero
          omega
        exact hsingle (List.cons_prefix_cons.mp (firstOcc_isPrefix hfirst)).2
  rw [resolveLocation, index_of_infix hno, if_neg (by decide), if_neg hslashes, if_pos hslash]
  simp only [Str.concat, List.append_assoc]

/-- A path is read at the address the response came from. -/
theorem parse_resolved_path (hscheme : Served scheme) (hne : host ++ hostportSuffix scheme port ≠ [])
    (hhost : Free ":@/?#" host) (hport : -2 ^ 47 ≤ port ∧ port < 2 ^ 47)
    (hno : ¬ ascii "://" <:+: 47 :: rest) (hsingle : ¬ ascii "/" <+: rest) :
    ∃ u, parse (resolveLocation scheme host port (47 :: rest)) = .ok u ∧ u.scheme = scheme ∧
      u.host = host ∧ portOf scheme (Str.toInt u.port) = portOf scheme port ∧
      u.path = beforeQuery (47 :: rest) ∧ u.query = queryOf (47 :: rest) := by
  obtain ⟨hscheme_ne, hscheme_no, hscheme_free, -⟩ := hscheme.plain
  obtain ⟨txt, htxt, hsuffix, hportOf⟩ := hostportSuffix_spec scheme hport
  have hauth : Free "@/?#" (host ++ hostportSuffix scheme port) :=
    Free.append.mpr ⟨fun c hc => hhost c (List.mem_cons_of_mem _ hc), hsuffix⟩
  have hmark : Free "?#" (host ++ hostportSuffix scheme port) := fun c hc =>
    hauth c (List.mem_cons_of_mem _ (List.mem_cons_of_mem _ hc))
  have hslash : beforeQuery (47 :: rest) = 47 :: beforeQuery rest :=
    (query_append (p := [47]) rest (by decide +kernel)).1
  obtain ⟨hbefore, hquery⟩ := query_append (47 :: rest) hmark
  rw [resolveLocation_path scheme host port hno hsingle, parse_scheme _ hscheme_ne hscheme_no hscheme_free,
    hbefore, hquery, hslash, parseAuthority_plain scheme _ _ htxt _ hne]
  · exact ⟨_, rfl, rfl, rfl, hportOf, rfl, rfl⟩
  · exact fun c hc => hauth c (List.mem_append_left (ascii "?#") hc)
  · exact fun c hc => hhost c (List.mem_append_left (ascii "@/?#") hc)

theorem hostport_ne_nil :
    host ++ hostportSuffix scheme port ≠ [] ↔ host ≠ [] ∨ port ≠ defaultPort scheme := by
  rw [Ne, List.append_eq_nil_iff, not_and_or, hostportSuffix]
  by_cases hport : port = defaultPort scheme
  · simp [hport]
  · simp [hport, ascii]

/-- If a path is read at the same host, the host had no `@`, and there was a host or a port. -/
theorem resolved_path_host {v : Url} (hscheme : Served scheme) (hhost : Free ":/?#" host)
    (hport : -2 ^ 47 ≤ port ∧ port < 2 ^ 47)
    (hno : ¬ ascii "://" <:+: 47 :: rest) (hsingle : ¬ ascii "/" <+: rest)
    (hparse : parse (resolveLocation scheme host port (47 :: rest)) = .ok v) (hv : v.host = host) :
    Free "@" host ∧ host ++ hostportSuffix scheme port ≠ [] := by
  obtain ⟨hscheme_ne, hscheme_no, hscheme_free, -⟩ := hscheme.plain
  obtain ⟨-, -, hsuffix, -⟩ := hostportSuffix_spec scheme hport
  have hslashes : Free "/" (host ++ hostportSuffix scheme port) := Free.append.mpr
    ⟨fun c hc => hhost c (List.mem_cons_of_mem _ (List.mem_append_left (ascii "?#") hc)),
      fun c hc => hsuffix c (List.mem_cons_of_mem _ (List.mem_append_left (ascii "?#") hc))⟩
  have hmark : Free "?#" (host ++ hostportSuffix scheme port) := Free.append.mpr
    ⟨fun c hc => hhost c (List.mem_append_right (ascii ":/") hc),
      fun c hc => hsuffix c (List.mem_append_right (ascii "@/") hc)⟩
  have hopens : Opens "/" (beforeQuery (47 :: rest)) :=
    beforeQuery_opens (.inr ⟨47, by decide, rest, rfl⟩)
  rw [resolveLocation_path scheme host port hno hsingle,
    parse_scheme _ hscheme_ne hscheme_no hscheme_free, (query_append _ hmark).1] at hparse
  have haddress := (parseAuthority_ok hparse).1
  obtain ⟨usr, prt, husr, -, htext, hne, hslash, hat⟩ := haddress.text
  -- Both are what stands before the first slash.
  have hauth : host ++ hostportSuffix scheme port = usr ++ (v.host ++ prt) := by
    have hcut := cut_free_opens (d := "/") rfl hslash haddress.path
    rw [List.append_assoc, List.append_assoc, ← htext, cut_free_opens rfl hslashes hopens] at hcut
    exact hcut
  refine ⟨?_, hauth ▸ hne⟩
  rcases husr with rfl | ⟨-, rfl⟩
  · have hcount := congrArg (List.count 64) hauth
    rw [hv] at hcount
    simp only [List.count_append, List.count_eq_zero.mpr (hsuffix 64 (by decide))] at hcount
    have : List.count 64 (ascii "@") = 1 := by decide
    omega
  · exact hv ▸ (Free.append.mp (hat rfl)).1

/-- A location that begins with a slash and has `://` in it is taken as it is. -/
theorem resolveLocation_mistaken (scheme host : Bytes) (port : Int) (hslash : ascii "/" <+: loc)
    (hin : ascii "://" <:+: loc) : resolveLocation scheme host port loc = loc := by
  obtain ⟨rest, rfl⟩ := hslash
  cases hfirst : firstOcc (ascii "://") (ascii "/" ++ rest) with
  | none => exact absurd hin (firstOcc_eq_none.mp hfirst)
  | some i =>
      have hpos : i ≠ 0 := by
        rintro rfl
        exact absurd (List.cons_prefix_cons.mp (firstOcc_isPrefix hfirst)).1 (by decide)
      rw [resolveLocation, Str.indexOf_of_some hfirst, if_pos (by omega)]

/-- No address that begins with a slash has a scheme that is served. -/
theorem not_served_of_slash {v : Url} (hslash : ascii "/" <+: loc) (h : parse loc = .ok v) :
    ¬ Served v.scheme := by
  intro hserved
  obtain ⟨hne, -, -, hhead⟩ := hserved.plain
  obtain ⟨rest, rfl⟩ := hslash
  obtain ⟨-, -, ⟨-, hv⟩ | ⟨tail, htail, -⟩⟩ := parse_cases h
  · exact hne (congrArg Url.scheme hv)
  · have hfirst : beforeQuery (ascii "/" ++ rest) = 47 :: beforeQuery rest :=
      (query_append rest (by decide +kernel)).1
    rw [hfirst] at htail
    have hheads := congrArg List.head? htail
    rw [List.head?_append_of_ne_nil _ hne, hhead] at hheads
    cases hheads

/-! ### Runs -/

variable {net : Network} {headers : Headers} {past : List Call} {method target body : Bytes}
  {hops : Nat} {u : Url}

/-- A call depends on the port that is connected to only. -/
theorem callOf_congr {port' : Int} (h : portOf scheme port = portOf scheme port')
    (host path query method : Bytes) (headers : Headers) (body : Bytes) :
    callOf scheme host port path query method headers body =
      callOf scheme host port' path query method headers body := by
  rw [callOf, callOf, h]

theorem oneShot_served (h : Served scheme) (net : Network) (past : List Call)
    (host path query method : Bytes) (headers : Headers) (body : Bytes) :
    oneShot net past scheme host port path query method headers body =
      (past ++ [callOf scheme host port path query method headers body],
        (net past (callOf scheme host port path query method headers body)).mapError .exchange) :=
  if_pos h

/-- One hop: the call, and the rest of the run from where the location leads. -/
theorem follow_redirect (hhops : hops ≤ maxRedirects) (hparse : parse target = .ok u)
    (hscheme : Served u.scheme) {resp : Response}
    (hresp : net past (callOf u.scheme u.host (Str.toInt u.port) u.path u.query method headers body) =
      .ok resp) (hloc : redirectTarget resp = some loc) :
    follow net headers past method target body hops =
      follow net headers
        (past ++ [callOf u.scheme u.host (Str.toInt u.port) u.path u.query method headers body])
        (redirectMethod resp.status method)
        (resolveLocation u.scheme u.host (Str.toInt u.port) loc)
        (redirectBody resp.status body) (hops + 1) := by
  rw [follow.eq_def net headers past, if_neg (by omega), hparse]
  simp only [oneShot_served hscheme, hresp, Except.mapError, hloc]

theorem oneShot_calls {host path query : Bytes} {calls : List Call}
    {res : Except ClientErr Response}
    (h : oneShot net past scheme host port path query method headers body = (calls, res)) :
    past <+: calls ∧ calls.length ≤ past.length + 1 := by
  by_cases hscheme : Served scheme
  · rw [oneShot_served hscheme] at h
    obtain ⟨rfl, -⟩ := Prod.mk.inj h
    exact ⟨List.prefix_append _ _, by simp⟩
  · have hrefused : oneShot net past scheme host port path query method headers body =
        (past, .error (.badUrl (Str.concat (ascii "unsupported scheme: ") scheme))) := if_neg hscheme
    rw [hrefused] at h
    obtain ⟨rfl, -⟩ := Prod.mk.inj h
    exact ⟨List.prefix_rfl, Nat.le_add_right ..⟩

/-- Calls are only added, and at most one for each hop that is left. -/
theorem follow_calls (net : Network) (headers : Headers) (past : List Call)
    (method target body : Bytes) (hops : Nat) :
    past <+: (follow net headers past method target body hops).1 ∧
      (follow net headers past method target body hops).1.length ≤
        past.length + (maxRedirects + 1 - hops) := by
  fun_induction follow net headers past method target body hops with
  | case1 => exact ⟨List.prefix_rfl, Nat.le_add_right ..⟩
  | case2 => exact ⟨List.prefix_rfl, Nat.le_add_right ..⟩
  | case3 past method target body hops hhops u hparse port calls e hshot =>
      obtain ⟨hpast, hlen⟩ := oneShot_calls hshot
      exact ⟨hpast, by dsimp only; omega⟩
  | case4 past method target body hops hhops u hparse port calls resp hshot hloc =>
      obtain ⟨hpast, hlen⟩ := oneShot_calls hshot
      exact ⟨hpast, by dsimp only; omega⟩
  | case5 past method target body hops hhops u hparse port calls resp hshot loc hloc ih =>
      obtain ⟨hpast, hlen⟩ := oneShot_calls hshot
      exact ⟨hpast.trans ih.1, by omega⟩

/-- An address that can be called is called. -/
theorem follow_first_call (hhops : hops ≤ maxRedirects) (hparse : parse target = .ok u)
    (hscheme : Served u.scheme) :
    past ++ [callOf u.scheme u.host (Str.toInt u.port) u.path u.query method headers body] <+:
      (follow net headers past method target body hops).1 := by
  rw [follow, if_neg (by omega), hparse]
  simp only [oneShot_served hscheme]
  cases net past (callOf u.scheme u.host (Str.toInt u.port) u.path u.query method headers body) with
  | error e => exact List.prefix_rfl
  | ok resp =>
      simp only [Except.mapError]
      cases redirectTarget resp with
      | none => exact List.prefix_rfl
      | some loc => exact (follow_calls ..).1

/-- An address of no scheme that is served ends the run. -/
theorem follow_refused (hhops : hops ≤ maxRedirects)
    (h : ∀ v, parse target = .ok v → ¬ Served v.scheme) :
    ∃ reason, follow net headers past method target body hops =
      (past, .error (.badUrl reason)) := by
  rw [follow, if_neg (by omega)]
  cases hparse : parse target with
  | error reason => exact ⟨reason, rfl⟩
  | ok v =>
      have hrefused : oneShot net past v.scheme v.host (Str.toInt v.port) v.path v.query method
          headers body = (past, .error (.badUrl (Str.concat (ascii "unsupported scheme: ") v.scheme))) :=
        if_neg (h v hparse)
      simp only [hrefused]
      exact ⟨_, rfl⟩

/-- The next call of a run is the one at the address that is followed. -/
theorem follow_next_call {c : Call} (hhops : hops ≤ maxRedirects)
    (h : past ++ [c] <+: (follow net headers past method target body hops).1) :
    ∃ v, parse target = .ok v ∧
      c = callOf v.scheme v.host (Str.toInt v.port) v.path v.query method headers body := by
  by_cases hserved : ∃ v, parse target = .ok v ∧ Served v.scheme
  · obtain ⟨v, hv, hscheme⟩ := hserved
    have hcall : past ++ [callOf v.scheme v.host (Str.toInt v.port) v.path v.query method headers
        body] <+: (follow net headers past method target body hops).1 :=
      follow_first_call hhops hv hscheme
    have heq := List.prefix_of_prefix_length_le h hcall (by simp)
    exact ⟨v, hv, by simpa using heq.eq_of_length (by simp)⟩
  · obtain ⟨reason, hrun⟩ : ∃ reason, follow net headers past method target body hops =
        (past, .error (.badUrl reason)) :=
      follow_refused hhops fun v hv hs => hserved ⟨v, hv, hs⟩
    rw [hrun] at h
    have hlen := h.length_le
    rw [List.length_append, List.length_singleton] at hlen
    exact absurd hlen (Nat.not_succ_le_self _)

/-- **Redirects.**  The run goes on from the resolved location.  A location that begins with a
single slash is requested at the scheme, host and port of the address before, exactly if it has
no `://` in it and the host is read again as it was.  One that begins with two slashes is
resolved to the scheme and what follows, exactly if it has no `://` in it.  With `://` in it a
location that begins with a slash ends the run.  An absolute location is followed as it is, and
there are never more than the first call and five others. -/
theorem redirect_followed (net : Network) (headers : Headers) (past : List Call)
    (method target body : Bytes) (hops : Nat) (u : Url) (resp : Response) (loc : Bytes)
    (hhops : hops < maxRedirects) (hparse : parse target = .ok u) (hscheme : Served u.scheme)
    (hresp : net past (callOf u.scheme u.host (Str.toInt u.port) u.path u.query method headers body) =
      .ok resp) (hloc : redirectTarget resp = some loc) :
    let port := Str.toInt u.port
    let call := callOf u.scheme u.host port u.path u.query method headers body
    let method' := redirectMethod resp.status method
    let body' := redirectBody resp.status body
    let run := follow net headers past method target body hops
    let resolved := resolveLocation u.scheme u.host port loc
    run = follow net headers (past ++ [call]) method' resolved body' (hops + 1) ∧
    (∀ rest, loc = ascii "/" ++ rest → ¬ ascii "/" <+: rest →
      (past ++ [call, callOf u.scheme u.host port (beforeQuery loc) (queryOf loc) method' headers
        body'] <+: run.1 ↔
      ¬ ascii "://" <:+: loc ∧ Free "@" u.host ∧ (u.host ≠ [] ∨ port ≠ defaultPort u.scheme))) ∧
    (∀ rest, loc = ascii "//" ++ rest →
      (resolved = u.scheme ++ (ascii "://" ++ rest) ↔ ¬ ascii "://" <:+: loc) ∧
      ∀ v, parse (u.scheme ++ (ascii "://" ++ rest)) = .ok v → v.scheme = u.scheme) ∧
    (ascii "/" <+: loc → ascii "://" <:+: loc →
      ∃ reason, run = (past ++ [call], .error (.badUrl reason))) ∧
    (∀ pre rest, loc = pre ++ (ascii "://" ++ rest) → pre ≠ [] → Free ":" pre → resolved = loc) ∧
    (follow net headers [] method target body 0).1.length ≤ 1 + maxRedirects := by
  intro port call method' body' run resolved
  have hrun : run = follow net headers (past ++ [call]) method' resolved body' (hops + 1) :=
    follow_redirect (by omega) hparse hscheme hresp hloc
  have hmistaken : ascii "/" <+: loc → ascii "://" <:+: loc →
      ∃ reason, run = (past ++ [call], .error (.badUrl reason)) := by
    intro hslash hin
    rw [hrun, show resolved = loc from resolveLocation_mistaken _ _ _ hslash hin]
    exact follow_refused (by omega) fun v => not_served_of_slash hslash
  have hhost := (parse_ok_parts hparse).host
  have hrange : -2 ^ 47 ≤ port ∧ port < 2 ^ 47 := toInt_range u.port
  refine ⟨hrun, fun rest hrest hsingle => ⟨fun hcall => ?_, ?_⟩, ?_, hmistaken, ?_, ?_⟩
  · subst hrest
    have hslash : ascii "/" <+: ascii "/" ++ rest := List.prefix_append _ _
    have hno : ¬ ascii "://" <:+: ascii "/" ++ rest := by
      intro hin
      obtain ⟨reason, hend⟩ := hmistaken hslash hin
      rw [hend] at hcall
      have hlen := hcall.length_le
      simp only [List.length_append, List.length_cons, List.length_nil] at hlen
      omega
    rw [hrun, List.append_cons] at hcall
    obtain ⟨v, hv, heq⟩ := follow_next_call (by omega) hcall
    have hsame := resolved_path_host hscheme hhost hrange hno hsingle hv (congrArg Call.host heq).symm
    exact ⟨hno, hsame.1, hostport_ne_nil.mp hsame.2⟩
  · rintro ⟨hno, hat, hne⟩
    subst hrest
    have hcolon : Free ":" u.host := fun c hc => hhost c (List.mem_append_left (ascii "/?#") hc)
    have hend : Free "/?#" u.host := fun c hc => hhost c (List.mem_append_right (ascii ":") hc)
    have hmore : Free "@/?#" u.host := hat.join rfl hend
    obtain ⟨v, hv, hvs, hvh, hvp, hvpath, hvquery⟩ := parse_resolved_path hscheme
      (hostport_ne_nil.mpr hne) (hcolon.join rfl hmore) hrange hno hsingle
    have hcall : past ++ [call] ++ [callOf v.scheme v.host (Str.toInt v.port) v.path v.query method'
        headers body'] <+: (follow net headers (past ++ [call]) method' _ body' (hops + 1)).1 :=
      follow_first_call (by omega) hv (hvs ▸ hscheme)
    rw [hvs, hvh, callOf_congr hvp, hvpath, hvquery, List.append_assoc] at hcall
    rw [hrun]
    exact hcall
  · intro rest hrest
    obtain ⟨hne, hno, hfree, -⟩ := hscheme.plain
    refine ⟨⟨fun hres hin => ?_, fun hnone => ?_⟩, fun v hv => ?_⟩
    · have hkept : resolved = loc :=
        resolveLocation_mistaken _ _ _ ⟨47 :: rest, hrest.symm⟩ hin
      have hlen := congrArg List.length (hkept.symm.trans hres)
      rw [hrest] at hlen
      simp [ascii] at hlen
      omega
    · subst hrest
      exact resolveLocation_authority _ _ _ hnone
    · rw [parse_scheme _ hne hno hfree] at hv
      exact (parseAuthority_ok hv).2.1
  · intro pre rest hrest hne hfree
    show resolveLocation _ _ _ loc = loc
    rw [hrest, resolveLocation_absolute _ _ _ _ hne hfree]
  · have := (follow_calls net headers [] method target body 0).2
    rw [List.length_nil] at this
    omega

/-- Redirects every call to one location. -/
def redirecting (loc : Bytes) : Network := fun _ _ =>
  .ok ⟨302, Dict.strNew.insert (ascii "Location") loc, []⟩

theorem redirect_followed_path :
    [callOf (ascii "http") (ascii "h") 0 (ascii "/") [] (ascii "GET") Dict.strNew [],
      callOf (ascii "http") (ascii "h") 0 (ascii "/p") (ascii "q") (ascii "GET") Dict.strNew []] <+:
    (follow (redirecting (ascii "/p?q")) Dict.strNew [] (ascii "GET") (ascii "http://h/") [] 0).1 :=
  have hpath : beforeQuery (ascii "/p?q") = ascii "/p" := by decide +kernel
  have hquery : queryOf (ascii "/p?q") = ascii "q" := by decide +kernel
  have hrun := (redirect_followed (redirecting (ascii "/p?q")) Dict.strNew [] (ascii "GET")
    (ascii "http://h/") [] 0 ⟨ascii "http", [], ascii "h", [], ascii "/", [], []⟩ _ (ascii "/p?q")
    (by decide) (by decide +kernel) (.inr rfl) rfl (by decide +kernel)).2.1 (ascii "p?q") rfl
      (by decide +kernel)
  hpath ▸ hquery ▸ hrun.mpr (by decide +kernel)

/-- **A path whose query holds an address is not requested.** -/
theorem address_in_query_lost :
    (follow (redirecting (ascii "/login?next=http://x/")) Dict.strNew [] (ascii "GET")
      (ascii "http://h/") [] 0).2 = .error (.badUrl (ascii "unsupported scheme: ")) := by
  have hkept : resolveLocation (ascii "http") (ascii "h") 0 (ascii "/login?next=http://x/") =
      ascii "/login?next=http://x/" := by decide +kernel
  have hparse : parse (ascii "/login?next=http://x/") =
      .ok ⟨[], [], [], [], ascii "/login", ascii "next=http://x/", []⟩ := by decide +kernel
  have hloc : redirectTarget ⟨302, Dict.strNew.insert (ascii "Location")
      (ascii "/login?next=http://x/"), []⟩ = some (ascii "/login?next=http://x/") := by
    decide +kernel
  rw [follow_redirect (u := ⟨ascii "http", [], ascii "h", [], ascii "/", [], []⟩) (by decide)
    (by decide +kernel) (.inr rfl) rfl hloc, show Str.toInt [] = 0 from rfl, hkept, follow,
    if_neg (by decide), hparse]
  rfl

end Http

end TinyActor.Stdlib
