import Suil.Http.JwtAuthorization

set_option autoImplicit false

/-! # The cookies of a response

`Cookie` (`http.h`), `Response::cookie` and `Response::flush_cookies` (`response.h`,
`response.cpp`). Cookies are moved into a jar, and flushed as headers into the map of the other
headers, which has one value for a name. `flushed_iff` says for which cookies this gives a header
each. -/

namespace Suil.Http

/-! ## Cookies and their headers -/

/-- `Cookie`; a string that is not there is empty. -/
structure Cookie where
  name : Bytes
  value : Bytes
  path : Bytes
  domain : Bytes
  secure : Bool
  maxage : Int
  expires : Int
  deriving DecidableEq, Repr

/-- `Cookie(Cookie&&)`: `maxage_` is not moved. -/
def Cookie.moved (ck : Cookie) : Cookie := { ck with maxage := 0 }

/-- `strftime` with `HTTP_FMT`, for the fields that `localtime` and `gmtime` give. -/
structure Clock where
  localtime : Int → Bytes
  gmtime : Int → Bytes

namespace Cookie

/-- The value of the header up to `Secure`. -/
def front (ck : Cookie) : Bytes :=
  ck.name ++ str "=" ++ ck.value ++
    (if ck.domain ≠ [] then str "; Domain=" ++ ck.domain else []) ++
    (if ck.path ≠ [] then str "; Path=" ++ ck.path else []) ++
    (if ck.secure then str "; Secure" else [])

/-- The value of the header; `date` writes the time of `Expires`. -/
def written (date : Int → Bytes) (ck : Cookie) : Bytes :=
  ck.front ++
    ((if ck.maxage > 0 then str "; Max-Age=" ++ showNat ck.maxage.toNat else []) ++
      (if ck.expires > 0 then str "; Expires=" ++ date ck.expires else []))

/-- The header that a cookie stands for; its time is Greenwich time. -/
def header (clock : Clock) (ck : Cookie) : Bytes × Bytes :=
  (str "Set-Cookie", ck.written clock.gmtime)

end Cookie

namespace Response

variable (hash : Bytes → UInt64) (clock : Clock)

/-- `cookie(ck)`: a cookie without a name is not taken. -/
def cookie (jar : CaseMap Cookie) (ck : Cookie) : CaseMap Cookie :=
  if ck.name ≠ [] then jar.emplace hash ck.name ck.moved else jar

/-- The jar behind one `cookie(ck)` after the other. -/
def cookies (cs : List Cookie) : CaseMap Cookie := cs.foldl (cookie hash) []

/-- `flush_cookies`, for the cookies as the loop meets them and the headers that are there. -/
def flush_cookies : CaseMap Cookie → CaseMap Bytes → CaseMap Bytes
  | [], headers => headers
  | (_, ck) :: jar, headers =>
      if ck.name = [] ∨ ck.value = [] then flush_cookies jar headers
      else flush_cookies jar (headers.emplace hash (str "Set-Cookie") (ck.written clock.localtime))

/-! ## A header for each cookie -/

/-- In whatever order the loop meets them, every cookie adds one header, and nothing else does. -/
def Flushed (headers : CaseMap Bytes) (cs : List Cookie) : Prop :=
  ∀ jar : CaseMap Cookie, jar.Perm (cookies hash cs) → ∃ order : List Cookie, order.Perm cs ∧
    flush_cookies hash clock jar headers = headers ++ order.map (Cookie.header clock)

/-- A cookie whose header is complete: it has a name and a value and no `Max-Age`, and its time is
the same in the time zone of the server. -/
structure Complete (ck : Cookie) : Prop where
  name_ne : ck.name ≠ []
  value_ne : ck.value ≠ []
  maxage_le : ck.maxage ≤ 0
  expires_eq : ck.expires ≤ 0 ∨ clock.localtime ck.expires = clock.gmtime ck.expires

variable {hash} {clock}

/-! ## Flushing -/

theorem emplace_of_isSome {m : CaseMap Bytes} {key : Bytes} (h : (m.find hash key).isSome)
    (v : Bytes) : m.emplace hash key v = m := if_pos h

/-- A `Set-Cookie` that is there stays the only one. -/
theorem flush_cookies_of_isSome (jar : CaseMap Cookie) {headers : CaseMap Bytes}
    (h : (headers.find hash (str "Set-Cookie")).isSome) :
    flush_cookies hash clock jar headers = headers := by
  induction jar with
  | nil => rfl
  | cons e jar ih =>
      rw [flush_cookies, emplace_of_isSome h, ih]
      exact ite_self _

/-- No more than one header is added. -/
theorem flush_cookies_length (jar : CaseMap Cookie) (headers : CaseMap Bytes) :
    (flush_cookies hash clock jar headers).length ≤ headers.length + 1 := by
  induction jar generalizing headers with
  | nil => exact Nat.le_succ _
  | cons e jar ih =>
      rw [flush_cookies]
      split_ifs with hskip
      · exact ih headers
      · cases hfind : headers.find hash (str "Set-Cookie") with
        | none =>
            have hadded := CaseMap.find_emplace_of_none (e.2.written clock.localtime) hfind
            have hlength : (headers.emplace hash (str "Set-Cookie")
                (e.2.written clock.localtime)).length = headers.length + 1 := by
              rw [CaseMap.emplace, hfind, if_neg (by simp), List.length_append,
                List.length_singleton]
            rw [flush_cookies_of_isSome jar (by rw [hadded]; rfl), hlength]
        | some v =>
            rw [emplace_of_isSome (by rw [hfind]; rfl)]
            exact ih headers

/-- The jar for one cookie. -/
theorem cookies_singleton {ck : Cookie} (h : ck.name ≠ []) :
    cookies hash [ck] = [(ck.name, ck.moved)] := by
  rw [cookies, List.foldl_cons, List.foldl_nil, cookie, if_pos h]
  rfl

/-- What is written in the time zone of the server, and without the `Max-Age`, is the header when
neither matters. -/
theorem written_moved_iff (ck : Cookie) :
    ck.moved.written clock.localtime = ck.written clock.gmtime ↔ ck.maxage ≤ 0 ∧
      (ck.expires ≤ 0 ∨ clock.localtime ck.expires = clock.gmtime ck.expires) := by
  have hmoved : ck.moved.written clock.localtime = ck.front ++
      (if ck.expires > 0 then str "; Expires=" ++ clock.localtime ck.expires else []) := rfl
  rw [hmoved, Cookie.written, List.append_cancel_left_eq]
  by_cases hage : ck.maxage > 0
  · -- the texts differ in their third letter
    rw [if_pos hage]
    refine iff_of_false ?_ fun h => absurd h.1 (by omega)
    split_ifs with hexpires
    · intro h
      have htake := congrArg (List.take 3) h
      rw [List.append_assoc, List.take_append_of_le_length (by decide),
        List.take_append_of_le_length (by decide)] at htake
      exact absurd htake (by decide)
    · exact nofun
  · rw [if_neg hage, List.nil_append]
    by_cases hexpires : ck.expires > 0
    · rw [if_pos hexpires, if_pos hexpires, List.append_cancel_left_eq,
        or_iff_right (show ¬ ck.expires ≤ 0 by omega)]
      exact (and_iff_right (by omega)).symm
    · rw [if_neg hexpires, if_neg hexpires]
      exact iff_of_true rfl ⟨by omega, .inl (by omega)⟩

/-- One cookie is flushed as one header. -/
theorem flush_singleton (headers : CaseMap Bytes) {ck : Cookie} (h : ck.name ≠ []) :
    flush_cookies hash clock [(ck.name, ck.moved)] headers = headers ++ [ck.header clock] ↔
      ck.value ≠ [] ∧ headers.find hash (str "Set-Cookie") = none ∧
        ck.moved.written clock.localtime = ck.written clock.gmtime := by
  have hne : headers ≠ headers ++ [ck.header clock] := fun heq => by
    have hlength := congrArg List.length heq
    rw [List.length_append, List.length_singleton] at hlength
    omega
  rw [flush_cookies, flush_cookies, flush_cookies]
  split_ifs with hskip
  · exact iff_of_false hne fun hall => hskip.elim h hall.1
  · have hvalue : ck.value ≠ [] := fun hnil => hskip (.inr hnil)
    rw [and_iff_right hvalue, CaseMap.emplace]
    split_ifs with hfind
    · refine iff_of_false hne fun hall => ?_
      rw [hall.1] at hfind
      cases hfind
    · rw [and_iff_right (Option.not_isSome_iff_eq_none.mp hfind), List.append_cancel_left_eq,
        Cookie.header]
      simp only [List.cons.injEq, and_true, Prod.mk.injEq, true_and]

/-- **Every cookie has its header exactly when there is at most one cookie, it is complete, and
nothing stands for `Set-Cookie` among the headers.** -/
theorem flushed_iff (headers : CaseMap Bytes) (cs : List Cookie) :
    Flushed hash clock headers cs ↔ cs = [] ∨ ∃ ck, cs = [ck] ∧ Complete clock ck ∧
      headers.find hash (str "Set-Cookie") = none := by
  -- all headers of cookies have one name, so that the map keeps one of them
  match cs with
  | [] =>
      refine iff_of_true ?_ (.inl rfl)
      intro jar hjar
      rw [List.perm_nil.mp hjar]
      exact ⟨[], .nil, (List.append_nil _).symm⟩
  | [ck] =>
      rw [or_iff_right (List.cons_ne_nil _ _)]
      constructor
      · intro h
        by_cases hname : ck.name = []
        · -- without a name the jar is empty
          obtain ⟨order, horder, hflush⟩ := h [] (by rw [cookies, List.foldl_cons, List.foldl_nil,
            cookie, if_neg (not_not.mpr hname)])
          rw [List.perm_singleton.mp horder] at hflush
          have hlength := congrArg List.length hflush
          rw [flush_cookies, List.length_append, List.map_singleton, List.length_singleton] at hlength
          omega
        · obtain ⟨order, horder, hflush⟩ := h _ (by rw [cookies_singleton hname])
          rw [List.perm_singleton.mp horder, List.map_singleton, flush_singleton headers hname,
            written_moved_iff] at hflush
          obtain ⟨hvalue, hfind, hage, hexpires⟩ := hflush
          exact ⟨ck, rfl, ⟨hname, hvalue, hage, hexpires⟩, hfind⟩
      · rintro ⟨ck', heq, hck, hfind⟩ jar hjar
        obtain rfl := (List.cons.inj heq).1
        rw [cookies_singleton hck.name_ne] at hjar
        refine ⟨[ck], .refl _, ?_⟩
        rw [List.perm_singleton.mp hjar, List.map_singleton, flush_singleton headers hck.name_ne,
          written_moved_iff]
        exact ⟨hck.value_ne, hfind, hck.maxage_le, hck.expires_eq⟩
  | ck :: ck' :: cs =>
      refine iff_of_false ?_ ?_
      · intro h
        obtain ⟨order, horder, hflush⟩ := h _ (.refl _)
        have hle : (flush_cookies hash clock (cookies hash (ck :: ck' :: cs)) headers).length ≤
            headers.length + 1 := flush_cookies_length _ headers
        rw [hflush, List.length_append, List.length_map, horder.length_eq] at hle
        simp only [List.length_cons] at hle
        omega
      · rintro (hnil | ⟨ck₀, heq, -⟩)
        · nomatch hnil
        · nomatch heq

/-- A cookie of the authorization middleware, which sets neither `secure` nor `maxage`. -/
def ofAuthorization (ck : JwtAuthorization.Cookie) : Cookie :=
  { name := ck.name, value := ck.value, path := ck.path, domain := ck.domain, secure := false,
    maxage := 0, expires := ck.expires }

/-- The cookie that is to end a session. -/
def logoutCookie : Cookie :=
  ofAuthorization (JwtAuthorization.deleteCookie
    ⟨[], str "Bearer", ⟨.COOKIE, str "Authorization"⟩, [], str "/"⟩ 1700000000)

theorem not_flushed_logout : ¬ ∀ (hash : Bytes → UInt64) (clock : Clock) (headers : CaseMap Bytes)
    (cs : List Cookie), (cs.map Cookie.name).Nodup → Flushed hash clock headers cs := by
  intro h
  have hflushed := h (fun _ => 0) ⟨fun _ => [], fun _ => []⟩ [] [logoutCookie]
    (by decide)
  rcases (flushed_iff [] [logoutCookie]).mp hflushed with hnil | ⟨ck, heq, hck, -⟩
  · nomatch hnil
  · obtain rfl := (List.cons.inj heq).1
    exact hck.value_ne rfl

end Response

end Suil.Http
