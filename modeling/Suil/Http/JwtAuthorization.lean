import Suil.Basic.Exception
import Suil.Http.Auth
import Suil.Http.Jwt
import Suil.Http.Middlewares

set_option autoImplicit false

/-! # Authorization

`JwtAuthorization::before` (`auth.h`, `auth.cpp`) is the middleware in front of the routes with
`AUTHORIZE`. The token is taken from a header or from a cookie, decoded under the secret of the
middleware, and its expiry and its roles are looked at. A request that is refused leaves with
`Error::unauthorized`. `guards_iff` says when a token that should be refused is refused so: not when
it is looked for among the cookies, not when decoding it leaves the memory, and not when the comparison
of its roles throws. -/

namespace Suil.Http

open Json (Object)

variable {ν C : Type}

/-- `roles()` of a token. -/
def Jwt.roles (jwt : Jwt ν) : Except Json.Fault (Object ν) :=
  Object.member jwt.payload.claims (str "roles")

/-- `JwtUse::From`. -/
inductive JwtUse.From where
  | HEADER
  | COOKIE
  deriving DecidableEq, Repr

/-- `JwtUse`. -/
structure JwtUse where
  use : JwtUse.From
  key : Bytes

/-- The middleware; `key` is the secret. -/
structure JwtAuthorization where
  key : Bytes
  authenticate : Bytes
  use : JwtUse
  domain : Bytes
  path : Bytes

namespace JwtAuthorization

/-- What is read of a request: its headers, its cookies and the attribute of its route. -/
structure Request where
  headers : CaseMap Bytes
  cookies : CaseMap Bytes
  AUTHORIZE : Auth

structure Context (ν : Type) where
  jwt : Jwt ν
  tokenHdr : Bytes
  actualToken : Bytes

/-- The context that a connection makes for each request. -/
def Context.new : Context ν := ⟨Jwt.new (str "JWT"), [], []⟩

structure Cookie where
  name : Bytes
  value : Bytes
  domain : Bytes
  path : Bytes
  expires : Int
  deriving DecidableEq, Repr

/-- `expires(secs)`. -/
def Cookie.expiresIn (now secs : Int) : Int := if 0 < secs then now + secs else secs

/-- What is thrown, and the response as it is then with the cookies that were added. -/
structure Raised where
  ex : Exception
  res : Response
  cookies : List Cookie

/-- The ways that lead out of the middleware: an exception, or an access outside of the memory. -/
inductive Stop where
  | raised (r : Raised)
  | undefined

section

variable (a : JwtAuthorization) (hash : Bytes → UInt64) (now : Int)

/-- `deleteCookie`. -/
def deleteCookie : Cookie where
  name := a.use.key
  value := []
  domain := a.domain
  path := a.path
  expires := Cookie.expiresIn now (now - 2)

/-- `authrequest`. -/
def authrequest (resp : Response) (msg : Bytes) : Stop :=
  .raised ⟨.create Status.UNAUTHORIZED.code [msg],
    resp.header hash (str "WWW-Authenticate") a.authenticate, [a.deleteCookie now]⟩

/-- `tkhdr` and the token in it; nothing where there is no such header. `CookieIterator::operator[]`
returns a reference to a `String` that is destroyed by then, with the cookie or without. -/
def readToken (req : Request) : Except Stop (Option (Bytes × Bytes)) :=
  match a.use.use with
  | .HEADER =>
      let auth := (req.headers.find hash a.use.key).getD []
      .ok (if auth = [] ∨ !strncaseEq 7 auth (str "Bearer ") then none else some (auth, auth.drop 7))
  | .COOKIE => .error .undefined

/-- An exception of a JSON value leaves the response as it is. -/
def liftJson {α : Type} (resp : Response) : Except Json.Fault α → Except Stop α
  | .error f => .error (.raised ⟨f.toException, resp, []⟩)
  | .ok v => .ok v

/-- `before`. -/
def before (codec : Jwt.Codec ν) (hmac : Jwt.Hmac)
    (x : Middlewares.Exchange Request (Context ν × C)) :
    Except Stop (Middlewares.Exchange Request (Context ν × C)) :=
  if !x.req.AUTHORIZE.enabled then .ok x
  else
    match a.readToken hash x.req with
    | .error e => .error e
    | .ok none => .error (a.authrequest hash now x.res [])
    | .ok (some (tkhdr, token)) =>
        if token = [] then .error (a.authrequest hash now x.res [])
        else
          match Jwt.decode codec hmac x.ctx.1.jwt token a.key with
          -- the read or the write behind the end is no exception
          | .error (.base64 .overrun) => .error .undefined
          | .error _ => .error (a.authrequest hash now x.res (str "Invalid authorization token."))
          | .ok none => .error (a.authrequest hash now x.res [])
          | .ok (some jwt) =>
              if jwt.payload.exp < now then .error (a.authrequest hash now x.res [])
              else do
                let roles ← liftJson x.res jwt.roles
                let permitted ← liftJson x.res (x.req.AUTHORIZE.checkJson roles)
                if !permitted then
                  .error (a.authrequest hash now x.res (str "Access to resource denied."))
                else .ok { x with ctx := (⟨jwt, tkhdr, token⟩, x.ctx.2) }

end

/-! ## What the middleware is for -/

/-- The text of the response that a connection makes of an exception. -/
structure Answer where
  status : Int
  body : Bytes
  deriving DecidableEq, Repr

/-- `catch (Exception& ex)` of `Connection::start`. -/
def answer (ex : Exception) : Answer where
  status :=
    if ex.Code < Status.CONTINUE.code ∨ Status.BAD_VERSION.code < ex.Code then
      Status.INTERNAL_ERROR.code
    else ex.Code
  body := ex.Msg

/-- The response is an error of authorization. -/
def Refusal (ex : Exception) : Prop :=
  (answer ex).status = Status.UNAUTHORIZED.code ∨ (answer ex).status = Status.FORBIDDEN.code

/-- The request carries the token: behind `Bearer ` in any case of its letters, or as a cookie. -/
def Carries (a : JwtAuthorization) (hash : Bytes → UInt64) (req : Request) (token : Bytes) : Prop :=
  match a.use.use with
  | .HEADER => ∃ scheme, req.headers.find hash a.use.key = some (scheme ++ token) ∧
      scheme.map toLower = str "bearer "
  | .COOKIE => req.cookies.find hash a.use.key = some token

/-- The strings among the roles of a token. -/
def roleNames (jwt : Jwt ν) : List Bytes :=
  match jwt.roles with
  | .error _ => []
  | .ok roles => roles.elements.filterMap fun
      | .string s => some s
      | _ => none

section

variable (a : JwtAuthorization) (codec : Jwt.Codec ν) (hmac : Jwt.Hmac) (hash : Bytes → UInt64)
  (now : Int)

/-- The token decodes under the secret and has not expired. -/
def Valid (token : Bytes) (jwt : Jwt ν) : Prop :=
  Jwt.decode codec hmac (Jwt.new (str "JWT")) token a.key = .ok (some jwt) ∧ now ≤ jwt.payload.exp

/-- The roles of the token are permitted by the route. -/
def Permitted (auth : Auth) (jwt : Jwt ν) : Prop :=
  Auth.Granted (auth.roles.map Str.bytes) (roleNames jwt)

/-- The request may pass. -/
def Permits (req : Request) : Prop :=
  ∃ token jwt, a.Carries hash req token ∧ a.Valid codec hmac now token jwt ∧
    Permitted req.AUTHORIZE jwt

/-- The exchange of a request that comes to the middleware. -/
def arriving (req : Request) (res : Response) (c : C) :
    Middlewares.Exchange Request (Context ν × C) := ⟨req, res, Context.new, c⟩

/-- The middleware is defined, and nothing passes but what may pass. The rest is refused, and its
handler does not run, whatever other middlewares stand around this one. -/
structure Guards (req : Request) (res : Response) (c : C) : Prop where
  defined : a.before hash now codec hmac (arriving req res c) ≠ .error .undefined
  only : ∀ y, a.before hash now codec hmac (arriving req res c) = .ok y →
    a.Permits codec hmac hash now req
  refused : ¬ a.Permits codec hmac hash now req →
    ∃ r, a.before hash now codec hmac (arriving req res c) = .error (.raised r) ∧ Refusal r.ex ∧
      ∀ (after : Middlewares.Handler Request (Context ν × C) Stop)
        (server : Middlewares.Server Request (Context ν × C) Stop)
        (pre post : List (Middlewares.Middleware Request (Context ν × C) Stop))
        (x₀ x : Middlewares.Exchange Request (Context ν × C)), server.before x₀ = .ok x →
        Middlewares.arrives pre x = some (arriving req res c) →
        (Middlewares.process server (pre ++ ⟨a.before hash now codec hmac, after⟩ :: post) x₀).res =
            .error (.raised r) ∧
          Middlewares.Call.handle ∉ (Middlewares.process server
            (pre ++ ⟨a.before hash now codec hmac, after⟩ :: post) x₀).log

/-- Tokens come in a header. The one that comes is decoded inside the memory, and if it is valid
without being permitted, its claims are an object whose `roles` are nothing with elements. -/
def Refuses (req : Request) : Prop :=
  a.use.use = .HEADER ∧ ∀ token, a.Carries hash req token →
    Jwt.decode codec hmac (Jwt.new (str "JWT")) token a.key ≠ .error (.base64 .overrun) ∧
      ∀ jwt, a.Valid codec hmac now token jwt → Permitted req.AUTHORIZE jwt ∨
        ∃ roles, jwt.roles = .ok roles ∧ roles.elements = []

end

/-! ## The token of a request -/

section

variable {a : JwtAuthorization} {hash : Bytes → UInt64} {req : Request}

/-- A request carries one token. -/
theorem carries_unique {t t' : Bytes} (h : a.Carries hash req t)
    (h' : a.Carries hash req t') : t = t' := by
  unfold Carries at h h'
  cases huse : a.use.use with
  | HEADER =>
      rw [huse] at h h'
      obtain ⟨scheme, hfind, hscheme⟩ := h
      obtain ⟨scheme', hfind', hscheme'⟩ := h'
      have hboth : scheme ++ t = scheme' ++ t' := Option.some.inj (hfind.symm.trans hfind')
      have hlen : scheme.length = scheme'.length := by
        calc scheme.length = (scheme.map toLower).length := (List.length_map _).symm
          _ = (scheme'.map toLower).length := by rw [hscheme, hscheme']
          _ = scheme'.length := List.length_map _
      exact (List.append_inj hboth hlen).2
  | COOKIE =>
      rw [huse] at h h'
      exact Option.some.inj (h.symm.trans h')

theorem carries_of_readToken {tkhdr token : Bytes}
    (h : a.readToken hash req = .ok (some (tkhdr, token))) : a.Carries hash req token := by
  unfold readToken at h
  unfold Carries
  split at h
  · have h := Except.ok.inj h
    split_ifs at h with hauth
    obtain ⟨hne, hbearer⟩ := not_or.mp hauth
    cases hfind : req.headers.find hash a.use.key with
    | none =>
        rw [hfind] at hne
        exact absurd rfl hne
    | some auth =>
        rw [hfind, Option.getD_some] at h hbearer
        rw [Bool.not_eq_true', Bool.not_eq_false] at hbearer
        have hnul : NUL ∉ str "Bearer " := by decide
        obtain ⟨p, s, rfl, hp⟩ := (strncaseEq_length hnul auth).mp hbearer
        have hlen : p.length = 7 := by
          calc p.length = (p.map toLower).length := (List.length_map _).symm
            _ = 7 := by rw [hp]; rfl
        have hs : (p ++ s).drop 7 = s := by rw [← hlen, List.drop_left]
        rw [Option.some.injEq, Prod.mk.injEq, hs] at h
        exact ⟨p, by rw [h.2], hp⟩
  · nomatch h

theorem readToken_of_carries (huse : a.use.use = .HEADER) {token : Bytes}
    (h : a.Carries hash req token) (hne : token ≠ []) :
    ∃ tkhdr, a.readToken hash req = .ok (some (tkhdr, token)) := by
  rw [Carries, huse] at h
  rw [readToken, huse]
  obtain ⟨scheme, hfind, hscheme⟩ := h
  have hlen : scheme.length = 7 := by
    calc scheme.length = (scheme.map toLower).length := (List.length_map _).symm
      _ = 7 := by rw [hscheme]; rfl
  have hlower : (str "Bearer ").map toLower = str "bearer " := by decide
  have hnul : NUL ∉ str "Bearer " := by decide
  have hbearer : strncaseEq 7 (scheme ++ token) (str "Bearer ") = true :=
    (strncaseEq_length hnul _).mpr ⟨scheme, token, rfl, hscheme.trans hlower.symm⟩
  have hauth : scheme ++ token ≠ [] := List.append_ne_nil_of_right_ne_nil _ hne
  refine ⟨scheme ++ token, ?_⟩
  simp only [hfind, Option.getD_some, hauth, hbearer, Bool.not_true, Bool.false_eq_true, or_self,
    if_false]
  rw [← hlen, List.drop_left]

end

/-! ## The ways out -/

section

variable {a : JwtAuthorization} {codec : Jwt.Codec ν} {hmac : Jwt.Hmac} {hash : Bytes → UInt64}
  {now : Int} {req : Request} {res : Response} {c : C}

/-- What passes on a route with `AUTHORIZE` has the token that the request carries. -/
theorem token_of_before (henabled : req.AUTHORIZE.enabled = true)
    {y : Middlewares.Exchange Request (Context ν × C)}
    (h : a.before hash now codec hmac (arriving req res c) = .ok y) :
    ∃ tkhdr token jwt, a.Carries hash req token ∧ token ≠ [] ∧
      Jwt.decode codec hmac (Jwt.new (str "JWT")) token a.key = .ok (some jwt) ∧
        y = ⟨req, res, ⟨jwt, tkhdr, token⟩, c⟩ := by
  rw [before] at h
  simp only [arriving, henabled, Bool.not_true, Bool.false_eq_true, if_false] at h
  split at h
  · nomatch h
  · nomatch h
  next tkhdr token hread =>
      simp only [Context.new] at h
      split_ifs at h with hnil
      split at h
      · nomatch h
      · nomatch h
      · nomatch h
      next jwt hdecode =>
        split_ifs at h
        obtain ⟨roles, -, h⟩ := Except.ok_of_bind h
        obtain ⟨permitted, -, h⟩ := Except.ok_of_bind h
        split_ifs at h
        cases h
        exact ⟨tkhdr, token, jwt, carries_of_readToken hread, hnil, hdecode, rfl⟩

private theorem checkJson_of_elements {auth : Auth} (hroles : auth.roles ≠ []) {rs : Object ν}
    (h : rs.elements ≠ []) : auth.checkJson rs = .error .notString := by
  obtain ⟨r, roles, hr⟩ := List.exists_cons_of_ne_nil hroles
  obtain ⟨e, es, he⟩ := List.exists_cons_of_ne_nil h
  have hnotString : rs.toStr = .error .notString := by
    unfold Object.toStr
    split
    · exact absurd rfl h
    · rfl
  rw [Auth.checkJson, if_neg hroles, hr, Auth.checkRoles, he, Auth.checkElements, hnotString]
  rfl

private theorem checkJson_of_nil {auth : Auth} (hroles : auth.roles ≠ []) {rs : Object ν}
    (h : rs.elements = []) : auth.checkJson rs = .ok false := by
  have hall : ∀ roles : List Str, Auth.checkRoles rs roles = .ok false := by
    intro roles
    induction roles with
    | nil => rfl
    | cons r roles ih =>
        rw [Auth.checkRoles, h]
        exact ih
  rw [Auth.checkJson, if_neg hroles, hall]

variable (res c) in
/-- What decides about a token that is valid. -/
private theorem before_valid (henabled : req.AUTHORIZE.enabled = true)
    (huse : a.use.use = .HEADER) {token : Bytes} {jwt : Jwt ν} (hcarries : a.Carries hash req token) (hvalid : a.Valid codec hmac now token jwt) :
    ∃ tkhdr, a.before hash now codec hmac (arriving req res c) =
      (do
        let roles ← liftJson res jwt.roles
        let permitted ← liftJson res (req.AUTHORIZE.checkJson roles)
        if !permitted then .error (a.authrequest hash now res (str "Access to resource denied."))
        else .ok ⟨req, res, ⟨jwt, tkhdr, token⟩, c⟩) := by
  have hne : token ≠ [] := by
    rintro rfl
    nomatch hvalid.1
  obtain ⟨tkhdr, hread⟩ := readToken_of_carries huse hcarries hne
  have hdecode : Jwt.decode codec hmac (arriving (ν := ν) req res c).ctx.1.jwt token a.key =
      .ok (some jwt) := hvalid.1
  refine ⟨tkhdr, ?_⟩
  rw [before]
  simp only [arriving, henabled, hread, Bool.not_true, Bool.false_eq_true, if_false, if_neg hne]
  simp only [arriving] at hdecode
  simp only [hdecode, if_neg (Int.not_lt.mpr hvalid.2)]

/-- A valid token leads to no access outside of the memory. -/
private theorem before_defined (henabled : req.AUTHORIZE.enabled = true)
    (huse : a.use.use = .HEADER) {token : Bytes} {jwt : Jwt ν} (hcarries : a.Carries hash req token)
    (hvalid : a.Valid codec hmac now token jwt) :
    a.before hash now codec hmac (arriving req res c) ≠ .error .undefined := by
  obtain ⟨tkhdr, hbefore⟩ := before_valid res c henabled huse hcarries hvalid
  rw [hbefore]
  cases jwt.roles with
  | error f => nofun
  | ok roles =>
      simp only [liftJson, bind, Except.bind]
      cases req.AUTHORIZE.checkJson roles with
      | error f => nofun
      | ok permitted =>
          cases permitted with
          | false => nofun
          | true => nofun

private theorem before_cookie (henabled : req.AUTHORIZE.enabled = true)
    (huse : a.use.use = .COOKIE) :
    a.before hash now codec hmac (arriving req res c) = .error .undefined := by
  rw [before, readToken, huse]
  simp only [arriving, henabled, Bool.not_true, Bool.false_eq_true, if_false]

variable (res c) in
/-- A token that is not valid is refused, unless decoding it leaves the memory. -/
private theorem before_invalid (henabled : req.AUTHORIZE.enabled = true)
    (huse : a.use.use = .HEADER) (h : ∀ token, a.Carries hash req token →
      Jwt.decode codec hmac (Jwt.new (str "JWT")) token a.key ≠ .error (.base64 .overrun) ∧
        ∀ jwt, ¬ a.Valid codec hmac now token jwt) :
    ∃ msg, a.before hash now codec hmac (arriving req res c) =
      .error (a.authrequest hash now res msg) := by
  rw [before]
  simp only [arriving, henabled, Bool.not_true, Bool.false_eq_true, if_false]
  split
  next e hread =>
      rw [readToken, huse] at hread
      nomatch hread
  · exact ⟨[], rfl⟩
  next tkhdr token hread =>
      obtain ⟨hdefined, hinvalid⟩ := h token (carries_of_readToken hread)
      split_ifs
      · exact ⟨[], rfl⟩
      · simp only [Context.new]
        split
        next hdecode => exact absurd hdecode hdefined
        · exact ⟨str "Invalid authorization token.", rfl⟩
        · exact ⟨[], rfl⟩
        next jwt hdecode =>
          -- the token decodes, so that it must have expired
          have hexpired : jwt.payload.exp < now := by
            by_contra hnow
            exact hinvalid jwt ⟨hdecode, Int.not_lt.mp hnow⟩
          rw [if_pos hexpired]
          exact ⟨[], rfl⟩

private theorem before_overrun (henabled : req.AUTHORIZE.enabled = true)
    (huse : a.use.use = .HEADER) {token : Bytes} (hcarries : a.Carries hash req token)
    (h : Jwt.decode codec hmac (Jwt.new (str "JWT")) token a.key = .error (.base64 .overrun)) :
    a.before hash now codec hmac (arriving req res c) = .error .undefined := by
  have hne : token ≠ [] := by
    rintro rfl
    nomatch h
  obtain ⟨tkhdr, hread⟩ := readToken_of_carries huse hcarries hne
  rw [before]
  simp only [arriving, henabled, hread, Bool.not_true, Bool.false_eq_true, if_false, if_neg hne,
    Context.new, h]

/-! ## What is refused -/

private theorem refusal_authrequest (msg : Bytes) :
    Refusal (.create Status.UNAUTHORIZED.code [msg]) := Or.inl rfl

private theorem not_refusal_json (f : Json.Fault) : ¬ Refusal f.toException := by
  rintro (h | h)
  · exact absurd (show (500 : Int) = 401 from h) (by decide)
  · exact absurd (show (500 : Int) = 403 from h) (by decide)

/-- `authrequest` is a refusal, and it ends the request. -/
private theorem refused_of_authrequest {msg : Bytes}
    (h : a.before hash now codec hmac (arriving req res c) =
      .error (a.authrequest hash now res msg)) :
    ∃ r, a.before hash now codec hmac (arriving req res c) = .error (.raised r) ∧ Refusal r.ex ∧
      ∀ (after : Middlewares.Handler Request (Context ν × C) Stop)
        (server : Middlewares.Server Request (Context ν × C) Stop)
        (pre post : List (Middlewares.Middleware Request (Context ν × C) Stop))
        (x₀ x : Middlewares.Exchange Request (Context ν × C)), server.before x₀ = .ok x →
        Middlewares.arrives pre x = some (arriving req res c) →
        (Middlewares.process server (pre ++ ⟨a.before hash now codec hmac, after⟩ :: post) x₀).res =
            .error (.raised r) ∧
          Middlewares.Call.handle ∉ (Middlewares.process server
            (pre ++ ⟨a.before hash now codec hmac, after⟩ :: post) x₀).log := by
  refine ⟨_, h, refusal_authrequest msg, ?_⟩
  intro after server pre post x₀ x hserver harrives
  exact Middlewares.process_raises post hserver harrives h

/-- The roles of a valid token decide alone. -/
private theorem permits_iff {token : Bytes} {jwt : Jwt ν} (hcarries : a.Carries hash req token)
    (hvalid : a.Valid codec hmac now token jwt) :
    a.Permits codec hmac hash now req ↔ Permitted req.AUTHORIZE jwt := by
  constructor
  · rintro ⟨token', jwt', hcarries', hvalid', hpermitted⟩
    obtain rfl := carries_unique hcarries hcarries'
    obtain rfl : jwt = jwt' := Option.some.inj (Except.ok.inj (hvalid.1.symm.trans hvalid'.1))
    exact hpermitted
  · exact fun h => ⟨token, jwt, hcarries, hvalid, h⟩

private theorem permitted_of_nil {auth : Auth} (h : auth.roles = []) (jwt : Jwt ν) :
    Permitted auth jwt := Or.inl (List.map_eq_nil_iff.mpr h)

variable (res c) in
/-- A token with a role that the route does not name, or with none at all. -/
private theorem before_roles (henabled : req.AUTHORIZE.enabled = true) (huse : a.use.use = .HEADER)
    {token : Bytes} {jwt : Jwt ν} (hcarries : a.Carries hash req token)
    (hvalid : a.Valid codec hmac now token jwt) (hroles : req.AUTHORIZE.roles ≠ []) :
    (∃ roles, jwt.roles = .ok roles ∧ roles.elements = []) ∧
        a.before hash now codec hmac (arriving req res c) =
          .error (a.authrequest hash now res (str "Access to resource denied.")) ∨
      (¬ ∃ roles, jwt.roles = .ok roles ∧ roles.elements = []) ∧
        ∃ f, a.before hash now codec hmac (arriving req res c) =
          .error (.raised ⟨Json.Fault.toException f, res, []⟩) := by
  obtain ⟨tkhdr, hbefore⟩ := before_valid res c henabled huse hcarries hvalid
  rw [hbefore]
  cases hget : jwt.roles with
  | error f => exact Or.inr ⟨nofun, f, rfl⟩
  | ok rs =>
      by_cases helements : rs.elements = []
      · refine Or.inl ⟨⟨rs, rfl, helements⟩, ?_⟩
        simp only [liftJson, checkJson_of_nil hroles helements, bind, Except.bind, Bool.not_false,
          if_true]
      · refine Or.inr ⟨?_, .notString, ?_⟩
        · rintro ⟨rs', hrs, hnil⟩
          cases hrs
          exact helements hnil
        · simp only [liftJson, checkJson_of_elements hroles helements, bind, Except.bind]

/-- **The middleware guards a route exactly where `Refuses` holds**: where the token comes in a header,
decoding it stays in the memory, and a valid token that is not permitted has no elements among its
roles. -/
theorem guards_iff (a : JwtAuthorization) (codec : Jwt.Codec ν) (hmac : Jwt.Hmac)
    (hash : Bytes → UInt64) (now : Int) (req : Request) (res : Response) (c : C)
    (henabled : req.AUTHORIZE.enabled = true) :
    a.Guards codec hmac hash now req res c ↔ a.Refuses codec hmac hash now req := by
  constructor
  · intro h
    have huse : a.use.use = .HEADER := by
      cases huse : a.use.use with
      | HEADER => rfl
      | COOKIE => exact absurd (before_cookie henabled huse) h.defined
    refine ⟨huse, fun token hcarries => ?_⟩
    constructor
    · -- no token that is decoded outside of the memory is permitted, and none is refused
      intro hoverrun
      have hout : ¬ a.Permits codec hmac hash now req := by
        rintro ⟨token', jwt, hcarries', hvalid, -⟩
        obtain rfl := carries_unique hcarries hcarries'
        nomatch hoverrun.symm.trans hvalid.1
      obtain ⟨r, hr, -, -⟩ := h.refused hout
      rw [before_overrun henabled huse hcarries hoverrun] at hr
      nomatch hr
    · intro jwt hvalid
      -- a token that is not permitted has to be refused, by the comparison of the roles
      by_contra hfails
      obtain ⟨hout, helements⟩ := not_or.mp hfails
      have hroles : req.AUTHORIZE.roles ≠ [] := fun hnil => hout (permitted_of_nil hnil jwt)
      obtain ⟨r, hr, hrefusal, -⟩ := h.refused (mt (permits_iff hcarries hvalid).mp hout)
      rcases before_roles res c henabled huse hcarries hvalid hroles with ⟨hnone, -⟩ | ⟨-, f, hthrows⟩
      · exact helements hnone
      · -- the exception of the comparison is an internal error
        rw [hthrows] at hr
        cases hr
        exact not_refusal_json f hrefusal
  · rintro ⟨huse, h⟩
    by_cases hvalid : ∃ token jwt, a.Carries hash req token ∧ a.Valid codec hmac now token jwt
    · obtain ⟨token, jwt, hcarries, hvalid⟩ := hvalid
      have hdefined : a.before hash now codec hmac (arriving req res c) ≠ .error .undefined :=
        before_defined henabled huse hcarries hvalid
      -- a route without roles permits every valid token
      by_cases hroles : req.AUTHORIZE.roles = []
      · have hpermits := (permits_iff hcarries hvalid).mpr (permitted_of_nil hroles jwt)
        exact ⟨hdefined, fun _ _ => hpermits, fun hout => absurd hpermits hout⟩
      · rcases before_roles res c henabled huse hcarries hvalid hroles with
          ⟨-, hdenied⟩ | ⟨hsome, f, hthrows⟩
        · refine ⟨hdefined, ?_, fun _ => refused_of_authrequest hdenied⟩
          intro y hy
          nomatch hdenied.symm.trans hy
        · have hpermitted := ((h token hcarries).2 jwt hvalid).resolve_right hsome
          have hpermits := (permits_iff hcarries hvalid).mpr hpermitted
          exact ⟨hdefined, fun _ _ => hpermits, fun hout => absurd hpermits hout⟩
    · -- without a valid token there is nothing but a refusal
      obtain ⟨msg, hrefused⟩ := before_invalid res c henabled huse
        fun token hcarries =>
          ⟨(h token hcarries).1, fun jwt hjwt => hvalid ⟨token, jwt, hcarries, hjwt⟩⟩
      refine ⟨fun hundefined => ?_, fun y hy => ?_, fun _ => refused_of_authrequest hrefused⟩
      · nomatch hrefused.symm.trans hundefined
      · nomatch hrefused.symm.trans hy

end

/-! ## A user on a page for administrators -/

def userHeader : Bytes := str "\x7b\"typ\":\"JWT\",\"alg\":\"HS256\"\x7d"

def userPayload : Bytes := str "\x7b\"exp\":2000000000,\"claims\":\x7b\"roles\":[\"user\"]\x7d\x7d"

/-- The JSON texts of a token of a user. -/
def userCodec : Jwt.Codec Empty where
  encodeHeader _ := userHeader
  encodePayload _ := userPayload
  decodeHeader _ text :=
    if text = userHeader then .ok ⟨str "JWT", str "HS256"⟩
    else .error (str "json_decode error: missing field typ")
  decodePayload p text :=
    if text = userPayload then
      .ok { p with
        exp := 2000000000
        claims := some (.object [(str "roles", .array [.string (str "user")])]) }
    else .error (str "Empty string.")

/-- `base64(header).base64(payload)`. -/
def userData : Bytes :=
  str "eyJ0eXAiOiJKV1QiLCJhbGciOiJIUzI1NiJ9" ++
    str ".eyJleHAiOjIwMDAwMDAwMDAsImNsYWltcyI6eyJyb2xlcyI6WyJ1c2VyIl19fQ=="

/-- The HMAC of these data under `secret`. -/
def userHmac : Jwt.Hmac := fun secret data i =>
  if secret = str "secret" ∧ data = userData then
    [223, 69, 202, 29, 121, 249, 201, 6, 41, 41, 164, 75, 20, 15, 84, 158,
      209, 110, 42, 36, 226, 197, 139, 137, 140, 159, 66, 67, 226, 159, 118, 34].getD i.val 0
  else 0

def userToken : Bytes := userData ++ str ".30XKHXn5yQYpKaRLFA9UntFuKiTixYuJjJ9CQ+KfdiI="

/-- The middleware as it is made, with the secret `secret`. -/
def plainAuthorization : JwtAuthorization :=
  ⟨str "secret", str "Bearer", ⟨.HEADER, str "Authorization"⟩, [], str "/"⟩

/-- A user asks for a page for the given roles. -/
def userRequest (roles : List Bytes) : Request :=
  ⟨[(str "Authorization", str "Bearer " ++ userToken)], [], .new roles⟩

theorem guards_user :
    plainAuthorization.Guards userCodec userHmac (fun _ => 0) 1700000000 (userRequest [str "user"])
        (.new .OK) () ↔
      plainAuthorization.Refuses userCodec userHmac (fun _ => 0) 1700000000
        (userRequest [str "user"]) :=
  guards_iff _ _ _ _ _ _ _ () rfl

private theorem carries_user (roles : List Bytes) :
    plainAuthorization.Carries (fun _ => 0) (userRequest roles) userToken := by
  have hfind : CaseMap.find (fun _ => 0) (userRequest roles).headers plainAuthorization.use.key =
      some (str "Bearer " ++ userToken) := CaseMap.find_singleton _ _
  exact ⟨str "Bearer ", hfind, by decide⟩

set_option maxRecDepth 8000 in
/-- A valid token of a user who is no administrator ends as an internal error. -/
theorem not_guards_user :
    (∃ r, plainAuthorization.before (fun _ => 0) 1700000000 userCodec userHmac
        (arriving (userRequest [str "admin"]) (.new .OK) ()) = .error (.raised r) ∧
          (answer r.ex).status = Status.INTERNAL_ERROR.code) ∧
      ¬ plainAuthorization.Guards userCodec userHmac (fun _ => 0) 1700000000
        (userRequest [str "admin"]) (.new .OK) () := by
  have hdecode : ((Jwt.decode userCodec userHmac (Jwt.new (str "JWT")) userToken
      plainAuthorization.key).toOption.map fun d => d.map fun jwt =>
        (jwt.payload.exp, roleNames jwt)) = some (some (2000000000, [str "user"])) := by
    decide
  cases hjwt : Jwt.decode userCodec userHmac (Jwt.new (str "JWT")) userToken
      plainAuthorization.key with
  | error f =>
      rw [hjwt] at hdecode
      nomatch hdecode
  | ok d =>
      rw [hjwt] at hdecode
      cases d with
      | none => nomatch hdecode
      | some jwt =>
          obtain ⟨hexp, hnames⟩ := Prod.mk.inj (Option.some.inj (Option.some.inj hdecode))
          have hvalid : plainAuthorization.Valid userCodec userHmac 1700000000 userToken jwt :=
            ⟨hjwt, by omega⟩
          have hroles : (userRequest [str "admin"]).AUTHORIZE.roles ≠ [] := List.cons_ne_nil _ _
          have helements : ¬ ∃ roles, jwt.roles = .ok roles ∧ roles.elements = [] := by
            rintro ⟨roles, hroles, hnil⟩
            rw [roleNames, hroles] at hnames
            simp only [hnil, List.filterMap_nil] at hnames
            nomatch hnames
          obtain ⟨f, hthrows⟩ := ((before_roles (.new .OK) () rfl rfl
            (carries_user _) hvalid hroles).resolve_left fun h => helements h.1).2
          refine ⟨⟨_, hthrows, rfl⟩, ?_⟩
          intro h
          have hout : ¬ plainAuthorization.Permits userCodec userHmac (fun _ => 0) 1700000000
              (userRequest [str "admin"]) := by
            rw [permits_iff (carries_user _) hvalid, Permitted, hnames]
            decide
          obtain ⟨r, hr, hrefusal, -⟩ := h.refused hout
          rw [hthrows] at hr
          cases hr
          exact not_refusal_json f hrefusal

end JwtAuthorization

end Suil.Http
