import Mathlib
import Suil.Http.JwtAuthorization
import Suil.Lib.StepMachine

set_option autoImplicit false

/-! # Sessions

`_JwtSession` (`middlewares.h`) keeps the token of each audience in a hash of Redis. A request with a
token that is not the one in the hash is refused; `authorize` and `revoke` of the context change the
hash. `admits_iff` says for which runs nothing passes but the token that was authorised last, and
`authorize` reports what it has stored. -/

namespace Suil.Http

open StepMachine (inputs)

variable {ν : Type}

namespace JwtAuthorization

/-- The rest of the context: what `after` has to do. -/
structure Marks where
  sendTok : Bool
  encode : Bool
  requestAuth : Bool
  redirectUrl : Bytes
  deriving DecidableEq, Repr

/-- The context with its marks. -/
abbrev Marked (ν : Type) : Type := Context ν × Marks

/-- The context of a request. -/
def Marked.new : Marked ν := ⟨Context.new, ⟨false, false, false, []⟩⟩

/-- What `authorize` writes into a token; the sum is one of `uint64_t`. -/
def stamp (expiry : UInt64) (now : Int) (jwt : Jwt ν) : Jwt ν :=
  { jwt with payload := { jwt.payload with iat := now, exp := (now + expiry.toNat).bmod (2 ^ 64) } }

section

variable (a : JwtAuthorization) (expiry : UInt64) (codec : Jwt.Codec ν) (hmac : Jwt.Hmac)

/-- `Context::authorize(Jwt&&)`. The context keeps its token when writing the new one throws. -/
def Marked.authorize (now : Int) (ctx : Marked ν) (jwt : Jwt ν) :
    Marked ν × Except Jwt.Fault Unit :=
  let jwt := stamp expiry now jwt
  let marks : Marks := { ctx.2 with sendTok := true, encode := true, requestAuth := false }
  match jwt.encode codec hmac a.key with
  | .error f => (⟨{ ctx.1 with jwt := jwt }, marks⟩, .error f)
  | .ok token => (⟨{ ctx.1 with jwt := jwt, actualToken := token }, marks⟩, .ok ())

/-- `Context::authorize(const String&)`; nothing where it returns false. -/
def Marked.authorizeToken (now : Int) (ctx : Marked ν) (token : Bytes) :
    Except Jwt.Fault (Option (Marked ν)) := do
  match ← Jwt.decode codec hmac (Jwt.new (str "JWT")) token a.key with
  | none => .ok none
  | some tok =>
      if now < tok.payload.exp then
        .ok (some ⟨{ ctx.1 with jwt := tok, actualToken := token },
          { ctx.2 with sendTok := true, encode := true, requestAuth := false }⟩)
      else .ok none

end

/-- `Context::authenticate(msg)`. -/
def Marked.authenticate (ctx : Marked ν) (msg : Bytes) : Marked ν :=
  ⟨{ ctx.1 with tokenHdr := msg },
    { ctx.2 with sendTok := false, encode := false, requestAuth := true }⟩

/-- `Context::logout()`. -/
def Marked.logout (ctx : Marked ν) : Marked ν := ⟨ctx.1, { ctx.2 with sendTok := false }⟩

/-- What `after` does with the response: it sends the token, in a header or a cookie, redirects to a
URL, asks for authorization, or leaves the response as it is. -/
inductive Ending where
  | token (use : JwtUse) (token : Bytes)
  | redirect (url : Bytes)
  | unauthorized (msg : Bytes)
  | nothing

/-- `after`. -/
def after (a : JwtAuthorization) (ctx : Marked ν) : Ending :=
  if ctx.2.sendTok then .token a.use ctx.1.actualToken
  else if ctx.2.redirectUrl ≠ [] then .redirect ctx.2.redirectUrl
  else if ctx.2.requestAuth then .unauthorized ctx.1.tokenHdr
  else .nothing

end JwtAuthorization

namespace JwtSession

open JwtAuthorization (Context Marked Marks)

/-! ## The store -/

def hashName : Bytes := str "session_tokens"

/-- The hash at the server. -/
abbrev Store : Type := Bytes → Option Bytes

namespace Store

/-- HEXISTS. -/
def hexists (store : Store) (key : Bytes) : Bool := (store key).isSome

/-- `hget<String>`: a reply without text is an error. -/
def hget (store : Store) (key : Bytes) : Except Exception Bytes :=
  match (store key).getD [] with
  | [] => .error (.create 0 [str "redis HGET '", streamed hashName, str " ", streamed key,
      str "' failed: "])
  | token => .ok token

/-- HSET, whose reply is the number of fields that are new. -/
def set (store : Store) (key token : Bytes) : Store × Nat :=
  (Function.update store key (some token), if store.hexists key then 0 else 1)

/-- `BaseClient::hset`. -/
def hset (store : Store) (key token : Bytes) : Store × Bool :=
  let (store, resp) := store.set key token
  (store, resp ≠ 0)

/-- HDEL. -/
def hdel (store : Store) (key : Bytes) : Store := Function.update store key none

end Store

/-! ## The middleware -/

/-- The ways that lead out of a call by an exception. -/
inductive Raised where
  | jwt (f : Jwt.Fault)
  | redis (ex : Exception)

/-- What a call leaves behind, and what it returns. -/
structure Outcome (ν : Type) where
  store : Store
  ctx : Marked ν
  result : Except Raised Bool

/-- `operator==` of strings that are not empty. -/
def sameToken (s t : Bytes) : Bool := s.length = t.length && strncmpEq s.length s t

def INVALID : Bytes := str "Attempt to access protected resource with invalid token"

section

variable (a : JwtAuthorization) (expiry : UInt64) (codec : Jwt.Codec ν) (hmac : Jwt.Hmac)

/-- `Context::authorize(http::Jwt&&)`. -/
def authorize (now : Int) (store : Store) (ctx : Marked ν) (jwt : Jwt ν) : Outcome ν :=
  match ctx.authorize a expiry codec hmac now jwt with
  | (ctx, .error f) => ⟨store, ctx, .error (.jwt f)⟩
  | (ctx, .ok ()) =>
      match store.hset ctx.1.jwt.payload.aud ctx.1.actualToken with
      | (store, false) => ⟨store, ctx.authenticate (str "Creating session failed"), .ok false⟩
      | (store, true) => ⟨store, ctx, .ok true⟩

/-- `Context::revoke`. -/
def revoke (store : Store) (ctx : Marked ν) (user : Bytes) : Store × Marked ν :=
  (store.hdel user, ctx.logout)

/-- `Context::authorize(const String&)`. -/
def authorizeUser (now : Int) (store : Store) (ctx : Marked ν) (user : Bytes) : Outcome ν :=
  if !store.hexists user then ⟨store, ctx, .ok false⟩
  else
    match store.hget user with
    | .error ex => ⟨store, ctx, .error (.redis ex)⟩
    | .ok token =>
        match ctx.authorizeToken a codec hmac now token with
        | .error f => ⟨store, ctx, .error (.jwt f)⟩
        | .ok none => ⟨(revoke store ctx user).1, (revoke store ctx user).2, .ok false⟩
        | .ok (some ctx) => ⟨store, ctx, .ok true⟩

end

/-- `before`. -/
def before (store : Store) (x : Middlewares.Exchange JwtAuthorization.Request (Marked ν)) :
    Except Exception (Middlewares.Exchange JwtAuthorization.Request (Marked ν)) :=
  let refused := { x with res := x.res.finish .OK, ctx := x.ctx.authenticate INVALID }
  if x.ctx.1.actualToken = [] then .ok x
  else
    let aud := x.ctx.1.jwt.payload.aud
    if !store.hexists aud then .ok refused
    else
      match store.hget aud with
      | .error ex => .error ex
      | .ok cachedToken => if !sameToken cachedToken x.ctx.1.actualToken then .ok refused else .ok x

/-! ## What sessions are for -/

/-- What the history of a server is made of. -/
inductive Event where
  | authorised (aud token : Bytes)
  | revoked (aud : Bytes)

/-- The token that was authorised last for an audience, unless it was revoked; the last event is the
head. -/
def current (aud : Bytes) : List Event → Option Bytes
  | [] => none
  | .authorised aud' token :: log => if aud' = aud then some token else current aud log
  | .revoked aud' :: log => if aud' = aud then none else current aud log

/-- The server with its history. -/
structure State where
  store : Store
  log : List Event

def init : State := ⟨fun _ => none, []⟩

/-- A call of a handler in some context, or a request that comes in. -/
inductive Call (ν : Type) where
  | authorize (ctx : Marked ν) (jwt : Jwt ν) (now : Int)
  | authorizeUser (ctx : Marked ν) (user : Bytes) (now : Int)
  | revoke (ctx : Marked ν) (user : Bytes)
  | request (req : JwtAuthorization.Request) (now : Int)

section

variable (a : JwtAuthorization) (expiry : UInt64) (codec : Jwt.Codec ν) (hmac : Jwt.Hmac)
  (hash : Bytes → UInt64)

/-- The token that `authorize` makes. -/
def generated (now : Int) (jwt : Jwt ν) : Except Jwt.Fault Bytes :=
  (JwtAuthorization.stamp expiry now jwt).encode codec hmac a.key

/-- The token in the hash is authorised once more, or its session is gone. -/
def userEvents (s : State) (user : Bytes) (o : Outcome ν) : List Event :=
  match o.result, s.store user with
  | .ok true, some token => [.authorised user token]
  | _, some _ => if o.store.hexists user then [] else [.revoked user]
  | _, none => []

/-- What a call does to the server. -/
def next (s : State) : Call ν → Option State
  | .authorize ctx jwt now =>
      let store := (authorize a expiry codec hmac now s.store ctx jwt).store
      match generated a expiry codec hmac now jwt with
      | .error _ => some ⟨store, s.log⟩
      | .ok token => some ⟨store, .authorised jwt.payload.aud token :: s.log⟩
  | .authorizeUser ctx user now =>
      let o := authorizeUser a codec hmac now s.store ctx user
      some ⟨o.store, userEvents s user o ++ s.log⟩
  | .revoke ctx user => some ⟨(revoke s.store ctx user).1, .revoked user :: s.log⟩
  | .request _ _ => some s

/-- A request comes through both middlewares. -/
def Passes (store : Store) (req : JwtAuthorization.Request) (now : Int) : Prop :=
  ∃ (res : Response) (marks : Marks) (y z : Middlewares.Exchange JwtAuthorization.Request
      (Marked ν)), res.completed = false ∧
    a.before hash now codec hmac (JwtAuthorization.arriving req res marks) = .ok y ∧
      before store y = .ok z ∧ z.res.completed = false

/-- The call reports success, and the response sends the token. -/
def Reports (o : Outcome ν) (token : Bytes) : Prop :=
  o.result = .ok true ∧ a.after o.ctx = .token a.use token

/-- What is asked of each call. -/
def Right (s : State) : Call ν → Prop
  | .authorize ctx jwt now =>
      let o := authorize a expiry codec hmac now s.store ctx jwt
      ∀ token, Reports a o token ↔
        generated a expiry codec hmac now jwt = .ok token ∧ o.store jwt.payload.aud = some token
  | .request req now =>
      ∀ token, a.Carries hash req token → token ≠ [] → Passes a codec hmac hash s.store req now →
        ∃ jwt, Jwt.decode codec hmac (Jwt.new (str "JWT")) token a.key = .ok (some jwt) ∧
          current jwt.payload.aud s.log = some token
  | _ => True

/-- A token is made only for an audience without a session, and a request has the token of a session
where its route does not ask for one. -/
def Meets (s : State) : Call ν → Prop
  | .authorize _ jwt now =>
      (∃ f, generated a expiry codec hmac now jwt = .error f) ∨ s.store jwt.payload.aud = none
  | .request req _ =>
      req.AUTHORIZE.enabled = true ∨ ∀ token, a.Carries hash req token → token ≠ [] →
        ∃ jwt, Jwt.decode codec hmac (Jwt.new (str "JWT")) token a.key = .ok (some jwt) ∧
          s.store jwt.payload.aud = some token
  | _ => True

end

/-! ## Each function -/

section

variable {a : JwtAuthorization} {expiry : UInt64} {codec : Jwt.Codec ν} {hmac : Jwt.Hmac}
  {hash : Bytes → UInt64} {now : Int} {store : Store} {ctx : Marked ν} {jwt : Jwt ν}
  {user token : Bytes}

private theorem hset_eq (store : Store) (aud token : Bytes) :
    store.hset aud token = (Function.update store aud (some token), !store.hexists aud) := by
  unfold Store.hset Store.set
  cases store.hexists aud with
  | false => rfl
  | true => rfl

private theorem sameToken_iff {t : Bytes} (h : NUL ∉ token) : sameToken token t = true ↔ token = t := by
  rw [sameToken, Bool.and_eq_true, decide_eq_true_iff]
  constructor
  · rintro ⟨hlen, hcmp⟩
    exact (strncmpEq_length h hlen).mp hcmp
  · rintro rfl
    exact ⟨rfl, strncmpEq_self _ _⟩

/-- Without a token nothing is stored. -/
private theorem authorize_error {f : Jwt.Fault}
    (h : generated a expiry codec hmac now jwt = .error f) :
    (authorize a expiry codec hmac now store ctx jwt).store = store ∧
      (authorize a expiry codec hmac now store ctx jwt).result = .error (.jwt f) := by
  unfold generated at h
  unfold authorize Marked.authorize
  simp only [h, and_self]

/-- A token is stored in any case; the reply says whether there was one before. -/
private theorem authorize_ok (h : generated a expiry codec hmac now jwt = .ok token) :
    (authorize a expiry codec hmac now store ctx jwt).store =
        Function.update store jwt.payload.aud (some token) ∧
      (authorize a expiry codec hmac now store ctx jwt).result =
        .ok (!store.hexists jwt.payload.aud) ∧
      (store.hexists jwt.payload.aud = false →
        a.after (authorize a expiry codec hmac now store ctx jwt).ctx = .token a.use token) := by
  have haud : (JwtAuthorization.stamp expiry now jwt).payload.aud = jwt.payload.aud := rfl
  unfold generated at h
  unfold authorize Marked.authorize
  simp only [h, hset_eq, haud]
  cases store.hexists jwt.payload.aud with
  | false => exact ⟨rfl, rfl, fun _ => rfl⟩
  | true => exact ⟨rfl, rfl, nofun⟩

/-- `authorize(user)` leaves the hash as it is, or takes the session of the user out of it. -/
private theorem authorizeUser_spec (a : JwtAuthorization) (codec : Jwt.Codec ν) (hmac : Jwt.Hmac)
    (now : Int) (store : Store) (ctx : Marked ν) (user : Bytes) :
    (authorizeUser a codec hmac now store ctx user).store = store ∨
      ((authorizeUser a codec hmac now store ctx user).store = store.hdel user ∧
        (authorizeUser a codec hmac now store ctx user).result = .ok false) := by
  unfold authorizeUser
  split
  · exact .inl rfl
  · split
    · exact .inl rfl
    · split
      · exact .inl rfl
      · exact .inr ⟨rfl, rfl⟩
      · exact .inl rfl

/-- What passes `before` with a token has the token of the session. -/
private theorem before_passes {x z : Middlewares.Exchange JwtAuthorization.Request (Marked ν)}
    (hne : x.ctx.1.actualToken ≠ []) (h : before store x = .ok z) (hz : z.res.completed = false) :
    ∃ cached, store x.ctx.1.jwt.payload.aud = some cached ∧
      sameToken cached x.ctx.1.actualToken = true := by
  rw [before, if_neg hne] at h
  simp only at h
  split_ifs at h with hexists
  · cases h
    nomatch hz
  split at h
  · nomatch h
  next cached hget =>
  split_ifs at h with hsame
  · cases h
    nomatch hz
  refine ⟨cached, ?_, ?_⟩
  · unfold Store.hget at hget
    unfold Store.hexists at hexists
    cases haud : store x.ctx.1.jwt.payload.aud with
    | none => rw [haud] at hexists; exact absurd rfl hexists
    | some t =>
        rw [haud, Option.getD_some] at hget
        cases t with
        | nil => nomatch hget
        | cons b t => exact congrArg some (Except.ok.inj hget)
  · rw [Bool.not_eq_true', Bool.not_eq_false] at hsame
    exact hsame

/-! ## The hash and its history -/

/-- The hash has the tokens that were authorised last, which are strings in C. -/
structure Tracks (s : State) : Prop where
  current : ∀ aud, s.store aud = current aud s.log
  text : ∀ aud token, s.store aud = some token → NUL ∉ token ∧ token ≠ []

private theorem tracks_init : Tracks init := ⟨fun _ => rfl, nofun⟩

private theorem Tracks.authorised {s : State} (h : Tracks s) {aud : Bytes}
    (htext : NUL ∉ token ∧ token ≠ []) :
    Tracks ⟨Function.update s.store aud (some token), .authorised aud token :: s.log⟩ := by
  refine ⟨fun aud' => ?_, fun aud' t ht => ?_⟩
  · rw [JwtSession.current]
    by_cases heq : aud = aud'
    · rw [if_pos heq, heq]
      exact Function.update_self ..
    · rw [if_neg heq, ← h.current]
      exact Function.update_of_ne (Ne.symm heq) ..
  · change Function.update s.store aud (some token) aud' = some t at ht
    by_cases heq : aud' = aud
    · rw [heq, Function.update_self] at ht
      exact Option.some.inj ht ▸ htext
    · rw [Function.update_of_ne heq] at ht
      exact h.text aud' t ht

private theorem Tracks.revoked {s : State} (h : Tracks s) (aud : Bytes) :
    Tracks ⟨s.store.hdel aud, .revoked aud :: s.log⟩ := by
  refine ⟨fun aud' => ?_, fun aud' t ht => ?_⟩
  · rw [JwtSession.current]
    by_cases heq : aud = aud'
    · rw [if_pos heq, heq]
      exact Function.update_self ..
    · rw [if_neg heq, ← h.current]
      exact Function.update_of_ne (Ne.symm heq) ..
  · change Function.update s.store aud none aud' = some t at ht
    by_cases heq : aud' = aud
    · rw [heq, Function.update_self] at ht
      nomatch ht
    · rw [Function.update_of_ne heq] at ht
      exact h.text aud' t ht

/-- A token that is authorised once more stays the one of its session. -/
private theorem Tracks.again {s : State} (h : Tracks s) (htoken : s.store user = some token) :
    Tracks ⟨s.store, .authorised user token :: s.log⟩ := by
  have hupdate : Function.update s.store user (some token) = s.store := by
    rw [← htoken]
    exact Function.update_eq_self ..
  have hboth := @Tracks.authorised _ _ h user (h.text user token htoken)
  rw [hupdate] at hboth
  exact hboth

private theorem Tracks.authorizeUser {s : State} (h : Tracks s) (ctx : Marked ν) (user : Bytes) :
    Tracks ⟨(authorizeUser a codec hmac now s.store ctx user).store,
      userEvents s user (authorizeUser a codec hmac now s.store ctx user) ++ s.log⟩ := by
  unfold userEvents
  rcases authorizeUser_spec a codec hmac now s.store ctx user with hsame | ⟨hdel, hfalse⟩
  · rw [hsame]
    cases htoken : s.store user with
    | none =>
        split
        · nomatch ‹none = some _›
        · nomatch ‹none = some _›
        · exact h
    | some token =>
        have hthere : s.store.hexists user = true := congrArg Option.isSome htoken
        rw [if_pos hthere]
        split
        next t _ heq =>
          cases heq
          exact h.again htoken
        next => exact h
        next => exact h
  · rw [hdel, hfalse]
    cases htoken : s.store user with
    | some token =>
        have hgone : (s.store.hdel user).hexists user = false := by
          rw [Store.hexists, Store.hdel, Function.update_self, Option.isSome_none]
        simp only [hgone, Bool.false_eq_true, if_false]
        exact h.revoked user
    | none =>
        -- nothing is deleted where there is nothing
        have hupdate : s.store.hdel user = s.store := by
          rw [Store.hdel, ← htoken]
          exact Function.update_eq_self ..
        rw [hupdate]
        exact h

/-- The history is kept by every call. -/
private theorem tracks_next {s s' : State} {c : Call ν} (h : Tracks s)
    (hnext : next a expiry codec hmac s c = some s') : Tracks s' := by
  cases c with
  | authorize ctx jwt now =>
      unfold next at hnext
      simp only at hnext
      cases hgen : generated a expiry codec hmac now jwt with
      | error f =>
          rw [hgen, (authorize_error hgen).1] at hnext
          cases hnext
          exact h
      | ok token =>
          rw [hgen, (authorize_ok hgen).1] at hnext
          cases hnext
          exact h.authorised (Jwt.text_of_encode hgen)
  | authorizeUser ctx user now =>
      cases hnext
      exact h.authorizeUser ctx user
  | revoke ctx user =>
      cases hnext
      exact h.revoked user
  | request req now =>
      cases hnext
      exact h

/-! ## Single calls -/

/-- A call reports its token exactly when there was no session before. -/
private theorem right_authorize (s : State) (ctx : Marked ν) (jwt : Jwt ν) (now : Int) :
    Right a expiry codec hmac hash s (.authorize ctx jwt now) ↔
      Meets a expiry codec hmac hash s (.authorize ctx jwt now) := by
  simp only [Right, Meets, Reports]
  cases hgen : generated a expiry codec hmac now jwt with
  | error f =>
      refine iff_of_true (fun token => ?_) (.inl ⟨f, rfl⟩)
      rw [(authorize_error hgen).2]
      exact iff_of_false (fun h => nomatch h.1) (fun h => nomatch h.1)
  | ok token =>
      obtain ⟨hstore, hresult, hafter⟩ := @authorize_ok _ _ _ _ _ _ s.store ctx _ _ hgen
      simp only [hstore, hresult, Function.update_self, reduceCtorEq, exists_false, false_or]
      cases haud : s.store jwt.payload.aud with
      | none =>
          have hnone : s.store.hexists jwt.payload.aud = false := congrArg Option.isSome haud
          refine iff_of_true (fun t => ?_) rfl
          rw [hnone, hafter hnone]
          constructor
          · rintro ⟨-, h⟩
            cases h
            exact ⟨rfl, rfl⟩
          · rintro ⟨h, -⟩
            cases h
            exact ⟨rfl, rfl⟩
      | some t =>
          have hsome : s.store.hexists jwt.payload.aud = true := congrArg Option.isSome haud
          refine iff_of_false (fun h => ?_) nofun
          have hreports := ((h token).mpr ⟨rfl, rfl⟩).1
          rw [hsome] at hreports
          nomatch hreports

/-- A route without `AUTHORIZE` takes every request. -/
private theorem passes_of_disabled {req : JwtAuthorization.Request}
    (h : req.AUTHORIZE.enabled = false) : Passes a codec hmac hash store req now := by
  have marks : Marks := ⟨false, false, false, []⟩
  refine ⟨.new .OK, marks, JwtAuthorization.arriving req (.new .OK) marks,
    JwtAuthorization.arriving req (.new .OK) marks, rfl, ?_, ?_, rfl⟩
  · rw [JwtAuthorization.before]
    exact if_pos (congrArg not h)
  · rw [before]
    exact if_pos rfl

private theorem right_request {s : State} (hs : Tracks s) (req : JwtAuthorization.Request)
    (now : Int) : Right a expiry codec hmac hash s (.request req now) ↔
      Meets a expiry codec hmac hash s (.request req now) := by
  simp only [Right, Meets]
  cases henabled : req.AUTHORIZE.enabled with
  | true =>
      refine iff_of_true (fun token hcarries hne hpasses => ?_) (.inl rfl)
      obtain ⟨res, marks, y, z, -, hy, hz, hopen⟩ := hpasses
      obtain ⟨tkhdr, t, jwt, ht, -, hdecode, rfl⟩ :=
        JwtAuthorization.token_of_before henabled hy
      cases JwtAuthorization.carries_unique hcarries ht
      obtain ⟨cached, hcached, hsame⟩ := before_passes hne hz hopen
      have htoken : cached = token := (sameToken_iff (hs.text _ _ hcached).1).mp hsame
      refine ⟨jwt, hdecode, ?_⟩
      rw [← hs.current, hcached, htoken]
  | false =>
      rw [or_iff_right Bool.false_ne_true]
      refine forall_congr' fun token => forall_congr' fun _ => forall_congr' fun _ => ?_
      rw [forall_prop_of_true (passes_of_disabled henabled)]
      simp only [hs.current]

private theorem right_iff {s : State} (hs : Tracks s) (c : Call ν) :
    Right a expiry codec hmac hash s c ↔ Meets a expiry codec hmac hash s c := by
  cases c with
  | authorize ctx jwt now => exact right_authorize s ctx jwt now
  | authorizeUser ctx user now => exact Iff.rfl
  | revoke ctx user => exact Iff.rfl
  | request req now => exact right_request hs req now

end

/-- **Sessions admit what was authorised last, and `authorize` reports what it stores, in the runs
in which it never replaces a session**, and in which a token on a route without `AUTHORIZE` is the
one of its session. -/
theorem admits_iff (a : JwtAuthorization) (expiry : UInt64) (codec : Jwt.Codec ν) (hmac : Jwt.Hmac)
    (hash : Bytes → UInt64) (calls : List (Call ν)) :
    (∀ p ∈ inputs (next a expiry codec hmac) init calls,
        Right a expiry codec hmac hash p.1 p.2) ↔
      ∀ p ∈ inputs (next a expiry codec hmac) init calls,
        Meets a expiry codec hmac hash p.1 p.2 :=
  StepMachine.forall_inputs_iff (fun _ c hs => right_iff hs c)
    (fun _ _ _ hs _ hnext => tracks_next hs hnext) tracks_init calls

/-! ## A user who comes back -/

def aliceHeader : Bytes := str "\x7b\"typ\":\"JWT\",\"alg\":\"HS256\"\x7d"

/-- The JSON texts of the tokens that only have an audience and their times. -/
def aliceCodec : Jwt.Codec Empty where
  encodeHeader _ := aliceHeader
  encodePayload p :=
    str "\x7b\"aud\":\"" ++ p.aud ++ str "\",\"exp\":" ++ str (toString p.exp) ++ str ",\"iat\":" ++
      str (toString p.iat) ++ str "\x7d"
  decodeHeader _ text :=
    if text = aliceHeader then .ok ⟨str "JWT", str "HS256"⟩
    else .error (str "json_decode error: missing field typ")
  decodePayload _ _ := .error (str "Empty string.")

/-- `base64(header).base64(payload)` of the first token. -/
def aliceData : Bytes :=
  str "eyJ0eXAiOiJKV1QiLCJhbGciOiJIUzI1NiJ9" ++
    str ".eyJhdWQiOiJhbGljZSIsImV4cCI6MTcwMDAwMDkwMCwiaWF0IjoxNzAwMDAwMDAwfQ=="

/-- The HMACs of the data of both tokens under `secret`. -/
def aliceHmac : Jwt.Hmac := fun secret data i =>
  if secret = str "secret" then
    if data = aliceData then
      [23, 17, 220, 232, 1, 137, 18, 4, 14, 33, 235, 14, 115, 143, 68, 118,
        227, 189, 242, 180, 161, 103, 45, 178, 69, 135, 74, 120, 227, 133, 182, 217].getD i.val 0
    else
      [240, 138, 119, 171, 156, 189, 39, 240, 28, 255, 197, 246, 204, 211, 239, 141,
        65, 67, 69, 49, 214, 79, 134, 169, 2, 98, 32, 204, 131, 121, 169, 162].getD i.val 0
  else 0

/-- The middleware as it is made, with the secret `secret`. -/
def sessionAuthorization : JwtAuthorization :=
  ⟨str "secret", str "Bearer", ⟨.HEADER, str "Authorization"⟩, [], str "/"⟩

def alice : Jwt Empty where
  header := ⟨str "JWT", str "HS256"⟩
  payload := ⟨[], str "alice", [], 0, 0, 0, [], some (.object [])⟩

/-- Alice logs in, and once more in the next second. -/
def twice : List (Call Empty) :=
  [.authorize .new alice 1700000000, .authorize .new alice 1700000001]

private theorem generated_alice (now : Int) (h : now = 1700000000 ∨ now = 1700000001) :
    ∃ token, generated sessionAuthorization 900 aliceCodec aliceHmac now alice = .ok token := by
  have hsome : (generated sessionAuthorization 900 aliceCodec aliceHmac now
      alice).toOption.isSome := by
    rcases h with rfl | rfl
    · decide
    · decide
  cases hgen : generated sessionAuthorization 900 aliceCodec aliceHmac now alice with
  | error f =>
      rw [hgen] at hsome
      nomatch hsome
  | ok token => exact ⟨token, rfl⟩

/-- The second login is reported as a failure, although its token is the one that is stored. -/
theorem not_admits_twice : ¬ ∀ p ∈ inputs (next sessionAuthorization 900 aliceCodec aliceHmac)
    init twice, Right sessionAuthorization 900 aliceCodec aliceHmac (fun _ => 0) p.1 p.2 := by
  intro h
  obtain ⟨token, hfirst⟩ := generated_alice 1700000000 (.inl rfl)
  obtain ⟨token', hsecond⟩ := generated_alice 1700000001 (.inr rfl)
  have hnext : next sessionAuthorization 900 aliceCodec aliceHmac init
      (.authorize .new alice 1700000000) =
        some ⟨Function.update init.store alice.payload.aud (some token),
          [.authorised alice.payload.aud token]⟩ := by
    unfold next
    simp only [hfirst, (authorize_ok hfirst).1]
    rfl
  rw [twice, inputs, hnext] at h
  have hmeets := (right_authorize _ _ _ _).mp (h _ (List.mem_cons_of_mem _ List.mem_cons_self))
  simp only [Meets, hsecond, Function.update_self] at hmeets
  obtain ⟨f, hf⟩ | hnone := hmeets
  · cases hf
  · cases hnone

end JwtSession

end Suil.Http
