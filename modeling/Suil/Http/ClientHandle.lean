import Suil.Http.ClientForm

set_option autoImplicit false

/-! # A client handle over several requests

`Session::perform` (`client.cpp`) uses the request of a handle again. `Request::reset` empties it only
when the method or the resource is another one, or the resource is empty, and a header that is there is
not replaced. `framed_iff` says when every request of a run declares the length of what is sent behind
its head. -/

namespace Suil.Http.ClientApi

/-! ## Builders and `perform` -/

/-- What a builder does to a request: `hdr`, `args` with the value that `urlencode` gives, `<<` of a form,
a file and an object, with the text that is put into the body, and `buffer` with such a text. -/
inductive Build where
  | hdr (name val : Bytes)
  | args (name val : Bytes)
  | form (f : Form)
  | file (front : Bytes)
  | json (text : Bytes)
  | buffer (content_type text : Bytes)

namespace Request

/-- The request of a new handle. -/
def fresh : Request where
  method := .Unknown
  resource := none
  arguments := []
  headers := []
  form := ⟨.URL_ENCODED, [], [], [], []⟩
  body := OBuffer.new 1024
  bodyFd := none

/-- `cleanup()`; `Form::clear` leaves the encoding and the boundary. -/
def cleanup (r : Request) : Request :=
  { r with
    arguments := [], form := { r.form with data := [], uploads := [], files := [] }
    body := r.body.clear, headers := [], bodyFd := none }

/-- `String(res).dup()`: an empty text is copied to a null pointer. -/
def dup (res : Bytes) : Option Bytes := if res = [] then none else some res

/-- `reset(m, res, false)`; a null pointer is unlike every text, the empty one included. -/
def reset (r : Request) (m : Method) (res : Bytes) : Request :=
  if m ≠ r.method ∨ r.resource ≠ some res then
    { r.cleanup with resource := dup res, method := m }
  else r

section

variable (hash : Bytes → UInt64)

def build (r : Request) : Build → Option Request
  | .hdr name val => some (r.hdr hash name val)
  | .args name val =>
      some { r with arguments :=
        if r.arguments.any (·.1 = name) then r.arguments else r.arguments ++ [(name, val)] }
  | .form f =>
      some ({ r with form := f }.hdr hash (str "Content-Type")
        (if f.encoding = Encoding.URL_ENCODED then str "application/x-www-form-urlencoded"
        else str "multipart/form-data; boundary=" ++ f.boundary))
  | .file front =>
      some { r with body := if r.body.offset = 0 then r.body else r.body.clear, bodyFd := some front }
  | .json text => do
      let body ← (r.body.append text).toOption
      some ({ r with body := body }.hdr hash (str "Content-Type") (str "application/json"))
  | .buffer content_type text => do
      let body ← (r.body.append text).toOption
      some ({ r with bodyFd := none, body := body }.hdr hash (str "Content-Type") content_type)

end

end Request

/-- One call of `perform`, at some time. -/
structure Call where
  date : Bytes
  method : Method
  resource : Bytes
  builds : List Build

section

variable (hash : Bytes → UInt64) (contents : Bytes → Bytes) (session : List (Bytes × Bytes))

/-- `perform(h, m, resource, builder, rd)` up to the response. -/
def perform (r : Request) (c : Call) : Option Request.Submitted := do
  let r := r.reset c.method c.resource
  let r := session.foldl (fun r h => r.hdr hash h.1 h.2) r
  let r ← c.builds.foldlM (Request.build hash) r
  r.submit hash contents c.date

/-- Calls on one handle, as long as none of them throws or outgrows its buffer. -/
def performs : Request → List Call → Option (List Request.Submitted)
  | _, [] => some []
  | r, c :: cs => do
      let s ← perform hash contents session r c
      let ss ← performs s.request cs
      some (s :: ss)

end

/-! ## Steady runs -/

def CONTENT_LENGTH : Bytes := str "Content-Length"

/-- The request declares the length of what is sent behind its head. -/
def Framed (hash : Bytes → UInt64) (s : Request.Submitted) : Prop :=
  s.request.headers.find hash CONTENT_LENGTH = some (showNat s.sent.length)

/-- A body is sent with these methods only. -/
def HasBody (m : Method) : Prop := m = .Put ∨ m = .Post

instance (m : Method) : Decidable (HasBody m) := inferInstanceAs (Decidable (m = .Put ∨ m = .Post))

/-- A builder of a request without files, which does not set the length itself. -/
def Build.Plain : Build → Prop
  | .hdr name _ => mapCaseEq name CONTENT_LENGTH = false
  | .form f => f.files = [] ∧ f.uploads = []
  | .file _ => False
  | _ => True

/-- The text that a builder puts into the body. -/
def Build.text : Build → Bytes
  | .json text => text
  | .buffer _ text => text
  | _ => []

/-- Whether there is a form to send after a builder. -/
def Build.formed (filled : Bool) : Build → Bool
  | .form f => f.filled
  | _ => filled

/-- How much a builder adds to the body, at once or when its form is encoded. -/
def Build.size : Build → Nat
  | .form f => f.pieces.flatten.length
  | b => b.text.length

def Call.size (c : Call) : Nat := (c.builds.map Build.size).sum

/-- The call is for the method and the resource of the one in front of it, and the request is not
emptied. -/
def Call.again (c : Call) (last : Option (Method × Bytes)) : Bool :=
  decide (last = some (c.method, c.resource) ∧ c.resource ≠ [])

/-- Whether there is a form to send in a call, its own or one that is left. -/
def Call.formed (c : Call) (last : Option (Method × Bytes)) (filled : Bool) : Bool :=
  c.builds.foldl Build.formed (c.again last && filled)

/-- The call adds to the body of a request that is used again. -/
def Call.Adds (c : Call) (last : Option (Method × Bytes)) (filled : Bool) : Prop :=
  c.again last = true ∧ HasBody c.method ∧
    (c.builds.flatMap Build.text ≠ [] ∨ c.formed last filled = true)

/-- No call does so: `last` is the method and the resource of the one in front of it, and `filled` says
if that one has left a form. -/
def Steady : Option (Method × Bytes) → Bool → List Call → Prop
  | _, _, [] => True
  | last, filled, c :: cs =>
      ¬ c.Adds last filled ∧ Steady (some (c.method, c.resource)) (c.formed last filled) cs

/-- What calls for one method and resource, one behind the other, put into the body is small enough for
its buffer: `used` bytes are there. -/
def Roomy : Option (Method × Bytes) → Nat → List Call → Prop
  | _, _, [] => True
  | last, used, c :: cs =>
      let used := (if c.again last then used else 0) + c.size
      used ≤ OBuffer.SAFE ∧ Roomy (some (c.method, c.resource)) used cs

/-! ## One call -/

/-- What `buildbody` puts behind the body. -/
def Request.encoded (r : Request) : Bytes := if r.form.filled then r.form.pieces.flatten else []

section

variable {hash : Bytes → UInt64} {contents : Bytes → Bytes} {session : List (Bytes × Bytes)}

/-- A request without files, with a buffer that can be appended to and a form that is not too large. -/
structure Simple (r : Request) : Prop where
  files : r.form.files = []
  uploads : r.form.uploads = []
  bodyFd : r.bodyFd = none
  body : r.body.Usable
  form : r.encoded.length ≤ OBuffer.SAFE

/-- The header that declares the length. -/
def declared (hash : Bytes → UInt64) (r : Request) : Option Bytes := r.headers.find hash CONTENT_LENGTH

private theorem declared_hdr {r : Request} {name : Bytes} (val : Bytes)
    (h : mapCaseEq name CONTENT_LENGTH = false) : declared hash (r.hdr hash name val) = declared hash r :=
  CaseMap.find_emplace_of_ne val h

private theorem session_hdrs (hash : Bytes → UInt64) {r : Request}
    (h : ∀ e ∈ session, mapCaseEq e.1 CONTENT_LENGTH = false) :
    ∃ hs, session.foldl (fun r e => r.hdr hash e.1 e.2) r = { r with headers := hs } ∧
      CaseMap.find hash hs CONTENT_LENGTH = declared hash r := by
  induction session generalizing r with
  | nil => exact ⟨r.headers, rfl, rfl⟩
  | cons e session ih =>
      obtain ⟨he, hsession⟩ := List.forall_mem_cons.mp h
      obtain ⟨hs, heq, hfind⟩ := ih (r := r.hdr hash e.1 e.2) hsession
      exact ⟨hs, heq, hfind.trans (declared_hdr e.2 he)⟩

/-- What builders leave that put a text of this length, and forms, into the body. -/
structure Built (hash : Bytes → UInt64) (r r' : Request) (text : Bytes) (filled : Bool) (size : Nat) :
    Prop where
  method : r'.method = r.method
  resource : r'.resource = r.resource
  simple : Simple r'
  body : r'.body.offset = r.body.offset + text.length
  filled : r'.form.filled = filled
  declared : declared hash r' = declared hash r
  text : text.length ≤ size
  size : r'.body.offset + r'.encoded.length ≤ r.body.offset + r.encoded.length + size

/-- A text is appended when there is room. -/
private theorem append_text {b : OBuffer} (hb : b.Usable) (text : Bytes)
    (hroom : b.offset + text.length ≤ OBuffer.SAFE) : ∃ b', b.append text = .ok b' ∧ b'.Usable ∧
      b'.offset = b.offset + text.length := by
  obtain ⟨b', happend, hshaped, hcontents, hbounded⟩ :=
    OBuffer.append_of_fits hb.shaped hb.bounded (OBuffer.fits_of_safe hroom)
  have hlength := congrArg List.length hcontents
  rw [OBuffer.contents_length hshaped hbounded, List.length_append, hb.length_contents] at hlength
  exact ⟨b', happend, ⟨hshaped, hbounded⟩, hlength⟩

private theorem length_encoded_le (r : Request) : r.encoded.length ≤ r.form.pieces.flatten.length := by
  rw [Request.encoded]
  split_ifs
  · exact Nat.le_refl _
  · exact Nat.zero_le _

private theorem build_built (hash : Bytes → UInt64) {r : Request} (hr : Simple r) {b : Build}
    (hb : b.Plain) (hroom : r.body.offset + b.size ≤ OBuffer.SAFE) :
    ∃ r', r.build hash b = some r' ∧ Built hash r r' b.text (b.formed r.form.filled) b.size := by
  have htype : mapCaseEq (str "Content-Type") CONTENT_LENGTH = false := by decide
  cases b with
  -- a header and an argument leave the body and the form as they are
  | hdr name val =>
      exact ⟨_, rfl, rfl, rfl, ⟨hr.files, hr.uploads, hr.bodyFd, hr.body, hr.form⟩, rfl, rfl,
        declared_hdr val hb, Nat.le_refl _, Nat.le_refl _⟩
  | args name val =>
      exact ⟨_, rfl, rfl, rfl, ⟨hr.files, hr.uploads, hr.bodyFd, hr.body, hr.form⟩, rfl, rfl, rfl,
        Nat.le_refl _, Nat.le_refl _⟩
  | form f =>
      have hle : (Request.encoded { r with form := f }).length ≤ f.pieces.flatten.length :=
        length_encoded_le _
      refine ⟨_, rfl, rfl, rfl, ⟨hb.1, hb.2, hr.bodyFd, hr.body, ?_⟩, rfl, rfl, declared_hdr _ htype,
        Nat.zero_le _, ?_⟩
      · exact Nat.le_trans hle (Nat.le_trans (Nat.le_add_left _ _) hroom)
      · exact Nat.add_le_add_left (Nat.le_trans hle (Nat.le_add_left _ _)) _ |>.trans
          (Nat.le_of_eq (Nat.add_assoc _ _ _).symm)
  | file front => exact hb.elim
  -- a text goes to the body, what there is of a form stays
  | json text =>
      obtain ⟨body, happend, husable, hoffset⟩ := append_text hr.body text hroom
      refine ⟨{ r with body := body }.hdr hash (str "Content-Type") (str "application/json"), ?_, rfl,
        rfl, ⟨hr.files, hr.uploads, hr.bodyFd, husable, hr.form⟩, hoffset, rfl, declared_hdr _ htype,
        Nat.le_refl _, ?_⟩
      · rw [Request.build, happend]
        rfl
      · show body.offset + r.encoded.length ≤ r.body.offset + r.encoded.length + text.length
        omega
  | buffer ct text =>
      obtain ⟨body, happend, husable, hoffset⟩ := append_text hr.body text hroom
      refine ⟨{ r with bodyFd := none, body := body }.hdr hash (str "Content-Type") ct, ?_, rfl, rfl,
        ⟨hr.files, hr.uploads, rfl, husable, hr.form⟩, hoffset, rfl, declared_hdr _ htype,
        Nat.le_refl _, ?_⟩
      · rw [Request.build, happend]
        rfl
      · show body.offset + r.encoded.length ≤ r.body.offset + r.encoded.length + text.length
        omega

private theorem builds_built (hash : Bytes → UInt64) {bs : List Build} {r : Request} (hr : Simple r)
    (hbs : ∀ b ∈ bs, b.Plain) (hroom : r.body.offset + (bs.map Build.size).sum ≤ OBuffer.SAFE) :
    ∃ r', bs.foldlM (Request.build hash) r = some r' ∧ Built hash r r' (bs.flatMap Build.text)
      (bs.foldl Build.formed r.form.filled) (bs.map Build.size).sum := by
  -- on the builders: what the first one adds is room that the others do not have
  induction bs generalizing r with
  | nil => exact ⟨r, rfl, rfl, rfl, hr, rfl, rfl, rfl, Nat.le_refl _, Nat.le_refl _⟩
  | cons b bs ih =>
      obtain ⟨hb, hbs⟩ := List.forall_mem_cons.mp hbs
      rw [List.map_cons, List.sum_cons] at hroom ⊢
      obtain ⟨r₁, hr₁, hfirst⟩ := build_built hash hr hb (by omega)
      have hbody := hfirst.body
      have htext := hfirst.text
      obtain ⟨r₂, hr₂, hrest⟩ := ih hfirst.simple hbs (by omega)
      refine ⟨r₂, ?_, hrest.method.trans hfirst.method, hrest.resource.trans hfirst.resource,
        hrest.simple, ?_, ?_, hrest.declared.trans hfirst.declared, ?_, ?_⟩
      · rw [List.foldlM_cons, hr₁]
        exact hr₂
      · rw [hrest.body, hbody, List.flatMap_cons, List.length_append, Nat.add_assoc]
      · rw [hrest.filled, hfirst.filled, List.foldl_cons]
      · rw [List.flatMap_cons, List.length_append]
        exact Nat.add_le_add htext hrest.text
      · have hsize := hfirst.size
        have hsize' := hrest.size
        omega

/-- There is something to send of a form with fields. -/
private theorem encoded_eq_nil_iff {r : Request} (hr : Simple r) :
    r.encoded = [] ↔ r.form.filled = false := by
  rw [Request.encoded]
  cases hfilled : r.form.filled with
  | false => exact iff_of_true (if_neg Bool.false_ne_true) rfl
  | true =>
      rw [if_pos rfl]
      refine iff_of_false (fun hnil => ?_) nofun
      -- an empty form is not filled, and each field has at least its separators
      rw [Form.pieces, hr.files, if_pos rfl] at hnil
      have hlength := congrArg List.length hnil
      split_ifs at hlength with hencoding
      · cases hdata : r.form.data with
        | nil =>
            rw [Form.filled, hdata, hr.files] at hfilled
            exact absurd hfilled (by decide)
        | cons p ps =>
            rw [hdata] at hlength
            simp [Form.urlPieces, str] at hlength
      · simp [str] at hlength

/-- A request with a method that has a body: the form, if there is one, is put behind the body, and all
of it counts. The buffer may be too small for it only where little is left up to `SAFE`. -/
private theorem buildbody_of {r : Request} (hr : Simple r) (hbody : HasBody r.method) :
    (∃ b, r.buildbody = .ok (b.offset, { r with body := b }) ∧ b.Usable ∧
        b.contents = r.body.contents ++ r.encoded) ∨
      (∃ e, r.buildbody = .error e) ∧ r.form.filled = true ∧
        OBuffer.SAFE < r.body.offset + r.encoded.length := by
  rw [Request.buildbody, if_pos (show r.method = .Put ∨ r.method = .Post from hbody)]
  cases hfilled : r.form.filled with
  | false =>
      refine .inl ⟨r.body, rfl, hr.body, ?_⟩
      rw [(encoded_eq_nil_iff hr).mpr hfilled, List.append_nil]
  | true =>
      have hencoded : r.encoded = r.form.pieces.flatten := if_pos hfilled
      have hform := hr.form
      rw [hencoded] at hform ⊢
      have hdata : ¬ (r.form.data = [] ∧ r.form.files = []) := by
        rintro ⟨hdata, hfiles⟩
        rw [Form.filled, hdata, hfiles] at hfilled
        exact absurd hfilled (by decide)
      have hencode : r.form.encode r.body =
          r.form.pieces.foldlM OBuffer.append r.body >>= fun b => .ok (b.offset, b, r.form) := by
        rw [Form.encode, if_neg hdata]
        exact bind_congr fun b => if_pos (.inr hr.files)
      rw [if_pos rfl, hencode]
      -- the pieces go behind the body; only they can fill the buffer
      cases hrun : r.form.pieces.foldlM OBuffer.append r.body with
      | ok b =>
          have hshort : ∀ piece ∈ r.form.pieces, piece.length + 8 < OBuffer.UINT32 := by
            intro piece hpiece
            have hle := (List.sublist_flatten_of_mem hpiece).length_le
            unfold OBuffer.SAFE at hform
            unfold OBuffer.UINT32
            omega
          obtain ⟨husable, hcontents⟩ := OBuffer.appends_of_ok hr.body hshort hrun
          exact .inl ⟨b, rfl, husable, hcontents⟩
      | error e =>
          refine .inr ⟨⟨e, rfl⟩, rfl, Nat.lt_of_not_le fun hsafe => ?_⟩
          obtain ⟨b, hok, -⟩ := OBuffer.appends_of_safe hr.body hsafe
          rw [hok] at hrun
          cases hrun

/-- The length is declared when it has not been before. -/
private theorem declared_submit (r : Request) (n : Nat) (date : Bytes) :
    CaseMap.find hash ((r.headers.emplace hash (str "Content-Length") (showNat n)).emplace hash
      (str "Date") date) CONTENT_LENGTH = some ((declared hash r).getD (showNat n)) := by
  rw [CaseMap.find_emplace_of_ne date (by decide)]
  -- emplace keeps the value that is there
  cases hfind : declared hash r with
  | none => exact CaseMap.find_emplace_of_none (showNat n) hfind
  | some val =>
      have hsome : (CaseMap.find hash r.headers (str "Content-Length")).isSome = true := by
        rw [show CaseMap.find hash r.headers (str "Content-Length") = some val from hfind]
        rfl
      rw [CaseMap.emplace, if_pos hsome]
      exact hfind

/-- The body is sent when all of it is counted. -/
private theorem sendBody_of {r : Request} (hr : Simple r) :
    r.sendBody contents r.body.offset = some r.body.contents := by
  rw [Request.sendBody]
  by_cases hzero : r.body.offset = 0
  · rw [if_pos hzero, List.eq_nil_of_length_eq_zero (hr.body.length_contents.trans hzero)]
  · rw [if_neg hzero]
    simp [hr.bodyFd, hr.uploads]

/-- What is left of a request that is built to send so much. -/
private theorem submit_of (hash : Bytes → UInt64) (contents : Bytes → Bytes) {r : Request}
    (hr : Simple r) {b : OBuffer} (hb : b.Usable) (sent date : Bytes)
    (hbuild : r.buildbody = .ok (sent.length, { r with body := b }))
    (hsend : ∀ hs, Request.sendBody contents { r with body := b, headers := hs } sent.length =
      some sent) :
    ∃ s, r.submit hash contents date = some s ∧ Simple s.request ∧
      (s.request.method = r.method ∧ s.request.resource = r.resource ∧
        s.request.form.filled = r.form.filled) ∧ s.request.body = b ∧ s.sent = sent ∧
      declared hash s.request = some ((declared hash r).getD (showNat sent.length)) := by
  rw [Request.submit, hbuild]
  simp only [Except.toOption, bind, Option.bind, Request.hdr, hsend]
  exact ⟨_, rfl, ⟨hr.files, hr.uploads, hr.bodyFd, hb, hr.form⟩, ⟨rfl, rfl, rfl⟩, rfl, rfl,
    declared_submit r sent.length date⟩

/-- What `submit` leaves of a request, and how much it sends. -/
private theorem submit_spec (hash : Bytes → UInt64) (contents : Bytes → Bytes) {r : Request}
    (hr : Simple r) (date : Bytes) :
    (∃ s, r.submit hash contents date = some s ∧ Simple s.request ∧
      (s.request.method = r.method ∧ s.request.resource = r.resource ∧
        s.request.form.filled = r.form.filled) ∧
      s.request.body.offset = r.body.offset + (if HasBody r.method then r.encoded.length else 0) ∧
      s.sent.length = (if HasBody r.method then s.request.body.offset else 0) ∧
      declared hash s.request = some ((declared hash r).getD (showNat s.sent.length))) ∨
    r.submit hash contents date = none ∧ HasBody r.method ∧ r.form.filled = true ∧
      OBuffer.SAFE < r.body.offset + r.encoded.length := by
  by_cases hbody : HasBody r.method
  · rcases buildbody_of hr hbody with ⟨b, hbuild, hb, hcontents⟩ | ⟨⟨e, hbuild⟩, hover⟩
    -- all of the buffer is counted, the old body and the form
    · have hlength := hb.length_contents
      have hbehind := congrArg List.length hcontents
      rw [hlength, List.length_append, hr.body.length_contents] at hbehind
      obtain ⟨s, hs, hsimple, hkept, hsame, hsent, hdeclared⟩ := submit_of hash contents hr hb
        b.contents date (by rw [hlength]; exact hbuild) fun hs => by
          rw [hlength]
          exact sendBody_of (r := { r with body := b, headers := hs })
            ⟨hr.files, hr.uploads, hr.bodyFd, hb, hr.form⟩
      refine .inl ⟨s, hs, hsimple, hkept, ?_, ?_, hsent ▸ hdeclared⟩
      · rw [hsame, hbehind, if_pos hbody]
      · rw [hsent, hsame, hlength, if_pos hbody]
    · refine .inr ⟨?_, hbody, hover⟩
      rw [Request.submit, hbuild]
      rfl
  -- other methods have no body to build
  · have hbuild : r.buildbody = .ok (([] : Bytes).length, { r with body := r.body }) := by
      rw [Request.buildbody, if_neg (show ¬ (r.method = .Put ∨ r.method = .Post) from hbody)]
      rfl
    obtain ⟨s, hs, hsimple, hkept, hsame, hsent, hdeclared⟩ := submit_of hash contents hr hr.body
      [] date hbuild fun hs => if_pos rfl
    refine .inl ⟨s, hs, hsimple, hkept, ?_, ?_, hsent ▸ hdeclared⟩
    · rw [hsame, if_neg hbody]
      rfl
    · rw [hsent, if_neg hbody]
      rfl

/-! ## A run -/

/-- The state of a handle behind a call that was framed, or of a new one; `used` bytes at most are in
the body. -/
structure Ready (hash : Bytes → UInt64) (last : Option (Method × Bytes)) (filled : Bool) (used : Nat)
    (r : Request) : Prop where
  simple : Simple r
  form : r.form.filled = filled
  room : r.body.offset ≤ used
  used : ∀ p, last = some p → r.method = p.1 ∧ r.resource = Request.dup p.2 ∧
    declared hash r = some (showNat (if HasBody r.method then r.body.offset else 0))
  unused : last = none → r.resource = none

/-- What `reset` leaves: the request as it is when it is used again, else an empty one. -/
private theorem reset_spec {last : Option (Method × Bytes)} {filled : Bool} {used : Nat} {r : Request}
    (hr : Ready hash last filled used r) (c : Call) :
    Simple (r.reset c.method c.resource) ∧ (r.reset c.method c.resource).method = c.method ∧
      (r.reset c.method c.resource).resource = Request.dup c.resource ∧
      if c.again last = true then r.reset c.method c.resource = r
      else (r.reset c.method c.resource).body.offset = 0 ∧
        declared hash (r.reset c.method c.resource) = none ∧
        (r.reset c.method c.resource).form.filled = false := by
  -- the test of the source is on the copy of the resource, and a copy of nothing is null
  by_cases hchanged : c.method ≠ r.method ∨ r.resource ≠ some c.resource
  · have hnot : c.again last = false := by
      rw [Call.again, decide_eq_false_iff_not]
      rintro ⟨hlast, hne⟩
      obtain ⟨hm, hres, -⟩ := hr.used _ hlast
      rw [Request.dup, if_neg hne] at hres
      exact hchanged.elim (fun h => h hm.symm) fun h => h hres
    rw [Request.reset, if_pos hchanged, if_neg (Bool.eq_false_iff.mp hnot)]
    exact ⟨⟨rfl, rfl, rfl, ⟨OBuffer.shaped_null, Nat.le_refl _⟩, Nat.zero_le _⟩, rfl, rfl, rfl, rfl, rfl⟩
  · rw [Request.reset, if_neg hchanged]
    obtain ⟨hm, hres⟩ := not_or.mp hchanged
    rw [not_not] at hm hres
    cases last with
    | none =>
        rw [hr.unused rfl] at hres
        nomatch hres
    | some p =>
        obtain ⟨hm', hres', -⟩ := hr.used p rfl
        have hcopy := hres'.symm.trans hres
        have hne : p.2 ≠ [] := fun hnil => by
          rw [Request.dup, if_pos hnil] at hcopy
          nomatch hcopy
        rw [Request.dup, if_neg hne, Option.some.injEq] at hcopy
        have hagain : c.again (some p) = true := by
          rw [Call.again, decide_eq_true_eq]
          exact ⟨by rw [hm, hm', ← hcopy], hcopy ▸ hne⟩
        rw [if_pos hagain]
        exact ⟨hr.simple, hm.symm, by rw [hres', hcopy], rfl⟩

private theorem showNat_inj {n k : Nat} (h : showNat n = showNat k) : n = k := by
  rw [← ofDigits_showNat n, h, ofDigits_showNat]

/-- What a call for a handle that is ready builds, in front of its submission. -/
structure Prepared (hash : Bytes → UInt64) (last : Option (Method × Bytes)) (filled : Bool) (used : Nat)
    (r : Request) (c : Call) (built : Request) : Prop where
  simple : Simple built
  method : built.method = c.method
  resource : built.resource = Request.dup c.resource
  filled : built.form.filled = c.formed last filled
  text : (c.builds.flatMap Build.text).length ≤ c.size
  again : c.again last = true →
    built.body.offset = r.body.offset + (c.builds.flatMap Build.text).length ∧ r.body.offset ≤ used ∧
      declared hash built = some (showNat (if HasBody c.method then r.body.offset else 0))
  fresh : c.again last = false →
    declared hash built = none ∧ built.body.offset + built.encoded.length ≤ c.size

/-- What is built for a call. -/
private theorem perform_built (hash : Bytes → UInt64) (contents : Bytes → Bytes)
    (hsession : ∀ e ∈ session, mapCaseEq e.1 CONTENT_LENGTH = false) {r : Request} {c : Call}
    (hreset : Simple (r.reset c.method c.resource)) (hc : ∀ b ∈ c.builds, b.Plain)
    (hroom : (r.reset c.method c.resource).body.offset + c.size ≤ OBuffer.SAFE) :
    ∃ built, perform hash contents session r c = Request.submit hash contents c.date built ∧
      Built hash (r.reset c.method c.resource) built (c.builds.flatMap Build.text)
        (c.builds.foldl Build.formed (r.reset c.method c.resource).form.filled) c.size := by
  obtain ⟨hs, hset, hfind⟩ := session_hdrs hash (r := r.reset c.method c.resource) hsession
  obtain ⟨built, hrun, hbuilt⟩ := builds_built hash
    (r := { r.reset c.method c.resource with headers := hs })
    ⟨hreset.files, hreset.uploads, hreset.bodyFd, hreset.body, hreset.form⟩ hc hroom
  refine ⟨built, ?_, { hbuilt with declared := hbuilt.declared.trans hfind }⟩
  rw [perform]
  simp only [hset, hrun, bind, Option.bind]

private theorem perform_prepared (contents : Bytes → Bytes)
    (hsession : ∀ e ∈ session, mapCaseEq e.1 CONTENT_LENGTH = false)
    {last : Option (Method × Bytes)} {filled : Bool} {used : Nat} {r : Request}
    (hr : Ready hash last filled used r) {c : Call} (hc : ∀ b ∈ c.builds, b.Plain)
    (hroom : (if c.again last then used else 0) + c.size ≤ OBuffer.SAFE) :
    ∃ built, perform hash contents session r c = Request.submit hash contents c.date built ∧
      Prepared hash last filled used r c built := by
  obtain ⟨hsimple, hmethod, hresource, hreset⟩ := reset_spec hr c
  -- what the reset leaves, whether the request is used again or not
  have hstart : (r.reset c.method c.resource).body.offset ≤ if c.again last then used else 0 := by
    split_ifs at hreset ⊢ with hagain
    · rw [hreset]
      exact hr.room
    · exact Nat.le_of_eq hreset.1
  have hleft : (r.reset c.method c.resource).form.filled = (c.again last && filled) := by
    split_ifs at hreset with hagain
    · rw [hreset, hr.form, hagain, Bool.true_and]
    · rw [hreset.2.2, Bool.eq_false_iff.mpr hagain, Bool.false_and]
  obtain ⟨built, hperform, hbuilt⟩ := perform_built hash contents hsession hsimple hc
    (Nat.le_trans (Nat.add_le_add_right hstart _) hroom)
  refine ⟨built, hperform, hbuilt.simple, hbuilt.method.trans hmethod, hbuilt.resource.trans hresource,
    hbuilt.filled.trans (congrArg (c.builds.foldl Build.formed) hleft), hbuilt.text, ?_, ?_⟩
  · intro hagain
    rw [if_pos hagain] at hreset
    obtain ⟨hrm, -, hrd⟩ := hr.used _ (of_decide_eq_true hagain).1
    refine ⟨by rw [hbuilt.body, hreset], hr.room, ?_⟩
    rw [hbuilt.declared, hreset, hrd, hrm]
  · intro hnot
    rw [if_neg (Bool.eq_false_iff.mp hnot)] at hreset
    obtain ⟨hoffset, hdeclared, hform⟩ := hreset
    have hsize := hbuilt.size
    rw [hoffset, (encoded_eq_nil_iff hsimple).mpr hform, List.length_nil, Nat.zero_add] at hsize
    exact ⟨hbuilt.declared.trans hdeclared, hsize⟩

namespace Prepared

variable {last : Option (Method × Bytes)} {filled : Bool} {used : Nat} {r : Request} {c : Call}
  {built : Request}

private theorem encoded_eq_nil (h : Prepared hash last filled used r c built) :
    built.encoded = [] ↔ c.formed last filled = false := by
  rw [← h.filled]
  exact encoded_eq_nil_iff h.simple

/-- In a request that is used again a call adds to the body when the body gets longer. -/
private theorem adds_iff (h : Prepared hash last filled used r c built) (hagain : c.again last = true)
    (hbody : HasBody c.method) :
    c.Adds last filled ↔ r.body.offset ≠ built.body.offset + built.encoded.length := by
  rw [Call.Adds, (h.again hagain).1]
  constructor
  · rintro ⟨-, -, htext | hform⟩ heq
    · exact htext (List.eq_nil_of_length_eq_zero (by omega))
    · have hnil := h.encoded_eq_nil.mp (List.eq_nil_of_length_eq_zero (by omega))
      rw [hform] at hnil
      nomatch hnil
  · intro hne
    by_contra hadds
    obtain ⟨htext, hform⟩ := not_or.mp fun hor => hadds ⟨hagain, hbody, hor⟩
    rw [h.encoded_eq_nil.mpr (Bool.eq_false_iff.mpr hform), not_not.mp htext] at hne
    exact hne rfl

/-- The length that is declared, an old one when the request is used again, is the one of what is sent
when the call does not add to the body. -/
private theorem declared_iff (h : Prepared hash last filled used r c built) {n : Nat}
    (hn : n = if HasBody c.method then built.body.offset + built.encoded.length else 0) :
    (Http.ClientApi.declared hash built).getD (showNat n) = showNat n ↔ ¬ c.Adds last filled := by
  cases hagain : c.again last with
  | false =>
      rw [(h.fresh hagain).1, Option.getD_none]
      exact iff_of_true rfl fun hadds => Bool.eq_false_iff.mp hagain hadds.1
  | true =>
      rw [(h.again hagain).2.2, Option.getD_some, hn]
      by_cases hbody : HasBody c.method
      · rw [if_pos hbody, if_pos hbody, h.adds_iff hagain hbody, not_not]
        exact ⟨showNat_inj, congrArg showNat⟩
      · rw [if_neg hbody, if_neg hbody]
        exact iff_of_true rfl fun hadds => hbody hadds.2.1

private theorem offset_le (h : Prepared hash last filled used r c built) (hnot : ¬ c.Adds last filled) :
    built.body.offset + (if HasBody c.method then built.encoded.length else 0) ≤
      (if c.again last then used else 0) + c.size := by
  have htext := h.text
  cases hagain : c.again last with
  | false =>
      have hle := (h.fresh hagain).2
      rw [if_neg Bool.false_ne_true]
      split_ifs <;> omega
  | true =>
      obtain ⟨hoffset, hle, -⟩ := h.again hagain
      rw [if_pos rfl]
      by_cases hbody : HasBody c.method
      · have hsame := mt (h.adds_iff hagain hbody).mpr hnot
        rw [if_pos hbody]
        omega
      · rw [if_neg hbody]
        omega

end Prepared

/-- A call is framed unless it adds to the body of a request that is used again. -/
private theorem perform_spec (contents : Bytes → Bytes)
    (hsession : ∀ e ∈ session, mapCaseEq e.1 CONTENT_LENGTH = false)
    {last : Option (Method × Bytes)} {filled : Bool} {used : Nat} {r : Request}
    (hr : Ready hash last filled used r) {c : Call} (hc : ∀ b ∈ c.builds, b.Plain)
    (hroom : (if c.again last then used else 0) + c.size ≤ OBuffer.SAFE) :
    (perform hash contents session r c = none ∧ c.Adds last filled) ∨
    ∃ s, perform hash contents session r c = some s ∧ (Framed hash s ↔ ¬ c.Adds last filled) ∧
      (Framed hash s → Ready hash (some (c.method, c.resource)) (c.formed last filled)
        ((if c.again last then used else 0) + c.size) s.request) := by
  obtain ⟨built, hperform, h⟩ := perform_prepared contents hsession hr hc hroom
  rcases submit_spec hash contents h.simple c.date with
    ⟨s, hsubmit, hclean, ⟨hm, hres, hfilled⟩, hbody, hlen, hdeclared⟩ | ⟨hnone, hhas, hfull, hover⟩
  · rw [h.method] at hbody hlen
    have hsent : s.sent.length =
        if HasBody c.method then built.body.offset + built.encoded.length else 0 := by
      rw [hlen]
      split_ifs with hhas
      · rw [hbody, if_pos hhas]
      · rfl
    have hiff : Framed hash s ↔ ¬ c.Adds last filled := by
      rw [Framed, show s.request.headers.find hash CONTENT_LENGTH = declared hash s.request from rfl,
        hdeclared, Option.some.injEq]
      exact h.declared_iff hsent
    refine .inr ⟨s, hperform.trans hsubmit, hiff, fun hf => ⟨hclean, hfilled.trans h.filled, ?_, ?_, nofun⟩⟩
    · rw [hbody]
      exact h.offset_le (hiff.mp hf)
    · intro p hp
      cases hp
      refine ⟨hm.trans h.method, hres.trans h.resource, ?_⟩
      rw [hm, h.method, ← hlen]
      exact hf
  · refine .inl ⟨hperform.trans hnone, ?_⟩
    rw [h.method] at hhas
    rw [h.filled] at hfull
    cases hagain : c.again last with
    | false =>
        -- a new request has room for its own form
        have hle := (h.fresh hagain).2
        rw [hagain, if_neg Bool.false_ne_true, Nat.zero_add] at hroom
        omega
    | true => exact ⟨hagain, hhas, .inr hfull⟩

/-- The calls of a run are all framed exactly when it is steady. -/
private theorem performs_spec (hsession : ∀ e ∈ session, mapCaseEq e.1 CONTENT_LENGTH = false)
    {last : Option (Method × Bytes)} {filled : Bool} {used : Nat} {r : Request}
    (hr : Ready hash last filled used r) {calls : List Call}
    (hcalls : ∀ c ∈ calls, ∀ b ∈ c.builds, b.Plain) (hroom : Roomy last used calls) :
    (∃ ss, performs hash contents session r calls = some ss ∧ ∀ s ∈ ss, Framed hash s) ↔
      Steady last filled calls := by
  -- on the calls: `Ready` is what one hands on to the next, and only a framed one does
  induction calls generalizing last filled used r with
  | nil => exact iff_of_true ⟨[], rfl, nofun⟩ trivial
  | cons c cs ih =>
      obtain ⟨hc, hcs⟩ := List.forall_mem_cons.mp hcalls
      obtain ⟨hfits, hrest⟩ := hroom
      rw [Steady, performs]
      rcases perform_spec contents hsession hr hc hfits with ⟨hnone, hadds⟩ | ⟨s, hs, hiff, hready⟩
      · rw [hnone]
        exact iff_of_false (fun ⟨_, h, _⟩ => nomatch h) fun h => h.1 hadds
      · rw [hs]
        constructor
        · rintro ⟨ss, hss, hframed⟩
          cases htail : performs hash contents session s.request cs with
          | none =>
              simp only [bind, Option.bind, htail] at hss
              nomatch hss
          | some rest =>
              simp only [bind, Option.bind, htail] at hss
              cases hss
              obtain ⟨hf, hall⟩ := List.forall_mem_cons.mp hframed
              exact ⟨hiff.mp hf, (ih (hready hf) hcs hrest).mp ⟨rest, htail, hall⟩⟩
        · rintro ⟨hnot, hsteady⟩
          have hf := hiff.mpr hnot
          obtain ⟨rest, htail, hall⟩ := (ih (hready hf) hcs hrest).mpr hsteady
          refine ⟨s :: rest, ?_, List.forall_mem_cons.mpr ⟨hf, hall⟩⟩
          simp only [bind, Option.bind, htail]

/-- **Without files, and with bodies that their buffer has room for, a run on a handle gets through with
every request declaring the length of what it sends exactly when no call for the method and the
resource, not the empty one, of the call in front of it adds to the body, by its text or by a form that
it has or that is left.** -/
theorem framed_iff (hash : Bytes → UInt64) (contents : Bytes → Bytes) (session : List (Bytes × Bytes))
    (hsession : ∀ e ∈ session, mapCaseEq e.1 CONTENT_LENGTH = false) (calls : List Call)
    (hcalls : ∀ c ∈ calls, ∀ b ∈ c.builds, b.Plain) (hroom : Roomy none 0 calls) :
    (∃ ss, performs hash contents session Request.fresh calls = some ss ∧
      ∀ s ∈ ss, Framed hash s) ↔ Steady none false calls := by
  have hnew := OBuffer.new_shaped 1024
  have hfresh : Ready hash none false 0 Request.fresh :=
    ⟨⟨rfl, rfl, rfl, ⟨hnew.1, hnew.2⟩, Nat.zero_le _⟩, rfl, Nat.le_refl 0, nofun, fun _ => rfl⟩
  exact performs_spec hsession hfresh hcalls hroom

/-- Two texts are sent to one resource. -/
theorem framed_twice : (∃ ss, performs (fun _ => 0) (fun _ => []) [(str "Host", str "localhost")]
    Request.fresh [⟨str "now", .Post, str "/a", [.json (str "1")]⟩,
      ⟨str "then", .Post, str "/a", [.json (str "2")]⟩] = some ss ∧
      ∀ s ∈ ss, Framed (fun _ => 0) s) ↔ Steady none false
        [⟨str "now", .Post, str "/a", [.json (str "1")]⟩,
          ⟨str "then", .Post, str "/a", [.json (str "2")]⟩] :=
  framed_iff (fun _ => 0) (fun _ => []) [(str "Host", str "localhost")]
    (List.forall_mem_cons.mpr ⟨by decide, nofun⟩) _
    (List.forall_mem_cons.mpr ⟨List.forall_mem_cons.mpr ⟨trivial, nofun⟩,
      List.forall_mem_cons.mpr ⟨List.forall_mem_cons.mpr ⟨trivial, nofun⟩, nofun⟩⟩)
    ⟨by decide, by decide, trivial⟩

end

end Suil.Http.ClientApi
