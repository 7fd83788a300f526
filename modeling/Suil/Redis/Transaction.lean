import Suil.Lib.StepMachine
import Suil.Redis.Reply

set_option autoImplicit false

/-! # Transactions of Redis

`Transaction` (`redis.h`, `redis.cpp`) sends the commands of a MULTI block and remembers in a flag
whether the block is open. A reply is read by `recvresp`, which may throw. The server is a parameter;
`Documented` is what is known of it. `tracks_of_meets` says for which runs the flag is what the server
knows, calls return whether their command was queued, and no block is left open. -/

namespace Suil.Redis

open StepMachine (inputs)
open Tcp (Arrival Conn)

/-- `Response`: the type and the text of each entry, unless its memory has been given back. -/
abbrev Response := List (UInt8 × Option Bytes)

/-- `Response::operator bool`; a single entry is an error or empty when it is not `true`. -/
def Response.toBool : Response → Bool
  | [] => false
  | [r] => r.1 ≠ DASH && r.2 ≠ some []
  | _ :: _ :: _ => true

/-- `Response::status`; there is none when it reads a text that is not there. -/
def Response.status (expect : Bytes) : Response → Option Bool
  | [] => some false
  | r :: _ => if r.1 = PLUS then r.2.map fun data => decide (data = expect) else some false

/-! ## The server -/

/-- A server, as a connection meets it: whether there is a MULTI block, what a request does and the
reply to it. Without a reply the connection is lost. A request that is not sent as a whole leaves the
server `unreached`. -/
structure Service (σ : Type) where
  multi : σ → Bool
  receive : σ → List Bytes → σ × Option Resp.Value
  unreached : σ → σ

/-- The command of a request, in any case of its letters. -/
def Names (name : String) (request : List Bytes) : Prop :=
  (request.headD []).map toLower = str name

instance (name : String) (request : List Bytes) : Decidable (Names name request) :=
  inferInstanceAs (Decidable (_ = _))

def IsError : Resp.Value → Prop
  | .error _ => True
  | _ => False

theorem IsError.exists_eq {v : Resp.Value} (h : IsError v) : ∃ message, v = .error message := by
  cases v with
  | error message => exact ⟨message, rfl⟩
  | simple | integer | bulk | null | array | nullArray => exact h.elim

instance : DecidablePred IsError
  | .error _ => isTrue trivial
  | .simple _ | .integer _ | .bulk _ | .null | .array _ | .nullArray => isFalse id

/-- What the documentation of Redis says of a block: it does not outlive its connection, a MULTI that is
no error opens it, EXEC ends it, also when it is aborted, and a DISCARD that is no error does; any
other command that is refused leaves it as it is. -/
structure Service.Documented {σ : Type} (R : Service σ) : Prop where
  lost : ∀ s request, (R.receive s request).2 = none → R.multi (R.receive s request).1 = false
  opened : ∀ s request v, Names "multi" request → (R.receive s request).2 = some v → ¬ IsError v →
    R.multi (R.receive s request).1 = true
  ended : ∀ s request, Names "exec" request → R.multi (R.receive s request).1 = false
  discarded : ∀ s request v, Names "discard" request → (R.receive s request).2 = some v →
    ¬ IsError v → R.multi (R.receive s request).1 = false
  refused : ∀ s request v, ¬ Names "exec" request → (R.receive s request).2 = some v → IsError v →
    R.multi (R.receive s request).1 = R.multi s

/-! ## The client -/

/-- A way in which bytes arrive: in pieces, with pauses between them. -/
structure Delivery where
  arrivals : Bytes → List Arrival
  all_eq : ∀ bs, Arrival.all (arrivals bs) = bs

/-- The connection, and the server at its other end. -/
structure Client (σ : Type) where
  conn : Conn
  server : σ

/-- A call of the transaction; the last one is its destructor. -/
inductive Op where
  | multi
  | exec
  | discard
  | call (cmd : Bytes) (params : List Bytes)
  | destroy

/-- A call, and what happens when it sends a request: whether `send` takes it and `flush`, whose result
is not looked at, sends it; how its reply arrives, and what is left of that on the connection when it is
not read as a whole. -/
structure Turn where
  op : Op
  sent : Bool
  flushed : Bool
  delivery : Delivery
  left : Conn
  errno_s : Bytes

/-- What a call comes to: it returns, it throws, or it leaves the memory or does not return. -/
inductive Outcome where
  | returned (b : Bool)
  | threw
  | undefined
  deriving DecidableEq, Repr

/-- A reply that is not read, and for which `recvresp` does not return. -/
def Halt.outcome : Halt → Outcome
  | .invalid | .stopped (.thrown _) => .threw
  | _ => .undefined

/-- `recvresp` returns. -/
def Returns : Except Halt Rx → Prop
  | .ok _ | .error .refused => True
  | .error _ => False

instance : DecidablePred Returns
  | .ok _ | .error .refused => isTrue trivial
  | .error .invalid | .error .overflow | .error (.stopped _) | .error .endless => isFalse id

/-- It throws. -/
def Throws : Except Halt Rx → Prop
  | .ok _ => False
  | .error e => e.outcome = .threw

instance : DecidablePred Throws
  | .ok _ => isFalse id
  | .error _ => inferInstanceAs (Decidable (_ = _))

section

variable {σ : Type} (deadline : Bool) (R : Service σ) (u : Turn)

/-- The server behind a request, and its reply. -/
def served (request : List Bytes) (c : Client σ) : σ × Option Resp.Value :=
  if u.flushed then R.receive c.server request else (R.unreached c.server, none)

/-- `recvresp` for the reply to a request, with the buffer of a new `Response`. Nothing comes behind a
reply: a call that waits for more ends with its deadline or with the connection. -/
def reading (request : List Bytes) (c : Client σ) : Except Halt Rx :=
  let wire := match (served R u request c).2 with
    | none => []
    | some v => u.delivery.arrivals (Resp.encode v)
  recvresp deadline ⟨⟨c.conn.ibuf, c.conn.wire ++ wire⟩, .new 128, 0, []⟩

/-- `BaseClient::dosend` of one command. -/
def dosend (request : List Bytes) (c : Client σ) : Except Halt Response × Client σ :=
  if u.sent then
    let server := (served R u request c).1
    match reading deadline R u request c with
    | .ok s => (.ok (s.stagging.map fun r => (r.type, r.text s)), ⟨s.conn, server⟩)
    | .error .refused =>
        (.ok [(DASH, some (str "receiving Response failed: " ++ u.errno_s))], ⟨u.left, server⟩)
    | .error e => (.error e, ⟨u.left, server⟩)
  else
    (.ok [(DASH, some (str "sending failed: " ++ u.errno_s))], { c with server := R.unreached c.server })

end

/-- `Transaction`, with its client. -/
structure Transaction (σ : Type) where
  cachedresp : Response
  in_multi : Bool
  client : Client σ

namespace Transaction

section

variable {σ : Type} (deadline : Bool) (R : Service σ)

/-- `Transaction(client)`. -/
def new (client : Client σ) : Transaction σ := ⟨[], false, client⟩

/-- `client.send`, for a command that ends with the flag set to a value. -/
def command (t : Transaction σ) (u : Turn) (name : String) (flag : Bool) : Outcome × Transaction σ :=
  match dosend deadline R u [str name] t.client with
  | (.ok resp, client) => (.returned resp.toBool, ⟨resp, flag, client⟩)
  | (.error e, client) => (e.outcome, { t with client := client })

/-- `multi`. -/
def multi (t : Transaction σ) (u : Turn) : Outcome × Transaction σ :=
  if t.in_multi then (.returned false, t) else t.command deadline R u "MULTI" true

/-- `exec`; the caller gets `cachedresp`. -/
def exec (t : Transaction σ) (u : Turn) : Outcome × Transaction σ :=
  if t.in_multi then t.command deadline R u "EXEC" false else (.returned t.cachedresp.toBool, t)

/-- `discard`. -/
def discard (t : Transaction σ) (u : Turn) : Outcome × Transaction σ :=
  if t.in_multi then t.command deadline R u "DISCARD" false else (.returned false, t)

/-- `operator()`. -/
def call (t : Transaction σ) (u : Turn) (cmd : Bytes) (params : List Bytes) :
    Outcome × Transaction σ :=
  if t.in_multi then
    match dosend deadline R u (cmd :: params) t.client with
    | (.ok resp, client) =>
        (match resp.status (str "OK") with
          | some b => .returned b
          | none => .undefined, { t with client := client })
    | (.error e, client) => (e.outcome, { t with client := client })
  else (.returned false, t)

/-- `~Transaction`; an exception out of it ends the process. -/
def destroy (t : Transaction σ) (u : Turn) : Outcome × Transaction σ :=
  if t.in_multi then t.discard deadline R u else (.returned false, t)

/-- What a call comes to and leaves. -/
def step (t : Transaction σ) (u : Turn) : Outcome × Transaction σ :=
  match u.op with
  | .multi => t.multi deadline R u
  | .exec => t.exec deadline R u
  | .discard => t.discard deadline R u
  | .call cmd params => t.call deadline R u cmd params
  | .destroy => t.destroy deadline R u

/-- The state for the next call; there is none after the destructor, and none where nothing is
defined. -/
def next (t : Transaction σ) (u : Turn) : Option (Transaction σ) :=
  match u.op with
  | .destroy => none
  | _ =>
      if (t.step deadline R u).1 = .undefined then none else some (t.step deadline R u).2

/-! ## What a transaction promises -/

/-- There is a block on the connection. -/
def Open (t : Transaction σ) : Prop := R.multi t.client.server = true

/-- The server answers that the command is queued. -/
def Queued (t : Transaction σ) (u : Turn) (request : List Bytes) : Prop :=
  t.in_multi = true ∧ u.sent = true ∧
    (served R u request t.client).2 = some (.simple (str "QUEUED"))

/-- The flag is what the server knows, a call returns `true` exactly when its command is queued, and a
destroyed transaction has no open block. -/
def Tracks (t : Transaction σ) (u : Turn) : Prop :=
  let (outcome, t') := t.step deadline R u
  outcome ≠ .undefined ∧
    match u.op with
    | .destroy => outcome ≠ .threw ∧ ¬ t'.Open R
    | .call cmd params =>
        (t'.in_multi = true ↔ t'.Open R) ∧ (outcome = .returned true ↔ t.Queued R u (cmd :: params))
    | _ => t'.in_multi = true ↔ t'.Open R

/-- Reading the reply neither throws nor goes wrong in another way. -/
def Reads (t : Transaction σ) (u : Turn) (request : List Bytes) : Prop :=
  Returns (reading deadline R u request t.client)

/-- The request is sent, and its reply is read. -/
def Settles (t : Transaction σ) (u : Turn) (request : List Bytes) : Prop :=
  u.sent = true ∧ u.flushed = true ∧ t.Reads deadline R u request

/-- The request is sent, and reading its reply throws at worst. -/
def Inside (t : Transaction σ) (u : Turn) (request : List Bytes) : Prop :=
  u.sent = true ∧ u.flushed = true ∧
    (t.Reads deadline R u request ∨ Throws (reading deadline R u request t.client))

/-- The request cannot be sent, and the block of the connection is gone with it, or still there. -/
def Fails (t : Transaction σ) (u : Turn) (request : List Bytes) (stays : Bool) : Prop :=
  (u.sent = false ∨ u.sent = true ∧ u.flushed = false ∧ t.Reads deadline R u request) ∧
    R.multi (R.unreached t.client.server) = stays

/-- The calls that do so: a MULTI that is sent is accepted, and a DISCARD is not refused; reading their
replies and that of EXEC does not throw. A command that is called in the block, on a connection on
which nothing is left of another reply, is refused, and is not EXEC. -/
def Meets (t : Transaction σ) (u : Turn) : Prop :=
  let reply := fun request => (R.receive t.client.server request).2
  match u.op with
  | .multi => t.in_multi = true ∨
      t.Settles deadline R u [str "MULTI"] ∧ ∃ v ∈ reply [str "MULTI"], ¬ IsError v
  | .exec => t.in_multi = false ∨ t.Fails deadline R u [str "EXEC"] false ∨
      t.Settles deadline R u [str "EXEC"]
  | .discard | .destroy => t.in_multi = false ∨ t.Fails deadline R u [str "DISCARD"] false ∨
      t.Settles deadline R u [str "DISCARD"] ∧ ∀ v ∈ reply [str "DISCARD"], ¬ IsError v
  | .call cmd params => t.in_multi = false ∨
      t.client.conn.stream = [] ∧ (t.Fails deadline R u (cmd :: params) true ∨
        t.Inside deadline R u (cmd :: params) ∧ ¬ Names "exec" (cmd :: params) ∧
          ∃ v ∈ reply (cmd :: params), IsError v)

instance (t : Transaction σ) (u : Turn) (request : List Bytes) :
    Decidable (t.Reads deadline R u request) :=
  inferInstanceAs (Decidable (Returns _))

instance (t : Transaction σ) (u : Turn) (request : List Bytes) :
    Decidable (t.Settles deadline R u request) :=
  inferInstanceAs (Decidable (_ ∧ _))

instance (t : Transaction σ) (u : Turn) (request : List Bytes) :
    Decidable (t.Inside deadline R u request) :=
  inferInstanceAs (Decidable (_ ∧ _))

instance (t : Transaction σ) (u : Turn) (request : List Bytes) (stays : Bool) :
    Decidable (t.Fails deadline R u request stays) :=
  inferInstanceAs (Decidable (_ ∧ _))

instance (t : Transaction σ) (u : Turn) : Decidable (t.Meets deadline R u) :=
  match u with
  | ⟨.multi, _, _, _, _, _⟩ => inferInstanceAs (Decidable (_ ∨ _))
  | ⟨.exec, _, _, _, _, _⟩ => inferInstanceAs (Decidable (_ ∨ _))
  | ⟨.discard, _, _, _, _, _⟩ => inferInstanceAs (Decidable (_ ∨ _))
  | ⟨.destroy, _, _, _, _, _⟩ => inferInstanceAs (Decidable (_ ∨ _))
  | ⟨.call _ _, _, _, _, _, _⟩ => inferInstanceAs (Decidable (_ ∨ _))

end

end Transaction

/-! ## Replies -/

section

variable {deadline : Bool}

/-- A byte that is read is the first one. -/
private theorem readType_ok {s s' : Rx} {type : UInt8} (h : s.readType deadline = .ok (type, s')) :
    (∃ r, s.conn.stream = type :: r) ∧ s'.stagging = s.stagging := by
  have hnonempty : ∀ w, (Tcp.readLoop deadline 1 [] w).errno = none →
      (Tcp.readLoop deadline 1 [] w).bytes ≠ [] := by
    intro w
    induction w with
    | nil => exact fun h => by cases h
    | cons a w ih =>
        cases a with
        | silence =>
            rw [Tcp.readLoop]
            split
            · exact fun h => by cases h
            · exact ih
        | segment c cs =>
            rw [Tcp.readLoop]
            exact fun _ => List.cons_ne_nil _ _
  have hall := Tcp.tcpread_stream deadline s.conn 1
  rw [Rx.readType] at h
  split_ifs at h with herrno
  obtain ⟨rfl, rfl⟩ := Prod.mk.inj (Except.ok.inj h)
  refine ⟨?_, rfl⟩
  cases hbytes : (Tcp.tcpread deadline s.conn 1).bytes with
  | nil =>
      refine absurd hbytes ?_
      rw [Tcp.tcpread] at herrno ⊢
      split_ifs at herrno ⊢ with hle
      · obtain ⟨c, cs, hibuf⟩ := List.exists_cons_of_length_pos hle
        rw [hibuf]
        exact List.cons_ne_nil _ _
      · have hnil : s.conn.ibuf = [] := by
          rw [← List.length_eq_zero_iff]
          omega
        rw [hnil] at herrno ⊢
        exact hnonempty s.conn.wire (not_not.mp herrno)
  | cons c cs =>
      rw [hbytes] at hall
      exact ⟨_, hall.symm⟩

/-- Where nothing arrives, nothing is read. -/
theorem recvresp_of_empty {s : Rx} (hs : s.conn.stream = []) :
    recvresp deadline s = .error .refused := by
  rw [recvresp, recvrespIn]
  cases htype : s.readType deadline with
  | ok p =>
      obtain ⟨⟨r, hr⟩, -⟩ := readType_ok htype
      exact absurd (hs.symm.trans hr) (by simp)
  | error e =>
      rw [Rx.readType] at htype
      split_ifs at htype
      rw [← Except.error.inj htype]
      rfl

/-- The one entry that an error leaves. -/
theorem stagging_of_error {s s' : Rx} (h : recvresp deadline s = .ok s') {r : Bytes}
    (hs : s.conn.stream = DASH :: r) : ∃ data, s'.stagging = s.stagging ++ [⟨DASH, data⟩] := by
  rw [recvresp, recvrespIn] at h
  obtain ⟨⟨type, s₁⟩, htype, h⟩ := Except.ok_of_bind h
  obtain ⟨⟨r', hr'⟩, hstagging⟩ := readType_ok htype
  obtain ⟨rfl, -⟩ := List.cons.inj (hs.symm.trans hr')
  dsimp only at h
  rw [if_pos (.inl rfl), Rx.recvLine] at h
  obtain ⟨s₂, hline, h⟩ := Except.ok_of_bind h
  obtain ⟨s₃, hterminate, h⟩ := Except.ok_of_bind h
  have hline' : s₂.stagging = s₁.stagging := by
    rw [Rx.readline] at hline
    obtain ⟨p, -, hline⟩ := Except.ok_of_bind hline
    rw [← Except.ok.inj hline]
  have hterminate' : s₃.stagging = s₂.stagging := by
    rw [Rx.terminate] at hterminate
    obtain ⟨out, -, hterminate⟩ := Except.ok_of_bind hterminate
    rw [← Except.ok.inj hterminate]
  refine ⟨some ⟨s₂.block, s₁.out.offset, s₂.out.offset - s₁.out.offset⟩, ?_⟩
  rw [← Except.ok.inj h, Rx.stage, hterminate', hline', hstagging]

end

/-! ## Calls -/

namespace Transaction

section

variable {σ : Type} {deadline : Bool} {R : Service σ} {t : Transaction σ} {u : Turn}

/-- A command whose reply is read sets the flag. -/
private theorem command_of_reads {name : String} (flag : Bool) (hsent : u.sent = true)
    (h : t.Reads deadline R u [str name]) :
    ∃ b t', t.command deadline R u name flag = (.returned b, t') ∧ t'.in_multi = flag ∧
      t'.client.server = (served R u [str name] t.client).1 := by
  rw [command, dosend, if_pos hsent]
  rw [Reads] at h
  cases hreading : reading deadline R u [str name] t.client with
  | ok s => exact ⟨_, _, rfl, rfl, rfl⟩
  | error e =>
      rw [hreading] at h
      cases e with
      | refused => exact ⟨_, _, rfl, rfl, rfl⟩
      | invalid => exact h.elim
      | overflow => exact h.elim
      | stopped e => exact h.elim
      | endless => exact h.elim

private theorem command_of_settles {name : String} (flag : Bool)
    (h : t.Settles deadline R u [str name]) :
    ∃ b t', t.command deadline R u name flag = (.returned b, t') ∧ t'.in_multi = flag ∧
      t'.client.server = (R.receive t.client.server [str name]).1 := by
  obtain ⟨hsent, hflushed, hreads⟩ := h
  obtain ⟨b, t', heq, hflag, hserver⟩ := command_of_reads flag hsent hreads
  rw [served, if_pos hflushed] at hserver
  exact ⟨b, t', heq, hflag, hserver⟩

/-- A command that does not reach the server sets it, too. -/
private theorem command_of_fails {name : String} (flag : Bool) {stays : Bool}
    (h : t.Fails deadline R u [str name] stays) :
    ∃ b t', t.command deadline R u name flag = (.returned b, t') ∧ t'.in_multi = flag ∧
      R.multi t'.client.server = stays := by
  obtain ⟨hsent | ⟨hsent, hflushed, hreads⟩, hstays⟩ := h
  · rw [command, dosend, if_neg (by simp [hsent])]
    exact ⟨_, _, rfl, rfl, hstays⟩
  · obtain ⟨b, t', heq, hflag, hserver⟩ := command_of_reads flag hsent hreads
    rw [served, if_neg (by simp [hflushed])] at hserver
    exact ⟨b, t', heq, hflag, by rw [hserver, hstays]⟩

/-- A call whose request does not reach the server is not taken for queued. -/
private theorem call_of_fails {cmd : Bytes} {params : List Bytes} {stays : Bool}
    (hin : t.in_multi = true) (hconn : t.client.conn.stream = [])
    (h : t.Fails deadline R u (cmd :: params) stays) :
    ∃ t', t.call deadline R u cmd params = (.returned false, t') ∧ t'.in_multi = true ∧
      R.multi t'.client.server = stays := by
  obtain ⟨hsent | ⟨hsent, hflushed, -⟩, hstays⟩ := h
  · rw [call, if_pos hin, dosend, if_neg (by simp [hsent])]
    exact ⟨_, rfl, hin, hstays⟩
  · have hserved : served R u (cmd :: params) t.client = (R.unreached t.client.server, none) :=
      if_neg (by simp [hflushed])
    have hreading : reading deadline R u (cmd :: params) t.client = .error .refused := by
      rw [reading, hserved]
      apply recvresp_of_empty
      rw [List.append_nil]
      exact hconn
    rw [call, if_pos hin, dosend, if_pos hsent, hreading, hserved]
    exact ⟨_, rfl, hin, hstays⟩

/-- What is refused in a block is not taken for queued. -/
private theorem call_of_inside {cmd : Bytes} {params : List Bytes} (hin : t.in_multi = true)
    (h : t.Inside deadline R u (cmd :: params)) (hconn : t.client.conn.stream = []) {message : Bytes}
    (hreply : (R.receive t.client.server (cmd :: params)).2 = some (.error message)) :
    ∃ outcome t', t.call deadline R u cmd params = (outcome, t') ∧ outcome ≠ .undefined ∧
      outcome ≠ .returned true ∧ t'.in_multi = true ∧
        t'.client.server = (R.receive t.client.server (cmd :: params)).1 := by
  obtain ⟨hsent, hflushed, hread⟩ := h
  have hserved : served R u (cmd :: params) t.client = R.receive t.client.server (cmd :: params) :=
    if_pos hflushed
  rw [call, if_pos hin, dosend, if_pos hsent, hserved]
  cases hreading : reading deadline R u (cmd :: params) t.client with
  | ok s =>
      rw [reading, hserved, hreply] at hreading
      obtain ⟨data, hdata⟩ := stagging_of_error hreading (r := message ++ Resp.CRLF) (by
        obtain ⟨hibuf, hwire⟩ := List.append_eq_nil_iff.mp hconn
        rw [Tcp.Conn.stream, hibuf, List.nil_append, Tcp.Arrival.all_append, hwire, List.nil_append,
          u.delivery.all_eq]
        rfl)
      rw [List.nil_append] at hdata
      refine ⟨.returned false, { t with client := ⟨s.conn, (R.receive t.client.server (cmd :: params)).1⟩ },
        ?_, by decide, by decide, hin, rfl⟩
      dsimp only
      rw [hdata]
      rfl
  | error e =>
      rw [Reads, hreading] at hread
      cases e with
      | refused => exact ⟨.returned false, _, rfl, by decide, by decide, hin, rfl⟩
      | invalid => exact ⟨.threw, _, rfl, by decide, by decide, hin, rfl⟩
      | overflow => exact hread.elim False.elim fun h => absurd h (by decide)
      | stopped e =>
          have hthrew : (Halt.stopped e).outcome = .threw := hread.resolve_left id
          refine ⟨.threw, { t with client := ⟨u.left, (R.receive t.client.server (cmd :: params)).1⟩ },
            ?_, by decide, by decide, hin, rfl⟩
          rw [← hthrew]
      | endless => exact hread.elim False.elim fun h => absurd h (by decide)

/-- A DISCARD that is not refused ends the block. -/
private theorem discard_ends (hR : R.Documented) (hin : t.in_multi = true)
    (h : t.Fails deadline R u [str "DISCARD"] false ∨ t.Settles deadline R u [str "DISCARD"] ∧
      ∀ v, (R.receive t.client.server [str "DISCARD"]).2 = some v → ¬ IsError v) :
    ∃ b t', t.discard deadline R u = (.returned b, t') ∧ t'.in_multi = false ∧ ¬ t'.Open R := by
  rw [discard, if_pos hin]
  rcases h with hfails | ⟨hsettles, hreply⟩
  · obtain ⟨b, t', heq, hflag, hgone⟩ := command_of_fails false hfails
    exact ⟨b, t', heq, hflag, by rw [Open, hgone]; exact Bool.false_ne_true⟩
  · obtain ⟨b, t', heq, hflag, hserver⟩ := command_of_settles false hsettles
    refine ⟨b, t', heq, hflag, ?_⟩
    rw [Open, hserver, Bool.not_eq_true]
    cases hv : (R.receive t.client.server [str "DISCARD"]).2 with
    | none => exact hR.lost _ _ hv
    | some v => exact hR.discarded _ _ v (by decide) hv (hreply v hv)

/-- An EXEC ends it, whatever is answered. -/
private theorem exec_ends (hR : R.Documented) (hin : t.in_multi = true)
    (h : t.Fails deadline R u [str "EXEC"] false ∨ t.Settles deadline R u [str "EXEC"]) :
    ∃ b t', t.exec deadline R u = (.returned b, t') ∧ t'.in_multi = false ∧ ¬ t'.Open R := by
  rw [exec, if_pos hin]
  rcases h with hfails | hsettles
  · obtain ⟨b, t', heq, hflag, hgone⟩ := command_of_fails false hfails
    exact ⟨b, t', heq, hflag, by rw [Open, hgone]; exact Bool.false_ne_true⟩
  · obtain ⟨b, t', heq, hflag, hserver⟩ := command_of_settles false hsettles
    refine ⟨b, t', heq, hflag, ?_⟩
    rw [Open, hserver, hR.ended _ _ (by decide)]
    exact Bool.false_ne_true

/-- A command that is called in a block and meets the condition is not queued, nor taken for queued, and
leaves the block as it is. -/
private theorem call_in_block (hR : R.Documented) (hinv : t.in_multi = true ↔ t.Open R)
    (hin : t.in_multi = true) {cmd : Bytes} {params : List Bytes} (hconn : t.client.conn.stream = [])
    (h : t.Fails deadline R u (cmd :: params) true ∨
      t.Inside deadline R u (cmd :: params) ∧ ¬ Names "exec" (cmd :: params) ∧
        ∃ v ∈ (R.receive t.client.server (cmd :: params)).2, IsError v) :
    ¬ t.Queued R u (cmd :: params) ∧
    ∃ outcome t', t.call deadline R u cmd params = (outcome, t') ∧ outcome ≠ .undefined ∧
      outcome ≠ .returned true ∧ t'.in_multi = true ∧ t'.Open R := by
  rcases h with hfails | ⟨hinside, hnot, v, hreply, herror⟩
  · obtain ⟨t', heq, hflag, hstays⟩ := call_of_fails hin hconn hfails
    refine ⟨fun hqueued => ?_, _, t', heq, nofun, nofun, hflag, hstays⟩
    obtain ⟨-, hsent', hqueued⟩ := hqueued
    obtain ⟨hsent | ⟨-, hflushed, -⟩, -⟩ := hfails
    · exact Bool.false_ne_true (hsent.symm.trans hsent')
    · rw [served, if_neg (by simp [hflushed])] at hqueued
      nomatch hqueued
  · obtain ⟨message, rfl⟩ := IsError.exists_eq herror
    obtain ⟨outcome, t', heq, hdefined, hfalse, hflag, hserver⟩ :=
      call_of_inside hin hinside hconn hreply
    refine ⟨fun hqueued => ?_, outcome, t', heq, hdefined, hfalse, hflag, ?_⟩
    · obtain ⟨-, -, hqueued⟩ := hqueued
      rw [served, if_pos hinside.2.1] at hqueued
      exact Resp.Value.noConfusion (Option.some.inj (hreply.symm.trans hqueued))
    · rw [Open, hserver, hR.refused _ _ _ hnot hreply herror]
      exact hinv.mp hin

/-- Outside of a block nothing is sent but a MULTI. -/
private theorem tracks_of_idle (hinv : t.in_multi = true ↔ t.Open R) (hout : ¬ t.in_multi = true)
    (hop : u.op ≠ .multi) : t.Tracks deadline R u := by
  obtain ⟨op, sent, flushed, delivery, left, errno_s⟩ := u
  cases op with
  | multi => exact absurd rfl hop
  | exec =>
      have hstep : t.step deadline R ⟨.exec, sent, flushed, delivery, left, errno_s⟩ =
          (.returned t.cachedresp.toBool, t) := if_neg hout
      rw [Tracks, hstep]
      exact ⟨nofun, hinv⟩
  | discard =>
      have hstep : t.step deadline R ⟨.discard, sent, flushed, delivery, left, errno_s⟩ =
          (.returned false, t) := if_neg hout
      rw [Tracks, hstep]
      exact ⟨nofun, hinv⟩
  | call cmd params =>
      have hstep : t.step deadline R ⟨.call cmd params, sent, flushed, delivery, left, errno_s⟩ =
          (.returned false, t) := if_neg hout
      rw [Tracks, hstep]
      exact ⟨nofun, hinv, iff_of_false nofun fun hqueued => hout hqueued.1⟩
  | destroy =>
      have hstep : t.step deadline R ⟨.destroy, sent, flushed, delivery, left, errno_s⟩ =
          (.returned false, t) := if_neg hout
      rw [Tracks, hstep]
      exact ⟨nofun, nofun, fun hopen => hout (hinv.mpr hopen)⟩

/-- **A single call tracks the server when it meets the condition.** -/
theorem tracks_of_step (hR : R.Documented) (hinv : t.in_multi = true ↔ t.Open R)
    (hmeets : t.Meets deadline R u) : t.Tracks deadline R u := by
  by_cases hin : t.in_multi = true
  · have hout : t.in_multi ≠ false := by simp [hin]
    obtain ⟨op, sent, flushed, delivery, left, errno_s⟩ := u
    -- in a block: `exec`, `discard` and the destructor end it, any other call is queued
    cases op with
    | multi =>
        have hstep : t.step deadline R ⟨.multi, sent, flushed, delivery, left, errno_s⟩ =
            (.returned false, t) := if_pos hin
        rw [Tracks, hstep]
        exact ⟨nofun, hinv⟩
    | exec =>
        obtain ⟨b, t', heq, hflag, hclosed⟩ := exec_ends hR hin (hmeets.resolve_left hout)
        have hstep : t.step deadline R ⟨.exec, sent, flushed, delivery, left, errno_s⟩ =
            (.returned b, t') := heq
        rw [Tracks, hstep]
        exact ⟨nofun, iff_of_false (by simp [hflag]) hclosed⟩
    | discard =>
        obtain ⟨b, t', heq, hflag, hclosed⟩ := discard_ends hR hin (hmeets.resolve_left hout)
        have hstep : t.step deadline R ⟨.discard, sent, flushed, delivery, left, errno_s⟩ =
            (.returned b, t') := heq
        rw [Tracks, hstep]
        exact ⟨nofun, iff_of_false (by simp [hflag]) hclosed⟩
    | call cmd params =>
        obtain ⟨hconn, hmet⟩ := hmeets.resolve_left hout
        obtain ⟨hqueued, outcome, t', heq, hdefined, hfalse, hflag, hopen⟩ :=
          call_in_block hR hinv hin hconn hmet
        have hstep : t.step deadline R ⟨.call cmd params, sent, flushed, delivery, left, errno_s⟩ =
            (outcome, t') := heq
        rw [Tracks, hstep]
        exact ⟨hdefined, iff_of_true hflag hopen, iff_of_false hfalse hqueued⟩
    | destroy =>
        obtain ⟨b, t', heq, -, hclosed⟩ := discard_ends hR hin (hmeets.resolve_left hout)
        have hstep : t.step deadline R ⟨.destroy, sent, flushed, delivery, left, errno_s⟩ =
            (.returned b, t') := (if_pos hin).trans heq
        rw [Tracks, hstep]
        exact ⟨nofun, nofun, hclosed⟩
  -- outside of one only `multi` opens it
  · by_cases hop : u.op = .multi
    · obtain ⟨op, sent, flushed, delivery, left, errno_s⟩ := u
      cases hop
      obtain ⟨hsettles, v, hv, hok⟩ := hmeets.resolve_left hin
      obtain ⟨b, t', heq, hflag, hserver⟩ := command_of_settles true hsettles
      have hstep : t.step deadline R ⟨.multi, sent, flushed, delivery, left, errno_s⟩ =
          (.returned b, t') := (if_neg hin).trans heq
      rw [Tracks, hstep]
      refine ⟨nofun, iff_of_true hflag ?_⟩
      rw [Open, hserver]
      exact hR.opened _ _ v (by decide) hv hok
    · exact tracks_of_idle hinv hin hop

/-- What tracks the server has the flag of the server. -/
private theorem flag_of_tracks (htracks : t.Tracks deadline R u) {t' : Transaction σ}
    (hnext : t.next deadline R u = some t') : t'.in_multi = true ↔ t'.Open R := by
  obtain ⟨op, sent, flushed, delivery, left, errno_s⟩ := u
  cases op with
  | destroy => nomatch hnext
  | call cmd params =>
      rw [next] at hnext
      dsimp only at hnext
      split_ifs at hnext
      rw [← Option.some.inj hnext]
      exact htracks.2.1
  | multi | exec | discard =>
      rw [next] at hnext
      dsimp only at hnext
      split_ifs at hnext
      rw [← Option.some.inj hnext]
      exact htracks.2

end

end Transaction

/-- **In every run in which each MULTI is accepted, no DISCARD is refused, every command that is called in
a block is refused and is not EXEC, and the replies are read, the flag is what the server knows, calls
return whether their command is queued, and no block is left open.** -/
theorem tracks_of_meets {σ : Type} (deadline : Bool) (R : Service σ) (hR : R.Documented)
    (client : Client σ) (hclosed : R.multi client.server = false) (us : List Turn)
    (hmeets : ∀ p ∈ inputs (Transaction.next deadline R) (.new client) us, p.1.Meets deadline R p.2) :
    ∀ p ∈ inputs (Transaction.next deadline R) (.new client) us, p.1.Tracks deadline R p.2 := by
  have hinv : (Transaction.new client).in_multi = true ↔ (Transaction.new client).Open R :=
    iff_of_false Bool.false_ne_true (by rw [Transaction.Open, Transaction.new, hclosed]; simp)
  have hboth : (∀ p ∈ inputs (Transaction.next deadline R) (.new client) us,
        p.1.Meets deadline R p.2) ↔
      ∀ p ∈ inputs (Transaction.next deadline R) (.new client) us,
        p.1.Meets deadline R p.2 ∧ p.1.Tracks deadline R p.2 :=
    StepMachine.forall_inputs_iff (I := fun t => t.in_multi = true ↔ t.Open R)
      (P := fun t u => t.Meets deadline R u)
      (Q := fun t u => t.Meets deadline R u ∧ t.Tracks deadline R u)
      (fun t u hinv => ⟨fun hm => ⟨hm, Transaction.tracks_of_step hR hinv hm⟩, And.left⟩)
      (fun t u t' hinv hm hnext =>
        Transaction.flag_of_tracks (Transaction.tracks_of_step hR hinv hm) hnext) hinv us
  exact fun p hp => (hboth.mp hmeets p hp).2

/-! ## A server whose commands set keys -/

/-- The number of commands in the block, if there is one. -/
def keeping : Service (Option Nat) where
  multi := Option.isSome
  receive s request :=
    if Names "multi" request then
      match s with
      | none => (some 0, some (.simple (str "OK")))
      | some n => (some n, some (.error (str "ERR MULTI calls can not be nested")))
    else if Names "exec" request then
      match s with
      | none => (none, some (.error (str "ERR EXEC without MULTI")))
      | some n => (none, some (.array (List.replicate n (.simple (str "OK")))))
    else if Names "discard" request then
      match s with
      | none => (none, some (.error (str "ERR DISCARD without MULTI")))
      | some _ => (none, some (.simple (str "OK")))
    else
      match s with
      | none => (none, some (.simple (str "OK")))
      | some n =>
          if Names "watch" request then
            (some n, some (.error (str "ERR WATCH inside MULTI is not allowed")))
          else (some (n + 1), some (.simple (str "QUEUED")))
  unreached _ := none

theorem keeping_documented : keeping.Documented where
  lost s request h := by
    simp only [keeping] at h
    cases s <;> split_ifs at h
  opened s request v hname h hok := by
    simp only [keeping, if_pos hname] at h ⊢
    cases s with
    | none => rfl
    | some n => rfl
  ended s request hname := by
    have hmulti : ¬ Names "multi" request := fun h => absurd (h.symm.trans hname) (by decide)
    simp only [keeping, if_neg hmulti, if_pos hname]
    cases s with
    | none => rfl
    | some n => rfl
  discarded s request v hname h hok := by
    have hmulti : ¬ Names "multi" request := fun h => absurd (h.symm.trans hname) (by decide)
    have hexec : ¬ Names "exec" request := fun h => absurd (h.symm.trans hname) (by decide)
    simp only [keeping, if_neg hmulti, if_neg hexec, if_pos hname]
    cases s with
    | none => rfl
    | some n => rfl
  refused s request v hname h herror := by
    simp only [keeping, if_neg hname] at h ⊢
    cases s with
    | none =>
        split_ifs at h ⊢
        · rw [← Option.some.inj h] at herror
          exact herror.elim
        · rfl
        · rfl
        · rfl
    | some n =>
        split_ifs at h ⊢
        · rfl
        · rw [← Option.some.inj h] at herror
          exact herror.elim
        · rfl
        · rfl

/-- All of a text at once. -/
def whole : Delivery where
  arrivals bs := match bs with
    | [] => []
    | b :: bs => [.segment b bs]
  all_eq bs := by
    cases bs with
    | nil => rfl
    | cons b bs => exact List.append_nil _

def idle : Conn := ⟨[], []⟩

/-- A block in which a WATCH is refused, and which is discarded. -/
def watching : List Turn :=
  [⟨.multi, true, true, whole, idle, []⟩, ⟨.call (str "WATCH") [str "a"], true, true, whole, idle, []⟩,
    ⟨.discard, true, true, whole, idle, []⟩, ⟨.destroy, true, true, whole, idle, []⟩]

theorem tracks_of_meets_watch :
    (inputs (Transaction.next true keeping) (.new ⟨idle, none⟩) watching).length = 4 ∧
      ∀ p ∈ inputs (Transaction.next true keeping) (.new ⟨idle, none⟩) watching,
        p.1.Tracks true keeping p.2 := by
  refine ⟨by decide +kernel, tracks_of_meets true keeping keeping_documented ⟨idle, none⟩ rfl _ ?_⟩
  decide +kernel

/-- A SET that is queued is taken for one that is not. -/
theorem not_tracks_set : ¬ ∀ (deadline : Bool) (client : Client (Option Nat)) (us : List Turn),
    keeping.multi client.server = false →
      ∀ p ∈ inputs (Transaction.next deadline keeping) (.new client) us,
        p.1.Tracks deadline keeping p.2 := by
  intro h
  let multi : Turn := ⟨.multi, true, true, whole, idle, []⟩
  let set : Turn := ⟨.call (str "SET") [str "key", str "value"], true, true, whole, idle, []⟩
  have hmulti : ∃ t ∈ Transaction.next true keeping (.new ⟨idle, none⟩) multi, t.in_multi = true ∧
      t.client.server = some 0 ∧ (t.step true keeping set).1 = .returned false := by
    decide +kernel
  obtain ⟨t, hnext, hin, hserver, hstep⟩ := hmulti
  have hmem : (t, set) ∈ inputs (Transaction.next true keeping) (.new ⟨idle, none⟩) [multi, set] := by
    rw [inputs, hnext]
    exact List.mem_cons_of_mem _ List.mem_cons_self
  obtain ⟨-, -, hcall⟩ := h true ⟨idle, none⟩ [multi, set] rfl _ hmem
  have hqueued : t.Queued keeping set (str "SET" :: [str "key", str "value"]) := by
    refine ⟨hin, rfl, ?_⟩
    show (keeping.receive t.client.server _).2 = _
    rw [hserver]
    rfl
  exact absurd (hstep.symm.trans (hcall.mpr hqueued)) (by decide)

end Suil.Redis
