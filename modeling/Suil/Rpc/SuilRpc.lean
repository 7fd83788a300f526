import Suil.Rpc.Methods
import Suil.Wire.Room

set_option autoImplicit false

/-! # Calls of a Suil RPC

`SuilRpcServerConnection` (`suilrpc.cpp`) reads a request from a message, runs a method of its handler
or an extension, and writes a response on a board that has 128 bytes more than the data that the
method gives. An error has no data: its text has to fit into the 128 bytes, or an exception leaves
`handleRequest` and the connection is closed. `__SuilRpcClient::call` decodes the response, and throws
when there is an error in it. The data that it returns is a view into its own buffer, which is freed
then; what is stated here is what it decodes in front of its return.

`session_eq` says what a client decodes in any sequence of calls, in terms of what the methods do.
`serves_expected_iff` says which messages a server answers, whatever bytes they have. -/

namespace Suil.Rpc.SuilRpc

open Wire
open LittleEndian (leBytes leNat)

/-! ## The records -/

/-- `SuilRpcRequest`. -/
abbrev SuilRpcRequest : Ty :=
  .field false (.int .w32) (.field false (.int .w32) (.field false .data .unit))

/-- `RpcError`. -/
abbrev RpcError : Ty :=
  .field false (.int .w32) (.field false .string (.field false .string .unit))

/-- `SuilRpcResponse`. -/
abbrev SuilRpcResponse : Ty :=
  .field false (.int .w32) (.field false RpcError (.field false .data .unit))

/-- `SuilRpcMethod`. -/
abbrev Method : Ty := .field false (.int .w32) (.field false .string .unit)

/-- `SuilRpcMeta`. -/
abbrev SuilRpcMeta : Ty :=
  .field false .string (.field false (.vector Method) (.field false (.vector Method) .unit))

theorem bits_lt (n : Int) : (n % 2 ^ 32).toNat < 256 ^ Width.w32.bytes := by
  show (n % 2 ^ 32).toNat < 256 ^ 4
  omega

/-- An `int` in its bits. -/
def bits (n : CInt) : (Ty.int .w32).Val := ⟨(n.val % 2 ^ 32).toNat, bits_lt n.val⟩

/-- The number that the bits of an `int` are in two's complement. -/
def twos (b : (Ty.int .w32).Val) : Int := if b.val < 2 ^ 31 then b.val else b.val - 2 ^ 32

theorem twos_bound (b : (Ty.int .w32).Val) : -2 ^ 31 ≤ twos b ∧ twos b < 2 ^ 31 := by
  have hb : b.val < 256 ^ 4 := b.isLt
  rw [twos]
  split <;> omega

/-- The `int` with these bits. -/
def ofBits (b : (Ty.int .w32).Val) : CInt := ⟨twos b, twos_bound b⟩

theorem ofBits_bits (n : CInt) : ofBits (bits n) = n := by
  obtain ⟨n, hn⟩ := n
  have hval : twos (bits ⟨n, hn⟩) = n := by
    rw [twos, bits]
    dsimp only
    split <;> omega
  rw [ofBits]
  simp only [hval]

/-! ## Texts -/

/-- The text of an exception or of a `Result`, which a buffer can hold with eight bytes more. -/
structure Text where
  bytes : Bytes
  nul : NUL ∉ bytes
  small : bytes.length + 8 < 2 ^ 32

theorem length_showNat_le {n k : Nat} (hk : 0 < k) (h : n < 10 ^ k) : (showNat n).length ≤ k := by
  rw [showNat, List.length_map]
  exact (Nat.length_toDigits_le_iff (by decide) hk).mpr h

theorem nul_notMem_showNat (n : Nat) : NUL ∉ showNat n := by
  intro h
  have hdigit := isDigit_of_mem_showNat h
  exact absurd hdigit (by decide)

theorem nul_notMem_showInt (n : Int) : NUL ∉ showInt n := by
  rw [showInt]
  split
  · rw [List.mem_append, not_or]
    exact ⟨by decide, nul_notMem_showNat _⟩
  · exact nul_notMem_showNat _

/-- A text with two numbers of type `size_t`. -/
def twoNumbers (first : Bytes) (m : Nat) (second : Bytes) (n : Nat) : Bytes :=
  first ++ showNat (m % 2 ^ 64) ++ second ++ showNat (n % 2 ^ 64)

theorem nul_notMem_twoNumbers {first second : Bytes} (hfirst : NUL ∉ first) (hsecond : NUL ∉ second)
    (m n : Nat) : NUL ∉ twoNumbers first m second n := by
  simp only [twoNumbers, List.mem_append, not_or]
  exact ⟨⟨⟨hfirst, nul_notMem_showNat _⟩, hsecond⟩, nul_notMem_showNat _⟩

theorem length_twoNumbers_le {first second : Bytes} {m n k : Nat} (hk : 0 < k)
    (hn : n % 2 ^ 64 < 10 ^ k) :
    (twoNumbers first m second n).length ≤ first.length + second.length + 20 + k := by
  have hm : (showNat (m % 2 ^ 64)).length ≤ 20 :=
    length_showNat_le (by decide) (Nat.lt_trans (Nat.mod_lt _ (by decide)) (by decide))
  have hlen : (showNat (n % 2 ^ 64)).length ≤ k := length_showNat_le hk hn
  simp only [twoNumbers, List.length_append]
  omega

theorem mod_size_lt (n : Nat) : n % 2 ^ 64 < 10 ^ 20 :=
  Nat.lt_trans (Nat.mod_lt _ (by decide)) (by decide)

def NO_MEMORY : Bytes := str "Breadboard buffer out of memory, requested: "
def NO_BYTES : Bytes := str "Breadboard out of read buffer bytes, requested: "
def AVAILABLE : Bytes := str " available: "

theorem small_noMemory (m n : Nat) : (twoNumbers NO_MEMORY m AVAILABLE n).length + 8 < 2 ^ 32 :=
  Nat.lt_of_le_of_lt
    (Nat.add_le_add_right (length_twoNumbers_le (by decide) (mod_size_lt n)) 8) (by decide)

theorem small_noBytes (m n : Nat) : (twoNumbers NO_BYTES m AVAILABLE n).length + 8 < 2 ^ 32 :=
  Nat.lt_of_le_of_lt
    (Nat.add_le_add_right (length_twoNumbers_le (by decide) (mod_size_lt n)) 8) (by decide)

/-- What the exceptions of a `Breadboard` say. Of the other faults a request and a response, which have
no blobs and no vectors, only meet those that are no exceptions. -/
def what : WireFault → Option Text
  | .outOfMemory m n => some ⟨twoNumbers NO_MEMORY m AVAILABLE n,
      nul_notMem_twoNumbers (by decide) (by decide) m n, small_noMemory m n⟩
  | .outOfBytes m n => some ⟨twoNumbers NO_BYTES m AVAILABLE n,
      nul_notMem_twoNumbers (by decide) (by decide) m n, small_noBytes m n⟩
  | _ => none

def Text.sized (t : Text) : Wire.Sized := ⟨t.bytes, by have := t.small; omega⟩

theorem nul_notMem_nil : NUL ∉ ([] : Bytes) := List.not_mem_nil

theorem small_nil : ([] : Bytes).length + 8 < 2 ^ 32 := by decide

def Text.empty : Text := ⟨[], nul_notMem_nil, small_nil⟩

/-! ## The server -/

/-- How a method ends: it returns a `Result`, behind what it has written to `results`, or it throws.
What is no `std::exception` is thrown again by `fromCurrent`. -/
inductive Ran where
  | returned (code : CInt) (text : Text) (results : Bytes)
  | threw (what : Text)
  | threwAny

/-- `SuilRpcServerConnection`, with a handler that has a state. There are 1024 bytes for results. -/
structure Server (σ : Type) where
  version : Text
  methods : (Ty.vector Method).Val
  handler : σ → (method : CInt) → (params : Bytes) → (id : CInt) → Ran × σ
  room : ∀ {st method params id code text results st'},
    handler st method params id = (.returned code text results, st') → results.length ≤ 1024

def SRPC_METHOD_NOT_FOUND : CInt := .ofNat 0 CInt.zero_lt

def SRPC_INTERNAL_ERROR : CInt := .ofNat 1 CInt.one_lt

theorem negOne_bound : -2 ^ 31 ≤ (-1 : Int) ∧ (-1 : Int) < 2 ^ 31 := by decide

theorem rpcVersion_lt : (str "rpc_Version").length < 2 ^ 32 := by decide

theorem singleton_lt (v : Method.Val) : [v].length < 2 ^ 64 := by
  rw [List.length_singleton]
  decide

/-- The metadata of the extensions. -/
def extensionsMeta : (Ty.vector Method).Val :=
  ⟨[(bits ⟨-1, negOne_bound⟩, ⟨str "rpc_Version", rpcVersion_lt⟩, ())], singleton_lt _⟩

/-- What the extension that there is not says. -/
def noExtension (method : CInt) : Bytes :=
  str "extension method with id=" ++ showInt method.val ++ str " does not exist"

theorem nul_notMem_noExtension (method : CInt) : NUL ∉ noExtension method := by
  simp only [noExtension, List.mem_append, not_or]
  exact ⟨⟨by decide, nul_notMem_showInt _⟩, by decide⟩

theorem small_noExtension (method : CInt) : (noExtension method).length + 8 < 2 ^ 32 := by
  have hbound := method.bound
  have hdigits : (showNat method.val.natAbs).length ≤ 10 :=
    length_showNat_le (by decide) (by omega)
  have hlen : (showInt method.val).length ≤ 11 := by
    rw [showInt]
    split
    · rw [List.length_append]
      exact Nat.add_le_add (by decide) hdigits
    · omega
  have hfront : (str "extension method with id=").length = 25 := by decide
  have hback : (str " does not exist").length = 15 := by decide
  simp only [noExtension, List.length_append]
  omega

/-- What a write to `results` leads to, which is all that an extension does. -/
def written (wr : Breadboard → Except WireFault Breadboard) : Option Ran :=
  match wr (.new 1024) with
  | .ok b => some (.returned SRPC_METHOD_NOT_FOUND .empty b.rest)
  | .error x => (what x).map .threw

namespace Server

variable {σ : Type} (s : Server σ)

def rpcMeta : SuilRpcMeta.Val := (s.version.sized, s.methods, extensionsMeta, ())

/-- `Extensions::operator()`. -/
def extensionMethods (method : CInt) : Option Ran :=
  if method.val = -1 then written (writeData s.version.sized)
  else some (.returned SRPC_METHOD_NOT_FOUND
    ⟨noExtension method, nul_notMem_noExtension method, small_noExtension method⟩ [])

def handleExtension (method : CInt) : Option Ran :=
  if method.val = 0 then written (write SuilRpcMeta s.rpcMeta) else s.extensionMethods method

/-- The method that a request asks for. -/
def dispatch (st : σ) (method : CInt) (params : Bytes) (id : CInt) : Option (Ran × σ) :=
  if method.val ≤ 0 then (s.handleExtension method).map fun ran => (ran, st)
  else some (s.handler st method params id)

end Server

/-- `Heapboard hb(data)`. -/
def board (bs : Bytes) : Breadboard where
  sink := bs
  H := 0
  M := bs.length
  always := false
  head_le := Nat.zero_le _
  tail_le := Nat.le_refl _

/-- The `try` block of `handleRequest`; `junk` is what the integers of the request hold before. -/
def Server.execute {σ : Type} (s : Server σ) (st : σ) (junk : Nat) (req : Bytes) :
    Option (Ran × σ) :=
  match read junk SuilRpcRequest (SuilRpcRequest.default junk) (board req) with
  | .ok (r, _) => s.dispatch st (ofBits r.2.1) r.2.2.1.val (ofBits r.1)
  | .error x => (what x).map fun w => (.threw w, st)

def API_ERROR : Bytes := str "API ERROR"

theorem apiError_lt : API_ERROR.length < 2 ^ 32 := by decide

/-- `rpcResponse` with an error. Its `id` is assigned to itself, and stays what was in the memory. -/
def failure (junk : Nat) (code : CInt) (text : Wire.Sized) : SuilRpcResponse.Val :=
  ((Ty.int .w32).default junk, (bits code, ⟨API_ERROR, apiError_lt⟩, text, ()), ⟨[], nil_lt⟩, ())

/-- `rpcResponse` with data, which `release` makes of the results. -/
def success (junk : Nat) (results : Bytes) : SuilRpcResponse.Val :=
  ((Ty.int .w32).default junk,
    (bits SRPC_METHOD_NOT_FOUND, ⟨[], nil_lt⟩, ⟨[], nil_lt⟩, ()), clip results, ())

def CODE_1 : Bytes := str "Code_1: "

/-- `res(SRPC_INTERNAL_ERROR) << what`, of a `Result` without text. -/
def thrown (w : Text) : Wire.Sized :=
  ⟨CODE_1 ++ w.bytes, by
    have hsmall := w.small
    have hcode : CODE_1.length = 8 := by decide
    rw [List.length_append]
    omega⟩

/-- What `handleRequest` makes of `rpcResponse`. -/
def Ran.response (junk : Nat) : Ran → Option SuilRpcResponse.Val
  | .returned code text results =>
      if code.val = 0 then some (success junk results) else some (failure junk code text.sized)
  | .threw w => some (failure junk SRPC_INTERNAL_ERROR (thrown w))
  | .threwAny => none

/-- The bytes of a response; nothing when it does not fit on its board and an exception leaves
`handleRequest`. -/
def encode (rpcResponse : SuilRpcResponse.Val) : Option Bytes :=
  match write SuilRpcResponse rpcResponse (.new (rpcResponse.2.2.1.val.length + 128)) with
  | .ok resp => some (clip resp.rest).val
  | .error _ => none

/-- A message that is received, and what the memory holds that it is read into. -/
structure Message where
  req : Wire.Sized
  junk : Nat

namespace Server

variable {σ : Type} (s : Server σ)

/-- `handleRequest`: a response or an exception. There is nothing where a length byte overruns the
number that it is read into. -/
def handleRequest (st : σ) (m : Message) : Option (Option Bytes × σ) :=
  (s.execute st m.junk m.req.val).map fun x => ((x.1.response m.junk).bind encode, x.2)

/-- The loop of `operator()`: the responses, and whether the connection is still open. -/
def serve : σ → List Message → Option (List Bytes × Bool)
  | _, [] => some ([], true)
  | st, m :: ms => do
      let (resp, st) ← s.handleRequest st m
      match resp with
      | some resp =>
          let (resps, isopen) ← serve st ms
          some (resp :: resps, isopen)
      | none => some ([], false)

end Server

/-! ## The client -/

/-- What a call comes to in front of its return: the data that it has decoded from the response, or the
exception that it throws. It is `raised` when there is a response, and `failed` when there is none. -/
inductive Answer where
  | data (bs : Bytes)
  | raised (what : Bytes)
  | failed
  deriving DecidableEq

/-- What `call` decodes from a response; the data are still those in `ob`. -/
def receive (junk : Nat) (resp : Bytes) : Option Answer :=
  match read junk SuilRpcResponse (SuilRpcResponse.default junk) (board resp) with
  | .ok (r, _) =>
      if (ofBits r.2.1.1).val ≠ 0 then
        some (.raised (streamed r.2.1.2.1.val ++ str " - " ++ streamed r.2.1.2.2.1.val))
      else some (.data r.2.2.1.val)
  | .error x => (what x).map fun w => .raised w.bytes

/-- A call of a method by its number. The parameters are on a board of 4096 bytes. -/
structure Call where
  method : CInt
  params : Bytes
  junk : Nat
  fits : params.length ≤ 4096

theorem Call.params_lt (q : Call) : q.params.length < 2 ^ 32 :=
  Nat.lt_of_le_of_lt q.fits (by decide)

/-- `rpcRequest`. -/
def Call.request (q : Call) (id : CInt) : SuilRpcRequest.Val :=
  (bits id, bits q.method, ⟨q.params, q.params_lt⟩, ())

/-- A client and the service that it is connected with. -/
structure Connection (σ : Type) where
  state : σ
  idGenerator : CInt
  isopen : Bool

theorem succ_bound {n : CInt} (h : n.val < 2 ^ 31 - 1) :
    -2 ^ 31 ≤ n.val + 1 ∧ n.val + 1 < 2 ^ 31 := by
  have := n.bound
  omega

namespace Server

variable {σ : Type} (s : Server σ)

/-- A request is sent, and its response is received. -/
def exchange (c : Connection σ) (next : CInt) (junk : Nat) (req : Bytes) :
    Option (Answer × Connection σ) :=
  if c.isopen then do
    let (resp, st) ← s.handleRequest c.state ⟨clip req, junk⟩
    match resp with
    | some resp =>
        let a ← receive junk resp
        some (a, ⟨st, next, true⟩)
    | none => some (.failed, ⟨st, next, false⟩)
  else some (.failed, ⟨c.state, next, false⟩)

/-- `call`; there is nothing when `idGenerator` is the greatest `int`. -/
def call (c : Connection σ) (q : Call) : Option (Answer × Connection σ) :=
  if h : c.idGenerator.val < 2 ^ 31 - 1 then
    let next : CInt := ⟨c.idGenerator.val + 1, succ_bound h⟩
    match write SuilRpcRequest (q.request c.idGenerator) (.new (q.params.length + 128)) with
    | .ok hb => s.exchange c next q.junk hb.rest
    | .error x => (what x).map fun w => (.raised w.bytes, { c with idGenerator := next })
  else none

/-- Calls one after the other. -/
def session : Connection σ → List Call → Option (List Answer × Connection σ)
  | c, [] => some ([], c)
  | c, q :: qs => do
      let (a, c) ← s.call c q
      let (as, c) ← session c qs
      some (a :: as, c)

end Server

/-! ## What is to be expected -/

/-- The answer to an error: its text has room if it has 106 bytes at most. The exception of the client
does not say more of it than whether there is a text. -/
def refusal (text : Bytes) : Answer :=
  if text.length ≤ 106 then .raised (str "1 - " ++ if text = [] then str "0" else str "1")
  else .failed

/-- The answer that a method should have. A method that does not exist has the code of success. -/
def Ran.answer : Ran → Answer
  | .returned code text results => if code.val = 0 then .data results else refusal text.bytes
  | .threw w => refusal (CODE_1 ++ w.bytes)
  | .threwAny => .failed

/-- A message, as its layout is. -/
inductive Parsed where
  | overrun
  | malformed
  | request (method : CInt) (params : Bytes) (id : CInt)

/-- The `int` at the start. -/
def intOf (bs : Bytes) : CInt := ofBits ⟨leNat (bs.take 4) % 256 ^ 4, int_lt .w32 _⟩

/-- The parameters of a request. -/
inductive Params where
  | overrun
  | malformed
  | data (bs : Bytes)

/-- The layout of parameters: a length byte, as many bytes of a number, and so many bytes of data. -/
def params (bs : Bytes) : Params :=
  if bs.length < 1 then .malformed
  else
    let k := leNat (bs.take 1)
    let rest := bs.drop 1
    if rest.length < k then .malformed
    else if 8 < k then .overrun
    else
      let n := leNat (rest.take k)
      if (rest.drop k).length < n then .malformed else .data ((rest.drop k).take n)

/-- The layout of a request: two `int`s and the parameters. There may be more behind them. -/
def parse (m : Bytes) : Parsed :=
  if m.length < 8 then .malformed
  else
    match params (m.drop 8) with
    | .overrun => .overrun
    | .malformed => .malformed
    | .data bs => .request (intOf (m.drop 4)) bs (intOf m)

/-- The answer to what an extension writes. -/
def fetched (bs : Bytes) : Answer := if bs.length ≤ 1024 then .data bs else .raised (str "1 - 1")

namespace Server

variable {σ : Type} (s : Server σ)

/-- The answer that a request should have, and the state of the service behind it. -/
def answer (st : σ) (method : CInt) (params : Bytes) (id : CInt) : Answer × σ :=
  if method.val = 0 then (fetched (bytes false SuilRpcMeta s.rpcMeta), st)
  else if method.val = -1 then (fetched (dataBytes s.version.bytes), st)
  else if method.val < 0 then (.data [], st)
  else ((s.handler st method params id).1.answer, (s.handler st method params id).2)

/-- A call in terms of the methods: they are called in order, with what the client gives, until an
error has no answer; after that every call fails. -/
def direct (c : Connection σ) (q : Call) : Option (Answer × Connection σ) :=
  if h : c.idGenerator.val < 2 ^ 31 - 1 then
    let next : CInt := ⟨c.idGenerator.val + 1, succ_bound h⟩
    if c.isopen then
      let (a, st) := s.answer c.state q.method q.params c.idGenerator
      some (a, ⟨st, next, a ≠ .failed⟩)
    else some (.failed, ⟨c.state, next, false⟩)
  else none

def directs : Connection σ → List Call → Option (List Answer × Connection σ)
  | c, [] => some ([], c)
  | c, q :: qs => do
      let (a, c) ← s.direct c q
      let (as, c) ← directs c qs
      some (a :: as, c)

/-- The answers to messages, when there is one to each of them. A message that is no request has an
error, which always has room. -/
def expected : σ → List Message → Option (List Answer)
  | _, [] => some []
  | st, m :: ms =>
      match parse m.req.val with
      | .overrun => none
      | .malformed => (expected st ms).map fun as => .raised (str "1 - 1") :: as
      | .request method params id =>
          let (a, st) := s.answer st method params id
          if a = .failed then none else (expected st ms).map fun as => a :: as

end Server

/-! ## Responses -/

theorem varIntLength_eq_one {n : Nat} (hpos : 0 < n) (h : n < 256) : varIntLength n = 1 := by
  have hrest : n / 256 = 0 := Nat.div_eq_of_lt h
  rw [varIntLength, lengthLoop, if_pos hpos, hrest]
  rfl

theorem one_le_varIntLength {n : Nat} (hpos : 0 < n) : 1 ≤ varIntLength n := by
  rw [varIntLength, lengthLoop, if_pos hpos]
  exact Nat.le_add_right 1 _

theorem length_dataBytes (bs : Bytes) :
    (dataBytes bs).length = 1 + varIntLength bs.length + bs.length := by
  rw [dataBytes, varIntBytes, List.length_append, List.length_cons, LittleEndian.length_leBytes]
  omega

theorem length_failure (junk : Nat) (code : CInt) (text : Wire.Sized) :
    (bytes false SuilRpcResponse (failure junk code text)).length =
      21 + varIntLength text.val.length + text.val.length := by
  have hmessage : varIntLength 9 = 1 := varIntLength_eq_one (by decide) (by decide)
  have hlen : API_ERROR.length = 9 := by decide
  have hempty : varIntLength 0 = 0 := rfl
  simp only [failure, bytes, Bool.not_false, Bool.true_or, if_true, List.length_append,
    LittleEndian.length_leBytes, length_dataBytes, hlen, hmessage, hempty, Width.bytes,
    List.length_nil]
  omega

theorem length_success (junk : Nat) (results : Bytes) :
    (bytes false SuilRpcResponse (success junk results)).length =
      11 + varIntLength (clip results).val.length + (clip results).val.length := by
  have hempty : varIntLength 0 = 0 := rfl
  simp only [success, bytes, Bool.not_false, Bool.true_or, if_true, List.length_append,
    LittleEndian.length_leBytes, length_dataBytes, hempty, Width.bytes, List.length_nil]
  omega

/-- The text of an error has room in the 128 bytes when it has at most 106. -/
theorem failure_fits_iff (n : Nat) : 21 + varIntLength n + n ≤ 128 ↔ n ≤ 106 := by
  by_cases hn : n ≤ 106
  · have hone : varIntLength n ≤ 1 := by
      rcases Nat.eq_zero_or_pos n with rfl | hpos
      · exact Nat.zero_le 1
      · exact Nat.le_of_eq (varIntLength_eq_one hpos (by omega))
    omega
  · have hone : 1 ≤ varIntLength n := one_le_varIntLength (by omega)
    omega

theorem clip_val {bs : Bytes} (h : bs.length < 2 ^ 32) : (clip bs).val = bs := by
  show bs.take (bs.length % 2 ^ 32) = bs
  rw [Nat.mod_eq_of_lt h, List.take_length]

/-- The bytes of a response that has room on its board, or nothing. -/
theorem encode_eq (v : SuilRpcResponse.Val) :
    encode v = if (bytes false SuilRpcResponse v).length ≤ v.2.2.1.val.length + 128 then
      some (clip (bytes false SuilRpcResponse v)).val else none := by
  have hiff := exists_write_iff SuilRpcResponse v (.new (v.2.2.1.val.length + 128))
  simp only [Breadboard.new, List.length_nil, Nat.zero_add] at hiff
  rw [encode]
  split
  case h_1 resp hwrite =>
    have hw := (write_appends SuilRpcResponse v).ok _ _ hwrite
    have hrest : resp.rest = bytes false SuilRpcResponse v := by
      rw [hw.rest]
      rfl
    rw [if_pos (hiff.mp ⟨resp, hwrite⟩), hrest]
  case h_2 x hwrite =>
    rw [if_neg]
    intro hle
    obtain ⟨b', hb'⟩ := hiff.mpr hle
    exact absurd (hb'.symm.trans hwrite) (by simp)

theorem encode_failure (junk : Nat) (code : CInt) (text : Wire.Sized) :
    encode (failure junk code text) = if text.val.length ≤ 106 then
      some (bytes false SuilRpcResponse (failure junk code text)) else none := by
  have hiff := failure_fits_iff text.val.length
  have hlen := length_failure junk code text
  have hzero : (failure junk code text).2.2.1.val.length + 128 = 128 := rfl
  rw [encode_eq, hzero, hlen]
  by_cases hfits : text.val.length ≤ 106
  · have hroom := hiff.mpr hfits
    rw [if_pos hroom, if_pos hfits, clip_val]
    omega
  · rw [if_neg (mt hiff.mp hfits), if_neg hfits]

theorem encode_success (junk : Nat) {results : Bytes} (hlen : results.length ≤ 1024) :
    encode (success junk results) = some (bytes false SuilRpcResponse (success junk results)) := by
  have hclip : (clip results).val = results := clip_val (by omega)
  have hbytes := length_success junk results
  have hvar : varIntLength results.length ≤ 8 := varIntLength_le (by omega)
  have hdata : (success junk results).2.2.1.val.length = results.length := congrArg List.length hclip
  rw [hclip] at hbytes
  rw [encode_eq, hbytes, hdata, if_pos (by omega), clip_val (by omega)]

/-! ## Reading -/

theorem read_board {t : Ty} {v prior : t.Val} {junk : Nat} (h : Restores junk false t v prior) :
    ∃ b, read junk t prior (board (bytes false t v)) = .ok (v, b) := by
  have hrest : (board (bytes false t v)).rest =
      bytes (board (bytes false t v)).always t v ++ [] := (List.append_nil _).symm
  have hout : Outcome (board (bytes false t v)) [] (read junk t prior (board (bytes false t v)))
      (readBack junk false t v prior) := read_reads junk t v prior _ [] hrest
  rw [(readBack_eq_iff t v prior).mpr h] at hout
  obtain ⟨b, hread, -⟩ := hout.exists_ok
  exact ⟨b, hread⟩

theorem receive_failure (junk junk' : Nat) {code : CInt} {text : Wire.Sized} (hcode : code.val ≠ 0)
    (hnul : NUL ∉ text.val) :
    receive junk' (bytes false SuilRpcResponse (failure junk code text)) =
      some (.raised (str "1 - " ++ streamed text.val)) := by
  have hmessage : NUL ∉ API_ERROR.dropLast := by decide
  have htext : NUL ∉ text.val.dropLast := fun h => hnul (List.mem_of_mem_dropLast h)
  have hrestores : Restores junk' false SuilRpcResponse (failure junk code text)
      (SuilRpcResponse.default junk') :=
    ⟨trivial, ⟨trivial, ⟨fun _ => rfl, hmessage⟩, ⟨fun _ => rfl, htext⟩, trivial⟩, fun _ => rfl,
      trivial⟩
  obtain ⟨b, hread⟩ := read_board hrestores
  rw [receive, hread]
  have hbits : (ofBits (failure junk code text).2.1.1).val ≠ 0 := by
    show (ofBits (bits code)).val ≠ 0
    rwa [ofBits_bits]
  exact if_pos hbits

theorem receive_success (junk junk' : Nat) {results : Bytes} (hlen : results.length < 2 ^ 32) :
    receive junk' (bytes false SuilRpcResponse (success junk results)) = some (.data results) := by
  have hrestores : Restores junk' false SuilRpcResponse (success junk results)
      (SuilRpcResponse.default junk') :=
    ⟨trivial, ⟨trivial, ⟨fun _ => rfl, nul_notMem_nil⟩, ⟨fun _ => rfl, nul_notMem_nil⟩, trivial⟩,
      fun _ => rfl, trivial⟩
  obtain ⟨b, hread⟩ := read_board hrestores
  rw [receive, hread]
  have hbits : (ofBits (success junk results).2.1.1).val = 0 := by
    show (ofBits (bits SRPC_METHOD_NOT_FOUND)).val = 0
    rw [ofBits_bits]
    rfl
  dsimp only
  rw [if_neg (not_not.mpr hbits)]
  exact congrArg (fun bs => some (Answer.data bs)) (clip_val hlen)

/-- What a method has written has room in `results`. -/
def Ran.Fits : Ran → Prop
  | .returned _ _ results => results.length ≤ 1024
  | .threw _ => True
  | .threwAny => True

/-- There is a response, and the client reads the answer in it; or there is none, and none is to be
expected. -/
inductive Responds (junk : Nat) (ran : Ran) : Option Bytes → Prop where
  | read {resp : Bytes} : ran.answer ≠ .failed →
      (∀ junk', receive junk' resp = some ran.answer) → Responds junk ran (some resp)
  | none : ran.answer = .failed → Responds junk ran none

theorem responds_failure (junk : Nat) {ran : Ran} {code : CInt} {text : Wire.Sized}
    (hresponse : ran.response junk = some (failure junk code text))
    (hanswer : ran.answer = refusal text.val) (hcode : code.val ≠ 0) (hnul : NUL ∉ text.val) :
    Responds junk ran ((ran.response junk).bind encode) := by
  rw [hresponse, Option.bind_some, encode_failure]
  by_cases hfits : text.val.length ≤ 106
  · have hraised : ran.answer = .raised (str "1 - " ++ streamed text.val) := by
      rw [hanswer, refusal, if_pos hfits]
      rfl
    rw [if_pos hfits]
    refine .read (by simp [hraised]) fun junk' => ?_
    rw [receive_failure junk junk' hcode hnul, hraised]
  · rw [if_neg hfits]
    exact .none (hanswer.trans (if_neg hfits))

/-- **The client gets of a response what the method should answer.** -/
theorem responds_ran (junk : Nat) {ran : Ran} (hfits : ran.Fits) :
    Responds junk ran ((ran.response junk).bind encode) := by
  cases ran with
  | threwAny => exact .none rfl
  | threw w =>
      apply responds_failure junk rfl rfl (by decide)
      rw [thrown, List.mem_append, not_or]
      exact ⟨by decide, w.nul⟩
  | returned code text results =>
      by_cases hcode : code.val = 0
      · have hresults : results.length ≤ 1024 := hfits
        have hresponse : (Ran.returned code text results).response junk = some (success junk results) :=
          if_pos hcode
        have hdata : (Ran.returned code text results).answer = .data results := if_pos hcode
        rw [hresponse, Option.bind_some, encode_success junk hresults]
        refine .read (by simp [hdata]) fun junk' => ?_
        rw [receive_success junk junk' (by omega), hdata]
      · exact responds_failure junk (if_neg hcode) (if_neg hcode) hcode text.nul

/-! ## Methods -/

/-- The text of an exception of the library always has room. -/
theorem answer_threw {w : Text} (h : w.bytes.length ≤ 98) :
    (Ran.threw w).answer = .raised (str "1 - 1") := by
  have hcode : CODE_1.length = 8 := by decide
  have hlen : (CODE_1 ++ w.bytes).length = 8 + w.bytes.length := by rw [List.length_append, hcode]
  have hne : CODE_1 ++ w.bytes ≠ [] := by
    rw [← List.length_pos_iff, hlen]
    omega
  rw [Ran.answer, refusal, if_pos (by omega), if_neg hne]
  decide

/-- What a write leads to: the bytes, when there is room for them, or else an exception. -/
theorem written_answer {wr : Breadboard → Except WireFault Breadboard} {e : Bool → Bytes}
    (hwr : Appends wr e (2 ^ 64)) (hroom : Writes wr e) :
    ∃ ran, written wr = some ran ∧ ran.Fits ∧ ran.answer = fetched (e false) := by
  rw [written]
  split
  case h_1 b hwrite =>
    have hw := hwr.ok _ _ hwrite
    have hrest : b.rest = e false := by
      rw [hw.rest]
      rfl
    have hle : (e false).length ≤ 1024 := by
      have hle := b.tail_le
      rw [hw.sink, hw.size, List.length_append] at hle
      exact Nat.le_trans (Nat.le_add_left _ _) hle
    refine ⟨_, rfl, ?_, ?_⟩
    · show b.rest.length ≤ 1024
      rwa [hrest]
    · rw [fetched, if_pos hle, hrest]
      rfl
  case h_2 x hwrite =>
    obtain ⟨r, a, rfl, -, ha⟩ := hwr.error _ _ hwrite
    have hle : ¬ (e false).length ≤ 1024 := by
      intro hle
      obtain ⟨b, hb, -⟩ := hroom (.new 1024) (by simpa [Breadboard.new] using hle)
      rw [hb] at hwrite
      cases hwrite
    have hmemory : NO_MEMORY.length = 44 := by decide
    have havailable : AVAILABLE.length = 12 := by decide
    have hlen : (twoNumbers NO_MEMORY r AVAILABLE a).length ≤
        NO_MEMORY.length + AVAILABLE.length + 20 + 4 := by
      apply length_twoNumbers_le (by decide)
      exact Nat.lt_of_le_of_lt (Nat.le_trans (Nat.mod_le _ _) ha) (by decide)
    refine ⟨_, rfl, trivial, ?_⟩
    rw [fetched, if_neg hle]
    apply answer_threw
    show (twoNumbers NO_MEMORY r AVAILABLE a).length ≤ 98
    omega

namespace Server

variable {σ : Type} (s : Server σ)

/-- Every request comes to a method, and its results have room. -/
theorem dispatch_answer (st : σ) (method : CInt) (params : Bytes) (id : CInt) :
    ∃ ran st', s.dispatch st method params id = some (ran, st') ∧ ran.Fits ∧
      s.answer st method params id = (ran.answer, st') := by
  rw [dispatch, answer]
  by_cases hm : method.val ≤ 0
  · have hext : ∃ ran, s.handleExtension method = some ran ∧ ran.Fits ∧
        s.answer st method params id = (ran.answer, st) := by
      rw [handleExtension, answer]
      by_cases hzero : method.val = 0
      · rw [if_pos hzero, if_pos hzero]
        obtain ⟨ran, hran, hfits, hanswer⟩ :=
          written_answer (write_appends SuilRpcMeta s.rpcMeta) (write_writes SuilRpcMeta s.rpcMeta)
        exact ⟨ran, hran, hfits, by rw [hanswer]⟩
      · rw [if_neg hzero, if_neg hzero, extensionMethods]
        by_cases hone : method.val = -1
        · rw [if_pos hone, if_pos hone]
          obtain ⟨ran, hran, hfits, hanswer⟩ :=
            written_answer (write_appends .data s.version.sized) (write_writes .data s.version.sized)
          exact ⟨ran, hran, hfits, by rw [hanswer]; rfl⟩
        · rw [if_neg hone, if_neg hone, if_pos (by omega)]
          exact ⟨_, rfl, Nat.zero_le _, rfl⟩
    obtain ⟨ran, hran, hfits, hanswer⟩ := hext
    rw [answer] at hanswer
    rw [if_pos hm, hran]
    exact ⟨ran, st, rfl, hfits, hanswer⟩
  · rw [if_neg hm, if_neg (by omega), if_neg (by omega), if_neg (by omega)]
    cases hhandler : s.handler st method params id with
    | mk ran st' =>
        refine ⟨ran, st', rfl, ?_, rfl⟩
        cases ran with
        | threw w => trivial
        | threwAny => trivial
        | returned code text results => exact s.room hhandler

/-- A message has the answer of what its `try` block does. -/
theorem handleRequest_responds {st st' : σ} {m : Message} {ran : Ran} (hfits : ran.Fits)
    (hexec : s.execute st m.junk m.req.val = some (ran, st')) :
    ∃ resp, s.handleRequest st m = some (resp, st') ∧ Responds m.junk ran resp := by
  refine ⟨_, ?_, responds_ran m.junk hfits⟩
  rw [handleRequest, hexec, Option.map_some]

/-! ## Calls -/

theorem length_request (q : Call) (id : CInt) :
    (bytes false SuilRpcRequest (q.request id)).length =
      9 + varIntLength q.params.length + q.params.length := by
  simp only [Call.request, bytes, Bool.not_false, Bool.true_or, if_true, List.length_append,
    LittleEndian.length_leBytes, length_dataBytes, Width.bytes, List.length_nil]
  omega

/-- The server reads what the client has written. -/
theorem execute_request (st : σ) (junk : Nat) (q : Call) (id : CInt) :
    s.execute st junk (bytes false SuilRpcRequest (q.request id)) =
      s.dispatch st q.method q.params id := by
  have hrestores : Restores junk false SuilRpcRequest (q.request id)
      (SuilRpcRequest.default junk) := ⟨trivial, trivial, fun _ => rfl, trivial⟩
  obtain ⟨b, hread⟩ := read_board hrestores
  rw [execute, hread]
  dsimp only [Call.request]
  rw [ofBits_bits, ofBits_bits]

/-- **A call is what the method does.** -/
theorem call_eq (c : Connection σ) (q : Call) : s.call c q = s.direct c q := by
  rw [call, direct]
  by_cases hid : c.idGenerator.val < 2 ^ 31 - 1
  · rw [dif_pos hid, dif_pos hid]
    have hlen := length_request q c.idGenerator
    have hvar : varIntLength q.params.length ≤ 8 :=
      varIntLength_le (Nat.lt_of_le_of_lt q.fits (by decide))
    have hparams := q.fits
    have hroom : (Breadboard.new (q.params.length + 128)).sink.length +
        (bytes (Breadboard.new (q.params.length + 128)).always SuilRpcRequest
          (q.request c.idGenerator)).length ≤ (Breadboard.new (q.params.length + 128)).M := by
      show 0 + (bytes false SuilRpcRequest (q.request c.idGenerator)).length ≤ q.params.length + 128
      omega
    obtain ⟨hb, hwrite, hw⟩ := write_writes SuilRpcRequest (q.request c.idGenerator) _ hroom
    have hrest : hb.rest = bytes false SuilRpcRequest (q.request c.idGenerator) := by
      rw [hw.rest]
      rfl
    have hclip : (clip hb.rest).val = bytes false SuilRpcRequest (q.request c.idGenerator) := by
      rw [hrest]
      exact clip_val (by omega)
    obtain ⟨ran, st', hdispatch, hfits, hdirect⟩ :=
      s.dispatch_answer c.state q.method q.params c.idGenerator
    have hexec : s.execute c.state q.junk (clip hb.rest).val = some (ran, st') := by
      rw [hclip, execute_request, hdispatch]
    obtain ⟨resp, hhandle, hresp⟩ :=
      s.handleRequest_responds (m := ⟨clip hb.rest, q.junk⟩) hfits hexec
    rw [hwrite]
    dsimp only
    rw [exchange, hdirect]
    by_cases hopen : c.isopen = true
    · rw [if_pos hopen, if_pos hopen, hhandle]
      cases hresp with
      | read hanswer hreceive => simp [hanswer, hreceive]
      | none hanswer => simp [hanswer]
    · rw [if_neg hopen, if_neg hopen]
  · rw [dif_neg hid, dif_neg hid]

/-- **A session is the methods called one after the other.** -/
theorem session_eq (c : Connection σ) (qs : List Call) : s.session c qs = s.directs c qs := by
  induction qs generalizing c with
  | nil => rfl
  | cons q qs ih =>
      rw [session, directs, call_eq]
      cases s.direct c q with
      | none => rfl
      | some x =>
          simp only [Option.bind_eq_bind, Option.bind_some]
          rw [ih]

end Server

/-! ## Messages -/

theorem reverse_of_le {b : Breadboard} {n : Nat} (h : n ≤ b.rest.length) :
    ∃ b', b.reverse n = .ok (b.rest.take n, b') ∧ b.ReadTo b' (b.rest.drop n) := by
  have hlen : (b.rest.take n).length = n := by rw [List.length_take, Nat.min_eq_left h]
  have hok := reverse_ok (b := b) (e := b.rest.take n) (r := b.rest.drop n)
    (List.take_append_drop n b.rest).symm
  rwa [hlen] at hok

theorem reverse_of_lt {b : Breadboard} {n : Nat} (h : b.rest.length < n) :
    b.reverse n = .error (.outOfBytes n b.rest.length) := by
  have hlen : b.rest.length = b.sink.length - b.H := List.length_drop
  rw [Breadboard.reverse, dif_neg (by omega), hlen]

/-- A read beyond the end of a message. -/
def Short (b : Breadboard) (x : WireFault) : Prop :=
  ∃ m n, x = .outOfBytes m n ∧ n ≤ b.rest.length

/-- Reading parameters follows their layout. -/
theorem readData_params {b : Breadboard} (hlen : b.rest.length < 2 ^ 32) :
    (params b.rest = .overrun ∧ Wire.readData ⟨[], nil_lt⟩ b = .error .stackOverrun) ∨
      (params b.rest = .malformed ∧ ∃ x, Wire.readData ⟨[], nil_lt⟩ b = .error x ∧ Short b x) ∨
        ∃ v b', params b.rest = .data v.val ∧ Wire.readData ⟨[], nil_lt⟩ b = .ok (v, b') := by
  rw [params]
  -- each reading in turn: the number of bytes of the length, the length, the parameters
  by_cases hone : b.rest.length < 1
  · refine .inr (.inl ⟨if_pos hone, _, ?_, 1, b.rest.length, rfl, Nat.le_refl _⟩)
    simp only [Wire.readData, readVarInt, bind, Except.bind, reverse_of_lt hone]
  obtain ⟨b₁, h₁, hr₁⟩ := reverse_of_le (b := b) (n := 1) (Nat.not_lt.mp hone)
  rw [if_neg hone]
  dsimp only
  rw [← hr₁.rest]
  generalize hk : leNat (b.rest.take 1) = k
  have hle₁ : b₁.rest.length ≤ b.rest.length := by
    rw [hr₁.rest, List.length_drop]
    exact Nat.sub_le _ _
  by_cases hshort : b₁.rest.length < k
  · refine .inr (.inl ⟨if_pos hshort, _, ?_, k, b₁.rest.length, rfl, hle₁⟩)
    simp only [Wire.readData, readVarInt, bind, Except.bind, h₁, hk, reverse_of_lt hshort]
  obtain ⟨b₂, h₂, hr₂⟩ := reverse_of_le (b := b₁) (n := k) (Nat.not_lt.mp hshort)
  rw [if_neg hshort]
  -- the length is read to a variable of eight bytes
  by_cases hover : 8 < k
  · refine .inl ⟨if_pos hover, ?_⟩
    simp only [Wire.readData, readVarInt, bind, Except.bind, h₁, hk, h₂, if_pos hover]
  rw [if_neg hover, ← hr₂.rest]
  generalize hn : leNat (b₁.rest.take k) = n
  have hle₂ : b₂.rest.length ≤ b.rest.length := by
    rw [hr₂.rest, List.length_drop]
    exact Nat.le_trans (Nat.sub_le _ _) hle₁
  by_cases hzero : n = 0
  · -- the parameters stay empty
    refine .inr (.inr ⟨⟨[], nil_lt⟩, b₂, ?_, ?_⟩)
    · rw [if_neg (by omega), hzero, List.take_zero]
    · simp only [Wire.readData, readVarInt, bind, Except.bind, h₁, hk, h₂, if_neg hover, hn, hzero,
        ne_eq, not_true_eq_false, if_false]
  by_cases hbytes : b₂.rest.length < n
  · refine .inr (.inl ⟨if_pos hbytes, _, ?_, n, b₂.rest.length, rfl, hle₂⟩)
    simp only [Wire.readData, readVarInt, bind, Except.bind, h₁, hk, h₂, if_neg hover, hn, ne_eq, hzero,
      not_false_eq_true, if_true, reverse_of_lt hbytes]
  obtain ⟨b₃, h₃, -⟩ := reverse_of_le (b := b₂) (n := n) (Nat.not_lt.mp hbytes)
  refine .inr (.inr ⟨clip (b₂.rest.take n), b₃, ?_, ?_⟩)
  · rw [if_neg hbytes, clip_val]
    rw [List.length_take]
    omega
  · simp only [Wire.readData, readVarInt, bind, Except.bind, h₁, hk, h₂, if_neg hover, hn, ne_eq, hzero,
      not_false_eq_true, if_true, h₃]

/-- Reading a request reads its members. -/
theorem read_request (junk : Nat) (b : Breadboard) :
    read junk SuilRpcRequest (SuilRpcRequest.default junk) b = (do
      let (x, b) ← b.reverse 4
      let (y, b) ← b.reverse 4
      let (d, b) ← Wire.readData ⟨[], nil_lt⟩ b
      .ok ((⟨leNat x % 256 ^ 4, int_lt .w32 x⟩, ⟨leNat y % 256 ^ 4, int_lt .w32 y⟩, d, ()), b)) := by
  simp only [Wire.read, readMember, Bool.not_false, Bool.true_or, if_true, bind, Except.bind,
    Ty.default, Width.bytes]
  cases b.reverse 4 with
  | error e => rfl
  | ok x =>
      dsimp only
      cases x.2.reverse 4 with
      | error e => rfl
      | ok y =>
          dsimp only
          cases Wire.readData ⟨[], nil_lt⟩ y.2 with
          | error e => rfl
          | ok d => rfl

/-- Reading a request follows its layout. -/
theorem read_parse (junk : Nat) (m : Wire.Sized) :
    (parse m.val = .overrun ∧
      read junk SuilRpcRequest (SuilRpcRequest.default junk) (board m.val) = .error .stackOverrun) ∨
    (parse m.val = .malformed ∧ ∃ x,
      read junk SuilRpcRequest (SuilRpcRequest.default junk) (board m.val) = .error x ∧
        Short (board m.val) x) ∨
    ∃ v b', parse m.val = .request (ofBits v.2.1) v.2.2.1.val (ofBits v.1) ∧
      read junk SuilRpcRequest (SuilRpcRequest.default junk) (board m.val) = .ok (v, b') := by
  have hboard : (board m.val).rest = m.val := rfl
  rw [parse]
  -- each field in turn: the id, the method and the parameters
  by_cases hfour : m.val.length < 4
  · refine .inr (.inl ⟨if_pos (by omega), _, ?_, 4, m.val.length, rfl, Nat.le_refl _⟩)
    have hshort : (board m.val).rest.length < 4 := hfour
    simp only [read_request, bind, Except.bind, reverse_of_lt hshort]
    rfl
  obtain ⟨b₁, h₁, hr₁⟩ := reverse_of_le (b := board m.val) (n := 4) (Nat.not_lt.mp hfour)
  rw [hboard] at h₁ hr₁
  have hlen₁ : b₁.rest.length = m.val.length - 4 := by rw [hr₁.rest, List.length_drop]
  by_cases height : m.val.length < 8
  · have hshort : b₁.rest.length < 4 := by omega
    refine .inr (.inl ⟨if_pos height, _, ?_, 4, b₁.rest.length, rfl, ?_⟩)
    · simp only [read_request, bind, Except.bind, h₁, reverse_of_lt hshort]
    · rw [hlen₁]
      exact Nat.sub_le _ _
  obtain ⟨b₂, h₂, hr₂⟩ := reverse_of_le (b := b₁) (n := 4) (by omega)
  have hrest : b₂.rest = m.val.drop 8 := by rw [hr₂.rest, hr₁.rest, List.drop_drop]
  rw [hr₁.rest] at h₂
  have hlen₂ : b₂.rest.length ≤ m.val.length := by
    rw [hrest, List.length_drop]
    exact Nat.sub_le _ _
  rw [if_neg height, ← hrest]
  rcases readData_params (Nat.lt_of_le_of_lt hlen₂ m.property) with
    ⟨hparams, hread⟩ | ⟨hparams, x, hread, i, n, hx, hn⟩ | ⟨v, b', hparams, hread⟩
  · refine .inl ⟨by rw [hparams], ?_⟩
    simp only [read_request, bind, Except.bind, h₁, h₂, hread]
  · refine .inr (.inl ⟨by rw [hparams], x, ?_, i, n, hx, Nat.le_trans hn hlen₂⟩)
    simp only [read_request, bind, Except.bind, h₁, h₂, hread]
  · refine .inr (.inr ⟨(⟨leNat (m.val.take 4) % 256 ^ 4, int_lt .w32 _⟩,
      ⟨leNat ((m.val.drop 4).take 4) % 256 ^ 4, int_lt .w32 _⟩, v, ()), b', ?_, ?_⟩)
    · rw [hparams]
      rfl
    · simp only [read_request, bind, Except.bind, h₁, h₂, hread]

namespace Server

variable {σ : Type} (s : Server σ)

/-- What the `try` block does with any message. -/
theorem execute_parse (st : σ) (m : Message) :
    (parse m.req.val = .overrun ∧ s.execute st m.junk m.req.val = none) ∨
    (parse m.req.val = .malformed ∧ ∃ ran, s.execute st m.junk m.req.val = some (ran, st) ∧
      ran.Fits ∧ ran.answer = .raised (str "1 - 1")) ∨
    ∃ method params id, parse m.req.val = .request method params id ∧
      ∃ ran st', s.execute st m.junk m.req.val = some (ran, st') ∧ ran.Fits ∧
        s.answer st method params id = (ran.answer, st') := by
  rcases read_parse m.junk m.req with ⟨hparse, hread⟩ | ⟨hparse, x, hread, i, n, rfl, hn⟩ |
    ⟨v, b', hparse, hread⟩
  · refine .inl ⟨hparse, ?_⟩
    rw [execute, hread]
    rfl
  · have hbytes : NO_BYTES.length = 48 := by decide
    have havailable : AVAILABLE.length = 12 := by decide
    have hlt : n < 10 ^ 10 := Nat.lt_of_le_of_lt hn (Nat.lt_trans m.req.property (by decide))
    have hlen : (twoNumbers NO_BYTES i AVAILABLE n).length ≤
        NO_BYTES.length + AVAILABLE.length + 20 + 10 :=
      length_twoNumbers_le (by decide) (Nat.lt_of_le_of_lt (Nat.mod_le _ _) hlt)
    obtain ⟨w, hw, htext⟩ : ∃ w, what (.outOfBytes i n) = some w ∧
        w.bytes = twoNumbers NO_BYTES i AVAILABLE n := ⟨_, rfl, rfl⟩
    refine .inr (.inl ⟨hparse, .threw w, ?_, trivial, ?_⟩)
    · rw [execute, hread]
      dsimp only
      rw [hw, Option.map_some]
    · apply answer_threw
      rw [htext]
      omega
  · obtain ⟨ran, st', hdispatch, hfits, hanswer⟩ :=
      s.dispatch_answer st (ofBits v.2.1) v.2.2.1.val (ofBits v.1)
    refine .inr (.inr ⟨_, _, _, hparse, ran, st', ?_, hfits, hanswer⟩)
    rw [execute, hread]
    exact hdispatch

/-- The responses are read as these answers, and the connection stays open. -/
def Serves (junk : Nat) (st : σ) (ms : List Message) (as : List Answer) : Prop :=
  ∃ rs, s.serve st ms = some (rs, true) ∧ rs.map (receive junk) = as.map some

/-- The first message of a run. -/
theorem serves_cons_iff (junk : Nat) {st st' : σ} {m : Message} {ran : Ran} (hfits : ran.Fits)
    (hexec : s.execute st m.junk m.req.val = some (ran, st')) (ms : List Message) (as : List Answer) :
    s.Serves junk st (m :: ms) as ↔
      ran.answer ≠ .failed ∧ ∃ as', as = ran.answer :: as' ∧ s.Serves junk st' ms as' := by
  obtain ⟨resp, hhandle, hresp⟩ := s.handleRequest_responds hfits hexec
  simp only [Serves, serve, hhandle, Option.bind_eq_bind, Option.bind_some]
  cases hresp with
  | none hanswer => simp [hanswer]
  | read hanswer hreceive =>
      constructor
      · rintro ⟨rs, hrs, hmap⟩
        obtain ⟨⟨rs', isopen⟩, hserve, heq⟩ := Option.bind_eq_some_iff.mp hrs
        cases heq
        cases as with
        | nil => cases hmap
        | cons a as' =>
            rw [List.map_cons, List.map_cons, hreceive] at hmap
            obtain ⟨ha, has⟩ := List.cons.inj hmap
            cases ha
            exact ⟨hanswer, as', rfl, rs', hserve, has⟩
      · rintro ⟨-, as', rfl, rs', hserve, has⟩
        refine ⟨_, Option.bind_eq_some_iff.mpr ⟨(rs', true), hserve, rfl⟩, ?_⟩
        rw [List.map_cons, List.map_cons, hreceive, has]

/-- **A server answers all messages, whatever bytes they have, exactly when no length byte overruns
and no error of a method is too long; and these are the answers.** -/
theorem serves_expected_iff (junk : Nat) (st : σ) (ms : List Message) (as : List Answer) :
    s.Serves junk st ms as ↔ s.expected st ms = some as := by
  induction ms generalizing st as with
  | nil =>
      rw [expected, Option.some_inj]
      constructor
      · rintro ⟨rs, hserve, hmap⟩
        cases hserve
        rw [List.map_nil] at hmap
        exact (List.map_eq_nil_iff.mp hmap.symm).symm
      · rintro rfl
        exact ⟨[], rfl, rfl⟩
  | cons m ms ih =>
      rw [expected]
      rcases s.execute_parse st m with ⟨hparse, hexec⟩ | ⟨hparse, ran, hexec, hfits, hanswer⟩ |
        ⟨method, params, id, hparse, ran, st', hexec, hfits, hanswer⟩
      · simp [hparse, Serves, serve, handleRequest, hexec]
      · rw [s.serves_cons_iff junk hfits hexec, hparse, hanswer]
        simp only [ih, Option.map_eq_some_iff, ne_eq, reduceCtorEq, not_false_eq_true, true_and]
        constructor
        · rintro ⟨as', rfl, h⟩
          exact ⟨as', h, rfl⟩
        · rintro ⟨as', h, rfl⟩
          exact ⟨as', rfl, h⟩
      · rw [s.serves_cons_iff junk hfits hexec, hparse]
        dsimp only
        rw [hanswer]
        by_cases hfailed : ran.answer = .failed
        · simp [hfailed]
        · simp only [ih, hfailed, Option.map_eq_some_iff, ne_eq, not_false_eq_true, true_and, if_false]
          constructor
          · rintro ⟨as', rfl, h⟩
            exact ⟨as', h, rfl⟩
          · rintro ⟨as', h, rfl⟩
            exact ⟨as', rfl, h⟩

end Server

end Suil.Rpc.SuilRpc
