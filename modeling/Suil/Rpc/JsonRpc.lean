import Mathlib
import Suil.Basic.CString
import Suil.Basic.Exception
import Suil.Lib.Traced

set_option autoImplicit false

/-! # JSON RPC

`JsonRpcServerConnection::handleRequest` and `__JsonRpcClient::transformResponses` (`jsonrpc.h`,
`jsonrpc.cpp`). The server answers the requests of a batch one after the other. A request of another
version is answered twice, since nothing leads out of the loop after the error; and every identifier
is converted to `bool` on its way into a response. The client takes the responses from the back of
the batch.

What `json::encode` and `json::decode` make of the records is left out: a batch is a list of
records here. -/

namespace Suil.Rpc

open Json (Object)

variable {ν σ : Type}

def JSON_RPC_VERSION : Bytes := str "2.0"

def JRPC_API_ERROR : Int := -32000
def JRPC_PARSE_ERROR : Int := -32700
def JRPC_INVALID_REQUEST : Int := -32600
def JRPC_METHOD_NOT_FOUND : Int := -32601
def JRPC_INTERNAL_ERROR : Int := -32603

/-! ## Records -/

structure RpcError where
  code : Int
  message : Bytes
  data : Bytes
  deriving DecidableEq, Repr

/-- `JrpcRequest`; what is `Nullable` is there or not. -/
structure JrpcRequest (ν : Type) where
  jsonrpc : Bytes
  method : Bytes
  id : Option Int
  params : Option (Object ν)

structure JrpcResponse (ν : Type) where
  jsonrpc : Bytes
  result : Option (Object ν)
  error : Option RpcError
  id : Option Int

/-- `JrpcResponse resp;`. -/
def JrpcResponse.new : JrpcResponse ν := ⟨[], none, none, none⟩

/-- `ReturnType`: a code, and a value. -/
abbrev ReturnType (ν : Type) : Type := Int × Object ν

/-- A `Nullable` where an `int` is expected: it converts to `bool`, and there is no other
conversion. -/
def toInt (id : Option Int) : Int := if id.isSome then 1 else 0

/-! ## Server -/

/-- `JsonRpcHandler`: the service has a state, and it returns or throws something with a text. -/
abbrev JsonRpcHandler (ν σ : Type) : Type :=
  σ → Bytes → Object ν → Int → Except Bytes (ReturnType ν) × σ

abbrev ExtensionMethod (ν : Type) : Type := Object ν → Except Bytes (ReturnType ν)

structure JsonRpcServerConnection (ν : Type) where
  extensionMethods : List (Bytes × ExtensionMethod ν)

/-- The connection as it is made, of a library of this version. -/
def JsonRpcServerConnection.new (version : Bytes) : JsonRpcServerConnection ν :=
  ⟨[(str "rpc_Version", fun _ => .ok (0, some (.string version)))]⟩

/-- `RpcError err{code, message, (String) ret}`. -/
def returnedError (code : Int) (message : Bytes) (ret : Object ν) : Except Bytes RpcError :=
  match ret.toStr with
  | .error f => .error f.what
  | .ok s => .ok ⟨code, message, s.bytes⟩

/-- The `try` block around a call: the code decides. -/
def complete (resp : JrpcResponse ν) (code : Int) (returned : Bytes)
    (out : Except Bytes (ReturnType ν)) : Except Bytes (JrpcResponse ν) := do
  let (err, ret) ← out
  if err ≠ 0 then
    let e ← returnedError code returned ret
    .ok { resp with error := some e }
  else .ok { resp with result := some ret }

/-- The block with its `catch (...)`. -/
def completeWith (resp : JrpcResponse ν) (code : Int) (returned thrown : Bytes)
    (out : Except Bytes (ReturnType ν)) : JrpcResponse ν :=
  match complete resp code returned out with
  | .ok resp => resp
  | .error what => { resp with error := some ⟨code, thrown, what⟩ }

/-- A call of a method of the service or of an extension. -/
structure Executed (ν : Type) where
  method : Bytes
  params : Object ν

namespace JsonRpcServerConnection

/-- `handle_WithHandler`. -/
def handle_WithHandler (h : JsonRpcHandler ν σ) (s : σ) (method : Bytes) (params : Object ν)
    (id : Int) : JrpcResponse ν × σ :=
  let resp : JrpcResponse ν := { JrpcResponse.new with jsonrpc := JSON_RPC_VERSION, id := some id }
  let (out, s) := h s method params id
  (completeWith resp JRPC_API_ERROR (str "ServiceReturnedError") (str "UnhandledError") out, s)

/-- `handle_Extension`, and whether there was a method to call. -/
def handle_Extension (c : JsonRpcServerConnection ν) (method : Bytes) (params : Object ν)
    (id : Int) : JrpcResponse ν × Bool :=
  let resp : JrpcResponse ν := { JrpcResponse.new with jsonrpc := JSON_RPC_VERSION, id := some id }
  match c.extensionMethods.lookup method with
  | some extMethod =>
      (completeWith resp JRPC_INTERNAL_ERROR (str "InternalError") (str "InternalError")
        (extMethod params), true)
  | none =>
      ({ resp with error := some ⟨JRPC_METHOD_NOT_FOUND, str "MethodNotFound",
          str "method '" ++ method ++ str "' is not an extension method"⟩ }, false)

/-- What one turn of the loop over the requests pushes and calls. -/
structure Turn (ν : Type) where
  resps : List (JrpcResponse ν)
  calls : List (Executed ν)

/-- The response to another version; the loop goes on behind it. -/
def refusals (req : JrpcRequest ν) : List (JrpcResponse ν) :=
  if req.jsonrpc ≠ JSON_RPC_VERSION then
    [{ JrpcResponse.new with
        jsonrpc := JSON_RPC_VERSION
        error := some ⟨JRPC_INVALID_REQUEST, str "InvalidRequest",
          str "Unsupported JSON RPC version '" ++ req.jsonrpc ++ str "'"⟩ }]
  else []

/-- One turn of the loop. -/
def turn (c : JsonRpcServerConnection ν) (h : JsonRpcHandler ν σ) (s : σ) (req : JrpcRequest ν) :
    Turn ν × σ :=
  let params := req.params.getD (some .null)
  let obj := if params.empty then some .null else params
  if req.method.take 4 = str "rpc_" then
    let (resp, called) := c.handle_Extension req.method obj (toInt req.id)
    (⟨refusals req ++ [resp], if called then [⟨req.method, obj⟩] else []⟩, s)
  else
    let (resp, s) := handle_WithHandler h s req.method obj (toInt req.id)
    (⟨refusals req ++ [resp], [⟨req.method, obj⟩]⟩, s)

/-- The loop. -/
def turns (c : JsonRpcServerConnection ν) (h : JsonRpcHandler ν σ) :
    σ → List (JrpcRequest ν) → List (Turn ν) × σ
  | s, [] => ([], s)
  | s, req :: reqs =>
      let (t, s) := c.turn h s req
      let (ts, s) := turns c h s reqs
      (t :: ts, s)

/-- A batch that has been handled: its reply, and the turns that made it. -/
structure Handled (ν σ : Type) where
  resps : List (JrpcResponse ν)
  turns : List (Turn ν)
  state : σ

/-- `handleRequest`, of what `parse_Request` returns and of the requests it has decoded. -/
def handleRequest (c : JsonRpcServerConnection ν) (h : JsonRpcHandler ν σ) (s : σ)
    (parseStatus : Bytes) (reqs : List (JrpcRequest ν)) : Handled ν σ :=
  if parseStatus ≠ [] then
    ⟨[{ JrpcResponse.new with
        jsonrpc := JSON_RPC_VERSION
        error := some ⟨JRPC_PARSE_ERROR, str "ParseError", parseStatus⟩ }], [], s⟩
  else
    let (ts, s) := c.turns h s reqs
    ⟨ts.flatMap Turn.resps, ts, s⟩

/-! ## What a reply is for -/

/-- The response carries a result or an error. -/
def Exclusive (resp : JrpcResponse ν) : Prop := resp.result.isSome ≠ resp.error.isSome

/-- Each request has its response, in order; one of another version is refused without a call. -/
structure Answers (reqs : List (JrpcRequest ν)) (out : Handled ν σ) : Prop where
  length : out.resps.length = reqs.length
  each : ∀ i (hi : i < reqs.length), ∃ resp, out.resps[i]? = some resp ∧ resp.id = reqs[i].id ∧
    Exclusive resp
  refused : ∀ i (hi : i < reqs.length), reqs[i].jsonrpc ≠ JSON_RPC_VERSION →
    (∃ resp, out.resps[i]? = some resp ∧ resp.error.isSome) ∧
      ∃ t, out.turns[i]? = some t ∧ t.calls = []

/-! ## One turn -/

private theorem completeWith_spec {resp : JrpcResponse ν} (hresult : resp.result = none)
    (herror : resp.error = none) (code : Int) (returned thrown : Bytes)
    (out : Except Bytes (ReturnType ν)) :
    (completeWith resp code returned thrown out).id = resp.id ∧
      Exclusive (completeWith resp code returned thrown out) := by
  unfold completeWith Exclusive
  cases hbody : complete resp code returned out with
  | error what =>
      rw [hresult]
      exact ⟨rfl, Bool.false_ne_true⟩
  | ok resp' =>
      obtain ⟨⟨err, ret⟩, -, hbody⟩ := Except.ok_of_bind hbody
      simp only at hbody
      split_ifs at hbody
      · obtain ⟨e, -, he⟩ := Except.ok_of_bind hbody
        cases he
        rw [hresult]
        exact ⟨rfl, Bool.false_ne_true⟩
      · cases hbody
        rw [herror]
        exact ⟨rfl, fun h => Bool.noConfusion h⟩

/-- A response of its own for each request. -/
def Paired (req : JrpcRequest ν) (resp : JrpcResponse ν) : Prop :=
  resp.id = some (toInt req.id) ∧ Exclusive resp

private theorem handler_paired (h : JsonRpcHandler ν σ) (s : σ) (req : JrpcRequest ν)
    (obj : Object ν) :
    Paired req (handle_WithHandler h s req.method obj (toInt req.id)).1 :=
  completeWith_spec rfl rfl _ _ _ _

private theorem extension_paired (c : JsonRpcServerConnection ν) (req : JrpcRequest ν)
    (obj : Object ν) : Paired req (c.handle_Extension req.method obj (toInt req.id)).1 := by
  unfold handle_Extension
  cases c.extensionMethods.lookup req.method with
  | none => exact ⟨rfl, Bool.false_ne_true⟩
  | some extMethod => exact completeWith_spec rfl rfl _ _ _ _

/-- What a turn ends with. -/
def Concludes (req : JrpcRequest ν) (t : Turn ν) : Prop :=
  ∃ resp, t.resps = refusals req ++ [resp] ∧ Paired req resp

private theorem turn_concludes (c : JsonRpcServerConnection ν) (h : JsonRpcHandler ν σ) (s : σ)
    (req : JrpcRequest ν) : Concludes req (c.turn h s req).1 := by
  unfold turn
  generalize hobj : (if (req.params.getD (some .null)).empty then some .null
    else req.params.getD (some .null) : Object ν) = obj
  simp only [hobj]
  by_cases hsystem : req.method.take 4 = str "rpc_"
  · rw [if_pos hsystem]
    exact ⟨_, rfl, extension_paired c req obj⟩
  · rw [if_neg hsystem]
    exact ⟨_, rfl, handler_paired h s req obj⟩

/-! ## The whole batch -/

private theorem turns_conclude (c : JsonRpcServerConnection ν) (h : JsonRpcHandler ν σ) (s : σ)
    (reqs : List (JrpcRequest ν)) : List.Forall₂ Concludes reqs (c.turns h s reqs).1 := by
  induction reqs generalizing s with
  | nil => exact .nil
  | cons req reqs ih => exact .cons (turn_concludes c h s req) (ih _)

private theorem length_refusals (req : JrpcRequest ν) :
    (refusals req).length = if req.jsonrpc = JSON_RPC_VERSION then 0 else 1 := by
  unfold refusals
  by_cases hversion : req.jsonrpc = JSON_RPC_VERSION
  · rw [if_neg (not_not.mpr hversion), if_pos hversion]
    rfl
  · rw [if_pos hversion, if_neg hversion]
    rfl

private theorem length_le_flatMap {reqs : List (JrpcRequest ν)} {ts : List (Turn ν)}
    (h : List.Forall₂ Concludes reqs ts) : reqs.length ≤ (ts.flatMap Turn.resps).length := by
  induction h with
  | nil => exact Nat.le_refl _
  | cons hturn _ ih =>
      obtain ⟨resp, hresps, -⟩ := hturn
      rw [List.flatMap_cons, hresps]
      simp only [List.length_append, List.length_cons, List.length_nil]
      omega

/-- **There are as many responses as requests when all are of this version**, and then they belong
to them in order. -/
private theorem length_flatMap_iff {reqs : List (JrpcRequest ν)} {ts : List (Turn ν)}
    (h : List.Forall₂ Concludes reqs ts) :
    ((ts.flatMap Turn.resps).length = reqs.length ↔
        ∀ req ∈ reqs, req.jsonrpc = JSON_RPC_VERSION) ∧
      ((ts.flatMap Turn.resps).length = reqs.length →
        List.Forall₂ Paired reqs (ts.flatMap Turn.resps)) := by
  induction h with
  | nil => exact ⟨iff_of_true rfl fun _ hreq => absurd hreq List.not_mem_nil, fun _ => .nil⟩
  | @cons req t reqs ts hturn hrest ih =>
      obtain ⟨resp, hresps, hpaired⟩ := hturn
      have hle := length_le_flatMap hrest
      have hrefusals := length_refusals req
      rw [List.forall_mem_cons, ← ih.1, List.flatMap_cons, hresps, List.length_append,
        List.length_append, List.length_cons, List.length_cons, List.length_nil]
      by_cases hversion : req.jsonrpc = JSON_RPC_VERSION
      · rw [if_pos hversion] at hrefusals
        refine ⟨?_, ?_⟩
        · rw [hrefusals]
          constructor
          · intro hlen
            exact ⟨hversion, by omega⟩
          · rintro ⟨-, hlen⟩
            omega
        · intro hlen
          rw [List.length_eq_zero_iff.mp hrefusals]
          exact .cons hpaired (ih.2 (by omega))
      · rw [if_neg hversion] at hrefusals
        refine ⟨?_, ?_⟩
        · rw [hrefusals]
          constructor
          · intro hlen
            omega
          · exact fun hboth => absurd hboth.1 hversion
        · intro hlen
          omega

/-- **The reply answers the batch exactly when every request is of version 2.0 and has the
identifier 1**: another version is answered twice, and another identifier is converted to 1 or, if
it is null, to 0. -/
theorem answers_iff (c : JsonRpcServerConnection ν) (h : JsonRpcHandler ν σ) (s : σ)
    (reqs : List (JrpcRequest ν)) :
    Answers reqs (c.handleRequest h s [] reqs) ↔
      ∀ req ∈ reqs, req.jsonrpc = JSON_RPC_VERSION ∧ req.id = some 1 := by
  have hturns := turns_conclude c h s reqs
  have hresps : (c.handleRequest h s [] reqs).resps = (c.turns h s reqs).1.flatMap Turn.resps := rfl
  obtain ⟨hversions, hpaired⟩ := length_flatMap_iff hturns
  rw [← hresps] at hversions hpaired
  constructor
  · intro hanswers req hreq
    refine ⟨hversions.mp hanswers.length req hreq, ?_⟩
    obtain ⟨i, hi, rfl⟩ := List.getElem_of_mem hreq
    obtain ⟨resp, hresp, hid, -⟩ := hanswers.each i hi
    obtain ⟨hlt, rfl⟩ := List.getElem?_eq_some_iff.mp hresp
    -- the identifier of the response is what `bool` makes of the one of the request
    have hconverted := (List.forall₂_iff_get.mp (hpaired hanswers.length)).2 i hi hlt
    have hsome : reqs[i].id = some (toInt reqs[i].id) := hid.symm.trans hconverted.1
    rw [hsome]
    rw [hsome, toInt]
    rfl
  · intro hall
    have hlength := hversions.mpr fun req hreq => (hall req hreq).1
    refine ⟨hlength, ?_, ?_⟩
    · intro i hi
      have hlt : i < (c.handleRequest h s [] reqs).resps.length := hlength ▸ hi
      have hconverted := (List.forall₂_iff_get.mp (hpaired hlength)).2 i hi hlt
      refine ⟨_, List.getElem?_eq_getElem hlt, ?_, hconverted.2⟩
      have hid : reqs[i].id = some 1 := (hall _ (List.getElem_mem hi)).2
      calc ((c.handleRequest h s [] reqs).resps[i]).id = some (toInt reqs[i].id) := hconverted.1
        _ = reqs[i].id := by rw [hid]; rfl
    · intro i hi hversion
      exact absurd (hall _ (List.getElem_mem hi)).1 hversion

/-! ## A request of version 1.0 and one with the identifier 7 -/

/-- A service that answers every call with `true`. -/
def agreeing : JsonRpcHandler Empty Unit := fun s _ _ _ => (.ok (0, some (.bool true)), s)

def pingRequest (version : Bytes) (id : Int) : JrpcRequest Empty :=
  ⟨version, str "ping", some id, none⟩

/-- The first is refused and executed, and the second is answered under another identifier. -/
theorem not_answers_ping :
    ((new []).handleRequest agreeing () [] [pingRequest (str "1.0") 1]).resps.map
        (fun resp => (resp.id, resp.error.isSome)) = [(none, true), (some 1, false)] ∧
      ((new []).handleRequest agreeing () [] [pingRequest (str "1.0") 1]).turns.map
        (fun t => t.calls.map Executed.method) = [[str "ping"]] ∧
      ¬ Answers [pingRequest (str "1.0") 1]
        ((new []).handleRequest agreeing () [] [pingRequest (str "1.0") 1]) ∧
      ((new []).handleRequest agreeing () [] [pingRequest (str "2.0") 7]).resps.map
        JrpcResponse.id = [some 1] ∧
      ¬ Answers [pingRequest (str "2.0") 7]
        ((new []).handleRequest agreeing () [] [pingRequest (str "2.0") 7]) := by
  refine ⟨by decide, by decide, ?_, by decide, ?_⟩
  · intro h
    exact absurd h.length (by decide)
  · intro h
    obtain ⟨resp, hresp, hid, -⟩ := h.each 0 (by decide)
    have hids : ((new []).handleRequest agreeing () [] [pingRequest (str "2.0") 7]).resps[0]?.map
        JrpcResponse.id = some (some 1) := by decide
    rw [hresp, Option.map_some, hid] at hids
    exact absurd hids (by decide)

end JsonRpcServerConnection

/-! ## Client -/

namespace JsonRpcClient

/-- `pack`: the requests of a batch, numbered from `idGenerator` on. -/
def pack (idGenerator : Int) : List (Bytes × Object ν) → List (JrpcRequest ν)
  | [] => []
  | (method, params) :: calls =>
      ⟨JSON_RPC_VERSION, method, some idGenerator,
        if params.empty then none else some params⟩ :: pack (idGenerator + 1) calls

/-- The result or the error of a response that is popped. `Exception::create` takes an enumerator for a
part of the text. -/
def transform (resp : JrpcResponse ν) : Except Exception (ReturnType ν) :=
  if resp.error.isSome && resp.result.isSome then
    .error (.create 0 [showInt JRPC_INTERNAL_ERROR, str "Response \x7bid=", showInt (toInt resp.id),
      str "\x7d is invalid because its payload has a result and an error"])
  else
    match resp.error with
    | some err =>
        if err.code ≥ -32099 && err.code ≤ JRPC_API_ERROR then
          .ok (err.code,
            some (.string (str "API_ERROR-" ++ showInt err.code ++ str " " ++ err.data)))
        else
          .error (.create err.code
            [streamed (str "internal server error \x7b" ++ err.message ++ str ", " ++ err.data ++
              str "\x7d")])
    | none => .ok (0, resp.result.getD (some .null))

/-- The loop over the responses, of which the last comes first. -/
def transformLoop (res : List (ReturnType ν)) :
    List (JrpcResponse ν) → Except Exception (List (ReturnType ν))
  | [] => .ok res
  | resp :: resps => do
      let r ← transform resp
      transformLoop (res ++ [r]) resps

/-- `transformResponses`. -/
def transformResponses (resps : List (JrpcResponse ν)) : Except Exception (List (ReturnType ν)) :=
  transformLoop [] resps.reverse

/-! ## What a client is for -/

/-- The response ends the whole call: it has a result and an error, or an error that no service
returns. -/
def Throws (resp : JrpcResponse ν) : Prop :=
  resp.error.isSome ∧ (resp.result.isSome ∨
    ∃ err, resp.error = some err ∧ ¬ (-32099 ≤ err.code ∧ err.code ≤ JRPC_API_ERROR))

/-- The result or the error in a response. -/
def outcome (resp : JrpcResponse ν) : ReturnType ν :=
  match resp.error with
  | some err =>
      (err.code, some (.string (str "API_ERROR-" ++ showInt err.code ++ str " " ++ err.data)))
  | none => (0, resp.result.getD (some .null))

/-- One response for each request, with its identifier. -/
def Matching (reqs : List (JrpcRequest ν)) (resps : List (JrpcResponse ν)) : Prop :=
  (resps.map JrpcResponse.id).Perm (reqs.map JrpcRequest.id)

/-- What is returned is as long as the batch, and in its order. -/
def Delivers (reqs : List (JrpcRequest ν)) (resps : List (JrpcResponse ν)) : Prop :=
  ∀ rs, transformResponses resps = .ok rs → rs.length = reqs.length ∧
    ∀ i (hi : i < reqs.length), ∃ resp ∈ resps, resp.id = reqs[i].id ∧ rs[i]? = some (outcome resp)

/-- The response to the `i`-th request has the outcome of the `i`-th response from the end. -/
def Mirrored (reqs : List (JrpcRequest ν)) (resps : List (JrpcResponse ν)) : Prop :=
  ∀ i (hi : i < reqs.length), ∀ resp ∈ resps, resp.id = reqs[i].id →
    resps.reverse[i]?.map outcome = some (outcome resp)

/-! ## Results -/

private theorem transform_of_throws {resp : JrpcResponse ν} (h : Throws resp) :
    ∃ e, transform resp = .error e := by
  obtain ⟨herror, hresult⟩ := h
  unfold transform
  by_cases hboth : (resp.error.isSome && resp.result.isSome) = true
  · rw [if_pos hboth]
    exact ⟨_, rfl⟩
  · rw [if_neg hboth]
    rcases hresult with hresult | ⟨err, herr, hcode⟩
    · exact absurd (Bool.and_eq_true_iff.mpr ⟨herror, hresult⟩) hboth
    · rw [herr]
      simp only [ge_iff_le, Bool.and_eq_true, decide_eq_true_eq, if_neg hcode]
      exact ⟨_, rfl⟩

private theorem transform_of_not_throws {resp : JrpcResponse ν} (h : ¬ Throws resp) :
    transform resp = .ok (outcome resp) := by
  unfold transform outcome
  cases herr : resp.error with
  | none => rfl
  | some err =>
      have hnone : resp.result.isSome = false := by
        by_contra hresult
        rw [Bool.not_eq_false] at hresult
        exact h ⟨by rw [herr]; rfl, Or.inl hresult⟩
      have hcode : -32099 ≤ err.code ∧ err.code ≤ JRPC_API_ERROR := by
        by_contra hcode
        exact h ⟨by rw [herr]; rfl, Or.inr ⟨err, herr, hcode⟩⟩
      simp only [hnone, Bool.and_false, Bool.false_eq_true, if_false, ge_iff_le, Bool.and_eq_true,
        decide_eq_true_eq, if_pos hcode]

private theorem transformLoop_eq {resps : List (JrpcResponse ν)} (h : ∀ resp ∈ resps, ¬ Throws resp)
    (res : List (ReturnType ν)) : transformLoop res resps = .ok (res ++ resps.map outcome) := by
  induction resps generalizing res with
  | nil => rw [transformLoop, List.map_nil, List.append_nil]
  | cons resp resps ih =>
      obtain ⟨hresp, hresps⟩ := List.forall_mem_cons.mp h
      rw [transformLoop, transform_of_not_throws hresp]
      show transformLoop (res ++ [outcome resp]) resps = _
      rw [ih hresps, List.map_cons, List.append_assoc]
      rfl

private theorem transformLoop_throws {resps : List (JrpcResponse ν)} {resp : JrpcResponse ν}
    (hmem : resp ∈ resps) (h : Throws resp) (res : List (ReturnType ν)) :
    ∃ e, transformLoop res resps = .error e := by
  induction resps generalizing res with
  | nil => exact absurd hmem List.not_mem_nil
  | cons first resps ih =>
      rw [transformLoop]
      by_cases hfirst : Throws first
      · obtain ⟨e, he⟩ := transform_of_throws hfirst
        rw [he]
        exact ⟨e, rfl⟩
      · rw [transform_of_not_throws hfirst]
        rcases List.mem_cons.mp hmem with rfl | hmem
        · exact absurd h hfirst
        · exact ih hmem _

/-- **Without a response that throws, the outcomes are returned from the last to the first.** -/
theorem transformResponses_eq {resps : List (JrpcResponse ν)} (h : ∀ resp ∈ resps, ¬ Throws resp) :
    transformResponses resps = .ok (resps.reverse.map outcome) := by
  rw [transformResponses, transformLoop_eq fun resp hresp => h resp (List.mem_reverse.mp hresp),
    List.nil_append]

/-! ## Identifiers -/

private theorem pack_ids (k : Int) (calls : List (Bytes × Object ν)) :
    (pack k calls).map JrpcRequest.id =
      (List.range calls.length).map fun i : Nat => some (k + i) := by
  induction calls generalizing k with
  | nil => rfl
  | cons call calls ih =>
      rw [pack, List.map_cons, ih, List.length_cons, List.range_succ_eq_map, List.map_cons,
        List.map_map]
      congr 1
      · simp
      · apply List.map_congr_left
        intro i _
        show some (k + 1 + (i : Int)) = some (k + ((i + 1 : Nat) : Int))
        congr 1
        omega

private theorem pack_nodup (k : Int) (calls : List (Bytes × Object ν)) :
    ((pack k calls).map JrpcRequest.id).Nodup := by
  rw [pack_ids]
  refine List.nodup_range.map ?_
  intro i j hij
  have : k + (i : Int) = k + (j : Int) := Option.some.inj hij
  omega

/-- A response is found by its identifier. -/
private theorem eq_of_id {resps : List (JrpcResponse ν)}
    (hnodup : (resps.map JrpcResponse.id).Nodup) {r r' : JrpcResponse ν} (hr : r ∈ resps)
    (hr' : r' ∈ resps) (hid : r.id = r'.id) : r = r' :=
  List.inj_on_of_nodup_map hnodup hr hr' hid

/-- **A batch is delivered exactly when its reply throws or is mirrored**: the responses are taken
from the back. -/
theorem delivers_iff (k : Int) (calls : List (Bytes × Object ν)) (resps : List (JrpcResponse ν))
    (hmatch : Matching (pack k calls) resps) :
    Delivers (pack k calls) resps ↔
      (∃ resp ∈ resps, Throws resp) ∨ Mirrored (pack k calls) resps := by
  have hnodup : (resps.map JrpcResponse.id).Nodup := hmatch.nodup_iff.mpr (pack_nodup k calls)
  have hlength : resps.length = (pack k calls).length := by
    rw [← List.length_map JrpcResponse.id, hmatch.length_eq, List.length_map]
  generalize pack k calls = reqs at hmatch hlength
  by_cases hthrows : ∃ resp ∈ resps, Throws resp
  · refine iff_of_true ?_ (Or.inl hthrows)
    obtain ⟨resp, hmem, hresp⟩ := hthrows
    intro rs hrs
    obtain ⟨e, he⟩ := transformLoop_throws (List.mem_reverse.mpr hmem) hresp []
    rw [transformResponses, he] at hrs
    nomatch hrs
  · have hnone : ∀ resp ∈ resps, ¬ Throws resp := fun resp hmem h => hthrows ⟨resp, hmem, h⟩
    have hresult := transformResponses_eq hnone
    constructor
    · intro hdelivers
      right
      intro i hi resp hmem hid
      obtain ⟨-, hentries⟩ := hdelivers _ hresult
      obtain ⟨resp', hmem', hid', hentry⟩ := hentries i hi
      obtain rfl := eq_of_id hnodup hmem hmem' (hid.trans hid'.symm)
      rw [← hentry, List.getElem?_map]
    · rintro (h | hmirrored)
      · exact absurd h hthrows
      · intro rs hrs
        rw [hresult] at hrs
        cases hrs
        refine ⟨by rw [List.length_map, List.length_reverse, hlength], ?_⟩
        intro i hi
        -- each request has a response, which the mirror of the reply agrees with
        have hmem : reqs[i].id ∈ resps.map JrpcResponse.id :=
          hmatch.mem_iff.mpr (List.mem_map_of_mem (List.getElem_mem hi))
        obtain ⟨resp, hresp, hid⟩ := List.mem_map.mp hmem
        exact ⟨resp, hresp, hid, by rw [List.getElem?_map, hmirrored i hi resp hresp hid]⟩

/-! ## Two calls -/

def twoCalls : List (Bytes × Object Empty) := [(str "open", some .null), (str "close", some .null)]

/-- The reply of a server to two calls, in their order. -/
def twoResponses (first second : Bool) : List (JrpcResponse Empty) :=
  [⟨JSON_RPC_VERSION, some (some (.bool first)), none, some 0⟩,
    ⟨JSON_RPC_VERSION, some (some (.bool second)), none, some 1⟩]

theorem delivers_twice : Delivers (pack 0 twoCalls) (twoResponses true true) ↔
    (∃ resp ∈ twoResponses true true, Throws resp) ∨
      Mirrored (pack 0 twoCalls) (twoResponses true true) :=
  delivers_iff 0 twoCalls (twoResponses true true) (List.Perm.refl [some 0, some 1])

/-- The result of the second call is returned as the one of the first. -/
theorem not_delivers_reversed : Matching (pack 0 twoCalls) (twoResponses true false) ∧
    (transformResponses (twoResponses true false)).toOption.map
      (fun rs => rs.map fun r => (r.1, match r.2 with | some (.bool b) => b | _ => false)) =
        some [(0, false), (0, true)] ∧
    ¬ Delivers (pack 0 twoCalls) (twoResponses true false) := by
  refine ⟨List.Perm.refl [some 0, some 1], by decide, ?_⟩
  intro h
  obtain ⟨resp, hmem, hid, hentry⟩ := (h [(0, some (.bool false)), (0, some (.bool true))] rfl).2 0
    (by decide)
  rcases List.mem_pair.mp hmem with rfl | rfl
  · cases hentry
  · cases hid

end JsonRpcClient

end Suil.Rpc
