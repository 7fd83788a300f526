import Suil.Basic.CString
import Suil.Lib.Scope
import Suil.Scc.Program

set_option autoImplicit false

/-! # Calls of generated services

What the printed handlers and clients do. A name means what is nearest to it: a local variable, a
parameter of the function, a member of the class or of its bases; a type is not found where a
variable has its name. What is not found, or is not what the statement needs, has no meaning. The
names outside of functions and classes are those of the library, and the values of the parameters
are what is written into the board and into the object for them.

`agrees_iff` says for which services every call of a client reaches the method of that name with
the arguments of the call. -/

namespace Suil.Scc

variable {V : Type}

/-! ## Names -/

/-- The names in the text of a type that a variable can hide: not those next to a `::`. -/
def exposed : Bool → List Token → List Bytes
  | _, [] => []
  | _, .ident _ :: .scope :: ts => exposed true ts
  | qualified, .ident n :: ts => if qualified then exposed false ts else n :: exposed false ts
  | _, .scope :: ts => exposed true ts
  | _, _ :: ts => exposed false ts

/-- What a name inside of a function stands for. -/
inductive Entity (V : Type) where
  | var (ty : TypeText) (v : Option V)
  | params
  | results
  | other

abbrev Names (V : Type) : Type := Scope Bytes (Entity V)

/-- No name in the text of a type is hidden. -/
def sees (s : Names V) (ty : TypeText) : Bool := (exposed false ty).all fun n => (s.find n).isNone

def isParams : Entity V → Option Unit
  | .params => some ()
  | _ => none

def isResults : Entity V → Option Unit
  | .results => some ()
  | _ => none

/-- The type and the value of a variable. -/
def item : Entity V → Option (TypeText × V)
  | .var ty (some v) => some (ty, v)
  | _ => none

structure Class where
  name : Bytes
  members : List Bytes

/-- The bases that have a member of a name; a class is a member of itself. -/
def owners (bases : List Class) (n : Bytes) : List Class :=
  bases.filter fun c => n = c.name ∨ n ∈ c.members

/-- The class whose member function is found under a name; nothing when the name is one of the
constructor or is found in more than one base. -/
def findMember (self : Class) (bases : List Class) (n : Bytes) : Option Bytes :=
  if n = self.name then none
  else if n ∈ self.members then some self.name
  else
    match owners bases n with
    | [c] => if n = c.name then none else some c.name
    | _ => none

/-- The members of a class, which hide types in its functions. -/
def memberNames (self : Class) (bases : List Class) : List Bytes :=
  self.members ++ bases.flatMap (·.members)

/-- What is around the block of a member function: its parameters and the members of the class. -/
def around (names : List (Bytes × Entity V)) (self : Class) (bases : List Class) :
    List (Bytes × Entity V) :=
  names ++ (memberNames self bases).map fun n => (n, .other)

/-! ## Handlers -/

/-- What a case of a handler works on; `wire` is the rest of the board, and `calls` are those of the
implementation. -/
structure Frame (V : Type) where
  scope : Names V
  wire : List (TypeText × V)
  object : List (Bytes × V)
  calls : List (Bytes × List V)

section

variable (word implements : Bytes → Bool)

/-- A call of the implementation. -/
def Frame.invoke (f : Frame V) (m : Bytes) (args : List Arg) : Option (Frame V) :=
  if implements m then
    (args.mapM fun a => (f.scope.find a.name).bind item).map fun vs =>
      { f with calls := f.calls ++ [(m, vs.map (·.2))] }
  else none

/-- A statement of a case. No variable has one of the words that are no names. -/
def Frame.exec (f : Frame V) : CaseStmt → Option (Frame V)
  | .decl ty x =>
      if sees f.scope ty ∧ !word x then
        (f.scope.declare x (.var ty none)).map fun s => { f with scope := s }
      else none
  | .read x => do
      (f.scope.find (str "params")).bind isParams
      match f.scope.find x, f.wire with
      | some (.var ty _), (ty', v) :: wire =>
          if ty' = ty then
            some { f with scope := f.scope.assign x (.var ty (some v)), wire := wire }
          else none
      | _, _ => none
  | .member ty x =>
      if sees f.scope ty ∧ !word x then do
        let s ← f.scope.declare x (.var ty none)
        -- the cast and the object are read where the variable is there already
        if sees s ty then
          (s.find (str "params")).bind isParams
          let v ← f.object.lookup x
          some { f with scope := s.assign x (.var ty (some v)) }
        else none
      else none
  | .run m args => f.invoke implements m args
  | .keep ty m args =>
      if sees f.scope ty then do
        let s ← f.scope.declare (str "tmp") (.var ty none)
        Frame.invoke implements { f with scope := s } m args
      else none
  | .push => do
      (f.scope.find (str "results")).bind isResults
      match f.scope.find (str "tmp") with
      | some (.var _ _) => some f
      | _ => none
  | .done => if (f.scope.find (str "Result")).isNone then some f else none
  | .answer m args => f.invoke implements m args
  | .answerNull => some f
  | .refuse =>
      if (f.scope.find (str "Result")).isNone ∧ (f.scope.find (str "SRPC_METHOD_NOT_FOUND")).isNone
      then (f.scope.declare (str "res") .other).map fun s => { f with scope := s }
      else none
  | .explain | .giveBack => (f.scope.find (str "res")).map fun _ => f
  | .unknown => if (f.scope.find (str "JRPC_METHOD_NOT_FOUND")).isNone then some f else none

/-- A case; all that was sent has been read, and the implementation was called once. -/
def Frame.call (f : Frame V) (body : List CaseStmt) : Option (Bytes × List V) := do
  let f ← body.foldlM (Frame.exec word implements) f
  match f.calls, f.wire with
  | [c], [] => some c
  | _, _ => none

end

/-! ## Clients -/

/-- A request with the parameters in the board or in the object. -/
structure Request (V : Type) where
  method : Bytes
  items : List (TypeText × V)
  object : List (Bytes × V)

/-- What a method of a client works on. -/
structure Client (V : Type) where
  scope : Names V
  object : List (Bytes × V)
  sent : Option (Request V)

section

variable (word : Bytes → Bool) (calls : Bool)

/-- The head of a method, with the values of its parameters. -/
def enter (s : Names V) (a : Parameter × V) : Option (Names V) :=
  if sees s a.1.ParameterType ∧ !word a.1.Name then
    s.declare a.1.Name (.var a.1.ParameterType (some a.2))
  else none

/-- A statement of a client; `calls` says whether `Ego.call` is the one of the library. -/
def Client.exec (c : Client V) : ClientStmt → Option (Client V)
  | .call ty m args =>
      if calls ∧ sees c.scope ty then
        (args.mapM fun x => (c.scope.find x).bind item).map fun items =>
          { c with sent := some ⟨m, items, []⟩ }
      else none
  | .pack args => do
      let s ← c.scope.declare (str "params") .params
      let vs ← args.mapM fun a => (s.find a.2).bind item
      some { c with scope := s, object := (args.map (·.1)).zip (vs.map (·.2)) }
  | .send m =>
      if calls then do
        (c.scope.find (str "params")).bind isParams
        let s ← c.scope.declare (str "ret") .other
        some { c with scope := s, sent := some ⟨m, [], c.object⟩ }
      else none
  | .check => if (c.scope.find (str "String")).isNone then some c else none
  | .result ty => if sees c.scope ty then some c else none

/-- The request of a method of a client. -/
def Client.request (outer : List (Bytes × Entity V)) (m : Method) (body : List ClientStmt)
    (args : List V) : Option (Request V) := do
  let s ← (m.Params.zip args).foldlM (enter word) ⟨[], outer⟩
  let c ← body.foldlM (Client.exec calls) ⟨s, [], none⟩
  c.sent

end

/-! ## Suil RPC -/

section

variable (svc : RpcType)

/-- The implementation of a service. -/
def implementation : Class := ⟨svc.Name, svc.Methods.map (·.Name)⟩

def suilHandler : Class := ⟨str "s" ++ svc.Name ++ str "Handler", []⟩

/-- `SuilRpcHandler`. -/
def SUIL_RPC_HANDLER : Class :=
  ⟨str "SuilRpcHandler", [str "getMethodsRef", str "getMethods", str "methodsMeta"]⟩

def suilBases : List Class := [implementation svc, SUIL_RPC_HANDLER]

/-- The constructor of the handler finds what it constructs and where it registers the methods. -/
def registers : Bool :=
  (owners (suilBases svc) svc.Name).length = 1 ∧
    findMember (suilHandler svc) (suilBases svc) (str "methodsMeta") = some SUIL_RPC_HANDLER.name

def suilImplements (m : Bytes) : Bool :=
  findMember (suilHandler svc) (suilBases svc) m = some svc.Name

def suilClass : Class := ⟨str "s" ++ svc.Name ++ str "Client", svc.Methods.map (·.Name)⟩

/-- The members of `RpcTxRx` and of its logger. -/
def RPC_TX_RX : List Bytes :=
  [str "receiveRaw", str "sendRaw", str "protoUseSize", str "log", str "psink", str "tag"]

/-- `SuilRpcClient`. -/
def SUIL_RPC_CLIENT : Class where
  name := str "SuilRpcClient"
  members := [str "call", str "tcpProto", str "connect", str "getVersion", str "getMeta", str "sock",
    str "pack", str "idGenerator", str "rpcMeta", str "extMethods", str "apiMethods"] ++ RPC_TX_RX

/-- The parameters of `operator()`. -/
def suilNames : List (Bytes × Entity V) :=
  [(str "results", .results), (str "method", .other), (str "params", .params), (str "id", .other)]

/-- `extMethods`. -/
def extMethods : List (Int × Bytes) := [(-1, str "rpc_Version")]

/-- The number for a name in `__SuilRpcClient::call`; the first entry of a name stays. -/
def methodId (name : Bytes) : Option Int :=
  if name = [] then some 0
  else if str "rpc_" <:+: name then (extMethods.find? (·.2 = name)).map (·.1)
  else ((methodsMeta svc).find? (·.2 = name)).map (·.1)

/-- `bool connect(String&&, int)`, which is virtual in the clients of the library. No method overrides it
with another result; `same` says which types are the same. The other virtual functions have a socket
among their parameters. -/
def overrides (same : TypeText → TypeText → Bool) (m : Method) : Bool :=
  match m.Params with
  | [p, q] => m.Name = str "connect" ∧ p.Kind = .Move ∧ !p.IsConst ∧
      same p.ParameterType [.ident (str "String")] ∧ q.Kind = .Normal ∧
        same q.ParameterType [.ident (str "int")] ∧ !same m.ReturnType [.ident (str "bool")]
  | _ => false

/-- The classes and the functions that are printed once for a service mean something, next to what the
methods do: no class has a name that is none, or the one of a thing of the library that is needed. -/
def suilDefines (word : Bytes → Bool) (same : TypeText → TypeText → Bool) : Bool :=
  registers svc ∧
    ((suilDefault.foldlM (Frame.exec word (suilImplements svc))
      ⟨⟨[], around suilNames (suilHandler svc) (suilBases svc)⟩, [], [], []⟩ :
        Option (Frame Unit))).isSome ∧
      svc.Name ∉ suilLibrary svc ∧
        (∀ n ∈ [svc.Name, (suilHandler svc).name, (suilClass svc).name], !word n) ∧
          ∀ m ∈ svc.Methods, !overrides same m

/-- A call of a method of the client, up to the call of the implementation. -/
def suilCall (word : Bytes → Bool) (m : Method) (args : List V) : Option (Bytes × List V) :=
  if !word m.Name ∧ findMember (suilClass svc) [SUIL_RPC_CLIENT] m.Name = some (suilClass svc).name
  then do
    let calls := findMember (suilClass svc) [SUIL_RPC_CLIENT] (str "call") =
      some SUIL_RPC_CLIENT.name
    let req ← Client.request word calls (around [] (suilClass svc) [SUIL_RPC_CLIENT]) m
      (suilClient m) args
    let id ← methodId svc req.method
    -- what is not positive is an extension of the connection
    if id ≤ 0 then none
    else do
      let body ← (suilCases svc).find? (·.1 = id)
      Frame.call word (suilImplements svc)
        ⟨⟨[], around suilNames (suilHandler svc) (suilBases svc)⟩, req.items, [], []⟩ body.2
  else none

/-! ## JSON RPC -/

def jsonHandler : Class := ⟨str "j" ++ svc.Name ++ str "Handler", []⟩

def jsonBases : List Class := [implementation svc, ⟨str "JsonRpcHandler", []⟩]

def jsonImplements (m : Bytes) : Bool :=
  findMember (jsonHandler svc) (jsonBases svc) m = some svc.Name

def jsonClass : Class := ⟨str "j" ++ svc.Name ++ str "Client", svc.Methods.map (·.Name)⟩

/-- `JsonRpcClient`. -/
def JSON_RPC_CLIENT : Class where
  name := str "JsonRpcClient"
  members := [str "call", str "tcpProto", str "connect", str "rpc_Version", str "batch", str "sock",
    str "pack", str "transformResponses", str "idGenerator"] ++ RPC_TX_RX

/-- The parameters of `operator()` and the variables in front of the `switch`. -/
def jsonNames : List (Bytes × Entity V) :=
  [(str "method", .other), (str "params", .params), (str "id", .other),
    (str "scMappings", .other), (str "it", .other)]

def jsonDefines (word : Bytes → Bool) (same : TypeText → TypeText → Bool) : Bool :=
  ((jsonDefault.foldlM (Frame.exec word (jsonImplements svc))
    ⟨⟨[], around jsonNames (jsonHandler svc) (jsonBases svc)⟩, [], [], []⟩ :
      Option (Frame Unit))).isSome ∧
    svc.Name ∉ jsonLibrary svc ∧
      (∀ n ∈ [svc.Name, (jsonHandler svc).name, (jsonClass svc).name], !word n) ∧
        ∀ m ∈ svc.Methods, !overrides same m

/-- A call of a method of the client, up to the call of the implementation. -/
def jsonCall (word : Bytes → Bool) (m : Method) (args : List V) : Option (Bytes × List V) :=
  if !word m.Name ∧ findMember (jsonClass svc) [JSON_RPC_CLIENT] m.Name = some (jsonClass svc).name
  then do
    let calls := findMember (jsonClass svc) [JSON_RPC_CLIENT] (str "call") =
      some JSON_RPC_CLIENT.name
    let req ← Client.request word calls (around [] (jsonClass svc) [JSON_RPC_CLIENT]) m
      (jsonClient m) args
    -- what begins so is an extension of the connection
    if str "rpc_" <+: req.method then none
    else do
      let it ← (scMappings svc).find? (·.2 = req.method)
      let body ← (jsonCases svc).find? (·.1 = it.1)
      Frame.call word (jsonImplements svc)
        ⟨⟨[], around jsonNames (jsonHandler svc) (jsonBases svc)⟩, [], req.object, []⟩ body.2
  else none

/-! ## What the generator is for -/

/-- Every call of a client reaches the method of that name with the arguments of the call. -/
structure Agrees (V : Type) (word : Bytes → Bool) (same : TypeText → TypeText → Bool) : Prop where
  suil : svc.Kind ≠ .jrpc → suilDefines svc word same = true ∧ ∀ m ∈ svc.Methods, ∀ args : List V,
    args.length = m.Params.length → suilCall svc word m args = some (m.Name, args)
  json : svc.Kind ≠ .srpc → jsonDefines svc word same = true ∧ ∀ m ∈ svc.Methods, ∀ args : List V,
    args.length = m.Params.length → jsonCall svc word m args = some (m.Name, args)

end

/-- The head of a method means something. -/
structure Method.Declarable (word : Bytes → Bool) (m : Method) : Prop where
  name : word m.Name = false
  words : ∀ p ∈ m.Params, word p.Name = false
  apart : m.Params.Pairwise fun p q =>
    p.Name ≠ q.Name ∧ p.Name ∉ exposed false q.ParameterType

/-- The names that hide a type in the handler for Suil RPC. -/
def suilHides (svc : RpcType) : List Bytes :=
  [str "results", str "method", str "params", str "id"] ++
    memberNames (suilHandler svc) (suilBases svc)

/-- No name of a method for Suil RPC is one of those that the printed code needs itself. -/
structure Method.SuilFits (word : Bytes → Bool) (svc : RpcType) (m : Method) : Prop where
  head : m.Declarable word
  extension : ¬ str "rpc_" <:+: m.Name
  name : m.Name ∉ [svc.Name, (suilHandler svc).name, (suilClass svc).name, str "SuilRpcHandler",
    str "getMethodsRef", str "getMethods", str "methodsMeta", str "call", str "Result"]
  params : ∀ p ∈ m.Params, p.Name ∉ [str "params", str "Result"] ∧
    p.Name ∉ exposed false m.ReturnType
  types : ∀ p ∈ m.Params, ∀ n ∈ exposed false p.ParameterType,
    n ∉ suilHides svc ∧ n ∉ memberNames (suilClass svc) [SUIL_RPC_CLIENT]
  called : ∀ n ∈ exposed false m.ReturnType, n ∉ memberNames (suilClass svc) [SUIL_RPC_CLIENT]
  returns : m.ReturnType ≠ VOID → (∀ p ∈ m.Params, p.Name ∉ [str "results", str "tmp"]) ∧
    ∀ n ∈ exposed false m.ReturnType, n ∉ suilHides svc

/-- The names that hide a type in the handler for JSON RPC. -/
def jsonHides (svc : RpcType) : List Bytes :=
  [str "method", str "params", str "id", str "scMappings", str "it"] ++
    memberNames (jsonHandler svc) (jsonBases svc)

/-- No name of a method for JSON RPC is one of those that the printed code needs itself. -/
structure Method.JsonFits (word : Bytes → Bool) (svc : RpcType) (m : Method) : Prop where
  head : m.Declarable word
  extension : ¬ str "rpc_" <+: m.Name
  name : m.Name ∉ [svc.Name, (jsonHandler svc).name, (jsonClass svc).name, str "JsonRpcHandler",
    str "call", str "String"]
  params : ∀ p ∈ m.Params, p.Name ∉ [str "params", str "ret", str "String"] ∧
    p.Name ∉ exposed false p.ParameterType
  types : ∀ p ∈ m.Params, ∀ n ∈ exposed false p.ParameterType,
    n ∉ jsonHides svc ∧ n ∉ memberNames (jsonClass svc) [JSON_RPC_CLIENT]
  returns : m.ReturnType ≠ VOID → (∀ p ∈ m.Params, p.Name ∉ exposed false m.ReturnType) ∧
    ∀ n ∈ exposed false m.ReturnType, n ∉ [str "params", str "ret"] ∧
      n ∉ memberNames (jsonClass svc) [JSON_RPC_CLIENT]

/-- No name of a class for Suil RPC is one of them, and no method overrides `connect`. -/
structure SuilFits (word : Bytes → Bool) (same : TypeText → TypeText → Bool) (svc : RpcType) :
    Prop where
  words : ∀ n ∈ [svc.Name, (suilHandler svc).name, (suilClass svc).name], word n = false
  name : svc.Name ∉ [str "SuilRpcHandler", str "getMethodsRef", str "getMethods", str "methodsMeta",
    str "Result", str "SRPC_METHOD_NOT_FOUND", str "std", str "suil"]
  notFound : str "SRPC_METHOD_NOT_FOUND" ∉ svc.Methods.map (·.Name)
  connect : ∀ m ∈ svc.Methods, overrides same m = false
  methods : ∀ m ∈ svc.Methods, m.SuilFits word svc

/-- The same for JSON RPC. -/
structure JsonFits (word : Bytes → Bool) (same : TypeText → TypeText → Bool) (svc : RpcType) :
    Prop where
  words : ∀ n ∈ [svc.Name, (jsonHandler svc).name, (jsonClass svc).name], word n = false
  name : svc.Name ∉ [str "ReturnType", str "JRPC_METHOD_NOT_FOUND", str "std", str "suil"]
  clients : ∀ m ∈ svc.Methods, svc.Name ≠ str "String" ∧ (m.Params ≠ [] → svc.Name ≠ str "json")
  notFound : str "JRPC_METHOD_NOT_FOUND" ∉ svc.Methods.map (·.Name)
  connect : ∀ m ∈ svc.Methods, overrides same m = false
  methods : ∀ m ∈ svc.Methods, m.JsonFits word svc

/-- No name is one of those that the printed code needs itself. -/
structure Fits (word : Bytes → Bool) (same : TypeText → TypeText → Bool) (svc : RpcType) : Prop where
  suil : svc.Kind ≠ .jrpc → SuilFits word same svc
  json : svc.Kind ≠ .srpc → JsonFits word same svc

/-! ## The names of a block -/

section

variable {word implements : Bytes → Bool} {outer : List (Bytes × Entity V)}

private theorem sees_iff {b : List (Bytes × Entity V)} {ty : TypeText} :
    sees ⟨b, outer⟩ ty = true ↔
      ∀ n ∈ exposed false ty, n ∉ b.map (·.1) ∧ n ∉ outer.map (·.1) := by
  simp only [sees, List.all_eq_true, Option.isNone_iff_eq_none, Scope.find_eq_none]

/-- The parameters can be declared one after another behind the names of a block. -/
private def Declares (word : Bytes → Bool) (outer : List Bytes) :
    List Bytes → List Parameter → Prop
  | _, [] => True
  | b, p :: ps =>
      ((∀ n ∈ exposed false p.ParameterType, n ∉ b ∧ n ∉ outer) ∧ word p.Name = false) ∧
        p.Name ∉ b ∧ Declares word outer (b ++ [p.Name]) ps

private theorem declares_iff {names b : List Bytes} {ps : List Parameter} :
    Declares word names b ps ↔
      ((∀ p ∈ ps, word p.Name = false) ∧
        ps.Pairwise fun p q => p.Name ≠ q.Name ∧ p.Name ∉ exposed false q.ParameterType) ∧
      ∀ p ∈ ps, p.Name ∉ b ∧ ∀ n ∈ exposed false p.ParameterType, n ∉ b ∧ n ∉ names := by
  -- on the parameters: those in front of one are among the names that it must not repeat or hide
  induction ps generalizing b with
  | nil => exact iff_of_true trivial ⟨⟨nofun, .nil⟩, nofun⟩
  | cons p ps ih =>
      rw [Declares, ih]
      simp only [List.forall_mem_cons, List.pairwise_cons, List.mem_append, List.mem_singleton,
        not_or]
      constructor
      · rintro ⟨⟨htypes, hword⟩, hnew, ⟨hwords, hpairs⟩, hrest⟩
        refine ⟨⟨⟨hword, hwords⟩, fun q hq => ⟨?_, ?_⟩, hpairs⟩, ⟨hnew, htypes⟩, fun q hq => ?_⟩
        · exact fun heq => (hrest q hq).1.2 heq.symm
        · exact fun hmem => ((hrest q hq).2 _ hmem).1.2 rfl
        · exact ⟨(hrest q hq).1.1, fun n hn =>
            ⟨((hrest q hq).2 n hn).1.1, ((hrest q hq).2 n hn).2⟩⟩
      · rintro ⟨⟨⟨hword, hwords⟩, hpairs, hps⟩, ⟨hnew, htypes⟩, hrest⟩
        refine ⟨⟨htypes, hword⟩, hnew, ⟨hwords, hps⟩, fun q hq => ⟨⟨(hrest q hq).1, ?_⟩, ?_⟩⟩
        · exact fun heq => (hpairs q hq).1 heq.symm
        · intro n hn
          refine ⟨⟨((hrest q hq).2 n hn).1, ?_⟩, ((hrest q hq).2 n hn).2⟩
          rintro rfl
          exact (hpairs q hq).2 hn

/-- The variables of parameters that have their values. -/
private def vars (as : List (Parameter × V)) : List (Bytes × Entity V) :=
  as.map fun a => (a.1.Name, .var a.1.ParameterType (some a.2))

private theorem names_vars (as : List (Parameter × V)) :
    (vars as).map (·.1) = as.map (·.1.Name) := by
  rw [vars, List.map_map]
  rfl

private theorem names_concat (b : List (Bytes × Entity V)) (x : Bytes) (e : Entity V) :
    (b ++ [(x, e)]).map (·.1) = b.map (·.1) ++ [x] := by
  rw [List.map_append, List.map_singleton]

private theorem concat_vars (b : List (Bytes × Entity V)) (a : Parameter × V)
    (as : List (Parameter × V)) :
    b ++ [(a.1.Name, .var a.1.ParameterType (some a.2))] ++ vars as = b ++ vars (a :: as) := by
  rw [List.append_assoc]
  rfl

/-- A declaration, behind the names of a block. -/
private theorem declare_iff {b : List (Bytes × Entity V)} {ty : TypeText} {x : Bytes} {e : Entity V}
    {s : Names V} :
    (if sees ⟨b, outer⟩ ty ∧ !word x then Scope.declare ⟨b, outer⟩ x e else none) = some s ↔
      ((∀ n ∈ exposed false ty, n ∉ b.map (·.1) ∧ n ∉ outer.map (·.1)) ∧ word x = false) ∧
        x ∉ b.map (·.1) ∧ s = ⟨b ++ [(x, e)], outer⟩ := by
  rw [← sees_iff, ← Bool.not_eq_true', Scope.declare]
  split_ifs with hsees hmem
  · exact iff_of_false nofun fun h => h.2.1 hmem
  · rw [and_iff_right hsees, and_iff_right hmem, Option.some.injEq, eq_comm]
  · exact iff_of_false nofun fun h => hsees h.1

/-- The head of a method of a client. -/
private theorem enter_iff {b : List (Bytes × Entity V)} {as : List (Parameter × V)} {s : Names V} :
    as.foldlM (enter word) ⟨b, outer⟩ = some s ↔
      Declares word (outer.map (·.1)) (b.map (·.1)) (as.map (·.1)) ∧ s = ⟨b ++ vars as, outer⟩ := by
  induction as generalizing b with
  | nil =>
      simp only [vars, List.map_nil, List.append_nil, List.foldlM_nil]
      show some (⟨b, outer⟩ : Names V) = some s ↔ True ∧ _
      rw [Option.some.injEq, true_and, eq_comm]
  | cons a as ih =>
      rw [List.foldlM_cons, List.map_cons, Declares, ← names_concat b a.1.Name
        (.var a.1.ParameterType (some a.2)), ← concat_vars]
      refine Option.bind_eq_some_iff.trans ?_
      constructor
      · rintro ⟨s', hs', htail⟩
        obtain ⟨hhead, hnew, rfl⟩ := declare_iff.mp hs'
        obtain ⟨hrest, rfl⟩ := ih.mp htail
        exact ⟨⟨hhead, hnew, hrest⟩, rfl⟩
      · rintro ⟨⟨hhead, hnew, hrest⟩, rfl⟩
        exact ⟨_, declare_iff.mpr ⟨hhead, hnew, rfl⟩, ih.mpr ⟨hrest, rfl⟩⟩

private theorem decl_iff {b : List (Bytes × Entity V)} {ty : TypeText} {x : Bytes}
    {w : List (TypeText × V)} {o : List (Bytes × V)} {c : List (Bytes × List V)} {f : Frame V} :
    Frame.exec word implements ⟨⟨b, outer⟩, w, o, c⟩ (.decl ty x) = some f ↔
      ((∀ n ∈ exposed false ty, n ∉ b.map (·.1) ∧ n ∉ outer.map (·.1)) ∧ word x = false) ∧
        x ∉ b.map (·.1) ∧ f = ⟨⟨b ++ [(x, .var ty none)], outer⟩, w, o, c⟩ := by
  have hmap : Frame.exec word implements ⟨⟨b, outer⟩, w, o, c⟩ (.decl ty x) =
      (if sees ⟨b, outer⟩ ty ∧ !word x then
        Scope.declare ⟨b, outer⟩ x (.var ty none) else none).map fun s => ⟨s, w, o, c⟩ := by
    rw [Frame.exec]
    split_ifs
    · rfl
    · rfl
  rw [hmap, Option.map_eq_some_iff]
  constructor
  · rintro ⟨s, hs, rfl⟩
    obtain ⟨hhead, hnew, rfl⟩ := declare_iff.mp hs
    exact ⟨hhead, hnew, rfl⟩
  · rintro ⟨hhead, hnew, rfl⟩
    exact ⟨_, declare_iff.mpr ⟨hhead, hnew, rfl⟩, rfl⟩

/-- What is sent of parameters that have their values. -/
private def items (as : List (Parameter × V)) : List (TypeText × V) :=
  as.map fun a => (a.1.ParameterType, a.2)

private theorem concat_notMem {b : List (Bytes × Entity V)} {x n : Bytes} {e : Entity V}
    (hb : n ∉ b.map (·.1)) (hne : n ≠ x) : n ∉ (b ++ [(x, e)]).map (·.1) := by
  rw [names_concat, List.mem_append, List.mem_singleton, not_or]
  exact ⟨hb, hne⟩

/-- A variable that is new is read from the board; not when it hides the board. -/
private theorem read_iff {b : List (Bytes × Entity V)} {ty : TypeText} {x : Bytes} {v : V}
    {w : List (TypeText × V)} {o : List (Bytes × V)} {c : List (Bytes × List V)} {f : Frame V}
    (hb : str "params" ∉ b.map (·.1)) (houter : Scope.find ⟨[], outer⟩ (str "params") = some .params)
    (hx : x ∉ b.map (·.1)) :
    Frame.exec word implements ⟨⟨b ++ [(x, .var ty none)], outer⟩, (ty, v) :: w, o, c⟩ (.read x) =
        some f ↔
      x ≠ str "params" ∧ f = ⟨⟨b ++ [(x, .var ty (some v))], outer⟩, w, o, c⟩ := by
  rw [Frame.exec, Scope.find_concat hx]
  by_cases heq : x = str "params"
  · rw [← heq, Scope.find_concat hx]
    refine iff_of_false ?_ fun h => absurd rfl h.1
    intro h
    nomatch h
  · rw [Scope.find_of_notMem (concat_notMem hb (Ne.symm heq)), houter, and_iff_right heq]
    show (if ty = ty then some (⟨Scope.assign ⟨b ++ [(x, .var ty none)], outer⟩ x
      (.var ty (some v)), w, o, c⟩ : Frame V) else none) = some f ↔ _
    rw [if_pos rfl, Scope.assign_concat hx, Option.some_inj, eq_comm]

/-- The parameters of a case for Suil RPC are read one after another. -/
private theorem reads_iff {b : List (Bytes × Entity V)} {as : List (Parameter × V)}
    {w : List (TypeText × V)} {o : List (Bytes × V)} {c : List (Bytes × List V)} {f : Frame V}
    (hb : str "params" ∉ b.map (·.1)) (houter : Scope.find ⟨[], outer⟩ (str "params") = some .params) :
    ((as.map (·.1)).flatMap fun p => [.decl p.ParameterType p.Name, .read p.Name]).foldlM
        (Frame.exec word implements) ⟨⟨b, outer⟩, items as ++ w, o, c⟩ = some f ↔
      (Declares word (outer.map (·.1)) (b.map (·.1)) (as.map (·.1)) ∧
        ∀ a ∈ as, a.1.Name ≠ str "params") ∧ f = ⟨⟨b ++ vars as, outer⟩, w, o, c⟩ := by
  -- on the parameters: each takes its own value off the front of the wire
  induction as generalizing b with
  | nil =>
      simp only [vars, items, List.map_nil, List.append_nil, List.flatMap_nil, List.foldlM_nil,
        List.nil_append]
      show some _ = some f ↔ (True ∧ ∀ a ∈ [], _) ∧ _
      simp [eq_comm]
  | cons a as ih =>
      rw [List.map_cons, List.flatMap_cons, List.cons_append, List.cons_append, List.nil_append,
        List.foldlM_cons, Declares, List.forall_mem_cons, ← names_concat b a.1.Name
          (.var a.1.ParameterType (some a.2)), ← concat_vars]
      refine Option.bind_eq_some_iff.trans ?_
      constructor
      · rintro ⟨f₁, hdecl, htail⟩
        obtain ⟨hhead, hnew, rfl⟩ := decl_iff.mp hdecl
        rw [List.foldlM_cons] at htail
        obtain ⟨f₂, hread, htail⟩ := Option.bind_eq_some_iff.mp htail
        obtain ⟨hne, rfl⟩ := (read_iff hb houter hnew).mp hread
        obtain ⟨⟨hrest, hnes⟩, rfl⟩ := (ih (concat_notMem hb hne.symm)).mp htail
        exact ⟨⟨⟨hhead, hnew, hrest⟩, hne, hnes⟩, rfl⟩
      · rintro ⟨⟨⟨hhead, hnew, hrest⟩, hne, hnes⟩, rfl⟩
        refine ⟨_, decl_iff.mpr ⟨hhead, hnew, rfl⟩, ?_⟩
        rw [List.foldlM_cons]
        exact Option.bind_eq_some_iff.mpr ⟨_, (read_iff hb houter hnew).mpr ⟨hne, rfl⟩,
          (ih (concat_notMem hb hne.symm)).mpr ⟨⟨hrest, hnes⟩, rfl⟩⟩

/-- A variable that is new is read from the object; not when it hides its own type or the object. -/
private theorem member_iff {b : List (Bytes × Entity V)} {ty : TypeText} {x : Bytes} {v : V}
    {w : List (TypeText × V)} {o : List (Bytes × V)} {c : List (Bytes × List V)} {f : Frame V}
    (hb : str "params" ∉ b.map (·.1)) (houter : Scope.find ⟨[], outer⟩ (str "params") = some .params)
    (ho : o.lookup x = some v) :
    Frame.exec word implements ⟨⟨b, outer⟩, w, o, c⟩ (.member ty x) = some f ↔
      (((∀ n ∈ exposed false ty, n ∉ b.map (·.1) ∧ n ∉ outer.map (·.1)) ∧ word x = false) ∧
        x ∉ b.map (·.1)) ∧ (x ≠ str "params" ∧ x ∉ exposed false ty) ∧
        f = ⟨⟨b ++ [(x, .var ty (some v))], outer⟩, w, o, c⟩ := by
  rw [Frame.exec, ← sees_iff, ← Bool.not_eq_true']
  by_cases hcond : sees ⟨b, outer⟩ ty = true ∧ (!word x) = true
  · rw [if_pos hcond, and_iff_right hcond, Scope.declare]
    by_cases hnew : x ∈ b.map (·.1)
    · rw [if_pos hnew]
      exact iff_of_false nofun fun h => h.1 hnew
    · rw [if_neg hnew, and_iff_right hnew]
      -- the cast is read where the variable is declared already
      by_cases hown : x ∈ exposed false ty
      · have hhidden : ¬ sees ⟨b ++ [(x, .var ty none)], outer⟩ ty = true := fun h => by
          have := (sees_iff.mp h x hown).1
          rw [names_concat, List.mem_append, not_or] at this
          exact this.2 (List.mem_singleton_self x)
        refine iff_of_false ?_ fun h => h.1.2 hown
        show ¬ (if sees ⟨b ++ [(x, .var ty none)], outer⟩ ty then _ else none) = some f
        rw [if_neg hhidden]
        nofun
      · have hseen : sees ⟨b ++ [(x, .var ty none)], outer⟩ ty = true := by
          refine sees_iff.mpr fun n hn => ⟨?_, (sees_iff.mp hcond.1 n hn).2⟩
          refine concat_notMem (sees_iff.mp hcond.1 n hn).1 ?_
          rintro rfl
          exact hown hn
        rw [and_iff_left hown]
        show (if sees ⟨b ++ [(x, .var ty none)], outer⟩ ty then do
            (Scope.find ⟨b ++ [(x, .var ty none)], outer⟩ (str "params")).bind isParams
            let v ← o.lookup x
            some (⟨Scope.assign ⟨b ++ [(x, .var ty none)], outer⟩ x (.var ty (some v)), w, o, c⟩ :
              Frame V)
          else none) = some f ↔ _
        rw [if_pos hseen, ho]
        -- so is the object
        by_cases heq : x = str "params"
        · rw [← heq, Scope.find_concat hnew]
          refine iff_of_false ?_ fun h => absurd rfl h.1
          intro h
          nomatch h
        · rw [Scope.find_of_notMem (concat_notMem hb (Ne.symm heq)), houter, and_iff_right heq]
          show some (⟨Scope.assign ⟨b ++ [(x, .var ty none)], outer⟩ x (.var ty (some v)), w, o, c⟩ :
            Frame V) = some f ↔ _
          rw [Scope.assign_concat hnew, Option.some_inj, eq_comm]
  · rw [if_neg hcond]
    exact iff_of_false nofun fun h => hcond h.1.1

/-- The parameters of a case for JSON RPC are read one after another. -/
private theorem members_iff {b : List (Bytes × Entity V)} {as : List (Parameter × V)}
    {w : List (TypeText × V)} {o : List (Bytes × V)} {c : List (Bytes × List V)} {f : Frame V}
    (hb : str "params" ∉ b.map (·.1)) (houter : Scope.find ⟨[], outer⟩ (str "params") = some .params)
    (ho : ∀ a ∈ as, o.lookup a.1.Name = some a.2) :
    ((as.map (·.1)).map fun p => .member p.ParameterType p.Name).foldlM
        (Frame.exec word implements) ⟨⟨b, outer⟩, w, o, c⟩ = some f ↔
      (Declares word (outer.map (·.1)) (b.map (·.1)) (as.map (·.1)) ∧
        ∀ a ∈ as, a.1.Name ≠ str "params" ∧ a.1.Name ∉ exposed false a.1.ParameterType) ∧
      f = ⟨⟨b ++ vars as, outer⟩, w, o, c⟩ := by
  -- on the parameters: the object stays, the names become more
  induction as generalizing b with
  | nil =>
      simp only [vars, List.map_nil, List.append_nil, List.foldlM_nil]
      show some _ = some f ↔ (True ∧ ∀ a ∈ [], _) ∧ _
      simp [eq_comm]
  | cons a as ih =>
      rw [List.map_cons, List.map_cons, List.foldlM_cons, Declares, List.forall_mem_cons,
        ← names_concat b a.1.Name (.var a.1.ParameterType (some a.2)), ← concat_vars]
      rw [List.forall_mem_cons] at ho
      refine Option.bind_eq_some_iff.trans ?_
      constructor
      · rintro ⟨f₁, hmember, htail⟩
        obtain ⟨⟨hhead, hnew⟩, hne, rfl⟩ := (member_iff hb houter ho.1).mp hmember
        obtain ⟨⟨hrest, hnes⟩, rfl⟩ := (ih (concat_notMem hb hne.1.symm) ho.2).mp htail
        exact ⟨⟨⟨hhead, hnew, hrest⟩, hne, hnes⟩, rfl⟩
      · rintro ⟨⟨⟨hhead, hnew, hrest⟩, hne, hnes⟩, rfl⟩
        exact ⟨_, (member_iff hb houter ho.1).mpr ⟨⟨hhead, hnew⟩, hne, rfl⟩,
          (ih (concat_notMem hb hne.1.symm) ho.2).mpr ⟨⟨hrest, hnes⟩, rfl⟩⟩

/-- The variables of distinct parameters are found. -/
private theorem mapM_vars {as : List (Parameter × V)}
    (h : ((as.map (·.1)).map (·.Name)).Nodup) (o : List (Bytes × Entity V)) :
    (((as.map (·.1)).map (·.Name)).mapM fun x =>
      (Scope.find ⟨vars as, o⟩ x).bind item) = some (items as) := by
  rw [List.map_map] at h
  have hfind := @Scope.mapM_find _ _ _ _ _ item _ _
    (fun a : Parameter × V => (Entity.var a.1.ParameterType (some a.2), (a.1.ParameterType, a.2)))
    o [] (fun _ _ => List.not_mem_nil) h fun _ _ => rfl
  rw [List.map_map, List.mapM_map]
  exact hfind

/-- The implementation is called with the values of the parameters. -/
private theorem invoke_vars {as : List (Parameter × V)} {m : Method} (hparams : as.map (·.1) = m.Params)
    (hnodup : (m.Params.map (·.Name)).Nodup) (b : List (Bytes × Entity V)) {w : List (TypeText × V)}
    {o : List (Bytes × V)} :
    Frame.invoke implements ⟨⟨vars as ++ b, outer⟩, w, o, []⟩ m.Name (arguments m) =
      if implements m.Name then
        some ⟨⟨vars as ++ b, outer⟩, w, o, [(m.Name, as.map (·.2))]⟩ else none := by
  rw [← hparams] at hnodup
  have hvalues := mapM_vars hnodup (b ++ outer)
  rw [List.mapM_map] at hvalues
  have hargs : (as.map (·.1)).mapM ((fun a : Arg =>
      (Scope.find ⟨vars as, b ++ outer⟩ a.name).bind item) ∘
        fun p => ⟨p.Name, p.Kind = ParameterKind.Move⟩) = some (items as) := hvalues
  rw [Frame.invoke, arguments, List.mapM_map, ← hparams]
  simp only [Scope.find_append]
  rw [hargs, Option.map_some, List.nil_append, items, List.map_map]
  rfl

/-- What a nonvoid method needs of the names of its parameters and of its type. -/
private def Keeps (outer : List Bytes) (m : Method) : Prop :=
  m.ReturnType ≠ VOID → (∀ p ∈ m.Params, p.Name ∉ [str "results", str "tmp"]) ∧
    ∀ n ∈ exposed false m.ReturnType, n ∉ m.Params.map (·.Name) ∧ n ∉ outer

private theorem nodup_of_declares {names : List Bytes} {ps : List Parameter}
    (h : Declares word names [] ps) : (ps.map (·.Name)).Nodup := by
  rw [List.Nodup, List.pairwise_map]
  exact (declares_iff.mp h).1.2.imp fun hpair => hpair.1

private theorem names_params {as : List (Parameter × V)} {m : Method}
    (hparams : as.map (·.1) = m.Params) : (vars as).map (·.1) = m.Params.map (·.Name) := by
  rw [names_vars, ← hparams, List.map_map]
  rfl

/-- The last statement of a case for Suil RPC. -/
private theorem done_iff {f : Frame V} {c : Bytes × List V} (hwire : f.wire = [])
    (hcalls : f.calls = [c]) {c' : Bytes × List V} :
    Frame.call word implements f [.done] = some c' ↔
      (str "Result" ∉ f.scope.block.map (·.1) ∧ str "Result" ∉ f.scope.outer.map (·.1)) ∧
        c' = c := by
  rw [← Scope.find_eq_none, Frame.call, List.foldlM_cons, Frame.exec]
  cases hfind : f.scope.find (str "Result") with
  | none =>
      have hcall : (match f.calls, f.wire with
          | [c], [] => some c
          | _, _ => none) = some c := by rw [hwire, hcalls]
      rw [and_iff_right rfl]
      show (match f.calls, f.wire with
          | [c], [] => some c
          | _, _ => none) = some c' ↔ c' = c
      rw [hcall, Option.some_inj, eq_comm]
  | some e => exact iff_of_false nofun fun h => nomatch h.1

/-- What follows the parameters in a case of a method without a result. -/
private theorem suilVoid_iff {as : List (Parameter × V)} {m : Method}
    (hparams : as.map (·.1) = m.Params) (hnodup : (m.Params.map (·.Name)).Nodup)
    {c : Bytes × List V} :
    Frame.call word implements ⟨⟨vars as, outer⟩, [], [], []⟩
        [.run m.Name (arguments m), .done] = some c ↔
      implements m.Name = true ∧ (str "Result" ∉ m.Params.map (·.Name) ∧
        str "Result" ∉ outer.map (·.1)) ∧ c = (m.Name, as.map (·.2)) := by
  have hinvoke := @invoke_vars _ implements outer _ _ hparams hnodup [] [] []
  rw [List.append_nil] at hinvoke
  rw [Frame.call, List.foldlM_cons, Frame.exec, hinvoke, ← names_params hparams]
  by_cases himpl : implements m.Name = true
  · rw [if_pos himpl, and_iff_right himpl]
    exact done_iff rfl rfl
  · rw [if_neg himpl]
    exact iff_of_false nofun fun h => himpl h.1

/-- What follows the parameters in a case of a method with a result. -/
private theorem suilKeep_iff {as : List (Parameter × V)} {m : Method}
    (hparams : as.map (·.1) = m.Params) (hnodup : (m.Params.map (·.Name)).Nodup)
    (hresults : Scope.find ⟨[], outer⟩ (str "results") = some .results) {c : Bytes × List V} :
    Frame.call word implements ⟨⟨vars as, outer⟩, [], [], []⟩
        [.keep m.ReturnType m.Name (arguments m), .push, .done] = some c ↔
      implements m.Name = true ∧ ((∀ p ∈ m.Params, p.Name ∉ [str "results", str "tmp"]) ∧
        ∀ n ∈ exposed false m.ReturnType, n ∉ m.Params.map (·.Name) ∧ n ∉ outer.map (·.1)) ∧
        (str "Result" ∉ m.Params.map (·.Name) ∧ str "Result" ∉ outer.map (·.1)) ∧
          c = (m.Name, as.map (·.2)) := by
  have hdone : str "Result" ≠ str "tmp" := by decide
  have hboth : str "results" ≠ str "tmp" := by decide
  have hnames := names_params hparams
  have hapart : (∀ p ∈ m.Params, p.Name ∉ [str "results", str "tmp"]) ↔
      str "results" ∉ (vars as).map (·.1) ∧ str "tmp" ∉ (vars as).map (·.1) := by
    simp only [hnames, List.mem_map, List.mem_cons, List.not_mem_nil, or_false, not_or, not_exists,
      not_and, ← forall_and]
  rw [hapart, ← hnames, ← sees_iff, Frame.call, List.foldlM_cons, Frame.exec]
  by_cases hsees : sees ⟨vars as, outer⟩ m.ReturnType = true
  · rw [if_pos hsees, and_iff_left hsees, Scope.declare]
    by_cases htmp : str "tmp" ∈ (vars as).map (·.1)
    · rw [if_pos htmp]
      exact iff_of_false nofun fun h => h.2.1.2 htmp
    · have hinvoke := @invoke_vars _ implements outer _ _ hparams hnodup
        [(str "tmp", .var m.ReturnType none)] [] []
      rw [if_neg htmp, and_iff_left htmp]
      show ((Frame.invoke implements ⟨⟨vars as ++ [(str "tmp", .var m.ReturnType none)], outer⟩, [],
        [], []⟩ m.Name (arguments m)).bind fun f => _).bind _ = some c ↔ _
      rw [hinvoke]
      by_cases himpl : implements m.Name = true
      · rw [if_pos himpl, and_iff_right himpl, Option.bind_some, List.foldlM_cons, Frame.exec,
          Scope.find_concat htmp]
        by_cases hres : str "results" ∈ (vars as).map (·.1)
        · -- a parameter hides the board
          obtain ⟨e, hmem, hfind⟩ :=
            Scope.exists_find hres [(str "tmp", .var m.ReturnType none)] outer
          obtain ⟨a, -, ha⟩ := List.mem_map.mp hmem
          rw [hfind, ← (Prod.mk.inj ha).2]
          refine iff_of_false ?_ fun h => h.1 hres
          intro h
          nomatch h
        · rw [Scope.find_of_notMem (concat_notMem hres hboth), hresults, and_iff_right hres]
          refine (done_iff rfl rfl).trans ?_
          rw [names_concat, List.mem_append, List.mem_singleton, not_or, and_iff_left hdone]
      · rw [if_neg himpl]
        exact iff_of_false nofun fun h => himpl h.1
  · rw [if_neg hsees]
    exact iff_of_false nofun fun h => hsees h.2.1.2

/-- A case for Suil RPC. -/
private theorem suilCase_iff {as : List (Parameter × V)} {m : Method}
    (hparams : as.map (·.1) = m.Params)
    (houter : Scope.find ⟨[], outer⟩ (str "params") = some .params)
    (hresults : Scope.find ⟨[], outer⟩ (str "results") = some .results) {c : Bytes × List V} :
    Frame.call word implements ⟨⟨[], outer⟩, items as, [], []⟩ (suilCase m) = some c ↔
      (Declares word (outer.map (·.1)) [] m.Params ∧ ∀ p ∈ m.Params, p.Name ≠ str "params") ∧
        implements m.Name = true ∧ Keeps (outer.map (·.1)) m ∧
        (str "Result" ∉ m.Params.map (·.Name) ∧ str "Result" ∉ outer.map (·.1)) ∧
        c = (m.Name, as.map (·.2)) := by
  have hreads := fun f => @reads_iff _ word implements _ [] as [] [] [] f List.not_mem_nil houter
  simp only [hparams, List.append_nil, List.map_nil, List.nil_append] at hreads
  have hne : (∀ a ∈ as, a.1.Name ≠ str "params") ↔ ∀ p ∈ m.Params, p.Name ≠ str "params" := by
    rw [← hparams, List.forall_mem_map]
  -- the parameters are read first, and the rest of the case sees all of them
  have hcall : Frame.call word implements ⟨⟨[], outer⟩, items as, [], []⟩ (suilCase m) =
      ((m.Params.flatMap fun p => [.decl p.ParameterType p.Name, .read p.Name]).foldlM
        (Frame.exec word implements) ⟨⟨[], outer⟩, items as, [], []⟩).bind fun f =>
          Frame.call word implements f ((if m.ReturnType = VOID then [.run m.Name (arguments m)]
            else [.keep m.ReturnType m.Name (arguments m), .push]) ++ [.done]) := by
    rw [Frame.call, suilCase, List.append_assoc, List.foldlM_append]
    exact Option.bind_assoc ..
  rw [hcall, Option.bind_eq_some_iff]
  constructor
  · rintro ⟨f, hf, hrest⟩
    obtain ⟨⟨hdeclares, hnes⟩, rfl⟩ := (hreads f).mp hf
    have hnodup := nodup_of_declares hdeclares
    refine ⟨⟨hdeclares, hne.mp hnes⟩, ?_⟩
    -- a case without a result has nothing to put on the board of the results
    by_cases hvoid : m.ReturnType = VOID
    · rw [if_pos hvoid] at hrest
      obtain ⟨himpl, hresult, hc⟩ := (suilVoid_iff hparams hnodup).mp hrest
      exact ⟨himpl, fun h => absurd hvoid h, hresult, hc⟩
    · rw [if_neg hvoid] at hrest
      obtain ⟨himpl, hkeeps, hresult, hc⟩ := (suilKeep_iff hparams hnodup hresults).mp hrest
      exact ⟨himpl, fun _ => hkeeps, hresult, hc⟩
  · rintro ⟨⟨hdeclares, hnes⟩, himpl, hkeeps, hresult, hc⟩
    have hnodup := nodup_of_declares hdeclares
    refine ⟨_, (hreads _).mpr ⟨⟨hdeclares, hne.mpr hnes⟩, rfl⟩, ?_⟩
    by_cases hvoid : m.ReturnType = VOID
    · rw [if_pos hvoid]
      exact (suilVoid_iff hparams hnodup).mpr ⟨himpl, hresult, hc⟩
    · rw [if_neg hvoid]
      exact (suilKeep_iff hparams hnodup hresults).mpr ⟨himpl, hkeeps hvoid, hresult, hc⟩

/-- What follows the parameters in a case for JSON RPC. -/
private theorem jsonRest {as : List (Parameter × V)} {m : Method} (hparams : as.map (·.1) = m.Params)
    (hnodup : (m.Params.map (·.Name)).Nodup) {o : List (Bytes × V)} :
    Frame.call word implements ⟨⟨vars as, outer⟩, [], o, []⟩
        (if m.ReturnType ≠ VOID then [.answer m.Name (arguments m)]
          else [.run m.Name (arguments m), .answerNull]) =
      if implements m.Name then some (m.Name, as.map (·.2)) else none := by
  have hinvoke := @invoke_vars _ implements outer _ _ hparams hnodup [] [] o
  rw [List.append_nil] at hinvoke
  split_ifs with hvoid himpl himpl
  all_goals
    rw [Frame.call, List.foldlM_cons, Frame.exec, hinvoke]
    simp only [himpl, if_true, Bool.false_eq_true, if_false]
    rfl

/-- A case for JSON RPC. -/
private theorem jsonCase_iff {as : List (Parameter × V)} {m : Method}
    (hparams : as.map (·.1) = m.Params)
    (houter : Scope.find ⟨[], outer⟩ (str "params") = some .params) {o : List (Bytes × V)}
    (ho : ∀ a ∈ as, o.lookup a.1.Name = some a.2) {c : Bytes × List V} :
    Frame.call word implements ⟨⟨[], outer⟩, [], o, []⟩ (jsonCase m) = some c ↔
      (Declares word (outer.map (·.1)) [] m.Params ∧ ∀ p ∈ m.Params,
        p.Name ≠ str "params" ∧ p.Name ∉ exposed false p.ParameterType) ∧
        implements m.Name = true ∧ c = (m.Name, as.map (·.2)) := by
  have hmembers := fun f => @members_iff _ word implements _ [] as [] o [] f List.not_mem_nil houter
    ho
  simp only [hparams, List.map_nil, List.nil_append] at hmembers
  have hne : (∀ a ∈ as, a.1.Name ≠ str "params" ∧ a.1.Name ∉ exposed false a.1.ParameterType) ↔
      ∀ p ∈ m.Params, p.Name ≠ str "params" ∧ p.Name ∉ exposed false p.ParameterType := by
    rw [← hparams, List.forall_mem_map]
  -- the parameters are read first, and the rest of the case sees all of them
  have hcall : Frame.call word implements ⟨⟨[], outer⟩, [], o, []⟩ (jsonCase m) =
      ((m.Params.map fun p => .member p.ParameterType p.Name).foldlM
        (Frame.exec word implements) ⟨⟨[], outer⟩, [], o, []⟩).bind fun f =>
          Frame.call word implements f (if m.ReturnType ≠ VOID then [.answer m.Name (arguments m)]
            else [.run m.Name (arguments m), .answerNull]) := by
    rw [Frame.call, jsonCase, List.foldlM_append]
    exact Option.bind_assoc ..
  rw [hcall, Option.bind_eq_some_iff]
  constructor
  · rintro ⟨f, hf, hrest⟩
    obtain ⟨⟨hdeclares, hnes⟩, rfl⟩ := (hmembers f).mp hf
    rw [jsonRest hparams (nodup_of_declares hdeclares)] at hrest
    split_ifs at hrest with himpl
    exact ⟨⟨hdeclares, hne.mp hnes⟩, himpl, (Option.some.inj hrest).symm⟩
  · rintro ⟨⟨hdeclares, hnes⟩, himpl, rfl⟩
    refine ⟨_, (hmembers _).mpr ⟨⟨hdeclares, hne.mpr hnes⟩, rfl⟩, ?_⟩
    rw [jsonRest hparams (nodup_of_declares hdeclares), if_pos himpl]

/-! ## Requests -/

variable {calls : Bool}

private theorem request_iff {as : List (Parameter × V)} {m : Method} {args : List V}
    (has : m.Params.zip args = as) (hparams : as.map (·.1) = m.Params) {body : List ClientStmt}
    {req : Request V} :
    Client.request word calls outer m body args = some req ↔
      Declares word (outer.map (·.1)) [] m.Params ∧
        ∃ c, body.foldlM (Client.exec calls) ⟨⟨vars as, outer⟩, [], none⟩ = some c ∧
          c.sent = some req := by
  have henter := fun s => @enter_iff _ word outer [] as s
  simp only [hparams, List.map_nil, List.nil_append] at henter
  rw [Client.request, has]
  refine Option.bind_eq_some_iff.trans ?_
  constructor
  · rintro ⟨s, hs, hrest⟩
    obtain ⟨hdeclares, rfl⟩ := (henter s).mp hs
    exact ⟨hdeclares, Option.bind_eq_some_iff.mp hrest⟩
  · rintro ⟨hdeclares, hrest⟩
    exact ⟨_, (henter _).mpr ⟨hdeclares, rfl⟩, Option.bind_eq_some_iff.mpr hrest⟩

/-- The client for Suil RPC sends what its parameters have. -/
private theorem suilRequest_iff {as : List (Parameter × V)} {m : Method} {args : List V}
    (has : m.Params.zip args = as) (hparams : as.map (·.1) = m.Params) {req : Request V} :
    Client.request word calls outer m (suilClient m) args = some req ↔
      (Declares word (outer.map (·.1)) [] m.Params ∧ calls = true ∧
        ∀ n ∈ exposed false m.ReturnType, n ∉ m.Params.map (·.Name) ∧ n ∉ outer.map (·.1)) ∧
        req = ⟨m.Name, items as, []⟩ := by
  rw [request_iff has hparams, and_assoc]
  refine and_congr_right fun hdeclares => ?_
  have hnodup := nodup_of_declares hdeclares
  rw [← hparams] at hnodup
  have hvalues := mapM_vars hnodup outer
  rw [hparams] at hvalues
  rw [← names_params hparams, ← sees_iff, suilClient, List.foldlM_cons, Client.exec]
  -- `Ego.call` is that of the library, and the type of the result is not hidden
  by_cases hcond : calls = true ∧ sees ⟨vars as, outer⟩ m.ReturnType = true
  · rw [if_pos hcond, and_iff_right hcond, hvalues]
    constructor
    · rintro ⟨c, hc, hsent⟩
      cases hc
      exact (Option.some.inj hsent).symm
    · rintro rfl
      exact ⟨_, rfl, rfl⟩
  · rw [if_neg hcond]
    refine iff_of_false ?_ fun h => hcond h.1
    rintro ⟨c, hc, -⟩
    nomatch hc

/-- What the client for JSON RPC sends. -/
private def jsonRequest (m : Method) (as : List (Parameter × V)) : Request V :=
  ⟨m.Name, [], (m.Params.map (·.Name)).zip (as.map (·.2))⟩

/-- The variables of the client for JSON RPC. -/
private def jsonVars (as : List (Parameter × V)) : List (Bytes × Entity V) :=
  vars as ++ [(str "params", .params)] ++ [(str "ret", .other)]

private theorem pack_eq {as : List (Parameter × V)} {m : Method} (hparams : as.map (·.1) = m.Params)
    (hnodup : (m.Params.map (·.Name)).Nodup) :
    Client.exec calls ⟨⟨vars as, outer⟩, [], none⟩ (.pack (m.Params.map fun p => (p.Name, p.Name))) =
      if str "params" ∈ (vars as).map (·.1) then none
      else some ⟨⟨vars as ++ [(str "params", .params)], outer⟩, (jsonRequest m as).object, none⟩ := by
  rw [← hparams] at hnodup
  have hvalues := mapM_vars hnodup ([(str "params", .params)] ++ outer)
  rw [List.mapM_map, hparams] at hvalues
  have hargs : m.Params.mapM ((fun a : Bytes × Bytes =>
      (Scope.find ⟨vars as, [(str "params", .params)] ++ outer⟩ a.2).bind item) ∘
        fun p => (p.Name, p.Name)) = some (items as) := hvalues
  rw [Client.exec, Scope.declare]
  split_ifs with hmem
  · rfl
  · simp only [Scope.find_append, List.mapM_map, Option.bind_eq_bind, Option.bind_some]
    rw [hargs, Option.bind_some, List.map_map, items, List.map_map]
    rfl

private theorem send_eq {b : List (Bytes × Entity V)} {m : Bytes} {o : List (Bytes × V)}
    (hb : str "params" ∉ b.map (·.1)) :
    Client.exec calls ⟨⟨b ++ [(str "params", .params)], outer⟩, o, none⟩ (.send m) =
      if calls = true ∧ str "ret" ∉ b.map (·.1) then
        some ⟨⟨b ++ [(str "params", .params)] ++ [(str "ret", .other)], outer⟩, o, some ⟨m, [], o⟩⟩
      else none := by
  have hne : str "ret" ≠ str "params" := by decide
  have hmem : str "ret" ∈ (b ++ [(str "params", Entity.params)]).map (fun e : Bytes × Entity V => e.1) ↔
      str "ret" ∈ b.map (·.1) := by
    rw [names_concat, List.mem_append, List.mem_singleton, or_iff_left hne]
  rw [Client.exec, Scope.find_concat hb]
  -- `ret` is declared in the block of the parameters and of `params`
  by_cases hret : str "ret" ∈ b.map (·.1)
  · have hdeclare : Scope.declare (⟨b ++ [(str "params", .params)], outer⟩ : Names V) (str "ret")
        .other = none := if_pos (hmem.mpr hret)
    have hnot : ¬ (calls = true ∧ str "ret" ∉ b.map (·.1)) := fun h => h.2 hret
    rw [hdeclare, if_neg hnot]
    exact ite_self _
  · have hdeclare : Scope.declare (⟨b ++ [(str "params", .params)], outer⟩ : Names V) (str "ret")
        .other = some ⟨b ++ [(str "params", .params)] ++ [(str "ret", .other)], outer⟩ :=
      if_neg (mt hmem.mp hret)
    rw [hdeclare]
    by_cases hcalls : calls = true
    · rw [if_pos hcalls, if_pos ⟨hcalls, hret⟩]
      rfl
    · rw [if_neg hcalls, if_neg fun h => hcalls h.1]

/-- What a client for JSON RPC does after it has sent its request. -/
private theorem received_iff {s : Names V} {o : List (Bytes × V)} {sent req : Request V}
    {ty : TypeText} :
    (∃ c, ((Client.exec calls ⟨s, o, some sent⟩ .check).bind fun c =>
      (if ty ≠ VOID then [ClientStmt.result ty] else []).foldlM (Client.exec calls) c) = some c ∧
        c.sent = some req) ↔
      (s.find (str "String") = none ∧ (ty ≠ VOID → sees s ty = true)) ∧ req = sent := by
  rw [Client.exec]
  -- the cast of an error is printed for each method, the one of the result where there is one
  cases hfind : s.find (str "String") with
  | some e =>
      refine iff_of_false ?_ fun h => nomatch h.1.1
      rintro ⟨c, hc, -⟩
      nomatch hc
  | none =>
      rw [and_iff_right rfl]
      by_cases hty : ty ≠ VOID → sees s ty = true
      · have hrest : (if ty ≠ VOID then [ClientStmt.result ty] else []).foldlM (Client.exec calls)
            (⟨s, o, some sent⟩ : Client V) = some ⟨s, o, some sent⟩ := by
          split_ifs with hvoid
          · rw [List.foldlM_cons, Client.exec, hty hvoid]
            rfl
          · rfl
        rw [and_iff_right hty]
        constructor
        · rintro ⟨c, hc, hsent⟩
          cases hrest.symm.trans hc
          exact (Option.some.inj hsent).symm
        · rintro rfl
          exact ⟨_, hrest, rfl⟩
      · obtain ⟨hvoid, hsees⟩ := Classical.not_imp.mp hty
        refine iff_of_false ?_ fun h => hty h.1
        rintro ⟨c, hc, -⟩
        rw [if_pos hvoid, Option.isNone_none, if_pos rfl, Option.bind_some, List.foldlM_cons,
          Client.exec, if_neg hsees] at hc
        nomatch hc

/-- The client for JSON RPC sends what its parameters have, under their names. -/
private theorem jsonRequest_iff {as : List (Parameter × V)} {m : Method} {args : List V}
    (has : m.Params.zip args = as) (hparams : as.map (·.1) = m.Params) {req : Request V} :
    Client.request word calls outer m (jsonClient m) args = some req ↔
      (Declares word (outer.map (·.1)) [] m.Params ∧ calls = true ∧
        (∀ p ∈ m.Params, p.Name ∉ [str "params", str "ret", str "String"]) ∧
        str "String" ∉ outer.map (·.1) ∧ (m.ReturnType ≠ VOID → ∀ n ∈ exposed false m.ReturnType,
          (n ∉ m.Params.map (·.Name) ∧ n ∉ [str "params", str "ret"]) ∧ n ∉ outer.map (·.1))) ∧
        req = jsonRequest m as := by
  have hnames := names_params hparams
  have hapart : (∀ p ∈ m.Params, p.Name ∉ [str "params", str "ret", str "String"]) ↔
      str "params" ∉ (vars as).map (·.1) ∧ str "ret" ∉ (vars as).map (·.1) ∧
        str "String" ∉ (vars as).map (·.1) := by
    simp only [hnames, List.mem_map, List.mem_cons, List.not_mem_nil, or_false, not_or, not_exists,
      not_and, ← forall_and]
  have hwhole : (jsonVars as).map (·.1) = (vars as).map (·.1) ++ [str "params", str "ret"] := by
    rw [jsonVars, names_concat, names_concat, List.append_assoc]
    rfl
  rw [request_iff has hparams, and_assoc]
  refine and_congr_right fun hdeclares => ?_
  rw [hapart, jsonClient, List.foldlM_append, List.foldlM_cons,
    pack_eq hparams (nodup_of_declares hdeclares)]
  -- each statement of the client in turn, with the names that it declares
  by_cases hobject : str "params" ∈ (vars as).map (·.1)
  · rw [if_pos hobject]
    refine iff_of_false ?_ fun h => h.1.2.1.1 hobject
    rintro ⟨c, hc, -⟩
    cases hc
  rw [if_neg hobject, and_iff_right hobject]
  simp only [Option.bind_eq_bind, Option.bind_some, List.foldlM_cons, send_eq hobject]
  by_cases hsend : calls = true ∧ str "ret" ∉ (vars as).map (·.1)
  · rw [if_pos hsend, and_iff_right hsend.1, and_iff_right hsend.2]
    have hstring : str "String" ∉ (vars as).map (·.1) ∧ str "String" ∉ outer.map (·.1) ↔
        Scope.find ⟨jsonVars as, outer⟩ (str "String") = none := by
      have hne : str "String" ∉ [str "params", str "ret"] := by decide
      rw [Scope.find_eq_none, hwhole, List.mem_append, not_or, and_iff_left hne]
    have htypes : (∀ n ∈ exposed false m.ReturnType, (n ∉ m.Params.map (·.Name) ∧
        n ∉ [str "params", str "ret"]) ∧ n ∉ outer.map (·.1)) ↔
          sees ⟨jsonVars as, outer⟩ m.ReturnType = true := by
      simp only [sees_iff, hwhole, List.mem_append, not_or, hnames]
    rw [htypes, ← and_assoc, hstring]
    simp only [Option.bind_some, List.foldlM_nil, Option.pure_def, Option.bind_fun_some]
    exact received_iff
  · rw [if_neg hsend]
    refine iff_of_false ?_ fun h => hsend ⟨h.1.1, h.1.2.1.1⟩
    rintro ⟨c, hc, -⟩
    cases hc

end

/-! ## Members -/

section

variable {svc : RpcType}

private theorem owners_cons (c : Class) (bases : List Class) (n : Bytes) :
    owners (c :: bases) n =
      if n = c.name ∨ n ∈ c.members then c :: owners bases n else owners bases n := by
  rw [owners, List.filter_cons]
  simp only [decide_eq_true_eq]
  rfl

private theorem prefixed_ne {a b : UInt8} {x n : Bytes} (h : a ≠ b) : a :: x ≠ b :: n :=
  fun heq => h (List.cons.inj heq).1

/-- A method that is declared in a class is found there, unless it has the name of the class. -/
private theorem findMember_own {self : Class} {bases : List Class} {n : Bytes}
    (h : n ∈ self.members) : findMember self bases n = some self.name ↔ n ≠ self.name := by
  rw [findMember]
  split_ifs with heq
  · exact iff_of_false nofun fun hne => hne heq
  · exact iff_of_true rfl heq

/-- A member of the only base is found, unless the class declares it as well. -/
private theorem findMember_base {self c : Class} {n : Bytes} (hself : n ≠ self.name)
    (hname : self.name ≠ c.name) (hn : n ∈ c.members) (hc : n ≠ c.name) :
    findMember self [c] n = some c.name ↔ n ∉ self.members := by
  rw [findMember, if_neg hself]
  split_ifs with hmem
  · exact iff_of_false (fun h => hname (Option.some.inj h)) fun h => h hmem
  · refine iff_of_true ?_ hmem
    rw [owners_cons, if_pos (.inr hn)]
    exact if_neg hc

/-- A member of the first of two bases is found, unless it is also one of the second. -/
private theorem findMember_first {self c d : Class} {n : Bytes} (hself : n ∉ self.members)
    (hn : n ∈ c.members) : findMember self [c, d] n = some c.name ↔
      n ≠ self.name ∧ n ≠ c.name ∧ ¬ (n = d.name ∨ n ∈ d.members) := by
  rw [findMember, if_neg hself]
  split_ifs with heq
  · exact iff_of_false nofun fun h => h.1 heq
  rw [and_iff_right heq, owners_cons, if_pos (.inr hn), owners_cons]
  by_cases hboth : n = d.name ∨ n ∈ d.members
  · rw [if_pos hboth]
    exact iff_of_false nofun fun h => h.2 hboth
  · rw [if_neg hboth, and_iff_left hboth]
    by_cases hc : n = c.name
    · refine iff_of_false (fun h => ?_) fun h => h hc
      nomatch (if_pos hc).symm.trans h
    · exact iff_of_true (if_neg hc) hc

/-- A member of the second of two bases is found, unless it is also one of the first. -/
private theorem findMember_second {self c d : Class} {n : Bytes} (hname : n ≠ self.name)
    (hself : n ∉ self.members) (hn : n ∈ d.members) (hd : n ≠ d.name) :
    findMember self [c, d] n = some d.name ↔ ¬ (n = c.name ∨ n ∈ c.members) := by
  rw [findMember, if_neg hname, if_neg hself, owners_cons]
  by_cases hboth : n = c.name ∨ n ∈ c.members
  · rw [if_pos hboth, owners_cons, if_pos (.inr hn)]
    exact iff_of_false nofun fun h => h hboth
  · rw [if_neg hboth, owners_cons, if_pos (.inr hn)]
    exact iff_of_true (if_neg hd) hboth

private theorem suil_heads (svc : RpcType) : (suilHandler svc).name ≠ str "methodsMeta" ∧
    (suilClass svc).name ≠ str "call" ∧ (suilClass svc).name ≠ SUIL_RPC_CLIENT.name := by
  have hs : str "s" = [115] := by decide
  have hm : str "methodsMeta" = 109 :: str "ethodsMeta" := by decide
  have hc : str "call" = 99 :: str "all" := by decide
  have hS : SUIL_RPC_CLIENT.name = 83 :: str "uilRpcClient" := by decide
  rw [suilHandler, suilClass, hs, hm, hc, hS]
  exact ⟨prefixed_ne (by decide), prefixed_ne (by decide), prefixed_ne (by decide)⟩

private theorem json_heads (svc : RpcType) :
    (jsonClass svc).name ≠ str "call" ∧ (jsonClass svc).name ≠ JSON_RPC_CLIENT.name := by
  have hj : str "j" = [106] := by decide
  have hc : str "call" = 99 :: str "all" := by decide
  have hJ : JSON_RPC_CLIENT.name = 74 :: str "sonRpcClient" := by decide
  rw [jsonClass, hj, hc, hJ]
  exact ⟨prefixed_ne (by decide), prefixed_ne (by decide)⟩

/-- What the names of a handler of Suil RPC may not be. -/
private def suilMembers : List Bytes :=
  [str "SuilRpcHandler", str "getMethodsRef", str "getMethods", str "methodsMeta"]

private theorem mem_suilMembers {n : Bytes} :
    n = SUIL_RPC_HANDLER.name ∨ n ∈ SUIL_RPC_HANDLER.members ↔ n ∈ suilMembers := by
  rw [suilMembers, List.mem_cons]
  rfl

private theorem registers_iff_listed : registers svc = true ↔
    svc.Name ∉ suilMembers ∧ str "methodsMeta" ∉ svc.Methods.map (·.Name) := by
  have hmeta : str "methodsMeta" ∈ SUIL_RPC_HANDLER.members := by decide
  have hname : str "methodsMeta" ≠ SUIL_RPC_HANDLER.name := by decide
  have hmem : str "methodsMeta" ∈ suilMembers := by decide
  have hone : (owners (suilBases svc) svc.Name).length = 1 ↔ svc.Name ∉ suilMembers := by
    rw [suilBases, owners_cons, if_pos (.inl rfl), owners_cons, ← mem_suilMembers]
    split_ifs with hX
    · exact iff_of_false nofun fun h => h hX
    · exact iff_of_true rfl hX
  rw [registers, decide_eq_true_iff, hone, suilBases,
    findMember_second (suil_heads svc).1.symm List.not_mem_nil hmeta hname]
  refine and_congr_right fun hX => not_congr ?_
  have hne : str "methodsMeta" ≠ svc.Name := fun heq => hX (heq ▸ hmem)
  exact or_iff_right hne

private theorem suilImplements_iff {n : Bytes} (hn : n ∈ svc.Methods.map (·.Name)) :
    suilImplements svc n = true ↔
      n ≠ (suilHandler svc).name ∧ n ≠ svc.Name ∧ n ∉ suilMembers := by
  rw [suilImplements, decide_eq_true_iff, ← mem_suilMembers]
  exact findMember_first List.not_mem_nil hn

private theorem jsonImplements_iff {n : Bytes} (hn : n ∈ svc.Methods.map (·.Name)) :
    jsonImplements svc n = true ↔
      n ≠ (jsonHandler svc).name ∧ n ≠ svc.Name ∧ n ≠ str "JsonRpcHandler" := by
  have hbase : n ≠ str "JsonRpcHandler" ↔ ¬ (n = str "JsonRpcHandler" ∨ n ∈ ([] : List Bytes)) := by
    rw [or_iff_left List.not_mem_nil]
  rw [jsonImplements, decide_eq_true_iff, hbase]
  exact findMember_first List.not_mem_nil hn

private theorem suilCalls_iff :
    decide (findMember (suilClass svc) [SUIL_RPC_CLIENT] (str "call") = some SUIL_RPC_CLIENT.name) =
      true ↔ str "call" ∉ svc.Methods.map (·.Name) := by
  have hmem : str "call" ∈ SUIL_RPC_CLIENT.members := by decide
  have hname : str "call" ≠ SUIL_RPC_CLIENT.name := by decide
  rw [decide_eq_true_iff]
  exact findMember_base (suil_heads svc).2.1.symm (suil_heads svc).2.2 hmem hname

private theorem jsonCalls_iff :
    decide (findMember (jsonClass svc) [JSON_RPC_CLIENT] (str "call") = some JSON_RPC_CLIENT.name) =
      true ↔ str "call" ∉ svc.Methods.map (·.Name) := by
  have hmem : str "call" ∈ JSON_RPC_CLIENT.members := by decide
  have hname : str "call" ≠ JSON_RPC_CLIENT.name := by decide
  rw [decide_eq_true_iff]
  exact findMember_base (json_heads svc).1.symm (json_heads svc).2 hmem hname

private theorem names_around (names : List (Bytes × Entity V)) (self : Class) (bases : List Class) :
    (around names self bases).map (·.1) = names.map (·.1) ++ memberNames self bases := by
  rw [around, List.map_append, List.map_map]
  exact congrArg (names.map (·.1) ++ ·) (List.map_id _)

private theorem find_suilNames (self : Class) (bases : List Class) :
    Scope.find (⟨[], around suilNames self bases⟩ : Names V) (str "params") = some .params ∧
      Scope.find (⟨[], around suilNames self bases⟩ : Names V) (str "results") = some .results := by
  have h₀ : str "params" ≠ str "results" := by decide
  have h₁ : str "params" ≠ str "method" := by decide
  rw [around, suilNames, List.cons_append, List.cons_append, List.cons_append]
  refine ⟨?_, ?_⟩
  · rw [Scope.find_outer, if_neg h₀, Scope.find_outer, if_neg h₁, Scope.find_outer, if_pos rfl]
  · rw [Scope.find_outer, if_pos rfl]

private theorem find_jsonNames (self : Class) (bases : List Class) :
    Scope.find (⟨[], around jsonNames self bases⟩ : Names V) (str "params") = some .params := by
  have h₀ : str "params" ≠ str "method" := by decide
  rw [around, jsonNames, List.cons_append, List.cons_append, Scope.find_outer, if_neg h₀,
    Scope.find_outer, if_pos rfl]

/-- What a name of a method leads to in the client and the connection for Suil RPC. -/
private theorem dispatch_suil {m : Method} (hm : m ∈ svc.Methods) {β : Type}
    (g : List CaseStmt → Option β) :
    ((methodId svc m.Name).bind fun id => if id ≤ 0 then none
      else ((suilCases svc).find? (·.1 = id)).bind fun body => g body.2) =
      if str "rpc_" <:+: m.Name then none else g (suilCase m) := by
  rw [methodId, if_neg (svc.named m hm)]
  by_cases hext : str "rpc_" <:+: m.Name
  · rw [if_pos hext, if_pos hext, extMethods, List.find?_singleton]
    split_ifs
    · rfl
    · rfl
  · obtain ⟨k, hk, hname, hcase⟩ := exists_number suilCase svc.distinct hm 1
    have hpos : ¬ k ≤ 0 := by omega
    rw [if_neg hext, if_neg hext, methodsMeta, hname, Option.map_some, Option.bind_some, if_neg hpos,
      suilCases, hcase, Option.bind_some]

/-- What a name of a method leads to in the connection and the handler for JSON RPC. -/
private theorem dispatch_json {m : Method} (hm : m ∈ svc.Methods) {β : Type}
    (g : List CaseStmt → Option β) :
    (if str "rpc_" <+: m.Name then none
      else ((scMappings svc).find? (·.2 = m.Name)).bind fun it =>
        ((jsonCases svc).find? (·.1 = it.1)).bind fun body => g body.2) =
      if str "rpc_" <+: m.Name then none else g (jsonCase m) := by
  obtain ⟨k, -, hname, hcase⟩ := exists_number jsonCase svc.distinct hm 0
  rw [scMappings, hname, Option.bind_some, jsonCases, hcase, Option.bind_some]

/-! ## What is printed once -/

variable {word : Bytes → Bool} {m : Method} {args : List V}

/-- A name that neither a handler nor its base in the library has is hidden by a method only. -/
private theorem notMem_hides {n : Bytes} {names : List Bytes} {self c d : Class}
    (hself : self.members = []) (hnames : n ∉ names) (hd : n ∉ d.members) :
    n ∉ names ++ memberNames self [c, d] ↔ n ∉ c.members := by
  rw [memberNames, hself, List.flatMap_cons, List.flatMap_cons, List.flatMap_nil]
  simp only [List.mem_append, List.not_mem_nil, hnames, hd, false_or, or_false]

private theorem suilDefault_isSome :
    ((suilDefault.foldlM (Frame.exec word (suilImplements svc))
      ⟨⟨[], around suilNames (suilHandler svc) (suilBases svc)⟩, [], [], []⟩ :
        Option (Frame Unit))).isSome = true ↔
      str "Result" ∉ svc.Methods.map (·.Name) ∧
        str "SRPC_METHOD_NOT_FOUND" ∉ svc.Methods.map (·.Name) := by
  have hfind : ∀ n, n ∉ [str "results", str "method", str "params", str "id"] →
      n ∉ SUIL_RPC_HANDLER.members →
      (Scope.find (⟨[], around suilNames (suilHandler svc) (suilBases svc)⟩ : Names Unit) n = none ↔
        n ∉ svc.Methods.map (·.Name)) := by
    intro n hnames hmembers
    refine Scope.find_eq_none.trans ((and_iff_right List.not_mem_nil).trans ?_)
    rw [names_around]
    exact notMem_hides rfl hnames hmembers
  rw [← hfind _ (by decide) (by decide), ← hfind (str "SRPC_METHOD_NOT_FOUND") (by decide) (by decide),
    suilDefault, List.foldlM_cons, Frame.exec]
  simp only [Option.isNone_iff_eq_none]
  split_ifs with h
  · have hdeclare : ∀ outer : List (Bytes × Entity Unit), Scope.declare ⟨[], outer⟩ (str "res") .other =
        some ⟨[(str "res", .other)], outer⟩ := fun _ => if_neg List.not_mem_nil
    rw [hdeclare]
    exact iff_of_true rfl h
  · exact iff_of_false Bool.false_ne_true h

private theorem jsonDefault_isSome :
    ((jsonDefault.foldlM (Frame.exec word (jsonImplements svc))
      ⟨⟨[], around jsonNames (jsonHandler svc) (jsonBases svc)⟩, [], [], []⟩ :
        Option (Frame Unit))).isSome = true ↔
      str "JRPC_METHOD_NOT_FOUND" ∉ svc.Methods.map (·.Name) := by
  have hfind : Scope.find (⟨[], around jsonNames (jsonHandler svc) (jsonBases svc)⟩ : Names Unit)
      (str "JRPC_METHOD_NOT_FOUND") = none ↔
        str "JRPC_METHOD_NOT_FOUND" ∉ svc.Methods.map (·.Name) := by
    refine Scope.find_eq_none.trans ((and_iff_right List.not_mem_nil).trans ?_)
    rw [names_around]
    exact notMem_hides rfl (by decide) List.not_mem_nil
  rw [← hfind, jsonDefault, List.foldlM_cons, Frame.exec]
  simp only [Option.isNone_iff_eq_none]
  split_ifs with h
  · exact iff_of_true rfl h
  · exact iff_of_false Bool.false_ne_true h

/-- The arguments of a call take at most the one name. -/
private theorem mem_library_args {n : Bytes} {args : List Arg} (h : n ∈ args.flatMap Arg.library) :
    n = str "std" := by
  obtain ⟨a, -, ha⟩ := List.mem_flatMap.mp h
  rw [Arg.library] at ha
  split_ifs at ha
  · exact List.mem_singleton.mp ha
  · exact absurd ha List.not_mem_nil

private theorem suilCase_library {c : CaseStmt} (hc : c ∈ suilCase m) {n : Bytes}
    (hn : n ∈ c.library) : n = str "Result" ∨ n = str "std" := by
  rw [suilCase, List.mem_append, List.mem_append] at hc
  rcases hc with (hc | hc) | hc
  · obtain ⟨p, -, hc⟩ := List.mem_flatMap.mp hc
    simp only [List.mem_cons, List.not_mem_nil, or_false] at hc
    rcases hc with rfl | rfl
    · exact absurd hn List.not_mem_nil
    · exact absurd hn List.not_mem_nil
  · split_ifs at hc
    · obtain rfl := List.mem_singleton.mp hc
      exact .inr (mem_library_args hn)
    · simp only [List.mem_cons, List.not_mem_nil, or_false] at hc
      rcases hc with rfl | rfl
      · exact .inr (mem_library_args hn)
      · exact absurd hn List.not_mem_nil
  · obtain rfl := List.mem_singleton.mp hc
    exact .inl (List.mem_singleton.mp hn)

private theorem jsonCase_library {c : CaseStmt} (hc : c ∈ jsonCase m) {n : Bytes}
    (hn : n ∈ c.library) : n = str "std" ∨ n = str "suil" := by
  have hanswer : n ∈ [str "std", str "suil"] → n = str "std" ∨ n = str "suil" := by simp
  rw [jsonCase, List.mem_append] at hc
  rcases hc with hc | hc
  · obtain ⟨p, -, rfl⟩ := List.mem_map.mp hc
    exact absurd hn List.not_mem_nil
  · split_ifs at hc
    · obtain rfl := List.mem_singleton.mp hc
      rcases List.mem_append.mp hn with hn | hn
      · exact hanswer hn
      · exact .inl (mem_library_args hn)
    · simp only [List.mem_cons, List.not_mem_nil, or_false] at hc
      rcases hc with rfl | rfl
      · exact .inl (mem_library_args hn)
      · exact hanswer hn

/-- What is printed for Suil RPC takes the names that the `default` and the heads take. -/
private theorem mem_suilLibrary {n : Bytes} : n ∈ suilLibrary svc ↔
    n ∈ [str "Result", str "SRPC_METHOD_NOT_FOUND", str "std", str "suil"] := by
  have hdefault : n ∈ suilDefault.flatMap (·.library) ↔
      n ∈ [str "Result", str "SRPC_METHOD_NOT_FOUND", str "std"] := Iff.rfl
  simp only [suilLibrary, List.flatMap_append, List.mem_append, hdefault, List.mem_cons,
    List.not_mem_nil, or_false]
  constructor
  · rintro (((h | h) | (h | h)) | h)
    · exact .inl h
    · exact .inr (.inr (.inr h))
    · obtain ⟨c, hc, hn⟩ := List.mem_flatMap.mp h
      obtain ⟨m, -, hc⟩ := List.mem_flatMap.mp hc
      exact (suilCase_library hc hn).imp_right fun h => .inr (.inl h)
    · exact h.imp_right (.imp_right .inl)
    · obtain ⟨c, hc, hn⟩ := List.mem_flatMap.mp h
      obtain ⟨m, -, hc⟩ := List.mem_flatMap.mp hc
      obtain rfl := List.mem_singleton.mp hc
      exact absurd hn List.not_mem_nil
  · rintro (h | h | h | h)
    · exact .inl (.inl (.inl h))
    · exact .inl (.inr (.inr (.inr (.inl h))))
    · exact .inl (.inr (.inr (.inr (.inr h))))
    · exact .inl (.inl (.inr h))

private theorem mem_jsonClient {n : Bytes} : n ∈ (jsonClient m).flatMap (·.library) ↔
    n = str "std" ∨ n = str "suil" ∨ n = str "String" ∨ m.Params ≠ [] ∧ n = str "json" := by
  have hresult : n ∉ (if m.ReturnType ≠ VOID then [ClientStmt.result m.ReturnType] else []).flatMap
      (·.library) := by
    split_ifs
    · exact List.not_mem_nil
    · exact List.not_mem_nil
  rw [jsonClient, List.flatMap_append, List.mem_append, or_iff_left hresult]
  cases hparams : m.Params with
  | nil => simp [ClientStmt.library]; tauto
  | cons p ps => simp [ClientStmt.library]; tauto

/-- And for JSON RPC those that a client takes. -/
private theorem mem_jsonLibrary {n : Bytes} : n ∈ jsonLibrary svc ↔
    n ∈ [str "ReturnType", str "JRPC_METHOD_NOT_FOUND", str "std", str "suil"] ∨
      ∃ m ∈ svc.Methods, n = str "String" ∨ m.Params ≠ [] ∧ n = str "json" := by
  have hdefault : n ∈ jsonDefault.flatMap (·.library) ↔
      n ∈ [str "std", str "JRPC_METHOD_NOT_FOUND", str "suil"] := Iff.rfl
  simp only [jsonLibrary, List.flatMap_append, List.flatMap_assoc, List.mem_append, hdefault,
    List.mem_cons, List.not_mem_nil, or_false]
  constructor
  -- by the place where the name is printed: the default branch, a case, the head, a client
  · rintro (((h | h) | (h | h)) | h)
    · exact .inl (.inl h)
    · exact .inl (.inr (.inr (.inr h)))
    · obtain ⟨m, -, h⟩ := List.mem_flatMap.mp h
      obtain ⟨c, hc, hn⟩ := List.mem_flatMap.mp h
      exact .inl (.inr (.inr (jsonCase_library hc hn)))
    · rcases h with h | h | h
      · exact .inl (.inr (.inr (.inl h)))
      · exact .inl (.inr (.inl h))
      · exact .inl (.inr (.inr (.inr h)))
    · obtain ⟨m, hm, h⟩ := List.mem_flatMap.mp h
      rcases mem_jsonClient.mp h with h | h | h
      · exact .inl (.inr (.inr (.inl h)))
      · exact .inl (.inr (.inr (.inr h)))
      · exact .inr ⟨m, hm, h⟩
  · rintro ((h | h | h | h) | ⟨m, hm, h⟩)
    · exact .inl (.inl (.inl h))
    · exact .inl (.inr (.inr (.inr (.inl h))))
    · exact .inl (.inr (.inr (.inl h)))
    · exact .inl (.inl (.inr h))
    · exact .inr (List.mem_flatMap.mpr ⟨m, hm, mem_jsonClient.mpr (.inr (.inr h))⟩)

/-! ## Calls -/

private theorem map_fst_zip (hargs : args.length = m.Params.length) :
    (m.Params.zip args).map (·.1) = m.Params :=
  List.map_fst_zip (Nat.le_of_eq hargs.symm)

private theorem map_snd_zip (hargs : args.length = m.Params.length) :
    (m.Params.zip args).map (·.2) = args :=
  List.map_snd_zip (Nat.le_of_eq hargs)

private theorem suilCall_iff (hm : m ∈ svc.Methods) (hargs : args.length = m.Params.length) :
    suilCall svc word m args = some (m.Name, args) ↔
      (word m.Name = false ∧ m.Name ≠ (suilClass svc).name) ∧
      (Declares word (memberNames (suilClass svc) [SUIL_RPC_CLIENT]) [] m.Params ∧
        str "call" ∉ svc.Methods.map (·.Name) ∧
        ∀ n ∈ exposed false m.ReturnType, n ∉ m.Params.map (·.Name) ∧
          n ∉ memberNames (suilClass svc) [SUIL_RPC_CLIENT]) ∧
      ¬ str "rpc_" <:+: m.Name ∧
      (Declares word (suilHides svc) [] m.Params ∧ ∀ p ∈ m.Params, p.Name ≠ str "params") ∧
        suilImplements svc m.Name = true ∧ Keeps (suilHides svc) m ∧
        str "Result" ∉ m.Params.map (·.Name) ∧ str "Result" ∉ suilHides svc := by
  have hparams := map_fst_zip hargs
  have hmem : m.Name ∈ svc.Methods.map (·.Name) := List.mem_map_of_mem hm
  have hown := @findMember_own (suilClass svc) [SUIL_RPC_CLIENT] _ hmem
  have hrequest := fun req => @suilRequest_iff _ word (around [] (suilClass svc) [SUIL_RPC_CLIENT])
    (findMember (suilClass svc) [SUIL_RPC_CLIENT] (str "call") = some SUIL_RPC_CLIENT.name)
    _ _ args rfl hparams req
  simp only [names_around, List.map_nil, List.nil_append, suilCalls_iff] at hrequest
  have hcase := @suilCase_iff _ word (suilImplements svc) _ _ _ hparams
    (find_suilNames (suilHandler svc) (suilBases svc)).1
    (find_suilNames (suilHandler svc) (suilBases svc)).2 (m.Name, args)
  have hhides : (around (suilNames (V := V)) (suilHandler svc) (suilBases svc)).map (·.1) =
      suilHides svc := names_around _ _ _
  rw [hhides, map_snd_zip hargs, and_iff_left rfl] at hcase
  rw [suilCall, ← hown, ← Bool.not_eq_true']
  -- the way of a call: the member of the client, its request, the number, the case
  by_cases hhead : (!word m.Name) = true ∧ findMember (suilClass svc) [SUIL_RPC_CLIENT] m.Name =
      some (suilClass svc).name
  · rw [if_pos hhead, and_iff_right hhead]
    by_cases hsends : Declares word (memberNames (suilClass svc) [SUIL_RPC_CLIENT]) [] m.Params ∧
        str "call" ∉ svc.Methods.map (·.Name) ∧
        ∀ n ∈ exposed false m.ReturnType, n ∉ m.Params.map (·.Name) ∧
          n ∉ memberNames (suilClass svc) [SUIL_RPC_CLIENT]
    · have hreq := (hrequest _).mpr ⟨hsends, rfl⟩
      simp only [hreq]
      rw [and_iff_right hsends]
      have hdispatch := dispatch_suil hm fun body => Frame.call word (suilImplements svc)
        ⟨⟨[], around suilNames (suilHandler svc) (suilBases svc)⟩, items (m.Params.zip args), [], []⟩
        body
      refine (iff_of_eq (congrArg (· = some (m.Name, args)) hdispatch)).trans ?_
      by_cases hext : str "rpc_" <:+: m.Name
      · rw [if_pos hext]
        exact iff_of_false nofun fun h => h.1 hext
      · rw [if_neg hext, and_iff_right hext]
        exact hcase
    · have hreq := Option.eq_none_iff_forall_ne_some.mpr fun req h =>
        hsends ((hrequest req).mp h).1
      simp only [hreq]
      exact iff_of_false nofun fun h => hsends h.1
  · rw [if_neg hhead]
    exact iff_of_false nofun fun h => hhead h.1

/-- Every parameter is found in the object under its name. -/
private theorem lookup_request (hargs : args.length = m.Params.length)
    (hnodup : (m.Params.map (·.Name)).Nodup) :
    ∀ a ∈ m.Params.zip args, (jsonRequest m (m.Params.zip args)).object.lookup a.1.Name =
      some a.2 := by
  have hobject : (jsonRequest m (m.Params.zip args)).object =
      (m.Params.zip args).map fun a => (a.1.Name, a.2) := by
    have hnames : m.Params.map (·.Name) = (m.Params.zip args).map fun a => a.1.Name := by
      conv_lhs => rw [← map_fst_zip hargs, List.map_map]
      rfl
    rw [jsonRequest, hnames, List.zip_map']
  have hnames : ((m.Params.zip args).map fun a => a.1.Name).Nodup := by
    have hmap : (m.Params.zip args).map (fun a => a.1.Name) = m.Params.map (·.Name) := by
      conv_rhs => rw [← map_fst_zip hargs, List.map_map]
      rfl
    rw [hmap]
    exact hnodup
  rw [hobject]
  generalize m.Params.zip args = as at hnames ⊢
  -- on the parameters: their names are distinct, so that the first entry is their own
  induction as with
  | nil => nofun
  | cons b as ih =>
      rw [List.map_cons, List.nodup_cons] at hnames
      intro a ha
      rcases List.mem_cons.mp ha with rfl | hmem
      · exact List.lookup_cons_self
      · have hne : a.1.Name ≠ b.1.Name := fun heq => hnames.1 (heq ▸ List.mem_map_of_mem hmem)
        rw [List.map_cons, List.lookup_cons, beq_eq_false_iff_ne.mpr hne]
        exact ih hnames.2 a hmem

private theorem jsonCall_iff (hm : m ∈ svc.Methods) (hargs : args.length = m.Params.length) :
    jsonCall svc word m args = some (m.Name, args) ↔
      (word m.Name = false ∧ m.Name ≠ (jsonClass svc).name) ∧
      (Declares word (memberNames (jsonClass svc) [JSON_RPC_CLIENT]) [] m.Params ∧
        str "call" ∉ svc.Methods.map (·.Name) ∧
        (∀ p ∈ m.Params, p.Name ∉ [str "params", str "ret", str "String"]) ∧
        str "String" ∉ memberNames (jsonClass svc) [JSON_RPC_CLIENT] ∧
        (m.ReturnType ≠ VOID → ∀ n ∈ exposed false m.ReturnType, (n ∉ m.Params.map (·.Name) ∧
          n ∉ [str "params", str "ret"]) ∧ n ∉ memberNames (jsonClass svc) [JSON_RPC_CLIENT])) ∧
      ¬ str "rpc_" <+: m.Name ∧
      (Declares word (jsonHides svc) [] m.Params ∧ ∀ p ∈ m.Params,
        p.Name ≠ str "params" ∧ p.Name ∉ exposed false p.ParameterType) ∧
        jsonImplements svc m.Name = true := by
  have hparams := map_fst_zip hargs
  have hmem : m.Name ∈ svc.Methods.map (·.Name) := List.mem_map_of_mem hm
  have hown := @findMember_own (jsonClass svc) [JSON_RPC_CLIENT] _ hmem
  have hrequest := fun req => @jsonRequest_iff _ word (around [] (jsonClass svc) [JSON_RPC_CLIENT])
    (findMember (jsonClass svc) [JSON_RPC_CLIENT] (str "call") = some JSON_RPC_CLIENT.name)
    _ _ args rfl hparams req
  simp only [names_around, List.map_nil, List.nil_append, jsonCalls_iff] at hrequest
  rw [jsonCall, ← hown, ← Bool.not_eq_true']
  -- the way of a call: the member of the client, its request, the mapping, the case
  by_cases hhead : (!word m.Name) = true ∧ findMember (jsonClass svc) [JSON_RPC_CLIENT] m.Name =
      some (jsonClass svc).name
  · rw [if_pos hhead, and_iff_right hhead]
    by_cases hsends : Declares word (memberNames (jsonClass svc) [JSON_RPC_CLIENT]) [] m.Params ∧
        str "call" ∉ svc.Methods.map (·.Name) ∧
        (∀ p ∈ m.Params, p.Name ∉ [str "params", str "ret", str "String"]) ∧
        str "String" ∉ memberNames (jsonClass svc) [JSON_RPC_CLIENT] ∧
        (m.ReturnType ≠ VOID → ∀ n ∈ exposed false m.ReturnType, (n ∉ m.Params.map (·.Name) ∧
          n ∉ [str "params", str "ret"]) ∧ n ∉ memberNames (jsonClass svc) [JSON_RPC_CLIENT])
    · have hreq := (hrequest _).mpr ⟨hsends, rfl⟩
      have hcase := @jsonCase_iff _ word (jsonImplements svc) _ _ _ hparams
        (find_jsonNames (jsonHandler svc) (jsonBases svc)) _
        (lookup_request hargs (nodup_of_declares hsends.1)) (m.Name, args)
      have hhides : (around (jsonNames (V := V)) (jsonHandler svc) (jsonBases svc)).map (·.1) =
          jsonHides svc := names_around _ _ _
      rw [hhides, map_snd_zip hargs, and_iff_left rfl] at hcase
      simp only [hreq]
      rw [and_iff_right hsends]
      have hdispatch := dispatch_json hm fun body => Frame.call word (jsonImplements svc)
        ⟨⟨[], around jsonNames (jsonHandler svc) (jsonBases svc)⟩, [],
          (jsonRequest m (m.Params.zip args)).object, []⟩ body
      refine (iff_of_eq (congrArg (· = some (m.Name, args)) hdispatch)).trans ?_
      by_cases hext : str "rpc_" <+: m.Name
      · rw [if_pos hext]
        exact iff_of_false nofun fun h => h.1 hext
      · rw [if_neg hext, and_iff_right hext]
        exact hcase
    · have hreq := Option.eq_none_iff_forall_ne_some.mpr fun req h =>
        hsends ((hrequest req).mp h).1
      simp only [hreq]
      exact iff_of_false nofun fun h => hsends h.1
  · rw [if_neg hhead]
    exact iff_of_false nofun fun h => hhead h.1

/-! ## Services -/

private theorem notMem_names {n : Bytes} {ps : List Parameter} :
    n ∉ ps.map (·.Name) ↔ ∀ p ∈ ps, p.Name ≠ n := by
  simp only [List.mem_map, not_exists, not_and, ne_eq]

/-- The names of the methods are members of the handler. -/
private theorem mem_suilHides (hm : m ∈ svc.Methods) : m.Name ∈ suilHides svc := by
  have hname : m.Name ∈ svc.Methods.map (·.Name) := List.mem_map_of_mem hm
  rw [suilHides, memberNames, suilBases, List.flatMap_cons]
  exact List.mem_append_right _ (List.mem_append_right _ (List.mem_append_left _ hname))

private theorem mem_jsonMembers (hm : m ∈ svc.Methods) :
    m.Name ∈ memberNames (jsonClass svc) [JSON_RPC_CLIENT] := by
  have hname : m.Name ∈ svc.Methods.map (·.Name) := List.mem_map_of_mem hm
  exact List.mem_append_left _ hname

private theorem suilFits_of_call (hm : m ∈ svc.Methods) (hargs : args.length = m.Params.length)
    (h : suilCall svc word m args = some (m.Name, args)) : m.SuilFits word svc := by
  obtain ⟨⟨hword, hclient⟩, ⟨hsends, hcall, hcalled⟩, hext, ⟨hreads, hparams⟩, himpl, hkeeps, hresult,
    hhides⟩ := (suilCall_iff hm hargs).mp h
  have hmem : m.Name ∈ svc.Methods.map (·.Name) := List.mem_map_of_mem hm
  obtain ⟨hhandler, hsvc, hmembers⟩ := (suilImplements_iff hmem).mp himpl
  obtain ⟨⟨hwords, hapart⟩, hsent⟩ := declares_iff.mp hsends
  obtain ⟨-, hread⟩ := declares_iff.mp hreads
  simp only [suilMembers, List.mem_cons, List.not_mem_nil, or_false, not_or] at hmembers
  -- what hides a name on the way of one call is a name of the method, of a parameter or of a type
  refine ⟨⟨hword, hwords, hapart⟩, hext, ?_, fun p hp => ⟨?_, ?_⟩, fun p hp n hn => ⟨?_, ?_⟩,
    fun n hn => (hcalled n hn).2, fun hvoid => ⟨(hkeeps hvoid).1, fun n hn => ?_⟩⟩
  · have hne : m.Name ≠ str "call" := fun heq => hcall (heq ▸ hmem)
    have hne' : m.Name ≠ str "Result" := fun heq => hhides (heq ▸ mem_suilHides hm)
    simp only [List.mem_cons, List.not_mem_nil, or_false, not_or]
    exact ⟨hsvc, hhandler, hclient, hmembers.1, hmembers.2.1, hmembers.2.2.1, hmembers.2.2.2, hne,
      hne'⟩
  · simp only [List.mem_cons, List.not_mem_nil, or_false, not_or]
    exact ⟨hparams p hp, notMem_names.mp hresult p hp⟩
  · exact fun hmem => (hcalled _ hmem).1 (List.mem_map_of_mem hp)
  · exact ((hread p hp).2 n hn).2
  · exact ((hsent p hp).2 n hn).2
  · have hseen := ((hkeeps hvoid).2 n hn).2
    rw [suilHides, List.mem_append, not_or] at hseen ⊢
    exact hseen

private theorem suilCall_of_fits (hfits : ∀ m ∈ svc.Methods, m.SuilFits word svc)
    (hm : m ∈ svc.Methods) (hargs : args.length = m.Params.length) :
    suilCall svc word m args = some (m.Name, args) := by
  have h := hfits m hm
  have hmem : m.Name ∈ svc.Methods.map (·.Name) := List.mem_map_of_mem hm
  have hname := h.name
  simp only [List.mem_cons, List.not_mem_nil, or_false, not_or] at hname
  obtain ⟨hsvc, hhandler, hclient, hbase, href, hget, hmeta, -, -⟩ := hname
  -- no method takes the place of a member of the library, this one or another
  have hcall : str "call" ∉ svc.Methods.map (·.Name) := fun hmem => by
    obtain ⟨m', hm', heq⟩ := List.mem_map.mp hmem
    have hname := (hfits m' hm').name
    simp only [List.mem_cons, List.not_mem_nil, or_false, not_or] at hname
    exact hname.2.2.2.2.2.2.2.1 heq
  have hhides : str "Result" ∉ suilHides svc := by
    have hconst : str "Result" ∉ [str "results", str "method", str "params", str "id"] ∧
        str "Result" ∉ SUIL_RPC_HANDLER.members := by decide
    have hmethods : str "Result" ∉ svc.Methods.map (·.Name) := fun hmem => by
      obtain ⟨m', hm', heq⟩ := List.mem_map.mp hmem
      have hname := (hfits m' hm').name
      simp only [List.mem_cons, List.not_mem_nil, or_false, not_or] at hname
      exact hname.2.2.2.2.2.2.2.2 heq
    rw [suilHides, memberNames, suilBases, List.flatMap_cons, List.flatMap_cons, List.flatMap_nil]
    simp only [List.mem_append, not_or]
    exact ⟨hconst.1, List.not_mem_nil, hmethods, hconst.2, List.not_mem_nil⟩
  refine (suilCall_iff hm hargs).mpr ⟨⟨h.head.name, hclient⟩, ⟨?_, hcall, fun n hn => ⟨?_, ?_⟩⟩,
    h.extension, ⟨?_, fun p hp => ?_⟩, ?_, fun hvoid => ⟨(h.returns hvoid).1, fun n hn => ⟨?_, ?_⟩⟩,
    ?_, hhides⟩
  · exact declares_iff.mpr ⟨⟨h.head.words, h.head.apart⟩, fun p hp =>
      ⟨List.not_mem_nil, fun n hn => ⟨List.not_mem_nil, (h.types p hp n hn).2⟩⟩⟩
  · exact notMem_names.mpr fun p hp heq => (h.params p hp).2 (heq ▸ hn)
  · exact h.called n hn
  · exact declares_iff.mpr ⟨⟨h.head.words, h.head.apart⟩, fun p hp =>
      ⟨List.not_mem_nil, fun n hn => ⟨List.not_mem_nil, (h.types p hp n hn).1⟩⟩⟩
  · exact fun heq => (h.params p hp).1 (heq ▸ List.mem_cons_self)
  · refine (suilImplements_iff hmem).mpr ⟨hhandler, hsvc, ?_⟩
    simp only [suilMembers, List.mem_cons, List.not_mem_nil, or_false, not_or]
    exact ⟨hbase, href, hget, hmeta⟩
  · exact notMem_names.mpr fun p hp heq => (h.params p hp).2 (heq ▸ hn)
  · exact (h.returns hvoid).2 n hn
  · exact notMem_names.mpr fun p hp heq =>
      (h.params p hp).1 (heq ▸ List.mem_cons_of_mem _ List.mem_cons_self)

private theorem jsonFits_of_call (hm : m ∈ svc.Methods) (hargs : args.length = m.Params.length)
    (h : jsonCall svc word m args = some (m.Name, args)) : m.JsonFits word svc := by
  obtain ⟨⟨hword, hclient⟩, ⟨hsends, hcall, hlocals, hstring, hresult⟩, hext, ⟨hreads, hparams⟩,
    himpl⟩ := (jsonCall_iff hm hargs).mp h
  have hmem : m.Name ∈ svc.Methods.map (·.Name) := List.mem_map_of_mem hm
  obtain ⟨hhandler, hsvc, hbase⟩ := (jsonImplements_iff hmem).mp himpl
  obtain ⟨⟨hwords, hapart⟩, hsent⟩ := declares_iff.mp hsends
  obtain ⟨-, hread⟩ := declares_iff.mp hreads
  refine ⟨⟨hword, hwords, hapart⟩, hext, ?_, fun p hp => ⟨hlocals p hp, (hparams p hp).2⟩,
    fun p hp n hn => ⟨((hread p hp).2 n hn).2, ((hsent p hp).2 n hn).2⟩,
    fun hvoid => ⟨fun p hp => ?_, fun n hn => ?_⟩⟩
  · have hne : m.Name ≠ str "call" := fun heq => hcall (heq ▸ hmem)
    have hne' : m.Name ≠ str "String" := fun heq => hstring (heq ▸ mem_jsonMembers hm)
    simp only [List.mem_cons, List.not_mem_nil, or_false, not_or]
    exact ⟨hsvc, hhandler, hclient, hbase, hne, hne'⟩
  · exact fun hmem => (hresult hvoid _ hmem).1.1 (List.mem_map_of_mem hp)
  · exact ⟨(hresult hvoid n hn).1.2, (hresult hvoid n hn).2⟩

private theorem jsonCall_of_fits (hfits : ∀ m ∈ svc.Methods, m.JsonFits word svc)
    (hm : m ∈ svc.Methods) (hargs : args.length = m.Params.length) :
    jsonCall svc word m args = some (m.Name, args) := by
  have h := hfits m hm
  have hmem : m.Name ∈ svc.Methods.map (·.Name) := List.mem_map_of_mem hm
  have hname := h.name
  simp only [List.mem_cons, List.not_mem_nil, or_false, not_or] at hname
  obtain ⟨hsvc, hhandler, hclient, hbase, -, -⟩ := hname
  -- no method takes the place of a member of the library, this one or another
  have hcall : str "call" ∉ svc.Methods.map (·.Name) := fun hmem => by
    obtain ⟨m', hm', heq⟩ := List.mem_map.mp hmem
    have hname := (hfits m' hm').name
    simp only [List.mem_cons, List.not_mem_nil, or_false, not_or] at hname
    exact hname.2.2.2.2.1 heq
  have hstring : str "String" ∉ memberNames (jsonClass svc) [JSON_RPC_CLIENT] := by
    have hconst : str "String" ∉ JSON_RPC_CLIENT.members := by decide
    have hmethods : str "String" ∉ svc.Methods.map (·.Name) := fun hmem => by
      obtain ⟨m', hm', heq⟩ := List.mem_map.mp hmem
      have hname := (hfits m' hm').name
      simp only [List.mem_cons, List.not_mem_nil, or_false, not_or] at hname
      exact hname.2.2.2.2.2 heq
    rw [memberNames, List.flatMap_cons, List.flatMap_nil]
    simp only [List.mem_append, not_or]
    exact ⟨hmethods, hconst, List.not_mem_nil⟩
  refine (jsonCall_iff hm hargs).mpr ⟨⟨h.head.name, hclient⟩, ⟨?_, hcall, fun p hp => ?_, hstring,
    fun hvoid n hn => ⟨⟨?_, ?_⟩, ?_⟩⟩, h.extension, ⟨?_, fun p hp => ⟨?_, ?_⟩⟩, ?_⟩
  · exact declares_iff.mpr ⟨⟨h.head.words, h.head.apart⟩, fun p hp =>
      ⟨List.not_mem_nil, fun n hn => ⟨List.not_mem_nil, (h.types p hp n hn).2⟩⟩⟩
  · exact (h.params p hp).1
  · exact notMem_names.mpr fun p hp heq => (h.returns hvoid).1 p hp (heq ▸ hn)
  · exact ((h.returns hvoid).2 n hn).1
  · exact ((h.returns hvoid).2 n hn).2
  · exact declares_iff.mpr ⟨⟨h.head.words, h.head.apart⟩, fun p hp =>
      ⟨List.not_mem_nil, fun n hn => ⟨List.not_mem_nil, (h.types p hp n hn).1⟩⟩⟩
  · exact fun heq => (h.params p hp).1 (heq ▸ List.mem_cons_self)
  · exact (h.params p hp).2
  · exact (jsonImplements_iff hmem).mpr ⟨hhandler, hsvc, hbase⟩

variable {same : TypeText → TypeText → Bool}

private theorem suilDefines_iff : suilDefines svc word same = true ↔
    (svc.Name ∉ suilMembers ∧ str "methodsMeta" ∉ svc.Methods.map (·.Name)) ∧
      (str "Result" ∉ svc.Methods.map (·.Name) ∧
        str "SRPC_METHOD_NOT_FOUND" ∉ svc.Methods.map (·.Name)) ∧
      svc.Name ∉ [str "Result", str "SRPC_METHOD_NOT_FOUND", str "std", str "suil"] ∧
      (∀ n ∈ [svc.Name, (suilHandler svc).name, (suilClass svc).name], word n = false) ∧
      ∀ m ∈ svc.Methods, overrides same m = false := by
  rw [suilDefines, decide_eq_true_iff, registers_iff_listed, suilDefault_isSome, mem_suilLibrary]
  simp only [Bool.not_eq_true']

private theorem jsonDefines_iff : jsonDefines svc word same = true ↔
    str "JRPC_METHOD_NOT_FOUND" ∉ svc.Methods.map (·.Name) ∧
      (svc.Name ∉ [str "ReturnType", str "JRPC_METHOD_NOT_FOUND", str "std", str "suil"] ∧
        ∀ m ∈ svc.Methods, svc.Name ≠ str "String" ∧ (m.Params ≠ [] → svc.Name ≠ str "json")) ∧
      (∀ n ∈ [svc.Name, (jsonHandler svc).name, (jsonClass svc).name], word n = false) ∧
      ∀ m ∈ svc.Methods, overrides same m = false := by
  rw [jsonDefines, decide_eq_true_iff, jsonDefault_isSome, mem_jsonLibrary]
  simp only [Bool.not_eq_true', not_or, not_exists, not_and, ne_eq]

/-- What is asked of the service in `SuilFits` is what its classes need; a method `methodsMeta` or
`Result` is not called, either. -/
private theorem suilFits_iff : SuilFits word same svc ↔
    suilDefines svc word same = true ∧ ∀ m ∈ svc.Methods, m.SuilFits word svc := by
  have hname : svc.Name ∉ suilMembers ++
      [str "Result", str "SRPC_METHOD_NOT_FOUND", str "std", str "suil"] ↔ svc.Name ∉ suilMembers ∧
        svc.Name ∉ [str "Result", str "SRPC_METHOD_NOT_FOUND", str "std", str "suil"] := by
    rw [List.mem_append, not_or]
  rw [suilDefines_iff]
  constructor
  · intro h
    obtain ⟨hmembers, hlibrary⟩ := hname.mp h.name
    have hnames : ∀ {n : Bytes}, n ∈ svc.Methods.map (·.Name) →
        n ≠ str "methodsMeta" ∧ n ≠ str "Result" := by
      intro n hn
      obtain ⟨m, hm, rfl⟩ := List.mem_map.mp hn
      have hname := (h.methods m hm).name
      simp only [List.mem_cons, List.not_mem_nil, or_false, not_or] at hname
      exact ⟨hname.2.2.2.2.2.2.1, hname.2.2.2.2.2.2.2.2⟩
    exact ⟨⟨⟨hmembers, fun hmem => (hnames hmem).1 rfl⟩, ⟨fun hmem => (hnames hmem).2 rfl, h.notFound⟩,
      hlibrary, h.words, h.connect⟩, h.methods⟩
  · rintro ⟨⟨⟨hmembers, -⟩, ⟨-, hnotFound⟩, hlibrary, hwords, hconnect⟩, hmethods⟩
    exact ⟨hwords, hname.mpr ⟨hmembers, hlibrary⟩, hnotFound, hconnect, hmethods⟩

private theorem jsonFits_iff : JsonFits word same svc ↔
    jsonDefines svc word same = true ∧ ∀ m ∈ svc.Methods, m.JsonFits word svc := by
  rw [jsonDefines_iff]
  constructor
  · intro h
    exact ⟨⟨h.notFound, ⟨h.name, h.clients⟩, h.words, h.connect⟩, h.methods⟩
  · rintro ⟨⟨hnotFound, ⟨hname, hclients⟩, hwords, hconnect⟩, hmethods⟩
    exact ⟨hwords, hname, hclients, hnotFound, hconnect, hmethods⟩

end

/-- `int twice(int params)`. -/
def twice : Method where
  ReturnType := [.ident (str "int")]
  Name := str "twice"
  Params := [⟨[.ident (str "int")], str "params", .Normal, false⟩]

/-- `service Calculator` with this method. -/
def calculator : RpcType where
  Kind := .service
  Name := str "Calculator"
  Methods := [twice]
  distinct := by decide
  named := by decide

/-- Some of the words that are no names. -/
def words : List Bytes := [str "int", str "void", str "const", str "return", str "Ego"]

end Suil.Scc
