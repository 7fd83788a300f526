import Suil.Basic.Bytes

set_option autoImplicit false

/-! # Generated services

`generateSuilRpcSources` and `generateJsonRpcSources` (`tools/scc/program.cpp`) print the handlers
and the clients of a service. What they print is kept as statements here; behind each one stands
the line that is printed. The loops over the methods count on their own. -/

namespace Suil.Scc

/-- What the text of a type is put together from. -/
inductive Token where
  | ident (name : Bytes)
  | scope
  | lt
  | comma
  | gt
  deriving DecidableEq, Repr

abbrev TypeText : Type := List Token

def VOID : TypeText := [.ident (str "void")]

/-- `Parameter::_Kind`. -/
inductive ParameterKind where
  | Normal
  | Move
  | Reference
  deriving DecidableEq, Repr

structure Parameter where
  ParameterType : TypeText
  Name : Bytes
  Kind : ParameterKind
  IsConst : Bool
  deriving DecidableEq, Repr

structure Method where
  ReturnType : TypeText
  Name : Bytes
  Params : List Parameter
  deriving DecidableEq, Repr

/-- The words that a service begins with. -/
inductive RpcKind where
  | service
  | srpc
  | jrpc
  deriving DecidableEq, Repr

/-- A service of the parser, in which the names of the methods are distinct. -/
structure RpcType where
  Kind : RpcKind
  Name : Bytes
  Methods : List Method
  distinct : (Methods.map (·.Name)).Nodup
  named : ∀ m ∈ Methods, m.Name ≠ []

/-! ## What is printed -/

/-- An argument of the implementation: `p` or `std::move(p)`. -/
structure Arg where
  name : Bytes
  move : Bool
  deriving DecidableEq, Repr

/-- The statements in the cases of a handler. -/
inductive CaseStmt where
  | decl (ty : TypeText) (name : Bytes) -- `T p{};`
  | read (name : Bytes) -- `params >> p;`
  | member (ty : TypeText) (name : Bytes) -- `T p = (T) params["p"];`
  | run (method : Bytes) (args : List Arg) -- `Ego.m(…);`
  | keep (ty : TypeText) (method : Bytes) (args : List Arg) -- `R tmp = Ego.m(…);`
  | push -- `results << tmp;`
  | done -- `return Result(0);`
  | answer (method : Bytes) (args : List Arg)
    -- `return std::make_pair(0, suil::json::Object(Ego.m(…)));`
  | answerNull -- `return std::make_pair(0, suil::json::Object(nullptr));`
  | refuse -- `Result res(SRPC_METHOD_NOT_FOUND);`
  | explain -- `res << "requested method does not exist";`
  | giveBack -- `return std::move(res);`
  | unknown -- `return std::make_pair(JRPC_METHOD_NOT_FOUND, suil::json::Object(…));`
  deriving DecidableEq, Repr

/-- The statements of a client. -/
inductive ClientStmt where
  | call (ty : TypeText) (method : Bytes) (args : List Bytes) -- `return Ego.call<R>("m", p, …);`
  | pack (args : List (Bytes × Bytes)) -- `suil::json::Object params(json::Obj, "p", p, …);`
  | send (method : Bytes) -- `auto ret = Ego.call("m", std::move(params));`
  | check -- `if (ret.first) throw suil::Exception::create((String)ret.second);`
  | result (ty : TypeText) -- `return (R) ret.second;`
  deriving DecidableEq, Repr

/-- A loop over the methods that counts from `id` on. -/
def number {α : Type} (f : Method → α) : Int → List Method → List (Int × α)
  | _, [] => []
  | id, m :: ms => (id, f m) :: number f (id + 1) ms

/-- `ob` of a handler. -/
def arguments (m : Method) : List Arg :=
  m.Params.map fun p => ⟨p.Name, p.Kind = ParameterKind.Move⟩

/-! ## `generateSuilRpcSources` -/

/-- `Ego.methodsMeta.emplace_back(id, "m");` for each method. -/
def methodsMeta (svc : RpcType) : List (Int × Bytes) := number (·.Name) 1 svc.Methods

/-- A case of the handler. -/
def suilCase (m : Method) : List CaseStmt :=
  (m.Params.flatMap fun p => [.decl p.ParameterType p.Name, .read p.Name]) ++
    (if m.ReturnType = VOID then [.run m.Name (arguments m)]
      else [.keep m.ReturnType m.Name (arguments m), .push]) ++ [.done]

/-- The cases of `switch(method)` in the handler. -/
def suilCases (svc : RpcType) : List (Int × List CaseStmt) := number suilCase 1 svc.Methods

/-- Its `default`. -/
def suilDefault : List CaseStmt := [.refuse, .explain, .giveBack]

/-- A method of the client. Its head is the one of the service. -/
def suilClient (m : Method) : List ClientStmt :=
  [.call m.ReturnType m.Name (m.Params.map (·.Name))]

/-! ## `generateJsonRpcSources` -/

/-- `scMappings`. -/
def scMappings (svc : RpcType) : List (Int × Bytes) := number (·.Name) 0 svc.Methods

def jsonCase (m : Method) : List CaseStmt :=
  (m.Params.map fun p => .member p.ParameterType p.Name) ++
    if m.ReturnType ≠ VOID then [.answer m.Name (arguments m)]
    else [.run m.Name (arguments m), .answerNull]

/-- The cases of `switch(it->second)` in the handler. -/
def jsonCases (svc : RpcType) : List (Int × List CaseStmt) := number jsonCase 0 svc.Methods

/-- Its `default`, and what stands in front of it for a name that is not in `scMappings`. -/
def jsonDefault : List CaseStmt := [.unknown]

/-- A method of the client; without parameters it is `params(nullptr)`. -/
def jsonClient (m : Method) : List ClientStmt :=
  [.pack (m.Params.map fun p => (p.Name, p.Name)), .send m.Name, .check] ++
    if m.ReturnType ≠ VOID then [.result m.ReturnType] else []

/-! ## The names of the library -/

def Arg.library (a : Arg) : List Bytes := if a.move then [str "std"] else []

/-- The names that a statement takes from outside of functions and classes. -/
def CaseStmt.library : CaseStmt → List Bytes
  | .decl _ _ | .read _ | .member _ _ | .push | .explain => []
  | .run _ args | .keep _ _ args => args.flatMap Arg.library
  | .done => [str "Result"]
  | .answer _ args => [str "std", str "suil"] ++ args.flatMap Arg.library
  | .answerNull => [str "std", str "suil"]
  | .refuse => [str "Result", str "SRPC_METHOD_NOT_FOUND"]
  | .giveBack => [str "std"]
  | .unknown => [str "std", str "JRPC_METHOD_NOT_FOUND", str "suil"]

def ClientStmt.library : ClientStmt → List Bytes
  | .call _ _ _ | .result _ => []
  | .pack [] => [str "suil"]
  | .pack (_ :: _) => [str "suil", str "json"]
  | .send _ => [str "std"]
  | .check => [str "suil", str "String"]

/-- The names in what is printed for Suil RPC; those of the heads stand first. -/
def suilLibrary (svc : RpcType) : List Bytes :=
  [str "Result", str "suil"] ++ (svc.Methods.flatMap suilCase ++ suilDefault).flatMap (·.library) ++
    (svc.Methods.flatMap suilClient).flatMap (·.library)

def jsonLibrary (svc : RpcType) : List Bytes :=
  [str "ReturnType", str "suil"] ++
    (svc.Methods.flatMap jsonCase ++ jsonDefault).flatMap (·.library) ++
      (svc.Methods.flatMap jsonClient).flatMap (·.library)

/-! ## The loops -/

variable {α β : Type}

/-- **The loops that count from the same number on are aligned.** -/
theorem number_aligned (f : Method → α) (g : Method → β) (id : Int) (ms : List Method) :
    (number f id ms).map (·.1) = (number g id ms).map (·.1) := by
  induction ms generalizing id with
  | nil => rfl
  | cons m ms ih => simp only [number, List.map_cons, ih]

/-- The number under which a method is printed is found by its name, and finds what is printed for
it. -/
theorem exists_number (g : Method → β) {ms : List Method}
    (hms : (ms.map (·.Name)).Nodup) {m : Method} (h : m ∈ ms) (id : Int) :
    ∃ k, id ≤ k ∧ (number (·.Name) id ms).find? (·.2 = m.Name) = some (k, m.Name) ∧
      (number g id ms).find? (·.1 = k) = some (k, g m) := by
  induction ms generalizing id with
  | nil => nomatch h
  | cons m' ms ih =>
      rw [List.map_cons, List.nodup_cons] at hms
      simp only [number]
      rcases List.mem_cons.mp h with rfl | hmem
      · exact ⟨id, Int.le_refl id, List.find?_cons_of_pos (decide_eq_true rfl),
          List.find?_cons_of_pos (decide_eq_true rfl)⟩
      · obtain ⟨k, hk, hname, hcase⟩ := ih hms.2 hmem (id + 1)
        have hne : m'.Name ≠ m.Name := fun heq => hms.1 (heq ▸ List.mem_map_of_mem hmem)
        refine ⟨k, by omega, ?_, ?_⟩
        · rw [List.find?_cons_of_neg (by simpa using hne), hname]
        · rw [List.find?_cons_of_neg (by rw [decide_eq_true_iff]; omega), hcase]

end Suil.Scc
