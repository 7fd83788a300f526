import Suil.Basic.Str

set_option autoImplicit false

/-! # JSON values

`json::Object` (`json.h`, `json.cpp`): a node, or the null pointer that a look-up of a member leaves.
The names of members and the strings end at their first NUL. Numbers are of a type of their own,
since nothing here computes with them. -/

namespace Suil

/-- `JsonNode`; the children are in the order of the list. -/
inductive Json (ν : Type) where
  | null
  | bool (b : Bool)
  | string (s : Bytes)
  | number (n : ν)
  | array (elements : List (Json ν))
  | object (members : List (Bytes × Json ν))

namespace Json

/-- `json::Object`. -/
abbrev Object (ν : Type) : Type := Option (Json ν)

/-- The exceptions of the conversions. -/
inductive Fault where
  | notString
  | notNumber
  | notObject
  deriving DecidableEq, Repr

/-- What an exception says. -/
def Fault.what : Fault → Bytes
  | .notString => str "json::Object - object is not a string"
  | .notNumber => str "json::Object - object is not a number"
  | .notObject => str "json::Object::[index] - object is not a JSON object"

namespace Object

variable {ν : Type}

/-- `empty()`. -/
def empty : Object ν → Bool
  | none => true
  | some .null => true
  | some (.bool b) => !b
  | some (.string s) => s.isEmpty
  | some (.number _) => false
  | some (.array es) => es.isEmpty
  | some (.object ms) => ms.isEmpty

/-- From `begin()` to `end()`: the children of an array or of an object. -/
def elements : Object ν → List (Json ν)
  | some (.array es) => es
  | some (.object ms) => ms.map (·.2)
  | _ => []

/-- `operator[]` for a `String`: the first member whose name starts with the key. -/
def get (o : Object ν) (key : Bytes) : Except Fault (Object ν) :=
  match o with
  | some (.object ms) => .ok ((ms.find? fun m => strncmpEq key.length m.1 key).map (·.2))
  | _ => .error .notObject

/-- `operator[]` for a `const char*`: the first member with this name. -/
def member (o : Object ν) (key : Bytes) : Except Fault (Object ν) :=
  match o with
  | some (.object ms) => .ok ((ms.find? fun m => m.1 = key).map (·.2))
  | _ => .error .notObject

/-- `operator String`. -/
def toStr : Object ν → Except Fault Str
  | some (.string s) => .ok (.ofC s)
  | _ => .error .notString

end Object

end Json

end Suil
