import Suil.Basic.Json

set_option autoImplicit false

/-! # Exceptions -/

namespace Suil

/-- What a stream writes for a `String`: it has no operator of its own for one, and takes the `bool` that
`String::operator bool` gives. -/
def streamed (s : Bytes) : Bytes := if s = [] then str "0" else str "1"

/-- `Exception` (`base.h`). -/
structure Exception where
  Msg : Bytes
  Code : Int
  deriving DecidableEq, Repr

namespace Exception

/-- `create(code, args...)`, with the texts of the arguments. -/
def create (code : Int) (args : List Bytes) : Exception := ⟨args.flatten, code⟩

end Exception

/-- What the conversions of JSON values throw. -/
def Json.Fault.toException (f : Json.Fault) : Exception := .create 0 [f.what]

end Suil
