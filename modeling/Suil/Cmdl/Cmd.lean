import Suil.Basic.Exception
import Suil.Basic.Str
import Suil.Http.CaseMap

set_option autoImplicit false

/-! # Command lines

A command has a list of arguments, each with a name of its long form and maybe a letter of its short
form. `Cmd::parse` (`cmdl.cpp`) goes through the elements of `argv` once and puts what is given into the
map `passed`. -/

namespace Suil.Cmdl

open Http (CaseMap)

/-- What a `char *` points to, up to the NUL. -/
structure CStr where
  bytes : Bytes
  free : NUL ∉ bytes

/-- The sign of an argument without a short form. -/
def NOSF : UInt8 := NUL

/-- The short form of the argument that asks for help. -/
def HELP : UInt8 := 104

/-- `isalpha` in the C locale. -/
def isalpha (c : UInt8) : Bool := (65 ≤ c && c ≤ 90) || (97 ≤ c && c ≤ 122)

/-- `Arg`, as far as `parse` uses it. -/
structure Arg where
  lf : CStr
  sf : UInt8
  option : Bool
  required : Bool

/-- `Arg::check(s, l)`. -/
def Arg.check (a : Arg) (s : UInt8) (l : Str) : Bool :=
  (s ≠ NOSF && s = a.sf) || Str.eq (.ofC a.lf.bytes) l

/-- `Cmd`: no argument is without a long name, and no two have the same one or the same letter. -/
structure Cmd where
  args : List Arg
  inter : Bool
  named : ∀ a ∈ args, a.lf.bytes ≠ []
  distinct : args.Pairwise fun a b => a.check b.sf (.ofC b.lf.bytes) = false

namespace Cmd

/-- `Cmd::operator<<`. -/
def insert (cmd : Cmd) (arg : Arg) : Except Exception Cmd :=
  if hname : arg.lf.bytes = [] then
    .error (.create 0 [str "command line argument missing log format (--help) option"])
  else if hsame : ∀ a ∈ cmd.args, a.check arg.sf (.ofC arg.lf.bytes) = false then
    .ok {
      args := cmd.args ++ [arg]
      inter := cmd.inter
      named := List.forall_mem_append.mpr ⟨cmd.named, List.forall_mem_singleton.mpr hname⟩
      distinct := List.pairwise_append.mpr ⟨cmd.distinct, List.pairwise_singleton _ _,
        fun a ha _ hb => List.mem_singleton.mp hb ▸ hsame a ha⟩ }
  else
    .error (.create 0 [str "command line '", [arg.sf], str "' or \"", arg.lf.bytes,
      str "\" argument duplicated"])

/-- `Cmd::check(lf, sf)`. -/
def check (cmd : Cmd) (lf : Str) (sf : UInt8) : Except Exception Arg :=
  match cmd.args.find? fun a => a.check sf lf with
  | some arg => .ok arg
  | none =>
      .error (.create 0 (
        if lf.len ≠ 0 then [str "error: command argument '--", lf.bytes, str "' not recognized"]
        else [str "error: command argument '-", [sf], str "' not recognized"]))

/-- `Cmd::isvalid(flag)`: how many dashes there are in front of a letter. -/
def isvalid (flag : Bytes) : Nat :=
  if flag.getD 0 NUL = DASH then
    if flag.getD 1 NUL = DASH then
      if flag.getD 2 NUL ≠ NUL && flag.getD 2 NUL ≠ DASH && isalpha (flag.getD 2 NUL) then 2 else 0
    else if flag.getD 1 NUL ≠ NUL && isalpha (flag.getD 1 NUL) then 1
    else 0
  else 0

end Cmd

/-- `carg` and `cval`: an element, and what is behind its first `=`. -/
def splitValue (carg : Bytes) : Bytes × Option Bytes :=
  match strchr carg EQUALS with
  | none => (carg, none)
  | some cval => (carg.take (carg.length - cval.length), some cval.tail)

/-- The arguments of the calls of `passed.emplace`, in order. -/
abbrev Calls := List (Bytes × Bytes)

variable (hash : Bytes → UInt64)

/-- The map `passed`. -/
def passed (calls : Calls) : CaseMap Bytes := calls.foldl (fun m e => m.emplace hash e.1 e.2) []

/-- `passed.find(lf) != passed.end()`. -/
def isPassed (calls : Calls) (lf : CStr) : Bool := ((passed hash calls).find hash lf.bytes).isSome

/-- What is known behind an element: whether help is asked for, whether the next element was taken for
a value, and the calls. -/
structure Scan where
  ishelp : Bool
  taken : Bool
  calls : Calls

def complain {α : Type} (arg : Arg) (text : String) : Except Exception α :=
  .error (.create 0 [str "error: command argument '", arg.lf.bytes, str text])

/-- The value of an argument: what is behind the `=`, or the next element. -/
def takeValue (arg : Arg) (cval : Option Bytes) (next : Option CStr) :
    Except Exception (Bytes × Bool) :=
  match cval, next with
  | some val, _ => .ok (val, false)
  | none, some val => .ok (val.bytes, true)
  | none, none => complain arg "' expects a value but none provided"

/-- An argument in the long form. -/
def parseLong (cmd : Cmd) (name : Bytes) (cval : Option Bytes) (next : Option CStr)
    (calls : Calls) : Except Exception Scan := do
  let arg ← cmd.check (.ofC name) NOSF
  if arg.sf = HELP then .ok ⟨true, false, calls⟩
  else if isPassed hash calls arg.lf then complain arg "' appearing more than once"
  else if !arg.option then do
    let (val, taken) ← takeValue arg cval next
    .ok ⟨false, taken, calls ++ [(arg.lf.bytes, val)]⟩
  else if cval.isSome then complain arg "' assigned value but is an option"
  else .ok ⟨false, false, calls ++ [(arg.lf.bytes, str "1")]⟩

/-- Arguments in the short form, one letter each. -/
def parseShorts (cmd : Cmd) (cval : Option Bytes) (next : Option CStr) :
    Bytes → Calls → Except Exception Scan
  | [], calls => .ok ⟨false, false, calls⟩
  | c :: cs, calls => do
      let arg ← cmd.check .null c
      if arg.sf = HELP then .ok ⟨true, false, calls⟩
      else if !arg.option then
        if cs ≠ [] then complain arg "' passed as an option but expects value"
        else do
          let (val, taken) ← takeValue arg cval next
          .ok ⟨false, taken, calls ++ [(arg.lf.bytes, val)]⟩
      else if cval.isSome then complain arg "' assigned value but is an option"
      else parseShorts cmd cval next cs (calls ++ [(arg.lf.bytes, str "1")])

/-- One round of the loop of `parse`. -/
def parseElement (cmd : Cmd) (carg : Bytes) (next : Option CStr) (calls : Calls) :
    Except Exception Scan :=
  let (flag, cval) := splitValue carg
  match Cmd.isvalid flag with
  | 0 => .error (.create 0 [str "error: Unsupported argument syntax: ", flag])
  | 2 => parseLong hash cmd (flag.drop 2) cval next calls
  | _ => parseShorts cmd cval next (flag.drop 1) calls

/-- The loop of `parse`, with `argv` from `pos` on. Only an element with another one behind it can take
that one for its value. -/
def parseLoop (cmd : Cmd) : List CStr → Calls → Except Exception (Bool × Calls)
  | [], calls => .ok (false, calls)
  | [carg], calls => do
      let scan ← parseElement hash cmd carg.bytes none calls
      .ok (scan.ishelp, scan.calls)
  | carg :: next :: rest, calls => do
      let scan ← parseElement hash cmd carg.bytes (some next) calls
      if scan.ishelp then .ok (true, scan.calls)
      else if scan.taken then parseLoop cmd rest scan.calls
      else parseLoop cmd (next :: rest) scan.calls

/-- The check of the required arguments, with the names of those that are missing. An interactive
command asks for their values. -/
def verifyRequired (inter : Bool) (console : Arg → Bytes) :
    List Arg → Calls → List Bytes → Calls × List Bytes
  | [], calls, missing => (calls, missing)
  | arg :: args, calls, missing =>
      if arg.required && !isPassed hash calls arg.lf then
        verifyRequired inter console args
          (if inter then calls ++ [(arg.lf.bytes, console arg)] else calls)
          (missing ++ [arg.lf.bytes])
      else verifyRequired inter console args calls missing

def missingText (missing : List Bytes) : Bytes :=
  str "error: missing required arguments:" ++
    (str ",").intercalate (missing.map fun lf => str " '" ++ lf ++ str "'")

/-- `parse`: whether help is asked for, and the map `passed`. -/
def Cmd.parse (console : Arg → Bytes) (cmd : Cmd) (argv : List CStr) :
    Except Exception (Bool × CaseMap Bytes) := do
  let (ishelp, calls) ← parseLoop hash cmd argv []
  if ishelp then .ok (true, passed hash calls)
  else
    let (calls, missing) := verifyRequired hash cmd.inter console cmd.args calls []
    if missing ≠ [] && !cmd.inter then .error (.create 0 [missingText missing])
    else .ok (false, passed hash calls)

end Suil.Cmdl
