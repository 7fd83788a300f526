import Suil.Basic.Bytes

set_option autoImplicit false

/-! # Output buffers and the strings they become

`OBuffer` (`buffer.h`, `buffer.cpp`) holds `m_size + 1` bytes of memory and an offset into it.
Its sizes are `uint32_t`. `Str` is a `String` (`zstring.h`) with the memory behind its pointer. -/

namespace Suil

/-- How a function that works on memory fails: the exceptions, and an access outside of the
memory there is, which the source does not look for. -/
inductive BufFault where
  | outOfRange
  | invalidArguments
  | overrun
  deriving DecidableEq, Repr

/-- `m_data` with what is allocated behind it, `m_size` and `m_offset`. -/
structure OBuffer where
  mem : Option Bytes
  size : Nat
  offset : Nat
  deriving DecidableEq, Repr

/-- A pointer, or null, with the memory behind it, and a length. -/
structure Str where
  mem : Option Bytes
  len : Nat
  deriving DecidableEq, Repr

/-- The bytes of a string. -/
def Str.bytes (s : Str) : Bytes := (s.mem.getD []).take s.len

namespace OBuffer

def UINT32 : Nat := 2 ^ 32

/-- `realloc`: the bytes that fit are kept; the others are there before anyone reads them. -/
def realloc (mem : Option Bytes) (n : Nat) : Bytes :=
  let old := (mem.getD []).take n
  old ++ List.replicate (n - old.length) 0

/-- `__ALIGN`: what is missing to a multiple of the size of a pointer. -/
def align (n : Nat) : Nat := if n % 8 ≠ 0 then 8 - n % 8 else 0

def grow (b : OBuffer) (add : Nat) : OBuffer :=
  let add := (add + align add) % UINT32
  { b with
    mem := some (realloc b.mem ((b.size + add + 1) % UINT32))
    size := (b.size + add) % UINT32 }

/-- `OBuffer(is)`. -/
def new (is : Nat) : OBuffer :=
  let b : OBuffer := ⟨none, 0, 0⟩
  if is ≠ 0 then b.grow (is % UINT32) else b

def reserve (b : OBuffer) (size : Nat) : OBuffer :=
  let remaining := (b.size + UINT32 - b.offset) % UINT32
  if remaining < size then b.grow (max b.size (size - remaining) % UINT32) else b

def bseek (b : OBuffer) (off : Nat) : Except BufFault OBuffer :=
  if off < b.size then .ok { b with offset := off } else .error .outOfRange

def seek (b : OBuffer) (off : Nat) : Except BufFault OBuffer := b.bseek (b.offset + off)

/-- Stores through a pointer to the first byte. -/
def poke (b : OBuffer) (bs : Bytes) : Except BufFault OBuffer :=
  match b.mem with
  | none => if bs = [] then .ok b else .error .overrun
  | some mem =>
      if bs.length ≤ mem.length then .ok { b with mem := some (bs ++ mem.drop bs.length) }
      else .error .overrun

/-- `String(OBuffer&)`: the memory is released to the string, with a NUL at the offset. -/
def toStr (b : OBuffer) : Str :=
  ⟨b.mem.map fun mem => mem.set b.offset NUL, b.offset⟩

end OBuffer

end Suil
