import Mathlib

set_option autoImplicit false

/-! # Byte strings

A `char` of the source is a byte and a string is a list of bytes. `str` writes a C string
literal as its bytes. -/

namespace Suil

abbrev Bytes := List UInt8

instance : LawfulBEq Bytes := inferInstance

/-- The bytes of an ASCII string literal. -/
def str (s : String) : Bytes := s.toList.map (fun c => c.toNat.toUInt8)

/-- Bytes of a size that its type bounds. -/
structure Sized (n : Nat) where
  bytes : Bytes
  bound : bytes.length < n

/-- An `int`. -/
structure CInt where
  val : Int
  bound : -2 ^ 31 ≤ val ∧ val < 2 ^ 31

/-- A number that is small enough. -/
def CInt.ofNat (n : Nat) (h : n < 2 ^ 31 := by decide) : CInt := ⟨n, by omega⟩

theorem CInt.zero_lt : 0 < 2 ^ 31 := by decide

theorem CInt.one_lt : 1 < 2 ^ 31 := by decide

/-- An `int` that is converted to `size_t`. -/
def CInt.toSize (n : CInt) : Int := n.val % 2 ^ 64

theorem CInt.toSize_of_nonneg {n : CInt} (h : 0 ≤ n.val) : n.toSize = n.val := by
  have := n.bound
  rw [CInt.toSize]
  omega

/-- A negative number becomes one that is greater than any size there is. -/
theorem CInt.toSize_of_neg {n : CInt} (h : n.val < 0) : 2 ^ 63 ≤ n.toSize := by
  have := n.bound
  rw [CInt.toSize]
  omega

/-- What holds of the 256 bytes holds of every byte. -/
theorem forall_byte {P : UInt8 → Prop} (h : ∀ i : Fin 256, P (UInt8.ofNat i.val)) (c : UInt8) :
    P c := by
  have hc := h ⟨c.toNat, c.toNat_lt⟩
  rwa [UInt8.ofNat_toNat] at hc

/-! ## The characters the source compares with -/

def NUL : UInt8 := 0
def TAB : UInt8 := 9
def LF : UInt8 := 10
def CR : UInt8 := 13
def SP : UInt8 := 32
/-- The double quote. -/
def DQUOTE : UInt8 := 34
/-- The percent sign, the ampersand, the plus sign, the comma, the dash, the dot, the slash. -/
def PERCENT : UInt8 := 37
def AMP : UInt8 := 38
def PLUS : UInt8 := 43
def COMMA : UInt8 := 44
def DASH : UInt8 := 45
def DOT : UInt8 := 46
def SLASH : UInt8 := 47
def COLON : UInt8 := 58
def SEMI : UInt8 := 59
def EQUALS : UInt8 := 61
def QMARK : UInt8 := 63
/-- The opening and the closing brace. -/
def LBRACE : UInt8 := 123
def RBRACE : UInt8 := 125

/-- `c >= '0' && c <= '9'`. -/
def isDigit (c : UInt8) : Bool := 48 ≤ c && c ≤ 57

/-- `tolower` in the C locale. -/
def toLower (c : UInt8) : UInt8 := if 65 ≤ c && c ≤ 90 then c + 32 else c

end Suil
