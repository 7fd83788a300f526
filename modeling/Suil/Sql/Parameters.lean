import Suil.Basic.Bytes
import Suil.Lib.LittleEndian

set_option autoImplicit false

/-! # Numbers as parameters

How `bind` (`pgsql.h`) hands an arithmetic value to libpq. The type, the length and the bytes are
chosen by overloads of three functions. `passes_iff` says for which types and values they fit
together. -/

namespace Suil.Sql

open LittleEndian

/-! ## Types, formats and bytes of parameters -/

/-- The arithmetic types that have an overload, their own one or one by a conversion. -/
inductive Arith where
  | bool
  | char
  | signedChar
  | unsignedChar
  | short
  | unsignedShort
  | int
  | unsignedInt
  | long
  | unsignedLong
  | longLong
  | unsignedLongLong
  | wcharT
  | char16T
  | char32T
  | float
  | double
  deriving DecidableEq

/-- The types of PostgreSQL. -/
inductive Oid where
  | CHAROID
  | INT2OID
  | INT4OID
  | INT8OID
  | FLOAT4OID
  | FLOAT8OID
  deriving DecidableEq

/-- `sizeof`. -/
def Arith.size : Arith → Nat
  | .bool | .char | .signedChar | .unsignedChar => 1
  | .short | .unsignedShort | .char16T => 2
  | .int | .unsignedInt | .wcharT | .char32T | .float => 4
  | .long | .unsignedLong | .longLong | .unsignedLongLong | .double => 8

/-- `type_to_pgsql_oid_type(v)`. What has no overload of its own is promoted. -/
def Arith.type_to_pgsql_oid_type : Arith → Oid
  | .char | .unsignedChar => .CHAROID
  | .short | .unsignedShort => .INT2OID
  | .int | .unsignedInt => .INT4OID
  | .long | .unsignedLong | .longLong | .unsignedLongLong => .INT8OID
  | .float => .FLOAT4OID
  | .double => .FLOAT8OID
  | .bool | .signedChar | .wcharT | .char16T | .char32T => .INT4OID

/-- How many bytes `vhod_to_vnod` and `vnod_to_vhod` read and write. The template takes all that has
no overload of its own. -/
def Arith.moved : Arith → Nat
  | .char | .unsignedChar => 1
  | .short | .unsignedShort => 2
  | .int | .unsignedInt | .float => 4
  | _ => 8

/-- `htons` and `htonl`, on the bytes of the number in a little-endian memory. -/
def hton (number : Bytes) : Bytes := number.reverse

/-- `to.u32_1 = htonl(from.u32_2); to.u32_2 = htonl(from.u32_1);`. -/
def order8 (b : Bytes) : Bytes := hton ((b.drop 4).take 4) ++ hton (b.take 4)

/-- What the conversions make of the bytes that they read. -/
def Arith.moves (t : Arith) (b : Bytes) : Bytes :=
  match t with
  | .char | .unsignedChar => b.take 1
  | .short | .unsignedShort => hton (b.take 2)
  | .int | .unsignedInt | .float => hton (b.take 4)
  | _ => order8 b

/-- A parameter for libpq: the bytes from `val` on. -/
structure Param where
  val : Bytes
  len : Nat
  oid : Oid

/-- `vhod_to_vnod(norder, v)`, where `memory` is what there is from the value on. -/
def Arith.vhod_to_vnod (t : Arith) (memory : Bytes) : Bytes :=
  t.moves memory ++ List.replicate (8 - t.moved) 0

/-- `bind`. -/
def Arith.bind (t : Arith) (memory : Bytes) : Param :=
  ⟨t.vhod_to_vnod memory, t.size, t.type_to_pgsql_oid_type⟩

/-- `vnod_to_vhod(buf, v)`: the number that the bytes of `v` are, when `buf` and `v` have as many
bytes as are read and written. -/
def Arith.vnod_to_vhod (t : Arith) (buf : Bytes) : Option Nat :=
  if t.moved ≤ buf.length ∧ t.moved ≤ t.size then some (leNat (t.moves buf)) else none

/-! ## Values -/

/-- A value, as the number that its bytes are. -/
structure Value (t : Arith) where
  bits : Nat
  bound : bits < 256 ^ t.size
  truth : t = .bool → bits ≤ 1

/-- The value in memory. -/
def Value.bytes {t : Arith} (v : Value t) : Bytes := leBytes t.size v.bits

/-- What a value means: a number, or a bit pattern of a width. -/
inductive Meaning where
  | num (n : Int)
  | real (width bits : Nat)
  deriving DecidableEq

/-- Two's complement of so many bytes. -/
def signed (k n : Nat) : Int := if n < 2 ^ (8 * k - 1) then n else (n : Int) - 2 ^ (8 * k)

def Arith.unsigned : Arith → Bool
  | .bool | .unsignedChar | .unsignedShort | .unsignedInt | .unsignedLong | .unsignedLongLong => true
  | .char16T | .char32T => true
  | _ => false

def Value.meaning {t : Arith} (v : Value t) : Meaning :=
  match t with
  | .float | .double => .real t.size v.bits
  | _ => .num (if t.unsigned then v.bits else signed t.size v.bits)

/-- The width of a type of PostgreSQL. -/
def Oid.width : Oid → Nat
  | .CHAROID => 1
  | .INT2OID => 2
  | .INT4OID | .FLOAT4OID => 4
  | .INT8OID | .FLOAT8OID => 8

/-- What bytes in the order of the network mean in a type of PostgreSQL, where `"char"` is read as
the cast to an integer reads it. -/
def Oid.reads (o : Oid) (b : Bytes) : Option Meaning :=
  if b.length = o.width then
    match o with
    | .FLOAT4OID | .FLOAT8OID => some (.real o.width (leNat b.reverse))
    | _ => some (.num (signed o.width (leNat b.reverse)))
  else none

/-- The parameter for a value that other bytes are behind. -/
structure Passes {t : Arith} (v : Value t) (behind : Bytes) : Prop where
  width : (t.bind (v.bytes ++ behind)).len = (t.bind (v.bytes ++ behind)).oid.width
  denotes : (t.bind (v.bytes ++ behind)).oid.reads
    ((t.bind (v.bytes ++ behind)).val.take (t.bind (v.bytes ++ behind)).len) = some v.meaning
  inside : t.moved ≤ t.size
  back : t.vnod_to_vhod ((t.bind (v.bytes ++ behind)).val.take (t.bind (v.bytes ++ behind)).len) =
    some v.bits

/-- The types whose overloads fit. -/
def Arith.served : Arith → Bool
  | .bool | .signedChar | .wcharT | .char16T | .char32T => false
  | _ => true

/-- The type is one of them, and a value without a sign is in the range of the type with a sign. -/
def Fits {t : Arith} (v : Value t) : Prop :=
  t.served = true ∧ (t.unsigned = true → v.bits < 2 ^ (8 * t.size - 1))

/-! ## Bytes -/

theorem order8_eq (b : Bytes) : order8 b = (b.take 8).reverse := by
  calc order8 b = (b.take 4 ++ (b.drop 4).take 4).reverse := List.reverse_append.symm
    _ = (b.take 8).reverse := by rw [← List.take_add]

theorem reverse_take_one (b : Bytes) : (b.take 1).reverse = b.take 1 := by
  cases b with
  | nil => rfl
  | cons c b => rfl

/-- In these types the conversions reverse the bytes of a value. -/
theorem moves_of_served {t : Arith} (h : t.served = true) (b : Bytes) :
    t.moves b = (b.take t.size).reverse := by
  cases t with
  | bool => nomatch h
  | signedChar => nomatch h
  | wcharT => nomatch h
  | char16T => nomatch h
  | char32T => nomatch h
  | char => exact (reverse_take_one b).symm
  | unsignedChar => exact (reverse_take_one b).symm
  | short => rfl
  | unsignedShort => rfl
  | int => rfl
  | unsignedInt => rfl
  | float => rfl
  | long => exact order8_eq b
  | unsignedLong => exact order8_eq b
  | longLong => exact order8_eq b
  | unsignedLongLong => exact order8_eq b
  | double => exact order8_eq b

/-- The three functions have the same width for them. -/
theorem moved_of_served {t : Arith} (h : t.served = true) :
    t.moved = t.size ∧ t.size = t.type_to_pgsql_oid_type.width := by
  revert h
  cases t <;> decide

/-- No two of the functions have the same width for the other types, or they read too much. -/
theorem moved_of_not_served {t : Arith} (h : t.served = false)
    (hwidth : t.size = t.type_to_pgsql_oid_type.width) : t.size < t.moved := by
  revert h hwidth
  cases t <;> decide

/-! ## Values -/

/-- A number is its own two's complement below the half of the range. -/
theorem signed_eq_iff (k n : Nat) : signed k n = n ↔ n < 2 ^ (8 * k - 1) := by
  unfold signed
  by_cases h : n < 2 ^ (8 * k - 1)
  · rw [if_pos h]
    exact iff_of_true rfl h
  · rw [if_neg h]
    refine iff_of_false (fun heq => ?_) h
    have hpos : (0 : Int) < 2 ^ (8 * k) := Int.pow_pos (by decide)
    omega

namespace Value

variable {t : Arith}

theorem length_bytes (v : Value t) : v.bytes.length = t.size := length_leBytes t.size v.bits

theorem leNat_bytes (v : Value t) : leNat v.bytes = v.bits := by
  unfold bytes
  rw [leNat_leBytes, Nat.mod_eq_of_lt v.bound]

theorem moves_bytes (h : t.served = true) (v : Value t) (behind : Bytes) :
    t.moves (v.bytes ++ behind) = v.bytes.reverse := by
  rw [moves_of_served h, List.take_left' v.length_bytes]

/-- What libpq is given for a value of such a type. -/
theorem handed (h : t.served = true) (v : Value t) (behind : Bytes) :
    (t.bind (v.bytes ++ behind)).val.take t.size = v.bytes.reverse := by
  show (t.moves (v.bytes ++ behind) ++ _).take t.size = _
  rw [moves_bytes h, List.take_left']
  rw [List.length_reverse, v.length_bytes]

/-- The server takes the value for the one that it is, unless it has no sign and is too large. -/
theorem reads_iff (h : t.served = true) (v : Value t) :
    t.type_to_pgsql_oid_type.reads v.bytes.reverse = some v.meaning ↔
      (t.unsigned = true → v.bits < 2 ^ (8 * t.size - 1)) := by
  have hlen : v.bytes.reverse.length = t.type_to_pgsql_oid_type.width := by
    rw [List.length_reverse, v.length_bytes, (moved_of_served h).2]
  unfold Oid.reads
  rw [if_pos hlen, List.reverse_reverse, v.leNat_bytes, ← (moved_of_served h).2]
  have hunsigned : some (Meaning.num (signed t.size v.bits)) = some (.num v.bits) ↔
      v.bits < 2 ^ (8 * t.size - 1) := by
    rw [Option.some.injEq, Meaning.num.injEq, signed_eq_iff]
  cases t with
  | bool => nomatch h
  | signedChar => nomatch h
  | wcharT => nomatch h
  | char16T => nomatch h
  | char32T => nomatch h
  | unsignedChar => exact hunsigned.trans (by simp [Arith.unsigned])
  | unsignedShort => exact hunsigned.trans (by simp [Arith.unsigned])
  | unsignedInt => exact hunsigned.trans (by simp [Arith.unsigned])
  | unsignedLong => exact hunsigned.trans (by simp [Arith.unsigned])
  | unsignedLongLong => exact hunsigned.trans (by simp [Arith.unsigned])
  | char => exact iff_of_true rfl nofun
  | short => exact iff_of_true rfl nofun
  | int => exact iff_of_true rfl nofun
  | long => exact iff_of_true rfl nofun
  | longLong => exact iff_of_true rfl nofun
  | float => exact iff_of_true rfl nofun
  | double => exact iff_of_true rfl nofun

theorem vnod_bytes (h : t.served = true) (v : Value t) :
    t.vnod_to_vhod v.bytes.reverse = some v.bits := by
  have hmoved : t.moved ≤ v.bytes.reverse.length ∧ t.moved ≤ t.size := by
    rw [List.length_reverse, v.length_bytes, (moved_of_served h).1]
    exact ⟨Nat.le_refl _, Nat.le_refl _⟩
  unfold Arith.vnod_to_vhod
  have hall : v.bytes.reverse.take t.size = v.bytes.reverse := by
    apply List.take_of_length_le
    exact Nat.le_of_eq (List.length_reverse.trans v.length_bytes)
  rw [if_pos hmoved, moves_of_served h, hall, List.reverse_reverse, v.leNat_bytes]

/-- A value is handed to the server as it is, and read back, when its type is neither `bool` nor one
of the character types without an overload and the range of the type with a sign holds it. -/
theorem passes_iff (v : Value t) (behind : Bytes) : Passes v behind ↔ Fits v := by
  unfold Fits
  cases h : t.served with
  | true =>
      have hhanded := handed h v behind
      constructor
      · intro hpasses
        refine ⟨rfl, (reads_iff h v).mp ?_⟩
        rw [← hhanded]
        exact hpasses.denotes
      · rintro ⟨-, hrange⟩
        refine ⟨(moved_of_served h).2, ?_, Nat.le_of_eq (moved_of_served h).1, ?_⟩
        · exact (congrArg _ hhanded).trans ((reads_iff h v).mpr hrange)
        · exact (congrArg _ hhanded).trans (vnod_bytes h v)
  | false =>
      refine iff_of_false (fun hpasses => ?_) (by simp)
      have hlt := moved_of_not_served h hpasses.width
      exact Nat.not_le_of_lt hlt hpasses.inside

end Value

/-- The seven bytes behind a `bool` are read, and one byte is handed over for an `INT4`. -/
theorem not_passes_bool : ¬ ∀ (t : Arith) (v : Value t) (behind : Bytes), Passes v behind := by
  intro h
  have hwidth := (h .bool ⟨1, by decide, fun _ => Nat.le_refl 1⟩ []).width
  revert hwidth
  decide

end Suil.Sql
