import Mathlib

set_option autoImplicit false

/-! # Numbers as little-endian bytes -/

namespace LittleEndian

/-- The low `k` bytes of a number, the lowest first. -/
def leBytes : Nat → Nat → List UInt8
  | 0, _ => []
  | k + 1, n => UInt8.ofNat n :: leBytes k (n / 256)

/-- The number that bytes stand for. -/
def leNat : List UInt8 → Nat
  | [] => 0
  | b :: bs => b.toNat + 256 * leNat bs

@[simp] theorem length_leBytes (k n : Nat) : (leBytes k n).length = k := by
  induction k generalizing n with
  | zero => rfl
  | succ k ih => rw [leBytes, List.length_cons, ih]

theorem leNat_leBytes (k n : Nat) : leNat (leBytes k n) = n % 256 ^ k := by
  induction k generalizing n with
  | zero => rw [Nat.pow_zero, Nat.mod_one]; rfl
  | succ k ih =>
      calc leNat (leBytes (k + 1) n)
          = n % 256 + 256 * (n / 256 % 256 ^ k) := by
            rw [leBytes, leNat, ih, UInt8.toNat_ofNat']
        _ = n % (256 * 256 ^ k) := (Nat.mod_mul).symm
        _ = n % 256 ^ (k + 1) := by rw [Nat.pow_succ, Nat.mul_comm]

/-- A number and the sum of its bytes are the same modulo 255. -/
theorem leNat_mod (bs : List UInt8) : leNat bs % 255 = (bs.map UInt8.toNat).sum % 255 := by
  induction bs with
  | nil => rfl
  | cons b bs ih =>
      rw [leNat, List.map_cons, List.sum_cons]
      omega

/-- The bytes of a number in the other order. -/
theorem leNat_reverse_mod (bs : List UInt8) : leNat bs.reverse % 255 = leNat bs % 255 := by
  rw [leNat_mod, leNat_mod, List.map_reverse, List.sum_reverse]

end LittleEndian
