import Mathlib
import Suil.Basic.CString

set_option autoImplicit false

/-! # Comparing a part of two strings

`strncmp` goes up to the first difference, to the NUL or to the length it is given. What it compares
is the start of the two strings in C, whatever the memory holds behind them. -/

namespace Suil

/-- `strncmp(a, b, n)`: the characters are compared as `unsigned char`. -/
def strncmp : Nat → Bytes → Bytes → Int
  | 0, _, _ => 0
  | n + 1, a, b =>
      let x := a.headD NUL
      let y := b.headD NUL
      if x ≠ y then (x.toNat : Int) - y.toNat
      else if x = NUL then 0
      else strncmp n a.tail b.tail

/-- The first character, which is the NUL at the end, and the string behind it. -/
private theorem cstr_eq (a : Bytes) :
    cstr a = if a.headD NUL = NUL then [] else a.headD NUL :: cstr a.tail := by
  cases a with
  | nil => rfl
  | cons c a =>
      by_cases hc : c = NUL
      · rw [hc]
        rfl
      · rw [cstr_cons hc]
        exact (if_neg hc).symm

/-- **What is compared are the starts of two strings in C.** -/
theorem strncmpEq_iff (n : Nat) (a b : Bytes) :
    strncmpEq n a b = true ↔ (cstr a).take n = (cstr b).take n := by
  induction n generalizing a b with
  | zero => exact iff_of_true rfl rfl
  | succ n ih =>
      rw [strncmpEq, cstr_eq a, cstr_eq b]
      generalize a.headD NUL = x
      generalize b.headD NUL = y
      by_cases hxy : x = y
      · rw [if_neg (not_not.mpr hxy), hxy]
        by_cases hy : y = NUL
        · rw [if_pos hy, if_pos hy, if_pos hy]
          exact iff_of_true rfl rfl
        · rw [if_neg hy, if_neg hy, if_neg hy, ih, List.take_succ_cons, List.take_succ_cons,
            List.cons_inj_right]
      · rw [if_pos hxy]
        refine iff_of_false Bool.false_ne_true ?_
        by_cases hx : x = NUL
        · rw [if_pos hx, if_neg (fun hy => hxy (hx.trans hy.symm)), List.take_nil,
            List.take_succ_cons]
          exact (List.cons_ne_nil _ _).symm
        · rw [if_neg hx, List.take_succ_cons]
          by_cases hy : y = NUL
          · rw [if_pos hy, List.take_nil]
            exact List.cons_ne_nil _ _
          · rw [if_neg hy, List.take_succ_cons]
            exact fun h => hxy (List.cons.inj h).1

theorem strncmp_eq_zero_iff (n : Nat) (a b : Bytes) :
    strncmp n a b = 0 ↔ strncmpEq n a b = true := by
  induction n generalizing a b with
  | zero => exact iff_of_true rfl rfl
  | succ n ih =>
      rw [strncmp, strncmpEq]
      generalize a.headD NUL = x
      generalize b.headD NUL = y
      by_cases hxy : x = y
      · rw [if_neg (not_not.mpr hxy), if_neg (not_not.mpr hxy)]
        by_cases hx : x = NUL
        · rw [if_pos hx, if_pos hx]
          exact iff_of_true rfl rfl
        · rw [if_neg hx, if_neg hx, ih]
      · rw [if_pos hxy, if_pos hxy]
        refine iff_of_false ?_ Bool.false_ne_true
        intro h
        exact hxy (UInt8.toNat_inj.mp (by omega))

/-- The order of the arguments is the sign of the result. -/
theorem strncmp_swap (n : Nat) (a b : Bytes) : strncmp n b a = -strncmp n a b := by
  induction n generalizing a b with
  | zero => rfl
  | succ n ih =>
      rw [strncmp, strncmp]
      generalize a.headD NUL = x
      generalize b.headD NUL = y
      by_cases hxy : x = y
      · rw [if_neg (not_not.mpr hxy.symm), if_neg (not_not.mpr hxy), hxy, ih]
        split
        · rfl
        · rfl
      · rw [if_pos (Ne.symm hxy), if_pos hxy]
        omega

/-- A string with no NUL is compared as a prefix. -/
theorem strncmpEq_prefix {k : Bytes} (hk : NUL ∉ k) {a : Bytes} (ha : NUL ∉ a) :
    strncmpEq k.length a k = true ↔ k <+: a := by
  rw [strncmpEq_iff, cstr_eq_self hk, cstr_eq_self ha, List.take_length, List.prefix_iff_eq_take]
  exact eq_comm

/-- A string with a NUL is compared as the whole string in C in front of it. -/
theorem strncmpEq_nul {k : Bytes} (hk : NUL ∈ k) {a : Bytes} (ha : NUL ∉ a) :
    strncmpEq k.length a k = true ↔ a = cstr k := by
  have hlt : (cstr k).length < k.length := by
    apply Nat.lt_of_le_of_ne (List.takeWhile_prefix _).length_le
    intro hlen
    have hall : cstr k = k := (List.takeWhile_prefix _).eq_of_length hlen
    exact nul_notMem_cstr k (hall.symm ▸ hk)
  rw [strncmpEq_iff, cstr_eq_self ha, List.take_of_length_le (Nat.le_of_lt hlt)]
  constructor
  · intro h
    have hlen := congrArg List.length h
    rw [List.length_take] at hlen
    rwa [List.take_of_length_le (by omega)] at h
  · intro h
    rw [h, List.take_of_length_le (Nat.le_of_lt hlt)]

end Suil
