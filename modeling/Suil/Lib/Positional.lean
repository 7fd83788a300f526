import Mathlib

set_option autoImplicit false

/-! # Positional notation

Numbers and their digits in a base, the most significant digit first. `numeral_value` says that only
leading zeros get lost on the way from digits to digits. -/

namespace Positional

/-- The number that digits stand for. -/
def value (b : Nat) (ds : List Nat) : Nat := ds.foldl (fun n d => n * b + d) 0

/-- The digits of a number. -/
def numeral (b n : Nat) : List Nat := (Nat.digits b n).reverse

variable {b : Nat}

theorem foldl_value (n : Nat) (ds : List Nat) :
    ds.foldl (fun n d => n * b + d) n = n * b ^ ds.length + value b ds := by
  induction ds generalizing n with
  | nil => rw [List.foldl_nil, List.length_nil, Nat.pow_zero, Nat.mul_one]; rfl
  | cons d ds ih =>
      have hvalue : value b (d :: ds) = (0 * b + d) * b ^ ds.length + value b ds := ih (0 * b + d)
      rw [List.foldl_cons, ih, hvalue, List.length_cons, Nat.pow_succ]
      ring

theorem value_append (ds es : List Nat) :
    value b (ds ++ es) = value b ds * b ^ es.length + value b es := by
  rw [value, List.foldl_append, foldl_value]
  rfl

theorem value_eq_ofDigits (ds : List Nat) : value b ds = Nat.ofDigits b ds.reverse := by
  induction ds using List.reverseRecOn with
  | nil => rfl
  | append_singleton ds d ih =>
      rw [value_append, ih, List.reverse_append, List.reverse_singleton, List.singleton_append,
        Nat.ofDigits_cons, List.length_singleton, Nat.pow_one, Nat.mul_comm, Nat.add_comm]
      exact congrArg (· + _) (show value b [d] = d by rw [value, List.foldl_cons]; simp)

theorem value_numeral (b n : Nat) : value b (numeral b n) = n := by
  rw [value_eq_ofDigits, numeral, List.reverse_reverse, Nat.ofDigits_digits]

theorem numeral_lt {n d : Nat} (hb : 1 < b) (hd : d ∈ numeral b n) : d < b :=
  Nat.digits_lt_base hb (List.mem_reverse.mp hd)

theorem length_numeral_le_iff {k : Nat} (hb : 1 < b) (n : Nat) :
    (numeral b n).length ≤ k ↔ n < b ^ k := by
  rw [numeral, List.length_reverse, Nat.digits_length_le_iff hb]

/-- A larger base needs no more digits. -/
theorem length_numeral_anti {c : Nat} (hb : 1 < b) (hbc : b ≤ c) (n : Nat) :
    (numeral c n).length ≤ (numeral b n).length := by
  rw [length_numeral_le_iff (hb.trans_le hbc)]
  calc n < b ^ (numeral b n).length := (length_numeral_le_iff hb n).mp (Nat.le_refl _)
    _ ≤ c ^ (numeral b n).length := Nat.pow_le_pow_left hbc _

/-- Leading zeros do not count. -/
theorem value_zeros (z : Nat) (ds : List Nat) : value b (List.replicate z 0 ++ ds) = value b ds := by
  induction z with
  | zero => rfl
  | succ z ih =>
      rw [List.replicate_succ, List.cons_append, value, List.foldl_cons, Nat.zero_mul]
      exact ih

/-- The last step of a division by the base. -/
theorem numeral_step {n : Nat} (hb : 1 < b) (hn : n ≠ 0) :
    numeral b n = numeral b (n / b) ++ [n % b] := by
  rw [numeral, Nat.digits_def' hb (Nat.pos_of_ne_zero hn), List.reverse_cons]
  rfl

/-- **Digits come back without the leading zeros.** -/
theorem numeral_value {ds : List Nat} (hb : 1 < b) (h : ∀ d ∈ ds, d < b) :
    numeral b (value b ds) = ds.dropWhile (· = 0) := by
  induction ds with
  | nil => rw [value, List.foldl_nil, numeral, Nat.digits_zero]; rfl
  | cons d ds ih =>
      by_cases hd : d = 0
      · have hskip : value b (d :: ds) = value b ds := by
          rw [hd]
          exact value_zeros 1 ds
        rw [hskip, ih fun e he => h e (List.mem_cons_of_mem d he), List.dropWhile_cons_of_pos]
        exact decide_eq_true hd
      · rw [List.dropWhile_cons_of_neg (by rw [decide_eq_true_iff]; exact hd), numeral,
          value_eq_ofDigits, Nat.digits_ofDigits b hb, List.reverse_reverse]
        · exact fun e he => h e (List.mem_reverse.mp he)
        · intro hne
          rw [List.getLast_reverse]
          exact hd

end Positional
