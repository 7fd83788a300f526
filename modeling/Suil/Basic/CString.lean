import Mathlib
import Suil.Basic.Bytes

set_option autoImplicit false

/-! # Functions of the C library on strings

A list of bytes stands for the string up to its terminating NUL: reading past the end reads
the NUL. -/

namespace Suil

/-- `strncasecmp(a, b, n) == 0`. -/
def strncaseEq : Nat → Bytes → Bytes → Bool
  | 0, _, _ => true
  | n + 1, a, b =>
      let x := a.headD NUL
      let y := b.headD NUL
      if toLower x ≠ toLower y then false
      else if x = NUL then true
      else strncaseEq n a.tail b.tail

theorem strncaseEq_cons (n : Nat) (b d : UInt8) (x y : Bytes) :
    strncaseEq (n + 1) (b :: x) (d :: y) =
      if toLower b ≠ toLower d then false
      else if b = NUL then true
      else strncaseEq n x y := rfl

theorem strncaseEq_self (n : Nat) (s : Bytes) : strncaseEq n s s = true := by
  induction n generalizing s with
  | zero => rfl
  | succ n ih =>
      rw [strncaseEq, if_neg (not_not.mpr rfl), ih]
      exact ite_self _

set_option maxRecDepth 8000 in
private theorem toLower_eq_nul {c : UInt8} : toLower c = NUL → c = NUL :=
  forall_byte (P := fun c => toLower c = NUL → c = NUL) (by decide) c

/-- A comparison with a whole string looks for it at the start. -/
theorem strncaseEq_length {b : Bytes} (hb : NUL ∉ b) (a : Bytes) : strncaseEq b.length a b = true ↔
    ∃ p s, a = p ++ s ∧ p.map toLower = b.map toLower := by
  induction b generalizing a with
  | nil => exact iff_of_true rfl ⟨[], a, rfl, rfl⟩
  | cons d b ih =>
      obtain ⟨hd, hb⟩ := not_or.mp (List.mem_cons.not.mp hb)
      cases a with
      | nil =>
          -- the NUL of the empty string is no letter of the other one
          have hne : toLower NUL ≠ toLower d := fun h => hd (toLower_eq_nul h.symm).symm
          rw [List.length_cons, strncaseEq]
          simp only [List.headD_nil, List.headD_cons, if_pos hne, Bool.false_eq_true, false_iff]
          rintro ⟨p, s, hnil, hp⟩
          rw [(List.append_eq_nil_iff.mp hnil.symm).1] at hp
          nomatch hp
      | cons c a =>
          rw [List.length_cons, strncaseEq_cons]
          by_cases hcd : toLower c = toLower d
          · have hc : c ≠ NUL := fun h => hd (toLower_eq_nul (hcd.symm.trans (by rw [h]; rfl))).symm
            rw [if_neg (not_not.mpr hcd), if_neg hc, ih hb]
            constructor
            · rintro ⟨p, s, rfl, hp⟩
              exact ⟨c :: p, s, rfl, by rw [List.map_cons, List.map_cons, hcd, hp]⟩
            · rintro ⟨p, s, hps, hp⟩
              cases p with
              | nil => nomatch hp
              | cons e p =>
                  rw [List.cons_append, List.cons.injEq] at hps
                  rw [List.map_cons, List.map_cons, List.cons.injEq] at hp
                  exact ⟨p, s, hps.2, hp.2⟩
          · rw [if_pos hcd]
            refine iff_of_false Bool.false_ne_true ?_
            rintro ⟨p, s, hps, hp⟩
            cases p with
            | nil => nomatch hp
            | cons e p =>
                rw [List.cons_append, List.cons.injEq] at hps
                rw [List.map_cons, List.map_cons, List.cons.injEq] at hp
                exact hcd (hps.1 ▸ hp.1)

/-- The string that memory starts with. -/
def cstr (mem : Bytes) : Bytes := mem.takeWhile (· ≠ NUL)

theorem cstr_nul (a : Bytes) : cstr (NUL :: a) = [] := rfl

theorem cstr_cons {c : UInt8} (h : c ≠ NUL) (a : Bytes) : cstr (c :: a) = c :: cstr a := by
  rw [cstr, List.takeWhile_cons, if_pos (decide_eq_true h)]
  rfl

theorem cstr_eq_self_iff {s : Bytes} : cstr s = s ↔ NUL ∉ s := by
  rw [cstr, List.takeWhile_eq_self_iff]
  constructor
  · exact fun h hmem => absurd rfl (of_decide_eq_true (h NUL hmem))
  · exact fun h c hc => decide_eq_true fun heq => h (heq ▸ hc)

theorem cstr_eq_self {s : Bytes} (h : NUL ∉ s) : cstr s = s := cstr_eq_self_iff.mpr h

theorem nul_notMem_cstr (s : Bytes) : NUL ∉ cstr s :=
  cstr_eq_self_iff.mp List.takeWhile_idem

theorem cstr_append {s : Bytes} (hs : NUL ∉ s) (t : Bytes) : cstr (s ++ t) = s ++ cstr t := by
  induction s with
  | nil => rfl
  | cons c s ih =>
      rw [List.mem_cons, not_or] at hs
      rw [List.cons_append, cstr_cons (Ne.symm hs.1), ih hs.2, List.cons_append]

/-- The string in C ends where the bytes end, or in front of a NUL. -/
theorem cstr_split (s : Bytes) : s = cstr s ∨ ∃ r, s = cstr s ++ NUL :: r := by
  induction s with
  | nil => exact .inl rfl
  | cons c s ih =>
      by_cases hc : c = NUL
      · rw [hc, cstr_nul]
        exact .inr ⟨s, rfl⟩
      · rw [cstr_cons hc]
        rcases ih with ih | ⟨r, ih⟩
        · exact .inl (congrArg (c :: ·) ih)
        · exact .inr ⟨r, congrArg (c :: ·) ih⟩

theorem cstr_append_nul (s z : Bytes) : cstr (s ++ NUL :: z) = cstr s := by
  induction s with
  | nil => rfl
  | cons c s ih =>
      by_cases hc : c = NUL
      · rw [hc]
        rfl
      · rw [List.cons_append, cstr_cons hc, cstr_cons hc, ih]

theorem length_cstr_le (s z : Bytes) : (cstr (s ++ NUL :: z)).length ≤ s.length := by
  rw [cstr_append_nul]
  exact (List.takeWhile_prefix _).length_le

theorem cstr_of_notMem {s : Bytes} (h : NUL ∉ s) (z : Bytes) : cstr (s ++ NUL :: z) = s := by
  rw [cstr_append_nul, cstr_eq_self h]

/-- `strncmp(a, b, n) == 0`. -/
def strncmpEq : Nat → Bytes → Bytes → Bool
  | 0, _, _ => true
  | n + 1, a, b =>
      let x := a.headD NUL
      let y := b.headD NUL
      if x ≠ y then false
      else if x = NUL then true
      else strncmpEq n a.tail b.tail

theorem strncmpEq_self (n : Nat) (s : Bytes) : strncmpEq n s s = true := by
  induction n generalizing s with
  | zero => rfl
  | succ n ih =>
      rw [strncmpEq, if_neg (not_not.mpr rfl), ih]
      exact ite_self _

theorem strncmpEq_cons (n : Nat) (b d : UInt8) (x y : Bytes) :
    strncmpEq (n + 1) (b :: x) (d :: y) =
      if b ≠ d then false
      else if b = NUL then true
      else strncmpEq n x y := rfl

/-- Strings of one length without a NUL are compared as a whole. -/
theorem strncmpEq_length {x y : Bytes} (hx : NUL ∉ x) (hlen : x.length = y.length) :
    strncmpEq x.length x y = true ↔ x = y := by
  induction x generalizing y with
  | nil => exact iff_of_true rfl (List.length_eq_zero_iff.mp hlen.symm).symm
  | cons b x ih =>
      cases y with
      | nil => nomatch hlen
      | cons d y =>
          rw [List.mem_cons, not_or] at hx
          rw [List.length_cons, strncmpEq_cons]
          by_cases hbd : b = d
          · rw [if_neg (not_not.mpr hbd), if_neg (Ne.symm hx.1), ih hx.2 (Nat.succ.inj hlen),
              List.cons_eq_cons]
            exact (and_iff_right hbd).symm
          · rw [if_pos hbd, List.cons_eq_cons]
            exact iff_of_false Bool.false_ne_true fun h => hbd h.1

/-- `strchr(s, c)` for a character that is not the NUL: the string from the character on. -/
def strchr : Bytes → UInt8 → Option Bytes
  | [], _ => none
  | b :: s, c => if b = c then some (b :: s) else if b = NUL then none else strchr s c

theorem strchr_eq_some {s r : Bytes} {c : UInt8} (h : strchr s c = some r) :
    ∃ q, r = c :: q ∧ q.length < s.length := by
  induction s with
  | nil => cases h
  | cons b s ih =>
      rw [strchr] at h
      split_ifs at h with hb hnul
      · cases h
        exact ⟨s, by rw [hb], Nat.lt_succ_self _⟩
      · obtain ⟨q, hq, hlt⟩ := ih h
        exact ⟨q, hq, Nat.lt_succ_of_lt hlt⟩

theorem strchr_of_notMem {s : Bytes} {c : UInt8} (h : c ∉ s) : strchr s c = none := by
  induction s with
  | nil => rfl
  | cons b s ih =>
      rw [List.mem_cons, not_or] at h
      rw [strchr, if_neg (Ne.symm h.1), ih h.2, ite_self]

theorem strchr_append {x y : Bytes} {c : UInt8} (hx : c ∉ x) (hnul : NUL ∉ x) :
    strchr (x ++ c :: y) c = some (c :: y) := by
  induction x with
  | nil => exact if_pos rfl
  | cons b x ih =>
      rw [List.mem_cons, not_or] at hx hnul
      rw [List.cons_append, strchr, if_neg (Ne.symm hx.1), if_neg (Ne.symm hnul.1), ih hx.2 hnul.2]

/-- `strrchr(s, c)` on a string without a NUL: the string from the last such character on. -/
def strrchr : Bytes → UInt8 → Option Bytes
  | [], _ => none
  | b :: s, c =>
      match strrchr s c with
      | some r => some r
      | none => if b = c then some (b :: s) else none

theorem strrchr_eq_none {s : Bytes} {c : UInt8} (h : c ∉ s) : strrchr s c = none := by
  induction s with
  | nil => rfl
  | cons b s ih =>
      have hb : b ≠ c := fun heq => h (heq ▸ List.mem_cons_self)
      rw [strrchr, ih fun hs => h (List.mem_cons_of_mem b hs), if_neg hb]

/-- The last of the characters is found. -/
theorem strrchr_append {s : Bytes} {c : UInt8} (h : c ∉ s) (a : Bytes) :
    strrchr (a ++ c :: s) c = some (c :: s) := by
  induction a with
  | nil => rw [List.nil_append, strrchr, strrchr_eq_none h, if_pos rfl]
  | cons b a ih => rw [List.cons_append, strrchr, ih]

/-- `String::split` (`zstring.cpp`) at one byte: `strsep` until the NUL, without the empty parts. -/
def split (delim : UInt8) (s : Bytes) : List Bytes := ((cstr s).splitOn delim).filter (· ≠ [])

/-- `isspace` in the C locale. -/
def isSpace (c : UInt8) : Bool := c = SP || 9 ≤ c && c ≤ 13

/-- The number that decimal digits stand for. -/
def ofDigits (s : Bytes) : Nat := s.foldl (fun n c => 10 * n + (c.toNat - 48)) 0

/-- `strtoul(s, nullptr, 10)`: no digits are 0, a number that does not fit is the greatest, and
a minus sign negates the 64 bits. -/
def strtoul (s : Bytes) : Nat :=
  let s := s.dropWhile isSpace
  let neg := s.head? = some DASH
  let n := ofDigits ((if neg ∨ s.head? = some PLUS then s.tail else s).takeWhile isDigit)
  if 2 ^ 64 ≤ n then 2 ^ 64 - 1 else if neg then (2 ^ 64 - n) % 2 ^ 64 else n

def INT64_MAX : Int := 2 ^ 63 - 1
def INT64_MIN : Int := -2 ^ 63

/-- `utils::strtonum(str, 10, INT64_MIN, INT64_MAX)`: nothing when it throws. Behind the digits there
is the end of the string or a dot. -/
def strtonum (s : Bytes) : Option Int :=
  let s := s.dropWhile isSpace
  let neg := s.head? = some DASH
  let s := if neg ∨ s.head? = some PLUS then s.tail else s
  let digits := s.takeWhile isDigit
  let ep := (s.drop digits.length).headD NUL
  let n : Int := if neg then -(ofDigits digits) else ofDigits digits
  if digits = [] ∨ (ep ≠ DOT ∧ ep ≠ NUL) ∨ n < INT64_MIN ∨ INT64_MAX < n then none else some n

/-- `%lu`. -/
def showNat (n : Nat) : Bytes := (Nat.toDigits 10 n).map (fun c => c.toNat.toUInt8)

/-- A number in a stream. -/
def showInt (n : Int) : Bytes := if n < 0 then str "-" ++ showNat n.natAbs else showNat n.natAbs

theorem showInt_natCast (n : Nat) : showInt n = showNat n := if_neg (by omega)

private theorem toNat_digit {c : Char} (h : c.isDigit = true) : c.toNat.toUInt8.toNat = c.toNat := by
  obtain ⟨-, hle⟩ := Char.isDigit_iff_toNat.mp h
  rw [Nat.toUInt8, UInt8.toNat_ofNat']
  exact Nat.mod_eq_of_lt (Nat.lt_of_le_of_lt hle (by decide))

/-- A number is what its digits stand for. -/
theorem ofDigits_showNat (n : Nat) : ofDigits (showNat n) = n := by
  have hdigits : ∀ c ∈ Nat.toDigits 10 n, c.isDigit = true := fun c hc =>
    Nat.isDigit_of_mem_toDigits (by decide) (by decide) hc
  have hfold : ∀ (cs : List Char) (a : Nat), (∀ c ∈ cs, c.isDigit = true) →
      (cs.map fun c => c.toNat.toUInt8).foldl (fun n c => 10 * n + (c.toNat - 48)) a =
        Nat.ofDigitChars 10 cs a := by
    intro cs
    induction cs with
    | nil => exact fun _ _ => rfl
    | cons c cs ih =>
        intro a hcs
        rw [List.map_cons, List.foldl_cons, toNat_digit (hcs c List.mem_cons_self),
          ih _ fun c hc => hcs c (List.mem_cons_of_mem _ hc), Nat.ofDigitChars_cons]
        rfl
  rw [ofDigits, showNat, hfold _ 0 hdigits, Nat.ofDigitChars_toDigits (by decide) (by decide)]

theorem isDigit_of_mem_showNat {n : Nat} {c : UInt8} (h : c ∈ showNat n) : isDigit c = true := by
  obtain ⟨d, hd, rfl⟩ := List.mem_map.mp h
  have hdigit := Nat.isDigit_of_mem_toDigits (by decide) (by decide) hd
  obtain ⟨hge, hle⟩ := Char.isDigit_iff_toNat.mp hdigit
  rw [isDigit, Bool.and_eq_true, decide_eq_true_iff, decide_eq_true_iff, UInt8.le_iff_toNat_le,
    UInt8.le_iff_toNat_le, toNat_digit hdigit]
  exact ⟨hge, hle⟩

theorem showNat_ne_nil (n : Nat) : showNat n ≠ [] :=
  List.map_eq_nil_iff.not.mpr Nat.toDigits_ne_nil

set_option maxRecDepth 8000 in
/-- A number is read back from its text. -/
theorem strtonum_showInt {n : Int} (hlo : INT64_MIN ≤ n) (hhi : n ≤ INT64_MAX) :
    strtonum (showInt n) = some n := by
  have hrange : ¬ (n < INT64_MIN ∨ INT64_MAX < n) :=
    not_or.mpr ⟨Int.not_lt.mpr hlo, Int.not_lt.mpr hhi⟩
  have hdigits : ∀ c ∈ showNat n.natAbs, isDigit c = true := fun c => isDigit_of_mem_showNat
  have hall : (showNat n.natAbs).takeWhile isDigit = showNat n.natAbs :=
    List.takeWhile_eq_self_iff.mpr hdigits
  have hvalue := ofDigits_showNat n.natAbs
  have hnil := showNat_ne_nil n.natAbs
  by_cases hneg : n < 0
  · have hshow : showInt n = DASH :: showNat n.natAbs := if_pos hneg
    have hvalue' : -((ofDigits (showNat n.natAbs) : Nat) : Int) = n := by
      rw [hvalue]
      omega
    rw [hshow, strtonum]
    have hspace : (DASH :: showNat n.natAbs).dropWhile isSpace = DASH :: showNat n.natAbs := rfl
    simp only [hspace, List.head?_cons, true_or, if_true, List.tail_cons, hall, List.drop_length,
      List.headD_nil, hvalue', hnil, false_or]
    exact if_neg fun h => h.elim (fun h => h.2 rfl) hrange
  · have hshow : showInt n = showNat n.natAbs := if_neg hneg
    have hvalue' : ((ofDigits (showNat n.natAbs) : Nat) : Int) = n := by
      rw [hvalue]
      omega
    obtain ⟨c, s, hcons⟩ := List.exists_cons_of_ne_nil hnil
    have hc : isDigit c = true := hdigits c (hcons ▸ List.mem_cons_self)
    have hplain : isSpace c = false ∧ c ≠ DASH ∧ c ≠ PLUS :=
      forall_byte (P := fun c => isDigit c = true → isSpace c = false ∧ c ≠ DASH ∧ c ≠ PLUS)
        (by decide) c hc
    have hspace : (showNat n.natAbs).dropWhile isSpace = showNat n.natAbs := by
      rw [hcons, List.dropWhile_cons, hplain.1]
      rfl
    have hhead : (showNat n.natAbs).head? = some c := by rw [hcons]; rfl
    rw [hshow, strtonum]
    simp only [hspace, hhead, Option.some.injEq, hplain.2.1, hplain.2.2, or_self, if_false, hall,
      List.drop_length, List.headD_nil, hvalue', hnil, false_or]
    exact if_neg fun h => h.elim (fun h => h.2 rfl) hrange

theorem showNat_length_mono {m n : Nat} (h : m ≤ n) : (showNat m).length ≤ (showNat n).length := by
  rw [showNat, showNat, List.length_map, List.length_map,
    Nat.length_toDigits_le_iff (by decide) Nat.length_toDigits_pos]
  apply Nat.lt_of_le_of_lt h
  exact (Nat.length_toDigits_le_iff (by decide) Nat.length_toDigits_pos).mp (Nat.le_refl _)

end Suil
