import Suil.Basic.Str

set_option autoImplicit false

/-! # Strings as numbers

`utils::to_number` and `utils::cast` (`utils.h`) for integral types: `strtonum` (`utils.cpp`) reads 64
bits with a sign, and they are converted to the type. A fraction is cut off, as the tests of the
library expect. `toNumber_reads` says which numbers come out. -/

namespace Suil.Str

/-! ## Integral types and conversions -/

/-- An integral type, by the digits that `std::numeric_limits` gives for it: 63 for `int64_t`. -/
inductive Integral where
  | bool
  | signed (digits : Nat)
  | unsigned (digits : Nat)
  deriving DecidableEq, Repr

namespace Integral

/-- The numbers of the type. -/
def Holds : Integral → Int → Prop
  | bool, n => n = 0 ∨ n = 1
  | signed d, n => -2 ^ d ≤ n ∧ n < 2 ^ d
  | unsigned d, n => 0 ≤ n ∧ n < 2 ^ d

instance (T : Integral) (n : Int) : Decidable (T.Holds n) :=
  match T with
  | bool => inferInstanceAs (Decidable (n = 0 ∨ n = 1))
  | signed d => inferInstanceAs (Decidable (-2 ^ d ≤ n ∧ n < 2 ^ d))
  | unsigned d => inferInstanceAs (Decidable (0 ≤ n ∧ n < 2 ^ d))

/-- `(T) n`. -/
def convert : Integral → Int → Int
  | bool, n => if n = 0 then 0 else 1
  | signed d, n => n.bmod (2 ^ (d + 1))
  | unsigned d, n => n % 2 ^ d

/-- A number of the type is converted to itself. -/
theorem convert_eq {T : Integral} {n : Int} (h : T.Holds n) : T.convert n = n := by
  cases T with
  | bool =>
      rcases h with rfl | rfl
      · rfl
      · rfl
  | signed d =>
      obtain ⟨hlo, hhi⟩ := h
      have hpow : ((2 ^ (d + 1) : Nat) : Int) = 2 ^ d * 2 := by
        rw [Nat.pow_succ, Int.natCast_mul, Int.natCast_pow]
        rfl
      apply Int.bmod_eq_of_le_mul_two
      · omega
      · omega
  | unsigned d => exact Int.emod_eq_of_lt h.1 h.2

end Integral

/-- Why there is no number: an exception of `strtonum`, or the null pointer was read. -/
inductive NumberError where
  | thrown
  | nullPointer
  deriving DecidableEq, Repr

/-- `to_number<T>(str)`. -/
def toNumber (T : Integral) (s : Str) : Except NumberError Int :=
  match s.mem with
  | none => .error .nullPointer
  | some m =>
      match strtonum m with
      | none => .error .thrown
      | some l => .ok (T.convert l)

/-! ## The number of a text -/

/-- What a sign makes of digits. -/
def signedValue (sign digits : Bytes) : Int :=
  if sign = [DASH] then -(ofDigits digits : Int) else ofDigits digits

/-- The text of a decimal integer: digits, and perhaps a sign in front of them. -/
def Decimal (s : Bytes) (n : Int) : Prop :=
  ∃ sign digits, s = sign ++ digits ∧ (sign = [] ∨ sign = [PLUS] ∨ sign = [DASH]) ∧ digits ≠ [] ∧
    (∀ c ∈ digits, isDigit c = true) ∧ n = signedValue sign digits

/-- The number that a text denotes when it is one of the type, an exception otherwise. -/
def Exact (T : Integral) (s : Str) : Prop :=
  (∀ n, Decimal s.bytes n → T.Holds n → toNumber T s = .ok n) ∧
    ((∀ n, Decimal s.bytes n → ¬ T.Holds n) → toNumber T s = .error .thrown)

/-- A decimal integer with white space in front of it, and perhaps a fraction behind it that
nothing looks at. -/
def Numeral (s : Bytes) (n : Int) : Prop :=
  ∃ space number rest, s = space ++ (number ++ rest) ∧ (∀ c ∈ space, isSpace c = true) ∧
    Decimal number n ∧ (rest = [] ∨ ∃ fraction, rest = DOT :: fraction)

/-- The number that a text starts with when it is one of the type and of 64 bits, and an exception
when it starts with none of them. -/
def Reads (T : Integral) (text : Bytes) (r : Except NumberError Int) : Prop :=
  (∀ n, Numeral text n → T.Holds n → (Integral.signed 63).Holds n → r = .ok n) ∧
    ((∀ n, Numeral text n → ¬ T.Holds n ∧ ¬ (Integral.signed 63).Holds n) → r = .error .thrown)

/-! ## What `strtonum` reads -/

section
variable {b sg d r m : Bytes} {n : Int}

private theorem plain_digit {c : UInt8} (h : isDigit c = true) :
    isSpace c = false ∧ c ≠ DASH ∧ c ≠ PLUS ∧ c ≠ NUL := by
  rw [isDigit, Bool.and_eq_true, decide_eq_true_iff, decide_eq_true_iff] at h
  obtain ⟨hge, hle⟩ := h
  refine ⟨?_, ?_, ?_, ?_⟩
  · rw [isSpace, Bool.or_eq_false_iff, decide_eq_false_iff_not, Bool.and_eq_false_iff,
      decide_eq_false_iff_not, decide_eq_false_iff_not]
    refine ⟨?_, .inr ?_⟩
    · rintro rfl
      exact absurd hge (by decide)
    · intro hsmall
      exact absurd (UInt8.le_trans hge hsmall) (by decide)
  · rintro rfl
    exact absurd hge (by decide)
  · rintro rfl
    exact absurd hge (by decide)
  · rintro rfl
    exact absurd hge (by decide)

private theorem takeWhile_digits (hd : ∀ c ∈ d, isDigit c = true)
    (hr : isDigit (r.headD NUL) = false) : (d ++ r).takeWhile isDigit = d := by
  rw [List.takeWhile_append_of_pos hd]
  cases r with
  | nil => exact List.append_nil d
  | cons c r =>
      have hc : isDigit c = false := hr
      rw [List.takeWhile_cons, hc]
      exact List.append_nil d

/-- The longest space, a sign and the digits behind them are read. -/
private theorem strtonum_scan (hb : ∀ c ∈ b, isSpace c = true)
    (hs : isSpace ((sg ++ (d ++ r)).headD NUL) = false)
    (hsg : sg = [PLUS] ∨ sg = [DASH] ∨
      sg = [] ∧ (d ++ r).headD NUL ≠ DASH ∧ (d ++ r).headD NUL ≠ PLUS)
    (hd : ∀ c ∈ d, isDigit c = true) (hr : isDigit (r.headD NUL) = false) :
    strtonum (b ++ (sg ++ (d ++ r))) =
      if d = [] ∨ (r.headD NUL ≠ DOT ∧ r.headD NUL ≠ NUL) ∨ signedValue sg d < INT64_MIN ∨
        INT64_MAX < signedValue sg d then none else some (signedValue sg d) := by
  have hspace : (b ++ (sg ++ (d ++ r))).dropWhile isSpace = sg ++ (d ++ r) := by
    rw [List.dropWhile_append_of_pos hb]
    cases htext : sg ++ (d ++ r) with
    | nil => rfl
    | cons c t =>
        have hc : isSpace c = false := by rwa [htext] at hs
        rw [List.dropWhile_cons, hc]
        rfl
  have hdigits := takeWhile_digits hd hr
  have hrest : (d ++ r).drop d.length = r := List.drop_left
  rw [strtonum, hspace]
  rcases hsg with rfl | rfl | ⟨rfl, hdash, hplus⟩
  · simp only [List.singleton_append, List.head?_cons, List.tail_cons, or_true, if_true, hdigits,
      hrest, signedValue, Option.some.injEq, List.cons.injEq, and_true, show PLUS ≠ DASH by decide,
      if_false]
  · simp only [List.singleton_append, List.head?_cons, List.tail_cons, true_or, if_true, hdigits,
      hrest, signedValue]
  · have hhead : ∀ x, x ≠ NUL → (d ++ r).headD NUL ≠ x → (d ++ r).head? ≠ some x := by
      intro x _ hne heq
      rw [List.headD_eq_head?_getD, heq] at hne
      exact hne rfl
    have hnosign := hhead DASH (by decide) hdash
    have hnoplus := hhead PLUS (by decide) hplus
    simp only [List.nil_append, hnosign, hnoplus, or_self, if_false, hdigits, hrest, signedValue,
      List.nil_eq, reduceCtorEq]

/-- Every text is taken apart like this. -/
private theorem exists_parts (m : Bytes) : ∃ b sg d r, m = b ++ (sg ++ (d ++ r)) ∧
    (∀ c ∈ b, isSpace c = true) ∧ isSpace ((sg ++ (d ++ r)).headD NUL) = false ∧
    (sg = [PLUS] ∨ sg = [DASH] ∨
      sg = [] ∧ (d ++ r).headD NUL ≠ DASH ∧ (d ++ r).headD NUL ≠ PLUS) ∧
    (∀ c ∈ d, isDigit c = true) ∧ isDigit (r.headD NUL) = false := by
  have hhead : ∀ (p : UInt8 → Bool), p NUL = false → ∀ s : Bytes,
      p ((s.dropWhile p).headD NUL) = false := by
    intro p hnul s
    induction s with
    | nil => exact hnul
    | cons c s ih =>
        rw [List.dropWhile_cons]
        by_cases hc : p c = true
        · rw [if_pos hc]
          exact ih
        · rw [if_neg hc]
          exact Bool.eq_false_iff.mpr hc
  have hb : ∀ c ∈ m.takeWhile isSpace, isSpace c = true := fun c hc => List.mem_takeWhile_imp hc
  have hdigits : ∀ t : Bytes, ∃ d r, t = d ++ r ∧ (∀ c ∈ d, isDigit c = true) ∧
      isDigit (r.headD NUL) = false := fun t =>
    ⟨t.takeWhile isDigit, t.dropWhile isDigit, List.takeWhile_append_dropWhile.symm,
      fun c hc => List.mem_takeWhile_imp hc, hhead isDigit (by decide) t⟩
  have hsplit := (List.takeWhile_append_dropWhile (p := isSpace) (l := m)).symm
  have hs := hhead isSpace (by decide) m
  generalize m.dropWhile isSpace = s at hs hsplit
  -- the sign is the first character behind the space
  have hsign : ∃ sg t, s = sg ++ t ∧ (sg = [PLUS] ∨ sg = [DASH] ∨
      sg = [] ∧ t.headD NUL ≠ DASH ∧ t.headD NUL ≠ PLUS) := by
    by_cases hplain : s.headD NUL ≠ DASH ∧ s.headD NUL ≠ PLUS
    · exact ⟨[], s, rfl, .inr (.inr ⟨rfl, hplain⟩)⟩
    · cases s with
      | nil => exact absurd ⟨by decide, by decide⟩ hplain
      | cons c t =>
          rw [not_and_or, not_not, not_not] at hplain
          rcases hplain with rfl | rfl
          · exact ⟨[DASH], t, rfl, .inr (.inl rfl)⟩
          · exact ⟨[PLUS], t, rfl, .inl rfl⟩
  obtain ⟨sg, t, rfl, hsg⟩ := hsign
  obtain ⟨d, r, rfl, hd, hr⟩ := hdigits t
  exact ⟨_, sg, d, r, hsplit, hb, hs, hsg, hd, hr⟩

/-- Digits in front leave no place for space or for a sign. -/
private theorem head_digits (hne : d ≠ []) (hd : ∀ c ∈ d, isDigit c = true) (r : Bytes) :
    isSpace ((d ++ r).headD NUL) = false ∧ (d ++ r).headD NUL ≠ DASH ∧
      (d ++ r).headD NUL ≠ PLUS := by
  cases d with
  | nil => exact absurd rfl hne
  | cons c d =>
      have hc := plain_digit (hd c List.mem_cons_self)
      exact ⟨hc.1, hc.2.1, hc.2.2.1⟩

/-- Nothing that is read is a NUL. -/
private theorem cstr_parts (hb : ∀ c ∈ b, isSpace c = true)
    (hsg : sg = [] ∨ sg = [PLUS] ∨ sg = [DASH]) (hd : ∀ c ∈ d, isDigit c = true) (r : Bytes) :
    cstr (b ++ (sg ++ (d ++ r))) = b ++ (sg ++ (d ++ cstr r)) := by
  have hsign : NUL ∉ sg := by
    rcases hsg with rfl | rfl | rfl
    · exact List.not_mem_nil
    · decide
    · decide
  rw [cstr_append fun h => absurd (hb _ h) (by decide), cstr_append hsign,
    cstr_append fun h => absurd (hd _ h) (by decide)]

/-- **`strtonum` reads the number of 64 bits that the string in C starts with.** -/
theorem strtonum_eq_some_iff : strtonum m = some n ↔
    Numeral (cstr m) n ∧ (Integral.signed 63).Holds n := by
  constructor
  · intro h
    obtain ⟨b, sg, d, r, rfl, hb, hs, hsg, hd, hr⟩ := exists_parts m
    rw [strtonum_scan hb hs hsg hd hr] at h
    split_ifs at h with hbad
    simp only [not_or, not_and_or, not_not, Int.not_lt] at hbad
    obtain ⟨hne, hend, hlo, hhi⟩ := hbad
    obtain rfl := Option.some.inj h
    have hsign : sg = [] ∨ sg = [PLUS] ∨ sg = [DASH] := by
      rcases hsg with h | h | h
      · exact .inr (.inl h)
      · exact .inr (.inr h)
      · exact .inl h.1
    have hrange : (Integral.signed 63).Holds (signedValue sg d) := ⟨hlo, by
      rw [INT64_MAX] at hhi
      omega⟩
    refine ⟨⟨b, sg ++ d, cstr r, ?_, hb, ⟨sg, d, rfl, hsign, hne, hd, rfl⟩, ?_⟩, hrange⟩
    · rw [cstr_parts hb hsign hd, List.append_assoc]
    · cases r with
      | nil => exact .inl rfl
      | cons c r =>
          rcases hend with rfl | rfl
          · exact .inr ⟨cstr r, cstr_cons (by decide) r⟩
          · exact .inl (cstr_nul r)
  · rintro ⟨⟨b, text, rest, htext, hb, ⟨sg, d, rfl, hsign, hne, hd, rfl⟩, hrest⟩, hlo, hhi⟩
    -- behind the fraction there is the end or a NUL
    have hm : ∃ r, m = b ++ (sg ++ (d ++ r)) ∧ (r.headD NUL = DOT ∨ r.headD NUL = NUL) := by
      have hjoin : ∀ z, cstr m ++ z = b ++ (sg ++ (d ++ (rest ++ z))) := fun z => by
        rw [htext]
        simp only [List.append_assoc]
      rcases cstr_split m with hm | ⟨z, hm⟩
      · refine ⟨rest, ?_, ?_⟩
        · rw [hm, ← List.append_nil (cstr m), hjoin, List.append_nil]
        · rcases hrest with rfl | ⟨f, rfl⟩
          · exact .inr rfl
          · exact .inl rfl
      · refine ⟨rest ++ NUL :: z, hm.trans (hjoin _), ?_⟩
        rcases hrest with rfl | ⟨f, rfl⟩
        · exact .inr rfl
        · exact .inl rfl
    obtain ⟨r, rfl, hend⟩ := hm
    have hhead := head_digits hne hd r
    have hr : isDigit (r.headD NUL) = false := by
      rcases hend with hend | hend
      · rw [hend]
        rfl
      · rw [hend]
        rfl
    have hs : isSpace ((sg ++ (d ++ r)).headD NUL) = false := by
      rcases hsign with rfl | rfl | rfl
      · exact hhead.1
      · rfl
      · rfl
    have hsg : sg = [PLUS] ∨ sg = [DASH] ∨
        sg = [] ∧ (d ++ r).headD NUL ≠ DASH ∧ (d ++ r).headD NUL ≠ PLUS := by
      rcases hsign with h | h | h
      · exact .inr (.inr ⟨h, hhead.2⟩)
      · exact .inl h
      · exact .inr (.inl h)
    have hrange : ¬ (d = [] ∨ (r.headD NUL ≠ DOT ∧ r.headD NUL ≠ NUL) ∨
        signedValue sg d < INT64_MIN ∨ INT64_MAX < signedValue sg d) := by
      rw [INT64_MIN, INT64_MAX]
      rintro (h | ⟨hdot, hnul⟩ | h | h)
      · exact hne h
      · exact hend.elim hdot hnul
      · omega
      · omega
    rw [strtonum_scan hb hs hsg hd hr, if_neg hrange]

end

/-! ## What `to_number` gives -/

/-- **A text that starts with a number of the type, with or without a fraction behind it, is read as
the number, and one that starts with no number is refused.** -/
theorem toNumber_reads (T : Integral) (m : Bytes) (len : Nat) :
    Reads T (cstr m) (toNumber T ⟨some m, len⟩) := by
  constructor
  · intro n hnumeral hholds hwide
    have hread : strtonum m = some n := strtonum_eq_some_iff.mpr ⟨hnumeral, hwide⟩
    simp only [toNumber, hread, Integral.convert_eq hholds]
  · intro hnone
    have hread : strtonum m = none := by
      cases h : strtonum m with
      | none => rfl
      | some n =>
          obtain ⟨hnumeral, hwide⟩ := strtonum_eq_some_iff.mp h
          exact absurd hwide (hnone n hnumeral).2
    simp only [toNumber, hread]

private theorem dot_notMem_decimal {s : Bytes} {n : Int} (h : Decimal s n) : DOT ∉ s := by
  obtain ⟨sign, digits, rfl, hsign, -, hdigits, -⟩ := h
  rw [List.mem_append, not_or]
  refine ⟨?_, fun hmem => absurd (hdigits _ hmem) (by decide)⟩
  rcases hsign with rfl | rfl | rfl
  · exact List.not_mem_nil
  · decide
  · decide

/-- `-5689.1299999` is no integer, and is read as `-5689`. -/
theorem not_exact_fraction : ¬ Exact (.signed 63) (ofC (str "-5689.1299999")) := by
  intro h
  have hread : toNumber (.signed 63) (ofC (str "-5689.1299999")) = .ok (-5689) := by decide
  have hthrown := h.2 fun n hn => absurd (by decide) (dot_notMem_decimal hn)
  rw [hread] at hthrown
  nomatch hthrown

end Suil.Str
