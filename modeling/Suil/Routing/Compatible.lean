import Suil.Routing.Tags

set_option autoImplicit false

/-! # Comparing tags

`is_parameter_tag_compatible` (`common.h`) compares two tags digit by digit, to reject the handlers whose
arguments are not those of the pattern. Both of the digits that it compares are taken from the first tag.
`compares_iff` says for which tags, and for which handlers, the result is right. -/

namespace Suil.Routing

/-! ## Tags that are alike -/

/-- The digit of a kind, where a path is a string. -/
def argDigit (d : Nat) : Nat := if d = 5 then 4 else d

/-- The digits are as many, and the same at each position. -/
def Alike (a b : Nat) : Prop := (Nat.digits 6 a).map argDigit = (Nat.digits 6 b).map argDigit

instance (a b : Nat) : Decidable (Alike a b) := inferInstanceAs (Decidable (_ = _))

/-- The tags are compatible exactly when they are alike. -/
def Compares (a b : UInt64) : Prop :=
  isParameterTagCompatible a.toNat b.toNat = true ↔ Alike a.toNat b.toNat

/-- A handler whose arguments differ from the placeholders of the pattern is rejected. -/
def Rejects (s : Bytes) (hs : List ArgKind) : Prop :=
  ∀ ks a b, recognised (cstr s) = some ks → getParameterTagRuntime s = .ok a →
    computeParameterTag hs = some b → ks.map ParamType.arg ≠ hs → isParameterTagCompatible a b = false

/-! ## Tags and handlers that are told apart -/

/-- The digits of two tags are not as many. -/
def Apart (a b : Nat) : Prop := (Nat.digits 6 a).length ≠ (Nat.digits 6 b).length

/-- The handler has the arguments of the pattern, or does not compile, or the number of those with a tag
is not that of the digits that the tag of the pattern has in 64 bits. -/
def Told (s : Bytes) (hs : List ArgKind) : Prop :=
  ∀ ks, recognised (cstr s) = some ks → packedArgs hs < 2 ^ 31 → ks.map ParamType.arg ≠ hs →
    (Nat.digits 6 (packed ks % UINT64)).length ≠ (tagged hs).length

/-! ## The comparison -/

/-- **Only the numbers of the digits are compared.** -/
theorem compatible_iff_length (a b : Nat) :
    isParameterTagCompatible a b = true ↔ (Nat.digits 6 a).length = (Nat.digits 6 b).length := by
  induction a using Nat.strong_induction_on generalizing b with
  | h a ih =>
      rw [isParameterTagCompatible]
      by_cases ha : a = 0
      · rw [if_pos ha, ha, Nat.digits_zero, decide_eq_true_iff, List.length_nil, eq_comm (a := 0),
          List.length_eq_zero_iff, Nat.digits_eq_nil_iff_eq_zero]
      rw [if_neg ha]
      by_cases hb : b = 0
      · rw [if_pos hb, hb, Nat.digits_zero, decide_eq_true_iff, List.length_nil, List.length_eq_zero_iff,
          Nat.digits_eq_nil_iff_eq_zero]
      have ha' : Nat.digits 6 a = a % 6 :: Nat.digits 6 (a / 6) :=
        Nat.digits_def' (by decide) (Nat.pos_of_ne_zero ha)
      have hb' : Nat.digits 6 b = b % 6 :: Nat.digits 6 (b / 6) :=
        Nat.digits_def' (by decide) (Nat.pos_of_ne_zero hb)
      -- both digits are the one of `a`
      dsimp only
      rw [if_neg hb, if_neg (not_not.mpr rfl), ha', hb', List.length_cons, List.length_cons,
        Nat.add_right_cancel_iff]
      exact ih (a / 6) (Nat.div_lt_self (Nat.pos_of_ne_zero ha) (by decide)) (b / 6)

theorem length_of_alike {a b : Nat} (h : Alike a b) :
    (Nat.digits 6 a).length = (Nat.digits 6 b).length := by
  calc (Nat.digits 6 a).length
      = ((Nat.digits 6 a).map argDigit).length := (List.length_map argDigit).symm
    _ = ((Nat.digits 6 b).map argDigit).length := congrArg List.length h
    _ = (Nat.digits 6 b).length := List.length_map argDigit

private theorem compares_iff_apart (a b : UInt64) :
    Compares a b ↔ Apart a.toNat b.toNat ∨ Alike a.toNat b.toNat := by
  rw [Compares, compatible_iff_length, Apart]
  constructor
  · intro h
    by_cases hlen : (Nat.digits 6 a.toNat).length = (Nat.digits 6 b.toNat).length
    · exact .inr (h.mp hlen)
    · exact .inl hlen
  · rintro (hlen | halike)
    · exact iff_of_false hlen fun halike => hlen (length_of_alike halike)
    · exact iff_of_true (length_of_alike halike) halike

/-! ## Handlers -/

/-- The digits of the tag of a handler are its arguments with a tag. -/
theorem length_digits_packedArgs (hs : List ArgKind) :
    (Nat.digits 6 (packedArgs hs)).length = (tagged hs).length := by
  have hdigits : Nat.digits 6 (packedArgs hs) = (tagged hs).map ArgKind.tag := by
    apply Nat.digits_ofDigits 6 (by decide)
    · intro d hd
      obtain ⟨h, hh, rfl⟩ := List.mem_map.mp hd
      exact Nat.lt_succ_of_lt (argTag_range hh).2
    · intro hne
      obtain ⟨h, hh, heq⟩ := List.mem_map.mp (List.getLast_mem hne)
      rw [← heq]
      exact Nat.ne_of_gt (argTag_range hh).1
  rw [hdigits, List.length_map]

private theorem rejects_iff_told (s : Bytes) (hs : List ArgKind) : Rejects s hs ↔ Told s hs := by
  have htag : ∀ ks, recognised (cstr s) = some ks →
      getParameterTagRuntime s = .ok (packed ks % UINT64) := by
    intro ks hks
    exact tag_ok runtimeScanner_views hks (Nat.lt_succ_of_le (List.takeWhile_prefix _).length_le)
  have hfalse : ∀ a, isParameterTagCompatible a (packedArgs hs) = false ↔
      (Nat.digits 6 a).length ≠ (tagged hs).length := by
    intro a
    rw [← Bool.not_eq_true, compatible_iff_length, length_digits_packedArgs]
  constructor
  · intro h ks hks hint hne
    have hb : computeParameterTag hs = some (packedArgs hs) := by
      rw [computeParameterTag_eq, if_pos hint]
    exact (hfalse _).mp (h ks _ _ hks (htag ks hks) hb hne)
  · intro h ks a b hks ha hb hne
    obtain rfl := Except.ok.inj ((htag ks hks).symm.trans ha)
    rw [computeParameterTag_eq] at hb
    split_ifs at hb with hint
    obtain rfl := Option.some.inj hb
    exact (hfalse _).mpr (h ks hks hint hne)

/-- **Two tags are compared as they should be exactly when their digits are not as many or alike, and a
handler with other arguments is rejected exactly when their number is another one.** -/
theorem compares_iff (a b : UInt64) (s : Bytes) (hs : List ArgKind) :
    (Compares a b ↔ Apart a.toNat b.toNat ∨ Alike a.toNat b.toNat) ∧ (Rejects s hs ↔ Told s hs) :=
  ⟨compares_iff_apart a b, rejects_iff_told s hs⟩

/-- The tags of an `int` and of a `uint` are compatible. -/
theorem not_compares_int_uint : ¬ ∀ (a b : UInt64) (s : Bytes) (hs : List ArgKind),
    Compares a b ∧ Rejects s hs := by
  intro h
  have hcompares := (h 1 2 [] []).1
  have hcompatible : isParameterTagCompatible 1 2 = true :=
    (compatible_iff_length 1 2).mpr (by decide)
  exact absurd (hcompares.mp hcompatible) (by decide)

end Suil.Routing
