import Suil.Basic.CString
import Suil.Basic.Exception

set_option autoImplicit false

/-! # Characters in UTF-8

The Unicode helper functions of `json.cpp`. A text is read up to its NUL, and code points and the
halves of surrogate pairs are `Nat`. `validate_encodeChar` says that a character of Unicode is
valid in its encoding. -/

namespace Suil

/-- `s[i]`. -/
def charAt (s : Bytes) (i : Nat) : UInt8 := s.getD i NUL

/-- The byte is not in the range `0x80..0xBF`. -/
def notTail (c : UInt8) : Bool := c &&& 0xC0 ≠ 0x80

/-- The length of the character that the text starts with, or 0. -/
def utf8_validate_cz (s : Bytes) : Nat :=
  let c := charAt s 0
  if c ≤ 0x7F then 1
  else if c ≤ 0xC1 then 0
  else if c ≤ 0xDF then
    if notTail (charAt s 1) then 0 else 2
  else if c ≤ 0xEF then
    if c = 0xE0 ∧ charAt s 1 < 0xA0 then 0
    else if c = 0xED ∧ charAt s 1 > 0x9F then 0
    else if notTail (charAt s 1) then 0
    else if notTail (charAt s 2) then 0
    else 3
  else if c ≤ 0xF4 then
    if c = 0xF0 ∧ charAt s 1 < 0x90 then 0
    else if c = 0xF4 ∧ charAt s 1 > 0x8F then 0
    else if notTail (charAt s 1) then 0
    else if notTail (charAt s 2) then 0
    else if notTail (charAt s 3) then 0
    else 4
  else 0

/-- The loop of `utf8_validate`, with a bound on the number of characters. -/
def validateLoop : Nat → Bytes → Bool
  | 0, _ => true
  | n + 1, s =>
      if charAt s 0 = NUL then true
      else
        let len := utf8_validate_cz s
        if len = 0 then false else validateLoop n (s.drop len)

def utf8_validate (s : Bytes) : Bool := validateLoop s.length s

/-- The length of the first character and its code point. -/
def utf8_read_char (s : Bytes) : Except Exception (Nat × Nat) :=
  let c (i : Nat) : Nat := (charAt s i).toNat
  if utf8_validate_cz s = 0 then
    .error (.create 0 [str "string '", s, str "' is not a valid utf8 string"])
  else if c 0 ≤ 0x7F then .ok (1, c 0)
  else if c 0 ≤ 0xDF then .ok (2, (c 0 &&& 0x1F) <<< 6 ||| (c 1 &&& 0x3F))
  else if c 0 ≤ 0xEF then
    .ok (3, (c 0 &&& 0xF) <<< 12 ||| (c 1 &&& 0x3F) <<< 6 ||| (c 2 &&& 0x3F))
  else
    .ok (4, (c 0 &&& 0x7) <<< 18 ||| (c 1 &&& 0x3F) <<< 12 ||| (c 2 &&& 0x3F) <<< 6 |||
      (c 3 &&& 0x3F))

def utf8_write_char (unicode : Nat) : Except Exception Bytes :=
  let o (n : Nat) : UInt8 := UInt8.ofNat n
  if ¬ (unicode ≤ 0x10FFFF ∧ ¬ (unicode ≥ 0xD800 ∧ unicode ≤ 0xDFFF)) then
    .error (.create 0 [str "'", showNat unicode, str "' is not a valid unicode character"])
  else if unicode ≤ 0x7F then .ok [o unicode]
  else if unicode ≤ 0x7FF then
    .ok [o (0xC0 ||| unicode >>> 6), o (0x80 ||| (unicode &&& 0x3F))]
  else if unicode ≤ 0xFFFF then
    .ok [o (0xE0 ||| unicode >>> 12), o (0x80 ||| (unicode >>> 6 &&& 0x3F)),
      o (0x80 ||| (unicode &&& 0x3F))]
  else
    .ok [o (0xF0 ||| unicode >>> 18), o (0x80 ||| (unicode >>> 12 &&& 0x3F)),
      o (0x80 ||| (unicode >>> 6 &&& 0x3F)), o (0x80 ||| (unicode &&& 0x3F))]

/-- The code point of a surrogate pair. -/
def from_surrogate_pair (uc lc : Nat) : Option Nat :=
  if uc ≥ 0xD800 ∧ uc ≤ 0xDBFF ∧ lc ≥ 0xDC00 ∧ lc ≤ 0xDFFF then
    some (0x10000 + ((uc &&& 0x3FF) <<< 10 ||| (lc &&& 0x3FF)))
  else none

/-- The surrogate pair of a code point. -/
def to_surrogate_pair (unicode : Nat) : Except Exception (Nat × Nat) :=
  if ¬ (unicode ≥ 0x10000 ∧ unicode ≤ 0x10FFFF) then
    .error (.create 0 [str "'", showNat unicode, str "' is not a valid unicode character"])
  else
    let n := unicode - 0x10000
    .ok ((n >>> 10 &&& 0x3FF) ||| 0xD800, (n &&& 0x3FF) ||| 0xDC00)

/-! ## Valid characters -/

private theorem tail_byte (n : Nat) : notTail (UInt8.ofNat (n % 64 + 0x80)) = false := by
  have h : ∀ m : Fin 64, notTail (UInt8.ofNat (m.val + 0x80)) = false := by decide
  exact h ⟨n % 64, Nat.mod_lt n (by decide)⟩

private theorem toNat_byte {n : Nat} (h : n < 256) : (UInt8.ofNat n).toNat = n := by
  rw [UInt8.toNat_ofNat']
  exact Nat.mod_eq_of_lt h

private theorem not_le_byte {a k : UInt8} (h : k.toNat < a.toNat) : ¬ a ≤ k :=
  fun hle => absurd (UInt8.le_iff_toNat_le.mp hle) (Nat.not_le.mpr h)

private theorem validate_one {a : UInt8} {rest : Bytes} (h : a.toNat ≤ 0x7F) :
    utf8_validate_cz (a :: rest) = 1 := if_pos h

private theorem validate_two {a b : UInt8} {rest : Bytes} (ha : 0xC2 ≤ a.toNat)
    (ha' : a.toNat ≤ 0xDF) (hb : notTail b = false) : utf8_validate_cz (a :: b :: rest) = 2 := by
  have h₁ : ¬ a ≤ 0x7F := not_le_byte (Nat.lt_of_lt_of_le (by decide) ha)
  have h₂ : ¬ a ≤ 0xC1 := not_le_byte (Nat.lt_of_lt_of_le (by decide) ha)
  have h₃ : a ≤ 0xDF := UInt8.le_iff_toNat_le.mpr ha'
  simp [utf8_validate_cz, charAt, h₁, h₂, h₃, hb]

private theorem validate_three {a b c : UInt8} {rest : Bytes} (ha : 0xE0 ≤ a.toNat)
    (ha' : a.toNat ≤ 0xEF) (hlow : a.toNat = 0xE0 → 0xA0 ≤ b.toNat)
    (hhigh : a.toNat = 0xED → b.toNat ≤ 0x9F) (hb : notTail b = false) (hc : notTail c = false) :
    utf8_validate_cz (a :: b :: c :: rest) = 3 := by
  have h₁ : ¬ a ≤ 0x7F := not_le_byte (Nat.lt_of_lt_of_le (by decide) ha)
  have h₂ : ¬ a ≤ 0xC1 := not_le_byte (Nat.lt_of_lt_of_le (by decide) ha)
  have h₃ : ¬ a ≤ 0xDF := not_le_byte (Nat.lt_of_lt_of_le (by decide) ha)
  have h₄ : a ≤ 0xEF := UInt8.le_iff_toNat_le.mpr ha'
  have h₅ : ¬ (a = 0xE0 ∧ b < 0xA0) := by
    rintro ⟨rfl, hlt⟩
    exact absurd (UInt8.lt_iff_toNat_lt.mp hlt) (Nat.not_lt.mpr (hlow rfl))
  have h₆ : ¬ (a = 0xED ∧ b > 0x9F) := by
    rintro ⟨rfl, hlt⟩
    exact absurd (UInt8.lt_iff_toNat_lt.mp hlt) (Nat.not_lt.mpr (hhigh rfl))
  rw [utf8_validate_cz]
  simp only [charAt, List.getD_cons_zero, List.getD_cons_succ, h₁, h₂, h₃, h₄, h₅, h₆, hb, hc,
    if_false, if_true, Bool.false_eq_true]

private theorem validate_four {a b c d : UInt8} {rest : Bytes} (ha : 0xF0 ≤ a.toNat)
    (ha' : a.toNat ≤ 0xF4) (hlow : a.toNat = 0xF0 → 0x90 ≤ b.toNat)
    (hhigh : a.toNat = 0xF4 → b.toNat ≤ 0x8F) (hb : notTail b = false) (hc : notTail c = false)
    (hd : notTail d = false) : utf8_validate_cz (a :: b :: c :: d :: rest) = 4 := by
  have h₁ : ¬ a ≤ 0x7F := not_le_byte (Nat.lt_of_lt_of_le (by decide) ha)
  have h₂ : ¬ a ≤ 0xC1 := not_le_byte (Nat.lt_of_lt_of_le (by decide) ha)
  have h₃ : ¬ a ≤ 0xDF := not_le_byte (Nat.lt_of_lt_of_le (by decide) ha)
  have h₄ : ¬ a ≤ 0xEF := not_le_byte (Nat.lt_of_lt_of_le (by decide) ha)
  have h₅ : a ≤ 0xF4 := UInt8.le_iff_toNat_le.mpr ha'
  have h₆ : ¬ (a = 0xF0 ∧ b < 0x90) := by
    rintro ⟨rfl, hlt⟩
    exact absurd (UInt8.lt_iff_toNat_lt.mp hlt) (Nat.not_lt.mpr (hlow rfl))
  have h₇ : ¬ (a = 0xF4 ∧ b > 0x8F) := by
    rintro ⟨rfl, hlt⟩
    exact absurd (UInt8.lt_iff_toNat_lt.mp hlt) (Nat.not_lt.mpr (hhigh rfl))
  rw [utf8_validate_cz]
  simp only [charAt, List.getD_cons_zero, List.getD_cons_succ, h₁, h₂, h₃, h₄, h₅, h₆, h₇, hb, hc,
    hd, if_false, if_true, Bool.false_eq_true]

/-- What the code says about a character is what RFC 3629 says. -/
theorem validate_encodeChar (c : Char) (rest : Bytes) :
    utf8_validate_cz (String.utf8EncodeChar c ++ rest) = (String.utf8EncodeChar c).length := by
  have hvalid : c.val.toNat < 0xD800 ∨ 0xDFFF < c.val.toNat ∧ c.val.toNat < 0x110000 := c.valid
  unfold String.utf8EncodeChar
  generalize c.val.toNat = v at hvalid
  dsimp only
  split
  · apply validate_one
    rw [toNat_byte (by omega)]
    assumption
  · split
    · apply validate_two
      · rw [toNat_byte (by omega)]
        omega
      · rw [toNat_byte (by omega)]
        omega
      · exact tail_byte v
    · split
      · apply validate_three
        · rw [toNat_byte (by omega)]
          omega
        · rw [toNat_byte (by omega)]
          omega
        · rw [toNat_byte (by omega), toNat_byte (by omega)]
          omega
        · -- this is where the surrogates would be
          rw [toNat_byte (by omega), toNat_byte (by omega)]
          omega
        · exact tail_byte (v / 64)
        · exact tail_byte v
      · apply validate_four
        · rw [toNat_byte (by omega)]
          omega
        · rw [toNat_byte (by omega)]
          omega
        · rw [toNat_byte (by omega), toNat_byte (by omega)]
          omega
        · rw [toNat_byte (by omega), toNat_byte (by omega)]
          omega
        · exact tail_byte (v / 4096)
        · exact tail_byte (v / 64)
        · exact tail_byte v

/-- A character is an ASCII character, or all of its bytes are above. -/
theorem encodeChar_cases (c : Char) : (∃ a : UInt8, a ≤ 0x7F ∧ String.utf8EncodeChar c = [a]) ∨
    ∃ a w, String.utf8EncodeChar c = a :: w ∧ ∀ b ∈ a :: w, 0x80 ≤ b := by
  have hvalid : c.val.toNat < 0xD800 ∨ 0xDFFF < c.val.toNat ∧ c.val.toNat < 0x110000 := c.valid
  have high : ∀ {n : Nat}, n < 128 → (0x80 : UInt8) ≤ UInt8.ofNat (n + 0x80) := by
    intro n hn
    rw [UInt8.le_iff_toNat_le, toNat_byte (by omega)]
    exact Nat.le_add_left _ _
  unfold String.utf8EncodeChar
  generalize c.val.toNat = v at hvalid
  dsimp only
  split
  · refine .inl ⟨_, ?_, rfl⟩
    rw [UInt8.le_iff_toNat_le, toNat_byte (by omega)]
    assumption
  · right
    split
    · refine ⟨_, _, rfl, ?_⟩
      simp only [List.forall_mem_cons, List.not_mem_nil, false_implies, implies_true, and_true]
      exact ⟨high (n := v / 64 % 32 + 64) (by omega), high (by omega)⟩
    · split
      · refine ⟨_, _, rfl, ?_⟩
        simp only [List.forall_mem_cons, List.not_mem_nil, false_implies, implies_true, and_true]
        exact ⟨high (n := v / 4096 % 16 + 96) (by omega), high (by omega), high (by omega)⟩
      · refine ⟨_, _, rfl, ?_⟩
        simp only [List.forall_mem_cons, List.not_mem_nil, false_implies, implies_true, and_true]
        exact ⟨high (n := v / 262144 % 8 + 112) (by omega), high (by omega), high (by omega),
          high (by omega)⟩

/-- Only one character starts with a NUL. -/
theorem encodeChar_head {c : Char} (h : c ≠ Char.ofNat 0) (rest : Bytes) :
    charAt (String.utf8EncodeChar c ++ rest) 0 ≠ NUL := by
  rcases encodeChar_cases c with ⟨a, ha, hc⟩ | ⟨a, w, hc, hw⟩
  · rw [hc]
    rintro rfl
    apply h
    unfold String.utf8EncodeChar at hc
    dsimp only at hc
    split at hc
    · have hv := congrArg UInt8.toNat (List.cons.inj hc).1
      rw [toNat_byte (by omega)] at hv
      exact Char.ext (UInt32.toNat_inj.mp hv)
    · have hlen := congrArg List.length hc
      split at hlen
      · nomatch hlen
      · split at hlen <;> nomatch hlen
  · rw [hc]
    rintro rfl
    exact absurd (hw _ List.mem_cons_self) (by decide)

/-- A string of valid UTF-8 without NUL characters. -/
def Utf8 (s : Bytes) : Prop :=
  ∃ cs : List Char, Char.ofNat 0 ∉ cs ∧ s = cs.flatMap String.utf8EncodeChar

end Suil
