import Suil.Basic.JsonScan
import Suil.Basic.Utf8

set_option autoImplicit false

/-! # Strings in the JSON texts of records

A `String` in a record is encoded as its bytes in quotes (`json.h`), and `fill<suil::String>` copies
what is between two quotes. Neither of them knows of escapes. `transports_iff` says which values are
carried by a text of JSON. -/

namespace Suil.BlobJson

open Json (BACKSLASH hexValue unescape)

/-! ## Strings of JSON -/

/-- A byte that can be in a string as it is. -/
def Unescaped (b : UInt8) : Prop := 0x20 ≤ b ∧ b ≠ DQUOTE ∧ b ≠ BACKSLASH

/-- The number of four hexadecimal digits. -/
def hex4 (a b c d : UInt8) : Option Nat := do
  let a ← hexValue a
  let b ← hexValue b
  let c ← hexValue c
  let d ← hexValue d
  some (((a * 16 + b) * 16 + c) * 16 + d)

/-- The characters between the quotes and the value that they denote: a character that stands for itself,
one of the short escapes, the number of a character, or the numbers of a surrogate pair. -/
inductive Denotes : Bytes → Bytes → Prop where
  | nil : Denotes [] []
  | plain (n : Char) {s v : Bytes} (hn : ∀ b ∈ String.utf8EncodeChar n, Unescaped b)
      (h : Denotes s v) : Denotes (String.utf8EncodeChar n ++ s) (String.utf8EncodeChar n ++ v)
  | escape {c b : UInt8} {s v : Bytes} (hc : unescape c = some b) (h : Denotes s v) :
      Denotes (BACKSLASH :: c :: s) (b :: v)
  | unicode {a b c d : UInt8} (n : Char) {s v : Bytes} (hn : hex4 a b c d = some n.toNat)
      (h : Denotes s v) :
      Denotes (BACKSLASH :: 117 :: a :: b :: c :: d :: s) (String.utf8EncodeChar n ++ v)
  | pair {a b c d a' b' c' d' : UInt8} {hi lo : Nat} (n : Char) {s v : Bytes}
      (hhi : hex4 a b c d = some hi) (hlo : hex4 a' b' c' d' = some lo)
      (hn : from_surrogate_pair hi lo = some n.toNat) (h : Denotes s v) :
      Denotes (BACKSLASH :: 117 :: a :: b :: c :: d ::
        BACKSLASH :: 117 :: a' :: b' :: c' :: d' :: s) (String.utf8EncodeChar n ++ v)

/-- One string of JSON with this value. -/
def IsToken (token value : Bytes) : Prop :=
  ∃ chars, token = DQUOTE :: (chars ++ [DQUOTE]) ∧ Denotes chars value

/-! ## Texts that a string is transported in -/

/-- The encoding is a string of JSON with the value, and wherever it stands in a text it is decoded to the
value and the parser is left behind it. -/
def Transports (value : Bytes) : Prop :=
  ∃ token, encode value = .ok token ∧ IsToken token value ∧
    ∀ before after : Bytes, (before ++ (token ++ after)).length < 2 ^ 31 →
      ∃ s : Str, s.bytes = value ∧
        Parser.readString ⟨before ++ (token ++ after), before.length⟩ =
          some (.ok (s, ⟨before ++ (token ++ after), before.length + token.length⟩))

/-- The value is short enough, in UTF-8, and needs no escape. -/
def NeedsNoEscape (value : Bytes) : Prop :=
  value.length < 2 ^ 31 ∧ Utf8 value ∧ ∀ b ∈ value, Unescaped b

/-! ## The encoding -/

theorem nul_escaped : ¬ Unescaped NUL := fun h => absurd h.1 (by decide)

theorem utf8EncodeChar_length_le (n : Char) : (String.utf8EncodeChar n).length ≤ 4 := by
  rw [String.length_utf8EncodeChar]
  exact Char.utf8Size_le_four n

/-- **No text is shorter than its value, and only a value that needs no escape is as long as its
text.** -/
theorem length_of_denotes {s v : Bytes} (h : Denotes s v) : v.length ≤ s.length ∧
    (v.length = s.length → Utf8 v ∧ ∀ b ∈ v, Unescaped b) := by
  induction h with
  | nil => exact ⟨Nat.le_refl 0, fun _ => ⟨⟨[], List.not_mem_nil, rfl⟩, nofun⟩⟩
  | plain n hn _ ih =>
      obtain ⟨hle, hsame⟩ := ih
      rw [List.length_append, List.length_append]
      refine ⟨Nat.add_le_add_left hle _, fun hlen => ?_⟩
      obtain ⟨⟨cs, hnul, hcs⟩, hall⟩ := hsame (Nat.add_left_cancel hlen)
      refine ⟨⟨n :: cs, List.not_mem_cons_of_ne_of_not_mem ?_ hnul, ?_⟩, ?_⟩
      · rintro rfl
        exact nul_escaped (hn NUL (by decide))
      · rw [List.flatMap_cons, ← hcs]
      · exact List.forall_mem_append.mpr ⟨hn, hall⟩
  | escape hc _ ih =>
      simp only [List.length_cons]
      exact ⟨by omega, fun hlen => by omega⟩
  | unicode n hn _ ih =>
      have hshort := utf8EncodeChar_length_le n
      simp only [List.length_cons, List.length_append]
      exact ⟨by omega, fun hlen => by omega⟩
  | pair n hhi hlo hn _ ih =>
      have hshort := utf8EncodeChar_length_le n
      simp only [List.length_cons, List.length_append]
      exact ⟨by omega, fun hlen => by omega⟩

/-- **The bytes of a value denote the value exactly when it needs no escape.** -/
theorem denotes_self_iff (value : Bytes) :
    Denotes value value ↔ Utf8 value ∧ ∀ b ∈ value, Unescaped b := by
  constructor
  · exact fun h => (length_of_denotes h).2 rfl
  · rintro ⟨⟨cs, -, rfl⟩, hall⟩
    induction cs with
    | nil => exact .nil
    | cons n cs ih =>
        rw [List.flatMap_cons, List.forall_mem_append] at hall
        exact .plain n hall.1 (ih hall.2)

theorem isToken_quoted_iff (chars value : Bytes) :
    IsToken (DQUOTE :: (chars ++ [DQUOTE])) value ↔ Denotes chars value := by
  constructor
  · rintro ⟨chars', heq, h⟩
    rw [List.append_cancel_right (List.cons.inj heq).2]
    exact h
  · exact fun h => ⟨chars, rfl, h⟩

/-! ## The decoding -/

theorem units_of_unescaped {s : Bytes} (h : ∀ b ∈ s, Unescaped b) : Units s := by
  induction s with
  | nil => exact .nil
  | cons b s ih =>
      rw [List.forall_mem_cons] at h
      exact .plain h.1.2.1 h.1.2.2 (ih h.2)

/-- **A text between quotes is copied up to the quote that closes it.** -/
theorem readString_quoted {chars : Bytes} (hunits : Units chars) (hnul : NUL ∉ chars)
    (hlt : chars.length < OBuffer.UINT32) (before after : Bytes) :
    let text := before ++ (DQUOTE :: (chars ++ [DQUOTE]) ++ after)
    ∃ s : Str, s.bytes = chars ∧ Parser.readString ⟨text, before.length⟩ =
      some (.ok (s, ⟨text, before.length + (DQUOTE :: (chars ++ [DQUOTE])).length⟩)) := by
  intro text
  have hpeek : text[before.length]? = some DQUOTE := by
    rw [List.getElem?_append_right (Nat.le_refl _), Nat.sub_self]
    rfl
  have hpos : before.length < text.length := (List.getElem?_eq_some_iff.mp hpeek).1
  have hdrop : text.drop (before.length + 1) = chars ++ DQUOTE :: after := by
    rw [← List.drop_drop, List.drop_left]
    simp
  have hlength : Parser.textLength ⟨text, before.length + 1⟩ = .ok chars.length := by
    have hquote := quoteAt_eq_some_iff.mpr ⟨chars, after, hunits, rfl, rfl⟩
    have hne : chars ++ DQUOTE :: after ≠ [] := List.append_ne_nil_of_right_ne_nil _ nofun
    rw [Parser.textLength]
    dsimp only
    rw [hdrop, if_neg hne, hquote]
  obtain ⟨hlen, hmem⟩ := dup_text (DQUOTE :: after) hnul (Nat.le_refl chars.length)
  refine ⟨Str.dup ⟨some (chars ++ DQUOTE :: after), chars.length⟩, ?_, ?_⟩
  · rw [Str.bytes, hlen, hmem, List.take_take, Nat.min_self, List.take_length]
  · have hpast : before.length + 1 + chars.length + 1 =
        before.length + (DQUOTE :: (chars ++ [DQUOTE])).length := by
      rw [List.length_cons, List.length_append, List.length_singleton]
      omega
    rw [readString_eq (p := ⟨text, before.length⟩) hpos,
      fillString_of_quote (p := ⟨text, before.length⟩) hpeek]
    dsimp only
    rw [hlength, hdrop, Except.map, Nat.mod_eq_of_lt hlt, hpast]

/-- **A value is carried by the text of a record exactly when it has fewer than 2^31 bytes, is UTF-8 and
has no quote, no backslash and no control character in it.** -/
theorem transports_iff (value : Bytes) : Transports value ↔ NeedsNoEscape value := by
  constructor
  · rintro ⟨token, hencode, htoken, -⟩
    rw [encode] at hencode
    split_ifs at hencode with hlong
    cases hencode
    have hplain := (denotes_self_iff value).mp ((isToken_quoted_iff value value).mp htoken)
    exact ⟨Nat.lt_of_not_le hlong, hplain⟩
  · rintro ⟨hlt, hplain⟩
    refine ⟨DQUOTE :: (value ++ [DQUOTE]), if_neg (Nat.not_le_of_lt hlt), ?_, fun before after _ => ?_⟩
    · exact (isToken_quoted_iff value value).mpr ((denotes_self_iff value).mpr hplain)
    · exact readString_quoted (units_of_unescaped hplain.2) (fun h => nul_escaped (hplain.2 _ h))
        (Nat.lt_trans hlt (by decide)) before after

/-- A single quote. -/
theorem not_transports_quote : ¬ ∀ value, Transports value := by
  intro h
  obtain ⟨token, hencode, -, hread⟩ := h [DQUOTE]
  have htoken : encode [DQUOTE] = .ok [DQUOTE, DQUOTE, DQUOTE] := rfl
  rw [htoken] at hencode
  cases hencode
  obtain ⟨s, hs, hback⟩ := hread [] [] (by decide)
  -- the quote of the value is taken for the one behind it
  have hempty : Parser.readString ⟨[DQUOTE, DQUOTE, DQUOTE], 0⟩ =
      some (.ok (Str.null, ⟨[DQUOTE, DQUOTE, DQUOTE], 2⟩)) := rfl
  have hsame := Except.ok.inj (Option.some.inj (hempty.symm.trans hback))
  have hnull : Str.null = s := congrArg Prod.fst hsame
  rw [← hnull] at hs
  nomatch hs

end Suil.BlobJson
