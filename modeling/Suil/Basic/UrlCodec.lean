import Suil.Basic.Str

set_option autoImplicit false

/-! # URL encoding

`utils::urlencode` and `utils::urldecode` (`utils.cpp`). The one writes to memory of three bytes for
each byte of its input, the other to an array of 1024 bytes on the stack; neither looks at the end
of that memory. `none` is a write or a read outside of it. -/

namespace Suil.UrlCodec

/-- `*dst++ = c` in memory of `cap` bytes, of which the ones in `buf` are written. -/
def put (cap : Nat) (buf : Bytes) (c : UInt8) : Option Bytes :=
  if buf.length < cap then some (buf ++ [c]) else none

/-- `isalnum(c)` or one of `-_.~`; `strchr` finds the NUL, too. -/
def isPlain (c : UInt8) : Bool :=
  isDigit c || 65 ≤ c && c ≤ 90 || 97 ≤ c && c ≤ 122 || (str "-_.~").contains c || c = NUL

def hexchars : Bytes := str "0123456789ABCDEF"

/-- What is written for a byte. -/
def encoded (c : UInt8) : Bytes :=
  if !isPlain c then
    [PERCENT, hexchars.getD ((c &&& 0xF0) >>> 4).toNat 0, hexchars.getD (c &&& 0x0F).toNat 0]
  else [c]

/-- `utils::urlencode`; the size of a `String` has 32 bits. -/
def urlencode (s : Bytes) : Option Bytes := do
  let buf ← (s.flatMap encoded).foldlM (put (s.length * 3)) []
  let _ ← put (s.length * 3) buf NUL
  some (buf.take (buf.length % 2 ^ 32))

/-- `IS_HEX_CHAR`. -/
def isHexChar (c : UInt8) : Bool := isDigit c || 97 ≤ c && c ≤ 102 || 65 ≤ c && c ≤ 70

/-- `HEX_VALUE`. -/
def hexValue (c : UInt8) : UInt8 :=
  if isDigit c then c - 48 else if 97 ≤ c && c ≤ 102 then c - 97 + 10 else c - 65 + 10

/-- A byte that is not the start of a percent sequence. -/
def single (c : UInt8) : UInt8 := if c = PLUS then SP else c

/-- The loop of `__urldecode`. -/
def urldecodeLoop (cap : Nat) : Bytes → Bytes → Option Bytes
  | c :: h :: l :: rest, out =>
      if c = PERCENT ∧ isHexChar h ∧ isHexChar l then do
        let out ← put cap out (hexValue h <<< 4 ||| hexValue l)
        urldecodeLoop cap rest out
      else do
        let out ← put cap out (single c)
        urldecodeLoop cap (h :: l :: rest) out
  | c :: rest, out => do
      let out ← put cap out (single c)
      urldecodeLoop cap rest out
  | [], out => some out

/-- A `String`: the memory it points to, and its size. -/
structure Text where
  mem : Bytes
  size : Nat

/-- `String::dup`: `strndup` copies up to the first NUL, and the size stays. -/
def dup (s : Bytes) : Text :=
  if s.length = 0 then ⟨[], 0⟩ else ⟨s.takeWhile (· ≠ NUL) ++ [NUL], s.length⟩

/-- The bytes of a string, when all of them are in its memory. -/
def Text.read (t : Text) : Option Bytes :=
  if t.size ≤ t.mem.length then some (t.mem.take t.size) else none

/-- `(int) len`, when it is not negative; the loop ends at once when it is. -/
def srcLen (len : Nat) : Nat := if len % 2 ^ 32 < 2 ^ 31 then len % 2 ^ 32 else 0

/-- `utils::urldecode`. -/
def urldecode (s : Bytes) : Option Text := do
  let out ← urldecodeLoop 1024 (s.take (srcLen s.length)) []
  some (dup out)

/-! ## Round trips and the memory they stay in -/

/-- Both functions write to their own memory, and together they give the string back. -/
def RoundTrips (s : Bytes) : Prop :=
  ∃ e t, urlencode s = some e ∧ urldecode e = some t ∧ t.read = some s

instance (s : Bytes) : Decidable (RoundTrips s) :=
  decidable_of_iff (((urlencode s).bind urldecode).bind Text.read = some s) (by
    simp only [RoundTrips, Option.bind_eq_some_iff]
    exact ⟨fun ⟨t, ⟨e, he, ht⟩, hs⟩ => ⟨e, t, he, ht, hs⟩,
      fun ⟨e, t, he, ht, hs⟩ => ⟨t, ⟨e, he, ht⟩, hs⟩⟩)

/-- `urldecode` writes to its own memory. -/
def Stays (s : Bytes) : Prop := (urldecode s).isSome

/-- A percent sign with two hexadecimal digits behind it. -/
def isEscape : Bytes → Bool
  | c :: h :: l :: _ => c = PERCENT && isHexChar h && isHexChar l
  | _ => false

/-- How many percent sequences there are. -/
def escapes (s : Bytes) : Nat := s.tails.countP isEscape

/-! ## Writing -/

private theorem put_eq {cap : Nat} {buf : Bytes} (bs : Bytes) (h : buf.length ≤ cap) :
    bs.foldlM (put cap) buf =
      if buf.length + bs.length ≤ cap then some (buf ++ bs) else none := by
  induction bs generalizing buf with
  | nil =>
      rw [List.length_nil, Nat.add_zero, if_pos h, List.append_nil]
      rfl
  | cons c bs ih =>
      rw [List.foldlM_cons, put, List.length_cons]
      split_ifs with hlt hall hall
      · show (bs.foldlM (put cap) (buf ++ [c])) = _
        rw [ih (by rw [List.length_append, List.length_singleton]; omega), if_pos,
          List.append_assoc, List.singleton_append]
        rw [List.length_append, List.length_singleton]
        omega
      · show (bs.foldlM (put cap) (buf ++ [c])) = _
        rw [ih (by rw [List.length_append, List.length_singleton]; omega), if_neg]
        rw [List.length_append, List.length_singleton]
        omega
      · omega
      · rfl

/-! ## Encoding -/

theorem encoded_length (c : UInt8) :
    (encoded c).length = if isPlain c then 1 else 3 := by
  rw [encoded]
  cases isPlain c <;> rfl

theorem encode_length_le (s : Bytes) :
    s.length ≤ (s.flatMap encoded).length ∧ (s.flatMap encoded).length ≤ s.length * 3 := by
  induction s with
  | nil => exact ⟨Nat.le_refl 0, Nat.le_refl 0⟩
  | cons c s ih =>
      rw [List.flatMap_cons, List.length_append, List.length_cons, encoded_length]
      split_ifs <;> omega

private theorem encode_length_lt_iff (s : Bytes) :
    (s.flatMap encoded).length < s.length * 3 ↔ ∃ c ∈ s, isPlain c := by
  induction s with
  | nil => simp
  | cons c s ih =>
      have hle := (encode_length_le s).2
      rw [List.flatMap_cons, List.length_append, List.length_cons, encoded_length,
        List.exists_mem_cons_iff, ← ih]
      split_ifs with hc
      · exact iff_of_true (by omega) (.inl hc)
      · rw [or_iff_right hc]
        omega

/-- The terminator has a place when some byte is written as it is. -/
theorem urlencode_eq (s : Bytes) : urlencode s =
    if ∃ c ∈ s, isPlain c then
      some ((s.flatMap encoded).take ((s.flatMap encoded).length % 2 ^ 32))
    else none := by
  have hle := (encode_length_le s).2
  rw [urlencode, put_eq _ (Nat.zero_le _), List.length_nil, Nat.zero_add, if_pos hle,
    List.nil_append]
  show (put _ _ _ >>= _) = _
  rw [put]
  by_cases h : ∃ c ∈ s, isPlain c
  · rw [if_pos ((encode_length_lt_iff s).mpr h), if_pos h]
    rfl
  · rw [if_neg (mt (encode_length_lt_iff s).mp h), if_neg h]
    rfl

/-! ## Decoding -/

/-- What is written for the text. -/
def decoded : Bytes → Bytes
  | c :: h :: l :: rest =>
      if c = PERCENT ∧ isHexChar h ∧ isHexChar l then
        (hexValue h <<< 4 ||| hexValue l) :: decoded rest
      else single c :: decoded (h :: l :: rest)
  | c :: rest => single c :: decoded rest
  | [] => []

private theorem urldecodeLoop_eq (cap : Nat) (s out : Bytes) :
    urldecodeLoop cap s out = (decoded s).foldlM (put cap) out := by
  fun_induction decoded s generalizing out with
  | case1 c h l rest hesc ih =>
      rw [urldecodeLoop, if_pos hesc, List.foldlM_cons]
      exact bind_congr fun out => ih out
  | case2 c h l rest hesc ih =>
      rw [urldecodeLoop, if_neg hesc, List.foldlM_cons]
      exact bind_congr fun out => ih out
  | case3 c rest hshort ih =>
      rw [urldecodeLoop, List.foldlM_cons]
      · exact bind_congr fun out => ih out
      · exact hshort
  | case4 => rfl

theorem srcLen_of_lt {n : Nat} (h : n < 2 ^ 31) : srcLen n = n := by
  rw [srcLen, Nat.mod_eq_of_lt (by omega), if_pos h]

theorem urldecode_eq (s : Bytes) : urldecode s =
    if (decoded (s.take (srcLen s.length))).length ≤ 1024 then
      some (dup (decoded (s.take (srcLen s.length))))
    else none := by
  rw [urldecode, urldecodeLoop_eq, put_eq _ (Nat.zero_le _), List.length_nil, Nat.zero_add,
    List.nil_append]
  split_ifs <;> rfl

private theorem not_isEscape_hex {h : UInt8} (hh : isHexChar h) (rest : Bytes) :
    isEscape (h :: rest) = false := by
  have hne : h ≠ PERCENT := fun heq => absurd (heq ▸ hh) (by decide)
  cases rest with
  | nil => rfl
  | cons l rest =>
      cases rest with
      | nil => rfl
      | cons _ _ => rw [isEscape, decide_eq_false hne, Bool.false_and, Bool.false_and]

private theorem escapes_cons (c : UInt8) (s : Bytes) :
    escapes (c :: s) = escapes s + if isEscape (c :: s) then 1 else 0 := by
  rw [escapes, List.tails, List.countP_cons, escapes]

/-- Two bytes less for every percent sequence. -/
private theorem decoded_length (s : Bytes) :
    (decoded s).length + 2 * escapes s = s.length := by
  fun_induction decoded s with
  | case1 c h l rest hesc ih =>
      -- the digits of a percent sequence do not start another one
      rw [escapes_cons, escapes_cons, escapes_cons, not_isEscape_hex hesc.2.1,
        not_isEscape_hex hesc.2.2, isEscape, decide_eq_true hesc.1, hesc.2.1, hesc.2.2]
      simp only [List.length_cons, Bool.and_self, if_true, Bool.false_eq_true, if_false]
      omega
  | case2 c h l rest hesc ih =>
      have hnot : isEscape (c :: h :: l :: rest) = false := by
        rw [isEscape, Bool.eq_false_iff]
        intro heq
        simp only [Bool.and_eq_true, decide_eq_true_eq] at heq
        exact hesc ⟨heq.1.1, heq.1.2, heq.2⟩
      rw [escapes_cons, hnot, if_neg Bool.false_ne_true, List.length_cons, List.length_cons]
      omega
  | case3 c rest hshort ih =>
      have hnot : isEscape (c :: rest) = false := by
        unfold isEscape
        split
        · rename_i heq
          exact absurd (List.cons.inj heq).2 (hshort _ _ _)
        · rfl
      rw [escapes_cons, hnot, if_neg Bool.false_ne_true, List.length_cons, List.length_cons]
      omega
  | case4 => rfl

/-! ## The round trip -/

set_option maxRecDepth 8000 in
private theorem plain_spec (c : UInt8) (h : isPlain c) : c ≠ PERCENT ∧ c ≠ PLUS :=
  forall_byte (P := fun c => isPlain c → c ≠ PERCENT ∧ c ≠ PLUS) (by decide) c h

set_option maxRecDepth 8000 in
theorem digits_spec (c : UInt8) :
    isHexChar (hexchars.getD ((c &&& 0xF0) >>> 4).toNat 0) ∧
      isHexChar (hexchars.getD (c &&& 0x0F).toNat 0) ∧
      hexValue (hexchars.getD ((c &&& 0xF0) >>> 4).toNat 0) <<< 4 |||
        hexValue (hexchars.getD (c &&& 0x0F).toNat 0) = c :=
  forall_byte (P := fun c => isHexChar (hexchars.getD ((c &&& 0xF0) >>> 4).toNat 0) ∧
      isHexChar (hexchars.getD (c &&& 0x0F).toNat 0) ∧
      hexValue (hexchars.getD ((c &&& 0xF0) >>> 4).toNat 0) <<< 4 |||
        hexValue (hexchars.getD (c &&& 0x0F).toNat 0) = c) (by decide) c

theorem decoded_plain {c : UInt8} (h : c ≠ PERCENT) (rest : Bytes) :
    decoded (c :: rest) = single c :: decoded rest := by
  match rest with
  | [] => rfl
  | [_] => rfl
  | _ :: _ :: _ => rw [decoded, if_neg fun hesc => h hesc.1]

private theorem decoded_encoded (c : UInt8) (rest : Bytes) :
    decoded (encoded c ++ rest) = c :: decoded rest := by
  rw [encoded]
  cases hc : isPlain c with
  | true =>
      obtain ⟨hpercent, hplus⟩ := plain_spec c hc
      rw [if_neg (by simp), List.singleton_append, decoded_plain hpercent, single, if_neg hplus]
  | false =>
      obtain ⟨hhigh, hlow, hvalue⟩ := digits_spec c
      rw [if_pos (by simp), List.cons_append, List.cons_append, List.cons_append, List.nil_append,
        decoded, if_pos ⟨rfl, hhigh, hlow⟩, hvalue]

theorem decoded_encode (s : Bytes) : decoded (s.flatMap encoded) = s := by
  induction s with
  | nil => rfl
  | cons c s ih => rw [List.flatMap_cons, decoded_encoded, ih]

/-- The copy of a string is whole when a NUL is at its end only. -/
theorem dup_read_iff (s : Bytes) : (dup s).read = some s ↔ NUL ∉ s.dropLast := by
  rw [dup]
  split_ifs with hempty
  · rw [List.length_eq_zero_iff.mp hempty]
    exact iff_of_true rfl List.not_mem_nil
  · have hne : s ≠ [] := fun h => hempty (List.length_eq_zero_iff.mpr h)
    rw [Text.read, List.length_append, List.length_singleton]
    dsimp only
    constructor
    · intro h hmem
      split_ifs at h with hlen
      have hinit : s.dropLast <+: s.takeWhile (· ≠ NUL) := by
        apply List.prefix_of_prefix_length_le s.dropLast_prefix (List.takeWhile_prefix _)
        rw [List.length_dropLast]
        omega
      have hnot := List.mem_takeWhile_imp (hinit.mem hmem)
      exact of_decide_eq_true hnot rfl
    · intro h
      have hall : ∀ c ∈ s.dropLast, decide (c ≠ NUL) = true := fun c hc =>
        decide_eq_true fun heq => h (heq ▸ hc)
      have hlast : s.dropLast ++ [s.getLast hne] = s := List.dropLast_append_getLast hne
      generalize hx : s.getLast hne = x at hlast
      generalize s.dropLast = d at hall hlast
      rw [← hlast, List.takeWhile_append_of_pos hall]
      by_cases hzero : x = NUL
      · -- the terminator of the copy stands for the NUL
        rw [List.takeWhile_cons_of_neg (by simp [hzero]), List.append_nil, hzero, if_pos,
          List.take_of_length_le]
        · rw [List.length_append]
        · rw [List.length_append, List.length_singleton]
      · rw [List.takeWhile_cons_of_pos (by simp [hzero]), List.takeWhile_nil,
          if_pos (Nat.le_succ _), List.take_left]

theorem dup_read_length {s t : Bytes} (h : (dup s).read = some t) :
    t.length = s.length := by
  rw [Text.read] at h
  split_ifs at h with hle
  have hlen := congrArg List.length (Option.some.inj h)
  rw [List.length_take, Nat.min_eq_left hle] at hlen
  rw [← hlen, dup]
  split_ifs with hempty
  · exact hempty.symm
  · rfl

theorem urlRoundTrips_iff (s : Bytes) :
    RoundTrips s ↔ (∃ c ∈ s, isPlain c) ∧ s.length ≤ 1024 ∧ NUL ∉ s.dropLast := by
  have hencode := urlencode_eq s
  constructor
  · rintro ⟨e, t, he, ht, hs⟩
    rw [hencode] at he
    split_ifs at he with hplain
    rw [urldecode_eq] at ht
    split_ifs at ht with hfits
    rw [← Option.some.inj ht] at hs
    have hsize : s.length ≤ 1024 := dup_read_length hs ▸ hfits
    -- a text of that size is encoded in few bytes
    have hle := (encode_length_le s).2
    rw [Nat.mod_eq_of_lt (by omega), List.take_length] at he
    rw [← Option.some.inj he, srcLen_of_lt (by omega), List.take_length, decoded_encode] at hs
    exact ⟨hplain, hsize, (dup_read_iff s).mp hs⟩
  · rintro ⟨hplain, hsize, hnul⟩
    have hle := (encode_length_le s).2
    rw [if_pos hplain, Nat.mod_eq_of_lt (by omega), List.take_length] at hencode
    refine ⟨_, dup s, hencode, ?_, (dup_read_iff s).mpr hnul⟩
    rw [urldecode_eq, srcLen_of_lt (by omega), List.take_length, decoded_encode, if_pos hsize]

private theorem stays_iff (s : Bytes) : Stays s ↔
    (s.take (srcLen s.length)).length ≤ 1024 + 2 * escapes (s.take (srcLen s.length)) := by
  have hlen := decoded_length (s.take (srcLen s.length))
  rw [Stays, urldecode_eq]
  split_ifs with h
  · exact iff_of_true rfl (by omega)
  · exact iff_of_false Bool.false_ne_true (by omega)

/-- **When the codec gives a string back, and when decoding stays in its memory.** -/
theorem urlcodec_iff (s t : Bytes) :
    (RoundTrips s ↔ (∃ c ∈ s, isPlain c) ∧ s.length ≤ 1024 ∧ NUL ∉ s.dropLast) ∧
      (Stays t ↔ (t.take (srcLen t.length)).length ≤
        1024 + 2 * escapes (t.take (srcLen t.length))) :=
  ⟨urlRoundTrips_iff s, stays_iff t⟩

/-- The terminator of `%25` is written behind the memory for it. -/
theorem not_urlcodec : ¬ ∀ s t : Bytes, RoundTrips s ∧ Stays t := by
  intro h
  exact absurd (h (str "%") []).1 (by decide)

end Suil.UrlCodec
