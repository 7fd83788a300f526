import Suil.Basic.OBuffer

set_option autoImplicit false

/-! # Base64

`utils::base64` (`base64.cpp`). Both directions compute how much memory they need, write through
a pointer and set the length of the buffer at the end with a seek that must stay below its size.
`decode_encode_iff` says for which lengths all of these agree. -/

namespace Suil.Base64

open OBuffer

/-! ## Encoding -/

def b64table : Bytes := str "ABCDEFGHIJKLMNOPQRSTUVWXYZabcdefghijklmnopqrstuvwxyz0123456789+/"

/-- `b64table[i]`. -/
def letter (i : UInt8) : UInt8 := b64table.getD i.toNat 0

/-- The six bits of the first letter, which are in one byte. -/
def first (a : UInt8) : UInt8 := (a &&& 0xFC) >>> 2

def second (a b : UInt8) : UInt8 := ((a &&& 0x03) <<< 4) ||| ((b &&& 0xF0) >>> 4)

def third (b c : UInt8) : UInt8 := ((b &&& 0x0F) <<< 2) ||| ((c &&& 0xC0) >>> 6)

def fourth (c : UInt8) : UInt8 := c &&& 0x3F

/-- The letters that are stored: four for every three bytes, then the one or two that are left,
with padding. -/
def letters : Bytes → Bytes
  | a :: b :: c :: d =>
      letter (first a) :: letter (second a b) :: letter (third b c) :: letter (fourth c) :: letters d
  | [a] => [letter (first a), letter ((a &&& 0x03) <<< 4), EQUALS, EQUALS]
  | [a, b] => [letter (first a), letter (second a b), letter ((b &&& 0x0F) <<< 2), EQUALS]
  | [] => []

/-- `encode(ob, data, sz)`. -/
def encodeTo (ob : OBuffer) (data : Bytes) : Except BufFault OBuffer := do
  let ob := ob.reserve (2 + (data.length + 2) / 3 * 4)
  let ob ← ob.poke (letters data ++ [NUL])
  ob.bseek (letters data).length

/-- `encode(data, sz)`. -/
def encode (data : Bytes) : Except BufFault Str := do
  let ob ← encodeTo (.new 0) data
  .ok ob.toStr

/-! ## Decoding -/

def ASCII_LOOKUP : List UInt8 := [
  64, 64, 64, 64, 64, 64, 64, 64, 64, 64, 64, 64, 64, 64, 64, 64,
  64, 64, 64, 64, 64, 64, 64, 64, 64, 64, 64, 64, 64, 64, 64, 64,
  64, 64, 64, 64, 64, 64, 64, 64, 64, 64, 64, 62, 64, 64, 64, 63,
  52, 53, 54, 55, 56, 57, 58, 59, 60, 61, 64, 64, 64, 64, 64, 64,
  64,  0,  1,  2,  3,  4,  5,  6,  7,  8,  9, 10, 11, 12, 13, 14,
  15, 16, 17, 18, 19, 20, 21, 22, 23, 24, 25, 64, 64, 64, 64, 64,
  64, 26, 27, 28, 29, 30, 31, 32, 33, 34, 35, 36, 37, 38, 39, 40,
  41, 42, 43, 44, 45, 46, 47, 48, 49, 50, 51, 64, 64, 64, 64, 64,
  64, 64, 64, 64, 64, 64, 64, 64, 64, 64, 64, 64, 64, 64, 64, 64,
  64, 64, 64, 64, 64, 64, 64, 64, 64, 64, 64, 64, 64, 64, 64, 64,
  64, 64, 64, 64, 64, 64, 64, 64, 64, 64, 64, 64, 64, 64, 64, 64,
  64, 64, 64, 64, 64, 64, 64, 64, 64, 64, 64, 64, 64, 64, 64, 64,
  64, 64, 64, 64, 64, 64, 64, 64, 64, 64, 64, 64, 64, 64, 64, 64,
  64, 64, 64, 64, 64, 64, 64, 64, 64, 64, 64, 64, 64, 64, 64, 64,
  64, 64, 64, 64, 64, 64, 64, 64, 64, 64, 64, 64, 64, 64, 64, 64,
  64, 64, 64, 64, 64, 64, 64, 64, 64, 64, 64, 64, 64, 64, 64, 64]

def lookup (c : UInt8) : UInt8 := ASCII_LOOKUP.getD c.toNat 64

/-- `it[i]`. -/
def load (it : Bytes) (i : Nat) : Except BufFault UInt8 :=
  match it[i]? with
  | some c => .ok c
  | none => .error .overrun

/-- The three bytes of four letters. -/
def byte0 (a b : UInt8) : UInt8 := lookup a <<< 2 ||| lookup b >>> 4

def byte1 (b c : UInt8) : UInt8 := lookup b <<< 4 ||| lookup c >>> 2

def byte2 (c d : UInt8) : UInt8 := lookup c <<< 6 ||| lookup d

/-- `while ((it[i] != '=') && (ASCII_LOOKUP[it[i]] != 64) && (i++ < 4));` -/
def tailLoop (it : Bytes) : Nat → Nat → Except BufFault Nat
  | 0, i => .ok i
  | fuel + 1, i => do
      let c ← load it i
      if c = EQUALS ∨ lookup c = 64 then .ok i
      else if i < 4 then tailLoop it fuel (i + 1) else .ok (i + 1)

/-- What is stored for the last letters; `sz` wraps around when there are too few of them. -/
def decodeTail (it : Bytes) (sz : Nat) : Except BufFault Bytes := do
  let i ← tailLoop it 5 0
  if sz ≠ i then
    let c ← load it i
    if c ≠ EQUALS then .error .invalidArguments
  let sz := (sz + 2 ^ 64 - 4 + i) % 2 ^ 64
  let x ← if sz > 1 then do .ok [byte0 (← load it 0) (← load it 1)] else .ok []
  let y ← if sz > 2 then do .ok [byte1 (← load it 1) (← load it 2)] else .ok []
  let z ← if sz > 3 then do .ok [byte2 (← load it 2) (← load it 3)] else .ok []
  .ok (x ++ y ++ z)

/-- What is stored: `while (sz > 4)` takes four letters at a time. -/
def stored : Bytes → Nat → Except BufFault Bytes
  | a :: b :: c :: d :: it, sz =>
      if 4 < sz then
        if lookup a = 64 ∨ lookup b = 64 ∨ lookup c = 64 ∨ lookup d = 64 then
          .error .invalidArguments
        else do
          let out ← stored it (sz - 4)
          .ok (byte0 a b :: byte1 b c :: byte2 c d :: out)
      else decodeTail (a :: b :: c :: d :: it) sz
  | it, sz => decodeTail it sz

/-- How many bytes the loop stores, also when it stops with an exception. -/
def looped : Bytes → Nat → Nat
  | a :: b :: c :: d :: it, sz =>
      if 4 < sz then
        if lookup a = 64 ∨ lookup b = 64 ∨ lookup c = 64 ∨ lookup d = 64 then 0
        else looped it (sz - 4) + 3
      else 0
  | _, _ => 0

/-- `decode(ob, in, size)`; the pointer is followed past the `size` bytes. -/
def decodeTo (ob : OBuffer) (s : Str) : Except BufFault OBuffer := do
  let ob := ob.reserve (s.len / 4 % UINT32 * 3 % UINT32)
  if (ob.mem.getD []).length < looped (s.mem.getD []) s.len then .error .overrun
  else do
    let out ← stored (s.mem.getD []) s.len
    let ob ← ob.poke out
    ob.seek out.length

/-- `decode(in, size)`. -/
def decode (s : Str) : Except BufFault Str := do
  let ob ← decodeTo (.new (s.len / 4 % UINT32 * 3 % UINT32)) s
  .ok ob.toStr

/-! ## Letters and bytes -/

/-- A letter stands for six bits, and is not the padding. -/
def IsLetter (c : UInt8) : Prop := lookup c < 64 ∧ c ≠ EQUALS

set_option maxRecDepth 8000 in
private theorem letter_spec (x : UInt8) : x < 64 → lookup (letter x) = x ∧ letter x ≠ EQUALS := by
  refine forall_byte (P := fun x => x < 64 → lookup (letter x) = x ∧ letter x ≠ EQUALS) ?_ x
  decide

private theorem lookup_letter {x : UInt8} (h : x < 64) : lookup (letter x) = x := (letter_spec x h).1

private theorem isLetter_letter {x : UInt8} (h : x < 64) : IsLetter (letter x) :=
  ⟨by rw [lookup_letter h]; exact h, (letter_spec x h).2⟩

set_option maxRecDepth 8000 in
private theorem first_lt (a : UInt8) : first a < 64 :=
  forall_byte (P := fun a => first a < 64) (by decide) a

set_option maxRecDepth 8000 in
private theorem fourth_lt (c : UInt8) : fourth c < 64 :=
  forall_byte (P := fun c => fourth c < 64) (by decide) c

private theorem or_lt {x y : UInt8} (hx : x < 64) (hy : y < 64) : x ||| y < 64 := by
  rw [UInt8.lt_iff_toNat_lt] at *
  rw [UInt8.toNat_or]
  exact Nat.or_lt_two_pow (n := 6) hx hy

set_option maxRecDepth 8000 in
private theorem second_lt (a b : UInt8) : second a b < 64 :=
  or_lt (forall_byte (P := fun a => (a &&& 0x03) <<< 4 < 64) (by decide) a)
    (forall_byte (P := fun b => (b &&& 0xF0) >>> 4 < 64) (by decide) b)

set_option maxRecDepth 8000 in
private theorem third_lt (b c : UInt8) : third b c < 64 :=
  or_lt (forall_byte (P := fun b => (b &&& 0x0F) <<< 2 < 64) (by decide) b)
    (forall_byte (P := fun c => (c &&& 0xC0) >>> 6 < 64) (by decide) c)

set_option maxRecDepth 8000 in
private theorem byte0_letters (a b : UInt8) :
    byte0 (letter (first a)) (letter (second a b)) = a := by
  have ha : ((first a) <<< 2) ||| (((a &&& 0x03) <<< 4) >>> 4) = a :=
    forall_byte (P := fun a => ((first a) <<< 2) ||| (((a &&& 0x03) <<< 4) >>> 4) = a)
      (by decide) a
  have hb : ((b &&& 0xF0) >>> 4) >>> 4 = 0 :=
    forall_byte (P := fun b => ((b &&& 0xF0) >>> 4) >>> 4 = 0) (by decide) b
  rw [byte0, lookup_letter (first_lt a), lookup_letter (second_lt a b), second, UInt8.shiftRight_or,
    hb, UInt8.or_zero, ha]

set_option maxRecDepth 8000 in
private theorem byte1_letters (a b c : UInt8) :
    byte1 (letter (second a b)) (letter (third b c)) = b := by
  have ha : ((a &&& 0x03) <<< 4) <<< 4 = 0 :=
    forall_byte (P := fun a => ((a &&& 0x03) <<< 4) <<< 4 = 0) (by decide) a
  have hb : (((b &&& 0xF0) >>> 4) <<< 4) ||| (((b &&& 0x0F) <<< 2) >>> 2) = b :=
    forall_byte (P := fun b => (((b &&& 0xF0) >>> 4) <<< 4) ||| (((b &&& 0x0F) <<< 2) >>> 2) = b)
      (by decide) b
  have hc : ((c &&& 0xC0) >>> 6) >>> 2 = 0 :=
    forall_byte (P := fun c => ((c &&& 0xC0) >>> 6) >>> 2 = 0) (by decide) c
  rw [byte1, lookup_letter (second_lt a b), lookup_letter (third_lt b c), second, third,
    UInt8.shiftLeft_or, UInt8.shiftRight_or, ha, hc, UInt8.or_zero, UInt8.zero_or, hb]

set_option maxRecDepth 8000 in
private theorem byte2_letters (b c : UInt8) :
    byte2 (letter (third b c)) (letter (fourth c)) = c := by
  have hb : ((b &&& 0x0F) <<< 2) <<< 6 = 0 :=
    forall_byte (P := fun b => ((b &&& 0x0F) <<< 2) <<< 6 = 0) (by decide) b
  have hc : (((c &&& 0xC0) >>> 6) <<< 6) ||| fourth c = c :=
    forall_byte (P := fun c => (((c &&& 0xC0) >>> 6) <<< 6) ||| fourth c = c) (by decide) c
  rw [byte2, lookup_letter (third_lt b c), lookup_letter (fourth_lt c), third, UInt8.shiftLeft_or,
    hb, UInt8.zero_or, hc]

private theorem second_zero (a : UInt8) : second a 0 = (a &&& 0x03) <<< 4 := UInt8.or_zero

private theorem third_zero (b : UInt8) : third b 0 = (b &&& 0x0F) <<< 2 := UInt8.or_zero

theorem length_letters (d : Bytes) : (letters d).length = (d.length + 2) / 3 * 4 := by
  fun_induction letters d with
  | case1 a b c d ih =>
      simp only [List.length_cons, ih]
      omega
  | case2 a => simp only [List.length_cons, List.length_nil]
  | case3 a b => simp only [List.length_cons, List.length_nil]
  | case4 => rfl

/-! ## What is stored for the letters of a byte string -/

theorem lookup_ne {c : UInt8} (h : IsLetter c) : lookup c ≠ 64 := by
  intro heq
  have hlt := h.1
  rw [heq] at hlt
  exact absurd hlt (by decide)

theorem tailLoop_letter {it : Bytes} {c : UInt8} {i fuel : Nat} (hc : it[i]? = some c)
    (h : IsLetter c) (hi : i < 4) : tailLoop it (fuel + 1) i = tailLoop it fuel (i + 1) := by
  rw [tailLoop, load, hc]
  simp only [bind, Except.bind]
  rw [if_neg (not_or.mpr ⟨h.2, lookup_ne h⟩), if_pos hi]

theorem tailLoop_stop {it : Bytes} {c : UInt8} {i fuel : Nat} (hc : it[i]? = some c)
    (h : c = EQUALS ∨ lookup c = 64) : tailLoop it (fuel + 1) i = .ok i := by
  rw [tailLoop, load, hc]
  simp only [bind, Except.bind]
  rw [if_pos h]

private theorem decodeTail_four {p q r s : UInt8} (hp : IsLetter p) (hq : IsLetter q)
    (hr : IsLetter r) (hs : IsLetter s) (z : Bytes) :
    decodeTail (p :: q :: r :: s :: NUL :: z) 4 = .ok [byte0 p q, byte1 q r, byte2 r s] := by
  have hi : tailLoop (p :: q :: r :: s :: NUL :: z) 5 0 = .ok 4 := by
    rw [tailLoop_letter rfl hp (by decide), tailLoop_letter rfl hq (by decide),
      tailLoop_letter rfl hr (by decide), tailLoop_letter rfl hs (by decide)]
    exact tailLoop_stop rfl (.inr (by decide))
  simp only [decodeTail, hi, bind, Except.bind]
  rfl

theorem decodeTail_three {p q r : UInt8} (hp : IsLetter p) (hq : IsLetter q)
    (hr : IsLetter r) (z : Bytes) :
    decodeTail (p :: q :: r :: EQUALS :: z) 4 = .ok [byte0 p q, byte1 q r] := by
  have hi : tailLoop (p :: q :: r :: EQUALS :: z) 5 0 = .ok 3 := by
    rw [tailLoop_letter rfl hp (by decide), tailLoop_letter rfl hq (by decide),
      tailLoop_letter rfl hr (by decide)]
    exact tailLoop_stop rfl (.inl rfl)
  simp only [decodeTail, hi, bind, Except.bind]
  rfl

theorem decodeTail_two {p q : UInt8} (hp : IsLetter p) (hq : IsLetter q) (z : Bytes) :
    decodeTail (p :: q :: EQUALS :: EQUALS :: z) 4 = .ok [byte0 p q] := by
  have hi : tailLoop (p :: q :: EQUALS :: EQUALS :: z) 5 0 = .ok 2 := by
    rw [tailLoop_letter rfl hp (by decide), tailLoop_letter rfl hq (by decide)]
    exact tailLoop_stop rfl (.inl rfl)
  simp only [decodeTail, hi, bind, Except.bind]
  rfl

/-- **The letters of a byte string that is not empty give its bytes back.** -/
theorem stored_letters (d z : Bytes) (hd : d ≠ []) :
    stored (letters d ++ NUL :: z) (letters d).length = .ok d := by
  fun_induction letters d with
  | case1 a b c d ih =>
      have h₀ := isLetter_letter (first_lt a)
      have h₁ := isLetter_letter (second_lt a b)
      have h₂ := isLetter_letter (third_lt b c)
      have h₃ := isLetter_letter (fourth_lt c)
      rw [List.cons_append, List.cons_append, List.cons_append, List.cons_append, stored]
      by_cases hnil : d = []
      · -- these are the last four letters
        rw [hnil, letters]
        simp only [List.length_cons, List.length_nil, Nat.lt_irrefl, if_false]
        show decodeTail (letter (first a) :: letter (second a b) :: letter (third b c) ::
          letter (fourth c) :: NUL :: z) 4 = _
        rw [decodeTail_four h₀ h₁ h₂ h₃, byte0_letters, byte1_letters, byte2_letters]
      · have hpos : 4 ≤ (letters d).length := by
          have := List.length_pos_iff.mpr hnil
          rw [length_letters]
          omega
        simp only [List.length_cons]
        rw [if_pos (by omega), if_neg (by
          simp only [lookup_ne h₀, lookup_ne h₁, lookup_ne h₂, lookup_ne h₃, or_self,
            not_false_eq_true])]
        show (do let out ← stored (letters d ++ NUL :: z) (letters d).length; _) = _
        rw [ih hnil]
        simp only [bind, Except.bind, byte0_letters, byte1_letters, byte2_letters]
  | case2 a =>
      -- the second letter stands for the byte with zeros behind it
      show decodeTail (letter (first a) :: letter ((a &&& 0x03) <<< 4) :: EQUALS :: EQUALS ::
        NUL :: z) 4 = _
      rw [← second_zero, decodeTail_two (isLetter_letter (first_lt a))
        (isLetter_letter (second_lt a 0)), byte0_letters]
  | case3 a b =>
      show decodeTail (letter (first a) :: letter (second a b) :: letter ((b &&& 0x0F) <<< 2) ::
        EQUALS :: NUL :: z) 4 = _
      rw [← third_zero, decodeTail_three (isLetter_letter (first_lt a))
        (isLetter_letter (second_lt a b)) (isLetter_letter (third_lt b 0)), byte0_letters,
        byte1_letters]
  | case4 => exact absurd rfl hd

/-- The loop stores no more than there is at the end. -/
theorem looped_le {it out : Bytes} {sz : Nat} (h : stored it sz = .ok out) :
    looped it sz ≤ out.length := by
  fun_induction stored it sz generalizing out with
  | case1 => nomatch h
  | case2 a b c d it sz hlt hbad ih =>
      obtain ⟨out', hout, rfl⟩ : ∃ out', stored it (sz - 4) = .ok out' ∧
          byte0 a b :: byte1 b c :: byte2 c d :: out' = out := by
        cases hs : stored it (sz - 4) with
        | error e =>
            rw [hs] at h
            nomatch h
        | ok out' =>
            rw [hs] at h
            exact ⟨out', rfl, Except.ok.inj h⟩
      have hle := ih hout
      rw [looped, if_pos hlt, if_neg hbad]
      simp only [List.length_cons]
      omega
  | case3 a b c d it sz hlt =>
      rw [looped, if_neg hlt]
      exact Nat.zero_le _
  | case4 it sz hit =>
      rw [looped]
      · exact Nat.zero_le _
      · exact hit

/-! ## The memory of both directions -/

theorem align_spec (n : Nat) : align n < 8 ∧ (n + align n) % 8 = 0 := by
  rw [align]
  split_ifs with h <;> omega

private theorem grow_none (add : Nat) :
    (⟨none, 0, 0⟩ : OBuffer).grow add =
      ⟨some (List.replicate ((add + align add) % UINT32 + 1) 0), (add + align add) % UINT32, 0⟩ := by
  obtain ⟨-, hmod⟩ := align_spec add
  have hlt : (add + align add) % UINT32 + 1 < UINT32 := by
    rw [UINT32]
    omega
  simp only [grow, Nat.zero_add, realloc, Option.getD_none, List.take_nil, List.nil_append,
    List.length_nil, Nat.sub_zero, Nat.mod_eq_of_lt hlt, Nat.mod_mod]

private theorem reserve_none {n : Nat} (h : 0 < n) :
    (⟨none, 0, 0⟩ : OBuffer).reserve n = (⟨none, 0, 0⟩ : OBuffer).grow (n % UINT32) := by
  simp only [reserve, Nat.zero_add, Nat.sub_zero, Nat.mod_self, if_pos h, Nat.zero_max]

/-- The greatest length whose letters fit into a buffer. -/
def maxLength : Nat := 3221225463

/-- What `encode` gives: the letters, a NUL and whatever else there is. -/
theorem encode_ok {d : Bytes} (h : d.length ≤ maxLength) :
    ∃ z, encode d = .ok ⟨some (letters d ++ NUL :: z), (letters d).length⟩ := by
  rw [maxLength] at h
  have hlen := length_letters d
  obtain ⟨hsmall, hmod⟩ := align_spec (2 + (d.length + 2) / 3 * 4)
  -- neither the reservation nor its alignment wraps around
  have hneed : (2 + (d.length + 2) / 3 * 4) % UINT32 = 2 + (d.length + 2) / 3 * 4 := by
    rw [UINT32]
    omega
  have hfit : (2 + (d.length + 2) / 3 * 4 + align (2 + (d.length + 2) / 3 * 4)) % UINT32 =
      2 + (d.length + 2) / 3 * 4 + align (2 + (d.length + 2) / 3 * 4) := by
    rw [UINT32]
    omega
  obtain ⟨size, hsize⟩ : ∃ size, size =
      2 + (d.length + 2) / 3 * 4 + align (2 + (d.length + 2) / 3 * 4) := ⟨_, rfl⟩
  refine ⟨List.replicate (size - (letters d).length) 0, ?_⟩
  have hpoke : (letters d ++ [NUL]).length ≤ (List.replicate (size + 1) (0 : UInt8)).length := by
    rw [List.length_append, List.length_singleton, List.length_replicate]
    omega
  have hseek : (letters d).length < size := by omega
  have hdrop : size + 1 - (letters d ++ [NUL]).length = size - (letters d).length := by
    rw [List.length_append, List.length_singleton]
    omega
  rw [encode, encodeTo, new, if_neg (not_not.mpr rfl), reserve_none (by omega), hneed, grow_none,
    hfit, ← hsize]
  simp only [poke, if_pos hpoke, bind, Except.bind, bseek, if_pos hseek, toStr, Option.map_some,
    List.drop_replicate, hdrop]
  rw [List.append_assoc, List.singleton_append, List.set_append_right _ _ (Nat.le_refl _),
    Nat.sub_self, List.set_cons_zero]

/-- The letters of a longer string are written past the end of the memory. -/
theorem encode_error {d : Bytes} (h : maxLength < d.length) :
    encode d = .error .overrun := by
  rw [maxLength] at h
  have hlen := length_letters d
  obtain ⟨hsmall, hmod⟩ := align_spec ((2 + (d.length + 2) / 3 * 4) % UINT32)
  have hpoke : ¬ (letters d ++ [NUL]).length ≤ (List.replicate (((2 + (d.length + 2) / 3 * 4) %
      UINT32 + align ((2 + (d.length + 2) / 3 * 4) % UINT32)) % UINT32 + 1) (0 : UInt8)).length := by
    rw [List.length_append, List.length_singleton, List.length_replicate]
    rw [UINT32] at *
    omega
  rw [encode, encodeTo, new, if_neg (not_not.mpr rfl), reserve_none (by omega), grow_none]
  simp only [poke, if_neg hpoke, bind, Except.bind]

private theorem ne_nul {c : UInt8} (h : IsLetter c) : c ≠ NUL := by
  rintro rfl
  exact absurd h.1 (by decide)

/-- No letter is a NUL. -/
theorem nul_notMem_letters (d : Bytes) : NUL ∉ letters d := by
  have hpad : NUL ≠ EQUALS := by decide
  fun_induction letters d with
  | case1 a b c d ih =>
      have h₀ := ne_nul (isLetter_letter (first_lt a))
      have h₁ := ne_nul (isLetter_letter (second_lt a b))
      have h₂ := ne_nul (isLetter_letter (third_lt b c))
      have h₃ := ne_nul (isLetter_letter (fourth_lt c))
      simp only [List.mem_cons, not_or]
      exact ⟨h₀.symm, h₁.symm, h₂.symm, h₃.symm, ih⟩
  | case2 a =>
      have h₀ := ne_nul (isLetter_letter (first_lt a))
      have h₁ := ne_nul (isLetter_letter (second_lt a 0))
      rw [second_zero] at h₁
      simp only [List.mem_cons, not_or]
      exact ⟨h₀.symm, h₁.symm, hpad, hpad, List.not_mem_nil⟩
  | case3 a b =>
      have h₀ := ne_nul (isLetter_letter (first_lt a))
      have h₁ := ne_nul (isLetter_letter (second_lt a b))
      have h₂ := ne_nul (isLetter_letter (third_lt b 0))
      rw [third_zero] at h₂
      simp only [List.mem_cons, not_or]
      exact ⟨h₀.symm, h₁.symm, h₂.symm, hpad, List.not_mem_nil⟩
  | case4 => exact List.not_mem_nil

/-- What is encoded is a string in C. -/
theorem nul_notMem_of_encode {d : Bytes} {s : Str} (h : encode d = .ok s) : NUL ∉ s.bytes := by
  rcases Nat.lt_or_ge maxLength d.length with hlong | hle
  · nomatch (encode_error hlong).symm.trans h
  obtain ⟨z, henc⟩ := encode_ok hle
  cases henc.symm.trans h
  have hbytes : Str.bytes ⟨some (letters d ++ NUL :: z), (letters d).length⟩ = letters d :=
    List.take_left
  rw [hbytes]
  exact nul_notMem_letters d

/-- The buffer of `decode` for `k` groups of letters. -/
private theorem decode_buffer {k : Nat} (hk : 0 < k) (h : k * 3 + 8 < UINT32) :
    (OBuffer.new (k * 3)).reserve (k * 3) =
      ⟨some (List.replicate (k * 3 + align (k * 3) + 1) 0), k * 3 + align (k * 3), 0⟩ := by
  obtain ⟨hsmall, hmod⟩ := align_spec (k * 3)
  have hlt : k * 3 % UINT32 = k * 3 := Nat.mod_eq_of_lt (by omega)
  have hfit : (k * 3 + align (k * 3)) % UINT32 = k * 3 + align (k * 3) :=
    Nat.mod_eq_of_lt (by omega)
  rw [new, if_pos (by omega), hlt, grow_none, hfit, reserve]
  have hremaining : (k * 3 + align (k * 3) + UINT32 - 0) % UINT32 = k * 3 + align (k * 3) := by
    rw [Nat.sub_zero, Nat.add_mod_right, hfit]
  simp only [hremaining]
  rw [if_neg (by omega)]

/-- The NUL behind the bytes of a string is none of them. -/
theorem bytes_set (d m : Bytes) : Str.bytes ⟨some ((d ++ m).set d.length NUL), d.length⟩ = d := by
  show ((d ++ m).set d.length NUL).take d.length = d
  rw [List.set_append_right _ _ (Nat.le_refl _), List.take_left]

/-- Nothing is allocated for the empty string, and three bytes are written. -/
private theorem decode_encode_nil {s r : Str} (hs : encode [] = .ok s) : decode s ≠ .ok r := by
  intro hr
  have henc : encode [] = .ok ⟨some (List.replicate 9 0), 0⟩ := by decide
  have hnone : (decode ⟨some (List.replicate 9 0), 0⟩).toOption = none := by decide
  cases henc.symm.trans hs
  rw [hr] at hnone
  nomatch hnone

/-- What `decode` gives: the seek at the end is the only thing that can fail. -/
private theorem decode_letters {d : Bytes} (hnil : d ≠ []) (hle : d.length ≤ maxLength) (z : Bytes) :
    ∃ r, r.bytes = d ∧ decode ⟨some (letters d ++ NUL :: z), (letters d).length⟩ =
      if d.length < (d.length + 2) / 3 * 3 + align ((d.length + 2) / 3 * 3) then .ok r
      else .error .outOfRange := by
  have hpos := List.length_pos_iff.mpr hnil
  have hlen := length_letters d
  rw [maxLength] at hle
  have hcap : (letters d).length / 4 % UINT32 * 3 % UINT32 = (d.length + 2) / 3 * 3 := by
    rw [hlen, Nat.mul_div_cancel _ (by decide), UINT32]
    omega
  have hbuf := decode_buffer (k := (d.length + 2) / 3) (by omega) (by rw [UINT32]; omega)
  have hpoke : d.length ≤ (List.replicate ((d.length + 2) / 3 * 3 +
      align ((d.length + 2) / 3 * 3) + 1) (0 : UInt8)).length := by
    rw [List.length_replicate]
    omega
  refine ⟨_, bytes_set d ((List.replicate ((d.length + 2) / 3 * 3 +
    align ((d.length + 2) / 3 * 3) + 1) 0).drop d.length), ?_⟩
  have hloop := Nat.le_trans (looped_le (stored_letters d z hnil)) hpoke
  rw [decode, decodeTo, hcap, hbuf]
  simp only [Option.getD_some]
  rw [if_neg (Nat.not_lt.mpr hloop)]
  simp only [stored_letters d z hnil, bind, Except.bind, poke, if_pos hpoke,
    seek, bseek, Nat.zero_add]
  split_ifs <;> rfl

/-- **The round trip works for the lengths that are no multiple of 24 and whose letters fit.** -/
theorem decode_encode_iff (d : Bytes) :
    (∃ s r, encode d = .ok s ∧ decode s = .ok r ∧ r.bytes = d) ↔
      d.length % 24 ≠ 0 ∧ d.length ≤ maxLength := by
  rcases Nat.lt_or_ge maxLength d.length with hlong | hle
  · refine iff_of_false ?_ fun h => absurd h.2 (Nat.not_le.mpr hlong)
    rintro ⟨s, r, hs, -⟩
    rw [encode_error hlong] at hs
    cases hs
  obtain ⟨z, henc⟩ := encode_ok hle
  by_cases hnil : d = []
  · refine iff_of_false ?_ fun h => h.1 (by rw [hnil]; rfl)
    rintro ⟨s, r, hs, hr, -⟩
    rw [hnil] at hs
    exact decode_encode_nil hs hr
  obtain ⟨r, hbytes, hdec⟩ := decode_letters hnil hle z
  have hpos := List.length_pos_iff.mpr hnil
  obtain ⟨hsmall, hmod⟩ := align_spec ((d.length + 2) / 3 * 3)
  constructor
  · rintro ⟨s, r', hs, hr, -⟩
    rw [henc] at hs
    cases hs
    rw [hdec] at hr
    split_ifs at hr with hseek
    exact ⟨by omega, hle⟩
  · rintro ⟨hmul, -⟩
    rw [if_pos (by omega)] at hdec
    exact ⟨_, r, henc, hdec, hbytes⟩

/-- 24 bytes. -/
theorem decode_encode_24 : ¬ ∃ s r, encode (List.replicate 24 65) = .ok s ∧ decode s = .ok r ∧
    r.bytes = List.replicate 24 65 := by
  rintro ⟨s, r, hs, hr, -⟩
  have hlen : (List.replicate 24 (65 : UInt8)).length = 24 := List.length_replicate
  have hle : (List.replicate 24 (65 : UInt8)).length ≤ maxLength := by
    rw [hlen, maxLength]
    omega
  obtain ⟨z, henc⟩ := encode_ok hle
  obtain ⟨r', -, hdec⟩ := decode_letters (by decide) hle z
  cases henc.symm.trans hs
  -- the seek at the end does not go to the end of the memory
  rw [hdec, hlen, if_neg (by decide)] at hr
  nomatch hr

end Suil.Base64
