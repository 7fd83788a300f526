import Suil.Basic.Utf8
import Suil.Lib.Traced

set_option autoImplicit false

/-! # The text of JSON values

`json::encode` and `json::decode` for a `json::Object` (`json.h`, `json.cpp`). The stream that is
written to is the list of its bytes; a text is read to its end, where there is a NUL. What a number
looks like and what is read from it are of a type `Numbers`. `roundTrips_iff` says which values are
read back. -/

namespace Suil.Json

def BACKSLASH : UInt8 := 92
/-- The opening and the closing bracket. -/
def LBRACKET : UInt8 := 91
def RBRACKET : UInt8 := 93

/-- How a function ends that does not have a result: with an exception, at an assertion, by
returning false, or when a bound on its steps is not enough. -/
inductive Stop where
  | raised (ex : Exception)
  | aborted
  | invalid
  | fuel
  deriving DecidableEq

/-- What the library does with a `double`: `sprintf` with `"%.16g"`, the text in a stream, and
`strtod`, which is given all of the text from the number on. -/
structure Numbers (ν : Type) where
  g16 : ν → Bytes
  text : ν → Bytes
  strtod : Bytes → ν

/-! ## Numbers -/

/-- `'-'?` -/
def sign (s : Bytes) : Except Stop Bytes := .ok (if charAt s 0 = DASH then s.tail else s)

/-- `[0-9]+` -/
def digits (s : Bytes) : Except Stop Bytes :=
  if !isDigit (charAt s 0) then .error .invalid else .ok (s.dropWhile isDigit)

/-- `(0 | [1-9][0-9]*)` -/
def integer (s : Bytes) : Except Stop Bytes :=
  if charAt s 0 = 48 then .ok s.tail else digits s

/-- `('.' [0-9]+)?` -/
def fraction (s : Bytes) : Except Stop Bytes :=
  if charAt s 0 = DOT then digits s.tail else .ok s

/-- `([Ee] [+-]? [0-9]+)?` -/
def exponent (s : Bytes) : Except Stop Bytes :=
  if charAt s 0 = 69 ∨ charAt s 0 = 101 then
    let s := s.tail
    digits (if charAt s 0 = PLUS ∨ charAt s 0 = DASH then s.tail else s)
  else .ok s

/-- `parse_number`: what is behind the number. -/
def parse_number (s : Bytes) : Except Stop Bytes := do
  let s ← sign s
  let s ← integer s
  let s ← fraction s
  exponent s

def number_is_valid (num : Bytes) : Bool :=
  match parse_number num with
  | .ok s => charAt s 0 = NUL
  | .error _ => false

/-! ## Writing -/

variable {ν : Type}

def emit_number (N : Numbers ν) (num : ν) : Bytes :=
  if number_is_valid (N.g16 num) then N.text num else str "null"

/-- The digits of `hex`. -/
def hexDigit (n : Nat) : UInt8 := if n < 10 then UInt8.ofNat (48 + n) else UInt8.ofNat (55 + n)

def write_hex16 (val : Nat) : Bytes :=
  [hexDigit (val >>> 12 &&& 0xF), hexDigit (val >>> 8 &&& 0xF), hexDigit (val >>> 4 &&& 0xF),
    hexDigit (val &&& 0xF)]

/-- The local variable of `emit_string`. -/
def escape_unicode : Bool := false

/-- The letter of the short form of an escape. -/
def escape (c : UInt8) : Option UInt8 :=
  if c = DQUOTE then some DQUOTE
  else if c = BACKSLASH then some BACKSLASH
  else if c = 8 then some 98
  else if c = 12 then some 102
  else if c = 10 then some 110
  else if c = 13 then some 114
  else if c = 9 then some 116
  else none

/-- The next character of a string: what is written, and what is left of the string. -/
def emit_char (s : Bytes) : Except Stop (Bytes × Bytes) :=
  let c := charAt s 0
  match escape c with
  | some e => .ok ([BACKSLASH, e], s.tail)
  | none =>
      let len := utf8_validate_cz s
      if len = 0 then .error .aborted
      else if c < 0x1F ∨ (c ≥ 0x80 ∧ escape_unicode) then
        match utf8_read_char s with
        | .error ex => .error (.raised ex)
        | .ok (n, unicode) =>
            if unicode ≤ 0xFFFF then .ok (str "\\u" ++ write_hex16 unicode, s.drop n)
            else
              match to_surrogate_pair unicode with
              | .error ex => .error (.raised ex)
              | .ok (uc, lc) =>
                  .ok (str "\\u" ++ write_hex16 uc ++ str "\\u" ++ write_hex16 lc, s.drop n)
      else .ok (s.take len, s.drop len)

/-- The loop of `emit_string`, with a bound on the number of characters. -/
def emit_chars : Nat → Bytes → Except Stop Bytes
  | 0, s => if charAt s 0 = NUL then .ok [] else .error .fuel
  | n + 1, s =>
      if charAt s 0 = NUL then .ok []
      else do
        let (out, s) ← emit_char s
        let outs ← emit_chars n s
        .ok (out ++ outs)

def emit_string (s : Bytes) : Except Stop Bytes :=
  if !utf8_validate s then
    .error (.raised (.create 0 [str "'", s, str "' is not a valid utf8 string"]))
  else do
    let out ← emit_chars s.length s
    .ok (DQUOTE :: out ++ [DQUOTE])

mutual

def emit_value (N : Numbers ν) : Json ν → Except Stop Bytes
  | .null => .ok (str "null")
  | .bool b => .ok (if b then str "true" else str "false")
  | .string s => emit_string s
  | .number n => .ok (emit_number N n)
  | .array es => do
      let out ← emit_elements N es
      .ok (LBRACKET :: out ++ [RBRACKET])
  | .object ms => do
      let out ← emit_members N ms
      .ok (LBRACE :: out ++ [RBRACE])

/-- The loop of `emit_array`. -/
def emit_elements (N : Numbers ν) : List (Json ν) → Except Stop Bytes
  | [] => .ok []
  | e :: es => do
      let out ← emit_value N e
      let outs ← emit_elements N es
      .ok (out ++ (if es.isEmpty then [] else [COMMA]) ++ outs)

/-- The loop of `emit_object`. -/
def emit_members (N : Numbers ν) : List (Bytes × Json ν) → Except Stop Bytes
  | [] => .ok []
  | (key, v) :: ms => do
      let name ← emit_string key
      let out ← emit_value N v
      let outs ← emit_members N ms
      .ok (name ++ COLON :: out ++ (if ms.isEmpty then [] else [COMMA]) ++ outs)

end

/-- `json::encode`. -/
def encode (N : Numbers ν) (o : Json ν) : Except Stop Bytes := emit_value N o

/-! ## Reading -/

/-- `is_space`. -/
def is_space (c : UInt8) : Bool := c = TAB || c = LF || c = CR || c = SP

def skip_space (s : Bytes) : Bytes := s.dropWhile is_space

/-- The value of a digit in base 16. -/
def hexValue (c : UInt8) : Option Nat :=
  if 48 ≤ c ∧ c ≤ 57 then some (c.toNat - 48)
  else if 65 ≤ c ∧ c ≤ 70 then some (c.toNat - 65 + 10)
  else if 97 ≤ c ∧ c ≤ 102 then some (c.toNat - 97 + 10)
  else none

/-- The value of four digits, and what is behind them. -/
def parse_hex16 (s : Bytes) : Option (Nat × Bytes) := do
  let a ← hexValue (charAt s 0)
  let b ← hexValue (charAt s 1)
  let c ← hexValue (charAt s 2)
  let d ← hexValue (charAt s 3)
  some (((a * 16 + b) * 16 + c) * 16 + d, s.drop 4)

/-- `utf8_write_char` in `parse_string`. -/
def write_char (unicode : Nat) (s : Bytes) : Except Stop (Bytes × Bytes) :=
  match utf8_write_char unicode with
  | .error ex => .error (.raised ex)
  | .ok b => .ok (b, s)

/-- The branch of `parse_string` for `\u`. -/
def parse_unicode (s : Bytes) : Except Stop (Bytes × Bytes) :=
  match parse_hex16 s with
  | none => .error .invalid
  | some (uc, s) =>
      if uc ≥ 0xD800 ∧ uc ≤ 0xDFFF then
        if charAt s 0 ≠ BACKSLASH ∨ charAt s 1 ≠ 117 then .error .invalid
        else
          match parse_hex16 (s.drop 2) with
          | none => .error .invalid
          | some (lc, s) =>
              match from_surrogate_pair uc lc with
              | none => .error .invalid
              | some unicode => write_char unicode s
      else if uc = 0 then .error .invalid
      else write_char uc s

/-- The character that an escape stands for. -/
def unescape (c : UInt8) : Option UInt8 :=
  if c = DQUOTE ∨ c = BACKSLASH ∨ c = SLASH then some c
  else if c = 98 then some 8
  else if c = 102 then some 12
  else if c = 110 then some 10
  else if c = 114 then some 13
  else if c = 116 then some 9
  else none

/-- The next character of a text in quotes: its bytes, and what is left of the text. -/
def parse_char (s : Bytes) : Except Stop (Bytes × Bytes) :=
  let c := charAt s 0
  if c = BACKSLASH then
    let c := charAt s 1
    match unescape c with
    | some b => .ok ([b], s.drop 2)
    | none => if c = 117 then parse_unicode (s.drop 2) else .error .invalid
  else if c ≤ 0x1F then .error .invalid
  else
    let len := utf8_validate_cz s
    if len = 0 then .error .invalid else .ok (s.take len, s.drop len)

/-- The loop of `parse_string`, with a bound on the number of characters. -/
def parse_chars : Nat → Bytes → Except Stop (Bytes × Bytes)
  | 0, _ => .error .fuel
  | n + 1, s =>
      if charAt s 0 = DQUOTE then .ok ([], s.tail)
      else do
        let (b, s) ← parse_char s
        let (bs, s) ← parse_chars n s
        .ok (b ++ bs, s)

def parse_string (s : Bytes) : Except Stop (Bytes × Bytes) :=
  if charAt s 0 ≠ DQUOTE then .error .invalid else parse_chars s.length s.tail

/-- `expect_literal`: what is behind the literal. -/
def expect_literal (s lit : Bytes) : Except Stop Bytes :=
  if lit.isPrefixOf s then .ok (s.drop lit.length) else .error .invalid

mutual

/-- `parse_value`, with a bound on its depth and on the loops. -/
def parse_value (N : Numbers ν) : Nat → Bytes → Except Stop (Json ν × Bytes)
  | 0, _ => .error .fuel
  | n + 1, s =>
      let c := charAt s 0
      if c = 110 then do
        let s ← expect_literal s (str "null")
        .ok (.null, s)
      else if c = 102 then do
        let s ← expect_literal s (str "false")
        .ok (.bool false, s)
      else if c = 116 then do
        let s ← expect_literal s (str "true")
        .ok (.bool true, s)
      else if c = DQUOTE then do
        let (b, s) ← parse_string s
        .ok (.string b, s)
      else if c = LBRACKET then
        let s := skip_space s.tail
        if charAt s 0 = RBRACKET then .ok (.array [], s.tail)
        else do
          let (es, s) ← parse_elements N n s
          .ok (.array es, s)
      else if c = LBRACE then
        let s := skip_space s.tail
        if charAt s 0 = RBRACE then .ok (.object [], s.tail)
        else do
          let (ms, s) ← parse_members N n s
          .ok (.object ms, s)
      else do
        let s' ← parse_number s
        .ok (.number (N.strtod s), s')

/-- The loop of `parse_array`. -/
def parse_elements (N : Numbers ν) : Nat → Bytes → Except Stop (List (Json ν) × Bytes)
  | 0, _ => .error .fuel
  | n + 1, s => do
      let (e, s) ← parse_value N n s
      let s := skip_space s
      if charAt s 0 = RBRACKET then .ok ([e], s.tail)
      else if charAt s 0 ≠ COMMA then .error .invalid
      else
        let (es, s) ← parse_elements N n (skip_space s.tail)
        .ok (e :: es, s)

/-- The loop of `parse_object`. -/
def parse_members (N : Numbers ν) : Nat → Bytes → Except Stop (List (Bytes × Json ν) × Bytes)
  | 0, _ => .error .fuel
  | n + 1, s => do
      let (key, s) ← parse_string s
      let s := skip_space s
      if charAt s 0 ≠ COLON then .error .invalid
      else
        let (v, s) ← parse_value N n (skip_space s.tail)
        let s := skip_space s
        if charAt s 0 = RBRACE then .ok ([(key, v)], s.tail)
        else if charAt s 0 ≠ COMMA then .error .invalid
        else
          let (ms, s) ← parse_members N n (skip_space s.tail)
          .ok ((key, v) :: ms, s)

end

/-- `Object::decode`: the value, and how many bytes are read. -/
def Object.decode (N : Numbers ν) (text : Bytes) : Except Stop (Json ν × Nat) :=
  let s := skip_space text
  match parse_value N (text.length + 1) s with
  | .error .invalid =>
      .error (.raised (.create 0 [str "json::Object::decode invalid json string at ",
        showNat (text.length - s.length)]))
  | .error e => .error e
  | .ok (o, s) => .ok (o, text.length - (skip_space s).length)

/-- `json::decode`. -/
def decode (N : Numbers ν) (text : Bytes) : Except Stop (Json ν) := do
  let (o, size) ← Object.decode N text
  if size ≠ text.length then
    .error (.raised ⟨str "decoding json string failed at pos ", size⟩)
  else .ok o

/-! ## Strings are read back -/

def US : UInt8 := 0x1F

/-- The string has a unit separator in it. -/
def garbled (s : Bytes) : Bool := s.any (· == US)

/-- A text that is read back, or one that the parser does not accept. -/
def reading {α : Type} (bad : Bool) (x : α) : Except Stop α :=
  if bad then .error .invalid else .ok x

private theorem garbled_append (s t : Bytes) : garbled (s ++ t) = (garbled s || garbled t) :=
  List.any_append

/-- What is written for a character. -/
def written (w : Bytes) : Bytes :=
  match w with
  | [a] =>
      match escape a with
      | some e => [BACKSLASH, e]
      | none => if a < 0x1F then str "\\u" ++ write_hex16 a.toNat else [a]
  | _ => w

private theorem hexValue_hexDigit (n : Nat) :
    hexValue (hexDigit (n &&& 0xF)) = some (n &&& 0xF) := by
  have h : ∀ m : Fin 16, hexValue (hexDigit m.val) = some m.val := by decide
  exact h ⟨n &&& 0xF, Nat.lt_of_le_of_lt Nat.and_le_right (by decide)⟩

set_option maxRecDepth 8000 in
private theorem parse_hex16_write (a : UInt8) (rest : Bytes) :
    parse_hex16 (write_hex16 a.toNat ++ rest) = some (a.toNat, rest) := by
  have h : ∀ a : UInt8, (((a.toNat >>> 12 &&& 0xF) * 16 + (a.toNat >>> 8 &&& 0xF)) * 16 +
      (a.toNat >>> 4 &&& 0xF)) * 16 + (a.toNat &&& 0xF) = a.toNat :=
    forall_byte (by decide)
  show (do
    let a' ← hexValue (hexDigit (a.toNat >>> 12 &&& 0xF))
    let b ← hexValue (hexDigit (a.toNat >>> 8 &&& 0xF))
    let c ← hexValue (hexDigit (a.toNat >>> 4 &&& 0xF))
    let d ← hexValue (hexDigit (a.toNat &&& 0xF))
    some (((a' * 16 + b) * 16 + c) * 16 + d, rest)) = _
  rw [hexValue_hexDigit, hexValue_hexDigit, hexValue_hexDigit, hexValue_hexDigit]
  exact congrArg (fun n => some (n, rest)) (h a)

set_option maxRecDepth 8000 in
private theorem unescape_escape (a : UInt8) : ∀ e ∈ escape a, unescape e = some a := by
  have hall : ∀ a : UInt8, (escape a).all (fun e => unescape e == some a) = true :=
    forall_byte (by decide)
  intro e he
  have := hall a
  rw [Option.mem_def.mp he, Option.all_some] at this
  exact eq_of_beq this

private theorem emit_ascii {a : UInt8} (ha : a ≤ 0x7F) (rest : Bytes) :
    emit_char (a :: rest) = .ok (written [a], rest) := by
  have hvalid : utf8_validate_cz (a :: rest) = 1 := if_pos ha
  unfold emit_char
  simp only [charAt, List.getD_cons_zero, hvalid, written]
  cases escape a with
  | some e => rfl
  | none =>
      show (if (1 : Nat) = 0 then _ else _) = _
      rw [if_neg (by decide)]
      by_cases hlt : a < 0x1F
      · have hread : utf8_read_char (a :: rest) = .ok (1, a.toNat) := by
          unfold utf8_read_char
          rw [hvalid, if_neg (by decide)]
          exact if_pos (UInt8.le_iff_toNat_le.mp ha)
        have hle : a.toNat ≤ 0xFFFF := by
          have := a.toNat_lt
          omega
        rw [if_pos (.inl hlt), hread, if_pos hlt]
        exact if_pos hle
      · have hne : ¬ (a < 0x1F ∨ a ≥ 0x80 ∧ escape_unicode = true) := by
          rintro (h | ⟨-, h⟩)
          · exact hlt h
          · cases h
        rw [if_neg hne, if_neg hlt]
        rfl

set_option maxRecDepth 8000 in
private theorem parse_ascii {a : UInt8} (ha : a ≤ 0x7F) (hnul : a ≠ NUL) (rest : Bytes) :
    charAt (written [a] ++ rest) 0 ≠ DQUOTE ∧
      parse_char (written [a] ++ rest) = reading (garbled [a]) ([a], rest) := by
  have hescape : ∀ a, escape a = none → a ≠ DQUOTE ∧ a ≠ BACKSLASH :=
    forall_byte (by decide)
  have hclear : ∀ a, a < 0x1F ∨ escape a ≠ none → garbled [a] = false :=
    forall_byte (by decide)
  unfold written
  dsimp only
  cases he : escape a with
  | some e =>
      have hhead : BACKSLASH ≠ DQUOTE := by decide
      refine ⟨hhead, ?_⟩
      rw [hclear a (.inr (by rw [he]; nofun)), parse_char]
      show (if BACKSLASH = BACKSLASH then match unescape e with
        | some b => _
        | none => _ else _) = _
      rw [if_pos rfl, unescape_escape a e he]
      rfl
  | none =>
      obtain ⟨hquote, hslash⟩ := hescape a he
      by_cases hlt : a < 0x1F
      -- a control byte is written as a number of four hex digits
      · have hwrite : ∀ a : UInt8, a < 0x1F → utf8_write_char a.toNat = .ok [a] := by
          apply forall_byte
          decide
        have hzero : ¬ a.toNat = 0 := fun h => hnul (UInt8.toNat_inj.mp h)
        have hbmp : ¬ (a.toNat ≥ 0xD800 ∧ a.toNat ≤ 0xDFFF) := by
          have := a.toNat_lt
          omega
        have hhead : BACKSLASH ≠ DQUOTE := by decide
        simp only [if_pos hlt]
        refine ⟨hhead, ?_⟩
        rw [hclear a (.inl hlt), parse_char]
        show parse_unicode (write_hex16 a.toNat ++ rest) = .ok ([a], rest)
        rw [parse_unicode, parse_hex16_write]
        simp only [hbmp, hzero, write_char, hwrite a hlt, if_false]
      · simp only [if_neg hlt]
        refine ⟨hquote, ?_⟩
        have hvalid : utf8_validate_cz ([a] ++ rest) = 1 := if_pos ha
        unfold parse_char
        simp only [hvalid]
        show (if a = BACKSLASH then _ else if a ≤ 0x1F then _ else _) = _
        rw [if_neg hslash]
        -- the writer escapes what is below 0x1F, and the reader refuses 0x1F too
        by_cases heq : a = US
        · rw [if_pos (heq ▸ UInt8.le_refl _), heq]
          rfl
        · have hgt : ¬ a ≤ 0x1F := by
            intro hle
            exact heq (UInt8.le_antisymm hle (UInt8.not_lt.mp hlt))
          have hfalse : garbled [a] = false := by
            rw [garbled, List.any_cons, List.any_nil, Bool.or_false]
            exact beq_false_of_ne heq
          rw [if_neg hgt, hfalse]
          rfl

set_option maxRecDepth 8000 in
private theorem tall_spec : ∀ a : UInt8, 0x80 ≤ a →
    escape a = none ∧ ¬ a < 0x1F ∧ a ≠ DQUOTE ∧ a ≠ BACKSLASH ∧ ¬ a ≤ 0x1F := by
  apply forall_byte
  decide

private theorem emit_tall {a : UInt8} {w rest : Bytes} (ha : 0x80 ≤ a)
    (hvalid : utf8_validate_cz (a :: w ++ rest) = (a :: w).length) :
    emit_char (a :: w ++ rest) = .ok (a :: w, rest) := by
  obtain ⟨hescape, hlt, -⟩ := tall_spec a ha
  have hne : ¬ (a < 0x1F ∨ a ≥ 0x80 ∧ escape_unicode = true) := by
    rintro (h | ⟨-, h⟩)
    · exact hlt h
    · nomatch h
  unfold emit_char
  simp only [hvalid]
  show (match escape a with
    | some e => _
    | none => if (a :: w).length = 0 then _
      else if a < 0x1F ∨ a ≥ 0x80 ∧ escape_unicode = true then _ else _) = _
  have hlen : (a :: w).length ≠ 0 := Nat.succ_ne_zero _
  rw [hescape]
  dsimp only
  rw [if_neg hlen, if_neg hne, List.take_left' rfl, List.drop_left' rfl]

private theorem parse_tall {a : UInt8} {w rest : Bytes} (ha : 0x80 ≤ a)
    (hvalid : utf8_validate_cz (a :: w ++ rest) = (a :: w).length) :
    parse_char (a :: w ++ rest) = .ok (a :: w, rest) := by
  obtain ⟨-, -, -, hslash, hgt⟩ := tall_spec a ha
  unfold parse_char
  simp only [hvalid]
  show (if a = BACKSLASH then _ else if a ≤ 0x1F then _
    else if (a :: w).length = 0 then _ else _) = _
  have hlen : (a :: w).length ≠ 0 := Nat.succ_ne_zero _
  rw [if_neg hslash, if_neg hgt, if_neg hlen, List.take_left' rfl, List.drop_left' rfl]

variable {c : Char}

private theorem encodeChar_nonzero (hc : c ≠ Char.ofNat 0) {a : UInt8}
    (ha : String.utf8EncodeChar c = [a]) : a ≠ NUL := by
  have := encodeChar_head hc []
  rw [ha] at this
  exact this

private theorem written_tall {a : UInt8} {w : Bytes} (ha : 0x80 ≤ a) :
    written (a :: w) = a :: w := by
  obtain ⟨hescape, hlt, -⟩ := tall_spec a ha
  cases w with
  | nil => simp only [written, hescape, if_neg hlt]
  | cons b w => rfl

/-- A character is written so that it comes back, except for one. -/
private theorem emit_encodeChar (c : Char) (rest : Bytes) :
    emit_char (String.utf8EncodeChar c ++ rest) =
      .ok (written (String.utf8EncodeChar c), rest) := by
  have hvalid := validate_encodeChar c rest
  rcases encodeChar_cases c with ⟨a, ha, hc⟩ | ⟨a, w, hc, hw⟩
  · rw [hc]
    exact emit_ascii ha rest
  · rw [hc] at hvalid ⊢
    have ha := hw a List.mem_cons_self
    rw [written_tall ha]
    exact emit_tall ha hvalid

private theorem parse_encodeChar (hc : c ≠ Char.ofNat 0) (rest : Bytes) :
    charAt (written (String.utf8EncodeChar c) ++ rest) 0 ≠ DQUOTE ∧
      parse_char (written (String.utf8EncodeChar c) ++ rest) =
        reading (garbled (String.utf8EncodeChar c)) (String.utf8EncodeChar c, rest) := by
  have hvalid := validate_encodeChar c rest
  rcases encodeChar_cases c with ⟨a, ha, heq⟩ | ⟨a, w, heq, hw⟩
  · have hnul := encodeChar_nonzero hc heq
    rw [heq]
    exact parse_ascii ha hnul rest
  · rw [heq] at hvalid ⊢
    have ha := hw a List.mem_cons_self
    have hfalse : garbled (a :: w) = false := by
      rw [garbled, List.any_eq_false]
      intro b hb hus
      have := hw b hb
      rw [eq_of_beq hus] at this
      exact absurd this (by decide)
    rw [hfalse, written_tall ha]
    obtain ⟨-, -, hquote, -⟩ := tall_spec a ha
    exact ⟨hquote, parse_tall ha hvalid⟩

/-! ### Whole strings -/

variable {cs : List Char}

private theorem validateLoop_flatMap (n : Nat) (hcs : Char.ofNat 0 ∉ cs) :
    validateLoop n (cs.flatMap String.utf8EncodeChar) = true := by
  induction n generalizing cs with
  | zero => rfl
  | succ n ih =>
      cases cs with
      | nil => rfl
      | cons c cs =>
          rw [List.mem_cons, not_or] at hcs
          have hvalid := validate_encodeChar c (cs.flatMap String.utf8EncodeChar)
          have hpos : (String.utf8EncodeChar c).length ≠ 0 :=
            List.length_eq_zero_iff.not.mpr String.utf8EncodeChar_ne_nil
          rw [List.flatMap_cons, validateLoop, if_neg (encodeChar_head (Ne.symm hcs.1) _)]
          dsimp only
          rw [hvalid, if_neg hpos, List.drop_left' rfl]
          exact ih hcs.2

private theorem emit_chars_flatMap {n : Nat} (hcs : Char.ofNat 0 ∉ cs) (hn : cs.length ≤ n) :
    emit_chars n (cs.flatMap String.utf8EncodeChar) =
      .ok (cs.flatMap fun c => written (String.utf8EncodeChar c)) := by
  induction cs generalizing n with
  | nil => cases n <;> rfl
  | cons c cs ih =>
      obtain ⟨n, rfl⟩ : ∃ m, n = m + 1 := ⟨n - 1, by rw [List.length_cons] at hn; omega⟩
      rw [List.mem_cons, not_or] at hcs
      rw [List.flatMap_cons, emit_chars, if_neg (encodeChar_head (Ne.symm hcs.1) _),
        emit_encodeChar c]
      show (do
        let outs ← emit_chars n (cs.flatMap String.utf8EncodeChar)
        .ok (written (String.utf8EncodeChar c) ++ outs)) = _
      rw [ih hcs.2 (Nat.le_of_succ_le_succ hn)]
      rfl

private theorem parse_chars_flatMap {n : Nat} (hcs : Char.ofNat 0 ∉ cs) (hn : cs.length < n)
    (rest : Bytes) :
    parse_chars n (cs.flatMap (fun c => written (String.utf8EncodeChar c)) ++ DQUOTE :: rest) =
      reading (garbled (cs.flatMap String.utf8EncodeChar))
        (cs.flatMap String.utf8EncodeChar, rest) := by
  induction cs generalizing n with
  | nil =>
      obtain ⟨n, rfl⟩ : ∃ m, n = m + 1 := ⟨n - 1, by omega⟩
      rfl
  | cons c cs ih =>
      obtain ⟨n, rfl⟩ : ∃ m, n = m + 1 := ⟨n - 1, by omega⟩
      rw [List.mem_cons, not_or] at hcs
      obtain ⟨hquote, hparse⟩ := parse_encodeChar (Ne.symm hcs.1)
        (cs.flatMap (fun c => written (String.utf8EncodeChar c)) ++ DQUOTE :: rest)
      rw [List.flatMap_cons, List.append_assoc, parse_chars, if_neg hquote, hparse,
        List.flatMap_cons, garbled_append]
      cases garbled (String.utf8EncodeChar c) with
      | true => rfl
      | false =>
          show (do
            let (bs, s) ← parse_chars n
              (cs.flatMap (fun c => written (String.utf8EncodeChar c)) ++ DQUOTE :: rest)
            .ok (String.utf8EncodeChar c ++ bs, s)) = _
          rw [ih hcs.2 (Nat.lt_of_succ_lt_succ hn), Bool.false_or]
          cases garbled (cs.flatMap String.utf8EncodeChar) <;> rfl

private theorem length_written_pos (c : Char) : 0 < (written (String.utf8EncodeChar c)).length := by
  rcases encodeChar_cases c with ⟨a, -, hc⟩ | ⟨a, w, hc, hw⟩
  · rw [hc]
    unfold written
    dsimp only
    split
    · exact Nat.succ_pos _
    · split <;> exact Nat.succ_pos _
  · rw [hc, written_tall (hw a List.mem_cons_self)]
    exact Nat.succ_pos _

private theorem length_le_chars {f : Char → Bytes} (hf : ∀ c, 0 < (f c).length) :
    cs.length ≤ (cs.flatMap f).length := by
  induction cs with
  | nil => exact Nat.le_refl _
  | cons c cs ih =>
      have := hf c
      rw [List.flatMap_cons, List.length_append, List.length_cons]
      omega

/-- A string is written in quotes, and it is read back unless a unit separator is in it. -/
theorem emit_string_reads {s : Bytes} (h : Utf8 s) :
    ∃ out, emit_string s = .ok (DQUOTE :: out) ∧ ∀ rest,
      parse_string (DQUOTE :: out ++ rest) = reading (garbled s) (s, rest) := by
  obtain ⟨cs, hcs, rfl⟩ := h
  have hlength : cs.length ≤ (cs.flatMap String.utf8EncodeChar).length :=
    length_le_chars fun _ => List.length_pos_iff.mpr String.utf8EncodeChar_ne_nil
  have hwritten : cs.length ≤ (cs.flatMap fun c => written (String.utf8EncodeChar c)).length :=
    length_le_chars length_written_pos
  refine ⟨cs.flatMap (fun c => written (String.utf8EncodeChar c)) ++ [DQUOTE], ?_, ?_⟩
  · rw [emit_string, utf8_validate, validateLoop_flatMap _ hcs, emit_chars_flatMap hcs hlength]
    rfl
  · intro rest
    show parse_chars _ (_ ++ [DQUOTE] ++ rest) = _
    rw [List.append_assoc]
    apply parse_chars_flatMap hcs
    simp only [List.length_cons, List.length_append]
    omega

/-! ## Numbers are read back -/

/-- What may be behind a value. -/
def Follows (rest : Bytes) : Prop :=
  rest = [] ∨ ∃ c s, rest = c :: s ∧ (c = COMMA ∨ c = RBRACKET ∨ c = RBRACE)

/-- The number has a text that is a number of the grammar, and it is read from it. -/
def Numbers.ReadsBack (N : Numbers ν) (n : ν) : Prop :=
  number_is_valid (N.g16 n) = true ∧ parse_number (N.text n) = .ok [] ∧
    ∀ rest, Follows rest → N.strtod (N.text n ++ rest) = n

/-- The character that follows a value belongs to no number, and it is not a space. -/
theorem Follows.head {rest : Bytes} (h : Follows rest) :
    isDigit (charAt rest 0) = false ∧ charAt rest 0 ≠ DASH ∧ charAt rest 0 ≠ DOT ∧
      charAt rest 0 ≠ 69 ∧ charAt rest 0 ≠ 101 ∧ is_space (charAt rest 0) = false := by
  have hhead : charAt rest 0 = NUL ∨ charAt rest 0 = COMMA ∨ charAt rest 0 = RBRACKET ∨
      charAt rest 0 = RBRACE := by
    rcases h with rfl | ⟨c, s, rfl, hc⟩
    · exact .inl rfl
    · exact .inr hc
  rcases hhead with h | h | h | h
  · rw [h]; decide
  · rw [h]; decide
  · rw [h]; decide
  · rw [h]; decide

private theorem charAt_append {s : Bytes} (hs : s ≠ []) (rest : Bytes) :
    charAt (s ++ rest) 0 = charAt s 0 := by
  cases s with
  | nil => exact absurd rfl hs
  | cons c s => rfl

private theorem ne_nil_of_digit {s : Bytes} (h : isDigit (charAt s 0) = true) : s ≠ [] := by
  rintro rfl
  nomatch h

private theorem dropWhile_append {p : UInt8 → Bool} {rest : Bytes}
    (h : p (charAt rest 0) = false) (s : Bytes) :
    (s ++ rest).dropWhile p = s.dropWhile p ++ rest := by
  induction s with
  | nil =>
      cases rest with
      | nil => rfl
      | cons c rest => exact List.dropWhile_cons_of_neg (Bool.eq_false_iff.mp h)
  | cons c s ih =>
      rw [List.cons_append, List.dropWhile_cons, List.dropWhile_cons]
      split
      · exact ih
      · rfl

/-- The part of a number is the same with a text behind it that may follow a value. -/
def Local (f : Bytes → Except Stop Bytes) : Prop :=
  ∀ s u rest, Follows rest → f s = .ok u → f (s ++ rest) = .ok (u ++ rest)

private theorem local_sign : Local sign := by
  intro s u rest hrest h
  obtain ⟨-, hdash, -⟩ := hrest.head
  cases h
  rw [sign]
  by_cases hs : s = []
  · subst hs
    rw [List.nil_append, if_neg hdash]
    rfl
  · rw [charAt_append hs, List.tail_append_of_ne_nil hs]
    split <;> rfl

private theorem local_digits : Local digits := by
  intro s u rest hrest h
  obtain ⟨hdigit, -⟩ := hrest.head
  rw [digits] at h ⊢
  cases hs : isDigit (charAt s 0) with
  | false =>
      rw [hs] at h
      nomatch h
  | true =>
      rw [hs] at h
      cases h
      rw [charAt_append (ne_nil_of_digit hs), hs]
      exact congrArg Except.ok (dropWhile_append hdigit s)

private theorem local_integer : Local integer := by
  intro s u rest hrest h
  by_cases hs : s = []
  · subst hs
    nomatch h
  · rw [integer] at h ⊢
    rw [charAt_append hs, List.tail_append_of_ne_nil hs]
    split
    · next hzero =>
        rw [if_pos hzero] at h
        cases h
        rfl
    · next hzero =>
        rw [if_neg hzero] at h
        exact local_digits s u rest hrest h

private theorem local_fraction : Local fraction := by
  intro s u rest hrest h
  obtain ⟨-, -, hdot, -⟩ := hrest.head
  by_cases hs : s = []
  · subst hs
    cases h
    rw [fraction, List.nil_append, if_neg hdot]
  · rw [fraction] at h ⊢
    rw [charAt_append hs, List.tail_append_of_ne_nil hs]
    split
    · next hdot =>
        rw [if_pos hdot] at h
        exact local_digits s.tail u rest hrest h
    · next hdot =>
        rw [if_neg hdot] at h
        cases h
        rfl

private theorem local_exponent : Local exponent := by
  intro s u rest hrest h
  obtain ⟨-, -, -, he, he', -⟩ := hrest.head
  by_cases hs : s = []
  · subst hs
    cases h
    rw [exponent, List.nil_append, if_neg (not_or.mpr ⟨he, he'⟩)]
  · rw [exponent] at h ⊢
    rw [charAt_append hs, List.tail_append_of_ne_nil hs]
    split
    · next hexp =>
        rw [if_pos hexp] at h
        dsimp only at h ⊢
        by_cases hs' : s.tail = []
        · rw [hs'] at h
          nomatch h
        · rw [charAt_append hs', List.tail_append_of_ne_nil hs']
          split
          · next hsign =>
              rw [if_pos hsign] at h
              exact local_digits s.tail.tail u rest hrest h
          · next hsign =>
              rw [if_neg hsign] at h
              exact local_digits s.tail u rest hrest h
    · next hexp =>
        rw [if_neg hexp] at h
        cases h
        rfl

private theorem local_parse_number : Local parse_number := by
  intro s u rest hrest h
  obtain ⟨s₁, h₁, h⟩ := Except.ok_of_bind h
  obtain ⟨s₂, h₂, h⟩ := Except.ok_of_bind h
  obtain ⟨s₃, h₃, h₄⟩ := Except.ok_of_bind h
  rw [parse_number, local_sign s s₁ rest hrest h₁]
  show (integer (s₁ ++ rest) >>= _) = _
  rw [local_integer s₁ s₂ rest hrest h₂]
  show (fraction (s₂ ++ rest) >>= _) = _
  rw [local_fraction s₂ s₃ rest hrest h₃]
  exact local_exponent s₃ u rest hrest h₄

/-! ## Values are read back -/

mutual

/-- The strings of a value, and the names of members. -/
def strings : Json ν → List Bytes
  | .string s => [s]
  | .array es => stringsOfElements es
  | .object ms => stringsOfMembers ms
  | _ => []

def stringsOfElements : List (Json ν) → List Bytes
  | [] => []
  | e :: es => e.strings ++ stringsOfElements es

def stringsOfMembers : List (Bytes × Json ν) → List Bytes
  | [] => []
  | (key, v) :: ms => key :: v.strings ++ stringsOfMembers ms

end

mutual

/-- The numbers of a value. -/
def numbers : Json ν → List ν
  | .number n => [n]
  | .array es => numbersOfElements es
  | .object ms => numbersOfMembers ms
  | _ => []

def numbersOfElements : List (Json ν) → List ν
  | [] => []
  | e :: es => e.numbers ++ numbersOfElements es

def numbersOfMembers : List (Bytes × Json ν) → List ν
  | [] => []
  | (_, v) :: ms => v.numbers ++ numbersOfMembers ms

end

/-- Some of the strings has a unit separator in it. -/
def anyGarbled (ss : List Bytes) : Bool := ss.any garbled

private theorem anyGarbled_append (ss ss' : List Bytes) :
    anyGarbled (ss ++ ss') = (anyGarbled ss || anyGarbled ss') := List.any_append

private theorem anyGarbled_cons (s : Bytes) (ss : List Bytes) :
    anyGarbled (s :: ss) = (garbled s || anyGarbled ss) := rfl

/-- The text starts with a character that is no space and does not close anything. -/
def Opens (out : Bytes) : Prop :=
  ∃ c s, out = c :: s ∧ is_space c = false ∧ c ≠ RBRACKET ∧ c ≠ RBRACE

private theorem skip_space_of_head {s : Bytes} (h : is_space (charAt s 0) = false) :
    skip_space s = s := by
  cases s with
  | nil => rfl
  | cons c s => exact List.dropWhile_cons_of_neg (Bool.eq_false_iff.mp h)

private theorem Follows.skip {rest : Bytes} (h : Follows rest) : skip_space rest = rest := by
  obtain ⟨-, -, -, -, -, hspace⟩ := h.head
  exact skip_space_of_head hspace

private theorem expect_literal_append (lit rest : Bytes) :
    expect_literal (lit ++ rest) lit = .ok rest := by
  rw [expect_literal, if_pos (List.isPrefixOf_iff_prefix.mpr (List.prefix_append lit rest)),
    List.drop_left' rfl]

/-! ### What a value starts with -/

variable {N : Numbers ν} {n : Nat}

attribute [local simp] parse_value in
private theorem parse_value_null (rest : Bytes) :
    parse_value N (n + 1) (str "null" ++ rest) = .ok (.null, rest) := by
  rw [parse_value]
  show (expect_literal (str "null" ++ rest) (str "null") >>= _) = _
  rw [expect_literal_append]
  rfl

private theorem parse_value_bool (b : Bool) (rest : Bytes) :
    parse_value N (n + 1) ((if b then str "true" else str "false") ++ rest) =
      .ok (.bool b, rest) := by
  rw [parse_value]
  cases b with
  | true =>
      show (expect_literal (str "true" ++ rest) (str "true") >>= _) = _
      rw [expect_literal_append]
      rfl
  | false =>
      show (expect_literal (str "false" ++ rest) (str "false") >>= _) = _
      rw [expect_literal_append]
      rfl

private theorem parse_value_string (s : Bytes) :
    parse_value N (n + 1) (DQUOTE :: s) = (do
      let (b, s) ← parse_string (DQUOTE :: s)
      .ok (.string b, s)) := by
  rw [parse_value]
  rfl

private theorem parse_value_array {s : Bytes} (h : charAt (skip_space s) 0 ≠ RBRACKET) :
    parse_value N (n + 1) (LBRACKET :: s) = (do
      let (es, s) ← parse_elements N n (skip_space s)
      .ok (.array es, s)) := by
  rw [parse_value]
  show (if charAt (skip_space s) 0 = RBRACKET then _ else _) = _
  rw [if_neg h]
  rfl

private theorem parse_value_object {s : Bytes} (h : charAt (skip_space s) 0 ≠ RBRACE) :
    parse_value N (n + 1) (LBRACE :: s) = (do
      let (ms, s) ← parse_members N n (skip_space s)
      .ok (.object ms, s)) := by
  rw [parse_value]
  show (if charAt (skip_space s) 0 = RBRACE then _ else _) = _
  rw [if_neg h]
  rfl

private theorem head_of_number {s u : Bytes} (h : parse_number s = .ok u) :
    isDigit (charAt s 0) = true ∨ charAt s 0 = DASH := by
  obtain ⟨s₁, h₁, h⟩ := Except.ok_of_bind h
  obtain ⟨s₂, h₂, -⟩ := Except.ok_of_bind h
  cases h₁
  by_cases hdash : charAt s 0 = DASH
  · exact .inr hdash
  · left
    rw [if_neg hdash, integer] at h₂
    by_cases hzero : charAt s 0 = 48
    · rw [hzero]
      rfl
    · rw [if_neg hzero, digits] at h₂
      cases hdigit : isDigit (charAt s 0) with
      | true => rfl
      | false =>
          rw [hdigit] at h₂
          nomatch h₂

set_option maxRecDepth 8000 in
private theorem number_head : ∀ c : UInt8, isDigit c = true ∨ c = DASH → c ≠ 110 ∧ c ≠ 102 ∧
    c ≠ 116 ∧ c ≠ DQUOTE ∧ c ≠ LBRACKET ∧ c ≠ LBRACE ∧ is_space c = false ∧ c ≠ RBRACKET ∧
    c ≠ RBRACE := by
  apply forall_byte
  decide

private theorem parse_value_number {s u : Bytes} (h : parse_number s = .ok u) :
    parse_value N (n + 1) s = .ok (.number (N.strtod s), u) := by
  obtain ⟨h₁, h₂, h₃, h₄, h₅, h₆, -⟩ := number_head _ (head_of_number h)
  rw [parse_value]
  simp only [h₁, h₂, h₃, h₄, h₅, h₆, if_false, h]
  rfl

/-- The text of a value, and how it is read. -/
def Reads (N : Numbers ν) (o : Json ν) (out : Bytes) : Prop :=
  emit_value N o = .ok out ∧ Opens out ∧ ∀ n rest, out.length ≤ n → Follows rest →
    parse_value N n (out ++ rest) = reading (anyGarbled o.strings) (o, rest)

private theorem Opens.append {out : Bytes} (h : Opens out) (rest : Bytes) :
    Opens (out ++ rest) := by
  obtain ⟨c, s, rfl, hc⟩ := h
  exact ⟨c, s ++ rest, rfl, hc⟩

private theorem Opens.skip {out : Bytes} (h : Opens out) : skip_space out = out := by
  obtain ⟨c, s, rfl, hspace, -⟩ := h
  exact skip_space_of_head hspace

private theorem Opens.head {out : Bytes} (h : Opens out) :
    charAt out 0 ≠ RBRACKET ∧ charAt out 0 ≠ RBRACE := by
  obtain ⟨c, s, rfl, -, hclose⟩ := h
  exact hclose

private theorem reads_of {o : Json ν} {out : Bytes} (hemit : emit_value N o = .ok out)
    (hopens : Opens out) (h : ∀ n rest, out.length ≤ n + 1 → Follows rest →
      parse_value N (n + 1) (out ++ rest) = reading (anyGarbled o.strings) (o, rest)) :
    Reads N o out := by
  refine ⟨hemit, hopens, ?_⟩
  intro n rest hn hrest
  obtain ⟨c, s, rfl, -⟩ := hopens
  obtain ⟨n, rfl⟩ : ∃ m, n = m + 1 := ⟨n - 1, by rw [List.length_cons] at hn; omega⟩
  exact h n rest hn hrest

attribute [local simp] emit_value in
private theorem reads_null : Reads N .null (str "null") :=
  reads_of (by rw [emit_value]) ⟨_, _, rfl, by decide, by decide, by decide⟩
    fun _ rest _ _ => parse_value_null rest

private theorem reads_bool (b : Bool) :
    Reads N (.bool b) (if b then str "true" else str "false") := by
  refine reads_of (by rw [emit_value]) ?_ fun _ rest _ _ => parse_value_bool b rest
  cases b with
  | true => exact ⟨_, _, rfl, by decide, by decide, by decide⟩
  | false => exact ⟨_, _, rfl, by decide, by decide, by decide⟩

private theorem reads_string {s : Bytes} (h : Utf8 s) : ∃ out, Reads N (.string s) out := by
  obtain ⟨out, hemit, hparse⟩ := emit_string_reads h
  refine ⟨_, reads_of (by rw [emit_value]; exact hemit)
    ⟨_, _, rfl, by decide, by decide, by decide⟩ ?_⟩
  intro n rest _ _
  rw [List.cons_append, parse_value_string, ← List.cons_append, hparse, strings, anyGarbled,
    List.any_cons, List.any_nil, Bool.or_false]
  cases garbled s <;> rfl

private theorem reads_number {m : ν} (h : N.ReadsBack m) : ∃ out, Reads N (.number m) out := by
  obtain ⟨hvalid, hparse, hstrtod⟩ := h
  refine ⟨N.text m, reads_of ?_ ?_ ?_⟩
  · rw [emit_value, emit_number, if_pos hvalid]
  · obtain ⟨-, -, -, -, -, -, hspace, hclose⟩ := number_head _ (head_of_number hparse)
    cases htext : N.text m with
    | nil =>
        rw [htext] at hparse
        nomatch hparse
    | cons c s =>
        rw [htext] at hspace hclose
        exact ⟨c, s, rfl, hspace, hclose⟩
  · intro n rest _ hrest
    rw [parse_value_number (local_parse_number _ _ rest hrest hparse), hstrtod rest hrest]
    rfl

private theorem reads_array_nil : Reads N (.array []) [LBRACKET, RBRACKET] := by
  refine reads_of (by rw [emit_value, emit_elements]; rfl)
    ⟨_, _, rfl, by decide, by decide, by decide⟩ ?_
  intro n rest _ _
  rw [parse_value]
  rfl

private theorem reads_object_nil : Reads N (.object []) [LBRACE, RBRACE] := by
  refine reads_of (by rw [emit_value, emit_members]; rfl)
    ⟨_, _, rfl, by decide, by decide, by decide⟩ ?_
  intro n rest _ _
  rw [parse_value]
  rfl

/-- The text of the elements of an array that is not empty, and how it is read. -/
def ReadsElements (N : Numbers ν) (es : List (Json ν)) (out : Bytes) : Prop :=
  emit_elements N es = .ok out ∧ Opens out ∧ ∀ n rest, out.length < n →
    parse_elements N n (out ++ RBRACKET :: rest) =
      reading (anyGarbled (stringsOfElements es)) (es, rest)

/-- The text of the members of an object that is not empty, and how it is read. -/
def ReadsMembers (N : Numbers ν) (ms : List (Bytes × Json ν)) (out : Bytes) : Prop :=
  emit_members N ms = .ok out ∧ Opens out ∧ ∀ n rest, out.length < n →
    parse_members N n (out ++ RBRACE :: rest) =
      reading (anyGarbled (stringsOfMembers ms)) (ms, rest)

private theorem reads_array {es : List (Json ν)} {out : Bytes} (h : ReadsElements N es out) :
    Reads N (.array es) (LBRACKET :: out ++ [RBRACKET]) := by
  obtain ⟨hemit, hopens, hparse⟩ := h
  refine reads_of (by rw [emit_value, hemit]; rfl) ⟨_, _, rfl, by decide, by decide, by decide⟩ ?_
  intro n rest hn _
  simp only [List.length_append, List.length_cons, List.length_nil] at hn
  have hinner := hopens.append (RBRACKET :: rest)
  have hskip := hinner.skip
  rw [List.append_assoc, List.cons_append, List.cons_append, List.nil_append, parse_value_array
    (by rw [hskip]; exact hinner.head.1), hskip, hparse n rest (by omega), strings]
  cases anyGarbled (stringsOfElements es) <;> rfl

private theorem reads_object {ms : List (Bytes × Json ν)} {out : Bytes}
    (h : ReadsMembers N ms out) : Reads N (.object ms) (LBRACE :: out ++ [RBRACE]) := by
  obtain ⟨hemit, hopens, hparse⟩ := h
  refine reads_of (by rw [emit_value, hemit]; rfl) ⟨_, _, rfl, by decide, by decide, by decide⟩ ?_
  intro n rest hn _
  simp only [List.length_append, List.length_cons, List.length_nil] at hn
  have hinner := hopens.append (RBRACE :: rest)
  have hskip := hinner.skip
  rw [List.append_assoc, List.cons_append, List.cons_append, List.nil_append, parse_value_object
    (by rw [hskip]; exact hinner.head.2), hskip, hparse n rest (by omega), strings]
  cases anyGarbled (stringsOfMembers ms) <;> rfl

private theorem elements_single {e : Json ν} {out : Bytes} (h : Reads N e out) :
    ReadsElements N [e] out := by
  obtain ⟨hemit, hopens, hparse⟩ := h
  refine ⟨?_, hopens, ?_⟩
  · rw [emit_elements, hemit, emit_elements]
    show Except.ok (out ++ [] ++ []) = _
    rw [List.append_nil, List.append_nil]
  · intro n rest hn
    obtain ⟨n, rfl⟩ : ∃ m, n = m + 1 := ⟨n - 1, by omega⟩
    have hfollows : Follows (RBRACKET :: rest) := .inr ⟨_, _, rfl, .inr (.inl rfl)⟩
    rw [parse_elements, hparse n _ (by omega) hfollows, stringsOfElements, stringsOfElements,
      List.append_nil]
    cases anyGarbled e.strings <;> rfl

private theorem elements_cons {e e' : Json ν} {es : List (Json ν)} {out outs : Bytes}
    (h : Reads N e out) (hs : ReadsElements N (e' :: es) outs) :
    ReadsElements N (e :: e' :: es) (out ++ [COMMA] ++ outs) := by
  obtain ⟨hemit, hopens, hparse⟩ := h
  obtain ⟨hemits, hopens', hparses⟩ := hs
  refine ⟨by rw [emit_elements, hemit, hemits]; rfl, (hopens.append _).append _, ?_⟩
  intro n rest hn
  simp only [List.length_append, List.length_cons, List.length_nil] at hn
  obtain ⟨n, rfl⟩ : ∃ m, n = m + 1 := ⟨n - 1, by omega⟩
  have hfollows : Follows (COMMA :: (outs ++ RBRACKET :: rest)) := .inr ⟨_, _, rfl, .inl rfl⟩
  rw [List.append_assoc, List.append_assoc, List.cons_append, List.nil_append, parse_elements,
    hparse n _ (by omega) hfollows, stringsOfElements, anyGarbled_append]
  cases anyGarbled e.strings with
  | true => rfl
  | false =>
      show (parse_elements N n (skip_space (outs ++ RBRACKET :: rest)) >>= _) = _
      rw [(hopens'.append _).skip, hparses n rest (by omega), Bool.false_or]
      cases anyGarbled (stringsOfElements (e' :: es)) <;> rfl

/-- What is done with a member, once its name and its value are read. -/
private theorem parse_members_member {key q out : Bytes} {v : Json ν} {rest : Bytes}
    (hname : ∀ rest, parse_string (DQUOTE :: q ++ rest) = reading (garbled key) (key, rest))
    (h : Reads N v out) (hn : out.length ≤ n) (hrest : Follows rest) :
    parse_members N (n + 1) (DQUOTE :: q ++ COLON :: out ++ rest) =
      (reading (garbled key || anyGarbled v.strings) (v, rest) >>= fun p => do
        let s := skip_space p.2
        if charAt s 0 = RBRACE then .ok ([(key, p.1)], s.tail)
        else if charAt s 0 ≠ COMMA then .error .invalid
        else
          let (ms, s) ← parse_members N n (skip_space s.tail)
          .ok ((key, p.1) :: ms, s)) := by
  obtain ⟨-, hopens, hparse⟩ := h
  rw [List.append_assoc, parse_members, hname]
  cases garbled key with
  | true => rfl
  | false =>
      show (parse_value N n (skip_space (out ++ rest)) >>= _) = _
      rw [(hopens.append rest).skip, hparse n rest hn hrest, Bool.false_or]

private theorem members_single {key q out : Bytes} {v : Json ν}
    (hemit : emit_string key = .ok (DQUOTE :: q))
    (hname : ∀ rest, parse_string (DQUOTE :: q ++ rest) = reading (garbled key) (key, rest))
    (h : Reads N v out) : ReadsMembers N [(key, v)] (DQUOTE :: q ++ COLON :: out) := by
  refine ⟨?_, ⟨_, _, rfl, by decide, by decide, by decide⟩, ?_⟩
  · rw [emit_members, hemit, h.1, emit_members]
    show Except.ok (DQUOTE :: q ++ COLON :: out ++ [] ++ []) = _
    rw [List.append_nil, List.append_nil]
  · intro n rest hn
    simp only [List.length_append, List.length_cons] at hn
    obtain ⟨n, rfl⟩ : ∃ m, n = m + 1 := ⟨n - 1, by omega⟩
    have hfollows : Follows (RBRACE :: rest) := .inr ⟨_, _, rfl, .inr (.inr rfl)⟩
    rw [parse_members_member hname h (by omega) hfollows, stringsOfMembers, stringsOfMembers,
      List.append_nil, anyGarbled_cons]
    cases garbled key || anyGarbled v.strings <;> rfl

private theorem members_cons {key q out outs : Bytes} {v : Json ν} {m : Bytes × Json ν}
    {ms : List (Bytes × Json ν)} (hemit : emit_string key = .ok (DQUOTE :: q))
    (hname : ∀ rest, parse_string (DQUOTE :: q ++ rest) = reading (garbled key) (key, rest))
    (h : Reads N v out) (hs : ReadsMembers N (m :: ms) outs) :
    ReadsMembers N ((key, v) :: m :: ms) (DQUOTE :: q ++ COLON :: out ++ [COMMA] ++ outs) := by
  obtain ⟨hemits, hopens, hparses⟩ := hs
  refine ⟨by rw [emit_members, hemit, h.1, hemits]; rfl,
    ⟨_, _, rfl, by decide, by decide, by decide⟩, ?_⟩
  intro n rest hn
  simp only [List.length_append, List.length_cons, List.length_nil] at hn
  obtain ⟨n, rfl⟩ : ∃ m, n = m + 1 := ⟨n - 1, by omega⟩
  have hfollows : Follows (COMMA :: (outs ++ RBRACE :: rest)) := .inr ⟨_, _, rfl, .inl rfl⟩
  have htext : DQUOTE :: q ++ COLON :: out ++ [COMMA] ++ outs ++ RBRACE :: rest =
      DQUOTE :: q ++ COLON :: out ++ COMMA :: (outs ++ RBRACE :: rest) := by
    simp only [List.append_assoc, List.cons_append, List.nil_append]
  rw [htext, parse_members_member hname h (by omega) hfollows, stringsOfMembers,
    anyGarbled_append, anyGarbled_cons]
  cases garbled key || anyGarbled v.strings with
  | true => rfl
  | false =>
      show (parse_members N n (skip_space (outs ++ RBRACE :: rest)) >>= _) = _
      rw [(hopens.append _).skip, hparses n rest (by omega), Bool.false_or]
      cases anyGarbled (stringsOfMembers (m :: ms)) <;> rfl

/-! ### All values -/

mutual

/-- Every value has a text that is read back, or that is not accepted. -/
theorem value_reads : ∀ o : Json ν, (∀ s ∈ o.strings, Utf8 s) →
    (∀ n ∈ o.numbers, N.ReadsBack n) → ∃ out, Reads N o out
  | .null, _, _ => ⟨_, reads_null⟩
  | .bool b, _, _ => ⟨_, reads_bool b⟩
  | .string s, hs, _ => reads_string (hs s List.mem_cons_self)
  | .number n, _, hn => reads_number (hn n List.mem_cons_self)
  | .array es, hs, hn => by
      by_cases hes : es = []
      · exact ⟨_, hes ▸ reads_array_nil⟩
      · obtain ⟨out, h⟩ := elements_reads es hes hs hn
        exact ⟨_, reads_array h⟩
  | .object ms, hs, hn => by
      by_cases hms : ms = []
      · exact ⟨_, hms ▸ reads_object_nil⟩
      · obtain ⟨out, h⟩ := members_reads ms hms hs hn
        exact ⟨_, reads_object h⟩

theorem elements_reads : ∀ es : List (Json ν), es ≠ [] →
    (∀ s ∈ stringsOfElements es, Utf8 s) → (∀ n ∈ numbersOfElements es, N.ReadsBack n) →
    ∃ out, ReadsElements N es out
  | [], hne, _, _ => absurd rfl hne
  | e :: es, _, hs, hn => by
      rw [stringsOfElements] at hs
      rw [numbersOfElements] at hn
      obtain ⟨out, h⟩ := value_reads e (fun s hmem => hs s (List.mem_append_left _ hmem))
        fun n hmem => hn n (List.mem_append_left _ hmem)
      by_cases hes : es = []
      · exact ⟨out, hes ▸ elements_single h⟩
      · obtain ⟨outs, h'⟩ := elements_reads es hes
          (fun s hmem => hs s (List.mem_append_right _ hmem))
          fun n hmem => hn n (List.mem_append_right _ hmem)
        obtain ⟨e', es', rfl⟩ := List.exists_cons_of_ne_nil hes
        exact ⟨_, elements_cons h h'⟩

theorem members_reads : ∀ ms : List (Bytes × Json ν), ms ≠ [] →
    (∀ s ∈ stringsOfMembers ms, Utf8 s) → (∀ n ∈ numbersOfMembers ms, N.ReadsBack n) →
    ∃ out, ReadsMembers N ms out
  | [], hne, _, _ => absurd rfl hne
  | (key, v) :: ms, _, hs, hn => by
      rw [stringsOfMembers] at hs
      rw [numbersOfMembers] at hn
      obtain ⟨q, hemit, hname⟩ := emit_string_reads (hs key List.mem_cons_self)
      obtain ⟨out, h⟩ := value_reads v
        (fun s hmem => hs s (List.mem_cons_of_mem _ (List.mem_append_left _ hmem)))
        fun n hmem => hn n (List.mem_append_left _ hmem)
      by_cases hms : ms = []
      · exact ⟨_, hms ▸ members_single hemit hname h⟩
      · obtain ⟨outs, h'⟩ := members_reads ms hms
          (fun s hmem => hs s (List.mem_cons_of_mem _ (List.mem_append_right _ hmem)))
          fun n hmem => hn n (List.mem_append_right _ hmem)
        obtain ⟨m, ms', rfl⟩ := List.exists_cons_of_ne_nil hms
        exact ⟨_, members_cons hemit hname h h'⟩

end

/-! ## Round trips -/

/-- What is encoded is decoded to the same value, and all of the text is read. -/
def RoundTrips (N : Numbers ν) (o : Json ν) : Prop :=
  ∃ text, encode N o = .ok text ∧ Object.decode N text = .ok (o, text.length) ∧
    decode N text = .ok o

/-- A value of valid UTF-8 comes back if and only if no unit separator is in its strings or in the
names of members. -/
theorem roundTrips_iff (N : Numbers ν) (o : Json ν) (hstrings : ∀ s ∈ o.strings, Utf8 s)
    (hnumbers : ∀ n ∈ o.numbers, N.ReadsBack n) : RoundTrips N o ↔ ∀ s ∈ o.strings, US ∉ s := by
  obtain ⟨text, hemit, hopens, hparse⟩ := value_reads o hstrings hnumbers
  have hread := hparse (text.length + 1) [] (Nat.le_succ _) (.inl rfl)
  rw [List.append_nil] at hread
  have hclear : anyGarbled o.strings = false ↔ ∀ s ∈ o.strings, US ∉ s := by
    simp only [anyGarbled, garbled, List.any_eq_false, Bool.not_eq_true, beq_eq_false_iff_ne]
    exact forall₂_congr fun s _ => ⟨fun h hmem => h US hmem rfl, fun h b hb hus => h (hus ▸ hb)⟩
  rw [← hclear]
  cases hgarbled : anyGarbled o.strings with
  | true =>
      refine iff_of_false ?_ nofun
      rintro ⟨text', hemit', hdecode, -⟩
      obtain rfl : text = text' := Except.ok.inj (hemit.symm.trans hemit')
      rw [hgarbled] at hread
      rw [Object.decode, hopens.skip] at hdecode
      simp only [hread, reading] at hdecode
      nomatch hdecode
  | false =>
      refine iff_of_true ?_ rfl
      rw [hgarbled] at hread
      have hdecode : Object.decode N text = .ok (o, text.length) := by
        rw [Object.decode, hopens.skip]
        simp only [hread, reading]
        rfl
      refine ⟨text, hemit, hdecode, ?_⟩
      rw [decode, hdecode]
      exact if_neg fun h => h rfl

/-- Numbers that are natural numbers of a few digits. -/
def naturals : Numbers Nat where
  g16 := showNat
  text := showNat
  strtod s := (s.takeWhile isDigit).foldl (fun n c => 10 * n + (c.toNat - 48)) 0

/-- A member with a name that is not ASCII, for a list of which an element is a string with a line
feed. -/
def sample : Json Nat :=
  .object [([0xC3, 0xA9], .array [.null, .number 7, .string [97, LF], .bool true])]

theorem roundTrips_sample : RoundTrips naturals sample := by
  apply (roundTrips_iff naturals sample ?_ ?_).mpr
  · decide
  · intro s hs
    rcases List.mem_cons.mp hs with rfl | hs
    · exact ⟨[Char.ofNat 0xE9], by decide, by decide⟩
    · obtain rfl := List.mem_singleton.mp hs
      exact ⟨[Char.ofNat 97, Char.ofNat 10], by decide, by decide⟩
  · intro n hn
    obtain rfl := List.mem_singleton.mp hn
    refine ⟨by decide, by decide, ?_⟩
    rintro rest (rfl | ⟨c, s, rfl, rfl | rfl | rfl⟩)
    · rfl
    · rfl
    · rfl
    · rfl

/-- The unit separator is written as it is, and the parser takes it for a control character. -/
theorem not_roundTrips_us : Utf8 [US] ∧ ¬ RoundTrips naturals (.string [US]) := by
  refine ⟨⟨[Char.ofNat 0x1F], by decide, by decide⟩, ?_⟩
  rintro ⟨text, hemit, hdecode, -⟩
  have htext : emit_string [US] = .ok [DQUOTE, US, DQUOTE] := by decide
  rw [encode, emit_value, htext] at hemit
  cases hemit
  have hfails : (Object.decode naturals [DQUOTE, US, DQUOTE]).toOption.isSome = false := by
    decide
  rw [hdecode] at hfails
  nomatch hfails

end Suil.Json
