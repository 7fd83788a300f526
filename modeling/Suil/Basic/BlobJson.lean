import Suil.Basic.Buffer
import Suil.Basic.Exception
import Suil.Basic.JsonText
import Suil.Basic.Str
import Suil.Lib.Traced

set_option autoImplicit false

/-! # Blobs and data in JSON texts

A `Blob<N>` and a `Data` are encoded as their hexadecimal digits in quotes (`json.h`). The decoders
work on the cursor of `json_parser` (`iod/json.hh`), which reads on until there is a quote: the source
does not look for the end of the text. `blobRoundTrip_iff`, `blobRejects_iff`, `not_dataRoundTrip` and
`dataRejects` say what comes back. -/

namespace Suil.BlobJson

open Json (BACKSLASH)

/-- How an encoder or a decoder fails: with an error of the parser, with an exception, or with an access
outside of the text. -/
inductive Fault where
  | expected (c : UInt8)
  | exception (e : Exception)
  | overrun
  deriving DecidableEq, Repr

/-- `std::array<uint8_t, N>`. -/
structure Blob (N : Nat) where
  bytes : Bytes
  size : bytes.length = N

/-- `utils::c2i`. -/
def c2i (c : UInt8) : Except Fault UInt8 :=
  if 48 ≤ c ∧ c ≤ 57 then .ok (c - 48)
  else if 97 ≤ c ∧ c ≤ 102 then .ok (c - 87)
  else if 65 ≤ c ∧ c ≤ 70 then .ok (c - 55)
  else .error (.exception (.create 11 [str "OutOfRangeError: ",
    str "utils::c2i - character out range"]))

/-- The loop of `utils::bytes`, over so many pairs of digits. -/
def digitPairs : Nat → Bytes → Except Fault Bytes
  | 0, _ => .ok []
  | n + 1, s => do
      let high ← c2i (s.headD NUL)
      let low ← c2i (s.tail.headD NUL)
      let out ← digitPairs n s.tail.tail
      .ok ((high <<< 4 ||| low) :: out)

/-- `utils::bytes(str, out, olen)`, what it stores at `out`. -/
def bytes (s : Str) (olen : Nat) : Except Fault Bytes :=
  if olen < s.len / 2 then
    .error (.exception (.create 0 [str "utils::bytes - output buffer invalid"]))
  else digitPairs (s.len / 2) (s.mem.getD [])

/-- The text of `utils::hexstr(buf, len)`; the size of a `String` has 32 bits. -/
def hexstr (data : Bytes) : Bytes :=
  (OBuffer.hexDigits false data).take (2 * data.length % OBuffer.UINT32)

/-- `json_encode_` of a `stringview`, whose `size()` is an `int`. -/
def encode (s : Bytes) : Except Fault Bytes :=
  if 2 ^ 31 ≤ s.length then .error .overrun else .ok (DQUOTE :: (s ++ [DQUOTE]))

/-- `Blob<N>::toJson`. -/
def Blob.toJson {N : Nat} (b : Blob N) : Except Fault Bytes := encode (hexstr b.bytes)

/-- `json_encode_` of a `Data`. -/
def encodeData (d : Bytes) : Except Fault Bytes := encode (hexstr d)

/-! ## The cursor -/

/-- `json_parser`. -/
structure Parser where
  str : Bytes
  pos : Nat

/-- `operator>>(char)`. -/
def Parser.expect (p : Parser) (c : UInt8) : Except Fault Parser :=
  if p.str.getD p.pos NUL = c then .ok { p with pos := p.pos + 1 } else .error (.expected c)

/-- The characters in front of a quote that has an even number of backslashes in front of it; `odd`
says whether the number is odd so far. -/
def quoteAt : Bool → Bytes → Option Nat
  | _, [] => none
  | odd, c :: s =>
      if c = DQUOTE ∧ odd = false then some 0
      else (quoteAt (c = BACKSLASH && !odd) s).map (· + 1)

/-- The loop that looks for `end`, from `pos` on. -/
def Parser.textLength (p : Parser) : Except Fault Nat :=
  match if p.str.drop p.pos = [] then some 0 else quoteAt false (p.str.drop p.pos) with
  | some n => .ok n
  | none => .error .overrun

/-- `fill<suil::String>`. -/
def Parser.fillString (p : Parser) : Except Fault (Str × Parser) := do
  let p ← p.expect DQUOTE
  let n ← p.textLength
  .ok (Str.dup ⟨some (p.str.drop p.pos), n % OBuffer.UINT32⟩, { p with pos := p.pos + n + 1 })

/-- `Blob<N>::fromJson`. -/
def Blob.fromJson (N : Nat) (p : Parser) : Except Fault (Blob N × Parser) := do
  let (tmp, p) ← p.fillString
  if h : tmp.len ≤ N then
    if hmem : tmp.len ≤ (tmp.mem.getD []).length then
      .ok (⟨tmp.bytes ++ List.replicate (N - tmp.len) 0, by
        rw [List.length_append, Str.bytes, List.length_take, min_eq_left hmem,
          List.length_replicate, Nat.add_sub_cancel' h]⟩, p)
    else .error .overrun
  else .error (.exception (.create 10 [str "IndexOutOfBounds: ",
    str "Source data cannot fit into blob"]))

/-- `fill<suil::Data>`; `fresh` is what the two bytes of the buffer hold that are not written. -/
def Parser.fillData (fresh : UInt8 × UInt8) (p : Parser) : Except Fault (Bytes × Parser) := do
  let p ← p.expect DQUOTE
  let n ← p.textLength
  let (tmp, _) ← p.fillString
  let out ← bytes tmp (tmp.len / 2 + 2)
  .ok (out ++ [fresh.1, fresh.2], { p with pos := p.pos + n + 1 })

/-! ## Values in a text -/

/-- What is around a value in a text: no hexadecimal digit follows on it. -/
structure Around where
  before : Bytes
  after : Bytes
  ends : ∀ c ∈ after.head?, ∃ f, c2i c = .error f

/-- The text of a string: no NUL is in it, and it goes up to the first quote that is not escaped. -/
structure Text where
  chars : Bytes
  free : NUL ∉ chars
  closed : ∀ rest, quoteAt false (chars ++ DQUOTE :: rest) = some chars.length

/-- The cursor in front of a value. -/
def Around.at (x : Around) (value : Bytes) : Parser := ⟨x.before ++ (value ++ x.after), x.before.length⟩

/-- The cursor behind the opening quote. -/
def Around.inside (x : Around) (value : Bytes) : Parser :=
  ⟨x.before ++ (value ++ x.after), x.before.length + 1⟩

/-- The cursor behind the value. -/
def Around.past (x : Around) (value : Bytes) : Parser :=
  ⟨x.before ++ (value ++ x.after), x.before.length + value.length⟩

def Text.quoted (s : Text) : Bytes := DQUOTE :: (s.chars ++ [DQUOTE])

/-- What is encoded is decoded to the same blob, up to its end. -/
def BlobRoundTrip {N : Nat} (b : Blob N) (x : Around) : Prop :=
  ∃ value, b.toJson = .ok value ∧ Blob.fromJson N (x.at value) = .ok (b, x.past value)

def DataRoundTrip (fresh : UInt8 × UInt8) (d : Bytes) (x : Around) : Prop :=
  ∃ value, encodeData d = .ok value ∧ (x.at value).fillData fresh = .ok (d, x.past value)

/-- A text that is no value of this size is not taken for one. -/
def BlobRejects (N : Nat) (s : Text) (x : Around) : Prop :=
  ∃ e, Blob.fromJson N (x.at s.quoted) = .error (.exception e)

def DataRejects (fresh : UInt8 × UInt8) (s : Text) (x : Around) : Prop :=
  ∃ f, (x.at s.quoted).fillData fresh = .error f

/-! ## Texts in quotes -/

theorem quoteAt_plain {s rest : Bytes} (h : ∀ c ∈ s, c ≠ DQUOTE ∧ c ≠ BACKSLASH) :
    quoteAt false (s ++ DQUOTE :: rest) = some s.length := by
  induction s with
  | nil => exact if_pos ⟨rfl, rfl⟩
  | cons c s ih =>
      obtain ⟨⟨hquote, hback⟩, hs⟩ := List.forall_mem_cons.mp h
      have hodd : (decide (c = BACKSLASH) && !false) = false := by
        rw [decide_eq_false hback, Bool.false_and]
      rw [List.cons_append, quoteAt, if_neg fun h => hquote h.1, hodd, ih hs]
      rfl

set_option maxRecDepth 8000 in
/-- The digits of some bytes, up to a place. -/
def digitsText (data : Bytes) (n : Nat) : Text :=
  have hplain : ∀ c ∈ (OBuffer.hexDigits false data).take n,
      c ≠ NUL ∧ c ≠ DQUOTE ∧ c ≠ BACKSLASH := by
    intro c hc
    obtain ⟨b, -, hb⟩ := List.mem_flatMap.mp (List.mem_of_mem_take hc)
    rcases List.mem_cons.mp hb with rfl | hb
    · exact forall_byte (P := fun b => OBuffer.i2c (b >>> 4 &&& 0x0F) false ≠ NUL ∧
        OBuffer.i2c (b >>> 4 &&& 0x0F) false ≠ DQUOTE ∧
        OBuffer.i2c (b >>> 4 &&& 0x0F) false ≠ BACKSLASH) (by decide) b
    · rw [List.mem_singleton.mp hb]
      exact forall_byte (P := fun b => OBuffer.i2c (b &&& 0x0F) false ≠ NUL ∧
        OBuffer.i2c (b &&& 0x0F) false ≠ DQUOTE ∧
        OBuffer.i2c (b &&& 0x0F) false ≠ BACKSLASH) (by decide) b
  { chars := (OBuffer.hexDigits false data).take n
    free := fun hmem => (hplain _ hmem).1 rfl
    closed := fun _ => quoteAt_plain fun c hc => (hplain c hc).2 }

section
variable {x : Around} {s : Text}

theorem Around.drop_at (x : Around) (value : Bytes) :
    (x.at value).str.drop (x.at value).pos = value ++ x.after := List.drop_left

theorem Around.expect_quote (x : Around) (value : Bytes) :
    (x.at (DQUOTE :: value)).expect DQUOTE = .ok (x.inside (DQUOTE :: value)) := by
  have hpeek : (x.at (DQUOTE :: value)).str.getD (x.at (DQUOTE :: value)).pos NUL = DQUOTE := by
    rw [List.getD_eq_getElem?_getD, ← List.head?_drop, x.drop_at]
    rfl
  exact if_pos hpeek

theorem Around.drop_inside (x : Around) (s : Text) :
    (x.inside s.quoted).str.drop (x.inside s.quoted).pos = s.chars ++ DQUOTE :: x.after := by
  rw [Around.inside, ← List.drop_drop, List.drop_left, Text.quoted, List.cons_append,
    List.append_assoc]
  rfl

theorem Around.textLength_inside (x : Around) (s : Text) :
    (x.inside s.quoted).textLength = .ok s.chars.length := by
  have hne : s.chars ++ DQUOTE :: x.after ≠ [] := List.append_ne_nil_of_right_ne_nil _ nofun
  rw [Parser.textLength, x.drop_inside, if_neg hne, s.closed]

/-- A copy of the first characters of a text. -/
theorem dup_text {chars : Bytes} (rest : Bytes) (h : NUL ∉ chars) {n : Nat}
    (hn : n ≤ chars.length) :
    (Str.dup ⟨some (chars ++ rest), n⟩).len = n ∧
      (Str.dup ⟨some (chars ++ rest), n⟩).mem.getD [] = chars.take n := by
  rw [Str.dup]
  dsimp only
  by_cases hzero : n = 0
  · rw [if_pos hzero, hzero]
    exact ⟨rfl, rfl⟩
  · have hcut : ((chars ++ rest).take n).takeWhile (· ≠ NUL) = chars.take n := by
      rw [List.take_append_of_le_length hn, List.takeWhile_eq_self_iff]
      exact fun c hc => decide_eq_true fun heq => h (heq ▸ List.mem_of_mem_take hc)
    rw [if_neg hzero, hcut]
    exact ⟨rfl, rfl⟩

/-- What `fill` makes of a text in quotes. -/
theorem Around.fillString_quoted (x : Around) (s : Text) : ∃ tmp : Str,
    (x.at s.quoted).fillString = .ok (tmp, x.past s.quoted) ∧
      tmp.len = s.chars.length % OBuffer.UINT32 ∧
        tmp.mem.getD [] = s.chars.take (s.chars.length % OBuffer.UINT32) := by
  have hpast : x.before.length + 1 + s.chars.length + 1 = x.before.length + s.quoted.length := by
    rw [Text.quoted, List.length_cons, List.length_append, List.length_singleton]
    omega
  have hcopy := dup_text (DQUOTE :: x.after) s.free (Nat.mod_le _ OBuffer.UINT32)
  refine ⟨_, ?_, hcopy⟩
  have hexpect : (x.at s.quoted).expect DQUOTE = .ok (x.inside s.quoted) := x.expect_quote _
  rw [Parser.fillString, hexpect, Except.bind_of_ok, x.textLength_inside, Except.bind_of_ok,
    x.drop_inside, show (x.inside s.quoted).pos = x.before.length + 1 from rfl, hpast]
  rfl

/-! ## Blobs -/

/-- A text that is not too long is copied as it is. -/
theorem Around.fromJson_fits (x : Around) (s : Text) {N : Nat}
    (h : s.chars.length % OBuffer.UINT32 ≤ N) : ∃ b : Blob N,
      Blob.fromJson N (x.at s.quoted) = .ok (b, x.past s.quoted) ∧
        b.bytes = s.chars.take (s.chars.length % OBuffer.UINT32) ++
          List.replicate (N - s.chars.length % OBuffer.UINT32) 0 := by
  obtain ⟨tmp, htmp, hlen, hmem⟩ := x.fillString_quoted s
  have hfits : tmp.len ≤ (tmp.mem.getD []).length := by
    rw [hlen, hmem, List.length_take, min_eq_left (Nat.mod_le _ _)]
  have hbytes : tmp.bytes = s.chars.take (s.chars.length % OBuffer.UINT32) := by
    rw [Str.bytes, hlen, hmem, List.take_take, min_self]
  rw [Blob.fromJson, htmp, Except.bind_of_ok]
  dsimp only
  rw [dif_pos (hlen ▸ h), dif_pos hfits]
  refine ⟨_, rfl, ?_⟩
  show tmp.bytes ++ List.replicate (N - tmp.len) 0 = _
  rw [hbytes, hlen]

theorem Around.fromJson_long (x : Around) (s : Text) {N : Nat}
    (h : N < s.chars.length % OBuffer.UINT32) :
    ∃ e, Blob.fromJson N (x.at s.quoted) = .error (.exception e) := by
  obtain ⟨tmp, htmp, hlen, -⟩ := x.fillString_quoted s
  rw [Blob.fromJson, htmp, Except.bind_of_ok]
  dsimp only
  rw [dif_neg (by rw [hlen]; exact Nat.not_le_of_lt h)]
  exact ⟨_, rfl⟩

theorem blobRejects_iff (N : Nat) (s : Text) (x : Around) :
    BlobRejects N s x ↔ N < s.chars.length % OBuffer.UINT32 := by
  refine ⟨fun ⟨e, he⟩ => ?_, fun h => x.fromJson_long s h⟩
  by_contra hfits
  obtain ⟨b, hb, -⟩ := x.fromJson_fits s (Nat.le_of_not_lt hfits)
  rw [hb] at he
  nomatch he

/-- The length of the text wraps around, and the bytes are their own digits. -/
def Wraps {N : Nat} (b : Blob N) : Prop :=
  2 * N % OBuffer.UINT32 ≤ N ∧ 2 * N % OBuffer.UINT32 < 2 ^ 31 ∧
    b.bytes = hexstr b.bytes ++ List.replicate (N - 2 * N % OBuffer.UINT32) 0

theorem hexstr_length (data : Bytes) :
    (hexstr data).length = 2 * data.length % OBuffer.UINT32 := by
  rw [hexstr, List.length_take, OBuffer.hexDigits_length, min_eq_left (Nat.mod_le _ _)]

/-- What an encoder writes is the text of the digits. -/
theorem encode_hexstr (data : Bytes) : encode (hexstr data) =
    if 2 ^ 31 ≤ 2 * data.length % OBuffer.UINT32 then .error .overrun
    else .ok (digitsText data (2 * data.length % OBuffer.UINT32)).quoted := by
  rw [encode, hexstr_length]
  rfl

theorem blobRoundTrip_iff {N : Nat} (b : Blob N) (x : Around) : BlobRoundTrip b x ↔ Wraps b := by
  -- there are two digits for each byte, and the length of the text keeps 32 bits of their number
  have hlen : (digitsText b.bytes (2 * N % OBuffer.UINT32)).chars.length =
      2 * N % OBuffer.UINT32 := by
    have := hexstr_length b.bytes
    rwa [hexstr, b.size] at this
  have hsame : (digitsText b.bytes (2 * N % OBuffer.UINT32)).chars.length % OBuffer.UINT32 =
      2 * N % OBuffer.UINT32 := by rw [hlen, Nat.mod_mod]
  unfold BlobRoundTrip
  rw [Blob.toJson, encode_hexstr, b.size]
  by_cases hlong : 2 ^ 31 ≤ 2 * N % OBuffer.UINT32
  · rw [if_pos hlong]
    refine iff_of_false (fun ⟨_, h, _⟩ => nomatch h) fun h => ?_
    exact absurd h.2.1 (Nat.not_lt_of_le hlong)
  · rw [if_neg hlong]
    by_cases hfits : 2 * N % OBuffer.UINT32 ≤ N
    · obtain ⟨b', hb', hbytes⟩ :=
        x.fromJson_fits (digitsText b.bytes (2 * N % OBuffer.UINT32)) (hsame.trans_le hfits)
      -- the digits are taken as the bytes of the blob, and the rest of it is zero
      have hdigits : b'.bytes =
          hexstr b.bytes ++ List.replicate (N - 2 * N % OBuffer.UINT32) 0 := by
        rw [hbytes, hsame, List.take_of_length_le (Nat.le_of_eq hlen), hexstr, b.size]
        rfl
      have hwraps : Wraps b ↔ b.bytes = b'.bytes := by
        rw [hdigits]
        exact ⟨fun h => h.2.2, fun h => ⟨hfits, Nat.lt_of_not_le hlong, h⟩⟩
      rw [hwraps]
      constructor
      · rintro ⟨value, hvalue, hback⟩
        cases hvalue
        rw [hb'] at hback
        injection hback with hback
        exact congrArg (fun y => y.1.bytes) hback.symm
      · intro h
        refine ⟨_, rfl, ?_⟩
        rw [hb']
        obtain ⟨bs, hbs⟩ := b
        obtain ⟨bs', hbs'⟩ := b'
        cases (show bs = bs' from h)
        rfl
    · refine iff_of_false ?_ fun h => hfits h.1
      rintro ⟨value, hvalue, hback⟩
      cases hvalue
      obtain ⟨e, he⟩ := x.fromJson_long (digitsText b.bytes (2 * N % OBuffer.UINT32))
        (hsame.symm ▸ Nat.lt_of_not_le hfits)
      rw [he] at hback
      nomatch hback

/-! ## Data -/

/-- The second quote that `fill` asks for is not there. -/
theorem Around.fillData_chars (x : Around) (s : Text) (fresh : UInt8 × UInt8) (h : s.chars ≠ []) :
    (x.at s.quoted).fillData fresh = .error (.expected DQUOTE) := by
  obtain ⟨c, cs, hc⟩ := List.exists_cons_of_ne_nil h
  have hquote : c ≠ DQUOTE := by
    rintro rfl
    have hclosed := s.closed []
    rw [hc, List.cons_append, quoteAt, if_pos ⟨rfl, rfl⟩, List.length_cons] at hclosed
    nomatch hclosed
  have hpeek : (x.inside s.quoted).str.getD (x.inside s.quoted).pos NUL = c := by
    rw [List.getD_eq_getElem?_getD, ← List.head?_drop, x.drop_inside, hc]
    rfl
  have hagain : (x.inside s.quoted).expect DQUOTE = .error (.expected DQUOTE) :=
    if_neg (hpeek ▸ hquote)
  have hexpect : (x.at s.quoted).expect DQUOTE = .ok (x.inside s.quoted) := x.expect_quote _
  rw [Parser.fillData, hexpect, Except.bind_of_ok, x.textLength_inside, Except.bind_of_ok,
    Parser.fillString, hagain]
  rfl

/-- A copy of what is behind the value starts with no digit. -/
private theorem dup_head (x : Around) (n : Nat) :
    ∃ f, c2i (((Str.dup ⟨some x.after, n⟩).mem.getD []).headD NUL) = .error f := by
  have hnul : ∃ f, c2i NUL = .error f := ⟨_, rfl⟩
  rw [Str.dup]
  dsimp only
  by_cases hn : n = 0
  · rw [if_pos hn]
    exact hnul
  · rw [if_neg hn, Option.getD_some]
    obtain ⟨n, rfl⟩ := Nat.exists_eq_succ_of_ne_zero hn
    cases hafter : x.after with
    | nil => exact hnul
    | cons c s =>
        rw [List.take_succ_cons, List.takeWhile_cons]
        split_ifs
        · exact x.ends c (by rw [hafter]; rfl)
        · exact hnul

/-- Of the empty text two bytes are made that nobody has written. -/
theorem Around.fillData_nil (x : Around) (s : Text) (fresh : UInt8 × UInt8) (h : s.chars = [])
    {d : Bytes} {p : Parser} (hd : (x.at s.quoted).fillData fresh = .ok (d, p)) : d.length = 2 := by
  have hexpect : (x.at s.quoted).expect DQUOTE = .ok (x.inside s.quoted) := x.expect_quote _
  rw [Parser.fillData, hexpect, Except.bind_of_ok, x.textLength_inside, Except.bind_of_ok] at hd
  obtain ⟨⟨tmp, q⟩, htmp, hd⟩ := Except.ok_of_bind hd
  obtain ⟨out, hout, hd⟩ := Except.ok_of_bind hd
  -- the closing quote is taken for an opening one
  obtain ⟨n, hcopy⟩ : ∃ n, tmp = Str.dup ⟨some x.after, n⟩ := by
    obtain ⟨q', hq', htmp⟩ := Except.ok_of_bind htmp
    obtain ⟨n, -, htmp⟩ := Except.ok_of_bind htmp
    have hdrop : q'.str.drop q'.pos = x.after := by
      unfold Parser.expect at hq'
      split_ifs at hq'
      cases hq'
      dsimp only
      rw [← List.drop_drop, x.drop_inside, h]
      rfl
    cases htmp
    exact ⟨_, by rw [hdrop]⟩
  have hnone : out = [] := by
    unfold bytes at hout
    split_ifs at hout
    cases hlen : tmp.len / 2 with
    | zero =>
        rw [hlen] at hout
        cases hout
        rfl
    | succ m =>
        rw [hlen, digitPairs] at hout
        obtain ⟨high, hhigh, -⟩ := Except.ok_of_bind hout
        obtain ⟨f, hf⟩ := dup_head x n
        rw [hcopy, hf] at hhigh
        nomatch hhigh
  cases hd
  rw [hnone]
  rfl

theorem dataRejects (fresh : UInt8 × UInt8) (s : Text) (x : Around) :
    s.chars = [] ∨ DataRejects fresh s x :=
  or_iff_not_imp_left.mpr fun h => ⟨_, x.fillData_chars s fresh h⟩

theorem not_dataRoundTrip (fresh : UInt8 × UInt8) (d : Bytes) (x : Around) :
    ¬ DataRoundTrip fresh d x := by
  rintro ⟨value, hvalue, hback⟩
  rw [encodeData, encode_hexstr] at hvalue
  split_ifs at hvalue
  cases hvalue
  by_cases hnil : (digitsText d (2 * d.length % OBuffer.UINT32)).chars = []
  · -- two bytes have four digits
    have htwo := x.fillData_nil _ fresh hnil hback
    have hlen := congrArg List.length hnil
    rw [show (digitsText d (2 * d.length % OBuffer.UINT32)).chars = hexstr d from rfl,
      hexstr_length, htwo] at hlen
    nomatch hlen
  · rw [x.fillData_chars _ fresh hnil] at hback
    nomatch hback

/-- **No data comes back, and a blob only where the length of its text wraps around.** A text is rejected
when it has more characters than the blob has bytes; a text that is not empty is never data. -/
theorem blobJson_codec (x : Around) :
    (∀ (N : Nat) (b : Blob N), BlobRoundTrip b x ↔ Wraps b) ∧
      (∀ (N : Nat) (s : Text), BlobRejects N s x ↔ N < s.chars.length % OBuffer.UINT32) ∧
      (∀ (fresh : UInt8 × UInt8) (d : Bytes), ¬ DataRoundTrip fresh d x) ∧
      ∀ (fresh : UInt8 × UInt8) (s : Text), s.chars = [] ∨ DataRejects fresh s x :=
  ⟨fun _ b => blobRoundTrip_iff b x, fun N s => blobRejects_iff N s x,
    fun fresh d => not_dataRoundTrip fresh d x, fun fresh s => dataRejects fresh s x⟩

end

/-- A single byte is encoded as two digits, which do not fit. -/
theorem not_blobRoundTrip_byte : ¬ ∀ (N : Nat) (b : Blob N) (x : Around), BlobRoundTrip b x := by
  intro h
  let x : Around := ⟨[], [], nofun⟩
  obtain ⟨value, hvalue, hback⟩ := h 1 ⟨[171], rfl⟩ x
  have hencode : Blob.toJson (⟨[171], rfl⟩ : Blob 1) = .ok (DQUOTE :: (str "ab" ++ [DQUOTE])) := by
    decide
  rw [hencode] at hvalue
  cases hvalue
  have hthrown : (Blob.fromJson 1 (x.at (DQUOTE :: (str "ab" ++ [DQUOTE])))).toOption.isSome =
      false := by decide
  rw [hback] at hthrown
  nomatch hthrown

end Suil.BlobJson
