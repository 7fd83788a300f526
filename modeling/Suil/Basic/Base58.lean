import Suil.Basic.BlobJson
import Suil.Lib.Positional

set_option autoImplicit false

/-! # Base 58

Byte strings and addresses in base 58 (`crypto.cpp`). The big numbers of the library are natural numbers,
and the double hash is of a type `Sha256`. `base58_codec` says which of them are read back. -/

namespace Suil.Base58

open BlobJson (Blob)
open Positional

/-- `enc_58`. -/
def enc58 : Bytes := str "123456789ABCDEFGHJKLMNPQRSTUVWXYZabcdefghijkmnopqrstuvwxyz"

/-- `encode_char`, for a value that the assertion lets through. -/
def encodeChar (val : Nat) : UInt8 := enc58.getD val NUL

/-- `decode_char`; `strchr` finds the NUL behind the characters. -/
def decodeChar (c : UInt8) : Option Nat := (enc58 ++ [NUL]).findIdx? (· = c)

/-- `BN_bin2bn`, `BN_bn2bin`. -/
def bin2bn (data : Bytes) : Nat := value 256 (data.map UInt8.toNat)
def bn2bin (bn : Nat) : Bytes := (numeral 256 bn).map UInt8.ofNat

/-! ## Encoding -/

/-- The series of divides that fills the buffer from the back; `room` is `p - buf`. -/
def divides : Nat → Nat → Bytes → Option (Nat × Bytes)
  | 0, bn, text => if bn = 0 then some (0, text) else none
  | room + 1, bn, text =>
      if bn = 0 then some (room + 1, text)
      else divides room (bn / 58) (encodeChar (bn % 58) :: text)

/-- The zero bytes in front. -/
def pads : Nat → Bytes → Bytes → Option (Nat × Bytes)
  | room, [], text => some (room, text)
  | room, c :: data, text =>
      if c = 0 then
        match room with
        | 0 => none
        | room + 1 => pads room data (encodeChar 0 :: text)
      else some (room, text)

/-- `encode_base58(buf, buflen, data, data_len)`: the text at the pointer that is returned. -/
def encodeBase58 (buflen : Nat) (data : Bytes) : Option Bytes :=
  if buflen = 0 then none
  else do
    let (room, text) ← divides (buflen - 1) (bin2bn data) []
    let (_, text) ← pads room data text
    some text

/-- `base58::encode(in, sin, out, nout)`, which gives the buffer and the data to `encode_base58` in the
other order. -/
def encode (inp out : Bytes) : Option Bytes := encodeBase58 inp.length out

/-! ## Decoding -/

/-- `raw_decode_base_n` in base 58. -/
def rawDecodeBase58 : Nat → Bytes → Option Nat
  | bn, [] => some bn
  | bn, c :: src =>
      match decodeChar c with
      | none => none
      | some val => rawDecodeBase58 (bn * 58 + val) src

/-- `base58::decode(in, sin, out, sout)`, what it stores at `out`. -/
def decode (inp : Bytes) (sout : Nat) : Option Bytes :=
  match rawDecodeBase58 0 inp with
  | none => none
  | some bn => if sout < (bn2bin bn).length then none else some (bn2bin bn)

/-! ## Addresses -/

/-- `doubleSHA256`. -/
structure Sha256 where
  digest : Bytes → Bytes
  length : ∀ p, (digest p).length = 32

def BASE58_ADDR_MAX_LEN : Nat := 36
def RIPEMD160_DIGEST_LENGTH : Nat := 20

/-- `address_bin`: a version, a hash and a checksum. -/
abbrev Address := Blob 25

/-- `base58Checksum`. -/
def base58Checksum (sha : Sha256) (buf : Bytes) : Bytes := (sha.digest buf).take 4

/-- The bytes in front of the checksum, and the checksum. -/
def Address.body (a : Address) : Bytes := a.bytes.take (1 + RIPEMD160_DIGEST_LENGTH)
def Address.csum (a : Address) : Bytes := a.bytes.drop (1 + RIPEMD160_DIGEST_LENGTH)

/-- The hash of the public key. -/
def Address.hash (a : Address) : Bytes := a.body.drop 1

/-- The address with the checksum of its body. -/
def Address.signed (sha : Sha256) (a : Address) : Address where
  bytes := a.body ++ base58Checksum sha a.body
  size := by
    rw [List.length_append, base58Checksum, Address.body, List.length_take, List.length_take, a.size,
      sha.length]
    rfl

/-- `base58::encode(const address_bin&)`. -/
def encodeAddress (sha : Sha256) (ripemd : Address) : Option Bytes :=
  encodeBase58 BASE58_ADDR_MAX_LEN (ripemd.signed sha).bytes

/-- What `addr` holds behind the bytes of a big number with zeros in front. -/
def filled (bn : Nat) (h : (bn2bin bn).length ≤ 25) : Address where
  bytes := List.replicate (25 - (bn2bin bn).length) 0 ++ bn2bin bn
  size := by rw [List.length_append, List.length_replicate, Nat.sub_add_cancel h]

/-- `base58::decode(b58, addr, vcs)`: what it returns, and `addr`. -/
def decodeAddress (sha : Sha256) (b58 : Bytes) (addr : Address) (vcs : Bool) : Bool × Address :=
  if BASE58_ADDR_MAX_LEN - 1 < b58.length then (false, addr)
  else
    match rawDecodeBase58 0 b58 with
    | none => (false, addr)
    | some bn =>
        if h : (bn2bin bn).length ≤ 25 then
          let addr := filled bn h
          if vcs && base58Checksum sha addr.bytes ≠ addr.csum then (false, addr) else (true, addr)
        else (false, addr)

/-! ## Round trips -/

/-- What is encoded is decoded to the same bytes. -/
def RoundTrip (data out : Bytes) (sout : Nat) : Prop :=
  ∃ text, encode data out = some text ∧ decode text sout = some data

/-- The same of the function behind `encode`. -/
def InnerRoundTrip (buflen : Nat) (data : Bytes) (sout : Nat) : Prop :=
  ∃ text, encodeBase58 buflen data = some text ∧ decode text sout = some data

/-- An encoded address is accepted with its checksum verified, and has the same hash. -/
def AddressRoundTrip (sha : Sha256) (a : Address) : Prop :=
  ∃ text, encodeAddress sha a = some text ∧
    ∀ addr, ∃ r, decodeAddress sha text addr true = (true, r) ∧ r.hash = a.hash

/-- The address that a text stands for. -/
def addressOf (b58 : Bytes) : Option Address :=
  if BASE58_ADDR_MAX_LEN - 1 < b58.length then none
  else
    match rawDecodeBase58 0 b58 with
    | none => none
    | some bn => if h : (bn2bin bn).length ≤ 25 then some (filled bn h) else none

/-- A text is rejected when the checksum is not the one of the body. -/
def RejectsWrong (sha : Sha256) (b58 : Bytes) : Prop :=
  ∀ a, addressOf b58 = some a → a.csum ≠ base58Checksum sha a.body →
    ∀ addr, (decodeAddress sha b58 addr true).1 = false

/-! ## The text of some bytes -/

/-- The number of zero bytes in front. -/
def zeros (data : Bytes) : Nat := (data.takeWhile (· = 0)).length

/-- The values of the characters. -/
def values (data : Bytes) : List Nat := List.replicate (zeros data) 0 ++ numeral 58 (bin2bn data)

theorem decodeChar_encodeChar {v : Nat} (h : v < 58) : decodeChar (encodeChar v) = some v := by
  have hall : ∀ v : Fin 58, decodeChar (encodeChar v) = some v.val := by decide
  exact hall ⟨v, h⟩

theorem divides_eq (room bn : Nat) (text : Bytes) : divides room bn text =
    if (numeral 58 bn).length ≤ room then
      some (room - (numeral 58 bn).length, (numeral 58 bn).map encodeChar ++ text)
    else none := by
  induction room generalizing bn text with
  | zero =>
      rw [divides]
      by_cases hbn : bn = 0
      · subst hbn
        rfl
      · rw [if_neg hbn, if_neg]
        rw [length_numeral_le_iff (by decide), Nat.pow_zero]
        omega
  | succ room ih =>
      rw [divides]
      by_cases hbn : bn = 0
      · subst hbn
        rfl
      · have hstep := numeral_step (b := 58) (by decide) hbn
        rw [if_neg hbn, ih, hstep, List.length_append, List.length_singleton, List.map_append,
          List.append_assoc, Nat.succ_sub_succ]
        simp only [Nat.succ_le_succ_iff]
        rfl

theorem pads_eq (room : Nat) (data text : Bytes) : pads room data text =
    if zeros data ≤ room then
      some (room - zeros data, List.replicate (zeros data) (encodeChar 0) ++ text)
    else none := by
  induction data generalizing room text with
  | nil =>
      cases room <;> rfl
  | cons c data ih =>
      rw [pads.eq_def]
      dsimp only
      by_cases hc : c = 0
      · have hzeros : zeros (c :: data) = zeros data + 1 := by
          rw [zeros, List.takeWhile_cons, if_pos (decide_eq_true hc), List.length_cons, zeros]
        rw [if_pos hc, hzeros]
        cases room with
        | zero => rfl
        | succ room =>
            dsimp only
            rw [ih, Nat.succ_sub_succ, List.replicate_succ', List.append_assoc]
            simp only [Nat.succ_le_succ_iff]
            rfl
      · have hzeros : zeros (c :: data) = 0 := by
          rw [zeros, List.takeWhile_cons, if_neg fun h => hc (of_decide_eq_true h)]
          rfl
        rw [if_neg hc, hzeros, if_pos (Nat.zero_le _)]
        rfl

/-- The text fits when there is room for it and the NUL. -/
theorem encodeBase58_eq (buflen : Nat) (data : Bytes) : encodeBase58 buflen data =
    if (values data).length < buflen then some ((values data).map encodeChar) else none := by
  rw [encodeBase58, values, List.length_append, List.length_replicate, List.map_append,
    List.map_replicate]
  by_cases hbuf : buflen = 0
  · rw [if_pos hbuf, if_neg (by omega)]
  · rw [if_neg hbuf, divides_eq]
    by_cases hdigits : (numeral 58 (bin2bn data)).length ≤ buflen - 1
    · rw [if_pos hdigits, Option.bind_eq_bind, Option.bind_some]
      dsimp only
      rw [pads_eq]
      by_cases hzeros : zeros data ≤ buflen - 1 - (numeral 58 (bin2bn data)).length
      · rw [if_pos hzeros, if_pos (by omega), List.append_nil]
        rfl
      · rw [if_neg hzeros, if_neg (by omega)]
        rfl
    · rw [if_neg hdigits, if_neg (by omega)]
      rfl

theorem values_lt (data : Bytes) : ∀ v ∈ values data, v < 58 := by
  rw [values, List.forall_mem_append]
  refine ⟨fun v hv => ?_, fun v hv => numeral_lt (by decide) hv⟩
  rw [List.eq_of_mem_replicate hv]
  decide

theorem rawDecodeBase58_map {vs : List Nat} (h : ∀ v ∈ vs, v < 58) (bn : Nat) :
    rawDecodeBase58 bn (vs.map encodeChar) = some (vs.foldl (fun n d => n * 58 + d) bn) := by
  induction vs generalizing bn with
  | nil => rfl
  | cons v vs ih =>
      obtain ⟨hv, hvs⟩ := List.forall_mem_cons.mp h
      rw [List.map_cons, rawDecodeBase58, decodeChar_encodeChar hv]
      exact ih hvs _

/-- The number of the text is the one of the bytes. -/
theorem rawDecodeBase58_values (data : Bytes) :
    rawDecodeBase58 0 ((values data).map encodeChar) = some (bin2bn data) := by
  rw [rawDecodeBase58_map (values_lt data)]
  exact congrArg some ((value_zeros _ _).trans (value_numeral 58 (bin2bn data)))

/-- The bytes of the number are the bytes without the zeros in front. -/
theorem bn2bin_bin2bn (data : Bytes) : bn2bin (bin2bn data) = data.dropWhile (· = 0) := by
  have hdigits : ∀ d ∈ data.map UInt8.toNat, d < 256 :=
    List.forall_mem_map.mpr fun c _ => c.toNat_lt
  have hzero : ((fun d : Nat => decide (d = 0)) ∘ UInt8.toNat) = fun c : UInt8 => decide (c = 0) := by
    funext c
    exact decide_eq_decide.mpr (UInt8.toNat_inj (b := 0))
  have hback : (UInt8.ofNat ∘ UInt8.toNat) = id := funext fun c => UInt8.ofNat_toNat
  rw [bn2bin, bin2bn, numeral_value (by decide) hdigits, List.dropWhile_map, List.map_map, hzero,
    hback, List.map_id]

theorem decode_values (data : Bytes) (sout : Nat) : decode ((values data).map encodeChar) sout =
    if sout < (data.dropWhile (· = 0)).length then none else some (data.dropWhile (· = 0)) := by
  rw [decode, rawDecodeBase58_values]
  dsimp only
  rw [bn2bin_bin2bn]

/-- There are at least as many characters as there are bytes without the zeros. -/
theorem length_dropWhile_le (data : Bytes) :
    (data.dropWhile (· = 0)).length ≤ (values data).length := by
  calc (data.dropWhile (· = 0)).length
      = (numeral 256 (bin2bn data)).length := by rw [← bn2bin_bin2bn, bn2bin, List.length_map]
    _ ≤ (numeral 58 (bin2bn data)).length := length_numeral_anti (by decide) (by decide) _
    _ ≤ (values data).length := by
        rw [values, List.length_append]
        exact Nat.le_add_left _ _

/-! ## Byte strings -/

theorem not_roundTrip (data out : Bytes) (sout : Nat) : ¬ RoundTrip data out sout := by
  rintro ⟨text, hencode, hdecode⟩
  rw [encode, encodeBase58_eq] at hencode
  split_ifs at hencode with hroom
  cases hencode
  rw [decode_values] at hdecode
  split_ifs at hdecode
  -- the text would be shorter than the bytes that it stands for
  have hlen := congrArg List.length (Option.some.inj hdecode)
  have hle := length_dropWhile_le out
  omega

theorem innerRoundTrip_iff (buflen : Nat) (data : Bytes) (sout : Nat) :
    InnerRoundTrip buflen data sout ↔
      (values data).length < buflen ∧ data.length ≤ sout ∧ data.head? ≠ some 0 := by
  have hhead : data.dropWhile (· = 0) = data ↔ data.head? ≠ some 0 := by
    cases data with
    | nil => exact iff_of_true rfl nofun
    | cons c data =>
        rw [List.dropWhile_eq_self_iff, List.head?_cons, ne_eq, Option.some.injEq]
        exact ⟨fun h => by simpa using h (Nat.zero_lt_succ _), fun h _ => by simpa using h⟩
  unfold InnerRoundTrip
  rw [encodeBase58_eq]
  constructor
  · rintro ⟨text, hencode, hdecode⟩
    split_ifs at hencode with hroom
    cases hencode
    rw [decode_values] at hdecode
    split_ifs at hdecode with hsout
    have hsame := Option.some.inj hdecode
    rw [hsame] at hsout
    exact ⟨hroom, Nat.le_of_not_lt hsout, hhead.mp hsame⟩
  · rintro ⟨hroom, hsout, hzero⟩
    have hsame := hhead.mpr hzero
    refine ⟨_, if_pos hroom, ?_⟩
    rw [decode_values, hsame, if_neg (Nat.not_lt_of_le hsout)]

/-! ## Addresses -/

theorem replicate_zeros (data : Bytes) :
    List.replicate (zeros data) 0 ++ data.dropWhile (· = 0) = data := by
  have hfront : data.takeWhile (· = 0) = List.replicate (zeros data) 0 :=
    List.eq_replicate_iff.mpr
      ⟨rfl, fun c hc => by simpa using List.mem_takeWhile_imp (p := fun c => decide (c = 0)) hc⟩
  rw [← hfront, List.takeWhile_append_dropWhile]

/-- The text of an address fits. -/
theorem length_values_lt (a : Address) : (values a.bytes).length < BASE58_ADDR_MAX_LEN := by
  have hpow : ∀ z : Fin 26, 256 ^ (25 - z.val) ≤ 58 ^ (35 - z.val) := by decide
  have hsum : zeros a.bytes + (a.bytes.dropWhile (· = 0)).length = 25 := by
    calc zeros a.bytes + (a.bytes.dropWhile (· = 0)).length
        = (List.replicate (zeros a.bytes) 0 ++ a.bytes.dropWhile (· = 0)).length := by
          rw [List.length_append, List.length_replicate]
      _ = 25 := by rw [replicate_zeros, a.size]
  have hdigits : (numeral 256 (bin2bn a.bytes)).length = 25 - zeros a.bytes := by
    rw [← List.length_map UInt8.ofNat, ← bn2bin, bn2bin_bin2bn]
    omega
  have hlt : bin2bn a.bytes < 256 ^ (25 - zeros a.bytes) :=
    (length_numeral_le_iff (by decide) _).mp hdigits.le
  have hle : (numeral 58 (bin2bn a.bytes)).length ≤ 35 - zeros a.bytes :=
    (length_numeral_le_iff (by decide) _).mpr (hlt.trans_le (hpow ⟨zeros a.bytes, by omega⟩))
  rw [values, List.length_append, List.length_replicate, BASE58_ADDR_MAX_LEN]
  omega

theorem Address.eq_of_bytes {a b : Address} (h : a.bytes = b.bytes) : a = b := by
  cases a
  cases b
  cases h
  rfl

theorem length_bn2bin_le (a : Address) : (bn2bin (bin2bn a.bytes)).length ≤ 25 := by
  rw [bn2bin_bin2bn]
  exact (List.length_dropWhile_le _ _).trans_eq a.size

/-- The zeros in front come back. -/
theorem filled_bin2bn (a : Address) : filled (bin2bn a.bytes) (length_bn2bin_le a) = a := by
  have hzeros : 25 - (a.bytes.dropWhile (· = 0)).length = zeros a.bytes := by
    have hlen := congrArg List.length (replicate_zeros a.bytes)
    rw [List.length_append, List.length_replicate, a.size] at hlen
    omega
  apply Address.eq_of_bytes
  rw [filled]
  dsimp only
  rw [bn2bin_bin2bn, hzeros, replicate_zeros]

/-- What `decode` does is to verify the checksum of what the text stands for. -/
theorem decodeAddress_eq (sha : Sha256) (b58 : Bytes) (addr : Address) :
    decodeAddress sha b58 addr true =
      match addressOf b58 with
      | none => (false, addr)
      | some a => (decide (base58Checksum sha a.bytes = a.csum), a) := by
  rw [decodeAddress, addressOf]
  split_ifs with hlen
  · rfl
  · cases rawDecodeBase58 0 b58 with
    | none => rfl
    | some bn =>
        dsimp only
        split_ifs with hsize hsum
        · rw [Bool.true_and, decide_eq_true_iff] at hsum
          dsimp only
          rw [decide_eq_false hsum]
        · rw [Bool.true_and, decide_eq_true_iff, not_not] at hsum
          dsimp only
          rw [decide_eq_true hsum]
        · rfl

theorem addressOf_values (a : Address) :
    addressOf ((values a.bytes).map encodeChar) = some a := by
  have hfits := length_values_lt a
  rw [addressOf, List.length_map, if_neg (by omega), rawDecodeBase58_values]
  dsimp only
  rw [dif_pos (length_bn2bin_le a), filled_bin2bn]

theorem Address.signed_body (sha : Sha256) (a : Address) : (a.signed sha).body = a.body := by
  have hlen : a.body.length = 1 + RIPEMD160_DIGEST_LENGTH := by
    rw [Address.body, List.length_take, a.size]
    rfl
  rw [Address.body, Address.signed]
  exact List.take_left' hlen

theorem Address.signed_csum (sha : Sha256) (a : Address) :
    (a.signed sha).csum = base58Checksum sha a.body := by
  have hlen : a.body.length = 1 + RIPEMD160_DIGEST_LENGTH := by
    rw [Address.body, List.length_take, a.size]
    rfl
  rw [Address.csum, Address.signed]
  exact List.drop_left' hlen

theorem addressRoundTrip_iff (sha : Sha256) (a : Address) : AddressRoundTrip sha a ↔
    base58Checksum sha (a.signed sha).bytes = base58Checksum sha a.body := by
  have hencode : encodeAddress sha a = some ((values (a.signed sha).bytes).map encodeChar) := by
    rw [encodeAddress, encodeBase58_eq, if_pos (length_values_lt _)]
  have hdecode : ∀ addr, decodeAddress sha ((values (a.signed sha).bytes).map encodeChar) addr true =
      (decide (base58Checksum sha (a.signed sha).bytes = base58Checksum sha a.body),
        a.signed sha) := by
    intro addr
    rw [decodeAddress_eq, addressOf_values]
    dsimp only
    rw [Address.signed_csum]
  constructor
  · rintro ⟨text, htext, haccept⟩
    rw [hencode] at htext
    cases htext
    obtain ⟨r, hr, -⟩ := haccept a
    rw [hdecode] at hr
    exact of_decide_eq_true (congrArg Prod.fst hr)
  · intro hsum
    refine ⟨_, hencode, fun addr => ⟨a.signed sha, ?_, ?_⟩⟩
    · rw [hdecode, decide_eq_true hsum]
    · rw [Address.hash, Address.signed_body, Address.hash]

theorem rejectsWrong_iff (sha : Sha256) (b58 : Bytes) : RejectsWrong sha b58 ↔
    ∀ a, addressOf b58 = some a → a.csum ≠ base58Checksum sha a.body →
      base58Checksum sha a.bytes ≠ a.csum := by
  have hstatus : ∀ a addr, addressOf b58 = some a →
      ((decodeAddress sha b58 addr true).1 = false ↔ base58Checksum sha a.bytes ≠ a.csum) := by
    intro a addr ha
    rw [decodeAddress_eq, ha]
    exact decide_eq_false_iff_not
  constructor
  · exact fun h a ha hwrong => (hstatus a a ha).mp (h a ha hwrong a)
  · exact fun h a ha hwrong addr => (hstatus a addr ha).mpr (h a ha hwrong)

/-- **What base 58 keeps.** A byte string never comes back through `encode`, as that reads the buffer and
writes on the data. Through the function behind it a string comes back when both buffers are long
enough and the first byte is not zero. An address is verified against a checksum of all of its bytes,
with the stored checksum among them. -/
theorem base58_codec (sha : Sha256) :
    (∀ data out sout, ¬ RoundTrip data out sout) ∧
      (∀ buflen data sout, InnerRoundTrip buflen data sout ↔
        (values data).length < buflen ∧ data.length ≤ sout ∧ data.head? ≠ some 0) ∧
      (∀ a, AddressRoundTrip sha a ↔
        base58Checksum sha (a.signed sha).bytes = base58Checksum sha a.body) ∧
      ∀ b58, RejectsWrong sha b58 ↔
        ∀ a, addressOf b58 = some a → a.csum ≠ base58Checksum sha a.body →
          base58Checksum sha a.bytes ≠ a.csum :=
  ⟨not_roundTrip, innerRoundTrip_iff, addressRoundTrip_iff sha, rejectsWrong_iff sha⟩

/-- The string of one zero byte does not come back, whatever the buffers. -/
theorem not_base58_zero :
    ¬ ∀ data : Bytes, ∃ out sout buflen,
      RoundTrip data out sout ∨ InnerRoundTrip buflen data sout := by
  intro h
  obtain ⟨out, sout, buflen, hround | hround⟩ := h [0]
  · exact not_roundTrip [0] out sout hround
  · exact ((innerRoundTrip_iff buflen [0] sout).mp hround).2.2 rfl

end Suil.Base58
