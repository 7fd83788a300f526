import Suil.Basic.Base64
import Suil.Basic.Json
import Suil.Lib.Traced

set_option autoImplicit false

/-! # JSON web tokens

`Jwt::encode`, `Jwt::decode` and `Jwt::verify` (`auth.cpp`). A token consists of the header, the
payload and the signature of both with dots between them. `encode` and `decode` write the signature
in base64; `verify` writes it in hexadecimal, so that no token is accepted by both `verify` and
`decode`.

The JSON texts of the two records and the HMAC are parameters. -/

namespace Suil.Http

open Json (Object)

variable {ν : Type}

/-- `JwtHeader`. -/
structure JwtHeader where
  typ : Bytes
  alg : Bytes

/-- `JwtPayload`. -/
structure JwtPayload (ν : Type) where
  iss : Bytes
  aud : Bytes
  sub : Bytes
  exp : Int
  iat : Int
  nbf : Int
  jti : Bytes
  claims : Object ν

structure Jwt (ν : Type) where
  header : JwtHeader
  payload : JwtPayload ν

namespace Jwt

/-- `iod::json_encode` and `iod::json_decode` of the two records: decoding sets the members that are
there, or it throws. -/
structure Codec (ν : Type) where
  encodeHeader : JwtHeader → Bytes
  encodePayload : JwtPayload ν → Bytes
  decodeHeader : JwtHeader → Bytes → Except Bytes JwtHeader
  decodePayload : JwtPayload ν → Bytes → Except Bytes (JwtPayload ν)

/-- How a token fails: `Error::unauthorized`, base64 or JSON. -/
inductive Fault where
  | unauthorized (what : Bytes)
  | base64 (f : BufFault)
  | json (what : Bytes)
  deriving DecidableEq, Repr

/-- `Jwt(typ)`. -/
def new (typ : Bytes) : Jwt ν where
  header := ⟨cstr typ, str "HS256"⟩
  payload := ⟨[], [], [], 0, 0, 0, [], some (.object [])⟩

/-! ## Signatures -/

/-- `i2c` of four bits. -/
def i2c (c : UInt8) : UInt8 := if c ≤ 9 then c + 48 else c + 87

/-- `hexstr`. -/
def hexstr (bs : Bytes) : Bytes :=
  bs.flatMap fun b : UInt8 => [i2c (b >>> 4 &&& 0x0F), i2c (b &&& 0x0F)]

/-- `HMAC(EVP_sha256(), …)`. -/
abbrev Hmac : Type := Bytes → Bytes → Fin 32 → UInt8

/-- `SHA_HMAC256`. -/
def SHA_HMAC256 (hmac : Hmac) (secret data : Bytes) (b64 : Bool) : Except BufFault Str :=
  let result := List.ofFn (hmac secret data)
  if b64 then Base64.encode result
  else .ok ⟨some (hexstr result ++ [NUL]), (hexstr result).length⟩

/-- `strrchr(jwtstr.data(), '.')`: what stands before the last dot and behind it. -/
def cutSignature (tok : Bytes) : Option (Bytes × Bytes) :=
  match strrchr (cstr tok) DOT with
  | none => none
  | some sig => some ((cstr tok).take ((cstr tok).length - sig.length), sig.tail)

/-- Whether `strcmp(tok_sig, signature.data())` is zero. -/
def sameString (sig : Bytes) (signature : Str) : Bool := cstr sig = cstr (signature.mem.getD [])

/-! ## Tokens -/

def INVALID : Fault := .unauthorized (str "invalid token")

def liftB64 {α : Type} : Except BufFault α → Except Fault α
  | .error f => .error (.base64 f)
  | .ok a => .ok a

def liftJson {α : Type} : Except Bytes α → Except Fault α
  | .error what => .error (.json what)
  | .ok a => .ok a

/-- `verify`. -/
def verify (hmac : Hmac) (tok secret : Bytes) : Except Fault Bool :=
  match cutSignature tok with
  | none => .error INVALID
  | some (data, sig) => do
      let signature ← liftB64 (SHA_HMAC256 hmac secret data false)
      .ok (sameString sig signature)

/-- `split(".")`: the memory from each part on that is not empty. The dots have become NULs, and
`rest` is what stands behind the data. -/
def split (rest : Bytes) : Bool → Bytes → List Bytes
  | _, [] => []
  | fresh, b :: data =>
      if b = DOT then split rest true data
      else if fresh then
        ((b :: data).map (fun c => if c = DOT then NUL else c) ++ rest) :: split rest false data
      else split rest false data

/-- `decode(jwt, …)`: nothing where it returns `false`, and else what `jwt` has become. -/
def decode (codec : Codec ν) (hmac : Hmac) (jwt : Jwt ν) (tok secret : Bytes) :
    Except Fault (Option (Jwt ν)) :=
  match cutSignature tok with
  | none => .error INVALID
  | some (data, sig) => do
      let signature ← liftB64 (SHA_HMAC256 hmac secret data true)
      if !sameString sig signature then .ok none
      else
        match split (NUL :: sig ++ [NUL]) true data with
        | [part₀, part₁] => do
            let text ← liftB64 (Base64.decode (.ofC part₀))
            let header ← liftJson (codec.decodeHeader jwt.header text.bytes)
            let text ← liftB64 (Base64.decode (.ofC part₁))
            let payload ← liftJson (codec.decodePayload jwt.payload text.bytes)
            .ok (some ⟨header, payload⟩)
        | _ => .error INVALID

/-- `encode`. -/
def encode (codec : Codec ν) (hmac : Hmac) (jwt : Jwt ν) (secret : Bytes) : Except Fault Bytes := do
  let hdr ← liftB64 (Base64.encode (codec.encodeHeader jwt.header))
  let data ← liftB64 (Base64.encode (codec.encodePayload jwt.payload))
  let tmp := hdr.bytes ++ str "." ++ data.bytes
  let signature ← liftB64 (SHA_HMAC256 hmac secret tmp true)
  .ok (tmp ++ str "." ++ signature.bytes)

/-! ## What tokens are for -/

/-- `decode` into a new `Jwt` returns true. -/
def Decodes (codec : Codec ν) (hmac : Hmac) (tok secret : Bytes) : Prop :=
  ∃ jwt, decode codec hmac (new (str "JWT")) tok secret = .ok (some jwt)

/-- Three parts without dots, of which the last is the signature of the others. -/
def Signed (hmac : Hmac) (tok secret : Bytes) : Prop :=
  ∃ a b sig, tok = a ++ str "." ++ b ++ str "." ++ sig ∧ DOT ∉ a ∧ DOT ∉ b ∧ DOT ∉ sig ∧
    ∃ s, SHA_HMAC256 hmac secret (a ++ str "." ++ b) true = .ok s ∧ s.bytes = sig

/-- What is encoded is decoded again, `verify` and `decode` accept the same tokens, and only those
that are signed. -/
structure Sound (codec : Codec ν) (hmac : Hmac) (jwt : Jwt ν) (secret : Bytes) : Prop where
  roundTrip : ∃ tok, encode codec hmac jwt secret = .ok tok ∧
    decode codec hmac (new (str "JWT")) tok secret = .ok (some jwt)
  agree : ∀ tok, verify hmac tok secret = .ok true ↔ Decodes codec hmac tok secret
  shape : ∀ tok, Decodes codec hmac tok secret → Signed hmac tok secret

private theorem ok_of_toOption {ε α : Type} {x : Except ε α} {a : α} (h : x.toOption = some a) :
    x = .ok a := by
  cases x with
  | error e => cases h
  | ok b => exact congrArg Except.ok (Option.some.inj h)

/-! ## Both signatures -/

theorem length_hexstr (bs : Bytes) : (hexstr bs).length = 2 * bs.length := by
  induction bs with
  | nil => rfl
  | cons b bs ih =>
      rw [hexstr, List.flatMap_cons, List.length_append]
      show 2 + (hexstr bs).length = 2 * (bs.length + 1)
      rw [ih]
      omega

set_option maxRecDepth 8000 in
private theorem i2c_spec (c : UInt8) : i2c (c >>> 4 &&& 0x0F) ≠ NUL ∧ i2c (c &&& 0x0F) ≠ NUL ∧
    i2c (c >>> 4 &&& 0x0F) ≠ DOT ∧ i2c (c &&& 0x0F) ≠ DOT :=
  forall_byte (P := fun c => i2c (c >>> 4 &&& 0x0F) ≠ NUL ∧ i2c (c &&& 0x0F) ≠ NUL ∧
    i2c (c >>> 4 &&& 0x0F) ≠ DOT ∧ i2c (c &&& 0x0F) ≠ DOT) (by decide) c

/-- No digit is a NUL or a dot. -/
private theorem mem_hexstr {bs : Bytes} {c : UInt8} (h : c ∈ hexstr bs) : c ≠ NUL ∧ c ≠ DOT := by
  obtain ⟨b, -, hc⟩ := List.mem_flatMap.mp h
  obtain ⟨h₀, h₁, h₂, h₃⟩ := i2c_spec b
  rcases List.mem_pair.mp hc with rfl | rfl
  · exact ⟨h₀, h₂⟩
  · exact ⟨h₁, h₃⟩

/-- **No string is both signatures**: one has 64 digits, the other at most 44 letters. -/
theorem not_both {hmac : Hmac} {secret data sig : Bytes} {s s' : Str}
    (hhex : SHA_HMAC256 hmac secret data false = .ok s)
    (hb64 : SHA_HMAC256 hmac secret data true = .ok s') :
    ¬ (sameString sig s = true ∧ sameString sig s' = true) := by
  have hlen : (List.ofFn (hmac secret data)).length = 32 := List.length_ofFn
  obtain ⟨z, henc⟩ := Base64.encode_ok (d := List.ofFn (hmac secret data))
    (by rw [hlen, Base64.maxLength]; omega)
  rw [SHA_HMAC256, if_pos rfl, henc] at hb64
  rw [SHA_HMAC256, if_neg (by decide)] at hhex
  cases hhex
  cases hb64
  rintro ⟨h, h'⟩
  rw [sameString, decide_eq_true_iff] at h h'
  have hdigits : (cstr sig).length = 64 := by
    rw [h]
    show (cstr (hexstr _ ++ NUL :: [])).length = 64
    rw [cstr_of_notMem fun hmem => (mem_hexstr hmem).1 rfl, length_hexstr, hlen]
  have hletters : (cstr sig).length ≤ 44 := by
    rw [h']
    calc (cstr (Base64.letters _ ++ NUL :: z)).length
        ≤ (Base64.letters (List.ofFn (hmac secret data))).length := length_cstr_le _ _
      _ = 44 := by rw [Base64.length_letters, hlen]
  omega

/-! ## A token for `verify` -/

private theorem cutSignature_append {data sig : Bytes} (hdata : NUL ∉ data) (hnul : NUL ∉ sig)
    (hdot : DOT ∉ sig) : cutSignature (data ++ DOT :: sig) = some (data, sig) := by
  have hwhole : cstr (data ++ DOT :: sig) = data ++ DOT :: sig := by
    rw [cstr, List.takeWhile_eq_self_iff]
    intro c hc
    apply decide_eq_true
    rcases List.mem_append.mp hc with h | h
    · exact fun heq => hdata (heq ▸ h)
    · rcases List.mem_cons.mp h with rfl | h
      · decide
      · exact fun heq => hnul (heq ▸ h)
  rw [cutSignature, hwhole, strrchr_append hdot]
  simp only [List.length_append, Nat.add_sub_cancel, List.take_left, List.tail_cons]

/-- Data with its signature in hexadecimal. -/
def hexToken (hmac : Hmac) (secret data : Bytes) : Bytes :=
  data ++ DOT :: hexstr (List.ofFn (hmac secret data))

/-- `verify` accepts a signature in hexadecimal. -/
theorem verify_hexToken (hmac : Hmac) (secret : Bytes) {data : Bytes} (hdata : NUL ∉ data) :
    verify hmac (hexToken hmac secret data) secret = .ok true := by
  have hnul : NUL ∉ hexstr (List.ofFn (hmac secret data)) := fun h => (mem_hexstr h).1 rfl
  have hdot : DOT ∉ hexstr (List.ofFn (hmac secret data)) := fun h => (mem_hexstr h).2 rfl
  have hsame : sameString (hexstr (List.ofFn (hmac secret data)))
      ⟨some (hexstr (List.ofFn (hmac secret data)) ++ [NUL]),
        (hexstr (List.ofFn (hmac secret data))).length⟩ = true := by
    rw [sameString, decide_eq_true_iff, Option.getD_some, cstr_of_notMem hnul, cstr,
      List.takeWhile_eq_self_iff]
    exact fun c hc => decide_eq_true (mem_hexstr hc).1
  rw [verify, hexToken, cutSignature_append hdata hnul hdot]
  simp only [SHA_HMAC256, Bool.false_eq_true, if_false, liftB64, bind, Except.bind, hsame]

private theorem ok_of_liftB64 {α : Type} {x : Except BufFault α} {a : α}
    (h : liftB64 x = .ok a) : x = .ok a := by
  cases x with
  | error f => nomatch h
  | ok a' => exact congrArg Except.ok (Except.ok.inj h)

/-- A token is a string in C with a dot in it. -/
theorem text_of_encode {codec : Codec ν} {hmac : Hmac} {jwt : Jwt ν} {secret tok : Bytes}
    (h : encode codec hmac jwt secret = .ok tok) : NUL ∉ tok ∧ tok ≠ [] := by
  obtain ⟨hdr, hhdr, h⟩ := Except.ok_of_bind h
  obtain ⟨data, hdata, h⟩ := Except.ok_of_bind h
  obtain ⟨signature, hsig, h⟩ := Except.ok_of_bind h
  have hhdr := Base64.nul_notMem_of_encode (ok_of_liftB64 hhdr)
  have hdata := Base64.nul_notMem_of_encode (ok_of_liftB64 hdata)
  have hsig := Base64.nul_notMem_of_encode (ok_of_liftB64 hsig)
  have hdot : NUL ∉ str "." := by decide
  cases h
  refine ⟨?_, ?_⟩
  · simp only [List.mem_append, not_or]
    exact ⟨⟨⟨⟨hhdr, hdot⟩, hdata⟩, hdot⟩, hsig⟩
  · have hne : str "." ≠ [] := by decide
    exact List.append_ne_nil_of_left_ne_nil (List.append_ne_nil_of_right_ne_nil _ hne) _

/-- What `decode` accepts ends with the signature in base64. -/
theorem decode_signed {codec : Codec ν} {hmac : Hmac} {jwt jwt' : Jwt ν} {tok secret : Bytes}
    (h : decode codec hmac jwt tok secret = .ok (some jwt')) :
    ∃ data sig s, cutSignature tok = some (data, sig) ∧
      SHA_HMAC256 hmac secret data true = .ok s ∧ sameString sig s = true := by
  unfold decode at h
  split at h
  · nomatch h
  next data sig hcut =>
  obtain ⟨s, hs, h⟩ := Except.ok_of_bind h
  refine ⟨data, sig, s, hcut, ok_of_liftB64 hs, ?_⟩
  -- with another signature `decode` returns false
  by_contra hother
  rw [Bool.not_eq_true] at hother
  rw [hother] at h
  nomatch h

/-- What `verify` accepts ends with the signature in hexadecimal. -/
theorem verify_signed {hmac : Hmac} {tok secret : Bytes}
    (h : verify hmac tok secret = .ok true) :
    ∃ data sig s, cutSignature tok = some (data, sig) ∧
      SHA_HMAC256 hmac secret data false = .ok s ∧ sameString sig s = true := by
  unfold verify at h
  split at h
  · nomatch h
  next data sig hcut =>
  obtain ⟨s, hs, h⟩ := Except.ok_of_bind h
  exact ⟨data, sig, s, hcut, ok_of_liftB64 hs, Except.ok.inj h⟩

/-- **No token is accepted by both.** -/
theorem not_decodes_of_verify {codec : Codec ν} {hmac : Hmac} {tok secret : Bytes}
    (h : verify hmac tok secret = .ok true) : ¬ Decodes codec hmac tok secret := by
  rintro ⟨jwt, hdec⟩
  obtain ⟨data, sig, s, hcut, hs, hsame⟩ := verify_signed h
  obtain ⟨data', sig', s', hcut', hs', hsame'⟩ := decode_signed hdec
  rw [hcut] at hcut'
  cases hcut'
  exact not_both hs hs' ⟨hsame, hsame'⟩

/-- **For no token and no secret do both functions accept the same tokens.** -/
theorem not_sound (codec : Codec ν) (hmac : Hmac) (jwt : Jwt ν) (secret : Bytes) :
    ¬ Sound codec hmac jwt secret := by
  intro h
  have hdata : NUL ∉ str "e30.e30" := by decide
  have hverify := verify_hexToken hmac secret hdata
  exact not_decodes_of_verify hverify ((h.agree _).mp hverify)

/-! ## The token of an empty payload -/

def plainHeader : Bytes := str "\x7b\"typ\":\"JWT\",\"alg\":\"HS256\"\x7d"

/-- The JSON texts of a new `Jwt`. -/
def plainCodec : Codec Empty where
  encodeHeader _ := plainHeader
  encodePayload _ := str "\x7b\x7d"
  decodeHeader _ text :=
    if text = plainHeader then .ok ⟨str "JWT", str "HS256"⟩
    else .error (str "json_decode error: missing field typ")
  decodePayload p text := if text = str "\x7b\x7d" then .ok p else .error (str "Empty string.")

/-- `base64(header).base64(payload)`. -/
def plainData : Bytes := str "eyJ0eXAiOiJKV1QiLCJhbGciOiJIUzI1NiJ9.e30="

/-- The HMAC of these data under `secret`. -/
def plainHmac : Hmac := fun secret data i =>
  if secret = str "secret" ∧ data = plainData then
    [245, 33, 128, 173, 35, 169, 145, 164, 225, 153, 132, 72, 233, 82, 100, 55,
      54, 110, 80, 220, 106, 141, 71, 228, 255, 110, 117, 205, 153, 245, 181, 131].getD i.val 0
  else 0

set_option maxRecDepth 8000 in
/-- `verify` accepts the signature in hexadecimal, and refuses what `encode` writes. -/
theorem not_sound_plain :
    verify plainHmac (plainData ++ str
        ".f52180ad23a991a4e1998448e9526437366e50dc6a8d47e4ff6e75cd99f5b583") (str "secret") =
          .ok true ∧
      encode plainCodec plainHmac (new (str "JWT")) (str "secret") =
        .ok (plainData ++ str ".9SGArSOpkaThmYRI6VJkNzZuUNxqjUfk/251zZn1tYM=") ∧
      verify plainHmac (plainData ++ str ".9SGArSOpkaThmYRI6VJkNzZuUNxqjUfk/251zZn1tYM=")
        (str "secret") = .ok false ∧
      ¬ Sound plainCodec plainHmac (new (str "JWT")) (str "secret") := by
  have hverify : (verify plainHmac (plainData ++ str
      ".f52180ad23a991a4e1998448e9526437366e50dc6a8d47e4ff6e75cd99f5b583") (str "secret")).toOption =
        some true := by decide
  have hencode : (encode plainCodec plainHmac (new (str "JWT")) (str "secret")).toOption =
      some (plainData ++ str ".9SGArSOpkaThmYRI6VJkNzZuUNxqjUfk/251zZn1tYM=") := by decide
  have hrefuse : (verify plainHmac
      (plainData ++ str ".9SGArSOpkaThmYRI6VJkNzZuUNxqjUfk/251zZn1tYM=") (str "secret")).toOption =
        some false := by decide
  have hok := ok_of_toOption hverify
  refine ⟨hok, ok_of_toOption hencode, ok_of_toOption hrefuse, ?_⟩
  intro h
  exact not_decodes_of_verify hok ((h.agree _).mp hok)

end Jwt

end Suil.Http
