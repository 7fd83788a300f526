import Suil.Basic.Bytes
import Suil.Lib.LittleEndian

set_option autoImplicit false

/-! # WebSocket frame headers

`WebSock::send` writes the header of a frame and `WebSock::receive_opcode` reads one (`wsock.cpp`).
`utils::write` and `utils::read` copy an integer as the host has it, with its lowest byte first.
The socket delivers as many bytes as are asked for or fails. `headerRoundTrip_iff` says for which lengths
the two functions agree with each other and with the layout of the protocol. -/

namespace Suil.Http.WebSock

open LittleEndian

/-- `WsOp`. -/
inductive WsOp where
  | CONT
  | TEXT
  | BINARY
  | CLOSE
  | PING
  | PONG
  deriving DecidableEq, Repr

def WsOp.code : WsOp → UInt8
  | .CONT => 0x00
  | .TEXT => 0x01
  | .BINARY => 0x02
  | .CLOSE => 0x08
  | .PING => 0x09
  | .PONG => 0x0A

def WS_PAYLOAD_SINGLE : UInt8 := 125
def WS_PAYLOAD_EXTEND_1 : UInt8 := 126
def WS_PAYLOAD_EXTEND_2 : UInt8 := 127
def USHRT_MAX : Nat := 65535

/-- `header`: the two bytes of `u16All`, the size of the payload and the mask. -/
structure Header where
  byte0 : UInt8
  byte1 : UInt8
  payload_size : Nat
  v_mask : Bytes
  deriving DecidableEq, Repr

namespace Header

/-! The bit-fields, the lowest bits first: `opcode : 4`, `rsv3`, `rsv2`, `rsv1`, `fin`, and
`len : 7`, `mask : 1`. -/

def opcode (h : Header) : UInt8 := h.byte0 &&& 0x0F
def rsv3 (h : Header) : Bool := h.byte0 &&& 0x10 ≠ 0
def rsv2 (h : Header) : Bool := h.byte0 &&& 0x20 ≠ 0
def rsv1 (h : Header) : Bool := h.byte0 &&& 0x40 ≠ 0
def fin (h : Header) : Bool := h.byte0 &&& 0x80 ≠ 0
def len (h : Header) : UInt8 := h.byte1 &&& 0x7F
def mask (h : Header) : Bool := h.byte1 &&& 0x80 ≠ 0

end Header

/-! ## Sending -/

def payload_1 (size : Nat) : UInt8 :=
  if WS_PAYLOAD_SINGLE.toNat < size then
    if size < USHRT_MAX then WS_PAYLOAD_EXTEND_1 else WS_PAYLOAD_EXTEND_2
  else UInt8.ofNat size

/-- The header that `send` writes in front of `size` bytes. -/
def sendHeader (size : Nat) (op : WsOp) : Bytes :=
  [(op.code &&& 0x0F) ||| 0x80, payload_1 size &&& 0x7F] ++
    if WS_PAYLOAD_SINGLE < payload_1 size then
      if payload_1 size = WS_PAYLOAD_EXTEND_1 then leBytes 2 size else leBytes 8 size
    else []

/-- `send`: what goes to the socket, unless the session is being closed. -/
def send (end_session : Bool) (data : Bytes) (op : WsOp) : Option Bytes :=
  if end_session then none else some (sendHeader data.length op ++ data)

/-! ## Receiving -/

/-- `sock.receive(buf, n)`. -/
def receive (n : Nat) (s : Bytes) : Option (Bytes × Bytes) :=
  if n ≤ s.length then some (s.take n, s.drop n) else none

/-- The opcodes that a frame may have; control frames are short and whole. -/
def acceptsOpcode (h : Header) : Bool :=
  if h.opcode = WsOp.CONT.code ∨ h.opcode = WsOp.TEXT.code ∨ h.opcode = WsOp.BINARY.code then true
  else if h.opcode = WsOp.CLOSE.code ∨ h.opcode = WsOp.PING.code ∨ h.opcode = WsOp.PONG.code then
    !(WS_PAYLOAD_SINGLE < h.len || !h.fin)
  else false

/-- The bytes of the length that follow the first two of the header. -/
def extra_bytes (len : UInt8) : Nat :=
  if len = WS_PAYLOAD_EXTEND_1 then 2 else if len = WS_PAYLOAD_EXTEND_2 then 8 else 0

/-- The length of the payload: `buf` starts with the seven bits, and one byte less than there is is
received behind them. -/
def receive_length (len : UInt8) (s : Bytes) : Option (Nat × Bytes) :=
  if extra_bytes len ≠ 0 then do
    let (got, s) ← receive (extra_bytes len - 1) s
    let buf := len :: got
    some (leNat (buf.take (extra_bytes len)), s)
  else some (len.toNat, s)

/-- `receive_opcode` once the two bytes of the bit-fields are there. -/
def receive_rest (h : Header) (s : Bytes) : Option (Header × Bytes) :=
  if !h.mask then none
  else if h.rsv1 || h.rsv2 || h.rsv3 then none
  else if !acceptsOpcode h then none
  else do
    let (len, s) ← receive_length h.len s
    let (v_mask, s) ← receive 4 s
    some ({ h with payload_size := len, v_mask := v_mask }, s)

/-- `receive_opcode`: the header, and what is left on the socket. -/
def receive_opcode (s : Bytes) : Option (Header × Bytes) := do
  let (u16All, s) ← receive 2 s
  receive_rest ⟨u16All.headD 0, u16All.tail.headD 0, 0, [0, 0, 0, 0]⟩ s

/-! ## The layout of the protocol -/

/-- The mask bit set in the second byte, and the mask after the length. -/
def masked (header mask : Bytes) : Bytes :=
  match header with
  | b :: c :: ext => b :: (c ||| 0x80) :: ext ++ mask
  | _ => header ++ mask

/-- `k` bytes of a number, the highest first. -/
def beBytes (k n : Nat) : Bytes := (leBytes k n).reverse

/-- The header of a whole frame: a length of seven bits, or 126 and 16 bits, or 127 and 64 bits,
the shortest that fits. -/
def frameHeader (size : Nat) (op : WsOp) : Bytes :=
  (0x80 ||| op.code) ::
    if size ≤ 125 then [UInt8.ofNat size]
    else if size < 65536 then 126 :: beBytes 2 size
    else 127 :: beBytes 8 size

/-- The masked header is read back, with nothing of what follows it. -/
def ReadBack (size : Nat) (op : WsOp) (header mask : Bytes) : Prop :=
  ∀ rest, ∃ h, receive_opcode (masked header mask ++ rest) = some (h, rest) ∧
    h.fin = true ∧ h.opcode = op.code ∧ h.payload_size = size ∧ h.v_mask = mask

/-- What is sent is read back, and both sides keep to the layout of the protocol. -/
structure RoundTrips (size : Nat) (op : WsOp) (mask : Bytes) : Prop where
  readBack : ReadBack size op (sendHeader size op) mask
  sends : sendHeader size op = frameHeader size op
  receives : ReadBack size op (frameHeader size op) mask

private theorem masked_cons (b c : UInt8) (ext mask rest : Bytes) :
    masked (b :: c :: ext) mask ++ rest = b :: (c ||| 0x80) :: (ext ++ mask ++ rest) := by
  simp [masked]

/-! ## Short payloads -/

theorem byte0_spec (op : WsOp) : (op.code &&& 0x0F) ||| 0x80 = 0x80 ||| op.code := by
  cases op <;> decide

private theorem payload_1_short {size : Nat} (h : size ≤ 125) :
    payload_1 size = UInt8.ofNat size := if_neg (Nat.not_lt.mpr h)

private theorem ofNat_short {size : Nat} (h : size ≤ 125) : UInt8.ofNat size ≤ 125 := by
  rw [UInt8.le_iff_toNat_le, UInt8.toNat_ofNat', Nat.mod_eq_of_lt (by omega)]
  exact h

set_option maxRecDepth 8000 in
/-- The seven bits and the mask bit do not meet. -/
private theorem len_spec (c : UInt8) : c ≤ 125 →
    c &&& 0x7F = c ∧ ((c ||| 0x80) &&& 0x7F) = c ∧ ((c ||| 0x80) &&& 0x80 ≠ 0) ∧ ¬ 125 < c ∧
      extra_bytes c = 0 :=
  forall_byte (P := fun c => c ≤ 125 → c &&& 0x7F = c ∧ ((c ||| 0x80) &&& 0x7F) = c ∧
    ((c ||| 0x80) &&& 0x80 ≠ 0) ∧ ¬ 125 < c ∧ extra_bytes c = 0) (by decide) c

theorem sendHeader_short {size : Nat} (h : size ≤ 125) (op : WsOp) :
    sendHeader size op = [0x80 ||| op.code, UInt8.ofNat size] := by
  obtain ⟨hlow, -, -, hnot, -⟩ := len_spec _ (ofNat_short h)
  rw [sendHeader, payload_1_short h, hlow, WS_PAYLOAD_SINGLE, if_neg hnot, byte0_spec,
    List.append_nil]

theorem frameHeader_short {size : Nat} (h : size ≤ 125) (op : WsOp) :
    frameHeader size op = [0x80 ||| op.code, UInt8.ofNat size] := by
  rw [frameHeader, if_pos h]

private theorem accepts_short (op : WsOp) {h : Header} (hb : h.byte0 = 0x80 ||| op.code)
    (hlen : ¬ WS_PAYLOAD_SINGLE < h.len) :
    (h.rsv1 || h.rsv2 || h.rsv3) = false ∧ acceptsOpcode h = true ∧ h.fin = true ∧
      h.opcode = op.code := by
  have hop : h.opcode = op.code := by
    rw [Header.opcode, hb]
    cases op <;> decide
  have hfin : h.fin = true := by
    rw [Header.fin, hb]
    cases op <;> decide
  refine ⟨?_, ?_, hfin, hop⟩
  · rw [Header.rsv1, Header.rsv2, Header.rsv3, hb]
    cases op <;> decide
  · rw [acceptsOpcode, hop, hfin, decide_eq_false hlen]
    cases op <;> decide

private theorem readBack_short {size : Nat} (h : size ≤ 125) (op : WsOp) {mask : Bytes}
    (hmask : mask.length = 4) : ReadBack size op [0x80 ||| op.code, UInt8.ofNat size] mask := by
  intro rest
  obtain ⟨-, hlen, hbit, hnot, hextra⟩ := len_spec _ (ofNat_short h)
  -- what is left of the first two bytes after they are taken apart
  let u : Header := ⟨0x80 ||| op.code, UInt8.ofNat size ||| 0x80, 0, [0, 0, 0, 0]⟩
  have hulen : u.len = UInt8.ofNat size := hlen
  have humask : u.mask = true := decide_eq_true hbit
  obtain ⟨hrsv, hacc, hfin, hop⟩ := accepts_short op (h := u) rfl (by rw [hulen]; exact hnot)
  have hsize : (UInt8.ofNat size).toNat = size := by
    rw [UInt8.toNat_ofNat', Nat.mod_eq_of_lt (by omega)]
  have hfirst : receive 2 (masked [0x80 ||| op.code, UInt8.ofNat size] mask ++ rest) =
      some ([0x80 ||| op.code, UInt8.ofNat size ||| 0x80], mask ++ rest) := by
    rw [receive, if_pos (by simp [masked])]
    rfl
  have hlast : receive 4 (mask ++ rest) = some (mask, rest) := by
    rw [receive, if_pos (by rw [List.length_append]; omega), ← hmask, List.take_left,
      List.drop_left]
  refine ⟨{ u with payload_size := size, v_mask := mask }, ?_, hfin, hop, rfl, rfl⟩
  rw [receive_opcode, hfirst]
  show receive_rest u (mask ++ rest) = _
  rw [receive_rest, humask, hrsv, hacc, if_neg (by decide), if_neg (by decide),
    if_neg (by decide), hulen, receive_length, if_neg (not_not.mpr hextra), hsize]
  simp only [bind, Option.bind, hlast]

/-! ## Long payloads -/

private theorem receive_length_left {n : Nat} {s got r : Bytes} (h : receive n s = some (got, r)) :
    r.length + n = s.length := by
  rw [receive] at h
  split_ifs at h with hle
  cases h
  rw [List.length_drop]
  omega

/-- **What is taken off the socket**: one byte less than the length has. -/
theorem receive_opcode_left {b c : UInt8} {s r : Bytes} {h : Header}
    (hres : receive_opcode (b :: c :: s) = some (h, r)) :
    r.length + 4 + (extra_bytes (c &&& 0x7F) - 1) = s.length := by
  have hfirst : receive 2 (b :: c :: s) = some ([b, c], s) := by
    rw [receive, if_pos (by simp)]
    rfl
  rw [receive_opcode, hfirst] at hres
  simp only [bind, Option.bind, receive_rest] at hres
  split_ifs at hres
  split at hres
  · cases hres
  next lr hlr =>
  simp only at hres
  split at hres
  · cases hres
  next mr hmr =>
  cases hres
  have hmask := receive_length_left hmr
  -- of an extended length the code reads one byte less than it has
  have hlen : lr.2.length + (extra_bytes (c &&& 0x7F) - 1) = s.length := by
    rw [receive_length] at hlr
    split_ifs at hlr with hextra
    · simp only [bind, Option.bind] at hlr
      split at hlr
      · cases hlr
      next gr hgr =>
      simp only at hlr
      cases hlr
      exact receive_length_left hgr
    · cases hlr
      show s.length + (extra_bytes (c &&& 0x7F) - 1) = s.length
      have hzero : extra_bytes (c &&& 0x7F) = 0 := not_not.mp hextra
      omega
  omega

/-- The first two bytes of a longer header say how many bytes of the length there are. -/
private theorem sendHeader_long {size : Nat} (h : 125 < size) (op : WsOp) :
    ∃ b c ext, sendHeader size op = b :: c :: ext ∧ 0 < ext.length ∧
      extra_bytes ((c ||| 0x80) &&& 0x7F) = ext.length := by
  have hpay : payload_1 size = if size < USHRT_MAX then WS_PAYLOAD_EXTEND_1
      else WS_PAYLOAD_EXTEND_2 := if_pos h
  by_cases hlt : size < USHRT_MAX
  · rw [if_pos hlt] at hpay
    refine ⟨(op.code &&& 0x0F) ||| 0x80, WS_PAYLOAD_EXTEND_1 &&& 0x7F, leBytes 2 size, ?_, ?_, ?_⟩
    · rw [sendHeader, hpay, if_pos (by decide), if_pos rfl]
      rfl
    · rw [length_leBytes]
      exact Nat.two_pos
    · rw [length_leBytes]
      decide
  · rw [if_neg hlt] at hpay
    refine ⟨(op.code &&& 0x0F) ||| 0x80, WS_PAYLOAD_EXTEND_2 &&& 0x7F, leBytes 8 size, ?_, ?_, ?_⟩
    · rw [sendHeader, hpay, if_pos (by decide), if_neg (by decide)]
      rfl
    · rw [length_leBytes]
      decide
    · rw [length_leBytes]
      decide

/-- **The two sides agree, and keep to the layout, exactly for payloads of at most 125 bytes.** -/
theorem headerRoundTrip_iff (size : Nat) (op : WsOp) (mask : Fin 4 → UInt8) :
    RoundTrips size op (List.ofFn mask) ↔ size ≤ 125 := by
  have hmask : (List.ofFn mask).length = 4 := List.length_ofFn
  constructor
  · intro h
    by_contra hlong
    obtain ⟨b, c, ext, hsend, hpos, hextra⟩ := sendHeader_long (Nat.not_le.mp hlong) op
    -- the last byte of the mask is left on the socket
    obtain ⟨hd, hres, -⟩ := h.readBack []
    rw [hsend, masked_cons] at hres
    have hleft := receive_opcode_left hres
    rw [hextra, List.length_append, List.length_append, hmask, List.length_nil] at hleft
    omega
  · intro h
    refine ⟨?_, ?_, ?_⟩
    · rw [sendHeader_short h]
      exact readBack_short h op hmask
    · rw [sendHeader_short h, frameHeader_short h]
    · rw [frameHeader_short h]
      exact readBack_short h op hmask

/-- A text of 300 bytes is taken for one of 11390, and the mask starts with a byte of its length. -/
theorem not_roundTrip_300 : ¬ RoundTrips 300 .TEXT [1, 2, 3, 4] := by
  intro h
  obtain ⟨hd, hres, -, -, hsize, -⟩ := h.readBack []
  have hread : receive_opcode (masked (sendHeader 300 .TEXT) [1, 2, 3, 4] ++ []) =
      some (⟨0x81, 0xFE, 11390, [1, 1, 2, 3]⟩, [4]) := by decide
  rw [hread] at hres
  cases hres

end Suil.Http.WebSock
