import Suil.Basic.Bytes

set_option autoImplicit false

/-! # TCP connections

The receiving side of a connection as `TcpSock` (`sock.cpp`) uses it through libmill (`tcp.c`): a
buffer in front of the socket, which `tcprecv` fills and every call empties first. What the network
does is a list of arrivals, so that a statement about all connections is about every way in which
the bytes are cut into pieces. Each call is given whether it has a deadline. -/

namespace Suil.Tcp

/-- What `recv` meets: a piece of at least one byte, or a silence that outlasts a deadline. The
list ends where the peer closes the connection. -/
inductive Arrival where
  | segment (b : UInt8) (bs : Bytes)
  | silence

/-- The bytes in `ibuf`, and what is still to arrive. -/
structure Conn where
  ibuf : Bytes
  wire : List Arrival

inductive Errno where
  | reset
  | timedOut
  | noBufs
  deriving DecidableEq, Repr

/-- What a call stored, with `errno`, and the connection after it. -/
structure Got where
  bytes : Bytes
  errno : Option Errno
  conn : Conn

def MILL_TCP_BUFLEN : Nat := 1500 - 68

/-- The rest of a piece stays with the socket. -/
def unread : Bytes → List Arrival → List Arrival
  | [], w => w
  | b :: bs, w => .segment b bs :: w

/-- The loop of `tcprecv`, for so many bytes more. Few are read through the buffer. -/
def recvLoop (deadline : Bool) : Nat → Bytes → List Arrival → Got
  | _, got, [] => ⟨got, some .reset, ⟨[], []⟩⟩
  | n, got, .silence :: w =>
      if deadline then ⟨got, some .timedOut, ⟨[], w⟩⟩ else recvLoop deadline n got w
  | n, got, .segment b bs :: w =>
      let piece := b :: bs
      if piece.length < n then recvLoop deadline (n - piece.length) (got ++ piece) w
      else
        let chunk := piece.take (max n MILL_TCP_BUFLEN)
        ⟨got ++ chunk.take n, none, ⟨chunk.drop n, unread (piece.drop (max n MILL_TCP_BUFLEN)) w⟩⟩

/-- `tcprecv`. -/
def tcprecv (deadline : Bool) (c : Conn) (len : Nat) : Got :=
  if len ≤ c.ibuf.length then ⟨c.ibuf.take len, none, ⟨c.ibuf.drop len, c.wire⟩⟩
  else recvLoop deadline (len - c.ibuf.length) c.ibuf c.wire

/-- `tcprecvuntil`, with the bytes that are stored already. -/
def tcprecvuntil (deadline : Bool) (delims : Bytes) : Nat → Bytes → Conn → Got
  | 0, got, c => ⟨got, some .noBufs, c⟩
  | n + 1, got, c =>
      let r := tcprecv deadline c 1
      if r.errno = none then
        if r.bytes.any (· ∈ delims) then ⟨got ++ r.bytes, none, r.conn⟩
        else tcprecvuntil deadline delims n (got ++ r.bytes) r.conn
      else ⟨got ++ r.bytes, r.errno, r.conn⟩

/-- The loop of `tcpread`, which returns after the first piece. -/
def readLoop (deadline : Bool) (n : Nat) (got : Bytes) : List Arrival → Got
  | [] => ⟨got, some .reset, ⟨[], []⟩⟩
  | .silence :: w =>
      if deadline then ⟨got, some .timedOut, ⟨[], w⟩⟩ else readLoop deadline n got w
  | .segment b bs :: w => ⟨got ++ (b :: bs).take n, none, ⟨[], unread ((b :: bs).drop n) w⟩⟩

/-- `tcpread`. -/
def tcpread (deadline : Bool) (c : Conn) (len : Nat) : Got :=
  if len ≤ c.ibuf.length then ⟨c.ibuf.take len, none, ⟨c.ibuf.drop len, c.wire⟩⟩
  else readLoop deadline (len - c.ibuf.length) c.ibuf c.wire

/-! ## The bytes of a connection -/

/-- All that arrives. -/
def Arrival.all : List Arrival → Bytes
  | [] => []
  | .silence :: w => all w
  | .segment b bs :: w => b :: bs ++ all w

/-- What arrives before the first silence. -/
def Arrival.soon : List Arrival → Bytes
  | [] => []
  | .silence :: _ => []
  | .segment b bs :: w => b :: bs ++ soon w

/-- The bytes that have not been received. -/
def Conn.stream (c : Conn) : Bytes := c.ibuf ++ Arrival.all c.wire

/-- Those among them that no deadline can come before. -/
def Conn.pending (c : Conn) : Bytes := c.ibuf ++ Arrival.soon c.wire

theorem all_unread (bs : Bytes) (w : List Arrival) :
    Arrival.all (unread bs w) = bs ++ Arrival.all w := by
  cases bs with
  | nil => rfl
  | cons b bs => rfl

theorem Arrival.all_append (w w' : List Arrival) :
    Arrival.all (w ++ w') = Arrival.all w ++ Arrival.all w' := by
  induction w with
  | nil => rfl
  | cons a w ih =>
      cases a with
      | silence => exact ih
      | segment b bs => rw [List.cons_append, Arrival.all, Arrival.all, ih, List.append_assoc]

theorem soon_unread (bs : Bytes) (w : List Arrival) :
    Arrival.soon (unread bs w) = bs ++ Arrival.soon w := by
  cases bs with
  | nil => rfl
  | cons b bs => rfl

/-- A piece is what is stored of it, what goes into the buffer and what stays with the socket. -/
private theorem piece_split (piece : Bytes) (n m : Nat) :
    ((piece.take m).take n ++ (piece.take m).drop n) ++ piece.drop m = piece := by
  rw [List.take_append_drop, List.take_append_drop]

private theorem piece_rest (piece : Bytes) {n m : Nat} (h : n ≤ m) :
    (piece.take m).drop n ++ piece.drop m = piece.drop n := by
  have hsplit := piece_split piece n m
  rw [List.take_take, Nat.min_eq_left h, List.append_assoc] at hsplit
  exact List.append_cancel_left (hsplit.trans (List.take_append_drop n piece).symm)

/-! ### No byte is lost -/

private theorem recvLoop_stream (deadline : Bool) (w : List Arrival) (n : Nat) (got : Bytes) :
    (recvLoop deadline n got w).bytes ++ (recvLoop deadline n got w).conn.stream =
      got ++ Arrival.all w := by
  induction w generalizing n got with
  | nil => rw [recvLoop]; rfl
  | cons a w ih =>
      cases a with
      | silence =>
          rw [recvLoop]
          split
          · rfl
          · exact ih n got
      | segment b bs =>
          rw [recvLoop]
          dsimp only
          split
          · rw [ih, List.append_assoc]
            rfl
          · rw [Conn.stream, all_unread, ← List.append_assoc, ← List.append_assoc,
              List.append_assoc got, List.append_assoc got, piece_split]
            exact List.append_assoc ..

theorem tcprecv_stream (deadline : Bool) (c : Conn) (len : Nat) :
    (tcprecv deadline c len).bytes ++ (tcprecv deadline c len).conn.stream = c.stream := by
  rw [tcprecv]
  split
  · rw [Conn.stream, ← List.append_assoc, List.take_append_drop]
    rfl
  · exact recvLoop_stream deadline c.wire _ _

theorem tcprecvuntil_stream (deadline : Bool) (delims : Bytes) (len : Nat) (got : Bytes)
    (c : Conn) : (tcprecvuntil deadline delims len got c).bytes ++
      (tcprecvuntil deadline delims len got c).conn.stream = got ++ c.stream := by
  induction len generalizing got c with
  | zero => rfl
  | succ n ih =>
      have hrecv := tcprecv_stream deadline c 1
      rw [tcprecvuntil]
      split
      · split
        · rw [List.append_assoc, hrecv]
        · rw [ih, List.append_assoc, hrecv]
      · rw [List.append_assoc, hrecv]

private theorem readLoop_stream (deadline : Bool) (w : List Arrival) (n : Nat) (got : Bytes) :
    (readLoop deadline n got w).bytes ++ (readLoop deadline n got w).conn.stream =
      got ++ Arrival.all w := by
  induction w with
  | nil => rw [readLoop]; rfl
  | cons a w ih =>
      cases a with
      | silence =>
          rw [readLoop]
          split
          · rfl
          · exact ih
      | segment b bs =>
          rw [readLoop, Conn.stream, all_unread, List.nil_append, List.append_assoc,
            ← List.append_assoc (List.take n _), List.take_append_drop]
          rfl

theorem tcpread_stream (deadline : Bool) (c : Conn) (len : Nat) :
    (tcpread deadline c len).bytes ++ (tcpread deadline c len).conn.stream = c.stream := by
  rw [tcpread]
  split
  · rw [Conn.stream, ← List.append_assoc, List.take_append_drop]
    rfl
  · exact readLoop_stream deadline c.wire _ _

/-! ### No more is stored than there is room for -/

private theorem recvLoop_length (deadline : Bool) (w : List Arrival) (n : Nat) (got : Bytes) :
    (recvLoop deadline n got w).bytes.length ≤ got.length + n := by
  induction w generalizing n got with
  | nil => exact Nat.le_add_right ..
  | cons a w ih =>
      cases a with
      | silence =>
          rw [recvLoop]
          split
          · exact Nat.le_add_right ..
          · exact ih n got
      | segment b bs =>
          rw [recvLoop]
          dsimp only
          split
          · next hlt =>
              have := ih (n - (b :: bs).length) (got ++ (b :: bs))
              rw [List.length_append] at this
              omega
          · rw [List.length_append]
            exact Nat.add_le_add_left (List.length_take_le ..) _

theorem tcprecv_length (deadline : Bool) (c : Conn) (len : Nat) :
    (tcprecv deadline c len).bytes.length ≤ len := by
  rw [tcprecv]
  split
  · exact List.length_take_le ..
  · have := recvLoop_length deadline c.wire (len - c.ibuf.length) c.ibuf
    omega

/-! ### What is pending is received -/

private theorem recvLoop_pending (deadline : Bool) {w : List Arrival} {n : Nat} (got : Bytes)
    (h : n ≤ (Arrival.soon w).length) (hn : 0 < n) :
    (recvLoop deadline n got w).bytes = got ++ (Arrival.soon w).take n ∧
      (recvLoop deadline n got w).errno = none ∧
      (recvLoop deadline n got w).conn.pending = (Arrival.soon w).drop n := by
  induction w generalizing n got with
  | nil => exact absurd h (Nat.not_le.mpr hn)
  | cons a w ih =>
      cases a with
      | silence => exact absurd h (Nat.not_le.mpr hn)
      | segment b bs =>
          rw [Arrival.soon, List.length_append] at h
          rw [recvLoop, Arrival.soon]
          dsimp only
          generalize b :: bs = piece at *
          by_cases hlt : piece.length < n
          · obtain ⟨hbytes, herrno, hpending⟩ := ih (got ++ piece) (by omega : n - piece.length ≤ _)
              (by omega)
            rw [if_pos hlt, List.take_append, List.drop_append, List.take_of_length_le (by omega),
              List.drop_of_length_le (by omega), List.nil_append, ← List.append_assoc]
            exact ⟨hbytes, herrno, hpending⟩
          · have hle : n ≤ piece.length := Nat.not_lt.mp hlt
            rw [if_neg hlt, List.take_append_of_le_length hle, List.drop_append_of_le_length hle,
              List.take_take, Nat.min_eq_left (Nat.le_max_left ..)]
            refine ⟨rfl, rfl, ?_⟩
            rw [Conn.pending, soon_unread, ← List.append_assoc,
              piece_rest piece (Nat.le_max_left ..)]

/-- Bytes that arrive in time are received, whatever the pieces are. -/
theorem tcprecv_pending (deadline : Bool) {c : Conn} {len : Nat} (h : len ≤ c.pending.length) :
    (tcprecv deadline c len).bytes = c.pending.take len ∧
      (tcprecv deadline c len).errno = none ∧
      (tcprecv deadline c len).conn.pending = c.pending.drop len := by
  rw [Conn.pending, List.length_append] at h
  rw [tcprecv, Conn.pending]
  by_cases hle : len ≤ c.ibuf.length
  · rw [if_pos hle, List.take_append_of_le_length hle, List.drop_append_of_le_length hle]
    exact ⟨rfl, rfl, rfl⟩
  · have hrest : len - c.ibuf.length ≤ (Arrival.soon c.wire).length := by omega
    obtain ⟨hbytes, herrno, hpending⟩ := recvLoop_pending deadline c.ibuf hrest (by omega)
    rw [if_neg hle, List.take_append, List.drop_append, List.take_of_length_le (by omega),
      List.drop_of_length_le (by omega), List.nil_append]
    exact ⟨hbytes, herrno, hpending⟩

/-- A call that stops at a byte stops at the first. -/
theorem tcprecvuntil_pending (deadline : Bool) {delims s rest : Bytes} {d : UInt8} {len : Nat}
    (got : Bytes) {c : Conn} (hs : ∀ b ∈ s, b ∉ delims) (hd : d ∈ delims) (hlen : s.length < len)
    (hc : c.pending = s ++ d :: rest) :
    (tcprecvuntil deadline delims len got c).bytes = got ++ (s ++ [d]) ∧
      (tcprecvuntil deadline delims len got c).errno = none ∧
      (tcprecvuntil deadline delims len got c).conn.pending = rest := by
  induction s generalizing len got c with
  | nil =>
      obtain ⟨n, rfl⟩ : ∃ n, len = n + 1 := ⟨len - 1, by simp only [List.length_nil] at hlen; omega⟩
      obtain ⟨hbytes, herrno, hpending⟩ := @tcprecv_pending deadline c 1
        (by rw [hc]; exact Nat.succ_le_succ (Nat.zero_le _))
      rw [hc] at hbytes hpending
      have hany : (tcprecv deadline c 1).bytes.any (· ∈ delims) = true := by
        rw [hbytes]
        simp [hd]
      rw [tcprecvuntil, if_pos herrno, if_pos hany]
      exact ⟨congrArg (got ++ ·) hbytes, rfl, hpending⟩
  | cons b s ih =>
      obtain ⟨n, rfl⟩ : ∃ n, len = n + 1 := ⟨len - 1, by rw [List.length_cons] at hlen; omega⟩
      obtain ⟨hbytes, herrno, hpending⟩ := @tcprecv_pending deadline c 1
        (by rw [hc]; exact Nat.succ_le_succ (Nat.zero_le _))
      rw [hc] at hbytes hpending
      rw [List.forall_mem_cons] at hs
      have hany : ¬ (tcprecv deadline c 1).bytes.any (· ∈ delims) = true := by
        rw [hbytes]
        simp [hs.1]
      rw [tcprecvuntil, if_pos herrno, if_neg hany]
      obtain ⟨hall, herrno', hrest⟩ := ih (got ++ (tcprecv deadline c 1).bytes) hs.2
        (Nat.lt_of_succ_lt_succ hlen) hpending
      refine ⟨hall.trans ?_, herrno', hrest⟩
      rw [hbytes, List.append_assoc]
      rfl

/-- How many bytes one read can bring. -/
def Conn.atHand (c : Conn) : Nat :=
  match c.wire with
  | .segment b bs :: _ => c.ibuf.length + (b :: bs).length
  | _ => c.ibuf.length

/-- A read of what is in the buffer, or in the buffer and the first piece. -/
theorem tcpread_pending (deadline : Bool) {c : Conn} {len : Nat} (h : len ≤ c.atHand) :
    (tcpread deadline c len).bytes = c.pending.take len ∧
      (tcpread deadline c len).errno = none ∧
      (tcpread deadline c len).conn.pending = c.pending.drop len := by
  rw [tcpread, Conn.pending]
  by_cases hle : len ≤ c.ibuf.length
  · rw [if_pos hle, List.take_append_of_le_length hle, List.drop_append_of_le_length hle]
    exact ⟨rfl, rfl, rfl⟩
  · obtain ⟨b, bs, w, hw, hlen⟩ : ∃ b bs w, c.wire = .segment b bs :: w ∧
        len ≤ c.ibuf.length + (b :: bs).length := by
      rw [Conn.atHand] at h
      split at h
      · next b bs w hw => exact ⟨b, bs, w, hw, h⟩
      · exact absurd h hle
    rw [if_neg hle, hw, readLoop, Arrival.soon, List.take_append, List.drop_append,
      List.take_of_length_le (by omega : c.ibuf.length ≤ len),
      List.drop_of_length_le (by omega : c.ibuf.length ≤ len), List.nil_append,
      List.take_append_of_le_length (by omega), List.drop_append_of_le_length (by omega)]
    refine ⟨rfl, rfl, ?_⟩
    rw [Conn.pending, soon_unread]
    rfl

/-- One byte is always at hand when there are any. -/
theorem one_le_atHand {c : Conn} {b : UInt8} {rest : Bytes} (h : c.pending = b :: rest) :
    1 ≤ c.atHand := by
  obtain ⟨ibuf, wire⟩ := c
  cases ibuf with
  | cons x ibuf =>
      rw [Conn.atHand]
      split
      · exact Nat.le_add_right_of_le (Nat.succ_le_succ (Nat.zero_le _))
      · exact Nat.succ_le_succ (Nat.zero_le _)
  | nil =>
      cases wire with
      | nil => nomatch h
      | cons a w =>
          cases a with
          | silence => nomatch h
          | segment y ys => exact Nat.le_add_left_of_le (Nat.succ_le_succ (Nat.zero_le _))

theorem pending_length_le (c : Conn) : c.pending.length ≤ c.stream.length := by
  have hsoon : ∀ w : List Arrival, (Arrival.soon w).length ≤ (Arrival.all w).length := by
    intro w
    induction w with
    | nil => exact Nat.le_refl 0
    | cons a w ih =>
        cases a with
        | silence => exact Nat.zero_le _
        | segment b bs =>
            rw [Arrival.soon, Arrival.all, List.length_append, List.length_append]
            exact Nat.add_le_add_left ih _
  rw [Conn.pending, Conn.stream, List.length_append, List.length_append]
  exact Nat.add_le_add_left (hsoon c.wire) _

/-- A read takes the first piece when nothing is in the buffer. -/
theorem tcpread_piece (deadline : Bool) (b : UInt8) (bs : Bytes) (w : List Arrival) {len : Nat}
    (h : (b :: bs).length ≤ len) :
    tcpread deadline ⟨[], .segment b bs :: w⟩ len = ⟨b :: bs, none, ⟨[], w⟩⟩ := by
  have hpos : ¬ len ≤ ([] : Bytes).length := by
    rw [List.length_cons] at h
    exact Nat.not_le.mpr (Nat.lt_of_succ_le (Nat.le_trans (Nat.succ_le_succ (Nat.zero_le _)) h))
  rw [tcpread, if_neg hpos, readLoop, List.length_nil, Nat.sub_zero, List.take_of_length_le h,
    List.drop_of_length_le h]
  rfl

end Suil.Tcp
