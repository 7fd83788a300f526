import Suil.Basic.Buffer
import Suil.Lib.LittleEndian
import Suil.Lib.Traced
import Suil.Net.Tcp

set_option autoImplicit false

/-! # Messages of a connection

`RpcTxRx` (`rpc/common.cpp`) sends a message with the number of its bytes in front, or as it is. It
is received into a buffer: as many bytes as announced, or what one read brings and, when that is as
much as there is still room for, what another one brings. `carries_iff` says which messages arrive
and which announced numbers are safe. -/

namespace Suil.Rpc

open OBuffer (Stop)
open Tcp (Conn)
open StepMachine (Next)
open LittleEndian (leBytes leNat)

/-! ## Sending -/

/-- The sending side of a connection: `obuf`, and what is on its way. -/
structure Outgoing where
  obuf : Bytes
  sent : Bytes

/-- `tcpflush`. -/
def Outgoing.tcpflush (o : Outgoing) : Outgoing := ⟨[], o.sent ++ o.obuf⟩

/-- `tcpsend` of a buffered connection. -/
def Outgoing.tcpsend (o : Outgoing) (buf : Bytes) : Nat × Outgoing :=
  if o.obuf.length + buf.length ≤ Tcp.MILL_TCP_BUFLEN then
    (buf.length, { o with obuf := o.obuf ++ buf })
  else
    let o := o.tcpflush
    if o.obuf.length + buf.length ≤ Tcp.MILL_TCP_BUFLEN then
      (buf.length, { o with obuf := o.obuf ++ buf })
    else (buf.length, { o with sent := o.sent ++ buf })

/-- `sendRaw`; nothing sent is a failure. -/
def sendRaw (protoUseSize : Bool) (resp : Bytes) (o : Outgoing) : Bool × Outgoing :=
  let (size, o) := if protoUseSize then o.tcpsend (leBytes 8 resp.length) else (8, o)
  if size = 0 then (false, o)
  else
    let (n, o) := o.tcpsend resp
    if n = 0 then (false, o) else (true, o.tcpflush)

/-! ## Receiving -/

/-- What is received goes to `&rxb[pos]`. -/
def storeAt (b : OBuffer) (pos : Nat) (bs : Bytes) : Except Stop OBuffer := do
  let b' ← { b with offset := pos }.store bs
  .ok { b' with offset := b.offset }

/-- What `receiveRaw` returns, the buffer and the connection. -/
abbrev Received : Type := Bool × OBuffer × Conn

/-- `receiveRaw` with a size in front, after the first `reserve`. -/
def receiveSized (b : OBuffer) (c : Conn) : Except Stop Received := do
  let r := Tcp.tcprecv false c 8
  if r.errno ≠ none then .ok (false, b, r.conn)
  else
    let nread := leNat r.bytes
    let b := b.reserve nread
    let r := Tcp.tcprecv true r.conn nread
    let b ← storeAt b 0 r.bytes
    if r.errno ≠ none then .ok (false, b, r.conn)
    else
      let b ← b.seekBy nread
      .ok (true, b, r.conn)

/-- The state of the loop of `receiveRaw`. -/
structure Reading where
  rxb : OBuffer
  tread : Nat
  deadline : Bool
  conn : Conn

/-- One round of the loop. It goes on when a read brings as much as there is room left for after
it. -/
def readStep (s : Reading) : Except Stop (Next Reading Received) := do
  if s.rxb.offset < s.tread then .error (.thrown s.rxb)
  else
    let r := Tcp.tcpread s.deadline s.conn s.rxb.remaining
    let b ← storeAt s.rxb s.tread r.bytes
    let nread := r.bytes.length
    if r.errno ≠ none ∨ nread = 0 ∧ s.tread = 0 then
      .ok (.done (if r.errno = some .timedOut then decide (b.offset ≠ 0) else false, b, r.conn))
    else
      let b ← if nread ≠ 0 then b.seekBy nread else .ok b
      if nread = b.remaining then .ok (.goon ⟨b.reserve 1024, s.tread + nread, true, r.conn⟩)
      else .ok (.done (true, b, r.conn))

/-- `receiveRaw`, with a bound on the rounds of its loop. -/
def receiveRaw (fuel : Nat) (protoUseSize : Bool) (rxb : OBuffer) (c : Conn) :
    Option (Except Stop Received) :=
  let rxb := rxb.reserve 512
  if protoUseSize then some (receiveSized rxb c)
  else StepMachine.run readStep fuel ⟨rxb, 0, false, c⟩

theorem receiveRaw_sized (fuel : Nat) (rxb : OBuffer) (c : Conn) :
    receiveRaw fuel true rxb c = some (receiveSized (rxb.reserve 512) c) := rfl

theorem receiveRaw_plain (fuel : Nat) (rxb : OBuffer) (c : Conn) :
    receiveRaw fuel false rxb c =
      StepMachine.run readStep fuel ⟨rxb.reserve 512, 0, false, c⟩ := rfl

/-! ## What a connection should do -/

/-- A buffer to receive into: new, or reset, of any capacity. -/
structure Fresh where
  rxb : OBuffer
  shaped : rxb.Shaped
  empty : rxb.offset = 0

/-- The bytes that a message is sent as. -/
def frame (protoUseSize : Bool) (payload : Bytes) : Bytes :=
  (sendRaw protoUseSize payload ⟨[], []⟩).2.sent

/-- The message is sent, and received in whatever pieces it arrives; with sizes also when the
next messages are right behind it. Reads without a size leave nothing in the connection's buffer. -/
def Carries (b : Fresh) (protoUseSize : Bool) (payload : Bytes) : Prop :=
  (sendRaw protoUseSize payload ⟨[], []⟩).1 = true ∧
    ∀ (c : Conn) (rest : Bytes), c.pending = frame protoUseSize payload ++ rest →
      (protoUseSize = false → c.ibuf = [] ∧ rest = []) →
      ∃ fuel b' c', receiveRaw fuel protoUseSize b.rxb c = some (.ok (true, b', c')) ∧
        b'.contents = payload ∧ c'.pending = rest

/-- Whatever follows an announced number of bytes, none of it is stored outside of the memory. -/
def Guards (b : Fresh) (announced : Nat) : Prop :=
  ∀ (c : Conn) (rest : Bytes), c.pending = leBytes 8 announced ++ rest →
    ∀ fuel, receiveRaw fuel true b.rxb c ≠ some (.error .overrun)

/-! ## What is sent -/

private theorem tcpsend_spec (o : Outgoing) (buf : Bytes) :
    (o.tcpsend buf).1 = buf.length ∧
      (o.tcpsend buf).2.sent ++ (o.tcpsend buf).2.obuf = (o.sent ++ o.obuf) ++ buf := by
  unfold Outgoing.tcpsend
  split
  · exact ⟨rfl, (List.append_assoc ..).symm⟩
  · dsimp only [Outgoing.tcpflush]
    split
    · exact ⟨rfl, rfl⟩
    · exact ⟨rfl, List.append_nil _⟩

/-- The number of bytes in front, or nothing. -/
def prelude (protoUseSize : Bool) (payload : Bytes) : Bytes :=
  if protoUseSize then leBytes 8 payload.length else []

private theorem sendRaw_nil (protoUseSize : Bool) :
    (sendRaw protoUseSize [] ⟨[], []⟩).1 = false := by
  cases protoUseSize <;> rfl

private theorem sendRaw_spec (protoUseSize : Bool) {payload : Bytes} (h : payload ≠ []) :
    (sendRaw protoUseSize payload ⟨[], []⟩).1 = true ∧
      frame protoUseSize payload = prelude protoUseSize payload ++ payload := by
  have hlen : payload.length ≠ 0 := List.length_eq_zero_iff.not.mpr h
  have hsend (o : Outgoing) : (o.tcpsend payload).1 ≠ 0 := (tcpsend_spec o payload).1 ▸ hlen
  have hsent (o : Outgoing) : (o.tcpsend payload).2.tcpflush.sent = (o.sent ++ o.obuf) ++ payload :=
    (tcpsend_spec o payload).2
  rw [frame]
  cases protoUseSize with
  | false =>
      have heq : sendRaw false payload ⟨[], []⟩ =
          (true, (Outgoing.tcpsend ⟨[], []⟩ payload).2.tcpflush) := by
        rw [sendRaw]
        exact if_neg (hsend _)
      rw [heq]
      exact ⟨rfl, hsent _⟩
  | true =>
      have heq : sendRaw true payload ⟨[], []⟩ =
          (true, (Outgoing.tcpsend (Outgoing.tcpsend ⟨[], []⟩ (leBytes 8 payload.length)).2
            payload).2.tcpflush) := by
        rw [sendRaw]
        exact if_neg (hsend _)
      rw [heq]
      exact ⟨rfl, (hsent _).trans (congrArg (· ++ payload) (tcpsend_spec _ _).2)⟩

/-! ## Storing what is received -/

section

variable {b : OBuffer} (hs : b.Shaped) (hempty : b.offset = 0)
include hs hempty

private theorem storeAt_ok (hmem : b.mem ≠ none) {bs : Bytes} (hfit : bs.length ≤ b.size + 1) :
    ∃ b', storeAt b 0 bs = .ok b' ∧ b'.Shaped ∧ b'.size = b.size ∧ b'.offset = 0 ∧
      (b'.mem.getD []).take bs.length = bs := by
  have heq : ({ b with offset := 0 } : OBuffer) = b := by rw [← hempty]
  have hroom : b.offset + bs.length ≤ b.size + 1 := by omega
  obtain ⟨b', hstore, hs', hsize, hoffset, htake⟩ :=
    OBuffer.store_ok (.refl hs) (fun _ => hmem) (hempty.symm ▸ Nat.zero_le _) hroom
  have hbs := htake bs.length (Nat.le_refl _)
  rw [OBuffer.contents, hempty, Nat.zero_add, List.take_zero, List.nil_append,
    List.take_length] at hbs
  refine ⟨b', ?_, hs', hsize, hoffset.trans hempty, hbs⟩
  rw [storeAt, heq, hstore]
  show Except.ok { b' with offset := b.offset } = _
  rw [← hoffset]

private theorem storeAt_overrun {bs : Bytes} (hfit : b.size + 1 < bs.length) :
    storeAt b 0 bs = .error .overrun := by
  have hlen : (b.mem.getD []).length ≤ b.size + 1 := by
    rw [hs.memory]
    split
    · exact Nat.zero_le _
    · exact Nat.le_refl _
  have hne : bs ≠ [] := List.ne_nil_of_length_pos (by omega)
  have heq : ({ b with offset := 0 } : OBuffer) = b := by rw [← hempty]
  rw [storeAt, heq, OBuffer.store, if_neg hne, if_neg (by omega)]
  rfl

end

/-- The buffer after the first `reserve`. -/
private theorem Fresh.reserve (b : Fresh) : (b.rxb.reserve 512).Shaped ∧
    (b.rxb.reserve 512).offset = 0 ∧ 512 ≤ (b.rxb.reserve 512).size := by
  have hle : b.rxb.offset ≤ b.rxb.size := b.empty.symm ▸ Nat.zero_le _
  obtain ⟨he, hsize, -⟩ := OBuffer.reserve_spec b.shaped hle 512
  refine ⟨he.shaped, he.offset.trans b.empty, ?_⟩
  rw [hsize, OBuffer.reserved, OBuffer.grown, b.empty]
  split
  · omega
  · obtain ⟨hge, hlt⟩ := OBuffer.roundUp_lt (max b.rxb.size (0 + 512 - b.rxb.size))
    rw [Nat.mod_eq_of_lt (by unfold OBuffer.UINT32; omega)]
    omega

/-- When the capacity wraps around, it is far below what it should be. -/
private theorem reserved_lt {b : OBuffer} (hs : b.Shaped) (hempty : b.offset = 0) {n : Nat}
    (h : b.reserved n < n) : b.reserved n + 1 < n := by
  have hwide := hs.wide
  have hmultiple := hs.multiple
  have hlt : b.reserved n < OBuffer.UINT32 := by
    rw [OBuffer.reserved, OBuffer.grown]
    split
    · exact hwide
    · exact Nat.mod_lt _ (by decide)
  rw [OBuffer.reserved, OBuffer.grown, hempty] at h hlt ⊢
  split at h
  · omega
  · next hfit =>
      rw [if_neg hfit] at hlt ⊢
      obtain ⟨hge, hround⟩ := OBuffer.roundUp_lt (max b.size (0 + n - b.size))
      have height := OBuffer.roundUp_multiple (max b.size (0 + n - b.size))
      generalize OBuffer.roundUp (max b.size (0 + n - b.size)) = r at *
      unfold OBuffer.UINT32 at *
      rcases Nat.le_total b.size (0 + n - b.size) with hmax | hmax
      · rw [Nat.max_eq_right hmax] at hround hge
        omega
      · rw [Nat.max_eq_left hmax] at hround hge
        omega

/-! ## Messages with their size -/

/-- The announced number is read, and then as many bytes at most. -/
private theorem receiveSized_eq (b : OBuffer) {n : Nat} (hn : n < 2 ^ 64) {c : Conn} {rest : Bytes}
    (hc : c.pending = leBytes 8 n ++ rest) :
    ∃ c₁, c₁.pending = rest ∧ receiveSized b c = (do
      let b' ← storeAt (b.reserve n) 0 (Tcp.tcprecv true c₁ n).bytes
      if (Tcp.tcprecv true c₁ n).errno ≠ none then
        .ok (false, b', (Tcp.tcprecv true c₁ n).conn)
      else
        let b' ← b'.seekBy n
        .ok (true, b', (Tcp.tcprecv true c₁ n).conn)) := by
  have hlen : (leBytes 8 n).length = 8 := LittleEndian.length_leBytes 8 n
  obtain ⟨hbytes, herrno, hpending⟩ := @Tcp.tcprecv_pending false c 8
    (by rw [hc, List.length_append, hlen]; exact Nat.le_add_right ..)
  rw [hc, List.take_left' hlen] at hbytes
  rw [hc, List.drop_left' hlen] at hpending
  have hnread : leNat (Tcp.tcprecv false c 8).bytes = n := by
    rw [hbytes, LittleEndian.leNat_leBytes]
    exact Nat.mod_eq_of_lt hn
  refine ⟨(Tcp.tcprecv false c 8).conn, hpending, ?_⟩
  rw [receiveSized, if_neg (not_not.mpr herrno), hnread]

section

variable {b : OBuffer} (hs : b.Shaped) (hempty : b.offset = 0) (hroom : 512 ≤ b.size)
  {n : Nat} (hn : n < 2 ^ 64) {c : Conn} {rest : Bytes}
include hs hempty hroom hn

omit hn in
/-- The buffer that the announced bytes are stored in. -/
private theorem reserve_announced (n : Nat) : (b.reserve n).Shaped ∧ (b.reserve n).offset = 0 ∧
    (b.reserve n).size = b.reserved n ∧ (b.reserve n).mem ≠ none := by
  obtain ⟨he, hsize, hmem⟩ :=
    OBuffer.reserve_spec hs (hempty.symm ▸ Nat.zero_le _ : b.offset ≤ b.size) n
  refine ⟨he.shaped, he.offset.trans hempty, hsize, ?_⟩
  by_cases hzero : n = 0
  · have heq : b.reserve n = b := by
      rw [hzero, OBuffer.reserve]
      exact if_neg (Nat.not_lt_zero _)
    rw [heq]
    exact fun hnone => absurd (hs.null hnone) (by omega)
  · exact hmem hzero

private theorem receiveSized_ok {body : Bytes} (hbody : body.length = n)
    (hc : c.pending = leBytes 8 n ++ (body ++ rest)) (hfit : n < b.reserved n) :
    ∃ b' c', receiveSized b c = .ok (true, b', c') ∧ b'.contents = body ∧ c'.pending = rest := by
  obtain ⟨hs', hempty', hsize, hmem⟩ := reserve_announced hs hempty hroom n
  obtain ⟨c₁, hc₁, heq⟩ := receiveSized_eq b hn hc
  obtain ⟨hbytes, herrno, hpending⟩ := @Tcp.tcprecv_pending true c₁ n
    (by rw [hc₁, List.length_append, hbody]; exact Nat.le_add_right ..)
  rw [hc₁, List.take_left' hbody] at hbytes
  rw [hc₁, List.drop_left' hbody] at hpending
  obtain ⟨b', hstore, -, hsize', hoffset, htake⟩ := storeAt_ok hs' hempty' hmem
    (by omega : body.length ≤ (b.reserve n).size + 1)
  have hseek : b'.seekBy n = .ok { b' with offset := n } := by
    rw [OBuffer.seekBy_of_lt (by omega), hoffset, Nat.zero_add]
  refine ⟨{ b' with offset := n }, (Tcp.tcprecv true c₁ n).conn, ?_, ?_, hpending⟩
  · rw [heq, hbytes, hstore]
    show (if _ then _ else b'.seekBy n >>= _) = _
    rw [if_neg (not_not.mpr herrno), hseek]
    rfl
  · rw [← hbody]
    exact htake

/-- At the end of the capacity `seek` throws, beyond it the bytes are stored outside of the
memory. -/
private theorem receiveSized_not_ok {body : Bytes} (hbody : body.length = n)
    (hc : c.pending = leBytes 8 n ++ (body ++ rest)) (hfit : ¬ n < b.reserved n) :
    (∃ b', receiveSized b c = .error (.thrown b')) ∧ n = b.reserved n ∨
      receiveSized b c = .error .overrun ∧ b.reserved n < n := by
  obtain ⟨hs', hempty', hsize, hmem⟩ := reserve_announced hs hempty hroom n
  obtain ⟨c₁, hc₁, heq⟩ := receiveSized_eq b hn hc
  obtain ⟨hbytes, herrno, -⟩ := @Tcp.tcprecv_pending true c₁ n
    (by rw [hc₁, List.length_append, hbody]; exact Nat.le_add_right ..)
  rw [hc₁, List.take_left' hbody] at hbytes
  rcases Nat.eq_or_lt_of_le (Nat.not_lt.mp hfit) with hexact | hlt
  · left
    obtain ⟨b', hstore, -, hsize', hoffset, -⟩ := storeAt_ok hs' hempty' hmem
      (by omega : body.length ≤ (b.reserve n).size + 1)
    refine ⟨⟨b', ?_⟩, hexact.symm⟩
    rw [heq, hbytes, hstore]
    show (if _ then _ else b'.seekBy n >>= _) = _
    rw [if_neg (not_not.mpr herrno), OBuffer.seekBy_of_le (by omega)]
    rfl
  · right
    have hfar := reserved_lt hs hempty hlt
    refine ⟨?_, hlt⟩
    rw [heq, hbytes, storeAt_overrun hs' hempty' (by omega)]
    rfl

/-- Fewer bytes than announced are no danger. -/
private theorem receiveSized_safe (hc : c.pending = leBytes 8 n ++ rest) (hfit : n ≤ b.reserved n) :
    receiveSized b c ≠ .error .overrun := by
  obtain ⟨hs', hempty', hsize, hmem⟩ := reserve_announced hs hempty hroom n
  obtain ⟨c₁, -, heq⟩ := receiveSized_eq b hn hc
  have hlength := Tcp.tcprecv_length true c₁ n
  obtain ⟨b', hstore, -, -, -, -⟩ := storeAt_ok hs' hempty' hmem
    (by omega : (Tcp.tcprecv true c₁ n).bytes.length ≤ (b.reserve n).size + 1)
  rw [heq, hstore]
  show (if _ then _ else b'.seekBy n >>= _) ≠ _
  split
  · nofun
  · rcases Nat.lt_or_ge (b'.offset + n) b'.size with hlt | hge
    · rw [OBuffer.seekBy_of_lt hlt]
      nofun
    · rw [OBuffer.seekBy_of_le hge]
      nofun

end

/-! ## Messages as they are -/

/-- A first read that brings less than there is room for, and not the half of it, is the message. -/
private theorem readStep_first {b : OBuffer} (hs : b.Shaped) (hempty : b.offset = 0)
    (hroom : 512 ≤ b.size) (x : UInt8) (bs : Bytes) (w : List Tcp.Arrival)
    (hlt : (x :: bs).length < b.size) (hhalf : 2 * (x :: bs).length ≠ b.size) :
    ∃ b', readStep ⟨b, 0, false, ⟨[], .segment x bs :: w⟩⟩ = .ok (.done (true, b', ⟨[], w⟩)) ∧
      b'.contents = x :: bs := by
  have hmem : b.mem ≠ none := fun hnone => absurd (hs.null hnone) (by omega)
  have hremaining : b.remaining = b.size := by
    rw [OBuffer.remaining_eq hs (hempty.symm ▸ Nat.zero_le _), hempty, Nat.sub_zero]
  have hread := Tcp.tcpread_piece false x bs w (hremaining.symm ▸ Nat.le_of_lt hlt)
  have hpos : (x :: bs).length ≠ 0 := Nat.succ_ne_zero _
  generalize x :: bs = piece at *
  obtain ⟨b', hstore, hs', hsize, hoffset, htake⟩ := storeAt_ok hs hempty hmem (Nat.le_succ_of_le
    (Nat.le_of_lt hlt))
  have hseek : b'.seekBy piece.length = .ok { b' with offset := piece.length } := by
    rw [OBuffer.seekBy_of_lt (by omega), hoffset, Nat.zero_add]
  have hrest : ({ b' with offset := piece.length } : OBuffer).remaining =
      b.size - piece.length := by
    have hwide := hs.wide
    rw [OBuffer.remaining]
    show (b'.size + OBuffer.UINT32 - piece.length) % OBuffer.UINT32 = _
    rw [hsize]
    unfold OBuffer.UINT32 at *
    omega
  have hdone : piece.length ≠ ({ b' with offset := piece.length } : OBuffer).remaining := by omega
  refine ⟨{ b' with offset := piece.length }, ?_, htake⟩
  rw [readStep, if_neg (Nat.not_lt_zero _), hread]
  show storeAt b 0 piece >>= _ = _
  rw [hstore, Except.bind_of_ok, if_neg (by simp [hpos]), if_pos hpos, hseek, Except.bind_of_ok]
  exact if_neg hdone

private theorem readStep_byte {b : OBuffer} (hs : b.Shaped) (hempty : b.offset = 0)
    (hroom : 512 ≤ b.size) (x : UInt8) (w : List Tcp.Arrival) :
    ∃ b', readStep ⟨b, 0, false, ⟨[], .segment x [] :: w⟩⟩ = .ok (.done (true, b', ⟨[], w⟩)) ∧
      b'.contents = [x] := by
  have hlen : [x].length = 1 := rfl
  exact readStep_first hs hempty hroom x [] w (by omega) (by omega)

/-- A message of one byte arrives in one piece. -/
private theorem one_piece {w : List Tcp.Arrival} {x : UInt8} (h : Tcp.Arrival.soon w = [x]) :
    ∃ w', w = .segment x [] :: w' ∧ Tcp.Arrival.soon w' = [] := by
  cases w with
  | nil => nomatch h
  | cons a w =>
      cases a with
      | silence => nomatch h
      | segment b bs =>
          rw [Tcp.Arrival.soon, List.cons_append, List.cons.injEq, List.append_eq_nil_iff] at h
          obtain ⟨rfl, rfl, hw⟩ := h
          exact ⟨w, rfl, hw⟩

/-! ## Which messages arrive -/

private theorem carries_sized (b : Fresh) {payload : Bytes} (hlen : payload.length < 2 ^ 64) :
    Carries b true payload ↔ payload ≠ [] ∧
      payload.length < (b.rxb.reserve 512).reserved payload.length := by
  obtain ⟨hs, hempty, hroom⟩ := b.reserve
  by_cases hne : payload = []
  · subst hne
    exact iff_of_false (fun h => Bool.false_ne_true ((sendRaw_nil true).symm.trans h.1))
      fun h => h.1 rfl
  obtain ⟨hsent, hframe⟩ := sendRaw_spec true hne
  rw [Carries, and_iff_right hsent, hframe, and_iff_right hne]
  constructor
  · intro h
    by_contra hfit
    have hc : Conn.pending ⟨prelude true payload ++ payload, []⟩ =
        leBytes 8 payload.length ++ (payload ++ []) := by
      rw [List.append_nil]
      exact List.append_nil _
    obtain ⟨fuel, b', c', hreceive, -⟩ := h ⟨prelude true payload ++ payload, []⟩ [] rfl nofun
    rw [receiveRaw_sized] at hreceive
    have hreceived := Option.some.inj hreceive
    rcases receiveSized_not_ok hs hempty hroom hlen rfl hc hfit
      with ⟨⟨b'', hthrown⟩, -⟩ | ⟨hoverrun, -⟩
    · nomatch hthrown.symm.trans hreceived
    · nomatch hoverrun.symm.trans hreceived
  · intro hfit c rest hc _
    rw [List.append_assoc] at hc
    obtain ⟨b', c', hreceive, hcontents, hrest⟩ :=
      receiveSized_ok hs hempty hroom hlen rfl hc hfit
    refine ⟨0, b', c', ?_, hcontents, hrest⟩
    rw [receiveRaw_sized, hreceive]

private theorem carries_plain (b : Fresh) (payload : Bytes) :
    Carries b false payload ↔ payload.length = 1 := by
  obtain ⟨hs, hempty, hroom⟩ := b.reserve
  by_cases hne : payload = []
  · subst hne
    exact iff_of_false (fun h => Bool.false_ne_true ((sendRaw_nil false).symm.trans h.1))
      Nat.zero_ne_one
  obtain ⟨hsent, hframe⟩ := sendRaw_spec false hne
  rw [Carries, and_iff_right hsent, hframe]
  constructor
  · intro h
    obtain ⟨x, bs, rfl⟩ := List.exists_cons_of_ne_nil hne
    cases bs with
    | nil => rfl
    | cons y bs =>
        -- the first byte arrives alone, and is taken for the message
        have hc : Conn.pending ⟨[], [.segment x [], .segment y bs]⟩ =
            prelude false (x :: y :: bs) ++ (x :: y :: bs) ++ [] := by
          simp [Conn.pending, Tcp.Arrival.soon, prelude]
        obtain ⟨fuel, b', c', hreceive, hcontents, -⟩ :=
          h ⟨[], [.segment x [], .segment y bs]⟩ [] hc fun _ => ⟨rfl, rfl⟩
        obtain ⟨b₁, hstep, hfirst⟩ := readStep_byte hs hempty hroom x [.segment y bs]
        rw [receiveRaw_plain] at hreceive
        cases fuel with
        | zero =>
            rw [StepMachine.run] at hreceive
            cases hreceive
        | succ fuel =>
            rw [StepMachine.run, hstep] at hreceive
            cases hreceive
            exact absurd (hcontents.symm.trans hfirst) (by simp)
  · intro hlen c rest hc hplain
    obtain ⟨x, rfl⟩ := List.length_eq_one_iff.mp hlen
    obtain ⟨hibuf, rfl⟩ := hplain rfl
    obtain ⟨ibuf, wire⟩ := c
    obtain rfl : ibuf = [] := hibuf
    obtain ⟨w, rfl, hw⟩ := one_piece hc
    obtain ⟨b', hstep, hfirst⟩ := readStep_byte hs hempty hroom x w
    refine ⟨1, b', ⟨[], w⟩, ?_, hfirst, hw⟩
    rw [receiveRaw_plain, StepMachine.run, hstep]

private theorem guards_of_fresh (b : Fresh) {n : Nat} (hn : n < 2 ^ 64) :
    Guards b n ↔ n ≤ (b.rxb.reserve 512).reserved n := by
  obtain ⟨hs, hempty, hroom⟩ := b.reserve
  constructor
  · intro h
    by_contra hfit
    have hlt := Nat.not_le.mp hfit
    have hbody : (List.replicate n NUL).length = n := List.length_replicate
    have hc : Conn.pending ⟨leBytes 8 n ++ List.replicate n NUL, []⟩ =
        leBytes 8 n ++ (List.replicate n NUL ++ []) := by
      rw [List.append_nil]
      exact List.append_nil _
    have hreceive := h ⟨leBytes 8 n ++ List.replicate n NUL, []⟩ (List.replicate n NUL)
      (List.append_nil _) 0
    rw [receiveRaw_sized] at hreceive
    rcases receiveSized_not_ok hs hempty hroom hn hbody hc (Nat.lt_asymm hlt)
      with ⟨-, hexact⟩ | ⟨hoverrun, -⟩
    · exact absurd hexact (Nat.ne_of_gt hlt)
    · exact hreceive (congrArg some hoverrun)
  · intro hfit c rest hc fuel hreceive
    rw [receiveRaw_sized] at hreceive
    exact receiveSized_safe hs hempty hroom hn hc hfit (Option.some.inj hreceive)

/-- Into any fresh buffer: a message arrives, however it is cut into pieces, exactly when it has at
least one byte and is shorter than the capacity that is reserved for it, or is one byte without a
size; and an announced number is safe exactly when that many bytes are reserved. -/
theorem carries_iff (b : Fresh) (protoUseSize : Bool) (payload : Sized OBuffer.UINT32)
    (announced : UInt64) :
    Carries b protoUseSize payload.bytes ∧ Guards b announced.toNat ↔
      (payload.bytes ≠ [] ∧
        if protoUseSize then
          payload.bytes.length < (b.rxb.reserve 512).reserved payload.bytes.length
        else payload.bytes.length = 1) ∧
      announced.toNat ≤ (b.rxb.reserve 512).reserved announced.toNat := by
  rw [guards_of_fresh b announced.toNat_lt]
  apply and_congr_left'
  cases protoUseSize with
  | true => exact carries_sized b (Nat.lt_trans payload.bound (by decide))
  | false =>
      rw [carries_plain, if_neg Bool.false_ne_true]
      exact (and_iff_right_of_imp fun hlen => List.ne_nil_of_length_pos (hlen ▸ Nat.one_pos)).symm

/-- A message of 1024 bytes ends with the capacity, and `seek` does not go there. -/
theorem not_carries_capacity : ¬ ∀ (b : Fresh) (protoUseSize : Bool)
    (payload : Sized OBuffer.UINT32) (announced : UInt64),
    Carries b protoUseSize payload.bytes ∧ Guards b announced.toNat := by
  intro h
  obtain ⟨hs, hle⟩ := OBuffer.new_shaped 1024
  have hlen : (List.replicate 1024 NUL).length = 1024 := List.length_replicate
  have hcarries := (h ⟨.new 1024, hs, rfl⟩ true ⟨List.replicate 1024 NUL, by rw [hlen]; decide⟩ 0).1
  have hfit := ((carries_sized ⟨.new 1024, hs, rfl⟩ (by rw [hlen]; decide)).mp hcarries).2
  rw [hlen] at hfit
  exact absurd hfit
    (by decide : ¬ 1024 < ((OBuffer.new 1024).reserve 512).reserved 1024)

end Suil.Rpc
