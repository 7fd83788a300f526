import Suil.Basic.Buffer
import Suil.Lib.Traced
import Suil.Net.Tcp
import Suil.Redis.Resp

set_option autoImplicit false

/-! # Replies of Redis

`BaseClient::recvresp` (`redis.cpp`) reads one value of the protocol from a connection into a
buffer, and stages a reply for each of its leaves. A reply refers to its text in the buffer's
memory; when the buffer grows, that memory is given back. `receives_of_meets` says for which runs
the value arrives. -/

namespace Suil.Redis

open OBuffer (Stop)
open Tcp (Conn)

/-- A `String` that does not own its memory: so many bytes from a place of one of the blocks that
the buffer has had. -/
structure View where
  block : Nat
  pos : Nat
  len : Nat
  deriving DecidableEq, Repr

/-- `Reply(prefix, data)`; nothing is `String{nullptr}`. -/
structure Reply where
  type : UInt8
  data : Option View
  deriving DecidableEq, Repr

/-- The connection, the buffer with the number of blocks it has had, and the staged replies. -/
structure Rx where
  conn : Conn
  out : OBuffer
  block : Nat
  stagging : List Reply

/-- How `recvresp` does not return `true`: it returns `false`, a number is none or the loop's `int`
overflows, or a function of the buffer does not return. `endless` is a loop that has no more bytes
to read. -/
inductive Halt where
  | refused
  | invalid
  | overflow
  | stopped (e : Stop)
  | endless

/-- A call of the buffer. -/
def ofBuffer {α : Type} : Except Stop α → Except Halt α
  | .ok a => .ok a
  | .error e => .error (.stopped e)

theorem ofBuffer_ok {α : Type} (a : α) : ofBuffer (.ok a) = .ok a := rfl

/-- `out.reserve(n)`. -/
def Rx.reserve (s : Rx) (n : Nat) : Rx :=
  { s with out := s.out.reserve n, block := if s.out.remaining < n then s.block + 1 else s.block }

/-- `out << '\0'`. -/
def Rx.terminate (s : Rx) : Except Halt Rx := do
  let out ← ofBuffer (s.out.call (.formatted [NUL]))
  .ok { s with out := out, block := if s.out.remaining < 1 then s.block + 1 else s.block }

/-- `stagging.emplace_back(Reply(prefix, tmp))`. -/
def Rx.stage (s : Rx) (type : UInt8) (data : Option View) : Rx :=
  { s with stagging := s.stagging ++ [⟨type, data⟩] }

section

variable (deadline : Bool)

/-- The loop of `readline`, for the room there was at first. -/
def readlineLoop : Nat → Nat → OBuffer → Conn → Except Halt (OBuffer × Conn)
  | 0, _, _, _ => .error .endless
  | fuel + 1, cap, out, c => do
      let r := Tcp.tcprecvuntil deadline [CR] cap [] c
      let out ← ofBuffer (out.store r.bytes)
      match r.errno with
      | some .noBufs => do
          -- `seek` to the end of the capacity throws, so there is no second round
          let out ← ofBuffer (out.seekBy r.bytes.length)
          readlineLoop fuel r.bytes.length (out.reserve 512) r.conn
      | some _ => .error .refused
      | none => do
          let out ← ofBuffer (out.seekBy (r.bytes.length - 1))
          let r := Tcp.tcprecvuntil deadline [LF] 2 [] r.conn
          if r.errno ≠ none then .error .refused else .ok (out, r.conn)

/-- `readline`. -/
def readline (out : OBuffer) (c : Conn) : Except Halt (OBuffer × Conn) :=
  let out := out.reserve 255
  readlineLoop deadline (c.stream.length + 1) out.remaining out c

/-- `readline(out)` with the buffer of the reply. -/
def Rx.readline (s : Rx) : Except Halt Rx := do
  let (out, c) ← Redis.readline deadline s.out s.conn
  .ok { s with
    conn := c, out := out, block := if s.out.remaining < 255 then s.block + 1 else s.block }

/-- `readlen`, with a buffer of its own. -/
def Rx.readlen (s : Rx) : Except Halt (Int × Rx) := do
  let (out, c) ← Redis.readline deadline (.new 16) s.conn
  match strtonum out.contents with
  | none => .error .invalid
  | some len => .ok (len, { s with conn := c })

/-- The first byte. -/
def Rx.readType (s : Rx) : Except Halt (UInt8 × Rx) :=
  let r := Tcp.tcpread deadline s.conn 1
  if r.errno ≠ none then .error .refused else .ok (r.bytes.headD NUL, { s with conn := r.conn })

/-- An error, an integer or a simple string. -/
def Rx.recvLine (s : Rx) (type : UInt8) : Except Halt Rx := do
  let offset := s.out.offset
  let s ← s.readline deadline
  let tmp : View := ⟨s.block, offset, s.out.offset - offset⟩
  let s ← s.terminate
  .ok (s.stage type (some tmp))

/-- A bulk string, after its length. -/
def Rx.recvBulk (s : Rx) (len : Int) : Except Halt Rx :=
  if 0 ≤ len then do
    let offset := s.out.offset
    let size := len.toNat + 2
    let s := s.reserve (size + 2)
    let r := Tcp.tcpread deadline s.conn size
    let out ← ofBuffer (s.out.store r.bytes)
    let s := { s with out := out, conn := r.conn }
    if r.errno ≠ none then .error .refused
    else if len ≠ 0 then do
      let out ← ofBuffer (s.out.seekBy len.toNat)
      let s := { s with out := out }
      let tmp : View := ⟨s.block, offset, len.toNat % OBuffer.UINT32⟩
      let s ← s.terminate
      .ok (s.stage 36 (some tmp))
    else .ok (s.stage 36 none)
  else .ok (s.stage 36 none)

/-- So many rounds of a loop. -/
def rounds (recv : Rx → Except Halt Rx) : Nat → Rx → Except Halt Rx
  | 0, s => .ok s
  | n + 1, s => recv s >>= rounds recv n

/-- `for (int i = 0; i < len; i++)`. -/
def Rx.recvArray (recv : Rx → Except Halt Rx) (s : Rx) (len : Nat) : Except Halt Rx := do
  let s ← rounds recv (min len (2 ^ 31)) s
  if 2 ^ 31 ≤ len then .error .overflow else .ok s

/-- `recvresp`, with a bound on the nesting. -/
def recvrespIn : Nat → Rx → Except Halt Rx
  | 0, _ => .error .endless
  | depth + 1, s => do
      let (type, s) ← s.readType deadline
      if type = DASH ∨ type = COLON ∨ type = PLUS then s.recvLine deadline type
      else if type = 36 then do
        let (len, s) ← s.readlen deadline
        s.recvBulk deadline len
      else if type = 42 then do
        let (len, s) ← s.readlen deadline
        if len = 0 then s.readline deadline
        else if 0 < len then Rx.recvArray (recvrespIn depth) s len.toNat
        else .ok s
      else .error .refused

/-- `recvresp`: no value nests deeper than there are bytes. -/
def recvresp (s : Rx) : Except Halt Rx := recvrespIn deadline (s.conn.stream.length + 1) s

end

/-- The text of a reply, unless its memory has been given back. -/
def Reply.text (s : Rx) (r : Reply) : Option Bytes :=
  match r.data with
  | none => some []
  | some v =>
      if v.len = 0 then some []
      else if v.block = s.block then some (((s.out.mem.getD []).drop v.pos).take v.len)
      else none

/-! ## What a reply should be -/

mutual

/-- The leaves of a value, with their types; null arrays have none. -/
def leaves : Resp.Value → List (UInt8 × Bytes)
  | .simple s => [(PLUS, s)]
  | .error s => [(DASH, s)]
  | .integer n => [(COLON, showInt n)]
  | .bulk s => [(36, s)]
  | .null => [(36, [])]
  | .array vs => leavesAll vs
  | .nullArray => []

def leavesAll : List Resp.Value → List (UInt8 × Bytes)
  | [] => []
  | v :: vs => leaves v ++ leavesAll vs

end

mutual

/-- Simple strings and errors are one line. -/
def Valid : Resp.Value → Prop
  | .simple s | .error s => CR ∉ s ∧ LF ∉ s
  | .array vs => ValidAll vs
  | _ => True

def ValidAll : List Resp.Value → Prop
  | [] => True
  | v :: vs => Valid v ∧ ValidAll vs

end

/-- One value is received: the bytes that follow are left, and the replies that were staged have
the types and the texts of its leaves. -/
def Receives (deadline : Bool) (s : Rx) (v : Resp.Value) (rest : Bytes) : Prop :=
  ∃ s', recvresp deadline s = .ok s' ∧ s'.conn.pending = rest ∧
    ∃ new, s'.stagging = s.stagging ++ new ∧
      new.map (fun r => (r.type, r.text s')) = (leaves v).map fun l => (l.1, some l.2)

/-! ## Runs -/

/-- What `recvresp` reads at a time. -/
inductive Token where
  | line (type : UInt8) (text : Bytes)
  | header (type : UInt8) (len : Int)
  | body (text : Option Bytes)

mutual

/-- The tokens of a value in the order in which they are read. -/
def tokens : Resp.Value → List Token
  | .simple s => [.line PLUS s]
  | .error s => [.line DASH s]
  | .integer n => [.line COLON (showInt n)]
  | .bulk s => [.header 36 s.length, .body (some s)]
  | .null => [.header 36 (-1), .body none]
  | .array vs => .header 42 vs.length :: tokensAll vs
  | .nullArray => [.header 42 (-1)]

def tokensAll : List Resp.Value → List Token
  | [] => []
  | v :: vs => tokens v ++ tokensAll vs

end

/-- The part of `recvresp` that reads a token. -/
def readToken (deadline : Bool) (s : Rx) : Token → Except Halt Rx
  | .line _ _ => do
      let (type, s) ← s.readType deadline
      s.recvLine deadline type
  | .header _ _ => do
      let (_, s) ← s.readType deadline
      let (_, s) ← s.readlen deadline
      .ok s
  | .body none => s.recvBulk deadline (-1)
  | .body (some t) => s.recvBulk deadline t.length

def nextToken (deadline : Bool) (s : Rx) (t : Token) : Option Rx := (readToken deadline s t).toOption

/-- The texts of the replies from a place on are all empty. -/
def Bare (s : Rx) (k : Nat) : Prop := ∀ r ∈ s.stagging.drop k, ∀ v ∈ r.data, v.len = 0

/-- A text fits behind the contents when `n` bytes have been reserved, and no other is given back for
that. -/
def Roomy (s : Rx) (k n : Nat) (text : Bytes) : Prop :=
  s.out.offset + text.length < s.out.reserved n ∧ (s.out.remaining < n → Bare s k)

/-- The state in which a token is read as it should, of a reply whose first text is number `k`: an
array has elements, and not too many; a line ends within the room for it; a bulk string is there in
full when it is read. -/
def Meets (k : Nat) (s : Rx) : Token → Prop
  | .line _ t => Roomy s k 255 t
  | .header type len => len ≤ INT64_MAX ∧ (type = 42 → len ≠ 0 ∧ len < 2 ^ 31)
  | .body none => True
  | .body (some t) => Roomy s k (t.length + 4) t ∧ t.length + 2 ≤ s.conn.atHand

instance (s : Rx) (k : Nat) : Decidable (Bare s k) :=
  inferInstanceAs (Decidable (∀ r ∈ s.stagging.drop k, ∀ v ∈ r.data, v.len = 0))

instance (s : Rx) (k n : Nat) (text : Bytes) : Decidable (Roomy s k n text) :=
  inferInstanceAs (Decidable (_ ∧ _))

instance (k : Nat) (s : Rx) : (t : Token) → Decidable (Meets k s t)
  | .line _ t => inferInstanceAs (Decidable (Roomy s k 255 t))
  | .header type len =>
      inferInstanceAs (Decidable (len ≤ INT64_MAX ∧ (type = 42 → len ≠ 0 ∧ len < 2 ^ 31)))
  | .body none => inferInstanceAs (Decidable True)
  | .body (some t) => inferInstanceAs (Decidable (Roomy s k (t.length + 4) t ∧ _))

/-- The state between two tokens: the new replies, with texts in the present block and before the
offset. -/
structure Sound (old new : List Reply) (s : Rx) (ls : List (UInt8 × Bytes)) : Prop where
  shaped : s.out.Shaped
  bounded : s.out.offset ≤ s.out.size
  staged : s.stagging = old ++ new
  texts : new.map (fun r => (r.type, r.text s)) = ls.map fun l => (l.1, some l.2)
  views : ∀ r ∈ new, ∀ v ∈ r.data, v.len = 0 ∨ v.block = s.block ∧ v.pos + v.len ≤ s.out.offset

variable {deadline : Bool} {old new : List Reply} {s s' : Rx} {ls : List (UInt8 × Bytes)}

/-- What is read of the memory before the offset is read of the contents. -/
private theorem text_eq {b : OBuffer} {pos len : Nat} (h : pos + len ≤ b.offset) :
    ((b.mem.getD []).drop pos).take len = (b.contents.drop pos).take len := by
  rw [OBuffer.contents, List.drop_take, List.take_take, Nat.min_eq_left (by omega)]

/-- Texts stay when the contents are only appended to, and are not moved to another block. -/
private theorem Sound.grow (h : Sound old new s ls) (hs : s'.out.Shaped)
    (hle : s'.out.offset ≤ s'.out.size) {x : Bytes}
    (hcontents : s'.out.contents = s.out.contents ++ x) (hstaged : s'.stagging = s.stagging)
    (hblock : s'.block = s.block ∨ Bare s old.length) : Sound old new s' ls := by
  have hbare : Bare s old.length → ∀ r ∈ new, ∀ v ∈ r.data, v.len = 0 := by
    rw [Bare, h.staged, List.drop_left]
    exact id
  have hlen := OBuffer.contents_length h.shaped h.bounded
  have hlen' := OBuffer.contents_length hs hle
  have hoffset : s.out.offset ≤ s'.out.offset := by
    rw [← hlen, ← hlen', hcontents, List.length_append]
    exact Nat.le_add_right ..
  have htext : ∀ r ∈ new, r.text s' = r.text s := by
    intro r hr
    rw [Reply.text, Reply.text]
    cases hdata : r.data with
    | none => rfl
    | some v =>
        dsimp only
        by_cases hzero : v.len = 0
        · rw [if_pos hzero, if_pos hzero]
        · obtain ⟨hin, hbefore⟩ := (h.views r hr v hdata).resolve_left hzero
          have hsame := hblock.resolve_right fun hb => hzero (hbare hb r hr v hdata)
          rw [if_neg hzero, if_neg hzero, hsame, if_pos hin, if_pos hin, text_eq hbefore,
            text_eq (Nat.le_trans hbefore hoffset), hcontents,
            List.drop_append_of_le_length (by omega),
            List.take_append_of_le_length (by rw [List.length_drop]; omega)]
  refine ⟨hs, hle, hstaged.trans h.staged, ?_, ?_⟩
  · rw [← h.texts]
    exact List.map_congr_left fun r hr => by rw [htext r hr]
  · intro r hr v hv
    rcases h.views r hr v hv with hzero | ⟨hin, hbefore⟩
    · exact .inl hzero
    · rcases hblock with hsame | hb
      · exact .inr ⟨hin.trans hsame.symm, Nat.le_trans hbefore hoffset⟩
      · exact .inl (hbare hb r hr v hv)

private theorem Sound.stage (h : Sound old new s ls) {type : UInt8} {data : Option View}
    {text : Bytes} (htext : Reply.text s ⟨type, data⟩ = some text)
    (hview : ∀ v ∈ data, v.len = 0 ∨ v.block = s.block ∧ v.pos + v.len ≤ s.out.offset) :
    Sound old (new ++ [⟨type, data⟩]) (s.stage type data) (ls ++ [(type, text)]) := by
  refine ⟨h.shaped, h.bounded, ?_, ?_, ?_⟩
  · rw [Rx.stage, h.staged, List.append_assoc]
  · rw [List.map_append, List.map_append, ← h.texts, List.map_singleton, List.map_singleton, ← htext]
    rfl
  · intro r hr
    rcases List.mem_append.mp hr with hr | hr
    · exact h.views r hr
    · rw [List.mem_singleton.mp hr]
      exact hview

/-! ### Lines -/

/-- A line that ends before the capacity does is read in one round. -/
private theorem readlineLoop_spec {out b₁ : OBuffer} (he : OBuffer.Extends out b₁)
    (hmem : b₁.mem ≠ none) {c : Conn} {t rest : Bytes} (ht : CR ∉ t)
    (hc : c.pending = t ++ CR :: LF :: rest) (hroom : out.offset + t.length < b₁.size) (fuel : Nat) :
    ∃ out' c', readlineLoop deadline (fuel + 1) b₁.remaining b₁ c = .ok (out', c') ∧
      c'.pending = rest ∧ out'.Shaped ∧ out'.offset = out.offset + t.length ∧
      out'.offset < out'.size ∧ out'.contents = out.contents ++ t := by
  have ho : out.offset ≤ b₁.size := Nat.le_of_lt (Nat.lt_of_le_of_lt (Nat.le_add_right ..) hroom)
  have hremaining : b₁.remaining = b₁.size - out.offset := by
    rw [OBuffer.remaining_eq he.shaped (he.offset.symm ▸ ho), he.offset]
  have hcr : ∀ b ∈ t, b ∉ [CR] := fun b hb heq => ht (List.mem_singleton.mp heq ▸ hb)
  have hlt : t.length < b₁.remaining := by omega
  obtain ⟨hbytes, herrno, hpending⟩ :=
    Tcp.tcprecvuntil_pending deadline [] hcr List.mem_cons_self hlt hc
  rw [List.nil_append] at hbytes
  have hlen : (t ++ [CR]).length = t.length + 1 := List.length_append
  obtain ⟨b', hstore, hs, hsize, hoffset, htake⟩ :=
    OBuffer.store_ok he (fun _ => hmem) ho (by omega : out.offset + (t ++ [CR]).length ≤ b₁.size + 1)
  have hseek : b'.seekBy ((t ++ [CR]).length - 1) =
      .ok { b' with offset := out.offset + t.length } := by
    rw [OBuffer.seekBy_of_lt (by omega), hoffset, hlen, Nat.add_sub_cancel]
  obtain ⟨-, herrno', hpending'⟩ := @Tcp.tcprecvuntil_pending deadline [LF] [] rest LF 2 [] _
    nofun List.mem_cons_self Nat.two_pos hpending
  refine ⟨{ b' with offset := out.offset + t.length }, _, ?_, hpending', ?_, rfl, ?_, ?_⟩
  · rw [readlineLoop, herrno, hbytes, hstore, ofBuffer_ok, Except.bind_of_ok]
    dsimp only
    rw [hseek, ofBuffer_ok, Except.bind_of_ok, if_neg (not_not.mpr herrno')]
  · exact ⟨hs.multiple, hs.wide, hs.memory, hs.null⟩
  · exact hsize.symm ▸ hroom
  · have := htake t.length (by omega)
    rwa [List.take_left' rfl] at this

variable (deadline) in
private theorem readline_spec {out : OBuffer} (hs : out.Shaped) (hle : out.offset ≤ out.size)
    {c : Conn} {t rest : Bytes} (ht : CR ∉ t) (hc : c.pending = t ++ CR :: LF :: rest)
    (hroom : out.offset + t.length < out.reserved 255) :
    ∃ out' c', readline deadline out c = .ok (out', c') ∧ c'.pending = rest ∧ out'.Shaped ∧
      out'.offset = out.offset + t.length ∧ out'.offset < out'.size ∧
      out'.contents = out.contents ++ t := by
  obtain ⟨he, hsize, hmem⟩ := OBuffer.reserve_spec hs hle 255
  rw [← hsize] at hroom
  exact readlineLoop_spec he (hmem (by decide)) ht hc hroom _

/-- The NUL goes into a byte that is left, so nothing is moved for it. -/
private theorem Sound.terminate (h : Sound old new s ls) (hlt : s.out.offset < s.out.size) :
    ∃ s', s.terminate = .ok s' ∧ Sound old new s' ls ∧ s'.conn = s.conn ∧ s'.block = s.block ∧
      s'.out.contents = s.out.contents ++ [NUL] := by
  have hcall : s.out.call (.formatted [NUL]) = s.out.append [NUL] :=
    OBuffer.appendv_eq_append (Nat.lt_of_le_of_lt (Nat.le_refl 1) (by decide))
  have hlen : [NUL].length = 1 := rfl
  obtain ⟨b', hb, hs, hcontents, hle⟩ :=
    OBuffer.append_of_fits h.shaped h.bounded (.inl (by omega) : s.out.Fits [NUL].length)
  have hremaining : ¬ s.out.remaining < 1 := by
    rw [OBuffer.remaining_eq h.shaped h.bounded]
    omega
  refine ⟨{ s with out := b' }, ?_, ?_, rfl, rfl, hcontents⟩
  · rw [Rx.terminate, hcall, hb, ofBuffer_ok, Except.bind_of_ok, if_neg hremaining]
  · exact @Sound.grow _ _ s { s with out := b' } _ h hs hle _ hcontents rfl (.inl rfl)

variable (deadline) in
private theorem recvLine_spec (h : Sound old new s ls) (type : UInt8) {t rest : Bytes}
    (ht : CR ∉ t) (hc : s.conn.pending = t ++ CR :: LF :: rest)
    (hroom : Roomy s old.length 255 t) :
    ∃ s' r, s.recvLine deadline type = .ok s' ∧ s'.conn.pending = rest ∧
      Sound old (new ++ [r]) s' (ls ++ [(type, t)]) := by
  obtain ⟨out, c, hline, hpending, hs, hoffset, hlt, hcontents⟩ :=
    readline_spec deadline h.shaped h.bounded ht hc hroom.1
  -- a buffer that has no room for a line moves to another block
  let s₁ : Rx := { s with
    conn := c, out := out, block := if s.out.remaining < 255 then s.block + 1 else s.block }
  have hreadline : s.readline deadline = .ok s₁ := by
    rw [Rx.readline, hline, Except.bind_of_ok]
  have hsound : Sound old new s₁ ls := by
    refine h.grow hs (Nat.le_of_lt hlt) hcontents rfl ?_
    by_cases hgrow : s.out.remaining < 255
    · exact .inr (hroom.2 hgrow)
    · exact .inl (if_neg hgrow)
  obtain ⟨s₂, hterm, hsound₂, hconn, hblock, hnul⟩ := hsound.terminate hlt
  have hlen : t.length = out.offset - s.out.offset := by omega
  have hstart := OBuffer.contents_length h.shaped h.bounded
  have hbefore : out.offset ≤ s₂.out.offset := by
    rw [← OBuffer.contents_length hs (Nat.le_of_lt hlt),
      ← OBuffer.contents_length hsound₂.shaped hsound₂.bounded, hnul, List.length_append]
    exact Nat.le_add_right ..
  have htext : Reply.text s₂ ⟨type, some ⟨s₁.block, s.out.offset, out.offset - s.out.offset⟩⟩ =
      some t := by
    rw [Reply.text]
    dsimp only
    by_cases hzero : out.offset - s.out.offset = 0
    · rw [if_pos hzero, List.length_eq_zero_iff.mp (hlen.trans hzero)]
    · have hwithin : s.out.offset + (out.offset - s.out.offset) ≤ s₂.out.offset := by omega
      have hmem : s₂.out.contents = s.out.contents ++ (t ++ [NUL]) := by
        rw [hnul, ← List.append_assoc]
        exact congrArg (· ++ [NUL]) hcontents
      rw [if_neg hzero, if_pos hblock.symm, text_eq hwithin, hmem, List.drop_left' hstart,
        List.take_left' hlen]
  refine ⟨s₂.stage type (some ⟨s₁.block, s.out.offset, out.offset - s.out.offset⟩), _, ?_, ?_,
    hsound₂.stage htext ?_⟩
  · rw [Rx.recvLine, hreadline, Except.bind_of_ok, hterm, Except.bind_of_ok]
  · rw [← hpending]
    exact congrArg Conn.pending hconn
  · rintro v ⟨⟩
    exact .inr ⟨hblock.symm, by dsimp only; omega⟩

/-! ### Lengths and types -/

private theorem cr_notMem_showInt (n : Int) : CR ∉ showInt n := by
  rw [showInt]
  split
  · intro h
    rcases List.mem_append.mp h with h | h
    · exact absurd h (by decide)
    · exact Resp.cr_notMem_showNat _ h
  · exact Resp.cr_notMem_showNat _

variable (deadline) in
private theorem readlen_spec (s : Rx) {n : Int} (hlo : INT64_MIN ≤ n) (hhi : n ≤ INT64_MAX)
    {rest : Bytes} (hc : s.conn.pending = showInt n ++ CR :: LF :: rest) :
    ∃ c, s.readlen deadline = .ok (n, { s with conn := c }) ∧ c.pending = rest := by
  obtain ⟨hs, hle⟩ := OBuffer.new_shaped 16
  have hnil : (OBuffer.new 16).contents = [] := by decide
  have hlength : (showInt n).length ≤ 20 := by
    have hdigits : (showNat n.natAbs).length ≤ 19 := by
      rw [showNat, List.length_map]
      apply (Nat.length_toDigits_le_iff (by decide) (by decide)).mpr
      unfold INT64_MIN INT64_MAX at *
      omega
    rw [showInt]
    split
    · rw [List.length_append]
      exact Nat.le_trans (Nat.add_le_add_left hdigits _) (by decide)
    · exact Nat.le_succ_of_le hdigits
  have hroom : (OBuffer.new 16).offset + (showInt n).length < (OBuffer.new 16).reserved 255 := by
    have h₁ : (OBuffer.new 16).offset = 0 := by decide
    have h₂ : (OBuffer.new 16).reserved 255 = 256 := by decide
    omega
  obtain ⟨out, c, hline, hpending, -, -, -, hcontents⟩ :=
    readline_spec deadline hs hle (cr_notMem_showInt n) hc hroom
  rw [hnil, List.nil_append] at hcontents
  refine ⟨c, ?_, hpending⟩
  rw [Rx.readlen, hline, Except.bind_of_ok]
  dsimp only
  rw [hcontents, strtonum_showInt hlo hhi]

variable (deadline) in
private theorem readType_spec (s : Rx) {type : UInt8} {rest : Bytes}
    (hc : s.conn.pending = type :: rest) :
    ∃ c, s.readType deadline = .ok (type, { s with conn := c }) ∧ c.pending = rest := by
  obtain ⟨hbytes, herrno, hpending⟩ := Tcp.tcpread_pending deadline (Tcp.one_le_atHand hc)
  rw [hc] at hbytes hpending
  refine ⟨_, ?_, hpending⟩
  rw [Rx.readType, if_neg (not_not.mpr herrno), hbytes]
  rfl

/-! ### Bulk strings -/

/-- The bytes are stored with their line end, and the text is counted in. -/
private theorem storeBulk {out b₁ : OBuffer} (he : OBuffer.Extends out b₁) (hmem : b₁.mem ≠ none)
    {t : Bytes} (hroom : out.offset + t.length < b₁.size) :
    ∃ b₂ b₃, b₁.store (t ++ [CR, LF]) = .ok b₂ ∧ b₂.Shaped ∧ b₂.offset ≤ b₂.size ∧
      b₂.contents = out.contents ++ [] ∧ b₂.seekBy t.length = .ok b₃ ∧ b₃.Shaped ∧
      b₃.offset = out.offset + t.length ∧ b₃.offset < b₃.size ∧
      b₃.contents = out.contents ++ t := by
  have ho : out.offset ≤ b₁.size := Nat.le_of_lt (Nat.lt_of_le_of_lt (Nat.le_add_right ..) hroom)
  have hlen : (t ++ [CR, LF]).length = t.length + 2 := List.length_append
  obtain ⟨b₂, hstore, hs, hsize, hoffset, htake⟩ := OBuffer.store_ok he (fun _ => hmem) ho
    (by omega : out.offset + (t ++ [CR, LF]).length ≤ b₁.size + 1)
  refine ⟨b₂, { b₂ with offset := out.offset + t.length }, hstore, hs, ?_, ?_, ?_,
    ⟨hs.multiple, hs.wide, hs.memory, hs.null⟩, rfl, ?_, ?_⟩
  · rw [hoffset, hsize]
    exact ho
  · have := htake 0 (Nat.zero_le _)
    rw [OBuffer.contents, hoffset]
    exact this
  · rw [OBuffer.seekBy_of_lt (by omega), hoffset]
  · exact hsize.symm ▸ hroom
  · have := htake t.length (by omega)
    rwa [List.take_left' rfl] at this

/-- The buffer after `reserve`. -/
private theorem Sound.reserve (h : Sound old new s ls) {n : Nat} (hn : n ≠ 0) {t : Bytes}
    (hroom : Roomy s old.length n t) :
    ∃ b₁ block, s.reserve n = ⟨s.conn, b₁, block, s.stagging⟩ ∧ OBuffer.Extends s.out b₁ ∧
      b₁.mem ≠ none ∧ s.out.offset + t.length < b₁.size ∧
      (block = s.block ∨ Bare s old.length) := by
  obtain ⟨he, hsize, hmem⟩ := OBuffer.reserve_spec h.shaped h.bounded n
  refine ⟨_, _, rfl, he, hmem hn, ?_, ?_⟩
  · rw [hsize]
    exact hroom.1
  · by_cases hgrow : s.out.remaining < n
    · exact .inr (hroom.2 hgrow)
    · exact .inl (if_neg hgrow)

variable (deadline) in
private theorem recvBulk_none (h : Sound old new s ls) {n : Int} (hn : n < 0) :
    s.recvBulk deadline n = .ok (s.stage 36 none) ∧
      Sound old (new ++ [⟨36, none⟩]) (s.stage 36 none) (ls ++ [(36, [])]) := by
  refine ⟨?_, h.stage rfl nofun⟩
  rw [Rx.recvBulk, if_neg (by omega)]

variable (deadline) in
private theorem recvBulk_some (h : Sound old new s ls) {t rest : Bytes}
    (hc : s.conn.pending = t ++ CR :: LF :: rest) (hmeets : Meets old.length s (.body (some t))) :
    ∃ s' r, s.recvBulk deadline t.length = .ok s' ∧ s'.conn.pending = rest ∧
      Sound old (new ++ [r]) s' (ls ++ [(36, t)]) := by
  obtain ⟨hroom, hready⟩ := hmeets
  obtain ⟨hbytes, herrno, hpending⟩ := Tcp.tcpread_pending deadline hready
  have hlen : (t ++ [CR, LF]).length = t.length + 2 := List.length_append
  have hsplit : s.conn.pending = (t ++ [CR, LF]) ++ rest := by
    rw [hc, List.append_assoc]
    rfl
  rw [hsplit, List.take_left' hlen] at hbytes
  rw [hsplit, List.drop_left' hlen] at hpending
  -- the buffer grows by the text with its CRLF and takes them both
  obtain ⟨b₁, block, hreserve, he, hmem, hfit, hblock⟩ := h.reserve (Nat.succ_ne_zero _) hroom
  obtain ⟨b₂, b₃, hstore, hs₂, hle₂, hcontents₂, hseek, hs₃, hoffset₃, hlt₃, hcontents₃⟩ :=
    storeBulk he hmem hfit
  have hwide : t.length % OBuffer.UINT32 = t.length := by
    have := he.shaped.wide
    exact Nat.mod_eq_of_lt (by omega)
  obtain ⟨c, hread⟩ : ∃ c, c = (Tcp.tcpread deadline s.conn (t.length + 2)).conn := ⟨_, rfl⟩
  rw [← hread] at hpending
  -- the reads are done; what is left is to end the text
  have hbulk : s.recvBulk deadline t.length =
      if (t.length : Int) ≠ 0 then do
        let out ← ofBuffer (b₂.seekBy t.length)
        let s₃ ← Rx.terminate ⟨c, out, block, s.stagging⟩
        .ok (s₃.stage 36 (some ⟨block, s.out.offset, t.length⟩))
      else .ok (Rx.stage ⟨c, b₂, block, s.stagging⟩ 36 none) := by
    have hsum : t.length + 2 + 2 = t.length + 4 := rfl
    rw [Rx.recvBulk, if_pos (Int.natCast_nonneg _), Int.toNat_natCast, hwide]
    dsimp only
    rw [hsum, hreserve]
    dsimp only
    rw [hbytes, hstore, ofBuffer_ok, Except.bind_of_ok, if_neg (not_not.mpr herrno), ← hread]
  -- an empty text is staged as a null reply
  by_cases hnil : t = []
  · subst hnil
    have hsound : Sound old new ⟨c, b₂, block, s.stagging⟩ ls :=
      h.grow hs₂ hle₂ hcontents₂ rfl hblock
    refine ⟨Rx.stage ⟨c, b₂, block, s.stagging⟩ 36 none, ⟨36, none⟩, ?_, hpending,
      hsound.stage rfl nofun⟩
    rw [hbulk]
    exact if_neg (not_not.mpr rfl)
  · have hpos : (t.length : Int) ≠ 0 := by
      have := List.length_pos_iff.mpr hnil
      omega
    have hsound : Sound old new ⟨c, b₃, block, s.stagging⟩ ls :=
      h.grow hs₃ (Nat.le_of_lt hlt₃) hcontents₃ rfl hblock
    obtain ⟨s₃, hterm, hsound₃, hconn, hblock₃, hnul⟩ := hsound.terminate hlt₃
    have hstart := OBuffer.contents_length h.shaped h.bounded
    -- the CR is overwritten by the NUL
    have hmem₃ : s₃.out.contents = s.out.contents ++ (t ++ [NUL]) := by
      rw [hnul, ← List.append_assoc]
      exact congrArg (· ++ [NUL]) hcontents₃
    have hbefore : s.out.offset + t.length ≤ s₃.out.offset := by
      rw [← OBuffer.contents_length hsound₃.shaped hsound₃.bounded, hmem₃, List.length_append,
        List.length_append, hstart]
      omega
    have htext : Reply.text s₃ ⟨36, some ⟨block, s.out.offset, t.length⟩⟩ = some t := by
      rw [Reply.text]
      dsimp only
      rw [if_neg (List.length_eq_zero_iff.not.mpr hnil), if_pos hblock₃.symm, text_eq hbefore, hmem₃,
        List.drop_left' hstart, List.take_left' rfl]
    refine ⟨s₃.stage 36 (some ⟨block, s.out.offset, t.length⟩), _, ?_, ?_, hsound₃.stage htext ?_⟩
    · rw [hbulk, if_pos hpos, hseek, ofBuffer_ok, Except.bind_of_ok, hterm, Except.bind_of_ok]
    · rw [← hpending]
      exact congrArg Conn.pending hconn
    · rintro v ⟨⟩
      exact .inr ⟨hblock₃.symm, hbefore⟩

/-! ### Values -/

private theorem Sound.conn (h : Sound old new s ls) (c : Conn) : Sound old new { s with conn := c } ls :=
  ⟨h.shaped, h.bounded, h.staged, h.texts, h.views⟩

/-- The rest of a run behind its first token. -/
private theorem meets_cons {k : Nat} {t : Token} {ts : List Token}
    (hmeets : ∀ p ∈ StepMachine.inputs (nextToken deadline) s (t :: ts), Meets k p.1 p.2)
    (hnext : nextToken deadline s t = some s') :
    ∀ p ∈ StepMachine.inputs (nextToken deadline) s' ts, Meets k p.1 p.2 := by
  rw [StepMachine.inputs, List.forall_mem_cons, hnext] at hmeets
  exact hmeets.2

private theorem line_received (h : Sound old new s ls) {type : UInt8}
    (htype : type = DASH ∨ type = COLON ∨ type = PLUS) {t rest : Bytes} (ht : CR ∉ t)
    (hc : s.conn.pending = Resp.line type t ++ rest) (hmeets : Meets old.length s (.line type t))
    (depth : Nat) :
    ∃ s' r, recvrespIn deadline (depth + 1) s = .ok s' ∧ Sound old (new ++ [r]) s' (ls ++ [(type, t)]) ∧
      s'.conn.pending = rest ∧ nextToken deadline s (.line type t) = some s' := by
  rw [Resp.line, List.cons_append, Resp.CRLF, List.append_assoc] at hc
  obtain ⟨c, htyped, hrest⟩ := readType_spec deadline s hc
  obtain ⟨s', r, hline, hpending, hsound⟩ :=
    recvLine_spec deadline (h.conn c) type ht hrest hmeets
  refine ⟨s', r, ?_, hsound, hpending, ?_⟩
  · rw [recvrespIn, htyped, Except.bind_of_ok]
    dsimp only
    rw [if_pos htype, hline]
  · rw [nextToken, readToken, htyped, Except.bind_of_ok]
    dsimp only
    rw [hline]
    rfl

variable (deadline) in
private theorem header_received (s : Rx) {type : UInt8} {n : Int} (hlo : INT64_MIN ≤ n)
    (hhi : n ≤ INT64_MAX) {rest : Bytes}
    (hc : s.conn.pending = Resp.line type (showInt n) ++ rest) :
    ∃ c₁ c₂, s.readType deadline = .ok (type, { s with conn := c₁ }) ∧
      Rx.readlen deadline { s with conn := c₁ } = .ok (n, { s with conn := c₂ }) ∧
      c₂.pending = rest ∧ nextToken deadline s (.header type n) = some { s with conn := c₂ } := by
  rw [Resp.line, List.cons_append, Resp.CRLF, List.append_assoc] at hc
  obtain ⟨c₁, htyped, hrest⟩ := readType_spec deadline s hc
  obtain ⟨c₂, hlen, hpending⟩ := readlen_spec deadline { s with conn := c₁ } hlo hhi hrest
  refine ⟨c₁, c₂, htyped, hlen, hpending, ?_⟩
  rw [nextToken, readToken, htyped, Except.bind_of_ok]
  dsimp only
  rw [hlen, Except.bind_of_ok]
  rfl

/-- A bulk string, or the null one, after its length. -/
private theorem bulk_received (h : Sound old new s ls) (text : Option Bytes) {n : Int}
    {t rest : Bytes} (hlo : INT64_MIN ≤ n) (hn : n = text.elim (-1) fun t => (t.length : Int))
    (ht : t = text.getD []) (hc : s.conn.pending = Resp.line 36 (showInt n) ++
      text.elim rest fun t => t ++ CR :: LF :: rest)
    (hmeets : ∀ p ∈ StepMachine.inputs (nextToken deadline) s [.header 36 n, .body text],
      Meets old.length p.1 p.2) (depth : Nat) :
    ∃ s' new', recvrespIn deadline (depth + 1) s = .ok s' ∧ Sound old new' s' (ls ++ [(36, t)]) ∧
      s'.conn.pending = rest ∧
      [.header 36 n, .body text].foldlM (nextToken deadline) s = some s' := by
  have hheader : n ≤ INT64_MAX := by
    rw [StepMachine.inputs, List.forall_mem_cons] at hmeets
    exact hmeets.1.1
  obtain ⟨c₁, c₂, htyped, hlen, hpending, hnext⟩ := header_received deadline s hlo hheader hc
  have hbody := meets_cons hmeets hnext
  rw [StepMachine.inputs, List.forall_mem_cons] at hbody
  have hrecv : recvrespIn deadline (depth + 1) s = Rx.recvBulk deadline { s with conn := c₂ } n := by
    rw [recvrespIn, htyped, Except.bind_of_ok]
    dsimp only
    rw [if_neg (by decide), if_pos rfl, hlen, Except.bind_of_ok]
  rw [hrecv, List.foldlM_cons, hnext]
  cases text with
  | none =>
      subst hn ht
      obtain ⟨hbulk, hsound⟩ := recvBulk_none deadline (h.conn c₂) (by decide : (-1 : Int) < 0)
      refine ⟨_, _, hbulk, hsound, hpending, ?_⟩
      show nextToken deadline { s with conn := c₂ } (.body none) >>= _ = _
      rw [nextToken, readToken, hbulk]
      rfl
  | some t' =>
      obtain rfl : t = t' := ht
      subst hn
      obtain ⟨s', r, hbulk, hrest, hsound⟩ :=
        recvBulk_some deadline (h.conn c₂) hpending hbody.1
      refine ⟨s', _, hbulk, hsound, hrest, ?_⟩
      show nextToken deadline { s with conn := c₂ } (.body (some t)) >>= _ = _
      rw [nextToken, readToken, hbulk]
      rfl

private theorem array_length (vs : List Resp.Value) (n : Bytes) {depth : Nat}
    (h : (Resp.line 42 n ++ Resp.encodeAll vs).length ≤ depth + 1) :
    (Resp.encodeAll vs).length ≤ depth := by
  rw [Resp.line, List.length_append, List.length_cons] at h
  omega

private theorem showInt_neg_one : showInt (-1) = str "-1" := by decide

/-- A value that is one line. -/
private theorem leaf_received (h : Sound old new s ls) {type : UInt8}
    (htype : type = DASH ∨ type = COLON ∨ type = PLUS) {t rest : Bytes} (ht : CR ∉ t)
    (hc : s.conn.pending = Resp.line type t ++ rest)
    (hmeets : ∀ p ∈ StepMachine.inputs (nextToken deadline) s [.line type t],
      Meets old.length p.1 p.2) (depth : Nat) :
    ∃ s' new', recvrespIn deadline (depth + 1) s = .ok s' ∧ Sound old new' s' (ls ++ [(type, t)]) ∧
      s'.conn.pending = rest ∧ [.line type t].foldlM (nextToken deadline) s = some s' := by
  obtain ⟨s', r, hrecv, hsound, hpending, hnext⟩ :=
    line_received h htype ht hc (hmeets _ List.mem_cons_self) depth
  refine ⟨s', _, hrecv, hsound, hpending, ?_⟩
  rw [List.foldlM_cons, hnext]
  rfl

/-- An array, after its length. -/
private theorem array_received (s : Rx) {n : Int} (hlo : INT64_MIN ≤ n) {rest : Bytes}
    (hc : s.conn.pending = Resp.line 42 (showInt n) ++ rest) {k : Nat} {ts : List Token}
    (hmeets : ∀ p ∈ StepMachine.inputs (nextToken deadline) s (.header 42 n :: ts),
      Meets k p.1 p.2) (depth : Nat) :
    ∃ c, c.pending = rest ∧ n ≠ 0 ∧ n < 2 ^ 31 ∧
      nextToken deadline s (.header 42 n) = some { s with conn := c } ∧
      recvrespIn deadline (depth + 1) s =
        if 0 < n then Rx.recvArray (recvrespIn deadline depth) { s with conn := c } n.toNat
        else .ok { s with conn := c } := by
  have hheader := hmeets _ List.mem_cons_self
  obtain ⟨hzero, hlt⟩ := hheader.2 rfl
  obtain ⟨c₁, c₂, htyped, hlen, hpending, hnext⟩ := header_received deadline s hlo hheader.1 hc
  refine ⟨c₂, hpending, hzero, hlt, hnext, ?_⟩
  rw [recvrespIn, htyped, Except.bind_of_ok]
  dsimp only
  rw [if_neg (by decide), if_neg (by decide), if_pos rfl, hlen, Except.bind_of_ok]
  dsimp only
  rw [if_neg hzero]

mutual

private theorem value_received : ∀ (v : Resp.Value) {depth : Nat} {old new : List Reply} {s : Rx}
    {ls : List (UInt8 × Bytes)} {rest : Bytes}, (Resp.encode v).length ≤ depth → Valid v →
    Sound old new s ls → s.conn.pending = Resp.encode v ++ rest →
    (∀ p ∈ StepMachine.inputs (nextToken deadline) s (tokens v), Meets old.length p.1 p.2) →
    ∃ s' new', recvrespIn deadline depth s = .ok s' ∧ Sound old new' s' (ls ++ leaves v) ∧
      s'.conn.pending = rest ∧ (tokens v).foldlM (nextToken deadline) s = some s'
  | v, 0, _, _, _, _, _, hdepth, _, _, _, _ => by
      cases v <;> simp [Resp.encode, Resp.line] at hdepth
  -- a leaf is one line, staged without its CRLF
  | .simple t, depth + 1, old, new, s, ls, rest, hdepth, hvalid, h, hc, hmeets => by
      rw [Valid] at hvalid
      rw [Resp.encode] at hc
      rw [tokens] at hmeets ⊢
      rw [leaves]
      exact leaf_received h (.inr (.inr rfl)) hvalid.1 hc hmeets depth
  | .error t, depth + 1, old, new, s, ls, rest, hdepth, hvalid, h, hc, hmeets => by
      rw [Valid] at hvalid
      rw [Resp.encode] at hc
      rw [tokens] at hmeets ⊢
      rw [leaves]
      exact leaf_received h (.inl rfl) hvalid.1 hc hmeets depth
  | .integer n, depth + 1, old, new, s, ls, rest, hdepth, hvalid, h, hc, hmeets => by
      rw [Resp.encode] at hc
      rw [tokens] at hmeets ⊢
      rw [leaves]
      exact leaf_received h (.inr (.inl rfl)) (cr_notMem_showInt n) hc hmeets depth
  | .bulk t, depth + 1, old, new, s, ls, rest, hdepth, hvalid, h, hc, hmeets => by
      rw [tokens] at hmeets ⊢
      rw [leaves]
      rw [Resp.encode, ← showInt_natCast, List.append_assoc, List.append_assoc] at hc
      have hlo : INT64_MIN ≤ (t.length : Int) := Int.le_trans (by decide) (Int.natCast_nonneg _)
      exact bulk_received h (some t) hlo rfl rfl hc hmeets depth
  | .null, depth + 1, old, new, s, ls, rest, hdepth, hvalid, h, hc, hmeets => by
      rw [tokens] at hmeets ⊢
      rw [leaves]
      rw [Resp.encode, ← showInt_neg_one] at hc
      exact bulk_received h none (by decide) rfl rfl hc hmeets depth
  -- the count is -1, and no round follows
  | .nullArray, depth + 1, old, new, s, ls, rest, hdepth, hvalid, h, hc, hmeets => by
      rw [tokens] at hmeets ⊢
      rw [Resp.encode, ← showInt_neg_one] at hc
      obtain ⟨c, hpending, -, -, hnext, hrecv⟩ := array_received s (by decide) hc hmeets depth
      refine ⟨{ s with conn := c }, new, hrecv, ?_, hpending, ?_⟩
      · rw [leaves, List.append_nil]
        exact h.conn c
      · rw [List.foldlM_cons, hnext]
        rfl
  | .array vs, depth + 1, old, new, s, ls, rest, hdepth, hvalid, h, hc, hmeets => by
      rw [Valid] at hvalid
      rw [tokens] at hmeets ⊢
      rw [Resp.encode] at hdepth
      rw [Resp.encode, ← showInt_natCast, List.append_assoc] at hc
      have hlo : INT64_MIN ≤ (vs.length : Int) := Int.le_trans (by decide) (Int.natCast_nonneg _)
      obtain ⟨c, hpending, hzero, hlt, hnext, hrecv⟩ := array_received s hlo hc hmeets depth
      obtain ⟨s', new', hrounds, hsound, hrest, hrun⟩ := values_received vs
        (array_length vs _ hdepth) hvalid (h.conn c) hpending (meets_cons hmeets hnext)
      have hpos : (0 : Int) < vs.length := by omega
      -- the count is read as an `int64_t`, and the index of the loop is an `int`
      have hmin : min vs.length (2 ^ 31) = vs.length := Nat.min_eq_left (by omega)
      refine ⟨s', new', ?_, ?_, hrest, ?_⟩
      · rw [hrecv, if_pos hpos, Int.toNat_natCast, Rx.recvArray, hmin, hrounds, Except.bind_of_ok,
          if_neg (by omega)]
      · rw [leaves]
        exact hsound
      · rw [List.foldlM_cons, hnext]
        exact hrun

private theorem values_received : ∀ (vs : List Resp.Value) {depth : Nat} {old new : List Reply}
    {s : Rx} {ls : List (UInt8 × Bytes)} {rest : Bytes}, (Resp.encodeAll vs).length ≤ depth →
    ValidAll vs → Sound old new s ls → s.conn.pending = Resp.encodeAll vs ++ rest →
    (∀ p ∈ StepMachine.inputs (nextToken deadline) s (tokensAll vs), Meets old.length p.1 p.2) →
    ∃ s' new', rounds (recvrespIn deadline depth) vs.length s = .ok s' ∧
      Sound old new' s' (ls ++ leavesAll vs) ∧ s'.conn.pending = rest ∧
      (tokensAll vs).foldlM (nextToken deadline) s = some s'
  | [], depth, old, new, s, ls, rest, hdepth, hvalid, h, hc, hmeets => by
      refine ⟨s, new, rfl, ?_, hc, rfl⟩
      rw [leavesAll, List.append_nil]
      exact h
  | v :: vs, depth, old, new, s, ls, rest, hdepth, hvalid, h, hc, hmeets => by
      rw [Resp.encodeAll, List.length_append] at hdepth
      rw [Resp.encodeAll, List.append_assoc] at hc
      rw [ValidAll] at hvalid
      rw [tokensAll] at hmeets ⊢
      obtain ⟨s₁, new₁, hrecv, hsound₁, hpending₁, hrun₁⟩ := value_received v
        (Nat.le_trans (Nat.le_add_right ..) hdepth) hvalid.1 h hc
        fun p hp => hmeets p (StepMachine.inputs_append_left hp)
      rw [StepMachine.inputs_append hrun₁] at hmeets
      obtain ⟨s', new', hrounds, hsound, hpending, hrun⟩ := values_received vs
        (Nat.le_trans (Nat.le_add_left ..) hdepth) hvalid.2 hsound₁ hpending₁
        fun p hp => hmeets p (List.mem_append_right _ hp)
      refine ⟨s', new', ?_, ?_, hpending, ?_⟩
      · rw [List.length_cons, rounds, hrecv]
        exact hrounds
      · rw [leavesAll, ← List.append_assoc]
        exact hsound
      · rw [List.foldlM_append, hrun₁]
        exact hrun

end

/-- In a run in which every token is read in a state that is right for it, the value is received,
and all of its texts are still there at the end. -/
theorem receives_of_meets (deadline : Bool) (s : Rx) (hs : s.out.Shaped)
    (hle : s.out.offset ≤ s.out.size) (v : Resp.Value) (hv : Valid v) (rest : Bytes)
    (hc : s.conn.pending = Resp.encode v ++ rest)
    (hmeets : ∀ p ∈ StepMachine.inputs (nextToken deadline) s (tokens v),
      Meets s.stagging.length p.1 p.2) : Receives deadline s v rest := by
  have hsound : Sound s.stagging [] s [] := ⟨hs, hle, (List.append_nil _).symm, rfl, nofun⟩
  have hdepth : (Resp.encode v).length ≤ s.conn.stream.length + 1 := by
    have hpending := Tcp.pending_length_le s.conn
    rw [hc, List.length_append] at hpending
    omega
  obtain ⟨s', new, hrecv, hsound', hrest, -⟩ := value_received v hdepth hv hsound hc hmeets
  exact ⟨s', hrecv, hrest, new, hsound'.staged, hsound'.texts⟩

/-- A connection with all of the bytes in one piece, and the buffer of a new `Response`. -/
def arrived (b : UInt8) (bs : Bytes) : Rx := ⟨⟨[], [.segment b bs]⟩, .new 128, 0, []⟩

set_option maxRecDepth 8000 in
theorem receives_foo : Receives false (arrived 42 (str "1" ++ [CR, LF] ++ str "$3" ++ [CR, LF] ++
    str "foo" ++ [CR, LF] ++ str "+OK")) (.array [.bulk (str "foo")]) (str "+OK") :=
  receives_of_meets false _ (OBuffer.new_shaped 128).1 (OBuffer.new_shaped 128).2 _
    (by simp [Valid, ValidAll]) _ (by decide) (by decide)

set_option maxRecDepth 8000 in
/-- The line behind an empty array is taken for a part of it. -/
theorem not_receives_empty : ¬ ∀ deadline s v rest, s.out.Shaped → s.out.offset ≤ s.out.size →
    Valid v → s.conn.pending = Resp.encode v ++ rest → Receives deadline s v rest := by
  intro h
  have hc : (arrived 42 (str "0" ++ [CR, LF] ++ str "+OK" ++ [CR, LF])).conn.pending =
      Resp.encode (.array []) ++ (str "+OK" ++ [CR, LF]) := by decide
  obtain ⟨s', hrecv, hrest, -⟩ := h false _ (.array []) _ (OBuffer.new_shaped 128).1
    (OBuffer.new_shaped 128).2 (by simp [Valid, ValidAll]) hc
  have hleft : Option.map (fun s => s.conn.pending) (recvresp false
      (arrived 42 (str "0" ++ [CR, LF] ++ str "+OK" ++ [CR, LF]))).toOption = some [] := by
    decide
  rw [hrecv, Except.toOption, Option.map_some, hrest] at hleft
  exact absurd hleft (by decide)

end Suil.Redis
