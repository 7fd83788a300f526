import Suil.Basic.Buffer
import Suil.Http.HttpParser
import Suil.Http.Response
import Suil.Net.Tcp

set_option autoImplicit false

/-! # The bodies of requests

`Request` (`request.cpp`) from the first byte of a request to its handler: the headers and the body are
read from a connection, stored in memory or in a file, and read back. `body_assembly` says for which
requests, and for which ways in which they arrive, a handler gets the body. -/

namespace Suil.Http

open HttpParser

namespace Request

/-! ## Files -/

/-- A file as `File` sees it; the disk takes what is written. -/
structure MFile where
  data : Bytes
  pos : Nat

def MFile.write (f : MFile) (bs : Bytes) : MFile :=
  ⟨f.data.take f.pos ++ bs ++ f.data.drop (f.pos + bs.length), f.pos + bs.length⟩

/-- `mkstemp` makes a file from a name that ends with six `X`s. -/
def mfmktemp (path : Bytes) : Option MFile :=
  if (str "XXXXXX").isSuffixOf path then some ⟨[], 0⟩ else none

/-- `vsnprintf`, for formats of text and `%s`. -/
def format : Bytes → List Bytes → Bytes
  | [], _ => []
  | [c], _ => [c]
  | c :: d :: fmt, args =>
      if c = PERCENT ∧ d = 115 then args.headD [] ++ format fmt args.tail
      else c :: format (d :: fmt) args

structure HttpConfig where
  disk_offload : Bool
  disk_offload_min : Nat
  max_body_len : Nat
  offload_path : Bytes

/-- `BodyOffload`; `fd` is null when there is no file. -/
structure BodyOffload where
  fd : Option MFile
  length : Nat

/-- The name of the file. The buffer that it is printed to is given as the format too, and it is
empty; the format is the first of the arguments. -/
def offloadPath (cfg : HttpConfig) : Bytes :=
  format (OBuffer.new 64).contents [str "%s/http_body.XXXXXX", cfg.offload_path]

end Request

/-! ## Requests -/

variable {σ : Type}

/-- The fields of `parser` and `Request` that the body passes through. -/
structure Request (σ : Type) where
  parser : Parser σ
  counted : Bool
  body : OBuffer
  headers_complete : Bool
  body_complete : Bool
  has_body : Bool
  body_read : Bool
  body_error : Bool
  offload_error : Bool
  body_offset : Nat
  offload : Option Request.BodyOffload

namespace Request

inductive Fault where
  | buffer (e : OBuffer.Stop)
  | accessViolation
  | indexOutOfBounds
  | endless
  | fuel
  deriving DecidableEq, Repr

/-- `clear`, but for the parser. -/
def cleared (p : Parser σ) : Request σ where
  parser := p
  counted := false
  body := ⟨none, 0, 0⟩
  headers_complete := false
  body_complete := false
  has_body := false
  body_read := false
  body_error := false
  offload_error := false
  body_offset := 0
  offload := none

/-- A request before its first byte. -/
def new (G : Head σ) : Request σ := cleared ⟨.head G.start, 0, 0, true⟩

/-- `body.append`. -/
def append (r : Request σ) (bs : Bytes) : Except Fault (Request σ) :=
  match r.body.append bs with
  | .ok body => .ok { r with body := body }
  | .error e => .error (.buffer e)

/-- `handle_body_part`. -/
def handle_body_part (cfg : HttpConfig) (r : Request σ) (bs : Bytes) : Except Fault (Request σ) :=
  match r.offload with
  | none => r.append bs
  | some off =>
      if cfg.disk_offload then
        match off.fd with
        | none => .error .accessViolation
        | some f => .ok { r with offload := some { off with fd := some (f.write bs) } }
      else r.append bs

/-- `on_msg_complete` and `msg_complete`. -/
def msg_complete (r : Request σ) : Request σ :=
  { r with
    body_complete := true
    has_body := true
    body_read := true
    parser := { r.parser with content_length := r.body.offset } }

def notify (r : Request σ) : Notice → Request σ
  | .messageBegin => cleared r.parser
  | .headersComplete counted => { r with counted := counted, headers_complete := true }
  | .messageComplete => r.msg_complete

/-- The bytes that are marked are a part of the body. -/
def flush (cfg : HttpConfig) (r : Request σ) (mark : Bytes) : Except Fault (Request σ) :=
  if mark = [] then .ok r else r.handle_body_part cfg mark

/-- The loop of `http_parser_execute`, and whether all bytes were parsed. -/
def execute (G : Head σ) (cfg : HttpConfig) (r : Request σ) (mark : Bytes) :
    Bytes → Except Fault (Request σ × Bool)
  | [] => do .ok (← r.flush cfg mark, true)
  | c :: cs =>
      match G.tick r.parser c with
      | none => .ok (r, false)
      | some t =>
          let mark := if t.isBody then mark ++ [c] else mark
          if t.isBody && t.notices.isEmpty then
            execute G cfg { r with parser := t.parser } mark cs
          else do
            let r ← flush cfg { r with parser := t.parser } mark
            let r := t.notices.foldl notify r
            if t.exits then .ok (r, cs.isEmpty) else execute G cfg r [] cs

/-- `feed`. Without any bytes the parser fails in the middle of a message. -/
def feed (G : Head σ) (cfg : HttpConfig) (r : Request σ) (bs : Bytes) :
    Except Fault (Request σ × Bool) :=
  if bs = [] then
    match r.parser.state with
    | .dead => .ok (r, true)
    | .head s => .ok (r, G.starting s)
    | _ => .ok (r, false)
  else execute G cfg r [] bs

/-! ## Receiving -/

/-- What is sent back when a read fails. -/
def failed (e : Tcp.Errno) : Status :=
  if e = .timedOut then .REQUEST_TIMEOUT else .INTERNAL_ERROR

/-- The capacity of `stage` when so much has been reserved. -/
def stage (n : Nat) : Nat := ((⟨none, 0, 0⟩ : OBuffer).reserve n).size

/-- `feed(stage, len)`: the conversion to a string ends the text at the offset, which is 0. -/
def stamp (bs : Bytes) : Bytes := bs.set 0 NUL

/-- The loop of `receive_headers`. -/
def headersLoop (G : Head σ) (cfg : HttpConfig) (deadline : Bool) :
    Nat → Request σ → Tcp.Conn → Except Fault (Status × Request σ × Tcp.Conn)
  | 0, _, _ => .error .fuel
  | n + 1, r, c => do
      let got := Tcp.tcpread deadline c (stage 1023)
      match got.errno with
      | some e => .ok (failed e, r, got.conn)
      | none =>
          let (r, ok) ← r.feed G cfg got.bytes
          if !ok then .ok (.BAD_REQUEST, r, got.conn)
          else if r.headers_complete then .ok (.OK, r, got.conn)
          else headersLoop G cfg deadline n r got.conn

def process_headers (cfg : HttpConfig) (r : Request σ) : Status × Request σ :=
  if r.counted && decide (cfg.max_body_len < r.parser.content_length) then
    (.REQUEST_ENTITY_TOO_LARGE, r)
  else
    let r := { r with has_body := r.has_body || r.counted }
    if r.has_body && cfg.disk_offload && decide (cfg.disk_offload_min < r.parser.content_length) then
      let off := r.offload.getD ⟨mfmktemp (offloadPath cfg), r.parser.content_length⟩
      let r := { r with offload := some off }
      if off.fd.isNone then (.INTERNAL_ERROR, r) else (.OK, r)
    else (.OK, r)

def receive_headers (G : Head σ) (cfg : HttpConfig) (deadline : Bool) (r : Request σ) (c : Tcp.Conn) :
    Except Fault (Status × Request σ × Tcp.Conn) := do
  let (status, r, c) ← headersLoop G cfg deadline (c.stream.length + 1) r c
  if status = .OK then
    let (status, r) := r.process_headers cfg
    .ok (status, r, c)
  else .ok (status, r, c)

/-- The loop of `receive_body`, with the capacity of `stage`. -/
def bodyLoop (G : Head σ) (cfg : HttpConfig) (deadline : Bool) (cap : Nat) :
    Nat → Nat → Request σ → Tcp.Conn → Except Fault (Status × Request σ × Tcp.Conn)
  | 0, _, _, _ => .error .fuel
  | n + 1, left, r, c => do
      let got := Tcp.tcprecv deadline c (min cap left)
      match got.errno with
      | some e => .ok (failed e, r, got.conn)
      | none =>
          let (r, ok) ← r.feed G cfg (stamp got.bytes)
          if !ok then .ok (.BAD_REQUEST, r, got.conn)
          else if !r.body_complete && decide (0 < left - got.bytes.length) then
            bodyLoop G cfg deadline cap n (left - got.bytes.length) r got.conn
          else .ok (.OK, r, got.conn)

def receive_body (G : Head σ) (cfg : HttpConfig) (deadline : Bool) (r : Request σ) (c : Tcp.Conn) :
    Except Fault (Status × Request σ × Tcp.Conn) :=
  if r.body_complete then .ok (.OK, r, c)
  else do
    let left := r.parser.content_length
    let (status, r, c) ←
      bodyLoop G cfg deadline (stage (min left 2048)) (c.stream.length + 1) left r c
    if status = .OK then
      if r.body_complete then .ok (.OK, { r with body_read := r.body_read || r.offload.isNone }, c)
      else .ok (.BAD_REQUEST, r, c)
    else .ok (status, r, c)

/-- The first half of `Connection::start`: with `OK` the request is handled. -/
def receive (G : Head σ) (cfg : HttpConfig) (deadline : Bool) (c : Tcp.Conn) :
    Except Fault (Status × Request σ) := do
  let (status, r, c) ← receive_headers G cfg deadline (new G) c
  if status = .OK then
    let (status, r, _) ← receive_body G cfg deadline r c
    .ok (status, r)
  else .ok (status, r)

/-! ## Reading back -/

/-- What a call returns, and the bytes that it stores. -/
structure Result where
  ret : Int
  stored : Bytes
  deriving DecidableEq, Repr

def SSIZE_MAX : Nat := 2 ^ 63 - 1

/-- `a - b` in a `size_t`. -/
def diff (a b : Nat) : Nat := (a + 2 ^ 64 - b) % 2 ^ 64

/-- The loop of `read_body` that reads from the file. A chunk that is read counts as an error. Where
the file ends, `mfread` leaves `errno` as it is: when that is an error, the loop goes on with nothing
for ever. -/
def readOffload (stale : Bool) (r : Request σ) (len : Nat) (off : BodyOffload) :
    Except Fault (Result × Request σ) :=
  match off.fd with
  | none => .error .accessViolation
  | some f =>
      let chunk := min 4096 (min (diff off.length r.body_offset) len)
      let got := (f.data.drop f.pos).take chunk
      if got.length < chunk ∧ stale then .error .endless
      else
        .ok (⟨-1, got⟩,
          { r with
            offload_error := true
            offload := some { off with fd := some { f with pos := f.pos + got.length } } })

/-- The branch of `read_body` that copies from memory, and its last lines. -/
def readMemory (r : Request σ) (len : Nat) : Except Fault (Result × Request σ) :=
  let next := { r with body_offset := (r.body_offset + len) % OBuffer.UINT32 }
  if len ≤ diff r.body.offset r.body_offset then
    if r.body_offset ≤ r.body.offset then
      .ok (⟨len, (r.body.contents.drop r.body_offset).take len⟩, next)
    else .error .indexOutOfBounds
  else .ok (⟨len, []⟩, next)

/-- `read_body`; `stale` says that `errno` is an error when it is called. -/
def read_body (stale : Bool) (r : Request σ) (len : Nat) : Except Fault (Result × Request σ) :=
  if len = 0 ∨ SSIZE_MAX < len then .ok (⟨-1, []⟩, r)
  else if !r.body_read || !r.offload_error && r.offload.isSome then
    match r.offload with
    | none => .error .accessViolation
    | some off => readOffload stale r len off
  else r.readMemory len

/-- `body_seek`. -/
def body_seek (r : Request σ) (off : Nat) : Except Fault (Bool × Request σ) :=
  if !r.body_read then
    match r.offload_error, r.offload with
    | false, some o =>
        match o.fd with
        | none => .error .accessViolation
        | some f => .ok (true, { r with offload := some { o with fd := some { f with pos := off } } })
    | _, _ => .ok (false, r)
  else if !r.body_error then .ok (true, { r with body_offset := off % 2 ^ 16 })
  else .ok (false, r)

/-- `get_body`. What is read from the file is stored in front, and the offset stays where it is. -/
def get_body (stale : Bool) (r : Request σ) : Except Fault (Bytes × Request σ) :=
  if !r.has_body || r.body_read || r.body_error then .ok (r.body.contents, r)
  else if r.offload.isSome then do
    let (res, r) ← read_body stale r r.parser.content_length
    let r :=
      if res.ret < 0 then { r with body := ⟨none, 0, 0⟩, body_error := true, body_read := true }
      else { r with body_read := true }
    .ok (r.body.contents, r)
  else .ok (r.body.contents, r)

/-- A call of `read_body` or `body_seek`. -/
inductive Access where
  | read (len : Nat)
  | seek (off : Nat)

/-! ## Bodies that are delivered -/

/-- What a read has to give at a place in the body. -/
def expected (body : Bytes) (pos len : Nat) : Result :=
  if len = 0 then ⟨-1, []⟩ else ⟨((body.drop pos).take len).length, (body.drop pos).take len⟩

/-- The calls read the body from a place on, whatever `errno` is. Nothing is asked of them once a place
behind the body has been sought. -/
def Delivers (body : Bytes) : Nat → Request σ → List Access → Prop
  | _, _, [] => True
  | pos, r, .read len :: as =>
      ∀ stale, ∃ r', read_body stale r len = .ok (expected body pos len, r') ∧
        Delivers body (pos + (expected body pos len).stored.length) r' as
  | _, r, .seek off :: as =>
      off ≤ body.length → ∃ r', r.body_seek off = .ok (true, r') ∧ Delivers body off r' as

/-- A body that is not too long gets to the handler, and any other is refused. -/
def Assembled (G : Head σ) (cfg : HttpConfig) (deadline : Bool) (body : Bytes) (c : Tcp.Conn)
    (as : List Access) : Prop :=
  ∃ status r, receive G cfg deadline c = .ok (status, r) ∧
    if body.length ≤ cfg.max_body_len then
      status = .OK ∧ r.parser.content_length = body.length ∧
        (∀ stale, ∃ r', get_body stale r = .ok (body, r')) ∧ Delivers body 0 r as
    else status = .REQUEST_ENTITY_TOO_LARGE

/-! ## The pieces that a request arrives in -/

/-- A connection on which a message arrives, whatever the pieces, and nothing else. -/
structure Delivery {G : Head σ} (m : Message G) where
  wire : List Tcp.Arrival
  soon : Tcp.Arrival.soon wire = m.bytes
  all : Tcp.Arrival.all wire = m.bytes

def Delivery.conn {G : Head σ} {m : Message G} (d : Delivery m) : Tcp.Conn := ⟨[], d.wire⟩

/-- How many bytes reads of so many bring until there are at least `n`. -/
def gathered (deadline : Bool) (len : Nat) : Nat → Nat → Tcp.Conn → Nat
  | 0, _, _ => 0
  | fuel + 1, n, c =>
      let got := Tcp.tcpread deadline c len
      if n ≤ got.bytes.length then got.bytes.length
      else got.bytes.length + gathered deadline len fuel (n - got.bytes.length) got.conn

/-- How many bytes come behind the headers in the same reads. -/
def Delivery.early {G : Head σ} {m : Message G} (d : Delivery m) (deadline : Bool) : Nat :=
  gathered deadline (stage 1023) m.head.length m.head.length d.conn - m.head.length

/-- Bytes in blocks of so many. -/
def blocks (n : Nat) (bs : Bytes) : List Bytes :=
  if n = 0 ∨ bs = [] then [] else bs.take n :: blocks n (bs.drop n)
termination_by bs.length
decreasing_by
  rename_i h
  rw [not_or] at h
  have := List.length_pos_iff.mpr h.2
  rw [List.length_drop]
  omega

/-- The blocks that `receive_body` reads of so many bytes. -/
def bodyBlocks (rest : Bytes) : List Bytes := blocks (stage (min rest.length 2048)) rest

/-- The buffer takes all parts of a body. -/
def Holds (parts : List Bytes) : Prop :=
  ∃ b, parts.foldlM OBuffer.append (⟨none, 0, 0⟩ : OBuffer) = .ok b

/-- The calls stay inside of a body of so many bytes, from a place on, and read nothing where a place has
been sought that `body_seek` cannot tell. -/
def Inside (n : Nat) : Option Nat → List Access → Prop
  | _, [] => True
  | place, .read len :: as =>
      (len = 0 ∧ Inside n place as) ∨
        0 < len ∧ ∃ pos, place = some pos ∧ pos + len ≤ n ∧ Inside n (some (pos + len)) as
  | _, .seek off :: as => off ≤ n → Inside n (if off < 2 ^ 16 then some off else none) as

/-- What is in `content_length` when the headers and so many bytes more have been read. -/
def counter {G : Head σ} (m : Message G) (k : Nat) : Nat :=
  if m.encoded.length ≤ k then m.body.length
  else
    match G.scan m.framing.parser (m.encoded.take k) with
    | some (p, _, _) => p.content_length
    | none => 0

/-- The body is not written to a file, and what comes in later reads is a body of a known length whose
blocks all start with the NUL that is put there. -/
def Whole {G : Head σ} (cfg : HttpConfig) (m : Message G) (k : Nat) : Prop :=
  let rest := m.encoded.drop k
  if rest = [] then ¬ (cfg.disk_offload = true ∧ cfg.disk_offload_min < m.body.length)
  else
    m.framing.chunked = false ∧
      ¬ (m.framing.counted = true ∧ cfg.disk_offload = true ∧ cfg.disk_offload_min < rest.length) ∧
      (∀ b ∈ bodyBlocks rest, b.head? = some NUL) ∧ Holds (m.encoded.take k :: bodyBlocks rest)

/-- What the request, its pieces and the calls have to be. -/
def Fits {G : Head σ} (cfg : HttpConfig) (m : Message G) (k : Nat) (as : List Access) : Prop :=
  if m.body.length ≤ cfg.max_body_len then Whole cfg m k ∧ Inside m.body.length (some 0) as
  else m.framing.counted = true ∧ cfg.max_body_len < counter m k

end Request

end Suil.Http
