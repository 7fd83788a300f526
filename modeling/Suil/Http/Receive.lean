import Suil.Basic.Buffer
import Suil.Http.HttpParser
import Suil.Lib.StepMachine
import Suil.Lib.Traced

set_option autoImplicit false

/-! # The bodies that a client receives

`Response::receive` (`client.cpp`) reads a response and gives what it reads to the parser, which calls
back: with the length that is announced, with each part of the body, and at the end. A response has a
buffer for the body, or a `ResponseWriter`: that of a `MemoryOffload` or a `FileOffload`
(`clientapi.h`). The parser is the calls that it makes in each read. `receives_iff` says when the body
is what has been received. -/

namespace Suil.Http.Client

open HttpParser (ULLONG_MAX)

/-! ## `receive` and the parser of a response -/

/-- How a response is not received: with an exception, in a buffer, with a store outside of memory, or
with the result of a function that does not return one. -/
inductive Fault where
  | thrown
  | buffer (e : OBuffer.Stop)
  | outside
  | undefined

/-- `ResponseWriter`, with what it works on. -/
abbrev Writer (ω : Type) : Type := ω → Option Bytes → Nat → Except Fault (Nat × ω)

structure Response (ω : Type) where
  body : OBuffer
  out : ω
  headers_complete : Bool
  body_complete : Bool
  body_read : Bool
  content_length : Nat

/-- A new response. -/
def Response.new {ω : Type} (out : ω) : Response ω := ⟨⟨none, 0, 0⟩, out, false, false, false, 0⟩

/-- A call of the parser. -/
inductive Callback where
  | headersComplete (content_length : Nat)
  | bodyPart (part : Bytes)
  | messageComplete

/-- What is read at once: the number of bytes, the calls of the parser, and its `content_length` behind
them. -/
structure Read where
  size : Nat
  calls : List Callback
  left : Nat

section
variable {ω : Type} (reader : Option (Writer ω))

/-- `handle_headers_complete`. -/
def handle_headers_complete (r : Response ω) : Except Fault (Response ω) :=
  match reader with
  | some w => do
      let (_, out) ← w r.out none r.content_length
      .ok { r with out := out }
  | none => .ok { r with body := r.body.reserve ((r.content_length + 2) % 2 ^ 64) }

/-- `handle_body_part`, where a result that is not zero is an error of the parser. -/
def handle_body_part (r : Response ω) (part : Bytes) : Except Fault (Response ω) :=
  match reader with
  | none =>
      match r.body.append part with
      | .ok body => .ok { r with body := body }
      | .error e => .error (.buffer e)
  | some w => do
      let (ret, out) ← w r.out (some part) part.length
      if ret = part.length then .ok { r with out := out } else .error .thrown

/-- `msg_complete`. -/
def msg_complete (r : Response ω) : Except Fault (Response ω) := do
  let r ← match reader with
    | some w => do
        let (_, out) ← w r.out none 0
        .ok { r with out := out }
    | none => .ok r
  .ok { r with body_complete := true, body_read := true, content_length := r.body.offset }

def call (r : Response ω) : Callback → Except Fault (Response ω)
  | .headersComplete n =>
      handle_headers_complete reader { r with headers_complete := true, content_length := n }
  | .bodyPart part => handle_body_part reader r part
  | .messageComplete => msg_complete reader r

/-- `feed`. -/
def feed (r : Response ω) (rd : Read) : Except Fault (Response ω) := do
  let r ← rd.calls.foldlM (call reader) r
  .ok (if r.body_complete then r else { r with content_length := rd.left })

/-- The loop up to the end of the headers, and what is left to be read. -/
def headersLoop (r : Response ω) : List Read → Except Fault (Response ω × List Read)
  | [] => .error .thrown
  | rd :: rds => do
      let r ← feed reader r rd
      if r.headers_complete then .ok (r, rds) else headersLoop r rds

end

/-- `OBuffer::reset(size, true)`. -/
def reset (b : OBuffer) (size : Nat) : OBuffer :=
  if b.size < size then ({ b with offset := 0, size := 0 } : OBuffer).grow (max 8 size % OBuffer.UINT32)
  else { b with offset := 0 }

/-- `seek(len)`. -/
def seek (b : OBuffer) (len : Nat) : Except Fault OBuffer :=
  match b.seekBy len with
  | .ok b => .ok b
  | .error e => .error (.buffer e)

section
variable {ω : Type} (reader : Option (Writer ω))

/-- The loop up to the end of the body; `len` is what has been read last. -/
def bodyLoop (tmp : OBuffer) (len : Nat) (r : Response ω) : List Read → Except Fault (Response ω)
  | [] => .error .thrown
  | rd :: rds => do
      let tmp ← seek (reset tmp len) rd.size
      let r ← feed reader r rd
      if r.body_complete then .ok r else bodyLoop tmp rd.size r rds

/-- The buffer for the rest of the body. -/
def bodyBuffer (content_length : Nat) : OBuffer :=
  (OBuffer.new 1023).reserve
    (if content_length = ULLONG_MAX then 8000 else (content_length + 20) % 2 ^ 64)

/-- `receive`. -/
def receive (r : Response ω) (reads : List Read) : Except Fault (Response ω) := do
  let (r, reads) ← headersLoop reader r reads
  if r.body_read || r.content_length = 0 then .ok r
  else bodyLoop reader (bodyBuffer r.content_length) 0 r reads

end

/-! ## Writers -/

/-- What `data` of a `MemoryOffload` points to: `MAP_FAILED` is not null, and what is mapped can only be
read. -/
inductive Block where
  | null
  | heap (size : Nat)
  | mapped
  | mapFailed

/-- `MemoryOffload`, with the bytes in front of `offset`. Its handler refers to the parameter of the
constructor: `mapped_min` is what it finds there. -/
structure MemoryOffload where
  mapped_min : Nat
  data : Block
  stored : Bytes
  is_mapped : Bool

def MemoryOffload.new (mapped_min : Nat) : MemoryOffload := ⟨mapped_min, .null, [], false⟩

/-- `malloc(len)`, which gives what can be asked for. -/
def malloc (len : Nat) : Block := if len < 2 ^ 63 then .heap len else .null

/-- `mmap(nullptr, total, PROT_READ, MAP_SHARED, fd, 0)`, which needs a file. -/
def mmapShared (fd : Int) : Block := if fd < 0 then .mapFailed else .mapped

/-- `map_region(len)`. -/
def MemoryOffload.map_region (m : MemoryOffload) : Bool × MemoryOffload :=
  match mmapShared (-1) with
  | .null => (false, { m with data := .null })
  | data => (true, { m with data := data, is_mapped := true })

/-- `memcpy(&data[offset], at, len); offset += len;`. -/
def MemoryOffload.store (m : MemoryOffload) (bs : Bytes) : Except Fault MemoryOffload :=
  if bs = [] then .ok m
  else
    match m.data with
    | .heap size =>
        if m.stored.length + bs.length ≤ size then .ok { m with stored := m.stored ++ bs }
        else .error .outside
    | _ => .error .outside

/-- The handler of a `MemoryOffload`: what it returns is `true` or `false`. -/
def MemoryOffload.handler : Writer MemoryOffload := fun m data len =>
  if data = none ∧ len ≠ 0 then
    if m.mapped_min < len then
      let (ok, m) := m.map_region
      .ok (ok.toNat, m)
    else
      match malloc len with
      | .null => .ok (false.toNat, { m with data := .null })
      | block => .ok (true.toNat, { m with data := block })
  else do
    let m ← m.store (data.getD [])
    .ok (true.toNat, m)

/-- `operator String`. -/
def MemoryOffload.string (m : MemoryOffload) : Bytes :=
  m.stored.take (m.stored.length % OBuffer.UINT32)

/-- The handler of a `FileOffload`, which returns the number of bytes written, or nothing. -/
def FileOffload.handler : Writer Bytes := fun file data len =>
  if len = 0 then .error .undefined
  else
    match data with
    | some bs => .ok (bs.length, file ++ bs)
    | none => .error .undefined

/-! ## Responses as they arrive -/

/-- What is behind the headers in one read: the parts of the body that the parser finds, and its
`content_length` behind them. -/
structure Piece where
  size : Nat
  parts : List Bytes
  left : Nat

/-- A response: the reads in front of the one that ends the headers, the length it announces, the read
that ends the headers, and the others. A part is not empty and not longer than its read, the first loop
reads at most 1024 bytes, and a length that is announced is that of the body. -/
structure Arrival where
  heads : List Nat
  announced : Nat
  first : Piece
  rest : List Piece
  nonempty : ∀ p ∈ first :: rest, ∀ part ∈ p.parts, part ≠ [] ∧ part.length ≤ p.size
  short : first.size ≤ 1024
  counted : announced = ULLONG_MAX ∨
    announced = ((first :: rest).flatMap Piece.parts).flatten.length

namespace Arrival

def parts (a : Arrival) : List Bytes := (a.first :: a.rest).flatMap Piece.parts

/-- The body of the message. -/
def body (a : Arrival) : Bytes := a.parts.flatten

end Arrival

/-- A piece as a read, behind what the parser calls before it. -/
def Piece.read (p : Piece) (before : List Callback) (last : Bool) : Read :=
  ⟨p.size, before ++ (p.parts.map .bodyPart ++ if last then [.messageComplete] else []), p.left⟩

/-- The reads behind the headers: the last one completes the message. -/
def readsOf : List Piece → List Read
  | [] => []
  | p :: ps => p.read [] ps.isEmpty :: readsOf ps

def Arrival.reads (a : Arrival) : List Read :=
  a.heads.map (fun size => ⟨size, [], 0⟩) ++
    a.first.read [.headersComplete a.announced] a.rest.isEmpty :: readsOf a.rest

/-! ## Responses with their bodies -/

/-- The response is received, and the buffer has the body. -/
def Buffered (a : Arrival) : Prop :=
  ∃ r, receive (none : Option (Writer Unit)) (.new ()) a.reads = .ok r ∧ r.body.contents = a.body

/-- The response is received, and the memory has the body. -/
def Offloaded (mapped_min : Nat) (a : Arrival) : Prop :=
  ∃ r, receive (some MemoryOffload.handler) (.new (.new mapped_min)) a.reads = .ok r ∧
    r.out.string = a.body

/-- The response is received, and the file has the body. -/
def Filed (a : Arrival) : Prop :=
  ∃ r, receive (some FileOffload.handler) (.new []) a.reads = .ok r ∧ r.out = a.body

/-! ## Arrivals that a writer gets through -/

namespace Arrival

/-- Nothing is read any more behind the headers, though the message is not complete. -/
def Stops (a : Arrival) : Prop := a.rest ≠ [] ∧ a.first.left = 0

instance (a : Arrival) : Decidable a.Stops := inferInstanceAs (Decidable (_ ∧ _))

/-- No part is left behind, and no read fills the buffer. -/
def Settled (a : Arrival) : Prop :=
  if a.Stops then a.rest.flatMap Piece.parts = []
  else ∀ p ∈ a.rest, p.size < (bodyBuffer a.first.left).size

/-- The buffer of a response has room for each part. -/
def Roomy (a : Arrival) : Prop :=
  ∀ q ∈ StepMachine.inputs (fun b part => (OBuffer.append b part).toOption)
    (OBuffer.reserve ⟨none, 0, 0⟩ ((a.announced + 2) % 2 ^ 64)) a.parts, q.1.Fits q.2.length

/-- There is no body, or its length is announced and not too large for the heap, and each part is a single
byte. -/
def Bytewise (mapped_min : Nat) (a : Arrival) : Prop :=
  a.parts = [] ∨ a.announced = a.body.length ∧ a.body.length ≤ mapped_min ∧
    a.body.length < OBuffer.UINT32 ∧ ∀ part ∈ a.parts, part.length = 1

end Arrival

/-! ## Calls of the parser -/

variable {ω : Type} {reader : Option (Writer ω)}

/-- What the body is stored in. -/
def Response.core (r : Response ω) : OBuffer × ω := (r.body, r.out)

def Response.set (r : Response ω) (x : OBuffer × ω) : Response ω := { r with body := x.1, out := x.2 }

/-- The response behind a message. -/
def Response.completed (r : Response ω) (x : OBuffer × ω) : Response ω :=
  { r.set x with body_complete := true, body_read := true, content_length := x.1.offset }

@[simp] theorem core_set (r : Response ω) (x : OBuffer × ω) : (r.set x).core = x := rfl

@[simp] theorem core_completed (r : Response ω) (x : OBuffer × ω) : (r.completed x).core = x := rfl

/-- A part is taken. -/
def takePart (reader : Option (Writer ω)) (x : OBuffer × ω) (part : Bytes) :
    Except Fault (OBuffer × ω) :=
  match reader with
  | none =>
      match x.1.append part with
      | .ok body => .ok (body, x.2)
      | .error e => .error (.buffer e)
  | some w => do
      let (ret, out) ← w x.2 (some part) part.length
      if ret = part.length then .ok (x.1, out) else .error .thrown

/-- The end of the message is taken. -/
def finish (reader : Option (Writer ω)) (x : OBuffer × ω) : Except Fault (OBuffer × ω) :=
  match reader with
  | none => .ok x
  | some w => do
      let (_, out) ← w x.2 none 0
      .ok (x.1, out)

/-- The length is taken. -/
def announce (reader : Option (Writer ω)) (n : Nat) (x : OBuffer × ω) : Except Fault (OBuffer × ω) :=
  match reader with
  | none => .ok (x.1.reserve ((n + 2) % 2 ^ 64), x.2)
  | some w => do
      let (_, out) ← w x.2 none n
      .ok (x.1, out)

theorem handle_headers_complete_eq (r : Response ω) : handle_headers_complete reader r =
    (announce reader r.content_length r.core).map r.set := by
  cases reader with
  | none => rfl
  | some w =>
      show (w r.out none r.content_length >>= fun y => .ok { r with out := y.2 }) =
        (w r.out none r.content_length >>= fun y => .ok (r.body, y.2)).map r.set
      cases w r.out none r.content_length with
      | error e => rfl
      | ok y => rfl

theorem handle_body_part_eq (r : Response ω) (part : Bytes) :
    handle_body_part reader r part = (takePart reader r.core part).map r.set := by
  cases reader with
  | none =>
      rw [handle_body_part, takePart]
      dsimp only [Response.core]
      cases r.body.append part with
      | error e => rfl
      | ok body => rfl
  | some w =>
      rw [handle_body_part, takePart]
      dsimp only [Response.core]
      cases w r.out (some part) part.length with
      | error e => rfl
      | ok y =>
          rw [Except.bind_of_ok, Except.bind_of_ok]
          split_ifs
          · rfl
          · rfl

theorem msg_complete_eq (r : Response ω) :
    msg_complete reader r = (finish reader r.core).map r.completed := by
  cases reader with
  | none => rfl
  | some w =>
      rw [msg_complete, finish]
      dsimp only [Response.core]
      cases w r.out none 0 with
      | error e => rfl
      | ok y => rfl

/-- **The parts of a read are taken one after the other.** -/
theorem foldlM_parts (r : Response ω) (parts : List Bytes) :
    (parts.map .bodyPart).foldlM (call reader) r = (parts.foldlM (takePart reader) r.core).map r.set := by
  induction parts generalizing r with
  | nil => rfl
  | cons part parts ih =>
      rw [List.map_cons, List.foldlM_cons, List.foldlM_cons, call, handle_body_part_eq]
      cases takePart reader r.core part with
      | error e => rfl
      | ok x =>
          rw [Except.map, Except.bind_of_ok, Except.bind_of_ok, ih, core_set]
          cases parts.foldlM (takePart reader) x with
          | error e => rfl
          | ok y => rfl

/-- A read in the middle of the body. -/
theorem feed_middle {r : Response ω} (hr : r.body_complete = false) (p : Piece) :
    feed reader r (p.read [] false) =
      (p.parts.foldlM (takePart reader) r.core).map fun x =>
        { r.set x with content_length := p.left } := by
  have hcalls : (p.read [] false).calls = p.parts.map .bodyPart := by simp [Piece.read]
  rw [feed, hcalls, foldlM_parts]
  cases p.parts.foldlM (takePart reader) r.core with
  | error e => rfl
  | ok x =>
      have hopen : ¬ (r.set x).body_complete = true := by
        rw [show (r.set x).body_complete = false from hr]
        exact nofun
      exact congrArg Except.ok (if_neg hopen)

/-- The read that ends the body. -/
theorem feed_last (r : Response ω) (p : Piece) : feed reader r (p.read [] true) =
    (p.parts.foldlM (takePart reader) r.core >>= finish reader).map r.completed := by
  have hcalls : (p.read [] true).calls = p.parts.map .bodyPart ++ [.messageComplete] := by
    simp [Piece.read]
  rw [feed, hcalls, List.foldlM_append, foldlM_parts]
  cases p.parts.foldlM (takePart reader) r.core with
  | error e => rfl
  | ok x =>
      rw [Except.map, Except.bind_of_ok, Except.bind_of_ok, List.foldlM_cons, call, msg_complete_eq,
        core_set]
      cases finish reader x with
      | error e => rfl
      | ok y => rfl

/-! ## The loops -/

theorem seek_reset {tmp : OBuffer} {len : Nat} (h : len ≤ tmp.size) (n : Nat) :
    (n < tmp.size → seek (reset tmp len) n = .ok { tmp with offset := n }) ∧
      (tmp.size ≤ n → ∃ f, seek (reset tmp len) n = .error f) := by
  have hreset : reset tmp len = { tmp with offset := 0 } := if_neg (Nat.not_lt_of_le h)
  rw [hreset, seek]
  constructor
  · intro hlt
    rw [OBuffer.seekBy_of_lt (b := { tmp with offset := 0 }) (by simpa using hlt)]
    simp
  · intro hle
    rw [OBuffer.seekBy_of_le (b := { tmp with offset := 0 }) (by simpa using hle)]
    exact ⟨_, rfl⟩

/-- **The loop over the body succeeds when no read fills the buffer and all parts are taken.** -/
theorem bodyLoop_iff {tmp : OBuffer} {len : Nat} {r : Response ω} {ps : List Piece}
    (hlen : len ≤ tmp.size) (hr : r.body_complete = false) (hne : ps ≠ []) (x : OBuffer × ω) :
    (∃ r', bodyLoop reader tmp len r (readsOf ps) = .ok r' ∧ r'.core = x) ↔
      (∀ p ∈ ps, p.size < tmp.size) ∧
        ((ps.flatMap Piece.parts).foldlM (takePart reader) r.core >>= finish reader) = .ok x := by
  -- on the pieces: each is read to the front of the buffer
  induction ps generalizing tmp len r with
  | nil => exact absurd rfl hne
  | cons p ps ih =>
      rw [readsOf, bodyLoop, List.forall_mem_cons]
      obtain ⟨hok, herror⟩ := seek_reset hlen p.size
      rcases Nat.lt_or_ge p.size tmp.size with hlt | hge
      swap
      · obtain ⟨f, hf⟩ := herror hge
        refine iff_of_false ?_ fun h => absurd h.1.1 (Nat.not_lt_of_le hge)
        rintro ⟨r', hr', -⟩
        rw [show (p.read [] ps.isEmpty).size = p.size from rfl, hf] at hr'
        nomatch hr'
      rw [show (p.read [] ps.isEmpty).size = p.size from rfl, hok hlt, Except.bind_of_ok,
        and_iff_right hlt]
      cases ps with
      | nil =>
          rw [List.flatMap_singleton, show List.isEmpty ([] : List Piece) = true from rfl, feed_last]
          cases p.parts.foldlM (takePart reader) r.core >>= finish reader with
          | error e => exact iff_of_false (fun ⟨_, h, _⟩ => nomatch h) fun h => nomatch h.2
          | ok y =>
              constructor
              · rintro ⟨r', hr', rfl⟩
                cases hr'
                exact ⟨nofun, rfl⟩
              · rintro ⟨-, hy⟩
                cases hy
                exact ⟨_, rfl, rfl⟩
      | cons q ps =>
          rw [show List.isEmpty (q :: ps) = false from rfl, feed_middle hr, List.flatMap_cons,
            List.foldlM_append]
          cases p.parts.foldlM (takePart reader) r.core with
          | error e => exact iff_of_false (fun ⟨_, h, _⟩ => nomatch h) fun h => nomatch h.2
          | ok y =>
              have hopen : ({ r.set y with content_length := p.left } : Response ω).body_complete =
                  false := hr
              rw [Except.map, Except.bind_of_ok, Except.bind_of_ok, hopen, if_neg nofun]
              have hsize : p.size ≤ ({ tmp with offset := p.size } : OBuffer).size := Nat.le_of_lt hlt
              exact ih hsize hopen nofun

/-- A response whose headers are complete. -/
def Response.begun (out : ω) (n : Nat) (x : OBuffer × ω) : Response ω :=
  ({ Response.new out with headers_complete := true, content_length := n } : Response ω).set x

/-- The read that ends the headers is one of the body behind them. -/
theorem feed_first (out : ω) (n : Nat) (p : Piece) (last : Bool) :
    feed reader (.new out) (p.read [.headersComplete n] last) =
      (announce reader n (⟨none, 0, 0⟩, out) >>= fun x =>
        feed reader (.begun out n x) (p.read [] last)) := by
  have hcalls : (p.read [.headersComplete n] last).calls =
      .headersComplete n :: (p.read [] last).calls := rfl
  rw [feed, hcalls, List.foldlM_cons, call, handle_headers_complete_eq]
  show Except.map _ (announce reader n (⟨none, 0, 0⟩, out)) >>= _ >>= _ = _
  cases announce reader n (⟨none, 0, 0⟩, out) with
  | error e => rfl
  | ok x => rfl

/-- The reads in front of the end of the headers are of no account. -/
theorem headersLoop_eq (out : ω) (heads : List Nat) (rds : List Read) :
    headersLoop reader (.new out) (heads.map (fun size => ⟨size, [], 0⟩) ++ rds) =
      headersLoop reader (.new out) rds := by
  induction heads with
  | nil => rfl
  | cons size heads ih => exact ih

namespace Arrival

/-- The parts that are received. -/
def taken (a : Arrival) : List Bytes := if a.Stops then a.first.parts else a.parts

/-- What is done behind the last part. -/
def ends (a : Arrival) (reader : Option (Writer ω)) (x : OBuffer × ω) : Except Fault (OBuffer × ω) :=
  if a.Stops then .ok x else finish reader x

/-- All that a response does with its body. -/
def stored (a : Arrival) (reader : Option (Writer ω)) (out : ω) : Except Fault (OBuffer × ω) := do
  let x ← announce reader a.announced (⟨none, 0, 0⟩, out)
  let x ← a.taken.foldlM (takePart reader) x
  a.ends reader x

end Arrival

/-- A response that is complete with the read that ends its headers. -/
theorem receive_of_nil {a : Arrival} (hrest : a.rest = []) (out : ω) :
    receive reader (.new out) a.reads =
      (announce reader a.announced (⟨none, 0, 0⟩, out) >>= fun y =>
        (a.first.parts.foldlM (takePart reader) y >>= finish reader).map
          (Response.begun out a.announced y).completed) := by
  rw [receive, Arrival.reads, headersLoop_eq, headersLoop, feed_first, hrest]
  cases announce reader a.announced (⟨none, 0, 0⟩, out) with
  | error e => rfl
  | ok y =>
      rw [Except.bind_of_ok, Except.bind_of_ok, show List.isEmpty ([] : List Piece) = true from rfl,
        feed_last]
      show ((Except.map _ (a.first.parts.foldlM (takePart reader) y >>= finish reader) >>= _) >>= _) = _
      cases a.first.parts.foldlM (takePart reader) y >>= finish reader with
      | error e => rfl
      | ok z => rfl

/-- A response with more reads: they are left out when the parser has a length of zero. -/
theorem receive_of_ne_nil {a : Arrival} (hrest : a.rest ≠ []) (out : ω) :
    receive reader (.new out) a.reads =
      (announce reader a.announced (⟨none, 0, 0⟩, out) >>= fun y =>
        a.first.parts.foldlM (takePart reader) y >>= fun z =>
          let r := { (Response.begun out a.announced y).set z with content_length := a.first.left }
          if a.first.left = 0 then .ok r
          else bodyLoop reader (bodyBuffer a.first.left) 0 r (readsOf a.rest)) := by
  obtain ⟨q, ps, hcons⟩ := List.exists_cons_of_ne_nil hrest
  rw [receive, Arrival.reads, headersLoop_eq, headersLoop, feed_first, hcons]
  cases announce reader a.announced (⟨none, 0, 0⟩, out) with
  | error e => rfl
  | ok y =>
      have hopen : (Response.begun out a.announced y).body_complete = false := rfl
      rw [Except.bind_of_ok, Except.bind_of_ok, show List.isEmpty (q :: ps) = false from rfl,
        feed_middle hopen]
      show ((Except.map _ (a.first.parts.foldlM (takePart reader) y) >>= _) >>= _) = _
      cases a.first.parts.foldlM (takePart reader) y with
      | error e => rfl
      | ok z =>
          rw [Except.bind_of_ok]
          show (if (false || decide (a.first.left = 0)) = true then _ else _) =
            if a.first.left = 0 then _ else _
          by_cases hleft : a.first.left = 0
          · rw [if_pos hleft, if_pos (by rw [decide_eq_true hleft]; rfl)]
          · rw [if_neg hleft, if_neg (by rw [decide_eq_false hleft]; exact nofun)]

/-- **A response is received exactly when no read fills the buffer and everything is taken.** -/
theorem receive_iff (a : Arrival) (out : ω) (x : OBuffer × ω) :
    (∃ r, receive reader (.new out) a.reads = .ok r ∧ r.core = x) ↔
      (a.Stops ∨ ∀ p ∈ a.rest, p.size < (bodyBuffer a.first.left).size) ∧
        a.stored reader out = .ok x := by
  rw [Arrival.stored]
  by_cases hrest : a.rest = []
  · -- the message is complete
    have hstops : ¬ a.Stops := fun h => h.1 hrest
    have htaken : a.taken = a.first.parts := by
      rw [Arrival.taken, if_neg hstops, Arrival.parts, hrest, List.flatMap_singleton]
    have hends : a.ends reader = finish reader := funext fun x => if_neg hstops
    rw [receive_of_nil hrest, htaken, hends, hrest, and_iff_right (.inr nofun)]
    cases announce reader a.announced (⟨none, 0, 0⟩, out) with
    | error e => exact iff_of_false (fun ⟨_, h, _⟩ => nomatch h) nofun
    | ok y =>
        rw [Except.bind_of_ok, Except.bind_of_ok]
        cases a.first.parts.foldlM (takePart reader) y >>= finish reader with
        | error e => exact iff_of_false (fun ⟨_, h, _⟩ => nomatch h) nofun
        | ok z =>
            constructor
            · rintro ⟨r, hr, rfl⟩
              cases hr
              rfl
            · intro hz
              cases hz
              exact ⟨_, rfl, rfl⟩
  rw [receive_of_ne_nil hrest]
  by_cases hleft : a.first.left = 0
  · -- the loop over the body is left out
    have hstops : a.Stops := ⟨hrest, hleft⟩
    have hends : a.ends reader = .ok := funext fun x => if_pos hstops
    rw [Arrival.taken, if_pos hstops, hends, and_iff_right (.inl hstops)]
    cases announce reader a.announced (⟨none, 0, 0⟩, out) with
    | error e => exact iff_of_false (fun ⟨_, h, _⟩ => nomatch h) nofun
    | ok y =>
        rw [Except.bind_of_ok, Except.bind_of_ok]
        cases a.first.parts.foldlM (takePart reader) y with
        | error e => exact iff_of_false (fun ⟨_, h, _⟩ => nomatch h) nofun
        | ok z =>
            rw [Except.bind_of_ok, Except.bind_of_ok]
            dsimp only
            rw [if_pos hleft]
            constructor
            · rintro ⟨r, hr, rfl⟩
              cases hr
              rfl
            · intro hz
              cases hz
              exact ⟨_, rfl, rfl⟩
  -- the loop reads the other pieces, and each of them has to fit in its buffer
  · have hstops : ¬ a.Stops := fun h => hleft h.2
    have hends : a.ends reader = finish reader := funext fun x => if_neg hstops
    have hparts : a.parts = a.first.parts ++ a.rest.flatMap Piece.parts := rfl
    rw [Arrival.taken, if_neg hstops, hends, or_iff_right hstops, hparts]
    cases announce reader a.announced (⟨none, 0, 0⟩, out) with
    | error e => exact iff_of_false (fun ⟨_, h, _⟩ => nomatch h) fun h => nomatch h.2
    | ok y =>
        rw [Except.bind_of_ok, Except.bind_of_ok, List.foldlM_append]
        cases a.first.parts.foldlM (takePart reader) y with
        | error e => exact iff_of_false (fun ⟨_, h, _⟩ => nomatch h) fun h => nomatch h.2
        | ok z =>
            rw [Except.bind_of_ok, Except.bind_of_ok]
            dsimp only
            rw [if_neg hleft]
            exact bodyLoop_iff (Nat.zero_le _) rfl hrest x

/-! ## The parts that are received -/

variable {a : Arrival}

theorem ne_nil_of_mem_parts {part : Bytes} (h : part ∈ a.parts) : part ≠ [] := by
  obtain ⟨p, hp, hpart⟩ := List.mem_flatMap.mp h
  exact (a.nonempty p hp part hpart).1

/-- Parts without a byte are no parts. -/
theorem eq_nil_of_flatten {parts : List Bytes} (h : ∀ part ∈ parts, part ≠ [])
    (hnil : parts.flatten = []) : parts = [] := by
  cases parts with
  | nil => rfl
  | cons part parts =>
      rw [List.flatten_cons, List.append_eq_nil_iff] at hnil
      exact absurd hnil.1 (h part List.mem_cons_self)

theorem parts_eq (a : Arrival) : a.parts = a.first.parts ++ a.rest.flatMap Piece.parts := rfl

/-- **All of the body is received exactly when all of the parts are.** -/
theorem taken_iff (a : Arrival) : a.taken.flatten = a.body ↔ a.taken = a.parts := by
  refine ⟨fun h => ?_, fun h => congrArg List.flatten h⟩
  rw [Arrival.taken] at h ⊢
  split_ifs at h ⊢ with hstops
  · rw [Arrival.body, parts_eq, List.flatten_append, List.self_eq_append_right] at h
    have hrest := eq_nil_of_flatten (fun part hpart =>
      ne_nil_of_mem_parts (by rw [parts_eq]; exact List.mem_append_right _ hpart)) h
    rw [parts_eq, hrest, List.append_nil]
  · rfl

theorem settled_iff (a : Arrival) : a.Settled ↔
    (a.Stops ∨ ∀ p ∈ a.rest, p.size < (bodyBuffer a.first.left).size) ∧ a.taken = a.parts := by
  rw [Arrival.Settled, Arrival.taken]
  split_ifs with hstops
  · rw [and_iff_right (.inl hstops), parts_eq, List.self_eq_append_right]
  · rw [or_iff_right hstops]
    exact ⟨fun h => ⟨h, rfl⟩, fun h => h.1⟩

theorem mem_parts_of_taken {part : Bytes} (h : part ∈ a.taken) : part ∈ a.parts := by
  rw [Arrival.taken] at h
  split_ifs at h
  · rw [parts_eq]
    exact List.mem_append_left _ h
  · exact h

/-! ## The buffer of a response -/

/-- No part is so long that a buffer might hold it though it is full. -/
theorem taken_short (h : a.Stops ∨ ∀ p ∈ a.rest, p.size < (bodyBuffer a.first.left).size) :
    ∀ part ∈ a.taken, part.length + 8 < OBuffer.UINT32 := by
  have hfirst : ∀ part ∈ a.first.parts, part.length + 8 < OBuffer.UINT32 := by
    intro part hpart
    have hle := (a.nonempty a.first List.mem_cons_self part hpart).2
    have hshort := a.short
    unfold OBuffer.UINT32
    omega
  intro part hpart
  rw [Arrival.taken] at hpart
  split_ifs at hpart with hstops
  · exact hfirst part hpart
  · rw [parts_eq, List.mem_append] at hpart
    rcases hpart with hpart | hpart
    · exact hfirst part hpart
    · obtain ⟨p, hp, hpart⟩ := List.mem_flatMap.mp hpart
      have hle := (a.nonempty p (List.mem_cons_of_mem _ hp) part hpart).2
      have hlt := (or_iff_right hstops).mp h p hp
      have hshaped := OBuffer.reserve_shaped (OBuffer.new_shaped 1023).1
        (if a.first.left = ULLONG_MAX then 8000 else (a.first.left + 20) % 2 ^ 64)
      have hmultiple := hshaped.multiple
      have hwide := hshaped.wide
      rw [bodyBuffer] at hlt
      unfold OBuffer.UINT32 at *
      omega

/-- Without a reader the parts are appended to the body. -/
theorem foldlM_takePart (b : OBuffer) (parts : List Bytes) :
    parts.foldlM (takePart (none : Option (Writer Unit))) (b, ()) =
      match parts.foldlM OBuffer.append b with
      | .ok body => .ok (body, ())
      | .error e => .error (.buffer e) := by
  induction parts generalizing b with
  | nil => rfl
  | cons part parts ih =>
      rw [List.foldlM_cons, List.foldlM_cons, takePart]
      dsimp only
      cases b.append part with
      | error e => rfl
      | ok body => exact ih body

/-- **Parts are appended exactly when there is room for each of them.** -/
theorem append_parts_iff {b : OBuffer} (hs : b.Shaped) (hle : b.offset ≤ b.size) {parts : List Bytes}
    (hshort : ∀ part ∈ parts, part.length + 8 < OBuffer.UINT32) (c : Bytes) :
    (∃ x, parts.foldlM (takePart (none : Option (Writer Unit))) (b, ()) = .ok x ∧ x.1.contents = c) ↔
      (∀ q ∈ StepMachine.inputs (fun b part => (OBuffer.append b part).toOption) b parts,
        q.1.Fits q.2.length) ∧ b.contents ++ parts.flatten = c := by
  rw [← OBuffer.foldlM_append_iff hs hle (.inr hshort), foldlM_takePart]
  cases parts.foldlM OBuffer.append b with
  | error e => exact iff_of_false (fun ⟨_, h, _⟩ => nomatch h) fun ⟨_, h, _⟩ => nomatch h
  | ok body =>
      constructor
      · rintro ⟨x, hx, hc⟩
        cases hx
        exact ⟨body, rfl, hc⟩
      · rintro ⟨b', hb, hc⟩
        cases hb
        exact ⟨(body, ()), rfl, hc⟩

theorem buffered_iff (a : Arrival) : Buffered a ↔ a.Settled ∧ a.Roomy := by
  have hempty := OBuffer.new_shaped 0
  obtain ⟨he, -, -⟩ := OBuffer.reserve_spec hempty.1 hempty.2 ((a.announced + 2) % 2 ^ 64)
  have hstored : a.stored none () = a.taken.foldlM (takePart (none : Option (Writer Unit)))
      (OBuffer.reserve (.new 0) ((a.announced + 2) % 2 ^ 64), ()) := by
    have hends : a.ends (none : Option (Writer Unit)) = .ok := by
      funext x
      rw [Arrival.ends, finish, ite_self]
    rw [Arrival.stored, hends]
    exact bind_pure (a.taken.foldlM (takePart (none : Option (Writer Unit)))
      (OBuffer.reserve (.new 0) ((a.announced + 2) % 2 ^ 64), ()))
  have hcore : Buffered a ↔ ∃ x : OBuffer × Unit,
      (∃ r, receive none (.new ()) a.reads = .ok r ∧ r.core = x) ∧ x.1.contents = a.body := by
    constructor
    · rintro ⟨r, hr, hbody⟩
      exact ⟨r.core, ⟨r, hr, rfl⟩, hbody⟩
    · rintro ⟨x, ⟨r, hr, rfl⟩, hbody⟩
      exact ⟨r, hr, hbody⟩
  have hsize : (OBuffer.reserve (.new 0) ((a.announced + 2) % 2 ^ 64)).offset ≤
      (OBuffer.reserve (.new 0) ((a.announced + 2) % 2 ^ 64)).size := by
    rw [he.offset]
    exact Nat.zero_le _
  rw [hcore, settled_iff, and_assoc]
  simp only [receive_iff, and_assoc, exists_and_left]
  refine and_congr_right fun h => ?_
  have hnil : (OBuffer.reserve (.new 0) ((a.announced + 2) % 2 ^ 64)).contents = [] := by
    rw [OBuffer.contents, he.offset]
    rfl
  rw [hstored, append_parts_iff he.shaped hsize (taken_short h), hnil, List.nil_append, taken_iff,
    and_comm]
  refine and_congr_right fun htaken => ?_
  rw [htaken]
  rfl

/-! ## Memory -/

/-- What the announcement of a length leaves. -/
def announced (m : MemoryOffload) (n : Nat) : MemoryOffload :=
  if n = 0 then m
  else if m.mapped_min < n then { m with data := .mapFailed, is_mapped := true }
  else { m with data := malloc n }

theorem announce_memory (m : MemoryOffload) (n : Nat) (b : OBuffer) :
    announce (some MemoryOffload.handler) n (b, m) = .ok (b, announced m n) := by
  rw [announce, MemoryOffload.handler, announced]
  by_cases hn : n = 0
  · rw [if_pos hn, if_neg fun h => h.2 hn]
    rfl
  · rw [if_neg hn, if_pos ⟨rfl, hn⟩]
    by_cases hlarge : m.mapped_min < n
    · rw [if_pos hlarge, if_pos hlarge]
      rfl
    · rw [if_neg hlarge, if_neg hlarge]
      cases hmalloc : malloc n with
      | null => rfl
      | heap size => rfl
      | mapped => rfl
      | mapFailed => rfl

theorem finish_memory (m : MemoryOffload) (b : OBuffer) :
    finish (some MemoryOffload.handler) (b, m) = .ok (b, m) := rfl

/-- A part is stored, and `true` is taken for its length. -/
theorem takePart_memory (m : MemoryOffload) (b : OBuffer) (part : Bytes) :
    takePart (some MemoryOffload.handler) (b, m) part =
      (m.store part >>= fun m => if part.length = 1 then .ok (b, m) else .error .thrown) := by
  have hdata : ¬ (some part = none ∧ part.length ≠ 0) := fun h => nomatch h.1
  rw [takePart]
  dsimp only
  rw [MemoryOffload.handler, if_neg hdata, Option.getD_some]
  cases m.store part with
  | error e => rfl
  | ok m' =>
      show (if 1 = part.length then _ else _) = if part.length = 1 then _ else _
      by_cases hone : part.length = 1
      · rw [if_pos hone, if_pos hone.symm]
      · rw [if_neg hone, if_neg fun h => hone h.symm]

theorem store_heap {m : MemoryOffload} {size : Nat} (hdata : m.data = .heap size) {part : Bytes}
    (hne : part ≠ []) : m.store part =
      if m.stored.length + part.length ≤ size then .ok { m with stored := m.stored ++ part }
      else .error .outside := by
  rw [MemoryOffload.store, if_neg hne]
  split
  · next size' hsize =>
      cases hdata.symm.trans hsize
      rfl
  · next hother => exact absurd hdata (hother size)

/-- **Memory on the heap takes parts of one byte.** -/
theorem heap_parts_iff {m : MemoryOffload} {size : Nat} (hdata : m.data = .heap size) (b : OBuffer)
    {parts : List Bytes} (hne : ∀ part ∈ parts, part ≠ []) (x : OBuffer × MemoryOffload) :
    parts.foldlM (takePart (some MemoryOffload.handler)) (b, m) = .ok x ↔
      (∀ part ∈ parts, part.length = 1) ∧ (parts = [] ∨ m.stored.length + parts.length ≤ size) ∧
        x = (b, { m with stored := m.stored ++ parts.flatten }) := by
  -- on the parts; what is stored grows by each
  induction parts generalizing m with
  | nil =>
      rw [List.foldlM_nil, List.flatten_nil, List.append_nil, and_iff_right nofun,
        and_iff_right (.inl rfl)]
      constructor
      · intro h
        cases h
        rfl
      · rintro rfl
        rfl
  | cons part parts ih =>
      rw [List.forall_mem_cons] at hne
      rw [List.foldlM_cons, takePart_memory m b part, store_heap hdata hne.1, List.forall_mem_cons]
      by_cases hone : part.length = 1
      swap
      · refine iff_of_false (fun h => ?_) fun h => hone h.1.1
        split_ifs at h
        · nomatch h
        · nomatch h
      by_cases hroom : m.stored.length + part.length ≤ size
      swap
      · rw [if_neg hroom]
        refine iff_of_false nofun fun h => hroom ?_
        have hle := h.2.1.resolve_left nofun
        rw [List.length_cons] at hle
        omega
      have hcons : (part :: parts = [] ∨ m.stored.length + (part :: parts).length ≤ size) ↔
          (parts = [] ∨ (m.stored ++ part).length + parts.length ≤ size) := by
        rw [or_iff_right (by exact nofun), List.length_append, List.length_cons, hone]
        constructor
        · exact fun h => .inr (by omega)
        · rintro (rfl | h)
          · rw [hone] at hroom
            exact hroom
          · omega
      rw [if_pos hroom, Except.bind_of_ok, if_pos hone, Except.bind_of_ok,
        ih (m := { m with stored := m.stored ++ part }) hdata hne.2, and_iff_right hone, hcons,
        List.flatten_cons, List.append_assoc]

/-- No other memory takes a part. -/
theorem other_parts_iff {m : MemoryOffload} (hdata : ∀ size, m.data ≠ .heap size) (b : OBuffer)
    {parts : List Bytes} (hne : ∀ part ∈ parts, part ≠ []) (x : OBuffer × MemoryOffload) :
    parts.foldlM (takePart (some MemoryOffload.handler)) (b, m) = .ok x ↔
      parts = [] ∧ x = (b, m) := by
  cases parts with
  | nil =>
      rw [List.foldlM_nil, and_iff_right rfl]
      exact ⟨fun h => by cases h; rfl, fun h => by rw [h]; rfl⟩
  | cons part parts =>
      rw [List.forall_mem_cons] at hne
      refine iff_of_false (fun h => ?_) fun h => nomatch h.1
      have hstore : m.store part = .error .outside := by
        rw [MemoryOffload.store, if_neg hne.1]
        split
        · next size hsize => exact absurd hsize (hdata size)
        · rfl
      rw [List.foldlM_cons, takePart_memory m b part, hstore] at h
      nomatch h

/-- What is stored is read whole exactly when its length is one of 32 bits. -/
theorem string_eq_iff {m : MemoryOffload} {body : Bytes} (h : m.stored.length ≤ body.length) :
    m.string = body ↔ m.stored = body ∧ body.length < OBuffer.UINT32 := by
  rw [MemoryOffload.string]
  constructor
  · intro htake
    have hlen : min (m.stored.length % OBuffer.UINT32) m.stored.length = body.length := by
      rw [← List.length_take, htake]
    have hmod := Nat.mod_le m.stored.length OBuffer.UINT32
    have hlt := Nat.mod_lt m.stored.length (show 0 < OBuffer.UINT32 by decide)
    have hwhole : m.stored.take (m.stored.length % OBuffer.UINT32) = m.stored :=
      List.take_of_length_le (by omega)
    exact ⟨hwhole.symm.trans htake, by omega⟩
  · rintro ⟨rfl, hlt⟩
    rw [Nat.mod_eq_of_lt hlt, List.take_length]

theorem body_eq (a : Arrival) : ∃ rest, a.body = a.taken.flatten ++ rest := by
  rw [Arrival.taken, Arrival.body]
  split_ifs
  · exact ⟨_, by rw [parts_eq, List.flatten_append]⟩
  · exact ⟨[], (List.append_nil _).symm⟩

theorem length_flatten_of_ones {parts : List Bytes} (h : ∀ part ∈ parts, part.length = 1) :
    parts.flatten.length = parts.length := by
  induction parts with
  | nil => rfl
  | cons part parts ih =>
      rw [List.forall_mem_cons] at h
      rw [List.flatten_cons, List.length_append, List.length_cons, h.1, ih h.2, Nat.add_comm]

/-- The memory is on the heap when a length is announced for it. -/
theorem announced_heap_iff (mapped_min n size : Nat) :
    (announced (.new mapped_min) n).data = .heap size ↔
      n = size ∧ n ≠ 0 ∧ n ≤ mapped_min ∧ n < 2 ^ 63 := by
  rw [announced]
  split_ifs with hn hlarge
  · exact iff_of_false nofun fun h => h.2.1 hn
  · exact iff_of_false nofun fun h => Nat.not_lt_of_le h.2.2.1 hlarge
  · show malloc n = _ ↔ _
    rw [malloc]
    split_ifs with hlt
    · rw [Block.heap.injEq]
      exact ⟨fun h => ⟨h, hn, Nat.le_of_not_lt hlarge, hlt⟩, fun h => h.1⟩
    · exact iff_of_false nofun fun h => hlt h.2.2.2

theorem announced_stored (mapped_min n : Nat) : (announced (.new mapped_min) n).stored = [] := by
  rw [announced]
  split_ifs
  · rfl
  · rfl
  · rfl

/-- **A body is in the memory exactly when it comes byte by byte, or not at all.** -/
theorem offloaded_iff (mapped_min : Nat) (a : Arrival) :
    Offloaded mapped_min a ↔ a.Settled ∧ a.Bytewise mapped_min := by
  let m := announced (.new mapped_min) a.announced
  let b : OBuffer := ⟨none, 0, 0⟩
  have hstored : a.stored (some MemoryOffload.handler) (.new mapped_min) =
      a.taken.foldlM (takePart (some MemoryOffload.handler)) (b, m) := by
    have hends : a.ends (some MemoryOffload.handler) = .ok := by
      funext x
      rw [Arrival.ends, finish_memory, ite_self]
    rw [Arrival.stored, hends, announce_memory, Except.bind_of_ok]
    exact bind_pure (a.taken.foldlM (takePart (some MemoryOffload.handler)) (b, m))
  -- the answer has the body when the sink has it at the end
  have hcore : Offloaded mapped_min a ↔ ∃ x : OBuffer × MemoryOffload,
      (∃ r, receive (some MemoryOffload.handler) (.new (.new mapped_min)) a.reads = .ok r ∧
        r.core = x) ∧ x.2.string = a.body := by
    constructor
    · rintro ⟨r, hr, hbody⟩
      exact ⟨r.core, ⟨r, hr, rfl⟩, hbody⟩
    · rintro ⟨x, ⟨r, hr, rfl⟩, hbody⟩
      exact ⟨r, hr, hbody⟩
  rw [hcore, settled_iff, and_assoc]
  simp only [receive_iff, and_assoc, exists_and_left]
  refine and_congr_right fun _ => ?_
  have hne : ∀ part ∈ a.taken, part ≠ [] := fun part h => ne_nil_of_mem_parts (mem_parts_of_taken h)
  have hempty : m.stored = [] := announced_stored mapped_min a.announced
  rw [hstored]
  by_cases htaken : a.taken = []
  · -- nothing is stored
    have hstring : m.string = [] := by rw [MemoryOffload.string, hempty, List.take_nil]
    rw [htaken, List.foldlM_nil]
    constructor
    · rintro ⟨x, hx, hbody⟩
      cases hx
      have hparts := eq_nil_of_flatten (fun _ => ne_nil_of_mem_parts) (hbody.symm.trans hstring)
      exact ⟨hparts.symm, .inl hparts⟩
    · rintro ⟨hparts, -⟩
      refine ⟨_, rfl, hstring.trans ?_⟩
      rw [Arrival.body, ← hparts, List.flatten_nil]
  have hnonempty : a.taken = a.parts → a.parts ≠ [] := fun h => h ▸ htaken
  by_cases hheap : a.announced ≠ 0 ∧ a.announced ≤ mapped_min ∧ a.announced < 2 ^ 63
  · -- parts of one byte are stored on the heap
    have hdata : m.data = .heap a.announced := (announced_heap_iff _ _ _).mpr ⟨rfl, hheap⟩
    have hbody : a.announced = a.body.length := by
      refine a.counted.resolve_left fun h => ?_
      have hlt := hheap.2.2
      rw [h] at hlt
      exact absurd hlt (by decide)
    simp only [heap_parts_iff hdata b hne, or_iff_right htaken, hempty, List.nil_append,
      List.length_nil, Nat.zero_add]
    obtain ⟨rest, hrest⟩ := body_eq a
    -- what was taken is the body, or the beginning of it
    have hlength : a.taken.flatten.length ≤ a.body.length := by
      rw [hrest, List.length_append]
      exact Nat.le_add_right _ _
    have hstring : MemoryOffload.string { m with stored := a.taken.flatten } = a.body ↔
        a.taken.flatten = a.body ∧ a.body.length < OBuffer.UINT32 := string_eq_iff hlength
    constructor
    · rintro ⟨x, ⟨hone, -, rfl⟩, hx⟩
      obtain ⟨hwhole, hlt⟩ := hstring.mp hx
      have hall := (taken_iff a).mp hwhole
      exact ⟨hall, .inr ⟨hbody, hbody ▸ hheap.2.1, hlt, hall ▸ hone⟩⟩
    · rintro ⟨hall, hparts⟩
      obtain ⟨-, -, hlt, hone⟩ := hparts.resolve_left (hnonempty hall)
      refine ⟨_, ⟨hall ▸ hone, ?_, rfl⟩, hstring.mpr ⟨(taken_iff a).mpr hall, hlt⟩⟩
      rw [hbody, Arrival.body, length_flatten_of_ones hone, hall]
  · -- there is no memory to store them in
    have hdata : ∀ size, m.data ≠ .heap size := by
      intro size h
      exact hheap ((announced_heap_iff _ _ _).mp h).2
    simp only [other_parts_iff hdata b hne]
    refine iff_of_false (fun ⟨_, h, _⟩ => htaken h.1) ?_
    rintro ⟨hall, hparts⟩
    have hparts' := hnonempty hall
    obtain ⟨hbody, hle, hlt, hone⟩ := hparts.resolve_left hparts'
    refine hheap ⟨?_, hbody ▸ hle, ?_⟩
    · rw [hbody, Arrival.body, length_flatten_of_ones hone]
      exact fun h => hparts' (List.length_eq_zero_iff.mp h)
    · rw [hbody]
      unfold OBuffer.UINT32 at hlt
      omega

/-! ## Files -/

/-- No length can be announced for a file: the handler does not return. -/
theorem not_filed (a : Arrival) : ¬ Filed a := by
  rintro ⟨r, hr, -⟩
  have hstored := ((receive_iff a [] r.core).mp ⟨r, hr, rfl⟩).2
  have hannounce : announce (some FileOffload.handler) a.announced
      ((⟨none, 0, 0⟩ : OBuffer), ([] : Bytes)) = .error .undefined := by
    rw [announce, FileOffload.handler, ite_self]
    rfl
  rw [Arrival.stored, hannounce] at hstored
  nomatch hstored

/-- **A buffer has the body when no part is left behind, no read fills the buffer of the reads and there is
room for each part; memory has it when besides there is no body, or it comes byte by byte; and a file
never has it.** -/
theorem receives_iff (mapped_min : Nat) (a : Arrival) :
    (Buffered a ↔ a.Settled ∧ a.Roomy) ∧
      (Offloaded mapped_min a ↔ a.Settled ∧ a.Bytewise mapped_min) ∧ ¬ Filed a :=
  ⟨buffered_iff a, offloaded_iff mapped_min a, not_filed a⟩

/-- A response whose body is `ab`, which is read at once. -/
private def short : Arrival where
  heads := []
  announced := 2
  first := ⟨40, [[97, 98]], 0⟩
  rest := []
  nonempty := by decide
  short := by decide
  counted := .inr (by decide)

/-- The body `ab` is not received, neither in memory nor in a file. -/
theorem not_receives_ab : ¬ ∀ (mapped_min : Nat) (a : Arrival),
    Buffered a ∧ Offloaded mapped_min a ∧ Filed a := by
  intro h
  obtain ⟨-, hbytes⟩ := (offloaded_iff 4096 short).mp (h 4096 short).2.1
  have hone := (hbytes.resolve_left nofun).2.2.2 [97, 98] List.mem_cons_self
  nomatch hone

end Suil.Http.Client
