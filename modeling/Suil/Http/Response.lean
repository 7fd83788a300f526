import Suil.Http.CaseMap

set_option autoImplicit false

/-! # Responses

`Status`, `Response` and `Response::Chunk` (`http.h`, `response.h`, `response.cpp`), and the loop of
`Connection::write_response` (`connection.h`) that puts buffers and pieces of files on the socket. -/

namespace Suil.Http

/-! ## Status -/

inductive Status where
  | CONTINUE
  | SWITCHING_PROTOCOLS
  | OK
  | CREATED
  | ACCEPTED
  | NON_AUTHORITATIVE
  | NO_CONTENT
  | RESET_CONTENT
  | PARTIAL_CONTENT
  | MULTIPLE_CHOICES
  | MOVED_PERMANENTLY
  | FOUND
  | SEE_OTHER
  | NOT_MODIFIED
  | USE_PROXY
  | TEMPORARY_REDIRECT
  | BAD_REQUEST
  | UNAUTHORIZED
  | PAYMENT_REQUIRED
  | FORBIDDEN
  | NOT_FOUND
  | METHOD_NOT_ALLOWED
  | NOT_ACCEPTABLE
  | PROXY_AUTH_REQUIRED
  | REQUEST_TIMEOUT
  | CONFLICT
  | GONE
  | LENGTH_REQUIRED
  | PRECONDITION_FAILED
  | REQUEST_ENTITY_TOO_LARGE
  | REQUEST_URI_TOO_LARGE
  | UNSUPPORTED_MEDIA_TYPE
  | REQUEST_RANGE_INVALID
  | EXPECTATION_FAILED
  | INTERNAL_ERROR
  | NOT_IMPLEMENTED
  | BAD_GATEWAY
  | SERVICE_UNAVAILABLE
  | GATEWAY_TIMEOUT
  | BAD_VERSION
  deriving DecidableEq, Repr

def Status.code : Status → Nat
  | .CONTINUE => 100
  | .SWITCHING_PROTOCOLS => 101
  | .OK => 200
  | .CREATED => 201
  | .ACCEPTED => 202
  | .NON_AUTHORITATIVE => 203
  | .NO_CONTENT => 204
  | .RESET_CONTENT => 205
  | .PARTIAL_CONTENT => 206
  | .MULTIPLE_CHOICES => 300
  | .MOVED_PERMANENTLY => 301
  | .FOUND => 302
  | .SEE_OTHER => 303
  | .NOT_MODIFIED => 304
  | .USE_PROXY => 305
  | .TEMPORARY_REDIRECT => 307
  | .BAD_REQUEST => 400
  | .UNAUTHORIZED => 401
  | .PAYMENT_REQUIRED => 402
  | .FORBIDDEN => 403
  | .NOT_FOUND => 404
  | .METHOD_NOT_ALLOWED => 405
  | .NOT_ACCEPTABLE => 406
  | .PROXY_AUTH_REQUIRED => 407
  | .REQUEST_TIMEOUT => 408
  | .CONFLICT => 409
  | .GONE => 410
  | .LENGTH_REQUIRED => 411
  | .PRECONDITION_FAILED => 412
  | .REQUEST_ENTITY_TOO_LARGE => 413
  | .REQUEST_URI_TOO_LARGE => 414
  | .UNSUPPORTED_MEDIA_TYPE => 415
  | .REQUEST_RANGE_INVALID => 416
  | .EXPECTATION_FAILED => 417
  | .INTERNAL_ERROR => 500
  | .NOT_IMPLEMENTED => 501
  | .BAD_GATEWAY => 502
  | .SERVICE_UNAVAILABLE => 503
  | .GATEWAY_TIMEOUT => 504
  | .BAD_VERSION => 505

/-- `status_text` without the `HTTP/1.1 ` and the code in front. -/
def Status.reason : Status → Bytes
  | .CONTINUE => str "Continue"
  | .SWITCHING_PROTOCOLS => str "Switching Protocols"
  | .OK => str "OK"
  | .CREATED => str "Created"
  | .ACCEPTED => str "Accepted"
  | .NON_AUTHORITATIVE => str "Non-Authoritative Information"
  | .NO_CONTENT => str "No Content"
  | .RESET_CONTENT => str "Reset Content"
  | .PARTIAL_CONTENT => str "Partial Content"
  | .MULTIPLE_CHOICES => str "Multiple Choices"
  | .MOVED_PERMANENTLY => str "Moved Permanently"
  | .FOUND => str "Found"
  | .SEE_OTHER => str "See Other"
  | .NOT_MODIFIED => str "Not Modified"
  | .USE_PROXY => str "Use Proxy"
  | .TEMPORARY_REDIRECT => str "Temporary Redirect"
  | .BAD_REQUEST => str "Bad Request"
  | .UNAUTHORIZED => str "Unauthorized"
  | .PAYMENT_REQUIRED => str "Payment Required"
  | .FORBIDDEN => str "Forbidden"
  | .NOT_FOUND => str "Not Found"
  | .METHOD_NOT_ALLOWED => str "Method Not Allowed"
  | .NOT_ACCEPTABLE => str "Not Acceptable"
  | .PROXY_AUTH_REQUIRED => str "Proxy Authentication Required"
  | .REQUEST_TIMEOUT => str "Request Time-out"
  | .CONFLICT => str "Conflict"
  | .GONE => str "Gone"
  | .LENGTH_REQUIRED => str "Length Required"
  | .PRECONDITION_FAILED => str "Precondition Failed"
  | .REQUEST_ENTITY_TOO_LARGE => str "Request Entity Too Large"
  | .REQUEST_URI_TOO_LARGE => str "Request-URI Too Large"
  | .UNSUPPORTED_MEDIA_TYPE => str "Unsupported Media Type"
  | .REQUEST_RANGE_INVALID => str "Requested range not satisfiable"
  | .EXPECTATION_FAILED => str "Expectation Failed"
  | .INTERNAL_ERROR => str "Internal Server Error"
  | .NOT_IMPLEMENTED => str "Not Implemented"
  | .BAD_GATEWAY => str "Bad Gateway"
  | .SERVICE_UNAVAILABLE => str "Service Unavailable"
  | .GATEWAY_TIMEOUT => str "Gateway Time-out"
  | .BAD_VERSION => str "HTTP Version not supported"

/-- `status_text`. -/
def status_text (status : Status) : Bytes :=
  str "HTTP/1.1 " ++ showNat status.code ++ str " " ++ status.reason

/-! ## Chunks -/

/-- What a chunk is taken from: an open file with this content, or a buffer with these bytes. -/
inductive Source where
  | fd (content : Bytes)
  | data (buf : Bytes)

/-- `Response::Chunk`. -/
structure Chunk where
  src : Source
  offset : Nat
  len : Nat

/-- The size of the address space wraps around. -/
def SIZE_MAX : Nat := 2 ^ 64

/-! ## Responses -/

/-- `Response`; a body is there when it is not empty. -/
structure Response where
  status : Status
  headers : CaseMap Bytes
  body : Bytes
  chunks : List Chunk
  total_size : Nat
  completed : Bool

namespace Response

/-- `Response(status)`. -/
def new (status : Status) : Response :=
  { status := status, headers := [], body := [], chunks := [], total_size := 0,
    completed := false }

/-- `operator()(status)`: the first status that is not `OK` stays. -/
def setStatus (resp : Response) (status : Status) : Response :=
  if resp.status = .OK then { resp with status := status } else resp

/-- `end(status)`. -/
def finish (resp : Response) (status : Status) : Response :=
  { resp.setStatus status with completed := true }

/-- `header(field, value)`. -/
def header (hash : Bytes → UInt64) (resp : Response) (field value : Bytes) : Response :=
  { resp with headers := resp.headers.emplace hash field value }

/-- `chunk(chunk)`. -/
def chunk (resp : Response) (chunk : Chunk) : Response :=
  { resp with
    total_size := (resp.total_size + (chunk.len + SIZE_MAX - chunk.offset)) % SIZE_MAX
    chunks := resp.chunks ++ [chunk] }

/-- `length()`. -/
def length (resp : Response) : Nat :=
  if resp.body ≠ [] then resp.body.length
  else if resp.chunks ≠ [] then resp.total_size
  else 0

/-- What `send_response` puts behind the headers. -/
def payload (resp : Response) : List Chunk :=
  if resp.body ≠ [] then [{ src := .data resp.body, offset := 0, len := resp.body.length }]
  else resp.chunks

end Response

/-! ## Sending -/

/-- A chunk that reaches beyond the buffer it is taken from. -/
inductive SendFault where
  | overrun
  deriving DecidableEq, Repr

/-- The bytes that `sendfile` or `send` puts on a socket that takes everything: a file may end
early, a buffer is read whatever its size is. -/
def Source.send (src : Source) (offset n : Nat) : Except SendFault Bytes :=
  match src with
  | .fd content => .ok ((content.drop offset).take n)
  | .data buf => if offset + n ≤ buf.length then .ok ((buf.drop offset).take n) else .error .overrun

/-- `b.use_fd`. -/
def Source.use_fd : Source → Bool
  | .fd _ => true
  | .data _ => false

/-- The `do … while (nsent < b.len)` of `write_response`: the bytes sent, and whether all went
well. -/
def sendLoop (send_chunk : Nat) (b : Chunk) (nsent : Nat) : Except SendFault (Bytes × Bool) := do
  let chunk := min send_chunk (b.len - nsent)
  let out ← b.src.send (b.offset + nsent) chunk
  -- nothing is sent when `chunk` is zero, so that it is positive where the loop goes on
  if out.length = 0 ∨ (b.src.use_fd ∧ out.length ≠ chunk) then .ok (out, false)
  else if nsent + chunk < b.len ∧ 0 < chunk then
    let (rest, ok) ← sendLoop send_chunk b (nsent + chunk)
    .ok (out ++ rest, ok)
  else .ok (out, true)
  termination_by b.len - nsent
  decreasing_by omega

/-- `write_response`. -/
def write_response (send_chunk : Nat) : List Chunk → Except SendFault (Bytes × Bool)
  | [] => .ok ([], true)
  | b :: buf => do
      let (out, ok) ← sendLoop send_chunk b 0
      if !ok then .ok (out, false)
      else
        let (rest, ok) ← write_response send_chunk buf
        .ok (out ++ rest, ok)

/-- All the bytes of a source. -/
def Source.bytes : Source → Bytes
  | .fd content => content
  | .data buf => buf

theorem Source.send_ok {src : Source} {offset n : Nat}
    (h : src.use_fd = true ∨ offset + n ≤ src.bytes.length) :
    src.send offset n = .ok ((src.bytes.drop offset).take n) := by
  cases src with
  | fd content => rfl
  | data buf =>
      have hle : offset + n ≤ buf.length := h.resolve_left Bool.false_ne_true
      exact if_pos hle

/-- A chunk inside its source is sent from its offset on, as far as the source reaches. -/
theorem sendLoop_ok {send_chunk : Nat} (hpos : 0 < send_chunk) {b : Chunk}
    (h : b.src.use_fd = true ∨ b.offset + b.len ≤ b.src.bytes.length)
    (nsent : Nat) (hle : nsent ≤ b.len) :
    ∃ ok, sendLoop send_chunk b nsent =
      .ok ((b.src.bytes.drop (b.offset + nsent)).take (b.len - nsent), ok) := by
  -- on what is left of the chunk
  induction hleft : b.len - nsent using Nat.strongRecOn generalizing nsent with
  | ind left ih =>
      have hsend : b.src.send (b.offset + nsent) (min send_chunk left) =
          .ok ((b.src.bytes.drop (b.offset + nsent)).take (min send_chunk left)) := by
        apply Source.send_ok
        exact h.imp_right fun hin => by omega
      have hnext : b.src.bytes.drop (b.offset + (nsent + min send_chunk left)) =
          (b.src.bytes.drop (b.offset + nsent)).drop (min send_chunk left) := by
        rw [List.drop_drop, Nat.add_assoc]
      rw [sendLoop]
      simp only [hleft, hsend, bind, Except.bind]
      generalize b.src.bytes.drop (b.offset + nsent) = d at hnext
      by_cases hstop : (d.take (min send_chunk left)).length = 0 ∨
          (b.src.use_fd = true ∧ (d.take (min send_chunk left)).length ≠ min send_chunk left)
      · -- either nothing was left to send or the source has ended
        rw [if_pos hstop]
        refine ⟨false, ?_⟩
        rw [List.length_take] at hstop
        by_cases hzero : left = 0
        · rw [hzero, Nat.min_zero]
        · rw [List.take_of_length_le (show d.length ≤ min send_chunk left by omega),
            List.take_of_length_le (show d.length ≤ left by omega)]
      · rw [if_neg hstop]
        rw [List.length_take] at hstop
        by_cases hmore : nsent + min send_chunk left < b.len ∧ 0 < min send_chunk left
        · -- the rest of the chunk starts behind this piece
          rw [if_pos hmore]
          obtain ⟨ok, hrest⟩ := ih (left - min send_chunk left) (by omega)
            (nsent + min send_chunk left) (by omega) (by omega)
          refine ⟨ok, ?_⟩
          have hsplit : d.take left = d.take (min send_chunk left) ++
              (d.drop (min send_chunk left)).take (left - min send_chunk left) := by
            rw [← List.take_add, Nat.add_sub_cancel' (Nat.min_le_right _ _)]
          rw [hrest, hnext, hsplit]
        · rw [if_neg hmore]
          have hall : min send_chunk left = left := by omega
          exact ⟨true, by rw [hall]⟩

/-- A chunk that reaches beyond its buffer is never sent to its end. -/
theorem sendLoop_overrun {send_chunk : Nat} (hpos : 0 < send_chunk) {b : Chunk}
    (hfd : b.src.use_fd = false) (h : b.src.bytes.length < b.offset + b.len)
    (nsent : Nat) (hlt : nsent < b.len) : sendLoop send_chunk b nsent = .error .overrun := by
  obtain ⟨src, offset, len⟩ := b
  cases src with
  | fd content => cases hfd
  | data buf =>
      replace h : buf.length < offset + len := h
      replace hlt : nsent < len := hlt
      induction hleft : len - nsent using Nat.strongRecOn generalizing nsent with
      | ind left ih =>
          rw [sendLoop]
          simp only [hleft, Source.send, bind, Except.bind]
          by_cases hin : offset + nsent + min send_chunk left ≤ buf.length
          · -- this piece is in the buffer, and there is another one
            rw [if_pos hin]
            have hout : ((buf.drop (offset + nsent)).take (min send_chunk left)).length =
                min send_chunk left := by
              rw [List.length_take, List.length_drop]
              omega
            simp only [hout, Source.use_fd]
            rw [if_neg (by omega), if_pos (by omega),
              ih (left - min send_chunk left) (by omega) _ (by omega) (by omega)]
          · rw [if_neg hin]

/-- Nothing is sent in pieces of no bytes. -/
theorem sendLoop_zero {b : Chunk} {nsent : Nat} {out : Bytes} {ok : Bool}
    (h : sendLoop 0 b nsent = .ok (out, ok)) : out = [] := by
  rw [sendLoop] at h
  cases hsend : b.src.send (b.offset + nsent) (min 0 (b.len - nsent)) with
  | error e => rw [hsend] at h; cases h
  | ok sent =>
      have hsent : sent = [] := by
        rw [Nat.zero_min] at hsend
        cases hsrc : b.src with
        | fd content =>
            rw [hsrc] at hsend
            exact (Except.ok.inj hsend).symm
        | data buf =>
            rw [hsrc] at hsend
            simp only [Source.send] at hsend
            split_ifs at hsend
            exact (Except.ok.inj hsend).symm
      rw [hsend, hsent] at h
      cases h
      rfl

/-- `write_response` for one chunk. -/
theorem write_response_singleton {send_chunk : Nat} {b : Chunk} {out : Bytes} {ok : Bool}
    (h : sendLoop send_chunk b 0 = .ok (out, ok)) :
    write_response send_chunk [b] = .ok (out, ok) := by
  simp only [write_response, bind, Except.bind, h]
  cases ok with
  | false => rfl
  | true => simp

theorem write_response_zero {b : Chunk} {out : Bytes} {ok : Bool}
    (h : write_response 0 [b] = .ok (out, ok)) : out = [] := by
  cases hloop : sendLoop 0 b 0 with
  | error e => simp only [write_response, hloop, bind, Except.bind] at h; cases h
  | ok res =>
      rw [write_response_singleton hloop] at h
      cases h
      exact sendLoop_zero hloop

end Suil.Http
