import Suil.Http.Response

set_option autoImplicit false

/-! # Ranged responses of the file server

`prepare_response` and `build_range_resp` (`fserver.cpp`). The `Range` header is read with
`strchr` and `strtoul`: after the equals sign, and after every comma that follows the dash of the
range before it, stands a range. A range is added to the response as a `Chunk` whose third argument
is the end of the range, where `Chunk` takes a length.

`build_range_resp_iff` says for which headers the response is the one that was asked for. -/

namespace Suil.Http

/-! ## Files, ranges and `prepare_response` -/

/-- `cached_file_t`: a file, and the buffer that holds it when it is not sent with `sendfile`. The
buffer may be longer than the file. -/
structure CachedFile where
  content : Bytes
  data : Bytes
  data_eq : data.take content.length = content
  len_lt : content.length < 2 ^ 63

def CachedFile.len (cf : CachedFile) : Nat := cf.content.length

/-- The settings the file server and the connection use. -/
structure FileConfig where
  enable_send_file : Bool
  send_chunk : Nat

/-- How reading the header goes wrong. -/
inductive RangeFault where
  | nullPointer
  | overrun
  | outOfFuel
  deriving DecidableEq, Repr

/-- `while(*it++ == ' ');` -/
def skipSpaces : Bytes → Except RangeFault Bytes
  -- the terminating NUL is no space, and the step behind it leaves the string
  | [] => .error .overrun
  | c :: it => if c = SP then skipSpaces it else .ok it

/-- The end of a range: the position behind the dash, if there is one, and the number there. -/
def rangeEnd (len : Nat) (it : Bytes) : Option Bytes × Nat :=
  match strchr it DASH with
  | some (_ :: it) =>
      if it ≠ [] then (some it, (strtoul it + 1) % SIZE_MAX) else (some it, len)
  | _ => (none, len)

/-- The loop of `build_range_resp`: the ranges, or nothing after a range that is out of bounds. -/
def rangesLoop (len : Nat) :
    Nat → Option Bytes → List (Nat × Nat) → Except RangeFault (Option (List (Nat × Nat)))
  | _, none, ranges => .ok (some ranges)
  | _, some [], ranges => .ok (some ranges)
  | 0, some (_ :: _), _ => .error .outOfFuel
  | fuel + 1, some (c :: it), ranges => do
      let it ← skipSpaces (c :: it)
      let first := strtoul it
      let (it, last) := rangeEnd len it
      if first > last ∨ first ≥ len ∨ last > len then .ok none
      else
        match it with
        | none => .error .nullPointer
        | some it => rangesLoop len fuel (strchr it COMMA) (ranges ++ [(first, last)])

def CachedFile.source (cfg : FileConfig) (cf : CachedFile) : Source :=
  if cfg.enable_send_file then .fd cf.content else .data cf.data

/-- The value of `Content-Range`. -/
def contentRange (first last len : Nat) : Bytes :=
  str "bytes " ++ showNat first ++ str "-" ++ showNat last ++ str "/" ++ showNat len

def build_range_resp (hash : Bytes → UInt64) (cfg : FileConfig) (resp : Response) (rng : Bytes)
    (cf : CachedFile) : Except RangeFault Response := do
  match ← rangesLoop cf.len rng.length (strchr rng EQUALS) [] with
  | none => .ok (resp.finish .REQUEST_RANGE_INVALID)
  | some [] => .ok resp
  | some [(first, last)] =>
      let resp := resp.chunk { src := cf.source cfg, offset := first, len := last }
      let resp := resp.header hash (str "Content-Range")
        (contentRange first ((last + SIZE_MAX - 1) % SIZE_MAX) cf.len)
      .ok (resp.finish .PARTIAL_CONTENT)
  | some (_ :: _ :: _) => .ok (resp.finish .NOT_ACCEPTABLE)

/-- `prepare_response`; `range` is the `Range` header, empty when there is none. -/
def prepare_response (hash : Bytes → UInt64) (cfg : FileConfig) (allow_range : Bool)
    (resp : Response) (range : Bytes) (cf : CachedFile) : Except RangeFault Response :=
  let resp := resp.header hash (str "Accept-Ranges")
    (if allow_range then str "bytes" else str "none")
  if range ≠ [] ∧ allow_range then build_range_resp hash cfg resp range cf
  else .ok ((resp.chunk { src := cf.source cfg, offset := 0, len := cf.len }).finish .OK)

/-! ## The ranges of a header -/

/-- The positions where ranges start from `it` on. -/
def rangeStarts : Nat → Bytes → List Bytes
  | 0, _ => []
  | fuel + 1, it =>
      it :: match strchr it DASH with
        | some (_ :: it) =>
            match strchr it COMMA with
            | some (_ :: it) => rangeStarts fuel it
            | _ => []
        | _ => []

/-- The positions where the ranges of a header start. -/
def starts (rng : Bytes) : List Bytes :=
  match strchr rng EQUALS with
  | some (_ :: it) => rangeStarts rng.length it
  | _ => []

/-- The first byte of the range at `it`. -/
def rangeFirst (it : Bytes) : Nat := strtoul it

/-- The range at `it` reaches up to here in a file of `len` bytes. -/
def rangeLast (len : Nat) (it : Bytes) : Nat := (rangeEnd len it).2

def InBounds (len : Nat) (it : Bytes) : Prop :=
  rangeFirst it ≤ rangeLast len it ∧ rangeFirst it < len ∧ rangeLast len it ≤ len

instance (len : Nat) (it : Bytes) : Decidable (InBounds len it) := by
  unfold InBounds
  infer_instance

/-- There is a dash in the range or behind it. -/
def hasDash (it : Bytes) : Bool := (strchr it DASH).isSome

private theorem rangeEnd_none {len : Nat} {it : Bytes} (h : strchr it DASH = none) :
    rangeEnd len it = (none, rangeLast len it) := by
  rw [rangeLast, rangeEnd, h]

private theorem rangeEnd_some {len : Nat} {it q : Bytes} (h : strchr it DASH = some (DASH :: q)) :
    rangeEnd len it = (some q, rangeLast len it) := by
  rw [rangeLast, rangeEnd, h]
  by_cases hq : q ≠ []
  · simp only [if_pos hq]
  · simp only [if_neg hq]

/-- **The loop meets the ranges in their order.** A range out of bounds ends it; after a range
without a dash, which is the last one, `strchr` is called with the null pointer. -/
private theorem rangesLoop_spec (len : Nat) {fuel : Nat} {c : UInt8} {it : Bytes} (hc : c ≠ SP)
    (hfuel : it.length < fuel) (ranges : List (Nat × Nat)) :
    rangesLoop len fuel (some (c :: it)) ranges =
      if ∃ p ∈ rangeStarts fuel it, ¬ InBounds len p then .ok none
      else if ∀ p ∈ rangeStarts fuel it, hasDash p = true then
        .ok (some (ranges ++ (rangeStarts fuel it).map fun p => (rangeFirst p, rangeLast len p)))
      else .error .nullPointer := by
  induction fuel generalizing c it ranges with
  | zero => omega
  | succ fuel ih =>
      have hskip : skipSpaces (c :: it) = .ok it := if_neg hc
      simp only [rangesLoop, hskip, bind, Except.bind]
      by_cases hin : InBounds len it
      · -- the checks let this range through, and the next one is behind the comma
        have hgo : ¬ (rangeFirst it > rangeLast len it ∨ rangeFirst it ≥ len ∨
            rangeLast len it > len) := by
          have := hin
          unfold InBounds at this
          omega
        cases hdash : strchr it DASH with
        | none =>
            -- without a dash `strchr` for the comma is called with the null pointer
            have hlast : rangeStarts (fuel + 1) it = [it] := by rw [rangeStarts, hdash]
            have hno : hasDash it = false := by rw [hasDash, hdash]; rfl
            rw [rangeEnd_none hdash, hlast]
            simp only [List.mem_singleton, exists_eq_left, forall_eq, hin, hno, not_true_eq_false,
              if_false, Bool.false_eq_true]
            exact if_neg hgo
        | some r =>
            obtain ⟨q, rfl, hq⟩ := strchr_eq_some hdash
            have hyes : hasDash it = true := by rw [hasDash, hdash]; rfl
            rw [rangeEnd_some hdash]
            simp only [show strtoul it = rangeFirst it from rfl, if_neg hgo]
            cases hcomma : strchr q COMMA with
            | none =>
                have hlast : rangeStarts (fuel + 1) it = [it] := by
                  rw [rangeStarts, hdash]
                  simp only [hcomma]
                rw [hlast]
                simp only [List.mem_singleton, exists_eq_left, forall_eq, hin, hyes,
                  not_true_eq_false, if_false, if_true, List.map_cons, List.map_nil]
                cases fuel with
                | zero => rfl
                | succ n => rfl
            | some r =>
                obtain ⟨p, rfl, hp⟩ := strchr_eq_some hcomma
                have hnext : rangeStarts (fuel + 1) it = it :: rangeStarts fuel p := by
                  rw [rangeStarts, hdash]
                  simp only [hcomma]
                rw [ih (by decide) (by omega), hnext]
                simp only [List.mem_cons, exists_eq_or_imp, forall_eq_or_imp, hin, hyes,
                  not_true_eq_false, false_or, true_and, List.map_cons, List.append_assoc,
                  List.singleton_append]
      · -- the loop ends here, whatever comes behind the range
        have hstop : rangeFirst it > rangeLast len it ∨ rangeFirst it ≥ len ∨
            rangeLast len it > len := by
          unfold InBounds at hin
          omega
        have hbad : ∃ p ∈ rangeStarts (fuel + 1) it, ¬ InBounds len p :=
          ⟨it, by rw [rangeStarts]; exact List.mem_cons_self, hin⟩
        rw [if_pos hbad]
        exact if_pos hstop

/-! ## The response -/

/-- A response as `get` hands it over: nothing is in it but headers of other names. -/
structure Fresh (hash : Bytes → UInt64) (resp : Response) : Prop where
  status : resp.status = .OK
  body : resp.body = []
  chunks : resp.chunks = []
  total_size : resp.total_size = 0
  noRange : resp.headers.count hash (str "Content-Range") = false
  noLength : resp.headers.count hash (str "Content-Length") = false

/-- The response is a part of the file: `Content-Range` names it, its bytes are what is
transmitted, and `length`, which is sent as the `Content-Length`, is their number. -/
def IsPart (hash : Bytes → UInt64) (cfg : FileConfig) (cf : CachedFile) (resp : Response) : Prop :=
  ∃ first last out ok, first ≤ last ∧ last < cf.len ∧
    resp.headers.find hash (str "Content-Range") = some (contentRange first last cf.len) ∧
    resp.headers.count hash (str "Content-Length") = false ∧
    write_response cfg.send_chunk resp.payload = .ok (out, ok) ∧
    out = (cf.content.drop first).take (last + 1 - first) ∧ out.length = resp.length

/-- The response is a part of the file or a refusal without any of its bytes. -/
def Answered (hash : Bytes → UInt64) (cfg : FileConfig) (cf : CachedFile) (resp : Response) :
    Prop :=
  (resp.status = .PARTIAL_CONTENT ∧ IsPart hash cfg cf resp) ∨
    (400 ≤ resp.status.code ∧ resp.chunks = [])

/-- The range at `it` is not empty and starts at the first byte of the file; or it ends with the
file, and the file is sent with `sendfile`. -/
def Whole (cfg : FileConfig) (len : Nat) (it : Bytes) : Prop :=
  0 < cfg.send_chunk ∧ rangeFirst it < rangeLast len it ∧
    (rangeFirst it = 0 ∨ (cfg.enable_send_file = true ∧ rangeLast len it = len))

/-- The header has a range that is out of bounds; or it has ranges, all of them with a dash, and
if it is only one this is `Whole`. -/
def Serves (cfg : FileConfig) (len : Nat) (rng : Bytes) : Prop :=
  (∃ it ∈ starts rng, ¬ InBounds len it) ∨
    (starts rng ≠ [] ∧ (∀ it ∈ starts rng, hasDash it = true) ∧
      ∀ it, starts rng = [it] → Whole cfg len it)

/-- The response to the single range from `first` up to `last`. -/
def partResponse (hash : Bytes → UInt64) (cfg : FileConfig) (resp : Response) (cf : CachedFile)
    (first last : Nat) : Response :=
  ((resp.chunk { src := cf.source cfg, offset := first, len := last }).header hash
    (str "Content-Range")
    (contentRange first ((last + SIZE_MAX - 1) % SIZE_MAX) cf.len)).finish .PARTIAL_CONTENT

section PartResponse

variable {hash : Bytes → UInt64} {cfg : FileConfig} {resp : Response} {cf : CachedFile}
variable {first last : Nat}

private theorem partResponse_status (hresp : Fresh hash resp) :
    (partResponse hash cfg resp cf first last).status = .PARTIAL_CONTENT := by
  simp only [partResponse, Response.finish, Response.setStatus, Response.header, Response.chunk,
    hresp.status, if_true]

private theorem partResponse_payload (hresp : Fresh hash resp) :
    (partResponse hash cfg resp cf first last).payload =
      [{ src := cf.source cfg, offset := first, len := last }] := by
  simp only [partResponse, Response.finish, Response.setStatus, Response.header, Response.chunk,
    hresp.status, if_true, Response.payload, hresp.body, hresp.chunks, ne_eq, not_true_eq_false,
    if_false, List.nil_append]

private theorem partResponse_length (hresp : Fresh hash resp) (hle : first ≤ last)
    (hlt : last < SIZE_MAX) :
    (partResponse hash cfg resp cf first last).length = last - first := by
  simp only [partResponse, Response.finish, Response.setStatus, Response.header, Response.chunk,
    hresp.status, if_true, Response.length, hresp.body, hresp.chunks, hresp.total_size, ne_eq,
    not_true_eq_false, if_false, List.nil_append, List.cons_ne_self, not_false_eq_true]
  rw [SIZE_MAX] at *
  omega

private theorem partResponse_headers (hresp : Fresh hash resp) :
    (partResponse hash cfg resp cf first last).headers =
      resp.headers.emplace hash (str "Content-Range")
        (contentRange first ((last + SIZE_MAX - 1) % SIZE_MAX) cf.len) := by
  simp only [partResponse, Response.finish, Response.setStatus, Response.header, Response.chunk,
    hresp.status, if_true]

private theorem partResponse_noLength (hresp : Fresh hash resp) :
    (partResponse hash cfg resp cf first last).headers.count hash (str "Content-Length") =
      false := by
  rw [partResponse_headers hresp, CaseMap.count, CaseMap.find_emplace_of_ne _ (by decide)]
  exact hresp.noLength

private theorem partResponse_range (hresp : Fresh hash resp) :
    (partResponse hash cfg resp cf first last).headers.find hash (str "Content-Range") =
      some (contentRange first ((last + SIZE_MAX - 1) % SIZE_MAX) cf.len) := by
  rw [partResponse_headers hresp]
  exact CaseMap.find_emplace_of_none _ (Option.not_isSome_iff_eq_none.mp
    (Bool.eq_false_iff.mp hresp.noRange))

/-- `sendfile` takes what there is of the file. -/
private theorem send_fd (cf : CachedFile) (first last : Nat) (hfd : cfg.enable_send_file = true)
    (hchunk : 0 < cfg.send_chunk) :
    ∃ ok, write_response cfg.send_chunk [{ src := cf.source cfg, offset := first, len := last }] =
      .ok ((cf.content.drop first).take last, ok) := by
  have hsrc : cf.source cfg = .fd cf.content := if_pos hfd
  rw [hsrc]
  obtain ⟨ok, h⟩ := sendLoop_ok hchunk (b := { src := .fd cf.content, offset := first, len := last })
    (.inl rfl) 0 (Nat.zero_le _)
  exact ⟨ok, write_response_singleton h⟩

/-- The bytes of a buffer are sent up to the length of the chunk, behind the file if need be. -/
private theorem send_data (cf : CachedFile) (first last : Nat)
    (hdata : cfg.enable_send_file = false) (hchunk : 0 < cfg.send_chunk)
    (hin : first + last ≤ cf.data.length) :
    ∃ ok, write_response cfg.send_chunk [{ src := cf.source cfg, offset := first, len := last }] =
      .ok ((cf.data.drop first).take last, ok) := by
  have hsrc : cf.source cfg = .data cf.data := if_neg (Bool.eq_false_iff.mp hdata)
  rw [hsrc]
  obtain ⟨ok, h⟩ := sendLoop_ok hchunk (b := { src := .data cf.data, offset := first, len := last })
    (.inr hin) 0 (Nat.zero_le _)
  exact ⟨ok, write_response_singleton h⟩

private theorem send_beyond (hdata : cfg.enable_send_file = false) (hchunk : 0 < cfg.send_chunk)
    (hout : cf.data.length < first + last) (hpos : 0 < last) :
    write_response cfg.send_chunk [{ src := cf.source cfg, offset := first, len := last }] =
      .error .overrun := by
  have hsrc : cf.source cfg = .data cf.data := if_neg (Bool.eq_false_iff.mp hdata)
  rw [hsrc]
  have h := sendLoop_overrun hchunk (b := { src := .data cf.data, offset := first, len := last })
    rfl hout 0 hpos
  simp only [write_response, h, bind, Except.bind]

theorem CachedFile.len_le_data (cf : CachedFile) : cf.len ≤ cf.data.length := by
  have h := congrArg List.length cf.data_eq
  rw [List.length_take] at h
  rw [CachedFile.len]
  omega

/-- **A single range is a part of the file exactly when it is `Whole`.** -/
private theorem partResponse_iff (cfg : FileConfig) (hresp : Fresh hash resp) (hle : first ≤ last)
    (hfirst : first < cf.len) (hlast : last ≤ cf.len) :
    IsPart hash cfg cf (partResponse hash cfg resp cf first last) ↔
      0 < cfg.send_chunk ∧ first < last ∧
        (first = 0 ∨ (cfg.enable_send_file = true ∧ last = cf.len)) := by
  have hsize : last < SIZE_MAX := by
    have := cf.len_lt
    rw [CachedFile.len] at hlast
    rw [SIZE_MAX]
    omega
  have hdata := cf.len_le_data
  have hlen : cf.len = cf.content.length := rfl
  constructor
  · rintro ⟨f, l, out, ok, hfl, hl, -, -, hsend, hout, hnum⟩
    rw [partResponse_payload hresp] at hsend
    rw [partResponse_length hresp hle hsize] at hnum
    have hpos : 0 < out.length := by
      rw [hout, List.length_take, List.length_drop]
      omega
    have hchunk : 0 < cfg.send_chunk := by
      rw [Nat.pos_iff_ne_zero]
      intro hzero
      rw [hzero] at hsend
      rw [write_response_zero hsend] at hpos
      exact absurd hpos (Nat.lt_irrefl 0)
    refine ⟨hchunk, by omega, ?_⟩
    -- what is sent is `last` bytes from `first` on: as many as the part has only in the end cases
    cases hfd : cfg.enable_send_file with
    | true =>
        obtain ⟨ok', h⟩ := send_fd cf first last hfd hchunk
        rw [h] at hsend
        cases hsend
        rw [List.length_take, List.length_drop] at hnum
        have hend : first = 0 ∨ last = cf.len := by omega
        exact hend.imp_right fun h => ⟨rfl, h⟩
    | false =>
        -- from memory nothing cuts off the bytes behind the file
        by_cases hin : first + last ≤ cf.data.length
        · obtain ⟨ok', h⟩ := send_data cf first last hfd hchunk hin
          rw [h] at hsend
          cases hsend
          rw [List.length_take, List.length_drop] at hnum
          omega
        · rw [send_beyond hfd hchunk (by omega) (by omega)] at hsend
          cases hsend
  · rintro ⟨hchunk, hlt, hwhole⟩
    have hname : (last + SIZE_MAX - 1) % SIZE_MAX = last - 1 := by
      rw [SIZE_MAX] at *
      omega
    have hcount : last - 1 + 1 - first = last - first := by omega
    have hslice : ((cf.content.drop first).take (last - first)).length = last - first := by
      rw [List.length_take, List.length_drop]
      omega
    suffices hsent : ∃ ok, write_response cfg.send_chunk
        [{ src := cf.source cfg, offset := first, len := last }] =
          .ok ((cf.content.drop first).take (last - first), ok) by
      obtain ⟨ok, hsent⟩ := hsent
      refine ⟨first, last - 1, _, ok, by omega, by omega, ?_, partResponse_noLength hresp,
        by rw [partResponse_payload hresp]; exact hsent, by rw [hcount], ?_⟩
      · rw [partResponse_range hresp, hname]
      · rw [partResponse_length hresp hle hsize, hslice]
    cases hfd : cfg.enable_send_file with
    | true =>
        obtain ⟨ok, h⟩ := send_fd cf first last hfd hchunk
        refine ⟨ok, ?_⟩
        rw [h]
        rcases hwhole with rfl | ⟨-, rfl⟩
        · rfl
        · rw [List.take_of_length_le (by rw [List.length_drop]; omega),
            List.take_of_length_le (by rw [List.length_drop]; omega)]
    | false =>
        have hzero : first = 0 := hwhole.resolve_right fun h => by rw [hfd] at h; exact nomatch h.1
        obtain ⟨ok, h⟩ := send_data cf first last hfd hchunk (by omega)
        refine ⟨ok, ?_⟩
        rw [h, hzero, List.drop_zero, List.drop_zero, Nat.sub_zero, ← cf.data_eq, List.take_take,
          ← hlen, Nat.min_eq_left hlast]

end PartResponse

/-! ## Every header -/

section Ranged

variable {hash : Bytes → UInt64} {cfg : FileConfig} {resp : Response} {cf : CachedFile}

private theorem answered_part (cfg : FileConfig) (cf : CachedFile) (hresp : Fresh hash resp)
    {it : Bytes} (hin : InBounds cf.len it) :
    Answered hash cfg cf (partResponse hash cfg resp cf (rangeFirst it) (rangeLast cf.len it)) ↔
      Whole cfg cf.len it := by
  have hiff := partResponse_iff cfg hresp hin.1 hin.2.1 hin.2.2
  rw [Whole, ← hiff, Answered, partResponse_status hresp]
  constructor
  · rintro (h | ⟨h, -⟩)
    · exact h.2
    · exact absurd h (by decide)
  · intro h
    exact .inl ⟨rfl, h⟩

private theorem answered_refusal (hresp : Fresh hash resp) {status : Status}
    (hcode : 400 ≤ status.code) : Answered hash cfg cf (resp.finish status) := by
  right
  simp only [Response.finish, Response.setStatus, hresp.status, if_true]
  exact ⟨hcode, hresp.chunks⟩

private theorem not_answered_fresh (hresp : Fresh hash resp) : ¬ Answered hash cfg cf resp := by
  rw [Answered, hresp.status]
  rintro (⟨h, -⟩ | ⟨h, -⟩)
  · cases h
  · exact absurd h (by decide)

private theorem build_range_resp_iff (hresp : Fresh hash resp) (rng : Bytes) :
    (∃ resp', build_range_resp hash cfg resp rng cf = .ok resp' ∧
      Answered hash cfg cf resp') ↔ Serves cfg cf.len rng := by
  cases heq : strchr rng EQUALS with
  | none =>
      have hstarts : starts rng = [] := by rw [starts, heq]
      have hloop : rangesLoop cf.len rng.length none [] = .ok (some []) := by
        rw [rangesLoop]
      rw [Serves, hstarts, build_range_resp, heq, hloop]
      constructor
      · rintro ⟨resp', hok, h⟩
        cases hok
        exact absurd h (not_answered_fresh hresp)
      · rintro (⟨it, hit, -⟩ | h)
        · exact absurd hit List.not_mem_nil
        · exact absurd rfl h.1
  | some r =>
      obtain ⟨it, rfl, hlt⟩ := strchr_eq_some heq
      have hstarts : starts rng = rangeStarts rng.length it := by rw [starts, heq]
      have hloop := rangesLoop_spec cf.len (c := EQUALS) (by decide) hlt []
      rw [← hstarts] at hloop
      rw [Serves, build_range_resp, heq, hloop]
      by_cases hout : ∃ p ∈ starts rng, ¬ InBounds cf.len p
      · rw [if_pos hout]
        exact iff_of_true ⟨_, rfl, answered_refusal hresp (by decide)⟩ (.inl hout)
      rw [if_neg hout]
      have hin : ∀ p ∈ starts rng, InBounds cf.len p := fun p hp =>
        not_not.mp fun h => hout ⟨p, hp, h⟩
      by_cases hdash : ∀ p ∈ starts rng, hasDash p = true
      · rw [if_pos hdash]
        simp only [hout, false_or]
        cases hs : starts rng with
        | nil =>
            -- no range at all: the response stays as it was
            apply iff_of_false
            · rintro ⟨resp', hok, h⟩
              cases hok
              exact not_answered_fresh hresp h
            · exact fun h => h.1 rfl
        | cons p ps =>
            rw [hs] at hdash hin
            cases ps with
            | nil =>
                have hpart := answered_part cfg cf hresp (hin p List.mem_cons_self)
                constructor
                · rintro ⟨resp', hok, h⟩
                  cases hok
                  refine ⟨List.cons_ne_nil _ _, hdash, fun it hit => ?_⟩
                  cases hit
                  exact hpart.mp h
                · rintro ⟨-, -, h⟩
                  exact ⟨_, rfl, hpart.mpr (h p rfl)⟩
            | cons q ps =>
                -- several ranges are refused
                apply iff_of_true ⟨_, rfl, answered_refusal hresp (by decide)⟩
                exact ⟨List.cons_ne_nil _ _, hdash, fun it hit => by cases hit⟩
      · rw [if_neg hdash]
        apply iff_of_false
        · rintro ⟨resp', hok, -⟩
          cases hok
        · rintro (h | h)
          · exact hout h
          · exact hdash h.2.1

/-- **The response to a ranged request is a part of the file, as `Content-Range` and
`Content-Length` say, or a refusal, exactly for the headers that `Serves` allows.** -/
theorem prepare_response_iff (hresp : Fresh hash resp) {rng : Bytes} (hrng : rng ≠ []) :
    (∃ resp', prepare_response hash cfg true resp rng cf = .ok resp' ∧
      Answered hash cfg cf resp') ↔ Serves cfg cf.len rng := by
  have haccept : Fresh hash (resp.header hash (str "Accept-Ranges") (str "bytes")) := by
    refine ⟨hresp.status, hresp.body, hresp.chunks, hresp.total_size, ?_, ?_⟩
    · rw [CaseMap.count, Response.header, CaseMap.find_emplace_of_ne _ (by decide)]
      exact hresp.noRange
    · rw [CaseMap.count, Response.header, CaseMap.find_emplace_of_ne _ (by decide)]
      exact hresp.noLength
  rw [← build_range_resp_iff haccept, prepare_response]
  simp only [hrng, ne_eq, not_false_eq_true, and_self, if_true]

end Ranged

/-- Six bytes, in a buffer of eight. -/
def abcdef : CachedFile where
  content := str "abcdef"
  data := str "abcdef" ++ [0, 0]
  data_eq := by decide
  len_lt := by decide

theorem prepare_response_firstThree :
    ∃ resp', prepare_response (fun _ => 0) { enable_send_file := true, send_chunk := 4096 } true
        (.new .OK) (str "bytes=0-2") abcdef = .ok resp' ∧
      Answered (fun _ => 0) { enable_send_file := true, send_chunk := 4096 } abcdef resp' := by
  apply (prepare_response_iff ⟨rfl, rfl, rfl, rfl, rfl, rfl⟩ (by decide)).mpr
  right
  refine ⟨by decide, by decide, fun it hit => ?_⟩
  have hone : starts (str "bytes=0-2") = [str "0-2"] := by decide
  rw [hone] at hit
  cases hit
  exact ⟨by decide, by decide, .inl (by decide)⟩

/-- Four bytes are transmitted for the two that `bytes=2-3` asks for and `Content-Length` says. -/
theorem prepare_response_middle :
    ¬ ∃ resp', prepare_response (fun _ => 0) { enable_send_file := true, send_chunk := 4096 } true
        (.new .OK) (str "bytes=2-3") abcdef = .ok resp' ∧
      Answered (fun _ => 0) { enable_send_file := true, send_chunk := 4096 } abcdef resp' := by
  rintro ⟨resp', hok, h⟩
  cases hok
  have hwhole : Whole { enable_send_file := true, send_chunk := 4096 } 6 (str "2-3") :=
    (answered_part _ abcdef ⟨rfl, rfl, rfl, rfl, rfl, rfl⟩ (by decide)).mp h
  exact absurd hwhole.2.2 (by decide)

end Suil.Http
