import Suil.Http.CaseMap
import Suil.Lib.StepMachine

set_option autoImplicit false

/-! # The multipart form parser

`Request::parse_multipart_form` and its helpers (`request.cpp`). The parser runs over a buffer that
holds the body and, behind it, memory that nobody has written; `buf` is the body and the first of
those bytes, whose index is `end`. It cuts the buffer into strings by writing NULs into it.

Everything the code reads or writes goes through functions that fail where it leaves `buf`. Strings
are read from a position on, as the C library does. -/

namespace Suil.Http.Multipart

open StepMachine

/-! ## Memory -/

/-- How the parser goes wrong: a read or write behind the buffer, a null pointer, a body whose
buffer is too small. -/
inductive Fault where
  | overrun
  | nullPointer
  | bodyTooLong
  | outOfFuel
  deriving DecidableEq, Repr

/-- `*p`. -/
def load (buf : Bytes) (p : Nat) : Except Fault UInt8 :=
  match buf[p]? with
  | some c => .ok c
  | none => .error .overrun

/-- `*p = '\0'`. -/
def clear (buf : Bytes) (p : Nat) : Except Fault Bytes :=
  if p < buf.length then .ok (buf.set p NUL) else .error .overrun

/-- A pointer that the code takes to be set. -/
def deref (p : Option Nat) : Except Fault Nat :=
  match p with
  | some p => .ok p
  | none => .error .nullPointer

/-- `strchr(p, c)` where the string starts at `p`: the position of the character. -/
def chr (c : UInt8) : Bytes → Nat → Except Fault (Option Nat)
  | [], _ => .error .overrun
  | b :: s, p => if b = c then .ok (some p) else if b = NUL then .ok none else chr c s (p + 1)

/-- `strncmp(p, t, n) == 0`, after both strings went through `f`. -/
def cmp (f : UInt8 → UInt8) : Nat → Bytes → Bytes → Except Fault Bool
  | 0, _, _ => .ok true
  | _ + 1, [], _ => .error .overrun
  | n + 1, b :: s, t =>
      if f b ≠ f (t.headD NUL) then .ok false
      else if b = NUL then .ok true
      else cmp f n s t.tail

/-- `String(p)`: the bytes up to the first NUL. -/
def cstr : Bytes → Except Fault Bytes
  | [] => .error .overrun
  | b :: s => if b = NUL then .ok [] else (cstr s).map (b :: ·)

/-! ## Helpers -/

/-- `eat_space(p)`. -/
def eat_space : Bytes → Nat → Except Fault Nat
  | [], _ => .error .overrun
  | b :: s, p => if b = SP then eat_space s (p + 1) else .ok p

/-- `while (*p != '\r' && p != e) p++`, from where the loop of `_get_header` looks first. -/
def goto_cr (e : Nat) : Bytes → Nat → Except Fault Nat
  | [], _ => .error .overrun
  | b :: s, p => if b ≠ CR ∧ p ≠ e then goto_cr e s (p + 1) else .ok p

/-- `goto_chr(p, e, c)`: where the loop stops. -/
def goto_chr (e : Nat) (c : UInt8) : Bytes → Nat → Except Fault Nat
  | s, p =>
      if p = e then .ok p
      else
        match s with
        | [] => .error .overrun
        | b :: s => if b ≠ c ∧ b ≠ CR then goto_chr e c s (p + 1) else .ok p

/-- What `_get_header` leaves behind: `ok` is what it returns. -/
structure Header where
  ok : Bool
  buf : Bytes
  p : Nat
  f : Nat
  v : Nat

def get_header (buf : Bytes) (p e : Nat) : Except Fault Header := do
  let f := p
  match ← chr COLON (buf.drop p) p with
  -- `p` is null now; the parser gives up without looking at it
  | none => .ok { ok := false, buf := buf, p := p, f := f, v := p }
  | some q =>
      let buf ← clear buf q
      let v ← eat_space (buf.drop (q + 1)) (q + 1)
      let p ← goto_cr e (buf.drop (v + 1)) (v + 1)
      let c ← load buf p
      if c = CR then
        let c ← load buf (p + 1)
        .ok { ok := decide (c = LF), buf := buf, p := p + 1, f := f, v := v }
      else .ok { ok := false, buf := buf, p := p, f := f, v := v }

/-- What `_get_disposition` leaves behind. -/
structure Disposition where
  ok : Bool
  buf : Bytes
  name : Option Nat
  filename : Option Nat

/-- The value of `name` or `filename` that starts at `p`: the buffer with the quote overwritten and
the position behind `;` and spaces; or nothing without a quote. -/
def get_quoted (buf : Bytes) (p e : Nat) : Except Fault (Option (Bytes × Nat)) := do
  let p ← goto_chr e DQUOTE (buf.drop p) p
  let c ← load buf p
  if c = DQUOTE then
    let buf ← clear buf p
    let p := p + 1
    let c ← load buf p
    let p := if c = SEMI then p + 1 else p
    let p ← eat_space (buf.drop p) p
    .ok (some (buf, p))
  else .ok none

/-- The loop of `_get_disposition`. -/
def get_disposition (e : Nat) : Nat → Bytes → Nat → Option Nat → Option Nat →
    Except Fault Disposition
  | 0, _, _, _, _ => .error .outOfFuel
  | fuel + 1, buf, p, name, filename => do
      let c ← load buf p
      if c ≠ NUL ∧ p ≠ e then
        if ← cmp toLower 4 (buf.drop p) (str "name=\"") then
          let name := p + 6
          match ← get_quoted buf name e with
          | some (buf, p) => get_disposition e fuel buf p (some name) filename
          | none => .ok { ok := false, buf := buf, name := some name, filename := filename }
        else if ← cmp toLower 10 (buf.drop p) (str "filename=\"") then
          let filename := p + 10
          match ← get_quoted buf filename e with
          | some (buf, p) => get_disposition e fuel buf p name (some filename)
          | none => .ok { ok := false, buf := buf, name := name, filename := some filename }
        else .ok { ok := false, buf := buf, name := name, filename := filename }
      else .ok { ok := true, buf := buf, name := name, filename := filename }

/-! ## What the helpers find -/

theorem drop_behind {buf t r : Bytes} {c : UInt8} {p : Nat} (h : buf.drop p = t ++ c :: r) :
    buf.drop (p + t.length + 1) = r := by
  rw [Nat.add_assoc, ← List.drop_drop, h, ← List.drop_drop, List.drop_left]
  rfl

theorem chr_append {c : UInt8} {t r : Bytes} (hc : c ∉ t) (hn : NUL ∉ t) (p : Nat) :
    chr c (t ++ c :: r) p = .ok (some (p + t.length)) := by
  induction t generalizing p with
  | nil => exact if_pos rfl
  | cons b t ih =>
      rw [List.mem_cons, not_or] at hc hn
      rw [List.cons_append, chr, if_neg (Ne.symm hc.1), if_neg (Ne.symm hn.1), ih hc.2 hn.2,
        List.length_cons]
      congr 2
      omega

theorem eat_space_append (k : Nat) {t : Bytes} (ht : t ≠ []) (hhead : t.head? ≠ some SP) (p : Nat) :
    eat_space (List.replicate k SP ++ t) p = .ok (p + k) := by
  induction k generalizing p with
  | zero =>
      cases t with
      | nil => exact absurd rfl ht
      | cons b t => exact if_neg fun hb => hhead (congrArg some hb)
  | succ k ih =>
      rw [List.replicate_succ, List.cons_append, eat_space, if_pos rfl, ih]
      congr 1
      omega

/-! ## The machine -/

inductive PState where
  | state_begin
  | state_is_boundary
  | state_boundary
  | state_save_data
  | state_save_file
  | state_header
  | state_content
  | state_data
  | state_error
  | state_end
  deriving DecidableEq, Repr

open PState

/-- `UploadedFile`: `data` is what the file's pointer and length enclose. -/
structure UploadedFile where
  name : Bytes
  len : Nat
  data : Bytes
  deriving DecidableEq, Repr

/-- The variables of `parse_multipart_form`, and the maps of the request that it fills. A string
that is put into a map points into the buffer; its bytes are taken when it is, what is written
later lies behind them. -/
structure Machine where
  buf : Bytes
  p : Nat
  name : Option Nat
  filename : Option Nat
  data : Option Nat
  dend : Option Nat
  cap : Bool
  state : PState
  next_state : PState
  form : CaseMap Bytes
  files : CaseMap UploadedFile

namespace Machine

/-- `end`. -/
def e (m : Machine) : Nat := m.buf.length - 1

end Machine

abbrev Result : Type := Bool × CaseMap Bytes × CaseMap UploadedFile

abbrev Step : Type := Except Fault (Next Machine Result)

/-- The case `state_is_boundary`. -/
def isBoundary (m : Machine) : Step := do
  let c ← load m.buf m.p
  if c = DASH then
    let c ← load m.buf (m.p + 1)
    if c = DASH then
      .ok (.goon { m with
        p := m.p + 2, state := state_is_boundary, next_state := state_boundary })
    else .ok (.goon { m with p := m.p + 1, next_state := m.state })
  else .ok (.goon { m with next_state := m.state })

/-- `p[0] == a && p[1] == b`. -/
def pair (buf : Bytes) (p : Nat) (a b : UInt8) : Except Fault Bool := do
  let c ← load buf p
  if c = a then
    let c ← load buf (p + 1)
    .ok (decide (c = b))
  else .ok false

/-- The case `state_boundary`. -/
def atBoundary (boundary : Bytes) (m : Machine) : Step := do
  let m := { m with state := state_is_boundary }
  if ← cmp id boundary.length (m.buf.drop m.p) boundary then
    let p := m.p + boundary.length
    let el ← pair m.buf p CR LF
    let eb ← pair m.buf p DASH DASH
    if el || eb then
      let m := { m with p := p + 2, state := if el then state_content else state_end }
      if m.filename.isSome then .ok (.goon { m with next_state := state_save_file, cap := true })
      else if m.name.isSome then .ok (.goon { m with next_state := state_save_data, cap := true })
      else .ok (.goon { m with next_state := if el then state_content else state_end })
    else .ok (.goon { m with p := p, next_state := state_error })
  else .ok (.goon { m with next_state := state_error })

/-- `String(p)` of a pointer that may be null. -/
def string (buf : Bytes) (p : Option Nat) : Except Fault Bytes :=
  match p with
  | some p => cstr (buf.drop p)
  | none => .ok []

/-- The position before `p`. -/
def before (p : Nat) : Except Fault Nat := if p = 0 then .error .overrun else .ok (p - 1)

/-- The case `state_save_file`; the difference of two pointers is a `size_t`. -/
def saveFile (hash : Bytes → UInt64) (m : Machine) : Step := do
  let dend ← deref m.dend
  let buf ← clear m.buf dend
  let dend ← before dend
  let tmp ← string buf m.filename
  let tmp_name ← string buf m.name
  let data ← deref m.data
  let len := (dend + 2 ^ 64 - data) % 2 ^ 64
  let f : UploadedFile := { name := tmp, len := len, data := (buf.drop data).take len }
  .ok (.goon { m with
    buf := buf, files := m.files.emplace hash tmp_name f, filename := none, data := none,
    dend := none, next_state := m.state, cap := false })

/-- The case `state_save_data`; the length of a `String` is a `uint32_t`. -/
def saveData (hash : Bytes → UInt64) (m : Machine) : Step := do
  let dend ← deref m.dend
  let dend ← before dend
  let buf ← clear m.buf dend
  let tmp ← string buf m.name
  let data ← deref m.data
  let len := (dend + 2 ^ 64 - data) % 2 ^ 32
  .ok (.goon { m with
    buf := buf, form := m.form.emplace hash tmp ((buf.drop data).take len), name := none,
    data := none, dend := none, next_state := m.state, cap := false })

/-- The case `state_content`. -/
def atContent (m : Machine) : Step := do
  let m := { m with state := state_content, next_state := state_error }
  let h ← get_header m.buf m.p m.e
  let m := { m with buf := h.buf, p := h.p }
  if !h.ok then .ok (.goon m)
  else if ← cmp toLower 20 (m.buf.drop h.f) (str "Content-Disposition") then
    let buf ← clear m.buf (m.p + 1 - 2)
    let m := { m with buf := buf, p := m.p + 1 }
    if ← cmp toLower 9 (m.buf.drop h.v) (str "form-data") then
      let val ← eat_space (m.buf.drop (h.v + 10)) (h.v + 10)
      let d ← get_disposition m.e m.buf.length m.buf val none none
      let m := { m with buf := d.buf, name := d.name, filename := d.filename }
      if d.ok then .ok (.goon { m with next_state := state_header })
      else .ok (.goon m)
    else .ok (.goon m)
  else .ok (.goon m)

/-- `_get_header` in the case `state_header`. -/
def atField (m : Machine) : Step := do
  let h ← get_header m.buf m.p m.e
  let m := { m with buf := h.buf, p := h.p }
  if h.ok then
    let buf ← clear m.buf (m.p + 1 - 2)
    .ok (.goon { m with buf := buf, p := m.p + 1 })
  else .ok (.goon { m with next_state := state_error })

/-- The case `state_header`. -/
def atHeader (m : Machine) : Step := do
  let m := { m with state := state_header }
  let c ← load m.buf m.p
  if c = CR then
    let c ← load m.buf (m.p + 1)
    if c = LF then
      .ok (.goon { m with p := m.p + 2, data := some (m.p + 2), next_state := state_data })
    else atField { m with p := m.p + 1 }
  else atField m

/-- One turn of the loop. -/
def step (hash : Bytes → UInt64) (boundary : Bytes) (m : Machine) : Step :=
  if m.cap || decide (m.p ≠ m.e) then
    match m.next_state with
    | state_begin => isBoundary { m with state := state_error, next_state := state_is_boundary }
    | state_is_boundary => isBoundary m
    | state_boundary => atBoundary boundary m
    | state_save_file => saveFile hash m
    | state_save_data => saveData hash m
    | state_content => atContent m
    | state_header => atHeader m
    | state_data =>
        .ok (.goon { m with
          state := state_data, dend := some m.p, p := m.p + 1, next_state := state_is_boundary })
    | state_end => .ok (.done (true, m.form, m.files))
    | state_error => .ok (.done (false, m.form, m.files))
  else .ok (.done (false, m.form, m.files))

/-- The machine before the loop: the body, and the byte that lies behind it. -/
def start (body : Bytes) (behind : UInt8) : Machine :=
  { buf := body ++ [behind], p := 0, name := none, filename := none, data := none, dend := none,
    cap := false, state := state_begin, next_state := state_begin, form := [], files := [] }

/-- The size of `OBuffer rb((uint32_t) content_length+2)`: rounded up to whole words, all of it in
32 bits. -/
def capacity (content_length : Nat) : Nat :=
  let add := (content_length + 2) % 2 ^ 32
  (add + (8 - add % 8) % 8) % 2 ^ 32

/-- `parse_multipart_form` for a request whose form and files are empty. A body of 2^32 - 2 bytes, for
which the buffer is a null pointer and the source returns false, is too long here, too. -/
def parse_multipart_form (hash : Bytes → UInt64) (boundary body : Bytes) (behind : UInt8) :
    Except Fault Result :=
  -- `read_body` copies nothing and the parser gives up
  if body = [] then .ok (false, [], [])
  else if capacity body.length ≤ body.length then .error .bodyTooLong
  else
    match run (step hash boundary) (5 * body.length + 8) (start body behind) with
    | some r => r
    | none => .error .outOfFuel

end Suil.Http.Multipart
