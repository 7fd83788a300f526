import Suil.Basic.Buffer
import Suil.Basic.UrlCodec
import Suil.Http.MultipartText

set_option autoImplicit false

/-! # What the client uploads

`clientapi.h` and `client.cpp`: a `Request` with its form, what `submit` declares and what it sends.
The body is an `OBuffer`; the buffers of the heads are the bytes in them, which is right for heads of
up to `OBuffer.SAFE` bytes. `sendfile` sends what the file has. `uploads_refused` says what the server
makes of a multipart form. -/

namespace Suil.Http.ClientApi

open Multipart (delimiter)

/-! ## Forms, requests and `submit` -/

/-- `Method`. -/
inductive Method where
  | Delete
  | Get
  | Head
  | Post
  | Put
  | Connect
  | Options
  | Trace
  | Unknown
  deriving DecidableEq, Repr

/-- `method_name(method)`. -/
def method_name : Method → Bytes
  | .Delete => str "DELETE"
  | .Get => str "GET"
  | .Head => str "HEAD"
  | .Post => str "POST"
  | .Put => str "PUT"
  | .Connect => str "CONNECT"
  | .Options => str "OPTIONS"
  | .Trace => str "TRACE"
  | .Unknown => str "Invalid"

/-- `Form::file_t`: the size is that of the file when it is added to a form. -/
structure UpFile where
  name : Bytes
  path : Bytes
  ctype : Bytes
  size : Nat
  deriving DecidableEq, Repr

/-- `Form::Upload`. -/
structure Upload where
  file : UpFile
  head : Bytes
  deriving DecidableEq, Repr

/-- `Form::URL_ENCODED`, `MULTIPART_FORM` and `MULTIPART_OTHERS`. -/
inductive Encoding where
  | URL_ENCODED
  | MULTIPART_FORM
  | MULTIPART_OTHERS
  deriving DecidableEq, Repr

/-- `Form`. -/
structure Form where
  encoding : Encoding
  files : List UpFile
  boundary : Bytes
  uploads : List Upload
  data : List (Bytes × Bytes)
  deriving DecidableEq, Repr

/-- `basename(path)` of `libgen.h`. -/
def basename (path : Bytes) : Bytes :=
  if path = [] then str "."
  else
    let trimmed := path.reverse.dropWhile (· = SLASH)
    if trimmed = [] then [SLASH] else (trimmed.takeWhile (· ≠ SLASH)).reverse

namespace Form

/-- `operator bool`. -/
def filled (f : Form) : Bool := f.data ≠ [] || f.files ≠ []

/-- What is appended to a form: a field with the text that `tostr` gives of its value, or a file. -/
inductive Arg where
  | field (name value : Bytes)
  | file (name path ctype : Bytes)

/-- `append_args` for one of them, where `size` is that of the file at a path. `utils::urlencode` may
write behind its memory. -/
def append_args (size : Bytes → Nat) (f : Form) : Arg → Option Form
  | .field name value =>
      if f.encoding = .URL_ENCODED then do
        let key ← UrlCodec.urlencode name
        let value ← UrlCodec.urlencode value
        some { f with data := AssocMap.emplace (· == ·) f.data key value }
      else some { f with data := AssocMap.emplace (· == ·) f.data name value }
  | .file name path ctype => some { f with files := f.files ++ [⟨name, path, ctype, size path⟩] }

/-- `Form(type, ff...)`; the boundary is made of random bytes. -/
def new (size : Bytes → Nat) (type : Encoding) (boundary : Bytes) (ff : List Arg) : Option Form :=
  ff.foldlM (append_args size) ⟨type, [], boundary, [], []⟩

/-- The fields with `&` in front of each but the first. -/
def urlPieces : List (Bytes × Bytes) → List Bytes
  | [] => []
  | p :: ps => [p.1, str "=", p.2] ++ ps.flatMap fun p => [str "&", p.1, str "=", p.2]

/-- A field of a multipart form. -/
def fieldPieces (f : Form) (p : Bytes × Bytes) : List Bytes :=
  [str "--", f.boundary, str "\r\n", str "Content-Disposition: form-data; name=\"", p.1, str "\"",
    str "\r\n", str "\r\n", p.2, str "\r\n"]

/-- What `encode` writes to the buffer, one `<<` after the other. -/
def pieces (f : Form) : List Bytes :=
  if f.encoding = .URL_ENCODED then urlPieces f.data
  else f.data.flatMap f.fieldPieces ++
    if f.files = [] then [str "--", f.boundary, str "--"] else []

/-- The head of an upload. -/
def fileHead (f : Form) (ff : UpFile) : Bytes :=
  str "--" ++ f.boundary ++ str "\r\n" ++ str "Content-Disposition: form-data; name=\"" ++ ff.name ++
    str "\"; filename=\"" ++ basename ff.path ++ str "\"" ++ str "\r\n" ++
    (if ff.ctype ≠ [] then str "Content-Type: " ++ ff.ctype ++ str "\r\n" else []) ++ str "\r\n"

/-- `encode(out)`: the length that it returns, the buffer and the form with its uploads. -/
def encode (f : Form) (out : OBuffer) : Except OBuffer.Stop (Nat × OBuffer × Form) :=
  if f.data = [] ∧ f.files = [] then .ok (0, out, f)
  else do
    let out ← f.pieces.foldlM OBuffer.append out
    if f.encoding = .URL_ENCODED ∨ f.files = [] then .ok (out.offset, out, f)
    else
      let ups := f.files.map fun ff => ⟨ff, f.fileHead ff⟩
      let length := out.offset + (f.files.map fun ff => (f.fileHead ff).length + ff.size + 2).sum
      .ok (length + (4 + f.boundary.length), out, { f with uploads := f.uploads ++ ups })

end Form

/-- `Request`. An empty resource is a null pointer; `bodyFd` is what the file has in front of its
position. -/
structure Request where
  method : Method
  resource : Option Bytes
  arguments : List (Bytes × Bytes)
  headers : CaseMap Bytes
  form : Form
  body : OBuffer
  bodyFd : Option Bytes

namespace Request

/-- `encodeargs(dst)`. -/
def encodeargs (r : Request) : Bytes :=
  if r.arguments = [] then []
  else str "?" ++ (str "&").intercalate (r.arguments.map fun a => a.1 ++ str "=" ++ a.2)

/-- `encodehdrs(dst)`. -/
def encodehdrs (r : Request) : Bytes :=
  r.headers.flatMap fun h => h.1 ++ str ": " ++ h.2 ++ str "\r\n"

/-- `hdr(name, val)`: `insert` does not replace what is there. -/
def hdr (hash : Bytes → UInt64) (r : Request) (name val : Bytes) : Request :=
  { r with headers := r.headers.emplace hash name val }

/-- `buildbody()`. -/
def buildbody (r : Request) : Except OBuffer.Stop (Nat × Request) :=
  if r.method = .Put ∨ r.method = .Post then
    if r.form.filled then do
      let (length, body, form) ← r.form.encode r.body
      .ok (length, { r with body := body, form := form })
    else .ok (r.body.offset, r)
  else .ok (0, r)

/-- `sendfile(fd, 0, size)`; it is an error when the file is shorter. -/
def sendfile (content : Bytes) (size : Nat) : Option Bytes :=
  if size ≤ content.length then some (content.take size) else none

/-- The uploads, one after the other, and the end of the form. -/
def sendUploads (contents : Bytes → Bytes) (boundary : Bytes) : List Upload → Option Bytes
  | [] => some (str "--" ++ boundary ++ str "--" ++ str "\r\n")
  | up :: ups => do
      let file ← sendfile (contents up.file.path) up.file.size
      let rest ← sendUploads contents boundary ups
      some (up.head ++ file ++ str "\r\n" ++ rest)

/-- What is sent behind the head of a request. -/
def sendBody (contents : Bytes → Bytes) (r : Request) (content_length : Nat) : Option Bytes :=
  if content_length = 0 then some []
  else do
    let first := r.bodyFd.getD r.body.contents
    let rest ← if r.form.uploads = [] then some []
      else sendUploads contents r.form.boundary r.form.uploads
    some (first ++ rest)

/-- What `submit` leaves: the head and what is behind it. -/
structure Submitted where
  head : Bytes
  sent : Bytes
  request : Request

/-- `submit(timeout)` on a socket that takes everything; `date` is the time that it writes. There is
nothing when it throws or when the body outgrows its buffer. -/
def submit (hash : Bytes → UInt64) (contents : Bytes → Bytes) (date : Bytes) (r : Request) :
    Option Submitted := do
  let (content_length, r) ← r.buildbody.toOption
  let r := r.hdr hash (str "Content-Length") (showNat content_length)
  let front := method_name r.method ++ str " " ++ r.resource.getD [] ++ r.encodeargs ++ str " HTTP/1.1" ++
    str "\r\n"
  let r := r.hdr hash (str "Date") date
  let sent ← r.sendBody contents content_length
  some ⟨front ++ r.encodehdrs ++ str "\r\n", sent, r⟩

end Request

/-! ## The parts of a form -/

/-- The part that a field is. -/
def fieldPart (p : Bytes × Bytes) : Multipart.Part := ⟨p.1, none, [], p.2⟩

/-- The part that a file is. -/
def filePart (contents : Bytes → Bytes) (ff : UpFile) : Multipart.Part :=
  ⟨ff.name, some (basename ff.path), if ff.ctype ≠ [] then [(str "Content-Type", ff.ctype)] else [],
    (contents ff.path).take ff.size⟩

/-- The fields and the files of a form, in the order in which they are sent. -/
def parts (contents : Bytes → Bytes) (f : Form) : List Multipart.Part :=
  f.data.map fieldPart ++ f.files.map (filePart contents)

/-- A request with a multipart form that has not been sent before, and nothing else to send. -/
structure Uploading (contents : Bytes → Bytes) (r : Request) : Prop where
  method : r.method = .Put ∨ r.method = .Post
  filled : r.form.filled = true
  encoding : r.form.encoding ≠ .URL_ENCODED
  uploads : r.form.uploads = []
  body : r.body.Usable ∧ r.body.contents = []
  bodyFd : r.bodyFd = none
  files : ∀ ff ∈ r.form.files, ff.size ≤ (contents ff.path).length

section

variable {contents : Bytes → Bytes} {f : Form}

/-- A part with its delimiter. -/
private def item (boundary : Bytes) (p : Multipart.Part) : Bytes :=
  delimiter boundary ++ CR :: LF :: p.behind

private theorem text_items (boundary : Bytes) (ps : List Multipart.Part) (tail : Bytes) :
    Multipart.text boundary ps tail =
      ps.flatMap (item boundary) ++ (delimiter boundary ++ DASH :: DASH :: tail) := by
  induction ps with
  | nil => rfl
  | cons p ps ih =>
      simp only [Multipart.text, ih, List.flatMap_cons, item, List.append_assoc, List.cons_append]

private theorem crlf_eq : str "\r\n" = [CR, LF] := rfl

private theorem dashes_eq : str "--" = [DASH, DASH] := rfl

private theorem quote_eq : str "\"" = [DQUOTE] := rfl

private theorem disposition_eq : str "Content-Disposition: form-data; name=\"" =
    str "Content-Disposition" ++ COLON :: SP :: str "form-data; name=\"" := rfl

private theorem filename_eq : str "\"; filename=\"" = DQUOTE :: str "; filename=\"" := rfl

private theorem ctype_eq : str "Content-Type: " = str "Content-Type" ++ [COLON, SP] := rfl

private theorem field_item (p : Bytes × Bytes) :
    (f.fieldPieces p).flatten = item f.boundary (fieldPart p) := by
  simp only [Form.fieldPieces, item, fieldPart, delimiter, Multipart.Part.behind, Multipart.Part.line,
    Multipart.Part.disposition, Multipart.Part.second, crlf_eq, dashes_eq, quote_eq, disposition_eq,
    List.flatten_cons, List.flatten_nil, List.append_assoc, List.cons_append, List.nil_append,
    List.flatMap_nil]

private theorem file_item (ff : UpFile) :
    f.fileHead ff ++ (contents ff.path).take ff.size ++ str "\r\n" =
      item f.boundary (filePart contents ff) := by
  by_cases hctype : ff.ctype = []
  · simp only [Form.fileHead, item, filePart, delimiter, Multipart.Part.behind, Multipart.Part.line,
      Multipart.Part.disposition, Multipart.Part.second, crlf_eq, dashes_eq, quote_eq, disposition_eq,
      filename_eq, hctype, ne_eq, not_true_eq_false, if_false,
      List.append_assoc, List.cons_append, List.nil_append, List.flatMap_nil]
  · simp only [Form.fileHead, item, filePart, delimiter, Multipart.Part.behind, Multipart.Part.line,
      Multipart.Part.disposition, Multipart.Part.second, crlf_eq, dashes_eq, quote_eq, disposition_eq,
      filename_eq, ctype_eq, hctype, ne_eq, not_false_eq_true, if_true,
      List.append_assoc, List.cons_append, List.nil_append, List.flatMap_nil, List.flatMap_cons,
      List.append_nil]

private theorem length_file_item {ff : UpFile} (h : ff.size ≤ (contents ff.path).length) :
    (item f.boundary (filePart contents ff)).length = (f.fileHead ff).length + ff.size + 2 := by
  rw [← file_item, List.length_append, List.length_append, List.length_take, Nat.min_eq_left h]
  rfl

/-- The fields are encoded as parts. -/
private theorem fields_eq (data : List (Bytes × Bytes)) :
    (data.flatMap f.fieldPieces).flatten = (data.map fieldPart).flatMap (item f.boundary) := by
  induction data with
  | nil => rfl
  | cons p data ih =>
      rw [List.flatMap_cons, List.flatten_append, List.map_cons, List.flatMap_cons, ih, field_item]

/-- The files are sent as parts, with the end of the form. -/
private theorem sendUploads_eq {files : List UpFile}
    (h : ∀ ff ∈ files, ff.size ≤ (contents ff.path).length) :
    Request.sendUploads contents f.boundary (files.map fun ff => ⟨ff, f.fileHead ff⟩) =
      some (Multipart.text f.boundary (files.map (filePart contents)) [CR, LF]) := by
  induction files with
  | nil => simp [Request.sendUploads, Multipart.text, delimiter, crlf_eq, dashes_eq]
  | cons ff files ih =>
      obtain ⟨hff, hfiles⟩ := List.forall_mem_cons.mp h
      simp only [List.map_cons, Request.sendUploads, Request.sendfile, if_pos hff, ih hfiles, bind,
        Option.bind, file_item]
      simp only [Multipart.text, item, List.append_assoc, List.cons_append]

private theorem length_files {files : List UpFile}
    (h : ∀ ff ∈ files, ff.size ≤ (contents ff.path).length) :
    ((files.map (filePart contents)).flatMap (item f.boundary)).length =
      (files.map fun ff => (f.fileHead ff).length + ff.size + 2).sum := by
  induction files with
  | nil => rfl
  | cons ff files ih =>
      obtain ⟨hff, hfiles⟩ := List.forall_mem_cons.mp h
      rw [List.map_cons, List.flatMap_cons, List.length_append, ih hfiles, length_file_item hff,
        List.map_cons, List.sum_cons]

end

section

variable {hash : Bytes → UInt64} {contents : Bytes → Bytes} {date : Bytes} {r : Request}

/-- What is behind the last delimiter. -/
def closing (f : Form) : Bytes := if f.files = [] then [] else [CR, LF]

/-- What the buffer has of a multipart form: all of it, or the fields in front of the files. -/
private theorem pieces_eq (h : Uploading contents r) : r.form.pieces.flatten =
    if r.form.files = [] then Multipart.text r.form.boundary (parts contents r.form) []
    else (r.form.data.map fieldPart).flatMap (item r.form.boundary) := by
  rw [Form.pieces, if_neg h.encoding, List.flatten_append, fields_eq]
  split_ifs with hfiles
  · rw [text_items, parts, hfiles, List.map_nil, List.append_nil]
    simp [delimiter, dashes_eq]
  · exact List.append_nil _

/-- The buffer takes the pieces. -/
private theorem encode_eq (h : Uploading contents r)
    (hsafe : r.form.pieces.flatten.length ≤ OBuffer.SAFE) : ∃ b,
    b.offset = r.form.pieces.flatten.length ∧ b.contents = r.form.pieces.flatten ∧
      r.form.encode r.body = if r.form.files = [] then .ok (b.offset, b, r.form)
        else .ok (b.offset + (r.form.files.map fun ff =>
            (r.form.fileHead ff).length + ff.size + 2).sum + (4 + r.form.boundary.length), b,
          { r.form with uploads := r.form.files.map fun ff => ⟨ff, r.form.fileHead ff⟩ }) := by
  obtain ⟨husable, hempty⟩ := h.body
  have hoffset : r.body.offset = 0 := by
    rw [← husable.length_contents, hempty]
    rfl
  have hroom : r.body.offset + r.form.pieces.flatten.length ≤ OBuffer.SAFE := by
    rw [hoffset, Nat.zero_add]
    exact hsafe
  obtain ⟨b, hrun, hb, hcontents⟩ := OBuffer.appends_of_safe husable hroom
  rw [hempty, List.nil_append] at hcontents
  have hfilled : ¬ (r.form.data = [] ∧ r.form.files = []) := by
    rintro ⟨hdata, hfiles⟩
    have := h.filled
    rw [Form.filled, hdata, hfiles] at this
    simp at this
  -- the buffer has the fields, and the counts of the files are added to its size
  refine ⟨b, by rw [← hb.length_contents, hcontents], hcontents, ?_⟩
  rw [Form.encode, if_neg hfilled, hrun, h.uploads]
  show (if r.form.encoding = .URL_ENCODED ∨ r.form.files = [] then _ else _) = _
  by_cases hfiles : r.form.files = []
  · rw [if_pos (.inr hfiles), if_pos hfiles]
  · rw [if_neg (not_or.mpr ⟨h.encoding, hfiles⟩), if_neg hfiles]
    rfl

/-- What is declared and what is sent. -/
private theorem buildbody_eq (h : Uploading contents r)
    (hsafe : r.form.pieces.flatten.length ≤ OBuffer.SAFE) : ∃ n b f,
    r.buildbody = .ok (n, { r with body := b, form := f }) ∧
      n + (closing r.form).length = (Multipart.text r.form.boundary (parts contents r.form)
        (closing r.form)).length ∧
      Request.sendBody contents { r with body := b, form := f } n =
        some (Multipart.text r.form.boundary (parts contents r.form) (closing r.form)) := by
  obtain ⟨b, hoffset, hcontents, hencode⟩ := encode_eq h hsafe
  rw [pieces_eq h] at hoffset hcontents
  have hbuild : r.buildbody = (r.form.encode r.body >>= fun e =>
      .ok (e.1, { r with body := e.2.1, form := e.2.2 })) := by
    rw [Request.buildbody, if_pos h.method, if_pos h.filled]
  by_cases hfiles : r.form.files = []
  · -- the encoding is all that is sent
    rw [if_pos hfiles] at hencode hoffset hcontents
    have hne : b.offset ≠ 0 := by
      rw [hoffset, text_items]
      simp
    have hclosing : closing r.form = [] := if_pos hfiles
    rw [hencode] at hbuild
    refine ⟨_, _, _, hbuild, by rw [hclosing, hoffset]; rfl, ?_⟩
    rw [Request.sendBody, if_neg hne, hclosing]
    simp [h.bodyFd, h.uploads, hcontents]
  · -- the files are sent behind the encoded fields, and the line end behind them is not counted
    rw [if_neg hfiles] at hencode hoffset hcontents
    have hclosing : closing r.form = [CR, LF] := if_neg hfiles
    have hsum := length_files (f := r.form) h.files
    have htext : Multipart.text r.form.boundary (parts contents r.form) [CR, LF] =
        (r.form.data.map fieldPart).flatMap (item r.form.boundary) ++
          Multipart.text r.form.boundary (r.form.files.map (filePart contents)) [CR, LF] := by
      rw [text_items, text_items, parts, List.flatMap_append, List.append_assoc]
    rw [hencode] at hbuild
    refine ⟨_, _, _, hbuild, ?_, ?_⟩
    · rw [hclosing, htext, List.length_append, text_items, List.length_append, hsum, hoffset]
      simp only [delimiter, List.length_append, List.length_cons, List.length_nil]
      omega
    · have hups : (r.form.files.map fun ff => (⟨ff, r.form.fileHead ff⟩ : Upload)) ≠ [] := by
        simpa using hfiles
      rw [Request.sendBody, if_neg (by omega), hclosing, htext]
      simp only [h.bodyFd, Option.getD_none, if_neg hups, bind, Option.bind, hcontents]
      rw [sendUploads_eq h.files]

/-- The encoding is in front of what is behind the last delimiter. -/
private theorem text_nil_append (boundary : Bytes) (ps : List Multipart.Part) (tail : Bytes) :
    Multipart.text boundary ps tail = Multipart.text boundary ps [] ++ tail := by
  rw [text_items, text_items]
  simp only [List.append_assoc, List.cons_append, List.nil_append]

/-- **What the client sends of a multipart form is the encoding of its fields and files, and the server
refuses the body that is declared: it ends at the closing delimiter. The parts are stored all the same,
up to the first with two dashes behind its first byte.** -/
theorem uploads_refused (hash : Bytes → UInt64) (contents : Bytes → Bytes) (date : Bytes) (r : Request)
    (h : Uploading contents r) (hfree : r.headers.find hash (str "Content-Length") = none)
    (hnul : NUL ∉ r.form.boundary) (hcr : CR ∉ r.form.boundary)
    (hparts : ∀ p ∈ parts contents r.form, p.Written r.form.boundary)
    (hsafe : r.form.pieces.flatten.length ≤ OBuffer.SAFE)
    (hlen : (Multipart.text r.form.boundary (parts contents r.form) []).length + 10 ≤ 2 ^ 32)
    (behind : UInt8) : ∃ s n, r.submit hash contents date = some s ∧
      s.request.headers.find hash (str "Content-Length") = some (showNat n) ∧
      s.sent = Multipart.text r.form.boundary (parts contents r.form) (closing r.form) ∧
      n + (closing r.form).length = s.sent.length ∧
      Multipart.parse_multipart_form hash r.form.boundary (s.sent.take n) behind =
        .ok (false,
          AssocMap.insertAll (Cookies.taken hash)
            (Multipart.fields (Multipart.stored (parts contents r.form))),
          AssocMap.insertAll (Cookies.taken hash)
            (Multipart.uploads (Multipart.stored (parts contents r.form)))) := by
  obtain ⟨n, b, f, hbuild, hcount, hsend⟩ := buildbody_eq h hsafe
  have hheaders : ((r.headers.emplace hash (str "Content-Length") (showNat n)).emplace hash (str "Date")
      date).find hash (str "Content-Length") = some (showNat n) := by
    rw [CaseMap.find_emplace_of_ne date (by decide), CaseMap.find_emplace_of_none (showNat n) hfree]
  -- the declared bytes are the encoding without what is behind its closing delimiter
  have htake : (Multipart.text r.form.boundary (parts contents r.form) (closing r.form)).take n =
      Multipart.text r.form.boundary (parts contents r.form) [] := by
    rw [text_nil_append] at hcount ⊢
    rw [List.length_append, Nat.add_right_cancel_iff] at hcount
    rw [hcount, List.take_left]
  obtain ⟨s, hsubmit, hsent, hset⟩ : ∃ s, r.submit hash contents date = some s ∧
      s.sent = Multipart.text r.form.boundary (parts contents r.form) (closing r.form) ∧
      s.request.headers = (r.headers.emplace hash (str "Content-Length") (showNat n)).emplace hash
        (str "Date") date := by
    have hsend' : Request.sendBody contents { r with
        headers := (r.headers.emplace hash (str "Content-Length") (showNat n)).emplace hash
          (str "Date") date, body := b, form := f } n = some _ := hsend
    rw [Request.submit, hbuild]
    simp only [bind, Option.bind, Except.toOption, Request.hdr]
    rw [hsend']
    exact ⟨_, rfl, rfl, rfl⟩
  refine ⟨s, n, hsubmit, hset ▸ hheaders, hsent, hsent ▸ hcount, ?_⟩
  rw [hsent, htake, Multipart.parse_text hash hnul hcr hparts hlen behind,
    decide_eq_false fun hall => hall.2 rfl]

/-- A field and a file. -/
def report : Request where
  method := .Post
  resource := some (str "/reports")
  arguments := []
  headers := []
  form := ⟨.MULTIPART_FORM, [⟨str "doc", str "/tmp/a.txt", str "text/plain", 2⟩], str "-----x", [],
    [(str "title", str "a")]⟩
  body := OBuffer.new 1024
  bodyFd := none

theorem uploads_refused_report : ∃ s n, report.submit (fun _ => 0) (fun _ => str "hi") (str "now") =
    some s ∧ s.request.headers.find (fun _ => 0) (str "Content-Length") = some (showNat n) ∧
      s.sent = Multipart.text report.form.boundary (parts (fun _ => str "hi") report.form)
        (closing report.form) ∧
      n + (closing report.form).length = s.sent.length ∧
      Multipart.parse_multipart_form (fun _ => 0) report.form.boundary (s.sent.take n) NUL =
        .ok (false,
          AssocMap.insertAll (Cookies.taken fun _ => 0)
            (Multipart.fields (Multipart.stored (parts (fun _ => str "hi") report.form))),
          AssocMap.insertAll (Cookies.taken fun _ => 0)
            (Multipart.uploads (Multipart.stored (parts (fun _ => str "hi") report.form)))) :=
  uploads_refused (fun _ => 0) (fun _ => str "hi") (str "now") report
    ⟨.inr rfl, by decide, by decide, rfl, ⟨⟨(OBuffer.new_shaped 1024).1, (OBuffer.new_shaped 1024).2⟩,
      rfl⟩, rfl, by decide⟩ rfl (by decide) (by decide)
    (by
      intro p hp
      rcases List.mem_cons.mp hp with rfl | hp
      · exact ⟨by decide, by decide, by decide, by decide⟩
      · rw [List.mem_singleton.mp hp]
        exact ⟨by decide, by decide, by decide, by decide⟩)
    (by decide) (by decide +kernel) NUL

end

end Suil.Http.ClientApi
