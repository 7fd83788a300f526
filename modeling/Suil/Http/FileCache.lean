import Suil.Http.FileServer
import Suil.Lib.AssocMap
import Suil.Lib.Traced

set_option autoImplicit false

/-! # The cache of the file server

A `GET` request of the file server (`fserver.h`, `fserver.cpp`): the handler splits the path at its
last dot, `get` looks the type up under the extension, and `load_file` finds the file in the cache or
loads it. `load_file` is given the path without the extension, which is the key of the cache; the
pointer in it runs on into the extension, so that `file_exists` looks for the whole path.

`served_iff` says for which sequences of requests each answer `200` carries the file that its path
resolves to. -/

namespace Suil.Http

/-! ## Files -/

structure File where
  content : Bytes
  last_mod : Int
  /-- `open` gives a descriptor. -/
  readable : Bool
  len_lt : content.length < 2 ^ 63

/-- A file system that does not change: `realpath`, what it leaves in its array for a path that it
does not resolve, and the regular files. -/
structure FileSystem where
  realpath : Bytes → Option Bytes
  unresolved : Bytes → Bytes
  file : Bytes → Option File

/-- The array behind `realpath(path, absolute)`. -/
def FileSystem.absolute (fs : FileSystem) (path : Bytes) : Bytes :=
  (fs.realpath path).getD (fs.unresolved path)

/-- `mime_type_t`. -/
structure MimeType where
  mime : Bytes
  allow_caching : Bool
  allow_range : Bool
  cache_expires : Int

/-- `FileServer`, its settings and what it uses of the system and of `Datetime`. -/
structure FileServer where
  config : FileConfig
  mapped_min : Nat
  www_dir : Bytes
  mime_types : Bytes → Option MimeType
  redirects : Bytes → Option Bytes
  fs : FileSystem
  page_size : Nat
  hash : Bytes → UInt64
  datetime : Bytes → Int
  httpFormat : Int → Bytes

/-- What is read of a request: the URL and two headers, which are empty if they are not there. -/
structure Get where
  url : Bytes
  if_modified_since : Bytes
  range : Bytes

/-- `cached_file_t`. -/
structure Cached where
  path : Bytes
  file : CachedFile
  last_mod : Int

/-- `cached_files_`. -/
abbrev Cache : Type := List (Bytes × Cached)

/-- How an answer goes wrong: reading the `Range` header, or reading more into a buffer than there
is room for. -/
inductive ServeFault where
  | range (f : RangeFault)
  | heap
  deriving DecidableEq, Repr

namespace FileServer

/-! ## Paths -/

/-- The path of a file and the extension in it. -/
structure Target where
  path : Bytes
  ext : Bytes

/-- `String p(path.data(), ext - path.data(), false)`. -/
def Target.stem (t : Target) : Bytes := t.path.take (t.path.length - t.ext.length)

/-- The path of the URL, or the one it is an alias of. -/
def target (srv : FileServer) (url : Bytes) : Option Target :=
  match strrchr url DOT with
  | some ext => some ⟨url, ext⟩
  | none =>
      match srv.redirects url with
      | none => none
      | some path => if path = [] then none else (strrchr path DOT).map fun ext => ⟨path, ext⟩

/-- The path that `file_exists` asks for. `rel()` is empty for an empty string, and else runs to the
end of the path. -/
def requested (srv : FileServer) (t : Target) : Bytes :=
  srv.www_dir ++ if t.stem = [] then [] else t.path

/-- `file_exists`: the absolute path. Whether `realpath` has resolved it is not asked. -/
def file_exists (srv : FileServer) (t : Target) : Option Bytes :=
  let absolute := srv.fs.absolute (srv.requested t)
  if absolute.take srv.www_dir.length ≠ srv.www_dir then none
  else if (srv.fs.file absolute).isNone then none
  else some absolute

/-! ## Loading -/

/-- The file in a buffer that is longer, by what is left of a page or by eight bytes. -/
def buffered (st : File) (n : Nat) : CachedFile where
  content := st.content
  data := st.content ++ List.replicate n 0
  data_eq := List.take_left
  len_lt := st.len_lt

/-- `read_file`. -/
def read_file (srv : FileServer) (st : File) : Except ServeFault CachedFile :=
  let size := st.content.length
  if srv.mapped_min ≤ size then .ok (buffered st (srv.page_size - size % srv.page_size))
  else if (size % 2 ^ 32 + 8) % 2 ^ 32 < size then .error .heap
  else .ok (buffered st 8)

/-- The file is opened, and read unless it is sent with `sendfile`. -/
def openFile (srv : FileServer) (path : Bytes) (st : File) : Except ServeFault (Option Cached) :=
  if !st.readable then .ok none
  else do
    let file ← (if srv.config.enable_send_file then .ok (buffered st 0) else srv.read_file st)
    .ok (some { path := path, file := file, last_mod := st.last_mod })

/-- `cached_files_.find(rel)`. -/
def find (cache : Cache) (rel : Bytes) : Option Cached := AssocMap.find (· == ·) cache rel

/-- `load_file`. -/
def load_file (srv : FileServer) (cache : Cache) (t : Target) :
    Except ServeFault (Cache × Option Cached) :=
  match find cache t.stem with
  | none =>
      match srv.file_exists t with
      | none => .ok (cache, none)
      | some path =>
          match srv.fs.file path with
          | none => .ok (cache, none)
          | some st => do
              match ← srv.openFile path st with
              | none => .ok (cache, none)
              | some cf => .ok (AssocMap.emplace (· == ·) cache t.stem cf, some cf)
  | some cf =>
      match srv.fs.file cf.path with
      | none => .ok (cache, some cf)
      | some st =>
          if cf.last_mod ≠ st.last_mod then do
            match ← srv.openFile cf.path st with
            | none => .ok (cache.filter fun e => e.1 ≠ t.stem, none)
            | some cf =>
                .ok (cache.map fun e => if e.1 = t.stem then (e.1, cf) else e, some cf)
          else .ok (cache, some cf)

/-! ## Answers -/

/-- `cache_control`. -/
def cache_control (srv : FileServer) (resp : Response) (cf : Cached) (mm : MimeType) : Response :=
  let resp := resp.header srv.hash (str "Last-Modified") (srv.httpFormat cf.last_mod)
  if 0 < mm.cache_expires then
    resp.header srv.hash (str "Cache-Control")
      ((str "public, max-age=" ++ showNat mm.cache_expires.toNat).take 30)
  else resp

/-- The file has not been modified since the time of the request. -/
def notModified (srv : FileServer) (r : Get) (cf : Cached) (mm : MimeType) : Bool :=
  mm.allow_caching && r.if_modified_since ≠ [] && cf.last_mod ≤ srv.datetime r.if_modified_since

/-- `get` once the file is there. -/
def respond (srv : FileServer) (r : Get) (resp : Response) (cf : Cached) (mm : MimeType) :
    Except ServeFault Response :=
  if srv.notModified r cf mm then .ok (resp.finish .NOT_MODIFIED)
  else
    let resp := if mm.allow_caching then srv.cache_control resp cf mm else resp
    let resp := resp.header srv.hash (str "Content-Type") mm.mime
    match prepare_response srv.hash srv.config mm.allow_range resp r.range cf.file with
    | .error f => .error (.range f)
    | .ok resp => .ok resp

/-- `get`; without a response `Error::notFound()` is thrown. -/
def get (srv : FileServer) (cache : Cache) (r : Get) (resp : Response) (t : Target) :
    Except ServeFault (Cache × Option Response) :=
  match srv.mime_types t.ext with
  | none => .ok (cache, none)
  | some mm => do
      let (cache, sf) ← srv.load_file cache t
      match sf with
      | none => .ok (cache, none)
      | some cf => do
          let resp ← srv.respond r resp cf mm
          .ok (cache, some resp)

/-- The handler of the route; `Error::notFound()` leaves it where there is no target. The body of an
error goes on with the message of the exception, which is read from a temporary that is gone; it is left
out here. -/
def handle (srv : FileServer) (cache : Cache) (r : Get) :
    Except ServeFault (Cache × Option Response) :=
  match srv.target r.url with
  | none => .ok (cache, none)
  | some t => do
      let resp := Response.new .OK
      match ← srv.get cache r resp t with
      | (cache, some resp) => .ok (cache, some resp)
      | (cache, none) =>
          let resp := { resp with body := str "Error serving '" ++ t.path ++ str "': " }
          .ok (cache, some (resp.finish .INTERNAL_ERROR))

/-- Requests one after the other, all of which are answered. -/
def serveAll (srv : FileServer) : Cache → List Get → Except ServeFault (List (Option Response))
  | _, [] => .ok []
  | cache, r :: reqs => do
      let (cache, reply) ← srv.handle cache r
      let replies ← srv.serveAll cache reqs
      .ok (reply :: replies)

/-! ## What an answer carries -/

/-- The bytes of the chunks of a response. -/
def carried (resp : Response) : Bytes :=
  resp.payload.flatMap fun c => (c.src.bytes.drop c.offset).take c.len

/-- The path of a request resolves to a file with this content. -/
def Resolves (srv : FileServer) (t : Target) (content : Bytes) : Prop :=
  ∃ path st, srv.file_exists t = some path ∧ srv.fs.file path = some st ∧ st.content = content

/-- A response `200` carries the content of the file that the path resolves to. -/
def Exact (srv : FileServer) (r : Get) (reply : Option Response) : Prop :=
  ∀ resp, reply = some resp → resp.status = .OK →
    ∃ t, srv.target r.url = some t ∧ srv.Resolves t (carried resp)

/-- What a request would put into an empty cache. -/
def entry (srv : FileServer) (r : Get) : Option (Bytes × Cached) := do
  let t ← srv.target r.url
  let _ ← srv.mime_types t.ext
  let path ← srv.file_exists t
  let st ← srv.fs.file path
  let cf ← (srv.openFile path st).toOption.join
  some (t.stem, cf)

/-- The file under a stem after these requests: the first that was loaded. -/
def source (srv : FileServer) (reqs : List Get) (stem : Bytes) : Option Cached :=
  AssocMap.find (· == ·) (reqs.filterMap srv.entry) stem

/-- The whole file is asked for, or its type has no ranges. -/
def Whole (r : Get) (mm : MimeType) : Prop := r.range = [] ∨ mm.allow_range = false

/-- What is sent for a request after the requests `seen` is the file of its path: the first file
that was loaded for a path with the same stem has the content of this one, unless only a part of it
is asked for; and a `Range` header without an equals sign comes with an empty file only. -/
def Matches (srv : FileServer) (seen : List Get) (r : Get) : Prop :=
  ∀ t mm cf, srv.target r.url = some t → srv.mime_types t.ext = some mm →
    srv.source (seen ++ [r]) t.stem = some cf → srv.notModified r cf mm = false →
    (Whole r mm → srv.Resolves t cf.file.content) ∧
      (¬ Whole r mm → strchr r.range EQUALS = none → srv.Resolves t [])

/-! ## The cache -/

/-- The cache after these requests. -/
def cacheOf (srv : FileServer) (seen : List Get) : Cache :=
  AssocMap.insertAll (· == ·) (seen.filterMap srv.entry)

theorem find_cacheOf (srv : FileServer) (seen : List Get) (stem : Bytes) :
    find (srv.cacheOf seen) stem = srv.source seen stem :=
  AssocMap.find_insertAll AssocMap.equivOn_beq (fun _ _ => trivial) trivial

theorem source_append (srv : FileServer) (seen : List Get) (r : Get) (stem : Bytes) :
    srv.source (seen ++ [r]) stem =
      (srv.source seen stem).or (AssocMap.find (· == ·) (srv.entry r).toList stem) := by
  rw [source, List.filterMap_append, AssocMap.find_append, source]
  cases h : srv.entry r with
  | none => rw [List.filterMap_cons_none h]; rfl
  | some e => rw [List.filterMap_cons_some h]; rfl

private theorem cacheOf_none {srv : FileServer} {r : Get} (h : srv.entry r = none)
    (seen : List Get) : srv.cacheOf (seen ++ [r]) = srv.cacheOf seen := by
  rw [cacheOf, List.filterMap_append, List.filterMap_cons_none h, List.filterMap_nil,
    List.append_nil, cacheOf]

private theorem cacheOf_some {srv : FileServer} {r : Get} {stem : Bytes} {cf : Cached}
    (h : srv.entry r = some (stem, cf)) (seen : List Get) :
    srv.cacheOf (seen ++ [r]) = AssocMap.emplace (· == ·) (srv.cacheOf seen) stem cf := by
  rw [cacheOf, List.filterMap_append, List.filterMap_cons_some h, List.filterMap_nil,
    AssocMap.insertAll_concat]
  rfl

/-- What is opened is the file, as it is. -/
private theorem openFile_ok {srv : FileServer} {path : Bytes} {st : File} {cf : Cached}
    (h : srv.openFile path st = .ok (some cf)) :
    cf.path = path ∧ cf.last_mod = st.last_mod ∧ cf.file.content = st.content := by
  rw [openFile] at h
  split_ifs at h with hread hsend
  · cases h
  · cases h
    exact ⟨rfl, rfl, rfl⟩
  · simp only [bind, Except.bind] at h
    cases hfile : srv.read_file st with
    | error e =>
        rw [hfile] at h
        cases h
    | ok file =>
        rw [hfile] at h
        cases h
        refine ⟨rfl, rfl, ?_⟩
        rw [read_file] at hfile
        split_ifs at hfile
        · cases hfile
          rfl
        · cases hfile
          rfl

/-- An entry is the file that the path of the request resolves to. -/
private theorem entry_eq {srv : FileServer} {r : Get} {t : Target} {mm : MimeType}
    (ht : srv.target r.url = some t) (hmm : srv.mime_types t.ext = some mm) :
    srv.entry r = (srv.file_exists t).bind fun path => (srv.fs.file path).bind fun st =>
      (srv.openFile path st).toOption.join.bind fun cf => some (t.stem, cf) := by
  rw [entry, ht]
  simp only [bind, Option.bind_some, hmm]

/-- The file under a stem is on the disk as it was when it was loaded. -/
private theorem source_some {srv : FileServer} {seen : List Get} {stem : Bytes} {cf : Cached}
    (h : srv.source seen stem = some cf) :
    ∃ st, srv.fs.file cf.path = some st ∧ cf.last_mod = st.last_mod := by
  obtain ⟨k, hmem, -⟩ := AssocMap.mem_of_find h
  obtain ⟨r, -, hentry⟩ := List.mem_filterMap.mp hmem
  simp only [entry, bind, Option.bind_eq_some_iff] at hentry
  obtain ⟨t, -, mm, -, path, -, st, hst, cf', hopen, heq⟩ := hentry
  cases heq
  have hok : srv.openFile path st = .ok (some cf) := by
    cases hres : srv.openFile path st with
    | error e =>
        rw [hres] at hopen
        cases hopen
    | ok o =>
        rw [hres] at hopen
        rw [show o = some cf from hopen]
  obtain ⟨hpath, hmod, -⟩ := openFile_ok hok
  exact ⟨st, by rw [hpath]; exact hst, hmod⟩

/-- **What is loaded is the first file with the stem**, and the cache holds the first files. -/
theorem load_file_spec {srv : FileServer} {seen : List Get} {r : Get} {t : Target} {mm : MimeType}
    (ht : srv.target r.url = some t) (hmm : srv.mime_types t.ext = some mm) {cache : Cache}
    {sf : Option Cached} (h : srv.load_file (srv.cacheOf seen) t = .ok (cache, sf)) :
    cache = srv.cacheOf (seen ++ [r]) ∧ sf = srv.source (seen ++ [r]) t.stem := by
  have hentry := entry_eq ht hmm
  rw [load_file, find_cacheOf] at h
  rw [source_append]
  cases hfound : srv.source seen t.stem with
  | some cf =>
      -- the stem is in the cache already, so the entry of this request changes nothing
      obtain ⟨st, hst, hmod⟩ := source_some hfound
      simp only [hfound, hst, hmod, ne_eq, not_true_eq_false, if_false] at h
      cases h
      refine ⟨?_, rfl⟩
      cases he : srv.entry r with
      | none => rw [cacheOf_none he]
      | some e =>
          have hstem : e.1 = t.stem := by
            rw [hentry] at he
            simp only [Option.bind_eq_some_iff, Option.some.injEq] at he
            obtain ⟨path, -, st', -, cf', -, rfl⟩ := he
            rfl
          rw [cacheOf_some he, hstem, AssocMap.emplace_of_some]
          exact (find_cacheOf srv seen t.stem).trans hfound
  | none =>
      -- a request that finds a file adds it, and every other way through leaves the cache
      have hmiss : find (srv.cacheOf seen) t.stem = none := by rw [find_cacheOf, hfound]
      simp only [hfound] at h
      cases hexists : srv.file_exists t with
      | none =>
          rw [hexists] at h hentry
          cases h
          rw [cacheOf_none hentry, hentry]
          exact ⟨rfl, rfl⟩
      | some path =>
          rw [hexists, Option.bind_some] at hentry
          simp only [hexists] at h
          cases hst : srv.fs.file path with
          | none =>
              rw [hst] at h hentry
              cases h
              rw [cacheOf_none hentry, hentry]
              exact ⟨rfl, rfl⟩
          | some st =>
              rw [hst, Option.bind_some] at hentry
              simp only [hst] at h
              cases hopen : srv.openFile path st with
              | error e =>
                  rw [hopen] at h
                  cases h
              | ok o =>
                  rw [hopen] at h hentry
                  cases o with
                  | none =>
                      cases h
                      rw [cacheOf_none hentry, hentry]
                      exact ⟨rfl, rfl⟩
                  | some cf =>
                      cases h
                      rw [cacheOf_some hentry, hentry]
                      refine ⟨rfl, ?_⟩
                      show some cf = ((none : Option Cached).or (AssocMap.find _ [(t.stem, cf)] _))
                      rw [Option.none_or, AssocMap.find, List.find?_cons_of_pos (by simp)]
                      rfl

/-! ## The answers -/

/-- A response with headers only. -/
private structure Plain (resp : Response) : Prop where
  status : resp.status = .OK
  body : resp.body = []
  chunks : resp.chunks = []

private theorem Plain.header {resp : Response} (h : Plain resp) (hash : Bytes → UInt64)
    (field value : Bytes) : Plain (resp.header hash field value) := ⟨h.status, h.body, h.chunks⟩

private theorem carried_plain {resp : Response} (h : Plain resp) : carried resp = [] := by
  rw [carried, Response.payload, h.body, h.chunks]
  rfl

private theorem finish_status {resp : Response} (h : resp.status = .OK) (status : Status) :
    (resp.finish status).status = status := by
  rw [Response.finish, Response.setStatus, if_pos h]

/-- The whole file, from a descriptor or from its buffer. -/
private theorem carried_whole {resp : Response} (h : Plain resp) (cfg : FileConfig)
    (cf : CachedFile) :
    carried ((resp.chunk { src := cf.source cfg, offset := 0, len := cf.len }).finish .OK) =
      cf.content := by
  have hsource : (cf.source cfg).bytes.take cf.content.length = cf.content := by
    rw [CachedFile.source]
    split_ifs
    · exact List.take_length
    · exact cf.data_eq
  simp only [carried, Response.payload, Response.finish, Response.setStatus, Response.chunk,
    h.status, h.body, h.chunks, if_true, ne_eq, not_true_eq_false, if_false, List.nil_append,
    List.flatMap_cons, List.flatMap_nil, List.append_nil, List.drop_zero]
  exact hsource

/-- The loop only adds to its ranges. -/
private theorem rangesLoop_extends {len fuel : Nat} {it : Option Bytes} {ranges rs : List (Nat × Nat)}
    (h : rangesLoop len fuel it ranges = .ok (some rs)) : ranges <+: rs := by
  induction fuel generalizing it ranges with
  | zero =>
      rcases it with _ | _ | _
      · cases h
        exact List.prefix_rfl
      · cases h
        exact List.prefix_rfl
      · cases h
  | succ fuel ih =>
      rcases it with _ | _ | ⟨c, it⟩
      · cases h
        exact List.prefix_rfl
      · cases h
        exact List.prefix_rfl
      · simp only [rangesLoop, bind, Except.bind] at h
        split at h
        · cases h
        split_ifs at h
        · cases h
        · split at h
          · cases h
          · exact (List.prefix_append _ _).trans (ih h)

/-- There is a range behind an equals sign. -/
private theorem rangesLoop_ne_nil {len fuel : Nat} {c : UInt8} {it : Bytes} :
    rangesLoop len fuel (some (c :: it)) [] ≠ .ok (some []) := by
  intro h
  cases fuel with
  | zero => cases h
  | succ fuel =>
      simp only [rangesLoop, bind, Except.bind] at h
      split at h
      · cases h
      split_ifs at h
      · cases h
      · split at h
        · cases h
        · have hlen := (rangesLoop_extends h).length_le
          exact absurd hlen (by simp)

section Prepared

variable {hash : Bytes → UInt64} {cfg : FileConfig} {allow_range : Bool} {range : Bytes}
variable {resp resp' : Response} {cf : CachedFile}

/-- Without a range the whole file is the answer. -/
private theorem prepare_whole (hplain : Plain resp) (hrange : range = [] ∨ allow_range = false)
    (h : prepare_response hash cfg allow_range resp range cf = .ok resp') :
    resp'.status = .OK ∧ carried resp' = cf.content := by
  have hnot : ¬ (range ≠ [] ∧ allow_range = true) := by
    rintro ⟨hne, htrue⟩
    rcases hrange with hnil | hfalse
    · exact hne hnil
    · rw [htrue] at hfalse
      cases hfalse
  rw [prepare_response, if_neg hnot] at h
  cases h
  have hheader := hplain.header hash (str "Accept-Ranges")
    (if allow_range then str "bytes" else str "none")
  refine ⟨?_, carried_whole hheader cfg cf⟩
  apply finish_status
  exact hheader.status

/-- A header without an equals sign has no ranges, and nothing is the answer. -/
private theorem prepare_bare (hplain : Plain resp) (hrange : range ≠ [] ∧ allow_range = true)
    (hbare : strchr range EQUALS = none)
    (h : prepare_response hash cfg allow_range resp range cf = .ok resp') :
    resp'.status = .OK ∧ carried resp' = [] := by
  have hloop : rangesLoop cf.len range.length none [] = .ok (some []) := by rw [rangesLoop]
  rw [prepare_response, if_pos hrange, build_range_resp, hbare, hloop] at h
  cases h
  have hheader := hplain.header hash (str "Accept-Ranges")
    (if allow_range then str "bytes" else str "none")
  exact ⟨hheader.status, carried_plain hheader⟩

/-- Other ranges are answered with another status. -/
private theorem prepare_ranged (hplain : Plain resp) (hrange : range ≠ [] ∧ allow_range = true)
    {r : Bytes} (hsome : strchr range EQUALS = some r)
    (h : prepare_response hash cfg allow_range resp range cf = .ok resp') : resp'.status ≠ .OK := by
  have hheader := hplain.header hash (str "Accept-Ranges")
    (if allow_range then str "bytes" else str "none")
  obtain ⟨q, rfl, -⟩ := strchr_eq_some hsome
  rw [prepare_response, if_pos hrange, build_range_resp, hsome] at h
  simp only [bind, Except.bind] at h
  split at h
  · cases h
  next v hloop =>
  split at h
  · cases h
    rw [finish_status hheader.status]
    decide
  · exact absurd hloop rangesLoop_ne_nil
  · cases h
    rw [finish_status (by exact hheader.status)]
    decide
  · cases h
    rw [finish_status hheader.status]
    decide

end Prepared

/-- **What an answer carries**: the file, nothing at all, or it is no `200`. -/
theorem respond_spec {srv : FileServer} {r : Get} {cf : Cached} {mm : MimeType} {resp : Response}
    (h : srv.respond r (.new .OK) cf mm = .ok resp) :
    (resp.status = .OK ∧ srv.notModified r cf mm = false ∧ Whole r mm ∧
        carried resp = cf.file.content) ∨
      (resp.status = .OK ∧ srv.notModified r cf mm = false ∧ ¬ Whole r mm ∧
        strchr r.range EQUALS = none ∧ carried resp = []) ∨
      (resp.status ≠ .OK ∧ (srv.notModified r cf mm = false → ¬ Whole r mm ∧
        strchr r.range EQUALS ≠ none)) := by
  have hnew : Plain (.new .OK) := ⟨rfl, rfl, rfl⟩
  rw [respond] at h
  cases hmod : srv.notModified r cf mm with
  | true =>
      rw [hmod] at h
      cases h
      right; right
      refine ⟨?_, fun hfalse => nomatch hfalse⟩
      rw [finish_status hnew.status]
      decide
  | false =>
      rw [hmod] at h
      simp only [Bool.false_eq_true, if_false] at h
      -- the headers of the cache change neither the status nor what is carried
      have hplain : Plain ((if mm.allow_caching then srv.cache_control (.new .OK) cf mm
          else .new .OK).header srv.hash (str "Content-Type") mm.mime) := by
        apply Plain.header
        split_ifs
        · rw [cache_control]
          split_ifs
          · exact (hnew.header _ _ _).header _ _ _
          · exact hnew.header _ _ _
        · exact hnew
      split at h
      · cases h
      next resp₁ hprep =>
      cases h
      by_cases hwhole : Whole r mm
      · obtain ⟨hstatus, hcarried⟩ := prepare_whole hplain hwhole hprep
        exact .inl ⟨hstatus, rfl, hwhole, hcarried⟩
      -- a range is asked for and allowed
      · have hrange : r.range ≠ [] ∧ mm.allow_range = true := by
          rw [Whole, not_or, Bool.not_eq_false] at hwhole
          exact hwhole
        cases heq : strchr r.range EQUALS with
        | none =>
            obtain ⟨hstatus, hcarried⟩ := prepare_bare hplain hrange heq hprep
            exact .inr (.inl ⟨hstatus, rfl, hwhole, rfl, hcarried⟩)
        | some q =>
            have hstatus := prepare_ranged hplain hrange heq hprep
            exact .inr (.inr ⟨hstatus, fun _ => ⟨hwhole, Option.some_ne_none q⟩⟩)

/-! ## Runs -/

/-- An answer is exact when the request matches those before it. -/
private theorem exact_iff {srv : FileServer} {seen : List Get} {r : Get} {t : Target}
    {mm : MimeType} {cf : Cached} {resp : Response} (ht : srv.target r.url = some t)
    (hmm : srv.mime_types t.ext = some mm)
    (hcf : srv.source (seen ++ [r]) t.stem = some cf)
    (h : srv.respond r (.new .OK) cf mm = .ok resp) :
    srv.Exact r (some resp) ↔ srv.Matches seen r := by
  have hexact : srv.Exact r (some resp) ↔
      (resp.status = .OK → srv.Resolves t (carried resp)) := by
    constructor
    · intro hex hok
      obtain ⟨t', ht', hres⟩ := hex resp rfl hok
      rw [ht] at ht'
      cases ht'
      exact hres
    · intro hres resp' heq hok
      cases heq
      exact ⟨t, ht, hres hok⟩
  have hmatches : srv.Matches seen r ↔ (srv.notModified r cf mm = false →
      (Whole r mm → srv.Resolves t cf.file.content) ∧
        (¬ Whole r mm → strchr r.range EQUALS = none → srv.Resolves t [])) := by
    constructor
    · exact fun hm => hm t mm cf ht hmm hcf
    · intro hm t' mm' cf' ht' hmm' hcf'
      rw [ht] at ht'
      cases ht'
      rw [hmm] at hmm'
      cases hmm'
      rw [hcf] at hcf'
      cases hcf'
      exact hm
  rw [hexact, hmatches]
  rcases respond_spec h with ⟨hok, hmod, hwhole, hcar⟩ | ⟨hok, hmod, hpart, hbare, hcar⟩ |
    ⟨hnot, hpart⟩
  · rw [hcar]
    exact ⟨fun hres _ => ⟨fun _ => hres hok, fun hn => absurd hwhole hn⟩,
      fun hm _ => (hm hmod).1 hwhole⟩
  · rw [hcar]
    exact ⟨fun hres _ => ⟨fun hw => absurd hw hpart, fun _ _ => hres hok⟩,
      fun hm _ => (hm hmod).2 hpart hbare⟩
  · exact ⟨fun _ hmod => ⟨fun hw => absurd hw (hpart hmod).1, fun _ hb => absurd hb (hpart hmod).2⟩,
      fun _ hok => absurd hok hnot⟩

/-- Nothing is asked of a request for a path without a file. -/
private theorem matches_of_none {srv : FileServer} {seen : List Get} {r : Get} {t : Target}
    (ht : srv.target r.url = some t)
    (hnone : srv.mime_types t.ext ≠ none → srv.source (seen ++ [r]) t.stem = none) :
    srv.Matches seen r := by
  intro t' mm cf ht' hmm hcf
  rw [ht] at ht'
  cases ht'
  rw [hnone (by rw [hmm]; exact Option.some_ne_none mm)] at hcf
  cases hcf

private theorem get_spec {srv : FileServer} {seen : List Get} {r : Get} {t : Target} {cache : Cache}
    {o : Option Response} (ht : srv.target r.url = some t)
    (h : srv.get (srv.cacheOf seen) r (.new .OK) t = .ok (cache, o)) :
    cache = srv.cacheOf (seen ++ [r]) ∧ (o = none → srv.Matches seen r) ∧
      ∀ resp, o = some resp → (srv.Exact r (some resp) ↔ srv.Matches seen r) := by
  rw [get] at h
  cases hmm : srv.mime_types t.ext with
  | none =>
      rw [hmm] at h
      cases h
      have hentry : srv.entry r = none := by
        rw [entry, ht]
        simp only [bind, Option.bind_some, hmm, Option.bind_none]
      refine ⟨(cacheOf_none hentry seen).symm, fun _ => ?_, fun resp hresp => nomatch hresp⟩
      exact matches_of_none ht fun hne => absurd hmm hne
  | some mm =>
      simp only [hmm] at h
      obtain ⟨⟨cache', sf⟩, hload, h⟩ := Except.ok_of_bind h
      obtain ⟨hcache, hsf⟩ := load_file_spec ht hmm hload
      cases sf with
      | none =>
          cases h
          refine ⟨hcache, fun _ => ?_, fun resp hresp => nomatch hresp⟩
          exact matches_of_none ht fun _ => hsf.symm
      | some cf =>
          obtain ⟨resp, hresp, h⟩ := Except.ok_of_bind h
          cases h
          refine ⟨hcache, (fun hnone => nomatch hnone), fun resp' heq => ?_⟩
          cases heq
          exact exact_iff ht hmm hsf.symm hresp

/-- **One request**: the cache is that of the requests so far, and the answer is exact when the request
matches those before it. -/
theorem handle_spec {srv : FileServer} {seen : List Get} {r : Get} {cache : Cache}
    {reply : Option Response} (h : srv.handle (srv.cacheOf seen) r = .ok (cache, reply)) :
    cache = srv.cacheOf (seen ++ [r]) ∧ (srv.Exact r reply ↔ srv.Matches seen r) := by
  rw [handle] at h
  cases ht : srv.target r.url with
  | none =>
      rw [ht] at h
      cases h
      have hentry : srv.entry r = none := by
        rw [entry, ht]
        rfl
      refine ⟨(cacheOf_none hentry seen).symm, iff_of_true ?_ ?_⟩
      · intro resp hresp
        cases hresp
      · intro t mm cf ht'
        rw [ht] at ht'
        cases ht'
  | some t =>
      simp only [ht] at h
      obtain ⟨⟨cache', o⟩, hget, h⟩ := Except.ok_of_bind h
      obtain ⟨hcache, hnone, hsome⟩ := get_spec ht hget
      cases o with
      | none =>
          cases h
          refine ⟨hcache, iff_of_true ?_ (hnone rfl)⟩
          -- the page that says so is no `200`
          intro resp hresp hok
          cases hresp
          rw [finish_status rfl] at hok
          cases hok
      | some resp =>
          cases h
          exact ⟨hcache, hsome resp rfl⟩

private theorem serveAll_spec {srv : FileServer} {reqs : List Get} {seen : List Get}
    {replies : List (Option Response)}
    (h : srv.serveAll (srv.cacheOf seen) reqs = .ok replies) :
    (∀ p ∈ reqs.zip replies, srv.Exact p.1 p.2) ↔
      ∀ pre r post, reqs = pre ++ r :: post → srv.Matches (seen ++ pre) r := by
  induction reqs generalizing seen replies with
  | nil =>
      apply iff_of_true
      · intro p hp
        cases hp
      · intro pre r post heq
        exact absurd heq.symm (by simp)
  | cons r reqs ih =>
      rw [serveAll] at h
      obtain ⟨⟨cache, reply⟩, hhandle, h⟩ := Except.ok_of_bind h
      obtain ⟨rfl, hexact⟩ := handle_spec hhandle
      obtain ⟨rest, hrest, h⟩ := Except.ok_of_bind h
      cases h
      rw [List.zip_cons_cons, List.forall_mem_cons, ih hrest, hexact]
      constructor
      · rintro ⟨hfirst, hall⟩ pre q post heq
        cases pre with
        | nil =>
            cases heq
            rw [List.append_nil]
            exact hfirst
        | cons p pre =>
            cases heq
            have hq := hall pre q post rfl
            rwa [List.append_assoc] at hq
      · intro hall
        refine ⟨?_, ?_⟩
        · have hr := hall [] r reqs rfl
          rwa [List.append_nil] at hr
        · -- the request in front of them is one of those before
          intro pre q post heq
          have hq := hall (r :: pre) q post (by rw [heq]; rfl)
          rwa [List.append_assoc]

/-- `a.html` and `a.css` under `/w/`. -/
def twoFiles : FileSystem where
  realpath path :=
    if path = str "/w//a.html" then some (str "/w/a.html")
    else if path = str "/w//a.css" then some (str "/w/a.css")
    else none
  unresolved path := path
  file path :=
    if path = str "/w/a.html" then
      some { content := str "<p>", last_mod := 0, readable := true, len_lt := by decide }
    else if path = str "/w/a.css" then
      some { content := str "p{}", last_mod := 0, readable := true, len_lt := by decide }
    else none

def twoFilesServer : FileServer where
  config := { enable_send_file := true, send_chunk := 4096 }
  mapped_min := 2048
  www_dir := str "/w/"
  mime_types ext :=
    if ext = str ".html" then some ⟨str "text/html", false, true, 86400⟩
    else if ext = str ".css" then some ⟨str "text/css", true, true, 86400⟩
    else none
  redirects _ := none
  fs := twoFiles
  page_size := 4096
  hash _ := 0
  datetime _ := 0
  httpFormat _ := str "Thu, 01 Jan 1970 00:00:00 GMT"

def getPage : Get := ⟨str "/a.html", [], []⟩
def getStyle : Get := ⟨str "/a.css", [], []⟩

end FileServer

end Suil.Http
