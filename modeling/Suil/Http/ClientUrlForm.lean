import Suil.Http.ClientForm
import Suil.Http.UrlForm

set_option autoImplicit false

/-! # Forms in URL encoding, from the client to the server

`Form::append_args` (`clientapi.h`) escapes the names and the values of such a form with
`utils::urlencode`, and `Form::encode` (`client.cpp`) writes them with `=` and `&` between them.
`Request::parse_url_encoded_form` (`request.cpp`) decodes the values and stores the names as they are.
`delivered_iff` says which forms arrive. -/

namespace Suil.Http.ClientApi

/-! ## Forms that arrive -/

/-- A request with such a form that has not been sent before, and nothing else to send. The map gives
the fields in an order of its own. -/
structure Posting (form : Form) (r : Request) : Prop where
  method : r.method = .Put ∨ r.method = .Post
  encoding : r.form.encoding = .URL_ENCODED
  data : r.form.data.Perm form.data
  uploads : r.form.uploads = []
  body : r.body.Usable ∧ r.body.contents = []
  bodyFd : r.bodyFd = none

/-- Fields with `=` and `&` between them. -/
def joined (data : List (Bytes × Bytes)) : Bytes :=
  [AMP].intercalate (data.map fun p => p.1 ++ EQUALS :: p.2)

/-- A field as it is sent. -/
def escaped (p : Bytes × Bytes) : Bytes × Bytes :=
  (p.1.flatMap UrlCodec.encoded, p.2.flatMap UrlCodec.encoded)

/-- The form of the request of the server has exactly the fields. -/
def Delivered {σ : Type} (hash : Bytes → UInt64) (srv : Suil.Http.Request σ)
    (fields : List (Bytes × Bytes)) : Prop :=
  ∀ stale, ∃ form, Suil.Http.Request.parse_url_encoded_form hash stale srv = .ok (true, form) ∧
    (form.map fun e => (e.1, e.2.read)).Perm (fields.map fun p => (p.1, some p.2))

/-- Some byte of the text is written as it is: there is a place for the terminator. -/
def Escapable (s : Bytes) : Prop := ∃ c ∈ s, UrlCodec.isPlain c = true

instance (s : Bytes) : Decidable (Escapable s) :=
  inferInstanceAs (Decidable (∃ c ∈ s, UrlCodec.isPlain c = true))

/-- A field whose name is not changed and whose value the decoder has room for. -/
def Carriable (p : Bytes × Bytes) : Prop :=
  (∀ c ∈ p.1, UrlCodec.isPlain c = true) ∧ p.2.length ≤ 1024

/-! ## Escaped texts -/

set_option maxRecDepth 8000 in
private theorem isPlain_inner (c : UInt8) (h : UrlCodec.isPlain c = true) : c ≠ AMP ∧ c ≠ EQUALS :=
  forall_byte (P := fun c => UrlCodec.isPlain c = true → c ≠ AMP ∧ c ≠ EQUALS) (by decide) c h

/-- No separator is left in what is written for a byte, and a NUL only of a NUL. -/
private theorem encoded_inner {b c : UInt8} (h : b ∈ UrlCodec.encoded c) :
    b ≠ AMP ∧ b ≠ EQUALS ∧ (b = NUL → c = NUL) := by
  rw [UrlCodec.encoded] at h
  cases hplain : UrlCodec.isPlain c with
  | true =>
      rw [hplain, if_neg (by decide)] at h
      rw [List.mem_singleton.mp h]
      exact ⟨(isPlain_inner c hplain).1, (isPlain_inner c hplain).2, id⟩
  | false =>
      rw [hplain, if_pos (by decide)] at h
      obtain ⟨hhigh, hlow, -⟩ := UrlCodec.digits_spec c
      have hhex : ∀ d, UrlCodec.isHexChar d = true → d ≠ AMP ∧ d ≠ EQUALS ∧ (d = NUL → c = NUL) := by
        intro d hd
        obtain ⟨hzero, hamp, hequals, -⟩ := Suil.Http.Request.isHexChar_inner d hd
        exact ⟨hamp, hequals, fun heq => absurd heq hzero⟩
      rcases List.mem_cons.mp h with rfl | h
      · exact ⟨by decide, by decide, fun heq => absurd heq (by decide)⟩
      · rcases List.mem_cons.mp h with rfl | h
        · exact hhex _ hhigh
        · rw [List.mem_singleton.mp h]
          exact hhex _ hlow

private theorem inner_of_mem {s : Bytes} (hnul : NUL ∉ s) {b : UInt8}
    (hb : b ∈ s.flatMap UrlCodec.encoded) : b ≠ NUL ∧ b ≠ AMP ∧ b ≠ EQUALS := by
  obtain ⟨c, hc, hmem⟩ := List.mem_flatMap.mp hb
  obtain ⟨hamp, hequals, hzero⟩ := encoded_inner hmem
  exact ⟨fun heq => hnul (hzero heq ▸ hc), hamp, hequals⟩

/-- A text is its own encoding when it has plain bytes only. -/
private theorem length_escaped_iff (s : Bytes) : (s.flatMap UrlCodec.encoded).length = s.length ↔
    ∀ c ∈ s, UrlCodec.isPlain c = true := by
  induction s with
  | nil => exact iff_of_true rfl nofun
  | cons c s ih =>
      have hle := (UrlCodec.encode_length_le s).1
      rw [List.flatMap_cons, List.length_append, List.length_cons, UrlCodec.encoded_length,
        List.forall_mem_cons, ← ih]
      split_ifs with hc
      · rw [and_iff_right hc]
        omega
      · exact iff_of_false (by omega) fun h => hc h.1

private theorem escaped_of_plain {s : Bytes} (h : ∀ c ∈ s, UrlCodec.isPlain c = true) :
    s.flatMap UrlCodec.encoded = s := by
  induction s with
  | nil => rfl
  | cons c s ih =>
      obtain ⟨hc, hs⟩ := List.forall_mem_cons.mp h
      rw [List.flatMap_cons, ih hs, UrlCodec.encoded, hc]
      rfl

/-- A text that is not too large is encoded when there is a place for the terminator. -/
private theorem urlencode_of_lt {s : Bytes} (hlt : (s.flatMap UrlCodec.encoded).length < 2 ^ 32) :
    UrlCodec.urlencode s = if Escapable s then some (s.flatMap UrlCodec.encoded) else none := by
  rw [UrlCodec.urlencode_eq, Nat.mod_eq_of_lt hlt, List.take_length]
  rfl

/-- A value comes out as it was exactly when the decoder has room for it. -/
private theorem urldecode_escaped_iff {v : Bytes} (hnul : NUL ∉ v) (hplain : Escapable v)
    (hlt : (v.flatMap UrlCodec.encoded).length < 2 ^ 32) :
    (∃ t, UrlCodec.urldecode (v.flatMap UrlCodec.encoded) = some t ∧ t.read = some v) ↔
      v.length ≤ 1024 := by
  have htrip := UrlCodec.urlRoundTrips_iff v
  rw [UrlCodec.RoundTrips, urlencode_of_lt hlt, if_pos hplain] at htrip
  constructor
  · rintro ⟨t, ht, hread⟩
    exact (htrip.mp ⟨_, t, rfl, ht, hread⟩).2.1
  · intro hlen
    obtain ⟨e, t, he, ht, hread⟩ :=
      htrip.mpr ⟨hplain, hlen, fun h => hnul (List.mem_of_mem_dropLast h)⟩
    exact ⟨t, Option.some.inj he ▸ ht, hread⟩

/-! ## The text of a form -/

section

variable {data : List (Bytes × Bytes)}

private theorem joined_cons (p : Bytes × Bytes) (ps : List (Bytes × Bytes)) : joined (p :: ps) =
    p.1 ++ EQUALS :: p.2 ++ ps.flatMap fun p => AMP :: (p.1 ++ EQUALS :: p.2) := by
  induction ps generalizing p with
  | nil => rw [joined, List.map_singleton, List.intercalate_singleton, List.flatMap_nil, List.append_nil]
  | cons q ps ih =>
      have hq := ih q
      rw [joined, List.map_cons] at hq
      rw [joined, List.map_cons, List.map_cons, List.intercalate_cons_cons, hq, List.flatMap_cons,
        List.append_assoc (p.1 ++ EQUALS :: p.2)]
      rfl

/-- What is written is the text of the fields. -/
private theorem urlPieces_flatten (data : List (Bytes × Bytes)) :
    (Form.urlPieces data).flatten = joined data := by
  cases data with
  | nil => rfl
  | cons p ps =>
      have hrest : (ps.flatMap fun p => [str "&", p.1, str "=", p.2]).flatten =
          ps.flatMap fun p => AMP :: (p.1 ++ EQUALS :: p.2) := by
        induction ps with
        | nil => rfl
        | cons q ps ih =>
            rw [List.flatMap_cons, List.flatten_append, ih, List.flatMap_cons]
            simp [str, AMP, EQUALS]
      rw [joined_cons, Form.urlPieces, List.flatten_append, hrest]
      simp [str, EQUALS]

/-- Two separators less one for each field. -/
private theorem length_joined (hne : data ≠ []) : (joined data).length + 1 =
    (data.map fun p => p.1.length + p.2.length + 2).sum := by
  obtain ⟨p, ps, rfl⟩ := List.exists_cons_of_ne_nil hne
  have hrest : (ps.flatMap fun p => AMP :: (p.1 ++ EQUALS :: p.2)).length =
      (ps.map fun p => p.1.length + p.2.length + 2).sum := by
    induction ps with
    | nil => rfl
    | cons q ps ih =>
        rw [List.flatMap_cons, List.length_append, ih (List.cons_ne_nil _ _), List.map_cons,
          List.sum_cons]
        simp only [List.length_cons, List.length_append]
        omega
  rw [joined_cons, List.length_append, hrest, List.map_cons, List.sum_cons]
  simp only [List.length_cons, List.length_append]
  omega

private theorem joined_ne_nil (hne : data ≠ []) : joined data ≠ [] := by
  obtain ⟨p, ps, rfl⟩ := List.exists_cons_of_ne_nil hne
  rw [joined_cons]
  simp

/-- A field of a text is not longer than the text. -/
private theorem length_field_le {p : Bytes × Bytes} (hp : p ∈ data) :
    p.1.length + p.2.length + 1 ≤ (joined data).length := by
  have hlen := length_joined (List.ne_nil_of_mem hp)
  have hle := List.single_le_sum (fun _ _ => Nat.zero_le _) _
    (List.mem_map_of_mem (f := fun p : Bytes × Bytes => p.1.length + p.2.length + 2) hp)
  omega

/-- Without some of the fields the text is not longer. -/
private theorem length_joined_le {kept all : List (Bytes × Bytes)} (hne : data ≠ []) (hall : all ≠ [])
    (hperm : data.Perm kept) (hsublist : kept.Sublist all) :
    (joined data).length ≤ (joined all).length := by
  have hsum := (hsublist.map fun p : Bytes × Bytes => p.1.length + p.2.length + 2).sum_le_sum
    fun _ _ => Nat.zero_le _
  have heq := (hperm.map fun p : Bytes × Bytes => p.1.length + p.2.length + 2).sum_eq
  have hlen := length_joined hne
  have hlen' := length_joined hall
  omega

end

/-! ## The form of the client -/

section

variable {fields : List (Bytes × Bytes)}

/-- Fields are appended one after the other when each of them can be escaped. -/
private theorem append_fields (size : Bytes → Nat) (f : Form) (hf : f.encoding = .URL_ENCODED)
    (hlt : ∀ p ∈ fields, (escaped p).1.length < 2 ^ 32 ∧ (escaped p).2.length < 2 ^ 32) :
    (fields.map fun p => Form.Arg.field p.1 p.2).foldlM (Form.append_args size) f =
      if ∀ p ∈ fields, Escapable p.1 ∧ Escapable p.2 then
        some { f with
          data := (fields.map escaped).foldl (fun m e => AssocMap.emplace (· == ·) m e.1 e.2) f.data }
      else none := by
  -- on the fields, with any form to append to: the first that cannot be escaped is a write outside
  induction fields generalizing f with
  | nil => exact (if_pos nofun).symm
  | cons p fields ih =>
      obtain ⟨hp, hlt⟩ := List.forall_mem_cons.mp hlt
      have hname := urlencode_of_lt hp.1
      have hvalue := urlencode_of_lt hp.2
      rw [List.map_cons, List.foldlM_cons, Form.append_args, if_pos hf, hname, hvalue]
      by_cases hplain : Escapable p.1 ∧ Escapable p.2
      · rw [if_pos hplain.1, if_pos hplain.2]
        simp only [List.forall_mem_cons, and_iff_right hplain, List.map_cons, List.foldl_cons]
        exact ih { f with data := AssocMap.emplace (· == ·) f.data (escaped p).1 (escaped p).2 } hf hlt
      · have hnot : ¬ ∀ q ∈ p :: fields, Escapable q.1 ∧ Escapable q.2 :=
          fun hall => hplain (hall p List.mem_cons_self)
        rw [if_neg hnot]
        by_cases hfirst : Escapable p.1
        · rw [if_pos hfirst, if_neg fun hsecond => hplain ⟨hfirst, hsecond⟩]
          rfl
        · rw [if_neg hfirst]
          rfl

/-- The form of the fields: of those with one name it has the first. -/
private theorem new_eq (size : Bytes → Nat) (boundary : Bytes)
    (hlt : ∀ p ∈ fields, (escaped p).1.length < 2 ^ 32 ∧ (escaped p).2.length < 2 ^ 32) :
    Form.new size .URL_ENCODED boundary (fields.map fun p => .field p.1 p.2) =
      if ∀ p ∈ fields, Escapable p.1 ∧ Escapable p.2 then
        some ⟨.URL_ENCODED, [], boundary, [], AssocMap.insertAll (· == ·) (fields.map escaped)⟩
      else none :=
  append_fields size ⟨.URL_ENCODED, [], boundary, [], []⟩ rfl hlt

/-! ## What the server has of it -/

variable {σ : Type} {hash : Bytes → UInt64} {data : List (Bytes × Bytes)}

/-- The fields are cut as they were joined, and what is stored for them is what arrives. -/
private theorem delivered_iff_stored (hnul : ∀ p ∈ fields, NUL ∉ p.1 ∧ NUL ∉ p.2) (hne : data ≠ [])
    (hdata : ∀ q ∈ data, ∃ p ∈ fields, escaped p = q) (srv : Suil.Http.Request σ) (spare : Bytes)
    (size : Nat) (hroom : (joined data).length ≤ OBuffer.UINT32 - 10) :
    Delivered hash ((srv.counting (joined data).length).inMemory spare size (joined data) 0) fields ↔
      ∃ entries, List.Forall₂ Suil.Http.Request.DecodesTo data entries ∧
        ((AssocMap.insertAll (Cookies.taken hash) entries).map fun e => (e.1, e.2.read)).Perm
          (fields.map fun p => (p.1, some p.2)) := by
  -- no separator is left in an escaped name or value, so that the parts are the fields
  have hinner : ∀ q ∈ data, (∀ b ∈ q.1, b ≠ NUL ∧ b ≠ AMP ∧ b ≠ EQUALS) ∧
      ∀ b ∈ q.2, b ≠ NUL ∧ b ≠ AMP ∧ b ≠ EQUALS := by
    intro q hq
    obtain ⟨p, hp, rfl⟩ := hdata q hq
    exact ⟨fun b => inner_of_mem (hnul p hp).1, fun b => inner_of_mem (hnul p hp).2⟩
  have hsplit : split AMP (joined data) = data.map fun p => p.1 ++ EQUALS :: p.2 := by
    refine Suil.Http.Request.split_intercalate (fun s hs => ?_) fun hnil =>
      hne (List.map_eq_nil_iff.mp hnil)
    obtain ⟨q, hq, rfl⟩ := List.mem_map.mp hs
    obtain ⟨hname, hvalue⟩ := hinner q hq
    simp only [List.mem_append, List.mem_cons, not_or]
    exact ⟨⟨fun h => (hname _ h).1 rfl, by decide, fun h => (hvalue _ h).1 rfl⟩,
      ⟨fun h => (hname _ h).2.1 rfl, by decide, fun h => (hvalue _ h).2.1 rfl⟩,
      List.append_ne_nil_of_right_ne_nil _ (List.cons_ne_nil _ _)⟩
  have hparse := fun stale => @Suil.Http.Request.parse_of_room σ hash srv spare size stale _
    (joined_ne_nil hne) hroom
  rw [hsplit] at hparse
  have hstore := @Suil.Http.Request.storeParts_texts_iff hash data fun q hq h =>
    ((hinner q hq).1 _ h).2.2 rfl
  constructor
  -- what is left of an earlier form makes no difference: take none
  · intro h
    obtain ⟨form, hres, hperm⟩ := h false
    rw [hparse] at hres
    cases hrun : Suil.Http.Request.storeParts hash (data.map fun p => p.1 ++ EQUALS :: p.2) [] with
    | error e =>
        rw [hrun] at hres
        nomatch hres
    | ok form' =>
        rw [hrun] at hres
        obtain ⟨entries, hentries, hform⟩ := hstore.mp hrun
        rw [← (Prod.mk.inj (Except.ok.inj hres)).2, hform] at hperm
        exact ⟨entries, hentries, hperm⟩
  · rintro ⟨entries, hentries, hperm⟩ stale
    refine ⟨_, ?_, hperm⟩
    rw [hparse, hstore.mpr ⟨entries, hentries, rfl⟩]
    rfl

private theorem keys_of_decodes {entries : List (Bytes × UrlCodec.Text)}
    (h : List.Forall₂ Suil.Http.Request.DecodesTo data entries) :
    entries.map Prod.fst = data.map Prod.fst := by
  induction h with
  | nil => rfl
  | cons he hrest ih => rw [List.map_cons, List.map_cons, he.1, ih]

private theorem exists_of_decodes {entries : List (Bytes × UrlCodec.Text)}
    (h : List.Forall₂ Suil.Http.Request.DecodesTo data entries) :
    ∀ e ∈ entries, ∃ q ∈ data, Suil.Http.Request.DecodesTo q e := by
  induction h with
  | nil => exact nofun
  | cons he hrest ih =>
      refine List.forall_mem_cons.mpr ⟨⟨_, List.mem_cons_self, he⟩, fun e hmem => ?_⟩
      obtain ⟨q, hq, hdecodes⟩ := ih e hmem
      exact ⟨q, List.mem_cons_of_mem _ hq, hdecodes⟩

private theorem exists_decodes
    (h : ∀ q ∈ data, ∃ t, UrlCodec.urldecode q.2 = some t ∧ t.read = some (UrlCodec.decoded q.2)) :
    ∃ entries, List.Forall₂ Suil.Http.Request.DecodesTo data entries ∧
      (entries.map fun e => (e.1, e.2.read)) =
        data.map fun q => (q.1, some (UrlCodec.decoded q.2)) := by
  induction data with
  | nil => exact ⟨[], .nil, rfl⟩
  | cons q data ih =>
      obtain ⟨⟨t, ht, hread⟩, hdata⟩ := List.forall_mem_cons.mp h
      obtain ⟨entries, hentries, hall⟩ := ih hdata
      refine ⟨(q.1, t) :: entries, .cons ⟨rfl, ht⟩ hentries, ?_⟩
      rw [List.map_cons, List.map_cons, hall, hread]

/-- Names that are all different are all in the form of the client. -/
private theorem nodup_of_insertAll
    (h : AssocMap.insertAll (· == ·) (fields.map escaped) = fields.map escaped) :
    (fields.map fun p => (escaped p).1).Nodup := by
  have hpairwise : (AssocMap.insertAll (· == ·) (fields.map escaped)).Pairwise
      fun e e' => (e.1 == e'.1) = false := AssocMap.insertAll_pairwise _
  rw [h, List.pairwise_map] at hpairwise
  rw [List.Nodup, List.pairwise_map]
  exact hpairwise.imp fun hne => beq_eq_false_iff_ne.mp hne

/-- As many entries as fields: none is left out, by the client or by the server. -/
private theorem all_of_stored {entries : List (Bytes × UrlCodec.Text)}
    (hdata : data.Perm (AssocMap.insertAll (· == ·) (fields.map escaped)))
    (hentries : List.Forall₂ Suil.Http.Request.DecodesTo data entries)
    (hperm : ((AssocMap.insertAll (Cookies.taken hash) entries).map fun e => (e.1, e.2.read)).Perm
      (fields.map fun p => (p.1, some p.2))) :
    AssocMap.insertAll (Cookies.taken hash) entries = entries ∧
      AssocMap.insertAll (· == ·) (fields.map escaped) = fields.map escaped := by
  have hserver : (AssocMap.insertAll (Cookies.taken hash) entries).Sublist entries :=
    AssocMap.insertAll_sublist entries
  have hclient : (AssocMap.insertAll (· == ·) (fields.map escaped)).Sublist (fields.map escaped) :=
    AssocMap.insertAll_sublist _
  have hlength := hperm.length_eq
  rw [List.length_map, List.length_map] at hlength
  have hcount := hentries.length_eq.symm.trans hdata.length_eq
  have hfewer := hserver.length_le
  have hfewer' := hclient.length_le
  rw [List.length_map] at hfewer'
  exact ⟨hserver.eq_of_length (by omega), hclient.eq_of_length (by rw [List.length_map]; omega)⟩

section

variable (hnul : ∀ p ∈ fields, NUL ∉ p.1 ∧ NUL ∉ p.2)
  (hplain : ∀ p ∈ fields, Escapable p.1 ∧ Escapable p.2)
  (hlt : ∀ p ∈ fields, (escaped p).1.length < 2 ^ 32 ∧ (escaped p).2.length < 2 ^ 32)
  (hdata : data.Perm (AssocMap.insertAll (· == ·) (fields.map escaped)))
include hnul hplain hlt hdata

/-- Fields that all arrive have names that are not changed, and values that the decoder has room for. -/
private theorem carriable_of_stored {entries : List (Bytes × UrlCodec.Text)}
    (hentries : List.Forall₂ Suil.Http.Request.DecodesTo data entries)
    (hperm : ((AssocMap.insertAll (Cookies.taken hash) entries).map fun e => (e.1, e.2.read)).Perm
      (fields.map fun p => (p.1, some p.2))) :
    (∀ p ∈ fields, Carriable p) ∧ Multipart.Distinct hash fields := by
  obtain ⟨hall, hall'⟩ := all_of_stored hdata hentries hperm
  have hpairwise : (AssocMap.insertAll (Cookies.taken hash) entries).Pairwise
      fun e e' => Cookies.taken hash e.1 e'.1 = false := AssocMap.insertAll_pairwise entries
  rw [hall] at hperm hpairwise
  rw [hall'] at hdata
  -- the server does not decode names: those of the fields are the escaped ones in another order
  have hkeys : (fields.map fun p => (escaped p).1).Perm (fields.map Prod.fst) := by
    have hfst := hperm.map Prod.fst
    rw [List.map_map, List.map_map] at hfst
    have hown := hdata.map Prod.fst
    rw [List.map_map] at hown
    exact hown.symm.trans ((List.Perm.of_eq (keys_of_decodes hentries).symm).trans hfst)
  -- escaping never makes a name shorter, so that none has become longer
  have hnames : ∀ p ∈ fields, ∀ c ∈ p.1, UrlCodec.isPlain c = true := by
    intro p hp
    have hsame : ∀ s ∈ fields.map Prod.fst, (s.flatMap UrlCodec.encoded).length = s.length :=
      Suil.Http.Request.length_of_map_perm (fun s => (UrlCodec.encode_length_le s).1)
        (by rw [List.map_map]; exact hkeys)
    exact (length_escaped_iff p.1).mp (hsame p.1 (List.mem_map_of_mem hp))
  have hown : ∀ p ∈ fields, (escaped p).1 = p.1 := fun p hp => escaped_of_plain (hnames p hp)
  have hnodup := nodup_of_insertAll hall'
  rw [List.map_congr_left hown] at hnodup
  refine ⟨fun p hp => ⟨hnames p hp, ?_⟩, ?_⟩
  · -- the entry with this name is made of this field
    obtain ⟨e, he, hpair⟩ := List.mem_map.mp (hperm.mem_iff.mpr (List.mem_map_of_mem hp))
    obtain ⟨q, hq, hdecodes⟩ := exists_of_decodes hentries e he
    obtain ⟨p', hp', rfl⟩ := List.mem_map.mp (hdata.mem_iff.mp hq)
    have hname : p'.1 = p.1 :=
      (hown p' hp').symm.trans (hdecodes.1.symm.trans (Prod.mk.inj hpair).1)
    obtain rfl := List.inj_on_of_nodup_map hnodup hp' hp hname
    exact (urldecode_escaped_iff (hnul _ hp).2 (hplain _ hp).2 (hlt _ hp).2).mp
      ⟨e.2, hdecodes.2, (Prod.mk.inj hpair).2⟩
  · have hnamed : (entries.map Prod.fst).Perm (fields.map Prod.fst) := by
      have hfst := hperm.map Prod.fst
      rwa [List.map_map, List.map_map] at hfst
    have hpairwise' : (entries.map Prod.fst).Pairwise fun a b => Cookies.taken hash a b = false :=
      List.pairwise_map.mpr hpairwise
    exact List.pairwise_map.mp (hnamed.pairwise hpairwise' fun hab => Cookies.taken_comm hash _ _ ▸ hab)

/-- Such fields all arrive when no name is found under an earlier one. -/
private theorem stored_of_carriable (hcarried : ∀ p ∈ fields, Carriable p)
    (hdistinct : Multipart.Distinct hash fields) :
    ∃ entries, List.Forall₂ Suil.Http.Request.DecodesTo data entries ∧
      ((AssocMap.insertAll (Cookies.taken hash) entries).map fun e => (e.1, e.2.read)).Perm
        (fields.map fun p => (p.1, some p.2)) := by
  have hown : ∀ p ∈ fields, (escaped p).1 = p.1 := fun p hp => escaped_of_plain (hcarried p hp).1
  -- names that the server keeps apart are different ones, and the client keeps them all
  have hall : AssocMap.insertAll (· == ·) (fields.map escaped) = fields.map escaped := by
    refine AssocMap.insertAll_of_pairwise (List.pairwise_map.mpr ?_)
    refine hdistinct.imp_of_mem fun hp hq htaken => beq_eq_false_iff_ne.mpr fun heq => ?_
    rw [hown _ hp, hown _ hq] at heq
    rw [heq, Cookies.taken, mapCaseEq, strncaseEq_self, decide_eq_true rfl] at htaken
    cases htaken
  rw [hall] at hdata
  have hdecoded : ∀ p ∈ fields, UrlCodec.decoded (escaped p).2 = p.2 :=
    fun p _ => UrlCodec.decoded_encode p.2
  have hvalues : ∀ q ∈ data, ∃ t, UrlCodec.urldecode q.2 = some t ∧
      t.read = some (UrlCodec.decoded q.2) := by
    intro q hq
    obtain ⟨p, hp, rfl⟩ := List.mem_map.mp (hdata.mem_iff.mp hq)
    rw [hdecoded p hp]
    exact (urldecode_escaped_iff (hnul p hp).2 (hplain p hp).2 (hlt p hp).2).mpr (hcarried p hp).2
  obtain ⟨entries, hentries, hread⟩ := exists_decodes hvalues
  have hkeys : (entries.map Prod.fst).Perm (fields.map Prod.fst) := by
    rw [keys_of_decodes hentries]
    refine (hdata.map Prod.fst).trans (List.Perm.of_eq ?_)
    rw [List.map_map]
    exact List.map_congr_left hown
  have hnames : (fields.map Prod.fst).Pairwise fun a b => Cookies.taken hash a b = false :=
    List.pairwise_map.mpr hdistinct
  have hpairwise : entries.Pairwise fun e e' => Cookies.taken hash e.1 e'.1 = false :=
    List.pairwise_map.mp (hkeys.symm.pairwise hnames fun hab => Cookies.taken_comm hash _ _ ▸ hab)
  refine ⟨entries, hentries, ?_⟩
  rw [AssocMap.insertAll_of_pairwise hpairwise, hread]
  refine (hdata.map _).trans (List.Perm.of_eq ?_)
  rw [List.map_map]
  exact List.map_congr_left fun p hp => by rw [Function.comp_apply, hown p hp, hdecoded p hp]

end

/-! ## The request -/

/-- What is declared and what is sent. -/
private theorem submit_joined {form : Form} {r : Request} (h : Posting form r) (hne : form.data ≠ [])
    (contents : Bytes → Bytes) (date : Bytes)
    (hfree : r.headers.find hash (str "Content-Length") = none)
    (hsafe : (joined r.form.data).length ≤ OBuffer.SAFE) :
    ∃ s, r.submit hash contents date = some s ∧ s.sent = joined r.form.data ∧
      s.request.headers.find hash (str "Content-Length") = some (showNat s.sent.length) := by
  obtain ⟨husable, hempty⟩ := h.body
  have hdata : r.form.data ≠ [] := fun hnil => hne (hnil ▸ h.data).nil_eq.symm
  have hpieces : r.form.pieces.flatten = joined r.form.data := by
    rw [Form.pieces, if_pos h.encoding, urlPieces_flatten]
  have hoffset : r.body.offset = 0 := by
    rw [← husable.length_contents, hempty]
    rfl
  have hroom : r.body.offset + r.form.pieces.flatten.length ≤ OBuffer.SAFE := by
    rw [hoffset, Nat.zero_add, hpieces]
    exact hsafe
  obtain ⟨b, hrun, hb, hcontents⟩ := OBuffer.appends_of_safe husable hroom
  rw [hempty, List.nil_append, hpieces] at hcontents
  have hlength : b.offset = (joined r.form.data).length := by rw [← hb.length_contents, hcontents]
  have hencode : r.form.encode r.body = .ok (b.offset, b, r.form) := by
    rw [Form.encode, if_neg fun hnil => hdata hnil.1, hrun]
    exact if_pos (.inl h.encoding)
  have hbuild : r.buildbody = .ok (b.offset, { r with body := b }) := by
    rw [Request.buildbody, if_pos h.method, if_pos (by simp [Form.filled, hdata]), hencode]
    rfl
  have hpos : b.offset ≠ 0 := fun hzero =>
    joined_ne_nil hdata (List.eq_nil_of_length_eq_zero (hlength ▸ hzero))
  have hsend : ∀ hs, Request.sendBody contents { r with body := b, headers := hs } b.offset =
      some (joined r.form.data) := fun hs => by
    rw [Request.sendBody, if_neg hpos]
    simp [h.bodyFd, h.uploads, hcontents]
  rw [Request.submit, hbuild]
  simp only [Except.toOption, bind, Option.bind, Request.hdr, hsend]
  refine ⟨_, rfl, rfl, ?_⟩
  rw [CaseMap.find_emplace_of_ne date (by decide), CaseMap.find_emplace_of_none _ hfree, hlength]

/-- **The client makes a form of fields exactly when each name and value has a byte that is written as it
is. What it sends are the escaped fields, of those with one name the first, with their length. The server
has the fields exactly when escaping does not change the names, the values fit into the decoder's array,
and no name is found under an earlier one.** -/
theorem delivered_iff (hash : Bytes → UInt64) (contents : Bytes → Bytes) (size : Bytes → Nat)
    (boundary date : Bytes) (fields : List (Bytes × Bytes)) (hne : fields ≠ [])
    (hnul : ∀ p ∈ fields, NUL ∉ p.1 ∧ NUL ∉ p.2)
    (hroom : (joined (fields.map escaped)).length ≤ OBuffer.SAFE) :
    ((Form.new size .URL_ENCODED boundary (fields.map fun p => .field p.1 p.2)).isSome = true ↔
      ∀ p ∈ fields, Escapable p.1 ∧ Escapable p.2) ∧
    ∀ form, Form.new size .URL_ENCODED boundary (fields.map fun p => .field p.1 p.2) = some form →
      ∀ r, Posting form r → r.headers.find hash (str "Content-Length") = none →
      ∀ (srv : Suil.Http.Request σ) (spare : Bytes) (cap : Nat),
      ∃ s order, r.submit hash contents date = some s ∧
        order.Perm (AssocMap.insertAll (· == ·) (fields.map escaped)) ∧ s.sent = joined order ∧
        s.request.headers.find hash (str "Content-Length") = some (showNat s.sent.length) ∧
        (Delivered hash ((srv.counting s.sent.length).inMemory spare cap s.sent 0) fields ↔
          (∀ p ∈ fields, Carriable p) ∧ Multipart.Distinct hash fields) := by
  have hlt : ∀ p ∈ fields, (escaped p).1.length < 2 ^ 32 ∧ (escaped p).2.length < 2 ^ 32 := by
    intro p hp
    have hle := length_field_le (List.mem_map_of_mem (f := escaped) hp)
    unfold OBuffer.SAFE at hroom
    omega
  rw [new_eq size boundary hlt]
  -- a field that cannot be escaped ends the making of the form
  by_cases hplain : ∀ p ∈ fields, Escapable p.1 ∧ Escapable p.2
  swap
  · rw [if_neg hplain]
    exact ⟨iff_of_false Bool.false_ne_true hplain, nofun⟩
  rw [if_pos hplain]
  refine ⟨iff_of_true rfl hplain, ?_⟩
  rintro form hform r h hfree srv spare cap
  cases hform
  have hescaped : fields.map escaped ≠ [] := mt List.map_eq_nil_iff.mp hne
  have hkept : AssocMap.insertAll (· == ·) (fields.map escaped) ≠ [] :=
    AssocMap.insertAll_ne_nil hescaped
  have hmap : r.form.data.Perm (AssocMap.insertAll (· == ·) (fields.map escaped)) := h.data
  have hdata : r.form.data ≠ [] := fun hnil => hkept (hnil ▸ hmap).nil_eq.symm
  have hsafe := Nat.le_trans
    (length_joined_le hdata hescaped hmap (AssocMap.insertAll_sublist (fields.map escaped))) hroom
  obtain ⟨s, hsubmit, hsent, hset⟩ := submit_joined h hkept contents date hfree hsafe
  refine ⟨s, r.form.data, hsubmit, hmap, hsent, hset, ?_⟩
  have hsource : ∀ q ∈ r.form.data, ∃ p ∈ fields, escaped p = q := fun q hq =>
    List.mem_map.mp (AssocMap.mem_of_mem_insertAll (hmap.mem_iff.mp hq))
  rw [hsent, delivered_iff_stored hnul hdata hsource srv spare cap (by
    unfold OBuffer.SAFE at hsafe
    unfold OBuffer.UINT32
    omega)]
  constructor
  · rintro ⟨entries, hentries, hperm⟩
    exact carriable_of_stored hnul hplain hlt hmap hentries hperm
  · rintro ⟨hcarried, hdistinct⟩
    exact stored_of_carriable hnul hplain hlt hmap hcarried hdistinct

end

/-- A request with a form of one field, with a sum in it. -/
def sums : Request where
  method := .Post
  resource := some (str "/sums")
  arguments := []
  headers := []
  form := ⟨.URL_ENCODED, [], [], [], [(str "sum", str "1%2B1")]⟩
  body := OBuffer.new 1024
  bodyFd := none

theorem delivered_sums : ∃ s order, sums.submit (fun _ => 0) (fun _ => []) (str "now") = some s ∧
    order.Perm (AssocMap.insertAll (· == ·) [(str "sum", str "1%2B1")]) ∧ s.sent = joined order ∧
    s.request.headers.find (fun _ => 0) (str "Content-Length") = some (showNat s.sent.length) ∧
    (Delivered (fun _ => 0) (((Suil.Http.Request.cleared ⟨.dead, 0, 0, true⟩ :
        Suil.Http.Request Unit).counting s.sent.length).inMemory [] 8 s.sent 0)
        [(str "sum", str "1+1")] ↔
      (∀ p ∈ [(str "sum", str "1+1")], Carriable p) ∧
        Multipart.Distinct (fun _ => 0) [(str "sum", str "1+1")]) :=
  (delivered_iff (fun _ => 0) (fun _ => []) (fun _ => 0) [] (str "now") [(str "sum", str "1+1")]
    (by decide) (by decide) (by decide)).2 sums.form (by decide) sums
    ⟨.inr rfl, rfl, .refl _, rfl,
      ⟨⟨(OBuffer.new_shaped 1024).1, (OBuffer.new_shaped 1024).2⟩, rfl⟩, rfl⟩ rfl
    (Suil.Http.Request.cleared ⟨.dead, 0, 0, true⟩) [] 8

end Suil.Http.ClientApi
