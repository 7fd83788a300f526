import Suil.Http.CaseMapLaws

set_option autoImplicit false

/-! # How the headers of a request are put together

`http_parser` gives the name and the value of a header in pieces, to `on_header_field` and
`on_header_value` (`parser.cpp`), which collect them in the buffers `hf` and `hv`. A pair is put in
the map when the next name starts, if `hv` holds something, and the last one at the end of the
headers. Names and values are far shorter than `2 ^ 32` bytes: the library refuses headers of more
than `HTTP_MAX_HEADER_SIZE` bytes. -/

namespace Suil.Http

/-- What the next call is expected to be part of: `STATE_FIELD` or `STATE_VALUE`. -/
inductive Expected where
  | field
  | value
  deriving DecidableEq

/-- The members of `parser` that the calls use. `emplaced` has the arguments of the calls of
`headers.emplace`, in order. -/
structure Assembly where
  state : Expected
  hf : Bytes
  hv : Bytes
  emplaced : List (Bytes × Bytes)

namespace Assembly

/-- `clear`, which `on_message_begin` calls. -/
def clear : Assembly := ⟨.field, [], [], []⟩

/-- `headers.emplace` of what is in the two buffers, which are empty then. -/
def emplace (p : Assembly) : Assembly :=
  { p with hf := [], hv := [], emplaced := p.emplaced ++ [(p.hf, p.hv)] }

def on_header_field (p : Assembly) (bytes : Bytes) : Assembly :=
  match p.state with
  | .field =>
      let p := if p.hv ≠ [] then p.emplace else p
      { p with hf := p.hf ++ bytes, state := .value }
  | .value => { p with hf := p.hf ++ bytes }

def on_header_value (p : Assembly) (bytes : Bytes) : Assembly :=
  match p.state with
  | .field => { p with hv := p.hv ++ bytes }
  | .value => { p with state := .field, hv := p.hv ++ bytes }

def on_headers_complete (p : Assembly) : Assembly := if p.hf ≠ [] then p.emplace else p

/-- The map `headers`. -/
def headers (hash : Bytes → UInt64) (p : Assembly) : CaseMap Bytes :=
  p.emplaced.foldl (fun m e => m.emplace hash e.1 e.2) []

end Assembly

/-- A header of a request. A name has at least one byte. -/
structure Header where
  name : Bytes
  value : Bytes
  named : name ≠ []

/-- A header and the pieces in which it is given. An empty value is given in no pieces or in empty
ones. -/
structure Delivery where
  header : Header
  fields : List Bytes
  values : List Bytes
  fields_flatten : fields.flatten = header.name
  values_flatten : values.flatten = header.value

/-- The calls for one header. -/
def Assembly.deliver (p : Assembly) (d : Delivery) : Assembly :=
  d.values.foldl Assembly.on_header_value (d.fields.foldl Assembly.on_header_field p)

/-- The calls for all of the headers of a request. -/
def assemble (ds : List Delivery) : Assembly :=
  (ds.foldl Assembly.deliver .clear).on_headers_complete

def Header.pair (h : Header) : Bytes × Bytes := (h.name, h.value)

/-- Every header is put in the map as it is, in order. A name whose hash no other name of the
request has is then found with its own value, and with the first one when it is repeated. -/
def Assembles (p : Assembly) (hs : List Header) : Prop :=
  p.emplaced = hs.map Header.pair ∧
    ∀ hash : Bytes → UInt64, ∀ h ∈ hs,
      (∀ h' ∈ hs, hash h'.name = hash h.name → h'.name = h.name) →
        (p.headers hash).find hash h.name =
          (hs.find? fun h' => h'.name = h.name).map Header.value

/-! ## What is emplaced -/

/-- The pairs that are put in the map, from what is in the buffers on: a name without a value is
taken for the beginning of the next name. -/
def fused (hf hv : Bytes) : List Header → List (Bytes × Bytes)
  | [] => if hf ≠ [] then [(hf, hv)] else []
  | h :: hs =>
      if hv ≠ [] then (hf, hv) :: fused h.name h.value hs else fused (hf ++ h.name) h.value hs

/-- Between two headers: after a value the next call is for a name. -/
def Assembly.Between (p : Assembly) : Prop := p.hv ≠ [] → p.state = .field

private theorem fields_in_value (p : Assembly) (h : p.state = .value) (fields : List Bytes) :
    fields.foldl Assembly.on_header_field p = { p with hf := p.hf ++ fields.flatten } := by
  induction fields generalizing p with
  | nil => rw [List.foldl_nil, List.flatten_nil, List.append_nil]
  | cons piece fields ih =>
      have hstep : p.on_header_field piece = { p with hf := p.hf ++ piece } := by
        rw [Assembly.on_header_field, h]
      rw [List.foldl_cons, hstep, ih { p with hf := p.hf ++ piece } h, List.flatten_cons,
        List.append_assoc]

private theorem values_in_field (p : Assembly) (h : p.state = .field) (values : List Bytes) :
    values.foldl Assembly.on_header_value p = { p with hv := p.hv ++ values.flatten } := by
  induction values generalizing p with
  | nil => rw [List.foldl_nil, List.flatten_nil, List.append_nil]
  | cons piece values ih =>
      have hstep : p.on_header_value piece = { p with hv := p.hv ++ piece } := by
        rw [Assembly.on_header_value, h]
      rw [List.foldl_cons, hstep, ih { p with hv := p.hv ++ piece } h, List.flatten_cons,
        List.append_assoc]

/-- What the buffers hold is put in the map if there is a value. -/
private def flush (p : Assembly) : Assembly := if p.hv ≠ [] then p.emplace else p

private theorem flush_hv (p : Assembly) : (flush p).hv = [] := by
  rw [flush]
  split_ifs with h
  · rfl
  · exact not_not.mp h

/-- The first piece of a name, in whichever state it comes. -/
private theorem first_field {p : Assembly} (h : p.Between) (piece : Bytes) :
    p.on_header_field piece =
      { flush p with hf := (flush p).hf ++ piece, state := .value } := by
  cases hstate : p.state with
  | field =>
      rw [Assembly.on_header_field, hstate]
      rfl
  | value =>
      have hv : ¬ p.hv ≠ [] := fun hne => by
        rw [h hne] at hstate
        cases hstate
      rw [Assembly.on_header_field, flush, if_neg hv]
      simp only [hstate]

/-- All pieces of a name and its value. -/
private theorem deliver_eq {p : Assembly} (h : p.Between) (d : Delivery) :
    ∃ state, (d.header.value ≠ [] → state = Expected.field) ∧ p.deliver d =
      { flush p with hf := (flush p).hf ++ d.header.name, hv := d.header.value, state } := by
  have hfields : d.fields.foldl Assembly.on_header_field p =
      { flush p with hf := (flush p).hf ++ d.header.name, state := .value } := by
    rw [← d.fields_flatten]
    cases hd : d.fields with
    | nil =>
        -- a name has a byte, hence a piece
        have hname := d.fields_flatten
        rw [hd] at hname
        exact absurd hname.symm d.header.named
    | cons piece fields =>
        rw [List.foldl_cons, first_field h, fields_in_value _ rfl, List.flatten_cons,
          List.append_assoc]
  rw [Assembly.deliver, hfields, ← d.values_flatten]
  cases d.values with
  | nil =>
      refine ⟨.value, fun hne => absurd rfl hne, ?_⟩
      rw [List.foldl_nil, List.flatten_nil]
      simp only [flush_hv]
  | cons piece values =>
      refine ⟨.field, fun _ => rfl, ?_⟩
      rw [List.foldl_cons, Assembly.on_header_value]
      dsimp only
      rw [values_in_field _ rfl, flush_hv, List.nil_append, List.flatten_cons]

/-- **The pieces do not matter**: what is put in the map depends on the names and values only. -/
theorem assemble_emplaced (ds : List Delivery) :
    (assemble ds).emplaced = fused [] [] (ds.map Delivery.header) := by
  have hall : ∀ p : Assembly, p.Between →
      ((ds.foldl Assembly.deliver p).on_headers_complete).emplaced =
        p.emplaced ++ fused p.hf p.hv (ds.map Delivery.header) := by
    induction ds with
    | nil =>
        intro p _
        rw [List.foldl_nil, List.map_nil, fused, Assembly.on_headers_complete]
        split_ifs
        · rfl
        · rw [List.append_nil]
    | cons d ds ih =>
        intro p hp
        obtain ⟨state, hstate, hd⟩ := deliver_eq hp d
        rw [List.foldl_cons, ih _ (hd ▸ hstate), hd, List.map_cons, fused, flush]
        dsimp only
        split_ifs
        · rw [Assembly.emplace, List.append_assoc, List.nil_append]
          rfl
        · rfl
  exact hall .clear fun hne => absurd rfl hne

/-! ## When the headers are kept apart -/

private theorem fused_head {hf : Bytes} (h : hf ≠ []) (hv : Bytes) (hs : List Header) :
    ∃ more v rest, fused hf hv hs = (hf ++ more, v) :: rest := by
  induction hs generalizing hf hv with
  | nil => exact ⟨[], hv, [], by rw [fused, if_pos h, List.append_nil]⟩
  | cons h' hs ih =>
      rw [fused]
      split_ifs with hne
      · exact ⟨[], hv, _, by rw [List.append_nil]⟩
      · obtain ⟨more, v, rest, heq⟩ := ih (List.append_ne_nil_of_left_ne_nil h h'.name) h'.value
        exact ⟨h'.name ++ more, v, rest, by rw [heq, List.append_assoc]⟩

private theorem fused_eq_iff (h : Header) (hs : List Header) :
    fused h.name h.value hs = (h :: hs).map Header.pair ↔
      ∀ h' ∈ (h :: hs).dropLast, h'.value ≠ [] := by
  induction hs generalizing h with
  | nil =>
      rw [fused, if_pos h.named]
      exact iff_of_true rfl nofun
  | cons h' hs ih =>
      rw [fused, List.map_cons, List.dropLast_cons_cons, List.forall_mem_cons]
      split_ifs with hne
      · rw [List.cons_eq_cons, ih]
        exact ⟨fun hp => ⟨hne, hp.2⟩, fun hp => ⟨rfl, hp.2⟩⟩
      · -- the first name would have the next one at its end
        refine iff_of_false (fun heq => ?_) fun hp => hne hp.1
        obtain ⟨more, v, rest, hhead⟩ :=
          fused_head (List.append_ne_nil_of_left_ne_nil h.named h'.name) h'.value hs
        rw [hhead] at heq
        have hname : h.name ++ h'.name ++ more = h.name := congrArg Prod.fst (List.cons.inj heq).1
        have hlen := congrArg List.length hname
        have hpos := List.length_pos_iff.mpr h'.named
        rw [List.length_append, List.length_append] at hlen
        omega

/-- A map of whole headers has each name with its first value, unless two names have one hash. -/
private theorem headers_find {p : Assembly} {hs : List Header}
    (hp : p.emplaced = hs.map Header.pair) (hash : Bytes → UInt64) {h : Header}
    (hinj : ∀ h' ∈ hs, hash h'.name = hash h.name → h'.name = h.name) :
    (p.headers hash).find hash h.name =
      (hs.find? fun h' => h'.name = h.name).map Header.value := by
  have hhit : ∀ e ∈ hs.map Header.pair,
      (hash e.1 = hash h.name && mapCaseEq e.1 h.name) = true ↔ e.1 = h.name := by
    intro e he
    obtain ⟨h', hmem, rfl⟩ := List.mem_map.mp he
    rw [Bool.and_eq_true, decide_eq_true_iff]
    refine ⟨fun hboth => hinj h' hmem hboth.1, fun heq => ?_⟩
    rw [heq, mapCaseEq, strncaseEq_self]
    exact ⟨rfl, rfl⟩
  have hfind : (p.headers hash).find hash h.name = AssocMap.find
      (fun a b : Bytes => hash a = hash b && mapCaseEq a b) (hs.map Header.pair) h.name := by
    rw [Assembly.headers, hp]
    exact AssocMap.find_insertAll_of_iff (fun a b : Bytes => hash a = hash b && mapCaseEq a b) hhit
  rw [hfind, AssocMap.find, List.find?_map, Option.map_map]
  congr 1
  apply List.find?_congr
  intro h' hmem
  rw [Bool.eq_iff_iff, decide_eq_true_iff]
  exact hhit _ (List.mem_map_of_mem hmem)

/-- **Headers are kept apart exactly when each but the last has a value.** -/
theorem assembles_iff (ds : List Delivery) :
    Assembles (assemble ds) (ds.map Delivery.header) ↔
      ∀ h ∈ (ds.map Delivery.header).dropLast, h.value ≠ [] := by
  have hpairs : Assembles (assemble ds) (ds.map Delivery.header) ↔
      fused [] [] (ds.map Delivery.header) = (ds.map Delivery.header).map Header.pair := by
    rw [← assemble_emplaced]
    exact ⟨And.left, fun hp => ⟨hp, fun hash h _ hinj => headers_find hp hash hinj⟩⟩
  rw [hpairs]
  cases ds.map Delivery.header with
  | nil => exact iff_of_true rfl nofun
  | cons h hs =>
      rw [fused, if_neg (not_not.mpr rfl), List.nil_append]
      exact fused_eq_iff h hs

/-- `A:` and `B: x` are taken for `AB: x`. -/
theorem not_assembles_empty :
    ¬ ∀ ds : List Delivery, Assembles (assemble ds) (ds.map Delivery.header) := by
  intro h
  have hboth := (h [⟨⟨str "A", [], by decide⟩, [str "A"], [[]], rfl, rfl⟩,
    ⟨⟨str "B", str "x", by decide⟩, [str "B"], [str "x"], rfl, rfl⟩]).1
  exact absurd hboth (by decide)

end Suil.Http
