import Mathlib
import Suil.Basic.Filled
import Suil.Basic.UrlCodec
import Suil.Http.BodyAccess
import Suil.Http.ParseCookies

set_option autoImplicit false

/-! # Forms in URL encoding

`Request::parse_url_encoded_form` (`request.cpp`) copies the body, cuts it at the ampersands with
`String::split` and each part at its first equals sign. The value is given to `utils::urldecode`, the
name is stored as it stands there. `parsed_iff` says which forms get through: those whose names are
their own encoding and whose values the decoder has room for. -/

namespace Suil.Http.Request

variable {σ : Type}

/-! ## `parse_url_encoded_form` -/

/-- How the parser stops: in `read_body`, at the end of the copy or of the decoder's array. -/
inductive FormFault where
  | body (e : Fault)
  | buffer (e : BufFault)
  | stack
  deriving DecidableEq, Repr

section

variable (hash : Bytes → UInt64)

/-- The loop over the parts. -/
def storeParts : List Bytes → CaseMap UrlCodec.Text → Except FormFault (CaseMap UrlCodec.Text)
  | [], form => .ok form
  | part :: parts, form =>
      match UrlCodec.urldecode (part.dropWhile (· ≠ EQUALS)).tail with
      | none => .error .stack
      | some value => storeParts parts (form.emplace hash (part.takeWhile (· ≠ EQUALS)) value)

/-- `parse_url_encoded_form` for a request whose form is empty: the result and the form. -/
def parse_url_encoded_form (stale : Bool) (r : Request σ) :
    Except FormFault (Bool × CaseMap UrlCodec.Text) :=
  let length := r.parser.content_length
  let rb := OBuffer.new ((length % OBuffer.UINT32 + 2) % OBuffer.UINT32)
  -- `read_body` fails on a null pointer
  if rb.mem.isNone then .ok (false, [])
  else
    match read_body stale r length with
    | .error e => .error (.body e)
    | .ok (res, _) =>
        match rb.poke res.stored with
        | .error e => .error (.buffer e)
        | .ok rb =>
            if res.ret ≤ 0 then .ok (false, [])
            else
              match rb.bseek length with
              | .error e => .error (.buffer e)
              | .ok rb =>
                  match storeParts hash (split AMP rb.toStr.bytes) [] with
                  | .error e => .error e
                  | .ok form => .ok (true, form)

end

/-! ## The encoding -/

/-- A byte that a form leaves as it is. -/
def isKept (c : UInt8) : Bool :=
  isDigit c || 65 ≤ c && c ≤ 90 || 97 ≤ c && c ≤ 122 || (str "*-._").contains c

/-- How a byte is written: the space as a plus sign, what is not kept in hexadecimal digits. -/
def formByte (c : UInt8) : Bytes :=
  if isKept c then [c]
  else if c = SP then [PLUS]
  else [PERCENT, UrlCodec.hexchars.getD ((c &&& 0xF0) >>> 4).toNat 0,
    UrlCodec.hexchars.getD (c &&& 0x0F).toNat 0]

def formText (s : Bytes) : Bytes := s.flatMap formByte

def formField (p : Bytes × Bytes) : Bytes := formText p.1 ++ EQUALS :: formText p.2

/-- The `application/x-www-form-urlencoded` encoding. -/
def formBody (pairs : List (Bytes × Bytes)) : Bytes := [AMP].intercalate (pairs.map formField)

/-! ## Forms that get through the parser -/

/-- Pairs with distinct names, in a body whose size a buffer can tell. -/
structure Form where
  pairs : List (Bytes × Bytes)
  distinct : (pairs.map Prod.fst).Nodup
  sized : (formBody pairs).length < OBuffer.UINT32

/-- The form holds exactly the pairs. -/
def Parsed (hash : Bytes → UInt64) (r : Request σ) (pairs : List (Bytes × Bytes)) : Prop :=
  ∀ stale, ∃ ok form, parse_url_encoded_form hash stale r = .ok (ok, form) ∧
    (form.map fun e => (e.1, e.2.read)).Perm (pairs.map fun p => (p.1, some p.2))

/-- A request whose `content_length` is this. -/
def counting (r : Request σ) (n : Nat) : Request σ :=
  { r with parser := { r.parser with content_length := n } }

/-- What is right for the parser. -/
structure Carried (hash : Bytes → UInt64) (pairs : List (Bytes × Bytes)) : Prop where
  names : ∀ p ∈ pairs, ∀ c ∈ p.1, isKept c = true
  values : ∀ p ∈ pairs, p.2.length ≤ 1024 ∧ NUL ∉ p.2.dropLast
  apart : pairs.Pairwise fun p q => Cookies.taken hash p.1 q.1 = false
  room : (formBody pairs).length ≤ OBuffer.UINT32 - 10

/-! ## Encoding -/

/-- No byte that separates, and no space. -/
def Inner (c : UInt8) : Prop := c ≠ NUL ∧ c ≠ AMP ∧ c ≠ EQUALS ∧ c ≠ SP

instance (c : UInt8) : Decidable (Inner c) :=
  inferInstanceAs (Decidable (c ≠ NUL ∧ c ≠ AMP ∧ c ≠ EQUALS ∧ c ≠ SP))

set_option maxRecDepth 8000 in
private theorem isKept_spec (c : UInt8) (h : isKept c = true) : c ≠ PERCENT ∧ c ≠ PLUS ∧ Inner c :=
  forall_byte (P := fun c => isKept c = true → c ≠ PERCENT ∧ c ≠ PLUS ∧ Inner c) (by decide) c h

set_option maxRecDepth 8000 in
theorem isHexChar_inner (c : UInt8) (h : UrlCodec.isHexChar c = true) : Inner c :=
  forall_byte (P := fun c => UrlCodec.isHexChar c = true → Inner c) (by decide) c h

private theorem formByte_inner (c : UInt8) : ∀ b ∈ formByte c, Inner b := by
  rw [formByte]
  split_ifs with hkept hspace
  · exact List.forall_mem_singleton.mpr (isKept_spec c hkept).2.2
  · exact List.forall_mem_singleton.mpr (by decide)
  · obtain ⟨hhigh, hlow, -⟩ := UrlCodec.digits_spec c
    intro b hb
    rcases List.mem_cons.mp hb with rfl | hb
    · decide
    · rcases List.mem_cons.mp hb with rfl | hb
      · exact isHexChar_inner _ hhigh
      · rw [List.mem_singleton.mp hb]
        exact isHexChar_inner _ hlow

/-- What separates fields, and the space, is not in an encoded text. -/
theorem formText_inner {s : Bytes} {b : UInt8} (h : b ∈ formText s) : Inner b := by
  obtain ⟨c, -, hc⟩ := List.mem_flatMap.mp h
  exact formByte_inner c b hc

theorem formText_cons (c : UInt8) (s : Bytes) : formText (c :: s) = formByte c ++ formText s :=
  List.flatMap_cons

theorem formByte_length (c : UInt8) :
    (formByte c).length = if isKept c = true ∨ c = SP then 1 else 3 := by
  rw [formByte]
  by_cases hkept : isKept c = true
  · rw [if_pos hkept, if_pos (.inl hkept)]
    rfl
  · rw [if_neg hkept]
    by_cases hspace : c = SP
    · rw [if_pos hspace, if_pos (.inr hspace)]
      rfl
    · rw [if_neg hspace, if_neg (not_or.mpr ⟨hkept, hspace⟩)]
      rfl

/-- An encoded text is not shorter, and not longer when nothing is written in digits. -/
theorem formText_length (s : Bytes) : s.length ≤ (formText s).length ∧
    ((formText s).length = s.length ↔ ∀ c ∈ s, isKept c = true ∨ c = SP) := by
  induction s with
  | nil => exact ⟨Nat.le_refl 0, iff_of_true rfl nofun⟩
  | cons c s ih =>
      rw [formText_cons, List.length_append, formByte_length, List.length_cons, List.forall_mem_cons]
      split_ifs with hc
      · rw [and_iff_right hc, ← ih.2]
        omega
      · rw [iff_false_right fun h => hc h.1]
        omega

theorem formText_of_kept {s : Bytes} (h : ∀ c ∈ s, isKept c = true) : formText s = s := by
  induction s with
  | nil => rfl
  | cons c s ih =>
      obtain ⟨hc, hs⟩ := List.forall_mem_cons.mp h
      rw [formText_cons, ih hs, formByte, if_pos hc, List.singleton_append]

theorem formText_le (s : Bytes) : (formText s).length ≤ 3 * s.length := by
  induction s with
  | nil => exact Nat.le_refl 0
  | cons c s ih =>
      rw [formText_cons, List.length_append, formByte_length, List.length_cons]
      split_ifs <;> omega

/-! ## Decoding -/

private theorem decoded_formByte (c : UInt8) (rest : Bytes) :
    UrlCodec.decoded (formByte c ++ rest) = c :: UrlCodec.decoded rest := by
  rw [formByte]
  split_ifs with hkept hspace
  · obtain ⟨hpercent, hplus, -⟩ := isKept_spec c hkept
    rw [List.singleton_append, UrlCodec.decoded_plain hpercent, UrlCodec.single, if_neg hplus]
  · rw [List.singleton_append, UrlCodec.decoded_plain (by decide), UrlCodec.single, if_pos rfl,
      hspace]
  · obtain ⟨hhigh, hlow, hvalue⟩ := UrlCodec.digits_spec c
    rw [List.cons_append, List.cons_append, List.cons_append, List.nil_append, UrlCodec.decoded,
      if_pos ⟨rfl, hhigh, hlow⟩, hvalue]

theorem decoded_formText (s : Bytes) : UrlCodec.decoded (formText s) = s := by
  induction s with
  | nil => rfl
  | cons c s ih => rw [formText_cons, decoded_formByte, ih]

/-- A value is decoded when its text fits into the array and has a NUL at its end only. -/
theorem urldecode_formText {v : Bytes} (hlt : (formText v).length < OBuffer.UINT32) :
    (∃ t, UrlCodec.urldecode (formText v) = some t ∧ t.read = some v) ↔
      v.length ≤ 1024 ∧ NUL ∉ v.dropLast := by
  rw [UrlCodec.urldecode_eq]
  by_cases hint : (formText v).length < 2 ^ 31
  · rw [UrlCodec.srcLen_of_lt hint, List.take_length, decoded_formText]
    split_ifs with hfits
    · rw [and_iff_right hfits, ← UrlCodec.dup_read_iff]
      constructor
      · rintro ⟨t, ht, hread⟩
        rwa [← Option.some.inj ht] at hread
      · exact fun hread => ⟨_, rfl, hread⟩
    · exact iff_of_false (by rintro ⟨t, ht, -⟩; nomatch ht) fun h => hfits h.1
  · -- the length is negative as an `int`, and nothing is decoded
    have hzero : UrlCodec.srcLen (formText v).length = 0 := by
      unfold OBuffer.UINT32 at hlt
      rw [UrlCodec.srcLen, Nat.mod_eq_of_lt hlt, if_neg hint]
    have hlong := formText_le v
    rw [hzero]
    refine iff_of_false ?_ fun h => by omega
    rintro ⟨t, ht, hread⟩
    rw [List.take_zero, if_pos (by decide)] at ht
    rw [← Option.some.inj ht] at hread
    have hempty := UrlCodec.dup_read_length hread
    rw [show (UrlCodec.decoded []).length = 0 from rfl] at hempty
    omega

/-! ## The copy of the body -/

section

variable {hash : Bytes → UInt64}

/-- Nothing is stored. -/
def Unparsed (res : Except FormFault (Bool × CaseMap UrlCodec.Text)) : Prop :=
  res = .ok (false, []) ∨ ∃ e, res = .error e

theorem new_of_pos {n : Nat} (hpos : 0 < n) (hlt : n < OBuffer.UINT32) :
    ∃ mem, OBuffer.new n = ⟨some mem, OBuffer.roundUp n % OBuffer.UINT32, 0⟩ ∧
      mem.length = OBuffer.roundUp n % OBuffer.UINT32 + 1 := by
  obtain ⟨hsize, hoffset, hlength⟩ := OBuffer.new_spec hlt
  rw [if_neg (Nat.ne_of_gt hpos)] at hlength
  cases hb : OBuffer.new n with
  | mk mem size offset =>
      rw [hb] at hsize hoffset hlength
      cases mem with
      | none => nomatch hlength
      | some mem =>
          rw [show offset = 0 from hoffset, show size = _ from hsize]
          exact ⟨mem, rfl, hlength⟩

/-- A body that is in memory is copied when it leaves room for ten bytes. -/
theorem parse_of_room (r : Request σ) (spare : Bytes) (size : Nat) (stale : Bool) {body : Bytes}
    (hne : body ≠ []) (hroom : body.length ≤ OBuffer.UINT32 - 10) :
    parse_url_encoded_form hash stale ((r.counting body.length).inMemory spare size body 0) =
      match storeParts hash (split AMP body) [] with
      | .error e => .error e
      | .ok form => .ok (true, form) := by
  have hpos : 0 < body.length := List.length_pos_iff.mpr hne
  have hlt : body.length + 2 < OBuffer.UINT32 := by
    unfold OBuffer.UINT32 at *
    omega
  have hround := OBuffer.roundUp_lt (body.length + 2)
  have hmultiple := OBuffer.roundUp_multiple (body.length + 2)
  have hsize : OBuffer.roundUp (body.length + 2) % OBuffer.UINT32 =
      OBuffer.roundUp (body.length + 2) := by
    refine Nat.mod_eq_of_lt ?_
    unfold OBuffer.UINT32 at *
    omega
  -- the copy has room for the body and its NUL
  obtain ⟨mem, hnew, hmem⟩ := new_of_pos (Nat.succ_pos (body.length + 1)) hlt
  rw [hsize] at hnew hmem
  obtain ⟨hread, -⟩ := read_body_inside (r.counting body.length) spare size stale hpos
    (Nat.le_of_eq (Nat.zero_add _)) (Nat.lt_of_le_of_lt (Nat.le_add_right _ 2) hlt)
  have hexpected : expected body 0 body.length = ⟨body.length, body⟩ := by
    rw [expected, if_neg (Nat.ne_of_gt hpos), List.drop_zero, List.take_length]
  rw [hexpected] at hread
  have hpoke : (⟨some mem, OBuffer.roundUp (body.length + 2), 0⟩ : OBuffer).poke body =
      .ok ⟨some (body ++ mem.drop body.length), OBuffer.roundUp (body.length + 2), 0⟩ :=
    if_pos (by omega)
  have hseek : (⟨some (body ++ mem.drop body.length), OBuffer.roundUp (body.length + 2), 0⟩ :
      OBuffer).bseek body.length =
        .ok ⟨some (body ++ mem.drop body.length), OBuffer.roundUp (body.length + 2), body.length⟩ :=
    if_pos (show body.length < OBuffer.roundUp (body.length + 2) by omega)
  have hbytes : (OBuffer.toStr ⟨some (body ++ mem.drop body.length),
      OBuffer.roundUp (body.length + 2), body.length⟩).bytes = body := by
    show ((body ++ mem.drop body.length).set body.length NUL).take body.length = body
    rw [List.take_set_of_le (Nat.le_refl _), List.take_left]
  have hcount : ((r.counting body.length).inMemory spare size body 0).parser.content_length =
      body.length := rfl
  have hcapacity : (body.length % OBuffer.UINT32 + 2) % OBuffer.UINT32 = body.length + 2 := by
    rw [Nat.mod_eq_of_lt (a := body.length) (by omega), Nat.mod_eq_of_lt hlt]
  have hret : ¬ ((body.length : Int) ≤ 0) := by omega
  unfold parse_url_encoded_form
  simp only [hcount, hcapacity, hnew, hread, hpoke, hseek, hbytes, if_neg hret, Option.isNone_some,
    Bool.false_eq_true, if_false]

/-- Without the room it is not. -/
theorem parse_of_no_room (r : Request σ) (spare : Bytes) (size : Nat) (stale : Bool) {body : Bytes}
    (hroom : OBuffer.UINT32 - 10 < body.length) (hlt : body.length < OBuffer.UINT32) :
    Unparsed (parse_url_encoded_form hash stale
      ((r.counting body.length).inMemory spare size body 0)) := by
  have hcount : ((r.counting body.length).inMemory spare size body 0).parser.content_length =
      body.length := rfl
  have hpos : 0 < body.length := Nat.lt_of_le_of_lt (Nat.zero_le _) hroom
  obtain ⟨hread, hlength⟩ := read_body_inside (r.counting body.length) spare size stale hpos
    (Nat.le_of_eq (Nat.zero_add _)) hlt
  unfold parse_url_encoded_form
  simp only [hcount, Nat.mod_eq_of_lt hlt, hread]
  generalize hk : (body.length + 2) % OBuffer.UINT32 = k
  by_cases hzero : k = 0
  · rw [hzero, show (OBuffer.new 0).mem = none from rfl]
    exact .inl rfl
  · -- the size that is asked for wraps around, and so does its rounding
    have hwide : k < OBuffer.UINT32 := hk ▸ Nat.mod_lt _ (by decide)
    obtain ⟨mem, hnew, hmem⟩ := new_of_pos (Nat.pos_of_ne_zero hzero) hwide
    have hround := OBuffer.roundUp_lt k
    have hmultiple := OBuffer.roundUp_multiple k
    have hshort : mem.length < body.length := by
      rw [hmem]
      unfold OBuffer.UINT32 at *
      omega
    have hpoke : (OBuffer.new k).poke (expected body 0 body.length).stored = .error .overrun := by
      rw [hnew]
      exact if_neg (by omega)
    rw [hpoke, hnew]
    exact .inr ⟨_, rfl⟩

/-- Nothing is read from a file. -/
theorem parse_of_disk {r : Request σ} {body : Bytes} (h : OnDisk body r) (stale : Bool) :
    Unparsed (parse_url_encoded_form hash stale r) := by
  unfold parse_url_encoded_form
  dsimp only
  split_ifs
  · exact .inl rfl
  · cases hread : read_body stale r r.parser.content_length with
    | error e => exact .inr ⟨_, rfl⟩
    | ok read =>
        obtain ⟨res, r'⟩ := read
        dsimp only
        cases OBuffer.poke _ res.stored with
        | error e => exact .inr ⟨_, rfl⟩
        | ok rb =>
            dsimp only
            rw [if_pos (by rw [h.ret_of_read hread]; decide)]
            exact .inl rfl

theorem poke_nil (b : OBuffer) : b.poke [] = .ok b := by
  rw [OBuffer.poke]
  cases hmem : b.mem with
  | none => rfl
  | some mem =>
      dsimp only
      rw [List.length_nil, if_pos (Nat.zero_le _), List.nil_append, List.drop_zero, ← hmem]

theorem readOffload_nil (r : Request σ) (stale : Bool) (len pos : Nat) (h : r.body_offset = 0) :
    ∃ r', readOffload stale r len ⟨some ⟨[], pos⟩, 0⟩ = .ok (⟨-1, []⟩, r') := by
  have hchunk : min 4096 (min (diff 0 r.body_offset) len) = 0 := by
    rw [h, show diff 0 0 = 0 from rfl, Nat.zero_min, Nat.min_zero]
  rw [readOffload]
  dsimp only
  rw [hchunk, List.take_zero, List.length_nil, if_neg fun h => Nat.lt_irrefl 0 h.1]
  exact ⟨_, rfl⟩

theorem parse_of_emptyDisk (r : Request σ) (pos : Nat) (stale : Bool) :
    parse_url_encoded_form hash stale (r.onDisk [] pos) = .ok (false, []) := by
  have hread : ∀ len, ∃ r', read_body stale (r.onDisk [] pos) len = .ok (⟨-1, []⟩, r') := by
    intro len
    rw [read_body]
    split_ifs with hnone hdisk
    · exact ⟨_, rfl⟩
    · exact readOffload_nil _ stale len pos rfl
    · exact (hdisk (by simp [onDisk])).elim
  unfold parse_url_encoded_form
  dsimp only
  split_ifs
  · rfl
  · obtain ⟨r', hr'⟩ := hread (r.onDisk [] pos).parser.content_length
    rw [hr']
    simp only [poke_nil]
    rfl

/-! ## The parts -/

/-- What is stored for a pair. -/
def Stored (p : Bytes × Bytes) (e : Bytes × UrlCodec.Text) : Prop :=
  e.1 = formText p.1 ∧ UrlCodec.urldecode (formText p.2) = some e.2

theorem formBody_singleton (p : Bytes × Bytes) : formBody [p] = formField p := by
  rw [formBody, List.map_singleton, List.intercalate_singleton]

theorem formBody_cons_cons (p q : Bytes × Bytes) (pairs : List (Bytes × Bytes)) :
    formBody (p :: q :: pairs) = formField p ++ AMP :: formBody (q :: pairs) := by
  rw [formBody, List.map_cons, List.map_cons, List.intercalate_cons_cons, List.append_assoc,
    List.singleton_append, formBody, List.map_cons]

theorem formField_le {pairs : List (Bytes × Bytes)} {p : Bytes × Bytes} (h : p ∈ pairs) :
    (formField p).length ≤ (formBody pairs).length := by
  induction pairs with
  | nil => nomatch h
  | cons q pairs ih =>
      cases pairs with
      | nil =>
          rw [List.mem_singleton.mp h, formBody_singleton]
      | cons q' pairs =>
          rw [formBody_cons_cons, List.length_append, List.length_cons]
          rcases List.mem_cons.mp h with rfl | h
          · omega
          · have := ih h
            omega

/-- Parts that are joined are cut again. -/
theorem split_intercalate {ss : List Bytes} (h : ∀ s ∈ ss, NUL ∉ s ∧ AMP ∉ s ∧ s ≠ [])
    (hne : ss ≠ []) : split AMP ([AMP].intercalate ss) = ss := by
  have hnul : NUL ∉ [AMP].intercalate ss := by
    clear hne
    induction ss with
    | nil => simp
    | cons s ss ih =>
        obtain ⟨hs, hss⟩ := List.forall_mem_cons.mp h
        cases ss with
        | nil =>
            rw [List.intercalate_singleton]
            exact hs.1
        | cons q ss =>
            rw [List.intercalate_cons_cons, List.mem_append, List.mem_append, List.mem_singleton]
            rintro ((hmem | hmem) | hmem)
            · exact hs.1 hmem
            · exact absurd hmem (by decide)
            · exact ih hss hmem
  rw [split, cstr_eq_self hnul, List.splitOn_intercalate]
  · exact List.filter_eq_self.mpr fun s hs => decide_eq_true (h s hs).2.2
  · exact fun s hs => (h s hs).2.1
  · exact hne

theorem split_formBody (pairs : List (Bytes × Bytes)) :
    split AMP (formBody pairs) = pairs.map formField := by
  by_cases hempty : pairs = []
  · rw [hempty]
    rfl
  · refine split_intercalate (fun s hs => ?_) fun hnil => hempty (List.map_eq_nil_iff.mp hnil)
    obtain ⟨p, -, rfl⟩ := List.mem_map.mp hs
    simp only [formField, List.mem_append, List.mem_cons, not_or]
    refine ⟨⟨?_, by decide, ?_⟩, ⟨?_, by decide, ?_⟩, List.append_ne_nil_of_right_ne_nil _ nofun⟩
    · exact fun h => (formText_inner h).1 rfl
    · exact fun h => (formText_inner h).1 rfl
    · exact fun h => (formText_inner h).2.1 rfl
    · exact fun h => (formText_inner h).2.1 rfl

/-- What is stored for a name and the text of a value. -/
def DecodesTo (t : Bytes × Bytes) (e : Bytes × UrlCodec.Text) : Prop :=
  e.1 = t.1 ∧ UrlCodec.urldecode t.2 = some e.2

/-- Parts are stored one after the other, when each value is decoded. -/
theorem storeParts_texts_iff {ts : List (Bytes × Bytes)} (hnames : ∀ t ∈ ts, EQUALS ∉ t.1)
    {m form : CaseMap UrlCodec.Text} :
    storeParts hash (ts.map fun t => t.1 ++ EQUALS :: t.2) m = .ok form ↔
      ∃ entries, List.Forall₂ DecodesTo ts entries ∧
        form = entries.foldl (fun m e => AssocMap.emplace (Cookies.taken hash) m e.1 e.2) m := by
  induction ts generalizing m with
  | nil =>
      constructor
      · exact fun h => ⟨[], .nil, (Except.ok.inj h).symm⟩
      · rintro ⟨entries, hentries, rfl⟩
        cases hentries with
        | nil => rfl
  | cons t ts ih =>
      obtain ⟨hfirst, hnames⟩ := List.forall_mem_cons.mp hnames
      have hname : ∀ c ∈ t.1, decide (c ≠ EQUALS) = true := fun c hc =>
        decide_eq_true fun heq => hfirst (heq ▸ hc)
      have hfront : (t.1 ++ EQUALS :: t.2).takeWhile (· ≠ EQUALS) = t.1 := by
        rw [List.takeWhile_append_of_pos hname, List.takeWhile_cons, if_neg (by decide),
          List.append_nil]
      have hback : ((t.1 ++ EQUALS :: t.2).dropWhile (· ≠ EQUALS)).tail = t.2 := by
        rw [List.dropWhile_append_of_pos hname, List.dropWhile_cons, if_neg (by decide),
          List.tail_cons]
      rw [List.map_cons, storeParts, hfront, hback]
      constructor
      · intro h
        cases hvalue : UrlCodec.urldecode t.2 with
        | none =>
            rw [hvalue] at h
            nomatch h
        | some v =>
            rw [hvalue] at h
            obtain ⟨entries, hentries, hform⟩ := (ih hnames).mp h
            exact ⟨(t.1, v) :: entries, .cons ⟨rfl, hvalue⟩ hentries, hform⟩
      · rintro ⟨entries, hentries, hform⟩
        cases hentries with
        | cons he hrest =>
            rw [he.2]
            refine (ih hnames).mpr ⟨_, hrest, ?_⟩
            rw [hform, List.foldl_cons, he.1]
            rfl

/-- The fields are stored one after the other, when each value is decoded. -/
theorem storeParts_ok_iff {pairs : List (Bytes × Bytes)} {m form : CaseMap UrlCodec.Text} :
    storeParts hash (pairs.map formField) m = .ok form ↔ ∃ entries, List.Forall₂ Stored pairs entries ∧
      form = entries.foldl (fun m e => AssocMap.emplace (Cookies.taken hash) m e.1 e.2) m := by
  have htexts := @storeParts_texts_iff hash (pairs.map fun p => (formText p.1, formText p.2))
    (fun t ht heq => by
      obtain ⟨p, -, rfl⟩ := List.mem_map.mp ht
      exact (formText_inner heq).2.2.1 rfl) m form
  rw [List.map_map] at htexts
  exact htexts.trans (exists_congr fun entries => and_congr_left fun _ => List.forall₂_map_left_iff)

/-! ## Forms that get through -/

/-- Texts that an encoding gives back in some order have not become longer. -/
theorem length_of_map_perm {f : Bytes → Bytes} (hle : ∀ s, s.length ≤ (f s).length) {names : List Bytes}
    (h : (names.map f).Perm names) : ∀ s ∈ names, (f s).length = s.length := by
  have hsum : ∀ names : List Bytes, (names.map List.length).sum ≤
        ((names.map f).map List.length).sum ∧
      (((names.map f).map List.length).sum = (names.map List.length).sum →
        ∀ s ∈ names, (f s).length = s.length) := by
    intro names
    induction names with
    | nil => exact ⟨Nat.le_refl 0, fun _ => nofun⟩
    | cons s names ih =>
        have hs := hle s
        simp only [List.map_cons, List.sum_cons, List.forall_mem_cons]
        exact ⟨by omega, fun heq => ⟨by omega, ih.2 (by omega)⟩⟩
  exact (hsum names).2 (h.map List.length).sum_nat

/-- The names come out as they were only when each is its own encoding. -/
theorem kept_of_perm {names : List Bytes} (h : (names.map formText).Perm names) :
    ∀ s ∈ names, ∀ c ∈ s, isKept c = true := by
  have hlength := length_of_map_perm (fun s => (formText_length s).1) h
  intro s hs c hc
  refine ((formText_length s).2.mp (hlength s hs) c hc).resolve_right ?_
  rintro rfl
  -- a name with a space is no encoded text
  obtain ⟨t, -, ht⟩ := List.mem_map.mp (h.mem_iff.mpr hs)
  exact (formText_inner (ht.symm ▸ hc : SP ∈ formText t)).2.2.2 rfl

theorem keys_of_stored {pairs : List (Bytes × Bytes)} {entries : CaseMap UrlCodec.Text}
    (h : List.Forall₂ Stored pairs entries) :
    entries.map Prod.fst = (pairs.map Prod.fst).map formText ∧
      ∀ e ∈ entries, ∃ p ∈ pairs, Stored p e := by
  induction h with
  | nil => exact ⟨rfl, nofun⟩
  | cons he hrest ih =>
      refine ⟨?_, ?_⟩
      · rw [List.map_cons, List.map_cons, List.map_cons, ih.1, he.1]
      · intro e hmem
        rcases List.mem_cons.mp hmem with rfl | hmem
        · exact ⟨_, List.mem_cons_self, he⟩
        · obtain ⟨p, hp, hstored⟩ := ih.2 e hmem
          exact ⟨p, List.mem_cons_of_mem _ hp, hstored⟩

/-- The entries of pairs whose names are kept and whose values are decoded. -/
theorem exists_stored {pairs : List (Bytes × Bytes)} (hsized : (formBody pairs).length < OBuffer.UINT32)
    (hnames : ∀ p ∈ pairs, ∀ c ∈ p.1, isKept c = true)
    (hvalues : ∀ p ∈ pairs, p.2.length ≤ 1024 ∧ NUL ∉ p.2.dropLast) :
    ∃ entries, List.Forall₂ Stored pairs entries ∧ entries.map Prod.fst = pairs.map Prod.fst ∧
      (entries.map fun e => (e.1, e.2.read)) = pairs.map fun p => (p.1, some p.2) := by
  have hlt : ∀ p ∈ pairs, (formText p.2).length < OBuffer.UINT32 := by
    intro p hp
    have hle := formField_le hp
    rw [formField, List.length_append, List.length_cons] at hle
    omega
  clear hsized
  induction pairs with
  | nil => exact ⟨[], .nil, rfl, rfl⟩
  | cons p pairs ih =>
      obtain ⟨hname, hnames⟩ := List.forall_mem_cons.mp hnames
      obtain ⟨hvalue, hvalues⟩ := List.forall_mem_cons.mp hvalues
      obtain ⟨hp, hlt⟩ := List.forall_mem_cons.mp hlt
      obtain ⟨t, ht, hread⟩ := (urldecode_formText hp).mpr hvalue
      obtain ⟨entries, hentries, hkeys, hall⟩ := ih hnames hvalues hlt
      refine ⟨(p.1, t) :: entries, .cons ⟨(formText_of_kept hname).symm, ht⟩ hentries, ?_, ?_⟩
      · rw [List.map_cons, List.map_cons, hkeys]
      · rw [List.map_cons, List.map_cons, hall, hread]

/-- The entries hold the pairs exactly when names and values are right for the parser. -/
theorem stored_iff (form : Form) : (∃ entries, List.Forall₂ Stored form.pairs entries ∧
      ((AssocMap.insertAll (Cookies.taken hash) entries).map fun e => (e.1, e.2.read)).Perm
        (form.pairs.map fun p => (p.1, some p.2))) ↔
    (∀ p ∈ form.pairs, ∀ c ∈ p.1, isKept c = true) ∧
      (∀ p ∈ form.pairs, p.2.length ≤ 1024 ∧ NUL ∉ p.2.dropLast) ∧
      form.pairs.Pairwise fun p q => Cookies.taken hash p.1 q.1 = false := by
  constructor
  · rintro ⟨entries, hentries, hperm⟩
    have hlength := hperm.length_eq
    rw [List.length_map, List.length_map, hentries.length_eq] at hlength
    -- nothing is lost, so that no entry was taken for another
    have hall := (AssocMap.insertAll_sublist entries).eq_of_length hlength
    rw [hall] at hperm
    obtain ⟨hkeys, hsource⟩ := keys_of_stored hentries
    have hnames : ∀ s ∈ form.pairs.map Prod.fst, ∀ c ∈ s, isKept c = true := by
      refine kept_of_perm ?_
      have hfst := hperm.map Prod.fst
      rwa [List.map_map, List.map_map, Function.comp_def, Function.comp_def, hkeys] at hfst
    -- a name of kept bytes is its own text
    have hown : ∀ p ∈ form.pairs, formText p.1 = p.1 := fun p hp =>
      formText_of_kept (hnames p.1 (List.mem_map_of_mem hp))
    refine ⟨fun p hp => hnames p.1 (List.mem_map_of_mem hp), fun p hp => ?_, ?_⟩
    · -- the entry with this name is made of this pair
      obtain ⟨e, he, hpair⟩ := List.mem_map.mp (hperm.mem_iff.mpr (List.mem_map_of_mem hp))
      obtain ⟨q, hq, hstored⟩ := hsource e he
      have hname : q.1 = p.1 := (hown q hq).symm.trans (hstored.1.symm.trans (Prod.mk.inj hpair).1)
      obtain rfl := List.inj_on_of_nodup_map form.distinct hq hp hname
      have hle := formField_le hp
      have hsized := form.sized
      rw [formField, List.length_append, List.length_cons] at hle
      exact (urldecode_formText (by omega)).mp ⟨e.2, hstored.2, (Prod.mk.inj hpair).2⟩
    · have hpairwise : (AssocMap.insertAll (Cookies.taken hash) entries).Pairwise
          fun e e' => Cookies.taken hash e.1 e'.1 = false := AssocMap.insertAll_pairwise entries
      rw [hall, ← List.pairwise_map (f := Prod.fst)
        (R := fun a b => Cookies.taken hash a b = false), hkeys, List.map_map,
        List.pairwise_map] at hpairwise
      refine hpairwise.imp_of_mem fun hp hq h => ?_
      rwa [Function.comp_apply, Function.comp_apply, hown _ hp, hown _ hq] at h
  · rintro ⟨hnames, hvalues, hapart⟩
    obtain ⟨entries, hentries, hkeys, hall⟩ := exists_stored form.sized hnames hvalues
    refine ⟨entries, hentries, ?_⟩
    rw [AssocMap.insertAll_of_pairwise, hall]
    rwa [← List.pairwise_map (f := Prod.fst) (R := fun a b => Cookies.taken hash a b = false), hkeys,
      List.pairwise_map]

/-- An empty form is all that is held when nothing is stored. -/
theorem Unparsed.pairs_eq_nil {res : Except FormFault (Bool × CaseMap UrlCodec.Text)}
    (h : Unparsed res) {ok : Bool} {form : CaseMap UrlCodec.Text} (hres : res = .ok (ok, form))
    {pairs : List (Bytes × Bytes)}
    (hperm : (form.map fun e => (e.1, e.2.read)).Perm (pairs.map fun p => (p.1, some p.2))) :
    pairs = [] := by
  rcases h with h | ⟨e, h⟩
  · rw [h] at hres
    rw [← (Prod.mk.inj (Except.ok.inj hres)).2] at hperm
    exact List.map_eq_nil_iff.mp hperm.symm.eq_nil
  · rw [h] at hres
    nomatch hres

/-- What is in memory. -/
theorem parsed_memory_iff (r : Request σ) (spare : Bytes) (size : Nat) (form : Form) :
    Parsed hash ((r.counting (formBody form.pairs).length).inMemory spare size
      (formBody form.pairs) 0) form.pairs ↔ Carried hash form.pairs := by
  by_cases hroom : (formBody form.pairs).length ≤ OBuffer.UINT32 - 10
  swap
  · refine iff_of_false (fun h => ?_) fun h => hroom h.room
    obtain ⟨ok, map, hres, hperm⟩ := h false
    have hnil := (parse_of_no_room r spare size false (Nat.lt_of_not_le hroom) form.sized).pairs_eq_nil
      hres hperm
    rw [hnil] at hroom
    exact hroom (Nat.zero_le _)
  by_cases hempty : form.pairs = []
  · rw [hempty]
    refine iff_of_true (fun stale => ?_) ⟨nofun, nofun, .nil, Nat.zero_le _⟩
    refine ⟨false, [], ?_, .nil⟩
    -- nothing is read of an empty body
    unfold parse_url_encoded_form
    rfl
  have hne : formBody form.pairs ≠ [] := by
    obtain ⟨p, hp⟩ := List.exists_mem_of_ne_nil _ hempty
    intro hnil
    have hle := formField_le hp
    rw [hnil, formField, List.length_append, List.length_cons, List.length_nil] at hle
    omega
  have hparse := fun stale => @parse_of_room _ hash r spare size stale _ hne hroom
  rw [split_formBody] at hparse
  constructor
  · intro h
    obtain ⟨ok, map, hres, hperm⟩ := h false
    rw [hparse] at hres
    cases hstore : storeParts hash (form.pairs.map formField) [] with
    | error e =>
        rw [hstore] at hres
        nomatch hres
    | ok map' =>
        rw [hstore] at hres
        rw [← (Prod.mk.inj (Except.ok.inj hres)).2] at hperm
        obtain ⟨entries, hentries, rfl⟩ := storeParts_ok_iff.mp hstore
        obtain ⟨hnames, hvalues, hapart⟩ := (stored_iff form).mp ⟨entries, hentries, hperm⟩
        exact ⟨hnames, hvalues, hapart, hroom⟩
  · intro h stale
    obtain ⟨entries, hentries, hperm⟩ := (@stored_iff hash form).mpr
      ⟨h.names, h.values, h.apart⟩
    refine ⟨true, AssocMap.insertAll (Cookies.taken hash) entries, ?_, hperm⟩
    rw [hparse, storeParts_ok_iff.mpr ⟨entries, hentries, rfl⟩]
    rfl

/-- **A form is parsed to exactly its pairs: from memory when its names need no encoding and are told
apart by the map, its values fit into the decoder's array and have no NUL in front of their last byte,
and the body leaves room for ten bytes; from a file when there are no pairs.** -/
theorem parsed_iff (r : Request σ) (spare : Bytes) (size pos : Nat) (form : Form) :
    (Parsed hash ((r.counting (formBody form.pairs).length).inMemory spare size
        (formBody form.pairs) 0) form.pairs ↔ Carried hash form.pairs) ∧
      (Parsed hash (r.onDisk (formBody form.pairs) pos) form.pairs ↔ form.pairs = []) := by
  refine ⟨parsed_memory_iff r spare size form, fun h => ?_, fun hnil stale => ?_⟩
  · obtain ⟨ok, map, hres, hperm⟩ := h false
    exact (parse_of_disk ⟨⟨pos, rfl⟩, rfl, rfl⟩ false).pairs_eq_nil hres hperm
  · rw [hnil]
    exact ⟨false, [], parse_of_emptyDisk r pos stale, .nil⟩

end

/-- One pair: the name `a b` is stored as `a+b`. -/
theorem not_parsed_space : ¬ ∀ (hash : Bytes → UInt64) (r : Request Unit) (spare : Bytes)
    (size : Nat) (form : Form), Parsed hash ((r.counting (formBody form.pairs).length).inMemory spare
      size (formBody form.pairs) 0) form.pairs := by
  intro h
  have hparsed := h (fun _ => 0) (cleared ⟨.dead, 0, 0, true⟩) [] 8
    ⟨[(str "a b", str "1")], List.nodup_singleton _, by decide⟩
  have hnames := ((parsed_iff _ [] 8 0 _).1.mp hparsed).names _ List.mem_cons_self
  exact absurd (hnames SP (by decide)) (by decide)

end Suil.Http.Request
