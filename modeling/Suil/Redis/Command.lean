import Suil.Basic.Buffer
import Suil.Lib.Traced
import Suil.Redis.Resp

set_option autoImplicit false

/-! # Commands for Redis

`Commmand` (`redis.h`) writes a command into a buffer while it is put together: the constructor
counts its own arguments, `operator<<` only writes. Strings go through the buffer, the digits of
data and blobs are stored behind it and counted in with `seek`. `encodes_iff` says when the bytes
are the command. -/

namespace Suil.Redis

open OBuffer (Stop)

/-- The parameters there is an overload for. A number is the text of `std::to_string`, a `char*` is
the memory it points to; a `String` that owns its memory is copied on the way. -/
inductive Param where
  | number (text : Sized OBuffer.UINT32)
  | cString (mem : Bytes)
  | string (owned : Bool) (s : Sized OBuffer.UINT32)
  | data (d : Sized OBuffer.UINT32)
  | blob (d : Sized (2 ^ 63))

/-- One `<<`, or the digits that `hexstr` stores. -/
inductive Piece where
  | character (c : UInt8)
  | number (n : Nat)
  | crlf
  | string (mem : Bytes) (len : Nat)
  | hex (data : Bytes)

/-- `utils::hexstr(in, ilen, out, olen)`. -/
def hexstr (data : Bytes) (olen : Nat) : Bytes :=
  if olen < 2 * data.length then [] else OBuffer.hexDigits false data

/-- `reserve`, `hexstr` to behind the contents and `seek`. -/
def hex (b : OBuffer) (data : Bytes) : Except Stop OBuffer := do
  let b := b.reserve (2 * data.length)
  let out := hexstr data b.remaining
  let b ← b.store out
  b.seekBy out.length

/-- `operator<<(const String&)`. -/
def appendString (b : OBuffer) (mem : Bytes) (len : Nat) : Except Stop OBuffer :=
  if len = 0 then .ok b
  else if mem.length < len then .error .overrun
  else b.append (mem.take len)

def write (b : OBuffer) : Piece → Except Stop OBuffer
  | .character c => b.call (.formatted [c])
  | .number n => b.call (.formatted (showNat (n % 2 ^ 64)))
  | .crlf => b.call (.cString Resp.CRLF)
  | .string mem len => appendString b mem len
  | .hex data => hex b data

def writes (b : OBuffer) (ps : List Piece) : Except Stop OBuffer := ps.foldlM write b

/-- `addparam(const String&)`. -/
def addString (mem : Bytes) (len : Nat) : List Piece :=
  [.character 36, .number len, .crlf, .string mem len, .crlf]

/-- `addparam(const Data&)` and `addparam(const Blob<B>&)`. -/
def addHex (data : Bytes) : List Piece :=
  [.character 36, .number (2 * data.length), .crlf, .hex data, .crlf]

/-- `strndup`. -/
def strndup (s : Bytes) : Bytes := cstr s ++ [NUL]

/-- `addparam`. -/
def Param.pieces : Param → List Piece
  | .number text => addString text.bytes text.bytes.length
  | .cString mem => addString (cstr mem ++ [NUL]) ((cstr mem).length % OBuffer.UINT32)
  | .string owned s => addString (if owned then strndup s.bytes else s.bytes) s.bytes.length
  | .data d => addHex d.bytes
  | .blob d => addHex d.bytes

/-- `prepare`, before the parameters. -/
def header (params : List Param) : List Piece :=
  [.character 42, .number (1 + params.length), .crlf]

/-- `Commmand(cmd, params...)`. -/
def construct (cmd : Bytes) (params : List Param) : Except Stop OBuffer :=
  writes (.new (32 + (cstr cmd).length))
    (header params ++ (Param.cString cmd :: params).flatMap Param.pieces)

/-- `operator<<(param)`. -/
def addparam (b : OBuffer) (p : Param) : Except Stop OBuffer := writes b p.pieces

/-- A command with parameters from its constructor and parameters that are added later. -/
def command (cmd : Bytes) (params added : List Param) : Except Stop OBuffer := do
  let b ← construct cmd params
  added.foldlM addparam b

/-! ## What a command should be -/

/-- What a parameter is sent as: data and blobs in hexadecimal digits. -/
def Param.sent : Param → Bytes
  | .number text => text.bytes
  | .cString mem => cstr mem
  | .string _ s => s.bytes
  | .data d => OBuffer.hexDigits false d.bytes
  | .blob d => OBuffer.hexDigits false d.bytes

/-- The array of the command's name and its parameters. -/
def request (cmd : Bytes) (params : List Param) : Resp.Value :=
  .array ((Param.cString cmd :: params).map fun p => .bulk p.sent)

/-- The command is put together and its bytes are the array. -/
def Encodes (cmd : Bytes) (params added : List Param) : Prop :=
  ∃ b, command cmd params added = .ok b ∧
    b.contents = Resp.encode (request cmd (params ++ added))

/-! ## Pieces -/

/-- What a piece is in the buffer. -/
def Piece.text : Piece → Bytes
  | .character c => [c]
  | .number n => showNat (n % 2 ^ 64)
  | .crlf => Resp.CRLF
  | .string mem len => mem.take len
  | .hex data => OBuffer.hexDigits false data

/-- A piece can be written: a string is as long in memory as it says, and there is room. Digits
need one byte more than there are of them, because `seek` does not go to the end. -/
def Room (b : OBuffer) : Piece → Prop
  | .string mem len => len ≤ mem.length ∧ b.Fits len
  | .hex data => b.offset + 2 * data.length < b.reserved (2 * data.length)
  | p => b.Fits p.text.length

/-- The state between two pieces. -/
structure Open (b : OBuffer) : Prop where
  shaped : b.Shaped
  bounded : b.offset ≤ b.size
  begun : 0 < b.offset

variable {b b' : OBuffer}

private theorem open_append {out : Bytes} (h : Open b) (hs : b'.Shaped) (hle : b'.offset ≤ b'.size)
    (hcontents : b'.contents = b.contents ++ out) : Open b' := by
  refine ⟨hs, hle, ?_⟩
  rw [← OBuffer.contents_length hs hle, hcontents, List.length_append,
    OBuffer.contents_length h.shaped h.bounded]
  exact Nat.lt_of_lt_of_le h.begun (Nat.le_add_right ..)

private theorem showNat_length {n k : Nat} (hk : 0 < k) (h : n < 10 ^ k) :
    (showNat n).length ≤ k := by
  rw [showNat, List.length_map]
  exact (Nat.length_toDigits_le_iff (by decide) hk).mpr h

private theorem number_length (n : Nat) : (showNat (n % 2 ^ 64)).length ≤ 20 := by
  apply showNat_length (by decide)
  calc n % 2 ^ 64 < 2 ^ 64 := Nat.mod_lt n (by decide)
    _ < 10 ^ 20 := by decide

/-- The pieces that are text go through `append`. -/
private theorem write_eq_append {p : Piece} (hstring : ∀ mem len, p ≠ .string mem len)
    (hhex : ∀ data, p ≠ .hex data) : write b p = b.append p.text := by
  cases p with
  | character c =>
      have : [c].length < 2048 := by simp
      exact OBuffer.appendv_eq_append this
  | number n =>
      have := number_length n
      exact OBuffer.appendv_eq_append (by omega)
  | crlf => rfl
  | string mem len => exact absurd rfl (hstring mem len)
  | hex data => exact absurd rfl (hhex data)

private theorem append_ok (h : Open b) {bs : Bytes} (hfits : b.Fits bs.length) :
    ∃ b', b.append bs = .ok b' ∧ Open b' ∧ b'.contents = b.contents ++ bs := by
  obtain ⟨b', hb, hs, hcontents, hle⟩ := OBuffer.append_of_fits h.shaped h.bounded hfits
  exact ⟨b', hb, open_append h hs hle hcontents, hcontents⟩

private theorem append_error (h : Open b) {bs : Bytes} (hfits : ¬ b.Fits bs.length) :
    b.append bs = .error .overrun :=
  OBuffer.append_overrun h.shaped h.bounded (.inl h.begun) hfits

/-! ### Digits -/

private theorem open_seek {off : Nat} (hs : b.Shaped) (hle : off ≤ b.size) (hpos : 0 < off) :
    Open { b with offset := off } :=
  ⟨⟨hs.multiple, hs.wide, hs.memory, hs.null⟩, hle, hpos⟩

private theorem contents_seek (b : OBuffer) (off : Nat) :
    ({ b with offset := off } : OBuffer).contents = (b.mem.getD []).take off := rfl

private theorem hex_of_room (h : Open b) {data : Bytes} (hroom : Room b (.hex data)) :
    ∃ b', hex b data = .ok b' ∧ Open b' ∧
      b'.contents = b.contents ++ OBuffer.hexDigits false data := by
  have hdigits := OBuffer.hexDigits_length false data
  obtain ⟨he, hsize, hmem⟩ := OBuffer.reserve_spec h.shaped h.bounded (2 * data.length)
  rw [Room, ← hsize] at hroom
  rw [hex]
  generalize b.reserve (2 * data.length) = b₁ at *
  have ho : b.offset ≤ b₁.size := by omega
  have hremaining : b₁.remaining = b₁.size - b.offset := by
    rw [OBuffer.remaining_eq he.shaped (he.offset.symm ▸ ho), he.offset]
  have hout : hexstr data b₁.remaining = OBuffer.hexDigits false data := if_neg (by omega)
  have hne : OBuffer.hexDigits false data ≠ [] → b₁.mem ≠ none := by
    intro hne
    apply hmem
    rw [← hdigits]
    exact List.length_eq_zero_iff.not.mpr hne
  obtain ⟨b', hstore, hs, hsize', hoffset, htake⟩ := OBuffer.store_ok he hne ho (by omega)
  have hseek : b'.seekBy (OBuffer.hexDigits false data).length =
      .ok { b' with offset := b.offset + 2 * data.length } := by
    rw [OBuffer.seekBy_of_lt, hoffset, hdigits]
    rw [hoffset, hdigits, hsize']
    exact hroom
  have hcontents : ({ b' with offset := b.offset + 2 * data.length } : OBuffer).contents =
      b.contents ++ OBuffer.hexDigits false data := by
    have := htake _ (Nat.le_of_eq hdigits.symm)
    rwa [List.take_of_length_le (Nat.le_of_eq hdigits)] at this
  have hopen : Open { b' with offset := b.offset + 2 * data.length } :=
    open_seek hs (by omega) (Nat.add_pos_left h.begun _)
  refine ⟨_, ?_, hopen, hcontents⟩
  rw [hout, hstore]
  exact hseek

/-- Digits that there is no room for are left out when the capacity has wrapped around. -/
private theorem hex_without_room (h : Open b) {data : Bytes} (hroom : ¬ Room b (.hex data))
    (hhex : hex b data = .ok b') : Open b' ∧ b'.contents = b.contents ∧ data ≠ [] := by
  obtain ⟨he, hsize, -⟩ := OBuffer.reserve_spec h.shaped h.bounded (2 * data.length)
  rw [Room, ← hsize] at hroom
  rw [hex] at hhex
  generalize b.reserve (2 * data.length) = b₁ at *
  obtain ⟨b₂, hstore, hseek⟩ := Except.ok_of_bind hhex
  obtain ⟨hs, hsize', hoffset⟩ := OBuffer.store_shaped he.shaped hstore
  rcases Nat.lt_or_ge (b₂.offset + (hexstr data b₁.remaining).length) b₂.size with hlt | hge
  · rw [OBuffer.seekBy_of_lt hlt] at hseek
    cases hseek
    rw [hoffset, he.offset, hsize'] at hlt
    have ho : b.offset ≤ b₁.size := Nat.le_trans (Nat.le_add_right ..) (Nat.le_of_lt hlt)
    have hless : b₁.remaining < 2 * data.length := by
      apply Nat.lt_of_not_le
      intro hle
      rw [hexstr, if_neg (Nat.not_lt.mpr hle), OBuffer.hexDigits_length] at hlt
      exact hroom hlt
    have hnil : hexstr data b₁.remaining = [] := if_pos hless
    rw [hnil, OBuffer.store, if_pos rfl] at hstore
    obtain rfl : b₁ = b₂ := Except.ok.inj hstore
    have hoff : b₁.offset + (hexstr data b₁.remaining).length = b.offset := by
      rw [hnil, he.offset]
      rfl
    have hcontents := he.contents ho
    rw [OBuffer.contents, he.offset] at hcontents
    have hpos : 0 < data.length := by omega
    rw [hoff, contents_seek]
    exact ⟨open_seek hs ho h.begun, hcontents, List.ne_nil_of_length_pos hpos⟩
  · rw [OBuffer.seekBy_of_le hge] at hseek
    cases hseek

/-! ### Each piece -/

private theorem write_of_room (h : Open b) {p : Piece} (hroom : Room b p) :
    ∃ b', write b p = .ok b' ∧ Open b' ∧ b'.contents = b.contents ++ p.text := by
  have plain (hstring : ∀ mem len, p ≠ .string mem len) (hhex : ∀ data, p ≠ .hex data)
      (hfits : b.Fits p.text.length) :
      ∃ b', write b p = .ok b' ∧ Open b' ∧ b'.contents = b.contents ++ p.text := by
    rw [write_eq_append hstring hhex]
    exact append_ok h hfits
  cases p with
  | character c => exact plain nofun nofun hroom
  | number n => exact plain nofun nofun hroom
  | crlf => exact plain nofun nofun hroom
  | hex data => exact hex_of_room h hroom
  | string mem len =>
      rw [write, appendString, Piece.text]
      by_cases hlen : len = 0
      · rw [if_pos hlen, hlen, List.take_zero, List.append_nil]
        exact ⟨b, rfl, h, rfl⟩
      · rw [if_neg hlen, if_neg (Nat.not_lt.mpr hroom.1)]
        apply append_ok h
        rw [List.length_take, Nat.min_eq_left hroom.1]
        exact hroom.2

private theorem write_without_room (h : Open b) {p : Piece} (hroom : ¬ Room b p)
    (hwrite : write b p = .ok b') : Open b' ∧ b'.contents = b.contents ∧ p.text ≠ [] := by
  have plain (hstring : ∀ mem len, p ≠ .string mem len) (hhex : ∀ data, p ≠ .hex data)
      (hfits : ¬ b.Fits p.text.length) : False := by
    rw [write_eq_append hstring hhex, append_error h hfits] at hwrite
    nomatch hwrite
  cases p with
  | character c => exact (plain nofun nofun hroom).elim
  | number n => exact (plain nofun nofun hroom).elim
  | crlf => exact (plain nofun nofun hroom).elim
  | hex data =>
      obtain ⟨hopen, hcontents, hne⟩ := hex_without_room h hroom hwrite
      refine ⟨hopen, hcontents, ?_⟩
      rw [Piece.text, ← List.length_pos_iff, OBuffer.hexDigits_length]
      have := List.length_pos_iff.mpr hne
      omega
  | string mem len =>
      exfalso
      rw [write, appendString] at hwrite
      by_cases hlen : len = 0
      · exact hroom ⟨hlen ▸ Nat.zero_le _, hlen ▸ .inl h.bounded⟩
      · rw [if_neg hlen] at hwrite
        by_cases hmem : mem.length < len
        · rw [if_pos hmem] at hwrite
          nomatch hwrite
        · have htake : (mem.take len).length = len := by
            rw [List.length_take, Nat.min_eq_left (Nat.not_lt.mp hmem)]
          rw [if_neg hmem, append_error h] at hwrite
          · nomatch hwrite
          · rw [htake]
            exact fun hfits => hroom ⟨Nat.not_lt.mp hmem, hfits⟩

/-! ## Runs -/

/-- The buffer after a piece, unless there is none. -/
def next (b : OBuffer) (p : Piece) : Option OBuffer := (write b p).toOption

private theorem writes_cons (b : OBuffer) (p : Piece) (ps : List Piece) :
    writes b (p :: ps) = write b p >>= fun b => writes b ps := List.foldlM_cons

private theorem writes_of_room (h : Open b) {ps : List Piece}
    (hroom : ∀ q ∈ StepMachine.inputs next b ps, Room q.1 q.2) :
    (∃ b', writes b ps = .ok b' ∧ b'.contents = b.contents ++ ps.flatMap Piece.text) ∧
      ∀ mem len, Piece.string mem len ∈ ps → len ≤ mem.length := by
  induction ps generalizing b with
  | nil => exact ⟨⟨b, rfl, (List.append_nil _).symm⟩, nofun⟩
  | cons p ps ih =>
      rw [StepMachine.inputs, List.forall_mem_cons] at hroom
      obtain ⟨b₁, hwrite, hopen, hcontents⟩ := write_of_room h hroom.1
      have hnext : next b p = some b₁ := by rw [next, hwrite]; rfl
      rw [hnext] at hroom
      obtain ⟨⟨b', hwrites, hall⟩, hmem⟩ := ih hopen hroom.2
      refine ⟨⟨b', ?_, ?_⟩, ?_⟩
      · rw [writes_cons, hwrite]
        exact hwrites
      · rw [hall, hcontents, List.append_assoc, List.flatMap_cons]
      · intro mem len hin
        rcases List.mem_cons.mp hin with rfl | hin
        · exact hroom.1.1
        · exact hmem mem len hin

/-- What is written is never longer than the pieces are, and as long only if there was always
room. -/
private theorem writes_bounded (h : Open b) {ps : List Piece} (hwrites : writes b ps = .ok b') :
    ∃ out, b'.contents = b.contents ++ out ∧ out.length ≤ (ps.flatMap Piece.text).length ∧
      (out.length = (ps.flatMap Piece.text).length →
        ∀ q ∈ StepMachine.inputs next b ps, Room q.1 q.2) := by
  induction ps generalizing b with
  | nil =>
      cases hwrites
      exact ⟨[], (List.append_nil _).symm, Nat.le_refl 0, fun _ => nofun⟩
  | cons p ps ih =>
      rw [writes_cons] at hwrites
      obtain ⟨b₁, hwrite, hrest⟩ := Except.ok_of_bind hwrites
      have hnext : next b p = some b₁ := by rw [next, hwrite]; rfl
      rw [List.flatMap_cons, List.length_append, StepMachine.inputs, List.forall_mem_cons, hnext]
      by_cases hroom : Room b p
      · obtain ⟨_, hwrite', hopen, hcontents⟩ := write_of_room h hroom
        cases hwrite.symm.trans hwrite'
        obtain ⟨out, hout, hle, hall⟩ := ih hopen hrest
        refine ⟨p.text ++ out, ?_, ?_, ?_⟩
        · rw [hout, hcontents, List.append_assoc]
        · rw [List.length_append]
          exact Nat.add_le_add_left hle _
        · rw [List.length_append]
          exact fun heq => ⟨hroom, hall (Nat.add_left_cancel heq)⟩
      · obtain ⟨hopen, hcontents, hne⟩ := write_without_room h hroom hwrite
        obtain ⟨out, hout, hle, -⟩ := ih hopen hrest
        have hpos := List.length_pos_iff.mpr hne
        refine ⟨out, by rw [hout, hcontents], by omega, ?_⟩
        intro heq
        omega

/-! ## Commands -/

/-- A copy that is long enough to be read is the string, which then has a NUL nowhere but at its
end. -/
private theorem strndup_take {s : Bytes} (h : s.length ≤ (strndup s).length) :
    (strndup s).take s.length = s := by
  induction s with
  | nil => rfl
  | cons c s ih =>
      by_cases hc : c = NUL
      · have hcstr : cstr (c :: s) = [] := by rw [cstr, List.takeWhile_cons, if_neg (by simp [hc])]
        rw [strndup, hcstr] at h ⊢
        obtain rfl : s = [] := List.length_eq_zero_iff.mp (by simpa using h)
        rw [hc]
        rfl
      · have hcstr : strndup (c :: s) = c :: strndup s := by
          rw [strndup, cstr, List.takeWhile_cons, if_pos (by simp [hc])]
          rfl
        rw [hcstr] at h ⊢
        exact congrArg (c :: ·) (ih (Nat.le_of_succ_le_succ h))

/-- The length of a C string is kept in 32 bits. -/
def Param.Short : Param → Prop
  | .cString mem => (cstr mem).length < OBuffer.UINT32
  | _ => True

private theorem addString_text (mem : Bytes) (len : Nat) :
    (addString mem len).flatMap Piece.text =
      Resp.line 36 (showNat (len % 2 ^ 64)) ++ (mem.take len ++ Resp.CRLF) := by
  simp [addString, Piece.text, Resp.line]

private theorem addHex_text {data : Bytes} (h : data.length < 2 ^ 63) :
    (addHex data).flatMap Piece.text = Resp.encode (.bulk (OBuffer.hexDigits false data)) := by
  have hnumber : (Piece.number (2 * data.length)).text = showNat (2 * data.length) := by
    rw [Piece.text, Nat.mod_eq_of_lt (by omega)]
  rw [Resp.encode, OBuffer.hexDigits_length, addHex, List.flatMap_cons, List.flatMap_cons, hnumber]
  simp [Piece.text, Resp.line]

/-- What a parameter writes is what it is sent as, when its memory can be read. -/
private theorem pieces_text {p : Param} (hshort : p.Short)
    (hmem : ∀ mem len, Piece.string mem len ∈ p.pieces → len ≤ mem.length) :
    p.pieces.flatMap Piece.text = Resp.encode (.bulk p.sent) := by
  have text {mem s : Bytes} {len : Nat} (hlen : len = s.length) (hlt : len < 2 ^ 64)
      (htake : mem.take len = s) :
      (addString mem len).flatMap Piece.text = Resp.encode (.bulk s) := by
    rw [addString_text, Nat.mod_eq_of_lt hlt, htake, hlen, Resp.encode]
  have narrow {n : Nat} (h : n < OBuffer.UINT32) : n < 2 ^ 64 := Nat.lt_trans h (by decide)
  cases p with
  | number s => exact text rfl (narrow s.bound) List.take_length
  | cString mem =>
      have hmod := Nat.mod_eq_of_lt hshort
      rw [Param.pieces, hmod]
      exact text rfl (narrow hshort) (List.take_left' rfl)
  | string owned s =>
      refine text rfl (narrow s.bound) ?_
      have hle : s.bytes.length ≤ (if owned then strndup s.bytes else s.bytes).length :=
        hmem _ _ (by simp [Param.pieces, addString])
      cases owned with
      | false => exact List.take_length
      | true => exact strndup_take hle
  | data d => exact addHex_text (Nat.lt_trans d.bound (by decide))
  | blob d => exact addHex_text d.bound

private theorem pieces_text_all {ps : List Param} (hshort : ∀ p ∈ ps, p.Short)
    (hmem : ∀ mem len, Piece.string mem len ∈ ps.flatMap Param.pieces → len ≤ mem.length) :
    (ps.flatMap Param.pieces).flatMap Piece.text =
      ps.flatMap fun p => Resp.encode (.bulk p.sent) := by
  induction ps with
  | nil => rfl
  | cons p ps ih =>
      rw [List.forall_mem_cons] at hshort
      rw [List.flatMap_cons, List.flatMap_append, List.flatMap_cons,
        ih hshort.2 fun mem len h => hmem mem len (List.mem_append_right _ h),
        pieces_text hshort.1 fun mem len h => hmem mem len (List.mem_append_left _ h)]

/-- What a parameter writes is never longer than what it is sent as. -/
private theorem pieces_length (p : Param) :
    (p.pieces.flatMap Piece.text).length ≤ (Resp.encode (.bulk p.sent)).length ∧
      ((p.pieces.flatMap Piece.text).length = (Resp.encode (.bulk p.sent)).length → p.Short) := by
  have text {mem s : Bytes} {len : Nat} (hlen : len ≤ s.length) :
      ((addString mem len).flatMap Piece.text).length + s.length ≤
        (Resp.encode (.bulk s)).length + len := by
    have hnumber := showNat_length_mono (Nat.le_trans (Nat.mod_le len (2 ^ 64)) hlen)
    rw [addString_text, Resp.encode]
    simp only [Resp.line, List.length_append, List.length_cons, List.length_take]
    omega
  cases p with
  | number s => exact ⟨Nat.le_of_add_le_add_right (text (Nat.le_refl _)), fun _ => trivial⟩
  | cString mem =>
      have hmod := Nat.mod_le (cstr mem).length OBuffer.UINT32
      have hle := @text (cstr mem ++ [NUL]) _ _ hmod
      refine ⟨Nat.le_of_add_le_add_right (Nat.le_trans hle (Nat.add_le_add_left hmod _)), ?_⟩
      intro heq
      rw [Param.pieces, Param.sent] at heq
      have hlt : (cstr mem).length % OBuffer.UINT32 < OBuffer.UINT32 := Nat.mod_lt _ (by decide)
      exact Nat.lt_of_le_of_lt (by omega) hlt
  | string owned s => exact ⟨Nat.le_of_add_le_add_right (text (Nat.le_refl _)), fun _ => trivial⟩
  | data d =>
      have := addHex_text (Nat.lt_trans d.bound (by decide))
      exact ⟨Nat.le_of_eq (congrArg List.length this), fun _ => trivial⟩
  | blob d => exact ⟨Nat.le_of_eq (congrArg List.length (addHex_text d.bound)), fun _ => trivial⟩

private theorem pieces_length_all (ps : List Param) :
    ((ps.flatMap Param.pieces).flatMap Piece.text).length ≤
        (ps.flatMap fun p => Resp.encode (.bulk p.sent)).length ∧
      (((ps.flatMap Param.pieces).flatMap Piece.text).length =
        (ps.flatMap fun p => Resp.encode (.bulk p.sent)).length → ∀ p ∈ ps, p.Short) := by
  induction ps with
  | nil => exact ⟨Nat.le_refl 0, fun _ => nofun⟩
  | cons p ps ih =>
      obtain ⟨hle, hshort⟩ := pieces_length p
      obtain ⟨hle', hshorts⟩ := ih
      rw [List.flatMap_cons, List.flatMap_append, List.flatMap_cons, List.length_append,
        List.length_append, List.forall_mem_cons]
      exact ⟨Nat.add_le_add hle hle', fun heq => ⟨hshort (by omega), hshorts (by omega)⟩⟩

private theorem encode_request (cmd : Bytes) (params : List Param) :
    Resp.encode (request cmd params) = Resp.line 42 (showNat (1 + params.length)) ++
      (Param.cString cmd :: params).flatMap fun p => Resp.encode (.bulk p.sent) := by
  have hall : ∀ ps : List Param, Resp.encodeAll (ps.map fun p => .bulk p.sent) =
      ps.flatMap fun p => Resp.encode (.bulk p.sent) := by
    intro ps
    induction ps with
    | nil => rw [List.map_nil, Resp.encodeAll, List.flatMap_nil]
    | cons p ps ih => rw [List.map_cons, Resp.encodeAll, List.flatMap_cons, ih]
  rw [request, Resp.encode, hall, List.length_map, List.length_cons, Nat.add_comm]

/-- The pieces of a command in the order in which they are written. -/
def commandPieces (cmd : Bytes) (params added : List Param) : List Piece :=
  header params ++ (Param.cString cmd :: params ++ added).flatMap Param.pieces

private theorem command_eq (cmd : Bytes) (params added : List Param) :
    command cmd params added =
      writes (.new (32 + (cstr cmd).length)) (commandPieces cmd params added) := by
  have hadded : ∀ (ps : List Param) (b : OBuffer),
      ps.foldlM addparam b = writes b (ps.flatMap Param.pieces) := by
    intro ps
    induction ps with
    | nil => exact fun _ => rfl
    | cons p ps ih =>
        intro b
        rw [List.flatMap_cons, writes, List.foldlM_append, List.foldlM_cons]
        exact congrArg (addparam b p >>= ·) (funext ih)
  rw [commandPieces, List.flatMap_append, ← List.append_assoc, writes, List.foldlM_append]
  exact congrArg (construct cmd params >>= ·) (funext (hadded added))

/-- The first character goes into a new buffer of any capacity. -/
private theorem begin_new (capacity : Nat) (c : UInt8) :
    Room (.new capacity) (.character c) ∧
      ∃ b, write (.new capacity) (.character c) = .ok b ∧ Open b ∧ b.contents = [c] := by
  obtain ⟨hs, hle⟩ := OBuffer.new_shaped capacity
  have hoffset : (OBuffer.new capacity).offset = 0 := by
    rw [OBuffer.new]
    split <;> rfl
  have hnil : (OBuffer.new capacity).contents = [] := by
    rw [OBuffer.contents, hoffset, List.take_zero]
  have hlength : [c].length ≤ 1 := Nat.le_refl 1
  have hfits : (OBuffer.new capacity).Fits [c].length := by
    rcases Nat.eq_zero_or_pos (OBuffer.new capacity).size with hzero | hpos
    · right
      rw [hzero]
      exact (by decide : 0 + OBuffer.roundUp (max 0 1) < OBuffer.UINT32)
    · left
      rw [hoffset]
      exact hpos
  obtain ⟨b, hb, hs', hcontents, hle'⟩ := OBuffer.append_of_fits hs hle hfits
  rw [hnil] at hcontents
  refine ⟨hfits, b, ?_, ⟨hs', hle', ?_⟩, hcontents⟩
  · exact (OBuffer.appendv_eq_append (Nat.lt_of_le_of_lt hlength (by decide))).trans hb
  · rw [← OBuffer.contents_length hs' hle', hcontents]
    exact Nat.one_pos

private theorem new_of_room {capacity : Nat} {c : UInt8} {ps : List Piece}
    (hroom : ∀ q ∈ StepMachine.inputs next (.new capacity) (.character c :: ps), Room q.1 q.2) :
    (∃ b, writes (.new capacity) (.character c :: ps) = .ok b ∧
        b.contents = (Piece.character c :: ps).flatMap Piece.text) ∧
      ∀ mem len, Piece.string mem len ∈ ps → len ≤ mem.length := by
  obtain ⟨-, b₁, hwrite, hopen, hcontents⟩ := begin_new capacity c
  have hnext : next (.new capacity) (.character c) = some b₁ := by rw [next, hwrite]; rfl
  rw [StepMachine.inputs, List.forall_mem_cons, hnext] at hroom
  obtain ⟨⟨b, hwrites, hall⟩, hmem⟩ := writes_of_room hopen hroom.2
  refine ⟨⟨b, ?_, ?_⟩, hmem⟩
  · rw [writes_cons, hwrite]
    exact hwrites
  · rw [hall, hcontents]
    rfl

private theorem new_bounded {capacity : Nat} {c : UInt8} {ps : List Piece}
    (hwrites : writes (.new capacity) (.character c :: ps) = .ok b) :
    b.contents.length ≤ ((Piece.character c :: ps).flatMap Piece.text).length ∧
      (b.contents.length = ((Piece.character c :: ps).flatMap Piece.text).length →
        ∀ q ∈ StepMachine.inputs next (.new capacity) (.character c :: ps), Room q.1 q.2) := by
  obtain ⟨hfirst, b₁, hwrite, hopen, hcontents⟩ := begin_new capacity c
  have hnext : next (.new capacity) (.character c) = some b₁ := by rw [next, hwrite]; rfl
  rw [writes_cons, hwrite] at hwrites
  obtain ⟨out, hout, hle, hall⟩ := writes_bounded hopen hwrites
  rw [hout, hcontents, List.flatMap_cons, List.length_append, List.length_append,
    StepMachine.inputs, List.forall_mem_cons, hnext]
  exact ⟨Nat.add_le_add_left hle 1, fun heq => ⟨hfirst, hall (Nat.add_left_cancel heq)⟩⟩

private theorem commandPieces_text (cmd : Bytes) (params added : List Param) :
    (commandPieces cmd params added).flatMap Piece.text =
      Resp.line 42 (showNat ((1 + params.length) % 2 ^ 64)) ++
        ((Param.cString cmd :: params ++ added).flatMap Param.pieces).flatMap Piece.text := by
  rw [commandPieces, List.flatMap_append]
  simp only [header, Piece.text, Resp.line, List.flatMap_cons, List.flatMap_nil, List.append_nil,
    List.cons_append, List.nil_append]

/-- What a command writes is never longer than the array, and as long only if no C string is cut
short. -/
private theorem commandPieces_length (cmd : Bytes) (params added : List Param) :
    ((commandPieces cmd params added).flatMap Piece.text).length ≤
        (Resp.encode (request cmd (params ++ added))).length ∧
      (((commandPieces cmd params added).flatMap Piece.text).length =
        (Resp.encode (request cmd (params ++ added))).length →
          ∀ p ∈ Param.cString cmd :: params ++ added, p.Short) := by
  obtain ⟨hle, hshort⟩ := pieces_length_all (Param.cString cmd :: params ++ added)
  have hcount : (showNat ((1 + params.length) % 2 ^ 64)).length ≤
      (showNat (1 + (params ++ added).length)).length := by
    apply showNat_length_mono
    calc (1 + params.length) % 2 ^ 64 ≤ 1 + params.length := Nat.mod_le _ _
      _ ≤ 1 + (params ++ added).length := by
        rw [List.length_append]
        omega
  rw [commandPieces_text, encode_request, ← List.cons_append]
  simp only [Resp.line, List.length_append, List.length_cons] at hle hshort hcount ⊢
  exact ⟨by omega, fun heq => hshort (by omega)⟩

/-- A command that is as long as the array has found what it needs. -/
private theorem room_of_command {cmd : Bytes} {params added : List Param}
    (hb : command cmd params added = .ok b)
    (hlength : b.contents.length = (Resp.encode (request cmd (params ++ added))).length) :
    (∀ p ∈ Param.cString cmd :: params ++ added, p.Short) ∧
      (∀ q ∈ StepMachine.inputs next (.new (32 + (cstr cmd).length)) (commandPieces cmd params added),
        Room q.1 q.2) ∧
      b.contents = (commandPieces cmd params added).flatMap Piece.text := by
  rw [command_eq] at hb
  -- nothing that is written is longer than it should be, so nothing is shorter
  obtain ⟨hle, hroom⟩ := new_bounded hb
  obtain ⟨hle', hshort⟩ := commandPieces_length cmd params added
  have hrooms := hroom (Nat.le_antisymm hle (hlength ▸ hle'))
  obtain ⟨⟨b', hb', hcontents⟩, -⟩ := new_of_room hrooms
  cases hb.symm.trans hb'
  exact ⟨hshort ((congrArg List.length hcontents).symm.trans hlength), hrooms, hcontents⟩

/-- What the parameters of the constructor need: there are not too many of them, no C string has 2^32
bytes, and each piece finds what it needs. -/
def Sendable (cmd : Bytes) (params : List Param) : Prop :=
  1 + params.length < 2 ^ 64 ∧ (∀ p ∈ Param.cString cmd :: params, p.Short) ∧
    ∀ q ∈ StepMachine.inputs next (.new (32 + (cstr cmd).length)) (commandPieces cmd params []),
      Room q.1 q.2

/-- Nothing is added. -/
theorem command_nil (cmd : Bytes) (params : List Param) :
    command cmd params [] = construct cmd params := by
  rw [command]
  cases construct cmd params with
  | error e => rfl
  | ok b => rfl

/-- **The constructor writes the array of the name and the parameters.** -/
theorem construct_of_sendable {cmd : Bytes} {params : List Param} (h : Sendable cmd params) :
    ∃ b, construct cmd params = .ok b ∧ b.contents = Resp.encode (request cmd params) := by
  obtain ⟨hcount, hshort, hroom⟩ := h
  obtain ⟨⟨b, hb, hcontents⟩, hmem⟩ := new_of_room hroom
  refine ⟨b, ?_, ?_⟩
  · rw [← command_nil, command_eq]
    exact hb
  · have hall : ∀ mem len, Piece.string mem len ∈
        (Param.cString cmd :: params).flatMap Param.pieces → len ≤ mem.length := by
      intro mem len h
      apply hmem mem len
      rw [List.append_nil]
      exact List.mem_cons_of_mem _ (List.mem_cons_of_mem _ h)
    have htext := commandPieces_text cmd params []
    rw [Nat.mod_eq_of_lt hcount, List.append_nil, pieces_text_all hshort hall] at htext
    rw [encode_request, ← htext]
    exact hcontents

/-- A constructor that writes as many bytes as the array has has found what it needs. -/
theorem sendable_of_construct {cmd : Bytes} {params : List Param}
    (hb : construct cmd params = .ok b) (hcount : 1 + params.length < 2 ^ 64)
    (hlength : b.contents.length = (Resp.encode (request cmd params)).length) :
    Sendable cmd params := by
  rw [← command_nil] at hb
  rw [← List.append_nil params] at hlength
  obtain ⟨hshort, hroom, -⟩ := room_of_command hb hlength
  rw [List.append_nil] at hshort
  exact ⟨hcount, hshort, hroom⟩

/-- **The first line of every command counts the parameters of its constructor.** -/
theorem construct_header {cmd : Bytes} {params : List Param} (hb : construct cmd params = .ok b) :
    ∃ rest, b.contents = Resp.line 42 (showNat ((1 + params.length) % 2 ^ 64)) ++ rest := by
  have plain {b b' : OBuffer} {p : Piece} (h : Open b) (hstring : ∀ mem len, p ≠ .string mem len)
      (hhex : ∀ data, p ≠ .hex data) (hwrite : write b p = .ok b') :
      Open b' ∧ b'.contents = b.contents ++ p.text := by
    rw [write_eq_append hstring hhex] at hwrite
    by_cases hfits : b.Fits p.text.length
    · obtain ⟨b₁, hb₁, hopen, hcontents⟩ := append_ok h hfits
      cases hwrite.symm.trans hb₁
      exact ⟨hopen, hcontents⟩
    · rw [append_error h hfits] at hwrite
      nomatch hwrite
  rw [construct, header, List.cons_append, List.cons_append, List.cons_append, writes_cons] at hb
  obtain ⟨-, b₁, hfirst, hopen, hcontents⟩ := begin_new (32 + (cstr cmd).length) 42
  rw [hfirst, Except.bind_of_ok, writes_cons] at hb
  obtain ⟨b₂, hnumber, hb⟩ := Except.ok_of_bind hb
  obtain ⟨hopen₂, hcontents₂⟩ := plain (p := .number _) hopen nofun nofun hnumber
  rw [writes_cons] at hb
  obtain ⟨b₃, hcrlf, hb⟩ := Except.ok_of_bind hb
  obtain ⟨hopen₃, hcontents₃⟩ := plain (p := .crlf) hopen₂ nofun nofun hcrlf
  obtain ⟨rest, hrest, -⟩ := writes_bounded hopen₃ hb
  refine ⟨rest, ?_⟩
  rw [hrest, hcontents₃, hcontents₂, hcontents]
  simp only [Piece.text, Resp.line, List.append_assoc, List.cons_append, List.nil_append]

/-- The bytes of a command are the array of its name and its parameters exactly when nothing is
added with `<<`, no C string has 2^32 bytes, and each piece finds what it needs. -/
theorem encodes_iff (cmd : Bytes) (params added : List Param) :
    Encodes cmd params added ↔
      added = [] ∧ 1 + params.length < 2 ^ 64 ∧ (∀ p ∈ Param.cString cmd :: params, p.Short) ∧
        ∀ q ∈ StepMachine.inputs next (.new (32 + (cstr cmd).length)) (commandPieces cmd params []),
          Room q.1 q.2 := by
  rw [Encodes]
  constructor
  · rintro ⟨b, hb, hencode⟩
    obtain ⟨hshorts, hrooms, hcontents⟩ := room_of_command hb (congrArg List.length hencode)
    have hlines := (commandPieces_text cmd params added).symm.trans (hcontents.symm.trans hencode)
    rw [encode_request] at hlines
    -- the number that was written counts all of them
    have hcount := (Resp.line_showNat_inj hlines).1
    rw [List.length_append] at hcount
    have hmod := Nat.mod_lt (1 + params.length) (by decide : 2 ^ 64 > 0)
    have hle := Nat.mod_le (1 + params.length) (2 ^ 64)
    obtain rfl : added = [] := List.length_eq_zero_iff.mp (by omega)
    rw [List.append_nil] at hshorts
    exact ⟨rfl, by omega, hshorts, hrooms⟩
  · rintro ⟨rfl, hsendable⟩
    obtain ⟨b, hb, hencode⟩ := construct_of_sendable hsendable
    refine ⟨b, (command_nil cmd params).trans hb, ?_⟩
    rw [List.append_nil]
    exact hencode

example : (command (str "SET") [.data ⟨List.replicate 11 0, by decide⟩] []).toOption = none := by
  decide

/-- A parameter that is added later is not counted. -/
theorem not_encodes_added : ¬ ∀ cmd params added, Encodes cmd params added := by
  intro h
  obtain ⟨b, hb, hencode⟩ := h (str "SET") [] [.cString (str "k")]
  have hcommand : (command (str "SET") [] [.cString (str "k")]).toOption.map OBuffer.contents =
      some (str "*1" ++ [CR, LF] ++ str "$3" ++ [CR, LF] ++ str "SET" ++ [CR, LF] ++
        str "$1" ++ [CR, LF] ++ str "k" ++ [CR, LF]) := by decide
  rw [hb, Except.toOption, Option.map_some, hencode, encode_request] at hcommand
  exact absurd hcommand (by decide)

end Suil.Redis
