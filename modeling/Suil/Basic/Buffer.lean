import Mathlib
import Suil.Basic.CString
import Suil.Basic.OBuffer
import Suil.Lib.StepMachine

set_option autoImplicit false

/-! # Appending to output buffers

The functions of `OBuffer` that append (`buffer.h`, `buffer.cpp`). Each makes room with `grow`, in
32 bits, and stores at the offset. Formatted text goes through 2048 bytes of the stack, or straight
into what is left of the buffer. `refines_iff` says for which calls the buffer is a list of bytes
that only grows.

What `vsnprintf` and `strftime` would write in full is an argument, and `realloc` has memory to
give. -/

namespace Suil.OBuffer

/-- How a call ends that does not return: with an exception that leaves a buffer behind, at an
assertion, or with an access outside of the memory there is. -/
inductive Stop where
  | thrown (b : OBuffer)
  | aborted
  | overrun
  deriving DecidableEq, Repr

def INT_MAX : Nat := 2 ^ 31 - 1

/-- The bytes up to the offset. -/
def contents (b : OBuffer) : Bytes := (b.mem.getD []).take b.offset

/-- `m_size - m_offset`. -/
def remaining (b : OBuffer) : Nat := (b.size + UINT32 - b.offset) % UINT32

/-- Memory with other bytes from a place on. -/
def overwrite (off : Nat) (bs mem : Bytes) : Bytes :=
  mem.take off ++ bs ++ mem.drop (off + bs.length)

/-- A store through `m_data + m_offset`. -/
def store (b : OBuffer) (bs : Bytes) : Except Stop OBuffer :=
  if bs = [] then .ok b
  else if b.offset + bs.length ≤ (b.mem.getD []).length then
    .ok { b with mem := b.mem.map (overwrite b.offset bs) }
  else .error .overrun

/-- `m_offset += n`. -/
def advance (b : OBuffer) (n : Nat) : OBuffer := { b with offset := (b.offset + n) % UINT32 }

/-- What `append` and `appendnv` do to have room for so many bytes. -/
def room (b : OBuffer) (len : Nat) : OBuffer :=
  if b.remaining < len then b.grow (max b.size len % UINT32) else b

/-- `seek(off)`. -/
def seekBy (b : OBuffer) (off : Nat) : Except Stop OBuffer :=
  match b.seek off with
  | .ok b' => .ok b'
  | .error _ => .error (.thrown b)

theorem seekBy_of_lt {b : OBuffer} {off : Nat} (h : b.offset + off < b.size) :
    b.seekBy off = .ok { b with offset := b.offset + off } := by
  rw [seekBy, seek, bseek, if_pos h]

theorem seekBy_of_le {b : OBuffer} {off : Nat} (h : b.size ≤ b.offset + off) :
    b.seekBy off = .error (.thrown b) := by
  rw [seekBy, seek, bseek, if_neg (Nat.not_lt.mpr h)]

/-! ## Calls -/

/-- `append(data, len)`. -/
def append (b : OBuffer) (data : Bytes) : Except Stop OBuffer := do
  let b ← (b.room data.length).store data
  .ok (b.advance data.length)

/-- `append(nullptr, len)`. -/
def appendNull (b : OBuffer) (len : Nat) : Except Stop OBuffer :=
  if len ≠ 0 then .error (.thrown b) else .ok b

/-- The bytes that `vsnprintf` stores in a buffer of `n` bytes. -/
def printed (n : Nat) (text : Bytes) : Bytes :=
  if n = 0 then [] else text.take (n - 1) ++ [NUL]

/-- `appendv`, through `char sb[2048]`. -/
def appendv (b : OBuffer) (text : Bytes) : Except Stop OBuffer :=
  if INT_MAX < text.length then .error (.thrown b)
  else if 2048 < text.length then .error .overrun
  else b.append ((printed 2048 text).take text.length)

/-- `appendnv`. -/
def appendnv (b : OBuffer) (hint : Nat) (text : Bytes) : Except Stop OBuffer :=
  if b.mem = none ∨ hint = 0 then .error .aborted
  else do
    let b := b.room hint
    let b ← if INT_MAX < text.length then .ok b else b.store (printed b.remaining text)
    if INT_MAX < text.length ∨ b.size < (text.length + b.offset) % UINT32 then .error (.thrown b)
    else .ok (b.advance text.length)

/-- `utils::i2c`. -/
def i2c (c : UInt8) (caps : Bool) : UInt8 :=
  if c ≤ 9 then c + 48 else if caps then c + 55 else c + 87

/-- The two digits of each byte. -/
def hexDigits (caps : Bool) (data : Bytes) : Bytes :=
  data.flatMap fun c : UInt8 => [i2c (c >>> 4 &&& 0x0F) caps, i2c (c &&& 0x0F) caps]

/-- `hex(data, size, caps)`; the digits are stored one by one. -/
def hex (b : OBuffer) (data : Bytes) (caps : Bool) : Except Stop OBuffer := do
  let b ← (b.reserve (2 * data.length)).store (hexDigits caps data)
  .ok (b.advance (2 * data.length))

/-- `append(t, fmt)`: `strftime` stores nothing that anyone may rely on when 64 bytes are not
enough. -/
def appendTime (b : OBuffer) (text : Bytes) : Except Stop OBuffer := do
  let b := b.reserve 64
  if text.length < 64 then
    let b ← b.store (text ++ [NUL])
    .ok (b.advance text.length)
  else .ok b

/-- `operator<<` for a formatter that asks for `reqsz` bytes and prints into them. -/
def appendFmter (b : OBuffer) (reqsz : Nat) (text : Bytes) : Except Stop OBuffer := do
  let b ← (b.reserve reqsz).store (printed reqsz text)
  .ok (b.advance (min text.length reqsz))

/-- `clear`. -/
def clear (_ : OBuffer) : OBuffer := ⟨none, 0, 0⟩

/-- The calls that a buffer is used with. `bytes` is `append` and `operator<<` for memory with its
size: views, strings, buffers, and numbers in their binary form; `formatted` is `appendf` and
`operator<<` for numbers. -/
inductive Call where
  | bytes (data : Bytes)
  | null (len : Nat)
  | cString (s : Bytes)
  | stdString (s : Bytes)
  | formatted (text : Bytes)
  | hinted (hint : Nat) (text : Bytes)
  | hexNumber (text : Bytes)
  | hexData (data : Bytes) (caps : Bool)
  | time (text : Bytes)
  | fmtnum (text : Bytes)
  | fmtbool (b : Bool)
  | reserve (n : Nat)
  | clear

/-- `fmtbool`. -/
def boolText (b : Bool) : Bytes := if b then str "True" else str "False"

def call (b : OBuffer) : Call → Except Stop OBuffer
  | .bytes data => b.append data
  | .null len => b.appendNull len
  | .cString s => b.append ((cstr s).take ((cstr s).length % UINT32))
  | .stdString s => b.append ((cstr s).take ((cstr s).length % UINT32))
  | .formatted text => b.appendv text
  | .hinted hint text => b.appendnv (hint % UINT32) text
  | .hexNumber text => b.appendnv 8 text
  | .hexData data caps => b.hex data caps
  | .time text => b.appendTime text
  | .fmtnum text => b.appendFmter 32 text
  | .fmtbool v => b.appendFmter 6 (boolText v)
  | .reserve n => .ok (b.reserve n)
  | .clear => .ok b.clear

/-- The buffer that a call leaves behind, unless the process ends in it. -/
def next (b : OBuffer) (c : Call) : Option OBuffer :=
  match b.call c with
  | .ok b' | .error (.thrown b') => some b'
  | .error _ => none

/-! ## The list of bytes -/

/-- What the contents should be after a call. -/
def Call.effect (old : Bytes) : Call → Bytes
  | .null _ | .reserve _ => old
  | .clear => []
  | .bytes bs | .stdString bs | .formatted bs | .hinted _ bs | .hexNumber bs | .time bs
  | .fmtnum bs => old ++ bs
  | .cString s => old ++ cstr s
  | .hexData data caps => old ++ hexDigits caps data
  | .fmtbool v => old ++ boolText v

/-- `m_offset <= m_size <= allocated size - 1`, where nothing is allocated for a null pointer. -/
def Bounded (b : OBuffer) : Prop := b.offset ≤ b.size ∧ b.size ≤ (b.mem.getD []).length - 1

/-- The call does to the buffer what it does to a list of bytes, or it throws and does nothing. -/
def Keeps (b : OBuffer) (c : Call) : Prop :=
  match b.call c with
  | .ok b' => b'.contents = c.effect b.contents ∧ b'.Bounded
  | .error (.thrown b') => b'.contents = b.contents ∧ b'.Bounded
  | .error _ => False

/-- What the constructor and `grow` see to. -/
structure Shaped (b : OBuffer) : Prop where
  multiple : b.size % 8 = 0
  wide : b.size < UINT32
  memory : (b.mem.getD []).length = if b.mem = none then 0 else b.size + 1
  null : b.mem = none → b.size = 0

theorem shaped_null : Shaped ⟨none, 0, 0⟩ := ⟨rfl, by decide, rfl, fun _ => rfl⟩

/-! ## Growing -/

/-- The next multiple of the size of a pointer. -/
def roundUp (n : Nat) : Nat := n + align n

/-- The capacity of a buffer that has grown by at least so many bytes, and at least to the double,
unless there is room for `n`. -/
def grown (b : OBuffer) (n add : Nat) : Nat :=
  if b.offset + n ≤ b.size then b.size else (b.size + roundUp (max b.size add)) % UINT32

theorem roundUp_multiple (n : Nat) : roundUp n % 8 = 0 := by
  unfold roundUp align
  split <;> omega

theorem roundUp_lt (n : Nat) : n ≤ roundUp n ∧ roundUp n < n + 8 := by
  unfold roundUp align
  split <;> omega

private theorem grow_size (b : OBuffer) (add : Nat) :
    (b.grow (add % UINT32)).size = (b.size + roundUp add) % UINT32 := by
  unfold grow roundUp align UINT32
  dsimp only
  split <;> split <;> omega

private theorem mod_wide (n : Nat) : n % UINT32 < UINT32 := Nat.mod_lt n (by decide)

variable {b b₁ : OBuffer}

private theorem bounded_iff (h : b.Shaped) : b.Bounded ↔ b.offset ≤ b.size := by
  apply and_iff_left
  rw [h.memory]
  split
  · next hnone => exact Nat.le_of_eq (h.null hnone)
  · exact Nat.le_refl _

private theorem realloc_length (mem : Option Bytes) (n : Nat) : (realloc mem n).length = n := by
  simp only [realloc, List.length_append, List.length_take, List.length_replicate]
  omega

theorem grow_shaped (h : b.size % 8 = 0) (add : Nat) : (b.grow add).Shaped := by
  have hmultiple : (b.grow add).size % 8 = 0 := by
    unfold grow align UINT32
    dsimp only
    split <;> omega
  have hlt : (b.grow add).size < UINT32 := mod_wide _
  have hmemory : ((b.grow add).mem.getD []).length = (b.grow add).size + 1 := by
    show (realloc b.mem ((b.size + (add + align add) % UINT32 + 1) % UINT32)).length = _
    rw [realloc_length]
    show _ = (b.size + (add + align add) % UINT32) % UINT32 + 1
    have h₂ : (b.size + (add + align add) % UINT32) % UINT32 % 8 = 0 := hmultiple
    unfold UINT32 at *
    omega
  exact ⟨hmultiple, hlt, hmemory.trans (if_neg nofun).symm, nofun⟩

theorem room_shaped (h : b.Shaped) (len : Nat) : (b.room len).Shaped := by
  rw [room]
  split
  · exact grow_shaped h.multiple _
  · exact h

theorem reserve_shaped (h : b.Shaped) (n : Nat) : (b.reserve n).Shaped := by
  rw [reserve]
  split
  · exact grow_shaped h.multiple _
  · exact h

/-- More room for the same bytes, as long as they are not beyond it. -/
structure Extends (b b₁ : OBuffer) : Prop where
  shaped : b₁.Shaped
  offset : b₁.offset = b.offset
  contents : b.offset ≤ b₁.size → b₁.contents = b.contents

theorem Extends.refl (h : b.Shaped) : Extends b b := ⟨h, rfl, fun _ => rfl⟩

private theorem grow_extends (h : b.Shaped) (ho : b.offset ≤ b.size) (add : Nat) :
    Extends b (b.grow add) := by
  refine ⟨grow_shaped h.multiple add, rfl, ?_⟩
  intro hle
  show (realloc b.mem _).take b.offset = (b.mem.getD []).take b.offset
  have hlen := realloc_length b.mem ((b.size + (add + align add) % UINT32 + 1) % UINT32)
  have hgrown := (grow_shaped h.multiple add).memory
  rw [if_neg nofun] at hgrown
  have hroom : b.offset ≤ (b.size + (add + align add) % UINT32 + 1) % UINT32 := by
    rw [← hlen]
    exact Nat.le_trans (Nat.le_succ_of_le hle) (Nat.le_of_eq hgrown.symm)
  have hold : b.offset ≤ (b.mem.getD []).length := by
    rw [h.memory]
    split
    · next hnone => exact Nat.le_trans ho (Nat.le_of_eq (h.null hnone))
    · exact Nat.le_succ_of_le ho
  rw [realloc, List.take_append_of_le_length, List.take_take, Nat.min_eq_left hroom]
  rw [List.length_take]
  exact Nat.le_min.mpr ⟨hroom, hold⟩

theorem remaining_eq (h : b.Shaped) (ho : b.offset ≤ b.size) :
    b.remaining = b.size - b.offset := by
  have := h.wide
  unfold remaining UINT32 at *
  omega

theorem room_spec (h : b.Shaped) (ho : b.offset ≤ b.size) (len : Nat) :
    Extends b (b.room len) ∧ (b.room len).size = b.grown len len ∧
      (len ≠ 0 → (b.room len).mem ≠ none) := by
  rw [room, grown, remaining_eq h ho]
  by_cases hlt : b.size - b.offset < len
  · rw [if_pos hlt, if_neg (by omega), grow_size]
    exact ⟨grow_extends h ho _, rfl, fun _ => nofun⟩
  · rw [if_neg hlt, if_pos (by omega)]
    refine ⟨.refl h, rfl, ?_⟩
    intro hlen hnone
    have := h.null hnone
    omega

/-- The capacity after `reserve`. -/
def reserved (b : OBuffer) (n : Nat) : Nat := b.grown n (b.offset + n - b.size)

theorem reserve_spec (h : b.Shaped) (ho : b.offset ≤ b.size) (n : Nat) :
    Extends b (b.reserve n) ∧ (b.reserve n).size = b.reserved n ∧
      (n ≠ 0 → (b.reserve n).mem ≠ none) := by
  have hremaining : (b.size + UINT32 - b.offset) % UINT32 = b.size - b.offset := remaining_eq h ho
  rw [reserve, reserved, grown]
  simp only [hremaining]
  by_cases hlt : b.size - b.offset < n
  · rw [if_pos hlt, if_neg (by omega), grow_size,
      show n - (b.size - b.offset) = b.offset + n - b.size by omega]
    exact ⟨grow_extends h ho _, rfl, fun _ => nofun⟩
  · rw [if_neg hlt, if_pos (by omega)]
    refine ⟨.refl h, rfl, ?_⟩
    intro hn hnone
    have := h.null hnone
    omega

/-! ## Storing -/

theorem overwrite_length {off : Nat} {bs mem : Bytes} (h : off + bs.length ≤ mem.length) :
    (overwrite off bs mem).length = mem.length := by
  simp only [overwrite, List.length_append, List.length_take, List.length_drop]
  omega

theorem overwrite_take {off : Nat} {bs mem : Bytes} (h : off ≤ mem.length) {k : Nat}
    (hk : k ≤ bs.length) : (overwrite off bs mem).take (off + k) = mem.take off ++ bs.take k := by
  have hlen : (mem.take off).length = off := by rw [List.length_take, Nat.min_eq_left h]
  rw [overwrite, List.append_assoc, List.take_append, hlen, List.take_of_length_le (by omega),
    Nat.add_sub_cancel_left, List.take_append_of_le_length hk]

theorem store_shaped {bs : Bytes} (h : b.Shaped) {b' : OBuffer} (hb : b.store bs = .ok b') :
    b'.Shaped ∧ b'.size = b.size ∧ b'.offset = b.offset := by
  rw [store] at hb
  split at hb
  · cases hb
    exact ⟨h, rfl, rfl⟩
  · split at hb
    · next hfit =>
        cases hb
        refine ⟨⟨h.multiple, h.wide, ?_, ?_⟩, rfl, rfl⟩
        · cases hmem : b.mem with
          | none =>
              have := h.memory
              rw [hmem] at this
              exact this
          | some mem =>
              have := h.memory
              rw [hmem] at hfit this
              exact (overwrite_length hfit).trans this
        · exact fun hnone => h.null (Option.map_eq_none_iff.mp hnone)
    · nomatch hb

/-- Nothing that may be given to the caller: a store outside of the memory, or an offset beyond
the capacity. -/
def Lost (r : Except Stop OBuffer) : Prop :=
  r = .error .overrun ∨ ∃ b', r = .ok b' ∧ b'.size < b'.offset

/-- A store, after which the offset moves. -/
def put (b : OBuffer) (bs : Bytes) (k : Nat) : Except Stop OBuffer := do
  let b ← b.store bs
  .ok (b.advance k)

private theorem put_of_nil (b : OBuffer) (k : Nat) : b.put [] k = .ok (b.advance k) := rfl

private theorem put_of_fits {bs : Bytes} (hne : bs ≠ [])
    (hfit : b.offset + bs.length ≤ (b.mem.getD []).length) (k : Nat) :
    b.put bs k = .ok (OBuffer.advance { b with mem := b.mem.map (overwrite b.offset bs) } k) := by
  rw [put, store, if_neg hne, if_pos hfit]
  rfl

private theorem put_overrun {bs : Bytes} (hne : bs ≠ [])
    (hfit : ¬ b.offset + bs.length ≤ (b.mem.getD []).length) (k : Nat) :
    b.put bs k = .error .overrun := by
  rw [put, store, if_neg hne, if_neg hfit]
  rfl

section

variable (he : Extends b b₁) {bs : Bytes} {k : Nat} (hmem : bs ≠ [] → b₁.mem ≠ none)
  (hk : bs.length = k ∨ bs.length = k + 1)
include he hmem hk

omit hk in
theorem store_ok (ho : b.offset ≤ b₁.size) (hfit : b.offset + bs.length ≤ b₁.size + 1) :
    ∃ b', b₁.store bs = .ok b' ∧ b'.Shaped ∧ b'.size = b₁.size ∧ b'.offset = b.offset ∧
      ∀ k ≤ bs.length, (b'.mem.getD []).take (b.offset + k) = b.contents ++ bs.take k := by
  have hcontents := he.contents ho
  rw [contents, he.offset] at hcontents
  by_cases hne : bs = []
  · subst hne
    refine ⟨b₁, rfl, he.shaped, rfl, he.offset, ?_⟩
    intro k hk
    obtain rfl : k = 0 := Nat.le_zero.mp hk
    rw [List.take_nil, List.append_nil]
    exact hcontents
  · have hlen : (b₁.mem.getD []).length = b₁.size + 1 :=
      he.shaped.memory.trans (if_neg (hmem hne))
    have hroom : b₁.offset + bs.length ≤ (b₁.mem.getD []).length := by
      rw [hlen, he.offset]
      exact hfit
    have hstore : b₁.store bs = .ok { b₁ with mem := b₁.mem.map (overwrite b₁.offset bs) } := by
      rw [store, if_neg hne, if_pos hroom]
    obtain ⟨hs, hsize, hoffset⟩ := store_shaped he.shaped hstore
    refine ⟨_, hstore, hs, hsize, hoffset.trans he.offset, ?_⟩
    intro k hk
    obtain ⟨mem, hsome⟩ := Option.ne_none_iff_exists'.mp (hmem hne)
    rw [hsome, Option.getD_some] at hlen hcontents
    show ((b₁.mem.map (overwrite b₁.offset bs)).getD []).take (b.offset + k) = _
    rw [hsome, Option.map_some, Option.getD_some, he.offset, overwrite_take (by omega) hk,
      hcontents]

private theorem put_ok (hfit : b.offset + k ≤ b₁.size) :
    ∃ b', b₁.put bs k = .ok b' ∧ b'.Shaped ∧ b'.contents = b.contents ++ bs.take k ∧
      b'.offset ≤ b'.size := by
  have ho : b.offset ≤ b₁.size := Nat.le_trans (Nat.le_add_right _ k) hfit
  obtain ⟨b', hstore, hs, hsize, hoffset, htake⟩ := store_ok he hmem ho (by omega)
  have hadvance : (b'.offset + k) % UINT32 = b.offset + k := by
    rw [hoffset]
    exact Nat.mod_eq_of_lt (Nat.lt_of_le_of_lt hfit he.shaped.wide)
  refine ⟨b'.advance k, ?_, ⟨hs.multiple, hs.wide, hs.memory, hs.null⟩, ?_, ?_⟩
  · rw [put, hstore]
    rfl
  · show (b'.mem.getD []).take ((b'.offset + k) % UINT32) = _
    rw [hadvance]
    exact htake k (by omega)
  · show (b'.offset + k) % UINT32 ≤ b'.size
    rw [hadvance, hsize]
    exact hfit

private theorem put_lost (h : b.Shaped) (ho : b.offset ≤ b.size) (hfit : ¬ b.offset + k ≤ b₁.size) :
    Lost (b₁.put bs k) := by
  have hwide := he.shaped.wide
  have hmultiple := he.shaped.multiple
  have hoffset : b.offset < UINT32 := Nat.lt_of_le_of_lt ho h.wide
  by_cases hne : bs = []
  · subst hne
    obtain rfl : k = 0 := hk.elim (fun hk => hk.symm) nofun
    refine .inr ⟨_, put_of_nil b₁ 0, ?_⟩
    show b₁.size < (b₁.offset + 0) % UINT32
    rw [he.offset, Nat.add_zero, Nat.mod_eq_of_lt hoffset]
    exact Nat.not_le.mp hfit
  · have hlen : (b₁.mem.getD []).length = b₁.size + 1 :=
      he.shaped.memory.trans (if_neg (hmem hne))
    by_cases hstore : b₁.offset + bs.length ≤ (b₁.mem.getD []).length
    · -- the last byte lands on the place that is kept for a NUL
      refine .inr ⟨_, put_of_fits hne hstore k, ?_⟩
      show b₁.size < (b₁.offset + k) % UINT32
      rw [hlen, he.offset] at hstore
      rw [he.offset]
      unfold UINT32 at *
      omega
    · exact .inl (put_overrun hne hstore k)

end

/-! ## What each call needs -/

private theorem keeps_of_ok {c : Call} {b' : OBuffer} (hc : b.call c = .ok b') (hs : b'.Shaped) :
    b.Keeps c ↔ b'.contents = c.effect b.contents ∧ b'.offset ≤ b'.size := by
  rw [Keeps, hc, ← bounded_iff hs]

private theorem keeps_of_thrown {c : Call} {b' : OBuffer} (hc : b.call c = .error (.thrown b'))
    (hs : b'.Shaped) : b.Keeps c ↔ b'.contents = b.contents ∧ b'.offset ≤ b'.size := by
  rw [Keeps, hc, ← bounded_iff hs]

private theorem not_keeps_of_lost {c : Call} (hlost : Lost (b.call c)) : ¬ b.Keeps c := by
  rw [Keeps]
  rcases hlost with hc | ⟨b', hc, hlt⟩
  · rw [hc]
    exact fun hfalse => hfalse
  · rw [hc]
    exact fun hkeeps => absurd hkeeps.2.1 (Nat.not_le.mpr hlt)

/-- A call that makes room and then stores does what it should when there is room, and when the
bytes are those that it should store. -/
private theorem keeps_put {c : Call} {bs : Bytes} {k : Nat} (h : b.Shaped) (ho : b.offset ≤ b.size)
    (he : Extends b b₁) (hmem : bs ≠ [] → b₁.mem ≠ none)
    (hk : bs.length = k ∨ bs.length = k + 1) (hc : b.call c = b₁.put bs k) :
    b.Keeps c ↔ c.effect b.contents = b.contents ++ bs.take k ∧ b.offset + k ≤ b₁.size := by
  by_cases hfit : b.offset + k ≤ b₁.size
  · obtain ⟨b', hput, hs, hcontents, hle⟩ := put_ok he hmem hk hfit
    rw [keeps_of_ok (hc.trans hput) hs, hcontents]
    exact ⟨fun hkeeps => ⟨hkeeps.1.symm, hfit⟩, fun hkeeps => ⟨hkeeps.1.symm, hle⟩⟩
  · exact iff_of_false (not_keeps_of_lost (hc ▸ put_lost he hmem hk h ho hfit))
      fun hfits => hfit hfits.2

/-- So many bytes can be appended: there is room for them, or the capacity does not wrap around
when it is doubled, or made larger by what is appended. -/
def Fits (b : OBuffer) (len : Nat) : Prop :=
  b.offset + len ≤ b.size ∨ b.size + roundUp (max b.size len) < UINT32

/-- A formatter with `n` bytes for its text stores all of it: the last byte is always a NUL. -/
def Printed (n : Nat) (text : Bytes) : Prop :=
  text.length < n ∨ text.length = n ∧ ∀ c ∈ text.getLast?, c = NUL

/-- What `appendnv` needs. -/
def Hinted (b : OBuffer) (hint : Nat) (text : Bytes) : Prop :=
  b.mem ≠ none ∧ hint ≠ 0 ∧ b.offset ≤ b.grown hint hint ∧
    (INT_MAX < text.length ∨ Printed (b.grown hint hint - b.offset) text ∨
      b.grown hint hint - b.offset < text.length ∧ b.offset + text.length < UINT32)

/-- The state in which a call refines the list of bytes. -/
def Meets (b : OBuffer) : Call → Prop
  | .bytes data => b.Fits data.length
  | .cString s => b.Fits (cstr s).length
  | .stdString s => NUL ∉ s ∧ b.Fits s.length
  | .formatted text => INT_MAX < text.length ∨ Printed 2048 text ∧ b.Fits text.length
  | .hinted hint text => b.Hinted (hint % UINT32) text
  | .hexNumber text => b.Hinted 8 text
  | .hexData data _ => b.offset + 2 * data.length ≤ b.reserved (2 * data.length)
  | .time text => text.length < 64 ∧ b.offset + text.length ≤ b.reserved 64
  | .fmtnum text => Printed 32 text ∧ b.offset + text.length ≤ b.reserved 32
  | .fmtbool v => b.offset + (boolText v).length ≤ b.reserved 6
  | .reserve n => b.offset ≤ b.reserved n
  | .null _ | .clear => True

private theorem fits_iff (h : b.Shaped) (ho : b.offset ≤ b.size) (len : Nat) :
    b.Fits len ↔ b.offset + len ≤ b.grown len len := by
  have hwide := h.wide
  have hmultiple := h.multiple
  obtain ⟨hle, hlt⟩ := roundUp_lt (max b.size len)
  have hrounded := roundUp_multiple (max b.size len)
  rw [Fits, grown]
  by_cases hroom : b.offset + len ≤ b.size
  · rw [if_pos hroom]
    exact iff_of_true (.inl hroom) hroom
  · rw [if_neg hroom, or_iff_right hroom]
    generalize roundUp (max b.size len) = r at *
    unfold UINT32 at *
    rcases Nat.le_total b.size len with hsize | hsize
    · rw [Nat.max_eq_right hsize] at hle hlt
      omega
    · rw [Nat.max_eq_left hsize] at hle hlt
      omega

/-- What fits is appended. -/
theorem append_of_fits (h : b.Shaped) (ho : b.offset ≤ b.size) {bs : Bytes}
    (hfits : b.Fits bs.length) : ∃ b', b.append bs = .ok b' ∧ b'.Shaped ∧
      b'.contents = b.contents ++ bs ∧ b'.offset ≤ b'.size := by
  obtain ⟨he, hsize, hmem⟩ := room_spec h ho bs.length
  have hne : bs ≠ [] → (b.room bs.length).mem ≠ none :=
    fun hne => hmem (List.length_eq_zero_iff.not.mpr hne)
  have hroom := (fits_iff h ho bs.length).mp hfits
  obtain ⟨b', hput, hs, hcontents, hle⟩ := put_ok he hne (.inl rfl) (hsize ▸ hroom)
  rw [List.take_length] at hcontents
  exact ⟨b', hput, hs, hcontents, hle⟩

theorem append_size (h : b.Shaped) (ho : b.offset ≤ b.size) {bs : Bytes} {b' : OBuffer}
    (happend : b.append bs = .ok b') : b'.size = b.grown bs.length bs.length := by
  rw [append] at happend
  cases hstore : (b.room bs.length).store bs with
  | error e =>
      rw [hstore] at happend
      nomatch happend
  | ok b₂ =>
      rw [hstore] at happend
      cases happend
      obtain ⟨he, hroom, -⟩ := room_spec h ho bs.length
      exact (store_shaped he.shaped hstore).2.1.trans hroom

/-- What does not fit is stored outside of the memory, unless it is all of nearly 2^32 bytes. -/
theorem append_overrun (h : b.Shaped) (ho : b.offset ≤ b.size) {bs : Bytes}
    (hpos : 0 < b.offset ∨ bs.length + 8 < UINT32) (hfits : ¬ b.Fits bs.length) :
    b.append bs = .error .overrun := by
  have hwide := h.wide
  have hmultiple := h.multiple
  obtain ⟨he, hsize, hmem⟩ := room_spec h ho bs.length
  have hlost := mt (fits_iff h ho bs.length).mpr hfits
  have hne : bs ≠ [] := by
    rintro rfl
    exact hfits (.inl ho)
  have hlen : ((b.room bs.length).mem.getD []).length = (b.room bs.length).size + 1 :=
    he.shaped.memory.trans (if_neg (hmem (List.length_eq_zero_iff.not.mpr hne)))
  apply put_overrun hne
  rw [hlen, hsize, he.offset]
  -- the capacity has wrapped around, to far less than what is stored
  obtain ⟨hle, hlt⟩ := roundUp_lt (max b.size bs.length)
  rw [Fits, not_or] at hfits
  rw [grown, if_neg hfits.1] at hlost ⊢
  generalize roundUp (max b.size bs.length) = r at *
  unfold UINT32 at *
  rcases Nat.le_total b.size bs.length with hmax | hmax
  · rw [Nat.max_eq_right hmax] at hle hlt
    omega
  · rw [Nat.max_eq_left hmax] at hle hlt
    omega

theorem contents_length (h : b.Shaped) (ho : b.offset ≤ b.size) :
    b.contents.length = b.offset := by
  rw [contents, List.length_take, Nat.min_eq_left]
  rw [h.memory]
  split
  · next hnone => exact Nat.le_trans ho (Nat.le_of_eq (h.null hnone))
  · exact Nat.le_succ_of_le ho

/-- Bytes are appended one after the other exactly when there is room for each of them. What is not
short comes behind something. -/
theorem foldlM_append_iff (h : b.Shaped) (ho : b.offset ≤ b.size) {parts : List Bytes}
    (hshort : 0 < b.offset ∨ ∀ part ∈ parts, part.length + 8 < UINT32) (c : Bytes) :
    (∃ b', parts.foldlM append b = .ok b' ∧ b'.contents = c) ↔
      (∀ q ∈ StepMachine.inputs (fun b part => (append b part).toOption) b parts,
        q.1.Fits q.2.length) ∧ b.contents ++ parts.flatten = c := by
  induction parts generalizing b with
  | nil =>
      rw [List.foldlM_nil, List.flatten_nil, List.append_nil, StepMachine.inputs,
        and_iff_right (List.forall_mem_nil _)]
      constructor
      · rintro ⟨b', hb, rfl⟩
        cases hb
        rfl
      · rintro rfl
        exact ⟨b, rfl, rfl⟩
  | cons part parts ih =>
      rw [List.forall_mem_cons] at hshort
      rw [List.foldlM_cons, StepMachine.inputs, List.forall_mem_cons, List.flatten_cons]
      dsimp only
      by_cases hfits : b.Fits part.length
      · obtain ⟨b', happend, hs', hcontents, hle'⟩ := append_of_fits h ho hfits
        have hshort' : 0 < b'.offset ∨ ∀ part ∈ parts, part.length + 8 < UINT32 := by
          refine hshort.imp (fun hpos => ?_) (·.2)
          rw [← contents_length hs' hle', hcontents, List.length_append, contents_length h ho]
          exact Nat.add_pos_left hpos _
        rw [happend, and_iff_right hfits, ← List.append_assoc, ← hcontents]
        exact ih hs' hle' hshort'
      · rw [append_overrun h ho (hshort.imp id (·.1)) hfits]
        refine iff_of_false ?_ fun hall => hfits hall.1.1
        rintro ⟨_, hb, _⟩
        cases hb

/-- A buffer that is appended to: no offset beyond its capacity. -/
structure Usable (b : OBuffer) : Prop where
  shaped : b.Shaped
  bounded : b.offset ≤ b.size

/-- So many bytes can be appended in whatever pieces they come. -/
def SAFE : Nat := 2 ^ 31 - 4

/-- The capacity is doubled below `SAFE` only, and does not wrap around. -/
theorem fits_of_safe {len : Nat} (hlen : b.offset + len ≤ SAFE) : b.Fits len := by
  rw [Fits, or_iff_not_imp_left]
  intro hroom
  obtain ⟨-, hlt⟩ := roundUp_lt (max b.size len)
  unfold SAFE UINT32 at *
  rcases Nat.le_total b.size len with hmax | hmax
  · rw [Nat.max_eq_right hmax] at hlt ⊢
    omega
  · rw [Nat.max_eq_left hmax] at hlt ⊢
    omega

theorem Usable.length_contents (h : b.Usable) : b.contents.length = b.offset :=
  contents_length h.shaped h.bounded

/-- Pieces that are short enough together are appended. -/
theorem appends_of_safe (h : b.Usable) {parts : List Bytes}
    (hlen : b.offset + parts.flatten.length ≤ SAFE) : ∃ b', parts.foldlM append b = .ok b' ∧
      b'.Usable ∧ b'.contents = b.contents ++ parts.flatten := by
  induction parts generalizing b with
  | nil => exact ⟨b, rfl, h, (List.append_nil _).symm⟩
  | cons part parts ih =>
      rw [List.flatten_cons, List.length_append] at hlen
      obtain ⟨b', happend, hshaped, hcontents, hbounded⟩ :=
        append_of_fits h.shaped h.bounded
          (fits_of_safe (show b.offset + part.length ≤ SAFE by omega))
      have hoffset := congrArg List.length hcontents
      rw [contents_length hshaped hbounded, List.length_append, h.length_contents] at hoffset
      obtain ⟨b'', hrest, husable, hall⟩ := ih ⟨hshaped, hbounded⟩ (by omega)
      refine ⟨b'', ?_, husable, ?_⟩
      · rw [List.foldlM_cons, happend]
        exact hrest
      · rw [hall, hcontents, List.flatten_cons, List.append_assoc]

/-- Pieces that have been appended are behind what there was. -/
theorem appends_of_ok (h : b.Usable) {parts : List Bytes}
    (hshort : ∀ part ∈ parts, part.length + 8 < UINT32) {b' : OBuffer}
    (hrun : parts.foldlM append b = .ok b') :
    b'.Usable ∧ b'.contents = b.contents ++ parts.flatten := by
  induction parts generalizing b with
  | nil =>
      cases hrun
      exact ⟨h, (List.append_nil _).symm⟩
  | cons part parts ih =>
      obtain ⟨hpart, hparts⟩ := List.forall_mem_cons.mp hshort
      rw [List.foldlM_cons] at hrun
      by_cases hfits : b.Fits part.length
      · obtain ⟨b₂, happend, hshaped, hcontents, hbounded⟩ :=
          append_of_fits h.shaped h.bounded hfits
        rw [happend] at hrun
        obtain ⟨husable, hall⟩ := ih ⟨hshaped, hbounded⟩ hparts hrun
        exact ⟨husable, by rw [hall, hcontents, List.flatten_cons, List.append_assoc]⟩
      · rw [append_overrun h.shaped h.bounded (.inr hpart) hfits] at hrun
        nomatch hrun

/-- Text that the scratch area holds is appended as it is. -/
theorem appendv_eq_append {text : Bytes} (h : text.length < 2048) :
    b.appendv text = b.append text := by
  have hmax : text.length ≤ INT_MAX := Nat.le_trans (Nat.le_of_lt h) (by decide)
  rw [appendv, if_neg (Nat.not_lt.mpr hmax), if_neg (Nat.not_lt.mpr (Nat.le_of_lt h)), printed,
    if_neg (by decide), List.take_of_length_le (by omega : text.length ≤ 2048 - 1),
    List.take_left' rfl]

private theorem keeps_append {c : Call} {bs : Bytes} (h : b.Shaped) (ho : b.offset ≤ b.size)
    (hc : b.call c = b.append bs) :
    b.Keeps c ↔ c.effect b.contents = b.contents ++ bs ∧ b.Fits bs.length := by
  obtain ⟨he, hsize, hmem⟩ := room_spec h ho bs.length
  have hne : bs ≠ [] → (b.room bs.length).mem ≠ none :=
    fun hne => hmem (List.length_eq_zero_iff.not.mpr hne)
  rw [keeps_put h ho he hne (.inl rfl) (hc.trans rfl), hsize, List.take_length, fits_iff h ho]

private theorem keeps_reserve {c : Call} {n k : Nat} {bs : Bytes} (h : b.Shaped)
    (ho : b.offset ≤ b.size) (hn : bs ≠ [] → n ≠ 0) (hk : bs.length = k ∨ bs.length = k + 1)
    (hc : b.call c = (b.reserve n).put bs k) :
    b.Keeps c ↔ c.effect b.contents = b.contents ++ bs.take k ∧ b.offset + k ≤ b.reserved n := by
  obtain ⟨he, hsize, hmem⟩ := reserve_spec h ho n
  rw [keeps_put h ho he (fun hne => hmem (hn hne)) hk hc, hsize]

private theorem fits_lt {len : Nat} (h : b.Shaped) (hfits : b.Fits len) : len < UINT32 := by
  have hwide := h.wide
  have := roundUp_lt (max b.size len)
  rw [Fits] at hfits
  omega

/-- A C string is appended to its NUL, when its length fits into 32 bits. -/
private theorem keeps_cString {c : Call} {s t : Bytes} (h : b.Shaped) (ho : b.offset ≤ b.size)
    (hc : b.call c = b.append ((cstr s).take ((cstr s).length % UINT32)))
    (heffect : c.effect b.contents = b.contents ++ t) (hle : (cstr s).length ≤ t.length) :
    b.Keeps c ↔ cstr s = t ∧ b.Fits t.length := by
  rw [keeps_append h ho hc, heffect, List.append_cancel_left_eq]
  by_cases hlt : (cstr s).length < UINT32
  · rw [Nat.mod_eq_of_lt hlt, List.take_length]
    exact ⟨fun ⟨heq, hfits⟩ => ⟨heq.symm, heq ▸ hfits⟩, fun ⟨heq, hfits⟩ => ⟨heq.symm, heq ▸ hfits⟩⟩
  · have hmod := mod_wide (cstr s).length
    apply iff_of_false
    · rintro ⟨heq, -⟩
      have := congrArg List.length heq
      rw [List.length_take] at this
      omega
    · rintro ⟨-, hfits⟩
      have := fits_lt h hfits
      omega

/-! ### Formatted text -/

private theorem printed_length {n : Nat} (hn : n ≠ 0) (text : Bytes) :
    (printed n text).length = min text.length (n - 1) + 1 := by
  rw [printed, if_neg hn, List.length_append, List.length_take, Nat.min_comm]
  rfl

private theorem printed_length_le (n : Nat) (text : Bytes) : (printed n text).length ≤ n := by
  by_cases hn : n = 0
  · rw [printed, if_pos hn]
    exact Nat.zero_le n
  · rw [printed_length hn]
    omega

private theorem take_printed_iff {n : Nat} {text : Bytes} (hle : text.length ≤ n) :
    text = (printed n text).take text.length ↔ Printed n text := by
  rcases Nat.lt_or_eq_of_le hle with hlt | heq
  · refine iff_of_true ?_ (.inl hlt)
    rw [printed, if_neg (by omega), List.take_of_length_le (by omega : text.length ≤ n - 1),
      List.take_left' rfl]
  · rw [Printed, or_iff_right (by omega), and_iff_right heq]
    rcases List.eq_nil_or_concat' text with rfl | ⟨init, c, rfl⟩
    · exact iff_of_true rfl nofun
    · have hn : n = init.length + 1 := by rw [← heq, List.length_append]; rfl
      subst hn
      rw [printed, if_neg (Nat.succ_ne_zero _), Nat.add_sub_cancel, List.take_left' rfl,
        List.take_of_length_le (by simp)]
      simp

private theorem keeps_formatted (h : b.Shaped) (ho : b.offset ≤ b.size) (text : Bytes) :
    b.Keeps (.formatted text) ↔ b.Meets (.formatted text) := by
  rw [Meets]
  have hcall : b.call (.formatted text) = b.appendv text := rfl
  rw [appendv] at hcall
  by_cases hmax : INT_MAX < text.length
  · rw [if_pos hmax] at hcall
    rw [keeps_of_thrown hcall h]
    exact iff_of_true ⟨rfl, ho⟩ (.inl hmax)
  · rw [if_neg hmax] at hcall
    rw [or_iff_right hmax]
    by_cases hlong : 2048 < text.length
    · -- what is appended is read from beyond the scratch area
      rw [if_pos hlong] at hcall
      refine iff_of_false (not_keeps_of_lost (.inl hcall)) ?_
      rintro ⟨hprinted | hprinted, -⟩
      · omega
      · omega
    · rw [if_neg hlong] at hcall
      have hle : text.length ≤ 2048 := Nat.not_lt.mp hlong
      have hlen : ((printed 2048 text).take text.length).length = text.length := by
        rw [List.length_take, printed_length (by decide)]
        omega
      rw [keeps_append h ho hcall, hlen, ← take_printed_iff hle]
      exact and_congr_left' (iff_of_eq (List.append_cancel_left_eq ..))

private theorem keeps_fmter {c : Call} {n : Nat} {text : Bytes} (h : b.Shaped)
    (ho : b.offset ≤ b.size) (hn : n ≠ 0) (hc : b.call c = b.appendFmter n text)
    (heffect : c.effect b.contents = b.contents ++ text) :
    b.Keeps c ↔ Printed n text ∧ b.offset + text.length ≤ b.reserved n := by
  have hlen := printed_length hn text
  rw [keeps_reserve h ho (fun _ => hn) (by omega) hc, heffect, List.append_cancel_left_eq]
  by_cases hle : text.length ≤ n
  · rw [Nat.min_eq_left hle, take_printed_iff hle]
  · apply iff_of_false
    · rintro ⟨heq, -⟩
      have := congrArg List.length heq
      rw [List.length_take] at this
      omega
    · rintro ⟨hprinted | hprinted, -⟩
      · omega
      · omega

private theorem appendnv_eq {hint : Nat} (hmem : b.mem ≠ none) (hhint : hint ≠ 0) (text : Bytes) :
    b.appendnv hint text =
      ((if INT_MAX < text.length then .ok (b.room hint)
        else (b.room hint).store (printed (b.room hint).remaining text)) >>= fun b' =>
      if INT_MAX < text.length ∨ b'.size < (text.length + b'.offset) % UINT32 then
        .error (.thrown b')
      else .ok (b'.advance text.length)) := by
  rw [appendnv, if_neg (not_or.mpr ⟨hmem, hhint⟩)]
  split <;> rfl

/-- What is left is a number that wraps around when the capacity did, and there is a NUL at least to
store. -/
private theorem appendnv_overrun {hint : Nat} {text : Bytes} (h : b.Shaped) (ho : b.offset ≤ b.size)
    (hmem : b.mem ≠ none) (hhint : hint ≠ 0) (hmax : ¬ INT_MAX < text.length)
    (hlost : ¬ b.offset ≤ (b.room hint).size) : b.appendnv hint text = .error .overrun := by
  rw [appendnv_eq hmem hhint, if_neg hmax]
  obtain ⟨he, -, hroom⟩ := room_spec h ho hint
  generalize b.room hint = b₁ at *
  have hoffset : b.offset < UINT32 := Nat.lt_of_le_of_lt ho h.wide
  have hremaining : b₁.remaining ≠ 0 := by
    rw [remaining, he.offset]
    unfold UINT32 at *
    omega
  have hlen := printed_length hremaining text
  have hstore : b₁.store (printed b₁.remaining text) = .error .overrun := by
    have hmemory := he.shaped.memory
    rw [if_neg (hroom hhint)] at hmemory
    rw [store, if_neg (List.ne_nil_of_length_pos (by omega)), if_neg]
    rw [hmemory, he.offset]
    omega
  rw [hstore]
  rfl

/-- The text is printed into what is left, and then its length is compared. -/
private theorem appendnv_prints {hint : Nat} {text : Bytes} (h : b.Shaped) (ho : b.offset ≤ b.size)
    (hmem : b.mem ≠ none) (hhint : hint ≠ 0) (hmax : ¬ INT_MAX < text.length)
    (hle : b.offset ≤ (b.room hint).size) :
    ∃ b', b'.Shaped ∧ b'.size = (b.room hint).size ∧ b'.offset = b.offset ∧
      (∀ k ≤ (printed ((b.room hint).size - b.offset) text).length,
        (b'.mem.getD []).take (b.offset + k) =
          b.contents ++ (printed ((b.room hint).size - b.offset) text).take k) ∧
      b.appendnv hint text =
        if (b.room hint).size < (b.offset + text.length) % UINT32 then .error (.thrown b')
        else .ok (b'.advance text.length) := by
  rw [appendnv_eq hmem hhint, if_neg hmax]
  obtain ⟨he, -, hroom⟩ := room_spec h ho hint
  generalize b.room hint = b₁ at *
  have hremaining : b₁.remaining = b₁.size - b.offset := by
    rw [remaining_eq he.shaped (he.offset.symm ▸ hle), he.offset]
  have hprinted := printed_length_le (b₁.size - b.offset) text
  have hne : printed (b₁.size - b.offset) text ≠ [] → b₁.mem ≠ none := fun _ => hroom hhint
  obtain ⟨b', hstore, hs, hsize, hoffset, htake⟩ := store_ok he hne hle (by omega)
  refine ⟨b', hs, hsize, hoffset, htake, ?_⟩
  rw [hremaining, hstore, ← hsize, Nat.add_comm, ← hoffset]
  show (if INT_MAX < text.length ∨ _ then _ else _) = _
  simp only [hmax, false_or]

/-- The buffer must be able to hold what is in it after it has grown; the text goes behind that when
it fits, and the exception leaves the offset where it was when it does not. -/
private theorem keeps_hinted {c : Call} {hint : Nat} {text : Bytes} (h : b.Shaped)
    (ho : b.offset ≤ b.size) (hc : b.call c = b.appendnv hint text)
    (heffect : c.effect b.contents = b.contents ++ text) : b.Keeps c ↔ b.Hinted hint text := by
  -- the assertion needs memory and a hint
  by_cases hassert : b.mem = none ∨ hint = 0
  · rw [appendnv, if_pos hassert] at hc
    apply iff_of_false
    · rw [Keeps, hc]
      exact fun hfalse => hfalse
    · rintro ⟨hmem, hhint, -⟩
      exact hassert.elim hmem hhint
  obtain ⟨hmem, hhint⟩ := not_or.mp hassert
  obtain ⟨he, hsize, -⟩ := room_spec h ho hint
  have hwide := he.shaped.wide
  rw [Hinted, and_iff_right hmem, and_iff_right hhint, ← hsize]
  by_cases hmax : INT_MAX < text.length
  -- a text of more than `INT_MAX` bytes is refused before anything is written
  · have hthrown : b.call c = .error (.thrown (b.room hint)) := by
      rw [hc, appendnv_eq hmem hhint, if_pos hmax]
      exact if_pos (.inl hmax)
    rw [keeps_of_thrown hthrown he.shaped, he.offset]
    exact ⟨fun hkeeps => ⟨hkeeps.2, .inl hmax⟩, fun hle => ⟨he.contents hle.1, hle.1⟩⟩
  by_cases hle : b.offset ≤ (b.room hint).size
  case neg =>
    have hlost := appendnv_overrun h ho hmem hhint hmax hle
    exact iff_of_false (not_keeps_of_lost (.inl (hc.trans hlost))) fun hhinted => hle hhinted.1
  obtain ⟨b', hs, hsize', hoffset, htake, hprints⟩ := appendnv_prints h ho hmem hhint hmax hle
  rw [hprints] at hc
  rw [and_iff_right hle, or_iff_right hmax]
  generalize (b.room hint).size = size at *
  have hINT_MAX : INT_MAX < UINT32 := by decide
  have hadvance : (b'.advance text.length).Shaped := ⟨hs.multiple, hs.wide, hs.memory, hs.null⟩
  have hoff : (b'.advance text.length).offset = (b.offset + text.length) % UINT32 :=
    congrArg (fun n => (n + text.length) % UINT32) hoffset
  by_cases hfit : text.length ≤ size - b.offset
  · -- the text ends before the capacity does
    have hmod : (b.offset + text.length) % UINT32 = b.offset + text.length :=
      Nat.mod_eq_of_lt (by omega)
    have hlen : text.length ≤ (printed (size - b.offset) text).length := by
      by_cases hzero : size - b.offset = 0
      · omega
      · rw [printed_length hzero]
        omega
    have hcontents : (b'.advance text.length).contents =
        b.contents ++ (printed (size - b.offset) text).take text.length := by
      rw [contents, hoff, hmod]
      exact htake _ hlen
    have hbounded : b.offset + text.length ≤ (b'.advance text.length).size := by
      show _ ≤ b'.size
      omega
    rw [if_neg (by omega)] at hc
    rw [keeps_of_ok hc hadvance, hcontents, heffect, List.append_cancel_left_eq, eq_comm,
      take_printed_iff hfit, hoff, hmod, and_iff_left hbounded, or_iff_left (by omega)]
  -- the text is cut off, and the offset tells whether that is noticed
  · have hnot : ¬ Printed (size - b.offset) text := by
      rintro (hprinted | hprinted)
      · omega
      · omega
    rw [or_iff_right hnot, and_iff_right (by omega)]
    by_cases hwrap : b.offset + text.length < UINT32
    · rw [if_pos (by rw [Nat.mod_eq_of_lt hwrap]; omega)] at hc
      rw [keeps_of_thrown hc hs, hoffset, hsize']
      refine iff_of_true ⟨?_, hle⟩ hwrap
      have := htake 0 (Nat.zero_le _)
      rw [List.take_zero, List.append_nil] at this
      rw [contents, hoffset]
      exact this
    · -- the end of the text wraps around to before the offset
      have hmod : (b.offset + text.length) % UINT32 < b.offset := by
        unfold UINT32 at *
        omega
      rw [if_neg (by omega)] at hc
      refine iff_of_false ?_ hwrap
      rw [keeps_of_ok hc hadvance, heffect]
      rintro ⟨hcontents, hbounded⟩
      have := congrArg List.length hcontents
      rw [contents_length hadvance hbounded, hoff, List.length_append, contents_length h ho] at this
      omega

theorem hexDigits_length (caps : Bool) (data : Bytes) :
    (hexDigits caps data).length = 2 * data.length := by
  induction data with
  | nil => rfl
  | cons c data ih =>
      rw [hexDigits] at ih ⊢
      rw [List.flatMap_cons, List.length_append, ih]
      simp only [List.length_cons, List.length_nil]
      omega

private theorem keeps_hexData (h : b.Shaped) (ho : b.offset ≤ b.size) (data : Bytes) (caps : Bool) :
    b.Keeps (.hexData data caps) ↔ b.Meets (.hexData data caps) := by
  have hlen := hexDigits_length caps data
  have hne : hexDigits caps data ≠ [] → 2 * data.length ≠ 0 := by
    rw [← hlen]
    exact List.length_eq_zero_iff.not.mpr
  rw [keeps_reserve h ho hne (.inl hlen) rfl, List.take_of_length_le (Nat.le_of_eq hlen)]
  exact and_iff_right rfl

private theorem keeps_time (h : b.Shaped) (ho : b.offset ≤ b.size) (text : Bytes) :
    b.Keeps (.time text) ↔ b.Meets (.time text) := by
  have hcall : b.call (.time text) = b.appendTime text := rfl
  rw [appendTime] at hcall
  rw [Meets]
  by_cases hlt : text.length < 64
  · rw [if_pos hlt] at hcall
    rw [keeps_reserve h ho (fun _ => by decide) (.inr (List.length_append ..)) hcall,
      List.take_left' rfl, and_iff_right hlt]
    exact and_iff_right rfl
  · rw [if_neg hlt] at hcall
    obtain ⟨he, -, -⟩ := reserve_spec h ho 64
    rw [keeps_of_ok hcall he.shaped]
    refine iff_of_false ?_ fun hmeets => hlt hmeets.1
    rintro ⟨hcontents, hbounded⟩
    rw [he.offset] at hbounded
    have := congrArg List.length ((he.contents hbounded).symm.trans hcontents)
    rw [Call.effect, List.length_append] at this
    omega

/-- For a buffer as the constructor and the calls leave it, `Meets` is exact. -/
private theorem keeps_iff (h : b.Shaped) (ho : b.offset ≤ b.size) (c : Call) :
    b.Keeps c ↔ b.Meets c := by
  cases c with
  | bytes data => exact (keeps_append h ho rfl).trans (and_iff_right rfl)
  | null len =>
      refine iff_of_true ?_ trivial
      have hbounded := (bounded_iff h).mpr ho
      by_cases hlen : len ≠ 0
      · rw [Keeps, call, appendNull, if_pos hlen]
        exact ⟨rfl, hbounded⟩
      · rw [Keeps, call, appendNull, if_neg hlen]
        exact ⟨rfl, hbounded⟩
  | cString s => exact (keeps_cString h ho rfl rfl (Nat.le_refl _)).trans (and_iff_right rfl)
  | stdString s =>
      have hle : (cstr s).length ≤ s.length := (List.takeWhile_prefix _).length_le
      rw [keeps_cString h ho rfl rfl hle, cstr_eq_self_iff]
      rfl
  | formatted text => exact keeps_formatted h ho text
  | hinted hint text => exact keeps_hinted h ho rfl rfl
  | hexNumber text => exact keeps_hinted h ho rfl rfl
  | hexData data caps => exact keeps_hexData h ho data caps
  | time text => exact keeps_time h ho text
  | fmtnum text => exact keeps_fmter h ho (by decide) rfl rfl
  | fmtbool v =>
      rw [keeps_fmter h ho (by decide) rfl rfl]
      refine and_iff_right (.inl ?_)
      cases v <;> decide
  | reserve n =>
      obtain ⟨he, hsize, -⟩ := reserve_spec h ho n
      rw [keeps_of_ok rfl he.shaped, he.offset, hsize, Meets]
      exact ⟨fun hkeeps => hkeeps.2, fun hle => ⟨he.contents (hsize ▸ hle), hle⟩⟩
  | clear =>
      refine iff_of_true ?_ trivial
      exact ⟨rfl, Nat.le_refl 0, Nat.le_refl 0⟩

/-! ## Runs -/

/-- What every call keeps: the shape of the buffer and an offset of 32 bits. -/
structure Formed (b : OBuffer) : Prop where
  shaped : b.Shaped
  below : b.offset < UINT32

theorem Formed.advance (h : b.Formed) (k : Nat) : (b.advance k).Formed :=
  ⟨⟨h.shaped.multiple, h.shaped.wide, h.shaped.memory, h.shaped.null⟩, mod_wide _⟩

private theorem formed_room (h : b.Formed) (len : Nat) : (b.room len).Formed := by
  refine ⟨room_shaped h.shaped len, ?_⟩
  rw [room]
  split
  · exact h.below
  · exact h.below

theorem Formed.reserve (h : b.Formed) (n : Nat) : (b.reserve n).Formed := by
  refine ⟨reserve_shaped h.shaped n, ?_⟩
  rw [OBuffer.reserve]
  split
  · exact h.below
  · exact h.below

/-- A buffer that a call leaves behind is formed. -/
private def Leaves (r : Except Stop OBuffer) : Prop :=
  ∀ b', r = .ok b' ∨ r = .error (.thrown b') → b'.Formed

private theorem leaves_ok (h : b.Formed) : Leaves (.ok b) := by
  rintro b' (hb | hb)
  · cases hb
    exact h
  · nomatch hb

private theorem leaves_thrown (h : b.Formed) : Leaves (.error (.thrown b)) := by
  rintro b' (hb | hb)
  · nomatch hb
  · cases hb
    exact h

private theorem leaves_stopped {e : Stop} (he : ∀ b, e ≠ .thrown b) : Leaves (.error e) := by
  rintro b' (hb | hb)
  · nomatch hb
  · exact absurd (Except.error.inj hb) (he b')

private theorem leaves_bind {x : Except Stop OBuffer} {f : OBuffer → Except Stop OBuffer}
    (hx : Leaves x) (hf : ∀ b, b.Formed → Leaves (f b)) : Leaves (x >>= f) := by
  cases x with
  | ok b => exact hf b (hx b (.inl rfl))
  | error e =>
      rintro b' (hb | hb)
      · nomatch hb
      · exact hx b' (.inr hb)

private theorem leaves_store (h : b.Formed) (bs : Bytes) : Leaves (b.store bs) := by
  rintro b' (hb | hb)
  · obtain ⟨hs, -, hoffset⟩ := store_shaped h.shaped hb
    exact ⟨hs, hoffset ▸ h.below⟩
  · rw [store] at hb
    split at hb
    · nomatch hb
    · split at hb <;> nomatch hb

private theorem leaves_put (h : b.Formed) (bs : Bytes) (k : Nat) : Leaves (b.put bs k) :=
  leaves_bind (leaves_store h bs) fun _ hs => leaves_ok (hs.advance k)

private theorem leaves_append (h : b.Formed) (data : Bytes) : Leaves (b.append data) :=
  leaves_put (formed_room h data.length) data data.length

private theorem leaves_appendnv (h : b.Formed) (hint : Nat) (text : Bytes) :
    Leaves (b.appendnv hint text) := by
  by_cases hassert : b.mem = none ∨ hint = 0
  · rw [appendnv, if_pos hassert]
    exact leaves_stopped nofun
  · obtain ⟨hmem, hhint⟩ := not_or.mp hassert
    have hroom := formed_room h hint
    rw [appendnv_eq hmem hhint]
    apply leaves_bind
    · split
      · exact leaves_ok hroom
      · exact leaves_store hroom _
    · intro b' hs
      split
      · exact leaves_thrown hs
      · exact leaves_ok (hs.advance _)

private theorem call_leaves (h : b.Formed) (c : Call) : Leaves (b.call c) := by
  cases c with
  | bytes data => exact leaves_append h data
  | null len =>
      rw [call, appendNull]
      split
      · exact leaves_thrown h
      · exact leaves_ok h
  | cString s => exact leaves_append h _
  | stdString s => exact leaves_append h _
  | formatted text =>
      rw [call, appendv]
      split
      · exact leaves_thrown h
      · split
        · exact leaves_stopped nofun
        · exact leaves_append h _
  | hinted hint text => exact leaves_appendnv h _ text
  | hexNumber text => exact leaves_appendnv h 8 text
  | hexData data caps => exact leaves_put (h.reserve _) _ _
  | time text =>
      rw [call, appendTime]
      split
      · exact leaves_put (h.reserve 64) _ _
      · exact leaves_ok (h.reserve 64)
  | fmtnum text => exact leaves_put (h.reserve 32) _ _
  | fmtbool v => exact leaves_put (h.reserve 6) _ _
  | reserve n => exact leaves_ok (h.reserve n)
  | clear => exact leaves_ok ⟨⟨rfl, mod_wide 0, rfl, fun _ => rfl⟩, mod_wide 0⟩

/-- What is left after a call is formed, whether the call returns or throws. -/
theorem next_formed {c : Call} {b' : OBuffer} (h : b.Formed) (hnext : b.next c = some b') :
    b'.Formed := by
  rw [next] at hnext
  have hleaves := call_leaves h c
  split at hnext
  · next hcall =>
      cases hnext
      exact hleaves _ (.inl hcall)
  · next hcall =>
      cases hnext
      exact hleaves _ (.inr hcall)
  · nomatch hnext

private theorem next_keeps {c : Call} {b' : OBuffer} (h : b.Shaped) (ho : b.offset ≤ b.size)
    (hkeeps : b.Keeps c) (hnext : b.next c = some b') : b'.Shaped ∧ b'.offset ≤ b'.size := by
  have hformed := next_formed ⟨h, Nat.lt_of_le_of_lt ho h.wide⟩ hnext
  refine ⟨hformed.shaped, ?_⟩
  rw [next] at hnext
  rw [Keeps] at hkeeps
  split at hnext
  · next hcall =>
      rw [hcall] at hkeeps
      cases hnext
      exact hkeeps.2.1
  · next hcall =>
      rw [hcall] at hkeeps
      cases hnext
      exact hkeeps.2.1
  · nomatch hnext

theorem new_shaped (capacity : Nat) :
    (new capacity).Shaped ∧ (new capacity).offset ≤ (new capacity).size := by
  have hempty : (⟨none, 0, 0⟩ : OBuffer).Shaped := ⟨rfl, by decide, rfl, fun _ => rfl⟩
  rw [new]
  split
  · exact ⟨grow_shaped rfl _, Nat.zero_le _⟩
  · exact ⟨hempty, Nat.le_refl 0⟩

/-- From any capacity on, and for any calls, the buffer behaves as the list of bytes in every call
exactly when each call is made in a state that is right for it. -/
theorem refines_iff (capacity : Nat) (calls : List Call) :
    (∀ p ∈ StepMachine.inputs next (new capacity) calls, p.1.Keeps p.2) ↔
      ∀ p ∈ StepMachine.inputs next (new capacity) calls, p.1.Meets p.2 :=
  StepMachine.forall_inputs_iff (I := fun b => b.Shaped ∧ b.offset ≤ b.size) (P := Keeps)
    (Q := Meets) (fun _ c hI => keeps_iff hI.1 hI.2 c) (fun _ _ _ hI => next_keeps hI.1 hI.2)
    (new_shaped capacity) calls

/-- Text that ends with the capacity loses its last byte to the NUL. -/
theorem not_refines_hinted : ¬ ∀ capacity calls,
    ∀ p ∈ StepMachine.inputs next (new capacity) calls, p.1.Keeps p.2 := by
  intro h
  have hcall : (new 8).call (.hinted 8 (str "01234567")) =
      .ok ⟨some (str "0123456" ++ [NUL, NUL]), 8, 8⟩ := by decide +kernel
  have hkeeps := h 8 [.hinted 8 (str "01234567")] _ List.mem_cons_self
  rw [Keeps, hcall] at hkeeps
  exact absurd hkeeps.1 (by decide +kernel)

end Suil.OBuffer
