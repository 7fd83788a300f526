import Suil.Basic.Buffer

set_option autoImplicit false

/-! # Room in output buffers

`reserve` and `append` of `OBuffer` compute with `uint32_t`, whatever size they are asked for. In any
buffer that a program can have made, `room_iff` says for which sizes there is room afterwards, and
an exception where there cannot be. -/

namespace Suil.OBuffer

/-! ## Every buffer -/

/-- `bseek(off)`. -/
def bseekTo (b : OBuffer) (off : Int) : Except Stop OBuffer :=
  if off < b.size ∧ 0 ≤ off then .ok { b with offset := off.toNat } else .error (.thrown b)

/-- `seek(off)`. -/
def seekTo (b : OBuffer) (off : Int) : Except Stop OBuffer := b.bseekTo (b.offset + off)

/-- `reset(size, keep)`. -/
def reset (b : OBuffer) (size : Nat) (keep : Bool) : OBuffer :=
  let b := { b with offset := 0 }
  if keep = false ∨ b.size < size then
    let b := { b with size := 0 }
    b.grow ((if size < 8 then 8 else size) % UINT32)
  else b

/-- What can be done to a buffer. -/
inductive Op where
  | call (c : Call)
  | reset (size : Nat) (keep : Bool)
  | seek (off : Int)
  | bseek (off : Int)

/-- The buffer that is left behind, unless the process ends. -/
def act (b : OBuffer) : Op → Option OBuffer
  | .call c => b.next c
  | .reset size keep => some (b.reset size keep)
  | .seek off =>
      match b.seekTo off with
      | .ok b' | .error (.thrown b') => some b'
      | .error _ => none
  | .bseek off =>
      match b.bseekTo off with
      | .ok b' | .error (.thrown b') => some b'
      | .error _ => none

/-! ## Room for what is asked for -/

/-- Any `n` bytes can be stored at the offset. -/
def Holds (b : OBuffer) (n : Nat) : Prop := ∀ bs : Bytes, bs.length = n → ∃ b', b.store bs = .ok b'

/-- With `n` more bytes, rounded up, and the one for the NUL, the sizes fit 32 bits. -/
def Representable (b : OBuffer) (n : Nat) : Prop := roundUp (b.offset + n) + 1 < UINT32

/-- After `reserve(n)` there is room for `n` bytes; it throws when there cannot be. -/
def Reserves (b : OBuffer) (n : Nat) : Prop :=
  (b.Representable n → ∃ b', b.call (.reserve n) = .ok b' ∧ b'.Holds n) ∧
    (¬ b.Representable n → ∃ b', b.call (.reserve n) = .error (.thrown b'))

/-- `append` stores all the bytes in the memory of the buffer; it throws when they cannot be there. -/
def Appends (b : OBuffer) (data : Bytes) : Prop :=
  (b.Representable data.length → ∃ b', b.call (.bytes data) = .ok b') ∧
    (¬ b.Representable data.length → ∃ b', b.call (.bytes data) = .error (.thrown b'))

/-- There is room for `n` bytes, or the capacity does not wrap around when it grows by itself or by
what is added. Nothing can also be asked of a buffer whose offset is beyond its capacity. -/
def Room (b : OBuffer) (n add : Nat) : Prop :=
  n = 0 ∧ b.Representable 0 ∨
    b.offset ≤ b.size ∧ (b.offset + n ≤ b.size ∨ b.size + roundUp (max b.size add) < UINT32)

/-! ## Every buffer is formed -/

variable {b : OBuffer}

private theorem bseekTo_formed (h : b.Formed) (off : Int) {b' : OBuffer}
    (hb : b.bseekTo off = .ok b' ∨ b.bseekTo off = .error (.thrown b')) : b'.Formed := by
  have hwide := h.shaped.wide
  rw [bseekTo] at hb
  split at hb
  · next hin =>
      rcases hb with hb | hb
      · cases hb
        refine ⟨⟨h.shaped.multiple, hwide, h.shaped.memory, h.shaped.null⟩, ?_⟩
        show off.toNat < UINT32
        omega
      · nomatch hb
  · rcases hb with hb | hb
    · nomatch hb
    · cases hb
      exact h

private theorem reset_formed (h : b.Formed) (size : Nat) (keep : Bool) :
    (b.reset size keep).Formed := by
  have hzero : 0 < UINT32 := by decide
  rw [reset]
  split
  · exact ⟨grow_shaped rfl _, hzero⟩
  · exact ⟨⟨h.shaped.multiple, h.shaped.wide, h.shaped.memory, h.shaped.null⟩, hzero⟩

private theorem act_formed {op : Op} {b' : OBuffer} (h : b.Formed) (hact : b.act op = some b') :
    b'.Formed := by
  cases op with
  | call c => exact next_formed h hact
  | reset size keep =>
      cases hact
      exact reset_formed h size keep
  | seek off =>
      rw [act] at hact
      split at hact
      · next hb => exact bseekTo_formed h _ (.inl (hb.trans (congrArg Except.ok (Option.some.inj hact))))
      · next hb => exact bseekTo_formed h _ (.inr (hb.trans (by cases hact; rfl)))
      · nomatch hact
  | bseek off =>
      rw [act] at hact
      split at hact
      · next hb => exact bseekTo_formed h _ (.inl (hb.trans (congrArg Except.ok (Option.some.inj hact))))
      · next hb => exact bseekTo_formed h _ (.inr (hb.trans (by cases hact; rfl)))
      · nomatch hact

/-! ## What there is room for -/

private theorem holds_zero (b : OBuffer) : b.Holds 0 := by
  intro bs hbs
  obtain rfl := List.length_eq_zero_iff.mp hbs
  exact ⟨b, rfl⟩

private theorem holds_iff {n : Nat} (hn : n ≠ 0) :
    b.Holds n ↔ b.offset + n ≤ (b.mem.getD []).length := by
  have hne : ∀ bs : Bytes, bs.length = n → bs ≠ [] := by
    rintro bs hbs rfl
    exact hn hbs.symm
  constructor
  · intro h
    obtain ⟨b', hb⟩ := h (List.replicate n 0) List.length_replicate
    rw [store, if_neg (hne _ List.length_replicate), List.length_replicate] at hb
    by_contra hno
    rw [if_neg hno] at hb
    cases hb
  · intro h bs hbs
    rw [store, if_neg (hne bs hbs), if_pos (hbs ▸ h)]
    exact ⟨_, rfl⟩

/-- Nothing is asked for. -/
private theorem room_zero (h : b.Formed) (add : Nat) : b.Representable 0 ↔ b.Room 0 add := by
  have hwide := h.shaped.wide
  have hmultiple := h.shaped.multiple
  have hrounded := roundUp_multiple (b.offset + 0)
  obtain ⟨hle, hlt⟩ := roundUp_lt (b.offset + 0)
  rw [Room]
  constructor
  · exact fun hrep => .inl ⟨rfl, hrep⟩
  · rintro (⟨-, hrep⟩ | ⟨ho, -⟩)
    · exact hrep
    · rw [Representable]
      unfold UINT32 at *
      omega

/-- What `reserve` and `append` make of a buffer has room for the bytes when the capacity does not
wrap around. -/
private theorem room_iff_of_grown (h : b.Formed) {b₁ : OBuffer} {n add : Nat} (hn : n ≠ 0)
    (hgrown : b.offset ≤ b.size → Extends b b₁ ∧ b₁.size = b.grown n add ∧ b₁.mem ≠ none ∧
      b.offset + n ≤ b.size + add ∧ add ≤ n)
    (hsame : n ≤ b.remaining → b₁ = b) : b.Representable n ∧ b₁.Holds n ↔ b.Room n add := by
  have hwide := h.shaped.wide
  have hmultiple := h.shaped.multiple
  have hbelow := h.below
  have hrounded := roundUp_multiple (b.offset + n)
  obtain ⟨hle, hlt⟩ := roundUp_lt (b.offset + n)
  rw [Room, or_iff_right fun hnone => hn hnone.1]
  by_cases ho : b.offset ≤ b.size
  · obtain ⟨he, hsize, hmem, hadd, hsmall⟩ := hgrown ho
    have hlen : (b₁.mem.getD []).length = b.grown n add + 1 :=
      (he.shaped.memory.trans (if_neg hmem)).trans (by rw [hsize])
    rw [holds_iff hn, he.offset, hlen, and_iff_right ho, Representable, grown]
    by_cases hfits : b.offset + n ≤ b.size
    · rw [if_pos hfits]
      refine iff_of_true ⟨?_, by omega⟩ (.inl hfits)
      unfold UINT32 at *
      omega
    · rw [if_neg hfits, or_iff_right hfits]
      have hmax := roundUp_multiple (max b.size add)
      obtain ⟨hle', hlt'⟩ := roundUp_lt (max b.size add)
      generalize roundUp (max b.size add) = r at *
      generalize roundUp (b.offset + n) = q at *
      unfold UINT32 at *
      rcases Nat.le_total b.size add with hcap | hcap
      · rw [Nat.max_eq_right hcap] at hle' hlt'
        omega
      · rw [Nat.max_eq_left hcap] at hle' hlt'
        omega
  · -- the offset is beyond the capacity
    refine iff_of_false ?_ fun hroom => ho hroom.1
    rintro ⟨hrep, hholds⟩
    rw [Representable] at hrep
    by_cases hle' : n ≤ b.remaining
    · rw [hsame hle', holds_iff hn, h.shaped.memory] at hholds
      split at hholds <;> omega
    · unfold remaining UINT32 at *
      omega

/-! ## `reserve` -/

/-- It never throws. -/
private theorem reserves_eq (b : OBuffer) (n : Nat) :
    b.Reserves n ↔ b.Representable n ∧ (b.reserve n).Holds n := by
  constructor
  · rintro ⟨hroom, hthrow⟩
    by_cases hrep : b.Representable n
    · obtain ⟨b', hb, hholds⟩ := hroom hrep
      cases hb
      exact ⟨hrep, hholds⟩
    · obtain ⟨b', hb⟩ := hthrow hrep
      nomatch hb
  · rintro ⟨hrep, hholds⟩
    exact ⟨fun _ => ⟨_, rfl, hholds⟩, fun hno => absurd hrep hno⟩

private theorem reserves_iff (h : b.Formed) (n : Nat) :
    b.Reserves n ↔ b.Room n (b.offset + n - b.size) := by
  rw [reserves_eq]
  by_cases hn : n = 0
  · subst hn
    rw [and_iff_left (holds_zero _), room_zero h]
  · apply room_iff_of_grown h hn
    · intro ho
      obtain ⟨he, hsize, hmem⟩ := reserve_spec h.shaped ho n
      exact ⟨he, hsize, hmem hn, by omega, by omega⟩
    · intro hle
      exact if_neg (Nat.not_lt.mpr hle)

/-- In an empty buffer: the capacity that is reserved, or far less when it wraps around. -/
theorem reserve_empty (h : b.Shaped) (hzero : b.offset = 0) {n : Nat} (hn : n ≠ 0) :
    (b.Room n (n - b.size) → n ≤ (b.reserve n).size) ∧
      (¬ b.Room n (n - b.size) → (b.reserve n).size + 2 < n) := by
  have hinside : b.offset ≤ b.size := hzero ▸ Nat.zero_le _
  have hmultiple := h.multiple
  have hwide := h.wide
  obtain ⟨-, hsize, -⟩ := reserve_spec h hinside n
  rw [reserved, grown, hzero, Nat.zero_add] at hsize
  rw [Room, or_iff_right fun hnone => hn hnone.1, and_iff_right hinside, hzero, Nat.zero_add]
  obtain ⟨hle, hlt⟩ := roundUp_lt (max b.size (n - b.size))
  have hrounded := roundUp_multiple (max b.size (n - b.size))
  generalize roundUp (max b.size (n - b.size)) = r at *
  constructor
  · intro hroom
    rw [hsize]
    split_ifs with hin
    · exact hin
    · rw [Nat.mod_eq_of_lt ((or_iff_right hin).mp hroom)]
      omega
  · intro hno
    rw [not_or] at hno
    rw [hsize, if_neg hno.1]
    have hwrap := hno.2
    unfold UINT32 at *
    rcases Nat.le_total b.size (n - b.size) with hmax | hmax
    · rw [Nat.max_eq_right hmax] at hle hlt
      omega
    · rw [Nat.max_eq_left hmax] at hle hlt
      omega

/-! ## `append` -/

private theorem store_ok_iff (b : OBuffer) (data : Bytes) :
    (∃ b', b.store data = .ok b') ↔ b.Holds data.length := by
  by_cases hne : data = []
  · subst hne
    exact iff_of_true ⟨b, rfl⟩ (holds_zero b)
  · rw [holds_iff (List.length_eq_zero_iff.not.mpr hne), store, if_neg hne]
    constructor
    · rintro ⟨b', hb⟩
      by_contra hno
      rw [if_neg hno] at hb
      cases hb
    · intro hle
      exact ⟨_, if_pos hle⟩

/-- It never throws. -/
private theorem appends_eq (b : OBuffer) (data : Bytes) : b.Appends data ↔
    b.Representable data.length ∧ (b.room data.length).Holds data.length := by
  have happend : b.append data = (b.room data.length).put data data.length := rfl
  rw [← store_ok_iff]
  cases hstore : (b.room data.length).store data with
  | ok b₁ =>
      have hok : b.append data = .ok (b₁.advance data.length) := by
        rw [happend, put, hstore]
        rfl
      rw [and_iff_left ⟨b₁, rfl⟩]
      constructor
      · rintro ⟨-, hthrow⟩
        by_contra hno
        obtain ⟨b', hb⟩ := hthrow hno
        cases hok.symm.trans hb
      · exact fun hrep => ⟨fun _ => ⟨_, hok⟩, fun hno => absurd hrep hno⟩
  | error e =>
      have he : e = .overrun := by
        rw [store] at hstore
        split at hstore
        · cases hstore
        · split at hstore
          · cases hstore
          · exact (Except.error.inj hstore).symm
      have hover : b.append data = .error .overrun := by
        rw [happend, put, hstore, he]
        rfl
      refine iff_of_false ?_ fun hand => hand.2.elim fun _ hb => by cases hb
      rintro ⟨hroom, hthrow⟩
      by_cases hrep : b.Representable data.length
      · obtain ⟨b', hb⟩ := hroom hrep
        cases hover.symm.trans hb
      · obtain ⟨b', hb⟩ := hthrow hrep
        cases hover.symm.trans hb

private theorem appends_iff (h : b.Formed) (data : Bytes) :
    b.Appends data ↔ b.Room data.length data.length := by
  rw [appends_eq]
  by_cases hn : data.length = 0
  · rw [hn, and_iff_left (holds_zero _), room_zero h]
  · apply room_iff_of_grown h hn
    · intro ho
      obtain ⟨he, hsize, hmem⟩ := room_spec h.shaped ho data.length
      exact ⟨he, hsize, hmem hn, by omega, by omega⟩
    · intro hle
      exact if_neg (Nat.not_lt.mpr hle)

/-! ## In every buffer -/

/-- **In every buffer that a program makes, `reserve` and `append` have room for what they are asked
for exactly when the capacity that they compute does not wrap around.** -/
theorem room_iff (capacity : Nat) (ops : List Op) :
    ∀ b ∈ StepMachine.visited act (new capacity) ops,
      (∀ n, b.Reserves n ↔ b.Room n (b.offset + n - b.size)) ∧
        ∀ data, b.Appends data ↔ b.Room data.length data.length := by
  obtain ⟨hshaped, hinside⟩ := new_shaped capacity
  have hnew : (new capacity).Formed := ⟨hshaped, Nat.lt_of_le_of_lt hinside hshaped.wide⟩
  have hall : ∀ b ∈ StepMachine.visited act (new capacity) ops, b.Formed :=
    StepMachine.forall_visited (M := fun _ _ => True)
      (fun _ _ _ h _ hact => act_formed h hact) hnew fun _ _ => trivial
  intro b hb
  exact ⟨reserves_iff (hall b hb), appends_iff (hall b hb)⟩

/-- A new buffer of eight bytes has room for five. -/
theorem room_iff_new : (new 8).Reserves 5 :=
  ((room_iff 8 [] (new 8) List.mem_cons_self).1 5).mpr (.inr ⟨by decide, .inl (by decide)⟩)

/-- In a buffer of eight bytes 2^32 are reserved: the capacity becomes 0. -/
theorem not_reserves_wide : ¬ ∀ capacity ops, ∀ b ∈ StepMachine.visited act (new capacity) ops,
    ∀ n < 2 ^ 64, b.Reserves n := by
  intro h
  have hreserves := h 8 [] (new 8) List.mem_cons_self (2 ^ 32) (by decide)
  have hwide : ¬ (new 8).Representable (2 ^ 32) := by
    rw [Representable]
    decide
  obtain ⟨b', hb⟩ := hreserves.2 hwide
  nomatch hb

end Suil.OBuffer
