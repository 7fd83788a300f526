import Suil.Basic.BufferRoom
import Suil.Http.WebSock

set_option autoImplicit false

/-! # The memory for the payload of a frame

`WebSock::receive_frame` reserves two bytes more than the payload has, in a buffer whose sizes are
`uint32_t`, and receives the payload from the start of its memory (`wsock.cpp`). The length of a
frame has up to 64 bits. `frameSafe_iff` says for which frames there is memory. -/

namespace Suil.Http.WebSock

open LittleEndian
open OBuffer (roundUp UINT32)

/-! ## The buffer of a frame -/

/-- How far `receive_frame` comes: to an end, or to the payload. -/
inductive Prepared where
  | rejected
  | threw
  | ready (h : Header) (b : OBuffer) (rest : Bytes)

/-- `receive_frame` up to the payload; `given` says whether `realloc` has memory to give. -/
def prepare (given : Bool) (b : OBuffer) (s : Bytes) : Prepared :=
  match receive_opcode s with
  | none => .rejected
  | some (h, s) =>
      if !given then .threw else .ready h (b.reserve ((h.payload_size + 2) % 2 ^ 64)) s

/-! ## Memory for the payload -/

/-- A buffer with nothing in it, as `handle` clears it in front of every frame. -/
structure Vacant extends OBuffer where
  shaped : toOBuffer.Shaped
  offset_eq : offset = 0

/-- The cleared buffer. -/
def cleared : Vacant := ⟨⟨none, 0, 0⟩, OBuffer.shaped_null, rfl⟩

/-- The capacity that a reservation of `n` bytes should lead to. -/
def Vacant.enlarged (b : Vacant) (n : Nat) : Nat :=
  if n ≤ b.size then b.size else b.size + roundUp (max b.size (n - b.size))

/-- When the payload is received, there is memory for it and one byte more, and no size that was
computed on the way has wrapped around. -/
def FrameSafe (given : Bool) (b : Vacant) (s : Bytes) : Prop :=
  match prepare given b.toOBuffer s with
  | .rejected | .threw => True
  | .ready h b' _ =>
      h.payload_size + 1 ≤ (b'.mem.getD []).length ∧ h.payload_size + 2 < 2 ^ 64 ∧
        b'.size = b.enlarged (h.payload_size + 2)

/-- The capacity for a frame has 32 bits. -/
def Affordable (b : Vacant) (s : Bytes) : Prop :=
  ∀ h ∈ (receive_opcode s).map Prod.fst,
    b.Room (h.payload_size + 2) (h.payload_size + 2 - b.size)

/-! ## Lengths -/

private theorem leNat_lt (bs : Bytes) : leNat bs < 256 ^ bs.length := by
  induction bs with
  | nil => exact Nat.one_pos
  | cons b bs ih =>
      have hb := b.toNat_lt
      rw [leNat, List.length_cons, Nat.pow_succ]
      omega

/-- The first byte of a long length is the one that says that it is long. -/
private theorem receive_length_lt {len : UInt8} {s r : Bytes} {n : Nat}
    (h : receive_length len s = some (n, r)) : n + 2 < 2 ^ 64 := by
  rw [receive_length] at h
  split_ifs at h with hextra
  · obtain ⟨⟨got, s'⟩, hgot, hn⟩ := Option.bind_eq_some_iff.mp h
    cases hn
    rw [receive] at hgot
    split_ifs at hgot with hle
    cases hgot
    unfold extra_bytes at *
    by_cases h₁ : len = WS_PAYLOAD_EXTEND_1
    · have hlt := leNat_lt (((len :: s.take 1).take 2))
      have hshort : ((len :: s.take 1).take 2).length ≤ 2 := List.length_take_le _ _
      have hpow := Nat.pow_le_pow_right (show 0 < 256 by decide) hshort
      simp only [if_pos h₁]
      show leNat ((len :: s.take 1).take 2) + 2 < 2 ^ 64
      omega
    · by_cases h₂ : len = WS_PAYLOAD_EXTEND_2
      · have hlt := leNat_lt ((s.take 7).take 7)
        have hshort : ((s.take 7).take 7).length ≤ 7 := List.length_take_le _ _
        have hpow := Nat.pow_le_pow_right (show 0 < 256 by decide) hshort
        simp only [if_neg h₁, if_pos h₂]
        show leNat (len :: (s.take 7).take 7) + 2 < 2 ^ 64
        rw [leNat, h₂]
        show 127 + 256 * leNat ((s.take 7).take 7) + 2 < 2 ^ 64
        omega
      · rw [if_neg h₁, if_neg h₂] at hextra
        exact absurd rfl hextra
  · cases h
    have := len.toNat_lt
    omega

private theorem payload_lt {s r : Bytes} {h : Header} (hs : receive_opcode s = some (h, r)) :
    h.payload_size + 2 < 2 ^ 64 := by
  rw [receive_opcode] at hs
  obtain ⟨⟨u16All, s₁⟩, -, hs⟩ := Option.bind_eq_some_iff.mp hs
  unfold receive_rest at hs
  dsimp only at hs
  split_ifs at hs
  obtain ⟨⟨n, s₂⟩, hlen, hs⟩ := Option.bind_eq_some_iff.mp hs
  obtain ⟨⟨v_mask, s₃⟩, -, hs⟩ := Option.bind_eq_some_iff.mp hs
  cases hs
  exact receive_length_lt hlen

/-! ## Which frames -/

/-- **A frame is rejected or has its memory exactly when the capacity for it does not wrap around.** -/
theorem frameSafe_iff (given : Bool) (b : Vacant) (s : Bytes) :
    FrameSafe given b s ↔ (given = true → Affordable b s) := by
  rw [FrameSafe, prepare, Affordable]
  cases hs : receive_opcode s with
  | none => exact iff_of_true trivial nofun
  | some p =>
      obtain ⟨h, r⟩ := p
      cases given with
      | false => exact iff_of_true trivial nofun
      | true =>
          have hlt := payload_lt hs
          have hne : h.payload_size + 2 ≠ 0 := Nat.succ_ne_zero _
          have hinside : b.offset ≤ b.size := b.offset_eq ▸ Nat.zero_le _
          obtain ⟨hroomy, hwrapped⟩ := OBuffer.reserve_empty b.shaped b.offset_eq hne
          obtain ⟨he, hsize, hmem⟩ := OBuffer.reserve_spec b.shaped hinside (h.payload_size + 2)
          have hlen := he.shaped.memory.trans (if_neg (hmem hne))
          have hall : (∀ h' ∈ ((some (h, r)).map Prod.fst : Option Header),
              b.Room (h'.payload_size + 2) (h'.payload_size + 2 - b.size)) ↔
              b.Room (h.payload_size + 2) (h.payload_size + 2 - b.size) :=
            ⟨fun hyes => hyes h rfl, fun hyes h' hh => by cases hh; exact hyes⟩
          rw [forall_prop_of_true rfl, hall]
          dsimp only
          rw [if_neg (by decide), Nat.mod_eq_of_lt hlt]
          dsimp only
          rw [hlen]
          constructor
          · rintro ⟨hle, -, -⟩
            by_contra hno
            have := hwrapped hno
            omega
          · intro hroom
            have := hroomy hroom
            refine ⟨by omega, hlt, ?_⟩
            rw [hsize, OBuffer.reserved, OBuffer.grown, b.offset_eq, Nat.zero_add, Vacant.enlarged]
            split_ifs with hin
            · rfl
            · rw [OBuffer.Room, or_iff_right fun hnone => hne hnone.1, and_iff_right hinside,
                b.offset_eq, Nat.zero_add, or_iff_right hin] at hroom
              exact Nat.mod_eq_of_lt hroom

/-- For the cleared buffer of `handle` these are the frames of less than `2 ^ 32 - 9` bytes. -/
theorem affordable_cleared_iff (s : Bytes) : Affordable cleared s ↔
    ∀ h ∈ (receive_opcode s).map Prod.fst, h.payload_size < 2 ^ 32 - 9 := by
  refine forall₂_congr fun h _ => ?_
  have hne : h.payload_size + 2 ≠ 0 := Nat.succ_ne_zero _
  obtain ⟨hle, hlt⟩ := OBuffer.roundUp_lt (h.payload_size + 2)
  have hmultiple := OBuffer.roundUp_multiple (h.payload_size + 2)
  rw [OBuffer.Room, or_iff_right fun hnone => hne hnone.1]
  show 0 ≤ 0 ∧ (0 + (h.payload_size + 2) ≤ 0 ∨
    0 + roundUp (max 0 (h.payload_size + 2 - 0)) < UINT32) ↔ _
  rw [Nat.zero_max, Nat.sub_zero]
  unfold UINT32
  omega

/-- The header of a frame of 2^32 + 127 bytes: 136 bytes are there for it. -/
def hugeHeader : Bytes := [0x82, 0xFF, 0, 0, 0, 1, 0, 0, 0, 1, 2, 3, 4]

theorem not_frameSafe_huge : ¬ ∀ (given : Bool) (b : Vacant) (s : Bytes), FrameSafe given b s := by
  intro h
  have hsafe := (affordable_cleared_iff hugeHeader).mp ((frameSafe_iff true cleared hugeHeader).mp
    (h true cleared hugeHeader) rfl)
  have hread : receive_opcode hugeHeader =
      some (⟨0x82, 0xFF, 2 ^ 32 + 127, [1, 2, 3, 4]⟩, []) := by decide
  rw [hread] at hsafe
  exact absurd (hsafe _ rfl) (by decide)

end Suil.Http.WebSock
