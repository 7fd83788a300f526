import Suil.Basic.Buffer

set_option autoImplicit false

/-! # Buffers that are filled through their pointer

Some functions make a buffer, store through the pointer to its first byte, and set the length at the
end with a seek that must stay below the capacity. `filled_ok` and the lemmas beside it say what
string becomes of it. -/

namespace Suil

namespace OBuffer

theorem bind_ok {α β : Type} (a : α) (f : α → Except BufFault β) : (Except.ok a >>= f) = f a := rfl

theorem bind_fault {α β : Type} (e : BufFault) (f : α → Except BufFault β) :
    (Except.error e >>= f) = .error e := rfl

/-- The bytes are stored at the start of the memory, the length is set, and the string takes the
memory. -/
def filled (b : OBuffer) (out : Bytes) : Except BufFault Str := do
  let b ← b.poke out
  let b ← b.seek out.length
  .ok b.toStr

/-- The bytes are stored when they have a place. -/
theorem poke_eq (b : OBuffer) (out : Bytes) : b.poke out =
    if out.length ≤ (b.mem.getD []).length then
      .ok { b with mem := b.mem.map fun mem => out ++ mem.drop out.length }
    else .error .overrun := by
  obtain ⟨mem, size, offset⟩ := b
  cases mem with
  | none =>
      unfold poke
      simp only [Option.getD_none, List.length_nil, Nat.le_zero, List.length_eq_zero_iff,
        Option.map_none]
  | some mem => rfl

section
variable {b : OBuffer} {out : Bytes} (hoff : b.offset = 0)

include hoff

private theorem filled_eq (hle : out.length ≤ (b.mem.getD []).length) :
    b.filled out = if out.length < b.size then
        .ok ⟨b.mem.map fun mem => (out ++ mem.drop out.length).set out.length NUL, out.length⟩
      else .error .outOfRange := by
  rw [filled, poke_eq, if_pos hle, bind_ok, seek, bseek, hoff, Nat.zero_add]
  split
  · rw [bind_ok, toStr, Option.map_map]
    rfl
  · rw [bind_fault]

/-- What is stored is the text of the string, when there is a place left behind it. -/
theorem filled_ok (hle : out.length ≤ (b.mem.getD []).length) (hlt : out.length < b.size) :
    ∃ s, b.filled out = .ok s ∧ s.bytes = out ∧ s.len = out.length := by
  rw [filled_eq hoff hle, if_pos hlt]
  refine ⟨_, rfl, ?_, rfl⟩
  unfold Str.bytes
  cases hmem : b.mem with
  | none =>
      rw [hmem] at hle
      have hnil : out = [] := List.length_eq_zero_iff.mp (Nat.le_zero.mp hle)
      rw [hnil]
      rfl
  | some mem =>
      rw [Option.map_some, Option.getD_some, List.set_append_right _ _ (Nat.le_refl _),
        List.take_left]

/-- The seek does not go to the end of the memory. -/
theorem filled_outOfRange (hle : out.length ≤ (b.mem.getD []).length) (hge : b.size ≤ out.length) :
    b.filled out = .error .outOfRange := by
  rw [filled_eq hoff hle, if_neg (Nat.not_lt.mpr hge)]

end

theorem filled_overrun {b : OBuffer} {out : Bytes} (h : (b.mem.getD []).length < out.length) :
    b.filled out = .error .overrun := by
  rw [filled, poke_eq, if_neg (Nat.not_le.mpr h), bind_fault]

/-- A string comes out of it exactly when the bytes have a place and there is one left. -/
theorem filled_ok_iff {b : OBuffer} {out : Bytes} (hoff : b.offset = 0) :
    (∃ s, b.filled out = .ok s) ↔ out.length ≤ (b.mem.getD []).length ∧ out.length < b.size := by
  constructor
  · rintro ⟨s, hs⟩
    by_cases hle : out.length ≤ (b.mem.getD []).length
    · refine ⟨hle, ?_⟩
      by_contra hge
      rw [filled_outOfRange hoff hle (Nat.not_lt.mp hge)] at hs
      nomatch hs
    · rw [filled_overrun (Nat.not_le.mp hle)] at hs
      nomatch hs
  · rintro ⟨hle, hlt⟩
    obtain ⟨s, hs, -⟩ := filled_ok hoff hle hlt
    exact ⟨s, hs⟩

/-! ## A new buffer -/

/-- A buffer with nothing in it, whatever its memory is, grows to what is asked for. -/
theorem grow_empty (mem : Option Bytes) (n : Nat) :
    ((⟨mem, 0, 0⟩ : OBuffer).grow n).size = roundUp n % UINT32 ∧
    ((⟨mem, 0, 0⟩ : OBuffer).grow n).offset = 0 ∧
    (((⟨mem, 0, 0⟩ : OBuffer).grow n).mem.getD []).length = roundUp n % UINT32 + 1 := by
  have hmod := roundUp_multiple n
  have hlt : (roundUp n % UINT32 + 1) % UINT32 = roundUp n % UINT32 + 1 := by
    unfold UINT32
    omega
  refine ⟨?_, rfl, ?_⟩
  · show (0 + roundUp n % UINT32) % UINT32 = _
    rw [Nat.zero_add, Nat.mod_mod]
  · show (realloc mem ((0 + roundUp n % UINT32 + 1) % UINT32)).length = _
    rw [Nat.zero_add, hlt]
    unfold realloc
    simp only [List.length_append, List.length_replicate, List.length_take]
    omega

/-- `OBuffer(is)`. -/
theorem new_spec {n : Nat} (h : n < UINT32) :
    (new n).size = roundUp n % UINT32 ∧ (new n).offset = 0 ∧
      ((new n).mem.getD []).length = if n = 0 then 0 else roundUp n % UINT32 + 1 := by
  by_cases hn : n = 0
  · rw [hn]
    exact ⟨rfl, rfl, rfl⟩
  · rw [new, if_pos hn, if_neg hn, Nat.mod_eq_of_lt h]
    exact grow_empty none n

end OBuffer

end Suil
