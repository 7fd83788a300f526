import Mathlib
import Suil.Basic.CString
import Suil.Basic.OBuffer

set_option autoImplicit false

/-! # Strings

Copies and comparisons of `String` (`zstring.h`, `zstring.cpp`). An empty string is copied to a null
pointer, and a null pointer is equal to no pointer but the null pointer. -/

namespace Suil.Str

/-- `String(nullptr)`. -/
def null : Str := ⟨none, 0⟩

/-- `String(str)`. -/
def ofC (str : Bytes) : Str := ⟨some str, (str.takeWhile (· ≠ NUL)).length⟩

/-- `dup()`. -/
def dup (s : Str) : Str :=
  match s.mem with
  | none => null
  | some m => if s.len = 0 then null else ⟨some ((m.take s.len).takeWhile (· ≠ NUL)), s.len⟩

/-- `operator==`. -/
def eq (s t : Str) : Bool :=
  match s.mem, t.mem with
  | some m, some n => s.len = t.len && strncmpEq s.len m n
  | none, none => true
  | _, _ => false

/-- Whether `compare(s, igc)` is zero. -/
def comparesEqual (s t : Str) (igc : Bool) : Bool :=
  t.len = s.len &&
    if igc then strncaseEq s.len (s.mem.getD []) (t.mem.getD [])
    else strncmpEq s.len (s.mem.getD []) (t.mem.getD [])

/-- A copy is copied as it is. -/
theorem dup_dup (s : Str) : s.dup.dup = s.dup := by
  obtain ⟨mem, len⟩ := s
  cases mem with
  | none => rfl
  | some m =>
      by_cases hlen : len = 0
      · have hnull : dup ⟨some m, len⟩ = null := if_pos hlen
        rw [hnull]
        rfl
      · have hcopy : ∀ m : Bytes, dup ⟨some m, len⟩ =
            ⟨some ((m.take len).takeWhile (· ≠ NUL)), len⟩ := fun m => if_neg hlen
        have hshort : ((m.take len).takeWhile (· ≠ NUL)).length ≤ len := by
          calc ((m.take len).takeWhile (· ≠ NUL)).length
              ≤ (m.take len).length := (List.takeWhile_prefix _).length_le
            _ ≤ len := List.length_take_le _ _
        rw [hcopy, hcopy, List.take_of_length_le hshort, List.takeWhile_idem]

end Suil.Str
