import Suil.Basic.CString

set_option autoImplicit false

/-! # The serialization protocol of Redis

The values of the protocol and their bytes: a line that starts with the type and, for bulk strings
and arrays, counts what follows. -/

namespace Suil.Resp

inductive Value where
  | simple (s : Bytes)
  | error (s : Bytes)
  | integer (n : Int)
  | bulk (s : Bytes)
  | null
  | array (vs : List Value)
  | nullArray

def CRLF : Bytes := [CR, LF]

/-- A line with its type. -/
def line (c : UInt8) (s : Bytes) : Bytes := c :: (s ++ CRLF)

mutual

def encode : Value → Bytes
  | .simple s => line PLUS s
  | .error s => line DASH s
  | .integer n => line COLON (showInt n)
  | .bulk s => line 36 (showNat s.length) ++ (s ++ CRLF)
  | .null => line 36 (str "-1")
  | .array vs => line 42 (showNat vs.length) ++ encodeAll vs
  | .nullArray => line 42 (str "-1")

def encodeAll : List Value → Bytes
  | [] => []
  | v :: vs => encode v ++ encodeAll vs

end

theorem cr_notMem_showNat (n : Nat) : CR ∉ showNat n :=
  fun h => absurd (isDigit_of_mem_showNat h) (by decide)

/-- A line ends where it should. -/
theorem line_inj {c : UInt8} {s t x y : Bytes} (hs : CR ∉ s) (ht : CR ∉ t)
    (h : line c s ++ x = line c t ++ y) : s = t ∧ x = y := by
  have heq : s ++ CR :: (LF :: x) = t ++ CR :: (LF :: y) := by
    have : (s ++ CRLF) ++ x = (t ++ CRLF) ++ y := (List.cons.inj h).2
    rwa [List.append_assoc, List.append_assoc] at this
  clear h
  induction s generalizing t with
  | nil =>
      cases t with
      | nil => exact ⟨rfl, (List.cons.inj (List.cons.inj heq).2).2⟩
      | cons d t => exact absurd ((List.cons.inj heq).1 ▸ List.mem_cons_self) ht
  | cons b s ih =>
      cases t with
      | nil => exact absurd ((List.cons.inj heq).1 ▸ List.mem_cons_self) hs
      | cons d t =>
          obtain ⟨hhead, htail⟩ := List.cons.inj heq
          obtain ⟨hst, hxy⟩ := ih (fun h => hs (List.mem_cons_of_mem _ h))
            (fun h => ht (List.mem_cons_of_mem _ h)) htail
          exact ⟨by rw [hhead, hst], hxy⟩

/-- The numbers of two lines are the same when the lines are. -/
theorem line_showNat_inj {c : UInt8} {m n : Nat} {x y : Bytes}
    (h : line c (showNat m) ++ x = line c (showNat n) ++ y) : m = n ∧ x = y := by
  obtain ⟨hdigits, hxy⟩ := line_inj (cr_notMem_showNat m) (cr_notMem_showNat n) h
  refine ⟨?_, hxy⟩
  rw [← ofDigits_showNat m, hdigits, ofDigits_showNat]

/-- A bulk string ends where it says. -/
theorem bulk_inj {s t x y : Bytes}
    (h : encode (.bulk s) ++ x = encode (.bulk t) ++ y) : s = t ∧ x = y := by
  simp only [encode, List.append_assoc] at h
  obtain ⟨hlength, hrest⟩ := line_showNat_inj h
  obtain ⟨hst, hxy⟩ := List.append_inj hrest hlength
  exact ⟨hst, List.append_cancel_left hxy⟩

end Suil.Resp
