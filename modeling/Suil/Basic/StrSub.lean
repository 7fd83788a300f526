import Suil.Basic.StrOrder
import Suil.Basic.StrStrip

set_option autoImplicit false

/-! # Parts of strings

`substr` of `String` (`zstring.cpp`). What is left of the string behind the start is a difference of
unsigned numbers, and the test that converts it to a signed one compares it as an unsigned one again.
`cuts_iff` says for which arguments the part is the one that was asked for. -/

namespace Suil.Str

open OBuffer

/-! ## `substr` -/

/-- `dup()` of a string that may not be in its memory. -/
def dupView (s : Str) : Except BufFault Str :=
  if s.len = 0 ∨ s.len ≤ (s.mem.getD []).length ∨ NUL ∈ s.mem.getD [] then .ok s.dup
  else .error .overrun

/-- `substr(from, nchars, zc)`. -/
def substr (s : Str) (start nchars : UInt64) (zc : Bool) : Except BufFault Str :=
  let fits := s.len.toUInt64 - start
  let nchars := if nchars ≠ 0 then nchars else fits
  if nchars ≠ 0 ∧ fits ≥ nchars then
    -- `String(str, len, own)` keeps 32 bits of the length
    let tmp : Str := ⟨some ((s.mem.getD []).drop start.toNat), nchars.toNat % UINT32⟩
    if zc then .ok tmp else tmp.dupView
  else .ok null

/-! ## Parts of a string -/

/-- The part that is asked for, where `0` stands for the rest; nothing when it is not in the
string. -/
def part (s : Bytes) (start n : Nat) : Bytes :=
  if start + n ≤ s.length then
    (s.take (if n = 0 then s.length else min (start + n) s.length)).drop start
  else []

/-- Whatever is behind a string, the result has the bytes of the part, and no others. -/
def Cuts (t : Option (Sized UINT32)) (start n : UInt64) (zc : Bool) : Prop :=
  ∀ z, ∃ r, substr (held t z) start n zc = .ok r ∧
    r.len = (part (held t []).bytes start.toNat n.toNat).length ∧
    loaded r = some (part (held t []).bytes start.toNat n.toNat)

/-- The start is in the string, and a copy has no NUL but as its last byte. Behind the string nothing
may be asked for in 32 bits, or more than the difference that has wrapped around. -/
def Cuttable (t : Option (Sized UINT32)) (start n : UInt64) (zc : Bool) : Prop :=
  let s := (held t []).bytes
  if start.toNat ≤ s.length then
    zc = true ∨ NUL ∉ (part s start.toNat n.toNat).dropLast
  else
    (if n = 0 then s.length.toUInt64 - start else n).toNat % UINT32 = 0 ∨
      s.length.toUInt64 - start < n

/-! ## Strings that are held -/

private theorem held_len (t : Option (Sized UINT32)) (z : Bytes) :
    (held t z).len = (held t []).bytes.length := by
  cases t with
  | none => rfl
  | some s =>
      show s.bytes.length = ((s.bytes ++ []).take s.bytes.length).length
      rw [List.take_left]

private theorem held_mem (t : Option (Sized UINT32)) (z : Bytes) :
    ∃ z', (held t z).mem.getD [] = (held t []).bytes ++ z' := by
  cases t with
  | none => exact ⟨[], rfl⟩
  | some s =>
      refine ⟨z, ?_⟩
      show s.bytes ++ z = (s.bytes ++ []).take s.bytes.length ++ z
      rw [List.take_left]

private theorem held_exact (t : Option (Sized UINT32)) :
    (held t []).mem.getD [] = (held t []).bytes := by
  cases t with
  | none => rfl
  | some s =>
      show s.bytes ++ [] = (s.bytes ++ []).take s.bytes.length
      rw [List.take_left, List.append_nil]

private theorem held_lt (t : Option (Sized UINT32)) : (held t []).bytes.length < UINT32 := by
  cases t with
  | none => exact Nat.two_pow_pos 32
  | some s =>
      show ((s.bytes ++ []).take s.bytes.length).length < UINT32
      rw [List.take_left]
      exact s.bound

/-! ## The two outcomes -/

/-- Nothing is returned. -/
private theorem substr_null {s : Str} {start n : UInt64} (zc : Bool)
    (h : ¬ ((if n ≠ 0 then n else s.len.toUInt64 - start) ≠ 0 ∧
      s.len.toUInt64 - start ≥ if n ≠ 0 then n else s.len.toUInt64 - start)) :
    substr s start n zc = .ok null := if_neg h

/-- A view is made, and copied or not. -/
private theorem substr_view {s : Str} {start n k : UInt64} (zc : Bool)
    (hk : k = if n ≠ 0 then n else s.len.toUInt64 - start) (hne : k ≠ 0)
    (hle : k ≤ s.len.toUInt64 - start) :
    substr s start n zc =
      if zc then .ok ⟨some ((s.mem.getD []).drop start.toNat), k.toNat % UINT32⟩
      else dupView ⟨some ((s.mem.getD []).drop start.toNat), k.toNat % UINT32⟩ := by
  rw [substr, ← hk]
  exact if_pos ⟨hne, hle⟩

private theorem dupView_zero (m : Bytes) : dupView ⟨some m, 0⟩ = .ok null := rfl

private theorem dupView_inside {m : Bytes} {k : Nat} (h : k ≤ m.length) :
    dupView ⟨some m, k⟩ = .ok (dup ⟨some m, k⟩) := if_pos (.inr (.inl h))

private theorem loaded_inside {m : Bytes} {k : Nat} (h : k ≤ m.length) :
    loaded ⟨some m, k⟩ = some (m.take k) := by
  have hle : k ≤ (m ++ [NUL]).length := by
    rw [List.length_append]
    omega
  show (if k ≤ (m ++ [NUL]).length then some ((m ++ [NUL]).take k) else none) = _
  rw [if_pos hle, List.take_append_of_le_length h]

section
variable {t : Option (Sized UINT32)} {start n : UInt64} {zc : Bool}

/-- What is left of the string behind a start that is in it. -/
private theorem toNat_fits {len : Nat} (hlen : len < UINT32) (start : UInt64) :
    (len.toUInt64 - start).toNat = (2 ^ 64 - start.toNat + len) % 2 ^ 64 := by
  rw [UInt64.toNat_sub, Nat.toUInt64, UInt64.toNat_ofNat', Nat.mod_eq_of_lt (a := len)]
  unfold UINT32 at hlen
  omega

/-- The part is what the view has. -/
private theorem part_eq {s : Bytes} {k : Nat} (h : start.toNat + k ≤ s.length)
    (hk : k = if n.toNat = 0 then s.length - start.toNat else n.toNat) :
    part s start.toNat n.toNat = (s.drop start.toNat).take k := by
  unfold part
  by_cases hn : n.toNat = 0
  · rw [if_pos hn] at hk
    rw [if_pos hn, if_pos (by omega), List.take_length, hk, List.take_of_length_le]
    rw [List.length_drop]
  · rw [if_neg hn] at hk
    rw [if_neg hn, if_pos (by omega), Nat.min_eq_left (by omega), List.drop_take,
      Nat.add_sub_cancel_left, hk]

/-- A view of bytes that are there, or its copy. -/
private theorem view_cuts {m : Bytes} {k : Nat} (hk : k ≠ 0) (hle : k ≤ m.length) (zc : Bool) :
    (∃ r, (if zc then .ok ⟨some m, k⟩ else dupView ⟨some m, k⟩) = .ok r ∧ r.len = (m.take k).length ∧
      loaded r = some (m.take k)) ↔ zc = true ∨ NUL ∉ (m.take k).dropLast := by
  have hlen : (m.take k).length = k := by
    rw [List.length_take]
    omega
  rw [hlen]
  cases zc with
  | true => exact iff_of_true ⟨_, rfl, rfl, loaded_inside hle⟩ (.inl rfl)
  | false =>
      obtain ⟨-, hdup, hloaded⟩ := dup_some hk hle
      rw [or_iff_right Bool.false_ne_true, ← hloaded]
      constructor
      · rintro ⟨r, hr, -, h⟩
        obtain rfl : dup ⟨some m, k⟩ = r := Except.ok.inj ((dupView_inside hle).symm.trans hr)
        exact h
      · intro h
        exact ⟨_, dupView_inside hle, hdup, h⟩

/-- Behind a start that is in the string there is what is asked for, or nothing is returned. -/
private theorem cuts_inside (h : start.toNat ≤ (held t []).bytes.length) :
    Cuts t start n zc ↔
      zc = true ∨ NUL ∉ (part (held t []).bytes start.toNat n.toNat).dropLast := by
  have hlen := held_len t
  have hmem := held_mem t
  have hlt := held_lt t
  unfold Cuts
  generalize (held t []).bytes = s at *
  obtain ⟨f, hf⟩ : ∃ f, f = s.length.toUInt64 - start := ⟨_, rfl⟩
  have hfits : f.toNat = s.length - start.toNat := by
    rw [hf, toNat_fits hlt]
    unfold UINT32 at hlt
    omega
  -- the length that is asked for, and all of the rest when it is zero
  obtain ⟨k, hk⟩ : ∃ k, k = if n ≠ 0 then n else f := ⟨_, rfl⟩
  by_cases hview : k ≠ 0 ∧ k ≤ f
  · obtain ⟨hne, hle⟩ := hview
    have hkn : k.toNat = if n.toNat = 0 then s.length - start.toNat else n.toNat := by
      rw [hk]
      by_cases hn : n = 0
      · rw [if_neg (not_not.mpr hn), hfits, hn]
        rfl
      · have hn' : n.toNat ≠ 0 := fun h => hn (UInt64.toNat_inj.mp h)
        rw [if_pos hn, if_neg hn']
    have hne' : k.toNat ≠ 0 := fun h => hne (UInt64.toNat_inj.mp h)
    have hle' : start.toNat + k.toNat ≤ s.length := by
      have := UInt64.le_iff_toNat_le.mp hle
      omega
    rw [part_eq hle' hkn]
    have hmod : k.toNat % UINT32 = k.toNat := Nat.mod_eq_of_lt (by omega)
    -- what is behind the string in the memory does not come into the view
    have hview : ∀ z, (∃ r, substr (held t z) start n zc = .ok r ∧
        r.len = ((s.drop start.toNat).take k.toNat).length ∧
        loaded r = some ((s.drop start.toNat).take k.toNat)) ↔
          zc = true ∨ NUL ∉ ((s.drop start.toNat).take k.toNat).dropLast := by
      intro z
      obtain ⟨z', hz⟩ := hmem z
      have hdrop : k.toNat ≤ (s.drop start.toNat).length := by
        rw [List.length_drop]
        omega
      rw [substr_view zc (by rw [hlen z, ← hf]; exact hk) hne (by rw [hlen z, ← hf]; exact hle), hz,
        List.drop_append_of_le_length h, hmod, ← @List.take_append_of_le_length _ _ z' _ hdrop]
      apply view_cuts hne'
      rw [List.length_append]
      omega
    constructor
    · intro hcuts
      exact (hview []).mp (hcuts [])
    · intro hplain z
      exact (hview z).mpr hplain
  · -- the rest is nothing, or more is asked for than there is
    have hnull : ∀ z, substr (held t z) start n zc = .ok null := by
      intro z
      apply substr_null
      rw [hlen z, ← hf, ← hk]
      exact hview
    have hpart : part s start.toNat n.toNat = [] := by
      unfold part
      by_cases hn : n = 0
      · have hzero : s.length - start.toNat = 0 := by
          rw [← hfits]
          rw [if_neg (not_not.mpr hn)] at hk
          by_contra hpos
          apply hview
          rw [hk]
          refine ⟨?_, UInt64.le_refl f⟩
          intro hf0
          rw [hf0] at hpos
          exact hpos rfl
        split
        · rw [List.drop_eq_nil_iff, List.length_take]
          omega
        · rfl
      · rw [if_pos hn] at hk
        rw [if_neg]
        intro hle
        apply hview
        rw [hk]
        refine ⟨hn, UInt64.le_iff_toNat_le.mpr ?_⟩
        omega
    rw [hpart]
    exact iff_of_true (fun z => ⟨null, hnull z, rfl, rfl⟩) (.inr List.not_mem_nil)

/-- Behind a start that is not in the string there must be nothing. -/
private theorem cuts_outside (h : (held t []).bytes.length < start.toNat) :
    Cuts t start n zc ↔
      (if n = 0 then (held t []).bytes.length.toUInt64 - start else n).toNat % UINT32 = 0 ∨
        (held t []).bytes.length.toUInt64 - start < n := by
  have hlen := held_len t
  have hexact := held_exact t
  have hlt := held_lt t
  unfold Cuts
  generalize (held t []).bytes = s at *
  have hpart : part s start.toNat n.toNat = [] := if_neg (by omega)
  obtain ⟨f, hf⟩ : ∃ f, f = s.length.toUInt64 - start := ⟨_, rfl⟩
  have hfits : f.toNat ≠ 0 := by
    have hstart := start.toNat_lt
    rw [hf, toNat_fits hlt]
    unfold UINT32 at hlt
    omega
  obtain ⟨k, hk⟩ : ∃ k, k = if n ≠ 0 then n else f := ⟨_, rfl⟩
  have hk' : (if n = 0 then f else n) = k := by
    rw [hk]
    by_cases hn : n = 0
    · rw [if_pos hn, if_neg (not_not.mpr hn)]
    · rw [if_neg hn, if_pos hn]
  rw [hpart, ← hf, hk']
  by_cases hfew : f < n
  · -- more is asked for than the difference
    have hn : n ≠ 0 := by
      rintro rfl
      exact absurd (UInt64.lt_iff_toNat_lt.mp hfew) (Nat.not_lt_zero _)
    refine iff_of_true ?_ (.inr hfew)
    intro z
    refine ⟨null, ?_, rfl, rfl⟩
    apply substr_null
    rw [hlen z, ← hf, ← hk, hk, if_pos hn]
    intro hview
    exact absurd (UInt64.le_iff_toNat_le.mp hview.2)
      (Nat.not_le.mpr (UInt64.lt_iff_toNat_lt.mp hfew))
  rw [or_iff_left hfew]
  have hne : k ≠ 0 := by
    rw [hk]
    by_cases hn : n = 0
    · rw [if_neg (not_not.mpr hn)]
      intro hzero
      rw [hzero] at hfits
      exact hfits rfl
    · rw [if_pos hn]
      exact hn
  have hle : k ≤ f := by
    rw [hk]
    by_cases hn : n = 0
    · rw [if_neg (not_not.mpr hn)]
      exact UInt64.le_refl f
    · rw [if_pos hn]
      exact UInt64.not_lt.mp hfew
  have hview := fun z => substr_view (s := held t z) zc (by rw [hlen z, ← hf]; exact hk) hne
    (by rw [hlen z, ← hf]; exact hle)
  constructor
  · intro hcuts
    obtain ⟨r, hr, hrlen, -⟩ := hcuts []
    -- there is no memory behind the string, and the view has some length
    rw [hview [], hexact, List.drop_eq_nil_iff.mpr (Nat.le_of_lt h)] at hr
    cases zc with
    | true =>
        obtain rfl := Except.ok.inj hr
        exact hrlen
    | false =>
        by_contra hlong
        have hstop : dupView ⟨some [], k.toNat % UINT32⟩ = .error .overrun := by
          apply if_neg
          rintro (hzero | hzero | hzero)
          · exact hlong hzero
          · exact hlong (Nat.le_zero.mp hzero)
          · nomatch hzero
        nomatch hstop.symm.trans hr
  · intro hzero z
    rw [hview z, hzero]
    cases zc with
    | true => exact ⟨_, rfl, rfl, rfl⟩
    | false => exact ⟨null, dupView_zero _, rfl, rfl⟩

end

/-- **The part is the one that was asked for exactly with such arguments.** -/
theorem cuts_iff (t : Option (Sized UINT32)) (start n : UInt64) (zc : Bool) :
    Cuts t start n zc ↔ Cuttable t start n zc := by
  unfold Cuttable
  dsimp only
  by_cases h : start.toNat ≤ (held t []).bytes.length
  · rw [if_pos h]
    exact cuts_inside h
  · rw [if_neg h]
    exact cuts_outside (Nat.not_le.mp h)

/-- A string of five letters. -/
def five : Sized UINT32 := ⟨str "abcde", by decide⟩

/-- The view starts behind the string. -/
theorem not_cuts_five : ¬ Cuts (some five) 6 1 true := by
  intro h
  obtain ⟨r, hr, hlen, -⟩ := h []
  have hview : substr (held (some five) []) 6 1 true = .ok ⟨some [], 1⟩ := by decide
  cases hview.symm.trans hr
  exact absurd hlen (by decide)

end Suil.Str
