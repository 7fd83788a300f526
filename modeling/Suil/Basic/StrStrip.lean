import Mathlib
import Suil.Basic.Filled
import Suil.Basic.Str

set_option autoImplicit false

/-! # Stripping strings

`strip` and `trim` of `String` (`zstring.cpp`). Two pointers go over a character from both ends, with
nothing but another character to stop them, and what is between them is stored in a buffer of the
size of the string. `strips_iff` says for which strings this removes what it should, twice. -/

namespace Suil.Str

open OBuffer

/-! ## `strip` and `trim` -/

/-- `while (strip == *s) s++`: how far the pointer goes. -/
def skipFront (c : UInt8) : Bytes → Except BufFault Nat
  | [] => .error .overrun
  | x :: m => if c = x then (· + 1) <$> skipFront c m else .ok 0

/-- `while (strip == *e) e--; e++`, from the place `n - 1` on. -/
def skipBack (c : UInt8) (m : Bytes) : Nat → Except BufFault Nat
  | 0 => .error .overrun
  | n + 1 =>
      match m[n]? with
      | none => .error .overrun
      | some x => if c = x then skipBack c m n else .ok (n + 1)

/-- `strip(strip, ends)`. -/
def strip (s : Str) (c : UInt8) (ends : Bool) : Except BufFault Str := do
  let m := s.mem.getD []
  let i ← skipFront c m
  let e ← skipBack c m s.len
  let text := (m.take e).drop i
  (OBuffer.new s.len).filled (if ends then text else text.filter (· ≠ c))

/-- `trim(what)`. -/
def trim (s : Str) (what : UInt8) : Except BufFault Str := s.strip what true

/-! ## Strings without a character -/

/-- The string without its longest prefix and suffix of the character. -/
def trimmed (c : UInt8) (s : Bytes) : Bytes := (s.rdropWhile (· = c)).dropWhile (· = c)

/-- What is left of a string: the character is removed at the ends, or everywhere. -/
def left (c : UInt8) (ends : Bool) (s : Bytes) : Bytes :=
  if ends then trimmed c s else s.filter (· ≠ c)

/-- The null string, or bytes with other memory behind them. -/
def held (t : Option (Sized UINT32)) (z : Bytes) : Str :=
  match t with
  | none => null
  | some s => ⟨some (s.bytes ++ z), s.bytes.length⟩

/-- Whatever is behind a string, the character is removed from it, and then there is nothing to
remove. -/
def Removes (t : Option (Sized UINT32)) (c : UInt8) (ends : Bool) : Prop :=
  ∀ z, ∃ r r', strip (held t z) c ends = .ok r ∧ r.bytes = left c ends (held t []).bytes ∧
    strip r c ends = .ok r' ∧ r'.bytes = r.bytes

/-- The string has another character, its size is not rounded up to more than 32 bits, and the bytes
that are left do not fill words. -/
def Removable (t : Option (Sized UINT32)) (c : UInt8) (ends : Bool) : Prop :=
  ∃ s, t = some s ∧ (∃ x ∈ s.bytes, x ≠ c) ∧ roundUp s.bytes.length < UINT32 ∧
    (left c ends s.bytes).length % 8 ≠ 0

/-! ## What is left -/

section
variable {c : UInt8} {s : Bytes}

private theorem rdropWhile_ne_nil (h : ∃ x ∈ s, x ≠ c) : s.rdropWhile (· = c) ≠ [] := by
  obtain ⟨x, hx, hne⟩ := h
  intro hnil
  exact hne (of_decide_eq_true (List.rdropWhile_eq_nil_iff.mp hnil x hx))

/-- The last of the bytes without the suffix is another character. -/
private theorem exists_rdropWhile (h : ∃ x ∈ s, x ≠ c) :
    ∃ x ∈ s.rdropWhile (· = c), x ≠ c := by
  have hnil := rdropWhile_ne_nil h
  refine ⟨_, List.getLast_mem hnil, ?_⟩
  intro heq
  exact List.rdropWhile_last_not (· = c) s hnil (decide_eq_true heq)

private theorem filter_dropWhile (c : UInt8) (s : Bytes) :
    (s.dropWhile (· = c)).filter (· ≠ c) = s.filter (· ≠ c) := by
  induction s with
  | nil => rfl
  | cons x s ih =>
      by_cases hx : x = c
      · rw [List.dropWhile_cons_of_pos (p := (· = c)) (decide_eq_true hx), ih,
          List.filter_cons_of_neg (p := (· ≠ c)) (by simpa using hx)]
      · rw [List.dropWhile_cons_of_neg (p := (· = c)) (by simpa using hx)]

private theorem filter_trimmed (c : UInt8) (s : Bytes) :
    (trimmed c s).filter (· ≠ c) = s.filter (· ≠ c) := by
  unfold trimmed
  rw [filter_dropWhile, List.rdropWhile, List.filter_reverse, filter_dropWhile,
    ← List.filter_reverse, List.reverse_reverse]

/-- What is left of what is left is all of it. -/
private theorem left_left (c : UInt8) (ends : Bool) (s : Bytes) :
    left c ends (left c ends s) = left c ends s := by
  unfold left
  cases ends with
  | true =>
      show trimmed c (trimmed c s) = trimmed c s
      unfold trimmed
      -- nothing is taken off the end of what ends with another character
      have hend : ((s.rdropWhile (· = c)).dropWhile (· = c)).rdropWhile (· = c) =
          (s.rdropWhile (· = c)).dropWhile (· = c) := by
        rw [List.rdropWhile_eq_self_iff]
        intro hne hlast
        have hsuffix := List.dropWhile_suffix (p := (· = c)) (l := s.rdropWhile (· = c))
        have hnil : s.rdropWhile (· = c) ≠ [] := by
          intro hnil
          rw [hnil] at hne
          exact hne rfl
        rw [hsuffix.getLast hne] at hlast
        exact List.rdropWhile_last_not (· = c) s hnil hlast
      rw [hend, List.dropWhile_idempotent]
  | false =>
      show (s.filter (· ≠ c)).filter (· ≠ c) = s.filter (· ≠ c)
      rw [List.filter_filter]
      simp only [Bool.and_self]

/-- Another character is left. -/
private theorem exists_left (h : ∃ x ∈ s, x ≠ c) (ends : Bool) : ∃ x ∈ left c ends s, x ≠ c := by
  obtain ⟨x, hx, hne⟩ := h
  have hmem : x ∈ s.filter (· ≠ c) := List.mem_filter.mpr ⟨hx, decide_eq_true hne⟩
  refine ⟨x, ?_, hne⟩
  unfold left
  cases ends with
  | true =>
      rw [← filter_trimmed] at hmem
      exact List.mem_of_mem_filter hmem
  | false => exact hmem

/-! ## The two pointers -/

/-- The first pointer stops at another character. -/
private theorem skipFront_eq (h : ∃ x ∈ s, x ≠ c) (z : Bytes) :
    skipFront c (s ++ z) = .ok (s.takeWhile (· = c)).length := by
  induction s with
  | nil =>
      obtain ⟨x, hx, -⟩ := h
      nomatch hx
  | cons x s ih =>
      rw [List.cons_append, skipFront]
      by_cases hx : c = x
      · obtain ⟨y, hy, hne⟩ := h
        have hs : ∃ x ∈ s, x ≠ c := by
          rcases List.mem_cons.mp hy with rfl | hy
          · exact absurd hx.symm hne
          · exact ⟨y, hy, hne⟩
        rw [if_pos hx, ih hs, List.takeWhile_cons_of_pos (p := (· = c)) (decide_eq_true hx.symm),
          List.length_cons]
        rfl
      · rw [if_neg hx, List.takeWhile_cons_of_neg (p := (· = c)) (by simpa using Ne.symm hx)]
        rfl

private theorem skipFront_all (h : ∀ x ∈ s, x = c) : skipFront c s = .error .overrun := by
  induction s with
  | nil => rfl
  | cons x s ih =>
      rw [skipFront, if_pos (h x List.mem_cons_self).symm,
        ih fun y hy => h y (List.mem_cons_of_mem x hy)]
      rfl

/-- The second pointer stops at the last one of these. -/
private theorem skipBack_eq (h : ∃ x ∈ s, x ≠ c) (z : Bytes) :
    skipBack c (s ++ z) s.length = .ok (s.rdropWhile (· = c)).length := by
  induction s using List.reverseRecOn generalizing z with
  | nil =>
      obtain ⟨x, hx, -⟩ := h
      nomatch hx
  | append_singleton s x ih =>
      have hget : (s ++ [x] ++ z)[s.length]? = some x := by
        rw [List.append_assoc, List.getElem?_append_right (Nat.le_refl _), Nat.sub_self]
        rfl
      rw [List.length_append, List.length_singleton, skipBack, hget]
      dsimp only
      by_cases hx : c = x
      · obtain ⟨y, hy, hne⟩ := h
        have hs : ∃ x ∈ s, x ≠ c := by
          rcases List.mem_append.mp hy with hy | hy
          · exact ⟨y, hy, hne⟩
          · exact absurd (List.mem_singleton.mp hy ▸ hx.symm) hne
        rw [if_pos hx, List.rdropWhile_concat_pos (· = c) _ _ (decide_eq_true hx.symm), List.append_assoc,
          ih hs]
      · rw [if_neg hx, List.rdropWhile_concat_neg (· = c) _ _ (by simpa using Ne.symm hx),
          List.length_append, List.length_singleton]

/-- What is between the pointers. -/
private theorem between_eq (h : ∃ x ∈ s, x ≠ c) (z : Bytes) :
    ((s ++ z).take (s.rdropWhile (· = c)).length).drop (s.takeWhile (· = c)).length =
      trimmed c s := by
  obtain ⟨y, hy, hne⟩ := exists_rdropWhile h
  have hprefix := List.rdropWhile_prefix (· = c) s
  have htake : (s ++ z).take (s.rdropWhile (· = c)).length = s.rdropWhile (· = c) := by
    rw [List.take_append_of_le_length hprefix.length_le]
    exact (List.prefix_iff_eq_take.mp hprefix).symm
  have hfront : s.takeWhile (· = c) = (s.rdropWhile (· = c)).takeWhile (· = c) := by
    obtain ⟨r, hr⟩ := hprefix
    generalize s.rdropWhile (· = c) = d at *
    rw [← hr, List.takeWhile_append, if_neg]
    intro hlen
    have hall := (List.takeWhile_prefix (· = c)).eq_of_length hlen
    exact hne (of_decide_eq_true (List.takeWhile_eq_self_iff.mp hall y hy))
  rw [htake, hfront, trimmed]
  generalize s.rdropWhile (· = c) = d
  calc d.drop (d.takeWhile (· = c)).length
      = (d.takeWhile (· = c) ++ d.dropWhile (· = c)).drop (d.takeWhile (· = c)).length := by
        rw [List.takeWhile_append_dropWhile]
    _ = d.dropWhile (· = c) := List.drop_left

/-- What is left goes into a buffer of the size of the string. -/
theorem strip_eq (h : ∃ x ∈ s, x ≠ c) (z : Bytes) (ends : Bool) :
    strip ⟨some (s ++ z), s.length⟩ c ends = (OBuffer.new s.length).filled (left c ends s) := by
  unfold strip
  simp only [Option.getD_some, skipFront_eq h z, skipBack_eq h z, bind_ok, between_eq h z]
  cases ends with
  | true => rfl
  | false =>
      show (OBuffer.new s.length).filled ((trimmed c s).filter (· ≠ c)) = _
      rw [filter_trimmed]
      rfl

/-- The first pointer leaves a string with no other character. -/
theorem strip_all (h : ∀ x ∈ s, x = c) (n : Nat) (ends : Bool) :
    strip ⟨some s, n⟩ c ends = .error .overrun := by
  unfold strip
  simp only [Option.getD_some, skipFront_all h, bind_fault]

end

/-! ## The buffer -/

/-- There is a place left in the buffer when fewer bytes are stored than the rounded size has. -/
private theorem new_filled_iff {n : Nat} (hn : n < UINT32) {out : Bytes} (hle : out.length ≤ n) :
    (∃ r, (OBuffer.new n).filled out = .ok r) ↔ roundUp n < UINT32 ∧ out.length < roundUp n := by
  obtain ⟨hsize, hoff, hmem⟩ := new_spec hn
  obtain ⟨hge, -⟩ := roundUp_lt n
  rw [filled_ok_iff hoff, hsize, hmem]
  by_cases hwide : roundUp n < UINT32
  · rw [Nat.mod_eq_of_lt hwide, and_iff_right hwide]
    split
    · omega
    · omega
  · have hmultiple := roundUp_multiple n
    obtain ⟨-, hlt⟩ := roundUp_lt n
    have hzero : roundUp n % UINT32 = 0 := by
      unfold UINT32 at *
      omega
    rw [hzero]
    omega

/-- The string has the bytes that were stored, with other memory behind them. -/
private theorem filled_mem {n : Nat} (hn : n < UINT32) {out : Bytes} {r : Str}
    (h : (OBuffer.new n).filled out = .ok r) (hne : out ≠ []) :
    ∃ z, r = ⟨some (out ++ z), out.length⟩ := by
  obtain ⟨-, hoff, -⟩ := new_spec hn
  obtain ⟨hle, hlt⟩ := (filled_ok_iff hoff).mp ⟨r, h⟩
  obtain ⟨r', hr', hbytes, hlen⟩ := filled_ok hoff hle hlt
  obtain rfl : r = r' := Except.ok.inj (h.symm.trans hr')
  obtain ⟨mem, len⟩ := r
  obtain rfl : len = out.length := hlen
  cases mem with
  | none =>
      have hnil : out = [] := by
        rw [← hbytes]
        exact List.take_nil
      exact absurd hnil hne
  | some m =>
      have htake : m.take out.length = out := hbytes
      refine ⟨m.drop out.length, ?_⟩
      calc (⟨some m, out.length⟩ : Str)
          = ⟨some (m.take out.length ++ m.drop out.length), out.length⟩ := by
            rw [List.take_append_drop]
        _ = ⟨some (out ++ m.drop out.length), out.length⟩ := by rw [htake]

private theorem left_length_le (c : UInt8) (ends : Bool) (s : Bytes) :
    (left c ends s).length ≤ s.length := by
  unfold left
  cases ends with
  | true =>
      calc (trimmed c s).length
          ≤ (s.rdropWhile (· = c)).length := (List.dropWhile_suffix _).length_le
        _ ≤ s.length := (List.rdropWhile_prefix (· = c) s).length_le
  | false => exact List.length_filter_le _ _

/-- One call: the bytes that are left must not fill the rounded size. -/
theorem strip_ok_iff {s : Bytes} {c : UInt8} (hs : s.length < UINT32) (h : ∃ x ∈ s, x ≠ c)
    (z : Bytes) (ends : Bool) : (∃ r, strip ⟨some (s ++ z), s.length⟩ c ends = .ok r) ↔
      roundUp s.length < UINT32 ∧ (left c ends s).length < roundUp s.length := by
  rw [strip_eq h z ends]
  exact new_filled_iff hs (left_length_le c ends s)

/-- What it gives. -/
private theorem strip_mem {s : Bytes} {c : UInt8} (hs : s.length < UINT32) (h : ∃ x ∈ s, x ≠ c)
    {z : Bytes} {ends : Bool} {r : Str} (hr : strip ⟨some (s ++ z), s.length⟩ c ends = .ok r) :
    ∃ z', r = ⟨some (left c ends s ++ z'), (left c ends s).length⟩ := by
  rw [strip_eq h z ends] at hr
  apply filled_mem hs hr
  obtain ⟨x, hx, -⟩ := exists_left h ends
  exact List.ne_nil_of_mem hx

private theorem lt_roundUp_iff (n : Nat) : n < roundUp n ↔ n % 8 ≠ 0 := by
  unfold roundUp align
  split
  · omega
  · omega

/-- **The character is removed, and removing it again changes nothing, exactly for such strings.** -/
theorem strips_iff (t : Option (Sized UINT32)) (c : UInt8) (ends : Bool) :
    Removes t c ends ↔ Removable t c ends := by
  constructor
  · intro h
    obtain ⟨r, r', hr, -, hr', -⟩ := h []
    cases t with
    | none => nomatch hr
    | some s =>
        obtain ⟨s, hs⟩ := s
        by_cases hother : ∃ x ∈ s, x ≠ c
        · obtain ⟨hwide, -⟩ := (strip_ok_iff hs hother [] ends).mp ⟨r, hr⟩
          obtain ⟨z, rfl⟩ := strip_mem hs hother hr
          have hle := left_length_le c ends s
          have hlen : (left c ends s).length < UINT32 := Nat.lt_of_le_of_lt hle hs
          obtain ⟨-, hlt⟩ := (strip_ok_iff hlen (exists_left hother ends) z ends).mp ⟨r', hr'⟩
          rw [left_left, lt_roundUp_iff] at hlt
          exact ⟨⟨s, hs⟩, rfl, hother, hwide, hlt⟩
        · have hall : ∀ x ∈ s ++ [], x = c := by
            rw [List.append_nil]
            intro x hx
            by_contra hne
            exact hother ⟨x, hx, hne⟩
          nomatch (strip_all hall s.length ends).symm.trans hr
  · rintro ⟨⟨s, hs⟩, rfl, hother, hwide, hmod⟩ z
    dsimp only at hother hwide hmod
    have hle := left_length_le c ends s
    have hlen : (left c ends s).length < UINT32 := Nat.lt_of_le_of_lt hle hs
    have hround := (lt_roundUp_iff _).mpr hmod
    obtain ⟨hge, -⟩ := roundUp_lt s.length
    have hmultiple := roundUp_multiple s.length
    -- the bytes that are left do not fill words, neither of the string nor their own
    obtain ⟨r, hr⟩ := (strip_ok_iff hs hother z ends).mpr ⟨hwide, by omega⟩
    obtain ⟨z', rfl⟩ := strip_mem hs hother hr
    have hwide' : roundUp (left c ends s).length < UINT32 := by
      obtain ⟨-, hlt⟩ := roundUp_lt (left c ends s).length
      have hmultiple' := roundUp_multiple (left c ends s).length
      omega
    obtain ⟨r', hr'⟩ := (strip_ok_iff hlen (exists_left hother ends) z' ends).mpr
      ⟨hwide', by rw [left_left]; exact hround⟩
    obtain ⟨z'', rfl⟩ := strip_mem hlen (exists_left hother ends) hr'
    refine ⟨_, _, hr, ?_, hr', ?_⟩
    · show (left c ends s ++ z').take (left c ends s).length = left c ends ((s ++ []).take s.length)
      rw [List.take_left, List.take_left]
    · show (left c ends (left c ends s) ++ z'').take (left c ends (left c ends s)).length =
        (left c ends s ++ z').take (left c ends s).length
      rw [List.take_left, List.take_left, left_left]

/-- A string of eight letters. -/
def eight : Sized UINT32 := ⟨str "abcdefgh", by decide⟩

/-- There is nothing to remove, and the seek does not go to the end of the buffer. -/
theorem not_strips_eight : ¬ Removes (some eight) SP true := by
  intro h
  obtain ⟨r, -, hr, -⟩ := h []
  have hnone : (strip (held (some eight) []) SP true).toOption = none := by decide
  rw [hr] at hnone
  nomatch hnone

end Suil.Str
