import Suil.Basic.Str
import Suil.Basic.Strncmp

set_option autoImplicit false

/-! # Equality, order and hash of strings

`operator==`, `compare`, the hash and `dup` of `String` (`zstring.h`, `zstring.cpp`). The length, the
pointer, the bytes up to the first NUL and all of the bytes each decide one of them. `coherent_iff`
says for which strings they agree. -/

namespace Suil.Str

/-- `compare(s)`. -/
def compare (s t : Str) : Int :=
  if t.len = s.len then strncmp s.len (s.mem.getD []) (t.mem.getD [])
  else if s.len < t.len then -1
  else 1

/-- `operator<`. -/
def lt (s t : Str) : Prop := compare s t < 0

/-- The bytes of a string with the NUL that ends its memory; nothing when there are not so many. -/
def loaded (s : Str) : Option Bytes :=
  let m := match s.mem with
    | none => []
    | some m => m ++ [NUL]
  if s.len ≤ m.length then some (m.take s.len) else none

/-- A string that is all in its memory, with its cached hash, which is nothing or the hash of the
bytes. -/
structure Cached (hash : Bytes → Nat) where
  str : Str
  inside : str.len ≤ (str.mem.getD []).length
  m_hash : Nat
  kept : m_hash = 0 ∨ m_hash = hash str.bytes

variable {hash : Bytes → Nat}

/-- `hasher`, where `hash` is `std::hash<strview>`. -/
def hasher (s : Cached hash) : Nat := if s.m_hash = 0 then hash s.str.bytes else s.m_hash

/-- One of the three holds and no other. -/
def ExactlyOne (p q r : Prop) : Prop := p ∧ ¬ q ∧ ¬ r ∨ ¬ p ∧ q ∧ ¬ r ∨ ¬ p ∧ ¬ q ∧ r

/-- Equality, order, hash and copy of two strings fit together. -/
structure Coherent (a b : Cached hash) : Prop where
  one : ExactlyOne (lt a.str b.str) (eq a.str b.str = true) (lt b.str a.str)
  equal : eq a.str b.str = true ↔ a.str.len = b.str.len ∧ a.str.bytes = b.str.bytes
  hashes : eq a.str b.str = true → hasher a = hasher b
  compares : compare a.str b.str = 0 ↔ eq a.str b.str = true
  copies : eq a.str.dup a.str = true ∧ a.str.dup.len = a.str.len ∧
    loaded a.str.dup = some a.str.bytes

/-- The first string is null and the other one is not a pointer to nothing, or it has bytes, and no
NUL among them but as the last one. -/
def Plain (s t : Str) : Prop :=
  match s.mem with
  | none => t.mem = none ∨ t.len ≠ 0
  | some _ => s.len ≠ 0 ∧ NUL ∉ s.bytes.dropLast

/-! ## Bytes up to the first NUL -/

theorem cstr_take (n : Nat) (m : Bytes) : (cstr m).take n = cstr (m.take n) := by
  induction n generalizing m with
  | zero => rfl
  | succ n ih =>
      cases m with
      | nil => rfl
      | cons c m =>
          by_cases hc : c = NUL
          · rw [hc]
            rfl
          · rw [List.take_succ_cons, cstr_cons hc, cstr_cons hc, List.take_succ_cons, ih]

/-- Bytes with no NUL but the last one: there is none, or they end with it. -/
private theorem plain_cases {l : Bytes} (h : NUL ∉ l.dropLast) :
    NUL ∉ l ∨ ∃ d, l = d ++ [NUL] ∧ NUL ∉ d := by
  rcases List.eq_nil_or_concat l with rfl | ⟨d, c, rfl⟩
  · exact .inl List.not_mem_nil
  · rw [List.concat_eq_append, List.dropLast_concat] at h
    rw [List.concat_eq_append]
    by_cases hc : c = NUL
    · exact .inr ⟨d, by rw [hc], h⟩
    · refine .inl ?_
      rw [List.mem_append, List.mem_singleton, not_or]
      exact ⟨h, Ne.symm hc⟩

/-- The strings in C decide for bytes of one length. -/
private theorem cstr_inj {l l' : Bytes} (h : NUL ∉ l.dropLast) (hlen : l.length = l'.length) :
    cstr l = cstr l' ↔ l = l' := by
  refine ⟨?_, congrArg cstr⟩
  intro heq
  rcases plain_cases h with hl | ⟨d, rfl, hd⟩
  · rw [cstr_eq_self hl] at heq
    rcases cstr_split l' with hl' | ⟨r, hl'⟩
    · exact heq.trans hl'.symm
    · rw [hl', ← heq, List.length_append, List.length_cons] at hlen
      omega
  · rw [cstr_of_notMem hd] at heq
    rcases cstr_split l' with hl' | ⟨r, hl'⟩
    · rw [hl', ← heq, List.length_append, List.length_singleton] at hlen
      omega
    · rw [hl', ← heq, List.length_append, List.length_append, List.length_singleton,
        List.length_cons] at hlen
      have hr : r = [] := List.length_eq_zero_iff.mp (by omega)
      rw [hl', ← heq, hr]

/-- What `strndup` leaves of bytes is all of them. -/
theorem copied_iff (l : Bytes) :
    (l.length ≤ (cstr l ++ [NUL]).length ∧ (cstr l ++ [NUL]).take l.length = l) ↔
      NUL ∉ l.dropLast := by
  constructor
  · rintro ⟨hlen, -⟩ hmem
    rcases cstr_split l with hl | ⟨r, hl⟩
    · exact nul_notMem_cstr l (hl ▸ List.dropLast_subset l hmem)
    · rw [List.length_append, List.length_singleton] at hlen
      have hlen' := congrArg List.length hl
      rw [List.length_append, List.length_cons] at hlen'
      have hr : r = [] := List.length_eq_zero_iff.mp (by omega)
      rw [hl, hr, List.dropLast_concat] at hmem
      exact nul_notMem_cstr l hmem
  · intro h
    rcases plain_cases h with hl | ⟨d, rfl, hd⟩
    · rw [cstr_eq_self hl, List.take_left]
      exact ⟨by rw [List.length_append]; omega, rfl⟩
    · rw [cstr_of_notMem hd, List.take_length]
      exact ⟨Nat.le_refl _, rfl⟩

/-! ## Each operation -/

/-- The comparison with zero is what the other modules use. -/
theorem compare_eq_zero_iff (s t : Str) : compare s t = 0 ↔ comparesEqual s t false = true := by
  unfold compare comparesEqual
  by_cases hlen : t.len = s.len
  · rw [if_pos hlen, strncmp_eq_zero_iff, decide_eq_true hlen]
    exact Iff.rfl
  · rw [if_neg hlen, decide_eq_false hlen]
    refine iff_of_false ?_ Bool.false_ne_true
    split
    · exact nofun
    · exact nofun

theorem compare_swap (s t : Str) : compare t s = -compare s t := by
  unfold compare
  by_cases hlen : t.len = s.len
  · rw [if_pos hlen, if_pos hlen.symm, hlen, strncmp_swap]
  · rw [if_neg hlen, if_neg (Ne.symm hlen)]
    rcases Nat.lt_or_gt_of_ne hlen with hlt | hlt
    · rw [if_pos hlt, if_neg (Nat.not_lt_of_gt hlt)]
    · simp only [if_neg (Nat.not_lt_of_gt hlt), if_pos hlt, Int.neg_neg]

theorem hasher_eq (s : Cached hash) : hasher s = hash s.str.bytes := by
  unfold hasher
  by_cases hzero : s.m_hash = 0
  · rw [if_pos hzero]
  · rw [if_neg hzero]
    exact (or_iff_right hzero).mp s.kept

/-- Exactly one of the three, once the comparison is zero for equal strings. -/
private theorem exactlyOne_of {s t : Str} (h : compare s t = 0 ↔ eq s t = true) :
    ExactlyOne (lt s t) (eq s t = true) (lt t s) := by
  unfold ExactlyOne lt
  rw [compare_swap s t, ← h]
  omega

/-- A string in the shape that the constructors give it. -/
private theorem eq_iff_bytes {m n : Bytes} {k l : Nat} (hm : k ≤ m.length) (hn : l ≤ n.length)
    (h : NUL ∉ (m.take k).dropLast) :
    eq ⟨some m, k⟩ ⟨some n, l⟩ = true ↔ k = l ∧ m.take k = n.take l := by
  show (decide (k = l) && strncmpEq k m n) = true ↔ _
  rw [Bool.and_eq_true, decide_eq_true_iff, strncmpEq_iff, cstr_take, cstr_take]
  apply and_congr_right
  rintro rfl
  apply cstr_inj h
  rw [List.length_take, List.length_take]
  omega

private theorem compares_some (m n : Bytes) (k l : Nat) :
    compare ⟨some m, k⟩ ⟨some n, l⟩ = 0 ↔ eq ⟨some m, k⟩ ⟨some n, l⟩ = true := by
  rw [compare_eq_zero_iff]
  show (decide (l = k) && strncmpEq k m n) = true ↔ (decide (k = l) && strncmpEq k m n) = true
  rw [Bool.and_eq_true, Bool.and_eq_true, decide_eq_true_iff, decide_eq_true_iff, eq_comm]

/-- A copy of a string with bytes is equal to it; it has the bytes when there is no NUL in front of
the last one. -/
theorem dup_some {m : Bytes} {k : Nat} (hk : k ≠ 0) (hm : k ≤ m.length) :
    eq (dup ⟨some m, k⟩) ⟨some m, k⟩ = true ∧ (dup ⟨some m, k⟩).len = k ∧
      (loaded (dup ⟨some m, k⟩) = some (m.take k) ↔ NUL ∉ (m.take k).dropLast) := by
  have hdup : dup ⟨some m, k⟩ = ⟨some (cstr (m.take k)), k⟩ := if_neg hk
  have hlen : (m.take k).length = k := by
    rw [List.length_take]
    omega
  rw [hdup]
  refine ⟨?_, rfl, ?_⟩
  · show (decide (k = k) && strncmpEq k (cstr (m.take k)) m) = true
    rw [decide_eq_true rfl, Bool.true_and, strncmpEq_iff, cstr_eq_self (nul_notMem_cstr _),
      ← cstr_take, List.take_take, Nat.min_self]
  · rw [← copied_iff, hlen]
    show (if k ≤ (cstr (m.take k) ++ [NUL]).length then
      some ((cstr (m.take k) ++ [NUL]).take k) else none) = some (m.take k) ↔ _
    by_cases hle : k ≤ (cstr (m.take k) ++ [NUL]).length
    · rw [if_pos hle, and_iff_right hle, Option.some_inj]
    · rw [if_neg hle]
      exact iff_of_false nofun fun h => hle h.1

/-- The order and the hash follow from what the comparison and the equality say. -/
private theorem coherent_of {a b : Cached hash}
    (hcompares : compare a.str b.str = 0 ↔ eq a.str b.str = true)
    (hequal : eq a.str b.str = true ↔ a.str.len = b.str.len ∧ a.str.bytes = b.str.bytes)
    (hcopies : eq a.str.dup a.str = true ∧ a.str.dup.len = a.str.len ∧
      loaded a.str.dup = some a.str.bytes) : Coherent a b where
  one := exactlyOne_of hcompares
  equal := hequal
  hashes := by
    intro heq
    rw [hasher_eq, hasher_eq, (hequal.mp heq).2]
  compares := hcompares
  copies := hcopies

section
variable {mem mem' : Option Bytes} {k l : Nat}

private theorem plain_compares (hk : k ≤ (mem.getD []).length) (hl : l ≤ (mem'.getD []).length)
    (h : Plain ⟨mem, k⟩ ⟨mem', l⟩) : compare ⟨mem, k⟩ ⟨mem', l⟩ = 0 ↔ eq ⟨mem, k⟩ ⟨mem', l⟩ = true := by
  cases mem with
  | none =>
      obtain rfl : k = 0 := Nat.le_zero.mp hk
      cases mem' with
      | none =>
          obtain rfl : l = 0 := Nat.le_zero.mp hl
          exact iff_of_true rfl rfl
      | some n =>
          have hne : l ≠ 0 := (or_iff_right nofun).mp h
          refine iff_of_false ?_ Bool.false_ne_true
          show ¬ (if l = 0 then _ else if 0 < l then (-1 : Int) else 1) = 0
          rw [if_neg hne, if_pos (Nat.pos_of_ne_zero hne)]
          exact nofun
  | some m =>
      cases mem' with
      | none =>
          obtain rfl : l = 0 := Nat.le_zero.mp hl
          have hne : k ≠ 0 := h.1
          refine iff_of_false ?_ Bool.false_ne_true
          show ¬ (if 0 = k then _ else if k < 0 then (-1 : Int) else 1) = 0
          rw [if_neg (Ne.symm hne), if_neg (Nat.not_lt_zero k)]
          exact nofun
      | some n => exact compares_some m n k l

private theorem plain_equal (hk : k ≤ (mem.getD []).length) (hl : l ≤ (mem'.getD []).length)
    (h : Plain ⟨mem, k⟩ ⟨mem', l⟩) :
    eq ⟨mem, k⟩ ⟨mem', l⟩ = true ↔ k = l ∧ bytes ⟨mem, k⟩ = bytes ⟨mem', l⟩ := by
  cases mem with
  | none =>
      obtain rfl : k = 0 := Nat.le_zero.mp hk
      cases mem' with
      | none =>
          obtain rfl : l = 0 := Nat.le_zero.mp hl
          exact iff_of_true rfl ⟨rfl, rfl⟩
      | some n =>
          have hne : l ≠ 0 := (or_iff_right nofun).mp h
          exact iff_of_false Bool.false_ne_true fun hboth => hne hboth.1.symm
  | some m =>
      cases mem' with
      | none =>
          obtain rfl : l = 0 := Nat.le_zero.mp hl
          exact iff_of_false Bool.false_ne_true fun hboth => h.1 hboth.1
      | some n => exact eq_iff_bytes hk hl h.2

private theorem plain_copies {t : Str} (hk : k ≤ (mem.getD []).length) (h : Plain ⟨mem, k⟩ t) :
    eq (dup ⟨mem, k⟩) ⟨mem, k⟩ = true ∧ (dup ⟨mem, k⟩).len = k ∧
      loaded (dup ⟨mem, k⟩) = some (bytes ⟨mem, k⟩) := by
  cases mem with
  | none =>
      obtain rfl : k = 0 := Nat.le_zero.mp hk
      exact ⟨rfl, rfl, rfl⟩
  | some m =>
      obtain ⟨heq, hlen, hloaded⟩ := dup_some h.1 hk
      exact ⟨heq, hlen, hloaded.mpr h.2⟩

end

/-- A pointer to nothing is not equal to the null pointer, and not copied. -/
private theorem plain_of_coherent {a b : Cached hash} (h : Coherent a b) : Plain a.str b.str := by
  obtain ⟨⟨mem, k⟩, hk, x, hx⟩ := a
  obtain ⟨⟨mem', l⟩, hl, y, hy⟩ := b
  cases mem with
  | none =>
      cases mem' with
      | none => exact .inl rfl
      | some n =>
          refine .inr ?_
          intro hzero
          obtain rfl : k = 0 := Nat.le_zero.mp hk
          obtain rfl : l = 0 := hzero
          exact Bool.false_ne_true (h.equal.mpr ⟨rfl, rfl⟩)
  | some m =>
      obtain ⟨heq, hlen, hloaded⟩ := h.copies
      have hne : k ≠ 0 := by
        rintro rfl
        exact Bool.false_ne_true heq
      exact ⟨hne, (dup_some hne hk).2.2.mp hloaded⟩

/-- **Equality, order, hash and copy fit together exactly for plain strings.** -/
theorem coherent_iff (a b : Cached hash) : Coherent a b ↔ Plain a.str b.str := by
  constructor
  · exact plain_of_coherent
  · intro h
    apply coherent_of
    · exact plain_compares a.inside b.inside h
    · exact plain_equal a.inside b.inside h
    · exact plain_copies a.inside h

/-- `String{}` and `String{""}`. -/
def nullAndEmpty : Cached (fun _ => 1) × Cached (fun _ => 1) :=
  (⟨null, Nat.zero_le _, 0, .inl rfl⟩, ⟨⟨some [], 0⟩, Nat.zero_le _, 0, .inl rfl⟩)

/-- They compare as zero, and are not equal. -/
theorem not_coherent_empty : ¬ Coherent nullAndEmpty.1 nullAndEmpty.2 := by
  intro h
  exact absurd (h.compares.mp rfl) (by decide)

end Suil.Str
