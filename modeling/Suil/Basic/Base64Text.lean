import Suil.Basic.Base64
import Suil.Basic.Filled

set_option autoImplicit false

/-! # Texts in base64

`base64::decode` for any text. It stops at the first byte that is no letter, wherever this is, and
without one it goes on behind the text. `strict_iff` says which texts it decodes or refuses as it
should, whatever is in the memory behind them. -/

namespace Suil.Base64

open OBuffer

/-! ## Canonical texts -/

/-- Letters, and as the last one or two bytes padding. -/
def Canonical (t : Bytes) : Prop :=
  t.length % 4 = 0 ∧ ∃ body pad, t = body ++ pad ∧ (∀ x ∈ body, lookup x ≠ 64) ∧
    (pad = [] ∨ pad = [EQUALS] ∨ pad = [EQUALS, EQUALS])

/-- An exception is thrown. -/
def Throws (r : Except BufFault Str) : Prop :=
  r = .error .invalidArguments ∨ r = .error .outOfRange

/-- A canonical text is decoded, any other is refused. What is behind the text in the memory, and
whether there is anything, makes no difference. -/
def Strict (t : Bytes) : Prop :=
  (Canonical t →
    ∃ d : Bytes, ∀ z, ∃ s, decode ⟨some (t ++ z), t.length⟩ = .ok s ∧ s.bytes = d) ∧
  (¬ Canonical t → ∀ z, Throws (decode ⟨some (t ++ z), t.length⟩))

/-! ## What the code does -/

/-- What is reserved for a text of this length, in 32 bits. -/
def asked (len : Nat) : Nat := len / 4 % UINT32 * 3 % UINT32

/-- The capacity of the buffer. -/
def capacity (len : Nat) : Nat := roundUp (asked len) % UINT32

/-- The bytes that are allocated; none when nothing is reserved. -/
def allocated (len : Nat) : Nat := if asked len = 0 then 0 else capacity len + 1

/-- How many bytes are behind the whole groups of four letters, and how many letters are among
them. -/
def behind (t body : Bytes) : Nat := t.length - body.length / 4 * 4 + body.length % 4

/-- How many bytes are stored when there is padding behind the letters. -/
def count (t body : Bytes) : Nat := body.length / 4 * 3 + (behind t body - 5)

/-- The first byte that is no letter is in one of the groups of the loop, or it is no padding. -/
def Refuses (t body : Bytes) (c : UInt8) : Prop :=
  body.length / 4 < (t.length - 1) / 4 ∨ c ≠ EQUALS

/-- Padding that is counted as such. All of the bytes have a place, and there is one left for a
canonical text only. -/
def Ends (t body rest : Bytes) : Prop :=
  4 ≤ behind t body ∧ count t body ≤ allocated t.length ∧
    (count t body < capacity t.length ↔ t.length % 4 = 0 ∧ (rest = [] ∨ rest = [EQUALS]))

/-- Some byte is no letter, what is stored for the groups before it has a place, and that byte
stops the decoding as it should. -/
def Stops (t : Bytes) : Prop :=
  ∃ body c rest, t = body ++ c :: rest ∧ (∀ x ∈ body, lookup x ≠ 64) ∧ lookup c = 64 ∧
    body.length / 4 * 3 ≤ allocated t.length ∧ (Refuses t body c ∨ Ends t body rest)

/-! ## The buffer -/

/-- The buffer for a text of this length. -/
private def prepared (len : Nat) : OBuffer := (OBuffer.new (asked len)).reserve (asked len)

private theorem asked_lt (len : Nat) : asked len < UINT32 := Nat.mod_lt _ (by decide)

/-- The second reservation changes nothing, or it does once more what has wrapped around before. -/
private theorem prepared_spec (len : Nat) :
    (prepared len).size = capacity len ∧ (prepared len).offset = 0 ∧
      ((prepared len).mem.getD []).length = allocated len := by
  have hlt := asked_lt len
  unfold prepared allocated capacity
  generalize asked len = n at *
  by_cases hn : n = 0
  · rw [hn]
    exact ⟨rfl, rfl, rfl⟩
  obtain ⟨hle, -⟩ := roundUp_lt n
  rw [if_neg hn, new, if_pos hn, Nat.mod_eq_of_lt hlt]
  by_cases hwrap : roundUp n < UINT32
  · -- there is room
    have hgrown := grow_empty none n
    have hmod : roundUp n % UINT32 = roundUp n := Nat.mod_eq_of_lt hwrap
    have hreserve : ((⟨none, 0, 0⟩ : OBuffer).grow n).reserve n = (⟨none, 0, 0⟩ : OBuffer).grow n := by
      unfold reserve
      rw [hgrown.1, hgrown.2.1, Nat.sub_zero, Nat.add_mod_right, hmod, hmod]
      exact if_neg (Nat.not_lt.mpr hle)
    rw [hreserve]
    exact hgrown
  · have hzero : roundUp n % UINT32 = 0 := by
      have := roundUp_lt n
      have := roundUp_multiple n
      unfold UINT32 at *
      omega
    obtain ⟨mem, hmem⟩ : ∃ mem, (⟨none, 0, 0⟩ : OBuffer).grow n = ⟨mem, 0, 0⟩ := by
      obtain ⟨hsize, hoff, -⟩ := grow_empty none n
      rw [hzero] at hsize
      generalize (⟨none, 0, 0⟩ : OBuffer).grow n = b at *
      cases b
      cases hsize
      cases hoff
      exact ⟨_, rfl⟩
    have hreserve : (⟨mem, 0, 0⟩ : OBuffer).reserve n = (⟨mem, 0, 0⟩ : OBuffer).grow n := by
      unfold reserve
      simp only [Nat.sub_zero, Nat.zero_add, Nat.mod_self, Nat.zero_max]
      rw [if_pos (Nat.pos_of_ne_zero hn), Nat.mod_eq_of_lt hlt]
    rw [hmem, hreserve]
    exact grow_empty mem n

/-! ## What is made of the bytes that are stored -/

private theorem decode_eq (m : Bytes) (len : Nat) : decode ⟨some m, len⟩ =
    if allocated len < looped m len then .error .overrun
    else stored m len >>= (prepared len).filled := by
  rw [← (prepared_spec len).2.2]
  unfold decode decodeTo prepared asked
  simp only [Option.getD_some]
  split
  · rw [bind_fault]
  · simp only [bind_assoc]
    rfl

private theorem decode_error {m : Bytes} {len : Nat} {e : BufFault} (hs : stored m len = .error e)
    (h : looped m len ≤ allocated len) : decode ⟨some m, len⟩ = .error e := by
  rw [decode_eq, if_neg (Nat.not_lt.mpr h), hs, bind_fault]

private theorem decode_looped {m : Bytes} {len : Nat} (h : allocated len < looped m len) :
    decode ⟨some m, len⟩ = .error .overrun := by
  rw [decode_eq, if_pos h]

/-- When the bytes have a place, the seek at the end is the last thing that can fail. -/
private theorem decode_stored {m out : Bytes} {len : Nat} (hs : stored m len = .ok out)
    (hle : out.length ≤ allocated len) : decode ⟨some m, len⟩ = (prepared len).filled out := by
  have hloop := looped_le hs
  rw [decode_eq, hs, bind_ok, if_neg (Nat.not_lt.mpr (Nat.le_trans hloop hle))]

/-! ## What is stored -/

set_option maxRecDepth 8000 in
/-- No letter is the padding. -/
theorem isLetter_of_ne {c : UInt8} (h : lookup c ≠ 64) : IsLetter c := by
  have hle : lookup c ≤ 64 := forall_byte (P := fun c => lookup c ≤ 64) (by decide) c
  constructor
  · exact UInt8.lt_of_le_of_ne hle h
  · rintro rfl
    exact h (by decide)

private theorem lookup_equals : lookup EQUALS = 64 := by decide

/-- The loop goes through whole groups of letters, as long as something is behind them. -/
private theorem stored_groups (g : Nat) (p : Bytes) (hp : p.length = 4 * g)
    (h : ∀ x ∈ p, lookup x ≠ 64) : ∃ out : Bytes, out.length = 3 * g ∧
      ∀ (m : Bytes) (s : Nat), 0 < s →
        stored (p ++ m) (4 * g + s) = (out ++ ·) <$> stored m s ∧
        looped (p ++ m) (4 * g + s) = looped m s + 3 * g := by
  induction g generalizing p with
  | zero =>
      have hnil : p = [] := List.length_eq_zero_iff.mp hp
      subst hnil
      refine ⟨[], rfl, ?_⟩
      intro m s _
      rw [List.nil_append, Nat.mul_zero, Nat.zero_add]
      refine ⟨?_, rfl⟩
      cases stored m s <;> rfl
  | succ g ih =>
      obtain ⟨a, b, c, d, p', rfl⟩ : ∃ a b c d p', p = a :: b :: c :: d :: p' := by
        match p, hp with
        | a :: b :: c :: d :: p', _ => exact ⟨a, b, c, d, p', rfl⟩
      simp only [List.mem_cons, forall_eq_or_imp] at h
      obtain ⟨ha, hb, hc, hd, h⟩ := h
      simp only [List.length_cons] at hp
      obtain ⟨out, hlen, hout⟩ := ih p' (by omega) h
      refine ⟨byte0 a b :: byte1 b c :: byte2 c d :: out, by
        simp only [List.length_cons, hlen]
        omega, ?_⟩
      intro m s hs
      have hgroup : ¬ (lookup a = 64 ∨ lookup b = 64 ∨ lookup c = 64 ∨ lookup d = 64) := by
        simp only [ha, hb, hc, hd, or_self, not_false_eq_true]
      have hsub : 4 * (g + 1) + s - 4 = 4 * g + s := by omega
      simp only [List.cons_append]
      have hlt : 4 < 4 * (g + 1) + s := by omega
      rw [stored, looped, if_pos hlt, if_pos hlt, if_neg hgroup, if_neg hgroup, hsub,
        (hout m s hs).1, (hout m s hs).2]
      refine ⟨?_, by omega⟩
      cases stored m s <;> rfl

/-! ## The last letters -/

section
variable {l m : Bytes} {c : UInt8} {s : Nat}

/-- The loop goes over letters, as long as it may. -/
private theorem tailLoop_skip (h : ∀ x ∈ l, lookup x ≠ 64) (m : Bytes) (fuel : Nat) (pre : Bytes)
    (hle : pre.length + l.length ≤ 4) : tailLoop (pre ++ (l ++ m)) (l.length + fuel) pre.length =
      tailLoop (pre ++ (l ++ m)) fuel (pre.length + l.length) := by
  induction l generalizing pre with
  | nil => rw [List.length_nil, Nat.zero_add, Nat.add_zero]
  | cons x l ih =>
      rw [List.length_cons] at hle
      have hx : (pre ++ (x :: l ++ m))[pre.length]? = some x := by
        rw [List.getElem?_append_right (Nat.le_refl _), Nat.sub_self]
        rfl
      have hletter := isLetter_of_ne (h x List.mem_cons_self)
      have hsplit : pre ++ (x :: l ++ m) = (pre ++ [x]) ++ (l ++ m) := by
        rw [List.append_assoc]
        rfl
      have hlen : (pre ++ [x]).length = pre.length + 1 := by
        rw [List.length_append, List.length_singleton]
      have hrest := ih (fun y hy => h y (List.mem_cons_of_mem x hy)) (pre ++ [x]) (by omega)
      rw [hlen] at hrest
      rw [show (x :: l).length + fuel = (l.length + fuel) + 1 by rw [List.length_cons]; omega,
        tailLoop_letter hx hletter (by omega), hsplit, hrest,
        show pre.length + 1 + l.length = pre.length + (x :: l).length by
          rw [List.length_cons]; omega]

private theorem tailLoop_letters (hl : l.length ≤ 3) (h : ∀ x ∈ l, lookup x ≠ 64)
    (hc : lookup c = 64) (m : Bytes) : tailLoop (l ++ c :: m) 5 0 = .ok l.length := by
  have hskip := tailLoop_skip h (c :: m) (5 - l.length) [] (by
    rw [List.length_nil]
    omega)
  rw [List.nil_append, List.length_nil, Nat.zero_add] at hskip
  have hat : (l ++ c :: m)[l.length]? = some c := by
    rw [List.getElem?_append_right (Nat.le_refl _), Nat.sub_self]
    rfl
  rw [show l.length + (5 - l.length) = 5 by omega] at hskip
  rw [hskip, show 5 - l.length = (4 - l.length) + 1 by omega]
  exact tailLoop_stop hat (.inr hc)

private theorem load_behind (l : Bytes) (c : UInt8) (m : Bytes) :
    load (l ++ c :: m) l.length = .ok c := by
  rw [load, List.getElem?_append_right (Nat.le_refl _), Nat.sub_self]
  rfl

/-- A byte that is neither a letter nor the padding is refused. -/
private theorem decodeTail_refused (hl : l.length ≤ 3) (h : ∀ x ∈ l, lookup x ≠ 64)
    (hc : lookup c = 64) (hne : c ≠ EQUALS) (hs : l.length < s) (m : Bytes) :
    decodeTail (l ++ c :: m) s = .error .invalidArguments := by
  unfold decodeTail
  rw [tailLoop_letters hl h hc, bind_ok, if_pos (Nat.ne_of_gt hs), load_behind, bind_ok, if_pos hne]
  rfl

/-- Padding in its place: one byte less than letters is stored, as far as there are letters. -/
private theorem decodeTail_padded (hs : s ≤ 4) (h : ∀ x ∈ l, lookup x ≠ 64) (hl : l.length < s)
    (hsum : 4 ≤ s + l.length) : ∃ o : Bytes, o.length = s + l.length - 5 ∧
      ∀ m, decodeTail (l ++ EQUALS :: m) s = .ok o := by
  have hloop := tailLoop_letters (by omega) h lookup_equals
  rcases l with _ | ⟨p, _ | ⟨q, _ | ⟨r, l⟩⟩⟩
  · obtain rfl : s = 4 := by simpa using Nat.le_antisymm hs hsum
    refine ⟨[], rfl, fun m => ?_⟩
    simp only [decodeTail, hloop m, bind, Except.bind]
    rfl
  · have hi : ∀ m, tailLoop ([p] ++ EQUALS :: m) 5 0 = .ok 1 := hloop
    simp only [List.length_cons, List.length_nil] at hl hsum
    obtain rfl | rfl : s = 3 ∨ s = 4 := by omega
    · refine ⟨[], rfl, fun m => ?_⟩
      simp only [decodeTail, hi m, bind, Except.bind]
      rfl
    · refine ⟨[], rfl, fun m => ?_⟩
      simp only [decodeTail, hi m, bind, Except.bind]
      rfl
  · have hi : ∀ m, tailLoop ([p, q] ++ EQUALS :: m) 5 0 = .ok 2 := hloop
    simp only [List.length_cons, List.length_nil] at hl
    obtain rfl | rfl : s = 3 ∨ s = 4 := by omega
    · refine ⟨[], rfl, fun m => ?_⟩
      simp only [decodeTail, hi m, bind, Except.bind]
      rfl
    · refine ⟨[byte0 p q], rfl, fun m => ?_⟩
      simp only [decodeTail, hi m, bind, Except.bind]
      rfl
  · simp only [List.length_cons] at hl
    have hnil : l = [] := List.length_eq_zero_iff.mp (by omega)
    subst hnil
    have hi : ∀ m, tailLoop ([p, q, r] ++ EQUALS :: m) 5 0 = .ok 3 := hloop
    obtain rfl : s = 4 := by omega
    refine ⟨[byte0 p q, byte1 q r], rfl, fun m => ?_⟩
    simp only [decodeTail, hi m, bind, Except.bind]
    rfl

/-- Padding too early: the size wraps around, and a fourth byte is read. -/
private theorem decodeTail_short (h : ∀ x ∈ l, lookup x ≠ 64)
    (hsum : (l ++ EQUALS :: m).length + l.length < 4) :
    decodeTail (l ++ EQUALS :: m) (l ++ EQUALS :: m).length = .error .overrun := by
  rw [List.length_append, List.length_cons] at hsum
  have hloop := tailLoop_letters (by omega) h lookup_equals m
  match l, m with
  | [], [] =>
      have hi : tailLoop [EQUALS] 5 0 = .ok 0 := hloop
      show decodeTail [EQUALS] 1 = _
      simp only [decodeTail, hi, bind, Except.bind]
      rfl
  | [], [x] =>
      have hi : tailLoop [EQUALS, x] 5 0 = .ok 0 := hloop
      show decodeTail [EQUALS, x] 2 = _
      simp only [decodeTail, hi, bind, Except.bind]
      rfl
  | [], [x, y] =>
      have hi : tailLoop [EQUALS, x, y] 5 0 = .ok 0 := hloop
      show decodeTail [EQUALS, x, y] 3 = _
      simp only [decodeTail, hi, bind, Except.bind]
      rfl
  | [p], [] =>
      have hi : tailLoop [p, EQUALS] 5 0 = .ok 1 := hloop
      show decodeTail [p, EQUALS] 2 = _
      simp only [decodeTail, hi, bind, Except.bind]
      rfl
  | [], _ :: _ :: _ :: _ | _ :: _, _ :: _ | _ :: _ :: _, [] =>
      simp only [List.length_cons] at hsum
      omega

/-- Without a byte that is no letter the loop goes on behind the text. -/
private theorem decodeTail_letters (hl : l.length ≤ 4) (h : ∀ x ∈ l, lookup x ≠ 64) :
    decodeTail l s = .error .overrun := by
  have hloop : tailLoop l 5 0 = .error .overrun := by
    have hskip := tailLoop_skip h [] (5 - l.length) [] (by
      rw [List.length_nil]
      omega)
    rw [List.nil_append, List.append_nil, List.length_nil, Nat.zero_add] at hskip
    have hnone : l[l.length]? = none := List.getElem?_eq_none (Nat.le_refl _)
    rw [show l.length + (5 - l.length) = 5 by omega] at hskip
    rw [hskip, show 5 - l.length = (4 - l.length) + 1 by omega, tailLoop, load, hnone]
    rfl
  unfold decodeTail
  rw [hloop, bind_fault]

/-- The tail is what is left when no group follows. -/
theorem stored_tail (hs : s ≤ 4) : stored m s = decodeTail m s ∧ looped m s = 0 := by
  match m with
  | a :: b :: c :: d :: m =>
      rw [stored, looped, if_neg (Nat.not_lt.mpr hs), if_neg (Nat.not_lt.mpr hs)]
      exact ⟨rfl, rfl⟩
  | [] | [a] | [a, b] | [a, b, c] => exact ⟨rfl, rfl⟩

/-- A group with a byte that is no letter is refused. -/
private theorem stored_refused (hl : l.length ≤ 3) (hc : lookup c = 64) (hs : 4 < s)
    (hm : 4 ≤ (l ++ c :: m).length) :
    stored (l ++ c :: m) s = .error .invalidArguments ∧ looped (l ++ c :: m) s = 0 := by
  have hgroup : ∀ x y z w r, l ++ c :: m = x :: y :: z :: w :: r →
      lookup x = 64 ∨ lookup y = 64 ∨ lookup z = 64 ∨ lookup w = 64 := by
    intro x y z w r heq
    match l, hl with
    | [], _ =>
        obtain ⟨rfl, -⟩ := List.cons.inj heq
        exact .inl hc
    | [p], _ =>
        obtain ⟨-, heq⟩ := List.cons.inj heq
        obtain ⟨rfl, -⟩ := List.cons.inj heq
        exact .inr (.inl hc)
    | [p, q], _ =>
        obtain ⟨-, heq⟩ := List.cons.inj heq
        obtain ⟨-, heq⟩ := List.cons.inj heq
        obtain ⟨rfl, -⟩ := List.cons.inj heq
        exact .inr (.inr (.inl hc))
    | [p, q, r], _ =>
        obtain ⟨-, heq⟩ := List.cons.inj heq
        obtain ⟨-, heq⟩ := List.cons.inj heq
        obtain ⟨-, heq⟩ := List.cons.inj heq
        obtain ⟨rfl, -⟩ := List.cons.inj heq
        exact .inr (.inr (.inr hc))
  generalize l ++ c :: m = t at hgroup hm
  match t, hm with
  | x :: y :: z :: w :: r, _ =>
      have hbad := hgroup x y z w r rfl
      rw [stored, looped, if_pos hs, if_pos hs, if_pos hbad, if_pos hbad]
      exact ⟨rfl, rfl⟩

end

/-! ## Texts by their first byte that is no letter -/

/-- There is none, or there are letters in front of it. -/
private theorem first_stop (t : Bytes) : (∀ x ∈ t, lookup x ≠ 64) ∨
    ∃ body c rest, t = body ++ c :: rest ∧ (∀ x ∈ body, lookup x ≠ 64) ∧ lookup c = 64 := by
  induction t with
  | nil => exact .inl nofun
  | cons x t ih =>
      by_cases hx : lookup x = 64
      · exact .inr ⟨[], x, t, rfl, nofun, hx⟩
      · rcases ih with h | ⟨body, c, rest, rfl, hbody, hc⟩
        · exact .inl (List.forall_mem_cons.mpr ⟨hx, h⟩)
        · exact .inr ⟨x :: body, c, rest, rfl, List.forall_mem_cons.mpr ⟨hx, hbody⟩, hc⟩

section
variable {body body' rest rest' t : Bytes} {c c' : UInt8}

/-- It is there once. -/
private theorem split_unique (h : body ++ c :: rest = body' ++ c' :: rest')
    (hbody : ∀ x ∈ body, lookup x ≠ 64) (hc : lookup c = 64) (hbody' : ∀ x ∈ body', lookup x ≠ 64)
    (hc' : lookup c' = 64) : body = body' ∧ c = c' ∧ rest = rest' := by
  induction body generalizing body' with
  | nil =>
      cases body' with
      | nil => exact ⟨rfl, List.cons.inj h⟩
      | cons x body' =>
          obtain ⟨rfl, -⟩ := List.cons.inj h
          exact absurd hc (hbody' c List.mem_cons_self)
  | cons x body ih =>
      cases body' with
      | nil =>
          obtain ⟨rfl, -⟩ := List.cons.inj h
          exact absurd hc' (hbody x List.mem_cons_self)
      | cons y body' =>
          obtain ⟨rfl, htail⟩ := List.cons.inj h
          obtain ⟨rfl, heq⟩ := ih htail (fun z hz => hbody z (List.mem_cons_of_mem x hz))
            fun z hz => hbody' z (List.mem_cons_of_mem x hz)
          exact ⟨rfl, heq⟩

private theorem canonical_iff (hbody : ∀ x ∈ body, lookup x ≠ 64) (hc : lookup c = 64) :
    Canonical (body ++ c :: rest) ↔ (body ++ c :: rest).length % 4 = 0 ∧
      c = EQUALS ∧ (rest = [] ∨ rest = [EQUALS]) := by
  rw [Canonical]
  apply and_congr_right
  intro _
  constructor
  · rintro ⟨body', pad, heq, hbody', rfl | rfl | rfl⟩
    · rw [List.append_nil] at heq
      exact absurd hc (hbody' c (heq ▸ List.mem_append_right _ List.mem_cons_self))
    · obtain ⟨-, hpad⟩ := split_unique heq hbody hc hbody' lookup_equals
      exact ⟨hpad.1, .inl hpad.2⟩
    · obtain ⟨-, hpad⟩ := split_unique heq hbody hc hbody' lookup_equals
      exact ⟨hpad.1, .inr hpad.2⟩
  · rintro ⟨rfl, rfl | rfl⟩
    · exact ⟨body, _, rfl, hbody, .inr (.inl rfl)⟩
    · exact ⟨body, _, rfl, hbody, .inr (.inr rfl)⟩

/-- A text that is read beyond its end is neither decoded nor refused. -/
private theorem not_strict (z : Bytes) (h : decode ⟨some (t ++ z), t.length⟩ = .error .overrun) :
    ¬ Strict t := by
  rintro ⟨hdecode, hrefuse⟩
  by_cases hc : Canonical t
  · obtain ⟨d, hd⟩ := hdecode hc
    obtain ⟨s, hs, -⟩ := hd z
    nomatch h.symm.trans hs
  · rcases hrefuse hc z with hthrow | hthrow
    · nomatch h.symm.trans hthrow
    · nomatch h.symm.trans hthrow

/-- Without a byte that is no letter the text is read beyond its end. -/
private theorem letters_overrun (h : ∀ x ∈ t, lookup x ≠ 64) : ¬ Strict t := by
  apply not_strict []
  rw [List.append_nil]
  obtain ⟨out, hout, hstored⟩ := stored_groups ((t.length - 1) / 4) (t.take (4 * ((t.length - 1) / 4)))
    (by rw [List.length_take]; omega) fun x hx => h x (List.mem_of_mem_take hx)
  have hlast : ∀ x ∈ t.drop (4 * ((t.length - 1) / 4)), lookup x ≠ 64 :=
    fun x hx => h x (List.mem_of_mem_drop hx)
  by_cases hnil : t = []
  · rw [hnil]
    rfl
  have hpos := List.length_pos_iff.mpr hnil
  have hlen : (t.drop (4 * ((t.length - 1) / 4))).length = t.length - 4 * ((t.length - 1) / 4) :=
    List.length_drop
  obtain ⟨hst, hloop⟩ := hstored (t.drop (4 * ((t.length - 1) / 4)))
    (t.length - 4 * ((t.length - 1) / 4)) (by omega)
  rw [List.take_append_drop, show 4 * ((t.length - 1) / 4) +
    (t.length - 4 * ((t.length - 1) / 4)) = t.length by omega] at hst hloop
  have htail := stored_tail (m := t.drop (4 * ((t.length - 1) / 4)))
    (s := t.length - 4 * ((t.length - 1) / 4)) (by omega)
  rw [htail.1, decodeTail_letters (by omega) hlast] at hst
  rw [decode_eq, hst]
  exact ite_self _

/-- What is stored for a text with a byte that is no letter: the bytes of the groups in front of the
one with this byte, and what is stored for the rest. -/
private theorem stored_parts (hbody : ∀ x ∈ body, lookup x ≠ 64) (c : UInt8) (rest : Bytes) :
    ∃ l out : Bytes, l.length = body.length % 4 ∧ (∀ x ∈ l, lookup x ≠ 64) ∧
      out.length = 3 * (body.length / 4) ∧ ∀ z,
        let t := body ++ c :: rest
        let s := t.length - 4 * (body.length / 4)
        (l ++ c :: (rest ++ z)).length = s + z.length ∧
        stored (t ++ z) t.length = (out ++ ·) <$> stored (l ++ c :: (rest ++ z)) s ∧
        looped (t ++ z) t.length = looped (l ++ c :: (rest ++ z)) s + 3 * (body.length / 4) := by
  obtain ⟨out, hout, hstored⟩ := stored_groups (body.length / 4) (body.take (4 * (body.length / 4)))
    (by rw [List.length_take]; omega) fun x hx => hbody x (List.mem_of_mem_take hx)
  refine ⟨body.drop (4 * (body.length / 4)), out, ?_, fun x hx => hbody x (List.mem_of_mem_drop hx),
    hout, ?_⟩
  · rw [List.length_drop]
    omega
  · intro z
    have hlen : (body ++ c :: rest).length = body.length + (rest.length + 1) := by
      rw [List.length_append, List.length_cons]
    have hsum : 4 * (body.length / 4) + ((body ++ c :: rest).length - 4 * (body.length / 4)) =
        (body ++ c :: rest).length := by omega
    have htext : body.take (4 * (body.length / 4)) ++
        (body.drop (4 * (body.length / 4)) ++ c :: (rest ++ z)) = (body ++ c :: rest) ++ z := by
      rw [← List.append_assoc, List.take_append_drop, List.append_assoc, List.cons_append]
    have hgroups := hstored (body.drop (4 * (body.length / 4)) ++ c :: (rest ++ z))
      ((body ++ c :: rest).length - 4 * (body.length / 4)) (by omega)
    rw [hsum, htext] at hgroups
    refine ⟨?_, hgroups⟩
    rw [List.length_append, List.length_drop, List.length_cons, List.length_append, hlen]
    omega

/-- A text is refused when the byte is in a group or is no padding. -/
private theorem refused_strict (hbody : ∀ x ∈ body, lookup x ≠ 64) (hc : lookup c = 64)
    (hplace : body.length / 4 * 3 ≤ allocated (body ++ c :: rest).length)
    (hrefuses : Refuses (body ++ c :: rest) body c) : Strict (body ++ c :: rest) := by
  obtain ⟨l, out, hl, hletters, hout, hparts⟩ := stored_parts hbody c rest
  have hlen : (body ++ c :: rest).length = body.length + (rest.length + 1) := by
    rw [List.length_append, List.length_cons]
  refine ⟨fun hcan => ?_, fun _ z => .inl ?_⟩
  · -- it is not canonical: the padding is behind the last group but one
    obtain ⟨hmod, hpad, hrest⟩ := (canonical_iff hbody hc).mp hcan
    have hshort : rest.length ≤ 1 := by
      rcases hrest with rfl | rfl
      · exact Nat.zero_le 1
      · exact Nat.le_refl 1
    rcases hrefuses with hlt | hne
    · omega
    · exact absurd hpad hne
  · have hall := (hparts z).1
    have hbad : stored (l ++ c :: (rest ++ z))
        ((body ++ c :: rest).length - 4 * (body.length / 4)) = .error .invalidArguments ∧
        looped (l ++ c :: (rest ++ z))
          ((body ++ c :: rest).length - 4 * (body.length / 4)) = 0 := by
      by_cases hgroup : 4 < (body ++ c :: rest).length - 4 * (body.length / 4)
      · exact stored_refused (by omega) hc hgroup (by omega)
      · obtain ⟨htail, hzero⟩ := @stored_tail (l ++ c :: (rest ++ z)) _ (Nat.not_lt.mp hgroup)
        have hne : c ≠ EQUALS := hrefuses.resolve_left (by omega)
        exact ⟨htail.trans (decodeTail_refused (by omega) hletters hc hne (by omega) _), hzero⟩
    apply decode_error
    · rw [(hparts z).2.1, hbad.1]
      rfl
    · rw [(hparts z).2.2, hbad.2]
      omega

/-- Padding too early is not refused. -/
private theorem short_not_strict (hbody : ∀ x ∈ body, lookup x ≠ 64)
    (hshort : behind (body ++ EQUALS :: rest) body < 4) :
    ¬ Strict (body ++ EQUALS :: rest) := by
  obtain ⟨l, out, hl, hletters, -, hparts⟩ := stored_parts hbody EQUALS rest
  apply not_strict []
  obtain ⟨hall, hst, -⟩ := hparts []
  rw [List.append_nil, List.length_nil, Nat.add_zero] at hall
  rw [behind, Nat.mul_comm, ← hl] at hshort
  have hover := decodeTail_short (m := rest) hletters (by omega)
  have htail := (@stored_tail (l ++ EQUALS :: rest) _ (by omega)).1.trans hover
  rw [List.append_nil, List.append_nil, ← hall, htail] at hst
  rw [decode_eq, List.append_nil, hst]
  exact ite_self _

section
variable (hbody : ∀ x ∈ body, lookup x ≠ 64)
  (hgroup : ¬ body.length / 4 < ((body ++ EQUALS :: rest).length - 1) / 4)

include hbody hgroup

/-- The bytes in front of the padding are stored, whatever is behind the text. -/
private theorem stored_padded (hfour : 4 ≤ behind (body ++ EQUALS :: rest) body) :
    ∃ out : Bytes, out.length = count (body ++ EQUALS :: rest) body ∧ ∀ z,
      stored ((body ++ EQUALS :: rest) ++ z) (body ++ EQUALS :: rest).length = .ok out := by
  obtain ⟨l, out, hl, hletters, hout, hparts⟩ := stored_parts hbody EQUALS rest
  have hbehind : behind (body ++ EQUALS :: rest) body =
      (body ++ EQUALS :: rest).length - 4 * (body.length / 4) + l.length := by
    rw [behind, hl, Nat.mul_comm]
  have hlen : (body ++ EQUALS :: rest).length = body.length + (rest.length + 1) := by
    rw [List.length_append, List.length_cons]
  have hs : (body ++ EQUALS :: rest).length - 4 * (body.length / 4) ≤ 4 := by omega
  obtain ⟨o, ho, hdecoded⟩ := decodeTail_padded hs hletters (by omega) (hbehind ▸ hfour)
  refine ⟨out ++ o, ?_, fun z => ?_⟩
  · rw [List.length_append, hout, ho, count, hbehind, Nat.mul_comm]
  · rw [(hparts z).2.1, (stored_tail hs).1, hdecoded]
    rfl

/-- Padding in its place: the text is decoded when all of its bytes have a place and one is left. -/
private theorem padded_iff (hfour : 4 ≤ behind (body ++ EQUALS :: rest) body) :
    Strict (body ++ EQUALS :: rest) ↔ Ends (body ++ EQUALS :: rest) body rest := by
  obtain ⟨out, hcount, hst⟩ := stored_padded hbody hgroup hfour
  obtain ⟨hsize, hoff, hmem⟩ := prepared_spec (body ++ EQUALS :: rest).length
  have hcan : Canonical (body ++ EQUALS :: rest) ↔ (body ++ EQUALS :: rest).length % 4 = 0 ∧
      (rest = [] ∨ rest = [EQUALS]) := by
    rw [canonical_iff hbody lookup_equals, and_iff_right rfl]
  rw [Ends, and_iff_right hfour, ← hcan]
  by_cases hfull : count (body ++ EQUALS :: rest) body ≤ allocated (body ++ EQUALS :: rest).length
  swap
  · refine iff_of_false (not_strict [] ?_) fun h => hfull h.1
    rw [decode_eq, hst, bind_ok, filled_overrun (by omega)]
    exact ite_self _
  have hdecode := fun z => decode_stored (hst z) (by omega)
  rw [and_iff_right hfull]
  by_cases hlt : count (body ++ EQUALS :: rest) body < capacity (body ++ EQUALS :: rest).length
  · obtain ⟨r, hr, hbytes, -⟩ := filled_ok hoff (hmem ▸ hcount ▸ hfull) (hsize ▸ hcount ▸ hlt)
    rw [iff_true_left hlt]
    constructor
    · intro hstrict
      by_contra hno
      rcases hstrict.2 hno [] with h | h
      · nomatch ((hdecode []).trans hr).symm.trans h
      · nomatch ((hdecode []).trans hr).symm.trans h
    · intro hyes
      exact ⟨fun _ => ⟨_, fun z => ⟨r, (hdecode z).trans hr, hbytes⟩⟩, fun hno => absurd hyes hno⟩
  · have hrange := filled_outOfRange hoff (hmem ▸ hcount ▸ hfull)
      (hsize ▸ hcount ▸ Nat.not_lt.mp hlt)
    rw [iff_false_left hlt]
    constructor
    · intro hstrict hyes
      obtain ⟨d, hd⟩ := hstrict.1 hyes
      obtain ⟨r, hr, -⟩ := hd []
      nomatch ((hdecode []).trans hrange).symm.trans hr
    · intro hno
      exact ⟨fun hyes => absurd hyes hno, fun _ z => .inr ((hdecode z).trans hrange)⟩

end

/-- **A text with a byte that is no letter.** -/
private theorem strict_at (hbody : ∀ x ∈ body, lookup x ≠ 64) (hc : lookup c = 64) :
    Strict (body ++ c :: rest) ↔ body.length / 4 * 3 ≤ allocated (body ++ c :: rest).length ∧
      (Refuses (body ++ c :: rest) body c ∨ Ends (body ++ c :: rest) body rest) := by
  by_cases hplace : body.length / 4 * 3 ≤ allocated (body ++ c :: rest).length
  swap
  · -- the groups in front of it have no place
    obtain ⟨l, out, -, -, -, hparts⟩ := stored_parts hbody c rest
    refine iff_of_false (not_strict [] ?_) fun h => hplace h.1
    apply decode_looped
    rw [(hparts []).2.2]
    omega
  rw [and_iff_right hplace]
  by_cases hrefuses : Refuses (body ++ c :: rest) body c
  · exact iff_of_true (refused_strict hbody hc hplace hrefuses) (.inl hrefuses)
  · rw [or_iff_right hrefuses]
    obtain ⟨hgroup, hpad⟩ := not_or.mp hrefuses
    obtain rfl := not_not.mp hpad
    rcases Nat.lt_or_ge (behind (body ++ EQUALS :: rest) body) 4 with hshort | hfour
    · exact iff_of_false (short_not_strict hbody hshort)
        fun h => absurd h.1 (Nat.not_le.mpr hshort)
    · exact padded_iff hbody hgroup hfour

end

/-! ## Which texts -/

/-- **`decode` decodes or refuses a text as it should exactly when it stops at a byte that is no
letter, and that byte is refused or ends what is decoded.** -/
theorem strict_iff (t : Bytes) : Strict t ↔ Stops t := by
  rcases first_stop t with hall | ⟨body, c, rest, rfl, hbody, hc⟩
  · refine iff_of_false (letters_overrun hall) ?_
    rintro ⟨body, c, rest, rfl, -, hc, -⟩
    exact hall c (List.mem_append_right _ List.mem_cons_self) hc
  · rw [strict_at hbody hc]
    constructor
    · rintro ⟨hle, hstop⟩
      exact ⟨body, c, rest, rfl, hbody, hc, hle, hstop⟩
    · rintro ⟨body', c', rest', heq, hbody', hc', hle, hstop⟩
      obtain ⟨rfl, rfl, rfl⟩ := split_unique heq hbody hc hbody' hc'
      exact ⟨hle, hstop⟩

set_option maxRecDepth 8000 in
/-- `TWFu` is a text of letters only: the loop reads the byte behind it. -/
theorem not_strict_TWFu : ¬ Strict (str "TWFu") := by
  intro h
  have hcanonical : Canonical (str "TWFu") :=
    ⟨rfl, str "TWFu", [], rfl, by decide, .inl rfl⟩
  obtain ⟨d, hd⟩ := h.1 hcanonical
  obtain ⟨s, hs, -⟩ := hd []
  have hover : decode ⟨some (str "TWFu" ++ []), (str "TWFu").length⟩ = .error .overrun := by decide
  nomatch hover.symm.trans hs

end Suil.Base64
