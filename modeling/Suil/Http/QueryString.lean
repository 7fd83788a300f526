import Suil.Basic.CString
import Suil.Basic.UrlCodec

set_option autoImplicit false

/-! # Query strings

`qstring.cpp`. `qs_parse` notes where the pairs of a query begin, in an array that its caller gives
it, and decodes the values where they are; `qs_k2v` decodes a key and the keys of the pairs while it
compares them. A pointer into the query is a position in its memory, which ends with a NUL. -/

namespace Suil.Http

open UrlCodec (isHexChar hexValue)

/-- What is undefined: an access outside of memory or of an array, and a view of a null pointer. -/
inductive QsFault where
  | outside
  | null
  deriving DecidableEq, Repr

namespace QueryString

/-- `QueryString::MAX_KEY_VALUE_PAIRS_COUNT`. -/
def MAX_KEY_VALUE_PAIRS_COUNT : Nat := 256

def HASH : UInt8 := 35

/-- `QS_ISQSCHR`. -/
def isQsChr (c : UInt8) : Bool := !(c = EQUALS || c = HASH || c = AMP || c = NUL)

/-- `(QS_HEX2DEC(h) * 16) + QS_HEX2DEC(l)`. -/
def hexByte (h l : UInt8) : UInt8 := hexValue h * 16 + hexValue l

/-- `m[p]`. -/
def load (m : Bytes) (p : Nat) : Except QsFault UInt8 :=
  match m[p]? with
  | some c => .ok c
  | none => .error .outside

/-- `strcspn(m + p, set)`. -/
def strcspn (m : Bytes) (p : Nat) (set : Bytes) : Except QsFault Nat :=
  let n := ((m.drop p).takeWhile fun c => c ≠ NUL ∧ c ∉ set).length
  if n < (m.drop p).length then .ok n else .error .outside

/-- What `qs_decode` writes in front of the NUL. It never writes behind what it has read. -/
def decoded : Bytes → Except QsFault Bytes
  | [] => .error .outside
  | c :: s =>
      if !isQsChr c then .ok []
      else if c = PLUS then (SP :: ·) <$> decoded s
      else if c = PERCENT then
        match s with
        | h :: l :: s =>
            if isHexChar h && isHexChar l then (hexByte h l :: ·) <$> decoded s else .ok []
        | [h] => if isHexChar h then .error .outside else .ok []
        | [] => .error .outside
      else (c :: ·) <$> decoded s

/-- `qs_decode(m + p)`. -/
def qs_decode (m : Bytes) (p : Nat) : Except QsFault Bytes := do
  let out ← decoded (m.drop p)
  .ok (m.take p ++ (out ++ NUL :: m.drop (p + out.length + 1)))

/-- The next byte of a key that `qs_strncmp` compares, and what is behind it. -/
def symbol : Bytes → Except QsFault (UInt8 × Bytes)
  | [] => .error .outside
  | c :: s =>
      let u := if !isQsChr c then NUL else c
      let u := if u = PLUS then SP else u
      if u = PERCENT then
        match s with
        | h :: l :: s => .ok (if isHexChar h && isHexChar l then hexByte h l else NUL, s)
        | _ => .error .outside
      else .ok (u, s)

/-- `qs_strncmp(s, qs, n)`. -/
def qs_strncmp : Bytes → Bytes → Nat → Except QsFault Int
  | _, qs, 0 => do
      let c ← load qs 0
      .ok (if isQsChr c then -1 else 0)
  | s, qs, n + 1 => do
      let (u1, s) ← symbol s
      let (u2, qs) ← symbol qs
      if u1 ≠ u2 then .ok (u1.toNat - u2.toNat)
      else if u1 = NUL then .ok 0
      else qs_strncmp s qs n

/-- The first loop of `qs_parse`, from a pointer on and with so many places left in the array: what
it stores, and how often it goes on to the next place. -/
def starts (m : Bytes) : Nat → Nat → Except QsFault (List Nat × Nat)
  | 0, _ => .ok ([], 0)
  | size + 1, p => do
      let j ← strcspn m p [AMP]
      if (← load m (p + j)) = NUL then .ok ([p], 0)
      else do
        let (kv, i) ← starts m size (p + j + 1)
        .ok (p :: kv, i + 1)

/-- The value of the pair at `p` is decoded. -/
def decodeAt (m : Bytes) (p : Nat) : Except QsFault Bytes := do
  let n ← strcspn m p [EQUALS, AMP, HASH]
  let c ← load m (p + n)
  if c = AMP ∨ c = NUL then .ok (m.set (p + n) NUL) else qs_decode m (p + n + 1)

/-- The second loop of `qs_parse`, for that many entries of the array. -/
def decodeValues (m : Bytes) : List Nat → Nat → Except QsFault Bytes
  | _, 0 => .ok m
  | [], _ + 1 => .error .outside
  | p :: kv, i + 1 => do decodeValues (← decodeAt m p) kv i

/-- `qs_parse`: the memory, the array and the result. -/
def qs_parse (m : Bytes) (size : Nat) : Except QsFault (Bytes × List Nat × Nat) := do
  let n ← strcspn m 0 [QMARK, HASH]
  if (← load m n) = NUL then .ok (m, [], 0)
  else do
    let (kv, i) ← starts m size (n + 1)
    -- the loop has gone round once less than there are pairs, or once for each place
    let m ← decodeValues m kv (i + 1)
    .ok (m, kv, i + 1)

/-- `qs_k2v(key, qs_kv, qs_kv_size, nth)` for the memory that the array points into. -/
def qs_k2v (key m : Bytes) : List Nat → Nat → Except QsFault (Option Nat)
  | [], _ => .ok none
  | p :: kv, nth => do
      if (← qs_strncmp (cstr key ++ [NUL]) (m.drop p) (cstr key).length) = 0 then do
        let skip ← strcspn m p [EQUALS]
        let skip := if (← load m (p + skip)) = EQUALS then skip + 1 else skip
        match nth with
        | 0 => .ok (some (p + skip))
        | nth + 1 => qs_k2v key m kv nth
      else qs_k2v key m kv nth

end QueryString

/-- `QueryString`. -/
structure QueryString where
  url_ : Option Bytes
  params_ : Option (List Nat)
  nparams_ : Nat
  deriving DecidableEq, Repr

namespace QueryString

/-- `QueryString(sv)`. -/
def new (sv : Bytes) : Except QsFault QueryString :=
  if sv = [] then .ok ⟨none, none, 0⟩
  else do
    let (url, params, count) ← qs_parse (cstr sv ++ [NUL]) MAX_KEY_VALUE_PAIRS_COUNT
    .ok (if count > 0 then ⟨some url, some params, count⟩ else ⟨some url, none, 0⟩)

/-- `QueryString::get(name)`. -/
def get (q : QueryString) (name : Bytes) : Except QsFault Bytes :=
  match q.params_ with
  | none => .ok []
  | some params => do
      let m := q.url_.getD []
      match ← qs_k2v name m params 0 with
      | none => .error .null
      | some p => do
          let n ← strcspn m p []
          .ok ((m.drop p).take n)

/-- What a request with this query has under a name. -/
def lookup (sv name : Bytes) : Except QsFault Bytes := do (← new sv).get name

/-! ## What a query says -/

/-- What the bytes in front of the end of a value stand for. -/
def unescape : Bytes → Bytes
  | [] => []
  | c :: s =>
      if !isQsChr c then []
      else if c = PLUS then SP :: unescape s
      else if c = PERCENT then
        match s with
        | h :: l :: s => if isHexChar h && isHexChar l then hexByte h l :: unescape s else []
        | _ => []
      else c :: unescape s

/-- The memory of a pair and of the byte behind it when its value is decoded. -/
def settled (s : Bytes) (d : UInt8) : Bytes :=
  match s.dropWhile isQsChr with
  | [] => s ++ [NUL]
  | c :: v =>
      s.takeWhile isQsChr ++ (c :: (unescape v ++ NUL :: (v ++ [d]).drop ((unescape v).length + 1)))

/-- The memory of pairs, with the bytes between them and the NUL behind the last. -/
def laid : List Bytes → Bytes
  | [] => []
  | [s] => s ++ [NUL]
  | s :: ss => s ++ AMP :: laid ss

/-- The same memory when the values are decoded. -/
def settledAll : List Bytes → Bytes
  | [] => []
  | [s] => settled s NUL
  | s :: ss => settled s AMP ++ settledAll ss

/-- Where the pairs begin, when the first begins there. -/
def places : Nat → List Bytes → List Nat
  | _, [] => []
  | p, s :: ss => p :: places (p + s.length + 1) ss

/-- The value of a pair. -/
def value (s : Bytes) : Bytes :=
  ((cstr (settled s NUL)).dropWhile (· ≠ EQUALS)).drop 1

/-! ## Bytes that a query ends a value with -/

theorem isQsChr_eq {c : UInt8} :
    isQsChr c = true ↔ c ≠ EQUALS ∧ c ≠ HASH ∧ c ≠ AMP ∧ c ≠ NUL := by
  simp [isQsChr, and_assoc]

/-- A byte that ends a value is no hexadecimal digit. -/
theorem not_isHexChar {d : UInt8} (h : isQsChr d = false) : isHexChar d = false := by
  have hd := (not_congr isQsChr_eq).mp (Bool.not_eq_true _ ▸ h)
  by_contra hhex
  apply hd
  refine ⟨?_, ?_, ?_, ?_⟩ <;> rintro rfl <;> exact hhex (by decide)

theorem unescape_length_le (v : Bytes) : (unescape v).length ≤ v.length := by
  fun_induction unescape v with
  | case1 => exact Nat.le_refl 0
  | case2 => exact Nat.zero_le _
  | case3 s _ ih => exact Nat.succ_le_succ ih
  | case4 _ h l s _ ih =>
      simp only [List.length_cons]
      omega
  | case5 => exact Nat.zero_le _
  | case6 => exact Nat.zero_le _
  | case7 c s _ _ _ ih => exact Nat.succ_le_succ ih

attribute [local simp] decoded in
private theorem decoded_stop {c : UInt8} (h : isQsChr c = false) (s : Bytes) :
    decoded (c :: s) = .ok [] := by
  rw [decoded.eq_def]
  simp only [h, Bool.not_false, if_true]

private theorem decoded_plus (s : Bytes) : decoded (PLUS :: s) = (SP :: ·) <$> decoded s := by
  rw [decoded.eq_def]
  rfl

private theorem decoded_byte {c : UInt8} (h : isQsChr c = true) (hplus : c ≠ PLUS)
    (hpercent : c ≠ PERCENT) (s : Bytes) : decoded (c :: s) = (c :: ·) <$> decoded s := by
  rw [decoded.eq_def]
  simp only [h, Bool.not_true, Bool.false_eq_true, if_false, if_neg hplus, if_neg hpercent]

private theorem decoded_percent (h l : UInt8) (s : Bytes) : decoded (PERCENT :: h :: l :: s) =
    if isHexChar h && isHexChar l then (hexByte h l :: ·) <$> decoded s else .ok [] := by
  rw [decoded.eq_def]
  rfl

/-- A percent sequence that its text does not hold is none with the byte behind the text. -/
private theorem decoded_short {s : Bytes} (hs : ∀ h l z, s = h :: l :: z → False) {d : UInt8}
    (hd : isQsChr d = false) (z : Bytes) : decoded (PERCENT :: (s ++ d :: z)) = .ok [] := by
  have hhex := not_isHexChar hd
  match s with
  | [] =>
      cases z with
      | nil =>
          rw [List.nil_append, decoded.eq_def]
          simp only [hhex]
          rfl
      | cons e z =>
          rw [List.nil_append, decoded_percent, hhex, Bool.false_and]
          rfl
  | [h] =>
      rw [List.singleton_append, decoded_percent, hhex, Bool.and_false]
      rfl
  | h :: l :: s => exact (hs h l s rfl).elim

/-- A value is decoded up to its end. -/
theorem decoded_append (v : Bytes) {d : UInt8} (hd : isQsChr d = false) (z : Bytes) :
    decoded (v ++ d :: z) = .ok (unescape v) := by
  fun_induction unescape v with
  | case1 => exact decoded_stop hd z
  | case2 c s hc => exact decoded_stop (by simpa using hc) _
  | case3 s _ ih =>
      rw [List.cons_append, decoded_plus, ih]
      rfl
  | case4 h l s hhex _ _ ih =>
      rw [List.cons_append, List.cons_append, List.cons_append, decoded_percent, if_pos hhex, ih]
      rfl
  | case5 h l s hhex =>
      rw [List.cons_append, List.cons_append, List.cons_append, decoded_percent, if_neg hhex]
  | case6 s hs => exact decoded_short hs hd z
  | case7 c s hc hplus hpercent ih =>
      rw [List.cons_append, decoded_byte (by simpa using hc) hplus hpercent, ih]
      rfl

/-! ## The memory of a pair -/

private theorem load_append (pre : Bytes) (c : UInt8) (z : Bytes) :
    load (pre ++ c :: z) pre.length = .ok c := by
  rw [load, List.getElem?_append_right (Nat.le_refl _), Nat.sub_self]
  rfl

/-- A scan stops at the first byte that it looks for. -/
private theorem strcspn_append {set s : Bytes} (hs : ∀ c ∈ s, c ≠ NUL ∧ c ∉ set) {d : UInt8}
    (hd : d = NUL ∨ d ∈ set) (pre z : Bytes) :
    strcspn (pre ++ (s ++ d :: z)) pre.length set = .ok s.length := by
  have htake : (s ++ d :: z).takeWhile (fun c => c ≠ NUL ∧ c ∉ set) = s := by
    rw [List.takeWhile_append_of_pos fun c hc => decide_eq_true (hs c hc), List.takeWhile_cons,
      if_neg (by simpa [imp_iff_not_or, or_comm] using hd), List.append_nil]
  rw [strcspn, List.drop_left]
  simp only [htake]
  rw [if_pos (by simp)]

/-- The text of a pair. -/
def IsPair (s : Bytes) : Prop := NUL ∉ s ∧ AMP ∉ s

/-- A pair is its key, or its key, a byte that ends it, and the value. -/
private theorem pair_cases {s : Bytes} (h : IsPair s) :
    (∀ c ∈ s, isQsChr c = true) ∨ ∃ k c v, s = k ++ c :: v ∧ (∀ x ∈ k, isQsChr x = true) ∧
      (c = EQUALS ∨ c = HASH) ∧ IsPair v := by
  induction s with
  | nil => exact .inl nofun
  | cons c s ih =>
      obtain ⟨⟨hnul, hnuls⟩, hamp, hamps⟩ :=
        And.intro (not_or.mp (List.mem_cons.not.mp h.1)) (not_or.mp (List.mem_cons.not.mp h.2))
      by_cases hc : isQsChr c = true
      · rcases ih ⟨hnuls, hamps⟩ with hall | ⟨k, e, v, rfl, hk, he, hv⟩
        · exact .inl (List.forall_mem_cons.mpr ⟨hc, hall⟩)
        · exact .inr ⟨c :: k, e, v, rfl, List.forall_mem_cons.mpr ⟨hc, hk⟩, he, hv⟩
      · refine .inr ⟨[], c, s, rfl, nofun, ?_, hnuls, hamps⟩
        by_contra hne
        obtain ⟨heq, hhash⟩ := not_or.mp hne
        exact hc (isQsChr_eq.mpr ⟨heq, hhash, Ne.symm hamp, Ne.symm hnul⟩)

theorem settled_key {s : Bytes} (h : ∀ c ∈ s, isQsChr c = true) (d : UInt8) :
    settled s d = s ++ [NUL] := by
  rw [settled, List.dropWhile_eq_nil_iff.mpr h]

theorem settled_value {k v : Bytes} {c : UInt8} (hk : ∀ x ∈ k, isQsChr x = true)
    (hc : isQsChr c = false) (d : UInt8) : settled (k ++ c :: v) d =
      k ++ (c :: (unescape v ++ NUL :: (v ++ [d]).drop ((unescape v).length + 1))) := by
  have hdrop : (k ++ c :: v).dropWhile isQsChr = c :: v := by
    rw [List.dropWhile_append_of_pos hk, List.dropWhile_cons, if_neg (by rw [hc]; decide)]
  have htake : (k ++ c :: v).takeWhile isQsChr = k := by
    rw [List.takeWhile_append_of_pos hk, List.takeWhile_cons, if_neg (by rw [hc]; decide),
      List.append_nil]
  rw [settled, hdrop, htake]

theorem not_isQsChr {c : UInt8} (h : c = EQUALS ∨ c = HASH) : isQsChr c = false := by
  rcases h with rfl | rfl <;> rfl

theorem settled_length {s : Bytes} (hs : IsPair s) (d : UInt8) :
    (settled s d).length = s.length + 1 := by
  rcases pair_cases hs with hall | ⟨k, c, v, rfl, hk, hc, -⟩
  · rw [settled_key hall, List.length_append, List.length_singleton]
  · have hle := unescape_length_le v
    rw [settled_value hk (not_isQsChr hc)]
    simp only [List.length_append, List.length_cons, List.length_drop, List.length_nil]
    omega

/-- One round of the second loop decodes one pair. -/
theorem decodeAt_append {s : Bytes} (hs : IsPair s) {d : UInt8} (hd : d = AMP ∨ d = NUL)
    (pre z : Bytes) : decodeAt (pre ++ (s ++ d :: z)) pre.length = .ok (pre ++ (settled s d ++ z)) := by
  have hstop : d = NUL ∨ d ∈ [EQUALS, AMP, HASH] := by rcases hd with rfl | rfl <;> decide
  have hfree : ∀ {k : Bytes}, (∀ x ∈ k, isQsChr x = true) →
      ∀ x ∈ k, x ≠ NUL ∧ x ∉ [EQUALS, AMP, HASH] := fun hk x hx => by
    obtain ⟨heq, hhash, hamp, hnul⟩ := isQsChr_eq.mp (hk x hx)
    simp [heq, hhash, hamp, hnul]
  rcases pair_cases hs with hall | ⟨k, c, v, rfl, hk, hc, -⟩
  · -- a pair without a value ends with a NUL
    have hload := load_append (pre ++ s) d z
    rw [List.append_assoc, List.length_append] at hload
    rw [decodeAt, strcspn_append (hfree hall) hstop, settled_key hall]
    simp only [bind, Except.bind, hload]
    rw [if_pos hd, List.set_append_right _ _ (by omega), Nat.add_sub_cancel_left,
      List.set_append_right _ _ (Nat.le_refl _), Nat.sub_self, List.set_cons_zero,
      List.append_assoc, List.singleton_append]
  -- the value behind a key is decoded in place, and only its own bytes change
  · have hload := load_append (pre ++ k) c (v ++ d :: z)
    have hle := unescape_length_le v
    have hqs : isQsChr d = false := by rcases hd with rfl | rfl <;> rfl
    rw [List.append_assoc, List.length_append] at hload
    have hcset : c = NUL ∨ c ∈ [EQUALS, AMP, HASH] := by rcases hc with rfl | rfl <;> decide
    have hcne : ¬ (c = AMP ∨ c = NUL) := by rcases hc with rfl | rfl <;> decide
    have hsplit : pre ++ (k ++ c :: (v ++ d :: z)) = (pre ++ (k ++ [c])) ++ (v ++ d :: z) := by
      simp only [List.append_assoc, List.singleton_append]
    have hlen : pre.length + k.length + 1 = (pre ++ (k ++ [c])).length := by
      simp only [List.length_append, List.length_singleton]
      omega
    -- what decoding leaves behind the shorter text is the end of the old one
    have hrest : (v ++ d :: z).drop ((unescape v).length + 1) =
        (v ++ [d]).drop ((unescape v).length + 1) ++ z := by
      rw [← List.drop_append_of_le_length (by simpa using hle), List.append_assoc,
        List.singleton_append]
    rw [decodeAt, List.append_assoc, List.cons_append, strcspn_append (hfree hk) hcset,
      settled_value hk (not_isQsChr hc)]
    simp only [bind, Except.bind, hload]
    rw [if_neg hcne, qs_decode, hsplit, hlen, List.drop_left, decoded_append v hqs]
    simp only [bind, Except.bind]
    rw [List.take_left, Nat.add_assoc, ← List.drop_drop, List.drop_left, hrest]
    simp only [List.append_assoc, List.cons_append, List.nil_append]

/-! ## Parsing -/

private theorem laid_cons (s t : Bytes) (ss : List Bytes) :
    laid (s :: t :: ss) = s ++ AMP :: laid (t :: ss) := rfl

private theorem amp_free {s : Bytes} (hs : IsPair s) : ∀ c ∈ s, c ≠ NUL ∧ c ∉ [AMP] :=
  fun _ hc => ⟨fun h => hs.1 (h ▸ hc), fun h => hs.2 (List.mem_singleton.mp h ▸ hc)⟩

/-- The first loop finds the pairs when there is a place for each of them; else it fills the
array. -/
theorem starts_laid {ss : List Bytes} (hne : ss ≠ []) (hss : ∀ s ∈ ss, IsPair s) (size : Nat)
    (pre : Bytes) : starts (pre ++ laid ss) size pre.length =
      if ss.length ≤ size then .ok (places pre.length ss, ss.length - 1)
      else .ok ((places pre.length ss).take size, size) := by
  -- on the pairs: each takes one place, and the last one ends the loop with its NUL
  induction ss generalizing pre size with
  | nil => exact (hne rfl).elim
  | cons s ss ih =>
      obtain ⟨hs, hss⟩ := List.forall_mem_cons.mp hss
      cases size with
      | zero => rfl
      | succ size =>
          cases ss with
          | nil =>
              have hload := load_append (pre ++ s) NUL []
              rw [List.append_assoc, List.length_append] at hload
              rw [laid, starts, strcspn_append (amp_free hs) (.inl rfl)]
              simp only [bind, Except.bind, hload, if_true]
              rfl
          | cons t ss =>
              have hload := load_append (pre ++ s) AMP (laid (t :: ss))
              rw [List.append_assoc, List.length_append] at hload
              -- the next pair begins behind the ampersand
              have hsplit : pre ++ (s ++ AMP :: laid (t :: ss)) =
                  (pre ++ (s ++ [AMP])) ++ laid (t :: ss) := by
                simp only [List.append_assoc, List.singleton_append]
              have hlen : pre.length + s.length + 1 = (pre ++ (s ++ [AMP])).length := by
                simp only [List.length_append, List.length_singleton]
                omega
              have hrest := ih nofun hss size (pre ++ (s ++ [AMP]))
              rw [laid_cons, starts, strcspn_append (amp_free hs) (.inr (List.mem_singleton_self _))]
              simp only [bind, Except.bind, hload]
              rw [if_neg (by decide), hsplit, hlen, hrest]
              simp only [List.length_cons, Nat.succ_le_succ_iff, ← hlen, places, List.take_succ_cons]
              split_ifs with hle
              · rfl
              · rfl

/-- The second loop decodes all pairs. -/
theorem decodeValues_laid {ss : List Bytes} (hss : ∀ s ∈ ss, IsPair s) (pre : Bytes) :
    decodeValues (pre ++ laid ss) (places pre.length ss) ss.length =
      .ok (pre ++ settledAll ss) := by
  -- on the pairs: decoding one of them leaves those behind it where they are
  induction ss generalizing pre with
  | nil => rfl
  | cons s ss ih =>
      obtain ⟨hs, hss⟩ := List.forall_mem_cons.mp hss
      cases ss with
      | nil =>
          have hone := decodeAt_append hs (.inr rfl) pre []
          rw [List.append_nil] at hone
          rw [laid, places, List.length_cons, decodeValues, hone]
          rfl
      | cons t ss =>
          have hrest := ih hss (pre ++ settled s AMP)
          have hlen : (pre ++ settled s AMP).length = pre.length + s.length + 1 := by
            rw [List.length_append, settled_length hs, Nat.add_assoc]
          rw [hlen, List.append_assoc, List.append_assoc] at hrest
          rw [laid_cons, places, List.length_cons, decodeValues,
            decodeAt_append hs (.inl rfl)]
          exact hrest

/-- An entry that the array does not have is not read. -/
theorem decodeValues_outside {kv : List Nat} {i : Nat} (h : kv.length < i) (m m' : Bytes) :
    decodeValues m kv i ≠ .ok m' := by
  induction kv generalizing i m with
  | nil =>
      cases i with
      | zero => exact absurd h (Nat.lt_irrefl 0)
      | succ i => exact nofun
  | cons p kv ih =>
      cases i with
      | zero => exact absurd h (Nat.not_lt_zero _)
      | succ i =>
          rw [decodeValues]
          cases hp : decodeAt m p with
          | error e => exact nofun
          | ok m₁ => exact ih (Nat.lt_of_succ_lt_succ h) m₁

/-- The pairs of a query: the texts between the ampersands, behind the first question mark or
hash. -/
def pairs (sv : Bytes) : List Bytes :=
  match (cstr sv).dropWhile fun c => c ≠ QMARK ∧ c ≠ HASH with
  | [] => []
  | _ :: r => r.splitOn AMP

theorem laid_splitOn (r : Bytes) : laid (r.splitOn AMP) = r ++ [NUL] := by
  induction r with
  | nil => rfl
  | cons c r ih =>
      have hne := List.splitOn_ne_nil AMP r
      rw [List.splitOn_cons_eq_if_modifyHead]
      cases hr : r.splitOn AMP with
      | nil => exact (hne hr).elim
      | cons s ss =>
          rw [hr] at ih
          split_ifs with hc
          · rw [beq_iff_eq.mp hc, laid_cons, ih]
            rfl
          · rw [List.modifyHead_cons]
            cases ss with
            | nil =>
                rw [laid] at ih ⊢
                rw [List.cons_append, ih, List.cons_append]
            | cons t ss =>
                rw [laid_cons] at ih ⊢
                rw [List.cons_append, ih, List.cons_append]

private theorem isPair_splitOn {r : Bytes} (h : NUL ∉ r) : ∀ s ∈ r.splitOn AMP, IsPair s := by
  induction r with
  | nil =>
      intro s hs
      rw [List.mem_singleton.mp hs]
      exact ⟨List.not_mem_nil, List.not_mem_nil⟩
  | cons c r ih =>
      obtain ⟨hc, hr⟩ := not_or.mp (List.mem_cons.not.mp h)
      have hpairs := ih hr
      rw [List.splitOn_cons_eq_if_modifyHead]
      split_ifs with hamp
      · exact List.forall_mem_cons.mpr ⟨⟨List.not_mem_nil, List.not_mem_nil⟩, hpairs⟩
      · cases hsp : r.splitOn AMP with
        | nil => exact (List.splitOn_ne_nil AMP r hsp).elim
        | cons s ss =>
            rw [hsp, List.forall_mem_cons] at hpairs
            rw [List.modifyHead_cons, List.forall_mem_cons]
            have hne : AMP ≠ c := fun heq => hamp (beq_iff_eq.mpr heq.symm)
            refine ⟨⟨?_, ?_⟩, hpairs.2⟩
            · exact fun hm => (List.mem_cons.mp hm).elim hc hpairs.1.1
            · exact fun hm => (List.mem_cons.mp hm).elim hne hpairs.1.2

/-- A query without a mark has no pairs. With one, the pairs are behind it. -/
private theorem pairs_cases (sv : Bytes) :
    (pairs sv = [] ∧ ∀ c ∈ cstr sv, c ≠ NUL ∧ c ∉ [QMARK, HASH]) ∨
      ∃ f c, pairs sv ≠ [] ∧ cstr sv ++ [NUL] = (f ++ [c]) ++ laid (pairs sv) ∧
        (∀ x ∈ f, x ≠ NUL ∧ x ∉ [QMARK, HASH]) ∧ (c = QMARK ∨ c = HASH) := by
  obtain ⟨f, hf⟩ : ∃ f, f = (cstr sv).takeWhile fun c => c ≠ QMARK ∧ c ≠ HASH := ⟨_, rfl⟩
  have happ := List.takeWhile_append_dropWhile
    (p := fun c => c ≠ QMARK ∧ c ≠ HASH) (l := cstr sv)
  have hfree : ∀ x ∈ cstr sv, x ∈ f → x ≠ NUL ∧ x ∉ [QMARK, HASH] := fun x hx hxf => by
    have hmark := of_decide_eq_true
      (List.mem_takeWhile_imp (p := fun c => decide (c ≠ QMARK ∧ c ≠ HASH)) (hf ▸ hxf))
    exact ⟨fun h => nul_notMem_cstr sv (h ▸ hx), by simpa using hmark⟩
  rw [← hf] at happ
  -- without a mark there are no pairs; else what is behind it is split at the ampersands
  cases hr : (cstr sv).dropWhile fun c => c ≠ QMARK ∧ c ≠ HASH with
  | nil =>
      rw [hr, List.append_nil] at happ
      refine .inl ⟨by rw [pairs, hr], fun x hx => hfree x hx (happ ▸ hx)⟩
  | cons c r =>
      have hhead := List.head_dropWhile_not (fun c => decide (c ≠ QMARK ∧ c ≠ HASH)) (l := cstr sv)
        (by rw [hr]; exact List.cons_ne_nil c r)
      simp only [hr, List.head_cons, decide_eq_false_iff_not] at hhead
      have hpairs : pairs sv = r.splitOn AMP := by rw [pairs, hr]
      rw [hr] at happ
      refine .inr ⟨f, c, hpairs ▸ List.splitOn_ne_nil AMP r, ?_, fun x hx => ?_, ?_⟩
      · rw [hpairs, laid_splitOn, ← happ]
        simp only [List.append_assoc, List.cons_append, List.nil_append]
      · exact hfree x (happ ▸ List.mem_append_left _ hx) hx
      · by_contra hne
        exact hhead (not_or.mp hne)

theorem isPair_of_mem {sv s : Bytes} (h : s ∈ pairs sv) : IsPair s := by
  rw [pairs] at h
  split at h
  · nomatch h
  · next c r hr =>
    refine isPair_splitOn (fun hm => nul_notMem_cstr sv ?_) s h
    rw [← List.takeWhile_append_dropWhile
      (p := fun c => c ≠ QMARK ∧ c ≠ HASH) (l := cstr sv), hr]
    exact List.mem_append_right _ (List.mem_cons_of_mem _ hm)

/-- A query without pairs has nothing to look up. -/
theorem new_of_nil {sv : Bytes} (h : pairs sv = []) :
    ∃ url, new sv = .ok ⟨url, none, 0⟩ := by
  rcases pairs_cases sv with ⟨-, hfree⟩ | ⟨f, c, hne, -⟩
  · rw [new]
    split_ifs with hsv
    · exact ⟨none, rfl⟩
    · have hscan := strcspn_append hfree (.inl rfl) [] []
      have hload := load_append (cstr sv) NUL []
      rw [List.nil_append, List.length_nil] at hscan
      rw [qs_parse, hscan]
      simp only [bind, Except.bind, hload, if_true]
      exact ⟨_, rfl⟩
  · exact (hne h).elim

/-- **Parsing decodes the pairs in place, exactly when the array has a place for each of them.** -/
theorem new_of_pairs {sv : Bytes} (h : pairs sv ≠ []) : ∃ pre,
    cstr sv ++ [NUL] = pre ++ laid (pairs sv) ∧
    ((pairs sv).length ≤ MAX_KEY_VALUE_PAIRS_COUNT → new sv =
      .ok ⟨some (pre ++ settledAll (pairs sv)), some (places pre.length (pairs sv)),
        (pairs sv).length⟩) ∧
    (MAX_KEY_VALUE_PAIRS_COUNT < (pairs sv).length → ∀ q, new sv ≠ .ok q) := by
  rcases pairs_cases sv with ⟨hnil, -⟩ | ⟨f, c, -, hmem, hf, hc⟩
  · exact (h hnil).elim
  have hpairs : ∀ s ∈ pairs sv, IsPair s := fun s hs => isPair_of_mem hs
  have hsv : sv ≠ [] := by
    rintro rfl
    exact h rfl
  have hcset : c = NUL ∨ c ∈ [QMARK, HASH] := by rcases hc with rfl | rfl <;> decide
  have hcne : c ≠ NUL := by rcases hc with rfl | rfl <;> decide
  have hscan := strcspn_append hf hcset [] (laid (pairs sv))
  have hload := load_append f c (laid (pairs sv))
  rw [List.nil_append, List.length_nil] at hscan
  have hassoc : (f ++ [c]) ++ laid (pairs sv) = f ++ c :: laid (pairs sv) := by
    rw [List.append_assoc, List.singleton_append]
  have hlen : f.length + 1 = (f ++ [c]).length := by rw [List.length_append, List.length_singleton]
  -- the scan for the mark is done, and the two loops are left
  have hparse : qs_parse (cstr sv ++ [NUL]) MAX_KEY_VALUE_PAIRS_COUNT = (do
      let (kv, i) ← starts ((f ++ [c]) ++ laid (pairs sv)) MAX_KEY_VALUE_PAIRS_COUNT
        (f ++ [c]).length
      let m ← decodeValues ((f ++ [c]) ++ laid (pairs sv)) kv (i + 1)
      .ok (m, kv, i + 1)) := by
    rw [qs_parse, hmem, ← hlen, hassoc, hscan]
    simp only [bind, Except.bind, hload, if_neg hcne]
  have hpos : 0 < (pairs sv).length := List.length_pos_iff.mpr h
  refine ⟨f ++ [c], hmem, fun hle => ?_, fun hlt q => ?_⟩
  · rw [new, if_neg hsv, hparse, starts_laid h hpairs, if_pos hle]
    simp only [bind, Except.bind, Nat.sub_add_cancel hpos, decodeValues_laid hpairs, if_pos hpos]
  · rw [new, if_neg hsv, hparse, starts_laid h hpairs, if_neg (by omega)]
    simp only [bind, Except.bind]
    cases hd : decodeValues ((f ++ [c]) ++ laid (pairs sv))
        ((places (f ++ [c]).length (pairs sv)).take MAX_KEY_VALUE_PAIRS_COUNT)
        (MAX_KEY_VALUE_PAIRS_COUNT + 1) with
    | error e => exact nofun
    | ok m =>
        -- the array is full, but the second loop reads the place behind it too
        have hshort := List.length_take_le MAX_KEY_VALUE_PAIRS_COUNT
          (places (f ++ [c]).length (pairs sv))
        exact (decodeValues_outside (Nat.lt_succ_of_le hshort) _ _ hd).elim

/-- What is behind a question mark, when the array has a place for each of the pairs in it. -/
theorem new_of_mark {q : Bytes} (hnul : NUL ∉ q)
    (hle : (q.splitOn AMP).length ≤ MAX_KEY_VALUE_PAIRS_COUNT) : new (QMARK :: q) =
      .ok ⟨some (QMARK :: settledAll (q.splitOn AMP)), some (places 1 (q.splitOn AMP)),
        (q.splitOn AMP).length⟩ := by
  have hcstr : cstr (QMARK :: q) = QMARK :: q :=
    cstr_eq_self fun hm => (List.mem_cons.mp hm).elim (by decide) hnul
  have hpairs : pairs (QMARK :: q) = q.splitOn AMP := by
    rw [pairs, hcstr, List.dropWhile_cons, if_neg (by decide)]
  obtain ⟨pre, hmem, hnew, -⟩ := new_of_pairs (hpairs ▸ List.splitOn_ne_nil AMP q)
  have hpre : pre = [QMARK] := by
    rw [hcstr, hpairs, laid_splitOn, List.cons_append] at hmem
    exact (List.append_cancel_right (show [QMARK] ++ _ = _ from hmem)).symm
  rw [hpairs] at hnew
  rw [hnew hle, hpre]
  rfl

/-! ## Comparing keys -/

section Comparing

variable {d d' : UInt8} {z z' : Bytes}

theorem symbol_end (hd : isQsChr d = false) : symbol (d :: z) = .ok (NUL, z) := by
  have hplus : NUL ≠ PLUS := by decide
  have hpercent : NUL ≠ PERCENT := by decide
  rw [symbol.eq_def]
  simp only [hd, Bool.not_false, if_true, if_neg hplus, if_neg hpercent]

theorem symbol_percent (h l : UInt8) (s : Bytes) : symbol (PERCENT :: h :: l :: s) =
    .ok (if isHexChar h && isHexChar l then hexByte h l else NUL, s) := by
  have hc : isQsChr PERCENT = true := rfl
  have hne : PERCENT ≠ PLUS := by decide
  rw [symbol.eq_def]
  simp only [hc, Bool.not_true, Bool.false_eq_true, if_false, if_neg hne, if_true]

theorem symbol_byte {c : UInt8} (hc : isQsChr c = true) (hpercent : c ≠ PERCENT)
    (s : Bytes) : symbol (c :: s) = .ok (UrlCodec.single c, s) := by
  have hne : UrlCodec.single c ≠ PERCENT := by
    unfold UrlCodec.single
    split_ifs with hplus
    · decide
    · exact hpercent
  rw [symbol.eq_def]
  simp only [hc, Bool.not_true, Bool.false_eq_true, if_false]
  exact if_neg hne

/-- A key is read up to its end, whatever is behind it, as long as there is something. -/
private theorem symbol_congr (hd : isQsChr d = false) (hd' : isQsChr d' = false)
    (hz : z = [] ↔ z' = []) {k : Bytes} (hk : ∀ c ∈ k, isQsChr c = true) :
    (symbol (k ++ d :: z) = .error .outside ∧ symbol (k ++ d' :: z') = .error .outside) ∨
      ∃ u r r', symbol (k ++ d :: z) = .ok (u, r) ∧ symbol (k ++ d' :: z') = .ok (u, r') ∧
        (u = NUL ∨ ∃ k₁, (∀ c ∈ k₁, isQsChr c = true) ∧ r = k₁ ++ d :: z ∧ r' = k₁ ++ d' :: z') := by
  -- by what a percent sign finds in the key: a digit outside it is none, whatever stands there
  match k with
  | [] => exact .inr ⟨NUL, z, z', symbol_end hd, symbol_end hd', .inl rfl⟩
  | c :: k =>
      obtain ⟨hc, hk⟩ := List.forall_mem_cons.mp hk
      by_cases hpercent : c = PERCENT
      · subst hpercent
        match k with
        | [] =>
            cases z with
            | nil =>
                rw [hz.mp rfl]
                exact .inl ⟨rfl, rfl⟩
            | cons e z =>
                obtain ⟨e', w, rfl⟩ := List.exists_cons_of_ne_nil fun h => nomatch hz.mpr h
                refine .inr ⟨NUL, z, w, ?_, ?_, .inl rfl⟩
                · rw [List.singleton_append, symbol_percent, not_isHexChar hd]
                  rfl
                · rw [List.singleton_append, symbol_percent, not_isHexChar hd']
                  rfl
        | [h] =>
            refine .inr ⟨NUL, z, z', ?_, ?_, .inl rfl⟩
            · show symbol (PERCENT :: h :: d :: z) = _
              rw [symbol_percent, not_isHexChar hd, Bool.and_false]
              rfl
            · show symbol (PERCENT :: h :: d' :: z') = _
              rw [symbol_percent, not_isHexChar hd', Bool.and_false]
              rfl
        | h :: l :: k =>
            -- both digits are in the key
            have hrest : ∀ c ∈ k, isQsChr c = true := fun c hm =>
              hk c (List.mem_cons_of_mem _ (List.mem_cons_of_mem _ (List.mem_cons_of_mem _ hm)))
            exact .inr ⟨_, _, _, symbol_percent h l _, symbol_percent h l _,
              .inr ⟨k, hrest, rfl, rfl⟩⟩
      · exact .inr ⟨_, _, _, symbol_byte hc hpercent _, symbol_byte hc hpercent _,
          .inr ⟨k, hk, rfl, rfl⟩⟩

/-- **What is behind a key in the memory makes no difference for a comparison.** -/
theorem qs_strncmp_congr (hd : isQsChr d = false) (hd' : isQsChr d' = false)
    (hz : z = [] ↔ z' = []) (n : Nat) (s : Bytes) {k : Bytes} (hk : ∀ c ∈ k, isQsChr c = true) :
    qs_strncmp s (k ++ d :: z) n = qs_strncmp s (k ++ d' :: z') n := by
  -- on the length: one symbol of each side is used up in a turn
  induction n generalizing s k with
  | zero =>
      cases k with
      | nil =>
          show Except.ok (if isQsChr d then (-1 : Int) else 0) = .ok (if isQsChr d' then -1 else 0)
          rw [hd, hd']
      | cons c k => rfl
  | succ n ih =>
      rw [qs_strncmp, qs_strncmp]
      cases hs : symbol s with
      | error e => rfl
      | ok p =>
          rcases symbol_congr hd hd' hz hk with ⟨h, h'⟩ | ⟨u, r, r', h, h', hrest⟩
          · rw [h, h']
          · rw [h, h']
            simp only [bind, Except.bind]
            by_cases hu : p.1 = u
            · rw [if_neg (not_not.mpr hu), if_neg (not_not.mpr hu)]
              -- an end that is equal on both sides ends the comparison, before what is behind is read
              rcases hrest with rfl | ⟨k₁, hk₁, rfl, rfl⟩
              · rw [if_pos hu, if_pos hu]
              · split_ifs
                · rfl
                · exact ih p.2 hk₁
            · rw [if_pos hu, if_pos hu]

end Comparing

/-- How the name compares with the key of the first of the pairs, in the memory that ends with
them. -/
def compared (name : Bytes) (ss : List Bytes) : Except QsFault Int :=
  qs_strncmp (cstr name ++ [NUL]) (laid ss) (cstr name).length

/-- The first pair that compares equal, when no comparison on the way there reads outside. -/
def first (name : Bytes) : List Bytes → Except QsFault (Option Bytes)
  | [] => .ok none
  | s :: ss => do
      if (← compared name (s :: ss)) = 0 then .ok (some s) else first name ss

/-! ## Looking up -/

/-- What stands behind a pair when there are these after it. -/
def behind : List Bytes → UInt8
  | [] => NUL
  | _ :: _ => AMP

private theorem behind_cases (ss : List Bytes) : behind ss = AMP ∨ behind ss = NUL := by
  cases ss with
  | nil => exact .inr rfl
  | cons s ss => exact .inl rfl

theorem laid_behind (s : Bytes) (ss : List Bytes) :
    laid (s :: ss) = s ++ behind ss :: laid ss := by
  cases ss with
  | nil => rfl
  | cons t ss => rfl

private theorem settledAll_behind (s : Bytes) (ss : List Bytes) :
    settledAll (s :: ss) = settled s (behind ss) ++ settledAll ss := by
  cases ss with
  | nil => exact (List.append_nil _).symm
  | cons t ss => rfl

private theorem laid_eq_nil {ss : List Bytes} (hss : ∀ s ∈ ss, IsPair s) :
    laid ss = [] ↔ settledAll ss = [] := by
  cases ss with
  | nil => exact iff_of_true rfl rfl
  | cons s ss =>
      have hlen := settled_length (hss s List.mem_cons_self) (behind ss)
      rw [laid_behind, settledAll_behind]
      refine iff_of_false (fun h => nomatch (List.append_eq_nil_iff.mp h).2) fun h => ?_
      rw [(List.append_eq_nil_iff.mp h).1] at hlen
      nomatch hlen

/-- The comparisons see the keys as they were before the values were decoded. -/
theorem compared_settled (name : Bytes) {ss : List Bytes} (hss : ∀ s ∈ ss, IsPair s)
    (hne : ss ≠ []) : qs_strncmp (cstr name ++ [NUL]) (settledAll ss) (cstr name).length =
      compared name ss := by
  cases ss with
  | nil => exact (hne rfl).elim
  | cons s ss =>
      obtain ⟨hs, hss⟩ := List.forall_mem_cons.mp hss
      have hd : isQsChr (behind ss) = false := by
        rcases behind_cases ss with h | h <;> rw [h] <;> rfl
      rw [compared, laid_behind, settledAll_behind]
      rcases pair_cases hs with hall | ⟨k, c, v, rfl, hk, hc, -⟩
      · rw [settled_key hall, List.append_assoc, List.singleton_append]
        exact qs_strncmp_congr rfl hd (laid_eq_nil hss).symm _ _ hall
      · rw [settled_value hk (not_isQsChr hc), List.append_assoc, List.append_assoc]
        refine qs_strncmp_congr (not_isQsChr hc) (not_isQsChr hc) ?_ _ _ hk
        exact iff_of_false (by simp) (by simp)

private theorem cstr_behind (s z : Bytes) : ∃ z', s ++ NUL :: z = cstr s ++ NUL :: z' := by
  rcases cstr_split s with h | ⟨r, h⟩
  · exact ⟨z, congrArg (· ++ NUL :: z) h⟩
  · refine ⟨r ++ NUL :: z, (congrArg (· ++ NUL :: z) h).trans ?_⟩
    rw [List.append_assoc, List.cons_append]

/-- The text of a pair ends with a NUL, and is the same for every byte that stood behind it. -/
private theorem settled_text {s : Bytes} (hs : IsPair s) (d : UInt8) (z : Bytes) :
    ∃ z', settled s d ++ z = cstr (settled s NUL) ++ NUL :: z' := by
  rcases pair_cases hs with hall | ⟨k, c, v, rfl, hk, hc, -⟩
  · rw [settled_key hall, settled_key hall, cstr_append_nul, List.append_assoc]
    exact cstr_behind s z
  · rw [settled_value hk (not_isQsChr hc), settled_value hk (not_isQsChr hc)]
    have hsplit : ∀ x : Bytes, k ++ (c :: (unescape v ++ NUL :: x)) =
        (k ++ c :: unescape v) ++ NUL :: x := fun x => by
      rw [List.append_assoc, List.cons_append]
    rw [hsplit, hsplit, cstr_append_nul, List.append_assoc, List.cons_append]
    exact cstr_behind _ _

/-- The pointer that is found for a pair shows its value. -/
private theorem shows_value {s : Bytes} (hs : IsPair s) (d : UInt8) (pre z : Bytes) :
    ∃ skip c n, strcspn (pre ++ (settled s d ++ z)) pre.length [EQUALS] = .ok skip ∧
      load (pre ++ (settled s d ++ z)) (pre.length + skip) = .ok c ∧
      strcspn (pre ++ (settled s d ++ z))
        (pre.length + if c = EQUALS then skip + 1 else skip) [] = .ok n ∧
      ((pre ++ (settled s d ++ z)).drop
        (pre.length + if c = EQUALS then skip + 1 else skip)).take n = value s := by
  obtain ⟨z', hz⟩ := settled_text hs d z
  obtain ⟨t, ht⟩ : ∃ t, t = cstr (settled s NUL) := ⟨_, rfl⟩
  have hfree : NUL ∉ t := ht ▸ nul_notMem_cstr _
  have happ := List.takeWhile_append_dropWhile (p := fun c => decide (c ≠ EQUALS)) (l := t)
  obtain ⟨a, ha⟩ : ∃ a, a = t.takeWhile fun c => decide (c ≠ EQUALS) := ⟨_, rfl⟩
  rw [← ha] at happ
  -- the key stops in front of the first `=`
  have hscan : ∀ c ∈ a, c ≠ NUL ∧ c ∉ [EQUALS] := fun c hc => by
    refine ⟨fun h => hfree (h ▸ happ ▸ List.mem_append_left _ hc), ?_⟩
    rw [ha] at hc
    exact fun hm => of_decide_eq_true (List.mem_takeWhile_imp
      (p := fun c => decide (c ≠ EQUALS)) hc) (List.mem_singleton.mp hm)
  rw [value, ← ht, hz, ← ht]
  cases hb : t.dropWhile fun c => decide (c ≠ EQUALS) with
  | nil =>
      -- without `=` the pointer is at the end
      rw [hb, List.append_nil] at happ
      subst happ
      have hload := load_append (pre ++ a) NUL z'
      have hend := @strcspn_append [] [] nofun NUL (.inl rfl) (pre ++ a) z'
      rw [List.append_assoc, List.length_append] at hload
      rw [List.nil_append, List.append_assoc, List.length_append] at hend
      exact ⟨_, _, _, strcspn_append hscan (.inl rfl) pre z', hload, hend, rfl⟩
  | cons e b =>
      -- the pointer is moved behind the `=`, and what is shown ends at the NUL
      have he : e = EQUALS := by
        have hhead := List.head_dropWhile_not (fun c => decide (c ≠ EQUALS)) (l := t)
          (by rw [hb]; exact List.cons_ne_nil e b)
        simpa only [hb, List.head_cons, decide_eq_false_iff_not, not_not] using hhead
      subst he
      rw [hb] at happ
      subst happ
      have hload := load_append (pre ++ a) EQUALS (b ++ NUL :: z')
      have hbfree : ∀ c ∈ b, c ≠ NUL ∧ c ∉ ([] : Bytes) := fun c hc =>
        ⟨fun h => hfree (h ▸ List.mem_append_right _ (List.mem_cons_of_mem _ hc)),
          List.not_mem_nil⟩
      have hend := @strcspn_append [] b hbfree NUL (.inl rfl) (pre ++ (a ++ [EQUALS])) z'
      have hsplit : pre ++ (a ++ EQUALS :: (b ++ NUL :: z')) =
          (pre ++ (a ++ [EQUALS])) ++ (b ++ NUL :: z') := by
        simp only [List.append_assoc, List.singleton_append]
      have hlen : pre.length + (a.length + 1) = (pre ++ (a ++ [EQUALS])).length := by
        simp only [List.length_append, List.length_singleton]
      rw [List.append_assoc, List.length_append] at hload
      rw [List.append_assoc, List.cons_append]
      refine ⟨_, _, b.length, strcspn_append hscan (.inr List.mem_cons_self) pre _, hload, ?_, ?_⟩
      · rw [if_pos rfl, hlen, hsplit]
        exact hend
      · rw [if_pos rfl, hlen, hsplit, List.drop_left, List.take_left]
        rfl

/-- **A lookup takes the first pair that compares equal with the name.** -/
theorem get_laid (name : Bytes) {ss : List Bytes} (hss : ∀ s ∈ ss, IsPair s) (pre : Bytes)
    (n : Nat) : get ⟨some (pre ++ settledAll ss), some (places pre.length ss), n⟩ name =
      (do
        match ← first name ss with
        | none => .error .null
        | some s => .ok (value s)) := by
  -- on the pairs: one that compares unequal is left, and its place with it
  induction ss generalizing pre with
  | nil => rfl
  | cons s ss ih =>
      have hcomp := compared_settled name hss (List.cons_ne_nil s ss)
      obtain ⟨hs, hss⟩ := List.forall_mem_cons.mp hss
      have hrest := ih hss (pre ++ settled s (behind ss))
      have hshow := shows_value hs (behind ss) pre (settledAll ss)
      have hlen : (pre ++ settled s (behind ss)).length = pre.length + s.length + 1 := by
        rw [List.length_append, settled_length hs, Nat.add_assoc]
      rw [hlen, List.append_assoc, ← settledAll_behind] at hrest
      rw [← settledAll_behind] at hshow
      simp only [get, Option.getD_some, places, qs_k2v, List.drop_left, hcomp, first] at hrest ⊢
      cases hc : compared name (s :: ss) with
      | error e => rfl
      | ok r =>
          simp only [bind, Except.bind] at hrest ⊢
          by_cases hr : r = 0
          · rw [if_pos hr, if_pos hr]
            obtain ⟨skip, c, n, hskip, hload, hend, htake⟩ := hshow
            simp only [hskip, hload, hend, htake]
          · rw [if_neg hr, if_neg hr]
            exact hrest

theorem lookup_of_nil {sv : Bytes} (h : pairs sv = []) (name : Bytes) :
    lookup sv name = .ok [] := by
  obtain ⟨url, hnew⟩ := new_of_nil h
  rw [lookup, hnew]
  rfl

theorem lookup_of_pairs {sv : Bytes} (h : pairs sv ≠ [])
    (hle : (pairs sv).length ≤ MAX_KEY_VALUE_PAIRS_COUNT) (name : Bytes) : lookup sv name =
      (do
        match ← first name (pairs sv) with
        | none => .error .null
        | some s => .ok (value s)) := by
  obtain ⟨pre, -, hnew, -⟩ := new_of_pairs h
  rw [lookup, hnew hle, ← get_laid name (fun s hs => isPair_of_mem hs) pre (pairs sv).length]
  rfl

/-! ## Which lookups are safe -/

/-- The text of the key of a pair. -/
def key (s : Bytes) : Bytes := s.takeWhile isQsChr

/-- Some pair of the query has the name as its key, when both are decoded. -/
def Present (sv name : Bytes) : Prop :=
  ∃ s ∈ pairs sv, UrlCodec.decoded (key s) = UrlCodec.decoded (cstr name)

instance (sv name : Bytes) : Decidable (Present sv name) :=
  inferInstanceAs (Decidable (∃ s ∈ pairs sv, _))

/-- Parsing and looking up stay in the array and in the query, and there is nothing under a name
that no pair has. -/
def Guarded (sv name : Bytes) : Prop :=
  ∃ q, new sv = .ok q ∧ q.nparams_ ≤ MAX_KEY_VALUE_PAIRS_COUNT ∧
    ∃ v, q.get name = .ok v ∧ (¬ Present sv name → v = [])

/-- The pair is the first one that compares equal to the name, and the comparisons with those in front
of it read no byte that is not there. -/
def Finds (name t : Bytes) : List Bytes → Prop
  | [] => False
  | s :: ss => compared name (s :: ss) = .ok 0 ∧ s = t ∨
      (∃ r, r ≠ 0 ∧ compared name (s :: ss) = .ok r) ∧ Finds name t ss

private theorem first_eq_some_iff (name t : Bytes) (ss : List Bytes) :
    first name ss = .ok (some t) ↔ Finds name t ss := by
  -- on the pairs, by how the first one compares
  induction ss with
  | nil => exact iff_of_false nofun id
  | cons s ss ih =>
      rw [first, Finds, ← ih]
      cases compared name (s :: ss) with
      | error e =>
          refine iff_of_false nofun ?_
          rintro (⟨h, -⟩ | ⟨⟨r, -, h⟩, -⟩)
          · nomatch h
          · nomatch h
      | ok r =>
          simp only [bind, Except.bind, Except.ok.injEq]
          by_cases hr : r = 0
          · rw [if_pos hr, and_iff_right hr, Except.ok.injEq, Option.some.injEq]
            exact (or_iff_left fun ⟨⟨r', hr', heq⟩, _⟩ => hr' (heq.symm.trans hr)).symm
          · rw [if_neg hr, or_iff_right fun h => hr h.1]
            exact (and_iff_right ⟨r, hr, rfl⟩).symm

/-- `=` ends a name for the comparison, but is a part of it. -/
example : ¬ Present (str "?a=1") (str "a=b") ∧
    (lookup (str "?a=1") (str "a=b")).toOption = some (str "1") := by
  decide

end QueryString

end Suil.Http
