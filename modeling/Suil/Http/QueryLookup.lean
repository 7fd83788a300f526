import Mathlib
import Suil.Http.QueryString

set_option autoImplicit false

/-! # Values of a query

A client writes names and values with percent sequences for the bytes that have a meaning in a
query. `gives_iff` says under which names, and with which values, `QueryString::get` gives them
back. -/

namespace Suil.Http.QueryString

open UrlCodec (isHexChar hexValue hexchars)

/-! ## What is written -/

/-- The bytes that stand for something else, or for nothing. -/
def reserved : Bytes := [PERCENT, PLUS, EQUALS, HASH, AMP, NUL]

/-- A text for a byte. -/
inductive Escapes : UInt8 → Bytes → Prop
  | byte {c : UInt8} (h : c ∉ reserved) : Escapes c [c]
  | plus : Escapes SP [PLUS]
  | percent {h l : UInt8} (hh : isHexChar h = true) (hl : isHexChar l = true) :
      Escapes (hexByte h l) [PERCENT, h, l]

/-- A text for a string. -/
inductive Escaped : Bytes → Bytes → Prop
  | nil : Escaped [] []
  | cons {c : UInt8} {s p t : Bytes} (h : Escapes c p) (ht : Escaped s t) : Escaped (c :: s) (p ++ t)

/-- The query with these keys and values. -/
def Asks (ps : List (Bytes × Bytes)) (sv : Bytes) : Prop :=
  ∃ ts : List (Bytes × Bytes),
    List.Forall₂ (fun p t => Escaped p.1 t.1 ∧ Escaped p.2 t.2) ps ts ∧
      sv = QMARK :: [AMP].intercalate (ts.map fun t => t.1 ++ EQUALS :: t.2)

/-- For every query in which a pair with the key is the first, its value is found; without such a
pair there is none. -/
def Answers (k v : Bytes) : Prop :=
  ∀ ps sv, (∀ p ∈ ps, p.1 ≠ []) → ps.length ≤ MAX_KEY_VALUE_PAIRS_COUNT → Asks ps sv →
    (ps.find? (fun p => p.1 = k) = some (k, v) → lookup sv k = .ok v) ∧
      (ps.find? (fun p => p.1 = k) = none → ∀ w, lookup sv k = .ok w → w = [])

/-- Every byte of the name stands for itself. -/
def Plain (k : Bytes) : Prop := ∀ c ∈ k, c ∉ reserved

instance (k : Bytes) : Decidable (Plain k) := inferInstanceAs (Decidable (∀ c ∈ k, c ∉ reserved))

/-! ## Texts -/

private theorem isQsChr_of_hex {c : UInt8} (h : isHexChar c = true) : isQsChr c = true := by
  by_contra hc
  rw [not_isHexChar (Bool.not_eq_true _ ▸ hc)] at h
  nomatch h

private theorem not_reserved {c : UInt8} (h : c ∉ reserved) :
    isQsChr c = true ∧ c ≠ PERCENT ∧ c ≠ PLUS := by
  simp only [reserved, List.mem_cons, List.not_mem_nil, or_false, not_or] at h
  obtain ⟨hpercent, hplus, heq, hhash, hamp, hnul⟩ := h
  exact ⟨isQsChr_eq.mpr ⟨heq, hhash, hamp, hnul⟩, hpercent, hplus⟩

private theorem Escapes.chars {c : UInt8} {p : Bytes} (h : Escapes c p) :
    ∀ x ∈ p, isQsChr x = true := by
  cases h with
  | byte h => exact fun x hx => List.mem_singleton.mp hx ▸ (not_reserved h).1
  | plus => exact fun x hx => List.mem_singleton.mp hx ▸ rfl
  | percent hh hl =>
      intro x hx
      simp only [List.mem_cons, List.not_mem_nil, or_false] at hx
      rcases hx with rfl | rfl | rfl
      · rfl
      · exact isQsChr_of_hex hh
      · exact isQsChr_of_hex hl

private theorem Escaped.chars {s t : Bytes} (h : Escaped s t) : ∀ x ∈ t, isQsChr x = true := by
  induction h with
  | nil => exact nofun
  | cons h _ ih => exact fun x hx => (List.mem_append.mp hx).elim (h.chars x) (ih x)

/-- A text says what it is written for. -/
private theorem Escaped.unescape_eq {s t : Bytes} (h : Escaped s t) : unescape t = s := by
  induction h with
  | nil => rfl
  | cons h ht ih =>
      cases h with
      | byte hc =>
          obtain ⟨hqs, hpercent, hplus⟩ := not_reserved hc
          rw [List.singleton_append, unescape.eq_def]
          simp only [hqs, Bool.not_true, Bool.false_eq_true, if_false, if_neg hplus,
            if_neg hpercent, ih]
      | plus =>
          rw [List.singleton_append, unescape.eq_def]
          exact congrArg (SP :: ·) ih
      | percent hh hl =>
          have hqs : isQsChr PERCENT = true := rfl
          have hne : PERCENT ≠ PLUS := by decide
          simp only [List.cons_append, List.nil_append, unescape, hqs, Bool.not_true,
            Bool.false_eq_true, if_false, if_neg hne, if_true, hh, hl, Bool.and_self, ih]

/-- A byte is read back by a comparison, and nothing more. -/
private theorem Escapes.symbol_eq {c : UInt8} {p : Bytes} (h : Escapes c p) (z : Bytes) :
    symbol (p ++ z) = .ok (c, z) := by
  cases h with
  | byte hc =>
      obtain ⟨hqs, hpercent, hplus⟩ := not_reserved hc
      rw [List.singleton_append, symbol_byte hqs hpercent, UrlCodec.single, if_neg hplus]
  | plus =>
      rw [List.singleton_append, symbol_byte rfl (by decide)]
      rfl
  | percent hh hl =>
      show symbol (PERCENT :: _ :: _ :: z) = _
      rw [symbol_percent, hh, hl]
      rfl

private theorem Escapes.head {c : UInt8} {p : Bytes} (h : Escapes c p) (z : Bytes) :
    ∃ x, load (p ++ z) 0 = .ok x ∧ isQsChr x = true := by
  cases h with
  | byte hc => exact ⟨_, rfl, (not_reserved hc).1⟩
  | plus => exact ⟨PLUS, rfl, rfl⟩
  | percent => exact ⟨PERCENT, rfl, rfl⟩

/-! ## Comparing with a text -/

private theorem single_of_plain {c : UInt8} (h : c ∉ reserved) : UrlCodec.single c = c :=
  if_neg (not_reserved h).2.2

private theorem ne_nul_of_plain {c : UInt8} (h : c ∉ reserved) : c ≠ NUL :=
  (isQsChr_eq.mp (not_reserved h).1).2.2.2

private theorem sub_ne_zero {a b : UInt8} (h : a ≠ b) : (a.toNat : Int) - b.toNat ≠ 0 := fun heq =>
  h (UInt8.toNat_inj.mp (by omega))

/-- A name of plain bytes compares equal with its own texts only. -/
theorem compare_plain {name : Bytes} (hname : Plain name) {k t : Bytes} (ht : Escaped k t)
    (x : Bytes) : ∃ r, qs_strncmp (name ++ [NUL]) (t ++ EQUALS :: x) name.length = .ok r ∧
      (r = 0 ↔ name = k) := by
  induction name generalizing k t with
  | nil =>
      cases ht with
      | nil => exact ⟨0, rfl, iff_of_true rfl rfl⟩
      | cons h ht =>
          obtain ⟨y, hy, hqs⟩ := h.head (_ ++ EQUALS :: x)
          refine ⟨-1, ?_, iff_of_false (by decide) (List.cons_ne_nil _ _).symm⟩
          rw [List.append_assoc, List.length_nil, qs_strncmp, hy]
          simp only [bind, Except.bind, hqs, if_true]
  | cons a name ih =>
      obtain ⟨ha, hname⟩ := List.forall_mem_cons.mp hname
      obtain ⟨hqs, hpercent, -⟩ := not_reserved ha
      have hnul := ne_nul_of_plain ha
      have hs : symbol (a :: (name ++ [NUL])) = .ok (a, name ++ [NUL]) := by
        rw [symbol_byte hqs hpercent, single_of_plain ha]
      cases ht with
      | nil =>
          refine ⟨_, ?_, iff_of_false (sub_ne_zero hnul) (List.cons_ne_nil _ _)⟩
          rw [List.cons_append, List.length_cons, List.nil_append, qs_strncmp, hs,
            symbol_end rfl]
          simp only [bind, Except.bind]
          exact if_pos hnul
      | @cons c k p t h ht =>
          rw [List.cons_append, List.length_cons, List.append_assoc, qs_strncmp, hs, h.symbol_eq]
          simp only [bind, Except.bind]
          by_cases hac : a = c
          · obtain ⟨r, hr, hiff⟩ := ih hname ht
            rw [if_neg (not_not.mpr hac), if_neg hnul]
            refine ⟨r, hr, hiff.trans ?_⟩
            rw [hac, List.cons.injEq, and_iff_right rfl]
          · rw [if_pos hac]
            refine ⟨_, rfl, iff_of_false (sub_ne_zero hac) fun h => hac (List.cons.inj h).1⟩

/-- Both sides end when they compare equal at the end of one of them. -/
private theorem compare_ended {s x : Bytes} {k t : Bytes} {n : Nat} (ht : Escaped k t)
    (h : qs_strncmp s (t ++ EQUALS :: x) (n + 1) = .ok 0) {r : Bytes}
    (hs : symbol s = .ok (NUL, r)) : cstr k = [] := by
  cases ht with
  | nil => rfl
  | @cons c k p t hc ht =>
      by_cases hnul : c = NUL
      · rw [hnul]
        rfl
      · rw [List.append_assoc, qs_strncmp, hs, hc.symbol_eq] at h
        simp only [bind, Except.bind, if_pos (Ne.symm hnul), Except.ok.injEq] at h
        exact (sub_ne_zero (Ne.symm hnul) h).elim

/-- A comparison goes on with what is left of the name, or it has met the end of it. -/
private theorem symbol_name (u : Bytes) : symbol (u ++ [NUL]) = .error .outside ∨
    ∃ a r, symbol (u ++ [NUL]) = .ok (a, r) ∧
      (a = NUL ∨ ∃ u', r = u' ++ [NUL] ∧ u'.length < u.length) := by
  match u with
  | [] => exact .inr ⟨NUL, [], symbol_end rfl, .inl rfl⟩
  | c :: u =>
      by_cases hqs : isQsChr c = true
      · by_cases hpercent : c = PERCENT
        · subst hpercent
          match u with
          | [] => exact .inl rfl
          | [h] =>
              refine .inr ⟨NUL, [], ?_, .inl rfl⟩
              show symbol (PERCENT :: h :: NUL :: []) = _
              rw [symbol_percent, not_isHexChar (d := NUL) rfl, Bool.and_false]
              rfl
          | h :: l :: u =>
              exact .inr ⟨_, _, symbol_percent h l _, .inr ⟨u, rfl, by simp only [List.length_cons]; omega⟩⟩
        · exact .inr ⟨_, _, symbol_byte hqs hpercent _, .inr ⟨u, rfl, Nat.lt_succ_self _⟩⟩
      · exact .inr ⟨NUL, _, symbol_end (Bool.not_eq_true _ ▸ hqs), .inl rfl⟩

/-- Every byte of what compares equal takes at least one byte of the name. -/
private theorem compare_length {u : Bytes} {k t : Bytes} (ht : Escaped k t) {n : Nat} (x : Bytes)
    (h : qs_strncmp (u ++ [NUL]) (t ++ EQUALS :: x) n = .ok 0) :
    (cstr k).length ≤ u.length := by
  induction n generalizing u k t with
  | zero =>
      cases ht with
      | nil => exact Nat.zero_le _
      | cons hc ht =>
          obtain ⟨y, hy, hqs⟩ := hc.head (_ ++ EQUALS :: x)
          rw [List.append_assoc, qs_strncmp, hy] at h
          simp only [bind, Except.bind, hqs, if_true] at h
          cases h
  | succ n ih =>
      rcases symbol_name u with hs | ⟨a, r, hs, hrest⟩
      · rw [qs_strncmp, hs] at h
        cases h
      · by_cases hnul : a = NUL
        · rw [compare_ended ht h (hnul ▸ hs)]
          exact Nat.zero_le _
        · obtain ⟨u', rfl, hlt⟩ := hrest.resolve_left hnul
          cases ht with
          | nil => exact Nat.zero_le _
          | @cons c k p t hc ht =>
              rw [List.append_assoc, qs_strncmp, hs, hc.symbol_eq] at h
              simp only [bind, Except.bind] at h
              by_cases hac : a = c
              · rw [if_neg (not_not.mpr hac), if_neg hnul] at h
                have hle := ih ht h
                rw [← hac, cstr_cons hnul, List.length_cons]
                omega
              · rw [if_pos hac, Except.ok.injEq] at h
                exact (sub_ne_zero hac h).elim

/-- Only a name of plain bytes compares equal with its own text. -/
private theorem plain_of_compare {k t : Bytes} (ht : Escaped k t) (x : Bytes)
    (h : qs_strncmp (cstr k ++ [NUL]) (t ++ EQUALS :: x) (cstr k).length = .ok 0) : Plain k := by
  -- on the text of the name, byte by byte
  induction ht with
  | nil => exact List.forall_mem_nil _
  | @cons c k p t hc ht ih =>
      by_cases hnul : c = NUL
      · -- the name ends in front of a byte that its text has
        obtain ⟨y, hy, hqs⟩ := hc.head (t ++ EQUALS :: x)
        rw [hnul, cstr_nul, List.append_assoc, List.length_nil, qs_strncmp, hy] at h
        simp only [bind, Except.bind, hqs, if_true] at h
        cases h
      rw [cstr_cons hnul, List.append_assoc, List.length_cons, qs_strncmp,
        hc.symbol_eq] at h
      -- a byte that ends a key is escaped in the text but not in the name
      by_cases hqs : isQsChr c = true
      · by_cases hpercent : c = PERCENT
        · -- a percent sequence takes more of the name than of its text
          subst hpercent
          rcases hk : cstr k with _ | ⟨e, _ | ⟨l, u⟩⟩
          · rw [hk] at h
            cases h
          · have hs : symbol (PERCENT :: e :: [NUL]) = .ok (NUL, []) := by
              rw [symbol_percent, not_isHexChar (d := NUL) rfl, Bool.and_false]
              rfl
            rw [hk] at h
            simp only [List.cons_append, List.nil_append, hs, bind, Except.bind] at h
            rw [if_pos (by decide), Except.ok.injEq] at h
            exact absurd h (by decide)
          · rw [hk, List.cons_append, List.cons_append, List.cons_append, symbol_percent] at h
            generalize (if isHexChar e && isHexChar l then hexByte e l else NUL) = b at h
            simp only [bind, Except.bind] at h
            split_ifs at h with hne hzero
            · exact (sub_ne_zero hne (Except.ok.inj h)).elim
            · exact (hnul ((not_not.mp hne).symm.trans hzero)).elim
            · have hle := compare_length ht x h
              rw [hk, List.length_cons, List.length_cons] at hle
              omega
        · rw [List.cons_append, symbol_byte hqs hpercent] at h
          simp only [bind, Except.bind] at h
          by_cases hplus : c = PLUS
          · subst hplus
            cases h
          · rw [UrlCodec.single, if_neg hplus, if_neg (not_not.mpr rfl), if_neg hnul] at h
            refine List.forall_mem_cons.mpr ⟨?_, ih h⟩
            obtain ⟨heq, hhash, hamp, -⟩ := isQsChr_eq.mp hqs
            simp [reserved, heq, hhash, hamp, hnul, hpercent, hplus]
      · rw [List.cons_append, symbol_end (Bool.not_eq_true _ ▸ hqs)] at h
        simp only [bind, Except.bind, if_pos (Ne.symm hnul), Except.ok.injEq] at h
        exact (sub_ne_zero (Ne.symm hnul) h).elim

/-! ## Looking up what is written -/

/-- The text of a pair. -/
private def texts (ts : List (Bytes × Bytes)) : List Bytes := ts.map fun t => t.1 ++ EQUALS :: t.2

private theorem not_mem_text {p t : Bytes × Bytes} (h : Escaped p.1 t.1 ∧ Escaped p.2 t.2)
    {c : UInt8} (hc : isQsChr c = false) (hne : c ≠ EQUALS) : c ∉ t.1 ++ EQUALS :: t.2 := by
  have hnot : ∀ {s u : Bytes}, Escaped s u → c ∉ u := fun hu hm => by
    rw [hu.chars c hm] at hc
    nomatch hc
  intro hm
  rcases List.mem_append.mp hm with hm | hm
  · exact hnot h.1 hm
  · exact (List.mem_cons.mp hm).elim hne (hnot h.2)

private theorem not_mem_texts {ps ts : List (Bytes × Bytes)}
    (h : List.Forall₂ (fun p t => Escaped p.1 t.1 ∧ Escaped p.2 t.2) ps ts) :
    ∀ s ∈ texts ts, NUL ∉ s ∧ AMP ∉ s := by
  induction h with
  | nil => exact nofun
  | cons h _ ih =>
      exact List.forall_mem_cons.mpr
        ⟨⟨not_mem_text h rfl (by decide), not_mem_text h rfl (by decide)⟩, ih⟩

private theorem nul_notMem_intercalate {ss : List Bytes} (h : ∀ s ∈ ss, NUL ∉ s ∧ AMP ∉ s) :
    NUL ∉ [AMP].intercalate ss := by
  induction ss with
  | nil => exact List.not_mem_nil
  | cons s ss ih =>
      obtain ⟨hs, hss⟩ := List.forall_mem_cons.mp h
      cases ss with
      | nil =>
          rw [List.intercalate_singleton]
          exact hs.1
      | cons t ss =>
          rw [List.intercalate_cons_cons, List.mem_append, List.mem_append, not_or, not_or]
          exact ⟨⟨hs.1, by decide⟩, ih hss⟩

/-- The pairs are those that are written; with none of them there is an empty one. -/
private theorem pairs_written {ps ts : List (Bytes × Bytes)}
    (h : List.Forall₂ (fun p t => Escaped p.1 t.1 ∧ Escaped p.2 t.2) ps ts) :
    pairs (QMARK :: [AMP].intercalate (texts ts)) = if ps = [] then [[]] else texts ts := by
  have hfree := not_mem_texts h
  have hnul := nul_notMem_intercalate hfree
  have hcstr : cstr (QMARK :: [AMP].intercalate (texts ts)) = QMARK :: [AMP].intercalate (texts ts) := by
    refine List.takeWhile_eq_self_iff.mpr fun x hx => decide_eq_true ?_
    rcases List.mem_cons.mp hx with rfl | hx
    · decide
    · exact fun heq => hnul (heq ▸ hx)
  have hpairs : pairs (QMARK :: [AMP].intercalate (texts ts)) =
      ([AMP].intercalate (texts ts)).splitOn AMP := by
    rw [pairs, hcstr, List.dropWhile_cons, if_neg (by decide)]
  rw [hpairs]
  cases h with
  | nil => rfl
  | cons h ht => exact List.splitOn_intercalate AMP (fun s hs => (hfree s hs).2) (List.cons_ne_nil _ _)

private theorem value_written {k v kt vt : Bytes} (hk : Escaped k kt) (hv : Escaped v vt) :
    value (kt ++ EQUALS :: vt) = cstr v := by
  have hne : ∀ x ∈ kt, x ≠ NUL ∧ x ≠ EQUALS := fun x hx =>
    ⟨(isQsChr_eq.mp (hk.chars x hx)).2.2.2, (isQsChr_eq.mp (hk.chars x hx)).1⟩
  have hsplit : kt ++ (EQUALS :: (unescape vt ++ NUL :: (vt ++ [NUL]).drop
      ((unescape vt).length + 1))) = (kt ++ EQUALS :: unescape vt) ++ NUL :: (vt ++ [NUL]).drop
        ((unescape vt).length + 1) := by
    rw [List.append_assoc, List.cons_append]
  have hcstr : cstr (kt ++ EQUALS :: v) = kt ++ EQUALS :: cstr v := by
    rw [cstr, List.takeWhile_append_of_pos fun x hx => decide_eq_true (hne x hx).1]
    exact congrArg (kt ++ ·) (cstr_cons (by decide) v)
  rw [value, settled_value hk.chars rfl, hsplit, cstr_append_nul, hv.unescape_eq, hcstr,
    List.dropWhile_append_of_pos fun x hx => decide_eq_true (hne x hx).2]
  rfl

private theorem compared_written (name : Bytes) (kt vt : Bytes) (ss : List Bytes) :
    ∃ x, compared name ((kt ++ EQUALS :: vt) :: ss) =
      qs_strncmp (cstr name ++ [NUL]) (kt ++ EQUALS :: x) (cstr name).length := by
  rw [compared, laid_behind, List.append_assoc]
  exact ⟨_, rfl⟩

/-- A name of plain bytes finds the first pair with this key. -/
private theorem first_written {k : Bytes} (hk : Plain k) {ps ts : List (Bytes × Bytes)}
    (h : List.Forall₂ (fun p t => Escaped p.1 t.1 ∧ Escaped p.2 t.2) ps ts) :
    match ps.find? (fun p => p.1 = k) with
    | none => first k (texts ts) = .ok none
    | some p => ∃ s, first k (texts ts) = .ok (some s) ∧ value s = cstr p.2 := by
  have hcstr : cstr k = k := List.takeWhile_eq_self_iff.mpr fun c hc =>
    decide_eq_true (ne_nul_of_plain (hk c hc))
  induction h with
  | nil => rfl
  | @cons p t ps ts h ht ih =>
      obtain ⟨x, hx⟩ := compared_written k t.1 t.2 (texts ts)
      obtain ⟨r, hr, hiff⟩ := compare_plain hk h.1 x
      rw [hcstr, hr] at hx
      rw [texts, List.map_cons, first, ← texts, hx]
      simp only [bind, Except.bind, List.find?_cons]
      by_cases hp : p.1 = k
      · rw [if_pos (hiff.mpr hp.symm), decide_eq_true hp]
        exact ⟨_, rfl, value_written h.1 h.2⟩
      · rw [if_neg (mt hiff.mp (Ne.symm hp)), decide_eq_false hp]
        exact ih

/-- An empty query has an empty pair, which no name of a byte or more finds. -/
private theorem first_empty {k : Bytes} (hk : Plain k) (hne : k ≠ []) :
    first k [[]] = .ok none := by
  have hcstr : cstr k = k := List.takeWhile_eq_self_iff.mpr fun c hc =>
    decide_eq_true (ne_nul_of_plain (hk c hc))
  obtain ⟨c, s, rfl⟩ := List.exists_cons_of_ne_nil hne
  obtain ⟨hc, -⟩ := List.forall_mem_cons.mp hk
  obtain ⟨hqs, hpercent, -⟩ := not_reserved hc
  have hcomp : compared (c :: s) [[]] = .ok (c.toNat - NUL.toNat) := by
    rw [compared, hcstr, List.cons_append, List.length_cons, qs_strncmp, symbol_byte hqs hpercent,
      single_of_plain hc]
    simp only [laid, List.nil_append, symbol_end (d := NUL) rfl, bind, Except.bind]
    exact if_pos (ne_nul_of_plain hc)
  rw [first, hcomp]
  simp only [bind, Except.bind]
  rw [if_neg (sub_ne_zero (ne_nul_of_plain hc))]
  rfl

set_option maxRecDepth 8000 in
private theorem hexByte_digits (c : UInt8) :
    isHexChar (hexchars.getD (c.toNat / 16) 0) = true ∧
      isHexChar (hexchars.getD (c.toNat % 16) 0) = true ∧
      hexByte (hexchars.getD (c.toNat / 16) 0) (hexchars.getD (c.toNat % 16) 0) = c :=
  forall_byte (P := fun c => isHexChar (hexchars.getD (c.toNat / 16) 0) = true ∧
      isHexChar (hexchars.getD (c.toNat % 16) 0) = true ∧
      hexByte (hexchars.getD (c.toNat / 16) 0) (hexchars.getD (c.toNat % 16) 0) = c) (by decide) c

/-- Every string has a text. -/
theorem exists_escaped (s : Bytes) : ∃ t, Escaped s t := by
  induction s with
  | nil => exact ⟨[], .nil⟩
  | cons c s ih =>
      obtain ⟨t, ht⟩ := ih
      obtain ⟨hh, hl, hc⟩ := hexByte_digits c
      have hescapes := Escapes.percent hh hl
      rw [hc] at hescapes
      exact ⟨_, .cons hescapes ht⟩

/-- **A query gives back the values of exactly the keys in which every byte stands for itself, and
of them the values without a NUL.** -/
theorem gives_iff (k v : Bytes) (hne : k ≠ []) : Answers k v ↔ Plain k ∧ NUL ∉ v := by
  constructor
  · intro h
    obtain ⟨kt, hkt⟩ := exists_escaped k
    obtain ⟨vt, hvt⟩ := exists_escaped v
    -- one pair under the key, with nothing behind it
    have hwritten : List.Forall₂ (fun p t : Bytes × Bytes => Escaped p.1 t.1 ∧ Escaped p.2 t.2)
        [(k, v)] [(kt, vt)] := .cons ⟨hkt, hvt⟩ .nil
    have hpairs := pairs_written hwritten
    rw [if_neg (List.cons_ne_nil _ _)] at hpairs
    obtain ⟨x, hx⟩ := compared_written k kt vt []
    have hnil : pairs (QMARK :: [AMP].intercalate (texts [(kt, vt)])) ≠ [] := by
      rw [hpairs]
      exact List.cons_ne_nil _ _
    have hcount : (pairs (QMARK :: [AMP].intercalate (texts [(kt, vt)]))).length ≤
        MAX_KEY_VALUE_PAIRS_COUNT := by
      rw [hpairs, MAX_KEY_VALUE_PAIRS_COUNT, texts, List.map_singleton, List.length_singleton]
      omega
    have hkeys : ∀ p ∈ [(k, v)], p.1 ≠ [] := fun p hp => List.mem_singleton.mp hp ▸ hne
    have hone : [(k, v)].length ≤ MAX_KEY_VALUE_PAIRS_COUNT := by
      rw [List.length_singleton, MAX_KEY_VALUE_PAIRS_COUNT]
      omega
    have hlookup : lookup (QMARK :: [AMP].intercalate (texts [(kt, vt)])) k = .ok v :=
      (h [(k, v)] _ hkeys hone ⟨_, hwritten, rfl⟩).1 (by simp)
    rw [lookup_of_pairs hnil hcount, hpairs, texts, List.map_singleton, first, hx] at hlookup
    cases hc : qs_strncmp (cstr k ++ [NUL]) (kt ++ EQUALS :: x) (cstr k).length with
    | error e =>
        rw [hc] at hlookup
        cases hlookup
    | ok r =>
        rw [hc] at hlookup
        simp only [bind, Except.bind, first] at hlookup
        -- only the comparison of the key with its own text can have found the pair
        by_cases hr : r = 0
        · subst hr
          have hplain := plain_of_compare hkt x hc
          rw [if_pos rfl] at hlookup
          simp only [value_written hkt hvt, Except.ok.injEq] at hlookup
          exact ⟨hplain, hlookup ▸ nul_notMem_cstr v⟩
        · rw [if_neg hr] at hlookup
          cases hlookup
  · rintro ⟨hk, hv⟩ ps sv - hle ⟨ts, hwritten, rfl⟩
    have hpairs := pairs_written hwritten
    have hlen := hwritten.length_eq
    have hcstr : cstr v = v := List.takeWhile_eq_self_iff.mpr fun c hc =>
      decide_eq_true fun h => hv (h ▸ hc)
    -- without pairs there is the empty text behind the mark, and no plain key compares equal to it
    by_cases hps : ps = []
    · subst hps
      rw [if_pos rfl] at hpairs
      have hnil : pairs (QMARK :: [AMP].intercalate (texts ts)) ≠ [] := by
        rw [hpairs]
        exact List.cons_ne_nil _ _
      have hcount : (pairs (QMARK :: [AMP].intercalate (texts ts))).length ≤
          MAX_KEY_VALUE_PAIRS_COUNT := by
        rw [hpairs, MAX_KEY_VALUE_PAIRS_COUNT, List.length_singleton]
        omega
      have hlookup := lookup_of_pairs hnil hcount k
      rw [hpairs, first_empty hk hne] at hlookup
      refine ⟨fun h => (by cases h), fun _ w hw => ?_⟩
      cases hlookup.symm.trans hw
    · rw [if_neg hps] at hpairs
      have hts : texts ts ≠ [] := by
        rw [texts, Ne, List.map_eq_nil_iff]
        rintro rfl
        exact hps (List.length_eq_zero_iff.mp hlen)
      have hcount : (pairs (QMARK :: [AMP].intercalate (texts ts))).length ≤
          MAX_KEY_VALUE_PAIRS_COUNT := by
        rw [hpairs, texts, List.length_map, ← hlen]
        exact hle
      have hlookup := lookup_of_pairs (hpairs.symm ▸ hts) hcount k
      -- a plain key compares equal to its own text and to no other
      have hfirst := first_written hk hwritten
      rw [hpairs] at hlookup
      constructor
      · intro hfind
        rw [hfind] at hfirst
        obtain ⟨s, hs, hvalue⟩ := hfirst
        rw [hs] at hlookup
        refine hlookup.trans ?_
        simp only [bind, Except.bind, hvalue, hcstr]
      · intro hfind w hw
        rw [hfind] at hfirst
        rw [hfirst] at hlookup
        cases hlookup.symm.trans hw

set_option maxRecDepth 2000 in
theorem answers_page : str "page" ≠ [] ∧ Answers (str "page") (str "2+2") :=
  ⟨by decide, (gives_iff _ _ (by decide)).mpr (by decide)⟩

set_option maxRecDepth 2000 in
/-- A name that goes on behind a byte that ends a key finds the pairs whose key ends there. -/
theorem not_answers_longer : ¬ Answers (str "a=b") (str "2") := by
  intro h
  have hbyte : ∀ c : UInt8, c ∉ reserved → Escaped [c] [c] := fun c hc => .cons (.byte hc) .nil
  have hwritten : Asks [(str "a", str "1")] (str "?a=1") :=
    ⟨[(str "a", str "1")], .cons ⟨hbyte 97 (by decide), hbyte 49 (by decide)⟩ .nil, rfl⟩
  have hlookup : lookup (str "?a=1") (str "a=b") = .ok (str "1") := by decide
  have hnone := (h _ _ (by decide) (by decide) hwritten).2 (by decide) _ hlookup
  exact absurd hnone (by decide)

end Suil.Http.QueryString
