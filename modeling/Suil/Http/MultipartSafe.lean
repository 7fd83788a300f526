import Suil.Http.Multipart

set_option autoImplicit false

/-! # When the multipart parser stays inside the body

Nothing ends the body in the buffer: the parser is safe only while it meets what it looks for. When
the byte behind the body happens to be a NUL, two ways out of the buffer are left: a header whose
colon nothing but spaces follows, and a disposition with a `name` so close to the end that
the quote behind it would lie outside. `parse_safe_iff` says that there are no others. -/

namespace Suil.Http.Multipart

open StepMachine PState

/-! ## Strings that end in a NUL -/

section Strings

variable {s : Bytes} {p : Nat}

private theorem chr_ok (c : UInt8) (h : NUL ∈ s) : ∃ r, chr c s p = .ok r := by
  induction s generalizing p with
  | nil => cases h
  | cons b s ih =>
      rw [chr]
      split_ifs with hb hnul
      · exact ⟨_, rfl⟩
      · exact ⟨_, rfl⟩
      · exact ih ((List.mem_cons.mp h).resolve_left (fun h => hnul h.symm))

private theorem chr_some {c : UInt8} {q : Nat} (h : chr c s p = .ok (some q)) :
    ∃ t r, s = t ++ c :: r ∧ q = p + t.length ∧ c ∉ t ∧ NUL ∉ t := by
  induction s generalizing p with
  | nil => cases h
  | cons b s ih =>
      rw [chr] at h
      split_ifs at h with hb hnul
      · cases h
        exact ⟨[], s, by rw [hb, List.nil_append], rfl, List.not_mem_nil, List.not_mem_nil⟩
      · cases h
      · obtain ⟨t, r, hs, hq, hc, hn⟩ := ih h
        refine ⟨b :: t, r, by rw [hs, List.cons_append], by rw [List.length_cons]; omega, ?_, ?_⟩
        · exact List.not_mem_cons_of_ne_of_not_mem (Ne.symm hb) hc
        · exact List.not_mem_cons_of_ne_of_not_mem (Ne.symm hnul) hn

private theorem cmp_ok (f : UInt8 → UInt8) (n : Nat) (t : Bytes) (h : NUL ∈ s) :
    ∃ r, cmp f n s t = .ok r := by
  induction n generalizing s t with
  | zero => exact ⟨true, by rw [cmp]⟩
  | succ n ih =>
      cases s with
      | nil => cases h
      | cons b s =>
          rw [cmp]
          split_ifs with hne hnul
          · exact ⟨_, rfl⟩
          · exact ⟨_, rfl⟩
          · exact ih t.tail ((List.mem_cons.mp h).resolve_left (fun h => hnul h.symm))

private theorem cstr_ok (h : NUL ∈ s) : ∃ r, cstr s = .ok r := by
  induction s with
  | nil => cases h
  | cons b s ih =>
      rw [cstr]
      split_ifs with hnul
      · exact ⟨_, rfl⟩
      · obtain ⟨r, hr⟩ := ih ((List.mem_cons.mp h).resolve_left (fun h => hnul h.symm))
        exact ⟨b :: r, by rw [hr]; rfl⟩

private theorem eat_space_ok (h : NUL ∈ s) :
    ∃ k t, eat_space s p = .ok (p + k) ∧ s = List.replicate k SP ++ t ∧ t ≠ [] ∧
      t.head? ≠ some SP := by
  induction s generalizing p with
  | nil => cases h
  | cons b s ih =>
      rw [eat_space]
      split_ifs with hb
      · have hmem : NUL ∈ s := (List.mem_cons.mp h).resolve_left (fun h => by
          rw [hb] at h; exact absurd h (by decide))
        obtain ⟨k, t, hk, hs, ht, hhead⟩ := ih (p := p + 1) hmem
        refine ⟨k + 1, t, ?_, ?_, ht, hhead⟩
        · rw [hk, Nat.add_assoc, Nat.add_comm 1 k]
        · rw [List.replicate_succ, List.cons_append, ← hs, hb]
      · exact ⟨0, b :: s, rfl, rfl, List.cons_ne_nil b s, fun h => hb (Option.some.inj h)⟩

private theorem goto_cr_ok {e : Nat} (he : e + 1 = p + s.length) (h : s ≠ []) :
    ∃ k, goto_cr e s p = .ok (p + k) ∧ p + k ≤ e := by
  induction s generalizing p with
  | nil => exact absurd rfl h
  | cons b s ih =>
      rw [List.length_cons] at he
      rw [goto_cr]
      split_ifs with hb
      · obtain ⟨k, hk, hle⟩ := ih (p := p + 1) (by omega) (by
          intro hs
          rw [hs, List.length_nil] at he
          omega)
        exact ⟨k + 1, by rw [hk, Nat.add_assoc, Nat.add_comm 1 k], by omega⟩
      · exact ⟨0, rfl, by omega⟩

private theorem goto_chr_ok {e : Nat} (c : UInt8) (he : e + 1 = p + s.length) (h : s ≠ []) :
    ∃ k, goto_chr e c s p = .ok (p + k) ∧ p + k ≤ e := by
  induction s generalizing p with
  | nil => exact absurd rfl h
  | cons b s ih =>
      rw [List.length_cons] at he
      rw [goto_chr]
      by_cases hp : p = e
      · exact ⟨0, if_pos hp, by omega⟩
      · rw [if_neg hp]
        split_ifs with hb
        · obtain ⟨k, hk, hle⟩ := ih (p := p + 1) (by omega) (by
            intro hs
            rw [hs, List.length_nil] at he
            omega)
          exact ⟨k + 1, by rw [hk, Nat.add_assoc, Nat.add_comm 1 k], by omega⟩
        · exact ⟨0, rfl, by omega⟩

end Strings

/-! ## Buffers whose last byte is a NUL -/

/-- The buffer has `n` bytes and a NUL behind them. -/
structure Ends (n : Nat) (buf : Bytes) : Prop where
  length : buf.length = n + 1
  last : buf[n]? = some NUL

section Buffer

variable {n p : Nat} {buf : Bytes}

theorem Ends.mem_drop (h : Ends n buf) (hp : p ≤ n) : NUL ∈ buf.drop p := by
  have hget : (buf.drop p)[n - p]? = some NUL := by
    rw [List.getElem?_drop, Nat.add_sub_cancel' hp]
    exact h.last
  exact List.mem_of_getElem? hget

theorem Ends.load_ok (h : Ends n buf) (hp : p ≤ n) : ∃ c, load buf p = .ok c ∧ buf[p]? = some c := by
  have hlt : p < buf.length := by rw [h.length]; omega
  refine ⟨buf[p], ?_, List.getElem?_eq_getElem hlt⟩
  rw [load, List.getElem?_eq_getElem hlt]

theorem Ends.set (h : Ends n buf) (q : Nat) : Ends n (buf.set q NUL) := by
  constructor
  · rw [List.length_set, h.length]
  · rw [List.getElem?_set]
    split_ifs with hq hlt
    · rfl
    · rw [h.length] at hlt
      omega
    · exact h.last

theorem Ends.clear_ok (h : Ends n buf) (hp : p ≤ n) : clear buf p = .ok (buf.set p NUL) :=
  if_pos (by rw [h.length]; omega)

theorem Ends.lt_of_ne (h : Ends n buf) {c : UInt8} (hget : buf[p]? = some c) (hc : c ≠ NUL) :
    p < n := by
  have hlt : p < n + 1 := by
    rw [← h.length]
    exact (List.getElem?_eq_some_iff.mp hget).1
  have hne : p ≠ n := by
    rintro rfl
    rw [h.last] at hget
    exact hc (Option.some.inj hget).symm
  omega

private theorem Ends.eat_space_le (h : Ends n buf) (hp : p ≤ n) :
    ∃ q, eat_space (buf.drop p) p = .ok q ∧ p ≤ q ∧ q ≤ n := by
  obtain ⟨k, t, hk, hs, ht, -⟩ := eat_space_ok (p := p) (h.mem_drop hp)
  refine ⟨p + k, hk, Nat.le_add_right p k, ?_⟩
  have hlen := congrArg List.length hs
  rw [List.length_drop, h.length, List.length_append, List.length_replicate] at hlen
  have hpos := List.length_pos_iff.mpr ht
  omega

private theorem Ends.goto_cr_le (h : Ends n buf) (hp : p ≤ n) :
    ∃ q, goto_cr n (buf.drop p) p = .ok q ∧ p ≤ q ∧ q ≤ n := by
  have hlen : (buf.drop p).length = n + 1 - p := by rw [List.length_drop, h.length]
  obtain ⟨k, hk, hle⟩ := goto_cr_ok (s := buf.drop p) (p := p) (e := n) (by omega) (by
    intro hnil
    rw [hnil, List.length_nil] at hlen
    omega)
  exact ⟨p + k, hk, Nat.le_add_right p k, hle⟩

private theorem Ends.goto_chr_le (h : Ends n buf) (c : UInt8) (hp : p ≤ n) :
    ∃ q, goto_chr n c (buf.drop p) p = .ok q ∧ p ≤ q ∧ q ≤ n := by
  have hlen : (buf.drop p).length = n + 1 - p := by rw [List.length_drop, h.length]
  obtain ⟨k, hk, hle⟩ := goto_chr_ok (s := buf.drop p) (p := p) (e := n) c (by omega) (by
    intro hnil
    rw [hnil, List.length_nil] at hlen
    omega)
  exact ⟨p + k, hk, Nat.le_add_right p k, hle⟩

end Buffer

/-! ## Headers -/

/-- The string does not have a colon that only spaces follow up to its end. -/
def HeaderFits (s : Bytes) : Prop :=
  ¬ ∃ t k, s = t ++ COLON :: (List.replicate k SP ++ [NUL]) ∧ COLON ∉ t ∧ NUL ∉ t

/-- What is known of a header in a buffer of `n` bytes. -/
structure HeaderIn (n p : Nat) (h : Header) : Prop where
  ends : Ends n h.buf
  le : p ≤ h.p
  p_le : h.p ≤ n
  f_le : h.f ≤ n
  v_le : h.v ≤ n
  ok : h.ok = true → h.p < n ∧ p < h.p ∧ h.v + 2 ≤ h.p

private theorem get_header_ok {n p : Nat} {buf : Bytes} (h : Ends n buf) (hp : p ≤ n)
    (hfits : HeaderFits (buf.drop p)) : ∃ hd, get_header buf p n = .ok hd ∧ HeaderIn n p hd := by
  obtain ⟨r, hr⟩ := chr_ok (p := p) COLON (h.mem_drop hp)
  cases r with
  | none =>
      refine ⟨{ ok := false, buf := buf, p := p, f := p, v := p }, ?_, ?_⟩
      · simp only [get_header, hr, bind, Except.bind]
      · exact ⟨h, Nat.le_refl p, hp, hp, hp, fun hok => nomatch hok⟩
  | some q =>
      obtain ⟨t, r, hs, hq, hc, hn⟩ := chr_some hr
      have hget : buf[q]? = some COLON := by
        rw [hq, ← List.getElem?_drop, hs, List.getElem?_append_right (Nat.le_refl _),
          Nat.sub_self]
        rfl
      have hqn := h.lt_of_ne hget (by decide)
      have hbuf₁ := h.clear_ok (Nat.le_of_lt hqn)
      have hends := h.set q
      obtain ⟨v, hv, hqv, hvn⟩ := hends.eat_space_le (p := q + 1) hqn
      have hlt : v < n := by
        rcases Nat.lt_or_ge v n with hlt | hge
        · exact hlt
        -- only spaces are left behind the colon
        obtain ⟨k, u, hk, hu, hne, -⟩ := eat_space_ok (p := q + 1) (hends.mem_drop hqn)
        rw [hk] at hv
        cases hv
        have hr : r = (buf.set q NUL).drop (q + 1) := by
          rw [List.drop_set_of_lt (Nat.lt_succ_self q), hq]
          exact (drop_behind hs).symm
        have hlen := congrArg List.length hu
        rw [List.length_drop, hends.length, List.length_append, List.length_replicate] at hlen
        have hone : u.length = 1 := by
          have := List.length_pos_iff.mpr hne
          omega
        obtain ⟨b, rfl⟩ := List.length_eq_one_iff.mp hone
        have hmem := hends.mem_drop (p := q + 1) hqn
        rw [hu, List.mem_append, List.mem_replicate, List.mem_singleton] at hmem
        have hb : b = NUL := by
          rcases hmem with ⟨-, hsp⟩ | hb
          · exact absurd hsp (by decide)
          · exact hb.symm
        exact (hfits ⟨t, k, by rw [hs, hr, hu, hb], hc, hn⟩).elim
      obtain ⟨z, hz, hvz, hzn⟩ := hends.goto_cr_le (p := v + 1) hlt
      obtain ⟨c, hload, hcget⟩ := hends.load_ok hzn
      by_cases hcr : c = CR
      · have hzlt := hends.lt_of_ne hcget (by rw [hcr]; decide)
        obtain ⟨c', hload', hcget'⟩ := hends.load_ok (p := z + 1) hzlt
        refine ⟨{ ok := decide (c' = LF), buf := buf.set q NUL, p := z + 1, f := p, v := v },
          ?_, ?_⟩
        · simp only [get_header, hr, hbuf₁, hv, hz, hload, hload', if_pos hcr, bind, Except.bind]
        · refine ⟨hends, by show p ≤ z + 1; omega, hzlt, hp, hvn, fun hok => ?_⟩
          have hlf : c' = LF := of_decide_eq_true hok
          have := hends.lt_of_ne hcget' (by rw [hlf]; decide)
          exact ⟨this, by show p < z + 1; omega, by show v + 2 ≤ z + 1; omega⟩
      · refine ⟨{ ok := false, buf := buf.set q NUL, p := z, f := p, v := v }, ?_, ?_⟩
        · simp only [get_header, hr, hbuf₁, hv, hz, hload, if_neg hcr, bind, Except.bind]
        · exact ⟨hends, by show p ≤ z; omega, hzn, hp, hvn, fun hok => nomatch hok⟩

/-- The value of a header that does not fit starts at the end, and is looked for behind it. -/
private theorem get_header_overrun {n p : Nat} {buf : Bytes} (h : Ends n buf)
    (hfits : ¬ HeaderFits (buf.drop p)) : ∃ x, get_header buf p n = .error x := by
  obtain ⟨t, k, hs, hc, hn⟩ := not_not.mp hfits
  have hlen := congrArg List.length hs
  rw [List.length_drop, h.length, List.length_append, List.length_cons, List.length_append,
    List.length_replicate, List.length_singleton] at hlen
  have hchr : chr COLON (buf.drop p) p = .ok (some (p + t.length)) := by
    rw [hs]
    exact chr_append hc hn p
  have hclear := h.clear_ok (p := p + t.length) (by omega)
  have hends := h.set (p + t.length)
  have hspace : eat_space ((buf.set (p + t.length) NUL).drop (p + t.length + 1))
      (p + t.length + 1) = .ok (p + t.length + 1 + k) := by
    rw [List.drop_set_of_lt (Nat.lt_succ_self _), drop_behind hs]
    exact eat_space_append k (List.cons_ne_nil _ _) (by decide) _
  have hnil : (buf.set (p + t.length) NUL).drop (p + t.length + 1 + k + 1) = [] :=
    List.drop_eq_nil_of_le (by rw [hends.length]; omega)
  refine ⟨.overrun, ?_⟩
  simp only [get_header, hchr, hclear, hspace, hnil, goto_cr, bind, Except.bind]

/-! ## Dispositions -/

/-- `name="` starts at `q`, as far as the code compares. -/
def IsName (buf : Bytes) (q : Nat) : Prop :=
  cmp toLower 4 (buf.drop q) (str "name=\"") = .ok true

/-- `filename="` starts at `q`, and `name` does not. -/
def IsFilename (buf : Bytes) (q : Nat) : Prop :=
  cmp toLower 4 (buf.drop q) (str "name=\"") = .ok false ∧
    cmp toLower 10 (buf.drop q) (str "filename=\"") = .ok true

/-- The loop of `_get_disposition` does not end at `q`. -/
def Inside (e : Nat) (buf : Bytes) (q : Nat) : Prop :=
  (∃ c, load buf q = .ok c ∧ c ≠ NUL) ∧ q ≠ e

/-- One turn of the loop of `_get_disposition`, from buffer and position to buffer and position. -/
def Turn (e : Nat) (x y : Bytes × Nat) : Prop :=
  Inside e x.1 x.2 ∧
    ((IsName x.1 x.2 ∧ get_quoted x.1 (x.2 + 6) e = .ok (some y)) ∨
      (IsFilename x.1 x.2 ∧ get_quoted x.1 (x.2 + 10) e = .ok (some y)))

/-- Wherever the loop that starts at `val` meets a `name`, there are two bytes behind it. -/
def NamesFit (e : Nat) (buf : Bytes) (val : Nat) : Prop :=
  ∀ b q, Relation.ReflTransGen (Turn e) (buf, val) (b, q) → Inside e b q → IsName b q → q + 6 ≤ e

private theorem cmp_true {f : UInt8 → UInt8} {n : Nat} {s t : Bytes}
    (h : cmp f n s t = .ok true) (hlen : n ≤ t.length) (ht : ∀ c ∈ t, f c ≠ f NUL) :
    n ≤ s.length ∧ ∀ i < n, s[i]? ≠ some NUL := by
  induction n generalizing s t with
  | zero => exact ⟨Nat.zero_le _, fun i hi => absurd hi (Nat.not_lt_zero i)⟩
  | succ n ih =>
      cases s with
      | nil => cases h
      | cons b s =>
          cases t with
          | nil => exact absurd hlen (Nat.not_succ_le_zero n)
          | cons d t =>
              rw [cmp, List.headD_cons, List.tail_cons] at h
              have hd := ht d List.mem_cons_self
              split_ifs at h with hne hnul
              · cases h
              · rw [not_not, hnul] at hne
                exact absurd hne.symm hd
              · obtain ⟨hle, hi⟩ := ih h (Nat.le_of_succ_le_succ hlen)
                  fun c hc => ht c (List.mem_cons_of_mem d hc)
                refine ⟨Nat.succ_le_succ hle, fun i hlt => ?_⟩
                cases i with
                | zero => exact fun h => hnul (Option.some.inj h)
                | succ i => exact hi i (Nat.lt_of_succ_lt_succ hlt)

private theorem Ends.lt_of_cmp {n q k : Nat} {buf : Bytes} (h : Ends n buf)
    (hlen : k + 1 ≤ (buf.drop q).length) (hnul : (buf.drop q)[k]? ≠ some NUL) : q + (k + 1) ≤ n := by
  rw [List.length_drop, h.length] at hlen
  have hne : q + k ≠ n := by
    rintro rfl
    rw [List.getElem?_drop] at hnul
    exact hnul h.last
  omega

private theorem Ends.get_quoted_ok {n q : Nat} {buf : Bytes} (h : Ends n buf) (hq : q ≤ n) :
    ∃ r, get_quoted buf q n = .ok r ∧
      ∀ b q', r = some (b, q') → Ends n b ∧ q < q' ∧ q' ≤ n := by
  obtain ⟨z, hz, hqz, hzn⟩ := h.goto_chr_le DQUOTE hq
  obtain ⟨c, hload, hget⟩ := h.load_ok hzn
  by_cases hc : c = DQUOTE
  · have hlt := h.lt_of_ne hget (by rw [hc]; decide)
    have hclear := h.clear_ok hzn
    have hends := h.set z
    obtain ⟨d, hload', hget'⟩ := hends.load_ok (p := z + 1) hlt
    have hnext : (if d = SEMI then z + 1 + 1 else z + 1) ≤ n := by
      split_ifs with hd
      · exact hends.lt_of_ne hget' (by rw [hd]; decide)
      · exact hlt
    obtain ⟨v, hv, hle, hvn⟩ := hends.eat_space_le hnext
    refine ⟨some (buf.set z NUL, v), ?_, ?_⟩
    · simp only [get_quoted, hz, hload, if_pos hc, hclear, hload', hv, bind, Except.bind]
    · intro b q' heq
      cases heq
      refine ⟨hends, ?_, hvn⟩
      split_ifs at hle <;> omega
  · refine ⟨none, ?_, fun b q' heq => nomatch heq⟩
    simp only [get_quoted, hz, hload, if_neg hc, bind, Except.bind]

private theorem get_quoted_overrun {n q : Nat} {buf : Bytes} (h : Ends n buf) (hq : n < q) :
    get_quoted buf q n = .error .overrun := by
  have hnil : buf.drop q = [] := List.drop_eq_nil_of_le (by rw [h.length]; omega)
  have hchr : goto_chr n DQUOTE [] q = .error .overrun := by
    rw [goto_chr, if_neg (by omega)]
  simp only [get_quoted, hnil, hchr, bind, Except.bind]

private theorem get_disposition_ok {n q : Nat} {buf : Bytes} (fuel : Nat)
    (name filename : Option Nat) (h : Ends n buf) (hq : q ≤ n) (hfuel : n < q + fuel) (hfit : NamesFit n buf q)
    (hname : ∀ x, name = some x → x ≤ n) (hfile : ∀ x, filename = some x → x ≤ n) :
    ∃ d, get_disposition n fuel buf q name filename = .ok d ∧ Ends n d.buf ∧
      (∀ x, d.name = some x → x ≤ n) ∧ ∀ x, d.filename = some x → x ≤ n := by
  induction fuel generalizing buf q name filename with
  | zero => omega
  | succ fuel ih =>
      obtain ⟨c, hload, hget⟩ := h.load_ok hq
      obtain ⟨isName, hcmp⟩ := cmp_ok toLower 4 (str "name=\"") (h.mem_drop hq)
      obtain ⟨isFile, hcmp'⟩ := cmp_ok toLower 10 (str "filename=\"") (h.mem_drop hq)
      by_cases hin : c ≠ NUL ∧ q ≠ n
      · have hinside : Inside n buf q := ⟨⟨c, hload, hin.1⟩, hin.2⟩
        -- the rest of the loop, behind the value that starts at `q + k`
        have hrest : ∀ k (name filename : Option Nat), q + k ≤ n →
            (∀ y, get_quoted buf (q + k) n = .ok (some y) → Turn n (buf, q) y) →
            (∀ x, name = some x → x ≤ n) → (∀ x, filename = some x → x ≤ n) →
            ∃ r, get_quoted buf (q + k) n = .ok r ∧ ∀ y, r = some y →
              ∃ d, get_disposition n fuel y.1 y.2 name filename = .ok d ∧ Ends n d.buf ∧
                (∀ x, d.name = some x → x ≤ n) ∧ ∀ x, d.filename = some x → x ≤ n := by
          intro k name filename hle hturn hn hf
          obtain ⟨r, hr, hnext⟩ := h.get_quoted_ok hle
          refine ⟨r, hr, fun y hy => ?_⟩
          obtain ⟨hends, hlt, hle'⟩ := hnext y.1 y.2 hy
          have hstep := hturn y (by rw [hr, hy])
          exact ih name filename hends hle' (by omega) (fun b q' hreach => hfit b q' (.head hstep hreach)) hn hf
        cases isName with
        | true =>
            have hle := hfit buf q .refl hinside hcmp
            obtain ⟨r, hr, hnext⟩ := hrest 6 (some (q + 6)) filename hle
              (fun y hy => ⟨hinside, .inl ⟨hcmp, hy⟩⟩) (fun x hx => Option.some.inj hx ▸ hle) hfile
            simp only [get_disposition, hload, if_pos hin, hcmp, hr, bind, Except.bind, if_true]
            cases r with
            | none => exact ⟨_, rfl, h, fun x hx => Option.some.inj hx ▸ hle, hfile⟩
            | some y => exact hnext y rfl
        | false =>
            simp only [get_disposition, hload, if_pos hin, hcmp, hcmp', bind, Except.bind,
              Bool.false_eq_true, if_false]
            cases isFile with
            | true =>
                obtain ⟨hten, hnul⟩ := cmp_true hcmp' (by decide) (by decide +kernel)
                have hle : q + 10 ≤ n := h.lt_of_cmp hten (hnul 9 (by decide))
                obtain ⟨r, hr, hnext⟩ := hrest 10 name (some (q + 10)) hle
                  (fun y hy => ⟨hinside, .inr ⟨⟨hcmp, hcmp'⟩, hy⟩⟩) hname
                  (fun x hx => Option.some.inj hx ▸ hle)
                simp only [hr, if_true]
                cases r with
                | none => exact ⟨_, rfl, h, hname, fun x hx => Option.some.inj hx ▸ hle⟩
                | some y => exact hnext y rfl
            | false => exact ⟨_, rfl, h, hname, hfile⟩
      · simp only [get_disposition, hload, if_neg hin, bind, Except.bind]
        exact ⟨_, rfl, h, hname, hfile⟩

private theorem get_quoted_set {e q : Nat} {buf : Bytes} {y : Bytes × Nat}
    (h : get_quoted buf q e = .ok (some y)) : ∃ z, y.1 = buf.set z NUL := by
  simp only [get_quoted, bind, Except.bind] at h
  cases hchr : goto_chr e DQUOTE (buf.drop q) q with
  | error x => rw [hchr] at h; cases h
  | ok z =>
      simp only [hchr] at h
      cases hload : load buf z with
      | error x => rw [hload] at h; cases h
      | ok c =>
          simp only [hload] at h
          by_cases hc : c = DQUOTE
          case neg => rw [if_neg hc] at h; cases h
          rw [if_pos hc] at h
          cases hclear : clear buf z with
          | error x => rw [hclear] at h; cases h
          | ok buf₁ =>
              simp only [hclear] at h
              have hset : buf₁ = buf.set z NUL := by
                rw [clear] at hclear
                split_ifs at hclear
                exact (Except.ok.inj hclear).symm
              cases hnext : load buf₁ (z + 1) with
              | error x => rw [hnext] at h; cases h
              | ok d =>
                  simp only [hnext] at h
                  generalize (if d = SEMI then z + 1 + 1 else z + 1) = w at h
                  cases hspace : eat_space (buf₁.drop w) w with
                  | error x => rw [hspace] at h; cases h
                  | ok v =>
                      rw [hspace] at h
                      cases h
                      exact ⟨z, hset⟩

private theorem Ends.turns {n : Nat} {x y : Bytes × Nat} (h : Ends n x.1) {e : Nat}
    (hreach : Relation.ReflTransGen (Turn e) x y) : Ends n y.1 := by
  induction hreach with
  | refl => exact h
  | tail _ hturn ih =>
      obtain ⟨-, ⟨-, hquoted⟩ | ⟨-, hquoted⟩⟩ := hturn
      · obtain ⟨z, hz⟩ := get_quoted_set hquoted
        rw [hz]
        exact ih.set z
      · obtain ⟨z, hz⟩ := get_quoted_set hquoted
        rw [hz]
        exact ih.set z

private theorem get_disposition_overrun {n fuel q : Nat} {buf b : Bytes} {q' : Nat}
    {name filename : Option Nat} (hreach : Relation.ReflTransGen (Turn n) (buf, q) (b, q'))
    (hin : Inside n b q') (hname : IsName b q') (hends : Ends n b) (hout : n < q' + 6) :
    ∃ x, get_disposition n fuel buf q name filename = .error x := by
  generalize hx : (buf, q) = x at hreach
  generalize hy : (b, q') = y at hreach
  -- on the turns in front of the one that goes outside
  induction hreach using Relation.ReflTransGen.head_induction_on generalizing buf q fuel name
    filename with
  | refl =>
      cases hx.trans hy.symm
      cases fuel with
      | zero => exact ⟨.outOfFuel, rfl⟩
      | succ fuel =>
          obtain ⟨⟨c, hload, hc⟩, hne⟩ := hin
          refine ⟨.overrun, ?_⟩
          have hquoted := get_quoted_overrun hends hout
          simp only [IsName] at hname
          simp only [get_disposition, hload, hc, hne, ne_eq, not_false_eq_true, and_self, if_true,
            hname, hquoted, bind, Except.bind]
  | @head x z hstep _ ih =>
      cases fuel with
      | zero => exact ⟨.outOfFuel, rfl⟩
      | succ fuel =>
          cases hx
          obtain ⟨⟨⟨c, hload, hc⟩, hne⟩, hkey⟩ := hstep
          simp only at hload hne hkey
          rcases hkey with ⟨hname, hquoted⟩ | ⟨⟨hno, hfile⟩, hquoted⟩
          · have hnext : ∃ x, get_disposition n fuel z.1 z.2 (some (q + 6)) filename = .error x :=
              ih rfl
            obtain ⟨x, hx⟩ := hnext
            refine ⟨x, ?_⟩
            simp only [IsName] at hname
            simp only [get_disposition, hload, hc, hne, ne_eq, not_false_eq_true, and_self,
              if_true, hname, hquoted, bind, Except.bind]
            exact hx
          · have hnext : ∃ x, get_disposition n fuel z.1 z.2 name (some (q + 10)) = .error x :=
              ih rfl
            obtain ⟨x, hx⟩ := hnext
            refine ⟨x, ?_⟩
            simp only [get_disposition, hload, hc, hne, ne_eq, not_false_eq_true, and_self,
              if_true, hno, hfile, hquoted, bind, Except.bind, Bool.false_eq_true, if_false]
            exact hx

/-! ## Steps -/

/-- What the parser has found of a part while it looks for the end of its contents. -/
def HasData (n : Nat) (m : Machine) : Prop :=
  ∃ data dend, m.data = some data ∧ m.dend = some dend ∧ 0 < dend ∧ dend ≤ n

/-- What holds in front of each case. -/
def Ready (n : Nat) (m : Machine) : PState → Prop
  | state_begin => m.cap = false ∧ m.name = none ∧ m.filename = none
  | state_is_boundary =>
      m.cap = false ∧ ((m.state = state_error ∧ m.name = none ∧ m.filename = none) ∨
        (m.state = state_data ∧ 0 < m.p ∧ HasData n m))
  | state_boundary => m.cap = false ∧ ((m.name = none ∧ m.filename = none) ∨ HasData n m)
  | state_save_data | state_save_file =>
      (m.state = state_content ∨ m.state = state_end) ∧ HasData n m
  | state_data => m.cap = false ∧ 0 < m.p ∧ ∃ data, m.data = some data
  | state_header | state_content | state_error | state_end => m.cap = false

/-- The invariant of the loop over a body of `n` bytes: every pointer is inside the buffer. -/
structure Inv (n : Nat) (m : Machine) : Prop where
  ends : Ends n m.buf
  p_le : m.p ≤ n
  name_le : ∀ x, m.name = some x → x ≤ n
  filename_le : ∀ x, m.filename = some x → x ≤ n
  ready : Ready n m m.next_state

theorem Inv.e_eq {n : Nat} {m : Machine} (h : Inv n m) : m.e = n := by
  rw [Machine.e, h.ends.length]
  omega

/-- The cases in the order in which they follow each other at one position. -/
def rank : PState → Nat
  | state_error | state_end => 0
  | state_content | state_header | state_boundary | state_data => 1
  | state_begin | state_is_boundary | state_save_data | state_save_file => 2

/-- What every turn of the loop makes smaller. -/
def measure (n : Nat) (m : Machine) : Nat := 5 * (n - m.p) + rank m.next_state

/-- A turn that stays inside the buffer. -/
def Good (n : Nat) (m : Machine) (r : Step) : Prop :=
  ∃ o, r = .ok o ∧ ∀ m', o = .goon m' → Inv n m' ∧ measure n m' < measure n m

private theorem Good.goon {n : Nat} {m m' : Machine} (h : Inv n m')
    (hlt : measure n m' < measure n m) : Good n m (.ok (.goon m')) :=
  ⟨_, rfl, fun _ heq => by cases heq; exact ⟨h, hlt⟩⟩

private theorem Good.done {n : Nat} {m : Machine} (b : Result) : Good n m (.ok (.done b)) :=
  ⟨_, rfl, fun _ heq => nomatch heq⟩

section Cases

variable {n : Nat} {m : Machine}

/-- The case goes back to where it came from, at `q`. -/
private theorem back_good {m₀ : Machine} (h : Inv n m) (hnext : m.next_state = state_is_boundary)
    (hμ : measure n m = measure n m₀) {q : Nat} (hpq : m.p ≤ q) (hq : q ≤ n) :
    Good n m₀ (.ok (.goon { m with p := q, next_state := m.state })) := by
  have hready := h.ready
  rw [hnext] at hready
  obtain ⟨hcap, ⟨hstate, -⟩ | ⟨hstate, hpos, data, dend, hdata, -⟩⟩ := hready
  · refine .goon ⟨h.ends, hq, h.name_le, h.filename_le, ?_⟩ ?_
    · show Ready n _ m.state
      rw [hstate]
      exact hcap
    · rw [← hμ, measure, measure, hnext]
      simp only [hstate, rank]
      omega
  · refine .goon ⟨h.ends, hq, h.name_le, h.filename_le, ?_⟩ ?_
    · show Ready n _ m.state
      rw [hstate]
      exact ⟨hcap, Nat.lt_of_lt_of_le hpos hpq, data, hdata⟩
    · rw [← hμ, measure, measure, hnext]
      simp only [hstate, rank]
      omega

private theorem isBoundary_good {m₀ : Machine} (h : Inv n m) (hp : m.p < n)
    (hnext : m.next_state = state_is_boundary) (hμ : measure n m = measure n m₀) :
    Good n m₀ (isBoundary m) := by
  obtain ⟨c, hload, hget⟩ := h.ends.load_ok h.p_le
  obtain ⟨d, hload', hget'⟩ := h.ends.load_ok (p := m.p + 1) hp
  by_cases hc : c = DASH
  · by_cases hd : d = DASH
    · have hlt := h.ends.lt_of_ne hget' (by rw [hd]; decide)
      simp only [isBoundary, hload, hload', if_pos hc, if_pos hd, bind, Except.bind]
      have hready := h.ready
      rw [hnext] at hready
      refine .goon ⟨h.ends, hlt, h.name_le, h.filename_le, hready.1, ?_⟩ ?_
      · exact hready.2.imp (fun h => h.2) (fun h => h.2.2)
      · rw [← hμ, measure, measure, hnext]
        simp only [rank]
        omega
    · simp only [isBoundary, hload, hload', if_pos hc, if_neg hd, bind, Except.bind]
      exact back_good h hnext hμ (Nat.le_succ m.p) hp
  · simp only [isBoundary, hload, if_neg hc, bind, Except.bind]
    exact back_good h hnext hμ (Nat.le_refl m.p) h.p_le

private theorem pair_ok {buf : Bytes} {p : Nat} (h : Ends n buf) (hp : p ≤ n) {a b : UInt8}
    (ha : a ≠ NUL) (hb : b ≠ NUL) :
    ∃ r, pair buf p a b = .ok r ∧ (r = true → p + 2 ≤ n) := by
  obtain ⟨c, hload, hget⟩ := h.load_ok hp
  by_cases hc : c = a
  · have hlt := h.lt_of_ne hget (by rw [hc]; exact ha)
    obtain ⟨d, hload', hget'⟩ := h.load_ok (p := p + 1) hlt
    refine ⟨decide (d = b), ?_, fun hd => ?_⟩
    · simp only [pair, hload, if_pos hc, hload', bind, Except.bind]
    · exact h.lt_of_ne hget' (by rw [of_decide_eq_true hd]; exact hb)
  · refine ⟨false, ?_, fun h => nomatch h⟩
    simp only [pair, hload, if_neg hc, bind, Except.bind]

private theorem cmp_boundary {boundary : Bytes} (hboundary : NUL ∉ boundary) {buf : Bytes}
    (h : Ends n buf) {p : Nat} (hp : p ≤ n)
    (hcmp : cmp id boundary.length (buf.drop p) boundary = .ok true) :
    p + boundary.length ≤ n := by
  obtain ⟨hlen, hnul⟩ := cmp_true hcmp (Nat.le_refl _) fun c hc heq =>
    hboundary ((show c = NUL from heq) ▸ hc)
  cases hsize : boundary.length with
  | zero => exact hp
  | succ k =>
      rw [hsize] at hlen hnul
      exact h.lt_of_cmp hlen (hnul k (Nat.lt_succ_self k))

private theorem atBoundary_good {boundary : Bytes} (hboundary : NUL ∉ boundary) (h : Inv n m)
    (hnext : m.next_state = state_boundary) : Good n m (atBoundary boundary m) := by
  have hready := h.ready
  rw [hnext] at hready
  obtain ⟨hcap, hready⟩ := hready
  obtain ⟨same, hcmp⟩ := cmp_ok id boundary.length boundary (h.ends.mem_drop h.p_le)
  cases same with
  | false =>
      -- no boundary here: the position stays, and the next state is a later one
      simp only [atBoundary, hcmp, bind, Except.bind, Bool.false_eq_true, if_false]
      refine .goon ⟨h.ends, h.p_le, h.name_le, h.filename_le, hcap⟩ ?_
      rw [measure, measure, hnext]
      simp only [rank]
      omega
  | true =>
      have hle := cmp_boundary hboundary h.ends h.p_le hcmp
      obtain ⟨el, hel, hel2⟩ := pair_ok h.ends hle (a := CR) (b := LF) (by decide) (by decide)
      obtain ⟨eb, heb, heb2⟩ := pair_ok h.ends hle (a := DASH) (b := DASH) (by decide) (by decide)
      simp only [atBoundary, hcmp, hel, heb, bind, Except.bind, if_true]
      by_cases hend : (el || eb) = true
      · rw [if_pos hend]
        have hle2 : m.p + boundary.length + 2 ≤ n := by
          rcases Bool.or_eq_true_iff.mp hend with hb | hb
          · exact hel2 hb
          · exact heb2 hb
        -- a new line or two dashes behind the boundary: what was read so far is saved first
        have hstate : (if el = true then state_content else state_end) = state_content ∨
            (if el = true then state_content else state_end) = state_end := by
          cases el with
          | true => exact .inl rfl
          | false => exact .inr rfl
        by_cases hfile : m.filename.isSome = true
        · rw [if_pos hfile]
          have hdata : HasData n m := hready.resolve_left fun hnone => by
            rw [hnone.2] at hfile
            exact nomatch hfile
          refine .goon ⟨h.ends, hle2, h.name_le, h.filename_le, hstate, hdata⟩ ?_
          rw [measure, measure, hnext]
          simp only [rank]
          omega
        · rw [if_neg hfile]
          by_cases hname : m.name.isSome = true
          · rw [if_pos hname]
            have hdata : HasData n m := hready.resolve_left fun hnone => by
              rw [hnone.1] at hname
              exact nomatch hname
            refine .goon ⟨h.ends, hle2, h.name_le, h.filename_le, hstate, hdata⟩ ?_
            rw [measure, measure, hnext]
            simp only [rank]
            omega
          · rw [if_neg hname]
            refine .goon ⟨h.ends, hle2, h.name_le, h.filename_le, ?_⟩ ?_
            · show Ready n _ (if el = true then state_content else state_end)
              rcases hstate with hs | hs
              · rw [hs]; exact hcap
              · rw [hs]; exact hcap
            · have hlow : rank (if el = true then state_content else state_end) ≤ 1 := by
                rcases hstate with hs | hs
                · rw [hs]; decide
                · rw [hs]; decide
              rw [measure, measure, hnext]
              show 5 * (n - (m.p + boundary.length + 2)) +
                rank (if el = true then state_content else state_end) < 5 * (n - m.p) + 1
              omega
      · rw [if_neg hend]
        refine .goon ⟨h.ends, hle, h.name_le, h.filename_le, hcap⟩ ?_
        rw [measure, measure, hnext]
        simp only [rank]
        omega

private theorem Ends.string_ok {buf : Bytes} (h : Ends n buf) {q : Option Nat}
    (hq : ∀ x, q = some x → x ≤ n) : ∃ r, string buf q = .ok r := by
  cases q with
  | none => exact ⟨[], rfl⟩
  | some x => exact cstr_ok (h.mem_drop (hq x rfl))

/-- Behind a part that was saved comes the next one or the end. -/
private theorem saved_good (hash : Bytes → UInt64) (h : Inv n m)
    (hnext : m.next_state = state_save_data ∨ m.next_state = state_save_file) :
    Good n m (if m.next_state = state_save_data then saveData hash m else saveFile hash m) := by
  have hready : (m.state = state_content ∨ m.state = state_end) ∧ HasData n m := by
    have hready := h.ready
    rcases hnext with hs | hs
    · rw [hs] at hready; exact hready
    · rw [hs] at hready; exact hready
  have hrank : rank m.next_state = 2 := by
    rcases hnext with hs | hs
    · rw [hs]; rfl
    · rw [hs]; rfl
  obtain ⟨hstate, data, dend, hdata, hdend, hpos, hle⟩ := hready
  have hbefore : before dend = .ok (dend - 1) := if_neg (by omega)
  have hlow : rank m.state < 2 := by
    rcases hstate with hs | hs
    · rw [hs]; decide
    · rw [hs]; decide
  have hcont : ∀ m' : Machine, m'.cap = false → Ready n m' m.state := fun m' hcap => by
    rcases hstate with hs | hs
    · rw [hs]; exact hcap
    · rw [hs]; exact hcap
  split_ifs with hs
  · have hclear := h.ends.clear_ok (p := dend - 1) (by omega)
    have hends := h.ends.set (dend - 1)
    obtain ⟨tmp, htmp⟩ := hends.string_ok h.name_le
    simp only [saveData, hdend, hdata, deref, hbefore, hclear, htmp, bind, Except.bind]
    refine .goon ⟨hends, h.p_le, (by intro x hx; cases hx), h.filename_le, hcont _ rfl⟩ ?_
    rw [measure, measure, hrank]
    exact Nat.add_lt_add_left hlow _
  · have hclear := h.ends.clear_ok hle
    have hends := h.ends.set dend
    obtain ⟨tmp, htmp⟩ := hends.string_ok h.name_le
    obtain ⟨tmp', htmp'⟩ := hends.string_ok h.filename_le
    simp only [saveFile, hdend, hdata, deref, hbefore, hclear, htmp, htmp', bind, Except.bind]
    refine .goon ⟨hends, h.p_le, h.name_le, (by intro x hx; cases hx), hcont _ rfl⟩ ?_
    rw [measure, measure, hrank]
    exact Nat.add_lt_add_left hlow _

/-! ## The turns that may leave the buffer -/

/-- The turn reads the disposition that starts at `val`, in this buffer. -/
def ReadsDisposition (m : Machine) (buf : Bytes) (val : Nat) : Prop :=
  ∃ h, get_header m.buf m.p m.e = .ok h ∧ h.ok = true ∧
    cmp toLower 20 (h.buf.drop h.f) (str "Content-Disposition") = .ok true ∧
    clear h.buf (h.p + 1 - 2) = .ok buf ∧
    cmp toLower 9 (buf.drop h.v) (str "form-data") = .ok true ∧
    eat_space (buf.drop (h.v + 10)) (h.v + 10) = .ok val

/-- Where the turn reads a header; the position moves over a carriage return without a line feed. -/
def fieldAt (buf : Bytes) (p : Nat) : Option Nat :=
  if buf[p]? = some CR then if buf[p + 1]? = some LF then none else some (p + 1) else some p

/-- The condition under which a turn stays inside the buffer. -/
def TurnFits (m : Machine) : Prop :=
  (m.next_state = state_content → HeaderFits (m.buf.drop m.p) ∧
    ∀ buf val, ReadsDisposition m buf val → NamesFit m.e buf val) ∧
  (m.next_state = state_header → ∀ q, fieldAt m.buf m.p = some q → HeaderFits (m.buf.drop q))

private theorem atContent_good (h : Inv n m) (hnext : m.next_state = state_content)
    (hfits : TurnFits m) : Good n m (atContent m) := by
  obtain ⟨hheader, hnames⟩ := hfits.1 hnext
  have he := h.e_eq
  have hcap : m.cap = false := by
    have hready := h.ready
    rw [hnext] at hready
    exact hready
  obtain ⟨hd, hhd, hin⟩ := get_header_ok h.ends h.p_le hheader
  -- the parser gives up behind the header
  have hgiveup : ∀ (buf : Bytes) (p : Nat) (name filename : Option Nat), Ends n buf → m.p ≤ p →
      p ≤ n → (∀ x, name = some x → x ≤ n) → (∀ x, filename = some x → x ≤ n) →
      Good n m (.ok (.goon { m with
        buf := buf, p := p, name := name, filename := filename, state := state_content,
        next_state := state_error })) := by
    intro buf p name filename hends hle hp hn hf
    refine .goon ⟨hends, hp, hn, hf, hcap⟩ ?_
    rw [measure, measure, hnext]
    simp only [rank]
    omega
  have hhd' : get_header m.buf m.p m.e = .ok hd := by rw [he]; exact hhd
  have hee : Machine.e { m with state := state_content, next_state := state_error } = n := he
  simp only [atContent, hee, hhd, bind, Except.bind]
  cases hok : hd.ok with
  | false =>
      simp only [Bool.not_false, if_true]
      exact hgiveup hd.buf hd.p m.name m.filename hin.ends hin.le hin.p_le h.name_le h.filename_le
  | true =>
      obtain ⟨hlt, hpp, hvp⟩ := hin.ok hok
      -- the header has to be a disposition, and a form, with names in it
      obtain ⟨same, hcmp⟩ := cmp_ok toLower 20 (str "Content-Disposition")
        (hin.ends.mem_drop hin.f_le)
      simp only [Bool.not_true, Bool.false_eq_true, if_false, hcmp]
      cases same with
      | false =>
          simp only [Bool.false_eq_true, if_false]
          exact hgiveup hd.buf hd.p m.name m.filename hin.ends hin.le hin.p_le h.name_le
            h.filename_le
      | true =>
          have hclear := hin.ends.clear_ok (p := hd.p + 1 - 2) (by omega)
          have hends := hin.ends.set (hd.p + 1 - 2)
          obtain ⟨form, hform⟩ := cmp_ok toLower 9 (str "form-data") (hends.mem_drop hin.v_le)
          simp only [if_true, hclear, hform]
          cases form with
          | false =>
              simp only [Bool.false_eq_true, if_false]
              exact hgiveup _ (hd.p + 1) m.name m.filename hends (by omega) hlt h.name_le
                h.filename_le
          | true =>
              have hval : hd.v + 10 ≤ n := by
                -- the value ends in a NUL, and it is longer than `form-data`
                obtain ⟨-, hnul⟩ := cmp_true hform (by decide) (by decide +kernel)
                have hat : (hd.buf.set (hd.p + 1 - 2) NUL)[hd.p + 1 - 2]? = some NUL := by
                  rw [List.getElem?_set_self (by rw [hin.ends.length]; omega)]
                rcases Nat.lt_or_ge (hd.p + 1 - 2) (hd.v + 9) with hshort | hlong
                · have := hnul (hd.p + 1 - 2 - hd.v) (by omega)
                  rw [List.getElem?_drop, Nat.add_sub_cancel' (by omega)] at this
                  exact absurd hat this
                · omega
              obtain ⟨val, hspace, hle, hvaln⟩ := hends.eat_space_le hval
              have hfit : NamesFit n (hd.buf.set (hd.p + 1 - 2) NUL) val := by
                have hfit := hnames _ val ⟨hd, hhd', hok, hcmp, hclear, hform, hspace⟩
                rwa [he] at hfit
              obtain ⟨d, hd', hdends, hdname, hdfile⟩ := get_disposition_ok
                (hd.buf.set (hd.p + 1 - 2) NUL).length none none hends hvaln
                (by rw [hends.length]; omega) hfit (by intro x hx; cases hx)
                (by intro x hx; cases hx)
              have hee' : Machine.e { m with
                  buf := hd.buf.set (hd.p + 1 - 2) NUL, p := hd.p + 1, state := state_content,
                  next_state := state_error } = n := by
                rw [Machine.e]
                show (hd.buf.set (hd.p + 1 - 2) NUL).length - 1 = n
                rw [hends.length]
                omega
              simp only [if_true, hspace, hee', hd']
              cases d.ok with
              | false =>
                  simp only [Bool.false_eq_true, if_false]
                  exact hgiveup d.buf (hd.p + 1) d.name d.filename hdends (by omega) hlt hdname
                    hdfile
              | true =>
                  simp only [if_true]
                  refine .goon ⟨hdends, hlt, hdname, hdfile, hcap⟩ ?_
                  rw [measure, measure, hnext]
                  simp only [rank]
                  omega

private theorem atField_good {m₀ : Machine} (h : Inv n m) (hnext : m.next_state = state_header)
    (hμ : measure n m ≤ measure n m₀)
    (hheader : HeaderFits (m.buf.drop m.p)) : Good n m₀ (atField m) := by
  have he := h.e_eq
  have hcap : m.cap = false := by
    have hready := h.ready
    rw [hnext] at hready
    exact hready
  rw [measure, hnext] at hμ
  simp only [rank] at hμ
  obtain ⟨hd, hhd, hin⟩ := get_header_ok h.ends h.p_le hheader
  simp only [atField, he, hhd, bind, Except.bind]
  cases hok : hd.ok with
  | false =>
      simp only [Bool.false_eq_true, if_false]
      refine .goon ⟨hin.ends, hin.p_le, h.name_le, h.filename_le, hcap⟩ ?_
      have := hin.le
      rw [measure]
      simp only [rank]
      omega
  | true =>
      obtain ⟨hlt, hpp, -⟩ := hin.ok hok
      have hclear := hin.ends.clear_ok (p := hd.p + 1 - 2) (by omega)
      simp only [if_true, hclear]
      refine .goon ⟨hin.ends.set _, hlt, h.name_le, h.filename_le, ?_⟩ ?_
      · show Ready n _ m.next_state
        rw [hnext]
        exact hcap
      · rw [measure]
        simp only [hnext, rank]
        omega

private theorem atHeader_good (h : Inv n m) (hp : m.p < n) (hnext : m.next_state = state_header)
    (hfits : TurnFits m) : Good n m (atHeader m) := by
  have hheader := hfits.2 hnext
  have hcap : m.cap = false := by
    have hready := h.ready
    rw [hnext] at hready
    exact hready
  have hinv : ∀ q, q ≤ n → Inv n { m with state := state_header, p := q } := fun q hq =>
    ⟨h.ends, hq, h.name_le, h.filename_le, by
      show Ready n _ m.next_state
      rw [hnext]
      exact hcap⟩
  obtain ⟨c, hload, hget⟩ := h.ends.load_ok h.p_le
  obtain ⟨d, hload', hget'⟩ := h.ends.load_ok (p := m.p + 1) hp
  by_cases hc : c = CR
  · by_cases hd : d = LF
    · have hlt := h.ends.lt_of_ne hget' (by rw [hd]; decide)
      simp only [atHeader, hload, hload', if_pos hc, if_pos hd, bind, Except.bind]
      refine .goon ⟨h.ends, hlt, h.name_le, h.filename_le, hcap, ?_, m.p + 2, rfl⟩ ?_
      · exact Nat.succ_pos _
      · rw [measure, measure, hnext]
        simp only [rank]
        omega
    · simp only [atHeader, hload, hload', if_pos hc, if_neg hd, bind, Except.bind]
      refine atField_good (hinv (m.p + 1) hp) hnext ?_ (hheader (m.p + 1) ?_)
      · rw [measure, measure]
        simp only
        omega
      · rw [fieldAt, hget, hget', hc, if_pos rfl, if_neg fun h => hd (Option.some.inj h)]
  · simp only [atHeader, hload, if_neg hc, bind, Except.bind]
    refine atField_good (hinv m.p h.p_le) hnext (Nat.le_refl _) (hheader m.p ?_)
    rw [fieldAt, hget, if_neg fun h => hc (Option.some.inj h)]

/-- **A turn under its condition stays inside the buffer.** -/
theorem step_good (hash : Bytes → UInt64) {boundary : Bytes} (hboundary : NUL ∉ boundary)
    (h : Inv n m) (hfits : TurnFits m) : Good n m (step hash boundary m) := by
  rw [step]
  split_ifs with hguard
  · have hp : m.cap = false → m.p < n := by
      intro hcap
      rw [hcap, Bool.false_or, decide_eq_true_eq, h.e_eq] at hguard
      have := h.p_le
      omega
    have hready := h.ready
    cases hnext : m.next_state with
    | state_begin =>
        -- the first boundary is looked for like the others, before there are data
        rw [hnext] at hready
        refine isBoundary_good ⟨h.ends, h.p_le, h.name_le, h.filename_le, hready.1,
          .inl ⟨rfl, hready.2⟩⟩ (hp hready.1) rfl ?_
        rw [measure, measure, hnext]
        rfl
    | state_is_boundary =>
        rw [hnext] at hready
        exact isBoundary_good h (hp hready.1) hnext rfl
    | state_boundary => exact atBoundary_good hboundary h hnext
    | state_save_data =>
        have hsaved := saved_good hash h (.inl hnext)
        rwa [if_pos hnext] at hsaved
    | state_save_file =>
        have hsaved := saved_good hash h (.inr hnext)
        rwa [if_neg (by rw [hnext]; decide)] at hsaved
    | state_header =>
        rw [hnext] at hready
        exact atHeader_good h (hp hready) hnext hfits
    | state_content => exact atContent_good h hnext hfits
    | state_data =>
        rw [hnext] at hready
        obtain ⟨hcap, hpos, data, hdata⟩ := hready
        have hlt := hp hcap
        refine .goon ⟨h.ends, hlt, h.name_le, h.filename_le, hcap,
          .inr ⟨rfl, Nat.succ_pos _, data, m.p, hdata, rfl, hpos, h.p_le⟩⟩ ?_
        rw [measure, measure, hnext]
        simp only [rank]
        omega
    | state_error => exact .done _
    | state_end => exact .done _
  · exact .done _

private theorem fits_at_end (h : Inv n m) (hp : m.p = n) : TurnFits m := by
  -- nothing but the NUL is left, and no header starts there
  have hdrop : m.buf.drop n = [NUL] := by
    obtain ⟨hlt, hget⟩ := List.getElem?_eq_some_iff.mp h.ends.last
    rw [List.drop_eq_getElem_cons hlt, hget, List.drop_eq_nil_of_le
      (Nat.le_of_eq h.ends.length)]
  have hfits : HeaderFits [NUL] := by
    rintro ⟨t, k, hs, -, -⟩
    have hlen := congrArg List.length hs
    simp only [List.length_append, List.length_cons, List.length_nil, List.length_replicate] at hlen
    omega
  refine ⟨fun _ => ⟨by rw [hp, hdrop]; exact hfits, ?_⟩, fun _ q hq => ?_⟩
  · rintro buf val ⟨hd, hhd, hok, -⟩
    have hnone : chr COLON [NUL] n = .ok none := rfl
    simp only [get_header, hp, hdrop, hnone, bind, Except.bind] at hhd
    cases hhd
    cases hok
  · have hnot : m.buf[n]? ≠ some CR := by rw [h.ends.last]; decide
    rw [fieldAt, hp, if_neg hnot] at hq
    cases hq
    rw [hdrop]
    exact hfits

/-- **A turn that does not meet its condition leaves the buffer.** -/
theorem step_overrun (hash : Bytes → UInt64) (boundary : Bytes) (h : Inv n m)
    (hfits : ¬ TurnFits m) : ∃ x, step hash boundary m = .error x := by
  have hp : m.p ≠ m.e := fun hp => hfits (fits_at_end h (hp.trans h.e_eq))
  have hguard : (m.cap || decide (m.p ≠ m.e)) = true := by
    rw [decide_eq_true hp, Bool.or_true]
  rw [step, if_pos hguard]
  rw [TurnFits, not_and_or] at hfits
  rcases hfits with hcontent | hfield
  · obtain ⟨hnext, hfits⟩ := Classical.not_imp.mp hcontent
    rw [hnext]
    show ∃ x, atContent m = .error x
    have hee : Machine.e { m with state := state_content, next_state := state_error } = n := h.e_eq
    -- either the header leaves the buffer, or one of the names of its disposition does
    rcases not_and_or.mp hfits with hheader | hdisp
    · obtain ⟨x, hx⟩ := get_header_overrun h.ends hheader
      exact ⟨x, by simp only [atContent, hee, hx, bind, Except.bind]⟩
    · simp only [not_forall] at hdisp
      obtain ⟨buf, val, ⟨hd, hhd, hok, hcmp, hclear, hform, hspace⟩, hnames⟩ := hdisp
      rw [NamesFit] at hnames
      simp only [not_forall, Nat.not_le] at hnames
      obtain ⟨b, q, hreach, hin, hname, hout⟩ := hnames
      rw [h.e_eq] at hhd hreach hin hout
      have hheader : HeaderIn n m.p hd := by
        by_cases hfits : HeaderFits (m.buf.drop m.p)
        · obtain ⟨hd', hhd', hin'⟩ := get_header_ok h.ends h.p_le hfits
          rw [hhd] at hhd'
          cases hhd'
          exact hin'
        · obtain ⟨x, hx⟩ := get_header_overrun h.ends hfits
          rw [hhd] at hx
          cases hx
      have hends : Ends n buf := by
        rw [hheader.ends.clear_ok (by have := hheader.p_le; omega)] at hclear
        cases hclear
        exact hheader.ends.set _
      have hover : ∃ x, get_disposition n buf.length buf val none none = .error x :=
        get_disposition_overrun hreach hin hname (hends.turns hreach) hout
      obtain ⟨x, hx⟩ := hover
      have hee' : Machine.e { m with
          buf := buf, p := hd.p + 1, state := state_content, next_state := state_error } = n := by
        show buf.length - 1 = n
        rw [hends.length]
        omega
      refine ⟨x, ?_⟩
      simp only [atContent, hee, hhd, hok, Bool.not_true, Bool.false_eq_true, if_false, hcmp,
        if_true, hclear, hform, hspace, hee', hx, bind, Except.bind]
  · obtain ⟨hnext, hfits⟩ := Classical.not_imp.mp hfield
    rw [hnext]
    show ∃ x, atHeader m = .error x
    simp only [not_forall] at hfits
    obtain ⟨q, hq, hheader⟩ := hfits
    obtain ⟨x, hx⟩ := get_header_overrun h.ends hheader
    obtain ⟨c, hload, hget⟩ := h.ends.load_ok h.p_le
    have hlt : m.p < n := by
      have := h.p_le
      have := h.e_eq
      omega
    obtain ⟨d, hload', hget'⟩ := h.ends.load_ok (p := m.p + 1) hlt
    have hee : ∀ p, Machine.e { m with state := state_header, p := p } = n := fun _ => h.e_eq
    refine ⟨x, ?_⟩
    rw [fieldAt, hget, hget'] at hq
    by_cases hc : c = CR
    · rw [hc, if_pos rfl] at hq
      by_cases hd : d = LF
      · rw [hd, if_pos rfl] at hq
        cases hq
      · rw [if_neg fun h => hd (Option.some.inj h)] at hq
        cases hq
        simp only [atHeader, hload, hload', if_pos hc, if_neg hd, atField, hee, hx, bind,
          Except.bind]
    · rw [if_neg fun h => hc (Option.some.inj h)] at hq
      cases hq
      simp only [atHeader, hload, if_neg hc, atField, hee m.p, hx, bind, Except.bind]

end Cases

/-! ## Runs -/

section Runs

variable {hash : Bytes → UInt64} {boundary body : Bytes}

theorem start_inv (body : Bytes) : Inv body.length (start body NUL) := by
  refine ⟨⟨?_, ?_⟩, Nat.zero_le _, (by intro x hx; cases hx), (by intro x hx; cases hx),
    rfl, rfl, rfl⟩
  · rw [start, List.length_append, List.length_singleton]
  · rw [start, List.getElem?_append_right (Nat.le_refl _), Nat.sub_self]
    rfl

private theorem step_inv (hboundary : NUL ∉ boundary) {n : Nat} {m m' : Machine} (h : Inv n m)
    (hstep : step hash boundary m = .ok (.goon m')) :
    Inv n m' ∧ measure n m' < measure n m := by
  by_cases hfits : TurnFits m
  · obtain ⟨o, ho, hnext⟩ := step_good hash hboundary h hfits
    rw [hstep] at ho
    exact hnext m' (Except.ok.inj ho).symm
  · obtain ⟨x, hx⟩ := step_overrun hash boundary h hfits
    rw [hstep] at hx
    cases hx

theorem reaches_inv (hboundary : NUL ∉ boundary) {n : Nat} {m m' : Machine} (h : Inv n m)
    (hreach : Reaches (step hash boundary) m m') : Inv n m' :=
  hreach.invariant h fun _ _ h hstep => (step_inv hboundary h hstep).1

/-- The parser returns, and its cursor never passes the end of the body; the byte `behind` lies
behind the body. -/
def Safe (hash : Bytes → UInt64) (boundary body : Bytes) (behind : UInt8) : Prop :=
  (∃ r, parse_multipart_form hash boundary body behind = .ok r) ∧
    ∀ m, Reaches (step hash boundary) (start body behind) m → m.p ≤ m.e

/-- **Behind a NUL the parser is safe exactly when every turn that it takes meets its condition.** -/
theorem parse_safe_iff (hboundary : NUL ∉ boundary) :
    Safe hash boundary body NUL ↔ body.length < capacity body.length ∧
      ∀ m, Reaches (step hash boundary) (start body NUL) m → TurnFits m := by
  have hstart := start_inv body
  -- every turn that goes on makes the measure smaller, so the loop ends
  have hsome : (run (step hash boundary) (5 * body.length + 8) (start body NUL)).isSome := by
    refine run_isSome (μ := measure body.length) (P := Inv body.length)
      (fun _ _ h hstep => (step_inv hboundary h hstep).1)
      (fun _ _ h hstep => (step_inv hboundary h hstep).2) hstart ?_
    rw [measure]
    simp only [start, rank]
    omega
  obtain ⟨r, hr⟩ := Option.isSome_iff_exists.mp hsome
  have hparse : body ≠ [] → body.length < capacity body.length →
      parse_multipart_form hash boundary body NUL = r := by
    intro hne hcap
    rw [parse_multipart_form, if_neg hne, if_neg (Nat.not_le.mpr hcap), hr]
  have hempty : body = [] → r = .ok (false, [], []) := by
    rintro rfl
    exact (Option.some.inj hr).symm
  constructor
  · rintro ⟨⟨res, hres⟩, -⟩
    have hcap : body.length < capacity body.length := by
      by_cases hne : body = []
      · rw [hne]
        decide
      · rw [parse_multipart_form, if_neg hne] at hres
        split_ifs at hres with hcap
        · exact Nat.not_le.mp hcap
    refine ⟨hcap, fun m hreach => ?_⟩
    have hok : ∃ res, r = .ok res := by
      by_cases hne : body = []
      · exact ⟨_, hempty hne⟩
      · exact ⟨res, (hparse hne hcap).symm.trans hres⟩
    by_contra hfits
    obtain ⟨x, hx⟩ := step_overrun hash boundary
      (reaches_inv hboundary hstart hreach) hfits
    have hrun : run (step hash boundary) 1 m = some (.error x) := by rw [run, hx]
    have hlast := run_of_reaches hreach hr hrun
    obtain ⟨res, hok⟩ := hok
    rw [hok] at hlast
    cases hlast
  · rintro ⟨hcap, hfits⟩
    refine ⟨?_, fun m hreach => ?_⟩
    · obtain ⟨m, hreach, ⟨b, -, hb⟩ | ⟨x, hx, -⟩⟩ := exists_last hr
      · by_cases hne : body = []
        · exact ⟨(false, [], []), by rw [parse_multipart_form, if_pos hne]⟩
        · exact ⟨b, (hparse hne hcap).trans hb⟩
      · obtain ⟨o, ho, -⟩ := step_good hash hboundary
          (reaches_inv hboundary hstart hreach) (hfits m hreach)
        rw [hx] at ho
        cases ho
    · have hinv := reaches_inv hboundary hstart hreach
      rw [hinv.e_eq]
      exact hinv.p_le

end Runs

/-- The body of a form without parts. -/
theorem parse_safe_noParts : Safe (fun _ => 0) (str "XX") (str "--XX--\r\n") NUL := by
  apply (parse_safe_iff (by decide)).mpr
  refine ⟨by decide, fun m hreach => ?_⟩
  let first := start (str "--XX--\r\n") NUL
  have hstates : m = first ∨
      m = { first with p := 2, state := state_is_boundary, next_state := state_boundary } ∨
      m = { first with p := 6, state := state_end, next_state := state_end } := by
    refine Reaches.invariant (P := fun m => m = first ∨
      m = { first with p := 2, state := state_is_boundary, next_state := state_boundary } ∨
      m = { first with p := 6, state := state_end, next_state := state_end }) hreach (.inl rfl) ?_
    rintro s s' (rfl | rfl | rfl) hstep
    · cases hstep
      exact .inr (.inl rfl)
    · cases hstep
      exact .inr (.inr rfl)
    · cases hstep
  rcases hstates with rfl | rfl | rfl
  · exact ⟨(by intro h; cases h), (by intro h; cases h)⟩
  · exact ⟨(by intro h; cases h), (by intro h; cases h)⟩
  · exact ⟨(by intro h; cases h), (by intro h; cases h)⟩

/-- Nothing follows the colon, and the loop that looks for the end of the value starts behind the
NUL. -/
theorem parse_unsafe_colon :
    ¬ Safe (fun _ => 0) (str "XX") (str "--XX\r\nContent-Disposition:") NUL := by
  rintro ⟨⟨r, hr⟩, -⟩
  have herror : (parse_multipart_form (fun _ => 0) (str "XX")
      (str "--XX\r\nContent-Disposition:") NUL).toOption = none := by decide
  rw [hr] at herror
  cases herror

end Suil.Http.Multipart
